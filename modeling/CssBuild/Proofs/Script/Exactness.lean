import CssBuild.Proofs.Script.Calls
import CssBuild.Proofs.Script.Exports

/-!
# CssBuild.Proofs.Script.Exactness

Integer literals are exact or refused.

1. A number is read as one node, whatever it writes, and so is a number behind
   a sign (`readableAs_withSign`).
2. The value of an integer literal is the integer that it spells, as long as
   the integer is one that a number can be (`ofScript_integer`).
3. Digits of a radix that spell a larger integer are no number, since only
   decimal digits go on to a double. The reader fails wherever such a literal
   stands as a value (`ofScript_unwritten`).
-/

namespace CssBuild

namespace Script

/-! ## Signs -/

/-- The texts of a literal with a sign or without. -/
inductive WithSign (literal : List Char) : List Char → Prop where
  | plain : WithSign literal literal
  | signed {sign : Char} {gap : List Char} (isSign : sign = '+' ∨ sign = '-')
    (trivia : Trivia gap) : WithSign literal (sign :: (gap ++ literal))

/-- Whether an expression is a number, as it is spelled, with a sign or without. -/
inductive Expr.IsNumber (literal : List Char) : Expr → Prop where
  | plain (start : List Char) : IsNumber literal (.number start literal)
  | signed (start text at_ : List Char) {sign : Char} (isSign : sign = '+' ∨ sign = '-') :
    IsNumber literal (.signed start text [sign] (.number at_ literal))

/-- A number is read as itself, behind a sign or not. -/
theorem readableAs_withSign {literal text : List Char} (h : NumberToken literal)
    (hsign : WithSign literal text) : ReadableAs (Expr.IsNumber literal) text := by
  cases hsign with
  | plain =>
    refine (readableAs_number h).imp ?_
    rintro _ ⟨start, rfl⟩
    exact .plain start
  | signed isSign trivia =>
    refine (readableAs_signed h isSign trivia).imp ?_
    rintro _ ⟨start, at_, rfl⟩
    exact .signed start _ at_ isSign

/-! ## Literals without a value -/

/-- What a literal without a value is reported as. -/
def notNumber (literal : List Char) : String :=
  "unsupported number " ++ inTicks (String.ofList literal)

/-- A number that its literal does not write has no value, and a sign does not give it one. -/
theorem Expr.IsNumber.value_eq_error {literal : List Char} {e : Expr} (h : e.IsNumber literal)
    (hnone : numberValue? literal = none) :
    ∃ start, ∀ path, e.value path = .error ⟨notNumber literal, start⟩ := by
  have hvalue (start : List Char) :
      numberValue start literal = .error ⟨notNumber literal, start⟩ := by
    rw [numberValue, hnone]
    rfl
  cases h with
  | plain start => exact ⟨start, fun path => by rw [Expr.value, hvalue]; rfl⟩
  | signed start text at_ isSign =>
    refine ⟨at_, fun path => ?_⟩
    obtain rfl | rfl := isSign <;> simp [Expr.value, signedValue, hvalue, bind, Except.bind]

theorem Expr.IsNumber.not_writes {literal : List Char} {e : Expr} (h : e.IsNumber literal)
    (hnone : numberValue? literal = none) (tree : Json) : ¬ e.Writes tree := by
  intro hwrites
  obtain ⟨start, herror⟩ := h.value_eq_error hnone
  have hkept : e.CallsKept "" := by cases h <;> exact fun _ hat => nomatch hat
  have hvalue := (Expr.value_eq_ok "" e tree).2 ⟨hwrites, hkept⟩
  rw [herror] at hvalue
  cases hvalue

/-- Digits of a radix that spell more than a number can be are no number. -/
theorem numberValue?_large {letter : Char} {radix : Nat} {digits : List Char}
    (marks : (letter, radix) ∈ radixLetters) (isDigits : Digits radix digits)
    (large : 0x10000000000000000 ≤ numberOf radix (withoutMarks digits)) :
    numberValue? ('0' :: letter :: digits) = none := by
  rw [numberValue?_radix marks isDigits]
  exact (ofInt?_eq_none _ (by omega)).1

end Script

open Script

namespace Document

/-- A module in which some value has none fails as a whole. -/
theorem ofScript_unwritten {text : String} {statements : List Statement} {inner value : Expr}
    {steps : List Step} (module : readModule text.toList = .ok statements)
    (exports : exported? statements = some value) (holds : inner.Holds steps value)
    (unwritten : ∀ tree, ¬ inner.Writes tree) (source? : Option Path) :
    ∃ place details, ofScript text source? = .error (.atPlace source? place details) := by
  have hread : readTree text.toList = value.value "" := by
    rw [readTree, module, ok_bind, exports]
  rw [ofScript, hread]
  cases hvalue : value.value "" with
  | error fault => exact ⟨_, _, rfl⟩
  | ok tree =>
    obtain ⟨part, hpart, -⟩ := holds.exists_writes (value_root_eq_ok.1 hvalue).1
    exact absurd hpart (unwritten part)

/-- An integer literal is exactly the integer that it spells, in every radix and wherever it stands,
as long as a number can be that integer; a literal with a radix that spells a larger one makes the
reader fail, wherever it stands. -/
theorem ofScript_integer {gap rest : List Char} (trivia : Trivia gap) (ends : EndsText rest)
    (source? : Option Path) :
    (∀ {value : Int} {text : List Char}, SignedText value text →
      ∀ bounded : -0x8000000000000000 ≤ value ∧ value < 0x10000000000000000,
        Readable (.number (.integer value bounded)) text ∧
        ofScript ("module.exports = " ++ String.ofList (gap ++ (text ++ rest))) source? =
          .ok ⟨.number (.integer value bounded), []⟩) ∧
    ∀ {letter : Char} {radix : Nat} {digits text : List Char}, (letter, radix) ∈ radixLetters →
      Digits radix digits → 0x10000000000000000 ≤ numberOf radix (withoutMarks digits) →
      WithSign ('0' :: letter :: digits) text →
        ReadableAs (Expr.IsNumber ('0' :: letter :: digits)) text ∧
        (∃ place, ofScript ("module.exports = " ++ String.ofList (gap ++ (text ++ rest))) source? =
          .error (.atPlace source? place (notNumber ('0' :: letter :: digits)))) ∧
        ∀ {module : String} {statements : List Statement} {inner value : Expr} {steps : List Step},
          readModule module.toList = .ok statements → exported? statements = some value →
          inner.IsNumber ('0' :: letter :: digits) → inner.Holds steps value →
            ∃ place details, ofScript module source? = .error (.atPlace source? place details) := by
  constructor
  · intro value text literal bounded
    have hreadable := readable_number (.integer literal bounded)
    obtain ⟨e, hvalue, hread⟩ := exists_value_exporting hreadable trivia ends
    refine ⟨hreadable, ?_⟩
    rw [ofScript, toList_exporting, String.toList_ofList, hread, hvalue ""]
    rfl
  · intro letter radix digits text marks isDigits large sign
    have hnone := numberValue?_large marks isDigits large
    have htoken := numberToken_integer (.radix marks isDigits)
    have hreadable := readableAs_withSign htoken sign
    refine ⟨hreadable, ?_, fun module exports isNumber holds =>
      ofScript_unwritten module exports holds (isNumber.not_writes hnone) source?⟩
    obtain ⟨e, isNumber, hread⟩ := exists_value_exporting hreadable trivia ends
    obtain ⟨start, herror⟩ := isNumber.value_eq_error hnone
    rw [ofScript, toList_exporting, String.toList_ofList, hread, herror ""]
    exact ⟨_, rfl⟩

/-- The least integer that a number can be, a negative zero, and digits that are one too large for
any sign. -/
theorem ofScript_integer_bounds :
    ofScript "module.exports = - 0x8000_000000000000;\n" none =
        .ok ⟨.number (.integer (-0x8000000000000000) (by decide)), []⟩ ∧
      ofScript "module.exports = -0B0;\n" none = .ok ⟨.number (.integer 0 (by decide)), []⟩ ∧
      ∃ place, ofScript "module.exports = -0x1_0000000000000000;\n" none =
        .error (.atPlace none place "unsupported number \x600x1_0000000000000000\x60") := by
  have hends : EndsText [';', '\n'] :=
    .semicolon (s := ['\n']) (by simp [Json.IsBlanks, Json.isBlank])
  have hspace : Trivia [' '] := .blank rfl .nil
  have htail : Digits 16 (List.replicate 12 '0') := digits_of_forall (by decide) (by decide)
  have hleast : IntegerText 0x8000000000000000
      ('0' :: 'x' :: '8' :: '0' :: '0' :: '0' :: '_' :: List.replicate 12 '0') := by
    have hvalue : numberOf 16 (withoutMarks ('8' :: '0' :: '0' :: '0' :: '_' ::
        List.replicate 12 '0')) = 0x8000000000000000 := by decide
    rw [← hvalue]
    exact .radix (by decide) (.cons (by decide) (.cons (by decide) (.cons (by decide)
      (.apart (by decide) htail))))
  have hbinary : Digits 2 ['0'] := .single (by decide)
  have hzero : IntegerText 0 ['0', 'B', '0'] := .radix (by decide) hbinary
  have hlarge : Digits 16 ('1' :: '_' :: List.replicate 16 '0') :=
    .apart (by decide) (digits_of_forall (by decide) (by decide))
  have hmarks : ('x', 16) ∈ radixLetters := by decide
  obtain ⟨hexact, hrefused⟩ := ofScript_integer .nil hends none
  exact ⟨(hexact (.minus hspace hleast) (by decide)).2, (hexact (.minus .nil hzero) (by decide)).2,
    (hrefused hmarks hlarge (by decide) (.signed (.inr rfl) .nil)).2.1⟩

end Document

end CssBuild
