import CssBuild.Proofs.Script.Spelling

/-!
# CssBuild.Proofs.Script.Literals

Literals as expressions of a module.

1. What stands after a value continues neither an operand nor an expression, so
   a literal is an operand and an operand is an expression.
2. Each level of nesting takes three levels of the rules, each comma one, each
   number four and a template one for each of its pieces. So four levels for
   each character of a literal, and one for each behind it, are enough.
3. A text that spells a tree is read as an expression, up to where it ends, and
   the expression has the tree as its value (`readable_literal`).
-/

namespace CssBuild.Script

open Json (WrittenNumeral)

open Rules hiding none

/-! ## After a value -/

theorem symbol?_closing (op : List Char) {s : List Char} (h : Closing s) : symbol? op s = none := by
  simp only [symbol?, skip_solid h.solid, operator?_closing h]

section After

variable (r : Rules) (start : List Char) (value : Expr) {s : List Char} (h : Ends s)
include h

theorem readChain_ends : readChain r start value s = .ok (value, s) := by
  obtain ⟨rest, hclosing, hskip⟩ := h.exists_closing
  have hsymbol := symbol?_closing ['?', '.'] hclosing
  cases rest with
  | nil => simp [readChain, hskip, hsymbol]
  | cons c rest =>
    have hc : c ∈ [',', ']', '}', ')', ';'] := hclosing c rfl
    simp only [List.mem_cons, List.not_mem_nil, or_false] at hc
    rcases hc with rfl | rfl | rfl | rfl | rfl <;> simp [readChain, hskip, hsymbol]

theorem afterOperand_ends : afterOperand r start value s = .ok (value, s) := by
  obtain ⟨rest, hclosing, hskip⟩ := h.exists_closing
  simp only [afterOperand, hskip, operator?_closing hclosing]

theorem readBinary_ends : readBinary r start value s = .ok (value, s) := by
  obtain ⟨rest, hclosing, hskip⟩ := h.exists_closing
  simp only [readBinary, hskip, keyword?_closing hclosing, Option.or_none,
    operator?_closing hclosing]

theorem symbol?_ends (op : List Char) : symbol? op s = none := by
  obtain ⟨rest, hclosing, hskip⟩ := h.exists_closing
  simp only [symbol?, hskip, operator?_closing hclosing]

end After

section Separators

variable {trivia : List Char} (h : Trivia trivia)
include h

/-- Trivia before a mark are skipped. -/
theorem skip_mark {c : Char} (hc : isBlank c = false ∧ c ≠ '/') (s : List Char) :
    skip (trivia ++ c :: s) = c :: s :=
  (skip_trivia h _).trans (skip_solid (solid_cons hc s))

theorem separator_close (close : Char) (s : List Char) (hclose : close ∈ [']', '}', ')']) :
    separator close (trivia ++ close :: s) = .ok (true, s) := by
  simp only [List.mem_cons, List.not_mem_nil, or_false] at hclose
  rcases hclose with rfl | rfl | rfl
  · simp [separator, skip_mark h (c := ']') (by decide)]
  · simp [separator, skip_mark h (c := '}') (by decide)]
  · simp [separator, skip_mark h (c := ')') (by decide)]

theorem separator_comma (close : Char) (s : List Char) :
    separator close (trivia ++ ',' :: s) = .ok (false, s) := by
  simp only [separator, skip_mark h (c := ',') (by decide)]

theorem gap_value {start : List Char} (hstart : StartsValue start) :
    gap (trivia ++ start) = ([], start) := gap_trivia h hstart.solid hstart.markup

end Separators

/-! ## Operands and expressions -/

/-- An operand that starts like a value and is followed by what ends one is an expression. -/
theorem expression_operand {level : Nat} {trivia start rest : List Char} {e : Expr}
    (htrivia : Trivia trivia) (hstart : StartsValue start) (hrest : Ends rest)
    (h : (rules (level + 2)).operand start = .ok (e, rest)) :
    (rules (level + 3)).expression (trivia ++ start) = .ok (e, rest) := by
  have hgap : operandStart (trivia ++ start) = start := by
    rw [operandStart, gap_value htrivia hstart]
  obtain ⟨c, more, hcons, hc⟩ := hstart.head
    (p := fun c => ¬(c = '}' ∨ c = ']' ∨ c = ')' ∨ c = ',' ∨ c = ';')) (by decide)
  change readExpression (rules (level + 2)) (trivia ++ start) = _
  rw [readExpression, hgap]
  rw [hcons] at h ⊢
  simp only [if_neg hc, h, ok_bind]
  exact readBinary_ends (rules (level + 1)) _ e hrest

/-- A literal that starts like a value and is followed by what ends one is an operand. -/
theorem operand_primary {level : Nat} {start rest : List Char} {e : Expr} (hrest : Ends rest)
    (hplain : readOperand (rules (level + 1)) start = plainOperand (rules (level + 1)) start)
    (h : primary (rules (level + 1)) start = .ok (e, rest)) :
    (rules (level + 2)).operand start = .ok (e, rest) := by
  change readOperand (rules (level + 1)) start = _
  rw [hplain, plainOperand, h]
  have hchain : (rules (level + 1)).chain start e rest = .ok (e, rest) :=
    readChain_ends (rules level) start e hrest
  simp only [hchain, ok_bind]
  exact afterOperand_ends _ start e hrest

/-- A text is read as an expression that has some tree as its value. -/
def ReadsTree (level : Nat) (s rest : List Char) (tree : Json) : Prop :=
  ∃ e, (rules level).expression s = .ok (e, rest) ∧ ∀ path, e.value path = .ok tree

/-- Whether a text is read as an expression of some kind behind any trivia, where enough levels are
left, and declares nothing. -/
structure ReadableAs (kind : Expr → Prop) (u : List Char) : Prop where
  starts : StartsValue u
  declaration? (r : Rules) {rest : List Char} : Ends rest → declaration? r (u ++ rest) = none
  reads {level : Nat} {gap rest : List Char} : Trivia gap → Ends rest →
    4 * u.length + rest.length < level →
      ∃ e, (rules level).expression (gap ++ (u ++ rest)) = .ok (e, rest) ∧ kind e

theorem ReadableAs.imp {kind kind' : Expr → Prop} {u : List Char} (h : ReadableAs kind u)
    (hkind : ∀ e, kind e → kind' e) : ReadableAs kind' u :=
  ⟨h.starts, h.declaration?, fun hgap hrest hlevel =>
    let ⟨e, hread, he⟩ := h.reads hgap hrest hlevel
    ⟨e, hread, hkind e he⟩⟩

/-- Whether a text is read as an expression that has some tree as its value. -/
def Readable (tree : Json) (u : List Char) : Prop :=
  ReadableAs (fun e => ∀ path, e.value path = .ok tree) u

theorem exists_level {level n : Nat} (h : n ≤ level) : ∃ k, level = k + n :=
  ⟨level - n, (Nat.sub_add_cancel h).symm⟩

/-! ## Words -/

theorem numberRest?_name {c : Char} (h : isNameStart c = true) (s : List Char) :
    numberRest? (c :: s) = none := by
  have hdigit : isDigit c = false := by
    simp only [isNameStart, Bool.and_eq_true, Bool.not_eq_true'] at h
    exact h.2
  unfold numberRest?
  split
  · next heq =>
    obtain ⟨rfl, -⟩ := List.cons.inj heq
    cases h
  · next heq =>
    obtain ⟨rfl, -⟩ := List.cons.inj heq
    cases hdigit
  · next heq =>
    obtain ⟨rfl, -⟩ := List.cons.inj heq
    rw [if_neg (by rw [hdigit]; exact Bool.false_ne_true)]
  · rfl

/-- The words that are values, with the expressions and the trees that they are read as. -/
inductive ValueWord : List Char → Expr → Json → Prop where
  | null : ValueWord ['n', 'u', 'l', 'l'] (.absent ['n', 'u', 'l', 'l']) .null
  | undefined : ValueWord ['u', 'n', 'd', 'e', 'f', 'i', 'n', 'e', 'd']
    (.absent ['u', 'n', 'd', 'e', 'f', 'i', 'n', 'e', 'd']) .null
  | bool (b : Bool) : ValueWord (Json.boolChars b) (.bool b) (.bool b)

section Words

variable {word : List Char} {e : Expr} {tree : Json} (h : ValueWord word e tree)
include h

theorem ValueWord.exists_cons : ∃ c more, word = c :: more ∧ c ∈ ['n', 'u', 't', 'f'] ∧
    isNameStart c = true ∧ ∀ d ∈ more, isNameChar d = true := by
  cases h with
  | null => exact ⟨_, _, rfl, by decide⟩
  | undefined => exact ⟨_, _, rfl, by decide⟩
  | bool b => cases b <;> exact ⟨_, _, rfl, by decide⟩

theorem named_word (r : Rules) (s rest : List Char) : named r s word rest = .ok (e, rest) := by
  cases h with
  | null => simp [named]
  | undefined => simp [named]
  | bool b => cases b <;> simp [named, Json.boolChars]

theorem wordOperand?_word (r : Rules) (s rest : List Char) : wordOperand? r s word rest = none := by
  cases h with
  | null => simp [wordOperand?]
  | undefined => simp [wordOperand?]
  | bool b => cases b <;> simp [wordOperand?, Json.boolChars]

theorem declaration?_word (r : Rules) {s rest : List Char} (hname : name? s = some (word, rest)) :
    declaration? r s = none := by
  cases h with
  | null => simp [declaration?, hname]
  | undefined => simp [declaration?, hname]
  | bool b => cases b <;> simp [declaration?, hname, Json.boolChars]

theorem value_word (path : String) : e.value path = .ok tree := by
  cases h <;> rfl

theorem name?_word {rest : List Char} (hrest : Ends rest) :
    name? (word ++ rest) = some (word, rest) := by
  obtain ⟨c, more, rfl, -, hstart, hmore⟩ := h.exists_cons
  exact name?_append c more hstart hmore hrest.endsName

theorem primary_word (r : Rules) {rest : List Char} (hrest : Ends rest) :
    primary r (word ++ rest) = .ok (e, rest) := by
  have hname := name?_word h hrest
  have hnamed := named_word h r (word ++ rest) rest
  obtain ⟨c, more, rfl, hc, -⟩ := h.exists_cons
  rw [List.cons_append] at hname hnamed ⊢
  have hall : ∀ c ∈ ['n', 'u', 't', 'f'], isNameStart c = true ∧
      c ∉ ['"', '\'', '\x60', '[', '{', '(', '/', '<', '@', '#'] := by decide
  obtain ⟨hstart, hother⟩ := hall c hc
  have hnumber := numberRest?_name hstart (more ++ rest)
  simp only [List.mem_cons, List.not_mem_nil, or_false, not_or] at hother
  simp [primary, hother, hnumber, hname, hnamed]

theorem readOperand_word (r : Rules) {rest : List Char} (hrest : Ends rest) :
    readOperand r (word ++ rest) = plainOperand r (word ++ rest) := by
  have hname := name?_word h hrest
  have hword := wordOperand?_word h r (word ++ rest) rest
  obtain ⟨c, more, rfl, hc, -⟩ := h.exists_cons
  rw [List.cons_append] at hname hword ⊢
  simp only [List.mem_cons, List.not_mem_nil, or_false] at hc
  rcases hc with rfl | rfl | rfl | rfl <;> simp [readOperand, hname, hword]

theorem readable_word : Readable tree word := by
  have hstart : StartsValue word := by
    obtain ⟨c, more, rfl, hc, -⟩ := h.exists_cons
    have hall : ∀ c ∈ ['n', 'u', 't', 'f'], c ∈ valueStarts ∧ ¬(c = '+' ∨ c = '-') := by decide
    exact ⟨c, more, rfl, (hall c hc).1, fun hsign => absurd hsign (hall c hc).2⟩
  have hlength : 1 ≤ word.length := by
    obtain ⟨c, more, rfl, -⟩ := h.exists_cons
    exact Nat.succ_pos _
  refine ⟨hstart, fun r _ hrest => declaration?_word h r (name?_word h hrest),
    @fun level gap rest hgap hrest hlevel => ?_⟩
  obtain ⟨k, rfl⟩ := exists_level (n := 3) (by omega : 3 ≤ level)
  exact ⟨e, expression_operand hgap (hstart.append rest) hrest
    (operand_primary hrest (readOperand_word h _ hrest) (primary_word h _ hrest)), value_word h⟩

end Words

/-! ## Strings and numbers -/

/-- The characters other than letters and signs that can start a value. -/
def operandMarks : List Char :=
  ['"', '\'', '\x60', '[', '{', '(', '0', '1', '2', '3', '4', '5', '6', '7', '8', '9']

theorem startsValue_mark {c : Char} (hc : c ∈ operandMarks) (s : List Char) :
    StartsValue (c :: s) := by
  have hall : ∀ c ∈ operandMarks, c ∈ valueStarts ∧ ¬(c = '+' ∨ c = '-') := by decide
  exact ⟨c, s, rfl, (hall c hc).1, fun hsign => absurd hsign (hall c hc).2⟩

theorem declaration?_mark (r : Rules) {c : Char} (s : List Char)
    (hc : c ∈ operandMarks ∨ c = '+' ∨ c = '-') : declaration? r (c :: s) = none := by
  have hall : ∀ c ∈ '+' :: '-' :: operandMarks, isNameStart c = false ∧ c ≠ '\\' := by decide
  have hmem : c ∈ '+' :: '-' :: operandMarks := by
    obtain hc | rfl | rfl := hc
    · exact List.mem_cons_of_mem _ (List.mem_cons_of_mem _ hc)
    · decide
    · decide
  simp only [declaration?, name?_eq_none (hall c hmem).1 (hall c hmem).2]

theorem readOperand_mark (r : Rules) {c : Char} (s : List Char) (hc : c ∈ operandMarks) :
    readOperand r (c :: s) = plainOperand r (c :: s) := by
  have hall : ∀ c ∈ operandMarks, isNameStart c = false ∧ c ≠ '\\' := by decide
  have hname : name? (c :: s) = none := name?_eq_none (hall c hc).1 (hall c hc).2
  simp only [operandMarks, List.mem_cons, List.not_mem_nil, or_false] at hc
  rcases hc with rfl | rfl | rfl | rfl | rfl | rfl | rfl | rfl | rfl | rfl | rfl | rfl | rfl | rfl |
    rfl | rfl <;> simp [readOperand, hname]

/-- What starts with a mark is readable if it is read as an operand. -/
theorem readableAs_mark {kind : Expr → Prop} {c : Char} {u : List Char} (hc : c ∈ operandMarks)
    (h : ∀ level rest, Ends rest → 4 * (c :: u).length + rest.length < level + 3 →
      ∃ e, primary (rules (level + 1)) (c :: u ++ rest) = .ok (e, rest) ∧ kind e) :
    ReadableAs kind (c :: u) := by
  refine ⟨startsValue_mark hc u, fun r _ _ => declaration?_mark r _ (.inl hc),
    @fun level gap rest hgap hrest hlevel => ?_⟩
  obtain ⟨k, rfl⟩ := exists_level (n := 3) (by rw [List.length_cons] at hlevel; omega : 3 ≤ level)
  obtain ⟨e, hprimary, hkind⟩ := h k rest hrest hlevel
  exact ⟨e, expression_operand hgap (startsValue_mark hc _) hrest
    (operand_primary hrest (readOperand_mark _ _ hc) hprimary), hkind⟩

/-- A string or template is cut into pieces that have its value. -/
theorem QuotedText.exists_cuts {marks : List Char} {value : String} {t : List Char}
    (h : QuotedText marks value t) (hmarks : ∀ quote ∈ marks, quote ∈ quotes) (rest : List Char) :
    ∃ quote ∈ marks, ∃ u pieces, t = quote :: u ∧ Cuts quote (u ++ rest) pieces rest ∧
      ∀ start, stringValue start pieces = .ok value := by
  obtain ⟨quote, hquote, parts, inner, hwrites, -, hdenotes, rfl⟩ := h
  obtain ⟨pieces, hcuts, hvalue⟩ :=
    exists_pieces_of_denotes (hmarks quote hquote) hwrites hdenotes rest
  refine ⟨quote, hquote, inner ++ [quote], pieces, rfl, ?_, hvalue⟩
  rwa [List.append_assoc]

theorem readable_string {value : String} {t : List Char} (h : QuotedText quotes value t) :
    Readable (.string value) t := by
  obtain ⟨quote, hquote, u, -, rfl, -⟩ := h.exists_cuts (fun _ => id) []
  have hmarks : ∀ quote ∈ quotes, quote ∈ operandMarks := by decide
  refine readableAs_mark (hmarks quote hquote) fun level rest hrest hlevel => ?_
  obtain ⟨_, -, _, pieces, heq, hcuts, hvalue⟩ := h.exists_cuts (fun _ => id) rest
  obtain ⟨rfl, rfl⟩ := List.cons.inj heq
  rw [List.length_cons] at hlevel
  have hlevels := hcuts (level + 1) (by rw [List.length_append]; omega)
  have hsteps := hcuts _ (Nat.lt_add_one _)
  refine ⟨.string (quote :: (u ++ rest)) pieces, ?_, fun path => ?_⟩
  · simp only [quotes, List.mem_cons, List.not_mem_nil, or_false] at hquote
    rw [List.cons_append]
    generalize u ++ rest = s at hlevels hsteps
    obtain rfl | rfl | rfl := hquote
    · have hread : stringPieces '"' (s.length + 1) s = .ok (pieces, rest) := hsteps
      simp [primary, hread]
    · have hread : stringPieces '\'' (s.length + 1) s = .ok (pieces, rest) := hsteps
      simp [primary, hread]
    · have hread : (rules (level + 1)).template s = .ok (pieces, rest) := hlevels
      simp [primary, hread]
  · simp only [Expr.value, hvalue, ok_bind]

section Tokens

variable {t : List Char} (h : NumberToken t)
include h

theorem NumberToken.mark : ∃ c u, t = c :: u ∧ c ∈ operandMarks := by
  obtain ⟨c, u, rfl, hc⟩ := h.starts
  exact ⟨c, u, rfl, Json.isDigit_cases (p := fun c => c ∈ operandMarks) (by decide) hc⟩

theorem primary_number (r : Rules) {rest : List Char} (hrest : Ends rest) :
    primary r (t ++ rest) = .ok (.number (t ++ rest) t, rest) := by
  have hnumber := h.rest rest hrest.endsNumber
  have hbetween := between_append t rest
  obtain ⟨c, u, rfl, hdigit⟩ := h.starts
  have hother : c ∉ ['"', '\'', '\x60', '[', '{', '(', '/', '<', '@', '#'] :=
    Json.isDigit_cases (p := fun c => c ∉ ['"', '\'', '\x60', '[', '{', '(', '/', '<', '@', '#'])
      (by decide) hdigit
  simp only [List.mem_cons, List.not_mem_nil, or_false, not_or] at hother
  rw [List.cons_append] at hnumber hbetween ⊢
  simp [primary, hother, hnumber, hbetween]

/-- A number is read as itself. -/
theorem readableAs_number : ReadableAs (fun e => ∃ start, e = .number start t) t := by
  obtain ⟨c, u, rfl, hc⟩ := h.mark
  exact readableAs_mark hc fun level rest hrest _ =>
    ⟨_, primary_number h _ hrest, c :: u ++ rest, rfl⟩

/-- Behind a sign no other one follows. -/
theorem exists_cons_signed {gap : List Char} (hgap : Trivia gap) (rest : List Char) :
    ∃ d more, gap ++ (t ++ rest) = d :: more ∧ d ≠ '+' ∧ d ≠ '-' := by
  obtain ⟨c, u, rfl, hc⟩ := h.starts
  cases hcons : gap ++ (c :: u ++ rest) with
  | nil => simp at hcons
  | cons d more =>
    refine ⟨d, more, rfl, ?_⟩
    obtain hd | rfl | hd := hgap.head (s := c :: u ++ rest) (c := d) (by rw [hcons]; rfl)
    · constructor <;>
      · rintro rfl
        cases hd
    · decide
    · obtain rfl := Option.some.inj hd
      constructor <;>
      · rintro rfl
        cases hc

/-- A sign in front of a number makes a signed operand. -/
theorem operand_signed {level : Nat} {sign : Char} (hsign : sign = '+' ∨ sign = '-')
    {gap rest : List Char} (hgap : Trivia gap) (hrest : Ends rest) :
    (rules (level + 3)).operand (sign :: (gap ++ (t ++ rest))) =
      .ok (.signed (sign :: (gap ++ (t ++ rest))) (sign :: (gap ++ t)) [sign]
        (.number (t ++ rest) t), rest) := by
  obtain ⟨c, u, hcons, hc⟩ := h.mark
  have hstart : StartsValue (t ++ rest) := hcons ▸ startsValue_mark hc _
  have hoperandStart : operandStart (gap ++ (t ++ rest)) = t ++ rest := by
    rw [operandStart, gap_value hgap hstart]
  have hoperand : (rules (level + 2)).operand (t ++ rest) = .ok (.number (t ++ rest) t, rest) := by
    refine operand_primary hrest ?_ (primary_number h _ hrest)
    rw [hcons]
    exact readOperand_mark _ _ hc
  have hbetween : between (sign :: (gap ++ (t ++ rest))) rest = sign :: (gap ++ t) := by
    rw [← List.append_assoc, ← List.cons_append, between_append]
  have hsigned : readOperand (rules (level + 2)) (sign :: (gap ++ (t ++ rest))) =
      signedOperand (rules (level + 2)) (sign :: (gap ++ (t ++ rest))) [sign]
        (gap ++ (t ++ rest)) := by
    obtain ⟨d, more, hmore, hd⟩ := exists_cons_signed h hgap rest
    rw [hmore]
    obtain rfl | rfl := hsign <;> simp [readOperand, hd]
  change readOperand (rules (level + 2)) _ = _
  simp only [hsigned, signedOperand, hoperandStart, hoperand, ok_bind, hbetween]

/-- A number with a sign is read as the sign and the number. -/
theorem readableAs_signed {sign : Char} (hsign : sign = '+' ∨ sign = '-') {gap : List Char}
    (hgap : Trivia gap) :
    ReadableAs (fun e => ∃ start at_, e = .signed start (sign :: (gap ++ t)) [sign] (.number at_ t))
      (sign :: (gap ++ t)) := by
  have hstart (rest : List Char) : StartsValue (sign :: (gap ++ (t ++ rest))) := by
    obtain ⟨d, more, hmore, hd⟩ := exists_cons_signed h hgap rest
    refine ⟨sign, _, rfl, ?_, fun _ => ⟨d, more, hmore, ?_⟩⟩
    · obtain rfl | rfl := hsign <;> decide
    · obtain rfl | rfl := hsign
      · exact hd.1
      · exact hd.2
  refine ⟨by simpa using hstart [], fun r _ _ => declaration?_mark r _ (.inr hsign),
    @fun level before rest hbefore hrest hlevel => ?_⟩
  have hlength : 1 ≤ t.length := by
    obtain ⟨c, u, rfl, -⟩ := h.starts
    exact Nat.succ_pos _
  simp only [List.length_cons, List.length_append] at hlevel
  obtain ⟨k, rfl⟩ := exists_level (n := 4) (by omega : 4 ≤ level)
  refine ⟨_, ?_, sign :: (gap ++ (t ++ rest)), t ++ rest, rfl⟩
  rw [List.cons_append, List.append_assoc]
  exact expression_operand hbefore (hstart rest) hrest (operand_signed h hsign hgap hrest)

end Tokens

section Numbers

variable {found : Number} {t : List Char} (h : ReadsNumber found t)
include h

theorem readable_unsigned : Readable (.number found) t := by
  refine (readableAs_number h.toNumberToken).imp ?_
  rintro _ ⟨start, rfl⟩ path
  simp only [Expr.value, numberValue, h.value, ok_bind]

/-- A number with a sign is readable as what the sign makes of it. -/
theorem readable_signed {sign : Char} (hsign : sign = '+' ∨ sign = '-') {gap : List Char}
    (hgap : Trivia gap) {n : Number}
    (hn : sign = '+' ∧ n = found ∨ sign = '-' ∧ negated? found = some n) :
    Readable (.number n) (sign :: (gap ++ t)) := by
  refine (readableAs_signed h.toNumberToken hsign hgap).imp ?_
  rintro _ ⟨start, at_, rfl⟩ path
  obtain ⟨rfl, rfl⟩ | ⟨rfl, hnegated⟩ := hn
  · simp [Expr.value, signedValue, numberValue, h.value]
  · simp [Expr.value, signedValue, numberValue, h.value, hnegated]

end Numbers

theorem readable_number {n : Number} {t : List Char} (h : NumberText n t) :
    Readable (.number n) t := by
  have hnat (m : Nat) (hm : -0x8000000000000000 ≤ (m : Int) ∧ (m : Int) < 0x10000000000000000) :
      Number.ofInt? m = some (.integer m hm) := dif_pos hm
  cases h with
  | integer h bounded =>
    cases h with
    | plain digits => exact readable_unsigned (readsNumber_integer digits (hnat _ bounded))
    | plus trivia digits =>
      exact readable_signed (readsNumber_integer digits (hnat _ bounded)) (.inl rfl) trivia
        (.inl ⟨rfl, rfl⟩)
    | @minus m gap t trivia digits =>
      have hread := readsNumber_integer digits (hnat m (by omega))
      exact readable_signed hread (.inr rfl) trivia
        (.inr ⟨rfl, by rw [negated?, Number.ofInt?, dif_pos bounded]⟩)
  | json h =>
    obtain ⟨⟨negative, w, hnumber, rfl⟩, zero⟩ := h
    cases negative with
    | false => exact readable_unsigned (readsNumber_chars hnumber)
    | true =>
      have hinteger : w.numeral.fraction = none → w.numeral.exponent = none →
          Json.digitsValue w.numeral.whole ≠ 0 := by
        intro hfraction hexponent hvalue
        have hwhole := w.whole_eq_zero hvalue
        have hfraction : w.fraction = none := hfraction
        have hexponent : w.exponent = none := Option.map_eq_none_iff.1 hexponent
        apply zero
        simp [Json.signed, WrittenNumeral.chars, WrittenNumeral.fractionChars,
          WrittenNumeral.exponentChars, hwhole, hfraction, hexponent]
      obtain ⟨positive, hpositive, hnegated⟩ := negated?_toNumber? hinteger hnumber
      exact readable_signed (readsNumber_chars hpositive) (.inr rfl) .nil (.inr ⟨rfl, hnegated⟩)

/-! ## Arrays -/

/-- A text after a bracket or a comma is read as items that have some trees as their values. -/
def ReadsItems (level : Nat) (s rest : List Char) (trees : List Json) : Prop :=
  ∃ items, readItems (rules level) s = .ok (items, rest) ∧
    ∀ path i, itemsValue path i items = .ok trees

/-- A text after an item goes on with items that have some trees as their values. -/
def GoesOnItems (level : Nat) (s rest : List Char) (trees : List Json) : Prop :=
  ∃ items, (∀ item, afterItem (rules level) item s = .ok (item :: items, rest)) ∧
    ∀ path i, itemsValue path i items = .ok trees

section Items

variable {level : Nat} {gap rest : List Char} {trees : List Json} (hgap : Trivia gap)
include hgap

theorem readsItems_close (s : List Char) : ReadsItems level (gap ++ ']' :: s) s [] := by
  have hstart := gap_trivia hgap (solid_cons (c := ']') (by decide) s) rfl
  exact ⟨[], by simp [readItems, hstart, commentItems], fun path i => rfl⟩

theorem readsItems_cons {u t : List Char} {tree : Json} (hstart : StartsValue (u ++ t))
    (hitem : ReadsTree level (u ++ t) t tree) (hmore : GoesOnItems level t rest trees) :
    ReadsItems level (gap ++ (u ++ t)) rest (tree :: trees) := by
  obtain ⟨item, hread, hvalue⟩ := hitem
  obtain ⟨items, hafter, hvalues⟩ := hmore
  have hskipped := gap_value hgap hstart
  obtain ⟨c, more, hcons, hc⟩ := hstart.head (p := fun c => c ∉ [']', ',', '.']) (by decide)
  simp only [List.mem_cons, List.not_mem_nil, or_false, not_or] at hc
  refine ⟨item :: items, ?_, fun path i => ?_⟩
  · rw [hcons] at hskipped hread ⊢
    simp [readItems, hskipped, hc, hread, hafter item, commentItems]
  · simp only [itemsValue, hvalue, hvalues, ok_bind]

theorem goesOnItems_close (s : List Char) : GoesOnItems level (gap ++ ']' :: s) s [] := by
  refine ⟨[], fun item => ?_, fun path i => rfl⟩
  simp [afterItem, separator_close hgap ']' s (by decide)]

theorem goesOnItems_comma {s : List Char} (h : ReadsItems level s rest trees) :
    GoesOnItems (level + 1) (gap ++ ',' :: s) rest trees := by
  obtain ⟨items, hread, hvalues⟩ := h
  refine ⟨items, fun item => ?_, hvalues⟩
  have hitems : (rules (level + 1)).items s = .ok (items, rest) := hread
  simp [afterItem, separator_comma hgap ']' s, hitems]

end Items

/-- Items that are readable are read up to the bracket that closes them. -/
theorem readsItems_list {items : List Json} {t : List Char} (h : ListText ']' Readable items t)
    {level : Nat} {rest : List Char} (hlevel : 4 * t.length + rest.length < level) :
    ReadsItems level (t ++ rest) rest items := by
  induction h generalizing level with
  | close trivia =>
    rw [List.append_assoc]
    exact readsItems_close trivia rest
  | last trivia first behind =>
    simp only [List.length_append, List.length_cons, List.length_nil] at hlevel
    simp only [List.append_assoc, List.cons_append, List.nil_append]
    have hitem : ReadsTree level _ _ _ :=
      first.reads .nil (Ends.mark behind (c := ']') (by decide) rest)
        (by simp only [List.length_append, List.length_cons]; omega)
    exact readsItems_cons trivia (first.starts.append _) hitem (goesOnItems_close behind rest)
  | @more _ _ _ _ _ s trivia first behind _ ih =>
    simp only [List.length_append, List.length_cons] at hlevel
    simp only [List.append_assoc, List.cons_append]
    have hitem : ReadsTree level _ _ _ :=
      first.reads .nil (Ends.mark behind (c := ',') (by decide) (s ++ rest))
        (by simp only [List.length_append, List.length_cons]; omega)
    obtain ⟨k, rfl⟩ := exists_level (n := 1) (by omega : 1 ≤ level)
    exact readsItems_cons trivia (first.starts.append _) hitem
      (goesOnItems_comma behind (ih (by omega)))

theorem readable_array {items : List Json} {t : List Char} (h : ListText ']' Readable items t) :
    Readable (.array items) ('[' :: t) := by
  refine readableAs_mark (by decide) fun level rest hrest hlevel => ?_
  rw [List.length_cons] at hlevel
  obtain ⟨found, hread, hvalues⟩ : ReadsItems level (t ++ rest) rest items :=
    readsItems_list h (by omega)
  have hitems : (rules (level + 1)).items (t ++ rest) = .ok (found, rest) := hread
  refine ⟨.array ('[' :: (t ++ rest)) found, ?_, fun path => ?_⟩
  · simp [primary, hitems]
  · simp only [Expr.value, hvalues, ok_bind]

/-! ## Objects -/

/-- A text after a brace or a comma is read as members that make some entries. -/
def ReadsMembers (level : Nat) (s rest : List Char) (entries : List (String × Json)) : Prop :=
  ∃ members, readMembers (rules level) s = .ok (members, rest) ∧
    ∀ path, membersValue path members = .ok entries

/-- A text after a member goes on with members that make some entries. -/
def GoesOnMembers (level : Nat) (s rest : List Char) (entries : List (String × Json)) : Prop :=
  ∃ members, (∀ member, afterMember (rules level) member s = .ok (member :: members, rest)) ∧
    ∀ path, membersValue path members = .ok entries

section Keys

variable {key : String} {name : List Char} (h : KeyText key name)
include h

/-- A key starts like nothing else among the members of an object. -/
theorem KeyText.exists_cons : ∃ c u, name = c :: u ∧ isBlank c = false ∧
    c ∉ ['/', '<', '-', '*', '@', '}', ',', '.'] := by
  cases h with
  | string h =>
    obtain ⟨quote, hquote, _, inner, -, -, -, rfl⟩ := h
    have hall : ∀ c ∈ stringMarks, isBlank c = false ∧
        c ∉ ['/', '<', '-', '*', '@', '}', ',', '.'] := by decide
    exact ⟨quote, _, rfl, hall quote hquote⟩
  | @name c word start more =>
    have hall : ∀ c ∈ ['/', '<', '-', '*', '@', '}', ',', '.'], isNameStart c = false := by decide
    refine ⟨c, word, rfl, ?_, fun hmem => absurd (start.symm.trans (hall c hmem)) (by decide)⟩
    simp only [isNameStart, isNameChar, Bool.and_eq_true, Bool.not_eq_true'] at start
    exact start.1.1.2

/-- A key is read up to what cannot go on a name. -/
theorem propertyName_key (r : Rules) {rest : List Char} (hrest : EndsName rest) :
    ∃ k, propertyName r (name ++ rest) = .ok (k, rest) ∧ k.value = .ok key := by
  cases h with
  | string h =>
    have hmarks : ∀ quote ∈ stringMarks, quote ∈ quotes := by decide
    obtain ⟨quote, hquote, u, pieces, rfl, hcuts, hvalue⟩ := h.exists_cuts hmarks rest
    refine ⟨.string (quote :: (u ++ rest)) pieces, ?_, hvalue _⟩
    have hsteps := hcuts _ (Nat.lt_add_one _)
    simp only [stringMarks, List.mem_cons, List.not_mem_nil, or_false] at hquote
    rw [List.cons_append]
    generalize u ++ rest = s at hsteps
    obtain rfl | rfl := hquote
    · have hread : stringPieces '"' (s.length + 1) s = .ok (pieces, rest) := hsteps
      simp [propertyName, hread]
    · have hread : stringPieces '\'' (s.length + 1) s = .ok (pieces, rest) := hsteps
      simp [propertyName, hread]
  | @name c word start more =>
    refine ⟨.name (c :: word), ?_, rfl⟩
    have hname := name?_append c word start more hrest
    have hall : ∀ c ∈ ['"', '\'', '[', '#', '.'], isNameStart c = false := by decide
    have hother : c ∉ ['"', '\'', '[', '#', '.'] := fun hmem =>
      absurd (start.symm.trans (hall c hmem)) (by decide)
    simp only [List.mem_cons, List.not_mem_nil, or_false, not_or] at hother
    have hnumber := numberRest?_name start (word ++ rest)
    rw [List.cons_append]
    simp [propertyName, hother, hnumber, hname]

end Keys

section Members

variable {level : Nat} {gap rest : List Char} {entries : List (String × Json)} (hgap : Trivia gap)
include hgap

theorem readsMembers_close (s : List Char) : ReadsMembers level (gap ++ '}' :: s) s [] := by
  have hstart := gap_trivia hgap (solid_cons (c := '}') (by decide) s) rfl
  exact ⟨[], by simp [readMembers, hstart, commentMembers], fun path => rfl⟩

theorem readsMembers_cons {name before s t : List Char} {key : String} {tree : Json}
    (hname : KeyText key name) (hbefore : Trivia before) (hvalue : ReadsTree level s t tree)
    (hmore : GoesOnMembers level t rest entries) :
    ReadsMembers level (gap ++ (name ++ (before ++ ':' :: s))) rest ((key, tree) :: entries) := by
  obtain ⟨value, hread, hvalue⟩ := hvalue
  obtain ⟨members, hafter, hvalues⟩ := hmore
  have hcolon : operandStart (before ++ ':' :: s) = ':' :: s := by
    rw [operandStart, gap_trivia hbefore (solid_cons (c := ':') (by decide) s) rfl]
  have hends : EndsName (before ++ ':' :: s) := by
    intro c hc
    obtain hblank | rfl | hc := hbefore.head hc
    · refine ⟨by simp [isNameChar, hblank], ?_⟩
      rintro rfl
      cases hblank
    · decide
    · exact Option.some.inj hc ▸ by decide
  obtain ⟨k, hproperty, hkey⟩ := propertyName_key hname (rules level) hends
  obtain ⟨c, u, rfl, hblank, hmarks⟩ := hname.exists_cons
  simp only [List.mem_cons, List.not_mem_nil, or_false, not_or] at hmarks
  rw [List.cons_append] at hproperty ⊢
  have hmarkup : markupComment? (c :: (u ++ (before ++ ':' :: s))) = none := by
    simp [markupComment?, hmarks]
  have hskipped := gap_trivia hgap (solid_cons ⟨hblank, hmarks.1⟩ _) hmarkup
  have hmember : namedMember (rules level) (c :: (u ++ (before ++ ':' :: s))) =
      .ok (.pair k value, t) := by
    simp [namedMember, hmarks, hproperty, hcolon, hread]
  refine ⟨.pair k value :: members, ?_, fun path => ?_⟩
  · simp [readMembers, hskipped, hmarks, hmember, hafter, commentMembers]
  · simp only [membersValue, memberValue, hkey, hvalue, hvalues, ok_bind]

theorem goesOnMembers_close (s : List Char) : GoesOnMembers level (gap ++ '}' :: s) s [] := by
  refine ⟨[], fun member => ?_, fun path => rfl⟩
  simp [afterMember, separator_close hgap '}' s (by decide)]

theorem goesOnMembers_comma {s : List Char} (h : ReadsMembers level s rest entries) :
    GoesOnMembers (level + 1) (gap ++ ',' :: s) rest entries := by
  obtain ⟨members, hread, hvalues⟩ := h
  refine ⟨members, fun member => ?_, hvalues⟩
  have hmembers : (rules (level + 1)).members s = .ok (members, rest) := hread
  simp [afterMember, separator_comma hgap '}' s, hmembers]

end Members

/-- Members that are readable are read up to the brace that closes them. -/
theorem readsMembers_list {entries : List (String × Json)} {t : List Char}
    (h : ListText '}' (MemberText Readable) entries t) {level : Nat} {rest : List Char}
    (hlevel : 4 * t.length + rest.length < level) :
    ReadsMembers level (t ++ rest) rest entries := by
  induction h generalizing level with
  | close trivia =>
    rw [List.append_assoc]
    exact readsMembers_close trivia rest
  | last trivia first behind =>
    obtain ⟨named, before, after, valued⟩ := first
    simp only [List.length_append, List.length_cons, List.length_nil] at hlevel
    simp only [List.append_assoc, List.cons_append, List.nil_append]
    have hvalue : ReadsTree level _ _ _ :=
      valued.reads after (Ends.mark behind (c := '}') (by decide) rest)
        (by simp only [List.length_append, List.length_cons]; omega)
    exact readsMembers_cons trivia named before hvalue (goesOnMembers_close behind rest)
  | @more _ _ _ _ _ s trivia first behind _ ih =>
    obtain ⟨named, before, after, valued⟩ := first
    simp only [List.length_append, List.length_cons] at hlevel
    simp only [List.append_assoc, List.cons_append]
    have hvalue : ReadsTree level _ _ _ :=
      valued.reads after (Ends.mark behind (c := ',') (by decide) (s ++ rest))
        (by simp only [List.length_append, List.length_cons]; omega)
    obtain ⟨k, rfl⟩ := exists_level (n := 1) (by omega : 1 ≤ level)
    exact readsMembers_cons trivia named before hvalue (goesOnMembers_comma behind (ih (by omega)))

theorem readable_object {entries : List (String × Json)} {t : List Char}
    (h : ListText '}' (MemberText Readable) entries t) : Readable (.object entries) ('{' :: t) := by
  refine readableAs_mark (by decide) fun level rest hrest hlevel => ?_
  rw [List.length_cons] at hlevel
  obtain ⟨found, hread, hvalues⟩ : ReadsMembers level (t ++ rest) rest entries :=
    readsMembers_list h (by omega)
  have hmembers : (rules (level + 1)).members (t ++ rest) = .ok (found, rest) := hread
  refine ⟨.object ('{' :: (t ++ rest)) found, ?_, fun path => ?_⟩
  · simp [primary, hmembers]
  · simp only [Expr.value, hvalues, ok_bind]

/-! ## Parentheses -/

theorem readable_parens {tree : Json} {gap u after : List Char} (hgap : Trivia gap)
    (h : Readable tree u) (hafter : Trivia after) :
    Readable tree ('(' :: (gap ++ (u ++ (after ++ [')'])))) := by
  refine readableAs_mark (by decide) fun level rest hrest hlevel => ?_
  simp only [List.length_cons, List.length_append, List.length_nil] at hlevel
  obtain ⟨e, hread, hvalue⟩ : ReadsTree level _ _ _ :=
    h.reads .nil (Ends.mark hafter (c := ')') (by decide) rest)
      (by simp only [List.length_append, List.length_cons]; omega)
  rw [List.nil_append] at hread
  have hinner := gap_value hgap (h.starts.append (after ++ ')' :: rest))
  have hclose := skip_mark hafter (c := ')') (by decide) rest
  have hsequence : (rules (level + 1)).sequence (u ++ (after ++ ')' :: rest)) =
      .ok (e, after ++ ')' :: rest) := by
    change readSequence (rules level) _ = _
    simp [readSequence, hread, hclose]
  have hexpect : expect ')' (after ++ ')' :: rest) = .ok rest := by simp [expect, hclose]
  refine ⟨.parens ('(' :: (gap ++ (u ++ (after ++ ')' :: rest)))) e, ?_, fun path => ?_⟩
  · simp [primary, parentheses, hinner, hsequence, hexpect, symbol?_ends hrest, commentItems]
  · rw [Expr.value, hvalue]

/-! ## Trees -/

/-- A text that spells a tree is read as an expression that has the tree as its value. -/
theorem readable_literal {tree : Json} {u : List Char} (h : LiteralText tree u) :
    Readable tree u := by
  -- Whatever is inside of a literal is shorter.
  induction hlength : u.length using Nat.strong_induction_on generalizing tree u with
  | _ length ih =>
  subst hlength
  cases h with
  | null => exact readable_word .null
  | undefined => exact readable_word .undefined
  | bool b => exact readable_word (.bool b)
  | number h => exact readable_number h
  | string h => exact readable_string h
  | array h =>
    exact readable_array (h.imp fun item v hv hitem => ih v.length (Nat.lt_succ_of_le hv) hitem rfl)
  | object h =>
    refine readable_object (h.imp fun entry v hv hentry => hentry.imp fun tree w hw htree => ?_)
    exact ih w.length (Nat.lt_succ_of_le (hw.trans hv)) htree rfl
  | parens trivia inner behind =>
    refine readable_parens trivia (ih _ ?_ inner rfl) behind
    simp only [List.length_cons, List.length_append]
    omega

end CssBuild.Script
