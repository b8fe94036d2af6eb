import CssBuild.Proofs.Decimal.Scaling
import CssBuild.Proofs.Json.Numerals
import CssBuild.Proofs.Script.Escapes
import CssBuild.Proofs.Script.Tokens
import CssBuild.Proofs.Spans

/-!
# CssBuild.Proofs.Script.Numbers

Digits, and the numerals of JSON text as numbers of a module.

1. Digits of any radix, with single `_` between them, are read up to their end
   (`Digits.digitRun`). Nothing that can stand after a value goes on a number
   (`Ends.endsNumber`).
2. A module reads decimal digits around a point, and an exponent, as one number
   (`numberRest?_parts`), and so the text of a numeral up to where the numeral
   ends (`numberRest?_append`).
3. The number stands for the same numeral (`numberValue?_chars`).
4. A minus sign in front of it gives the number that JSON has for it, the
   integer zero aside (`negated?_toNumber?`).
-/

namespace CssBuild.Script

open Json (IsDigits WrittenNumeral WrittenExponent Numeral digitsValue)

/-! ## Digits -/

/-- Digits of a radix, with single `_` between them or not. -/
inductive Digits (radix : Nat) : List Char → Prop where
  /-- One digit. -/
  | single {c : Char} (digit : digitOf c < radix) : Digits radix [c]
  /-- A digit comes first. -/
  | cons {c : Char} {s : List Char} (digit : digitOf c < radix) (more : Digits radix s) :
    Digits radix (c :: s)
  /-- A digit and a `_` come first. -/
  | apart {c : Char} {s : List Char} (digit : digitOf c < radix) (more : Digits radix s) :
    Digits radix (c :: '_' :: s)

theorem Digits.exists_cons {radix : Nat} {t : List Char} (h : Digits radix t) :
    ∃ c u, t = c :: u ∧ digitOf c < radix := by
  cases h with
  | single digit => exact ⟨_, _, rfl, digit⟩
  | cons digit _ => exact ⟨_, _, rfl, digit⟩
  | apart digit _ => exact ⟨_, _, rfl, digit⟩

theorem digitOf_of_isDigit {c : Char} (h : isDigit c = true) : digitOf c < 10 :=
  Json.isDigit_cases (p := fun c => digitOf c < 10) (by decide) h

theorem isDigit_of_digitOf {c : Char} (h : digitOf c < 10) : isDigit c = true :=
  digit_cases (p := fun c => digitOf c < 10 → isDigit c = true) (by decide) (h.trans (by decide)) h

/-- Digits with nothing between them. -/
theorem digits_of_forall {radix : Nat} {ds : List Char} (hne : ds ≠ [])
    (hall : ∀ c ∈ ds, digitOf c < radix) : Digits radix ds := by
  induction ds with
  | nil => exact absurd rfl hne
  | cons c ds ih =>
    obtain ⟨hc, hds⟩ := List.forall_mem_cons.1 hall
    cases ds with
    | nil => exact .single hc
    | cons d ds => exact .cons hc (ih (List.cons_ne_nil d ds) hds)

theorem digits_of_isDigits {ds : List Char} (h : IsDigits ds) : Digits 10 ds :=
  digits_of_forall h.1 fun c hc => digitOf_of_isDigit (h.2 c hc)

section Run

variable {digit : Char → Bool} {s : List Char}

theorem digitRun_cons {c : Char} (hc : digit c = true) (hs : s.head? ≠ some '_') :
    digitRun digit (c :: s) = digitRun digit s := by
  generalize hmore : digitRun digit s = more
  unfold digitRun
  split
  · next heq =>
    cases heq
    exact absurd rfl hs
  · next heq =>
    cases heq
    rw [if_pos hc, hmore]
  · next heq => cases heq

theorem digitRun_stop (hs : ∀ c, s.head? = some c → digit c = false) : digitRun digit s = s := by
  unfold digitRun
  split
  · rw [hs _ rfl]
    rfl
  · rw [hs _ rfl]
    rfl
  · rfl

/-- Digits are read up to their end. -/
theorem Digits.digitRun {radix : Nat} {t : List Char} (h : Digits radix t) (hradix : radix ≤ 16)
    (hclass : ∀ c, digitOf c < radix → digit c = true)
    (hs : ∀ c, s.head? = some c → digit c = false ∧ c ≠ '_') : digitRun digit (t ++ s) = s := by
  induction h with
  | @single c hc =>
    rw [List.cons_append, List.nil_append, digitRun_cons (hclass c hc) fun h => (hs _ h).2 rfl]
    exact digitRun_stop fun c hc => (hs c hc).1
  | @cons c t hc more ih =>
    obtain ⟨d, u, rfl, hd⟩ := more.exists_cons
    refine (digitRun_cons (hclass c hc) fun hhead => ?_).trans ih
    obtain rfl := Option.some.inj hhead
    exact absurd (hd.trans_le hradix) (by decide)
  | @apart c t hc more ih =>
    obtain ⟨d, u, rfl, hd⟩ := more.exists_cons
    refine Eq.trans ?_ ih
    change (if digit c then if digit d then Script.digitRun digit (d :: (u ++ s)) else _ else _) = _
    rw [if_pos (hclass c hc), if_pos (hclass d hd)]
    rfl

end Run

/-! ## Where a number ends -/

/-- The characters that could go on a number without a point. -/
def numberMarks : List Char := ['_', '.', 'e', 'E', 'n', 'x', 'X', 'o', 'O', 'b', 'B']

/-- Nothing that goes on a number, of any radix. -/
def EndsNumber (s : List Char) : Prop :=
  ∀ c, s.head? = some c → isHexDigit c = false ∧ c ∉ numberMarks

theorem isHexDigit_of_isBlank {c : Char} (h : isBlank c = true) : isHexDigit c = false := by
  simp only [isBlank, Bool.or_eq_true, Bool.and_eq_true, decide_eq_true_eq, beq_iff_eq] at h
  simp only [isHexDigit, isDigit, char_le_iff, Bool.or_eq_false_iff, Bool.and_eq_false_iff,
    decide_eq_false_iff_not, Char.reduceToNat]
  omega

theorem Ends.endsNumber {s : List Char} (h : Ends s) : EndsNumber s := by
  intro c hc
  refine h.head (p := fun c => isHexDigit c = false ∧ c ∉ numberMarks) (fun c hblank => ?_)
    (by decide) hc
  refine ⟨isHexDigit_of_isBlank hblank, fun hmark => ?_⟩
  have hmarks : ∀ c ∈ numberMarks, isBlank c = false := by decide
  exact absurd (hblank.symm.trans (hmarks c hmark)) (by decide)

theorem EndsNumber.isDigit {s : List Char} (h : EndsNumber s) {c : Char} (hc : s.head? = some c) :
    isDigit c = false := by
  have hhex := (h c hc).1
  simp only [isHexDigit, Bool.or_eq_false_iff] at hhex
  exact hhex.1.1

theorem EndsNumber.ne {s : List Char} (h : EndsNumber s) {d : Char} (hd : d ∈ numberMarks) :
    s.head? ≠ some d := fun hc => (h d hc).2 hd

theorem dropBigMark_ends {s : List Char} (h : EndsNumber s) : dropBigMark s = s := by
  unfold dropBigMark
  split
  · exact absurd rfl (h.ne (d := 'n') (by decide))
  · rfl

theorem exponentRest_stop {s : List Char} (hs : s.head? ≠ some 'e') (hs' : s.head? ≠ some 'E') :
    exponentRest s = s := by
  cases s with
  | nil => rfl
  | cons c rest =>
    have hmark : ¬(c = 'e' ∨ c = 'E') := by
      rintro (rfl | rfl)
      · exact hs rfl
      · exact hs' rfl
    simp only [exponentRest, if_neg hmark]

/-! ## Exponents -/

/-- An exponent, with `_` between its digits or not, or nothing. -/
inductive ExponentText : List Char → Prop where
  | empty : ExponentText []
  | marked {mark : Char} {sign digits : List Char} (isMark : mark = 'e' ∨ mark = 'E')
    (isSign : sign = [] ∨ sign = ['+'] ∨ sign = ['-']) (isDigits : Digits 10 digits) :
    ExponentText (mark :: (sign ++ digits))

theorem exponentText_chars (e? : Option WrittenExponent) :
    ExponentText (WrittenNumeral.exponentChars e?) := by
  cases e? with
  | none => exact .empty
  | some e => exact .marked e.isMark e.isSign (digits_of_isDigits e.isDigits)

namespace ExponentText

variable {t s : List Char} (h : ExponentText t) (hs : EndsNumber s)
include h hs

/-- An exponent is read up to its end. -/
theorem rest : exponentRest (t ++ s) = s := by
  cases h with
  | empty => exact exponentRest_stop (hs.ne (by decide)) (hs.ne (by decide))
  | @marked mark sign digits isMark isSign isDigits =>
    have hrun : digitRun isDigit (digits ++ s) = s :=
      isDigits.digitRun (by decide) (fun _ => isDigit_of_digitOf) fun c hc =>
        ⟨hs.isDigit hc, fun heq => (hs c hc).2 (heq ▸ by decide)⟩
    obtain ⟨d, more, rfl, hdigit⟩ := isDigits.exists_cons
    have hd := isDigit_of_digitOf hdigit
    have hplus : d ≠ '+' := by
      rintro rfl
      cases hd
    have hminus : d ≠ '-' := by
      rintro rfl
      cases hd
    rw [List.cons_append] at hrun
    rw [List.cons_append, List.append_assoc, List.cons_append]
    simp only [exponentRest, if_pos isMark]
    obtain rfl | rfl | rfl := isSign
    · simp [hd, hrun, hplus, hminus]
    · simp [hd, hrun]
    · simp [hd, hrun]

/-- The first character behind the digits in front of an exponent. -/
theorem head {c : Char} (hc : (t ++ s).head? = some c) :
    isDigit c = false ∧ c ≠ '_' ∧ c ≠ '.' ∧ radixDigit? c = none := by
  cases h with
  | empty =>
    obtain ⟨-, hmarks⟩ := hs c hc
    simp only [numberMarks, List.mem_cons, List.not_mem_nil, or_false, not_or] at hmarks
    exact ⟨hs.isDigit hc, hmarks.1, hmarks.2.1, by simp [radixDigit?, hmarks]⟩
  | marked isMark _ _ =>
    obtain rfl := Option.some.inj hc
    obtain rfl | rfl := isMark <;> exact ⟨by decide, by decide, by decide, by decide⟩

end ExponentText

/-! ## Decimal digits around a point -/

section Parts

variable {whole : List Char} {fraction? : Option (List Char)} {exponent s : List Char}
  (digits : Digits 10 whole) (leads : whole.head? = some '0' → whole = ['0'])
  (isFraction : ∀ ds, fraction? = some ds → ds = [] ∨ Digits 10 ds)
  (isExponent : ExponentText exponent) (hs : EndsNumber s)

include isExponent hs in
/-- The first character behind the digits in front of a point. -/
theorem head_fraction {c : Char}
    (hc : (WrittenNumeral.fractionChars fraction? ++ (exponent ++ s)).head? = some c) :
    isDigit c = false ∧ c ≠ '_' ∧ radixDigit? c = none := by
  cases fraction? with
  | some ds =>
    obtain rfl := Option.some.inj hc
    exact ⟨by decide, by decide, by decide⟩
  | none =>
    obtain ⟨hdigit, hscore, -, hradix⟩ := isExponent.head hs hc
    exact ⟨hdigit, hscore, hradix⟩

include isExponent hs in
/-- The digits behind a point are read up to the end. -/
theorem fractionRest_digits {ds : List Char} (h : ds = [] ∨ Digits 10 ds) :
    exponentRest (if (ds ++ (exponent ++ s)).head?.any isDigit
      then digitRun isDigit (ds ++ (exponent ++ s)) else ds ++ (exponent ++ s)) = s := by
  obtain rfl | hdigits := h
  · have hnone : (exponent ++ s).head?.any isDigit = false := by
      cases hhead : (exponent ++ s).head? with
      | none => rfl
      | some c => exact (isExponent.head hs hhead).1
    rw [List.nil_append, hnone, if_neg Bool.false_ne_true, isExponent.rest hs]
  · have hrun : digitRun isDigit (ds ++ (exponent ++ s)) = exponent ++ s :=
      hdigits.digitRun (by decide) (fun _ => isDigit_of_digitOf) fun c hc =>
        ⟨(isExponent.head hs hc).1, (isExponent.head hs hc).2.1⟩
    obtain ⟨c, u, rfl, hc⟩ := hdigits.exists_cons
    have hsome : (c :: u ++ (exponent ++ s)).head?.any isDigit = true := isDigit_of_digitOf hc
    rw [hsome, if_pos rfl, hrun, isExponent.rest hs]

include leads in
theorem takesFraction_whole : takesFraction whole = true := by
  unfold takesFraction
  split
  · rfl
  · exact absurd (leads rfl) (by simp)
  · rfl

include digits leads isFraction isExponent hs in
/-- Digits around a point and an exponent are read up to their end. -/
theorem decimalRest_parts :
    decimalRest (whole ++ (WrittenNumeral.fractionChars fraction? ++ (exponent ++ s))) = s := by
  have hrun : digitRun isDigit (whole ++ (WrittenNumeral.fractionChars fraction? ++
      (exponent ++ s))) = WrittenNumeral.fractionChars fraction? ++ (exponent ++ s) :=
    digits.digitRun (by decide) (fun _ => isDigit_of_digitOf) fun c hc =>
      ⟨(head_fraction isExponent hs hc).1, (head_fraction isExponent hs hc).2.1⟩
  simp only [decimalRest, hrun, between_append, takesFraction_whole leads, if_true]
  cases fraction? with
  | some ds => exact fractionRest_digits isExponent hs (isFraction ds rfl)
  | none =>
    have hpoint (after : List Char) : exponent ++ s ≠ '.' :: after := by
      intro heq
      exact (isExponent.head hs (by rw [heq]; rfl)).2.2.1 rfl
    have hrest := isExponent.rest hs
    simp only [WrittenNumeral.fractionChars, List.nil_append, hrest]
    cases isExponent with
    | empty =>
      rw [List.nil_append, if_pos rfl]
      exact dropBigMark_ends hs
    | @marked mark sign digits _ _ _ =>
      have hlonger : s.length ≠ (mark :: (sign ++ digits) ++ s).length := by
        simp only [List.length_append, List.length_cons]
        omega
      rw [if_neg hlonger]

include digits leads isExponent hs in
/-- Decimal digits do not start like a number with a radix. -/
theorem radixDigit?_second {d : Char} {u : List Char}
    (h : whole ++ (WrittenNumeral.fractionChars fraction? ++ (exponent ++ s)) = '0' :: d :: u) :
    radixDigit? d = none := by
  obtain ⟨w, more, rfl, -⟩ := digits.exists_cons
  rw [List.cons_append] at h
  obtain ⟨rfl, hrest⟩ := List.cons.inj h
  obtain rfl := (List.cons.inj (leads rfl)).2
  exact (head_fraction isExponent hs (congrArg List.head? hrest)).2.2

include digits leads isFraction isExponent hs in
/-- A number that starts with a decimal digit is read up to its end. -/
theorem numberRest?_parts :
    numberRest? (whole ++ (WrittenNumeral.fractionChars fraction? ++ (exponent ++ s))) =
      some s := by
  have hdecimal := decimalRest_parts digits leads isFraction isExponent hs
  have hradix (d : Char) (u : List Char) (h : whole ++ (WrittenNumeral.fractionChars fraction? ++
      (exponent ++ s)) = '0' :: d :: u) : radixDigit? d = none :=
    radixDigit?_second digits leads isExponent hs h
  obtain ⟨c, u, rfl, hc⟩ := digits.exists_cons
  have hdigit := isDigit_of_digitOf hc
  rw [List.cons_append] at hdecimal hradix ⊢
  unfold numberRest?
  split
  · next heq =>
    obtain ⟨rfl, -⟩ := List.cons.inj heq
    cases hdigit
  · next letter d rest heq =>
    rw [hradix letter (d :: rest) heq]
    exact congrArg some hdecimal
  · next heq =>
    obtain ⟨rfl, rfl⟩ := List.cons.inj heq
    rw [if_pos hdigit, hdecimal]
  · next heq => cases heq

end Parts

/-- A module reads the text of a numeral up to where the numeral ends. -/
theorem numberRest?_append (n : WrittenNumeral) {s : List Char} (hs : EndsNumber s) :
    numberRest? (n.chars ++ s) = some s := by
  rw [WrittenNumeral.chars, List.append_assoc, List.append_assoc]
  exact numberRest?_parts (digits_of_isDigits n.isWhole) n.leads
    (fun ds h => .inr (digits_of_isDigits (n.isFraction ds h))) (exponentText_chars n.exponent) hs

/-! ## Values -/

theorem hexValue?_of_isDigit {c : Char} (h : isDigit c = true) :
    Json.hexValue? c = some (c.toNat - '0'.toNat) ∧ c.toNat - '0'.toNat < 10 :=
  Json.isDigit_cases (p := fun c => Json.hexValue? c = some (c.toNat - '0'.toNat) ∧
    c.toNat - '0'.toNat < 10) (by decide) h

theorem foldlM_digits {ds : List Char} (h : ∀ c ∈ ds, isDigit c = true) (init : Nat) :
    ds.foldlM (fun acc c => do
      let digit ← Json.hexValue? c
      if digit < 10 then some (acc * 10 + digit) else none) init =
      some (Nat.ofDigitChars 10 ds init) := by
  induction ds generalizing init with
  | nil => rfl
  | cons c ds ih =>
    obtain ⟨hvalue, hless⟩ := hexValue?_of_isDigit (h c List.mem_cons_self)
    have hmore := ih fun d hd => h d (List.mem_cons_of_mem _ hd)
    have hstep : (do
        let digit ← some (c.toNat - '0'.toNat)
        if digit < 10 then some (init * 10 + digit) else none) =
        some (init * 10 + (c.toNat - '0'.toNat)) := if_pos hless
    rw [List.foldlM_cons, hvalue, Nat.ofDigitChars_cons, Nat.mul_comm 10 init, hstep]
    exact hmore _

theorem radixValue?_digits {ds : List Char} (h : IsDigits ds) :
    radixValue? 10 ds = some (digitsValue ds) := by
  have hempty : ds.isEmpty = false := by simpa using h.1
  rw [radixValue?, hempty]
  exact foldlM_digits h.2 0

theorem exponentValue?_chars (e : WrittenExponent) :
    exponentValue? (e.sign ++ e.digits) = some e.value := by
  obtain ⟨mark, sign, digits, isMark, isSign, isDigits⟩ := e
  obtain ⟨d, more, rfl⟩ := List.exists_cons_of_ne_nil isDigits.1
  have hd : isDigit d = true := isDigits.2 d List.mem_cons_self
  have hplus : d ≠ '+' := by
    rintro rfl
    cases hd
  have hminus : d ≠ '-' := by
    rintro rfl
    cases hd
  have hvalue := radixValue?_digits isDigits
  obtain rfl | rfl | rfl := isSign
  · simp [exponentValue?, WrittenExponent.value, hplus, hminus, hvalue]
  · simp [exponentValue?, WrittenExponent.value, hvalue]
  · simp [exponentValue?, WrittenExponent.value, hvalue]

/-- The exponent after the digits of a numeral. -/
theorem exponent_chars (e? : Option WrittenExponent) (whole : List Char)
    (fraction? : Option (List Char)) :
    (match WrittenNumeral.exponentChars e? with
      | [] => some ⟨whole, fraction?, none⟩
      | c :: after =>
        if c = 'e' ∨ c = 'E' then
          (exponentValue? after).map fun exponent => ⟨whole, fraction?, some exponent⟩
        else none) = some (⟨whole, fraction?, e?.map WrittenExponent.value⟩ : Numeral) := by
  cases e? with
  | none => rfl
  | some e =>
    simp only [WrittenNumeral.exponentChars, WrittenExponent.chars, if_pos e.isMark,
      exponentValue?_chars, Option.map_some]

/-- Digits around a point, and an exponent, write a numeral; there may be no digits on one side of
the point. -/
theorem decimalNumeral?_parts {whole : List Char} {fraction? : Option (List Char)}
    (e? : Option WrittenExponent) (isWhole : ∀ c ∈ whole, isDigit c = true)
    (isFraction : ∀ digits, fraction? = some digits → ∀ c ∈ digits, isDigit c = true)
    (nonempty : whole ++ fraction?.getD [] ≠ []) :
    decimalNumeral? (whole ++ (WrittenNumeral.fractionChars fraction? ++
      WrittenNumeral.exponentChars e?)) =
      some ⟨whole, fraction?, e?.map WrittenExponent.value⟩ := by
  have hends : EndsNumber [] := by simp [EndsNumber]
  have hexponent : (c : Char) → (WrittenNumeral.exponentChars e?).head? = some c →
      isDigit c = false ∧ c ≠ '.' := by
    intro c hc
    rw [← List.append_nil (WrittenNumeral.exponentChars e?)] at hc
    have hhead := (exponentText_chars e?).head hends hc
    exact ⟨hhead.1, hhead.2.2.1⟩
  have hempty : (whole ++ fraction?.getD []).isEmpty = false := by simpa using nonempty
  have hlast := exponent_chars e? whole
  cases fraction? with
  | none =>
    have htake := takeWhile_run (p := isDigit) isWhole fun c hc => (hexponent c hc).1
    have hdrop := dropWhile_run (p := isDigit) isWhole fun c hc => (hexponent c hc).1
    have hpoint (after : List Char) : WrittenNumeral.exponentChars e? ≠ '.' :: after := by
      intro heq
      exact (hexponent '.' (by rw [heq]; rfl)).2 rfl
    rw [Option.getD_none] at hempty
    simp only [decimalNumeral?, WrittenNumeral.fractionChars, List.nil_append, htake, hdrop,
      Option.getD_none, hempty, Bool.false_eq_true, if_false]
    exact hlast none
  | some digits =>
    have hdigits := isFraction digits rfl
    have hpoint : (c : Char) → ('.' :: (digits ++ WrittenNumeral.exponentChars e?)).head? = some c →
        isDigit c = false := by
      intro c hc
      rw [← Option.some.inj hc]
      rfl
    have htake := takeWhile_run (p := isDigit) isWhole hpoint
    have hdrop := dropWhile_run (p := isDigit) isWhole hpoint
    have htake' := takeWhile_run (p := isDigit) hdigits fun c hc => (hexponent c hc).1
    have hdrop' := dropWhile_run (p := isDigit) hdigits fun c hc => (hexponent c hc).1
    rw [Option.getD_some] at hempty
    simp only [decimalNumeral?, WrittenNumeral.fractionChars, List.cons_append, htake, hdrop,
      htake', hdrop', Option.getD_some, hempty, Bool.false_eq_true, if_false]
    exact hlast (some digits)

theorem decimalNumeral?_chars (n : WrittenNumeral) : decimalNumeral? n.chars = some n.numeral :=
  decimalNumeral?_parts n.exponent n.isWhole.2 (fun digits h => (n.isFraction digits h).2)
    (List.append_ne_nil_of_left_ne_nil n.isWhole.1 _)

/-- A text has a radix only where its second character is the letter of one. -/
theorem radix?_eq_none {t : List Char} (h : ∀ d u, t = '0' :: d :: u → radixDigit? d = none) :
    radix? t = none := by
  unfold radix?
  split
  · next letter digits =>
    have hradix := h letter digits rfl
    simp only [radixDigit?] at hradix
    split at hradix
    · cases hradix
    · next hhex =>
      split at hradix
      · cases hradix
      · next hoctal =>
        split at hradix
        · cases hradix
        · next hbinary => rw [if_neg hhex, if_neg hoctal, if_neg hbinary]
  · rfl

/-- Decimal digits around a point have no radix. -/
theorem radix?_parts {whole : List Char} {fraction? : Option (List Char)} {exponent : List Char}
    (digits : Digits 10 whole) (leads : whole.head? = some '0' → whole = ['0'])
    (isExponent : ExponentText exponent) :
    radix? (whole ++ (WrittenNumeral.fractionChars fraction? ++ exponent)) = none := by
  refine radix?_eq_none fun d u h => ?_
  rw [← List.append_nil exponent] at h
  exact radixDigit?_second digits leads isExponent (by simp [EndsNumber]) h

theorem radix?_chars (n : WrittenNumeral) : radix? n.chars = none :=
  radix?_parts (digits_of_isDigits n.isWhole) n.leads (exponentText_chars n.exponent)

/-- The number that the text of a numeral writes. -/
theorem numberValue?_chars (n : WrittenNumeral) :
    numberValue? n.chars = n.numeral.toNumber? .nearest false := by
  have hfilter : n.chars.filter (· != '_') = n.chars := by
    apply List.filter_eq_self.2
    intro c hc
    have hnumeral := n.inNumeral_chars c hc
    apply bne_iff_ne.2
    rintro rfl
    cases hnumeral
  simp only [numberValue?, hfilter, radix?_chars, decimalNumeral?_chars]
  rfl

/-! ## Signs -/

theorem toDouble?_neg (n : Numeral) : n.toDouble? true = (n.toDouble? false).map Double.neg :=
  Double.ofDecimal?_neg false _ _

/-- The double of a numeral with a minus sign is that of the numeral with the sign changed. -/
theorem negated?_double {n : Numeral} {found : Number}
    (h : (n.toDouble? true).map Number.double = some found) :
    ∃ positive, (n.toDouble? false).map Number.double = some positive ∧
      negated? positive = some found := by
  rw [toDouble?_neg] at h
  cases hdouble : n.toDouble? false with
  | none => simp [hdouble] at h
  | some d =>
    simp only [hdouble, Option.map_some, Option.some.injEq] at h
    exact ⟨.double d, rfl, congrArg some h⟩

theorem ofInt?_eq_none (value : Int) (h : 0x10000000000000000 ≤ value) :
    Number.ofInt? value = none ∧ Number.ofInt? (-value) = none :=
  ⟨dif_neg fun hbound => by omega, dif_neg fun hbound => by omega⟩

/-- The number with a minus sign is the other one with its sign changed, an integer zero aside. -/
theorem negated?_toNumber? {n : Numeral} {found : Number}
    (hzero : n.fraction = none → n.exponent = none → digitsValue n.whole ≠ 0)
    (h : n.toNumber? .nearest true = some found) :
    ∃ positive, n.toNumber? .nearest false = some positive ∧ negated? positive = some found := by
  by_cases hkind : n.fraction = none → n.exponent ≠ none
  · rw [Json.toNumber?_of_double hkind] at h ⊢
    exact negated?_double h
  obtain ⟨hfraction, hexponent⟩ := Classical.not_imp.1 hkind
  rw [Classical.not_not] at hexponent
  have hm := hzero hfraction hexponent
  have hdouble (negative : Bool) :
      n.toDouble? negative = Double.ofDecimal? negative (digitsValue n.whole) 0 := by
    simp [Numeral.toDouble?, hfraction, hexponent]
  simp only [Numeral.toNumber?, Numeral.rounded?, hfraction, hexponent, Option.isNone_none,
    true_and, hm, and_false, not_false_eq_true, if_true, Bool.false_eq_true, if_false] at h ⊢
  by_cases hlarge : digitsValue n.whole < 0x10000000000000000
  · have hint : Number.ofInt? (digitsValue n.whole : Int) =
        some (.integer (digitsValue n.whole) (by omega)) := dif_pos (by omega)
    refine ⟨_, by rw [hint], ?_⟩
    rw [negated?]
    cases hnegative : Number.ofInt? (-(digitsValue n.whole : Int)) with
    | some negative =>
      simp only [hnegative] at h ⊢
      exact h
    | none =>
      simp only [hnegative] at h ⊢
      have hneg : decide (-(digitsValue n.whole : Int) < 0) = true := by
        rw [decide_eq_true_eq]
        omega
      rw [← h, hdouble, Number.ofIntRounded?, hneg, Int.natAbs_neg, Int.natAbs_natCast]
  · obtain ⟨hnone, hnone'⟩ := ofInt?_eq_none (digitsValue n.whole) (by omega)
    rw [hnone'] at h
    rw [hnone]
    exact negated?_double h

end CssBuild.Script
