import CssBuild.Proofs.Decimal.Printing
import CssBuild.Proofs.Results
import CssBuild.Proofs.Spans
import CssBuild.Toml.Reader
import CssBuild.Toml.Writer

/-!
# CssBuild.Proofs.Toml.Numbers

The numbers that are written in TOML are read back.

1. What starts with a digit or a sign is tried as a date first. The text of a
   number is none, as no `-` or `:` follows its first digits.
2. An integer is then refused as a float, since neither a point nor an
   exponent follows its digits, and read as itself.
3. The text of a double always has a point and no exponent, and is read as
   the double that it stands for (`float_text`).
-/

namespace CssBuild.Toml

open Json (isDigit digitsValue IsDigits signed)

/-! ## Where a value ends -/

/-- The characters that can follow a value. -/
def valueEnds : List Char := [' ', ',', ']', '\n']

/-- What a value can end at. -/
def EndsValue (rest : List Char) : Prop := ∀ c, rest.head? = some c → c ∈ valueEnds

theorem EndsValue.head {rest : List Char} (h : EndsValue rest) {p : Char → Prop}
    (hp : ∀ c ∈ valueEnds, p c) {c : Char} (hc : rest.head? = some c) : p c := hp c (h c hc)

theorem EndsValue.ne {rest : List Char} (h : EndsValue rest) {d : Char} (hd : d ∉ valueEnds) :
    rest.head? ≠ some d := fun hc => hd (h d hc)

theorem EndsValue.stops {rest : List Char} (h : EndsValue rest) : Stops isDigit rest := fun _ hc =>
  h.head (p := fun c => isDigit c = false) (by decide) hc

/-! ## Digits -/

section Digits

variable {ds s rest : List Char}

theorem digitsRest_append (label : String) (hds : ∀ c ∈ ds, isDigit c = true)
    (hs : Stops isDigit rest) (hline : rest.head? ≠ some '_') :
    digitsRest isDigit label (ds ++ rest) = .ok rest := by
  induction ds with
  | nil =>
    rw [List.nil_append]
    unfold digitsRest
    split
    · rfl
    · exact absurd rfl hline
    · exact absurd rfl hline
    · next c rest _ _ => rw [if_neg (by simp [hs c rfl])]
  | cons c ds ih =>
    have hc := hds c List.mem_cons_self
    have hmore := ih fun d hd => hds d (List.mem_cons_of_mem _ hd)
    have hne : c ≠ '_' := by
      rintro rfl
      cases hc
    rw [List.cons_append]
    generalize ds ++ rest = t at hmore
    unfold digitsRest
    split
    · next heq => cases heq
    · next heq => exact absurd (List.cons.inj heq).1 hne
    · next heq => exact absurd (List.cons.inj heq).1 hne
    · next d t' _ _ heq =>
      obtain ⟨rfl, rfl⟩ := List.cons.inj heq
      rw [if_pos hc]
      exact hmore

theorem digit_ne {c d : Char} (hc : isDigit c = true) (hd : isDigit d = false) : c ≠ d := by
  rintro rfl
  rw [hc] at hd
  cases hd

theorem afterSign_signed (negative : Bool) (hds : IsDigits ds) :
    afterSign (signed negative (ds ++ s)) = ds ++ s := by
  obtain ⟨c, more, rfl, hc, -⟩ := hds.eq_cons
  cases negative with
  | true => rfl
  | false =>
    have hplus := digit_ne hc (by decide : isDigit '+' = false)
    have hminus := digit_ne hc (by decide : isDigit '-' = false)
    simp only [signed, Bool.false_eq_true, if_false, List.cons_append]
    unfold afterSign
    split
    · next heq => exact absurd (List.cons.inj heq).1 hplus
    · next heq => exact absurd (List.cons.inj heq).1 hminus
    · rfl

/-- The digits of an integer are passed as a whole. -/
theorem decimalRest_signed (negative : Bool) (hds : IsDigits ds)
    (leads : ds.head? = some '0' → ds = ['0']) (hs : Stops isDigit rest)
    (hline : rest.head? ≠ some '_') :
    decimalRest (signed negative (ds ++ rest)) = .ok rest := by
  rw [decimalRest, afterSign_signed negative hds]
  obtain ⟨c, more, rfl, hc, hmore⟩ := hds.eq_cons
  by_cases hzero : c = '0'
  · obtain ⟨-, rfl⟩ := List.cons.inj (leads (by rw [hzero]; rfl))
    rw [hzero]
    rfl
  · rw [List.cons_append]
    split
    · next heq => exact absurd (List.cons.inj heq).1 hzero
    · next heq =>
      obtain ⟨rfl, rfl⟩ := List.cons.inj heq
      rw [if_pos hc]
      exact digitsRest_append _ hmore hs hline
    · next heq => cases heq

theorem plainDigits_append {u : List Char} (h : '_' ∉ u) (rest : List Char) :
    plainDigits (u ++ rest) rest = u := by
  have hlength : (u ++ rest).length - rest.length = u.length := by
    rw [List.length_append, Nat.add_sub_cancel]
  rw [plainDigits, hlength, List.take_left]
  apply List.filter_eq_self.2
  intro c hc
  rw [bne_iff_ne]
  rintro rfl
  exact h hc

theorem not_mem_signed {negative : Bool} {d : Char} (hminus : d ≠ '-') (hs : d ∉ s) :
    d ∉ signed negative s := by
  cases negative with
  | true => simpa [signed, hminus] using hs
  | false => exact hs

end Digits

/-! ## Dates -/

/-- No character that separates the parts of a date or a time comes next. -/
def NoMark (s : List Char) : Prop := s.head? ≠ some '-' ∧ s.head? ≠ some ':'

theorem fixedDigits?_spec {count : Nat} {s found rest : List Char}
    (h : fixedDigits? count s = some (found, rest)) :
    found.length = count ∧ s = found ++ rest ∧ ∀ c ∈ found, isDigit c = true := by
  simp only [fixedDigits?, Option.ite_none_right_eq_some, Option.some.injEq, Prod.mk.injEq,
    List.all_eq_true] at h
  obtain ⟨⟨hlength, hall⟩, rfl, rfl⟩ := h
  exact ⟨hlength, (List.take_append_drop count s).symm, hall⟩

theorem fixedDigits?_signed {count : Nat} (negative : Bool) {ds s found rest : List Char}
    (hds : IsDigits ds) (hs : Stops isDigit s) (hmark : NoMark s)
    (h : fixedDigits? (count + 1) (signed negative (ds ++ s)) = some (found, rest)) :
    NoMark rest := by
  obtain ⟨hlength, htext, hfound⟩ := fixedDigits?_spec h
  have hpositive : negative = false := by
    cases negative with
    | false => rfl
    | true =>
      cases found with
      | nil => cases hlength
      | cons c found =>
        have hc := hfound c List.mem_cons_self
        rw [← (List.cons.inj htext).1] at hc
        cases hc
  have hplain : ds ++ s = found ++ rest := by simpa [hpositive, signed] using htext
  have hbefore : ∀ d, isDigit d = false → rest.head? = some d → s.head? = some d := by
    intro d hd hrest
    have hstop : Stops isDigit rest := by
      intro c hc
      rw [hrest] at hc
      rw [← Option.some.inj hc, hd]
    have hleft := dropWhile_run hds.2 hs
    rw [hplain, dropWhile_run hfound hstop] at hleft
    rw [← hleft, hrest]
  exact ⟨fun h => hmark.1 (hbefore '-' (by decide) h), fun h => hmark.2 (hbefore ':' (by decide) h)⟩

theorem twoDigits_ok {low high : Nat} {label : String} {s found rest : List Char}
    (h : twoDigits low high label s = .ok (found, rest)) :
    fixedDigits? 2 s = some (found, rest) := by
  unfold twoDigits at h
  dsimp only at h
  split at h
  · next digits after heq =>
    split at h
    · obtain ⟨rfl, rfl⟩ := Prod.mk.inj (Except.ok.inj h)
      exact heq
    · cases h
  · cases h

/-- A number is no date and no time. -/
theorem dateTime_number (negative : Bool) {ds s : List Char} (hds : IsDigits ds)
    (hs : Stops isDigit s) (hmark : NoMark s) :
    ∃ fault, dateTime (signed negative (ds ++ s)) = .error fault ∧ fault.soft = true := by
  have hdate : date (signed negative (ds ++ s)) = .error (absent (signed negative (ds ++ s))) := by
    unfold date
    split
    · next heq => exact absurd rfl (fixedDigits?_signed negative hds hs hmark heq).1
    · rfl
  have htime : time "time" (signed negative (ds ++ s)) =
      .error (absent (signed negative (ds ++ s))) := by
    unfold time
    split
    · next heq =>
      exact absurd rfl (fixedDigits?_signed negative hds hs hmark (twoDigits_ok heq)).2
    · rfl
  refine ⟨absent (signed negative (ds ++ s)), ?_, rfl⟩
  unfold dateTime
  rw [hdate]
  exact htime

/-! ## Integers -/

section Integers

variable {ds rest : List Char} (negative : Bool) (hds : IsDigits ds)
  (leads : ds.head? = some '0' → ds = ['0']) (hrest : EndsValue rest)
include hds

/-- Digits do not start the name of an infinity or of not-a-number. -/
theorem float_digits (s : List Char) : float (signed negative (ds ++ s)) = (do
    let whole ← labelled "floating-point number" (decimalRest (signed negative (ds ++ s)))
    let rest ← match whole with
      | '.' :: after => do
        let after ← someDigits after
        exponentRest after
      | c :: _ => if c = 'e' ∨ c = 'E' then exponentRest whole else .error (absent whole)
      | [] => .error (absent whole)
    match floatValue? (plainDigits (signed negative (ds ++ s)) rest) with
    | some d => .ok (.number (.double d), rest)
    | none => .error (broken (some "floating-point number") [] (signed negative (ds ++ s)))) := by
  have hsign := @afterSign_signed ds s negative hds
  obtain ⟨c, more, rfl, hc, -⟩ := hds.eq_cons
  generalize signed negative (c :: more ++ s) = t at hsign
  unfold float
  rw [hsign]
  split
  · next heq => exact absurd (List.cons.inj heq).1 (digit_ne hc (by decide))
  · next heq => exact absurd (List.cons.inj heq).1 (digit_ne hc (by decide))
  · rfl

include leads hrest

/-- An integer is no float. -/
theorem float_integer :
    ∃ fault, float (signed negative (ds ++ rest)) = .error fault ∧ fault.soft = true := by
  have hdigits := decimalRest_signed negative hds leads hrest.stops (hrest.ne (by decide))
  refine ⟨absent rest, ?_, rfl⟩
  rw [float_digits negative hds, hdigits]
  simp only [labelled_ok, ok_bind]
  cases rest with
  | nil => rfl
  | cons c rest =>
    have hmark := hrest.head (p := fun c => ¬(c = 'e' ∨ c = 'E') ∧ c ≠ '.') (by decide) rfl
    split
    · next heq => exact absurd (List.cons.inj heq).1 hmark.2
    · next heq =>
      obtain ⟨rfl, -⟩ := List.cons.inj heq
      rw [if_neg hmark.1]
      rfl
    · next heq => cases heq

theorem integer_digits {value : Int} (hvalue : signedDigits (signed negative ds) = value)
    (bounded : -0x8000000000000000 ≤ value ∧ value < 0x10000000000000000)
    (small : value < 0x8000000000000000) :
    integer (signed negative (ds ++ rest)) = .ok (.number (.integer value bounded), rest) := by
  have hdigits := decimalRest_signed negative hds leads hrest.stops (hrest.ne (by decide))
  have hplain : plainDigits (signed negative (ds ++ rest)) rest = signed negative ds := by
    have hline := @not_mem_signed ds negative '_' (by decide) (hds.not_mem (by decide))
    have happ : signed negative (ds ++ rest) = signed negative ds ++ rest := by
      cases negative <;> rfl
    rw [happ, plainDigits_append hline]
  have hradix : ∀ d ∈ ['x', 'o', 'b'], ∀ u, signed negative (ds ++ rest) ≠ '0' :: d :: u := by
    intro d hd u heq
    cases negative with
    | true => exact absurd (List.cons.inj heq).1 (by decide)
    | false =>
      obtain ⟨c, more, rfl, hc, -⟩ := hds.eq_cons
      obtain ⟨rfl, hmore⟩ := List.cons.inj heq
      obtain ⟨-, rfl⟩ := List.cons.inj (leads rfl)
      have htail : rest = d :: u := hmore
      have hhead : rest.head? = some d := by rw [htail, List.head?_cons]
      have := hrest.head (p := fun c => c ∉ ['x', 'o', 'b']) (by decide) hhead
      exact this hd
  have hint : Number.ofInt? value = some (.integer value bounded) := dif_pos bounded
  have hresult : int64 value (signed negative (ds ++ rest)) rest =
      .ok (.number (.integer value bounded), rest) := by
    rw [int64, if_pos ⟨bounded.1, small⟩, hint]
  unfold integer
  split
  · next heq => exact absurd heq (hradix 'x' (by decide) _)
  · next heq => exact absurd heq (hradix 'o' (by decide) _)
  · next heq => exact absurd heq (hradix 'b' (by decide) _)
  · rw [hdigits, ok_bind, hplain, hvalue, hresult]

end Integers

/-! ## Doubles -/

theorem someDigits_append {ds rest : List Char} (hds : IsDigits ds) (hs : Stops isDigit rest)
    (hline : rest.head? ≠ some '_') : someDigits (ds ++ rest) = .ok rest := by
  obtain ⟨c, more, rfl, hc, hmore⟩ := hds.eq_cons
  rw [List.cons_append, someDigits, if_pos hc]
  exact digitsRest_append _ hmore hs hline

theorem exponentRest_stop {rest : List Char} (h : EndsValue rest) :
    exponentRest rest = .ok rest := by
  cases rest with
  | nil => rfl
  | cons c rest =>
    have hmark := h.head (p := fun c => ¬(c = 'e' ∨ c = 'E')) (by decide) rfl
    rw [exponentRest, if_neg hmark]

/-- The text of a float without exponent names the double of its digits. -/
theorem floatValue?_signed (negative : Bool) {whole fraction : List Char} (hwhole : IsDigits whole)
    (hfraction : IsDigits fraction) :
    floatValue? (signed negative (whole ++ '.' :: fraction)) =
      Double.ofDecimal? negative (digitsValue (whole ++ fraction)) (0 - fraction.length) := by
  have hpoint : Stops isDigit ('.' :: fraction) := stops_cons (by decide)
  have htake := takeWhile_run hwhole.2 hpoint
  have hdrop := dropWhile_run hwhole.2 hpoint
  have htake' : fraction.takeWhile isDigit = fraction := by
    simpa using takeWhile_run hfraction.2 stops_nil
  have hdrop' : fraction.dropWhile isDigit = [] := by
    simpa using dropWhile_run hfraction.2 stops_nil
  cases negative with
  | true =>
    simp only [floatValue?, signed, if_true, htake, hdrop, htake', hdrop']
    rfl
  | false =>
    obtain ⟨c, more, rfl, hc, -⟩ := hwhole.eq_cons
    simp only [signed, Bool.false_eq_true, if_false]
    have hsign : ∀ sign, isDigit sign = false → ∀ u, c :: more ++ '.' :: fraction ≠ sign :: u :=
      fun sign hsign u h => digit_ne hc hsign (List.cons.inj h).1
    rw [floatValue?]
    · simp only [htake, hdrop, htake', hdrop']
      rfl
    · exact hsign '-' (by decide)
    · exact hsign '+' (by decide)

/-- The text of a double is read as that double. -/
theorem float_text (d : Double) {rest : List Char} (hrest : EndsValue rest) :
    float (Layout.plain.text d ++ rest) = .ok (.number (.double d), rest) := by
  obtain ⟨whole, fraction, hwhole, leads, hfraction, hmagnitude, hvalue⟩ :=
    Layout.magnitudeText_plain d.index
  have htext : Layout.plain.text d = signed d.negative (whole ++ '.' :: fraction) := by
    rw [← hmagnitude]
    rfl
  have happ : signed d.negative (whole ++ '.' :: fraction) ++ rest =
      signed d.negative (whole ++ '.' :: (fraction ++ rest)) := by
    cases d.negative <;> simp [signed]
  have hline : '_' ∉ signed d.negative (whole ++ '.' :: fraction) := by
    apply not_mem_signed (by decide)
    have hw := hwhole.not_mem (by decide : isDigit '_' = false)
    have hf := hfraction.not_mem (by decide : isDigit '_' = false)
    simp [hw, hf]
  have hplain := plainDigits_append hline rest
  have hdigits := @decimalRest_signed whole ('.' :: (fraction ++ rest)) d.negative hwhole leads
    (stops_cons (by decide)) (by simp)
  have hfinite : Double.ofIndex? d.negative d.index = some d := dif_pos d.finite
  rw [happ] at hplain
  rw [htext, happ, float_digits d.negative hwhole, hdigits]
  simp only [labelled_ok, ok_bind, hplain, floatValue?_signed d.negative hwhole
    hfraction, hvalue, hfinite, someDigits_append hfraction hrest.stops (hrest.ne (by decide)),
    exponentRest_stop hrest]

/-! ## Numbers -/

/-- What a number is written as. -/
def numberKind : Number → Kind
  | .integer _ _ => .integer
  | .double _ => .float

/-- A number that fits 64 bits with sign, if it is an integer. -/
def SmallNumber : Number → Prop
  | .integer value _ => value < 0x8000000000000000
  | .double _ => True

theorem numberText_signed (n : Number) : ∃ negative ds s, numberText n = signed negative (ds ++ s) ∧
    IsDigits ds ∧ (∀ rest, EndsValue rest → Stops isDigit (s ++ rest) ∧ NoMark (s ++ rest)) := by
  cases n with
  | integer value _ =>
    have hnone : ∀ rest, EndsValue rest → Stops isDigit ([] ++ rest) ∧ NoMark ([] ++ rest) :=
      fun rest h => ⟨h.stops, h.ne (by decide), h.ne (by decide)⟩
    refine ⟨value < 0, Layout.digits value.natAbs, [], ?_, Layout.isDigits_digits _, hnone⟩
    rw [numberText, Json.integerText, List.append_nil]
    split <;> simp [signed, *]
  | double d =>
    obtain ⟨whole, fraction, hwhole, -, -, hmagnitude, -⟩ := Layout.magnitudeText_plain d.index
    refine ⟨d.negative, whole, '.' :: fraction, ?_, hwhole, fun rest _ => ?_⟩
    · rw [← hmagnitude]
      rfl
    · exact ⟨stops_cons (by decide), by simp [NoMark]⟩

/-- A number is read back from its text. -/
theorem numeric_numberText (n : Number) (small : SmallNumber n) {rest : List Char}
    (hrest : EndsValue rest) :
    numeric (numberText n ++ rest) = .ok ((numberKind n, .number n), rest) := by
  obtain ⟨negative, ds, s, htext, hds, hs⟩ := numberText_signed n
  have happ : numberText n ++ rest = signed negative (ds ++ (s ++ rest)) := by
    rw [htext]
    cases negative <;> simp [signed]
  obtain ⟨fault, hdate, hsoft⟩ := dateTime_number negative hds (hs rest hrest).1 (hs rest hrest).2
  rw [← happ] at hdate
  rw [numeric, hdate]
  simp only [orElse, Except.map, hsoft, if_true]
  cases n with
  | double d =>
    have hfloat := float_text d hrest
    simp only [numberText, hfloat, numberKind]
  | integer value bounded =>
    have hdigits := Layout.isDigits_digits value.natAbs
    have leads := Layout.leads_digits value.natAbs
    have hsigned : numberText (.integer value bounded) ++ rest =
        signed (value < 0) (Layout.digits value.natAbs ++ rest) := by
      rw [numberText, Json.integerText]
      split <;> simp [signed, *]
    have hvalue : signedDigits (signed (value < 0) (Layout.digits value.natAbs)) = value := by
      by_cases hsign : value < 0
      · simp only [hsign, decide_true, signed, if_true, signedDigits, Layout.digitsValue_digits]
        omega
      · obtain ⟨c, more, hcons, hc, -⟩ := hdigits.eq_cons
        have hdigits' := Layout.digitsValue_digits value.natAbs
        simp only [hsign, decide_false, signed, Bool.false_eq_true, if_false]
        rw [hcons] at hdigits' ⊢
        unfold signedDigits
        split
        · next h => exact absurd (List.cons.inj h).1 (digit_ne hc (by decide))
        · next h => exact absurd (List.cons.inj h).1 (digit_ne hc (by decide))
        · rw [hdigits']
          omega
    obtain ⟨fault, hfloat, hsoft⟩ := float_integer (value < 0) hdigits leads hrest
    have hinteger := integer_digits (value < 0) hdigits leads hrest hvalue bounded small
    rw [hsigned, hfloat, hinteger]
    simp only [hsoft, if_true, numberKind]

theorem numberText_eq_cons (n : Number) :
    ∃ c u, numberText n = c :: u ∧ (c = '-' ∨ isDigit c = true) := by
  obtain ⟨negative, ds, s, htext, hds, -⟩ := numberText_signed n
  obtain ⟨c, more, rfl, hc, -⟩ := hds.eq_cons
  cases negative with
  | true => exact ⟨'-', _, htext, .inl rfl⟩
  | false => exact ⟨c, _, htext, .inr hc⟩

end CssBuild.Toml
