import CssBuild.Json.Lexical
import CssBuild.Proofs.Spans

/-!
# CssBuild.Proofs.Json.Spelling

The texts that spell a tree.

1. `Spells` relates a tree to every text that writes it in JSON, from its first
   character to its last. Blanks stand between tokens, a character of a string
   stands for itself or is escaped, and a number has a sign, digits, a fraction
   and an exponent.
2. The relation is by recursion on the tree, so that what reads a text and what
   writes one can both be compared with it.
3. How a number is spelled is left open in it: `p` relates the numbers of the
   tree to their texts, such as `SpellsNumber` for either way of rounding.
-/

namespace CssBuild.Json

/-- Only blanks. -/
def IsBlanks (s : List Char) : Prop := ∀ c ∈ s, isBlank c = true

theorem isBlanks_nil : IsBlanks [] := by simp [IsBlanks]

theorem IsBlanks.append {s t : List Char} (hs : IsBlanks s) (ht : IsBlanks t) :
    IsBlanks (s ++ t) := by
  intro c hc
  obtain hc | hc := List.mem_append.1 hc
  · exact hs c hc
  · exact ht c hc

/-! ## Digits -/

/-- What holds of the ten digits holds of every digit. -/
theorem isDigit_cases {p : Char → Prop}
    (h : ∀ d ∈ ['0', '1', '2', '3', '4', '5', '6', '7', '8', '9'], p d) {c : Char}
    (hc : isDigit c = true) : p c := by
  simp only [isDigit, Bool.and_eq_true, decide_eq_true_eq, Char.le_def, UInt32.le_iff_toNat_le]
    at hc
  have hn : c.toNat = 48 ∨ c.toNat = 49 ∨ c.toNat = 50 ∨ c.toNat = 51 ∨ c.toNat = 52 ∨
      c.toNat = 53 ∨ c.toNat = 54 ∨ c.toNat = 55 ∨ c.toNat = 56 ∨ c.toNat = 57 := by
    have hlow : 48 ≤ c.toNat := hc.1
    have hhigh : c.toNat ≤ 57 := hc.2
    omega
  rw [← Char.ofNat_toNat c]
  rcases hn with hn | hn | hn | hn | hn | hn | hn | hn | hn | hn <;>
    exact hn ▸ h _ (by decide)

/-! ## Strings -/

/-- The texts that spell a character inside a string. -/
inductive SpellsChar : Char → List Char → Prop where
  /-- The character itself. -/
  | plain {c : Char} (quote : c ≠ '"') (backslash : c ≠ '\\') (visible : 0x20 ≤ c.toNat) :
    SpellsChar c [c]
  /-- An escape with a letter. -/
  | letter {c letter : Char} (stands : escapeLetter? letter = some c) :
    SpellsChar c ['\\', letter]
  /-- An escape with a code. -/
  | code {a b c d : Char} {code : Nat} (digits : hexFour? [a, b, c, d] = some (code, []))
    (low : isLow code = false) (high : isHigh code = false) :
    SpellsChar (Char.ofNat code) ['\\', 'u', a, b, c, d]
  /-- Escapes with the two halves of a pair. -/
  | pair {a b c d a' b' c' d' : Char} {high low : Nat}
    (first : hexFour? [a, b, c, d] = some (high, []))
    (second : hexFour? [a', b', c', d'] = some (low, []))
    (isHigh : isHigh high = true) (isLow : isLow low = true) :
    SpellsChar (pairChar high low) ['\\', 'u', a, b, c, d, '\\', 'u', a', b', c', d']

/-- The texts that spell some characters inside a string. -/
def SpellsChars : List Char → List Char → Prop
  | [], t => t = []
  | c :: rest, t => ∃ u more, SpellsChar c u ∧ SpellsChars rest more ∧ t = u ++ more

/-- The texts that spell a string. -/
def SpellsString (s : String) (t : List Char) : Prop :=
  ∃ inner, SpellsChars s.toList inner ∧ t = '"' :: (inner ++ ['"'])

theorem hexFour?_eq_some {a b c d : Char} {n : Nat} (h : hexFour? [a, b, c, d] = some (n, [])) :
    ∃ w x y z, hexValue? a = some w ∧ hexValue? b = some x ∧ hexValue? c = some y ∧
      hexValue? d = some z ∧ ((w * 16 + x) * 16 + y) * 16 + z = n := by
  simp only [hexFour?, Option.bind_eq_bind, Option.bind_eq_some_iff, Option.some.injEq,
    Prod.mk.injEq, and_true] at h
  obtain ⟨w, hw, x, hx, y, hy, z, hz, hn⟩ := h
  exact ⟨w, x, y, z, hw, hx, hy, hz, hn⟩

/-! ## Numbers -/

/-- At least one digit. -/
def IsDigits (s : List Char) : Prop := s ≠ [] ∧ ∀ c ∈ s, isDigit c = true

theorem IsDigits.eq_cons {ds : List Char} (h : IsDigits ds) : ∃ c more, ds = c :: more ∧
    isDigit c = true ∧ ∀ d ∈ more, isDigit d = true := by
  obtain ⟨c, more, rfl⟩ := List.exists_cons_of_ne_nil h.1
  exact ⟨c, more, rfl, h.2 c List.mem_cons_self, fun d hd => h.2 d (List.mem_cons_of_mem _ hd)⟩

theorem IsDigits.not_mem {ds : List Char} (h : IsDigits ds) {c : Char} (hc : isDigit c = false) :
    c ∉ ds := by
  intro hmem
  rw [h.2 c hmem] at hc
  cases hc

/-- An exponent as it is written. -/
structure WrittenExponent where
  mark : Char
  sign : List Char
  digits : List Char
  isMark : mark = 'e' ∨ mark = 'E'
  isSign : sign = [] ∨ sign = ['+'] ∨ sign = ['-']
  isDigits : IsDigits digits

namespace WrittenExponent

/-- The text. -/
def chars (e : WrittenExponent) : List Char := e.mark :: (e.sign ++ e.digits)

/-- The number. -/
def value (e : WrittenExponent) : Int :=
  if e.sign = ['-'] then -(digitsValue e.digits : Int) else digitsValue e.digits

/-- The digits write the number without its sign. -/
theorem digitsValue_digits (e : WrittenExponent) : digitsValue e.digits = e.value.natAbs := by
  rw [value]
  split <;> omega

end WrittenExponent

/-- An unsigned numeral as it is written. -/
structure WrittenNumeral where
  whole : List Char
  fraction : Option (List Char)
  exponent : Option WrittenExponent
  isWhole : IsDigits whole
  /-- A zero before other digits is left out. -/
  leads : whole.head? = some '0' → whole = ['0']
  isFraction : ∀ digits, fraction = some digits → IsDigits digits

namespace WrittenNumeral

/-- The text of a fraction. -/
def fractionChars : Option (List Char) → List Char
  | some digits => '.' :: digits
  | none => []

/-- The text of an exponent. -/
def exponentChars : Option WrittenExponent → List Char
  | some e => e.chars
  | none => []

/-- The text. -/
def chars (n : WrittenNumeral) : List Char :=
  n.whole ++ (fractionChars n.fraction ++ exponentChars n.exponent)

/-- The numeral. -/
def numeral (n : WrittenNumeral) : Numeral :=
  ⟨n.whole, n.fraction, n.exponent.map WrittenExponent.value⟩

theorem le_ofDigitChars (ds : List Char) (init : Nat) : init ≤ Nat.ofDigitChars 10 ds init := by
  induction ds generalizing init with
  | nil => exact Nat.le_refl _
  | cons c ds ih =>
    rw [Nat.ofDigitChars_cons]
    exact Nat.le_trans (by omega) (ih _)

/-- Only a zero writes the number zero. -/
theorem whole_eq_zero (n : WrittenNumeral) (h : digitsValue n.whole = 0) : n.whole = ['0'] := by
  obtain ⟨c, more, hwhole⟩ := List.exists_cons_of_ne_nil n.isWhole.1
  have hdigit := n.isWhole.2 c (hwhole ▸ List.mem_cons_self)
  have hle := le_ofDigitChars more (10 * 0 + (c.toNat - '0'.toNat))
  rw [← Nat.ofDigitChars_cons, ← hwhole] at hle
  rw [digitsValue] at h
  have hc : c = '0' := by
    have hnonzero : c ≠ '0' → 0 < c.toNat - '0'.toNat :=
      isDigit_cases (p := fun c => c ≠ '0' → 0 < c.toNat - '0'.toNat) (by decide) hdigit
    by_cases hc : c = '0'
    · exact hc
    · have := hnonzero hc
      omega
  exact n.leads (by rw [hwhole, hc]; rfl)

theorem chars_eq_cons (n : WrittenNumeral) : ∃ c u, n.chars = c :: u ∧ isDigit c = true := by
  obtain ⟨c, more, hwhole, hc, -⟩ := n.isWhole.eq_cons
  refine ⟨c, more ++ (fractionChars n.fraction ++ exponentChars n.exponent), ?_, hc⟩
  rw [chars, hwhole, List.cons_append]

end WrittenNumeral

/-- A numeral with a fraction or an exponent is a double. -/
theorem toNumber?_of_double {n : Numeral} (h : n.fraction = none → n.exponent ≠ none)
    (rounding : Rounding) (negative : Bool) :
    n.toNumber? rounding negative = (n.rounded? rounding negative).map .double := by
  have hinteger : ¬(n.fraction.isNone ∧ n.exponent.isNone ∧
      ¬(negative ∧ digitsValue n.whole = 0)) := by
    rintro ⟨hfraction, hexponent, -⟩
    exact h (Option.isNone_iff_eq_none.1 hfraction) (Option.isNone_iff_eq_none.1 hexponent)
  rw [Numeral.toNumber?, if_neg hinteger]

/-- A text with a sign in front of it or not. -/
def signed (negative : Bool) (t : List Char) : List Char := if negative then '-' :: t else t

/-- The texts that spell some number. -/
def IsNumeral (t : List Char) : Prop :=
  ∃ (negative : Bool) (n : WrittenNumeral), t = signed negative n.chars

/-- The texts that spell a number, its double rounded in some way. -/
def SpellsNumber (rounding : Rounding) (found : Number) (t : List Char) : Prop :=
  ∃ (negative : Bool) (n : WrittenNumeral),
    n.numeral.toNumber? rounding negative = some found ∧ t = signed negative n.chars

theorem SpellsNumber.isNumeral {rounding : Rounding} {found : Number} {t : List Char}
    (h : SpellsNumber rounding found t) : IsNumeral t := by
  obtain ⟨negative, n, -, ht⟩ := h
  exact ⟨negative, n, ht⟩

/-- Rounded step by step, a text spells what it spells where its double is the nearest one. -/
def RoundedCorrectly (t : List Char) : Prop :=
  ∀ found, SpellsNumber .stepwise found t ↔ SpellsNumber .nearest found t

/-- Whether a character marks an exponent. -/
def marksExponent (c : Char) : Bool := c == 'e' || c == 'E'

/-- The digits of the exponent of a spelled number; none where it has no exponent. -/
def exponentDigitsOf (t : List Char) : List Char :=
  match t.dropWhile fun c => !marksExponent c with
  | [] => []
  | _ :: '+' :: digits => digits
  | _ :: '-' :: digits => digits
  | _ :: digits => digits

/-- The spelling of a number whose exponent is one that every numeral can have. -/
def smallExponent (t : List Char) : Prop := digitsValue (exponentDigitsOf t) ≤ exponentLimit

instance : DecidablePred smallExponent :=
  fun t => inferInstanceAs (Decidable (digitsValue (exponentDigitsOf t) ≤ exponentLimit))

/-- The texts that spell a number with such an exponent. -/
def SpellsShort (rounding : Rounding) (found : Number) (t : List Char) : Prop :=
  SpellsNumber rounding found t ∧ smallExponent t

theorem SpellsShort.isNumeral {rounding : Rounding} {found : Number} {t : List Char}
    (h : SpellsShort rounding found t) : IsNumeral t := h.1.isNumeral

theorem marksExponent_of_isDigit {c : Char} (h : isDigit c = true) : marksExponent c = false :=
  isDigit_cases (p := fun c => marksExponent c = false) (by decide) h

theorem exponentDigitsOf_signed (negative : Bool) (n : WrittenNumeral) :
    exponentDigitsOf (signed negative n.chars) =
      (n.exponent.map WrittenExponent.digits).getD [] := by
  have hrun : ∀ c ∈ signed negative (n.whole ++ WrittenNumeral.fractionChars n.fraction),
      (!marksExponent c) = true := by
    have hunsigned : ∀ c ∈ n.whole ++ WrittenNumeral.fractionChars n.fraction,
        (!marksExponent c) = true := by
      intro c hc
      obtain hc | hc := List.mem_append.1 hc
      · rw [marksExponent_of_isDigit (n.isWhole.2 c hc), Bool.not_false]
      · cases hfraction : n.fraction with
        | none => simp [hfraction, WrittenNumeral.fractionChars] at hc
        | some digits =>
          rw [hfraction] at hc
          obtain rfl | hc := List.mem_cons.1 hc
          · rfl
          · rw [marksExponent_of_isDigit ((n.isFraction digits hfraction).2 c hc), Bool.not_false]
    cases negative with
    | false => exact hunsigned
    | true => exact List.forall_mem_cons.2 ⟨rfl, hunsigned⟩
  have hsplit : signed negative n.chars =
      signed negative (n.whole ++ WrittenNumeral.fractionChars n.fraction) ++
        WrittenNumeral.exponentChars n.exponent := by
    cases negative <;> simp [signed, WrittenNumeral.chars]
  cases hexponent : n.exponent with
  | none =>
    rw [exponentDigitsOf, hsplit, hexponent, WrittenNumeral.exponentChars,
      dropWhile_run hrun stops_nil]
    rfl
  | some e =>
    have hstop : Stops (fun c => !marksExponent c) e.chars := by
      apply stops_cons
      rcases e.isMark with h | h <;> rw [h] <;> rfl
    rw [exponentDigitsOf, hsplit, hexponent, WrittenNumeral.exponentChars, dropWhile_run hrun hstop]
    obtain ⟨d, more, hdigits, hdigit, -⟩ := e.isDigits.eq_cons
    rw [WrittenExponent.chars, hdigits, Option.map_some, Option.getD_some, hdigits]
    rcases e.isSign with h | h | h
    · rw [h, List.nil_append]
      split
      · next heq => cases heq
      · next heq =>
        obtain ⟨rfl, -⟩ := List.cons.inj (List.cons.inj heq).2
        cases hdigit
      · next heq =>
        obtain ⟨rfl, -⟩ := List.cons.inj (List.cons.inj heq).2
        cases hdigit
      · next heq => exact (List.cons.inj heq).2.symm
    · rw [h]
      rfl
    · rw [h]
      rfl

theorem smallExponent_signed {negative : Bool} {n : WrittenNumeral} :
    smallExponent (signed negative n.chars) ↔
      ∀ e, n.exponent = some e → digitsValue e.digits ≤ exponentLimit := by
  rw [smallExponent, exponentDigitsOf_signed]
  cases n.exponent with
  | none => simp [digitsValue]
  | some e => simp

/-! ## Trees -/

/-- The text of a truth value. -/
def boolChars (b : Bool) : List Char :=
  if b then ['t', 'r', 'u', 'e'] else ['f', 'a', 'l', 's', 'e']

/-- What stands before an item or entry, the blanks at its start given: nothing before the first
one, and a comma and more blanks before any other. -/
def SpellsComma (first : Bool) (t : List Char) : Prop :=
  if first then t = [] else ∃ blanks, IsBlanks blanks ∧ t = ',' :: blanks

mutual

/-- The texts that spell a tree whose numbers are spelled in some way. -/
def Spells (p : Number → List Char → Prop) : Json → List Char → Prop
  | null, t => t = ['n', 'u', 'l', 'l']
  | bool b, t => t = boolChars b
  | number n, t => p n t
  | string s, t => SpellsString s t
  | array items, t => ∃ inner, SpellsItems p true items inner ∧ t = '[' :: inner
  | object entries, t => ∃ inner, SpellsEntries p true entries inner ∧ t = '{' :: inner

/-- The texts that spell the items of an array, with the bracket that closes it. -/
def SpellsItems (p : Number → List Char → Prop) (first : Bool) : List Json → List Char → Prop
  | [], t => ∃ blanks, IsBlanks blanks ∧ t = blanks ++ [']']
  | item :: rest, t => ∃ blanks comma u more, IsBlanks blanks ∧ SpellsComma first comma ∧
    Spells p item u ∧ SpellsItems p false rest more ∧ t = blanks ++ comma ++ u ++ more

/-- The texts that spell the entries of an object, with the brace that closes it. -/
def SpellsEntries (p : Number → List Char → Prop) (first : Bool) :
    List (String × Json) → List Char → Prop
  | [], t => ∃ blanks, IsBlanks blanks ∧ t = blanks ++ ['}']
  | (key, value) :: rest, t => ∃ blanks comma name before after u more,
    IsBlanks blanks ∧ SpellsComma first comma ∧ SpellsString key name ∧ IsBlanks before ∧
    IsBlanks after ∧ Spells p value u ∧ SpellsEntries p false rest more ∧
    t = blanks ++ comma ++ name ++ before ++ ':' :: (after ++ u ++ more)

end

/-- The texts that spell a tree with blanks around it. -/
def SpellsText (p : Number → List Char → Prop) (tree : Json) (t : List Char) : Prop :=
  ∃ before body after, IsBlanks before ∧ Spells p tree body ∧ IsBlanks after ∧
    t = before ++ body ++ after

theorem SpellsText.of_spells {p : Number → List Char → Prop} {tree : Json} {text : List Char}
    (h : Spells p tree text) : SpellsText p tree text :=
  ⟨[], text, [], isBlanks_nil, h, isBlanks_nil, by simp⟩

mutual

/-- The numbers of a tree, from left to right. -/
def numbers : Json → List Number
  | null | bool _ | string _ => []
  | number n => [n]
  | array items => numbersItems items
  | object entries => numbersEntries entries

/-- The numbers of some items. -/
def numbersItems : List Json → List Number
  | [] => []
  | item :: rest => numbers item ++ numbersItems rest

/-- The numbers of the values of some entries. -/
def numbersEntries : List (String × Json) → List Number
  | [] => []
  | (_, value) :: rest => numbers value ++ numbersEntries rest

end

/-! ## What stands after a value -/

/-- The end of a text, or blanks and something that separates or closes. -/
def Delimited (s : List Char) : Prop :=
  ∃ blanks rest, IsBlanks blanks ∧ s = blanks ++ rest ∧
    ∀ c, rest.head? = some c → c ∈ [',', ']', '}', ';']

theorem Delimited.head {s : List Char} (h : Delimited s) {c : Char} (hc : s.head? = some c) :
    isBlank c = true ∨ c ∈ [',', ']', '}', ';'] := by
  obtain ⟨blanks, rest, hblanks, rfl, hrest⟩ := h
  cases blanks with
  | nil => exact .inr (hrest c hc)
  | cons d blanks =>
    obtain rfl := Option.some.inj hc
    exact .inl (hblanks d List.mem_cons_self)

theorem delimited_cons {blanks : List Char} (hblanks : IsBlanks blanks) {c : Char}
    (hc : c ∈ [',', ']', '}', ';']) (s : List Char) : Delimited (blanks ++ c :: s) :=
  ⟨blanks, c :: s, hblanks, rfl, fun _ hd => Option.some.inj hd ▸ hc⟩

theorem delimited_items {p : Number → List Char → Prop} {items : List Json} {t : List Char}
    (h : SpellsItems p false items t) (s : List Char) : Delimited (t ++ s) := by
  cases items with
  | nil =>
    obtain ⟨blanks, hblanks, rfl⟩ := h
    rw [List.append_assoc]
    exact delimited_cons hblanks (by decide) s
  | cons item rest =>
    obtain ⟨blanks, _, u, more, hblanks, ⟨after, -, rfl⟩, -, -, rfl⟩ := h
    simp only [List.append_assoc, List.cons_append]
    exact delimited_cons hblanks (by decide) _

theorem delimited_entries {p : Number → List Char → Prop} {entries : List (String × Json)}
    {t : List Char} (h : SpellsEntries p false entries t) (s : List Char) : Delimited (t ++ s) := by
  cases entries with
  | nil =>
    obtain ⟨blanks, hblanks, rfl⟩ := h
    rw [List.append_assoc]
    exact delimited_cons hblanks (by decide) s
  | cons entry rest =>
    obtain ⟨blanks, _, name, _, _, u, more, hblanks, ⟨after, -, rfl⟩, -, -, -, -, -, rfl⟩ := h
    simp only [List.append_assoc, List.cons_append]
    exact delimited_cons hblanks (by decide) _

end CssBuild.Json
