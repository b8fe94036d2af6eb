import CssBuild.Json.Writer
import CssBuild.Proofs.Decimal.Printing
import Mathlib.Tactic.SplitIfs

/-!
# CssBuild.Proofs.Json.Writing

The indented text of a tree spells the tree.

1. Every escape of the writer is one that spells its character.
2. A number is written as a numeral that stands for it: an integer in any case,
   a double where it is rounded to the nearest one. No integer is written as a
   negative zero, and no exponent is large.
3. The rest follows the tree (`spells_prettyChars`).
-/

namespace CssBuild.Json

/-- The text that is written for a number. -/
def WritesNumber (n : Number) (t : List Char) : Prop := numberText n = t

/-- Any spelling of a number but that of an integer that is a negative zero. -/
def notNegativeZero (t : List Char) : Prop := t ≠ ['-', '0']

/-- The texts that spell a number, its double the nearest one, and no integer as a negative
zero. -/
def SpellsNearest (found : Number) (t : List Char) : Prop :=
  SpellsNumber .nearest found t ∧ notNegativeZero t

/-! ## Strings -/

theorem hexFour?_control : ∀ n < 0x20,
    hexFour? ['0', '0', hexDigit (n / 16), hexDigit (n % 16)] = some (n, []) ∧
      isLow n = false ∧ isHigh n = false := by decide

theorem spellsChar_escaped (c : Char) : SpellsChar c (escaped c) := by
  unfold escaped
  split_ifs with hquote hbackslash hnewline htab hreturn hbackspace hfeed hcontrol
  · exact .letter (by rw [hquote]; rfl)
  · exact .letter (by rw [hbackslash]; rfl)
  · exact .letter (by rw [hnewline]; rfl)
  · exact .letter (by rw [htab]; rfl)
  · exact .letter (by rw [hreturn]; rfl)
  · exact .letter (by rw [hbackspace]; rfl)
  · exact .letter (by rw [hfeed]; rfl)
  · obtain ⟨hdigits, hlow, hhigh⟩ := hexFour?_control c.toNat hcontrol
    have hspells := SpellsChar.code hdigits hlow hhigh
    rwa [Char.ofNat_toNat] at hspells
  · exact .plain hquote hbackslash (Nat.le_of_not_lt hcontrol)

theorem spellsChars_escaped (chars : List Char) : SpellsChars chars (chars.flatMap escaped) := by
  induction chars with
  | nil => rfl
  | cons c rest ih => exact ⟨_, _, spellsChar_escaped c, ih, List.flatMap_cons⟩

theorem spellsString_quoted (s : String) : SpellsString s (quoted s) :=
  ⟨_, spellsChars_escaped s.toList, rfl⟩

/-! ## Numbers -/

/-- The digits of a number as a numeral. -/
def writtenDigits (n : Nat) : WrittenNumeral :=
  ⟨Layout.digits n, none, none, Layout.isDigits_digits n, Layout.leads_digits n, by simp⟩

theorem chars_writtenDigits (n : Nat) : (writtenDigits n).chars = Layout.digits n := by
  simp [writtenDigits, WrittenNumeral.chars, WrittenNumeral.fractionChars,
    WrittenNumeral.exponentChars]

theorem toNumber?_writtenDigits {negative : Bool} {n : Nat} (h : negative = true → n ≠ 0)
    {value : Int} (hvalue : (if negative then -(n : Int) else n) = value)
    (bounded : -0x8000000000000000 ≤ value ∧ value < 0x10000000000000000)
    (rounding : Rounding) :
    (writtenDigits n).numeral.toNumber? rounding negative = some (.integer value bounded) := by
  have hplain : ¬(negative = true ∧ n = 0) := fun hboth => h hboth.1 hboth.2
  have hint : Number.ofInt? value = some (.integer value bounded) := dif_pos bounded
  simp only [Numeral.toNumber?, writtenDigits, WrittenNumeral.numeral, Option.map_none,
    Option.isNone_none, true_and, Layout.digitsValue_digits, hplain, not_false_eq_true, if_true,
    hvalue, hint]

theorem integerText_eq (value : Int) :
    integerText value = signed (value < 0) (writtenDigits value.natAbs).chars := by
  rw [integerText, chars_writtenDigits, signed]
  split <;> simp_all

theorem spellsNumber_integerText (value : Int)
    (bounded : -0x8000000000000000 ≤ value ∧ value < 0x10000000000000000)
    (rounding : Rounding) : SpellsNumber rounding (.integer value bounded) (integerText value) := by
  refine ⟨value < 0, writtenDigits value.natAbs, ?_, integerText_eq value⟩
  apply toNumber?_writtenDigits
  · simp only [decide_eq_true_eq]
    omega
  · simp only [decide_eq_true_eq]
    split <;> omega

theorem smallExponent_integerText (value : Int) : smallExponent (integerText value) := by
  rw [integerText_eq, smallExponent_signed]
  intro e he
  cases he

theorem notNegativeZero_integerText (value : Int) : notNegativeZero (integerText value) := by
  unfold integerText notNegativeZero
  split
  · next hsign =>
    intro h
    have hzero : digitsValue (Layout.digits value.natAbs) = 0 := by
      rw [(List.cons.inj h).2]
      rfl
    rw [Layout.digitsValue_digits] at hzero
    omega
  · intro h
    have hdigit := (Layout.isDigits_digits value.natAbs).2 '-' (h ▸ List.mem_cons_self)
    cases hdigit

theorem chars_ne_zero {n : WrittenNumeral} (h : n.fraction = none → n.exponent ≠ none) :
    n.chars ≠ ['0'] := by
  intro hzero
  have hlength := congrArg List.length hzero
  have hwhole := List.length_pos_iff.2 n.isWhole.1
  simp only [WrittenNumeral.chars, List.length_append, List.length_singleton] at hlength
  cases hfraction : n.fraction with
  | some digits =>
    simp only [hfraction, WrittenNumeral.fractionChars, List.length_cons] at hlength
    omega
  | none =>
    obtain ⟨e, hexponent⟩ := Option.ne_none_iff_exists'.1 (h hfraction)
    simp only [hexponent, WrittenNumeral.exponentChars, WrittenExponent.chars,
      List.length_cons] at hlength
    omega

/-- What is known of the numeral of a double. -/
theorem written_double (layout : Layout) (d : Double) :
    ∃ n : WrittenNumeral, layout.text d = signed d.negative n.chars ∧
      (n.fraction = none → n.exponent ≠ none) ∧
      (∀ e, n.exponent = some e → e.value.natAbs ≤ 400) ∧
      n.numeral.toDouble? d.negative = some d := by
  obtain ⟨n, hchars, hkind, hsmall, hvalue⟩ := Layout.magnitudeText_written layout d.index
  refine ⟨n, by rw [hchars]; rfl, hkind, hsmall d.finite, ?_⟩
  rw [hvalue]
  exact dif_pos d.finite

theorem spellsNumber_double (layout : Layout) (d : Double) :
    SpellsNumber .nearest (.double d) (layout.text d) := by
  obtain ⟨n, htext, hkind, -, hvalue⟩ := written_double layout d
  have hkind' : n.numeral.fraction = none → n.numeral.exponent ≠ none := by
    intro hfraction hexponent
    exact hkind hfraction (Option.map_eq_none_iff.1 hexponent)
  refine ⟨d.negative, n, ?_, htext⟩
  rw [toNumber?_of_double hkind', Numeral.rounded?, hvalue]
  rfl

theorem notNegativeZero_double (layout : Layout) (d : Double) :
    notNegativeZero (layout.text d) := by
  obtain ⟨n, htext, hkind, -, -⟩ := written_double layout d
  rw [htext]
  intro hzero
  obtain ⟨c, u, hcons, hdigit⟩ := n.chars_eq_cons
  unfold signed at hzero
  split at hzero
  · exact chars_ne_zero hkind (List.cons.inj hzero).2
  · rw [hcons] at hzero
    obtain ⟨rfl, -⟩ := List.cons.inj hzero
    cases hdigit

theorem smallExponent_double (layout : Layout) (d : Double) : smallExponent (layout.text d) := by
  obtain ⟨n, htext, -, hsmall, -⟩ := written_double layout d
  rw [htext, smallExponent_signed]
  intro e he
  rw [e.digitsValue_digits]
  exact Nat.le_trans (hsmall e he) (by decide)

theorem spellsNumber_numberText : (n : Number) → SpellsNumber .nearest n (numberText n)
  | .integer value bounded => spellsNumber_integerText value bounded .nearest
  | .double d => spellsNumber_double Layout.document d

theorem notNegativeZero_numberText : (n : Number) → notNegativeZero (numberText n)
  | .integer value _ => notNegativeZero_integerText value
  | .double d => notNegativeZero_double Layout.document d

theorem smallExponent_numberText : (n : Number) → smallExponent (numberText n)
  | .integer value _ => smallExponent_integerText value
  | .double d => smallExponent_double Layout.document d

theorem WritesNumber.isNumeral {n : Number} {t : List Char} (h : WritesNumber n t) :
    IsNumeral t := by
  obtain rfl : numberText n = t := h
  exact (spellsNumber_numberText n).isNumeral

theorem WritesNumber.spellsNearest {n : Number} {t : List Char} (h : WritesNumber n t) :
    SpellsNearest n t := by
  obtain rfl : numberText n = t := h
  exact ⟨spellsNumber_numberText n, notNegativeZero_numberText n⟩

/-! ## Trees -/

theorem isBlanks_lineBreak (depth : Nat) : IsBlanks (lineBreak depth) := by
  intro c hc
  obtain rfl | hc := List.mem_cons.1 hc
  · rfl
  · rw [(List.mem_replicate.1 hc).2]
    rfl

theorem spellsComma_pretty (depth : Nat) (first : Bool) :
    ∃ before comma, IsBlanks before ∧ SpellsComma first comma ∧
      (if first then [] else [',']) ++ lineBreak depth = before ++ comma := by
  cases first with
  | true => exact ⟨lineBreak depth, [], isBlanks_lineBreak depth, rfl, by simp⟩
  | false =>
    exact ⟨[], ',' :: lineBreak depth, isBlanks_nil, ⟨_, isBlanks_lineBreak depth, rfl⟩, rfl⟩

mutual

/-- The indented text of a tree spells the tree, its numbers as they are written. -/
theorem spells_prettyChars : (tree : Json) → (depth : Nat) →
    Spells WritesNumber tree (tree.prettyChars depth)
  | null, _ => rfl
  | bool true, _ => rfl
  | bool false, _ => rfl
  | number _, _ => rfl
  | string s, _ => spellsString_quoted s
  | array [], _ => ⟨[']'], ⟨[], isBlanks_nil, rfl⟩, rfl⟩
  | array (item :: rest), depth =>
    ⟨_, spells_prettyItems (item :: rest) depth true, by
      rw [prettyChars, List.append_assoc]⟩
  | object [], _ => ⟨['}'], ⟨[], isBlanks_nil, rfl⟩, rfl⟩
  | object (entry :: rest), depth =>
    ⟨_, spells_prettyEntries (entry :: rest) depth true, by
      rw [prettyChars, List.append_assoc]⟩

theorem spells_prettyItems : (items : List Json) → (depth : Nat) → (first : Bool) →
    SpellsItems WritesNumber first items
      (prettyItems depth first items ++ (lineBreak depth ++ [']']))
  | [], depth, _ => ⟨lineBreak depth, isBlanks_lineBreak depth, rfl⟩
  | item :: rest, depth, first => by
    obtain ⟨before, comma, hbefore, hcomma, hsame⟩ := spellsComma_pretty (depth + 1) first
    refine ⟨before, comma, _, _, hbefore, hcomma, spells_prettyChars item (depth + 1),
      spells_prettyItems rest depth false, ?_⟩
    rw [prettyItems, hsame]
    simp only [List.append_assoc]

theorem spells_prettyEntries : (entries : List (String × Json)) → (depth : Nat) →
    (first : Bool) → SpellsEntries WritesNumber first entries
      (prettyEntries depth first entries ++ (lineBreak depth ++ ['}']))
  | [], depth, _ => ⟨lineBreak depth, isBlanks_lineBreak depth, rfl⟩
  | (key, value) :: rest, depth, first => by
    obtain ⟨before, comma, hbefore, hcomma, hsame⟩ := spellsComma_pretty (depth + 1) first
    refine ⟨before, comma, _, [], [' '], _, _, hbefore, hcomma, spellsString_quoted key,
      isBlanks_nil, by simp [IsBlanks, isBlank], spells_prettyChars value (depth + 1),
      spells_prettyEntries rest depth false, ?_⟩
    rw [prettyEntries, hsame]
    simp only [List.append_assoc, List.cons_append, List.nil_append, List.append_nil]

end

/-- The indented text of a tree on a line of its own. -/
theorem toList_prettyLine (tree : Json) :
    (tree.pretty ++ "\n").toList = tree.prettyChars 0 ++ ['\n'] := by
  rw [String.toList_append, pretty, String.toList_ofList]
  rfl

/-- The indented text of a tree on a line of its own spells the tree, its numbers as they are
written. -/
theorem spellsText_pretty (tree : Json) :
    SpellsText WritesNumber tree (tree.prettyChars 0 ++ ['\n']) :=
  ⟨[], _, ['\n'], isBlanks_nil, spells_prettyChars tree 0, by simp [IsBlanks, isBlank], rfl⟩

end CssBuild.Json
