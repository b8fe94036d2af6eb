import CssBuild.Json.Reader
import CssBuild.Proofs.Json.Spelling
import CssBuild.Proofs.Results

/-!
# CssBuild.Proofs.Json.Completeness

What spells a tree is read as that tree.

1. A leaf that is spelled is read up to where its text ends. A string ends by
   itself; a number ends where something follows that belongs to no numeral.
2. An exponent past the limit of the reader is refused, so the exponents of the
   text have to be small.
3. The same holds of values, items and entries, by induction on the tree
   (`value_spells`). Each character pays for two units of fuel, and each array
   or object takes one unit of the room for depth.
4. So a text that spells a tree of no more arrays and objects in each other than
   the reader allows is read as it (`readCharsWithin_of_spellsText`).
-/

namespace CssBuild.Json

theorem skipBlanks_append {blanks s : List Char} (hblanks : IsBlanks blanks)
    (hs : Stops isBlank s) : skipBlanks (blanks ++ s) = s := dropWhile_run hblanks hs

/-! ## Strings -/

section Strings

variable {c : Char} {u inner : List Char}

theorem hexFour_of_digits {a b c d : Char} {n : Nat}
    (h : hexFour? [a, b, c, d] = some (n, [])) (s : List Char) :
    hexFour (a :: b :: c :: d :: s) = .ok (n, s) := by
  obtain ⟨w, x, y, z, hw, hx, hy, hz, hn⟩ := hexFour?_eq_some h
  simp [hexFour, hexFour?, hw, hx, hy, hz, hn]

theorem isLow_of_isHigh {n : Nat} (h : isHigh n = true) : isLow n = false := by
  simp only [isHigh, isLow, Bool.and_eq_true, decide_eq_true_eq, Bool.and_eq_false_iff,
    decide_eq_false_iff_not] at h ⊢
  omega

theorem escape_spells (h : SpellsChar c ('\\' :: u)) (s : List Char) :
    escape (u ++ s) = .ok (c, s) := by
  cases h with
  | plain _ backslash _ => exact absurd rfl backslash
  | @letter _ letter stands =>
    have hletter : letter ≠ 'u' := by
      rintro rfl
      cases stands
    rw [List.singleton_append, escape, if_neg hletter, stands]
  | code digits low high =>
    simp only [List.cons_append, List.nil_append]
    rw [escape, if_pos rfl, unicodeEscape, hexFour_of_digits digits, ok_bind]
    simp only [low, high]
    rfl
  | pair first second high low =>
    simp only [List.cons_append, List.nil_append]
    rw [escape, if_pos rfl, unicodeEscape, hexFour_of_digits first, ok_bind]
    simp only [isLow_of_isHigh high, high, if_true]
    rw [if_neg Bool.false_ne_true, lowHalf, hexFour_of_digits second, ok_bind]
    simp only [low, if_true]

/-- A spelled character takes one unit of fuel. -/
theorem stringChars_spellsChar (h : SpellsChar c u) (fuel : Nat) (s : List Char) :
    stringChars (fuel + 1) (u ++ s) =
      (stringChars fuel s).bind fun found => .ok (c :: found.1, found.2) := by
  have hescape {v : List Char} (h : SpellsChar c ('\\' :: v)) :
      stringChars (fuel + 1) ('\\' :: v ++ s) =
        (stringChars fuel s).bind fun found => .ok (c :: found.1, found.2) := by
    rw [List.cons_append, stringChars, if_neg (by decide), if_pos rfl, escape_spells h]
    rfl
  cases h with
  | plain quote backslash visible =>
    rw [List.singleton_append, stringChars, if_neg quote, if_neg backslash,
      if_neg (Nat.not_lt.2 visible)]
    rfl
  | letter stands => exact hescape (.letter stands)
  | code digits low high => exact hescape (.code digits low high)
  | pair first second high low => exact hescape (.pair first second high low)

theorem SpellsChar.length_pos (h : SpellsChar c u) : 0 < u.length := by
  cases h <;> exact Nat.succ_pos _

theorem stringChars_spells {chars : List Char} (h : SpellsChars chars inner) (s : List Char)
    {fuel : Nat} (hfuel : inner.length < fuel) :
    stringChars fuel (inner ++ '"' :: s) = .ok (chars, s) := by
  induction chars generalizing inner fuel with
  | nil =>
    obtain rfl := h
    obtain ⟨fuel, rfl⟩ := Nat.exists_eq_succ_of_ne_zero (Nat.ne_of_gt hfuel)
    rw [List.nil_append, stringChars, if_pos rfl]
  | cons c rest ih =>
    obtain ⟨u, more, hu, hmore, rfl⟩ := h
    obtain ⟨fuel, rfl⟩ := Nat.exists_eq_succ_of_ne_zero (Nat.ne_zero_of_lt hfuel)
    have hpos := hu.length_pos
    rw [List.length_append] at hfuel
    rw [List.append_assoc, stringChars_spellsChar hu, ih hmore (by omega)]
    rfl

theorem stringBody_spells {text : String} (h : SpellsChars text.toList inner) (s : List Char) :
    stringBody (inner ++ '"' :: s) = .ok (text, s) := by
  have hfuel : inner.length < (inner ++ '"' :: s).length + 1 := by
    rw [List.length_append]
    omega
  rw [stringBody, stringChars_spells h s hfuel, ok_bind]
  simp only [String.ofList_toList]

end Strings

/-! ## Numbers -/

section Numbers

variable {s : List Char}

/-- Something that separates or closes, a blank or the end of the text belongs to no numeral. -/
theorem Delimited.stops {p : Char → Bool} (h : Delimited s)
    (hp : ∀ c ∈ [' ', '\n', '\t', '\r', ',', ']', '}', ';'], p c = false) : Stops p s := by
  intro c hc
  obtain hblank | hmark := h.head hc
  · simp only [isBlank, Bool.or_eq_true, beq_iff_eq] at hblank
    rcases hblank with ((rfl | rfl) | rfl) | rfl <;> exact hp _ (by decide)
  · exact hp c (List.mem_append_right [' ', '\n', '\t', '\r'] hmark)

theorem wholeDigits_spells {whole : List Char} (isWhole : IsDigits whole)
    (leads : whole.head? = some '0' → whole = ['0']) (hs : Stops isDigit s) :
    wholeDigits (whole ++ s) = .ok (whole, s) := by
  obtain ⟨c, more, rfl, hdigit, hmore⟩ := isWhole.eq_cons
  by_cases hc : c = '0'
  · rw [leads (congrArg some hc), List.singleton_append]
    cases s with
    | nil => rfl
    | cons d s => simp [wholeDigits, hs d rfl]
  · simp only [List.cons_append, wholeDigits, if_neg hc, if_pos hdigit, takeWhile_run hmore hs,
      dropWhile_run hmore hs]

theorem fractionDigits_spells {fraction : Option (List Char)}
    (isFraction : ∀ digits, fraction = some digits → IsDigits digits) (hs : Stops isDigit s)
    (hpoint : Stops (· == '.') s) :
    fractionDigits (WrittenNumeral.fractionChars fraction ++ s) = .ok (fraction, s) := by
  cases fraction with
  | none =>
    rw [WrittenNumeral.fractionChars, List.nil_append]
    unfold fractionDigits
    split
    · cases hpoint '.' rfl
    · rfl
  | some digits =>
    obtain ⟨c, more, rfl, hdigit, hmore⟩ := (isFraction digits rfl).eq_cons
    have hall : ∀ d ∈ c :: more, isDigit d = true := List.forall_mem_cons.2 ⟨hdigit, hmore⟩
    rw [WrittenNumeral.fractionChars, List.cons_append, List.cons_append, fractionDigits]
    simp only [hdigit, if_true]
    rw [← List.cons_append, takeWhile_run hall hs, dropWhile_run hall hs]

/-- A small number never passes the limit on the way to its last digit. -/
theorem exponentOverflow?_eq_none {digits : List Char} (hdigits : ∀ d ∈ digits, isDigit d = true)
    (hs : Stops isDigit s) {value : Nat}
    (small : Nat.ofDigitChars 10 digits value ≤ exponentLimit) :
    exponentOverflow? value (digits ++ s) = none := by
  induction digits generalizing value with
  | nil =>
    cases s with
    | nil => rfl
    | cons c s => simp [exponentOverflow?, hs c rfl]
  | cons d digits ih =>
    obtain ⟨hd, hdigits⟩ := List.forall_mem_cons.1 hdigits
    rw [Nat.ofDigitChars_cons, Nat.mul_comm] at small
    have hnext := Nat.le_trans (WrittenNumeral.le_ofDigitChars digits _) small
    rw [List.cons_append, exponentOverflow?, if_pos hd]
    simp only [if_neg (Nat.not_lt.2 hnext), ih hdigits small]

theorem exponentDigits_spells {digits : List Char} (isDigits : IsDigits digits)
    (small : digitsValue digits ≤ exponentLimit) (hs : Stops isDigit s) (zero negative : Bool) :
    exponentDigits zero negative (digits ++ s) =
      .ok (if negative then -(digitsValue digits : Int) else digitsValue digits, s) := by
  have hoverflow : (if zero || negative then none else exponentOverflow? 0 (digits ++ s)) = none := by
    rw [exponentOverflow?_eq_none isDigits.2 hs small, ite_self]
  obtain ⟨c, more, rfl, hdigit, hmore⟩ := isDigits.eq_cons
  rw [List.cons_append] at hoverflow ⊢
  rw [exponentDigits, if_pos hdigit, hoverflow]
  simp only [takeWhile_run hmore hs, dropWhile_run hmore hs]

theorem exponentPart_spells {e : Option WrittenExponent}
    (small : ∀ written, e = some written → digitsValue written.digits ≤ exponentLimit)
    (hs : Stops isDigit s) (hmark : Stops marksExponent s) (zero : Bool) :
    exponentPart zero (WrittenNumeral.exponentChars e ++ s) =
      .ok (e.map WrittenExponent.value, s) := by
  cases e with
  | none =>
    cases s with
    | nil => rfl
    | cons c s =>
      have hc := hmark c rfl
      simp only [marksExponent, Bool.or_eq_false_iff, beq_eq_false_iff_ne] at hc
      unfold exponentPart
      simp only [WrittenNumeral.exponentChars, List.nil_append, if_neg (not_or.2 hc)]
      rfl
  | some e =>
    have hdigits := exponentDigits_spells e.isDigits (small e rfl) hs zero
    rw [WrittenNumeral.exponentChars, WrittenExponent.chars, List.cons_append, List.append_assoc,
      Option.map_some, WrittenExponent.value]
    unfold exponentPart
    simp only [if_pos e.isMark]
    rcases e.isSign with hsign | hsign | hsign
    · obtain ⟨c, more, hcons, hdigit, -⟩ := e.isDigits.eq_cons
      rw [hsign, List.nil_append]
      split
      · next heq =>
        rw [hcons] at heq
        obtain ⟨rfl, -⟩ := List.cons.inj heq
        cases hdigit
      · next heq =>
        rw [hcons] at heq
        obtain ⟨rfl, -⟩ := List.cons.inj heq
        cases hdigit
      · rw [hdigits false]
        rfl
    · rw [hsign]
      simp only [List.singleton_append, hdigits false]
      rfl
    · rw [hsign]
      simp only [List.singleton_append, hdigits true]
      rfl

theorem numeral_spells {n : WrittenNumeral}
    (small : ∀ e, n.exponent = some e → digitsValue e.digits ≤ exponentLimit)
    (hs : Delimited s) : numeral (n.chars ++ s) = .ok (n.numeral, s) := by
  have hdigit : Stops isDigit s := hs.stops (by decide)
  have hexponent : Stops isDigit (WrittenNumeral.exponentChars n.exponent ++ s) ∧
      Stops (· == '.') (WrittenNumeral.exponentChars n.exponent ++ s) := by
    cases n.exponent with
    | none => exact ⟨hdigit, hs.stops (by decide)⟩
    | some e =>
      constructor <;> apply stops_cons <;> rcases e.isMark with h | h <;> rw [h] <;> rfl
  have hfraction : Stops isDigit (WrittenNumeral.fractionChars n.fraction ++
      (WrittenNumeral.exponentChars n.exponent ++ s)) := by
    cases n.fraction with
    | none => exact hexponent.1
    | some digits => exact stops_cons rfl
  simp only [WrittenNumeral.chars, List.append_assoc, numeral,
    wholeDigits_spells n.isWhole n.leads hfraction,
    fractionDigits_spells n.isFraction hexponent.1 hexponent.2,
    exponentPart_spells small hdigit (hs.stops (by decide)), ok_bind]
  rfl

theorem unsignedNumber_spells {rounding : Rounding} {negative : Bool} {n : WrittenNumeral}
    {found : Number} (small : ∀ e, n.exponent = some e → digitsValue e.digits ≤ exponentLimit)
    (hfound : n.numeral.toNumber? rounding negative = some found) (hs : Delimited s) :
    unsignedNumber rounding negative (n.chars ++ s) = .ok (found, s) := by
  rw [unsignedNumber, numeral_spells small hs, ok_bind]
  simp only [hfound]

end Numbers

/-! ## Trees -/

section Trees

variable {rounding : Rounding} {p : Number → List Char → Prop} {s t u : List Char}

/-- A numeral starts with a character that is no blank, opens nothing and closes nothing. -/
theorem IsNumeral.head (h : IsNumeral u) :
    ∃ c v, u = c :: v ∧ isBlank c = false ∧ c ∉ ['[', ']', '{'] := by
  obtain ⟨negative, n, rfl⟩ := h
  cases negative with
  | true => exact ⟨'-', n.chars, rfl, by decide⟩
  | false =>
    obtain ⟨c, v, hchars, hdigit⟩ := n.chars_eq_cons
    exact ⟨c, v, hchars, isDigit_cases (p := fun c => isBlank c = false ∧ c ∉ ['[', ']', '{'])
      (by decide) hdigit⟩

/-- A spelled tree starts with a character that is no blank and closes nothing. -/
theorem Spells.head (hp : ∀ {n t}, p n t → IsNumeral t) {tree : Json} (h : Spells p tree u) :
    ∃ c v, u = c :: v ∧ isBlank c = false ∧ c ≠ ']' := by
  cases tree with
  | null => exact ⟨_, _, h, by decide⟩
  | bool b => cases b <;> exact ⟨_, _, h, by decide⟩
  | number n =>
    obtain ⟨c, v, hcons, hc, hmark⟩ := (hp h).head
    exact ⟨c, v, hcons, hc, by simp_all⟩
  | string s =>
    obtain ⟨inner, -, rfl⟩ := h
    exact ⟨_, _, rfl, by decide⟩
  | array items =>
    obtain ⟨inner, -, rfl⟩ := h
    exact ⟨_, _, rfl, by decide⟩
  | object entries =>
    obtain ⟨inner, -, rfl⟩ := h
    exact ⟨_, _, rfl, by decide⟩

theorem Spells.length_pos (hp : ∀ {n t}, p n t → IsNumeral t) {tree : Json}
    (h : Spells p tree u) : 0 < u.length := by
  obtain ⟨c, v, rfl, -⟩ := h.head hp
  exact Nat.succ_pos _

theorem SpellsItems.length_pos (hp : ∀ {n t}, p n t → IsNumeral t) {first : Bool}
    {items : List Json} (h : SpellsItems p first items t) : 0 < t.length := by
  cases items with
  | nil =>
    obtain ⟨blanks, -, rfl⟩ := h
    simp
  | cons item rest =>
    obtain ⟨blanks, comma, u, more, -, -, hu, -, rfl⟩ := h
    have := hu.length_pos hp
    simp only [List.length_append]
    omega

theorem SpellsEntries.length_pos {first : Bool} {entries : List (String × Json)}
    (h : SpellsEntries p first entries t) : 0 < t.length := by
  cases entries with
  | nil =>
    obtain ⟨blanks, -, rfl⟩ := h
    simp
  | cons entry rest =>
    obtain ⟨blanks, comma, name, before, after, u, more, -, -, -, -, -, -, -, rfl⟩ := h
    rw [List.length_append]
    exact Nat.add_pos_right _ (Nat.succ_pos _)

theorem scalar_number {found : Number} (h : SpellsShort rounding found u) (hs : Delimited s) :
    scalar rounding (u ++ s) = .ok (.number found, s) := by
  obtain ⟨⟨negative, n, hfound, rfl⟩, small⟩ := h
  have hread := unsignedNumber_spells (smallExponent_signed.1 small) hfound hs
  cases negative with
  | true => simp [signed, scalar, hread]
  | false =>
    obtain ⟨c, v, hchars, hdigit⟩ := n.chars_eq_cons
    obtain ⟨hn, ht, hf, hsign⟩ : c ≠ 'n' ∧ c ≠ 't' ∧ c ≠ 'f' ∧ c ≠ '-' :=
      isDigit_cases (p := fun c => c ≠ 'n' ∧ c ≠ 't' ∧ c ≠ 'f' ∧ c ≠ '-') (by decide) hdigit
    rw [hchars, List.cons_append] at hread
    have hplain : signed false n.chars ++ s = c :: (v ++ s) := by
      rw [signed, if_neg Bool.false_ne_true, hchars, List.cons_append]
    rw [hplain, scalar, if_neg hn, if_neg ht, if_neg hf, if_neg hsign, if_pos hdigit, hread,
      ok_map]

theorem value_of_scalar {c : Char} {blanks : List Char} (hblanks : IsBlanks blanks)
    (hc : isBlank c = false) (hopen : c ≠ '[' ∧ c ≠ '{') (fuel room : Nat) :
    value rounding (fuel + 1) room (blanks ++ c :: s) = scalar rounding (c :: s) := by
  rw [value, skipBlanks_append hblanks (stops_cons hc)]
  split
  · next heq => exact absurd (List.cons.inj heq).1 hopen.1
  · next heq => exact absurd (List.cons.inj heq).1 hopen.2
  · rfl

/-- Blanks and a comma are read up to the next item. -/
theorem nextItem_spells {first : Bool} {blanks comma : List Char} {c : Char}
    (hblanks : IsBlanks blanks) (hcomma : SpellsComma first comma) (hc : isBlank c = false)
    (hclose : c ≠ ']') :
    ∃ d w, skipBlanks (blanks ++ comma ++ c :: s) = d :: w ∧ d ≠ ']' ∧
      nextItem first (d :: w) = .ok (c :: s) := by
  cases first with
  | true =>
    obtain rfl : comma = [] := hcomma
    rw [List.append_nil]
    exact ⟨c, s, skipBlanks_append hblanks (stops_cons hc), hclose, rfl⟩
  | false =>
    obtain ⟨after, hafter, rfl⟩ : ∃ after, IsBlanks after ∧ comma = ',' :: after := hcomma
    have hskip := skipBlanks_append (s := c :: s) hafter (stops_cons hc)
    refine ⟨',', after ++ c :: s, ?_, by decide, ?_⟩
    · rw [List.append_assoc, List.cons_append]
      exact skipBlanks_append hblanks (stops_cons rfl)
    · simp only [nextItem, hskip]
      rw [if_neg Bool.false_ne_true]
      split
      · next heq => cases heq
      · next heq => exact absurd (List.cons.inj heq).1 hclose
      · rfl

/-- Blanks and a comma are read up to the next key, with its quote. -/
theorem nextKey_spells {first : Bool} {blanks comma : List Char} (hblanks : IsBlanks blanks)
    (hcomma : SpellsComma first comma) :
    ∃ d w, skipBlanks (blanks ++ comma ++ '"' :: s) = d :: w ∧ d ≠ '}' ∧
      nextKey first (d :: w) = .ok s := by
  cases first with
  | true =>
    obtain rfl : comma = [] := hcomma
    rw [List.append_nil]
    exact ⟨'"', s, skipBlanks_append hblanks (stops_cons rfl), by decide, rfl⟩
  | false =>
    obtain ⟨after, hafter, rfl⟩ : ∃ after, IsBlanks after ∧ comma = ',' :: after := hcomma
    have hskip := skipBlanks_append (s := '"' :: s) hafter (stops_cons rfl)
    refine ⟨',', after ++ '"' :: s, ?_, by decide, ?_⟩
    · rw [List.append_assoc, List.cons_append]
      exact skipBlanks_append hblanks (stops_cons rfl)
    · simp only [nextKey, hskip]
      rfl

theorem colon_spells {blanks : List Char} (hblanks : IsBlanks blanks) :
    colon (blanks ++ ':' :: s) = .ok s := by
  simp only [colon, skipBlanks_append hblanks (stops_cons (p := isBlank) (c := ':') (s := s) rfl)]

theorem items_step {fuel room : Nat} {first : Bool} {c : Char} {start after rest : List Char}
    {item : Json} {more : List Json} (hskip : skipBlanks s = c :: u) (hclose : c ≠ ']')
    (hnext : nextItem first (c :: u) = .ok start)
    (hitem : value rounding fuel room start = .ok (item, after))
    (hmore : items rounding fuel room false after = .ok (more, rest)) :
    items rounding (fuel + 1) room first s = .ok (item :: more, rest) := by
  rw [items, hskip]
  split
  · next heq => cases heq
  · next heq => exact absurd (List.cons.inj heq).1 hclose
  · simp only [hnext, hitem, hmore, ok_bind]

theorem entries_step {fuel room : Nat} {first : Bool} {c : Char}
    {start body colonAt after rest : List Char} {key : String} {item : Json}
    {more : List (String × Json)} (hskip : skipBlanks s = c :: u) (hclose : c ≠ '}')
    (hnext : nextKey first (c :: u) = .ok start) (hkey : stringBody start = .ok (key, colonAt))
    (hcolon : colon colonAt = .ok body)
    (hitem : value rounding fuel room body = .ok (item, after))
    (hmore : entries rounding fuel room false after = .ok (more, rest)) :
    entries rounding (fuel + 1) room first s = .ok ((key, item) :: more, rest) := by
  rw [entries, hskip]
  split
  · next heq => cases heq
  · next heq => exact absurd (List.cons.inj heq).1 hclose
  · simp only [hnext, hkey, hcolon, hitem, hmore, ok_bind]

mutual

/-- A spelled tree is read, blanks in front of it, up to the end of its text. -/
theorem value_spells : (tree : Json) → (fuel room : Nat) → (blanks u s : List Char) →
    IsBlanks blanks → Spells (SpellsShort rounding) tree u → Delimited s → tree.depth ≤ room →
    2 * u.length ≤ fuel + 1 → value rounding (fuel + 1) room (blanks ++ u ++ s) = .ok (tree, s)
  | null, fuel, room, blanks, u, s, hblanks, h, _, _, _ => by
    obtain rfl := h
    rw [List.append_assoc]
    exact value_of_scalar hblanks rfl (by decide) fuel room
  | bool b, fuel, room, blanks, u, s, hblanks, h, _, _, _ => by
    obtain rfl := h
    rw [List.append_assoc]
    cases b with
    | true => exact value_of_scalar hblanks rfl (by decide) fuel room
    | false => exact value_of_scalar hblanks rfl (by decide) fuel room
  | number n, fuel, room, blanks, u, s, hblanks, h, hs, _, _ => by
    obtain ⟨c, v, hcons, hc, hmark⟩ := h.isNumeral.head
    have hopen : c ≠ '[' ∧ c ≠ '{' := by simp_all
    have hread := scalar_number h hs
    rw [hcons, List.cons_append] at hread
    rw [List.append_assoc, hcons, List.cons_append, value_of_scalar hblanks hc hopen, hread]
  | string text, fuel, room, blanks, u, s, hblanks, h, _, _, _ => by
    obtain ⟨inner, hinner, rfl⟩ := h
    rw [List.append_assoc, List.cons_append, List.append_assoc, List.singleton_append,
      value_of_scalar hblanks rfl (by decide)]
    simp only [scalar, stringBody_spells hinner]
    rfl
  | array items, fuel, room, blanks, u, s, hblanks, h, _, hroom, hfuel => by
    obtain ⟨inner, hinner, rfl⟩ := h
    obtain ⟨room, rfl⟩ := Nat.exists_eq_succ_of_ne_zero (Nat.ne_zero_of_lt hroom)
    have hitems := items_spell items fuel room true inner s hinner (Nat.le_of_succ_le_succ hroom)
      (by rw [List.length_cons] at hfuel; omega)
    rw [List.append_assoc, List.cons_append, value, skipBlanks_append hblanks (stops_cons rfl)]
    simp only [hitems, ok_bind]
  | object entries, fuel, room, blanks, u, s, hblanks, h, _, hroom, hfuel => by
    obtain ⟨inner, hinner, rfl⟩ := h
    obtain ⟨room, rfl⟩ := Nat.exists_eq_succ_of_ne_zero (Nat.ne_zero_of_lt hroom)
    have hentries := entries_spell entries fuel room true inner s hinner
      (Nat.le_of_succ_le_succ hroom) (by rw [List.length_cons] at hfuel; omega)
    rw [List.append_assoc, List.cons_append, value, skipBlanks_append hblanks (stops_cons rfl)]
    simp only [hentries, ok_bind]

theorem items_spell : (items : List Json) → (fuel room : Nat) → (first : Bool) →
    (t s : List Char) → SpellsItems (SpellsShort rounding) first items t →
    depthItems items ≤ room → 2 * t.length ≤ fuel →
    Json.items rounding fuel room first (t ++ s) = .ok (items, s)
  | [], fuel, room, first, t, s, h, _, hfuel => by
    have hpos := h.length_pos SpellsShort.isNumeral
    obtain ⟨fuel, rfl⟩ : ∃ k, fuel = k + 1 := ⟨fuel - 1, by omega⟩
    obtain ⟨blanks, hblanks, rfl⟩ := h
    rw [List.append_assoc, List.singleton_append, Json.items,
      skipBlanks_append hblanks (stops_cons rfl)]
    rfl
  | item :: rest, fuel, room, first, t, s, h, hroom, hfuel => by
    obtain ⟨blanks, comma, u, more, hblanks, hcomma, hu, hmore, rfl⟩ := h
    obtain ⟨c, v, hcons, hc, hclose⟩ := hu.head SpellsShort.isNumeral
    obtain ⟨d, w, hskip, hd, hnext⟩ :=
      nextItem_spells (s := v ++ (more ++ s)) hblanks hcomma hc hclose
    have hpos := hu.length_pos SpellsShort.isNumeral
    have hmorePos := hmore.length_pos SpellsShort.isNumeral
    simp only [List.length_append] at hfuel
    obtain ⟨fuel, rfl⟩ : ∃ k, fuel = k + 2 := ⟨fuel - 2, by omega⟩
    have hitem := value_spells item fuel room [] u (more ++ s) isBlanks_nil hu
      (delimited_items hmore s) (Nat.le_trans (Nat.le_max_left _ _) hroom) (by omega)
    have hrest := items_spell rest (fuel + 1) room false more s hmore
      (Nat.le_trans (Nat.le_max_right _ _) hroom) (by omega)
    have hstart : c :: (v ++ (more ++ s)) = [] ++ u ++ (more ++ s) := by rw [hcons]; rfl
    rw [hstart] at hskip hnext
    rw [List.nil_append] at hskip
    refine items_step ?_ hd hnext hitem hrest
    rw [← hskip]
    simp only [List.append_assoc]

theorem entries_spell : (entries : List (String × Json)) → (fuel room : Nat) → (first : Bool) →
    (t s : List Char) → SpellsEntries (SpellsShort rounding) first entries t →
    depthEntries entries ≤ room → 2 * t.length ≤ fuel →
    Json.entries rounding fuel room first (t ++ s) = .ok (entries, s)
  | [], fuel, room, first, t, s, h, _, hfuel => by
    have hpos := h.length_pos
    obtain ⟨fuel, rfl⟩ : ∃ k, fuel = k + 1 := ⟨fuel - 1, by omega⟩
    obtain ⟨blanks, hblanks, rfl⟩ := h
    rw [List.append_assoc, List.singleton_append, Json.entries,
      skipBlanks_append hblanks (stops_cons rfl)]
    rfl
  | (key, item) :: rest, fuel, room, first, t, s, h, hroom, hfuel => by
    obtain ⟨blanks, comma, name, before, after, u, more, hblanks, hcomma, ⟨inner, hinner, rfl⟩,
      hbefore, hafter, hu, hmore, rfl⟩ := h
    obtain ⟨d, w, hskip, hd, hnext⟩ := nextKey_spells
      (s := inner ++ '"' :: (before ++ ':' :: (after ++ u ++ (more ++ s)))) hblanks hcomma
    have hpos := hu.length_pos SpellsShort.isNumeral
    have hmorePos := hmore.length_pos
    simp only [List.length_append, List.length_cons] at hfuel
    obtain ⟨fuel, rfl⟩ : ∃ k, fuel = k + 2 := ⟨fuel - 2, by omega⟩
    have hitem := value_spells item fuel room after u (more ++ s) hafter hu
      (delimited_entries hmore s) (Nat.le_trans (Nat.le_max_left _ _) hroom) (by omega)
    have hrest := entries_spell rest (fuel + 1) room false more s hmore
      (Nat.le_trans (Nat.le_max_right _ _) hroom) (by omega)
    refine entries_step ?_ hd hnext (stringBody_spells hinner _) (colon_spells hbefore) hitem hrest
    rw [← hskip]
    simp only [List.append_assoc, List.cons_append, List.nil_append]

end

end Trees

/-- A text that spells a tree is read as the tree, if the reader allows that many levels. -/
theorem readCharsWithin_of_spellsText {rounding : Rounding} {limit : Nat} {tree : Json}
    {text : List Char} (h : SpellsText (SpellsShort rounding) tree text)
    (hdepth : tree.depth ≤ limit) : readCharsWithin rounding limit text = .ok tree := by
  obtain ⟨before, body, after, hbefore, hbody, hafter, rfl⟩ := h
  have hend : Delimited after := ⟨after, [], hafter, by simp, by simp⟩
  have hfuel : 2 * body.length ≤ 2 * (before ++ body ++ after).length + 1 + 1 := by
    simp only [List.length_append]
    omega
  have hread := value_spells tree _ limit before body after hbefore hbody hend hdepth hfuel
  have hfinish : finish after = .ok () := by
    have hskip := skipBlanks_append (s := []) hafter stops_nil
    rw [List.append_nil] at hskip
    simp only [finish, hskip]
  rw [readCharsWithin, fuelFor, hread]
  simp only [ok_bind, hfinish]

end CssBuild.Json
