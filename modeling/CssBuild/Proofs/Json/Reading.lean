import CssBuild.Json.Reader
import CssBuild.Proofs.Json.Spelling
import CssBuild.Proofs.Results
import Mathlib.Data.List.TakeWhile

/-!
# CssBuild.Proofs.Json.Reading

What the reader of JSON text accepts.

1. A leaf that is read is spelled by the text in front of what is then unread:
   words, strings with their escapes, numbers with their exponents.
2. The same holds of values, items and entries, by induction on the fuel of the
   reader (`value_sound`).
3. So a text that is read spells its tree, with nothing but blanks around it
   (`spellsText_of_readChars`).
-/

namespace CssBuild.Json

/-! ## Blanks and words -/

theorem skipBlanks_spec (s : List Char) : ∃ blanks, IsBlanks blanks ∧ s = blanks ++ skipBlanks s :=
  ⟨s.takeWhile isBlank, fun _ hc => List.mem_takeWhile_imp hc,
    List.takeWhile_append_dropWhile.symm⟩

theorem word_sound {letters s rest : List Char} (h : word letters s = .ok ((), rest)) :
    s = letters ++ rest := by
  induction letters generalizing s with
  | nil => simpa [word] using h
  | cons letter letters ih =>
    cases s with
    | nil => simp [word, failAt] at h
    | cons c s =>
      rw [word] at h
      split at h
      · next hc => rw [hc, ih h, List.cons_append]
      · simp [failOn] at h

/-! ## Strings -/

theorem hexFour?_sound {s rest : List Char} {n : Nat} (h : hexFour? s = some (n, rest)) :
    ∃ a b c d, s = a :: b :: c :: d :: rest ∧ hexFour? [a, b, c, d] = some (n, []) := by
  unfold hexFour? at h
  split at h
  · next a b c d after =>
    simp only [Option.bind_eq_bind, Option.bind_eq_some_iff] at h
    obtain ⟨x, hx, y, hy, z, hz, w, hw, h⟩ := h
    obtain ⟨hn, rfl⟩ := Prod.mk.inj (Option.some.inj h)
    refine ⟨a, b, c, d, rfl, ?_⟩
    simp [hexFour?, hx, hy, hz, hw, hn]
  · cases h

theorem hexFour_sound {s rest : List Char} {n : Nat} (h : hexFour s = .ok (n, rest)) :
    ∃ a b c d, s = a :: b :: c :: d :: rest ∧ hexFour? [a, b, c, d] = some (n, []) := by
  rw [hexFour] at h
  split at h
  · next found hfound =>
    rw [Except.ok.inj h] at hfound
    exact hexFour?_sound hfound
  · split at h <;> cases h

theorem lowHalf_sound {high : Nat} {s rest : List Char} {c : Char}
    (h : lowHalf high s = .ok (c, rest)) :
    ∃ a b c' d low, s = '\\' :: 'u' :: a :: b :: c' :: d :: rest ∧
      hexFour? [a, b, c', d] = some (low, []) ∧ isLow low = true ∧ c = pairChar high low := by
  unfold lowHalf at h
  split at h
  · cases h
  · cases h
  · next s =>
    rw [bind_eq_ok] at h
    obtain ⟨⟨low, after⟩, hfour, h⟩ := h
    obtain ⟨a, b, c', d, rfl, hdigits⟩ := hexFour_sound hfour
    by_cases hlow : isLow low = true
    · simp only [hlow, if_true, Except.ok.injEq, Prod.mk.injEq] at h
      obtain ⟨rfl, rfl⟩ := h
      exact ⟨a, b, c', d, low, rfl, hdigits, hlow, rfl⟩
    · simp [hlow, failAt] at h
  · cases h
  · cases h

theorem unicodeEscape_sound {s rest : List Char} {c : Char}
    (h : unicodeEscape s = .ok (c, rest)) :
    ∃ u, s = u ++ rest ∧ SpellsChar c ('\\' :: 'u' :: u) := by
  rw [unicodeEscape, bind_eq_ok] at h
  obtain ⟨⟨code, after⟩, hfour, h⟩ := h
  obtain ⟨a, b, c', d, rfl, hdigits⟩ := hexFour_sound hfour
  by_cases hlow : isLow code = true
  · simp [hlow, failAt] at h
  simp only [hlow] at h
  by_cases hhigh : isHigh code = true
  · simp only [hhigh, if_true] at h
    obtain ⟨a', b', c'', d', low, hafter, hsecond, hisLow, hc⟩ := lowHalf_sound h
    refine ⟨[a, b, c', d, '\\', 'u', a', b', c'', d'], ?_, ?_⟩
    · rw [hafter]
      simp only [List.cons_append, List.nil_append]
    · rw [hc]
      exact .pair hdigits hsecond hhigh hisLow
  · simp only [hhigh] at h
    obtain ⟨rfl, rfl⟩ := Prod.mk.inj (Except.ok.inj h)
    exact ⟨[a, b, c', d], rfl, .code hdigits (eq_false_of_ne_true hlow)
      (eq_false_of_ne_true hhigh)⟩

theorem escape_sound {s rest : List Char} {c : Char} (h : escape s = .ok (c, rest)) :
    ∃ u, s = u ++ rest ∧ SpellsChar c ('\\' :: u) := by
  unfold escape at h
  split at h
  · cases h
  · next letter s =>
    split at h
    · next hu =>
      obtain ⟨u, rfl, hspells⟩ := unicodeEscape_sound h
      exact ⟨'u' :: u, by rw [hu, List.cons_append], hspells⟩
    · split at h
      · next stands =>
        obtain ⟨rfl, rfl⟩ := Prod.mk.inj (Except.ok.inj h)
        exact ⟨[letter], rfl, .letter stands⟩
      · cases h

theorem stringChars_sound {fuel : Nat} {s rest chars : List Char}
    (h : stringChars fuel s = .ok (chars, rest)) :
    ∃ inner, SpellsChars chars inner ∧ s = inner ++ '"' :: rest := by
  induction fuel generalizing s chars with
  | zero => cases h
  | succ fuel ih =>
    unfold stringChars at h
    split at h
    · cases h
    · cases h
    · next c s heq =>
      cases heq
      split at h
      · next hc =>
        obtain ⟨rfl, rfl⟩ := Prod.mk.inj (Except.ok.inj h)
        exact ⟨[], rfl, by rw [hc, List.nil_append]⟩
      split at h
      · next hc =>
        rw [bind_eq_ok] at h
        obtain ⟨⟨found, after⟩, hescape, h⟩ := h
        rw [bind_eq_ok] at h
        obtain ⟨⟨more, last⟩, hmore, h⟩ := h
        obtain ⟨rfl, rfl⟩ := Prod.mk.inj (Except.ok.inj h)
        obtain ⟨u, rfl, hspells⟩ := escape_sound hescape
        obtain ⟨inner, hinner, rfl⟩ := ih hmore
        exact ⟨'\\' :: u ++ inner, ⟨_, _, hspells, hinner, rfl⟩, by simp [hc]⟩
      split at h
      · cases h
      · next hquote hbackslash hvisible =>
        rw [bind_eq_ok] at h
        obtain ⟨⟨more, last⟩, hmore, h⟩ := h
        obtain ⟨rfl, rfl⟩ := Prod.mk.inj (Except.ok.inj h)
        obtain ⟨inner, hinner, rfl⟩ := ih hmore
        exact ⟨c :: inner,
          ⟨[c], inner, .plain hquote hbackslash (Nat.le_of_not_lt hvisible), hinner, rfl⟩, rfl⟩

theorem stringBody_sound {s rest : List Char} {found : String}
    (h : stringBody s = .ok (found, rest)) : ∃ t, SpellsString found t ∧ '"' :: s = t ++ rest := by
  rw [stringBody, bind_eq_ok] at h
  obtain ⟨⟨chars, after⟩, hchars, h⟩ := h
  obtain ⟨rfl, rfl⟩ := Prod.mk.inj (Except.ok.inj h)
  obtain ⟨inner, hinner, rfl⟩ := stringChars_sound hchars
  exact ⟨'"' :: (inner ++ ['"']), ⟨inner, by rwa [String.toList_ofList], rfl⟩, by simp⟩

/-! ## Numbers -/

theorem isDigits_span {c : Char} {s : List Char} (h : isDigit c = true) :
    IsDigits (c :: s.takeWhile isDigit) := by
  refine ⟨List.cons_ne_nil _ _, fun d hd => ?_⟩
  obtain rfl | hd := List.mem_cons.1 hd
  · exact h
  · exact List.mem_takeWhile_imp hd

theorem wholeDigits_sound {s rest whole : List Char} (h : wholeDigits s = .ok (whole, rest)) :
    IsDigits whole ∧ (whole.head? = some '0' → whole = ['0']) ∧ s = whole ++ rest := by
  have hzero : IsDigits ['0'] := ⟨List.cons_ne_nil _ _, by decide⟩
  unfold wholeDigits at h
  split at h
  · cases h
  · next c s =>
    split at h
    · next hc =>
      subst hc
      split at h
      · split at h
        · cases h
        · obtain ⟨rfl, rfl⟩ := Prod.mk.inj (Except.ok.inj h)
          exact ⟨hzero, fun _ => rfl, rfl⟩
      · obtain ⟨rfl, rfl⟩ := Prod.mk.inj (Except.ok.inj h)
        exact ⟨hzero, fun _ => rfl, rfl⟩
    split at h
    · next hc hdigit =>
      obtain ⟨rfl, rfl⟩ := Prod.mk.inj (Except.ok.inj h)
      refine ⟨isDigits_span hdigit, fun hhead => ?_, ?_⟩
      · exact absurd (Option.some.inj hhead) hc
      · rw [List.cons_append, List.takeWhile_append_dropWhile]
    · cases h

theorem fractionDigits_sound {s rest : List Char} {fraction : Option (List Char)}
    (h : fractionDigits s = .ok (fraction, rest)) :
    (∀ digits, fraction = some digits → IsDigits digits) ∧
      s = WrittenNumeral.fractionChars fraction ++ rest := by
  unfold fractionDigits at h
  split at h
  · split at h
    · cases h
    · next c s =>
      split at h
      · next hdigit =>
        obtain ⟨rfl, rfl⟩ := Prod.mk.inj (Except.ok.inj h)
        refine ⟨fun digits hdigits => ?_, ?_⟩
        · rw [← Option.some.inj hdigits, List.takeWhile_cons_of_pos hdigit]
          exact isDigits_span hdigit
        · rw [WrittenNumeral.fractionChars, List.cons_append, List.takeWhile_append_dropWhile]
      · cases h
  · obtain ⟨rfl, rfl⟩ := Prod.mk.inj (Except.ok.inj h)
    exact ⟨by simp, rfl⟩

theorem exponentDigits_sound {zero negative : Bool} {s rest : List Char} {value : Int}
    (h : exponentDigits zero negative s = .ok (value, rest)) :
    ∃ digits, IsDigits digits ∧ s = digits ++ rest ∧
      value = if negative then -(digitsValue digits : Int) else digitsValue digits := by
  unfold exponentDigits at h
  split at h
  · cases h
  · next c s =>
    split at h
    · next hdigit =>
      split at h
      · cases h
      · obtain ⟨rfl, rfl⟩ := Prod.mk.inj (Except.ok.inj h)
        refine ⟨_, isDigits_span hdigit, ?_, rfl⟩
        rw [List.cons_append, List.takeWhile_append_dropWhile]
    · cases h

theorem exponentPart_sound {zero : Bool} {s rest : List Char} {value : Option Int}
    (h : exponentPart zero s = .ok (value, rest)) :
    ∃ e : Option WrittenExponent, e.map WrittenExponent.value = value ∧
      s = WrittenNumeral.exponentChars e ++ rest := by
  unfold exponentPart at h
  split at h
  · obtain ⟨rfl, rfl⟩ := Prod.mk.inj (Except.ok.inj h)
    exact ⟨none, rfl, rfl⟩
  · next mark s =>
    split at h
    · next isMark =>
      simp only [bind_eq_ok] at h
      obtain ⟨⟨found, after⟩, hdigits, h⟩ := h
      obtain ⟨rfl, rfl⟩ := Prod.mk.inj (Except.ok.inj h)
      obtain ⟨digits, isDigits, hs, hvalue⟩ := exponentDigits_sound hdigits
      split at hs
      · exact ⟨some ⟨mark, ['-'], digits, isMark, by simp, isDigits⟩,
          by simpa [WrittenExponent.value] using hvalue.symm,
          by simpa [WrittenNumeral.exponentChars, WrittenExponent.chars] using hs⟩
      · exact ⟨some ⟨mark, ['+'], digits, isMark, by simp, isDigits⟩,
          by simpa [WrittenExponent.value] using hvalue.symm,
          by simpa [WrittenNumeral.exponentChars, WrittenExponent.chars] using hs⟩
      · exact ⟨some ⟨mark, [], digits, isMark, by simp, isDigits⟩,
          by simpa [WrittenExponent.value] using hvalue.symm,
          by simpa [WrittenNumeral.exponentChars, WrittenExponent.chars] using hs⟩
    · obtain ⟨rfl, rfl⟩ := Prod.mk.inj (Except.ok.inj h)
      exact ⟨none, rfl, rfl⟩

theorem numeral_sound {s rest : List Char} {found : Numeral}
    (h : numeral s = .ok (found, rest)) :
    ∃ n : WrittenNumeral, n.numeral = found ∧ s = n.chars ++ rest := by
  simp only [numeral, bind_eq_ok] at h
  obtain ⟨⟨whole, _⟩, hwhole, ⟨fraction, _⟩, hfraction, ⟨exponent, _⟩, hexponent, h⟩ := h
  obtain ⟨rfl, rfl⟩ := Prod.mk.inj (Except.ok.inj h)
  obtain ⟨isWhole, leads, rfl⟩ := wholeDigits_sound hwhole
  obtain ⟨isFraction, rfl⟩ := fractionDigits_sound hfraction
  obtain ⟨e, rfl, rfl⟩ := exponentPart_sound hexponent
  refine ⟨⟨whole, fraction, e, isWhole, leads, isFraction⟩, rfl, ?_⟩
  simp only [WrittenNumeral.chars, List.append_assoc]

section Rounding

variable {rounding : Rounding}

theorem unsignedNumber_sound {negative : Bool} {s rest : List Char} {found : Number}
    (h : unsignedNumber rounding negative s = .ok (found, rest)) :
    ∃ n : WrittenNumeral,
      n.numeral.toNumber? rounding negative = some found ∧ s = n.chars ++ rest := by
  simp only [unsignedNumber, bind_eq_ok] at h
  obtain ⟨⟨numeral, after⟩, hnumeral, h⟩ := h
  obtain ⟨n, rfl, rfl⟩ := numeral_sound hnumeral
  split at h
  · next hnumber =>
    obtain ⟨rfl, rfl⟩ := Prod.mk.inj (Except.ok.inj h)
    exact ⟨n, hnumber, rfl⟩
  · cases h

/-! ## Trees -/

theorem scalar_sound {s rest : List Char} {found : Json}
    (h : scalar rounding s = .ok (found, rest)) :
    ∃ u, Spells (SpellsNumber rounding) found u ∧ s = u ++ rest := by
  unfold scalar at h
  split at h
  · cases h
  · next c s =>
    split at h
    · next hc =>
      obtain ⟨⟨⟨⟩, after⟩, hword, h⟩ := map_eq_ok.1 h
      obtain ⟨rfl, rfl⟩ := Prod.mk.inj h
      exact ⟨['n', 'u', 'l', 'l'], rfl, by rw [hc, word_sound hword]; rfl⟩
    split at h
    · next hc =>
      obtain ⟨⟨⟨⟩, after⟩, hword, h⟩ := map_eq_ok.1 h
      obtain ⟨rfl, rfl⟩ := Prod.mk.inj h
      exact ⟨boolChars true, rfl, by rw [hc, word_sound hword]; rfl⟩
    split at h
    · next hc =>
      obtain ⟨⟨⟨⟩, after⟩, hword, h⟩ := map_eq_ok.1 h
      obtain ⟨rfl, rfl⟩ := Prod.mk.inj h
      exact ⟨boolChars false, rfl, by rw [hc, word_sound hword]; rfl⟩
    split at h
    · next hc =>
      obtain ⟨⟨n, after⟩, hnumber, h⟩ := map_eq_ok.1 h
      obtain ⟨rfl, rfl⟩ := Prod.mk.inj h
      obtain ⟨w, hw, rfl⟩ := unsignedNumber_sound hnumber
      exact ⟨'-' :: w.chars, ⟨true, w, hw, rfl⟩, by rw [hc]; rfl⟩
    split at h
    · obtain ⟨⟨n, after⟩, hnumber, h⟩ := map_eq_ok.1 h
      obtain ⟨rfl, rfl⟩ := Prod.mk.inj h
      obtain ⟨w, hw, hs⟩ := unsignedNumber_sound hnumber
      exact ⟨w.chars, ⟨false, w, hw, rfl⟩, hs⟩
    split at h
    · next hc =>
      obtain ⟨⟨text, after⟩, hbody, h⟩ := map_eq_ok.1 h
      obtain ⟨rfl, rfl⟩ := Prod.mk.inj h
      obtain ⟨t, ht, hs⟩ := stringBody_sound hbody
      exact ⟨t, ht, by rw [hc, hs]⟩
    · cases h

theorem nextItem_sound {first : Bool} {s start : List Char} (h : nextItem first s = .ok start) :
    ∃ comma, SpellsComma first comma ∧ s = comma ++ start := by
  unfold nextItem at h
  split at h
  · next hfirst =>
    obtain rfl := Except.ok.inj h
    exact ⟨[], by simp [SpellsComma, hfirst], rfl⟩
  · next hfirst =>
    split at h
    · next rest =>
      obtain ⟨blanks, hblanks, hrest⟩ := skipBlanks_spec rest
      split at h
      · cases h
      · cases h
      · obtain rfl := Except.ok.inj h
        refine ⟨',' :: blanks, ?_, by rw [List.cons_append, ← hrest]⟩
        simp only [SpellsComma, hfirst]
        exact ⟨blanks, hblanks, rfl⟩
    · cases h

/-- More blanks after what stands before an item belong to the blanks around it. -/
theorem spellsComma_blanks {first : Bool} {before comma after : List Char}
    (hbefore : IsBlanks before) (hcomma : SpellsComma first comma) (hafter : IsBlanks after) :
    ∃ before' comma', IsBlanks before' ∧ SpellsComma first comma' ∧
      before ++ comma ++ after = before' ++ comma' := by
  unfold SpellsComma at hcomma
  split at hcomma
  · next hfirst =>
    subst hcomma
    exact ⟨before ++ after, [], hbefore.append hafter, by simp [SpellsComma, hfirst], by simp⟩
  · next hfirst =>
    obtain ⟨blanks, hblanks, rfl⟩ := hcomma
    refine ⟨before, ',' :: (blanks ++ after), hbefore, ?_, by simp⟩
    simp only [SpellsComma, hfirst]
    exact ⟨_, hblanks.append hafter, rfl⟩

theorem nextKey_sound {first : Bool} {s start : List Char} (h : nextKey first s = .ok start) :
    ∃ comma, SpellsComma first comma ∧ s = comma ++ '"' :: start := by
  unfold nextKey at h
  split at h
  · next hfirst =>
    split at h
    · obtain rfl := Except.ok.inj h
      exact ⟨[], by simp [SpellsComma, hfirst], rfl⟩
    · cases h
  · next hfirst =>
    split at h
    · next rest =>
      obtain ⟨blanks, hblanks, hrest⟩ := skipBlanks_spec rest
      split at h
      · cases h
      · next hstart =>
        obtain rfl := Except.ok.inj h
        refine ⟨',' :: blanks, ?_, by rw [List.cons_append, ← hstart, ← hrest]⟩
        simp only [SpellsComma, hfirst]
        exact ⟨blanks, hblanks, rfl⟩
      · cases h
      · cases h
    · cases h

theorem colon_sound {s rest : List Char} (h : colon s = .ok rest) :
    ∃ blanks, IsBlanks blanks ∧ s = blanks ++ ':' :: rest := by
  obtain ⟨blanks, hblanks, hs⟩ := skipBlanks_spec s
  unfold colon at h
  split at h
  · next hcolon =>
    obtain rfl := Except.ok.inj h
    exact ⟨blanks, hblanks, by rw [← hcolon, ← hs]⟩
  · cases h
  · cases h

mutual

theorem value_sound : (fuel room : Nat) → (s rest : List Char) → (found : Json) →
    value rounding fuel room s = .ok (found, rest) →
    ∃ blanks u, IsBlanks blanks ∧ Spells (SpellsNumber rounding) found u ∧
      s = blanks ++ u ++ rest
  | 0, _, _, _, _, h => by cases h
  | fuel + 1, room, s, rest, found, h => by
    obtain ⟨blanks, hblanks, hs⟩ := skipBlanks_spec s
    rw [value] at h
    split at h
    · next inner hstart =>
      split at h
      · cases h
      · next room =>
        rw [bind_eq_ok] at h
        obtain ⟨⟨found, after⟩, hitems, h⟩ := h
        obtain ⟨rfl, rfl⟩ := Prod.mk.inj (Except.ok.inj h)
        obtain ⟨t, ht, rfl⟩ := items_sound fuel room true inner _ _ hitems
        exact ⟨blanks, '[' :: t, hblanks, ⟨t, ht, rfl⟩, by
          rw [List.append_assoc, List.cons_append, ← hstart, ← hs]⟩
    · next inner hstart =>
      split at h
      · cases h
      · next room =>
        rw [bind_eq_ok] at h
        obtain ⟨⟨found, after⟩, hentries, h⟩ := h
        obtain ⟨rfl, rfl⟩ := Prod.mk.inj (Except.ok.inj h)
        obtain ⟨t, ht, rfl⟩ := entries_sound fuel room true inner _ _ hentries
        exact ⟨blanks, '{' :: t, hblanks, ⟨t, ht, rfl⟩, by
          rw [List.append_assoc, List.cons_append, ← hstart, ← hs]⟩
    · obtain ⟨u, hu, hstart⟩ := scalar_sound h
      exact ⟨blanks, u, hblanks, hu, by rw [List.append_assoc, ← hstart, ← hs]⟩

theorem items_sound : (fuel room : Nat) → (first : Bool) → (s rest : List Char) →
    (found : List Json) → items rounding fuel room first s = .ok (found, rest) →
    ∃ t, SpellsItems (SpellsNumber rounding) first found t ∧ s = t ++ rest
  | 0, _, _, _, _, _, h => by cases h
  | fuel + 1, room, first, s, rest, found, h => by
    obtain ⟨blanks, hblanks, hs⟩ := skipBlanks_spec s
    rw [items] at h
    split at h
    · cases h
    · next after hclose =>
      obtain ⟨rfl, rfl⟩ := Prod.mk.inj (Except.ok.inj h)
      exact ⟨blanks ++ [']'], ⟨blanks, hblanks, rfl⟩, by
        rw [List.append_assoc, List.singleton_append, ← hclose, ← hs]⟩
    · simp only [bind_eq_ok] at h
      obtain ⟨start, hnext, ⟨item, _⟩, hvalue, ⟨more, _⟩, hmore, h⟩ := h
      obtain ⟨rfl, rfl⟩ := Prod.mk.inj (Except.ok.inj h)
      obtain ⟨comma, hcomma, hother⟩ := nextItem_sound hnext
      obtain ⟨inner, u, hinner, hu, rfl⟩ := value_sound fuel room _ _ _ hvalue
      obtain ⟨t, ht, rfl⟩ := items_sound fuel room false _ _ _ hmore
      obtain ⟨before, comma, hbefore, hcomma, hsame⟩ := spellsComma_blanks hblanks hcomma hinner
      refine ⟨before ++ comma ++ u ++ t, ⟨_, _, _, _, hbefore, hcomma, hu, ht, rfl⟩, ?_⟩
      rw [← hsame, hs, hother]
      simp only [List.append_assoc]

theorem entries_sound : (fuel room : Nat) → (first : Bool) → (s rest : List Char) →
    (found : List (String × Json)) → entries rounding fuel room first s = .ok (found, rest) →
    ∃ t, SpellsEntries (SpellsNumber rounding) first found t ∧ s = t ++ rest
  | 0, _, _, _, _, _, h => by cases h
  | fuel + 1, room, first, s, rest, found, h => by
    obtain ⟨blanks, hblanks, hs⟩ := skipBlanks_spec s
    rw [entries] at h
    split at h
    · cases h
    · next after hclose =>
      obtain ⟨rfl, rfl⟩ := Prod.mk.inj (Except.ok.inj h)
      exact ⟨blanks ++ ['}'], ⟨blanks, hblanks, rfl⟩, by
        rw [List.append_assoc, List.singleton_append, ← hclose, ← hs]⟩
    · simp only [bind_eq_ok] at h
      obtain ⟨start, hnext, ⟨key, _⟩, hkey, _, hcolon, ⟨item, _⟩, hvalue, ⟨more, _⟩, hmore, h⟩ := h
      obtain ⟨rfl, rfl⟩ := Prod.mk.inj (Except.ok.inj h)
      obtain ⟨comma, hcomma, hother⟩ := nextKey_sound hnext
      obtain ⟨name, hname, hquote⟩ := stringBody_sound hkey
      obtain ⟨before, hbefore, rfl⟩ := colon_sound hcolon
      obtain ⟨inner, u, hinner, hu, rfl⟩ := value_sound fuel room _ _ _ hvalue
      obtain ⟨t, ht, rfl⟩ := entries_sound fuel room false _ _ _ hmore
      refine ⟨_, ⟨blanks, comma, name, before, inner, u, t, hblanks, hcomma, hname, hbefore, hinner,
        hu, ht, rfl⟩, ?_⟩
      rw [hs, hother, hquote]
      simp only [List.append_assoc, List.cons_append]

end

/-- A text that is read spells the tree that is found, however many levels the reader allows. -/
theorem spellsText_of_readCharsWithin {limit : Nat} {text : List Char} {tree : Json}
    (h : readCharsWithin rounding limit text = .ok tree) :
    SpellsText (SpellsNumber rounding) tree text := by
  simp only [readCharsWithin, bind_eq_ok] at h
  obtain ⟨⟨found, rest⟩, hvalue, _, hfinish, h⟩ := h
  obtain rfl := Except.ok.inj h
  obtain ⟨before, body, hbefore, hbody, rfl⟩ := value_sound _ _ _ _ _ hvalue
  refine ⟨before, body, rest, hbefore, hbody, ?_, rfl⟩
  obtain ⟨blanks, hblanks, hrest⟩ := skipBlanks_spec rest
  unfold finish at hfinish
  split at hfinish
  · next hend =>
    rw [hend, List.append_nil] at hrest
    exact hrest ▸ hblanks
  · cases hfinish

end Rounding

/-- A text that is read spells the tree that is found. -/
theorem spellsText_of_readChars {text : List Char} {tree : Json}
    (h : readChars text = .ok tree) : SpellsText (SpellsNumber .stepwise) tree text :=
  spellsText_of_readCharsWithin h

end CssBuild.Json
