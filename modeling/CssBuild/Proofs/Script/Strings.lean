import CssBuild.Proofs.Script.Decoding

/-!
# CssBuild.Proofs.Script.Strings

The strings of JSON text as strings of a module.

1. The hexadecimal digits and the letters of JSON mean the same in a module.
2. What spells some characters in JSON is a literal of a module, and its parts
   denote these characters (`exists_writes`).
-/

namespace CssBuild.Script

open Json (SpellsChars)

theorem digitOf_of_hexValue? {c : Char} {n : Nat} (h : Json.hexValue? c = some n) :
    digitOf c = n ∧ n < 16 := by
  have hrange {first last : Char} (hfirst : first ≤ c) (hlast : c ≤ last)
      (hall : ∀ k < 0x80, first.toNat ≤ k → k ≤ last.toNat → Char.ofNat k ∈ digitChars)
      (hsmall : last.toNat < 0x80) : c ∈ digitChars := by
    rw [char_le_iff] at hfirst hlast
    rw [← Char.ofNat_toNat c]
    exact hall c.toNat (hlast.trans_lt hsmall) hfirst hlast
  have hmem : c ∈ digitChars := by
    unfold Json.hexValue? at h
    split at h
    · next hc => exact hrange hc.1 hc.2 (by decide) (by decide)
    split at h
    · next hc => exact hrange hc.1 hc.2 (by decide) (by decide)
    split at h
    · next hc => exact hrange hc.1 hc.2 (by decide) (by decide)
    · cases h
  have hall : ∀ c ∈ digitChars, digitOf c < 16 := by decide
  have hless := hall c hmem
  obtain rfl := Option.some.inj ((hexValue?_of_digitOf hless).symm.trans h)
  exact ⟨rfl, hless⟩

/-- Four digits of JSON are an escape for their number. -/
theorem escapeAt_code {a b c d : Char} {code : Nat}
    (h : Json.hexFour? [a, b, c, d] = some (code, [])) (s : List Char) :
    EscapeAt s ['\\', 'u', a, b, c, d] (.number code) ∧ code < 0x10000 := by
  obtain ⟨w, x, y, z, ha, hb, hc, hd, rfl⟩ := Json.hexFour?_eq_some h
  obtain ⟨rfl, ha⟩ := digitOf_of_hexValue? ha
  obtain ⟨rfl, hb⟩ := digitOf_of_hexValue? hb
  obtain ⟨rfl, hc⟩ := digitOf_of_hexValue? hc
  obtain ⟨rfl, hd⟩ := digitOf_of_hexValue? hd
  have hnumber : ((digitOf a * 16 + digitOf b) * 16 + digitOf c) * 16 + digitOf d =
      numberOf 16 [a, b, c, d] := by
    have hnil : numberOf 16 [] = 0 := rfl
    simp only [numberOf_cons, List.length_cons, List.length_nil]
    omega
  refine ⟨?_, by omega⟩
  rw [hnumber]
  exact .unit (by simp [ha, hb, hc, hd])

/-- A letter of JSON is an escape for its character. -/
theorem escapeAt_letter {letter c : Char} (h : Json.escapeLetter? letter = some c) (s : List Char) :
    EscapeAt s ['\\', letter] (.number c.toNat) := by
  unfold Json.escapeLetter? at h
  split at h
  any_goals
    obtain rfl := Option.some.inj h
    first
    | exact .letter (by decide)
    | exact .itself (by decide) fun h => absurd h (by decide)
  cases h

/-- What spells some characters in JSON is a literal that denotes them. -/
theorem exists_writes {chars inner : List Char} (h : SpellsChars chars inner) :
    ∃ parts, Writes '"' parts inner ∧ Denotes parts chars := by
  induction chars generalizing inner with
  | nil =>
    obtain rfl := h
    exact ⟨[], .nil, .nil⟩
  | cons c chars ih =>
    obtain ⟨u, more, hu, hmore, rfl⟩ := h
    obtain ⟨parts, hwrites, hdenotes⟩ := ih hmore
    cases hu with
    | plain quote backslash visible =>
      have hne {d : Char} (hd : d.toNat < 0x20) : c ≠ d := by
        rintro rfl
        exact absurd visible (Nat.not_le_of_lt hd)
      have hplain : Raw '"' c more :=
        ⟨quote, backslash, hne (by decide), hne (by decide), hne (by decide)⟩
      exact ⟨.raw c :: parts, .raw hplain hwrites, .raw hdenotes⟩
    | letter stands =>
      exact ⟨_, .escape (escapeAt_letter stands more) hwrites, .number rfl hdenotes⟩
    | code digits low high =>
      obtain ⟨hescape, hbound⟩ := escapeAt_code digits more
      refine ⟨_, .escape hescape hwrites, .number (toNat_ofNat ?_) hdenotes⟩
      rw [Bool.eq_false_iff, Ne, isLow_iff] at low
      rw [Bool.eq_false_iff, Ne, isHigh_iff] at high
      omega
    | pair first second isHigh isLow =>
      have hsecond := Writes.escape (escapeAt_code second more).1 hwrites
      have hboth := Writes.escape (escapeAt_code first _).1 hsecond
      exact ⟨_, hboth, .pair isHigh isLow ((pairChar_eq_iff isHigh isLow).1 rfl) hdenotes⟩

end CssBuild.Script
