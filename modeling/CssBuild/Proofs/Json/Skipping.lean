import CssBuild.Proofs.Json.Equality
import CssBuild.Proofs.Json.Steps

/-!
# CssBuild.Proofs.Json.Skipping

Values that are passed over.

1. A pair of surrogates is one escape for the reader and two for what passes
   over it, so strings are compared by their length and not escape by escape.
2. A value that is read is passed over up to the same place: strings and numbers
   first (`skipScalar_of_scalar`), then what is made of them (`Parses.passOver`).
-/

namespace CssBuild.Json

/-! ## Strings -/

theorem hexFour_length {s rest : List Char} {n : Nat} (h : hexFour s = .ok (n, rest)) :
    rest.length < s.length := by
  obtain ⟨a, b, c, d, rfl, -⟩ := hexFour_sound h
  simp only [List.length_cons]
  omega

theorem skipEscape_unicode {s rest : List Char} {n : Nat} (h : hexFour s = .ok (n, rest)) :
    skipEscape ('u' :: s) = .ok rest := by
  rw [skipEscape, if_pos rfl, h]
  rfl

/-- An escape is passed over as one escape, or as two where it is a pair of surrogates. -/
theorem skipEscape_of_escape {s rest : List Char} {c : Char} (h : escape s = .ok (c, rest)) :
    (skipEscape s = .ok rest ∧ rest.length < s.length) ∨
      ∃ mid, skipEscape s = .ok ('\\' :: mid) ∧ skipEscape mid = .ok rest ∧
        mid.length < s.length ∧ rest.length < mid.length := by
  unfold escape at h
  split at h
  · cases h
  · next letter s =>
    split at h
    · next hu =>
      subst hu
      obtain ⟨⟨code, after⟩, hfour, h⟩ := bind_eq_ok.1 h
      have hlength := hexFour_length hfour
      simp only at h
      split at h
      · cases h
      split at h
      · obtain ⟨_, _, _, _, low, rfl, hsecond, -, -⟩ := lowHalf_sound h
        refine .inr ⟨_, skipEscape_unicode hfour, skipEscape_unicode (hexFour_of_digits hsecond rest),
          ?_, ?_⟩
        · simp only [List.length_cons] at hlength ⊢
          omega
        · simp only [List.length_cons]
          omega
      · obtain ⟨-, rfl⟩ := Prod.mk.inj (Except.ok.inj h)
        exact .inl ⟨skipEscape_unicode hfour, Nat.lt_succ_of_lt hlength⟩
    · next hu =>
      split at h
      · next stands =>
        obtain ⟨-, rfl⟩ := Prod.mk.inj (Except.ok.inj h)
        exact .inl ⟨by rw [skipEscape, if_neg hu, stands]; rfl, Nat.lt_succ_self _⟩
      · cases h

theorem skipString_of_stringChars {fuel : Nat} {s rest chars : List Char}
    (h : stringChars fuel s = .ok (chars, rest)) {fuel' : Nat} (hfuel : s.length < fuel') :
    skipString fuel' s = .ok rest := by
  induction fuel generalizing s chars fuel' with
  | zero => cases h
  | succ fuel ih =>
    unfold stringChars at h
    split at h
    · cases h
    · cases h
    · next c s heq =>
      cases heq
      obtain ⟨fuel', rfl⟩ := Nat.exists_eq_succ_of_ne_zero (Nat.ne_zero_of_lt hfuel)
      rw [List.length_cons] at hfuel
      rw [skipString]
      split at h
      · next hc =>
        obtain ⟨-, rfl⟩ := Prod.mk.inj (Except.ok.inj h)
        rw [if_pos hc]
      next hquote =>
      rw [if_neg hquote]
      split at h
      · next hc =>
        obtain ⟨⟨found, after⟩, hescape, h⟩ := bind_eq_ok.1 h
        obtain ⟨⟨more, last⟩, hmore, h⟩ := bind_eq_ok.1 h
        obtain ⟨-, rfl⟩ := Prod.mk.inj (Except.ok.inj h)
        rw [if_pos hc]
        obtain ⟨hskip, hlength⟩ | ⟨mid, hfirst, hsecond, hmid, hafter⟩ := skipEscape_of_escape hescape
        · rw [hskip, ok_bind]
          exact ih hmore (by omega)
        · obtain ⟨fuel', rfl⟩ := Nat.exists_eq_succ_of_ne_zero (show fuel' ≠ 0 by omega)
          rw [hfirst, ok_bind, skipString, if_neg (by decide), if_pos rfl, hsecond, ok_bind]
          exact ih hmore (by omega)
      · next hbackslash =>
        rw [if_neg hbackslash]
        split at h
        · cases h
        · next hvisible =>
          obtain ⟨⟨more, last⟩, hmore, h⟩ := bind_eq_ok.1 h
          obtain ⟨-, rfl⟩ := Prod.mk.inj (Except.ok.inj h)
          rw [if_neg hvisible]
          exact ih hmore (by omega)

theorem skipString_of_stringBody {s rest : List Char} {found : String}
    (h : stringBody s = .ok (found, rest)) : skipString (s.length + 1) s = .ok rest := by
  obtain ⟨⟨chars, after⟩, hchars, h⟩ := bind_eq_ok.1 h
  obtain ⟨-, rfl⟩ := Prod.mk.inj (Except.ok.inj h)
  exact skipString_of_stringChars hchars (Nat.lt_succ_self _)

/-! ## Numbers -/

theorem exponentDigits_rest {zero negative : Bool} {s rest : List Char} {value : Int}
    (h : exponentDigits zero negative s = .ok (value, rest)) :
    ∃ c more, s = c :: more ∧ isDigit c = true ∧ rest = more.dropWhile isDigit := by
  unfold exponentDigits at h
  split at h
  · cases h
  · next c more =>
    split at h
    · next hdigit =>
      split at h
      · cases h
      · obtain ⟨-, rfl⟩ := Prod.mk.inj (Except.ok.inj h)
        exact ⟨c, more, rfl, hdigit, rfl⟩
    · cases h

theorem skipExponent_of_part {zero : Bool} {mark : Char} (hmark : mark = 'e' ∨ mark = 'E')
    {s rest : List Char} {value : Option Int}
    (h : exponentPart zero (mark :: s) = .ok (value, rest)) : skipExponent s = .ok rest := by
  unfold exponentPart at h
  simp only [if_pos hmark, bind_eq_ok] at h
  obtain ⟨⟨found, after⟩, hdigits, h⟩ := h
  obtain ⟨-, rfl⟩ := Prod.mk.inj (Except.ok.inj h)
  obtain ⟨c, more, hunsigned, hdigit, rfl⟩ := exponentDigits_rest hdigits
  split at hunsigned
  · next digits =>
    obtain rfl : digits = c :: more := hunsigned
    simp [skipExponent, hdigit]
  · next digits =>
    obtain rfl : digits = c :: more := hunsigned
    simp [skipExponent, hdigit]
  · obtain rfl : s = c :: more := hunsigned
    have hplus : c ≠ '+' := fun hc => absurd (hc ▸ hdigit) (by decide)
    have hminus : c ≠ '-' := fun hc => absurd (hc ▸ hdigit) (by decide)
    unfold skipExponent
    split
    · next heq => exact absurd (List.cons.inj heq).1 hplus
    · next heq => exact absurd (List.cons.inj heq).1 hminus
    · simp [hdigit]

/-- Where an exponent may stand, the text ends, or the exponent or nothing is passed over. -/
theorem afterDigits_of_part {zero : Bool} {s rest : List Char} {value : Option Int}
    (h : exponentPart zero s = .ok (value, rest)) :
    (s = [] ∧ rest = []) ∨ ∃ e after, s = e :: after ∧
      (if e = 'e' ∨ e = 'E' then skipExponent after else .ok (e :: after)) = .ok rest := by
  cases s with
  | nil =>
    obtain ⟨-, rfl⟩ := Prod.mk.inj (Except.ok.inj h)
    exact .inl ⟨rfl, rfl⟩
  | cons e after =>
    refine .inr ⟨e, after, rfl, ?_⟩
    by_cases he : e = 'e' ∨ e = 'E'
    · rw [if_pos he]
      exact skipExponent_of_part he h
    · unfold exponentPart at h
      simp only [if_neg he] at h ⊢
      obtain ⟨-, rfl⟩ := Prod.mk.inj (Except.ok.inj h)
      rfl

/-- What follows the digits before the point is passed over up to where it ends. -/
theorem skipFraction_of_parts {zero : Bool} {s mid rest : List Char} {fraction : Option (List Char)}
    {value : Option Int} (hfraction : fractionDigits s = .ok (fraction, mid))
    (hexponent : exponentPart zero mid = .ok (value, rest)) : skipFraction s = .ok rest := by
  unfold fractionDigits at hfraction
  split at hfraction
  · next s =>
    split at hfraction
    · cases hfraction
    · next c more =>
      split at hfraction
      · next hdigit =>
        obtain ⟨-, rfl⟩ := Prod.mk.inj (Except.ok.inj hfraction)
        unfold skipFraction
        simp only [if_true, if_pos hdigit]
        obtain ⟨hmid, rfl⟩ | ⟨e, after, hmid, hafter⟩ := afterDigits_of_part hexponent
        · simp only [hmid]
        · simp only [hmid]
          exact hafter
      · cases hfraction
  · next hpoint =>
    obtain ⟨-, rfl⟩ := Prod.mk.inj (Except.ok.inj hfraction)
    obtain ⟨rfl, rfl⟩ | ⟨c, more, rfl, hafter⟩ := afterDigits_of_part hexponent
    · rfl
    · have hc : c ≠ '.' := fun hc => hpoint more (hc ▸ rfl)
      unfold skipFraction
      simp only [if_neg hc]
      exact hafter

theorem skipNumber_of_unsignedNumber {negative : Bool} {s rest : List Char} {found : Number}
    (h : unsignedNumber .stepwise negative s = .ok (found, rest)) : skipNumber s = .ok rest := by
  simp only [unsignedNumber, numeral, bind_eq_ok] at h
  obtain ⟨⟨n, after⟩, ⟨⟨whole, _⟩, hwhole, ⟨fraction, _⟩, hfraction, ⟨value, last⟩, hexponent, hn⟩, h⟩ := h
  obtain ⟨rfl, rfl⟩ := Prod.mk.inj (Except.ok.inj hn)
  obtain rfl : last = rest := by
    split at h
    · exact (Prod.mk.inj (Except.ok.inj h)).2
    · cases h
  have hskip := skipFraction_of_parts hfraction hexponent
  unfold wholeDigits at hwhole
  split at hwhole
  · cases hwhole
  · next c s =>
    unfold skipNumber
    split at hwhole
    · next hc =>
      simp only [if_pos hc]
      split at hwhole
      · split at hwhole
        · cases hwhole
        · next hdigit =>
          obtain ⟨-, rfl⟩ := Prod.mk.inj (Except.ok.inj hwhole)
          simp only [if_neg hdigit]
          exact hskip
      · obtain ⟨-, rfl⟩ := Prod.mk.inj (Except.ok.inj hwhole)
        exact hskip
    · next hc =>
      split at hwhole
      · next hdigit =>
        obtain ⟨-, rfl⟩ := Prod.mk.inj (Except.ok.inj hwhole)
        simp only [if_neg hc, if_pos hdigit]
        exact hskip
      · cases hwhole

theorem skipScalar_of_scalar {s rest : List Char} {found : Json}
    (h : scalar .stepwise s = .ok (found, rest)) : skipScalar s = .ok rest := by
  have hword {letters s : List Char} {tree : Json}
      (h : (word letters s).map (fun found => (tree, found.2)) = .ok (found, rest)) :
      (word letters s).map Prod.snd = .ok rest := by
    obtain ⟨⟨_, after⟩, hword, heq⟩ := map_eq_ok.1 h
    obtain ⟨-, rfl⟩ := Prod.mk.inj heq
    rw [hword, ok_map]
  cases s with
  | nil => cases h
  | cons c s =>
    rw [scalar] at h
    rw [skipScalar]
    split at h
    · next hc => exact (if_pos hc).trans (hword h)
    next hn =>
    rw [if_neg hn]
    split at h
    · next hc => exact (if_pos hc).trans (hword h)
    next ht =>
    rw [if_neg ht]
    split at h
    · next hc => exact (if_pos hc).trans (hword h)
    next hf =>
    rw [if_neg hf]
    split at h
    · next hc =>
      obtain ⟨⟨n, after⟩, hnumber, heq⟩ := map_eq_ok.1 h
      obtain ⟨-, rfl⟩ := Prod.mk.inj heq
      exact (if_pos hc).trans (skipNumber_of_unsignedNumber hnumber)
    next hminus =>
    rw [if_neg hminus]
    split at h
    · next hc =>
      obtain ⟨⟨n, after⟩, hnumber, heq⟩ := map_eq_ok.1 h
      obtain ⟨-, rfl⟩ := Prod.mk.inj heq
      exact (if_pos hc).trans (skipNumber_of_unsignedNumber hnumber)
    next hdigit =>
    rw [if_neg hdigit]
    split at h
    · next hc =>
      obtain ⟨⟨text, after⟩, hbody, heq⟩ := map_eq_ok.1 h
      obtain ⟨-, rfl⟩ := Prod.mk.inj heq
      exact (if_pos hc).trans (skipString_of_stringBody hbody)
    · cases h

/-! ## Trees -/

theorem skipBlanks_skipBlanks (s : List Char) : skipBlanks (skipBlanks s) = skipBlanks s :=
  dropWhile_stop (stops_dropWhile s)

theorem parses_skipBlanks {tree : Json} {room : Nat} {s rest : List Char} :
    Parses tree room (skipBlanks s) rest ↔ Parses tree room s rest := by
  cases tree <;> simp only [Parses, skipBlanks_skipBlanks]

theorem skipBlanks_of_nextItem {s start : List Char} (h : nextItem false s = .ok start) :
    ∃ after, s = ',' :: after ∧ skipBlanks after = start := by
  unfold nextItem at h
  simp only [Bool.false_eq_true, if_false] at h
  split at h
  · next after =>
    split at h
    · cases h
    · cases h
    · exact ⟨after, rfl, Except.ok.inj h⟩
  · cases h

theorem skipBlanks_of_nextKey {first : Bool} {s body : List Char} (h : nextKey first s = .ok body) :
    if first then s = '"' :: body else ∃ after, s = ',' :: after ∧ skipBlanks after = '"' :: body := by
  unfold nextKey at h
  cases first with
  | true =>
    simp only [if_true] at h ⊢
    split at h
    · rw [Except.ok.inj h]
    · cases h
  | false =>
    simp only [Bool.false_eq_true, if_false] at h ⊢
    split at h
    · next after =>
      split at h
      · cases h
      · next hstart => exact ⟨after, rfl, Except.ok.inj h ▸ hstart⟩
      · cases h
      · cases h
    · cases h

theorem skipBlanks_of_colon {s rest : List Char} (h : colon s = .ok rest) :
    skipBlanks s = ':' :: rest := by
  unfold colon at h
  split at h
  · next heq => exact Except.ok.inj h ▸ heq
  · cases h
  · cases h

theorem skipKey_of_stringBody {s body after start : List Char} {key : String}
    (hs : skipBlanks s = '"' :: body) (hbody : stringBody body = .ok (key, after))
    (hcolon : colon after = .ok start) : skipKey s = .ok start ∧ start.length < s.length := by
  constructor
  · rw [skipKey, hs]
    simp only [skipString_of_stringBody hbody, ok_bind, skipBlanks_of_colon hcolon]
  · have hle := length_skipBlanks_le s
    have hname := length_stringBody hbody
    have hvalue := length_colon hcolon
    rw [hs, List.length_cons] at hle
    omega

/-- Whether two units of fuel for each character are enough to pass over a tree where it is read. -/
def Skips (tree : Json) : Prop := ∀ (fuel room : Nat) (s rest : List Char),
  Parses tree room s rest → 2 * s.length ≤ fuel + 2 * rest.length → skipValue fuel s = .ok rest

theorem skips_of_scalar {tree : Json}
    (h : ∀ {room : Nat} {s rest : List Char}, Parses tree room s rest →
      scalar .stepwise (skipBlanks s) = .ok (tree, rest)) : Skips tree := by
  intro fuel room s rest hread hfuel
  have hscalar := h hread
  have hlt := length_scalar hscalar
  obtain ⟨fuel, rfl⟩ := Nat.exists_eq_succ_of_ne_zero (show fuel ≠ 0 by omega)
  rw [skipValue]
  split
  · next heq => rw [heq] at hscalar; cases hscalar
  · next heq => rw [heq] at hscalar; cases hscalar
  · exact skipScalar_of_scalar hscalar

/-- The items of an array from one on are passed over with the bracket behind them. -/
theorem skipItems_of_parses {tree : Json} {more : List Json} (h : ∀ item ∈ tree :: more, Skips item)
    {fuel room : Nat} {s mid rest : List Char} (htree : Parses tree room s mid)
    (hmore : ParsesItems more room false mid rest) (hfuel : 2 * s.length ≤ fuel + 2 * rest.length) :
    skipItems fuel s = .ok rest := by
  induction more generalizing tree fuel s mid with
  | nil =>
    have hlt := Parses.length tree htree
    have hrest := ParsesItems.length [] hmore
    obtain ⟨fuel, rfl⟩ := Nat.exists_eq_succ_of_ne_zero (show fuel ≠ 0 by omega)
    obtain ⟨hnone, rfl⟩ := hmore
    obtain ⟨after, hclose⟩ := skipBlanks_of_nextStart? hnone
    rw [skipItems, h tree List.mem_cons_self fuel room s mid htree (by omega), ok_bind]
    simp only [hclose, List.drop_one, List.tail_cons]
  | cons next others ih =>
    obtain ⟨hfirst, hothers⟩ := List.forall_mem_cons.1 h
    have hlt := Parses.length tree htree
    have hrest := ParsesItems.length (next :: others) hmore
    obtain ⟨fuel, rfl⟩ := Nat.exists_eq_succ_of_ne_zero (show fuel ≠ 0 by omega)
    obtain ⟨start, mid', hnext, hvalue, hmany⟩ := hmore
    obtain ⟨after, hcomma, rfl⟩ := skipBlanks_of_nextItem (nextItem_of_nextStart? hnext).1
    have hmid := length_skipBlanks_le mid
    rw [hcomma, List.length_cons] at hmid
    rw [skipItems, hfirst fuel room s mid htree (by omega), ok_bind]
    simp only [hcomma]
    exact ih hothers (parses_skipBlanks.1 hvalue) hmany (by omega)

/-- The entries of an object from one on are passed over with the brace behind them. -/
theorem skipEntries_of_parses {tree : Json} {more : List (String × Json)}
    (htrees : Skips tree ∧ ∀ entry ∈ more, Skips entry.2) {fuel room : Nat}
    {s start mid rest : List Char} (hkey : skipKey s = .ok start) (hstart : start.length < s.length)
    (htree : Parses tree room start mid) (hmore : ParsesEntries more room false mid rest)
    (hfuel : 2 * s.length ≤ fuel + 2 * rest.length) : skipEntries fuel s = .ok rest := by
  induction more generalizing tree fuel s start mid with
  | nil =>
    have hlt := Parses.length tree htree
    have hrest := ParsesEntries.length [] hmore
    obtain ⟨fuel, rfl⟩ := Nat.exists_eq_succ_of_ne_zero (show fuel ≠ 0 by omega)
    rw [skipEntries, hkey, ok_bind, htrees.1 fuel room start mid htree (by omega), ok_bind]
    have hclose := skipBlanks_of_nextEntry? hmore
    simp only [hclose]
  | cons entry others ih =>
    obtain ⟨hnext, hothers⟩ := List.forall_mem_cons.1 htrees.2
    have hlt := Parses.length tree htree
    have hrest := ParsesEntries.length (entry :: others) hmore
    obtain ⟨fuel, rfl⟩ := Nat.exists_eq_succ_of_ne_zero (show fuel ≠ 0 by omega)
    obtain ⟨named, start', mid', hentry, hcolon, hvalue, hmany⟩ := hmore
    obtain ⟨body, hnextKey, hbody⟩ := nextKey_of_nextEntry? hentry
    obtain ⟨after, hcomma, hquote⟩ := skipBlanks_of_nextKey hnextKey
    obtain ⟨hskip, hlength⟩ := skipKey_of_stringBody hquote hbody hcolon
    have hmid := length_skipBlanks_le mid
    rw [hcomma, List.length_cons] at hmid
    rw [skipEntries, hkey, ok_bind, htrees.1 fuel room start mid htree (by omega), ok_bind]
    simp only [hcomma]
    exact ih ⟨hnext, hothers⟩ hskip hlength hvalue hmany (by omega)

theorem skips (tree : Json) : Skips tree := by
  induction tree using induction with
  | null | bool b | number n | string s => exact skips_of_scalar id
  | array items ih =>
    intro fuel room s rest h hfuel
    have hlt := Parses.length (array items) h
    obtain ⟨fuel, rfl⟩ := Nat.exists_eq_succ_of_ne_zero (show fuel ≠ 0 by omega)
    obtain ⟨inner, under, hs, rfl, hitems⟩ := h
    have hle := length_skipBlanks_le s
    rw [hs, List.length_cons] at hle
    rw [skipValue, hs]
    cases items with
    | nil =>
      obtain ⟨hnone, rfl⟩ := hitems
      obtain ⟨after, hclose⟩ := skipBlanks_of_nextStart? hnone
      simp only [hclose, List.drop_one, List.tail_cons]
    | cons tree more =>
      obtain ⟨start, mid, hnext, htree, hmore⟩ := hitems
      obtain ⟨hfirst, hnil, hclose⟩ := nextItem_of_nextStart? hnext
      obtain rfl : skipBlanks inner = start := Except.ok.inj hfirst
      have hinner := length_skipBlanks_le inner
      have hmany : skipItems fuel (skipBlanks inner) = .ok rest :=
        skipItems_of_parses ih htree hmore (by omega)
      simp only
      exact hmany
  | object entries ih =>
    intro fuel room s rest h hfuel
    have hlt := Parses.length (object entries) h
    obtain ⟨fuel, rfl⟩ := Nat.exists_eq_succ_of_ne_zero (show fuel ≠ 0 by omega)
    obtain ⟨inner, under, hs, rfl, hentries⟩ := h
    have hle := length_skipBlanks_le s
    rw [hs, List.length_cons] at hle
    rw [skipValue, hs]
    cases entries with
    | nil =>
      have hclose := skipBlanks_of_nextEntry? hentries
      simp only [hclose]
    | cons entry more =>
      obtain ⟨after, start, mid, hnext, hcolon, htree, hmore⟩ := hentries
      obtain ⟨body, hkey, hbody⟩ := nextKey_of_nextEntry? hnext
      have hquote : skipBlanks inner = '"' :: body := skipBlanks_of_nextKey hkey
      have hinner := length_skipBlanks_le inner
      obtain ⟨hskip, hstart⟩ := skipKey_of_stringBody ((skipBlanks_skipBlanks inner).trans hquote)
        hbody hcolon
      have hmany : skipEntries fuel (skipBlanks inner) = .ok rest :=
        skipEntries_of_parses (List.forall_mem_cons.1 ih) hskip hstart htree hmore (by omega)
      rw [hquote] at hmany
      simp only [hquote]
      exact hmany

/-- A value that is read is passed over up to the same place. -/
theorem Parses.passOver {tree : Json} {room : Nat} {s rest : List Char}
    (h : Parses tree room s rest) : Json.passOver s = .ok rest :=
  skips tree _ room s rest h (by omega)

end CssBuild.Json
