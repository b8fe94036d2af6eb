import CssBuild.Proofs.Json.Spelling
import Mathlib.Data.List.Forall2

/-!
# CssBuild.Proofs.Json.Numerals

The numerals of a text.

1. `numerals` finds them without reading the text as a tree: outside strings, a
   minus sign or a digit starts one, and digits, signs, points and exponent
   marks go on with it.
2. In a text that spells a tree these are the spellings of its numbers, one for
   each of them in order (`SpellsText.forall₂_numerals`).
3. The rest of the text does not depend on how numbers are spelled, so a
   condition on its numerals is one on how the tree is spelled
   (`SpellsText.imp`).
-/

namespace CssBuild.Json

open List (Forall₂)

/-! ## Scanning -/

/-- What a place of a text is in. -/
inductive Scanning where
  /-- Nothing that matters. -/
  | outside
  /-- A string. -/
  | string
  /-- A numeral, of which some characters have been found. -/
  | numeral (found : List Char)

/-- Whether a character starts a numeral. -/
def startsNumeral (c : Char) : Bool := c == '-' || isDigit c

/-- Whether a character can stand in a numeral. -/
def inNumeral (c : Char) : Bool :=
  isDigit c || c == '-' || c == '+' || c == '.' || c == 'e' || c == 'E'

/-- The numerals from a place on. -/
def scan : Scanning → List Char → List (List Char)
  | .outside, [] => []
  | .string, [] => []
  | .numeral found, [] => [found]
  | .string, '\\' :: _ :: s => scan .string s
  | .string, c :: s => if c = '"' then scan .outside s else scan .string s
  | .outside, c :: s =>
    if c = '"' then scan .string s
    else if startsNumeral c then scan (.numeral [c]) s
    else scan .outside s
  | .numeral found, c :: s =>
    if inNumeral c then scan (.numeral (found ++ [c])) s
    else found :: if c = '"' then scan .string s else scan .outside s

/-- The numerals of a text. -/
def numerals (s : List Char) : List (List Char) := scan .outside s

theorem startsNumeral_eq_false {c : Char} (h : inNumeral c = false) : startsNumeral c = false := by
  simp only [inNumeral, Bool.or_eq_false_iff] at h
  simp only [startsNumeral, h, Bool.or_self]

theorem scan_outside_cons (c : Char) (s : List Char) : scan .outside (c :: s) =
    if c = '"' then scan .string s
    else if startsNumeral c then scan (.numeral [c]) s
    else scan .outside s := rfl

theorem scan_numeral_cons (found : List Char) (c : Char) (s : List Char) :
    scan (.numeral found) (c :: s) =
      if inNumeral c then scan (.numeral (found ++ [c])) s
      else found :: if c = '"' then scan .string s else scan .outside s := rfl

theorem scan_outside {u : List Char} (h : ∀ c ∈ u, c ≠ '"' ∧ startsNumeral c = false)
    (s : List Char) : scan .outside (u ++ s) = scan .outside s := by
  induction u with
  | nil => rfl
  | cons c u ih =>
    obtain ⟨hquote, hstart⟩ := h c List.mem_cons_self
    rw [List.cons_append, scan_outside_cons, if_neg hquote, hstart,
      ih fun d hd => h d (List.mem_cons_of_mem _ hd)]
    rfl

theorem scan_numeral {u s : List Char} (found : List Char) (h : ∀ c ∈ u, inNumeral c = true)
    (hs : Delimited s) : scan (.numeral found) (u ++ s) = (found ++ u) :: scan .outside s := by
  induction u generalizing found with
  | nil =>
    cases s with
    | nil =>
      rw [List.append_nil, List.append_nil]
      rfl
    | cons c s =>
      have hc : inNumeral c = false := by
        obtain hblank | hmem := hs.head rfl
        · simp only [isBlank, Bool.or_eq_true, beq_iff_eq] at hblank
          rcases hblank with ((rfl | rfl) | rfl) | rfl <;> rfl
        · simp only [List.mem_cons, List.not_mem_nil, or_false] at hmem
          rcases hmem with rfl | rfl | rfl | rfl <;> rfl
      have hstart := startsNumeral_eq_false hc
      rw [List.nil_append, scan_numeral_cons, scan_outside_cons, hc, hstart, List.append_nil]
      rfl
  | cons c u ih =>
    rw [List.cons_append, scan_numeral_cons, h c List.mem_cons_self, if_pos rfl,
      ih _ fun d hd => h d (List.mem_cons_of_mem _ hd), List.append_assoc, List.singleton_append]

/-! ## Strings -/

theorem scan_string_cons {c : Char} (hquote : c ≠ '"') (hbackslash : c ≠ '\\') (s : List Char) :
    scan .string (c :: s) = scan .string s := by
  rw [scan, if_neg hquote]
  rintro _ _ rfl
  exact absurd rfl hbackslash

theorem scan_string_hex {c : Char} {n : Nat} (h : hexValue? c = some n) (s : List Char) :
    scan .string (c :: s) = scan .string s := by
  refine scan_string_cons ?_ ?_ s
  · rintro rfl
    cases h
  · rintro rfl
    cases h

theorem scan_string_escape (c : Char) (s : List Char) :
    scan .string ('\\' :: c :: s) = scan .string s := rfl

theorem scan_string_close (s : List Char) : scan .string ('"' :: s) = scan .outside s := rfl

theorem scan_string_code {a b c d : Char} {n : Nat} (h : hexFour? [a, b, c, d] = some (n, []))
    (s : List Char) : scan .string ('\\' :: 'u' :: a :: b :: c :: d :: s) = scan .string s := by
  obtain ⟨w, x, y, z, ha, hb, hc, hd, -⟩ := hexFour?_eq_some h
  rw [scan_string_escape, scan_string_hex ha, scan_string_hex hb, scan_string_hex hc,
    scan_string_hex hd]

theorem scan_spellsChar {c : Char} {u : List Char} (h : SpellsChar c u) (s : List Char) :
    scan .string (u ++ s) = scan .string s := by
  cases h with
  | plain quote backslash _ => exact scan_string_cons quote backslash s
  | letter _ => exact scan_string_escape _ s
  | code digits _ _ => exact scan_string_code digits s
  | pair first second _ _ =>
    simp only [List.cons_append, List.nil_append]
    rw [scan_string_code first, scan_string_code second]

theorem scan_spellsChars {chars inner : List Char} (h : SpellsChars chars inner)
    (s : List Char) : scan .string (inner ++ '"' :: s) = scan .outside s := by
  induction chars generalizing inner with
  | nil =>
    obtain rfl := h
    rw [List.nil_append, scan_string_close]
  | cons c rest ih =>
    obtain ⟨u, more, hu, hmore, rfl⟩ := h
    rw [List.append_assoc, scan_spellsChar hu, ih hmore]

theorem scan_spellsString {text : String} {t : List Char} (h : SpellsString text t)
    (s : List Char) : scan .outside (t ++ s) = scan .outside s := by
  obtain ⟨inner, hinner, rfl⟩ := h
  rw [List.cons_append, scan_outside_cons, if_pos rfl, List.append_assoc, List.singleton_append,
    scan_spellsChars hinner]

/-! ## Blanks, words and numbers -/

theorem scan_blanks {blanks : List Char} (h : IsBlanks blanks) (s : List Char) :
    scan .outside (blanks ++ s) = scan .outside s := by
  refine scan_outside (fun c hc => ?_) s
  have hblank := h c hc
  simp only [isBlank, Bool.or_eq_true, beq_iff_eq] at hblank
  rcases hblank with ((rfl | rfl) | rfl) | rfl <;> exact ⟨by decide, rfl⟩

theorem scan_comma {first : Bool} {t : List Char} (h : SpellsComma first t) (s : List Char) :
    scan .outside (t ++ s) = scan .outside s := by
  unfold SpellsComma at h
  split at h
  · rw [h, List.nil_append]
  · obtain ⟨blanks, hblanks, rfl⟩ := h
    rw [List.cons_append, scan_outside_cons, if_neg (by decide)]
    exact scan_blanks hblanks s

theorem WrittenNumeral.inNumeral_chars (n : WrittenNumeral) :
    ∀ c ∈ n.chars, inNumeral c = true := by
  have hdigit (c : Char) (h : isDigit c = true) : inNumeral c = true := by simp [inNumeral, h]
  intro c hc
  obtain hc | hc := List.mem_append.1 hc
  · exact hdigit c (n.isWhole.2 c hc)
  obtain hc | hc := List.mem_append.1 hc
  · cases hfraction : n.fraction with
    | none => simp [hfraction, fractionChars] at hc
    | some digits =>
      simp only [hfraction, fractionChars, List.mem_cons] at hc
      obtain rfl | hc := hc
      · rfl
      · exact hdigit c ((n.isFraction digits hfraction).2 c hc)
  · cases hexponent : n.exponent with
    | none => simp [hexponent, exponentChars] at hc
    | some e =>
      simp only [hexponent, exponentChars, WrittenExponent.chars, List.mem_cons,
        List.mem_append] at hc
      obtain rfl | hc | hc := hc
      · rcases e.isMark with h | h <;> rw [h] <;> rfl
      · rcases e.isSign with h | h | h <;> simp [h] at hc <;> rw [hc] <;> rfl
      · exact hdigit c (e.isDigits.2 c hc)

theorem scan_isNumeral {t s : List Char} (h : IsNumeral t) (hs : Delimited s) :
    scan .outside (t ++ s) = t :: scan .outside s := by
  obtain ⟨negative, n, rfl⟩ := h
  have hstart : ∃ c u, signed negative n.chars = c :: u ∧ startsNumeral c = true ∧
      ∀ d ∈ u, inNumeral d = true := by
    cases negative with
    | true => exact ⟨'-', n.chars, rfl, rfl, n.inNumeral_chars⟩
    | false =>
      obtain ⟨c, u, hchars, hdigit⟩ := n.chars_eq_cons
      refine ⟨c, u, hchars, by simp [startsNumeral, hdigit], fun d hd => ?_⟩
      exact n.inNumeral_chars d (hchars ▸ List.mem_cons_of_mem _ hd)
  obtain ⟨c, u, hsigned, hc, hu⟩ := hstart
  have hquote : c ≠ '"' := by
    rintro rfl
    cases hc
  rw [hsigned, List.cons_append, scan_outside_cons, if_neg hquote, if_pos hc,
    scan_numeral [c] hu hs, List.singleton_append]

theorem scan_mark {c : Char} (h : c ∈ ['[', ']', '{', '}', ':']) (s : List Char) :
    scan .outside (c :: s) = scan .outside s := by
  simp only [List.mem_cons, List.not_mem_nil, or_false] at h
  rcases h with rfl | rfl | rfl | rfl | rfl <;> rfl

/-! ## Trees -/

section Trees

variable {p q : Number → List Char → Prop}

/-- Where two runs of numbers are spelled one after the other, each is spelled by its part. -/
theorem forall₂_append_split {ns ms : List Number} {ts us : List (List Char)}
    (hlength : ns.length = ts.length) (h : Forall₂ q (ns ++ ms) (ts ++ us)) :
    Forall₂ q ns ts ∧ Forall₂ q ms us := by
  have htake := List.forall₂_take_append _ _ _ h
  have hdrop := List.forall₂_drop_append _ _ _ h
  rw [← hlength, List.take_left] at htake
  rw [← hlength, List.drop_left] at hdrop
  exact ⟨htake, hdrop⟩

theorem forall₂_imp {ns : List Number} {ts : List (List Char)} (h : Forall₂ p ns ts)
    (himp : ∀ n ∈ ns, ∀ t ∈ ts, p n t → q n t) : Forall₂ q ns ts := by
  obtain ⟨hlength, hpairs⟩ := List.forall₂_iff_zip.1 h
  refine List.forall₂_iff_zip.2 ⟨hlength, fun hmem => ?_⟩
  obtain ⟨hn, ht⟩ := List.of_mem_zip hmem
  exact himp _ hn _ ht (hpairs hmem)

mutual

/-- The numerals that are found in a spelled tree spell its numbers. In whatever other way they do
so, the tree is spelled in it. -/
theorem scan_spells (hp : ∀ {n t}, p n t → IsNumeral t) : (tree : Json) → (u : List Char) →
    Spells p tree u →
    ∃ found, (∀ s, Delimited s → scan .outside (u ++ s) = found ++ scan .outside s) ∧
      Forall₂ p tree.numbers found ∧ ∀ q, Forall₂ q tree.numbers found → Spells q tree u
  | null, u, h => by
    obtain rfl := h
    exact ⟨[], fun s _ => scan_outside (by decide) s, .nil, fun _ _ => rfl⟩
  | bool b, u, h => by
    obtain rfl := h
    exact ⟨[], fun s _ => scan_outside (by cases b <;> decide) s, .nil, fun _ _ => rfl⟩
  | number n, u, h =>
    ⟨[u], fun _ hs => scan_isNumeral (hp h) hs, .cons h .nil,
      fun _ hq => (List.forall₂_cons.1 hq).1⟩
  | string text, u, h => ⟨[], fun s _ => scan_spellsString h s, .nil, fun _ _ => h⟩
  | array items, u, h => by
    obtain ⟨inner, hinner, rfl⟩ := h
    obtain ⟨found, hfound, hnumbers, hspells⟩ := scan_spellsItems hp items true inner hinner
    refine ⟨found, fun s _ => ?_, hnumbers, fun q hq => ⟨inner, hspells q hq, rfl⟩⟩
    rw [List.cons_append, scan_mark (by decide), hfound]
  | object entries, u, h => by
    obtain ⟨inner, hinner, rfl⟩ := h
    obtain ⟨found, hfound, hnumbers, hspells⟩ := scan_spellsEntries hp entries true inner hinner
    refine ⟨found, fun s _ => ?_, hnumbers, fun q hq => ⟨inner, hspells q hq, rfl⟩⟩
    rw [List.cons_append, scan_mark (by decide), hfound]

theorem scan_spellsItems (hp : ∀ {n t}, p n t → IsNumeral t) : (items : List Json) →
    (first : Bool) → (t : List Char) → SpellsItems p first items t →
    ∃ found, (∀ s, scan .outside (t ++ s) = found ++ scan .outside s) ∧
      Forall₂ p (numbersItems items) found ∧
      ∀ q, Forall₂ q (numbersItems items) found → SpellsItems q first items t
  | [], _, t, h => by
    refine ⟨[], fun s => ?_, .nil, fun _ _ => h⟩
    obtain ⟨blanks, hblanks, rfl⟩ := h
    rw [List.append_assoc, scan_blanks hblanks, List.singleton_append, scan_mark (by decide),
      List.nil_append]
  | item :: rest, first, t, h => by
    obtain ⟨blanks, comma, u, more, hblanks, hcomma, hu, hmore, rfl⟩ := h
    obtain ⟨inItem, hitem, hnumbers, hspells⟩ := scan_spells hp item u hu
    obtain ⟨inRest, hrest, hnumbers', hspells'⟩ := scan_spellsItems hp rest false more hmore
    refine ⟨inItem ++ inRest, fun s => ?_, List.rel_append hnumbers hnumbers', fun q hq => ?_⟩
    · simp only [List.append_assoc]
      rw [scan_blanks hblanks, scan_comma hcomma, hitem _ (delimited_items hmore s), hrest]
    · obtain ⟨hq, hq'⟩ := forall₂_append_split hnumbers.length_eq hq
      exact ⟨_, _, _, _, hblanks, hcomma, hspells q hq, hspells' q hq', rfl⟩

theorem scan_spellsEntries (hp : ∀ {n t}, p n t → IsNumeral t) :
    (entries : List (String × Json)) → (first : Bool) → (t : List Char) →
    SpellsEntries p first entries t →
    ∃ found, (∀ s, scan .outside (t ++ s) = found ++ scan .outside s) ∧
      Forall₂ p (numbersEntries entries) found ∧
      ∀ q, Forall₂ q (numbersEntries entries) found → SpellsEntries q first entries t
  | [], _, t, h => by
    refine ⟨[], fun s => ?_, .nil, fun _ _ => h⟩
    obtain ⟨blanks, hblanks, rfl⟩ := h
    rw [List.append_assoc, scan_blanks hblanks, List.singleton_append, scan_mark (by decide),
      List.nil_append]
  | (key, value) :: rest, first, t, h => by
    obtain ⟨blanks, comma, name, before, after, u, more, hblanks, hcomma, hname, hbefore, hafter,
      hu, hmore, rfl⟩ := h
    obtain ⟨inValue, hvalue, hnumbers, hspells⟩ := scan_spells hp value u hu
    obtain ⟨inRest, hrest, hnumbers', hspells'⟩ := scan_spellsEntries hp rest false more hmore
    refine ⟨inValue ++ inRest, fun s => ?_, List.rel_append hnumbers hnumbers', fun q hq => ?_⟩
    · simp only [List.append_assoc, List.cons_append]
      rw [scan_blanks hblanks, scan_comma hcomma, scan_spellsString hname, scan_blanks hbefore,
        scan_mark (by decide), scan_blanks hafter, hvalue _ (delimited_entries hmore s), hrest]
    · obtain ⟨hq, hq'⟩ := forall₂_append_split hnumbers.length_eq hq
      exact ⟨_, _, _, _, _, _, _, hblanks, hcomma, hname, hbefore, hafter, hspells q hq,
        hspells' q hq', rfl⟩

end

variable {tree : Json} {u text : List Char}

/-- The numerals of the text of a tree spell its numbers, each in its place. In whatever other way
they do so, the tree is spelled in it. -/
theorem Spells.numerals_spell (hp : ∀ {n t}, p n t → IsNumeral t) (h : Spells p tree u) :
    Forall₂ p tree.numbers (numerals u) ∧
      ∀ q, Forall₂ q tree.numbers (numerals u) → Spells q tree u := by
  obtain ⟨found, hfound, hnumbers, hspells⟩ := scan_spells hp tree u h
  have hnumerals := hfound [] ⟨[], [], isBlanks_nil, rfl, by simp⟩
  rw [List.append_nil, show scan .outside [] = [] from rfl, List.append_nil] at hnumerals
  rw [numerals, hnumerals]
  exact ⟨hnumbers, hspells⟩

/-- The blanks around a tree hold no numeral. -/
theorem Spells.numerals_between (hp : ∀ {n t}, p n t → IsNumeral t) (h : Spells p tree u)
    {before after : List Char} (hbefore : IsBlanks before) (hafter : IsBlanks after) :
    numerals (before ++ u ++ after) = numerals u := by
  obtain ⟨found, hfound, -, -⟩ := scan_spells hp tree u h
  have hnone := scan_blanks hafter []
  have hend : Delimited after := ⟨after, [], hafter, by simp, by simp⟩
  have hnumerals := hfound [] ⟨[], [], isBlanks_nil, rfl, by simp⟩
  rw [List.append_nil] at hnone hnumerals
  rw [numerals, List.append_assoc, scan_blanks hbefore, hfound after hend, hnone, ← hnumerals,
    numerals]

/-- A tree is spelled in any way that its numbers and numerals allow. -/
theorem Spells.imp (hp : ∀ {n t}, p n t → IsNumeral t) (h : Spells p tree u)
    (himp : ∀ n ∈ tree.numbers, ∀ t ∈ numerals u, p n t → q n t) : Spells q tree u := by
  obtain ⟨hnumbers, hspells⟩ := h.numerals_spell hp
  exact hspells q (forall₂_imp hnumbers himp)

/-- The numerals of a text that spells a tree spell the numbers of the tree, each in its place. -/
theorem SpellsText.forall₂_numerals (hp : ∀ {n t}, p n t → IsNumeral t)
    (h : SpellsText p tree text) : Forall₂ p tree.numbers (numerals text) := by
  obtain ⟨before, body, after, hbefore, hbody, hafter, rfl⟩ := h
  rw [hbody.numerals_between hp hbefore hafter]
  exact (hbody.numerals_spell hp).1

/-- A text spells its tree in any way that the numbers of the tree and the numerals of the text
allow. -/
theorem SpellsText.imp (hp : ∀ {n t}, p n t → IsNumeral t) (h : SpellsText p tree text)
    (himp : ∀ n ∈ tree.numbers, ∀ t ∈ numerals text, p n t → q n t) : SpellsText q tree text := by
  obtain ⟨before, body, after, hbefore, hbody, hafter, rfl⟩ := h
  rw [hbody.numerals_between hp hbefore hafter] at himp
  exact ⟨before, body, after, hbefore, hbody.imp hp himp, hafter, rfl⟩

end Trees

end CssBuild.Json
