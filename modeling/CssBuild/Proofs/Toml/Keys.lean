import CssBuild.Proofs.Toml.Strings
import CssBuild.Toml.Reader
import CssBuild.Toml.Writer

/-!
# CssBuild.Proofs.Toml.Keys

The keys that are written in TOML are read back.

1. A part of a key is read back from its text, whichever form it has.
2. A path is read back from its parts with dots between them, the last part
   apart from those before it (`key_pathText`).
-/

namespace CssBuild.Toml

/-! ## Parts -/

theorem keyPart_basicForm (s rest : List Char) :
    keyPart (basicForm s ++ rest) = .ok (String.ofList s, rest) := by
  have htext : basicForm s ++ rest = '"' :: (basicText false 0 s ++ '"' :: rest) := by
    simp [basicForm]
  rw [htext, keyPart, basicString_basicText]
  rfl

theorem keyPart_literalForm {s : List Char} (hs : ∀ c ∈ s, isLiteralChar c = true)
    (rest : List Char) : keyPart (literalForm s ++ rest) = .ok (String.ofList s, rest) := by
  have htext : literalForm s ++ rest = '\'' :: (s ++ '\'' :: rest) := by
    simp [literalForm]
  rw [htext, keyPart, literalString_append hs]
  rfl

theorem keyPart_bare {s rest : List Char} (hs : isBare s = true)
    (hrest : Stops isBareChar rest) :
    keyPart (s ++ rest) = .ok (String.ofList s, rest) := by
  rw [isBare, Bool.and_eq_true, List.all_eq_true] at hs
  obtain ⟨hne, hall⟩ := hs
  have htake := takeWhile_run hall hrest
  have hdrop := dropWhile_run hall hrest
  have hquote : ∀ q, isBareChar q = false → ∀ u, s ++ rest ≠ q :: u := by
    rintro q hq u h
    cases s with
    | nil => simp at hne
    | cons c s =>
      rw [← (List.cons.inj h).1, hall c List.mem_cons_self] at hq
      cases hq
  have hdouble := hquote '"' (by decide)
  have hsingle := hquote '\'' (by decide)
  unfold keyPart
  split
  · next heq => exact absurd heq (hdouble _)
  · next heq => exact absurd heq (hsingle _)
  · simp only [htake, hdrop]
    rw [if_neg (by simpa using hne)]

/-- A key is read back from its text. -/
theorem keyPart_keyText (key rest : List Char)
    (hrest : Stops isBareChar rest) :
    keyPart (keyText key ++ rest) = .ok (String.ofList key, rest) := by
  unfold keyText
  dsimp only
  split
  · next h => exact keyPart_bare h hrest
  split
  · exact keyPart_basicForm key rest
  split
  · next h =>
    have hs := isLiteralChar_of_features h.1 (by simpa using h.2.1) (by simpa using h.2.2)
    exact keyPart_literalForm hs rest
  · exact keyPart_basicForm key rest

/-! ## Paths -/

/-- What a key ends at: a character that can neither go on with a bare key nor lead to another
part. -/
def EndsKey (rest : List Char) : Prop :=
  Stops isBareChar rest ∧ (skipBlanks rest).head? ≠ some '.'

/-- The characters that start something else than a key. -/
def keyBreaks : List Char := [' ', '\t', '#', '[', '\n', '\r', '\ufeff']

theorem keyText_eq_cons (key : List Char) : ∃ c u, keyText key = c :: u ∧ c ∉ keyBreaks := by
  have hbare (c : Char) (h : isBareChar c = true) : c ∉ keyBreaks := by
    have hall : ∀ d ∈ keyBreaks, isBareChar d = false := by decide
    intro hmem
    rw [hall c hmem] at h
    cases h
  unfold keyText
  dsimp only
  split
  · next h =>
    cases key with
    | nil => cases h
    | cons c u =>
      rw [isBare, Bool.and_eq_true, List.all_cons, Bool.and_eq_true] at h
      exact ⟨c, u, rfl, hbare c h.2.1⟩
  split
  · exact ⟨'"', _, rfl, by decide⟩
  split
  · exact ⟨'\'', _, rfl, by decide⟩
  · exact ⟨'"', _, rfl, by decide⟩

theorem isBlank_of_keyBreaks {c : Char} (hc : c ∉ keyBreaks) : isBlank c = false := by
  simp only [keyBreaks, List.mem_cons, not_or] at hc
  simp [isBlank, hc.1, hc.2.1]

theorem skipBlanks_keyText (key rest : List Char) :
    skipBlanks (keyText key ++ rest) = keyText key ++ rest := by
  obtain ⟨c, u, htext, hc⟩ := keyText_eq_cons key
  rw [htext]
  exact dropWhile_stop (stops_cons (isBlank_of_keyBreaks hc))

theorem pathText_singleton (key : String) : pathText [key] = keyText key.toList := by
  simp [pathText, List.intercalate]

theorem pathText_cons (key next : String) (path : List String) :
    pathText (key :: next :: path) = keyText key.toList ++ '.' :: pathText (next :: path) := by
  simp [pathText, List.intercalate]

theorem pathText_eq_cons (path : List String) (last : String) :
    ∃ c u, pathText (path ++ [last]) = c :: u ∧ c ∉ keyBreaks := by
  cases path with
  | nil =>
    rw [List.nil_append, pathText_singleton]
    exact keyText_eq_cons _
  | cons first path =>
    obtain ⟨c, u, htext, hc⟩ := keyText_eq_cons first.toList
    obtain ⟨second, more, hmore⟩ : ∃ second more, path ++ [last] = second :: more := by
      cases path with
      | nil => exact ⟨last, [], rfl⟩
      | cons second path => exact ⟨second, path ++ [last], rfl⟩
    refine ⟨c, u ++ '.' :: pathText (second :: more), ?_, hc⟩
    rw [List.cons_append, hmore, pathText_cons, htext, List.cons_append]

theorem skipBlanks_pathText (path : List String) (last : String) (rest : List Char) :
    skipBlanks (pathText (path ++ [last]) ++ rest) = pathText (path ++ [last]) ++ rest := by
  obtain ⟨c, u, htext, hc⟩ := pathText_eq_cons path last
  rw [htext]
  exact dropWhile_stop (stops_cons (isBlank_of_keyBreaks hc))

theorem length_le_pathText (path : List String) : path.length ≤ (pathText path).length := by
  induction path with
  | nil => exact Nat.zero_le _
  | cons key path ih =>
    obtain ⟨c, u, htext, -⟩ := keyText_eq_cons key.toList
    cases path with
    | nil => simp [pathText_singleton, htext]
    | cons next path =>
      rw [pathText_cons, htext]
      simp only [List.length_cons, List.length_append] at ih ⊢
      omega

theorem keyParts_pathText (key : String) (path : List String) {rest : List Char}
    (hrest : EndsKey rest) {fuel : Nat} (hfuel : path.length < fuel) :
    keyParts fuel (pathText (key :: path) ++ rest) = .ok (key :: path, skipBlanks rest) := by
  induction path generalizing key fuel with
  | nil =>
    obtain ⟨fuel, rfl⟩ := Nat.exists_eq_add_one_of_ne_zero (Nat.ne_of_gt hfuel)
    have hpart := keyPart_keyText key.toList rest hrest.1
    rw [pathText_singleton, keyParts, skipBlanks_keyText, hpart, ok_bind]
    have hdot := hrest.2
    dsimp only
    split
    · next heq => exact absurd (by rw [heq, List.head?_cons]) hdot
    · rw [String.ofList_toList]
  | cons next path ih =>
    obtain ⟨fuel, rfl⟩ := Nat.exists_eq_add_one_of_ne_zero (Nat.ne_of_gt (Nat.zero_lt_of_lt hfuel))
    have hmore := ih next (Nat.lt_of_succ_lt_succ hfuel)
    have hpart := keyPart_keyText key.toList ('.' :: (pathText (next :: path) ++ rest))
      (stops_cons (by decide))
    have hdot : skipBlanks ('.' :: (pathText (next :: path) ++ rest)) =
        '.' :: (pathText (next :: path) ++ rest) := by
      rw [skipBlanks, List.dropWhile_cons_of_neg (by decide)]
    rw [pathText_cons, List.append_assoc, List.cons_append, keyParts, skipBlanks_keyText, hpart,
      ok_bind]
    simp only [hdot, hmore, String.ofList_toList]

theorem skipBlanks_skipBlanks (s : List Char) : skipBlanks (skipBlanks s) = skipBlanks s :=
  dropWhile_stop (stops_dropWhile s)

theorem keyParts_skipBlanks (fuel : Nat) (s : List Char) :
    keyParts (fuel + 1) s = keyParts (fuel + 1) (skipBlanks s) := by
  rw [keyParts, keyParts, skipBlanks_skipBlanks]

/-- A path is read back from its text, after blanks. -/
theorem key_pathText {limit : Nat} (path : List String) (last : String) (h : path.length < limit)
    {s rest : List Char} (hs : skipBlanks s = pathText (path ++ [last]) ++ rest)
    (hrest : EndsKey rest) : key limit s = .ok ((path, last), skipBlanks rest) := by
  obtain ⟨first, more, hpath⟩ : ∃ first more, path ++ [last] = first :: more := by
    cases path with
    | nil => exact ⟨last, [], rfl⟩
    | cons first path => exact ⟨first, path ++ [last], rfl⟩
  have hfuel : (path ++ [last]).length < s.length + 1 := by
    have htext := length_le_pathText (path ++ [last])
    have hskip := (List.dropWhile_sublist isBlank (l := s)).length_le
    rw [← skipBlanks, hs, List.length_append] at hskip
    omega
  have hparts : keyParts (s.length + 1) s = .ok (path ++ [last], skipBlanks rest) := by
    rw [keyParts_skipBlanks, hs]
    rw [hpath] at hfuel ⊢
    exact keyParts_pathText first more hrest (Nat.lt_of_succ_lt hfuel)
  rw [key, hparts, labelled_ok, ok_bind]
  dsimp only
  rw [List.getLast?_concat]
  dsimp only
  rw [if_neg (by simp only [List.length_append, List.length_singleton]; omega),
    List.dropLast_concat]

/-- A key without dots is read back from its text, after blanks. -/
theorem key_keyText {limit : Nat} (hlimit : 0 < limit) (last : String) {s rest : List Char}
    (hs : skipBlanks s = keyText last.toList ++ rest) (hrest : EndsKey rest) :
    key limit s = .ok (([], last), skipBlanks rest) := by
  rw [← pathText_singleton] at hs
  exact key_pathText [] last hlimit hs hrest

end CssBuild.Toml
