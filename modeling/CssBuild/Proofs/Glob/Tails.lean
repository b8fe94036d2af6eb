import CssBuild.Proofs.Glob.Matching

/-!
# CssBuild.Proofs.Glob.Tails

A pattern against its tail.

1. A pattern is matched in two parts, its root against directories and its tail
   against what is below them; a glob is also matched as a whole, against paths
   with the root in front. Both say the same (`compileTail_matches`) where the
   root is plain text and the pattern does not ask for a directory.
2. A path is put behind a root the way the glob has it. A glob that starts with
   two slashes can have `/` for its root, and asks for both of them
   (`compileTail_matches_doubled`).
-/

namespace CssBuild.Glob

theorem getLast?_onlyStars {s : List Char} (h : onlyStars s = true) : s.getLast? = some '/' := by
  fun_induction onlyStars s with
  | case1 rest ih =>
    rw [Bool.or_eq_true, List.isEmpty_iff] at h
    obtain rfl | h := h
    · rfl
    · simp [List.getLast?_cons, ih h]
  | case2 s hs => cases h

end CssBuild.Glob

namespace CssBuild.Pattern

open Glob

theorem dropHere_suffix (s : List Char) : dropHere s <:+ s := by
  induction s using dropHere.induct with
  | case1 rest ih =>
    rw [dropHere]
    exact ih.trans ⟨['.', '/'], rfl⟩
  | case2 s h =>
    have hsame : dropHere s = s := by
      rw [dropHere]
      exact h
    exact ⟨[], hsame⟩

theorem globChars_suffix (p : Pattern) : p.globChars <:+ p.text.toList := by
  rw [globChars]
  split
  · next heq => exact heq ▸ (dropHere_suffix _).trans (List.suffix_cons _ _)
  · exact dropHere_suffix _

/-- A path behind the root of a pattern, with the slash that stands between them. A glob that is a
single slash and its tail has no other slash for its root. -/
def below (p : Pattern) (path : String) : String :=
  if p.root = "" then path
  else if p.globChars = '/' :: p.tail.toList then "/" ++ path
  else p.root ++ "/" ++ path

/-- Behind what a glob has in front of its tail a path is behind the root. -/
theorem below_eq {p : Pattern} {before : List Char}
    (hglob : p.globChars = before ++ '/' :: p.tail.toList)
    (hroot : p.root.toList = if before = [] then ['/'] else before) (path : String) :
    p.below path = String.ofList (before ++ '/' :: path.toList) := by
  have hne : p.root ≠ "" := by
    intro hempty
    rw [hempty] at hroot
    split at hroot
    · cases hroot
    · next hbefore => exact hbefore hroot.symm
  have hsingle : p.globChars = '/' :: p.tail.toList ↔ before = [] := by
    rw [hglob, ← List.nil_append ('/' :: p.tail.toList), ← List.append_assoc, List.append_nil,
      List.append_left_inj]
  rw [below, if_neg hne, ← String.toList_inj, String.toList_ofList]
  by_cases hbefore : before = []
  · rw [if_pos (hsingle.2 hbefore), hbefore, String.toList_append]
    rfl
  · rw [if_neg hbefore] at hroot
    rw [if_neg fun h => hbefore (hsingle.1 h), String.toList_append, String.toList_append, hroot,
      List.append_assoc]
    rfl

/-- The tail of a pattern matches the paths that the whole pattern matches behind its root, where
the root is plain text and the pattern has no slash at its end. -/
theorem compileTail_matches {p : Pattern} {whole : Compiled} (compiles : p.compile = .ok whole)
    (plain : '\\' ∉ p.root.toList) (files : p.text.toList.getLast? ≠ some '/') :
    ∃ tail, p.compileTail = .ok tail ∧
      ∀ path, tail.matches path = whole.matches (p.below path) := by
  obtain ⟨hroot, -, htail⟩ | ⟨before, root, tail, hglob, hroot, htail, hbeneath, hread⟩ :=
    compileTail_cases compiles
  · refine ⟨whole, htail, fun path => ?_⟩
    rw [below, if_pos hroot]
  · refine ⟨tail, htail, fun path => ?_⟩
    have hescape : '\\' ∉ before := by
      by_cases hbefore : before = []
      · simp [hbefore]
      · rw [if_neg hbefore] at hroot
        exact hroot ▸ plain
    have hstars : onlyStars p.tail.toList = false := by
      refine Bool.eq_false_iff.2 fun hstars => files ?_
      obtain ⟨front, hfront⟩ := p.globChars_suffix
      have hlast := getLast?_onlyStars hstars
      simp [← hfront, hglob, List.getLast?_append, List.getLast?_cons, hlast]
    rw [hread hescape] at hbeneath
    rw [Bool.eq_iff_iff, below_eq hglob hroot]
    exact (hbeneath.matches_iff hstars).symm

/-- A root with a `..`, a component `**` behind it, a class and a choice. -/
theorem compileTail_matches_upward :
    ∃ whole tail, (Pattern.mk "../s/**/[!x]\x7b*,**\x7d").compile = .ok whole ∧
      (Pattern.mk "../s/**/[!x]\x7b*,**\x7d").compileTail = .ok tail ∧
      tail.matches "a/b.c" = true ∧ whole.matches "../s/a/b.c" = true := by
  obtain ⟨whole, hwhole⟩ :
      ∃ whole, (Pattern.mk "../s/**/[!x]\x7b*,**\x7d").compile = .ok whole := ⟨_, rfl⟩
  obtain ⟨tail, htail, hmatches⟩ := compileTail_matches hwhole (by decide) (by decide)
  obtain ⟨found, hsame, hfound⟩ :
      ∃ found, (Pattern.mk "../s/**/[!x]\x7b*,**\x7d").compileTail = .ok found ∧
        found.matches "a/b.c" = true := ⟨_, rfl, by decide +kernel⟩
  obtain rfl := Except.ok.inj (hsame.symm.trans htail)
  have hbelow : (Pattern.mk "../s/**/[!x]\x7b*,**\x7d").below "a/b.c" = "../s/a/b.c" := by decide
  rw [hmatches, hbelow] at hfound
  exact ⟨whole, found, hwhole, htail, (hmatches _).trans (hbelow ▸ hfound), hfound⟩

/-- A glob with two slashes at its start has the root `/`, but does not match behind a single
slash what its tail matches. -/
theorem compileTail_matches_doubled :
    (Pattern.mk "//x*").isExclusion = false ∧ (Pattern.mk "//x*").root = "/" ∧
      (Pattern.mk "//x*").text.toList.getLast? ≠ some '/' ∧
      ∃ whole tail, (Pattern.mk "//x*").compile = .ok whole ∧
        (Pattern.mk "//x*").compileTail = .ok tail ∧
        tail.matches "xa" = true ∧ whole.matches ("/" ++ "xa") = false := by
  refine ⟨by decide, by decide, by decide, _, _, rfl, rfl, ?_, ?_⟩ <;> decide +kernel

end CssBuild.Pattern
