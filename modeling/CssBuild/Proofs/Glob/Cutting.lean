import Mathlib.Data.List.TakeWhile
import CssBuild.Config.Pattern
import CssBuild.Proofs.Glob.Lifting

/-!
# CssBuild.Proofs.Glob.Cutting

A glob and what is left of it after its root.

1. What follows a slash compiles if the whole glob does, and behind the root
   both have the same tokens, but for components `**` (`Beneath`).
2. So the tail of a pattern compiles if the pattern does
   (`Pattern.compileTail_of_compile`).
-/

namespace CssBuild.Glob

/-! ## Behind a root -/

/-- Whether a text is `**/`, once or more. -/
def onlyStars : List Char → Bool
  | '*' :: '*' :: '/' :: rest => rest.isEmpty || onlyStars rest
  | _ => false

/-- The tokens of what follows a root, `s`, and those of a whole glob. -/
inductive Beneath (root : List Token) (s : List Char) : List Token → List Token → Prop where
  /-- A slash stands between them. -/
  | slash (tokens : List Token) (plain : tokens ≠ [.leading]) :
      Beneath root s tokens (root ++ .literal '/' :: tokens)
  /-- The first component of what follows is `**`. -/
  | between (tokens : List Token) (more : tokens = [] → onlyStars s = true) :
      Beneath root s (.leading :: tokens) (root ++ .between :: tokens)
  /-- Nothing but `**` follows. -/
  | trailing : Beneath root s [.leading] (root ++ [.trailing])

theorem Beneath.mono {root : List Token} {s longer : List Char} {found whole : List Token}
    (h : Beneath root s found whole) (hs : onlyStars s = true → onlyStars longer = true) :
    Beneath root longer found whole := by
  cases h with
  | slash _ plain => exact .slash _ plain
  | between tokens more => exact .between tokens fun hnil => hs (more hnil)
  | trailing => exact .trailing

/-- What is read behind something that is no component `**` of the text is what is read at the
start. -/
theorem exists_run_start {base : List Token} (hbase : base ≠ []) {s : List Char}
    (h : startsComponents s = false) {whole : State}
    (hrun : run false (lift base .start) (some '/') s = .ok whole) (hclosed : whole.choices = []) :
    ∃ found, run false .start none s = .ok found ∧ found.choices = [] ∧
      whole.tokens = found.tokens ++ base ∧ (found.tokens = [] → s = []) ∧
      found.tokens.reverse ≠ [.leading] := by
  rw [run_start_lift hbase h] at hrun
  obtain ⟨found, hfound, rfl⟩ := map_eq_ok.1 hrun
  have hchoices := choices_of_lift hclosed
  refine ⟨found, hfound, hchoices, tokens_lift hchoices, fun htokens => ?_, fun htokens => ?_⟩
  · cases s with
    | nil => rfl
    | cons c rest =>
      rw [run_cons] at hfound
      obtain ⟨next, hnext, hrest⟩ := bind_eq_ok.1 hfound
      exact absurd htokens (settled_run (step_leaves hnext).2 hrest hchoices)
  · refine not_led_run_start h hfound ?_
    rw [State.Led, hchoices, List.reverse_eq_iff.1 htokens]
    rfl

/-- What is read behind a component `**`. -/
theorem beneath_stars (root : List Token) {s : List Char} {whole : State}
    (hrun : run false (lift (.between :: root) .start) (some '/') s = .ok whole)
    (hclosed : whole.choices = []) :
    ∃ found, run false (lift [.leading] .start) (some '/') s = .ok found ∧ found.choices = [] ∧
      Beneath root.reverse ('*' :: '*' :: '/' :: s) found.tokens.reverse whole.tokens.reverse := by
  obtain ⟨bound, hbound⟩ : ∃ bound, s.length ≤ bound := ⟨_, Nat.le_refl _⟩
  induction bound generalizing s with
  | zero =>
    obtain rfl := List.length_eq_zero_iff.1 (Nat.le_zero.1 hbound)
    obtain rfl := Except.ok.inj hrun
    refine ⟨_, rfl, rfl, ?_⟩
    have hbetween : Beneath root.reverse ['*', '*', '/'] [.leading] (root.reverse ++ [.between]) :=
      .between [] fun _ => rfl
    simpa [lift, State.start] using hbetween
  | succ bound ih =>
    cases hs : startsComponents s with
    | false =>
      obtain ⟨found, hfound, hchoices, htokens, hnil, -⟩ :=
        exists_run_start (List.cons_ne_nil .between root) hs hrun hclosed
      refine ⟨lift [.leading] found, ?_, choices_lift hchoices, ?_⟩
      · rw [run_start_lift (List.cons_ne_nil _ _) hs, hfound, ok_map]
      · rw [tokens_lift hchoices, htokens]
        simp only [List.reverse_append, List.reverse_cons, List.reverse_nil, List.nil_append,
          List.append_assoc, List.singleton_append]
        refine .between _ fun hempty => ?_
        rw [hnil (List.reverse_eq_nil_iff.1 hempty)]
        rfl
    | true =>
      obtain rfl | ⟨rest, rfl⟩ := startsComponents_cases hs
      · rw [lift_start, run_trailing (List.cons_ne_nil _ _)] at hrun
        obtain rfl := Except.ok.inj hrun
        refine ⟨_, run_trailing (List.cons_ne_nil _ _), rfl, ?_⟩
        have htrailing : Beneath root.reverse ['*', '*', '/', '*', '*'] [.leading]
            (root.reverse ++ [.trailing]) := .trailing
        simpa [State.start, State.replaceSlash] using htrailing
      · rw [lift_start, run_between (List.cons_ne_nil _ _)] at hrun
        obtain ⟨found, hfound, hchoices, hbeneath⟩ := ih hrun (by simp at hbound; omega)
        refine ⟨found, ?_, hchoices, hbeneath.mono fun hstars => ?_⟩
        · exact (run_between (List.cons_ne_nil _ _) rest).trans hfound
        · rw [onlyStars, hstars, Bool.or_true]

/-- What is read behind a slash, and what is read of the same text at the start. -/
theorem beneath_slash (root : List Token) {s : List Char} {whole : State}
    (hrun : run false (lift (.literal '/' :: root) .start) (some '/') s = .ok whole)
    (hclosed : whole.choices = []) :
    ∃ found, run false .start none s = .ok found ∧ found.choices = [] ∧
      Beneath root.reverse s found.tokens.reverse whole.tokens.reverse := by
  cases hs : startsComponents s with
  | false =>
    obtain ⟨found, hfound, hchoices, htokens, -, hplain⟩ :=
      exists_run_start (List.cons_ne_nil _ _) hs hrun hclosed
    refine ⟨found, hfound, hchoices, ?_⟩
    rw [htokens, List.reverse_append, List.reverse_cons, List.append_assoc]
    exact .slash _ hplain
  | true =>
    obtain rfl | ⟨rest, rfl⟩ := startsComponents_cases hs
    · rw [lift_start, run_trailing (List.cons_ne_nil _ _)] at hrun
      obtain rfl := Except.ok.inj hrun
      refine ⟨_, run_leading_end, rfl, ?_⟩
      have htrailing : Beneath root.reverse ['*', '*'] [.leading] (root.reverse ++ [.trailing]) :=
        .trailing
      simpa [lift_start, State.replaceSlash] using htrailing
    · rw [lift_start, run_between (List.cons_ne_nil _ _)] at hrun
      rw [run_leading]
      exact beneath_stars root hrun hclosed

/-- A character that has a meaning of its own neither in a glob's root nor before an escape. -/
theorem step_plain {c : Char} (hspecial : Pattern.isSpecial c = false) (hescape : c ≠ '\\')
    {tokens : List Token} {previous : Option Char} {s : List Char} {next : Progress}
    (h : step false ⟨tokens, [], false⟩ previous c s = .ok next) :
    next = ⟨⟨.literal c :: tokens, [], false⟩, some c, s⟩ := by
  simp only [Pattern.isSpecial, Bool.or_eq_false_iff, beq_eq_false_iff_ne] at hspecial
  obtain ⟨⟨⟨hstar, hany⟩, hclass⟩, hopen⟩ := hspecial
  simp only [step, hstar, hany, hclass, hopen, hescape, if_false, false_and] at h
  split at h
  · cases h
  split at h
  · next hcomma => exact (Except.ok.inj h).symm.trans (hcomma ▸ rfl)
  · exact (Except.ok.inj h).symm

/-- What precedes a slash without special characters is read as single characters, and the slash
as one too, even where a backslash stands before it. -/
theorem run_root {before : List Char} (hplain : ∀ c ∈ before, Pattern.isSpecial c = false)
    {tokens : List Token} {previous : Option Char} {s : List Char} {whole : State}
    (hrun : run false ⟨tokens, [], false⟩ previous (before ++ '/' :: s) = .ok whole) :
    ∃ root, run false (lift (.literal '/' :: (root ++ tokens)) .start) (some '/') s = .ok whole ∧
      ('\\' ∉ before → root = (before.map .literal).reverse) := by
  obtain ⟨bound, hbound⟩ : ∃ bound, before.length ≤ bound := ⟨_, Nat.le_refl _⟩
  induction bound generalizing before tokens previous with
  | zero =>
    obtain rfl := List.length_eq_zero_iff.1 (Nat.le_zero.1 hbound)
    exact ⟨[], hrun, fun _ => rfl⟩
  | succ bound ih =>
    cases before with
    | nil => exact ⟨[], hrun, fun _ => rfl⟩
    | cons c rest =>
      simp only [List.length_cons, Nat.add_le_add_iff_right] at hbound
      obtain ⟨hc, hrest⟩ := List.forall_mem_cons.1 hplain
      rw [List.cons_append, run_cons] at hrun
      by_cases hescape : c = '\\'
      · subst hescape
        cases rest with
        | nil => exact ⟨[], hrun, fun hnot => absurd (List.mem_cons_self) hnot⟩
        | cons d after =>
          obtain ⟨root, hroot, -⟩ := ih (List.forall_mem_cons.1 hrest).2 hrun
            (Nat.le_of_succ_le hbound)
          refine ⟨root ++ [.literal d], ?_, fun hnot => absurd (List.mem_cons_self) hnot⟩
          rwa [List.append_assoc, List.singleton_append]
      · obtain ⟨next, hnext, hafter⟩ := bind_eq_ok.1 hrun
        obtain rfl := step_plain hc hescape hnext
        obtain ⟨root, hroot, hread⟩ := ih hrest hafter hbound
        refine ⟨root ++ [.literal c], ?_, fun hnot => ?_⟩
        · rwa [List.append_assoc, List.singleton_append]
        · rw [hread fun hmem => hnot (List.mem_cons_of_mem c hmem), List.map_cons,
            List.reverse_cons]

/-- What follows the last slash before the special characters of a glob compiles if the glob
does. -/
theorem compileChars_below {before s : List Char}
    (hplain : ∀ c ∈ before, Pattern.isSpecial c = false) {whole : Compiled}
    (h : compileChars false (before ++ '/' :: s) = .ok whole) :
    ∃ found root, compileChars false s = .ok found ∧ Beneath root s found.tokens whole.tokens ∧
      ('\\' ∉ before → root = before.map .literal) := by
  obtain ⟨state, hrun, hclosed, rfl⟩ := compileChars_eq_ok.1 h
  obtain ⟨root, hroot, hread⟩ := run_root hplain hrun
  rw [List.append_nil] at hroot
  obtain ⟨found, hfound, hchoices, hbeneath⟩ := beneath_slash root hroot hclosed
  refine ⟨⟨found.tokens.reverse⟩, root.reverse, compileChars_eq_ok.2 ⟨found, hfound, hchoices, rfl⟩,
    hbeneath, fun hnot => ?_⟩
  rw [hread hnot, List.reverse_reverse]

end CssBuild.Glob

namespace CssBuild.Pattern

open Glob

/-! ## Roots of patterns -/

theorem cutLastSlash?_eq_some {s before after : List Char}
    (h : cutLastSlash? s = some (before, after)) : s = before ++ '/' :: after := by
  induction s generalizing before with
  | nil => cases h
  | cons c rest ih =>
    rw [cutLastSlash?] at h
    split at h
    · next hrest =>
      cases h
      rw [ih hrest, List.cons_append]
    · split at h
      · next hc =>
        cases h
        rw [hc, List.nil_append]
      · cases h

/-- A glob is its own tail, or it is cut at a slash with no special character before it. -/
theorem splitChars_cases (s : List Char) :
    splitChars s = ([], s) ∨ ∃ before below, s = before ++ '/' :: below ∧
      (∀ c ∈ before, isSpecial c = false) ∧
      splitChars s = (if before = [] then ['/'] else before, below) := by
  have htake := List.takeWhile_append_dropWhile (p := fun c => !isSpecial c) (l := s)
  have hplain : ∀ c ∈ s.takeWhile fun c => !isSpecial c, isSpecial c = false := fun c hc => by
    simpa using List.mem_takeWhile_imp hc
  simp only [splitChars]
  cases hcut : cutLastSlash? (s.takeWhile fun c => !isSpecial c) with
  | none => exact .inl rfl
  | some cut =>
    obtain ⟨before, after⟩ := cut
    have hs := cutLastSlash?_eq_some hcut
    refine .inr ⟨before, after ++ s.dropWhile fun c => !isSpecial c, ?_, fun c hc => ?_, ?_⟩
    · rw [← List.cons_append, ← List.append_assoc, ← hs, htake]
    · exact hplain c (hs ▸ List.mem_append_left _ hc)
    · cases before <;> rfl

/-- The tail of a pattern that compiles: the whole of it, or what stands beneath its root. -/
theorem compileTail_cases {p : Pattern} {whole : Compiled} (h : p.compile = .ok whole) :
    (p.root = "" ∧ p.tail = p.globText ∧ p.compileTail = .ok whole) ∨
      ∃ before root found, p.globChars = before ++ '/' :: p.tail.toList ∧
        p.root.toList = (if before = [] then ['/'] else before) ∧
        p.compileTail = .ok found ∧ Beneath root p.tail.toList found.tokens whole.tokens ∧
        ('\\' ∉ before → root = before.map .literal) := by
  simp only [compile, compileTail, Glob.compile, globText, root, tail, String.toList_ofList] at h ⊢
  obtain hall | ⟨before, below, hs, hplain, hcut⟩ := splitChars_cases p.globChars
  · rw [hall]
    exact .inl ⟨rfl, rfl, h⟩
  · rw [hs] at h
    obtain ⟨found, root, hfound, hbeneath, hread⟩ := compileChars_below hplain h
    rw [hcut]
    exact .inr ⟨before, root, found, hs, rfl, hfound, hbeneath, hread⟩

/-- The tail of a pattern compiles if the pattern does. -/
theorem compileTail_of_compile {p : Pattern} {whole : Compiled} (h : p.compile = .ok whole) :
    ∃ found, p.compileTail = .ok found := by
  obtain ⟨-, -, hwhole⟩ | ⟨-, -, found, -, -, hfound, -⟩ := compileTail_cases h
  · exact ⟨whole, hwhole⟩
  · exact ⟨found, hfound⟩

end CssBuild.Pattern
