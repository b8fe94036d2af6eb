import CssBuild.Proofs.Json.Spelling
import CssBuild.Script.Trivia

/-!
# CssBuild.Proofs.Script.Trivia

What may stand between the tokens of a module.

1. Blanks and comments in any number are trivia (`Trivia`). A comment up to the
   end of its line ends with the first character that ends a line, and a closed
   one with the first mark that closes it. Neither has a null character, which
   ends a text.
2. Trivia in front of a text are skipped (`skip_trivia`), and where a value can
   start too, unless a comment in the style of markup follows (`gap_trivia`).
-/

namespace CssBuild.Script

/-- Blanks and comments. -/
inductive Trivia : List Char → Prop where
  /-- Nothing. -/
  | nil : Trivia []
  /-- A blank comes first. -/
  | blank {c : Char} {s : List Char} (blank : isBlank c = true) (more : Trivia s) : Trivia (c :: s)
  /-- A comment up to the end of its line comes first. -/
  | line {text s : List Char} {c : Char} (noNull : '\x00' ∉ text)
    (inside : ∀ d ∈ text, isLineEnd d = false) (ends : isLineEnd c = true) (more : Trivia s) :
    Trivia ('/' :: '/' :: (text ++ c :: s))
  /-- A closed comment comes first. -/
  | block {text s : List Char} (noNull : '\x00' ∉ text) (inside : ¬['*', '/'] <:+: text)
    (more : Trivia s) : Trivia ('/' :: '*' :: (text ++ '*' :: '/' :: s))

theorem isBlank_of_json {c : Char} (h : Json.isBlank c = true) : isBlank c = true := by
  simp only [Json.isBlank, Bool.or_eq_true, beq_iff_eq] at h
  rcases h with ((rfl | rfl) | rfl) | rfl <;> rfl

theorem trivia_of_isBlanks {s : List Char} (h : Json.IsBlanks s) : Trivia s := by
  induction s with
  | nil => exact .nil
  | cons c s ih =>
    exact .blank (isBlank_of_json (h c List.mem_cons_self))
      (ih fun d hd => h d (List.mem_cons_of_mem _ hd))

/-- Before a text, trivia start with a blank or a slash. -/
theorem Trivia.head {t s : List Char} (h : Trivia t) {c : Char} (hc : (t ++ s).head? = some c) :
    isBlank c = true ∨ c = '/' ∨ s.head? = some c := by
  cases h with
  | nil => exact .inr (.inr hc)
  | blank blank => exact .inl (Option.some.inj hc ▸ blank)
  | line => exact .inr (.inl (Option.some.inj hc).symm)
  | block => exact .inr (.inl (Option.some.inj hc).symm)

/-! ## Skipping -/

theorem skipFrom_blanks_cons {c : Char} (rest : List Char) (h : c ≠ '/') :
    skipFrom .blanks (c :: rest) = if isBlank c then skipFrom .blanks rest else c :: rest := by
  generalize hmore : skipFrom .blanks rest = more
  unfold skipFrom
  split
  any_goals contradiction
  · next hcons =>
    cases hcons
    exact absurd rfl h
  · next hcons =>
    cases hcons
    exact absurd rfl h
  · next hcons =>
    cases hcons
    rw [hmore]

theorem skipFrom_line_cons {c : Char} (rest : List Char) (hnull : c ≠ '\x00') :
    skipFrom .line (c :: rest) =
      if isLineEnd c then skipFrom .blanks rest else skipFrom .line rest :=
  if_neg hnull

theorem skipFrom_line {text : List Char} {c : Char} (s : List Char) (hnull : '\x00' ∉ text)
    (hinside : ∀ d ∈ text, isLineEnd d = false) (hends : isLineEnd c = true) :
    skipFrom .line (text ++ c :: s) = skipFrom .blanks s := by
  induction text with
  | nil =>
    have hc : c ≠ '\x00' := by
      rintro rfl
      cases hends
    rw [List.nil_append, skipFrom_line_cons s hc, if_pos hends]
  | cons d text ih =>
    obtain ⟨hd, hmore⟩ := List.forall_mem_cons.1 hinside
    rw [List.mem_cons, not_or] at hnull
    rw [List.cons_append, skipFrom_line_cons _ (Ne.symm hnull.1), hd, if_neg Bool.false_ne_true,
      ih hnull.2 hmore]

theorem skipFrom_block_cons {c : Char} {start rest : List Char} (hnull : c ≠ '\x00')
    (h : c = '*' → rest.head? ≠ some '/') :
    skipFrom (.block start) (c :: rest) = skipFrom (.block start) rest := by
  generalize hmore : skipFrom (.block start) rest = more
  unfold skipFrom
  split
  any_goals contradiction
  · next hcons =>
    cases hcons
    exact absurd rfl (h rfl)
  · next hkind hcons =>
    cases hcons
    cases hkind
    rw [if_neg hnull]
    exact hmore

theorem skipFrom_block {text : List Char} (start s : List Char) (hnull : '\x00' ∉ text)
    (h : ¬['*', '/'] <:+: text) :
    skipFrom (.block start) (text ++ '*' :: '/' :: s) = skipFrom .blanks s := by
  induction text with
  | nil => rfl
  | cons c text ih =>
    rw [List.mem_cons, not_or] at hnull
    rw [List.cons_append, skipFrom_block_cons (Ne.symm hnull.1),
      ih hnull.2 fun hinside => h (hinside.trans ?_)]
    · exact (List.suffix_cons c text).isInfix
    · rintro rfl hhead
      cases text with
      | nil => cases hhead
      | cons d text =>
        obtain rfl := Option.some.inj hhead
        exact h (List.prefix_append ['*', '/'] text).isInfix

/-- Trivia are skipped. -/
theorem skip_trivia {t : List Char} (h : Trivia t) (s : List Char) : skip (t ++ s) = skip s := by
  induction h with
  | nil => rfl
  | @blank c t blank _ ih =>
    have hslash : c ≠ '/' := by
      rintro rfl
      cases blank
    rw [List.cons_append, skip, skipFrom_blanks_cons _ hslash, if_pos blank]
    exact ih
  | @line text t c noNull inside ends _ ih =>
    have hstart : skip ('/' :: '/' :: (text ++ c :: (t ++ s))) =
        skipFrom .line (text ++ c :: (t ++ s)) := rfl
    rw [List.cons_append, List.cons_append, List.append_assoc, List.cons_append, hstart,
      skipFrom_line _ noNull inside ends]
    exact ih
  | @block text t noNull inside _ ih =>
    have hstart : skip ('/' :: '*' :: (text ++ '*' :: '/' :: (t ++ s))) =
        skipFrom (.block ('/' :: '*' :: (text ++ '*' :: '/' :: (t ++ s))))
          (text ++ '*' :: '/' :: (t ++ s)) := rfl
    rw [List.cons_append, List.cons_append, List.append_assoc, List.cons_append, List.cons_append,
      hstart, skipFrom_block _ _ noNull inside]
    exact ih

/-- Nothing that blanks or comments start with. -/
def Solid (s : List Char) : Prop := ∀ c, s.head? = some c → isBlank c = false ∧ c ≠ '/'

theorem solid_cons {c : Char} (h : isBlank c = false ∧ c ≠ '/') (s : List Char) :
    Solid (c :: s) := by
  intro d hd
  rwa [← Option.some.inj hd]

theorem skip_solid {s : List Char} (h : Solid s) : skip s = s := by
  cases s with
  | nil => rfl
  | cons c rest =>
    obtain ⟨hblank, hslash⟩ := h c rfl
    rw [skip, skipFrom_blanks_cons rest hslash, hblank]
    rfl

/-- Trivia are skipped where a value can start. -/
theorem gap_trivia {t s : List Char} (h : Trivia t) (hs : Solid s)
    (hmarkup : markupComment? s = none) : gap (t ++ s) = ([], s) := by
  have hskip : skip (t ++ s) = s := (skip_trivia h s).trans (skip_solid hs)
  rw [gap]
  cases (t ++ s).length with
  | zero => rw [gapFrom, hskip]
  | succ fuel => rw [gapFrom, hskip, hmarkup]

end CssBuild.Script
