import CssBuild.Content.Resolution
import CssBuild.Proofs.Config.Validity
import CssBuild.Proofs.Glob.Cutting

/-!
# CssBuild.Proofs.Content.Planning

Resolving patterns that are globs.

1. A pattern that compiles has a tail that compiles, so there is a plan for any
   patterns that compile (`plan_eq`), and from a directory they are resolved
   (`resolveContent_eq`). Nothing else is (`resolveContent_eq_ok`).
2. The patterns of a configuration that has been checked are such patterns.
-/

namespace CssBuild

namespace Pattern

/-- The glob of a pattern that compiles. -/
def glob (p : Pattern) : Glob.Compiled := p.compile.toOption.getD ⟨[]⟩

/-- The glob below the root of a pattern that compiles. -/
def tailGlob (p : Pattern) : Glob.Compiled := p.compileTail.toOption.getD ⟨[]⟩

/-- Whether a pattern is a glob. -/
def Compiles (p : Pattern) : Prop := ∃ whole, p.compile = .ok whole

variable {p : Pattern}

theorem compile_eq (h : p.Compiles) : p.compile = .ok p.glob := by
  obtain ⟨whole, hwhole⟩ := h
  rw [glob, hwhole]
  rfl

theorem compileTail_eq (h : p.Compiles) : p.compileTail = .ok p.tailGlob := by
  obtain ⟨whole, hwhole⟩ := h
  obtain ⟨found, hfound⟩ := compileTail_of_compile hwhole
  rw [tailGlob, hfound]
  rfl

end Pattern

namespace Resolution

/-! ## Plans -/

/-- The inclusions among patterns. -/
def inclusions (patterns : List Pattern) : List Pattern := patterns.filter fun p => !p.isExclusion

/-- The exclusions among patterns. -/
def exclusions (patterns : List Pattern) : List Pattern := patterns.filter Pattern.isExclusion

/-- The roots with the inclusions among patterns from some number on. -/
def grouped (base : Path) (number : Nat) (roots : List Root) : List Pattern → List Root
  | [] => roots
  | p :: rest =>
    if p.isExclusion then grouped base (number + 1) roots rest
    else grouped base (number + 1) (addInclude (rootPath base p) number p.tailGlob roots) rest

/-- There is a plan for any patterns that compile. -/
theorem plan_eq (base : Path) (number : Nat) (found : Plan) {patterns : List Pattern}
    (h : ∀ p ∈ patterns, p.Compiles) :
    plan base number found patterns = .ok ⟨grouped base number found.roots patterns,
      found.exclusions ++ (exclusions patterns).map Pattern.glob⟩ := by
  induction patterns generalizing number found with
  | nil => simp [plan, grouped, exclusions]
  | cons p rest ih =>
    obtain ⟨hp, hrest⟩ := List.forall_mem_cons.1 h
    rw [plan, Pattern.compile_eq hp, Pattern.compileTail_eq hp]
    cases hexclusion : p.isExclusion with
    | true =>
      simp [compiled, Except.mapError, ih _ _ hrest, grouped, exclusions, hexclusion]
    | false =>
      simp [compiled, Except.mapError, ih _ _ hrest, grouped, exclusions, hexclusion]

/-- Only patterns that compile have a plan. -/
theorem compiles_of_plan {base : Path} {number : Nat} {found planned : Plan}
    {patterns : List Pattern} (h : plan base number found patterns = .ok planned) :
    ∀ p ∈ patterns, p.Compiles := by
  induction patterns generalizing number found with
  | nil => simp
  | cons p rest ih =>
    rw [plan, bind_eq_ok] at h
    obtain ⟨whole, hwhole, h⟩ := h
    refine List.forall_mem_cons.2 ⟨⟨whole, mapError_eq_ok.1 hwhole⟩, ?_⟩
    split at h
    · exact ih h
    · obtain ⟨tail, -, h⟩ := bind_eq_ok.1 h
      exact ih h

/-! ## Resolutions -/

/-- All hits of patterns. -/
def hits (fs : FileSystem) (base : Path) (patterns : List Pattern) : List Hit :=
  (grouped base 0 [] patterns).flatMap
    (rootHits fs base ((exclusions patterns).map Pattern.glob))

/-- What patterns that compile are resolved to. -/
def resolved (fs : FileSystem) (base : Path) (patterns : List Pattern) : Resolution :=
  let counts := countsFrom (hits fs base patterns) 0 patterns
  ⟨base, listedFiles (hits fs base patterns), counts, unmatched counts⟩

end Resolution

open Resolution

/-- Patterns that compile are resolved from any directory. -/
theorem resolveContent_eq {fs : FileSystem} {base : Path} (hbase : fs.isDirectory base = true)
    {patterns : List Pattern} (h : ∀ p ∈ patterns, p.Compiles) :
    resolveContent fs base patterns = .ok (resolved fs base patterns) := by
  rw [resolveContent, hbase, plan_eq base 0 ⟨[], []⟩ h]
  rfl

/-- What is resolved are patterns that compile, from a directory. -/
theorem resolveContent_eq_ok {fs : FileSystem} {base : Path} {patterns : List Pattern}
    {resolution : Resolution} :
    resolveContent fs base patterns = .ok resolution ↔ fs.isDirectory base = true ∧
      (∀ p ∈ patterns, p.Compiles) ∧ resolved fs base patterns = resolution := by
  constructor
  · intro h
    have hbase : fs.isDirectory base = true := by
      by_contra hbase
      rw [resolveContent, Bool.eq_false_iff.2 hbase] at h
      cases h
    have hcompiles : ∀ p ∈ patterns, p.Compiles := by
      rw [resolveContent, hbase, if_neg (by decide), bind_eq_ok] at h
      obtain ⟨planned, hplanned, -⟩ := h
      exact compiles_of_plan hplanned
    exact ⟨hbase, hcompiles, Except.ok.inj ((resolveContent_eq hbase hcompiles).symm.trans h)⟩
  · rintro ⟨hbase, hcompiles, rfl⟩
    exact resolveContent_eq hbase hcompiles

/-- The patterns of a checked configuration are resolved from any directory: beneath the root of
a pattern that compiles stands a glob that compiles too. -/
theorem resolveContent_of_check {options : LoadOptions} {document : Document}
    (wellFormed : document.WellFormed) {checked : Checked Config}
    (h : Schema.check options document = .ok checked) :
    (∀ (fs : FileSystem) (base : Path), fs.isDirectory base = true →
      ∃ resolution, resolveContent fs base checked.value.patterns = .ok resolution) ∧
    ∀ (p : Pattern) (whole : Glob.Compiled), p.compile = .ok whole →
      ∃ tail, p.compileTail = .ok tail := by
  refine ⟨fun fs base hbase => ?_, fun p whole => Pattern.compileTail_of_compile⟩
  exact ⟨_, resolveContent_eq hbase (Schema.valid_of_check wellFormed h).globs⟩

/-- Patterns with an escaped slash before the cut, a class, a choice and a class of a brace. -/
theorem resolveContent_of_check_choices :
    let patterns : Json := .strings ["s\\/[a-c]/\x7bx,y/**\x7d", "!**/[\x7d]"]
    let document : Document := ⟨.object [("content", .object [("files", patterns)])], []⟩
    let fs : FileSystem := ⟨.directory [("s", .directory [])], []⟩
    ∃ checked resolution, Schema.check ⟨.refuse, true⟩ document = .ok checked ∧
      resolveContent fs ⟨"./s"⟩ checked.value.patterns = .ok resolution := by
  intro patterns document fs
  have wellFormed : document.WellFormed := by
    simp [patterns, document, Document.WellFormed, Json.strings, Json.Distinct, Json.DistinctEntries,
      Json.DistinctItems, Entries.keys]
  obtain ⟨checked, hchecked⟩ : ∃ checked, Schema.check ⟨.refuse, true⟩ document = .ok checked :=
    ⟨_, rfl⟩
  obtain ⟨hresolves, -⟩ := resolveContent_of_check wellFormed hchecked
  obtain ⟨resolution, hresolution⟩ := hresolves fs ⟨"./s"⟩ (by decide)
  exact ⟨checked, resolution, hchecked, hresolution⟩

end CssBuild
