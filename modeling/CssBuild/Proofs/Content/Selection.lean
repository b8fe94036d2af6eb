import CssBuild.Proofs.Content.Listing
import CssBuild.Proofs.Content.Planning
import CssBuild.Proofs.Content.Sorting

/-!
# CssBuild.Proofs.Content.Selection

What a single pattern of a list selects.

1. Hits carry the number of their pattern, and a pattern joins the group of its
   root without touching the hits of any other number (`listedBy_addInclude`).
2. So the hits of a number are what its pattern selects on its own, where roots
   that are grouped are walked alike (`listedBy_hits`). Counts, files and
   warnings follow from that.
-/

namespace CssBuild.Resolution

variable (fs : FileSystem) (base : Path) (excluded : List Glob.Compiled)

/-- The files below a root that a glob selects, as they are listed. -/
def selected (root : Path) (glob : Glob.Compiled) : List Path :=
  (fs.walk root).flatMap fun below =>
    let listed := listedPath base root below
    if excluded.any fun other => other.matches listed.text then []
    else if glob.matches (belowText below) then [listed] else []

variable {fs base excluded} in
theorem mem_selected {root path : Path} {glob : Glob.Compiled} :
    path ∈ selected fs base excluded root glob ↔
      ∃ below ∈ fs.walk root, listedPath base root below = path ∧
        (excluded.any fun other => other.matches path.text) = false ∧
        glob.matches (belowText below) = true := by
  rw [selected, List.mem_flatMap]
  refine exists_congr fun below => and_congr_right fun _ => ?_
  simp only
  split
  · next h =>
    simp only [List.not_mem_nil, false_iff, not_and]
    rintro rfl hnone
    rw [h] at hnone
    cases hnone
  · next h =>
    split
    · next hmatches =>
      rw [List.mem_singleton]
      constructor
      · rintro rfl
        exact ⟨rfl, Bool.eq_false_iff.2 h, hmatches⟩
      · rintro ⟨rfl, -⟩
        rfl
    · next hmatches => simp [hmatches]

/-- The files that a pattern selects: none, if it excludes. -/
def selectedBy (p : Pattern) : List Path :=
  if p.isExclusion then [] else selected fs base excluded (rootPath base p) p.tailGlob

variable {fs base excluded} in
theorem mem_selectedBy {p : Pattern} {path : Path} :
    path ∈ selectedBy fs base excluded p ↔
      p.isExclusion = false ∧ path ∈ selected fs base excluded (rootPath base p) p.tailGlob := by
  rw [selectedBy]
  cases p.isExclusion <;> simp

/-- What the hits of a number are listed as. -/
def listedBy (number : Nat) (hits : List Hit) : List Path :=
  (hits.filter fun hit => hit.number == number).map Hit.listed

theorem listedBy_append (number : Nat) (hits more : List Hit) :
    listedBy number (hits ++ more) = listedBy number hits ++ listedBy number more := by
  simp [listedBy]

/-! ## Groups -/

/-- The hits of the groups of patterns. -/
def groupHits (roots : List Root) : List Hit := roots.flatMap (rootHits fs base excluded)

variable {fs base excluded}

/-- The patterns of a group with a number. -/
def numbered (number : Nat) (root : Root) : List (Nat × Glob.Compiled) :=
  root.includes.filter fun pattern => pattern.1 == number

theorem numbered_eq_nil {number : Nat} {root : Root}
    (h : ∀ pattern ∈ root.includes, pattern.1 ≠ number) : numbered number root = [] := by
  simpa [numbered, List.filter_eq_nil_iff] using h

theorem listedBy_groupHits_cons (number : Nat) (root : Root) (rest : List Root) :
    listedBy number (groupHits fs base excluded (root :: rest)) =
      listedBy number (rootHits fs base excluded root) ++
        listedBy number (groupHits fs base excluded rest) := by
  rw [groupHits, List.flatMap_cons, listedBy_append]
  rfl

/-- Of a group, only the patterns with a number make hits of that number. -/
theorem listedBy_rootHits (number : Nat) (root : Root) :
    listedBy number (rootHits fs base excluded root) =
      (fs.walk root.path).flatMap fun below =>
        let listed := listedPath base root.path below
        if excluded.any fun other => other.matches listed.text then []
        else ((numbered number root).filter fun pattern =>
          pattern.2.matches (belowText below)).map fun _ => listed := by
  rw [rootHits, listedBy]
  induction fs.walk root.path with
  | nil => rfl
  | cons below rest ih =>
    rw [List.flatMap_cons, List.filter_append, List.map_append, ih, List.flatMap_cons]
    congr 1
    simp only
    split
    · rfl
    · rw [List.filter_map, List.map_map, numbered, List.filter_filter, List.filter_filter]
      simp only [Function.comp_def, Bool.and_comm]

theorem listedBy_rootHits_of_nil {number : Nat} {root : Root} (h : numbered number root = []) :
    listedBy number (rootHits fs base excluded root) = [] := by
  rw [listedBy_rootHits, h]
  simp

theorem listedBy_rootHits_of_single {number : Nat} {root : Root} {glob : Glob.Compiled}
    (h : numbered number root = [(number, glob)]) :
    listedBy number (rootHits fs base excluded root) = selected fs base excluded root.path glob := by
  rw [listedBy_rootHits, h, selected]
  refine List.flatMap_congr fun below _ => ?_
  simp only [List.filter_cons, List.filter_nil]
  split
  · rfl
  · split <;> rfl

theorem listedBy_groupHits_of_new {number : Nat} {roots : List Root}
    (h : ∀ root ∈ roots, ∀ pattern ∈ root.includes, pattern.1 ≠ number) :
    listedBy number (groupHits fs base excluded roots) = [] := by
  induction roots with
  | nil => rfl
  | cons root rest ih =>
    obtain ⟨hroot, hrest⟩ := List.forall_mem_cons.1 h
    rw [listedBy_groupHits_cons, listedBy_rootHits_of_nil (numbered_eq_nil hroot), ih hrest]
    rfl

/-- A pattern that joins the groups leaves the hits of other numbers as they are. -/
theorem listedBy_addInclude_of_ne {number other : Nat} (h : other ≠ number) (path : Path)
    (glob : Glob.Compiled) (roots : List Root) :
    listedBy number (groupHits fs base excluded (addInclude path other glob roots)) =
      listedBy number (groupHits fs base excluded roots) := by
  have hnew : numbered number ⟨path, [(other, glob)]⟩ = [] := numbered_eq_nil (by simpa using h)
  induction roots with
  | nil => rw [addInclude, listedBy_groupHits_cons, listedBy_rootHits_of_nil hnew, List.nil_append]
  | cons root rest ih =>
    rw [addInclude]
    split
    · have hsame : numbered number ⟨root.path, root.includes ++ [(other, glob)]⟩ =
          numbered number root := by
        simp [numbered, h]
      rw [listedBy_groupHits_cons, listedBy_groupHits_cons, listedBy_rootHits, listedBy_rootHits,
        hsame]
    · split
      · rw [listedBy_groupHits_cons, listedBy_rootHits_of_nil hnew, List.nil_append]
      · rw [listedBy_groupHits_cons, listedBy_groupHits_cons, ih]

/-- A pattern that joins the groups makes the hits of its number. -/
theorem listedBy_addInclude {number : Nat} {path : Path} {glob : Glob.Compiled} {roots : List Root}
    (hnew : ∀ root ∈ roots, ∀ pattern ∈ root.includes, pattern.1 ≠ number)
    (hsame : ∀ root ∈ roots, path.same root.path = true →
      selected fs base excluded root.path glob = selected fs base excluded path glob) :
    listedBy number (groupHits fs base excluded (addInclude path number glob roots)) =
      selected fs base excluded path glob := by
  have hsingle : numbered number ⟨path, [(number, glob)]⟩ = [(number, glob)] := by
    simp [numbered]
  induction roots with
  | nil =>
    rw [addInclude, listedBy_groupHits_cons, listedBy_rootHits_of_single hsingle]
    exact List.append_nil _
  | cons root rest ih =>
    obtain ⟨hroot, hrest⟩ := List.forall_mem_cons.1 hnew
    obtain ⟨hrootSame, hrestSame⟩ := List.forall_mem_cons.1 hsame
    rw [addInclude]
    split
    · next hpath =>
      have hjoined : numbered number ⟨root.path, root.includes ++ [(number, glob)]⟩ =
          [(number, glob)] := by
        rw [numbered, List.filter_append, ← numbered.eq_def number root, numbered_eq_nil hroot]
        simp
      rw [listedBy_groupHits_cons, listedBy_rootHits_of_single hjoined,
        listedBy_groupHits_of_new hrest, List.append_nil, hrootSame hpath]
    · split
      · rw [listedBy_groupHits_cons, listedBy_rootHits_of_single hsingle,
          listedBy_groupHits_of_new hnew, List.append_nil]
      · rw [listedBy_groupHits_cons, listedBy_rootHits_of_nil (numbered_eq_nil hroot),
          List.nil_append, ih hrest hrestSame]

/-! ## All patterns of a list -/

/-- Whether roots of one path among patterns are walked and listed alike. -/
def Alike (fs : FileSystem) (base : Path) (excluded : List Glob.Compiled)
    (patterns : List Pattern) : Prop :=
  ∀ p ∈ inclusions patterns, ∀ q ∈ inclusions patterns,
    (rootPath base p).components = (rootPath base q).components → ∀ glob,
      selected fs base excluded (rootPath base p) glob =
        selected fs base excluded (rootPath base q) glob

/-- What holds of groups with patterns of a list before a number. -/
structure Groups (base : Path) (patterns : List Pattern) (number : Nat) (roots : List Root) :
    Prop where
  rooted : ∀ root ∈ roots, ∃ p ∈ inclusions patterns, root.path = rootPath base p
  earlier : ∀ root ∈ roots, ∀ pattern ∈ root.includes, pattern.1 < number

section Groups

variable {all patterns : List Pattern} {number : Nat} {roots : List Root}

theorem mem_addInclude {path : Path} {glob : Glob.Compiled} {root : Root}
    (h : root ∈ addInclude path number glob roots) :
    root = ⟨path, [(number, glob)]⟩ ∨ root ∈ roots ∨
      ∃ old ∈ roots, root = ⟨old.path, old.includes ++ [(number, glob)]⟩ := by
  induction roots with
  | nil => exact .inl (List.mem_singleton.1 h)
  | cons first rest ih =>
    rw [addInclude] at h
    split at h
    · obtain h | h := List.mem_cons.1 h
      · exact .inr (.inr ⟨first, List.mem_cons_self, h⟩)
      · exact .inr (.inl (List.mem_cons_of_mem _ h))
    · split at h
      · exact (List.mem_cons.1 h).imp_right .inl
      · obtain rfl | h := List.mem_cons.1 h
        · exact .inr (.inl List.mem_cons_self)
        · obtain h | h | ⟨old, hold, h⟩ := ih h
          · exact .inl h
          · exact .inr (.inl (List.mem_cons_of_mem _ h))
          · exact .inr (.inr ⟨old, List.mem_cons_of_mem _ hold, h⟩)

theorem Groups.skip (h : Groups base all number roots) : Groups base all (number + 1) roots :=
  ⟨h.rooted, fun root hroot pattern hpattern =>
    Nat.lt_succ_of_lt (h.earlier root hroot pattern hpattern)⟩

theorem Groups.addInclude (h : Groups base all number roots) {p : Pattern}
    (hp : p ∈ inclusions all) (glob : Glob.Compiled) :
    Groups base all (number + 1) (addInclude (rootPath base p) number glob roots) := by
  constructor
  · intro root hroot
    obtain rfl | hroot | ⟨old, hold, rfl⟩ := mem_addInclude hroot
    · exact ⟨p, hp, rfl⟩
    · exact h.rooted root hroot
    · exact h.rooted old hold
  · intro root hroot pattern hpattern
    obtain rfl | hroot | ⟨old, hold, rfl⟩ := mem_addInclude hroot
    · rw [List.mem_singleton.1 hpattern]
      exact Nat.lt_succ_self _
    · exact h.skip.earlier root hroot pattern hpattern
    · obtain hpattern | hpattern := List.mem_append.1 hpattern
      · exact h.skip.earlier old hold pattern hpattern
      · rw [List.mem_singleton.1 hpattern]
        exact Nat.lt_succ_self _

theorem mem_inclusions {p : Pattern} :
    p ∈ inclusions patterns ↔ p ∈ patterns ∧ p.isExclusion = false := by
  simp [inclusions]

/-- The groups of a list are rooted where its inclusions are. -/
theorem Groups.grouped (h : Groups base all number roots) (hall : ∀ p ∈ patterns, p ∈ all) :
    Groups base all (number + patterns.length) (grouped base number roots patterns) := by
  induction patterns generalizing number roots with
  | nil => exact h
  | cons p rest ih =>
    obtain ⟨hp, hrest⟩ := List.forall_mem_cons.1 hall
    rw [Resolution.grouped, List.length_cons, Nat.add_comm rest.length, ← Nat.add_assoc]
    split
    · exact ih h.skip hrest
    · next hinclusion =>
      exact ih (h.addInclude (mem_inclusions.2 ⟨hp, Bool.eq_false_iff.2 hinclusion⟩) _) hrest

theorem Groups.listedBy_eq_nil (h : Groups base all number roots) {later : Nat}
    (hlater : number ≤ later) : listedBy later (groupHits fs base excluded roots) = [] :=
  listedBy_groupHits_of_new fun root hroot pattern hpattern =>
    Nat.ne_of_lt (Nat.lt_of_lt_of_le (h.earlier root hroot pattern hpattern) hlater)

/-- Going on with patterns leaves the hits of earlier numbers. -/
theorem listedBy_grouped_of_lt {n : Nat} (hn : n < number) :
    listedBy n (groupHits fs base excluded (Resolution.grouped base number roots patterns)) =
      listedBy n (groupHits fs base excluded roots) := by
  induction patterns generalizing number roots with
  | nil => rfl
  | cons p rest ih =>
    rw [Resolution.grouped]
    split
    · exact ih (Nat.lt_succ_of_lt hn)
    · rw [ih (Nat.lt_succ_of_lt hn), listedBy_addInclude_of_ne (Nat.ne_of_gt hn)]

/-- Each of the patterns that join the groups makes the hits that it makes on its own. -/
theorem Groups.listedBy_grouped (halike : Alike fs base excluded all)
    (h : Groups base all number roots) (hall : ∀ p ∈ patterns, p ∈ all) (k : Nat) :
    listedBy (number + k)
        (groupHits fs base excluded (Resolution.grouped base number roots patterns)) =
      (patterns[k]?).elim [] (selectedBy fs base excluded) := by
  induction patterns generalizing number roots k with
  | nil => exact h.listedBy_eq_nil (Nat.le_add_right _ _)
  | cons p rest ih =>
    obtain ⟨hp, hrest⟩ := List.forall_mem_cons.1 hall
    rw [Resolution.grouped]
    cases hexclusion : p.isExclusion with
    | true =>
      cases k with
      | zero =>
        rw [if_pos rfl, Nat.add_zero, listedBy_grouped_of_lt (Nat.lt_succ_self _),
          h.listedBy_eq_nil (Nat.le_refl _)]
        simp [selectedBy, hexclusion]
      | succ k =>
        rw [if_pos rfl, List.getElem?_cons_succ, ← Nat.add_assoc, Nat.add_right_comm,
          ih h.skip hrest]
    | false =>
      have hinclusion : p ∈ inclusions all := mem_inclusions.2 ⟨hp, hexclusion⟩
      rw [if_neg Bool.false_ne_true]
      cases k with
      | zero =>
        rw [listedBy_grouped_of_lt (Nat.lt_succ_self _), Nat.add_zero, listedBy_addInclude]
        · simp [selectedBy, hexclusion]
        · exact fun root hroot pattern hpattern =>
            Nat.ne_of_lt (h.earlier root hroot pattern hpattern)
        · intro root hroot hsame
          obtain ⟨q, hq, hpath⟩ := h.rooted root hroot
          rw [hpath] at hsame ⊢
          exact (halike p hinclusion q hq (beq_iff_eq.1 hsame) p.tailGlob).symm
      | succ k =>
        rw [List.getElem?_cons_succ, ← Nat.add_assoc, Nat.add_right_comm,
          ih (h.addInclude hinclusion _) hrest]

theorem groups_nil (base : Path) (all : List Pattern) : Groups base all 0 [] :=
  ⟨fun _ hroot => absurd hroot List.not_mem_nil, fun _ hroot => absurd hroot List.not_mem_nil⟩

end Groups

/-! ## Hits, counts and files -/

section Hits

variable {patterns : List Pattern}

/-- The globs of the exclusions of patterns. -/
def excludedBy (patterns : List Pattern) : List Glob.Compiled :=
  (exclusions patterns).map Pattern.glob

variable (halike : Alike fs base (excludedBy patterns) patterns)
include halike

/-- The hits of a number are what the pattern of that number selects on its own. -/
theorem listedBy_hits (n : Nat) :
    listedBy n (hits fs base patterns) =
      (patterns[n]?).elim [] (selectedBy fs base (excludedBy patterns)) := by
  have hgrouped := (groups_nil base patterns).listedBy_grouped halike (fun _ hp => hp) n
  rwa [Nat.zero_add] at hgrouped

/-- The hits are listed as what the patterns select. -/
theorem exists_hit_iff {path : Path} :
    (∃ hit ∈ hits fs base patterns, hit.listed = path) ↔
      ∃ p ∈ patterns, path ∈ selectedBy fs base (excludedBy patterns) p := by
  have hmem (n : Nat) : path ∈ listedBy n (hits fs base patterns) ↔
      ∃ hit ∈ hits fs base patterns, hit.number = n ∧ hit.listed = path := by
    simp [listedBy, and_assoc]
  constructor
  · rintro ⟨hit, hhit, hlisted⟩
    have hpath := (hmem hit.number).2 ⟨hit, hhit, rfl, hlisted⟩
    rw [listedBy_hits halike] at hpath
    cases hp : patterns[hit.number]? with
    | none =>
      rw [hp] at hpath
      cases hpath
    | some p =>
      rw [hp] at hpath
      exact ⟨p, List.mem_of_getElem? hp, hpath⟩
  · rintro ⟨p, hp, hpath⟩
    obtain ⟨n, hn⟩ := List.mem_iff_getElem?.1 hp
    have hlisted : path ∈ listedBy n (hits fs base patterns) := by
      rw [listedBy_hits halike, hn]
      exact hpath
    obtain ⟨hit, hhit, -, hsame⟩ := (hmem n).1 hlisted
    exact ⟨hit, hhit, hsame⟩

end Hits

end CssBuild.Resolution
