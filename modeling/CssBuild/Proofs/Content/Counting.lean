import Mathlib.Algebra.GroupWithZero.Nat
import Mathlib.Algebra.Order.BigOperators.Group.List
import Mathlib.Algebra.Order.Group.Nat
import Mathlib.Data.List.Nodup
import CssBuild.Proofs.Content.Selection
import CssBuild.Proofs.Files.Reaching

/-!
# CssBuild.Proofs.Content.Counting

Numbers of hits and of files.

1. Grouping rearranges the inclusions of a list, each with its number
   (`perm_grouped`): none is lost and no number is there twice.
2. So an inclusion has no more hits than there are files in the tree, whatever
   its root has in common with others (`length_listedBy_hits_le`).
3. Every hit is counted for one of the inclusions (`length_hits_le`), and the
   files are no more than the hits (`length_listedFiles_le`).
-/

namespace CssBuild.Resolution

/-! ## Numbered inclusions -/

/-- The inclusions among patterns from some number on, each with its number. -/
def numberedFrom (number : Nat) : List Pattern → List (Nat × Pattern)
  | [] => []
  | p :: rest =>
    if p.isExclusion then numberedFrom (number + 1) rest
    else (number, p) :: numberedFrom (number + 1) rest

/-- The numbers of the inclusions among patterns from some number on. -/
def numbersFrom (number : Nat) (patterns : List Pattern) : List Nat :=
  (numberedFrom number patterns).map Prod.fst

theorem map_snd_numberedFrom (number : Nat) (patterns : List Pattern) :
    (numberedFrom number patterns).map Prod.snd = inclusions patterns := by
  induction patterns generalizing number with
  | nil => rfl
  | cons p rest ih =>
    rw [numberedFrom]
    cases hexclusion : p.isExclusion <;> simp [inclusions, hexclusion, ih (number + 1)]

theorem le_of_mem_numbersFrom {number n : Nat} {patterns : List Pattern}
    (h : n ∈ numbersFrom number patterns) : number ≤ n := by
  induction patterns generalizing number with
  | nil => cases h
  | cons p rest ih =>
    rw [numbersFrom, numberedFrom] at h
    split at h
    · exact Nat.le_of_succ_le (ih h)
    · obtain rfl | h := List.mem_cons.1 h
      · exact Nat.le_refl _
      · exact Nat.le_of_succ_le (ih h)

theorem nodup_numbersFrom (number : Nat) (patterns : List Pattern) :
    (numbersFrom number patterns).Nodup := by
  induction patterns generalizing number with
  | nil => exact List.nodup_nil
  | cons p rest ih =>
    rw [numbersFrom, numberedFrom]
    split
    · exact ih _
    · refine List.nodup_cons.2 ⟨fun h => ?_, ih _⟩
      exact Nat.not_succ_le_self _ (le_of_mem_numbersFrom h)

/-- An inclusion is counted by the hits of its number. -/
theorem countsFrom_eq_map (hits : List Hit) (number : Nat) (patterns : List Pattern) :
    countsFrom hits number patterns = (numberedFrom number patterns).map fun entry =>
      (entry.2, (listedBy entry.1 hits).length) := by
  induction patterns generalizing number with
  | nil => rfl
  | cons p rest ih =>
    rw [countsFrom, numberedFrom, ih]
    split
    · rfl
    · rw [List.map_cons, listedBy, List.length_map]

/-! ## Grouping -/

theorem perm_addInclude (path : Path) (number : Nat) (glob : Glob.Compiled) (roots : List Root) :
    ((addInclude path number glob roots).flatMap Root.includes).Perm
      ((number, glob) :: roots.flatMap Root.includes) := by
  induction roots with
  | nil => exact .refl _
  | cons root rest ih =>
    rw [addInclude]
    split
    · rw [List.flatMap_cons, List.flatMap_cons, List.append_assoc]
      exact List.perm_middle
    · split
      · exact .refl _
      · rw [List.flatMap_cons, List.flatMap_cons]
        exact (ih.append_left _).trans List.perm_middle

/-- Grouping rearranges the inclusions and their numbers. -/
theorem perm_grouped (base : Path) (number : Nat) (roots : List Root) (patterns : List Pattern) :
    ((grouped base number roots patterns).flatMap Root.includes).Perm
      (roots.flatMap Root.includes ++
        (numberedFrom number patterns).map fun entry => (entry.1, entry.2.tailGlob)) := by
  induction patterns generalizing number roots with
  | nil =>
    rw [numberedFrom, List.map_nil, List.append_nil]
    exact .refl _
  | cons p rest ih =>
    rw [grouped, numberedFrom]
    split
    · exact ih _ _
    · refine (ih _ _).trans (((perm_addInclude _ _ _ _).append_right _).trans ?_)
      exact List.perm_middle.symm

/-- The numbers in the groups of a list are those of its inclusions. -/
theorem perm_numbers (base : Path) (patterns : List Pattern) :
    (((grouped base 0 [] patterns).flatMap Root.includes).map Prod.fst).Perm
      (numbersFrom 0 patterns) := by
  have hperm := (perm_grouped base 0 [] patterns).map Prod.fst
  rwa [List.flatMap_nil, List.nil_append, List.map_map] at hperm

/-! ## Hits of a number -/

section Groups

variable {fs : FileSystem} {base : Path} {excluded : List Glob.Compiled}

theorem number_mem_of_mem_groupHits {roots : List Root} {hit : Hit}
    (h : hit ∈ groupHits fs base excluded roots) :
    hit.number ∈ (roots.flatMap Root.includes).map Prod.fst := by
  obtain ⟨root, hroot, h⟩ := List.mem_flatMap.1 h
  obtain ⟨below, -, h⟩ := List.mem_flatMap.1 h
  simp only at h
  split at h
  · cases h
  · obtain ⟨pattern, hpattern, rfl⟩ := List.mem_map.1 h
    refine List.mem_map.2 ⟨pattern, List.mem_flatMap.2 ⟨root, hroot, ?_⟩, rfl⟩
    exact (List.mem_filter.1 hpattern).1

/-- Each pattern of a root has no more hits than there are files. -/
theorem length_listedBy_rootHits_le (number : Nat) (root : Root) :
    (listedBy number (rootHits fs base excluded root)).length ≤
      (numbered number root).length * fs.root.fileCount := by
  rw [listedBy_rootHits, List.length_flatMap, Nat.mul_comm]
  refine (List.sum_le_card_nsmul _ (numbered number root).length ?_).trans ?_
  · intro n hn
    obtain ⟨below, -, rfl⟩ := List.mem_map.1 hn
    simp only
    split
    · exact Nat.zero_le _
    · rw [List.length_map]
      exact List.length_filter_le _ _
  · rw [List.length_map]
    exact Nat.mul_le_mul_right _ (fs.length_walk_le _)

theorem length_listedBy_groupHits_le (number : Nat) (roots : List Root) :
    (listedBy number (groupHits fs base excluded roots)).length ≤
      ((roots.flatMap Root.includes).map Prod.fst).count number * fs.root.fileCount := by
  induction roots with
  | nil => exact Nat.zero_le _
  | cons root rest ih =>
    have hnumbered : (numbered number root).length = (root.includes.map Prod.fst).count number := by
      rw [numbered, List.count, List.countP_map, List.countP_eq_length_filter]
      rfl
    rw [listedBy_groupHits_cons, List.length_append, List.flatMap_cons, List.map_append,
      List.count_append, Nat.add_mul, ← hnumbered]
    exact Nat.add_le_add (length_listedBy_rootHits_le number root) ih

/-- A number has no more hits than there are files in the tree. -/
theorem length_listedBy_hits_le (fs : FileSystem) (base : Path) (patterns : List Pattern)
    (number : Nat) : (listedBy number (hits fs base patterns)).length ≤ fs.root.fileCount := by
  refine (length_listedBy_groupHits_le number _).trans ?_
  rw [(perm_numbers base patterns).count_eq]
  have hcount := List.nodup_iff_count_le_one.1 (nodup_numbersFrom 0 patterns) number
  exact (Nat.mul_le_mul_right _ hcount).trans (Nat.one_mul _).le

end Groups

/-! ## All hits -/

/-- Hits are no more than those of all numbers that they have. -/
theorem length_le_sum_listedBy {hits : List Hit} {numbers : List Nat}
    (h : ∀ hit ∈ hits, hit.number ∈ numbers) :
    hits.length ≤ (numbers.map fun n => (listedBy n hits).length).sum := by
  induction hits with
  | nil => exact Nat.zero_le _
  | cons hit rest ih =>
    obtain ⟨hhit, hrest⟩ := List.forall_mem_cons.1 h
    have hcons (n : Nat) : (listedBy n (hit :: rest)).length =
        (if hit.number = n then 1 else 0) + (listedBy n rest).length := by
      simp only [listedBy, List.filter_cons, beq_iff_eq, List.length_map]
      split <;> simp [Nat.add_comm]
    have hone : 1 ≤ (numbers.map fun n => if hit.number = n then 1 else 0).sum :=
      List.le_sum_of_mem (List.mem_map.2 ⟨_, hhit, if_pos rfl⟩)
    simp only [hcons, List.sum_map_add, List.length_cons]
    rw [Nat.add_comm]
    exact Nat.add_le_add hone (ih hrest)

/-- Every hit is counted. -/
theorem length_hits_le (fs : FileSystem) (base : Path) (patterns : List Pattern) :
    (hits fs base patterns).length ≤
      ((countsFrom (hits fs base patterns) 0 patterns).map Prod.snd).sum := by
  rw [countsFrom_eq_map, List.map_map]
  have hnumbers : ∀ hit ∈ hits fs base patterns, hit.number ∈ numbersFrom 0 patterns :=
    fun hit hhit => (perm_numbers base patterns).mem_iff.1 (number_mem_of_mem_groupHits hhit)
  have hsum := length_le_sum_listedBy hnumbers
  rwa [numbersFrom, List.map_map] at hsum

theorem length_listedFiles_le (hits : List Hit) : (listedFiles hits).length ≤ hits.length := by
  have hlength : (hits.map Hit.listed).length = hits.length := List.length_map _
  rw [← hlength]
  refine (List.subperm_of_subset (sorted_listedFiles hits).nodup fun path hpath => ?_).length_le
  obtain ⟨hit, hhit, rfl⟩ := exists_hit_of_mem_listedFiles hpath
  exact List.mem_map_of_mem hhit

theorem listedFiles_eq_nil {hits : List Hit} : listedFiles hits = [] ↔ hits = [] := by
  constructor
  · intro h
    refine List.eq_nil_iff_forall_not_mem.2 fun hit hhit => ?_
    obtain ⟨path, hpath, -⟩ := exists_same_mem_listedFiles hhit
    rw [h] at hpath
    cases hpath
  · rintro rfl
    rfl

end CssBuild.Resolution
