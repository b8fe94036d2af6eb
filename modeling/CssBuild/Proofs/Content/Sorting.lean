import Mathlib.Data.Char
import Mathlib.Data.List.Lex
import Mathlib.Data.Prod.Lex
import CssBuild.Content.Resolution
import CssBuild.Proofs.Files.Paths

/-!
# CssBuild.Proofs.Content.Sorting

The files of hits, in order and once each.

1. The order of paths is that of linearly ordered keys (`lt_iff`), so adding
   paths one after the other gives a sorted list (`sorted_listedFiles`), and a
   sorted list is determined by what it holds (`Sorted.ext`).
2. Where all hits are listed canonically the list holds each of them
   (`mem_listedFiles`).
-/

namespace CssBuild.Resolution

open CssBuild.Path

/-! ## The order of paths -/

/-- A component as a key: its kind, then its name. -/
def componentKey : Component → ℕ ×ₗ List Char
  | .name text => toLex (3, text)
  | c => toLex (rank c, [])

/-- A path as a key. -/
def pathKey (p : Path) : List (ℕ ×ₗ List Char) := p.components.map componentKey

theorem componentKey_injective : Function.Injective componentKey := by
  intro a b h
  cases a <;> cases b <;> simp_all [componentKey, rank]

theorem componentLt_iff {a b : Component} :
    componentLt a b = true ↔ componentKey a < componentKey b := by
  cases a <;> cases b <;> simp [componentLt, componentKey, rank, Prod.Lex.toLex_lt_toLex]

theorem listLt_iff {as bs : List Component} :
    listLt as bs = true ↔ as.map componentKey < bs.map componentKey := by
  induction as generalizing bs with
  | nil => cases bs <;> simp [listLt]
  | cons a as ih =>
    cases bs with
    | nil => simp [listLt]
    | cons b bs =>
      rw [listLt, List.map_cons, List.map_cons, List.cons_lt_cons_iff]
      split
      · next hab => simp [hab, ih]
      · next hab => simp [componentLt_iff, componentKey_injective.eq_iff, hab]

theorem lt_iff {p q : Path} : p.lt q = true ↔ pathKey p < pathKey q := listLt_iff

theorem same_iff {p q : Path} : p.same q = true ↔ pathKey p = pathKey q := by
  rw [same, beq_iff_eq, pathKey, pathKey, componentKey_injective.list_map.eq_iff]

/-! ## Adding files -/

/-- Whether paths are in order, none of them twice. -/
def Sorted (files : List Path) : Prop := files.Pairwise fun p q => p.lt q = true

theorem Sorted.nodup {files : List Path} (h : Sorted files) : files.Nodup := by
  refine List.Pairwise.imp ?_ h
  rintro p _ hlt rfl
  exact lt_irrefl _ (lt_iff.1 hlt)

theorem Sorted.ext {a b : List Path} (ha : Sorted a) (hb : Sorted b)
    (h : ∀ path, path ∈ a ↔ path ∈ b) : a = b := by
  refine ((List.perm_ext_iff_of_nodup ha.nodup hb.nodup).2 h).eq_of_pairwise ?_ ha hb
  exact fun p q _ _ hpq hqp => absurd (lt_iff.1 hqp) (lt_asymm (lt_iff.1 hpq))

theorem mem_of_mem_addFile {path other : Path} {files : List Path}
    (h : other ∈ addFile path files) : other = path ∨ other ∈ files := by
  induction files with
  | nil => exact .inl (List.mem_singleton.1 h)
  | cons first rest ih =>
    rw [addFile] at h
    split at h
    · exact .inr h
    · split at h
      · exact List.mem_cons.1 h
      · obtain rfl | h := List.mem_cons.1 h
        · exact .inr List.mem_cons_self
        · exact (ih h).imp_right (List.mem_cons_of_mem _)

theorem mem_addFile_of_mem (path : Path) {other : Path} {files : List Path} (h : other ∈ files) :
    other ∈ addFile path files := by
  induction files with
  | nil => cases h
  | cons first rest ih =>
    rw [addFile]
    split
    · exact h
    · split
      · exact List.mem_cons_of_mem _ h
      · obtain rfl | h := List.mem_cons.1 h
        · exact List.mem_cons_self
        · exact List.mem_cons_of_mem _ (ih h)

theorem exists_same_mem_addFile (path : Path) (files : List Path) :
    ∃ other ∈ addFile path files, path.same other = true := by
  induction files with
  | nil => exact ⟨path, List.mem_singleton_self _, same_iff.2 rfl⟩
  | cons first rest ih =>
    rw [addFile]
    split
    · next hsame => exact ⟨first, List.mem_cons_self, hsame⟩
    · split
      · exact ⟨path, List.mem_cons_self, same_iff.2 rfl⟩
      · obtain ⟨other, hother, hsame⟩ := ih
        exact ⟨other, List.mem_cons_of_mem _ hother, hsame⟩

theorem sorted_addFile (path : Path) {files : List Path} (h : Sorted files) :
    Sorted (addFile path files) := by
  induction files with
  | nil => exact List.pairwise_singleton _ _
  | cons first rest ih =>
    obtain ⟨hfirst, hrest⟩ := List.pairwise_cons.1 h
    rw [addFile]
    split
    · exact h
    · next hsame =>
      split
      · next hlt =>
        refine List.pairwise_cons.2 ⟨List.forall_mem_cons.2 ⟨hlt, fun other hother => ?_⟩, h⟩
        exact lt_iff.2 ((lt_iff.1 hlt).trans (lt_iff.1 (hfirst other hother)))
      · next hlt =>
        refine List.pairwise_cons.2 ⟨fun other hother => ?_, ih hrest⟩
        obtain rfl | hother := mem_of_mem_addFile hother
        · rw [same_iff] at hsame
          rw [lt_iff] at hlt ⊢
          exact (lt_or_gt_of_ne hsame).resolve_left hlt
        · exact hfirst other hother

/-! ## Files of hits -/

section Hits

variable {hits : List Hit}

theorem sorted_listedFiles (hits : List Hit) : Sorted (listedFiles hits) := by
  have hfold (rest : List Hit) {files : List Path} (h : Sorted files) :
      Sorted (rest.foldl (fun files hit => addFile hit.listed files) files) := by
    induction rest generalizing files with
    | nil => exact h
    | cons hit rest ih => exact ih (sorted_addFile _ h)
  exact hfold hits List.Pairwise.nil

theorem exists_hit_of_mem_listedFiles {path : Path} (h : path ∈ listedFiles hits) :
    ∃ hit ∈ hits, hit.listed = path := by
  have hfold (rest : List Hit) {files : List Path}
      (hpath : path ∈ rest.foldl (fun files hit => addFile hit.listed files) files) :
      path ∈ files ∨ ∃ hit ∈ rest, hit.listed = path := by
    induction rest generalizing files with
    | nil => exact .inl hpath
    | cons hit rest ih =>
      obtain hfiles | ⟨other, hother, hsame⟩ := ih hpath
      · obtain rfl | hfiles := mem_of_mem_addFile hfiles
        · exact .inr ⟨hit, List.mem_cons_self, rfl⟩
        · exact .inl hfiles
      · exact .inr ⟨other, List.mem_cons_of_mem _ hother, hsame⟩
  exact (hfold hits h).resolve_left List.not_mem_nil

theorem exists_same_mem_listedFiles {hit : Hit} (h : hit ∈ hits) :
    ∃ path ∈ listedFiles hits, hit.listed.same path = true := by
  have hkeep (rest : List Hit) {files : List Path} {path : Path} (hpath : path ∈ files) :
      path ∈ rest.foldl (fun files hit => addFile hit.listed files) files := by
    induction rest generalizing files with
    | nil => exact hpath
    | cons other rest ih => exact ih (mem_addFile_of_mem _ hpath)
  obtain ⟨before, after, rfl⟩ := List.append_of_mem h
  obtain ⟨path, hpath, hsame⟩ := exists_same_mem_addFile hit.listed (listedFiles before)
  refine ⟨path, ?_, hsame⟩
  rw [listedFiles, List.foldl_append]
  exact hkeep after hpath

/-- Where all hits are listed canonically, the files are what they are listed as. -/
theorem mem_listedFiles (h : ∀ hit ∈ hits, hit.listed.Canonical) {path : Path} :
    path ∈ listedFiles hits ↔ ∃ hit ∈ hits, hit.listed = path := by
  refine ⟨exists_hit_of_mem_listedFiles, ?_⟩
  rintro ⟨hit, hhit, rfl⟩
  obtain ⟨path, hpath, hsame⟩ := exists_same_mem_listedFiles hhit
  obtain ⟨other, hother, rfl⟩ := exists_hit_of_mem_listedFiles hpath
  rwa [eq_of_components_eq (h hit hhit) (h other hother) (beq_iff_eq.1 hsame)]

end Hits

end CssBuild.Resolution
