import CssBuild.Content.Resolution
import CssBuild.Proofs.Files.Walks

/-!
# CssBuild.Proofs.Content.Listing

How the files below a root are listed.

1. A file below a relative root is listed by that root and the names below it
   (`listedPath_relative`).
2. Below a clean root it is listed canonically, by components that depend only
   on those of the root (`listedPath_clean`).
-/

namespace CssBuild.Resolution

open CssBuild.Path

/-! ## Paths below a root -/

/-- The pieces of some names below a directory. -/
def namePieces (below : Below) : List (List Char) := below.map String.toList

section Below

variable {below : Below} (hne : below ≠ []) (hproper : ∀ name ∈ below, ProperName name)
include hproper

theorem named_namePieces : ∀ piece ∈ namePieces below, Named piece := by
  intro piece hpiece
  obtain ⟨name, hname, rfl⟩ := List.mem_map.1 hpiece
  exact (hproper name hname).1

theorem slash_not_mem_namePieces : ∀ piece ∈ namePieces below, '/' ∉ piece := by
  intro piece hpiece
  obtain ⟨name, hname, rfl⟩ := List.mem_map.1 hpiece
  exact (hproper name hname).2.2

omit hproper in
theorem toList_belowText (below : Below) :
    (belowText below).toList = Text.join '/' (namePieces below) := by
  rw [belowText, String.toList_intercalate, Text.join_eq_intercalate]
  rfl

include hne

omit hproper in
theorem namePieces_ne_nil : namePieces below ≠ [] := by
  simpa [namePieces] using hne

theorem pieces_belowText : (Path.mk (belowText below)).pieces = namePieces below := by
  rw [pieces, toList_belowText]
  exact Text.split_join (namePieces_ne_nil hne) (slash_not_mem_namePieces hproper)

theorem isAbsolute_belowText : (Path.mk (belowText below)).isAbsolute = false := by
  rw [Bool.eq_false_iff, Ne, isAbsolute_iff, pieces_belowText hne hproper]
  obtain ⟨name, rest, rfl⟩ := List.exists_cons_of_ne_nil hne
  rw [namePieces, List.map_cons, opening_eq_nil (hproper name List.mem_cons_self).1]
  exact fun h => nomatch h

theorem pieces_whole (root : Path) :
    (root.join ⟨belowText below⟩).pieces = root.front ++ namePieces below := by
  rw [pieces_join root (isAbsolute_belowText hne hproper), pieces_belowText hne hproper]

theorem components_whole {root : Path} (h : root.text ≠ "") :
    (root.join ⟨belowText below⟩).components = root.components ++ steps (namePieces below) := by
  rw [components_join h (isAbsolute_belowText hne hproper), pieces_belowText hne hproper]

/-- Below a relative root a file has the components of the base before those of the root. -/
theorem components_whole_relative {base root : Path} (hbase : base.text ≠ "")
    {inner : List (List Char)} (hroot : root.front = base.front ++ inner) :
    (root.join ⟨belowText below⟩).components =
      base.components ++ steps (inner ++ namePieces below) := by
  have hafter : inner ++ namePieces below ≠ [] :=
    List.append_ne_nil_of_right_ne_nil _ (namePieces_ne_nil hne)
  rw [components_eq, pieces_whole hne hproper, hroot, List.append_assoc,
    opening_front hbase hafter, components_eq, steps_append, steps_front, List.append_assoc]

/-- A file below a relative root is listed by the root and the names below it. -/
theorem listedPath_relative {base root : Path} (hbase : base.text ≠ "") {inner : List (List Char)}
    (hroot : root.front = base.front ++ inner) (hfirst : ∀ piece ∈ inner.head?, Named piece) :
    listedPath base root below = ofPieces (inner ++ namePieces below) := by
  have hwhole := pieces_whole hne hproper root
  have hnames := namePieces_ne_nil hne
  have hnamed := named_namePieces hproper
  rw [hroot, List.append_assoc] at hwhole
  have hafter : inner ++ namePieces below ≠ [] := List.append_ne_nil_of_right_ne_nil _ hnames
  rw [listedPath, stripPrefix?_eq_some hwhole, Option.getD_some]
  · rw [hwhole, opening_front hbase hafter, components_eq, steps_front]
  · rwa [Ne, components_eq_nil]
  · intro piece hpiece
    rw [List.head?_append] at hpiece
    cases inner with
    | nil => exact hnamed piece (List.mem_of_mem_head? hpiece)
    | cons first rest => exact hfirst piece hpiece
  · intro piece hpiece
    obtain ⟨last, hlast⟩ := Option.isSome_iff_exists.1 (List.getLast?_isSome.2 hnames)
    rw [List.getLast?_append, hlast] at hpiece
    obtain rfl := Option.some.inj hpiece
    exact hnamed _ (List.mem_of_getLast? hlast)

end Below

/-- A file is listed by its whole path where it is not below the base. -/
theorem listedPath_outside {base root : Path} {below : Below}
    (h : ¬ base.components <+: (root.join ⟨belowText below⟩).components) :
    listedPath base root below = root.join ⟨belowText below⟩ := by
  rw [listedPath, stripPrefix?_eq_none.2 h, Option.getD_none]

/-! ## Roots of patterns -/

theorem rootPath_of_absolute {base : Path} {p : Pattern}
    (h : (Path.mk p.root).isAbsolute = true) : rootPath base p = ⟨p.root⟩ := by
  have hne : p.root ≠ "" := by
    intro hempty
    rw [hempty] at h
    exact absurd h (by decide)
  rw [rootPath, if_neg hne, join, h, if_pos rfl]

theorem front_rootPath (base : Path) {p : Pattern} (h : (Path.mk p.root).isAbsolute = false) :
    (rootPath base p).front = base.front ++ (Path.mk p.root).front := by
  rw [rootPath]
  split
  · next hempty =>
    have hfront : (Path.mk p.root).front = [] := by
      rw [hempty]
      rfl
    rw [hfront, List.append_nil]
  · exact front_join base h

theorem text_rootPath_ne {base : Path} (hbase : base.text ≠ "") (p : Pattern) :
    (rootPath base p).text ≠ "" := by
  rw [rootPath]
  split
  · exact hbase
  · next hne =>
    rw [join]
    split
    · exact hne
    · split <;> simp [hbase]

section Clean

variable {base : Path} (hbase : base.text ≠ "") {p : Pattern} (hclean : (Path.mk p.root).Clean)
  {below : Below} (hne : below ≠ []) (hproper : ∀ name ∈ below, ProperName name)
include hbase hclean hne hproper

/-- A file below a clean root is listed canonically: by what comes after the base in its whole
path, or by that path. -/
theorem listedPath_clean :
    (listedPath base (rootPath base p) below).Canonical ∧
      (((rootPath base p).join ⟨belowText below⟩).components =
          base.components ++ (listedPath base (rootPath base p) below).components ∨
        ¬ base.components <+: ((rootPath base p).join ⟨belowText below⟩).components ∧
          (listedPath base (rootPath base p) below).components =
            ((rootPath base p).join ⟨belowText below⟩).components) := by
  obtain ⟨inner, hinner, hfront⟩ := front_of_clean hclean
  have hnamed : ∀ piece ∈ inner ++ namePieces below, Named piece := by
    intro piece hpiece
    obtain hpiece | hpiece := List.mem_append.1 hpiece
    · exact hinner piece hpiece
    · exact named_namePieces hproper piece hpiece
  have hslash : ∀ piece ∈ inner ++ namePieces below, '/' ∉ piece := by
    intro piece hpiece
    obtain hpiece | hpiece := List.mem_append.1 hpiece
    · refine not_mem_of_mem_pieces (mem_pieces_of_mem_front (p := ⟨p.root⟩) ?_)
      rw [hfront]
      split
      · exact List.mem_cons_of_mem _ hpiece
      · exact hpiece
    · exact slash_not_mem_namePieces hproper piece hpiece
  cases habsolute : (Path.mk p.root).isAbsolute with
  | false =>
    rw [habsolute] at hfront
    have hroot : (rootPath base p).front = base.front ++ inner := by
      rw [front_rootPath base habsolute, hfront]
      rfl
    obtain ⟨hcanonical, hcomponents⟩ := canonical_ofPieces hnamed hslash
    rw [listedPath_relative hne hproper hbase hroot fun piece hpiece =>
      hinner piece (List.mem_of_mem_head? hpiece)]
    refine ⟨hcanonical, .inl ?_⟩
    rw [components_whole_relative hne hproper hbase hroot, hcomponents]
  | true =>
    rw [habsolute] at hfront
    rw [rootPath_of_absolute habsolute]
    have hwhole : ((Path.mk p.root).join ⟨belowText below⟩).pieces =
        [] :: (inner ++ namePieces below) := by
      rw [pieces_whole hne hproper, hfront]
      rfl
    have hall : inner ++ namePieces below ≠ [] :=
      List.append_ne_nil_of_right_ne_nil _ (namePieces_ne_nil hne)
    by_cases hwithin : base.components <+: ((Path.mk p.root).join ⟨belowText below⟩).components
    · obtain ⟨left, hleft, hcanonical, hcomponents⟩ :=
        exists_stripPrefix? hwhole hall hnamed hslash hbase hwithin
      rw [listedPath, hleft, Option.getD_some]
      exact ⟨hcanonical, .inl hcomponents⟩
    · rw [listedPath_outside hwithin]
      exact ⟨canonical_of_absolute hwhole hall hnamed, .inr ⟨hwithin, rfl⟩⟩

/-- Below clean roots of one path a file is listed alike. -/
theorem listedPath_congr {q : Pattern} (hother : (Path.mk q.root).Clean)
    (hsame : (rootPath base p).components = (rootPath base q).components) :
    listedPath base (rootPath base p) below = listedPath base (rootPath base q) below := by
  obtain ⟨hp, hpcases⟩ := listedPath_clean hbase hclean hne hproper
  obtain ⟨hq, hqcases⟩ := listedPath_clean hbase hother hne hproper
  have hwhole : ((rootPath base p).join ⟨belowText below⟩).components =
      ((rootPath base q).join ⟨belowText below⟩).components := by
    rw [components_whole hne hproper (text_rootPath_ne hbase p),
      components_whole hne hproper (text_rootPath_ne hbase q), hsame]
  refine eq_of_components_eq hp hq ?_
  rw [hwhole] at hpcases
  obtain hp | ⟨hpoutside, hp⟩ := hpcases <;> obtain hq | ⟨hqoutside, hq⟩ := hqcases
  · exact List.append_cancel_left (hp.symm.trans hq)
  · exact absurd ⟨_, hp.symm⟩ hqoutside
  · exact absurd ⟨_, hq.symm⟩ hpoutside
  · rw [hp, hq]

end Clean

end CssBuild.Resolution
