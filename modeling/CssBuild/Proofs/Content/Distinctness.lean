import CssBuild.Proofs.Content.Soundness

/-!
# CssBuild.Proofs.Content.Distinctness

When two entries of a resolution are one file.

1. Files are listed once each by the components of their paths, and a path keeps
   the spelling of the root that it was found below. So a file that is found below
   roots of several spellings is listed several times (`resolveContent_repeats`).
2. From a directory there is one relative and one absolute path to a file that is
   `Direct` (`Direct.components_eq`). Only paths that are not, or a relative one
   and an absolute one that is not seen to be below the base, can be one file
   (`resolveContent_distinct`).
-/

namespace CssBuild

open FileSystem

/-! ## Direct paths -/

namespace Path

/-- Whether a path takes no step in vain from a place: from the root it goes down only, and
otherwise it goes up as far as it has to, not beyond the root, and then down another way. -/
inductive Direct (place : Place) (p : Path) : Prop where
  /-- Down from the root. -/
  | absolute {names : List String} (components : p.components = .root :: stepsTo names)
  /-- Up from the place, out of the directories `left`, and down. -/
  | relative {above left names : List String} (place : place = above ++ left)
    (turns : ∀ name ∈ left.head?, name ∉ names.head?)
    (components : p.components = List.replicate left.length .up ++ stepsTo names)

variable {place : Place} {p q : Path}

theorem isAbsolute_of_components {rest : List Component} (h : p.components = .root :: rest) :
    p.isAbsolute = true := by
  rw [isAbsolute_iff]
  have hmem : Component.root ∈ opening p.pieces ++ steps p.pieces := by
    rw [← components_eq, h]
    exact List.mem_cons_self
  exact (opening_mem ((List.mem_append.1 hmem).resolve_right (not_mem_steps (.inl rfl)))).1

theorem Direct.components_of_absolute (h : p.Direct place) (habsolute : p.isAbsolute = true) :
    p.components = .root :: stepsTo (p.placeFrom place) := by
  cases h with
  | absolute hcomponents =>
    rw [placeFrom, hcomponents, List.foldl_cons, foldl_names]
    rfl
  | relative _ _ hcomponents =>
    have hmem : Component.root ∈ p.components := by
      rw [components_eq, isAbsolute_iff.1 habsolute]
      exact List.mem_cons_self
    rw [hcomponents] at hmem
    simp [stepsTo] at hmem

theorem Direct.relative_cases (h : p.Direct place) (hrelative : p.isAbsolute = false) :
    ∃ above left names, place = above ++ left ∧ p.placeFrom place = above ++ names ∧
      (∀ name ∈ left.head?, name ∉ names.head?) ∧
      p.components = List.replicate left.length .up ++ stepsTo names := by
  cases h with
  | absolute hcomponents =>
    rw [isAbsolute_of_components hcomponents] at hrelative
    cases hrelative
  | @relative above left names hplace hturns hcomponents =>
    refine ⟨above, left, names, hplace, ?_, hturns, hcomponents⟩
    rw [placeFrom, hcomponents, hplace, List.foldl_append, foldl_up, foldl_names]

/-- What two places have in common before they part cannot be longer. -/
theorem parting_unique {above left names above' left' names' : List String}
    (hplace : above ++ left = above' ++ left') (hfound : above ++ names = above' ++ names')
    (hturns : ∀ name ∈ left.head?, name ∉ names.head?) (hlonger : above.length ≤ above'.length) :
    above = above' := by
  obtain ⟨shared, rfl⟩ : above <+: above' :=
    List.prefix_of_prefix_length_le (List.prefix_append above left)
      (hplace ▸ List.prefix_append above' left') hlonger
  rw [List.append_assoc] at hplace hfound
  cases shared with
  | nil => exact (List.append_nil above).symm
  | cons name rest =>
    rw [List.append_cancel_left hplace, List.append_cancel_left hfound] at hturns
    exact absurd rfl (hturns name rfl)

/-- From a place there is one direct path of each kind to another place. -/
theorem Direct.components_eq (hp : p.Direct place) (hq : q.Direct place)
    (hkind : p.isAbsolute = q.isAbsolute) (hsame : p.placeFrom place = q.placeFrom place) :
    p.components = q.components := by
  cases habsolute : p.isAbsolute with
  | true =>
    rw [hp.components_of_absolute habsolute, hq.components_of_absolute (hkind ▸ habsolute), hsame]
  | false =>
    obtain ⟨above, left, names, hplace, hfound, hturns, hp⟩ := hp.relative_cases habsolute
    obtain ⟨above', left', names', hplace', hfound', hturns', hq⟩ :=
      hq.relative_cases (hkind ▸ habsolute)
    have hplaces : above ++ left = above' ++ left' := hplace.symm.trans hplace'
    have hfounds : above ++ names = above' ++ names' := hfound.symm.trans (hsame.trans hfound')
    -- Both paths turn where the two places part.
    have habove : above = above' := by
      obtain hle | hle := Nat.le_total above.length above'.length
      · exact parting_unique hplaces hfounds hturns hle
      · exact (parting_unique hplaces.symm hfounds.symm hturns' hle).symm
    subst habove
    rw [hp, hq, List.append_cancel_left hplaces, List.append_cancel_left hfounds]

end Path

/-! ## Files of a resolution -/

namespace Resolution

theorem Sorted.eq_of_components {files : List Path} (h : Sorted files) {f g : Path} (hf : f ∈ files)
    (hg : g ∈ files) (hsame : f.components = g.components) : f = g := by
  have hnodup : (files.map Path.components).Nodup := by
    refine List.pairwise_map.2 (List.Pairwise.imp (fun {p q} hlt heq => ?_) h)
    rw [lt_iff, pathKey, pathKey, heq] at hlt
    exact lt_irrefl _ hlt
  exact List.inj_on_of_nodup_map hnodup hf hg hsame

/-- Whether two entries can be one file, seen from a base at a place: one of them takes a step in
vain, or the one is relative and the other one absolute, though not below the base as this is
written. -/
def MayCoincide (base : Path) (place : Place) (f g : Path) : Prop :=
  ¬ f.Direct place ∨ ¬ g.Direct place ∨ f.isAbsolute ≠ g.isAbsolute ∧
    (base.isAbsolute = false ∨ .up ∈ base.components ∨ .up ∈ f.components ∨ .up ∈ g.components)

section Files

variable {fs : FileSystem} {base : Path} {patterns : List Pattern} {f g : Path}

/-- A file that is listed by an absolute path is not below the base as this is written. -/
theorem not_prefix_of_absolute (hbase : base.text ≠ "") (hf : f ∈ (resolved fs base patterns).files)
    (habsolute : f.isAbsolute = true) : ¬ base.components <+: f.components := by
  obtain ⟨-, p, -, below, -, rfl⟩ := of_mem_files hf
  have hne : base.components ≠ [] := fun hnil => hbase (Path.components_eq_nil.1 hnil)
  rw [listedPath] at habsolute ⊢
  cases hstrip : ((rootPath base p).join ⟨belowText below⟩).stripPrefix? base with
  | some left =>
    rw [hstrip, Option.getD_some, Path.isAbsolute_of_stripPrefix? hne hstrip] at habsolute
    cases habsolute
  | none => exact Path.stripPrefix?_eq_none.1 hstrip

/-- A base without a detour is written down from the root. -/
theorem components_of_find {place : Place} {entries : List (String × Node)}
    (hbase : fs.find base = .ok (place, .directory entries)) (habsolute : base.isAbsolute = true)
    (hup : Component.up ∉ base.components) : base.components = .root :: stepsTo place := by
  rw [Path.components_eq, Path.isAbsolute_iff.1 habsolute] at hup ⊢
  have hfollow := (find_eq_ok.1 hbase).2.1
  rw [stepsTo_follow hfollow fun hmem => hup (List.mem_append_right _ hmem), start, if_pos habsolute]
  rfl

/-- Direct entries of different kinds are one file only where a step goes up or the base is not
written from the root. -/
theorem exists_up_of_kinds {place : Place} {entries : List (String × Node)}
    (hbase : fs.find base = .ok (place, .directory entries)) (hf : f.Direct place)
    (hg : g.Direct place) (hgmem : g ∈ (resolved fs base patterns).files)
    (hfkind : f.isAbsolute = false) (hgkind : g.isAbsolute = true)
    (hsame : f.placeFrom place = g.placeFrom place) :
    base.isAbsolute = false ∨ .up ∈ base.components ∨ .up ∈ f.components := by
  refine Decidable.byContradiction fun hnot => ?_
  rw [not_or, not_or, Bool.not_eq_false] at hnot
  obtain ⟨habsolute, hbaseup, hfup⟩ := hnot
  have hne : base.text ≠ "" := (badPath?_eq_none.1 (find_eq_ok.1 hbase).1).2.1
  obtain ⟨above, left, names, hplace, hfound, -, hcomponents⟩ := hf.relative_cases hfkind
  have hleft : left = [] := by
    cases left with
    | nil => rfl
    | cons name rest =>
      rw [hcomponents, List.length_cons, List.replicate_succ] at hfup
      exact absurd List.mem_cons_self hfup
  rw [hleft, List.append_nil] at hplace
  -- Then the absolute entry goes through the base, so it would have been listed without it.
  refine not_prefix_of_absolute hne hgmem hgkind ⟨stepsTo names, ?_⟩
  calc base.components ++ stepsTo names
      = .root :: (stepsTo place ++ stepsTo names) := by
        rw [components_of_find hbase habsolute hbaseup, List.cons_append]
    _ = .root :: stepsTo (g.placeFrom place) := by
        rw [← hsame, hfound, hplace]
        exact congrArg _ List.map_append.symm
    _ = g.components := (hg.components_of_absolute hgkind).symm

/-- Different entries with one place are of different kinds, if both are direct. -/
theorem mayCoincide {place : Place} {entries : List (String × Node)}
    (hbase : fs.find base = .ok (place, .directory entries))
    (hf : f ∈ (resolved fs base patterns).files) (hg : g ∈ (resolved fs base patterns).files)
    (hne : f ≠ g) (hsame : f.placeFrom place = g.placeFrom place) : MayCoincide base place f g := by
  refine or_iff_not_imp_left.2 fun hfdirect => or_iff_not_imp_left.2 fun hgdirect => ?_
  rw [not_not] at hfdirect hgdirect
  have hkinds : f.isAbsolute ≠ g.isAbsolute := fun hkind =>
    hne ((sorted_listedFiles _).eq_of_components hf hg
      (hfdirect.components_eq hgdirect hkind hsame))
  refine ⟨hkinds, ?_⟩
  cases hfkind : f.isAbsolute with
  | false =>
    have hgkind : g.isAbsolute = true := by simpa [hfkind] using hkinds.symm
    have hup := exists_up_of_kinds hbase hfdirect hgdirect hg hfkind hgkind hsame
    exact hup.imp_right fun hup => hup.imp_right .inl
  | true =>
    have hgkind : g.isAbsolute = false := by simpa [hfkind] using hkinds.symm
    have hup := exists_up_of_kinds hbase hgdirect hfdirect hf hgkind hfkind hsame.symm
    exact hup.imp_right fun hup => hup.imp_right .inr

end Files

end Resolution

open Resolution

/-- All entries of a resolution are files, and different ones are different files, unless one of
them takes a step in vain or the one is relative and the other one is absolute. -/
theorem resolveContent_distinct {fs : FileSystem} {base : Path} {patterns : List Pattern}
    (names : fs.root.ProperNames) (unique : fs.root.UniqueNames) (storable : fs.root.Storable)
    (directory : fs.isDirectory base = true) (compiles : ∀ p ∈ patterns, p.Compiles) :
    ∃ resolution, resolveContent fs base patterns = .ok resolution ∧
      (∀ f ∈ resolution.files, ∃ bytes,
        fs.root.at? ((base.join f).placeFrom fs.workdir) = some (.file bytes)) ∧
      ∀ f ∈ resolution.files, ∀ g ∈ resolution.files, f ≠ g →
        (base.join f).placeFrom fs.workdir = (base.join g).placeFrom fs.workdir →
        MayCoincide base (base.placeFrom fs.workdir) f g := by
  have hne := text_ne_of_isDirectory directory
  obtain ⟨place, entries, hbase⟩ := exists_find_of_isDirectory directory
  refine ⟨_, resolveContent_eq directory compiles, fun f hf => ?_, fun f hf g hg hfg hsame => ?_⟩
  · obtain ⟨-, p, -, below, hbelow, rfl⟩ := of_mem_files hf
    obtain ⟨found, bytes, hfollow, hat⟩ :=
      leadsToFile_listedPath names unique storable directory hbelow
    exact ⟨bytes, by rw [follow_placeFrom hfollow, hat]⟩
  · rw [Path.placeFrom_join hne, Path.placeFrom_join hne, find_placeFrom hbase] at hsame
    rw [find_placeFrom hbase]
    exact mayCoincide hbase hf hg hfg hsame

/-- A relative and an absolute pattern for a directory beside the base: its file is listed twice. -/
theorem resolveContent_distinct_kinds :
    let fs : FileSystem := ⟨.directory [("o", .directory [("x", .file .empty)]),
      ("w", .directory [("s", .directory [("x", .file .empty)])])], []⟩
    let patterns : List Pattern := [⟨"s/*"⟩, ⟨"../o/*"⟩, ⟨"/\x7bo,w\x7d/**"⟩]
    ∃ resolution, resolveContent fs ⟨"/w"⟩ patterns = .ok resolution ∧
      resolution.files = [⟨"/o/x"⟩, ⟨"../o/x"⟩, ⟨"s/x"⟩] ∧
      MayCoincide ⟨"/w"⟩ ["w"] ⟨"/o/x"⟩ ⟨"../o/x"⟩ ∧
      ∃ bytes, fs.root.at? ((Path.mk "/w/s/x").placeFrom []) = some (.file bytes) := by
  intro fs patterns
  have hnames : fs.root.ProperNames := by
    simp [fs, Node.ProperNames, ProperEntries, ProperName, Path.Named]
  have hunique : fs.root.UniqueNames := by simp [fs, Node.UniqueNames, UniqueEntries, Entries.keys]
  have hstorable : fs.root.Storable := by
    simp [fs, Node.Storable, StorableEntries, show StorableName "o" by decide,
      show StorableName "w" by decide, show StorableName "s" by decide,
      show StorableName "x" by decide]
  have hbase : fs.isDirectory ⟨"/w"⟩ = true := by decide
  have compiles : ∀ p ∈ patterns, p.Compiles := by
    intro p hp
    simp only [patterns, List.mem_cons, List.not_mem_nil, or_false] at hp
    obtain rfl | rfl | rfl := hp <;> exact ⟨_, rfl⟩
  obtain ⟨resolution, hresolved, hfound, hdistinct⟩ :=
    resolveContent_distinct hnames hunique hstorable hbase compiles
  have hfiles : resolution.files = [⟨"/o/x"⟩, ⟨"../o/x"⟩, ⟨"s/x"⟩] := by
    obtain rfl := Except.ok.inj (hresolved.symm.trans (resolveContent_eq hbase compiles))
    decide +kernel
  refine ⟨resolution, hresolved, hfiles, ?_, hfound ⟨"s/x"⟩ (by simp [hfiles])⟩
  exact hdistinct ⟨"/o/x"⟩ (by simp [hfiles]) ⟨"../o/x"⟩ (by simp [hfiles]) (by decide)
    (by decide +kernel)

/-- Several spellings of one directory: each lists the file by a path of its own. The detours are
back into the directory that was left, out of a directory and beyond the root; then a relative path
and an absolute one, from a base that is relative, from one with a `..` and from one beside it. -/
theorem resolveContent_repeats :
    let fs : FileSystem := ⟨.directory [("o", .directory [("x", .file .empty)]),
      ("w", .directory [("s", .directory []), ("t", .directory [("x", .file .empty)])])], ["w"]⟩
    let spellings : List (Path × List Pattern × Path × Path) :=
      [(⟨"/w"⟩, [⟨"t/*"⟩, ⟨"../w/t/*"⟩], ⟨"t/x"⟩, ⟨"../w/t/x"⟩),
        (⟨"/w"⟩, [⟨"t/*"⟩, ⟨"s/../t/*"⟩], ⟨"t/x"⟩, ⟨"s/../t/x"⟩),
        (⟨"/w"⟩, [⟨"../o/*"⟩, ⟨"../../o/*"⟩], ⟨"../o/x"⟩, ⟨"../../o/x"⟩),
        (⟨"."⟩, [⟨"t/*"⟩, ⟨"/w/t/*"⟩], ⟨"t/x"⟩, ⟨"/w/t/x"⟩),
        (⟨"/o/../w"⟩, [⟨"t/*"⟩, ⟨"/w/t/*"⟩], ⟨"t/x"⟩, ⟨"/w/t/x"⟩),
        (⟨"/w"⟩, [⟨"../o/*"⟩, ⟨"/o/*"⟩], ⟨"../o/x"⟩, ⟨"/o/x"⟩)]
    fs.root.ProperNames ∧ fs.root.UniqueNames ∧ fs.root.Storable ∧
      ∀ spelling ∈ spellings, ∃ resolution,
        resolveContent fs spelling.1 spelling.2.1 = .ok resolution ∧
        spelling.2.2.1 ∈ resolution.files ∧ spelling.2.2.2 ∈ resolution.files ∧
        spelling.2.2.1 ≠ spelling.2.2.2 ∧
        (spelling.1.join spelling.2.2.1).placeFrom fs.workdir =
          (spelling.1.join spelling.2.2.2).placeFrom fs.workdir := by
  intro fs spellings
  have hnames : fs.root.ProperNames := by
    simp [fs, Node.ProperNames, ProperEntries, ProperName, Path.Named]
  have hunique : fs.root.UniqueNames := by simp [fs, Node.UniqueNames, UniqueEntries, Entries.keys]
  have hstorable : fs.root.Storable := by
    simp [fs, Node.Storable, StorableEntries, show StorableName "o" by decide,
      show StorableName "w" by decide, show StorableName "s" by decide,
      show StorableName "t" by decide, show StorableName "x" by decide]
  have hlisted : ∀ spelling ∈ spellings,
      (resolveContent fs spelling.1 spelling.2.1).toOption.any fun resolution =>
        spelling.2.2.1 ∈ resolution.files ∧ spelling.2.2.2 ∈ resolution.files := by
    decide +kernel
  have hplaces : ∀ spelling ∈ spellings, spelling.2.2.1 ≠ spelling.2.2.2 ∧
      (spelling.1.join spelling.2.2.1).placeFrom fs.workdir =
        (spelling.1.join spelling.2.2.2).placeFrom fs.workdir := by
    decide +kernel
  refine ⟨hnames, hunique, hstorable, fun spelling hspelling => ?_⟩
  have hmem := hlisted spelling hspelling
  cases hresolved : resolveContent fs spelling.1 spelling.2.1 with
  | error e =>
    rw [hresolved] at hmem
    cases hmem
  | ok resolution =>
    rw [hresolved] at hmem
    obtain ⟨hfirst, hsecond⟩ := of_decide_eq_true hmem
    exact ⟨resolution, rfl, hfirst, hsecond, hplaces spelling hspelling⟩

end CssBuild
