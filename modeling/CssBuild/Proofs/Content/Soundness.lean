import CssBuild.Proofs.Content.Containment
import CssBuild.Proofs.Content.Counting

/-!
# CssBuild.Proofs.Content.Soundness

What a resolution promises.

1. A file is listed so that the base and what is listed lead back to it,
   whether its root is below the base or anywhere else
   (`components_join_listedPath`).
2. Hence the parts of a resolution fit each other and the tree
   (`resolveContent_sound`): the files are there, in order and kept by all
   exclusions, and counts and warnings are those of the inclusions.
3. From a base that is spelled too long the files that are listed can no longer
   be opened behind it (`resolveContent_too_deep`).
-/

namespace CssBuild

open FileSystem

namespace Resolution

/-! ## Files behind the base -/

section Below

variable {fs : FileSystem} {base : Path}

/-- What a walk finds below a path is reached through that path. -/
theorem follow_whole (hnames : fs.root.ProperNames) (hunique : fs.root.UniqueNames)
    (hstorable : fs.root.Storable) {root : Path} {below : Below} (hbelow : below ∈ fs.walk root) :
    fs.LeadsToFile (root.join ⟨belowText below⟩) := by
  obtain ⟨hsome, hproper⟩ := mem_walk_names hnames hbelow
  obtain ⟨place, entries, bytes, hfind, hat⟩ := at?_of_mem_walk hunique hbelow
  obtain ⟨hbad, hleads⟩ := find_eq_directory.1 hfind
  have hrelative := isAbsolute_belowText hsome hproper
  have hfront : LeadsTo fs.root (fs.start root) root.front place entries := by
    rwa [leadsTo_iff_steps, Path.steps_front, ← leadsTo_iff_steps]
  refine ⟨place ++ below, bytes, ?_, hat⟩
  rw [start, Path.isAbsolute_join (badPath?_eq_none.1 hbad).2.1 hrelative, ← start,
    pieces_whole hsome hproper, follow_append, hfront.1, ok_bind]
  refine follow_names hfront.2 hat hproper fun name hname => ?_
  exact (storable_of_at? hstorable hat).1 name (List.mem_append_right _ hname)

theorem ends_whole {root : Path} {below : Below} (hsome : below ≠ [])
    (hproper : ∀ name ∈ below, ProperName name) : (root.join ⟨belowText below⟩).Ends := by
  intro piece hpiece
  obtain ⟨last, hlast⟩ :=
    Option.isSome_iff_exists.1 (List.getLast?_isSome.2 (namePieces_ne_nil hsome))
  rw [pieces_whole hsome hproper, List.getLast?_append, hlast] at hpiece
  obtain rfl := Option.some.inj hpiece
  exact named_namePieces hproper _ (List.mem_of_getLast? hlast)

/-- Below a root that is relative, the base and what a file is listed as write the path that the
file was found by. -/
theorem join_listedPath_relative (hbase : base.text ≠ "") {p : Pattern}
    (hrelative : (Path.mk p.root).isAbsolute = false) {below : Below} (hsome : below ≠ [])
    (hproper : ∀ name ∈ below, ProperName name) :
    base.join (listedPath base (rootPath base p) below) =
      (rootPath base p).join ⟨belowText below⟩ := by
  have hfront := front_rootPath base hrelative
  have hlisted := listedPath_relative hsome hproper hbase hfront (named_head_root hrelative)
  have hslash : ∀ piece ∈ (Path.mk p.root).front ++ namePieces below, '/' ∉ piece := by
    intro piece hpiece
    obtain hpiece | hpiece := List.mem_append.1 hpiece
    · exact Path.not_mem_of_mem_pieces (Path.mem_pieces_of_mem_front hpiece)
    · exact slash_not_mem_namePieces hproper piece hpiece
  have hfirst : ∀ piece ∈ ((Path.mk p.root).front ++ namePieces below).head?,
      Path.Named piece := by
    intro piece hpiece
    rw [List.head?_append] at hpiece
    cases hroot : (Path.mk p.root).front with
    | nil =>
      rw [hroot] at hpiece
      exact named_namePieces hproper piece (List.mem_of_mem_head? hpiece)
    | cons first rest =>
      rw [hroot] at hpiece
      exact named_head_root hrelative piece (by rw [hroot]; exact hpiece)
  rw [← Path.ofPieces_pieces (base.join _), hlisted,
    Path.pieces_join base (Path.isAbsolute_ofPieces hslash hfirst), Path.pieces_ofPieces
      (List.append_ne_nil_of_right_ne_nil _ (namePieces_ne_nil hsome)) hslash,
    ← List.append_assoc, ← hfront, ← pieces_whole hsome hproper, Path.ofPieces_pieces]

/-- The base and what a file is listed as write the path that the file was found by, at least in
its components. -/
theorem components_join_listedPath (hbase : base.text ≠ "") (p : Pattern) {below : Below}
    (hsome : below ≠ []) (hproper : ∀ name ∈ below, ProperName name)
    (hother : base.components ≠ ((rootPath base p).join ⟨belowText below⟩).components) :
    (base.join (listedPath base (rootPath base p) below)).components =
        ((rootPath base p).join ⟨belowText below⟩).components ∧
      (base.join (listedPath base (rootPath base p) below)).Ends := by
  have hends : ((rootPath base p).join ⟨belowText below⟩).Ends := ends_whole hsome hproper
  cases habsolute : (Path.mk p.root).isAbsolute with
  | false =>
    rw [join_listedPath_relative hbase habsolute hsome hproper]
    exact ⟨rfl, hends⟩
  | true =>
    rw [rootPath_of_absolute habsolute] at hother hends ⊢
    cases hstrip : ((Path.mk p.root).join ⟨belowText below⟩).stripPrefix? base with
    | some left =>
      rw [listedPath, hstrip, Option.getD_some]
      exact (Path.components_join_stripPrefix? hbase hstrip).imp_right fun h => h hother
    | none =>
      have hne : (Path.mk p.root).text ≠ "" := fun hempty => by
        rw [Path.isAbsolute, hempty] at habsolute
        cases habsolute
      have hwhole : ((Path.mk p.root).join ⟨belowText below⟩).isAbsolute = true :=
        (Path.isAbsolute_join hne (isAbsolute_belowText hsome hproper)).trans habsolute
      rw [listedPath, hstrip, Option.getD_none, Path.join, if_pos hwhole]
      exact ⟨rfl, hends⟩

/-- The base and what is listed lead to a file. -/
theorem leadsToFile_listedPath (hnames : fs.root.ProperNames) (hunique : fs.root.UniqueNames)
    (hstorable : fs.root.Storable) (hbase : fs.isDirectory base = true) {p : Pattern}
    {below : Below} (hbelow : below ∈ fs.walk (rootPath base p)) :
    fs.LeadsToFile (base.join (listedPath base (rootPath base p) below)) := by
  have hne := text_ne_of_isDirectory hbase
  obtain ⟨hsome, hproper⟩ := mem_walk_names hnames hbelow
  obtain ⟨found, bytes, hfollow, hat⟩ := follow_whole hnames hunique hstorable hbelow
  have hother : base.components ≠ ((rootPath base p).join ⟨belowText below⟩).components := by
    intro hsame
    -- Then the path of the file would lead to the directory of the base.
    obtain ⟨place, entries, hfind⟩ := exists_find_of_isDirectory hbase
    obtain ⟨-, hleads⟩ := find_eq_directory.1 hfind
    obtain ⟨hopening, hsteps⟩ := Path.opening_steps_of_components hsame
    have hstart : fs.start base = fs.start ((rootPath base p).join ⟨belowText below⟩) := by
      have habsolute : base.isAbsolute =
          ((rootPath base p).join ⟨belowText below⟩).isAbsolute := by
        rw [Bool.eq_iff_iff, Path.isAbsolute_iff, Path.isAbsolute_iff, hopening]
      rw [start, start, habsolute]
    rw [leadsTo_iff_steps, hsteps, ← leadsTo_iff_steps, hstart, LeadsTo, hfollow] at hleads
    obtain ⟨rfl, hdirectory⟩ := hleads.imp_left Except.ok.inj
    cases hat.symm.trans hdirectory
  obtain ⟨hcomponents, hends⟩ := components_join_listedPath hne p hsome hproper hother
  exact ⟨found, bytes,
    (follow_congr fs hcomponents hends (ends_whole hsome hproper)).2 hfollow, hat⟩

end Below

/-! ## Sound resolutions -/

/-- Whether the parts of a resolution fit each other, the patterns and the tree. -/
structure Sound (fs : FileSystem) (base : Path) (patterns : List Pattern)
    (resolution : Resolution) : Prop where
  /-- The files are in the order of their components, none of them twice. -/
  sorted : Sorted resolution.files
  /-- Behind the base each of them leads to a file. -/
  found : ∀ path ∈ resolution.files, fs.LeadsToFile (base.join path)
  /-- It is seen to be a file, if the whole text is short enough to be followed. -/
  isFile : ∀ path ∈ resolution.files, (base.join path).text.utf8ByteSize ≤ maxPath →
    fs.isFile (base.join path) = true
  /-- No exclusion matches it as it is listed. -/
  kept : ∀ path ∈ resolution.files, ∀ p ∈ exclusions patterns, ∀ whole, p.compile = .ok whole →
    whole.matches path.text = false
  /-- The inclusions are counted, one after the other. -/
  inclusions : resolution.counts.map Prod.fst = inclusions patterns
  /-- There is a warning for each of them that selects nothing, one after the other. -/
  warnings : resolution.warnings = (resolution.counts.filter fun entry => entry.2 = 0).map
    fun entry => .unmatchedPattern entry.1.text
  /-- There are no files exactly if nothing is counted. -/
  empty : resolution.files = [] ↔ ∀ entry ∈ resolution.counts, entry.2 = 0
  /-- There are no more files than are counted. -/
  size : resolution.files.length ≤ (resolution.counts.map Prod.snd).sum
  /-- For none of the inclusions more is counted than there are files in the tree. -/
  bounded : ∀ entry ∈ resolution.counts, entry.2 ≤ fs.root.fileCount

section Counts

variable (fs : FileSystem) (base : Path) (patterns : List Pattern)

theorem map_fst_counts : (resolved fs base patterns).counts.map Prod.fst = inclusions patterns := by
  rw [resolved, countsFrom_eq_map, List.map_map, ← map_snd_numberedFrom 0]
  rfl

theorem length_files_le : (resolved fs base patterns).files.length ≤
    ((resolved fs base patterns).counts.map Prod.snd).sum :=
  (length_listedFiles_le _).trans (length_hits_le fs base patterns)

theorem files_eq_nil_iff : (resolved fs base patterns).files = [] ↔
    ∀ entry ∈ (resolved fs base patterns).counts, entry.2 = 0 := by
  constructor
  · intro h
    have hhits : hits fs base patterns = [] := listedFiles_eq_nil.1 h
    rw [resolved, hhits, countsFrom_eq_map]
    rintro entry hentry
    obtain ⟨numbered, -, rfl⟩ := List.mem_map.1 hentry
    rfl
  · intro h
    have hsum : ((resolved fs base patterns).counts.map Prod.snd).sum = 0 := by
      refine List.sum_eq_zero fun n hn => ?_
      obtain ⟨entry, hentry, rfl⟩ := List.mem_map.1 hn
      exact h entry hentry
    have hfiles := length_files_le fs base patterns
    rw [hsum, Nat.le_zero, List.length_eq_zero_iff] at hfiles
    exact hfiles

theorem count_le_fileCount {entry : Pattern × Nat}
    (h : entry ∈ (resolved fs base patterns).counts) : entry.2 ≤ fs.root.fileCount := by
  rw [resolved, countsFrom_eq_map] at h
  obtain ⟨numbered, -, rfl⟩ := List.mem_map.1 h
  exact length_listedBy_hits_le fs base patterns numbered.1

end Counts

end Resolution

open Resolution

/-- Every resolution is sound. That a file can be opened behind the base is only promised where
the two together are not longer than a path may be. -/
theorem resolveContent_sound {fs : FileSystem} {base : Path} {patterns : List Pattern}
    {resolution : Resolution} (names : fs.root.ProperNames) (unique : fs.root.UniqueNames)
    (storable : fs.root.Storable) (h : resolveContent fs base patterns = .ok resolution) :
    Sound fs base patterns resolution := by
  obtain ⟨directory, compiles, rfl⟩ := resolveContent_eq_ok.1 h
  have hfound : ∀ path ∈ (resolved fs base patterns).files, fs.LeadsToFile (base.join path) := by
    intro path hpath
    obtain ⟨-, p, -, below, hbelow, rfl⟩ := of_mem_files hpath
    exact leadsToFile_listedPath names unique storable directory hbelow
  have hne (path : Path) : (base.join path).text ≠ "" := by
    have hbase := text_ne_of_isDirectory directory
    rw [Path.join]
    split
    · next habsolute =>
      intro hempty
      rw [Path.isAbsolute, hempty] at habsolute
      cases habsolute
    · split <;> simp [hbase]
  refine ⟨sorted_listedFiles _, hfound, fun path hpath => (hfound path hpath).isFile storable
    (hne path), fun path hpath p hp whole hwhole => ?_, map_fst_counts fs base patterns, ?_,
    files_eq_nil_iff fs base patterns, length_files_le fs base patterns,
    fun entry => count_le_fileCount fs base patterns⟩
  · refine (of_mem_files hpath).1 whole (List.mem_map.2 ⟨p, hp, ?_⟩)
    exact Except.ok.inj ((Pattern.compile_eq ⟨whole, hwhole⟩).symm.trans hwhole)
  · simp only [resolved, unmatched, Bool.beq_eq_decide_eq]

/-- Inclusions with roots below the base, above it and elsewhere, one that selects nothing, and an
exclusion. -/
theorem resolveContent_sound_nested :
    let fs : FileSystem := ⟨.directory [("o", .directory [("x", .file .empty)]),
      ("w", .directory [("s", .directory [("x", .file .empty), ("y", .file .empty)])])], ["w"]⟩
    let patterns : List Pattern := [⟨"s/*"⟩, ⟨"!**/y"⟩, ⟨"t/*"⟩, ⟨"../o/*"⟩, ⟨"/w/\x7bs,t\x7d/x"⟩]
    ∃ resolution, resolveContent fs ⟨"./."⟩ patterns = .ok resolution ∧
      Sound fs ⟨"./."⟩ patterns resolution ∧
      resolution.files = [⟨"/w/s/x"⟩, ⟨"../o/x"⟩, ⟨"s/x"⟩] ∧
      resolution.counts.map Prod.snd = [1, 0, 1, 1] := by
  intro fs patterns
  have hnames : fs.root.ProperNames := by
    simp [fs, Node.ProperNames, ProperEntries, ProperName, Path.Named]
  have hunique : fs.root.UniqueNames := by simp [fs, Node.UniqueNames, UniqueEntries, Entries.keys]
  have hstorable : fs.root.Storable := by
    simp [fs, Node.Storable, StorableEntries, show StorableName "o" by decide,
      show StorableName "w" by decide, show StorableName "s" by decide,
      show StorableName "x" by decide, show StorableName "y" by decide]
  have compiles : ∀ p ∈ patterns, p.Compiles := by
    intro p hp
    simp only [patterns, List.mem_cons, List.not_mem_nil, or_false] at hp
    obtain rfl | rfl | rfl | rfl | rfl := hp <;> exact ⟨_, rfl⟩
  have hresolved := resolveContent_eq (show fs.isDirectory ⟨"./."⟩ = true by decide) compiles
  exact ⟨_, hresolved, resolveContent_sound hnames hunique hstorable hresolved,
    by decide +kernel, by decide +kernel⟩

/-- From a base that is spelled with as many slashes as can be followed, a file is listed that
cannot be opened behind the base. -/
theorem resolveContent_too_deep :
    let fs : FileSystem := ⟨.directory [("w", .directory [("x", .file .empty)])], []⟩
    let base : Path := ⟨String.ofList (List.replicate 4094 '/' ++ ['w'])⟩
    fs.root.ProperNames ∧ fs.root.UniqueNames ∧ fs.root.Storable ∧
      ∃ resolution, resolveContent fs base [⟨"*"⟩] = .ok resolution ∧
        ⟨"x"⟩ ∈ resolution.files ∧ fs.isFile (base.join ⟨"x"⟩) = false := by
  intro fs base
  have hcomponents : base.components = (Path.mk "/w").components :=
    (components_slashes 4093 (by decide)).trans (by decide)
  have hsize : base.text.utf8ByteSize = 4095 := utf8ByteSize_slashes 4094 ['w']
  have hsizes : base.text.utf8ByteSize ≤ maxPath ↔ (Path.mk "/w").text.utf8ByteSize ≤ maxPath := by
    rw [hsize]
    decide
  have hnames : fs.root.ProperNames := by
    simp [fs, Node.ProperNames, ProperEntries, ProperName, Path.Named]
  have hunique : fs.root.UniqueNames := by simp [fs, Node.UniqueNames, UniqueEntries, Entries.keys]
  have hstorable : fs.root.Storable := by
    simp [fs, Node.Storable, StorableEntries, show StorableName "w" by decide,
      show StorableName "x" by decide]
  have hbase : fs.isDirectory base = true := by
    rw [isDirectory_congr fs hcomponents hsizes]
    decide
  have hroot : rootPath base ⟨"*"⟩ = base := if_pos (by decide)
  have hseparable : Separable fs base [⟨"*"⟩] := by
    refine ⟨hnames, hbase, by decide, fun p hp q hq _ names _ => ?_⟩
    rw [List.mem_singleton.1 (mem_inclusions.1 hp).1, List.mem_singleton.1 (mem_inclusions.1 hq).1]
  refine ⟨hnames, hunique, hstorable, _, resolveContent_eq hbase fun p hp => ?_, ?_, ?_⟩
  · exact List.mem_singleton.1 hp ▸ ⟨_, rfl⟩
  · refine hseparable.mem_files.2 ⟨⟨"*"⟩, by decide, mem_selectedBy.2 ⟨by decide, ?_⟩⟩
    have hlisted : listedPath base base ["x"] = Path.ofPieces [['x']] :=
      listedPath_relative (by decide) (by simp [ProperName, Path.Named])
        (text_ne_of_isDirectory hbase) (List.append_nil _).symm (by decide)
    rw [hroot]
    refine mem_selected.2 ⟨["x"], ?_, hlisted, rfl, by decide⟩
    have hopened : ∀ names ∈ fs.opened ⟨"/w"⟩,
        isShort ((Path.mk "/w").enter names) = isShort (base.enter names) := by
      rw [show fs.opened ⟨"/w"⟩ = [[]] from rfl, List.forall_mem_singleton, Bool.eq_iff_iff,
        isShort_iff, isShort_iff]
      exact hsizes.symm
    rw [← walk_congr fs hcomponents.symm hopened, show fs.walk ⟨"/w"⟩ = [["x"]] from rfl]
    exact List.mem_singleton_self _
  · have hlong : maxPath < (base.join ⟨"x"⟩).text.utf8ByteSize := by
      rw [Path.join, if_neg (by decide)]
      split <;> simp only [String.utf8ByteSize_append, hsize] <;> decide
    rw [isFile]
    split
    · next hfind => exact absurd hfind (fs.find_of_too_long hlong _)
    · rfl

end CssBuild
