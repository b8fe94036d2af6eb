import CssBuild.Proofs.Content.Exclusion
import CssBuild.Proofs.Files.Places

/-!
# CssBuild.Proofs.Content.Containment

Which files patterns can reach.

1. The root of a pattern goes nowhere that the pattern itself does not go: it
   has some of the pattern's steps (`Pattern.steps_root`), and it is absolute
   only if the pattern is once any `./` before it is left out.
2. Below a root that is relative and goes nowhere up every file is listed by
   names only, and these lead from the base to the file (`listedPath_inside`).
3. So relative patterns without a `..` list what is below the base, unless one
   of them is absolute without the `./` before it (`resolveContent_inside`).
-/

namespace CssBuild

open CssBuild.Path (steps)

/-! ## Roots of patterns -/

namespace Pattern

/-- Whether a pattern starts with a `./` and is absolute without any of them. -/
def Uprooted (p : Pattern) : Prop :=
  ['.', '/'] <+: p.text.toList ∧ p.globChars.head? = some '/'

instance (p : Pattern) : Decidable p.Uprooted := inferInstanceAs (Decidable (_ ∧ _))

theorem steps_dropHere (s : List Char) :
    steps (Text.split '/' (dropHere s)) = steps (Text.split '/' s) := by
  induction s using dropHere.induct with
  | case1 rest ih =>
    have hsplit : Text.split '/' ('.' :: '/' :: rest) = ['.'] :: Text.split '/' rest :=
      Text.split_append '/' ['.'] rest
    rw [dropHere, ih, hsplit, Path.steps_cons_of_not_named fun h => h.2 rfl]
  | case2 s h => rw [dropHere]; exact h

theorem head?_dropHere (s : List Char) :
    (dropHere s).head? = s.head? ∨ ['.', '/'] <+: s := by
  unfold dropHere
  split
  · exact .inr (List.prefix_append ['.', '/'] _)
  · exact .inl rfl

section Inclusion

variable {p : Pattern}

/-- A relative root is what stands before a slash of the pattern, or empty. -/
theorem root_cases_of_relative (relative : (Path.mk p.root).isAbsolute = false) :
    p.root = "" ∨ ∃ below, p.globChars = p.root.toList ++ '/' :: below := by
  obtain hall | ⟨before, below, hglob, -, hcut⟩ := splitChars_cases p.globChars
  · exact .inl (by rw [root, hall])
  · have hroot : p.root.toList = if before = [] then ['/'] else before := by
      rw [root, hcut, String.toList_ofList]
    split at hroot
    · rw [Path.isAbsolute, hroot] at relative
      cases relative
    · exact .inr ⟨below, hroot ▸ hglob⟩

variable (inclusion : p.isExclusion = false)
include inclusion

/-- A root has the first steps of its pattern. -/
theorem steps_root (relative : (Path.mk p.root).isAbsolute = false) :
    steps (Path.mk p.root).pieces <+: steps (Path.mk p.text).pieces := by
  have htext : steps (Path.mk p.text).pieces = steps (Text.split '/' p.globChars) := by
    rw [globChars_of_inclusion inclusion, steps_dropHere]
    rfl
  obtain hroot | ⟨below, hglob⟩ := root_cases_of_relative relative
  · rw [hroot]
    exact List.nil_prefix
  · rw [htext, hglob, Text.split_append, Path.steps_append, Path.pieces]
    exact List.prefix_append _ _

/-- Only an uprooted one among relative patterns has an absolute root. -/
theorem uprooted_of_absolute (relative : (Path.mk p.text).isAbsolute = false)
    (absolute : (Path.mk p.root).isAbsolute = true) : p.Uprooted := by
  have hglob : p.globChars.head? = some '/' := by
    rw [Path.isAbsolute, beq_iff_eq] at absolute
    obtain hall | ⟨before, below, hs, -, hcut⟩ := splitChars_cases p.globChars
    · rw [root, hall] at absolute
      cases absolute
    · rw [root, hcut, String.toList_ofList] at absolute
      cases before with
      | nil => rw [hs]; rfl
      | cons c rest => rw [hs]; exact absolute
  refine ⟨?_, hglob⟩
  rw [globChars_of_inclusion inclusion] at hglob
  obtain hsame | hhere := head?_dropHere p.text.toList
  · rw [Path.isAbsolute, ← hsame, hglob] at relative
    cases relative
  · exact hhere

end Inclusion

end Pattern

/-! ## Files below relative roots -/

namespace Resolution

open FileSystem

/-- Whether a path that is relative to a base leads below it to a file: it is made of names only,
and these lead from the directory of the base to the file. -/
def Inside (fs : FileSystem) (base path : Path) : Prop :=
  ∃ place entries names bytes, fs.find base = .ok (place, .directory entries) ∧ names ≠ [] ∧
    path.components = stepsTo names ∧ fs.root.at? (place ++ names) = some (.file bytes)

theorem Inside.relative {fs : FileSystem} {base path : Path} (h : Inside fs base path) :
    path.isAbsolute = false ∧ Component.up ∉ path.components := by
  obtain ⟨_, _, names, _, -, -, hcomponents, -⟩ := h
  have hnames {c : Component} (hc : c = .root ∨ c = .up) : c ∉ path.components := by
    rw [hcomponents]
    intro hmem
    obtain ⟨name, -, rfl⟩ := List.mem_map.1 hmem
    obtain hc | hc := hc <;> cases hc
  refine ⟨?_, hnames (.inr rfl)⟩
  rw [Bool.eq_false_iff, Ne, Path.isAbsolute_iff]
  intro hopening
  rw [Path.components_eq, hopening] at hnames
  exact hnames (.inl rfl) List.mem_cons_self

theorem steps_namePieces {below : Below} (hproper : ∀ name ∈ below, ProperName name) :
    steps (namePieces below) = stepsTo below := by
  induction below with
  | nil => rfl
  | cons name rest ih =>
    obtain ⟨hname, hrest⟩ := List.forall_mem_cons.1 hproper
    have hcomponent : Path.pieceComponent? name.toList = some (.name name.toList) := by
      rw [Path.pieceComponent?, if_neg (not_or.2 hname.1), if_neg hname.2.1]
    rw [namePieces, List.map_cons, steps, List.filterMap_cons_some hcomponent]
    exact congrArg _ (ih hrest)

section Below

variable {fs : FileSystem} {base : Path} {place : Place} {entries : List (String × Node)}
  (hbase : fs.find base = .ok (place, .directory entries)) {p : Pattern}
  (relative : (Path.mk p.root).isAbsolute = false)
include hbase relative

/-- A relative root without a `..` leads from the base to what its names make below it. -/
theorem find_rootPath (hup : Component.up ∉ steps (Path.mk p.root).pieces) {found : Place}
    {here : List (String × Node)} (hfind : fs.find (rootPath base p) = .ok (found, .directory here)) :
    ∃ names, found = place ++ names ∧ stepsTo names = steps (Path.mk p.root).pieces := by
  rw [rootPath] at hfind
  split at hfind
  · next hempty =>
    obtain ⟨rfl, -⟩ := Prod.mk.inj (Except.ok.inj (hbase.symm.trans hfind))
    exact ⟨[], (List.append_nil _).symm, by rw [hempty]; rfl⟩
  · exact find_join hbase relative hup hfind

omit hbase in
/-- The pieces of a relative root start with a named one. -/
theorem named_head_root : ∀ piece ∈ (Path.mk p.root).front.head?, Path.Named piece := by
  obtain hroot | ⟨below, hglob⟩ := Pattern.root_cases_of_relative relative
  · rw [hroot]
    intro piece hpiece
    cases hpiece
  · exact named_head_front_root relative rfl hglob

omit hbase in
/-- A file below a relative root is listed by the steps of the root and its names. -/
theorem components_listedPath (hne : base.text ≠ "") {below : Below} (hsome : below ≠ [])
    (hproper : ∀ name ∈ below, ProperName name) :
    (listedPath base (rootPath base p) below).components =
      steps (Path.mk p.root).pieces ++ stepsTo below := by
  have hfirst := named_head_root relative
  have hnames := named_namePieces hproper
  have hslash : ∀ piece ∈ (Path.mk p.root).front ++ namePieces below, '/' ∉ piece := by
    intro piece hpiece
    obtain hpiece | hpiece := List.mem_append.1 hpiece
    · exact Path.not_mem_of_mem_pieces (Path.mem_pieces_of_mem_front hpiece)
    · exact slash_not_mem_namePieces hproper piece hpiece
  have hopening : Path.opening ((Path.mk p.root).front ++ namePieces below) = [] := by
    obtain ⟨first, more, hbelow⟩ := List.exists_cons_of_ne_nil (namePieces_ne_nil hsome)
    cases hfront : (Path.mk p.root).front with
    | nil =>
      rw [List.nil_append, hbelow]
      exact Path.opening_eq_nil (hnames first (hbelow ▸ List.mem_cons_self)) more
    | cons piece rest =>
      exact Path.opening_eq_nil (hfirst piece (by rw [hfront]; rfl)) _
  rw [listedPath_relative hsome hproper hne (front_rootPath base relative) hfirst,
    Path.components_eq, Path.pieces_ofPieces (List.append_ne_nil_of_right_ne_nil _
      (namePieces_ne_nil hsome)) hslash, hopening, List.nil_append, Path.steps_append,
    Path.steps_front, steps_namePieces hproper]

/-- A file below a relative root without a `..` is inside the base. -/
theorem listedPath_inside (hup : Component.up ∉ steps (Path.mk p.root).pieces)
    (hnames : fs.root.ProperNames) (hunique : fs.root.UniqueNames) {below : Below}
    (hbelow : below ∈ fs.walk (rootPath base p)) :
    Inside fs base (listedPath base (rootPath base p) below) := by
  obtain ⟨hbad, -⟩ := find_eq_directory.1 hbase
  obtain ⟨hsome, hproper⟩ := mem_walk_names hnames hbelow
  obtain ⟨found, here, bytes, hfind, hat⟩ := at?_of_mem_walk hunique hbelow
  obtain ⟨names, rfl, hsteps⟩ := find_rootPath hbase relative hup hfind
  refine ⟨place, entries, names ++ below, bytes, hbase,
    List.append_ne_nil_of_right_ne_nil _ hsome, ?_, by rwa [← List.append_assoc]⟩
  rw [components_listedPath relative (badPath?_eq_none.1 hbad).2.1 hsome hproper, ← hsteps]
  exact List.map_append.symm

end Below

end Resolution

open Resolution

/-- Patterns that are relative and go nowhere up list what is inside the base, and besides it only
what is below the root of a pattern that is absolute without the `./` before it. -/
theorem resolveContent_inside {fs : FileSystem} {base : Path} {patterns : List Pattern}
    (names : fs.root.ProperNames) (unique : fs.root.UniqueNames)
    (directory : fs.isDirectory base = true) (compiles : ∀ p ∈ patterns, p.Compiles)
    (relative : ∀ p ∈ inclusions patterns, (Path.mk p.text).isAbsolute = false)
    (downward : ∀ p ∈ inclusions patterns, Component.up ∉ (Path.mk p.text).components) :
    ∃ resolution, resolveContent fs base patterns = .ok resolution ∧
      ∀ path ∈ resolution.files,
        (path.isAbsolute = false ∧ Component.up ∉ path.components ∧ Inside fs base path) ∨
        ∃ p ∈ inclusions patterns, p.Uprooted ∧ ∃ below ∈ fs.walk ⟨p.root⟩,
          path = listedPath base ⟨p.root⟩ below := by
  refine ⟨_, resolveContent_eq directory compiles, fun path hpath => ?_⟩
  obtain ⟨-, p, hp, below, hbelow, rfl⟩ := of_mem_files hpath
  have hinclusion : p.isExclusion = false := (mem_inclusions.1 hp).2
  cases habsolute : (Path.mk p.root).isAbsolute with
  | true =>
    rw [rootPath_of_absolute habsolute] at hbelow ⊢
    exact .inr ⟨p, hp, Pattern.uprooted_of_absolute hinclusion (relative p hp) habsolute, below,
      hbelow, rfl⟩
  | false =>
    obtain ⟨place, entries, hbase⟩ := FileSystem.exists_find_of_isDirectory directory
    have hup : Component.up ∉ steps (Path.mk p.root).pieces := fun hmem => by
      refine downward p hp ?_
      rw [Path.components_eq]
      exact List.mem_append_right _ ((Pattern.steps_root hinclusion habsolute).subset hmem)
    have hinside := listedPath_inside hbase habsolute hup names unique hbelow
    exact .inl ⟨hinside.relative.1, hinside.relative.2, hinside⟩

/-- A relative pattern beside one with a slash behind its `./`: the one lists a file inside the
base, the other a file elsewhere. -/
theorem resolveContent_inside_uprooted :
    let fs : FileSystem := ⟨.directory [("o", .directory [("x", .file .empty)]),
      ("w", .directory [("s", .directory [("x", .file .empty)])])], []⟩
    let patterns : List Pattern := [⟨".//o/*"⟩, ⟨"s/*"⟩]
    ∃ resolution, resolveContent fs ⟨"/w"⟩ patterns = .ok resolution ∧
      resolution.files = [⟨"/o/x"⟩, ⟨"s/x"⟩] ∧
      Inside fs ⟨"/w"⟩ ⟨"s/x"⟩ ∧ ¬ Inside fs ⟨"/w"⟩ ⟨"/o/x"⟩ := by
  intro fs patterns
  have hnames : fs.root.ProperNames := by
    simp [fs, Node.ProperNames, ProperEntries, ProperName, Path.Named]
  have hunique : fs.root.UniqueNames := by simp [fs, Node.UniqueNames, UniqueEntries, Entries.keys]
  have hbase : fs.isDirectory ⟨"/w"⟩ = true := by decide
  have compiles : ∀ p ∈ patterns, p.Compiles := by
    intro p hp
    simp only [patterns, List.mem_cons, List.not_mem_nil, or_false] at hp
    obtain rfl | rfl := hp <;> exact ⟨_, rfl⟩
  obtain ⟨resolution, hresolved, hinside⟩ :=
    resolveContent_inside hnames hunique hbase compiles (by decide) (by decide)
  have hfiles : resolution.files = [⟨"/o/x"⟩, ⟨"s/x"⟩] := by
    obtain rfl := Except.ok.inj (hresolved.symm.trans (resolveContent_eq hbase compiles))
    decide +kernel
  refine ⟨resolution, hresolved, hfiles, ?_, ?_⟩
  · obtain ⟨-, -, hlisted⟩ | ⟨p, hp, hup, below, hbelow, heq⟩ := hinside ⟨"s/x"⟩ (by simp [hfiles])
    · exact hlisted
    · simp only [inclusions, patterns, List.mem_filter, List.mem_cons, List.not_mem_nil,
        or_false] at hp
      obtain ⟨rfl | rfl, -⟩ := hp
      · have hwalk : fs.walk ⟨(Pattern.mk ".//o/*").root⟩ = [["x"]] := by decide +kernel
        rw [hwalk, List.mem_singleton] at hbelow
        rw [hbelow] at heq
        exact absurd heq (by decide)
      · exact absurd hup (by decide)
  · exact fun h => absurd h.relative.1 (by decide)

end CssBuild
