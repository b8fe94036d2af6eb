import CssBuild.Proofs.Content.Composition
import CssBuild.Proofs.Glob.Matching

/-!
# CssBuild.Proofs.Content.Exclusion

A pattern that excludes against the same pattern that includes.

1. An inclusion is matched in two parts, its root against directories and its
   tail against what is below; an exclusion is one glob for listed paths. Where
   the cut leaves no seam the glob matches what the two parts select
   (`glob_matches_listed`), and so nothing that is excluded is left
   (`resolveContent_excludes`).
2. The exceptions are files below the base that an absolute pattern selects:
   they are listed relative to the base, and an absolute glob matches none of
   them.
3. A seam, or a text of the same path that is not canonical, leaves files that
   both list (`resolveContent_overlaps`).
-/

namespace CssBuild

namespace Pattern

/-- The exclusion of what a pattern includes. -/
def negated (p : Pattern) : Pattern := ⟨"!" ++ p.text⟩

section Negated

variable {p : Pattern} (h : p.isExclusion = false)

theorem isExclusion_negated (p : Pattern) : p.negated.isExclusion = true := by
  simp [isExclusion, negated]

include h

theorem globChars_of_inclusion : p.globChars = dropHere p.text.toList := by
  rw [globChars]
  split
  · next heq =>
    rw [isExclusion, heq] at h
    cases h
  · rfl

theorem globChars_negated : p.negated.globChars = p.globChars := by
  rw [globChars_of_inclusion h]
  simp [globChars, negated]

theorem compile_negated : p.negated.compile = p.compile := by
  rw [compile, compile, globText, globText, globChars_negated h]

theorem glob_negated : p.negated.glob = p.glob := by
  rw [glob, glob, compile_negated h]

end Negated

/-- Whether a pattern reads as a whole as it reads when it is cut. -/
structure Seamless (p : Pattern) : Prop where
  /-- A root is a text, in which a backslash would be a character. -/
  plain : '\\' ∉ p.root.toList
  /-- The cut takes one slash away. -/
  single : ¬ '/' :: '/' :: p.tail.toList <:+ p.globChars
  /-- Behind a root, nothing but `**/` stands for directories only. -/
  files : p.root = "" ∨ Glob.onlyStars p.tail.toList = false

/-- Where a seamless pattern is cut. -/
theorem Seamless.cut {p : Pattern} (h : p.Seamless) {before : List Char}
    (hglob : p.globChars = before ++ '/' :: p.tail.toList)
    (hroot : p.root.toList = if before = [] then ['/'] else before) :
    before.getLast? ≠ some '/' ∧ '\\' ∉ before ∧ Glob.onlyStars p.tail.toList = false := by
  refine ⟨fun hlast => ?_, ?_, h.files.resolve_left fun hempty => ?_⟩
  · obtain ⟨init, rfl⟩ := List.getLast?_eq_some_iff.1 hlast
    exact h.single ⟨init, by rw [hglob]; simp⟩
  · by_cases hbefore : before = []
    · simp [hbefore]
    · rw [if_neg hbefore] at hroot
      exact hroot ▸ h.plain
  · rw [hempty] at hroot
    split at hroot
    · cases hroot
    · next hbefore => exact hbefore hroot.symm

theorem dropHere_ne (s rest : List Char) : dropHere s ≠ '.' :: '/' :: rest := by
  induction s using dropHere.induct with
  | case1 after ih =>
    rw [dropHere]
    exact ih
  | case2 s h =>
    rw [dropHere]
    · exact h rest
    · exact h

theorem globChars_ne (p : Pattern) (rest : List Char) : p.globChars ≠ '.' :: '/' :: rest := by
  rw [globChars]
  split <;> exact dropHere_ne _ rest

end Pattern

namespace Resolution

open CssBuild.Path

/-! ## Listed paths as texts -/

theorem text_ofPieces_namePieces (below : Below) :
    (ofPieces (namePieces below)).text = belowText below := by
  rw [← String.toList_inj, ofPieces, String.toList_ofList, toList_belowText]

/-- A root and the pieces below it as one text. -/
theorem text_front_append {before : List Char} {root : Path}
    (hroot : root.text.toList = if before = [] then ['/'] else before)
    (hcut : before.getLast? ≠ some '/') {names : List (List Char)} (hnames : names ≠ []) :
    (ofPieces (root.front ++ names)).text = String.ofList (before ++ '/' :: Text.join '/' names) := by
  rw [ofPieces]
  refine congrArg String.ofList ?_
  by_cases hbefore : before = []
  · have hfront : root.front = [[]] := by
      rw [hbefore, if_pos rfl] at hroot
      simp [front, pieces, hroot, Text.split]
    rw [hfront, hbefore, Text.join_append '/' (List.cons_ne_nil _ _) hnames]
    rfl
  · rw [if_neg hbefore] at hroot
    have hne : root.text ≠ "" := fun hempty => hbefore (hroot ▸ String.toList_eq_nil_iff.2 hempty)
    rw [front_eq_pieces hne (hroot ▸ hcut), Text.join_append '/' root.pieces_ne_nil hnames, pieces,
      Text.join_split, hroot]

/-- The root of a relative pattern starts with a name or with `..`. -/
theorem named_head_front_root {e : Pattern} (h : (Path.mk e.root).isAbsolute = false)
    {before after : List Char} (hroot : e.root.toList = before)
    (hglob : e.globChars = before ++ '/' :: after) :
    ∀ piece ∈ (Path.mk e.root).front.head?, Named piece := by
  intro piece hpiece
  obtain ⟨rest, hfront⟩ := List.head?_eq_some_iff.1 hpiece
  obtain ⟨more, hpieces⟩ : ∃ more, (Path.mk e.root).pieces = piece :: more := by
    obtain hp | hp := (Path.mk e.root).pieces_eq_front <;> rw [hp, hfront] <;> exact ⟨_, rfl⟩
  have htext : before = Text.join '/' (piece :: more) := by
    rw [← hroot, ← hpieces, pieces, Text.join_split]
  constructor
  · rintro rfl
    cases more with
    | nil =>
      have hnil : (Path.mk e.root).front = [] := by
        simp [front, hpieces]
      rw [hnil] at hfront
      cases hfront
    | cons next others =>
      rw [Bool.eq_false_iff, Ne, isAbsolute_iff, hpieces] at h
      exact h rfl
  · rintro rfl
    cases more with
    | nil => exact e.globChars_ne after (by rw [hglob, htext]; rfl)
    | cons next others =>
      refine e.globChars_ne (Text.join '/' (next :: others) ++ '/' :: after) ?_
      rw [hglob, htext, Text.join_cons '/' _ (List.cons_ne_nil _ _)]
      rfl

section Below

variable {base : Path} (hbase : base.text ≠ "") {e : Pattern} {below : Below} (hne : below ≠ [])
  (hproper : ∀ name ∈ below, ProperName name)
include hbase hne hproper

/-- Below a root that is cut off a file is listed by the root and the names below it. -/
theorem listedPath_cut {before after : List Char} (hglob : e.globChars = before ++ '/' :: after)
    (hroot : e.root.toList = if before = [] then ['/'] else before)
    (houtside : (Path.mk e.root).isAbsolute = true →
      ((Path.mk e.root).join ⟨belowText below⟩).stripPrefix? base = none) :
    listedPath base (rootPath base e) below =
      ofPieces ((Path.mk e.root).front ++ namePieces below) := by
  cases habsolute : (Path.mk e.root).isAbsolute with
  | false =>
    have hbefore : before ≠ [] := by
      rintro rfl
      rw [if_pos rfl] at hroot
      simp [isAbsolute, hroot] at habsolute
    rw [if_neg hbefore] at hroot
    exact listedPath_relative hne hproper hbase (front_rootPath base habsolute)
      (named_head_front_root habsolute hroot hglob)
  | true =>
    rw [rootPath_of_absolute habsolute, listedPath, houtside habsolute, Option.getD_none,
      ← pieces_whole hne hproper, ofPieces_pieces]

/-- A seamless glob matches what its root and its tail select, as it is listed. -/
theorem glob_matches_listed (hcompiles : e.Compiles) (seamless : e.Seamless)
    (houtside : (Path.mk e.root).isAbsolute = true →
      ((Path.mk e.root).join ⟨belowText below⟩).stripPrefix? base = none)
    (hmatches : e.tailGlob.matches (belowText below) = true) :
    e.glob.matches (listedPath base (rootPath base e) below).text = true := by
  obtain ⟨hroot, -, htail⟩ | ⟨before, root, found, hglob, hroot, htail, hbeneath, hread⟩ :=
    Pattern.compileTail_cases (Pattern.compile_eq hcompiles)
  · have hfront : (rootPath base e).front = base.front ++ [] := by
      rw [rootPath, if_pos hroot, List.append_nil]
    rw [listedPath_relative hne hproper hbase hfront (by simp)]
    have hsame : e.tailGlob = e.glob :=
      Except.ok.inj ((Pattern.compileTail_eq hcompiles).symm.trans htail)
    rw [List.nil_append, text_ofPieces_namePieces, ← hsame]
    exact hmatches
  · obtain ⟨hcut, hescape, hstars⟩ := seamless.cut hglob hroot
    have hsame : e.tailGlob = found :=
      Except.ok.inj ((Pattern.compileTail_eq hcompiles).symm.trans htail)
    rw [hsame] at hmatches
    rw [hread hescape] at hbeneath
    have htext : (listedPath base (rootPath base e) below).text =
        String.ofList (before ++ '/' :: (belowText below).toList) := by
      rw [listedPath_cut hbase hne hproper hglob hroot houtside, toList_belowText]
      exact text_front_append hroot hcut (namePieces_ne_nil hne)
    rw [htext]
    exact (hbeneath.matches_iff hstars).2 hmatches

end Below

/-! ## Files that are listed -/

section Files

variable {fs : FileSystem} {base : Path} {patterns : List Pattern} {path : Path}

/-- A file that is listed is below the root of an inclusion, and no exclusion matches it. -/
theorem of_mem_files (h : path ∈ (resolved fs base patterns).files) :
    (∀ glob ∈ excludedBy patterns, glob.matches path.text = false) ∧
      ∃ p ∈ inclusions patterns, ∃ below ∈ fs.walk (rootPath base p),
        path = listedPath base (rootPath base p) below := by
  obtain ⟨hit, hhit, rfl⟩ := exists_hit_of_mem_listedFiles h
  obtain ⟨root, hroot, hhit⟩ := List.mem_flatMap.1 hhit
  obtain ⟨p, hp, hpath⟩ :=
    ((groups_nil base patterns).grouped fun _ hmem => hmem).rooted root hroot
  obtain ⟨below, hbelow, hhit⟩ := List.mem_flatMap.1 hhit
  simp only at hhit
  split at hhit
  · cases hhit
  · next hexcluded =>
    obtain ⟨pattern, -, rfl⟩ := List.mem_map.1 hhit
    rw [Bool.not_eq_true, List.any_eq_false] at hexcluded
    refine ⟨fun glob hglob => Bool.eq_false_iff.2 (hexcluded glob hglob), p, hp, below, ?_, ?_⟩
    · exact hpath ▸ hbelow
    · rw [hpath]

/-- What an inclusion on its own lists its tail matches. -/
theorem of_mem_files_single {e : Pattern} (h : path ∈ (resolved fs base [e]).files) :
    ∃ below ∈ fs.walk (rootPath base e), listedPath base (rootPath base e) below = path ∧
      e.tailGlob.matches (belowText below) = true := by
  have halike : Alike fs base (excludedBy [e]) [e] := by
    intro p hp q hq _ glob
    rw [List.mem_singleton.1 (mem_inclusions.1 hp).1, List.mem_singleton.1 (mem_inclusions.1 hq).1]
  obtain ⟨p, hp, hpath⟩ := (exists_hit_iff halike).1 (exists_hit_of_mem_listedFiles h)
  obtain rfl := List.mem_singleton.1 hp
  obtain ⟨below, hbelow, hlisted, -, hmatches⟩ := mem_selected.1 (mem_selectedBy.1 hpath).2
  exact ⟨below, hbelow, hlisted, hmatches⟩

theorem canonical_of_mem_files (hnames : fs.root.ProperNames) (hbase : base.text ≠ "")
    (hclean : ∀ p ∈ inclusions patterns, (Path.mk p.root).Clean)
    (h : path ∈ (resolved fs base patterns).files) : path.Canonical := by
  obtain ⟨-, p, hp, below, hbelow, rfl⟩ := of_mem_files h
  obtain ⟨hne, hproper⟩ := FileSystem.mem_walk_names hnames hbelow
  exact (listedPath_clean hbase (hclean p hp) hne hproper).1

/-- A file that a seamless pattern and a list that excludes it have in common is below the base,
and the pattern is absolute. -/
theorem relative_of_mem_both (hnames : fs.root.ProperNames) (hbase : base.text ≠ "") {e : Pattern}
    (hcompiles : e.Compiles) (hinclusion : e.isExclusion = false) (seamless : e.Seamless)
    (hrest : path ∈ (resolved fs base (patterns ++ [e.negated])).files)
    (halone : path ∈ (resolved fs base [e]).files) :
    (Path.mk e.root).isAbsolute = true ∧ path.isAbsolute = false := by
  have hexcluded : e.glob.matches path.text = false := by
    refine (of_mem_files hrest).1 _ (List.mem_map.2 ⟨e.negated, ?_, Pattern.glob_negated hinclusion⟩)
    simp [exclusions, Pattern.isExclusion_negated]
  obtain ⟨below, hbelow, rfl, hmatches⟩ := of_mem_files_single halone
  obtain ⟨hne, hproper⟩ := FileSystem.mem_walk_names hnames hbelow
  have hinside : ¬ ((Path.mk e.root).isAbsolute = true →
      ((Path.mk e.root).join ⟨belowText below⟩).stripPrefix? base = none) := by
    intro houtside
    rw [glob_matches_listed hbase hne hproper hcompiles seamless houtside hmatches] at hexcluded
    cases hexcluded
  obtain ⟨habsolute, hstrip⟩ := Classical.not_imp.1 hinside
  obtain ⟨left, hleft⟩ := Option.ne_none_iff_exists'.1 hstrip
  refine ⟨habsolute, ?_⟩
  rw [rootPath_of_absolute habsolute, listedPath, hleft, Option.getD_some]
  exact isAbsolute_of_stripPrefix? (fun hnil => hbase (components_eq_nil.1 hnil)) hleft

end Files

end Resolution

open Resolution

/-- What a seamless pattern selects is not listed any more where the pattern is an exclusion. An
absolute pattern still leaves what is below the base, which is listed relative to it. Where all
roots are clean, no other text of the same path is listed either. -/
theorem resolveContent_excludes {fs : FileSystem} {base : Path} {patterns : List Pattern}
    {e : Pattern} (names : fs.root.ProperNames) (directory : fs.isDirectory base = true)
    (compiles : ∀ p ∈ patterns, p.Compiles) (compiles' : e.Compiles)
    (inclusion : e.isExclusion = false) (seamless : e.Seamless) :
    ∃ rest alone, resolveContent fs base (patterns ++ [e.negated]) = .ok rest ∧
      resolveContent fs base [e] = .ok alone ∧
      (∀ path ∈ rest.files, path ∈ alone.files →
        (Path.mk e.root).isAbsolute = true ∧ path.isAbsolute = false) ∧
      ((∀ p ∈ inclusions (patterns ++ [e]), (Path.mk p.root).Clean) →
        ∀ path ∈ rest.files, ∀ other ∈ alone.files, path.same other = true →
          (Path.mk e.root).isAbsolute = true ∧ path.isAbsolute = false) := by
  have hbase := text_ne_of_isDirectory directory
  have hcompiles : ∀ p ∈ patterns ++ [e.negated], p.Compiles := by
    refine List.forall_mem_append.2 ⟨compiles, fun p hp => ?_⟩
    rw [List.mem_singleton.1 hp, Pattern.Compiles, Pattern.compile_negated inclusion]
    exact compiles'
  have hboth (path : Path) (hrest : path ∈ (resolved fs base (patterns ++ [e.negated])).files)
      (halone : path ∈ (resolved fs base [e]).files) :
      (Path.mk e.root).isAbsolute = true ∧ path.isAbsolute = false :=
    relative_of_mem_both names hbase compiles' inclusion seamless hrest halone
  refine ⟨_, _, resolveContent_eq directory hcompiles,
    resolveContent_eq directory fun p hp => List.mem_singleton.1 hp ▸ compiles',
    hboth, fun clean path hrest other halone hsame => ?_⟩
  have hcleanRest : ∀ p ∈ inclusions (patterns ++ [e.negated]), (Path.mk p.root).Clean := by
    intro p hp
    refine clean p ?_
    simp_all [inclusions, Pattern.isExclusion_negated]
  have hcleanAlone : ∀ p ∈ inclusions [e], (Path.mk p.root).Clean := by
    intro p hp
    refine clean p ?_
    simp_all [inclusions]
  have hpath := canonical_of_mem_files names hbase hcleanRest hrest
  have hother := canonical_of_mem_files names hbase hcleanAlone halone
  obtain rfl := Path.eq_of_components_eq hpath hother (beq_iff_eq.1 hsame)
  exact hboth path hrest halone

/-- A pattern with a `..` in its root and `**` behind it, among patterns that overlap it. -/
theorem resolveContent_excludes_upward :
    let fs : FileSystem := ⟨.directory [("w", .directory [("x", .file .empty)]),
      ("s", .directory [("x", .file .empty), ("y", .file .empty)])], []⟩
    let patterns : List Pattern := [⟨"**"⟩, ⟨"../s/**"⟩]
    ∃ rest alone,
      resolveContent fs ⟨"/w"⟩ (patterns ++ [(Pattern.mk "../s/**/x").negated]) = .ok rest ∧
      resolveContent fs ⟨"/w"⟩ [⟨"../s/**/x"⟩] = .ok alone ∧
      ⟨"../s/x"⟩ ∈ alone.files ∧ ⟨"../s/x"⟩ ∉ rest.files := by
  intro fs patterns
  have names : fs.root.ProperNames := by
    simp [fs, Node.ProperNames, ProperEntries, ProperName, Path.Named]
  have compiles : ∀ p ∈ patterns, p.Compiles := by
    intro p hp
    simp only [patterns, List.mem_cons, List.not_mem_nil, or_false] at hp
    obtain rfl | rfl := hp <;> exact ⟨_, rfl⟩
  obtain ⟨rest, alone, hrest, halone, hboth, -⟩ := resolveContent_excludes names
    (show fs.isDirectory ⟨"/w"⟩ = true by decide) compiles
    (show (Pattern.mk "../s/**/x").Compiles from ⟨_, rfl⟩) (by decide)
    ⟨by decide, by decide, by decide⟩
  have hresolved : alone = resolved fs ⟨"/w"⟩ [⟨"../s/**/x"⟩] := by
    refine Except.ok.inj (halone.symm.trans (resolveContent_eq (by decide) fun p hp => ?_))
    rw [List.mem_singleton.1 hp]
    exact ⟨_, rfl⟩
  have hlisted : ⟨"../s/x"⟩ ∈ alone.files := by
    rw [hresolved]
    decide +kernel
  refine ⟨rest, alone, hrest, halone, hlisted, fun hmem => ?_⟩
  exact absurd (hboth _ hmem hlisted).1 (by decide)

/-! ## Seams -/

/-- Whether a pattern and a list that excludes it have a file in common. -/
def Overlaps (fs : FileSystem) (base : Path) (patterns : List Pattern) (e : Pattern) : Prop :=
  ∃ rest alone, resolveContent fs base (patterns ++ [e.negated]) = .ok rest ∧
    resolveContent fs base [e] = .ok alone ∧
    ∃ path ∈ rest.files, ∃ other ∈ alone.files, path.same other = true

theorem overlaps_of_mem {fs : FileSystem} {base : Path} (hbase : fs.isDirectory base = true)
    {p e : Pattern} (hp : p.Compiles) (he : e.Compiles) (hinclusion : e.isExclusion = false)
    {path other : Path} (hrest : path ∈ (resolved fs base [p, e.negated]).files)
    (halone : other ∈ (resolved fs base [e]).files) (hsame : path.same other = true) :
    Overlaps fs base [p] e := by
  have hnegated : e.negated.Compiles := by
    rw [Pattern.Compiles, Pattern.compile_negated hinclusion]
    exact he
  refine ⟨_, _, resolveContent_eq hbase ?_, resolveContent_eq hbase ?_, path, hrest, other, halone,
    hsame⟩
  · simpa using ⟨hp, hnegated⟩
  · simpa using he

/-- An absolute pattern for what is below the base, a doubled slash at the cut, nothing but `**/`
behind a root, a backslash in a root, and a `.` in the root of another pattern: in each case a file
is left that the exclusion selects when it includes. -/
theorem resolveContent_overlaps :
    let fs : FileSystem := ⟨.directory [("w", .directory [("sub", .directory [("x", .file .empty)]),
      ("s\\b", .directory [("x", .file .empty)])])], []⟩
    Overlaps fs ⟨"/w"⟩ [⟨"sub/*"⟩] ⟨"/w/sub/*"⟩ ∧
    Overlaps fs ⟨"/w"⟩ [⟨"sub/*"⟩] ⟨"sub//*"⟩ ∧
    Overlaps fs ⟨"/w"⟩ [⟨"sub/*"⟩] ⟨"sub/**/"⟩ ∧
    Overlaps fs ⟨"/w"⟩ [⟨"**/x"⟩] ⟨"s\\b/*"⟩ ∧
    Overlaps fs ⟨"/w"⟩ [⟨"sub/./*"⟩] ⟨"sub/*"⟩ := by
  intro fs
  have hbase : fs.isDirectory ⟨"/w"⟩ = true := by decide
  refine ⟨?_, ?_, ?_, ?_, ?_⟩
  · exact overlaps_of_mem hbase ⟨_, rfl⟩ ⟨_, rfl⟩ (by decide)
      (show ⟨"sub/x"⟩ ∈ _ by decide +kernel) (show ⟨"sub/x"⟩ ∈ _ by decide +kernel) (by decide)
  · exact overlaps_of_mem hbase ⟨_, rfl⟩ ⟨_, rfl⟩ (by decide)
      (show ⟨"sub/x"⟩ ∈ _ by decide +kernel) (show ⟨"sub/x"⟩ ∈ _ by decide +kernel) (by decide)
  · exact overlaps_of_mem hbase ⟨_, rfl⟩ ⟨_, rfl⟩ (by decide)
      (show ⟨"sub/x"⟩ ∈ _ by decide +kernel) (show ⟨"sub/x"⟩ ∈ _ by decide +kernel) (by decide)
  · exact overlaps_of_mem hbase ⟨_, rfl⟩ ⟨_, rfl⟩ (by decide)
      (show ⟨"s\\b/x"⟩ ∈ _ by decide +kernel) (show ⟨"s\\b/x"⟩ ∈ _ by decide +kernel) (by decide)
  · exact overlaps_of_mem hbase ⟨_, rfl⟩ ⟨_, rfl⟩ (by decide)
      (show ⟨"sub/./x"⟩ ∈ _ by decide +kernel) (show ⟨"sub/x"⟩ ∈ _ by decide +kernel) (by decide)

end CssBuild
