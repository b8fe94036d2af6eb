import CssBuild.Proofs.Files.Places
import CssBuild.Proofs.Files.Writing

/-!
# CssBuild.Proofs.Files.Reaching

Paths that reach files.

1. A path whose last piece is named does not ask for a directory, so where it
   leads depends on its components only (`follow_congr`), and a directory leads
   on to what is below it by names (`follow_names`).
2. Put behind a path again, what is left without it has the components it came
   from (`components_join_stripPrefix?`).
3. Where the names of a tree can be stored, a path that leads to a file is
   refused only for its size (`LeadsToFile.isFile`).
4. A walk finds no more files than there are in the tree (`length_walk_le`).
-/

namespace CssBuild

/-! ## Names that can be stored -/

/-- Whether a file system can hold an entry of a name. -/
def StorableName (name : String) : Prop :=
  name.utf8ByteSize ≤ FileSystem.maxName ∧ '\x00' ∉ name.toList

instance (name : String) : Decidable (StorableName name) := inferInstanceAs (Decidable (_ ∧ _))

mutual

/-- Whether a file system can hold every entry of a tree by its name. -/
def Node.Storable : Node → Prop
  | .file _ => True
  | .directory entries => StorableEntries entries

/-- Whether a file system can hold every entry, and every one below it, by its name. -/
def StorableEntries : List (String × Node) → Prop
  | [] => True
  | (name, node) :: rest => StorableName name ∧ node.Storable ∧ StorableEntries rest

end

theorem storable_of_mem {entries : List (String × Node)} (h : StorableEntries entries)
    {entry : String × Node} (hmem : entry ∈ entries) :
    StorableName entry.1 ∧ entry.2.Storable := by
  induction entries with
  | nil => cases hmem
  | cons first rest ih =>
    obtain ⟨hname, hnode, hrest⟩ := h
    obtain rfl | hmem := List.mem_cons.1 hmem
    · exact ⟨hname, hnode⟩
    · exact ih hrest hmem

/-- A place in a tree of storable names is made of them, and what is there has them too. -/
theorem storable_of_at? {node found : Node} (h : node.Storable) {place : Place}
    (hat : node.at? place = some found) : (∀ name ∈ place, StorableName name) ∧ found.Storable := by
  induction place generalizing node with
  | nil =>
    rw [Node.at?] at hat
    exact ⟨by simp, Option.some.inj hat ▸ h⟩
  | cons name rest ih =>
    cases node with
    | file bytes => cases hat
    | directory entries =>
      rw [Node.at?_directory_cons] at hat
      obtain ⟨next, hfind, hat⟩ := Option.bind_eq_some_iff.1 hat
      obtain ⟨hname, hnext⟩ := storable_of_mem h (Entries.mem_of_find? hfind)
      obtain ⟨hrest, hfound⟩ := ih hnext hat
      exact ⟨List.forall_mem_cons.2 ⟨hname, hrest⟩, hfound⟩

namespace Path

/-! ## Paths behind what was taken from them -/

theorem steps_of_dropComponents {absolute : Bool} {pieces left : List (List Char)}
    {taken : List Component}
    (h : dropComponents pieces (locate false absolute pieces) taken = some left) :
    steps pieces = taken ++ steps left := by
  induction pieces generalizing taken with
  | nil =>
    cases taken with
    | nil =>
      rw [dropComponents] at h
      rw [← Option.some.inj h, List.nil_append]
    | cons d ds => cases h
  | cons piece rest ih =>
    cases taken with
    | nil =>
      rw [dropComponents] at h
      rw [← Option.some.inj h, List.nil_append]
    | cons d ds =>
      cases hc : pieceComponent? piece with
      | none =>
        have hpiece := pieceComponent?_eq_none.1 hc
        rw [locate_cons_of_not_named hpiece] at h
        rw [steps_cons_of_not_named hpiece]
        -- Something is taken, so the pieces in front are of no matter.
        refine ih (Eq.trans ?_ h)
        cases locate false absolute rest <;> rfl
      | some c =>
        rw [locate_cons hc, dropComponents] at h
        split at h
        · next hsame =>
          rw [steps, List.filterMap_cons_some hc, ← hsame]
          exact congrArg _ (ih h)
        · cases h

theorem components_of_dropComponents {p : Path} {left : List (List Char)} {taken : List Component}
    (hne : taken ≠ []) (h : dropComponents p.pieces p.located taken = some left) :
    p.components = taken ++ steps left := by
  rw [located_eq] at h
  rw [components_eq]
  obtain hopening | ⟨c, piece, rest, hopening, hpieces, hpiece⟩ := opening_cases p.pieces
  · rw [hopening] at h ⊢
    exact steps_of_dropComponents h
  · rw [hopening, hpieces, locate_cons_of_not_named hpiece] at h
    rw [hopening, hpieces, steps_cons_of_not_named hpiece]
    obtain ⟨d, ds, rfl⟩ := List.exists_cons_of_ne_nil hne
    rw [List.map_singleton, List.singleton_append, dropComponents] at h
    split at h
    · next hsame =>
      rw [← hsame]
      exact congrArg _ (steps_of_dropComponents h)
    · cases h

theorem steps_trimStart (pieces : List (List Char)) : steps (trimStart pieces) = steps pieces := by
  induction pieces with
  | nil => rfl
  | cons piece rest ih =>
    rw [trimStart]
    cases hc : pieceComponent? piece with
    | some c => rw [List.dropWhile_cons_of_neg (by simp [hc])]
    | none =>
      rw [List.dropWhile_cons_of_pos (by simp [hc]), ← trimStart, ih,
        steps_cons_of_not_named (pieceComponent?_eq_none.1 hc)]

theorem named_getLast_trimEnd (pieces : List (List Char)) :
    ∀ piece ∈ (trimEnd pieces).getLast?, Named piece := by
  intro piece hpiece
  rw [trimEnd, List.getLast?_reverse] at hpiece
  exact named_head_trimStart pieces.reverse piece hpiece

/-- Whether the last piece of a path is named. A path that ends with a slash or a `.` asks for a
directory. -/
def Ends (p : Path) : Prop := ∀ piece ∈ p.pieces.getLast?, Named piece

/-- Put behind a path again, what is left of another path without it has the components of that
one. It does not ask for a directory, if anything is left. -/
theorem components_join_stripPrefix? {p base q : Path} (hbase : base.text ≠ "")
    (h : p.stripPrefix? base = some q) :
    (base.join q).components = p.components ∧
      (base.components ≠ p.components → (base.join q).Ends) := by
  have hne : base.components ≠ [] := fun hnil => hbase (components_eq_nil.1 hnil)
  have hrelative := isAbsolute_of_stripPrefix? hne h
  obtain ⟨left, hdrop, hslash, rfl⟩ := exists_of_stripPrefix? hne h
  have hcomponents := components_of_dropComponents hne hdrop
  have hsteps : steps (trimEnd (trimStart left)) = steps left := by
    rw [steps_trimEnd, steps_trimStart]
  cases hleft : trimEnd (trimStart left) with
  | nil =>
    rw [hleft] at hsteps hrelative
    have hnone : steps left = [] := hsteps.symm
    rw [hnone, List.append_nil] at hcomponents
    refine ⟨?_, fun hother => absurd hcomponents.symm hother⟩
    rw [components_join hbase hrelative, hcomponents]
    exact List.append_nil _
  | cons first rest =>
    have hpieces : (ofPieces (first :: rest)).pieces = first :: rest :=
      pieces_ofPieces (List.cons_ne_nil _ _) (hleft ▸ hslash)
    rw [hleft] at hsteps hrelative
    refine ⟨?_, fun _ piece hpiece => ?_⟩
    · rw [components_join hbase hrelative, hpieces, hsteps, hcomponents]
    · rw [pieces_join base hrelative, hpieces, List.getLast?_append, List.getLast?_cons] at hpiece
      refine named_getLast_trimEnd (trimStart left) piece ?_
      rwa [hleft, List.getLast?_cons]

end Path

namespace FileSystem

variable {root : Node} {place found : Place}

/-! ## Pieces with a name at the end -/

theorem follow_concat {before : List (List Char)} {piece : List Char} :
    follow root place (before ++ [piece]) = .ok found ↔
      ∃ next entries, LeadsTo root place before next entries ∧ StepTo root next piece found := by
  rw [follow_append, bind_eq_ok]
  constructor
  · rintro ⟨next, hnext, hstep⟩
    have hstep := follow_singleton.1 hstep
    obtain ⟨entries, hat⟩ := hstep.exists_directory
    exact ⟨next, entries, ⟨hnext, hat⟩, hstep⟩
  · rintro ⟨next, entries, hleads, hstep⟩
    exact ⟨next, hleads.1, follow_singleton.2 hstep⟩

/-- Paths of the same components that do not ask for a directory lead to the same place. -/
theorem follow_congr (fs : FileSystem) {p q : Path} (hsame : p.components = q.components)
    (hp : p.Ends) (hq : q.Ends) :
    follow fs.root (fs.start p) p.pieces = .ok found ↔
      follow fs.root (fs.start q) q.pieces = .ok found := by
  obtain ⟨hopening, hsteps⟩ := Path.opening_steps_of_components hsame
  have hstart : fs.start p = fs.start q := by
    have habsolute : p.isAbsolute = q.isAbsolute := by
      rw [Bool.eq_iff_iff, Path.isAbsolute_iff, Path.isAbsolute_iff, hopening]
    rw [start, start, habsolute]
  have hends {r : Path} (hr : r.Ends) : ∃ before piece c, r.pieces = before ++ [piece] ∧
      Path.steps r.pieces = Path.steps before ++ [c] ∧ Path.componentPiece c = piece := by
    obtain ⟨before, piece, hpieces⟩ := r.pieces.eq_nil_or_concat.resolve_left r.pieces_ne_nil
    rw [List.concat_eq_append] at hpieces
    obtain ⟨c, hc, hpiece⟩ := Path.exists_component (hr piece (by simp [hpieces]))
    refine ⟨before, piece, c, hpieces, ?_, hpiece⟩
    rw [hpieces, Path.steps_append, Path.steps, Path.steps, List.filterMap_cons_some hc]
    rfl
  obtain ⟨before, _, c, hpieces, hpsteps, rfl⟩ := hends hp
  obtain ⟨before', _, d, hqpieces, hqsteps, rfl⟩ := hends hq
  rw [hpsteps, hqsteps] at hsteps
  obtain ⟨hbefore, hlast⟩ := List.append_inj' hsteps rfl
  obtain rfl := (List.cons.inj hlast).1
  rw [hpieces, hqpieces, hstart, follow_concat, follow_concat]
  refine exists_congr fun next => exists_congr fun entries => and_congr_left fun _ => ?_
  rw [leadsTo_iff_steps, hbefore, ← leadsTo_iff_steps]

/-- From a directory, storable names lead to what is there. -/
theorem follow_names {entries : List (String × Node)} {names : List String}
    (hat : root.at? place = some (.directory entries)) {node : Node}
    (hfound : root.at? (place ++ names) = some node) (hproper : ∀ name ∈ names, ProperName name)
    (hstorable : ∀ name ∈ names, StorableName name) :
    follow root place (names.map String.toList) = .ok (place ++ names) := by
  induction names generalizing place entries with
  | nil =>
    rw [List.append_nil]
    rfl
  | cons name rest ih =>
    obtain ⟨hname, hrest⟩ := List.forall_mem_cons.1 hproper
    obtain ⟨hsize, hmore⟩ := List.forall_mem_cons.1 hstorable
    rw [List.append_cons] at hfound ⊢
    obtain ⟨next, hnext⟩ : ∃ next, root.at? (place ++ [name]) = some next := by
      rw [Node.at?_append] at hfound
      exact (Option.bind_eq_some_iff.1 hfound).imp fun _ h => h.1
    have hhas : Entries.has entries name = true := by
      rw [Entries.has_eq_isSome, ← Node.at?_concat hat, hnext]
      rfl
    have hstep : StepTo root place name.toList (place ++ [name]) := by
      have hpiece : isName name.toList = true := isName_iff.2 ⟨hname.1, hname.2.1⟩
      have henter := StepTo.enter hat hpiece
        (by rw [String.ofList_toList]; exact hsize.1) (by rw [String.ofList_toList]; exact hhas)
      rwa [String.ofList_toList] at henter
    refine follow_cons_eq_ok.2 ⟨_, hstep, ?_⟩
    cases rest with
    | nil =>
      rw [List.append_nil]
      rfl
    | cons other more =>
      cases next with
      | file bytes =>
        rw [Node.at?_append, hnext] at hfound
        cases hfound
      | directory below => exact ih hnext hfound hrest hmore

/-! ## What is a file -/

theorem null_not_mem_of_follow (hstorable : root.Storable) {pieces : List (List Char)}
    (h : follow root place pieces = .ok found) : ∀ piece ∈ pieces, '\x00' ∉ piece := by
  induction pieces generalizing place with
  | nil => simp
  | cons piece rest ih =>
    obtain ⟨next, hstep, hrest⟩ := follow_cons_eq_ok.1 h
    refine List.forall_mem_cons.2 ⟨?_, ih hrest⟩
    cases hstep with
    | stay _ hunnamed =>
      have hpiece : piece = [] ∨ piece = ['.'] := by
        rw [Path.Named] at hunnamed
        grind
      obtain rfl | rfl := hpiece <;> decide
    | up _ => decide
    | enter hat _ _ hhas =>
      obtain ⟨-, hentries⟩ := storable_of_at? hstorable hat
      obtain ⟨⟨name, node⟩, hmem, hname⟩ := List.mem_map.1 (Entries.has_iff.1 hhas)
      have hnull := (storable_of_mem hentries hmem).1.2
      rwa [show name = _ from hname, String.toList_ofList] at hnull

/-- Whether the pieces of a path, however many they are, lead to a file one after the other. -/
def LeadsToFile (fs : FileSystem) (path : Path) : Prop :=
  ∃ found bytes, follow fs.root (fs.start path) path.pieces = .ok found ∧
    fs.root.at? found = some (.file bytes)

/-- Where names can be stored, a path that leads to a file is one, unless its text is longer than
can be followed. -/
theorem LeadsToFile.isFile {fs : FileSystem} {path : Path} (h : fs.LeadsToFile path)
    (hstorable : fs.root.Storable) (hne : path.text ≠ "")
    (hsize : path.text.utf8ByteSize ≤ maxPath) : fs.isFile path = true := by
  obtain ⟨found, bytes, hfollow, hat⟩ := h
  have hnull : '\x00' ∉ path.text.toList := by
    rw [← Text.join_split '/' path.text.toList, Text.mem_join (by decide)]
    rintro ⟨piece, hpiece, hmem⟩
    exact null_not_mem_of_follow hstorable hfollow piece hpiece hmem
  rw [FileSystem.isFile, find_eq_ok.2 ⟨badPath?_eq_none.2 ⟨hnull, hne, hsize⟩, hfollow, hat⟩]

end FileSystem

/-! ## The number of files -/

mutual

/-- How many files a tree has. -/
def Node.fileCount : Node → Nat
  | .file _ => 1
  | .directory entries => entryFileCount entries

/-- How many files there are among entries and below them. -/
def entryFileCount : List (String × Node) → Nat
  | [] => 0
  | (_, node) :: rest => node.fileCount + entryFileCount rest

end

theorem fileCount_le_of_mem {entries : List (String × Node)} {entry : String × Node}
    (h : entry ∈ entries) : entry.2.fileCount ≤ entryFileCount entries := by
  induction entries with
  | nil => cases h
  | cons first rest ih =>
    rw [entryFileCount]
    obtain rfl | h := List.mem_cons.1 h
    · exact Nat.le_add_right _ _
    · exact Nat.le_add_left_of_le (ih h)

theorem fileCount_le_of_at? {node found : Node} {place : Place}
    (h : node.at? place = some found) : found.fileCount ≤ node.fileCount := by
  induction place generalizing node with
  | nil =>
    rw [Node.at?] at h
    rw [Option.some.inj h]
  | cons name rest ih =>
    cases node with
    | file bytes => cases h
    | directory entries =>
      rw [Node.at?_directory_cons] at h
      obtain ⟨next, hfind, hat⟩ := Option.bind_eq_some_iff.1 h
      exact (ih hat).trans (fileCount_le_of_mem (Entries.mem_of_find? hfind))

mutual

theorem Node.length_walk_le (node : Node) (start : Path) (nearest : List IgnoreFiles)
    (place : Place) (below : Below) :
    (node.walk start nearest place below).length ≤ node.fileCount := by
  cases node with
  | file bytes => exact Nat.le_refl _
  | directory entries =>
    rw [Node.walk]
    split
    · exact length_walkEntries_le entries start _ place below
    · exact Nat.zero_le _

theorem length_walkEntries_le (entries : List (String × Node)) (start : Path)
    (nearest : List IgnoreFiles) (place : Place) (below : Below) :
    (walkEntries start nearest place below entries).length ≤ entryFileCount entries := by
  cases entries with
  | nil => exact Nat.le_refl _
  | cons entry rest =>
    obtain ⟨name, node⟩ := entry
    rw [walkEntries, List.length_append, entryFileCount]
    refine Nat.add_le_add ?_ (length_walkEntries_le rest start nearest place below)
    split
    · exact Nat.zero_le _
    · exact Node.length_walk_le node _ _ _ _

end

/-- A walk finds no more files than there are. -/
theorem FileSystem.length_walk_le (fs : FileSystem) (path : Path) :
    (fs.walk path).length ≤ fs.root.fileCount := by
  rw [walk]
  split
  · next hfind =>
    obtain ⟨-, -, hat⟩ := find_eq_directory.1 hfind
    exact (Node.length_walk_le _ _ _ _ _).trans (fileCount_le_of_at? hat)
  · exact Nat.zero_le _

end CssBuild
