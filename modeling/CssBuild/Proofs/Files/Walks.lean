import CssBuild.Files.Walk
import CssBuild.Proofs.Files.Paths
import CssBuild.Proofs.Results

/-!
# CssBuild.Proofs.Files.Walks

What a walk depends on.

1. Where the entries of a tree have proper names, a walk gives proper names
   below its start, at least one (`mem_walk_names`).
2. A path is followed step by step, each step from a directory
   (`follow_cons_eq_ok`).
3. Two texts of one path lead to the same directory, if both can be followed or
   none (`find_congr`). What is between the steps of a path only asks for
   directories, and where a walk starts there is one (`leadsTo_iff_steps`).
4. A walk opens directories and ignore files by their paths (`opened`). Two
   texts of one path are walked alike, if all that is opened can be followed
   through both texts or through none (`walk_congr`).
-/

namespace CssBuild

/-! ## Trees with proper names -/

/-- Whether a text is the name of an entry. -/
def ProperName (name : String) : Prop :=
  Path.Named name.toList ∧ name.toList ≠ ['.', '.'] ∧ '/' ∉ name.toList

mutual

/-- Whether every entry of a tree has a proper name. -/
def Node.ProperNames : Node → Prop
  | .file _ => True
  | .directory entries => ProperEntries entries

/-- Whether every entry, and every one below it, has a proper name. -/
def ProperEntries : List (String × Node) → Prop
  | [] => True
  | (name, node) :: rest => ProperName name ∧ node.ProperNames ∧ ProperEntries rest

end

theorem properNames_of_find? {entries : List (String × Node)} (h : ProperEntries entries)
    {name : String} {node : Node} (hfind : Entries.find? entries name = some node) :
    node.ProperNames := by
  induction entries with
  | nil => cases hfind
  | cons entry rest ih =>
    obtain ⟨-, hnode, hrest⟩ := h
    rw [Entries.find?] at hfind
    split at hfind
    · exact Option.some.inj hfind ▸ hnode
    · exact ih hrest hfind

theorem properNames_of_at? {node found : Node} (h : node.ProperNames) {place : Place}
    (hat : node.at? place = some found) : found.ProperNames := by
  induction place generalizing node with
  | nil =>
    rw [Node.at?] at hat
    exact Option.some.inj hat ▸ h
  | cons name rest ih =>
    cases node with
    | file bytes => cases hat
    | directory entries =>
      rw [Node.at?] at hat
      split at hat
      · next hfind => exact ih (properNames_of_find? h hfind) hat
      · cases hat

/-- What a walk finds in a directory it finds among the entries, wherever the directory is. -/
theorem mem_walk_directory {path : Path} {nearest : List IgnoreFiles} {place : Place}
    {start below : Below} {entries : List (String × Node)}
    (hwalk : below ∈ (Node.directory entries).walk path nearest place start) :
    below ∈ walkEntries path (.ofDirectory (path.enter start) place (.directory entries) :: nearest)
      place start entries := by
  rw [Node.walk] at hwalk
  split at hwalk
  · exact hwalk
  · cases hwalk

mutual

theorem Node.walk_names {node : Node} (h : node.ProperNames) {path : Path}
    {nearest : List IgnoreFiles} {place : Place} {start below : Below}
    (hwalk : below ∈ node.walk path nearest place start) :
    ∃ names, below = start ++ names ∧ ∀ name ∈ names, ProperName name := by
  cases node with
  | file bytes =>
    rw [Node.walk] at hwalk
    exact ⟨[], by simpa using hwalk, by simp⟩
  | directory entries =>
    obtain ⟨names, -, hbelow, hnames⟩ := walkEntries_names h (mem_walk_directory hwalk)
    exact ⟨names, hbelow, hnames⟩

theorem walkEntries_names {entries : List (String × Node)} (h : ProperEntries entries)
    {path : Path} {nearest : List IgnoreFiles} {place : Place} {start below : Below}
    (hwalk : below ∈ walkEntries path nearest place start entries) :
    ∃ names, names ≠ [] ∧ below = start ++ names ∧ ∀ name ∈ names, ProperName name := by
  cases entries with
  | nil => cases hwalk
  | cons entry rest =>
    obtain ⟨name, node⟩ := entry
    obtain ⟨hname, hnode, hrest⟩ := h
    rw [walkEntries] at hwalk
    obtain hwalk | hwalk := List.mem_append.1 hwalk
    · split at hwalk
      · cases hwalk
      · obtain ⟨names, hbelow, hnames⟩ := Node.walk_names hnode hwalk
        refine ⟨name :: names, List.cons_ne_nil _ _, ?_, List.forall_mem_cons.2 ⟨hname, hnames⟩⟩
        rw [hbelow, List.append_assoc, List.singleton_append]
    · exact walkEntries_names hrest hwalk

end

namespace FileSystem

/-! ## Following pieces to a directory -/

/-- Whether pieces lead from a place to a directory with some entries. -/
def LeadsTo (root : Node) (place : Place) (pieces : List (List Char)) (found : Place)
    (entries : List (String × Node)) : Prop :=
  follow root place pieces = .ok found ∧ root.at? found = some (.directory entries)

variable {root : Node} {place found : Place} {entries : List (String × Node)}

theorem follow_cons (root : Node) (place : Place) (piece : List Char) (rest : List (List Char)) :
    follow root place (piece :: rest) =
      follow root place [piece] >>= fun next => follow root next rest := by
  simp only [follow]
  repeat' split
  all_goals rfl

theorem isName_iff {piece : List Char} :
    isName piece = true ↔ Path.Named piece ∧ piece ≠ ['.', '.'] := by
  simp [isName, Path.Named]

/-- Where a piece leads from a directory. -/
inductive StepTo (root : Node) (place : Place) : List Char → Place → Prop where
  /-- An empty piece and a `.` lead nowhere else. -/
  | stay {piece : List Char} {entries : List (String × Node)}
    (directory : root.at? place = some (.directory entries)) (unnamed : ¬ Path.Named piece) :
    StepTo root place piece place
  /-- A `..` leads to the directory above. -/
  | up {entries : List (String × Node)}
    (directory : root.at? place = some (.directory entries)) :
    StepTo root place ['.', '.'] place.dropLast
  /-- A name leads to what has it. -/
  | enter {piece : List Char} {entries : List (String × Node)}
    (directory : root.at? place = some (.directory entries)) (named : isName piece = true)
    (size : (String.ofList piece).utf8ByteSize ≤ maxName)
    (has : Entries.has entries (String.ofList piece) = true) :
    StepTo root place piece (place ++ [String.ofList piece])

theorem StepTo.exists_directory {next : Place} {piece : List Char}
    (h : StepTo root place piece next) : ∃ entries, root.at? place = some (.directory entries) := by
  cases h with
  | stay directory _ => exact ⟨_, directory⟩
  | up directory => exact ⟨_, directory⟩
  | enter directory _ _ _ => exact ⟨_, directory⟩

theorem follow_singleton {next : Place} {piece : List Char} :
    follow root place [piece] = .ok next ↔ StepTo root place piece next := by
  constructor
  · intro h
    rw [follow] at h
    split at h
    · cases h
    · cases h
    · next entries hat =>
      split at h
      · next hskip =>
        obtain rfl := Except.ok.inj h
        exact .stay hat fun hnamed => hskip.elim hnamed.1 hnamed.2
      · next hskip =>
        split at h
        · next hup =>
          obtain rfl := Except.ok.inj h
          exact hup ▸ .up hat
        · next hup =>
          simp only at h
          split at h
          · cases h
          · next hsize =>
            split at h
            · next hhas =>
              obtain rfl := Except.ok.inj h
              exact .enter hat (isName_iff.2 ⟨not_or.1 hskip, hup⟩) (Nat.le_of_not_lt hsize) hhas
            · cases h
  · intro h
    cases h with
    | stay hat hunnamed =>
      have hskip : piece = [] ∨ piece = ['.'] := by
        rw [Path.Named] at hunnamed
        grind
      simp only [follow, hat, if_pos hskip]
    | up hat =>
      rw [follow, hat]
      rfl
    | enter hat hname hsize hhas =>
      obtain ⟨hnamed, hup⟩ := isName_iff.1 hname
      simp only [follow, hat, if_neg (not_or.2 hnamed), if_neg hup, if_neg (Nat.not_lt.2 hsize),
        if_pos hhas]

/-- Pieces are followed one step after the other. -/
theorem follow_cons_eq_ok {piece : List Char} {rest : List (List Char)} :
    follow root place (piece :: rest) = .ok found ↔
      ∃ next, StepTo root place piece next ∧ follow root next rest = .ok found := by
  rw [follow_cons, bind_eq_ok]
  exact exists_congr fun next => and_congr_left fun _ => follow_singleton

theorem LeadsTo.start {pieces : List (List Char)} (h : LeadsTo root place pieces found entries) :
    ∃ here, root.at? place = some (.directory here) := by
  obtain ⟨hfollow, hat⟩ := h
  cases pieces with
  | nil =>
    rw [follow] at hfollow
    exact ⟨entries, Except.ok.inj hfollow ▸ hat⟩
  | cons piece rest =>
    obtain ⟨next, hstep, -⟩ := follow_cons_eq_ok.1 hfollow
    exact hstep.exists_directory

theorem leadsTo_cons {piece : List Char} {rest : List (List Char)} :
    LeadsTo root place (piece :: rest) found entries ↔
      ∃ next, StepTo root place piece next ∧ LeadsTo root next rest found entries := by
  rw [LeadsTo, follow_cons_eq_ok]
  constructor
  · rintro ⟨⟨next, hnext, hfollow⟩, hat⟩
    exact ⟨next, hnext, hfollow, hat⟩
  · rintro ⟨next, hnext, hfollow, hat⟩
    exact ⟨⟨next, hnext, hfollow⟩, hat⟩

theorem leadsTo_cons_of_not_named {piece : List Char} (h : ¬ Path.Named piece)
    {rest : List (List Char)} :
    LeadsTo root place (piece :: rest) found entries ↔ LeadsTo root place rest found entries := by
  rw [leadsTo_cons]
  constructor
  · rintro ⟨next, hstep, hrest⟩
    cases hstep with
    | stay _ _ => exact hrest
    | up _ => exact absurd ⟨by decide, by decide⟩ h
    | enter _ hname _ _ => exact absurd (isName_iff.1 hname).1 h
  · intro hrest
    obtain ⟨here, hhere⟩ := hrest.start
    exact ⟨place, .stay hhere h, hrest⟩

/-- Only the pieces that name steps lead anywhere. -/
theorem leadsTo_iff_steps {pieces : List (List Char)} :
    LeadsTo root place pieces found entries ↔
      LeadsTo root place ((Path.steps pieces).map Path.componentPiece) found entries := by
  induction pieces generalizing place with
  | nil => rfl
  | cons piece rest ih =>
    cases hc : Path.pieceComponent? piece with
    | none =>
      have hpiece := Path.pieceComponent?_eq_none.1 hc
      rw [leadsTo_cons_of_not_named hpiece, Path.steps_cons_of_not_named hpiece, ih]
    | some c =>
      rw [Path.steps, List.filterMap_cons_some hc, List.map_cons,
        Path.componentPiece_of_pieceComponent? hc, leadsTo_cons, leadsTo_cons]
      exact exists_congr fun next => and_congr_right fun _ => ih

/-! ## Directories of one path -/

theorem find_eq_ok {fs : FileSystem} {path : Path} {node : Node} :
    fs.find path = .ok (found, node) ↔ badPath? path = none ∧
      follow fs.root (fs.start path) path.pieces = .ok found ∧ fs.root.at? found = some node := by
  rw [find]
  split
  · next reason hbad => simp [hbad]
  · next hbad =>
    simp only [hbad, true_and, bind_eq_ok]
    constructor
    · rintro ⟨next, hnext, hnode⟩
      split at hnode
      · next hat =>
        obtain ⟨rfl, rfl⟩ := Prod.mk.inj (Except.ok.inj hnode)
        exact ⟨hnext, hat⟩
      · cases hnode
    · rintro ⟨hfollow, hat⟩
      exact ⟨found, hfollow, by rw [hat]⟩

theorem find_eq_directory {fs : FileSystem} {path : Path} :
    fs.find path = .ok (found, .directory entries) ↔
      badPath? path = none ∧ LeadsTo fs.root (fs.start path) path.pieces found entries := find_eq_ok

theorem exists_find_of_isDirectory {fs : FileSystem} {path : Path}
    (h : fs.isDirectory path = true) :
    ∃ place entries, fs.find path = .ok (place, .directory entries) := by
  rw [isDirectory] at h
  split at h
  · next place entries hfind => exact ⟨place, entries, hfind⟩
  · cases h

/-- What a walk gives are proper names, at least one. -/
theorem mem_walk_names {fs : FileSystem} (h : fs.root.ProperNames) {path : Path} {below : Below}
    (hwalk : below ∈ fs.walk path) : below ≠ [] ∧ ∀ name ∈ below, ProperName name := by
  rw [walk] at hwalk
  split at hwalk
  · next place entries hfind =>
    obtain ⟨-, -, hat⟩ := find_eq_directory.1 hfind
    obtain ⟨names, hne, hbelow, hnames⟩ :=
      walkEntries_names (properNames_of_at? h hat) (mem_walk_directory hwalk)
    rw [hbelow, List.nil_append]
    exact ⟨hne, hnames⟩
  · cases hwalk

theorem badPath?_eq_none {path : Path} :
    badPath? path = none ↔
      '\x00' ∉ path.text.toList ∧ path.text ≠ "" ∧ path.text.utf8ByteSize ≤ maxPath := by
  rw [badPath?]
  split
  · next h => simp [List.contains_iff_mem.1 h]
  · next h =>
    rw [List.contains_iff_mem] at h
    split
    · next hempty => simp [hempty]
    · next hempty =>
      split
      · next hlong => simp [hlong]
      · next hlong => simp [h, hempty, Nat.le_of_not_lt hlong]

section Same

variable (fs : FileSystem) {p q : Path} (hsame : p.components = q.components)
  (hsize : p.text.utf8ByteSize ≤ maxPath ↔ q.text.utf8ByteSize ≤ maxPath)
include hsame hsize

/-- Two texts of one path lead to the same directory, if both can be followed or none. -/
theorem find_congr (found : Place) (entries : List (String × Node)) :
    fs.find p = .ok (found, .directory entries) ↔ fs.find q = .ok (found, .directory entries) := by
  obtain ⟨hopening, hsteps⟩ := Path.opening_steps_of_components hsame
  have hbad : badPath? p = none ↔ badPath? q = none := by
    rw [badPath?_eq_none, badPath?_eq_none, Path.mem_text_iff (by decide) (by decide),
      Path.mem_text_iff (by decide) (by decide), Ne, Ne, ← Path.components_eq_nil,
      ← Path.components_eq_nil, hsame, hsize]
  have hstart : fs.start p = fs.start q := by
    have habsolute : p.isAbsolute = q.isAbsolute := by
      rw [Bool.eq_iff_iff, Path.isAbsolute_iff, Path.isAbsolute_iff, hopening]
    rw [start, start, habsolute]
  rw [find_eq_directory, find_eq_directory, hbad, hstart, leadsTo_iff_steps, hsteps,
    ← leadsTo_iff_steps]

theorem isDirectory_congr : fs.isDirectory p = fs.isDirectory q := by
  rw [isDirectory, isDirectory]
  split
  · next place entries hp => rw [(fs.find_congr hsame hsize place entries).1 hp]
  · next hp =>
    split
    · next place entries hq =>
      exact absurd ((fs.find_congr hsame hsize place entries).2 hq) (hp place entries)
    · rfl

end Same

theorem find_of_too_long (fs : FileSystem) {p : Path} (h : maxPath < p.text.utf8ByteSize)
    (found : Place × Node) : fs.find p ≠ .ok found := fun hfind =>
  Nat.not_le_of_gt h (badPath?_eq_none.1 (find_eq_ok.1 hfind).1).2.2

end FileSystem

/-! ## Walks of one path -/

open FileSystem (isShort)

mutual

/-- The directories and the ignore files that a walk from a path opens in a node, whether it
succeeds or not. -/
def Node.opened (start : Path) (nearest : List IgnoreFiles) (place : Place) (below : Below) :
    Node → List Below
  | .file _ => []
  | .directory entries =>
    below :: if isShort (start.enter below) then
      (IgnoreFiles.kindPlaces.filter fun kind =>
          ((Node.directory entries).at? kind).any fun node => !node.isDirectory).map (below ++ ·) ++
        openedEntries start
          (.ofDirectory (start.enter below) place (.directory entries) :: nearest) place below entries
    else []

/-- What a walk opens in the entries of a directory. -/
def openedEntries (start : Path) (nearest : List IgnoreFiles) (place : Place) (below : Below) :
    List (String × Node) → List Below
  | [] => []
  | (name, node) :: rest =>
    (if IgnoreFiles.leavesOut nearest (place ++ [name]) name node.isDirectory then []
      else node.opened start nearest (place ++ [name]) (below ++ [name])) ++
      openedEntries start nearest place below rest

end

theorem Path.enter_append (path : Path) (names more : List String) :
    path.enter (names ++ more) = (path.enter names).enter more :=
  List.foldl_append

/-- The ignore files of a directory do not depend on its path, if those that are there can be
followed through both paths or through none. -/
theorem IgnoreFiles.ofDirectory_congr {p q : Path} (place : Place) {directory : Node}
    (h : ∀ kind ∈ kindPlaces, ∀ bytes, directory.at? kind = some (.file bytes) →
      isShort (p.enter kind) = isShort (q.enter kind)) :
    ofDirectory p place directory = ofDirectory q place directory := by
  have hkinds (kind : Place) (hkind : kind ∈ kindPlaces) :
      rulesOf p directory kind = rulesOf q directory kind := by
    rw [rulesOf, rulesOf]
    split
    · next bytes hat => rw [h kind hkind bytes hat]
    · rfl
  rw [ofDirectory, ofDirectory, List.map_congr_left hkinds]

mutual

theorem Node.walk_congr {p q : Path} {node : Node} {nearest : List IgnoreFiles} {place : Place}
    {below : Below} (h : ∀ names ∈ node.opened p nearest place below,
      isShort (p.enter names) = isShort (q.enter names)) :
    node.walk p nearest place below = node.walk q nearest place below := by
  cases node with
  | file bytes => rfl
  | directory entries =>
    rw [Node.opened, List.forall_mem_cons] at h
    obtain ⟨hbelow, hmore⟩ := h
    rw [Node.walk, Node.walk, ← hbelow]
    split
    · next hshort =>
      rw [if_pos hshort, List.forall_mem_append] at hmore
      obtain ⟨hkinds, hentries⟩ := hmore
      have hfiles : IgnoreFiles.ofDirectory (p.enter below) place (.directory entries) =
          IgnoreFiles.ofDirectory (q.enter below) place (.directory entries) := by
        refine IgnoreFiles.ofDirectory_congr place fun kind hkind bytes hat => ?_
        rw [← Path.enter_append, ← Path.enter_append]
        exact hkinds _ (List.mem_map_of_mem (List.mem_filter.2 ⟨hkind, by rw [hat]; rfl⟩))
      rw [← hfiles]
      exact walkEntries_congr hentries
    · rfl

theorem walkEntries_congr {p q : Path} {entries : List (String × Node)}
    {nearest : List IgnoreFiles} {place : Place} {below : Below}
    (h : ∀ names ∈ openedEntries p nearest place below entries,
      isShort (p.enter names) = isShort (q.enter names)) :
    walkEntries p nearest place below entries = walkEntries q nearest place below entries := by
  cases entries with
  | nil => rfl
  | cons entry rest =>
    obtain ⟨name, node⟩ := entry
    rw [openedEntries, List.forall_mem_append] at h
    obtain ⟨hfirst, hrest⟩ := h
    rw [walkEntries, walkEntries, walkEntries_congr hrest]
    split
    · rfl
    · next hstays =>
      rw [if_neg hstays] at hfirst
      rw [Node.walk_congr hfirst]

end

namespace FileSystem

/-- The directories and the ignore files that a walk from a path opens, whether it succeeds or not,
the directory of the path first. -/
def opened (fs : FileSystem) (path : Path) : List Below :=
  match fs.find path with
  | .ok (place, .directory entries) =>
    Node.opened path (fs.ignoreAbove place) place [] (.directory entries)
  | _ => [[]]

theorem nil_mem_opened (fs : FileSystem) (path : Path) : [] ∈ fs.opened path := by
  rw [opened]
  split
  · rw [Node.opened]
    exact List.mem_cons_self
  · exact List.mem_singleton_self _

theorem isShort_iff {path : Path} : isShort path = true ↔ path.text.utf8ByteSize ≤ maxPath :=
  decide_eq_true_iff

/-- Two texts of one path are walked alike, if all that the walk opens can be followed through both
of them or through none. -/
theorem walk_congr (fs : FileSystem) {p q : Path} (hsame : p.components = q.components)
    (hsizes : ∀ names ∈ fs.opened p, isShort (p.enter names) = isShort (q.enter names)) :
    fs.walk p = fs.walk q := by
  have hsize : p.text.utf8ByteSize ≤ maxPath ↔ q.text.utf8ByteSize ≤ maxPath := by
    rw [← isShort_iff, ← isShort_iff]
    exact Bool.eq_iff_iff.1 (hsizes [] (fs.nil_mem_opened p))
  rw [opened] at hsizes
  rw [walk, walk]
  split
  · next place entries hp =>
    rw [hp] at hsizes
    rw [(fs.find_congr hsame hsize place entries).1 hp]
    exact Node.walk_congr hsizes
  · next hp =>
    split
    · next place entries hq =>
      exact absurd ((fs.find_congr hsame hsize place entries).2 hq) (hp place entries)
    · rfl

end FileSystem

end CssBuild
