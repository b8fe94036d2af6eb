import CssBuild.Proofs.Files.Parents

/-!
# CssBuild.Proofs.Files.Places

Where the files of a walk are.

1. In a tree whose directories have no name twice, what a walk gives are the
   names on the way from its start to a file (`FileSystem.at?_of_mem_walk`).
2. A path below a directory that goes nowhere up leads below that directory, by
   the names that it is made of (`FileSystem.find_join`).
3. There are no links, so the place that a path leads to can be read off its
   components (`Path.placeFrom`), whatever is in the tree (`follow_placeFrom`).
-/

namespace CssBuild

/-! ## Trees without repeated names -/

mutual

/-- Whether no directory of a tree has two entries with one name. -/
def Node.UniqueNames : Node → Prop
  | .file _ => True
  | .directory entries => (Entries.keys entries).Nodup ∧ UniqueEntries entries

/-- Whether no directory among some entries, or below them, has two entries with one name. -/
def UniqueEntries : List (String × Node) → Prop
  | [] => True
  | (_, node) :: rest => node.UniqueNames ∧ UniqueEntries rest

end

theorem uniqueNames_of_mem {entries : List (String × Node)} (h : UniqueEntries entries)
    {entry : String × Node} (hmem : entry ∈ entries) : entry.2.UniqueNames := by
  induction entries with
  | nil => cases hmem
  | cons first rest ih =>
    obtain ⟨hfirst, hrest⟩ := h
    obtain rfl | hmem := List.mem_cons.1 hmem
    · exact hfirst
    · exact ih hrest hmem

theorem uniqueNames_of_at? {node found : Node} (h : node.UniqueNames) {place : Place}
    (hat : node.at? place = some found) : found.UniqueNames := by
  induction place generalizing node with
  | nil =>
    rw [Node.at?] at hat
    exact Option.some.inj hat ▸ h
  | cons name rest ih =>
    cases node with
    | file bytes => cases hat
    | directory entries =>
      rw [Node.at?] at hat
      split at hat
      · next hfind => exact ih (uniqueNames_of_mem h.2 (Entries.mem_of_find? hfind)) hat
      · cases hat

theorem Node.at?_append (node : Node) (place more : Place) :
    node.at? (place ++ more) = (node.at? place).bind fun found => found.at? more := by
  induction place generalizing node with
  | nil => simp [Node.at?]
  | cons name rest ih =>
    cases node with
    | file bytes => rfl
    | directory entries =>
      rw [List.cons_append, Node.at?, Node.at?]
      split
      · exact ih _
      · rfl

/-! ## Walks -/

mutual

/-- A walk through a node gives the names on the way to files of the node. -/
theorem Node.walk_at? {node : Node} (h : node.UniqueNames) {path : Path}
    {nearest : List IgnoreFiles} {place : Place} {start below : Below}
    (hwalk : below ∈ node.walk path nearest place start) :
    ∃ names bytes, below = start ++ names ∧ node.at? names = some (.file bytes) := by
  cases node with
  | file bytes =>
    rw [Node.walk] at hwalk
    exact ⟨[], bytes, by simpa using hwalk, rfl⟩
  | directory entries =>
    have hentries := mem_walk_directory hwalk
    obtain ⟨name, names, node, bytes, rfl, hmem, hat⟩ := walkEntries_at? h.2 hentries
    refine ⟨name :: names, bytes, rfl, ?_⟩
    rw [Node.at?, (Entries.find?_eq_some_iff h.1).2 hmem]
    exact hat

theorem walkEntries_at? {entries : List (String × Node)} (h : UniqueEntries entries)
    {path : Path} {nearest : List IgnoreFiles} {place : Place} {start below : Below}
    (hwalk : below ∈ walkEntries path nearest place start entries) :
    ∃ name names node bytes, below = start ++ name :: names ∧ (name, node) ∈ entries ∧
      node.at? names = some (.file bytes) := by
  cases entries with
  | nil => cases hwalk
  | cons entry rest =>
    obtain ⟨name, node⟩ := entry
    obtain ⟨hnode, hrest⟩ := h
    rw [walkEntries] at hwalk
    obtain hwalk | hwalk := List.mem_append.1 hwalk
    · split at hwalk
      · cases hwalk
      · obtain ⟨names, bytes, rfl, hat⟩ := Node.walk_at? hnode hwalk
        refine ⟨name, names, node, bytes, ?_, List.mem_cons_self, hat⟩
        rw [List.append_assoc, List.singleton_append]
    · obtain ⟨other, names, found, bytes, hbelow, hmem, hat⟩ := walkEntries_at? hrest hwalk
      exact ⟨other, names, found, bytes, hbelow, List.mem_cons_of_mem _ hmem, hat⟩

end

namespace FileSystem

/-- What a walk gives are the names from where its path leads to a file. -/
theorem at?_of_mem_walk {fs : FileSystem} (h : fs.root.UniqueNames) {path : Path} {below : Below}
    (hwalk : below ∈ fs.walk path) :
    ∃ place entries bytes, fs.find path = .ok (place, .directory entries) ∧
      fs.root.at? (place ++ below) = some (.file bytes) := by
  rw [walk] at hwalk
  split at hwalk
  · next place entries hfind =>
    obtain ⟨-, -, hat⟩ := find_eq_directory.1 hfind
    obtain ⟨names, bytes, rfl, hnames⟩ := Node.walk_at? (uniqueNames_of_at? h hat) hwalk
    refine ⟨place, entries, bytes, hfind, ?_⟩
    rw [Node.at?_append, hat]
    exact hnames
  · cases hwalk

/-! ## Paths below a directory -/

theorem stepsTo_injective {place other : Place} (h : stepsTo place = stepsTo other) :
    place = other := by
  refine (List.map_inj_right fun a b hab => ?_).1 h
  exact String.toList_inj.1 (Component.name.inj hab)

/-- A place is reached from above it by the steps that come after those to the place above. -/
theorem exists_stepsTo_append {place found : Place} {steps : List Component}
    (h : stepsTo found = stepsTo place ++ steps) :
    ∃ names, found = place ++ names ∧ stepsTo names = steps := by
  obtain ⟨before, names, rfl, hbefore, hnames⟩ := List.map_eq_append_iff.1 h
  exact ⟨names, by rw [stepsTo_injective hbefore], hnames⟩

/-- A relative path without a `..` leads from a directory to the place that its names make below
it. -/
theorem find_join {fs : FileSystem} {base path : Path} {place found : Place}
    {entries here : List (String × Node)} (hbase : fs.find base = .ok (place, .directory entries))
    (hrelative : path.isAbsolute = false) (hup : Component.up ∉ Path.steps path.pieces)
    (hfind : fs.find (base.join path) = .ok (found, .directory here)) :
    ∃ names, found = place ++ names ∧ stepsTo names = Path.steps path.pieces := by
  obtain ⟨hbad, hleads⟩ := find_eq_directory.1 hbase
  obtain ⟨-, hfound⟩ := find_eq_directory.1 hfind
  have hne : base.text ≠ "" := (badPath?_eq_none.1 hbad).2.1
  have hstart : fs.start (base.join path) = fs.start base := by
    rw [start, start, Path.isAbsolute_join hne hrelative]
  rw [leadsTo_iff_steps] at hleads hfound
  rw [hstart, Path.pieces_join base hrelative, Path.steps_append, Path.steps_front, List.map_append,
    LeadsTo, follow_append, hleads.1, ok_bind] at hfound
  exact exists_stepsTo_append (stepsTo_follow (leadsTo_iff_steps.2 hfound).1 hup)

end FileSystem

/-! ## Places of paths -/

namespace Path

/-- The place to which a component leads from another one. -/
def next (place : Place) : Component → Place
  | .root => []
  | .here => place
  | .up => place.dropLast
  | .name text => place ++ [String.ofList text]

/-- The place that a path leads to from a working directory. -/
def placeFrom (p : Path) (workdir : Place) : Place := p.components.foldl next workdir

/-- The opening of a path leads to where its steps start. -/
theorem placeFrom_eq (p : Path) (workdir : Place) :
    p.placeFrom workdir = (steps p.pieces).foldl next (if p.isAbsolute then [] else workdir) := by
  rw [placeFrom, components_eq, List.foldl_append]
  cases habsolute : p.isAbsolute with
  | true =>
    rw [isAbsolute_iff.1 habsolute]
    rfl
  | false =>
    obtain hopening | ⟨c, -, -, hopening, -, -⟩ := opening_cases p.pieces
    · rw [hopening]
      rfl
    · obtain ⟨-, rfl | rfl⟩ := opening_mem (hopening ▸ List.mem_singleton_self c)
      · rw [← isAbsolute_iff, habsolute] at hopening
        cases hopening
      · rw [hopening]
        rfl

theorem placeFrom_of_isAbsolute {p : Path} (h : p.isAbsolute = true) (workdir place : Place) :
    p.placeFrom workdir = p.placeFrom place := by
  rw [placeFrom_eq, placeFrom_eq, if_pos h, if_pos h]

/-- A path below another one leads on from where that one leads. -/
theorem placeFrom_join {base : Path} (h : base.text ≠ "") (p : Path) (workdir : Place) :
    (base.join p).placeFrom workdir = p.placeFrom (base.placeFrom workdir) := by
  cases habsolute : p.isAbsolute with
  | true =>
    rw [join, if_pos habsolute]
    exact placeFrom_of_isAbsolute habsolute _ _
  | false =>
    rw [p.placeFrom_eq, habsolute, placeFrom, components_join h habsolute, List.foldl_append]
    rfl

theorem foldl_names (place : Place) (names : List String) :
    (FileSystem.stepsTo names).foldl next place = place ++ names := by
  induction names generalizing place with
  | nil => exact (List.append_nil place).symm
  | cons name rest ih =>
    rw [FileSystem.stepsTo, List.map_cons, List.foldl_cons]
    refine (ih _).trans ?_
    rw [next, String.ofList_toList, List.append_assoc, List.singleton_append]

theorem foldl_up (above left : Place) :
    (List.replicate left.length Component.up).foldl next (above ++ left) = above := by
  induction left generalizing above with
  | nil => exact List.append_nil above
  | cons name rest ih =>
    rw [List.append_cons, List.length_cons, List.replicate_succ', List.foldl_append, ih]
    exact List.dropLast_concat

end Path

namespace FileSystem

theorem follow_foldl {root : Node} {place found : Place} {pieces : List (List Char)}
    (h : follow root place pieces = .ok found) : (Path.steps pieces).foldl Path.next place = found := by
  induction pieces generalizing place with
  | nil => exact Except.ok.inj h
  | cons piece rest ih =>
    obtain ⟨next, hstep, h⟩ := follow_cons_eq_ok.1 h
    cases hstep with
    | stay _ hunnamed =>
      rw [Path.steps_cons_of_not_named hunnamed]
      exact ih h
    | up _ => exact ih h
    | enter _ hname _ _ =>
      obtain ⟨hnamed, hpiece⟩ := isName_iff.1 hname
      have hcomponent : Path.pieceComponent? piece = some (.name piece) := by
        rw [Path.pieceComponent?, if_neg (not_or.2 hnamed), if_neg hpiece]
      rw [Path.steps, List.filterMap_cons_some hcomponent]
      exact ih h

/-- A path that leads somewhere leads to the place of its components. -/
theorem follow_placeFrom {fs : FileSystem} {p : Path} {found : Place}
    (h : follow fs.root (fs.start p) p.pieces = .ok found) : p.placeFrom fs.workdir = found :=
  (p.placeFrom_eq _).trans (follow_foldl h)

theorem find_placeFrom {fs : FileSystem} {p : Path} {place : Place} {node : Node}
    (h : fs.find p = .ok (place, node)) : p.placeFrom fs.workdir = place :=
  follow_placeFrom (find_eq_ok.1 h).2.1

end FileSystem

end CssBuild
