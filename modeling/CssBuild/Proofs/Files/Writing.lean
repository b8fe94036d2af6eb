import CssBuild.Proofs.Files.Parents

/-!
# CssBuild.Proofs.Files.Writing

What writing changes.

1. What there is at each place tells everything about a file system that
   following a path depends on. Writing a file or making a directory changes it
   at a single place (`Puts`).
2. Where no directory goes and nothing becomes empty (`Extends`), a path leads
   to where it led.
3. Making the directories above a path adds directories to which these paths
   lead, and nothing else (`Grows`), by induction on the fuel, and afterwards
   they are there (`makeDirectories_spec`).
-/

namespace CssBuild

/-! ## Occupants of places -/

/-- What there is at a place: a file with its bytes, or a directory. -/
inductive Occupant where
  /-- A file. -/
  | file (bytes : ByteArray)
  /-- A directory, whatever its entries. -/
  | directory

namespace Node

/-- The node as what there is at a place. -/
def occupant : Node → Occupant
  | .file bytes => .file bytes
  | .directory _ => .directory

theorem occupant_eq_file {node : Node} {bytes : ByteArray} :
    node.occupant = .file bytes ↔ node = .file bytes := by
  cases node <;> simp [occupant]

theorem occupant_eq_directory {node : Node} :
    node.occupant = .directory ↔ ∃ entries, node = .directory entries := by
  cases node <;> simp [occupant]

variable {root : Node} {place : Place} {entries : List (String × Node)}

theorem at?_directory_cons (entries : List (String × Node)) (name : String) (rest : Place) :
    (directory entries).at? (name :: rest) =
      (Entries.find? entries name).bind fun node => node.at? rest := by
  rw [at?]
  cases Entries.find? entries name <;> rfl

theorem at?_concat (h : root.at? place = some (.directory entries)) (name : String) :
    root.at? (place ++ [name]) = Entries.find? entries name := by
  induction place generalizing root with
  | nil =>
    obtain rfl := Option.some.inj h
    rw [List.nil_append, at?_directory_cons]
    cases Entries.find? entries name <;> rfl
  | cons first rest ih =>
    cases root with
    | file bytes => cases h
    | directory children =>
      rw [at?_directory_cons] at h
      obtain ⟨child, hchild, h⟩ := Option.bind_eq_some_iff.1 h
      rw [List.cons_append, at?_directory_cons, hchild, Option.bind_some, ih h]

/-- A node below which there is nothing. -/
def Childless (node : Node) : Prop := ∀ name rest, node.at? (name :: rest) = none

theorem childless_file (bytes : ByteArray) : (Node.file bytes).Childless := fun _ _ => rfl

theorem childless_nil : (Node.directory []).Childless := fun _ _ => rfl

theorem put_cons_concat {children : List (String × Node)} {parent : String} {child : Node}
    (h : Entries.find? children parent = some child) (rest : Place) (name : String) (new : Node) :
    (directory children).put (parent :: (rest ++ [name])) new =
      directory (Entries.put children parent (child.put (rest ++ [name]) new)) := by
  obtain ⟨next, more, hbelow⟩ := List.exists_cons_of_ne_nil
    (List.append_ne_nil_of_right_ne_nil rest (List.cons_ne_nil name []))
  rw [hbelow, put, h]
  exact List.cons_ne_nil _ _

/-- Putting a node into a directory changes what there is at a single place, unless there was a
directory. -/
theorem occupant_put (h : root.at? place = some (.directory entries)) {name : String} {new : Node}
    (hnew : new.Childless) (hold : ∀ below, Entries.find? entries name ≠ some (.directory below))
    (other : Place) :
    ((root.put (place ++ [name]) new).at? other).map occupant =
      if other = place ++ [name] then some new.occupant else (root.at? other).map occupant := by
  induction place generalizing root other with
  | nil =>
    obtain rfl := Option.some.inj h
    rw [List.nil_append, put]
    cases other with
    | nil => rfl
    | cons first rest =>
      rw [at?_directory_cons, at?_directory_cons]
      by_cases hfirst : first = name
      · subst hfirst
        rw [Entries.find?_put_self, Option.bind_some]
        cases rest with
        | nil => simp [at?]
        | cons next more =>
          have hbefore : ((Entries.find? entries first).bind fun node => node.at? (next :: more)) =
              none := by
            cases hfind : Entries.find? entries first with
            | none => rfl
            | some node =>
              cases node with
              | file bytes => rfl
              | directory below => exact absurd hfind (hold below)
          rw [hnew, hbefore, if_neg (by simp)]
      · rw [Entries.find?_put_of_ne _ _ hfirst, if_neg (by simp [hfirst])]
  | cons parent rest ih =>
    cases root with
    | file bytes => cases h
    | directory children =>
      rw [at?_directory_cons] at h
      obtain ⟨child, hchild, h⟩ := Option.bind_eq_some_iff.1 h
      rw [List.cons_append, put_cons_concat hchild]
      cases other with
      | nil => rfl
      | cons first below =>
        rw [at?_directory_cons, at?_directory_cons]
        by_cases hfirst : first = parent
        · rw [hfirst, Entries.find?_put_self, hchild, Option.bind_some, Option.bind_some, ih h below]
          simp
        · rw [Entries.find?_put_of_ne _ _ hfirst, if_neg (by simp [hfirst])]

end Node

namespace FileSystem

/-- What there is at a place. -/
def occupant? (fs : FileSystem) (place : Place) : Option Occupant :=
  (fs.root.at? place).map Node.occupant

theorem occupant?_eq_file {fs : FileSystem} {place : Place} {bytes : ByteArray} :
    fs.occupant? place = some (.file bytes) ↔ fs.root.at? place = some (.file bytes) := by
  simp [occupant?, Node.occupant_eq_file]

theorem occupant?_eq_directory {fs : FileSystem} {place : Place} :
    fs.occupant? place = some .directory ↔
      ∃ entries, fs.root.at? place = some (.directory entries) := by
  simp only [occupant?, Option.map_eq_some_iff, Node.occupant_eq_directory]
  constructor
  · rintro ⟨node, hat, entries, rfl⟩
    exact ⟨entries, hat⟩
  · rintro ⟨entries, hat⟩
    exact ⟨_, hat, entries, rfl⟩

/-! ## Texts of files -/

theorem fromUTF8?_toUTF8 (s : String) : String.fromUTF8? s.toUTF8 = some s := by
  rw [String.fromUTF8?, String.toUTF8_eq_toByteArray, dif_pos s.isValidUTF8]
  rfl

/-- A text that was written as a file is read. -/
theorem readText_of_find {fs : FileSystem} {path : Path} {place : Place} {text : String}
    (h : fs.find path = .ok (place, .file text.toUTF8)) : fs.readText path = .ok text := by
  simp only [readText, readBytes, h, ok_bind, fromUTF8?_toUTF8]

/-! ## Following paths in more than there was -/

/-- Every directory is still one, and where there was something there still is. -/
structure Extends (before after : FileSystem) : Prop where
  /-- Relative paths start from the same directory. -/
  workdir : after.workdir = before.workdir
  /-- Directories stay. -/
  directories : ∀ place, before.occupant? place = some .directory →
    after.occupant? place = some .directory
  /-- Nothing becomes empty. -/
  occupied : ∀ place, before.occupant? place ≠ none → after.occupant? place ≠ none

namespace Extends

variable {before after last : FileSystem}

theorem trans (h : Extends before after) (h' : Extends after last) : Extends before last :=
  ⟨h'.workdir.trans h.workdir, fun place hplace => h'.directories place (h.directories place hplace),
    fun place hplace => h'.occupied place (h.occupied place hplace)⟩

theorem directory (h : Extends before after) {place : Place} {entries : List (String × Node)}
    (hat : before.root.at? place = some (.directory entries)) :
    ∃ entries', after.root.at? place = some (.directory entries') :=
  occupant?_eq_directory.1 (h.directories place (occupant?_eq_directory.2 ⟨entries, hat⟩))

/-- A step leads to where it led. -/
theorem stepTo (h : Extends before after) {piece : List Char} {place next : Place}
    (hstep : StepTo before.root place piece next) : StepTo after.root place piece next := by
  cases hstep with
  | stay hat hunnamed =>
    obtain ⟨entries', hat'⟩ := h.directory hat
    exact .stay hat' hunnamed
  | up hat =>
    obtain ⟨entries', hat'⟩ := h.directory hat
    exact .up hat'
  | enter hat hname hsize hhas =>
    obtain ⟨entries', hat'⟩ := h.directory hat
    refine .enter hat' hname hsize ?_
    rw [Entries.has_eq_isSome, Option.isSome_iff_ne_none] at hhas ⊢
    have hoccupied := h.occupied (place ++ [String.ofList piece])
    rw [occupant?, occupant?, Node.at?_concat hat, Node.at?_concat hat', Ne, Ne,
      Option.map_eq_none_iff, Option.map_eq_none_iff] at hoccupied
    exact hoccupied hhas

/-- Pieces lead to where they led. -/
theorem follow (h : Extends before after) {pieces : List (List Char)} {place found : Place}
    (hfollow : FileSystem.follow before.root place pieces = .ok found) :
    FileSystem.follow after.root place pieces = .ok found := by
  induction pieces generalizing place with
  | nil => exact hfollow
  | cons piece rest ih =>
    obtain ⟨next, hstep, hrest⟩ := follow_cons_eq_ok.1 hfollow
    exact follow_cons_eq_ok.2 ⟨next, h.stepTo hstep, ih hrest⟩

/-- A path leads to where it led. -/
theorem find (h : Extends before after) {path : Path} {place : Place} {node : Node}
    (hfind : before.find path = .ok (place, node)) :
    ∃ node', after.find path = .ok (place, node') := by
  obtain ⟨hbad, hfollow, hat⟩ := find_eq_ok.1 hfind
  have hoccupied := h.occupied place (by rw [occupant?, hat]; exact Option.some_ne_none _)
  rw [occupant?, Ne, Option.map_eq_none_iff] at hoccupied
  obtain ⟨node', hat'⟩ := Option.ne_none_iff_exists'.1 hoccupied
  have hstart : after.start path = before.start path := by rw [start, start, h.workdir]
  exact ⟨node', find_eq_ok.2 ⟨hbad, hstart ▸ h.follow hfollow, hat'⟩⟩

/-- A path that led to a directory leads to the same one. -/
theorem find_directory (h : Extends before after) {path : Path} {place : Place}
    {entries : List (String × Node)} (hfind : before.find path = .ok (place, .directory entries)) :
    ∃ entries', after.find path = .ok (place, .directory entries') := by
  obtain ⟨node', hfind'⟩ := h.find hfind
  have hat := (find_eq_ok.1 hfind).2.2
  have hat' := (find_eq_ok.1 hfind').2.2
  obtain ⟨entries', hentries⟩ := h.directory hat
  obtain rfl := Option.some.inj (hat'.symm.trans hentries)
  exact ⟨entries', hfind'⟩

end Extends

/-! ## Writing at a single place -/

/-- Something new is at a single place, where there was no directory. -/
structure Puts (before : FileSystem) (place : Place) (new : Occupant) (after : FileSystem) :
    Prop where
  /-- Relative paths start from the same directory. -/
  workdir : after.workdir = before.workdir
  /-- What was there was no directory. -/
  vacant : before.occupant? place ≠ some .directory
  /-- Everywhere else there is what there was. -/
  occupants : ∀ other, after.occupant? other =
    if other = place then some new else before.occupant? other

section Steps

variable {fs changed : FileSystem} {path : Path} {place : Place} {entries : List (String × Node)}
  {piece : List Char} {new : Occupant}

theorem Puts.occupant?_self (h : Puts fs place new changed) :
    changed.occupant? place = some new := by rw [h.occupants, if_pos rfl]

theorem Puts.toExtends (h : Puts fs place new changed) : Extends fs changed := by
  refine ⟨h.workdir, fun other hother => ?_, fun other hother => ?_⟩
  · have hne : other ≠ place := fun heq => h.vacant (heq ▸ hother)
    rwa [h.occupants, if_neg hne]
  · rw [h.occupants]
    split
    · exact Option.some_ne_none _
    · exact hother

theorem puts_put (h : fs.root.at? place = some (.directory entries)) (name : String) {node : Node}
    (hnew : node.Childless) (hold : ∀ below, Entries.find? entries name ≠ some (.directory below)) :
    Puts fs (place ++ [name]) node.occupant (fs.put (place ++ [name]) node) := by
  refine ⟨rfl, fun hdirectory => ?_, Node.occupant_put h hnew hold⟩
  obtain ⟨below, hat⟩ := occupant?_eq_directory.1 hdirectory
  rw [Node.at?_concat h] at hat
  exact hold below hat

theorem stepPieces_spec (path : Path) :
    ∃ gap, (∀ piece ∈ gap, piece = []) ∧ path.pieces = stepPieces path ++ gap := by
  refine ⟨(path.pieces.reverse.takeWhile fun piece => piece = []).reverse, fun piece hpiece => ?_, ?_⟩
  · simpa using List.mem_takeWhile_imp (p := fun piece => decide (piece = []))
      (List.mem_reverse.1 hpiece)
  · rw [stepPieces, ← List.reverse_append, List.takeWhile_append_dropWhile, List.reverse_reverse]

/-- Where the last step of a path is taken. -/
theorem lastStep_spec (h : fs.lastStep path = .ok (place, entries, piece)) (hpiece : piece ≠ []) :
    badPath? path = none ∧ ∃ before gap, (∀ piece ∈ gap, piece = []) ∧
      path.pieces = before ++ piece :: gap ∧
      LeadsTo fs.root (fs.start path) before place entries := by
  rw [lastStep] at h
  split at h
  · cases h
  · next hbad =>
    obtain ⟨found, hfollow, h⟩ := bind_eq_ok.1 h
    split at h
    · next found' hat =>
      obtain ⟨rfl, hrest⟩ := Prod.mk.inj (Except.ok.inj h)
      obtain ⟨rfl, hlast⟩ := Prod.mk.inj hrest
      obtain ⟨gap, hgap, hpieces⟩ := stepPieces_spec path
      cases hstep : (stepPieces path).getLast? with
      | none =>
        rw [hstep] at hlast
        exact absurd hlast.symm hpiece
      | some last =>
        rw [hstep] at hlast
        obtain rfl : last = piece := hlast
        obtain ⟨before, hbefore⟩ := List.getLast?_eq_some_iff.1 hstep
        rw [hbefore, List.dropLast_concat] at hfollow
        refine ⟨hbad, before, gap, hgap, ?_, hfollow, hat⟩
        rw [hpieces, hbefore, List.append_assoc, List.singleton_append]
    · cases h
    · cases h

theorem follow_gap {root : Node} (hat : root.at? place = some (.directory entries))
    {gap : List (List Char)} (hgap : ∀ piece ∈ gap, piece = []) : follow root place gap = .ok place := by
  induction gap with
  | nil => rfl
  | cons piece rest ih =>
    obtain ⟨rfl, hrest⟩ := List.forall_mem_cons.1 hgap
    exact follow_cons_eq_ok.2 ⟨place, .stay hat fun hnamed => hnamed.1 rfl, ih hrest⟩

/-- A path leads to what was put at its last step. -/
theorem find_of_puts (hbad : badPath? path = none) {before gap : List (List Char)}
    (hpieces : path.pieces = before ++ piece :: gap)
    (hleads : LeadsTo fs.root (fs.start path) before place entries) (hpiece : isName piece = true)
    (hsize : (String.ofList piece).utf8ByteSize ≤ maxName)
    (hputs : Puts fs (place ++ [String.ofList piece]) new changed)
    (hgap : gap = [] ∨ new = .directory ∧ ∀ piece ∈ gap, piece = []) :
    ∃ node, changed.find path = .ok (place ++ [String.ofList piece], node) ∧
      node.occupant = new := by
  have hself := hputs.occupant?_self
  obtain ⟨node, hat, hnode⟩ := Option.map_eq_some_iff.1 hself
  obtain ⟨entries', hat'⟩ := hputs.toExtends.directory hleads.2
  have hhas : Entries.has entries' (String.ofList piece) = true := by
    rw [Entries.has_eq_isSome, ← Node.at?_concat hat', hat]
    rfl
  have hrest : follow changed.root (place ++ [String.ofList piece]) gap =
      .ok (place ++ [String.ofList piece]) := by
    obtain rfl | ⟨rfl, hgap⟩ := hgap
    · rfl
    · obtain ⟨below, rfl⟩ := Node.occupant_eq_directory.1 hnode
      exact follow_gap hat hgap
  have hstart : changed.start path = fs.start path := by rw [start, start, hputs.workdir]
  refine ⟨node, find_eq_ok.2 ⟨hbad, ?_, hat⟩, hnode⟩
  rw [hstart, hpieces, follow_append, hputs.toExtends.follow hleads.1, ok_bind]
  exact follow_cons_eq_ok.2 ⟨_, .enter hat' hpiece hsize hhas, hrest⟩

/-- Making a directory puts one where there was nothing, and the path leads to it. -/
theorem makeDirectory_spec {made : FileSystem} (h : fs.makeDirectory path = .ok made) :
    ∃ place entries, Puts fs place .directory made ∧ fs.occupant? place = none ∧
      made.find path = .ok (place, .directory entries) := by
  obtain ⟨⟨place, entries, piece⟩, hlast, h⟩ := bind_eq_ok.1 h
  simp only at h
  split at h
  · cases h
  · next hname =>
    split at h
    · cases h
    · next hsize =>
      split at h
      · cases h
      · next hhas =>
        obtain rfl := Except.ok.inj h
        have hpiece : isName piece = true := by simpa using hname
        have hne : piece ≠ [] := by
          rintro rfl
          cases hpiece
        obtain ⟨hbad, before, gap, hgap, hpieces, hleads⟩ := lastStep_spec hlast hne
        have hnone : Entries.find? entries (String.ofList piece) = none := by
          rw [Entries.has_eq_isSome, Option.not_isSome_iff_eq_none] at hhas
          exact hhas
        have hputs := puts_put hleads.2 (String.ofList piece) Node.childless_nil (by simp [hnone])
        obtain ⟨node, hfind, hnode⟩ := find_of_puts hbad hpieces hleads hpiece
          (Nat.le_of_not_lt hsize) hputs (.inr ⟨rfl, hgap⟩)
        obtain ⟨below, rfl⟩ := Node.occupant_eq_directory.1 hnode
        refine ⟨_, below, hputs, ?_, hfind⟩
        rw [occupant?, Node.at?_concat hleads.2, hnone]
        rfl

theorem getLast?_pieces {path : Path} (hne : path.text ≠ "")
    (hslash : path.text.toList.getLast? ≠ some '/') : path.pieces.getLast? ≠ some [] := by
  intro hlast
  have hfront := Path.front_eq_pieces hne hslash
  rw [Path.front, if_pos hlast] at hfront
  have hlength := congrArg List.length hfront
  have hpos := List.length_pos_iff.2 path.pieces_ne_nil
  rw [List.length_dropLast] at hlength
  omega

/-- Writing a file puts it where there was no directory, and the path leads to it. -/
theorem writeBytes_spec {bytes : ByteArray} {written : FileSystem}
    (h : fs.writeBytes path bytes = .ok written) :
    ∃ place, Puts fs place (.file bytes) written ∧ written.find path = .ok (place, .file bytes) := by
  obtain ⟨⟨place, entries, piece⟩, hlast, h⟩ := bind_eq_ok.1 h
  simp only at h
  split at h
  · cases h
  · next hname =>
    split at h
    · cases h
    · next hsize =>
      split at h
      · cases h
      · next hold =>
        obtain rfl := Except.ok.inj h
        simp only [Bool.or_eq_true, Bool.not_eq_true', beq_iff_eq, not_or,
          Bool.not_eq_false] at hname
        obtain ⟨hpiece, hslash⟩ := hname
        have hne : piece ≠ [] := by
          rintro rfl
          cases hpiece
        obtain ⟨hbad, before, gap, hgap, hpieces, hleads⟩ := lastStep_spec hlast hne
        have hputs := puts_put hleads.2 (String.ofList piece) (Node.childless_file bytes) hold
        have hnil : gap = [] := by
          refine List.getLast?_eq_none_iff.1 (Option.eq_none_iff_forall_ne_some.2 fun last hlast => ?_)
          obtain rfl := hgap last (List.mem_of_getLast? hlast)
          refine absurd ?_ (getLast?_pieces (badPath?_eq_none.1 hbad).2.1 hslash)
          rw [hpieces, List.getLast?_append, List.getLast?_cons, hlast]
          rfl
        obtain ⟨node, hfind, hnode⟩ := find_of_puts hbad hpieces hleads hpiece
          (Nat.le_of_not_lt hsize) hputs (.inl hnil)
        obtain rfl := Node.occupant_eq_file.1 hnode
        exact ⟨_, hputs, hfind⟩

end Steps

/-! ## Making directories -/

/-- Nothing that there was is changed, and what is new is a directory to which one of some paths
leads. -/
structure Grows (paths : Path → Prop) (before after : FileSystem) : Prop where
  /-- Relative paths start from the same directory. -/
  workdir : after.workdir = before.workdir
  /-- What there was stays. -/
  kept : ∀ place found, before.occupant? place = some found → after.occupant? place = some found
  /-- What is new is a directory on one of the paths. -/
  added : ∀ place found, after.occupant? place = some found →
    before.occupant? place = some found ∨
      found = .directory ∧ ∃ path entries, paths path ∧ after.find path = .ok (place, .directory entries)

namespace Grows

variable {paths more : Path → Prop} {before after last : FileSystem}

theorem refl (paths : Path → Prop) (fs : FileSystem) : Grows paths fs fs :=
  ⟨rfl, fun _ _ h => h, fun _ _ h => .inl h⟩

theorem toExtends (h : Grows paths before after) : Extends before after := by
  refine ⟨h.workdir, fun place => h.kept place .directory, fun place hplace => ?_⟩
  obtain ⟨found, hfound⟩ := Option.ne_none_iff_exists'.1 hplace
  rw [h.kept place found hfound]
  exact Option.some_ne_none _

theorem mono (h : Grows paths before after) (hpaths : ∀ path, paths path → more path) :
    Grows more before after := by
  refine ⟨h.workdir, h.kept, fun place found hfound => (h.added place found hfound).imp_right ?_⟩
  rintro ⟨rfl, path, entries, hpath, hfind⟩
  exact ⟨rfl, path, entries, hpaths path hpath, hfind⟩

theorem trans (h : Grows paths before after) (h' : Grows paths after last) :
    Grows paths before last := by
  refine ⟨h'.workdir.trans h.workdir, fun place found hfound => h'.kept _ _ (h.kept _ _ hfound),
    fun place found hfound => ?_⟩
  obtain hafter | hnew := h'.added place found hfound
  · refine (h.added place found hafter).imp_right ?_
    rintro ⟨rfl, path, entries, hpath, hfind⟩
    obtain ⟨entries', hfind'⟩ := h'.toExtends.find_directory hfind
    exact ⟨rfl, path, entries', hpath, hfind'⟩
  · exact .inr hnew

/-- Making one directory adds one to which its path leads. -/
theorem makeDirectory {path : Path} (h : before.makeDirectory path = .ok after) :
    Grows path.AtOrAbove before after ∧ after.isDirectory path = true := by
  obtain ⟨place, entries, hputs, hnone, hfind⟩ := makeDirectory_spec h
  refine ⟨⟨hputs.workdir, fun other found hfound => ?_, fun other found hfound => ?_⟩, ?_⟩
  · have hne : other ≠ place := by
      rintro rfl
      rw [hnone] at hfound
      cases hfound
    rwa [hputs.occupants, if_neg hne]
  · rw [hputs.occupants] at hfound
    split at hfound
    · next heq => exact .inr ⟨(Option.some.inj hfound).symm, path, entries, .inl rfl, heq ▸ hfind⟩
    · exact .inl hfound
  · rw [isDirectory, hfind]

end Grows

theorem makeDirectories_of_empty (fuel : Nat) (fs : FileSystem) {path : Path}
    (h : path.text = "") : makeDirectories fuel fs path = (fs, none) := by
  cases fuel with
  | zero => rfl
  | succ fuel => rw [makeDirectories, if_pos h]

/-- What making directories leaves behind: directories on the path and above it may be new, and
unless it was refused the path leads to a directory. Each parent is shorter than its path, so that
the fuel is enough. -/
theorem makeDirectories_spec {fuel : Nat} {fs made : FileSystem} {path : Path}
    {reason? : Option FileError} (hfuel : path.text.length < fuel)
    (h : makeDirectories fuel fs path = (made, reason?)) :
    Grows path.AtOrAbove fs made ∧
      (reason? = none → path.text ≠ "" → made.isDirectory path = true) := by
  induction fuel generalizing fs made path reason? with
  | zero => cases hfuel
  | succ fuel ih =>
    rw [makeDirectories] at h
    split at h
    · next hempty =>
      obtain ⟨rfl, -⟩ := Prod.mk.inj h
      exact ⟨Grows.refl _ fs, fun _ hne => absurd hempty hne⟩
    split at h
    · next made' hmake =>
      obtain ⟨rfl, -⟩ := Prod.mk.inj h
      obtain ⟨hgrows, hdirectory⟩ := Grows.makeDirectory hmake
      exact ⟨hgrows, fun _ _ => hdirectory⟩
    · -- The directory above is missing: it is made first.
      split at h
      · obtain ⟨rfl, rfl⟩ := Prod.mk.inj h
        exact ⟨Grows.refl _ fs, fun hnone => by cases hnone⟩
      · next parent hparent =>
        have habove {above : FileSystem} {refused? : Option FileError}
            (h : makeDirectories fuel fs parent = (above, refused?)) :
            Grows path.AtOrAbove fs above := by
          by_cases hempty : parent.text = ""
          · obtain ⟨rfl, -⟩ := Prod.mk.inj (h.symm.trans (makeDirectories_of_empty fuel fs hempty))
            exact Grows.refl _ _
          · have hshorter := (Path.parent?_spec hparent hempty).2.2
            simp only [String.length_toList] at hshorter
            exact (ih (by omega) h).1.mono fun other hother => .inr (hother.above hparent hempty)
        split at h
        · next above refused hmake =>
          obtain ⟨rfl, rfl⟩ := Prod.mk.inj h
          exact ⟨habove hmake, fun hnone => by cases hnone⟩
        · next above hmake =>
          split at h
          · next made' hmake' =>
            obtain ⟨rfl, -⟩ := Prod.mk.inj h
            obtain ⟨hgrows, hdirectory⟩ := Grows.makeDirectory hmake'
            exact ⟨(habove hmake).trans hgrows, fun _ _ => hdirectory⟩
          · split at h
            · next hdirectory =>
              obtain ⟨rfl, -⟩ := Prod.mk.inj h
              exact ⟨habove hmake, fun _ _ => hdirectory⟩
            · obtain ⟨rfl, rfl⟩ := Prod.mk.inj h
              exact ⟨habove hmake, fun hnone => by cases hnone⟩
    · split at h
      · next hdirectory =>
        obtain ⟨rfl, -⟩ := Prod.mk.inj h
        exact ⟨Grows.refl _ fs, fun _ _ => hdirectory⟩
      · obtain ⟨rfl, rfl⟩ := Prod.mk.inj h
        exact ⟨Grows.refl _ fs, fun hnone => by cases hnone⟩

end FileSystem

end CssBuild
