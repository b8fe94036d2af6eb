import CssBuild.Document
import CssBuild.Proofs.Text.Offsets
import CssBuild.Proofs.Toml.Unread

/-!
# CssBuild.Proofs.Toml.Faults

Where the fault of a TOML text is.

1. Keys, values and lines are read within their text
   (`leaves_key`, `leaves_value`, `within_lines`), so a fault of a text is where
   an end of the text starts (`rest_suffix_of_readTree`).
2. The fault of a text is thus at an offset of it, and the place that the error
   has is the place of this offset. A place says which offset it belongs to
   (`ofToml_places`).
-/

namespace CssBuild

namespace Toml

/-! ## Alternatives and changes of tables -/

section

variable {α : Type} {s t : List Char} {good : α → Prop}

/-- A change of the tables finds what it finds, or is at the start of its text. -/
theorem within_causeAt (hs : s <:+ t) (result : Except Cause α) :
    Within t (fun _ => True) (causeAt s result) := by
  cases result with
  | ok found => exact .ok trivial
  | error cause => exact .error hs

theorem Within.orElse {first other : Except Fault α} (h : Within s good first)
    (hother : Within s good other) : Within s good (orElse first other) := by
  cases h with
  | ok h => exact .ok h
  | error h =>
    rw [Toml.orElse]
    split
    · exact hother
    · exact .error h

end

/-! ## Keys -/

theorem leaves_keyPart (s : List Char) : Leaves s (keyPart s) := by
  unfold keyPart
  split
  · exact ((leaves_basicString _).of_suffix (List.suffix_cons _ _)).map fun _ => rfl
  · exact ((leaves_literalString _).of_suffix (List.suffix_cons _ _)).map fun _ => rfl
  · dsimp only
    split
    · exact .error List.suffix_rfl
    · exact .ok (List.dropWhile_suffix _)

theorem leaves_keyParts (fuel : Nat) (s : List Char) : Leaves s (keyParts fuel s) := by
  induction fuel generalizing s with
  | zero => exact .error List.suffix_rfl
  | succ fuel ih =>
    rw [keyParts]
    refine ((leaves_keyPart _).of_suffix (skipBlanks_suffix s)).bind ?_
    rintro ⟨part, rest⟩ hrest
    have hafter := (skipBlanks_suffix rest).trans hrest
    dsimp only
    split
    · next next hnext =>
      have hmore := (ih next).of_suffix ((List.suffix_cons _ next).trans (hnext ▸ hafter))
      split
      · next more rest h => exact .ok (h ▸ hmore).of_ok
      · next fault h =>
        -- A dot without a part after it is left unread, with all that was tried behind it.
        split
        · exact .ok hafter
        · exact .error (h ▸ hmore).of_error
    · exact .ok hafter

theorem leaves_key (limit : Nat) (s : List Char) : Leaves s (key limit s) := by
  refine ((leaves_keyParts _ s).labelled _).bind ?_
  rintro ⟨parts, rest⟩ hrest
  dsimp only
  split
  · exact .error List.suffix_rfl
  · split
    · exact .error List.suffix_rfl
    · exact .ok hrest

/-! ## Values -/

theorem leaves_wordValue (word : String) (soft : Bool) (kind : Kind) (tree : Json)
    (s : List Char) : Leaves s (wordValue word soft kind tree s) := by
  unfold wordValue
  split
  · exact .ok (List.drop_suffix _ _)
  · exact .error List.suffix_rfl

theorem leaves_numeric (s : List Char) : Leaves s (numeric s) := by
  have hdate : Leaves s ((dateTime s).map fun found =>
      ((Kind.datetime, Json.single dateKey (.string (String.ofList found.1))), found.2)) :=
    (leaves_dateTime s).map fun _ => rfl
  have hfloat : Leaves s ((float s).map fun found => ((Kind.float, found.1), found.2)) :=
    (leaves_float s).map fun _ => rfl
  have hinteger : Leaves s ((integer s).map fun found => ((Kind.integer, found.1), found.2)) :=
    (leaves_integer s).map fun _ => rfl
  exact hdate.orElse (hfloat.orElse hinteger)

theorem leaves_scalar (s : List Char) : Leaves s (scalar s) := by
  cases s with
  | nil => exact .error List.suffix_rfl
  | cons c rest =>
    rw [scalar]
    split
    · exact (leaves_string _).map fun _ => rfl
    split
    · exact leaves_numeric _
    split
    · exact .error List.suffix_rfl
    split
    · exact .error List.suffix_rfl
    split
    · exact leaves_wordValue _ _ _ _ _
    split
    · exact leaves_wordValue _ _ _ _ _
    split
    · exact leaves_wordValue _ _ _ _ _
    split
    · exact leaves_wordValue _ _ _ _ _
    · exact .error List.suffix_rfl

theorem passes_closeArray (s : List Char) : Passes s (closeArray s) := by
  unfold closeArray
  split
  · exact .ok (List.suffix_cons _ _)
  · exact .error List.suffix_rfl

theorem passes_closeInline (s : List Char) : Passes s (closeInline s) := by
  unfold closeInline
  split
  · exact .ok (List.suffix_cons _ _)
  · exact .error List.suffix_rfl

theorem passes_equalsSign (s : List Char) : Passes s (equalsSign s) := by
  unfold equalsSign
  split
  · exact .ok ((skipBlanks_suffix _).trans (List.suffix_cons _ _))
  · exact .error List.suffix_rfl

-- The readers of values call each other with one unit of fuel less, so all four are within their
-- texts by induction on it.
mutual

theorem leaves_value (limit : Nat) : (fuel room : Nat) → (s : List Char) →
    Leaves s (value limit fuel room s)
  | 0, room, s => by
    rw [value]
    exact .error List.suffix_rfl
  | fuel + 1, room, s => by
    unfold value
    split
    · next rest =>
      have hrest := List.suffix_cons '[' rest
      cases room with
      | zero => exact .error List.suffix_rfl
      | succ room =>
        exact ((leaves_items limit fuel room rest).of_suffix hrest).bind fun _ hrest => .ok hrest
    · next rest =>
      have hrest := List.suffix_cons '{' rest
      cases room with
      | zero => exact .error List.suffix_rfl
      | succ room =>
        refine ((leaves_pairs limit fuel room rest).of_suffix hrest).required.bind ?_
        rintro ⟨found, after⟩ hafter
        dsimp only
        split
        · exact ((passes_closeInline _).of_suffix ((skipBlanks_suffix after).trans hafter)).bind
            fun after hafter => .ok hafter
        · exact .error hrest
    · exact leaves_scalar s

theorem leaves_items (limit : Nat) : (fuel room : Nat) → (s : List Char) →
    Leaves s (items limit fuel room s)
  | 0, room, s => by
    rw [items]
    exact .error List.suffix_rfl
  | fuel + 1, room, s => by
    have hspace := skipSpace_suffix s
    have hvalue := (leaves_value limit fuel room (skipSpace s)).of_suffix hspace
    rw [items]
    split
    · next fault h =>
      split
      · exact ((passes_closeArray _).of_suffix hspace).map fun _ hrest => hrest
      · exact .error (h ▸ hvalue).of_error
    · next found rest h =>
      have hrest := (skipSpace_suffix rest).trans (h ▸ hvalue).of_ok
      split
      · next next hnext =>
        have hmore := (List.suffix_cons ',' next).trans (hnext ▸ hrest)
        exact ((leaves_items limit fuel room next).of_suffix hmore).bind fun _ hrest => .ok hrest
      · exact ((passes_closeArray _).of_suffix hrest).map fun _ hrest => hrest

theorem leaves_pair (limit : Nat) : (fuel room : Nat) → (s : List Char) →
    Leaves s (pair limit fuel room s)
  | 0, room, s => by
    rw [pair]
    exact .error List.suffix_rfl
  | fuel + 1, room, s => by
    rw [pair]
    refine (leaves_key limit s).bind ?_
    rintro ⟨⟨path, last⟩, rest⟩ hrest
    refine ((passes_equalsSign rest).of_suffix hrest).bind fun rest hrest => ?_
    refine ((leaves_value limit fuel room rest).of_suffix hrest).required.bind ?_
    rintro ⟨found, rest⟩ hrest
    exact .ok ((skipBlanks_suffix rest).trans hrest)

theorem leaves_pairs (limit : Nat) : (fuel room : Nat) → (s : List Char) →
    Leaves s (pairs limit fuel room s)
  | 0, room, s => by
    rw [pairs]
    exact .ok List.suffix_rfl
  | fuel + 1, room, s => by
    have hpair := leaves_pair limit fuel room s
    rw [pairs]
    split
    · next fault h =>
      split
      · exact .ok List.suffix_rfl
      · exact .error (h ▸ hpair).of_error
    · next found rest h =>
      have hrest := (h ▸ hpair).of_ok
      split
      · next next =>
        have hmore := (List.suffix_cons ',' next).trans hrest
        refine ((leaves_pairs limit fuel room next).of_suffix hmore).bind ?_
        rintro ⟨more, after⟩ hafter
        dsimp only
        -- A comma without a pair after it is left unread.
        split
        · exact .ok hrest
        · exact .ok hafter
      · exact .ok hrest

end

/-! ## Lines -/

/-- A reader of a line finds how far the tables have come, and leaves the end of its text unread. -/
theorem leaves_keyLine (limit : Nat) (progress : Progress) (s : List Char) :
    Leaves s (keyLine limit progress s) := by
  refine (leaves_key limit s).required.bind ?_
  rintro ⟨⟨path, last⟩, rest⟩ hrest
  refine ((passes_equalsSign rest).of_suffix hrest).bind fun rest hrest => ?_
  refine ((leaves_value limit _ limit rest).of_suffix hrest).required.bind ?_
  rintro ⟨found, rest⟩ hrest
  refine ((passes_lineEnd rest).of_suffix hrest).bind fun rest hrest => ?_
  exact (within_causeAt List.suffix_rfl _).bind fun root _ => .ok hrest

theorem passes_closeHeader (brackets : String) (s : List Char) :
    Passes s (closeHeader brackets s) := by
  unfold closeHeader
  split
  · exact (passes_lineEnd _).of_suffix (List.drop_suffix _ _)
  · exact .error List.suffix_rfl

theorem leaves_headerOf (limit : Nat) (brackets : String)
    (add : List String → String → Table → Except Cause Table) (progress : Progress)
    {start s : List Char} (hs : s <:+ start) :
    Leaves start (headerOf limit brackets add progress start s) := by
  refine ((leaves_key limit s).of_suffix hs).required.bind ?_
  rintro ⟨⟨path, last⟩, rest⟩ hrest
  refine ((passes_closeHeader brackets rest).of_suffix hrest).bind fun rest hrest => ?_
  exact (within_causeAt List.suffix_rfl _).bind fun root _ => .ok hrest

theorem leaves_headerLine (limit : Nat) (progress : Progress) (s : List Char) :
    Leaves s (headerLine limit progress s) := by
  refine Within.labelled ?_ _
  split
  · exact leaves_headerOf limit _ _ progress (suffix_cons_cons _ _ _)
  · exact leaves_headerOf limit _ _ progress (List.suffix_cons _ _)
  · exact .error List.suffix_rfl

theorem passes_commentLine (s : List Char) : Passes s (commentLine s) := by
  have hafter := skipComment_suffix s
  unfold commentLine
  split
  · exact .ok List.nil_suffix
  · split
    · next rest h => exact .ok ((lineBreak?_suffix h).trans hafter)
    · exact .error hafter

/-- A fault of some lines is at a place of their text. -/
theorem within_lines (limit fuel : Nat) (progress : Progress) (s : List Char) :
    Within s (fun _ => True) (lines limit fuel progress s) := by
  induction fuel generalizing progress s with
  | zero => exact .ok trivial
  | succ fuel ih =>
    -- The lines that follow start after the blanks behind this line.
    have hnext : ∀ progress rest, rest <:+ s →
        Within s (fun _ => True) (lines limit fuel progress (skipBlanks rest)) :=
      fun progress rest hrest =>
        (ih progress _).mono ((skipBlanks_suffix rest).trans hrest) fun _ _ => trivial
    cases s with
    | nil => exact .ok trivial
    | cons c rest =>
      rw [lines]
      split
      · exact (passes_commentLine _).bind (hnext progress)
      split
      · exact (leaves_headerLine limit progress _).bind fun found hrest =>
          hnext found.1 found.2 hrest
      split
      · exact hnext progress rest (List.suffix_cons _ _)
      split
      · split
        · next rest h => exact hnext progress rest (lineBreak?_suffix h)
        · exact .error List.suffix_rfl
      · exact (leaves_keyLine limit progress _).bind fun found hrest =>
          hnext found.1 found.2 hrest

theorem afterMark_suffix (s : List Char) : afterMark s <:+ s := by
  unfold afterMark
  split
  · exact List.suffix_cons _ _
  · exact List.suffix_rfl

/-- The reader of a text stops where an end of the text starts. -/
theorem rest_suffix_of_readTree {text : List Char} {fault : Fault}
    (h : readTree text = .error fault) : fault.rest <:+ text := by
  have hstart := (skipBlanks_suffix (afterMark text)).trans (afterMark_suffix text)
  have hread : Within text (fun _ => True) (readTree text) :=
    ((within_lines _ _ _ _).mono hstart fun _ _ => trivial).map fun _ _ => trivial
  exact (h ▸ hread).of_error

/-! ## The place of a fault -/

/-- A fault of a text is at an offset of it, after which is what the fault has of the text. -/
theorem Fault.exists_pos {text : String} {fault : Fault} (h : fault.rest <:+ text.toList) :
    ∃ pos : text.Pos, pos.offset.byteIdx = fault.offset text.toList ∧
      (text.sliceFrom pos).copy.toList = fault.rest := by
  obtain ⟨read, hread⟩ := h
  obtain ⟨pos, hpos⟩ := Position.exists_splits hread.symm
  refine ⟨pos, ?_, ?_⟩
  · rw [Position.byteIdx_of_splits hpos, Fault.offset, ← hread, Position.before_append,
      String.toList_ofList]
  · rw [pos.splits.eq_right hpos, String.toList_ofList]

end Toml

namespace Document

theorem ofToml_eq_error {text : String} {source? : Option Path} {e : ConfigError}
    (h : ofToml text source? = .error e) : ∃ fault, Toml.readTree text.toList = .error fault ∧
      e = .atPlace source? (fault.place text.toList) fault.message := by
  unfold ofToml at h
  split at h
  · cases h
  · next fault hread => exact ⟨fault, hread, (Except.error.inj h).symm⟩

/-- The place of an offset of a text says which offset it is: its line counts the newlines before
the offset, its column the characters after the last of them, and the text leads back from the two
to the offset. A later offset has a greater place. The place in an error is that of the offset at
which the reader has stopped. -/
theorem ofToml_places (text : String) :
    (∀ pos : text.Pos, (Position.atOffset text.toList pos.offset.byteIdx).Marks pos) ∧
    (∀ first second : text.Pos, first < second →
      Position.atOffset text.toList first.offset.byteIdx <
        Position.atOffset text.toList second.offset.byteIdx) ∧
    (∀ source? e, ofToml text source? = .error e →
      ∃ (fault : Toml.Fault) (pos : text.Pos), Toml.readTree text.toList = .error fault ∧
        (text.sliceFrom pos).copy.toList = fault.rest ∧
        e = .atPlace source? (Position.atOffset text.toList pos.offset.byteIdx) fault.message) := by
  refine ⟨Position.marks_atOffset, fun _ _ => Position.atOffset_lt, fun source? e h => ?_⟩
  obtain ⟨fault, hread, rfl⟩ := ofToml_eq_error h
  obtain ⟨pos, hoffset, hrest⟩ := Toml.Fault.exists_pos (Toml.rest_suffix_of_readTree hread)
  exact ⟨fault, pos, hread, hrest, by rw [hoffset, Toml.Fault.place]⟩

/-- A text with characters of two bytes: the offsets before and after its newline, and the fault
behind its key. -/
theorem ofToml_places_wide :
    let text := "# ü\n\"é\" x"
    let message := "expected \x60.\x60, \x60=\x60"
    (∃ first second : text.Pos, first < second ∧
      first.offset.byteIdx = 4 ∧ Position.atOffset text.toList 4 = ⟨1, 4⟩ ∧
      second.offset.byteIdx = 5 ∧ Position.atOffset text.toList 5 = ⟨2, 1⟩ ∧
      Position.atOffset text.toList 4 < Position.atOffset text.toList 5) ∧
    ofToml text none = .error (.parse "string" ⟨2, 5⟩ message) ∧
    ∃ pos : text.Pos, (text.sliceFrom pos).copy.toList = ['x'] ∧
      Position.atOffset text.toList pos.offset.byteIdx = ⟨2, 5⟩ := by
  dsimp only
  have hread : Toml.readTree "# ü\n\"é\" x".toList =
      .error (Toml.broken none [Toml.oneOf ".", Toml.oneOf "="] ['x']) := rfl
  have herror : ofToml "# ü\n\"é\" x" none =
      .error (.parse "string" ⟨2, 5⟩ "expected \x60.\x60, \x60=\x60") := rfl
  obtain ⟨-, hlt, hfault⟩ := ofToml_places "# ü\n\"é\" x"
  refine ⟨?_, herror, ?_⟩
  · let first : String.Pos "# ü\n\"é\" x" := ⟨⟨4⟩, by decide⟩
    let second : String.Pos "# ü\n\"é\" x" := ⟨⟨5⟩, by decide⟩
    have hless : first < second := by decide
    exact ⟨first, second, hless, rfl, by decide, rfl, by decide, hlt first second hless⟩
  · obtain ⟨fault, pos, hfound, hrest, hplace⟩ := hfault none _ herror
    cases hread.symm.trans hfound
    injection hplace with _ hplace
    exact ⟨pos, hrest, hplace.symm⟩

end Document

end CssBuild
