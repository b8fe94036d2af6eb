import CssBuild.Text.Position
import CssBuild.Text.Split
import Mathlib.Data.List.Induction

/-!
# CssBuild.Proofs.Text.Offsets

Offsets in a text, and the lines and columns of their places.

1. An offset counts UTF-8 bytes and stands between two characters; the
   characters before it are those with so many bytes
   (`firstBytes_byteIdx`).
2. One more character moves a place on by a column, or to the start of the
   next line, so a later place is a greater one (`ofChars_lt_append`).
3. What is before a place are whole lines and a part of one
   (`exists_lines`). Going down so many lines and on so many characters leads
   back to it (`upTo?_ofChars`).
4. So the place of an offset says all about it (`Marks`, `marks_atOffset`).
-/

namespace CssBuild.Position

/-! ## Bytes -/

theorem byteWidth_cons (c : Char) (cs : List Char) :
    byteWidth (c :: cs) = c.utf8Size + byteWidth cs := rfl

theorem byteWidth_append (cs ds : List Char) :
    byteWidth (cs ++ ds) = byteWidth cs + byteWidth ds := by
  induction cs with
  | nil => exact (Nat.zero_add _).symm
  | cons c cs ih => rw [List.cons_append, byteWidth_cons, byteWidth_cons, ih, Nat.add_assoc]

theorem utf8ByteSize_ofList (cs : List Char) : (String.ofList cs).utf8ByteSize = byteWidth cs := by
  induction cs with
  | nil => rfl
  | cons c cs ih =>
    rw [String.ofList_cons, String.utf8ByteSize_append, String.utf8ByteSize_singleton, ih,
      byteWidth_cons]

theorem firstBytes_zero (text : List Char) : firstBytes text 0 = [] := by
  cases text with
  | nil => rfl
  | cons c rest => exact if_neg (Nat.not_le.2 c.utf8Size_pos)

theorem firstBytes_append (read rest : List Char) :
    firstBytes (read ++ rest) (byteWidth read) = read := by
  induction read with
  | nil => exact firstBytes_zero rest
  | cons c read ih =>
    rw [byteWidth_cons, List.cons_append, firstBytes, if_pos (Nat.le_add_right _ _),
      Nat.add_sub_cancel_left, ih]

section Positions

variable {text before after : String} {pos : text.Pos}

theorem byteIdx_of_splits (h : pos.Splits before after) :
    pos.offset.byteIdx = byteWidth before.toList := by
  rw [h.offset_eq_rawEndPos, String.byteIdx_rawEndPos, ← utf8ByteSize_ofList, String.ofList_toList]

theorem toList_of_splits (h : pos.Splits before after) :
    text.toList = before.toList ++ after.toList := by
  rw [h.eq_append, String.toList_append]

/-- The characters before an offset are those with so many bytes. -/
theorem firstBytes_byteIdx (h : pos.Splits before after) :
    firstBytes text.toList pos.offset.byteIdx = before.toList := by
  rw [byteIdx_of_splits h, toList_of_splits h, firstBytes_append]

theorem atOffset_of_splits (h : pos.Splits before after) :
    atOffset text.toList pos.offset.byteIdx = ofChars before.toList := by
  rw [atOffset, firstBytes_byteIdx h]

/-- Wherever a text is cut there is an offset. -/
theorem exists_splits {read rest : List Char} (h : text.toList = read ++ rest) :
    ∃ pos : text.Pos, pos.Splits (String.ofList read) (String.ofList rest) := by
  have htext : text = String.ofList read ++ String.ofList rest := by
    rw [← String.ofList_append, ← h, String.ofList_toList]
  exact ⟨⟨(String.ofList read).rawEndPos, String.Pos.Raw.isValid_iff_exists_append.2
    ⟨_, _, htext, rfl⟩⟩, htext, rfl⟩

end Positions

/-! ## The order of places -/

/-- A place comes before those of later lines, and before those of its line with greater columns. -/
instance : LT Position where
  lt first second :=
    first.line < second.line ∨ first.line = second.line ∧ first.column < second.column

theorem lt_iff {first second : Position} : first < second ↔
    first.line < second.line ∨ first.line = second.line ∧ first.column < second.column := Iff.rfl

instance (first second : Position) : Decidable (first < second) := decidable_of_iff' _ lt_iff

theorem lt_trans {first second third : Position} (h : first < second) (h' : second < third) :
    first < third := by
  rw [lt_iff] at h h' ⊢
  omega

theorem ofChars_newline (read : List Char) :
    ofChars (read ++ ['\n']) = ⟨(ofChars read).line + 1, 1⟩ := by
  simp [ofChars, lineAfter, lastLine_append_newline]

theorem ofChars_of_ne (read : List Char) {c : Char} (h : c ≠ '\n') :
    ofChars (read ++ [c]) = ⟨(ofChars read).line, (ofChars read).column + 1⟩ := by
  have hcount : [c].count '\n' = 0 := List.count_eq_zero.2 (by simpa using Ne.symm h)
  simp [ofChars, lineAfter, lastLine_append_of_ne read h, hcount]

/-- The place after one more character is a greater one. -/
theorem ofChars_lt_concat (read : List Char) (c : Char) : ofChars read < ofChars (read ++ [c]) := by
  by_cases h : c = '\n'
  · rw [h, ofChars_newline]
    exact .inl (Nat.lt_succ_self _)
  · rw [ofChars_of_ne read h]
    exact .inr ⟨rfl, Nat.lt_succ_self _⟩

/-- The place after more characters is a greater one. -/
theorem ofChars_lt_append (read : List Char) {more : List Char} (h : more ≠ []) :
    ofChars read < ofChars (read ++ more) := by
  induction more using List.reverseRecOn with
  | nil => exact absurd rfl h
  | append_singleton more c ih =>
    rw [← List.append_assoc]
    have hlast := ofChars_lt_concat (read ++ more) c
    by_cases hmore : more = []
    · rwa [hmore, List.append_nil] at hlast ⊢
    · exact lt_trans (ih hmore) hlast

/-! ## Whole lines and a part of one -/

/-- Lines with a newline after each. -/
def ended (lines : List (List Char)) : List Char := lines.flatMap (· ++ ['\n'])

theorem ended_cons (line : List Char) (lines : List (List Char)) :
    ended (line :: lines) = line ++ '\n' :: ended lines := by
  simp [ended]

theorem ended_concat (lines : List (List Char)) (line : List Char) :
    ended (lines ++ [line]) = ended lines ++ line ++ ['\n'] := by
  simp [ended]

theorem ended_eq_nil_or (lines : List (List Char)) :
    ended lines = [] ∨ (ended lines).getLast? = some '\n' := by
  obtain rfl | ⟨above, line, rfl⟩ := List.eq_nil_or_concat lines
  · exact .inl rfl
  · right
    rw [List.concat_eq_append, ended_concat, List.getLast?_concat]

theorem split_ended {lines : List (List Char)} (h : ∀ line ∈ lines, '\n' ∉ line)
    (rest : List Char) : Text.split '\n' (ended lines ++ rest) = lines ++ Text.split '\n' rest := by
  induction lines with
  | nil => rfl
  | cons line lines ih =>
    obtain ⟨hline, hlines⟩ := List.forall_mem_cons.1 h
    rw [ended_cons, List.append_assoc, List.cons_append, Text.split_append,
      Text.split_of_not_mem hline, ih hlines]
    rfl

/-- Every text consists of whole lines and a part of one. -/
theorem exists_lines (read : List Char) : ∃ above line,
    read = ended above ++ line ∧ (∀ l ∈ above, '\n' ∉ l) ∧ '\n' ∉ line := by
  induction read using List.reverseRecOn with
  | nil => exact ⟨[], [], rfl, by simp, List.not_mem_nil⟩
  | append_singleton read c ih =>
    obtain ⟨above, line, rfl, habove, hline⟩ := ih
    by_cases h : c = '\n'
    · refine ⟨above ++ [line], [], ?_, ?_, List.not_mem_nil⟩
      · rw [ended_concat, h, List.append_nil]
      · intro l hl
        obtain hl | hl := List.mem_append.1 hl
        · exact habove l hl
        · rwa [List.mem_singleton.1 hl]
    · refine ⟨above, line ++ [c], List.append_assoc _ _ _, habove, ?_⟩
      simp [hline, Ne.symm h]

section Lines

variable {above : List (List Char)} {line : List Char}

theorem count_ended (h : ∀ l ∈ above, '\n' ∉ l) : (ended above).count '\n' = above.length := by
  induction above with
  | nil => rfl
  | cons l above ih =>
    obtain ⟨hl, habove⟩ := List.forall_mem_cons.1 h
    rw [ended_cons, List.count_append, List.count_cons_self, ih habove, List.count_eq_zero.2 hl,
      Nat.zero_add, List.length_cons]

theorem lastLine_ended (above : List (List Char)) (hline : '\n' ∉ line) :
    lastLine (ended above ++ line) = line := by
  induction line using List.reverseRecOn with
  | nil =>
    rw [List.append_nil]
    obtain rfl | ⟨before, l, rfl⟩ := List.eq_nil_or_concat above
    · rfl
    · rw [List.concat_eq_append, ended_concat, lastLine_append_newline]
  | append_singleton line c ih =>
    simp only [List.mem_append, List.mem_singleton, not_or] at hline
    rw [← List.append_assoc, lastLine_append_of_ne _ (Ne.symm hline.2), ih hline.1]

/-- The line counts the lines above, and the column the characters of the line. -/
theorem ofChars_ended (habove : ∀ l ∈ above, '\n' ∉ l) (hline : '\n' ∉ line) :
    ofChars (ended above ++ line) = ⟨above.length + 1, line.length + 1⟩ := by
  rw [ofChars, lineAfter, lastLine_ended above hline, List.count_append, count_ended habove,
    List.count_eq_zero.2 hline, Nat.add_zero]

end Lines

/-! ## The way back -/

/-- The characters of a text before one of its places: the lines above it, and of its own line the
characters to its left. -/
def upTo? (text : List Char) (place : Position) : Option (List Char) :=
  let lines := Text.split '\n' text
  match lines[place.line - 1]? with
  | some line =>
    if place.column - 1 ≤ line.length then
      some (ended (lines.take (place.line - 1)) ++ line.take (place.column - 1))
    else none
  | none => none

/-- The offset of a place of a text, in UTF-8 bytes. -/
def toOffset? (text : List Char) (place : Position) : Option Nat :=
  (upTo? text place).map byteWidth

/-- Going down to the line of a place and on to its column leads to it. -/
theorem upTo?_ofChars (read rest : List Char) :
    upTo? (read ++ rest) (ofChars read) = some read := by
  obtain ⟨above, line, rfl, habove, hline⟩ := exists_lines read
  obtain ⟨piece, pieces, hrest⟩ := List.exists_cons_of_ne_nil (Text.split_ne_nil '\n' rest)
  have hsplit : Text.split '\n' (ended above ++ (line ++ rest)) =
      above ++ (line ++ piece) :: pieces := by
    rw [split_ended habove, Text.split_append_of_not_mem hline hrest]
  simp [upTo?, hsplit, ofChars_ended habove hline]

/-! ## What a place says about an offset -/

/-- A place says which offset of a text it belongs to. -/
structure Marks {text : String} (place : Position) (pos : text.Pos) : Prop where
  /-- The line is one more than the newlines before the offset. -/
  line_eq : place.line = (text.sliceTo pos).copy.toList.count '\n' + 1
  /-- The column is one more than the characters between the last newline before the offset, or the
  start of the text, and the offset. -/
  column_eq : ∃ earlier line, (text.sliceTo pos).copy.toList = earlier ++ line ∧
    (earlier = [] ∨ earlier.getLast? = some '\n') ∧ '\n' ∉ line ∧ place.column = line.length + 1
  /-- Going down to the line and on to the column leads to the offset. -/
  toOffset?_eq : place.toOffset? text.toList = some pos.offset.byteIdx

/-- The place of an offset says which offset it belongs to. -/
theorem marks_atOffset {text : String} (pos : text.Pos) :
    (atOffset text.toList pos.offset.byteIdx).Marks pos := by
  have hplace := atOffset_of_splits pos.splits
  refine ⟨?_, ?_, ?_⟩
  · rw [hplace]
    rfl
  · obtain ⟨above, line, hread, habove, hline⟩ := exists_lines (text.sliceTo pos).copy.toList
    refine ⟨ended above, line, hread, ended_eq_nil_or above, hline, ?_⟩
    rw [hplace, hread, ofChars_ended habove hline]
  · rw [hplace, toOffset?, toList_of_splits pos.splits, upTo?_ofChars, Option.map_some,
      byteIdx_of_splits pos.splits]

/-- A later offset has a greater place. -/
theorem atOffset_lt {text : String} {first second : text.Pos} (h : first < second) :
    atOffset text.toList first.offset.byteIdx < atOffset text.toList second.offset.byteIdx := by
  have hfirst := first.splits
  have hsecond := second.splits
  have hwidth : byteWidth (text.sliceTo first).copy.toList <
      byteWidth (text.sliceTo second).copy.toList := by
    rw [← byteIdx_of_splits hfirst, ← byteIdx_of_splits hsecond]
    exact h
  -- Both are read from the start of one text, so one of them goes on where the other ends.
  have hprefix : (text.sliceTo first).copy.toList <+: (text.sliceTo second).copy.toList := by
    obtain hle | ⟨more, hmore⟩ := List.prefix_or_prefix_of_prefix
      ⟨_, (toList_of_splits hfirst).symm⟩ ⟨_, (toList_of_splits hsecond).symm⟩
    · exact hle
    · rw [← hmore, byteWidth_append] at hwidth
      omega
  obtain ⟨more, hmore⟩ := hprefix
  rw [atOffset_of_splits hfirst, atOffset_of_splits hsecond, ← hmore]
  refine ofChars_lt_append _ fun hnil => ?_
  rw [← hmore, hnil, List.append_nil] at hwidth
  exact Nat.lt_irrefl _ hwidth

end CssBuild.Position
