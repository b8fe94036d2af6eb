/-!
# CssBuild.Text.Split

Cutting texts, and other lists, at a separator and putting them together again.
-/

namespace CssBuild.Text

variable {α : Type} [DecidableEq α]

/-- The pieces of a list between its separators; there is always at least one. -/
def split (sep : α) : List α → List (List α)
  | [] => [[]]
  | c :: rest =>
    if c = sep then [] :: split sep rest
    else match split sep rest with
      | [] => [[c]]
      | piece :: pieces => (c :: piece) :: pieces

/-- The pieces with a separator between each two. -/
def join {α : Type} (sep : α) : List (List α) → List α
  | [] => []
  | [piece] => piece
  | piece :: pieces => piece ++ sep :: join sep pieces

theorem split_ne_nil (sep : α) (s : List α) : split sep s ≠ [] := by
  cases s with
  | nil => simp [split]
  | cons c rest =>
    rw [split]
    split
    · simp
    · split <;> simp

/-- Cutting a list and joining the pieces gives the list back. -/
theorem join_split (sep : α) (s : List α) : join sep (split sep s) = s := by
  induction s with
  | nil => rfl
  | cons c rest ih =>
    rw [split]
    split
    · next h =>
      cases hp : split sep rest with
      | nil => exact absurd hp (split_ne_nil sep rest)
      | cons piece pieces =>
        rw [join, ← hp, ih, h]
        · rfl
        · simp
    · split
      · next hp => exact absurd hp (split_ne_nil sep rest)
      · next piece pieces hp =>
        rw [hp] at ih
        cases pieces with
        | nil => simpa [join] using ih
        | cons next more => simpa [join] using ih

theorem split_append (sep : α) (s t : List α) :
    split sep (s ++ sep :: t) = split sep s ++ split sep t := by
  induction s with
  | nil => simp [split]
  | cons c rest ih =>
    rw [List.cons_append, split, split, ih]
    split
    · rfl
    · cases hp : split sep rest with
      | nil => exact absurd hp (split_ne_nil sep rest)
      | cons piece pieces => rfl

/-- What comes before the first separator belongs to the first piece. -/
theorem split_append_of_not_mem {sep : α} {s : List α} (h : sep ∉ s) {t piece : List α}
    {pieces : List (List α)} (ht : split sep t = piece :: pieces) :
    split sep (s ++ t) = (s ++ piece) :: pieces := by
  induction s with
  | nil => exact ht
  | cons c rest ih =>
    simp only [List.mem_cons, not_or] at h
    rw [List.cons_append, split, if_neg (Ne.symm h.1), ih h.2]
    rfl

theorem not_mem_of_mem_split {sep : α} {s piece : List α} (h : piece ∈ split sep s) :
    sep ∉ piece := by
  induction s generalizing piece with
  | nil =>
    rw [List.mem_singleton.1 h]
    exact List.not_mem_nil
  | cons c rest ih =>
    rw [split] at h
    split at h
    · obtain rfl | h := List.mem_cons.1 h
      · exact List.not_mem_nil
      · exact ih h
    · next hc =>
      split at h
      · next hp => exact absurd hp (split_ne_nil sep rest)
      · next first pieces hp =>
        rw [hp] at ih
        obtain rfl | h := List.mem_cons.1 h
        · exact List.not_mem_cons_of_ne_of_not_mem (Ne.symm hc) (ih List.mem_cons_self)
        · exact ih (List.mem_cons_of_mem _ h)

theorem split_of_not_mem {sep : α} {s : List α} (h : sep ∉ s) : split sep s = [s] := by
  induction s with
  | nil => rfl
  | cons c rest ih =>
    simp only [List.mem_cons, not_or] at h
    rw [split, if_neg (Ne.symm h.1), ih h.2]

theorem join_cons {α : Type} (sep : α) (piece : List α) {pieces : List (List α)}
    (h : pieces ≠ []) : join sep (piece :: pieces) = piece ++ sep :: join sep pieces := by
  obtain ⟨next, more, rfl⟩ := List.exists_cons_of_ne_nil h
  rfl

/-- Joining pieces without separators and cutting the result gives the pieces back. -/
theorem split_join {sep : α} {pieces : List (List α)} (hne : pieces ≠ [])
    (h : ∀ piece ∈ pieces, sep ∉ piece) : split sep (join sep pieces) = pieces := by
  induction pieces with
  | nil => exact absurd rfl hne
  | cons piece rest ih =>
    obtain ⟨hpiece, hrest⟩ := List.forall_mem_cons.1 h
    cases rest with
    | nil => exact split_of_not_mem hpiece
    | cons next more =>
      rw [join_cons sep piece (List.cons_ne_nil _ _), split_append, split_of_not_mem hpiece,
        ih (List.cons_ne_nil _ _) hrest]
      rfl

theorem join_append {α : Type} (sep : α) {pieces more : List (List α)} (hpieces : pieces ≠ [])
    (hmore : more ≠ []) : join sep (pieces ++ more) = join sep pieces ++ sep :: join sep more := by
  induction pieces with
  | nil => exact absurd rfl hpieces
  | cons piece rest ih =>
    cases rest with
    | nil => exact join_cons sep piece hmore
    | cons next others =>
      rw [List.cons_append, join_cons sep piece (List.append_ne_nil_of_right_ne_nil _ hmore),
        ih (List.cons_ne_nil _ _), join_cons sep piece (List.cons_ne_nil _ _), List.append_assoc,
        List.cons_append]

theorem join_eq_intercalate {α : Type} (sep : α) (pieces : List (List α)) :
    join sep pieces = [sep].intercalate pieces := by
  induction pieces with
  | nil => rfl
  | cons piece rest ih =>
    cases rest with
    | nil => exact List.intercalate_singleton.symm
    | cons next more =>
      rw [join_cons sep piece (List.cons_ne_nil _ _), ih, List.intercalate_cons_cons,
        List.append_assoc, List.singleton_append]

theorem mem_join {α : Type} {sep a : α} {pieces : List (List α)} (h : a ≠ sep) :
    a ∈ join sep pieces ↔ ∃ piece ∈ pieces, a ∈ piece := by
  induction pieces with
  | nil => simp [join]
  | cons piece rest ih =>
    cases rest with
    | nil => simp [join]
    | cons next more =>
      rw [join_cons sep piece (List.cons_ne_nil _ _), List.mem_append, List.mem_cons, ih]
      simp [h]

/-- The text after its start, if it starts so. -/
def dropPrefix? (start : List Char) (s : List Char) : Option (List Char) :=
  if start.isPrefixOf s then some (s.drop start.length) else none

/-- The lines of a text, a line ending in `'\n'` or in `'\r'` and `'\n'`; a newline at the end of
the text starts no further line. -/
def lines (s : List Char) : List (List Char) :=
  let pieces := split '\n' s
  let kept := if pieces.getLast? = some [] then pieces.dropLast else pieces
  kept.map fun line => if line.getLast? = some '\r' then line.dropLast else line

end CssBuild.Text
