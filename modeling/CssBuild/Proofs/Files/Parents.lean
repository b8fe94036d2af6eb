import CssBuild.Proofs.Files.Walks
import Mathlib.Data.List.TakeWhile

/-!
# CssBuild.Proofs.Files.Parents

The directories above a path.

1. The parent of a path writes the steps before the last one; its text is a
   start of the text of the path (`parent?_spec`).
2. Whatever a path leads to, the paths above it lead to directories
   (`FileSystem.exists_find_above`).
3. Without `.` and `..` two paths that lead to one place from one directory are
   the same path (`FileSystem.components_eq_of_find`).
-/

namespace CssBuild

namespace Path

/-! ## Parents -/

theorem mem_locate {absolute : Bool} {pieces after : List (List Char)} {c : Component}
    (h : (c, after) ∈ locate false absolute pieces) :
    ∃ before piece, pieces = before ++ piece :: after ∧ Named piece := by
  induction pieces with
  | nil => cases h
  | cons piece rest ih =>
    by_cases hpiece : Named piece
    · obtain ⟨d, hd, -⟩ := exists_component hpiece
      rw [locate_cons hd] at h
      obtain h | h := List.mem_cons.1 h
      · exact ⟨[], piece, by rw [(Prod.mk.inj h).2, List.nil_append], hpiece⟩
      · obtain ⟨before, last, hrest, hlast⟩ := ih h
        exact ⟨piece :: before, last, by rw [hrest, List.cons_append], hlast⟩
    · rw [locate_cons_of_not_named hpiece] at h
      obtain ⟨before, last, hrest, hlast⟩ := ih h
      exact ⟨piece :: before, last, by rw [hrest, List.cons_append], hlast⟩

theorem steps_trimEnd (pieces : List (List Char)) : steps (trimEnd pieces) = steps pieces := by
  have hsplit := List.takeWhile_append_dropWhile
    (p := fun piece => (pieceComponent? piece).isNone) (l := pieces.reverse)
  have hgap : steps (pieces.reverse.takeWhile fun piece => (pieceComponent? piece).isNone).reverse =
      [] := by
    refine steps_of_not_named fun piece hpiece => isNone_pieceComponent?.1 ?_
    exact List.mem_takeWhile_imp (p := fun piece => (pieceComponent? piece).isNone)
      (List.mem_reverse.1 hpiece)
  calc steps (trimEnd pieces)
      = steps (trimEnd pieces) ++
          steps (pieces.reverse.takeWhile fun piece => (pieceComponent? piece).isNone).reverse := by
        rw [hgap, List.append_nil]
    _ = steps pieces := by
        rw [trimEnd, ← steps_append, ← List.reverse_append, hsplit, List.reverse_reverse]

/-- Some of the first pieces of a path write a start of its text. -/
theorem ofPieces_within {p : Path} {kept more : List (List Char)} (hp : p.pieces = kept ++ more)
    (hkept : kept ≠ []) (hmore : more ≠ []) :
    (ofPieces kept).pieces = kept ∧ (ofPieces kept).text.toList <+: p.text.toList ∧
      (ofPieces kept).text.toList.length < p.text.toList.length := by
  have hslash : ∀ piece ∈ kept, '/' ∉ piece := fun piece hpiece =>
    not_mem_of_mem_pieces (hp ▸ List.mem_append_left more hpiece)
  have htext : p.text.toList = Text.join '/' kept ++ '/' :: Text.join '/' more := by
    rw [← Text.join_append '/' hkept hmore, ← hp, pieces, Text.join_split]
  refine ⟨pieces_ofPieces hkept hslash, ?_, ?_⟩
  · rw [ofPieces, String.toList_ofList, htext]
    exact List.prefix_append _ _
  · rw [ofPieces, String.toList_ofList, htext, List.length_append, List.length_cons]
    omega

theorem isAbsolute_of_within {p q : Path} (h : q.text.toList <+: p.text.toList) (hne : q.text ≠ "") :
    q.isAbsolute = p.isAbsolute := by
  obtain ⟨more, hmore⟩ := h
  have htext : q.text.toList ≠ [] := fun hnil => hne (String.toList_eq_nil_iff.1 hnil)
  obtain ⟨c, rest, hc⟩ := List.exists_cons_of_ne_nil htext
  rw [isAbsolute, isAbsolute, ← hmore, hc, List.cons_append, List.head?_cons, List.head?_cons]

theorem utf8ByteSize_le_of_within {p q : Path} (h : q.text.toList <+: p.text.toList) :
    q.text.utf8ByteSize ≤ p.text.utf8ByteSize := by
  obtain ⟨more, hmore⟩ := h
  have htext : p.text = q.text ++ String.ofList more := by
    rw [← String.toList_inj, String.toList_append, String.toList_ofList, hmore]
  rw [htext, String.utf8ByteSize_append]
  exact Nat.le_add_right _ _

/-- The root is a start of every absolute path with a step. -/
theorem root_within {p : Path} (habsolute : p.isAbsolute = true) {piece : List Char}
    (hmem : piece ∈ p.pieces) (hpiece : Named piece) :
    (⟨"/"⟩ : Path).text.toList <+: p.text.toList ∧
      (⟨"/"⟩ : Path).text.toList.length < p.text.toList.length := by
  obtain ⟨first, rest, hp⟩ := pieces_of_absolute habsolute
  have hrest : p.text.toList = '/' :: Text.join '/' (first :: rest) := by
    rw [← Text.join_split '/' p.text.toList, ← pieces, hp, Text.join_cons '/' _ (List.cons_ne_nil _ _),
      List.nil_append]
  have hmem' : piece ∈ first :: rest := by
    rw [hp] at hmem
    exact (List.mem_cons.1 hmem).resolve_left hpiece.1
  have hpos : 0 < (Text.join '/' (first :: rest)).length := by
    refine List.length_pos_iff.2 fun hnil => ?_
    have hall : Text.split '/' (Text.join '/' (first :: rest)) = first :: rest :=
      Text.split_join (List.cons_ne_nil _ _) fun other hother =>
        not_mem_of_mem_pieces (p := p) (by rw [hp]; exact List.mem_cons_of_mem _ hother)
    rw [hnil] at hall
    rw [← hall, Text.split, List.mem_singleton] at hmem'
    exact hpiece.1 hmem'
  refine ⟨?_, ?_⟩
  · rw [hrest]
    exact ⟨_, rfl⟩
  · rw [hrest, List.length_cons]
    exact Nat.succ_lt_succ hpos

/-- What the parent of a path is made of: the root, or some of the first pieces of the path. -/
inductive ParentOf (p : Path) (before : List (List Char)) : Path → Prop where
  /-- The root, above a path with a single step. -/
  | root (absolute : p.isAbsolute = true) (none : steps before = []) : ParentOf p before ⟨"/"⟩
  /-- Pieces with the same steps as those before the last one. -/
  | pieces {kept : List (List Char)} (some : kept ≠ []) (within : kept <+: before)
    (same : steps kept = steps before) : ParentOf p before (ofPieces kept)

theorem parentOf_absolute {p : Path} {before after : List (List Char)} {piece : List Char}
    (habsolute : p.isAbsolute = true) (hp : p.pieces = before ++ piece :: after)
    (hpiece : Named piece) {q : Path}
    (h : (match trimEnd (before.drop 1) with
      | [] => some ⟨"/"⟩
      | body => some (ofPieces ([] :: body))) = some q) : ParentOf p before q := by
  obtain ⟨_, _, hfirst⟩ := pieces_of_absolute habsolute
  cases before with
  | nil =>
    rw [hfirst, List.nil_append] at hp
    exact absurd (List.cons.inj hp).1.symm hpiece.1
  | cons first body =>
    rw [hfirst, List.cons_append] at hp
    obtain ⟨rfl, -⟩ := List.cons.inj hp
    have hsteps : steps ([] :: body) = steps (trimEnd body) := by
      rw [steps_cons_of_not_named fun hnil => hnil.1 rfl, steps_trimEnd]
    rw [List.drop_one, List.tail_cons] at h
    split at h
    · next hnil =>
      rw [← Option.some.inj h]
      exact .root habsolute (by rw [hsteps, hnil]; rfl)
    · rw [← Option.some.inj h]
      refine .pieces (List.cons_ne_nil _ _) ?_ ?_
      · exact List.cons_prefix_cons.2 ⟨rfl, prefix_trimEnd body⟩
      · rw [hsteps, steps_cons_of_not_named fun hnil => hnil.1 rfl]

theorem parentOf_relative {p : Path} {before : List (List Char)} {q : Path} (hne : q.text ≠ "")
    (h : (match before with
      | [] => some ⟨""⟩
      | start :: body =>
        if start = ['.'] then some (ofPieces (start :: trimEnd body))
        else some (ofPieces (trimEnd (start :: body)))) = some q) : ParentOf p before q := by
  split at h
  · rw [← Option.some.inj h] at hne
    exact absurd rfl hne
  · next start body =>
    split at h
    · next hstart =>
      rw [← Option.some.inj h]
      refine .pieces (List.cons_ne_nil _ _) ?_ ?_
      · exact List.cons_prefix_cons.2 ⟨rfl, prefix_trimEnd body⟩
      · have hunnamed : ¬ Named start := fun hnamed => hnamed.2 hstart
        rw [steps_cons_of_not_named hunnamed, steps_cons_of_not_named hunnamed, steps_trimEnd]
    · rw [← Option.some.inj h] at hne ⊢
      have hwithin := prefix_trimEnd (start :: body)
      refine .pieces (fun hnil => ?_) hwithin (steps_trimEnd _)
      rw [hnil] at hne
      exact hne rfl

/-- The parent of a path is made of the pieces before the last one that names a step. -/
theorem parentOf_parent? {p q : Path} (h : p.parent? = some q) (hne : q.text ≠ "") :
    ∃ before piece after, p.pieces = before ++ piece :: after ∧ Named piece ∧
      ParentOf p before q := by
  unfold parent? at h
  split at h
  · cases h
  · cases h
  · next c after hroot hlast =>
    have hmem := List.mem_of_getLast? hlast
    rw [located_eq, List.mem_append] at hmem
    obtain hmem | hmem := hmem
    · -- A path that consists of its opening has no parent with a name.
      obtain ⟨d, hd, heq⟩ := List.mem_map.1 hmem
      obtain ⟨rfl, rfl⟩ := Prod.mk.inj heq
      obtain ⟨hopening, hkind⟩ := opening_mem hd
      obtain rfl := hkind.resolve_left hroot
      have habsolute : p.isAbsolute = false := by
        rw [Bool.eq_false_iff, Ne, isAbsolute_iff, hopening]
        decide
      have hkept : p.pieces.length - p.pieces.tail.length - 1 = 0 := by
        rw [List.length_tail]
        omega
      simp only [habsolute, hkept, List.take_zero] at h
      exact absurd (congrArg text (Option.some.inj h)).symm hne
    · obtain ⟨before, piece, hp, hpiece⟩ := mem_locate hmem
      have hkept : p.pieces.take (p.pieces.length - after.length - 1) = before := by
        rw [hp, List.length_append, List.length_cons]
        exact List.take_left' (by omega)
      refine ⟨before, piece, after, hp, hpiece, ?_⟩
      simp only [hkept] at h
      split at h
      · next habsolute => exact parentOf_absolute habsolute hp hpiece h
      · exact parentOf_relative hne h

/-- The parent of a path has the steps before the last one, and is shorter than the path. -/
theorem parent?_spec {p q : Path} (h : p.parent? = some q) (hne : q.text ≠ "") :
    (∃ before piece after, p.pieces = before ++ piece :: after ∧ steps q.pieces = steps before) ∧
      q.text.toList <+: p.text.toList ∧ q.text.toList.length < p.text.toList.length := by
  obtain ⟨before, piece, after, hp, hpiece, hparent⟩ := parentOf_parent? h hne
  cases hparent with
  | root habsolute hnone =>
    have hpieces : steps (⟨"/"⟩ : Path).pieces = [] := by decide
    refine ⟨⟨before, piece, after, hp, hpieces.trans hnone.symm⟩, root_within habsolute ?_ hpiece⟩
    rw [hp]
    exact List.mem_append_right _ List.mem_cons_self
  | @pieces kept hkept hwithin hsame =>
    obtain ⟨gap, hgap⟩ := hwithin
    obtain ⟨hpieces, htext⟩ := @ofPieces_within p kept (gap ++ piece :: after)
      (by rw [hp, ← hgap, List.append_assoc]) hkept (by simp)
    exact ⟨⟨before, piece, after, hp, by rw [hpieces, hsame]⟩, htext⟩

/-! ## Directories above a path -/

/-- The paths above a path that have a name. -/
inductive Above : Path → Path → Prop where
  /-- The parent. -/
  | parent {p q : Path} (parent : p.parent? = some q) (named : q.text ≠ "") : Above p q
  /-- Those above the parent. -/
  | up {p q r : Path} (parent : p.parent? = some q) (named : q.text ≠ "") (above : Above q r) :
    Above p r

/-- A path without a `.` at its start and without `..`. -/
def Straight (p : Path) : Prop := Component.here ∉ p.components ∧ Component.up ∉ p.components

instance (p : Path) : Decidable p.Straight := inferInstanceAs (Decidable (_ ∧ _))

theorem opening_of_straight {p : Path} (h : p.Straight) :
    opening p.pieces = if p.isAbsolute then [.root] else [] := by
  have hhere : Component.here ∉ opening p.pieces := fun hmem =>
    h.1 (p.components_eq ▸ List.mem_append_left _ hmem)
  split
  · next habsolute => exact isAbsolute_iff.1 habsolute
  · next hrelative =>
    rw [isAbsolute_iff] at hrelative
    obtain hnil | ⟨c, -, -, hc, -, -⟩ := opening_cases p.pieces
    · exact hnil
    · rw [hc] at hhere hrelative
      obtain ⟨-, rfl | rfl⟩ := opening_mem (hc ▸ List.mem_singleton_self c)
      · exact absurd rfl hrelative
      · exact absurd (List.mem_singleton_self _) hhere

/-- A path and those above it. -/
def AtOrAbove (p q : Path) : Prop := q = p ∨ p.Above q

/-- The parent and what is above it are above the path. -/
theorem AtOrAbove.above {p q r : Path} (h : q.AtOrAbove r) (parent : p.parent? = some q)
    (named : q.text ≠ "") : p.Above r := by
  obtain rfl | h := h
  · exact .parent parent named
  · exact .up parent named h

end Path

namespace FileSystem

variable {fs : FileSystem} {p q : Path} {place : Place} {node : Node}

theorem follow_append (root : Node) (place : Place) (pieces more : List (List Char)) :
    follow root place (pieces ++ more) =
      follow root place pieces >>= fun next => follow root next more := by
  induction pieces generalizing place with
  | nil => rfl
  | cons piece rest ih =>
    rw [List.cons_append, follow_cons, follow_cons root place piece rest]
    cases follow root place [piece] with
    | error reason => rfl
    | ok next => exact ih next

/-- The steps that lead from the root to a place. -/
def stepsTo (place : Place) : List Component := place.map fun name => .name name.toList

/-- Without a `..` among them, pieces lead to the place that their steps name. -/
theorem stepsTo_follow {root : Node} {place found : Place} {pieces : List (List Char)}
    (h : follow root place pieces = .ok found) (hup : Component.up ∉ Path.steps pieces) :
    stepsTo found = stepsTo place ++ Path.steps pieces := by
  induction pieces generalizing place with
  | nil =>
    obtain rfl := Except.ok.inj h
    exact (List.append_nil _).symm
  | cons piece rest ih =>
    obtain ⟨next, hstep, h⟩ := follow_cons_eq_ok.1 h
    cases hstep with
    | stay _ hunnamed =>
      rw [Path.steps_cons_of_not_named hunnamed] at hup ⊢
      exact ih h hup
    | up _ => exact absurd List.mem_cons_self hup
    | enter _ hname _ _ =>
      obtain ⟨hnamed, hpiece⟩ := isName_iff.1 hname
      have hcomponent : Path.pieceComponent? piece = some (.name piece) := by
        rw [Path.pieceComponent?, if_neg (not_or.2 hnamed), if_neg hpiece]
      rw [Path.steps, List.filterMap_cons_some hcomponent] at hup ⊢
      rw [ih h fun hmem => hup (List.mem_cons_of_mem _ hmem)]
      simp [stepsTo, Path.steps]

/-- Straight paths that start from one directory and lead to one place are the same path. -/
theorem components_eq_of_find {other : Node} (hp : p.Straight) (hq : q.Straight)
    (habsolute : p.isAbsolute = q.isAbsolute) (hfind : fs.find p = .ok (place, node))
    (hfind' : fs.find q = .ok (place, other)) : p.components = q.components := by
  have hup {r : Path} (h : r.Straight) : Component.up ∉ Path.steps r.pieces := fun hmem =>
    h.2 (r.components_eq ▸ List.mem_append_right _ hmem)
  have hstart : fs.start p = fs.start q := by rw [start, start, habsolute]
  have hsteps := stepsTo_follow (find_eq_ok.1 hfind).2.1 (hup hp)
  rw [stepsTo_follow (find_eq_ok.1 hfind').2.1 (hup hq), hstart] at hsteps
  rw [Path.components_eq, Path.components_eq, ← List.append_cancel_left hsteps,
    Path.opening_of_straight hp, Path.opening_of_straight hq, habsolute]

/-- Whatever a path leads to, its parent leads to a directory. -/
theorem exists_find_parent (hfind : fs.find p = .ok (place, node)) (hparent : p.parent? = some q)
    (hne : q.text ≠ "") : ∃ above entries, fs.find q = .ok (above, .directory entries) := by
  obtain ⟨hbad, hfollow, -⟩ := find_eq_ok.1 hfind
  obtain ⟨⟨before, piece, after, hp, hsteps⟩, hwithin, -⟩ := Path.parent?_spec hparent hne
  rw [hp, follow_append, bind_eq_ok] at hfollow
  obtain ⟨above, habove, hrest⟩ := hfollow
  obtain ⟨next, hstep, -⟩ := follow_cons_eq_ok.1 hrest
  obtain ⟨entries, hat⟩ := hstep.exists_directory
  refine ⟨above, entries, find_eq_directory.2 ⟨?_, ?_⟩⟩
  · obtain ⟨hnull, -, hsize⟩ := badPath?_eq_none.1 hbad
    refine badPath?_eq_none.2 ⟨fun hmem => hnull (hwithin.subset hmem), hne, ?_⟩
    exact Nat.le_trans (Path.utf8ByteSize_le_of_within hwithin) hsize
  · rw [start, Path.isAbsolute_of_within hwithin hne, leadsTo_iff_steps, hsteps, ← leadsTo_iff_steps]
    exact ⟨habove, hat⟩

/-- Whatever a path leads to, the paths above it lead to directories. -/
theorem exists_find_above (habove : p.Above q) (hfind : fs.find p = .ok (place, node)) :
    ∃ above entries, fs.find q = .ok (above, .directory entries) := by
  induction habove generalizing place node with
  | parent hparent hne => exact exists_find_parent hfind hparent hne
  | up hparent hne _ ih =>
    obtain ⟨above, entries, hfind'⟩ := exists_find_parent hfind hparent hne
    exact ih hfind'

end FileSystem

end CssBuild
