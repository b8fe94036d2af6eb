import CssBuild.Proofs.Files.Components

/-!
# CssBuild.Proofs.Files.Paths

Paths below others, and what is left without a prefix.

1. A path below another has the pieces of both (`pieces_join`).
2. A path is canonical if its components write it. Two texts of one path
   differ, unless both are canonical (`eq_of_components_eq`).
3. Taking a prefix away leaves the pieces after those of the prefix as they are
   (`stripPrefix?_eq_some`), and a relative path (`isAbsolute_of_stripPrefix?`).
-/

namespace CssBuild

namespace Path

/-! ## Paths below a path -/

/-- The pieces of a path that stay in front of those of a path below it. -/
def front (p : Path) : List (List Char) :=
  if p.pieces.getLast? = some [] then p.pieces.dropLast else p.pieces

theorem pieces_eq_front (p : Path) : p.pieces = p.front ∨ p.pieces = p.front ++ [[]] := by
  rw [front]
  split
  · next h =>
    obtain ⟨init, hinit⟩ := List.getLast?_eq_some_iff.1 h
    rw [hinit, List.dropLast_concat]
    exact .inr rfl
  · exact .inl rfl

@[simp] theorem steps_front (p : Path) : steps p.front = steps p.pieces := by
  obtain h | h := p.pieces_eq_front
  · rw [h]
  · rw [h, steps_append, steps_cons_of_not_named fun hnil => hnil.1 rfl]
    exact (List.append_nil _).symm

theorem not_mem_of_mem_pieces {p : Path} {piece : List Char} (h : piece ∈ p.pieces) :
    '/' ∉ piece := Text.not_mem_of_mem_split h

theorem mem_pieces_of_mem_front {p : Path} {piece : List Char} (h : piece ∈ p.front) :
    piece ∈ p.pieces := by
  obtain hp | hp := p.pieces_eq_front
  · exact hp ▸ h
  · exact hp ▸ List.mem_append_left _ h

theorem front_eq_pieces {p : Path} (hne : p.text ≠ "") (hslash : p.text.toList.getLast? ≠ some '/') :
    p.front = p.pieces := by
  refine if_neg fun hlast => ?_
  obtain ⟨init, hinit⟩ := List.getLast?_eq_some_iff.1 hlast
  have htext : p.text.toList = Text.join '/' (init ++ [[]]) := by
    rw [← hinit, pieces, Text.join_split]
  by_cases hnil : init = []
  · rw [hnil] at htext
    exact hne (String.toList_eq_nil_iff.1 htext)
  · rw [Text.join_append '/' hnil (List.cons_ne_nil _ _)] at htext
    exact hslash (htext ▸ List.getLast?_concat)

/-- The pieces of a path below another are those of both. -/
theorem pieces_join (p : Path) {q : Path} (h : q.isAbsolute = false) :
    (p.join q).pieces = p.front ++ q.pieces := by
  rw [join, h, if_neg Bool.false_ne_true]
  split
  · next hopen =>
    obtain hempty | hslash := hopen
    · simp [front, pieces, hempty, Text.split]
    · obtain ⟨init, hinit⟩ := List.getLast?_eq_some_iff.1 hslash
      have hp : p.pieces = Text.split '/' init ++ [[]] := by
        rw [pieces, hinit, Text.split_append]
        rfl
      rw [front, hp, List.getLast?_append, List.dropLast_concat]
      simp [pieces, hinit, Text.split_append]
  · next hopen =>
    obtain ⟨hne, hslash⟩ := not_or.1 hopen
    rw [front_eq_pieces hne hslash]
    simp [pieces, Text.split_append]

theorem front_join (p : Path) {q : Path} (h : q.isAbsolute = false) :
    (p.join q).front = p.front ++ q.front := by
  have hlast : (p.front ++ q.pieces).getLast? = q.pieces.getLast? := by
    obtain ⟨last, hlast⟩ := Option.isSome_iff_exists.1 (List.getLast?_isSome.2 q.pieces_ne_nil)
    rw [List.getLast?_append, hlast, Option.some_or]
  rw [front, pieces_join p h, hlast, front.eq_def q]
  split
  · rw [List.dropLast_append_of_ne_nil q.pieces_ne_nil]
  · rfl

theorem opening_front {p : Path} (h : p.text ≠ "") {more : List (List Char)} (hmore : more ≠ []) :
    opening (p.front ++ more) = opening p.pieces := by
  have hpieces : p.pieces ≠ [[]] := fun hp => by
    rw [← p.ofPieces_pieces, hp] at h
    exact h rfl
  cases hfront : p.front with
  | nil =>
    obtain hp | hp := p.pieces_eq_front
    · exact absurd (hp.trans hfront) p.pieces_ne_nil
    · rw [hfront] at hp
      exact absurd hp hpieces
  | cons piece rest =>
    obtain hp | hp := p.pieces_eq_front <;> rw [hp, hfront]
    · refine opening_congr (.inr (List.append_ne_nil_of_right_ne_nil _ hmore)) ?_
      rw [hfront] at hp
      by_cases hrest : rest = []
      · exact .inl fun hpiece => hpieces (by rw [hp, hpiece, hrest])
      · exact .inr hrest
    · exact opening_congr (.inr (List.append_ne_nil_of_right_ne_nil _ hmore))
        (.inr (List.append_ne_nil_of_right_ne_nil _ (List.cons_ne_nil _ _)))

theorem isAbsolute_join {p q : Path} (hp : p.text ≠ "") (hq : q.isAbsolute = false) :
    (p.join q).isAbsolute = p.isAbsolute := by
  rw [Bool.eq_iff_iff, isAbsolute_iff, isAbsolute_iff, pieces_join p hq,
    opening_front hp q.pieces_ne_nil]

/-- A path below another has the components of that and the steps of its own pieces. -/
theorem components_join {p q : Path} (hp : p.text ≠ "") (hq : q.isAbsolute = false) :
    (p.join q).components = p.components ++ steps q.pieces := by
  rw [components_eq, components_eq, pieces_join p hq, opening_front hp q.pieces_ne_nil,
    steps_append, steps_front, List.append_assoc]

/-! ## Clean paths -/

/-- Whether no component of a path is empty or `.`, apart from the slash of an absolute path. -/
def Clean (p : Path) : Prop :=
  p.text = "" ∨ p.text = "/" ∨
    ∀ piece ∈ (if p.isAbsolute then p.pieces.tail else p.pieces), Named piece

instance (p : Path) : Decidable p.Clean :=
  inferInstanceAs (Decidable (_ ∨ _ ∨ ∀ piece ∈ _, Named piece))

theorem pieces_of_absolute {p : Path} (h : p.isAbsolute = true) :
    ∃ piece rest, p.pieces = [] :: piece :: rest := by
  have hopening := isAbsolute_iff.1 h
  unfold opening at hopening
  split at hopening
  · next heq => exact ⟨_, _, heq⟩
  · cases hopening
  · cases hopening

/-- In front of what is below a clean path there are only pieces that name steps, after the empty
one of an absolute path. -/
theorem front_of_clean {p : Path} (h : p.Clean) :
    ∃ names, (∀ piece ∈ names, Named piece) ∧
      p.front = if p.isAbsolute then [] :: names else names := by
  obtain h | h | h := h
  · refine ⟨[], by simp, ?_⟩
    simp [front, pieces, isAbsolute, h, Text.split]
  · refine ⟨[], by simp, ?_⟩
    simp [front, pieces, isAbsolute, h, Text.split]
  · have hlast {pieces : List (List Char)} (hnamed : ∀ piece ∈ pieces, Named piece) :
        pieces.getLast? ≠ some [] :=
      fun heq => (hnamed [] (List.mem_of_getLast? heq)).1 rfl
    cases habsolute : p.isAbsolute with
    | false =>
      rw [habsolute] at h
      exact ⟨p.pieces, h, if_neg (hlast h)⟩
    | true =>
      obtain ⟨piece, rest, hp⟩ := pieces_of_absolute habsolute
      rw [habsolute, hp] at h
      refine ⟨piece :: rest, h, ?_⟩
      rw [front, hp, List.getLast?_cons_cons]
      exact if_neg (hlast h)

/-! ## Canonical paths -/

/-- The path that components write. -/
def ofComponents (components : List Component) : Path :=
  if components = [.root] then ⟨"/"⟩ else ofPieces (components.map componentPiece)

/-- Whether a path is as its components write it. -/
def Canonical (p : Path) : Prop := ofComponents p.components = p

/-- Canonical texts of one path are the same. -/
theorem eq_of_components_eq {p q : Path} (hp : p.Canonical) (hq : q.Canonical)
    (h : p.components = q.components) : p = q :=
  calc
    p = ofComponents p.components := hp.symm
    _ = ofComponents q.components := congrArg _ h
    _ = q := hq

theorem canonical_of_named {p : Path} (h : ∀ piece ∈ p.pieces, Named piece) : p.Canonical := by
  obtain ⟨piece, rest, hp⟩ := List.exists_cons_of_ne_nil p.pieces_ne_nil
  have hopening : opening p.pieces = [] := by
    rw [hp]
    exact opening_eq_nil (h piece (hp ▸ List.mem_cons_self)) rest
  have hmap := map_componentPiece_steps h
  rw [Canonical, components_eq, hopening, List.nil_append, ofComponents, if_neg, hmap,
    ofPieces_pieces]
  intro hroot
  rw [hroot] at hmap
  exact (h [] (hmap ▸ List.mem_singleton_self _)).1 rfl

theorem components_of_absolute {p : Path} {names : List (List Char)} (hp : p.pieces = [] :: names)
    (hne : names ≠ []) : p.components = .root :: steps names := by
  obtain ⟨piece, rest, hnames⟩ := List.exists_cons_of_ne_nil hne
  rw [components_eq, hp, hnames, steps_cons_of_not_named fun hnamed => hnamed.1 rfl]
  rfl

theorem canonical_of_absolute {p : Path} {names : List (List Char)} (hp : p.pieces = [] :: names)
    (hne : names ≠ []) (h : ∀ piece ∈ names, Named piece) : p.Canonical := by
  have hmap := map_componentPiece_steps h
  rw [Canonical, components_of_absolute hp hne, ofComponents, if_neg, List.map_cons, hmap]
  · exact (congrArg ofPieces hp).symm.trans p.ofPieces_pieces
  · intro hroot
    rw [(List.cons.inj hroot).2] at hmap
    exact hne hmap.symm

/-- Named pieces write a canonical path. -/
theorem canonical_ofPieces {names : List (List Char)} (hnamed : ∀ piece ∈ names, Named piece)
    (hslash : ∀ piece ∈ names, '/' ∉ piece) :
    (ofPieces names).Canonical ∧ (ofPieces names).components = steps names := by
  cases names with
  | nil =>
    have hcomponents : (ofPieces []).components = [] := by
      rw [components_eq, ofPieces, pieces, String.toList_ofList]
      rfl
    refine ⟨?_, hcomponents⟩
    rw [Canonical, hcomponents, ofComponents, if_neg (by decide), List.map_nil]
  | cons piece rest =>
    have hpieces := pieces_ofPieces (List.cons_ne_nil piece rest) hslash
    refine ⟨canonical_of_named (by rwa [hpieces]), ?_⟩
    rw [components_eq, hpieces, opening_eq_nil (hnamed piece List.mem_cons_self), List.nil_append]

/-! ## Taking a prefix away -/

theorem dropComponents_locate (absolute : Bool) (before after : List (List Char)) :
    ∃ gap, (∀ piece ∈ gap, ¬ Named piece) ∧
      dropComponents (before ++ after) (locate false absolute (before ++ after)) (steps before) =
        some (gap ++ after) := by
  induction before with
  | nil => exact ⟨[], by simp, by rw [steps, List.filterMap_nil, dropComponents]⟩
  | cons piece rest ih =>
    cases hc : pieceComponent? piece with
    | some c =>
      obtain ⟨gap, hgap, hdrop⟩ := ih
      refine ⟨gap, hgap, ?_⟩
      rw [steps, List.filterMap_cons_some hc, List.cons_append, locate_cons hc, dropComponents,
        if_pos rfl]
      exact hdrop
    | none =>
      have hpiece := pieceComponent?_eq_none.1 hc
      rw [steps_cons_of_not_named hpiece, List.cons_append, locate_cons_of_not_named hpiece]
      cases hsteps : steps rest with
      | nil =>
        refine ⟨piece :: rest, ?_, by rw [dropComponents]; rfl⟩
        refine List.forall_mem_cons.2 ⟨hpiece, fun other hother => ?_⟩
        exact pieceComponent?_eq_none.1 (List.filterMap_eq_nil_iff.1 hsteps other hother)
      | cons c more =>
        obtain ⟨gap, hgap, hdrop⟩ := ih
        rw [hsteps] at hdrop
        refine ⟨gap, hgap, ?_⟩
        rw [← hdrop]
        cases locate false absolute (rest ++ after) <;> rfl

theorem isNone_pieceComponent? {piece : List Char} :
    (pieceComponent? piece).isNone = true ↔ ¬ Named piece := by
  rw [Option.isNone_iff_eq_none, pieceComponent?_eq_none]

theorem trimStart_append {gap after : List (List Char)} (hgap : ∀ piece ∈ gap, ¬ Named piece)
    (hafter : ∀ piece ∈ after.head?, Named piece) : trimStart (gap ++ after) = after := by
  rw [trimStart, List.dropWhile_append_of_pos fun piece hpiece =>
    isNone_pieceComponent?.2 (hgap piece hpiece)]
  cases after with
  | nil => rfl
  | cons piece rest =>
    refine List.dropWhile_cons_of_neg fun hnone => ?_
    exact isNone_pieceComponent?.1 hnone (hafter piece rfl)

theorem trimEnd_eq_self {pieces : List (List Char)}
    (h : ∀ piece ∈ pieces.getLast?, Named piece) : trimEnd pieces = pieces := by
  have hreverse : trimStart ([] ++ pieces.reverse) = pieces.reverse :=
    trimStart_append (by simp) (by simpa using h)
  rw [trimEnd, ← trimStart, ← List.nil_append pieces.reverse, hreverse, List.reverse_reverse]

/-- Taking away a path of the components before some pieces leaves these pieces. -/
theorem stripPrefix?_eq_some {p base : Path} {before after : List (List Char)}
    (hp : p.pieces = before ++ after) (hbase : base.components = opening p.pieces ++ steps before)
    (hne : base.components ≠ []) (hfirst : ∀ piece ∈ after.head?, Named piece)
    (hlast : ∀ piece ∈ after.getLast?, Named piece) :
    p.stripPrefix? base = some (ofPieces after) := by
  have hdrop : ∃ gap, (∀ piece ∈ gap, ¬ Named piece) ∧
      dropComponents p.pieces p.located base.components = some (gap ++ after) := by
    rw [located_eq, hbase]
    obtain hopening | ⟨c, piece, rest, hopening, hrest, hpiece⟩ := opening_cases p.pieces
    · rw [hopening, hp]
      exact dropComponents_locate _ before after
    · rw [hopening, hrest, locate_cons_of_not_named hpiece]
      cases before with
      | nil =>
        rw [List.nil_append, hrest] at hp
        exact absurd (hfirst piece (by rw [← hp]; rfl)) hpiece
      | cons first more =>
        rw [hrest] at hp
        obtain ⟨rfl, rfl⟩ := List.cons.inj hp
        rw [steps_cons_of_not_named hpiece]
        obtain ⟨gap, hgap, hdrop⟩ := dropComponents_locate p.isAbsolute more after
        refine ⟨gap, hgap, ?_⟩
        simpa [dropComponents] using hdrop
  obtain ⟨gap, hgap, hdrop⟩ := hdrop
  rw [stripPrefix?]
  split
  · next hnil => exact absurd hnil hne
  · rw [hdrop]
    simp only [trimStart_append hgap hfirst, trimEnd_eq_self hlast]

/-- What an absolute path is left with below another one is canonical. -/
theorem exists_stripPrefix? {p base : Path} {names : List (List Char)}
    (hp : p.pieces = [] :: names) (hne : names ≠ []) (hnamed : ∀ piece ∈ names, Named piece)
    (hslash : ∀ piece ∈ names, '/' ∉ piece) (hbase : base.text ≠ "")
    (hwithin : base.components <+: p.components) :
    ∃ left, p.stripPrefix? base = some left ∧ left.Canonical ∧
      p.components = base.components ++ left.components := by
  rw [components_of_absolute hp hne] at hwithin ⊢
  cases hsteps : base.components with
  | nil => exact absurd (components_eq_nil.1 hsteps) hbase
  | cons c more =>
    rw [hsteps] at hwithin
    obtain ⟨rfl, hmore⟩ := List.cons_prefix_cons.1 hwithin
    obtain ⟨taken, ⟨after, rfl⟩, rfl⟩ := List.prefix_filterMap_iff.1 hmore
    have hnamedAfter := (List.forall_mem_append.1 hnamed).2
    obtain ⟨hcanonical, hafter⟩ :=
      canonical_ofPieces hnamedAfter (List.forall_mem_append.1 hslash).2
    refine ⟨ofPieces after, ?_, hcanonical, ?_⟩
    · refine stripPrefix?_eq_some (hp.trans (List.cons_append ..).symm) ?_ ?_ ?_ ?_
      · obtain ⟨first, rest, hfirst⟩ := List.exists_cons_of_ne_nil hne
        rw [hsteps, hp, steps_cons_of_not_named fun hnil => hnil.1 rfl, hfirst]
        rfl
      · rw [hsteps]
        exact List.cons_ne_nil _ _
      · exact fun piece hpiece => hnamedAfter piece (List.mem_of_mem_head? hpiece)
      · exact fun piece hpiece => hnamedAfter piece (List.mem_of_getLast? hpiece)
    · rw [hafter, steps_append]
      rfl

theorem dropComponents_eq_none {pieces : List (List Char)}
    {located : List (Component × List (List Char))} {taken : List Component} :
    dropComponents pieces located taken = none ↔ ¬ taken <+: located.map Prod.fst := by
  induction taken generalizing pieces located with
  | nil =>
    rw [dropComponents]
    exact iff_of_false (Option.some_ne_none _) (not_not_intro List.nil_prefix)
  | cons d ds ih =>
    cases located with
    | nil => exact iff_of_true rfl fun h => List.cons_ne_nil _ _ (List.prefix_nil.1 h)
    | cons entry rest =>
      rw [dropComponents, List.map_cons, List.cons_prefix_cons]
      split
      · next hsame => rw [ih, and_iff_right hsame.symm]
      · next hother => exact iff_of_true rfl fun h => hother h.1.symm

/-- A path is seen to be below the base if the components say so. -/
theorem stripPrefix?_eq_none {p base : Path} :
    p.stripPrefix? base = none ↔ ¬ base.components <+: p.components := by
  rw [stripPrefix?]
  split
  · next hnil =>
    rw [hnil]
    exact iff_of_false (Option.some_ne_none _) (not_not_intro List.nil_prefix)
  · split
    · next hdrop => exact iff_of_true rfl (dropComponents_eq_none.1 hdrop)
    · next left hdrop =>
      refine iff_of_false (Option.some_ne_none _) fun h => ?_
      rw [dropComponents_eq_none.2 h] at hdrop
      cases hdrop

theorem suffix_of_mem_locate {first absolute : Bool} {pieces after : List (List Char)} {c : Component}
    (h : (c, after) ∈ locate first absolute pieces) : after <:+ pieces := by
  induction pieces generalizing first with
  | nil => cases h
  | cons piece rest ih =>
    rw [locate] at h
    split at h
    · obtain h | h := List.mem_cons.1 h
      · rw [(Prod.mk.inj h).2]
        exact List.suffix_cons _ _
      · exact (ih h).trans (List.suffix_cons _ _)
    · exact (ih h).trans (List.suffix_cons _ _)

theorem dropComponents_cases {pieces left : List (List Char)}
    {located : List (Component × List (List Char))} {taken : List Component}
    (h : dropComponents pieces located taken = some left) :
    left = pieces ∨ ∃ c, (c, left) ∈ located := by
  induction taken generalizing pieces located with
  | nil =>
    rw [dropComponents] at h
    exact .inl (Option.some.inj h).symm
  | cons d ds ih =>
    cases located with
    | nil => cases h
    | cons entry rest =>
      obtain ⟨c, after⟩ := entry
      rw [dropComponents] at h
      split at h
      · obtain rfl | ⟨found, hfound⟩ := ih h
        · exact .inr ⟨c, List.mem_cons_self⟩
        · exact .inr ⟨found, List.mem_cons_of_mem _ hfound⟩
      · cases h

theorem isAbsolute_ofPieces {pieces : List (List Char)} (hslash : ∀ piece ∈ pieces, '/' ∉ piece)
    (hfirst : ∀ piece ∈ pieces.head?, Named piece) : (ofPieces pieces).isAbsolute = false := by
  cases pieces with
  | nil =>
    rw [ofPieces, isAbsolute, String.toList_ofList]
    rfl
  | cons piece rest =>
    rw [Bool.eq_false_iff, Ne, isAbsolute_iff, pieces_ofPieces (List.cons_ne_nil _ _) hslash,
      opening_eq_nil (hfirst piece rfl)]
    exact (List.cons_ne_nil _ _).symm

theorem prefix_trimEnd (pieces : List (List Char)) : trimEnd pieces <+: pieces := by
  rw [trimEnd, ← List.reverse_suffix, List.reverse_reverse]
  exact List.dropWhile_suffix _

theorem trimStart_suffix (pieces : List (List Char)) : trimStart pieces <:+ pieces :=
  List.dropWhile_suffix _

theorem named_head_trimStart (pieces : List (List Char)) :
    ∀ piece ∈ (trimStart pieces).head?, Named piece := by
  intro piece hpiece
  refine Decidable.byContradiction fun hunnamed => ?_
  have hnone := List.head?_dropWhile_not (fun piece => (pieceComponent? piece).isNone) pieces
  rw [trimStart] at hpiece
  rw [Option.mem_def.1 hpiece] at hnone
  exact Bool.false_ne_true (hnone.symm.trans (isNone_pieceComponent?.2 hunnamed))

theorem exists_of_stripPrefix? {p base q : Path} (hne : base.components ≠ [])
    (h : p.stripPrefix? base = some q) :
    ∃ left, dropComponents p.pieces p.located base.components = some left ∧
      (∀ piece ∈ trimEnd (trimStart left), '/' ∉ piece) ∧ ofPieces (trimEnd (trimStart left)) = q := by
  rw [stripPrefix?] at h
  split at h
  · next hnil => exact absurd hnil hne
  · split at h
    · cases h
    · next left hdrop =>
      refine ⟨left, hdrop, fun piece hpiece => ?_, Option.some.inj h⟩
      have hmem := (trimStart_suffix left).subset ((prefix_trimEnd _).subset hpiece)
      refine not_mem_of_mem_pieces (p := p) ?_
      obtain rfl | ⟨c, hc⟩ := dropComponents_cases hdrop
      · exact hmem
      · exact (suffix_of_mem_locate hc).subset hmem

/-- What is left without a prefix is relative. -/
theorem isAbsolute_of_stripPrefix? {p base q : Path} (hne : base.components ≠ [])
    (h : p.stripPrefix? base = some q) : q.isAbsolute = false := by
  obtain ⟨left, -, hslash, rfl⟩ := exists_of_stripPrefix? hne h
  refine isAbsolute_ofPieces hslash fun piece hpiece => named_head_trimStart left piece ?_
  obtain ⟨more, hmore⟩ := prefix_trimEnd (trimStart left)
  rw [← hmore, List.head?_append, Option.mem_def.1 hpiece]
  rfl

end Path

end CssBuild
