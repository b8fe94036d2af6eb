import CssBuild.Files.Path

/-!
# CssBuild.Proofs.Files.Components

The components of a path by the pieces between its slashes.

1. They are an opening, the root or a `.`, and the steps that the pieces name
   (`components_eq`), and they tell the one from the others
   (`opening_steps_of_components`).
2. A named piece is what its step writes (`map_componentPiece_steps`).
-/

namespace CssBuild

namespace Path

/-! ## Steps -/

/-- Whether a piece names a step. -/
def Named (piece : List Char) : Prop := piece ≠ [] ∧ piece ≠ ['.']

instance (piece : List Char) : Decidable (Named piece) := inferInstanceAs (Decidable (_ ∧ _))

/-- The piece that writes a component. -/
def componentPiece : Component → List Char
  | .root => []
  | .here => ['.']
  | .up => ['.', '.']
  | .name text => text

/-- The steps that pieces name. -/
def steps (pieces : List (List Char)) : List Component := pieces.filterMap pieceComponent?

theorem pieceComponent?_eq_none {piece : List Char} :
    pieceComponent? piece = none ↔ ¬ Named piece := by
  rw [pieceComponent?, Named]
  split
  · next h => exact iff_of_true rfl fun hnamed => h.elim hnamed.1 hnamed.2
  · next h => split <;> simpa [not_or] using h

theorem componentPiece_of_pieceComponent? {piece : List Char} {c : Component}
    (h : pieceComponent? piece = some c) : componentPiece c = piece := by
  rw [pieceComponent?] at h
  split at h
  · cases h
  · split at h
    · next hup =>
      obtain rfl := Option.some.inj h
      exact hup.symm
    · obtain rfl := Option.some.inj h
      rfl

theorem exists_component {piece : List Char} (h : Named piece) :
    ∃ c, pieceComponent? piece = some c ∧ componentPiece c = piece := by
  cases hc : pieceComponent? piece with
  | none => exact absurd h (pieceComponent?_eq_none.1 hc)
  | some c => exact ⟨c, rfl, componentPiece_of_pieceComponent? hc⟩

@[simp] theorem steps_append (pieces more : List (List Char)) :
    steps (pieces ++ more) = steps pieces ++ steps more := List.filterMap_append

theorem steps_cons_of_not_named {piece : List Char} (h : ¬ Named piece)
    (rest : List (List Char)) : steps (piece :: rest) = steps rest :=
  List.filterMap_cons_none (pieceComponent?_eq_none.2 h)

theorem steps_of_not_named {pieces : List (List Char)} (h : ∀ piece ∈ pieces, ¬ Named piece) :
    steps pieces = [] :=
  List.filterMap_eq_nil_iff.2 fun piece hpiece => pieceComponent?_eq_none.2 (h piece hpiece)

/-- The steps that named pieces name write these pieces. -/
theorem map_componentPiece_steps {pieces : List (List Char)} (h : ∀ piece ∈ pieces, Named piece) :
    (steps pieces).map componentPiece = pieces := by
  induction pieces with
  | nil => rfl
  | cons piece rest ih =>
    obtain ⟨hpiece, hrest⟩ := List.forall_mem_cons.1 h
    obtain ⟨c, hc, hsame⟩ := exists_component hpiece
    rw [steps, List.filterMap_cons_some hc, List.map_cons, hsame]
    exact congrArg _ (ih hrest)

/-! ## Components -/

/-- The component before the steps of a path with some pieces. -/
def opening : List (List Char) → List Component
  | [] :: _ :: _ => [.root]
  | ['.'] :: _ => [.here]
  | _ => []

theorem opening_eq_nil {piece : List Char} (h : Named piece) (rest : List (List Char)) :
    opening (piece :: rest) = [] := by
  unfold opening
  split
  · next heq => exact absurd (List.cons.inj heq).1 h.1
  · next heq => exact absurd (List.cons.inj heq).1 h.2
  · rfl

theorem opening_congr {piece : List Char} {rest more : List (List Char)}
    (hrest : piece ≠ [] ∨ rest ≠ []) (hmore : piece ≠ [] ∨ more ≠ []) :
    opening (piece :: rest) = opening (piece :: more) := by
  cases piece with
  | nil =>
    obtain ⟨_, _, rfl⟩ := List.exists_cons_of_ne_nil (hrest.resolve_left (absurd rfl))
    obtain ⟨_, _, rfl⟩ := List.exists_cons_of_ne_nil (hmore.resolve_left (absurd rfl))
    rfl
  | cons c piece =>
    by_cases h : c :: piece = ['.']
    · rw [h]
      rfl
    · rw [opening_eq_nil ⟨List.cons_ne_nil _ _, h⟩, opening_eq_nil ⟨List.cons_ne_nil _ _, h⟩]

/-- A path with an opening has a first piece that names no step. -/
theorem opening_cases (pieces : List (List Char)) :
    opening pieces = [] ∨ ∃ c piece rest, opening pieces = [c] ∧ pieces = piece :: rest ∧
      ¬ Named piece := by
  unfold opening
  split
  · exact .inr ⟨_, _, _, rfl, rfl, fun h => h.1 rfl⟩
  · exact .inr ⟨_, _, _, rfl, rfl, fun h => h.2 rfl⟩
  · exact .inl rfl

theorem locate_cons_of_not_named {piece : List Char} (h : ¬ Named piece) (absolute : Bool)
    (rest : List (List Char)) :
    locate false absolute (piece :: rest) = locate false absolute rest := by
  rw [locate]
  simp [pieceComponent?_eq_none.2 h]

theorem locate_cons {piece : List Char} {c : Component} (h : pieceComponent? piece = some c)
    (absolute : Bool) (rest : List (List Char)) :
    locate false absolute (piece :: rest) = (c, rest) :: locate false absolute rest := by
  rw [locate]
  simp [h]

theorem map_fst_locate (absolute : Bool) (pieces : List (List Char)) :
    (locate false absolute pieces).map Prod.fst = steps pieces := by
  induction pieces with
  | nil => rfl
  | cons piece rest ih =>
    cases hc : pieceComponent? piece with
    | none =>
      have hpiece := pieceComponent?_eq_none.1 hc
      rw [locate_cons_of_not_named hpiece, steps_cons_of_not_named hpiece, ih]
    | some c => rw [locate_cons hc, List.map_cons, ih, steps, steps, List.filterMap_cons_some hc]

theorem located_eq (p : Path) :
    p.located = (opening p.pieces).map (fun c => (c, p.pieces.tail)) ++
      locate false p.isAbsolute p.pieces := by
  rw [located]
  cases hs : p.text.toList with
  | nil => simp [pieces, isAbsolute, hs, Text.split, locate, firstComponent?, pieceComponent?, opening]
  | cons c rest =>
    by_cases hc : c = '/'
    · obtain ⟨piece, more, hsplit⟩ := List.exists_cons_of_ne_nil (Text.split_ne_nil '/' rest)
      have hpieces : p.pieces = [] :: piece :: more := by
        rw [pieces, hs, Text.split, if_pos hc, hsplit]
      rw [hpieces, locate_cons_of_not_named (fun h => h.1 rfl), locate]
      simp [isAbsolute, hs, hc, firstComponent?, opening]
    · obtain ⟨piece, more, hpieces⟩ : ∃ piece more, p.pieces = (c :: piece) :: more := by
        rw [pieces, hs, Text.split, if_neg hc]
        split
        · exact ⟨_, _, rfl⟩
        · exact ⟨_, _, rfl⟩
      rw [hpieces, locate]
      by_cases hhere : c :: piece = ['.']
      · rw [hhere, locate_cons_of_not_named (fun h => h.2 rfl)]
        simp [isAbsolute, hs, hc, firstComponent?, opening]
      · have hnamed : Named (c :: piece) := ⟨List.cons_ne_nil _ _, hhere⟩
        obtain ⟨found, hfound, -⟩ := exists_component hnamed
        rw [opening_eq_nil hnamed, locate_cons hfound]
        simp [isAbsolute, hs, hc, firstComponent?, hhere, hfound]

/-- The components of a path are the opening and the steps of its pieces. -/
theorem components_eq (p : Path) : p.components = opening p.pieces ++ steps p.pieces := by
  rw [components, located_eq, List.map_append, map_fst_locate, List.map_map]
  exact congrArg (· ++ _) (List.map_id _)

theorem pieces_ne_nil (p : Path) : p.pieces ≠ [] := Text.split_ne_nil _ _

theorem ofPieces_pieces (p : Path) : ofPieces p.pieces = p := by
  rw [ofPieces, pieces, Text.join_split, String.ofList_toList]

theorem pieces_ofPieces {pieces : List (List Char)} (hne : pieces ≠ [])
    (h : ∀ piece ∈ pieces, '/' ∉ piece) : (ofPieces pieces).pieces = pieces := by
  rw [ofPieces, Path.pieces, String.toList_ofList, Text.split_join hne h]

theorem components_eq_nil {p : Path} : p.components = [] ↔ p.text = "" := by
  rw [components_eq, List.append_eq_nil_iff]
  constructor
  · rintro ⟨hopening, hsteps⟩
    obtain ⟨piece, rest, hp⟩ := List.exists_cons_of_ne_nil p.pieces_ne_nil
    have hpiece : ¬ Named piece := by
      refine pieceComponent?_eq_none.1 (List.filterMap_eq_nil_iff.1 hsteps piece ?_)
      rw [hp]
      exact List.mem_cons_self
    have hcases : piece = [] ∨ piece = ['.'] := by
      rw [Named] at hpiece
      grind
    rw [hp] at hopening
    obtain rfl | rfl := hcases
    · cases rest with
      | nil =>
        rw [← p.ofPieces_pieces, hp]
        rfl
      | cons next more => cases hopening
    · cases hopening
  · intro h
    rw [pieces, h]
    exact ⟨rfl, rfl⟩

/-- A component that opens a path is none of its steps. -/
theorem not_mem_steps {pieces : List (List Char)} {c : Component} (h : c = .root ∨ c = .here) :
    c ∉ steps pieces := by
  intro hmem
  obtain ⟨piece, -, hc⟩ := List.mem_filterMap.1 hmem
  have hnone : pieceComponent? piece = none := by
    rw [pieceComponent?_eq_none, ← componentPiece_of_pieceComponent? hc]
    obtain rfl | rfl := h
    · exact fun hnamed => hnamed.1 rfl
    · exact fun hnamed => hnamed.2 rfl
  cases hc.symm.trans hnone

theorem opening_mem {pieces : List (List Char)} {c : Component} (h : c ∈ opening pieces) :
    opening pieces = [c] ∧ (c = .root ∨ c = .here) := by
  unfold opening at h ⊢
  split at h
  · rw [List.mem_singleton.1 h]
    exact ⟨rfl, .inl rfl⟩
  · rw [List.mem_singleton.1 h]
    exact ⟨rfl, .inr rfl⟩
  · cases h

/-- The components tell the opening from the steps. -/
theorem opening_steps_of_components {p q : Path} (h : p.components = q.components) :
    opening p.pieces = opening q.pieces ∧ steps p.pieces = steps q.pieces := by
  rw [components_eq, components_eq] at h
  have hmem {pieces others : List (List Char)} {c : Component}
      (heq : opening pieces ++ steps pieces = opening others ++ steps others)
      (hc : c ∈ opening pieces) : opening pieces = opening others := by
    obtain ⟨hall, hkind⟩ := opening_mem hc
    have hother : c ∈ opening others ++ steps others := heq ▸ List.mem_append_left _ hc
    have hopening := (List.mem_append.1 hother).resolve_right (not_mem_steps hkind)
    rw [hall, (opening_mem hopening).1]
  have hopening : opening p.pieces = opening q.pieces := by
    cases hp : opening p.pieces with
    | cons c rest => exact hp ▸ hmem h (hp ▸ List.mem_cons_self)
    | nil =>
      cases hq : opening q.pieces with
      | nil => rfl
      | cons c rest => exact hp ▸ hq ▸ (hmem h.symm (hq ▸ List.mem_cons_self)).symm
  exact ⟨hopening, List.append_cancel_left (hopening ▸ h)⟩

theorem isAbsolute_iff {p : Path} : p.isAbsolute = true ↔ opening p.pieces = [.root] := by
  rw [isAbsolute, beq_iff_eq]
  cases hs : p.text.toList with
  | nil => simp [pieces, hs, Text.split, opening]
  | cons c rest =>
    by_cases hc : c = '/'
    · obtain ⟨piece, more, hsplit⟩ := List.exists_cons_of_ne_nil (Text.split_ne_nil '/' rest)
      simp [pieces, hs, Text.split, hc, hsplit, opening]
    · simp only [List.head?_cons, Option.some.injEq, hc, false_iff, pieces, hs, Text.split, if_false]
      unfold opening
      split
      · next heq =>
        split at heq <;> cases (List.cons.inj heq).1
      · intro h
        cases h
      · intro h
        cases h

/-- Characters other than a slash and a dot are in the text if they are in a component. -/
theorem mem_text_iff {p : Path} {c : Char} (hslash : c ≠ '/') (hdot : c ≠ '.') :
    c ∈ p.text.toList ↔ ∃ component ∈ p.components, c ∈ componentPiece component := by
  rw [← Text.join_split '/' p.text.toList, Text.mem_join hslash, ← pieces, components_eq]
  constructor
  · rintro ⟨piece, hpiece, hc⟩
    have hnamed : Named piece := by
      constructor
      · rintro rfl
        cases hc
      · rintro rfl
        exact hdot (List.mem_singleton.1 hc)
    obtain ⟨component, hcomponent, rfl⟩ := exists_component hnamed
    exact ⟨component, List.mem_append_right _ (List.mem_filterMap.2 ⟨_, hpiece, hcomponent⟩), hc⟩
  · rintro ⟨component, hcomponent, hc⟩
    obtain hopening | hstep := List.mem_append.1 hcomponent
    · obtain ⟨-, rfl | rfl⟩ := opening_mem hopening
      · cases hc
      · exact absurd (List.mem_singleton.1 hc) hdot
    · obtain ⟨piece, hpiece, hsame⟩ := List.mem_filterMap.1 hstep
      exact ⟨piece, hpiece, componentPiece_of_pieceComponent? hsame ▸ hc⟩

end Path

end CssBuild
