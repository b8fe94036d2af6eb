import CssBuild.Proofs.Script.Escapes

/-!
# CssBuild.Proofs.Script.Cutting

String literals and their pieces.

1. A literal is any sequence of characters that stand for themselves and of
   escapes (`Writes`). In a string no line ends, in a template nothing is put
   in.
2. Strings and templates are cut in the same way (`cut`): characters that stand
   for themselves are a piece together, and every escape is one.
3. A literal is cut into pieces that stand for its parts, up to its closing mark
   (`exists_pieces`).
-/

namespace CssBuild.Script

/-! ## Literals -/

/-- Whether a character stands for itself between two marks, before a text. -/
def Raw (quote c : Char) (s : List Char) : Prop :=
  c ≠ quote ∧ c ≠ '\\' ∧ c ≠ '\x00' ∧
    if quote = '\x60' then c = '$' → ∀ d ∈ s.head?, d ≠ '\x7b' else c ≠ '\n' ∧ c ≠ '\r'

instance (quote c : Char) (s : List Char) : Decidable (Raw quote c s) :=
  inferInstanceAs (Decidable (_ ∧ _ ∧ _ ∧
    if quote = '\x60' then c = '$' → ∀ d ∈ s.head?, d ≠ '\x7b' else _))

/-- Texts between two marks, with their parts. -/
inductive Writes (quote : Char) : List Part → List Char → Prop where
  /-- Nothing is between the marks. -/
  | nil : Writes quote [] []
  /-- A character comes first. -/
  | raw {c : Char} {parts : List Part} {s : List Char} (plain : Raw quote c s)
    (more : Writes quote parts s) : Writes quote (.raw c :: parts) (c :: s)
  /-- An escape comes first. -/
  | escape {e : List Char} {part : Part} {parts : List Part} {s : List Char}
    (first : EscapeAt s e part) (more : Writes quote parts s) :
    Writes quote (part :: parts) (e ++ s)

/-! ## Pieces -/

/-- Cuts a literal into pieces up to its closing mark, in a number of steps. -/
def cut (quote : Char) (steps : Nat) (s : List Char) : Except Fault (Found (List Piece)) :=
  if quote = '\x60' then (rules steps).template s else stringPieces quote steps s

/-- What comes after characters that stand for themselves. -/
def afterRaw (quote : Char) (s : List Char) : List Char :=
  if quote = '\x60' then Rules.templateChars s else s.dropWhile (isStringChar quote)

section Cutting

variable {quote : Char} (hquote : quote ∈ quotes)

theorem cut_close (steps : Nat) (rest : List Char) :
    cut quote (steps + 1) (quote :: rest) = .ok ([], rest) := by
  rw [cut]
  split
  · next htemplate =>
    subst htemplate
    rfl
  · rw [stringPieces, if_pos rfl]

include hquote

theorem cut_escape (steps : Nat) {s after : List Char} (h : escapeRest? ('\\' :: s) = some after) :
    cut quote (steps + 1) ('\\' :: s) = (do
      let (more, rest) ← cut quote steps after
      .ok (.escape ('\\' :: s) (between ('\\' :: s) after) :: more, rest)) := by
  have hne : '\\' ≠ quote := by
    rintro rfl
    exact absurd hquote (by decide)
  rw [cut]
  split
  · next htemplate =>
    subst htemplate
    change Rules.readTemplate (rules steps) ('\\' :: s) = _
    rw [Rules.readTemplate, if_neg (by decide), if_pos rfl, h]
    rfl
  · next hstring =>
    rw [stringPieces, if_neg hne, if_pos rfl, h]
    simp only [cut, if_neg hstring]

theorem afterRaw_cons {c : Char} {s : List Char} (h : Raw quote c s) :
    afterRaw quote (c :: s) = afterRaw quote s := by
  obtain ⟨hne, hescape, hnull, hkind⟩ := h
  rw [afterRaw, afterRaw]
  split
  · next htemplate =>
    subst htemplate
    rw [if_pos rfl] at hkind
    have hplain : c = '$' ∨ Rules.isTemplateChar c = true := by
      by_cases hc : c = '$'
      · exact .inl hc
      · exact .inr (by simp [Rules.isTemplateChar, hne, hescape, hc, hnull])
    rw [Rules.templateChars.eq_def (c :: s)]
    split
    · next heq => cases heq
    · next heq =>
      cases heq
      exact absurd rfl (hkind rfl _ rfl)
    · next heq =>
      cases heq
      rw [if_pos hplain]
  · next hstring =>
    rw [if_neg hstring] at hkind
    rw [List.dropWhile_cons_of_pos (by
      simp [isStringChar, hne, hescape, hkind, hnull])]

/-- The closing mark and a backslash do not stand for themselves. -/
theorem afterRaw_stop {c : Char} (hc : c = quote ∨ c = '\\') (s : List Char) :
    afterRaw quote (c :: s) = c :: s := by
  rw [afterRaw]
  split
  · next htemplate =>
    subst htemplate
    obtain rfl | rfl := hc <;> rfl
  · refine List.dropWhile_cons_of_neg ?_
    obtain rfl | rfl := hc <;> simp [isStringChar]

/-- Characters that stand for themselves are cut off together. -/
theorem cut_raw (steps : Nat) {run s : List Char} (hne : run ≠ [])
    (h : afterRaw quote (run ++ s) = s) :
    cut quote (steps + 1) (run ++ s) = (do
      let (more, rest) ← cut quote steps s
      .ok (.fragment (run ++ s) run :: more, rest)) := by
  obtain ⟨c, run, rfl⟩ := List.exists_cons_of_ne_nil hne
  have hstop : ¬(c = quote ∨ c = '\\') := fun hc => by
    have hlength := congrArg List.length (afterRaw_stop hquote hc (run ++ s))
    rw [← List.cons_append, h] at hlength
    simp at hlength
    omega
  obtain ⟨hclose, hescape⟩ := not_or.1 hstop
  rw [cut]
  rw [afterRaw] at h
  split
  · next htemplate =>
    rw [if_pos htemplate] at h
    change Rules.readTemplate (rules steps) (c :: run ++ s) = _
    have hless : s.length < (c :: (run ++ s)).length := by
      rw [List.length_cons, List.length_append]
      omega
    have hbetween := between_append (c :: run) s
    rw [List.cons_append] at h hbetween ⊢
    simp only [Rules.readTemplate, if_neg (htemplate ▸ hclose), if_neg hescape, h, if_pos hless,
      hbetween, cut, if_pos htemplate]
  · next hstring =>
    rw [if_neg hstring] at h
    have hplain : isStringChar quote c = true := by
      by_contra hplain
      have hlength := congrArg List.length
        (h.symm.trans (List.dropWhile_cons_of_neg (l := run ++ s) hplain))
      simp at hlength
      omega
    have hrun : (c :: run ++ s).takeWhile (isStringChar quote) = c :: run := by
      have hsplit := List.takeWhile_append_dropWhile (p := isStringChar quote) (l := c :: run ++ s)
      rw [h] at hsplit
      exact List.append_cancel_right hsplit
    rw [List.cons_append] at h hrun ⊢
    simp only [stringPieces, if_neg hclose, if_neg hescape, if_pos hplain, h, hrun, cut,
      if_neg hstring]

end Cutting

/-- Whether a literal is cut into pieces, up to its closing mark. -/
def Cuts (quote : Char) (s : List Char) (pieces : List Piece) (rest : List Char) : Prop :=
  ∀ steps, s.length < steps → cut quote steps s = .ok (pieces, rest)

theorem cuts_close (quote : Char) (rest : List Char) : Cuts quote (quote :: rest) [] rest := by
  intro steps hsteps
  obtain ⟨steps, rfl⟩ := Nat.exists_eq_succ_of_ne_zero (Nat.ne_zero_of_lt hsteps)
  exact cut_close steps rest

namespace Cuts

variable {quote : Char} {s rest : List Char} {pieces : List Piece} (h : Cuts quote s pieces rest)
  (hquote : quote ∈ quotes)
include h hquote

theorem escape {u : List Char} (hends : escapeRest? ('\\' :: u ++ s) = some s) :
    Cuts quote ('\\' :: u ++ s) (.escape ('\\' :: u ++ s) ('\\' :: u) :: pieces) rest := by
  intro steps hsteps
  obtain ⟨steps, rfl⟩ := Nat.exists_eq_succ_of_ne_zero (Nat.ne_zero_of_lt hsteps)
  have hroom : s.length < steps := by
    simp only [List.length_append, List.length_cons] at hsteps
    omega
  have hbetween := between_append ('\\' :: u) s
  rw [List.cons_append] at hends hbetween ⊢
  rw [cut_escape hquote steps hends, h steps hroom, hbetween]
  rfl

theorem raw {run : List Char} (hne : run ≠ []) (hafter : afterRaw quote (run ++ s) = s) :
    Cuts quote (run ++ s) (.fragment (run ++ s) run :: pieces) rest := by
  intro steps hsteps
  obtain ⟨steps, rfl⟩ := Nat.exists_eq_succ_of_ne_zero (Nat.ne_zero_of_lt hsteps)
  have hroom : s.length < steps := by
    have hpos := List.length_pos_iff.2 hne
    rw [List.length_append] at hsteps
    omega
  rw [cut_raw hquote steps hne hafter, h steps hroom]
  rfl

end Cuts

/-- What pieces stand for. -/
inductive Means : List Piece → List Part → Prop where
  /-- There are no pieces. -/
  | nil : Means [] []
  /-- Characters that stand for themselves come first. -/
  | fragment {pieces : List Piece} {parts : List Part} {at_ run : List Char} (some : run ≠ [])
    (more : Means pieces parts) : Means (.fragment at_ run :: pieces) (run.map .raw ++ parts)
  /-- An escape comes first. -/
  | escape {pieces : List Piece} {part : Part} {parts : List Part} {at_ text : List Char}
    (read : unescape text = part.escape) (more : Means pieces parts) :
    Means (.escape at_ text :: pieces) (part :: parts)

section Writes

variable {quote : Char} {parts : List Part} {text : List Char}

/-- A literal is a run of characters that stand for themselves, and what comes after it: nothing
or an escape. -/
theorem Writes.exists_run (h : Writes quote parts text) (hquote : quote ∈ quotes)
    (rest : List Char) :
    ∃ run parts' text', parts = run.map .raw ++ parts' ∧ text = run ++ text' ∧
      Writes quote parts' text' ∧
      afterRaw quote (text ++ quote :: rest) = text' ++ quote :: rest ∧
      (text' = [] ∧ parts' = [] ∨ ∃ s e part more, EscapeAt s e part ∧ Writes quote more s ∧
        text' = e ++ s ∧ parts' = part :: more) := by
  induction h with
  | nil => exact ⟨[], [], [], rfl, rfl, .nil, afterRaw_stop hquote (.inl rfl) rest, .inl ⟨rfl, rfl⟩⟩
  | @raw c parts s plain more ih =>
    obtain ⟨run, parts', text', hparts, htext, hwrites, hafter, hcases⟩ := ih
    refine ⟨c :: run, parts', text', by simp [hparts], by simp [htext], hwrites, ?_, hcases⟩
    have hplain : Raw quote c (s ++ quote :: rest) := by
      obtain ⟨hne, hescape, hnull, hkind⟩ := plain
      refine ⟨hne, hescape, hnull, ?_⟩
      split at hkind
      · next htemplate =>
        rw [if_pos htemplate]
        intro hc d hd
        cases s with
        | nil =>
          obtain rfl := Option.some.inj hd
          exact htemplate ▸ by decide
        | cons first others => exact hkind hc d hd
      · next hstring =>
        rw [if_neg hstring]
        exact hkind
    rw [List.cons_append, afterRaw_cons hquote hplain, hafter]
  | @escape e part parts s first more ih =>
    obtain ⟨u, rfl⟩ := first.exists_cons
    exact ⟨[], part :: parts, '\\' :: u ++ s, rfl, rfl, .escape first more,
      afterRaw_stop hquote (.inr rfl) _, .inr ⟨s, _, part, parts, first, more, rfl, rfl⟩⟩

/-- A literal is cut into pieces that stand for its parts. -/
theorem exists_pieces (hquote : quote ∈ quotes) (h : Writes quote parts text) (rest : List Char) :
    ∃ pieces, Means pieces parts ∧ Cuts quote (text ++ quote :: rest) pieces rest := by
  -- After a run and an escape there is a shorter literal.
  induction hlength : text.length using Nat.strong_induction_on generalizing parts text with
  | _ length ih =>
  subst hlength
  obtain ⟨run, parts', text', rfl, rfl, -, hafter, hcases⟩ := h.exists_run hquote rest
  have hmore : ∃ pieces, Means pieces parts' ∧ Cuts quote (text' ++ quote :: rest) pieces rest := by
    obtain ⟨rfl, rfl⟩ | ⟨s, e, part, more, hescape, hmore, rfl, rfl⟩ := hcases
    · exact ⟨[], .nil, cuts_close quote rest⟩
    · obtain ⟨u, rfl⟩ := hescape.exists_cons
      have hless : s.length < (run ++ ('\\' :: u ++ s)).length := by
        simp only [List.length_append, List.length_cons]
        omega
      obtain ⟨pieces, hmeans, hcuts⟩ := ih s.length hless hmore rfl
      have hends := (hescape.append_quote hquote rest).escapeRest?
      rw [List.append_assoc]
      exact ⟨_, .escape hescape.unescape hmeans, hcuts.escape hquote hends⟩
  obtain ⟨pieces, hmeans, hcuts⟩ := hmore
  by_cases hrun : run = []
  · subst hrun
    exact ⟨pieces, hmeans, hcuts⟩
  · rw [List.append_assoc] at hafter ⊢
    exact ⟨_, .fragment hrun hmeans, hcuts.raw hquote hrun hafter⟩

end Writes

end CssBuild.Script
