import CssBuild.Proofs.Script.Literals

/-!
# CssBuild.Proofs.Script.Requires

Calls of `require` as expressions of a module.

1. A string without escapes is read as a string (`readableAs_plain`), and
   expressions with commas between them are read as arguments, whatever they
   are (`argumentsText_list`).
2. What is called may be called again, and each call has the whole text up to
   its last parenthesis (`readChain_applied`).
3. So a call of `require` is read as one call with its text as it is written,
   applied further or not (`readableAs_require`).
-/

namespace CssBuild.Script

open Rules hiding none

/-! ## Strings without escapes -/

section Plain

variable {quote : Char} {name : List Char} (plain : ∀ c ∈ name, isStringChar quote c = true)
include plain

theorem exists_pieces_plain (fuel : Nat) (rest : List Char) :
    ∃ pieces, stringPieces quote (fuel + 2) (name ++ quote :: rest) = .ok (pieces, rest) := by
  cases name with
  | nil => exact ⟨[], by rw [List.nil_append, stringPieces, if_pos rfl]⟩
  | cons c name =>
    have hc := plain c List.mem_cons_self
    have hmarks := hc
    simp only [isStringChar, Bool.and_eq_true, bne_iff_ne] at hmarks
    have hrest : (c :: (name ++ quote :: rest)).dropWhile (isStringChar quote) = quote :: rest :=
      dropWhile_run plain (stops_cons (by simp [isStringChar]))
    have hclose : stringPieces quote (fuel + 1) (quote :: rest) = .ok ([], rest) := by
      rw [stringPieces, if_pos rfl]
    obtain ⟨⟨⟨⟨hquote, hescape⟩, -⟩, -⟩, -⟩ := hmarks
    rw [List.cons_append, stringPieces, if_neg hquote, if_neg hescape, if_pos hc, hrest, hclose]
    exact ⟨_, rfl⟩

/-- A string without escapes is read as a string. -/
theorem readableAs_plain (hquote : quote ∈ stringMarks) :
    ReadableAs (fun e => ∃ start pieces, e = .string start pieces) (quote :: (name ++ [quote])) := by
  have hmarks : ∀ quote ∈ stringMarks, quote ∈ operandMarks ∧ (quote = '"' ∨ quote = '\'') := by
    decide
  obtain ⟨hoperand, hstring⟩ := hmarks quote hquote
  refine readableAs_mark hoperand fun level rest _ _ => ?_
  obtain ⟨pieces, hpieces⟩ := exists_pieces_plain plain (name.length + rest.length) rest
  have hlength : (name ++ quote :: rest).length + 1 = name.length + rest.length + 2 := by
    rw [List.length_append, List.length_cons]
    omega
  rw [← hlength] at hpieces
  refine ⟨.string (quote :: (name ++ quote :: rest)) pieces, ?_, _, _, rfl⟩
  rw [List.cons_append, List.append_assoc, List.cons_append, List.nil_append, primary,
    if_pos hstring, hpieces]
  rfl

end Plain

/-! ## Arguments -/

/-- Whether a text is read as arguments, up to the parenthesis that closes them, where enough
levels are left. -/
def ArgumentsText (u : List Char) : Prop :=
  ∀ level rest, 4 * u.length + rest.length < level →
    readArguments (rules level) (u ++ rest) = .ok rest

/-- An argument is read before what goes on behind it. -/
theorem readArguments_cons (r : Rules) {gap u t : List Char} {e : Expr} (hgap : Trivia gap)
    (hstart : StartsValue (u ++ t)) (hread : r.expression (u ++ t) = .ok (e, t)) :
    readArguments r (gap ++ (u ++ t)) = goOn ')' r.arguments t := by
  have hskipped := gap_value hgap hstart
  obtain ⟨c, more, hcons, hc⟩ := hstart.head (p := fun c => c ∉ [')', ',', '.']) (by decide)
  simp only [List.mem_cons, List.not_mem_nil, or_false, not_or] at hc
  rw [hcons] at hskipped hread ⊢
  simp [readArguments, operandStart, hskipped, hc, hread]

/-- Expressions with commas between them are arguments. -/
theorem argumentsText_list {kinds : List (Expr → Prop)} {u : List Char}
    (h : ListText ')' ReadableAs kinds u) : ArgumentsText u := by
  intro level rest hlevel
  induction h generalizing level with
  | close trivia =>
    have hstart := gap_trivia trivia (solid_cons (c := ')') (by decide) rest) rfl
    rw [List.append_assoc]
    simp [readArguments, operandStart, hstart]
  | @last kind _ u after trivia first behind =>
    simp only [List.length_append, List.length_cons, List.length_nil] at hlevel
    simp only [List.append_assoc, List.cons_append, List.nil_append]
    have hlength : 4 * u.length + (after ++ ')' :: rest).length < level := by
      rw [List.length_append, List.length_cons]
      omega
    obtain ⟨e, hread, -⟩ := first.reads .nil (Ends.mark behind (c := ')') (by decide) rest) hlength
    rw [readArguments_cons _ trivia (first.starts.append _) hread, goOn,
      separator_close behind ')' rest (by decide)]
    rfl
  | @more kind _ _ u after s trivia first behind _ ih =>
    simp only [List.length_append, List.length_cons] at hlevel
    simp only [List.append_assoc, List.cons_append]
    have hlength : 4 * u.length + (after ++ ',' :: (s ++ rest)).length < level := by
      rw [List.length_append, List.length_cons, List.length_append]
      omega
    obtain ⟨e, hread, -⟩ :=
      first.reads .nil (Ends.mark behind (c := ',') (by decide) (s ++ rest)) hlength
    obtain ⟨k, rfl⟩ := exists_level (n := 1) (by omega : 1 ≤ level)
    rw [readArguments_cons _ trivia (first.starts.append _) hread, goOn,
      separator_comma behind ')' (s ++ rest)]
    exact ih k (by omega)

/-- Lists of arguments after one another. -/
inductive Applied : List Char → Prop where
  | nil : Applied []
  | cons {gap u more : List Char} (trivia : Trivia gap) (arguments : ArgumentsText u)
    (rest : Applied more) : Applied (gap ++ '(' :: (u ++ more))

/-! ## Calls -/

theorem readChain_call {level : Nat} (start : List Char) (value : Expr) {gap u rest : List Char}
    (hgap : Trivia gap) (harguments : ArgumentsText u)
    (hlevel : 4 * u.length + rest.length < level) :
    readChain (rules (level + 1)) start value (gap ++ '(' :: (u ++ rest)) =
      readChain (rules level) start (.call start (between start rest)) rest := by
  have hskip := skip_mark hgap (c := '(') (by decide) (u ++ rest)
  have hread : (rules (level + 1)).arguments (u ++ rest) = .ok rest := harguments level rest hlevel
  simp only [readChain, hskip, hread, ok_bind]
  rfl

/-- A call that is applied further is a call with its text up to the last parenthesis. -/
theorem readChain_applied {more : List Char} (h : Applied more) {level : Nat} {rest : List Char}
    (hrest : Ends rest) (hlevel : 4 * more.length + rest.length < level) (called : List Char) :
    readChain (rules level) (called ++ (more ++ rest)) (.call (called ++ (more ++ rest)) called)
      (more ++ rest) = .ok (.call (called ++ (more ++ rest)) (called ++ more), rest) := by
  induction h generalizing level called with
  | nil =>
    rw [List.nil_append, List.append_nil]
    exact readChain_ends _ _ _ hrest
  | @cons gap u more trivia arguments _ ih =>
    simp only [List.length_append, List.length_cons] at hlevel
    obtain ⟨k, rfl⟩ := exists_level (n := 1) (by omega : 1 ≤ level)
    have hmore := ih (by omega : 4 * more.length + rest.length < k) (called ++ (gap ++ '(' :: u))
    have hbetween : between (called ++ (gap ++ '(' :: (u ++ (more ++ rest)))) (more ++ rest) =
        called ++ (gap ++ '(' :: u) := by
      rw [← between_append (called ++ (gap ++ '(' :: u)) (more ++ rest)]
      simp only [List.append_assoc, List.cons_append]
    simp only [List.append_assoc, List.cons_append] at hmore ⊢
    rw [readChain_call _ _ trivia arguments
      (by simp only [List.length_append]; omega), hbetween]
    exact hmore

/-! ## The name of the function -/

/-- The name of the function that modules are asked for with. -/
def requireWord : List Char := ['r', 'e', 'q', 'u', 'i', 'r', 'e']

theorem name?_require (s : List Char) :
    name? (requireWord ++ '(' :: s) = some (requireWord, '(' :: s) := by
  have hends : EndsName ('(' :: s) := by
    intro c hc
    obtain rfl : '(' = c := Option.some.inj hc
    decide
  exact name?_append 'r' ['e', 'q', 'u', 'i', 'r', 'e'] (by decide) (by decide) hends

theorem exists_require (s : List Char) : ∃ tail, requireWord ++ '(' :: s = 'r' :: tail := ⟨_, rfl⟩

theorem primary_require (r : Rules) (s : List Char) : primary r (requireWord ++ '(' :: s) =
    .ok (.identifier (requireWord ++ '(' :: s) requireWord, '(' :: s) := by
  have hname := name?_require s
  have hskip : skip ('(' :: s) = '(' :: s := skip_solid (solid_cons (c := '(') (by decide) s)
  have hop : operator? ('(' :: s) = none := rfl
  have hsymbol : symbol? ['=', '>'] ('(' :: s) = none := by
    simp [symbol?, hskip, hop]
  have hnamed : named r (requireWord ++ '(' :: s) requireWord ('(' :: s) =
      .ok (.identifier (requireWord ++ '(' :: s) requireWord, '(' :: s) := by
    simp [named, hsymbol, requireWord]
  have hnumber : numberRest? (requireWord ++ '(' :: s) = none := rfl
  obtain ⟨tail, hcons⟩ := exists_require s
  rw [← hnamed]
  rw [hcons] at hname hnumber ⊢
  simp [primary, hnumber, hname]

theorem readOperand_require (r : Rules) (s : List Char) :
    readOperand r (requireWord ++ '(' :: s) = plainOperand r (requireWord ++ '(' :: s) := by
  have hname := name?_require s
  have hword : wordOperand? r (requireWord ++ '(' :: s) requireWord ('(' :: s) = none := by
    simp [wordOperand?, requireWord]
  obtain ⟨tail, hcons⟩ := exists_require s
  rw [hcons] at hname hword ⊢
  simp [readOperand, hname, hword]

theorem declaration?_require (r : Rules) (s : List Char) :
    declaration? r (requireWord ++ '(' :: s) = none := by
  have hname := name?_require s
  obtain ⟨tail, hcons⟩ := exists_require s
  rw [hcons] at hname ⊢
  simp [declaration?, hname, requireWord]

section Require

variable {u more : List Char} (arguments : ArgumentsText u) (applied : Applied more)
include arguments applied

theorem operand_require {level : Nat} {rest : List Char} (hrest : Ends rest)
    (hlevel : 4 * (u ++ more).length + rest.length < level) :
    (rules (level + 3)).operand (requireWord ++ '(' :: (u ++ (more ++ rest))) =
      .ok (.call (requireWord ++ '(' :: (u ++ (more ++ rest)))
        (requireWord ++ '(' :: (u ++ more)), rest) := by
  rw [List.length_append] at hlevel
  generalize hstart : requireWord ++ '(' :: (u ++ (more ++ rest)) = start
  have hbetween : between start (more ++ rest) = requireWord ++ '(' :: u := by
    rw [← between_append (requireWord ++ '(' :: u) (more ++ rest), ← hstart]
    simp only [List.append_assoc, List.cons_append]
  have hlength : 4 * u.length + (more ++ rest).length < level := by
    rw [List.length_append]
    omega
  have hfirst := readChain_call start (.identifier start requireWord) .nil arguments hlength
  have hmore := readChain_applied applied hrest (by omega : 4 * more.length + rest.length < level)
    (requireWord ++ '(' :: u)
  rw [hbetween] at hfirst
  simp only [List.append_assoc, List.cons_append, hstart, List.nil_append] at hfirst hmore
  have hchain : (rules (level + 2)).chain start (.identifier start requireWord)
      ('(' :: (u ++ (more ++ rest))) = .ok (.call start (requireWord ++ '(' :: (u ++ more)), rest) :=
    hfirst.trans hmore
  change readOperand (rules (level + 2)) start = _
  rw [← hstart, readOperand_require, plainOperand, primary_require, hstart]
  simp only [hchain, ok_bind]
  exact afterOperand_ends _ start _ hrest

/-- A call of `require`, applied further or not, is read as a call with its text. -/
theorem readableAs_require :
    ReadableAs (fun e => ∃ place, e = .call place (requireWord ++ '(' :: (u ++ more)))
      (requireWord ++ '(' :: (u ++ more)) := by
  have hstart (s : List Char) : StartsValue (requireWord ++ '(' :: s) :=
    ⟨'r', _, rfl, by decide, fun hsign => absurd hsign (by decide)⟩
  have hassoc (rest : List Char) : requireWord ++ '(' :: (u ++ more) ++ rest =
      requireWord ++ '(' :: (u ++ (more ++ rest)) := by
    simp only [List.append_assoc, List.cons_append]
  refine ⟨hstart _, fun r rest _ => ?_, @fun level gap rest hgap hrest hlevel => ?_⟩
  · rw [hassoc]
    exact declaration?_require r _
  · have hword : requireWord.length = 7 := rfl
    rw [List.length_append, List.length_cons, hword] at hlevel
    obtain ⟨k, rfl⟩ := exists_level (n := 4) (by omega : 4 ≤ level)
    rw [hassoc]
    exact ⟨_, expression_operand hgap (hstart _) hrest
      (operand_require arguments applied hrest (by omega)), _, rfl⟩

end Require

end CssBuild.Script
