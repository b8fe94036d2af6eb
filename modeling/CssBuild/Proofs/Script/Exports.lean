import CssBuild.Document
import CssBuild.Proofs.Decimal.Stepwise
import CssBuild.Proofs.Json.Distinct
import CssBuild.Proofs.Json.ReadBack
import CssBuild.Proofs.Script.Literals

/-!
# CssBuild.Proofs.Script.Exports

Modules that export a literal.

1. A module that assigns a literal to `module.exports`, or that has it as its
   default export, exports an expression that has the tree of the literal as its
   value (`readTree_exporting`, `readTree_defaulting`).
2. So the module that a tree is written as reads back as the tree
   (`ofScript_render`).
3. A JSON text is the same document as the module that exports it, as long as
   no integer is spelled as a negative zero and each double is rounded correctly
   (`ofScript_of_ofJson`).
4. Every spelling of a tree is read as the tree (`ofScript_literal`).
-/

namespace CssBuild.Script

open Json (IsBlanks Spells SpellsNearest WritesNumber)
open Rules hiding none

/-! ## The end of a statement -/

theorem skipSpaces_blanks {blanks : List Char} (h : IsBlanks blanks) :
    skipSpaces .blanks blanks = some [] := by
  induction blanks with
  | nil => rfl
  | cons c blanks ih =>
    have hmore := ih fun d hd => h d (List.mem_cons_of_mem _ hd)
    have hc := h c List.mem_cons_self
    simp only [Json.isBlank, Bool.or_eq_true, beq_iff_eq] at hc
    rcases hc with ((rfl | rfl) | rfl) | rfl <;> exact hmore

theorem endsHere_blanks {blanks : List Char} (h : IsBlanks blanks) : endsHere blanks = true := by
  induction blanks with
  | nil => rfl
  | cons c blanks ih =>
    have hspaces := skipSpaces_blanks fun d hd => h d (List.mem_cons_of_mem _ hd)
    have hmore := ih fun d hd => h d (List.mem_cons_of_mem _ hd)
    have hc := h c List.mem_cons_self
    simp only [Json.isBlank, Bool.or_eq_true, beq_iff_eq] at hc
    obtain ((rfl | rfl) | rfl) | rfl := hc
    · exact hmore
    · simp [endsHere, isNewline, hspaces, startsStatement]
    · exact hmore
    · exact hmore

/-- What stands after an exported value: blanks, which a semicolon may come before. -/
inductive EndsText : List Char → Prop where
  | blanks {s : List Char} (h : IsBlanks s) : EndsText s
  | semicolon {s : List Char} (h : IsBlanks s) : EndsText (';' :: s)

theorem EndsText.ends {s : List Char} (h : EndsText s) : Ends s := by
  cases h with
  | blanks h => exact ⟨s, [], trivia_of_isBlanks h, by simp, by simp [Closing]⟩
  | semicolon h => exact Ends.mark .nil (by decide) _

theorem EndsText.endStatement {s : List Char} (h : EndsText s) :
    ∃ blanks, IsBlanks blanks ∧ endStatement s = .ok blanks := by
  cases h with
  | blanks h => exact ⟨s, h, by simp [Script.endStatement, statementEnd?, endsHere_blanks h]⟩
  | @semicolon blanks h =>
    refine ⟨blanks, h, ?_⟩
    have hends : endsHere (';' :: blanks) = false := rfl
    have hdrop : (';' :: blanks).dropWhile isBlank = ';' :: blanks := rfl
    simp [Script.endStatement, statementEnd?, hends, hdrop]

theorem EndsText.skip {s : List Char} (h : EndsText s) (more : List Char) :
    skip s ≠ ',' :: more := by
  cases h with
  | blanks h =>
    have hskip := skip_trivia (trivia_of_isBlanks h) []
    rw [List.append_nil] at hskip
    rw [hskip]
    exact fun heq => nomatch heq
  | @semicolon blanks h =>
    rw [skip_solid (solid_cons (c := ';') (by decide) blanks)]
    simp

/-- Where nothing is skipped, an operand or a statement starts at once. -/
theorem operandStart_solid {s : List Char} (h : Solid s) (hmarkup : markupComment? s = none) :
    operandStart s = s := by
  have hgap := gap_trivia .nil h hmarkup
  rw [operandStart, ← List.nil_append s, hgap, List.nil_append]

/-! ## The assignment -/

/-- The name of the object that is assigned to. -/
def moduleWord : List Char := ['m', 'o', 'd', 'u', 'l', 'e']

/-- The name of its property. -/
def exportsWord : List Char := ['e', 'x', 'p', 'o', 'r', 't', 's']

/-- The part of an exporting module after its target. -/
def exportingEnd (body : List Char) : List Char := ' ' :: '=' :: ' ' :: body

/-- The part of an exporting module after its first word. -/
def exportingRest (body : List Char) : List Char := '.' :: (exportsWord ++ exportingEnd body)

/-- A text as a module that exports it. -/
def exporting (body : List Char) : List Char := moduleWord ++ exportingRest body

theorem exists_exporting (body : List Char) : ∃ tail, exporting body = 'm' :: tail := ⟨_, rfl⟩

theorem toList_exporting (text : String) :
    ("module.exports = " ++ text).toList = exporting text.toList := by
  simp [exporting, exportingRest, exportingEnd, moduleWord, exportsWord]

theorem toList_render (tree : Json) :
    (render tree).toList = exporting (tree.prettyChars 0 ++ [';', '\n']) := by
  have htext : render tree = "module.exports = " ++ (tree.pretty ++ ";\n") := by
    unfold render
    exact String.append_assoc
  have hbody : (tree.pretty ++ ";\n").toList = tree.prettyChars 0 ++ [';', '\n'] := by
    simp [Json.pretty]
  have hmodule := toList_exporting (tree.pretty ++ ";\n")
  rw [hbody, ← htext] at hmodule
  exact hmodule

theorem name?_module (body : List Char) :
    name? (exporting body) = some (moduleWord, exportingRest body) := by
  have hends : EndsName (exportingRest body) := by
    intro c hc
    obtain rfl : '.' = c := Option.some.inj hc
    decide
  exact name?_append 'm' ['o', 'd', 'u', 'l', 'e'] (by decide) (by decide) hends

theorem name?_exports (body : List Char) :
    name? (exportsWord ++ exportingEnd body) = some (exportsWord, exportingEnd body) := by
  have hends : EndsName (exportingEnd body) := by
    intro c hc
    obtain rfl : ' ' = c := Option.some.inj hc
    decide
  exact name?_append 'e' ['x', 'p', 'o', 'r', 't', 's'] (by decide) (by decide) hends

theorem operandStart_exporting (body : List Char) :
    operandStart (exporting body) = exporting body :=
  operandStart_solid (solid_cons (c := 'm') (by decide) _) rfl

theorem skip_exportingRest (body : List Char) : skip (exportingRest body) = exportingRest body :=
  skip_solid (solid_cons (c := '.') (by decide) _)

theorem skip_exportingEnd (body : List Char) :
    skip (exportingEnd body) = '=' :: ' ' :: body := by
  have hspace : Trivia [' '] := .blank rfl .nil
  exact skip_mark hspace (by decide) _

theorem operator?_assign (body : List Char) :
    operator? ('=' :: ' ' :: body) = some (['='], ' ' :: body) := rfl

theorem primary_module (r : Rules) (body : List Char) : primary r (exporting body) =
    .ok (.identifier (exporting body) moduleWord, exportingRest body) := by
  have hname := name?_module body
  have hop : operator? (exportingRest body) = some (['.'], exportsWord ++ exportingEnd body) := rfl
  have hsymbol : symbol? ['=', '>'] (exportingRest body) = none := by
    simp [symbol?, skip_exportingRest, hop]
  have hnamed : named r (exporting body) moduleWord (exportingRest body) =
      .ok (.identifier (exporting body) moduleWord, exportingRest body) := by
    simp [named, hsymbol, moduleWord]
  have hnumber : numberRest? (exporting body) = none := rfl
  obtain ⟨tail, hcons⟩ := exists_exporting body
  rw [← hnamed]
  rw [hcons] at hname hnumber ⊢
  simp [primary, hnumber, hname]

/-- The target of the assignment. -/
def exportsTarget (body : List Char) : Expr :=
  .property (exporting body) moduleWord exportsWord

theorem chain_module (level : Nat) (body : List Char) :
    (rules (level + 2)).chain (exporting body) (.identifier (exporting body) moduleWord)
      (exportingRest body) = .ok (exportsTarget body, exportingEnd body) := by
  have hbetween : between (exporting body) (exportingRest body) = moduleWord :=
    between_append moduleWord (exportingRest body)
  have hgap : operandStart (exportsWord ++ exportingEnd body) =
      exportsWord ++ exportingEnd body :=
    operandStart_solid (solid_cons (c := 'e') (by decide) _) rfl
  have hdot : dotName (exportsWord ++ exportingEnd body) =
      .ok (exportsWord, exportingEnd body) := by
    have hname := name?_exports body
    simp only [dotName, hgap]
    split
    · next heq => cases heq
    · rw [hname]
  have hstop : (rules (level + 1)).chain (exporting body) (exportsTarget body)
      (exportingEnd body) = .ok (exportsTarget body, exportingEnd body) := by
    have hsymbol : symbol? ['?', '.'] ('=' :: ' ' :: body) = none := by
      have hskip := skip_solid (solid_cons (c := '=') (by decide) (' ' :: body))
      simp [symbol?, hskip, operator?_assign]
    change readChain (rules level) (exporting body) (exportsTarget body) (exportingEnd body) = _
    simp [readChain, skip_exportingEnd, hsymbol]
  have hcons : exportingRest body = '.' :: (exportsWord ++ exportingEnd body) := rfl
  have hhead : (exportsWord ++ exportingEnd body).head? ≠ some '.' := by
    intro h
    cases h
  change readChain (rules (level + 1)) (exporting body)
    (.identifier (exporting body) moduleWord) (exportingRest body) = _
  simp only [readChain, skip_exportingRest]
  rw [hbetween]
  simp only [hcons, if_neg hhead, hdot, ok_bind]
  exact hstop

/-- The assignment of a text that is read as an expression. -/
theorem operand_exporting {level : Nat} {body rest : List Char} {e : Expr}
    (h : (rules (level + 2)).expression (' ' :: body) = .ok (e, rest)) :
    (rules (level + 3)).operand (exporting body) =
      .ok (.assignment (exporting body) (exportsTarget body) e, rest) := by
  have hname := name?_module body
  have hword : wordOperand? (rules (level + 2)) (exporting body)
      moduleWord (exportingRest body) = none := by
    simp [wordOperand?, moduleWord]
  have hplain : readOperand (rules (level + 2)) (exporting body) =
      plainOperand (rules (level + 2)) (exporting body) := by
    obtain ⟨tail, hcons⟩ := exists_exporting body
    rw [hcons] at hname hword ⊢
    simp [readOperand, hname, hword]
  change readOperand (rules (level + 2)) (exporting body) = _
  rw [hplain, plainOperand, primary_module]
  simp only [chain_module, ok_bind]
  simp [afterOperand, skip_exportingEnd, operator?_assign, exportsTarget, Expr.isTarget, h]

theorem expression_exporting {level : Nat} {body rest : List Char} {e : Expr}
    (h : (rules (level + 2)).expression (' ' :: body) = .ok (e, rest)) (hrest : EndsText rest) :
    (rules (level + 4)).expression (exporting body) =
      .ok (.assignment (exporting body) (exportsTarget body) e, rest) := by
  have hstart := operandStart_exporting body
  have hoperand := operand_exporting h
  have hbinary : (rules (level + 3)).binary (exporting body)
      (.assignment (exporting body) (exportsTarget body) e) rest =
      .ok (.assignment (exporting body) (exportsTarget body) e, rest) :=
    readBinary_ends (rules (level + 2)) _ _ hrest.ends
  obtain ⟨tail, hcons⟩ := exists_exporting body
  change readExpression (rules (level + 3)) (exporting body) = _
  rw [readExpression, hstart]
  rw [hcons] at hoperand hbinary ⊢
  simp [hoperand, hbinary]

/-- The assignment stands alone in its statement, which ends the module. -/
theorem expressionStatement_exporting {level : Nat} {body rest : List Char} {e : Expr}
    (h : (rules (level + 2)).expression (' ' :: body) = .ok (e, rest)) (hrest : EndsText rest) :
    ∃ blanks, IsBlanks blanks ∧
      expressionStatement (rules (level + 5)) (exporting body) =
        .ok (.expression (.assignment (exporting body) (exportsTarget body) e), blanks) := by
  obtain ⟨blanks, hblanks, hend⟩ := hrest.endStatement
  have hsequence : (rules (level + 5)).sequence (exporting body) =
      .ok (.assignment (exporting body) (exportsTarget body) e, rest) := by
    change readSequence (rules (level + 4)) (exporting body) = _
    simp only [readSequence, expression_exporting h hrest, ok_bind]
    split
    · next more heq => exact absurd heq (hrest.skip more)
    · rfl
  refine ⟨blanks, hblanks, ?_⟩
  obtain ⟨tail, hcons⟩ := exists_exporting body
  rw [hcons] at hsequence ⊢
  simp [expressionStatement, hsequence, hend]

theorem statement_exporting {level : Nat} {body rest : List Char} {e : Expr}
    (h : (rules (level + 2)).expression (' ' :: body) = .ok (e, rest)) (hrest : EndsText rest) :
    ∃ blanks, IsBlanks blanks ∧ (rules (level + 6)).statement (exporting body) =
      .ok (.expression (.assignment (exporting body) (exportsTarget body) e), blanks) := by
  obtain ⟨blanks, hblanks, hexpression⟩ := expressionStatement_exporting h hrest
  refine ⟨blanks, hblanks, ?_⟩
  have hname := name?_module body
  have hstart := operandStart_exporting body
  have hafter : operandStart (exportingRest body) = exportingRest body :=
    operandStart_solid (solid_cons (c := '.') (by decide) _) rfl
  have hdeclaration : declaration? (rules (level + 5)) (exporting body) = none := by
    simp [declaration?, hname, moduleWord]
  have hkeyword : keywordStatement? (rules (level + 5)) moduleWord
      (exportingRest body) = none := by
    simp [keywordStatement?, moduleWord]
  have hplain : plainStatement (rules (level + 5)) (exporting body) moduleWord
      (exportingRest body) = expressionStatement (rules (level + 5)) (exporting body) := by
    obtain ⟨tail, hcons⟩ : ∃ tail, exportingRest body = '.' :: tail := ⟨_, rfl⟩
    rw [hcons] at hafter ⊢
    simp [plainStatement, hafter, hdeclaration, moduleWord]
  change readStatement (rules (level + 5)) (exporting body) = _
  rw [← hexpression, ← hplain]
  obtain ⟨tail, hcons⟩ := exists_exporting body
  rw [hcons] at hstart hname ⊢
  simp [readStatement, hstart, hname, hkeyword]

/-! ## The default export -/

/-- The first word of a default export. -/
def exportWord : List Char := ['e', 'x', 'p', 'o', 'r', 't']

/-- The second word of a default export. -/
def defaultWord : List Char := ['d', 'e', 'f', 'a', 'u', 'l', 't']

/-- The part of a default export after its first word. -/
def defaultingRest (body : List Char) : List Char := ' ' :: (defaultWord ++ ' ' :: body)

/-- A text as a module that has it as its default export. -/
def defaulting (body : List Char) : List Char := exportWord ++ defaultingRest body

theorem toList_defaulting (text : String) :
    ("export default " ++ text).toList = defaulting text.toList := by
  simp [defaulting, defaultingRest, exportWord, defaultWord]

theorem endsName_space (s : List Char) : EndsName (' ' :: s) := by
  intro c hc
  obtain rfl : ' ' = c := Option.some.inj hc
  decide

theorem operandStart_defaulting (body : List Char) :
    operandStart (defaulting body) = defaulting body :=
  operandStart_solid (solid_cons (c := 'e') (by decide) _) rfl

/-- The default export of a text that is read as an expression and declares nothing. -/
theorem statement_defaulting {level : Nat} {body rest : List Char} {e : Expr}
    (hdeclaration : declaration? (rules level) (operandStart (' ' :: body)) = none)
    (h : (rules level).expression (' ' :: body) = .ok (e, rest)) (hrest : EndsText rest) :
    ∃ blanks, IsBlanks blanks ∧
      (rules (level + 1)).statement (defaulting body) = .ok (.exportDefault e, blanks) := by
  obtain ⟨blanks, hblanks, hend⟩ := hrest.endStatement
  refine ⟨blanks, hblanks, ?_⟩
  have hname : name? (defaulting body) = some (exportWord, defaultingRest body) :=
    name?_append 'e' ['x', 'p', 'o', 'r', 't'] (by decide) (by decide) (endsName_space _)
  have hstart := operandStart_defaulting body
  have hafter : operandStart (defaultingRest body) = defaultWord ++ ' ' :: body := by
    have hspace : Trivia [' '] := .blank rfl .nil
    exact congrArg Prod.snd (gap_trivia hspace (solid_cons (c := 'd') (by decide) _) rfl)
  have hdefault : keyword? defaultWord (defaultWord ++ ' ' :: body) = some (' ' :: body) := by
    have hword : name? (defaultWord ++ ' ' :: body) = some (defaultWord, ' ' :: body) :=
      name?_append 'd' ['e', 'f', 'a', 'u', 'l', 't'] (by decide) (by decide) (endsName_space _)
    simp only [keyword?, hword, if_true]
  have hexported : exportDefault (rules level) (' ' :: body) = .ok (.exportDefault e, blanks) := by
    simp only [exportDefault, hdeclaration, h, hend, ok_bind]
  have hexport : exportRest (rules level) (defaultingRest body) =
      .ok (.exportDefault e, blanks) := by
    obtain ⟨tail, hcons⟩ : ∃ tail, defaultWord ++ ' ' :: body = 'd' :: tail := ⟨_, rfl⟩
    rw [hcons] at hafter hdefault
    rw [defaultWord] at hdefault
    simp [exportRest, hafter, hdefault, hexported]
  have hkeyword : keywordStatement? (rules level) exportWord (defaultingRest body) = none := by
    simp [keywordStatement?, exportWord]
  have hplain : plainStatement (rules level) (defaulting body) exportWord (defaultingRest body) =
      .ok (.exportDefault e, blanks) := by
    obtain ⟨tail, hcons⟩ : ∃ tail, defaultWord ++ ' ' :: body = 'd' :: tail := ⟨_, rfl⟩
    rw [hcons] at hafter
    simp [plainStatement, hafter, hexport, exportWord]
  change readStatement (rules level) (defaulting body) = _
  obtain ⟨tail, hcons⟩ : ∃ tail, defaulting body = 'e' :: tail := ⟨_, rfl⟩
  rw [hcons] at hstart hname hplain ⊢
  simp [readStatement, hstart, hname, hkeyword, hplain]

/-! ## Modules -/

/-- A module with one statement, up to its end, has the value of what the statement exports. -/
theorem readTree_statement {c : Char} {s blanks : List Char} {statement : Statement} {e : Expr}
    (hc : c ≠ '#') (hstart : operandStart (c :: s) = c :: s)
    (hstatement : (rules (levelsFor (c :: s))).statement (c :: s) = .ok (statement, blanks))
    (hblanks : IsBlanks blanks) (hexported : statement.exported? = some e) :
    readTree (c :: s) = e.value "" := by
  have hend : operandStart blanks = [] := by
    have hgap := gap_trivia (trivia_of_isBlanks hblanks) (s := []) (by simp [Solid]) rfl
    rw [operandStart, ← List.append_nil blanks, hgap]
  have hfirst : afterHashBang (c :: s) = c :: s := by
    unfold afterHashBang
    split
    · next heq => exact absurd (List.cons.inj heq).1 hc
    · rfl
  have hmore : readProgram (rules (levelsFor (c :: s))) (c :: s).length blanks = .ok [] := by
    simp [readProgram, hend]
  have hmodule : readModule (c :: s) = .ok [statement] := by
    simp only [readModule, hfirst, readProgram, hstart, hstatement, hmore, ok_bind]
  have hexports : exported? [statement] = some e := by
    simp [exported?, hexported]
  simp only [readTree, hmodule, hexports, ok_bind]

section Readable

variable {kind : Expr → Prop} {gap u rest : List Char} (h : ReadableAs kind u) (hgap : Trivia gap)
  (hrest : EndsText rest)
include h hgap hrest

/-- A module that exports a text has the value of the expression that the text is read as. -/
theorem exists_value_exporting :
    ∃ e, kind e ∧ readTree (exporting (gap ++ (u ++ rest))) = e.value "" := by
  obtain ⟨level, hlevels, hlevel⟩ : ∃ level,
      levelsFor (exporting (gap ++ (u ++ rest))) = level + 6 ∧
        4 * u.length + rest.length < level + 2 := by
    refine ⟨8 * (exporting (gap ++ (u ++ rest))).length + 10, rfl, ?_⟩
    simp only [exporting, exportingRest, exportingEnd, List.length_append, List.length_cons]
    omega
  obtain ⟨e, hread, he⟩ := h.reads (.blank (c := ' ') rfl hgap) hrest.ends hlevel
  obtain ⟨blanks, hblanks, hstatement⟩ := statement_exporting hread hrest
  rw [← hlevels] at hstatement
  exact ⟨e, he, readTree_statement (by decide) (operandStart_exporting _) hstatement hblanks rfl⟩

/-- A module with a text as its default export has the value of the expression that the text is
read as. -/
theorem exists_value_defaulting :
    ∃ e, kind e ∧ readTree (defaulting (gap ++ (u ++ rest))) = e.value "" := by
  obtain ⟨level, hlevels, hlevel⟩ : ∃ level,
      levelsFor (defaulting (gap ++ (u ++ rest))) = level + 1 ∧
        4 * u.length + rest.length < level := by
    refine ⟨8 * (defaulting (gap ++ (u ++ rest))).length + 15, rfl, ?_⟩
    simp only [defaulting, defaultingRest, List.length_append, List.length_cons]
    omega
  obtain ⟨e, hread, he⟩ := h.reads (.blank (c := ' ') rfl hgap) hrest.ends hlevel
  have hdeclaration : declaration? (rules level) (operandStart (' ' :: (gap ++ (u ++ rest)))) =
      none := by
    have hskipped := gap_value (.blank (c := ' ') rfl hgap) (h.starts.append rest)
    rw [operandStart, ← List.cons_append, hskipped]
    exact h.declaration? (rules level) hrest.ends
  obtain ⟨blanks, hblanks, hstatement⟩ := statement_defaulting hdeclaration hread hrest
  rw [← hlevels] at hstatement
  exact ⟨e, he, readTree_statement (by decide) (operandStart_defaulting _) hstatement hblanks rfl⟩

end Readable

section Modules

variable {tree : Json} {gap u rest : List Char} (h : LiteralText tree u) (hgap : Trivia gap)
  (hrest : EndsText rest)
include h hgap hrest

/-- A module that exports a text which spells a tree has the tree as its value. -/
theorem readTree_exporting : readTree (exporting (gap ++ (u ++ rest))) = .ok tree := by
  obtain ⟨e, hvalue, hread⟩ := exists_value_exporting (readable_literal h) hgap hrest
  exact hread.trans (hvalue "")

/-- A module with a text which spells a tree as its default export has the tree as its value. -/
theorem readTree_defaulting : readTree (defaulting (gap ++ (u ++ rest))) = .ok tree := by
  obtain ⟨e, hvalue, hread⟩ := exists_value_defaulting (readable_literal h) hgap hrest
  exact hread.trans (hvalue "")

end Modules

/-- A module that exports what spells a tree in JSON has the tree as its value. -/
theorem readTree_spells {tree : Json} {blanks u rest : List Char}
    (h : Spells SpellsNearest tree u) (hblanks : IsBlanks blanks) (hrest : EndsText rest) :
    readTree (exporting (blanks ++ (u ++ rest))) = .ok tree :=
  readTree_exporting (literal_of_spells tree u h) (trivia_of_isBlanks hblanks) hrest

/-- A module that exports the indented text of a tree has the tree as its value. -/
theorem readTree_prettyChars (tree : Json) {rest : List Char} (hrest : EndsText rest) :
    readTree (exporting (tree.prettyChars 0 ++ rest)) = .ok tree := by
  have hspells : Spells SpellsNearest tree (tree.prettyChars 0) :=
    (Json.spells_prettyChars tree 0).imp WritesNumber.isNumeral fun _ _ _ _ h => h.spellsNearest
  have hread := readTree_spells hspells Json.isBlanks_nil hrest
  rwa [List.nil_append] at hread

end CssBuild.Script

namespace CssBuild.Document

open Json (SpellsNearest SpellsNumber)
open Script

/-- The module that a tree is written as reads back as the tree, with no key repeated. -/
theorem ofScript_render {tree : Json} (distinct : tree.Distinct) (source? : Option Path) :
    ofScript (Script.render tree) source? = .ok ⟨tree, []⟩ := by
  have hend : Script.EndsText [';', '\n'] :=
    .semicolon (s := ['\n']) (by simp [Json.IsBlanks, Json.isBlank])
  have hread := Script.readTree_prettyChars tree hend
  simp only [ofScript, Script.toList_render, hread, ofTree_of_distinct distinct]

/-- A tree with a negative zero, the least integer, an empty key and a character to escape. -/
theorem ofScript_render_corners :
    let tree : Json := .object [("", .array [.number (.double (Double.zero true)),
      .number (.integer (-0x8000000000000000) (by decide))]), ("\x01", .object [])]
    ofScript (Script.render tree) none = .ok ⟨tree, []⟩ := by
  intro tree
  have distinct : tree.Distinct := by
    simp [tree, Json.Distinct, Json.DistinctEntries, Json.DistinctItems, Entries.keys]
  exact ofScript_render distinct none

/-- A JSON text without an integer that is spelled as a negative zero, each of whose numerals is
rounded correctly, is the same document as the module that exports it. -/
theorem ofScript_of_ofJson {text : String} {source? source'? : Option Path} {document : Document}
    (h : ofJson text source? = .ok document) (hzero : ['-', '0'] ∉ Json.numerals text.toList)
    (hround : ∀ t ∈ Json.numerals text.toList, Json.RoundedCorrectly t) :
    ofScript ("module.exports = " ++ text) source'? = .ok document := by
  unfold ofJson at h
  split at h
  · next tree hread =>
    obtain rfl := Except.ok.inj h
    have hspells : Json.SpellsText SpellsNearest tree text.toList :=
      (Json.spellsText_of_readChars hread).imp SpellsNumber.isNumeral fun n _ t ht hn =>
        ⟨(hround t ht n).1 hn, fun heq => hzero (heq ▸ ht)⟩
    obtain ⟨before, body, after, hbefore, hbody, hafter, htext⟩ := hspells
    have hmodule := Script.readTree_spells hbody hbefore (.blanks hafter)
    have hexporting : ("module.exports = " ++ text).toList =
        exporting (before ++ (body ++ after)) := by
      rw [Script.toList_exporting, htext, List.append_assoc]
    simp only [ofScript, hexporting, hmodule]
  · cases h

/-- A text with a double and with a key that is repeated. -/
theorem ofScript_of_ofJson_repeated :
    let text := "\x7b\"a\": 1, \"b\": -2.5, \"a\": [true]\x7d"
    ∃ document, ofJson text none = .ok document ∧ document.duplicates = ["a"] ∧
      ofScript ("module.exports = " ++ text) none = .ok document := by
  intro text
  have hread : (ofJson text none).toOption.map duplicates = some ["a"] := by decide +kernel
  have hnumerals : Json.numerals text.toList = [['1'], ['-', '2', '.', '5']] := by decide +kernel
  have hround : ∀ t ∈ Json.numerals text.toList, Json.RoundedCorrectly t := by
    intro t ht
    simp only [hnumerals, List.mem_cons, List.not_mem_nil, or_false] at ht
    rcases ht with rfl | rfl <;> exact Json.roundedCorrectly_of_length (by decide) (by decide)
  cases h : ofJson text none with
  | error e =>
    rw [h] at hread
    cases hread
  | ok document =>
    rw [h] at hread
    exact ⟨document, rfl, Option.some.inj hread,
      ofScript_of_ofJson h (by rw [hnumerals]; decide) hround⟩

/-- Every spelling of a tree that repeats no key is read as the tree, with no key repeated,
whichever way it is exported. -/
theorem ofScript_literal {tree : Json} (distinct : tree.Distinct) {gap text rest : List Char}
    (trivia : Trivia gap) (literal : LiteralText tree text) (ends : EndsText rest)
    (source? : Option Path) :
    ofScript ("module.exports = " ++ String.ofList (gap ++ (text ++ rest))) source? =
        .ok ⟨tree, []⟩ ∧
      ofScript ("export default " ++ String.ofList (gap ++ (text ++ rest))) source? =
        .ok ⟨tree, []⟩ := by
  have hexporting := Script.readTree_exporting literal trivia ends
  have hdefaulting := Script.readTree_defaulting literal trivia ends
  constructor
  · simp only [ofScript, Script.toList_exporting, String.toList_ofList, hexporting,
      ofTree_of_distinct distinct]
  · simp only [ofScript, Script.toList_defaulting, String.toList_ofList, hdefaulting,
      ofTree_of_distinct distinct]

/-- An object in parentheses, with comments, names and strings as keys, and commas at its end. -/
theorem ofScript_literal_nested :
    let tree : Json := .object [("k", .array [.null, .number (.integer (-31) (by decide)),
      .string "a)😀"]), ("q", .bool true)]
    ofScript ("export default " ++ "/* c */(\x7bk: [undefined, - 0x1_F, " ++
      "\x60a\\x29\\uD83D\\uDE00\x60,], 'q' :true // d\n\x7d);\n") none = .ok ⟨tree, []⟩ := by
  intro tree
  have distinct : tree.Distinct := by
    simp [tree, Json.Distinct, Json.DistinctEntries, Json.DistinctItems, Entries.keys]
  have hspace : Trivia [' '] := .blank rfl .nil
  have hinteger : IntegerText 31 ['0', 'x', '1', '_', 'F'] := by
    have hvalue : numberOf 16 (withoutMarks ['1', '_', 'F']) = 31 := by decide
    rw [← hvalue]
    exact .radix (by decide) (.apart (by decide) (.single (by decide)))
  have hnumber : NumberText (.integer (-31) (by decide)) _ :=
    .integer (.minus hspace hinteger) (by decide)
  have hescapes : Writes '\x60' _ _ :=
    .escape (.byte (a := '2') (b := '9') (by decide))
      (.escape (.unit (a := 'D') (b := '8') (c := '3') (d := 'D') (by decide))
        (.escape (.unit (a := 'D') (b := 'E') (c := '0') (d := '0') (by decide)) .nil))
  have hstring : QuotedText quotes "a)😀" _ :=
    ⟨'\x60', by decide, _, _, .raw (c := 'a') (by simp [Raw]) hescapes, by simp,
      .raw (.number (by decide) (.pair (by decide) (by decide) (by decide) .nil)), rfl⟩
  have hitems : ListText ']' LiteralText _ _ :=
    .more .nil .undefined .nil (.more hspace (.number hnumber) .nil
      (.more hspace (.string hstring) .nil (.close .nil)))
  have hfirst : MemberText LiteralText ("k", _) _ :=
    .mk (.name (c := 'k') rfl (by simp)) .nil hspace (.array hitems)
  have hsecond : MemberText LiteralText ("q", _) _ :=
    .mk (.string ⟨'\'', by decide, [.raw 'q'], _, .raw (by simp [Raw]) .nil, by simp, .raw .nil,
      rfl⟩) hspace .nil (.bool true)
  have hcomment : Trivia (' ' :: '/' :: '/' :: ([' ', 'd'] ++ ['\n'])) :=
    .blank rfl (.line (by simp) (by decide) rfl .nil)
  have hliteral : LiteralText tree _ :=
    .parens .nil (.object (.more .nil hfirst .nil (.last hspace hsecond hcomment))) .nil
  have hgap : Trivia ('/' :: '*' :: ([' ', 'c', ' '] ++ ['*', '/'])) :=
    .block (by simp) (by decide) .nil
  have hends : EndsText [';', '\n'] :=
    .semicolon (s := ['\n']) (by simp [Json.IsBlanks, Json.isBlank])
  exact (ofScript_literal distinct hgap hliteral hends none).2

/-- What no literal may have: an escape for a line end between the halves of a pair, `\?` before a
line end, digits behind a zero, or a null character. -/
theorem ofScript_literal_except :
    Writes '\'' [.number 0xD83D, .nothing, .number 0xDE00] "\\uD83D\\\n\\uDE00".toList ∧
      (∀ document, ofScript "module.exports = '\\uD83D\\\n\\uDE00'" none ≠ .ok document) ∧
      ofScript "module.exports = \x60\\?\n\x60" none = .ok ⟨.string "?", []⟩ ∧
      ofScript "module.exports = 017" none = .ok ⟨.number (.integer 17 (by decide)), []⟩ ∧
      ∀ document, ofScript "module.exports = \x60\x00\x60" none ≠ .ok document := by
  have hfails {text : String} (h : (ofScript text none).toBool = false) (document : Document) :
      ofScript text none ≠ .ok document := by
    intro heq
    rw [heq] at h
    cases h
  refine ⟨?_, hfails (by decide +kernel), ?_, ?_, hfails (by decide +kernel)⟩
  · exact .escape (.unit (a := 'D') (b := '8') (c := '3') (d := 'D') (by decide))
      (.escape (.lineEnd (c := '\n') (by decide) (by decide))
        (.escape (.unit (a := 'D') (b := 'E') (c := '0') (d := '0') (by decide)) .nil))
  · have hread : readTree "module.exports = \x60\\?\n\x60".toList = .ok (.string "?") := rfl
    rw [ofScript, hread]
    rfl
  · have hread : readTree "module.exports = 017".toList =
        .ok (.number (.integer 17 (by decide))) := rfl
    rw [ofScript, hread]
    rfl

end CssBuild.Document
