import CssBuild.Config.Format
import CssBuild.Proofs.Config.Validity
import CssBuild.Proofs.Json.Distinct
import CssBuild.Proofs.Script.Calls
import CssBuild.Proofs.Script.Requires
import CssBuild.Proofs.Spans
import Mathlib.Data.List.DropRight

/-!
# CssBuild.Proofs.Config.PluginNames

The names of plugins that a module asks for by a call of `require`.

1. The argument of the call is taken up to the first closing parenthesis. So
   the module between the quotes is named as long as it has none, and with one
   nothing is named (`nameOfText?_requireText`).
2. A call of `require` is read with its text, and in an otherwise valid
   configuration it is a plugin at its position (`readText_requires`).
-/

namespace CssBuild

open Text (dropPrefix? trim trimStart trimEnd)

namespace Plugin

/-! ## The name in a text -/

/-- A call of `require` with a quoted module, and what it is applied to further. -/
def requireText (quote : Char) (name more : List Char) : List Char :=
  callStart ++ quote :: (name ++ quote :: ')' :: more)

theorem dropPrefix?_append (start s : List Char) : dropPrefix? start (start ++ s) = some s := by
  have hprefix : start.isPrefixOf (start ++ s) = true :=
    List.isPrefixOf_iff_prefix.2 (List.prefix_append start s)
  rw [dropPrefix?, if_pos hprefix, List.drop_left]

theorem not_isBlank_of_isQuote {c : Char} (h : isQuote c = true) : Text.isBlank c = false := by
  simp only [isQuote, Bool.or_eq_true, beq_iff_eq] at h
  obtain rfl | rfl := h <;> decide

/-- Trimming leaves a quoted text as it is. -/
theorem trim_quoted {quote : Char} (isQuote : isQuote quote = true) (name : List Char) :
    trim (quote :: (name ++ [quote])) = quote :: (name ++ [quote]) := by
  have hstop (s : List Char) : (quote :: s).dropWhile Text.isBlank = quote :: s :=
    dropWhile_stop (stops_cons (not_isBlank_of_isQuote isQuote))
  have hreverse : (quote :: (name ++ [quote])).reverse = quote :: (name.reverse ++ [quote]) := by
    simp
  rw [trim, trimStart, hstop, trimEnd, hreverse, hstop]
  simp

theorem unquoted?_quoted {quote : Char} (isQuote : isQuote quote = true) (name : List Char) :
    unquoted? (quote :: (name ++ [quote])) = some name := by
  simp [unquoted?, isQuote]

/-- A text with a quote only at its start is not quoted, trimmed or not. -/
theorem unquoted?_trim_eq_none {quote : Char} (isQuote : isQuote quote = true) {rest : List Char}
    (unquoted : ∀ c ∈ rest, Plugin.isQuote c = false) : unquoted? (trim (quote :: rest)) = none := by
  have hstart : trimStart (quote :: rest) = quote :: rest :=
    dropWhile_stop (stops_cons (not_isBlank_of_isQuote isQuote))
  have hprefix : trimEnd (quote :: rest) <+: quote :: rest :=
    List.rdropWhile_prefix Text.isBlank (quote :: rest)
  rw [trim, hstart]
  cases htrimmed : trimEnd (quote :: rest) with
  | nil => rfl
  | cons c kept =>
    rw [htrimmed, List.cons_prefix_cons] at hprefix
    obtain ⟨rfl, hkept⟩ := hprefix
    rw [unquoted?, if_pos isQuote]
    split
    · next last hlast =>
      rw [unquoted last (hkept.subset (List.mem_of_getLast? hlast)), if_neg Bool.false_ne_true]
    · rfl

/-- The module of a call of `require` is named unless it has a closing parenthesis. -/
theorem nameOfText?_requireText {quote : Char} (isQuote : isQuote quote = true)
    {name : List Char} (unquoted : ∀ c ∈ name, Plugin.isQuote c = false) (more : List Char) :
    nameOfText? (requireText quote name more) = if ')' ∈ name then none else some name := by
  have hopens : (quote != ')') = true := by
    rw [bne_iff_ne]
    rintro rfl
    exact absurd isQuote (by decide)
  have htakes {run : List Char} (hrun : ')' ∉ run) (s : List Char) :
      (quote :: (run ++ ')' :: s)).takeWhile (· != ')') = quote :: run := by
    have hall : ∀ c ∈ quote :: run, (c != ')') = true := by
      refine List.forall_mem_cons.2 ⟨hopens, fun c hc => bne_iff_ne.2 ?_⟩
      rintro rfl
      exact hrun hc
    exact takeWhile_run hall (stops_cons rfl)
  simp only [nameOfText?, requireText, dropPrefix?_append]
  split
  · next hcloses =>
    obtain ⟨before, after, rfl, hbefore⟩ := List.eq_append_cons_of_mem hcloses
    rw [List.append_assoc, List.cons_append, htakes hbefore]
    exact unquoted?_trim_eq_none isQuote fun c hc => unquoted c (List.mem_append_left _ hc)
  · next hopen =>
    have hrun : ')' ∉ name ++ [quote] := by
      rw [List.mem_append, List.mem_singleton, not_or]
      exact ⟨hopen, fun heq => absurd (heq ▸ isQuote) (by decide)⟩
    have hquoted := htakes hrun more
    rw [List.append_assoc, List.cons_append, List.nil_append] at hquoted
    rw [hquoted, trim_quoted isQuote, unquoted?_quoted isQuote]

end Plugin

/-! ## Calls with their text -/

namespace Script

open Plugin (requireText)

/-- A call of `require` is read with its text, applied further or not. -/
theorem readableAs_requireText {quote : Char} (isQuote : Plugin.isQuote quote = true)
    {name : List Char} (unquoted : ∀ c ∈ name, Plugin.isQuote c = false)
    (plain : ∀ c ∈ name, c ∉ ['\\', '\n', '\r', '\x00']) {more : List Char} (applied : Applied more) :
    ReadableAs (fun e => ∃ place, e = .call place (requireText quote name more))
      (requireText quote name more) := by
  have hmark : quote ∈ stringMarks := by
    simp only [Plugin.isQuote, Bool.or_eq_true, beq_iff_eq] at isQuote
    obtain rfl | rfl := isQuote <;> decide
  have hall : ∀ c ∈ name, isStringChar quote c = true := by
    intro c hc
    have hplain := plain c hc
    have hne : c ≠ quote := by
      rintro rfl
      exact absurd ((unquoted c hc).symm.trans isQuote) Bool.false_ne_true
    simp only [List.mem_cons, List.not_mem_nil, or_false, not_or] at hplain
    simp [isStringChar, hne, hplain]
  have harguments : ArgumentsText ([] ++ (quote :: (name ++ [quote]) ++ ([] ++ [')']))) :=
    argumentsText_list (.last .nil (readableAs_plain hall hmark) .nil)
  have hread := readableAs_require harguments applied
  simp only [List.nil_append, List.cons_append, List.append_assoc] at hread
  exact hread

end Script

/-! ## Plugins of a module -/

open Script
open Plugin (requireText)

/-- The plugins of a configuration are those that its tree has, in their order. -/
theorem Schema.plugins_of_describes {entries : List (String × Json)} {items : List Json}
    {config : Config} (distinct : (Json.object entries).Distinct)
    (h : Describes (.object entries) config) (plugins : ("plugins", .array items) ∈ entries) :
    config.plugins = items := by
  obtain ⟨root, heq, -, -, -, -, -, hplugins⟩ := h
  obtain rfl := Json.object.inj heq
  rw [Json.Distinct] at distinct
  obtain ⟨habsent, -⟩ | ⟨tree, htree, rfl⟩ := hplugins
  · exact absurd (Entries.mem_keys_of_mem plugins) habsent
  · exact Json.array.inj (Entries.value_unique distinct.1 htree plugins)

/-- A module that requires a plugin is loaded, if it is otherwise valid, with the call as a plugin
at its position, and the plugin is named by the module between the quotes unless that has a closing
parenthesis in it. The call is read with its text wherever an expression can stand. -/
theorem Config.readText_requires {text : String} {statements : List Statement} {value : Expr}
    {tree : Json} {options : LoadOptions} (module : readModule text.toList = .ok statements)
    (exports : exported? statements = some value) (writes : value.Writes tree)
    (distinct : tree.Distinct)
    (calls : ∀ steps, value.CallAt steps → InPlugins steps ∨ Disguised steps)
    (conforms : Schema.Conforms options.unknownKeys tree) {quote : Char}
    (isQuote : Plugin.isQuote quote = true) {name more : List Char}
    (unquoted : ∀ c ∈ name, Plugin.isQuote c = false) {key : Key} {i : Nat} {place : List Char}
    (isPlugins : key.value = .ok Script.plugins)
    (holds : (Expr.call place (requireText quote name more)).Holds [.member key, .item i] value)
    (source? : Option Path) :
    (∃ config warnings, readText .script text source? options = .ok ⟨config, warnings⟩ ∧
      ∃ plugin, config.plugins[i]? = some plugin ∧
        plugin = .string (String.ofList (requireText quote name more)) ∧
        Plugin.name? plugin = if ')' ∈ name then none else some (String.ofList name)) ∧
    ((∀ c ∈ name, c ∉ ['\\', '\n', '\r', '\x00']) → Applied more →
      ReadableAs (fun e => ∃ place, e = .call place (requireText quote name more))
        (requireText quote name more)) := by
  refine ⟨?_, fun plain applied => readableAs_requireText isQuote unquoted plain applied⟩
  have hread : readTree text.toList = .ok tree := by
    rw [readTree, module, ok_bind, exports]
    exact value_root_eq_ok.2 ⟨writes, calls⟩
  have hdocument : Document.ofScript text source? = .ok ⟨tree, []⟩ := by
    simp only [Document.ofScript, hread, Document.ofTree_of_distinct distinct]
  have wellFormed : Document.WellFormed ⟨tree, []⟩ := distinct
  obtain ⟨config, warnings, -, hcheck, hdescribes⟩ :=
    Schema.check_of_conforms wellFormed rfl conforms
  refine ⟨config, warnings, ?_, _, ?_, rfl, ?_⟩
  · rw [readText, Format.read, hdocument, ok_bind, hcheck]
  · obtain ⟨_, ⟨⟩, entries, name', _, rfl, hname, hentry, items, _, rfl, hitem, rfl⟩ :=
      holds.exists_writes writes
    obtain rfl := Except.ok.inj (hname.symm.trans isPlugins)
    rw [Schema.plugins_of_describes distinct hdescribes hentry, hitem]
  · simp only [Plugin.name?, Json.text?, Option.bind_some, String.toList_ofList,
      Plugin.nameOfText?_requireText isQuote unquoted]
    split <;> rfl

/-- A module with a closing parenthesis in it, and one without that is applied further. -/
theorem Config.readText_requires_parenthesis :
    ∃ config warnings, readText .script ("module.exports = \x7bcontent: \x7bfiles: ['a']\x7d, " ++
        "plugins: [require('a)b'), require('c')(1)]\x7d;") none ⟨.refuse, true⟩ =
          .ok ⟨config, warnings⟩ ∧
      (∃ first, config.plugins[0]? = some first ∧ Plugin.name? first = none) ∧
      ∃ second, config.plugins[1]? = some second ∧ Plugin.name? second = some "c" := by
  obtain ⟨statements, value, start, content, files, file, array, first, second, hvalue, module,
      exports⟩ : ∃ statements value start content files file array first second,
        value = .object start
          [.pair (.name "content".toList) (.object content
            [.pair (.name "files".toList) (.array files
              [.string file [.fragment file.tail ['a']]])]),
            .pair (.name "plugins".toList) (.array array
              [.call first (requireText '\'' ['a', ')', 'b'] []),
                .call second (requireText '\'' ['c'] ['(', '1', ')'])])] ∧
        readModule ("module.exports = \x7bcontent: \x7bfiles: ['a']\x7d, " ++
          "plugins: [require('a)b'), require('c')(1)]\x7d;").toList = .ok statements ∧
        exported? statements = some value :=
    ⟨_, _, _, _, _, _, _, _, _, rfl, rfl, rfl⟩
  have writes : value.Writes (.object [("content", .object [("files", .strings ["a"])]),
      ("plugins", .array [.string "require('a)b')", .string "require('c')(1)"])]) := by
    rw [hvalue]
    exact .object (.cons rfl (.object (.cons rfl (.array (.cons (.string rfl) .nil)) .nil))
      (.cons rfl (.array (.cons (.call _ _) (.cons (.call _ _) .nil))) .nil))
  have distinct : Json.Distinct (.object [("content", .object [("files", .strings ["a"])]),
      ("plugins", .array [.string "require('a)b')", .string "require('c')(1)"])]) := by
    simp [Json.strings, Json.Distinct, Json.DistinctEntries, Json.DistinctItems, Entries.keys]
  have conforms := (Schema.accepts_checkTree ⟨.refuse, true⟩ distinct).1 ⟨_, rfl⟩
  have calls : ∀ steps, value.CallAt steps → InPlugins steps ∨ Disguised steps := by
    rw [hvalue]
    rintro _ (_ | _ | ⟨hmem, hat⟩ | _)
    obtain heq | hmem := List.mem_cons.1 hmem
    · obtain ⟨rfl, rfl⟩ := Member.pair.inj heq
      obtain - | - | ⟨hmem, hat⟩ | - := hat
      obtain ⟨rfl, rfl⟩ := Member.pair.inj (List.mem_singleton.1 hmem)
      obtain - | - | - | ⟨hitem, hat⟩ := hat
      obtain rfl := List.mem_singleton.1 (List.mem_of_getElem? hitem)
      cases hat
    · obtain ⟨rfl, rfl⟩ := Member.pair.inj (List.mem_singleton.1 hmem)
      obtain - | - | - | - := hat
      exact .inl ⟨_, _, _, rfl, rfl⟩
  have holds {i : Nat} {call : Expr} (hitem : [Expr.call first (requireText '\'' ['a', ')', 'b'] []),
      .call second (requireText '\'' ['c'] ['(', '1', ')'])][i]? = some call) :
      call.Holds [.member (.name "plugins".toList), .item i] value := by
    rw [hvalue]
    exact .member (List.mem_cons_of_mem _ List.mem_cons_self) (.item hitem .refl)
  have isQuote : Plugin.isQuote '\'' = true := rfl
  obtain ⟨config, warnings, hload, plugin, hplugin, -, hname⟩ :=
    (readText_requires module exports writes distinct calls conforms isQuote
      (by decide) rfl (holds (i := 0) rfl) none).1
  obtain ⟨config', warnings', hload', plugin', hplugin', -, hname'⟩ :=
    (readText_requires module exports writes distinct calls conforms isQuote
      (by decide) rfl (holds (i := 1) rfl) none).1
  obtain ⟨rfl, rfl⟩ := Checked.mk.inj (Except.ok.inj (hload.symm.trans hload'))
  exact ⟨config, warnings, hload, ⟨plugin, hplugin, hname⟩, plugin', hplugin', hname'⟩

end CssBuild
