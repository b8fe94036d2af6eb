import CssBuild.Proofs.Config.Reloading
import CssBuild.Proofs.Config.Streaming
import CssBuild.Proofs.Json.Completeness
import CssBuild.Proofs.Json.Leaves
import CssBuild.Proofs.Json.Writing
import CssBuild.Proofs.Script.Exports

/-!
# CssBuild.Proofs.Config.Expressiveness

What the formats can express.

1. TOML has no absent value and no integer beyond 64 bits with sign
   (`Toml.Lacks`). A tree is written as TOML exactly if no such value stands in
   it, at any depth; only the overrides and plugins of a configuration can hold
   one (`Config.openParts`).
2. The other formats write every configuration.
3. Every leaf of a configuration's tree stands in its place in what is read from
   the text, whatever number of levels the reader allows, as long as it allows
   those of the tree (`Format.treeWithin?`). TOML may change the order of
   entries, the others change nothing.
-/

namespace CssBuild

namespace Toml

open Json (SameLeaves Step at?_nil at?_cons at?_of_next?)

/-! ## What TOML has not -/

/-- Whether a value has no TOML text. -/
def Lacks : Json → Prop
  | .null => True
  | .number (.integer value _) => 0x7FFFFFFFFFFFFFFF < value
  | _ => False

theorem Writable.not_lacks {tree : Json} (h : Writable tree) : ¬Lacks tree := by
  cases tree with
  | null => exact h.elim
  | number n =>
    cases n with
    | integer value _ =>
      have hsmall : value < 0x8000000000000000 := h
      show ¬0x7FFFFFFFFFFFFFFF < value
      omega
    | double d => exact id
  | bool _ | string _ | array _ | object _ => exact id

theorem Writable.next? {tree found : Json} (h : Writable tree) {step : Step}
    (hnext : tree.next? step = some found) : Writable found := by
  cases tree with
  | array items =>
    cases step with
    | item i =>
      rw [Writable, writableItems_iff] at h
      exact h found (List.mem_of_getElem? hnext)
    | key name => cases hnext
  | object entries =>
    cases step with
    | key name =>
      rw [Writable, writableEntries_iff] at h
      exact h (name, found) (Entries.mem_of_find? hnext)
    | item i => cases hnext
  | null | bool _ | number _ | string _ => cases hnext

theorem Writable.at? {tree found : Json} (h : Writable tree) {steps : List Step}
    (hat : tree.at? steps = some found) : Writable found := by
  induction steps generalizing tree with
  | nil => exact Option.some.inj hat ▸ h
  | cons step rest ih =>
    rw [at?_cons] at hat
    obtain ⟨next, hnext, hrest⟩ := Option.bind_eq_some_iff.1 hat
    exact ih (h.next? hnext) hrest

/-- A tree can be written exactly if every value in it can. -/
theorem writable_iff (tree : Json) : tree.Distinct →
    (Writable tree ↔ ∀ steps value, tree.at? steps = some value → ¬Lacks value) := by
  intro distinct
  refine ⟨fun h steps value hat => (h.at? hat).not_lacks, fun h => ?_⟩
  induction tree using Json.induction with
  | null => exact h [] _ rfl trivial
  | number n =>
    have hself := h [] _ rfl
    cases n with
    | integer value _ =>
      have hsmall : ¬0x7FFFFFFFFFFFFFFF < value := hself
      show value < 0x8000000000000000
      omega
    | double d => trivial
  | bool _ | string _ => trivial
  | array items ih =>
    rw [Json.Distinct] at distinct
    rw [Writable, writableItems_iff]
    intro item hitem
    obtain ⟨i, hnext⟩ := Json.exists_next?_item hitem
    refine ih item hitem (Json.distinct_of_mem_items distinct hitem) fun steps value hat => ?_
    exact h (.item i :: steps) value ((at?_of_next? hnext steps).trans hat)
  | object entries ih =>
    rw [Json.Distinct] at distinct
    rw [Writable, writableEntries_iff]
    intro entry hentry
    have hnext := (Json.next?_key_iff distinct.1).2 hentry
    have hdistinct := Json.distinct_of_mem_entries distinct.2 hentry
    refine ih entry hentry hdistinct fun steps value hat => ?_
    exact h (.key entry.1 :: steps) value ((at?_of_next? hnext steps).trans hat)

/-! ## Leaves of arranged trees -/

theorem isLeaf_arranged (tree : Json) : (arranged tree).IsLeaf ↔ tree.IsLeaf := by
  cases tree with
  | null | bool _ | number _ | string _ => rw [arranged]
  | array items =>
    rw [arranged]
    split
    · rw [arrangedItems_eq_map]
      exact List.map_eq_nil_iff
    · rfl
  | object entries =>
    rw [arranged_object]
    show (partitioned entries).map arrangedEntry = [] ↔ entries = []
    rw [List.map_eq_nil_iff, ← List.length_eq_zero_iff, (partitioned_perm entries).length_eq,
      List.length_eq_zero_iff]

theorem arranged_of_isLeaf {tree : Json} (h : tree.IsLeaf) : arranged tree = tree := by
  cases tree with
  | null | bool _ | number _ | string _ => rw [arranged]
  | array items =>
    obtain rfl : items = [] := h
    rfl
  | object entries =>
    obtain rfl : entries = [] := h
    rfl

theorem next?_arranged {tree : Json} (distinct : tree.Distinct) (h : hasSection tree = true)
    (step : Step) : (arranged tree).next? step = (tree.next? step).map arranged := by
  cases tree with
  | array items =>
    rw [arranged, if_pos h, arrangedItems_eq_map]
    cases step with
    | item i => exact List.getElem?_map
    | key name => rfl
  | object entries =>
    rw [Json.Distinct] at distinct
    rw [arranged_object]
    cases step with
    | item i => rfl
    | key name =>
      have hdistinct := (keys_arranged entries).nodup_iff.2 distinct.1
      cases hfind : Entries.find? entries name with
      | none =>
        have habsent := Entries.find?_eq_none_iff.1 hfind
        have hnone : Json.next? (.object entries) (.key name) = none := hfind
        rw [hnone]
        exact Entries.find?_eq_none_iff.2 fun hmem =>
          habsent ((keys_arranged entries).mem_iff.1 hmem)
      | some found =>
        have hmem := Entries.mem_of_find? hfind
        rw [(Json.next?_key_iff distinct.1).2 hmem, Option.map_some]
        exact (Json.next?_key_iff hdistinct).2 (mem_arranged.2 ⟨found, hmem, rfl⟩)
  | null | bool _ | number _ | string _ => cases h

/-- Every leaf of a tree stands in its place in the arranged one. -/
theorem sameLeaves_arranged {tree : Json} (distinct : tree.Distinct) :
    SameLeaves (arranged tree) tree := by
  intro steps leaf hleaf
  induction steps generalizing tree with
  | nil =>
    rw [at?_nil, at?_nil, Option.some_inj, Option.some_inj]
    constructor
    · rintro rfl
      exact (arranged_of_isLeaf ((isLeaf_arranged tree).1 hleaf)).symm
    · rintro rfl
      exact arranged_of_isLeaf hleaf
  | cons step rest ih =>
    cases hsection : hasSection tree with
    | false => rw [arranged_of_inline hsection]
    | true =>
      rw [at?_cons, at?_cons, next?_arranged distinct hsection]
      cases hnext : tree.next? step with
      | none => rfl
      | some found => exact ih (Json.distinct_of_next? distinct hnext)

theorem same_of_arranged {a b : Json} (distinct : a.Distinct) (distinct' : b.Distinct)
    (h : arranged a = arranged b) : Json.same a b = true := by
  have hleaves : SameLeaves (arranged a) b := h ▸ sameLeaves_arranged distinct'
  exact Json.same_of_sameLeaves a distinct distinct'
    ((sameLeaves_arranged distinct).symm.trans hleaves)

end Toml

namespace Config

open Json (Step)
open Toml (Writable Lacks)

/-! ## Parts that may hold anything -/

/-- The ways to the parts of a configuration's tree that may hold any value: its plugins and its
overrides. -/
def openParts : List (List Step) :=
  [[.key "plugins"], [.key "theme", .key "extend"], [.key "variants", .key "extend"]]

theorem expressible_iff {config : Config} (valid : config.Valid) :
    config.Expressible ↔ ∀ part ∈ openParts, ∀ steps value,
      config.toTree.at? (part ++ steps) = some value → ¬Lacks value := by
  have hpart (part : List Step) {tree : Json} (distinct : tree.Distinct)
      (hat : config.toTree.at? part = some tree) : Writable tree ↔ ∀ steps value,
        config.toTree.at? (part ++ steps) = some value → ¬Lacks value := by
    rw [Toml.writable_iff tree distinct]
    simp only [Json.at?_append, hat, Option.bind_some]
  have hplugins := hpart [.key "plugins"] (distinct_array valid.plugins) rfl
  have htheme := hpart [.key "theme", .key "extend"] (distinct_object valid.themeExtend) rfl
  have hvariants := hpart [.key "variants", .key "extend"]
    (distinct_object valid.variantsExtend) rfl
  rw [Writable] at hplugins
  rw [Writable] at htheme
  rw [Writable] at hvariants
  rw [openParts, List.forall_mem_cons, List.forall_mem_cons, List.forall_mem_singleton, ← hplugins,
    ← htheme, ← hvariants]
  exact ⟨fun ⟨htheme, hvariants, hplugins⟩ => ⟨hplugins, htheme, hvariants⟩,
    fun ⟨hplugins, htheme, hvariants⟩ => ⟨htheme, hvariants, hplugins⟩⟩

/-! ## Configurations with the same text -/

/-- Valid configurations whose trees are the same once they are arranged are so themselves. -/
theorem Valid.arranged_unique {config other : Config} (valid : config.Valid)
    (h : Toml.arranged config.toTree = Toml.arranged other.toTree) :
    config.arranged = other.arranged := by
  have hroot (config : Config) : Toml.arranged config.toTree =
      .object ((Toml.partitioned config.parts).map Toml.arrangedEntry) :=
    Toml.arranged_object config.parts
  have hdescribes := describes_of_perm config.arranged config.arranged_parts_perm
  have hdescribes' := describes_of_perm other.arranged other.arranged_parts_perm
  rw [← hroot] at hdescribes hdescribes'
  exact Schema.describes_unique (Toml.distinct_arranged _ valid.distinct_toTree) hdescribes
    (h ▸ hdescribes')

theorem same_of_arrangedMap {a b : OrderedMap Json} (distinct : Json.DistinctEntries a.toList)
    (distinct' : Json.DistinctEntries b.toList) (h : arrangedMap a = arrangedMap b) :
    Json.same (.object a.toList) (.object b.toList) = true := by
  apply Toml.same_of_arranged (distinct_object distinct) (distinct_object distinct')
  rw [← object_arrangedMap, ← object_arrangedMap, h]

/-- Valid configurations that are the same once they are arranged have been so before. -/
theorem Valid.same_of_arranged {config other : Config} (valid : config.Valid) (valid' : other.Valid)
    (h : config.arranged = other.arranged) : same config other = true := by
  obtain ⟨hmode, hpatterns, hdarkMode, hfonts, htheme, hvariants, hplugins⟩ := Config.mk.inj h
  have hfonts : FontTable.same config.fonts other.fonts = true := by
    rw [FontTable.same_iff, hfonts]
  have htheme := same_of_arrangedMap valid.themeExtend valid'.themeExtend htheme
  have hvariants := same_of_arrangedMap valid.variantsExtend valid'.variantsExtend hvariants
  have hplugins : Json.same (.array config.plugins) (.array other.plugins) = true := by
    apply Toml.same_of_arranged (distinct_array valid.plugins) (distinct_array valid'.plugins)
    rw [← array_arrangedPlugins, ← array_arrangedPlugins, hplugins]
  rw [Json.same] at hplugins
  simp only [same, hmode, hpatterns, hdarkMode, hfonts, htheme, hvariants, hplugins,
    beq_self_eq_true, Bool.and_self]

end Config

/-! ## What is read again -/

namespace Format

open Json (SameLeaves)

/-- The tree that a text of a format stands for, if its reader allows some number of levels and not
the number of its own, and each double is the nearest one. Modules have no limit. -/
def treeWithin? (limit : Nat) (format : Format) (text : String) : Option Json :=
  match format with
  | script => (Script.readTree text.toList).toOption
  | json => (Json.readCharsWithin .nearest limit text.toList).toOption
  | toml => (Toml.readTreeWithin limit text.toList).toOption

theorem treeWithin?_render (limit : Nat) (tree : Json) :
    script.treeWithin? limit (Script.render tree) = some tree := by
  have hend : Script.EndsText [';', '\n'] :=
    .semicolon (s := ['\n']) (by simp [Json.IsBlanks, Json.isBlank])
  have hread := Script.readTree_prettyChars tree hend
  rw [treeWithin?, Script.toList_render, hread]
  rfl

theorem treeWithin?_pretty {limit : Nat} {tree : Json} (hdepth : tree.depth ≤ limit) :
    json.treeWithin? limit (tree.pretty ++ "\n") = some tree := by
  rw [treeWithin?, Json.toList_prettyLine,
    Json.readCharsWithin_written (Json.spellsText_pretty tree) hdepth]
  rfl

theorem write_toml_eq_ok {config : Config} {text : String} (h : toml.write config = .ok text) :
    config.Expressible ∧ Toml.write config.toTree = .ok text := by
  have hwrite := mapError_eq_ok.1 h
  refine ⟨?_, hwrite⟩
  rw [Toml.write] at hwrite
  split at hwrite
  · cases hwrite
  · next hnone =>
    rw [← Config.writable_toTree]
    exact (Toml.unwritable?_eq_none _).1 hnone

theorem treeWithin?_toml {config : Config} (valid : config.Valid) {text : String}
    (h : toml.write config = .ok text) {limit : Nat} (hdepth : config.toTree.depth ≤ limit) :
    toml.treeWithin? limit text = some (Toml.arranged config.toTree) := by
  obtain ⟨expressible, hwrite⟩ := write_toml_eq_ok h
  have writable := (Config.writable_toTree config).2 expressible
  obtain ⟨found, hfound, hread⟩ := Toml.readTreeWithin_write writable valid.distinct_toTree hdepth
  obtain rfl := Except.ok.inj (hfound.symm.trans hwrite)
  have hread' : Toml.readTreeWithin limit found.toList = .ok (Toml.arranged config.toTree) := hread
  rw [treeWithin?, hread']
  rfl

/-- Every leaf of a valid configuration's tree stands in its place in what is read from its text. -/
theorem exists_treeWithin? {config : Config} (valid : config.Valid) {format : Format}
    {text : String} (h : format.write config = .ok text) {limit : Nat}
    (hdepth : config.toTree.depth ≤ limit) :
    ∃ read, format.treeWithin? limit text = some read ∧ SameLeaves read config.toTree ∧
      (format ≠ .toml → read = config.toTree) := by
  cases format with
  | script =>
    obtain rfl := Except.ok.inj h
    exact ⟨config.toTree, treeWithin?_render limit _, .refl _, fun _ => rfl⟩
  | json =>
    obtain rfl := Except.ok.inj h
    exact ⟨config.toTree, treeWithin?_pretty hdepth, .refl _, fun _ => rfl⟩
  | toml =>
    exact ⟨Toml.arranged config.toTree, treeWithin?_toml valid h hdepth,
      Toml.sameLeaves_arranged valid.distinct_toTree, fun hother => absurd rfl hother⟩

/-- Valid configurations with the same text are the same. -/
theorem same_of_write {config other : Config} (valid : config.Valid) (valid' : other.Valid)
    {format : Format} {text : String} (h : format.write config = .ok text)
    (h' : format.write other = .ok text) :
    Config.same config other = true ∧ (format ≠ .toml → config = other) := by
  have hdepth := Nat.le_max_left config.toTree.depth other.toTree.depth
  have hdepth' := Nat.le_max_right config.toTree.depth other.toTree.depth
  by_cases hformat : format = .toml
  · obtain rfl := hformat
    have htree := Option.some.inj
      ((treeWithin?_toml valid h hdepth).symm.trans (treeWithin?_toml valid' h' hdepth'))
    have hsame := valid.same_of_arranged valid' (valid.arranged_unique htree)
    exact ⟨hsame, fun hother => absurd rfl hother⟩
  · obtain ⟨read, hread, -, hexact⟩ := exists_treeWithin? valid h hdepth
    obtain ⟨read', hread', -, hexact'⟩ := exists_treeWithin? valid' h' hdepth'
    have htree : config.toTree = other.toTree := by
      rw [← hexact hformat, ← hexact' hformat]
      exact Option.some.inj (hread.symm.trans hread')
    obtain rfl := Config.toTree_injective htree
    exact ⟨valid.same_of_arranged valid rfl, fun _ => rfl⟩

/-! ## What is refused -/

theorem write_eq_error {config : Config} {format : Format} {e : ConfigError}
    (h : format.write config = .error e) :
    format = .toml ∧ ∃ reason, Toml.write config.toTree = .error reason ∧
      e = .serialize "TOML" reason.message := by
  cases format with
  | script | json => cases h
  | toml =>
    refine ⟨rfl, ?_⟩
    rw [write, writeTree] at h
    cases hwrite : Toml.write config.toTree with
    | ok text =>
      rw [hwrite] at h
      cases h
    | error reason =>
      rw [hwrite] at h
      exact ⟨reason, rfl, (Except.error.inj h).symm⟩

theorem exists_error_iff (config : Config) (format : Format) :
    (∃ e, format.write config = .error e) ↔ format = .toml ∧ ¬config.Expressible := by
  rw [← Config.writable_toTree, ← Toml.unwritable?_eq_none]
  constructor
  · rintro ⟨e, h⟩
    obtain ⟨hformat, reason, hwrite, -⟩ := write_eq_error h
    refine ⟨hformat, fun hnone => ?_⟩
    rw [Toml.write, hnone] at hwrite
    cases hwrite
  · rintro ⟨rfl, hsome⟩
    obtain ⟨reason, hreason⟩ := Option.ne_none_iff_exists'.1 hsome
    refine ⟨.serialize "TOML" reason.message, ?_⟩
    rw [write, writeTree, Toml.write, hreason]
    rfl

end Format

/-- Whether a configuration is what the schema returns for some document. -/
def Config.Accepted (config : Config) : Prop :=
  ∃ options document warnings, document.WellFormed ∧
    Schema.check options document = .ok ⟨config, warnings⟩

theorem Config.Accepted.valid {config : Config} (h : config.Accepted) : config.Valid := by
  obtain ⟨options, document, warnings, wellFormed, hcheck⟩ := h
  exact Schema.valid_of_check wellFormed hcheck

/-- What the formats express of the configurations that the schema returns. Only TOML ever fails,
and exactly where a plugin or override has an absent value or a large integer somewhere; the error
then names TOML. Otherwise the text has every leaf of the configuration's tree in its place, and no
other configuration has the same text. -/
theorem Format.write_expresses {config : Config} (accepted : config.Accepted) (format : Format) :
    ((∃ e, format.write config = .error e) ↔ format = .toml ∧ ∃ part ∈ Config.openParts,
      ∃ steps value, config.toTree.at? (part ++ steps) = some value ∧ Toml.Lacks value) ∧
    (∀ e, format.write config = .error e →
      ∃ reason : Toml.Unwritable, e = .serialize "TOML" reason.message) ∧
    ∀ text, format.write config = .ok text →
      (∀ limit, config.toTree.depth ≤ limit → ∃ read, format.treeWithin? limit text = some read ∧
        Json.SameLeaves read config.toTree ∧ (format ≠ .toml → read = config.toTree)) ∧
      ∀ other : Config, other.Accepted → format.write other = .ok text →
        Config.same config other = true ∧ (format ≠ .toml → config = other) := by
  have valid := accepted.valid
  refine ⟨?refused, ?named, ?kept⟩
  case refused =>
    rw [exists_error_iff, Config.expressible_iff valid]
    simp only [not_forall, not_not, exists_prop]
  case named =>
    intro e h
    obtain ⟨-, reason, -, he⟩ := write_eq_error h
    exact ⟨reason, he⟩
  case kept =>
    intro text h
    exact ⟨fun limit hdepth => exists_treeWithin? valid h hdepth,
      fun other accepted' h' => same_of_write valid accepted'.valid h h'⟩

/-- A plugin with an absent value deep inside, and a theme with the largest integer that TOML has:
only the plugin is refused, and only as TOML. -/
theorem Format.write_expresses_nested :
    let plugin : Plugin := .array [.single "options" (.array [.bool true, .null])]
    let extend : OrderedMap Json :=
      .ofList [("order", .number (.integer 0x7FFFFFFFFFFFFFFF (by decide)))]
    let config : Config :=
      { Config.scanning [⟨"a"⟩] with themeExtend := extend, plugins := [plugin] }
    (∃ e, toml.write config = .error e) ∧ (¬∃ e, script.write config = .error e) ∧
      ∃ text, json.write config = .ok text ∧ json.treeWithin? 5 text = some config.toTree := by
  intro plugin extend config
  have hextend : extend.entries =
      [("order", .number (.integer 0x7FFFFFFFFFFFFFFF (by decide)))] := rfl
  have accepted : config.Accepted := by
    refine ⟨{}, ⟨config.toTree, []⟩, [], ?_, rfl⟩
    simp [Document.WellFormed, Config.toTree, config, hextend, plugin, Config.scanning,
      Config.fontsTree, Json.single, Json.strings, Json.Distinct, Json.DistinctEntries,
      Json.DistinctItems, Entries.keys, OrderedMap.toList, OrderedMap.empty]
  refine ⟨?_, ?_, _, rfl, ?_⟩
  · exact (write_expresses accepted .toml).1.2 ⟨rfl, [.key "plugins"], List.mem_cons_self,
      [.item 0, .item 0, .key "options", .item 1], .null, rfl, trivial⟩
  · intro herror
    cases ((write_expresses accepted .script).1.1 herror).1
  · obtain ⟨read, hread, -, hexact⟩ :=
      ((write_expresses accepted .json).2.2 _ rfl).1 5 (by decide)
    rw [hread, hexact (by decide)]

end CssBuild
