import CssBuild.Config.Format
import CssBuild.Proofs.Config.Normalization
import CssBuild.Proofs.Toml.Sections

/-!
# CssBuild.Proofs.Config.Reloading

Configurations written as TOML and read again.

1. A configuration is read back with the entries of its overrides, and of the
   tables among its plugins, in the order of a document
   (`Config.arranged`); everything else is as it was.
2. Both configurations have the same tree once it is arranged, so they have
   the same text.
3. That tree conforms to the schema and describes the arranged configuration,
   which is the same configuration.
-/

namespace CssBuild

open Toml (hasSection partitioned arrangedEntry arrangedItems Writable WritableItems WritableEntries)

namespace Config

/-! ## Arranged configurations -/

/-- Overrides with their entries in the order of a document. -/
def arrangedMap (found : OrderedMap Json) : OrderedMap Json :=
  ⟨(partitioned found.entries).map arrangedEntry,
    (Toml.keys_arranged found.entries).nodup_iff.2 found.distinct⟩

/-- Plugins with the entries of tables among them in the order of a document. -/
def arrangedPlugins (plugins : List Plugin) : List Plugin :=
  if hasSection (.array plugins) then arrangedItems plugins else plugins

/-- The configuration with the entries of its overrides and plugins in the order of a document. -/
def arranged (config : Config) : Config :=
  { config with
    themeExtend := arrangedMap config.themeExtend
    variantsExtend := arrangedMap config.variantsExtend
    plugins := arrangedPlugins config.plugins }

theorem object_arrangedMap (found : OrderedMap Json) :
    .object (arrangedMap found).toList = Toml.arranged (.object found.toList) :=
  (Toml.arranged_object found.entries).symm

theorem array_arrangedPlugins (plugins : List Plugin) :
    .array (arrangedPlugins plugins) = Toml.arranged (.array plugins) := by
  rw [arrangedPlugins, Toml.arranged]
  split <;> rfl

/-! ## The tree of an arranged configuration -/

theorem hasSection_strings (values : List String) : hasSection (.strings values) = false := by
  cases values with
  | nil => rfl
  | cons value values => rfl

/-- A table of texts is in the order of a document already. -/
theorem arranged_table {entries : List (String × Json)}
    (h : ∀ entry ∈ entries, hasSection entry.2 = false) :
    Toml.arranged (.object entries) = .object entries := by
  have hown : Toml.ownEntries entries = entries := by
    apply List.filter_eq_self.2
    intro entry hentry
    rw [h entry hentry]
    rfl
  have htables : Toml.tableEntries entries = [] := by
    apply List.filter_eq_nil_iff.2
    intro entry hentry
    rw [h entry hentry]
    exact Bool.false_ne_true
  rw [Toml.arranged, Toml.arrangedEntries_eq_map, hown, htables, List.map_nil, List.append_nil]

theorem arranged_contentTree (config : Config) :
    Toml.arranged config.contentTree = config.contentTree := by
  apply arranged_table
  intro entry hentry
  rw [List.mem_singleton.1 hentry]
  exact hasSection_strings _

theorem arranged_fontsTree (fonts : FontTable) : Toml.arranged (fontsTree fonts) = fontsTree fonts := by
  apply arranged_table
  intro entry hentry
  obtain ⟨found, -, rfl⟩ := List.mem_map.1 hentry
  exact hasSection_strings _

theorem arranged_themeTree (config : Config) :
    Toml.arranged config.themeTree = config.arranged.themeTree := by
  have horder (extend : List (String × Json)) :
      partitioned [("fontFamily", fontsTree config.fonts), ("extend", .object extend)] =
        [("fontFamily", fontsTree config.fonts), ("extend", .object extend)] := rfl
  rw [themeTree, Toml.arranged_object, horder, List.map_cons, List.map_cons, arrangedEntry,
    arrangedEntry, arranged_fontsTree, ← object_arrangedMap, List.map_nil]
  rfl

theorem arranged_variantsTree (config : Config) :
    Toml.arranged config.variantsTree = config.arranged.variantsTree := by
  rw [variantsTree, variantsTree, arranged, Json.single, Json.single, object_arrangedMap,
    Toml.arranged_object]
  rfl

/-- The parts of the arranged configuration are those of the configuration, arranged. -/
theorem parts_arranged (config : Config) :
    config.arranged.parts = config.parts.map arrangedEntry := by
  have hstring (s : String) : Toml.arranged (.string s) = .string s := by rw [Toml.arranged]
  have hplugins : Toml.arranged (.array config.plugins) = .array config.arranged.plugins :=
    (array_arrangedPlugins config.plugins).symm
  simp only [parts, List.map_cons, List.map_nil, arrangedEntry, hstring, arranged_contentTree,
    arranged_themeTree, arranged_variantsTree, hplugins]
  rfl

/-- The arranged tree has the parts of the arranged configuration, in some order. -/
theorem arranged_parts_perm (config : Config) :
    ((partitioned config.parts).map arrangedEntry).Perm config.arranged.parts := by
  rw [parts_arranged]
  exact (Toml.partitioned_perm config.parts).map arrangedEntry

/-- The arranged configuration has the same tree, once that is arranged. -/
theorem arranged_toTree_arranged (config : Config) :
    Toml.arranged config.arranged.toTree = Toml.arranged config.toTree := by
  rw [toTree_eq, toTree_eq, parts_arranged]
  apply Toml.arranged_object_congr
  rw [List.map_map]
  apply List.map_congr_left
  intro entry _
  rw [Function.comp_apply, arrangedEntry, arrangedEntry, Toml.arranged_arranged]

/-! ## What can be written -/

/-- A configuration whose overrides and plugins hold no absent value and no integer beyond 64 bits
with sign. -/
def Expressible (config : Config) : Prop :=
  WritableEntries config.themeExtend.toList ∧ WritableEntries config.variantsExtend.toList ∧
    WritableItems config.plugins

theorem writable_strings (values : List String) : Writable (.strings values) := by
  rw [Json.strings, Writable, Toml.writableItems_iff, List.forall_mem_map]
  intro value _
  trivial

theorem writable_fontsTree (fonts : FontTable) : Writable (fontsTree fonts) := by
  rw [fontsTree, Writable, Toml.writableEntries_iff, List.forall_mem_map]
  intro entry _
  exact writable_strings entry.2

theorem writable_toTree (config : Config) : Writable config.toTree ↔ config.Expressible := by
  have hstrings := writable_strings (config.patterns.map Pattern.text)
  have hfonts := writable_fontsTree config.fonts
  simp only [toTree_eq, parts, contentTree, themeTree, variantsTree, Json.single, Writable,
    WritableEntries, hstrings, hfonts, Expressible, true_and, and_true]

/-- The arranged configuration has the same text. -/
theorem write_arranged {config : Config} (h : config.Expressible) :
    Format.toml.write config.arranged = Format.toml.write config := by
  have writable := (writable_toTree config).2 h
  have writable' : Writable config.arranged.toTree := by
    rw [← Toml.writable_arranged, arranged_toTree_arranged, Toml.writable_arranged]
    exact writable
  have htext : Toml.write config.arranged.toTree = Toml.write config.toTree := by
    rw [← Toml.write_arranged writable', arranged_toTree_arranged, Toml.write_arranged writable]
  rw [Format.write, Format.write, Format.writeTree, Format.writeTree, htext]

/-! ## What is read again -/

theorem Valid.valid_arranged {config : Config} (h : config.Valid) : config.arranged.Valid := by
  have hmap {found : OrderedMap Json} (hfound : Json.DistinctEntries found.toList) :
      Json.DistinctEntries (arrangedMap found).toList := by
    have hobject := Toml.distinct_arranged _ (distinct_object hfound)
    rw [← object_arrangedMap, Json.Distinct] at hobject
    exact hobject.2
  have hplugins : Json.DistinctItems (arrangedPlugins config.plugins) := by
    have hitems := Toml.distinct_arranged _ (distinct_array h.plugins)
    rwa [← array_arrangedPlugins, Json.Distinct] at hitems
  exact ⟨h.patterns_ne, h.globs, h.fontStacks, hmap h.themeExtend, hmap h.variantsExtend, hplugins⟩

/-- The arranged configuration is the same one. -/
theorem Valid.same_arranged {config : Config} (h : config.Valid) :
    same config config.arranged = true := by
  have hmap {found : OrderedMap Json} (hfound : Json.DistinctEntries found.toList) :
      Json.same (.object found.toList) (.object (arrangedMap found).toList) = true := by
    rw [object_arrangedMap]
    exact Toml.same_arranged _ (distinct_object hfound)
  have hplugins : Json.sameItems config.plugins (arrangedPlugins config.plugins) = true := by
    have hsame := Toml.same_arranged _ (distinct_array h.plugins)
    rwa [← array_arrangedPlugins, Json.same] at hsame
  have hfonts : FontTable.same config.fonts config.fonts = true := (FontTable.same_iff _ _).2 rfl
  simp only [same, hfonts, arranged, hmap h.themeExtend, hmap h.variantsExtend, hplugins,
    beq_self_eq_true, Bool.and_self]

/-- A valid configuration that TOML can express and whose tree is not nested too deeply is written,
and what is read from the text is the arranged configuration. -/
theorem readText_toml_arranged {config : Config} (valid : config.Valid)
    (expressible : config.Expressible) (hdepth : config.toTree.depth ≤ Toml.maxDepth)
    (source? : Option Path) (options : LoadOptions) :
    ∃ text warnings, Format.toml.write config = .ok text ∧
      readText .toml text source? options = .ok ⟨config.arranged, warnings⟩ := by
  have writable := (writable_toTree config).2 expressible
  have distinct := valid.distinct_toTree
  obtain ⟨text, hwrite, hread⟩ := Toml.readTreeWithin_write writable distinct hdepth
  have hdistinct := Toml.distinct_arranged _ distinct
  have hroot : Toml.arranged config.toTree =
      .object ((partitioned config.parts).map arrangedEntry) := Toml.arranged_object config.parts
  have hdocument : Document.ofToml text source? = .ok ⟨Toml.arranged config.toTree, []⟩ := by
    have hread' : Toml.readTree text.toList = .ok (Toml.arranged config.toTree) := hread
    rw [Document.ofToml, hread']
    dsimp only
    rw [Document.ofTree_of_distinct hdistinct]
  obtain ⟨warnings, hcheck⟩ :=
    valid.valid_arranged.check_of_perm (hroot ▸ hdistinct) config.arranged_parts_perm options
  rw [← hroot] at hcheck
  refine ⟨text, warnings, ?_, ?_⟩
  · have hwrite' : Toml.write config.toTree = .ok text := hwrite
    rw [Format.write, Format.writeTree, hwrite']
    rfl
  · rw [readText, Format.read, hdocument, ok_bind, hcheck]

/-- What is written for a configuration that a document was accepted as is read as the same
configuration, which has the same text. TOML has to be able to express the configuration, and its
tree may not have 80 levels. -/
theorem readText_write_toml {validation : LoadOptions} {document : Document} {config : Config}
    {warnings : List Warning} (wellFormed : document.WellFormed)
    (hcheck : Schema.check validation document = .ok ⟨config, warnings⟩)
    (expressible : config.Expressible) (hdepth : config.toTree.depth < 80)
    (source? : Option Path) (options : LoadOptions) :
    ∃ text reloaded, Format.toml.write config = .ok text ∧
      readText .toml text source? options = .ok reloaded ∧
      same config reloaded.value = true ∧
      reloaded.value.fonts.toList = config.fonts.toList ∧
      Format.toml.write reloaded.value = .ok text := by
  have valid : config.Valid := Schema.valid_of_check wellFormed hcheck
  obtain ⟨text, warnings', hwrite, hread⟩ :=
    readText_toml_arranged valid expressible (Nat.le_of_lt_succ hdepth) source? options
  have hwrite' : Format.toml.write config.arranged = .ok text := by
    rw [write_arranged expressible, hwrite]
  exact ⟨text, ⟨config.arranged, warnings'⟩, hwrite, hread, valid.same_arranged, rfl, hwrite'⟩

/-- A configuration with a table before a text among its overrides, and with a table among its
plugins. -/
theorem readText_write_toml_tables :
    let extend : OrderedMap Json := .ofList [("colors", .single "red" (.string "#f00")),
      ("prefix", .string "tw-")]
    let plugin : Plugin := .object [("options", .single "level" (.number (.integer (-1) (by decide)))),
      ("name", .string "forms")]
    let config : Config := { scanning [⟨"a"⟩] with themeExtend := extend, plugins := [plugin] }
    ∃ text reloaded, Format.toml.write config = .ok text ∧
      readText .toml text none {} = .ok reloaded ∧ same config reloaded.value = true ∧
      reloaded.value.fonts.toList = config.fonts.toList ∧
      Format.toml.write reloaded.value = .ok text := by
  intro extend plugin config
  have hextend : extend.entries = [("colors", .single "red" (.string "#f00")),
      ("prefix", .string "tw-")] := rfl
  have wellFormed : Document.WellFormed ⟨config.toTree, []⟩ := by
    simp [Document.WellFormed, toTree, config, hextend, plugin, scanning, fontsTree, Json.single,
      Json.strings, Json.Distinct, Json.DistinctEntries, Json.DistinctItems, Entries.keys,
      OrderedMap.toList, OrderedMap.empty]
  have hcheck : Schema.check {} ⟨config.toTree, []⟩ = .ok ⟨config, []⟩ := rfl
  have expressible : config.Expressible := by
    simp [Expressible, config, hextend, plugin, scanning, Json.single, Writable, WritableItems,
      WritableEntries, Toml.SmallNumber, OrderedMap.toList, OrderedMap.empty]
  exact readText_write_toml wellFormed hcheck expressible (by decide) none {}

end Config

end CssBuild
