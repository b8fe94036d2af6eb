import CssBuild.Config.Format
import CssBuild.Proofs.Config.Normalization
import CssBuild.Proofs.Json.ReadBack

/-!
# CssBuild.Proofs.Config.Rereading

Trees and configurations written as JSON and read again.

1. The text of a tree spells the tree, and what spells a tree that is not too
   deep is read as it, so every such tree whose doubles are read back is read
   back as it was (`Document.ofJson_pretty`).
2. The tree of an accepted configuration is accepted as the configuration, so a
   configuration is read back as it was, and has the same text again.
-/

namespace CssBuild

/-- The document of a tree that is written and read is the tree, without repeated keys. -/
theorem Document.ofJson_pretty {tree : Json} (distinct : tree.Distinct)
    (hdepth : tree.depth ≤ Json.maxDepth) (hback : tree.ReadsBack) (source? : Option Path) :
    ofJson (tree.pretty ++ "\n") source? = .ok ⟨tree, []⟩ := by
  have hread : Json.readChars (tree.prettyChars 0 ++ ['\n']) = .ok tree :=
    (Json.readCharsWithin_written_iff (Json.spellsText_pretty tree) hdepth).2 hback
  simp only [ofJson, Json.toList_prettyLine, hread, ofTree_of_distinct distinct]

namespace Config

/-- A tree that repeats no key and has no more than 127 levels, and each of whose doubles is read
back from its own text, is written as a text that is read as the tree, without repeated keys. So a
configuration that was accepted and has such a tree is written as a text that is read as the
configuration, and has the same text again. -/
theorem readText_write_json :
    (∀ (tree : Json) (source? : Option Path), tree.Distinct → tree.depth ≤ 127 → tree.ReadsBack →
      Document.ofJson (tree.pretty ++ "\n") source? = .ok ⟨tree, []⟩) ∧
    ∀ (validation : LoadOptions) (document : Document) (config : Config) (warnings : List Warning),
      document.WellFormed → Schema.check validation document = .ok ⟨config, warnings⟩ →
      config.toTree.depth ≤ 127 → config.toTree.ReadsBack →
      ∀ (source? : Option Path) (options : LoadOptions), ∃ text reloaded,
        Format.json.write config = .ok text ∧
        readText .json text source? options = .ok reloaded ∧ reloaded.value = config ∧
        Format.json.write reloaded.value = .ok text := by
  refine ⟨fun tree source? distinct hdepth hback =>
    Document.ofJson_pretty distinct hdepth hback source?, ?_⟩
  intro validation document config warnings wellFormed hcheck hdepth hback source? options
  have valid : config.Valid := Schema.valid_of_check wellFormed hcheck
  have distinct := valid.distinct_toTree
  obtain ⟨warnings', hagain⟩ := valid.check_of_perm distinct (List.Perm.refl _) options
  refine ⟨config.toTree.pretty ++ "\n", ⟨config, warnings'⟩, rfl, ?_, rfl, rfl⟩
  rw [readText, Format.read, Document.ofJson_pretty distinct hdepth hback, ok_bind]
  exact hagain

/-- An empty key, a key with a dot beside a table with the same path, the smallest integer, a
negative zero and the largest double, in a tree and among the overrides of a configuration. -/
theorem readText_write_json_joined :
    let entries : List (String × Json) := [("", .single "" .null),
      ("a.b", .number (.integer (-0x8000000000000000) (by decide))),
      ("a", .single "b" (.array [.number (.double (.zero true)),
        .number (.double ⟨false, 0x7FEFFFFFFFFFFFFF, by decide⟩)]))]
    let extend : OrderedMap Json := ⟨entries, by decide⟩
    let config : Config := { scanning [⟨"a"⟩] with themeExtend := extend }
    Document.ofJson ((Json.object entries).pretty ++ "\n") none = .ok ⟨.object entries, []⟩ ∧
    ∃ text reloaded, Format.json.write config = .ok text ∧
      readText .json text none {} = .ok reloaded ∧ reloaded.value = config ∧
      Format.json.write reloaded.value = .ok text := by
  intro entries extend config
  have distinct : (Json.object entries).Distinct := by
    simp [entries, Json.single, Json.Distinct, Json.DistinctEntries, Json.DistinctItems,
      Entries.keys]
  have wellFormed : Document.WellFormed ⟨config.toTree, []⟩ := by
    simp [Document.WellFormed, toTree, config, extend, entries, scanning, fontsTree, Json.single,
      Json.strings, Json.Distinct, Json.DistinctEntries, Json.DistinctItems, Entries.keys,
      OrderedMap.toList, OrderedMap.empty]
  have hcheck : Schema.check {} ⟨config.toTree, []⟩ = .ok ⟨config, []⟩ := rfl
  exact ⟨readText_write_json.1 _ none distinct (by decide) (by decide +kernel),
    readText_write_json.2 {} _ config [] wellFormed hcheck (by decide) (by decide +kernel) none {}⟩

end Config

end CssBuild
