import CssBuild.Config.Format
import CssBuild.Config.Typed
import CssBuild.Proofs.Config.Validity
import CssBuild.Proofs.Json.Repeats
import CssBuild.Proofs.Json.Streaming

/-!
# CssBuild.Proofs.Config.Streaming

Configurations read from JSON text without a document.

1. The typed reader of each part agrees with the trees that the schema lets
   through, and that of a configuration with every tree that describes one
   (`agrees_config`).
2. So a text that is accepted as a configuration is read as the same one
   without its document, its repeated keys and its schema being looked at
   (`Config.readTyped_of_readText`).
3. The converse does not hold: what the typed readers pass over or default is
   not checked by them.
-/

namespace CssBuild

/-! ## Trees of configurations -/

/-- The tree of a configuration has all of its parts, in their order. -/
theorem Config.toTree_injective {a b : Config} (h : a.toTree = b.toTree) : a = b := by
  obtain ⟨mode, patterns, darkMode, fonts, themeExtend, variantsExtend, plugins⟩ := a
  obtain ⟨mode', patterns', darkMode', fonts', themeExtend', variantsExtend', plugins'⟩ := b
  simp only [toTree, Json.single, Json.object.injEq, List.cons.injEq, Prod.mk.injEq, and_true,
    true_and, Json.string.injEq, Json.array.injEq] at h
  obtain ⟨hpatterns, hdark, ⟨hfonts, htheme⟩, hvariants, rfl⟩ := h
  obtain rfl := Pattern.texts_injective (Json.strings_injective hpatterns)
  obtain rfl := DarkMode.name_injective hdark
  obtain rfl := fontsTree_injective hfonts
  obtain rfl := OrderedMap.toList_injective htheme
  obtain rfl := OrderedMap.toList_injective hvariants
  rfl

namespace Config.Typed

open Schema
open Json (Agrees AgreesEntry AgreesField)

/-! ## Parts -/

theorem agrees_asTree {α : Type} {reader : Json.Typed α} {tree : Json} {found : α}
    (h : Agrees reader tree found) (toTree : α → Json) :
    Agrees (asTree toTree reader) tree (toTree found) := by
  intro room s rest hread
  rw [asTree, h hread, ok_map]

theorem agrees_mode {tree : Json} (h : IsName Mode.names tree) :
    Agrees mode tree (.string Mode.onDemand.name) := by
  obtain ⟨name, hname, rfl⟩ := h
  have hmode : Mode.ofName? name = some .onDemand := if_pos hname
  exact agrees_asTree (Json.agrees_choice hmode) fun mode => .string mode.name

theorem agrees_darkMode (found : DarkMode) :
    Agrees darkMode (.string found.name) (.string found.name) :=
  agrees_asTree (Json.agrees_choice (DarkMode.ofName?_name found)) fun mode => .string mode.name

theorem agrees_families (stack : FontStack) : Agrees families (.strings stack) stack := by
  apply Json.agrees_list
  rw [List.forall₂_map_left_iff]
  exact List.forall₂_same.2 fun family _ => Json.agrees_text family

theorem agrees_patterns (texts : List String) :
    Agrees (asTree .array (Json.list pattern)) (.strings texts) (.strings texts) := by
  apply agrees_asTree (Json.agrees_list _) Json.array
  rw [List.forall₂_map_left_iff, List.forall₂_map_right_iff]
  exact List.forall₂_same.2 fun text _ => agrees_asTree (Json.agrees_text text) Json.string

/-- The tree of font tokens with their stacks. -/
def stacksTree (entries : List (String × FontStack)) : Json :=
  .object (entries.map fun entry => (entry.1, .strings entry.2))

theorem agrees_fontEntries {entries : List (String × FontStack)}
    (distinct : (Entries.keys entries).Nodup) : Agrees fontEntries (stacksTree entries) entries := by
  have hkeys : (Entries.keys (entries.map fun entry => (entry.1, Json.strings entry.2))).Nodup := by
    rw [Entries.keys, List.map_map]
    exact distinct
  have hentries : List.Forall₂ (AgreesEntry families)
      (entries.map fun entry => (entry.1, Json.strings entry.2)) entries := by
    rw [List.forall₂_map_left_iff]
    exact List.forall₂_same.2 fun entry _ => ⟨rfl, agrees_families entry.2⟩
  have haccepts : ∀ seen token, token ∉ seen → repeatedToken? seen token = none :=
    fun _ _ hnew => if_neg hnew
  exact Json.agrees_mapping haccepts hentries hkeys

theorem agrees_fonts (table : FontTable) : Agrees fonts (fontsTree table) (fontsTree table) := by
  have hfonts := agrees_asTree (agrees_fontEntries table.distinct) fun entries =>
    fontsTree (.ofList entries)
  rwa [show OrderedMap.ofList table.entries = table from OrderedMap.ofList_toList table] at hfonts

theorem agrees_overrides {found : OrderedMap Json} (distinct : Json.DistinctEntries found.toList) :
    Agrees overrides (.object found.toList) (.object found.toList) := by
  have hentries : List.Forall₂ (AgreesEntry Json.anything) found.toList found.toList :=
    List.forall₂_same.2 fun entry hentry =>
      ⟨rfl, Json.agrees_anything (Json.distinct_of_mem_entries distinct hentry)⟩
  have h : Agrees overrideEntries (.object found.toList) found.toList :=
    Json.agrees_mapping (fun _ _ _ => rfl) hentries found.distinct
  have hfound := agrees_asTree h fun entries => .object (OrderedMap.ofList entries).toList
  rwa [OrderedMap.ofList_toList] at hfound

theorem agrees_plugins {trees : List Json} (distinct : Json.DistinctItems trees) :
    Agrees plugins (.array trees) (.array trees) := by
  apply agrees_asTree (Json.agrees_list _) Json.array
  exact List.forall₂_same.2 fun tree htree =>
    Json.agrees_anything (Json.distinct_of_mem_items distinct htree)

/-! ## Sections -/

/-- What the schema reads of a part is what the field of a record has. -/
theorem Reads.has {entries : List (String × Json)} {field : Json.Field} {left : Prop}
    {p : Json → Prop} {found : Json} (h : Reads entries field.name left p)
    (hleft : left → field.default? = some found)
    (hp : ∀ tree, (field.name, tree) ∈ entries → p tree → Agrees field.reader tree found) :
    field.Has entries found :=
  h.imp (fun ⟨hnone, hdefault⟩ => ⟨hnone, hleft hdefault⟩)
    fun ⟨tree, hmem, htree⟩ => ⟨tree, hmem, hp tree hmem htree⟩

theorem has_overrides {entries : List (String × Json)} (distinct : Json.DistinctEntries entries)
    {found : OrderedMap Json} (h : ReadsOverrides entries found) :
    Json.Field.Has entries ⟨"extend", some (.object []), overrides⟩ (.object found.toList) := by
  have hreads := h
  rw [ReadsOverrides] at hreads
  apply Reads.has hreads
  · intro hempty
    rw [hempty]
  · rintro _ - rfl
    exact agrees_overrides (distinct_readsOverrides distinct h)

theorem agrees_content {entries : List (String × Json)} (distinct : (Entries.keys entries).Nodup)
    {texts : List String} (h : ("files", .strings texts) ∈ entries) :
    Agrees content (.object entries) (.single "files" (.strings texts)) := by
  rw [content, Json.single]
  exact Json.agrees_record distinct (by decide)
    (.cons ⟨rfl, .inr ⟨_, h, agrees_patterns texts⟩⟩ .nil)

theorem agrees_theme {entries : List (String × Json)} (distinct : (Json.object entries).Distinct)
    {table : FontTable} {found : OrderedMap Json}
    (hfonts : Reads entries "fontFamily" (table.toList = []) (· = fontsTree table))
    (hextend : ReadsOverrides entries found) :
    Agrees theme (.object entries)
      (.object [("fontFamily", fontsTree table), ("extend", .object found.toList)]) := by
  rw [Json.Distinct] at distinct
  have htable : Json.Field.Has entries ⟨"fontFamily", some (.object []), fonts⟩ (fontsTree table) := by
    apply Reads.has hfonts
    · intro hempty
      rw [fontsTree, hempty]
      rfl
    · rintro _ - rfl
      exact agrees_fonts table
  rw [theme]
  exact Json.agrees_record distinct.1 (by decide)
    (.cons ⟨rfl, htable⟩ (.cons ⟨rfl, has_overrides distinct.2 hextend⟩ .nil))

theorem agrees_variants {entries : List (String × Json)} (distinct : (Json.object entries).Distinct)
    {found : OrderedMap Json} (hextend : ReadsOverrides entries found) :
    Agrees variants (.object entries) (.single "extend" (.object found.toList)) := by
  rw [Json.Distinct] at distinct
  rw [variants, Json.single]
  exact Json.agrees_record distinct.1 (by decide)
    (.cons ⟨rfl, has_overrides distinct.2 hextend⟩ .nil)

/-! ## Configurations -/

/-- The typed reader of a configuration agrees with every tree that describes it. -/
theorem agrees_config {tree : Json} (distinct : tree.Distinct) {found : Config}
    (h : Describes tree found) : Agrees config tree found.toTree := by
  obtain ⟨root, rfl, hmode, ⟨_, hcontent, content, rfl, hfiles⟩, hdark, htheme, hvariants,
    hplugins⟩ := h
  rw [Json.Distinct] at distinct
  have hvalue {key : String} {tree : Json} (hmem : (key, tree) ∈ root) : tree.Distinct :=
    Json.distinct_of_mem_entries distinct.2 hmem
  rw [config, toTree]
  refine Json.agrees_record distinct.1 (by decide) (.cons ⟨rfl, ?mode⟩ (.cons ⟨rfl, ?content⟩
    (.cons ⟨rfl, ?darkMode⟩ (.cons ⟨rfl, ?theme⟩ (.cons ⟨rfl, ?variants⟩
    (.cons ⟨rfl, ?plugins⟩ .nil))))))
  case mode =>
    exact Reads.has hmode (fun hleft => by rw [hleft]; rfl) fun tree _ ⟨hname, hfound⟩ => by
      rw [hfound]
      exact agrees_mode hname
  case content =>
    have hkeys := hvalue hcontent
    rw [Json.Distinct] at hkeys
    exact .inr ⟨_, hcontent, agrees_content hkeys.1 hfiles⟩
  case darkMode =>
    apply Reads.has hdark
    · intro hleft
      rw [hleft]
      rfl
    · rintro _ - rfl
      exact agrees_darkMode found.darkMode
  case theme =>
    apply Reads.has htheme
    · rintro ⟨hfonts, hextend⟩
      rw [fontsTree, hfonts, hextend]
      rfl
    · rintro _ hmem ⟨theme, rfl, hfonts, hextend⟩
      exact agrees_theme (hvalue hmem) hfonts hextend
  case variants =>
    apply Reads.has hvariants
    · intro hextend
      rw [hextend]
      rfl
    · rintro _ hmem ⟨variants, rfl, hextend⟩
      exact agrees_variants (hvalue hmem) hextend
  case plugins =>
    apply Reads.has hplugins
    · intro hleft
      rw [hleft]
    · rintro _ hmem rfl
      have hitems := hvalue hmem
      rw [Json.Distinct] at hitems
      exact agrees_plugins hitems

end Config.Typed

theorem Schema.duplicates_of_check {options : LoadOptions} {document : Document}
    {checked : Checked Config} (h : check options document = .ok checked) :
    document.duplicates = [] := by
  rw [check] at h
  split at h
  · cases h
  · assumption

/-- A JSON text that is accepted as a configuration is read as the same one by the typed reader,
which looks neither for repeated keys nor at the schema. Overrides and plugins are the same trees,
with their entries in the same order. -/
theorem Config.readTyped_of_readText {text : String} {source? : Option Path} {options : LoadOptions}
    {checked : Checked Config} (h : readText .json text source? options = .ok checked) :
    Json.readTyped Typed.config text.toList = .ok checked.value.toTree ∧
      ∀ other : Config, other.toTree = checked.value.toTree → other = checked.value := by
  refine ⟨?_, fun other => toTree_injective⟩
  obtain ⟨document, hread, hcheck⟩ := bind_eq_ok.1 h
  rw [Format.read, Document.ofJson] at hread
  split at hread
  · next tree htree =>
    obtain rfl := Except.ok.inj hread
    have distinct : tree.Distinct := Json.repeated_eq_nil_iff.1 (Schema.duplicates_of_check hcheck)
    obtain ⟨-, hdescribes⟩ := Schema.describes_of_check (Document.wellFormed_ofTree tree) hcheck
    rw [Document.ofTree, Json.merged_of_distinct tree distinct] at hdescribes
    exact Json.readTyped_of_readChars (Typed.agrees_config distinct hdescribes) htree
  · cases hread

/-- A text whose keys come in another order than the fields, one of them spelled with an escape and
one passed over. -/
theorem Config.readTyped_of_readText_reordered :
    let text := "\x7b\"purge\": [1], \"plugins\": [\x7b\"b\": null, \"a\": []\x7d], " ++
      "\"\\u0063ontent\": \x7b\"files\": [\"a\"]\x7d\x7d"
    ∃ checked, readText .json text none ⟨.warn, true⟩ = .ok checked ∧
      Json.readTyped Typed.config text.toList = .ok checked.value.toTree := by
  intro text
  have haccepted : (readText .json text none ⟨.warn, true⟩).toOption.isSome := by decide +kernel
  cases h : readText .json text none ⟨.warn, true⟩ with
  | error e =>
    rw [h] at haccepted
    cases haccepted
  | ok checked => exact ⟨checked, rfl, (readTyped_of_readText h).1⟩

end CssBuild
