import CssBuild.Proofs.Config.Conformance

/-!
# CssBuild.Proofs.Config.Description

The configuration that a tree describes.

1. `Describes` relates a tree to the configuration that it stands for: parts
   that are left out have their defaults, all others are as they are written.
2. The value of a tree that conforms to the schema exists and is what the tree
   describes (`FromTree.config_of_conforms`).
3. So a document is accepted exactly when its tree conforms, and is never
   refused for having no value after it has been checked.
-/

namespace CssBuild

namespace Schema

/-! ## What a tree describes -/

/-- A part that is left out, with a condition on its default, or there, with one on its tree. -/
def Reads (entries : List (String × Json)) (key : String) (default : Prop) (p : Json → Prop) :
    Prop :=
  (key ∉ Entries.keys entries ∧ default) ∨ Present entries key p

/-- Overrides as they are written, in their order. -/
def ReadsOverrides (entries : List (String × Json)) (found : OrderedMap Json) : Prop :=
  Reads entries "extend" (found.toList = []) (· = .object found.toList)

/-- The configuration that a tree stands for. -/
def Describes (tree : Json) (config : Config) : Prop :=
  ∃ root, tree = .object root ∧
    Reads root "mode" (config.mode = .onDemand)
      (fun tree => IsName Mode.names tree ∧ config.mode = .onDemand) ∧
    Present root "content" (fun tree => ∃ content, tree = .object content ∧
      ("files", .strings (config.patterns.map Pattern.text)) ∈ content) ∧
    Reads root "darkMode" (config.darkMode = .media) (· = .string config.darkMode.name) ∧
    Reads root "theme" (config.fonts.toList = [] ∧ config.themeExtend.toList = [])
      (fun tree => ∃ theme, tree = .object theme ∧
        Reads theme "fontFamily" (config.fonts.toList = []) (· = Config.fontsTree config.fonts) ∧
        ReadsOverrides theme config.themeExtend) ∧
    Reads root "variants" (config.variantsExtend.toList = [])
      (fun tree => ∃ variants, tree = .object variants ∧
        ReadsOverrides variants config.variantsExtend) ∧
    Reads root "plugins" (config.plugins = []) (· = .array config.plugins)

end Schema

namespace Config.FromTree

open Schema
open Json (Cause)

/-! ## Lists and tables -/

section Lists

variable {α : Type}

theorem items_map (item : Json → Except Cause α) (tree : α → Json)
    (h : ∀ value, item (tree value) = .ok value) (values : List α) :
    items item (values.map tree) = .ok values := by
  induction values with
  | nil => rfl
  | cons value rest ih =>
    rw [List.map_cons, items, h, ih]
    rfl

theorem list_text (stack : FontStack) : list text (.strings stack) = .ok stack :=
  items_map text Json.string (fun _ => rfl) stack

theorem list_pattern (patterns : List Pattern) :
    list pattern (.strings (patterns.map Pattern.text)) = .ok patterns := by
  rw [Json.strings, List.map_map]
  exact items_map pattern (Json.string ∘ Pattern.text) (fun _ => rfl) patterns

theorem plugins_array (trees : List Json) : plugins (.array trees) = .ok trees := by
  have hitems := items_map .ok (fun tree : Json => tree) (fun _ => rfl) trees
  rwa [List.map_id'] at hitems

theorem fontEntries_map (seen : List String) (entries : List (String × FontStack))
    (h : (seen ++ Entries.keys entries).Nodup) :
    fontEntries seen (entries.map fun entry => (entry.1, .strings entry.2)) = .ok entries := by
  induction entries generalizing seen with
  | nil => rfl
  | cons entry rest ih =>
    obtain ⟨token, stack⟩ := entry
    have hnew : token ∉ seen := fun hmem =>
      (List.nodup_append.1 h).2.2 token hmem token List.mem_cons_self rfl
    have hrest := ih (token :: seen) (List.perm_middle.nodup_iff.1 h)
    rw [List.map_cons, fontEntries, list_text]
    simp only [bind, Except.bind, if_neg hnew, hrest]

/-- The tree of a font table is read back as the table. -/
theorem fonts_fontsTree (table : FontTable) : fonts (fontsTree table) = .ok table := by
  have hmap := fontEntries_map [] table.toList table.distinct
  rw [fontsTree, fonts, hmap, Except.map, OrderedMap.ofList_toList]

theorem fontsTree_of_isFontTable {tree : Json} (h : IsFontTable tree) (distinct : tree.Distinct) :
    ∃ table, tree = fontsTree table := by
  obtain ⟨entries, rfl, hstacks⟩ := h
  rw [Json.Distinct] at distinct
  obtain ⟨table, htable⟩ : ∃ table : List (String × FontStack),
      entries = table.map fun entry => (entry.1, .strings entry.2) := by
    have hkeys := distinct.1
    clear distinct hkeys
    induction entries with
    | nil => exact ⟨[], rfl⟩
    | cons entry rest ih =>
      obtain ⟨stack, -, hstack⟩ := hstacks entry List.mem_cons_self
      obtain ⟨table, rfl⟩ := ih fun e he => hstacks e (List.mem_cons_of_mem _ he)
      exact ⟨(entry.1, stack) :: table, by rw [List.map_cons, ← hstack]⟩
  have hkeys : (Entries.keys table).Nodup := by
    have hsame : Entries.keys entries = Entries.keys table := by simp [htable, Entries.keys]
    exact hsame ▸ distinct.1
  exact ⟨⟨table, hkeys⟩, by rw [htable]; rfl⟩

theorem overrides_object {entries : List (String × Json)} (distinct : (Entries.keys entries).Nodup) :
    ∃ found, overrides (.object entries) = .ok found ∧ found.toList = entries :=
  ⟨_, rfl, OrderedMap.toList_ofList distinct⟩

end Lists

/-! ## Records -/

section Records

variable {ρ α : Type} {fields : List (Field ρ)} {entries : List (String × Json)}

theorem put_of {name : String} {required : Bool} {read : Json → Except Cause α}
    {set : ρ → α → ρ} {record next : ρ} {tree : Json} :
    (Field.of name required read set).put record tree = .ok next ↔
      ∃ found, read tree = .ok found ∧ set record found = next := by
  simp only [Field.of]
  cases read tree <;> simp [Except.map]

@[simp] theorem name_of (name : String) (required : Bool) (read : Json → Except Cause α)
    (set : ρ → α → ρ) : (Field.of name required read set).name = name := rfl

/-- A part of a record that a field has nothing to do with. -/
def Leaves {β : Type} (field : Field ρ) (get : ρ → β) : Prop :=
  ∀ {record tree next}, field.put record tree = .ok next → get next = get record

@[simp] theorem leaves_of {β : Type} {name : String} {required : Bool}
    {read : Json → Except Cause α} {set : ρ → α → ρ} {get : ρ → β}
    (h : ∀ record value, get (set record value) = get record) :
    Leaves (.of name required read set) get := by
  intro record tree next hput
  obtain ⟨value, -, rfl⟩ := put_of.1 hput
  exact h record value

theorem accepts_put_of {name : String} {required : Bool} {read : Json → Except Cause α}
    {set : ρ → α → ρ} {tree : Json} (h : Accepts (read tree)) (record : ρ) :
    Accepts ((Field.of name required read set).put record tree) :=
  accepts_map.2 h

/-- A record can be filled if each of its fields that is there can be read. -/
theorem accepts_putEntries
    (h : ∀ field ∈ fields, ∀ tree, (field.name, tree) ∈ entries →
      ∀ record, Accepts (field.put record tree)) (draft : ρ) :
    Accepts (putEntries fields draft entries) := by
  induction entries generalizing draft with
  | nil => exact accepts_ok draft
  | cons entry rest ih =>
    obtain ⟨key, tree⟩ := entry
    have hrest := ih fun field hfield tree htree =>
      h field hfield tree (List.mem_cons_of_mem _ htree)
    cases hfind : fields.find? fun field => field.name = key with
    | none =>
      simp only [putEntries, hfind]
      exact hrest draft
    | some field =>
      obtain rfl : field.name = key := by simpa using List.find?_some hfind
      obtain ⟨next, hnext⟩ :=
        h field (List.mem_of_find?_eq_some hfind) tree List.mem_cons_self draft
      simp only [putEntries, hfind, hnext]
      exact hrest next

/-- What a field of a record is read as. -/
def Part (entries : List (String × Json)) (key : String) (default : α)
    (read : Json → Except Cause α) (found : α) : Prop :=
  (key ∉ Entries.keys entries ∧ found = default) ∨ ∃ tree, (key, tree) ∈ entries ∧ read tree = .ok found

/-- A part of a filled record is what its own field reads, if the other fields leave it alone. -/
theorem part_putEntries (get : ρ → α) (distinct : (Entries.keys entries).Nodup) {key : String}
    {read : Json → Except Cause α} {own : Field ρ}
    (hfind : (fields.find? fun field => field.name = key) = some own)
    (hown : ∀ {record tree next}, own.put record tree = .ok next → read tree = .ok (get next))
    (hother : ∀ field ∈ fields, field.name ≠ key → Leaves field get)
    {draft found : ρ} (h : putEntries fields draft entries = .ok found) :
    Part entries key (get draft) read (get found) := by
  induction entries generalizing draft with
  | nil =>
    cases h
    exact .inl ⟨List.not_mem_nil, rfl⟩
  | cons entry rest ih =>
    obtain ⟨k, tree⟩ := entry
    obtain ⟨hk, hrest⟩ := List.nodup_cons.1 distinct
    by_cases heq : k = key
    · subst heq
      cases hput : own.put draft tree with
      | error cause => simp [putEntries, hfind, hput, bind, Except.bind] at h
      | ok next =>
        simp only [putEntries, hfind, hput, bind, Except.bind] at h
        refine .inr ⟨tree, List.mem_cons_self, ?_⟩
        obtain ⟨-, hsame⟩ | ⟨other, hmem, -⟩ := ih hrest h
        · rw [hsame]
          exact hown hput
        · exact absurd (Entries.mem_keys_of_mem hmem) hk
    · have hlift {value : α} (hpart : Part rest key value read (get found)) :
          Part ((k, tree) :: rest) key value read (get found) := by
        refine hpart.imp (fun ⟨hkey, hsame⟩ => ⟨?_, hsame⟩) fun ⟨t, hmem, hread⟩ =>
          ⟨t, List.mem_cons_of_mem _ hmem, hread⟩
        rw [Entries.keys_cons, List.mem_cons, not_or]
        exact ⟨Ne.symm heq, hkey⟩
      cases hfound : fields.find? fun field => field.name = k with
      | none =>
        simp only [putEntries, hfound] at h
        exact hlift (ih hrest h)
      | some field =>
        have hname : field.name = k := by simpa using List.find?_some hfound
        cases hput : field.put draft tree with
        | error cause => simp [putEntries, hfound, hput, bind, Except.bind] at h
        | ok next =>
          simp only [putEntries, hfound, hput, bind, Except.bind] at h
          rw [← hother field (List.mem_of_find?_eq_some hfound) (hname ▸ heq) hput]
          exact hlift (ih hrest h)

/-- A part that a field sets is what the field reads, if the other fields leave it alone. -/
theorem part_of (get : ρ → α) (distinct : (Entries.keys entries).Nodup) {draft found : ρ}
    (hfound : putEntries fields draft entries = .ok found) {key : String} {required : Bool}
    {read : Json → Except Cause α} {set : ρ → α → ρ}
    (hfind : (fields.find? fun field => field.name = key) = some (.of key required read set))
    (hown : ∀ record value, get (set record value) = value)
    (hother : ∀ field ∈ fields, field.name ≠ key → Leaves field get) :
    Part entries key (get draft) read (get found) := by
  apply part_putEntries get distinct hfind _ hother hfound
  intro record tree next hput
  obtain ⟨value, hread, rfl⟩ := put_of.1 hput
  rw [hread, hown]

/-- An object is read as the record that its entries fill, if no field is missing. -/
theorem record_object {name : String} {draft found : ρ}
    (hrequired : ∀ field ∈ fields, field.required = true → field.name ∈ Entries.keys entries)
    (h : putEntries fields draft entries = .ok found) :
    record name fields draft (.object entries) = .ok found := by
  have hmissing :
      (fields.find? fun field => field.required && !Entries.has entries field.name) = none := by
    rw [List.find?_eq_none]
    intro field hfield
    simp only [Bool.and_eq_true, Bool.not_eq_true', not_and, Bool.not_eq_false]
    exact fun hreq => Entries.has_iff.2 (hrequired field hfield hreq)
  simp only [record, h, bind, Except.bind, hmissing]

theorem Part.reads {key : String} {default found : α} {read : Json → Except Cause α}
    {left : Prop} {p : Json → Prop} (h : Part entries key default read found)
    (hleft : found = default → left)
    (hp : ∀ tree, (key, tree) ∈ entries → read tree = .ok found → p tree) :
    Reads entries key left p :=
  h.imp (fun ⟨hkey, hsame⟩ => ⟨hkey, hleft hsame⟩)
    fun ⟨tree, hmem, hread⟩ => ⟨tree, hmem, hp tree hmem hread⟩

end Records

/-! ## Sections -/

theorem mode_of_isName {tree : Json} (h : IsName Mode.names tree) : mode tree = .ok .onDemand := by
  obtain ⟨name, hname, rfl⟩ := h
  simp [mode, choice, named, Mode.ofName?, hname]

theorem darkMode_of_isName {tree : Json} (h : IsName DarkMode.names tree) :
    ∃ found, darkMode tree = .ok found ∧ tree = .string found.name := by
  obtain ⟨name, hname, rfl⟩ := h
  simp only [DarkMode.names, List.mem_cons, List.not_mem_nil, or_false] at hname
  obtain rfl | rfl := hname
  · exact ⟨.media, rfl, rfl⟩
  · exact ⟨.className, rfl, rfl⟩

theorem content_of_isContent {policy : UnknownKeys} {tree : Json} (h : IsContent policy tree)
    (distinct : tree.Distinct) :
    ∃ patterns, content tree = .ok patterns ∧ ∃ entries, tree = .object entries ∧
      ("files", .strings (patterns.map Pattern.text)) ∈ entries := by
  obtain ⟨entries, rfl, -, files, hfiles, patterns, -, rfl, -⟩ := h
  rw [Json.Distinct] at distinct
  have hunique {tree : Json} (htree : ("files", tree) ∈ entries) :
      list pattern tree = .ok patterns := by
    rw [Entries.value_unique distinct.1 htree hfiles]
    exact list_pattern patterns
  obtain ⟨found, hfound⟩ : Accepts (putEntries contentFields [] entries) := by
    apply accepts_putEntries
    intro field hfield tree htree record
    rw [contentFields, List.mem_singleton] at hfield
    subst hfield
    exact accepts_put_of ⟨patterns, hunique htree⟩ record
  have hpart : Part entries "files" [] (list pattern) found :=
    part_of (fun found => found) distinct.1 hfound rfl (fun _ _ => rfl) (by simp [contentFields])
  have hkey := Entries.mem_keys_of_mem hfiles
  obtain rfl : patterns = found := by
    obtain ⟨hleft, -⟩ | ⟨tree, htree, hread⟩ := hpart
    · exact absurd hkey hleft
    · exact Except.ok.inj ((hunique htree).symm.trans hread)
  refine ⟨patterns, record_object (fun field hfield _ => ?_) hfound, entries, rfl, hfiles⟩
  rw [contentFields, List.mem_singleton] at hfield
  subst hfield
  exact hkey

theorem reads_overrides {entries : List (String × Json)} (distinct : (Json.object entries).Distinct)
    {found : OrderedMap Json} (h : Part entries "extend" .empty overrides found)
    (hobject : IfPresent entries "extend" IsObject) : ReadsOverrides entries found := by
  rw [Json.Distinct] at distinct
  apply h.reads (fun hempty => hempty ▸ rfl)
  intro tree htree hread
  obtain ⟨extend, rfl⟩ := hobject tree htree
  have hextend := Json.distinct_of_mem_entries distinct.2 htree
  rw [Json.Distinct] at hextend
  obtain ⟨value, hvalue, hlist⟩ := overrides_object hextend.1
  rw [← Except.ok.inj (hvalue.symm.trans hread), hlist]

theorem accepts_overrides {tree : Json} (h : IsObject tree) : Accepts (overrides tree) := by
  obtain ⟨entries, rfl⟩ := h
  exact ⟨_, rfl⟩

theorem theme_of_isTheme {policy : UnknownKeys} {tree : Json} (h : IsTheme policy tree)
    (distinct : tree.Distinct) :
    ∃ found, theme tree = .ok found ∧ ∃ entries, tree = .object entries ∧
      Reads entries "fontFamily" (found.1.toList = []) (· = fontsTree found.1) ∧
      ReadsOverrides entries found.2 := by
  obtain ⟨entries, rfl, -, hfonts, hextend⟩ := h
  have hkeys : (Entries.keys entries).Nodup := by rw [Json.Distinct] at distinct; exact distinct.1
  have hread {tree : Json} (htree : ("fontFamily", tree) ∈ entries) :
      ∃ table, tree = fontsTree table ∧ fonts tree = .ok table := by
    rw [Json.Distinct] at distinct
    obtain ⟨table, rfl⟩ := fontsTree_of_isFontTable (hfonts tree htree)
      (Json.distinct_of_mem_entries distinct.2 htree)
    exact ⟨table, rfl, fonts_fontsTree table⟩
  obtain ⟨found, hfound⟩ : Accepts (putEntries themeFields (.empty, .empty) entries) := by
    apply accepts_putEntries
    intro field hfield tree htree record
    simp only [themeFields, List.mem_cons, List.not_mem_nil, or_false] at hfield
    obtain rfl | rfl := hfield
    · obtain ⟨table, -, htable⟩ := hread htree
      exact accepts_put_of ⟨table, htable⟩ record
    · exact accepts_put_of (accepts_overrides (hextend tree htree)) record
  have hrequired : ∀ field ∈ themeFields, field.required = true →
      field.name ∈ Entries.keys entries := by simp [themeFields, Field.of]
  refine ⟨found, record_object hrequired hfound, entries, rfl, ?_, ?_⟩
  · have hpart : Part entries "fontFamily" .empty fonts found.1 :=
      part_of Prod.fst hkeys hfound rfl (fun _ _ => rfl) (by simp [themeFields])
    apply hpart.reads (fun hempty => hempty ▸ rfl)
    intro tree htree hvalue
    obtain ⟨table, rfl, htable⟩ := hread htree
    rw [Except.ok.inj (htable.symm.trans hvalue)]
  · have hpart : Part entries "extend" .empty overrides found.2 :=
      part_of Prod.snd hkeys hfound rfl (fun _ _ => rfl) (by simp [themeFields])
    exact reads_overrides distinct hpart hextend

theorem variants_of_isVariants {policy : UnknownKeys} {tree : Json} (h : IsVariants policy tree)
    (distinct : tree.Distinct) :
    ∃ found, variants tree = .ok found ∧ ∃ entries, tree = .object entries ∧
      ReadsOverrides entries found := by
  obtain ⟨entries, rfl, -, hextend⟩ := h
  have hkeys : (Entries.keys entries).Nodup := by rw [Json.Distinct] at distinct; exact distinct.1
  obtain ⟨found, hfound⟩ : Accepts (putEntries variantsFields .empty entries) := by
    apply accepts_putEntries
    intro field hfield tree htree record
    rw [variantsFields, List.mem_singleton] at hfield
    subst hfield
    exact accepts_put_of (accepts_overrides (hextend tree htree)) record
  have hpart : Part entries "extend" .empty overrides found :=
    part_of (fun found => found) hkeys hfound rfl (fun _ _ => rfl) (by simp [variantsFields])
  exact ⟨found, record_object (by simp [variantsFields, Field.of]) hfound, entries, rfl,
    reads_overrides distinct hpart hextend⟩

/-! ## Configurations -/

/-- Every field of a tree that conforms can be read. -/
theorem accepts_configFields {policy : UnknownKeys} {root : List (String × Json)}
    (h : Conforms policy (.object root)) (distinct : (Json.object root).Distinct) :
    Accepts (putEntries configFields (scanning []) root) := by
  obtain ⟨_, hroot, -, hmode, ⟨contentTree, hmem, hisContent⟩, hdark, htheme, hvariants,
    hplugins⟩ := h
  obtain rfl := Json.object.inj hroot
  rw [Json.Distinct] at distinct
  have hvalue {key : String} {tree : Json} (hmem : (key, tree) ∈ root) : tree.Distinct :=
    Json.distinct_of_mem_entries distinct.2 hmem
  apply accepts_putEntries
  intro field hfield tree htree record
  simp only [configFields, List.mem_cons, List.not_mem_nil, or_false] at hfield
  obtain rfl | rfl | rfl | rfl | rfl | rfl := hfield
  · exact accepts_put_of ⟨_, mode_of_isName (hmode tree htree)⟩ record
  · obtain ⟨patterns, hpatterns, -⟩ := content_of_isContent hisContent (hvalue hmem)
    rw [Entries.value_unique distinct.1 htree hmem]
    exact accepts_put_of ⟨patterns, hpatterns⟩ record
  · obtain ⟨value, hread, -⟩ := darkMode_of_isName (hdark tree htree)
    exact accepts_put_of ⟨value, hread⟩ record
  · obtain ⟨value, hread, -⟩ := theme_of_isTheme (htheme tree htree) (hvalue htree)
    exact accepts_put_of ⟨value, hread⟩ record
  · obtain ⟨value, hread, -⟩ := variants_of_isVariants (hvariants tree htree) (hvalue htree)
    exact accepts_put_of ⟨value, hread⟩ record
  · obtain ⟨items, rfl⟩ := hplugins tree htree
    exact accepts_put_of ⟨items, plugins_array items⟩ record

/-- The value of a tree that conforms exists, and is the configuration that the tree describes. -/
theorem config_of_conforms {policy : UnknownKeys} {tree : Json} (h : Conforms policy tree)
    (distinct : tree.Distinct) : ∃ found, config tree = .ok found ∧ Describes tree found := by
  have hconforms := h
  obtain ⟨root, rfl, -, hmode, ⟨contentTree, hmem, hisContent⟩, hdark, htheme, hvariants,
    hplugins⟩ := h
  obtain ⟨found, hfound⟩ := accepts_configFields hconforms distinct
  rw [Json.Distinct] at distinct
  obtain ⟨hkeys, hvalues⟩ := distinct
  have hvalue {key : String} {tree : Json} (hmem : (key, tree) ∈ root) : tree.Distinct :=
    Json.distinct_of_mem_entries hvalues hmem
  obtain ⟨patterns, hpatterns, hfiles⟩ := content_of_isContent hisContent (hvalue hmem)
  have hcontentPart : Part root "content" [] content found.patterns :=
    part_of Config.patterns hkeys hfound rfl (fun _ _ => rfl) (by simp [configFields])
  obtain rfl : patterns = found.patterns := by
    obtain ⟨hleft, -⟩ | ⟨tree, htree, hread⟩ := hcontentPart
    · exact absurd (Entries.mem_keys_of_mem hmem) hleft
    · rw [Entries.value_unique hkeys htree hmem] at hread
      exact Except.ok.inj (hpatterns.symm.trans hread)
  have hrequired : ∀ field ∈ configFields, field.required = true →
      field.name ∈ Entries.keys root := by
    have hkey := Entries.mem_keys_of_mem hmem
    simp [configFields, Field.of, hkey]
  refine ⟨found, record_object hrequired hfound, root, rfl, ?_, ⟨_, hmem, hfiles⟩, ?_, ?_, ?_, ?_⟩
  · have hpart : Part root "mode" .onDemand mode found.mode :=
      part_of Config.mode hkeys hfound rfl (fun _ _ => rfl) (by simp [configFields])
    exact hpart.reads id fun tree htree _ => ⟨hmode tree htree, rfl⟩
  · have hpart : Part root "darkMode" .media darkMode found.darkMode :=
      part_of Config.darkMode hkeys hfound rfl (fun _ _ => rfl) (by simp [configFields])
    apply hpart.reads id
    intro tree htree hread
    obtain ⟨value, hvalue, rfl⟩ := darkMode_of_isName (hdark tree htree)
    rw [Except.ok.inj (hvalue.symm.trans hread)]
  · have hpart : Part root "theme" (.empty, .empty) theme (found.fonts, found.themeExtend) :=
      part_of (fun config : Config => (config.fonts, config.themeExtend)) hkeys hfound rfl
        (fun _ _ => rfl) (by simp [configFields])
    refine hpart.reads (fun hempty => ?_) fun tree htree hread => ?_
    · exact ⟨by rw [(Prod.mk.inj hempty).1]; rfl, by rw [(Prod.mk.inj hempty).2]; rfl⟩
    · obtain ⟨value, hfoundTheme, hreads⟩ := theme_of_isTheme (htheme tree htree) (hvalue htree)
      obtain rfl := Except.ok.inj (hfoundTheme.symm.trans hread)
      exact hreads
  · have hpart : Part root "variants" .empty variants found.variantsExtend :=
      part_of Config.variantsExtend hkeys hfound rfl (fun _ _ => rfl) (by simp [configFields])
    apply hpart.reads (fun hempty => hempty ▸ rfl)
    intro tree htree hread
    obtain ⟨value, hfoundVariants, hreads⟩ :=
      variants_of_isVariants (hvariants tree htree) (hvalue htree)
    obtain rfl := Except.ok.inj (hfoundVariants.symm.trans hread)
    exact hreads
  · have hpart : Part root "plugins" [] plugins found.plugins :=
      part_of Config.plugins hkeys hfound rfl (fun _ _ => rfl) (by simp [configFields])
    apply hpart.reads id
    intro tree htree hread
    obtain ⟨items, rfl⟩ := hplugins tree htree
    rw [Except.ok.inj ((plugins_array items).symm.trans hread)]

end Config.FromTree

namespace Schema

/-! ## Errors of the checks -/

/-- A result that is not the error against a tree without a value. -/
def HasValue {α : Type} (result : Except ConfigError α) : Prop :=
  ∀ key actual, result ≠ .error (.invalidType key recordName actual)

section Errors

variable {α β : Type}

theorem hasValue_ok (found : α) : HasValue (.ok found) := by
  intro key actual h
  cases h

theorem hasValue_error {e : ConfigError} (h : ∀ key actual, e ≠ .invalidType key recordName actual) :
    HasValue (.error e : Except ConfigError α) := by
  intro key actual heq
  exact h key actual (Except.error.inj heq)

theorem hasValue_bind {result : Except ConfigError α} {next : α → Except ConfigError β}
    (h : HasValue result) (hnext : ∀ found, HasValue (next found)) :
    HasValue (result >>= next) := by
  cases result with
  | error e =>
    intro key actual heq
    exact h key actual (congrArg Except.error (Except.error.inj heq))
  | ok found => exact hnext found

theorem wrongKind_ne {key expected : String} {tree : Json} (h : expected ≠ recordName)
    (k actual : String) : wrongKind key expected tree ≠ .invalidType k recordName actual := by
  intro heq
  exact h (ConfigError.invalidType.inj heq).2.1

theorem hasValue_objectAt (key : String) (tree : Json) : HasValue (objectAt key tree) := by
  cases tree with
  | object entries => exact hasValue_ok entries
  | _ => exact hasValue_error (wrongKind_ne (by decide))

theorem hasValue_arrayAt (key : String) (tree : Json) : HasValue (arrayAt key tree) := by
  cases tree with
  | array items => exact hasValue_ok items
  | _ => exact hasValue_error (wrongKind_ne (by decide))

theorem hasValue_textAt (key : String) (tree : Json) : HasValue (textAt key tree) := by
  cases tree with
  | string s => exact hasValue_ok s
  | _ => exact hasValue_error (wrongKind_ne (by decide))

theorem hasValue_unknownKeys (policy : UnknownKeys) (path : String) (permitted : List String)
    (entries : List (String × Json)) : HasValue (unknownKeys policy path permitted entries) := by
  induction entries with
  | nil => exact hasValue_ok []
  | cons entry rest ih =>
    obtain ⟨key, value⟩ := entry
    by_cases h : key ∈ permitted
    · cases policy <;> simpa only [unknownKeys, if_pos h] using ih
    · cases policy with
      | refuse =>
        simp only [unknownKeys, if_neg h]
        exact hasValue_error (by simp)
      | warn =>
        simp only [unknownKeys, if_neg h]
        exact hasValue_bind ih fun more => hasValue_ok _

theorem hasValue_required (entries : List (String × Json)) (key path : String) :
    HasValue (required entries key path) := by
  rw [required]
  split
  · exact hasValue_ok _
  · exact hasValue_error (by simp)

theorem hasValue_checkOptional {entries : List (String × Json)} {key : String}
    {check : Json → Check} (h : ∀ tree, HasValue (check tree)) :
    HasValue (checkOptional entries key check) := by
  rw [checkOptional]
  split
  · exact h _
  · exact hasValue_ok []

theorem hasValue_checkName (key : String) (names : List String) (tree : Json) :
    HasValue (checkName key names tree) := by
  rw [checkName]
  split
  · split
    · exact hasValue_ok []
    · exact hasValue_error (by simp)
  · exact hasValue_error (by simp)

theorem hasValue_checkOverrides (path : String) (tree : Json) :
    HasValue (checkOverrides path tree) :=
  hasValue_bind (hasValue_objectAt path tree) fun _ => hasValue_ok []

theorem hasValue_checkPatterns (i : Nat) (trees : List Json) : HasValue (checkPatterns i trees) := by
  induction trees generalizing i with
  | nil => exact hasValue_ok []
  | cons tree rest ih =>
    rw [checkPatterns]
    apply hasValue_bind (hasValue_textAt _ tree)
    intro text
    split
    · exact hasValue_error (by simp)
    · exact ih (i + 1)

theorem hasValue_checkContent (policy : UnknownKeys) (root : List (String × Json)) :
    HasValue (checkContent policy root) := by
  apply hasValue_bind (hasValue_required _ _ _)
  intro tree
  apply hasValue_bind (hasValue_objectAt _ tree)
  intro content
  apply hasValue_bind (hasValue_unknownKeys _ _ _ content)
  intro unknown
  apply hasValue_bind (hasValue_required _ _ _)
  intro tree
  apply hasValue_bind (hasValue_arrayAt _ tree)
  intro files
  split
  · exact hasValue_error (by simp)
  · exact hasValue_bind (hasValue_checkPatterns 0 files) fun _ => hasValue_ok unknown

theorem hasValue_checkFamilies (path : String) (i : Nat) (trees : List Json) :
    HasValue (checkFamilies path i trees) := by
  induction trees generalizing i with
  | nil => exact hasValue_ok []
  | cons tree rest ih => exact hasValue_bind (hasValue_textAt _ tree) fun _ => ih (i + 1)

theorem hasValue_checkStack (fontFallbacks : Bool) (token : String) (tree : Json) :
    HasValue (checkStack fontFallbacks token tree) := by
  apply hasValue_bind (hasValue_arrayAt _ tree)
  intro families
  split
  · exact hasValue_error (by simp)
  · exact hasValue_bind (hasValue_checkFamilies _ 0 families) fun _ => hasValue_ok _

theorem hasValue_checkStacks (fontFallbacks : Bool) (entries : List (String × Json)) :
    HasValue (checkStacks fontFallbacks entries) := by
  induction entries with
  | nil => exact hasValue_ok []
  | cons entry rest ih =>
    exact hasValue_bind (hasValue_checkStack _ entry.1 entry.2) fun _ =>
      hasValue_bind ih fun _ => hasValue_ok _

theorem hasValue_checkFonts (fontFallbacks : Bool) (tree : Json) :
    HasValue (checkFonts fontFallbacks tree) :=
  hasValue_bind (hasValue_objectAt _ tree) fun table => hasValue_checkStacks fontFallbacks table

theorem hasValue_checkTheme (options : LoadOptions) (tree : Json) :
    HasValue (checkTheme options tree) := by
  apply hasValue_bind (hasValue_objectAt _ tree)
  intro theme
  apply hasValue_bind (hasValue_unknownKeys _ _ _ theme)
  intro unknown
  apply hasValue_bind (hasValue_checkOptional (hasValue_checkFonts _))
  intro fonts
  exact hasValue_bind (hasValue_checkOptional (hasValue_checkOverrides _)) fun _ => hasValue_ok _

theorem hasValue_checkVariants (policy : UnknownKeys) (tree : Json) :
    HasValue (checkVariants policy tree) := by
  apply hasValue_bind (hasValue_objectAt _ tree)
  intro variants
  apply hasValue_bind (hasValue_unknownKeys _ _ _ variants)
  intro unknown
  exact hasValue_bind (hasValue_checkOptional (hasValue_checkOverrides _)) fun _ => hasValue_ok _

theorem hasValue_checkTree (options : LoadOptions) (tree : Json) :
    HasValue (checkTree options tree) := by
  apply hasValue_bind (hasValue_objectAt _ tree)
  intro root
  apply hasValue_bind (hasValue_unknownKeys _ _ _ root)
  intro unknown
  apply hasValue_bind (hasValue_checkOptional (hasValue_checkName _ _))
  intro _
  apply hasValue_bind (hasValue_checkContent _ root)
  intro content
  apply hasValue_bind (hasValue_checkOptional (hasValue_checkName _ _))
  intro _
  apply hasValue_bind (hasValue_checkOptional (hasValue_checkTheme options))
  intro theme
  apply hasValue_bind (hasValue_checkOptional (hasValue_checkVariants _))
  intro variants
  refine hasValue_bind (hasValue_checkOptional fun tree => ?_) fun _ => hasValue_ok _
  exact hasValue_bind (hasValue_arrayAt _ tree) fun _ => hasValue_ok []

end Errors

/-! ## Documents -/

/-- A checked document is the configuration that it describes. -/
theorem check_of_conforms {options : LoadOptions} {document : Document}
    (wellFormed : document.WellFormed) (single : document.duplicates = [])
    (h : Conforms options.unknownKeys document.root) :
    ∃ config warnings, Config.FromTree.config document.root = .ok config ∧
      check options document = .ok ⟨config, warnings⟩ ∧ Describes document.root config := by
  obtain ⟨warnings, hwarnings⟩ := (accepts_checkTree options wellFormed).2 h
  obtain ⟨config, hconfig, hdescribes⟩ := Config.FromTree.config_of_conforms h wellFormed
  refine ⟨config, warnings, hconfig, ?_, hdescribes⟩
  simp only [check, single, hwarnings, hconfig, bind, Except.bind]

/-- A document without repeated keys is accepted exactly when its tree conforms to the schema. It
is then the configuration that its tree describes, and no document is refused because a checked
tree has no value. -/
theorem check_accepts_iff_conforms (options : LoadOptions) (document : Document)
    (wellFormed : document.WellFormed) (single : document.duplicates = []) :
    ((∃ checked, check options document = .ok checked) ↔
      Conforms options.unknownKeys document.root) ∧
    (Conforms options.unknownKeys document.root →
      ∃ config warnings, Config.FromTree.config document.root = .ok config ∧
        check options document = .ok ⟨config, warnings⟩ ∧ Describes document.root config) ∧
    ∀ key actual, check options document ≠ .error (.invalidType key recordName actual) := by
  have hconforms : Accepts (check options document) → Conforms options.unknownKeys document.root := by
    intro haccepts
    simp only [check, single] at haccepts
    obtain ⟨warnings, hwarnings, -⟩ := accepts_bind.1 haccepts
    exact (accepts_checkTree options wellFormed).1 ⟨warnings, hwarnings⟩
  refine ⟨⟨hconforms, fun h => ?_⟩, check_of_conforms wellFormed single, fun key actual herror => ?_⟩
  · obtain ⟨config, warnings, -, hcheck, -⟩ := check_of_conforms wellFormed single h
    exact ⟨_, hcheck⟩
  · cases hwarnings : checkTree options document.root with
    | error e =>
      simp only [check, single, hwarnings, bind, Except.bind] at herror
      have hsame : e = .invalidType key recordName actual := Except.error.inj herror
      exact hasValue_checkTree options document.root key actual (hwarnings.trans (hsame ▸ rfl))
    | ok warnings =>
      have h := (accepts_checkTree options wellFormed).1 ⟨warnings, hwarnings⟩
      obtain ⟨config, _, -, hcheck, -⟩ := check_of_conforms wellFormed single h
      rw [hcheck] at herror
      cases herror

/-- A tree with the longer name of the mode and a key that is passed over. -/
theorem check_accepts_justInTime :
    let tree : Json := .object [("mode", .string "just-in-time"),
      ("content", .object [("files", .strings ["a"])]), ("purge", .null)]
    ∃ config warnings, check ⟨.warn, true⟩ ⟨tree, []⟩ = .ok ⟨config, warnings⟩ ∧
      Describes tree config := by
  intro tree
  have distinct : tree.Distinct := by
    simp [tree, Json.strings, Json.Distinct, Json.DistinctEntries, Json.DistinctItems,
      Entries.keys]
  have accepted := check_accepts_iff_conforms ⟨.warn, true⟩ ⟨tree, []⟩ distinct rfl
  have conforms := accepted.1.1 ⟨_, rfl⟩
  obtain ⟨config, warnings, -, hcheck, hdescribes⟩ := accepted.2.1 conforms
  exact ⟨config, warnings, hcheck, hdescribes⟩

end Schema

end CssBuild
