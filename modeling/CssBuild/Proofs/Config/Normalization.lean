import CssBuild.Proofs.Config.Leniency
import CssBuild.Proofs.Config.Validity

/-!
# CssBuild.Proofs.Config.Normalization

Configurations and their own trees.

1. The tree of a valid configuration conforms to the schema and describes the
   configuration, in whatever order its parts stand, so it is accepted as the
   configuration (`Config.Valid.check_of_perm`).
2. A check warns about keys outside the schema and about the font stacks of the
   configuration that the tree describes, and about nothing else
   (`warnings_of_checkTree`).
3. So a configuration that was accepted is accepted again from its own tree,
   with the warnings about its font stacks (`check_toTree`).
-/

namespace CssBuild

namespace Config

/-! ## Parts of the tree -/

/-- The tree of the content. -/
def contentTree (config : Config) : Json :=
  .single "files" (.strings (config.patterns.map Pattern.text))

/-- The tree of the theme. -/
def themeTree (config : Config) : Json :=
  .object [("fontFamily", fontsTree config.fonts), ("extend", .object config.themeExtend.toList)]

/-- The tree of the variants. -/
def variantsTree (config : Config) : Json := .single "extend" (.object config.variantsExtend.toList)

/-- The parts, in the order of the schema. -/
def parts (config : Config) : List (String × Json) :=
  [("mode", .string config.mode.name), ("content", config.contentTree),
    ("darkMode", .string config.darkMode.name), ("theme", config.themeTree),
    ("variants", config.variantsTree), ("plugins", .array config.plugins)]

theorem toTree_eq (config : Config) : config.toTree = .object config.parts := rfl

/-! ## Trees that repeat no key -/

theorem distinct_strings (values : List String) : Json.DistinctItems (values.map .string) := by
  apply Json.distinctItems_of_forall
  intro item hitem
  obtain ⟨value, -, rfl⟩ := List.mem_map.1 hitem
  trivial

theorem distinct_fontsTree (fonts : FontTable) : (fontsTree fonts).Distinct := by
  rw [fontsTree, Json.Distinct]
  constructor
  · have hkeys : Entries.keys (fonts.toList.map fun entry => (entry.1, Json.strings entry.2)) =
        Entries.keys fonts.entries := by
      simp [Entries.keys, OrderedMap.toList]
    rw [hkeys]
    exact fonts.distinct
  · apply Json.distinctEntries_of_forall
    intro entry hentry
    obtain ⟨found, -, rfl⟩ := List.mem_map.1 hentry
    rw [Json.strings, Json.Distinct]
    exact distinct_strings found.2

theorem distinct_object {found : OrderedMap Json} (h : Json.DistinctEntries found.toList) :
    (Json.object found.toList).Distinct := by
  rw [Json.Distinct]
  exact ⟨found.distinct, h⟩

theorem distinct_array {items : List Json} (h : Json.DistinctItems items) :
    (Json.array items).Distinct := by
  rw [Json.Distinct]
  exact h

theorem Valid.distinct_toTree {config : Config} (h : config.Valid) : config.toTree.Distinct := by
  have hcontent : config.contentTree.Distinct := by
    rw [contentTree, Json.single, Json.Distinct]
    refine ⟨by simp, ?_, trivial⟩
    rw [Json.strings, Json.Distinct]
    exact distinct_strings _
  have htheme : config.themeTree.Distinct := by
    rw [themeTree, Json.Distinct]
    exact ⟨by simp, distinct_fontsTree config.fonts, distinct_object h.themeExtend, trivial⟩
  have hvariants : config.variantsTree.Distinct := by
    rw [variantsTree, Json.single, Json.Distinct]
    exact ⟨by simp, distinct_object h.variantsExtend, trivial⟩
  rw [toTree_eq, Json.Distinct]
  exact ⟨by simp [parts], trivial, hcontent, trivial, htheme, hvariants, distinct_array h.plugins,
    trivial⟩

/-! ## The schema and the tree -/

theorem Valid.isContent {config : Config} (h : config.Valid) (policy : UnknownKeys) :
    Schema.IsContent policy config.contentTree := by
  have hknown : Schema.KnownKeys policy ["files"]
      [("files", .strings (config.patterns.map Pattern.text))] := fun _ _ hkey => hkey
  exact ⟨_, rfl, hknown, _, List.mem_singleton_self _, config.patterns, h.patterns_ne, rfl, h.globs⟩

theorem Valid.isTheme {config : Config} (h : config.Valid) (policy : UnknownKeys) :
    Schema.IsTheme policy config.themeTree := by
  have hstacks : Schema.IsFontTable (fontsTree config.fonts) := by
    refine ⟨_, rfl, fun entry hentry => ?_⟩
    obtain ⟨found, hfound, rfl⟩ := List.mem_map.1 hentry
    exact ⟨found.2, h.fontStacks found hfound, rfl⟩
  refine ⟨_, rfl, fun _ _ hkey => hkey, ?_, ?_⟩
  · intro fonts hfonts
    obtain rfl : fonts = fontsTree config.fonts := by simpa using hfonts
    exact hstacks
  · intro extend hextend
    exact ⟨_, by simpa using hextend⟩

theorem isVariants_variantsTree (config : Config) (policy : UnknownKeys) :
    Schema.IsVariants policy config.variantsTree := by
  refine ⟨_, rfl, fun _ _ hkey => hkey, ?_⟩
  intro extend hextend
  exact ⟨_, by simpa using hextend⟩

/-- The tree of a valid configuration conforms to the schema, in whatever order its parts stand. -/
theorem Valid.conforms_of_perm {config : Config} (h : config.Valid) {root : List (String × Json)}
    (hperm : root.Perm config.parts) (policy : UnknownKeys) :
    Schema.Conforms policy (.object root) := by
  have hpart {key : String} {tree value : Json}
      (hvalue : ∀ found, (key, found) ∈ config.parts → found = value) (htree : (key, tree) ∈ root) :
      tree = value := hvalue tree (hperm.mem_iff.1 htree)
  have hknown : Schema.KnownKeys policy Schema.rootKeys root := by
    intro _ key hkey
    have hmem := (hperm.map Prod.fst).mem_iff.1 hkey
    simpa [Schema.rootKeys, parts] using hmem
  refine ⟨root, rfl, hknown, ?_, ?_, ?_, ?_, ?_, ?_⟩
  · intro tree htree
    obtain rfl := @hpart "mode" tree (.string config.mode.name) (by simp [parts]) htree
    exact ⟨config.mode.name, by cases config.mode; decide, rfl⟩
  · exact ⟨config.contentTree, hperm.mem_iff.2 (by simp [parts]), h.isContent policy⟩
  · intro tree htree
    obtain rfl := @hpart "darkMode" tree (.string config.darkMode.name) (by simp [parts]) htree
    exact ⟨config.darkMode.name, by cases config.darkMode <;> decide, rfl⟩
  · intro tree htree
    obtain rfl := @hpart "theme" tree config.themeTree (by simp [parts]) htree
    exact h.isTheme policy
  · intro tree htree
    obtain rfl := @hpart "variants" tree config.variantsTree (by simp [parts]) htree
    exact config.isVariants_variantsTree policy
  · intro tree htree
    obtain rfl := @hpart "plugins" tree (.array config.plugins) (by simp [parts]) htree
    exact ⟨_, rfl⟩

/-- The tree of a configuration describes it, in whatever order its parts stand. -/
theorem describes_of_perm (config : Config) {root : List (String × Json)}
    (hperm : root.Perm config.parts) : Schema.Describes (.object root) config := by
  have hpart {key : String} {tree : Json} (hmem : (key, tree) ∈ config.parts) :
      (key, tree) ∈ root := hperm.mem_iff.2 hmem
  refine ⟨root, rfl, ?_, ?_, ?_, ?_, ?_, ?_⟩
  · refine .inr ⟨.string config.mode.name, hpart (by simp [parts]), ?_, ?_⟩
    · exact ⟨config.mode.name, by cases config.mode; decide, rfl⟩
    · cases h : config.mode
      rfl
  · exact ⟨config.contentTree, hpart (by simp [parts]), _, rfl, List.mem_singleton_self _⟩
  · exact .inr ⟨.string config.darkMode.name, hpart (by simp [parts]), rfl⟩
  · refine .inr ⟨config.themeTree, hpart (by simp [parts]), _, rfl, ?_, ?_⟩
    · exact .inr ⟨_, List.mem_cons_self, rfl⟩
    · exact .inr ⟨_, List.mem_cons_of_mem _ (List.mem_singleton_self _), rfl⟩
  · refine .inr ⟨config.variantsTree, hpart (by simp [parts]), _, rfl, ?_⟩
    exact .inr ⟨_, List.mem_singleton_self _, rfl⟩
  · exact .inr ⟨.array config.plugins, hpart (by simp [parts]), rfl⟩

/-- A valid configuration is accepted from its own tree, in whatever order the parts stand. -/
theorem Valid.check_of_perm {config : Config} (h : config.Valid) {root : List (String × Json)}
    (distinct : (Json.object root).Distinct) (hperm : root.Perm config.parts)
    (options : LoadOptions) :
    ∃ warnings, Schema.check options ⟨.object root, []⟩ = .ok ⟨config, warnings⟩ := by
  obtain ⟨found, warnings, -, hcheck, hdescribes⟩ :=
    @Schema.check_of_conforms options ⟨.object root, []⟩ distinct rfl
      (h.conforms_of_perm hperm options.unknownKeys)
  obtain rfl := Schema.describes_unique distinct hdescribes (config.describes_of_perm hperm)
  exact ⟨warnings, hcheck⟩

end Config

/-- Whether a warning is about a font stack. -/
def Warning.isFallback : Warning → Bool
  | nonGenericFallback _ _ => true
  | _ => false

namespace Schema

/-! ## Warnings about font stacks -/

/-- What there is to warn about in the stack of a token. -/
def stackWarnings (fontFallbacks : Bool) (entry : String × FontStack) : List Warning :=
  match entry.2.getLast? with
  | some family => fallbackWarnings fontFallbacks entry.1 (.string family)
  | none => []

/-- What there is to warn about in the stacks of a table, in the order of its tokens. -/
def fontWarnings (fontFallbacks : Bool) (fonts : FontTable) : List Warning :=
  fonts.toList.flatMap (stackWarnings fontFallbacks)

theorem isFallback_of_mem_fontWarnings {fontFallbacks : Bool} {fonts : FontTable} {warning : Warning}
    (h : warning ∈ fontWarnings fontFallbacks fonts) : warning.isFallback = true := by
  obtain ⟨entry, -, hmem⟩ := List.mem_flatMap.1 h
  rw [stackWarnings] at hmem
  split at hmem
  · simp only [fallbackWarnings, Json.text?] at hmem
    split at hmem
    · rw [List.mem_singleton.1 hmem]
      rfl
    · cases hmem
  · cases hmem

theorem checkStack_strings {fontFallbacks : Bool} {entry : String × FontStack} {found : List Warning}
    (h : checkStack fontFallbacks entry.1 (.strings entry.2) = .ok found) :
    found = stackWarnings fontFallbacks entry := by
  obtain ⟨items, hitems, h⟩ := bind_eq_ok.1 h
  obtain rfl := Except.ok.inj hitems
  rw [stackWarnings]
  cases hlast : entry.2.getLast? with
  | none =>
    rw [List.getLast?_map, hlast] at h
    cases h
  | some family =>
    rw [List.getLast?_map, hlast] at h
    obtain ⟨_, -, h⟩ := bind_eq_ok.1 h
    exact (Except.ok.inj h).symm

theorem checkStacks_fontsTree {fontFallbacks : Bool} {entries : List (String × FontStack)}
    {found : List Warning}
    (h : checkStacks fontFallbacks (entries.map fun entry => (entry.1, .strings entry.2)) =
      .ok found) : found = entries.flatMap (stackWarnings fontFallbacks) := by
  induction entries generalizing found with
  | nil => exact (Except.ok.inj h).symm
  | cons entry rest ih =>
    obtain ⟨first, hfirst, h⟩ := bind_eq_ok.1 h
    obtain ⟨more, hmore, h⟩ := bind_eq_ok.1 h
    rw [List.flatMap_cons, ← checkStack_strings hfirst, ← ih hmore]
    exact (Except.ok.inj h).symm

/-! ## Warnings about keys -/

/-- Warnings about keys outside the schema, which are none where such keys are refused. -/
def AboutKeys (policy : UnknownKeys) (found : List Warning) : Prop :=
  (∀ warning ∈ found, warning.isUnknownKey = true) ∧ (policy = .refuse → found = [])

theorem aboutKeys_unknownKeys {policy : UnknownKeys} {path : String} {permitted : List String}
    {entries : List (String × Json)} {found : List Warning}
    (h : unknownKeys policy path permitted entries = .ok found) : AboutKeys policy found := by
  cases policy with
  | refuse =>
    obtain rfl := eq_nil_of_unknownKeys h
    exact ⟨by simp, fun _ => rfl⟩
  | warn =>
    rw [unknownKeys_warn] at h
    obtain rfl := Except.ok.inj h
    refine ⟨fun warning hwarning => ?_, fun hpolicy => by cases hpolicy⟩
    obtain ⟨path, -, rfl⟩ := List.mem_map.1 hwarning
    rfl

theorem AboutKeys.append {policy : UnknownKeys} {found more : List Warning}
    (h : AboutKeys policy found) (hmore : AboutKeys policy more) :
    AboutKeys policy (found ++ more) :=
  ⟨List.forall_mem_append.2 ⟨h.1, hmore.1⟩, fun hpolicy => by rw [h.2 hpolicy, hmore.2 hpolicy]; rfl⟩

theorem AboutKeys.filter_isFallback {policy : UnknownKeys} {found : List Warning}
    (h : AboutKeys policy found) : found.filter Warning.isFallback = [] := by
  refine List.filter_eq_nil_iff.2 fun warning hwarning => ?_
  have hunknown := h.1 warning hwarning
  cases warning with
  | unknownKey key => exact Bool.false_ne_true
  | _ => cases hunknown

theorem aboutKeys_checkContent {policy : UnknownKeys} {root : List (String × Json)}
    {found : List Warning} (h : checkContent policy root = .ok found) : AboutKeys policy found := by
  obtain ⟨_, -, h⟩ := bind_eq_ok.1 h
  obtain ⟨_, -, h⟩ := bind_eq_ok.1 h
  obtain ⟨unknown, hunknown, h⟩ := bind_eq_ok.1 h
  obtain ⟨_, -, h⟩ := bind_eq_ok.1 h
  obtain ⟨files, -, h⟩ := bind_eq_ok.1 h
  split at h
  · cases h
  · obtain ⟨_, -, h⟩ := bind_eq_ok.1 h
    rw [← Except.ok.inj h]
    exact aboutKeys_unknownKeys hunknown

theorem aboutKeys_checkVariants {policy : UnknownKeys} {root : List (String × Json)}
    {found : List Warning}
    (h : checkOptional root "variants" (checkVariants policy) = .ok found) :
    AboutKeys policy found := by
  rw [checkOptional] at h
  split at h
  · obtain ⟨_, -, h⟩ := bind_eq_ok.1 h
    obtain ⟨unknown, hunknown, h⟩ := bind_eq_ok.1 h
    obtain ⟨_, -, h⟩ := bind_eq_ok.1 h
    rw [← Except.ok.inj h]
    exact aboutKeys_unknownKeys hunknown
  · obtain rfl := Except.ok.inj h
    exact ⟨by simp, fun _ => rfl⟩

/-! ## All warnings -/

theorem find?_of_reads {entries : List (String × Json)} {key : String} {default : Prop}
    {p : Json → Prop} (distinct : (Entries.keys entries).Nodup) (h : Reads entries key default p) :
    (Entries.find? entries key = none ∧ default) ∨
      ∃ tree, Entries.find? entries key = some tree ∧ (key, tree) ∈ entries ∧ p tree := by
  refine h.imp (fun ⟨hkey, hleft⟩ => ⟨Entries.find?_eq_none_iff.2 hkey, hleft⟩) ?_
  rintro ⟨tree, htree, hp⟩
  exact ⟨tree, (Entries.find?_eq_some_iff distinct).2 htree, htree, hp⟩

/-- The fonts of a theme are warned about as those of the configuration that it describes. -/
theorem checkFonts_of_reads {fontFallbacks : Bool} {theme : List (String × Json)} {fonts : FontTable}
    (distinct : (Entries.keys theme).Nodup)
    (hfonts : Reads theme "fontFamily" (fonts.toList = []) (· = Config.fontsTree fonts))
    {found : List Warning}
    (h : checkOptional theme "fontFamily" (checkFonts fontFallbacks) = .ok found) :
    found = fontWarnings fontFallbacks fonts := by
  rw [checkOptional] at h
  obtain ⟨hfind, hleft⟩ | ⟨_, hfind, -, rfl⟩ := find?_of_reads distinct hfonts
  · rw [hfind] at h
    rw [fontWarnings, hleft]
    exact (Except.ok.inj h).symm
  · rw [hfind] at h
    exact checkStacks_fontsTree h

/-- A check warns about unknown keys and about the font stacks of the configuration that the tree
describes. -/
theorem warnings_of_checkTree {options : LoadOptions} {tree : Json} (distinct : tree.Distinct)
    {config : Config} (hdescribes : Describes tree config) {found : List Warning}
    (h : checkTree options tree = .ok found) :
    ∃ before after, found = before ++ fontWarnings options.fontFallbacks config.fonts ++ after ∧
      AboutKeys options.unknownKeys before ∧ AboutKeys options.unknownKeys after := by
  obtain ⟨root, rfl, -, -, -, htheme, -, -⟩ := hdescribes
  rw [Json.Distinct] at distinct
  obtain ⟨entries, hentries, h⟩ := bind_eq_ok.1 h
  obtain rfl := Except.ok.inj hentries
  obtain ⟨unknown, hunknown, h⟩ := bind_eq_ok.1 h
  obtain ⟨_, -, h⟩ := bind_eq_ok.1 h
  obtain ⟨content, hcontent, h⟩ := bind_eq_ok.1 h
  obtain ⟨_, -, h⟩ := bind_eq_ok.1 h
  obtain ⟨fonts, hfonts, h⟩ := bind_eq_ok.1 h
  obtain ⟨variants, hvariants, h⟩ := bind_eq_ok.1 h
  obtain ⟨_, -, h⟩ := bind_eq_ok.1 h
  obtain rfl := Except.ok.inj h
  have hbefore := (aboutKeys_unknownKeys hunknown).append (aboutKeys_checkContent hcontent)
  rw [checkOptional] at hfonts
  obtain ⟨hfind, hleft, -⟩ | ⟨_, hfind, hmem, theme, rfl, hreads, -⟩ :=
    find?_of_reads distinct.1 htheme
  · rw [hfind] at hfonts
    obtain rfl := Except.ok.inj hfonts
    refine ⟨unknown ++ content, variants, ?_, hbefore, aboutKeys_checkVariants hvariants⟩
    rw [fontWarnings, hleft]
    rfl
  · have hkeys := Json.distinct_of_mem_entries distinct.2 hmem
    rw [Json.Distinct] at hkeys
    rw [hfind] at hfonts
    obtain ⟨entries, hentries, hfonts⟩ := bind_eq_ok.1 hfonts
    obtain rfl := Except.ok.inj hentries
    obtain ⟨keys, hunknown, hfonts⟩ := bind_eq_ok.1 hfonts
    obtain ⟨found, hfound, hfonts⟩ := bind_eq_ok.1 hfonts
    obtain ⟨_, -, hfonts⟩ := bind_eq_ok.1 hfonts
    obtain rfl := Except.ok.inj hfonts
    obtain rfl := checkFonts_of_reads hkeys.1 hreads hfound
    refine ⟨unknown ++ content ++ keys, variants, ?_,
      hbefore.append (aboutKeys_unknownKeys hunknown), aboutKeys_checkVariants hvariants⟩
    simp only [List.append_assoc]

/-! ## Accepted configurations -/

/-- A configuration that was accepted is accepted again from its own tree where unknown keys are
refused: the same configuration, with the warnings about its font stacks and no others, and with
the same tree. -/
theorem check_toTree {options : LoadOptions} {document : Document} {config : Config}
    {warnings : List Warning} (wellFormed : document.WellFormed)
    (h : check options document = .ok ⟨config, warnings⟩) :
    ∃ again, check { options with unknownKeys := .refuse } ⟨config.toTree, []⟩ = .ok again ∧
      again.value = config ∧ again.warnings = warnings.filter Warning.isFallback ∧
      again.value.toTree = config.toTree := by
  obtain ⟨hconforms, hdescribes⟩ := describes_of_check wellFormed h
  have valid : config.Valid := valid_of_describes hconforms wellFormed hdescribes
  have distinct := valid.distinct_toTree
  obtain ⟨strict, hcheck⟩ := valid.check_of_perm distinct (List.Perm.refl _)
    { options with unknownKeys := .refuse }
  have hstrict : strict = fontWarnings options.fontFallbacks config.fonts := by
    obtain ⟨before, after, hsplit, hbefore, hafter⟩ := warnings_of_checkTree distinct
      (config.describes_of_perm (List.Perm.refl _)) (checkTree_of_check hcheck)
    dsimp only at hsplit
    rw [hsplit, hbefore.2 rfl, hafter.2 rfl, List.nil_append, List.append_nil]
  have hkept : warnings.filter Warning.isFallback = fontWarnings options.fontFallbacks config.fonts := by
    obtain ⟨before, after, hsplit, hbefore, hafter⟩ :=
      warnings_of_checkTree wellFormed hdescribes (checkTree_of_check h)
    have hfonts := List.filter_eq_self.2 fun warning =>
      @isFallback_of_mem_fontWarnings options.fontFallbacks config.fonts warning
    dsimp only at hsplit
    rw [hsplit, List.filter_append, List.filter_append, hbefore.filter_isFallback,
      hafter.filter_isFallback, hfonts, List.nil_append, List.append_nil]
  exact ⟨⟨config, strict⟩, hcheck, rfl, hstrict.trans hkept.symm, rfl⟩

/-- A lenient document with the longer name of the mode, keys to pass over and two stacks that end
in no generic family. -/
theorem check_toTree_lenient :
    let document : Document := ⟨.object [("mode", .string "just-in-time"), ("purge", .null),
      ("theme", .object [("extend", .object [("b", .null), ("a", .null)]), ("color", .null),
        ("fontFamily", .object [("body", .strings ["Inter"]), ("code", .strings ["monospace"]),
          ("head", .strings ["serif", "Lora"])])]),
      ("content", .object [("files", .strings ["a"])])], []⟩
    ∃ config warnings again, check ⟨.warn, true⟩ document = .ok ⟨config, warnings⟩ ∧
      check ⟨.refuse, true⟩ ⟨config.toTree, []⟩ = .ok again ∧ again.value = config ∧
      again.warnings = [.nonGenericFallback "body" "Inter", .nonGenericFallback "head" "Lora"] := by
  intro document
  have wellFormed : document.WellFormed := by
    simp [document, Document.WellFormed, Json.strings, Json.Distinct, Json.DistinctEntries,
      Json.DistinctItems, Entries.keys]
  obtain ⟨config, warnings, hcheck, hwarnings⟩ : ∃ config warnings,
      check ⟨.warn, true⟩ document = .ok ⟨config, warnings⟩ ∧
      warnings.filter Warning.isFallback =
        [.nonGenericFallback "body" "Inter", .nonGenericFallback "head" "Lora"] :=
    ⟨_, _, rfl, by decide⟩
  obtain ⟨again, hagain, hvalue, hsame, -⟩ := check_toTree wellFormed hcheck
  exact ⟨config, warnings, again, hcheck, hagain, hvalue, hsame.trans hwarnings⟩

end Schema

end CssBuild
