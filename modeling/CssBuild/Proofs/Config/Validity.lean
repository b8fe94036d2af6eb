import CssBuild.Proofs.Config.Description
import CssBuild.Proofs.Results

/-!
# CssBuild.Proofs.Config.Validity

The configurations that documents describe.

1. A tree describes at most one configuration (`describes_unique`).
2. `Config.Valid` states what every configuration has that a document is
   accepted as: patterns that are globs, no empty font stack, and overrides
   and plugins that repeat no key.
-/

namespace CssBuild

theorem Json.strings_injective {a b : List String} (h : strings a = strings b) : a = b :=
  (List.map_inj_right fun _ _ => Json.string.inj).1 (Json.array.inj h)

theorem Pattern.texts_injective {a b : List Pattern} (h : a.map text = b.map text) : a = b := by
  have hinjective (a b : Pattern) (h : a.text = b.text) : a = b := by
    cases a
    cases b
    exact congrArg Pattern.mk h
  exact (List.map_inj_right hinjective).1 h

theorem DarkMode.name_injective {a b : DarkMode} (h : a.name = b.name) : a = b := by
  have hname := ofName?_name a
  rw [h, ofName?_name b] at hname
  exact (Option.some.inj hname).symm

theorem Config.fontsTree_injective {a b : FontTable} (h : fontsTree a = fontsTree b) : a = b := by
  have hinjective (a b : String × FontStack)
      (h : (a.1, Json.strings a.2) = (b.1, Json.strings b.2)) : a = b := by
    obtain ⟨htoken, hstack⟩ := Prod.mk.inj h
    exact Prod.ext htoken (Json.strings_injective hstack)
  exact OrderedMap.toList_injective ((List.map_inj_right hinjective).1 (Json.object.inj h))

namespace Schema

/-! ## One configuration -/

section Reads

variable {entries : List (String × Json)} {key : String}

/-- Two readings of a part read the same tree, or take the default both. -/
theorem Reads.both (distinct : (Entries.keys entries).Nodup) {default default' : Prop}
    {p p' : Json → Prop} (h : Reads entries key default p) (h' : Reads entries key default' p') :
    (default ∧ default') ∨ ∃ tree, (key, tree) ∈ entries ∧ p tree ∧ p' tree := by
  obtain ⟨habsent, hleft⟩ | ⟨tree, htree, hp⟩ := h
  · obtain ⟨-, hleft'⟩ | ⟨tree, htree, -⟩ := h'
    · exact .inl ⟨hleft, hleft'⟩
    · exact absurd (Entries.mem_keys_of_mem htree) habsent
  · obtain ⟨habsent, -⟩ | ⟨other, hother, hp'⟩ := h'
    · exact absurd (Entries.mem_keys_of_mem htree) habsent
    · rw [Entries.value_unique distinct hother htree] at hp'
      exact .inr ⟨tree, htree, hp, hp'⟩

theorem readsOverrides_unique (distinct : (Entries.keys entries).Nodup)
    {a b : OrderedMap Json} (ha : ReadsOverrides entries a) (hb : ReadsOverrides entries b) :
    a = b := by
  apply OrderedMap.toList_injective
  obtain ⟨hempty, hempty'⟩ | ⟨tree, -, htree, htree'⟩ := Reads.both distinct ha hb
  · rw [hempty, hempty']
  · exact Json.object.inj (htree.symm.trans htree')

/-- The patterns of the content are those that its tree lists. -/
theorem patterns_unique (distinct : (Json.object entries).Distinct)
    {content content' : List (String × Json)} (hcontent : (key, .object content) ∈ entries)
    (hcontent' : (key, .object content') ∈ entries) {a b : List Pattern}
    (ha : ("files", .strings (a.map Pattern.text)) ∈ content)
    (hb : ("files", .strings (b.map Pattern.text)) ∈ content') : a = b := by
  rw [Json.Distinct] at distinct
  have hsame := Json.object.inj (Entries.value_unique distinct.1 hcontent hcontent')
  have hkeys := Json.distinct_of_mem_entries distinct.2 hcontent
  rw [Json.Distinct] at hkeys
  rw [← hsame] at hb
  exact Pattern.texts_injective (Json.strings_injective (Entries.value_unique hkeys.1 ha hb))

/-- Fonts and overrides are those that the tree of the theme has. -/
theorem theme_unique (distinct : (Entries.keys entries).Nodup) {a b : Config}
    (hfonts : Reads entries "fontFamily" (a.fonts.toList = []) (· = Config.fontsTree a.fonts))
    (hfonts' : Reads entries "fontFamily" (b.fonts.toList = []) (· = Config.fontsTree b.fonts))
    (hextend : ReadsOverrides entries a.themeExtend)
    (hextend' : ReadsOverrides entries b.themeExtend) :
    a.fonts = b.fonts ∧ a.themeExtend = b.themeExtend := by
  constructor
  · obtain ⟨hleft, hleft'⟩ | ⟨_, -, htree, htree'⟩ := hfonts.both distinct hfonts'
    · exact OrderedMap.toList_injective (hleft.trans hleft'.symm)
    · exact Config.fontsTree_injective (htree.symm.trans htree')
  · exact readsOverrides_unique distinct hextend hextend'

end Reads

/-- A tree describes at most one configuration. -/
theorem describes_unique {tree : Json} (distinct : tree.Distinct) {a b : Config}
    (ha : Describes tree a) (hb : Describes tree b) : a = b := by
  obtain ⟨root, rfl, hmode, ⟨content, hcontent, files, rfl, hfiles⟩, hdark, htheme, hvariants,
    hplugins⟩ := ha
  obtain ⟨root', heq, hmode', ⟨content', hcontent', files', rfl, hfiles'⟩, hdark', htheme',
    hvariants', hplugins'⟩ := hb
  obtain rfl := Json.object.inj heq
  have hsamePatterns : a.patterns = b.patterns :=
    patterns_unique distinct hcontent hcontent' hfiles hfiles'
  rw [Json.Distinct] at distinct
  have hvalue {key : String} {entries : List (String × Json)} (hmem : (key, .object entries) ∈ root) :
      (Entries.keys entries).Nodup := by
    have hdistinct := Json.distinct_of_mem_entries distinct.2 hmem
    rw [Json.Distinct] at hdistinct
    exact hdistinct.1
  have hsameMode : a.mode = b.mode := by
    obtain ⟨hleft, hleft'⟩ | ⟨_, -, ⟨-, hleft⟩, -, hleft'⟩ := hmode.both distinct.1 hmode' <;>
    · exact hleft.trans hleft'.symm
  have hsameDark : a.darkMode = b.darkMode := by
    obtain ⟨hleft, hleft'⟩ | ⟨_, -, hname, hname'⟩ := hdark.both distinct.1 hdark'
    · exact hleft.trans hleft'.symm
    · exact DarkMode.name_injective (Json.string.inj (hname.symm.trans hname'))
  have hsameTheme : a.fonts = b.fonts ∧ a.themeExtend = b.themeExtend := by
    obtain ⟨⟨hfonts, hextend⟩, hfonts', hextend'⟩ | ⟨_, hmem, ⟨theme, rfl, hfonts, hextend⟩,
      theme', heq, hfonts', hextend'⟩ := htheme.both distinct.1 htheme'
    · exact ⟨OrderedMap.toList_injective (hfonts.trans hfonts'.symm),
        OrderedMap.toList_injective (hextend.trans hextend'.symm)⟩
    · obtain rfl := Json.object.inj heq
      exact theme_unique (hvalue hmem) hfonts hfonts' hextend hextend'
  have hsameVariants : a.variantsExtend = b.variantsExtend := by
    obtain ⟨hleft, hleft'⟩ | ⟨_, hmem, ⟨variants, rfl, hextend⟩, variants', heq, hextend'⟩ :=
      hvariants.both distinct.1 hvariants'
    · exact OrderedMap.toList_injective (hleft.trans hleft'.symm)
    · obtain rfl := Json.object.inj heq
      exact readsOverrides_unique (hvalue hmem) hextend hextend'
  have hsamePlugins : a.plugins = b.plugins := by
    obtain ⟨hleft, hleft'⟩ | ⟨_, -, htree, htree'⟩ := hplugins.both distinct.1 hplugins'
    · exact hleft.trans hleft'.symm
    · exact Json.array.inj (htree.symm.trans htree')
  cases a
  cases b
  obtain ⟨hsameFonts, hsameExtend⟩ := hsameTheme
  cases hsameMode
  cases hsamePatterns
  cases hsameDark
  cases hsameFonts
  cases hsameExtend
  cases hsameVariants
  cases hsamePlugins
  rfl

end Schema

/-! ## Valid configurations -/

/-- What every configuration has that a document is accepted as. -/
structure Config.Valid (config : Config) : Prop where
  patterns_ne : config.patterns ≠ []
  globs : ∀ pattern ∈ config.patterns, ∃ glob, pattern.compile = .ok glob
  fontStacks : ∀ entry ∈ config.fonts.toList, entry.2 ≠ []
  themeExtend : Json.DistinctEntries config.themeExtend.toList
  variantsExtend : Json.DistinctEntries config.variantsExtend.toList
  plugins : Json.DistinctItems config.plugins

namespace Schema

theorem distinct_readsOverrides {entries : List (String × Json)}
    (distinct : Json.DistinctEntries entries) {found : OrderedMap Json}
    (h : ReadsOverrides entries found) : Json.DistinctEntries found.toList := by
  obtain ⟨-, hleft⟩ | ⟨_, hmem, rfl⟩ := h
  · rw [hleft]
    trivial
  · have hvalue := Json.distinct_of_mem_entries distinct hmem
    rw [Json.Distinct] at hvalue
    exact hvalue.2

/-- No stack of a conforming theme is empty. -/
theorem stacks_of_isTheme {policy : UnknownKeys} {entries : List (String × Json)}
    (h : IsTheme policy (.object entries)) {fonts : FontTable}
    (hfonts : Reads entries "fontFamily" (fonts.toList = []) (· = Config.fontsTree fonts)) :
    ∀ entry ∈ fonts.toList, entry.2 ≠ [] := by
  obtain ⟨theme, heq, -, hstacks, -⟩ := h
  obtain rfl := Json.object.inj heq
  intro entry hentry
  obtain ⟨-, hleft⟩ | ⟨_, hmem, rfl⟩ := hfonts
  · rw [hleft] at hentry
    cases hentry
  · obtain ⟨table, htable, hall⟩ := hstacks _ hmem
    have hmem : (entry.1, Json.strings entry.2) ∈ table := by
      rw [← Json.object.inj htable]
      exact List.mem_map_of_mem hentry
    obtain ⟨stack, hstack, hsame⟩ := hall _ hmem
    rw [Json.strings_injective hsame]
    exact hstack

/-- What a tree describes is valid if the tree conforms to the schema. -/
theorem valid_of_describes {policy : UnknownKeys} {tree : Json} (h : Conforms policy tree)
    (distinct : tree.Distinct) {config : Config} (hdescribes : Describes tree config) :
    config.Valid := by
  obtain ⟨root, rfl, -, -, ⟨_, hcontent, content, rfl, -, _, hfiles, patterns, hne, rfl, hglobs⟩,
    -, htheme, -, -⟩ := h
  obtain ⟨root', heq, -, ⟨_, hcontent', content', rfl, hfiles'⟩, -, htheme', hvariants,
    hplugins⟩ := hdescribes
  obtain rfl := Json.object.inj heq
  have hpatterns : patterns = config.patterns :=
    patterns_unique distinct hcontent hcontent' hfiles hfiles'
  rw [Json.Distinct] at distinct
  have hvalue {key : String} {entries : List (String × Json)} (hmem : (key, .object entries) ∈ root) :
      Json.DistinctEntries entries := by
    have hdistinct := Json.distinct_of_mem_entries distinct.2 hmem
    rw [Json.Distinct] at hdistinct
    exact hdistinct.2
  rw [hpatterns] at hne hglobs
  constructor
  · exact hne
  · exact hglobs
  · obtain ⟨-, hleft, -⟩ | ⟨_, hmem, theme, rfl, hfonts, -⟩ := htheme'
    · intro entry hentry
      rw [hleft] at hentry
      cases hentry
    · exact stacks_of_isTheme (htheme _ hmem) hfonts
  · obtain ⟨-, -, hleft⟩ | ⟨_, hmem, theme, rfl, -, hextend⟩ := htheme'
    · rw [hleft]
      trivial
    · exact distinct_readsOverrides (hvalue hmem) hextend
  · obtain ⟨-, hleft⟩ | ⟨_, hmem, variants, rfl, hextend⟩ := hvariants
    · rw [hleft]
      trivial
    · exact distinct_readsOverrides (hvalue hmem) hextend
  · obtain ⟨-, hleft⟩ | ⟨_, hmem, rfl⟩ := hplugins
    · rw [hleft]
      trivial
    · have hdistinct := Json.distinct_of_mem_entries distinct.2 hmem
      rwa [Json.Distinct] at hdistinct

/-- A document that is accepted has a tree that conforms to the schema and describes the
configuration. -/
theorem describes_of_check {options : LoadOptions} {document : Document}
    (wellFormed : document.WellFormed) {checked : Checked Config}
    (h : check options document = .ok checked) :
    Conforms options.unknownKeys document.root ∧ Describes document.root checked.value := by
  have hcheck := h
  unfold check at h
  split at h
  · cases h
  · next hsingle =>
    have hcheckTree : Accepts (checkTree options document.root) := by
      obtain ⟨warnings, hwarnings, -⟩ := bind_eq_ok.1 h
      exact ⟨warnings, hwarnings⟩
    have hconforms := (accepts_checkTree options wellFormed).1 hcheckTree
    obtain ⟨config, warnings, -, hcheck', hdescribes⟩ := check_of_conforms wellFormed hsingle hconforms
    rw [Except.ok.inj (hcheck.symm.trans hcheck')]
    exact ⟨hconforms, hdescribes⟩

/-- Every configuration that a document is accepted as is valid. -/
theorem valid_of_check {options : LoadOptions} {document : Document}
    (wellFormed : document.WellFormed) {checked : Checked Config}
    (h : check options document = .ok checked) : checked.value.Valid := by
  obtain ⟨hconforms, hdescribes⟩ := describes_of_check wellFormed h
  exact valid_of_describes hconforms wellFormed hdescribes

end Schema

end CssBuild
