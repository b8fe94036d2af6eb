import CssBuild.Config.Schema
import CssBuild.Proofs.Json.Distinct

/-!
# CssBuild.Proofs.Config.Conformance

What the schema asks of a tree.

1. `Conforms` states the schema of each part as a condition on trees, without
   the order in which parts are checked.
2. Each check accepts exactly the trees that satisfy the condition of its
   part (`accepts_checkTree` for whole trees). What a check warns about has
   no part in that.
-/

namespace CssBuild

namespace Schema

/-! ## The schema -/

/-- A part that can be left out and otherwise satisfies a condition. -/
def IfPresent (entries : List (String × Json)) (key : String) (p : Json → Prop) : Prop :=
  ∀ tree, (key, tree) ∈ entries → p tree

/-- A part that has to be there and satisfy a condition. -/
def Present (entries : List (String × Json)) (key : String) (p : Json → Prop) : Prop :=
  ∃ tree, (key, tree) ∈ entries ∧ p tree

/-- Keys that the schema does not define are refused. -/
def KnownKeys (policy : UnknownKeys) (permitted : List String)
    (entries : List (String × Json)) : Prop :=
  policy = .refuse → ∀ key ∈ Entries.keys entries, key ∈ permitted

/-- One of some names. -/
def IsName (names : List String) (tree : Json) : Prop := ∃ name ∈ names, tree = .string name

/-- An object. -/
def IsObject (tree : Json) : Prop := ∃ entries, tree = .object entries

/-- An array. -/
def IsArray (tree : Json) : Prop := ∃ items, tree = .array items

/-- Texts that are globs, at least one of them. -/
def IsPatternList (tree : Json) : Prop :=
  ∃ patterns : List Pattern, patterns ≠ [] ∧ tree = .strings (patterns.map Pattern.text) ∧
    ∀ pattern ∈ patterns, ∃ glob, pattern.compile = .ok glob

/-- The content. -/
def IsContent (policy : UnknownKeys) (tree : Json) : Prop :=
  ∃ entries, tree = .object entries ∧ KnownKeys policy contentKeys entries ∧
    Present entries "files" IsPatternList

/-- Families, at least one of them. -/
def IsStack (tree : Json) : Prop := ∃ stack : FontStack, stack ≠ [] ∧ tree = .strings stack

/-- Tokens with their stacks. -/
def IsFontTable (tree : Json) : Prop :=
  ∃ entries, tree = .object entries ∧ ∀ entry ∈ entries, IsStack entry.2

/-- The theme. -/
def IsTheme (policy : UnknownKeys) (tree : Json) : Prop :=
  ∃ entries, tree = .object entries ∧ KnownKeys policy themeKeys entries ∧
    IfPresent entries "fontFamily" IsFontTable ∧ IfPresent entries "extend" IsObject

/-- The variants. -/
def IsVariants (policy : UnknownKeys) (tree : Json) : Prop :=
  ∃ entries, tree = .object entries ∧ KnownKeys policy variantsKeys entries ∧
    IfPresent entries "extend" IsObject

/-- The tree of a configuration as the schema has it. -/
def Conforms (policy : UnknownKeys) (tree : Json) : Prop :=
  ∃ root, tree = .object root ∧ KnownKeys policy rootKeys root ∧
    IfPresent root "mode" (IsName Mode.names) ∧ Present root "content" (IsContent policy) ∧
    IfPresent root "darkMode" (IsName DarkMode.names) ∧
    IfPresent root "theme" (IsTheme policy) ∧ IfPresent root "variants" (IsVariants policy) ∧
    IfPresent root "plugins" IsArray

/-! ## Results -/

section Results

variable {ε α β : Type}

/-- A result that is no error. -/
def Accepts (result : Except ε α) : Prop := ∃ found, result = .ok found

@[simp] theorem accepts_ok (found : α) : Accepts (.ok found : Except ε α) := ⟨found, rfl⟩

@[simp] theorem not_accepts_error (e : ε) : ¬Accepts (.error e : Except ε α) :=
  fun ⟨_, h⟩ => by cases h

theorem accepts_bind {result : Except ε α} {next : α → Except ε β} :
    Accepts (result >>= next) ↔ ∃ found, result = .ok found ∧ Accepts (next found) := by
  cases result with
  | error e => simp [bind, Except.bind]
  | ok found => simp [bind, Except.bind]

/-- What a result is does not matter where the next step's success does not depend on it. -/
theorem accepts_bind_of {result : Except ε α} {next : α → Except ε β} {p : Prop}
    (h : ∀ found, Accepts (next found) ↔ p) : Accepts (result >>= next) ↔ Accepts result ∧ p := by
  rw [accepts_bind]
  constructor
  · rintro ⟨found, hfound, hnext⟩
    exact ⟨⟨found, hfound⟩, (h found).1 hnext⟩
  · rintro ⟨⟨found, hfound⟩, hp⟩
    exact ⟨found, hfound, (h found).2 hp⟩

theorem accepts_map {result : Except ε α} {f : α → β} :
    Accepts (result.map f) ↔ Accepts result := by
  cases result with
  | error e => simp [Except.map]
  | ok found => simp [Except.map]

end Results

/-! ## Checks of kinds, keys and parts -/

variable {α : Type}

theorem accepts_objectAt_bind {key : String} {tree : Json}
    {next : List (String × Json) → Except ConfigError α} :
    Accepts (objectAt key tree >>= next) ↔
      ∃ entries, tree = .object entries ∧ Accepts (next entries) := by
  rw [accepts_bind]
  cases tree <;> simp [objectAt]

theorem accepts_arrayAt_bind {key : String} {tree : Json}
    {next : List Json → Except ConfigError α} :
    Accepts (arrayAt key tree >>= next) ↔ ∃ items, tree = .array items ∧ Accepts (next items) := by
  rw [accepts_bind]
  cases tree <;> simp [arrayAt]

theorem accepts_textAt_bind {key : String} {tree : Json} {next : String → Except ConfigError α} :
    Accepts (textAt key tree >>= next) ↔ ∃ s, tree = .string s ∧ Accepts (next s) := by
  rw [accepts_bind]
  cases tree <;> simp [textAt]

theorem accepts_unknownKeys (policy : UnknownKeys) (path : String) (permitted : List String)
    (entries : List (String × Json)) :
    Accepts (unknownKeys policy path permitted entries) ↔ KnownKeys policy permitted entries := by
  induction entries with
  | nil => simp [unknownKeys, KnownKeys]
  | cons entry rest ih =>
    obtain ⟨key, value⟩ := entry
    by_cases h : key ∈ permitted
    · cases policy <;> simp [unknownKeys, KnownKeys, h, ih]
    · cases policy with
      | refuse => simp [unknownKeys, KnownKeys, h]
      | warn =>
        have hrest := ih.2 (by simp [KnownKeys])
        simp only [unknownKeys, if_neg h,
          accepts_bind_of fun _ => iff_of_true (accepts_ok _) trivial]
        simp [KnownKeys, hrest]

section Parts

variable {entries : List (String × Json)} {key : String} (distinct : (Entries.keys entries).Nodup)
include distinct

theorem accepts_checkOptional {check : Json → Check} {p : Json → Prop}
    (h : ∀ tree, (key, tree) ∈ entries → (Accepts (check tree) ↔ p tree)) :
    Accepts (checkOptional entries key check) ↔ IfPresent entries key p := by
  rw [checkOptional, IfPresent]
  cases hfind : Entries.find? entries key with
  | none =>
    have hnone := Entries.find?_eq_none_iff.1 hfind
    apply iff_of_true (accepts_ok _)
    intro tree hmem
    exact absurd (Entries.mem_keys_of_mem hmem) hnone
  | some found =>
    have hfound := Entries.mem_of_find? hfind
    refine ⟨fun hcheck tree hmem => ?_, fun hall => (h found hfound).2 (hall found hfound)⟩
    have heq : some found = some tree :=
      hfind.symm.trans ((Entries.find?_eq_some_iff distinct).2 hmem)
    cases heq
    exact (h found hmem).1 hcheck

theorem accepts_required_bind {path : String} {next : Json → Except ConfigError α}
    {p : Json → Prop} (h : ∀ tree, (key, tree) ∈ entries → (Accepts (next tree) ↔ p tree)) :
    Accepts (required entries key path >>= next) ↔ Present entries key p := by
  rw [accepts_bind, required]
  constructor
  · rintro ⟨tree, htree, hnext⟩
    cases hfind : Entries.find? entries key with
    | none => simp [hfind] at htree
    | some found =>
      have heq : found = tree := by simpa [hfind] using htree
      have hmem := Entries.mem_of_find? (heq ▸ hfind)
      exact ⟨tree, hmem, (h tree hmem).1 hnext⟩
  · rintro ⟨tree, hmem, hp⟩
    refine ⟨tree, ?_, (h tree hmem).2 hp⟩
    rw [(Entries.find?_eq_some_iff distinct).2 hmem]

end Parts

/-! ## Checks of the sections -/

theorem accepts_checkName (key : String) (names : List String) (tree : Json) :
    Accepts (checkName key names tree) ↔ IsName names tree := by
  cases tree with
  | string name => by_cases h : name ∈ names <;> simp [checkName, Json.text?, IsName, h]
  | _ => simp [checkName, Json.text?, IsName]

theorem accepts_checkOverrides (path : String) (tree : Json) :
    Accepts (checkOverrides path tree) ↔ IsObject tree := by
  simp [checkOverrides, accepts_objectAt_bind, IsObject]

theorem accepts_checkPatterns (i : Nat) (trees : List Json) :
    Accepts (checkPatterns i trees) ↔ ∃ patterns : List Pattern,
      trees = patterns.map (fun pattern => .string pattern.text) ∧
        ∀ pattern ∈ patterns, ∃ glob, pattern.compile = .ok glob := by
  induction trees generalizing i with
  | nil => simp [checkPatterns]
  | cons tree rest ih =>
    rw [checkPatterns, accepts_textAt_bind]
    constructor
    · rintro ⟨text, rfl, hnext⟩
      cases hcompile : (Pattern.mk text).compile with
      | error fault => simp [hcompile] at hnext
      | ok glob =>
        obtain ⟨patterns, rfl, hglobs⟩ := (ih (i + 1)).1 (by simpa [hcompile] using hnext)
        refine ⟨⟨text⟩ :: patterns, rfl, fun pattern hmem => ?_⟩
        obtain rfl | hrest := List.mem_cons.1 hmem
        · exact ⟨glob, hcompile⟩
        · exact hglobs pattern hrest
    · rintro ⟨patterns, htrees, hglobs⟩
      cases patterns with
      | nil => simp at htrees
      | cons first patterns =>
        obtain ⟨rfl, rfl⟩ := List.cons.inj htrees
        obtain ⟨glob, hcompile⟩ := hglobs first List.mem_cons_self
        refine ⟨first.text, rfl, ?_⟩
        simp only [hcompile]
        exact (ih (i + 1)).2 ⟨patterns, rfl, fun p hp => hglobs p (List.mem_cons_of_mem _ hp)⟩

theorem accepts_checkFamilies (path : String) (i : Nat) (trees : List Json) :
    Accepts (checkFamilies path i trees) ↔ ∃ stack : FontStack, trees = stack.map .string := by
  induction trees generalizing i with
  | nil => simp [checkFamilies]
  | cons tree rest ih =>
    simp only [checkFamilies, accepts_textAt_bind, ih]
    constructor
    · rintro ⟨family, rfl, stack, rfl⟩
      exact ⟨family :: stack, rfl⟩
    · rintro ⟨stack, htrees⟩
      cases stack with
      | nil => simp at htrees
      | cons family stack =>
        obtain ⟨rfl, rfl⟩ := List.cons.inj htrees
        exact ⟨family, rfl, stack, rfl⟩

theorem accepts_checkStack (fontFallbacks : Bool) (token : String) (tree : Json) :
    Accepts (checkStack fontFallbacks token tree) ↔ IsStack tree := by
  rw [checkStack, accepts_arrayAt_bind]
  constructor
  · rintro ⟨items, rfl, hnext⟩
    cases hlast : items.getLast? with
    | none => simp [hlast] at hnext
    | some last =>
      simp only [hlast, accepts_bind_of fun _ => iff_of_true (accepts_ok _) trivial] at hnext
      obtain ⟨stack, rfl⟩ := (accepts_checkFamilies _ 0 items).1 hnext.1
      refine ⟨stack, ?_, rfl⟩
      rintro rfl
      simp at hlast
  · rintro ⟨stack, hne, rfl⟩
    refine ⟨_, rfl, ?_⟩
    obtain ⟨last, hlast⟩ := Option.isSome_iff_exists.1
      (List.getLast?_isSome.2 (mt List.map_eq_nil_iff.1 hne) :
        (stack.map Json.string).getLast?.isSome)
    simp only [hlast, accepts_bind_of fun _ => iff_of_true (accepts_ok _) trivial]
    exact ⟨(accepts_checkFamilies _ 0 _).2 ⟨stack, rfl⟩, trivial⟩

theorem accepts_checkStacks (fontFallbacks : Bool) (entries : List (String × Json)) :
    Accepts (checkStacks fontFallbacks entries) ↔ ∀ entry ∈ entries, IsStack entry.2 := by
  induction entries with
  | nil => simp [checkStacks]
  | cons entry rest ih =>
    obtain ⟨token, tree⟩ := entry
    have hrest : ∀ found : List Warning, Accepts (do
        let more ← checkStacks fontFallbacks rest
        (.ok (found ++ more) : Check)) ↔ ∀ entry ∈ rest, IsStack entry.2 := by
      intro found
      rw [accepts_bind_of fun _ => iff_of_true (accepts_ok _) trivial, ih, and_true]
    rw [checkStacks, accepts_bind_of hrest, accepts_checkStack]
    simp

theorem accepts_checkFonts (fontFallbacks : Bool) (tree : Json) :
    Accepts (checkFonts fontFallbacks tree) ↔ IsFontTable tree := by
  simp only [checkFonts, accepts_objectAt_bind, accepts_checkStacks, IsFontTable]

theorem accepts_checkPlugins (tree : Json) : Accepts (checkPlugins tree) ↔ IsArray tree := by
  simp [checkPlugins, accepts_arrayAt_bind, IsArray]

theorem accepts_checkTheme (options : LoadOptions) {tree : Json} (distinct : tree.Distinct) :
    Accepts (checkTheme options tree) ↔ IsTheme options.unknownKeys tree := by
  rw [checkTheme, accepts_objectAt_bind, IsTheme]
  refine exists_congr fun entries => and_congr_right fun htree => ?_
  rw [htree, Json.Distinct] at distinct
  rw [accepts_bind_of fun unknown => accepts_bind_of fun fonts =>
      accepts_bind_of fun _ => iff_of_true (accepts_ok (unknown ++ fonts)) trivial,
    accepts_unknownKeys,
    accepts_checkOptional distinct.1 fun tree _ => accepts_checkFonts _ tree,
    accepts_checkOptional distinct.1 fun tree _ => accepts_checkOverrides _ tree, and_true]

theorem accepts_checkVariants (policy : UnknownKeys) {tree : Json} (distinct : tree.Distinct) :
    Accepts (checkVariants policy tree) ↔ IsVariants policy tree := by
  rw [checkVariants, accepts_objectAt_bind, IsVariants]
  refine exists_congr fun entries => and_congr_right fun htree => ?_
  rw [htree, Json.Distinct] at distinct
  rw [accepts_bind_of fun unknown =>
      accepts_bind_of fun _ => iff_of_true (accepts_ok unknown) trivial,
    accepts_unknownKeys,
    accepts_checkOptional distinct.1 fun tree _ => accepts_checkOverrides _ tree, and_true]

theorem accepts_checkContent (policy : UnknownKeys) {root : List (String × Json)}
    (distinct : (Json.object root).Distinct) :
    Accepts (checkContent policy root) ↔ Present root "content" (IsContent policy) := by
  rw [Json.Distinct] at distinct
  rw [checkContent]
  apply accepts_required_bind distinct.1
  intro tree hmem
  have hcontent := Json.distinct_of_mem_entries distinct.2 hmem
  rw [accepts_objectAt_bind, IsContent]
  refine exists_congr fun content => and_congr_right fun htree => ?_
  rw [htree, Json.Distinct] at hcontent
  rw [accepts_bind_of fun unknown => accepts_required_bind hcontent.1 fun tree _ => ?_,
    accepts_unknownKeys]
  rw [accepts_arrayAt_bind, IsPatternList]
  constructor
  · rintro ⟨items, rfl, hnext⟩
    by_cases hempty : items.isEmpty
    · simp [hempty] at hnext
    · rw [if_neg hempty, accepts_bind_of fun _ => iff_of_true (accepts_ok unknown) trivial,
        accepts_checkPatterns] at hnext
      obtain ⟨⟨patterns, rfl, hglobs⟩, -⟩ := hnext
      refine ⟨patterns, by simpa using hempty, by simp [Json.strings], hglobs⟩
  · rintro ⟨patterns, hne, rfl, hglobs⟩
    refine ⟨_, rfl, ?_⟩
    rw [if_neg (by simpa using hne),
      accepts_bind_of fun _ => iff_of_true (accepts_ok unknown) trivial, accepts_checkPatterns]
    exact ⟨⟨patterns, by simp, hglobs⟩, trivial⟩

/-- The checks accept the trees that conform. -/
theorem accepts_checkTree (options : LoadOptions) {tree : Json} (distinct : tree.Distinct) :
    Accepts (checkTree options tree) ↔ Conforms options.unknownKeys tree := by
  rw [checkTree, accepts_objectAt_bind, Conforms]
  refine exists_congr fun root => and_congr_right fun htree => ?_
  rw [htree] at distinct
  have hkeys : (Entries.keys root).Nodup := by rw [Json.Distinct] at distinct; exact distinct.1
  have hvalue {key : String} {value : Json} (hmem : (key, value) ∈ root) : value.Distinct := by
    rw [Json.Distinct] at distinct
    exact Json.distinct_of_mem_entries distinct.2 hmem
  rw [accepts_bind_of fun unknown => accepts_bind_of fun _ => accepts_bind_of fun content =>
      accepts_bind_of fun _ => accepts_bind_of fun theme => accepts_bind_of fun variants =>
      accepts_bind_of fun _ =>
        iff_of_true (accepts_ok (unknown ++ content ++ theme ++ variants)) trivial,
    accepts_unknownKeys, accepts_checkContent _ distinct,
    accepts_checkOptional hkeys fun tree _ => accepts_checkName _ Mode.names tree,
    accepts_checkOptional hkeys fun tree _ => accepts_checkName _ DarkMode.names tree,
    accepts_checkOptional hkeys fun tree hmem => accepts_checkTheme options (hvalue hmem),
    accepts_checkOptional hkeys fun tree hmem => accepts_checkVariants _ (hvalue hmem),
    accepts_checkOptional hkeys fun tree _ => accepts_checkPlugins tree, and_true]

end Schema

end CssBuild
