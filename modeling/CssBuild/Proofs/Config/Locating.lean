import CssBuild.Proofs.Config.Defects
import CssBuild.Proofs.Decimal.Printing
import CssBuild.Proofs.Json.Lookup

/-!
# CssBuild.Proofs.Config.Locating

Where the defects of a document are.

1. `Shows` says what the value at the key of a defect has to be like, the key being
   looked up as any dotted path. A key that is missing leads nowhere, but what it
   should be in is an object.
2. `At` follows the names on the way down a tree whose keys have no dots and whose
   arrays have no more items than can be numbered. The path that these names make
   leads back to the value (`At.lookup`).
3. Each part of the schema names its defects by the names on the way to it, so all
   defects of a tree are shown, not only the first (`shows_treeDefects`,
   `check_shows`).
-/

namespace CssBuild

namespace Json

/-! ## Numbers of items -/

/-- How many numbers there are for the items of an array: those that a step of a path can write. -/
def maxItems : Nat := 0x10000000000000000

/-- Whether all items in a tree can be numbered. No array that fits in the memory of a machine has
more of them, but nothing keeps a list from being longer. -/
def Numberable (tree : Json) : Prop :=
  tree.Every fun part => ∀ items, part = .array items → items.length ≤ maxItems

/-- The number of an item is written in digits. -/
theorem toList_index (i : Nat) : (KeyPath.index i).toList = Layout.digits i :=
  String.toList_ofList

theorem dot_not_mem_index (i : Nat) : '.' ∉ (KeyPath.index i).toList := by
  rw [toList_index]
  exact (Layout.isDigits_digits i).not_mem (by decide)

/-- Digits are read as the number that they write, if it is not too large. -/
theorem stepIndex?_of_isDigits {step : String} (h : IsDigits step.toList)
    (hlt : digitsValue step.toList < maxItems) :
    stepIndex? step = some (digitsValue step.toList) := by
  have hother : (step.toList.any fun c => !(decide ('0' ≤ c) && decide (c ≤ '9'))) = false := by
    rw [List.any_eq_false]
    intro c hc
    rw [show (decide ('0' ≤ c) && decide (c ≤ '9')) = true from h.2 c hc]
    exact Bool.false_ne_true
  rw [stepIndex?]
  -- A sign would be no digit.
  split
  · next rest hsign => exact absurd (hsign ▸ List.mem_cons_self) (h.not_mem (c := '+') (by decide))
  · next digits _ =>
    rw [hother, List.isEmpty_eq_false_iff.2 h.1]
    exact if_pos hlt

/-- The number of an item is read back. -/
theorem stepIndex?_index {i : Nat} (h : i < maxItems) : stepIndex? (KeyPath.index i) = some i := by
  have hvalue : digitsValue (KeyPath.index i).toList = i := by
    rw [toList_index, Layout.digitsValue_digits]
  rw [stepIndex?_of_isDigits (toList_index i ▸ Layout.isDigits_digits i) (hvalue.symm ▸ h), hvalue]

/-! ## Trees that paths lead through -/

/-- A tree in which keys do not come again and have no dots, and all items can be numbered. -/
structure Addressable (tree : Json) : Prop where
  distinct : tree.Distinct
  plain : tree.PlainKeys
  numberable : tree.Numberable

theorem Addressable.value {entries : List (String × Json)} (h : (object entries).Addressable)
    {key : String} {tree : Json} (hmem : (key, tree) ∈ entries) : tree.Addressable :=
  ⟨distinct_of_mem_entries h.distinct.2 hmem, h.plain.value hmem, h.numberable.value hmem⟩

theorem Addressable.item {items : List Json} (h : (array items).Addressable) {item : Json}
    (hmem : item ∈ items) : item.Addressable :=
  ⟨distinct_of_mem_items h.distinct hmem, h.plain.item hmem, h.numberable.item hmem⟩

end Json

namespace Schema

open Json

/-! ## What errors say about the tree -/

/-- The value that the key of an error names. The whole tree has no path, so it has a name of its
own. -/
def located (root : Json) (key : String) : Except LookupError Json :=
  if key = "(root)" then .ok root else root.lookup key

/-- The value that the last part of a key is in. -/
def holder (root : Json) (key : String) : Except LookupError Json :=
  if (KeyPath.parts key).dropLast = [] then .ok root
  else root.lookup (joinSteps (KeyPath.parts key).dropLast)

/-- The keys that have a few names for values, with these names. -/
def domains : List (String × List String) := [("mode", Mode.names), ("darkMode", DarkMode.names)]

/-- Whether the tree is at the key of an error as the error says. -/
def Shows (root : Json) : ConfigError → Prop
  | .invalidType key expected actual =>
    ∃ tree, located root key = .ok tree ∧ tree.kind = actual ∧ actual ≠ expected
  | .invalidValue key actual expected =>
    (key, expected) ∈ domains ∧
      ∃ tree, located root key = .ok tree ∧ (∀ name ∈ expected, tree ≠ .string name) ∧
        tree.compact = actual
  | .emptySequence key => located root key = .ok (.array [])
  | .invalidGlob key pattern details =>
    located root key = .ok (.string pattern) ∧ ∃ fault, (Pattern.mk pattern).compile = .error fault ∧
      fault.message (Pattern.mk pattern).globText = details
  | .unknownKey key permitted =>
    ∃ entries name tree, holder root key = .ok (.object entries) ∧ (name, tree) ∈ entries ∧
      root.lookup key = .ok tree ∧ (KeyPath.parts key).getLast? = some name ∧ name ∉ permitted
  | .missingKey key =>
    (∀ tree, root.lookup key ≠ .ok tree) ∧ ∃ entries, holder root key = .ok (.object entries)
  | _ => False

/-! ## On the way down -/

/-- Whether names lead down from the root to a value, the first one being a key of the schema. -/
structure At (root : Json) (names : List String) (tree : Json) : Prop where
  reached : names.foldlM child? root = some tree
  plain : ∀ name ∈ names, '.' ∉ name.toList
  top : ∀ name ∈ names.head?, name ∈ rootKeys
  whole : root.Addressable
  inside : tree.Addressable

section At

variable {root tree : Json} {names : List String}

theorem At.nil (h : root.Addressable) : At root [] root :=
  ⟨rfl, by simp, by simp, h, h⟩

theorem foldlM_concat (hreached : names.foldlM child? root = some tree) (name : String) :
    (names ++ [name]).foldlM child? root = child? tree name := by
  rw [List.foldlM_append, hreached]
  exact bind_pure (child? tree name)

theorem plain_concat (h : ∀ name ∈ names, '.' ∉ name.toList) {name : String}
    (hname : '.' ∉ name.toList) : ∀ step ∈ names ++ [name], '.' ∉ step.toList := by
  intro step hstep
  obtain hstep | hstep := List.mem_append.1 hstep
  · exact h step hstep
  · exact List.mem_singleton.1 hstep ▸ hname

theorem At.value {entries : List (String × Json)} (h : At root names (.object entries))
    {key : String} (hfound : Entries.find? entries key = some tree)
    (htop : names = [] → key ∈ rootKeys) : At root (names ++ [key]) tree where
  reached := (foldlM_concat h.reached key).trans hfound
  plain := plain_concat h.plain
    (h.inside.plain.key (Entries.mem_keys_of_mem (Entries.mem_of_find? hfound)))
  top := by
    cases names with
    | nil => simpa using htop rfl
    | cons first rest => exact h.top
  whole := h.whole
  inside := h.inside.value (Entries.mem_of_find? hfound)

theorem At.item {items : List Json} (h : At root names (.array items)) (hne : names ≠ []) {i : Nat}
    (hitem : items[i]? = some tree) : At root (names ++ [KeyPath.index i]) tree where
  reached := by
    obtain ⟨hlt, -⟩ := List.getElem?_eq_some_iff.1 hitem
    have hi : i < maxItems := Nat.lt_of_lt_of_le hlt (Every.self h.inside.numberable items rfl)
    rw [foldlM_concat h.reached, child?, stepIndex?_index hi]
    exact hitem
  plain := plain_concat h.plain (dot_not_mem_index i)
  top := by
    obtain ⟨first, rest, rfl⟩ := List.exists_cons_of_ne_nil hne
    exact h.top
  whole := h.whole
  inside := h.inside.item (List.mem_of_getElem? hitem)

/-- The names do not make a path that is a key without dots, unless the key is in the schema. -/
theorem At.joinSteps_ne (h : At root names tree) (hne : names ≠ []) {key : String}
    (hdots : '.' ∉ key.toList) (hkey : key ∉ rootKeys) : joinSteps names ≠ key := by
  intro heq
  have hparts : names = [key] := by
    rw [← parts_joinSteps hne h.plain, heq, ← joinSteps_singleton key]
    exact parts_joinSteps (List.cons_ne_nil _ _) (by simpa using hdots)
  exact hkey (h.top key (by rw [hparts]; rfl))

theorem At.child (h : At root names tree) (name : String) :
    KeyPath.child (joinSteps names) name = joinSteps (names ++ [name]) := by
  rw [KeyPath.child]
  by_cases hne : names = []
  · subst hne
    exact (if_pos rfl).trans (joinSteps_singleton name).symm
  · rw [if_neg (h.joinSteps_ne hne (by simp) (by decide)), joinSteps_append hne (by simp),
      joinSteps_singleton]

/-- The path of the names leads to the value. -/
theorem At.lookup (h : At root names tree) (hne : names ≠ []) :
    root.lookup (joinSteps names) = .ok tree :=
  (h.whole.plain.lookup_joinSteps hne h.plain).2 h.reached

theorem At.located (h : At root names tree) (hne : names ≠ []) :
    located root (joinSteps names) = .ok tree := by
  rw [Schema.located, if_neg (h.joinSteps_ne hne (by decide) (by decide))]
  exact h.lookup hne

theorem At.located_shownKey (h : At root names tree) :
    Schema.located root (shownKey (joinSteps names)) = .ok tree := by
  by_cases hne : names = []
  · subst hne
    obtain rfl := Option.some.inj h.reached
    rfl
  · rw [shownKey, if_neg (h.joinSteps_ne hne (by simp) (by decide))]
    exact h.located hne

/-- What the path of a further name is in. -/
theorem At.holder (h : At root names tree) {name : String} (hname : '.' ∉ name.toList) :
    holder root (joinSteps (names ++ [name])) = .ok tree := by
  rw [Schema.holder, parts_joinSteps (by simp) (plain_concat h.plain hname), List.dropLast_concat]
  by_cases hne : names = []
  · subst hne
    obtain rfl := Option.some.inj h.reached
    rfl
  · rw [if_neg hne]
    exact h.lookup hne

end At

/-! ## Defects of values -/

section Values

variable {root tree : Json} {names : List String} {key : String}

theorem shows_wrongKind (h : At root names tree) (hkey : joinSteps names = key) {expected : String}
    (hkind : tree.kind ≠ expected) : Shows root (wrongKind key expected tree) :=
  ⟨tree, hkey ▸ h.located_shownKey, rfl, hkind⟩

theorem shows_kindDefects (h : At root names tree) (hkey : joinSteps names = key)
    (expected : String) : ∀ e ∈ kindDefects key expected tree, Shows root e := by
  rw [kindDefects]
  split
  · simp
  · next hkind => simpa using shows_wrongKind h hkey hkind

theorem shows_objectDefects (h : At root names tree) (hkey : joinSteps names = key)
    {inside : List (String × Json) → List ConfigError}
    (hinside : ∀ entries, At root names (.object entries) → ∀ e ∈ inside entries, Shows root e) :
    ∀ e ∈ objectDefects key inside tree, Shows root e := by
  cases tree with
  | object entries => exact hinside entries h
  | null | bool _ | number _ | string _ | array _ =>
    simpa [objectDefects] using shows_wrongKind h hkey (by simp [kind])

theorem shows_sequenceDefects (h : At root names tree) (hne : names ≠ [])
    (hkey : joinSteps names = key) {inside : String → Json → List ConfigError}
    (hinside : ∀ i item, At root (names ++ [KeyPath.index i]) item →
      ∀ e ∈ inside (joinSteps (names ++ [KeyPath.index i])) item, Shows root e) :
    ∀ e ∈ sequenceDefects key inside tree, Shows root e := by
  cases tree with
  | array items =>
    cases items with
    | nil =>
      have hshown : Shows root (.emptySequence key) := hkey ▸ h.located hne
      simpa [sequenceDefects] using hshown
    | cons first rest =>
      intro e he
      obtain ⟨⟨item, i⟩, hitem, he⟩ := List.mem_flatMap.1 he
      rw [← hkey, itemPath, h.child] at he
      exact hinside i item (h.item hne (List.mem_zipIdx_iff_getElem?.1 hitem)) e he
  | null | bool _ | number _ | string _ | object _ =>
    simpa [sequenceDefects] using shows_wrongKind h hkey (by simp [kind])

theorem shows_nameDefects (h : At root names tree) (hne : names ≠ []) (hkey : joinSteps names = key)
    {expected : List String} (hdomain : (key, expected) ∈ domains) :
    ∀ e ∈ nameDefects key expected tree, Shows root e := by
  rw [nameDefects]
  split
  · simp
  · next hnone =>
    have hvalue : ∀ name ∈ expected, tree ≠ .string name := by
      rintro name hname rfl
      exact hnone (List.any_eq_true.2 ⟨name, hname, by simp [text?]⟩)
    have hshown : Shows root (.invalidValue key tree.compact expected) :=
      ⟨hdomain, tree, hkey ▸ h.located hne, hvalue, rfl⟩
    simpa using hshown

theorem shows_patternDefects (h : At root names tree) (hne : names ≠ [])
    (hkey : joinSteps names = key) : ∀ e ∈ patternDefects key tree, Shows root e := by
  cases tree with
  | string text =>
    rw [patternDefects]
    split
    · simp
    · next fault hfault =>
      have hshown : Shows root (.invalidGlob key text
          (fault.message (Pattern.mk text).globText)) :=
        ⟨hkey ▸ h.located hne, fault, hfault, rfl⟩
      simpa using hshown
  | null | bool _ | number _ | array _ | object _ =>
    simpa [patternDefects] using shows_wrongKind h hkey (by simp [kind])

end Values

/-! ## Defects of entries -/

section Parts

variable {root : Json} {entries : List (String × Json)} {names : List String}

theorem shows_unknownDefects (h : At root names (.object entries)) {path : String}
    (hpath : joinSteps names = path) (policy : UnknownKeys) (permitted : List String) :
    ∀ e ∈ unknownDefects policy path permitted entries, Shows root e := by
  cases policy with
  | warn => simp [unknownDefects]
  | refuse =>
    intro e he
    obtain ⟨unknown, hunknown, rfl⟩ := List.mem_map.1 he
    obtain ⟨⟨name, tree⟩, hentry, rfl⟩ := List.mem_map.1 hunknown
    obtain ⟨hmem, hpermitted⟩ := List.mem_filter.1 hentry
    have hdots := h.inside.plain.key (Entries.mem_keys_of_mem hmem)
    have hplain := plain_concat h.plain hdots
    have hfound : Entries.find? entries name = some tree :=
      (Entries.find?_eq_some_iff h.inside.distinct.1).2 hmem
    rw [← hpath, h.child]
    refine ⟨entries, name, tree, h.holder hdots, hmem, ?_, ?_, by simpa using hpermitted⟩
    · exact (h.whole.plain.lookup_joinSteps (by simp) hplain).2
        ((foldlM_concat h.reached name).trans hfound)
    · rw [parts_joinSteps (by simp) hplain, List.getLast?_concat]

theorem shows_missingKey (h : At root names (.object entries)) {key path : String}
    (hpath : joinSteps (names ++ [key]) = path) (hdots : '.' ∉ key.toList)
    (hnone : Entries.find? entries key = none) : Shows root (.missingKey path) := by
  rw [← hpath]
  refine ⟨fun tree hlookup => ?_, entries, h.holder hdots⟩
  rw [h.whole.plain.lookup_joinSteps (by simp) (plain_concat h.plain hdots),
    foldlM_concat h.reached, child?, hnone] at hlookup
  cases hlookup

theorem shows_optionalDefects (h : At root names (.object entries)) {key : String}
    (htop : names = [] → key ∈ rootKeys) {inside : Json → List ConfigError}
    (hinside : ∀ tree, At root (names ++ [key]) tree → ∀ e ∈ inside tree, Shows root e) :
    ∀ e ∈ optionalDefects entries key inside, Shows root e := by
  rw [optionalDefects]
  split
  · next tree hfound => exact hinside tree (h.value hfound htop)
  · simp

theorem shows_requiredDefects (h : At root names (.object entries)) {key path : String}
    (hpath : joinSteps (names ++ [key]) = path) (hdots : '.' ∉ key.toList)
    (htop : names = [] → key ∈ rootKeys) {inside : Json → List ConfigError}
    (hinside : ∀ tree, At root (names ++ [key]) tree → ∀ e ∈ inside tree, Shows root e) :
    ∀ e ∈ requiredDefects entries key path inside, Shows root e := by
  rw [requiredDefects]
  split
  · next tree hfound => exact hinside tree (h.value hfound htop)
  · next hnone => simpa using shows_missingKey h hpath hdots hnone

end Parts

/-! ## Defects of documents -/

section Documents

variable {root : Json} (policy : UnknownKeys)

theorem shows_contentDefects {entries : List (String × Json)} (h : At root [] (.object entries)) :
    ∀ e ∈ contentDefects policy entries, Shows root e := by
  refine shows_requiredDefects h (by decide +kernel) (by decide) (by decide) fun tree htree => ?_
  refine shows_objectDefects htree (by decide +kernel) fun content hcontent => ?_
  refine List.forall_mem_append.2 ⟨shows_unknownDefects hcontent (by decide +kernel) policy _, ?_⟩
  refine shows_requiredDefects hcontent (by decide +kernel) (by decide) (by simp)
    fun files hfiles => ?_
  exact shows_sequenceDefects hfiles (by simp) (by decide +kernel) fun i item hitem =>
    shows_patternDefects hitem (by simp) rfl

theorem shows_fontDefects {tree : Json} (h : At root ["theme", "fontFamily"] tree) :
    ∀ e ∈ fontDefects tree, Shows root e := by
  have hkey : joinSteps ["theme", "fontFamily"] = "theme.fontFamily" := by decide +kernel
  refine shows_objectDefects h hkey fun table htable => ?_
  intro e he
  obtain ⟨⟨token, stack⟩, hmem, he⟩ := List.mem_flatMap.1 he
  have hstack := htable.value ((Entries.find?_eq_some_iff htable.inside.distinct.1).2 hmem) (by simp)
  rw [stackDefects, ← hkey, h.child] at he
  refine shows_sequenceDefects hstack (by simp) rfl (fun i item hitem => ?_) e he
  exact shows_kindDefects hitem rfl "string"

theorem shows_themeDefects {tree : Json} (h : At root ["theme"] tree) :
    ∀ e ∈ themeDefects policy tree, Shows root e := by
  refine shows_objectDefects h (by decide +kernel) fun theme htheme => ?_
  refine List.forall_mem_append.2 ⟨List.forall_mem_append.2 ⟨?_, ?_⟩, ?_⟩
  · exact shows_unknownDefects htheme (by decide +kernel) policy _
  · exact shows_optionalDefects htheme (by simp) fun fonts hfonts => shows_fontDefects hfonts
  · exact shows_optionalDefects htheme (by simp) fun extend hextend =>
      shows_kindDefects hextend (by decide +kernel) _

theorem shows_variantsDefects {tree : Json} (h : At root ["variants"] tree) :
    ∀ e ∈ variantsDefects policy tree, Shows root e := by
  refine shows_objectDefects h (by decide +kernel) fun variants hvariants => ?_
  refine List.forall_mem_append.2 ⟨?_, ?_⟩
  · exact shows_unknownDefects hvariants (by decide +kernel) policy _
  · exact shows_optionalDefects hvariants (by simp) fun extend hextend =>
      shows_kindDefects hextend (by decide +kernel) _

theorem shows_treeDefects (h : root.Addressable) : ∀ e ∈ treeDefects policy root, Shows root e := by
  refine shows_objectDefects (.nil h) rfl fun entries hentries => ?_
  have hmode : ∀ tree, At root ["mode"] tree →
      ∀ e ∈ nameDefects "mode" Mode.names tree, Shows root e := fun tree htree =>
    shows_nameDefects htree (by simp) (by decide +kernel) (by simp [domains])
  have hdark : ∀ tree, At root ["darkMode"] tree →
      ∀ e ∈ nameDefects "darkMode" DarkMode.names tree, Shows root e := fun tree htree =>
    shows_nameDefects htree (by simp) (by decide +kernel) (by simp [domains])
  have hplugins : ∀ tree, At root ["plugins"] tree →
      ∀ e ∈ kindDefects "plugins" "array" tree, Shows root e := fun tree htree =>
    shows_kindDefects htree (by decide +kernel) _
  simp only [List.forall_mem_append]
  exact ⟨⟨⟨⟨⟨⟨shows_unknownDefects hentries rfl policy _,
    shows_optionalDefects hentries (by decide) hmode⟩,
    shows_contentDefects policy hentries⟩,
    shows_optionalDefects hentries (by decide) hdark⟩,
    shows_optionalDefects hentries (by decide) fun _ => shows_themeDefects policy⟩,
    shows_optionalDefects hentries (by decide) fun _ => shows_variantsDefects policy⟩,
    shows_optionalDefects hentries (by decide) hplugins⟩

end Documents

/-- Where no key of a document comes again or has a dot, and all items can be numbered, the key
that an error names leads to what is wrong. -/
theorem check_shows (options : LoadOptions) (document : Document) (wellFormed : document.WellFormed)
    (unique : document.duplicates = []) (plain : document.root.PlainKeys)
    (numberable : document.root.Numberable) {e : ConfigError}
    (h : check options document = .error e) : Shows document.root e := by
  have hfirst := (stopsAt_check options wellFormed).eq_error_iff.1 h
  have hmem : e ∈ treeDefects options.unknownKeys document.root := by
    simpa [defects, unique] using List.mem_of_head? hfirst
  exact shows_treeDefects options.unknownKeys ⟨wellFormed, plain, numberable⟩ e hmem

/-- A stack of a font table with something that is no family behind one that is. -/
theorem check_shows_family :
    let tree : Json := .object [("content", .object [("files", .strings ["*.html"])]),
      ("theme", .object [("fontFamily", .object [("sans", .array [.string "serif", .null])])])]
    let e : ConfigError := .invalidType "theme.fontFamily.sans.1" "string" "null"
    check ⟨.refuse, true⟩ ⟨tree, []⟩ = .error e ∧ Shows tree e := by
  intro tree e
  have wellFormed : Document.WellFormed ⟨tree, []⟩ := by
    simp [tree, Document.WellFormed, strings, Distinct, DistinctEntries, DistinctItems,
      Entries.keys]
  have plain : tree.PlainKeys := by
    simp [tree, PlainKeys, strings, Every, EveryValue, EveryItem]
  have numberable : tree.Numberable := by
    simp [tree, Numberable, strings, Every, EveryValue, EveryItem, maxItems]
  have hcheck : check ⟨.refuse, true⟩ ⟨tree, []⟩ = .error e :=
    (stopsAt_check _ wellFormed).eq_error_iff.2 (by decide +kernel)
  exact ⟨hcheck, check_shows _ _ wellFormed rfl plain numberable hcheck⟩

end Schema

end CssBuild
