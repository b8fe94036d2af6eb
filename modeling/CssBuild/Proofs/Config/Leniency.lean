import CssBuild.Proofs.Config.Pruning

/-!
# CssBuild.Proofs.Config.Leniency

What the options for unknown keys come to.

1. A lenient check differs from the strict check of the pruned document by its
   warnings about unknown keys alone, and these are about the keys that
   pruning removes.
2. On the document itself a strict check gives what a lenient one gives, unless
   it stops at an unknown key (`strictOr_checkTree`).
-/

namespace CssBuild

namespace Schema

/-! ## What strict checks warn about -/

theorem fallback_of_checkStack {fontFallbacks : Bool} {token : String} {tree : Json}
    {found : List Warning} (h : checkStack fontFallbacks token tree = .ok found) :
    ∀ warning ∈ found, warning.isUnknownKey = false := by
  obtain ⟨families, -, h⟩ := bind_eq_ok.1 h
  split at h
  · cases h
  · next last _ =>
    obtain ⟨_, -, h⟩ := bind_eq_ok.1 h
    obtain rfl := Except.ok.inj h
    intro warning hwarning
    rw [fallbackWarnings] at hwarning
    split at hwarning
    · split at hwarning
      · rw [List.mem_singleton.1 hwarning]
        rfl
      · cases hwarning
    · cases hwarning

theorem fallback_of_checkStacks {fontFallbacks : Bool} {entries : List (String × Json)}
    {found : List Warning} (h : checkStacks fontFallbacks entries = .ok found) :
    ∀ warning ∈ found, warning.isUnknownKey = false := by
  induction entries generalizing found with
  | nil =>
    obtain rfl := Except.ok.inj h
    simp
  | cons entry rest ih =>
    obtain ⟨first, hfirst, h⟩ := bind_eq_ok.1 h
    obtain ⟨more, hmore, h⟩ := bind_eq_ok.1 h
    obtain rfl := Except.ok.inj h
    intro warning hwarning
    obtain hwarning | hwarning := List.mem_append.1 hwarning
    · exact fallback_of_checkStack hfirst warning hwarning
    · exact ih hmore warning hwarning

theorem fallback_of_checkTheme {fontFallbacks : Bool} {tree : Json} {found : List Warning}
    (h : checkTheme ⟨.refuse, fontFallbacks⟩ tree = .ok found) :
    ∀ warning ∈ found, warning.isUnknownKey = false := by
  obtain ⟨theme, -, h⟩ := bind_eq_ok.1 h
  obtain ⟨unknown, hunknown, h⟩ := bind_eq_ok.1 h
  obtain ⟨fonts, hfonts, h⟩ := bind_eq_ok.1 h
  obtain ⟨_, -, h⟩ := bind_eq_ok.1 h
  obtain rfl := Except.ok.inj h
  obtain rfl := eq_nil_of_unknownKeys hunknown
  rw [checkOptional] at hfonts
  split at hfonts
  · obtain ⟨table, -, htable⟩ := bind_eq_ok.1 hfonts
    exact fallback_of_checkStacks htable
  · obtain rfl := Except.ok.inj hfonts
    simp

/-- No strict check warns about an unknown key. -/
theorem fallback_of_checkTree {fontFallbacks : Bool} {tree : Json} {found : List Warning}
    (h : checkTree ⟨.refuse, fontFallbacks⟩ tree = .ok found) :
    ∀ warning ∈ found, warning.isUnknownKey = false := by
  obtain ⟨root, -, h⟩ := bind_eq_ok.1 h
  obtain ⟨unknown, hunknown, h⟩ := bind_eq_ok.1 h
  obtain ⟨_, -, h⟩ := bind_eq_ok.1 h
  obtain ⟨content, hcontent, h⟩ := bind_eq_ok.1 h
  obtain ⟨_, -, h⟩ := bind_eq_ok.1 h
  obtain ⟨theme, htheme, h⟩ := bind_eq_ok.1 h
  obtain ⟨variants, hvariants, h⟩ := bind_eq_ok.1 h
  obtain ⟨_, -, h⟩ := bind_eq_ok.1 h
  obtain rfl := Except.ok.inj h
  obtain rfl := eq_nil_of_unknownKeys hunknown
  obtain rfl := eq_nil_of_checkContent hcontent
  obtain rfl := eq_nil_of_checkVariants hvariants
  rw [checkOptional] at htheme
  split at htheme
  · simpa using fallback_of_checkTheme htheme
  · obtain rfl := Except.ok.inj htheme
    simp

/-! ## Lenient checks -/

theorem filter_unknownWarnings (paths : List String) :
    (unknownWarnings paths).filter Warning.isUnknownKey = unknownWarnings paths :=
  List.filter_eq_self.2 fun warning hwarning => by
    obtain ⟨path, -, rfl⟩ := List.mem_map.1 hwarning
    rfl

theorem filter_not_unknownWarnings (paths : List String) :
    ((unknownWarnings paths).filter fun warning => !warning.isUnknownKey) = [] :=
  List.filter_eq_nil_iff.2 fun warning hwarning => by
    obtain ⟨path, -, rfl⟩ := List.mem_map.1 hwarning
    exact Bool.false_ne_true

/-- The warnings of a lenient check that are not about unknown keys are those of the strict check
of the pruned tree; the others are about the keys that pruning takes off. -/
theorem filter_checkTree_warn (fontFallbacks : Bool) (tree : Json) :
    ((checkTree ⟨.warn, fontFallbacks⟩ tree).map fun found =>
        found.filter fun warning => !warning.isUnknownKey) =
      checkTree ⟨.refuse, fontFallbacks⟩ (pruned tree) ∧
    ∀ found, checkTree ⟨.warn, fontFallbacks⟩ tree = .ok found →
      found.filter Warning.isUnknownKey = unknownWarnings (removedPaths tree) := by
  cases tree with
  | object root =>
    rw [checkTree_warn]
    cases hstrict : checkTree ⟨.refuse, fontFallbacks⟩ (pruned (.object root)) with
    | error e => exact ⟨rfl, fun found h => by cases h⟩
    | ok strict =>
      have hfallback := fallback_of_checkTree hstrict
      have hkept : (strict.filter fun warning => !warning.isUnknownKey) = strict :=
        List.filter_eq_self.2 fun warning hwarning => by simp [hfallback warning hwarning]
      have hdropped : strict.filter Warning.isUnknownKey = [] :=
        List.filter_eq_nil_iff.2 fun warning hwarning => by simp [hfallback warning hwarning]
      refine ⟨?_, fun found h => ?_⟩
      · simp only [ok_map, List.filter_append, filter_not_unknownWarnings, hkept, List.nil_append,
          List.append_nil]
      · obtain rfl := Except.ok.inj h
        simp only [List.filter_append, filter_unknownWarnings, hdropped, removedPaths, sections]
        simp [unknownWarnings]
  | _ => exact ⟨rfl, fun found h => by cases h⟩

/-! ## Strict checks of the same tree -/

/-- A result is the same as another one, or stops at an unknown key. -/
def StrictOr {α : Type} (strict lenient : Except ConfigError α) : Prop :=
  strict = lenient ∨ ∃ key permitted, strict = .error (.unknownKey key permitted)

section Strict

variable {α β : Type}

theorem strictOr_refl (result : Except ConfigError α) : StrictOr result result := .inl rfl

theorem strictOr_bind {strict lenient : Except ConfigError α}
    {next other : α → Except ConfigError β} (h : StrictOr strict lenient)
    (hnext : ∀ found, StrictOr (next found) (other found)) :
    StrictOr (strict >>= next) (lenient >>= other) := by
  obtain rfl | ⟨key, permitted, rfl⟩ := h
  · cases strict with
    | error e => exact strictOr_refl _
    | ok found => exact hnext found
  · exact .inr ⟨key, permitted, rfl⟩

theorem strictOr_unknownKeys (path : String) (permitted : List String)
    (entries : List (String × Json)) :
    StrictOr (unknownKeys .refuse path permitted entries)
      (unknownKeys .warn path permitted entries) := by
  induction entries with
  | nil => exact strictOr_refl _
  | cons entry rest ih =>
    obtain ⟨key, tree⟩ := entry
    by_cases h : key ∈ permitted
    · simpa only [unknownKeys, if_pos h] using ih
    · exact .inr ⟨KeyPath.child path key, permitted, by simp only [unknownKeys, if_neg h]⟩

theorem strictOr_checkOptional (entries : List (String × Json)) (key : String)
    {strict lenient : Json → Check} (h : ∀ tree, StrictOr (strict tree) (lenient tree)) :
    StrictOr (checkOptional entries key strict) (checkOptional entries key lenient) := by
  rw [checkOptional, checkOptional]
  cases Entries.find? entries key with
  | none => exact strictOr_refl _
  | some tree => exact h tree

theorem strictOr_checkContent (root : List (String × Json)) :
    StrictOr (checkContent .refuse root) (checkContent .warn root) := by
  refine strictOr_bind (strictOr_refl _) fun tree => strictOr_bind (strictOr_refl _) fun content => ?_
  exact strictOr_bind (strictOr_unknownKeys _ _ content) fun _ => strictOr_refl _

theorem strictOr_checkTheme (fontFallbacks : Bool) (tree : Json) :
    StrictOr (checkTheme ⟨.refuse, fontFallbacks⟩ tree) (checkTheme ⟨.warn, fontFallbacks⟩ tree) := by
  refine strictOr_bind (strictOr_refl _) fun theme => ?_
  exact strictOr_bind (strictOr_unknownKeys _ _ theme) fun _ => strictOr_refl _

theorem strictOr_checkVariants (tree : Json) :
    StrictOr (checkVariants .refuse tree) (checkVariants .warn tree) := by
  refine strictOr_bind (strictOr_refl _) fun variants => ?_
  exact strictOr_bind (strictOr_unknownKeys _ _ variants) fun _ => strictOr_refl _

/-- A strict check gives what a lenient one gives, or stops at an unknown key. -/
theorem strictOr_checkTree (fontFallbacks : Bool) (tree : Json) :
    StrictOr (checkTree ⟨.refuse, fontFallbacks⟩ tree) (checkTree ⟨.warn, fontFallbacks⟩ tree) := by
  refine strictOr_bind (strictOr_refl _) fun root => ?_
  refine strictOr_bind (strictOr_unknownKeys _ _ root) fun _ => ?_
  refine strictOr_bind (strictOr_refl _) fun _ => ?_
  refine strictOr_bind (strictOr_checkContent root) fun _ => ?_
  refine strictOr_bind (strictOr_refl _) fun _ => ?_
  refine strictOr_bind (strictOr_checkOptional _ _ (strictOr_checkTheme fontFallbacks)) fun _ => ?_
  refine strictOr_bind (strictOr_checkOptional _ _ strictOr_checkVariants) fun _ => ?_
  exact strictOr_refl _

end Strict

end Schema

/-! ## Documents -/

/-- A document without the keys that the schema does not define. -/
def Document.pruned (document : Document) : Document :=
  ⟨Schema.pruned document.root, document.duplicates⟩

namespace Schema

/-- A configuration that was read, without the warnings about unknown keys. -/
def withoutUnknown (checked : Checked Config) : Checked Config :=
  ⟨checked.value, checked.warnings.filter fun warning => !warning.isUnknownKey⟩

/-- The configuration that a checked tree is the value of. -/
def recorded (tree : Json) (warnings : List Warning) : Except ConfigError (Checked Config) :=
  match Config.FromTree.config tree with
  | .ok config => .ok ⟨config, warnings⟩
  | .error cause => .error (.invalidType (shownKey "") recordName cause.message)

theorem check_single (options : LoadOptions) (tree : Json) :
    check options ⟨tree, []⟩ = checkTree options tree >>= recorded tree := rfl

theorem recorded_pruned (tree : Json) (warnings : List Warning) :
    recorded (pruned tree) warnings = recorded tree warnings := by
  rw [recorded, recorded, Config.FromTree.config_pruned]

theorem warnings_of_recorded {tree : Json} {warnings : List Warning} {checked : Checked Config}
    (h : recorded tree warnings = .ok checked) : checked.warnings = warnings := by
  rw [recorded] at h
  split at h
  · rw [← Except.ok.inj h]
  · cases h

theorem map_recorded (tree : Json) (warnings : List Warning) :
    (recorded tree warnings).map withoutUnknown =
      recorded tree (warnings.filter fun warning => !warning.isUnknownKey) := by
  rw [recorded, recorded]
  cases Config.FromTree.config tree <;> rfl

/-- The warnings of a checked document are those of its tree. -/
theorem checkTree_of_check {options : LoadOptions} {document : Document} {checked : Checked Config}
    (h : check options document = .ok checked) :
    checkTree options document.root = .ok checked.warnings := by
  obtain ⟨tree, duplicates⟩ := document
  cases duplicates with
  | cons key rest => cases h
  | nil =>
    obtain ⟨warnings, hwarnings, hrecorded⟩ := bind_eq_ok.1 h
    rw [hwarnings, warnings_of_recorded hrecorded]

/-- A lenient check is the strict check of the pruned document: it gives the same error or the same
configuration, with the same warnings and one more for each key that pruning removes. The strict
check of the document itself gives the same as the lenient one, which then warns about no unknown
key, or stops at an unknown key. -/
theorem check_lenient (fontFallbacks : Bool) (document : Document) :
    (check ⟨.warn, fontFallbacks⟩ document).map withoutUnknown =
      check ⟨.refuse, fontFallbacks⟩ document.pruned ∧
    (∀ checked, check ⟨.warn, fontFallbacks⟩ document = .ok checked →
      checked.warnings.filter Warning.isUnknownKey =
        (removedPaths document.root).map Warning.unknownKey) ∧
    ((check ⟨.refuse, fontFallbacks⟩ document = check ⟨.warn, fontFallbacks⟩ document ∧
        ∀ checked, check ⟨.warn, fontFallbacks⟩ document = .ok checked →
          ∀ warning ∈ checked.warnings, warning.isUnknownKey = false) ∨
      ∃ key permitted,
        check ⟨.refuse, fontFallbacks⟩ document = .error (.unknownKey key permitted)) := by
  obtain ⟨hkept, hremoved⟩ := filter_checkTree_warn fontFallbacks document.root
  refine ⟨?_, fun checked h => hremoved _ (checkTree_of_check h), ?_⟩
  · obtain ⟨tree, _ | ⟨key, rest⟩⟩ := document
    · rw [check_single, map_bind, Document.pruned, check_single, ← hkept]
      cases checkTree ⟨.warn, fontFallbacks⟩ tree with
      | error e => rfl
      | ok found => simp only [ok_bind, ok_map, map_recorded, recorded_pruned]
    · rfl
  · have hstrict : StrictOr (check ⟨.refuse, fontFallbacks⟩ document)
        (check ⟨.warn, fontFallbacks⟩ document) := by
      obtain ⟨tree, _ | ⟨key, rest⟩⟩ := document
      · exact strictOr_bind (strictOr_checkTree fontFallbacks tree) fun _ => strictOr_refl _
      · exact strictOr_refl _
    refine hstrict.imp_left fun hsame => ⟨hsame, fun checked h => ?_⟩
    exact fallback_of_checkTree (checkTree_of_check (hsame.trans h))

/-- A document with a key to remove in the root and in each of the sections. -/
theorem check_lenient_everywhere :
    let document : Document := ⟨.object [("purge", .null),
      ("theme", .object [("fontFamily", .object [("body", .strings ["Inter"])]), ("color", .null)]),
      ("variants", .object [("hover", .null)]),
      ("content", .object [("glob", .null), ("files", .strings ["a"])])], []⟩
    ∃ lenient, check ⟨.warn, true⟩ document = .ok lenient ∧
      check ⟨.refuse, true⟩ document.pruned = .ok (withoutUnknown lenient) ∧
      (withoutUnknown lenient).warnings = [.nonGenericFallback "body" "Inter"] ∧
      lenient.warnings.filter Warning.isUnknownKey =
        [.unknownKey "purge", .unknownKey "content.glob", .unknownKey "theme.color",
          .unknownKey "variants.hover"] ∧
      check ⟨.refuse, true⟩ document = .error (.unknownKey "purge" rootKeys) := by
  intro document
  obtain ⟨hsame, hremoved, -⟩ := check_lenient true document
  obtain ⟨lenient, hlenient, hwarnings⟩ : ∃ lenient, check ⟨.warn, true⟩ document = .ok lenient ∧
      (withoutUnknown lenient).warnings = [.nonGenericFallback "body" "Inter"] :=
    ⟨_, rfl, by decide⟩
  rw [hlenient, ok_map] at hsame
  exact ⟨lenient, hlenient, hsame.symm, hwarnings, hremoved lenient hlenient, rfl⟩

end Schema

end CssBuild
