import CssBuild.Config.Schema
import CssBuild.Proofs.Results
import Mathlib.Data.List.Find

/-!
# CssBuild.Proofs.Config.Pruning

Trees without the keys that the schema does not define.

1. Pruning takes these keys off the root, the content, the theme and the
   variants; `removedPaths` lists what it takes.
2. They have no part in the value of a tree (`FromTree.config_pruned`).
3. A lenient check of a tree is the strict check of the pruned tree that warns
   about the removed keys as well (`checkTree_warn`).
-/

namespace CssBuild

/-- Whether a warning is about a key outside the schema. -/
def Warning.isUnknownKey : Warning → Bool
  | unknownKey _ => true
  | _ => false

namespace Schema

/-! ## Pruning -/

/-- The parts whose keys the schema defines, in the order in which they are checked. -/
def sections : Entries (List String) :=
  [("content", contentKeys), ("theme", themeKeys), ("variants", variantsKeys)]

/-- The entries that the schema defines. -/
def known (permitted : List String) (entries : List (String × Json)) : List (String × Json) :=
  entries.filter fun entry => entry.1 ∈ permitted

/-- The paths of the entries that the schema does not define. -/
def unknownPaths (path : String) (permitted : List String) (entries : List (String × Json)) :
    List String :=
  (entries.filter fun entry => entry.1 ∉ permitted).map fun entry => KeyPath.child path entry.1

/-- An object without the entries that the schema does not define. -/
def prunedObject (permitted : List String) : Json → Json
  | .object entries => .object (known permitted entries)
  | tree => tree

/-- A part of the root, pruned if its keys are checked. -/
def prunedPart (key : String) (tree : Json) : Json :=
  match Entries.find? sections key with
  | some permitted => prunedObject permitted tree
  | none => tree

/-- The entries of a root without the keys that the schema does not define. -/
def prunedEntries (root : List (String × Json)) : List (String × Json) :=
  known rootKeys (root.map fun entry => (entry.1, prunedPart entry.1 entry.2))

/-- A tree without the keys that the schema does not define. -/
def pruned : Json → Json
  | .object root => .object (prunedEntries root)
  | tree => tree

/-- The paths of the keys that pruning takes off a part of the root, if it is there. -/
def removedFrom (root : List (String × Json)) (key : String) (permitted : List String) :
    List String :=
  match Entries.find? root key with
  | some (.object entries) => unknownPaths key permitted entries
  | _ => []

/-- The paths of the keys that pruning takes off: those of the root, then those of each part. -/
def removedPaths : Json → List String
  | .object root =>
    unknownPaths "" rootKeys root ++
      sections.flatMap fun part => removedFrom root part.1 part.2
  | _ => []

/-- Warnings about the keys at some paths. -/
def unknownWarnings (paths : List String) : List Warning := paths.map .unknownKey

/-! ## Keys of an object -/

theorem unknownKeys_warn (path : String) (permitted : List String)
    (entries : List (String × Json)) :
    unknownKeys .warn path permitted entries =
      .ok (unknownWarnings (unknownPaths path permitted entries)) := by
  induction entries with
  | nil => rfl
  | cons entry rest ih =>
    obtain ⟨key, tree⟩ := entry
    by_cases h : key ∈ permitted
    · simp [unknownKeys, unknownPaths, h, ih]
    · simp [unknownKeys, unknownPaths, unknownWarnings, h, ih]

theorem unknownKeys_known (policy : UnknownKeys) (path : String) (permitted : List String)
    (entries : List (String × Json)) :
    unknownKeys policy path permitted (known permitted entries) = .ok [] := by
  induction entries with
  | nil => rfl
  | cons entry rest ih =>
    obtain ⟨key, tree⟩ := entry
    by_cases h : key ∈ permitted
    · simpa [known, unknownKeys, h] using ih
    · simpa [known, h] using ih

theorem find?_known {permitted : List String} {key : String} (h : key ∈ permitted)
    (entries : List (String × Json)) :
    Entries.find? (known permitted entries) key = Entries.find? entries key := by
  induction entries with
  | nil => rfl
  | cons entry rest ih =>
    obtain ⟨k, tree⟩ := entry
    simp only [known] at ih
    by_cases hk : k ∈ permitted
    · simp [known, hk, Entries.find?, ih]
    · have hne : k ≠ key := fun heq => hk (heq ▸ h)
      simp [known, hk, Entries.find?, hne, ih]

theorem find?_map (f : String → Json → Json) (entries : List (String × Json)) (key : String) :
    Entries.find? (entries.map fun entry => (entry.1, f entry.1 entry.2)) key =
      (Entries.find? entries key).map (f key) := by
  induction entries with
  | nil => rfl
  | cons entry rest ih =>
    obtain ⟨k, tree⟩ := entry
    by_cases hk : k = key
    · subst hk
      simp [Entries.find?]
    · simp [Entries.find?, hk, ih]

theorem find?_prunedEntries {key : String} (h : key ∈ rootKeys) (root : List (String × Json)) :
    Entries.find? (prunedEntries root) key = (Entries.find? root key).map (prunedPart key) := by
  rw [prunedEntries, find?_known h, find?_map]

theorem unknownKeys_prunedEntries (policy : UnknownKeys) (root : List (String × Json)) :
    unknownKeys policy "" rootKeys (prunedEntries root) = .ok [] := unknownKeys_known ..

/-! ## Lenient checks -/

/-- A check that warns about some keys before anything else. -/
def warningAbout (paths : List String) (check : Check) : Check :=
  check.map (unknownWarnings paths ++ ·)

@[simp] theorem warningAbout_ok (paths : List String) (warnings : List Warning) :
    warningAbout paths (.ok warnings) = .ok (unknownWarnings paths ++ warnings) := rfl

@[simp] theorem warningAbout_error (paths : List String) (e : ConfigError) :
    warningAbout paths (.error e) = .error e := rfl

theorem warningAbout_bind {α : Type} (paths : List String) (result : Except ConfigError α)
    (next : α → Check) :
    warningAbout paths (result >>= next) = result >>= fun found => warningAbout paths (next found) :=
  map_bind result next _

theorem bind_warningAbout (paths : List String) (check : Check) (next : List Warning → Check) :
    (warningAbout paths check >>= next) =
      check >>= fun warnings => next (unknownWarnings paths ++ warnings) := by
  cases check <;> rfl

theorem checkOptional_prunedEntries {key : String} (h : key ∈ rootKeys)
    (root : List (String × Json)) (check : Json → Check) :
    checkOptional (prunedEntries root) key check =
      checkOptional root key fun tree => check (prunedPart key tree) := by
  rw [checkOptional, checkOptional, find?_prunedEntries h]
  cases Entries.find? root key <;> rfl

theorem checkOptional_known {permitted : List String} {key : String} (h : key ∈ permitted)
    (entries : List (String × Json)) (check : Json → Check) :
    checkOptional (known permitted entries) key check = checkOptional entries key check := by
  rw [checkOptional, checkOptional, find?_known h]

theorem checkContent_warn (root : List (String × Json)) :
    checkContent .warn root =
      warningAbout (removedFrom root "content" contentKeys)
        (checkContent .refuse (prunedEntries root)) := by
  have hfind := find?_prunedEntries (show "content" ∈ rootKeys by decide) root
  simp only [checkContent, required, removedFrom, hfind]
  cases Entries.find? root "content" with
  | none => rfl
  | some tree =>
    cases tree with
    | object content =>
      have hpart : prunedPart "content" (.object content) = .object (known contentKeys content) :=
        rfl
      have hfiles := find?_known (show "files" ∈ contentKeys by decide) content
      simp only [Option.map_some, hpart, objectAt, ok_bind, unknownKeys_warn, unknownKeys_known,
        hfiles, warningAbout_bind, apply_ite (warningAbout _), warningAbout_ok, warningAbout_error,
        List.append_nil]
    | _ => rfl

theorem checkTheme_warn (fontFallbacks : Bool) (theme : List (String × Json)) :
    checkTheme ⟨.warn, fontFallbacks⟩ (.object theme) =
      warningAbout (unknownPaths "theme" themeKeys theme)
        (checkTheme ⟨.refuse, fontFallbacks⟩ (prunedPart "theme" (.object theme))) := by
  have hpart : prunedPart "theme" (.object theme) = .object (known themeKeys theme) := rfl
  simp only [checkTheme, hpart, objectAt, ok_bind, unknownKeys_warn, unknownKeys_known,
    checkOptional_known (show "fontFamily" ∈ themeKeys by decide),
    checkOptional_known (show "extend" ∈ themeKeys by decide), warningAbout_bind, warningAbout_ok,
    List.nil_append]

theorem checkVariants_warn (variants : List (String × Json)) :
    checkVariants .warn (.object variants) =
      warningAbout (unknownPaths "variants" variantsKeys variants)
        (checkVariants .refuse (prunedPart "variants" (.object variants))) := by
  have hpart : prunedPart "variants" (.object variants) = .object (known variantsKeys variants) :=
    rfl
  simp only [checkVariants, hpart, objectAt, ok_bind, unknownKeys_warn, unknownKeys_known,
    checkOptional_known (show "extend" ∈ variantsKeys by decide), warningAbout_bind, warningAbout_ok,
    List.append_nil]

/-- A part that may be left out is checked leniently as its pruned tree is checked strictly. -/
theorem checkOptional_warn {key : String} (h : key ∈ rootKeys) {permitted : List String}
    (root : List (String × Json)) {lenient strict : Json → Check}
    (hobject : ∀ entries, lenient (.object entries) =
      warningAbout (unknownPaths key permitted entries) (strict (prunedPart key (.object entries))))
    (hother : ∀ tree, tree.entries? = none →
      lenient tree = warningAbout [] (strict (prunedPart key tree))) :
    checkOptional root key lenient =
      warningAbout (removedFrom root key permitted)
        (checkOptional (prunedEntries root) key strict) := by
  rw [checkOptional_prunedEntries h, checkOptional, checkOptional, removedFrom]
  cases Entries.find? root key with
  | none => rfl
  | some tree =>
    cases tree with
    | object entries => exact hobject entries
    | _ => exact hother _ rfl

/-! ## What strict checks warn about -/

theorem eq_nil_of_unknownKeys {path : String} {permitted : List String}
    {entries : List (String × Json)} {found : List Warning}
    (h : unknownKeys .refuse path permitted entries = .ok found) : found = [] := by
  induction entries with
  | nil => exact (Except.ok.inj h).symm
  | cons entry rest ih =>
    obtain ⟨key, tree⟩ := entry
    by_cases hk : key ∈ permitted
    · exact ih (by simpa [unknownKeys, hk] using h)
    · simp [unknownKeys, hk] at h

theorem eq_nil_of_checkContent {root : List (String × Json)} {found : List Warning}
    (h : checkContent .refuse root = .ok found) : found = [] := by
  obtain ⟨_, -, h⟩ := bind_eq_ok.1 h
  obtain ⟨_, -, h⟩ := bind_eq_ok.1 h
  obtain ⟨unknown, hunknown, h⟩ := bind_eq_ok.1 h
  obtain ⟨_, -, h⟩ := bind_eq_ok.1 h
  obtain ⟨files, -, h⟩ := bind_eq_ok.1 h
  split at h
  · cases h
  · obtain ⟨_, -, h⟩ := bind_eq_ok.1 h
    rw [← Except.ok.inj h]
    exact eq_nil_of_unknownKeys hunknown

theorem eq_nil_of_checkVariants {root : List (String × Json)} {found : List Warning}
    (h : checkOptional root "variants" (checkVariants .refuse) = .ok found) : found = [] := by
  rw [checkOptional] at h
  split at h
  · obtain ⟨_, -, h⟩ := bind_eq_ok.1 h
    obtain ⟨unknown, hunknown, h⟩ := bind_eq_ok.1 h
    obtain ⟨_, -, h⟩ := bind_eq_ok.1 h
    rw [← Except.ok.inj h]
    exact eq_nil_of_unknownKeys hunknown
  · exact (Except.ok.inj h).symm

/-! ## Trees -/

/-- A lenient check is the strict check of the pruned tree, with warnings about what pruning takes
off: before the others for the root, the content and the theme, and after them for the variants. -/
theorem checkTree_warn (fontFallbacks : Bool) (root : List (String × Json)) :
    checkTree ⟨.warn, fontFallbacks⟩ (.object root) =
      (checkTree ⟨.refuse, fontFallbacks⟩ (pruned (.object root))).map fun strict =>
        unknownWarnings (unknownPaths "" rootKeys root ++ removedFrom root "content" contentKeys ++
            removedFrom root "theme" themeKeys) ++ strict ++
          unknownWarnings (removedFrom root "variants" variantsKeys) := by
  have hsame (key : String) (check : Json → Check) (h : key ∈ rootKeys)
      (hpart : Entries.find? sections key = none) :
      checkOptional (prunedEntries root) key check = checkOptional root key check := by
    rw [checkOptional_prunedEntries h]
    simp only [prunedPart, hpart]
  have htheme := checkOptional_warn (show "theme" ∈ rootKeys by decide) root
    (checkTheme_warn fontFallbacks) fun tree htree => by cases tree <;> first | rfl | cases htree
  have hvariants := checkOptional_warn (show "variants" ∈ rootKeys by decide) root
    checkVariants_warn fun tree htree => by cases tree <;> first | rfl | cases htree
  simp only [pruned, checkTree, objectAt, ok_bind, unknownKeys_warn, unknownKeys_prunedEntries,
    hsame _ _ (show "mode" ∈ rootKeys by decide) rfl,
    hsame _ _ (show "darkMode" ∈ rootKeys by decide) rfl,
    hsame _ _ (show "plugins" ∈ rootKeys by decide) rfl, checkContent_warn, htheme, hvariants]
  simp only [bind_warningAbout, map_bind]
  refine bind_congr_ok fun _ _ => bind_congr_ok fun content hcontent => ?_
  refine bind_congr_ok fun _ _ => bind_congr_ok fun fonts _ => ?_
  refine bind_congr_ok fun variants hvariants => bind_congr_ok fun _ _ => ?_
  obtain rfl := eq_nil_of_checkContent hcontent
  obtain rfl := eq_nil_of_checkVariants hvariants
  simp [unknownWarnings]

end Schema

/-! ## Values -/

namespace Config.FromTree

open Json (Cause)
open Schema

section Records

variable {ρ : Type} {fields : List (Field ρ)}

/-- The keys of some fields. -/
def fieldNames (fields : List (Field ρ)) : List String := fields.map Field.name

theorem find?_isSome_iff {key : String} :
    (fields.find? fun field => field.name = key).isSome ↔ key ∈ fieldNames fields := by
  simp [fieldNames, List.find?_isSome]

/-- Entries of other keys than those of the fields are passed over, and an entry counts for what
its field reads only. -/
theorem putEntries_known (f : String → Json → Json)
    (hf : ∀ field ∈ fields, ∀ record tree,
      field.put record (f field.name tree) = field.put record tree)
    (draft : ρ) (entries : List (String × Json)) :
    putEntries fields draft
        (known (fieldNames fields) (entries.map fun entry => (entry.1, f entry.1 entry.2))) =
      putEntries fields draft entries := by
  induction entries generalizing draft with
  | nil => rfl
  | cons entry rest ih =>
    obtain ⟨key, tree⟩ := entry
    cases hfind : fields.find? fun field => field.name = key with
    | none =>
      have hkey : key ∉ fieldNames fields := by simp [← find?_isSome_iff, hfind]
      simp only [putEntries, hfind, ← ih, known, List.map_cons, List.filter_cons, hkey,
        decide_false]
      rfl
    | some field =>
      have hkey : key ∈ fieldNames fields := by simp [← find?_isSome_iff, hfind]
      obtain rfl : field.name = key := by simpa using List.find?_some hfind
      simp only [known] at ih
      simp only [known, List.map_cons, List.filter_cons, hkey, decide_true, if_true, putEntries,
        hfind, ih, hf field (List.mem_of_find?_eq_some hfind)]

theorem has_known {key : String} (h : key ∈ fieldNames fields) (f : String → Json → Json)
    (entries : List (String × Json)) :
    Entries.has
        (known (fieldNames fields) (entries.map fun entry => (entry.1, f entry.1 entry.2))) key =
      Entries.has entries key := by
  rw [Entries.has_eq_isSome, Entries.has_eq_isSome, find?_known h, find?_map, Option.isSome_map]

/-- A record is the value of an object whatever other keys the object has. -/
theorem record_known (name : String) (f : String → Json → Json)
    (hf : ∀ field ∈ fields, ∀ record tree,
      field.put record (f field.name tree) = field.put record tree)
    (draft : ρ) (entries : List (String × Json)) :
    record name fields draft
        (.object (known (fieldNames fields) (entries.map fun entry => (entry.1, f entry.1 entry.2)))) =
      record name fields draft (.object entries) := by
  have hmissing := List.find?_congr (l := fields) fun field hfield =>
    congrArg (field.required && !·)
      (has_known (List.mem_map_of_mem (f := Field.name) hfield) f entries)
  rw [record, record, putEntries_known f hf, hmissing]

theorem record_prunedObject (name : String) (draft : ρ) (tree : Json) :
    record name fields draft (prunedObject (fieldNames fields) tree) =
      record name fields draft tree := by
  cases tree with
  | object entries =>
    have hsame := record_known name (fun _ tree => tree)
      (fun (field : Field ρ) (_ : field ∈ fields) _ _ => rfl) draft entries
    rwa [List.map_id'] at hsame
  | _ => rfl

end Records

/-- Unknown keys have no part in the value of a tree. -/
theorem config_pruned (tree : Json) : config (pruned tree) = config tree := by
  cases tree with
  | object root =>
    refine record_known "BuildConfiguration" prunedPart
      (fun (field : Field Config) (hfield : field ∈ configFields) draft tree => ?_) _ root
    simp only [configFields, List.mem_cons, List.not_mem_nil, or_false] at hfield
    obtain rfl | rfl | rfl | rfl | rfl | rfl := hfield
    · rfl
    · exact congrArg (Except.map _) (record_prunedObject _ _ tree)
    · rfl
    · exact congrArg (Except.map _) (record_prunedObject _ _ tree)
    · exact congrArg (Except.map _) (record_prunedObject _ _ tree)
    · rfl
  | _ => rfl

end Config.FromTree

end CssBuild
