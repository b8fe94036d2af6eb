import CssBuild.Proofs.Config.Description
import CssBuild.Proofs.Config.Pruning

/-!
# CssBuild.Proofs.Config.Defects

All that is wrong with a document.

1. `defects` lists it in the order of the schema, without stopping anywhere. What
   is in a value is only looked at where the value is of the kind that it should
   be: an object without the right entries has several defects, a number in its
   place has one.
2. A check `StopsAt` a list if it gives the first defect of the list, or finds
   nothing wrong where the list is empty. Each check stops at the defects of its
   part, since checks after one another stop at the first list that is not empty
   (`StopsAt.bind`).
3. So a document is refused with its first defect, whatever comes after it
   (`check_first_defect`).
-/

namespace CssBuild

namespace Schema

/-! ## Defects of values -/

/-- What is wrong with a value that should be of a kind. -/
def kindDefects (key expected : String) (tree : Json) : List ConfigError :=
  if tree.kind = expected then [] else [wrongKind key expected tree]

/-- What is wrong with an object, of which its entries can have defects. -/
def objectDefects (key : String) (inside : List (String × Json) → List ConfigError) :
    Json → List ConfigError
  | .object entries => inside entries
  | tree => [wrongKind key "object" tree]

/-- What is wrong with an array that needs items, each of which can have defects at its path. -/
def sequenceDefects (key : String) (inside : String → Json → List ConfigError) :
    Json → List ConfigError
  | .array [] => [.emptySequence key]
  | .array items => items.zipIdx.flatMap fun item => inside (itemPath key item.2) item.1
  | tree => [wrongKind key "array" tree]

/-- What is wrong with a value that should be one of some names. -/
def nameDefects (key : String) (names : List String) (tree : Json) : List ConfigError :=
  if names.any fun name => tree.text? = some name then []
  else [.invalidValue key tree.compact names]

/-- What is wrong with a value that should be a glob. -/
def patternDefects (key : String) : Json → List ConfigError
  | .string text =>
    match (Pattern.mk text).compile with
    | .ok _ => []
    | .error fault => [.invalidGlob key text (fault.message (Pattern.mk text).globText)]
  | tree => [wrongKind key "string" tree]

/-! ## Defects of entries -/

/-- The keys of an object that the schema does not define, unless they are passed over. -/
def unknownDefects (policy : UnknownKeys) (path : String) (permitted : List String)
    (entries : List (String × Json)) : List ConfigError :=
  match policy with
  | .refuse => (unknownPaths path permitted entries).map fun key => .unknownKey key permitted
  | .warn => []

/-- What is wrong with a part that may be left out. -/
def optionalDefects (entries : List (String × Json)) (key : String)
    (inside : Json → List ConfigError) : List ConfigError :=
  match Entries.find? entries key with
  | some tree => inside tree
  | none => []

/-- What is wrong with a part that has to be there. -/
def requiredDefects (entries : List (String × Json)) (key path : String)
    (inside : Json → List ConfigError) : List ConfigError :=
  match Entries.find? entries key with
  | some tree => inside tree
  | none => [.missingKey path]

/-! ## Defects of documents -/

/-- What is wrong with the content of a root. -/
def contentDefects (policy : UnknownKeys) (root : List (String × Json)) : List ConfigError :=
  requiredDefects root "content" "content" <| objectDefects "content" fun content =>
    unknownDefects policy "content" contentKeys content ++
      requiredDefects content "files" "content.files"
        (sequenceDefects "content.files" patternDefects)

/-- What is wrong with the stack of a token. -/
def stackDefects (token : String) : Json → List ConfigError :=
  sequenceDefects (KeyPath.child "theme.fontFamily" token) fun key => kindDefects key "string"

/-- What is wrong with a font table. -/
def fontDefects : Json → List ConfigError :=
  objectDefects "theme.fontFamily" fun table => table.flatMap fun entry =>
    stackDefects entry.1 entry.2

/-- What is wrong with the theme. -/
def themeDefects (policy : UnknownKeys) : Json → List ConfigError :=
  objectDefects "theme" fun theme =>
    unknownDefects policy "theme" themeKeys theme ++ optionalDefects theme "fontFamily" fontDefects ++
      optionalDefects theme "extend" (kindDefects "theme.extend" "object")

/-- What is wrong with the variants. -/
def variantsDefects (policy : UnknownKeys) : Json → List ConfigError :=
  objectDefects "variants" fun variants =>
    unknownDefects policy "variants" variantsKeys variants ++
      optionalDefects variants "extend" (kindDefects "variants.extend" "object")

/-- What is wrong with a tree. -/
def treeDefects (policy : UnknownKeys) : Json → List ConfigError :=
  objectDefects "" fun root =>
    unknownDefects policy "" rootKeys root ++
      optionalDefects root "mode" (nameDefects "mode" Mode.names) ++
      contentDefects policy root ++
      optionalDefects root "darkMode" (nameDefects "darkMode" DarkMode.names) ++
      optionalDefects root "theme" (themeDefects policy) ++
      optionalDefects root "variants" (variantsDefects policy) ++
      optionalDefects root "plugins" (kindDefects "plugins" "array")

/-- What is wrong with a document: the first path that is repeated, and the defects of its tree. -/
def defects (policy : UnknownKeys) (document : Document) : List ConfigError :=
  (document.duplicates.take 1).map .duplicateKey ++ treeDefects policy document.root

/-! ## Stopping at the first defect -/

section Stops

variable {ε α β : Type}

/-- Whether a result is the first error of a list, or none where the list is empty. -/
def StopsAt (result : Except ε α) : List ε → Prop
  | [] => Accepts result
  | e :: _ => result = .error e

theorem stopsAt_ok (found : α) : StopsAt (.ok found : Except ε α) [] := accepts_ok found

theorem StopsAt.eq_error_iff {result : Except ε α} {errors : List ε} (h : StopsAt result errors)
    {e : ε} : result = .error e ↔ errors.head? = some e := by
  cases errors with
  | nil =>
    obtain ⟨found, rfl⟩ := h
    exact iff_of_false (fun h => nomatch h) (fun h => nomatch h)
  | cons first rest =>
    rw [StopsAt] at h
    rw [h, Except.error.injEq, List.head?_cons, Option.some.injEq]

theorem StopsAt.accepts_iff {result : Except ε α} {errors : List ε} (h : StopsAt result errors) :
    Accepts result ↔ errors = [] := by
  cases errors with
  | nil => exact iff_of_true h rfl
  | cons first rest =>
    rw [StopsAt] at h
    rw [h]
    exact iff_of_false (not_accepts_error first) (List.cons_ne_nil _ _)

/-- A stage after another one stops at the errors of both, one list after the other. -/
theorem StopsAt.bind {result : Except ε α} {next : α → Except ε β} {errors more : List ε}
    (h : StopsAt result errors) (hnext : ∀ found, result = .ok found → StopsAt (next found) more) :
    StopsAt (result >>= next) (errors ++ more) := by
  cases errors with
  | nil =>
    obtain ⟨found, rfl⟩ := h
    exact hnext found rfl
  | cons e rest =>
    rw [StopsAt] at h
    rw [h]
    rfl

/-- A stage that cannot fail adds no errors. -/
theorem StopsAt.last {result : Except ε α} {next : α → Except ε β} {errors : List ε}
    (h : StopsAt result errors) (hnext : ∀ found, result = .ok found → Accepts (next found)) :
    StopsAt (result >>= next) errors := by
  rw [← List.append_nil errors]
  exact h.bind hnext

end Stops

/-! ## Checks of values -/

theorem stopsAt_objectAt {α : Type} (key : String) (tree : Json)
    {next : List (String × Json) → Except ConfigError α}
    {inside : List (String × Json) → List ConfigError}
    (h : ∀ entries, tree = .object entries → StopsAt (next entries) (inside entries)) :
    StopsAt (objectAt key tree >>= next) (objectDefects key inside tree) := by
  cases tree with
  | object entries => exact h entries rfl
  | null | bool _ | number _ | string _ | array _ => rfl

theorem stopsAt_textAt (key : String) (tree : Json) :
    StopsAt (textAt key tree) (kindDefects key "string" tree) := by
  cases tree with
  | string s => exact stopsAt_ok s
  | null | bool _ | number _ | array _ | object _ => rfl

theorem stopsAt_checkOverrides (key : String) (tree : Json) :
    StopsAt (checkOverrides key tree) (kindDefects key "object" tree) := by
  cases tree with
  | object entries => exact stopsAt_ok []
  | null | bool _ | number _ | string _ | array _ => rfl

theorem stopsAt_checkPlugins (tree : Json) :
    StopsAt (checkPlugins tree) (kindDefects "plugins" "array" tree) := by
  cases tree with
  | array items => exact stopsAt_ok []
  | null | bool _ | number _ | string _ | object _ => rfl

theorem stopsAt_checkName (key : String) (names : List String) (tree : Json) :
    StopsAt (checkName key names tree) (nameDefects key names tree) := by
  rw [checkName, nameDefects]
  cases hname : tree.text? with
  | none => simp [StopsAt]
  | some name => by_cases h : name ∈ names <;> simp [StopsAt, h, Accepts]

theorem stopsAt_checkPatterns (i : Nat) (items : List Json) :
    StopsAt (checkPatterns i items) ((items.zipIdx i).flatMap fun item =>
      patternDefects (itemPath "content.files" item.2) item.1) := by
  induction items generalizing i with
  | nil => exact stopsAt_ok []
  | cons item rest ih =>
    rw [checkPatterns, List.zipIdx_cons, List.flatMap_cons]
    cases item with
    | string text =>
      simp only [textAt, ok_bind, patternDefects]
      cases hcompile : (Pattern.mk text).compile with
      | ok glob => exact ih (i + 1)
      | error fault => rfl
    | null | bool _ | number _ | array _ | object _ => rfl

theorem stopsAt_checkFamilies (path : String) (i : Nat) (items : List Json) :
    StopsAt (checkFamilies path i items) ((items.zipIdx i).flatMap fun item =>
      kindDefects (itemPath path item.2) "string" item.1) := by
  induction items generalizing i with
  | nil => exact stopsAt_ok []
  | cons item rest ih =>
    rw [checkFamilies, List.zipIdx_cons, List.flatMap_cons]
    exact (stopsAt_textAt _ item).bind fun _ _ => ih (i + 1)

theorem stopsAt_checkStack (fontFallbacks : Bool) (token : String) (tree : Json) :
    StopsAt (checkStack fontFallbacks token tree) (stackDefects token tree) := by
  cases tree with
  | array items =>
    cases items with
    | nil => rfl
    | cons first rest =>
      rw [checkStack, arrayAt, ok_bind, List.getLast?_cons]
      exact (stopsAt_checkFamilies _ 0 _).last fun _ _ => accepts_ok _
  | null | bool _ | number _ | string _ | object _ => rfl

theorem stopsAt_checkStacks (fontFallbacks : Bool) (entries : List (String × Json)) :
    StopsAt (checkStacks fontFallbacks entries)
      (entries.flatMap fun entry => stackDefects entry.1 entry.2) := by
  induction entries with
  | nil => exact stopsAt_ok []
  | cons entry rest ih =>
    obtain ⟨token, tree⟩ := entry
    rw [checkStacks, List.flatMap_cons]
    exact (stopsAt_checkStack _ token tree).bind fun _ _ => ih.last fun _ _ => accepts_ok _

/-! ## Checks of entries -/

theorem stopsAt_unknownKeys (policy : UnknownKeys) (path : String) (permitted : List String)
    (entries : List (String × Json)) :
    StopsAt (unknownKeys policy path permitted entries)
      (unknownDefects policy path permitted entries) := by
  cases policy with
  | warn => exact ⟨_, unknownKeys_warn path permitted entries⟩
  | refuse =>
    induction entries with
    | nil => exact stopsAt_ok []
    | cons entry rest ih =>
      obtain ⟨key, tree⟩ := entry
      by_cases h : key ∈ permitted
      · simpa [unknownKeys, unknownDefects, unknownPaths, h] using ih
      · simp [unknownKeys, unknownDefects, unknownPaths, h, StopsAt]

theorem stopsAt_checkOptional {entries : List (String × Json)} {key : String}
    {check : Json → Check} {inside : Json → List ConfigError}
    (h : ∀ tree, StopsAt (check tree) (inside tree)) :
    StopsAt (checkOptional entries key check) (optionalDefects entries key inside) := by
  rw [checkOptional, optionalDefects]
  cases Entries.find? entries key with
  | some tree => exact h tree
  | none => exact stopsAt_ok []

theorem stopsAt_required {α : Type} (entries : List (String × Json)) (key path : String)
    {next : Json → Except ConfigError α} {inside : Json → List ConfigError}
    (h : ∀ tree, StopsAt (next tree) (inside tree)) :
    StopsAt (required entries key path >>= next) (requiredDefects entries key path inside) := by
  rw [required, requiredDefects]
  cases Entries.find? entries key with
  | some tree => exact h tree
  | none => rfl

/-! ## Checks of documents -/

theorem stopsAt_checkContent (policy : UnknownKeys) (root : List (String × Json)) :
    StopsAt (checkContent policy root) (contentDefects policy root) := by
  refine stopsAt_required root _ _ fun tree => stopsAt_objectAt _ tree fun content _ => ?_
  refine (stopsAt_unknownKeys policy _ _ content).bind fun unknown _ => ?_
  refine stopsAt_required content _ _ fun files => ?_
  cases files with
  | array items =>
    cases items with
    | nil => rfl
    | cons first rest => exact (stopsAt_checkPatterns 0 _).last fun _ _ => accepts_ok unknown
  | null | bool _ | number _ | string _ | object _ => rfl

theorem stopsAt_checkTheme (options : LoadOptions) (tree : Json) :
    StopsAt (checkTheme options tree) (themeDefects options.unknownKeys tree) := by
  refine stopsAt_objectAt _ tree fun theme _ => ?_
  rw [List.append_assoc]
  refine (stopsAt_unknownKeys _ _ _ theme).bind fun unknown _ => ?_
  refine (stopsAt_checkOptional fun fonts => ?_).bind fun fonts _ => ?_
  · exact stopsAt_objectAt _ fonts fun table _ => stopsAt_checkStacks _ table
  · exact (stopsAt_checkOptional (stopsAt_checkOverrides _)).last fun _ _ => accepts_ok _

theorem stopsAt_checkVariants (policy : UnknownKeys) (tree : Json) :
    StopsAt (checkVariants policy tree) (variantsDefects policy tree) := by
  refine stopsAt_objectAt _ tree fun variants _ => ?_
  refine (stopsAt_unknownKeys _ _ _ variants).bind fun unknown _ => ?_
  exact (stopsAt_checkOptional (stopsAt_checkOverrides _)).last fun _ _ => accepts_ok unknown

theorem stopsAt_checkTree (options : LoadOptions) (tree : Json) :
    StopsAt (checkTree options tree) (treeDefects options.unknownKeys tree) := by
  refine stopsAt_objectAt _ tree fun root _ => ?_
  simp only [List.append_assoc]
  refine (stopsAt_unknownKeys _ _ _ root).bind fun unknown _ => ?_
  refine (stopsAt_checkOptional (stopsAt_checkName _ _)).bind fun _ _ => ?_
  refine (stopsAt_checkContent _ root).bind fun content _ => ?_
  refine (stopsAt_checkOptional (stopsAt_checkName _ _)).bind fun _ _ => ?_
  refine (stopsAt_checkOptional (stopsAt_checkTheme options)).bind fun theme _ => ?_
  refine (stopsAt_checkOptional (stopsAt_checkVariants _)).bind fun variants _ => ?_
  exact (stopsAt_checkOptional stopsAt_checkPlugins).last fun _ _ => accepts_ok _

theorem stopsAt_check (options : LoadOptions) {document : Document}
    (wellFormed : document.WellFormed) :
    StopsAt (check options document) (defects options.unknownKeys document) := by
  rw [check, defects]
  cases document.duplicates with
  | cons key rest => rfl
  | nil =>
    -- A tree without defects has a value, so nothing is left that could fail.
    refine (stopsAt_checkTree options document.root).last fun warnings hwarnings => ?_
    have hconforms := (accepts_checkTree options wellFormed).1 ⟨warnings, hwarnings⟩
    obtain ⟨config, hconfig, -⟩ := Config.FromTree.config_of_conforms hconforms wellFormed
    rw [hconfig]
    exact accepts_ok _

/-- A document is refused with the first of its defects, and accepted if it has none. What comes
after the first defect does not matter. -/
theorem check_first_defect (options : LoadOptions) (document : Document)
    (wellFormed : document.WellFormed) :
    (∀ e, check options document = .error e ↔
      (defects options.unknownKeys document).head? = some e) ∧
    ((∃ checked, check options document = .ok checked) ↔
      defects options.unknownKeys document = []) ∧
    ∀ (others : LoadOptions) (other : Document), other.WellFormed →
      (defects others.unknownKeys other).head? = (defects options.unknownKeys document).head? →
      ∀ e, check others other = .error e ↔ check options document = .error e := by
  have hstops := stopsAt_check options wellFormed
  refine ⟨fun e => hstops.eq_error_iff, hstops.accepts_iff, fun others other hother hhead e => ?_⟩
  rw [(stopsAt_check others hother).eq_error_iff, hstops.eq_error_iff, hhead]

/-- A document with a defect in each of its parts. Where unknown keys are passed over, the mode is
the first of them. -/
theorem check_first_defect_everywhere :
    let tree : Json := .object [("plugins", .null), ("theme", .object [("fontFamily",
      .object [("sans", .array []), ("serif", .strings ["serif"]), ("mono", .array [.null])]),
      ("colors", .null)]), ("content", .object [("files", .array [.string "[", .null])]),
      ("purge", .null), ("mode", .string "aot")]
    (defects .warn ⟨tree, []⟩).length = 6 ∧ (defects .refuse ⟨tree, []⟩).length = 8 ∧
      check ⟨.warn, true⟩ ⟨tree, []⟩ = .error (.invalidValue "mode" "\"aot\"" Mode.names) ∧
      check ⟨.refuse, true⟩ ⟨tree, []⟩ = .error (.unknownKey "purge" rootKeys) := by
  intro tree
  have wellFormed : Document.WellFormed ⟨tree, []⟩ := by
    simp [tree, Document.WellFormed, Json.strings, Json.Distinct, Json.DistinctEntries,
      Json.DistinctItems, Entries.keys]
  refine ⟨by decide +kernel, by decide +kernel,
    ((check_first_defect ⟨.warn, true⟩ ⟨tree, []⟩ wellFormed).1 _).2 (by decide +kernel),
    ((check_first_defect ⟨.refuse, true⟩ ⟨tree, []⟩ wellFormed).1 _).2 (by decide +kernel)⟩

end Schema

end CssBuild
