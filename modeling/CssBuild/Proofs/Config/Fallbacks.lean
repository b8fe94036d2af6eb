import CssBuild.Proofs.Config.Normalization
import Mathlib.Data.List.Forall2

/-!
# CssBuild.Proofs.Config.Fallbacks

What the option for font fallbacks comes to.

1. Without it a check gives the same error or the same configuration, with the
   same warnings but those about font stacks (`map_quiet_checkTree`).
2. With it there is one of these for each stack of the configuration that does
   not end in a generic family, in the order of the tokens
   (`fontWarnings_forall₂`).
-/

namespace CssBuild

namespace Schema

/-! ## Warnings that are left out -/

/-- Warnings without those about font stacks. -/
def quiet (found : List Warning) : List Warning := found.filter fun warning => !warning.isFallback

@[simp] theorem quiet_append (found more : List Warning) :
    quiet (found ++ more) = quiet found ++ quiet more := List.filter_append ..

theorem AboutKeys.quiet {policy : UnknownKeys} {found : List Warning} (h : AboutKeys policy found) :
    quiet found = found := by
  refine List.filter_eq_self.2 fun warning hwarning => ?_
  have hunknown := h.1 warning hwarning
  cases warning with
  | unknownKey key => rfl
  | _ => cases hunknown

/-- A check whose warnings are about keys is the same without the others. -/
theorem map_quiet_of_aboutKeys {policy : UnknownKeys} {check : Check}
    (h : ∀ found, check = .ok found → AboutKeys policy found) : check.map quiet = check := by
  cases check with
  | error e => rfl
  | ok found => rw [ok_map, (h found rfl).quiet]

/-- Warnings are left out of a check stage by stage. -/
theorem map_quiet_bind {check check' : Check} {next next' : List Warning → Check}
    (h : check.map quiet = check') (hnext : ∀ found, (next found).map quiet = next' (quiet found)) :
    (check >>= next).map quiet = check' >>= next' := by
  subst h
  cases check with
  | error e => rfl
  | ok found => exact hnext found

/-! ## Font stacks -/

theorem quiet_fallbackWarnings (token : String) (last : Json) :
    quiet (fallbackWarnings true token last) = fallbackWarnings false token last := by
  unfold fallbackWarnings
  split
  · split <;> simp [quiet, Warning.isFallback]
  · rfl

theorem map_quiet_checkStack (token : String) (tree : Json) :
    (checkStack true token tree).map quiet = checkStack false token tree := by
  rw [checkStack, checkStack, map_bind]
  refine bind_congr_ok fun families _ => ?_
  cases families.getLast? with
  | none => rfl
  | some last =>
    dsimp only
    rw [map_bind]
    refine bind_congr_ok fun _ _ => ?_
    rw [ok_map, quiet_fallbackWarnings]

theorem map_quiet_checkStacks (entries : List (String × Json)) :
    (checkStacks true entries).map quiet = checkStacks false entries := by
  induction entries with
  | nil => rfl
  | cons entry rest ih =>
    obtain ⟨token, tree⟩ := entry
    refine map_quiet_bind (map_quiet_checkStack token tree) fun found => ?_
    refine map_quiet_bind ih fun more => ?_
    rw [ok_map, quiet_append]

theorem map_quiet_checkFonts (tree : Json) :
    (checkFonts true tree).map quiet = checkFonts false tree := by
  rw [checkFonts, checkFonts, map_bind]
  exact bind_congr_ok fun table _ => map_quiet_checkStacks table

/-! ## Documents -/

theorem map_quiet_checkOptional (entries : List (String × Json)) (key : String)
    {check check' : Json → Check} (h : ∀ tree, (check tree).map quiet = check' tree) :
    (checkOptional entries key check).map quiet = checkOptional entries key check' := by
  rw [checkOptional, checkOptional]
  cases Entries.find? entries key with
  | none => rfl
  | some tree => exact h tree

theorem map_quiet_unknownKeys (policy : UnknownKeys) (path : String) (permitted : List String)
    (entries : List (String × Json)) :
    (unknownKeys policy path permitted entries).map quiet =
      unknownKeys policy path permitted entries :=
  map_quiet_of_aboutKeys fun _ => aboutKeys_unknownKeys

theorem map_quiet_checkTheme (policy : UnknownKeys) (tree : Json) :
    (checkTheme ⟨policy, true⟩ tree).map quiet = checkTheme ⟨policy, false⟩ tree := by
  rw [checkTheme, checkTheme, map_bind]
  refine bind_congr_ok fun theme _ => ?_
  refine map_quiet_bind (map_quiet_unknownKeys ..) fun unknown => ?_
  refine map_quiet_bind (map_quiet_checkOptional theme "fontFamily" map_quiet_checkFonts)
    fun fonts => ?_
  rw [map_bind]
  refine bind_congr_ok fun _ _ => ?_
  rw [ok_map, quiet_append]

/-- A check that does not look at font fallbacks gives what one that does gives, without the
warnings about font stacks. -/
theorem map_quiet_checkTree (policy : UnknownKeys) (tree : Json) :
    (checkTree ⟨policy, true⟩ tree).map quiet = checkTree ⟨policy, false⟩ tree := by
  have hcontent (root : List (String × Json)) :
      (checkContent policy root).map quiet = checkContent policy root :=
    map_quiet_of_aboutKeys fun _ => aboutKeys_checkContent
  have hvariants (root : List (String × Json)) :
      (checkOptional root "variants" (checkVariants policy)).map quiet =
        checkOptional root "variants" (checkVariants policy) :=
    map_quiet_of_aboutKeys fun _ => aboutKeys_checkVariants
  rw [checkTree, checkTree, map_bind]
  refine bind_congr_ok fun root _ => ?_
  refine map_quiet_bind (map_quiet_unknownKeys ..) fun unknown => ?_
  rw [map_bind]
  refine bind_congr_ok fun _ _ => ?_
  refine map_quiet_bind (hcontent root) fun content => ?_
  rw [map_bind]
  refine bind_congr_ok fun _ _ => ?_
  refine map_quiet_bind (map_quiet_checkOptional root "theme" (map_quiet_checkTheme policy))
    fun theme => ?_
  refine map_quiet_bind (hvariants root) fun variants => ?_
  rw [map_bind]
  refine bind_congr_ok fun _ _ => ?_
  simp only [ok_map, quiet_append]

/-- A configuration that was read, without the warnings about font stacks. -/
def withoutFallbacks (checked : Checked Config) : Checked Config :=
  ⟨checked.value, quiet checked.warnings⟩

theorem map_withoutFallbacks_recorded (tree : Json) (warnings : List Warning) :
    (recorded tree warnings).map withoutFallbacks = recorded tree (quiet warnings) := by
  rw [recorded, recorded]
  cases Config.FromTree.config tree <;> rfl

/-! ## What there is to warn about -/

/-- What there is to warn about in a stack that is not empty. -/
theorem stackWarnings_eq {token family : String} {stack : FontStack}
    (h : stack.getLast? = some family) :
    stackWarnings true (token, stack) =
      if stack.generic? = none then [.nonGenericFallback token family] else [] := by
  by_cases hgeneric : family ∈ FontStack.genericFamilies <;>
    simp [stackWarnings, fallbackWarnings, Json.text?, FontStack.generic?, h, hgeneric]

/-- There is one warning for each token whose stack does not end in a generic family; it names the
token and the last family. -/
theorem fontWarnings_forall₂ {fonts : FontTable} (h : ∀ entry ∈ fonts.toList, entry.2 ≠ []) :
    List.Forall₂
      (fun entry warning => ∃ family, entry.2.getLast? = some family ∧
        warning = Warning.nonGenericFallback entry.1 family)
      (fonts.toList.filter fun entry => entry.2.generic? = none) (fontWarnings true fonts) := by
  rw [fontWarnings]
  generalize fonts.toList = entries at h
  induction entries with
  | nil => exact .nil
  | cons entry rest ih =>
    obtain ⟨token, stack⟩ := entry
    obtain ⟨hstack, hrest⟩ := List.forall_mem_cons.1 h
    obtain ⟨family, hlast⟩ := Option.ne_none_iff_exists'.1 (mt List.getLast?_eq_none_iff.1 hstack)
    rw [List.flatMap_cons, stackWarnings_eq hlast]
    by_cases hgeneric : stack.generic? = none
    · rw [List.filter_cons_of_pos (by simpa using hgeneric), if_pos hgeneric]
      exact .cons ⟨family, hlast, rfl⟩ (ih hrest)
    · rw [List.filter_cons_of_neg (by simpa using hgeneric), if_neg hgeneric]
      exact ih hrest

/-- The warnings of an accepted document that are about font stacks. -/
theorem filter_isFallback_of_check {options : LoadOptions} {document : Document}
    (wellFormed : document.WellFormed) {checked : Checked Config}
    (h : check options document = .ok checked) :
    checked.warnings.filter Warning.isFallback =
      fontWarnings options.fontFallbacks checked.value.fonts := by
  obtain ⟨-, hdescribes⟩ := describes_of_check wellFormed h
  obtain ⟨before, after, hsplit, hbefore, hafter⟩ :=
    warnings_of_checkTree wellFormed hdescribes (checkTree_of_check h)
  have hfonts := List.filter_eq_self.2 fun warning =>
    @isFallback_of_mem_fontWarnings options.fontFallbacks checked.value.fonts warning
  rw [hsplit, List.filter_append, List.filter_append, hbefore.filter_isFallback,
    hafter.filter_isFallback, hfonts, List.nil_append, List.append_nil]

/-- A check of a document gives the same error or the same configuration whether it looks at font
fallbacks or not, with the same warnings but those about font stacks. If it does, there is one of
these for each stack of the configuration that does not end in a generic family, in order, and it
names the token and the last family; no stack is empty. -/
theorem check_fallbacks (policy : UnknownKeys) {document : Document}
    (wellFormed : document.WellFormed) :
    (check ⟨policy, true⟩ document).map withoutFallbacks = check ⟨policy, false⟩ document ∧
    ∀ checked, check ⟨policy, true⟩ document = .ok checked →
      (∀ entry ∈ checked.value.fonts.toList, entry.2 ≠ []) ∧
      List.Forall₂
        (fun entry warning => ∃ family, entry.2.getLast? = some family ∧
          warning = Warning.nonGenericFallback entry.1 family)
        (checked.value.fonts.toList.filter fun entry => entry.2.generic? = none)
        (checked.warnings.filter Warning.isFallback) := by
  constructor
  · obtain ⟨tree, _ | ⟨key, rest⟩⟩ := document
    · rw [check_single, check_single, map_bind, ← map_quiet_checkTree]
      cases checkTree ⟨policy, true⟩ tree with
      | error e => rfl
      | ok found => simp only [ok_bind, ok_map, map_withoutFallbacks_recorded]
    · rfl
  · intro checked h
    have hstacks := (valid_of_check wellFormed h).fontStacks
    refine ⟨hstacks, ?_⟩
    rw [filter_isFallback_of_check wellFormed h]
    exact fontWarnings_forall₂ hstacks

/-- A lenient document with a key to pass over, and with two stacks of four that end in no generic
family, one of them with a generic family elsewhere. -/
theorem check_fallbacks_two :
    let document : Document := ⟨.object [("purge", .null),
      ("theme", .object [("fontFamily", .object [("body", .strings ["Inter"]),
        ("code", .strings ["Fira Code", "monospace"]), ("head", .strings ["serif", "Lora"]),
        ("icon", .strings ["emoji"])])]),
      ("content", .object [("files", .strings ["a"])])], []⟩
    ∃ checked, check ⟨.warn, true⟩ document = .ok checked ∧
      checked.warnings = [.unknownKey "purge", .nonGenericFallback "body" "Inter",
        .nonGenericFallback "head" "Lora"] ∧
      check ⟨.warn, false⟩ document = .ok ⟨checked.value, [.unknownKey "purge"]⟩ ∧
      (checked.value.fonts.toList.filter fun entry => entry.2.generic? = none).length = 2 := by
  intro document
  have wellFormed : document.WellFormed := by
    simp [document, Document.WellFormed, Json.strings, Json.Distinct, Json.DistinctEntries,
      Json.DistinctItems, Entries.keys]
  obtain ⟨checked, hcheck, hwarnings⟩ : ∃ checked, check ⟨.warn, true⟩ document = .ok checked ∧
      checked.warnings = [.unknownKey "purge", .nonGenericFallback "body" "Inter",
        .nonGenericFallback "head" "Lora"] := ⟨_, rfl, rfl⟩
  obtain ⟨hquiet, hfonts⟩ := check_fallbacks .warn wellFormed
  obtain ⟨-, hall⟩ := hfonts checked hcheck
  refine ⟨checked, hcheck, hwarnings, ?_, ?_⟩
  · rw [← hquiet, hcheck, ok_map, withoutFallbacks, hwarnings]
    rfl
  · rw [hall.length_eq, hwarnings]
    rfl

end Schema

end CssBuild
