import CssBuild.Proofs.Cli.Conversion
import CssBuild.Proofs.Json.Compact
import CssBuild.Proofs.Json.ReadBack

/-!
# CssBuild.Proofs.Cli.Values

Whether a value that is shown can be read back.

1. A number, a word, an array and an object are shown in JSON, and so are the
   strings in an array or object. A string that is a value of its own is shown
   with its characters as they are.
2. No character of a string is spelled by fewer than one character, so a string
   that is shown as it is spells itself only where each of its characters stands
   for itself: a quote, a backslash or a control character does not
   (`spellsText_quoted_self`).
3. So what is shown is JSON text of the value unless the value is a string with
   such a character. It is read back as the value where, besides, each double of
   the value is read back (`valueText_reads`).
-/

namespace CssBuild.Json

variable {p : Number → List Char → Prop}

/-! ## Strings that are shown as they are -/

/-- A character that stands for itself inside a string. -/
def Plain (c : Char) : Prop := c ≠ '"' ∧ c ≠ '\\' ∧ 0x20 ≤ c.toNat

instance (c : Char) : Decidable (Plain c) := inferInstanceAs (Decidable (_ ∧ _ ∧ _))

/-- A string that is spelled by its own characters. -/
def PlainString (s : String) : Prop := ∀ c ∈ s.toList, Plain c

instance (s : String) : Decidable (PlainString s) :=
  inferInstanceAs (Decidable (∀ c ∈ s.toList, Plain c))

theorem spellsChars_self {cs : List Char} (h : ∀ c ∈ cs, Plain c) : SpellsChars cs cs := by
  induction cs with
  | nil => rfl
  | cons c cs ih =>
    obtain ⟨⟨quote, backslash, visible⟩, hrest⟩ := List.forall_mem_cons.1 h
    exact ⟨[c], cs, .plain quote backslash visible, ih hrest, rfl⟩

/-- Only a character that stands for itself is spelled by one character. -/
theorem SpellsChar.plain_of_length {c : Char} {u : List Char} (h : SpellsChar c u)
    (hone : u.length = 1) : Plain c := by
  cases h with
  | plain quote backslash visible => exact ⟨quote, backslash, visible⟩
  | _ => simp at hone

/-- A spelling is no shorter than what it spells, and as short only where every character stands
for itself. -/
theorem SpellsChars.length_le {cs t : List Char} (h : SpellsChars cs t) :
    cs.length ≤ t.length ∧ (t.length = cs.length → ∀ c ∈ cs, Plain c) := by
  induction cs generalizing t with
  | nil => exact ⟨Nat.zero_le _, fun _ _ hc => absurd hc List.not_mem_nil⟩
  | cons c cs ih =>
    obtain ⟨u, more, hu, hmore, rfl⟩ := h
    have hpos := hu.length_pos
    obtain ⟨hle, hrest⟩ := ih hmore
    rw [List.length_append, List.length_cons]
    exact ⟨by omega,
      fun hlength => List.forall_mem_cons.2 ⟨hu.plain_of_length (by omega), hrest (by omega)⟩⟩

/-- A string between quotes spells the string exactly where all its characters stand for
themselves. -/
theorem spellsText_quoted_self {s : String} :
    SpellsText p (string s) ('"' :: (s.toList ++ ['"'])) ↔ PlainString s := by
  constructor
  · rintro ⟨before, _, after, -, ⟨inner, hinner, rfl⟩, -, htext⟩
    obtain ⟨hle, hplain⟩ := hinner.length_le
    -- The text is as long as the string with its quotes, so nothing is left for blanks or escapes.
    have hlength := congrArg List.length htext
    simp only [List.length_cons, List.length_append, List.length_nil] at hlength
    exact hplain (by omega)
  · exact fun h => .of_spells ⟨s.toList, spellsChars_self h, rfl⟩

end CssBuild.Json

namespace CssBuild.Cli

open Json

/-! ## Values that are shown -/

/-- A value that is not a string with a character that has to be escaped. -/
def ShownAsJson (value : Json) : Prop := ∀ s, value = .string s → PlainString s

theorem valueText_of_not_string {value : Json} (h : ∀ s, value ≠ .string s) :
    valueText value = value.compact := by
  cases value with
  | string s => exact absurd rfl (h s)
  | _ => rfl

section Shown

variable {value : Json}

theorem toList_valueText_string (s : String) :
    (valueText (.string s)).toList = '"' :: (s.toList ++ ['"']) := by
  simp [valueText]

/-- What is shown spells the value only where it is shown as JSON. -/
theorem shownAsJson_of_spellsText {p : Number → List Char → Prop}
    (h : SpellsText p value (valueText value).toList) : ShownAsJson value := by
  rintro s rfl
  rw [toList_valueText_string] at h
  exact spellsText_quoted_self.1 h

/-- A value that is shown as JSON is spelled by what is shown. -/
theorem ShownAsJson.spellsText (h : ShownAsJson value) :
    SpellsText WritesNumber value (valueText value).toList := by
  by_cases hstring : ∃ s, value = .string s
  · obtain ⟨s, rfl⟩ := hstring
    rw [toList_valueText_string]
    exact spellsText_quoted_self.2 (h s rfl)
  · rw [valueText_of_not_string fun s hs => hstring ⟨s, hs⟩]
    exact spellsText_compact value

theorem spellsText_valueText :
    SpellsText (SpellsNumber .nearest) value (valueText value).toList ↔ ShownAsJson value :=
  ⟨shownAsJson_of_spellsText, fun h => h.spellsText.of_written fun n _ => spellsNumber_numberText n⟩

/-- What is shown is read as the value, where each double is the nearest one, exactly where it is
shown as JSON. -/
theorem readNearest_valueText {limit : Nat} (hdepth : value.depth ≤ limit) :
    readCharsWithin .nearest limit (valueText value).toList = .ok value ↔ ShownAsJson value :=
  ⟨fun h => shownAsJson_of_spellsText (spellsText_of_readCharsWithin h),
    fun h => readCharsWithin_written h.spellsText hdepth⟩

/-- What is shown is read as the value, where doubles are rounded step by step, exactly where it is
shown as JSON and its doubles are read back. -/
theorem readStepwise_valueText {limit : Nat} (hdepth : value.depth ≤ limit) :
    readCharsWithin .stepwise limit (valueText value).toList = .ok value ↔
      ShownAsJson value ∧ value.ReadsBack := by
  constructor
  · intro h
    have hshown := shownAsJson_of_spellsText (spellsText_of_readCharsWithin h)
    exact ⟨hshown, (readCharsWithin_written_iff hshown.spellsText hdepth).1 h⟩
  · rintro ⟨hshown, hback⟩
    exact (readCharsWithin_written_iff hshown.spellsText hdepth).2 hback

end Shown

/-- The configuration at a location is loaded from the file that is located. -/
theorem loadAt_eq_ok {fs : FileSystem} {lenient : Bool} {location? : Option String}
    {stored : Stored} : loadAt fs lenient location? = .ok stored ↔
      ∃ path, Config.locate fs (location?.map Path.mk) = .ok path ∧
        Config.load fs path (loadOptions lenient) = .ok stored := by
  simp only [loadAt, asCommand, bind_eq_ok, mapError_eq_ok]

/-- A command that shows a value shows the one that its key leads to. -/
theorem get_eq_ok {fs : FileSystem} {lenient : Bool} {key output : String}
    {location? : Option String} : get fs lenient key location? = .ok output ↔
      ∃ stored value, loadAt fs lenient location? = .ok stored ∧
        stored.config.toTree.lookup key = .ok value ∧ output = key ++ ": " ++ valueText value := by
  simp only [get, bind_eq_ok, mapError_eq_ok, Except.ok.injEq]
  constructor
  · rintro ⟨stored, hload, value, hlookup, houtput⟩
    exact ⟨stored, value, hload, hlookup, houtput.symm⟩
  · rintro ⟨stored, value, hload, hlookup, houtput⟩
    exact ⟨stored, hload, value, hlookup, houtput.symm⟩

/-- What is shown of a value is JSON text of the value unless the value is a string with a quote, a
backslash or a control character. So every other value is read back from what is shown of it where
each double is the nearest one, by every reader that allows as many arrays and objects in each other
as the value has. A reader that rounds doubles step by step, as that of documents does, reads it
back if besides each double of the value is read back from its own text, and only then. Showing the
value at a key shows this text after the key. -/
theorem valueText_reads (value : Json) :
    (SpellsText (SpellsNumber .nearest) value (valueText value).toList ↔ ShownAsJson value) ∧
    (∀ limit, value.depth ≤ limit →
      (readCharsWithin .nearest limit (valueText value).toList = .ok value ↔ ShownAsJson value) ∧
      (readCharsWithin .stepwise limit (valueText value).toList = .ok value ↔
        ShownAsJson value ∧ value.ReadsBack)) ∧
    (∀ fs lenient key location? stored, loadAt fs lenient location? = .ok stored →
      stored.config.toTree.lookup key = .ok value →
      get fs lenient key location? = .ok (key ++ ": " ++ valueText value)) :=
  ⟨spellsText_valueText,
    fun _ hdepth => ⟨readNearest_valueText hdepth, readStepwise_valueText hdepth⟩,
    fun _ _ _ _ stored hload hlookup => get_eq_ok.2 ⟨stored, value, hload, hlookup, rfl⟩⟩

/-- A pattern with a quote is not read back from what is shown of it, and is where the list of
patterns is shown. A double that is shown as `1e-23` is read back as another one where doubles are
rounded step by step. -/
theorem valueText_reads_quote :
    let pattern : Json := .string "a\"b"
    let tree : Json := .single "content" (.single "files" (.array [pattern]))
    let fs : FileSystem := ⟨.directory [("a.json", .file (tree.pretty ++ "\n").toUTF8)], []⟩
    let small : Json := .number (.double ⟨false, 0x3B282DB34012B251, by decide⟩)
    get fs false "content.files.0" (some "a.json") = .ok ("content.files.0: " ++ "\"a\"b\"") ∧
    readCharsWithin .nearest 0 (valueText pattern).toList ≠ .ok pattern ∧
    get fs false "content.files" (some "a.json") = .ok ("content.files: " ++ "[\"a\\\"b\"]") ∧
    readCharsWithin .stepwise 1 (valueText (.array [pattern])).toList = .ok (.array [pattern]) ∧
    valueText small = "1e-23" ∧
    readCharsWithin .nearest 0 (valueText small).toList = .ok small ∧
    readCharsWithin .stepwise 0 (valueText small).toList ≠ .ok small := by
  intro pattern tree fs small
  let stored : Stored := ⟨.scanning [⟨"a\"b"⟩], ⟨"a.json"⟩, .json, []⟩
  have distinct : tree.Distinct := by
    simp [tree, pattern, Json.single, Json.Distinct, Json.DistinctEntries, Json.DistinctItems]
  have hload : Config.load fs ⟨"a.json"⟩ (loadOptions false) = .ok stored :=
    load_pretty rfl rfl distinct (by decide) (readsBack_of_numbers_nil rfl) rfl
  have hlocate : Config.locate fs (some ⟨"a.json"⟩) = .ok ⟨"a.json"⟩ := rfl
  have hstored : loadAt fs false (some "a.json") = .ok stored :=
    loadAt_eq_ok.2 ⟨_, hlocate, hload⟩
  have hitem : stored.config.toTree.lookup "content.files.0" = .ok pattern := rfl
  have hlist : stored.config.toTree.lookup "content.files" = .ok (.array [pattern]) := rfl
  have hlistText : valueText (.array [pattern]) = "[\"a\\\"b\"]" := by decide
  have hlistBack : ShownAsJson (.array [pattern]) ∧ (Json.array [pattern]).ReadsBack :=
    ⟨fun _ h => (by cases h), readsBack_of_numbers_nil rfl⟩
  have hsmall : ShownAsJson small := by simp [ShownAsJson, small]
  obtain ⟨-, hread, hget⟩ := valueText_reads pattern
  obtain ⟨-, hreadList, hgetList⟩ := valueText_reads (.array [pattern])
  obtain ⟨-, hreadSmall, -⟩ := valueText_reads small
  refine ⟨?item, fun h => ?quote, ?list, ((hreadList 1 (by decide)).2).2 hlistBack,
    by decide +kernel, ((hreadSmall 0 (by decide)).1).2 hsmall, fun h => ?double⟩
  case item => exact hget fs false "content.files.0" (some "a.json") stored hstored hitem
  case quote => exact absurd (((hread 0 (by decide)).1).1 h _ rfl) (by decide)
  case list =>
    rw [hgetList fs false "content.files" (some "a.json") stored hstored hlist, hlistText]
    rfl
  case double =>
    exact absurd (((hreadSmall 0 (by decide)).2).1 h).2 (by decide +kernel)

end CssBuild.Cli
