import CssBuild.Proofs.Config.Streaming
import CssBuild.Proofs.Json.Compact
import CssBuild.Proofs.Json.ReadBack
import CssBuild.Proofs.Json.Typing

/-!
# CssBuild.Proofs.Config.FontTables

Font tables as maps that keep the order of their tokens.

1. After any number of insertions a map has each key once, where it first came
   and with its last value, and each insertion tells the value that the one
   before it left (`OrderedMap.toList_replaceAll`, `OrderedMap.replaced`).
2. A text is read as a font table if and only if it spells the table: an object
   of arrays of strings that repeats no token (`Config.Typed.readFonts_eq_ok`).
   Insertion replaces where reading refuses.
3. Both hold of every table that is made in either way
   (`FontTable.insertion_order`).
-/

namespace CssBuild

/-! ## Runs of insertions -/

namespace Entries

variable {α : Type}

/-- The last value that a list of pairs has for a key. -/
def last? (pairs : List (String × α)) (key : String) : Option α := find? pairs.reverse key

/-- Entries in which no key comes twice are their keys with what is found for them. -/
theorem map_some_eq_map_find? {entries : Entries α} (distinct : (keys entries).Nodup) :
    (entries.map fun entry => (entry.1, some entry.2)) =
      (keys entries).map fun key => (key, find? entries key) := by
  rw [keys, List.map_map]
  refine List.map_congr_left fun entry hentry => ?_
  rw [Function.comp_apply, (find?_eq_some_iff distinct).2 hentry]

end Entries

namespace OrderedMap

variable {α : Type}

theorem entries_replaceAll (m : OrderedMap α) (pairs : List (String × α)) :
    (m.replaceAll pairs).2.entries = m.entries.putAll pairs := by
  induction pairs generalizing m with
  | nil => rfl
  | cons pair rest ih => exact ih (m.insert pair.1 pair.2)

/-- The map after some insertions is the one that their pairs leave. -/
theorem replaceAll_empty (pairs : List (String × α)) :
    (empty.replaceAll pairs).2 = ofList pairs := toList_injective (entries_replaceAll empty pairs)

/-- Each key is there once, where it first came and with its last value. -/
theorem toList_replaceAll (pairs : List (String × α)) :
    ((empty.replaceAll pairs).2.toList.map fun entry => (entry.1, some entry.2)) =
      (Entries.keys pairs).eraseDups.map fun key => (key, Entries.last? pairs key) := by
  rw [replaceAll_empty]
  refine (Entries.map_some_eq_map_find? (ofList pairs).distinct).trans ?_
  rw [show (ofList pairs).entries = Entries.merge pairs from rfl, Entries.keys_merge]
  exact List.map_congr_left fun key _ => congrArg _ (Entries.find?_merge pairs key)

theorem length_replaceAll (m : OrderedMap α) (pairs : List (String × α)) :
    (m.replaceAll pairs).1.length = pairs.length := by
  induction pairs generalizing m with
  | nil => rfl
  | cons pair rest ih => exact congrArg (· + 1) (ih (m.insert pair.1 pair.2))

/-- An insertion tells what the insertions in front of it left. -/
theorem replaced_of_append (m : OrderedMap α) (before : List (String × α)) (key : String)
    (value : α) (after : List (String × α)) :
    (m.replaceAll (before ++ (key, value) :: after)).1[before.length]? =
      some ((m.entries.putAll before).find? key) := by
  induction before generalizing m with
  | nil => rfl
  | cons pair rest ih => exact ih (m.insert pair.1 pair.2)

/-- From the empty map on, an insertion tells the last value that its key was given before it. -/
theorem replaced (before : List (String × α)) (key : String) (value : α)
    (after : List (String × α)) :
    (empty.replaceAll (before ++ (key, value) :: after)).1[before.length]? =
      some (Entries.last? before key) := by
  rw [replaced_of_append]
  exact congrArg some (Entries.find?_merge before key)

theorem get?_eq_some_iff {m : OrderedMap α} {key : String} {value : α} :
    m.get? key = some value ↔ (key, value) ∈ m.toList := Entries.find?_eq_some_iff m.distinct

theorem isEmpty_iff {m : OrderedMap α} : m.isEmpty = true ↔ m.toList = [] := List.isEmpty_iff

end OrderedMap

/-! ## Tables as text -/

namespace Config.Typed

open Json (SpellsNumber SpellsShort SpellsText)

theorem depth_stacksTree (entries : List (String × FontStack)) : (stacksTree entries).depth ≤ 2 := by
  have hitems (stack : FontStack) : Json.depthItems (stack.map Json.string) = 0 := by
    induction stack with
    | nil => rfl
    | cons family rest ih => rw [List.map_cons, Json.depthItems, ih]; rfl
  have hentries : Json.depthEntries (entries.map fun entry => (entry.1, Json.strings entry.2)) ≤ 1 := by
    induction entries with
    | nil => exact Nat.zero_le _
    | cons entry rest ih =>
      rw [List.map_cons, Json.depthEntries, Json.strings, Json.depth, hitems]
      exact Nat.max_le.2 ⟨Nat.le_refl _, ih⟩
  exact Nat.succ_le_succ hentries

/-- There is no number in a font table, so how numbers are spelled is no matter. -/
theorem numbers_stacksTree (entries : List (String × FontStack)) :
    (stacksTree entries).numbers = [] := by
  have hitems (stack : FontStack) : Json.numbersItems (stack.map Json.string) = [] := by
    induction stack with
    | nil => rfl
    | cons family rest ih => rw [List.map_cons, Json.numbersItems, ih]; rfl
  have hentries :
      Json.numbersEntries (entries.map fun entry => (entry.1, Json.strings entry.2)) = [] := by
    induction entries with
    | nil => rfl
    | cons entry rest ih =>
      rw [List.map_cons, Json.numbersEntries, Json.strings, Json.numbers, hitems, ih]
      rfl
  exact hentries

theorem readChars_stacks {entries : List (String × FontStack)} {text : List Char}
    (h : SpellsText (SpellsNumber .stepwise) (stacksTree entries) text) :
    Json.readChars text = .ok (stacksTree entries) := by
  have hshort : SpellsText (SpellsShort .stepwise) (stacksTree entries) text := by
    refine h.imp SpellsNumber.isNumeral fun n hn => ?_
    rw [numbers_stacksTree] at hn
    cases hn
  exact Json.readCharsWithin_of_spellsText hshort
    (Nat.le_trans (depth_stacksTree entries) (by decide))

theorem faithful_fontEntries : Json.Faithful fontEntries stacksTree :=
  Json.faithful_mapping (Json.faithful_list Json.faithful_text) _

theorem fontEntries_distinct {text : List Char} {entries : List (String × FontStack)}
    (h : Json.readTyped fontEntries text = .ok entries) : (Entries.keys entries).Nodup := by
  obtain ⟨⟨found, rest⟩, hread, h⟩ := bind_eq_ok.1 h
  obtain ⟨_, -, h⟩ := bind_eq_ok.1 h
  obtain rfl := Except.ok.inj h
  refine Json.mapping_distinct (fun seen token hmem hnone => ?_) hread
  rw [repeatedToken?, if_pos hmem] at hnone
  cases hnone

/-- A text is read as a font table if it is read as the tree of the table, and only then. -/
theorem readFonts_iff_readChars {text : String} {table : FontTable} :
    readFonts text = .ok table ↔ Json.readChars text.toList = .ok (fontsTree table) := by
  constructor
  · intro h
    obtain ⟨entries, hread, rfl⟩ := map_eq_ok.1 h
    have hentries : (OrderedMap.ofList entries).toList = entries :=
      OrderedMap.toList_ofList (fontEntries_distinct hread)
    rw [show fontsTree (.ofList entries) = stacksTree entries from congrArg stacksTree hentries]
    exact Json.readChars_of_readTyped faithful_fontEntries hread
  · intro h
    have hread := Json.readTyped_of_readChars (agrees_fontEntries table.distinct) h
    rw [readFonts, hread, ok_map]
    exact congrArg Except.ok (OrderedMap.ofList_toList table)

/-- A text is read as a font table if it spells the table, and only then. -/
theorem readFonts_eq_ok {text : String} {table : FontTable} :
    readFonts text = .ok table ↔
      SpellsText (SpellsNumber .stepwise) (fontsTree table) text.toList :=
  readFonts_iff_readChars.trans ⟨Json.spellsText_of_readChars, readChars_stacks⟩

/-- The text of a font table is read as the table. -/
theorem readFonts_compact (table : FontTable) :
    readFonts (fontsTree table).compact = .ok table := by
  have hback : (fontsTree table).ReadsBack := Json.readsBack_of_numbers_nil (numbers_stacksTree _)
  have hdepth : (fontsTree table).depth ≤ Json.maxDepth :=
    Nat.le_trans (depth_stacksTree table.toList) (by decide)
  exact readFonts_iff_readChars.2
    ((Json.readCharsWithin_written_iff (Json.spellsText_compact _) hdepth).2 hback)

/-- An object is a font table if its values are arrays of strings and it repeats no token. -/
theorem exists_fontsTree_iff {entries : List (String × Json)} :
    (∃ table, Json.object entries = fontsTree table) ↔
      (∀ entry ∈ entries, ∃ stack, entry.2 = .strings stack) ∧ (Entries.keys entries).Nodup := by
  constructor
  · rintro ⟨table, htable⟩
    obtain rfl := Json.object.inj htable
    constructor
    · intro entry hentry
      obtain ⟨⟨token, stack⟩, -, rfl⟩ := List.mem_map.1 hentry
      exact ⟨stack, rfl⟩
    · rw [Entries.keys, List.map_map]
      exact table.distinct
  · rintro ⟨hstacks, distinct⟩
    have hfound : ∃ found : List (String × FontStack),
        entries = found.map fun entry => (entry.1, Json.strings entry.2) := by
      clear distinct
      induction entries with
      | nil => exact ⟨[], rfl⟩
      | cons entry rest ih =>
        obtain ⟨token, tree⟩ := entry
        obtain ⟨⟨stack, rfl⟩, hrest⟩ := List.forall_mem_cons.1 hstacks
        obtain ⟨found, rfl⟩ := ih hrest
        exact ⟨(token, stack) :: found, rfl⟩
    obtain ⟨found, rfl⟩ := hfound
    rw [Entries.keys, List.map_map] at distinct
    exact ⟨⟨found, distinct⟩, rfl⟩

end Config.Typed

open Config (fontsTree)
open Config.Typed (readFonts)

namespace FontTable

/-- A font table that was made by insertions, or of the same pairs at once, lists each token once,
in the order in which the tokens first came and with its last stack; each insertion tells the stack
that its token had. Looking up, counting and comparing go by that list. The text of the table is
read as the table again. Whatever the text, it is read as a table only if it spells the table, and
an object that is read as a tree is a table if its values are arrays of strings and no token comes
twice, in the order of the text. -/
theorem insertion_order (pairs : List (String × FontStack)) :
    let run := OrderedMap.empty.replaceAll pairs
    let table : FontTable := run.2
    ((table.toList.map fun entry => (entry.1, some entry.2)) =
        (Entries.keys pairs).eraseDups.map fun token => (token, Entries.last? pairs token)) ∧
      table = .ofList pairs ∧
      (run.1.length = pairs.length ∧ ∀ before token stack after,
        pairs = before ++ (token, stack) :: after →
          run.1[before.length]? = some (Entries.last? before token)) ∧
      (∀ token stack, table.get? token = some stack ↔ (token, stack) ∈ table.toList) ∧
      table.size = table.toList.length ∧ (table.isEmpty = true ↔ table.toList = []) ∧
      (∀ other, table.same other = true ↔ table.toList = other.toList) ∧
      (∃ again, readFonts (fontsTree table).compact = .ok again ∧ again.same table = true) ∧
      (∀ text found, readFonts text = .ok found ↔
        Json.SpellsText (Json.SpellsNumber .stepwise) (fontsTree found) text.toList) ∧
      ∀ text entries, Json.readChars text.toList = .ok (.object entries) →
        ((∃ found, readFonts text = .ok found) ↔
          (∀ entry ∈ entries, ∃ stack, entry.2 = .strings stack) ∧ (Entries.keys entries).Nodup) ∧
        ∀ found, readFonts text = .ok found →
          entries = found.toList.map fun entry => (entry.1, Json.strings entry.2) := by
  intro run table
  refine ⟨OrderedMap.toList_replaceAll pairs, OrderedMap.replaceAll_empty pairs,
    ⟨OrderedMap.length_replaceAll _ pairs, ?replaced⟩, fun _ _ => OrderedMap.get?_eq_some_iff, rfl,
    OrderedMap.isEmpty_iff, same_iff table, ⟨table, Config.Typed.readFonts_compact table, ?again⟩,
    fun _ _ => Config.Typed.readFonts_eq_ok, fun text entries hread => ⟨?object, ?order⟩⟩
  case replaced =>
    rintro before token stack after hpairs
    simp only [run, hpairs]
    exact OrderedMap.replaced before token stack after
  case again => exact (same_iff table table).2 rfl
  case object =>
    rw [← Config.Typed.exists_fontsTree_iff]
    refine exists_congr fun found => ?_
    rw [Config.Typed.readFonts_iff_readChars, hread, Except.ok.injEq]
  case order =>
    intro found hfound
    rw [Config.Typed.readFonts_iff_readChars, hread, Except.ok.injEq] at hfound
    exact Json.object.inj hfound

/-- A token that is given a stack again, a text with its tokens in no alphabetical order, and one
that repeats a token by an escape. -/
theorem insertion_order_again :
    let pairs : List (String × FontStack) :=
      [("body", ["Inter"]), ("code", ["Hack"]), ("body", ["Lora", "serif"])]
    let run := OrderedMap.empty.replaceAll pairs
    let listed := "\x7b\"b\": [], \"\\u0061\": [\"x\"]\x7d"
    let repeated := "\x7b\"a\": [], \"\\u0061\": []\x7d"
    run.2.toList = [("body", ["Lora", "serif"]), ("code", ["Hack"])] ∧
      run.1[2]? = some (some ["Inter"]) ∧
      (∃ found, readFonts listed = .ok found ∧ found.toList = [("b", []), ("a", ["x"])] ∧
        Json.SpellsText (Json.SpellsNumber .stepwise) (fontsTree found) listed.toList) ∧
      ¬∃ found, readFonts repeated = .ok found := by
  intro pairs run listed repeated
  obtain ⟨-, -, ⟨-, hreplaced⟩, -, -, -, -, -, hspells, hread⟩ := insertion_order pairs
  refine ⟨rfl, hreplaced (pairs.take 2) "body" ["Lora", "serif"] [] rfl, ?listed, ?repeated⟩
  case listed =>
    have htable : (readFonts listed).toOption.map OrderedMap.toList =
        some [("b", []), ("a", ["x"])] := by decide +kernel
    cases h : readFonts listed with
    | error fault =>
      rw [h] at htable
      cases htable
    | ok found =>
      rw [h] at htable
      exact ⟨found, rfl, Option.some.inj htable, (hspells listed found).1 h⟩
  case repeated =>
    have hkeys : ((Json.readChars repeated.toList).toOption.bind Json.entries?).map Entries.keys =
        some ["a", "a"] := by decide +kernel
    cases h : Json.readChars repeated.toList with
    | error fault =>
      rw [h] at hkeys
      cases hkeys
    | ok tree =>
      rw [h] at hkeys
      cases tree with
      | object entries =>
        intro hfound
        have distinct := ((hread repeated entries h).1.1 hfound).2
        rw [show Entries.keys entries = ["a", "a"] from Option.some.inj hkeys] at distinct
        exact absurd distinct (by decide)
      | _ => cases hkeys

end FontTable

end CssBuild
