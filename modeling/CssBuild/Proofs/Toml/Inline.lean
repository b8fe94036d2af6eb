import CssBuild.Proofs.Json.Distinct
import CssBuild.Proofs.Toml.Keys
import CssBuild.Proofs.Toml.Numbers
import CssBuild.Proofs.Toml.Tables

/-!
# CssBuild.Proofs.Toml.Inline

The values that are written within a line are read back.

1. `Writable` states which trees can be written, as a condition on the values
   in them.
2. The reader of values, with room for the depth of a tree and fuel for the
   length of its text, reads the tree back from its text
   (`value_inlineText`); the induction goes over the tree, with one case for
   each kind of value.
-/

namespace CssBuild.Toml

open Json (isDigit Distinct DistinctItems DistinctEntries depth depthItems depthEntries)

/-! ## What can be written -/

mutual

/-- A tree that holds no absent value and no integer beyond 64 bits with sign. -/
def Writable : Json → Prop
  | .null => False
  | .bool _ | .string _ => True
  | .number n => SmallNumber n
  | .array trees => WritableItems trees
  | .object entries => WritableEntries entries

/-- `Writable`, of every item. -/
def WritableItems : List Json → Prop
  | [] => True
  | tree :: rest => Writable tree ∧ WritableItems rest

/-- `Writable`, of the value of every entry. -/
def WritableEntries : List (String × Json) → Prop
  | [] => True
  | (_, tree) :: rest => Writable tree ∧ WritableEntries rest

end

mutual

/-- The trees that can be written are those that are not refused. -/
theorem unwritable?_eq_none : (tree : Json) → (unwritable? tree = none ↔ Writable tree)
  | .null => by simp [unwritable?, Writable]
  | .bool _ | .string _ | .number (.double _) => by simp [unwritable?, Writable, SmallNumber]
  | .number (.integer value _) => by simp [unwritable?, Writable, SmallNumber]
  | .array trees => by
    rw [unwritable?, Writable]
    exact unwritableItem?_eq_none trees
  | .object entries => by
    rw [unwritable?, Writable]
    exact unwritableField?_eq_none entries

theorem unwritableItem?_eq_none : (trees : List Json) →
    (unwritableItem? trees = none ↔ WritableItems trees)
  | [] => by simp [unwritableItem?, WritableItems]
  | tree :: rest => by
    rw [unwritableItem?, WritableItems, Option.or_eq_none_iff, unwritable?_eq_none tree,
      unwritableItem?_eq_none rest]

theorem unwritableField?_eq_none : (entries : List (String × Json)) →
    (unwritableField? entries = none ↔ WritableEntries entries)
  | [] => by simp [unwritableField?, WritableEntries]
  | (_, tree) :: rest => by
    rw [unwritableField?, WritableEntries, Option.or_eq_none_iff, unwritable?_eq_none tree,
      unwritableField?_eq_none rest]

end

/-- What a tree is written as within a line. -/
def kindOf : Json → Kind
  | .null | .bool _ => .boolean
  | .number n => numberKind n
  | .string _ => .string
  | .array _ => .array
  | .object _ => .inlineTable

/-! ## Where a value starts -/

/-- The characters that a value does not start with: blanks, the start of a comment, newlines, and
what closes an array or an inline table. -/
def valueBreaks : List Char := [' ', '\t', '#', '\n', '\r', ']', '}']

theorem stringText_eq_cons (s : List Char) :
    ∃ c u, stringText s = c :: u ∧ (c = '"' ∨ c = '\'') := by
  unfold stringText
  dsimp only
  repeat' split
  all_goals first | exact ⟨'"', _, rfl, .inl rfl⟩ | exact ⟨'\'', _, rfl, .inr rfl⟩

theorem inlineText_eq_cons {tree : Json} (writable : Writable tree) :
    ∃ c u, inlineText tree = c :: u ∧ c ∉ valueBreaks := by
  cases tree with
  | null => cases writable
  | bool b => cases b <;> exact ⟨_, _, by rw [inlineText], by decide⟩
  | number n =>
    obtain ⟨c, u, htext, hc⟩ := numberText_eq_cons n
    refine ⟨c, u, by rw [inlineText, htext], ?_⟩
    obtain rfl | hdigit := hc
    · decide
    · intro hmem
      have hall : ∀ d ∈ valueBreaks, isDigit d = false := by decide
      rw [hall c hmem] at hdigit
      cases hdigit
  | string s =>
    obtain ⟨c, u, htext, hc⟩ := stringText_eq_cons s.toList
    refine ⟨c, u, by rw [inlineText, htext], ?_⟩
    rcases hc with rfl | rfl <;> decide
  | array trees => exact ⟨'[', _, by rw [inlineText], by decide⟩
  | object entries => cases entries <;> exact ⟨'{', _, by rw [inlineText], by decide⟩

theorem skipBlanks_inlineText {tree : Json} (writable : Writable tree) (rest : List Char) :
    skipBlanks (' ' :: (inlineText tree ++ rest)) = inlineText tree ++ rest := by
  obtain ⟨c, u, htext, hc⟩ := inlineText_eq_cons writable
  have hblank : isBlank c = false := by
    simp only [valueBreaks, List.mem_cons, not_or] at hc
    simp [isBlank, hc.1, hc.2.1]
  rw [htext, skipBlanks, List.dropWhile_cons_of_pos (by decide), List.cons_append]
  exact dropWhile_stop (stops_cons hblank)

theorem skipSpace_cons {c : Char} (hc : c ∉ [' ', '\t', '#', '\n', '\r']) (s : List Char) :
    skipSpace (c :: s) = c :: s := by
  simp only [List.mem_cons, List.not_mem_nil, or_false, not_or] at hc
  obtain ⟨hspace, htab, hcomment, hnew, hreturn⟩ := hc
  have hbreak : lineBreak? (c :: s) = none := by simp [lineBreak?, hnew, hreturn]
  rw [skipSpace, skipLines]
  simp only [isBlank, beq_eq_false_iff_ne.2 hspace, beq_eq_false_iff_ne.2 htab, hcomment, hbreak,
    Bool.or_self, Bool.false_eq_true, if_false]

theorem skipSpace_inlineText {tree : Json} (writable : Writable tree) (rest : List Char) :
    skipSpace (inlineText tree ++ rest) = inlineText tree ++ rest := by
  obtain ⟨c, u, htext, hc⟩ := inlineText_eq_cons writable
  rw [htext, List.cons_append]
  exact skipSpace_cons (fun hmem => hc (by simp [valueBreaks] at hmem ⊢; grind)) _

/-! ## Scalars -/

theorem EndsValue.unquoted {rest : List Char} (h : EndsValue rest) : Unquoted rest :=
  ⟨h.ne (by decide), h.ne (by decide)⟩

theorem scalar_string (s : String) {rest : List Char} (hrest : EndsValue rest) :
    scalar (stringText s.toList ++ rest) = .ok ((.string, .string s), rest) := by
  have hread := string_stringText s.toList hrest.unquoted
  obtain ⟨c, u, htext, hc⟩ := stringText_eq_cons s.toList
  rw [htext, List.cons_append] at hread ⊢
  simp only [scalar, if_pos hc, hread, ok_map, String.ofList_toList]

theorem scalar_number (n : Number) (small : SmallNumber n) {rest : List Char}
    (hrest : EndsValue rest) :
    scalar (numberText n ++ rest) = .ok ((numberKind n, .number n), rest) := by
  have hread := numeric_numberText n small hrest
  obtain ⟨c, u, htext, hc⟩ := numberText_eq_cons n
  have hquote : ¬(c = '"' ∨ c = '\'') := by
    rintro (rfl | rfl) <;> simp [isDigit] at hc
  have hnumber : c = '+' ∨ c = '-' ∨ isDigit c = true := .inr hc
  rw [htext, List.cons_append] at hread ⊢
  simp only [scalar, if_neg hquote, if_pos hnumber, hread]

theorem value_scalar {limit fuel room : Nat} {c : Char} {u : List Char} (h : c ≠ '[' ∧ c ≠ '{') :
    value limit (fuel + 1) room (c :: u) = scalar (c :: u) := by
  rw [value]
  · rintro rest ⟨⟩
    exact absurd rfl h.1
  · rintro rest ⟨⟩
    exact absurd rfl h.2

/-- Nothing that could be a value starts with a closing bracket. -/
theorem value_close (limit fuel room : Nat) (rest : List Char) :
    ∃ fault, value limit fuel room (']' :: rest) = .error fault ∧ fault.soft = true := by
  cases fuel with
  | zero => exact ⟨absent (']' :: rest), by rw [value], rfl⟩
  | succ fuel =>
    rw [value_scalar (by decide)]
    exact ⟨_, rfl, rfl⟩

theorem key_close (limit : Nat) (rest : List Char) :
    ∃ fault, key limit ('}' :: rest) = .error fault ∧ fault.soft = true := by
  have hparts : keyParts (('}' :: rest).length + 1) ('}' :: rest) =
      .error (absent ('}' :: rest)) := by
    rw [keyParts]
    rfl
  rw [key, hparts]
  exact ⟨_, rfl, rfl⟩

/-- Nothing that could be a pair starts with a closing brace. -/
theorem pairs_close (limit fuel room : Nat) (rest : List Char) :
    pairs limit fuel room ('}' :: rest) = .ok ([], '}' :: rest) := by
  have hpair : ∃ fault, pair limit (fuel - 1) room ('}' :: rest) = .error fault ∧
      fault.soft = true := by
    cases fuel - 1 with
    | zero => exact ⟨absent ('}' :: rest), by rw [pair], rfl⟩
    | succ fuel =>
      obtain ⟨fault, hkey, hsoft⟩ := key_close limit rest
      refine ⟨fault, ?_, hsoft⟩
      rw [pair, hkey]
      rfl
  cases fuel with
  | zero => rw [pairs]
  | succ fuel =>
    obtain ⟨fault, hpair, hsoft⟩ := hpair
    rw [Nat.add_sub_cancel] at hpair
    simp only [pairs, hpair, hsoft, if_true]

/-! ## Inline tables -/

/-- The pair of an entry of an inline table. -/
def pairOf (entry : String × Json) : Pair := ⟨[], entry.1, .value (kindOf entry.2) entry.2⟩

/-- The items of entries that are written within a line. -/
def valueItems (entries : List (String × Json)) : List (String × Item) :=
  entries.map fun entry => (entry.1, .value (kindOf entry.2) entry.2)

theorem treesOfEntries_valueItems (entries : List (String × Json)) :
    treesOfEntries (valueItems entries) = entries := by
  induction entries with
  | nil => rfl
  | cons entry rest ih =>
    rw [valueItems, List.map_cons, treesOfEntries, Item.tree, ← valueItems, ih]

theorem keys_valueItems (entries : List (String × Json)) :
    Entries.keys (valueItems entries) = Entries.keys entries := by
  simp [valueItems, Entries.keys]

theorem foldlM_pairs (entries : List (String × Json)) (before : List (String × Item))
    (h : (Entries.keys before ++ Entries.keys entries).Nodup) :
    (entries.map pairOf).foldlM
        (fun table pair => table.addValue .inline none pair.path pair.key pair.item)
        (Table.mk false false before) =
      (.ok (Table.mk false false (before ++ valueItems entries)) : Except Cause Table) := by
  induction entries generalizing before with
  | nil => simp [valueItems, pure, Except.pure]
  | cons entry rest ih =>
    obtain ⟨key, tree⟩ := entry
    have hnew : key ∉ Entries.keys before := by
      intro hmem
      exact (List.nodup_append.1 h).2.2 key hmem key List.mem_cons_self rfl
    have hadd : (Table.mk false false before).addValue .inline none [] key
        (.value (kindOf tree) tree) =
          .ok (.mk false false (before ++ [(key, .value (kindOf tree) tree)])) := by
      rw [Table.addValue, Table.update]
      exact @Table.addEntry_ok (.mk false false before) key hnew rfl none (.value (kindOf tree) tree)
    have hrest := ih (before ++ [(key, .value (kindOf tree) tree)]) (by simpa using h)
    rw [List.map_cons, List.foldlM_cons, pairOf, hadd, ok_bind, hrest, List.append_assoc]
    rfl

theorem inlineTable_pairs {entries : List (String × Json)} (h : (Entries.keys entries).Nodup) :
    inlineTable (entries.map pairOf) = .ok (.mk false false (valueItems entries)) := by
  have hfold := foldlM_pairs entries [] (by simpa using h)
  rwa [List.nil_append] at hfold

/-! ## Values -/

theorem inlineItems_cons (tree : Json) (rest : List Json) :
    inlineItems true (tree :: rest) = inlineText tree ++ inlineItems false rest := by
  rw [inlineItems, if_pos rfl, List.nil_append]

theorem inlineItems_more (tree : Json) (rest : List Json) :
    inlineItems false (tree :: rest) = ',' :: ' ' :: inlineItems true (tree :: rest) := by
  rw [inlineItems_cons, inlineItems]
  rfl

theorem inlineEntries_cons (key : String) (tree : Json) (rest : List (String × Json)) :
    inlineEntries true ((key, tree) :: rest) =
      keyText key.toList ++ ' ' :: '=' :: ' ' :: (inlineText tree ++ inlineEntries false rest) := by
  rw [inlineEntries, if_pos rfl, List.nil_append]

theorem inlineEntries_more (entry : String × Json) (rest : List (String × Json)) :
    inlineEntries false (entry :: rest) = ',' :: ' ' :: inlineEntries true (entry :: rest) := by
  rw [inlineEntries_cons, inlineEntries]
  rfl

theorem endsValue_items (trees : List Json) (rest : List Char) :
    EndsValue (inlineItems false trees ++ ']' :: rest) := by
  cases trees with
  | nil => rintro c ⟨⟩; decide
  | cons tree more => rw [inlineItems_more]; rintro c ⟨⟩; decide

theorem endsValue_entries (entries : List (String × Json)) (rest : List Char) :
    EndsValue (inlineEntries false entries ++ ' ' :: rest) := by
  cases entries with
  | nil => rintro c ⟨⟩; decide
  | cons entry more => rw [inlineEntries_more]; rintro c ⟨⟩; decide

theorem equalsSign_inlineText {tree : Json} (writable : Writable tree) (rest : List Char) :
    equalsSign ('=' :: ' ' :: (inlineText tree ++ rest)) = .ok (inlineText tree ++ rest) := by
  rw [equalsSign, skipBlanks_inlineText writable]

theorem key_blank_keyText {limit : Nat} (hlimit : 0 < limit) (last : String) {rest : List Char}
    (hrest : EndsKey rest) :
    key limit (' ' :: (keyText last.toList ++ rest)) = .ok (([], last), skipBlanks rest) := by
  have hskip : skipBlanks (' ' :: (keyText last.toList ++ rest)) = keyText last.toList ++ rest :=
    skipBlanks_keyText last.toList rest
  exact key_keyText hlimit last hskip hrest

theorem endsKey_equals (rest : List Char) : EndsKey (' ' :: '=' :: rest) :=
  ⟨stops_cons (by decide), by simp [skipBlanks, isBlank]⟩

mutual

/-- A value is read back from its text. -/
theorem value_inlineText {limit : Nat} (hlimit : 0 < limit) : (tree : Json) → Writable tree →
    Distinct tree → {fuel room : Nat} → {rest : List Char} → depth tree ≤ room →
    3 * (inlineText tree).length ≤ fuel → EndsValue rest →
    value limit fuel room (inlineText tree ++ rest) = .ok ((kindOf tree, tree), rest)
  | .null, writable, _, _, _, _, _, _, _ => by cases writable
  | .bool b, _, _, fuel, room, rest, _, hfuel, _ => by
    obtain ⟨fuel, rfl⟩ : ∃ n, fuel = n + 1 := by
      cases b <;> (rw [inlineText] at hfuel; exact ⟨fuel - 1, by simp at hfuel; omega⟩)
    cases b <;>
    · rw [inlineText]
      exact value_scalar (by decide)
  | .number n, small, _, fuel, room, rest, _, hfuel, hrest => by
    rw [inlineText] at hfuel ⊢
    rw [Writable] at small
    obtain ⟨c, u, htext, hc⟩ := numberText_eq_cons n
    obtain ⟨fuel, rfl⟩ : ∃ n, fuel = n + 1 := ⟨fuel - 1, by simp [htext] at hfuel; omega⟩
    have hplain : c ≠ '[' ∧ c ≠ '{' := by
      obtain rfl | hdigit := hc
      · decide
      · exact ⟨digit_ne hdigit (by decide), digit_ne hdigit (by decide)⟩
    have hread := scalar_number n small hrest
    rw [htext, List.cons_append] at hread ⊢
    rw [value_scalar hplain, hread, kindOf]
  | .string s, _, _, fuel, room, rest, _, hfuel, hrest => by
    rw [inlineText] at hfuel ⊢
    obtain ⟨c, u, htext, hc⟩ := stringText_eq_cons s.toList
    obtain ⟨fuel, rfl⟩ : ∃ n, fuel = n + 1 := ⟨fuel - 1, by simp [htext] at hfuel; omega⟩
    have hplain : c ≠ '[' ∧ c ≠ '{' := by rcases hc with rfl | rfl <;> decide
    have hread := scalar_string s hrest
    rw [htext, List.cons_append] at hread ⊢
    rw [value_scalar hplain, hread, kindOf]
  | .array trees, writable, distinct, fuel, room, rest, hdepth, hfuel, _ => by
    rw [inlineText] at hfuel ⊢
    rw [Writable] at writable
    rw [Distinct] at distinct
    rw [depth] at hdepth
    simp only [List.length_cons, List.length_append, List.length_nil] at hfuel
    obtain ⟨fuel, rfl⟩ : ∃ n, fuel = n + 1 := ⟨fuel - 1, by omega⟩
    obtain ⟨room, rfl⟩ : ∃ n, room = n + 1 := ⟨room - 1, by omega⟩
    have hitems := items_inlineItems hlimit trees writable distinct (Nat.le_of_succ_le_succ hdepth)
      (by omega : 3 * (inlineItems true trees).length + 3 ≤ fuel) (.inl rfl) rest
    rw [List.cons_append, List.append_assoc, List.singleton_append, value]
    rw [List.nil_append] at hitems
    simp only [hitems, ok_bind, kindOf]
  | .object [], _, _, fuel, room, rest, hdepth, hfuel, _ => by
    rw [inlineText] at hfuel ⊢
    rw [depth] at hdepth
    obtain ⟨fuel, rfl⟩ : ∃ n, fuel = n + 1 := ⟨fuel - 1, by simp at hfuel; omega⟩
    obtain ⟨room, rfl⟩ : ∃ n, room = n + 1 := ⟨room - 1, by omega⟩
    rw [List.cons_append, value]
    simp only [List.cons_append, List.nil_append, pairs_close, required_ok, ok_bind]
    rfl
  | .object (entry :: more), writable, distinct, fuel, room, rest, hdepth, hfuel, _ => by
    rw [inlineText] at hfuel ⊢
    rw [Writable] at writable
    rw [Distinct] at distinct
    rw [depth] at hdepth
    simp only [List.length_cons, List.length_append, List.length_nil] at hfuel
    obtain ⟨fuel, rfl⟩ : ∃ n, fuel = n + 1 := ⟨fuel - 1, by omega⟩
    obtain ⟨room, rfl⟩ : ∃ n, room = n + 1 := ⟨room - 1, by omega⟩
    have hpairs := pairs_inlineEntries hlimit (entry :: more) (List.cons_ne_nil _ _) writable
      distinct.2 (Nat.le_of_succ_le_succ hdepth)
      (by omega : 3 * (inlineEntries true (entry :: more)).length + 3 ≤ fuel) rest
    have htable := inlineTable_pairs distinct.1
    have htext : '{' :: ' ' :: (inlineEntries true (entry :: more) ++ [' ', '}']) ++ rest =
        '{' :: ' ' :: (inlineEntries true (entry :: more) ++ ' ' :: '}' :: rest) := by simp
    rw [htext, value]
    simp only [hpairs, required_ok, ok_bind, htable, Table.tree,
      treesOfEntries_valueItems, kindOf]
    rfl

/-- Items are read back from their text, the first of them possibly after a blank. -/
theorem items_inlineItems {limit : Nat} (hlimit : 0 < limit) : (trees : List Json) →
    WritableItems trees → DistinctItems trees → {fuel room : Nat} → depthItems trees ≤ room →
    3 * (inlineItems true trees).length + 3 ≤ fuel → {blanks : List Char} →
    (blanks = [] ∨ blanks = [' '] ∧ trees ≠ []) → (rest : List Char) →
    items limit fuel room (blanks ++ (inlineItems true trees ++ ']' :: rest)) = .ok (trees, rest)
  | [], _, _, fuel, room, _, hfuel, blanks, hblanks, rest => by
    obtain ⟨fuel, rfl⟩ : ∃ n, fuel = n + 1 := ⟨fuel - 1, by omega⟩
    obtain rfl : blanks = [] := hblanks.resolve_right fun h => h.2 rfl
    obtain ⟨fault, hvalue, hsoft⟩ := value_close limit fuel room rest
    have hspace : skipSpace (']' :: rest) = ']' :: rest := skipSpace_cons (by decide) rest
    rw [inlineItems, List.nil_append, List.nil_append, items, hspace]
    simp only [hvalue, hsoft, if_true]
    rfl
  | tree :: more, writable, distinct, fuel, room, hdepth, hfuel, blanks, hblanks, rest => by
    rw [WritableItems] at writable
    rw [DistinctItems] at distinct
    rw [depthItems] at hdepth
    rw [inlineItems_cons] at hfuel ⊢
    rw [List.length_append] at hfuel
    obtain ⟨fuel, rfl⟩ : ∃ n, fuel = n + 1 := ⟨fuel - 1, by omega⟩
    have hvalue := value_inlineText hlimit tree writable.1 distinct.1 (by omega : depth tree ≤ room)
      (by omega : 3 * (inlineText tree).length ≤ fuel) (endsValue_items more rest)
    have hstart : skipSpace (blanks ++ (inlineText tree ++ inlineItems false more ++ ']' :: rest)) =
        inlineText tree ++ (inlineItems false more ++ ']' :: rest) := by
      rw [List.append_assoc]
      obtain rfl | ⟨rfl, -⟩ := hblanks
      · exact skipSpace_inlineText writable.1 _
      · exact skipSpace_inlineText writable.1 _
    rw [items, hstart, hvalue]
    dsimp only
    cases more with
    | nil =>
      have hspace : skipSpace (']' :: rest) = ']' :: rest := skipSpace_cons (by decide) rest
      rw [inlineItems, List.nil_append, hspace]
      rfl
    | cons next more =>
      rw [inlineItems_more] at hfuel ⊢
      simp only [List.length_cons] at hfuel
      have hmore := items_inlineItems hlimit (next :: more) writable.2 distinct.2
        (by omega : depthItems (next :: more) ≤ room)
        (by omega : 3 * (inlineItems true (next :: more)).length + 3 ≤ fuel)
        (.inr ⟨rfl, List.cons_ne_nil _ _⟩) rest
      rw [List.cons_append, skipSpace_cons (by decide)]
      rw [List.cons_append] at hmore ⊢
      rw [List.nil_append] at hmore
      simp only [hmore, ok_bind]

/-- Pairs are read back from their text, the first of them after a blank. -/
theorem pairs_inlineEntries {limit : Nat} (hlimit : 0 < limit) :
    (entries : List (String × Json)) → entries ≠ [] → WritableEntries entries →
    DistinctEntries entries → {fuel room : Nat} →
    depthEntries entries ≤ room → 3 * (inlineEntries true entries).length + 3 ≤ fuel →
    (rest : List Char) →
    pairs limit fuel room (' ' :: (inlineEntries true entries ++ ' ' :: '}' :: rest)) =
      .ok (entries.map pairOf, '}' :: rest)
  | [], hne, _, _, _, _, _, _, _ => absurd rfl hne
  | (last, tree) :: more, _, writable, distinct, fuel, room, hdepth, hfuel, rest => by
    rw [WritableEntries] at writable
    rw [DistinctEntries] at distinct
    rw [depthEntries] at hdepth
    rw [inlineEntries_cons] at hfuel ⊢
    simp only [List.length_append, List.length_cons] at hfuel
    obtain ⟨fuel, rfl⟩ : ∃ n, fuel = n + 2 := ⟨fuel - 2, by omega⟩
    have hvalue := value_inlineText hlimit tree writable.1 distinct.1 (by omega : depth tree ≤ room)
      (by omega : 3 * (inlineText tree).length ≤ fuel) (endsValue_entries more ('}' :: rest))
    have hpair : pair limit (fuel + 1) room (' ' :: (keyText last.toList ++ ' ' :: '=' :: ' ' ::
          (inlineText tree ++ (inlineEntries false more ++ ' ' :: '}' :: rest)))) =
        .ok (pairOf (last, tree), skipBlanks (inlineEntries false more ++ ' ' :: '}' :: rest)) := by
      have hkey := key_blank_keyText hlimit last
        (endsKey_equals (' ' :: (inlineText tree ++ (inlineEntries false more ++ ' ' :: '}' :: rest))))
      have hequals := equalsSign_inlineText writable.1
        (inlineEntries false more ++ ' ' :: '}' :: rest)
      have hskip : skipBlanks (' ' :: '=' :: ' ' ::
          (inlineText tree ++ (inlineEntries false more ++ ' ' :: '}' :: rest))) =
          '=' :: ' ' :: (inlineText tree ++ (inlineEntries false more ++ ' ' :: '}' :: rest)) := rfl
      rw [pair, hkey]
      simp only [ok_bind, hskip, hequals, hvalue, required_ok]
      rfl
    have htext : ' ' :: (keyText last.toList ++ ' ' :: '=' :: ' ' ::
          (inlineText tree ++ inlineEntries false more) ++ ' ' :: '}' :: rest) =
        ' ' :: (keyText last.toList ++ ' ' :: '=' :: ' ' ::
          (inlineText tree ++ (inlineEntries false more ++ ' ' :: '}' :: rest))) := by simp
    rw [htext, pairs, hpair]
    dsimp only
    cases more with
    | nil => rfl
    | cons next more =>
      rw [inlineEntries_more] at hfuel ⊢
      simp only [List.length_cons] at hfuel
      have hmore := pairs_inlineEntries hlimit (next :: more) (List.cons_ne_nil _ _) writable.2
        distinct.2 (by omega : depthEntries (next :: more) ≤ room)
        (by omega : 3 * (inlineEntries true (next :: more)).length + 3 ≤ fuel + 1) rest
      have hskip : skipBlanks (',' :: ' ' ::
          (inlineEntries true (next :: more) ++ ' ' :: '}' :: rest)) =
          ',' :: ' ' :: (inlineEntries true (next :: more) ++ ' ' :: '}' :: rest) := rfl
      rw [List.cons_append, List.cons_append, hskip]
      simp only [hmore, ok_bind, List.map_cons, List.isEmpty_cons, Bool.false_eq_true, if_false]

end

end CssBuild.Toml
