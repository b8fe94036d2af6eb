import CssBuild.Proofs.Json.Equality
import Mathlib.Data.List.Induction

/-!
# CssBuild.Proofs.Json.Repeats

Keys that their mapping has already.

1. `RepeatAt` says where a tree repeats a key, by the numbers of the entries and
   items on the way, and by which keys it is reached. A value that a later entry
   replaces is part of the tree.
2. The list of a document has one path for each of these places
   (`lists_repeated`), so it is empty only if no key is repeated
   (`repeated_eq_nil_iff`).
3. A part of a tree repeats the keys that the tree repeats inside of it
   (`PartAt.repeatAt`).
4. The merged tree has each key where it first came, with its last value
   (`keeps_merged`).
-/

namespace CssBuild

/-! ## Merged entries -/

namespace Entries

variable {α : Type}

theorem merge_concat (pairs : List (String × α)) (pair : String × α) :
    merge (pairs ++ [pair]) = put (merge pairs) pair.1 pair.2 := by
  rw [merge, putAll, List.foldl_append]
  rfl

/-- Each key stays where it first came. -/
theorem keys_merge (pairs : List (String × α)) : keys (merge pairs) = (keys pairs).eraseDups := by
  induction pairs using List.reverseRecOn with
  | nil => rfl
  | append_singleton pairs pair ih =>
    have hlast : ([pair.1].removeAll (keys pairs)).eraseDups =
        if pair.1 ∈ keys pairs then [] else [pair.1] := by
      by_cases h : pair.1 ∈ keys pairs <;> simp [List.removeAll, h, List.eraseDups_cons]
    have hkeys : keys (pairs ++ [pair]) = keys pairs ++ [pair.1] := keys_append pairs [pair]
    simp only [merge_concat, keys_put, ih, List.mem_eraseDups]
    rw [hkeys, List.eraseDups_append, hlast]
    split <;> simp

/-- Each key has its last value. -/
theorem find?_merge (pairs : List (String × α)) (key : String) :
    find? (merge pairs) key = find? pairs.reverse key := by
  induction pairs using List.reverseRecOn with
  | nil => rfl
  | append_singleton pairs pair ih =>
    rw [merge_concat, List.reverse_append, List.reverse_singleton, List.singleton_append, find?]
    split
    · next h => rw [h, find?_put_self]
    · next h => rw [find?_put_of_ne _ _ (Ne.symm h), ih]

theorem mem_keys_take {entries : List (String × α)} {j : Nat} {key : String} :
    key ∈ keys (entries.take j) ↔ ∃ i < j, ∃ value, entries[i]? = some (key, value) := by
  rw [keys, List.mem_map]
  constructor
  · rintro ⟨⟨_, value⟩, hmem, rfl⟩
    obtain ⟨i, hi⟩ := List.mem_iff_getElem?.1 hmem
    rw [List.getElem?_take] at hi
    obtain ⟨hless, hentry⟩ := Option.ite_none_right_eq_some.1 hi
    exact ⟨i, hless, value, hentry⟩
  · rintro ⟨i, hless, value, hentry⟩
    rw [← List.getElem?_take_of_lt hless] at hentry
    exact ⟨(key, value), List.mem_of_getElem? hentry, rfl⟩

end Entries

namespace Json

/-! ## Places -/

/-- Whether a tree has, at some position, an entry with a key that its object has already; the
names are the keys on the way there, its own included. -/
inductive RepeatAt : Json → List Nat → List String → Prop where
  | here {entries : List (String × Json)} {i : Nat} {key : String} {value : Json}
    (hentry : entries[i]? = some (key, value)) (hseen : key ∈ Entries.keys (entries.take i)) :
    RepeatAt (.object entries) [i] [key]
  | item {items : List Json} {i : Nat} {item : Json} {position : List Nat} {names : List String}
    (hitem : items[i]? = some item) (h : RepeatAt item position names) :
    RepeatAt (.array items) (i :: position) (KeyPath.index i :: names)
  | value {entries : List (String × Json)} {i : Nat} {key : String} {value : Json}
    {position : List Nat} {names : List String} (hentry : entries[i]? = some (key, value))
    (h : RepeatAt value position names) :
    RepeatAt (.object entries) (i :: position) (key :: names)

/-- Whether a list has the paths of the repeated keys of a tree, one for each of them. -/
def Lists (paths : List String) (tree : Json) : Prop :=
  ∃ found : List (List Nat × List String), (found.map Prod.fst).Nodup ∧
    (∀ position names, (position, names) ∈ found ↔ tree.RepeatAt position names) ∧
    paths = found.map fun place => place.2.foldl KeyPath.child ""

mutual

/-- The places where a tree repeats a key, in the order in which the entries end. -/
def repeats : Json → List (List Nat × List String)
  | null | bool _ | number _ | string _ => []
  | array items => repeatsItems 0 items
  | object entries => repeatsEntries 0 [] entries

/-- `repeats`, in items from some number on. -/
def repeatsItems (i : Nat) : List Json → List (List Nat × List String)
  | [] => []
  | item :: rest =>
    (repeats item).map (fun place => (i :: place.1, KeyPath.index i :: place.2)) ++
      repeatsItems (i + 1) rest

/-- `repeats`, in entries from some number on that come after some keys. -/
def repeatsEntries (i : Nat) (seen : List String) :
    List (String × Json) → List (List Nat × List String)
  | [] => []
  | (key, value) :: rest =>
    (repeats value).map (fun place => (i :: place.1, key :: place.2)) ++
      (if key ∈ seen then [([i], [key])] else []) ++ repeatsEntries (i + 1) (key :: seen) rest

end

/-! ## Paths -/

mutual

theorem repeated_eq (path : String) : (tree : Json) →
    tree.repeated path = tree.repeats.map fun place => place.2.foldl KeyPath.child path
  | null | bool _ | number _ | string _ => rfl
  | array items => repeatedItems_eq path 0 items
  | object entries => repeatedEntries_eq path 0 [] entries

theorem repeatedItems_eq (path : String) (i : Nat) : (items : List Json) →
    repeatedItems path i items =
      (repeatsItems i items).map fun place => place.2.foldl KeyPath.child path
  | [] => rfl
  | item :: rest => by
    rw [repeatedItems, repeatsItems, List.map_append, List.map_map, repeated_eq _ item,
      repeatedItems_eq path (i + 1) rest]
    rfl

theorem repeatedEntries_eq (path : String) (i : Nat) (seen : List String) :
    (entries : List (String × Json)) → repeatedEntries path seen entries =
      (repeatsEntries i seen entries).map fun place => place.2.foldl KeyPath.child path
  | [] => rfl
  | (key, value) :: rest => by
    rw [repeatedEntries, repeatsEntries, List.map_append, List.map_append, List.map_map,
      repeated_eq _ value, repeatedEntries_eq path (i + 1) (key :: seen) rest]
    split <;> rfl

end

/-! ## All places, once each -/

theorem RepeatAt.ne_nil {tree : Json} {position : List Nat} {names : List String}
    (h : tree.RepeatAt position names) : position ≠ [] := by
  cases h <;> exact List.cons_ne_nil _ _

/-- Whether items from some number on repeat a key at a position. -/
def ItemsRepeat (start : Nat) (items : List Json) (position : List Nat) (names : List String) :
    Prop :=
  ∃ i item inner under, items[i]? = some item ∧ item.RepeatAt inner under ∧
    position = (start + i) :: inner ∧ names = KeyPath.index (start + i) :: under

/-- Whether entries from some number on that come after some keys repeat a key at a position. -/
def EntriesRepeat (start : Nat) (seen : List String) (entries : List (String × Json))
    (position : List Nat) (names : List String) : Prop :=
  ∃ i key value, entries[i]? = some (key, value) ∧
    ((∃ inner under, value.RepeatAt inner under ∧ position = (start + i) :: inner ∧
        names = key :: under) ∨
      (key ∈ seen ∨ key ∈ Entries.keys (entries.take i)) ∧ position = [start + i] ∧ names = [key])

theorem itemsRepeat_cons {start : Nat} {first : Json} {rest : List Json} {position : List Nat}
    {names : List String} : ItemsRepeat start (first :: rest) position names ↔
      (∃ inner under, first.RepeatAt inner under ∧ position = start :: inner ∧
        names = KeyPath.index start :: under) ∨
      ItemsRepeat (start + 1) rest position names := by
  have hnext (i : Nat) : start + 1 + i = start + (i + 1) := by omega
  constructor
  · rintro ⟨_ | i, item, inner, under, hitem, hat, hposition, hnames⟩
    · obtain rfl := Option.some.inj hitem
      exact .inl ⟨inner, under, hat, hposition, hnames⟩
    · rw [← hnext] at hposition hnames
      exact .inr ⟨i, item, inner, under, hitem, hat, hposition, hnames⟩
  · rintro (⟨inner, under, hat, hposition, hnames⟩ | ⟨i, item, inner, under, hitem, hat, hposition, hnames⟩)
    · exact ⟨0, first, inner, under, rfl, hat, hposition, hnames⟩
    · rw [hnext] at hposition hnames
      exact ⟨i + 1, item, inner, under, hitem, hat, hposition, hnames⟩

theorem entriesRepeat_cons {start : Nat} {seen : List String} {key : String} {value : Json}
    {rest : List (String × Json)} {position : List Nat} {names : List String} :
    EntriesRepeat start seen ((key, value) :: rest) position names ↔
      (∃ inner under, value.RepeatAt inner under ∧ position = start :: inner ∧
        names = key :: under) ∨
      (key ∈ seen ∧ position = [start] ∧ names = [key]) ∨
      EntriesRepeat (start + 1) (key :: seen) rest position names := by
  have hnext (i : Nat) : start + 1 + i = start + (i + 1) := by omega
  have hseen (i : Nat) (other : String) :
      (other ∈ key :: seen ∨ other ∈ Entries.keys (rest.take i)) ↔
        (other ∈ seen ∨ other ∈ Entries.keys (((key, value) :: rest).take (i + 1))) := by
    rw [List.take_succ_cons, Entries.keys_cons, List.mem_cons, List.mem_cons]
    exact or_assoc.trans or_left_comm
  constructor
  · rintro ⟨_ | i, other, found, hentry, hat⟩
    · obtain ⟨rfl, rfl⟩ := Prod.mk.inj (Option.some.inj hentry)
      obtain hinner | ⟨hkey, hposition, hnames⟩ := hat
      · exact .inl hinner
      · exact .inr (.inl ⟨hkey.resolve_right List.not_mem_nil, hposition, hnames⟩)
    · rw [← hseen, ← hnext] at hat
      exact .inr (.inr ⟨i, other, found, hentry, hat⟩)
  · rintro (hinner | ⟨hkey, hposition, hnames⟩ | ⟨i, other, found, hentry, hat⟩)
    · exact ⟨0, key, value, rfl, .inl hinner⟩
    · exact ⟨0, key, value, rfl, .inr ⟨.inl hkey, hposition, hnames⟩⟩
    · rw [hseen, hnext] at hat
      exact ⟨i + 1, other, found, hentry, hat⟩

mutual

/-- The places that are found are those where a key is repeated. -/
theorem mem_repeats {position : List Nat} {names : List String} : (tree : Json) →
    ((position, names) ∈ tree.repeats ↔ tree.RepeatAt position names)
  | null | bool _ | number _ | string _ => iff_of_false (nomatch ·) (nomatch ·)
  | array items => by
    rw [repeats, mem_repeatsItems items]
    constructor
    · rintro ⟨i, item, inner, under, hitem, hat, rfl, rfl⟩
      rw [Nat.zero_add]
      exact .item hitem hat
    · rintro (_ | ⟨hitem, hat⟩ | _)
      exact ⟨_, _, _, _, hitem, hat, by rw [Nat.zero_add], by rw [Nat.zero_add]⟩
  | object entries => by
    rw [repeats, mem_repeatsEntries entries]
    constructor
    · rintro ⟨i, key, value, hentry, ⟨inner, under, hat, rfl, rfl⟩ | ⟨hseen, rfl, rfl⟩⟩
      · rw [Nat.zero_add]
        exact .value hentry hat
      · rw [Nat.zero_add]
        exact .here hentry (hseen.resolve_left List.not_mem_nil)
    · rintro (⟨hentry, hseen⟩ | _ | ⟨hentry, hat⟩)
      · exact ⟨_, _, _, hentry, .inr ⟨.inr hseen, by rw [Nat.zero_add], rfl⟩⟩
      · exact ⟨_, _, _, hentry, .inl ⟨_, _, hat, by rw [Nat.zero_add], rfl⟩⟩

theorem mem_repeatsItems {start : Nat} {position : List Nat} {names : List String} :
    (items : List Json) →
    ((position, names) ∈ repeatsItems start items ↔ ItemsRepeat start items position names)
  | [] => iff_of_false (nomatch ·) fun ⟨_, _, _, _, hitem, _⟩ => nomatch hitem
  | first :: rest => by
    rw [repeatsItems, List.mem_append, List.mem_map, mem_repeatsItems rest, itemsRepeat_cons]
    refine or_congr_left ?_
    constructor
    · rintro ⟨⟨inner, under⟩, hinner, ⟨⟩⟩
      exact ⟨inner, under, (mem_repeats first).1 hinner, rfl, rfl⟩
    · rintro ⟨inner, under, hat, rfl, rfl⟩
      exact ⟨(inner, under), (mem_repeats first).2 hat, rfl⟩

theorem mem_repeatsEntries {start : Nat} {seen : List String} {position : List Nat}
    {names : List String} : (entries : List (String × Json)) →
    ((position, names) ∈ repeatsEntries start seen entries ↔
      EntriesRepeat start seen entries position names)
  | [] => iff_of_false (nomatch ·) fun ⟨_, _, _, hentry, _⟩ => nomatch hentry
  | (key, value) :: rest => by
    rw [repeatsEntries, List.append_assoc, List.mem_append, List.mem_append, List.mem_map,
      mem_repeatsEntries rest, entriesRepeat_cons]
    refine or_congr ?_ (or_congr_left ?_)
    · constructor
      · rintro ⟨⟨inner, under⟩, hinner, ⟨⟩⟩
        exact ⟨inner, under, (mem_repeats value).1 hinner, rfl, rfl⟩
      · rintro ⟨inner, under, hat, rfl, rfl⟩
        exact ⟨(inner, under), (mem_repeats value).2 hat, rfl⟩
    · split
      · next h => simp [h]
      · next h => simp [h]

end

/-- Positions under one number come once each if those under later numbers do. -/
theorem nodup_positions (start : Nat) {under more : List (List Nat)} (hunder : under.Nodup)
    (hmore : more.Nodup) (hlater : ∀ position ∈ more, ∃ i inner, start < i ∧ position = i :: inner) :
    (under.map (start :: ·) ++ more).Nodup := by
  have hnumbered : (under.map (start :: ·)).Nodup :=
    List.Pairwise.map _ (fun _ _ hne heq => hne (List.cons.inj heq).2) hunder
  refine List.nodup_append.2 ⟨hnumbered, hmore, ?_⟩
  rintro position hposition _ hother rfl
  obtain ⟨inner, -, rfl⟩ := List.mem_map.1 hposition
  obtain ⟨i, _, hi, heq⟩ := hlater _ hother
  exact absurd (List.cons.inj heq).1 (Nat.ne_of_lt hi)

mutual

/-- No place is found twice. -/
theorem nodup_repeats : (tree : Json) → (tree.repeats.map Prod.fst).Nodup
  | null | bool _ | number _ | string _ => List.nodup_nil
  | array items => nodup_repeatsItems 0 items
  | object entries => nodup_repeatsEntries 0 [] entries

theorem nodup_repeatsItems (start : Nat) :
    (items : List Json) → ((repeatsItems start items).map Prod.fst).Nodup
  | [] => List.nodup_nil
  | first :: rest => by
    have hnodup := nodup_positions start (nodup_repeats first)
      (nodup_repeatsItems (start + 1) rest) fun position hposition => by
        obtain ⟨⟨_, names⟩, hplace, rfl⟩ := List.mem_map.1 hposition
        obtain ⟨i, -, inner, -, -, -, hposition, -⟩ := (mem_repeatsItems rest).1 hplace
        exact ⟨start + 1 + i, inner, by omega, hposition⟩
    rw [List.map_map] at hnodup
    rw [repeatsItems, List.map_append, List.map_map]
    exact hnodup

theorem nodup_repeatsEntries (start : Nat) (seen : List String) :
    (entries : List (String × Json)) → ((repeatsEntries start seen entries).map Prod.fst).Nodup
  | [] => List.nodup_nil
  | (key, value) :: rest => by
    -- The entry itself is at the number alone, what is in its value goes on from there.
    have hunder : (value.repeats.map Prod.fst ++ if key ∈ seen then [[]] else []).Nodup := by
      refine List.nodup_append.2 ⟨nodup_repeats value, by split <;> simp, ?_⟩
      rintro inner hinner _ hnil rfl
      obtain ⟨⟨_, names⟩, hplace, rfl⟩ := List.mem_map.1 hinner
      refine ((mem_repeats value).1 hplace).ne_nil ?_
      split at hnil
      · exact List.mem_singleton.1 hnil
      · cases hnil
    have hnodup := nodup_positions start hunder
      (nodup_repeatsEntries (start + 1) (key :: seen) rest) fun position hposition => by
        obtain ⟨⟨_, names⟩, hplace, rfl⟩ := List.mem_map.1 hposition
        obtain ⟨i, -, -, -, ⟨inner, -, -, hposition, -⟩ | ⟨-, hposition, -⟩⟩ :=
          (mem_repeatsEntries rest).1 hplace
        · exact ⟨start + 1 + i, inner, by omega, hposition⟩
        · exact ⟨start + 1 + i, [], by omega, hposition⟩
    have hhere : (if key ∈ seen then [([start], [key])] else []).map Prod.fst =
        (if key ∈ seen then [[]] else []).map (start :: ·) := by
      split <;> rfl
    rw [List.map_append, List.map_map] at hnodup
    rw [repeatsEntries, List.map_append, List.map_append, List.map_map, hhere]
    exact hnodup

end

/-- The paths of the repeated keys are listed, one for each place. -/
theorem lists_repeated (tree : Json) : Lists (tree.repeated "") tree :=
  ⟨tree.repeats, nodup_repeats tree, fun _ _ => mem_repeats tree, repeated_eq "" tree⟩

theorem Lists.eq_nil_iff {paths : List String} {tree : Json} (h : Lists paths tree) :
    paths = [] ↔ ∀ position names, ¬ tree.RepeatAt position names := by
  obtain ⟨found, -, hfound, rfl⟩ := h
  rw [List.map_eq_nil_iff, List.eq_nil_iff_forall_not_mem]
  constructor
  · exact fun h position names hat => h _ ((hfound position names).2 hat)
  · exact fun h place hplace => h place.1 place.2 ((hfound _ _).1 hplace)

theorem Lists.mem {paths : List String} {tree : Json} (h : Lists paths tree) {position : List Nat}
    {names : List String} (hat : tree.RepeatAt position names) :
    names.foldl KeyPath.child "" ∈ paths := by
  obtain ⟨found, -, hfound, rfl⟩ := h
  exact List.mem_map.2 ⟨_, (hfound position names).2 hat, rfl⟩

theorem nodup_keys_of_not_repeatAt {entries : List (String × Json)}
    (h : ∀ position names, ¬ (object entries).RepeatAt position names) :
    (Entries.keys entries).Nodup := by
  refine List.pairwise_iff_getElem.2 fun i j hi hj hlt heq => ?_
  rw [Entries.keys, List.length_map] at hi hj
  simp only [Entries.keys, List.getElem_map] at heq
  have hseen : entries[i] ∈ entries.take j := List.mem_take_iff_getElem.2 ⟨i, by omega, rfl⟩
  exact h _ _ (.here (List.getElem?_eq_getElem hj)
    (List.mem_map.2 ⟨entries[i], hseen, heq⟩))

theorem distinct_of_not_repeatAt (tree : Json) :
    (∀ position names, ¬ tree.RepeatAt position names) → tree.Distinct := by
  induction tree using induction with
  | null | bool b | number n | string s => exact fun _ => trivial
  | array items ih =>
    intro h
    refine distinctItems_of_forall fun item hitem => ih item hitem fun position names hat => ?_
    obtain ⟨i, hi⟩ := List.mem_iff_getElem?.1 hitem
    exact h _ _ (.item hi hat)
  | object entries ih =>
    intro h
    refine ⟨nodup_keys_of_not_repeatAt h, distinctEntries_of_forall fun entry hentry =>
      ih entry hentry fun position names hat => ?_⟩
    obtain ⟨i, hi⟩ := List.mem_iff_getElem?.1 hentry
    exact h _ _ (.value hi hat)

/-- No path is listed where no key is repeated, and only there. -/
theorem repeated_eq_nil_iff {tree : Json} : tree.repeated "" = [] ↔ tree.Distinct :=
  ⟨fun h => distinct_of_not_repeatAt tree ((lists_repeated tree).eq_nil_iff.1 h),
    fun h => repeated_of_distinct tree h ""⟩

/-! ## Parts -/

theorem repeatAt_here {entries : List (String × Json)} {i : Nat} {key : String} {value : Json}
    (hentry : entries[i]? = some (key, value)) :
    (object entries).RepeatAt [i] [key] ↔ key ∈ Entries.keys (entries.take i) := by
  constructor
  · rintro (⟨-, hseen⟩ | - | ⟨-, hat⟩)
    · exact hseen
    · exact absurd rfl hat.ne_nil
  · exact .here hentry

theorem repeatAt_value {entries : List (String × Json)} {i : Nat} {key : String} {value : Json}
    (hentry : entries[i]? = some (key, value)) {position : List Nat} (hposition : position ≠ [])
    {names : List String} :
    (object entries).RepeatAt (i :: position) (key :: names) ↔ value.RepeatAt position names := by
  constructor
  · rintro (- | - | ⟨hother, hat⟩)
    · exact absurd rfl hposition
    · rw [hentry] at hother
      exact (Prod.mk.inj (Option.some.inj hother)).2 ▸ hat
  · exact .value hentry

theorem repeatAt_item {items : List Json} {i : Nat} {item : Json} (hitem : items[i]? = some item)
    {position : List Nat} {names : List String} :
    (array items).RepeatAt (i :: position) (KeyPath.index i :: names) ↔
      item.RepeatAt position names := by
  constructor
  · rintro (- | ⟨hother, hat⟩ | -)
    rw [hitem] at hother
    exact Option.some.inj hother ▸ hat
  · exact .item hitem

/-- Whether a tree has a part at a place, which is given as in `RepeatAt`. -/
inductive PartAt (part : Json) : List Nat → List String → Json → Prop where
  | refl : PartAt part [] [] part
  | item {items : List Json} {i : Nat} {item : Json} {place : List Nat} {names : List String}
    (hitem : items[i]? = some item) (h : PartAt part place names item) :
    PartAt part (i :: place) (KeyPath.index i :: names) (.array items)
  | value {entries : List (String × Json)} {i : Nat} {key : String} {value : Json}
    {place : List Nat} {names : List String} (hentry : entries[i]? = some (key, value))
    (h : PartAt part place names value) : PartAt part (i :: place) (key :: names) (.object entries)

/-- A tree repeats a key inside of a part where the part does. -/
theorem PartAt.repeatAt {part tree : Json} {place : List Nat} {names : List String}
    (h : PartAt part place names tree) {position : List Nat} (hposition : position ≠ [])
    {under : List String} :
    tree.RepeatAt (place ++ position) (names ++ under) ↔ part.RepeatAt position under := by
  induction h with
  | refl => rfl
  | item hitem _ ih => exact (repeatAt_item hitem).trans ih
  | value hentry _ ih =>
    exact (repeatAt_value hentry (List.append_ne_nil_of_right_ne_nil _ hposition)).trans ih

/-! ## What is kept -/

/-- Whether a tree has the same as another one, with each key of an object where it first came and
with its last value. -/
inductive Keeps : Json → Json → Prop where
  | null : Keeps .null .null
  | bool (b : Bool) : Keeps (.bool b) (.bool b)
  | number (n : Number) : Keeps (.number n) (.number n)
  | string (s : String) : Keeps (.string s) (.string s)
  | array {items kept : List Json} (length : kept.length = items.length)
    (h : ∀ (i : Nat) (item found : Json), items[i]? = some item → kept[i]? = some found →
      Keeps item found) : Keeps (.array items) (.array kept)
  | object {entries kept : List (String × Json)}
    (order : Entries.keys kept = (Entries.keys entries).eraseDups)
    (h : ∀ (key : String) (last found : Json), Entries.find? entries.reverse key = some last →
      Entries.find? kept key = some found → Keeps last found) : Keeps (.object entries) (.object kept)

theorem mergedItems_eq_map (items : List Json) : mergedItems items = items.map merged := by
  induction items with
  | nil => rfl
  | cons item rest ih => rw [mergedItems, ih, List.map_cons]

theorem mergedEntries_eq_map (entries : List (String × Json)) :
    mergedEntries entries = entries.map fun entry => (entry.1, entry.2.merged) := by
  induction entries with
  | nil => rfl
  | cons entry rest ih =>
    obtain ⟨key, value⟩ := entry
    rw [mergedEntries, ih, List.map_cons]

theorem find?_map_merged (entries : List (String × Json)) (key : String) :
    Entries.find? (entries.map fun entry => (entry.1, entry.2.merged)) key =
      (Entries.find? entries key).map merged := by
  induction entries with
  | nil => rfl
  | cons entry rest ih =>
    rw [List.map_cons, Entries.find?, Entries.find?, ih]
    split <;> rfl

/-- Merging keeps the last value of each key, in its first place. -/
theorem keeps_merged (tree : Json) : tree.Keeps tree.merged := by
  induction tree using induction with
  | null => exact .null
  | bool b => exact .bool b
  | number n => exact .number n
  | string s => exact .string s
  | array items ih =>
    rw [merged, mergedItems_eq_map]
    refine .array (List.length_map _) fun i item found hitem hfound => ?_
    rw [List.getElem?_map, hitem] at hfound
    obtain rfl := Option.some.inj hfound
    exact ih item (List.mem_of_getElem? hitem)
  | object entries ih =>
    rw [merged, mergedEntries_eq_map]
    refine .object ?_ fun key last found hlast hfound => ?_
    · rw [Entries.keys_merge, Entries.keys, List.map_map]
      rfl
    · rw [Entries.find?_merge, ← List.map_reverse, find?_map_merged, hlast] at hfound
      obtain rfl := Option.some.inj hfound
      exact ih (key, last) (List.mem_reverse.1 (Entries.mem_of_find? hlast))

end Json

end CssBuild
