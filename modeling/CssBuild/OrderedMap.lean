/-!
# CssBuild.OrderedMap

Maps from texts that keep the order in which their keys first came.

1. `Entries` are key-value pairs in order; putting a key that is there
   already gives it the new value and leaves it where it is.
2. An `OrderedMap` is such a list in which no key comes twice.
-/

namespace CssBuild

/-! ## Entries -/

/-- Keys with their values, in order. -/
abbrev Entries (α : Type) := List (String × α)

namespace Entries

variable {α : Type}

/-- The keys, in order. -/
def keys (entries : Entries α) : List String := entries.map Prod.fst

/-- The value of the first entry with a key. -/
def find? (entries : Entries α) (key : String) : Option α :=
  match entries with
  | [] => none
  | (k, v) :: rest => if k = key then some v else find? rest key

/-- Whether a key is there. -/
def has (entries : Entries α) (key : String) : Bool := entries.any fun entry => entry.1 == key

/-- Gives a key a value: in its old place if it is there, at the end otherwise. -/
def put (entries : Entries α) (key : String) (value : α) : Entries α :=
  match entries with
  | [] => [(key, value)]
  | (k, v) :: rest => if k = key then (k, value) :: rest else (k, v) :: put rest key value

/-- Puts the pairs of a list one after the other. -/
def putAll (entries : Entries α) (pairs : List (String × α)) : Entries α :=
  pairs.foldl (fun acc pair => put acc pair.1 pair.2) entries

/-- The entries that a list of pairs leaves: each key where it first came, with its last value. -/
def merge (pairs : List (String × α)) : Entries α := putAll [] pairs

theorem find?_put_self (entries : Entries α) (key : String) (value : α) :
    find? (put entries key value) key = some value := by
  induction entries with
  | nil => simp [put, find?]
  | cons entry rest ih =>
    by_cases h : entry.1 = key <;> simp [put, find?, h, ih]

theorem find?_put_of_ne (entries : Entries α) {key other : String} (value : α)
    (h : other ≠ key) : find? (put entries key value) other = find? entries other := by
  induction entries with
  | nil => simp [put, find?, h.symm]
  | cons entry rest ih =>
    by_cases hk : entry.1 = key
    · simp [put, find?, hk, h.symm]
    · simp [put, find?, hk, ih]

theorem keys_put (entries : Entries α) (key : String) (value : α) :
    keys (put entries key value) =
      if key ∈ keys entries then keys entries else keys entries ++ [key] := by
  induction entries with
  | nil => simp [put, keys]
  | cons entry rest ih =>
    simp only [keys] at ih
    by_cases hk : entry.1 = key
    · simp [put, keys, hk]
    · by_cases hm : key ∈ rest.map Prod.fst <;>
        simp [put, keys, hk, Ne.symm hk, ih, hm]

theorem nodup_keys_put {entries : Entries α} (h : (keys entries).Nodup) (key : String)
    (value : α) : (keys (put entries key value)).Nodup := by
  rw [keys_put]
  split
  · exact h
  · next hm =>
    refine List.nodup_append.2 ⟨h, by simp, ?_⟩
    intro a ha b hb hab
    rw [List.mem_singleton.1 hb] at hab
    exact hm (hab ▸ ha)

theorem nodup_keys_putAll {entries : Entries α} (h : (keys entries).Nodup)
    (pairs : List (String × α)) : (keys (putAll entries pairs)).Nodup := by
  induction pairs generalizing entries with
  | nil => exact h
  | cons pair rest ih => exact ih (nodup_keys_put h _ _)

theorem nodup_keys_merge (pairs : List (String × α)) : (keys (merge pairs)).Nodup := by
  refine nodup_keys_putAll ?_ pairs
  exact List.nodup_nil

/-! ## Entries that repeat no key -/

@[simp] theorem keys_nil : keys ([] : Entries α) = [] := rfl

@[simp] theorem keys_cons (key : String) (value : α) (rest : Entries α) :
    keys ((key, value) :: rest) = key :: keys rest := rfl

@[simp] theorem keys_append (entries more : Entries α) :
    keys (entries ++ more) = keys entries ++ keys more := List.map_append

theorem mem_keys_of_mem {entries : Entries α} {key : String} {value : α}
    (h : (key, value) ∈ entries) : key ∈ keys entries := List.mem_map_of_mem (f := Prod.fst) h

theorem find?_eq_none_iff {entries : Entries α} {key : String} :
    find? entries key = none ↔ key ∉ keys entries := by
  induction entries with
  | nil => simp [find?]
  | cons entry rest ih =>
    by_cases h : entry.1 = key
    · simp [find?, keys, h]
    · simp [find?, keys, h, Ne.symm h] at ih ⊢
      exact ih

theorem mem_of_find? {entries : Entries α} {key : String} {value : α}
    (h : find? entries key = some value) : (key, value) ∈ entries := by
  induction entries with
  | nil => simp [find?] at h
  | cons entry rest ih =>
    obtain ⟨k, v⟩ := entry
    rw [find?] at h
    split at h
    · next hk =>
      rw [← hk, Option.some.inj h]
      exact List.mem_cons_self
    · exact List.mem_cons_of_mem _ (ih h)

/-- Where no key comes twice, looking a key up finds each entry. -/
theorem find?_eq_some_iff {entries : Entries α} (distinct : (keys entries).Nodup) {key : String}
    {value : α} : find? entries key = some value ↔ (key, value) ∈ entries := by
  refine ⟨mem_of_find?, fun h => ?_⟩
  induction entries with
  | nil => simp at h
  | cons entry rest ih =>
    obtain ⟨k, v⟩ := entry
    obtain ⟨hk, hrest⟩ := List.nodup_cons.1 distinct
    obtain heq | hmem := List.mem_cons.1 h
    · simp [find?, (Prod.mk.inj heq).1, (Prod.mk.inj heq).2]
    · have hne : k ≠ key := fun heq => hk (heq ▸ mem_keys_of_mem hmem)
      rw [find?, if_neg hne]
      exact ih hrest hmem

/-- Where no key comes twice, a key has one value. -/
theorem value_unique {entries : Entries α} (distinct : (keys entries).Nodup) {key : String}
    {a b : α} (ha : (key, a) ∈ entries) (hb : (key, b) ∈ entries) : a = b := by
  have hfind := (find?_eq_some_iff distinct).2 ha
  rw [(find?_eq_some_iff distinct).2 hb] at hfind
  exact (Option.some.inj hfind).symm

theorem has_iff {entries : Entries α} {key : String} :
    has entries key = true ↔ key ∈ keys entries := by
  simp [has, keys, List.any_eq_true]

theorem has_eq_isSome (entries : Entries α) (key : String) :
    has entries key = (find? entries key).isSome := by
  induction entries with
  | nil => rfl
  | cons entry rest ih =>
    simp only [has] at ih
    by_cases h : entry.1 = key <;> simp [has, find?, h, ih]

theorem put_of_not_mem {entries : Entries α} {key : String} (h : key ∉ keys entries) (value : α) :
    put entries key value = entries ++ [(key, value)] := by
  induction entries with
  | nil => rfl
  | cons entry rest ih =>
    obtain ⟨k, v⟩ := entry
    simp only [keys_cons, List.mem_cons, not_or] at h
    rw [put, if_neg (Ne.symm h.1), ih h.2, List.cons_append]

theorem putAll_of_nodup {entries pairs : Entries α} (h : (keys (entries ++ pairs)).Nodup) :
    putAll entries pairs = entries ++ pairs := by
  induction pairs generalizing entries with
  | nil => simp [putAll]
  | cons pair rest ih =>
    obtain ⟨key, value⟩ := pair
    have hkey : key ∉ keys entries := by
      intro hmem
      rw [keys_append, keys_cons] at h
      exact (List.nodup_append.1 h).2.2 key hmem key List.mem_cons_self rfl
    have hput := @ih (entries ++ [(key, value)]) (by simpa using h)
    simpa [putAll, put_of_not_mem hkey] using hput

/-- Merging changes nothing where no key comes twice. -/
theorem merge_of_nodup {pairs : Entries α} (h : (keys pairs).Nodup) : merge pairs = pairs :=
  @putAll_of_nodup α [] pairs h

end Entries

/-! ## Ordered maps -/

/-- Entries in which no key comes twice. -/
structure OrderedMap (α : Type) where
  /-- The entries, in order of first insertion. -/
  entries : Entries α
  /-- No key comes twice. -/
  distinct : entries.keys.Nodup

namespace OrderedMap

variable {α : Type}

/-- The map without entries. -/
def empty : OrderedMap α := ⟨[], List.nodup_nil⟩

instance : Inhabited (OrderedMap α) := ⟨empty⟩

/-- The value of a key. -/
def get? (m : OrderedMap α) (key : String) : Option α := m.entries.find? key

/-- Gives a key a value, keeping its place if it has one. -/
def insert (m : OrderedMap α) (key : String) (value : α) : OrderedMap α :=
  ⟨m.entries.put key value, Entries.nodup_keys_put m.distinct key value⟩

/-- Gives a key a value, and tells which one it had before. -/
def replace (m : OrderedMap α) (key : String) (value : α) : Option α × OrderedMap α :=
  (m.get? key, m.insert key value)

/-- Gives the keys of a list of pairs their values one after the other, and tells for each which
value it had before. -/
def replaceAll (m : OrderedMap α) : List (String × α) → List (Option α) × OrderedMap α
  | [] => ([], m)
  | (key, value) :: rest =>
    let (before, next) := m.replace key value
    let (more, last) := replaceAll next rest
    (before :: more, last)

/-- The map that a list of pairs leaves. -/
def ofList (pairs : List (String × α)) : OrderedMap α :=
  ⟨Entries.merge pairs, Entries.nodup_keys_merge pairs⟩

/-- The entries, in order. -/
def toList (m : OrderedMap α) : List (String × α) := m.entries

/-- The number of keys. -/
def size (m : OrderedMap α) : Nat := m.entries.length

/-- Whether there is no key at all. -/
def isEmpty (m : OrderedMap α) : Bool := m.entries.isEmpty

@[simp] theorem toList_empty : (empty : OrderedMap α).toList = [] := rfl

theorem toList_injective {a b : OrderedMap α} (h : a.toList = b.toList) : a = b := by
  cases a
  cases b
  cases h
  rfl

theorem toList_ofList {pairs : List (String × α)} (h : (Entries.keys pairs).Nodup) :
    (ofList pairs).toList = pairs := Entries.merge_of_nodup h

theorem ofList_toList (m : OrderedMap α) : ofList m.toList = m :=
  toList_injective (toList_ofList m.distinct)

end OrderedMap

end CssBuild
