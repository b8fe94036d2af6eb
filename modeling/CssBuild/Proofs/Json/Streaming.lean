import CssBuild.Proofs.Json.Skipping
import Mathlib.Data.List.Forall2

/-!
# CssBuild.Proofs.Json.Streaming

Typed readers on texts that are read as trees.

1. A typed reader agrees with a tree on a value if it gives the value wherever
   the tree is read, and stops where the tree ends (`Agrees`).
2. Readers of scalars and of any value agree with their trees, and lists,
   mappings and records agree with an array or an object as soon as their parts
   do (`agrees_list`, `agrees_mapping`, `agrees_record`).
3. The entries of a record may come in any order, and what no field wants is
   passed over; each key has to come once.
-/

namespace CssBuild.Json

/-- Whether a typed reader gives a value wherever a tree is read, and ends where the tree ends. -/
def Agrees {α : Type} (reader : Typed α) (tree : Json) (found : α) : Prop :=
  ∀ ⦃room : Nat⦄ ⦃s rest : List Char⦄, Parses tree room s rest → reader room s = .ok (found, rest)

/-! ## Scalars -/

theorem scalar_string {s rest : List Char} {t : String}
    (h : scalar .stepwise s = .ok (.string t, rest)) :
    ∃ body, s = '"' :: body ∧ stringBody body = .ok (t, rest) := by
  unfold scalar at h
  split at h
  · cases h
  · next c s =>
    have hother {α : Type} {result : Except Fault α} {f : α → Found Json}
        (hne : ∀ a, (f a).1 ≠ .string t) : result.map f ≠ .ok (.string t, rest) := by
      intro heq
      obtain ⟨a, -, ha⟩ := map_eq_ok.1 heq
      exact hne a (congrArg Prod.fst ha)
    split at h
    · exact absurd h (hother (by simp))
    split at h
    · exact absurd h (hother (by simp))
    split at h
    · exact absurd h (hother (by simp))
    split at h
    · exact absurd h (hother (by simp))
    split at h
    · exact absurd h (hother (by simp))
    split at h
    · next hc =>
      obtain ⟨⟨text, after⟩, hbody, heq⟩ := map_eq_ok.1 h
      obtain ⟨htext, rfl⟩ := Prod.mk.inj heq
      exact ⟨s, by rw [hc], Json.string.inj htext ▸ hbody⟩
    · cases h

theorem textOf_of_scalar {expected : String} {s rest : List Char} {t : String}
    (h : scalar .stepwise (skipBlanks s) = .ok (.string t, rest)) :
    textOf expected s = .ok (t, rest) := by
  obtain ⟨body, hs, hbody⟩ := scalar_string h
  rw [textOf, hs]
  exact hbody

theorem agrees_text (t : String) : Agrees text (.string t) t := fun _ _ _ h => textOf_of_scalar h

theorem agrees_choice {α : Type} {names : List String} {ofName? : String → Option α} {name : String}
    {found : α} (h : ofName? name = some found) :
    Agrees (choice names ofName?) (.string name) found := by
  intro room s rest hread
  obtain ⟨body, hs, hbody⟩ := scalar_string hread
  have hname : textOf "variant identifier" ('"' :: body) = .ok (name, rest) := hbody
  rw [choice, hs]
  simp only [choiceName, hname, ok_bind, h]

theorem agrees_anything {tree : Json} (distinct : tree.Distinct) : Agrees anything tree tree := by
  intro room s rest h
  have hread : value .stepwise (fuelFor s) room s = .ok (tree, rest) :=
    Parses.value tree h (by rw [fuelFor]; omega)
  rw [anything, hread, ok_map, merged_of_distinct tree distinct]

/-! ## Lists and mappings -/

section Containers

variable {α : Type} {item : Typed α}

theorem listItems_of_parses {trees : List Json} {found : List α}
    (h : List.Forall₂ (Agrees item) trees found) {room fuel : Nat} {first : Bool}
    {s rest : List Char} (hread : ParsesItems trees room first s rest) (hfuel : trees.length < fuel) :
    listItems (item room) fuel first s = .ok (found, rest) := by
  induction h generalizing fuel first s with
  | nil =>
    obtain ⟨fuel, rfl⟩ := Nat.exists_eq_succ_of_ne_zero (Nat.ne_zero_of_lt hfuel)
    obtain ⟨hnone, rfl⟩ := hread
    rw [listItems, hnone, ok_bind]
  | cons htree _ ih =>
    obtain ⟨fuel, rfl⟩ := Nat.exists_eq_succ_of_ne_zero (Nat.ne_zero_of_lt hfuel)
    obtain ⟨start, mid, hnext, hvalue, hmore⟩ := hread
    rw [listItems, hnext, ok_bind]
    simp only [htree hvalue, ih hmore (Nat.lt_of_succ_lt_succ hfuel), ok_bind]

theorem agrees_list {trees : List Json} {found : List α}
    (h : List.Forall₂ (Agrees item) trees found) : Agrees (list item) (.array trees) found := by
  intro room s rest hread
  obtain ⟨inner, under, hs, rfl, hitems⟩ := hread
  have hlength := ParsesItems.length trees hitems
  rw [list, hs]
  exact listItems_of_parses h hitems (by omega)

/-- Whether the entries of an object are those of a mapping, each with its own value. -/
def AgreesEntry (item : Typed α) (entry : String × Json) (found : String × α) : Prop :=
  found.1 = entry.1 ∧ Agrees item entry.2 found.2

theorem mapEntries_of_parses {refused : List String → String → Option Cause}
    (accepts : ∀ seen key, key ∉ seen → refused seen key = none) {entries : List (String × Json)}
    {found : List (String × α)} (h : List.Forall₂ (AgreesEntry item) entries found)
    {room fuel : Nat} {seen : List String} {first : Bool} {s rest : List Char}
    (distinct : (Entries.keys entries).Nodup) (hseen : ∀ key ∈ Entries.keys entries, key ∉ seen)
    (hread : ParsesEntries entries room first s rest) (hfuel : entries.length < fuel) :
    mapEntries (item room) refused fuel seen first s = .ok (found, rest) := by
  induction h generalizing fuel seen first s with
  | nil =>
    obtain ⟨fuel, rfl⟩ := Nat.exists_eq_succ_of_ne_zero (Nat.ne_zero_of_lt hfuel)
    rw [mapEntries, show nextEntry? first s = .ok (none, rest) from hread, ok_bind]
  | @cons entry pair rest' found' hentry _ ih =>
    obtain ⟨fuel, rfl⟩ := Nat.exists_eq_succ_of_ne_zero (Nat.ne_zero_of_lt hfuel)
    obtain ⟨_, tree⟩ := entry
    obtain ⟨key, value⟩ := pair
    obtain ⟨hsame, hvalue⟩ := hentry
    obtain rfl : key = _ := hsame
    obtain ⟨after, start, mid, hnext, hcolon, htree, hmore⟩ := hread
    obtain ⟨hnew, hdistinct⟩ := List.nodup_cons.1 distinct
    obtain ⟨hkey, hothers⟩ := List.forall_mem_cons.1 hseen
    have hunseen : ∀ other ∈ Entries.keys rest', other ∉ key :: seen := by
      intro other hother hmem
      obtain rfl | hmem := List.mem_cons.1 hmem
      · exact hnew hother
      · exact hothers other hother hmem
    have hrest := ih hdistinct hunseen hmore (Nat.lt_of_succ_lt_succ hfuel)
    rw [mapEntries, hnext, ok_bind]
    simp only [hcolon, hvalue htree, accepts seen key hkey, hrest, ok_bind]

theorem agrees_mapping {expected : String} {refused : List String → String → Option Cause}
    (accepts : ∀ seen key, key ∉ seen → refused seen key = none) {entries : List (String × Json)}
    {found : List (String × α)} (h : List.Forall₂ (AgreesEntry item) entries found)
    (distinct : (Entries.keys entries).Nodup) :
    Agrees (mapping expected item refused) (.object entries) found := by
  intro room s rest hread
  obtain ⟨inner, under, hs, rfl, hentries⟩ := hread
  have hlength := ParsesEntries.length entries hentries
  rw [mapping, hs]
  exact mapEntries_of_parses accepts h distinct (fun _ _ => List.not_mem_nil) hentries (by omega)

end Containers

/-! ## Records -/

section Records

variable {fields : List Field} {out : String → Json}

/-- Whether a field has a value in a record of some entries: its default, or what it reads. -/
def Field.Has (entries : List (String × Json)) (field : Field) (found : Json) : Prop :=
  (field.name ∉ Entries.keys entries ∧ field.default? = some found) ∨
    ∃ tree, (field.name, tree) ∈ entries ∧ Agrees field.reader tree found

/-- The fields that are given are those with an entry, whatever their order. -/
theorem objectFields_of_parses {entries given : List (String × Json)}
    (distinct : (Entries.keys entries).Nodup)
    (hnew : ∀ key ∈ Entries.keys entries, key ∉ Entries.keys given)
    (h : ∀ field ∈ fields, ∀ tree, (field.name, tree) ∈ entries →
      Agrees field.reader tree (out field.name))
    {room fuel : Nat} {first : Bool} {s rest : List Char}
    (hread : ParsesEntries entries room first s rest) (hfuel : entries.length < fuel) :
    ∃ all, objectFields fields room fuel given first s = .ok (all, rest) ∧
      ∀ field ∈ fields, Entries.find? all field.name =
        if field.name ∈ Entries.keys entries then some (out field.name)
        else Entries.find? given field.name := by
  induction entries generalizing given fuel first s with
  | nil =>
    obtain ⟨fuel, rfl⟩ := Nat.exists_eq_succ_of_ne_zero (Nat.ne_zero_of_lt hfuel)
    refine ⟨given, ?_, fun field _ => (if_neg List.not_mem_nil).symm⟩
    rw [objectFields, show nextEntry? first s = .ok (none, rest) from hread, ok_bind]
  | cons entry others ih =>
    obtain ⟨fuel, rfl⟩ := Nat.exists_eq_succ_of_ne_zero (Nat.ne_zero_of_lt hfuel)
    obtain ⟨key, tree⟩ := entry
    obtain ⟨after, start, mid, hnext, hcolon, htree, hmore⟩ := hread
    obtain ⟨hkey, hdistinct⟩ := List.nodup_cons.1 distinct
    obtain ⟨hgiven, hothers⟩ := List.forall_mem_cons.1 hnew
    have hfields : ∀ field ∈ fields, ∀ tree, (field.name, tree) ∈ others →
        Agrees field.reader tree (out field.name) :=
      fun field hfield tree hmem => h field hfield tree (List.mem_cons_of_mem _ hmem)
    rw [objectFields, hnext, ok_bind]
    cases hfind : fields.find? fun field => field.name = key with
    | none =>
      obtain ⟨all, hall, hvalues⟩ := ih hdistinct hothers hfields hmore (Nat.lt_of_succ_lt_succ hfuel)
      refine ⟨all, ?_, fun field hfield => ?_⟩
      · simp only [hfind, hcolon, htree.passOver, ok_bind]
        exact hall
      · have hne : field.name ≠ key := by simpa using List.find?_eq_none.1 hfind field hfield
        rw [hvalues field hfield, Entries.keys_cons]
        simp only [List.mem_cons, hne, false_or]
    | some own =>
      have hown : own ∈ fields := List.mem_of_find?_eq_some hfind
      obtain rfl : own.name = key := by simpa using List.find?_some hfind
      have hvalue := h own hown tree List.mem_cons_self htree
      have hunseen : ∀ other ∈ Entries.keys others,
          other ∉ Entries.keys ((own.name, out own.name) :: given) := by
        intro other hother hmem
        obtain rfl | hmem := List.mem_cons.1 hmem
        · exact hkey hother
        · exact hothers other hother hmem
      obtain ⟨all, hall, hvalues⟩ := ih hdistinct hunseen hfields hmore (Nat.lt_of_succ_lt_succ hfuel)
      have hfresh : Entries.has given own.name = false := by
        rw [Bool.eq_false_iff, Ne, Entries.has_iff]
        exact hgiven
      refine ⟨all, ?_, fun field hfield => ?_⟩
      · simp only [hfind, hfresh, hcolon, hvalue, ok_bind]
        exact hall
      · rw [hvalues field hfield, Entries.keys_cons, Entries.find?]
        by_cases hsame : own.name = field.name
        · simp [hsame]
        · simp [hsame, Ne.symm hsame]

theorem fillFields_eq {given : List (String × Json)}
    (h : ∀ field ∈ fields,
      (Entries.find? given field.name).or field.default? = some (out field.name)) :
    fillFields given fields = .ok (fields.map fun field => (field.name, out field.name)) := by
  induction fields with
  | nil => rfl
  | cons field rest ih =>
    obtain ⟨hfirst, hrest⟩ := List.forall_mem_cons.1 h
    rw [fillFields, hfirst, List.map_cons]
    simp only [ih hrest, ok_bind]

/-- Whether an entry of a record is what its field has in some entries. -/
def AgreesField (entries : List (String × Json)) (field : Field) (found : String × Json) : Prop :=
  found.1 = field.name ∧ field.Has entries found.2

/-- Fields of different names have the values of one function of their names. -/
theorem exists_values {entries found : List (String × Json)}
    (h : List.Forall₂ (AgreesField entries) fields found) (names : (fields.map Field.name).Nodup) :
    ∃ out : String → Json, found = (fields.map fun field => (field.name, out field.name)) ∧
      ∀ field ∈ fields, field.Has entries (out field.name) := by
  induction h with
  | nil => exact ⟨fun _ => .null, rfl, List.forall_mem_nil _⟩
  | @cons field pair fields' found' hfield _ ih =>
    obtain ⟨_, value⟩ := pair
    obtain ⟨rfl, hvalue⟩ := hfield
    obtain ⟨hnew, hnames⟩ := List.nodup_cons.1 names
    obtain ⟨out, rfl, hout⟩ := ih hnames
    have hother {other : Field} (hmem : other ∈ fields') :
        Function.update out field.name value other.name = out other.name :=
      Function.update_of_ne (fun heq => hnew (List.mem_map.2 ⟨other, hmem, heq⟩)) value out
    refine ⟨Function.update out field.name value, ?_, List.forall_mem_cons.2 ⟨?_, ?_⟩⟩
    · rw [List.map_cons, Function.update_self]
      exact congrArg _ (List.map_congr_left fun other hmem => by rw [hother hmem])
    · rw [Function.update_self]
      exact hvalue
    · intro other hmem
      rw [hother hmem]
      exact hout other hmem

/-- A record that is written as an object is read as all of its fields in order. -/
theorem agrees_record {name : String} {entries found : List (String × Json)}
    (distinct : (Entries.keys entries).Nodup) (names : (fields.map Field.name).Nodup)
    (h : List.Forall₂ (AgreesField entries) fields found) :
    Agrees (record name fields) (.object entries) (.object found) := by
  obtain ⟨out, rfl, hout⟩ := exists_values h names
  intro room s rest hread
  obtain ⟨inner, under, hs, rfl, hentries⟩ := hread
  have hlength := ParsesEntries.length entries hentries
  have hagree : ∀ field ∈ fields, ∀ tree, (field.name, tree) ∈ entries →
      Agrees field.reader tree (out field.name) := by
    intro field hfield tree htree
    obtain ⟨hnone, -⟩ | ⟨found, hfound, hvalue⟩ := hout field hfield
    · exact absurd (Entries.mem_keys_of_mem htree) hnone
    · exact Entries.value_unique distinct hfound htree ▸ hvalue
  have hnew : ∀ key ∈ Entries.keys entries, key ∉ Entries.keys ([] : List (String × Json)) :=
    fun _ _ => List.not_mem_nil
  have hfuel : entries.length < inner.length + 1 := by omega
  obtain ⟨given, hgiven, hvalues⟩ := objectFields_of_parses distinct hnew hagree hentries hfuel
  have hfill : fillFields given fields =
      .ok (fields.map fun field => (field.name, out field.name)) := by
    apply fillFields_eq
    intro field hfield
    rw [hvalues field hfield]
    obtain ⟨hnone, hdefault⟩ | ⟨tree, htree, -⟩ := hout field hfield
    · rw [if_neg hnone, hdefault]
      rfl
    · rw [if_pos (Entries.mem_keys_of_mem htree)]
      rfl
  rw [record, hs]
  simp only [hgiven, hfill, ok_bind]

end Records

/-! ## Whole texts -/

theorem readTyped_of_readChars {α : Type} {reader : Typed α} {tree : Json} {found : α}
    (h : Agrees reader tree found) {text : List Char} (hread : readChars text = .ok tree) :
    readTyped reader text = .ok found := by
  obtain ⟨⟨_, rest⟩, hvalue, hrest⟩ := bind_eq_ok.1 hread
  obtain ⟨_, hfinish, htree⟩ := bind_eq_ok.1 hrest
  obtain rfl := Except.ok.inj htree
  have htyped : reader maxDepth text = .ok (found, rest) := h (parses_of_value _ _ _ _ _ hvalue)
  rw [readTyped, htyped]
  simp only [hfinish, ok_bind]

end CssBuild.Json
