import CssBuild.KeyPath
import Mathlib.Logic.Basic

/-!
# CssBuild.Proofs.Json.Lookup

What a dotted path leads to.

1. The parts of a path between its dots can be put together to keys and item
   numbers in several ways; `Leads` says which of these ways lead somewhere.
2. Looking a path up takes one of them: the one that is nowhere `Shadowed`, as
   each of its keys is the longest one that the parts make in its mapping
   (`follow_eq_ok`, `lookup_longest`).
3. A value that is reached in another way only is not found, since a key that was
   chosen is never given up again (`lookup_shadowed`). Without keys that go on
   from one another nothing is shadowed (`not_shadowed`).
4. Where no key has a dot, a path is followed part by part (`lookup_joinSteps`).
-/

namespace CssBuild

/-! ## Parts of paths -/

namespace KeyPath

/-- The parts of a path between its dots. -/
def parts (path : String) : List String := (Text.split '.' path.toList).map String.ofList

end KeyPath

namespace Json

theorem toList_joinSteps (steps : List String) :
    (joinSteps steps).toList = Text.join '.' (steps.map String.toList) := by
  rw [joinSteps, String.toList_intercalate, Text.join_eq_intercalate]
  rfl

theorem joinSteps_append {steps more : List String} (hsteps : steps ≠ []) (hmore : more ≠ []) :
    joinSteps (steps ++ more) = joinSteps steps ++ "." ++ joinSteps more := by
  rw [← String.toList_inj, toList_joinSteps, List.map_append,
    Text.join_append '.' (by simpa using hsteps) (by simpa using hmore)]
  simp [toList_joinSteps]

/-- Parts without dots are those of the path that they make. -/
theorem parts_joinSteps {steps : List String} (hne : steps ≠ [])
    (hdots : ∀ step ∈ steps, '.' ∉ step.toList) : KeyPath.parts (joinSteps steps) = steps := by
  rw [KeyPath.parts, toList_joinSteps, Text.split_join (by simpa using hne), List.map_map]
  · simp
  · intro piece hpiece
    obtain ⟨step, hstep, rfl⟩ := List.mem_map.1 hpiece
    exact hdots step hstep

/-! ## Conditions on all parts of a tree -/

mutual

/-- Whether a tree and all that is in it satisfy a condition. -/
def Every (p : Json → Prop) : Json → Prop
  | null => p null
  | bool b => p (bool b)
  | number n => p (number n)
  | string s => p (string s)
  | array items => p (array items) ∧ EveryItem p items
  | object entries => p (object entries) ∧ EveryValue p entries

/-- `Every`, of every item. -/
def EveryItem (p : Json → Prop) : List Json → Prop
  | [] => True
  | item :: rest => Every p item ∧ EveryItem p rest

/-- `Every`, of the value of every entry. -/
def EveryValue (p : Json → Prop) : List (String × Json) → Prop
  | [] => True
  | (_, value) :: rest => Every p value ∧ EveryValue p rest

end

section Every

variable {p : Json → Prop}

theorem Every.self {tree : Json} (h : tree.Every p) : p tree := by
  cases tree with
  | array items => exact h.1
  | object entries => exact h.1
  | null | bool _ | number _ | string _ => exact h

theorem Every.item {items : List Json} (h : (array items).Every p) {item : Json}
    (hmem : item ∈ items) : item.Every p := by
  have hitems : EveryItem p items := h.2
  clear h
  induction items with
  | nil => cases hmem
  | cons first rest ih =>
    obtain rfl | hrest := List.mem_cons.1 hmem
    · exact hitems.1
    · exact ih hrest hitems.2

theorem Every.value {entries : List (String × Json)} (h : (object entries).Every p) {key : String}
    {value : Json} (hmem : (key, value) ∈ entries) : value.Every p := by
  have hentries : EveryValue p entries := h.2
  clear h
  induction entries with
  | nil => cases hmem
  | cons entry rest ih =>
    obtain ⟨k, v⟩ := entry
    obtain heq | hrest := List.mem_cons.1 hmem
    · exact (Prod.mk.inj heq).2 ▸ hentries.1
    · exact ih hrest hentries.2

end Every

/-! ## Ways through a tree -/

/-- Whether groups of parts lead from a value to another one: in a mapping the parts of a group
make a key, in an array a group is one part that is the number of an item. -/
inductive Leads : Json → List (List String) → Json → Prop where
  | here (tree : Json) : Leads tree [] tree
  | key {entries : List (String × Json)} {group : List String} {groups : List (List String)}
    {child found : Json} (nonempty : group ≠ [])
    (key : Entries.find? entries (joinSteps group) = some child) (h : Leads child groups found) :
    Leads (.object entries) (group :: groups) found
  | item {items : List Json} {step : String} {i : Nat} {groups : List (List String)}
    {child found : Json} (number : stepIndex? step = some i) (item : items[i]? = some child)
    (h : Leads child groups found) : Leads (.array items) ([step] :: groups) found

/-- Whether the parts of a group, and some of those after it, make a key of a mapping too. -/
def LongerKey (entries : List (String × Json)) (group after : List String) : Prop :=
  ∃ n, group.length < n ∧ n ≤ (group ++ after).length ∧
    joinSteps ((group ++ after).take n) ∈ Entries.keys entries

/-- Whether there is a longer key than the one taken in one of the mappings on the way. -/
def Shadowed (tree : Json) (groups : List (List String)) : Prop :=
  ∃ before group after entries, groups = before ++ group :: after ∧
    tree.Leads before (.object entries) ∧ LongerKey entries group after.flatten

theorem not_shadowed_nil (tree : Json) : ¬ tree.Shadowed [] := by
  rintro ⟨before, group, after, entries, hgroups, -⟩
  simp at hgroups

theorem shadowed_key {entries : List (String × Json)} {group : List String}
    {groups : List (List String)} {child : Json} (hsome : group ≠ [])
    (hchild : Entries.find? entries (joinSteps group) = some child) :
    (object entries).Shadowed (group :: groups) ↔
      LongerKey entries group groups.flatten ∨ child.Shadowed groups := by
  constructor
  · rintro ⟨before, other, after, found, hgroups, hleads, hlonger⟩
    cases hleads with
    | here =>
      obtain ⟨rfl, rfl⟩ := List.cons.inj hgroups
      exact .inl hlonger
    | key _ hnext hleads =>
      obtain ⟨rfl, rfl⟩ := List.cons.inj hgroups
      obtain rfl := Option.some.inj (hchild.symm.trans hnext)
      exact .inr ⟨_, other, after, found, rfl, hleads, hlonger⟩
  · rintro (hlonger | ⟨before, other, after, found, rfl, hleads, hlonger⟩)
    · exact ⟨[], group, groups, entries, rfl, .here _, hlonger⟩
    · exact ⟨group :: before, other, after, found, rfl, .key hsome hchild hleads, hlonger⟩

theorem shadowed_item {items : List Json} {step : String} {i : Nat} {groups : List (List String)}
    {child : Json} (hnumber : stepIndex? step = some i) (hchild : items[i]? = some child) :
    (array items).Shadowed ([step] :: groups) ↔ child.Shadowed groups := by
  constructor
  · rintro ⟨before, other, after, found, hgroups, hleads, hlonger⟩
    cases hleads with
    | item hother hnext hleads =>
      obtain ⟨hstep, rfl⟩ := List.cons.inj hgroups
      obtain rfl := (List.cons.inj hstep).1
      obtain rfl := Option.some.inj (hnumber.symm.trans hother)
      obtain rfl := Option.some.inj (hchild.symm.trans hnext)
      exact ⟨_, other, after, found, rfl, hleads, hlonger⟩
  · rintro ⟨before, other, after, found, rfl, hleads, hlonger⟩
    exact ⟨[step] :: before, other, after, found, rfl, .item hnumber hchild hleads, hlonger⟩

/-! ## The way that is taken -/

theorem longestKey?_eq_some {entries : List (String × Json)} {steps rest : List String}
    {count : Nat} {child : Json} :
    longestKey? entries steps count = some (child, rest) ↔
      ∃ n, 0 < n ∧ n ≤ count ∧ Entries.find? entries (joinSteps (steps.take n)) = some child ∧
        steps.drop n = rest ∧
        ∀ m, n < m → m ≤ count → joinSteps (steps.take m) ∉ Entries.keys entries := by
  induction count with
  | zero =>
    rw [longestKey?]
    refine iff_of_false (by simp) ?_
    rintro ⟨n, hpos, hle, -⟩
    omega
  | succ count ih =>
    rw [longestKey?]
    split
    · next found hfound =>
      constructor
      · intro h
        obtain ⟨rfl, rfl⟩ := Prod.mk.inj (Option.some.inj h)
        exact ⟨count + 1, Nat.succ_pos _, Nat.le_refl _, hfound, rfl, fun m hm hle => by omega⟩
      · rintro ⟨n, -, hle, hchild, rfl, hlonger⟩
        obtain rfl | hlt := Nat.eq_or_lt_of_le hle
        · rw [Option.some.inj (hfound.symm.trans hchild)]
        · exact absurd (Entries.mem_keys_of_mem (Entries.mem_of_find? hfound))
            (hlonger _ hlt (Nat.le_refl _))
    · next hnone =>
      rw [ih]
      constructor
      · rintro ⟨n, hpos, hle, hchild, hrest, hlonger⟩
        refine ⟨n, hpos, Nat.le_succ_of_le hle, hchild, hrest, fun m hm hm' => ?_⟩
        obtain rfl | hlt := Nat.eq_or_lt_of_le hm'
        · exact Entries.find?_eq_none_iff.1 hnone
        · exact hlonger m hm (Nat.le_of_lt_succ hlt)
      · rintro ⟨n, hpos, hle, hchild, hrest, hlonger⟩
        obtain rfl | hlt := Nat.eq_or_lt_of_le hle
        · rw [hchild] at hnone
          cases hnone
        · exact ⟨n, hpos, Nat.le_of_lt_succ hlt, hchild, hrest,
            fun m hm hm' => hlonger m hm (Nat.le_succ_of_le hm')⟩

/-- In a mapping a key is taken with the parts that it has, and none that is longer. -/
theorem longestKey?_all {entries : List (String × Json)} {steps rest : List String} {child : Json} :
    longestKey? entries steps steps.length = some (child, rest) ↔
      ∃ group, group ≠ [] ∧ group ++ rest = steps ∧
        Entries.find? entries (joinSteps group) = some child ∧ ¬ LongerKey entries group rest := by
  rw [longestKey?_eq_some]
  constructor
  · rintro ⟨n, hpos, hle, hchild, rfl, hlonger⟩
    have hlength : (steps.take n).length = n := List.length_take_of_le hle
    refine ⟨steps.take n, ?_, List.take_append_drop n steps, hchild, ?_⟩
    · rw [← List.length_pos_iff, hlength]
      exact hpos
    · rintro ⟨m, hm, hm', hkey⟩
      rw [List.take_append_drop] at hm' hkey
      exact hlonger m (hlength ▸ hm) hm' hkey
  · rintro ⟨group, hsome, rfl, hchild, hlonger⟩
    refine ⟨group.length, List.length_pos_iff.2 hsome, ?_, ?_, ?_, fun m hm hm' hkey => ?_⟩
    · rw [List.length_append]
      exact Nat.le_add_right _ _
    · rw [List.take_left]
      exact hchild
    · exact List.drop_left
    · exact hlonger ⟨m, hm, hm', hkey⟩

/-- Whether a way that is nowhere shadowed leads from a value to another one by some parts. -/
def LeadsOpenly (tree : Json) (steps : List String) (found : Json) : Prop :=
  ∃ groups, groups.flatten = steps ∧ tree.Leads groups found ∧ ¬ tree.Shadowed groups

theorem leadsOpenly_nil {tree found : Json} : tree.LeadsOpenly [] found ↔ tree = found := by
  constructor
  · rintro ⟨groups, hflatten, hleads, -⟩
    cases hleads with
    | here => rfl
    | key hsome _ _ =>
      rw [List.flatten_cons, List.append_eq_nil_iff] at hflatten
      exact absurd hflatten.1 hsome
    | item _ _ _ => cases hflatten
  · rintro rfl
    exact ⟨[], rfl, .here _, not_shadowed_nil _⟩

theorem leadsOpenly_object {entries : List (String × Json)} {steps : List String} {found : Json}
    (hsteps : steps ≠ []) :
    (object entries).LeadsOpenly steps found ↔
      ∃ child rest, longestKey? entries steps steps.length = some (child, rest) ∧
        child.LeadsOpenly rest found := by
  constructor
  · rintro ⟨groups, rfl, hleads, hshadowed⟩
    cases hleads with
    | here => exact absurd rfl hsteps
    | @key _ group groups child _ hsome hkey hleads =>
      rw [shadowed_key hsome hkey, not_or] at hshadowed
      exact ⟨child, groups.flatten, longestKey?_all.2 ⟨group, hsome, rfl, hkey, hshadowed.1⟩,
        groups, rfl, hleads, hshadowed.2⟩
  · rintro ⟨child, _, hchild, groups, rfl, hleads, hshadowed⟩
    obtain ⟨group, hsome, rfl, hkey, hlonger⟩ := longestKey?_all.1 hchild
    refine ⟨group :: groups, rfl, .key hsome hkey hleads, ?_⟩
    rw [shadowed_key hsome hkey]
    exact not_or.2 ⟨hlonger, hshadowed⟩

theorem leadsOpenly_array {items : List Json} {step : String} {steps : List String} {found : Json} :
    (array items).LeadsOpenly (step :: steps) found ↔
      ∃ i child, stepIndex? step = some i ∧ items[i]? = some child ∧
        child.LeadsOpenly steps found := by
  constructor
  · rintro ⟨groups, hsteps, hleads, hshadowed⟩
    cases hleads with
    | here => cases hsteps
    | @item _ _ i groups child _ hnumber hitem hleads =>
      obtain ⟨rfl, rfl⟩ := List.cons.inj hsteps
      rw [shadowed_item hnumber hitem] at hshadowed
      exact ⟨i, child, hnumber, hitem, groups, rfl, hleads, hshadowed⟩
  · rintro ⟨i, child, hnumber, hitem, groups, rfl, hleads, hshadowed⟩
    refine ⟨[step] :: groups, rfl, .item hnumber hitem hleads, ?_⟩
    rwa [shadowed_item hnumber hitem]

theorem not_leadsOpenly_scalar {tree found : Json} (harray : tree.items? = none)
    (hobject : tree.entries? = none) {steps : List String} (hsteps : steps ≠ []) :
    ¬ tree.LeadsOpenly steps found := by
  rintro ⟨groups, rfl, hleads, -⟩
  cases hleads with
  | here => exact hsteps rfl
  | key _ _ _ => cases hobject
  | item _ _ _ => cases harray

/-- Following parts leads where they lead openly. -/
theorem follow_eq_ok {fuel : Nat} {taken steps : List String} {tree found : Json}
    (hfuel : steps.length ≤ fuel) :
    follow fuel taken steps tree = .ok found ↔ tree.LeadsOpenly steps found := by
  induction fuel generalizing taken steps tree with
  | zero =>
    obtain rfl := List.length_eq_zero_iff.1 (Nat.le_zero.1 hfuel)
    rw [follow, leadsOpenly_nil, Except.ok.injEq]
  | succ fuel ih =>
    cases steps with
    | nil => rw [follow, leadsOpenly_nil, Except.ok.injEq]
    | cons step steps =>
      have hsteps : step :: steps ≠ [] := List.cons_ne_nil _ _
      cases tree with
      | object entries =>
        rw [follow, leadsOpenly_object hsteps, List.length_cons]
        cases hkey : longestKey? entries (step :: steps) (steps.length + 1) with
        | none => simp
        | some next =>
          obtain ⟨child, rest⟩ := next
          -- A key takes at least one of the parts, so the fuel lasts.
          have hrest : rest.length ≤ fuel := by
            obtain ⟨group, hsome, hgroup, -⟩ := longestKey?_all.1 hkey
            have hpos := List.length_pos_iff.2 hsome
            have hlength := congrArg List.length hgroup
            rw [List.length_append] at hlength
            omega
          constructor
          · exact fun h => ⟨child, rest, rfl, (ih hrest).1 h⟩
          · rintro ⟨_, _, ⟨⟩, h⟩
            exact (ih hrest).2 h
      | array items =>
        rw [follow, leadsOpenly_array]
        cases hnumber : stepIndex? step with
        | none => simp
        | some i =>
          cases hitem : items[i]? with
          | none => simp [hitem]
          | some child => simp [hitem, ih (Nat.le_of_succ_le_succ hfuel)]
      | null | bool _ | number _ | string _ =>
        exact iff_of_false (fun h => nomatch h) (not_leadsOpenly_scalar rfl rfl hsteps)

theorem lookup_eq_ok {tree found : Json} {path : String} :
    tree.lookup path = .ok found ↔ tree.LeadsOpenly (KeyPath.parts path) found :=
  follow_eq_ok (Nat.le_refl _)

/-! ## Trees without shadows -/

/-- Whether no mapping of a tree has a key that goes on from another one of its keys. -/
def Unambiguous (tree : Json) : Prop :=
  tree.Every fun part => ∀ entries, part = .object entries → ∀ key ∈ Entries.keys entries,
    ∀ other ∈ Entries.keys entries, ¬ (key ++ ".").toList <+: other.toList

/-- A longer key goes on from the key that its first parts make. -/
theorem LongerKey.exists_key {entries : List (String × Json)} {group after : List String}
    (h : LongerKey entries group after) (hsome : group ≠ []) :
    ∃ key ∈ Entries.keys entries, (joinSteps group ++ ".").toList <+: key.toList := by
  obtain ⟨n, hn, hle, hkey⟩ := h
  have htake : (group ++ after).take n = group ++ after.take (n - group.length) := by
    rw [List.take_append, List.take_of_length_le (Nat.le_of_lt hn)]
  have hmore : after.take (n - group.length) ≠ [] := by
    rw [List.length_append] at hle
    rw [← List.length_pos_iff, List.length_take]
    omega
  refine ⟨_, hkey, ?_⟩
  rw [htake, joinSteps_append hsome hmore]
  exact ⟨_, String.toList_append.symm⟩

theorem not_shadowed {tree found : Json} {groups : List (List String)} (h : tree.Unambiguous)
    (hleads : tree.Leads groups found) : ¬ tree.Shadowed groups := by
  induction hleads with
  | here => exact not_shadowed_nil _
  | @key entries group groups child _ hsome hkey _ ih =>
    have hmem := Entries.mem_of_find? hkey
    rw [shadowed_key hsome hkey]
    rintro (hlonger | hshadowed)
    · obtain ⟨other, hother, hstart⟩ := hlonger.exists_key hsome
      exact h.self entries rfl _ (Entries.mem_keys_of_mem hmem) other hother hstart
    · exact ih (h.value hmem) hshadowed
  | item hnumber hitem _ ih =>
    rw [shadowed_item hnumber hitem]
    exact ih (h.item (List.mem_of_getElem? hitem))

/-- Looking a path up finds exactly the value that its parts lead to with the longest key of each
mapping on the way. In a tree whose mappings have no key that goes on from another one, it finds
whatever the parts lead to. -/
theorem lookup_longest (tree : Json) (path : String) :
    (∀ found, tree.lookup path = .ok found ↔ ∃ groups, groups.flatten = KeyPath.parts path ∧
      tree.Leads groups found ∧ ¬ tree.Shadowed groups) ∧
    (tree.Unambiguous → ∀ found, tree.lookup path = .ok found ↔
      ∃ groups, groups.flatten = KeyPath.parts path ∧ tree.Leads groups found) := by
  refine ⟨fun found => lookup_eq_ok, fun h found => lookup_eq_ok.trans ?_⟩
  refine exists_congr fun groups => and_congr_right fun _ => ?_
  exact and_iff_left_of_imp (not_shadowed h)

/-- A key with a dot between keys without, and an item behind them. -/
theorem lookup_longest_dotted :
    let tree : Json := .object [("theme", .object [("fonts",
      .object [("display.v2", .strings ["Display", "serif"])])])]
    tree.Unambiguous ∧ tree.lookup "theme.fonts.display.v2.1" = .ok (.string "serif") := by
  intro tree
  have hunambiguous : tree.Unambiguous := by
    simp [tree, Unambiguous, Every, EveryValue, EveryItem, strings, Entries.keys]
  refine ⟨hunambiguous, ((lookup_longest tree _).2 hunambiguous _).2 ⟨[["theme"], ["fonts"],
    ["display", "v2"], ["1"]], by decide +kernel, ?_⟩⟩
  refine .key (by simp) rfl (.key (by simp) rfl (.key (by simp) rfl ?_))
  exact .item (show stepIndex? "1" = some 1 by decide +kernel) rfl (.here _)

/-- A key that is longer than the one on the only way to a value: the value is not found. -/
theorem lookup_shadowed :
    let tree : Json := .object [("a", .object [("b", .object [("c", .bool true)])]), ("a.b", .null)]
    (∃ groups, groups.flatten = KeyPath.parts "a.b.c" ∧ tree.Leads groups (.bool true)) ∧
      ¬ ∃ found, tree.lookup "a.b.c" = .ok found := by
  intro tree
  refine ⟨⟨[["a"], ["b"], ["c"]], by decide +kernel, ?_⟩, ?_⟩
  · exact .key (by simp) rfl (.key (by simp) rfl (.key (by simp) rfl (.here _)))
  · rintro ⟨found, hfound⟩
    have hnone : (tree.lookup "a.b.c").toOption.isNone = true := by decide +kernel
    rw [hfound] at hnone
    cases hnone

/-! ## Keys without dots -/

/-- Whether no key of a tree has a dot. -/
def PlainKeys (tree : Json) : Prop :=
  tree.Every fun part => ∀ entries, part = .object entries →
    ∀ key ∈ Entries.keys entries, '.' ∉ key.toList

/-- What a single part leads to. -/
def child? (tree : Json) (step : String) : Option Json :=
  match tree with
  | object entries => Entries.find? entries step
  | array items => (stepIndex? step).bind fun i => items[i]?
  | _ => none

theorem dot_mem_joinSteps {first next : String} {more : List String} :
    '.' ∈ (joinSteps (first :: next :: more)).toList := by
  have happend := joinSteps_append (List.cons_ne_nil first []) (List.cons_ne_nil next more)
  rw [List.singleton_append] at happend
  rw [happend]
  simp

theorem joinSteps_singleton (step : String) : joinSteps [step] = step := by
  rw [← String.toList_inj, toList_joinSteps]
  rfl

theorem PlainKeys.item {items : List Json} (h : (array items).PlainKeys) {item : Json}
    (hmem : item ∈ items) : item.PlainKeys := Every.item h hmem

theorem PlainKeys.value {entries : List (String × Json)} (h : (object entries).PlainKeys)
    {key : String} {value : Json} (hmem : (key, value) ∈ entries) : value.PlainKeys :=
  Every.value h hmem

theorem PlainKeys.key {entries : List (String × Json)} (h : (object entries).PlainKeys)
    {key : String} (hmem : key ∈ Entries.keys entries) : '.' ∉ key.toList :=
  Every.self h entries rfl key hmem

/-- A way through a tree whose keys have no dots takes one part at a time, and is not shadowed. -/
theorem PlainKeys.leads {tree found : Json} {groups : List (List String)} (h : tree.PlainKeys)
    (hleads : tree.Leads groups found) :
    groups.flatten.foldlM child? tree = some found ∧ ¬ tree.Shadowed groups := by
  induction hleads with
  | here => exact ⟨rfl, not_shadowed_nil _⟩
  | @key entries group groups child _ hsome hkey _ ih =>
    have hmem := Entries.mem_of_find? hkey
    obtain ⟨hfound, hshadowed⟩ := ih (h.value hmem)
    -- More than one part would make a key with a dot.
    obtain ⟨step, rfl⟩ : ∃ step, group = [step] := by
      obtain ⟨first, _ | ⟨next, more⟩, rfl⟩ := List.exists_cons_of_ne_nil hsome
      · exact ⟨first, rfl⟩
      · exact absurd dot_mem_joinSteps (h.key (Entries.mem_keys_of_mem hmem))
    have hchild : child? (object entries) step = some child := by
      rw [← joinSteps_singleton step]
      exact hkey
    refine ⟨?_, (shadowed_key hsome hkey).not.2 (not_or.2 ⟨fun hlonger => ?_, hshadowed⟩)⟩
    · rw [List.flatten_cons, List.singleton_append, List.foldlM_cons, hchild]
      exact hfound
    · obtain ⟨other, hother, hstart⟩ := hlonger.exists_key hsome
      exact h.key hother (hstart.subset (by simp))
  | @item items step i groups child _ hnumber hitem _ ih =>
    obtain ⟨hfound, hshadowed⟩ := ih (h.item (List.mem_of_getElem? hitem))
    have hchild : child? (array items) step = some child := by
      rw [child?, hnumber]
      exact hitem
    refine ⟨?_, (shadowed_item hnumber hitem).not.2 hshadowed⟩
    rw [List.flatten_cons, List.singleton_append, List.foldlM_cons, hchild]
    exact hfound

/-- Parts that lead somewhere one at a time lead there as groups. -/
theorem leads_of_foldlM {tree found : Json} {steps : List String}
    (h : steps.foldlM child? tree = some found) :
    ∃ groups, groups.flatten = steps ∧ tree.Leads groups found := by
  induction steps generalizing tree with
  | nil =>
    obtain rfl := Option.some.inj h
    exact ⟨[], rfl, .here _⟩
  | cons step steps ih =>
    rw [List.foldlM_cons] at h
    obtain ⟨child, hchild, hfound⟩ := Option.bind_eq_some_iff.1 h
    obtain ⟨groups, rfl, hleads⟩ := ih hfound
    refine ⟨[step] :: groups, rfl, ?_⟩
    cases tree with
    | object entries =>
      refine .key (List.cons_ne_nil _ _) ?_ hleads
      rw [joinSteps_singleton]
      exact hchild
    | array items =>
      obtain ⟨i, hnumber, hitem⟩ := Option.bind_eq_some_iff.1 hchild
      exact .item hnumber hitem hleads
    | null | bool _ | number _ | string _ => cases hchild

/-- Where no key has a dot, looking a path up goes down the tree part by part. -/
theorem PlainKeys.lookup_joinSteps {tree found : Json} (h : tree.PlainKeys) {steps : List String}
    (hne : steps ≠ []) (hdots : ∀ step ∈ steps, '.' ∉ step.toList) :
    tree.lookup (joinSteps steps) = .ok found ↔ steps.foldlM child? tree = some found := by
  rw [lookup_eq_ok, LeadsOpenly, parts_joinSteps hne hdots]
  constructor
  · rintro ⟨groups, rfl, hleads, -⟩
    exact (h.leads hleads).1
  · intro hfound
    obtain ⟨groups, hgroups, hleads⟩ := leads_of_foldlM hfound
    exact ⟨groups, hgroups, hleads, (h.leads hleads).2⟩

end Json

end CssBuild
