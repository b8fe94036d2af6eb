import CssBuild.Json.Typed
import CssBuild.Proofs.Json.Completeness
import CssBuild.Proofs.Json.Reading

/-!
# CssBuild.Proofs.Json.Steps

How a text is read, step by step and without fuel.

1. `Parses` says by recursion on a tree which steps of the reader give it: the
   kind of a value, the start of each item, the key and the colon of each entry.
   What is read with some fuel is read by these steps (`parses_of_value`).
2. Each step takes characters away, two units of fuel for each of them, so a
   value is read with any fuel that is enough (`Parses.value`).
-/

namespace CssBuild.Json

/-! ## Steps -/

mutual

/-- Whether the reader finds a tree at the start of a text, with room for some more arrays and
objects in each other; `rest` is then unread. -/
def Parses : Json → (room : Nat) → (s rest : List Char) → Prop
  | array trees, room, s, rest => ∃ inner under, skipBlanks s = '[' :: inner ∧ room = under + 1 ∧
    ParsesItems trees under true inner rest
  | object found, room, s, rest => ∃ inner under, skipBlanks s = '{' :: inner ∧ room = under + 1 ∧
    ParsesEntries found under true inner rest
  | tree, _, s, rest => scalar .stepwise (skipBlanks s) = .ok (tree, rest)

/-- `Parses`, of the items of an array up to its closing bracket. -/
def ParsesItems : List Json → (room : Nat) → (first : Bool) → (s rest : List Char) → Prop
  | [], _, first, s, rest => nextStart? first s = .ok none ∧ rest = (skipBlanks s).drop 1
  | tree :: more, room, first, s, rest => ∃ start mid, nextStart? first s = .ok (some start) ∧
    Parses tree room start mid ∧ ParsesItems more room false mid rest

/-- `Parses`, of the entries of an object up to its closing brace. -/
def ParsesEntries : List (String × Json) → (room : Nat) → (first : Bool) → (s rest : List Char) →
    Prop
  | [], _, first, s, rest => nextEntry? first s = .ok (none, rest)
  | (key, tree) :: more, room, first, s, rest => ∃ after start mid,
    nextEntry? first s = .ok (some key, after) ∧ colon after = .ok start ∧
    Parses tree room start mid ∧ ParsesEntries more room false mid rest

end

theorem nextStart?_of_ne {first : Bool} {s : List Char} (hnil : skipBlanks s ≠ [])
    (hclose : ∀ after, skipBlanks s ≠ ']' :: after) :
    nextStart? first s = (nextItem first (skipBlanks s)).map some := by
  rw [nextStart?]
  split
  · next heq => exact absurd heq hnil
  · next heq => exact absurd heq (hclose _)
  · rfl

theorem nextEntry?_of_ne {first : Bool} {s : List Char} (hnil : skipBlanks s ≠ [])
    (hclose : ∀ after, skipBlanks s ≠ '}' :: after) :
    nextEntry? first s = (do
      let start ← nextKey first (skipBlanks s)
      let (key, rest) ← stringBody start
      .ok (some key, rest)) := by
  unfold nextEntry?
  split
  · next heq => exact absurd heq hnil
  · next heq => exact absurd heq (hclose _)
  · rfl

theorem items_eq (fuel room : Nat) (first : Bool) (s : List Char) :
    items .stepwise (fuel + 1) room first s = (do
      match ← nextStart? first s with
      | none => .ok ([], (skipBlanks s).drop 1)
      | some start => do
        let (item, rest) ← value .stepwise fuel room start
        let (more, rest) ← items .stepwise fuel room false rest
        .ok (item :: more, rest)) := by
  rw [items]
  split
  · next heq => rw [nextStart?, heq]; rfl
  · next heq => rw [nextStart?, heq]; rfl
  · next hnil hclose =>
    rw [nextStart?_of_ne hnil hclose]
    cases nextItem first (skipBlanks s) <;> rfl

theorem entries_eq (fuel room : Nat) (first : Bool) (s : List Char) :
    entries .stepwise (fuel + 1) room first s = (do
      match ← nextEntry? first s with
      | (none, rest) => .ok ([], rest)
      | (some key, rest) => do
        let rest ← colon rest
        let (item, rest) ← value .stepwise fuel room rest
        let (more, rest) ← entries .stepwise fuel room false rest
        .ok ((key, item) :: more, rest)) := by
  rw [entries]
  split
  · next heq => unfold nextEntry?; rw [heq]; rfl
  · next heq => unfold nextEntry?; rw [heq]; rfl
  · next hnil hclose =>
    rw [ nextEntry?_of_ne hnil hclose]
    cases nextKey first (skipBlanks s) with
    | error fault => rfl
    | ok body =>
      rw [ok_bind, ok_bind]
      cases stringBody body <;> rfl

/-! ## What is read with some fuel -/

theorem parses_of_scalar {tree : Json} {room : Nat} {s rest : List Char}
    (h : scalar .stepwise (skipBlanks s) = .ok (tree, rest)) : Parses tree room s rest := by
  cases tree with
  | null | bool _ | number _ | string _ => exact h
  | array trees =>
    obtain ⟨_, ⟨inner, -, rfl⟩, hs⟩ := scalar_sound h
    rw [hs] at h
    cases h
  | object found =>
    obtain ⟨_, ⟨inner, -, rfl⟩, hs⟩ := scalar_sound h
    rw [hs] at h
    cases h

mutual

/-- A value that is read is read by the steps of its tree. -/
theorem parses_of_value : (fuel room : Nat) → (s rest : List Char) → (tree : Json) →
    value .stepwise fuel room s = .ok (tree, rest) → Parses tree room s rest
  | 0, _, _, _, _, h => nomatch h
  | fuel + 1, room, s, rest, tree, h => by
    rw [value] at h
    split at h
    · next inner hstart =>
      split at h
      · cases h
      · next under =>
        obtain ⟨⟨trees, after⟩, hitems, h⟩ := bind_eq_ok.1 h
        obtain ⟨rfl, rfl⟩ := Prod.mk.inj (Except.ok.inj h)
        exact ⟨inner, under, hstart, rfl, parsesItems_of_items fuel under true inner _ trees hitems⟩
    · next inner hstart =>
      split at h
      · cases h
      · next under =>
        obtain ⟨⟨found, after⟩, hentries, h⟩ := bind_eq_ok.1 h
        obtain ⟨rfl, rfl⟩ := Prod.mk.inj (Except.ok.inj h)
        exact ⟨inner, under, hstart, rfl,
          parsesEntries_of_entries fuel under true inner _ found hentries⟩
    · exact parses_of_scalar h

theorem parsesItems_of_items : (fuel room : Nat) → (first : Bool) → (s rest : List Char) →
    (trees : List Json) → items .stepwise fuel room first s = .ok (trees, rest) →
    ParsesItems trees room first s rest
  | 0, _, _, _, _, _, h => nomatch h
  | fuel + 1, room, first, s, rest, trees, h => by
    rw [items_eq] at h
    obtain ⟨next?, hnext, h⟩ := bind_eq_ok.1 h
    cases next? with
    | none =>
      obtain ⟨rfl, rfl⟩ := Prod.mk.inj (Except.ok.inj h)
      exact ⟨hnext, rfl⟩
    | some start =>
      obtain ⟨⟨tree, mid⟩, hvalue, h⟩ := bind_eq_ok.1 h
      obtain ⟨⟨more, last⟩, hmore, h⟩ := bind_eq_ok.1 h
      obtain ⟨rfl, rfl⟩ := Prod.mk.inj (Except.ok.inj h)
      exact ⟨start, mid, hnext, parses_of_value fuel room start mid tree hvalue,
        parsesItems_of_items fuel room false mid _ more hmore⟩

theorem parsesEntries_of_entries : (fuel room : Nat) → (first : Bool) → (s rest : List Char) →
    (found : List (String × Json)) → entries .stepwise fuel room first s = .ok (found, rest) →
    ParsesEntries found room first s rest
  | 0, _, _, _, _, _, h => nomatch h
  | fuel + 1, room, first, s, rest, found, h => by
    rw [entries_eq] at h
    obtain ⟨⟨key?, after⟩, hnext, h⟩ := bind_eq_ok.1 h
    cases key? with
    | none =>
      obtain ⟨rfl, rfl⟩ := Prod.mk.inj (Except.ok.inj h)
      exact hnext
    | some key =>
      obtain ⟨start, hcolon, h⟩ := bind_eq_ok.1 h
      obtain ⟨⟨tree, mid⟩, hvalue, h⟩ := bind_eq_ok.1 h
      obtain ⟨⟨more, last⟩, hmore, h⟩ := bind_eq_ok.1 h
      obtain ⟨rfl, rfl⟩ := Prod.mk.inj (Except.ok.inj h)
      exact ⟨after, start, mid, hnext, hcolon, parses_of_value fuel room start mid tree hvalue,
        parsesEntries_of_entries fuel room false mid _ more hmore⟩

end

/-! ## Progress -/

theorem length_skipBlanks_le (s : List Char) : (skipBlanks s).length ≤ s.length :=
  (List.dropWhile_suffix _).length_le

theorem skipBlanks_of_nextStart? {first : Bool} {s : List Char}
    (h : nextStart? first s = .ok none) : ∃ after, skipBlanks s = ']' :: after := by
  rw [nextStart?] at h
  split at h
  · cases h
  · next after heq => exact ⟨after, heq⟩
  · cases hnext : nextItem first (skipBlanks s) with
    | error fault => rw [hnext] at h; cases h
    | ok start => rw [hnext] at h; cases h

theorem nextItem_of_nextStart? {first : Bool} {s start : List Char}
    (h : nextStart? first s = .ok (some start)) : nextItem first (skipBlanks s) = .ok start ∧
      skipBlanks s ≠ [] ∧ ∀ after, skipBlanks s ≠ ']' :: after := by
  rw [nextStart?] at h
  split at h
  · cases h
  · cases h
  · next hnil hclose =>
    obtain ⟨_, hnext, heq⟩ := map_eq_ok.1 h
    exact ⟨Option.some.inj heq ▸ hnext, hnil, hclose⟩

theorem skipBlanks_of_nextEntry? {first : Bool} {s rest : List Char}
    (h : nextEntry? first s = .ok (none, rest)) : skipBlanks s = '}' :: rest := by
  unfold nextEntry? at h
  split at h
  · cases h
  · next heq =>
    obtain ⟨-, rfl⟩ := Prod.mk.inj (Except.ok.inj h)
    exact heq
  · obtain ⟨start, -, h⟩ := bind_eq_ok.1 h
    obtain ⟨found, -, h⟩ := bind_eq_ok.1 h
    cases h

theorem nextKey_of_nextEntry? {first : Bool} {s rest : List Char} {key : String}
    (h : nextEntry? first s = .ok (some key, rest)) :
    ∃ start, nextKey first (skipBlanks s) = .ok start ∧ stringBody start = .ok (key, rest) := by
  unfold nextEntry? at h
  split at h
  · cases h
  · cases h
  · obtain ⟨start, hnext, h⟩ := bind_eq_ok.1 h
    obtain ⟨⟨name, after⟩, hbody, h⟩ := bind_eq_ok.1 h
    obtain ⟨hname, rfl⟩ := Prod.mk.inj (Except.ok.inj h)
    exact ⟨start, hnext, Option.some.inj hname ▸ hbody⟩

theorem length_nextStart? {first : Bool} {s start : List Char}
    (h : nextStart? first s = .ok (some start)) : start.length ≤ s.length := by
  obtain ⟨comma, -, hs⟩ := nextItem_sound (nextItem_of_nextStart? h).1
  have hle := length_skipBlanks_le s
  rw [hs, List.length_append] at hle
  omega

theorem length_stringBody {s rest : List Char} {found : String}
    (h : stringBody s = .ok (found, rest)) : rest.length < s.length := by
  obtain ⟨_, ⟨inner, -, rfl⟩, hs⟩ := stringBody_sound h
  have hlength := congrArg List.length hs
  simp only [List.length_cons, List.length_append, List.length_nil] at hlength
  omega

theorem length_nextEntry? {first : Bool} {s rest : List Char} {key : String}
    (h : nextEntry? first s = .ok (some key, rest)) : rest.length < s.length := by
  obtain ⟨start, hnext, hbody⟩ := nextKey_of_nextEntry? h
  obtain ⟨comma, -, hs⟩ := nextKey_sound hnext
  have hle := length_skipBlanks_le s
  have hlt := length_stringBody hbody
  rw [hs, List.length_append, List.length_cons] at hle
  omega

theorem length_colon {s rest : List Char} (h : colon s = .ok rest) : rest.length < s.length := by
  obtain ⟨blanks, -, rfl⟩ := colon_sound h
  rw [List.length_append, List.length_cons]
  omega

theorem length_scalar {s rest : List Char} {tree : Json}
    (h : scalar .stepwise (skipBlanks s) = .ok (tree, rest)) : rest.length < s.length := by
  obtain ⟨u, hu, hs⟩ := scalar_sound h
  have hle := length_skipBlanks_le s
  have hpos := hu.length_pos SpellsNumber.isNumeral
  rw [hs, List.length_append] at hle
  omega

mutual

theorem Parses.length : (tree : Json) → {room : Nat} → {s rest : List Char} →
    Parses tree room s rest → rest.length < s.length
  | null, _, _, _, h | bool _, _, _, _, h | number _, _, _, _, h | string _, _, _, _, h =>
    length_scalar h
  | array trees, _, s, _, h => by
    obtain ⟨inner, under, hs, rfl, hitems⟩ := h
    have hle := length_skipBlanks_le s
    have hlt := ParsesItems.length trees hitems
    rw [hs, List.length_cons] at hle
    omega
  | object found, _, s, _, h => by
    obtain ⟨inner, under, hs, rfl, hentries⟩ := h
    have hle := length_skipBlanks_le s
    have hlt := ParsesEntries.length found hentries
    rw [hs, List.length_cons] at hle
    omega

/-- Each item takes a character, and so does the bracket. -/
theorem ParsesItems.length : (trees : List Json) → {room : Nat} → {first : Bool} →
    {s rest : List Char} → ParsesItems trees room first s rest →
    trees.length + rest.length < s.length
  | [], _, _, s, _, h => by
    obtain ⟨hnone, rfl⟩ := h
    obtain ⟨after, hs⟩ := skipBlanks_of_nextStart? hnone
    have hle := length_skipBlanks_le s
    rw [hs, List.length_cons] at hle
    rw [hs, List.drop_one, List.tail_cons, List.length_nil]
    omega
  | tree :: more, _, _, s, _, h => by
    obtain ⟨start, mid, hnext, htree, hmore⟩ := h
    have hstart := length_nextStart? hnext
    have hvalue := Parses.length tree htree
    have hrest := ParsesItems.length more hmore
    rw [List.length_cons]
    omega

/-- Each entry takes a character, and so does the brace. -/
theorem ParsesEntries.length : (found : List (String × Json)) → {room : Nat} → {first : Bool} →
    {s rest : List Char} → ParsesEntries found room first s rest →
    found.length + rest.length < s.length
  | [], _, _, s, _, h => by
    have hclose := skipBlanks_of_nextEntry? h
    have hle := length_skipBlanks_le s
    rw [hclose, List.length_cons] at hle
    rw [List.length_nil]
    omega
  | (key, tree) :: more, _, _, s, _, h => by
    obtain ⟨after, start, mid, hnext, hcolon, htree, hmore⟩ := h
    have hkey := length_nextEntry? hnext
    have hstart := length_colon hcolon
    have hvalue := Parses.length tree htree
    have hrest := ParsesEntries.length more hmore
    rw [List.length_cons]
    omega

end

/-! ## Enough fuel -/

theorem value_of_parses_scalar {tree : Json} {fuel room : Nat} {s rest : List Char}
    (h : scalar .stepwise (skipBlanks s) = .ok (tree, rest)) :
    value .stepwise (fuel + 1) room s = .ok (tree, rest) := by
  rw [value]
  split
  · next heq => rw [heq] at h; cases h
  · next heq => rw [heq] at h; cases h
  · exact h

mutual

/-- Two units of fuel for each character of a value are enough to read it. -/
theorem Parses.value : (tree : Json) → {fuel room : Nat} → {s rest : List Char} →
    Parses tree room s rest → 2 * s.length ≤ fuel + 2 * rest.length →
    Json.value .stepwise fuel room s = .ok (tree, rest)
  | null, fuel, _, _, _, h, hfuel | bool _, fuel, _, _, _, h, hfuel
  | number _, fuel, _, _, _, h, hfuel | string _, fuel, _, _, _, h, hfuel => by
    have hlt := length_scalar h
    obtain ⟨fuel, rfl⟩ := Nat.exists_eq_succ_of_ne_zero (show fuel ≠ 0 by omega)
    exact value_of_parses_scalar h
  | array trees, fuel, _, s, _, h, hfuel => by
    have hlt := Parses.length (array trees) h
    obtain ⟨fuel, rfl⟩ := Nat.exists_eq_succ_of_ne_zero (show fuel ≠ 0 by omega)
    obtain ⟨inner, under, hs, rfl, hitems⟩ := h
    have hle := length_skipBlanks_le s
    rw [hs, List.length_cons] at hle
    have hread : Json.items .stepwise fuel under true inner = .ok (trees, _) :=
      ParsesItems.items trees hitems (by omega)
    rw [Json.value, hs]
    simp only [hread, ok_bind]
  | object found, fuel, _, s, _, h, hfuel => by
    have hlt := Parses.length (object found) h
    obtain ⟨fuel, rfl⟩ := Nat.exists_eq_succ_of_ne_zero (show fuel ≠ 0 by omega)
    obtain ⟨inner, under, hs, rfl, hentries⟩ := h
    have hle := length_skipBlanks_le s
    rw [hs, List.length_cons] at hle
    have hread : Json.entries .stepwise fuel under true inner = .ok (found, _) :=
      ParsesEntries.entries found hentries (by omega)
    rw [Json.value, hs]
    simp only [hread, ok_bind]

theorem ParsesItems.items : (trees : List Json) → {fuel room : Nat} → {first : Bool} →
    {s rest : List Char} → ParsesItems trees room first s rest →
    2 * s.length ≤ fuel + 2 * rest.length →
    Json.items .stepwise fuel room first s = .ok (trees, rest)
  | [], fuel, _, _, s, rest, h, hfuel => by
    have hlt := ParsesItems.length [] h
    obtain ⟨fuel, rfl⟩ := Nat.exists_eq_succ_of_ne_zero (show fuel ≠ 0 by omega)
    obtain ⟨hnone, rfl⟩ := h
    rw [items_eq, hnone, ok_bind]
  | tree :: more, fuel, room, _, s, rest, h, hfuel => by
    have hlt := ParsesItems.length (tree :: more) h
    obtain ⟨fuel, rfl⟩ := Nat.exists_eq_succ_of_ne_zero (show fuel ≠ 0 by omega)
    obtain ⟨start, mid, hnext, htree, hmore⟩ := h
    have hstart := length_nextStart? hnext
    have hvalue := Parses.length tree htree
    have hrest := ParsesItems.length more hmore
    have hread : Json.value .stepwise fuel room start = .ok (tree, mid) :=
      Parses.value tree htree (by omega)
    have hmany : Json.items .stepwise fuel room false mid = .ok (more, rest) :=
      ParsesItems.items more hmore (by omega)
    rw [items_eq, hnext, ok_bind]
    simp only [hread, hmany, ok_bind]

theorem ParsesEntries.entries : (found : List (String × Json)) → {fuel room : Nat} →
    {first : Bool} → {s rest : List Char} → ParsesEntries found room first s rest →
    2 * s.length ≤ fuel + 2 * rest.length →
    Json.entries .stepwise fuel room first s = .ok (found, rest)
  | [], fuel, _, _, s, rest, h, hfuel => by
    have hlt := ParsesEntries.length [] h
    obtain ⟨fuel, rfl⟩ := Nat.exists_eq_succ_of_ne_zero (show fuel ≠ 0 by omega)
    rw [entries_eq, show nextEntry? _ s = .ok (none, rest) from h, ok_bind]
  | (key, tree) :: more, fuel, room, _, s, rest, h, hfuel => by
    have hlt := ParsesEntries.length ((key, tree) :: more) h
    obtain ⟨fuel, rfl⟩ := Nat.exists_eq_succ_of_ne_zero (show fuel ≠ 0 by omega)
    obtain ⟨after, start, mid, hnext, hcolon, htree, hmore⟩ := h
    have hkey := length_nextEntry? hnext
    have hstart := length_colon hcolon
    have hvalue := Parses.length tree htree
    have hrest := ParsesEntries.length more hmore
    have hread : Json.value .stepwise fuel room start = .ok (tree, mid) :=
      Parses.value tree htree (by omega)
    have hmany : Json.entries .stepwise fuel room false mid = .ok (more, rest) :=
      ParsesEntries.entries more hmore (by omega)
    rw [entries_eq, hnext, ok_bind]
    simp only [hcolon, hread, hmany, ok_bind]

end

end CssBuild.Json
