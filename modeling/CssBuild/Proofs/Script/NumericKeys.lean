import CssBuild.Proofs.Json.Repeats
import CssBuild.Proofs.Script.Calls
import CssBuild.Proofs.Script.Decimals

/-!
# CssBuild.Proofs.Script.NumericKeys

Numbers as names of properties.

1. The literals of an integer without a sign have the digits of some radix, or a
   point or an exponent (`NumeralText`). Each of them is read as the name of a
   property (`NumeralText.propertyName`).
2. The name is not the literal but the text of its number, and a literal with a
   point or an exponent is a double even if it denotes an integer. So an integer
   up to `2 ^ 53` has two names, its digits and its digits with a fraction of
   zero, and each of its literals gives one of them (`NumeralText.value`).
3. A member is reported as a duplicate if an earlier member of its object has the
   same name. That does not tell the spellings of one kind apart, and it takes
   the two kinds for different properties (`ofScript_numericKeys`).

Left out are decimal digits behind a zero, which only sloppy code may have, and
the literals of big integers, which the reader refuses.
-/

namespace CssBuild

namespace Script

/-! ## Literals -/

/-- What a literal of an integer is read as. -/
inductive NumeralKind where
  | integer
  | double
deriving DecidableEq

/-- The name that a literal of some kind gives an integer. -/
def NumeralKind.name (n : Nat) : NumeralKind → String
  | integer => String.ofList (Layout.digits n)
  | double => String.ofList (Layout.digits n ++ ['.', '0'])

/-- The literals of an integer without a sign. -/
inductive NumeralText (n : Nat) : NumeralKind → List Char → Prop where
  | integer {t : List Char} (h : IntegerText n t) : NumeralText n .integer t
  | double (l : DecimalLiteral) (h : l.Denotes n) : NumeralText n .double l.chars

/-- The two names of an integer are different. -/
theorem NumeralKind.name_inj {n : Nat} {kind other : NumeralKind} :
    kind.name n = other.name n ↔ kind = other := by
  refine ⟨fun h => ?_, fun h => h ▸ rfl⟩
  have hlength := congrArg (fun name => name.toList.length) h
  cases kind <;> cases other <;> simp [name] at hlength ⊢

theorem DecimalLiteral.exists_chars (l : DecimalLiteral) :
    ∃ c u, l.chars = c :: u ∧ (isDigit c = true ∨ c = '.') := by
  obtain hempty | ⟨digits, -⟩ := l.isWhole
  · obtain ⟨ds, hfraction⟩ := Option.ne_none_iff_exists'.1 fun hnone : l.fraction = none =>
      l.nonempty (by rw [hempty, hnone]; rfl)
    exact ⟨'.', _, by rw [chars, hempty, hfraction]; rfl, .inr rfl⟩
  · obtain ⟨c, u, hwhole, hc⟩ := digits.exists_cons
    exact ⟨c, _, by rw [chars, hwhole]; rfl, .inl (isDigit_of_digitOf hc)⟩

namespace NumeralText

variable {n : Nat} {kind : NumeralKind} {t : List Char} (h : NumeralText n kind t)
include h

theorem exists_cons : ∃ c u, t = c :: u ∧ (isDigit c = true ∨ c = '.') := by
  cases h with
  | integer h =>
    obtain ⟨c, u, hcons, hdigit⟩ := (numberToken_integer h).starts
    exact ⟨c, u, hcons, .inl hdigit⟩
  | double l _ => exact l.exists_chars

theorem numberRest? {s : List Char} (hs : EndsNumber s) : numberRest? (t ++ s) = some s := by
  cases h with
  | integer h => exact (numberToken_integer h).rest s hs
  | double l _ => exact l.numberRest?_chars hs

/-- A literal is read as the name of a property, up to its end. -/
theorem propertyName (r : Rules) {s : List Char} (hs : EndsNumber s) :
    Rules.propertyName r (t ++ s) = .ok (.number (t ++ s) t, s) := by
  have hrest := h.numberRest? hs
  have hbetween : between (t ++ s) s = t := between_append t s
  obtain ⟨c, u, rfl, hstarts⟩ := h.exists_cons
  have hall : ∀ c ∈ ['"', '\'', '[', '#'], ¬(isDigit c = true ∨ c = '.') := by decide
  have hother : c ∉ ['"', '\'', '[', '#'] := fun hmem => hall c hmem hstarts
  simp only [List.mem_cons, List.not_mem_nil, or_false, not_or] at hother
  rw [List.cons_append] at hrest hbetween ⊢
  simp [Rules.propertyName, hother, hrest, hbetween]

/-- The name that a literal gives, by its kind. -/
theorem value (bounded : n ≤ 2 ^ 53) (start : List Char) :
    (Key.number start t).value = .ok (kind.name n) := by
  cases h with
  | integer h =>
    have hint : Number.ofInt? (n : Int) = some (.integer n (by omega)) := dif_pos (by omega)
    have hread := (readsNumber_integer h hint).value
    have hpositive : ¬(n : Int) < 0 := by omega
    simp only [Key.value, Script.numberValue, hread, ok_bind, Json.numberText, Json.integerText,
      if_neg hpositive, Int.natAbs_natCast, NumeralKind.name]
  | double l denotes =>
    obtain ⟨d, hread, htext⟩ := l.exists_double bounded denotes
    simp only [Key.value, Script.numberValue, hread, ok_bind, Json.numberText, htext,
      NumeralKind.name]

end NumeralText

/-! ## Members -/

/-- Whether a member has a name. -/
def Member.Named (name : String) (member : Member) : Prop :=
  ∃ key value, member = .pair key value ∧ key.value = .ok name

/-- Whether the name of a member is written as a literal of an integer. -/
def Member.Numeral (n : Nat) (kind : NumeralKind) (member : Member) : Prop :=
  ∃ start text value, member = .pair (.number start text) value ∧ NumeralText n kind text

theorem Member.Named.unique {member : Member} {name other : String} (h : member.Named name)
    (hother : member.Named other) : name = other := by
  obtain ⟨key, value, rfl, hname⟩ := h
  obtain ⟨_, _, heq, hname'⟩ := hother
  obtain ⟨rfl, -⟩ := Member.pair.inj heq
  exact Except.ok.inj (hname.symm.trans hname')

theorem Member.Numeral.named {n : Nat} {kind : NumeralKind} {member : Member}
    (h : member.Numeral n kind) (bounded : n ≤ 2 ^ 53) : member.Named (kind.name n) := by
  obtain ⟨start, text, value, rfl, literal⟩ := h
  exact ⟨_, _, rfl, literal.value bounded start⟩

/-- A member makes an entry with its name. -/
theorem MembersWrite.exists_entry {members : List Member} {entries : List (String × Json)}
    (h : MembersWrite members entries) (i : Nat) (name : String) :
    (∃ tree, entries[i]? = some (name, tree)) ↔
      ∃ member, members[i]? = some member ∧ member.Named name := by
  induction i generalizing members entries with
  | zero =>
    cases h with
    | nil => simp
    | cons hkey _ _ => simp [Member.Named, hkey]
  | succ i ih =>
    cases h with
    | nil => simp
    | cons _ _ hrest => simpa using ih hrest

/-- Steps to a part lead to a place. -/
theorem TreeHolds.exists_partAt {part : Json} {steps : List Step} {tree : Json}
    (h : TreeHolds part steps tree) : ∃ (place : List Nat) (names : List String),
      List.Forall₂ (fun step name => step.name = .ok name) steps names ∧
        part.PartAt place names tree := by
  induction steps generalizing tree with
  | nil =>
    obtain rfl := h
    exact ⟨[], [], .nil, .refl⟩
  | cons step rest ih =>
    cases step with
    | member key =>
      obtain ⟨entries, name, value, rfl, hname, hentry, hholds⟩ := h
      obtain ⟨i, hi⟩ := List.mem_iff_getElem?.1 hentry
      obtain ⟨place, names, hnames, hpart⟩ := ih hholds
      exact ⟨i :: place, name :: names, .cons hname hnames, .value hi hpart⟩
    | item i =>
      obtain ⟨items, value, rfl, hitem, hholds⟩ := h
      obtain ⟨place, names, hnames, hpart⟩ := ih hholds
      exact ⟨i :: place, KeyPath.index i :: names, .cons rfl hnames, .item hitem hpart⟩

end Script

open Script

namespace Document

/-! ## Members of a document -/

/-- Whether a document has the members of an object of its module, in a tree at some place, with
one entry for each of them. -/
structure HasMembers (document : Document) (steps : List Step) (members : List Member)
    (tree : Json) (place : List Nat) (names : List String) : Prop where
  read : document = ofTree tree
  lists : Json.Lists document.duplicates tree
  path : List.Forall₂ (fun step name => step.name = .ok name) steps names
  entries : ∃ entries, Json.PartAt (.object entries) place names tree ∧
    ∀ (i : Nat) (name : String), (∃ value, entries[i]? = some (name, value)) ↔
      ∃ member, members[i]? = some member ∧ member.Named name

/-- A member is a duplicate if an earlier one has its name. -/
theorem HasMembers.repeatAt {document : Document} {steps : List Step} {members : List Member}
    {tree : Json} {place : List Nat} {names : List String}
    (h : document.HasMembers steps members tree place names) {j : Nat} {member : Member}
    {name : String} (hmember : members[j]? = some member) (named : member.Named name) :
    tree.RepeatAt (place ++ [j]) (names ++ [name]) ↔
      ∃ i < j, ∃ earlier, members[i]? = some earlier ∧ earlier.Named name := by
  obtain ⟨entries, hpart, hentries⟩ := h.entries
  obtain ⟨_, hentry⟩ := (hentries j name).2 ⟨member, hmember, named⟩
  rw [hpart.repeatAt (List.cons_ne_nil _ _), Json.repeatAt_here hentry, Entries.mem_keys_take]
  simp only [hentries]

section Members

variable {text : String} {statements : List Statement} {value : Expr} {document : Document}
  (module : readModule text.toList = .ok statements) (exports : exported? statements = some value)
include module exports

theorem ofScript_eq_ok (source? : Option Path) : ofScript text source? = .ok document ↔
    ∃ tree, value.value "" = .ok tree ∧ document = ofTree tree := by
  have hread : readTree text.toList = value.value "" := by
    rw [readTree, module, ok_bind, exports]
  rw [ofScript, hread]
  cases value.value "" with
  | error fault => simp
  | ok tree => simp [eq_comm]

/-- A document has the members of every object that its module exports. -/
theorem exists_hasMembers {source? : Option Path} (h : ofScript text source? = .ok document)
    {steps : List Step} {start : List Char} {members : List Member}
    (holds : (Expr.object start members).Holds steps value) :
    ∃ tree place names, document.HasMembers steps members tree place names := by
  obtain ⟨tree, hvalue, rfl⟩ := (ofScript_eq_ok module exports source?).1 h
  obtain ⟨_, ⟨hmembers⟩, hholds⟩ := holds.exists_writes (value_root_eq_ok.1 hvalue).1
  obtain ⟨place, names, hnames, hplace⟩ := hholds.exists_partAt
  exact ⟨tree, place, names, rfl, Json.lists_repeated tree, hnames, _, hplace,
    hmembers.exists_entry⟩

end Members

/-! ## Numbers as names -/

/-- Every literal of an integer up to `2 ^ 53` is read as the name of a property. It gives the
digits of the integer, with a fraction of zero if it has a point or an exponent itself. Of two
members of an object with such literals as their names, the second is a duplicate of the first if
and only if the literals are of one kind. -/
theorem ofScript_numericKeys {n : Nat} (bounded : n ≤ 2 ^ 53) :
    (∀ {kind : NumeralKind} {literal : List Char}, NumeralText n kind literal →
      (∀ (r : Rules) {rest : List Char}, EndsNumber rest →
        r.propertyName (literal ++ rest) = .ok (.number (literal ++ rest) literal, rest)) ∧
      ∀ start, (Key.number start literal).value = .ok (kind.name n)) ∧
    ∀ {text : String} {statements : List Statement} {value : Expr} {source? : Option Path}
      {document : Document}, readModule text.toList = .ok statements →
      exported? statements = some value → ofScript text source? = .ok document →
      ∀ {steps : List Step} {start : List Char} {members : List Member},
        (Expr.object start members).Holds steps value →
        ∃ tree place names, document.HasMembers steps members tree place names ∧
          ∀ {i j : Nat} {first second : Member} {kind other : NumeralKind}, i < j →
            members[i]? = some first → members[j]? = some second →
            first.Numeral n kind → second.Numeral n other →
              first.Named (kind.name n) ∧ second.Named (other.name n) ∧
              (kind = other → tree.RepeatAt (place ++ [j]) (names ++ [other.name n]) ∧
                (names ++ [other.name n]).foldl KeyPath.child "" ∈ document.duplicates) ∧
              (kind ≠ other → kind.name n ≠ other.name n ∧
                (tree.RepeatAt (place ++ [j]) (names ++ [other.name n]) ↔
                  ∃ k < j, k ≠ i ∧ ∃ earlier, members[k]? = some earlier ∧
                    earlier.Named (other.name n))) := by
  refine ⟨fun h => ⟨fun r _ => h.propertyName r, h.value bounded⟩, ?_⟩
  intro text statements value source? document module exports hread steps start members holds
  obtain ⟨tree, place, names, hmembers⟩ := exists_hasMembers module exports hread holds
  refine ⟨tree, place, names, hmembers, ?_⟩
  intro i j first second kind other hless hfirst hsecond hkind hother
  have hnamed := hkind.named bounded
  have hrepeat := hmembers.repeatAt hsecond (hother.named bounded)
  refine ⟨hnamed, hother.named bounded, ?_, fun hne => ?_⟩
  · rintro rfl
    have hat := hrepeat.2 ⟨i, hless, first, hfirst, hnamed⟩
    exact ⟨hat, hmembers.lists.mem hat⟩
  · have hnames : kind.name n ≠ other.name n := mt NumeralKind.name_inj.1 hne
    refine ⟨hnames, hrepeat.trans (exists_congr fun k => and_congr_right fun _ => ?_)⟩
    -- The first member has the other name.
    refine ⟨fun ⟨earlier, hearlier, hname⟩ => ⟨?_, earlier, hearlier, hname⟩, And.right⟩
    rintro rfl
    obtain rfl := Option.some.inj (hearlier.symm.trans hfirst)
    exact hnames (hnamed.unique hname)

/-- Three spellings of one as names: the hexadecimal one is a duplicate of the first, and the one
with a fraction is not. -/
theorem ofScript_numericKeys_one : ∃ document tree,
    ofScript "module.exports = \x7b1: true, 1.0: true, 0x1: false\x7d" none = .ok document ∧
      document = ofTree tree ∧ "1" ∈ document.duplicates ∧ tree.RepeatAt [2] ["1"] ∧
      ¬ tree.RepeatAt [1] ["1.0"] := by
  obtain ⟨statements, start, first, second, third, module, exports⟩ :
      ∃ statements start first second third, readModule
        "module.exports = \x7b1: true, 1.0: true, 0x1: false\x7d".toList = .ok statements ∧
      exported? statements = some (.object start [.pair (.number first ['1']) (.bool true),
        .pair (.number second ['1', '.', '0']) (.bool true),
        .pair (.number third ['0', 'x', '1']) (.bool false)]) :=
    ⟨_, _, _, _, _, rfl, rfl⟩
  have hdigit : Digits 10 ['1'] := .single (by decide)
  have hplain : NumeralText 1 .integer ['1'] := .integer (.decimal hdigit (by decide))
  have hradix : NumeralText 1 .integer ['0', 'x', '1'] := by
    have hvalue : numberOf 16 (withoutMarks ['1']) = 1 := by decide
    rw [← hvalue]
    exact .integer (.radix (by decide) (.single (by decide)))
  have hfraction : NumeralText 1 .double ['1', '.', '0'] :=
    .double ⟨['1'], some ['0'], none, .inr ⟨hdigit, by decide⟩,
      fun _ h => .inr (Option.some.inj h ▸ .single (by decide)), by decide, nofun⟩ rfl
  obtain ⟨⟨hone, hname⟩, hdouble⟩ :
      (NumeralKind.integer.name 1 = "1" ∧ NumeralKind.double.name 1 = "1.0") ∧
        NumeralKind.integer ≠ .double := by decide
  have hread := (ofScript_eq_ok module exports none).2 ⟨_, by
    simp only [Expr.value, membersValue, memberValue, hplain.value (by decide) first,
      hfraction.value (by decide) second, hradix.value (by decide) third, ok_bind]
    rfl, rfl⟩
  obtain ⟨tree, place, names, hmembers, hpairs⟩ :=
    (ofScript_numericKeys (n := 1) (by decide)).2 module exports hread .refl
  cases hmembers.path
  obtain ⟨entries, hpart, -⟩ := hmembers.entries
  cases hpart
  obtain ⟨-, -, hsame, -⟩ := hpairs (i := 0) (j := 2) (by decide) rfl rfl
    ⟨_, _, _, rfl, hplain⟩ ⟨_, _, _, rfl, hradix⟩
  obtain ⟨-, -, -, hother⟩ := hpairs (i := 0) (j := 1) (by decide) rfl rfl
    ⟨_, _, _, rfl, hplain⟩ ⟨_, _, _, rfl, hfraction⟩
  rw [hone] at hsame
  rw [hname] at hother
  refine ⟨_, _, hread, hmembers.read, (hsame rfl).2, (hsame rfl).1, fun hat => ?_⟩
  obtain ⟨k, hless, hne, -⟩ := (hother hdouble).2.1 hat
  omega

end Document

end CssBuild
