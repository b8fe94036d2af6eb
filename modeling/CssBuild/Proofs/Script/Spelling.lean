import CssBuild.Proofs.Json.Writing
import CssBuild.Proofs.Script.Integers
import CssBuild.Proofs.Script.Strings

/-!
# CssBuild.Proofs.Script.Spelling

The texts that spell a tree in a module.

1. A literal is a word, a number, a string or template, an array or an object,
   or a literal in parentheses, to any depth (`LiteralText`). Trivia stand
   between any two tokens, and a comma may stand before what closes a list.
2. A number is an integer literal with a sign or without, or what JSON has for
   a number. A string has no half of a pair alone, not even with an escape for
   a line end between the halves, and a template has no return that is not
   escaped, since a return there stands for a newline.
3. Everything that spells a tree in JSON does so in a module
   (`literal_of_spells`), but for integers that are spelled as a negative zero.
-/

namespace CssBuild.Script

open Json (Spells SpellsItems SpellsEntries SpellsNearest SpellsString)

/-! ## Tokens -/

/-- A string or template between some of the marks. -/
def QuotedText (marks : List Char) (value : String) (t : List Char) : Prop :=
  ∃ quote ∈ marks, ∃ parts inner, Writes quote parts inner ∧
    (quote = '\x60' → .raw '\r' ∉ parts) ∧ Denotes parts value.toList ∧
    t = quote :: (inner ++ [quote])

/-- The marks around strings. -/
def stringMarks : List Char := ['"', '\'']

/-- The texts of a key. -/
inductive KeyText : String → List Char → Prop where
  /-- A string. -/
  | string {value : String} {t : List Char} (h : QuotedText stringMarks value t) : KeyText value t
  /-- A plain name. -/
  | name {c : Char} {word : List Char} (start : isNameStart c = true)
    (more : ∀ d ∈ word, isNameChar d = true) : KeyText (String.ofList (c :: word)) (c :: word)

/-- The texts of an integer with a sign or without. -/
inductive SignedText : Int → List Char → Prop where
  /-- No sign. -/
  | plain {n : Nat} {t : List Char} (digits : IntegerText n t) : SignedText n t
  /-- A plus sign. -/
  | plus {n : Nat} {gap t : List Char} (trivia : Trivia gap) (digits : IntegerText n t) :
    SignedText n ('+' :: (gap ++ t))
  /-- A minus sign. -/
  | minus {n : Nat} {gap t : List Char} (trivia : Trivia gap) (digits : IntegerText n t) :
    SignedText (-n) ('-' :: (gap ++ t))

/-- The texts of a number. -/
inductive NumberText : Number → List Char → Prop where
  /-- An integer. -/
  | integer {value : Int} {t : List Char} (h : SignedText value t)
    (bounded : -0x8000000000000000 ≤ value ∧ value < 0x10000000000000000) :
    NumberText (.integer value bounded) t
  /-- A number of JSON. -/
  | json {n : Number} {t : List Char} (h : SpellsNearest n t) : NumberText n t

/-! ## Lists -/

/-- The texts of a list up to what closes it, each part with trivia around it. -/
inductive ListText {α : Type} (close : Char) (part : α → List Char → Prop) :
    List α → List Char → Prop where
  /-- Nothing more. -/
  | close {gap : List Char} (trivia : Trivia gap) : ListText close part [] (gap ++ [close])
  /-- One part, without a comma behind it. -/
  | last {a : α} {gap u after : List Char} (trivia : Trivia gap) (first : part a u)
    (behind : Trivia after) : ListText close part [a] (gap ++ (u ++ (after ++ [close])))
  /-- A part with a comma behind it. -/
  | more {a : α} {as : List α} {gap u after s : List Char} (trivia : Trivia gap)
    (first : part a u) (behind : Trivia after) (rest : ListText close part as s) :
    ListText close part (a :: as) (gap ++ (u ++ (after ++ ',' :: s)))

/-- The texts of a member: a key, a colon and a value. -/
inductive MemberText (value : Json → List Char → Prop) : String × Json → List Char → Prop where
  | mk {key : String} {tree : Json} {name before after u : List Char} (named : KeyText key name)
    (trivia : Trivia before) (trivia' : Trivia after) (valued : value tree u) :
    MemberText value (key, tree) (name ++ (before ++ ':' :: (after ++ u)))

/-! ## Literals -/

/-- The texts that spell a tree. -/
inductive LiteralText : Json → List Char → Prop where
  | null : LiteralText .null ['n', 'u', 'l', 'l']
  | undefined : LiteralText .null ['u', 'n', 'd', 'e', 'f', 'i', 'n', 'e', 'd']
  | bool (b : Bool) : LiteralText (.bool b) (Json.boolChars b)
  | number {n : Number} {t : List Char} (h : NumberText n t) : LiteralText (.number n) t
  | string {value : String} {t : List Char} (h : QuotedText quotes value t) :
    LiteralText (.string value) t
  | array {items : List Json} {t : List Char} (h : ListText ']' LiteralText items t) :
    LiteralText (.array items) ('[' :: t)
  | object {entries : List (String × Json)} {t : List Char}
    (h : ListText '}' (MemberText LiteralText) entries t) :
    LiteralText (.object entries) ('{' :: t)
  | parens {tree : Json} {gap u after : List Char} (trivia : Trivia gap)
    (inner : LiteralText tree u) (behind : Trivia after) :
    LiteralText tree ('(' :: (gap ++ (u ++ (after ++ [')']))))

/-! ## Parts of lists -/

section Parts

variable {α : Type} {close : Char} {part part' : α → List Char → Prop} {as : List α}
  {t : List Char}

/-- What holds of all parts of a list is carried into it. -/
theorem ListText.imp (h : ListText close part as t)
    (hpart : ∀ a u, u.length ≤ t.length → part a u → part' a u) : ListText close part' as t := by
  induction h with
  | close trivia => exact .close trivia
  | last trivia first behind =>
    refine .last trivia (hpart _ _ ?_ first) behind
    simp only [List.length_append]
    omega
  | more trivia first behind _ ih =>
    refine .more trivia (hpart _ _ ?_ first) behind (ih fun a u hu => hpart a u (hu.trans ?_))
    all_goals
      simp only [List.length_append, List.length_cons]
      omega

theorem MemberText.imp {value value' : Json → List Char → Prop} {entry : String × Json}
    (h : MemberText value entry t)
    (hvalue : ∀ tree u, u.length ≤ t.length → value tree u → value' tree u) :
    MemberText value' entry t := by
  obtain ⟨named, trivia, trivia', valued⟩ := h
  refine .mk named trivia trivia' (hvalue _ _ ?_ valued)
  simp only [List.length_append, List.length_cons]
  omega

end Parts

/-! ## What JSON spells -/

theorem quotedText_of_spells {value : String} {t : List Char} (h : SpellsString value t) :
    QuotedText stringMarks value t := by
  obtain ⟨inner, hinner, rfl⟩ := h
  obtain ⟨parts, hwrites, hdenotes⟩ := exists_writes hinner
  exact ⟨'"', by decide, parts, inner, hwrites, fun h => absurd h (by decide), hdenotes, rfl⟩

theorem quotedText_quotes {value : String} {t : List Char} (h : QuotedText stringMarks value t) :
    QuotedText quotes value t := by
  obtain ⟨quote, hquote, hinner⟩ := h
  have hmarks : ∀ quote ∈ stringMarks, quote ∈ quotes := by decide
  exact ⟨quote, hmarks quote hquote, hinner⟩

mutual

/-- What spells a tree in JSON spells it in a module. -/
theorem literal_of_spells : (tree : Json) → (u : List Char) → Spells SpellsNearest tree u →
    LiteralText tree u
  | .null, u, h => by
    obtain rfl := h
    exact .null
  | .bool b, u, h => by
    obtain rfl := h
    exact .bool b
  | .number n, u, h => .number (.json h)
  | .string value, u, h => .string (quotedText_quotes (quotedText_of_spells h))
  | .array [], u, h => by
    obtain ⟨inner, ⟨blanks, hblanks, rfl⟩, rfl⟩ := h
    exact .array (.close (trivia_of_isBlanks hblanks))
  | .array (item :: items), u, h => by
    obtain ⟨inner, ⟨blanks, comma, u, more, hblanks, hcomma, hu, hmore, rfl⟩, rfl⟩ := h
    obtain rfl : comma = [] := hcomma
    simp only [List.append_nil, List.append_assoc]
    exact .array (items_of_spells items more hmore (trivia_of_isBlanks hblanks)
      (literal_of_spells item u hu))
  | .object [], u, h => by
    obtain ⟨inner, ⟨blanks, hblanks, rfl⟩, rfl⟩ := h
    exact .object (.close (trivia_of_isBlanks hblanks))
  | .object ((key, value) :: entries), u, h => by
    obtain ⟨inner, ⟨blanks, comma, name, before, after, u, more, hblanks, hcomma, hname, hbefore,
      hafter, hu, hmore, rfl⟩, rfl⟩ := h
    obtain rfl : comma = [] := hcomma
    have hmember := MemberText.mk (.string (quotedText_of_spells hname))
      (trivia_of_isBlanks hbefore) (trivia_of_isBlanks hafter) (literal_of_spells value u hu)
    have hentries := members_of_spells entries more hmore (trivia_of_isBlanks hblanks) hmember
    simp only [List.append_nil, List.append_assoc, List.cons_append] at hentries ⊢
    exact .object hentries

/-- The same of the items behind the first one. -/
theorem items_of_spells : (items : List Json) → (more : List Char) →
    SpellsItems SpellsNearest false items more → {item : Json} → {gap u : List Char} →
    Trivia gap → LiteralText item u →
    ListText ']' LiteralText (item :: items) (gap ++ (u ++ more))
  | [], more, h, item, gap, u, hgap, hu => by
    obtain ⟨blanks, hblanks, rfl⟩ := h
    exact .last hgap hu (trivia_of_isBlanks hblanks)
  | next :: items, more, h, item, gap, u, hgap, hu => by
    obtain ⟨blanks, _, v, rest, hblanks, ⟨after, hafter, rfl⟩, hv, hrest, rfl⟩ := h
    simp only [List.append_assoc, List.cons_append]
    exact .more hgap hu (trivia_of_isBlanks hblanks) (items_of_spells items rest hrest
      (trivia_of_isBlanks hafter) (literal_of_spells next v hv))

/-- The same of the entries behind the first one. -/
theorem members_of_spells : (entries : List (String × Json)) → (more : List Char) →
    SpellsEntries SpellsNearest false entries more → {entry : String × Json} →
    {gap u : List Char} → Trivia gap → MemberText LiteralText entry u →
    ListText '}' (MemberText LiteralText) (entry :: entries) (gap ++ (u ++ more))
  | [], more, h, entry, gap, u, hgap, hu => by
    obtain ⟨blanks, hblanks, rfl⟩ := h
    exact .last hgap hu (trivia_of_isBlanks hblanks)
  | (key, value) :: entries, more, h, entry, gap, u, hgap, hu => by
    obtain ⟨blanks, _, name, before, after, v, rest, hblanks, ⟨space, hspace, rfl⟩, hname, hbefore,
      hafter, hv, hrest, rfl⟩ := h
    have hmember := MemberText.mk (.string (quotedText_of_spells hname))
      (trivia_of_isBlanks hbefore) (trivia_of_isBlanks hafter) (literal_of_spells value v hv)
    have hentries := members_of_spells entries rest hrest (trivia_of_isBlanks hspace) hmember
    simp only [List.append_assoc, List.cons_append] at hentries ⊢
    exact .more hgap hu (trivia_of_isBlanks hblanks) hentries

end

end CssBuild.Script
