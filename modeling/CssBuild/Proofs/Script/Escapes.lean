import Mathlib.Data.Nat.Digits.Defs
import CssBuild.Proofs.Script.Tokens

/-!
# CssBuild.Proofs.Script.Escapes

The escapes of string literals, and what they denote.

1. Digits denote a number of their radix (`numberOf`), and that is the number
   they are read as (`radixValue?_eq`).
2. An escape denotes the number of a character, or nothing if it continues the
   line (`EscapeAt`). What follows it can matter: octal digits are taken as far
   as they go, and a return together with the newline after it.
3. Every escape is cut off where it ends (`EscapeAt.escapeRest?`) and read as
   what it denotes (`EscapeAt.unescape`).

Three escapes reach further than they should, and are none here: an escaped
question mark takes a line break with it, a return takes a separator of lines
or paragraphs, and three octal digits are taken also from 400 on.
-/

namespace CssBuild.Script

/-! ## Digits -/

/-- The digits of all radixes up to sixteen. -/
def digitChars : List Char := "0123456789abcdefABCDEF".toList

/-- The number that a digit denotes; no less than sixteen for other characters. -/
def digitOf (c : Char) : Nat :=
  if digitChars.idxOf c < 16 then digitChars.idxOf c else digitChars.idxOf c - 6

/-- The number that digits of a radix denote. -/
def numberOf (radix : Nat) (digits : List Char) : Nat :=
  Nat.ofDigits radix (digits.reverse.map digitOf)

theorem char_le_iff {a b : Char} : a ≤ b ↔ a.toNat ≤ b.toNat := by
  rw [Char.le_def, UInt32.le_iff_toNat_le]
  rfl

theorem digit_cases {p : Char → Prop} (h : ∀ c ∈ digitChars, p c) {c : Char} (hc : digitOf c < 16) :
    p c := by
  refine h c (List.idxOf_lt_length_iff.1 ?_)
  rw [digitOf] at hc
  have hlength : digitChars.length = 22 := rfl
  split at hc <;> omega

theorem hexValue?_of_digitOf {c : Char} (h : digitOf c < 16) :
    Json.hexValue? c = some (digitOf c) :=
  digit_cases (p := fun c => Json.hexValue? c = some (digitOf c)) (by decide) h

theorem numberOf_cons (radix : Nat) (c : Char) (digits : List Char) :
    numberOf radix (c :: digits) =
      digitOf c * radix ^ digits.length + numberOf radix digits := by
  rw [numberOf, List.reverse_cons, List.map_append, Nat.ofDigits_append, List.length_map,
    List.length_reverse, List.map_singleton, Nat.ofDigits_singleton, Nat.add_comm,
    Nat.mul_comm]
  rfl

theorem foldlM_radix {radix : Nat} (hradix : radix ≤ 16) {digits : List Char}
    (h : ∀ c ∈ digits, digitOf c < radix) (init : Nat) :
    digits.foldlM (fun acc c => do
      let digit ← Json.hexValue? c
      if digit < radix then some (acc * radix + digit) else none) init =
      some (init * radix ^ digits.length + numberOf radix digits) := by
  induction digits generalizing init with
  | nil => simp [numberOf]
  | cons c digits ih =>
    obtain ⟨hc, hdigits⟩ := List.forall_mem_cons.1 h
    have hvalue : Json.hexValue? c = some (digitOf c) := hexValue?_of_digitOf (hc.trans_le hradix)
    have hstep : (do
        let digit ← some (digitOf c)
        if digit < radix then some (init * radix + digit) else none) =
        some (init * radix + digitOf c) := if_pos hc
    rw [List.foldlM_cons, hvalue, hstep]
    refine (ih hdigits _).trans ?_
    rw [numberOf_cons, List.length_cons, Nat.pow_succ]
    congr 1
    ring

/-- Digits are read as the number that they denote. -/
theorem radixValue?_eq {radix : Nat} (hradix : radix ≤ 16) {digits : List Char} (hne : digits ≠ [])
    (h : ∀ c ∈ digits, digitOf c < radix) :
    radixValue? radix digits = some (numberOf radix digits) := by
  rw [radixValue?, if_neg (by simpa using hne), foldlM_radix hradix h, Nat.zero_mul, Nat.zero_add]

theorem isOctal_iff {c : Char} : ('0' ≤ c && c ≤ '7') = true ↔ digitOf c < 8 := by
  constructor
  · intro h
    have hdigit : Json.isDigit c = true := by
      rw [Bool.and_eq_true, decide_eq_true_eq, decide_eq_true_eq] at h
      rw [Json.isDigit, Bool.and_eq_true, decide_eq_true_eq, decide_eq_true_eq]
      exact ⟨h.1, Char.le_trans h.2 (show '7' ≤ '9' by decide)⟩
    exact Json.isDigit_cases (p := fun c => ('0' ≤ c && c ≤ '7') = true → digitOf c < 8)
      (by decide) hdigit h
  · intro h
    exact digit_cases (p := fun c => digitOf c < 8 → ('0' ≤ c && c ≤ '7') = true) (by decide)
      (h.trans (by decide)) h

theorem isHexDigit_of_digitOf {c : Char} (h : digitOf c < 16) : isHexDigit c = true :=
  digit_cases (p := fun c => isHexDigit c = true) (by decide) h

/-! ## What a literal is made of -/

/-- A part of a string or template, by what it denotes. -/
inductive Part where
  /-- A character that stands for itself. -/
  | raw (c : Char)
  /-- An escape for the character of a number, or for half of one. -/
  | number (code : Nat)
  /-- An escape for nothing. -/
  | nothing
deriving DecidableEq

/-- What an escape of a part is read as. -/
def Part.escape : Part → Escape
  | raw c => .char c
  | number code => codeEscape (some code)
  | nothing => .lineContinuation

/-- The letters that stand for control characters. -/
def letterCodes : List (Char × Nat) :=
  [('b', 0x08), ('t', 0x09), ('n', 0x0A), ('v', 0x0B), ('f', 0x0C), ('r', 0x0D)]

/-- The characters that do not stand for themselves behind a backslash. -/
def escapable : List Char := "btnvfrxu01234567\n\r\u2028\u2029\x00".toList

/-- Escapes before a text, with what they denote. -/
inductive EscapeAt (s : List Char) : List Char → Part → Prop where
  /-- A letter for a control character. -/
  | letter {c : Char} {code : Nat} (stands : (c, code) ∈ letterCodes) :
    EscapeAt s ['\\', c] (.number code)
  /-- A character for itself. -/
  | itself {c : Char} (plain : c ∉ escapable)
    (apart : c = '?' → ∀ d ∈ s.head?, isNewline d = false) : EscapeAt s ['\\', c] (.number c.toNat)
  /-- As many octal digits as there are, three at most, for a number of one byte. -/
  | octal {digits : List Char} (some : digits ≠ []) (octal : ∀ digit ∈ digits, digitOf digit < 8)
    (short : digits.length ≤ 3) (byte : numberOf 8 digits < 0x100)
    (longest : digits.length = 3 ∨ ∀ d ∈ s.head?, ¬digitOf d < 8) :
    EscapeAt s ('\\' :: digits) (.number (numberOf 8 digits))
  /-- Two hexadecimal digits. -/
  | byte {a b : Char} (hex : ∀ digit ∈ [a, b], digitOf digit < 16) :
    EscapeAt s ['\\', 'x', a, b] (.number (numberOf 16 [a, b]))
  /-- Four hexadecimal digits. -/
  | unit {a b c d : Char} (hex : ∀ digit ∈ [a, b, c, d], digitOf digit < 16) :
    EscapeAt s ['\\', 'u', a, b, c, d] (.number (numberOf 16 [a, b, c, d]))
  /-- Any number of hexadecimal digits in braces. -/
  | point {digits : List Char} (some : digits ≠ []) (hex : ∀ digit ∈ digits, digitOf digit < 16) :
    EscapeAt s ('\\' :: 'u' :: '\x7b' :: (digits ++ ['\x7d'])) (.number (numberOf 16 digits))
  /-- The end of a line. -/
  | lineEnd {c : Char} (isEnd : isLineEnd c = true)
    (apart : c = '\r' → ∀ d ∈ s.head?, isNewline d = false) : EscapeAt s ['\\', c] .nothing
  /-- A return and a newline, which end a line together. -/
  | returnNewline : EscapeAt s ['\\', '\r', '\n'] .nothing

/-- The marks around strings and templates. -/
def quotes : List Char := ['"', '\'', '\x60']

namespace EscapeAt

variable {s e : List Char} {part : Part}

theorem exists_cons (h : EscapeAt s e part) : ∃ u, e = '\\' :: u := by
  cases h <;> exact ⟨_, rfl⟩

/-- Before a closing mark an escape is what it is before the end of the text. -/
theorem append_quote (h : EscapeAt s e part) {quote : Char} (hquote : quote ∈ quotes)
    (rest : List Char) : EscapeAt (s ++ quote :: rest) e part := by
  have hhead {p : Char → Prop} (hs : ∀ d ∈ s.head?, p d) (hclose : p quote) :
      ∀ d ∈ (s ++ quote :: rest).head?, p d := by
    cases s with
    | nil =>
      intro d hd
      obtain rfl := Option.some.inj hd
      exact hclose
    | cons first more => exact hs
  have hnewline : isNewline quote = false := by
    simp only [quotes, List.mem_cons, List.not_mem_nil, or_false] at hquote
    obtain rfl | rfl | rfl := hquote <;> decide
  have hdigit : ¬digitOf quote < 8 := by
    simp only [quotes, List.mem_cons, List.not_mem_nil, or_false] at hquote
    obtain rfl | rfl | rfl := hquote <;> decide
  cases h with
  | letter stands => exact .letter stands
  | itself plain apart => exact .itself plain fun hc => hhead (apart hc) hnewline
  | octal some octal short byte longest =>
    exact .octal some octal short byte (longest.imp_right fun hs => hhead hs hdigit)
  | byte hex => exact .byte hex
  | unit hex => exact .unit hex
  | point some hex => exact .point some hex
  | lineEnd isEnd apart => exact .lineEnd isEnd fun hc => hhead (apart hc) hnewline
  | returnNewline => exact .returnNewline

end EscapeAt

/-! ## Where escapes end -/

/-- A character behind a backslash that no other one belongs to. -/
theorem escapeRest?_single {c : Char} {s : List Char} (hx : c ≠ 'x') (hu : c ≠ 'u')
    (hnull : c ≠ '\x00') (hdigit : ¬digitOf c < 8)
    (hline : c = '\r' ∨ c = '?' → ∀ d ∈ s.head?, isNewline d = false) :
    escapeRest? ('\\' :: c :: s) = some s := by
  unfold escapeRest?
  simp only [if_neg hx, if_neg hu, if_neg hnull, if_neg fun h => hdigit (isOctal_iff.1 h)]
  split
  · next hc =>
    cases s with
    | nil => rfl
    | cons d s => simp [hline hc d rfl]
  · rfl

theorem takeUpTo_append {class_ : Char → Bool} {count : Nat} {taken s : List Char}
    (htaken : ∀ c ∈ taken, class_ c = true) (hlength : taken.length ≤ count)
    (hs : taken.length = count ∨ ∀ d ∈ s.head?, class_ d = false) :
    takeUpTo class_ count (taken ++ s) = s := by
  induction taken generalizing count with
  | nil =>
    cases count with
    | zero => rfl
    | succ count =>
      cases s with
      | nil => rfl
      | cons d s =>
        have hd := hs.resolve_left (Nat.succ_ne_zero count).symm d rfl
        rw [List.nil_append, takeUpTo, hd, if_neg Bool.false_ne_true]
  | cons c taken ih =>
    obtain ⟨hc, htaken⟩ := List.forall_mem_cons.1 htaken
    cases count with
    | zero => cases hlength
    | succ count =>
      rw [List.cons_append, takeUpTo, if_pos hc]
      exact ih htaken (Nat.le_of_succ_le_succ hlength) (hs.imp_left Nat.succ.inj)

theorem nameEscape?_unit {a b c d : Char} (hex : ∀ digit ∈ [a, b, c, d], digitOf digit < 16)
    (s : List Char) : nameEscape? ('\\' :: 'u' :: a :: b :: c :: d :: s) = some s := by
  have hdigit (e : Char) (he : e ∈ [a, b, c, d]) : isHexDigit e = true :=
    isHexDigit_of_digitOf (hex e he)
  have hbrace : a ≠ '\x7b' := by
    rintro rfl
    exact absurd (hex _ List.mem_cons_self) (by decide)
  unfold nameEscape?
  split
  · next heq =>
    cases heq
    exact absurd rfl hbrace
  · next heq =>
    cases heq
    simp only [hdigit, List.mem_cons, true_or, or_true, Bool.and_self, if_true]
  · next hother => exact absurd rfl (hother a b c d s)

theorem nameEscape?_point {digits : List Char} (hne : digits ≠ [])
    (hex : ∀ digit ∈ digits, digitOf digit < 16) (s : List Char) :
    nameEscape? ('\\' :: 'u' :: '\x7b' :: (digits ++ '\x7d' :: s)) = some s := by
  have htake : (digits ++ '\x7d' :: s).takeWhile isHexDigit = digits := by
    rw [List.takeWhile_append_of_pos fun d hd => isHexDigit_of_digitOf (hex d hd),
      List.takeWhile_cons_of_neg (by decide), List.append_nil]
  have hdrop : (digits ++ '\x7d' :: s).dropWhile isHexDigit = '\x7d' :: s := by
    rw [List.dropWhile_append_of_pos fun d hd => isHexDigit_of_digitOf (hex d hd),
      List.dropWhile_cons_of_neg (by decide)]
  obtain ⟨first, more, rfl⟩ := List.exists_cons_of_ne_nil hne
  simp only [nameEscape?, htake, hdrop]

/-- An escape is cut off where it ends. -/
theorem EscapeAt.escapeRest? {s e : List Char} {part : Part} (h : EscapeAt s e part) :
    escapeRest? (e ++ s) = some s := by
  cases h with
  | letter stands =>
    simp only [letterCodes, List.mem_cons, List.not_mem_nil, or_false, Prod.mk.injEq] at stands
    obtain ⟨rfl, -⟩ | ⟨rfl, -⟩ | ⟨rfl, -⟩ | ⟨rfl, -⟩ | ⟨rfl, -⟩ | ⟨rfl, -⟩ := stands <;>
      exact escapeRest?_single (by decide) (by decide) (by decide) (by decide)
        fun h => absurd h (by decide)
  | @itself c plain apart =>
    have hne {d : Char} (hd : d ∈ escapable) : c ≠ d := fun hc => plain (hc ▸ hd)
    refine escapeRest?_single (hne (by decide)) (hne (by decide)) (hne (by decide))
      (fun hdigit => ?_) fun hc => ?_
    · exact plain (digit_cases (p := fun c => digitOf c < 8 → c ∈ escapable) (by decide)
        (hdigit.trans (by decide)) hdigit)
    · exact apart (hc.resolve_left (hne (by decide)))
  | @octal digits some octal short _ longest =>
    obtain ⟨first, more, rfl⟩ := List.exists_cons_of_ne_nil some
    obtain ⟨hfirst, hmore⟩ := List.forall_mem_cons.1 octal
    have hne {d : Char} (hd : ¬digitOf d < 8) : first ≠ d := fun h => hd (h ▸ hfirst)
    have htaken : takeUpTo (fun d => '0' ≤ d && d ≤ '7') 2 (more ++ s) = s := by
      refine takeUpTo_append (fun d hd => isOctal_iff.2 (hmore d hd))
        (Nat.le_of_succ_le_succ short) (longest.imp Nat.succ.inj fun hs d hd => ?_)
      exact Bool.eq_false_iff.2 fun h => hs d hd (isOctal_iff.1 h)
    have hx : first ≠ 'x' := hne (by decide)
    have hu : first ≠ 'u' := hne (by decide)
    have hnull : first ≠ '\x00' := hne (by decide)
    unfold Script.escapeRest?
    simp only [List.cons_append, if_neg hx, if_neg hu, if_neg hnull,
      if_pos (isOctal_iff.2 hfirst), htaken]
  | @byte a b hex =>
    have ha := isHexDigit_of_digitOf (hex a (by simp))
    have hb := isHexDigit_of_digitOf (hex b (by simp))
    simp [Script.escapeRest?, ha, hb]
  | @unit a b c d hex =>
    have hescape := nameEscape?_unit (a := a) (b := b) (c := c) (d := d) hex s
    simpa [Script.escapeRest?] using hescape
  | point some hex =>
    have hescape := nameEscape?_point some hex s
    simpa [Script.escapeRest?] using hescape
  | @lineEnd c isEnd apart =>
    have hcases : c = '\n' ∨ c = '\r' ∨ c = '\u2028' ∨ c = '\u2029' := by
      simpa [isLineEnd, or_assoc] using isEnd
    refine escapeRest?_single ?_ ?_ ?_ ?_ fun hc => apart ?_
    all_goals obtain rfl | rfl | rfl | rfl := hcases <;> simp_all <;> decide
  | returnNewline => rfl

/-! ## What escapes are read as -/

theorem codeEscape_toNat (c : Char) : codeEscape (some c.toNat) = .char c := by
  have hvalid : c.toNat < 0xD800 ∨ 0xDFFF < c.toNat ∧ c.toNat < 0x110000 := c.valid
  rw [codeEscape, if_neg (by omega), if_pos (by omega), Char.ofNat_toNat]

/-- An escape is read as what it denotes. -/
theorem EscapeAt.unescape {s e : List Char} {part : Part} (h : EscapeAt s e part) :
    unescape e = part.escape := by
  cases h with
  | letter stands =>
    simp only [letterCodes, List.mem_cons, List.not_mem_nil, or_false, Prod.mk.injEq] at stands
    obtain ⟨rfl, rfl⟩ | ⟨rfl, rfl⟩ | ⟨rfl, rfl⟩ | ⟨rfl, rfl⟩ | ⟨rfl, rfl⟩ | ⟨rfl, rfl⟩ := stands <;>
      rfl
  | @itself c plain apart =>
    have hne {d : Char} (hd : d ∈ escapable) : c ≠ d := fun hc => plain (hc ▸ hd)
    have hdigit : ¬('0' ≤ c ∧ c ≤ '7') := fun h => by
      have hoctal := isOctal_iff.1 (by simpa using h)
      exact plain (digit_cases (p := fun c => digitOf c < 8 → c ∈ escapable) (by decide)
        (hoctal.trans (by decide)) hoctal)
    have hline : isLineEnd c = false := by
      simp [isLineEnd, hne (show '\n' ∈ escapable by decide), hne (show '\r' ∈ escapable by decide),
        hne (show '\u2028' ∈ escapable by decide), hne (show '\u2029' ∈ escapable by decide)]
    rw [Part.escape, codeEscape_toNat, Script.unescape, if_neg (hne (by decide)),
      if_neg (hne (by decide)), if_neg (hne (by decide)), if_neg (hne (by decide)),
      if_neg (hne (by decide)), if_neg (hne (by decide)), if_neg hdigit, hline,
      if_neg Bool.false_ne_true, if_neg (hne (by decide)), if_neg (hne (by decide))]
  | @octal digits some octal _ _ _ =>
    have hvalue := radixValue?_eq (show 8 ≤ 16 by decide) some octal
    obtain ⟨first, more, rfl⟩ := List.exists_cons_of_ne_nil some
    have hfirst := octal first List.mem_cons_self
    have hne {d : Char} (hd : ¬digitOf d < 8) : first ≠ d := fun h => hd (h ▸ hfirst)
    have hrange : '0' ≤ first ∧ first ≤ '7' := by simpa using isOctal_iff.2 hfirst
    rw [Part.escape, Script.unescape, if_neg (hne (by decide)), if_neg (hne (by decide)),
      if_neg (hne (by decide)), if_neg (hne (by decide)), if_neg (hne (by decide)),
      if_neg (hne (by decide)), if_pos hrange, hvalue]
  | byte hex =>
    have hvalue := radixValue?_eq (show 16 ≤ 16 by decide) (by simp) hex
    simp [Script.unescape, hvalue, Part.escape, isLineEnd]
  | @unit a b c d hex =>
    have hvalue := radixValue?_eq (show 16 ≤ 16 by decide) (List.cons_ne_nil a [b, c, d]) hex
    have hbraces : withoutBraces [a, b, c, d] = [a, b, c, d] := by
      unfold withoutBraces
      split
      · next heq =>
        cases heq
        exact absurd (hex _ List.mem_cons_self) (by decide)
      · rfl
    simp [Script.unescape, hbraces, hvalue, Part.escape, isLineEnd]
  | @point digits some hex =>
    have hvalue := radixValue?_eq (show 16 ≤ 16 by decide) some hex
    have hbraces : withoutBraces ('\x7b' :: (digits ++ ['\x7d'])) = digits := by
      rw [withoutBraces, List.getLast?_concat, if_pos rfl, List.dropLast_concat]
    simp [Script.unescape, hbraces, hvalue, Part.escape, isLineEnd]
  | @lineEnd c isEnd _ =>
    have hcases : c = '\n' ∨ c = '\r' ∨ c = '\u2028' ∨ c = '\u2029' := by
      simpa [isLineEnd, or_assoc] using isEnd
    obtain rfl | rfl | rfl | rfl := hcases <;> rfl
  | returnNewline => rfl

end CssBuild.Script
