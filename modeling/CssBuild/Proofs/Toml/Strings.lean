import CssBuild.Proofs.Results
import CssBuild.Proofs.Spans
import CssBuild.Toml.Lexical

/-!
# CssBuild.Proofs.Toml.Strings

The strings that are written in TOML are read back.

1. Between double quotes every character is read back from what it is written
   as (`escapedChar_cases`), so the forms with double quotes hold any text.
2. A form in single quotes holds its text as it is. It is only chosen where
   the text has no character that would end it.
3. A string of several lines may have up to two quotes side by side, also
   before the three that close it; `LinesTo` states what is read from there on
   for any fuel that suffices.
-/

namespace CssBuild.Toml

/-! ## Escapes -/

/-- What stands after a backslash for a character. -/
def Escapes (u : List Char) (c : Char) : Prop :=
  (∀ rest, escape (u ++ rest) = .ok (c, rest)) ∧
    ∀ rest, continuedLine? (u ++ rest) = none ∧ (u ++ rest).isEmpty = false

theorem hexEscape_code (n : Nat) (h : n < 0x80) (rest : List Char) :
    hexEscape 4 (['0', '0', upperHex (n / 16), upperHex (n % 16)] ++ rest) =
      .ok (Char.ofNat n, rest) := by
  have hdigits : ∀ n < 0x80,
      ['0', '0', upperHex (n / 16), upperHex (n % 16)].takeWhile
          (fun c => (Json.hexValue? c).isSome) =
        ['0', '0', upperHex (n / 16), upperHex (n % 16)] ∧
      ['0', '0', upperHex (n / 16), upperHex (n % 16)].foldl
        (fun acc c => acc * 16 + (Json.hexValue? c).getD 0) 0 = n := by decide +kernel
  obtain ⟨htake, hvalue⟩ := hdigits n h
  have hlist : (['0', '0', upperHex (n / 16), upperHex (n % 16)] ++ rest).take 4 =
      ['0', '0', upperHex (n / 16), upperHex (n % 16)] := rfl
  unfold hexEscape
  simp only [hlist, htake, hvalue]
  rw [if_neg (by simp), if_pos (by omega)]
  rfl

theorem escapes_letter {letter c : Char} (h : escapeLetter? letter = some c) :
    Escapes [letter] c := by
  have hne : ∀ d : Char, escapeLetter? d = none → letter ≠ d := by
    rintro d hd rfl
    rw [hd] at h
    cases h
  constructor
  · intro rest
    rw [List.singleton_append, escape, if_neg (hne 'u' (by decide)), if_neg (hne 'U' (by decide)), h]
  · intro rest
    have hblank : isBlank letter = false := by
      simp [isBlank, hne ' ' (by decide), hne '\t' (by decide)]
    rw [continuedLine?, skipBlanks, List.singleton_append,
      List.dropWhile_cons_of_neg (by simp [hblank])]
    have hn := hne '\n' (by decide)
    have hr := hne '\r' (by decide)
    simp [lineBreak?, hn, hr]

theorem escapes_code {c : Char} (h : c.toNat < 0x80) :
    Escapes ['u', '0', '0', upperHex (c.toNat / 16), upperHex (c.toNat % 16)] c := by
  constructor
  · intro rest
    have hcode := hexEscape_code c.toNat h rest
    rw [Char.ofNat_toNat] at hcode
    rw [List.cons_append, escape, if_pos rfl, hcode]
  · intro rest
    exact ⟨rfl, rfl⟩

theorem of_not_isControl {c : Char} (h : isControl c = false) :
    c = '\t' ∨ 0x20 ≤ c.toNat ∧ c.toNat ≠ 0x7F := by
  simp only [isControl, Bool.or_eq_false_iff, Bool.and_eq_false_iff, decide_eq_false_iff_not,
    beq_eq_false_iff_ne, bne_eq_false_iff_eq] at h
  obtain ⟨hlow, hhigh⟩ := h
  by_cases htab : c = '\t'
  · exact .inl htab
  · exact .inr ⟨by have := hlow.resolve_right htab; omega, hhigh⟩

/-- What a character other than the quote is written as between double quotes: itself, also where
it is a newline between three of them, or an escape. -/
theorem escapedChar_cases (multiline : Bool) {c : Char} (hquote : c ≠ '"') :
    (escapedChar multiline c = [c] ∧ isBasicChar c = true ∧ c ≠ '\\' ∧ c ≠ '\n' ∧ c ≠ '\r') ∨
    (multiline = true ∧ c = '\n' ∧ escapedChar multiline c = ['\n']) ∨
    ∃ u, escapedChar multiline c = '\\' :: u ∧ Escapes u c := by
  unfold escapedChar
  split
  · next h =>
    subst h
    exact .inr (.inr ⟨_, rfl, escapes_letter (by decide)⟩)
  split
  · next h =>
    subst h
    exact .inr (.inr ⟨_, rfl, escapes_letter (by decide)⟩)
  split
  · next h =>
    split
    · next hm => exact .inr (.inl ⟨hm, h, rfl⟩)
    · subst h
      exact .inr (.inr ⟨_, rfl, escapes_letter (by decide)⟩)
  next hn =>
  split
  · next h =>
    subst h
    exact .inr (.inr ⟨_, rfl, escapes_letter (by decide)⟩)
  split
  · next h =>
    subst h
    exact .inr (.inr ⟨_, rfl, escapes_letter (by decide)⟩)
  next hr =>
  split
  · next h =>
    subst h
    exact .inr (.inr ⟨_, rfl, escapes_letter (by decide)⟩)
  next hbackslash =>
  split
  · next h =>
    have hlow : c.toNat < 0x80 := by
      simp only [isControl, Bool.or_eq_true, Bool.and_eq_true, decide_eq_true_eq, beq_iff_eq] at h
      omega
    exact .inr (.inr ⟨_, rfl, escapes_code hlow⟩)
  · next h =>
    have hplain := of_not_isControl (by simpa using h)
    refine .inl ⟨rfl, ?_, hbackslash, hn, hr⟩
    simp only [isBasicChar, Bool.or_eq_true, Bool.and_eq_true, beq_iff_eq, bne_iff_ne,
      decide_eq_true_eq]
    grind

/-! ## Strings of one line -/

theorem basicChars_plain {c : Char} {s chars rest : List Char} {fuel : Nat}
    (hc : isBasicChar c = true) (hquote : c ≠ '"') (hbackslash : c ≠ '\\')
    (h : basicChars fuel s = .ok (chars, rest)) :
    basicChars (fuel + 1) (c :: s) = .ok (c :: chars, rest) := by
  rw [basicChars, if_neg hquote, if_neg hbackslash, if_pos hc, h]
  rfl

theorem basicChars_escape {u s chars rest : List Char} {c : Char} {fuel : Nat}
    (hu : Escapes u c) (h : basicChars fuel s = .ok (chars, rest)) :
    basicChars (fuel + 1) ('\\' :: (u ++ s)) = .ok (c :: chars, rest) := by
  rw [basicChars, if_neg (by decide), if_pos rfl, (hu.2 s).2, hu.1]
  simp only [Bool.false_eq_true, if_false, ok_bind, h]

theorem basicChars_basicText (s : List Char) {fuel : Nat} (rest : List Char)
    (hfuel : s.length < fuel) :
    basicChars fuel (basicText false 0 s ++ '"' :: rest) = .ok (s, rest) := by
  induction s generalizing fuel with
  | nil =>
    obtain ⟨fuel, rfl⟩ := Nat.exists_eq_add_one_of_ne_zero (Nat.ne_of_gt hfuel)
    rfl
  | cons c s ih =>
    obtain ⟨fuel, rfl⟩ := Nat.exists_eq_add_one_of_ne_zero (Nat.ne_of_gt (Nat.zero_lt_of_lt hfuel))
    have hrest := ih (Nat.lt_of_succ_lt_succ hfuel)
    rw [basicText]
    by_cases hc : c = '"'
    · rw [if_pos hc, if_neg (by simp), hc]
      have hescape : Escapes ['"'] '"' := escapes_letter (by decide)
      exact basicChars_escape (u := ['"']) hescape hrest
    · rw [if_neg hc]
      obtain ⟨htext, hbasic, hbackslash, -⟩ | ⟨hm, -⟩ |
        ⟨u, htext, hu⟩ := escapedChar_cases false hc
      · rw [htext]
        exact basicChars_plain hbasic hc hbackslash hrest
      · cases hm
      · rw [htext, List.cons_append, List.cons_append, List.append_assoc]
        exact basicChars_escape hu hrest

theorem length_escapedChar_pos (multiline : Bool) {c : Char} (h : c ≠ '"') :
    0 < (escapedChar multiline c).length := by
  rcases escapedChar_cases multiline h with ⟨htext, -⟩ | ⟨-, -, htext⟩ | ⟨u, htext, -⟩ <;>
    simp [htext]

theorem length_le_basicText (multiline : Bool) (run : Nat) (s : List Char) :
    s.length ≤ (basicText multiline run s).length := by
  induction s generalizing run with
  | nil => simp
  | cons c s ih =>
    rw [basicText]
    split
    · split
      · simpa using ih (run + 1)
      · have := ih 0
        simp only [List.length_cons]
        omega
    · next hc =>
      have := ih 0
      have := length_escapedChar_pos multiline hc
      simp only [List.length_cons, List.length_append]
      omega

theorem basicString_basicText (s rest : List Char) :
    basicString (basicText false 0 s ++ '"' :: rest) = .ok (s, rest) := by
  apply basicChars_basicText s rest
  have := length_le_basicText false 0 s
  simp only [List.length_append, List.length_cons]
  omega

theorem literalString_append {s : List Char} (h : ∀ c ∈ s, isLiteralChar c = true)
    (rest : List Char) : literalString (s ++ '\'' :: rest) = .ok (s, rest) := by
  have hstop : Stops isLiteralChar ('\'' :: rest) := stops_cons (by decide)
  have htake := takeWhile_run h hstop
  have hdrop := dropWhile_run h hstop
  rw [literalString, hdrop, htake]
  rfl

/-! ## Strings of several lines -/

/-- What is read of a string of several lines with any fuel that suffices. -/
def LinesTo (q : Char) (s chars rest : List Char) : Prop :=
  ∀ fuel, s.length < fuel → linesChars q fuel s = .ok (chars, rest)

theorem replicate_append_cons (n : Nat) (q : Char) (s : List Char) :
    List.replicate n q ++ q :: s = List.replicate (n + 1) q ++ s := by
  rw [List.replicate_succ', List.append_assoc, List.singleton_append]

section Lines

variable {q : Char} {s chars rest : List Char}

/-- A character that is neither the quote nor anything special. -/
theorem linesTo_plain {c : Char} (hc : isBasicChar c = true ∨ isLiteralChar c = true)
    (hquote : c ≠ q) (hbackslash : ¬(c = '\\' ∧ q = '"')) (hn : c ≠ '\n') (hr : c ≠ '\r')
    (h : LinesTo q s chars rest) : LinesTo q (c :: s) (c :: chars) rest := by
  intro fuel hfuel
  obtain ⟨fuel, rfl⟩ := Nat.exists_eq_add_one_of_ne_zero (Nat.ne_of_gt (Nat.zero_lt_of_lt hfuel))
  have hbreak : lineBreak? (c :: s) = none := by simp [lineBreak?, hn, hr]
  have hchar : (isBasicChar c || isLiteralChar c) = true := by simpa using hc
  have hrest := h fuel (Nat.lt_of_succ_lt_succ hfuel)
  simp only [linesChars, if_neg hquote, if_neg hbackslash, hbreak, if_pos hchar, hrest, ok_bind]

theorem linesTo_newline (hquote : q ≠ '\n') (h : LinesTo q s chars rest) :
    LinesTo q ('\n' :: s) ('\n' :: chars) rest := by
  intro fuel hfuel
  obtain ⟨fuel, rfl⟩ := Nat.exists_eq_add_one_of_ne_zero (Nat.ne_of_gt (Nat.zero_lt_of_lt hfuel))
  have hrest := h fuel (Nat.lt_of_succ_lt_succ hfuel)
  have hplain : ¬('\n' = '\\' ∧ q = '"') := fun h => absurd h.1 (by decide)
  simp only [linesChars, if_neg (Ne.symm hquote), if_neg hplain, lineBreak?, hrest, ok_bind]

theorem linesTo_escape {u : List Char} {c : Char} (hu : Escapes u c)
    (h : LinesTo '"' s chars rest) : LinesTo '"' ('\\' :: (u ++ s)) (c :: chars) rest := by
  intro fuel hfuel
  obtain ⟨fuel, rfl⟩ := Nat.exists_eq_add_one_of_ne_zero (Nat.ne_of_gt (Nat.zero_lt_of_lt hfuel))
  have hrest := h fuel (by simp only [List.length_cons, List.length_append] at hfuel; omega)
  obtain ⟨hcontinued, hmore⟩ := hu.2 s
  simp only [linesChars, if_neg (by decide : ¬ '\\' = '"'), and_self, if_true, hcontinued, hmore,
    Bool.false_eq_true, if_false, hu.1, ok_bind, hrest]

theorem quoteRun_replicate (n : Nat) (h : s.head? ≠ some q) :
    quoteRun q (List.replicate n q ++ s) = (n, s) := by
  have hall : ∀ c ∈ List.replicate n q, (c == q) = true := by
    intro c hc
    simp [List.eq_of_mem_replicate hc]
  have hstop : Stops (· == q) s := by
    intro c hc
    have hne : c ≠ q := fun heq => h (heq ▸ hc)
    simpa using hne
  rw [quoteRun, takeWhile_run hall hstop, dropWhile_run hall hstop, List.length_replicate]

/-- One or two quotes that something else follows. -/
theorem linesTo_quotes {n : Nat} (hn : n < 3) (hs : s.head? ≠ some q)
    (h : LinesTo q s chars rest) :
    LinesTo q (List.replicate n q ++ s) (List.replicate n q ++ chars) rest := by
  cases n with
  | zero => exact h
  | succ n =>
    intro fuel hfuel
    obtain ⟨fuel, rfl⟩ :=
      Nat.exists_eq_add_one_of_ne_zero (Nat.ne_of_gt (Nat.zero_lt_of_lt hfuel))
    have hrun := quoteRun_replicate (n + 1) hs
    have hrest := h fuel (by
      simp only [List.length_append, List.length_replicate] at hfuel
      omega)
    rw [List.replicate_succ, List.cons_append] at hrun ⊢
    rw [linesChars]
    simp only [if_true, hrun]
    rw [if_neg (by omega), hrest]
    rfl

/-- The closing quotes, after up to two quotes that belong to the string. -/
theorem linesTo_close {n : Nat} (hn : n < 3) (hrest : rest.head? ≠ some q) :
    LinesTo q (List.replicate n q ++ q :: q :: q :: rest) (List.replicate n q) rest := by
  intro fuel hfuel
  obtain ⟨fuel, rfl⟩ := Nat.exists_eq_add_one_of_ne_zero (Nat.ne_of_gt (Nat.zero_lt_of_lt hfuel))
  have hrun := quoteRun_replicate (n + 3) hrest
  rw [replicate_append_cons, replicate_append_cons, replicate_append_cons]
  rw [List.replicate_succ, List.cons_append] at hrun ⊢
  rw [linesChars]
  simp only [if_true, hrun]
  rw [if_pos (by omega), if_pos (by omega), Nat.add_sub_cancel]

end Lines

/-- A text between three double quotes, `n` quotes of which have been passed already. -/
theorem linesTo_basicText {n : Nat} (hn : n < 3) (s : List Char) {rest : List Char}
    (hrest : rest.head? ≠ some '"') :
    LinesTo '"' (List.replicate n '"' ++ (basicText true n s ++ '"' :: '"' :: '"' :: rest))
      (List.replicate n '"' ++ s) rest := by
  induction s generalizing n with
  | nil =>
    rw [List.append_nil]
    exact linesTo_close hn hrest
  | cons c s ih =>
    rw [basicText]
    by_cases hc : c = '"'
    · rw [if_pos hc, hc]
      by_cases hrun : n < 2
      · rw [if_pos ⟨rfl, hrun⟩, List.cons_append, replicate_append_cons, replicate_append_cons]
        exact ih (by omega)
      · have hescape : Escapes ['"'] '"' := escapes_letter (by decide)
        rw [if_neg (fun h => hrun h.2)]
        exact linesTo_quotes hn (by simp) (linesTo_escape (u := ['"']) hescape (@ih 0 (by decide)))
    · rw [if_neg hc]
      have hmore := @ih 0 (by decide)
      obtain ⟨htext, hbasic, hbackslash, hnew, hreturn⟩ |
        ⟨-, rfl, htext⟩ | ⟨u, htext, hu⟩ := escapedChar_cases true hc
      · rw [htext]
        apply linesTo_quotes hn (by simpa using hc)
        exact linesTo_plain (.inl hbasic) hc (fun h => hbackslash h.1) hnew hreturn hmore
      · rw [htext]
        exact linesTo_quotes hn (by simp) (linesTo_newline (by decide) hmore)
      · rw [htext, List.cons_append, List.cons_append, List.append_assoc]
        exact linesTo_quotes hn (by simp) (linesTo_escape hu hmore)

theorem le_longestRun (q : Char) (n : Nat) (s : List Char) : n ≤ longestRun q n s := by
  induction s generalizing n with
  | nil => exact Nat.le_refl n
  | cons c s ih =>
    rw [longestRun]
    split
    · exact Nat.le_trans (Nat.le_succ n) (ih (n + 1))
    · exact Nat.le_max_left n _

/-- A text between three single quotes, `n` quotes of which have been passed already. -/
theorem linesTo_literal {n : Nat} {s : List Char} (hrun : longestRun '\'' n s < 3)
    (hchars : ∀ c ∈ s, c = '\n' ∨ isControl c = false) {rest : List Char}
    (hrest : rest.head? ≠ some '\'') :
    LinesTo '\'' (List.replicate n '\'' ++ (s ++ '\'' :: '\'' :: '\'' :: rest))
      (List.replicate n '\'' ++ s) rest := by
  have hn : n < 3 := Nat.lt_of_le_of_lt (le_longestRun _ n s) hrun
  induction s generalizing n with
  | nil =>
    rw [List.append_nil]
    exact linesTo_close hn hrest
  | cons c s ih =>
    rw [longestRun] at hrun
    have hmore : ∀ c ∈ s, c = '\n' ∨ isControl c = false := fun d hd =>
      hchars d (List.mem_cons_of_mem _ hd)
    by_cases hc : c = '\''
    · rw [if_pos hc] at hrun
      have hnext := le_longestRun '\'' (n + 1) s
      rw [hc, List.cons_append, replicate_append_cons, replicate_append_cons]
      exact ih hrun hmore (by omega)
    · rw [if_neg hc] at hrun
      have hzero := @ih 0 (by omega) hmore (by decide)
      apply linesTo_quotes hn (by simpa using hc)
      obtain rfl | hcontrol := hchars c List.mem_cons_self
      · exact linesTo_newline (by decide) hzero
      · have hnew : c ≠ '\n' := by
          rintro rfl
          exact absurd hcontrol (by decide)
        have hreturn : c ≠ '\r' := by
          rintro rfl
          exact absurd hcontrol (by decide)
        have hliteral : isLiteralChar c = true := by
          have := of_not_isControl hcontrol
          simp only [isLiteralChar, Bool.or_eq_true, Bool.and_eq_true, beq_iff_eq, bne_iff_ne,
            decide_eq_true_eq]
          grind
        exact linesTo_plain (.inr hliteral) hc (fun h => absurd h.2 (by decide)) hnew hreturn hzero

/-! ## The four forms -/

/-- Neither quote comes next. -/
def Unquoted (rest : List Char) : Prop := rest.head? ≠ some '"' ∧ rest.head? ≠ some '\''

theorem basicText_ne_quote (s : List Char) {rest : List Char} (hrest : rest.head? ≠ some '"')
    (u : List Char) : basicText false 0 s ++ '"' :: rest ≠ '"' :: '"' :: u := by
  intro h
  cases s with
  | nil => exact hrest (by rw [(List.cons.inj h).2, List.head?_cons])
  | cons c s =>
    rw [basicText] at h
    by_cases hc : c = '"'
    · rw [if_pos hc, if_neg (by simp)] at h
      exact absurd (List.cons.inj h).1 (by decide)
    · rw [if_neg hc] at h
      obtain ⟨htext, -⟩ | ⟨hm, -⟩ | ⟨v, htext, -⟩ := escapedChar_cases false hc
      · rw [htext] at h
        exact hc (List.cons.inj h).1
      · cases hm
      · rw [htext] at h
        exact absurd (List.cons.inj h).1 (by decide)

theorem string_basicForm (s : List Char) {rest : List Char} (hrest : Unquoted rest) :
    string (basicForm s ++ rest) = .ok (s, rest) := by
  have hread := basicString_basicText s rest
  have hne := basicText_ne_quote s hrest.1
  have htext : basicForm s ++ rest = '"' :: (basicText false 0 s ++ '"' :: rest) := by
    simp [basicForm]
  rw [htext]
  generalize basicText false 0 s ++ '"' :: rest = t at hread hne
  unfold string
  split
  · next u heq => exact absurd (List.cons.inj heq).2 (hne u)
  · next heq => rw [← (List.cons.inj heq).2, hread]
  · next heq => exact absurd (List.cons.inj heq).1 (by decide)
  · next heq => exact absurd (List.cons.inj heq).1 (by decide)
  · next h _ _ => exact absurd rfl (h t)

theorem string_literalForm {s : List Char} (hs : ∀ c ∈ s, isLiteralChar c = true) (hne : s ≠ [])
    (rest : List Char) : string (literalForm s ++ rest) = .ok (s, rest) := by
  have hread := literalString_append hs rest
  have htext : literalForm s ++ rest = '\'' :: (s ++ '\'' :: rest) := by
    simp [literalForm]
  have hquote : ∀ u, s ++ '\'' :: rest ≠ '\'' :: u := by
    intro u h
    cases s with
    | nil => exact hne rfl
    | cons c s =>
      have hc := hs c List.mem_cons_self
      rw [(List.cons.inj h).1] at hc
      exact absurd hc (by decide)
  rw [htext]
  generalize s ++ '\'' :: rest = t at hread hquote
  unfold string
  split
  · next heq => exact absurd (List.cons.inj heq).1 (by decide)
  · next heq => exact absurd (List.cons.inj heq).1 (by decide)
  · next heq => exact absurd (List.cons.inj heq).2 (hquote _)
  · next heq => rw [← (List.cons.inj heq).2, hread]
  · next h => exact absurd rfl (h t)

theorem linesString_ok {q : Char} {s start chars rest : List Char}
    (hstart : (lineBreak? s).getD s = start) (h : LinesTo q start chars rest) :
    linesString q s = .ok (chars, rest) := by
  rw [linesString, hstart, h _ (Nat.lt_succ_self _)]
  rfl

/-- A newline after the opening quotes is there exactly if the text starts with one or could be
taken to. -/
theorem lineBreak?_openLines {f : Features} {s t : List Char}
    (h : f.newline = false → lineBreak? (s ++ t) = none) :
    (lineBreak? (openLines f ++ (s ++ t))).getD (openLines f ++ (s ++ t)) = s ++ t := by
  unfold openLines
  split
  · rfl
  · next hnew => rw [List.nil_append, h (by simpa using hnew), Option.getD_none]

theorem string_basicLinesForm (s : List Char) {rest : List Char} (hrest : Unquoted rest) :
    string (basicLinesForm (features s) s ++ rest) = .ok (s, rest) := by
  have hread := @linesTo_basicText 0 (by decide) s rest hrest.1
  have hstart : (features s).newline = false →
      lineBreak? (basicText true 0 s ++ '"' :: '"' :: '"' :: rest) = none := by
    intro hnew
    cases s with
    | nil => rfl
    | cons c s =>
      rw [basicText]
      by_cases hc : c = '"'
      · rw [if_pos hc, if_pos ⟨rfl, by decide⟩]
        rfl
      · rw [if_neg hc]
        obtain ⟨htext, -, -, hn, hr⟩ | ⟨-, rfl, -⟩ | ⟨v, htext, -⟩ := escapedChar_cases true hc
        · simp [htext, lineBreak?, hn, hr]
        · simp [features] at hnew
        · rw [htext]
          rfl
  have htext : basicLinesForm (features s) s ++ rest = '"' :: '"' :: '"' ::
      (openLines (features s) ++ (basicText true 0 s ++ '"' :: '"' :: '"' :: rest)) := by
    simp [basicLinesForm]
  rw [htext, string]
  exact linesString_ok (lineBreak?_openLines hstart) hread

theorem string_literalLinesForm {s : List Char} (hrun : (features s).singleRun < 3)
    (hcontrol : (features s).control = false) {rest : List Char} (hrest : Unquoted rest) :
    string (literalLinesForm (features s) s ++ rest) = .ok (s, rest) := by
  have hchars : ∀ c ∈ s, c = '\n' ∨ isControl c = false := by
    simp only [features, List.any_eq_false, Bool.and_eq_true, bne_iff_ne, not_and,
      Bool.not_eq_true] at hcontrol
    intro c hc
    by_cases hn : c = '\n'
    · exact .inl hn
    · exact .inr (hcontrol c hc hn)
  have hread := @linesTo_literal 0 s hrun hchars rest hrest.2
  have hstart : (features s).newline = false →
      lineBreak? (s ++ '\'' :: '\'' :: '\'' :: rest) = none := by
    intro hnew
    cases s with
    | nil => rfl
    | cons c s =>
      have hn : c ≠ '\n' := by
        rintro rfl
        simp [features] at hnew
      have hr : c ≠ '\r' := by
        rintro rfl
        exact absurd (hchars '\r' List.mem_cons_self) (by decide)
      simp [lineBreak?, hn, hr]
  have htext : literalLinesForm (features s) s ++ rest = '\'' :: '\'' :: '\'' ::
      (openLines (features s) ++ (s ++ '\'' :: '\'' :: '\'' :: rest)) := by
    simp [literalLinesForm]
  rw [htext, string]
  exact linesString_ok (lineBreak?_openLines hstart) hread

/-! ## Texts -/

theorem not_mem_of_longestRun {q : Char} {n : Nat} {s : List Char} (h : longestRun q n s = 0) :
    q ∉ s := by
  induction s generalizing n with
  | nil => exact List.not_mem_nil
  | cons c s ih =>
    rw [longestRun] at h
    by_cases hc : c = q
    · rw [if_pos hc] at h
      have := le_longestRun q (n + 1) s
      omega
    · rw [if_neg hc] at h
      have hrest := ih (by omega : longestRun q 0 s = 0)
      simp [Ne.symm hc, hrest]

theorem isLiteralChar_of_features {s : List Char} (hrun : (features s).singleRun = 0)
    (hcontrol : (features s).control = false) (hnew : (features s).newline = false) :
    ∀ c ∈ s, isLiteralChar c = true := by
  intro c hc
  have hquote : c ≠ '\'' := by
    rintro rfl
    exact not_mem_of_longestRun hrun hc
  have hn : c ≠ '\n' := by
    rintro rfl
    simp [features, hc] at hnew
  simp only [features, List.any_eq_false, Bool.and_eq_true, bne_iff_ne, not_and,
    Bool.not_eq_true] at hcontrol
  have := of_not_isControl (hcontrol c hc hn)
  simp only [isLiteralChar, Bool.or_eq_true, Bool.and_eq_true, beq_iff_eq, bne_iff_ne,
    decide_eq_true_eq]
  grind

/-- A text is read back from the form that is chosen for it. -/
theorem string_stringText (s : List Char) {rest : List Char} (hrest : Unquoted rest) :
    string (stringText s ++ rest) = .ok (s, rest) := by
  unfold stringText
  dsimp only
  split
  · exact string_basicForm s hrest
  next hbasic =>
  split
  · next h =>
    have hs := isLiteralChar_of_features h.1 (by simpa using h.2.1) (by simpa using h.2.2)
    refine string_literalForm hs ?_ rest
    rintro rfl
    exact hbasic (by decide)
  split
  · exact string_basicLinesForm s hrest
  split
  · next h => exact string_literalLinesForm (by omega) (by simpa using h.2) hrest
  split
  · exact string_basicLinesForm s hrest
  · exact string_basicForm s hrest

end CssBuild.Toml
