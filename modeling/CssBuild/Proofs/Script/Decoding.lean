import CssBuild.Proofs.Script.Cutting

/-!
# CssBuild.Proofs.Script.Decoding

String literals as the characters that they denote.

1. The parts of a literal denote characters: two escapes next to each other that
   are halves of a pair denote one, and an escape for a line end denotes none
   (`Denotes`). They denote nothing at all exactly if half of a pair stands
   alone or a number is too large (`not_denotes_iff`).
2. A literal is read as what it denotes (`stringValue_writes`). The reader makes
   one exception: of two first halves directly after each other it forgets the
   former, and reads the parts that are `kept`.
-/

namespace CssBuild.Script

/-! ## What parts denote -/

/-- Whether a part is an escape for the first half of a pair. -/
def Part.isHigh : Part → Bool
  | number code => Json.isHigh code
  | _ => false

/-- Whether a part is an escape for the second half of a pair. -/
def Part.isLow : Part → Bool
  | number code => Json.isLow code
  | _ => false

/-- The characters that parts denote, one part after the other. -/
inductive Denotes : List Part → List Char → Prop where
  /-- No parts denote no characters. -/
  | nil : Denotes [] []
  /-- A character denotes itself. -/
  | raw {c : Char} {parts : List Part} {chars : List Char} (more : Denotes parts chars) :
    Denotes (.raw c :: parts) (c :: chars)
  /-- An escape for a line end denotes nothing. -/
  | nothing {parts : List Part} {chars : List Char} (more : Denotes parts chars) :
    Denotes (.nothing :: parts) chars
  /-- An escape with the number of a character denotes that character. -/
  | number {code : Nat} {c : Char} {parts : List Part} {chars : List Char} (char : c.toNat = code)
    (more : Denotes parts chars) : Denotes (.number code :: parts) (c :: chars)
  /-- Two halves of a pair denote one character. -/
  | pair {high low : Nat} {c : Char} {parts : List Part} {chars : List Char}
    (isHigh : Json.isHigh high = true) (isLow : Json.isLow low = true)
    (char : c.toNat = 0x10000 + (high - 0xD800) * 0x400 + (low - 0xDC00))
    (more : Denotes parts chars) : Denotes (.number high :: .number low :: parts) (c :: chars)

/-- Whether an escape for half of a pair is not next to an escape for the other half. -/
def Unpaired (parts : List Part) : Prop :=
  ∃ before part after, parts = before ++ part :: after ∧ (part.isHigh = true ∨ part.isLow = true) ∧
    ¬(part.isHigh = true ∧ ∃ next ∈ after.head?, next.isLow = true) ∧
    ¬(part.isLow = true ∧ ∃ previous ∈ before.getLast?, previous.isHigh = true)

/-- Whether an escape has a number above all characters. -/
def TooLarge (parts : List Part) : Prop := ∃ code, .number code ∈ parts ∧ 0x110000 ≤ code

theorem toNat_cases (c : Char) : c.toNat < 0xD800 ∨ 0xDFFF < c.toNat ∧ c.toNat < 0x110000 := c.valid

theorem isHigh_iff {code : Nat} : Json.isHigh code = true ↔ 0xD800 ≤ code ∧ code < 0xDC00 := by
  rw [Json.isHigh, Bool.and_eq_true, decide_eq_true_eq, decide_eq_true_eq]

theorem isLow_iff {code : Nat} : Json.isLow code = true ↔ 0xDC00 ≤ code ∧ code < 0xE000 := by
  rw [Json.isLow, Bool.and_eq_true, decide_eq_true_eq, decide_eq_true_eq]

theorem toNat_ofNat {code : Nat} (h : code < 0xD800 ∨ 0xDFFF < code ∧ code < 0x110000) :
    (Char.ofNat code).toNat = code := by
  rw [Char.ofNat, dif_pos h]
  rfl

theorem half_eq_false {code : Nat} (h : code < 0xD800 ∨ 0xDFFF < code) :
    Json.isHigh code = false ∧ Json.isLow code = false := by
  rw [Bool.eq_false_iff, Bool.eq_false_iff, Ne, Ne, isHigh_iff, isLow_iff]
  omega

theorem isHigh_of_isLow {code : Nat} (h : Json.isLow code = true) : Json.isHigh code = false := by
  rw [isLow_iff] at h
  rw [Bool.eq_false_iff, Ne, isHigh_iff]
  omega

/-- Two halves of a pair are read as the character that they denote. -/
theorem pairChar_eq_iff {high low : Nat} (hhigh : Json.isHigh high = true)
    (hlow : Json.isLow low = true) {c : Char} :
    c = Json.pairChar high low ↔ c.toNat = 0x10000 + (high - 0xD800) * 0x400 + (low - 0xDC00) := by
  rw [isHigh_iff] at hhigh
  rw [isLow_iff] at hlow
  have hvalid : (Json.pairChar high low).toNat =
      0x10000 + (high - 0xD800) * 0x400 + (low - 0xDC00) := toNat_ofNat (by omega)
  rw [← hvalid, Char.toNat_inj]

section Denotes

variable {parts : List Part} {chars : List Char}

theorem denotes_raw_iff {c : Char} :
    Denotes (.raw c :: parts) chars ↔ ∃ more, chars = c :: more ∧ Denotes parts more := by
  constructor
  · rintro (_ | hmore)
    exact ⟨_, rfl, hmore⟩
  · rintro ⟨more, rfl, hmore⟩
    exact .raw hmore

theorem denotes_run_iff {run : List Char} :
    Denotes (run.map .raw ++ parts) chars ↔ ∃ more, chars = run ++ more ∧ Denotes parts more := by
  induction run generalizing chars with
  | nil => simp
  | cons c run ih =>
    rw [List.map_cons, List.cons_append, denotes_raw_iff]
    constructor
    · rintro ⟨more, rfl, hmore⟩
      obtain ⟨others, rfl, hothers⟩ := ih.1 hmore
      exact ⟨others, rfl, hothers⟩
    · rintro ⟨more, rfl, hmore⟩
      exact ⟨_, rfl, ih.2 ⟨more, rfl, hmore⟩⟩

theorem denotes_nothing_iff : Denotes (.nothing :: parts) chars ↔ Denotes parts chars := by
  constructor
  · rintro (_ | _ | hmore)
    exact hmore
  · exact .nothing

/-- The number of no half denotes its character. -/
theorem denotes_number_iff {code : Nat} (hhigh : Json.isHigh code = false) :
    Denotes (.number code :: parts) chars ↔
      ∃ c more, c.toNat = code ∧ chars = c :: more ∧ Denotes parts more := by
  constructor
  · intro h
    cases h with
    | number char hmore => exact ⟨_, _, char, rfl, hmore⟩
    | pair isHigh _ _ _ => exact absurd (isHigh.symm.trans hhigh) (by decide)
  · rintro ⟨c, more, hchar, rfl, hmore⟩
    exact .number hchar hmore

/-- The first half of a pair needs the other half. -/
theorem denotes_high_iff {code : Nat} (hhigh : Json.isHigh code = true) :
    Denotes (.number code :: parts) chars ↔ ∃ low parts' more, parts = .number low :: parts' ∧
      Json.isLow low = true ∧ chars = Json.pairChar code low :: more ∧ Denotes parts' more := by
  constructor
  · intro h
    cases h with
    | @number _ c _ _ char _ =>
      have hc := toNat_cases c
      rw [isHigh_iff] at hhigh
      omega
    | pair _ isLow char hmore =>
      exact ⟨_, _, _, rfl, isLow, by rw [(pairChar_eq_iff hhigh isLow).2 char], hmore⟩
  · rintro ⟨low, parts', more, rfl, hlow, rfl, hmore⟩
    exact .pair hhigh hlow ((pairChar_eq_iff hhigh hlow).1 rfl) hmore

end Denotes

/-! ## What denotes nothing -/

/-- What stands alone does so behind other parts, unless the last of these is a first half. -/
theorem Unpaired.append {parts before : List Part} (h : Unpaired parts)
    (hbefore : ∀ previous ∈ before.getLast?, previous.isHigh = false) :
    Unpaired (before ++ parts) := by
  obtain ⟨front, half, after, rfl, hhalf, hnext, hprevious⟩ := h
  refine ⟨before ++ front, half, after, (List.append_assoc ..).symm, hhalf, hnext, ?_⟩
  rintro ⟨hlow, previous, hmem, hhigh⟩
  rw [List.getLast?_append] at hmem
  cases hlast : front.getLast? with
  | none =>
    rw [hlast, Option.none_or] at hmem
    exact absurd (hhigh.symm.trans (hbefore previous hmem)) (by decide)
  | some last =>
    rw [hlast, Option.some_or] at hmem
    obtain rfl := Option.some.inj hmem
    exact hprevious ⟨hlow, last, hlast, hhigh⟩

/-- A half at the front stands alone, unless it is a first half and the other one comes next. -/
theorem unpaired_cons {half : Part} {rest : List Part}
    (hhalf : half.isHigh = true ∨ half.isLow = true)
    (hnext : ¬(half.isHigh = true ∧ ∃ next ∈ rest.head?, next.isLow = true)) :
    Unpaired (half :: rest) :=
  ⟨[], half, rest, rfl, hhalf, hnext, fun ⟨_, _, hmem, _⟩ => nomatch hmem⟩

/-- What stands alone behind a part that is no half does so without it. -/
theorem Unpaired.of_cons {part : Part} {parts : List Part} (hhigh : part.isHigh = false)
    (hlow : part.isLow = false) (h : Unpaired (part :: parts)) : Unpaired parts := by
  obtain ⟨before, half, after, heq, hhalf, hnext, hprevious⟩ := h
  cases before with
  | nil =>
    obtain ⟨rfl, rfl⟩ := List.cons.inj heq
    rw [hhigh, hlow] at hhalf
    cases hhalf <;> contradiction
  | cons first more =>
    obtain ⟨rfl, rfl⟩ := List.cons.inj heq
    refine ⟨more, half, after, rfl, hhalf, hnext, ?_⟩
    rintro ⟨hhalfLow, previous, hmem, hpreviousHigh⟩
    refine hprevious ⟨hhalfLow, previous, ?_, hpreviousHigh⟩
    rw [List.getLast?_cons, Option.mem_def.1 hmem]
    rfl

theorem TooLarge.append {parts : List Part} (h : TooLarge parts) (before : List Part) :
    TooLarge (before ++ parts) :=
  h.imp fun _ => And.imp_left (List.mem_append_right before)

/-- Parts denote something, unless half of a pair stands alone or a number is too large. -/
theorem exists_denotes {parts : List Part} (hpaired : ¬Unpaired parts) (hlarge : ¬TooLarge parts) :
    ∃ chars, Denotes parts chars := by
  induction hlength : parts.length using Nat.strong_induction_on generalizing parts with
  | _ length ih =>
  subst hlength
  cases parts with
  | nil => exact ⟨[], .nil⟩
  | cons part rest =>
    have hrest (hpart : part.isHigh = false) : ∃ chars, Denotes rest chars := by
      have hends : ∀ previous ∈ [part].getLast?, previous.isHigh = false :=
        fun previous hmem => Option.some.inj hmem ▸ hpart
      exact ih rest.length (Nat.lt_succ_self _) (fun h => hpaired (h.append hends))
        (fun h => hlarge (h.append [part])) rfl
    cases part with
    | raw c => exact (hrest rfl).imp' (c :: ·) fun _ => .raw
    | nothing => exact (hrest rfl).imp fun _ => .nothing
    | number code =>
      cases hhigh : Json.isHigh code with
      | false =>
        have hlow : Json.isLow code = false := by
          refine Bool.eq_false_iff.2 fun hlow => hpaired (unpaired_cons (.inr hlow) ?_)
          exact fun h => absurd (h.1.symm.trans hhigh) (by decide)
        have hsmall : code < 0x110000 :=
          Nat.lt_of_not_le fun h => hlarge ⟨code, List.mem_cons_self, h⟩
        have hchar : (Char.ofNat code).toNat = code := by
          refine toNat_ofNat ?_
          simp only [Bool.eq_false_iff, Ne, isHigh_iff, isLow_iff] at hhigh hlow
          omega
        exact (hrest hhigh).imp' (Char.ofNat code :: ·) fun _ => .number hchar
      | true =>
        obtain ⟨next, more, rfl, hlow⟩ : ∃ next more, rest = next :: more ∧ next.isLow = true := by
          by_contra hnone
          refine hpaired (unpaired_cons (.inl hhigh) ?_)
          rintro ⟨-, next, hmem, hlow⟩
          obtain ⟨more, rfl⟩ := List.head?_eq_some_iff.1 hmem
          exact hnone ⟨next, more, rfl, hlow⟩
        cases next with
        | raw c => cases hlow
        | nothing => cases hlow
        | number low =>
          have hends : ∀ previous ∈ [Part.number code, .number low].getLast?,
              previous.isHigh = false :=
            fun previous hmem => Option.some.inj hmem ▸ isHigh_of_isLow hlow
          have hmore : ∃ chars, Denotes more chars :=
            ih more.length (by simp only [List.length_cons]; omega)
              (fun h => hpaired (h.append hends))
              (fun h => hlarge (h.append [.number code, .number low])) rfl
          exact hmore.imp' (Json.pairChar code low :: ·) fun _ =>
            .pair hhigh hlow ((pairChar_eq_iff hhigh hlow).1 rfl)

/-- What denotes something has no half that stands alone. -/
theorem Denotes.not_unpaired {parts : List Part} {chars : List Char} (h : Denotes parts chars) :
    ¬Unpaired parts := by
  induction h with
  | nil => exact fun ⟨_, _, _, heq, _⟩ => absurd heq (by simp)
  | raw _ ih => exact fun h => ih (h.of_cons rfl rfl)
  | nothing _ ih => exact fun h => ih (h.of_cons rfl rfl)
  | @number code c _ _ char _ ih =>
    obtain ⟨hhigh, hlow⟩ := half_eq_false (char ▸ (toNat_cases c).imp_right And.left)
    have hpart : (Part.number code).isHigh = false := hhigh
    exact fun h => ih (h.of_cons hpart hlow)
  | @pair high low _ _ _ isHigh isLow _ _ ih =>
    rintro ⟨before, half, after, heq, hhalf, hnext, hprevious⟩
    match before with
    | [] =>
      obtain ⟨rfl, rfl⟩ := List.cons.inj heq
      exact hnext ⟨isHigh, _, rfl, isLow⟩
    | [first] =>
      simp only [List.cons_append, List.nil_append, List.cons.injEq] at heq
      obtain ⟨rfl, rfl, rfl⟩ := heq
      exact hprevious ⟨isLow, _, rfl, isHigh⟩
    | first :: second :: more =>
      simp only [List.cons_append, List.cons.injEq] at heq
      obtain ⟨rfl, rfl, rfl⟩ := heq
      refine ih ⟨more, half, after, rfl, hhalf, hnext, ?_⟩
      rintro ⟨hhalfLow, previous, hmem, hpreviousHigh⟩
      refine hprevious ⟨hhalfLow, previous, ?_, hpreviousHigh⟩
      rw [List.getLast?_cons, List.getLast?_cons, Option.mem_def.1 hmem]
      rfl

/-- What denotes something has no number that is too large. -/
theorem Denotes.not_tooLarge {parts : List Part} {chars : List Char} (h : Denotes parts chars) :
    ¬TooLarge parts := by
  rintro ⟨code, hmem, hlarge⟩
  induction h with
  | nil => cases hmem
  | raw _ ih => exact ih ((List.mem_cons.1 hmem).resolve_left fun heq => nomatch heq)
  | nothing _ ih => exact ih ((List.mem_cons.1 hmem).resolve_left fun heq => nomatch heq)
  | @number other c _ _ char _ ih =>
    refine ih ((List.mem_cons.1 hmem).resolve_left fun heq => ?_)
    have hc := toNat_cases c
    obtain rfl := Part.number.inj heq
    omega
  | @pair high low _ _ _ isHigh isLow _ _ ih =>
    rw [isHigh_iff] at isHigh
    rw [isLow_iff] at isLow
    refine ih (((List.mem_cons.1 hmem).resolve_left fun heq => ?_) |> List.mem_cons.1
      |>.resolve_left fun heq => ?_)
    all_goals
      obtain rfl := Part.number.inj heq
      omega

/-- Parts denote nothing at all exactly if half of a pair stands alone or a number is too large. -/
theorem not_denotes_iff {parts : List Part} :
    (¬∃ chars, Denotes parts chars) ↔ Unpaired parts ∨ TooLarge parts := by
  constructor
  · intro hnone
    by_contra hneither
    obtain ⟨hpaired, hlarge⟩ := not_or.1 hneither
    exact hnone (exists_denotes hpaired hlarge)
  · rintro (hunpaired | hlarge) ⟨chars, hchars⟩
    · exact hchars.not_unpaired hunpaired
    · exact hchars.not_tooLarge hlarge

/-! ## What is read -/

/-- The parts without those first halves that another one comes directly after. -/
def kept : List Part → List Part
  | part :: next :: rest =>
    if part.isHigh && next.isHigh then kept (next :: rest) else part :: kept (next :: rest)
  | parts => parts

/-- Whether no first half comes directly after another one. -/
def Apart (parts : List Part) : Prop :=
  parts.IsChain fun part next => ¬(part.isHigh = true ∧ next.isHigh = true)

instance (parts : List Part) : Decidable (Apart parts) :=
  inferInstanceAs (Decidable (List.IsChain _ parts))

theorem kept_of_apart {parts : List Part} (h : Apart parts) : kept parts = parts := by
  induction parts with
  | nil => rfl
  | cons part rest ih =>
    cases rest with
    | nil => rfl
    | cons next rest =>
      obtain ⟨hfirst, hrest⟩ := List.isChain_cons_cons.1 h
      rw [kept, if_neg (by simpa using hfirst), ih hrest]

theorem kept_cons {part : Part} (h : part.isHigh = false) (parts : List Part) :
    kept (part :: parts) = part :: kept parts := by
  cases parts with
  | nil => rfl
  | cons next rest => rw [kept, h, Bool.false_and, if_neg Bool.false_ne_true]

theorem kept_run (run : List Char) (parts : List Part) :
    kept (run.map .raw ++ parts) = run.map .raw ++ kept parts := by
  induction run with
  | nil => rfl
  | cons c run ih => rw [List.map_cons, List.cons_append, kept_cons rfl, ih, List.cons_append]

/-- The first half of a pair and a part that is none of a pair denote nothing. -/
theorem not_denotes_high {code : Nat} (hhigh : Json.isHigh code = true) {part : Part}
    (hpart : part.isHigh = false) (hlow : part.isLow = false) (parts : List Part)
    (chars : List Char) : ¬Denotes (kept (.number code :: part :: parts)) chars := by
  rw [kept, hpart, Bool.and_false, if_neg Bool.false_ne_true, kept_cons hpart,
    denotes_high_iff hhigh]
  rintro ⟨low, _, _, heq, hlow', -⟩
  obtain ⟨rfl, -⟩ := List.cons.inj heq
  exact absurd (hlow'.symm.trans hlow) (by decide)

/-- A number that is no character and no first half denotes nothing. -/
theorem not_denotes_number {code : Nat} (hhigh : Json.isHigh code = false)
    (hnone : ∀ c : Char, c.toNat ≠ code) (parts : List Part) (chars : List Char) :
    ¬Denotes (kept (.number code :: parts)) chars := by
  have hpart : (Part.number code).isHigh = false := hhigh
  rw [kept_cons hpart, denotes_number_iff hhigh]
  exact fun ⟨c, _, hc, _⟩ => hnone c hc

section Value

variable {start : List Char} {pieces : List Piece} {parts : List Part}

theorem piecesValue_fragment {at_ run chars : List Char} :
    piecesValue start none (.fragment at_ run :: pieces) = .ok chars ↔
      ∃ more, chars = run ++ more ∧ piecesValue start none pieces = .ok more := by
  rw [piecesValue, bind_eq_ok]
  constructor
  · rintro ⟨more, hmore, heq⟩
    exact ⟨more, (Except.ok.inj heq).symm, hmore⟩
  · rintro ⟨more, rfl, hmore⟩
    exact ⟨more, hmore, rfl⟩

theorem piecesValue_char {at_ text chars : List Char} {c : Char} (h : unescape text = .char c) :
    piecesValue start none (.escape at_ text :: pieces) = .ok chars ↔
      ∃ more, chars = c :: more ∧ piecesValue start none pieces = .ok more := by
  simp only [piecesValue, h, bind_eq_ok]
  constructor
  · rintro ⟨more, hmore, heq⟩
    exact ⟨more, (Except.ok.inj heq).symm, hmore⟩
  · rintro ⟨more, rfl, hmore⟩
    exact ⟨more, hmore, rfl⟩

/-- The other half behind a first one is read as the character of the pair. -/
theorem piecesValue_pair {at_ text chars : List Char} {high low : Nat}
    (hread : unescape text = .surrogate low) (hhigh : Json.isHigh high = true)
    (hlow : Json.isLow low = true)
    (hmore : ∀ chars, piecesValue start none pieces = .ok chars ↔ Denotes (kept parts) chars) :
    piecesValue start (some high) (.escape at_ text :: pieces) = .ok chars ↔
      Denotes (kept (.number high :: .number low :: parts)) chars := by
  have hlow' : Json.isHigh low = false := isHigh_of_isLow hlow
  have hpart : (Part.number low).isHigh = false := hlow'
  have hkept : kept (.number high :: .number low :: parts) =
      .number high :: .number low :: kept parts := by
    rw [kept, if_neg (by simp [hpart]), kept_cons hpart]
  simp only [piecesValue, hread, hlow', Bool.false_eq_true, if_false, bind_eq_ok, hkept,
    denotes_high_iff hhigh]
  constructor
  · rintro ⟨more, hfound, heq⟩
    exact ⟨low, _, more, rfl, hlow, (Except.ok.inj heq).symm, (hmore more).1 hfound⟩
  · rintro ⟨_, _, more, heq, -, rfl, hfound⟩
    obtain ⟨hnumber, rfl⟩ := List.cons.inj heq
    obtain rfl := Part.number.inj hnumber
    exact ⟨more, (hmore more).2 hfound, rfl⟩

/-- The kinds of numbers that escapes have. -/
theorem codeEscape_cases (code : Nat) :
    Json.isHigh code = true ∧ codeEscape (some code) = .surrogate code ∨
    Json.isLow code = true ∧ codeEscape (some code) = .surrogate code ∨
    (∃ c : Char, c.toNat = code ∧ codeEscape (some code) = .char c) ∨
    0x110000 ≤ code ∧ codeEscape (some code) = .invalid := by
  rw [isHigh_iff, isLow_iff, codeEscape]
  by_cases hsurrogate : 0xD800 ≤ code ∧ code < 0xE000
  · rw [if_pos hsurrogate]
    by_cases hhigh : code < 0xDC00
    · exact .inl ⟨⟨hsurrogate.1, hhigh⟩, rfl⟩
    · exact .inr (.inl ⟨⟨Nat.le_of_not_lt hhigh, hsurrogate.2⟩, rfl⟩)
  · rw [if_neg hsurrogate]
    by_cases hsmall : code < 0x110000
    · rw [if_pos hsmall]
      exact .inr (.inr (.inl ⟨_, toNat_ofNat (by omega), rfl⟩))
    · rw [if_neg hsmall]
      exact .inr (.inr (.inr ⟨Nat.le_of_not_lt hsmall, rfl⟩))

/-- An escape with a number is read as what it denotes, if what comes after it is. -/
theorem piecesValue_number {at_ text : List Char} {code : Nat}
    (hread : unescape text = (Part.number code).escape)
    (hmore : ∀ chars, piecesValue start none pieces = .ok chars ↔ Denotes (kept parts) chars)
    (hhalf : ∀ high, Json.isHigh high = true → ∀ chars,
      piecesValue start (some high) pieces = .ok chars ↔
        Denotes (kept (.number high :: parts)) chars) :
    (∀ chars, piecesValue start none (.escape at_ text :: pieces) = .ok chars ↔
        Denotes (kept (.number code :: parts)) chars) ∧
      ∀ high, Json.isHigh high = true → ∀ chars,
        piecesValue start (some high) (.escape at_ text :: pieces) = .ok chars ↔
          Denotes (kept (.number high :: .number code :: parts)) chars := by
  obtain ⟨hcode, hescape⟩ | ⟨hcode, hescape⟩ | ⟨c, hchar, hescape⟩ | ⟨hcode, hescape⟩ :=
    codeEscape_cases code <;> rw [Part.escape, hescape] at hread
  · refine ⟨fun chars => ?_, fun high hhigh chars => ?_⟩
    · simp only [piecesValue, hread, hcode, if_true]
      exact hhalf code hcode chars
    · have hkept : kept (.number high :: .number code :: parts) = kept (.number code :: parts) := by
        rw [kept, if_pos (by simp [Part.isHigh, hhigh, hcode])]
      simp only [piecesValue, hread, hcode, if_true, hkept]
      exact hhalf code hcode chars
  · have hhigh' : Json.isHigh code = false := isHigh_of_isLow hcode
    refine ⟨fun chars => ?_, fun high hhigh chars => piecesValue_pair hread hhigh hcode hmore⟩
    have hnone : ∀ c : Char, c.toNat ≠ code := by
      intro c hc
      have hvalid := toNat_cases c
      rw [isLow_iff] at hcode
      omega
    simp only [piecesValue, hread, hhigh', Bool.false_eq_true, if_false, reduceCtorEq, false_iff]
    exact not_denotes_number hhigh' hnone _ _
  · obtain ⟨hhigh', hlow'⟩ := half_eq_false (hchar ▸ (toNat_cases c).imp_right And.left)
    have hpart : (Part.number code).isHigh = false := hhigh'
    refine ⟨fun chars => ?_, fun high hhigh chars => ?_⟩
    · rw [piecesValue_char hread, kept_cons hpart, denotes_number_iff hhigh']
      constructor
      · rintro ⟨more, rfl, hfound⟩
        exact ⟨c, more, hchar, rfl, (hmore more).1 hfound⟩
      · rintro ⟨d, more, hd, rfl, hfound⟩
        obtain rfl := Char.toNat_inj.1 (hchar.trans hd.symm)
        exact ⟨more, rfl, (hmore more).2 hfound⟩
    · simp only [piecesValue, hread, reduceCtorEq, false_iff]
      exact not_denotes_high hhigh hpart hlow' _ _
  · obtain ⟨hhigh', hlow'⟩ := half_eq_false (show code < 0xD800 ∨ 0xDFFF < code by omega)
    have hpart : (Part.number code).isHigh = false := hhigh'
    have hnone : ∀ c : Char, c.toNat ≠ code := by
      intro c hc
      have hvalid := toNat_cases c
      omega
    refine ⟨fun chars => ?_, fun high hhigh chars => ?_⟩ <;>
      simp only [piecesValue, hread, reduceCtorEq, false_iff]
    · exact not_denotes_number hhigh' hnone _ _
    · exact not_denotes_high hhigh hpart hlow' _ _

/-- What pieces are read as is what their parts denote, but for the halves that are not kept. A
first half that has been read is like one in front of the parts. -/
theorem piecesValue_iff (start : List Char) (h : Means pieces parts) :
    (∀ chars, piecesValue start none pieces = .ok chars ↔ Denotes (kept parts) chars) ∧
      ∀ high, Json.isHigh high = true → ∀ chars,
        piecesValue start (some high) pieces = .ok chars ↔
          Denotes (kept (.number high :: parts)) chars := by
  induction h with
  | nil =>
    refine ⟨fun chars => ?_, fun high hhigh chars => ?_⟩
    · simp only [piecesValue, kept, Except.ok.injEq]
      constructor
      · rintro rfl
        exact .nil
      · rintro (_ | _)
        rfl
    · simp only [piecesValue, kept, reduceCtorEq, false_iff, denotes_high_iff hhigh]
      rintro ⟨_, _, _, heq, -⟩
      cases heq
  | @fragment pieces parts at_ run some _ ih =>
    refine ⟨fun chars => ?_, fun high hhigh chars => ?_⟩
    · rw [piecesValue_fragment, kept_run, denotes_run_iff]
      exact exists_congr fun more => and_congr_right fun _ => ih.1 more
    · obtain ⟨c, run, rfl⟩ := List.exists_cons_of_ne_nil some
      simp only [piecesValue, reduceCtorEq, false_iff, List.map_cons, List.cons_append]
      exact not_denotes_high hhigh rfl rfl _ _
  | @escape pieces part parts at_ text read _ ih =>
    cases part with
    | raw c =>
      refine ⟨fun chars => ?_, fun high hhigh chars => ?_⟩
      · rw [piecesValue_char read, kept_cons rfl, denotes_raw_iff]
        exact exists_congr fun more => and_congr_right fun _ => ih.1 more
      · simp only [piecesValue, read, Part.escape, reduceCtorEq, false_iff]
        exact not_denotes_high hhigh rfl rfl _ _
    | nothing =>
      have hpart : Part.nothing.isHigh = false := rfl
      refine ⟨fun chars => ?_, fun high hhigh chars => ?_⟩
      · simp only [piecesValue, read, Part.escape, kept_cons hpart,
          denotes_nothing_iff]
        exact ih.1 chars
      · simp only [piecesValue, read, Part.escape, reduceCtorEq, false_iff]
        exact not_denotes_high hhigh rfl rfl _ _
    | number code => exact piecesValue_number read ih.1 ih.2

end Value

/-- In what denotes something every first half has its other half directly behind it. -/
theorem Denotes.apart {chars : List Char} (h : Denotes parts chars) : Apart parts := by
  have hcons {part : Part} {parts : List Part} (hpart : part.isHigh = false) (h : Apart parts) :
      Apart (part :: parts) := by
    cases parts with
    | nil => exact List.IsChain.singleton _
    | cons next rest =>
      refine List.isChain_cons_cons.2 ⟨fun hhigh => ?_, h⟩
      exact absurd (hhigh.1.symm.trans hpart) (by decide)
  induction h with
  | nil => exact List.IsChain.nil
  | raw _ ih => exact hcons rfl ih
  | nothing _ ih => exact hcons rfl ih
  | @number code c _ _ char _ ih =>
    have hpart : (Part.number code).isHigh = false :=
      (half_eq_false (char ▸ (toNat_cases c).imp_right And.left)).1
    exact hcons hpart ih
  | @pair high low _ _ _ _ isLow _ _ ih =>
    have hlow : (Part.number low).isHigh = false := isHigh_of_isLow isLow
    refine List.isChain_cons_cons.2 ⟨fun hhigh => ?_, hcons hlow ih⟩
    exact absurd (hhigh.2.symm.trans hlow) (by decide)

/-- A literal whose parts denote some characters is read as these. -/
theorem exists_pieces_of_denotes {quote : Char} (hquote : quote ∈ quotes) {text : List Char}
    (h : Writes quote parts text) {value : String} (hvalue : Denotes parts value.toList)
    (rest : List Char) :
    ∃ pieces, Cuts quote (text ++ quote :: rest) pieces rest ∧
      ∀ start, stringValue start pieces = .ok value := by
  obtain ⟨pieces, hmeans, hcuts⟩ := exists_pieces hquote h rest
  refine ⟨pieces, hcuts, fun start => ?_⟩
  rw [← kept_of_apart hvalue.apart, ← (piecesValue_iff start hmeans).1] at hvalue
  rw [stringValue, hvalue, ok_map, String.ofList_toList]

/-- A literal is read as what its parts denote, where the reader forgets a first half that another
one comes directly after; it is refused exactly where a half that is kept stands alone or a number
is too large. Without such first halves the reader keeps all parts. -/
theorem stringValue_writes {quote : Char} (isQuote : quote ∈ quotes) {parts : List Part}
    {text : List Char} (writes : Writes quote parts text) (rest start : List Char) :
    ∃ pieces, Cuts quote (text ++ quote :: rest) pieces rest ∧
      (∀ value, stringValue start pieces = .ok value ↔ Denotes (kept parts) value.toList) ∧
      ((∃ fault, stringValue start pieces = .error fault) ↔
        Unpaired (kept parts) ∨ TooLarge (kept parts)) ∧
      (Apart parts →
        (∀ value, stringValue start pieces = .ok value ↔ Denotes parts value.toList) ∧
        ((∃ fault, stringValue start pieces = .error fault) ↔ Unpaired parts ∨ TooLarge parts)) := by
  obtain ⟨pieces, hmeans, hcuts⟩ := exists_pieces isQuote writes rest
  have hvalue (value : String) :
      stringValue start pieces = .ok value ↔ Denotes (kept parts) value.toList := by
    rw [stringValue, map_eq_ok, ← (piecesValue_iff start hmeans).1]
    constructor
    · rintro ⟨chars, hchars, rfl⟩
      rwa [String.toList_ofList]
    · exact fun h => ⟨_, h, String.ofList_toList⟩
  have hfault : (∃ fault, stringValue start pieces = .error fault) ↔
      Unpaired (kept parts) ∨ TooLarge (kept parts) := by
    rw [← not_denotes_iff]
    cases hread : stringValue start pieces with
    | error fault =>
      refine iff_of_true ⟨fault, rfl⟩ fun ⟨chars, hchars⟩ => ?_
      have hok := (hvalue (String.ofList chars)).2 (by rwa [String.toList_ofList])
      exact absurd (hread.symm.trans hok) (by simp)
    | ok value =>
      exact iff_of_false (by simp) (not_not_intro ⟨_, (hvalue value).1 hread⟩)
  refine ⟨pieces, hcuts, hvalue, hfault, fun apart => ?_⟩
  rw [kept_of_apart apart] at hvalue hfault
  exact ⟨hvalue, hfault⟩

/-- A template with an octal escape, a pair of escapes, a line end and a dollar sign. -/
theorem stringValue_writes_template :
    ∃ pieces, Cuts '\x60' "a\\51\\uD83D\\uDE00\\\n$b\x60;".toList pieces [';'] ∧
      stringValue [] pieces = .ok "a)😀$b" := by
  have hraw : Writes '\x60' [.raw '$', .raw 'b'] ['$', 'b'] :=
    .raw (by simp [Raw]) (.raw (by simp [Raw]) .nil)
  have hline : Writes '\x60' (.nothing :: _) (['\\', '\n'] ++ _) :=
    .escape (.lineEnd (by decide) (by decide)) hraw
  have hlow : Writes '\x60' (.number (numberOf 16 ['D', 'E', '0', '0']) :: _)
      (['\\', 'u', 'D', 'E', '0', '0'] ++ _) := .escape (.unit (by decide)) hline
  have hhigh : Writes '\x60' (.number (numberOf 16 ['D', '8', '3', 'D']) :: _)
      (['\\', 'u', 'D', '8', '3', 'D'] ++ _) := .escape (.unit (by decide)) hlow
  have hoctal : Writes '\x60' (.number (numberOf 8 ['5', '1']) :: _) ('\\' :: ['5', '1'] ++ _) :=
    .escape (.octal (by decide) (by decide) (by decide) (by decide)
      (.inr (by rintro d ⟨⟩; decide))) hhigh
  have hwrites : Writes '\x60' (.raw 'a' :: _) ('a' :: _) := .raw (by simp [Raw]) hoctal
  obtain ⟨pieces, hcuts, -, -, hapart⟩ :=
    stringValue_writes (show '\x60' ∈ quotes by decide) hwrites [';'] []
  refine ⟨pieces, hcuts, ((hapart (by decide)).1 "a)😀$b").2 ?_⟩
  exact .raw (.number (by decide) (.pair (by decide) (by decide) (by decide)
    (.nothing (.raw (.raw .nil)))))

end CssBuild.Script
