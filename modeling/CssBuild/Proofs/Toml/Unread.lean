import CssBuild.Toml.Lexical

/-!
# CssBuild.Proofs.Toml.Unread

What a reader of TOML leaves unread, and where it finds a fault.

1. `Leaves s result` says that a reader of the text `s` stops within it: what it
   leaves unread is an end of the text, and so is the text from a fault on.
   `Passes` says the same of a reader that finds nothing but where to go on.
2. A reader that starts where another one has stopped stops within the text of
   that one (`Leaves.of_suffix`), so the readers of a construct stop within its
   text one after another (`Within.bind`).
3. Here are the leaves: blanks, strings, numbers and dates.
-/

namespace CssBuild.Toml

/-! ## Readers that stay within their text -/

section Within

variable {α β : Type} {s t : List Char} {good : α → Prop}

/-- What a reader finds has a property, or its fault is at a place of its text. -/
inductive Within (s : List Char) (good : α → Prop) : Except Fault α → Prop where
  /-- Something is found. -/
  | ok {found : α} (h : good found) : Within s good (.ok found)
  /-- There is a fault. -/
  | error {fault : Fault} (h : fault.rest <:+ s) : Within s good (.error fault)

/-- A reader that finds something leaves the end of its text unread. -/
abbrev Leaves (s : List Char) (result : Except Fault (Found α)) : Prop :=
  Within s (fun found => found.2 <:+ s) result

/-- A reader that passes over something leaves the end of its text unread. -/
abbrev Passes (s : List Char) (result : Except Fault (List Char)) : Prop :=
  Within s (· <:+ s) result

theorem Within.of_ok {found : α} (h : Within s good (.ok found)) : good found := by
  cases h with
  | ok h => exact h

theorem Within.of_error {fault : Fault} (h : Within s good (.error fault)) : fault.rest <:+ s := by
  cases h with
  | error h => exact h

theorem Within.mono {better : α → Prop} {result : Except Fault α} (h : Within s good result)
    (hs : s <:+ t) (hgood : ∀ found, good found → better found) : Within t better result := by
  cases h with
  | ok h => exact .ok (hgood _ h)
  | error h => exact .error (h.trans hs)

theorem Leaves.of_suffix {result : Except Fault (Found α)} (h : Leaves s result) (hs : s <:+ t) :
    Leaves t result := h.mono hs fun _ hfound => hfound.trans hs

theorem Passes.of_suffix {result : Except Fault (List Char)} (h : Passes s result) (hs : s <:+ t) :
    Passes t result := h.mono hs fun _ hrest => hrest.trans hs

theorem Within.bind {better : β → Prop} {first : Except Fault α} {next : α → Except Fault β}
    (h : Within s good first) (hnext : ∀ found, good found → Within s better (next found)) :
    Within s better (first >>= next) := by
  cases h with
  | ok h => exact hnext _ h
  | error h => exact .error h

theorem Within.map {better : β → Prop} {f : α → β} {result : Except Fault α}
    (h : Within s good result) (hf : ∀ found, good found → better (f found)) :
    Within s better (result.map f) := by
  cases h with
  | ok h => exact .ok (hf _ h)
  | error h => exact .error h

theorem Leaves.map {f : Found α → Found β} {result : Except Fault (Found α)} (h : Leaves s result)
    (hf : ∀ found, (f found).2 = found.2) : Leaves s (result.map f) :=
  Within.map h fun found hfound => (hf found).symm ▸ hfound

theorem Within.mapError {f : Fault → Fault} {result : Except Fault α} (h : Within s good result)
    (hf : ∀ fault, (f fault).rest = fault.rest) : Within s good (result.mapError f) := by
  cases h with
  | ok h => exact .ok h
  | error h => exact .error ((hf _).symm ▸ h)

theorem Within.labelled {result : Except Fault α} (h : Within s good result) (label : String) :
    Within s good (labelled label result) := h.mapError fun _ => rfl

theorem Within.required {result : Except Fault α} (h : Within s good result) :
    Within s good (required result) := h.mapError fun _ => rfl

end Within

/-! ## Blanks -/

theorem skipBlanks_suffix (s : List Char) : skipBlanks s <:+ s := List.dropWhile_suffix _

theorem suffix_cons_cons {α : Type} (a b : α) (s : List α) : s <:+ a :: b :: s :=
  List.suffix_append [a, b] s

theorem lineBreak?_suffix {s rest : List Char} (h : lineBreak? s = some rest) : rest <:+ s := by
  unfold lineBreak? at h
  split at h
  · exact Option.some.inj h ▸ List.suffix_cons _ _
  · exact Option.some.inj h ▸ suffix_cons_cons _ _ _
  · cases h

theorem skipComment_suffix (s : List Char) : skipComment s <:+ s := by
  unfold skipComment
  split
  · exact (List.dropWhile_suffix _).trans (List.suffix_cons _ _)
  · exact List.suffix_rfl

theorem passes_lineEnd (s : List Char) : Passes s (lineEnd s) := by
  have hafter := (skipComment_suffix (skipBlanks s)).trans (skipBlanks_suffix s)
  unfold lineEnd
  dsimp only
  split
  · exact .ok List.nil_suffix
  · split
    · next rest h => exact .ok ((lineBreak?_suffix h).trans hafter)
    · exact .error hafter

theorem skipLines_suffix (fuel : Nat) (s : List Char) : skipLines fuel s <:+ s := by
  induction fuel generalizing s with
  | zero => exact List.suffix_rfl
  | succ fuel ih =>
    cases s with
    | nil => exact List.suffix_rfl
    | cons c rest =>
      rw [skipLines]
      split
      · exact (ih rest).trans (List.suffix_cons _ _)
      · split
        · exact (ih _).trans ((List.dropWhile_suffix _).trans (List.suffix_cons _ _))
        · split
          · next after h => exact (ih after).trans (lineBreak?_suffix h)
          · exact List.suffix_rfl

theorem skipSpace_suffix (s : List Char) : skipSpace s <:+ s := skipLines_suffix _ s

/-! ## Strings -/

theorem leaves_hexEscape (count : Nat) (s : List Char) : Leaves s (hexEscape count s) := by
  unfold hexEscape
  dsimp only
  split
  · exact .error List.suffix_rfl
  · split
    · exact .ok (List.drop_suffix _ _)
    · exact .error List.suffix_rfl

theorem leaves_escape (s : List Char) : Leaves s (escape s) := by
  cases s with
  | nil => exact .error List.suffix_rfl
  | cons c rest =>
    have hrest := List.suffix_cons c rest
    rw [escape]
    split
    · exact (leaves_hexEscape 4 rest).of_suffix hrest
    · split
      · exact (leaves_hexEscape 8 rest).of_suffix hrest
      · split
        · exact .ok hrest
        · exact .error hrest

theorem leaves_basicChars (fuel : Nat) (s : List Char) : Leaves s (basicChars fuel s) := by
  induction fuel generalizing s with
  | zero => exact .error List.suffix_rfl
  | succ fuel ih =>
    cases s with
    | nil => exact .error List.suffix_rfl
    | cons c s =>
      have hs := List.suffix_cons c s
      rw [basicChars]
      split
      · exact .ok hs
      · split
        · split
          · exact .error List.suffix_rfl
          · refine ((leaves_escape s).of_suffix hs).bind ?_
            rintro ⟨found, rest⟩ hrest
            exact ((ih rest).of_suffix hrest).bind fun _ hmore => .ok hmore
        · split
          · exact ((ih s).of_suffix hs).bind fun _ hmore => .ok hmore
          · exact .error List.suffix_rfl

theorem leaves_basicString (s : List Char) : Leaves s (basicString s) := leaves_basicChars _ s

theorem leaves_literalString (s : List Char) : Leaves s (literalString s) := by
  have hother := List.dropWhile_suffix isLiteralChar (l := s)
  unfold literalString
  split
  · next rest h => exact .ok ((List.suffix_cons _ rest).trans (h ▸ hother))
  · exact .error hother

theorem continuedLine?_suffix {s rest : List Char} (h : continuedLine? s = some rest) :
    rest <:+ s := by
  obtain ⟨after, hafter, rfl⟩ := Option.map_eq_some_iff.1 h
  exact (List.dropWhile_suffix _).trans ((lineBreak?_suffix hafter).trans (skipBlanks_suffix s))

theorem leaves_linesChars (q : Char) (fuel : Nat) (s : List Char) :
    Leaves s (linesChars q fuel s) := by
  induction fuel generalizing s with
  | zero => exact .error List.suffix_rfl
  | succ fuel ih =>
    cases s with
    | nil => exact .error List.suffix_rfl
    | cons c rest =>
      have hrest := List.suffix_cons c rest
      rw [linesChars]
      split
      · have hafter : (quoteRun q (c :: rest)).2 <:+ c :: rest := List.dropWhile_suffix _
        dsimp only
        split
        -- Three quotes or more close the string; of more than five the rest is left unread.
        · split
          · exact .ok hafter
          · exact .ok (List.drop_suffix _ _)
        · exact ((ih _).of_suffix hafter).bind fun _ hmore => .ok hmore
      · split
        · split
          · next after h => exact (ih after).of_suffix ((continuedLine?_suffix h).trans hrest)
          · split
            · exact .error List.suffix_rfl
            · refine ((leaves_escape rest).of_suffix hrest).bind ?_
              rintro ⟨found, after⟩ hafter
              exact ((ih after).of_suffix hafter).bind fun _ hmore => .ok hmore
        · split
          · next after h =>
            exact ((ih after).of_suffix (lineBreak?_suffix h)).bind fun _ hmore => .ok hmore
          · split
            · exact ((ih rest).of_suffix hrest).bind fun _ hmore => .ok hmore
            · exact .error List.suffix_rfl

theorem leaves_linesString (q : Char) (s : List Char) : Leaves s (linesString q s) := by
  have hstart : (lineBreak? s).getD s <:+ s := by
    cases h : lineBreak? s with
    | none => exact List.suffix_rfl
    | some rest => exact lineBreak?_suffix h
  exact ((leaves_linesChars q _ _).of_suffix hstart).labelled _

theorem leaves_string (s : List Char) : Leaves s (string s) := by
  unfold string
  split
  · exact (leaves_linesString _ _).of_suffix (List.suffix_append ['"', '"', '"'] _)
  · exact (leaves_basicString _).of_suffix (List.suffix_cons _ _)
  · exact (leaves_linesString _ _).of_suffix (List.suffix_append ['\'', '\'', '\''] _)
  · exact (leaves_literalString _).of_suffix (List.suffix_cons _ _)
  · exact .error List.suffix_rfl

/-! ## Numbers -/

theorem passes_digitsRest (digit : Char → Bool) (label : String) (s : List Char) :
    Passes s (digitsRest digit label s) := by
  fun_induction digitsRest digit label s with
  | case1 => exact .ok List.suffix_rfl
  | case2 => exact .error List.nil_suffix
  | case3 d rest h ih => exact ih.of_suffix (suffix_cons_cons _ _ _)
  | case4 d rest h => exact .error (List.suffix_cons _ _)
  | case5 c rest h h' hdigit ih => exact ih.of_suffix (List.suffix_cons _ _)
  | case6 c rest h h' hdigit => exact .ok List.suffix_rfl

theorem afterSign_suffix (s : List Char) : afterSign s <:+ s := by
  unfold afterSign
  split
  · exact List.suffix_cons _ _
  · exact List.suffix_cons _ _
  · exact List.suffix_rfl

theorem passes_decimalRest (s : List Char) : Passes s (decimalRest s) := by
  have hsign := afterSign_suffix s
  unfold decimalRest
  split
  · next rest h => exact .ok ((List.suffix_cons _ rest).trans (h ▸ hsign))
  · next c rest _ h =>
    have hcons : c :: rest <:+ s := h ▸ hsign
    split
    · exact (passes_digitsRest _ _ rest).of_suffix ((List.suffix_cons c rest).trans hcons)
    · exact .error hcons
  · exact .error List.nil_suffix

theorem passes_someDigits (s : List Char) : Passes s (someDigits s) := by
  cases s with
  | nil => exact .error List.suffix_rfl
  | cons c rest =>
    rw [someDigits]
    split
    · exact (passes_digitsRest _ _ rest).of_suffix (List.suffix_cons c rest)
    · exact .error List.suffix_rfl

theorem passes_exponentRest (s : List Char) : Passes s (exponentRest s) := by
  cases s with
  | nil => exact .ok List.suffix_rfl
  | cons c rest =>
    rw [exponentRest]
    split
    · exact (passes_someDigits _).of_suffix
        ((afterSign_suffix rest).trans (List.suffix_cons c rest))
    · exact .ok List.suffix_rfl

theorem leaves_float (s : List Char) : Leaves s (float s) := by
  have hsign := afterSign_suffix s
  unfold float
  split
  · next rest h =>
    rw [h] at hsign
    exact .ok ((List.suffix_append ['i', 'n', 'f'] rest).trans hsign)
  · next rest h =>
    rw [h] at hsign
    exact .ok ((List.suffix_append ['n', 'a', 'n'] rest).trans hsign)
  · refine ((passes_decimalRest s).labelled _).bind fun whole hwhole => ?_
    dsimp only
    split
    · next after =>
      refine ((passes_someDigits after).of_suffix ((List.suffix_cons _ _).trans hwhole)).bind
        fun after hafter => ?_
      refine ((passes_exponentRest after).of_suffix hafter).bind fun rest hrest => ?_
      split
      · exact .ok hrest
      · exact .error List.suffix_rfl
    · split
      · refine ((passes_exponentRest _).of_suffix hwhole).bind fun rest hrest => ?_
        split
        · exact .ok hrest
        · exact .error List.suffix_rfl
      · exact .error hwhole
    · exact .error hwhole

theorem leaves_int64 (n : Int) {s start rest : List Char} (hstart : start <:+ s)
    (hrest : rest <:+ s) : Leaves s (int64 n start rest) := by
  unfold int64
  split
  · split
    · exact .ok hrest
    · exact .error hstart
  · exact .error hstart

theorem leaves_radixInteger (radix : Nat) (label : String) (s : List Char) :
    Leaves s (radixInteger radix label s) := by
  cases s with
  | nil => exact .error List.suffix_rfl
  | cons c rest =>
    rw [radixInteger]
    dsimp only
    split
    · refine ((passes_digitsRest _ _ rest).of_suffix (List.suffix_cons c rest)).bind
        fun after hafter => ?_
      exact leaves_int64 _ List.suffix_rfl hafter
    · exact .error List.suffix_rfl

theorem leaves_integer (s : List Char) : Leaves s (integer s) := by
  unfold integer
  split
  · exact (leaves_radixInteger _ _ _).of_suffix (suffix_cons_cons _ _ _)
  · exact (leaves_radixInteger _ _ _).of_suffix (suffix_cons_cons _ _ _)
  · exact (leaves_radixInteger _ _ _).of_suffix (suffix_cons_cons _ _ _)
  · exact (passes_decimalRest s).bind fun rest hrest => leaves_int64 _ List.suffix_rfl hrest

/-! ## Dates and times -/

theorem fixedDigits?_suffix {count : Nat} {s digits rest : List Char}
    (h : fixedDigits? count s = some (digits, rest)) : rest <:+ s := by
  unfold fixedDigits? at h
  dsimp only at h
  split at h
  · cases h
    exact List.drop_suffix _ _
  · cases h

theorem leaves_twoDigits (low high : Nat) (label : String) (s : List Char) :
    Leaves s (twoDigits low high label s) := by
  unfold twoDigits
  split
  · next digits rest h =>
    dsimp only
    split
    · exact .ok (fixedDigits?_suffix h)
    · exact .error List.suffix_rfl
  · exact .error List.suffix_rfl

theorem passes_mark (c : Char) (label : String) (s : List Char) : Passes s (mark c label s) := by
  cases s with
  | nil => exact .error List.suffix_rfl
  | cons d rest =>
    rw [mark]
    split
    · exact .ok (List.suffix_cons _ _)
    · exact .error List.suffix_rfl

theorem leaves_date (s : List Char) : Leaves s (date s) := by
  unfold date
  split
  · next year rest h =>
    have hrest := (List.suffix_cons _ _).trans (fixedDigits?_suffix h)
    refine ((leaves_twoDigits _ _ _ rest).of_suffix hrest).bind ?_
    rintro ⟨month, rest⟩ hrest
    refine ((passes_mark _ _ rest).of_suffix hrest).bind fun dayStart hday => ?_
    refine ((leaves_twoDigits _ _ _ dayStart).of_suffix hday).bind ?_
    rintro ⟨day, rest⟩ hrest
    dsimp only
    split
    · exact .error hday
    · exact .ok hrest
  · exact .error List.suffix_rfl

theorem leaves_time (label : String) (s : List Char) : Leaves s (time label s) := by
  have hhour := leaves_twoDigits 0 23 label s
  unfold time
  split
  · next hour rest h =>
    have hrest := (List.suffix_cons ':' rest).trans (h ▸ hhour).of_ok
    refine ((leaves_twoDigits _ _ _ rest).of_suffix hrest).bind ?_
    rintro ⟨minute, rest⟩ hrest
    refine ((passes_mark _ _ rest).of_suffix hrest).bind fun rest hrest => ?_
    refine ((leaves_twoDigits _ _ _ rest).of_suffix hrest).bind ?_
    rintro ⟨second, rest⟩ hrest
    dsimp only
    split
    · next d after =>
      split
      · exact .ok ((List.dropWhile_suffix _).trans ((List.suffix_cons _ _).trans hrest))
      · exact .ok hrest
    · exact .ok hrest
  · exact .error List.suffix_rfl

theorem leaves_offset (s : List Char) : Leaves s (offset s) := by
  cases s with
  | nil => exact .ok List.suffix_rfl
  | cons c rest =>
    have hrest := List.suffix_cons c rest
    rw [offset]
    split
    · exact .ok hrest
    · split
      · refine ((leaves_twoDigits _ _ _ rest).of_suffix hrest).bind ?_
        rintro ⟨hour, rest⟩ hrest
        refine ((passes_mark _ _ rest).of_suffix hrest).bind fun rest hrest => ?_
        exact ((leaves_twoDigits _ _ _ rest).of_suffix hrest).bind fun _ hrest => .ok hrest
      · exact .ok List.suffix_rfl

theorem leaves_dateTime (s : List Char) : Leaves s (dateTime s) := by
  have hdate := leaves_date s
  unfold dateTime
  split
  · next day rest h =>
    have hrest := (h ▸ hdate).of_ok
    split
    · next c after =>
      split
      · have htime := (leaves_time "date-time" after).of_suffix
          ((List.suffix_cons c after).trans hrest)
        split
        · next clock rest h =>
          exact ((leaves_offset rest).of_suffix (h ▸ htime).of_ok).bind fun _ hrest => .ok hrest
        · next fault h =>
          -- Where no time starts the date stands alone, and what follows it is left unread.
          split
          · exact .ok hrest
          · exact h ▸ htime
      · exact .ok hrest
    · exact .ok hrest
  · next fault h =>
    split
    · exact leaves_time _ s
    · exact h ▸ hdate

end CssBuild.Toml
