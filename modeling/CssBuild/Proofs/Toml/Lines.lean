import CssBuild.Proofs.Toml.Inline

/-!
# CssBuild.Proofs.Toml.Lines

The lines that are written in TOML, as the reader takes them.

1. A line of an entry adds it to the table of the last header; a line of a
   header adds a table, or an element of an array of tables. In each case the
   change is one in its place (`Reaches`).
2. `Reads before text after` says that the reader comes from `before` to
   `after` by a text, whatever follows it. Texts in a row are read in a row,
   and so are sections with empty lines between them (`reads_intercalate`).
-/

namespace CssBuild.Toml

open Json (Distinct depth)

/-! ## Lines -/

theorem lineEnd_newline (rest : List Char) : lineEnd ('\n' :: rest) = .ok rest := rfl

section Lines

variable {limit : Nat} {progress : Progress} {inner : Table} {wrap : Table → Table}

/-- A line of an entry adds it to the table that the last header reached. -/
theorem keyLine_entryLine (hlimit : 0 < limit) (h : Reaches progress.path inner progress.root wrap)
    (hdotted : inner.dotted = false) {entry : String × Json}
    (hkey : entry.1 ∉ Entries.keys inner.entries) (writable : Writable entry.2)
    (distinct : Distinct entry.2) (hdepth : depth entry.2 ≤ limit) (rest : List Char) :
    keyLine limit progress (entryLine entry ++ rest) =
      .ok (⟨wrap (inner.add (valueItems [entry])), progress.path⟩, rest) := by
  obtain ⟨key, tree⟩ := entry
  have htext : entryLine (key, tree) ++ rest =
      keyText key.toList ++ ' ' :: '=' :: ' ' :: (inlineText tree ++ '\n' :: rest) := by
    simp [entryLine]
  have hends : EndsValue ('\n' :: rest) := by
    rintro c ⟨⟩
    decide
  have hread := key_keyText hlimit key (skipBlanks_keyText key.toList _)
    (endsKey_equals (' ' :: (inlineText tree ++ '\n' :: rest)))
  have hskip : skipBlanks (' ' :: '=' :: ' ' :: (inlineText tree ++ '\n' :: rest)) =
      '=' :: ' ' :: (inlineText tree ++ '\n' :: rest) := rfl
  have hequals := equalsSign_inlineText writable ('\n' :: rest)
  have hvalue := @value_inlineText limit hlimit tree writable distinct
    (fuelFor (inlineText tree ++ '\n' :: rest)) limit ('\n' :: rest) hdepth
    (by simp only [fuelFor, List.length_append]; omega) hends
  have hadd := update_of_reaches h
    (Table.addEntry_ok hkey hdotted (some progress.path) (.value (kindOf tree) tree)) []
  have hchange : progress.root.update .header
      (Table.addValue .dotted (some progress.path) [] key (.value (kindOf tree) tree)) []
      progress.path = .ok (wrap (inner.add (valueItems [(key, tree)]))) := by
    have hvalue : Table.addValue .dotted (some progress.path) [] key (.value (kindOf tree) tree) =
        Table.addEntry false (some progress.path) key (.value (kindOf tree) tree) := by
      funext table
      rw [Table.addValue, Table.update]
      rfl
    rw [hvalue]
    exact hadd
  rw [htext, keyLine, hread]
  simp only [required_ok, ok_bind, hskip, hequals, hvalue, lineEnd_newline, causeAt_ok,
    hchange]

theorem endsKey_close (rest : List Char) : EndsKey (']' :: rest) :=
  ⟨stops_cons (by decide), by simp [skipBlanks, isBlank]⟩

theorem closeHeader_table (rest : List Char) : closeHeader "]" (']' :: '\n' :: rest) = .ok rest := by
  have hbracket : "]".toList = [']'] := by decide
  simp only [closeHeader, hbracket]
  rfl

theorem closeHeader_element (rest : List Char) :
    closeHeader "]]" (']' :: ']' :: '\n' :: rest) = .ok rest := by
  have hbracket : "]]".toList = [']', ']'] := by decide
  simp only [closeHeader, hbracket]
  rfl

/-- A line of a header adds to the table that the path before its last key reaches. -/
theorem headerOf_pathText {path : List String} {key : String}
    (h : Reaches path inner progress.root wrap) (hpath : path.length < limit)
    {add : List String → String → Table → Except Cause Table} {next : Table}
    (hadd : add path key inner = .ok next) {brackets : String} {close rest : List Char}
    (hclose : closeHeader brackets close = .ok rest) (hends : EndsKey close)
    (hblank : skipBlanks close = close) (start : List Char) :
    headerOf limit brackets add progress start (pathText (path ++ [key]) ++ close) =
      .ok (⟨wrap next, path ++ [key]⟩, rest) := by
  have hread := key_pathText path key hpath (skipBlanks_pathText path key close) hends
  have hchange := update_of_reaches h hadd []
  rw [headerOf, hread, hblank]
  simp only [required_ok, ok_bind, hclose, causeAt_ok, hchange]

theorem headerLine_table {path : List String} {key : String}
    (h : Reaches path inner progress.root wrap) (hpath : path.length < limit)
    (hkey : key ∉ Entries.keys inner.entries) (rest : List Char) :
    headerLine limit progress (headerLineText (path ++ [key]) false ++ rest) =
      .ok (⟨wrap (inner.put key (.table .empty)), path ++ [key]⟩, rest) := by
  have htext : headerLineText (path ++ [key]) false ++ rest =
      '[' :: (pathText (path ++ [key]) ++ ']' :: '\n' :: rest) := by simp [headerLineText]
  have hread := headerOf_pathText h hpath (Table.addTable_ok hkey path) (closeHeader_table rest)
    (endsKey_close _) rfl ('[' :: (pathText (path ++ [key]) ++ ']' :: '\n' :: rest))
  obtain ⟨c, u, hcons, hc⟩ := pathText_eq_cons path key
  have hbracket : c ≠ '[' := by
    rintro rfl
    exact hc (by decide)
  rw [htext]
  rw [hcons, List.cons_append] at hread ⊢
  unfold headerLine
  split
  · next heq => exact absurd (List.cons.inj (List.cons.inj heq).2).1 hbracket
  · next heq =>
    obtain ⟨rfl, rfl⟩ := List.cons.inj (List.cons.inj heq).2
    rw [hread]
    rfl
  · next hnone => exact absurd rfl (hnone c _)

theorem headerLine_element {path : List String} {key : String}
    (h : Reaches path inner progress.root wrap) (hpath : path.length < limit) {next : Table}
    (hadd : Table.addElement path key inner = .ok next) (rest : List Char) :
    headerLine limit progress (headerLineText (path ++ [key]) true ++ rest) =
      .ok (⟨wrap next, path ++ [key]⟩, rest) := by
  have htext : headerLineText (path ++ [key]) true ++ rest =
      '[' :: '[' :: (pathText (path ++ [key]) ++ ']' :: ']' :: '\n' :: rest) := by
    simp [headerLineText]
  have hread := headerOf_pathText h hpath hadd (closeHeader_element rest) (endsKey_close _) rfl
    ('[' :: '[' :: (pathText (path ++ [key]) ++ ']' :: ']' :: '\n' :: rest))
  rw [htext]
  unfold headerLine
  simp only [hread]
  rfl

end Lines

/-! ## Texts -/

/-- A text that starts neither with a blank nor with the byte order mark. -/
def Begins (text : List Char) : Prop := ∀ c, text.head? = some c → isBlank c = false ∧ c ≠ '\ufeff'

theorem begins_nil : Begins [] := by
  rintro c ⟨⟩

theorem Begins.skipBlanks {text : List Char} (h : Begins text) : skipBlanks text = text :=
  dropWhile_stop fun c hc => (h c hc).1

/-- The reader comes from one progress to another by a text, whatever follows it. -/
structure Reads (limit : Nat) (before : Progress) (text : List Char) (after : Progress) : Prop where
  begins : ∀ {rest}, Begins rest → Begins (text ++ rest)
  leads : ∀ {rest fuel}, Begins rest → (text ++ rest).length < fuel →
    ∃ fuel', rest.length < fuel' ∧
      lines limit fuel before (text ++ rest) = lines limit fuel' after rest

section Reads

variable {limit : Nat} {before between after : Progress}

theorem Reads.refl (progress : Progress) : Reads limit progress [] progress where
  begins h := h
  leads := fun _ hfuel => ⟨_, hfuel, rfl⟩

theorem Reads.trans {text more : List Char} (h : Reads limit before text between)
    (hmore : Reads limit between more after) : Reads limit before (text ++ more) after where
  begins hrest := by
    rw [List.append_assoc]
    exact h.begins (hmore.begins hrest)
  leads := by
    intro rest fuel hrest hfuel
    rw [List.append_assoc] at hfuel ⊢
    obtain ⟨between, hbetween, hlines⟩ := h.leads (hmore.begins hrest) hfuel
    obtain ⟨after, hafter, hlines'⟩ := hmore.leads hrest hbetween
    exact ⟨after, hafter, hlines.trans hlines'⟩

/-- One line, which the reader takes by its first character. -/
theorem reads_line {c : Char} {u : List Char} (hc : isBlank c = false ∧ c ≠ '\ufeff')
    (h : ∀ fuel rest, lines limit (fuel + 1) before (c :: u ++ rest) =
      lines limit fuel after (skipBlanks rest)) : Reads limit before (c :: u) after where
  begins := by
    rintro rest - d ⟨⟩
    exact hc
  leads := by
    intro rest fuel hrest hfuel
    obtain ⟨fuel, rfl⟩ := Nat.exists_eq_add_one_of_ne_zero (Nat.ne_of_gt (Nat.zero_lt_of_lt hfuel))
    refine ⟨fuel, ?_, ?_⟩
    · simp only [List.cons_append, List.length_cons, List.length_append] at hfuel
      omega
    · rw [h, hrest.skipBlanks]

theorem reads_newline (progress : Progress) : Reads limit progress ['\n'] progress :=
  reads_line (by decide) fun _ _ => rfl

theorem reads_keyLine {text : List Char} (hstart : ∃ c u, text = c :: u ∧ c ∉ keyBreaks)
    (h : ∀ rest, keyLine limit before (text ++ rest) = .ok (after, rest)) :
    Reads limit before text after := by
  obtain ⟨c, u, rfl, hc⟩ := hstart
  simp only [keyBreaks, List.mem_cons, List.not_mem_nil, or_false, not_or] at hc
  obtain ⟨hspace, htab, hcomment, hbracket, hnew, hreturn, hmark⟩ := hc
  apply reads_line ⟨by simp [isBlank, hspace, htab], hmark⟩
  intro fuel rest
  have hline := h rest
  rw [List.cons_append] at hline ⊢
  rw [lines, if_neg hcomment, if_neg hbracket, if_neg hnew, if_neg hreturn, hline]
  rfl

theorem reads_headerLine {u : List Char}
    (h : ∀ rest, headerLine limit before ('[' :: u ++ rest) = .ok (after, rest)) :
    Reads limit before ('[' :: u) after := by
  apply reads_line (by decide)
  intro fuel rest
  have hline := h rest
  rw [List.cons_append] at hline ⊢
  rw [lines, if_neg (by decide), if_pos rfl, hline]
  rfl

/-! ## Sections -/

/-- The reader comes from one progress to another by some texts, one after the other. -/
inductive ReadsAll (limit : Nat) : Progress → List (List Char) → Progress → Prop where
  | nil (progress : Progress) : ReadsAll limit progress [] progress
  | cons {before between after : Progress} {text : List Char} {texts : List (List Char)} :
    Reads limit before text between → ReadsAll limit between texts after →
    ReadsAll limit before (text :: texts) after

theorem ReadsAll.append {texts more : List (List Char)} (h : ReadsAll limit before texts between)
    (hmore : ReadsAll limit between more after) : ReadsAll limit before (texts ++ more) after := by
  induction h with
  | nil progress => exact hmore
  | cons hread _ ih => exact .cons hread (ih hmore)

theorem ReadsAll.single {text : List Char} (h : Reads limit before text after) :
    ReadsAll limit before [text] after := .cons h (.nil after)

/-- Texts are read with empty lines between them. -/
theorem reads_intercalate {texts : List (List Char)} (h : ReadsAll limit before texts after) :
    Reads limit before (['\n'].intercalate texts) after := by
  induction h with
  | nil progress => exact .refl progress
  | @cons before between after text texts hread hall ih =>
    cases texts with
    | nil =>
      cases hall
      simpa [List.intercalate] using hread
    | cons next texts =>
      have hmore := hread.trans ((reads_newline between).trans ih)
      simpa [List.intercalate] using hmore

end Reads

/-- A document is read as the table that its text leads to. -/
theorem readTreeWithin_reads {limit : Nat} {text : List Char} {after : Progress}
    (h : Reads limit ⟨.empty, []⟩ text after) : readTreeWithin limit text = .ok after.root.tree := by
  have hbegins := h.begins begins_nil
  rw [List.append_nil] at hbegins
  have hmark : afterMark text = text := by
    unfold afterMark
    split
    · exact absurd rfl (hbegins _ rfl).2
    · rfl
  have hfuel : (text ++ []).length < text.length + 1 := by simp
  obtain ⟨fuel, hpos, hlines⟩ := h.leads begins_nil hfuel
  obtain ⟨fuel, rfl⟩ := Nat.exists_eq_add_one_of_ne_zero (Nat.ne_of_gt hpos)
  rw [List.append_nil] at hlines
  rw [readTreeWithin, hmark, hbegins.skipBlanks]
  simp only [hlines]
  rfl

end CssBuild.Toml
