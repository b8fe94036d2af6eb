import CssBuild.Config.Format
import CssBuild.Proofs.Json.Reading
import CssBuild.Proofs.Json.Repeats
import CssBuild.Proofs.Script.Calls

/-!
# CssBuild.Proofs.Config.Duplicates

Repeated keys of JSON texts and of modules.

1. A text that is read writes a tree with an entry for each key that stands in
   it: a JSON text spells it, and the exported expression of a module writes it
   (`Format.writes_of_read`).
2. The document lists each key of this tree that its mapping has already, and
   keeps the last value of each key; one such key, and the text is no
   configuration (`Format.read_repeats`).
-/

namespace CssBuild

namespace Format

/-- Whether a text writes a tree, repeated keys included. -/
inductive Writes : Format → String → Json → Prop where
  | json {text : String} {tree : Json}
    (h : Json.SpellsText (Json.SpellsNumber .stepwise) tree text.toList) : Writes .json text tree
  | script {text : String} {statements : List Script.Statement} {value : Script.Expr} {tree : Json}
    (module : Script.readModule text.toList = .ok statements)
    (exports : Script.exported? statements = some value) (h : value.Writes tree) :
    Writes .script text tree

theorem writes_of_read {format : Format} (hformat : format ≠ .toml) {text : String}
    {source? : Option Path} {document : Document} (h : format.read text source? = .ok document) :
    ∃ tree, format.Writes text tree ∧ document = .ofTree tree := by
  cases format with
  | toml => exact absurd rfl hformat
  | json =>
    rw [read, Document.ofJson] at h
    split at h
    · next tree hread => exact ⟨tree, .json (Json.spellsText_of_readChars hread), (Except.ok.inj h).symm⟩
    · cases h
  | script =>
    rw [read, Document.ofScript] at h
    split at h
    · next tree hread =>
      obtain ⟨statements, hmodule, hvalue⟩ := bind_eq_ok.1 hread
      split at hvalue
      · next value hexports =>
        exact ⟨tree, .script hmodule hexports (Script.value_root_eq_ok.1 hvalue).1,
          (Except.ok.inj h).symm⟩
      · cases hvalue
    · cases h

/-- A document lists one path for each place where its text repeats a key, and keeps the last value
of each key in its first place. A text that repeats a key is no configuration, whatever else is
wrong with it. -/
theorem read_repeats {format : Format} (other : format ≠ .toml) {text : String}
    {source? : Option Path} {document : Document} (h : format.read text source? = .ok document) :
    ∃ tree, format.Writes text tree ∧ Json.Lists document.duplicates tree ∧
      (document.duplicates = [] ↔ ∀ position names, ¬ tree.RepeatAt position names) ∧
      tree.Keeps document.root ∧
      ∀ key rest, document.duplicates = key :: rest → ∀ options,
        Config.readText format text source? options = .error (.duplicateKey key) := by
  obtain ⟨tree, hwrites, rfl⟩ := writes_of_read other h
  have hlists := Json.lists_repeated tree
  refine ⟨tree, hwrites, hlists, hlists.eq_nil_iff, Json.keeps_merged tree, ?_⟩
  intro key rest hduplicates options
  rw [Config.readText, h, ok_bind, Schema.check, hduplicates]

/-- A key that is spelled with an escape where it comes again, and one inside the value that this
replaces. -/
theorem read_repeats_escaped :
    let text := "\x7b\"a\": \x7b\"b\": 1, \"b\": 2\x7d, \"\\u0061\": 3\x7d"
    ∃ document, read .json text none = .ok document ∧ document.duplicates = ["a.b", "a"] ∧
      ∀ options, Config.readText .json text none options = .error (.duplicateKey "a.b") := by
  intro text
  have hduplicates : (read .json text none).toOption.map Document.duplicates =
      some ["a.b", "a"] := by decide +kernel
  cases h : read .json text none with
  | error e =>
    rw [h] at hduplicates
    cases hduplicates
  | ok document =>
    rw [h] at hduplicates
    obtain ⟨_, -, -, -, -, herror⟩ := read_repeats (by decide) h
    have hpaths := Option.some.inj hduplicates
    exact ⟨document, rfl, hpaths, herror _ _ hpaths⟩

end Format

end CssBuild
