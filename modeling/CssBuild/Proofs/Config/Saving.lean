import CssBuild.Config.Stored
import CssBuild.Proofs.Files.Writing

/-!
# CssBuild.Proofs.Config.Saving

What saving a configuration does to a file system.

1. A configuration that cannot be written, because of the extension of the path
   or of its own content, leaves the file system as it is. Otherwise only the
   file system can refuse (`save_error`).
2. Where nothing is refused, the path leads to a file with the text of the
   configuration, all directories above it are there, and nothing else is
   changed (`saved_of_save`).
-/

namespace CssBuild.Config

/-- What a saved configuration leaves behind, its file at a place. -/
structure Saved (before : FileSystem) (config : Config) (path : Path) (after : FileSystem)
    (target : Place) : Prop where
  /-- The path leads to the text of the configuration in the format of the path. -/
  written : ∃ format text, Format.ofPath path = .ok format ∧ format.write config = .ok text ∧
    after.find path = .ok (target, .file text.toUTF8)
  /-- Every directory above the path is there. -/
  above : ∀ parent, path.Above parent → after.isDirectory parent = true
  /-- No other file is new, changed or gone. -/
  files : ∀ place, place ≠ target → ∀ bytes,
    after.occupant? place = some (.file bytes) ↔ before.occupant? place = some (.file bytes)
  /-- Directories stay, and nothing becomes empty. -/
  larger : before.Extends after
  /-- Only directories above the path are new. -/
  added : ∀ place, after.occupant? place = some .directory →
    before.occupant? place = some .directory ∨
      ∃ parent entries, path.Above parent ∧ after.find parent = .ok (place, .directory entries)

section Frame

variable {paths : Path → Prop} {before made after : FileSystem} {target : Place} {bytes : ByteArray}

/-- After directories were made and a file was written, the other files are those that there
were. -/
theorem files_of_puts (hgrows : before.Grows paths made)
    (hputs : made.Puts target (.file bytes) after) (place : Place) (hne : place ≠ target)
    (found : ByteArray) :
    after.occupant? place = some (.file found) ↔ before.occupant? place = some (.file found) := by
  rw [hputs.occupants, if_neg hne]
  refine ⟨fun hmade => ?_, hgrows.kept place _⟩
  obtain hbefore | ⟨hdirectory, -⟩ := hgrows.added place _ hmade
  · exact hbefore
  · cases hdirectory

/-- After directories were made and a file was written, only directories on the paths are new. -/
theorem directories_of_puts (hgrows : before.Grows paths made)
    (hputs : made.Puts target (.file bytes) after) {place : Place}
    (h : after.occupant? place = some .directory) :
    before.occupant? place = some .directory ∨
      ∃ path entries, paths path ∧ after.find path = .ok (place, .directory entries) := by
  rw [hputs.occupants] at h
  split at h
  · cases h
  · obtain hbefore | ⟨-, path, entries, hpath, hfind⟩ := hgrows.added place _ h
    · exact .inl hbefore
    · obtain ⟨entries', hfind'⟩ := hputs.toExtends.find_directory hfind
      exact .inr ⟨path, entries', hpath, hfind'⟩

end Frame

/-- Making the directories above a path is refused by the file system alone. -/
theorem makeAbove_spec {fs made : FileSystem} {path : Path} {refused? : Option ConfigError}
    (h : makeAbove fs path = (made, refused?)) :
    fs.Grows path.Above made ∧ ∀ e, refused? = some e → ∃ parent message, e = .io parent message := by
  unfold makeAbove at h
  split at h
  · obtain ⟨rfl, rfl⟩ := Prod.mk.inj h
    exact ⟨.refl _ _, fun _ he => by cases he⟩
  · next parent hparent =>
    obtain ⟨hparent, hnamed⟩ := Option.filter_eq_some_iff.1 hparent
    have hnamed' : parent.text ≠ "" := by simpa using hnamed
    cases hmake : fs.makeAll parent with
    | mk made' reason? =>
      rw [hmake] at h
      obtain ⟨rfl, rfl⟩ := Prod.mk.inj h
      constructor
      · exact (FileSystem.makeDirectories_spec (Nat.lt_succ_self _) hmake).1.mono
          fun other hother => hother.above hparent hnamed'
      · intro e he
        obtain ⟨reason, -, rfl⟩ := Option.map_eq_some_iff.1 he
        exact ⟨parent, reason.message, rfl⟩

/-- What is written is written before the file system is touched, so a failure is a refusal of the
file system or changes nothing. -/
theorem save_error {fs changed : FileSystem} {config : Config} {path : Path} {e : ConfigError}
    (h : save fs config path = (changed, .error e)) :
    changed = fs ∨ ∃ place message, e = .io place message := by
  unfold save at h
  split at h
  · exact .inl (Prod.mk.inj h).1.symm
  · split at h
    · next refused hmake =>
      obtain ⟨-, hrefused⟩ := Prod.mk.inj h
      obtain ⟨place, message, he⟩ := (makeAbove_spec hmake).2 _ rfl
      exact .inr ⟨place, message, (Except.error.inj hrefused).symm.trans he⟩
    · split at h
      · cases (Prod.mk.inj h).2
      · next reason _ =>
        exact .inr ⟨path, reason.message, (Except.error.inj (Prod.mk.inj h).2).symm⟩

/-- A configuration that is saved stands in its file, and nothing else is changed. -/
theorem saved_of_save {fs changed : FileSystem} {config : Config} {path : Path}
    (h : save fs config path = (changed, .ok ())) : ∃ target, Saved fs config path changed target := by
  unfold save at h
  split at h
  · cases (Prod.mk.inj h).2
  · next text htext =>
    obtain ⟨format, hformat, hwrite⟩ := bind_eq_ok.1 htext
    split at h
    · cases (Prod.mk.inj h).2
    · next made hmake =>
      split at h
      · next written hwritten =>
        obtain rfl := (Prod.mk.inj h).1
        have hgrows := (makeAbove_spec hmake).1
        obtain ⟨target, hputs, hfind⟩ := FileSystem.writeBytes_spec hwritten
        refine ⟨target, ⟨format, text, hformat, hwrite, hfind⟩, fun parent hparent => ?_,
          files_of_puts hgrows hputs, hgrows.toExtends.trans hputs.toExtends,
          fun place => directories_of_puts hgrows hputs⟩
        obtain ⟨place, entries, hfound⟩ := FileSystem.exists_find_above hparent hfind
        rw [FileSystem.isDirectory, hfound]
      · cases (Prod.mk.inj h).2

end CssBuild.Config
