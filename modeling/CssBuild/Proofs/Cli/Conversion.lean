import CssBuild.Cli.Run
import CssBuild.Proofs.Config.Rereading
import CssBuild.Proofs.Config.Saving

/-!
# CssBuild.Proofs.Cli.Conversion

What a conversion does to a file system.

1. A conversion saves the configuration of its input as its output, so saving
   and converting leave a file system as it is unless the file system refuses,
   and change the one file where it does not (`convert_atomic`).
2. The paths of a conversion are compared step by step. Two paths without `.`
   and `..` that start from one directory are told apart by that, and the input
   keeps its bytes. Other spellings of the input are not recognized, and the
   input is written over (`convert_source`).
-/

namespace CssBuild.Cli

variable {fs changed : FileSystem} {lenient : Bool} {input output : Path}

/-! ## The stages of a conversion -/

/-- A conversion loads its input and saves the configuration as its output, which is another
path. -/
theorem convert_eq_ok :
    (∃ line, convert fs lenient input output = (changed, .ok line)) ↔
      input.same output = false ∧ ∃ stored, Config.load fs input (loadOptions lenient) = .ok stored ∧
        Config.save fs stored.config output = (changed, .ok ()) := by
  constructor
  · rintro ⟨line, h⟩
    unfold convert at h
    split at h
    · cases (Prod.mk.inj h).2
    · next stored _ hconversion =>
      unfold conversion at hconversion
      split at hconversion
      · cases hconversion
      · next hdiffer =>
        obtain ⟨format, -, hconversion⟩ := bind_eq_ok.1 hconversion
        obtain ⟨found, hload, hconversion⟩ := bind_eq_ok.1 hconversion
        obtain ⟨rfl, -⟩ := Prod.mk.inj (Except.ok.inj hconversion)
        refine ⟨eq_false_of_ne_true hdiffer, found, mapError_eq_ok.1 hload, ?_⟩
        split at h
        · cases (Prod.mk.inj h).2
        · next hsave => rw [hsave, (Prod.mk.inj h).1]
  · rintro ⟨hdiffer, stored, hload, hsave⟩
    obtain ⟨_, ⟨format, -, hformat, -⟩, -⟩ := Config.saved_of_save hsave
    obtain ⟨line, hconversion⟩ :
        ∃ line, conversion fs lenient input output = .ok (stored, line) := by
      rw [conversion, hdiffer, hformat, hload]
      exact ⟨_, rfl⟩
    rw [convert, hconversion]
    simp only [hsave]
    exact ⟨_, rfl⟩

/-- Nothing is changed before the configuration is saved. -/
theorem convert_error {e : Error} (h : convert fs lenient input output = (changed, .error e)) :
    changed = fs ∨ ∃ place message, e = .config (.io place message) := by
  unfold convert at h
  split at h
  · exact .inl (Prod.mk.inj h).1.symm
  · split at h
    · next hsave =>
      obtain ⟨rfl, he⟩ := Prod.mk.inj h
      refine (Config.save_error hsave).imp_right ?_
      rintro ⟨place, message, rfl⟩
      exact ⟨place, message, (Except.error.inj he).symm⟩
    · cases (Prod.mk.inj h).2

/-- A configuration that is loaded stands in a file. -/
theorem exists_find_of_load {options : LoadOptions} {stored : Stored}
    (h : Config.load fs input options = .ok stored) :
    ∃ place bytes, fs.find input = .ok (place, .file bytes) := by
  obtain ⟨format, -, h⟩ := bind_eq_ok.1 h
  obtain ⟨text, htext, -⟩ := bind_eq_ok.1 h
  obtain ⟨bytes, hbytes, -⟩ := bind_eq_ok.1 (mapError_eq_ok.1 htext)
  obtain ⟨⟨place, node⟩, hfind, hnode⟩ := bind_eq_ok.1 hbytes
  cases node with
  | file found => exact ⟨place, found, hfind⟩
  | directory entries => cases hnode

/-- A file with the text of a tree is loaded as what the tree is accepted as. -/
theorem load_pretty {path : Path} {place : Place} {tree : Json} {options : LoadOptions}
    {config : Config} {warnings : List Warning} (hformat : Format.ofPath path = .ok .json)
    (hfind : fs.find path = .ok (place, .file (tree.pretty ++ "\n").toUTF8))
    (distinct : tree.Distinct) (hdepth : tree.depth ≤ Json.maxDepth) (hback : tree.ReadsBack)
    (hcheck : Schema.check options ⟨tree, []⟩ = .ok ⟨config, warnings⟩) :
    Config.load fs path options = .ok ⟨config, path, .json, warnings⟩ := by
  have htext : (fs.readText path).mapError (fun reason => reason.onPath path) =
      .ok (tree.pretty ++ "\n") := mapError_eq_ok.2 (FileSystem.readText_of_find hfind)
  rw [Config.load, hformat, ok_bind, htext, ok_bind, Config.readText, Format.read,
    Document.ofJson_pretty distinct hdepth hback, ok_bind, hcheck]
  rfl

/-! ## Saving and converting -/

/-- Saving and converting leave a file system as it is, unless the file system itself refuses. Where
nothing is refused, the output holds the configuration in the format of its path, all directories
above it are there, and no other file is new, changed or gone. -/
theorem convert_atomic :
    (∀ fs config path changed e, Config.save fs config path = (changed, .error e) →
      (∀ place message, e ≠ .io place message) → changed = fs) ∧
    (∀ fs config path changed, Config.save fs config path = (changed, .ok ()) →
      ∃ target, Config.Saved fs config path changed target) ∧
    (∀ fs lenient input output changed e, convert fs lenient input output = (changed, .error e) →
      (∀ place message, e ≠ .config (.io place message)) → changed = fs) ∧
    (∀ fs lenient input output changed line,
      convert fs lenient input output = (changed, .ok line) →
      ∃ stored target, Config.load fs input (loadOptions lenient) = .ok stored ∧
        Config.Saved fs stored.config output changed target) := by
  refine ⟨fun fs config path changed e h hio => ?_, fun fs config path changed h =>
    Config.saved_of_save h, fun fs lenient input output changed e h hio => ?_,
    fun fs lenient input output changed line h => ?_⟩
  · obtain hsame | ⟨place, message, he⟩ := Config.save_error h
    · exact hsame
    · exact absurd he (hio place message)
  · obtain hsame | ⟨place, message, he⟩ := convert_error h
    · exact hsame
    · exact absurd he (hio place message)
  · obtain ⟨-, stored, hload, hsave⟩ := convert_eq_ok.1 ⟨line, h⟩
    obtain ⟨target, hsaved⟩ := Config.saved_of_save hsave
    exact ⟨stored, target, hload, hsaved⟩

/-- Nothing is changed by an unknown extension, when saving or when converting. Otherwise the
directories above the output are made, also one that a `..` leaves again. -/
theorem convert_atomic_below :
    let tree : Json := .single "content" (.single "files" (.strings ["a"]))
    let config : Config := .scanning [⟨"a"⟩]
    let fs : FileSystem := ⟨.directory [("a.json", .file (tree.pretty ++ "\n").toUTF8)], []⟩
    (Config.save fs config ⟨"d/b.txt"⟩).1 = fs ∧
    (∃ changed target, Config.save fs config ⟨"d/b.toml"⟩ = (changed, .ok ()) ∧
      Config.Saved fs config ⟨"d/b.toml"⟩ changed target) ∧
    (convert fs false ⟨"a.json"⟩ ⟨"d/b.txt"⟩).1 = fs ∧
    (∃ changed line target, convert fs false ⟨"a.json"⟩ ⟨"d/e/../b.json"⟩ = (changed, .ok line) ∧
      Config.Saved fs config ⟨"d/e/../b.json"⟩ changed target) := by
  intro tree config fs
  have distinct : tree.Distinct := by
    simp [tree, Json.single, Json.strings, Json.Distinct, Json.DistinctEntries, Json.DistinctItems]
  have hload := @load_pretty fs ⟨"a.json"⟩ ["a.json"] tree (loadOptions false) config [] rfl rfl
    distinct (by decide) (Json.readsBack_of_numbers_nil rfl) rfl
  refine ⟨convert_atomic.1 fs config ⟨"d/b.txt"⟩ _ _ rfl (fun _ _ he => by cases he), ?_,
    convert_atomic.2.2.1 fs false ⟨"a.json"⟩ ⟨"d/b.txt"⟩ _ _ rfl (fun _ _ he => by cases he), ?_⟩
  · obtain ⟨changed, hsave⟩ : ∃ changed, Config.save fs config ⟨"d/b.toml"⟩ = (changed, .ok ()) :=
      ⟨_, rfl⟩
    obtain ⟨target, hsaved⟩ := convert_atomic.2.1 fs config _ changed hsave
    exact ⟨changed, target, hsave, hsaved⟩
  · obtain ⟨changed, hsave⟩ : ∃ changed,
        Config.save fs config ⟨"d/e/../b.json"⟩ = (changed, .ok ()) := ⟨_, rfl⟩
    obtain ⟨line, hconvert⟩ := convert_eq_ok.2 ⟨by decide, _, hload, hsave⟩
    obtain ⟨stored, target, hagain, hsaved⟩ := convert_atomic.2.2.2 _ _ _ _ _ _ hconvert
    rw [hload] at hagain
    obtain rfl := Except.ok.inj hagain
    exact ⟨changed, line, target, hconvert, hsaved⟩

/-! ## The input of a conversion -/

/-- A conversion reads a file and writes one, and these are at one place or at two. The input keeps
its bytes where there are two places, and holds what was written where there is one. Straight paths
that start from one directory lead to two places. -/
theorem convert_source {line : String} (h : convert fs lenient input output = (changed, .ok line)) :
    ∃ place bytes target text, fs.find input = .ok (place, .file bytes) ∧
      changed.find output = .ok (target, .file text) ∧
      changed.find input = .ok (place, .file (if place = target then text else bytes)) ∧
      (input.Straight → output.Straight → input.isAbsolute = output.isAbsolute →
        place ≠ target) := by
  obtain ⟨hdiffer, stored, hload, hsave⟩ := convert_eq_ok.1 ⟨line, h⟩
  obtain ⟨place, bytes, hinput⟩ := exists_find_of_load hload
  obtain ⟨target, hsaved⟩ := Config.saved_of_save hsave
  obtain ⟨format, text, -, -, houtput⟩ := hsaved.written
  obtain ⟨node, hagain⟩ := hsaved.larger.find hinput
  have hat := (FileSystem.find_eq_ok.1 hagain).2.2
  refine ⟨place, bytes, target, text.toUTF8, hinput, houtput, ?_, ?_⟩
  · have hnode : node = .file (if place = target then text.toUTF8 else bytes) := by
      split
      · next hplace =>
        rw [hplace, (FileSystem.find_eq_ok.1 houtput).2.2] at hat
        exact (Option.some.inj hat).symm
      · next hplace =>
        have hbefore := FileSystem.occupant?_eq_file.2 (FileSystem.find_eq_ok.1 hinput).2.2
        have hafter := FileSystem.occupant?_eq_file.1 ((hsaved.files place hplace bytes).2 hbefore)
        exact Option.some.inj (hat.symm.trans hafter)
    rw [hagain, hnode]
  · rintro hstraight hstraight' habsolute rfl
    have hsame := FileSystem.components_eq_of_find hstraight hstraight' habsolute hagain houtput
    rw [Path.same, hsame, beq_self_eq_true] at hdiffer
    cases hdiffer

/-- Spelled with a `.` at its start the input is written over. -/
theorem convert_source_spelled :
    let tree : Json := .single "content" (.single "files" (.strings ["a"]))
    let config : Config := .scanning [⟨"a"⟩]
    let fs : FileSystem := ⟨.directory [("a.json", .file (tree.pretty ++ "\n").toUTF8)], []⟩
    ∃ changed line, convert fs false ⟨"a.json"⟩ ⟨"./a.json"⟩ = (changed, .ok line) ∧
      changed.find ⟨"a.json"⟩ = .ok (["a.json"], .file (config.toTree.pretty ++ "\n").toUTF8) ∧
      (config.toTree.pretty ++ "\n").toUTF8 ≠ (tree.pretty ++ "\n").toUTF8 := by
  intro tree config fs
  have distinct : tree.Distinct := by
    simp [tree, Json.single, Json.strings, Json.Distinct, Json.DistinctEntries, Json.DistinctItems]
  have hload := @load_pretty fs ⟨"a.json"⟩ ["a.json"] tree (loadOptions false) config [] rfl rfl
    distinct (by decide) (Json.readsBack_of_numbers_nil rfl) rfl
  let changed := (Config.save fs config ⟨"./a.json"⟩).1
  have hsave : Config.save fs config ⟨"./a.json"⟩ = (changed, .ok ()) := rfl
  have hwritten : changed.find ⟨"./a.json"⟩ =
      .ok (["a.json"], .file (config.toTree.pretty ++ "\n").toUTF8) := rfl
  have hfind : fs.find ⟨"a.json"⟩ = .ok (["a.json"], .file (tree.pretty ++ "\n").toUTF8) := rfl
  obtain ⟨line, hconvert⟩ := convert_eq_ok.2 ⟨by decide, _, hload, hsave⟩
  obtain ⟨place, bytes, target, text, hinput, houtput, hagain, -⟩ := convert_source hconvert
  obtain ⟨rfl, -⟩ := Prod.mk.inj (Except.ok.inj (hinput.symm.trans hfind))
  obtain ⟨rfl, htext⟩ := Prod.mk.inj (Except.ok.inj (houtput.symm.trans hwritten))
  refine ⟨changed, line, hconvert, ?_, fun hsame => ?_⟩
  · rw [hagain, if_pos rfl, htext]
  · have htext := congrArg String.fromUTF8? hsame
    rw [FileSystem.fromUTF8?_toUTF8, FileSystem.fromUTF8?_toUTF8] at htext
    have hchars := congrArg String.toList (Option.some.inj htext)
    rw [String.toList_append, String.toList_append, Json.pretty, Json.pretty,
      String.toList_ofList, String.toList_ofList] at hchars
    exact absurd (List.append_cancel_right hchars) (by decide)

end CssBuild.Cli
