import CssBuild.Glob.Matching
import CssBuild.Proofs.Glob.Cutting

/-!
# CssBuild.Proofs.Glob.Matching

What globs match, by what their tokens leave.

1. Tokens leave of some paths what they leave of one of them
   (`mem_tokenRests`), so a match is a chain of tokens (`mem_tokenRests_cons`).
2. A glob matches a root with a path behind it just if what follows the root
   matches that path (`Beneath.matches_iff`). Nothing but `**/` is the exception:
   behind a root it leaves only directories, on its own it leaves everything.
-/

namespace CssBuild.Glob

/-! ## Tokens one after the other -/

@[simp] theorem tokenRests_nil (paths : List Bytes) : tokenRests [] paths = paths := by
  rw [tokenRests]

theorem mem_tokenRests {tokens : List Token} {paths : List Bytes} {left : Bytes} :
    left ∈ tokenRests tokens paths ↔ ∃ path ∈ paths, left ∈ tokenRests tokens [path] := by
  induction tokens generalizing paths with
  | nil => simp
  | cons token rest ih =>
    rw [tokenRests, ih]
    simp only [tokenRests, List.flatMap_singleton, List.mem_eraseDups, List.mem_flatMap]
    constructor
    · rintro ⟨next, ⟨path, hpath, hnext⟩, hleft⟩
      exact ⟨path, hpath, ih.2 ⟨next, List.mem_eraseDups.2 hnext, hleft⟩⟩
    · rintro ⟨path, hpath, hleft⟩
      obtain ⟨next, hnext, hleft⟩ := ih.1 hleft
      exact ⟨next, ⟨path, hpath, List.mem_eraseDups.1 hnext⟩, hleft⟩

theorem mem_tokenRests_cons {token : Token} {tokens : List Token} {path left : Bytes} :
    left ∈ tokenRests (token :: tokens) [path] ↔
      ∃ next ∈ token.rests path, left ∈ tokenRests tokens [next] := by
  rw [tokenRests, mem_tokenRests]
  simp only [List.flatMap_singleton, List.mem_eraseDups]

/-! ## Single characters -/

theorem literalRests_append (expected s : Bytes) : literalRests expected (expected ++ s) = [s] := by
  induction expected with
  | nil => rfl
  | cons e es ih => rw [List.cons_append, literalRests, if_pos rfl, ih]

@[simp] theorem bytesOf_append (s more : List Char) :
    bytesOf (s ++ more) = bytesOf s ++ bytesOf more := List.flatMap_append

theorem bytesOf_cons (c : Char) (s : List Char) :
    bytesOf (c :: s) = String.utf8EncodeChar c ++ bytesOf s := rfl

theorem bytesOf_slash (s : List Char) : bytesOf ('/' :: s) = slash :: bytesOf s := rfl

theorem rests_literal (c : Char) (s : Bytes) :
    (Token.literal c).rests (String.utf8EncodeChar c ++ s) = [s] := by
  rw [Token.rests, literalRests_append]

theorem mem_tokenRests_text {text : List Char} {tokens : List Token} {path left : Bytes} :
    left ∈ tokenRests (text.map .literal ++ tokens) [bytesOf text ++ path] ↔
      left ∈ tokenRests tokens [path] := by
  induction text with
  | nil => rfl
  | cons c rest ih =>
    rw [List.map_cons, List.cons_append, mem_tokenRests_cons, bytesOf_cons, List.append_assoc,
      rests_literal]
    simpa using ih

theorem nil_mem_tails (s : Bytes) : [] ∈ tails s := by
  induction s with
  | nil => exact List.mem_cons_self
  | cons b rest ih => exact List.mem_cons_of_mem _ ih

/-! ## Matches -/

theorem matches_iff {glob : Compiled} {path : String} :
    glob.matches path = true ↔
      glob.tokens = [.leading] ∨ [] ∈ tokenRests glob.tokens [bytesOf path.toList] := by
  rw [Compiled.matches, Bool.or_eq_true, List.contains_iff_mem]
  refine or_congr_left ?_
  rw [Compiled.isEverything]
  split
  · next h => exact iff_of_true rfl h
  · next h => exact iff_of_false Bool.false_ne_true h

theorem Beneath.ne_leading {text s : List Char} {found whole : List Token}
    (h : Beneath (text.map .literal) s found whole) : whole ≠ [.leading] := by
  have hne {tokens : List Token} {token : Token} (hmem : token ∈ tokens) (hother : token ≠ .leading) :
      tokens ≠ [.leading] := fun hall => hother (List.mem_singleton.1 (hall ▸ hmem))
  cases h with
  | slash tokens _ =>
    exact hne (List.mem_append_right _ List.mem_cons_self) Token.noConfusion
  | between tokens _ =>
    exact hne (List.mem_append_right _ List.mem_cons_self) Token.noConfusion
  | trailing =>
    exact hne (List.mem_append_right _ List.mem_cons_self) Token.noConfusion

/-- A glob matches a root with a path behind it just if the glob beneath the root matches the
path. -/
theorem Beneath.matches_iff {text s : List Char} {found whole : List Token}
    (h : Beneath (text.map .literal) s found whole) (hs : onlyStars s = false) {below : String} :
    (Compiled.mk whole).matches (String.ofList (text ++ '/' :: below.toList)) = true ↔
      (Compiled.mk found).matches below = true := by
  rw [Glob.matches_iff, Glob.matches_iff, or_iff_right h.ne_leading, String.toList_ofList,
    bytesOf_append]
  cases h with
  | slash _ plain =>
    have hslash : (Token.literal '/').rests (bytesOf ('/' :: below.toList)) =
        [bytesOf below.toList] := rests_literal '/' _
    rw [mem_tokenRests_text, mem_tokenRests_cons, hslash, or_iff_right plain]
    simp only [List.mem_singleton, exists_eq_left]
  | between tokens more =>
    have hne : Token.leading :: tokens ≠ [.leading] := fun hall =>
      Bool.false_ne_true (hs.symm.trans (more (List.cons.inj hall).2))
    have hrests : Token.between.rests (bytesOf ('/' :: below.toList)) =
        Token.leading.rests (bytesOf below.toList) := by
      rw [bytesOf_slash]
      simp [Token.rests]
    rw [mem_tokenRests_text, or_iff_right hne, mem_tokenRests_cons, mem_tokenRests_cons, hrests]
  | trailing =>
    refine iff_of_true ?_ (.inl rfl)
    rw [mem_tokenRests_text, mem_tokenRests_cons, bytesOf_slash]
    refine ⟨[], ?_, by simp⟩
    simpa [Token.rests] using nil_mem_tails _

end CssBuild.Glob
