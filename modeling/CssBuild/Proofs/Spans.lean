/-!
# CssBuild.Proofs.Spans

The run of characters at the start of a text.

A reader takes the longest run of characters of one kind. After a run the
text goes on with a character of another kind, or ends.
-/

namespace CssBuild

/-- A condition on the characters of a list is decided along the list, not over all characters. -/
instance decidableForallMem (p : Char → Prop) [DecidablePred p] (chars : List Char) :
    Decidable (∀ c ∈ chars, p c) := List.decidableBAll p chars

/-- A text does not go on with a character of a kind. -/
def Stops (p : Char → Bool) (s : List Char) : Prop := ∀ c, s.head? = some c → p c = false

section Runs

variable {p : Char → Bool} {run s : List Char}

theorem stops_nil : Stops p [] := by
  intro c hc
  cases hc

theorem stops_cons {c : Char} (h : p c = false) : Stops p (c :: s) := by
  rintro d ⟨⟩
  exact h

theorem takeWhile_run (hrun : ∀ c ∈ run, p c = true) (hs : Stops p s) :
    (run ++ s).takeWhile p = run := by
  rw [List.takeWhile_append_of_pos hrun]
  cases s with
  | nil => simp
  | cons c s => rw [List.takeWhile_cons_of_neg (by simp [hs c rfl]), List.append_nil]

theorem dropWhile_run (hrun : ∀ c ∈ run, p c = true) (hs : Stops p s) :
    (run ++ s).dropWhile p = s := by
  rw [List.dropWhile_append_of_pos hrun]
  cases s with
  | nil => rfl
  | cons c s => exact List.dropWhile_cons_of_neg (by simp [hs c rfl])

theorem dropWhile_stop (hs : Stops p s) : s.dropWhile p = s :=
  @dropWhile_run p [] s (by simp) hs

theorem stops_dropWhile (s : List Char) : Stops p (s.dropWhile p) := by
  intro c hc
  have hhead := List.head?_dropWhile_not p s
  rw [hc] at hhead
  exact hhead

end Runs

end CssBuild
