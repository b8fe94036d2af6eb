import CssBuild.Glob.Reader
import CssBuild.Proofs.Results

/-!
# CssBuild.Proofs.Glob.Steps

Reading a glob one step at a time.

1. `step` is what the reader does at one character: it gives the next state
   and the text that is left, or a fault. `Moves` lists where it can lead, and
   `step_leaves` says what holds there.
2. The reader repeats it until nothing is left (`run_cons`), and any fuel of at
   least the length of the text is enough (`readFrom_eq_run`).
-/

namespace CssBuild.Glob

/-- Where a reader stands: its state, the character before what is left, and what is left. -/
structure Progress where
  state : State
  previous : Option Char
  rest : List Char

/-! ## One step -/

/-- Reads the character `c` and what belongs to it. -/
def step (lenient : Bool) (state : State) (previous : Option Char) (c : Char) (s : List Char) :
    Except Fault Progress :=
  if c = '?' then .ok ⟨state.push .any, some c, s⟩
  else if c = '*' then
    match s with
    | '*' :: rest =>
      let (state, after) := readStars state previous rest
      .ok ⟨state, lastRead (c :: s) after, after⟩
    | _ => .ok ⟨state.push .star, some c, s⟩
  else if c = '[' ∧ !state.plainBrackets then
    match readClass s with
    | .ok (token, rest) => .ok ⟨state.push token, some ']', rest⟩
    | .error fault =>
      if lenient ∧ fault = .unclosedClass then
        .ok ⟨{ state.push (.literal c) with plainBrackets := true }, some c, s⟩
      else .error fault
  else if c = '{' then .ok ⟨state.openChoice, some c, s⟩
  else if c = '}' then state.closeChoice.map fun state => ⟨state, some c, s⟩
  else if c = ',' then .ok ⟨state.comma, some c, s⟩
  else if c = '\\' then
    match s with
    | [] => .error .danglingEscape
    | d :: rest => .ok ⟨state.push (.literal d), some d, rest⟩
  else .ok ⟨state.push (.literal c), some c, s⟩

theorem readFrom_cons (lenient : Bool) (fuel : Nat) (state : State) (previous : Option Char)
    (c : Char) (s : List Char) :
    readFrom lenient (fuel + 1) state previous (c :: s) =
      step lenient state previous c s >>= fun next =>
        readFrom lenient fuel next.state next.previous next.rest := by
  simp only [readFrom, step]
  split
  · rfl
  split
  · split
    · rfl
    · simp only [ok_bind]
  split
  · cases readClass s with
    | ok found => rfl
    | error fault =>
      by_cases hlenient : lenient ∧ fault = .unclosedClass
      · simp only [if_pos hlenient, ok_bind]
      · simp only [if_neg hlenient]
        rfl
  split
  · rfl
  split
  · cases state.closeChoice <;> rfl
  split
  · rfl
  split
  · split <;> rfl
  · rfl

/-! ## What is left -/

theorem length_classBody {first : Bool} {state : ClassState} {s : List Char}
    {found : List (Char × Char) × List Char} (h : classBody first state s = .ok found) :
    found.2.length ≤ s.length := by
  induction s generalizing first state with
  | nil => cases h
  | cons c rest ih =>
    rw [classBody] at h
    split at h
    · rw [← Except.ok.inj h]
      exact Nat.le_succ _
    · split at h
      · exact Nat.le_succ_of_le (ih h)
      · split at h
        · exact Nat.le_succ_of_le (ih h)
        · cases h

theorem length_readClass {s : List Char} {found : Token × List Char}
    (h : readClass s = .ok found) : found.2.length ≤ s.length := by
  simp only [readClass] at h
  obtain ⟨body, hbody, rfl⟩ := map_eq_ok.1 h
  have hlength := length_classBody hbody
  cases s with
  | nil => exact hlength
  | cons c rest =>
    simp only at hlength ⊢
    split at hlength
    · exact Nat.le_succ_of_le hlength
    · exact hlength

theorem length_readStars (state : State) (previous : Option Char) (s : List Char) :
    (readStars state previous s).2.length ≤ s.length := by
  delta readStars
  repeat' split
  all_goals simp

/-! ## What a step can do -/

/-- Where a step can lead from a state, at the character `c` before the text `s`. -/
inductive Moves (state : State) (previous : Option Char) (c : Char) (s : List Char) :
    Progress → Prop where
  /-- One more token; only stars are read as components at the start. -/
  | push {token : Token} {last : Char} {rest : List Char} (plain : token ≠ .leading)
      (shorter : rest.length ≤ s.length) :
      Moves state previous c s ⟨state.push token, some last, rest⟩
  /-- Two stars. -/
  | stars {rest : List Char} (one : c = '*') (two : s = '*' :: rest) :
      Moves state previous c s ⟨(readStars state previous rest).1,
        lastRead (c :: s) (readStars state previous rest).2, (readStars state previous rest).2⟩
  /-- A bracket that stands for itself, and all after it. -/
  | bracket : Moves state previous c s ⟨{ state.push (.literal c) with plainBrackets := true },
      some c, s⟩
  | openChoice : Moves state previous c s ⟨state.openChoice, some c, s⟩
  | closeChoice {closed : State} (closes : state.closeChoice = .ok closed) :
      Moves state previous c s ⟨closed, some c, s⟩
  | comma : Moves state previous c s ⟨state.comma, some c, s⟩

theorem moves_of_step {lenient : Bool} {state : State} {previous : Option Char} {c : Char}
    {s : List Char} {next : Progress} (h : step lenient state previous c s = .ok next) :
    Moves state previous c s next := by
  unfold step at h
  split at h
  · obtain rfl := Except.ok.inj h
    exact .push Token.noConfusion (Nat.le_refl _)
  split at h
  · next hstar =>
    split at h
    · obtain rfl := Except.ok.inj h
      exact .stars hstar rfl
    · obtain rfl := Except.ok.inj h
      exact .push Token.noConfusion (Nat.le_refl _)
  split at h
  · split at h
    · next hclass =>
      obtain rfl := Except.ok.inj h
      obtain ⟨_, -, hfound⟩ := map_eq_ok.1 hclass
      obtain ⟨rfl, -⟩ := Prod.mk.inj hfound
      exact .push Token.noConfusion (length_readClass hclass)
    · split at h
      · obtain rfl := Except.ok.inj h
        exact .bracket
      · cases h
  split at h
  · obtain rfl := Except.ok.inj h
    exact .openChoice
  split at h
  · obtain ⟨closed, hclosed, rfl⟩ := map_eq_ok.1 h
    exact .closeChoice hclosed
  split at h
  · obtain rfl := Except.ok.inj h
    exact .comma
  split at h
  · split at h
    · cases h
    · obtain rfl := Except.ok.inj h
      exact .push Token.noConfusion (Nat.le_succ _)
  · obtain rfl := Except.ok.inj h
    exact .push Token.noConfusion (Nat.le_refl _)

/-! ## Settled states -/

/-- The branch under way is not empty, unless it is one of a choice. -/
def Settled (state : State) : Prop := state.choices = [] → state.tokens ≠ []

section Settled

variable {state : State}

theorem settled_push (token : Token) : Settled (state.push token) := fun _ => List.cons_ne_nil _ _

theorem settled_replaceSlash (token : Token) : Settled (state.replaceSlash token) := by
  obtain ⟨tokens, choices, plain⟩ := state
  intro _
  match tokens with
  | [] => exact List.cons_ne_nil _ _
  | first :: rest => cases first <;> exact List.cons_ne_nil _ _

theorem settled_comma : Settled state.comma := by
  obtain ⟨tokens, choices, plain⟩ := state
  cases choices with
  | nil => exact settled_push _
  | cons choice outer => exact fun h => absurd h (List.cons_ne_nil _ _)

theorem settled_closeChoice {closed : State} (h : state.closeChoice = .ok closed) :
    Settled closed := by
  obtain ⟨tokens, choices, plain⟩ := state
  cases choices with
  | nil => cases h
  | cons choice outer =>
    obtain rfl := Except.ok.inj h
    exact fun _ => List.cons_ne_nil _ _

theorem settled_readStars (previous : Option Char) (s : List Char) :
    Settled (readStars state previous s).1 := by
  delta readStars
  split
  · split <;> exact settled_push _
  split
  · exact settled_push _
  split
  · exact settled_replaceSlash _
  · split
    · exact settled_replaceSlash _
    · split
      · exact settled_replaceSlash _
      · exact settled_push _

/-- A step leaves no longer a text than the one after its character, and a settled state. -/
theorem step_leaves {lenient : Bool} {previous : Option Char} {c : Char} {s : List Char}
    {next : Progress} (h : step lenient state previous c s = .ok next) :
    next.rest.length ≤ s.length ∧ Settled next.state := by
  cases moves_of_step h with
  | push _ hshorter => exact ⟨hshorter, settled_push _⟩
  | stars _ two =>
    subst two
    exact ⟨Nat.le_succ_of_le (length_readStars state previous _), settled_readStars previous _⟩
  | bracket => exact ⟨Nat.le_refl _, fun _ => List.cons_ne_nil _ _⟩
  | openChoice => exact ⟨Nat.le_refl _, fun hchoices => absurd hchoices (List.cons_ne_nil _ _)⟩
  | closeChoice hclosed => exact ⟨Nat.le_refl _, settled_closeChoice hclosed⟩
  | comma => exact ⟨Nat.le_refl _, settled_comma⟩

end Settled

/-! ## Runs -/

/-- Reads a text to its end. -/
def run (lenient : Bool) (state : State) (previous : Option Char) (s : List Char) :
    Except Fault State :=
  readFrom lenient s.length state previous s

/-- Fuel does not matter where there is enough of it. -/
theorem readFrom_eq_run {lenient : Bool} {fuel : Nat} {state : State} {previous : Option Char}
    {s : List Char} (h : s.length ≤ fuel) :
    readFrom lenient fuel state previous s = run lenient state previous s := by
  obtain ⟨bound, hbound⟩ : ∃ bound, s.length ≤ bound := ⟨_, Nat.le_refl _⟩
  induction bound generalizing fuel state previous s with
  | zero =>
    obtain rfl := List.length_eq_zero_iff.1 (Nat.le_zero.1 hbound)
    cases fuel <;> rfl
  | succ bound ih =>
    cases s with
    | nil => cases fuel <;> rfl
    | cons c rest =>
      cases fuel with
      | zero => simp at h
      | succ fuel =>
        rw [run, List.length_cons, readFrom_cons, readFrom_cons]
        refine bind_congr_ok fun next hnext => ?_
        have hshorter := (step_leaves hnext).1
        simp only [List.length_cons] at h hbound
        rw [ih (by omega) (by omega), ih (by omega) (by omega)]

@[simp] theorem run_nil (lenient : Bool) (state : State) (previous : Option Char) :
    run lenient state previous [] = .ok state := rfl

/-- A run is a step and the run from where it leads. -/
theorem run_cons (lenient : Bool) (state : State) (previous : Option Char) (c : Char)
    (s : List Char) :
    run lenient state previous (c :: s) =
      step lenient state previous c s >>= fun next =>
        run lenient next.state next.previous next.rest := by
  rw [run, List.length_cons, readFrom_cons]
  exact bind_congr_ok fun next hnext => readFrom_eq_run ((step_leaves hnext).1)

theorem settled_run {lenient : Bool} {state final : State} (hstate : Settled state)
    {previous : Option Char} {s : List Char} (h : run lenient state previous s = .ok final) :
    Settled final := by
  obtain ⟨bound, hbound⟩ : ∃ bound, s.length ≤ bound := ⟨_, Nat.le_refl _⟩
  induction bound generalizing state previous s with
  | zero =>
    obtain rfl := List.length_eq_zero_iff.1 (Nat.le_zero.1 hbound)
    exact Except.ok.inj h ▸ hstate
  | succ bound ih =>
    cases s with
    | nil => exact Except.ok.inj h ▸ hstate
    | cons c rest =>
      rw [run_cons] at h
      obtain ⟨next, hnext, hrun⟩ := bind_eq_ok.1 h
      obtain ⟨hshorter, hsettled⟩ := step_leaves hnext
      simp only [List.length_cons] at hbound
      exact ih hsettled hrun (by omega)

/-- A glob is compiled by a run that leaves no choice open. -/
theorem compileChars_eq_ok {lenient : Bool} {pattern : List Char} {glob : Compiled} :
    compileChars lenient pattern = .ok glob ↔
      ∃ state, run lenient .start none pattern = .ok state ∧ state.choices = [] ∧
        glob = ⟨state.tokens.reverse⟩ := by
  rw [compileChars, readFrom_eq_run (Nat.le_succ _), bind_eq_ok]
  refine exists_congr fun state => and_congr_right fun _ => ?_
  cases state.choices <;> simp [eq_comm]

end CssBuild.Glob
