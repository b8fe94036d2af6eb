import CssBuild.Proofs.Glob.Steps

/-!
# CssBuild.Proofs.Glob.Lifting

Reading a glob with something before it.

1. A settled state reads on in the same way with more tokens before it
   (`run_lift`).
2. So does a reader at the start of a branch, but for one thing: a component
   `**` right there replaces the slash before it, or gives a token of its own
   where nothing is before it (`run_start_lift`, `run_between`, `run_leading`).
3. Only such a component gives that token (`not_led_run_start`).
-/

namespace CssBuild.Glob

/-! ## Something before the first token -/

/-- Open choices with more tokens before the outermost one. -/
def liftChoices (base : List Token) : List Open → List Open
  | [] => []
  | [choice] => [⟨choice.before ++ base, choice.branches⟩]
  | choice :: outer => choice :: liftChoices base outer

/-- A state with more tokens before everything that it has read, the last one first. -/
def lift (base : List Token) (state : State) : State :=
  match state.choices with
  | [] => ⟨state.tokens ++ base, [], state.plainBrackets⟩
  | choices => ⟨state.tokens, liftChoices base choices, state.plainBrackets⟩

section Lift

variable {base : List Token} {state : State}

@[simp] theorem plainBrackets_lift : (lift base state).plainBrackets = state.plainBrackets := by
  rw [lift]
  split <;> rfl

@[simp] theorem isEmpty_choices_lift :
    (lift base state).choices.isEmpty = state.choices.isEmpty := by
  obtain ⟨tokens, choices, plain⟩ := state
  match choices with
  | [] => rfl
  | [_] => rfl
  | _ :: _ :: _ => rfl

theorem isEmpty_tokens_lift (h : Settled state) :
    (lift base state).tokens.isEmpty = state.tokens.isEmpty := by
  obtain ⟨tokens, choices, plain⟩ := state
  match tokens, choices with
  | [], [] => exact absurd rfl (h rfl)
  | _ :: _, [] => rfl
  | _, _ :: _ => rfl

theorem lift_push (token : Token) : (lift base state).push token = lift base (state.push token) := by
  obtain ⟨tokens, choices, plain⟩ := state
  cases choices <;> rfl

theorem lift_allPlain :
    (⟨(lift base state).tokens, (lift base state).choices, true⟩ : State) =
      lift base ⟨state.tokens, state.choices, true⟩ := by
  obtain ⟨tokens, choices, plain⟩ := state
  cases choices <;> rfl

theorem lift_openChoice : (lift base state).openChoice = lift base state.openChoice := by
  obtain ⟨tokens, choices, plain⟩ := state
  cases choices <;> rfl

theorem lift_comma : (lift base state).comma = lift base state.comma := by
  obtain ⟨tokens, choices, plain⟩ := state
  match choices with
  | [] => rfl
  | [_] => rfl
  | _ :: _ :: _ => rfl

theorem lift_closeChoice :
    (lift base state).closeChoice = state.closeChoice.map (lift base) := by
  obtain ⟨tokens, choices, plain⟩ := state
  match choices with
  | [] => rfl
  | [_] => rfl
  | _ :: _ :: _ => rfl

theorem lift_twoStars : (lift base state).twoStars = lift base state.twoStars := by
  rw [State.twoStars, lift_push, lift_push, State.twoStars]

theorem lift_replaceSlash (h : Settled state) (token : Token) :
    (lift base state).replaceSlash token = lift base (state.replaceSlash token) := by
  obtain ⟨tokens, choices, plain⟩ := state
  match tokens, choices with
  | [], [] => exact absurd rfl (h rfl)
  | first :: rest, [] => cases first <;> rfl
  | [], _ :: _ => rfl
  | first :: rest, _ :: _ => cases first <;> rfl

theorem lift_readStars (h : Settled state) (previous : Option Char) (s : List Char) :
    readStars (lift base state) previous s =
      (lift base (readStars state previous s).1, (readStars state previous s).2) := by
  delta readStars
  simp only [isEmpty_tokens_lift h, isEmpty_choices_lift, lift_push, lift_twoStars,
    lift_replaceSlash h]
  repeat' split
  all_goals rfl

/-- A step does not depend on what is before a state, if what it reads of stars does not. -/
theorem step_lift (lenient : Bool) {previous previous' : Option Char} {c : Char} {s : List Char}
    (h : ∀ rest, c = '*' → s = '*' :: rest → readStars (lift base state) previous' rest =
      (lift base (readStars state previous rest).1, (readStars state previous rest).2)) :
    step lenient (lift base state) previous' c s =
      (step lenient state previous c s).map fun next =>
        ⟨lift base next.state, next.previous, next.rest⟩ := by
  simp only [step, lift_push, lift_openChoice, lift_comma, lift_closeChoice, lift_allPlain,
    plainBrackets_lift]
  split
  · rfl
  split
  · next hc =>
    split
    · rw [h _ hc rfl]
      rfl
    · rfl
  split
  · split
    · rfl
    · split <;> rfl
  split
  · rfl
  split
  · cases state.closeChoice <;> rfl
  split
  · rfl
  split
  · split <;> rfl
  · rfl

/-- A run does not depend on what is before a settled state. -/
theorem run_lift (h : Settled state) (lenient : Bool) (previous : Option Char) (s : List Char) :
    run lenient (lift base state) previous s = (run lenient state previous s).map (lift base) := by
  obtain ⟨bound, hbound⟩ : ∃ bound, s.length ≤ bound := ⟨_, Nat.le_refl _⟩
  induction bound generalizing state previous s with
  | zero =>
    obtain rfl := List.length_eq_zero_iff.1 (Nat.le_zero.1 hbound)
    rfl
  | succ bound ih =>
    cases s with
    | nil => rfl
    | cons c rest =>
      rw [run_cons, run_cons, step_lift lenient fun _ _ _ => lift_readStars h _ _, map_bind]
      cases hstep : step lenient state previous c rest with
      | error fault => rfl
      | ok next =>
        obtain ⟨hshorter, hsettled⟩ := step_leaves hstep
        simp only [List.length_cons] at hbound
        exact ih hsettled next.previous next.rest (by omega)

end Lift

theorem choices_of_lift {base : List Token} {state : State} (h : (lift base state).choices = []) :
    state.choices = [] := by
  rw [← List.isEmpty_iff, isEmpty_choices_lift] at h
  exact List.isEmpty_iff.1 h

theorem tokens_lift {base : List Token} {state : State} (h : state.choices = []) :
    (lift base state).tokens = state.tokens ++ base := by
  obtain ⟨tokens, choices, plain⟩ := state
  obtain rfl : choices = [] := h
  rfl

theorem lift_start (base : List Token) : lift base .start = ⟨base, [], false⟩ := rfl

theorem choices_lift {base : List Token} {state : State} (h : state.choices = []) :
    (lift base state).choices = [] := by
  rw [← List.isEmpty_iff, isEmpty_choices_lift, List.isEmpty_iff]
  exact h

/-! ## The start of a branch -/

/-- Whether a text starts with `**` as a component of its own. -/
def startsComponents : List Char → Bool
  | ['*', '*'] => true
  | '*' :: '*' :: '/' :: _ => true
  | _ => false

theorem startsComponents_cases {s : List Char} (h : startsComponents s = true) :
    s = ['*', '*'] ∨ ∃ rest, s = '*' :: '*' :: '/' :: rest := by
  unfold startsComponents at h
  split at h
  · exact .inl rfl
  · exact .inr ⟨_, rfl⟩
  · cases h

theorem readStars_start {s : List Char} (h : startsComponents ('*' :: '*' :: s) = false) :
    readStars .start none s = (State.start.twoStars, s) := by
  match s with
  | [] => cases h
  | c :: rest =>
    have hc : c ≠ '/' := by
      rintro rfl
      cases h
    delta readStars
    simp [State.start, hc]

theorem readStars_slash {base : List Token} (hbase : base ≠ []) {s : List Char}
    (h : startsComponents ('*' :: '*' :: s) = false) :
    readStars (lift base .start) (some '/') s = ((lift base .start).twoStars, s) := by
  match s with
  | [] => cases h
  | c :: rest =>
    have hc : c ≠ '/' := by
      rintro rfl
      cases h
    delta readStars
    simp [State.start, lift, hc, hbase]

/-- After a slash, and with something before it, a text is read as at the start, unless it starts
with a component `**`. -/
theorem run_start_lift {base : List Token} (hbase : base ≠ []) {s : List Char}
    (h : startsComponents s = false) :
    run false (lift base .start) (some '/') s = (run false .start none s).map (lift base) := by
  cases s with
  | nil => rfl
  | cons c rest =>
    have hstep : step false (lift base .start) (some '/') c rest =
        (step false .start none c rest).map fun next =>
          ⟨lift base next.state, next.previous, next.rest⟩ := by
      apply step_lift
      rintro rest rfl rfl
      rw [readStars_start h, readStars_slash hbase h, lift_twoStars]
    rw [run_cons, run_cons, hstep, map_bind]
    cases hnext : step false .start none c rest with
    | error fault => rfl
    | ok next => exact run_lift (step_leaves hnext).2 false next.previous next.rest

theorem lastRead_append (read rest : List Char) : lastRead (read ++ rest) rest = read.getLast? := by
  simp [lastRead]

theorem step_stars (state : State) (previous : Option Char) (s : List Char) :
    step false state previous '*' ('*' :: s) =
      .ok ⟨(readStars state previous s).1, lastRead ('*' :: '*' :: s) (readStars state previous s).2,
        (readStars state previous s).2⟩ := rfl

theorem run_leading (s : List Char) :
    run false .start none ('*' :: '*' :: '/' :: s) =
      run false (lift [.leading] .start) (some '/') s := by
  have hread : readStars .start none ('/' :: s) = (lift [.leading] .start, s) := rfl
  have hlast : lastRead ('*' :: '*' :: '/' :: s) s = some '/' := lastRead_append ['*', '*', '/'] s
  rw [run_cons, step_stars, hread, ok_bind, hlast]

theorem run_leading_end : run false .start none ['*', '*'] = .ok (lift [.leading] .start) := rfl

section Slash

variable {tokens : List Token} (h : tokens ≠ [])
include h

theorem readStars_between (s : List Char) :
    readStars ⟨tokens, [], false⟩ (some '/') ('/' :: s) =
      (State.replaceSlash ⟨tokens, [], false⟩ .between, s) := by
  delta readStars
  simp [h]

theorem readStars_trailing :
    readStars ⟨tokens, [], false⟩ (some '/') [] =
      (State.replaceSlash ⟨tokens, [], false⟩ .trailing, []) := by
  delta readStars
  simp [h]

theorem run_between (s : List Char) :
    run false ⟨tokens, [], false⟩ (some '/') ('*' :: '*' :: '/' :: s) =
      run false (State.replaceSlash ⟨tokens, [], false⟩ .between) (some '/') s := by
  have hlast : lastRead ('*' :: '*' :: '/' :: s) s = some '/' := lastRead_append ['*', '*', '/'] s
  rw [run_cons, step_stars, readStars_between h, ok_bind, hlast]

theorem run_trailing :
    run false ⟨tokens, [], false⟩ (some '/') ['*', '*'] =
      .ok (State.replaceSlash ⟨tokens, [], false⟩ .trailing) := by
  rw [run_cons, step_stars, readStars_trailing h, ok_bind, run_nil]

end Slash

/-! ## What a branch starts with -/

/-- The tokens before all choices under way, last first; `tokens` are those of the innermost
branch. -/
def outermost (tokens : List Token) : List Open → List Token
  | [] => tokens
  | choice :: outer => outermost choice.before outer

/-- Whether the first token of all is one for components at the start. -/
def State.Led (state : State) : Prop :=
  (outermost state.tokens state.choices).getLast? = some .leading

section Led

variable {state : State}

theorem led_of_cons {tokens : List Token} {plain : Bool} {token : Token} (hnil : tokens ≠ [])
    (h : State.Led ⟨token :: tokens, [], plain⟩) : State.Led ⟨tokens, [], plain⟩ := by
  obtain ⟨first, rest, rfl⟩ := List.exists_cons_of_ne_nil hnil
  exact h

theorem led_of_push (hsettled : Settled state) {token : Token} (h : (state.push token).Led) :
    state.Led := by
  obtain ⟨tokens, choices, plain⟩ := state
  cases choices with
  | nil => exact led_of_cons (hsettled rfl) h
  | cons choice outer => exact h

theorem led_of_replace {tokens : List Token} {choices : List Open} {plain : Bool}
    {token : Token} (htoken : token ≠ .leading) (first : Token)
    (h : State.Led ⟨token :: tokens, choices, plain⟩) :
    State.Led ⟨first :: tokens, choices, plain⟩ := by
  match choices, tokens with
  | _ :: _, _ => exact h
  | [], _ :: _ => exact h
  | [], [] => exact absurd (Option.some.inj h) htoken

theorem led_of_replaceSlash (hsettled : Settled state) {token : Token} (htoken : token ≠ .leading)
    (h : (state.replaceSlash token).Led) : state.Led := by
  obtain ⟨tokens, choices, plain⟩ := state
  match tokens, choices with
  | [], [] => exact absurd rfl (hsettled rfl)
  | [], _ :: _ => exact h
  | .leading :: _, _ => exact h
  | .trailing :: _, _ => exact h
  | .literal _ :: _, _ => exact led_of_replace htoken _ h
  | .any :: _, _ => exact led_of_replace htoken _ h
  | .star :: _, _ => exact led_of_replace htoken _ h
  | .between :: _, _ => exact led_of_replace htoken _ h
  | .oneOf _ _ :: _, _ => exact led_of_replace htoken _ h
  | .choice _ :: _, _ => exact led_of_replace htoken _ h

theorem led_of_comma (hsettled : Settled state) (h : state.comma.Led) : state.Led := by
  obtain ⟨tokens, choices, plain⟩ := state
  cases choices with
  | nil => exact led_of_push hsettled h
  | cons choice outer => exact h

theorem led_of_openChoice (h : state.openChoice.Led) : state.Led := h

theorem led_of_closeChoice {closed : State} (hclose : state.closeChoice = .ok closed)
    (h : closed.Led) : state.Led := by
  obtain ⟨tokens, choices, plain⟩ := state
  match choices with
  | [] => cases hclose
  | ⟨before, branches⟩ :: outer =>
    obtain rfl := Except.ok.inj hclose
    match before, outer with
    | _, _ :: _ => exact h
    | _ :: _, [] => exact h
    | [], [] => cases h

theorem led_of_readStars (hsettled : Settled state) (previous : Option Char) (s : List Char)
    (h : (readStars state previous s).1.Led) : state.Led := by
  delta readStars at h
  split at h
  · split at h
    · exact led_of_push hsettled h
    · exact led_of_push hsettled h
    · exact led_of_push hsettled (led_of_push (settled_push _) h)
  split at h
  · exact led_of_push hsettled (led_of_push (settled_push _) h)
  split at h
  · exact led_of_replaceSlash hsettled Token.noConfusion h
  · split at h
    · exact led_of_replaceSlash hsettled Token.noConfusion h
    · split at h
      · exact led_of_replaceSlash hsettled Token.noConfusion h
      · exact led_of_push hsettled (led_of_push (settled_push _) h)

/-- A step puts no token for components at the start of what has started already. -/
theorem led_of_step (hsettled : Settled state) {lenient : Bool} {previous : Option Char} {c : Char}
    {s : List Char} {next : Progress} (hstep : step lenient state previous c s = .ok next)
    (h : next.state.Led) : state.Led := by
  cases moves_of_step hstep with
  | push => exact led_of_push hsettled h
  | stars => exact led_of_readStars hsettled _ _ h
  | bracket => exact led_of_push hsettled h
  | openChoice => exact led_of_openChoice h
  | closeChoice hclosed => exact led_of_closeChoice hclosed h
  | comma => exact led_of_comma hsettled h

theorem led_of_run (hsettled : Settled state) {previous : Option Char} {s : List Char}
    {final : State} (hrun : run false state previous s = .ok final) (h : final.Led) :
    state.Led := by
  obtain ⟨bound, hbound⟩ : ∃ bound, s.length ≤ bound := ⟨_, Nat.le_refl _⟩
  induction bound generalizing state previous s with
  | zero =>
    obtain rfl := List.length_eq_zero_iff.1 (Nat.le_zero.1 hbound)
    exact Except.ok.inj hrun ▸ h
  | succ bound ih =>
    cases s with
    | nil => exact Except.ok.inj hrun ▸ h
    | cons c rest =>
      rw [run_cons] at hrun
      obtain ⟨next, hnext, hrest⟩ := bind_eq_ok.1 hrun
      obtain ⟨hshorter, hnextSettled⟩ := step_leaves hnext
      simp only [List.length_cons] at hbound
      exact led_of_step hsettled hnext (ih hnextSettled hrest (by omega))

end Led

theorem not_led_step_start {c : Char} {s : List Char} (h : startsComponents (c :: s) = false)
    {next : Progress} (hstep : step false .start none c s = .ok next) : ¬ next.state.Led := by
  intro hled
  cases moves_of_step hstep with
  | push hplain => exact hplain (Option.some.inj hled)
  | stars one two =>
    subst one two
    rw [readStars_start h] at hled
    cases hled
  | bracket => cases hled
  | openChoice => cases hled
  | closeChoice hclosed => cases hclosed
  | comma => cases hled

/-- A text that does not start with a component `**` has no token for components first. -/
theorem not_led_run_start {s : List Char} (h : startsComponents s = false) {final : State}
    (hrun : run false .start none s = .ok final) : ¬ final.Led := by
  cases s with
  | nil =>
    obtain rfl := Except.ok.inj hrun
    exact fun hled => nomatch hled
  | cons c rest =>
    rw [run_cons] at hrun
    obtain ⟨next, hnext, hrest⟩ := bind_eq_ok.1 hrun
    exact fun hled => not_led_step_start h hnext (led_of_run (step_leaves hnext).2 hrest hled)

end CssBuild.Glob
