/-!
# CssBuild.Proofs.Results

Stages that can fail.

A stage after another one succeeds when both of them do; these lemmas take a
successful run apart stage by stage and put it together again.
-/

namespace CssBuild

variable {ε α β : Type}

theorem bind_eq_ok {result : Except ε α} {next : α → Except ε β} {found : β} :
    (result >>= next) = .ok found ↔ ∃ first, result = .ok first ∧ next first = .ok found := by
  cases result with
  | error e => simp [bind, Except.bind]
  | ok first => simp [bind, Except.bind]

theorem map_eq_ok {result : Except ε α} {f : α → β} {found : β} :
    result.map f = .ok found ↔ ∃ first, result = .ok first ∧ f first = found := by
  cases result with
  | error e => simp [Except.map]
  | ok first => simp [Except.map]

theorem mapError_eq_ok {δ : Type} {result : Except ε α} {f : ε → δ} {found : α} :
    result.mapError f = .ok found ↔ result = .ok found := by
  cases result with
  | error e => constructor <;> (intro h; cases h)
  | ok first => constructor <;> (intro h; cases h; rfl)

@[simp] theorem ok_bind (first : α) (next : α → Except ε β) :
    ((.ok first : Except ε α) >>= next) = next first := rfl

@[simp] theorem ok_map (first : α) (f : α → β) :
    (.ok first : Except ε α).map f = .ok (f first) := rfl

theorem map_bind {γ : Type} (result : Except ε α) (next : α → Except ε β) (f : β → γ) :
    (result >>= next).map f = result >>= fun first => (next first).map f := by
  cases result <;> rfl

/-- What follows a stage matters only for what the stage can give. -/
theorem bind_congr_ok {result : Except ε α} {next other : α → Except ε β}
    (h : ∀ first, result = .ok first → next first = other first) :
    (result >>= next) = (result >>= other) := by
  cases result with
  | error e => rfl
  | ok first => exact h first rfl

end CssBuild
