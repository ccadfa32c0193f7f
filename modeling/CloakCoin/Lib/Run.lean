import Mathlib.Tactic

/-!
# Runs of a state machine with allowed steps

`Reach step ok s₀ s`: steps `a` that `ok` allows in the state they start from lead from `s₀` to `s`.
`step a s = none` says that `a` cannot be taken. `Trace` keeps what happened on the way.
-/

namespace CloakCoin.Lib

variable {α σ : Type*} {step : α → σ → Option σ} {ok : α → σ → Prop} {s₀ s : σ}

/-- Allowed steps lead from `s₀` here. -/
inductive Reach (step : α → σ → Option σ) (ok : α → σ → Prop) (s₀ : σ) : σ → Prop
  | start : Reach step ok s₀ s₀
  | step {s s' : σ} (a : α) : Reach step ok s₀ s → ok a s → step a s = some s' → Reach step ok s₀ s'

theorem Reach.inv (h : Reach step ok s₀ s) {I : σ → Prop} (hst : I s₀)
    (hste : ∀ a s s', I s → ok a s → step a s = some s' → I s') : I s := by
  induction h with
  | start => exact hst
  | step a _ hok hs ih => exact hste a _ _ ih hok hs

theorem Reach.trans {s' : σ} (h : Reach step ok s₀ s) (h' : Reach step ok s s') : Reach step ok s₀ s' := by
  induction h' with
  | start => exact h
  | step a _ hok hs ih => exact .step a ih hok hs

/-- The same with the states and steps gone through, for steps that can always be taken. -/
inductive Trace (step : α → σ → σ) (ok : α → σ → Prop) (s₀ : σ) : List (σ × α) → σ → Prop
  | start : Trace step ok s₀ [] s₀
  | step {l : List (σ × α)} {s : σ} (a : α) : Trace step ok s₀ l s → ok a s →
    Trace step ok s₀ (l ++ [(s, a)]) (step a s)

theorem Trace.ok_of_mem {step : α → σ → σ} {l : List (σ × α)} (h : Trace step ok s₀ l s) : ∀ x ∈ l, ok x.2 x.1 := by
  induction h with
  | start => intro x hx; cases hx
  | step a _ hok ih =>
    intro x hx
    rcases List.mem_append.mp hx with hx | hx
    · exact ih x hx
    · rw [List.mem_singleton.mp hx]
      exact hok

end CloakCoin.Lib
