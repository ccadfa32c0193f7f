import Mathlib.Tactic

/-!
# A loop that stops at the first failure

`loop step l s` runs `step` over `l` from the state `s` until a step reports a failure, and keeps the state
that step leaves.
-/

namespace CloakCoin.Lib

variable {α σ : Type*} {step : α → σ → Bool × σ}

def loop (step : α → σ → Bool × σ) : List α → σ → Bool × σ
  | [], s => (true, s)
  | a :: l, s =>
    match step a s with
    | (false, s) => (false, s)
    | (true, s) => loop step l s

theorem loop_rel {τ : Type*} {step' : α → τ → Bool × τ} {R : σ → τ → Prop}
    (h : ∀ a s t, R s t → (step a s).1 = (step' a t).1 ∧ R (step a s).2 (step' a t).2) (l : List α) {s : σ} {t : τ}
    (hR : R s t) : (loop step l s).1 = (loop step' l t).1 ∧ R (loop step l s).2 (loop step' l t).2 := by
  induction l generalizing s t with
  | nil => exact ⟨rfl, hR⟩
  | cons a l ih =>
    obtain ⟨hf, hs⟩ := h a s t hR
    rw [loop, loop]
    generalize step a s = r at hf hs ⊢
    generalize step' a t = r' at hf hs ⊢
    obtain ⟨ok, s⟩ := r
    obtain ⟨ok', t⟩ := r'
    subst hf
    cases ok with
    | false => exact ⟨rfl, hs⟩
    | true => exact ih hs

/-! ## Stopping at the first success -/

/-- The members up to the first one with `p`, which is the last. -/
def takeUntil (p : α → Bool) : List α → List α
  | [] => []
  | a :: l => if p a then [a] else a :: takeUntil p l

theorem takeUntil_append (p : α → Bool) (l l' : List α) :
    takeUntil p (l ++ l') = takeUntil p l ++ if l.any p then [] else takeUntil p l' := by
  induction l with
  | nil => rfl
  | cons a l ih =>
    rw [List.cons_append, takeUntil, takeUntil, List.any_cons]
    cases p a with
    | true => rfl
    | false => simp [ih]

end CloakCoin.Lib
