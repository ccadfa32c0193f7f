import Mathlib.Tactic

/-!
# Lists

Mapping with a function that can fail, and sums over a list.
-/

namespace CloakCoin.Lib

variable {α β : Type}

theorem mapM_getElem? {f : α → Option β} {l : List α} {ys : List β} (h : l.mapM f = some ys)
    {i : Nat} {x : α} (hi : l[i]? = some x) : ∃ y, ys[i]? = some y ∧ f x = some y := by
  induction l generalizing ys i with
  | nil => simp at hi
  | cons a rest ih =>
    rw [List.mapM_cons] at h
    obtain ⟨b, hb, h⟩ := Option.bind_eq_some_iff.mp h
    obtain ⟨bs, hbs, h⟩ := Option.bind_eq_some_iff.mp h
    cases h
    cases i with
    | zero =>
      cases hi
      exact ⟨b, rfl, hb⟩
    | succ i =>
      obtain ⟨y, hy, hf⟩ := ih hbs (by simpa using hi)
      exact ⟨y, by simpa using hy, hf⟩

theorem mapM_of_isSome {f : α → Option β} {l : List α} (h : ∀ x ∈ l, (f x).isSome = true) :
    ∃ ys, l.mapM f = some ys := by
  induction l with
  | nil => exact ⟨[], rfl⟩
  | cons a rest ih =>
    obtain ⟨b, hb⟩ := Option.isSome_iff_exists.mp (h a List.mem_cons_self)
    obtain ⟨bs, hbs⟩ := ih fun x hx => h x (List.mem_cons_of_mem a hx)
    exact ⟨b :: bs, by simp [List.mapM_cons, hb, hbs]⟩

theorem sum_map_ite_const (l : List α) (p : α → Bool) (c : Int) :
    (l.map fun x => if p x then c else 0).sum = l.countP p * c := by
  induction l with
  | nil => simp
  | cons x l ih =>
    rw [List.map_cons, List.sum_cons, ih, List.countP_cons]
    split_ifs
    · push_cast
      ring
    · simp

theorem sum_map_le_of_le (f : α → Nat) {l : List α} {n : Nat} (h : ∀ a ∈ l, f a ≤ n) :
    (l.map f).sum ≤ l.length * n := by
  simpa using List.sum_le_card_nsmul (l.map f) n (by simpa using h)

theorem eq_of_perm_of_length_le_one {l l' : List α} (h : l.Perm l') (hl : l'.length ≤ 1) : l = l' := by
  match l', hl with
  | [], _ => exact h.eq_nil
  | [a], _ => exact List.perm_singleton.mp h

end CloakCoin.Lib
