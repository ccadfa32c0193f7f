import Mathlib.Tactic

/-!
# Finite maps laid over functions

`overlay m f` looks a key up in the finite map `m` first and in `f` otherwise: the view of a set of
pending changes over the state they will be written to.
-/

namespace CloakCoin.Lib

open Std (ExtTreeMap)
open List

section
variable {κ β : Type} {cmp : κ → κ → Ordering} [Std.TransCmp cmp]

/-! ## Other keys -/

variable (m : ExtTreeMap κ β cmp)

theorem getElem?_insert_ne [Std.LawfulEqCmp cmp] {k k' : κ} (h : k' ≠ k) (v : β) : (m.insert k v)[k']? = m[k']? := by
  rw [ExtTreeMap.getElem?_insert, if_neg fun e => h (Std.LawfulEqCmp.eq_of_compare e).symm]

theorem getElem?_erase_ne [Std.LawfulEqCmp cmp] {k k' : κ} (h : k' ≠ k) : (m.erase k)[k']? = m[k']? := by
  rw [ExtTreeMap.getElem?_erase, if_neg fun e => h (Std.LawfulEqCmp.eq_of_compare e).symm]

theorem forall_getElem?_insert [Std.LawfulEqCmp cmp] {m : ExtTreeMap κ β cmp} {P : κ → β → Prop}
    (h : ∀ (k : κ) (v : β), m[k]? = some v → P k v) {k : κ} {v : β} (hv : P k v) :
    ∀ (k' : κ) (v' : β), (m.insert k v)[k']? = some v' → P k' v' := by
  intro k' v' hg
  by_cases hk : k' = k
  · subst hk
    rw [ExtTreeMap.getElem?_insert_self, Option.some.injEq] at hg
    rw [← hg]
    exact hv
  · rw [getElem?_insert_ne m hk] at hg
    exact h k' v' hg

/-! ## Overlays -/

variable (f : κ → Option β)

def overlay (k : κ) : Option β := (m[k]?).or (f k)

theorem overlay_of_some {m : ExtTreeMap κ β cmp} {f : κ → Option β} {k : κ} {v : β} (h : m[k]? = some v) :
    overlay m f k = some v := by
  simp [overlay, h]

theorem overlay_of_none {m : ExtTreeMap κ β cmp} {f : κ → Option β} {k : κ} (h : m[k]? = none) :
    overlay m f k = f k := by
  simp [overlay, h]

theorem overlay_eq_ite (k : κ) : overlay m f k = if m.contains k then m[k]? else f k := by
  rw [Std.ExtTreeMap.contains_eq_isSome_getElem?]
  cases h : m[k]? with
  | none => exact overlay_of_none h
  | some v => exact overlay_of_some h

@[simp] theorem overlay_empty (f : κ → Option β) : overlay (∅ : ExtTreeMap κ β cmp) f = f := by
  funext k
  simp [overlay]

variable [DecidableEq κ] [Std.LawfulEqCmp cmp]

theorem overlay_insert (k : κ) (v : β) : overlay (m.insert k v) f = Function.update (overlay m f) k (some v) := by
  funext k'
  by_cases h : k' = k
  · subst h
    simp [overlay]
  · have hne : cmp k k' ≠ .eq := fun e => h (Std.LawfulEqCmp.eq_of_compare e).symm
    simp [overlay, Function.update_of_ne h, Std.ExtTreeMap.getElem?_insert, hne]

theorem foldl_write {σ : Type} {view : σ → κ → Option β} {write : σ → κ × β → σ}
    (hw : ∀ s p, view (write s p) = Function.update (view s) p.1 (some p.2)) (l : List (κ × β))
    (hnd : (l.map Prod.fst).Nodup) (s : σ) (k : κ) : (∀ v, (k, v) ∈ l → view (l.foldl write s) k = some v) ∧
      (k ∉ l.map Prod.fst → view (l.foldl write s) k = view s k) := by
  induction l generalizing s with
  | nil => simp
  | cons p l ih =>
    rw [map_cons, nodup_cons] at hnd
    obtain ⟨hp, hnd⟩ := hnd
    obtain ⟨ih1, ih2⟩ := ih hnd (write s p)
    constructor
    · intro v hv
      rcases mem_cons.mp hv with rfl | hv
      · rw [foldl_cons, ih2 hp, hw]
        simp
      · exact ih1 v hv
    · intro hk
      simp only [map_cons, mem_cons, not_or] at hk
      rw [foldl_cons, ih2 hk.2, hw, Function.update_of_ne hk.1]

theorem foldl_toList_eq_overlay {σ : Type} (view : σ → κ → Option β) {write : σ → κ × β → σ}
    (hw : ∀ s p, view (write s p) = Function.update (view s) p.1 (some p.2))
    (m : ExtTreeMap κ β cmp) (s : σ) : view (m.toList.foldl write s) = overlay m (view s) := by
  have hnd : (m.toList.map Prod.fst).Nodup := by
    rw [Std.ExtTreeMap.map_fst_toList_eq_keys]
    exact Std.ExtTreeMap.nodup_keys
  funext k
  obtain ⟨hin, ho⟩ := foldl_write hw m.toList hnd s k
  cases hk : m[k]? with
  | some v => rw [overlay_of_some hk, hin v (Std.ExtTreeMap.mem_toList_iff_getElem?_eq_some.mpr hk)]
  | none =>
    rw [overlay_of_none hk, ho]
    intro hm
    obtain ⟨p, hp, hpk⟩ := mem_map.mp hm
    have hv : m[p.1]? = some p.2 := Std.ExtTreeMap.mem_toList_iff_getElem?_eq_some.mp hp
    rw [hpk, hk] at hv
    cases hv

end
end CloakCoin.Lib
