import Mathlib.Data.Finset.Basic
import Mathlib.Data.List.Nodup

/-!
# Orders that respect dependencies

Items have keys and depend on keys. One ready item after the other is taken or dropped; an item that waits becomes
ready when the last key it waits for is done.
-/

namespace CloakCoin.Lib

open List

variable {α κ : Type} [DecidableEq κ]

/-- An item and the keys it still waits for. -/
structure Waiting (α κ : Type) where
  item : α
  dependsOn : Finset κ

namespace Waiting

def done (k : κ) (w : Waiting α κ) : Waiting α κ := { w with dependsOn := w.dependsOn.erase k }

variable (l : List (Waiting α κ))

def ready : List α := (l.filter fun w => decide (w.dependsOn = ∅)).map item

def blocked : List (Waiting α κ) := l.filter fun w => decide (w.dependsOn ≠ ∅)

theorem ready_append_blocked : (ready l ++ (blocked l).map item).Perm (l.map item) := by
  rw [ready, ← map_append]
  apply List.Perm.map
  have h := filter_append_perm (fun w : Waiting α κ => decide (w.dependsOn = ∅)) l
  simpa [blocked] using h

theorem mem_ready {l : List (Waiting α κ)} {x : α} (h : x ∈ ready l) : ∃ w ∈ l, w.item = x ∧ w.dependsOn = ∅ := by
  obtain ⟨w, hw, rfl⟩ := mem_map.mp h
  obtain ⟨hm, he⟩ := mem_filter.mp hw
  exact ⟨w, hm, rfl, of_decide_eq_true he⟩

theorem mem_blocked {l : List (Waiting α κ)} {w : Waiting α κ} (h : w ∈ blocked l) : w ∈ l :=
  (mem_filter.mp h).1

end Waiting

def ReadyOrder (key : α → κ) (deps : α → Finset κ) (l : List α) : Prop :=
  ∀ before x after, l = before ++ x :: after → ∀ k ∈ deps x, k ∈ before.map key

section
variable {key : α → κ} {deps : α → Finset κ}

omit [DecidableEq κ] in
theorem ReadyOrder.nil : ReadyOrder key deps [] := by
  intro before x after h
  simp at h

omit [DecidableEq κ] in
theorem ReadyOrder.append {l : List α} {x : α} (h : ReadyOrder key deps l) (hx : ∀ k ∈ deps x, k ∈ l.map key) :
    ReadyOrder key deps (l ++ [x]) := by
  intro before y after heq
  rcases eq_nil_or_concat after with rfl | ⟨rest, z, rfl⟩
  · obtain ⟨rfl, hl⟩ := append_inj' heq rfl
    cases hl
    exact hx
  · rw [concat_eq_append, ← cons_append, ← append_assoc] at heq
    obtain ⟨rfl, -⟩ := append_inj' heq rfl
    exact h before y rest rfl

omit [DecidableEq κ] in
theorem ReadyOrder.lt {l : List α} (h : ReadyOrder key deps l) (hn : (l.map key).Nodup) {i j : Nat} {p c : α}
    (hi : l[i]? = some p) (hj : l[j]? = some c) (hd : key p ∈ deps c) : i < j := by
  obtain ⟨hl, hg⟩ := List.getElem?_eq_some_iff.mp hj
  have hs : l = l.take j ++ c :: l.drop (j + 1) := by
    rw [← hg, getElem_cons_drop, take_append_drop]
  obtain ⟨p', hp', hk⟩ := mem_map.mp (h _ _ _ hs _ hd)
  obtain ⟨i', hi'⟩ := mem_iff_getElem?.mp hp'
  have hlt : i' < j := by
    have := (List.getElem?_eq_some_iff.mp hi').1
    rw [length_take] at this
    omega
  rw [getElem?_take_of_lt hlt] at hi'
  have hsa : (l.map key)[i]? = (l.map key)[i']? := by
    rw [getElem?_map, getElem?_map, hi, hi', Option.map_some, Option.map_some, hk]
  have hb : i < (l.map key).length := by
    rw [length_map]
    exact (List.getElem?_eq_some_iff.mp hi).1
  rw [(getElem?_inj hb hn).mp hsa]
  exact hlt

structure Scheduled (key : α → κ) (deps : α → Finset κ) (taken ready : List α)
    (waiting : List (Waiting α κ)) : Prop where
  nodup : ((taken ++ ready ++ waiting.map Waiting.item).map key).Nodup
  ready : ∀ x ∈ ready, ∀ k ∈ deps x, k ∈ taken.map key
  waiting : ∀ w ∈ waiting, ∀ k ∈ deps w.item, k ∈ w.dependsOn ∨ k ∈ taken.map key
  ordered : ReadyOrder key deps taken

namespace Scheduled

variable {taken ready rest : List α} {waiting : List (Waiting α κ)} {x : α}

theorem init {l : List (Waiting α κ)} (hn : ((l.map Waiting.item).map key).Nodup)
    (hd : ∀ w ∈ l, w.dependsOn = deps w.item) : Scheduled key deps [] (Waiting.ready l) (Waiting.blocked l) where
  nodup := by
    exact ((Waiting.ready_append_blocked l).map key).nodup_iff.mpr hn
  ready := by
    intro x hx k hk
    obtain ⟨w, hw, rfl, he⟩ := Waiting.mem_ready hx
    rw [← hd w hw, he] at hk
    simp at hk
  waiting := by
    intro w hw k hk
    rw [hd w (Waiting.mem_blocked hw)]
    exact .inl hk
  ordered := .nil

omit [DecidableEq κ] in
theorem drop (h : Scheduled key deps taken ready waiting) (hp : ready.Perm (x :: rest)) :
    Scheduled key deps taken rest waiting where
  nodup := by
    have hs : (taken ++ ready ++ waiting.map Waiting.item).Perm (x :: (taken ++ rest ++ waiting.map Waiting.item)) :=
      (((hp.append_left taken).trans perm_middle).append_right _)
    exact (((hs.map key).nodup_iff.mp h.nodup)).of_cons
  ready := by
    intro y hy
    exact h.ready y (hp.mem_iff.mpr (mem_cons_of_mem x hy))
  waiting := h.waiting
  ordered := h.ordered

theorem take (h : Scheduled key deps taken ready waiting) (hp : ready.Perm (x :: rest)) :
    Scheduled key deps (taken ++ [x]) (rest ++ Waiting.ready (waiting.map (Waiting.done (key x))))
      (Waiting.blocked (waiting.map (Waiting.done (key x)))) := by
  have hke : ∀ k ∈ taken.map key, k ∈ (taken ++ [x]).map key := by
    intro k hk
    rw [map_append]
    exact mem_append_left _ hk
  have hl : key x ∈ (taken ++ [x]).map key := by simp
  have hd : ∀ w ∈ waiting.map (Waiting.done (key x)), ∀ k ∈ deps w.item,
      k ∈ w.dependsOn ∨ k ∈ (taken ++ [x]).map key := by
    intro w hw k hk
    obtain ⟨w, hm, rfl⟩ := mem_map.mp hw
    by_cases hkey : k = key x
    · rw [hkey]
      exact .inr hl
    · rcases h.waiting w hm k hk with hwa | ht
      · exact .inl (Finset.mem_erase.mpr ⟨hkey, hwa⟩)
      · exact .inr (hke k ht)
  constructor
  case nodup =>
    have hi : (waiting.map (Waiting.done (key x))).map Waiting.item = waiting.map Waiting.item := by
      rw [map_map]
      rfl
    have ha := Waiting.ready_append_blocked (waiting.map (Waiting.done (key x)))
    rw [hi] at ha
    have hs : (taken ++ [x] ++ (rest ++ Waiting.ready (waiting.map (Waiting.done (key x)))) ++
        (Waiting.blocked (waiting.map (Waiting.done (key x)))).map Waiting.item).Perm
        (taken ++ ready ++ waiting.map Waiting.item) := by
      have hf : (taken ++ [x] ++ rest).Perm (taken ++ ready) := by
        rw [append_assoc, singleton_append]
        exact hp.symm.append_left taken
      simpa only [append_assoc] using hf.append ha
    exact (hs.map key).nodup_iff.mpr h.nodup
  case ready =>
    intro y hy k hk
    rcases mem_append.mp hy with hy | hy
    · exact hke k (h.ready y (hp.mem_iff.mpr (mem_cons_of_mem x hy)) k hk)
    obtain ⟨w, hw, rfl, he⟩ := Waiting.mem_ready hy
    rcases hd w hw k hk with hwa | ht
    · rw [he] at hwa
      simp at hwa
    · exact ht
  case waiting =>
    intro w hw
    exact hd w (Waiting.mem_blocked hw)
  case ordered => exact h.ordered.append (h.ready x (hp.mem_iff.mpr mem_cons_self))

end Scheduled

end

end CloakCoin.Lib
