import Mathlib.Tactic

/-!
# Leases from a pool

A pool of free ids and holders that each have leased at most one. Every id in use has a label.
-/

namespace CloakCoin.Lib

open Function

/-- The free ids, and what each holder has leased. -/
structure Lease (κ ι : Type*) where
  free : Set ι
  held : κ → Option ι

namespace Lease

variable {κ ι ν : Type*} {l : Lease κ ι} {label : ι → Option ν} {a b : κ} {i j : ι} {k : ν}

def InUse (l : Lease κ ι) (i : ι) : Prop := i ∈ l.free ∨ ∃ a, l.held a = some i

structure Sound (l : Lease κ ι) (label : ι → Option ν) : Prop where
  apart : ∀ {a i}, l.held a = some i → i ∉ l.free
  unique : ∀ {a b i}, l.held a = some i → l.held b = some i → a = b
  labelled : ∀ {i}, l.InUse i → ∃ k, label i = some k
  distinct : ∀ {i j k}, l.InUse i → l.InUse j → label i = some k → label j = some k → i = j

theorem Sound.mono {l' : Lease κ ι} {label' : ι → Option ν} (h : Sound l label)
    (ha : ∀ {a i}, l'.held a = some i → i ∉ l'.free) (hu : ∀ {a b i}, l'.held a = some i → l'.held b = some i → a = b)
    (hs : ∀ i, l'.InUse i → l.InUse i) (hl : ∀ i, l'.InUse i → label' i = label i) : Sound l' label' where
  apart := ha
  unique := hu
  labelled {i} hi := by
    rw [hl i hi]
    exact h.labelled (hs i hi)
  distinct {i j k} hi hj hik hjk := by
    rw [hl i hi] at hik
    rw [hl j hj] at hjk
    exact h.distinct (hs i hi) (hs j hj) hik hjk

/-! ## Moves -/

def put (l : Lease κ ι) (i : ι) : Lease κ ι := { l with free := insert i l.free }

def take [DecidableEq κ] (l : Lease κ ι) (a : κ) (i : ι) : Lease κ ι :=
  ⟨l.free \ {i}, Function.update l.held a (some i)⟩

def give [DecidableEq κ] (l : Lease κ ι) (a : κ) (i : ι) : Lease κ ι := ⟨insert i l.free, Function.update l.held a none⟩

def drop [DecidableEq κ] (l : Lease κ ι) (a : κ) : Lease κ ι := { l with held := Function.update l.held a none }

def clear (l : Lease κ ι) : Lease κ ι := { l with free := ∅ }

theorem held_of_update_none [DecidableEq κ] (h : Function.update l.held a none b = some i) :
    b ≠ a ∧ l.held b = some i := by
  by_cases hb : b = a
  · rw [hb, update_self] at h
    cases h
  · rw [update_of_ne hb] at h
    exact ⟨hb, h⟩

theorem InUse.of_put (h : (l.put i).InUse j) : j = i ∨ l.InUse j := by
  rcases h with (rfl | hj) | hj
  · exact .inl rfl
  · exact .inr (.inl hj)
  · exact .inr (.inr hj)

theorem held_take [DecidableEq κ] (h : (l.take a i).held b = some j) : b = a ∧ j = i ∨ b ≠ a ∧ l.held b = some j := by
  change Function.update l.held a (some i) b = some j at h
  by_cases hba : b = a
  · rw [hba, update_self, Option.some.injEq] at h
    exact .inl ⟨hba, h.symm⟩
  · rw [update_of_ne hba] at h
    exact .inr ⟨hba, h⟩

theorem InUse.of_take [DecidableEq κ] (hi : i ∈ l.free) (h : (l.take a i).InUse j) : l.InUse j := by
  rcases h with hj | ⟨b, hb⟩
  · exact .inl hj.1
  · rcases held_take hb with ⟨-, rfl⟩ | ⟨-, hb⟩
    · exact .inl hi
    · exact .inr ⟨b, hb⟩

theorem InUse.of_give [DecidableEq κ] (hi : l.held a = some i) (h : (l.give a i).InUse j) : l.InUse j := by
  rcases h with (rfl | hj) | ⟨b, hb⟩
  · exact .inr ⟨a, hi⟩
  · exact .inl hj
  · exact .inr ⟨b, (held_of_update_none hb).2⟩

theorem InUse.of_drop [DecidableEq κ] (h : (l.drop a).InUse j) : l.InUse j := by
  rcases h with hj | ⟨b, hb⟩
  · exact .inl hj
  · exact .inr ⟨b, (held_of_update_none hb).2⟩

section
variable (h : Sound l label)
include h

theorem Sound.put [DecidableEq ι] (hf : ∀ a, l.held a ≠ some i) (hk : ∀ j, l.InUse j → label j ≠ some k) :
    Sound (l.put i) (Function.update label i (some k)) := by
  refine ⟨?_, h.unique, ?_, ?_⟩
  · rintro a j hj (rfl | hm)
    · exact hf a hj
    · exact h.apart hj hm
  · intro j hj
    by_cases hji : j = i
    · exact ⟨k, by rw [hji, update_self]⟩
    · rw [update_of_ne hji]
      exact h.labelled (hj.of_put.resolve_left hji)
  · intro j j' k' hj hj' hjk hjk'
    by_cases hji : j = i
    · by_cases hji' : j' = i
      · exact hji.trans hji'.symm
      · rw [hji, update_self] at hjk
        rw [update_of_ne hji', ← hjk] at hjk'
        exact absurd hjk' (hk j' (hj'.of_put.resolve_left hji'))
    · rw [update_of_ne hji] at hjk
      by_cases hji' : j' = i
      · rw [hji', update_self] at hjk'
        rw [← hjk'] at hjk
        exact absurd hjk (hk j (hj.of_put.resolve_left hji))
      · rw [update_of_ne hji'] at hjk'
        exact h.distinct (hj.of_put.resolve_left hji) (hj'.of_put.resolve_left hji') hjk hjk'

theorem Sound.take [DecidableEq κ] (hi : i ∈ l.free) : Sound (l.take a i) label := by
  refine h.mono ?_ ?_ (fun _ => .of_take hi) fun _ _ => rfl
  · intro b j hb hm
    rcases held_take hb with ⟨-, rfl⟩ | ⟨-, hb⟩
    · exact hm.2 rfl
    · exact h.apart hb hm.1
  · intro b c j hb hc
    rcases held_take hb with ⟨rfl, rfl⟩ | ⟨-, hb⟩
    · rcases held_take hc with ⟨rfl, -⟩ | ⟨-, hc⟩
      · rfl
      · exact absurd hi (h.apart hc)
    · rcases held_take hc with ⟨-, hj⟩ | ⟨-, hc⟩
      · exact absurd (hj ▸ hi) (h.apart hb)
      · exact h.unique hb hc

theorem Sound.give [DecidableEq κ] (hi : l.held a = some i) : Sound (l.give a i) label := by
  refine h.mono ?_ ?_ (fun _ => .of_give hi) fun _ _ => rfl
  · rintro b j hb (rfl | hm)
    · obtain ⟨hne, hb⟩ := held_of_update_none hb
      exact hne (h.unique hb hi)
    · exact h.apart (held_of_update_none hb).2 hm
  · exact fun hb hc => h.unique (held_of_update_none hb).2 (held_of_update_none hc).2

theorem Sound.ne_of_drop [DecidableEq κ] (hi : l.held a = some i) (hj : (l.drop a).InUse j) : j ≠ i := by
  rintro rfl
  rcases hj with hj | ⟨b, hb⟩
  · exact h.apart hi hj
  · obtain ⟨hba, hb⟩ := held_of_update_none hb
    exact hba (h.unique hb hi)

theorem Sound.drop [DecidableEq κ] [DecidableEq ι] (hi : l.held a = some i) :
    Sound (l.drop a) (Function.update label i none) := by
  refine h.mono (fun hb => h.apart (held_of_update_none hb).2)
    (fun hb hc => h.unique (held_of_update_none hb).2 (held_of_update_none hc).2) (fun _ => .of_drop) fun j hj => ?_
  exact update_of_ne (h.ne_of_drop hi hj) _ _

theorem Sound.clear {label' : ι → Option ν} (hl : ∀ i, i ∉ l.free → label' i = label i) : Sound l.clear label' := by
  have hh : ∀ i, l.clear.InUse i → ∃ a, l.held a = some i := fun i hi => hi.resolve_left fun hm => hm
  refine h.mono (fun _ hm => hm) h.unique (fun i hi => .inr (hh i hi)) fun i hi => ?_
  obtain ⟨a, ha⟩ := hh i hi
  exact hl i (h.apart ha)

end

end Lease

end CloakCoin.Lib
