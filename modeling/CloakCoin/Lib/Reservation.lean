import Mathlib.Tactic

/-!
# Reservations

A set of flags on resources, kept for holders that each hold some of the resources. The flags are exact
when a resource is flagged if and only if it is held, and by one holder (`Exact`).
-/

namespace CloakCoin.Lib

/-- Which resources are flagged, and who holds what. -/
structure Reservation (ι κ : Type*) where
  reserved : κ → Prop
  holds : ι → κ → Prop

namespace Reservation

variable {ι κ : Type*} {L L' : Reservation ι κ}

structure Exact (L : Reservation ι κ) : Prop where
  reserved_iff : ∀ c, L.reserved c ↔ ∃ i, L.holds i c
  unique : ∀ {i j c}, L.holds i c → L.holds j c → i = j

theorem Exact.existsUnique (h : Exact L) (c : κ) : L.reserved c ↔ ∃! i, L.holds i c := by
  rw [h.reserved_iff]
  constructor
  · rintro ⟨i, hi⟩
    exact ⟨i, hi, fun j hj => h.unique hj hi⟩
  · rintro ⟨i, hi, -⟩
    exact ⟨i, hi⟩

theorem Exact.congr (h : Exact L) (hr : ∀ c, L'.reserved c ↔ L.reserved c)
    (hh : ∀ i c, L'.holds i c ↔ L.holds i c) : Exact L' where
  reserved_iff c := by
    rw [hr, h.reserved_iff]
    exact exists_congr fun i => (hh i c).symm
  unique hi hj := h.unique ((hh _ _).mp hi) ((hh _ _).mp hj)

theorem Exact.open (h : Exact L) {i : ι} {S : κ → Prop} (hf : ∀ c, S c → ¬L.reserved c) (hne : ∀ c, ¬L.holds i c)
    (hre : ∀ c, L'.reserved c ↔ S c ∨ L.reserved c) (ho : ∀ c, L'.holds i c ↔ S c)
    (hr : ∀ j c, j ≠ i → (L'.holds j c ↔ L.holds j c)) : Exact L' where
  reserved_iff c := by
    rw [hre, h.reserved_iff]
    constructor
    · rintro (hS | ⟨j, hj⟩)
      · exact ⟨i, (ho c).mpr hS⟩
      · have hji : j ≠ i := fun e => hne c (e ▸ hj)
        exact ⟨j, (hr j c hji).mpr hj⟩
    · rintro ⟨j, hj⟩
      by_cases hji : j = i
      · subst hji
        exact .inl ((ho c).mp hj)
      · exact .inr ⟨j, (hr j c hji).mp hj⟩
  unique := by
    intro j k c hj hk
    have hn : ∀ {l}, l ≠ i → L'.holds l c → ¬S c := fun hl hl' hS =>
      hf c hS ((h.reserved_iff c).mpr ⟨_, (hr _ c hl).mp hl'⟩)
    by_cases hji : j = i <;> by_cases hki : k = i
    · rw [hji, hki]
    · subst hji
      exact absurd ((ho c).mp hj) (hn hki hk)
    · subst hki
      exact absurd ((ho c).mp hk) (hn hji hj)
    · exact h.unique ((hr j c hji).mp hj) ((hr k c hki).mp hk)

theorem Exact.close (h : Exact L) {i : ι} (hre : ∀ c, L'.reserved c ↔ L.reserved c ∧ ¬L.holds i c)
    (hg : ∀ c, ¬L'.holds i c) (hr : ∀ j c, j ≠ i → (L'.holds j c ↔ L.holds j c)) : Exact L' where
  reserved_iff c := by
    rw [hre, h.reserved_iff]
    constructor
    · rintro ⟨⟨j, hj⟩, hn⟩
      have hji : j ≠ i := fun e => hn (e ▸ hj)
      exact ⟨j, (hr j c hji).mpr hj⟩
    · rintro ⟨j, hj⟩
      have hji : j ≠ i := fun e => hg c (e ▸ hj)
      have hj' := (hr j c hji).mp hj
      exact ⟨⟨j, hj'⟩, fun hi => hji (h.unique hj' hi)⟩
  unique := by
    intro j k c hj hk
    have hji : j ≠ i := fun e => hg c (e ▸ hj)
    have hki : k ≠ i := fun e => hg c (e ▸ hk)
    exact h.unique ((hr j c hji).mp hj) ((hr k c hki).mp hk)

theorem Exact.rename (h : Exact L) (i i' : ι) (hn : ∀ c, ¬L.holds i' c) (hr : ∀ c, L'.reserved c ↔ L.reserved c)
    (ho : ∀ c, L'.holds i' c ↔ L.holds i c) (hg : i ≠ i' → ∀ c, ¬L'.holds i c)
    (hre : ∀ j c, j ≠ i → j ≠ i' → (L'.holds j c ↔ L.holds j c)) : Exact L' := by
  have hold : ∀ {j c}, L'.holds j c → (j = i' ∧ L.holds i c) ∨ (j ≠ i' ∧ j ≠ i ∧ L.holds j c) := by
    intro j c hj
    by_cases hji' : j = i'
    · subst hji'
      exact .inl ⟨rfl, (ho c).mp hj⟩
    have hji : j ≠ i := by
      rintro rfl
      exact hg hji' c hj
    exact .inr ⟨hji', hji, (hre j c hji hji').mp hj⟩
  refine ⟨fun c => ?_, fun {j k c} hj hk => ?_⟩
  · rw [hr, h.reserved_iff]
    constructor
    · rintro ⟨j, hj⟩
      by_cases hji : j = i
      · exact ⟨i', (ho c).mpr (hji ▸ hj)⟩
      · have hji' : j ≠ i' := fun e => hn c (e ▸ hj)
        exact ⟨j, (hre j c hji hji').mpr hj⟩
    · rintro ⟨j, hj⟩
      rcases hold hj with ⟨-, hi⟩ | ⟨-, -, hj⟩
      · exact ⟨i, hi⟩
      · exact ⟨j, hj⟩
  · rcases hold hj with ⟨hj', hi⟩ | ⟨-, hji, hj⟩ <;> rcases hold hk with ⟨hk', hi'⟩ | ⟨-, hki, hk⟩
    · rw [hj', hk']
    · exact absurd (h.unique hk hi) hki
    · exact absurd (h.unique hj hi') hji
    · exact h.unique hj hk

end Reservation

end CloakCoin.Lib
