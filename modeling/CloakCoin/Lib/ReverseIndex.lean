import Mathlib.Tactic

/-!
# Reverse index of stored lists

Lists are stored under keys, and `back` tells where an item stands: in the list of which key and at which
position. `Exact lists back` says that it does so for the items of the stored lists and for no others. It stays
exact when a list of new items is stored and when a stored list is dropped.
-/

namespace CloakCoin.Lib

open List Function

/-- A position in the list stored under a key. -/
structure Place (K : Type*) where
  key : K
  pos : Nat
  deriving DecidableEq, Repr

namespace ReverseIndex

variable {K O : Type*} {lists : K → Option (List O)} {back : O → Option (Place K)} {k : K} {l : List O} {o : O}

def Exact (lists : K → Option (List O)) (back : O → Option (Place K)) : Prop :=
  ∀ o p, back o = some p ↔ ∃ l, lists p.key = some l ∧ l[p.pos]? = some o

theorem exact_empty : Exact (fun _ : K => none) (fun _ : O => none) := fun o p => by simp

namespace Exact

section
variable (h : Exact lists back)
include h

theorem place_unique {p q : Place K} {l l' : List O} (hp : lists p.key = some l)
    (hpo : l[p.pos]? = some o) (hq : lists q.key = some l') (hqo : l'[q.pos]? = some o) : p = q := by
  have hb := (h o p).mpr ⟨l, hp, hpo⟩
  rw [(h o q).mpr ⟨l', hq, hqo⟩] at hb
  exact (Option.some.inj hb).symm

theorem isSome_iff (o : O) : (back o).isSome = true ↔ ∃ k l, lists k = some l ∧ o ∈ l := by
  rw [Option.isSome_iff_exists]
  constructor
  · rintro ⟨p, hp⟩
    obtain ⟨l, hl, ho⟩ := (h o p).mp hp
    exact ⟨p.key, l, hl, mem_of_getElem? ho⟩
  · rintro ⟨k, l, hl, ho⟩
    obtain ⟨i, hi⟩ := mem_iff_getElem?.mp ho
    exact ⟨⟨k, i⟩, (h o ⟨k, i⟩).mpr ⟨l, hl, hi⟩⟩

theorem key_unique {k k' : K} {l l' : List O} (hk : lists k = some l) (ho : o ∈ l)
    (hk' : lists k' = some l') (ho' : o ∈ l') : k = k' := by
  obtain ⟨i, hi⟩ := mem_iff_getElem?.mp ho
  obtain ⟨j, hj⟩ := mem_iff_getElem?.mp ho'
  exact congrArg Place.key (h.place_unique (p := ⟨k, i⟩) (q := ⟨k', j⟩) hk hi hk' hj)

theorem nodup (hk : lists k = some l) : l.Nodup := by
  rw [nodup_iff_getElem?_ne_getElem?]
  intro i j hij hj hs
  obtain ⟨o, ho⟩ : ∃ o, l[j]? = some o := ⟨l[j], getElem?_eq_getElem hj⟩
  have hp := h.place_unique (p := ⟨k, i⟩) (q := ⟨k, j⟩) hk (hs.trans ho) hk ho
  have hpo : i = j := congrArg Place.pos hp
  omega

theorem nodup_flatMap {α : Type*} {xs : List α} {key : α → K} (hk : (xs.map key).Nodup)
    {items : α → List O} (hi : ∀ x ∈ xs, lists (key x) = some (items x)) : (xs.flatMap items).Nodup := by
  rw [List.nodup_flatMap]
  refine ⟨fun x hx => h.nodup (hi x hx), ?_⟩
  refine (pairwise_map.mp hk).imp_of_mem ?_
  intro x y hx hy hne o ho ho'
  exact hne (h.key_unique (hi x hx) ho (hi y hy) ho')

end

end Exact

section
variable [DecidableEq O]

def record (k : K) (l : List O) (back : O → Option (Place K)) : O → Option (Place K) :=
  l.zipIdx.foldl (fun back (x : O × Nat) => Function.update back x.1 (some ⟨k, x.2⟩)) back

/-- The entries of the items of `l` erased one by one. -/
def forget (l : List O) (back : O → Option (Place K)) : O → Option (Place K) :=
  l.foldl (fun back o => Function.update back o none) back

theorem forget_apply (l : List O) (back : O → Option (Place K)) (o : O) :
    forget l back o = if o ∈ l then none else back o := by
  induction l generalizing back with
  | nil => simp [forget]
  | cons a l ih =>
    show forget l (Function.update back a none) o = _
    rw [ih, update_apply]
    by_cases hl : o ∈ l
    · rw [if_pos hl, if_pos (mem_cons_of_mem a hl)]
    · by_cases ha : o = a
      · rw [if_neg hl, if_pos ha, if_pos (by simp [ha])]
      · rw [if_neg hl, if_neg ha, if_neg (by simp [ha, hl])]

theorem foldl_update_of_notMem (xs : List (O × Nat)) (back : O → Option (Place K)) (h : o ∉ xs.map Prod.fst) :
    xs.foldl (fun back (x : O × Nat) => Function.update back x.1 (some (⟨k, x.2⟩ : Place K))) back o = back o := by
  induction xs generalizing back with
  | nil => rfl
  | cons x xs ih =>
    rw [map_cons, mem_cons, not_or] at h
    rw [foldl_cons, ih _ h.2, update_of_ne h.1]

theorem record_of_notMem (h : o ∉ l) (back : O → Option (Place K)) : record k l back o = back o := by
  refine foldl_update_of_notMem _ back ?_
  rwa [zipIdx_map_fst]

theorem record_getElem (hnd : l.Nodup) (back : O → Option (Place K)) {i : Nat} (hi : l[i]? = some o) :
    record k l back o = some ⟨k, i⟩ := by
  obtain ⟨hlt, hg⟩ := List.getElem?_eq_some_iff.mp hi
  have hs : l.zipIdx = (l.take i).zipIdx ++ (o, i) :: (l.drop (i + 1)).zipIdx (i + 1) := by
    conv_lhs => rw [← take_append_drop i l, drop_eq_getElem_cons hlt, hg]
    rw [zipIdx_append, zipIdx_cons, length_take, min_eq_left hlt.le, zero_add]
  have hr : o ∉ ((l.drop (i + 1)).zipIdx (i + 1)).map Prod.fst := by
    rw [zipIdx_map_fst, ← hg]
    have ht : (l.drop i).Nodup := hnd.sublist (drop_sublist i l)
    rw [drop_eq_getElem_cons hlt, nodup_cons] at ht
    exact ht.1
  rw [record, hs, foldl_append, foldl_cons, foldl_update_of_notMem _ _ hr, update_self]

namespace Exact
variable [DecidableEq K]

theorem record (h : Exact lists back) (hk : lists k = none) (hnd : l.Nodup) (hf : ∀ o ∈ l, back o = none) :
    Exact (Function.update lists k (some l)) (record k l back) := by
  intro o p
  by_cases hke : p.key = k
  · subst hke
    simp only [update_self, Option.some.injEq, exists_eq_left']
    constructor
    · intro hp
      by_cases ho : o ∈ l
      · obtain ⟨i, hi⟩ := mem_iff_getElem?.mp ho
        rw [record_getElem hnd back hi, Option.some.injEq] at hp
        rwa [← hp]
      -- an old entry would be of another key
      rw [record_of_notMem ho] at hp
      obtain ⟨l', hl', -⟩ := (h o p).mp hp
      rw [hk] at hl'
      cases hl'
    · intro hp
      exact record_getElem hnd back hp
  · rw [update_of_ne hke, ← h o p]
    by_cases ho : o ∈ l
    · obtain ⟨i, hi⟩ := mem_iff_getElem?.mp ho
      rw [record_getElem hnd back hi, hf o ho, Option.some.injEq]
      constructor
      · rintro rfl
        exact absurd rfl hke
      · rintro ⟨⟩
    · rw [record_of_notMem ho]

theorem forget (h : Exact lists back) (hk : lists k = some l) :
    Exact (Function.update lists k none) (forget l back) := by
  intro o p
  rw [forget_apply]
  by_cases ho : o ∈ l
  · rw [if_pos ho]
    constructor
    · rintro ⟨⟩
    · -- the dropped list was the only one that had the item
      rintro ⟨l', hl', hp⟩
      by_cases hke : p.key = k
      · subst hke
        rw [update_self] at hl'
        cases hl'
      · rw [update_of_ne hke] at hl'
        exact absurd (h.key_unique hl' (mem_of_getElem? hp) hk ho) hke
  · rw [if_neg ho, h o p]
    by_cases hke : p.key = k
    · subst hke
      simp only [update_self]
      constructor
      · rintro ⟨l', hl', hp⟩
        rw [hk, Option.some.injEq] at hl'
        subst hl'
        exact absurd (mem_of_getElem? hp) ho
      · rintro ⟨_, ⟨⟩, _⟩
    · rw [update_of_ne hke]

end Exact
end
end ReverseIndex
end CloakCoin.Lib
