import Mathlib.Tactic

/-!
# Records with spend slots

An index from keys to records, each with one slot per output: the slot is the default value while
the output is unspent and names the spender afterwards. `take` fills slots, `release` empties them,
`create` and `erase` add and drop a whole record.
-/

namespace CloakCoin.Lib

open List Option Function

/-- A record at position `pos` with the spend slots of its outputs. -/
structure SlotEntry (π : Type) where
  pos : π
  vSpent : List π
  deriving DecidableEq, Repr

abbrev SlotIndex (κ π : Type) := κ → Option (SlotEntry π)

namespace SlotIndex

variable {κ π : Type} [DecidableEq κ] (idx : SlotIndex κ π) (o : κ × Nat)

/-- Put `p` into slot `o.2` of the record `o.1`. -/
def setSlot (p : π) : SlotIndex κ π :=
  Function.update idx o.1 ((idx o.1).map fun e => { e with vSpent := e.vSpent.set o.2 p })

def slot : Option π := (idx o.1).bind fun e => e.vSpent[o.2]?

variable (os : List (κ × Nat))

def take (p : π) : SlotIndex κ π :=
  os.foldl (fun i o => i.setSlot o p) idx

def create (k : κ) (e : SlotEntry π) : SlotIndex κ π := Function.update idx k (some e)

def erase (k : κ) : SlotIndex κ π := Function.update idx k none

/-! ## One slot -/

variable {idx : SlotIndex κ π} {free : π}

theorem setSlot_of_ne {o : κ × Nat} {p : π} {k : κ} (h : k ≠ o.1) : idx.setSlot o p k = idx k := by
  simp [setSlot, update_of_ne h]

theorem setSlot_same (p : π) : idx.setSlot o p o.1 = (idx o.1).map fun e =>
    { e with vSpent := e.vSpent.set o.2 p } := by
  simp [setSlot]

theorem slot_setSlot_of_ne {o o' : κ × Nat} {p : π} (h : o' ≠ o) : (idx.setSlot o p).slot o' = idx.slot o' := by
  unfold slot
  by_cases hk : o'.1 = o.1
  · have hn : o.2 ≠ o'.2 := fun e => h (Prod.ext hk e.symm)
    rw [hk, setSlot_same]
    cases idx o.1 with
    | none => rfl
    | some e => simp [getElem?_set_ne hn]
  · rw [setSlot_of_ne hk]

theorem slot_setSlot_same {o : κ × Nat} {p q : π} (h : idx.slot o = some q) : (idx.setSlot o p).slot o = some p := by
  unfold slot at h ⊢
  rw [setSlot_same]
  cases he : idx o.1 with
  | none => simp [he] at h
  | some e =>
    simp only [he, bind_some] at h
    have hlt : o.2 < e.vSpent.length := (List.getElem?_eq_some_iff.mp h).1
    simp [hlt]

theorem setSlot_setSlot_same (p q : π) : (idx.setSlot o p).setSlot o q = idx.setSlot o q := by
  funext k
  by_cases hk : k = o.1
  · subst hk
    simp only [setSlot_same, Option.map_map]
    cases idx o.1 with
    | none => rfl
    | some e => simp
  · rw [setSlot_of_ne hk, setSlot_of_ne hk, setSlot_of_ne hk]

theorem setSlot_comm {o o' : κ × Nat} (h : o ≠ o') (p q : π) :
    (idx.setSlot o p).setSlot o' q = (idx.setSlot o' q).setSlot o p := by
  obtain ⟨k, n⟩ := o
  obtain ⟨k', n'⟩ := o'
  unfold setSlot
  by_cases hk : k = k'
  · subst hk
    have hn : n ≠ n' := fun e => h (by rw [e])
    simp only [update_self, update_idem]
    cases idx k with
    | none => rfl
    | some e => simp [set_comm _ _ hn]
  · simp only [update_of_ne hk, update_of_ne (Ne.symm hk)]
    exact update_comm hk _ _ _

theorem setSlot_eq_self {o : κ × Nat} {p : π} (h : idx.slot o = some p) : idx.setSlot o p = idx := by
  funext k
  by_cases hk : k = o.1
  · subst hk
    unfold slot at h
    rw [setSlot_same]
    cases he : idx o.1 with
    | none => rfl
    | some e =>
      simp only [he, bind_some] at h
      obtain ⟨hlt, hv⟩ := List.getElem?_eq_some_iff.mp h
      simp [← hv]
  · exact setSlot_of_ne hk

/-! ## Several slots -/

@[simp] theorem take_nil (p : π) : idx.take [] p = idx := rfl

theorem take_cons (p : π) : idx.take (o :: os) p = (idx.setSlot o p).take os p := rfl

theorem take_setSlot_comm {o : κ × Nat} {os : List (κ × Nat)} (h : o ∉ os) (p q : π) :
    (idx.setSlot o q).take os p = (idx.take os p).setSlot o q := by
  induction os generalizing idx with
  | nil => rfl
  | cons o' os ih =>
    obtain ⟨hne, hm⟩ := not_or.mp (mt mem_cons.mpr h)
    rw [take_cons, take_cons, setSlot_comm hne, ih hm]

theorem take_eq_none {os : List (κ × Nat)} {p : π} {k : κ} (h : idx k = none) : idx.take os p k = none := by
  induction os generalizing idx with
  | nil => exact h
  | cons o os ih =>
    rw [take_cons]
    refine ih ?_
    by_cases hk : k = o.1
    · subst hk
      rw [setSlot_same, h, map_none]
    · rw [setSlot_of_ne hk, h]

theorem isSome_slot_setSlot {o o' : κ × Nat} {p : π} (h : (idx.slot o').isSome) :
    ((idx.setSlot o p).slot o').isSome := by
  by_cases ho : o' = o
  · subst ho
    obtain ⟨q, hq⟩ := isSome_iff_exists.mp h
    rw [slot_setSlot_same hq]
    rfl
  · rwa [slot_setSlot_of_ne ho]

theorem isSome_slot_take {os : List (κ × Nat)} {p : π} {o : κ × Nat} (h : (idx.slot o).isSome) :
    ((idx.take os p).slot o).isSome := by
  induction os generalizing idx with
  | nil => exact h
  | cons o' os ih =>
    exact ih (isSome_slot_setSlot h)

theorem slot_take_of_notMem {os : List (κ × Nat)} {p : π} {o : κ × Nat} (h : o ∉ os) :
    (idx.take os p).slot o = idx.slot o := by
  induction os generalizing idx with
  | nil => rfl
  | cons o' os ih =>
    obtain ⟨hne, hm⟩ := not_or.mp (mt mem_cons.mpr h)
    rw [take_cons, ih hm, slot_setSlot_of_ne hne]

theorem slot_take_of_mem {os : List (κ × Nat)} {p : π} {o : κ × Nat} (ho : o ∈ os) (h : (idx.slot o).isSome) :
    (idx.take os p).slot o = some p := by
  induction os generalizing idx with
  | nil => cases ho
  | cons o' os ih =>
    rw [take_cons]
    by_cases hos : o ∈ os
    · exact ih hos (isSome_slot_setSlot h)
    · obtain rfl : o = o' := (mem_cons.mp ho).resolve_right hos
      obtain ⟨q, hq⟩ := isSome_iff_exists.mp h
      rw [slot_take_of_notMem hos, slot_setSlot_same hq]

theorem take_eq_some (p : π) {k : κ} {e : SlotEntry π} (h : idx k = some e) :
    ∃ e', idx.take os p k = some e' ∧ e'.pos = e.pos ∧ e'.vSpent.length = e.vSpent.length := by
  induction os generalizing idx e with
  | nil => exact ⟨e, h, rfl, rfl⟩
  | cons o os ih =>
    rw [take_cons]
    by_cases hk : k = o.1
    · subst hk
      have hs : idx.setSlot o p o.1 = some { e with vSpent := e.vSpent.set o.2 p } := by
        rw [setSlot_same, h, map_some]
      obtain ⟨e', he', hp, hl⟩ := ih hs
      exact ⟨e', he', hp, by rw [hl, length_set]⟩
    · exact ih (by rw [setSlot_of_ne hk, h])

theorem release_take {os : List (κ × Nat)} (hnd : os.Nodup) {free : π}
    (h : ∀ o ∈ os, idx.slot o = some free) (p : π) : (idx.take os p).take os free = idx := by
  induction os generalizing idx with
  | nil => rfl
  | cons o os ih =>
    obtain ⟨hm, hnd⟩ := nodup_cons.mp hnd
    have hr : ∀ o' ∈ os, idx.slot o' = some free := fun o' ho' => h o' (mem_cons_of_mem _ ho')
    calc (idx.take (o :: os) p).take (o :: os) free = (((idx.setSlot o p).take os p).setSlot o free).take os free := rfl
      _ = (((idx.setSlot o p).setSlot o free).take os p).take os free := by
        rw [← take_setSlot_comm hm p free]
      _ = (idx.take os p).take os free := by
        rw [setSlot_setSlot_same, setSlot_eq_self (h o mem_cons_self)]
      _ = idx := ih hnd hr

/-! ## Whole records -/

theorem create_same (k : κ) (e : SlotEntry π) : idx.create k e k = some e := by
  simp [create]

theorem create_of_ne {k k' : κ} (e : SlotEntry π) (h : k' ≠ k) : idx.create k e k' = idx k' := by
  simp [create, update_of_ne h]

theorem slot_create_of_ne {k : κ} (e : SlotEntry π) {o : κ × Nat} (h : o.1 ≠ k) :
    (idx.create k e).slot o = idx.slot o := by
  rw [slot, create_of_ne e h, slot]

theorem create_setSlot_comm {k : κ} {e : SlotEntry π} {o : κ × Nat} (h : o.1 ≠ k) (p : π) :
    (idx.create k e).setSlot o p = (idx.setSlot o p).create k e := by
  unfold setSlot create
  rw [update_of_ne h, update_comm (Ne.symm h)]

theorem create_take_comm {k : κ} {e : SlotEntry π} {os : List (κ × Nat)} (h : ∀ o ∈ os, o.1 ≠ k) (p : π) :
    (idx.create k e).take os p = (idx.take os p).create k e := by
  induction os generalizing idx with
  | nil => rfl
  | cons o os ih =>
    rw [take_cons, take_cons, create_setSlot_comm (h o mem_cons_self),
      ih fun o' ho' => h o' (mem_cons_of_mem _ ho')]

theorem erase_create {k : κ} {e : SlotEntry π} (h : idx k = none) : (idx.create k e).erase k = idx := by
  simp [erase, create, ← h]

theorem undo_record {k : κ} {e : SlotEntry π} {os : List (κ × Nat)} (hnd : os.Nodup) {free : π}
    (h : ∀ o ∈ os, idx.slot o = some free) (hk : idx k = none) (p : π) :
    ((((idx.take os p).create k e).take os free).erase k) = idx := by
  have hne : ∀ o ∈ os, o.1 ≠ k := by
    rintro o ho rfl
    simpa [slot, hk] using h o ho
  rw [create_take_comm hne, release_take hnd h, erase_create hk]

/-! ## Value of the free slots -/

section Value
variable [DecidableEq π]

/-- The value of the outputs of record `k` whose slot holds `free`. -/
def freeValue (idx : SlotIndex κ π) (free : π) (k : κ) (vals : List Int) : Int :=
  ∑ i ∈ Finset.range vals.length, if idx.slot (k, i) = some free then vals.getD i 0 else 0

def totalFree (idx : SlotIndex κ π) (free : π) (recs : List (κ × List Int)) : Int :=
  (recs.map fun r => idx.freeValue free r.1 r.2).sum

omit [DecidableEq κ] in
theorem freeValue_congr {idx' : SlotIndex κ π} {k : κ} (vals : List Int) (h : idx' k = idx k) :
    idx'.freeValue free k vals = idx.freeValue free k vals := by
  simp only [freeValue, slot, h]

omit [DecidableEq κ] in
theorem totalFree_congr {idx' : SlotIndex κ π} {recs : List (κ × List Int)}
    (h : ∀ r ∈ recs, idx' r.1 = idx r.1) : idx'.totalFree free recs = idx.totalFree free recs := by
  unfold totalFree
  rw [map_congr_left fun r hr => freeValue_congr r.2 (h r hr)]

theorem freeValue_create_replicate (idx : SlotIndex κ π) (free : π) (k : κ) (p : π) (vals : List Int) :
    (idx.create k ⟨p, List.replicate vals.length free⟩).freeValue free k vals = vals.sum := by
  have hs : vals.sum = ∑ i ∈ Finset.range vals.length, vals.getD i 0 := by
    rw [Finset.sum_range, ← sum_ofFn]
    congr 1
    exact ext_getElem (by simp) fun i h1 h2 => by simp [getD_eq_getElem?_getD]
  rw [hs, freeValue]
  refine Finset.sum_congr rfl fun i hi => ?_
  have hlt : i < vals.length := Finset.mem_range.mp hi
  simp [slot, create, hlt]

theorem freeValue_setSlot {o : κ × Nat} {p : π} (hp : p ≠ free) (ho : idx.slot o = some free)
    {vals : List Int} (hlt : o.2 < vals.length) :
    (idx.setSlot o p).freeValue free o.1 vals = idx.freeValue free o.1 vals - vals.getD o.2 0 := by
  unfold freeValue
  have hm : o.2 ∈ Finset.range vals.length := Finset.mem_range.mpr hlt
  rw [← Finset.add_sum_erase _ _ hm, ← Finset.add_sum_erase _ _ hm]
  have hr : ∑ i ∈ (Finset.range vals.length).erase o.2,
        (if (idx.setSlot o p).slot (o.1, i) = some free then vals.getD i 0 else 0) =
      ∑ i ∈ (Finset.range vals.length).erase o.2,
        (if idx.slot (o.1, i) = some free then vals.getD i 0 else 0) := by
    refine Finset.sum_congr rfl fun i hi => ?_
    rw [slot_setSlot_of_ne fun e => Finset.ne_of_mem_erase hi (congrArg Prod.snd e)]
  have hn : (idx.setSlot o p).slot (o.1, o.2) ≠ some free := by
    rw [slot_setSlot_same ho]
    simpa using hp
  rw [hr, if_neg hn, if_pos ho]
  omega

theorem totalFree_setSlot {o : κ × Nat} {p : π} (hp : p ≠ free) (ho : idx.slot o = some free)
    {recs : List (κ × List Int)} (hnd : (recs.map Prod.fst).Nodup) {vals : List Int} (hm : (o.1, vals) ∈ recs)
    (hlt : o.2 < vals.length) : (idx.setSlot o p).totalFree free recs = idx.totalFree free recs - vals.getD o.2 0 := by
  induction recs with
  | nil => cases hm
  | cons r rest ih =>
    rw [map_cons, nodup_cons] at hnd
    have hc : ∀ i : SlotIndex κ π,
        i.totalFree free (r :: rest) = i.freeValue free r.1 r.2 + i.totalFree free rest := fun i => by
      simp [totalFree]
    rw [hc, hc]
    rcases mem_cons.mp hm with rfl | hm
    · have hr : (idx.setSlot o p).totalFree free rest = idx.totalFree free rest :=
        totalFree_congr fun r' hr' => setSlot_of_ne fun e => hnd.1 (e ▸ mem_map_of_mem hr')
      rw [freeValue_setSlot hp ho hlt, hr]
      dsimp only
      omega
    · have hne : r.1 ≠ o.1 := fun e => hnd.1 (e ▸ mem_map_of_mem hm)
      rw [ih hnd.2 hm, freeValue_congr _ (setSlot_of_ne hne)]
      omega

theorem totalFree_take {os : List (κ × Nat)} (hos : os.Nodup) {p : π} (hp : p ≠ free)
    (h : ∀ o ∈ os, idx.slot o = some free) {recs : List (κ × List Int)} (hnd : (recs.map Prod.fst).Nodup)
    {value : κ × Nat → Int} (hv : ∀ o ∈ os, ∃ vals, (o.1, vals) ∈ recs ∧ vals[o.2]? = some (value o)) :
    (idx.take os p).totalFree free recs = idx.totalFree free recs - (os.map value).sum := by
  induction os generalizing idx with
  | nil => simp
  | cons o os ih =>
    obtain ⟨hm, hos⟩ := nodup_cons.mp hos
    obtain ⟨vals, hin, hg⟩ := hv o mem_cons_self
    have hf : ∀ o' ∈ os, (idx.setSlot o p).slot o' = some free := by
      intro o' ho'
      have hne : o' ≠ o := fun e => hm (e ▸ ho')
      rw [slot_setSlot_of_ne hne]
      exact h o' (mem_cons_of_mem _ ho')
    rw [take_cons, ih hos hf fun o' ho' => hv o' (mem_cons_of_mem _ ho'),
      totalFree_setSlot hp (h o List.mem_cons_self) hnd hin (List.getElem?_eq_some_iff.mp hg).1,
      map_cons, sum_cons, getD_eq_getElem?_getD, hg, getD_some]
    omega

end Value
end SlotIndex
end CloakCoin.Lib
