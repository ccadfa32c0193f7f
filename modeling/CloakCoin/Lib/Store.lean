import Mathlib.Tactic

/-!
# A key-value store with a write batch

`Store ν` maps each key `k` to at most one value of type `ν k`. While a batch is open every write
and delete is appended to it and reads look in the batch first, so that `Store.read` is the view
a later `txnCommit` makes permanent and `txnAbort` throws away.
-/

namespace CloakCoin.Lib

variable {κ : Type} {ν : κ → Type}

inductive BatchOp {κ : Type} (ν : κ → Type) where
  | put (k : κ) (v : ν k)
  | delete (k : κ)

structure Store {κ : Type} (ν : κ → Type) where
  disk : (k : κ) → Option (ν k)
  /-- Pending operations, oldest first; `none` when no transaction is open. -/
  activeBatch : Option (List (BatchOp ν))

section
variable [DecidableEq κ]

def BatchOp.scan (k : κ) (found : Option (Option (ν k))) : BatchOp ν → Option (Option (ν k))
  | .put k' v => if h : k' = k then some (some (h ▸ v)) else found
  | .delete k' => if k' = k then some none else found

variable (ops : List (BatchOp ν))

def scanBatch (k : κ) : Option (Option (ν k)) :=
  ops.foldl (BatchOp.scan k) none

def BatchOp.apply (disk : (k : κ) → Option (ν k)) : BatchOp ν → (k : κ) → Option (ν k)
  | .put k v => Function.update disk k (some v)
  | .delete k => Function.update disk k none

/-! ## The batch as an overlay of the disk -/

@[simp] theorem scanBatch_nil (k : κ) : scanBatch (ν := ν) [] k = none := rfl

theorem scanBatch_append_put (k k' : κ) (v : ν k) :
    scanBatch (ops ++ [.put k v]) k' = if h : k = k' then some (some (h ▸ v)) else scanBatch ops k' := by
  simp [scanBatch, List.foldl_append, BatchOp.scan]

theorem scanBatch_append_delete (k k' : κ) :
    scanBatch (ops ++ [.delete k]) k' = if k = k' then some none else scanBatch ops k' := by
  simp [scanBatch, List.foldl_append, BatchOp.scan]

theorem foldl_apply_eq_scanBatch (disk : (k : κ) → Option (ν k)) (k : κ) :
    ops.foldl BatchOp.apply disk k = (scanBatch ops k).getD (disk k) := by
  induction ops using List.reverseRecOn with
  | nil => rfl
  | append_singleton ops op ih =>
    cases op with
    | put k' v =>
      rw [scanBatch_append_put]
      by_cases h : k' = k
      · subst h; simp [BatchOp.apply]
      · simpa [BatchOp.apply, h, Function.update_of_ne (Ne.symm h)] using ih
    | delete k' =>
      rw [scanBatch_append_delete]
      by_cases h : k' = k
      · subst h; simp [BatchOp.apply]
      · simpa [BatchOp.apply, h, Function.update_of_ne (Ne.symm h)] using ih

namespace Store

/-! ## Operations -/

variable (s : Store ν)

/-- Look in the pending batch first, then on disk. -/
def read (k : κ) : Option (ν k) :=
  match s.activeBatch with
  | some ops => (scanBatch ops k).getD (s.disk k)
  | none => s.disk k

def write (k : κ) (v : ν k) : Store ν :=
  match s.activeBatch with
  | some ops => { s with activeBatch := some (ops ++ [.put k v]) }
  | none => { s with disk := Function.update s.disk k (some v) }

def erase (k : κ) : Store ν :=
  match s.activeBatch with
  | some ops => { s with activeBatch := some (ops ++ [.delete k]) }
  | none => { s with disk := Function.update s.disk k none }

def txnBegin : Store ν := { s with activeBatch := some [] }

def txnCommit (ok : Bool) : Store ν :=
  { disk := if ok then (s.activeBatch.getD []).foldl BatchOp.apply s.disk else s.disk
    activeBatch := none }

def txnAbort : Store ν := { s with activeBatch := none }

/-! ## Views -/

theorem read_write (k k' : κ) (v : ν k) : (s.write k v).read k' = if h : k = k' then some (h ▸ v) else s.read k' := by
  unfold write read
  cases hb : s.activeBatch with
  | none =>
    by_cases h : k = k'
    · subst h; simp
    · simp [h, Function.update_of_ne (Ne.symm h)]
  | some ops =>
    simp only [scanBatch_append_put]
    by_cases h : k = k'
    · subst h; simp
    · simp [h]

@[simp] theorem read_write_same (s : Store ν) (k : κ) (v : ν k) : (s.write k v).read k = some v := by
  simp [read_write]

theorem read_write_of_ne {k k' : κ} (v : ν k) (h : k ≠ k') : (s.write k v).read k' = s.read k' := by
  simp [read_write, h]

theorem read_erase (k k' : κ) : (s.erase k).read k' = if k = k' then none else s.read k' := by
  unfold erase read
  cases hb : s.activeBatch with
  | none =>
    by_cases h : k = k'
    · subst h; simp
    · simp [h, Function.update_of_ne (Ne.symm h)]
  | some ops =>
    simp only [scanBatch_append_delete]
    by_cases h : k = k'
    · subst h; simp
    · simp [h]

theorem read_erase_of_ne {k k' : κ} (h : k ≠ k') : (s.erase k).read k' = s.read k' := by
  simp [read_erase, h]

@[simp] theorem disk_write_of_batch {s : Store ν} (k : κ) (v : ν k) (h : s.activeBatch.isSome) :
    (s.write k v).disk = s.disk ∧ (s.write k v).activeBatch.isSome := by
  obtain ⟨ops, hb⟩ := Option.isSome_iff_exists.mp h
  simp [write, hb]

@[simp] theorem disk_erase_of_batch {s : Store ν} (k : κ) (h : s.activeBatch.isSome) :
    (s.erase k).disk = s.disk ∧ (s.erase k).activeBatch.isSome := by
  obtain ⟨ops, hb⟩ := Option.isSome_iff_exists.mp h
  simp [erase, hb]

@[simp] theorem read_txnAbort (s : Store ν) (k : κ) : s.txnAbort.read k = s.disk k := rfl

theorem disk_txnCommit_true (k : κ) : (s.txnCommit true).disk k = s.read k := by
  unfold txnCommit read
  cases s.activeBatch with
  | none => rfl
  | some ops => simp [foldl_apply_eq_scanBatch]

@[simp] theorem read_txnCommit_true (s : Store ν) (k : κ) : (s.txnCommit true).read k = s.read k :=
  disk_txnCommit_true s k

end Store
end
end CloakCoin.Lib
