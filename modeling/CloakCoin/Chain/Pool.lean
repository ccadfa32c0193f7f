import CloakCoin.Chain.Sample
import CloakCoin.Chain.Supply

/-!
# The spend index of the memory pool

`CTransaction::AcceptToMemoryPool` with and without the check of inputs, and the runs of a pool that is filled,
emptied and cleared in any order.
-/

namespace CloakCoin.Chain

open Lib
open Std (ExtTreeMap)
open Option Std.ExtTreeMap Function

/-! ## `CTxMemPool::accept` -/

/-- What `accept` takes from the script templates and from the rate limiter, whose count decays with the clock. -/
structure RelayPolicy where
  areInputsStandard : CTransaction → MapPrevTx → Bool
  freeRelayOk : CTransaction → Bool

inductive AcceptVerdict where
  | accepted
  | rejected
  /-- `pfMissingInputs` is set. -/
  | missingInputs
  deriving DecidableEq, Repr

namespace Node

/-- `ConnectInputs` is called with `pindexBest`. -/
def poolCtx (n : Node) : ConnectCtx where
  readTxIndex := n.txdb.readTxIndex
  readTx := n.files.readTx
  readBlockTime := n.files.readBlockTime
  mempoolLookup := fun h => n.mempool.mapTx[h]?
  ancestors := (n.bestEntry.map n.ancestorsOf).getD []
  nBestHeight := n.nBestHeight

section
variable (env : Env) (policy : RelayPolicy)

def acceptInputs (n : Node) (tx : CTransaction) : AcceptVerdict :=
  match fetchInputs n.poolCtx.toTxSource ∅ false false tx with
  | .invalid => .rejected
  | .notFound => .missingInputs
  | .ok mapInputs =>
    if !policy.areInputsStandard tx mapInputs && !env.fTestNet then .rejected
    else
      match tx.getValueIn mapInputs, tx.getValueOut with
      | some valIn, some valOut =>
        let nFees := valIn - valOut
        -- don't accept it if it can't get into a block
        if nFees < tx.getMinFee 1000 .relay tx.serializeSize then .rejected
        else if nFees < minRelayTxFee && !policy.freeRelayOk tx then .rejected
        else if (connectInputs env n.poolCtx tx mapInputs ∅ .memPool false false true).isNone then .rejected
        else .accepted
      | _, _ => .rejected

def acceptToMemoryPool (n : Node) (fCheckInputs : Bool) (tx : CTransaction) : AcceptVerdict × Node :=
  let hash := tx.getHash env
  if !tx.checkTransaction then (.rejected, n)
  else if tx.isCoinBase then (.rejected, n)
  else if tx.isCoinStake then (.rejected, n)
  else if tx.nLockTime > 2147483647 then (.rejected, n)
  else if !env.fTestNet && !tx.isStandard env then (.rejected, n)
  else if n.mempool.mapTx.contains hash then (.rejected, n)
  else if fCheckInputs && (n.txdb.readTxIndex hash).isSome then (.rejected, n)
  else if tx.vin.any fun txin => (n.mempool.mapNextTx txin.prevout).isSome then (.rejected, n)
  else
    match (if fCheckInputs then n.acceptInputs env policy tx else .accepted) with
    | .accepted => (.accepted, { n with mempool := n.mempool.addUnchecked hash tx })
    | .rejected => (.rejected, n)
    | .missingInputs => (.missingInputs, n)

end

end Node

namespace CTxMemPool

variable {env : Env} {pool : CTxMemPool} {tx : CTransaction}

structure Admitted (env : Env) (pool : CTxMemPool) (tx : CTransaction) : Prop where
  check : tx.checkTransaction = true
  loose : tx.isCoinBase = false ∧ tx.isCoinStake = false
  lockTime : tx.nLockTime ≤ 2147483647
  standard : env.fTestNet = true ∨ tx.isStandard env = true
  new : pool.mapTx[tx.getHash env]? = none
  free : ∀ o ∈ tx.vin.map CTxIn.prevout, pool.mapNextTx o = none

theorem any_mapNextTx_eq_false {vin : List CTxIn} : (vin.any fun txin => (pool.mapNextTx txin.prevout).isSome) = false ↔
      ∀ o ∈ vin.map CTxIn.prevout, pool.mapNextTx o = none := by
  simp

theorem admitted_iff : Admitted env pool tx ↔ ¬(!tx.checkTransaction) ∧ ¬tx.isCoinBase ∧ ¬tx.isCoinStake ∧
    ¬tx.nLockTime > 2147483647 ∧ ¬(!env.fTestNet && !tx.isStandard env) ∧ ¬pool.mapTx.contains (tx.getHash env) ∧
    ¬tx.vin.any fun txin => (pool.mapNextTx txin.prevout).isSome := by
  rw [Bool.not_eq_true (tx.vin.any _), any_mapNextTx_eq_false, contains_eq_isSome_getElem?,
    Bool.not_eq_true (isSome _), isSome_eq_false_iff, isNone_iff_eq_none]
  constructor
  · rintro ⟨hc, ⟨hb, hs⟩, hl, hst, hn, hf⟩
    refine ⟨by simp [hc], by simp [hb], by simp [hs], Nat.not_lt.mpr hl, ?_, hn, hf⟩
    rcases hst with h | h <;> simp [h]
  · rintro ⟨hc, hb, hs, hl, hst, hn, hf⟩
    refine ⟨by simpa using hc, ⟨by simpa using hb, by simpa using hs⟩, Nat.not_lt.mp hl, ?_, hn, hf⟩
    cases ht : env.fTestNet with
    | true => exact .inl rfl
    | false => exact .inr (by simpa [ht] using hst)

theorem accept_eq (pool : CTxMemPool) (tx : CTransaction) [Decidable (Admitted env pool tx)] : pool.accept env tx =
      if Admitted env pool tx then (true, pool.addUnchecked (tx.getHash env) tx) else (false, pool) := by
  unfold accept
  rw [← ite_or, ← ite_or, ← ite_or, ← ite_or, ← ite_or, ← ite_or, ← ite_not]
  refine if_congr ?_ rfl rfl
  rw [admitted_iff]
  simp [and_assoc]

end CTxMemPool

open CTxMemPool (Admitted)

namespace Node

variable {env : Env} {policy : RelayPolicy}

theorem acceptToMemoryPool_eq (n : Node) (fCheckInputs : Bool) (tx : CTransaction)
    [Decidable (Admitted env n.mempool tx)] : n.acceptToMemoryPool env policy fCheckInputs tx =
    if Admitted env n.mempool tx ∧ (fCheckInputs && (n.txdb.readTxIndex (tx.getHash env)).isSome) = false then
      match (if fCheckInputs then n.acceptInputs env policy tx else .accepted) with
      | .accepted => (.accepted, { n with mempool := n.mempool.addUnchecked (tx.getHash env) tx })
      | .rejected => (.rejected, n)
      | .missingInputs => (.missingInputs, n)
    else (.rejected, n) := by
  unfold acceptToMemoryPool
  rw [← ite_or, ← ite_or, ← ite_or, ← ite_or, ← ite_or, ← ite_or, ← ite_or, ← ite_not]
  refine if_congr ?_ rfl rfl
  rw [CTxMemPool.admitted_iff]
  simp only [not_or, Bool.not_eq_true, and_assoc]
  tauto

variable (env policy) in
theorem acceptToMemoryPool_cases (n : Node) (fCheckInputs : Bool) (tx : CTransaction) :
    (n.acceptToMemoryPool env policy fCheckInputs tx).2 = n ∨
      (n.acceptToMemoryPool env policy fCheckInputs tx).2 =
          { n with mempool := n.mempool.addUnchecked (tx.getHash env) tx } ∧
        Admitted env n.mempool tx ∧
        (fCheckInputs = true → n.txdb.readTxIndex (tx.getHash env) = none ∧
          n.acceptInputs env policy tx = .accepted) := by
  classical
  rw [acceptToMemoryPool_eq]
  split
  · rename_i ha
    split
    · rename_i hac
      refine .inr ⟨rfl, ha.1, ?_⟩
      rintro rfl
      exact ⟨by simpa using ha.2, hac⟩
    · exact .inl rfl
    · exact .inl rfl
  · exact .inl rfl

end Node

/-! ## The index is exact -/

namespace CTxMemPool

variable {env : Env} {pool : CTxMemPool} {tx : CTransaction}

def spends (pool : CTxMemPool) (h : Hash256) : Option (List COutPoint) :=
  (pool.mapTx[h]?).map fun tx => tx.vin.map CTxIn.prevout

structure SpendIndex (env : Env) (pool : CTxMemPool) : Prop where
  keys : ∀ {h : Hash256} {tx : CTransaction}, pool.mapTx[h]? = some tx → tx.getHash env = h
  next : ReverseIndex.Exact pool.spends pool.mapNextTx

theorem spends_insert (hash : Hash256) (tx : CTransaction) (next : COutPoint → Option CInPoint) :
    spends ⟨pool.mapTx.insert hash tx, next⟩ = update pool.spends hash (some (tx.vin.map CTxIn.prevout)) := by
  funext h
  by_cases hh : h = hash
  · subst hh
    rw [update_self, spends, getElem?_insert_self, map_some]
  · rw [update_of_ne hh, spends, getElem?_insert_ne _ hh, spends]

theorem spends_erase (hash : Hash256) (next : COutPoint → Option CInPoint) :
    spends ⟨pool.mapTx.erase hash, next⟩ = update pool.spends hash none := by
  funext h
  by_cases hh : h = hash
  · subst hh
    rw [update_self, spends, getElem?_erase_self, map_none]
  · rw [update_of_ne hh, spends, getElem?_erase_ne _ hh, spends]

namespace SpendIndex

variable (env) in
theorem empty : SpendIndex env ⟨∅, fun _ => none⟩ where
  keys h := by simp at h
  next := by
    have hs : spends ⟨∅, fun _ => none⟩ = fun _ => none := funext fun h => by simp [spends]
    rw [hs]
    exact ReverseIndex.exact_empty

theorem addUnchecked (h : SpendIndex env pool) (ha : Admitted env pool tx) :
    SpendIndex env (pool.addUnchecked (tx.getHash env) tx) where
  keys {k t} ht := by
    change (pool.mapTx.insert (tx.getHash env) tx)[k]? = some t at ht
    by_cases hk : k = tx.getHash env
    · subst hk
      rw [getElem?_insert_self, some.injEq] at ht
      rw [ht]
    · rw [getElem?_insert_ne _ hk] at ht
      exact h.keys ht
  next := by
    have hn : pool.spends (tx.getHash env) = none := by rw [spends, ha.new, map_none]
    have hnd := CTransaction.nodup_of_checkTransaction ha.check
    unfold CTxMemPool.addUnchecked
    rw [spends_insert]
    exact h.next.record hn hnd ha.free

theorem remove (hi : TxHashBinds env) (h : SpendIndex env pool) (tx : CTransaction) :
    SpendIndex env (pool.remove env tx) := by
  unfold CTxMemPool.remove
  dsimp only
  split
  · rename_i hm
    rw [contains_eq_isSome_getElem?] at hm
    obtain ⟨t, ht⟩ := isSome_iff_exists.mp hm
    obtain ⟨hv, -⟩ := hi t tx (h.keys ht)
    constructor
    case keys =>
      intro k u hu
      by_cases hk : k = tx.getHash env
      · subst hk
        rw [getElem?_erase_self] at hu
        cases hu
      · rw [getElem?_erase_ne _ hk] at hu
        exact h.keys hu
    case next =>
      rw [spends_erase]
      refine h.next.forget ?_
      rw [spends, ht, map_some, hv]
  · exact h

end SpendIndex

end CTxMemPool

/-! ## The run -/

/-- One of the operations on the pool; the rest of the node may be anything when `accept` is called. -/
inductive PoolStep where
  | accept (n : Node) (policy : RelayPolicy) (fCheckInputs : Bool) (tx : CTransaction)
  | remove (tx : CTransaction)
  | clear

def PoolStep.run (env : Env) (pool : CTxMemPool) : PoolStep → CTxMemPool
  | .accept n policy fCheckInputs tx =>
    (({ n with mempool := pool } : Node).acceptToMemoryPool env policy fCheckInputs tx).2.mempool
  | .remove tx => pool.remove env tx
  | .clear => pool.clear

theorem CTxMemPool.SpendIndex.step {env : Env} (hi : TxHashBinds env) {pool : CTxMemPool}
    (h : pool.SpendIndex env) (step : PoolStep) : (step.run env pool).SpendIndex env := by
  cases step with
  | accept n policy fCheckInputs tx =>
    rcases Node.acceptToMemoryPool_cases env policy { n with mempool := pool } fCheckInputs tx with
      hs | ⟨ha, had, -⟩
    · rw [PoolStep.run, hs]
      exact h
    · rw [PoolStep.run, ha]
      exact h.addUnchecked had
  | remove tx => exact h.remove hi tx
  | clear => exact .empty env

theorem CTxMemPool.SpendIndex.run {env : Env} (hi : TxHashBinds env) (steps : List PoolStep) {pool : CTxMemPool}
    (h : pool.SpendIndex env) : (steps.foldl (PoolStep.run env) pool).SpendIndex env := by
  induction steps generalizing pool with
  | nil => exact h
  | cons step steps ih => exact ih (h.step hi step)

/-- **The spend index is exact** after every sequence of `accept`, `remove` and `clear`: an outpoint has an entry just
when a pool transaction has it as an input, there is one such transaction only, and the entry names it with the
position of the input; every transaction is stored under its hash. -/
theorem spend_index_exact (env : Env) (hinj : TxHashBinds env) (steps : List PoolStep) (pool : CTxMemPool)
    (hpool : pool = steps.foldl (PoolStep.run env) ⟨∅, fun _ => none⟩) : (∀ o, (pool.mapNextTx o).isSome = true ↔
        ∃ (h : Hash256) (tx : CTransaction), pool.mapTx[h]? = some tx ∧ o ∈ tx.vin.map CTxIn.prevout) ∧
      (∀ (o : COutPoint) (h h' : Hash256) (tx tx' : CTransaction), pool.mapTx[h]? = some tx →
        pool.mapTx[h']? = some tx' →
        o ∈ tx.vin.map CTxIn.prevout → o ∈ tx'.vin.map CTxIn.prevout → h = h') ∧
      (∀ (o : COutPoint) (inPoint : CInPoint), pool.mapNextTx o = some inPoint → ∃ tx txin,
        pool.mapTx[inPoint.key]? = some tx ∧ tx.vin[inPoint.pos]? = some txin ∧ txin.prevout = o) ∧
      ∀ (h : Hash256) (tx : CTransaction), pool.mapTx[h]? = some tx → tx.getHash env = h := by
  have hi : pool.SpendIndex env := hpool ▸ CTxMemPool.SpendIndex.run hinj steps (.empty env)
  have hs : ∀ {h : Hash256} {tx : CTransaction}, pool.mapTx[h]? = some tx →
      pool.spends h = some (tx.vin.map CTxIn.prevout) := by
    intro h tx htx
    rw [CTxMemPool.spends, htx, map_some]
  refine ⟨fun o => ?_, ?_, ?_, fun h tx => hi.keys⟩
  · rw [hi.next.isSome_iff]
    constructor
    · rintro ⟨h, l, hl, ho⟩
      obtain ⟨tx, htx, rfl⟩ := map_eq_some_iff.mp hl
      exact ⟨h, tx, htx, ho⟩
    · rintro ⟨h, tx, htx, ho⟩
      exact ⟨h, _, hs htx, ho⟩
  · intro o h h' tx tx' htx htx' ho ho'
    exact hi.next.key_unique (hs htx) ho (hs htx') ho'
  · intro o inPoint hin
    obtain ⟨l, hl, ho⟩ := (hi.next o inPoint).mp hin
    obtain ⟨tx, htx, rfl⟩ := map_eq_some_iff.mp hl
    rw [List.getElem?_map] at ho
    obtain ⟨txin, ht, rfl⟩ := map_eq_some_iff.mp ho
    exact ⟨tx, txin, htx, ht, rfl⟩

/-! ### A transaction with two inputs -/

namespace Sample

def twoInputs : CTransaction := { nTime := 1, vin := [⟨⟨7, 0⟩, [], 0⟩, ⟨⟨7, 1⟩, [], 0⟩], vout := [⟨2 * coin, [8]⟩] }

def relayPolicy : RelayPolicy := ⟨fun _ _ => true, fun _ => true⟩

def poolSteps : List PoolStep :=
  let accept := PoolStep.accept (node ⟨[], 1, by decide⟩ ∅ (fun _ => none) 1 0 []) relayPolicy false twoInputs
  [accept, .remove twoInputs, accept]

end Sample

open Sample in
theorem spend_index_exact_two :
    ((poolSteps.foldl (PoolStep.run (env [twoInputs] [])) ⟨∅, fun _ => none⟩).mapNextTx ⟨7, 1⟩) = some ⟨1, 1⟩ ∧
      ∃ tx txin, (poolSteps.foldl (PoolStep.run (env [twoInputs] []))
        ⟨∅, fun _ => none⟩).mapTx[(1 : Hash256)]? = some tx ∧
        tx.vin[1]? = some txin ∧ txin.prevout = ⟨7, 1⟩ := by
  have hn : (poolSteps.foldl (PoolStep.run (env [twoInputs] [])) ⟨∅, fun _ => none⟩).mapNextTx ⟨7, 1⟩ =
      some ⟨1, 1⟩ := by decide +kernel
  exact ⟨hn, (spend_index_exact _ (txHashBinds [twoInputs] []) poolSteps _ rfl).2.2.1 _ _ hn⟩

end CloakCoin.Chain
