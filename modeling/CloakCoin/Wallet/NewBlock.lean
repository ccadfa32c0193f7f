import CloakCoin.Chain.Pool
import CloakCoin.Chain.SigOps
import CloakCoin.Lib.Ready
import CloakCoin.Wallet.StakeShape
import Mathlib.Data.List.Sort

/-!
# Assembling a block

`CreateNewBlock`: the coinbase, a coinstake of the wallet if there is one, and transactions of the memory pool. The
transactions come from a priority queue; one whose parents are in the pool waits until these are in the block. Size,
signature operations and inputs are checked against what was taken before, but the coinstake is not part of that.
-/

namespace CloakCoin.Wallet

open Chain Lib Enigma
open Std (ExtTreeMap)
open List

variable {tx : CTransaction} {start : List CTransaction}

/-! ## The priority queue -/

/-- A transaction with its priority and its fee per kilobyte, which are computed in doubles. -/
structure TxPriority where
  dPriority : ℚ
  dFeePerKb : ℚ
  tx : CTransaction

/-- `TxPriorityCompare`: whether `a` comes after `b`. -/
def TxPriority.compare (byFee : Bool) (a b : TxPriority) : Bool :=
  if byFee then
    if a.dFeePerKb = b.dFeePerKb then decide (a.dPriority < b.dPriority) else decide (a.dFeePerKb < b.dFeePerKb)
  else if a.dPriority = b.dPriority then decide (a.dFeePerKb < b.dFeePerKb)
  else decide (a.dPriority < b.dPriority)

/-- The entries as they are compared: by one number first, then by the other. -/
def TxPriority.rank (byFee : Bool) (a : TxPriority) : ℚ ×ₗ ℚ :=
  if byFee then toLex (a.dFeePerKb, a.dPriority) else toLex (a.dPriority, a.dFeePerKb)

theorem TxPriority.compare_eq (byFee : Bool) (a b : TxPriority) :
    a.compare byFee b = decide (a.rank byFee < b.rank byFee) := by
  unfold compare rank
  cases byFee with
  | false =>
    simp only [Bool.false_eq_true, if_false, Prod.Lex.toLex_lt_toLex]
    split
    · simp [*]
    · simp [*]
  | true =>
    simp only [if_true, Prod.Lex.toLex_lt_toLex]
    split
    · simp [*]
    · simp [*]

/-- The vector as a heap: the first entry comes after no other one. How equal ones are ordered is left open. -/
structure TxHeap where
  arrange : Bool → List TxPriority → List TxPriority
  perm : ∀ byFee vec, (arrange byFee vec).Perm vec
  front : ∀ byFee vec first rest, arrange byFee vec = first :: rest → ∀ other ∈ rest, first.compare byFee other = false

def TxHeap.sorted : TxHeap where
  arrange byFee vec := vec.insertionSort fun a b => b.rank byFee ≤ a.rank byFee
  perm byFee vec := perm_insertionSort _ vec
  front := by
    intro byFee vec first rest h other hother
    have htotal : Std.Total fun a b : TxPriority => b.rank byFee ≤ a.rank byFee := ⟨fun a b => le_total _ _⟩
    have htrans : IsTrans TxPriority fun a b => b.rank byFee ≤ a.rank byFee := ⟨fun a b c hab hbc => hbc.trans hab⟩
    have hsorted := pairwise_insertionSort (fun a b : TxPriority => b.rank byFee ≤ a.rank byFee) vec
    rw [h, pairwise_cons] at hsorted
    rw [TxPriority.compare_eq, decide_eq_false_iff_not, not_lt]
    exact hsorted.1 other hother

/-- A transaction that waits for its parents. -/
abbrev COrphan := Waiting TxPriority Hash256

/-! ## `CreateNewBlock` -/

/-- A wallet that makes blocks, with the options of the node and the clock. -/
structure Miner extends Staker where
  /-- `GetAdjustedTime`. -/
  adjustedTime : Int
  /-- The public key for the coinbase, if the key pool has one. -/
  reservedKey : Option Bytes
  argBlockMaxSize : Int := (maxBlockSizeGen / 2 : Nat)
  argBlockPrioritySize : Int := 27000
  argBlockMinSize : Int := 0
  nMinTxFee : Int := minTxFee
  dPriority : CTransaction → ℚ
  dFeePerKb : CTransaction → ℚ
  heap : TxHeap
  nLastCoinStakeSearchTime : Int
  getNextTargetRequired : Bool → Nat

/-- The state of the loop that collects transactions. -/
structure Assembly where
  vtx : List CTransaction
  vecPriority : List TxPriority
  vOrphan : List COrphan
  mapTestPool : MapTxIndex := ∅
  nBlockSize : Nat := 1000
  nBlockSigOps : Nat := 100
  nFees : Int := 0
  fSortedByFee : Bool

def nMedianTimeSpan : Nat := 11

def getMedianTimePast (n : Node) (pindex : CBlockIndex) : Nat :=
  let times := ((n.ancestorsOf pindex).take nMedianTimeSpan).map CBlockIndex.nTime
  (times.insertionSort (· ≤ ·)).getD (times.length / 2) 0

def getMaxClockDrift (nHeight : Nat) : Int := if nHeight > 59860 then 8 * 60 else 2 * 60 * 60

def getMaxTransactionTime (vtx : List CTransaction) : Nat := vtx.foldl (fun time tx => max time tx.nTime) 0

/-- The time of the coinstake, in a proof-of-stake block. -/
def stakeTime : List CTransaction → Option Nat
  | _ :: tx1 :: _ => if tx1.isCoinStake then some tx1.nTime else none
  | _ => none

variable {st : Assembly}

namespace Miner

variable (m : Miner)

/-- An argument becomes an unsigned number. -/
def nBlockMaxSize : Nat := max 1000 (min (maxBlockSize - 1000) (m.argBlockMaxSize % 2 ^ 32).toNat)

def nBlockPrioritySize : Nat := min m.nBlockMaxSize (m.argBlockPrioritySize % 2 ^ 32).toNat

def nBlockMinSize : Nat := min m.nBlockMaxSize (m.argBlockMinSize % 2 ^ 32).toNat

abbrev src : TxSource := m.node.poolCtx.toTxSource

/-- The parents in the memory pool; `none` if an input is missing. -/
def dependsOn (tx : CTransaction) : Option (Finset Hash256) :=
  tx.vin.foldlM (fun deps txin =>
    if (ChainMan.readTxPrev m.node txin.prevout).isSome then some deps
    else if m.node.mempool.mapTx.contains txin.prevout.hash then some (insert txin.prevout.hash deps)
    else none) ∅

def candidate (entry : Hash256 × CTransaction) : Option COrphan :=
  let tx := entry.2
  if tx.isCoinBase || tx.isCoinStake || !tx.isFinal 0 0 m.node.nBestHeight m.adjustedTime then none
  else (m.dependsOn tx).map fun deps => ⟨⟨m.dPriority tx, m.dFeePerKb tx, tx⟩, deps⟩

def candidates : List COrphan := m.node.mempool.mapTx.toList.filterMap m.candidate

def connectTx (st : Assembly) (tx : CTransaction) : Option (MapTxIndex × Nat × Int) :=
  match fetchInputs m.src st.mapTestPool false true tx with
  | .ok mapInputs =>
    match tx.getValueIn mapInputs, tx.getValueOut, tx.getP2SHSigOpCount m.env mapInputs with
    | some nValueIn, some nValueOut, some nP2SH =>
      let nTxFees := nValueIn - nValueOut
      if nTxFees < tx.getMinFee st.nBlockSize then none
      else
        let nTxSigOps := tx.getLegacySigOpCount m.env + nP2SH
        if st.nBlockSigOps + nTxSigOps ≥ maxBlockSigops then none
        else (connectInputs m.env m.node.poolCtx tx mapInputs st.mapTestPool .memPool false true true).map
          fun mapTestPool => (mapTestPool, nTxSigOps, nTxFees)
    | _, _, _ => none
  | _ => none

def add (st : Assembly) (tx : CTransaction) (mapTestPool : MapTxIndex) (nTxSigOps : Nat) (nTxFees : Int) : Assembly :=
  let hash := tx.getHash m.env
  let vOrphan := st.vOrphan.map (Waiting.done hash)
  { st with
    vtx := st.vtx ++ [tx]
    mapTestPool := mapTestPool.insert hash (.ofOutputs .memPool tx.vout.length)
    nBlockSize := st.nBlockSize + tx.serializeSize
    nBlockSigOps := st.nBlockSigOps + nTxSigOps
    nFees := st.nFees + nTxFees
    vecPriority := st.vecPriority ++ Waiting.ready vOrphan
    vOrphan := Waiting.blocked vOrphan }

def step (st : Assembly) (first : TxPriority) : Assembly :=
  let tx := first.tx
  let nTxSize := tx.serializeSize
  if st.nBlockSize + nTxSize ≥ m.nBlockMaxSize then st
  else if st.nBlockSigOps + tx.getLegacySigOpCount m.env ≥ maxBlockSigops then st
  else if (tx.nTime : Int) > m.adjustedTime ∨ ∃ time ∈ stakeTime st.vtx, tx.nTime > time then st
  else if st.fSortedByFee ∧ first.dFeePerKb < m.nMinTxFee ∧ st.nBlockSize + nTxSize ≥ m.nBlockMinSize then st
  else
    -- sort by fee once past the priority size or the transactions with a high priority
    let st := if st.nBlockSize + nTxSize ≥ m.nBlockPrioritySize ∨ first.dPriority < (coin * 144 / 250 : Int) then
        { st with fSortedByFee := true }
      else st
    match m.connectTx st tx with
    | none => st
    | some (mapTestPool, nTxSigOps, nTxFees) => m.add st tx mapTestPool nTxSigOps nTxFees

/-- The loop; every turn takes an entry off the queue (`loop_fuel`). -/
def loop : Nat → Assembly → Assembly
  | 0, st => st
  | fuel + 1, st =>
    match m.heap.arrange st.fSortedByFee st.vecPriority with
    | [] => st
    | first :: rest => loop fuel (m.step { st with vecPriority := rest } first)

def collect (vtx : List CTransaction) : Assembly :=
  m.loop m.candidates.length
    { vtx
      vecPriority := Waiting.ready m.candidates
      vOrphan := Waiting.blocked m.candidates
      fSortedByFee := decide (m.nBlockPrioritySize ≤ 0) }

variable (pindexPrev : CBlockIndex)

/-- The least time of a block after `pindexPrev`, for the coinstake. -/
def minTime : Int :=
  max (getMedianTimePast m.node pindexPrev + 1) (pindexPrev.nTime - getMaxClockDrift (pindexPrev.nHeight + 1))

/-- The coinstake, if one is found that meets the timestamp protocol. -/
def findStake : Option CTransaction :=
  if (m.nTime : Int) > m.nLastCoinStakeSearchTime then
    (m.createCoinStake (m.getNextTargetRequired true) (m.nTime - m.nLastCoinStakeSearchTime)).filter
      fun txCoinStake => decide ((txCoinStake.nTime : Int) ≥ m.minTime pindexPrev)
  else none

/-- The coinbase, and the coinstake behind an empty one. -/
def firstTxs (pubkey : Bytes) (stake : Option CTransaction) : List CTransaction :=
  let txNew : CTransaction :=
    { nTime := m.adjustedTime.toNat, vin := [{ prevout := .null }], vout := [⟨-1, pushData pubkey ++ [0xac]⟩] }
  match stake with
  | some txCoinStake => [{ txNew with vout := [⟨0, []⟩], nTime := txCoinStake.nTime }, txCoinStake]
  | none => [txNew]

/-- The reward goes to the coinbase of a proof-of-work block. -/
def payReward (nHeight : Nat) (nFees : Int) (b : CBlock) : CBlock :=
  if b.isProofOfStake then b
  else
    match b.vtx with
    | coinbase :: vtx =>
      { b with vtx := { coinbase with vout := coinbase.vout.modifyHead fun out =>
          { out with nValue := getProofOfWorkReward nHeight nFees } } :: vtx }
    | [] => b

def fillHeader (st : Assembly) : CBlock :=
  let nTime := max (max ((getMedianTimePast m.node pindexPrev : Int) + 1) (getMaxTransactionTime st.vtx))
    (pindexPrev.nTime - getMaxClockDrift (pindexPrev.nHeight + 1))
  let b : CBlock :=
    { hashPrevBlock := pindexPrev.phashBlock, hashMerkleRoot := 0, nTime := nTime.toNat, nBits := 0, nNonce := 0
      vtx := st.vtx, vchBlockSig := [] }
  let b := { payReward (pindexPrev.nHeight + 1) st.nFees b with nBits := m.getNextTargetRequired b.isProofOfStake }
  if b.isProofOfStake then b else { b with nTime := (max (b.nTime : Int) m.adjustedTime).toNat }

def createNewBlock (fProofOfStake : Bool) : Option CBlock :=
  match m.reservedKey, m.node.bestEntry with
  | some pubkey, some pindexPrev =>
    let stake := if fProofOfStake then m.findStake pindexPrev else none
    some (m.fillHeader pindexPrev (m.collect (m.firstTxs pubkey stake)))
  | _, _ => none

/-! ## One turn of the loop -/

variable {m} {first : TxPriority}

theorem connectTx_spec (h : m.connectTx st tx = some (pool, nTxSigOps, nTxFees)) :
    ∃ mapInputs nP2SH, fetchInputs m.src st.mapTestPool false true tx = .ok mapInputs ∧
      tx.getP2SHSigOpCount m.env mapInputs = some nP2SH ∧ nTxSigOps = tx.getLegacySigOpCount m.env + nP2SH ∧
      st.nBlockSigOps + nTxSigOps < maxBlockSigops ∧
      connectInputs m.env m.node.poolCtx tx mapInputs st.mapTestPool .memPool false true true = some pool := by
  unfold connectTx at h
  split at h
  · rename_i mapInputs hf
    split at h
    · rename_i nValueIn nValueOut nP2SH hin ho hp
      dsimp only at h
      split_ifs at h with hfe hops
      obtain ⟨pool', hc, heq⟩ := Option.map_eq_some_iff.mp h
      obtain ⟨hpool, heq⟩ := Prod.mk.inj heq
      obtain ⟨rfl, -⟩ := Prod.mk.inj heq
      exact ⟨mapInputs, nP2SH, hf, hp, rfl, not_le.mp hops, hpool ▸ hc⟩
    · cases h
  · cases h

theorem step_cases (m : Miner) (st : Assembly) (first : TxPriority) :
    (∃ byFee, m.step st first = { st with fSortedByFee := byFee }) ∨
      ∃ byFee pool nTxSigOps nTxFees, st.nBlockSize + first.tx.serializeSize < m.nBlockMaxSize ∧
        m.connectTx { st with fSortedByFee := byFee } first.tx = some (pool, nTxSigOps, nTxFees) ∧
        m.step st first = m.add { st with fSortedByFee := byFee } first.tx pool nTxSigOps nTxFees := by
  unfold step
  dsimp only
  split
  · exact .inl ⟨_, rfl⟩
  rename_i hsi
  split
  · exact .inl ⟨_, rfl⟩
  split
  · exact .inl ⟨_, rfl⟩
  split
  · exact .inl ⟨_, rfl⟩
  have hs : ∃ byFee, (if st.nBlockSize + first.tx.serializeSize ≥ m.nBlockPrioritySize ∨
      first.dPriority < (coin * 144 / 250 : Int) then { st with fSortedByFee := true } else st) =
      { st with fSortedByFee := byFee } := by
    split
    · exact ⟨_, rfl⟩
    · exact ⟨st.fSortedByFee, rfl⟩
  obtain ⟨byFee, hs⟩ := hs
  rw [hs]
  cases hc : m.connectTx { st with fSortedByFee := byFee } first.tx with
  | none => exact .inl ⟨byFee, rfl⟩
  | some res =>
    obtain ⟨pool, nTxSigOps, nTxFees⟩ := res
    exact .inr ⟨byFee, pool, nTxSigOps, nTxFees, not_le.mp hsi, hc, rfl⟩

/-! ## The invariant -/

def parents (m : Miner) (p : TxPriority) : Finset Hash256 := (m.dependsOn p.tx).getD ∅

structure Pooled (m : Miner) (p : TxPriority) : Prop where
  mem : m.node.mempool.mapTx[p.tx.getHash m.env]? = some p.tx
  coinBase : p.tx.isCoinBase = false
  coinStake : p.tx.isCoinStake = false
  complete : m.dependsOn p.tx = some (m.parents p)

/-- The pool's spends are indexed and none of it is in the chain. -/
structure PoolConsistent (m : Miner) : Prop where
  index : m.node.mempool.SpendIndex m.env
  fresh : ∀ (h : Hash256) (tx : CTransaction), m.node.mempool.mapTx[h]? = some tx → m.node.txdb.readTxIndex h = none

end Miner

structure Assembled (m : Miner) (start : List CTransaction) (taken : List TxPriority) (st : Assembly) : Prop where
  vtx : st.vtx = start ++ taken.map TxPriority.tx
  pool : ∀ p ∈ taken ++ st.vecPriority ++ st.vOrphan.map Waiting.item, m.Pooled p
  scheduled : Scheduled (fun p => p.tx.getHash m.env) m.parents taken st.vecPriority st.vOrphan
  size : st.nBlockSize = 1000 + (taken.map fun p => p.tx.serializeSize).sum
  maxSize : st.nBlockSize ≤ m.nBlockMaxSize
  sigOps : st.nBlockSigOps = 100 + (taken.map fun p => m.src.sigOps m.env p.tx).sum
  maxSigOps : st.nBlockSigOps < maxBlockSigops
  pending : ∀ (h : Hash256) (e : CTxIndex), st.mapTestPool[h]? = some e → m.src.Agrees h e

variable {taken rest : List TxPriority}

namespace Assembled

variable {m : Miner} {first : TxPriority}

section
variable (h : Assembled m start taken st)
include h

theorem leave (hperm : st.vecPriority.Perm (first :: rest)) (byFee : Bool) :
    Assembled m start taken { st with vecPriority := rest, fSortedByFee := byFee } :=
  { h with
    scheduled := h.scheduled.drop hperm
    pool := by
      intro p hp
      apply h.pool
      simp only [mem_append, hperm.mem_iff, mem_cons] at hp ⊢
      tauto }

section
variable (hpool : m.PoolConsistent) (hperm : st.vecPriority.Perm (first :: rest))
include hpool hperm

theorem add (hsi : st.nBlockSize + first.tx.serializeSize < m.nBlockMaxSize) {pool : MapTxIndex}
    (hc : m.connectTx { st with vecPriority := rest } first.tx = some (pool, nTxSigOps, nTxFees)) :
    Assembled m start (taken ++ [first]) (m.add { st with vecPriority := rest } first.tx pool nTxSigOps nTxFees) := by
  obtain ⟨mapInputs, nP2SH, hf, hp2, rfl, hops, hi⟩ := Miner.connectTx_spec hc
  have hso : first.tx.getLegacySigOpCount m.env + nP2SH = m.src.sigOps m.env first.tx := by
    rw [TxSource.sigOps, ← getP2SHSigOpCount_eq (fun k e t hin => (fetchInputs_agrees hf h.pending hin).2) hp2]
  have hm : m.Pooled first := by
    apply h.pool
    simp [hperm.mem_iff]
  exact
    { vtx := by simp [Miner.add, h.vtx]
      pool := by
        intro p hp
        apply h.pool
        have hit : (st.vOrphan.map (Waiting.done (first.tx.getHash m.env))).map Waiting.item =
            st.vOrphan.map Waiting.item := by
          rw [map_map]
          rfl
        have hs := (Waiting.ready_append_blocked
          (st.vOrphan.map (Waiting.done (first.tx.getHash m.env)))).mem_iff (a := p)
        rw [hit, mem_append] at hs
        simp only [Miner.add, mem_append, hperm.mem_iff, mem_cons] at hp hs ⊢
        tauto
      scheduled := h.scheduled.take hperm
      size := by
        simp only [Miner.add, h.size, map_append, sum_append, map_cons, map_nil, sum_cons,
          sum_nil]
        omega
      maxSize := hsi.le
      sigOps := by
        simp only [Miner.add, h.sigOps, hso, map_append, sum_append, map_cons, map_nil,
          sum_cons, sum_nil]
        omega
      maxSigOps := hops
      pending := forall_getElem?_insert
        (connectInputs_agrees hi (fun k p hin => (fetchInputs_agrees hf h.pending hin).1) h.pending)
        (.inr ⟨hpool.fresh _ _ hm.mem, rfl⟩) }

theorem step : ∃ taken', Assembled m start taken' (m.step { st with vecPriority := rest } first) := by
  rcases m.step_cases { st with vecPriority := rest } first with ⟨byFee, heq⟩ |
    ⟨byFee, pool, nTxSigOps, nTxFees, hsi, hc, heq⟩
  · rw [heq]
    exact ⟨taken, h.leave hperm byFee⟩
  · rw [heq]
    have hs : Assembled m start taken { st with fSortedByFee := byFee } := { h with }
    exact ⟨taken ++ [first], hs.add hpool hperm hsi hc⟩

end

theorem loop (hpool : m.PoolConsistent) (fuel : Nat) : ∃ taken', Assembled m start taken' (m.loop fuel st) := by
  induction fuel generalizing taken st with
  | zero => exact ⟨taken, h⟩
  | succ fuel ih =>
    rw [Miner.loop]
    have hperm := m.heap.perm st.fSortedByFee st.vecPriority
    split
    · exact ⟨taken, h⟩
    rename_i first rest ha
    rw [ha] at hperm
    obtain ⟨taken', h'⟩ := h.step hpool hperm.symm
    exact ih h'

end

end Assembled

namespace Miner

variable {m : Miner}

theorem length_ready_append_blocked (l : List COrphan) :
    (Waiting.ready l).length + (Waiting.blocked l).length = l.length := by
  simpa using (Waiting.ready_append_blocked l).length_eq

theorem step_left (st : Assembly) (first : TxPriority) :
    (m.step st first).vecPriority.length + (m.step st first).vOrphan.length =
      st.vecPriority.length + st.vOrphan.length := by
  rcases m.step_cases st first with ⟨byFee, heq⟩ | ⟨byFee, pool, nTxSigOps, nTxFees, -, -, heq⟩
  · rw [heq]
  have hl := length_ready_append_blocked (st.vOrphan.map (Waiting.done (first.tx.getHash m.env)))
  rw [length_map] at hl
  rw [heq]
  simp only [add, length_append]
  omega

theorem loop_fuel (hf : st.vecPriority.length + st.vOrphan.length ≤ fuel) :
    (m.loop fuel st).vecPriority = [] := by
  induction fuel generalizing st with
  | zero => exact length_eq_zero_iff.mp (by show st.vecPriority.length = 0; omega)
  | succ fuel ih =>
    rw [loop]
    have hperm := m.heap.perm st.fSortedByFee st.vecPriority
    split
    · rename_i hn
      rw [hn] at hperm
      exact hperm.symm.eq_nil
    rename_i first rest ha
    rw [ha] at hperm
    have hl := hperm.length_eq
    rw [length_cons] at hl
    apply ih
    rw [step_left]
    show rest.length + st.vOrphan.length ≤ fuel
    omega

theorem collect_done (vtx : List CTransaction) : (m.collect vtx).vecPriority = [] :=
  loop_fuel (length_ready_append_blocked m.candidates).le

/-! ## The candidates -/

theorem candidate_some (h : m.candidate entry = some w) :
    w.item.tx = entry.2 ∧ m.dependsOn w.item.tx = some w.dependsOn ∧ entry.2.isCoinBase = false ∧
      entry.2.isCoinStake = false := by
  unfold candidate at h
  dsimp only at h
  split_ifs at h with hs
  obtain ⟨deps, hd, rfl⟩ := Option.map_eq_some_iff.mp h
  simp only [Bool.or_eq_true, not_or, Bool.not_eq_true] at hs
  exact ⟨rfl, hd, hs.1.1, hs.1.2⟩

theorem mem_candidates (hpool : m.PoolConsistent) (h : w ∈ m.candidates) :
    m.Pooled w.item ∧ w.dependsOn = m.parents w.item := by
  obtain ⟨entry, he, hw⟩ := mem_filterMap.mp h
  obtain ⟨htx, hd, hb, hs⟩ := candidate_some hw
  have hg := ExtTreeMap.mem_toList_iff_getElem?_eq_some.mp he
  have hp : w.dependsOn = m.parents w.item := by rw [parents, hd, Option.getD_some]
  refine ⟨⟨?_, ?_, ?_, hp ▸ hd⟩, hp⟩
  · rw [htx, hpool.index.keys hg]
    exact hg
  · rw [htx]
    exact hb
  · rw [htx]
    exact hs

theorem nodup_candidates (hpool : m.PoolConsistent) :
    ((m.candidates.map Waiting.item).map fun p => p.tx.getHash m.env).Nodup := by
  have hk : (m.node.mempool.mapTx.toList.map Prod.fst).Nodup := by
    rw [ExtTreeMap.map_fst_toList_eq_keys]
    exact ExtTreeMap.nodup_keys
  have hs : ∀ l : List (Hash256 × CTransaction), (∀ e ∈ l, e.2.getHash m.env = e.1) →
      (((l.filterMap m.candidate).map Waiting.item).map fun p => p.tx.getHash m.env).Sublist (l.map Prod.fst) := by
    intro l hl
    induction l with
    | nil => exact List.Sublist.refl _
    | cons e l ih =>
      rw [forall_mem_cons] at hl
      rw [filterMap_cons]
      split
      · exact (ih hl.2).cons e.1
      · rename_i w hw
        rw [map_cons, map_cons, map_cons, (candidate_some hw).1, hl.1]
        exact (ih hl.2).cons_cons e.1
  refine (hs _ ?_).nodup hk
  intro e he
  exact hpool.index.keys (ExtTreeMap.mem_toList_iff_getElem?_eq_some.mp he)

theorem mem_dependsOn (h : m.dependsOn tx = some deps) (hin : txin ∈ tx.vin)
    (hre : ChainMan.readTxPrev m.node txin.prevout = none) : txin.prevout.hash ∈ deps := by
  have hf : ∀ (vin : List CTxIn) (acc : Finset Hash256), vin.foldlM (fun deps txin =>
      if (ChainMan.readTxPrev m.node txin.prevout).isSome then some deps
      else if m.node.mempool.mapTx.contains txin.prevout.hash then some (insert txin.prevout.hash deps)
      else none) acc = some deps → acc ⊆ deps ∧ ∀ txin ∈ vin, ChainMan.readTxPrev m.node txin.prevout = none →
        txin.prevout.hash ∈ deps := by
    intro vin
    induction vin with
    | nil =>
      intro acc ha
      obtain rfl := Option.some.inj ha
      exact ⟨subset_refl _, by simp⟩
    | cons i vin ih =>
      intro acc ha
      rw [foldlM_cons] at ha
      obtain ⟨acc', hs, ha⟩ := Option.bind_eq_some_iff.mp ha
      obtain ⟨hsu, hr⟩ := ih acc' ha
      rw [forall_mem_cons]
      split_ifs at hs with hd hm
      · obtain rfl := Option.some.inj hs
        refine ⟨hsu, fun hn => ?_, hr⟩
        rw [hn] at hd
        cases hd
      · obtain rfl := Option.some.inj hs
        exact ⟨(Finset.subset_insert _ _).trans hsu, fun _ => hsu (Finset.mem_insert_self _ _), hr⟩
  exact (hf tx.vin ∅ h).2 txin hin hre

theorem collect_assembled (hpool : m.PoolConsistent) (start : List CTransaction) :
    ∃ taken, Assembled m start taken (m.collect start) := by
  have hi : Assembled m start []
      { vtx := start, vecPriority := Waiting.ready m.candidates, vOrphan := Waiting.blocked m.candidates
        fSortedByFee := decide (m.nBlockPrioritySize ≤ 0) } := by
    constructor
    case vtx => simp
    case pool =>
      intro p hp
      rw [nil_append, (Waiting.ready_append_blocked m.candidates).mem_iff] at hp
      obtain ⟨w, hw, rfl⟩ := mem_map.mp hp
      exact (mem_candidates hpool hw).1
    case scheduled => exact .init (nodup_candidates hpool) fun w hw => (mem_candidates hpool hw).2
    case size => rfl
    case maxSize => exact le_max_left _ _
    case sigOps => rfl
    case maxSigOps => show 100 < maxBlockSigops; decide
    case pending =>
      intro h e he
      simp at he
  exact hi.loop hpool _

/-! ## The block -/

theorem isProofOfStake_payReward (nHeight : Nat) (nFees : Int) (b : CBlock) :
    (payReward nHeight nFees b).isProofOfStake = b.isProofOfStake := by
  unfold payReward
  split
  · rfl
  split
  · rename_i coinbase vtx hv
    unfold CBlock.isProofOfStake
    rw [hv]
    cases vtx <;> rfl
  · rfl

theorem isProofOfStake_eq (b : CBlock) : b.isProofOfStake = (stakeTime b.vtx).isSome := by
  unfold CBlock.isProofOfStake stakeTime
  rcases b.vtx with - | ⟨tx0, - | ⟨tx1, vtx⟩⟩
  · rfl
  · rfl
  · cases hcs : tx1.isCoinStake <;> simp [hcs]

theorem fillHeader_stake (m : Miner) (pindexPrev : CBlockIndex)
    (h : (m.fillHeader pindexPrev st).isProofOfStake = true) :
    (m.fillHeader pindexPrev st).vtx = st.vtx ∧ (m.fillHeader pindexPrev st).vchBlockSig = [] ∧
      getMaxTransactionTime st.vtx ≤ (m.fillHeader pindexPrev st).nTime := by
  unfold fillHeader at h ⊢
  dsimp only at h ⊢
  generalize hn : (max (max ((getMedianTimePast m.node pindexPrev : Int) + 1) (getMaxTransactionTime st.vtx))
    (pindexPrev.nTime - getMaxClockDrift (pindexPrev.nHeight + 1))).toNat = nTime at h ⊢
  have ht : getMaxTransactionTime st.vtx ≤ nTime := by omega
  generalize hr : ({ hashPrevBlock := pindexPrev.phashBlock, hashMerkleRoot := 0, nTime, nBits := 0, nNonce := 0,
                     vtx := st.vtx, vchBlockSig := [] } : CBlock) = raw at h ⊢
  have hp : raw.isProofOfStake = true := by
    rw [← isProofOfStake_payReward (pindexPrev.nHeight + 1) st.nFees]
    split at h
    · exact h
    · exact h
  have hs : payReward (pindexPrev.nHeight + 1) st.nFees raw = raw := by rw [payReward, if_pos hp]
  rw [hs]
  split
  · rw [← hr]
    exact ⟨rfl, rfl, ht⟩
  · exact absurd hp ‹_›

theorem le_getMaxTransactionTime (h : tx ∈ vtx) : tx.nTime ≤ getMaxTransactionTime vtx := by
  have hfo : ∀ (l : List CTransaction) (time : Nat), time ≤ l.foldl (fun time tx => max time tx.nTime) time ∧
      ∀ tx ∈ l, tx.nTime ≤ l.foldl (fun time tx => max time tx.nTime) time := by
    intro l
    induction l with
    | nil =>
      intro time
      exact ⟨le_refl time, by simp⟩
    | cons a l ih =>
      intro time
      obtain ⟨hf, hr⟩ := ih (max time a.nTime)
      rw [foldl_cons, forall_mem_cons]
      exact ⟨(le_max_left _ _).trans hf, (le_max_right _ _).trans hf, hr⟩
  exact (hfo vtx 0).2 tx h

theorem createNewBlock_assembled (hpool : m.PoolConsistent) (h : m.createNewBlock true = some b)
    (hs : b.isProofOfStake = true) :
    ∃ pindexPrev coinbase txCoinStake taken st, m.findStake pindexPrev = some txCoinStake ∧
      coinbase = { nTime := txCoinStake.nTime, vin := [{ prevout := .null }], vout := [⟨0, []⟩] } ∧
      Assembled m [coinbase, txCoinStake] taken st ∧ b.vtx = coinbase :: txCoinStake :: taken.map TxPriority.tx ∧
      b.vchBlockSig = [] ∧ getMaxTransactionTime b.vtx ≤ b.nTime := by
  unfold createNewBlock at h
  split at h
  case h_2 => cases h
  rename_i pubkey pindexPrev _ hb
  rw [if_pos rfl] at h
  obtain rfl := Option.some.inj h
  obtain ⟨hv, hsi, hti⟩ := fillHeader_stake m pindexPrev hs
  obtain ⟨taken, ha⟩ := collect_assembled hpool (m.firstTxs pubkey (m.findStake pindexPrev))
  rw [isProofOfStake_eq, hv, ha.vtx] at hs
  rw [← hv] at hti
  cases hf : m.findStake pindexPrev with
  | none =>
    rw [hf] at hs ha
    cases ht : taken with
    | nil =>
      rw [ht] at hs
      cases hs
    | cons p rest =>
      have hp : m.Pooled p := ha.pool p (by simp [ht])
      rw [ht] at hs
      simp [firstTxs, stakeTime, hp.coinStake] at hs
  | some txCoinStake =>
    rw [hf] at ha hv hti hsi
    refine ⟨pindexPrev, _, txCoinStake, taken, _, hf, rfl, ha, ?_, hsi, hti⟩
    rw [hv, ha.vtx]
    rfl

end Miner

end CloakCoin.Wallet
