import CloakCoin.Chain.Inputs
import CloakCoin.Chain.Mempool
import CloakCoin.Wallet.Wallet

/-!
# Connecting and disconnecting a block

The node state and `ConnectBlock`/`DisconnectBlock` on it. The transaction loop works on `ConnectState` (pending index
changes and sums) and is the fold of `connectTx`.
-/

namespace CloakCoin.Chain

open Lib Wallet
open Std (ExtTreeMap)
open Option Bool

variable {pindex : CBlockIndex}

abbrev BlockMap := ExtTreeMap Hash256 CBlockIndex

/-- The globals of `main.cpp`. -/
structure Node where
  txdb : CTxDB
  files : BlockFiles
  mapBlockIndex : BlockMap
  pindexGenesisBlock : Option Hash256
  pindexBest : Option Hash256
  hashBestChain : Hash256
  nBestHeight : Int
  bnBestChainTrust : Nat
  bnBestInvalidTrust : Nat
  mempool : CTxMemPool
  wallets : List CWallet

/-- Follow `pprev` for at most `fuel` entries. -/
def walkBack (m : BlockMap) : Nat → Option Hash256 → List CBlockIndex
  | 0, _ => []
  | _ + 1, none => []
  | fuel + 1, some h =>
    match m[h]? with
    | none => []
    | some p => p :: walkBack m fuel p.pprev

namespace Node

/-- The entry with its ancestors; heights fall at each link. -/
def ancestorsOf (n : Node) (p : CBlockIndex) : List CBlockIndex := p :: walkBack n.mapBlockIndex p.nHeight p.pprev

def connectCtx (n : Node) (pindex : CBlockIndex) : ConnectCtx where
  readTxIndex := n.txdb.readTxIndex
  readTx := n.files.readTx
  readBlockTime := n.files.readBlockTime
  mempoolLookup := fun h => n.mempool.mapTx[h]?
  ancestors := n.ancestorsOf pindex
  nBestHeight := n.nBestHeight

/-- Write through the pointer to an entry of `mapBlockIndex`. -/
def setIndex (n : Node) (p : CBlockIndex) : Node :=
  if n.mapBlockIndex.contains p.phashBlock then
    { n with mapBlockIndex := n.mapBlockIndex.insert p.phashBlock p }
  else n

def setTxdb (n : Node) (db : CTxDB) : Node := { n with txdb := db }

end Node

/-! ## `ConnectBlock` -/

structure ConnectState where
  nTxPos : Nat
  mapQueuedChanges : MapTxIndex := ∅
  nFees : Int := 0
  nValueIn : Int := 0
  nValueOut : Int := 0
  nSigOps : Nat := 0

section
variable (env : Env)

def overwritesUnspent (src : TxSource) (hashTx : Hash256) : Bool :=
  match src.readTxIndex hashTx with
  | none => false
  | some txindexOld => txindexOld.vSpent.any CDiskTxPos.isNull

variable (st : ConnectState)

def ConnectState.posThisTx (pindex : CBlockIndex) : CDiskTxPos :=
  .ofFile pindex.nFile pindex.nBlockPos st.nTxPos

variable (ctx : ConnectCtx)

def connectSpend (pindex : CBlockIndex) (st : ConnectState) (tx : CTransaction) : Option ConnectState :=
  match fetchInputs ctx.toTxSource st.mapQueuedChanges true false tx with
  | .ok mapInputs =>
    match tx.getP2SHSigOpCount env mapInputs, tx.getValueIn mapInputs, tx.getValueOut with
    | some nP2SH, some nTxValueIn, some nTxValueOut =>
      if st.nSigOps + nP2SH > maxBlockSigops then none
      else
        (connectInputs env ctx tx mapInputs st.mapQueuedChanges (st.posThisTx pindex) true false true).map
          fun queued => { st with
            mapQueuedChanges := queued
            nSigOps := st.nSigOps + nP2SH
            nValueIn := st.nValueIn + nTxValueIn
            nValueOut := st.nValueOut + nTxValueOut
            nFees := if tx.isCoinStake then st.nFees else st.nFees + (nTxValueIn - nTxValueOut) }
    | _, _, _ => none
  | _ => none

def connectTx (pindex : CBlockIndex) (fJustCheck : Bool) (st : ConnectState) (tx : CTransaction) :
    Option ConnectState :=
  if overwritesUnspent ctx.toTxSource (tx.getHash env) then none
  else
    let st := { st with nSigOps := st.nSigOps + tx.getLegacySigOpCount env }
    if st.nSigOps > maxBlockSigops then none
    else
      let spent := if tx.isCoinBase then
          tx.getValueOut.map fun v => { st with nValueOut := st.nValueOut + v }
        else connectSpend env ctx pindex st tx
      spent.map fun st' => { st' with
        nTxPos := if fJustCheck then st.nTxPos else st.nTxPos + tx.serializeSize
        mapQueuedChanges := st'.mapQueuedChanges.insert (tx.getHash env)
          (CTxIndex.ofOutputs (st.posThisTx pindex) tx.vout.length) }

def firstTxPos (pindex : CBlockIndex) (b : CBlock) : Nat :=
  pindex.nBlockPos + CBlock.headerSize + getSizeOfCompactSize b.vtx.length

def connectTxs (pindex : CBlockIndex) (fJustCheck : Bool) (b : CBlock) : Option ConnectState :=
  b.vtx.foldlM (connectTx env ctx pindex fJustCheck)
    { nTxPos := if fJustCheck then 1 else firstTxPos pindex b }

namespace Node

def writeQueued (db : CTxDB) (queued : MapTxIndex) : CTxDB :=
  queued.toList.foldl (fun db p => db.updateTxIndex p.1 p.2) db

/-- `nMint` and `nMoneySupply` of the entry, in memory and in the database. -/
def recordSupply (n : Node) (pindex : CBlockIndex) (st : ConnectState) : CBlockIndex × Node :=
  let nPrevSupply := ((pindex.pprev.bind (n.mapBlockIndex[·]?)).map CBlockIndex.nMoneySupply).getD 0
  let pindex := { pindex with
    nMint := st.nValueOut - st.nValueIn + st.nFees
    nMoneySupply := nPrevSupply + st.nValueOut - st.nValueIn }
  (pindex, (n.setIndex pindex).setTxdb (n.txdb.writeBlockIndex env pindex.toDisk))

/-- Update the previous block's entry on disk without changing it in memory. -/
def writeHashNext (n : Node) (pindex : CBlockIndex) (hashNext : Hash256) : Node :=
  match pindex.pprev.bind (n.mapBlockIndex[·]?) with
  | none => n
  | some prev => n.setTxdb (n.txdb.writeBlockIndex env { prev.toDisk with hashNext := hashNext })

def syncBlock (n : Node) (b : CBlock) (fUpdate fConnect : Bool) : Node :=
  { n with wallets := b.vtx.foldl (fun ws tx => syncWithWallets env ws tx (some b) fUpdate fConnect) n.wallets }

def connectBlock (n : Node) (b : CBlock) (pindex : CBlockIndex) (fJustCheck : Bool) : Bool × Node :=
  if !b.checkBlock env (!fJustCheck) (!fJustCheck) then (false, n)
  else
    match connectTxs env (n.connectCtx pindex) pindex fJustCheck b with
    | none => (false, n)
    | some st =>
      let (pindex, n) := n.recordSupply env pindex st
      if fJustCheck then (true, n)
      else
        let n := n.setTxdb (writeQueued n.txdb st.mapQueuedChanges)
        match b.vtx.head?.bind CTransaction.getValueOut with
        | none => (false, n)
        | some nCoinbase =>
          if nCoinbase > getProofOfWorkReward pindex.nHeight st.nFees then (false, n)
          else (true, (n.writeHashNext env pindex pindex.phashBlock).syncBlock env b true true)

end Node

/-! ## `DisconnectBlock` -/

/-- Relinquish previous transactions' spent pointers. -/
def releaseInputs : CTxDB → List CTxIn → Bool × CTxDB
  | db, [] => (true, db)
  | db, txin :: rest =>
    match db.readTxIndex txin.prevout.hash with
    | none => (false, db)
    | some txindex =>
      if txin.prevout.n ≥ txindex.vSpent.length then (false, db)
      else releaseInputs (db.updateTxIndex txin.prevout.hash
        { txindex with vSpent := txindex.vSpent.set txin.prevout.n .null }) rest

def disconnectInputs (db : CTxDB) (tx : CTransaction) : Bool × CTxDB :=
  match (if tx.isCoinBase then (true, db) else releaseInputs db tx.vin) with
  | (false, db) => (false, db)
  | (true, db) => (true, db.eraseTxIndex env tx)

def disconnectTxs : CTxDB → List CTransaction → Bool × CTxDB
  | db, [] => (true, db)
  | db, tx :: rest =>
    match disconnectInputs env db tx with
    | (false, db) => (false, db)
    | (true, db) => disconnectTxs db rest

def Node.disconnectBlock (n : Node) (b : CBlock) (pindex : CBlockIndex) : Bool × Node :=
  match disconnectTxs env n.txdb b.vtx.reverse with
  | (false, db) => (false, n.setTxdb db)
  | (true, db) => (true, ((n.setTxdb db).writeHashNext env pindex 0).syncBlock env b false false)

/-! ## What one transaction does -/

/-- The index after `tx`, stored at `pos`, is connected. -/
def applyTx (idx : SlotIndex Hash256 CDiskTxPos) (tx : CTransaction) (pos : CDiskTxPos) :
    SlotIndex Hash256 CDiskTxPos :=
  (idx.take tx.outpoints pos).create (tx.getHash env) (CTxIndex.ofOutputs pos tx.vout.length)

def ConnectState.index (src : TxSource) : SlotIndex Hash256 CDiskTxPos :=
  overlay st.mapQueuedChanges src.readTxIndex

/-- The value of everything `tx` spends. -/
def ConnectState.txValueIn (src : TxSource) (tx : CTransaction) : Int :=
  (tx.outpoints.map (src.spentValue (st.index src))).sum

structure TxConnected (src : TxSource) (pindex : CBlockIndex) (st : ConnectState) (tx : CTransaction)
    (st' : ConnectState) : Prop where
  fresh : overwritesUnspent src (tx.getHash env) = false
  nodup : tx.outpoints.Nodup
  free : ∀ o ∈ tx.outpoints, (st.index src).slot o = some .null
  index : st'.index src = applyTx env (st.index src) tx (st.posThisTx pindex)
  txPos : st'.nTxPos = st.nTxPos + tx.serializeSize
  valueIn : st'.nValueIn = st.nValueIn + st.txValueIn src tx
  valueOut : st'.nValueOut = st.nValueOut + tx.valueOut
  fees : st'.nFees = st.nFees + if tx.isCoinBase || tx.isCoinStake then 0
    else st.txValueIn src tx - tx.valueOut
  outputs : ∀ o ∈ tx.vout, 0 ≤ o.nValue
  stake : tx.isCoinStake = true → ∃ nCoinAge, getCoinAge env src tx = some nCoinAge ∧
    tx.valueOut - st.txValueIn src tx ≤ getProofOfStakeReward nCoinAge
  fee : tx.isCoinBase = false → tx.isCoinStake = false →
    tx.valueOut + minTxFee ≤ st.txValueIn src tx

variable {env}

theorem connectSpend_spec {ctx : ConnectCtx} {st st' : ConnectState} {tx : CTransaction} (hcb : tx.isCoinBase = false)
    (h : connectSpend env ctx pindex st tx = some st') :
    tx.outpoints.Nodup ∧ (∀ o ∈ tx.outpoints, (st.index ctx.toTxSource).slot o = some .null) ∧
      st'.index ctx.toTxSource = (st.index ctx.toTxSource).take tx.outpoints (st.posThisTx pindex) ∧
      st'.nTxPos = st.nTxPos ∧ valuesOk env ctx.toTxSource tx (st.txValueIn ctx.toTxSource tx) = true ∧
      st'.nValueIn = st.nValueIn + st.txValueIn ctx.toTxSource tx ∧
      st'.nValueOut = st.nValueOut + tx.valueOut ∧
      st'.nFees = st.nFees + if tx.isCoinStake then 0 else st.txValueIn ctx.toTxSource tx - tx.valueOut := by
  unfold connectSpend at h
  split at h
  · rename_i inputs hfe
    have hf := fetchInputs_spec hfe
    split at h
    · rename_i p2sh vIn vOut _ hIn ho
      split at h
      · cases h
      obtain ⟨queued, hc, rfl⟩ := map_eq_some_iff.mp h
      obtain ⟨hnd, hfr, ht, vIn', hi', hok⟩ :=
        connectInputs_spec (CDiskTxPos.ofFile_ne_null _ _ _) hcb hf hc
      obtain rfl : vIn = vIn' := by rw [hIn, some.injEq] at hi'; exact hi'
      obtain rfl := getValueIn_eq hf hcb hIn
      obtain rfl := (CTransaction.getValueOut_eq_some ho).1
      refine ⟨hnd, hfr, ht, rfl, hok, rfl, rfl, ?_⟩
      split_ifs
      · rw [add_zero]
      · rfl
    · cases h
  · cases h

theorem connectTx_spec {ctx : ConnectCtx} {st st' : ConnectState} {tx : CTransaction}
    (h : connectTx env ctx pindex false st tx = some st') : TxConnected env ctx.toTxSource pindex st tx st' := by
  simp only [connectTx, false_eq_true, if_false] at h
  split at h
  · cases h
  rename_i hf
  split at h
  · cases h
  by_cases hcb : tx.isCoinBase = true
  · -- coinbase: nothing is spent
    rw [if_pos hcb] at h
    obtain ⟨st1, hs, rfl⟩ := map_eq_some_iff.mp h
    obtain ⟨v, hv, rfl⟩ := map_eq_some_iff.mp hs
    obtain ⟨rfl, hp⟩ := CTransaction.getValueOut_eq_some hv
    have ho : tx.outpoints = [] := by simp [CTransaction.outpoints, hcb]
    have hst := CTransaction.isCoinStake_of_isCoinBase hcb
    constructor
    case index =>
      rw [applyTx, ho, SlotIndex.take_nil, ConnectState.index, overlay_insert]
      rfl
    all_goals simp_all [ConnectState.txValueIn]
  · rw [if_neg hcb] at h
    obtain ⟨st1, hs, rfl⟩ := map_eq_some_iff.mp h
    have hc' : tx.isCoinBase = false := by simpa using hcb
    obtain ⟨hnd, hfr, hi, hp, hok, hvi, hvo, hfe⟩ := connectSpend_spec hc' hs
    obtain ⟨hva, hst, hfee⟩ := valuesOk_spec hok
    constructor
    case fresh => simpa using hf
    case nodup => exact hnd
    case free => exact hfr
    case index =>
      rw [applyTx, ConnectState.index, overlay_insert]
      exact congrArg (fun i => Function.update i _ _) hi
    case txPos => rfl
    case valueIn => exact hvi
    case valueOut => exact hvo
    case fees =>
      rw [hc', Bool.false_or]
      exact hfe
    case outputs => exact (CTransaction.getValueOut_eq_some hva).2
    case stake => exact hst
    case fee => exact fun _ => hfee

/-! ## What a block does -/

namespace Node

variable (env) in
/-- A successful `ConnectBlock` from `n` to `n'`. -/
structure BlockConnected (n : Node) (b : CBlock) (pindex : CBlockIndex) (st : ConnectState) (n' : Node) :
    Prop where
  check : b.checkBlock env true true = true
  txs : connectTxs env (n.connectCtx pindex) pindex false b = some st
  index : n'.txdb.txIndex = st.index (n.connectCtx pindex).toTxSource
  reward : ∀ tx0 rest, b.vtx = tx0 :: rest → tx0.valueOut ≤ getProofOfWorkReward pindex.nHeight st.nFees
  blocks : n'.mapBlockIndex = (n.setIndex (n.recordSupply env pindex st).1).mapBlockIndex
  files : n'.files = n.files
  best : n'.pindexBest = n.pindexBest

theorem txIndex_writeQueued (db : CTxDB) (queued : MapTxIndex) :
    (writeQueued db queued).txIndex = overlay queued db.txIndex :=
  foldl_toList_eq_overlay CTxDB.txIndex (fun db p => db.txIndex_updateTxIndex p.1 p.2) queued db

@[simp] theorem setIndex_txdb (n : Node) (p : CBlockIndex) : (n.setIndex p).txdb = n.txdb := by
  unfold setIndex
  split <;> rfl

@[simp] theorem setIndex_files (n : Node) (p : CBlockIndex) : (n.setIndex p).files = n.files := by
  unfold setIndex
  split <;> rfl

@[simp] theorem setIndex_pindexBest (n : Node) (p : CBlockIndex) : (n.setIndex p).pindexBest = n.pindexBest := by
  unfold setIndex
  split <;> rfl

variable (env) in
theorem writeHashNext_eq (n : Node) (p : CBlockIndex) (h : Hash256) :
    ∃ db, n.writeHashNext env p h = n.setTxdb db ∧ db.txIndex = n.txdb.txIndex ∧
      db.readHashBestChain = n.txdb.readHashBestChain := by
  unfold writeHashNext
  split
  · exact ⟨n.txdb, rfl, rfl, rfl⟩
  · exact ⟨_, rfl, CTxDB.txIndex_writeBlockIndex _ _ _, CTxDB.readHashBestChain_writeBlockIndex _ _ _⟩

theorem connectBlock_spec {n : Node} {b : CBlock} (h : (n.connectBlock env b pindex false).1 = true) :
    ∃ st, BlockConnected env n b pindex st (n.connectBlock env b pindex false).2 := by
  unfold connectBlock at h ⊢
  cases hc : b.checkBlock env true true with
  | false => simp [hc] at h
  | true =>
    simp only [Bool.not_false, hc, Bool.not_true, Bool.false_eq_true, if_false] at h ⊢
    cases hs : connectTxs env (n.connectCtx pindex) pindex false b with
    | none => simp [hs] at h
    | some st =>
      simp only [hs] at h ⊢
      cases hv : b.vtx.head?.bind CTransaction.getValueOut with
      | none => simp [hv] at h
      | some v =>
        simp only [hv] at h ⊢
        split at h
        · cases h
        rename_i hle
        rw [if_neg hle]
        obtain ⟨db, hdb, hi, -⟩ := writeHashNext_eq env
          ((n.recordSupply env pindex st).2.setTxdb
            (writeQueued (n.recordSupply env pindex st).2.txdb st.mapQueuedChanges))
          (n.recordSupply env pindex st).1 (n.recordSupply env pindex st).1.phashBlock
        rw [hdb]
        refine ⟨st, hc, hs, ?_, ?_, rfl, setIndex_files _ _, setIndex_pindexBest _ _⟩
        · change db.txIndex = _
          rw [hi]
          change (writeQueued _ _).txIndex = _
          rw [txIndex_writeQueued]
          simp [recordSupply, setTxdb, ConnectState.index, connectCtx]
          rfl
        · intro tx0 rest hvt
          simp only [hvt, List.head?_cons, Option.bind_some] at hv
          obtain rfl := (CTransaction.getValueOut_eq_some hv).1
          exact not_lt.mp hle

end Node

end
end CloakCoin.Chain
