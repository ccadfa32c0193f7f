import CloakCoin.Lib.Forest
import CloakCoin.Chain.Supply

/-!
# The best chain

`Reorganize`, `SetBestChainInner` and `SetBestChain` on the node state; `io` says which blocks can be read. A
reorganisation runs in one batch up to the first block with more trust than the best chain; the blocks after it are
connected one by one.
-/

namespace CloakCoin.Chain

open Lib Wallet
open Std (ExtTreeMap)

variable {p : CBlockIndex} {n : Node}

namespace Node

/-! ## Links between blocks -/

def prevOf (n : Node) (h : Hash256) : Option Hash256 := (n.mapBlockIndex[h]?).bind CBlockIndex.pprev

def heightOf (n : Node) (h : Hash256) : Nat := ((n.mapBlockIndex[h]?).map CBlockIndex.nHeight).getD 0

def setNext (n : Node) (h : Hash256) (k : Option Hash256) : Node :=
  match n.mapBlockIndex[h]? with
  | none => n
  | some p => n.setIndex { p with pnext := k }

/-- `pindex->pprev->pnext = k`, if there is a previous block. -/
def setNextOfPrev (n : Node) (h : Hash256) (k : Option Hash256) : Node :=
  match n.prevOf h with
  | none => n
  | some prev => n.setNext prev k

section
variable (env : Env) (io : Hash256 → Bool)

def readBlock (n : Node) (h : Hash256) : Option (CBlockIndex × CBlock) :=
  match n.mapBlockIndex[h]? with
  | none => none
  | some pindex => if io h then (n.files.readFromDisk env pindex).map fun block => (pindex, block) else none

/-! ## `Reorganize` -/

def findFork (n : Node) (pindexBest pindexNew : Hash256) : Option Hash256 :=
  meet n.prevOf n.heightOf (n.heightOf pindexBest + n.heightOf pindexNew + 1) pindexBest pindexNew

/-- The blocks from `pindex` down to the fork, without the fork. -/
def branchTo (n : Node) (pfork pindex : Hash256) : List Hash256 := pathTo n.prevOf pfork (n.heightOf pindex) pindex

def disconnectBranch : List Hash256 → Node → Bool × Node × List CTransaction
  | [], n => (true, n, [])
  | h :: vDisconnect, n =>
    match n.readBlock env io h with
    | none => (false, n, [])
    | some (pindex, block) =>
      match n.disconnectBlock env block pindex with
      | (false, n) => (false, n, [])
      | (true, n) =>
        let (ok, n, vResurrect) := disconnectBranch vDisconnect n
        (ok, n, (block.vtx.filter fun tx => !(tx.isCoinBase || tx.isCoinStake)) ++ vResurrect)

def connectBranch : List Hash256 → Node → Bool × Node × List CTransaction
  | [], n => (true, n, [])
  | h :: vConnect, n =>
    match n.readBlock env io h with
    | none => (false, n, [])
    | some (pindex, block) =>
      match n.connectBlock env block pindex false with
      | (false, n) => (false, n, []) -- invalid block
      | (true, n) =>
        let (ok, n, vDelete) := connectBranch vConnect n
        (ok, n, block.vtx ++ vDelete)

def relink (n : Node) (vDisconnect vConnect : List Hash256) (vResurrect vDelete : List CTransaction) : Node :=
  let n := vDisconnect.foldl (fun n h => n.setNextOfPrev h none) n
  let n := vConnect.foldl (fun n h => n.setNextOfPrev h (some h)) n
  let pool := vResurrect.foldl (fun pool tx => (pool.accept env tx).2) n.mempool
  { n with mempool := vDelete.foldl (CTxMemPool.remove env) pool }

def reorganize (n : Node) (pindexBest pindexNew : Hash256) : Bool × Node :=
  match n.findFork pindexBest pindexNew with
  | none => (false, n)
  | some pfork =>
    let vDisconnect := n.branchTo pfork pindexBest
    let vConnect := (n.branchTo pfork pindexNew).reverse
    match disconnectBranch env io vDisconnect n with
    | (false, n, _) => (false, n)
    | (true, n, vResurrect) =>
      match connectBranch env io vConnect n with
      | (false, n, _) => (false, n)
      | (true, n, vDelete) =>
        -- make sure it is written to disk before changing memory structure
        match (n.txdb.writeHashBestChain pindexNew).txnCommit with
        | (false, db) => (false, n.setTxdb db)
        | (true, db) => (true, (n.setTxdb db).relink env vDisconnect vConnect vResurrect vDelete)

/-! ## `SetBestChain` -/

def invalidChainFound (n : Node) (pindexNew : CBlockIndex) : Node :=
  if pindexNew.bnChainTrust > n.bnBestInvalidTrust then { n with bnBestInvalidTrust := pindexNew.bnChainTrust } else n

def setBestChainInner (n : Node) (b : CBlock) (pindexNew : CBlockIndex) : Bool × Node :=
  match n.connectBlock env b pindexNew false with
  | (false, n) => (false, (n.setTxdb n.txdb.txnAbort).invalidChainFound pindexNew)
  | (true, n) =>
    match (n.txdb.writeHashBestChain (b.getHash env)).txnCommit with
    | (false, db) => (false, n.setTxdb db)
    | (true, db) =>
      let n := (n.setTxdb db).setNextOfPrev pindexNew.phashBlock (some pindexNew.phashBlock)
      (true, { n with mempool := b.vtx.foldl (CTxMemPool.remove env) n.mempool })

def postpone (n : Node) (bnBestTrust : Nat) : Nat → Hash256 → List Hash256 × Hash256
  | 0, h => ([], h)
  | fuel + 1, h =>
    match n.prevOf h with
    | none => ([], h)
    | some prev =>
      if ((n.mapBlockIndex[prev]?).map CBlockIndex.bnChainTrust).getD 0 > bnBestTrust then
        let (vpindexSecondary, pindexIntermediate) := postpone n bnBestTrust fuel prev
        (h :: vpindexSecondary, pindexIntermediate)
      else ([], h)

def connectFurther : List Hash256 → Node → Bool × Node
  | [], n => (true, n)
  | h :: rest, n =>
    match n.readBlock env io h with
    | none => (false, n)
    | some (pindex, block) =>
      match (n.setTxdb n.txdb.txnBegin).setBestChainInner env block pindex with
      | (false, n) => (false, n)
      | (true, n) => connectFurther rest n

def switchChain (n : Node) (best pindexNew : CBlockIndex) : Bool × Node :=
  let (vpindexSecondary, pindexIntermediate) := n.postpone best.bnChainTrust pindexNew.nHeight pindexNew.phashBlock
  match n.reorganize env io best.phashBlock pindexIntermediate with
  | (false, n) => (false, (n.setTxdb n.txdb.txnAbort).invalidChainFound pindexNew)
  | (true, n) => (true, (connectFurther env io vpindexSecondary.reverse n).2)

def newBest (n : Node) (hash : Hash256) (pindexNew : CBlockIndex) : Node :=
  { n with
    hashBestChain := hash
    pindexBest := some pindexNew.phashBlock
    nBestHeight := pindexNew.nHeight
    bnBestChainTrust := pindexNew.bnChainTrust }

def setBestChain (n : Node) (b : CBlock) (pindexNew : CBlockIndex) : Bool × Node :=
  let hash := b.getHash env
  let n := n.setTxdb n.txdb.txnBegin
  let result : Bool × Node :=
    if n.pindexGenesisBlock = none ∧ hash = env.hashGenesisBlock then
      match (n.txdb.writeHashBestChain hash).txnCommit with
      | (false, db) => (false, n.setTxdb db)
      | (true, db) => (true, { n.setTxdb db with pindexGenesisBlock := some pindexNew.phashBlock })
    else if b.hashPrevBlock = n.hashBestChain then n.setBestChainInner env b pindexNew
    else
      match n.bestEntry with
      | none => (false, n)
      | some best => n.switchChain env io best pindexNew
  if result.1 then (true, result.2.newBest hash pindexNew) else result

end

/-! ## What connecting and disconnecting leave alone -/

end Node

def CBlockIndex.noSupply (p : CBlockIndex) : CBlockIndex := { p with nMint := 0, nMoneySupply := 0 }

namespace Node

structure Framed (n n' : Node) : Prop where
  fields : ∃ db m ws, n' = { n with txdb := db, mapBlockIndex := m, wallets := ws }
  txdb : n.txdb.Batched n'.txdb
  blocks : ∀ k : Hash256, (n'.mapBlockIndex[k]?).map CBlockIndex.noSupply =
    (n.mapBlockIndex[k]?).map CBlockIndex.noSupply

namespace Framed

theorem refl (n : Node) : Framed n n := ⟨⟨_, _, _, rfl⟩, .refl _, fun _ => rfl⟩

theorem trans (h1 : Framed n n') (h2 : Framed n' n'') : Framed n n'' := by
  refine ⟨?_, h1.txdb.trans h2.txdb, fun k => (h2.blocks k).trans (h1.blocks k)⟩
  obtain ⟨_, _, _, rfl⟩ := h1.fields
  obtain ⟨db, m, ws, rfl⟩ := h2.fields
  exact ⟨db, m, ws, rfl⟩

theorem files (h : Framed n n') : n'.files = n.files := by
  obtain ⟨_, _, _, rfl⟩ := h.fields
  rfl

theorem setTxdb (h : n.txdb.Batched db) : Framed n (n.setTxdb db) := ⟨⟨_, _, _, rfl⟩, h, fun _ => rfl⟩

theorem writeHashNext (env : Env) (n : Node) (p : CBlockIndex) (hash : Hash256) :
    Framed n (n.writeHashNext env p hash) := by
  unfold Node.writeHashNext
  split
  · exact .refl n
  · exact .setTxdb (.write _ _ _)

theorem syncBlock (env : Env) (n : Node) (b : CBlock) (fUpdate fConnect : Bool) :
    Framed n (n.syncBlock env b fUpdate fConnect) :=
  ⟨⟨_, _, _, rfl⟩, .refl _, fun _ => rfl⟩

theorem writeQueued (n : Node) (queued : MapTxIndex) : Framed n (n.setTxdb (writeQueued n.txdb queued)) := by
  refine .setTxdb ?_
  unfold Node.writeQueued
  generalize n.txdb = db
  induction queued.toList generalizing db with
  | nil => exact .refl db
  | cons q rest ih => exact (CTxDB.Batched.write db _ _).trans (ih _)

theorem setIndex (entry : n.mapBlockIndex[q.phashBlock]? = some p)
    (hs : q.noSupply = p.noSupply) : Framed n (n.setIndex q) := by
  unfold Node.setIndex
  split
  · refine ⟨⟨_, _, _, rfl⟩, .refl _, fun k => ?_⟩
    by_cases hk : k = q.phashBlock
    · subst hk
      rw [ExtTreeMap.getElem?_insert_self, entry, Option.map_some, Option.map_some, hs]
    · rw [getElem?_insert_ne _ hk]
  · exact .refl n

theorem recordSupply (env : Env) (entry : n.mapBlockIndex[p.phashBlock]? = some p)
    (st : ConnectState) : Framed n (n.recordSupply env p st).2 := by
  have hs : Framed n (n.setIndex (n.recordSupply env p st).1) := .setIndex entry rfl
  refine hs.trans (.setTxdb (n := n.setIndex (n.recordSupply env p st).1) ?_)
  rw [setIndex_txdb]
  exact .write _ _ _

end Framed

variable (env : Env)

theorem connectBlock_framed (b : CBlock)
    (entry : n.mapBlockIndex[p.phashBlock]? = some p) : Framed n (n.connectBlock env b p false).2 := by
  unfold connectBlock
  split
  · exact .refl n
  split
  · exact .refl n
  rename_i st _
  have hr := Framed.recordSupply env entry st
  have hq := hr.trans (.writeQueued _ st.mapQueuedChanges)
  simp only [Bool.false_eq_true, if_false]
  split
  · exact hq
  split
  · exact hq
  · exact (hq.trans (.writeHashNext env _ _ _)).trans (.syncBlock env _ b true true)

theorem mapBlockIndex_connectBlock (n : Node) (b : CBlock) (p : CBlockIndex)
    (hk : k ≠ p.phashBlock) : (n.connectBlock env b p false).2.mapBlockIndex[k]? = n.mapBlockIndex[k]? := by
  have hs : ∀ q : CBlockIndex, q.phashBlock = p.phashBlock → (n.setIndex q).mapBlockIndex[k]? =
    n.mapBlockIndex[k]? := by
    intro q hq
    unfold setIndex
    split
    · rw [hq]
      exact getElem?_insert_ne _ hk _
    · rfl
  have hn : ∀ (m : Node) (q : CBlockIndex) (h : Hash256),
    (m.writeHashNext env q h).mapBlockIndex = m.mapBlockIndex := by
    intro m q h
    unfold writeHashNext
    split <;> rfl
  unfold connectBlock
  split
  · rfl
  split
  · rfl
  rename_i st _
  simp only [Bool.false_eq_true, if_false]
  split
  · exact hs (n.recordSupply env p st).1 rfl
  split
  · exact hs (n.recordSupply env p st).1 rfl
  · show (writeHashNext env _ _ _).mapBlockIndex[k]? = _
    rw [hn]
    exact hs (n.recordSupply env p st).1 rfl

theorem releaseInputs_batched (vin : List CTxIn) (db : CTxDB) : db.Batched (releaseInputs db vin).2 := by
  induction vin generalizing db with
  | nil => exact .refl db
  | cons txin rest ih =>
    unfold releaseInputs
    split
    · exact .refl db
    split
    · exact .refl db
    · exact (CTxDB.Batched.write db _ _).trans (ih _)

theorem disconnectTxs_batched (vtx : List CTransaction) (db : CTxDB) : db.Batched (disconnectTxs env db vtx).2 := by
  induction vtx generalizing db with
  | nil => exact .refl db
  | cons tx rest ih =>
    have hi : db.Batched (disconnectInputs env db tx).2 := by
      have hr : db.Batched (if tx.isCoinBase then (true, db) else releaseInputs db tx.vin).2 := by
        split
        · exact .refl db
        · exact releaseInputs_batched tx.vin db
      unfold disconnectInputs
      split
      · rename_i heq
        rwa [heq] at hr
      · rename_i db' heq
        rw [heq] at hr
        exact hr.trans (.erase db' _)
    unfold disconnectTxs
    split
    · rename_i heq
      rwa [heq] at hi
    · rename_i db' heq
      rw [heq] at hi
      exact hi.trans (ih db')

theorem disconnectBlock_framed (n : Node) (b : CBlock) (p : CBlockIndex) : Framed n (n.disconnectBlock env b p).2 := by
  have ht := disconnectTxs_batched env b.vtx.reverse n.txdb
  unfold disconnectBlock
  split
  · rename_i db heq
    rw [heq] at ht
    exact .setTxdb ht
  · rename_i db heq
    rw [heq] at ht
    exact ((Framed.setTxdb ht).trans (.writeHashNext env _ _ _)).trans (.syncBlock env _ b false false)

theorem mapBlockIndex_disconnectBlock (n : Node) (b : CBlock) (p : CBlockIndex) :
    (n.disconnectBlock env b p).2.mapBlockIndex = n.mapBlockIndex := by
  unfold disconnectBlock writeHashNext
  split
  · rfl
  · split <;> rfl

end Node

end CloakCoin.Chain
