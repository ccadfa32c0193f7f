import CloakCoin.Chain.Sample

/-!
# Disconnecting undoes connecting

`DisconnectBlock` works directly on the database, last transaction first. On the transaction index
each turn of its loop is the inverse of the turn of `ConnectBlock` that spent the same outpoints.
-/

namespace CloakCoin.Chain

open Lib List

variable {db : CTxDB} {ctx : ConnectCtx} {pindex : CBlockIndex} {st st' : ConnectState}

section
variable {env : Env} {tx : CTransaction}

/-! ## Disconnecting one transaction -/

theorem releaseInputs_index (h : releaseInputs db vin = (true, db')) :
    db'.txIndex = db.txIndex.take (vin.map (·.prevout.key)) .null := by
  induction vin generalizing db with
  | nil =>
    cases h
    rfl
  | cons i rest ih =>
    unfold releaseInputs at h
    split at h
    · cases h
    rename_i e he
    split at h
    · cases h
    · rw [ih h, map_cons, SlotIndex.take_cons, CTxDB.txIndex_updateTxIndex]
      rw [SlotIndex.setSlot, COutPoint.key, show db.txIndex i.prevout.hash = some e from he]
      rfl

theorem releaseInputs_ok
    (h : ∀ o ∈ vin.map (·.prevout.key), (db.txIndex.slot o).isSome) : (releaseInputs db vin).1 = true := by
  induction vin generalizing db with
  | nil => rfl
  | cons i rest ih =>
    have hs := h i.prevout.key (by simp)
    unfold SlotIndex.slot at hs
    unfold releaseInputs
    cases he : db.readTxIndex i.prevout.hash with
    | none =>
      rw [show db.txIndex i.prevout.key.1 = none from he] at hs
      simp at hs
    | some e =>
      rw [show db.txIndex i.prevout.key.1 = some e from he] at hs
      have hlt : i.prevout.n < e.vSpent.length := by simpa [COutPoint.key] using hs
      simp only [ge_iff_le, not_le.mpr hlt, if_false]
      refine ih fun o ho => ?_
      have hse : (db.updateTxIndex i.prevout.hash { e with vSpent := e.vSpent.set i.prevout.n .null }).txIndex =
          db.txIndex.setSlot i.prevout.key .null := by
        rw [CTxDB.txIndex_updateTxIndex, SlotIndex.setSlot, COutPoint.key,
          show db.txIndex i.prevout.hash = some e from he]
        rfl
      rw [hse]
      exact SlotIndex.isSome_slot_setSlot (h o (mem_cons_of_mem _ ho))

theorem disconnectInputs_index (h : disconnectInputs env db tx = (true, db')) :
    db'.txIndex = (db.txIndex.take tx.outpoints .null).erase (env.txHash tx) := by
  unfold disconnectInputs at h
  split at h
  · cases h
  rename_i db1 hr
  cases h
  rw [CTxDB.txIndex_eraseTxIndex]
  congr 1
  unfold CTransaction.outpoints
  split_ifs at hr ⊢
  · cases hr
    rfl
  · exact releaseInputs_index hr

theorem disconnectInputs_ok
    (h : ∀ o ∈ tx.outpoints, (db.txIndex.slot o).isSome) : (disconnectInputs env db tx).1 = true := by
  unfold disconnectInputs
  have hr : (if tx.isCoinBase then (true, db) else releaseInputs db tx.vin).1 = true := by
    unfold CTransaction.outpoints at h
    split_ifs at h ⊢
    · rfl
    · exact releaseInputs_ok h
  split
  · rename_i heq
    rw [heq] at hr
    cases hr
  · rfl

namespace Node

theorem disconnectBlock_spec {n : Node} (pindex : CBlockIndex) (h : disconnectTxs env n.txdb b.vtx.reverse = (true, db))
    : (n.disconnectBlock env b pindex).1 = true ∧ (n.disconnectBlock env b pindex).2.txdb.txIndex = db.txIndex ∧
      (n.disconnectBlock env b pindex).2.mapBlockIndex = n.mapBlockIndex ∧
      (n.disconnectBlock env b pindex).2.files = n.files := by
  unfold disconnectBlock
  rw [h]
  obtain ⟨db', hdb, hi, -⟩ := writeHashNext_eq env (n.setTxdb db) pindex 0
  simp only [hdb, true_and]
  exact ⟨hi, rfl, rfl⟩

end Node

/-! ## The two loops cancel -/

theorem applyTx_eq_none (hn : idx h = none) (hne : h ≠ env.txHash tx) : applyTx env idx tx pos h = none := by
  rw [applyTx, SlotIndex.create_of_ne _ hne]
  exact SlotIndex.take_eq_none hn

theorem foldlM_connectTx_none (vtx : List CTransaction)
    (hr : vtx.foldlM (connectTx env ctx pindex false) st = some st') (hn : st.index ctx.toTxSource h = none)
    (hne : ∀ tx ∈ vtx, h ≠ env.txHash tx) : st'.index ctx.toTxSource h = none := by
  induction vtx generalizing st with
  | nil =>
    cases hr
    exact hn
  | cons tx rest ih =>
    obtain ⟨st1, h1, hr⟩ := Option.bind_eq_some_iff.mp hr
    refine ih hr ?_ fun t ht => hne t (mem_cons_of_mem _ ht)
    rw [(connectTx_spec h1).index]
    exact applyTx_eq_none hn (hne tx mem_cons_self)

theorem disconnectInputs_connectTx (h : connectTx env ctx pindex false st tx = some st')
    (hn : st.index ctx.toTxSource (env.txHash tx) = none) (hdb : db.txIndex = st'.index ctx.toTxSource) :
    ∃ db', disconnectInputs env db tx = (true, db') ∧ db'.txIndex = st.index ctx.toTxSource := by
  have hc := connectTx_spec h
  rw [hc.index] at hdb
  have hu := SlotIndex.undo_record (e := CTxIndex.ofOutputs (st.posThisTx pindex) tx.vout.length)
    hc.nodup hc.free hn (st.posThisTx pindex)
  have hne : ∀ o ∈ tx.outpoints, o.1 ≠ env.txHash tx := by
    intro o ho e
    have := hc.free o ho
    rw [SlotIndex.slot, e, hn] at this
    cases this
  have hok : (disconnectInputs env db tx).1 = true := by
    refine disconnectInputs_ok fun o ho => ?_
    rw [hdb, applyTx, SlotIndex.slot, SlotIndex.create_of_ne _ (hne o ho)]
    exact SlotIndex.isSome_slot_take (by rw [hc.free o ho]; rfl)
  refine ⟨_, Prod.ext hok rfl, ?_⟩
  rw [disconnectInputs_index (Prod.ext hok rfl), hdb]
  exact hu

theorem disconnectTxs_connectTxs (db : CTxDB) (vtx : List CTransaction)
    (hru : vtx.foldlM (connectTx env ctx pindex false) st = some st') (hnd : (vtx.map env.txHash).Nodup)
    (hn : ∀ tx ∈ vtx, st.index ctx.toTxSource (env.txHash tx) = none) (hdb : db.txIndex = st'.index ctx.toTxSource) :
    ∃ db', disconnectTxs env db vtx.reverse = (true, db') ∧ db'.txIndex = st.index ctx.toTxSource := by
  induction vtx using reverseRecOn generalizing st' db with
  | nil =>
    cases hru
    exact ⟨db, rfl, hdb⟩
  | append_singleton vtx tx ih =>
    rw [foldlM_append] at hru
    obtain ⟨st1, hru, hl⟩ := Option.bind_eq_some_iff.mp hru
    have hl : connectTx env ctx pindex false st1 tx = some st' := by simpa using hl
    rw [map_append, nodup_append] at hnd
    have hf : st1.index ctx.toTxSource (env.txHash tx) = none := by
      refine foldlM_connectTx_none vtx hru (hn tx (by simp)) fun t ht e => ?_
      exact hnd.2.2 _ (mem_map_of_mem ht) _ (by simp) e.symm
    obtain ⟨db1, hd, hi⟩ := disconnectInputs_connectTx hl hf hdb
    obtain ⟨db', hr, hi'⟩ := ih _ hru hnd.1 (fun t ht => hn t (by simp [ht])) hi
    refine ⟨db', ?_, hi'⟩
    rw [reverse_append, reverse_singleton, singleton_append]
    simp only [disconnectTxs, hd, hr]

/-- **`DisconnectBlock` undoes `ConnectBlock` on the transaction index.** -/
theorem disconnectBlock_connectBlock (n : Node) (b : CBlock) (pindex pindex' : CBlockIndex)
    (h : (n.connectBlock env b pindex false).1 = true) (hnew : ∀ tx ∈ b.vtx, n.txdb.readTxIndex (tx.getHash env) = none)
    : ((n.connectBlock env b pindex false).2.disconnectBlock env b pindex').1 = true ∧
      ((n.connectBlock env b pindex false).2.disconnectBlock env b pindex').2.txdb.readTxIndex =
        n.txdb.readTxIndex := by
  obtain ⟨st, hc⟩ := Node.connectBlock_spec h
  have hnd := (CBlock.checkBlock_spec hc.check).1.unique
  have hs : ∀ k, ({ nTxPos := k } : ConnectState).index (n.connectCtx pindex).toTxSource = n.txdb.txIndex :=
    fun _ => overlay_empty _
  obtain ⟨db, hdis, hidx⟩ := disconnectTxs_connectTxs _ b.vtx hc.txs hnd
    (by exact hnew) hc.index
  obtain ⟨hok, hb, -⟩ := Node.disconnectBlock_spec pindex' hdis
  rw [hidx, hs] at hb
  exact ⟨hok, hb⟩

end

/-! ### A block that spends two outputs of one transaction, and one of its own -/

namespace Sample

def funding : CTransaction :=
  { nTime := 1, vin := [{ prevout := .null, scriptSig := scriptInt 1 ++ [0, 0] }]
    vout := [⟨5 * coin, [7]⟩, ⟨5 * coin, [7]⟩] }

def joining : CTransaction :=
  { nTime := 2, vin := [{ prevout := ⟨1, 0⟩ }, { prevout := ⟨1, 1⟩ }]
    vout := [⟨6 * coin, [7]⟩, ⟨3 * coin, [7]⟩] }

def chained : CTransaction :=
  { nTime := 2, vin := [{ prevout := ⟨3, 0⟩ }], vout := [⟨5 * coin, [7]⟩] }

def fundingBlock : CBlock := block 0 1 1 [funding]
def spendingBlock : CBlock := block 1 2007004 2 [coinbase 2 coin, joining, chained]
def spendingEntry : CBlockIndex := entry 2 (some 1) 2 2 2 spendingBlock

noncomputable def spendingEnv : Env :=
  env [funding, coinbase 2 coin, joining, chained] [fundingBlock.toCBlockHeader, spendingBlock.toCBlockHeader]

def spendingNode : Node :=
  node ⟨[⟨1, 8, fundingBlock⟩, ⟨2, 8, spendingBlock⟩], 2, by decide⟩
    (((∅ : BlockMap).insert 1 (entry 1 none 1 1 1 fundingBlock)).insert 2 spendingEntry)
    (fun h => if h = 1 then some (.ofOutputs
      (.ofFile 1 8 (firstTxPos (entry 1 none 1 1 1 fundingBlock) fundingBlock)) 2)
      else none) 1 1 []

end Sample

open Sample in
theorem disconnectBlock_connectBlock_spending :
    (spendingNode.connectBlock spendingEnv spendingBlock spendingEntry false).1 = true ∧
      ((spendingNode.connectBlock spendingEnv spendingBlock spendingEntry false).2.disconnectBlock spendingEnv
        spendingBlock spendingEntry).1 = true ∧
      ((spendingNode.connectBlock spendingEnv spendingBlock spendingEntry false).2.disconnectBlock spendingEnv
        spendingBlock spendingEntry).2.txdb.readTxIndex = spendingNode.txdb.readTxIndex := by
  have h : (spendingNode.connectBlock spendingEnv spendingBlock spendingEntry false).1 = true := by decide
  exact ⟨h, disconnectBlock_connectBlock _ _ _ _ h (by decide)⟩

end CloakCoin.Chain
