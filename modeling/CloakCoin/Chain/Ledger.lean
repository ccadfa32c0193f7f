import CloakCoin.Chain.Undo

/-!
# The connected transactions and the index they leave

`Ledger env read recs idx`: `idx` is what connecting `recs` (newest first) to an empty index gives, each stored where
`read` finds it.
-/

namespace CloakCoin.Chain

open Lib List

/-- A connected transaction, where it is stored and the height of its block. -/
structure TxRecord where
  tx : CTransaction
  pos : CDiskTxPos
  nHeight : Nat

inductive Ledger (env : Env) (read : CDiskTxPos → Option CTransaction) :
    List TxRecord → SlotIndex Hash256 CDiskTxPos → Prop
  | nil : Ledger env read [] (fun _ => none)
  | cons {recs : List TxRecord} {idx : SlotIndex Hash256 CDiskTxPos} (r : TxRecord)
      (ledger : Ledger env read recs idx) (notNull : r.pos ≠ .null) (notPool : r.pos ≠ .memPool)
      (stored : read r.pos = some r.tx) (new : idx (env.txHash r.tx) = none) (nodup : r.tx.outpoints.Nodup)
      (free : ∀ o ∈ r.tx.outpoints, idx.slot o = some .null) :
      Ledger env read (r :: recs) (applyTx env idx r.tx r.pos)

namespace Ledger

variable {env : Env} {read : CDiskTxPos → Option CTransaction} {recs : List TxRecord}
  {idx : SlotIndex Hash256 CDiskTxPos} {o : Hash256 × Nat} {p : CDiskTxPos}

/-! ## The index of a ledger -/

variable {r : TxRecord}

section
variable (h : Ledger env read recs idx)
include h

theorem entry (hr : r ∈ recs) : ∃ e, idx (env.txHash r.tx) = some e ∧ e.pos = r.pos ∧
    e.vSpent.length = r.tx.vout.length := by
  induction h with
  | nil => cases hr
  | cons s ledger notNull notPool stored new nodup free ih =>
    by_cases hs : env.txHash r.tx = env.txHash s.tx
    · rcases mem_cons.mp hr with rfl | hr
      · exact ⟨_, SlotIndex.create_same _ _, rfl, by simp [CTxIndex.ofOutputs]⟩
      · obtain ⟨e, he, -⟩ := ih hr
        rw [hs, new] at he
        cases he
    · have hr : r ∈ _ := (mem_cons.mp hr).resolve_left fun e => hs (by rw [e])
      obtain ⟨e, he, hp, hl⟩ := ih hr
      obtain ⟨e', he', hp', hl'⟩ := SlotIndex.take_eq_some s.tx.outpoints s.pos he
      refine ⟨e', ?_, hp'.trans hp, hl'.trans hl⟩
      rw [applyTx, SlotIndex.create_of_ne _ hs, he']

theorem exists_of_some (hk : idx k = some e) : ∃ r ∈ recs, env.txHash r.tx = k := by
  induction h generalizing e with
  | nil => cases hk
  | @cons recs idx s ledger notNull notPool stored new nodup free ih =>
    by_cases hs : k = env.txHash s.tx
    · exact ⟨s, mem_cons_self, hs.symm⟩
    rw [applyTx, SlotIndex.create_of_ne _ hs] at hk
    cases hi : idx k with
    | none =>
      rw [SlotIndex.take_eq_none hi] at hk
      cases hk
    | some e0 =>
      obtain ⟨r, hr, hrk⟩ := ih hi
      exact ⟨r, mem_cons_of_mem _ hr, hrk⟩

theorem stored (hr : r ∈ recs) : read r.pos = some r.tx ∧ r.pos ≠ .memPool := by
  induction h with
  | nil => cases hr
  | cons s ledger notNull notPool stored new nodup free ih =>
    rcases mem_cons.mp hr with rfl | hr
    · exact ⟨stored, notPool⟩
    · exact ih hr

theorem hashes_nodup : (recs.map fun r => env.txHash r.tx).Nodup := by
  induction h with
  | nil => exact nodup_nil
  | cons s ledger notNull notPool stored new nodup free ih =>
    refine nodup_cons.mpr ⟨fun hm => ?_, ih⟩
    obtain ⟨r, hr, hrs⟩ := mem_map.mp hm
    obtain ⟨e, he, -⟩ := ledger.entry hr
    rw [hrs, new] at he
    cases he

theorem output_of_slot (ho : idx.slot o = some p) :
    ∃ r ∈ recs, ∃ e, env.txHash r.tx = o.1 ∧ idx o.1 = some e ∧ e.pos = r.pos ∧ o.2 < r.tx.vout.length := by
  obtain ⟨e, he, hs⟩ := Option.bind_eq_some_iff.mp ho
  obtain ⟨r, hr, hrk⟩ := h.exists_of_some he
  obtain ⟨e', he', hp, hl⟩ := h.entry hr
  rw [hrk, he, Option.some.injEq] at he'
  subst he'
  exact ⟨r, hr, e, hrk, he, hp, hl ▸ (List.getElem?_eq_some_iff.mp hs).1⟩

end

theorem slot_applyTx (new : idx (env.txHash tx) = none) (free : ∀ o ∈ tx.outpoints, idx.slot o = some .null)
    (hp : p ≠ .null) (ho : idx.slot o = some p) : (applyTx env idx tx pos).slot o = some p := by
  have hne : o.1 ≠ env.txHash tx := by
    intro e
    rw [SlotIndex.slot, e, new] at ho
    cases ho
  have hn : o ∉ tx.outpoints := by
    intro hm
    rw [free o hm, Option.some.injEq] at ho
    exact hp ho.symm
  rw [applyTx, SlotIndex.slot_create_of_ne _ hne, SlotIndex.slot_take_of_notMem hn, ho]

theorem spent (h : Ledger env read recs idx) (hr : r ∈ recs)
    (ho : o ∈ r.tx.outpoints) : ∃ p, p ≠ .null ∧ idx.slot o = some p := by
  induction h with
  | nil => cases hr
  | @cons recs idx s ledger notNull notPool stored new nodup free ih =>
    rcases mem_cons.mp hr with rfl | hr
    · -- the record spent from is older, so it is not the one just created
      have hne : o.1 ≠ env.txHash r.tx := by
        intro e
        have hs := free o ho
        rw [SlotIndex.slot, e, new] at hs
        cases hs
      refine ⟨r.pos, notNull, ?_⟩
      rw [applyTx, SlotIndex.slot_create_of_ne _ hne,
        SlotIndex.slot_take_of_mem ho (by rw [free o ho]; rfl)]
    · obtain ⟨p, hp, hs⟩ := ih hr
      exact ⟨p, hp, slot_applyTx new free hp hs⟩

theorem outpoints_nodup (h : Ledger env read recs idx) : (recs.flatMap fun r => r.tx.outpoints).Nodup := by
  induction h with
  | nil => exact nodup_nil
  | cons s ledger notNull notPool stored new nodup free ih =>
    rw [flatMap_cons, nodup_append]
    refine ⟨nodup, ih, ?_⟩
    rintro o ho o' ho' rfl
    obtain ⟨r, hr, hor⟩ := mem_flatMap.mp ho'
    obtain ⟨p, hp, hs⟩ := ledger.spent hr hor
    rw [free o ho, Option.some.injEq] at hs
    exact hp hs.symm

/-! ## Value of the unspent outputs -/

def outputs (env : Env) (recs : List TxRecord) : List (Hash256 × List Int) :=
  recs.map fun r => (env.txHash r.tx, r.tx.vout.map CTxOut.nValue)

theorem spentValue_eq (h : Ledger env read recs idx) {src : TxSource} (hs : src.readTx = read)
    (ho : idx.slot o = some p) :
    ∃ vals, (o.1, vals) ∈ outputs env recs ∧ vals[o.2]? = some (src.spentValue idx o) := by
  obtain ⟨r, hr, e, hrk, he, hpo, hlt⟩ := h.output_of_slot ho
  obtain ⟨hre, hp⟩ := h.stored hr
  refine ⟨r.tx.vout.map CTxOut.nValue, mem_map.mpr ⟨r, hr, by rw [hrk]⟩, ?_⟩
  have hpr : src.prevTx o.1 e = some r.tx := by
    rw [TxSource.prevTx, hpo, if_neg hp, hs, hre]
  simp [TxSource.spentValue, he, hpr, hlt]

theorem totalFree_cons (h : Ledger env read recs idx) (src : TxSource) (hsr : src.readTx = read)
    (r : TxRecord) (notNull : r.pos ≠ .null) (new : idx (env.txHash r.tx) = none)
    (nodup : r.tx.outpoints.Nodup) (free : ∀ o ∈ r.tx.outpoints, idx.slot o = some .null) :
    (applyTx env idx r.tx r.pos).totalFree .null (outputs env (r :: recs)) =
      idx.totalFree .null (outputs env recs) - (r.tx.outpoints.map (src.spentValue idx)).sum + r.tx.valueOut := by
  have hk : ((outputs env recs).map Prod.fst).Nodup := by
    rw [outputs, map_map]
    exact h.hashes_nodup
  have hv : ∀ o ∈ r.tx.outpoints, ∃ vals, (o.1, vals) ∈ outputs env recs ∧ vals[o.2]? = some (src.spentValue idx o) :=
    fun o ho => h.spentValue_eq hsr (free o ho)
  have ht := SlotIndex.totalFree_take nodup notNull free hk hv
  have hold : (applyTx env idx r.tx r.pos).totalFree .null (outputs env recs) =
      (idx.take r.tx.outpoints r.pos).totalFree .null (outputs env recs) := by
    refine SlotIndex.totalFree_congr fun q hq => ?_
    obtain ⟨s, hs, rfl⟩ := mem_map.mp hq
    obtain ⟨e, he, -⟩ := h.entry hs
    have hne : env.txHash s.tx ≠ env.txHash r.tx := by
      intro eq
      rw [eq, new] at he
      cases he
    exact SlotIndex.create_of_ne _ hne
  have hn : (applyTx env idx r.tx r.pos).freeValue .null (env.txHash r.tx) (r.tx.vout.map CTxOut.nValue) =
      r.tx.valueOut := by
    have := SlotIndex.freeValue_create_replicate (idx.take r.tx.outpoints r.pos) CDiskTxPos.null
      (env.txHash r.tx) r.pos (r.tx.vout.map CTxOut.nValue)
    rw [length_map] at this
    exact this
  have hc : (applyTx env idx r.tx r.pos).totalFree .null (outputs env (r :: recs)) =
      (applyTx env idx r.tx r.pos).freeValue .null (env.txHash r.tx) (r.tx.vout.map CTxOut.nValue) +
        (applyTx env idx r.tx r.pos).totalFree .null (outputs env recs) := by
    simp [outputs, SlotIndex.totalFree]
  omega

end Ledger

/-! ## A block extends the ledger -/

/-- Transactions with one hash have the same inputs and outputs. -/
def TxHashBinds (env : Env) : Prop :=
  ∀ t t', env.txHash t = env.txHash t' → t.vin = t'.vin ∧ t.vout = t'.vout

def recordsFrom (nFile : Fin uintMax) (nBlockPos nHeight : Nat) : Nat → List CTransaction → List TxRecord
  | _, [] => []
  | off, tx :: rest =>
    ⟨tx, .ofFile nFile nBlockPos off, nHeight⟩ ::
      recordsFrom nFile nBlockPos nHeight (off + tx.serializeSize) rest

def CBlockIndex.records (p : CBlockIndex) : Nat → List CTransaction → List TxRecord :=
  recordsFrom p.nFile p.nBlockPos p.nHeight

@[simp] theorem records_nil (p : CBlockIndex) (off : Nat) : p.records off [] = [] := rfl

theorem records_cons (p : CBlockIndex) (off : Nat) (tx : CTransaction) (rest : List CTransaction) :
    p.records off (tx :: rest) =
      ⟨tx, .ofFile p.nFile p.nBlockPos off, p.nHeight⟩ :: p.records (off + tx.serializeSize) rest := rfl

theorem map_tx_records (pindex : CBlockIndex) (off : Nat) (vtx : List CTransaction) :
    (pindex.records off vtx).map TxRecord.tx = vtx := by
  induction vtx generalizing off with
  | nil => rfl
  | cons tx rest ih => rw [records_cons, map_cons, ih]

theorem outpoints_congr {t t' : CTransaction} (hin : t.vin = t'.vin) (ho : t.vout = t'.vout) :
    t.isCoinBase = t'.isCoinBase ∧ t.outpoints = t'.outpoints := by
  have hcb : t.isCoinBase = t'.isCoinBase := by simp only [CTransaction.isCoinBase, hin, ho]
  exact ⟨hcb, by simp only [CTransaction.outpoints, hcb, hin]⟩

namespace Ledger

variable {env : Env} {recs : List TxRecord}

theorem new_of_connected
    (hi : TxHashBinds env) (h : Ledger env src.readTx recs (st.index src)) (hc : TxConnected env src pindex st tx st')
    (hv : tx.vin ≠ []) (hcb : tx.isCoinBase = true → ∀ r ∈ recs, env.txHash r.tx ≠ env.txHash tx) :
    st.index src (env.txHash tx) = none := by
  by_contra hso
  obtain ⟨e, he⟩ := Option.ne_none_iff_exists'.mp hso
  obtain ⟨r, hr, hh⟩ := h.exists_of_some he
  cases hb : tx.isCoinBase with
  | true => exact hcb hb r hr hh
  | false =>
    obtain ⟨hin, hou⟩ := hi _ _ hh
    obtain ⟨i, rest, hv⟩ := exists_cons_of_ne_nil hv
    have ho : i.prevout.key ∈ tx.outpoints := by simp [CTransaction.outpoints, hb, hv]
    obtain ⟨p, hp, hs⟩ := h.spent hr (o := i.prevout.key) (by rwa [(outpoints_congr hin hou).2])
    rw [hc.free _ ho, Option.some.injEq] at hs
    exact hp hs.symm

theorem extend (hi : TxHashBinds env) (vtx : List CTransaction)
    (hru : vtx.foldlM (connectTx env ctx pindex false) st = some st')
    (h : Ledger env ctx.readTx recs (st.index ctx.toTxSource)) (hnd : (vtx.map env.txHash).Nodup)
    (hvi : ∀ tx ∈ vtx, tx.vin ≠ [])
    (hcb : ∀ tx ∈ vtx, tx.isCoinBase = true → ∀ r ∈ recs, env.txHash r.tx ≠ env.txHash tx)
    (hs : ∀ r ∈ pindex.records st.nTxPos vtx, ctx.readTx r.pos = some r.tx ∧ r.pos ≠ .memPool) :
    Ledger env ctx.readTx ((pindex.records st.nTxPos vtx).reverse ++ recs) (st'.index ctx.toTxSource) ∧
      SlotIndex.totalFree (st'.index ctx.toTxSource) .null
          (outputs env ((pindex.records st.nTxPos vtx).reverse ++ recs)) =
        SlotIndex.totalFree (st.index ctx.toTxSource) .null (outputs env recs) +
          (st'.nValueOut - st'.nValueIn) - (st.nValueOut - st.nValueIn) ∧
      ∀ o p, p ≠ .null → (st.index ctx.toTxSource).slot o = some p →
        (st'.index ctx.toTxSource).slot o = some p := by
  induction vtx generalizing st recs with
  | nil =>
    cases hru
    exact ⟨h, by simp, fun _ _ _ hp => hp⟩
  | cons tx rest ih =>
    obtain ⟨st1, h1, hru⟩ := Option.bind_eq_some_iff.mp hru
    have hc := connectTx_spec h1
    rw [map_cons, nodup_cons] at hnd
    have hn := h.new_of_connected hi hc (hvi tx mem_cons_self) (hcb tx mem_cons_self)
    obtain ⟨hre, hpo⟩ := hs _ mem_cons_self
    have hco : Ledger env ctx.readTx (⟨tx, st.posThisTx pindex, pindex.nHeight⟩ :: recs)
        (st1.index ctx.toTxSource) := by
      rw [hc.index]
      exact .cons _ h (CDiskTxPos.ofFile_ne_null _ _ _) hpo hre hn hc.nodup hc.free
    have hv := h.totalFree_cons ctx.toTxSource rfl ⟨tx, st.posThisTx pindex, pindex.nHeight⟩
      (CDiskTxPos.ofFile_ne_null _ _ _) hn hc.nodup hc.free
    obtain ⟨hl, hsu, hk⟩ := ih hru hco hnd.2 (fun t ht => hvi t (mem_cons_of_mem _ ht))
      (by
        intro t ht hb r hr
        rcases mem_cons.mp hr with rfl | hr
        · exact fun e => hnd.1 (e ▸ mem_map_of_mem ht)
        · exact hcb t (mem_cons_of_mem _ ht) hb r hr)
      (by
        rw [hc.txPos]
        exact fun r hr => hs r (mem_cons_of_mem _ hr))
    rw [hc.txPos] at hl hsu
    rw [records_cons, reverse_cons, append_assoc, singleton_append]
    refine ⟨hl, hsu.trans ?_, fun o p hp ho => hk o p hp ?_⟩
    · rw [hc.index, hv, hc.valueIn, hc.valueOut]
      unfold ConnectState.txValueIn
      dsimp only
      omega
    · rw [hc.index]
      exact slot_applyTx hn hc.free hp ho

end Ledger
end CloakCoin.Chain
