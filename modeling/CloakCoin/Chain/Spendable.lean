import CloakCoin.Chain.PoolMove

/-!
# The memory pool stays spendable

A block removes from the pool the transactions it contains, found by their hashes. A pool transaction that spends
the same output as a transaction of the block stays, and so does one that spends the reward of a block that was
disconnected.
-/

namespace CloakCoin.Chain

open Lib Wallet
open Std (ExtTreeMap)
open List Option Bool

variable {tx : CTransaction} {n : Node}

/-! ## The index of a list of transactions -/

structure Describes (env : Env) (txs : List CTransaction) (idx : SlotIndex Hash256 CDiskTxPos) : Prop where
  spent : ∀ o, (∃ p, p ≠ .null ∧ idx.slot o = some p) ↔ ∃ t ∈ txs, o ∈ t.outpoints
  outputs : ∀ o, (idx.slot o).isSome = true ↔ ∃ t ∈ txs, env.txHash t = o.1 ∧ o.2 < t.vout.length
  hashes : (txs.map env.txHash).Nodup
  apart : txs.Pairwise fun t t' => List.Disjoint t.outpoints t'.outpoints

theorem Describes.perm (h : Describes env txs idx) (hp : txs.Perm txs') : Describes env txs' idx where
  spent o := by
    rw [h.spent]
    exact exists_congr fun t => and_congr_left fun _ => hp.mem_iff
  outputs o := by
    rw [h.outputs]
    exact exists_congr fun t => and_congr_left fun _ => hp.mem_iff
  hashes := (hp.map _).nodup_iff.mp h.hashes
  apart := (hp.pairwise_iff fun {_ _} hd => hd.symm).mp h.apart

namespace Ledger

variable {env : Env} {read : CDiskTxPos → Option CTransaction} {recs : List TxRecord}
  {idx : SlotIndex Hash256 CDiskTxPos}

theorem spender_of_slot (h : Ledger env read recs idx) (hp : p ≠ .null)
    (ho : idx.slot o = some p) : ∃ r ∈ recs, o ∈ r.tx.outpoints := by
  induction h with
  | nil => cases ho
  | @cons recs idx r ledger notNull notPool stored new nodup free ih =>
    by_cases hm : o ∈ r.tx.outpoints
    · exact ⟨r, mem_cons_self, hm⟩
    by_cases hk : o.1 = env.txHash r.tx
    · -- the slots of the record just created are all free
      rw [applyTx, SlotIndex.slot, hk, SlotIndex.create_same] at ho
      exact absurd (eq_of_mem_replicate (mem_of_getElem? ho)) hp
    · rw [applyTx, SlotIndex.slot_create_of_ne _ hk, SlotIndex.slot_take_of_notMem hm] at ho
      obtain ⟨s, hs, hos⟩ := ih ho
      exact ⟨s, mem_cons_of_mem _ hs, hos⟩

theorem describes (h : Ledger env read recs idx) : Describes env (recs.map TxRecord.tx) idx where
  spent o := by
    constructor
    · rintro ⟨p, hp, ho⟩
      obtain ⟨r, hr, hm⟩ := h.spender_of_slot hp ho
      exact ⟨r.tx, mem_map_of_mem hr, hm⟩
    · rintro ⟨t, ht, hm⟩
      obtain ⟨r, hr, rfl⟩ := mem_map.mp ht
      exact h.spent hr hm
  outputs o := by
    constructor
    · intro ho
      obtain ⟨p, hp⟩ := Option.isSome_iff_exists.mp ho
      obtain ⟨r, hr, e, hk, -, -, hlt⟩ := h.output_of_slot hp
      exact ⟨r.tx, mem_map_of_mem hr, hk, hlt⟩
    · rintro ⟨t, ht, hk, hlt⟩
      obtain ⟨r, hr, rfl⟩ := mem_map.mp ht
      obtain ⟨e, he, -, hl⟩ := h.entry hr
      rw [SlotIndex.slot, ← hk, he, Option.bind_some, getElem?_eq_getElem (hl ▸ hlt)]
      rfl
  hashes := by
    rw [List.map_map]
    exact h.hashes_nodup
  apart := by
    rw [pairwise_map]
    exact (nodup_flatMap.mp h.outpoints_nodup).2

end Ledger

/-! ## What the pool promises -/

/-- The pool spends known, unspent outputs, each once. -/
structure Spendable (idx : SlotIndex Hash256 CDiskTxPos) (pool : CTxMemPool) : Prop where
  unspent : ∀ {h : Hash256} {tx : CTransaction}, pool.mapTx[h]? = some tx → ∀ txin ∈ tx.vin, ∀ p,
    idx.slot txin.prevout.key = some p → p = .null
  apart : ∀ {h h' : Hash256} {tx tx' : CTransaction}, pool.mapTx[h]? = some tx → pool.mapTx[h']? = some tx' →
    ∀ o ∈ tx.vin.map CTxIn.prevout, o ∈ tx'.vin.map CTxIn.prevout → h = h'
  known : ∀ {h : Hash256} {tx : CTransaction}, pool.mapTx[h]? = some tx → ∀ txin ∈ tx.vin,
    (idx.slot txin.prevout.key).isSome = true ∨
      ∃ t, pool.mapTx[txin.prevout.hash]? = some t ∧ txin.prevout.n < t.vout.length

def Waiting (env : Env) (pool : CTxMemPool) (gone come : List CTransaction) (tx : CTransaction) : Prop :=
  ((∃ h : Hash256, pool.mapTx[h]? = some tx) ∨ tx ∈ gone ∧ tx.isLoose = true) ∧ env.txHash tx ∉ come.map env.txHash

structure Harmless (env : Env) (pool : CTxMemPool) (gone come : List CTransaction) : Prop where
  noConflict : ∀ tx, Waiting env pool gone come tx → ∀ txin ∈ tx.vin, ∀ t ∈ come, txin.prevout.key ∉ t.outpoints
  noReward : ∀ tx, Waiting env pool gone come tx → ∀ txin ∈ tx.vin, ∀ t ∈ gone, t.isLoose = false →
    env.txHash t = txin.prevout.hash → env.txHash t ∈ come.map env.txHash
  acceptable : ∀ t ∈ gone, t.isLoose = true → env.txHash t ∉ come.map env.txHash → CTxMemPool.Acceptable env t

theorem CTransaction.outpoints_of_loose (h : tx.isLoose = true) : tx.outpoints = tx.vin.map (·.prevout.key) := by
  simp only [isLoose, Bool.not_eq_true', Bool.or_eq_false_iff] at h
  rw [outpoints, h.1, if_neg Bool.false_ne_true]

theorem CTxMemPool.SpendIndex.spender {pool : CTxMemPool} (h : pool.SpendIndex env) {o : COutPoint} {p : CInPoint}
    (ho : pool.mapNextTx o = some p) : ∃ tx, pool.mapTx[p.key]? = some tx ∧ o ∈ tx.vin.map CTxIn.prevout := by
  obtain ⟨l, hl, hg⟩ := (h.next o p).mp ho
  obtain ⟨tx, htx, rfl⟩ := map_eq_some_iff.mp hl
  exact ⟨tx, htx, mem_of_getElem? hg⟩

theorem CTxMemPool.SpendIndex.apart {pool : CTxMemPool} (h : pool.SpendIndex env) {k k' : Hash256}
    {tx' : CTransaction} (hk : pool.mapTx[k]? = some tx) (hk' : pool.mapTx[k']? = some tx') {o : COutPoint}
    (ho : o ∈ tx.vin.map CTxIn.prevout) (ho' : o ∈ tx'.vin.map CTxIn.prevout) : k = k' := by
  have hs : ∀ {k : Hash256} {tx : CTransaction}, pool.mapTx[k]? = some tx →
      pool.spends k = some (tx.vin.map CTxIn.prevout) := fun hk => by rw [spends, hk, map_some]
  exact h.next.key_unique (hs hk) ho (hs hk') ho'

section
variable {env : Env} {pool : CTxMemPool} {gone come base : List CTransaction}
  {idx idx' : SlotIndex Hash256 CDiskTxPos}

theorem Spendable.not_spent (h : Spendable idx pool) (hi : Describes env txs idx)
    {t : CTransaction} (ht : t ∈ txs) {k : Hash256} (htx : pool.mapTx[k]? = some tx) {txin : CTxIn}
    (hin : txin ∈ tx.vin) : txin.prevout.key ∉ t.outpoints := by
  intro ho
  obtain ⟨p, hp, hs⟩ := (hi.spent _).mpr ⟨t, ht, ho⟩
  exact hp (h.unspent htx txin hin p hs)

theorem Spendable.resurrect (hinj : TxHashBinds env) (hold : Describes env (gone ++ base) idx)
    (hc : ∀ t ∈ gone, t.checkTransaction = true) (hind : pool.SpendIndex env) (h : Spendable idx pool) :
    pool.Resurrected env (gone.filter CTransaction.isLoose)
      ((gone.filter CTransaction.isLoose).foldl (fun pool tx => (pool.accept env tx).2) pool) := by
  have hm : ∀ {t}, t ∈ gone.filter CTransaction.isLoose → t ∈ gone ∧ t.isLoose = true := mem_filter.mp
  have hs : (gone.filter CTransaction.isLoose).Sublist (gone ++ base) :=
    filter_sublist.trans (sublist_append_left gone base)
  refine CTxMemPool.foldl_accept_spec _ hind (fun t ht => ⟨hc t (hm ht).1, (hm ht).2⟩) (fun t ht => ?_)
    (fun t ht o ho => ?_) (hold.hashes.sublist (hs.map env.txHash)) ?_
  · -- a copy in the pool would spend what `t` has spent
    by_contra hne
    obtain ⟨x, hx⟩ := ne_none_iff_exists'.mp hne
    obtain ⟨hv, -⟩ := hinj x t (hind.keys hx)
    obtain ⟨i, rest, hi⟩ := exists_cons_of_ne_nil (CTransaction.vin_ne_nil_of_checkTransaction (hc t (hm ht).1))
    have hin : i ∈ x.vin := by rw [hv, hi]; simp
    refine h.not_spent hold (mem_append_left base (hm ht).1) hx hin ?_
    rw [CTransaction.outpoints_of_loose (hm ht).2, hi]
    exact mem_cons_self
  · by_contra hne
    obtain ⟨p, hp⟩ := ne_none_iff_exists'.mp hne
    obtain ⟨x, hx, hox⟩ := hind.spender hp
    obtain ⟨i, hi, rfl⟩ := mem_map.mp hox
    refine h.not_spent hold (mem_append_left base (hm ht).1) hx hi ?_
    rw [CTransaction.outpoints_of_loose (hm ht).2, show (fun j : CTxIn => j.prevout.key) =
      COutPoint.key ∘ CTxIn.prevout from rfl,
      ← List.map_map]
    exact mem_map_of_mem ho
  · refine (hold.apart.sublist hs).imp_of_mem fun {t t'} ht ht' hd o ho ho' => ?_
    rw [CTransaction.outpoints_of_loose (hm ht).2, CTransaction.outpoints_of_loose (hm ht').2,
      show (fun j : CTxIn => j.prevout.key) = COutPoint.key ∘ CTxIn.prevout from rfl,
        ← List.map_map, ← List.map_map] at hd
    exact hd (mem_map_of_mem ho) (mem_map_of_mem ho')

theorem Spendable.swap (hinj : TxHashBinds env) (hold : Describes env (gone ++ base) idx)
    (hn : Describes env (come ++ base) idx') (hch : ∀ t ∈ gone, t.checkTransaction = true)
    (hind : pool.SpendIndex env) (h : Spendable idx pool) (hs : Harmless env pool gone come) :
    (Node.swapTxs env gone come pool).SpendIndex env ∧ Spendable idx' (Node.swapTxs env gone come pool) := by
  obtain ⟨hi, hba, hk, hin⟩ := h.resurrect hinj hold hch hind
  have hi' : (Node.swapTxs env gone come pool).SpendIndex env := hi.foldl_remove hinj come
  unfold Node.swapTxs at hi' ⊢
  generalize (gone.filter CTransaction.isLoose).foldl (fun pool tx => (pool.accept env tx).2) pool = mid at *
  have hm := CTxMemPool.mapTx_foldl_remove env come mid
  have hwa : ∀ {k : Hash256} {tx : CTransaction}, (come.foldl (CTxMemPool.remove env) mid).mapTx[k]? = some tx →
      Waiting env pool gone come tx := by
    intro k tx htx
    have hke : env.txHash tx = k := hi'.keys htx
    rw [hm] at htx
    split at htx
    · cases htx
    rename_i hno
    refine ⟨?_, by rw [hke]; exact hno⟩
    rcases hba htx with hp | ⟨hg, -⟩
    · exact .inl ⟨k, hp⟩
    · exact .inr (mem_filter.mp hg)
  have ha : ∀ {o : COutPoint} {t : CTransaction}, env.txHash t = o.hash → o.n < t.vout.length →
      env.txHash t ∈ come.map env.txHash → (idx'.slot o.key).isSome = true := by
    intro o t hke hlt hme
    obtain ⟨c, hc, hct⟩ := mem_map.mp hme
    obtain ⟨-, hv⟩ := hinj c t hct
    exact (hn.outputs _).mpr ⟨c, mem_append_left base hc, hct.trans hke, by rw [hv]; exact hlt⟩
  refine ⟨hi', ⟨fun {k tx} htx txin htxi p hp => ?_, fun htx ht' o ho ho' => hi'.apart htx ht' ho ho',
    fun {k tx} htx txin htxi => ?_⟩⟩
  · by_contra hne
    obtain ⟨t, ht, hot⟩ := (hn.spent _).mp ⟨p, hne, hp⟩
    have hw := hwa htx
    rcases mem_append.mp ht with hc | hb
    · exact hs.noConflict tx hw txin htxi t hc hot
    rcases hw.1 with ⟨k', hk'⟩ | ⟨hg, hl⟩
    · exact h.not_spent hold (mem_append_right gone hb) hk' htxi hot
    · refine (pairwise_append.mp hold.apart).2.2 tx hg t hb ?_ hot
      rw [CTransaction.outpoints_of_loose hl]
      exact mem_map_of_mem htxi
  · have hw := hwa htx
    have hso : (∃ t ∈ gone ++ base, env.txHash t = txin.prevout.hash ∧ txin.prevout.n < t.vout.length) ∨
        ∃ t, pool.mapTx[txin.prevout.hash]? = some t ∧ txin.prevout.n < t.vout.length := by
      rcases hw.1 with ⟨k', hk'⟩ | ⟨hg, hl⟩
      · exact (h.known hk' txin htxi).imp_left (hold.outputs _).mp
      obtain ⟨p, -, hsl⟩ := (hold.spent txin.prevout.key).mpr ⟨tx, mem_append_left base hg, by
        rw [CTransaction.outpoints_of_loose hl]
        exact mem_map_of_mem htxi⟩
      exact .inl ((hold.outputs _).mp (by rw [hsl]; rfl))
    rcases hso with ⟨t, ht, hke, hlt⟩ | ⟨t, ht, hlt⟩
    · rcases mem_append.mp ht with hg | hb
      · by_cases hc : env.txHash t ∈ come.map env.txHash
        · exact .inl (ha hke hlt hc)
        cases hl : t.isLoose with
        | false => exact absurd (hs.noReward tx hw txin htxi t hg hl hke) hc
        | true =>
          refine .inr ⟨t, ?_, hlt⟩
          rw [hm, if_neg (by rw [← hke]; exact hc), ← hke]
          exact hin t (mem_filter.mpr ⟨hg, hl⟩) (hs.acceptable t hg hl hc)
      · exact .inl ((hn.outputs _).mpr ⟨t, mem_append_right come hb, hke, hlt⟩)
    · by_cases hc : txin.prevout.hash ∈ come.map env.txHash
      · have hke : env.txHash t = txin.prevout.hash := hind.keys ht
        exact .inl (ha hke hlt (by rw [hke]; exact hc))
      · exact .inr ⟨t, by rw [hm, if_neg hc]; exact hk ht, hlt⟩

end

/-! ## Accepting a transaction -/

theorem spendInput_free (h : spendInput env tx pos pending skip strict (inputs, queued) i = some (inputs', queued')) :
    (∃ e t, inputs[i.1.prevout.hash]? = some (e, t) ∧ e.vSpent[i.1.prevout.n]? = some .null) ∧
      ∀ (k : Hash256) (e' : CTxIndex) (t : CTransaction) (m : Nat), inputs'[k]? = some (e', t) →
        e'.vSpent[m]? = some .null → ∃ e, inputs[k]? = some (e, t) ∧ e.vSpent[m]? = some .null := by
  obtain ⟨txin, n⟩ := i
  simp only [spendInput] at h
  split at h
  · cases h
  rename_i e t hin
  split at h
  · cases h
  rename_i slot hs
  split at h
  · cases h
  rename_i hn
  split at h
  · cases h
  obtain rfl : slot = .null := CDiskTxPos.isNull_iff.mp (by simpa using hn)
  obtain ⟨rfl, -⟩ := h
  refine ⟨⟨e, t, hin, hs⟩, fun k e' t' m hk hm => ?_⟩
  by_cases hh : k = txin.prevout.hash
  · subst hh
    rw [ExtTreeMap.getElem?_insert_self, some.injEq, Prod.mk.injEq] at hk
    obtain ⟨rfl, rfl⟩ := hk
    refine ⟨e, hin, ?_⟩
    by_cases hm' : txin.prevout.n = m
    · rw [← hm']
      exact hs
    · rwa [getElem?_set_ne hm'] at hm
  · rw [getElem?_insert_ne _ hh] at hk
    exact ⟨e', hk, hm⟩

theorem foldlM_spendInput_free (vin : List (CTxIn × Nat))
    (h : vin.foldlM (spendInput env tx pos pending skip strict) (inputs, queued) = some (inputs', queued')) :
    ∀ i ∈ vin, ∃ e t, inputs[i.1.prevout.hash]? = some (e, t) ∧ e.vSpent[i.1.prevout.n]? = some .null := by
  induction vin generalizing inputs queued with
  | nil => exact fun i hi => nomatch hi
  | cons i rest ih =>
    obtain ⟨⟨inputs1, queued1⟩, ho, h⟩ := bind_eq_some_iff.mp h
    obtain ⟨hf, hb⟩ := spendInput_free ho
    refine forall_mem_cons.mpr ⟨hf, fun j hj => ?_⟩
    obtain ⟨e, t, he, hs⟩ := ih h j hj
    obtain ⟨e0, he0, hs0⟩ := hb _ e t _ he hs
    exact ⟨e0, t, he0, hs0⟩

namespace Node

variable {env : Env} {policy : RelayPolicy} {n : Node} {tx : CTransaction}

theorem acceptInputs_spec (hcb : tx.isCoinBase = false) (h : n.acceptInputs env policy tx = .accepted) :
    ∀ txin ∈ tx.vin, n.txdb.txIndex.slot txin.prevout.key = some .null ∨
      n.txdb.txIndex.slot txin.prevout.key = none ∧
        ∃ t, n.mempool.mapTx[txin.prevout.hash]? = some t ∧ txin.prevout.n < t.vout.length := by
  unfold acceptInputs at h
  split at h
  · cases h
  · cases h
  rename_i mapInputs hf
  have hl := fetchInputs_lookedUp hf
  split at h
  · cases h
  split at h
  swap
  · cases h
  dsimp only at h
  split_ifs at h with _ _ hc
  rw [isNone_iff_eq_none, ← ne_eq] at hc
  obtain ⟨queued, hc⟩ := ne_none_iff_exists'.mp hc
  simp only [connectInputs, hcb, false_eq_true, if_false] at hc
  split at hc
  · cases hc
  split at hc
  · cases hc
  rename_i inputs' queued' hsp
  have hfr := foldlM_spendInput_free _ hsp
  intro txin ht
  obtain ⟨i, hi⟩ := mem_iff_getElem?.mp ht
  obtain ⟨e, t, he, hs⟩ := hfr (txin, i) (mem_zipIdx_iff_getElem?.mpr hi)
  have hsr := hl _ _ he
  rw [TxSource.lookup] at hsr
  have hin : n.poolCtx.toTxSource.findIndex ∅ (false || false) txin.prevout.hash = n.txdb.txIndex txin.prevout.hash :=
    rfl
  rw [hin] at hsr
  cases hdb : n.txdb.txIndex txin.prevout.hash with
  | some e' =>
    rw [hdb] at hsr
    obtain ⟨t', -, heq⟩ := map_eq_some_iff.mp hsr
    cases heq
    left
    rw [SlotIndex.slot, COutPoint.key, hdb]
    exact hs
  | none =>
    rw [hdb] at hsr
    obtain ⟨t', ht', heq⟩ := map_eq_some_iff.mp hsr
    cases heq
    refine .inr ⟨by rw [SlotIndex.slot, COutPoint.key, hdb]; rfl, t, ht', ?_⟩
    have hlt := (List.getElem?_eq_some_iff.mp hs).1
    simpa [CTxIndex.ofOutputs] using hlt

end Node

theorem Spendable.accept (policy : RelayPolicy) (hi : n.mempool.SpendIndex env) (h : Spendable n.txdb.txIndex n.mempool)
    (tx : CTransaction) : (n.acceptToMemoryPool env policy true tx).2.mempool.SpendIndex env ∧
      Spendable (n.acceptToMemoryPool env policy true tx).2.txdb.txIndex
        (n.acceptToMemoryPool env policy true tx).2.mempool := by
  rcases n.acceptToMemoryPool_cases env policy true tx with hsa | ⟨had, ha, hin⟩
  · rw [hsa]
    exact ⟨hi, h⟩
  rw [had]
  have hi' := hi.addUnchecked ha
  have hm := CTxMemPool.mapTx_addUnchecked env n.mempool tx
  have hsp := Node.acceptInputs_spec ha.loose.1 (hin rfl).2
  have hk : ∀ {k : Hash256} {t : CTransaction}, n.mempool.mapTx[k]? = some t →
      (n.mempool.addUnchecked (tx.getHash env) tx).mapTx[k]? = some t := by
    intro k t ht
    rw [hm, if_neg ?_]
    · exact ht
    · rintro rfl
      rw [ha.new] at ht
      cases ht
  have hold : ∀ {k : Hash256} {t : CTransaction}, (n.mempool.addUnchecked (tx.getHash env) tx).mapTx[k]? = some t →
      t = tx ∨ n.mempool.mapTx[k]? = some t := by
    intro k t ht
    rw [hm] at ht
    split at ht
    · exact .inl (some.inj ht).symm
    · exact .inr ht
  refine ⟨hi', fun {k t} ht txin htx p hp => ?_, fun ht ht' o ho ho' => hi'.apart ht ht' ho ho',
    fun {k t} ht txin htx => ?_⟩
  · rcases hold ht with rfl | ht
    · rcases hsp txin htx with hf | ⟨hn, -⟩
      · rw [hf, some.injEq] at hp
        exact hp.symm
      · rw [hn] at hp
        cases hp
    · exact h.unspent ht txin htx p hp
  · rcases hold ht with rfl | ht
    · rcases hsp txin htx with hf | ⟨-, s, hs, hlt⟩
      · rw [hf]
        exact .inl rfl
      · exact .inr ⟨s, hk hs, hlt⟩
    · exact (h.known ht txin htx).imp_right fun ⟨s, hs, hlt⟩ => ⟨s, hk hs, hlt⟩

/-! ## The chains before and after a call -/

theorem AtTip.describes (hi : TxHashBinds env) (h : AtTip env n tip) :
    ∃ g l, n.prevOf g = none ∧ (n.mapBlockIndex[g]?).isSome = true ∧ Branch n.prevOf g tip l ∧
      Describes env (n.bodies env l) n.txdb.txIndex ∧ ∀ tx ∈ n.bodies env l, tx.checkTransaction = true := by
  obtain ⟨chain, recs, hs⟩ := h.synced.synced
  obtain ⟨p, hp⟩ := hs.exists_entry
  have hd := (hs.facts hi hp).1.describes
  have hbl : ∃ g l, n.prevOf g = none ∧ (n.mapBlockIndex[g]?).isSome = true ∧ Branch n.prevOf g tip l ∧
      n.bodies env l = chain.flatMap CBlock.vtx ∧ ∀ b ∈ chain, ∀ tx ∈ b.vtx, tx.checkTransaction = true := by
    clear h hd hp
    generalize n.txdb.txIndex = idx at hs
    induction hs with
    | @genesis g p entry root height supply =>
      exact ⟨g, [], by rw [Node.prevOf, entry]; exact root, by rw [entry]; rfl, .nil, rfl, fun b hb => nomatch hb⟩
    | @block tip h chain recs idx p q b ctx st prev entry link prevEntry height int disk readIndex readTx run checks
        coinbase supply ih =>
      obtain ⟨g, l, hr, hm, hbr, hbo, hc⟩ := ih
      refine ⟨g, h :: l, hr, hm, .cons (by rw [Node.prevOf, entry]; exact link) hbr, ?_,
        forall_mem_cons.mpr ⟨checks.txs, hc⟩⟩
      rw [flatMap_cons, ← hbo]
      exact congrArg (· ++ n.bodies env l) (Node.bodyTxs_of_read entry disk)
  obtain ⟨g, l, hr, hm, hbr, hbo, hc⟩ := hbl
  refine ⟨g, l, hr, hm, hbr, ?_, fun tx htx => ?_⟩
  · rw [hs.map_tx] at hd
    rw [hbo]
    exact hd.perm (Perm.flatMap_left chain fun b _ => b.vtx.reverse_perm)
  · rw [hbo] at htx
    obtain ⟨b, hb, hbt⟩ := mem_flatMap.mp htx
    exact hc b hb tx hbt

theorem Node.fork_split (hi : BestInv env n)
    (hro : n.prevOf g = none) (hg : (n.mapBlockIndex[g]?).isSome = true) (hl : Branch n.prevOf g tip l)
    (hr' : n.prevOf g' = none) (hg' : (n.mapBlockIndex[g']?).isSome = true) (hl' : Branch n.prevOf g' new l') :
    ∃ pfork low, n.findFork tip new = some pfork ∧ l = n.branchTo pfork tip ++ low ∧
      l' = n.branchTo pfork new ++ low := by
  have hr := hi.tip.synced.tree.ranked
  have hge : ∀ {k : Hash256}, n.prevOf k = none → (n.mapBlockIndex[k]?).isSome = true →
    n.pindexGenesisBlock = some k := by
    intro k hk hm
    obtain ⟨p, hp⟩ := isSome_iff_exists.mp hm
    rw [prevOf, hp] at hk
    exact hi.root hp hk
  obtain rfl : g = g' := some.inj ((hge hro hg).symm.trans (hge hr' hg'))
  have hfu : l.length + l'.length < n.heightOf tip + n.heightOf new + 1 := by
    have := hl.rank_top hr
    have := hl'.rank_top hr
    omega
  obtain ⟨pfork, hf⟩ := isSome_iff_exists.mp (isSome_meet hr hl hl' hfu)
  obtain ⟨hds, hcs, -⟩ := findFork_spec hr hf
  have hlo : n.heightOf g ≤ n.heightOf pfork := by
    rcases hl.mem_or_below hr hds with hm | ⟨low, hb⟩
    · obtain ⟨z, hz⟩ := hds.link_of_mem hm
      rw [hro] at hz
      cases hz
    · have := hb.rank_top hr
      omega
  obtain ⟨low, rfl, hb⟩ := hl.between hr hds hlo
  obtain ⟨low', rfl, hb'⟩ := hl'.between hr hcs hlo
  exact ⟨pfork, low, hf, rfl, by rw [hb.unique hr hb']⟩

/-! ## The run -/

structure PoolInv (env : Env) (n : Node) : Prop where
  best : BestInv env n
  index : n.mempool.SpendIndex env
  pool : Spendable n.txdb.txIndex n.mempool

theorem PoolInv.setBestChain (hin : TxHashBinds env) (h : PoolInv env n) (hn : Indexed env n b p)
    (hru : n.setBestChain env io b p = (true, n')) (hd : n'.txdb.readHashBestChain = some p.phashBlock)
    (hsa : Harmless env n.mempool (n.leaving env p.phashBlock) (n.arriving env p.phashBlock)) : PoolInv env n' := by
  have hp := Node.setBestChain_mempool hin h.best hn hru hd
  obtain ⟨m, t, l, rfl, hk, hat, hl, -⟩ := (Node.setBestChain_spec hin h.best hn hru).2 rfl
  obtain rfl : t = p.phashBlock := some.inj (hat.hash.symm.trans hd)
  have hni : l = [] := by
    have := hl.rank_top h.best.tip.synced.tree.ranked
    exact eq_nil_of_length_eq_zero (by omega)
  have hb := (Node.newBest_spec h.best hn.entry hk hat hl).2 hni
  obtain ⟨g, l1, hr, hg, hl1, hold, hc⟩ := h.best.tip.describes hin
  obtain ⟨g', l2, hr', hg', hl2, hco, -⟩ := hat.describes hin
  rw [hk.prevOf] at hr' hl2
  rw [hk.bodies] at hco
  have hm : (n.mapBlockIndex[g']?).isSome = true := by
    have := hk.map_eq (g := fun _ => ()) (fun _ => rfl) g'
    rwa [← isSome_map (f := fun _ => ()), ← this, isSome_map]
  obtain ⟨pfork, low, hf, rfl, rfl⟩ := Node.fork_split h.best hr hg hl1 hr' hm hl2
  rw [Node.bodies_append] at hold hc hco
  have hle : n.leaving env p.phashBlock = n.bodies env (n.branchTo pfork n.hashBestChain) := by
    rw [Node.leaving, hf, map_some, getD_some]
  have ha : (n.bodies env (n.branchTo pfork p.phashBlock)).Perm (n.arriving env p.phashBlock) := by
    rw [Node.arriving, hf, map_some, getD_some]
    exact (reverse_perm _).symm.flatMap_right _
  rw [← hle] at hold hc
  obtain ⟨hi, hs⟩ := h.pool.swap hin hold (hco.perm (ha.append_right _))
    (fun t ht => hc t (mem_append_left _ ht)) h.index hsa
  rw [← hp] at hi hs
  exact ⟨hb, hi, hs⟩

/-- Transactions come in with a look at their inputs, the best block changes in harmless ways, and blocks are stored. -/
inductive PoolChange (env : Env) : Node → Node → Prop
  | accept {n : Node} (policy : RelayPolicy) (tx : CTransaction) :
      PoolChange env n (n.acceptToMemoryPool env policy true tx).2
  | setBestChain {n n' : Node} {b : CBlock} {p : CBlockIndex} (io : Hash256 → Bool) (new : Indexed env n b p)
      (ok : n.setBestChain env io b p = (true, n')) (done : n'.txdb.readHashBestChain = some p.phashBlock)
      (harmless : Harmless env n.mempool (n.leaving env p.phashBlock) (n.arriving env p.phashBlock)) :
      PoolChange env n n'
  | store {n n' : Node} (inv : BestInv env n') (index : n'.txdb.txIndex = n.txdb.txIndex)
      (pool : n'.mempool = n.mempool) : PoolChange env n n'

theorem PoolInv.step (hin : TxHashBinds env) (h : PoolInv env n) (hs : PoolChange env n n') : PoolInv env n' := by
  cases hs with
  | accept policy tx =>
    obtain ⟨hi, hp⟩ := h.pool.accept policy h.index tx
    refine ⟨?_, hi, hp⟩
    rcases n.acceptToMemoryPool_cases env policy true tx with hsa | ⟨had, -⟩
    · rw [hsa]
      exact h.best
    · rw [had]
      exact ⟨h.best.best, h.best.height, h.best.tip.congr rfl rfl rfl, h.best.root, h.best.trust⟩
  | setBestChain io new ok done ha => exact h.setBestChain hin new ok done ha
  | store inv index pool =>
    refine ⟨inv, ?_, ?_⟩
    · rw [pool]
      exact h.index
    · rw [pool, index]
      exact h.pool

/-- **The pool stays spendable** in every run whose changes of the best block are harmless. -/
theorem pool_spendable (env : Env) (hinj : TxHashBinds env) (n₀ n : Node) (h₀ : BestInv env n₀)
    (hempty : n₀.mempool = ⟨∅, fun _ => none⟩) (hrun : Relation.ReflTransGen (PoolChange env) n₀ n) :
    Spendable n.txdb.txIndex n.mempool := by
  have hinv : PoolInv env n := by
    induction hrun with
    | refl =>
      have hn : ∀ {h : Hash256} {tx : CTransaction}, n₀.mempool.mapTx[h]? ≠ some tx := by
        rw [hempty]
        simp
      refine ⟨h₀, ?_, fun h => absurd h hn, fun h => absurd h hn, fun h => absurd h hn⟩
      rw [hempty]
      exact .empty env
    | tail _ hs ih => exact ih.step hinj hs
  exact hinv.pool

/-! ### Two transactions that spend one output, one of them in a block -/

namespace Sample

def doubleSpend : CTransaction := { nTime := 2, vin := [{ prevout := ⟨2, 0⟩ }], vout := [⟨coin / 2, [9]⟩] }

noncomputable def poolEnv : Env :=
  env [coinbase 0 0, coinbase 1 coin, coinbase 2 coin, payment, doubleSpend]
    [genesisBlock.toCBlockHeader, firstBlock.toCBlockHeader, secondBlock.toCBlockHeader]

noncomputable def poolNode₁ : Node := (tipNode.setBestChain poolEnv (fun _ => true) firstBlock firstEntry).2

noncomputable def poolNode₂ : Node := (poolNode₁.acceptToMemoryPool poolEnv relayPolicy true doubleSpend).2

noncomputable def poolNode₃ : Node := (poolNode₂.setBestChain poolEnv (fun _ => true) secondBlock secondEntry).2

theorem tipNode_bestInv : BestInv poolEnv tipNode := node_bestInv (.of_entries (by decide)) (by decide) (by decide) []

end Sample

open Sample in
theorem pool_spendable_reward :
    poolNode₂.mempool.mapTx[(5 : Hash256)]? = some doubleSpend ∧
      Spendable poolNode₂.txdb.txIndex poolNode₂.mempool := by
  have hs : Harmless poolEnv tipNode.mempool (tipNode.leaving poolEnv 2) (tipNode.arriving poolEnv 2) := by
    have hl : tipNode.leaving poolEnv 2 = [] := by decide
    have hw : ∀ tx, ¬Waiting poolEnv tipNode.mempool [] (tipNode.arriving poolEnv 2) tx := by
      rintro tx ⟨⟨h, htx⟩ | ⟨htx, -⟩, -⟩
      · exact absurd htx (by simp [tipNode, node])
      · cases htx
    rw [hl]
    exact ⟨fun tx htx => absurd htx (hw tx), fun tx htx => absurd htx (hw tx), fun t ht => nomatch ht⟩
  have hnew : Indexed poolEnv tipNode firstBlock firstEntry := ⟨by decide, rfl, by decide, by decide⟩
  have hb : PoolChange poolEnv tipNode poolNode₁ :=
    .setBestChain (fun _ => true) hnew (Prod.ext (by decide) rfl) (by decide) hs
  have hrun := (Relation.ReflTransGen.single hb).tail (.accept relayPolicy doubleSpend)
  exact ⟨by decide, pool_spendable poolEnv (txHashBinds _ _) tipNode poolNode₂ tipNode_bestInv rfl hrun⟩

open Sample in
/-- The block spends the output that the pool transaction spends; the transaction stays in the pool. -/
theorem conflicting_spend_stays : BestInv poolEnv tipNode ∧ tipNode.mempool = ⟨∅, fun _ => none⟩ ∧
      (tipNode.setBestChain poolEnv (fun _ => true) firstBlock firstEntry).1 = true ∧
      (poolNode₁.acceptToMemoryPool poolEnv relayPolicy true doubleSpend).1 = .accepted ∧
      (poolNode₂.setBestChain poolEnv (fun _ => true) secondBlock secondEntry).1 = true ∧
      poolNode₃.hashBestChain = 3 ∧ poolNode₃.txdb.readHashBestChain = some 3 ∧
      poolNode₃.mempool.mapTx[(5 : Hash256)]? = some doubleSpend ∧
      (poolNode₃.txdb.txIndex.slot (2, 0)).map CDiskTxPos.isNull = some false ∧
      ¬ Spendable poolNode₃.txdb.txIndex poolNode₃.mempool := by
  have hpo : poolNode₃.mempool.mapTx[(5 : Hash256)]? = some doubleSpend := by decide
  have hs : (poolNode₃.txdb.txIndex.slot (2, 0)).map CDiskTxPos.isNull = some false := by decide
  refine ⟨tipNode_bestInv, rfl, by decide, by decide, by decide, by decide, by decide, hpo, hs, fun h => ?_⟩
  obtain ⟨p, hp, hn⟩ := map_eq_some_iff.mp hs
  rw [h.unspent hpo { prevout := ⟨2, 0⟩ } mem_cons_self p hp] at hn
  exact absurd hn (by decide)

end CloakCoin.Chain
