import CloakCoin.Chain.Consistent
import CloakCoin.Chain.Pool

/-!
# What `SetBestChain` does to the memory pool

A completed call takes the node from one tip to another across their common block. The transactions of the blocks
left behind are offered to the pool one by one, without a look at their inputs, and those of the new blocks are
removed from it by their hashes.
-/

namespace CloakCoin.Chain

open Lib Wallet
open Std (ExtTreeMap)
open List Option

def CTransaction.isLoose (tx : CTransaction) : Bool := !(tx.isCoinBase || tx.isCoinStake)

/-! ## The two loops over the pool -/

namespace CTxMemPool

variable {env : Env} {pool : CTxMemPool}

theorem mapTx_remove (pool : CTxMemPool) (tx : CTransaction) (h : Hash256) :
    (pool.remove env tx).mapTx[h]? = if h = tx.getHash env then none else pool.mapTx[h]? := by
  unfold remove
  dsimp only
  split
  · split
    · rename_i heq
      rw [heq, ExtTreeMap.getElem?_erase_self]
    · rename_i hne
      exact getElem?_erase_ne _ hne
  · rename_i hm
    split
    · rename_i heq
      rw [heq]
      simpa using hm
    · rfl

variable (env) in
theorem mapTx_foldl_remove (vDelete : List CTransaction) (pool : CTxMemPool) (h : Hash256) :
    (vDelete.foldl (remove env) pool).mapTx[h]? = if h ∈ vDelete.map env.txHash then none else pool.mapTx[h]? := by
  induction vDelete generalizing pool with
  | nil => simp
  | cons tx vDelete ih =>
    rw [foldl_cons, ih, mapTx_remove, map_cons]
    by_cases hr : h ∈ vDelete.map env.txHash
    · rw [if_pos hr, if_pos (mem_cons_of_mem _ hr)]
    · by_cases ho : h = env.txHash tx
      · rw [if_neg hr, if_pos ho, if_pos (by rw [ho]; exact mem_cons_self)]
      · rw [if_neg hr, if_neg ho, if_neg fun hm => (mem_cons.mp hm).elim ho hr]

theorem SpendIndex.foldl_remove (hi : TxHashBinds env) (vDelete : List CTransaction) (h : pool.SpendIndex env) :
    (vDelete.foldl (CTxMemPool.remove env) pool).SpendIndex env := by
  induction vDelete generalizing pool with
  | nil => exact h
  | cons tx vDelete ih => exact ih (h.remove hi tx)

structure Acceptable (env : Env) (tx : CTransaction) : Prop where
  lockTime : tx.nLockTime ≤ 2147483647
  standard : env.fTestNet = true ∨ tx.isStandard env = true

variable (env pool) in
theorem mapTx_addUnchecked (tx : CTransaction) (h : Hash256) :
    (pool.addUnchecked (tx.getHash env) tx).mapTx[h]? = if h = tx.getHash env then some tx else pool.mapTx[h]? := by
  change (pool.mapTx.insert (tx.getHash env) tx)[h]? = _
  split
  · rename_i heq
    rw [heq, ExtTreeMap.getElem?_insert_self]
  · rename_i hne
    exact getElem?_insert_ne _ hne tx

theorem mapNextTx_addUnchecked (ho : o ∉ tx.vin.map CTxIn.prevout) :
    (pool.addUnchecked (tx.getHash env) tx).mapNextTx o = pool.mapNextTx o :=
  ReverseIndex.record_of_notMem ho pool.mapNextTx

structure Resurrected (env : Env) (pool : CTxMemPool) (vs : List CTransaction) (pool' : CTxMemPool) : Prop where
  spendIndex : pool'.SpendIndex env
  back {h : Hash256} {tx : CTransaction} : pool'.mapTx[h]? = some tx →
    pool.mapTx[h]? = some tx ∨ tx ∈ vs ∧ h = tx.getHash env
  keep {h : Hash256} {tx : CTransaction} : pool.mapTx[h]? = some tx → pool'.mapTx[h]? = some tx
  mem : ∀ tx ∈ vs, Acceptable env tx → pool'.mapTx[tx.getHash env]? = some tx

theorem foldl_accept_spec (vResurrect : List CTransaction) (hind : pool.SpendIndex env)
    (hc : ∀ tx ∈ vResurrect, tx.checkTransaction = true ∧ tx.isLoose = true)
    (hn : ∀ tx ∈ vResurrect, pool.mapTx[tx.getHash env]? = none)
    (hf : ∀ tx ∈ vResurrect, ∀ o ∈ tx.vin.map CTxIn.prevout, pool.mapNextTx o = none)
    (hha : (vResurrect.map env.txHash).Nodup)
    (ha : vResurrect.Pairwise fun tx tx' => List.Disjoint (tx.vin.map CTxIn.prevout) (tx'.vin.map CTxIn.prevout)) :
    Resurrected env pool vResurrect (vResurrect.foldl (fun pool tx => (pool.accept env tx).2) pool) := by
  classical
  induction vResurrect generalizing pool with
  | nil => exact ⟨hind, .inl, id, fun _ h => nomatch h⟩
  | cons t rest ih =>
    rw [forall_mem_cons] at hc hn hf
    rw [map_cons, nodup_cons] at hha
    rw [pairwise_cons] at ha
    have hot : ∀ tx ∈ rest, env.txHash tx ≠ env.txHash t := fun tx htx e =>
      hha.1 (e ▸ mem_map_of_mem htx)
    rw [foldl_cons, accept_eq]
    by_cases had : Admitted env pool t
    · rw [if_pos had]
      obtain ⟨hi, hb, hk, hin⟩ := ih (hind.addUnchecked had) hc.2
        (fun tx htx => by rw [mapTx_addUnchecked, if_neg (hot tx htx)]; exact hn.2 tx htx)
        (fun tx htx o ho => by
          rw [mapNextTx_addUnchecked fun hm => ha.1 tx htx hm ho]
          exact hf.2 tx htx o ho)
        hha.2 ha.2
      refine ⟨hi, fun htx => ?_, fun htx => hk ?_, forall_mem_cons.mpr ⟨fun _ => hk ?_, hin⟩⟩
      · rcases hb htx with hm | ⟨hm, hh⟩
        · rw [mapTx_addUnchecked] at hm
          split at hm
          · rename_i heq
            cases hm
            exact .inr ⟨mem_cons_self, heq⟩
          · exact .inl hm
        · exact .inr ⟨mem_cons_of_mem _ hm, hh⟩
      · rw [mapTx_addUnchecked, if_neg ?_]
        · exact htx
        · rintro rfl
          rw [hn.1] at htx
          cases htx
      · rw [mapTx_addUnchecked, if_pos rfl]
    · rw [if_neg had]
      obtain ⟨hi, hb, hk, hin⟩ := ih hind hc.2 hn.2 hf.2 hha.2 ha.2
      refine ⟨hi, fun htx => (hb htx).imp_right fun hm => ⟨mem_cons_of_mem _ hm.1, hm.2⟩,
        hk, forall_mem_cons.mpr ⟨fun hac => absurd ?_ had, hin⟩⟩
      have hl := hc.1.2
      simp only [CTransaction.isLoose, Bool.not_eq_true', Bool.or_eq_false_iff] at hl
      exact ⟨hc.1.1, hl, hac.lockTime, hac.standard, hn.1, hf.1⟩

end CTxMemPool

/-! ## The transactions of a branch -/

namespace Node

variable {env : Env} {io : Hash256 → Bool} {n n' : Node} {p : CBlockIndex} {b : CBlock} {new : Hash256}

def bodyTxs (env : Env) (n : Node) (h : Hash256) : List CTransaction :=
  (((n.mapBlockIndex[h]?).bind (n.files.readFromDisk env)).map CBlock.vtx).getD []

def bodies (env : Env) (n : Node) (hs : List Hash256) : List CTransaction := hs.flatMap (n.bodyTxs env)

/-- Connected now, and not once `new` is the best block. -/
def leaving (env : Env) (n : Node) (new : Hash256) : List CTransaction :=
  ((n.findFork n.hashBestChain new).map fun pfork => n.bodies env (n.branchTo pfork n.hashBestChain)).getD []

/-- Connected once `new` is the best block, and not now. -/
def arriving (env : Env) (n : Node) (new : Hash256) : List CTransaction :=
  ((n.findFork n.hashBestChain new).map fun pfork => n.bodies env (n.branchTo pfork new).reverse).getD []

theorem bodies_append (n : Node) (hs hs' : List Hash256) :
    n.bodies env (hs ++ hs') = n.bodies env hs ++ n.bodies env hs' := flatMap_append

theorem bodyTxs_of_read (entry : n.mapBlockIndex[h]? = some p)
    (disk : n.files.readFromDisk env p = some b) : n.bodyTxs env h = b.vtx := by
  rw [bodyTxs, entry, bind_some, disk, map_some, getD_some]

theorem Kept.bodies (h : Kept n n') (env : Env) : n'.bodies env = n.bodies env := by
  funext hs
  refine congrArg (flatMap · hs) (funext fun k => ?_)
  have hr : ((n'.mapBlockIndex[k]?).bind (n'.files.readFromDisk env)) =
      (n.mapBlockIndex[k]?).bind (n.files.readFromDisk env) := by
    rw [h.files]
    exact bind_congr_of_map (f := CBlockIndex.shape) (n.files.readFromDisk env) (fun _ => rfl) (h.blocks k)
  rw [bodyTxs, hr, bodyTxs]

theorem Framed.mempool (h : Framed n n') : n'.mempool = n.mempool := by
  obtain ⟨_, _, _, rfl⟩ := h.fields
  rfl

variable (env io) in
theorem disconnectBranch_loose (hs : List Hash256) (hok : (disconnectBranch env io hs n).1 = true) :
    (disconnectBranch env io hs n).2.2 = (n.bodies env hs).filter CTransaction.isLoose := by
  induction hs generalizing n with
  | nil => rfl
  | cons h hs ih =>
    unfold disconnectBranch at hok ⊢
    split at hok
    · cases hok
    rename_i p b hr
    obtain ⟨entry, disk⟩ := readBlock_eq_some hr
    have hk := Kept.of_framed (disconnectBlock_framed env n b p)
    split at hok
    · cases hok
    rename_i n' heq
    rw [heq] at hk
    show filter CTransaction.isLoose b.vtx ++ (disconnectBranch env io hs n').2.2 = _
    rw [ih hok, hk.bodies, Node.bodies, Node.bodies, flatMap_cons, bodyTxs_of_read entry disk, filter_append]

theorem Kept.hashKeys (h : Kept n n') (hk : HashKeys n) : HashKeys n' := by
  intro k p hp
  obtain ⟨q, hq, hs⟩ := exists_of_map_eq (h.blocks k) hp
  rw [← (CBlockIndex.of_shape_eq hs).1]
  exact hk hq

variable (env io) in
theorem connectBranch_txs (hs : List Hash256) (hke : HashKeys n) (hok : (connectBranch env io hs n).1 = true) :
    (connectBranch env io hs n).2.2 = n.bodies env hs := by
  induction hs generalizing n with
  | nil => rfl
  | cons h hs ih =>
    unfold connectBranch at hok ⊢
    split at hok
    · cases hok
    rename_i p b hr
    obtain ⟨entry, disk⟩ := readBlock_eq_some hr
    obtain rfl : p.phashBlock = h := hke entry
    have hk := Kept.of_framed (connectBlock_framed env b entry)
    split at hok
    · cases hok
    rename_i n' heq
    rw [heq] at hk
    show b.vtx ++ (connectBranch env io hs n').2.2 = _
    rw [ih (hk.hashKeys hke) hok, hk.bodies, Node.bodies, Node.bodies, flatMap_cons,
      bodyTxs_of_read entry disk]

variable (env io) in
theorem mempool_connectBranch (hs : List Hash256) (hk : HashKeys n) :
    (connectBranch env io hs n).2.1.mempool = n.mempool := by
  induction hs generalizing n with
  | nil => rfl
  | cons h hs ih =>
    unfold connectBranch
    split
    · rfl
    rename_i p b hr
    obtain ⟨entry, -⟩ := readBlock_eq_some hr
    obtain rfl : p.phashBlock = h := hk entry
    have hf := connectBlock_framed env b entry
    split
    · rename_i heq
      rw [heq] at hf
      exact hf.mempool
    · rename_i n' heq
      rw [heq] at hf
      exact (ih ((Kept.of_framed hf).hashKeys hk)).trans hf.mempool

/-! ## The pool after a call -/

theorem mempool_setNextOfPrev (n : Node) (h : Hash256) (k : Option Hash256) :
    (n.setNextOfPrev h k).mempool = n.mempool := by
  unfold setNextOfPrev setNext setIndex
  split
  · rfl
  split
  · rfl
  split <;> rfl

theorem mempool_foldl_setNextOfPrev (link : Hash256 → Option Hash256) (hs : List Hash256) (n : Node) :
    (hs.foldl (fun n h => n.setNextOfPrev h (link h)) n).mempool = n.mempool := by
  induction hs generalizing n with
  | nil => rfl
  | cons h hs ih => rw [foldl_cons, ih, mempool_setNextOfPrev]

variable (env) in
def swapTxs (gone come : List CTransaction) (pool : CTxMemPool) : CTxMemPool :=
  come.foldl (CTxMemPool.remove env) ((gone.filter CTransaction.isLoose).foldl
    (fun pool tx => (pool.accept env tx).2) pool)

theorem reorganize_mempool (hke : HashKeys n) (hr : reorganize env io n best new = (true, n')) :
    ∃ pfork, n.findFork best new = some pfork ∧ n'.mempool =
      swapTxs env (n.bodies env (n.branchTo pfork best)) (n.bodies env (n.branchTo pfork new).reverse) n.mempool := by
  unfold reorganize at hr
  split at hr
  · cases hr
  rename_i pfork hf
  refine ⟨pfork, hf, ?_⟩
  obtain ⟨hd, -⟩ := disconnectBranch_framed env io (n.branchTo pfork best) n
  dsimp only at hr
  split at hr
  · cases hr
  rename_i n1 vResurrect hdi
  have hl := disconnectBranch_loose env io (n.branchTo pfork best) (by rw [hdi])
  rw [hdi] at hd hl
  have hk := Kept.of_framed hd
  have hk1 : HashKeys n1 := hk.hashKeys hke
  split at hr
  · cases hr
  rename_i n2 vDelete hc
  have ht := connectBranch_txs env io _ hk1 (by rw [hc])
  rw [hc, hk.bodies] at ht
  have hp : n2.mempool = n1.mempool := by
    have := mempool_connectBranch env io (n.branchTo pfork new).reverse hk1
    rwa [hc] at this
  split at hr
  · cases hr
  cases hr
  obtain rfl : vResurrect = _ := hl
  obtain rfl : vDelete = _ := ht
  unfold relink swapTxs
  dsimp only
  rw [mempool_foldl_setNextOfPrev some, mempool_foldl_setNextOfPrev fun _ => none]
  show foldl _ (foldl _ n2.mempool _) _ = _
  rw [hp, hd.mempool]

theorem setBestChainInner_mempool (entry : n.mapBlockIndex[p.phashBlock]? = some p)
    (hr : n.setBestChainInner env b p = (true, n')) : n'.mempool = b.vtx.foldl (CTxMemPool.remove env) n.mempool := by
  have hf := connectBlock_framed env b entry
  unfold setBestChainInner at hr
  split at hr
  · cases hr
  rename_i n1 hc
  rw [hc] at hf
  split at hr
  · cases hr
  cases hr
  rw [mempool_setNextOfPrev]
  exact congrArg (foldl (CTxMemPool.remove env) · b.vtx) hf.mempool

theorem setBestChainInner_disk (record : n.files.recordAt p.nFile p.nBlockPos = some b)
    (hash : b.getHash env = p.phashBlock)
    (hr : n.setBestChainInner env b p = (true, n')) : n.files.readFromDisk env p = some b := by
  unfold setBestChainInner at hr
  split at hr
  · cases hr
  rename_i n1 hco
  have hok : (n.connectBlock env b p false).1 = true := by rw [hco]
  obtain ⟨st, hc⟩ := connectBlock_spec hok
  exact BlockFiles.readFromDisk_of_recordAt record hash ((CBlock.checkBlock_spec hc.check).2.1 rfl)

theorem connectFurther_mempool (h : AtTip env n tip)
    (hb : Branch n.prevOf tip top hs.reverse) (hok : (connectFurther env io hs n).1 = true) :
    (connectFurther env io hs n).2.mempool = (n.bodies env hs).foldl (CTxMemPool.remove env) n.mempool := by
  induction hs generalizing n tip with
  | nil => rfl
  | cons x hs ih =>
    rw [reverse_cons] at hb
    obtain ⟨hr, link⟩ := Branch.concat_iff.mp hb
    unfold connectFurther at hok ⊢
    split at hok
    · cases hok
    rename_i p b hre
    obtain ⟨entry, hd⟩ := readBlock_eq_some hre
    obtain ⟨record, hash⟩ := BlockFiles.recordAt_of_readFromDisk hd
    obtain rfl : p.phashBlock = x := h.synced.tree.key entry
    rw [prevOf, entry] at link
    split at hok
    · cases hok
    rename_i n' hru
    obtain ⟨hk, hat⟩ := setBestChainInner_spec h entry link record hash hru
    have hp := setBestChainInner_mempool (n := n.setTxdb n.txdb.txnBegin) entry hru
    rw [ih hat (by rw [hk.prevOf]; exact hr) hok, hk.bodies, hp, Node.bodies, Node.bodies, flatMap_cons,
      bodyTxs_of_read entry hd, foldl_append]
    rfl

theorem findFork_eq (hr : Ranked n.prevOf n.heightOf) (hds : Branch n.prevOf x best ds) (hcs : Branch n.prevOf x new cs)
    (hh : ∀ k l l', Branch n.prevOf k best l → Branch n.prevOf k new l' → ∃ l'', Branch n.prevOf k x l'') :
    n.findFork best new = some x := by
  have hfu : ds.length + cs.length < n.heightOf best + n.heightOf new + 1 := by
    have := hds.rank_top hr
    have := hcs.rank_top hr
    omega
  obtain ⟨pfork, hf⟩ := isSome_iff_exists.mp (isSome_meet hr hds hcs hfu)
  obtain ⟨⟨ds', hd'⟩, ⟨cs', hc'⟩, ha⟩ := meet_spec hr hf
  obtain ⟨l, hl⟩ := ha x ds cs hds hcs
  obtain ⟨l', hl'⟩ := hh pfork ds' cs' hd' hc'
  have heq : n.heightOf pfork = n.heightOf x := by
    have := hl.rank_top hr
    have := hl'.rank_top hr
    omega
  exact hf.trans (congrArg some (hd'.eq_of_rank_eq hr hds heq))

theorem branchTo_eq (hr : Ranked n.prevOf n.heightOf) (h : Branch n.prevOf low top l) : n.branchTo low top = l := by
  refine pathTo_eq hr h ?_
  have := h.rank_top hr
  omega

theorem findFork_postpone (hi : BestInv env n) {best : CBlockIndex} (hke : best.phashBlock = n.hashBestChain)
    (ht : best.bnChainTrust = n.trustOf n.hashBestChain) {pfork : Hash256}
    (hf : n.findFork best.phashBlock (n.postpone best.bnChainTrust fuel new).2 = some pfork) :
    n.findFork n.hashBestChain new = some pfork ∧
      n.branchTo pfork new = (n.postpone best.bnChainTrust fuel new).1 ++
        n.branchTo pfork (n.postpone best.bnChainTrust fuel new).2 := by
  have hr := hi.tip.synced.tree.ranked
  have hb := n.postpone_branch best.bnChainTrust fuel new
  obtain ⟨⟨ds, hds⟩, ⟨cs, hcs⟩, ha⟩ := meet_spec hr hf
  rw [hke] at hds ha
  refine ⟨findFork_eq hr hds (hb.append hcs) fun k l l' hk hk' => ?_, ?_⟩
  · rcases hk'.mem_or_below hr hb with hm | ⟨l'', hl⟩
    · -- a postponed block has more trust than any block of the old chain
      obtain ⟨prev, hp, hlt⟩ := postpone_trust hm
      have := trustOf_le_of_branch hi hk
      have := hi.trust hp
      omega
    · exact ha k l l'' hk hl
  · rw [branchTo_eq hr (hb.append hcs), branchTo_eq hr hcs]

theorem switchChain_mempool (hin : TxHashBinds env) (hi : BestInv env n)
    (hkey : best.phashBlock = n.hashBestChain) (ht : best.bnChainTrust = n.trustOf n.hashBestChain)
    (hr : (n.setTxdb n.txdb.txnBegin).switchChain env io best p = (true, n'))
    (hd : n'.txdb.readHashBestChain = some p.phashBlock) :
    n'.mempool = swapTxs env (n.leaving env p.phashBlock) (n.arriving env p.phashBlock) n.mempool := by
  have hb := n.postpone_branch best.bnChainTrust p.nHeight p.phashBlock
  unfold switchChain at hr
  dsimp only at hr
  rw [postpone_setTxdb] at hr
  split at hr
  · cases hr
  rename_i n1 hre
  cases hr
  have hke : HashKeys (n.setTxdb n.txdb.txnBegin) := hi.tip.synced.tree.key
  obtain ⟨hk, hat, -⟩ := reorganize_spec hin (hkey ▸ hi.tip) hre
  obtain ⟨pfork, hfo, hp⟩ := reorganize_mempool hke hre
  obtain ⟨ha, hpa⟩ := findFork_postpone hi hkey ht hfo
  generalize n.postpone best.bnChainTrust p.nHeight p.phashBlock = further at *
  obtain ⟨sec, mid⟩ := further
  have hs : Branch n1.prevOf mid p.phashBlock sec.reverse.reverse := by
    rw [reverse_reverse, hk.prevOf]
    exact hb
  have hf : (connectFurther env io sec.reverse n1).1 = true := by
    obtain ⟨-, t, l, ha', hl, hf⟩ := connectFurther_spec io sec.reverse (hat rfl) hs
    have hti := ha'.hash.symm.trans hd
    rw [some.injEq] at hti
    subst hti
    have := hl.rank_top (hat rfl).synced.tree.ranked
    exact hf.mpr (eq_nil_of_length_eq_zero (by omega))
  rw [connectFurther_mempool (hat rfl) hs hf, hp, hk.bodies, leaving, arriving, ha, map_some,
    map_some, getD_some, getD_some, hpa, reverse_append]
  rw [bodies_append, swapTxs, swapTxs, foldl_append, hkey]
  rfl

theorem setBestChain_mempool (hin : TxHashBinds env) (hi : BestInv env n) (hn : Indexed env n b p)
    (hru : n.setBestChain env io b p = (true, n')) (hdo : n'.txdb.readHashBestChain = some p.phashBlock) :
    n'.mempool = swapTxs env (n.leaving env p.phashBlock) (n.arriving env p.phashBlock) n.mempool := by
  have hr := hi.tip.synced.tree.ranked
  have hl : n.prevOf p.phashBlock = some b.hashPrevBlock := by rw [prevOf, hn.entry]; exact hn.link
  obtain ⟨best, hke, ht, heq⟩ := setBestChain_eq hi hn
  rw [heq io] at hru
  split at hru
  case isFalse hfail =>
    rw [hru] at hfail
    exact absurd rfl hfail
  cases ha : (n.setTxdb n.txdb.txnBegin).attach env io b best p with
  | mk ok m =>
    rename_i hok
    rw [ha] at hok hru
    obtain rfl : ok = true := hok
    cases hru
    show m.mempool = _
    unfold attach at ha
    split at ha
    · rename_i hd
      have hb : n.prevOf p.phashBlock = some n.hashBestChain := hl.trans (congrArg some hd)
      have hf : n.findFork n.hashBestChain p.phashBlock = some n.hashBestChain :=
        findFork_eq hr .nil (.cons hb .nil) fun k l l' hk _ => ⟨l, hk⟩
      have hdi : n.files.readFromDisk env p = some b :=
        setBestChainInner_disk (n := n.setTxdb n.txdb.txnBegin) hn.record hn.hash ha
      rw [setBestChainInner_mempool (n := n.setTxdb n.txdb.txnBegin) hn.entry ha, leaving, arriving, hf,
        map_some, map_some, getD_some, getD_some, branchTo_eq hr .nil,
        branchTo_eq hr (.cons hb .nil), reverse_singleton]
      show _ = foldl _ n.mempool (n.bodyTxs env p.phashBlock ++ [])
      rw [append_nil, bodyTxs_of_read hn.entry hdi]
      rfl
    · exact switchChain_mempool hin hi hke ht ha hdo

end Node

end CloakCoin.Chain
