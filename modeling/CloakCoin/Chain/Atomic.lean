import CloakCoin.Chain.Consistent

/-!
# A failed reorganisation and the wallets

The batch of a failed `Reorganize` is thrown away, and the memory pool, the forward links and the supply on the active
chain have not been written yet. The wallets have: `SyncWithWallets` runs inside `DisconnectBlock` and `ConnectBlock`.
Their records stay if the blocks hold nothing that concerns them (`Unconcerned`).
-/

namespace CloakCoin.Chain

open Lib Wallet
open Std (ExtTreeMap)
open List Option Bool

variable {p : CBlockIndex}

/-! ## Transactions that do not concern a wallet -/

section
variable (env : Env) (w : CWallet) (txs : List CTransaction)

/-- The wallet with the one-time keys it finds in `txs`. -/
def watching : CWallet := { w with keys := w.keys ++ txs.flatMap w.stealthKeys }

/-- The wallet has no record of the transactions, none of them pays it and none spends a coin of it. -/
structure Foreign : Prop where
  unknown : ∀ tx ∈ txs, w.mapWallet.contains (tx.getHash env) = false
  unpaid : ∀ tx ∈ txs, tx.vout.any (watching w txs).isMine = false
  unspent : ∀ tx ∈ txs, ∀ txin ∈ tx.vin, (watching w txs).ownOutput txin = none

/-- What a wallet `w` can become while it looks at `txs`, which do not concern it. -/
structure Watched (w' : CWallet) : Prop where
  foreign : Foreign env w txs
  records : w'.mapWallet = w.mapWallet
  stealth : w'.stealthKeys = w.stealthKeys
  keys : w'.keys ⊆ (watching w txs).keys

end

namespace Watched

variable {env : Env} {w w' : CWallet} {txs : List CTransaction} {tx : CTransaction}

theorem isMine (h : Watched env w txs w') {o : CTxOut} (ho : (watching w txs).isMine o = false) :
    w'.isMine o = false := by
  rw [← not_eq_true] at ho ⊢
  exact fun hm => ho (contains_iff_mem.mpr (h.keys (contains_iff_mem.mp hm)))

theorem ownOutput (h : Watched env w txs w') (hm : tx ∈ txs) {txin : CTxIn} (hi : txin ∈ tx.vin) :
    w'.ownOutput txin = none := by
  have hn := h.foreign.unspent tx hm txin hi
  unfold CWallet.ownOutput at hn ⊢
  rw [show (watching w txs).mapWallet = w'.mapWallet from h.records.symm] at hn
  split at hn
  · rfl
  split at hn
  · rfl
  split at hn
  · cases hn
  · rename_i hmi
    rw [h.isMine (not_eq_true _ ▸ hmi), if_neg Bool.false_ne_true]

theorem walletUpdateSpent (h : Watched env w txs w') (hm : tx ∈ txs) : w'.walletUpdateSpent tx = w' := by
  refine foldlRecOn (motive := fun v => v = w') tx.vin _ rfl ?_
  rintro _ rfl txin hi
  rw [CWallet.updatePrev, h.ownOutput hm hi]
  split
  · contradiction
  · rfl

theorem add (h : Watched env w txs w') (hm : tx ∈ txs) (pblock : Option CBlock) (fUpdate : Bool) :
    Watched env w txs (w'.addToWalletIfInvolvingMe env tx pblock fUpdate) := by
  have hf : Watched env w txs (w'.findStealthTransactions tx) := by
    refine ⟨h.foreign, h.records, h.stealth, append_subset.mpr ⟨h.keys, fun k hk => ?_⟩⟩
    rw [h.stealth] at hk
    exact mem_append_right _ (mem_flatMap.mpr ⟨tx, hm, hk⟩)
  have hdebit : (w'.findStealthTransactions tx).isFromMe tx = false := by
    unfold CWallet.isFromMe CWallet.getDebit
    rw [map_congr_left fun txin hi => by rw [hf.ownOutput hm hi]]
    simp
  have hpaid : tx.vout.any (w'.findStealthTransactions tx).isMine = false := by
    rw [List.any_eq_false]
    intro o ho
    rw [hf.isMine (not_eq_true _ ▸ List.any_eq_false.mp (h.foreign.unpaid tx hm) o ho)]
    exact false_ne_true
  unfold CWallet.addToWalletIfInvolvingMe
  dsimp only
  rw [h.records, h.foreign.unknown tx hm, hpaid, hdebit, hf.walletUpdateSpent hm]
  exact hf

end Watched

def syncBlockWallets (env : Env) (fConnect : Bool) (ws : List CWallet) (b : CBlock) : List CWallet :=
  b.vtx.foldl (fun ws tx => syncWithWallets env ws tx (some b) fConnect fConnect) ws

/-- The transaction records of the wallets, with the spent flags in them. -/
def records (ws : List CWallet) : List (ExtTreeMap Hash256 CWalletTx) := ws.map CWallet.mapWallet

section
variable {env : Env} {ws ws' : List CWallet} {b : CBlock} {txs : List CTransaction}

theorem syncBlockWallets_down (h : ∀ tx ∈ b.vtx, ∀ w ∈ ws, (tx.isCoinStake && w.isFromMe tx) = false) :
    syncBlockWallets env false ws b = ws := by
  refine foldlRecOn (motive := fun ws' => ws' = ws) b.vtx _ rfl ?_
  rintro _ rfl tx htx
  refine (map_congr_left fun w hw => ?_).trans (map_id _)
  have hn := h tx htx w hw
  rw [CWallet.disableTransaction, ← Bool.not_and, hn]
  rfl

theorem syncBlockWallets_up (h : Forall₂ (fun w w' => Watched env w txs w') ws ws') (hb : b.vtx ⊆ txs) :
    Forall₂ (fun w w' => Watched env w txs w') ws (syncBlockWallets env true ws' b) := by
  refine foldlRecOn (motive := fun ws' => Forall₂ (fun w w' => Watched env w txs w') ws ws') b.vtx _ h ?_
  intro ws' hw tx htx
  exact forall₂_map_right_iff.mpr (hw.imp fun _ _ hw => hw.add (hb htx) _ _)

theorem records_of_watched (h : Forall₂ (fun w w' => Watched env w txs w') ws ws') : records ws' = records ws := by
  induction h with
  | nil => rfl
  | cons h _ ih => rw [records, records, map_cons, map_cons, h.records, ← records, ← records, ih]

end

namespace Node

/-! ## The blocks of the two branches -/

variable (env : Env) (io : Hash256 → Bool) {best new pfork : Hash256} {m : Node}

def blockAt (n : Node) (h : Hash256) : Option CBlock := (n.mapBlockIndex[h]?).bind (n.files.readFromDisk env)

def branchBlocks (n : Node) (hs : List Hash256) : List CBlock := hs.filterMap (n.blockAt env)

variable {env io} {n n' : Node}

theorem Kept.blockAt (h : Kept n n') : n'.blockAt env = n.blockAt env := by
  funext k
  unfold Node.blockAt
  rw [h.files]
  refine bind_congr_of_map (f := CBlockIndex.shape) (n.files.readFromDisk env) (fun _ => rfl) (h.blocks k)

theorem Kept.branchBlocks (h : Kept n n') (hs : List Hash256) : n'.branchBlocks env hs = n.branchBlocks env hs := by
  rw [Node.branchBlocks, h.blockAt]
  rfl

variable (env n) in
theorem wallets_disconnectBlock (b : CBlock) (p : CBlockIndex) :
    ((n.disconnectBlock env b p).1 = true → (n.disconnectBlock env b p).2.wallets =
      syncBlockWallets env false n.wallets b) ∧
      ((n.disconnectBlock env b p).1 = false → (n.disconnectBlock env b p).2.wallets = n.wallets) := by
  have hn : ∀ (m : Node) (h : Hash256), (m.writeHashNext env p h).wallets = m.wallets := by
    intro m h
    unfold writeHashNext
    split <;> rfl
  unfold disconnectBlock
  split
  · exact ⟨fun e => absurd e false_ne_true, fun _ => rfl⟩
  refine ⟨fun _ => ?_, fun e => absurd e.symm false_ne_true⟩
  unfold syncBlock
  rw [hn]
  rfl

variable (env n) in
theorem wallets_connectBlock (b : CBlock) (p : CBlockIndex) : ((n.connectBlock env b p false).1 = true →
        (n.connectBlock env b p false).2.wallets = syncBlockWallets env true n.wallets b) ∧
      ((n.connectBlock env b p false).1 = false → (n.connectBlock env b p false).2.wallets = n.wallets) := by
  have hse : ∀ q : CBlockIndex, (n.setIndex q).wallets = n.wallets := by
    intro q
    unfold setIndex
    split <;> rfl
  have hn : ∀ (m : Node) (q : CBlockIndex) (h : Hash256), (m.writeHashNext env q h).wallets = m.wallets := by
    intro m q h
    unfold writeHashNext
    split <;> rfl
  have hf : ∀ {P : Prop}, false = true → P := fun e => absurd e false_ne_true
  unfold connectBlock
  split
  · exact ⟨hf, fun _ => rfl⟩
  split
  · exact ⟨hf, fun _ => rfl⟩
  rename_i st _
  simp only [false_eq_true, if_false]
  split
  · exact ⟨hf, fun _ => hse (n.recordSupply env p st).1⟩
  split
  · exact ⟨hf, fun _ => hse (n.recordSupply env p st).1⟩
  refine ⟨fun _ => ?_, fun e => absurd e.symm false_ne_true⟩
  unfold syncBlock
  rw [hn]
  show syncBlockWallets env true (n.setIndex (n.recordSupply env p st).1).wallets b = _
  rw [hse]

theorem blockAt_of_readBlock (hr : n.readBlock env io h = some (p, b)) : n.blockAt env h = some b := by
  obtain ⟨entry, hd⟩ := readBlock_eq_some hr
  rw [blockAt, entry]
  exact hd

theorem mem_branchBlocks (hr : n.readBlock env io h = some (p, b)) (hs : List Hash256) :
    b ∈ n.branchBlocks env (h :: hs) := mem_filterMap.mpr ⟨h, mem_cons_self, blockAt_of_readBlock hr⟩

theorem wallets_disconnectBranch (hs : List Hash256) (n : Node)
    (h : ∀ b ∈ n.branchBlocks env hs, ∀ tx ∈ b.vtx, ∀ w ∈ n.wallets, (tx.isCoinStake && w.isFromMe tx) = false) :
    (disconnectBranch env io hs n).2.1.wallets = n.wallets := by
  induction hs generalizing n with
  | nil => rfl
  | cons k hs ih =>
    unfold disconnectBranch
    split
    · rfl
    rename_i p b hr
    have hf := disconnectBlock_framed env n b p
    have hw := wallets_disconnectBlock env n b p
    split
    · rename_i n1 ho
      rw [ho] at hw
      exact hw.2 rfl
    rename_i n1 ho
    rw [ho] at hf hw
    have hsame : n1.wallets = n.wallets := (hw.1 rfl).trans (syncBlockWallets_down (h b (mem_branchBlocks hr hs)))
    refine (ih n1 ?_).trans hsame
    rw [hsame, (Kept.of_framed hf).branchBlocks]
    exact fun b hb => h b (((sublist_cons_self k hs).filterMap _).subset hb)

theorem wallets_connectBranch {ws : List CWallet} {txs : List CTransaction} (hs : List Hash256) (n : Node)
    (htree : TreeOk env n.mapBlockIndex n.files) (hb : ∀ b ∈ n.branchBlocks env hs.dropLast, b.vtx ⊆ txs)
    (hw : Forall₂ (fun w w' => Watched env w txs w') ws n.wallets) (hf : (connectBranch env io hs n).1 = false) :
    Forall₂ (fun w w' => Watched env w txs w') ws (connectBranch env io hs n).2.1.wallets := by
  induction hs generalizing n with
  | nil => exact hw
  | cons k hs ih =>
    unfold connectBranch at hf ⊢
    split at hf
    · exact hw
    rename_i p b hr
    have hfr : Framed n (n.connectBlock env b p false).2 := by
      obtain ⟨entry, -⟩ := readBlock_eq_some hr
      obtain rfl : p.phashBlock = k := htree.key entry
      exact connectBlock_framed env b entry
    have hwb := wallets_connectBlock env n b p
    split at hf
    · rename_i n1 ho
      rw [ho] at hwb
      dsimp only
      rw [hwb.2 rfl]
      exact hw
    rename_i n1 ho
    rw [ho] at hfr hwb
    -- something behind this block failed, so that it is not the last one
    cases hs with
    | nil => cases hf
    | cons k' hs =>
      refine ih n1 (hfr.tree htree) ?_ ?_ hf
      · rw [(Kept.of_framed hfr).branchBlocks]
        exact fun b hm => hb b (((sublist_cons_self k _).filterMap _).subset hm)
      · rw [hwb.1 rfl]
        exact syncBlockWallets_up hw (hb b (mem_branchBlocks hr _))

/-! ## Where `Reorganize` fails -/

theorem reorganize_failed (htree : TreeOk env n.mapBlockIndex n.files) (hc : n.txdb.commits.headD true = true)
    (hr : reorganize env io n best new = (false, n')) :
    (n.findFork best new = none ∧ n' = n) ∨ ∃ pfork, n.findFork best new = some pfork ∧
      (n' = (disconnectBranch env io (n.branchTo pfork best) n).2.1 ∨
        ∃ m, m = (disconnectBranch env io (n.branchTo pfork best) n).2.1 ∧
          (connectBranch env io (n.branchTo pfork new).reverse m).1 = false ∧
          n' = (connectBranch env io (n.branchTo pfork new).reverse m).2.1) := by
  unfold reorganize at hr
  split at hr
  · rename_i hfork
    cases hr
    exact .inl ⟨hfork, rfl⟩
  rename_i pfork hfork
  refine .inr ⟨pfork, hfork, ?_⟩
  have hdown := (disconnectBranch_framed env io (n.branchTo pfork best) n).1
  dsimp only at hr
  split at hr
  · rename_i hd
    cases hr
    exact .inl (by rw [hd])
  rename_i m _ hd
  rw [hd] at hdown
  refine .inr ⟨m, by rw [hd], ?_⟩
  have hup := (connectBranch_framed env io (n.branchTo pfork new).reverse (hdown.hashKeys htree.key)).1
  split at hr
  · rename_i hco
    cases hr
    rw [hco]
    exact ⟨rfl, rfl⟩
  rename_i m' _ hco
  rw [hco] at hup
  split at hr
  · rename_i db hfa
    have hf : m'.txdb.commits.headD true = false := congrArg Prod.fst hfa
    rw [(hdown.trans hup).txdb.commits, hc] at hf
    cases hf
  · cases hr

theorem reorganize_unwritten (h : AtTip env n best) (hc : n.txdb.commits.headD true = true)
    (hr : reorganize env io (n.setTxdb n.txdb.txnBegin) best new = (false, n')) :
    Framed (n.setTxdb n.txdb.txnBegin) n' ∧
      ∀ k l, Branch n.prevOf k best l → n'.mapBlockIndex[k]? = n.mapBlockIndex[k]? := by
  have htree : TreeOk env (n.setTxdb n.txdb.txnBegin).mapBlockIndex (n.setTxdb n.txdb.txnBegin).files := h.synced.tree
  obtain ⟨-, rfl⟩ | ⟨pfork, hfork, hlo⟩ := reorganize_failed htree hc hr
  · exact ⟨.refl _, fun _ _ _ => rfl⟩
  obtain ⟨-, -, ha⟩ := findFork_spec htree.ranked hfork
  obtain ⟨hdown, hm⟩ := disconnectBranch_framed env io
    ((n.setTxdb n.txdb.txnBegin).branchTo pfork best) (n.setTxdb n.txdb.txnBegin)
  obtain rfl | ⟨m, rfl, -, rfl⟩ := hlo
  · exact ⟨hdown, fun k _ _ => by rw [hm]; rfl⟩
  obtain ⟨hup, hsa⟩ := connectBranch_framed env io
    ((n.setTxdb n.txdb.txnBegin).branchTo pfork new).reverse (hdown.hashKeys htree.key)
  refine ⟨hdown.trans hup, fun k l hk => ?_⟩
  rw [hsa k fun hme => ha k l hk (mem_reverse.mp hme), hm]
  rfl

/-! ## What a failed call leaves -/

def reorgTarget (n : Node) (p : CBlockIndex) : Hash256 :=
  (n.postpone (n.trustOf n.hashBestChain) p.nHeight p.phashBlock).2

/-- The blocks to disconnect hold no coinstake of a wallet, and what the blocks to connect hold, the last one apart,
does not concern the wallets. -/
structure Unconcerned (env : Env) (n : Node) (p : CBlockIndex) : Prop where
  down : ∀ pfork, n.findFork n.hashBestChain (n.reorgTarget p) = some pfork →
    ∀ b ∈ n.branchBlocks env (n.branchTo pfork n.hashBestChain), ∀ tx ∈ b.vtx, ∀ w ∈ n.wallets,
      (tx.isCoinStake && w.isFromMe tx) = false
  up : ∀ pfork, n.findFork n.hashBestChain (n.reorgTarget p) = some pfork → ∀ w ∈ n.wallets,
    Foreign env w ((n.branchBlocks env (n.branchTo pfork (n.reorgTarget p)).reverse.dropLast).flatMap CBlock.vtx)

theorem Unconcerned.records (hun : Unconcerned env n p) (htree : TreeOk env n.mapBlockIndex n.files)
    (hc : n.txdb.commits.headD true = true)
    (hr : reorganize env io (n.setTxdb n.txdb.txnBegin) n.hashBestChain (n.reorgTarget p) = (false, n')) :
    records n'.wallets = records n.wallets := by
  have ht' : TreeOk env (n.setTxdb n.txdb.txnBegin).mapBlockIndex (n.setTxdb n.txdb.txnBegin).files := htree
  obtain ⟨-, rfl⟩ | ⟨pfork, hfork, hlo⟩ := reorganize_failed ht' hc hr
  · rfl
  have hdown : (disconnectBranch env io ((n.setTxdb n.txdb.txnBegin).branchTo pfork n.hashBestChain)
      (n.setTxdb n.txdb.txnBegin)).2.1.wallets = n.wallets := wallets_disconnectBranch _ _ (hun.down pfork hfork)
  have hfr := (disconnectBranch_framed env io ((n.setTxdb n.txdb.txnBegin).branchTo pfork n.hashBestChain)
    (n.setTxdb n.txdb.txnBegin)).1
  obtain rfl | ⟨m, rfl, hf, rfl⟩ := hlo
  · rw [hdown]
  have hw := forall₂_same.mpr fun w hw => (⟨hun.up pfork hfork w hw, rfl, rfl, subset_append_left _ _⟩ : Watched ..)
  rw [← hdown] at hw ⊢
  refine records_of_watched (wallets_connectBranch _ _ (hfr.tree ht') (fun b hb tx htx => ?_) hw hf)
  rw [(Kept.of_framed hfr).branchBlocks] at hb
  exact mem_flatMap.mpr ⟨b, hb, htx⟩

/-- The wallet records, the memory pool, the forward links, the best block and the supply fields of the active chain
are what they were. -/
structure Atomic (n n' : Node) : Prop where
  wallets : records n'.wallets = records n.wallets
  mempool : n'.mempool = n.mempool
  next : n'.nextOf = n.nextOf
  best : n'.pindexBest = n.pindexBest
  supply : ∀ k l, Branch n.prevOf k n.hashBestChain l →
    (n'.mapBlockIndex[k]?).map (fun p => (p.nMint, p.nMoneySupply)) =
      (n.mapBlockIndex[k]?).map fun p => (p.nMint, p.nMoneySupply)

section
variable (hinv : BestInv env n) (hnew : Indexed env n b p) (hside : b.hashPrevBlock ≠ n.hashBestChain)
include hinv hnew hside

theorem setBestChain_side
    (hr : reorganize env io (n.setTxdb n.txdb.txnBegin) n.hashBestChain (n.reorgTarget p) = (ok, n')) :
    (n.setBestChain env io b p).1 = ok ∧
      (ok = false → (n.setBestChain env io b p).2 = (n'.setTxdb n'.txdb.txnAbort).invalidChainFound p) := by
  obtain ⟨best, hk, ht, heq⟩ := setBestChain_eq hinv hnew
  have ha : (n.setTxdb n.txdb.txnBegin).attach env io b best p =
      if ok then (true, (connectFurther env io
        (n.postpone (n.trustOf n.hashBestChain) p.nHeight p.phashBlock).1.reverse n').2)
      else (false, (n'.setTxdb n'.txdb.txnAbort).invalidChainFound p) := by
    unfold reorgTarget at hr
    rw [attach, if_neg (show ¬ b.hashPrevBlock = (n.setTxdb n.txdb.txnBegin).hashBestChain from hside), switchChain,
      postpone_setTxdb, ht, hk]
    dsimp only
    rw [hr]
    cases ok <;> rfl
  rw [heq io, ha]
  cases ok with
  | false => exact ⟨rfl, fun _ => rfl⟩
  | true => exact ⟨rfl, fun e => absurd e.symm false_ne_true⟩

theorem atomic_of_records (hc : n.txdb.commits.headD true = true)
    (hr : reorganize env io (n.setTxdb n.txdb.txnBegin) n.hashBestChain (n.reorgTarget p) = (false, n'))
    (h : records n'.wallets = records n.wallets) : Atomic n (n.setBestChain env io b p).2 := by
  obtain ⟨hf, hsa⟩ := reorganize_unwritten hinv.tip hc hr
  rw [(setBestChain_side hinv hnew hside hr).2 rfl]
  generalize hn2 : (n'.setTxdb n'.txdb.txnAbort).invalidChainFound p = n2
  have hfi : n2.wallets = n'.wallets ∧ n2.mempool = n'.mempool ∧ n2.mapBlockIndex = n'.mapBlockIndex ∧
      n2.pindexBest = n'.pindexBest := by
    rw [← hn2, invalidChainFound]
    split <;> exact ⟨rfl, rfl, rfl, rfl⟩
  obtain ⟨hw, hp, hm, hb⟩ := hfi
  have hke : n'.mempool = n.mempool ∧ n'.pindexBest = n.pindexBest := by
    obtain ⟨_, _, _, rfl⟩ := hf.fields
    exact ⟨rfl, rfl⟩
  have hn : n'.nextOf = n.nextOf := hf.nextOf
  refine ⟨by rw [hw, h], hp.trans hke.1, ?_, hb.trans hke.2, fun k l hk => ?_⟩
  · rw [← hn]
    unfold nextOf
    rw [hm]
  · rw [hm, hsa k l hk]

end

end Node

namespace Sample

def emptyWallet (script : CScript) : CWallet := ⟨∅, [script], fun _ => [], 0⟩

theorem forkNode_unconcerned : (forkNode 1 [emptyWallet [8]]).Unconcerned forkEnv greedyEntry := by
  have hf : (forkNode 1 [emptyWallet [8]]).findFork (forkNode 1 [emptyWallet [8]]).hashBestChain
      ((forkNode 1 [emptyWallet [8]]).reorgTarget greedyEntry) = some 1 := by decide
  refine ⟨fun pfork hfork => ?_, fun pfork hfork => ?_⟩ <;> obtain rfl : 1 = pfork := some.inj (hf.symm.trans hfork)
  · decide
  · intro w hw
    obtain rfl := mem_singleton.mp hw
    exact ⟨by decide, by decide, by decide⟩

end Sample

end CloakCoin.Chain
