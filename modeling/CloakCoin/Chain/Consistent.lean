import CloakCoin.Chain.Reorg

/-!
# `SetBestChain` keeps the node consistent when it postpones nothing

Between two calls the node describes one chain (`BestInv`). The blocks above the intermediate block are connected one
by one up to the first failure, while `hashBestChain` and `pindexBest` are set to the new block in any case.
-/

namespace CloakCoin.Chain

open Lib Wallet
open Std (ExtTreeMap)
open List Option Bool

variable {p : CBlockIndex} {b : CBlock} {tip x h : Hash256} {ok : Bool}

theorem BlockFiles.readFromDisk_of_recordAt {d : BlockFiles} (record : d.recordAt p.nFile p.nBlockPos = some b)
    (hash : b.getHash env = p.phashBlock)
    (hp : b.isProofOfWork = true → checkProofOfWork env (b.getHash env) b.nBits = true) :
    d.readFromDisk env p = some b := by
  have hg : (b.isProofOfWork && !checkProofOfWork env (b.getHash env) b.nBits) = false := by
    cases hw : b.isProofOfWork
    · rfl
    · rw [hp hw]
      rfl
  have hr : d.readBlock env p.nFile p.nBlockPos = some b := by
    rw [readBlock, record]
    dsimp only
    rw [hg, if_neg Bool.false_ne_true]
  rw [readFromDisk, hr]
  exact if_pos hash

theorem BlockFiles.recordAt_of_readFromDisk {d : BlockFiles} (h : d.readFromDisk env p = some b) :
    d.recordAt p.nFile p.nBlockPos = some b ∧ b.getHash env = p.phashBlock := by
  unfold readFromDisk readBlock at h
  split at h
  · cases h
  rename_i b' hb
  split at hb
  · cases hb
  rename_i hr
  split_ifs at hb h with hp hh
  cases hb
  cases h
  exact ⟨hr, hh⟩

namespace Node

variable {env : Env} {io : Hash256 → Bool} {n : Node} {hs : List Hash256}

/-! ## One block on top of the tip -/

theorem setNextOfPrev_spec (ht : TreeOk env n.mapBlockIndex n.files) (hn : NextOk n tip)
    (link : n.prevOf p.phashBlock = some tip) : Relinked n (n.setNextOfPrev p.phashBlock (some p.phashBlock)) ∧
      NextOk (n.setNextOfPrev p.phashBlock (some p.phashBlock)) p.phashBlock :=
  NextOk.move ht.ranked (linked_of_tree ht) hn .nil
    (show Branch n.prevOf tip p.phashBlock [p.phashBlock].reverse from .cons link .nil)

theorem setBestChainInner_spec (h : AtTip env n tip) (entry : n.mapBlockIndex[p.phashBlock]? = some p)
    (link : p.pprev = some tip) (record : n.files.recordAt p.nFile p.nBlockPos = some b)
    (hash : b.getHash env = p.phashBlock) (hr : (n.setTxdb n.txdb.txnBegin).setBestChainInner env b p = (ok, n')) :
    Kept n n' ∧ AtTip env n' (if ok then p.phashBlock else tip) := by
  have hke := Kept.setTxdb n n.txdb.txnBegin
  have hbe := h.begin
  have hl : n.prevOf p.phashBlock = some tip := by rw [prevOf, entry]; exact link
  have hf := connectBlock_framed (n := n.setTxdb n.txdb.txnBegin) env b entry
  have hsa : ∀ k l, Branch n.prevOf k tip l →
      ((n.setTxdb n.txdb.txnBegin).connectBlock env b p false).2.mapBlockIndex[k]? = n.mapBlockIndex[k]? := by
    intro k l hk
    refine mapBlockIndex_connectBlock env _ b p ?_
    rintro rfl
    have hst := h.synced.tree.ranked hl
    have := hk.rank_top h.synced.tree.ranked
    omega
  unfold setBestChainInner at hr
  split at hr
  · rename_i n1 hcon
    cases hr
    rw [hcon] at hf hsa
    have hb := h.rollback n1.txdb.txnAbort hf hsa rfl rfl
    have hfo := Kept.invalidChainFound (n1.setTxdb n1.txdb.txnAbort) p
    refine ⟨hke.trans ((Kept.of_framed hf).trans ((Kept.setTxdb _ _).trans hfo)), ?_⟩
    unfold invalidChainFound
    split
    · exact hb.congr rfl rfl rfl
    · exact hb
  rename_i n1 hcon
  have hok : ((n.setTxdb n.txdb.txnBegin).connectBlock env b p false).1 = true := by rw [hcon]
  obtain ⟨st, hc⟩ := connectBlock_spec hok
  have hd : n.files.readFromDisk env p = some b :=
    BlockFiles.readFromDisk_of_recordAt record hash ((CBlock.checkBlock_spec hc.check).2.1 rfl)
  have hup := hbe.connect (b := b) entry link hd hok
  rw [hcon] at hf hsa hup
  have hk1 := hke.trans (Kept.of_framed hf)
  rw [hash] at hr
  split at hr
  · rename_i db hco
    cases hr
    obtain ⟨hd', hi⟩ := disk_txnCommit_false hco (hf.txdb.opened rfl).1
    exact ⟨hk1.trans (.setTxdb n1 db), h.rollback _ hf hsa hd' hi⟩
  rename_i db hco
  cases hr
  obtain ⟨hsy, hi, hh⟩ := AtTip.commit hup hco
  have hn : NextOk (n1.setTxdb db) tip := hf.nextOk h.next
  have hp : (n1.setTxdb db).prevOf p.phashBlock = some tip := (congrFun hf.prevOf _).trans hl
  obtain ⟨hre, hn'⟩ := setNextOfPrev_spec hsy.tree hn hp
  exact ⟨(hk1.trans (.setTxdb n1 db)).trans ((Kept.of_relinked hre).trans ⟨⟨_, _, _, _, _, rfl⟩, fun _ => rfl⟩),
    (AtTip.of_relinked hsy hi hh hre hn').congr rfl rfl rfl⟩

/-! ## The postponed blocks -/

variable (io) in
theorem connectFurther_spec {top : Hash256} (hs : List Hash256) (h : AtTip env n tip)
    (hb : Branch n.prevOf tip top hs.reverse) :
    Kept n (connectFurther env io hs n).2 ∧ ∃ t l, AtTip env (connectFurther env io hs n).2 t ∧
      Branch n.prevOf t top l ∧ ((connectFurther env io hs n).1 = true ↔ l = []) := by
  induction hs generalizing n tip with
  | nil =>
    cases hb
    exact ⟨.refl n, _, [], h, .nil, iff_of_true rfl rfl⟩
  | cons x hs ih =>
    have hf : false = true ↔ hs.reverse ++ [x] = [] := by simp
    rw [reverse_cons] at hb
    obtain ⟨hr, link⟩ := Branch.concat_iff.mp hb
    unfold connectFurther
    split
    · exact ⟨.refl n, tip, _, h, hb, hf⟩
    rename_i p b hre
    obtain ⟨entry, hd⟩ := readBlock_eq_some hre
    obtain ⟨record, hash⟩ := BlockFiles.recordAt_of_readFromDisk hd
    obtain rfl : p.phashBlock = x := h.synced.tree.key entry
    rw [prevOf, entry] at link
    split
    · rename_i n' hru
      obtain ⟨hk, hat⟩ := setBestChainInner_spec h entry link record hash hru
      exact ⟨hk, tip, _, hat, hb, hf⟩
    rename_i n' hru
    obtain ⟨hk, hat⟩ := setBestChainInner_spec h entry link record hash hru
    obtain ⟨hk', t, l, ha', hb', he⟩ := ih hat (by rw [hk.prevOf]; exact hr)
    exact ⟨hk.trans hk', t, l, ha', by rwa [hk.prevOf] at hb', he⟩

theorem postpone_branch (n : Node) (bnBestTrust fuel : Nat) (h : Hash256) :
    Branch n.prevOf (n.postpone bnBestTrust fuel h).2 h (n.postpone bnBestTrust fuel h).1 := by
  induction fuel generalizing h with
  | zero => exact .nil
  | succ fuel ih =>
    unfold postpone
    split
    · exact .nil
    rename_i prev hp
    split
    · exact .cons hp (ih prev)
    · exact .nil

theorem postpone_setTxdb (n : Node) (db : CTxDB) (bnBestTrust fuel : Nat) (h : Hash256) :
    (n.setTxdb db).postpone bnBestTrust fuel h = n.postpone bnBestTrust fuel h := by
  induction fuel generalizing h with
  | zero => rfl
  | succ fuel ih =>
    unfold postpone
    simp only [ih]
    rfl

variable (env) in
theorem connectFurther_blocked (hx : x ∈ hs) (hio : io x = false) (n : Node) :
    (connectFurther env io hs n).1 = false := by
  induction hs generalizing n with
  | nil => cases hx
  | cons y hs ih =>
    unfold connectFurther
    split
    · rfl
    rename_i p b hr
    split
    · rfl
    rename_i n' _
    rcases mem_cons.mp hx with rfl | hx
    · have hn : n.readBlock env io x = none := by
        unfold readBlock
        split
        · rfl
        · rw [hio, if_neg Bool.false_ne_true]
      rw [hn] at hr
      cases hr
    · exact ih hx n'

def trustOf (n : Node) (h : Hash256) : Nat := ((n.mapBlockIndex[h]?).map CBlockIndex.bnChainTrust).getD 0

theorem postpone_trust (hx : x ∈ (n.postpone bnBestTrust fuel h).1) :
    ∃ prev, n.prevOf x = some prev ∧ bnBestTrust < n.trustOf prev := by
  induction fuel generalizing h with
  | zero => cases hx
  | succ fuel ih =>
    unfold postpone at hx
    split at hx
    · cases hx
    rename_i prev hp
    split at hx
    · rename_i ht
      rcases mem_cons.mp hx with rfl | hx
      · exact ⟨prev, hp, ht⟩
      · exact ih hx
    · cases hx

theorem postpone_eq_nil_iff (bnBestTrust fuel : Nat) {prev : Hash256} (link : n.prevOf h = some prev) :
    (n.postpone bnBestTrust (fuel + 1) h).1 = [] ↔ n.trustOf prev ≤ bnBestTrust := by
  unfold postpone
  rw [link]
  dsimp only
  split
  · rename_i ht
    exact iff_of_false (cons_ne_nil _ _) (Nat.not_le.mpr ht)
  · rename_i ht
    exact iff_of_true rfl (Nat.not_lt.mp ht)

/-! ## Which blocks are read -/

section
variable {io io' : Hash256 → Bool}

theorem readBlock_congr (heq : io h = io' h) : n.readBlock env io h = n.readBlock env io' h := by
  unfold readBlock
  rw [heq]

theorem disconnectBranch_congr (heq : ∀ h ∈ hs, io h = io' h) (n : Node) :
    disconnectBranch env io hs n = disconnectBranch env io' hs n := by
  induction hs generalizing n with
  | nil => rfl
  | cons h hs ih =>
    rw [forall_mem_cons] at heq
    unfold disconnectBranch
    rw [readBlock_congr heq.1]
    simp only [ih heq.2]

theorem connectBranch_congr (heq : ∀ h ∈ hs, io h = io' h) (n : Node) :
    connectBranch env io hs n = connectBranch env io' hs n := by
  induction hs generalizing n with
  | nil => rfl
  | cons h hs ih =>
    rw [forall_mem_cons] at heq
    unfold connectBranch
    rw [readBlock_congr heq.1]
    simp only [ih heq.2]

theorem reorganize_congr (heq : ∀ pfork, n.findFork best new = some pfork →
      ∀ h, h ∈ n.branchTo pfork best ∨ h ∈ n.branchTo pfork new → io h = io' h) :
    reorganize env io n best new = reorganize env io' n best new := by
  unfold reorganize
  cases hf : n.findFork best new with
  | none => rfl
  | some pfork =>
    have hsa := heq pfork hf
    dsimp only
    rw [disconnectBranch_congr fun h hh => hsa h (.inl hh)]
    simp only [connectBranch_congr fun h hh => hsa h (.inr (mem_reverse.mp hh))]

end

end Node

/-! ## Between two calls -/

/-- Memory, the committed database and the links describe one best chain. -/
structure BestChainOk (env : Env) (n : Node) : Prop where
  best : n.pindexBest = some n.hashBestChain
  height : n.nBestHeight = n.heightOf n.hashBestChain
  committed : n.txdb.store.disk .hashBestChain = some n.hashBestChain
  connected : ∃ chain recs, Synced env n.files n.mapBlockIndex n.hashBestChain chain recs
    fun h => n.txdb.store.disk (.tx h)
  links : ∃ g l, n.pindexGenesisBlock = some g ∧ n.prevOf g = none ∧ Branch n.prevOf g n.hashBestChain l ∧
    ∀ fuel > l.length, follow n.nextOf fuel g = g :: l.reverse

/-- What every call of `SetBestChain` keeps. -/
structure BestInv (env : Env) (n : Node) : Prop where
  best : n.pindexBest = some n.hashBestChain
  height : n.nBestHeight = n.heightOf n.hashBestChain
  tip : AtTip env n n.hashBestChain
  root : ∀ {h : Hash256} {p : CBlockIndex}, n.mapBlockIndex[h]? = some p → p.pprev = none →
    n.pindexGenesisBlock = some h
  /-- `AddToBlockIndex` adds to the trust of the previous block. -/
  trust : ∀ {h prev : Hash256}, n.prevOf h = some prev → n.trustOf prev ≤ n.trustOf h

/-- The block is on disk and its entry is in the index. -/
structure Indexed (env : Env) (n : Node) (b : CBlock) (p : CBlockIndex) : Prop where
  entry : n.mapBlockIndex[p.phashBlock]? = some p
  link : p.pprev = some b.hashPrevBlock
  record : n.files.recordAt p.nFile p.nBlockPos = some b
  hash : b.getHash env = p.phashBlock

theorem Synced.root {n : Node} {chain : List CBlock} {recs : List TxRecord}
    {idx : SlotIndex Hash256 CDiskTxPos} (h : Synced env files n.mapBlockIndex tip chain recs idx) :
    ∃ g p l, n.mapBlockIndex[g]? = some p ∧ p.pprev = none ∧ Branch n.prevOf g tip l := by
  induction h with
  | @genesis g p entry root height supply => exact ⟨g, p, [], entry, root, .nil⟩
  | block prev entry link prevEntry height int disk readIndex readTx run checks coinbase supply ih =>
    obtain ⟨g, q, l, hq, hr, hb⟩ := ih
    exact ⟨g, q, _, hq, hr, .cons (by rw [Node.prevOf, entry]; exact link) hb⟩

namespace AtTip

open Node

variable {env : Env} {n : Node} {t : Hash256}

theorem bestChainOk_iff (h : AtTip env n t) (hbe : n.pindexBest = some n.hashBestChain)
    (hhe : n.nBestHeight = n.heightOf n.hashBestChain)
    (hr : ∀ {h : Hash256} {p : CBlockIndex}, n.mapBlockIndex[h]? = some p → p.pprev = none →
      n.pindexGenesisBlock = some h) : BestChainOk env n ↔ t = n.hashBestChain := by
  have hh : n.txdb.store.disk .hashBestChain = some t := (h.read_eq _).symm.trans h.hash
  constructor
  · intro hok
    have := hok.committed
    rw [hh, some.injEq] at this
    exact this
  · rintro rfl
    obtain ⟨chain, recs, hsy⟩ := h.synced.synced
    obtain ⟨g, p, l, hp, hn, hb⟩ := hsy.root
    refine ⟨hbe, hhe, hh, ⟨chain, recs, ?_⟩, g, l, hr hp hn, ?_, hb, ?_⟩
    · rwa [show (fun k => n.txdb.store.disk (.tx k)) = n.txdb.txIndex from funext fun k => (h.read_eq (.tx k)).symm]
    · rw [prevOf, hp]
      exact hn
    · exact fun fuel hf => follow_eq h.synced.tree.ranked h.next hb hf

end AtTip

namespace Node

variable {env : Env} {io : Hash256 → Bool} {n n' : Node}

namespace Kept

theorem map_eq (h : Kept n n') (hg : ∀ p, g p.shape = g p) (k : Hash256) :
    (n'.mapBlockIndex[k]?).map g = (n.mapBlockIndex[k]?).map g := by
  have hk := congrArg (Option.map g) (h.blocks k)
  rw [Option.map_map, Option.map_map] at hk
  rwa [show g ∘ CBlockIndex.shape = g from funext hg] at hk

theorem heightOf (h : Kept n n') (k : Hash256) : n'.heightOf k = n.heightOf k :=
  congrArg (Option.getD · 0) (h.map_eq (fun _ => rfl) k)

theorem trustOf (h : Kept n n') (k : Hash256) : n'.trustOf k = n.trustOf k :=
  congrArg (Option.getD · 0) (h.map_eq (fun _ => rfl) k)

theorem root (h : Kept n n') (hr : ∀ {k : Hash256} {p : CBlockIndex}, n.mapBlockIndex[k]? = some p → p.pprev = none →
      n.pindexGenesisBlock = some k) (hp : n'.mapBlockIndex[k]? = some p)
    (hn : p.pprev = none) : n'.pindexGenesisBlock = some k := by
  obtain ⟨q, hq, hqp⟩ := exists_of_map_eq (h.blocks k) hp
  obtain ⟨_, _, _, _, _, rfl⟩ := h.fields
  exact hr hq ((CBlockIndex.of_shape_eq hqp).2.1.trans hn)

theorem trust (h : Kept n n') (ht : ∀ {k prev : Hash256}, n.prevOf k = some prev → n.trustOf prev ≤ n.trustOf k)
    {k prev : Hash256} (hp : n'.prevOf k = some prev) : n'.trustOf prev ≤ n'.trustOf k := by
  rw [h.prevOf] at hp
  rw [h.trustOf, h.trustOf]
  exact ht hp

end Kept

theorem switchChain_spec (hi : TxHashBinds env) (h : AtTip env n best.phashBlock)
    (hr : (n.setTxdb n.txdb.txnBegin).switchChain env io best p = (ok, n')) :
    Kept n n' ∧ (ok = false → AtTip env n' best.phashBlock) ∧
      (ok = true → ∃ t l, AtTip env n' t ∧ Branch n.prevOf t p.phashBlock l ∧
        ((n.postpone best.bnChainTrust p.nHeight p.phashBlock).1 = [] → l = []) ∧
        (∀ x ∈ (n.postpone best.bnChainTrust p.nHeight p.phashBlock).1, io x = false → l ≠ [])) := by
  have hbr := n.postpone_branch best.bnChainTrust p.nHeight p.phashBlock
  unfold switchChain at hr
  dsimp only at hr
  rw [postpone_setTxdb] at hr
  generalize n.postpone best.bnChainTrust p.nHeight p.phashBlock = further at hr hbr
  obtain ⟨sec, mid⟩ := further
  split at hr
  · rename_i n1 hre
    cases hr
    obtain ⟨hk, -, hba⟩ := reorganize_spec hi h hre
    refine ⟨(hk.trans (.setTxdb n1 _)).trans (.invalidChainFound _ p), fun _ => ?_, fun e => absurd e false_ne_true⟩
    unfold invalidChainFound
    split
    · exact (hba rfl).congr rfl rfl rfl
    · exact hba rfl
  · rename_i n1 hre
    cases hr
    obtain ⟨hk, hat, -⟩ := reorganize_spec hi h hre
    obtain ⟨hk', t, l, ha', hl, hf⟩ := connectFurther_spec io sec.reverse (hat rfl)
      (by rw [reverse_reverse, hk.prevOf]; exact hbr)
    rw [hk.prevOf] at hl
    refine ⟨hk.trans hk', fun e => absurd e.symm false_ne_true, fun _ => ⟨t, l, ha', hl, ?_, ?_⟩⟩
    · rintro rfl
      exact hf.mp rfl
    · intro x hx hio hn
      have hb := connectFurther_blocked env (mem_reverse.mpr hx) hio n1
      rw [hf.mpr hn] at hb
      cases hb

theorem newBest_spec (hi : BestInv env n) (entry : n.mapBlockIndex[p.phashBlock]? = some p) (hk : Kept n n')
    (hat : AtTip env n' t) (hl : Branch n.prevOf t p.phashBlock l) :
    (BestChainOk env (n'.newBest p.phashBlock p) ↔ l = []) ∧ (l = [] → BestInv env (n'.newBest p.phashBlock p)) := by
  have hh : (p.nHeight : Int) = n'.heightOf p.phashBlock := by
    rw [hk.heightOf, heightOf, entry]
    rfl
  have ha' : AtTip env (n'.newBest p.phashBlock p) t := hat.congr rfl rfl rfl
  have heq : t = p.phashBlock ↔ l = [] := by
    have hr := hl.rank_top hi.tip.synced.tree.ranked
    constructor
    · rintro rfl
      exact eq_nil_of_length_eq_zero (by omega)
    · rintro rfl
      cases hl
      rfl
  refine ⟨(ha'.bestChainOk_iff rfl hh (hk.root hi.root)).trans heq, fun hn => ?_⟩
  obtain rfl := heq.mpr hn
  exact ⟨rfl, hh, ha', hk.root hi.root, hk.trust hi.trust⟩

theorem bestInv_of_kept (hi : BestInv env n) (hk : Kept n n') (hat : AtTip env n' n.hashBestChain) :
    BestInv env n' := by
  have hh : n.nBestHeight = n'.heightOf n.hashBestChain := by rw [hk.heightOf, hi.height]
  have hr : ∀ {k : Hash256} {p : CBlockIndex}, n'.mapBlockIndex[k]? = some p → p.pprev = none →
      n'.pindexGenesisBlock = some k := hk.root hi.root
  have ht : ∀ {k prev : Hash256}, n'.prevOf k = some prev → n'.trustOf prev ≤ n'.trustOf k :=
    hk.trust hi.trust
  obtain ⟨_, _, _, _, _, rfl⟩ := hk.fields
  exact ⟨hi.best, hh, hat, hr, ht⟩

/-- `SetBestChain` before its last part, for a block that is not genesis. -/
def attach (env : Env) (io : Hash256 → Bool) (n : Node) (b : CBlock) (best pindexNew : CBlockIndex) : Bool × Node :=
  if b.hashPrevBlock = n.hashBestChain then n.setBestChainInner env b pindexNew else n.switchChain env io best pindexNew

theorem setBestChain_eq (hi : BestInv env n) (hne : Indexed env n b p) :
    ∃ best : CBlockIndex, best.phashBlock = n.hashBestChain ∧ best.bnChainTrust = n.trustOf n.hashBestChain ∧
      ∀ io, n.setBestChain env io b p =
        if ((n.setTxdb n.txdb.txnBegin).attach env io b best p).1 then
          (true, ((n.setTxdb n.txdb.txnBegin).attach env io b best p).2.newBest p.phashBlock p)
        else (n.setTxdb n.txdb.txnBegin).attach env io b best p := by
  obtain ⟨chain, recs, hsy⟩ := hi.tip.synced.synced
  obtain ⟨g, pg, -, hg, hr, -⟩ := hsy.root
  obtain ⟨best, hb⟩ := hsy.exists_entry
  refine ⟨best, hi.tip.synced.tree.key hb, by rw [trustOf, hb]; rfl, fun io => ?_⟩
  have hge : ¬((n.setTxdb n.txdb.txnBegin).pindexGenesisBlock = none ∧ p.phashBlock = env.hashGenesisBlock) := by
    rintro ⟨hn, -⟩
    exact some_ne_none g ((hi.root hg hr).symm.trans hn)
  have he : (n.setTxdb n.txdb.txnBegin).bestEntry = some best := by
    show n.pindexBest.bind _ = _
    rw [hi.best]
    exact hb
  unfold setBestChain attach
  rw [hne.hash]
  dsimp only
  rw [if_neg hge, he]

theorem setBestChain_spec (hin : TxHashBinds env) (hi : BestInv env n) (hn : Indexed env n b p)
    (hr : n.setBestChain env io b p = (ok, n')) : (ok = false → BestInv env n') ∧
      (ok = true → ∃ m t l, n' = m.newBest p.phashBlock p ∧ Kept n m ∧ AtTip env m t ∧
        Branch n.prevOf t p.phashBlock l ∧
        (n.trustOf b.hashPrevBlock ≤ n.trustOf n.hashBestChain → l = []) ∧
        ∀ x ∈ (n.postpone (n.trustOf n.hashBestChain) p.nHeight p.phashBlock).1, io x = false → l ≠ []) := by
  have hli : n.prevOf p.phashBlock = some b.hashPrevBlock := by rw [prevOf, hn.entry]; exact hn.link
  obtain ⟨q, -, hh⟩ := hi.tip.synced.tree.parent hn.entry hn.link
  have hni := n.postpone_eq_nil_iff (n.trustOf n.hashBestChain) q.nHeight hli
  rw [← hh] at hni
  obtain ⟨best, hke, ht, heq⟩ := setBestChain_eq hi hn
  rw [heq io] at hr
  have ha : ∀ {ok' : Bool} {m : Node}, (n.setTxdb n.txdb.txnBegin).attach env io b best p = (ok', m) →
      Kept n m ∧ (ok' = false → AtTip env m n.hashBestChain) ∧
        (ok' = true → ∃ t l, AtTip env m t ∧ Branch n.prevOf t p.phashBlock l ∧
          (n.trustOf b.hashPrevBlock ≤ n.trustOf n.hashBestChain → l = []) ∧
          ∀ x ∈ (n.postpone (n.trustOf n.hashBestChain) p.nHeight p.phashBlock).1, io x = false → l ≠ []) := by
    intro ok' m hr
    unfold attach at hr
    split at hr
    · rename_i hdi
      obtain ⟨hk, hat⟩ := setBestChainInner_spec hi.tip hn.entry (hdi ▸ hn.link) hn.record hn.hash hr
      refine ⟨hk, fun e => ?_, fun e => ?_⟩
      · rwa [e] at hat
      · rw [e] at hat
        refine ⟨_, [], hat, .nil, fun _ => rfl, ?_⟩
        rw [hni.mpr (Nat.le_of_eq (congrArg n.trustOf hdi))]
        exact fun x hx => absurd hx not_mem_nil
    · obtain ⟨hk, hf, hd⟩ := switchChain_spec hin (hke ▸ hi.tip) hr
      rw [ht] at hd
      rw [hke] at hf
      refine ⟨hk, hf, fun e => ?_⟩
      obtain ⟨t, l, hat, hl, hal, hb⟩ := hd e
      exact ⟨t, l, hat, hl, fun hle => hal (hni.mpr hle), hb⟩
  generalize (n.setTxdb n.txdb.txnBegin).attach env io b best p = r at hr ha
  obtain ⟨ok', m⟩ := r
  obtain ⟨hk, hf, hd⟩ := ha rfl
  cases ok' with
  | false =>
    cases hr
    exact ⟨fun _ => bestInv_of_kept hi hk (hf rfl), fun e => absurd e false_ne_true⟩
  | true =>
    cases hr
    obtain ⟨t, l, hat, hl, hal, hb⟩ := hd rfl
    exact ⟨fun e => absurd e.symm false_ne_true, fun _ => ⟨m, t, l, rfl, hk, hat, hl, hal, hb⟩⟩

theorem trustOf_le_of_branch (hi : BestInv env n) (h : Branch n.prevOf x top l) : n.trustOf x ≤ n.trustOf top := by
  induction h with
  | nil => exact le_rfl
  | cons link rest ih => exact ih.trans (hi.trust link)

variable (io) in
theorem setBestChain_fst_congr (io' : Hash256 → Bool) (hi : BestInv env n) (hn : Indexed env n b p)
    (heq : ∀ x, x ∉ (n.postpone (n.trustOf n.hashBestChain) p.nHeight p.phashBlock).1 → io x = io' x) :
    (n.setBestChain env io b p).1 = (n.setBestChain env io' b p).1 := by
  have hr := hi.tip.synced.tree.ranked
  obtain ⟨best, hk, ht, he'⟩ := setBestChain_eq hi hn
  have hfs : ((n.setTxdb n.txdb.txnBegin).attach env io b best p).1 =
      ((n.setTxdb n.txdb.txnBegin).attach env io' b best p).1 := by
    unfold attach
    split
    · rfl
    have hb := n.postpone_branch best.bnChainTrust p.nHeight p.phashBlock
    unfold switchChain
    rw [postpone_setTxdb, ht] at *
    generalize hf : n.postpone (n.trustOf n.hashBestChain) p.nHeight p.phashBlock = further at *
    obtain ⟨sec, mid⟩ := further
    dsimp only at heq hb ⊢
    have hre : reorganize env io (n.setTxdb n.txdb.txnBegin) best.phashBlock mid =
        reorganize env io' (n.setTxdb n.txdb.txnBegin) best.phashBlock mid := by
      refine reorganize_congr fun pfork hfo x hx => heq x fun hm => ?_
      obtain ⟨hds, hcs, -⟩ := findFork_spec (n := n.setTxdb n.txdb.txnBegin) hr hfo
      rcases hx with hx | hx
      · -- blocks of the old chain have too little trust to be postponed
        obtain ⟨l1, -, hold, -⟩ := hds.split hx
        have hle := trustOf_le_of_branch hi (hk ▸ hold)
        obtain ⟨prev, hp, hlt⟩ := postpone_trust (n := n) (by rw [hf]; exact hm)
        have := hi.trust hp
        omega
      · -- and those of the new branch are not above the intermediate block
        have hle := (hcs.rank_mem hr hx).2
        have hlt := (hb.rank_mem hr hm).1
        omega
    rw [hre]
    split <;> rfl
  rw [he' io, he' io', ← hfs]
  split
  · rfl
  · exact hfs

theorem bestInv_setBestChain (hin : TxHashBinds env) (hi : BestInv env n) (hn : Indexed env n b p)
    (hle : n.trustOf b.hashPrevBlock ≤ n.trustOf n.hashBestChain) (io : Hash256 → Bool) :
    BestInv env (n.setBestChain env io b p).2 ∧
      ((n.setBestChain env io b p).1 = true → BestChainOk env (n.setBestChain env io b p).2) := by
  have hru : n.setBestChain env io b p = ((n.setBestChain env io b p).1, (n.setBestChain env io b p).2) := rfl
  obtain ⟨hf, hd⟩ := setBestChain_spec hin hi hn hru
  cases hr : (n.setBestChain env io b p).1 with
  | false => exact ⟨hf hr, fun e => absurd e false_ne_true⟩
  | true =>
    obtain ⟨m, t, l, hm, hk, hat, hl, hni, -⟩ := hd hr
    obtain ⟨hif, hb⟩ := newBest_spec hi hn.entry hk hat hl
    rw [hm]
    exact ⟨hb (hni hle), fun _ => hif.mpr (hni hle)⟩

end Node

/-- **`SetBestChain` leaves a consistent node, whichever blocks fail, exactly if it postpones none**: if the previous
block has more trust than the best one, some block can fail so that the call returns true on an inconsistent node. -/
theorem setBestChain_consistent_iff (env : Env) (hinj : TxHashBinds env) (n : Node) (b : CBlock) (p : CBlockIndex)
    (hinv : BestInv env n) (hnew : Indexed env n b p) (hok : ∃ io, (n.setBestChain env io b p).1 = true) :
    ((∀ io, (n.setBestChain env io b p).1 = true → BestChainOk env (n.setBestChain env io b p).2) ↔
      n.trustOf b.hashPrevBlock ≤ n.trustOf n.hashBestChain) ∧
    (n.trustOf b.hashPrevBlock ≤ n.trustOf n.hashBestChain → ∀ io, BestInv env (n.setBestChain env io b p).2) := by
  refine ⟨⟨fun hall => ?_, fun hle io => (Node.bestInv_setBestChain hinj hinv hnew hle io).2⟩,
    fun hle io => (Node.bestInv_setBestChain hinj hinv hnew hle io).1⟩
  by_contra hlt
  obtain ⟨io, ht⟩ := hok
  have hli : n.prevOf p.phashBlock = some b.hashPrevBlock := by rw [Node.prevOf, hnew.entry]; exact hnew.link
  obtain ⟨q, -, hh⟩ := hinv.tip.synced.tree.parent hnew.entry hnew.link
  have hne : (n.postpone (n.trustOf n.hashBestChain) p.nHeight p.phashBlock).1 ≠ [] := by
    rw [hh]
    exact fun e => hlt ((n.postpone_eq_nil_iff _ _ hli).mp e)
  have ht' := Node.setBestChain_fst_congr io
    (fun x => io x && !decide (x ∈ (n.postpone (n.trustOf n.hashBestChain) p.nHeight p.phashBlock).1)) hinv hnew
    fun x hx => by simp [hx]
  rw [ht] at ht'
  obtain ⟨m, t, l, hm, hk, hat, hl, -, hb⟩ := (Node.setBestChain_spec hinj hinv hnew
    (Prod.ext ht'.symm rfl)).2 rfl
  obtain ⟨x, hx⟩ := exists_mem_of_ne_nil _ hne
  refine hb x hx (by simp [hx]) ((Node.newBest_spec hinv hnew.entry hk hat hl).1.mp ?_)
  rw [← hm]
  exact hall _ ht'.symm

/-! ### Two blocks on genesis, and a block on the second one that pays itself too much -/

namespace Sample

variable {trust : Nat}

def rivalBlock : CBlock := block 1 3 1 [coinbase 1 (coin / 2)]
def greedyBlock : CBlock := block 3 4 2 [coinbase 2 (1000 * coin)]

noncomputable def forkEnv : Env :=
  env [coinbase 0 0, coinbase 1 coin, coinbase 1 (coin / 2), coinbase 2 (1000 * coin)]
    [genesisBlock.toCBlockHeader, firstBlock.toCBlockHeader, rivalBlock.toCBlockHeader, greedyBlock.toCBlockHeader]

def greedyEntry : CBlockIndex := entry 4 (some 3) 4 2 4 greedyBlock

def forkFiles : BlockFiles :=
  ⟨[⟨1, 8, genesisBlock⟩, ⟨2, 8, firstBlock⟩, ⟨3, 8, rivalBlock⟩, ⟨4, 8, greedyBlock⟩], 4, by decide⟩

section
variable (trust : Nat) (wallets : List CWallet)

def rivalEntry : CBlockIndex := entry 3 (some 1) 3 1 trust rivalBlock

def forkBlocks : BlockMap :=
  ((((∅ : BlockMap).insert 1 genesisEntry).insert 2 firstEntry).insert 3 (rivalEntry trust)).insert 4 greedyEntry

def forkNode : Node := node forkFiles (forkBlocks trust) (fun _ => none) 1 0 wallets

noncomputable def forkNode₁ : Node :=
  ((forkNode trust wallets).setBestChain forkEnv (fun _ => true) firstBlock firstEntry).2

end

theorem node_bestInv {env : Env} {m : BlockMap} {files : BlockFiles} (ht : TreeOk env m files)
    (hr : m[(1 : Hash256)]? = some genesisEntry) (h : ∀ e ∈ m.toList, e.2.pnext = none ∧ (e.2.pprev = none → e.1 = 1) ∧
      ∀ b ∈ e.2.pprev, ∃ q ∈ m[b]?, q.bnChainTrust ≤ e.2.bnChainTrust) (wallets : List CWallet) :
    BestInv env (node files m (fun _ => none) 1 0 wallets) := by
  have he : ∀ {k : Hash256} {p : CBlockIndex}, m[k]? = some p → (k, p) ∈ m.toList :=
    ExtTreeMap.mem_toList_iff_getElem?_eq_some.mpr
  have hg : (node files m (fun _ => none) 1 0 wallets).mapBlockIndex[
      (node files m (fun _ => none) 1 0 wallets).hashBestChain]? = some genesisEntry := hr
  refine ⟨rfl, ?_, ⟨⟨ht, [], [], .genesis hr rfl rfl rfl⟩, rfl, rfl, .of_root ?_ fun k => ?_⟩, ?_, ?_⟩
  · rw [Node.heightOf, hg]
    rfl
  · rw [Node.prevOf, hg]
    rfl
  · unfold Node.nextOf
    cases hp : (node files m (fun _ => none) 1 0 wallets).mapBlockIndex[k]? with
    | none => rfl
    | some p => exact (h _ (he hp)).1
  · exact fun hp hn => congrArg some ((h _ (he hp)).2.1 hn).symm
  · intro k b hl
    obtain ⟨p, hp, hpb⟩ := bind_eq_some_iff.mp hl
    obtain ⟨q, hq, hle⟩ := (h _ (he hp)).2.2 b hpb
    have hq : (node files m (fun _ => none) 1 0 wallets).mapBlockIndex[b]? = some q := hq
    rwa [Node.trustOf, Node.trustOf, hp, hq]

theorem forkNode_tree (hl : 1 ≤ trust) (hh : trust ≤ 4) : TreeOk forkEnv (forkBlocks trust) forkFiles := by
  interval_cases trust <;> exact .of_entries (by decide)

theorem forkNode_bestInv (hl : 1 ≤ trust) (hh : trust ≤ 4) (wallets : List CWallet) :
    BestInv forkEnv (forkNode trust wallets) := by
  refine node_bestInv (forkNode_tree hl hh) ?_ ?_ wallets <;> interval_cases trust <;> decide

theorem forkNode₁_bestInv (hl : 1 ≤ trust) (hh : trust ≤ 4) (wallets : List CWallet) :
    BestInv forkEnv (forkNode₁ trust wallets) := by
  have hr : forkFiles.recordAt firstEntry.nFile firstEntry.nBlockPos = some firstBlock := by decide
  have he : (forkBlocks trust)[(2 : Hash256)]? = some firstEntry := by interval_cases trust <;> decide
  have hn : Indexed forkEnv (forkNode trust wallets) firstBlock firstEntry := ⟨he, rfl, hr, by decide⟩
  exact (Node.bestInv_setBestChain (txHashBinds _ _) (forkNode_bestInv hl hh wallets) hn le_rfl _).1

end Sample

open Sample in
/-- The rival block is set after the first one. -/
theorem setBestChain_consistent_iff_rival :
    BestChainOk forkEnv ((forkNode₁ 3 []).setBestChain forkEnv (fun _ => true) rivalBlock (rivalEntry 3)).2 ∧
      ((forkNode₁ 3 []).setBestChain forkEnv (fun _ => true) rivalBlock (rivalEntry 3)).2.hashBestChain = 3 :=
  ⟨(setBestChain_consistent_iff forkEnv (txHashBinds _ _) (forkNode₁ 3 []) rivalBlock (rivalEntry 3)
      (forkNode₁_bestInv (by decide) (by decide) []) ⟨by decide, rfl, by decide, by decide⟩
      ⟨fun _ => true, by decide⟩).1.mpr (by decide) _ (by decide), by decide⟩

open Sample in
/-- The greedy block does not connect, but it is the best block. -/
theorem setBestChain_inconsistent :
    BestInv forkEnv (forkNode₁ 3 []) ∧ Indexed forkEnv (forkNode₁ 3 []) greedyBlock greedyEntry ∧
      ((forkNode₁ 3 []).setBestChain forkEnv (fun _ => true) greedyBlock greedyEntry).1 = true ∧
      ((forkNode₁ 3 []).setBestChain forkEnv (fun _ => true) greedyBlock greedyEntry).2.hashBestChain = 4 ∧
      ((forkNode₁ 3 []).setBestChain forkEnv (fun _ => true) greedyBlock greedyEntry).2.txdb.store.disk .hashBestChain =
        some 3 ∧
      ¬ BestChainOk forkEnv ((forkNode₁ 3 []).setBestChain forkEnv (fun _ => true) greedyBlock greedyEntry).2 := by
  have hb : ((forkNode₁ 3 []).setBestChain forkEnv (fun _ => true) greedyBlock greedyEntry).2.hashBestChain = 4 := by
    decide
  have hd : ((forkNode₁ 3 []).setBestChain forkEnv (fun _ => true) greedyBlock greedyEntry).2.txdb.store.disk
      .hashBestChain = some 3 := by decide
  refine ⟨forkNode₁_bestInv (by decide) (by decide) [], ⟨by decide, rfl, by decide, by decide⟩, by decide, hb, hd,
    fun h => ?_⟩
  have hsa := h.committed
  rw [hd, hb] at hsa
  cases hsa

end CloakCoin.Chain
