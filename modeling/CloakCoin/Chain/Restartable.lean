import CloakCoin.Chain.DiskIndex
import CloakCoin.Chain.LoadIndex
import CloakCoin.Chain.SyncChain
import CloakCoin.Lib.Run

/-!
# The database keeps up with the block tree

Blocks, checkpoint messages and pending checkpoints come in any order, reorganisations succeed or fail. `Restartable`
says that the database describes tree and best chain in memory. It is kept as long as no call of `SetBestChain`
postpones blocks and no index record is lost.
-/

namespace CloakCoin.Chain

open Lib Wallet
open Std (ExtTreeMap)
open Option

variable {p q : CBlockIndex} {ok : Bool}

namespace Node

variable {env : Env} {n n' : Node}

/-! ## A new block and its record -/

theorem branch_of_enter (hl : Linked n) (hn : n.mapBlockIndex[p.phashBlock]? = none)
    (hb : Branch (n.enter p).prevOf low top l) (ht : (n.mapBlockIndex[top]?).isSome = true) :
    Branch n.prevOf low top l := by
  induction hb with
  | nil => exact .nil
  | @cons a b l link _ ih =>
    have ha : a ≠ p.phashBlock := by
      rintro rfl
      rw [hn] at ht
      cases ht
    rw [prevOf_enter_ne ha] at link
    exact .cons link (ih (hl.closed link))

theorem trustOf_enter (hn : n.mapBlockIndex[p.phashBlock]? = none) (db : CTxDB)
    (hk : (n.mapBlockIndex[k]?).isSome = true) : ((n.enter p).setTxdb db).trustOf k = n.trustOf k := by
  have hne : k ≠ p.phashBlock := by
    rintro rfl
    rw [hn] at hk
    cases hk
  rw [trustOf, trustOf, show ((n.enter p).setTxdb db).mapBlockIndex[k]? =
    n.mapBlockIndex[k]? from getElem?_enter_ne hne]

theorem HeaderKeys.enter (h : HeaderKeys env n) (hp : p.getBlockHeader.getHash env = p.phashBlock) :
    HeaderKeys env (n.enter p) := by
  intro k q hq
  by_cases hk : k = p.phashBlock
  · subst hk
    rw [getElem?_enter_self, some.injEq] at hq
    rw [← hq]
    exact hp
  · rw [getElem?_enter_ne hk] at hq
    exact h hq

theorem Recorded.enter (h : Recorded env n tip)
    (hnew : n.mapBlockIndex[p.phashBlock]? = none) (hp : n.mapBlockIndex[prev]? = some q) (hli : p.pprev = some prev)
    (hhe : p.nHeight = q.nHeight + 1) (hn : p.pnext = none) (hh : p.getBlockHeader.getHash env = p.phashBlock)
    (hco : (n.txdb.txnBegin.writeBlockIndex env p.toDisk).txnCommit = (true, db)) :
    Recorded env ((n.enter p).setTxdb db) tip := by
  have hc := h.chained.enter hnew hp hli hhe hn
  have hne : tip ≠ p.phashBlock := by
    rintro rfl
    have := h.chained.indexed
    rw [hnew] at this
    cases this
  obtain ⟨hi, hr⟩ := CTxDB.read_of_txnCommit hco
  have hke : p.toDisk.getBlockHeader.getHash env = p.phashBlock := hh
  have hv : db.readBlockIndex = Function.update n.txdb.readBlockIndex p.phashBlock (some p.toDisk) := by
    have hb : n.txdb.txnBegin.readBlockIndex = n.txdb.readBlockIndex :=
      funext fun k => (h.saved.read_eq (.blockindex k)).symm
    rw [← hb, ← hke, ← CTxDB.readBlockIndex_writeBlockIndex]
    exact funext fun k => hr (.blockindex k)
  have hha : db.readHashBestChain = some tip := by
    refine (hr .hashBestChain).trans ?_
    exact (h.saved.read_eq .hashBestChain).symm.trans h.saved.hash
  have hsa : ∀ {k : Hash256}, k ≠ p.phashBlock → ((n.enter p).setTxdb db).mapBlockIndex[k]? = n.mapBlockIndex[k]? :=
    fun hk => getElem?_enter_ne hk
  refine ⟨hc.setTxdb db, HeaderKeys.enter h.headers hh, ⟨hi, hha, fun k => ?_⟩, ?_, ?_⟩
  · show Rel _ _ (db.readBlockIndex k)
    rw [hv]
    by_cases hk : k = p.phashBlock
    · subst hk
      have hse : ((n.enter p).setTxdb db).mapBlockIndex[p.phashBlock]? = some p := getElem?_enter_self n p
      rw [Function.update_self, nextOf, hse, bind_some]
      exact .some (.toDisk p p.pnext _)
    rw [Function.update_of_ne hk, nextOf, hsa hk]
    have hm := h.saved.mirror k
    rw [nextOf] at hm
    generalize n.mapBlockIndex[k]? = x at hm
    generalize n.txdb.readBlockIndex k = v at hm
    cases hm with
    | none => exact .none
    | some hs =>
      refine .some ⟨hs.shape, hs.prev, hs.next, fun hd => hs.amounts ?_⟩
      obtain ⟨l, hl⟩ := hd
      exact ⟨l, branch_of_enter h.chained.linked hnew hl h.chained.indexed⟩
  · rw [heightOf, hsa hne]
    exact h.height
  · rw [trustOf, hsa hne]
    exact h.trust

end Node

def Node.PostponesNone (n : Node) (h : Hash256) : Prop :=
  ∀ prev, n.prevOf h = some prev → n.trustOf prev ≤ n.trustOf n.hashBestChain

/-! ## The invariant -/

structure EntryOk (env : Env) (trust : Hash256 → Nat) (h : Hash256) (p : CBlockIndex) : Prop where
  ne_zero : h ≠ 0
  version : 0 < p.nVersion
  trust : p.bnChainTrust = ((p.pprev.map trust).getD 0 + CBlockIndex.getBlockTrust env p.nBits
    p.fProofOfStake) % 2 ^ 256
  /-- Blocks without proof of stake have no stake fields. -/
  work : p.fProofOfStake = false → p.prevoutStake = .null ∧ p.nStakeTime = 0 ∧ p.hashProofOfStake = 0

theorem EntryOk.of_shape_eq {env : Env} {trust : Hash256 → Nat} {h : Hash256} (hq : EntryOk env trust h q)
    (hs : q.shape = p.shape) : EntryOk env trust h p := by
  have hq' : EntryOk env trust h q.shape := ⟨hq.ne_zero, hq.version, hq.trust, hq.work⟩
  rw [hs] at hq'
  exact ⟨hq'.ne_zero, hq'.version, hq'.trust, hq'.work⟩

structure Restartable (env : Env) (s : ChainMan) : Prop where
  recorded : ∃ tip, s.node.Recorded env tip
  stored : s.node.PrevStored
  entries : ∀ {h : Hash256} {p : CBlockIndex}, s.node.mapBlockIndex[h]? = some p → EntryOk env s.node.trustOf h p
  stakes : ∀ stake, stake ∈ s.setStakeSeen ↔
    ∃ (h : Hash256) (p : CBlockIndex), s.node.mapBlockIndex[h]? = some p ∧ p.fProofOfStake = true ∧
      stake = (p.prevoutStake, p.nStakeTime)

namespace Restartable

variable {env : Env} {io : Hash256 → Bool} {rules : AcceptRules} {s s' : ChainMan} {b : CBlock}

section
variable (h : Restartable env s)
include h

theorem setNode (ht : Node.SameTree s.node n) (hr : ∃ tip, n.Recorded env tip)
    (c : SyncCheckpoints) : Restartable env { s with node := n, checkpoints := c } where
  recorded := hr
  stored := SyncInv.prevStored_sameTree h.stored ht
  entries {k p} hp := by
    obtain ⟨q, hq, hs⟩ := exists_of_map_eq (ht.blocks k) hp
    rw [ht.trustOf]
    exact (h.entries hq).of_shape_eq hs
  stakes stake := by
    rw [show stake ∈ s.setStakeSeen ↔ _ from h.stakes stake]
    have hst : ∀ {p q : CBlockIndex}, q.shape = p.shape → q.fProofOfStake = true ∧
      stake = (q.prevoutStake, q.nStakeTime) →
        p.fProofOfStake = true ∧ stake = (p.prevoutStake, p.nStakeTime) := by
      intro p q hs hq
      change q.shape.fProofOfStake = true ∧ stake = (q.shape.prevoutStake, q.shape.nStakeTime) at hq
      rw [hs] at hq
      exact hq
    constructor
    · rintro ⟨k, q, hq, hpo⟩
      obtain ⟨p, hp, hs⟩ := exists_of_map_eq (ht.blocks k).symm hq
      exact ⟨k, p, hp, hst hs.symm hpo⟩
    · rintro ⟨k, p, hp, hpo⟩
      obtain ⟨q, hq, hs⟩ := exists_of_map_eq (ht.blocks k) hp
      exact ⟨k, q, hq, hst hs.symm hpo⟩

/-! ## Checkpoints -/

theorem move {c : SyncCheckpoints} {hash anc : Hash256} (hd : s.node.StrictlyDescends hash anc)
    (hno : s.node.PostponesNone hash) : ∃ tip, (c.move env io written s.node hash).2.1.Recorded env tip := by
  obtain ⟨tip, hrec⟩ := h.recorded
  have hw : ∀ {n : Node} {t : Hash256}, n.Recorded env t →
      ∃ tip, (if written = true then (true, n, { c with hashSyncCheckpoint := hash, hashPendingCheckpoint := 0 })
        else (false, n, c) : Bool × Node × SyncCheckpoints).2.1.Recorded env tip := by
    intro n t hn
    split <;> exact ⟨t, hn⟩
  unfold SyncCheckpoints.move
  dsimp only
  split
  · exact ⟨tip, hrec⟩
  rename_i p hp
  obtain rfl : p.phashBlock = hash := hrec.chained.linked.keys hp
  split
  · exact hw hrec
  split
  · exact ⟨tip, hrec⟩
  rename_i q b hre
  obtain ⟨hq, hdi⟩ := Node.readBlock_eq_some hre
  obtain rfl : p = q := some.inj (hp.symm.trans hq)
  obtain ⟨hr, hh⟩ := BlockFiles.recordAt_of_readFromDisk hdi
  obtain ⟨prev, link⟩ := hd.prevOf
  have ht := hno prev link
  rw [Node.prevOf, hp] at link
  obtain ⟨b', hr', rfl⟩ := h.stored _ _ _ hp link
  obtain rfl : b = b' := some.inj (hr.symm.trans hr')
  rw [hrec.chained.hash] at ht
  have hs : ∀ {ok : Bool} {n' : Node}, s.node.setBestChain env io b p = (ok, n') →
      n'.Recorded env (if ok then p.phashBlock else tip) := fun hru => hrec.setBestChain hp hh link ht hru
  split
  · rename_i n' heq
    exact ⟨_, hs heq⟩
  · rename_i n' heq
    exact hw (hs heq)

theorem keys : Node.HashKeys s.node := by
  obtain ⟨tip, hr⟩ := h.recorded
  exact hr.chained.linked.keys

theorem linked : Node.Linked s.node := by
  obtain ⟨tip, hr⟩ := h.recorded
  exact hr.chained.linked

theorem acceptPending (hn : s.node.PostponesNone s.checkpoints.hashPendingCheckpoint) :
    Restartable env (s.acceptPendingSyncCheckpoint env rules) := by
  refine h.setNode (n := (s.checkpoints.acceptPending env rules.io rules.syncCheckpointWritten s.node).2.1) ?_ ?_ _
  · unfold SyncCheckpoints.acceptPending
    split
    · split
      · exact .refl _
      · exact SyncCheckpoints.move_sameTree h.keys _ _
    · exact .refl _
  · unfold SyncCheckpoints.acceptPending
    split
    · split
      · exact h.recorded
      · rename_i hv
        obtain ⟨rfl, hd⟩ := SyncCheckpoints.descends_of_validate h.linked hv
        exact h.move hd hn
    · exact h.recorded

theorem process {hash : Hash256} (hn : s.node.PostponesNone hash) :
    Restartable env (s.processSyncCheckpoint env io written hash) := by
  refine h.setNode (n := (s.checkpoints.process env io written s.node hash).2.1) ?_ ?_ _
  · unfold SyncCheckpoints.process
    split
    · exact .refl _
    split
    · exact .refl _
    · exact SyncCheckpoints.move_sameTree h.keys _ _
  · unfold SyncCheckpoints.process
    split
    · exact h.recorded
    split
    · exact h.recorded
    · rename_i hv
      obtain ⟨rfl, hd⟩ := SyncCheckpoints.descends_of_validate h.linked hv
      exact h.move hd hn

/-! ## Blocks -/

theorem append (hpo : 1 ≤ nFile.val) (b : CBlock) : Restartable env (s.stored nFile b) where
  recorded := by
    obtain ⟨tip, hre⟩ := h.recorded
    have hc := hre.chained
    exact ⟨tip, ⟨⟨⟨hc.linked.keys, hc.linked.closed⟩, hc.ranked, hc.genesis, hc.best, hc.hash,
      hc.indexed, hc.next⟩, hre.headers, ⟨hre.saved.idle, hre.saved.hash, hre.saved.mirror⟩, hre.height,
      hre.trust⟩⟩
  stored k p prev hp hpr := by
    obtain ⟨b', hr, hb⟩ := h.stored k p prev hp hpr
    exact ⟨b', (BlockFiles.recordAt_append hpo b).2 hr, hb⟩
  entries hp := h.entries hp
  stakes := h.stakes

theorem enter (hnew : s.node.mapBlockIndex[b.getHash env]? = none)
    (hpr : s.node.mapBlockIndex[b.hashPrevBlock]? = some q) (hv : 0 < b.nVersion) (hz : b.getHash env ≠ 0)
    {nFile : Fin uintMax} (hre : s.node.files.recordAt nFile nBlockPos = some b)
    (hco : (s.node.txdb.txnBegin.writeBlockIndex env (s.newIndex env rules b nFile nBlockPos).toDisk).txnCommit =
      (true, db)) : Restartable env ((s.entered env rules b nFile nBlockPos).setNode
      ((s.entered env rules b nFile nBlockPos).node.setTxdb db)) := by
  obtain ⟨tip, hrec⟩ := h.recorded
  generalize hp : s.newIndex env rules b nFile nBlockPos = p at hco
  have hha : p.phashBlock = b.getHash env := by rw [← hp]; rfl
  have hl : p.pprev = some b.hashPrevBlock := by rw [← hp, ChainMan.newIndex, hpr]; rfl
  have hh : p.nHeight = q.nHeight + 1 := by rw [← hp, ChainMan.newIndex, hpr]; rfl
  have hn : p.pnext = none := by rw [← hp]; rfl
  have hhe : p.getBlockHeader.getHash env = p.phashBlock := by rw [← hp, ChainMan.newIndex, hpr]; rfl
  rw [← hha] at hnew hz
  have hne : ∀ {k : Hash256}, (s.node.mapBlockIndex[k]?).isSome = true → k ≠ p.phashBlock := by
    rintro k hk rfl
    rw [hnew] at hk
    cases hk
  have hc : ∀ {k : Hash256} {r : CBlockIndex}, ((s.node.enter p).setTxdb db).mapBlockIndex[k]? = some r →
      (k = p.phashBlock ∧ r = p) ∨ (k ≠ p.phashBlock ∧ s.node.mapBlockIndex[k]? = some r) := by
    intro k r hr
    change (s.node.enter p).mapBlockIndex[k]? = some r at hr
    by_cases hk : k = p.phashBlock
    · subst hk
      rw [Node.getElem?_enter_self, some.injEq] at hr
      exact .inl ⟨rfl, hr.symm⟩
    · rw [Node.getElem?_enter_ne hk] at hr
      exact .inr ⟨hk, hr⟩
  have he : (s.entered env rules b nFile nBlockPos).setNode ((s.entered env rules b nFile nBlockPos).node.setTxdb db) =
      { s with node := (s.node.enter p).setTxdb db, setStakeSeen := if p.fProofOfStake then
          insert (p.prevoutStake, p.nStakeTime) s.setStakeSeen else s.setStakeSeen } := by
    rw [← hp]
    rfl
  rw [he]
  refine ⟨⟨tip, hrec.enter hnew hpr hl hh hn hhe hco⟩, ?_, ?_, ?_⟩
  · intro k r prev hr hrp
    rcases hc hr with ⟨rfl, rfl⟩ | ⟨-, hr⟩
    · rw [hl, some.injEq] at hrp
      refine ⟨b, ?_, hrp⟩
      rw [← hp]
      exact hre
    · exact h.stored k r prev hr hrp
  · intro k r hr
    rcases hc hr with ⟨rfl, rfl⟩ | ⟨hk, hr⟩
    · refine ⟨hz, by rw [← hp]; exact hv, ?_, fun hw => ?_⟩
      · have hpt : s.node.trustOf b.hashPrevBlock = q.bnChainTrust := by rw [Node.trustOf, hpr]; rfl
        rw [hl, map_some, getD_some, Node.trustOf_enter hnew db (by rw [hpr]; rfl), hpt, ← hp,
          ChainMan.newIndex, hpr]
        rfl
      · rw [← hp] at hw ⊢
        have hw : b.isProofOfStake = false := hw
        simp [ChainMan.newIndex, CBlockIndex.ofBlock, hw]
    · have hr' := h.entries hr
      refine ⟨hr'.ne_zero, hr'.version, ?_, hr'.work⟩
      rw [hr'.trust]
      cases hrp : r.pprev with
      | none => rfl
      | some prev =>
        have hrl : s.node.prevOf k = some prev := by
          rw [Node.prevOf, hr]
          exact hrp
        rw [map_some, map_some, Node.trustOf_enter hnew db (h.linked.closed hrl)]
  · intro stake
    have hm : (∃ (k : Hash256) (r : CBlockIndex), ((s.node.enter p).setTxdb db).mapBlockIndex[k]? = some r ∧
        r.fProofOfStake = true ∧ stake = (r.prevoutStake, r.nStakeTime)) ↔
        stake ∈ s.setStakeSeen ∨ p.fProofOfStake = true ∧ stake = (p.prevoutStake, p.nStakeTime) := by
      rw [h.stakes]
      constructor
      · rintro ⟨k, r, hr, hs⟩
        rcases hc hr with ⟨rfl, rfl⟩ | ⟨-, hr⟩
        · exact .inr hs
        · exact .inl ⟨k, r, hr, hs⟩
      · rintro (⟨k, r, hr, hs⟩ | hs)
        · refine ⟨k, r, ?_, hs⟩
          exact (Node.getElem?_enter_ne (hne (by rw [hr]; rfl))).trans hr
        · exact ⟨p.phashBlock, p, Node.getElem?_enter_self s.node p, hs⟩
    rw [hm]
    cases hpo : p.fProofOfStake with
    | false => simp
    | true =>
      rw [if_pos rfl, Finset.mem_insert, Or.comm]
      simp

theorem addToBlockIndex (hp : s.node.mapBlockIndex[b.hashPrevBlock]? = some q)
    (hv : 0 < b.nVersion) (hz : b.getHash env ≠ 0) (hw : s.node.txdb.commits.headD true = true)
    (hn : s.node.trustOf b.hashPrevBlock ≤ s.node.trustOf s.node.hashBestChain) {nFile : Fin uintMax}
    (hr : s.node.files.recordAt nFile nBlockPos = some b)
    (hru : s.addToBlockIndex env rules b nFile nBlockPos = (ok, s')) : Restartable env s' := by
  rcases ChainMan.addToBlockIndex_cases env rules s b nFile nBlockPos with
    heq | ⟨hco, s1, p, okw, db, rfl, rfl, hc, hca⟩
  · cases heq.symm.trans hru
    exact h
  obtain rfl : okw = true := (congrArg Prod.fst hc).symm.trans hw
  have hne := ExtTreeMap.getElem?_eq_none_of_contains_eq_false hco
  have hi := h.enter hne hp hv hz hr hc
  rcases hca with ⟨hf, -⟩ | ⟨-, -, heq⟩ | ⟨-, -, heq⟩
  · cases hf
  · cases heq.symm.trans hru
    obtain ⟨tip, hre⟩ := h.recorded
    obtain ⟨tip', hr'⟩ := hi.recorded
    obtain rfl : tip = tip' := hre.chained.hash.symm.trans hr'.chained.hash
    have he : ((s.entered env rules b nFile nBlockPos).node.setTxdb db).mapBlockIndex[b.getHash env]? =
        some (s.newIndex env rules b nFile nBlockPos) :=
      Node.getElem?_enter_self s.node (s.newIndex env rules b nFile nBlockPos)
    have hl : (s.newIndex env rules b nFile nBlockPos).pprev = some b.hashPrevBlock := by
      rw [ChainMan.newIndex, hp]
      rfl
    have ht : ∀ {k : Hash256}, (s.node.mapBlockIndex[k]?).isSome = true →
        ((s.entered env rules b nFile nBlockPos).node.setTxdb db).trustOf k = s.node.trustOf k :=
      fun hk => Node.trustOf_enter (p := s.newIndex env rules b nFile nBlockPos) hne db hk
    rw [hre.chained.hash, ← ht (by rw [hp]; rfl), ← ht hre.chained.indexed] at hn
    have hs := hr'.setBestChain (p := s.newIndex env rules b nFile nBlockPos) he rfl hl hn
      (Prod.eta (Node.setBestChain env rules.io _ b (s.newIndex env rules b nFile nBlockPos))).symm
    exact hi.setNode (Node.setBestChain_sameTree env rules.io hi.keys b (p := s.newIndex env rules b nFile nBlockPos)
      he) ⟨_, hs⟩ _
  · cases heq.symm.trans hru
    exact hi

end

end Restartable

/-! ## Steps -/

namespace ChainMan

section
variable (env : Env) (rules : AcceptRules)

def acceptEntry (s : ChainMan) (b : CBlock) : Option (Bool × ChainMan) :=
  if s.node.mapBlockIndex.contains (b.getHash env) then some (false, s)
  else
    match s.node.mapBlockIndex[b.hashPrevBlock]? with
    | none => some (false, s)
    | some pindexPrev =>
      match acceptable env rules s.node s.checkpoints pindexPrev b with
      | none => none
      | some false => some (false, s)
      | some true =>
        if !rules.diskOk then some (false, s)
        else
          match s.node.files.appendFile (s.node.files.log.length + 1) s.node.files.nCurrentBlockFile with
          | none => some (false, s)
          | some nFile => some (addToBlockIndex env rules (s.stored nFile b) b nFile (s.node.files.fileEnd nFile + 8))

theorem acceptBlock_eq (s : ChainMan) (b : CBlock) : s.acceptBlock env rules b =
    (s.acceptEntry env rules b).map fun r => (r.1, if r.1 then r.2.acceptPendingSyncCheckpoint env rules else r.2) := by
  unfold acceptBlock acceptEntry
  split
  · rfl
  cases s.node.mapBlockIndex[b.hashPrevBlock]? with
  | none => rfl
  | some pindexPrev =>
    dsimp only
    rcases acceptable env rules s.node s.checkpoints pindexPrev b with _ | _ | _
    · rfl
    · rfl
    dsimp only
    split
    · rfl
    cases s.node.files.appendFile (s.node.files.log.length + 1) s.node.files.nCurrentBlockFile with
    | none => rfl
    | some nFile => rfl

end

end ChainMan

/-- What moves the tree: a block handed to `AcceptBlock`, the pending checkpoint, which is looked at after a block, and
a checkpoint message with a good signature. The holding area and the proofs of stake change as they like. -/
inductive TreeEvent where
  | block (rules : AcceptRules) (b : CBlock)
  | pending (rules : AcceptRules)
  | message (io : Hash256 → Bool) (written : Bool) (hashCheckpoint : Hash256)
  | aside (orphans : ExtTreeMap Hash256 CBlock) (byPrev : List (Hash256 × CBlock)) (stakes : Finset (COutPoint × Nat))
    (proofs : ExtTreeMap Hash256 Hash256)

def treeStep (env : Env) : TreeEvent → ChainMan → Option ChainMan
  | .block rules b, s => (s.acceptEntry env rules b).map Prod.snd
  | .pending rules, s => some (s.acceptPendingSyncCheckpoint env rules)
  | .message io written hashCheckpoint, s => some (s.processSyncCheckpoint env io written hashCheckpoint)
  | .aside orphans byPrev stakes proofs, s =>
    some { s with
      mapOrphanBlocks := orphans
      mapOrphanBlocksByPrev := byPrev
      setStakeSeenOrphan := stakes
      mapProofOfStake := proofs }

/-- The step loses no index record and postpones no block. -/
def StepSafe (env : Env) : TreeEvent → ChainMan → Prop
  | .block _ b, s => 0 < b.nVersion ∧ b.getHash env ≠ 0 ∧ s.node.txdb.commits.headD true = true ∧
      s.node.trustOf b.hashPrevBlock ≤ s.node.trustOf s.node.hashBestChain
  | .pending _, s => s.node.PostponesNone s.checkpoints.hashPendingCheckpoint
  | .message _ _ hashCheckpoint, s => s.node.PostponesNone hashCheckpoint
  | .aside .., _ => True

/-- What a call of `ProcessBlock` is made of: `AcceptBlock` on a block, and what does not touch the tree. -/
inductive BlockEvent where
  | accept (b : CBlock)
  | aside (orphans : ExtTreeMap Hash256 CBlock) (byPrev : List (Hash256 × CBlock)) (stakes : Finset (COutPoint × Nat))
    (proofs : ExtTreeMap Hash256 Hash256)

/-- The pending checkpoint is looked at right after a block that was accepted, and at no other time. -/
def blockStep (env : Env) (rules : AcceptRules) : BlockEvent → ChainMan → Option ChainMan
  | .accept b, s => (s.acceptEntry env rules b).map fun (ok, s) =>
    if ok then s.acceptPendingSyncCheckpoint env rules else s
  | .aside orphans byPrev stakes proofs, s => treeStep env (.aside orphans byPrev stakes proofs) s

namespace Restartable

variable {env : Env} {rules : AcceptRules}

theorem acceptEntry (h : Restartable env s) (hv : 0 < b.nVersion) (hz : b.getHash env ≠ 0)
    (hw : s.node.txdb.commits.headD true = true)
    (hn : s.node.trustOf b.hashPrevBlock ≤ s.node.trustOf s.node.hashBestChain)
    (hr : s.acceptEntry env rules b = some (ok, s')) : Restartable env s' := by
  unfold ChainMan.acceptEntry at hr
  split at hr
  · cases hr
    exact h
  split at hr
  · cases hr
    exact h
  rename_i q hp
  split at hr
  · cases hr
  · cases hr
    exact h
  split at hr
  · cases hr
    exact h
  split at hr
  · cases hr
    exact h
  rename_i nFile hf
  have hpo := BlockFiles.appendFile_pos hf
  exact (h.append hpo b).addToBlockIndex hp hv hz hw hn (BlockFiles.recordAt_append hpo b).1
    (some.inj hr)

theorem step (h : Restartable env s) (hsa : StepSafe env a s) (hs : treeStep env a s = some s') :
    Restartable env s' := by
  cases a with
  | block rules b =>
    obtain ⟨hv, hz, hw, hn⟩ := hsa
    obtain ⟨⟨ok, s1⟩, he, rfl⟩ := map_eq_some_iff.mp hs
    exact h.acceptEntry hv hz hw hn he
  | pending rules =>
    cases hs
    exact h.acceptPending hsa
  | message io written hash =>
    cases hs
    exact h.process hsa
  | aside orphans byPrev stakes proofs =>
    cases hs
    exact ⟨h.recorded, h.stored, h.entries, h.stakes⟩

end Restartable

end CloakCoin.Chain
