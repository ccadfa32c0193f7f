import CloakCoin.Chain.Bodies

/-!
# The best chain and the synchronized checkpoint

Checkpoint messages and blocks come in any order, with any hashes. The checkpoint moves to descendants only, and the
best block stays a descendant of it.
-/

namespace CloakCoin.Chain

open Lib Wallet
open Std (ExtTreeMap)
open Option Std.ExtTreeMap

variable {c' : SyncCheckpoints} {hash : Hash256}

/-! ## The two checks -/

namespace SyncCheckpoints

variable {env : Env} {c : SyncCheckpoints} {n : Node}

theorem descends_of_validate (hl : Node.Linked n) (h : c.validate n hash = (true, c')) :
    c' = c ∧ n.StrictlyDescends hash c.hashSyncCheckpoint := by
  unfold validate at h
  split at h
  · rename_i sync recv hs hr
    split at h
    · split at h
      · cases h
      · split at h <;> cases h
    rename_i hh
    split at h
    · cases h
    rename_i q ht
    split at h
    · cases h
    rename_i hq
    cases h
    rw [not_not] at hq
    obtain rfl : recv.phashBlock = hash := hl.keys hr
    have hd := Node.descends_of_traceBack hl hr ht
    rw [hq] at hd
    refine ⟨rfl, hd.strictly fun hsa => hh ?_⟩
    rw [← hsa, hr, some.injEq] at hs
    rw [hs]
  · cases h

theorem validate_false (h : c.validate n hash = (false, c')) : c'.hashSyncCheckpoint = c.hashSyncCheckpoint := by
  unfold validate at h
  split at h
  · split at h <;> split at h
    · cases h
      rfl
    · split at h <;> cases h <;> rfl
    · cases h
      rfl
    · split at h <;> cases h
      rfl
  · cases h
    rfl

theorem descends_of_checkSync (hmain : env.fTestNet = false) (hl : Node.Linked n)
    (hp : n.mapBlockIndex[prev.phashBlock]? = some prev) (hn : n.mapBlockIndex[hash]? = none)
    (h : c.checkSync env n hash prev = some true) : n.Descends prev.phashBlock c.hashSyncCheckpoint := by
  unfold checkSync at h
  rw [if_neg (by rw [hmain]; exact Bool.false_ne_true)] at h
  dsimp only at h
  split at h
  · cases h
  rename_i sync hs
  split at h
  · split at h
    · cases h
    rename_i q ht
    have hd := Node.descends_of_traceBack hl hp ht
    simp only [some.injEq, Bool.not_eq_true', Bool.or_eq_false_iff, decide_eq_false_iff_not, not_not] at h
    rwa [h.2] at hd
  rename_i hlo
  have hne : hash ≠ c.hashSyncCheckpoint := by
    rintro rfl
    rw [hn] at hs
    cases hs
  have hc : n.mapBlockIndex.contains hash = false := by
    rw [contains_eq_isSome_getElem?, hn]
    rfl
  split at h
  · cases h
  rename_i hsa
  split at h
  · cases h
  rename_i hb
  have hlt : prev.nHeight + 1 < sync.nHeight := lt_of_le_of_ne (not_lt.mp hlo) fun heq => hsa ⟨heq, hne⟩
  exact absurd ⟨hlt, hc⟩ hb

end SyncCheckpoints

/-! ## The invariant -/

def Node.PrevStored (n : Node) : Prop :=
  ∀ (h : Hash256) (p : CBlockIndex) (prev : Hash256), n.mapBlockIndex[h]? = some p → p.pprev = some prev →
    ∃ b, n.files.recordAt p.nFile p.nBlockPos = some b ∧ b.hashPrevBlock = prev

/-- The best block descends from the synchronized checkpoint. -/
structure SyncInv (n : Node) (c : SyncCheckpoints) : Prop where
  chain : ∃ tip, n.Chained tip ∧ n.Descends tip c.hashSyncCheckpoint
  stored : n.PrevStored

structure Forward (n n' : Node) (c c' : SyncCheckpoints) : Prop where
  tree : Node.Grows n n'
  checkpoint : c'.hashSyncCheckpoint = c.hashSyncCheckpoint ∨
    n'.StrictlyDescends c'.hashSyncCheckpoint c.hashSyncCheckpoint

theorem Forward.trans (h : Forward n n' c c') (h' : Forward n' n'' c' c'') : Forward n n'' c c'' := by
  refine ⟨h.tree.trans h'.tree, ?_⟩
  rcases h.checkpoint with heq | hd
  · rw [← heq]
    exact h'.checkpoint
  have hd' := h'.tree.strictlyDescends hd
  rcases h'.checkpoint with heq | hn
  · rw [heq]
    exact .inr hd'
  · exact .inr (hn.trans hd')

namespace SyncInv

variable {env : Env} {io : Hash256 → Bool} {written : Bool} {n n' : Node} {c : SyncCheckpoints}

theorem keys (h : SyncInv n c) : Node.HashKeys n := by
  obtain ⟨tip, hc, -⟩ := h.chain
  exact hc.linked.keys

theorem linked (h : SyncInv n c) : Node.Linked n := by
  obtain ⟨tip, hc, -⟩ := h.chain
  exact hc.linked

theorem prevStored_sameTree (h : n.PrevStored) (ht : Node.SameTree n n') : n'.PrevStored := by
  intro k p prev hp hpr
  obtain ⟨q, hq, hs⟩ := exists_of_map_eq (ht.blocks k) hp
  obtain ⟨b, hr, hb⟩ := h k q prev hq ((CBlockIndex.of_shape_eq hs).2.1.trans hpr)
  exact ⟨b, (ht.recordAt hs).trans hr, hb⟩

theorem of_same (h : SyncInv n c) (hs : c'.hashSyncCheckpoint = c.hashSyncCheckpoint) :
    SyncInv n c' ∧ Forward n n c c' := by
  refine ⟨⟨?_, h.stored⟩, fun _ _ h => h, .inl hs⟩
  rw [hs]
  exact h.chain

theorem move (h : SyncInv n c) (hd : n.StrictlyDescends hash c.hashSyncCheckpoint) :
    SyncInv (c.move env io written n hash).2.1 (c.move env io written n hash).2.2 ∧
      Forward n (c.move env io written n hash).2.1 c (c.move env io written n hash).2.2 := by
  have hst : SyncInv n c ∧ Forward n n c c := h.of_same rfl
  obtain ⟨tip, hc, hb⟩ := h.chain
  have hw : ∀ {n' : Node} {t : Hash256}, Node.SameTree n n' → n'.Chained t → n'.Descends t hash →
      n'.Descends t c.hashSyncCheckpoint → ∀ r : Bool × Node × SyncCheckpoints,
      (if written = true then (true, n', { c with hashSyncCheckpoint := hash, hashPendingCheckpoint := 0 })
        else (false, n', c) : Bool × Node × SyncCheckpoints) = r →
      SyncInv r.2.1 r.2.2 ∧ Forward n r.2.1 c r.2.2 := by
    intro n' t ht hc' hn hold r hr
    have hs := prevStored_sameTree h.stored ht
    split at hr
    · subst hr
      exact ⟨⟨⟨t, hc', hn⟩, hs⟩, ht.grows, .inr (ht.grows.strictlyDescends hd)⟩
    · subst hr
      exact ⟨⟨⟨t, hc', hold⟩, hs⟩, ht.grows, .inl rfl⟩
  unfold SyncCheckpoints.move
  dsimp only
  split
  · exact hst
  rename_i p hp
  obtain rfl : p.phashBlock = hash := h.keys hp
  split
  · rename_i hmain
    exact hw (.refl n) hc (Node.descends_of_isInMainChain hc.next hc.best hp hmain) hb _ rfl
  split
  · exact hst
  rename_i q b hrea
  obtain ⟨hq, hdi⟩ := Node.readBlock_eq_some hrea
  obtain rfl : p = q := some.inj (hp.symm.trans hq)
  obtain ⟨hre, hh⟩ := BlockFiles.recordAt_of_readFromDisk hdi
  have hl : p.pprev = some b.hashPrevBlock := by
    obtain ⟨prev, link⟩ := hd.prevOf
    rw [Node.prevOf, hp] at link
    obtain ⟨b', hr', rfl⟩ := h.stored _ _ _ hp link
    rw [hre, some.injEq] at hr'
    rw [hr']
    exact link
  have ht := Node.setBestChain_sameTree env io h.keys b hp
  split
  · rename_i n' hse
    have hc' := hc.setBestChain hp hh hl hse
    rw [hse] at ht
    exact ⟨⟨⟨tip, hc', ht.grows.descends hb⟩, prevStored_sameTree h.stored ht⟩, ht.grows, .inl rfl⟩
  · rename_i n' hse
    have hc' := hc.setBestChain hp hh hl hse
    rw [hse] at ht
    exact hw ht hc' (.refl n' _) (ht.grows.descends hd.descends) _ rfl

variable (env io written) in
theorem process (h : SyncInv n c) (hash : Hash256) :
    SyncInv (c.process env io written n hash).2.1 (c.process env io written n hash).2.2 ∧
      Forward n (c.process env io written n hash).2.1 c (c.process env io written n hash).2.2 := by
  unfold SyncCheckpoints.process
  split
  · exact h.of_same rfl
  split
  · rename_i c' hv
    exact h.of_same (SyncCheckpoints.validate_false hv)
  · rename_i c' hv
    obtain ⟨rfl, hd⟩ := SyncCheckpoints.descends_of_validate h.linked hv
    exact h.move hd

variable (env io written) in
theorem acceptPending (h : SyncInv n c) :
    SyncInv (c.acceptPending env io written n).2.1 (c.acceptPending env io written n).2.2 ∧
      Forward n (c.acceptPending env io written n).2.1 c (c.acceptPending env io written n).2.2 := by
  unfold SyncCheckpoints.acceptPending
  split
  · split
    · rename_i c' hv
      have hs := SyncCheckpoints.validate_false hv
      exact h.of_same hs
    · rename_i c' hv
      obtain ⟨rfl, hd⟩ := SyncCheckpoints.descends_of_validate h.linked hv
      exact h.move hd
  · exact h.of_same rfl

/-! ## A new block -/

section
variable {rules : AcceptRules} {s s' : ChainMan} {b : CBlock} {ok : Bool}

theorem append (h : SyncInv n c) (hpo : 1 ≤ nFile.val) (b : CBlock) :
    SyncInv { n with files := n.files.append nFile b } c := by
  obtain ⟨tip, hc, hbe⟩ := h.chain
  refine ⟨⟨tip, ⟨⟨hc.linked.keys, hc.linked.closed⟩, hc.ranked, hc.genesis, hc.best, hc.hash,
    hc.indexed, hc.next⟩, hbe⟩, fun k p prev hp hpr => ?_⟩
  obtain ⟨b', hr, hb⟩ := h.stored k p prev hp hpr
  exact ⟨b', (BlockFiles.recordAt_append hpo b).2 hr, hb⟩

theorem enter (h : SyncInv n c) (hne : n.mapBlockIndex[p.phashBlock]? = none)
    (hp : n.mapBlockIndex[b.hashPrevBlock]? = some q) (hl : p.pprev = some b.hashPrevBlock)
    (hh : p.nHeight = q.nHeight + 1) (hn : p.pnext = none)
    (hre : n.files.recordAt p.nFile p.nBlockPos = some b) : SyncInv (n.enter p) c := by
  obtain ⟨tip, hc, hb⟩ := h.chain
  refine ⟨⟨tip, hc.enter hne hp hl hh hn, (Node.enter_grows hne).descends hb⟩,
    fun k r prev hr hrp => ?_⟩
  by_cases hk : k = p.phashBlock
  · subst hk
    rw [Node.getElem?_enter_self, some.injEq] at hr
    subst hr
    rw [hl, some.injEq] at hrp
    exact ⟨b, hre, hrp⟩
  · rw [Node.getElem?_enter_ne hk] at hr
    exact h.stored k r prev hr hrp

theorem addToBlockIndex (h : SyncInv s.node s.checkpoints) (hpr : s.node.mapBlockIndex[b.hashPrevBlock]? = some q)
    (hd : s.node.Descends b.hashPrevBlock s.checkpoints.hashSyncCheckpoint) {nFile : Fin uintMax}
    (hr : s.node.files.recordAt nFile nBlockPos = some b)
    (hru : s.addToBlockIndex env rules b nFile nBlockPos = (ok, s')) :
    SyncInv s'.node s'.checkpoints ∧ Forward s.node s'.node s.checkpoints s'.checkpoints := by
  rcases ChainMan.addToBlockIndex_cases env rules s b nFile nBlockPos with heq |
    ⟨hne, s1, p, written, db, hs1, hp, -, hca⟩
  · cases heq.symm.trans hru
    exact h.of_same rfl
  have hh : b.getHash env = p.phashBlock := by rw [hp]; rfl
  rw [hh] at hne
  have hne := getElem?_eq_none_of_contains_eq_false hne
  have hl : p.pprev = some b.hashPrevBlock := by
    rw [hp, ChainMan.newIndex, hpr]
    rfl
  have hhe : p.nHeight = q.nHeight + 1 := by
    rw [hp, ChainMan.newIndex, hpr]
    rfl
  have he : s1.node = s.node.enter p ∧ s1.checkpoints = s.checkpoints := by
    rw [hs1, hp]
    exact ⟨rfl, rfl⟩
  have hi : SyncInv (s.node.enter p) s.checkpoints :=
    h.enter hne hpr hl hhe (by rw [hp]; rfl) (by rw [hp]; exact hr)
  have hg : Node.Grows s.node (s.node.enter p) := Node.enter_grows hne
  rw [he.1] at hca
  have hse : ∀ ok, s.addToBlockIndex env rules b nFile nBlockPos = (ok, s1.setNode ((s.node.enter p).setTxdb db)) →
      SyncInv s'.node s'.checkpoints ∧ Forward s.node s'.node s.checkpoints s'.checkpoints := by
    intro ok' heq
    cases heq.symm.trans hru
    obtain ⟨tip, hc, hb⟩ := hi.chain
    change SyncInv ((s.node.enter p).setTxdb db) s1.checkpoints ∧
      Forward s.node ((s.node.enter p).setTxdb db) s.checkpoints s1.checkpoints
    rw [he.2]
    exact ⟨⟨⟨tip, hc.setTxdb db, hb⟩, hi.stored⟩, hg, .inl rfl⟩
  rcases hca with ⟨-, heq⟩ | ⟨-, -, heq⟩ | ⟨-, -, heq⟩
  · exact hse _ heq
  · cases heq.symm.trans hru
    have hen : ((s.node.enter p).setTxdb db).mapBlockIndex[p.phashBlock]? = some p := Node.getElem?_enter_self s.node p
    obtain ⟨tip, hc, hb⟩ := hi.chain
    have hc' := (hc.setTxdb db).setBestChain hen hh hl (Prod.eta (Node.setBestChain env rules.io _ b p)).symm
    have ht := Node.setBestChain_sameTree env rules.io (hc.setTxdb db).linked.keys b hen
    have hs : ((s.node.enter p).setTxdb db).PrevStored := hi.stored
    have hn : ((s.node.enter p).setTxdb db).Descends p.phashBlock s.checkpoints.hashSyncCheckpoint := by
      refine Node.Descends.trans ⟨[p.phashBlock], .cons ?_ .nil⟩ (hg.descends hd)
      rw [Node.prevOf, hen]
      exact hl
    change SyncInv (((s.node.enter p).setTxdb db).setBestChain env rules.io b p).2 s1.checkpoints ∧
      Forward s.node (((s.node.enter p).setTxdb db).setBestChain env rules.io b p).2 s.checkpoints s1.checkpoints
    rw [he.2]
    refine ⟨⟨⟨_, hc', ht.grows.descends ?_⟩, prevStored_sameTree hs ht⟩, hg.trans ht.grows, .inl rfl⟩
    split
    · exact hn
    · exact hb
  · exact hse _ heq

section
variable (hmain : env.fTestNet = false) (hno : rules.noSyncCheckpoints = false) (h : SyncInv s.node s.checkpoints)
include hmain hno h

theorem acceptBlock (hr : s.acceptBlock env rules b = some (ok, s')) :
    SyncInv s'.node s'.checkpoints ∧ Forward s.node s'.node s.checkpoints s'.checkpoints := by
  rcases ChainMan.acceptBlock_cases hr with ⟨-, rfl⟩ | ⟨q, nFile, hc, hp, ha, hfi, -, heq⟩
  · exact h.of_same rfl
  have hpo := BlockFiles.appendFile_pos hfi
  have hq : q.phashBlock = b.hashPrevBlock := h.keys hp
  have hn := getElem?_eq_none_of_contains_eq_false hc
  have hsy : s.checkpoints.checkSync env s.node (b.getHash env) q = some true := by
    have hch := allChecks_eq_true ha
      (c := (s.checkpoints.checkSync env s.node (b.getHash env) q).map (· || rules.noSyncCheckpoints))
    simpa [hno, ChainMan.earlyChecks] using hch
  have hd := SyncCheckpoints.descends_of_checkSync hmain h.linked (by rw [hq]; exact hp) hn hsy
  rw [hq] at hd
  have hs : SyncInv (s.stored nFile b).node (s.stored nFile b).checkpoints := h.append hpo b
  generalize had : (s.stored nFile b).addToBlockIndex env rules b nFile (s.node.files.fileEnd nFile + 8) = r at heq
  obtain ⟨ok', s1⟩ := r
  obtain ⟨hi, hf⟩ := hs.addToBlockIndex hp hd (BlockFiles.recordAt_append hpo b).1 had
  have hf : Forward s.node s1.node s.checkpoints s1.checkpoints := ⟨hf.tree, hf.checkpoint⟩
  split at heq
  · subst heq
    obtain ⟨hi', hf'⟩ := hi.acceptPending env rules.io rules.syncCheckpointWritten
    exact ⟨hi', hf.trans hf'⟩
  · subst heq
    exact ⟨hi, hf⟩

theorem processBlock (hr : s.processBlock env rules b = some (ok, s')) :
    SyncInv s'.node s'.checkpoints ∧ Forward s.node s'.node s.checkpoints s'.checkpoints := by
  refine ChainMan.processBlock_rule (R := fun s s' => SyncInv s.node s.checkpoints →
    SyncInv s'.node s'.checkpoints ∧ Forward s.node s'.node s.checkpoints s'.checkpoints) ?_ ?_ ?_ hr h
  · intro s s' ha h
    rw [ha.node, ha.checkpoints]
    exact h.of_same rfl
  · intro s s' s'' ho ht h
    obtain ⟨hi, hf⟩ := ho h
    obtain ⟨hi', hf'⟩ := ht hi
    exact ⟨hi', hf.trans hf'⟩
  · intro s s' b ok hac h
    exact h.acceptBlock hmain hno hac

end

end

end SyncInv

/-! ## The run -/

/-- What moves the tree and the checkpoint: a block, and a checkpoint message with a good signature. -/
inductive SyncStep (env : Env) (s : ChainMan) : ChainMan → Prop
  | block {s' : ChainMan} (rules : AcceptRules) (b : CBlock) (ok : Bool) (hno : rules.noSyncCheckpoints = false)
    (h : s.processBlock env rules b = some (ok, s')) : SyncStep env s s'
  | message (io : Hash256 → Bool) (written : Bool) (hashCheckpoint : Hash256) :
    SyncStep env s (s.processSyncCheckpoint env io written hashCheckpoint)

theorem SyncInv.step (hmain : env.fTestNet = false) (h : SyncInv s.node s.checkpoints) (hs : SyncStep env s s') :
    SyncInv s'.node s'.checkpoints ∧ Forward s.node s'.node s.checkpoints s'.checkpoints := by
  cases hs with
  | block rules b ok hno hr => exact h.processBlock hmain hno hr
  | message io written hash => exact h.process env io written hash

theorem SyncInv.run (hmain : env.fTestNet = false) (h0 : SyncInv s0.node s0.checkpoints)
    (hr : Relation.ReflTransGen (SyncStep env) s0 s) : SyncInv s.node s.checkpoints := by
  induction hr with
  | refl => exact h0
  | tail _ hs ih => exact (ih.step hmain hs).1

/-- **Synchronized checkpoints move forward and bind the best chain.** On mainnet, in every state that checkpoint
messages and blocks lead to, the best block is the checkpoint or a descendant of it, and whatever comes next leaves the
checkpoint or moves it to a descendant. -/
theorem best_descends_from_checkpoint (env : Env) (hmain : env.fTestNet = false) (s₀ s : ChainMan)
    (h₀ : SyncInv s₀.node s₀.checkpoints) (hrun : Relation.ReflTransGen (SyncStep env) s₀ s) :
    (∃ tip, s.node.pindexBest = some tip ∧ s.node.Descends tip s.checkpoints.hashSyncCheckpoint) ∧
      ∀ s', SyncStep env s s' → s'.checkpoints.hashSyncCheckpoint = s.checkpoints.hashSyncCheckpoint ∨
        s'.node.StrictlyDescends s'.checkpoints.hashSyncCheckpoint s.checkpoints.hashSyncCheckpoint := by
  have hinv := h₀.run hmain hrun
  obtain ⟨tip, hc, hd⟩ := hinv.chain
  exact ⟨⟨tip, hc.best, hd⟩, fun s' hs => (hinv.step hmain hs).2.checkpoint⟩

/-! ### The first block becomes the checkpoint -/

namespace Sample

theorem startMan_syncInv : SyncInv startMan.node startMan.checkpoints := by
  have hpr : ∀ h, startMan.node.prevOf h = none := by
    intro h
    refine bind_eq_none_iff.mpr fun p hp => ?_
    obtain ⟨-, rfl⟩ := startMan_entry hp
    rfl
  have hn : ∀ h, startMan.node.nextOf h = none := by
    intro h
    refine bind_eq_none_iff.mpr fun p hp => ?_
    obtain ⟨-, rfl⟩ := startMan_entry hp
    rfl
  refine ⟨⟨1, ⟨⟨fun hp => ?_, fun h => ?_⟩,
    fun a b h => ?_, by decide, rfl, rfl, by decide, fun j k h => ?_⟩, .refl _ _⟩,
    fun h p prev hp hl => ?_⟩
  · obtain ⟨rfl, rfl⟩ := startMan_entry hp
    rfl
  · rw [hpr] at h
    cases h
  · rw [hpr] at h
    cases h
  · rw [hn] at h
    cases h
  · obtain ⟨-, rfl⟩ := startMan_entry hp
    cases hl

noncomputable def checkpointed : ChainMan :=
  (after startMan firstBlock).processSyncCheckpoint forkEnv (fun _ => true) true 2

end Sample

open Sample in
theorem best_descends_from_checkpoint_first : checkpointed.checkpoints.hashSyncCheckpoint = 2 ∧
      (∃ tip, checkpointed.node.pindexBest = some tip ∧
        checkpointed.node.Descends tip checkpointed.checkpoints.hashSyncCheckpoint) ∧
      ∀ s', SyncStep forkEnv checkpointed s' →
        s'.checkpoints.hashSyncCheckpoint = checkpointed.checkpoints.hashSyncCheckpoint ∨
          s'.node.StrictlyDescends s'.checkpoints.hashSyncCheckpoint checkpointed.checkpoints.hashSyncCheckpoint := by
  have hf : SyncStep forkEnv startMan (after startMan firstBlock) := by
    obtain ⟨ok, hrun⟩ := processBlock_firstBlock
    exact .block rules firstBlock ok rfl hrun
  exact ⟨by decide, best_descends_from_checkpoint forkEnv (by decide) startMan checkpointed startMan_syncInv
    (.tail (.single hf) (.message _ _ _))⟩

end CloakCoin.Chain
