import CloakCoin.Chain.Links

/-!
# The bodies behind `mapBlockIndex`

`ProcessBlock` calls `CheckBlock` without the proof-of-work and merkle checks, and `AddToBlockIndex` enters a block
before `ConnectBlock` makes them. So the index is sound for blocks that satisfy them from the start.
-/

namespace CloakCoin.Chain

open Lib Wallet
open Std (ExtTreeMap)
open List Option Std.ExtTreeMap

variable {p : CBlockIndex} {s : ChainMan} {ok : Bool}

/-! ## Sound bodies -/

structure CBlock.Sound (env : Env) (b : CBlock) : Prop where
  root : b.hashMerkleRoot = b.buildMerkleTree env
  work : b.isProofOfWork = true → checkProofOfWork env (b.getHash env) b.nBits = true

/-- The block file has a sound block where the entry says. -/
def Node.Stored (env : Env) (n : Node) (h : Hash256) (p : CBlockIndex) : Prop :=
  ∃ b, n.files.recordAt p.nFile p.nBlockPos = some b ∧ b.getHash env = h ∧ b.Sound env

theorem Node.SameTree.stored (h : Node.SameTree n n')
    (hs : q.shape = p.shape) (hq : n.Stored env k q) : n'.Stored env k p := by
  obtain ⟨b, hr, hb⟩ := hq
  exact ⟨b, (h.recordAt hs).trans hr, hb⟩

structure BodyInv (env : Env) (s : ChainMan) : Prop where
  keys : Node.HashKeys s.node
  bodies : ∀ {h : Hash256} {p : CBlockIndex}, s.node.mapBlockIndex[h]? = some p → h ≠ env.hashGenesisBlock →
    s.node.Stored env h p
  orphans : ∀ e ∈ s.mapOrphanBlocksByPrev, e.2.Sound env

namespace BodyInv

variable {rules : AcceptRules}

theorem sameTree (hinv : BodyInv env s) (ht : Node.SameTree s.node n) (c : SyncCheckpoints) :
    BodyInv env { s with node := n, checkpoints := c } where
  keys := ht.hashKeys hinv.keys
  bodies {h p} hp hne := by
    obtain ⟨q, hq, hqp⟩ := exists_of_map_eq (ht.blocks h) hp
    exact ht.stored hqp (hinv.bodies hq hne)
  orphans := hinv.orphans

theorem append (hinv : BodyInv env s) (hpo : 1 ≤ nFile.val) (b : CBlock) : BodyInv env (s.stored nFile b) where
  keys := hinv.keys
  bodies hp hne := by
    obtain ⟨b', hr, hb⟩ := hinv.bodies hp hne
    exact ⟨b', (BlockFiles.recordAt_append hpo b).2 hr, hb⟩
  orphans := hinv.orphans

theorem insertIndex (hinv : BodyInv env s) (hp : s.node.Stored env p.phashBlock p) : BodyInv env (s.insertIndex p) where
  keys := Node.HashKeys.enter hinv.keys p
  bodies {h q} hq hne := by
    change (s.node.enter p).mapBlockIndex[h]? = some q at hq
    by_cases hh : h = p.phashBlock
    · subst hh
      rw [Node.getElem?_enter_self, some.injEq] at hq
      exact hq ▸ hp
    · rw [Node.getElem?_enter_ne hh] at hq
      exact hinv.bodies hq hne
  orphans := hinv.orphans

variable {b : CBlock} {s' : ChainMan}

section
variable (hinv : BodyInv env s)
include hinv

theorem addToBlockIndex (hb : b.Sound env) {nFile : Fin uintMax} (hr : s.node.files.recordAt nFile nBlockPos = some b) :
    BodyInv env (s.addToBlockIndex env rules b nFile nBlockPos).2 := by
  have hi : BodyInv env (s.entered env rules b nFile nBlockPos) := hinv.insertIndex ⟨b, hr, rfl, hb⟩
  have he : (s.entered env rules b nFile nBlockPos).node.mapBlockIndex[
      (s.newIndex env rules b nFile nBlockPos).phashBlock]? = some (s.newIndex env rules b nFile nBlockPos) :=
    getElem?_insert_self
  rcases ChainMan.addToBlockIndex_cases env rules s b nFile nBlockPos with heq | ⟨-, s1, p, ok, db, hs1, hp, -, hc⟩
  · rw [heq]
    exact hinv
  rw [← hs1] at hi he
  rw [← hp] at he
  have hs : Node.SameTree s1.node (s1.node.setTxdb db) := ⟨rfl, fun _ => rfl⟩
  rcases hc with ⟨-, heq⟩ | ⟨-, -, heq⟩ | ⟨-, -, heq⟩
  · rw [heq]
    exact hi.sameTree hs s1.checkpoints
  · rw [heq]
    exact hi.sameTree (hs.trans (Node.setBestChain_sameTree env rules.io (hs.hashKeys hi.keys) b he)) s1.checkpoints
  · rw [heq]
    exact hi.sameTree hs s1.checkpoints

theorem acceptBlock (hb : b.Sound env) (h : s.acceptBlock env rules b = some (ok, s')) : BodyInv env s' := by
  rcases ChainMan.acceptBlock_cases h with ⟨-, rfl⟩ | ⟨-, nFile, -, -, -, hf, -, rfl⟩
  · exact hinv
  have hp := BlockFiles.appendFile_pos hf
  have ha : BodyInv env ((s.stored nFile b).addToBlockIndex env rules b nFile (s.node.files.fileEnd nFile + 8)).2 :=
    (hinv.append hp b).addToBlockIndex hb (BlockFiles.recordAt_append hp b).1
  split
  · obtain ⟨n, c, heq, ht⟩ := ChainMan.acceptPendingSyncCheckpoint_eq env rules
      ((s.stored nFile b).addToBlockIndex env rules b nFile (s.node.files.fileEnd nFile + 8)).2
    rw [heq]
    exact ha.sameTree (ht ha.keys) c
  · exact ha

theorem acceptOrphans (hbs : ∀ b ∈ bs, b.Sound env)
    (h : ChainMan.acceptOrphans env rules bs s = some (accepted, s')) : BodyInv env s' := by
  induction bs generalizing s accepted with
  | nil =>
    cases h
    exact hinv
  | cons b bs ih =>
    rw [forall_mem_cons] at hbs
    unfold ChainMan.acceptOrphans at h
    split at h
    · cases h
    rename_i s1 ho
    split at h
    · cases h
    rename_i hr
    cases h
    have ho' := hinv.acceptBlock hbs.1 ho
    exact ih (s := s1.forgetOrphan env b) ⟨ho'.keys, ho'.bodies, ho'.orphans⟩ hbs.2 hr

theorem resolveOrphans (h : ChainMan.resolveOrphans env rules fuel queue s = some s') : BodyInv env s' := by
  induction fuel generalizing queue s with
  | zero =>
    cases h
    exact hinv
  | succ fuel ih =>
    cases queue with
    | nil =>
      cases h
      exact hinv
    | cons hashPrev queue =>
      unfold ChainMan.resolveOrphans at h
      split at h
      · cases h
      rename_i s1 ho
      have hw : ∀ b ∈ s.waitingFor hashPrev, b.Sound env := by
        intro b hb
        obtain ⟨e, he, rfl⟩ := mem_map.mp hb
        exact hinv.orphans e (mem_of_mem_filter he)
      have ho' := hinv.acceptOrphans hw ho
      exact ih (s := s1.dropWaiting hashPrev)
        ⟨ho'.keys, ho'.bodies, fun e he => ho'.orphans e (mem_of_mem_filter he)⟩ h

theorem processBlock (hb : b.checkBlock env false false = true → b.Sound env)
    (h : s.processBlock env rules b = some (ok, s')) : BodyInv env s' := by
  unfold ChainMan.processBlock at h
  dsimp only at h
  split at h
  · cases h
    exact hinv
  split at h
  · cases h
    exact hinv
  split at h
  · cases h
    exact hinv
  split at h
  · cases h
    exact hinv
  rename_i hc
  have hs : b.Sound env := hb (by simpa using hc)
  split at h
  · cases h
    exact hinv
  rename_i s1 hst
  have hi1 : BodyInv env s1 := by
    obtain ⟨proofs, rfl⟩ := ChainMan.checkStake_eq hst
    exact ⟨hinv.keys, hinv.bodies, hinv.orphans⟩
  split at h
  · cases h
    exact hi1
  split at h
  · obtain rfl : (s1.holdOrphan env b).2 = s' := congrArg Prod.snd (some.inj h)
    unfold ChainMan.holdOrphan
    split
    · exact hi1
    refine ⟨hi1.keys, hi1.bodies, fun e he => ?_⟩
    rcases mem_append.mp he with he | he
    · exact hi1.orphans e he
    · obtain rfl := mem_singleton.mp he
      exact hs
  split at h
  · cases h
  · rename_i ho
    cases h
    exact hi1.acceptBlock hs ho
  · rename_i s2 ho
    obtain ⟨s3, hr, heq⟩ := map_eq_some_iff.mp h
    cases heq
    exact (hi1.acceptBlock hs ho).resolveOrphans hr

end

end BodyInv

/-! ## The run -/

/-- Only the genesis block is indexed and no block is held. -/
structure ChainMan.AtStart (env : Env) (s : ChainMan) : Prop where
  genesis : ∀ {h : Hash256} {p : CBlockIndex}, s.node.mapBlockIndex[h]? = some p →
    h = env.hashGenesisBlock ∧ p.phashBlock = h
  orphans : s.mapOrphanBlocksByPrev = []

/-- A `ProcessBlock` where `CheckBlock` lets only sound blocks pass. -/
def SoundStep (env : Env) (s s' : ChainMan) : Prop :=
  ∃ rules b ok, (b.checkBlock env false false = true → b.Sound env) ∧ s.processBlock env rules b = some (ok, s')

theorem BodyInv.run (h0 : s0.AtStart env) (hr : Relation.ReflTransGen (SoundStep env) s0 s) : BodyInv env s := by
  induction hr with
  | refl =>
    refine ⟨fun hp => (h0.genesis hp).2, fun hp hne => absurd (h0.genesis hp).1 hne, ?_⟩
    rw [h0.orphans]
    exact fun e he => nomatch he
  | tail _ hs ih =>
    obtain ⟨rules, b, ok, hb, h⟩ := hs
    exact ih.processBlock hb h

/-- **Every indexed block has the body its header commits to**, and a block refused because its hash is indexed has
the merkle root of the stored body, in every run of blocks with sound bodies. -/
theorem indexed_bodies_match (env : Env) (hinj : Function.Injective env.blockHash) (s₀ s : ChainMan)
    (h₀ : s₀.AtStart env) (hrun : Relation.ReflTransGen (SoundStep env) s₀ s) :
    (∀ h p, s.node.mapBlockIndex[h]? = some p → h ≠ env.hashGenesisBlock → s.node.Stored env h p) ∧
      ∀ b : CBlock, b.getHash env ≠ env.hashGenesisBlock → s.node.mapBlockIndex.contains (b.getHash env) = true →
        ∃ p b', s.node.mapBlockIndex[b.getHash env]? = some p ∧ s.node.files.recordAt p.nFile p.nBlockPos = some b' ∧
          b'.toCBlockHeader = b.toCBlockHeader ∧ b'.buildMerkleTree env = b.hashMerkleRoot := by
  have hinv := BodyInv.run h₀ hrun
  refine ⟨fun h p hp hne => hinv.bodies hp hne, fun b hne hmem => ?_⟩
  rw [contains_eq_isSome_getElem?] at hmem
  obtain ⟨p, hp⟩ := isSome_iff_exists.mp hmem
  obtain ⟨b', hr, hha, hs⟩ := hinv.bodies hp hne
  have hh : b'.toCBlockHeader = b.toCBlockHeader := hinj hha
  refine ⟨p, b', hp, hr, hh, ?_⟩
  rw [← hs.root]
  exact congrArg CBlockHeader.hashMerkleRoot hh

/-! ### A mutated copy of the first block -/

namespace Sample

def rules : AcceptRules where
  nextTargetRequired _ _ _ := easyBits
  checkHardened _ _ := true
  noSyncCheckpoints := false
  tooLittleProof _ _ := false
  checkProofOfStake _ _ _ := none
  stakeFields _ _ := some ⟨false, 0, false⟩
  adjustedTime := 10000
  diskOk := true
  io _ := true
  syncCheckpointWritten := true

def startFiles : BlockFiles := ⟨[⟨1, 8, genesisBlock⟩], 1, by decide⟩

def startMan : ChainMan where
  node := node startFiles ((∅ : BlockMap).insert 1 genesisEntry) (fun _ => none) 1 0 []
  mapOrphanBlocks := ∅
  mapOrphanBlocksByPrev := []
  setStakeSeen := ∅
  setStakeSeenOrphan := ∅
  mapProofOfStake := ∅
  checkpoints := ⟨1, 0, 0⟩

theorem startMan_entry (hp : startMan.node.mapBlockIndex[h]? = some p) : h = 1 ∧ p = genesisEntry := by
  change ((∅ : BlockMap).insert 1 genesisEntry)[h]? = some p at hp
  simp only [ExtTreeMap.getElem?_insert, Nat.compare_eq_eq] at hp
  split_ifs at hp with h1
  · exact ⟨h1.symm, by simpa using hp.symm⟩
  · simp at hp

theorem startMan_atStart : startMan.AtStart forkEnv where
  genesis {h p} hp := by
    obtain ⟨rfl, rfl⟩ := startMan_entry hp
    exact ⟨rfl, rfl⟩
  orphans := rfl

def mutatedBlock : CBlock := { firstBlock with vtx := [coinbase 1 (coin / 2)] }

noncomputable def after (s : ChainMan) (b : CBlock) : ChainMan := ((s.processBlock forkEnv rules b).map Prod.snd).getD s

theorem processBlock_firstBlock :
    ∃ ok, startMan.processBlock forkEnv rules firstBlock = some (ok, after startMan firstBlock) := by
  obtain ⟨⟨ok, s⟩, hs⟩ := isSome_iff_exists.mp
    (show (startMan.processBlock forkEnv rules firstBlock).isSome = true by decide)
  refine ⟨ok, ?_⟩
  rw [after, hs]
  rfl

theorem firstBlock_sound : firstBlock.Sound forkEnv := ⟨by decide, fun _ => by decide⟩

end Sample

open Sample in
theorem indexed_bodies_match_first : ∃ p, (after startMan firstBlock).node.mapBlockIndex[(2 : Hash256)]? = some p ∧
      (after startMan firstBlock).node.Stored forkEnv 2 p := by
  have hs : SoundStep forkEnv startMan (after startMan firstBlock) := by
    obtain ⟨ok, hrun⟩ := processBlock_firstBlock
    exact ⟨rules, firstBlock, ok, fun _ => firstBlock_sound, hrun⟩
  obtain ⟨p, hp⟩ := isSome_iff_exists.mp
    (show ((after startMan firstBlock).node.mapBlockIndex[(2 : Hash256)]?).isSome = true by decide)
  exact ⟨p, hp, (indexed_bodies_match forkEnv (blockHash_injective _ _) startMan (after startMan firstBlock)
    startMan_atStart (.single hs)).1 2 p hp (by decide)⟩

open Sample in
/-- The mutated copy is indexed, and the genuine block refused. -/
theorem mutated_copy_indexed : (startMan.processBlock forkEnv rules firstBlock).map Prod.fst = some true ∧
      mutatedBlock.toCBlockHeader = firstBlock.toCBlockHeader ∧
      mutatedBlock.hashMerkleRoot ≠ mutatedBlock.buildMerkleTree forkEnv ∧
      ((after startMan mutatedBlock).node.mapBlockIndex[(2 : Hash256)]?).bind
        (fun p => (after startMan mutatedBlock).node.files.recordAt p.nFile p.nBlockPos) = some mutatedBlock ∧
      ((after startMan mutatedBlock).processBlock forkEnv rules firstBlock).map Prod.fst = some false ∧
      (after (after startMan mutatedBlock) firstBlock).node.pindexBest = some 1 :=
  ⟨by decide, rfl, by decide, by decide, by decide, by decide⟩

/-! ## Nothing is forgotten -/

/-- The blocks of `n`, up to links and supplies, and its records. -/
structure Node.Keeps (n n' : Node) : Prop where
  keys : HashKeys n'
  blocks : ∀ {k : Hash256} {p : CBlockIndex}, n.mapBlockIndex[k]? = some p →
    ∃ q, n'.mapBlockIndex[k]? = some q ∧ q.shape = p.shape
  records : ∀ {f pos : Nat} {b : CBlock}, n.files.recordAt f pos = some b → n'.files.recordAt f pos = some b

theorem Node.Keeps.trans {n n' n'' : Node} (h : n.Keeps n') (h' : n'.Keeps n'') : n.Keeps n'' where
  keys := h'.keys
  blocks hp := by
    obtain ⟨q, hq, hqp⟩ := h.blocks hp
    obtain ⟨r, hr, hrq⟩ := h'.blocks hq
    exact ⟨r, hr, hrq.trans hqp⟩
  records hr := h'.records (h.records hr)

theorem Node.SameTree.keeps {n n' : Node} (h : n.SameTree n') (hk : n.HashKeys) : n.Keeps n' :=
  ⟨h.hashKeys hk, fun {k} => exists_of_map_eq (h.blocks k).symm, fun hr => h.files ▸ hr⟩

section
variable {s s' : ChainMan} {env : Env} {rules : AcceptRules} {b : CBlock} (hk : s.node.HashKeys)
include hk

theorem ChainMan.addToBlockIndex_keeps : s.node.Keeps (s.addToBlockIndex env rules b nFile pos).2.node := by
  rcases addToBlockIndex_cases env rules s b nFile pos with heq | ⟨hn, s1, p, ok, db, hs1, hp, -, hc⟩
  · rw [heq]
    exact (Node.SameTree.refl _).keeps hk
  have he : s1.node.mapBlockIndex[p.phashBlock]? = some p := hs1 ▸ hp ▸ getElem?_insert_self
  have hi : s.node.Keeps s1.node := by
    subst hs1
    refine ⟨Node.HashKeys.enter hk _, fun {k q} hq => ⟨q, (Node.getElem?_enter_ne ?_).trans hq, rfl⟩, id⟩
    -- the hash is new
    rintro rfl
    rw [contains_eq_isSome_getElem?] at hn
    exact Bool.false_ne_true (hn.symm.trans (congrArg isSome hq))
  have hs : s1.node.SameTree (s1.node.setTxdb db) := ⟨rfl, fun _ => rfl⟩
  refine hi.trans (Node.SameTree.keeps ?_ hi.keys)
  rcases hc with ⟨-, heq⟩ | ⟨-, -, heq⟩ | ⟨-, -, heq⟩ <;> rw [heq]
  · exact hs
  · exact hs.trans (Node.setBestChain_sameTree env rules.io (hs.hashKeys hi.keys) b he)
  · exact hs

theorem ChainMan.acceptBlock_keeps (h : s.acceptBlock env rules b = some (ok, s')) : s.node.Keeps s'.node := by
  rcases acceptBlock_cases h with ⟨-, rfl⟩ | ⟨-, nFile, -, -, -, hf, -, rfl⟩
  · exact (Node.SameTree.refl _).keeps hk
  have hst : s.node.Keeps (s.stored nFile b).node :=
    ⟨hk, fun hp => ⟨_, hp, rfl⟩, (BlockFiles.recordAt_append (BlockFiles.appendFile_pos hf) b).2⟩
  generalize hr : (s.stored nFile b).addToBlockIndex env rules b nFile (s.node.files.fileEnd nFile + 8) = r
  have ha : s.node.Keeps r.2.node := hst.trans (hr ▸ addToBlockIndex_keeps hst.keys)
  split
  · obtain ⟨n, c, heq, ht⟩ := acceptPendingSyncCheckpoint_eq env rules r.2
    rw [heq]
    exact ha.trans ((ht ha.keys).keeps ha.keys)
  · exact ha

/-- Over any blocks handed to `ProcessBlock`, the index and the block files only grow. -/
theorem ChainMan.run_keeps (h : Relation.ReflTransGen
    (fun s s' => ∃ rules b ok, s.processBlock env rules b = some (ok, s')) s s') : s.node.Keeps s'.node := by
  induction h with
  | refl => exact (Node.SameTree.refl _).keeps hk
  | tail _ hs ih =>
    obtain ⟨rules, b, ok, hr⟩ := hs
    refine ih.trans (processBlock_rule (R := fun s s' => s.node.HashKeys → s.node.Keeps s'.node) ?_ ?_ ?_ hr ih.keys)
    · exact fun ha hk => (Node.SameTree.mk (ha.node ▸ rfl) fun _ => ha.node ▸ rfl).keeps hk
    · exact fun h h' hk => (h hk).trans (h' (h hk).keys)
    · exact fun ha hk => acceptBlock_keeps hk ha

end

open Sample in
theorem ChainMan.run_keeps_first : startMan.node.Keeps (after startMan firstBlock).node :=
  run_keeps (fun hp => (startMan_atStart.genesis hp).2) (.single ⟨rules, firstBlock, processBlock_firstBlock⟩)

/-! ## Whether the outcome is defined -/

theorem allChecks_append (l l' : List (Option Bool)) :
    allChecks (l ++ l') = if allChecks l = some true then allChecks l' else allChecks l := by
  induction l with
  | nil => rfl
  | cons c l ih => rcases c with _ | _ | _ <;> [rfl; rfl; exact ih]

theorem allChecks_isSome {l : List (Option Bool)} (h : ∀ c ∈ l, c.isSome = true) : (allChecks l).isSome = true := by
  induction l with
  | nil => rfl
  | cons c l ih =>
    obtain ⟨hc, hl⟩ := forall_mem_cons.mp h
    rcases c with _ | _ | _
    · cases hc
    · rfl
    · exact ih hl

theorem equalBytes_eq_none {expect bytes : List UInt8} :
    equalBytes expect bytes = none ↔ bytes <+: expect ∧ bytes ≠ expect := by
  fun_induction equalBytes expect bytes with
  | case1 bytes => simp
  | case2 => simp
  | case3 e expect bytes ih => simpa [cons_prefix_cons] using ih
  | case4 e expect b bytes hne => simp [cons_prefix_cons, Ne.symm hne]

theorem equalBytes_eq_true {expect bytes : List UInt8} : equalBytes expect bytes = some true ↔ expect <+: bytes := by
  fun_induction equalBytes expect bytes with
  | case1 => simp
  | case2 => simp
  | case3 e expect bytes ih => simpa [cons_prefix_cons] using ih
  | case4 e expect b bytes hne => simp [cons_prefix_cons, hne]

theorem CBlock.BasicChecks.coinbaseIn {b : CBlock} (h : b.BasicChecks env) :
    ∃ tx0 rest txin, b.vtx = tx0 :: rest ∧ b.coinbaseIn = some txin := by
  obtain ⟨tx0, rest, hv, h0, -⟩ := h.coinbase_first
  unfold CTransaction.isCoinBase at h0
  split at h0
  · rename_i txin hvi
    exact ⟨tx0, rest, txin, hv, by simp [CBlock.coinbaseIn, hv, hvi]⟩
  · cases h0

/-- What a block that gets past the first checks needs for a defined outcome: its coinbase script is not a proper prefix
of the serialized height, and with the right height it is of an old version or has a second transaction. -/
def ChainMan.Readable (env : Env) (rules : AcceptRules) (s : ChainMan) (pindexPrev : CBlockIndex) (b : CBlock) : Prop :=
  s.node.mapBlockIndex.contains (b.getHash env) = false →
    allChecks (earlyChecks env rules s.node s.checkpoints pindexPrev b) = some true → ∀ txin ∈ b.coinbaseIn,
      ¬(txin.scriptSig <+: scriptInt (pindexPrev.nHeight + 1) ∧ txin.scriptSig ≠ scriptInt (pindexPrev.nHeight + 1)) ∧
        (scriptInt (pindexPrev.nHeight + 1) <+: txin.scriptSig → b.nVersion ≤ 5 ∨ 2 ≤ b.vtx.length)

theorem ChainMan.properStake_isSome (env : Env) (n : Node) (pindexPrev : CBlockIndex) {b : CBlock} :
    (properStake env n pindexPrev b).isSome = true ↔ b.nVersion ≤ 5 ∨ 2 ≤ b.vtx.length := by
  unfold properStake
  split
  · rename_i hv
    exact iff_of_true rfl (.inl hv)
  rename_i hv
  rw [or_iff_right hv]
  split
  · rename_i hn
    rw [getElem?_eq_none_iff] at hn
    simp only [isSome_none, Bool.false_eq_true, false_iff]
    omega
  · rename_i tx1 hs
    obtain ⟨hl, -⟩ := List.getElem?_eq_some_iff.mp hs
    refine iff_of_true ?_ hl
    dsimp only
    split_ifs <;> rfl

theorem ChainMan.earlyChecks_isSome (env : Env) (rules : AcceptRules) {s : ChainMan} {b : CBlock} (hb : b.vtx ≠ [])
    (hs : (s.node.mapBlockIndex[s.checkpoints.hashSyncCheckpoint]?).isSome = true) (pindexPrev : CBlockIndex) :
    (allChecks (earlyChecks env rules s.node s.checkpoints pindexPrev b)).isSome = true := by
  obtain ⟨tx0, rest, hv⟩ := exists_cons_of_ne_nil hb
  have hsync : (s.checkpoints.checkSync env s.node (b.getHash env) pindexPrev).isSome = true := by
    obtain ⟨pindexSync, hp⟩ := isSome_iff_exists.mp hs
    unfold SyncCheckpoints.checkSync
    rw [hp]
    dsimp only
    split_ifs
    · rfl
    · split <;> rfl
    all_goals rfl
  apply allChecks_isSome
  simp [earlyChecks, hv, hsync]

/-- **The outcome of `AcceptBlock` is defined** for a block that passed `CheckBlock` exactly if the block is `Readable`,
and a block that is accepted starts with its height. -/
theorem acceptBlock_defined_iff (env : Env) (rules : AcceptRules) (s : ChainMan) (b : CBlock) (pow root : Bool)
    (hcheck : b.checkBlock env pow root = true) (pindexPrev : CBlockIndex)
    (hprev : s.node.mapBlockIndex[b.hashPrevBlock]? = some pindexPrev) :
    (∀ s', s.acceptBlock env rules b = some (true, s') → b.startsWithHeight (pindexPrev.nHeight + 1)) ∧
      ((s.node.mapBlockIndex[s.checkpoints.hashSyncCheckpoint]?).isSome = true →
        ((s.acceptBlock env rules b).isSome = true ↔ s.Readable env rules pindexPrev b)) := by
  obtain ⟨tx0, rest, txin, hv, hin⟩ := (CBlock.checkBlock_spec hcheck).1.coinbaseIn
  constructor
  · intro s' hrun
    rcases ChainMan.acceptBlock_cases hrun with ⟨hf, -⟩ | ⟨q, nFile, -, hq, hok, -⟩
    · cases hf
    obtain rfl : pindexPrev = q := some.inj (hprev.symm.trans hq)
    have hh : b.coinbaseIn.bind (fun txin => equalBytes (scriptInt (pindexPrev.nHeight + 1)) txin.scriptSig) =
        some true := allChecks_eq_true hok (by simp)
    intro tx rest' hv' txin' hin'
    have hin' : b.coinbaseIn = some txin' := by simpa [CBlock.coinbaseIn, hv'] using hin'
    rw [hin'] at hh
    exact equalBytes_eq_true.mp hh
  · intro hs
    have hd : (s.acceptBlock env rules b).isSome = true ↔ (s.node.mapBlockIndex.contains (b.getHash env) = false →
        (ChainMan.acceptable env rules s.node s.checkpoints pindexPrev b).isSome = true) := by
      unfold ChainMan.acceptBlock
      rw [hprev]
      dsimp only
      cases s.node.mapBlockIndex.contains (b.getHash env) with
      | true => simp
      | false =>
        rcases ChainMan.acceptable env rules s.node s.checkpoints pindexPrev b with _ | _ | _
        · simp
        · simp
        · simp only [Bool.false_eq_true, if_false]
          split
          · simp
          · split <;> simp
    rw [hd, ChainMan.Readable]
    refine forall_congr' fun _ => ?_
    have he := ChainMan.earlyChecks_isSome env rules (b := b) (by simp [hv]) hs pindexPrev
    rw [ChainMan.acceptable, allChecks_append, hin, Option.bind_some]
    split
    · rename_i hok
      simp only [hok, forall_const, mem_some_iff, forall_eq']
      rw [← equalBytes_eq_none, ← equalBytes_eq_true,
        ← ChainMan.properStake_isSome env s.node pindexPrev]
      rcases equalBytes (scriptInt (pindexPrev.nHeight + 1)) txin.scriptSig with _ | _ | _
      · simp [allChecks]
      · simp [allChecks]
      · rcases ChainMan.properStake env s.node pindexPrev b with _ | _ | _
        · simp [allChecks]
        · simp [allChecks]
        · refine iff_of_true (allChecks_isSome ?_) ?_ <;> simp
    · rename_i hok
      simp [he, hok]

open Sample in
theorem acceptBlock_defined_first :
    firstBlock.checkBlock forkEnv true true = true ∧ (startMan.acceptBlock forkEnv rules firstBlock).isSome = true := by
  refine ⟨by decide, ((acceptBlock_defined_iff forkEnv rules startMan firstBlock true true
    (by decide) genesisEntry rfl).2
    rfl).mpr fun _ _ txin hin => ?_⟩
  obtain rfl := some.inj (show some (⟨.null, _, _⟩ : CTxIn) = some txin from hin)
  exact ⟨by decide, fun _ => .inl (by decide)⟩

namespace Sample

/-- A coinbase script of two bytes, as short as `CheckTransaction` allows. -/
def shortCoinbase : CTransaction := { coinbase 1 coin with vin := [{ prevout := .null, scriptSig := [2, 0x80] }] }

def shortBlock : CBlock := block 1 1 1 [shortCoinbase]

/-- A proof-of-work block of a later version. -/
def soloBlock : CBlock := { block 1 2 1 [coinbase 1 coin] with nVersion := 6 }

noncomputable def oddEnv : Env :=
  env [shortCoinbase, coinbase 1 coin] [genesisBlock.toCBlockHeader, shortBlock.toCBlockHeader,
    soloBlock.toCBlockHeader]

def tallMan : ChainMan :=
  { startMan with
    node := { startMan.node with mapBlockIndex := (∅ : BlockMap).insert 1 { genesisEntry with nHeight := 127 } } }

end Sample

open Sample in
/-- A second transaction is looked at that is not there, and a coinbase script is read past its end. -/
theorem acceptance_undefined : soloBlock.checkBlock oddEnv true true = true ∧ soloBlock.vtx.length = 1 ∧
      startMan.acceptBlock oddEnv rules soloBlock = none ∧
      shortBlock.checkBlock oddEnv true true = true ∧ scriptInt 128 = [2, 0x80, 0] ∧
      tallMan.acceptBlock oddEnv rules shortBlock = none := by
  decide

end CloakCoin.Chain
