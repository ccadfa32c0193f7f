import CloakCoin.Chain.Bodies

/-!
# The bookkeeping of orphan blocks

`ProcessBlock` keeps blocks without previous block in three containers and empties them by a work queue. An orphan
takes its stake out of `setStakeSeenOrphan` also if another one has it, and the orphans of a block that is indexed but
refused stay.
-/

namespace CloakCoin.Chain

open Lib Wallet
open Std (ExtTreeMap)
open List Option Std.ExtTreeMap

variable {b : CBlock} {s : ChainMan} {ok : Bool} {blocks : List CBlock} {queue : List Hash256}

namespace ChainMan

variable {env : Env} {rules : AcceptRules} {s s' : ChainMan} {b : CBlock}

structure Framed (env : Env) (b : CBlock) (s s' : ChainMan) : Prop where
  blocks : s'.mapOrphanBlocks = s.mapOrphanBlocks
  byPrev : s'.mapOrphanBlocksByPrev = s.mapOrphanBlocksByPrev
  stakes : s'.setStakeSeenOrphan = s.setStakeSeenOrphan
  keys : Node.HashKeys s'.node
  others : ∀ k, k ≠ b.getHash env → s'.node.mapBlockIndex.contains k = s.node.mapBlockIndex.contains k

theorem contains_of_sameTree (h : Node.SameTree n n') (k : Hash256) :
    n'.mapBlockIndex.contains k = n.mapBlockIndex.contains k := by
  rw [contains_eq_isSome_getElem?, contains_eq_isSome_getElem?,
    ← isSome_map (f := CBlockIndex.shape), h.blocks, isSome_map]

theorem Framed.refl (hk : Node.HashKeys s.node) : Framed env b s s := ⟨rfl, rfl, rfl, hk, fun _ _ => rfl⟩

theorem Framed.sameTree (h : Framed env b s s') (ht : Node.SameTree s'.node n) (c : SyncCheckpoints) :
    Framed env b s { s' with node := n, checkpoints := c } where
  blocks := h.blocks
  byPrev := h.byPrev
  stakes := h.stakes
  keys := ht.hashKeys h.keys
  others k hk := (contains_of_sameTree ht k).trans (h.others k hk)

variable (env rules b) in
theorem entered_frame (hke : Node.HashKeys s.node) (nFile : Fin uintMax) (nBlockPos : Nat) :
    Framed env b s (s.entered env rules b nFile nBlockPos) where
  blocks := rfl
  byPrev := rfl
  stakes := rfl
  keys := Node.HashKeys.enter hke _
  others k hk := by
    change (s.node.enter (s.newIndex env rules b nFile nBlockPos)).mapBlockIndex.contains k = _
    rw [contains_eq_isSome_getElem?, Node.getElem?_enter_ne hk, ← contains_eq_isSome_getElem?]

variable (env rules b) in
theorem addToBlockIndex_frame (hk : Node.HashKeys s.node) (nFile : Fin uintMax) (nBlockPos : Nat) :
    Framed env b s (s.addToBlockIndex env rules b nFile nBlockPos).2 := by
  have he := entered_frame env rules b hk nFile nBlockPos
  have hen : (s.entered env rules b nFile nBlockPos).node.mapBlockIndex[
      (s.newIndex env rules b nFile nBlockPos).phashBlock]? = some (s.newIndex env rules b nFile nBlockPos) :=
    getElem?_insert_self
  rcases addToBlockIndex_cases env rules s b nFile nBlockPos with heq | ⟨-, s1, p, ok, db, hs1, hp, -, hc⟩
  · rw [heq]
    exact .refl hk
  rw [← hs1] at he hen
  rw [← hp] at hen
  have hs : Node.SameTree s1.node (s1.node.setTxdb db) := ⟨rfl, fun _ => rfl⟩
  rcases hc with ⟨-, heq⟩ | ⟨-, -, heq⟩ | ⟨-, -, heq⟩
  · rw [heq]
    exact he.sameTree hs s1.checkpoints
  · rw [heq]
    exact he.sameTree (hs.trans (Node.setBestChain_sameTree env rules.io (hs.hashKeys he.keys) b hen)) s1.checkpoints
  · rw [heq]
    exact he.sameTree hs s1.checkpoints

theorem acceptBlock_frame (hk : Node.HashKeys s.node) (h : s.acceptBlock env rules b = some (ok, s')) :
    Framed env b s s' := by
  rcases acceptBlock_cases h with ⟨-, rfl⟩ | ⟨-, nFile, -, -, -, -, -, rfl⟩
  · exact .refl hk
  have ha : Framed env b (s.stored nFile b) _ :=
    addToBlockIndex_frame env rules b (s := s.stored nFile b) hk nFile (s.node.files.fileEnd nFile + 8)
  have hf : Framed env b s ((s.stored nFile b).addToBlockIndex env rules b nFile (s.node.files.fileEnd nFile + 8)).2 :=
    ⟨ha.blocks, ha.byPrev, ha.stakes, ha.keys, ha.others⟩
  split
  · obtain ⟨n, c, heq, ht⟩ := acceptPendingSyncCheckpoint_eq env rules
      ((s.stored nFile b).addToBlockIndex env rules b nFile (s.node.files.fileEnd nFile + 8)).2
    rw [heq]
    exact hf.sameTree (ht hf.keys) c
  · exact hf

/-! ## States of the work queue -/

def LeavesOut (env : Env) (rules : AcceptRules) (s : ChainMan) (b : CBlock) : Prop :=
  ∀ s', s.acceptBlock env rules b = some (false, s') →
    s'.node.mapBlockIndex.contains (b.getHash env) = s.node.mapBlockIndex.contains (b.getHash env)

def withOrphans (s : ChainMan) (byHash : ExtTreeMap Hash256 CBlock) (byPrev : List (Hash256 × CBlock))
    (stakes : Finset (COutPoint × Nat)) : ChainMan :=
  { s with mapOrphanBlocks := byHash, mapOrphanBlocksByPrev := byPrev, setStakeSeenOrphan := stakes }

/-- `AcceptBlock` on one of `blocks`, or a change of the orphan containers. -/
inductive QueueStep (env : Env) (rules : AcceptRules) (blocks : List CBlock) : ChainMan → ChainMan → Prop
  | accept {s s' : ChainMan} {ok : Bool} (b : CBlock) (mem : b ∈ blocks)
    (run : s.acceptBlock env rules b = some (ok, s')) :
      QueueStep env rules blocks s s'
  | orphans (s : ChainMan) (byHash : ExtTreeMap Hash256 CBlock) (byPrev : List (Hash256 × CBlock))
      (stakes : Finset (COutPoint × Nat)) : QueueStep env rules blocks s (s.withOrphans byHash byPrev stakes)

def Clean (env : Env) (rules : AcceptRules) (blocks : List CBlock) (s : ChainMan) : Prop :=
  ∀ t, Relation.ReflTransGen (QueueStep env rules blocks) s t → ∀ b ∈ blocks, LeavesOut env rules t b

theorem Clean.step (h : Clean env rules blocks s) (hs : QueueStep env rules blocks s s') :
    Clean env rules blocks s' := fun t ht => h t (ht.head hs)

section
variable (s : ChainMan) (byHash : ExtTreeMap Hash256 CBlock) (byPrev : List (Hash256 × CBlock))
  (stakes : Finset (COutPoint × Nat))

theorem addToBlockIndex_withOrphans (nFile : Fin uintMax) (nBlockPos : Nat) :
    (s.withOrphans byHash byPrev stakes).addToBlockIndex env rules b nFile nBlockPos =
      ((s.addToBlockIndex env rules b nFile nBlockPos).1,
        (s.addToBlockIndex env rules b nFile nBlockPos).2.withOrphans byHash byPrev stakes) := by
  have hne : (s.withOrphans byHash byPrev stakes).newIndex env rules b nFile nBlockPos =
      s.newIndex env rules b nFile nBlockPos := rfl
  have hn : (s.withOrphans byHash byPrev stakes).node = s.node := rfl
  have hp : (s.withOrphans byHash byPrev stakes).mapProofOfStake = s.mapProofOfStake := rfl
  have hi : ∀ p, ((s.withOrphans byHash byPrev stakes).insertIndex p).node = (s.insertIndex p).node := fun _ => rfl
  unfold addToBlockIndex
  dsimp only
  rw [hne, hn, hp, hi]
  split
  · rfl
  split
  · rfl
  split
  · rfl
  split
  · rfl
  split
  · rfl
  · rfl

theorem acceptBlock_withOrphans : (s.withOrphans byHash byPrev stakes).acceptBlock env rules b =
      (s.acceptBlock env rules b).map fun r => (r.1, r.2.withOrphans byHash byPrev stakes) := by
  have hn : (s.withOrphans byHash byPrev stakes).node = s.node := rfl
  have hc : (s.withOrphans byHash byPrev stakes).checkpoints = s.checkpoints := rfl
  unfold acceptBlock
  rw [hn, hc]
  split
  · rfl
  split
  · rfl
  split
  · rfl
  · rfl
  split
  · rfl
  split
  · rfl
  rename_i nFile _
  have hs : (s.withOrphans byHash byPrev stakes).setNode { s.node with files := s.node.files.append nFile b } =
    (s.stored nFile b).withOrphans byHash byPrev stakes := rfl
  rw [hs, addToBlockIndex_withOrphans]
  change some (_, if ((s.stored nFile b).addToBlockIndex env rules b nFile _).1 then _ else _) =
    some (_, withOrphans (if ((s.stored nFile b).addToBlockIndex env rules b nFile _).1 then _ else _) _ _ _)
  split
  · rfl
  · rfl

end

theorem acceptBlock_refuses (h : s.node.mapBlockIndex.contains (b.getHash env) = true ∨
    s.node.mapBlockIndex.contains b.hashPrevBlock = false) : s.acceptBlock env rules b = some (false, s) := by
  unfold acceptBlock
  split
  · rfl
  rename_i hn
  have hp := h.resolve_left hn
  rw [contains_eq_isSome_getElem?, isSome_eq_false_iff, isNone_iff_eq_none] at hp
  rw [hp]

end ChainMan

open ChainMan (Clean QueueStep LeavesOut)

/-! ## Exact containers -/

/-- The holding area's three containers agree and no parent is known. -/
structure OrphansExact (s : ChainMan) : Prop where
  byPrev : ∀ e, e ∈ s.mapOrphanBlocksByPrev ↔
    e.1 = e.2.hashPrevBlock ∧ ∃ h : Hash256, s.mapOrphanBlocks[h]? = some e.2
  once : s.mapOrphanBlocksByPrev.Nodup
  parents : ∀ {h : Hash256} {b : CBlock}, s.mapOrphanBlocks[h]? = some b →
    s.node.mapBlockIndex.contains b.hashPrevBlock = false
  stakes : ∀ x, x ∈ s.setStakeSeenOrphan ↔
    ∃ (h : Hash256) (b : CBlock), s.mapOrphanBlocks[h]? = some b ∧ b.isProofOfStake = true ∧ b.getProofOfStake = x

structure OrphanInv (env : Env) (s : ChainMan) (queue : List Hash256) : Prop where
  tree : Node.HashKeys s.node
  keys : ∀ {h : Hash256} {b : CBlock}, s.mapOrphanBlocks[h]? = some b → b.getHash env = h
  byPrev : ∀ e, e ∈ s.mapOrphanBlocksByPrev ↔
    e.1 = e.2.hashPrevBlock ∧ ∃ h : Hash256, s.mapOrphanBlocks[h]? = some e.2
  once : s.mapOrphanBlocksByPrev.Nodup
  queued : ∀ {h : Hash256} {b : CBlock}, s.mapOrphanBlocks[h]? = some b →
    s.node.mapBlockIndex.contains b.hashPrevBlock = true → b.hashPrevBlock ∈ queue
  stakes : ∀ x, x ∈ s.setStakeSeenOrphan ↔
    ∃ (h : Hash256) (b : CBlock), s.mapOrphanBlocks[h]? = some b ∧ b.isProofOfStake = true ∧ b.getProofOfStake = x
  unique : ∀ {h h' : Hash256} {b b' : CBlock}, s.mapOrphanBlocks[h]? = some b → s.mapOrphanBlocks[h']? = some b' →
    b.isProofOfStake = true → b'.isProofOfStake = true → b.getProofOfStake = b'.getProofOfStake → b = b'

theorem CBlock.getProofOfStake_ne {b' : CBlock} (h : b.isProofOfStake = true) (h' : b'.isProofOfStake = false) :
    b.getProofOfStake ≠ b'.getProofOfStake := by
  have hn : b'.getProofOfStake = (.null, 0) := by
    unfold getProofOfStake
    rw [h']
  rw [hn]
  have hs := h
  unfold isProofOfStake at hs
  split at hs
  swap
  · cases hs
  rename_i tx0 tx1 rest hv
  unfold getProofOfStake
  rw [h, hv]
  unfold CTransaction.isCoinStake at hs
  split at hs
  swap
  · cases hs
  rename_i txin _ _ _ _ hvi _
  simp only [Bool.and_eq_true, Bool.not_eq_true'] at hs
  intro heq
  have hp : txin.prevout = .null := by
    have := congrArg Prod.fst heq
    simpa [hvi] using this
  rw [hp] at hs
  exact absurd hs.1 (by decide)

namespace OrphanInv

variable {env : Env} {rules : AcceptRules} {s s' : ChainMan} {b : CBlock}

theorem exact (h : OrphanInv env s []) : OrphansExact s where
  byPrev := h.byPrev
  once := h.once
  parents hb := by
    by_contra hne
    exact absurd (h.queued hb (by simpa using hne)) not_mem_nil
  stakes := h.stakes

theorem of_frame (h : OrphanInv env s queue) (hf : ChainMan.Framed env b s s')
    (hq : ∀ k, s'.node.mapBlockIndex.contains k = true → k ∈ queue' ∨ k ∉ queue ∧
      s.node.mapBlockIndex.contains k = true) :
    OrphanInv env s' queue' where
  tree := hf.keys
  keys hb := by
    rw [hf.blocks] at hb
    exact h.keys hb
  byPrev e := by
    rw [hf.byPrev, hf.blocks]
    exact h.byPrev e
  once := by
    rw [hf.byPrev]
    exact h.once
  queued {k c} hc hm := by
    rw [hf.blocks] at hc
    rcases hq _ hm with hin | ⟨hn, hold⟩
    · exact hin
    · exact absurd (h.queued hc hold) hn
  stakes x := by
    rw [hf.stakes, hf.blocks]
    exact h.stakes x
  unique hc hc' := by
    rw [hf.blocks] at hc hc'
    exact h.unique hc hc'

/-! ## The work queue -/

structure Released (env : Env) (bs : List CBlock) (accepted : List Hash256) (s s' : ChainMan) : Prop where
  blocks : ∀ h : Hash256, s'.mapOrphanBlocks[h]? = if h ∈ bs.map (·.getHash env) then none else s.mapOrphanBlocks[h]?
  byPrev : s'.mapOrphanBlocksByPrev = s.mapOrphanBlocksByPrev
  stakes : ∀ x, x ∈ s'.setStakeSeenOrphan ↔ x ∈ s.setStakeSeenOrphan ∧ ∀ b ∈ bs, b.getProofOfStake ≠ x
  keys : Node.HashKeys s'.node
  indexed : ∀ k, s'.node.mapBlockIndex.contains k = true → s.node.mapBlockIndex.contains k = true ∨ k ∈ accepted

theorem acceptOrphans_released (hke : Node.HashKeys s.node) (hsu : ∀ b ∈ bs, b ∈ blocks)
    (hcl : Clean env rules blocks s) (h : ChainMan.acceptOrphans env rules bs s = some (accepted, s')) :
    Released env bs accepted s s' ∧ Relation.ReflTransGen (QueueStep env rules blocks) s s' := by
  induction bs generalizing s accepted with
  | nil =>
    cases h
    exact ⟨⟨fun h => by simp, rfl, fun x => by simp, hke, fun k hk => .inl hk⟩, .refl⟩
  | cons b bs ih =>
    unfold ChainMan.acceptOrphans at h
    split at h
    · cases h
    rename_i ok s1 ho
    split at h
    · cases h
    rename_i accepted' s2 hr
    cases h
    have hf := ChainMan.acceptBlock_frame hke ho
    have hs : Relation.ReflTransGen (QueueStep env rules blocks) s (s1.forgetOrphan env b) :=
      (Relation.ReflTransGen.single (.accept b (hsu b mem_cons_self) ho)).tail (.orphans s1 _ _ _)
    obtain ⟨hre, hru⟩ := ih (s := s1.forgetOrphan env b) hf.keys (fun c hc => hsu c (mem_cons_of_mem b hc))
      (fun t ht => hcl t (hs.trans ht)) hr
    refine ⟨⟨fun k => ?_, hre.byPrev.trans hf.byPrev, fun x => ?_, hre.keys, fun k hk => ?_⟩, hs.trans hru⟩
    · rw [hre.blocks]
      change (if _ then none else (s1.mapOrphanBlocks.erase (b.getHash env))[k]?) = _
      rw [hf.blocks, map_cons]
      by_cases hm : k ∈ bs.map (·.getHash env)
      · rw [if_pos hm, if_pos (mem_cons_of_mem _ hm)]
      · by_cases hk : k = b.getHash env
        · rw [if_neg hm, hk, getElem?_erase_self, if_pos mem_cons_self]
        · rw [if_neg hm, getElem?_erase_ne _ hk, if_neg fun hc => (mem_cons.mp hc).elim hk hm]
    · rw [hre.stakes]
      change x ∈ s1.setStakeSeenOrphan.erase b.getProofOfStake ∧ _ ↔ _
      rw [hf.stakes, Finset.mem_erase, forall_mem_cons, ne_comm]
      tauto
    · rcases hre.indexed k hk with hk | hk
      · by_cases hb : k = b.getHash env
        · cases ok with
          | true => exact .inr (by rw [hb]; exact mem_cons_self)
          | false =>
            subst hb
            have := hcl s .refl b (hsu b mem_cons_self) s1 ho
            rw [← this]
            exact .inl hk
        · exact .inl ((hf.others k hb).symm.trans hk)
      · refine .inr ?_
        split
        · exact mem_cons_of_mem _ hk
        · exact hk

theorem mem_waitingFor (h : OrphanInv env s queue) :
    c ∈ s.waitingFor hashPrev ↔ c.hashPrevBlock = hashPrev ∧ ∃ k : Hash256, s.mapOrphanBlocks[k]? = some c := by
  unfold ChainMan.waitingFor
  rw [List.mem_map]
  constructor
  · rintro ⟨e, he, rfl⟩
    obtain ⟨hm, hp⟩ := List.mem_filter.mp he
    obtain ⟨hk, hs⟩ := (h.byPrev e).mp hm
    exact ⟨hk.symm.trans (of_decide_eq_true hp), hs⟩
  · rintro ⟨hp, hs⟩
    exact ⟨(c.hashPrevBlock, c), List.mem_filter.mpr ⟨(h.byPrev _).mpr ⟨rfl, hs⟩, decide_eq_true hp⟩, rfl⟩

theorem released (h : OrphanInv env s (hashPrev :: queue)) (hr : Released env (s.waitingFor hashPrev) accepted s s') :
    OrphanInv env (s'.dropWaiting hashPrev) (queue ++ accepted) := by
  have hl : ∀ {k : Hash256} {c : CBlock}, s'.mapOrphanBlocks[k]? = some c ↔
      s.mapOrphanBlocks[k]? = some c ∧ c.hashPrevBlock ≠ hashPrev := by
    intro k c
    rw [hr.blocks]
    split
    · rename_i hm
      obtain ⟨w, hw, rfl⟩ := mem_map.mp hm
      obtain ⟨hpr, j, hj⟩ := h.mem_waitingFor.mp hw
      obtain rfl : w.getHash env = j := h.keys hj
      refine iff_of_false (fun e => nomatch e) ?_
      rintro ⟨hc, hne⟩
      rw [hj, some.injEq] at hc
      exact hne (hc ▸ hpr)
    · rename_i hm
      refine ⟨fun hc => ⟨hc, fun hpr => hm ?_⟩, And.left⟩
      exact mem_map.mpr ⟨c, h.mem_waitingFor.mpr ⟨hpr, k, hc⟩, h.keys hc⟩
  constructor
  case tree => exact hr.keys
  case keys => exact fun hc => h.keys (hl.mp hc).1
  case byPrev =>
    intro e
    change e ∈ s'.mapOrphanBlocksByPrev.filter _ ↔ _ ∧ ∃ k : Hash256, s'.mapOrphanBlocks[k]? = some e.2
    simp only [hr.byPrev, mem_filter, h.byPrev e, decide_eq_true_eq, hl]
    constructor
    · rintro ⟨⟨hke, k, hk⟩, hne⟩
      exact ⟨hke, k, hk, fun hp => hne (hke.trans hp)⟩
    · rintro ⟨hke, k, hk, hne⟩
      exact ⟨⟨hke, k, hk⟩, fun hp => hne (hke.symm.trans hp)⟩
  case once =>
    change (s'.mapOrphanBlocksByPrev.filter _).Nodup
    rw [hr.byPrev]
    exact h.once.filter _
  case queued =>
    intro k c hc hm
    obtain ⟨hold, hne⟩ := hl.mp hc
    rcases hr.indexed _ hm with hi | ha
    · exact mem_append_left _ ((mem_cons.mp (h.queued hold hi)).resolve_left hne)
    · exact mem_append_right _ ha
  case stakes =>
    intro x
    change x ∈ s'.setStakeSeenOrphan ↔ ∃ (k : Hash256) (c : CBlock), s'.mapOrphanBlocks[k]? = some c ∧ _
    rw [hr.stakes, h.stakes]
    constructor
    · rintro ⟨⟨k, c, hc, hpo, hx⟩, ho⟩
      exact ⟨k, c, hl.mpr ⟨hc, fun hp => ho c (h.mem_waitingFor.mpr ⟨hp, k, hc⟩) hx⟩, hpo, hx⟩
    · rintro ⟨k, c, hc, hpo, hx⟩
      obtain ⟨hold, hne⟩ := hl.mp hc
      refine ⟨⟨k, c, hold, hpo, hx⟩, fun w hw hwx => ?_⟩
      obtain ⟨hpr, j, hj⟩ := h.mem_waitingFor.mp hw
      cases hwp : w.isProofOfStake with
      | true => exact hne (h.unique hold hj hpo hwp (hx.trans hwx.symm) ▸ hpr)
      | false => exact CBlock.getProofOfStake_ne hpo hwp (hx.trans hwx.symm)
  case unique => exact fun hc hc' => h.unique (hl.mp hc).1 (hl.mp hc').1

theorem resolveOrphans (h : OrphanInv env s queue) (hsu : ∀ e ∈ s.mapOrphanBlocksByPrev, e.2 ∈ blocks)
    (hcl : Clean env rules blocks s) (hf : queue.length + s.mapOrphanBlocksByPrev.length ≤ fuel)
    (hru : ChainMan.resolveOrphans env rules fuel queue s = some s') : OrphanInv env s' [] := by
  induction fuel generalizing queue s with
  | zero =>
    obtain rfl : queue = [] := eq_nil_of_length_eq_zero (by omega)
    cases hru
    exact h
  | succ fuel ih =>
    cases queue with
    | nil =>
      cases hru
      exact h
    | cons hashPrev queue =>
      unfold ChainMan.resolveOrphans at hru
      split at hru
      · cases hru
      rename_i accepted s1 ho
      have hw : ∀ c ∈ s.waitingFor hashPrev, c ∈ blocks := by
        intro c hc
        obtain ⟨e, he, rfl⟩ := mem_map.mp hc
        exact hsu e (mem_of_mem_filter he)
      obtain ⟨hre, hr⟩ := acceptOrphans_released h.tree hw hcl ho
      have hd : (s1.dropWaiting hashPrev).mapOrphanBlocksByPrev = (s.dropWaiting hashPrev).mapOrphanBlocksByPrev := by
        unfold ChainMan.dropWaiting
        rw [hre.byPrev]
      refine ih (h.released hre) (fun e he => ?_) (fun t ht => hcl t ((hr.tail (.orphans s1 _ _ _)).trans ht)) ?_ hru
      · rw [hd] at he
        exact hsu e (mem_of_mem_filter he)
      · -- each accepted orphan has left the multimap
        have ha := (ChainMan.acceptOrphans_spec ho).2
        have hs := s.length_waitingFor hashPrev
        rw [hd, length_append]
        rw [length_cons] at hf
        omega

theorem hold (h : OrphanInv env s []) (hn : s.mapOrphanBlocks.contains (b.getHash env) = false)
    (hp : s.node.mapBlockIndex.contains b.hashPrevBlock = false)
    (hst : b.isProofOfStake = true → b.getProofOfStake ∉ s.setStakeSeenOrphan) : OrphanInv env { s with
      setStakeSeenOrphan := if b.isProofOfStake then insert b.getProofOfStake s.setStakeSeenOrphan
        else s.setStakeSeenOrphan
      mapOrphanBlocks := s.mapOrphanBlocks.insert (b.getHash env) b
      mapOrphanBlocksByPrev := s.mapOrphanBlocksByPrev ++ [(b.hashPrevBlock, b)] } [] := by
  rw [contains_eq_isSome_getElem?, isSome_eq_false_iff, isNone_iff_eq_none] at hn
  have hs : ∀ {k : Hash256} {c : CBlock}, (s.mapOrphanBlocks.insert (b.getHash env) b)[k]? = some c ↔
      (k = b.getHash env ∧ c = b) ∨ s.mapOrphanBlocks[k]? = some c := by
    intro k c
    by_cases hk : k = b.getHash env
    · subst hk
      rw [getElem?_insert_self, hn, some.injEq]
      simp [eq_comm]
    · rw [getElem?_insert_ne _ hk]
      simp [hk]
  have hold : ∀ {k : Hash256} {c : CBlock}, s.mapOrphanBlocks[k]? = some c → c.isProofOfStake = true →
      c.getProofOfStake ∈ s.setStakeSeenOrphan := fun hc hpo => (h.stakes _).mpr ⟨_, _, hc, hpo, rfl⟩
  constructor
  case tree => exact h.tree
  case keys =>
    intro k c hc
    rcases hs.mp hc with ⟨rfl, rfl⟩ | hc
    · rfl
    · exact h.keys hc
  case byPrev =>
    intro e
    rw [mem_append, mem_singleton, h.byPrev]
    simp only [hs]
    constructor
    · rintro (⟨hke, k, hk⟩ | rfl)
      · exact ⟨hke, k, .inr hk⟩
      · exact ⟨rfl, _, .inl ⟨rfl, rfl⟩⟩
    · rintro ⟨hke, k, ⟨-, hb⟩ | hk⟩
      · exact .inr (Prod.ext (hke.trans (congrArg (·.hashPrevBlock) hb)) hb)
      · exact .inl ⟨hke, k, hk⟩
  case once =>
    refine nodup_append.mpr ⟨h.once, nodup_singleton _, ?_⟩
    rintro e he e' he' rfl
    obtain rfl := mem_singleton.mp he'
    obtain ⟨-, k, hk⟩ := (h.byPrev _).mp he
    rw [← h.keys hk, hn] at hk
    cases hk
  case queued =>
    intro k c hc hm
    rcases hs.mp hc with ⟨-, rfl⟩ | hc
    · rw [hp] at hm
      cases hm
    · exact h.queued hc hm
  case stakes =>
    intro x
    have hsp : (∃ (k : Hash256) (c : CBlock), (s.mapOrphanBlocks.insert (b.getHash env) b)[k]? = some c ∧
        c.isProofOfStake = true ∧ c.getProofOfStake = x) ↔
        (b.isProofOfStake = true ∧ b.getProofOfStake = x) ∨ x ∈ s.setStakeSeenOrphan := by
      rw [h.stakes]
      constructor
      · rintro ⟨k, c, hc, hpo, hx⟩
        rcases hs.mp hc with ⟨-, rfl⟩ | hc
        · exact .inl ⟨hpo, hx⟩
        · exact .inr ⟨k, c, hc, hpo, hx⟩
      · rintro (⟨hpo, hx⟩ | ⟨k, c, hc, hpo, hx⟩)
        · exact ⟨_, b, hs.mpr (.inl ⟨rfl, rfl⟩), hpo, hx⟩
        · exact ⟨k, c, hs.mpr (.inr hc), hpo, hx⟩
    refine Iff.trans ?_ hsp.symm
    cases hpo : b.isProofOfStake with
    | true => simp [eq_comm]
    | false => simp
  case unique =>
    intro k k' c c' hc hc' hpo hp' heq
    rcases hs.mp hc with ⟨-, hcb⟩ | hsta
    · rcases hs.mp hc' with ⟨-, hcb'⟩ | hs'
      · rw [hcb, hcb']
      · exact absurd (hcb ▸ heq ▸ hold hs' hp') (hst (hcb ▸ hpo))
    · rcases hs.mp hc' with ⟨-, hcb'⟩ | hs'
      · exact absurd (hcb' ▸ heq ▸ hold hsta hpo) (hst (hcb' ▸ hp'))
      · exact h.unique hsta hs' hpo hp' heq

end OrphanInv

/-! ## The run -/

/-- No stake is held twice, and a refused block is left out of the index. -/
structure OrphanSafe (env : Env) (rules : AcceptRules) (s : ChainMan) (b : CBlock) : Prop where
  stake : b.isProofOfStake = true → b.getProofOfStake ∈ s.setStakeSeenOrphan →
    s.waitingFor (b.getHash env) = [] ∧ s.wantedByPendingSyncCheckpoint (b.getHash env) = false
  clean : s.node.mapBlockIndex.contains b.hashPrevBlock = true → ∀ s', s.checkStake env rules b = some s' →
    Clean env rules (b :: s.mapOrphanBlocksByPrev.map Prod.snd) s'

theorem OrphanInv.processBlock (h : OrphanInv env s [])
    (hsa : OrphanSafe env rules s b) (hru : s.processBlock env rules b = some (ok, s')) : OrphanInv env s' [] := by
  unfold ChainMan.processBlock at hru
  dsimp only at hru
  split at hru
  · cases hru
    exact h
  split at hru
  · cases hru
    exact h
  rename_i hne
  split at hru
  · cases hru
    exact h
  split at hru
  · cases hru
    exact h
  split at hru
  · cases hru
    exact h
  rename_i s1 hs
  have hc := fun hp => hsa.clean hp s1 hs
  have hd := hsa.stake
  obtain ⟨proofs, rfl⟩ := ChainMan.checkStake_eq hs
  have hi : OrphanInv env { s with mapProofOfStake := proofs } [] :=
    h.of_frame (b := b) ⟨rfl, rfl, rfl, h.tree, fun _ _ => rfl⟩ fun k hk => .inr ⟨not_mem_nil, hk⟩
  generalize hs1 : ({ s with mapProofOfStake := proofs } : ChainMan) = s1 at *
  have hsam : s1.node = s.node ∧ s1.mapOrphanBlocks = s.mapOrphanBlocks ∧ s1.setStakeSeenOrphan = s.setStakeSeenOrphan ∧
      s1.mapOrphanBlocksByPrev = s.mapOrphanBlocksByPrev := by
    rw [← hs1]
    exact ⟨rfl, rfl, rfl, rfl⟩
  obtain ⟨hn, hb, hst, hbp⟩ := hsam
  split at hru
  · cases hru
    exact hi
  split at hru
  · -- no previous block
    rename_i hp
    obtain rfl : (s1.holdOrphan env b).2 = s' := congrArg Prod.snd (some.inj hru)
    unfold ChainMan.holdOrphan
    split
    · exact hi
    rename_i hr
    refine hi.hold (by rw [hb]; exact Bool.eq_false_of_not_eq_true hne) (by simpa using hp) fun hpo hm => hr ?_
    obtain ⟨hno, hw⟩ := hd hpo (hst ▸ hm)
    have hn' : s1.waitingFor (b.getHash env) = [] := by
      rw [← hs1]
      exact hno
    have hw' : s1.wantedByPendingSyncCheckpoint (b.getHash env) = false := by
      rw [← hs1]
      exact hw
    simp [ChainMan.repeatsStake, hpo, hm, hn', hw']
  rename_i hp
  have hc1 := hc (by rw [← hn]; simpa using hp)
  split at hru
  · cases hru
  · rename_i s2 ho
    cases hru
    refine hi.of_frame (ChainMan.acceptBlock_frame hi.tree ho) fun k hk => .inr ⟨not_mem_nil, ?_⟩
    by_cases hkb : k = b.getHash env
    · subst hkb
      rw [← hc1 s1 .refl b mem_cons_self s' ho]
      exact hk
    · exact ((ChainMan.acceptBlock_frame hi.tree ho).others k hkb).symm.trans hk
  · rename_i s2 ho
    obtain ⟨s3, hre, heq⟩ := map_eq_some_iff.mp hru
    cases heq
    have hf := ChainMan.acceptBlock_frame hi.tree ho
    have hq : OrphanInv env s2 [b.getHash env] := by
      refine hi.of_frame hf fun k hk => ?_
      by_cases hkb : k = b.getHash env
      · exact .inl (by rw [hkb]; exact mem_cons_self)
      · exact .inr ⟨not_mem_nil, (hf.others k hkb).symm.trans hk⟩
    refine hq.resolveOrphans (fun e he => ?_) (hc1.step (.accept b mem_cons_self ho)) ?_ hre
    · rw [hf.byPrev, hbp] at he
      exact mem_cons_of_mem _ (mem_map_of_mem he)
    · rw [length_singleton]
      omega

/-- The holding area is empty. -/
structure NoOrphans (s : ChainMan) : Prop where
  tree : Node.HashKeys s.node
  blocks : s.mapOrphanBlocks = ∅
  byPrev : s.mapOrphanBlocksByPrev = []
  stakes : s.setStakeSeenOrphan = ∅

/-- A `ProcessBlock` under `OrphanSafe`. -/
def OrphanStep (env : Env) (s s' : ChainMan) : Prop :=
  ∃ rules b ok, OrphanSafe env rules s b ∧ s.processBlock env rules b = some (ok, s')

/-- **The bookkeeping of orphans is exact** after every call of `ProcessBlock`, in every run of safe blocks. -/
theorem orphans_exact (env : Env) (s₀ s : ChainMan) (h₀ : NoOrphans s₀)
    (hrun : Relation.ReflTransGen (OrphanStep env) s₀ s) : OrphansExact s := by
  have hinv : OrphanInv env s [] := by
    induction hrun with
    | refl =>
      have hn : ∀ {h : Hash256} {b : CBlock}, s₀.mapOrphanBlocks[h]? ≠ some b := by
        rw [h₀.blocks]
        simp
      refine ⟨h₀.tree, fun h => absurd h hn, fun e => ?_, ?_, fun h => absurd h hn, fun x => ?_,
        fun h => absurd h hn⟩
      · rw [h₀.byPrev]
        exact iff_of_false not_mem_nil fun h => hn h.2.choose_spec
      · rw [h₀.byPrev]
        exact nodup_nil
      · rw [h₀.stakes]
        exact iff_of_false (Finset.notMem_empty x) fun h => hn h.choose_spec.choose_spec.1
    | tail _ hs ih =>
      obtain ⟨rules, b, ok, hsa, hrun⟩ := hs
      exact ih.processBlock hsa hrun
  exact hinv.exact

/-! ### An orphan and the block it waits for -/

namespace Sample

def paying (value : Int) : CBlock := block 1 2 1 [coinbase 1 value]

def childBlock : CBlock := block 2 3 2 [coinbase 2 coin]

noncomputable def orphanEnv (value : Int) : Env :=
  env [coinbase 0 0, coinbase 1 value, coinbase 2 coin]
    [genesisBlock.toCBlockHeader, (paying value).toCBlockHeader, childBlock.toCBlockHeader]

noncomputable def processed (value : Int) (s : ChainMan) (b : CBlock) : ChainMan :=
  ((s.processBlock (orphanEnv value) rules b).map Prod.snd).getD s

noncomputable def accepted (s : ChainMan) (b : CBlock) : ChainMan :=
  ((s.acceptBlock (orphanEnv coin) rules b).map Prod.snd).getD s

theorem acceptBlock_accepted (h : (s.acceptBlock (orphanEnv coin) rules b).map Prod.fst = some ok) :
    s.acceptBlock (orphanEnv coin) rules b = some (ok, accepted s b) := by
  obtain ⟨⟨ok', s'⟩, hs, rfl⟩ := map_eq_some_iff.mp h
  rw [accepted, hs]
  rfl

noncomputable def held : ChainMan := processed coin startMan childBlock

noncomputable def stages : List ChainMan :=
  [held, accepted held firstBlock, accepted (accepted held firstBlock) childBlock]

theorem acceptBlock_stages (hs : s ∈ stages) (hb : b ∈ [firstBlock, childBlock]) :
    s.acceptBlock (orphanEnv coin) rules b = some (false, s) ∨
      ∃ s' ∈ stages, s.acceptBlock (orphanEnv coin) rules b = some (true, s') := by
  simp only [stages, mem_cons, not_mem_nil, or_false] at hs hb
  rcases hs with rfl | rfl | rfl <;> rcases hb with rfl | rfl
  · exact .inr ⟨_, by simp [stages], acceptBlock_accepted (by decide)⟩
  · exact .inl (ChainMan.acceptBlock_refuses (.inr (by decide)))
  · exact .inl (ChainMan.acceptBlock_refuses (.inl (by decide)))
  · exact .inr ⟨_, by simp [stages], acceptBlock_accepted (by decide)⟩
  · exact .inl (ChainMan.acceptBlock_refuses (.inl (by decide)))
  · exact .inl (ChainMan.acceptBlock_refuses (.inl (by decide)))

theorem held_clean : Clean (orphanEnv coin) rules [firstBlock, childBlock] held := by
  intro t ht
  have hst : ∃ s ∈ stages, ∃ byHash byPrev stakes, t = s.withOrphans byHash byPrev stakes := by
    induction ht with
    | refl => exact ⟨held, by simp [stages], _, _, _, rfl⟩
    | tail _ hste ih =>
      obtain ⟨s, hs, byHash, byPrev, stakes, rfl⟩ := ih
      cases hste with
      | orphans byHash' byPrev' stakes' => exact ⟨s, hs, byHash', byPrev', stakes', rfl⟩
      | accept b hb hr =>
        rw [ChainMan.acceptBlock_withOrphans] at hr
        rcases acceptBlock_stages hs hb with ho | ⟨s', hs', ho⟩
        · rw [ho] at hr
          cases hr
          exact ⟨s, hs, _, _, _, rfl⟩
        · rw [ho] at hr
          cases hr
          exact ⟨s', hs', _, _, _, rfl⟩
  obtain ⟨s, hs, byHash, byPrev, stakes, rfl⟩ := hst
  intro b hb s' hr
  rw [ChainMan.acceptBlock_withOrphans] at hr
  rcases acceptBlock_stages hs hb with ho | ⟨s'', -, ho⟩
  · rw [ho] at hr
    cases hr
    rfl
  · rw [ho] at hr
    cases hr

theorem startMan_noOrphans : NoOrphans startMan where
  tree {h p} hp := by
    change ((∅ : BlockMap).insert 1 genesisEntry)[h]? = some p at hp
    simp only [ExtTreeMap.getElem?_insert, Nat.compare_eq_eq] at hp
    split_ifs at hp with h1
    · rw [← h1, ← some.inj hp]
      rfl
    · simp at hp
  blocks := rfl
  byPrev := rfl
  stakes := rfl

theorem processBlock_processed (h : (s.processBlock (orphanEnv value) rules b).map Prod.fst = some ok) :
    s.processBlock (orphanEnv value) rules b = some (ok, processed value s b) := by
  obtain ⟨⟨ok', s'⟩, hs, rfl⟩ := map_eq_some_iff.mp h
  rw [processed, hs]
  rfl

end Sample

open Sample in
/-- The child comes first, its parent brings it into the chain. -/
theorem orphans_exact_resolved :
    held.mapOrphanBlocks.contains 3 = true ∧ (processed coin held firstBlock).node.pindexBest = some 3 ∧
      OrphansExact (processed coin held firstBlock) := by
  have h₁ : OrphanStep (orphanEnv coin) startMan held :=
    ⟨rules, childBlock, true, ⟨fun h => absurd h (by decide), fun h => absurd h (by decide)⟩,
      processBlock_processed (by decide)⟩
  have hs : OrphanSafe (orphanEnv coin) rules held firstBlock := by
    refine ⟨fun h => absurd h (by decide), fun _ s' hs' => ?_⟩
    obtain rfl : held = s' := some.inj hs'
    exact held_clean
  have h₂ : OrphanStep (orphanEnv coin) held (processed coin held firstBlock) :=
    ⟨rules, firstBlock, true, hs, processBlock_processed (by decide)⟩
  exact ⟨by decide, by decide,
    orphans_exact (orphanEnv coin) startMan (processed coin held firstBlock) startMan_noOrphans
    (.tail (.single h₁) h₂)⟩

open Sample in
/-- The parent pays itself too much: it is refused and indexed, and the child goes on waiting. -/
theorem orphan_of_indexed_stays :
    (startMan.processBlock (orphanEnv (1000 * coin)) rules childBlock).map Prod.fst = some true ∧
      ((processed (1000 * coin) startMan childBlock).processBlock (orphanEnv (1000 * coin)) rules
        (paying (1000 * coin))).map Prod.fst = some false ∧
      (processed (1000 * coin) (processed (1000 * coin) startMan childBlock) (paying (1000 * coin))).mapOrphanBlocks[
        (3 : Hash256)]? = some childBlock ∧
      (processed (1000 * coin) (processed (1000 * coin) startMan childBlock)
        (paying (1000 * coin))).node.mapBlockIndex.contains childBlock.hashPrevBlock = true :=
  ⟨by decide, by decide, by decide, by decide⟩

end CloakCoin.Chain
