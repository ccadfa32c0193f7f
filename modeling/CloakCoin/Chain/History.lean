import CloakCoin.Chain.Kernel
import CloakCoin.Chain.Sample

/-!
# Proof of stake and the history of a block

`GetKernelStakeModifier` follows the forward links, along the chain that is active when a block arrives. The answer is
that of the block's own history if the main chain holds enough of it.
-/

namespace CloakCoin.Chain

open Lib Wallet
open Std (ExtTreeMap)
open List Option Std.ExtTreeMap

variable {tip start : Hash256} {l : List Hash256}

/-- What two trees that hold a block agree on. -/
def CBlockIndex.content (p : CBlockIndex) : CBlockIndex :=
  { p with pnext := none, nFile := 0, nBlockPos := 0, nMint := 0, nMoneySupply := 0 }

namespace Node

/-- The block index is a tree with the active chain linked forward. -/
structure BlockTree (n : Node) : Prop where
  linked : Linked n
  ranked : Ranked n.prevOf n.heightOf
  active : ∃ tip, n.pindexBest = some tip ∧ NextOk n tip

/-- The two nodes agree on the ancestors of `tip`. -/
def SameHistory (n₁ n₂ : Node) (tip : Hash256) : Prop :=
  ∀ h, n₁.Descends tip h →
    (n₁.mapBlockIndex[h]?).map CBlockIndex.content = (n₂.mapBlockIndex[h]?).map CBlockIndex.content

/-- A late enough block of the main chain between `start` and `tip`. -/
def Settled (env : Env) (n : Node) (tip start : Hash256) : Prop :=
  ∃ p q, n.mapBlockIndex[start]? = some p ∧ n.mapBlockIndex[q.phashBlock]? = some q ∧ n.isInMainChain q = true ∧
    Ripe (p.nTime + getStakeModifierSelectionInterval env) q ∧ n.Descends tip q.phashBlock ∧
    n.StrictlyDescends q.phashBlock start

def modifierOfHistory (env : Env) (n : Node) (tip start : Hash256) : Option KernelModifier :=
  match n.mapBlockIndex[start]? with
  | none => none
  | some p =>
    modifierAlong (p.nTime + getStakeModifierSelectionInterval env)
      ((pathTo n.prevOf start (n.heightOf tip) tip).reverse.filterMap (n.mapBlockIndex[·]?)) (.start p)

variable {env : Env} {n n₁ n₂ : Node}

/-! ## Main chain and forward links -/

theorem BlockTree.isInMainChain_iff (h : BlockTree n) (hbe : n.pindexBest = some tip)
    (hp : n.mapBlockIndex[p.phashBlock]? = some p) : n.isInMainChain p = true ↔ n.Descends tip p.phashBlock := by
  obtain ⟨tip', hb', hn⟩ := h.active
  obtain rfl : tip = tip' := some.inj (hbe.symm.trans hb')
  constructor
  · exact descends_of_isInMainChain (fun j k hjk => (hn j k).mp hjk) hbe hp
  · rintro ⟨l, hb⟩
    rw [isInMainChain, Bool.or_eq_true_iff]
    induction l using reverseRecOn with
    | nil =>
      have hse : tip = p.phashBlock := by
        cases hb
        rfl
      exact .inr (decide_eq_true (hbe.trans (congrArg some hse)))
    | append_singleton l x _ =>
      obtain ⟨ha, hl⟩ := Branch.concat_iff.mp hb
      have hs := (hn _ _).mpr ⟨⟨l, ha⟩, hl⟩
      rw [nextOf, hp, bind_some] at hs
      exact .inl (by rw [hs]; rfl)

theorem BlockTree.nextOf_of_mem (h : BlockTree n) (hq : n.mapBlockIndex[q.phashBlock]? = some q)
    (hm : n.isInMainChain q = true) (hb : Branch n.prevOf start q.phashBlock l) :
    ∀ x ∈ l, ∀ y, n.prevOf x = some y → n.nextOf y = some x := by
  intro x hx y hxy
  obtain ⟨tip, hbe, hn⟩ := h.active
  obtain ⟨l1, -, hx', -⟩ := hb.split hx
  exact (hn y x).mpr ⟨Descends.trans ((h.isInMainChain_iff hbe hq).mp hm) ⟨l1, hx'⟩, hxy⟩

theorem branch_length_lt_size (hr : Ranked n.prevOf n.heightOf) (hb : Branch n.prevOf low top l)
    (hlo : (n.mapBlockIndex[low]?).isSome = true) : l.length < n.mapBlockIndex.size := by
  have hn : low ∉ l := fun hm => absurd (hb.rank_mem hr hm).1 (lt_irrefl _)
  have hs : low :: l ⊆ n.mapBlockIndex.keys := by
    intro x hx
    rw [ExtTreeMap.mem_keys, mem_iff_isSome_getElem?]
    rcases mem_cons.mp hx with rfl | hx
    · exact hlo
    obtain ⟨z, hz⟩ := hb.link_of_mem hx
    obtain ⟨p, hp, -⟩ := bind_eq_some_iff.mp hz
    rw [hp]
    rfl
  have hl := ((nodup_cons.mpr ⟨hn, hb.nodup hr⟩).subperm hs).length_le
  rw [length_keys, length_cons] at hl
  exact hl

/-! ## The answer along the history -/

theorem pathTo_height (hr : Ranked n.prevOf n.heightOf)
    (hb : Branch n.prevOf start tip l) : pathTo n.prevOf start (n.heightOf tip) tip = l := by
  have hh := hb.rank_top hr
  exact pathTo_eq hr hb (by omega)

theorem kernelModifier_eq_history (h : BlockTree n) (hs : n.Settled env tip start) :
    (n.kernelModifier env start).isSome = true ∧ n.kernelModifier env start = n.modifierOfHistory env tip start := by
  obtain ⟨p, q, hp, hq, hm, hr, ⟨l', ha⟩, l, hne, hb⟩ := hs
  rw [kernelModifier, modifierOfHistory, hp, pathTo_height h.ranked (ha.append hb), reverse_append, filterMap_append]
  refine searchModifier_eq_along hb (h.nextOf_of_mem hq hm hb) hq hr _
    (branch_length_lt_size h.ranked hb (by rw [hp]; rfl)) hp fun hn => absurd hn hne

theorem descends_of_modifierOfHistory (h : BlockTree n) (hd : n.Descends tip start)
    (hk : n.modifierOfHistory env tip start = some k) : n.Descends tip k.pindex.phashBlock := by
  obtain ⟨l, hb⟩ := hd
  unfold modifierOfHistory at hk
  split at hk
  · cases hk
  rename_i p hp
  rw [pathTo_height h.ranked hb] at hk
  rcases mem_of_modifierAlong hk with rfl | hm
  · obtain rfl : p.phashBlock = start := h.linked.keys hp
    exact ⟨l, hb⟩
  obtain ⟨x, hx, he⟩ := mem_filterMap.mp hm
  obtain rfl : k.pindex.phashBlock = x := h.linked.keys he
  obtain ⟨l1, -, hx', -⟩ := hb.split (mem_reverse.mp hx)
  exact ⟨l1, hx'⟩

theorem kernelModifier_in_history_iff (h : BlockTree n) (tip start : Hash256) :
    (∃ k, n.kernelModifier env start = some k ∧ n.Descends tip k.pindex.phashBlock) ↔ n.Settled env tip start := by
  constructor
  · rintro ⟨k, hk, hd⟩
    unfold kernelModifier at hk
    split at hk
    · cases hk
    rename_i p hp
    obtain rfl : p.phashBlock = start := h.linked.keys hp
    have hea : (KernelModifier.start p).nStakeModifierTime < p.nTime + getStakeModifierSelectionInterval env :=
      Nat.lt_add_of_pos_right (getStakeModifierSelectionInterval_pos env)
    obtain ⟨hri, he, hr⟩ := searchModifier_spec h.linked.keys hp (.inl hea) hk
    obtain ⟨tip', hbe, hn⟩ := h.active
    have hne : k.pindex.phashBlock ≠ p.phashBlock := by
      intro heq
      rw [heq, hp, some.injEq] at he
      have hla := hri.late
      rw [← he] at hla
      exact absurd hla (Nat.not_le.mpr hea)
    have hb : n.Descends k.pindex.phashBlock p.phashBlock := by
      generalize k.pindex.phashBlock = x at hr
      induction hr with
      | refl => exact .refl n _
      | tail _ hl ih => exact Descends.trans ⟨_, .cons ((hn _ _).mp hl).2 .nil⟩ ih
    refine ⟨p, k.pindex, hp, he, (h.isInMainChain_iff hbe he).mpr ?_, hri, hd, hb.strictly hne⟩
    rcases Relation.ReflTransGen.cases_tail hr with heq | ⟨c, -, hl⟩
    · exact absurd heq hne
    · exact ((hn _ _).mp hl).1
  · intro hs
    obtain ⟨hso, heq⟩ := kernelModifier_eq_history h hs
    obtain ⟨k, hk⟩ := isSome_iff_exists.mp hso
    refine ⟨k, hk, descends_of_modifierOfHistory h ?_ (heq.symm.trans hk)⟩
    obtain ⟨-, q, -, -, -, -, ha, hb⟩ := hs
    exact ha.trans hb.descends

/-! ## Two trees -/

theorem SameHistory.prev {prev : Hash256} (h : SameHistory n₁ n₂ tip) (hl : n₁.prevOf tip = some prev) :
    SameHistory n₁ n₂ prev :=
  fun x hx => h x (Descends.trans ⟨_, .cons hl .nil⟩ hx)

theorem SameHistory.branch (h : SameHistory n₁ n₂ tip)
    (hb : Branch n₁.prevOf low tip l) : Branch n₂.prevOf low tip l := by
  induction hb with
  | nil => exact .nil
  | @cons a b l link rest ih =>
    refine .cons ?_ (ih (h.prev link))
    rw [← link]
    exact (bind_congr_of_map (f := CBlockIndex.content) CBlockIndex.pprev (fun _ => rfl) (h a (.refl n₁ a))).symm

end Node

def KernelModifier.content (k : KernelModifier) : KernelModifier := { k with pindex := k.pindex.content }

theorem KernelModifier.content_advance (k : KernelModifier) (next : CBlockIndex) :
    (k.advance next).content = k.content.advance next.content := by
  unfold advance
  change _ = if next.fStakeModifier = true then _ else _
  split <;> rfl

theorem modifierAlong_content (nTimeEnd : Nat) (ps : List CBlockIndex) (k : KernelModifier) :
    (modifierAlong nTimeEnd ps k).map KernelModifier.content =
      modifierAlong nTimeEnd (ps.map CBlockIndex.content) k.content := by
  induction ps generalizing k with
  | nil =>
    change Option.map _ (if _ then _ else _) = if k.nStakeModifierTime < nTimeEnd then none else some k.content
    split <;> rfl
  | cons next rest ih =>
    change Option.map _ (if _ then _ else _) =
      if k.nStakeModifierTime < nTimeEnd then modifierAlong nTimeEnd (rest.map CBlockIndex.content)
        (k.content.advance next.content) else some k.content
    split
    · rw [ih, KernelModifier.content_advance]
    · rfl

namespace Node

variable {env : Env} {n₁ n₂ : Node}

section
variable (h₁ : BlockTree n₁) (h₂ : BlockTree n₂) (hsame : SameHistory n₁ n₂ tip)
include h₁ h₂ hsame

theorem modifierOfHistory_congr (hd : n₁.Descends tip start) :
    (n₁.modifierOfHistory env tip start).map KernelModifier.content =
      (n₂.modifierOfHistory env tip start).map KernelModifier.content := by
  obtain ⟨l, hb⟩ := hd
  have hs := hsame start ⟨l, hb⟩
  have hbl : ((l.reverse.filterMap (n₁.mapBlockIndex[·]?)).map CBlockIndex.content) =
      (l.reverse.filterMap (n₂.mapBlockIndex[·]?)).map CBlockIndex.content := by
    rw [map_filterMap, map_filterMap]
    refine filterMap_congr fun x hx => hsame x ?_
    obtain ⟨l1, -, hx', -⟩ := hb.split (mem_reverse.mp hx)
    exact ⟨l1, hx'⟩
  unfold modifierOfHistory
  rw [pathTo_height h₁.ranked hb, pathTo_height h₂.ranked (hsame.branch hb)]
  cases hp1 : n₁.mapBlockIndex[start]? with
  | none =>
    rw [hp1, map_none, eq_comm, map_eq_none_iff] at hs
    rw [hs]
  | some p1 =>
    rw [hp1] at hs
    obtain ⟨p2, hp2, hc⟩ := exists_of_map_eq hs rfl
    have ht : p2.content.nTime = p1.content.nTime := by rw [hc]
    change p2.nTime = p1.nTime at ht
    have hf : (KernelModifier.start p2).content = (KernelModifier.start p1).content :=
      congrArg KernelModifier.start hc
    rw [hp2]
    rw [modifierAlong_content, modifierAlong_content, hbl, ht, hf]

theorem getKernelStakeModifier_congr (hs1 : n₁.Settled env tip start) (hs2 : n₂.Settled env tip start) :
    n₁.getKernelStakeModifier env start = n₂.getKernelStakeModifier env start := by
  have hr : ∀ n : Node, n.getKernelStakeModifier env start = ((n.kernelModifier env start).map
      KernelModifier.content).map fun k => (k.pindex.nStakeModifier, k.nStakeModifierHeight, k.nStakeModifierTime) := by
    intro n
    rw [getKernelStakeModifier, Option.map_map]
    rfl
  have hd : n₁.Descends tip start := by
    obtain ⟨-, q, -, -, -, -, ha, hb⟩ := hs1
    exact ha.trans hb.descends
  rw [hr, hr, (kernelModifier_eq_history h₁ hs1).2, (kernelModifier_eq_history h₂ hs2).2,
    modifierOfHistory_congr h₁ h₂ hsame hd]

end

end Node

/-! ## The check of a block -/

section
variable (env : Env) (kernelHash : KernelData → Hash256) (n : Node) (b : CBlock)

def CBlock.checkProofOfStake : Option Hash256 :=
  (b.vtx[1]?).bind fun tx1 => Chain.checkProofOfStake env kernelHash n tx1 b.nBits

def CBlock.kernelOut : Option COutPoint := ((b.vtx[1]?).bind fun tx1 => tx1.vin.head?).map CTxIn.prevout

def CBlock.kernelBlock : Option Hash256 :=
  ((b.kernelOut.bind fun prevout => n.txdb.readTxIndex prevout.hash).bind fun txindex =>
    n.files.recordAt txindex.pos.nFile txindex.pos.nBlockPos).map fun block => block.getHash env

end

/-- The two nodes read the kernel's coin alike. -/
structure SameCoin (n₁ n₂ : Node) (b : CBlock) : Prop where
  index : ∀ prevout, b.kernelOut = some prevout → n₁.txdb.readTxIndex prevout.hash = n₂.txdb.readTxIndex prevout.hash
  tx : ∀ prevout txindex, b.kernelOut = some prevout → n₁.txdb.readTxIndex prevout.hash = some txindex →
    n₁.files.readTx txindex.pos = n₂.files.readTx txindex.pos
  block : ∀ prevout txindex, b.kernelOut = some prevout → n₁.txdb.readTxIndex prevout.hash = some txindex →
    n₁.files.recordAt txindex.pos.nFile txindex.pos.nBlockPos =
      n₂.files.recordAt txindex.pos.nFile txindex.pos.nBlockPos

theorem checkProofOfStake_congr {env : Env} {kernelHash : KernelData → Hash256} {n₁ n₂ : Node} {b : CBlock}
    (hc : SameCoin n₁ n₂ b) (hm : ∀ start, b.kernelBlock env n₁ = some start →
      n₁.getKernelStakeModifier env start = n₂.getKernelStakeModifier env start) :
    b.checkProofOfStake env kernelHash n₁ = b.checkProofOfStake env kernelHash n₂ := by
  unfold CBlock.checkProofOfStake
  cases htx : b.vtx[1]? with
  | none => rfl
  | some tx1 =>
    rw [bind_some, bind_some]
    unfold checkProofOfStake
    split
    · rename_i txin hs hin
      have ho : b.kernelOut = some txin.prevout := by rw [CBlock.kernelOut, htx, bind_some, hin]; rfl
      have hr : ChainMan.readTxPrev n₁ txin.prevout = ChainMan.readTxPrev n₂ txin.prevout := by
        unfold ChainMan.readTxPrev
        rw [← hc.index _ ho]
        cases hi : n₁.txdb.readTxIndex txin.prevout.hash with
        | none => rfl
        | some txindex =>
          dsimp only
          rw [hc.tx _ _ ho hi]
      rw [hr, ← hc.index _ ho]
      split
      · rename_i txindex txPrev hi hp
        split
        · rfl
        rw [← hc.block _ _ ho hi]
        split
        · rfl
        rename_i block hb
        unfold checkStakeKernelHash
        rw [hm (block.getHash env)]
        rw [CBlock.kernelBlock, ho, bind_some, hi, bind_some, hb]
        rfl
      · rfl
    · rfl

/-- **Proof of stake is a function of the block's own history where that is settled**: in two trees with that history,
each with a ripe modifier of it in the main chain, the check gives the same answer. A tree takes the modifier from the
history of the block in no other case. -/
theorem stake_check_of_history (env : Env) (kernelHash : KernelData → Hash256) :
    (∀ (n₁ n₂ : Node) (b : CBlock), n₁.BlockTree → n₂.BlockTree → n₁.SameHistory n₂ b.hashPrevBlock → SameCoin n₁ n₂ b →
      (∀ start, b.kernelBlock env n₁ = some start →
        n₁.Settled env b.hashPrevBlock start ∧ n₂.Settled env b.hashPrevBlock start) →
      b.checkProofOfStake env kernelHash n₁ = b.checkProofOfStake env kernelHash n₂ ∧
        ∀ start, b.kernelBlock env n₁ = some start →
          n₁.getKernelStakeModifier env start = n₂.getKernelStakeModifier env start) ∧
      ∀ (n : Node) (tip start : Hash256), n.BlockTree →
        ((∃ k, n.kernelModifier env start = some k ∧ n.Descends tip k.pindex.phashBlock) ↔
          n.Settled env tip start) := by
  refine ⟨fun n₁ n₂ b h₁ h₂ hsame hc hs => ?_, fun n tip start h => Node.kernelModifier_in_history_iff h tip start⟩
  have hm : ∀ start, b.kernelBlock env n₁ = some start →
      n₁.getKernelStakeModifier env start = n₂.getKernelStakeModifier env start := fun start hst =>
    Node.getKernelStakeModifier_congr h₁ h₂ hsame (hs start hst).1 (hs start hst).2
  exact ⟨checkProofOfStake_congr hc hm, hm⟩

namespace Node

theorem mem_toList {n : Node} (hp : n.mapBlockIndex[h]? = some p) :
    (h, p) ∈ n.mapBlockIndex.toList := mem_toList_iff_getElem?_eq_some.mpr hp

/-- A tree whose forward links lead along `l`, from its second block to the best one. -/
theorem BlockTree.of_entries {n : Node} (root tip : Hash256) (l : List Hash256) (hbes : n.pindexBest = some tip)
    (hr : n.prevOf root = none) (hb : Branch n.prevOf root tip l)
    (he : ∀ e ∈ n.mapBlockIndex.toList, e.2.phashBlock = e.1 ∧
      (∀ b ∈ e.2.pprev, ∃ q ∈ n.mapBlockIndex[b]?, e.2.nHeight = q.nHeight + 1) ∧
      ∀ k ∈ e.2.pnext, k ∈ l ∧ n.prevOf k = some e.1)
    (hli : ∀ k ∈ l, ∀ h ∈ n.prevOf k, n.nextOf h = some k) : n.BlockTree := by
  have hpr : ∀ {h b : Hash256}, n.prevOf h = some b → ∃ p q : CBlockIndex, n.mapBlockIndex[h]? = some p ∧
      n.mapBlockIndex[b]? = some q ∧ p.nHeight = q.nHeight + 1 := by
    intro h b hl
    obtain ⟨p, hp, hpb⟩ := bind_eq_some_iff.mp hl
    obtain ⟨q, hq, hh⟩ := (he _ (mem_toList hp)).2.1 b hpb
    exact ⟨p, q, hp, hq, hh⟩
  have hra : Ranked n.prevOf n.heightOf := by
    intro h b hl
    obtain ⟨p, q, hp, hq, hh⟩ := hpr hl
    rw [heightOf, heightOf, hp, hq]
    exact hh
  refine ⟨⟨fun hp => (he _ (mem_toList hp)).1, fun hl => ?_⟩, hra, tip, hbes, fun h k => ?_⟩
  · obtain ⟨-, q, -, hq, -⟩ := hpr hl
    rw [hq]
    rfl
  · constructor
    · intro hn
      obtain ⟨p, hp, hpk⟩ := bind_eq_some_iff.mp hn
      obtain ⟨hk, hl⟩ := (he _ (mem_toList hp)).2.2 k hpk
      obtain ⟨l1, -, hl1, -⟩ := hb.split hk
      exact ⟨⟨l1, hl1⟩, hl⟩
    · rintro ⟨⟨l', hl'⟩, hl⟩
      rcases hl'.mem_or_below hra hb with hk | ⟨_, hbe⟩
      · exact hli k hk h hl
      · cases hbe with
        | nil => cases hr.symm.trans hl
        | cons link => cases hr.symm.trans link

theorem SameHistory.of_entries {n₁ n₂ : Node} (ht : n₁.BlockTree) (hti : (n₁.mapBlockIndex[tip]?).isSome)
    (h : ∀ e ∈ n₁.mapBlockIndex.toList, (n₂.mapBlockIndex[e.1]?).map CBlockIndex.content = some e.2.content) :
    n₁.SameHistory n₂ tip := by
  intro k hd
  obtain ⟨p, hp⟩ := isSome_iff_exists.mp (hd.indexed ht.linked hti)
  rw [hp, h _ (mem_toList hp)]
  rfl

end Node

/-! ### One block on one of two branches

Genesis has the blocks 2 and 3 above it, with 4 on 2 and 5 on 3. The block checked comes after 4. -/

namespace Sample

def stakePrev : Hash256 → Option Hash256
  | 2 => some 1
  | 3 => some 1
  | 4 => some 2
  | 5 => some 3
  | _ => none

def stakeNext : Bool → Hash256 → Option Hash256
  | true, 1 => some 2
  | true, 2 => some 4
  | false, 1 => some 3
  | false, 3 => some 5
  | _, _ => none

def stakeHeight : Hash256 → Nat
  | 2 => 1
  | 3 => 1
  | 4 => 2
  | 5 => 2
  | _ => 0

variable (active : Bool)

def stakeEntry (h : Hash256) : CBlockIndex :=
  { phashBlock := h, pprev := stakePrev h, pnext := stakeNext active h, nFile := 1, nBlockPos := 8
    bnChainTrust := stakeHeight h + 1
    nHeight := stakeHeight h, nMint := 0, nMoneySupply := 0, fProofOfStake := false, fStakeEntropy := decide (h % 2 = 1)
    fStakeModifier := decide (h = 1 ∨ h = 4 ∨ h = 5), nStakeModifier := if h = 5 then 1 else 0, prevoutStake := .null
    nStakeTime := 0, hashProofOfStake := 0, nVersion := 5, hashMerkleRoot := 1, nTime := stakeHeight h * 11000
    nBits := easyBits, nNonce := 0 }

def stakeMap (hs : List Hash256) : BlockMap :=
  hs.foldr (fun h m => m.insert h (stakeEntry active h)) ∅

def stakeCoin : CTransaction := coinbase 0 (6000 * coin)
def stakeGenesis : CBlock := block 0 1 0 [stakeCoin]

noncomputable def stakeEnv : Env := env [stakeCoin] [stakeGenesis.toCBlockHeader]

def stakeNode (hs : List Hash256) : Node :=
  node ⟨[⟨1, 8, stakeGenesis⟩], 1, by decide⟩ (stakeMap active hs)
    (fun h => if h = 1 then some (CTxIndex.ofOutputs (.ofFile 1 8 89) 1) else none) (if active then 4 else 5) 2 []

def stakeHash (data : KernelData) : Hash256 := (data.nStakeModifier + 1) * 1000

def stakeBlock : CBlock :=
  { block 4 0 40000 [coinbase 3 0, { nTime := 40000, vin := [{ prevout := ⟨1, 0⟩, scriptSig := [] }]
                                     vout := [⟨0, []⟩, ⟨6000 * coin, [7]⟩] }] with nBits := 0x03000001 }

def leftTree : Node := stakeNode true [1, 2, 3, 4, 5]
def rightTree : Node := stakeNode false [1, 2, 3, 4, 5]
def lonelyTree : Node := stakeNode true [1, 2, 4]

theorem leftTree_tree : leftTree.BlockTree :=
  .of_entries 1 4 [4, 2] rfl (by decide) (.cons (by decide) (.cons (by decide) .nil)) (by decide) (by decide)

theorem rightTree_tree : rightTree.BlockTree :=
  .of_entries 1 5 [5, 3] rfl (by decide) (.cons (by decide) (.cons (by decide) .nil)) (by decide) (by decide)

theorem lonelyTree_tree : lonelyTree.BlockTree :=
  .of_entries 1 4 [4, 2] rfl (by decide) (.cons (by decide) (.cons (by decide) .nil)) (by decide) (by decide)

theorem lonelyTree_settled : lonelyTree.Settled stakeEnv stakeBlock.hashPrevBlock 1 :=
  ⟨stakeEntry true 1, stakeEntry true 4, by decide, by decide, rfl, ⟨rfl, by decide +kernel⟩,
    .refl _ _, [4, 2], by decide,
    .cons (by decide) (.cons (by decide) .nil)⟩

theorem leftTree_settled : leftTree.Settled stakeEnv stakeBlock.hashPrevBlock 1 :=
  ⟨stakeEntry true 1, stakeEntry true 4, by decide, by decide, rfl, ⟨rfl, by decide +kernel⟩,
    .refl _ _, [4, 2], by decide,
    .cons (by decide) (.cons (by decide) .nil)⟩

end Sample

open Sample in
theorem stake_check_of_history_lonely :
    stakeBlock.checkProofOfStake stakeEnv stakeHash lonelyTree =
      stakeBlock.checkProofOfStake stakeEnv stakeHash leftTree ∧
      stakeBlock.checkProofOfStake stakeEnv stakeHash lonelyTree = some 1000 := by
  refine ⟨((stake_check_of_history stakeEnv stakeHash).1 lonelyTree leftTree stakeBlock lonelyTree_tree leftTree_tree
    (.of_entries lonelyTree_tree (by decide) (by decide)) ⟨fun _ _ => rfl, fun _ _ _ _ => rfl, fun _ _ _ _ => rfl⟩
    fun start hs => ?_).1, by decide +kernel⟩
  have hb : stakeBlock.kernelBlock stakeEnv lonelyTree = some 1 := by decide
  rw [hb, some.injEq] at hs
  subst hs
  exact ⟨lonelyTree_settled, leftTree_settled⟩

open Sample in
/-- The modifier is that of 4 or of 5, after the chain that is active. -/
theorem stake_check_of_active_chain :
    leftTree.BlockTree ∧ rightTree.BlockTree ∧ leftTree.SameHistory rightTree stakeBlock.hashPrevBlock ∧
      SameCoin leftTree rightTree stakeBlock ∧ stakeBlock.kernelBlock stakeEnv leftTree = some 1 ∧
      leftTree.getKernelStakeModifier stakeEnv 1 = some (0, 2, 22000) ∧
      rightTree.getKernelStakeModifier stakeEnv 1 = some (1, 2, 22000) ∧
      stakeBlock.checkProofOfStake stakeEnv stakeHash leftTree = some 1000 ∧
      stakeBlock.checkProofOfStake stakeEnv stakeHash rightTree = none :=
  ⟨leftTree_tree, rightTree_tree, .of_entries leftTree_tree (by decide) (by decide),
    ⟨fun _ _ => rfl, fun _ _ _ _ => rfl, fun _ _ _ _ => rfl⟩, by decide, by decide +kernel, by decide +kernel,
    by decide +kernel, by decide +kernel⟩

end CloakCoin.Chain
