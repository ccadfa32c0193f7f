import CloakCoin.Chain.Links

/-!
# The stake kernel

`GetKernelStakeModifier`, `CheckStakeKernelHash` and `CheckProofOfStake`. The modifier is found on the way forward
from the block of the staked coin. The hash of the kernel is a parameter.
-/

namespace CloakCoin.Chain

open Lib Wallet
open Std (ExtTreeMap)
open List Option

variable {nTimeEnd : Nat}

/-! ## Intervals and targets -/

section
variable (env : Env)

def nModifierInterval : Nat := if env.fTestNet then 60 else 5 * 60

def modifierIntervalRatio : Nat := 3

def nStakeMaxAge : Int := if env.fTestNet then 6 * 60 else 60 * 60 * 8

def getStakeModifierSelectionIntervalSection (nSection : Nat) : Nat :=
  nModifierInterval env * 63 / (63 + (63 - nSection) * (modifierIntervalRatio - 1))

def getStakeModifierSelectionInterval : Nat :=
  ((range 64).map (getStakeModifierSelectionIntervalSection env)).sum

theorem getStakeModifierSelectionInterval_pos : 0 < getStakeModifierSelectionInterval env := by
  unfold getStakeModifierSelectionInterval getStakeModifierSelectionIntervalSection nModifierInterval
  split <;> decide

end

/-- `CBigNum::SetCompact`, which does not wrap and keeps the sign. -/
def bigNumOfCompact (nCompact : Nat) : Int :=
  let nSize := nCompact >>> 24
  let nWord := (nCompact &&& 0x007fffff) >>> (8 * (3 - nSize))
  let magnitude : Nat := nWord <<< (8 * (nSize - 3))
  if nSize ≠ 0 ∧ nCompact &&& 0x00800000 ≠ 0 then -magnitude else magnitude

/-! ## `GetKernelStakeModifier` -/

/-- The locals of the loop. -/
structure KernelModifier where
  pindex : CBlockIndex
  nStakeModifierHeight : Nat
  nStakeModifierTime : Nat

namespace KernelModifier

def start (pindexFrom : CBlockIndex) : KernelModifier := ⟨pindexFrom, pindexFrom.nHeight, pindexFrom.nTime⟩

def advance (k : KernelModifier) (next : CBlockIndex) : KernelModifier :=
  if next.fStakeModifier then start next else { k with pindex := next }

@[simp] theorem pindex_advance (k : KernelModifier) (next : CBlockIndex) : (k.advance next).pindex = next := by
  unfold advance
  split <;> rfl

end KernelModifier

/-- The loop that finds the stake modifier later by a selection interval. -/
def searchModifier (m : BlockMap) (nTimeEnd : Nat) : Nat → KernelModifier → Option KernelModifier
  | 0, _ => none
  | fuel + 1, k =>
    if k.nStakeModifierTime < nTimeEnd then
      match k.pindex.pnext.bind (m[·]?) with
      | none => none -- reached best block; may happen if node is behind on block chain
      | some next => searchModifier m nTimeEnd fuel (k.advance next)
    else some k

namespace Node

variable (env : Env) (n : Node)

def kernelModifier (hashBlockFrom : Hash256) : Option KernelModifier :=
  match n.mapBlockIndex[hashBlockFrom]? with
  | none => none -- block not indexed
  | some pindexFrom =>
    searchModifier n.mapBlockIndex (pindexFrom.nTime + getStakeModifierSelectionInterval env) n.mapBlockIndex.size
      (.start pindexFrom)

def getKernelStakeModifier (hashBlockFrom : Hash256) : Option (Nat × Nat × Nat) :=
  (n.kernelModifier env hashBlockFrom).map fun k =>
    (k.pindex.nStakeModifier, k.nStakeModifierHeight, k.nStakeModifierTime)

end Node

/-! ## `CheckStakeKernelHash` -/

structure KernelData where
  nStakeModifier : Nat
  nTimeBlockFrom : Nat
  nTxPrevOffset : Nat
  nTimeTxPrev : Nat
  nPrevout : Nat
  nTimeTx : Nat

section
variable (env : Env) (kernelHash : KernelData → Hash256) (n : Node)

/-- Coin-days of an output: its weight starts from 0 at the min age. -/
def coinDayWeight (nValueIn : Int) (nTimeTxPrev nTimeTx : Nat) : Int :=
  let nTimeWeight := min ((nTimeTx : Int) - nTimeTxPrev) (nStakeMaxAge env) - env.nStakeMinAge
  ((nValueIn * nTimeWeight).tdiv coin).tdiv (24 * 60 * 60)

/-- The hash of the proof, if it meets the target. -/
def checkStakeKernelHash (nBits : Nat) (blockFrom : CBlockHeader) (nTxPrevOffset : Nat) (txPrev : CTransaction)
    (prevout : COutPoint) (nTimeTx : Nat) : Option Hash256 :=
  if nTimeTx < txPrev.nTime then none -- transaction timestamp violation
  else if ((blockFrom.nTime : Int) + env.nStakeMinAge) % 2 ^ 32 > nTimeTx then none -- min age requirement
  else
    match txPrev.vout[prevout.n]?, n.getKernelStakeModifier env (blockFrom.getHash env) with
    | some out, some (nStakeModifier, _, _) =>
      let hashProofOfStake := kernelHash
        ⟨nStakeModifier, blockFrom.nTime, nTxPrevOffset, txPrev.nTime, prevout.n, nTimeTx⟩
      if (hashProofOfStake : Int) > coinDayWeight env out.nValue txPrev.nTime nTimeTx * bigNumOfCompact nBits then none
      else some hashProofOfStake
    | _, _ => none

/-- `CheckProofOfStake`: kernel hash target and coinstake signature. -/
def checkProofOfStake (tx : CTransaction) (nBits : Nat) : Option Hash256 :=
  match tx.isCoinStake, tx.vin.head? with
  | true, some txin =>
    match n.txdb.readTxIndex txin.prevout.hash, ChainMan.readTxPrev n txin.prevout with
    | some txindex, some txPrev =>
      if !env.verifySignature txPrev tx 0 true then none
      else
        match n.files.recordAt txindex.pos.nFile txindex.pos.nBlockPos with
        | none => none -- unable to read block of previous transaction
        | some block =>
          checkStakeKernelHash env kernelHash n nBits block.toCBlockHeader
            ((txindex.pos.nTxPos + 2 ^ 32 - txindex.pos.nBlockPos) % 2 ^ 32) txPrev txin.prevout tx.nTime
    | _, _ => none
  | _, _ => none

end

/-! ## Where the search ends -/

structure Ripe (nTimeEnd : Nat) (p : CBlockIndex) : Prop where
  generated : p.fStakeModifier = true
  late : nTimeEnd ≤ p.nTime

variable {k : KernelModifier}

theorem KernelModifier.ripe_advance (hk : k.nStakeModifierTime < nTimeEnd) (next : CBlockIndex) :
    (k.advance next).nStakeModifierTime < nTimeEnd ∨ Ripe nTimeEnd next := by
  unfold advance
  split
  · rename_i hg
    exact (Nat.lt_or_ge _ _).imp_right fun hl => ⟨hg, hl⟩
  · exact .inl hk

theorem KernelModifier.le_time_advance (k : KernelModifier) {next : CBlockIndex} (h : Ripe nTimeEnd next) :
    nTimeEnd ≤ (k.advance next).nStakeModifierTime := by
  rw [advance, if_pos h.generated]
  exact h.late

theorem searchModifier_spec {n : Node} (hke : Node.HashKeys n) {fuel : Nat} {r : KernelModifier}
    (hk : n.mapBlockIndex[k.pindex.phashBlock]? = some k.pindex)
    (hr : k.nStakeModifierTime < nTimeEnd ∨ Ripe nTimeEnd k.pindex)
    (h : searchModifier n.mapBlockIndex nTimeEnd fuel k = some r) :
    Ripe nTimeEnd r.pindex ∧ n.mapBlockIndex[r.pindex.phashBlock]? = some r.pindex ∧
      Relation.ReflTransGen (fun a b => n.nextOf a = some b) k.pindex.phashBlock r.pindex.phashBlock := by
  induction fuel generalizing k with
  | zero => cases h
  | succ fuel ih =>
    rw [searchModifier] at h
    split at h
    · rename_i hlt
      split at h
      · cases h
      rename_i next hn
      obtain ⟨x, hx, he⟩ := bind_eq_some_iff.mp hn
      obtain rfl : next.phashBlock = x := hke he
      have hl : n.nextOf k.pindex.phashBlock = some next.phashBlock := by
        rw [Node.nextOf, hk]
        exact hx
      have hs := ih (k := k.advance next) (by simpa using he) (by simpa using k.ripe_advance hlt next) h
      rw [KernelModifier.pindex_advance] at hs
      exact ⟨hs.1, hs.2.1, .head hl hs.2.2⟩
    · rename_i hge
      cases h
      exact ⟨hr.resolve_left hge, hk, .refl⟩

/-! ## Search along a list of blocks -/

/-- The loop over a list of blocks in the place of the forward links. -/
def modifierAlong (nTimeEnd : Nat) : List CBlockIndex → KernelModifier → Option KernelModifier
  | [], k => if k.nStakeModifierTime < nTimeEnd then none else some k
  | next :: rest, k =>
    if k.nStakeModifierTime < nTimeEnd then modifierAlong nTimeEnd rest (k.advance next) else some k

theorem mem_of_modifierAlong (h : modifierAlong nTimeEnd ps k = some r) : r = k ∨ r.pindex ∈ ps := by
  induction ps generalizing k with
  | nil =>
    rw [modifierAlong] at h
    split at h <;> cases h
    exact .inl rfl
  | cons next rest ih =>
    rw [modifierAlong] at h
    split at h
    · rcases ih h with rfl | hm
      · exact .inr (by rw [k.pindex_advance]; exact mem_cons_self)
      · exact .inr (mem_cons_of_mem _ hm)
    · cases h
      exact .inl rfl

theorem searchModifier_eq_along {n : Node} (hb : Branch n.prevOf low top l)
    (hn : ∀ x ∈ l, ∀ y, n.prevOf x = some y → n.nextOf y = some x) {q : CBlockIndex}
      (hq : n.mapBlockIndex[top]? = some q)
    (hr : Ripe nTimeEnd q) (rest : List CBlockIndex) {fuel : Nat} (hf : l.length < fuel)
    (hk : n.mapBlockIndex[low]? = some k.pindex) (he : l = [] → nTimeEnd ≤ k.nStakeModifierTime) :
    (searchModifier n.mapBlockIndex nTimeEnd fuel k).isSome = true ∧
      searchModifier n.mapBlockIndex nTimeEnd fuel k =
        modifierAlong nTimeEnd (l.reverse.filterMap (n.mapBlockIndex[·]?) ++ rest) k := by
  induction l using reverseRecOn generalizing low fuel k with
  | nil =>
    obtain ⟨fuel, rfl⟩ : ∃ j, fuel = j + 1 := ⟨fuel - 1, by omega⟩
    have hge : ¬ k.nStakeModifierTime < nTimeEnd := Nat.not_lt.mpr (he rfl)
    rw [searchModifier, if_neg hge]
    refine ⟨rfl, ?_⟩
    cases rest with
    | nil => rw [reverse_nil, filterMap_nil, nil_append, modifierAlong, if_neg hge]
    | cons p rest => rw [reverse_nil, filterMap_nil, nil_append, modifierAlong, if_neg hge]
  | append_singleton l x ih =>
    rw [length_append, length_singleton] at hf
    obtain ⟨fuel, rfl⟩ : ∃ j, fuel = j + 1 := ⟨fuel - 1, by omega⟩
    obtain ⟨ha, hl⟩ := Branch.concat_iff.mp hb
    obtain ⟨p, hp, -⟩ := bind_eq_some_iff.mp hl
    have hpn : k.pindex.pnext = some x := by
      have := hn x (mem_append_right l mem_cons_self) low hl
      rwa [Node.nextOf, hk] at this
    rw [reverse_append, reverse_singleton, singleton_append, filterMap_cons, hp, cons_append,
      searchModifier, modifierAlong, hpn, bind_some, hp]
    split
    · -- the top of the branch is ripe, so that the search ends there at the latest
      refine ih ha (fun y hy => hn y (mem_append_left _ hy)) (by omega) (by rw [k.pindex_advance]; exact hp)
        fun hni => ?_
      subst hni
      cases ha
      obtain rfl : p = q := some.inj (hp.symm.trans hq)
      exact k.le_time_advance hr
    · exact ⟨rfl, rfl⟩

end CloakCoin.Chain
