import CloakCoin.Chain.Consistent
import CloakCoin.Chain.Kernel

/-!
# What the chain asks of a coinstake

Its kernel is found through the transaction index and is worth some coins, since its hash is not zero and its weight
counts coin-days. From version 6 on `AcceptBlock` asks for one of three shapes.
-/

namespace CloakCoin.Chain

open Lib
open Std (ExtTreeMap)
open List

variable {n : Node}

/-! ## Where the index leads -/

def Node.IndexSound (env : Env) (n : Node) : Prop :=
  ∀ hash txindex, n.txdb.readTxIndex hash = some txindex →
    ∃ tx b, n.files.readTx txindex.pos = some tx ∧ n.files.recordAt txindex.pos.nFile txindex.pos.nBlockPos = some b ∧
      tx ∈ b.vtx ∧ env.txHash tx = hash ∧ b.checkBlock env false false = true

theorem Synced.located (h : Synced env files m tip chain recs idx) (hr : r ∈ recs) :
    ∃ b ∈ chain, files.recordAt r.pos.nFile r.pos.nBlockPos = some b ∧ r.tx ∈ b.vtx := by
  induction h with
  | genesis => cases hr
  | block prev entry link prevEntry height int disk readIndex readTx run checks coinbase supply ih =>
    rcases mem_append.mp hr with hr | hr
    · have hr := mem_reverse.mp hr
      obtain ⟨k, -, hp, -⟩ := txAtFrom_records hr
      rw [hp]
      exact ⟨_, mem_cons_self, (BlockFiles.recordAt_of_readFromDisk disk).1, (nHeight_records hr).2⟩
    · obtain ⟨b, hb, hre, htx⟩ := ih hr
      exact ⟨b, mem_cons_of_mem _ hb, hre, htx⟩

theorem SupplyInv.indexSound (hin : TxHashBinds env) (hinv : SupplyInv env n)
    (hc : ∀ b ∈ n.connectedBlocks env, b.checkBlock env false false = true) : n.IndexSound env := by
  intro hash txindex hi
  obtain ⟨t, ht, -, chain, recs, hs⟩ := hinv
  obtain ⟨p, hp⟩ := hs.exists_entry
  have hbl : n.connectedBlocks env = chain := by
    simp only [Node.connectedBlocks, Node.bestEntry, ht, Option.bind_some, hp, Node.ancestorsOf]
    exact hs.walk hp
  have hl := (hs.facts hin hp).1
  obtain ⟨r, hr, hrh⟩ := hl.exists_of_some hi
  obtain ⟨e, he, hpo, -⟩ := hl.entry hr
  rw [hrh] at he
  obtain rfl : e = txindex := Option.some.inj (he.symm.trans hi)
  obtain ⟨b, hb, hre, htx⟩ := hs.located hr
  rw [hpo]
  exact ⟨r.tx, b, (hl.stored hr).1, hre, htx, hrh, hc b (hbl ▸ hb)⟩

/-! ## The weight of a kernel -/

section
variable {env : Env}

theorem checkStakeKernelHash_some {txPrev : CTransaction} {prevout : COutPoint} {hash : Hash256}
    (h : checkStakeKernelHash env kernelHash n nBits blockFrom nTxPrevOffset txPrev prevout nTimeTx = some hash) :
    ((blockFrom.nTime : Int) + env.nStakeMinAge) % 2 ^ 32 ≤ nTimeTx ∧
      ∃ out data, txPrev.vout[prevout.n]? = some out ∧ hash = kernelHash data ∧
        (hash : Int) ≤ coinDayWeight env out.nValue txPrev.nTime nTimeTx * bigNumOfCompact nBits := by
  unfold checkStakeKernelHash at h
  split_ifs at h with hti ha
  split at h
  · rename_i out nStakeModifier _ _ ho _
    dsimp only at h
    split_ifs at h with ht
    obtain rfl := Option.some.inj h
    exact ⟨by omega, out, _, ho, rfl, by omega⟩
  · cases h

theorem nStakeMaxAge_le (env : Env) : nStakeMaxAge env ≤ 28800 := by
  unfold nStakeMaxAge
  split <;> omega

theorem value_ge_of_weight {nTimeTxPrev nTimeTx : Nat} (hm : 0 ≤ env.nStakeMinAge)
    (hma : env.nStakeMinAge ≤ nStakeMaxAge env) (hv : 0 ≤ nValueIn)
    (ha : (nTimeTxPrev : Int) + env.nStakeMinAge ≤ nTimeTx)
    (hw : coinDayWeight env nValueIn nTimeTxPrev nTimeTx ≠ 0) : 2 * cent ≤ nValueIn := by
  by_contra hlt
  apply hw
  have h8 := nStakeMaxAge_le env
  rw [coinDayWeight]
  generalize ht : min ((nTimeTx : Int) - nTimeTxPrev) (nStakeMaxAge env) - env.nStakeMinAge = nTimeWeight
  have hn : 0 ≤ nTimeWeight := by omega
  have hle : nValueIn * nTimeWeight ≤ 20000 * 28800 :=
    mul_le_mul (by unfold cent at hlt; omega) (by omega) hn (by omega)
  have hp := mul_nonneg hv hn
  rw [Int.tdiv_eq_ediv_of_nonneg hp, Int.tdiv_eq_ediv_of_nonneg (Int.ediv_nonneg hp (by decide))]
  unfold coin
  omega

end

theorem ChainMan.properStake_of_shape (hb : b.vtx[1]? = some tx)
    (h : (tx.vin.length = 1 ∧ tx.vout.length = 3) ∨ (tx.vin.length > 1 ∧ tx.vout.length = 2) ∨
      (tx.vin.length = 1 ∧ tx.vout.length = 2 ∧ ∃ txin txPrev, tx.vin = [txin] ∧
        readTxPrev n txin.prevout = some txPrev ∧ txPrev.nTime + nStakeSplitAge ≤ tx.nTime)) :
    properStake env n pindexPrev b = some true := by
  unfold properStake
  rw [hb]
  split
  · rfl
  rcases h with ⟨hin, ho⟩ | ⟨hin, ho⟩ | ⟨hin, ho, txin, txPrev, hv, hr, ht⟩
  · simp [hin, ho]
  · have hne : tx.vin.length ≠ 1 := by omega
    simp [hne, hin, ho]
  · have hw : (txPrev.nTime + nStakeSplitAge) % 2 ^ 32 ≤ tx.nTime := (Nat.mod_le _ _).trans ht
    simp only [ho, hv, head?_cons, Option.bind_some, hr]
    simpa using fun _ => hw

end CloakCoin.Chain
