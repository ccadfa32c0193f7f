import CloakCoin.Chain.SigOps

/-!
# Blocks that can be connected

What the transactions of a block owe to each other: no output is spent twice, a parent stands before its child, and
the size and the signature operations stay in their limits.
-/

namespace CloakCoin.Chain

open Lib List

/-- `ConnectBlock` finds no conflict, wrong order or limit exceeded. -/
structure Connectable (env : Env) (src : TxSource) (b : CBlock) : Prop where
  spentOnce : (b.vtx.flatMap CTransaction.outpoints).Nodup
  ordered : ∀ (i j : Nat) (parent child : CTransaction), b.vtx[i]? = some parent → b.vtx[j]? = some child →
    (∃ n, (parent.getHash env, n) ∈ child.outpoints) → i ≠ j → i < j
  size : b.serializeSize ≤ maxBlockSize
  sigOps : (b.vtx.map (src.sigOps env)).sum ≤ maxBlockSigops
  times : ∀ tx ∈ b.vtx, tx.nTime ≤ b.nTime

/-- No other transaction spends or makes a coin of the coinstake. -/
def StakeApart (env : Env) (txCoinStake : CTransaction) (others : List CTransaction) : Prop :=
  ∀ tx ∈ others, ∀ o ∈ txCoinStake.outpoints, o ∉ tx.outpoints ∧ o.1 ≠ tx.getHash env

theorem connectable_iff (hv : b.vtx = coinbase :: txCoinStake :: others) (hb : coinbase.outpoints = [])
    (hst : txCoinStake.outpoints.Nodup) (hot : (others.flatMap CTransaction.outpoints).Nodup)
    (hor : ∀ (i j : Nat) (parent child : CTransaction), others[i]? = some parent → others[j]? = some child →
      (∃ n, (parent.getHash env, n) ∈ child.outpoints) → i < j)
    (hops : (b.vtx.map (src.sigOps env)).sum ≤ maxBlockSigops) (ht : ∀ tx ∈ b.vtx, tx.nTime ≤ b.nTime) :
    Connectable env src b ↔ StakeApart env txCoinStake others ∧ b.serializeSize ≤ maxBlockSize := by
  have hsp : b.vtx.flatMap CTransaction.outpoints = txCoinStake.outpoints ++ others.flatMap CTransaction.outpoints := by
    rw [hv, flatMap_cons, flatMap_cons, hb, nil_append]
  constructor
  · intro h
    refine ⟨?_, h.size⟩
    intro tx htx o ho
    constructor
    · intro hs
      have hon := h.spentOnce
      rw [hsp, nodup_append] at hon
      exact hon.2.2 o ho o (mem_flatMap.mpr ⟨tx, htx, hs⟩) rfl
    · intro hp
      obtain ⟨i, hi⟩ := mem_iff_getElem?.mp htx
      have hlt := h.ordered (i + 2) 1 tx txCoinStake (by rw [hv]; exact hi) (by rw [hv]; rfl) ⟨o.2, hp ▸ ho⟩
      omega
  · rintro ⟨ha, hsi⟩
    refine ⟨?_, ?_, hsi, hops, ht⟩
    · rw [hsp, nodup_append]
      refine ⟨hst, hot, ?_⟩
      rintro o ho _ hs rfl
      obtain ⟨tx, htx, hs⟩ := mem_flatMap.mp hs
      exact (ha tx htx o ho).1 hs
    · intro i j parent child hi hj hpa hne
      obtain ⟨n, hn⟩ := hpa
      rw [hv] at hi hj
      rcases j with - | j | j
      · obtain rfl : coinbase = child := Option.some.inj hj
        rw [hb] at hn
        cases hn
      · obtain rfl : txCoinStake = child := Option.some.inj hj
        rcases i with - | i | i
        · exact Nat.zero_lt_one
        · exact absurd rfl hne
        · exact absurd rfl (ha parent (mem_of_getElem? hi) _ hn).2
      · rcases i with - | i | i
        · omega
        · omega
        · have := hor i j parent child hi hj ⟨n, hn⟩
          omega

end CloakCoin.Chain
