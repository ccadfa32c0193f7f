import CloakCoin.Wallet.StakeShape
import Mathlib.Data.UInt

/-!
# The reported stake weight

`GetStakeWeight` selects coins and adds up their coin-days, as `CheckStakeKernelHash` counts them for a stake of one of
the coins. The one takes the minimum age off before the cap of the age and the other one after it.
-/

namespace CloakCoin.Wallet

open Chain List

namespace Staker

/-- The amounts that are counted, each a `uint64`. -/
structure StakeWeights where
  nMinWeight : UInt64
  nMaxWeight : UInt64
  nWeight : UInt64

section
variable (env : Env) (readTxIndex : Hash256 → Option CTxIndex) (now : Nat)

def getWeight (nIntervalBeginning nIntervalEnd : Int) : Int :=
  min (nIntervalEnd - nIntervalBeginning - env.nStakeMinAge) (nStakeMaxAge env)

/-- `getuint64` keeps the low bits of the magnitude. -/
def getuint64 (bn : Int) : UInt64 := UInt64.ofNat bn.natAbs

def addWeight (w : StakeWeights) (c : COutput) : StakeWeights :=
  match readTxIndex c.hash with
  | none => w
  | some _ =>
    let nTimeWeight := getWeight env c.tx.tx.nTime now
    let n := getuint64 (((c.nValue * nTimeWeight).tdiv coin).tdiv (24 * 60 * 60))
    { nMinWeight := if 0 < nTimeWeight ∧ nTimeWeight < nStakeMaxAge env then w.nMinWeight + n else w.nMinWeight
      nMaxWeight := if nTimeWeight = nStakeMaxAge env then w.nMaxWeight + n else w.nMaxWeight
      nWeight := if 0 < nTimeWeight then w.nWeight + n else w.nWeight }

/-- Indexed and past the minimum age. -/
def Weighs (c : COutput) : Bool :=
  (readTxIndex c.hash).isSome && decide (env.nStakeMinAge < (now : Int) - c.tx.tx.nTime)

theorem addWeight_parts (w : StakeWeights) (c : COutput) : (addWeight env readTxIndex now w c).nWeight - w.nWeight =
      ((addWeight env readTxIndex now w c).nMinWeight - w.nMinWeight) +
        ((addWeight env readTxIndex now w c).nMaxWeight - w.nMaxWeight) := by
  have hm : 0 < nStakeMaxAge env := by
    unfold nStakeMaxAge
    split <;> decide
  have hle : getWeight env c.tx.tx.nTime now ≤ nStakeMaxAge env := min_le_right ..
  unfold addWeight
  split
  · grind
  · dsimp only
    -- at most one of the two ranges holds
    split_ifs <;> first | omega | grind

variable {env readTxIndex now}

theorem addWeight_nWeight (hm : 0 ≤ env.nStakeMinAge) (w : StakeWeights)
    (hy : Weighs env readTxIndex now c = true → (now : Int) - c.tx.tx.nTime ≤ nStakeMaxAge env) :
    (addWeight env readTxIndex now w c).nWeight = w.nWeight +
      if Weighs env readTxIndex now c then getuint64 (coinDayWeight env c.nValue c.tx.tx.nTime now) else 0 := by
  unfold addWeight
  split
  · rename_i hi
    simp [Weighs, hi]
  rename_i hi
  dsimp only
  by_cases ha : env.nStakeMinAge < (now : Int) - c.tx.tx.nTime
  · have hw : Weighs env readTxIndex now c = true := by simp [Weighs, hi, ha]
    have ht := hy hw
    have hs : getWeight env c.tx.tx.nTime now =
        min ((now : Int) - c.tx.tx.nTime) (nStakeMaxAge env) - env.nStakeMinAge := by
      unfold getWeight
      omega
    rw [if_pos hw, hs, if_pos (by omega)]
    rfl
  · have hn : ¬ 0 < getWeight env c.tx.tx.nTime now := by
      unfold getWeight
      omega
    rw [if_neg hn, if_neg (by simp [Weighs, ha])]
    exact (UInt64.add_zero _).symm

theorem foldl_addWeight (env : Env) (readTxIndex : Hash256 → Option CTxIndex) (now : Nat) (setCoins : List COutput)
    (w : StakeWeights) (hmin : 0 ≤ env.nStakeMinAge) : let w' := setCoins.foldl (addWeight env readTxIndex now) w
    w'.nWeight - w.nWeight = (w'.nMinWeight - w.nMinWeight) + (w'.nMaxWeight - w.nMaxWeight) ∧
      ((∀ c ∈ setCoins, Weighs env readTxIndex now c = true → (now : Int) - c.tx.tx.nTime ≤ nStakeMaxAge env) →
        w'.nWeight - w.nWeight =
          ((setCoins.filter (Weighs env readTxIndex now)).map fun c =>
            getuint64 (coinDayWeight env c.nValue c.tx.tx.nTime now)).sum) := by
  induction setCoins generalizing w with
  | nil => simp
  | cons c setCoins ih =>
    obtain ⟨hp, hsum⟩ := ih (addWeight env readTxIndex now w c)
    have hone := addWeight_parts env readTxIndex now w c
    rw [foldl_cons]
    refine ⟨by grind, fun hy => ?_⟩
    have hr := hsum fun c' hc' => hy c' (mem_cons_of_mem _ hc')
    have hf := addWeight_nWeight hmin w (hy c mem_cons_self)
    rw [filter_cons]
    split_ifs at hf ⊢
    · rw [map_cons, sum_cons, ← hr]
      grind
    · rw [← hr]
      grind

end

section
variable (s : Staker) (nEnigmaReservedBalancePercent : Int)

/-- The coins `GetStakeWeight` looks at, in their order; `none` where it returns false. -/
def weighedCoins : Option (List COutput) :=
  match s.reserveBalance with
  | none => none
  | some reserve =>
    let nReserveBalance := max reserve ((s.balance * nEnigmaReservedBalancePercent).tdiv 100)
    if s.balance ≤ nReserveBalance then none
    else
      match s.wallet.selectCoins .word (s.balance - nReserveBalance) s.nTime
          ((s.shuffle 0).apply (s.wallet.availableCoins s.view true)) (s.draws 0) with
      | none => none
      | some (setCoins, _) => if setCoins = [] then none else some (s.order.apply setCoins)

def getStakeWeight (w : StakeWeights) : Option StakeWeights :=
  (s.weighedCoins nEnigmaReservedBalancePercent).map fun setCoins =>
    setCoins.foldl (addWeight s.env s.node.txdb.readTxIndex s.nTime) w

/-- The weight `CheckStakeKernelHash` gives to the coins that are indexed and past the minimum age. -/
def kernelWeight (setCoins : List COutput) : UInt64 :=
  ((setCoins.filter (Weighs s.env s.node.txdb.readTxIndex s.nTime)).map fun c =>
    getuint64 (coinDayWeight s.env c.nValue c.tx.tx.nTime s.nTime)).sum

end

namespace WeightSample

noncomputable def staker (nTime : Nat) : Staker := { StakeSample.staker (24 * coin) with nTime }

end WeightSample

end Staker

end CloakCoin.Wallet
