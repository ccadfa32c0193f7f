import CloakCoin.Chain.Accept
import CloakCoin.Chain.Sample
import Mathlib.Data.Nat.Size

/-!
# Chain trust

`GetBlockTrust` as 256-bit arithmetic: the complement, the sum and the division by shifts and subtractions. Targets of
at least `2 ^ 32` keep the trust of a block below `2 ^ 225`, so that no chain of fewer than `2 ^ 31` blocks overflows.
-/

namespace CloakCoin.Chain

open List Option

/-! ## 256-bit numbers -/

/-- The loop of `base_uint::operator/=`: the turns left, `num`, `div` and the quotient. -/
def divideLoop : Nat → Nat → Nat → Nat → Nat
  | 0, _, _, quotient => quotient
  | shift + 1, num, div, quotient =>
    if div ≤ num then divideLoop shift (num - div) (div / 2) (quotient ||| 2 ^ shift)
    else divideLoop shift num (div / 2) quotient

/-- `none` when it throws. -/
def divide (num div : Nat) : Option Nat :=
  if div.size = 0 then none
  else if div.size > num.size then some 0
  else some (divideLoop (num.size - div.size + 1) num (div <<< (num.size - div.size) % 2 ^ 256) 0)

theorem divideLoop_eq (hd : 0 < d) (hn : num < d * 2 ^ k) (hq : 2 ^ k ∣ q) :
    divideLoop k num (d * 2 ^ k / 2) q = q + num / d := by
  induction k generalizing num q with
  | zero =>
    rw [pow_zero, mul_one] at hn
    simp [divideLoop, Nat.div_eq_of_lt hn]
  | succ k ih =>
    have hh : d * 2 ^ (k + 1) / 2 = d * 2 ^ k := by
      rw [pow_succ, ← mul_assoc, Nat.mul_div_cancel _ (by decide)]
    rw [pow_succ, ← mul_assoc] at hn
    obtain ⟨c, rfl⟩ := hq
    have hdv : 2 ^ k ∣ 2 ^ (k + 1) * c := Dvd.dvd.mul_right (pow_dvd_pow 2 (Nat.le_succ k)) c
    unfold divideLoop
    rw [hh]
    split
    · rename_i hle
      have hb : 2 ^ (k + 1) * c ||| 2 ^ k = 2 ^ (k + 1) * c + 2 ^ k :=
        (Nat.two_pow_add_eq_or_of_lt (Nat.pow_lt_pow_right (by decide) (Nat.lt_succ_self k)) c).symm
      have hr : num / d = (num - d * 2 ^ k) / d + 2 ^ k := by
        rw [← Nat.add_mul_div_left _ _ hd, Nat.sub_add_cancel hle]
      rw [hb, ih (by omega) ((Nat.dvd_add_right hdv).mpr dvd_rfl), hr]
      omega
    · exact ih (by omega) hdv

theorem divide_eq (hn : num < 2 ^ 256) (hd : 0 < d) : divide num d = some (num / d) := by
  have hs : 0 < d.size := Nat.size_pos.mpr hd
  have hlo : 2 ^ (d.size - 1) ≤ d := Nat.lt_size.mp (by omega)
  unfold divide
  rw [if_neg (by omega)]
  split
  · have hlt : num < d := (Nat.size_le.mp le_rfl).trans_le ((Nat.pow_le_pow_right (by decide) (by omega)).trans hlo)
    rw [Nat.div_eq_of_lt hlt]
  have hb : num.size ≤ 256 := Nat.size_le.mpr hn
  have ha : d * 2 ^ (num.size - d.size) < 2 ^ 256 := by
    calc d * 2 ^ (num.size - d.size) < 2 ^ d.size * 2 ^ (num.size - d.size) := by
          gcongr
          exact Nat.size_le.mp le_rfl
      _ = 2 ^ num.size := by rw [← pow_add]; congr 1; omega
      _ ≤ 2 ^ 256 := Nat.pow_le_pow_right (by decide) hb
  have hc : num < d * 2 ^ (num.size - d.size + 1) := by
    calc num < 2 ^ num.size := Nat.size_le.mp le_rfl
      _ = 2 ^ (d.size - 1) * 2 ^ (num.size - d.size + 1) := by rw [← pow_add]; congr 1; omega
      _ ≤ d * 2 ^ (num.size - d.size + 1) := Nat.mul_le_mul_right _ hlo
  rw [Nat.shiftLeft_eq, Nat.mod_eq_of_lt ha]
  have hl := divideLoop_eq hd hc (dvd_zero _)
  rw [pow_succ, ← mul_assoc, Nat.mul_div_cancel _ (by decide), zero_add] at hl
  rw [hl]

/-! ## `GetBlockTrust` -/

/-- With every operation modulo `2 ^ 256`. -/
def getBlockTrust256 (env : Env) (nBits : Nat) (fProofOfStake : Bool) : Option Nat :=
  let (bnTarget, fNegative, fOverflow) := setCompact nBits
  if fNegative || fOverflow || bnTarget == 0 then some 0
  else if fProofOfStake then
    (divide (2 ^ 256 - 1 - bnTarget) ((bnTarget + 1) % 2 ^ 256)).map fun n => (n + 1) % 2 ^ 256
  else (divide env.bnProofOfWorkLimit ((bnTarget + 1) % 2 ^ 256)).map fun bnPoWTrust =>
    if bnPoWTrust > 1 then bnPoWTrust else 1

/-- `nBits` is a valid compact form of a target that is not tiny. -/
def Target (nBits t : Nat) : Prop := setCompact nBits = (t, false, false) ∧ 2 ^ 32 ≤ t

variable {env : Env} {nBits t : Nat}

theorem Target.lt (h : Target nBits t) : t + 1 < 2 ^ 256 := by
  obtain ⟨hse, hl⟩ := h
  have hw : (nBits &&& 0x007fffff) >>> (8 * (3 - nBits >>> 24)) ≤ 0x007fffff :=
    (Nat.shiftRight_le ..).trans Nat.and_le_right
  have ht : t = _ := (congrArg Prod.fst hse).symm
  simp only [setCompact, Nat.shiftLeft_eq] at ht
  cases hs : nBits >>> 24 - 3 with
  | zero =>
    rw [hs, Nat.mul_zero, pow_zero] at ht
    omega
  | succ k =>
    -- the low bit of a shifted mantissa is clear
    have he : 2 ∣ t := by
      rw [ht, hs, Nat.dvd_mod_iff (by decide), Nat.mul_succ, pow_add]
      exact Dvd.dvd.mul_left (Dvd.dvd.mul_left (by decide) _) _
    omega

/-- The trust of a block, without the bounds of the machine. -/
def exactTrust (env : Env) (t : Nat) (fProofOfStake : Bool) : Nat :=
  if fProofOfStake then 2 ^ 256 / (t + 1) else max 1 (env.bnProofOfWorkLimit / (t + 1))

theorem Target.getBlockTrust_eq (h : Target nBits t) (fProofOfStake : Bool) :
    CBlockIndex.getBlockTrust env nBits fProofOfStake = exactTrust env t fProofOfStake := by
  have hlt := h.lt
  have hp : (t == 0) = false := beq_false_of_ne (by have := h.2; omega)
  have hc : (2 ^ 256 - 1 - t) / (t + 1) + 1 = 2 ^ 256 / (t + 1) := by
    rw [← Nat.add_div_right _ (Nat.succ_pos t)]
    congr 1
    omega
  simp only [CBlockIndex.getBlockTrust, exactTrust, h.1, hp, hc, max_comm, Bool.or_false, Bool.false_eq_true,
    if_false]

theorem Target.exactTrust_bounds (h : Target nBits t) (hl : env.bnProofOfWorkLimit < 2 ^ 256) (fProofOfStake : Bool) :
    0 < exactTrust env t fProofOfStake ∧ exactTrust env t fProofOfStake ≤ 2 ^ 224 := by
  have hq {n : Nat} (hn : n ≤ 2 ^ 256) : n / (t + 1) ≤ 2 ^ 224 :=
    (Nat.div_le_div hn (h.2.trans (Nat.le_succ t)) (by decide)).trans (by decide)
  have ho : 0 < 2 ^ 256 / (t + 1) := Nat.div_pos h.lt.le (Nat.succ_pos t)
  have hw := hq hl.le
  unfold exactTrust
  split
  · exact ⟨ho, hq le_rfl⟩
  · omega

theorem Target.getBlockTrust256_eq (h : Target nBits t) (hl : env.bnProofOfWorkLimit < 2 ^ 256) (fProofOfStake : Bool) :
    getBlockTrust256 env nBits fProofOfStake = some (exactTrust env t fProofOfStake) := by
  have hlt := h.lt
  have hb := (h.exactTrust_bounds hl fProofOfStake).2
  rw [← h.getBlockTrust_eq] at hb ⊢
  have hp : (t == 0) = false := beq_false_of_ne (by have := h.2; omega)
  simp only [getBlockTrust256, CBlockIndex.getBlockTrust, h.1, hp, Nat.mod_eq_of_lt hlt] at hb ⊢
  have hs : 0 < t + 1 := Nat.succ_pos t
  rw [divide_eq (by omega) hs, divide_eq hl hs]
  cases fProofOfStake with
  | true =>
    have hsu : (2 ^ 256 - 1 - t) / (t + 1) + 1 ≤ 2 ^ 224 := hb
    simp only [map_some, Nat.mod_eq_of_lt (hsu.trans_lt (show 2 ^ 224 < 2 ^ 256 by decide))]
    rfl
  | false =>
    show some _ = some (max (env.bnProofOfWorkLimit / (t + 1)) 1)
    dsimp only
    congr 1
    split <;> omega

/-! ## Chains -/

/-- A block with its ancestors, newest first, with the trust `AddToBlockIndex` computes. -/
def ChainTrust (env : Env) : List CBlockIndex → Prop
  | [] => True
  | p :: rest =>
    p.bnChainTrust = ((rest.head?.map CBlockIndex.bnChainTrust).getD 0 +
      CBlockIndex.getBlockTrust env p.nBits p.fProofOfStake) % 2 ^ 256 ∧ ChainTrust env rest

theorem chainTrust_sum (hl : env.bnProofOfWorkLimit < 2 ^ 256) (hc : ChainTrust env chain)
    (hlen : chain.length < 2 ^ 31) (target : CBlockIndex → Nat) (ht : ∀ p ∈ chain, Target p.nBits (target p)) :
    (chain.head?.map CBlockIndex.bnChainTrust).getD 0 =
        (chain.map fun p => exactTrust env (target p) p.fProofOfStake).sum ∧
      (chain.map fun p => exactTrust env (target p) p.fProofOfStake).sum ≤ chain.length * 2 ^ 224 := by
  induction chain with
  | nil => simp
  | cons p rest ih =>
    obtain ⟨htr, hr⟩ := hc
    rw [length_cons] at hlen
    obtain ⟨hh, hle⟩ := ih hr (by omega) fun q hq => ht q (mem_cons_of_mem _ hq)
    have hp := ht p mem_cons_self
    have hb := (hp.exactTrust_bounds hl p.fProofOfStake).2
    rw [hh, hp.getBlockTrust_eq] at htr
    simp only [head?_cons, map_some, getD_some, map_cons, sum_cons, length_cons, htr]
    constructor
    · omega
    · omega

/-- **Chain trust is exact and grows**: the 256-bit computation gives the quotients, and the trust of every block of a
chain is their sum and more than its parent's. -/
theorem chain_trust_exact (env : Env) (hlimit : env.bnProofOfWorkLimit < 2 ^ 256) : (∀ nBits t, Target nBits t →
      getBlockTrust256 env nBits true = some (2 ^ 256 / (t + 1)) ∧
      getBlockTrust256 env nBits false = some (max 1 (env.bnProofOfWorkLimit / (t + 1)))) ∧
    ∀ (chain : List CBlockIndex) (target : CBlockIndex → Nat), ChainTrust env chain → chain.length < 2 ^ 31 →
      (∀ p ∈ chain, Target p.nBits (target p)) → ∀ p rest, chain = p :: rest →
        p.bnChainTrust = (chain.map fun q => exactTrust env (target q) q.fProofOfStake).sum ∧
        (rest.head?.map CBlockIndex.bnChainTrust).getD 0 < p.bnChainTrust := by
  refine ⟨fun nBits t h => ⟨h.getBlockTrust256_eq hlimit true, h.getBlockTrust256_eq hlimit false⟩, ?_⟩
  rintro chain target hc hlen ht p rest rfl
  have hall := (chainTrust_sum hlimit hc hlen target ht).1
  have hb := (chainTrust_sum hlimit hc.2 (by rw [length_cons] at hlen; omega) target
    fun q hq => ht q (mem_cons_of_mem _ hq)).1
  have hpos := ((ht p mem_cons_self).exactTrust_bounds hlimit p.fProofOfStake).1
  simp only [head?_cons, map_some, getD_some] at hall
  rw [hall, hb, map_cons, sum_cons]
  omega

theorem chain_trust_exact_one : Target 0x1d00ffff (0xffff * 2 ^ 208) ∧
      getBlockTrust256 (Sample.env [] []) 0x1d00ffff true = some (2 ^ 256 / (0xffff * 2 ^ 208 + 1)) :=
  have h : Target 0x1d00ffff (0xffff * 2 ^ 208) := ⟨by decide, by decide⟩
  ⟨h, ((chain_trust_exact (Sample.env [] []) (by decide)).1 _ _ h).1⟩

end CloakCoin.Chain
