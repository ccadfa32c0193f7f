import CloakCoin.Chain.Kernel
import Mathlib.Data.Nat.Bitwise

/-!
# Retargeting

`GetNextTargetRequired` over a chain of proof-of-work and proof-of-stake blocks, and `ComputeMaxBits`, by which
`ProcessBlock` judges a block that is not on the best chain. Between two blocks a target is a compact number:
`compactOfBigNum` rounds down to what 23 bits and an exponent can say.
-/

namespace CloakCoin.Chain

open List

variable {n : Nat}

/-! ## Compact numbers -/

def mpiSize (n : Nat) : Nat := if n = 0 then 0 else (n.log2 + 1) / 8 + 1

/-- The three bytes of the mantissa. -/
def compactWord (nSize n : Nat) : Nat := n <<< (8 * (3 - nSize)) >>> (8 * (nSize - 3))

/-- `CBigNum::GetCompact`. -/
def compactOfBigNum (n : Int) : Nat :=
  let nSize := mpiSize n.natAbs
  nSize <<< 24 + (if n < 0 then 0x00800000 else 0) + compactWord nSize n.natAbs

/-- `uint256::GetCompact`. -/
def getCompact (n : Nat) : Nat :=
  let nSize := (if n = 0 then 0 else n.log2 + 1 + 7) / 8
  let nCompact := compactWord nSize n
  if nCompact &&& 0x00800000 ≠ 0 then nCompact >>> 8 + (nSize + 1) <<< 24 else nCompact + nSize <<< 24

def getuint256 (n : Int) : Nat := n.natAbs % 2 ^ 256

/-- What a compact number keeps of `n`. -/
def truncated (n : Nat) : Nat := n / 256 ^ (mpiSize n - 3) * 256 ^ (mpiSize n - 3)

def IsCompact (n : Nat) : Prop := ∃ m k, m < 2 ^ 23 ∧ n = m * 256 ^ k

theorem mpiSize_bounds (hn : n ≠ 0) : 2 ^ (8 * mpiSize n - 9) ≤ n ∧ n < 2 ^ (8 * mpiSize n - 1) := by
  rw [mpiSize, if_neg hn]
  constructor
  · exact (Nat.pow_le_pow_right two_pos (by omega)).trans (Nat.log2_self_le hn)
  · exact Nat.lt_log2_self.trans_le (Nat.pow_le_pow_right two_pos (by omega))

theorem compactWord_eq (s n : Nat) : compactWord s n = n * 2 ^ 24 / 2 ^ (8 * s) := by
  rw [compactWord, Nat.shiftLeft_eq, Nat.shiftRight_eq_div_pow]
  rcases Nat.le_total s 3 with hs | hs
  · rw [show 24 = 8 * (3 - s) + 8 * s by omega, pow_add, ← mul_assoc, Nat.mul_div_left _ (by positivity),
      Nat.sub_eq_zero_of_le hs, Nat.mul_zero, pow_zero, Nat.div_one]
  · rw [show 8 * s = 8 * (s - 3) + 24 by omega, pow_add, Nat.mul_div_mul_right _ _ (by decide),
      Nat.sub_eq_zero_of_le hs]
    simp

theorem compactWord_lt (n : Nat) : compactWord (mpiSize n) n < 2 ^ 23 := by
  obtain rfl | hn := eq_or_ne n 0
  · simp [compactWord]
  have hlt := (mpiSize_bounds hn).2
  have hp : 2 ^ (8 * mpiSize n) = 2 * 2 ^ (8 * mpiSize n - 1) := by
    rw [← pow_succ', mpiSize, if_neg hn]
    congr 1
  rw [compactWord_eq, Nat.div_lt_iff_lt_mul (by positivity), hp]
  omega

theorem shift_compactWord (nSize n : Nat) : compactWord nSize n >>> (8 * (3 - nSize)) <<< (8 * (nSize - 3)) =
    n / 256 ^ (nSize - 3) * 256 ^ (nSize - 3) := by
  rw [compactWord, Nat.shiftLeft_eq, Nat.shiftRight_eq_div_pow, Nat.shiftRight_eq_div_pow, Nat.shiftLeft_eq,
    show 256 = 2 ^ 8 from rfl, ← pow_mul]
  rcases Nat.le_total nSize 3 with h | h
  · simp [Nat.sub_eq_zero_of_le h]
  · simp [Nat.sub_eq_zero_of_le h]

theorem truncated_le (n : Nat) : truncated n ≤ n := Nat.div_mul_le_self _ _

theorem isCompact_truncated (n : Nat) : IsCompact (truncated n) := by
  refine ⟨n / 256 ^ (mpiSize n - 3), mpiSize n - 3, ?_, rfl⟩
  obtain rfl | hn := eq_or_ne n 0
  · simp
  · rw [Nat.div_lt_iff_lt_mul (by positivity), show 256 = 2 ^ 8 from rfl, ← pow_mul, ← pow_add]
    exact (mpiSize_bounds hn).2.trans_le (Nat.pow_le_pow_right two_pos (by omega))

theorem le_truncated (hm : IsCompact m) (h : m ≤ n) : m ≤ truncated n := by
  have hst : ∀ c, c * 256 ^ (mpiSize n - 3) ≤ n → c * 256 ^ (mpiSize n - 3) ≤ truncated n := fun c hc =>
    Nat.mul_le_mul_right _ ((Nat.le_div_iff_mul_le (by positivity)).mpr hc)
  obtain ⟨m, k, hlt, rfl⟩ := hm
  rcases Nat.lt_or_ge k (mpiSize n - 3) with hk | hk
  · have hn : n ≠ 0 := by rintro rfl; simp [mpiSize] at hk
    calc m * 256 ^ k ≤ 2 ^ 23 * 256 ^ k := Nat.mul_le_mul_right _ hlt.le
      _ ≤ 2 ^ 15 * 256 ^ (mpiSize n - 3) := by
        rw [show 2 ^ 23 = 2 ^ 15 * 256 from rfl, mul_assoc, ← pow_succ']
        exact Nat.mul_le_mul_left _ (Nat.pow_le_pow_right (by decide) hk)
      _ ≤ truncated n := hst _ <| by
        refine le_trans (le_of_eq ?_) (mpiSize_bounds hn).1
        rw [show 256 = 2 ^ 8 from rfl, ← pow_mul, ← pow_add, show 15 + 8 * (mpiSize n - 3) = 8 * mpiSize n - 9 by omega]
  · rw [← Nat.sub_add_cancel hk, pow_add, ← mul_assoc] at h ⊢
    exact hst _ h

theorem compact_parts (n : Nat) : compactOfBigNum n >>> 24 = mpiSize n ∧
    compactOfBigNum n &&& 0x007fffff = compactWord (mpiSize n) n ∧ compactOfBigNum n &&& 0x00800000 = 0 := by
  have hlt := compactWord_lt n
  have hc : compactOfBigNum n = 2 ^ 24 * mpiSize n + compactWord (mpiSize n) n := by
    simp [compactOfBigNum, Nat.shiftLeft_eq, mul_comm]
  rw [hc, Nat.shiftRight_eq_div_pow, Nat.and_two_pow_sub_one_eq_mod _ 23,
    show 0x00800000 = 2 ^ 23 from rfl, Nat.and_two_pow]
  simp [Nat.testBit_eq_decide_div_mod_eq]
  omega

theorem bigNumOfCompact_compactOfBigNum (n : Nat) : bigNumOfCompact (compactOfBigNum n) = truncated n := by
  obtain ⟨hsi, hw, hsig⟩ := compact_parts n
  simp [bigNumOfCompact, hsi, hw, hsig, shift_compactWord, truncated]

theorem setCompact_compactOfBigNum {n : Nat} (h : n < 2 ^ 256) :
    setCompact (compactOfBigNum n) = (truncated n, false, false) := by
  obtain ⟨hsi, hwo, hsig⟩ := compact_parts n
  have hs : mpiSize n ≤ 33 := by
    by_contra hs
    have hn : n ≠ 0 := by rintro rfl; simp [mpiSize] at hs
    have := (mpiSize_bounds hn).1.trans_lt h
    rw [Nat.pow_lt_pow_iff_right (by decide)] at this
    omega
  have hw : mpiSize n = 33 → compactWord (mpiSize n) n < 2 ^ 16 := fun hs => by
    rw [hs, compactWord, Nat.shiftRight_eq_div_pow]
    omega
  simp [setCompact, hsi, hwo, hsig, shift_compactWord, truncated]
  refine ⟨(truncated_le n).trans_lt h, fun _ => ⟨⟨by omega, fun _ => hs⟩, fun hb => ?_⟩⟩
  by_contra h33
  have := hw (by omega)
  rw [show mpiSize n = 33 by omega] at hb this
  exact absurd hb (by simpa using Nat.lt_succ_iff.mp this)

theorem truncated_mono (h : m ≤ n) : truncated m ≤ truncated n :=
  le_truncated (isCompact_truncated m) ((truncated_le m).trans h)

/-! ## The two codecs -/

theorem compactOfBigNum_natCast (n : Nat) : compactOfBigNum n = compactWord (mpiSize n) n + mpiSize n <<< 24 := by
  simp [compactOfBigNum, add_comm]

/-- A mantissa whose top bit would be the sign is shifted by a byte more. -/
theorem getCompact_eq (n : Nat) : getCompact n = compactOfBigNum n := by
  obtain rfl | hn := eq_or_ne n 0
  · rfl
  have hw := compactWord_lt n
  have hm : mpiSize n = (n.log2 + 1) / 8 + 1 := by rw [mpiSize, if_neg hn]
  simp only [getCompact, if_neg hn, compactOfBigNum_natCast, show 0x00800000 = 2 ^ 23 from rfl, Nat.and_two_pow,
    Nat.testBit_eq_decide_div_mod_eq]
  by_cases hb : (n.log2 + 1) % 8 = 0
  · obtain ⟨s, hs⟩ : ∃ s, n.log2 + 1 = 8 * s := ⟨(n.log2 + 1) / 8, by omega⟩
    have hlo := Nat.log2_self_le hn
    have hhi : n < 2 ^ (n.log2 + 1) := Nat.lt_log2_self
    have hp : 2 ^ (n.log2 + 1) = 2 * 2 ^ n.log2 := pow_succ' ..
    have hword : compactWord s n / 2 ^ 23 = 1 := by
      rw [compactWord_eq, ← hs, Nat.div_div_eq_div_mul]
      apply Nat.div_eq_of_lt_le <;> omega
    rw [show (n.log2 + 1 + 7) / 8 = s by omega, show mpiSize n = s + 1 by omega, if_pos (by rw [hword]; decide),
      compactWord_eq (s + 1), compactWord_eq s, Nat.mul_succ, pow_add, ← Nat.div_div_eq_div_mul,
        Nat.shiftRight_eq_div_pow]
  · rw [show (n.log2 + 1 + 7) / 8 = mpiSize n by omega, if_neg (by rw [Nat.div_eq_of_lt hw]; decide)]

theorem isCompact_two_pow (k : Nat) : IsCompact (2 ^ k) := by
  refine ⟨2 ^ (k % 8), k / 8, Nat.pow_lt_pow_right (by decide) (by omega), ?_⟩
  rw [show 256 = 2 ^ 8 from rfl, ← pow_mul, ← pow_add, Nat.mod_add_div]

theorem compactOfBigNum_truncated (n : Nat) : compactOfBigNum (truncated n) = compactOfBigNum n := by
  obtain rfl | hn := eq_or_ne n 0
  · rfl
  obtain ⟨hlo, hhi⟩ := mpiSize_bounds hn
  have hs : mpiSize (truncated n) = mpiSize n := by
    have hlo := le_truncated (isCompact_two_pow _) hlo
    have ht : truncated n ≠ 0 := ((Nat.two_pow_pos _).trans_le hlo).ne'
    have h1 := (Nat.le_log2 ht).mpr hlo
    have h2 := (Nat.log2_lt ht).mpr ((truncated_le n).trans_lt hhi)
    rw [mpiSize, if_neg ht]
    rw [mpiSize, if_neg hn] at h1 h2 ⊢
    omega
  have hw : compactWord (mpiSize n) (truncated n) = compactWord (mpiSize n) n := by
    rw [compactWord, compactWord, truncated, show 256 = 2 ^ 8 from rfl, ← pow_mul]
    rcases Nat.le_total (mpiSize n) 3 with h | h
    · simp [Nat.sub_eq_zero_of_le h]
    · simp [Nat.sub_eq_zero_of_le h, Nat.shiftRight_eq_div_pow]
  rw [compactOfBigNum_natCast, compactOfBigNum_natCast, hs, hw]

theorem sub_truncated_lt (n : Nat) : n - truncated n < n / 2 ^ 15 + 1 := by
  have hmod := Nat.mod_lt n (show 256 ^ (mpiSize n - 3) > 0 by positivity)
  have hdiv := Nat.div_add_mod' n (256 ^ (mpiSize n - 3))
  rw [Nat.lt_succ_iff, Nat.le_div_iff_mul_le (by decide)]
  obtain h | h := Nat.le_total (mpiSize n) 3
  · simp [truncated, Nat.sub_eq_zero_of_le h]
  have hlo : 2 ^ 15 * 256 ^ (mpiSize n - 3) ≤ n := by
    rw [show 256 = 2 ^ 8 from rfl, ← pow_mul, ← pow_add, show 15 + 8 * (mpiSize n - 3) = 8 * mpiSize n - 9 by omega]
    exact (mpiSize_bounds (by rintro rfl; simp [mpiSize] at h)).1
  rw [truncated]
  omega

theorem bigNumOfCompact_of_setCompact (h : setCompact n = (t, false, false)) : bigNumOfCompact n = t := by
  simp only [setCompact, Prod.mk.injEq, Bool.and_eq_false_imp, bne_iff_ne,
    Bool.or_eq_false_iff, decide_eq_false_iff_not,
    not_lt, bne_eq_false_iff_eq, decide_eq_true_eq] at h
  obtain ⟨rfl, hneg, hov⟩ := h
  have hw : (n &&& 0x007fffff) >>> (8 * (3 - n >>> 24)) ≤ 0x007fffff := (Nat.shiftRight_le ..).trans Nat.and_le_right
  rw [bigNumOfCompact]
  generalize (n &&& 0x007fffff) >>> (8 * (3 - n >>> 24)) = nWord at *
  generalize n >>> 24 = nSize at *
  by_cases h0 : nWord = 0
  · simp [h0]
  obtain ⟨⟨h34, h33⟩, h32⟩ := hov h0
  have hlt : nWord <<< (8 * (nSize - 3)) < 2 ^ 256 := by
    rw [Nat.shiftLeft_eq]
    obtain h | rfl | rfl : nSize ≤ 32 ∨ nSize = 33 ∨ nSize = 34 := by omega
    · calc nWord * 2 ^ (8 * (nSize - 3)) ≤ 0x007fffff * 2 ^ 232 :=
          Nat.mul_le_mul hw (Nat.pow_le_pow_right two_pos (by omega))
        _ < 2 ^ 256 := by decide
    · omega
    · omega
  rw [if_neg (by simp [hneg h0]), Nat.mod_eq_of_lt hlt]

/-- **The two compact codecs agree**; rounding to a compact number is monotone, is done once, and loses less than one
part in `2 ^ 15`. -/
theorem compact_codecs_agree : (∀ n t, setCompact n = (t, false, false) → bigNumOfCompact n = t) ∧
    (∀ x < 2 ^ 256, getCompact x = compactOfBigNum x ∧ ∃ y, setCompact (getCompact x) = (y, false, false) ∧ y ≤ x ∧
      x - y < x / 2 ^ 15 + 1 ∧ getCompact y = getCompact x) ∧
    ∀ x x', x ≤ x' → x' < 2 ^ 256 → (setCompact (getCompact x)).1 ≤ (setCompact (getCompact x')).1 := by
  refine ⟨fun n t h => bigNumOfCompact_of_setCompact h,
    fun x hx => ⟨getCompact_eq x, truncated x, ?_⟩, fun x x' hle hx => ?_⟩
  · simp only [getCompact_eq]
    exact ⟨setCompact_compactOfBigNum hx, truncated_le x, sub_truncated_lt x, compactOfBigNum_truncated x⟩
  · rw [getCompact_eq, getCompact_eq, setCompact_compactOfBigNum (hle.trans_lt hx), setCompact_compactOfBigNum hx]
    exact truncated_mono hle

/-! ## `GetNextTargetRequired` -/

/-- What retargeting reads of a block. A chain has its last block first, and is one longer than its height. -/
structure TargetBlock where
  fProofOfStake : Bool
  nTime : Nat
  nBits : Nat
  deriving DecidableEq

def bnTargetLimit (fTestNet fProofOfStake : Bool) :
    Nat := if fTestNet || fProofOfStake then 2 ^ 254 - 1 else 2 ^ 236 - 1

def nTargetTimespan : Int := 60 * 30

def nStakeTargetSpacing : Int := 60

def nTargetSpacingWorkMax : Int := 3 * nStakeTargetSpacing

section
variable (fTestNet fProofOfStake : Bool)

def getLastBlockIndex : List TargetBlock → List TargetBlock
  | pindex :: pprev :: rest =>
    if pindex.fProofOfStake ≠ fProofOfStake then getLastBlockIndex (pprev :: rest) else pindex :: pprev :: rest
  | chain => chain

def lastTwo (chain : List TargetBlock) : Option (TargetBlock × TargetBlock) :=
  match getLastBlockIndex fProofOfStake chain with
  | pindexPrev :: pprev :: rest =>
    match getLastBlockIndex fProofOfStake (pprev :: rest) with
    | pindexPrevPrev :: _ :: _ => some (pindexPrev, pindexPrevPrev)
    | _ => none
  | _ => none

def actualSpacing (blocks : TargetBlock × TargetBlock) : Int :=
  let nActualSpacing : Int := blocks.1.nTime - blocks.2.nTime
  if nActualSpacing < 0 then 1 else if nActualSpacing > nTargetTimespan then nTargetTimespan else nActualSpacing

def targetSpacing (chain : List TargetBlock) : Int :=
  if fProofOfStake then nStakeTargetSpacing
  else min nTargetSpacingWorkMax
    (nStakeTargetSpacing * (1 + chain.length - (getLastBlockIndex fProofOfStake chain).length))

def retarget (nTargetSpacing nActualSpacing bnNew : Int) : Int :=
  let nInterval := nTargetTimespan / nTargetSpacing
  (bnNew * ((nInterval - 1) * nTargetSpacing + nActualSpacing + nActualSpacing)).tdiv ((nInterval + 1) * nTargetSpacing)

/-- The target before it is compared with the limit. -/
def nextTarget (chain : List TargetBlock) : Option Int :=
  (lastTwo fProofOfStake chain).map fun blocks =>
    retarget (targetSpacing fProofOfStake chain) (actualSpacing blocks) (bigNumOfCompact blocks.1.nBits)

def getNextTargetRequired (chain : List TargetBlock) : Nat :=
  match nextTarget fProofOfStake chain with
  | none => getCompact (bnTargetLimit fTestNet fProofOfStake)
  | some bnNew =>
    compactOfBigNum (if getuint256 bnNew > bnTargetLimit fTestNet fProofOfStake
      then bnTargetLimit fTestNet fProofOfStake
      else bnNew)

/-- Every block has the bits its parent asks for. -/
def Retargeted : List TargetBlock → Prop
  | [] => True
  | b :: rest => b.nBits = getNextTargetRequired fTestNet b.fProofOfStake rest ∧ Retargeted rest

end

variable {fTestNet kind : Bool} {chain : List TargetBlock} {p q b : TargetBlock} {rest : List TargetBlock}

theorem getLastBlockIndex_suffix : getLastBlockIndex kind chain <:+ chain := by
  fun_induction getLastBlockIndex kind chain with
  | case1 b q rest h ih => exact ih.trans (suffix_cons ..)
  | case2 => exact suffix_rfl
  | case3 => exact suffix_rfl

theorem kind_of_getLastBlockIndex (h : getLastBlockIndex kind chain = p :: q :: rest) : p.fProofOfStake = kind := by
  fun_induction getLastBlockIndex kind chain with
  | case1 b q rest hne ih => exact ih h
  | case2 b q rest heq => grind
  | case3 l hl => exact absurd h (hl _ _ _)

theorem lastTwo_spec (h : lastTwo kind chain = some (p, q)) : p ∈ chain ∧ p.fProofOfStake = kind ∧
    ∃ rest, getLastBlockIndex kind chain = p :: rest := by
  rw [lastTwo] at h
  split at h
  · rename_i p' pprev rest hl
    split at h
    · cases h
      exact ⟨getLastBlockIndex_suffix.subset (hl ▸ mem_cons_self), kind_of_getLastBlockIndex hl, _, hl⟩
    · cases h
  · cases h

theorem targetSpacing_cases (kind : Bool) (chain : List TargetBlock) : targetSpacing kind chain = 60 ∨
    targetSpacing kind chain = 120 ∨ targetSpacing kind chain = 180 := by
  have hle : (getLastBlockIndex kind chain).length ≤ chain.length := getLastBlockIndex_suffix.length_le
  simp only [targetSpacing, nStakeTargetSpacing, nTargetSpacingWorkMax]
  split <;> omega

theorem actualSpacing_bounds (blocks : TargetBlock × TargetBlock) :
    0 ≤ actualSpacing blocks ∧ actualSpacing blocks ≤ 1800 := by
  simp only [actualSpacing, nTargetTimespan]
  split_ifs <;> omega

section retarget
variable {s a t : Int} (hs : s = 60 ∨ s = 120 ∨ s = 180) (ha : 0 ≤ a) (ht : 0 ≤ t)
include hs ha ht

theorem retarget_eq : retarget s a t = t * (1800 - s + 2 * a) / (1800 + s) := by
  rw [retarget, Int.tdiv_eq_ediv_of_nonneg]
  · rcases hs with rfl | rfl | rfl <;> norm_num [nTargetTimespan, two_mul, add_assoc]
  · apply mul_nonneg ht
    rcases hs with rfl | rfl | rfl <;> norm_num [nTargetTimespan] <;> omega

theorem retarget_bounds : 0 ≤ retarget s a t ∧ retarget s a t * (1800 + s) ≤ t * (1800 - s + 2 * a) ∧
    retarget s a t * 1860 ≤ t * (1740 + 2 * a) := by
  rw [retarget_eq hs ha ht]
  have h0 : 0 ≤ t * (1800 - s + 2 * a) / (1800 + s) := Int.ediv_nonneg (mul_nonneg ht (by omega)) (by omega)
  have hle := Int.ediv_mul_le (t * (1800 - s + 2 * a)) (b := 1800 + s) (by omega)
  refine ⟨h0, hle, ?_⟩
  calc _ ≤ t * (1800 - s + 2 * a) / (1800 + s) * (1800 + s) := mul_le_mul_of_nonneg_left (by omega) h0
    _ ≤ t * (1800 - s + 2 * a) := hle
    _ ≤ t * (1740 + 2 * a) := mul_le_mul_of_nonneg_left (by omega) ht

theorem retarget_mono (h : a ≤ a') : retarget s a t ≤ retarget s a' t := by
  rw [retarget_eq hs ha ht, retarget_eq hs (ha.trans h) ht]
  exact Int.ediv_le_ediv (by omega) (mul_le_mul_of_nonneg_left (by omega) ht)

end retarget

def Limited (fTestNet : Bool) (b : TargetBlock) : Prop :=
  ∃ n, n ≤ bnTargetLimit fTestNet b.fProofOfStake ∧ b.nBits = compactOfBigNum (n : Nat)

theorem Limited.target (h : Limited fTestNet b) :
    0 ≤ bigNumOfCompact b.nBits ∧ bigNumOfCompact b.nBits ≤ bnTargetLimit fTestNet b.fProofOfStake := by
  obtain ⟨n, hn, hb⟩ := h
  rw [hb, bigNumOfCompact_compactOfBigNum]
  exact ⟨by omega, by exact_mod_cast (truncated_le n).trans hn⟩

theorem bnTargetLimit_lt (fTestNet kind : Bool) : bnTargetLimit fTestNet kind < 2 ^ 254 := by
  rw [bnTargetLimit]
  split <;> norm_num

theorem nextTarget_spec (hc : ∀ b ∈ chain, Limited fTestNet b) (hl : lastTwo kind chain = some (p, q)) :
    ∃ n : Nat, retarget (targetSpacing kind chain) (actualSpacing (p, q)) (bigNumOfCompact p.nBits) = n ∧
      n < 2 ^ 256 ∧ getNextTargetRequired fTestNet kind chain =
        compactOfBigNum (min n (bnTargetLimit fTestNet kind) : Nat) := by
  obtain ⟨hm, hk, -⟩ := lastTwo_spec hl
  obtain ⟨h0, hle⟩ := (hc p hm).target
  obtain ⟨ha, ha'⟩ := actualSpacing_bounds (p, q)
  obtain ⟨hn, -, hn'⟩ := retarget_bounds (targetSpacing_cases kind chain) ha h0
  obtain ⟨n, hx⟩ := Int.eq_ofNat_of_zero_le hn
  have hli := bnTargetLimit_lt fTestNet kind
  have hlt : n < 2 ^ 256 := by
    have := hn'.trans (mul_le_mul_of_nonneg_left (show 1740 + 2 * actualSpacing (p, q) ≤ 5340 by omega) h0)
    rw [hk] at hle
    omega
  refine ⟨n, hx, hlt, ?_⟩
  simp only [getNextTargetRequired, nextTarget, hl, Option.map_some, hx, getuint256, Int.natAbs_natCast,
    Nat.mod_eq_of_lt hlt]
  congr 1
  split <;> omega

theorem nextTarget_of_none (h : lastTwo kind chain = none) :
    getNextTargetRequired fTestNet kind chain = compactOfBigNum (bnTargetLimit fTestNet kind) := by
  simp [getNextTargetRequired, nextTarget, h, getCompact_eq]

theorem limited_next (hc : ∀ b ∈ chain, Limited fTestNet b) (nTime : Nat) :
    Limited fTestNet ⟨kind, nTime, getNextTargetRequired fTestNet kind chain⟩ := by
  cases hl : lastTwo kind chain with
  | none => exact ⟨_, le_rfl, nextTarget_of_none hl⟩
  | some blocks =>
    obtain ⟨n, -, -, hb⟩ := nextTarget_spec hc hl
    exact ⟨_, Nat.min_le_right .., hb⟩

theorem limited_of_retargeted (h : Retargeted fTestNet chain) : ∀ b ∈ chain, Limited fTestNet b := by
  induction chain with
  | nil => simp
  | cons b rest ih =>
    refine forall_mem_cons.mpr ⟨?_, ih h.2⟩
    obtain ⟨kind, nTime, nBits⟩ := b
    obtain rfl : nBits = getNextTargetRequired fTestNet kind rest := h.1
    exact limited_next (ih h.2) nTime

theorem Retargeted.suffix (h : Retargeted fTestNet chain) (hsu : rest <:+ chain) : Retargeted fTestNet rest := by
  induction chain with
  | nil => rwa [suffix_nil.mp hsu]
  | cons b chain ih =>
    obtain rfl | hsu := suffix_cons_iff.mp hsu
    · exact h
    · exact ih h.2 hsu

theorem bits_of_lastTwo_none (hc : Retargeted fTestNet chain) (hn : lastTwo kind chain = none)
    (hl : getLastBlockIndex kind chain = p :: rest) (hk : p.fProofOfStake = kind) :
    p.nBits = compactOfBigNum (bnTargetLimit fTestNet kind) := by
  have hsu : Retargeted fTestNet (p :: rest) := hc.suffix (hl ▸ getLastBlockIndex_suffix)
  rw [hsu.1, hk]
  apply nextTarget_of_none
  cases rest with
  | nil => rfl
  | cons q rest =>
    rw [lastTwo, hl] at hn
    rw [lastTwo]
    grind

theorem retarget_growth (hc : Retargeted fTestNet chain) (hla : getLastBlockIndex kind chain = p :: rest)
    (hk : p.fProofOfStake = kind) : let new := bigNumOfCompact (getNextTargetRequired fTestNet kind chain)
    let s := targetSpacing kind chain
    0 ≤ bigNumOfCompact p.nBits ∧ (new = bigNumOfCompact p.nBits ∨ ∃ q, lastTwo kind chain = some (p, q) ∧
      new * (1800 + s) ≤ bigNumOfCompact p.nBits * (1800 - s + 2 * actualSpacing (p, q)) ∧
      new * 1860 ≤ bigNumOfCompact p.nBits * (1740 + 2 * actualSpacing (p, q))) := by
  intro new s
  have hl := limited_of_retargeted hc
  have h0 := (hl p (getLastBlockIndex_suffix.subset (hla ▸ mem_cons_self))).target.1
  refine ⟨h0, ?_⟩
  cases hno : lastTwo kind chain with
  | none => exact .inl (by simp only [new, nextTarget_of_none hno, bits_of_lastTwo_none hc hno hla hk])
  | some blocks =>
    obtain ⟨p', q⟩ := blocks
    obtain ⟨n, hn, -, hb⟩ := nextTarget_spec hl hno
    obtain ⟨-, -, rest', hl'⟩ := lastTwo_spec hno
    obtain rfl : p' = p := (List.cons.inj (hl'.symm.trans hla)).1
    have hs := targetSpacing_cases kind chain
    obtain ⟨-, h1, h2⟩ := retarget_bounds hs (actualSpacing_bounds (p', q)).1 h0
    have hle : new ≤ n := by
      simp only [new, hb, bigNumOfCompact_compactOfBigNum]
      exact_mod_cast (truncated_le _).trans (Nat.min_le_left ..)
    rw [hn] at h1 h2
    exact .inr ⟨q, rfl, (mul_le_mul_of_nonneg_right hle (by omega)).trans h1, by omega⟩

/-- Everything but the time. -/
abbrev TargetBlock.timeless (b : TargetBlock) : Bool × Nat := (b.fProofOfStake, b.nBits)

theorem getLastBlockIndex_timeless (kind : Bool) (h : chain.map (·.timeless) = chain'.map (·.timeless)) :
    (getLastBlockIndex kind chain).map (·.timeless) = (getLastBlockIndex kind chain').map (·.timeless) := by
  induction chain generalizing chain' with
  | nil => rw [map_eq_nil_iff.mp h.symm]
  | cons b rest ih =>
    obtain ⟨b', rest', rfl, hb, hr⟩ := map_eq_cons_iff.mp h.symm
    cases rest with
    | nil =>
      rw [map_eq_nil_iff.mp hr]
      simpa [getLastBlockIndex] using hb.symm
    | cons q rest =>
      obtain ⟨q', rest', rfl, -, -⟩ := map_eq_cons_iff.mp hr
      have hk : b'.fProofOfStake = b.fProofOfStake := congrArg Prod.fst hb
      simp only [getLastBlockIndex, hk]
      split
      · exact ih hr.symm
      · exact h

/-- **Retargeting is bounded and monotone.** -/
theorem retarget_bounded_monotone (fTestNet kind : Bool) (chain : List TargetBlock)
    (hchain : Retargeted fTestNet chain) :
    let new := bigNumOfCompact (getNextTargetRequired fTestNet kind chain)
    (∀ bnNew, nextTarget kind chain = some bnNew → 0 ≤ bnNew ∧ bnNew ≤ 2 ^ 256 - 1) ∧
    new ≤ bnTargetLimit fTestNet kind ∧
    (∀ p rest, getLastBlockIndex kind chain = p :: rest → p.fProofOfStake = kind →
      new * 1860 ≤ bigNumOfCompact p.nBits * 5340 ∧
      (targetSpacing kind chain = 180 → new * 1980 ≤ bigNumOfCompact p.nBits * 5220)) ∧
    ∀ chain' p q p' q', Retargeted fTestNet chain' → chain.map (·.timeless) = chain'.map (·.timeless) →
      lastTwo kind chain = some (p, q) → lastTwo kind chain' = some (p', q') →
      (0 : Int) ≤ p.nTime - q.nTime → (p.nTime : Int) - q.nTime ≤ p'.nTime - q'.nTime →
      new ≤ bigNumOfCompact (getNextTargetRequired fTestNet kind chain') := by
  intro new
  have hli := limited_of_retargeted hchain
  refine ⟨fun bnNew hbn => ?_, ?_, fun p rest hl hk => ?_, ?_⟩
  · cases hl : lastTwo kind chain with
    | none => simp [nextTarget, hl] at hbn
    | some blocks =>
      obtain ⟨n, hn, hlt, -⟩ := nextTarget_spec hli hl
      simp only [nextTarget, hl, Option.map_some, Option.some.injEq, hn] at hbn
      omega
  · exact (limited_next hli 0).target.2
  · obtain ⟨h0, heq | ⟨q, -, h1, h2⟩⟩ := retarget_growth hchain hl hk
    · omega
    have ha := (actualSpacing_bounds (p, q)).2
    refine ⟨h2.trans (mul_le_mul_of_nonneg_left (by omega) h0), fun hs => ?_⟩
    rw [hs] at h1
    exact h1.trans (mul_le_mul_of_nonneg_left (by omega) h0)
  · intro chain' p q p' q' hc' hmap hl hl' h0 hle
    obtain ⟨hmem, -, rest, hp⟩ := lastTwo_spec hl
    obtain ⟨-, -, rest', hp'⟩ := lastTwo_spec hl'
    have hla := getLastBlockIndex_timeless kind hmap
    have hsp : targetSpacing kind chain' = targetSpacing kind chain := by
      have h1 := congrArg List.length hmap
      have h2 := congrArg List.length hla
      simp only [length_map] at h1 h2
      rw [targetSpacing, targetSpacing, h1, h2]
    have hb : p'.nBits = p.nBits := by
      rw [hp, hp'] at hla
      exact (congrArg Prod.snd (List.cons.inj hla).1).symm
    have ha : actualSpacing (p, q) ≤ actualSpacing (p', q') := by
      simp only [actualSpacing, nTargetTimespan]
      split_ifs <;> omega
    obtain ⟨n, hn, -, hnew⟩ := nextTarget_spec hli hl
    obtain ⟨n', hn', -, hne'⟩ := nextTarget_spec (limited_of_retargeted hc') hl'
    have hm := retarget_mono (targetSpacing_cases kind chain) (actualSpacing_bounds (p, q)).1 (hli p hmem).target.1 ha
    rw [hsp, hb] at hn'
    rw [hn, hn'] at hm
    simp only [new, hnew, hne', bigNumOfCompact_compactOfBigNum]
    exact_mod_cast truncated_mono (min_le_min_right _ (by exact_mod_cast hm))

namespace RetargetSample

def grow : List (Bool × Nat) → List TargetBlock
  | [] => []
  | (kind, nTime) :: rest => ⟨kind, nTime, getNextTargetRequired false kind (grow rest)⟩ :: grow rest

theorem retargeted_grow : ∀ l, Retargeted false (grow l)
  | [] => trivial
  | _ :: rest => ⟨rfl, retargeted_grow rest⟩

def lateTimes : List (Bool × Nat) := (true, 1812) :: ((List.range 13).map fun i => (true, 12 - i)) ++ [(false, 0)]

end RetargetSample

open RetargetSample

theorem retarget_bounded_monotone_three :
    bigNumOfCompact (getNextTargetRequired false true (grow [(true, 120), (true, 60), (false, 0)])) * 1860 ≤
      bigNumOfCompact (getNextTargetRequired false true (grow [(true, 60), (false, 0)])) * 5340 :=
  ((retarget_bounded_monotone false true _ (retargeted_grow [(true, 120), (true, 60), (false, 0)])).2.2.1 _ _ rfl rfl).1

/-! ## `ComputeMaxBits` -/

def maxBitsLoop (bnTargetLimit : Nat) (bnResult nTime : Int) : Int :=
  if 0 < nTime ∧ getuint256 bnResult < bnTargetLimit then maxBitsLoop bnTargetLimit
    (bnResult * 2) (nTime - 24 * 60 * 60)
  else bnResult
  termination_by nTime.toNat

def computeMaxBits (bnTargetLimit nBase : Nat) (nTime : Int) : Nat :=
  let bnResult := maxBitsLoop bnTargetLimit (bigNumOfCompact nBase * 2) nTime
  compactOfBigNum (if getuint256 bnResult > bnTargetLimit then bnTargetLimit else bnResult)

def tooLittleProof (fTestNet : Bool) (pcheckpoint : List TargetBlock) (b : TargetBlock) (deltaTime : Int) : Bool :=
  let (bnNewBlock, _, fOverflow) := setCompact b.nBits
  match getLastBlockIndex b.fProofOfStake pcheckpoint with
  | [] => false
  | last :: _ =>
    let bnRequired := setCompact (computeMaxBits (bnTargetLimit fTestNet b.fProofOfStake) last.nBits deltaTime)
    fOverflow || bnNewBlock > bnRequired.1

/-- The seconds the last spacing was over the target of 60. -/
def late (kind : Bool) (chain : List TargetBlock) : Int :=
  match lastTwo kind chain with
  | some blocks => max 0 (actualSpacing blocks - 60)
  | none => 0

/-- The seconds together, at the blocks of the kind after `chain`. -/
def lateness (kind : Bool) (chain : List TargetBlock) : List TargetBlock → Int
  | [] => 0
  | b :: rest => lateness kind chain rest + if b.fProofOfStake = kind then late kind (rest ++ chain) else 0

theorem maxBitsLoop_bounds {limit : Nat} (hl : limit < 2 ^ 254) {r t : Int} (h0 : 0 ≤ r) (hr : r ≤ 2 * limit) :
    r ≤ maxBitsLoop limit r t ∧ maxBitsLoop limit r t ≤ 2 * limit := by
  fun_induction maxBitsLoop limit r t with
  | case1 r t h ih =>
    rw [getuint256] at h
    omega
  | case2 r t h => exact ⟨le_rfl, hr⟩

theorem le_computeMaxBits {limit nBase n : Nat} (hl : limit < 2 ^ 254) (t : Int) (h0 : 0 ≤ bigNumOfCompact nBase)
    (hb : bigNumOfCompact nBase ≤ limit) (hn : IsCompact n) (hle : n ≤ bigNumOfCompact nBase * 2) (hnl : n ≤ limit) :
    ∃ m, n ≤ truncated m ∧ m < 2 ^ 256 ∧ computeMaxBits limit nBase t = compactOfBigNum (m : Nat) := by
  obtain ⟨h1, h2⟩ := maxBitsLoop_bounds hl (t := t) (r := bigNumOfCompact nBase * 2) (by omega) (by omega)
  rw [computeMaxBits]
  obtain ⟨r, hr⟩ := Int.eq_ofNat_of_zero_le (show 0 ≤ maxBitsLoop limit (bigNumOfCompact nBase * 2) t by omega)
  refine ⟨min r limit, le_truncated hn (by omega), by omega, ?_⟩
  simp only [getuint256]
  congr 1
  split_ifs <;> omega

theorem getLastBlockIndex_cons (hne : chain ≠ []) : getLastBlockIndex kind (b :: chain) =
    if b.fProofOfStake ≠ kind then getLastBlockIndex kind chain else b :: chain := by
  obtain ⟨q, rest, rfl⟩ := exists_cons_of_ne_nil hne
  rfl

theorem mul_sub_le {T T' T0 L x : Int} (hT : 0 ≤ T) (hL : 0 ≤ L) (hx : 0 ≤ x) (hle : L + x ≤ 930)
    (hst : T' * 930 ≤ T * (930 + x)) (h : T * (930 - L) ≤ T0 * 930) : T' * (930 - (L + x)) ≤ T0 * 930 := by
  have h2 : T * ((930 + x) * (930 - (L + x))) ≤ T * (930 * (930 - L)) := mul_le_mul_of_nonneg_left (by nlinarith) hT
  nlinarith

theorem target_le_of_lateness (hc : Retargeted fTestNet (seg ++ chain))
    (hl : getLastBlockIndex kind chain = p :: rest) (hk : p.fProofOfStake = kind) :
    ∃ b rest, getLastBlockIndex kind (seg ++ chain) = b :: rest ∧ b.fProofOfStake = kind ∧
      0 ≤ lateness kind chain seg ∧ (lateness kind chain seg ≤ 930 →
      bigNumOfCompact b.nBits * (930 - lateness kind chain seg) ≤ bigNumOfCompact p.nBits * 930) := by
  induction seg with
  | nil => exact ⟨p, rest, hl, hk, by simp [lateness]⟩
  | cons b seg ih =>
    rw [cons_append] at hc ⊢
    obtain ⟨b', rest', hl', hk', h0, hle⟩ := ih hc.2
    have hne : seg ++ chain ≠ [] := by
      intro hni
      simp [hni, getLastBlockIndex] at hl'
    rw [getLastBlockIndex_cons hne, lateness]
    by_cases hb : b.fProofOfStake = kind
    · rw [if_neg (not_not.mpr hb), if_pos hb]
      obtain ⟨hT, hg⟩ := retarget_growth hc.2 hl' hk'
      have hla : 0 ≤ late kind (seg ++ chain) := by
        rw [late]
        split <;> omega
      refine ⟨b, _, rfl, hb, by omega, fun hsu => mul_sub_le hT h0 hla hsu ?_ (hle (by omega))⟩
      rw [hc.1, hb]
      obtain heq | ⟨q, hq, -, hn⟩ := hg
      · rw [heq]
        exact mul_le_mul_of_nonneg_left (by omega) hT
      have hsl : 1740 + 2 * actualSpacing (b', q) ≤ 2 * (930 + late kind (seg ++ chain)) := by
        simp only [late, hq]
        omega
      have := hn.trans (mul_le_mul_of_nonneg_left hsl hT)
      linarith
    · rw [if_pos hb, if_neg hb, add_zero]
      exact ⟨b', rest', hl', hk', h0, hle⟩

end CloakCoin.Chain
