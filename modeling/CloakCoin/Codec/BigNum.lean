import CloakCoin.Lib.Crypto
import Mathlib.Data.Nat.Size

/-!
# `CBigNum`

The conversions of `bignum.h` go through the MPI format of OpenSSL: a length of four bytes, then the magnitude, most
significant byte first, with the sign in its top bit. A big number is an integer.
-/

namespace CloakCoin.Codec

open Lib List

namespace CBigNum

/-! ## The MPI format -/

/-- Magnitude bytes without leading zeros, with room for the sign and the sign. -/
def mpiLoop (fNegative : Bool) : Bool → Bytes → Bytes
  | _, [] => []
  | true, c :: rest =>
    if c = 0 then mpiLoop fNegative true rest
    else if 0x80 ≤ c then (if fNegative then 0x80 else 0) :: c :: mpiLoop fNegative false rest
    else (if fNegative then c ||| 0x80 else c) :: mpiLoop fNegative false rest
  | false, c :: rest => c :: mpiLoop fNegative false rest

/-- The length that is written has 32 bits. -/
def withSize (b : Bytes) : Bytes := toBytes 4 b.length ++ b

def clearSign : Bytes → Bytes
  | [] => []
  | c :: rest => (c &&& 0x7f) :: rest

/-- `BN_mpi2bn`, which refuses a wrong length. -/
def mpi2bn (d : Bytes) : Option Int :=
  if d.length < 4 ∨ ofBytes (d.take 4) + 4 ≠ d.length then none
  else if 0x80 ≤ (d.drop 4).headD 0 then some (-ofBytes (clearSign (d.drop 4)))
    else some (ofBytes (clearSign (d.drop 4)))

def bn2mpi (x : Int) : Bytes :=
  withSize (mpiLoop (decide (x < 0)) true (toBytes ((x.natAbs.size + 7) / 8) x.natAbs))

/-! ## Conversions -/

/-- The magnitude of a negative number is taken after adding one, which avoids the overflow of `-sn`. -/
def setint64 (sn : Int) : Option Int :=
  let n := if sn < 0 then (-(sn + 1)).toNat + 1 else sn.toNat
  mpi2bn (withSize (mpiLoop (decide (sn < 0)) true (toBytes 8 n)))

def setuint64 (n : Nat) : Option Int := mpi2bn (withSize (mpiLoop false true (toBytes 8 n)))

def setuint256 (n : Nat) : Option Int := mpi2bn (withSize (mpiLoop false true (toBytes 32 n)))

/-- The last `k` bytes, without the sign. -/
def getLow (k : Nat) (x : Int) : Nat :=
  let vch := clearSign ((bn2mpi x).drop 4)
  ofBytes (vch.drop (vch.length - k))

def getuint64 : Int → Nat := getLow 8

def getuint256 : Int → Nat := getLow 32

def getvch (x : Int) : Bytes := ((bn2mpi x).drop 4).reverse

def setvch (vch : Bytes) : Option Int := mpi2bn (withSize vch.reverse)

/-! ## What the bytes say -/

theorem mpiLoop_false (fNegative : Bool) (b : Bytes) : mpiLoop fNegative false b = b := by
  induction b with
  | nil => rfl
  | cons c b ih => rw [mpiLoop, ih]

theorem signBit {c : UInt8} (h : ¬0x80 ≤ c) : c &&& 0x7f = c ∧ 0x80 ≤ c ||| 0x80 ∧ (c ||| 0x80) &&& 0x7f = c := by
  have hc : ∀ n < 0x80, UInt8.ofNat n &&& 0x7f = UInt8.ofNat n ∧ 0x80 ≤ UInt8.ofNat n ||| 0x80 ∧
      (UInt8.ofNat n ||| 0x80) &&& 0x7f = UInt8.ofNat n := by decide
  simpa using hc c.toNat (Nat.lt_of_not_le h)

theorem mpiLoop_spec (fNegative : Bool) (b : Bytes) : ofBytes (clearSign (mpiLoop fNegative true b)) = ofBytes b ∧
    (0x80 ≤ (mpiLoop fNegative true b).headD 0 ↔ fNegative = true ∧ ofBytes b ≠ 0) ∧
    (mpiLoop fNegative true b).length ≤ b.length + 1 := by
  induction b with
  | nil => simp [mpiLoop, clearSign, ofBytes]
  | cons c b ih =>
    rw [mpiLoop]
    split
    · rename_i h0
      subst h0
      have hz : ofBytes (0 :: b) = ofBytes b := by simp [ofBytes_cons]
      rw [hz, length_cons]
      exact ⟨ih.1, ih.2.1, by omega⟩
    rename_i h0
    have hne : ofBytes (c :: b) ≠ 0 := by
      have hc : c.toNat ≠ 0 := UInt8.toNat_inj.not.mpr h0
      rw [ofBytes_cons]
      positivity
    rw [mpiLoop_false]
    split
    · have hz : ofBytes (0 :: c :: b) = ofBytes (c :: b) := by simp [ofBytes_cons]
      cases fNegative <;> exact ⟨hz, by simp [hne], by simp⟩
    · rename_i h
      obtain ⟨h1, h2, h3⟩ := signBit h
      cases fNegative <;> simp [clearSign, h1, h2, h3, hne, h]

theorem mpi2bn_withSize (h : b.length < 2 ^ 32) : mpi2bn (withSize b) =
    if 0x80 ≤ b.headD 0 then some (-ofBytes (clearSign b) : Int) else some (ofBytes (clearSign b) : Int) := by
  have hl : (toBytes 4 b.length).length = 4 := length_toBytes ..
  rw [mpi2bn, withSize, if_neg, drop_left' hl]
  rw [take_left' hl, ofBytes_toBytes (by omega), length_append, hl]
  omega

/-- The loop writes the number of the bytes, with the sign. -/
theorem mpi2bn_mpiLoop (fNegative : Bool) (h : b.length + 1 < 2 ^ 32) :
    mpi2bn (withSize (mpiLoop fNegative true b)) = some (if fNegative then -ofBytes b else ofBytes b : Int) := by
  obtain ⟨hv, hs, hl⟩ := mpiLoop_spec fNegative b
  rw [mpi2bn_withSize (by omega), hv]
  simp only [hs]
  by_cases h0 : ofBytes b = 0 <;> cases fNegative <;> simp [h0]

theorem drop_bn2mpi (x : Int) : (bn2mpi x).drop 4 =
    mpiLoop (decide (x < 0)) true (toBytes ((x.natAbs.size + 7) / 8) x.natAbs) :=
  drop_left' (length_toBytes ..)

theorem natAbs_lt (x : Int) : x.natAbs < 256 ^ ((x.natAbs.size + 7) / 8) := by
  rw [show 256 = 2 ^ 8 from rfl, ← pow_mul]
  exact (Nat.lt_size_self _).trans_le (Nat.pow_le_pow_right two_pos (by omega))

theorem getLow_eq (k : Nat) (x : Int) : getLow k x = x.natAbs % 256 ^ k := by
  rw [getLow, drop_bn2mpi, ofBytes_drop, (mpiLoop_spec _ _).1, ofBytes_toBytes (natAbs_lt x)]

/-- **The conversions of `CBigNum` are exact.** OpenSSL holds numbers below `2 ^ (2 ^ 29)`. -/
theorem conversions_exact : (∀ v : Int, -2 ^ 63 ≤ v → v < 2 ^ 63 → setint64 v = some v) ∧
    (∀ u < 2 ^ 64, setuint64 u = some (u : Int) ∧ getuint64 u = u) ∧
    (∀ w < 2 ^ 256, setuint256 w = some (w : Int) ∧ getuint256 w = w) ∧
    (∀ x : Int, 0 ≤ x → (getuint256 x : Int) = x % 2 ^ 256) ∧
    ∀ x : Int, x.natAbs < 2 ^ (2 ^ 29) → setvch (getvch x) = some x := by
  refine ⟨fun v _ _ => ?_, fun u hu => ⟨?_, ?_⟩, fun w hw => ⟨?_, ?_⟩, fun x hx => ?_, fun x hx => ?_⟩
  · rw [setint64, mpi2bn_mpiLoop _ (by simp), ofBytes_toBytes (by split <;> omega)]
    simp only [decide_eq_true_eq]
    split <;> simp only [Option.some.injEq] <;> omega
  · rw [setuint64, mpi2bn_mpiLoop _ (by simp), ofBytes_toBytes (by simpa using hu)]
    rfl
  · rw [getuint64, getLow_eq, Int.natAbs_natCast]
    exact Nat.mod_eq_of_lt hu
  · rw [setuint256, mpi2bn_mpiLoop _ (by simp), ofBytes_toBytes (by simpa using hw)]
    rfl
  · rw [getuint256, getLow_eq, Int.natAbs_natCast]
    exact Nat.mod_eq_of_lt hw
  · rw [getuint256, getLow_eq]
    omega
  · have hl : (x.natAbs.size + 7) / 8 + 1 < 2 ^ 32 := by
      have := Nat.size_le.mpr hx
      omega
    rw [setvch, getvch, reverse_reverse, drop_bn2mpi, mpi2bn_mpiLoop _ (by simpa using hl),
      ofBytes_toBytes (natAbs_lt x)]
    simp only [decide_eq_true_eq]
    split <;> simp only [Option.some.injEq] <;> omega

end CBigNum

end CloakCoin.Codec
