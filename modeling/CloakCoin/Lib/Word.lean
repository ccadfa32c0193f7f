import Mathlib.Tactic
import Mathlib.Data.Stream.Defs

/-!
# 64-bit amounts and random draws

`int64 x` and `uint64 x` are what a signed or unsigned 64-bit variable holds after `x` was stored in
it. Both keep `x` modulo `2 ^ 64`, so that a computation that wraps is followed by congruences and read
back with `int64_of_fits`.

A random source is the stream of the numbers it will produce.
-/

namespace CloakCoin.Lib

variable {x : Int}

def int64 (x : Int) : Int := x.bmod (2 ^ 64)

/-- The value kept in a 32-bit signed integer. -/
def int32 (x : Int) : Int := x.bmod (2 ^ 32)

def uint64 (x : Int) : Nat := (x % 2 ^ 64).toNat

/-- A value of `int64_t`. -/
def Fits (x : Int) : Prop := -2 ^ 63 ≤ x ∧ x < 2 ^ 63

instance (x : Int) : Decidable (Fits x) := inferInstanceAs (Decidable (_ ∧ _))

theorem int64_modEq (x : Int) : int64 x ≡ x [ZMOD 2 ^ 64] := by
  have h := Int.bmod_emod (x := x) (m := 2 ^ 64)
  exact_mod_cast h

theorem uint64_modEq (x : Int) : (uint64 x : Int) ≡ x [ZMOD 2 ^ 64] := by
  rw [uint64, Int.toNat_of_nonneg (Int.emod_nonneg _ (by norm_num))]
  exact Int.mod_modEq x _

theorem int64_eq_iff {y : Int} : int64 x = int64 y ↔ x ≡ y [ZMOD 2 ^ 64] := by
  constructor
  · intro h
    exact ((int64_modEq x).symm.trans (by rw [h])).trans (int64_modEq y)
  · intro h
    have h' : x % ((2 ^ 64 : Nat) : Int) = y % ((2 ^ 64 : Nat) : Int) := by exact_mod_cast h
    rw [int64, int64, ← Int.emod_bmod (x := x), h', Int.emod_bmod]

theorem int64_of_fits (h : Fits x) : int64 x = x := by
  unfold Fits at h
  exact Int.bmod_eq_of_le_mul_two (by omega) (by omega)

theorem uint64_of_nonneg (h0 : 0 ≤ x) (h : x < 2 ^ 64) : (uint64 x : Int) = x := by
  rw [uint64, Int.emod_eq_of_lt h0 h, Int.toNat_of_nonneg h0]

/-! ## The arithmetic of a computation -/

/-- What a variable holds after a number was stored in it, and which numbers are below the greatest one. -/
structure Arith where
  store : Int → Int
  belowMax : Int → Bool

/-- Unbounded integers. -/
def Arith.exact : Arith := ⟨id, fun _ => true⟩

/-- Signed 64-bit integers that wrap. -/
def Arith.word : Arith := ⟨int64, fun x => decide (x < 2 ^ 63 - 1)⟩

/-! ## Random draws -/

abbrev Draws := Stream' Nat

/-- The returned value goes from 0 through `nMax - 1`. -/
def getRand (nMax : Nat) (rng : Draws) : Nat × Draws :=
  if nMax = 0 then (0, rng) else (rng.head % nMax, rng.tail)

def getRandRange (nMin nMax : Int) (rng : Draws) : Int × Draws :=
  if nMax - nMin ≤ 0 then (0, rng)
  else
    let (r, rng) := getRand (nMax - nMin + 1).toNat rng
    (r + nMin, rng)

theorem getRand_lt {nMax : Nat} (h : 0 < nMax) (rng : Draws) : (getRand nMax rng).1 < nMax := by
  rw [getRand, if_neg (Nat.ne_of_gt h)]
  exact Nat.mod_lt _ h

theorem getRandRange_of_lt {nMin nMax : Int} (h : nMin < nMax) (rng : Draws) :
    nMin ≤ (getRandRange nMin nMax rng).1 ∧ (getRandRange nMin nMax rng).1 ≤ nMax := by
  have hlt : (getRand (nMax - nMin + 1).toNat rng).1 < (nMax - nMin + 1).toNat := getRand_lt (by omega) rng
  simp only [getRandRange, if_neg (show ¬nMax - nMin ≤ 0 by omega)]
  omega

end CloakCoin.Lib
