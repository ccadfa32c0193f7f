import CloakCoin.Stealth.KeyStore

/-!
# The exchange of a stealth payment

The functions of `stealth.cpp` as they compute, with big numbers and points of the curve, and with their
failures: the point at infinity has no compressed form of 33 bytes, and a secret is never zero.
-/

namespace CloakCoin.Stealth

open Lib Option

variable {n : Nat}

def ecCompressedSize : Nat := 33

/-! ## Numbers as bytes -/

/-- `BN_num_bytes`. -/
def numBytes (n : Nat) : Nat := if n = 0 then 0 else (n.log2 + 8) / 8

/-- `BN_bn2bin` where the number must take exactly `size` bytes. -/
def bn2bin (size n : Nat) : Option Bytes := if numBytes n = size then some (toBytes size n) else none

/-- A number padded with zero bytes to the size of a secret. -/
def paddedSecret (n : Nat) : CSecret := ⟨toBytes ecSecretSize n, length_toBytes _ _⟩

theorem numBytes_eq_succ_iff : numBytes n = k + 1 ↔ 256 ^ k ≤ n ∧ n < 256 ^ (k + 1) := by
  have hp : ∀ j, 256 ^ j = 2 ^ (8 * j) := by
    intro j
    rw [pow_mul]
    norm_num
  unfold numBytes
  split_ifs with hz
  · have hpo : 0 < 256 ^ k := by positivity
    rw [hz]
    exact ⟨fun h => h.elim, fun h => absurd h.1 (Nat.not_le.mpr hpo)⟩
  · rw [hp, hp, ← Nat.le_log2 hz, ← Nat.log2_lt hz]
    omega

theorem numBytes_le_of_lt (h : n < 256 ^ k) : numBytes n ≤ k := by
  rcases hn : numBytes n with _ | j
  · exact Nat.zero_le k
  · have hle := (numBytes_eq_succ_iff.mp hn).1.trans_lt h
    exact (Nat.pow_lt_pow_iff_right (by norm_num)).mp hle

/-! ## The curve -/

/-- A group with a generator of prime order, whose points are written as numbers (`EC_POINT_point2bn`,
compressed). The point at infinity is written as one zero byte. -/
structure EcGroup where
  Point : Type
  [group : AddCommGroup Point]
  [decEq : DecidableEq Point]
  gen : Point
  order : Nat
  prime : order.Prime
  order_lt : order < 256 ^ ecSecretSize
  addOrderOf_gen : addOrderOf gen = order
  point2bn : Point → Nat
  /-- `EC_POINT_bn2point`. -/
  bn2point : Nat → Option Point
  point2bn_zero : point2bn 0 = 0
  numBytes_point2bn : ∀ p, p ≠ 0 → numBytes (point2bn p) = ecCompressedSize
  bn2point_point2bn : ∀ p, p ≠ 0 → bn2point (point2bn p) = some p
  bn2point_zero : ∀ p, bn2point 0 = some p → p = 0

attribute [instance] EcGroup.group EcGroup.decEq

namespace EcGroup

variable (g : EcGroup) {b : Bytes} {s : CSecret}

def point (secret : Bytes) : g.Point := ofBytes secret • g.gen

def compressed (p : g.Point) : Option Bytes := bn2bin ecCompressedSize (g.point2bn p)

def secretToPublicKey (secret : CSecret) : Option Bytes := g.compressed (g.point secret)

def modAdd (bnSpend bnc : Nat) : Option CSecret :=
  let bnSpend := (bnSpend + bnc) % g.order
  if bnSpend = 0 then none
  else if ecSecretSize < numBytes bnSpend then none
  else some (paddedSecret bnSpend)

def stealthSharedToSecretSpend (sharedS spendSecret : CSecret) : Option CSecret :=
  g.modAdd (ofBytes spendSecret) (ofBytes sharedS)

variable (sha256 : Bytes → CSecret)

/-- The shared secret `c = H(eQ)` and the key `R + cG`. -/
def stealthSecret (secret : CSecret) (pubkey pkSpend : Bytes) : Option (CSecret × Bytes) := do
  let Q ← g.bn2point (ofBytes pubkey)
  let vchOutQ ← g.compressed (ofBytes secret.val • Q)
  let sharedSOut := sha256 vchOutQ
  let R ← g.bn2point (ofBytes pkSpend)
  let pkOut ← g.compressed (R + g.point sharedSOut)
  some (sharedSOut, pkOut)

/-- The secret `f + c`, with `c = H(dP)`. -/
def stealthSecretSpend (scanSecret : CSecret) (ephemPubkey : Bytes) (spendSecret : CSecret) : Option CSecret := do
  let P ← g.bn2point (ofBytes ephemPubkey)
  let vchOutP ← g.compressed (ofBytes scanSecret.val • P)
  g.modAdd (ofBytes spendSecret) (ofBytes (sha256 vchOutP).val)

/-! ## Encodings -/

variable {g sha256}

theorem order_smul_gen : g.order • g.gen = 0 := by
  rw [← g.addOrderOf_gen]
  exact addOrderOf_nsmul_eq_zero g.gen

theorem mod_order_lt (n : Nat) : n % g.order < 256 ^ ecSecretSize := (Nat.mod_lt _ g.prime.pos).trans g.order_lt

theorem mod_smul_gen (n : Nat) : (n % g.order) • g.gen = n • g.gen := by
  conv_rhs => rw [← Nat.mod_add_div n g.order, add_smul, Nat.mul_comm, mul_smul, order_smul_gen, smul_zero, add_zero]

theorem smul_gen_eq_zero_iff : n • g.gen = 0 ↔ g.order ∣ n := by
  rw [← addOrderOf_dvd_iff_nsmul_eq_zero, g.addOrderOf_gen]

theorem point2bn_lt (hp : p ≠ 0) : g.point2bn p < 256 ^ ecCompressedSize :=
  (numBytes_eq_succ_iff.mp (g.numBytes_point2bn p hp)).2

theorem compressed_eq (p : g.Point) :
    g.compressed p = if p = 0 then none else some (toBytes ecCompressedSize (g.point2bn p)) := by
  unfold compressed bn2bin
  split_ifs with hb hp hp
  · rw [hp, g.point2bn_zero] at hb
    cases hb
  · rfl
  · rfl
  · exact absurd (g.numBytes_point2bn p hp) hb

theorem compressed_eq_some_iff : g.compressed p = some b ↔ p ≠ 0 ∧ b = toBytes ecCompressedSize (g.point2bn p) := by
  rw [compressed_eq]
  split_ifs with hp
  · simp [hp]
  · simp [hp, eq_comm]

theorem bn2point_of_compressed (h : g.compressed p = some b) : g.bn2point (ofBytes b) = some p := by
  obtain ⟨hp, hb⟩ := compressed_eq_some_iff.mp h
  rw [hb, ofBytes_toBytes (point2bn_lt hp)]
  exact g.bn2point_point2bn p hp

/-! ## The sum of two secrets -/

theorem modAdd_eq (a b : Nat) :
    g.modAdd a b = if g.order ∣ a + b then none else some (paddedSecret ((a + b) % g.order)) := by
  have hf : ¬ecSecretSize < numBytes ((a + b) % g.order) := Nat.not_lt.mpr (numBytes_le_of_lt (mod_order_lt _))
  unfold modAdd
  dsimp only
  rw [if_neg hf]
  by_cases hd : g.order ∣ a + b
  · rw [if_pos hd, if_pos (Nat.mod_eq_zero_of_dvd hd)]
  · rw [if_neg hd, if_neg fun hm => hd (Nat.dvd_of_mod_eq_zero hm)]

theorem point_of_modAdd {a b : Nat} (h : g.modAdd a b = some s) : g.point s = a • g.gen + b • g.gen := by
  rw [modAdd_eq] at h
  split_ifs at h
  have hs : ofBytes s.val = (a + b) % g.order := by
    rw [← Option.some.inj h]
    exact ofBytes_toBytes (mod_order_lt _)
  rw [point, hs, mod_smul_gen, add_smul]

theorem exists_modAdd {a b : Nat} (h : a • g.gen + b • g.gen ≠ 0) : ∃ s, g.modAdd a b = some s := by
  rw [← add_smul, Ne, smul_gen_eq_zero_iff] at h
  rw [modAdd_eq, if_neg h]
  exact ⟨_, rfl⟩

/-! ## Both sides -/

theorem stealthSecret_eq (hQ : g.secretToPublicKey d = some Q)
    (hR : g.secretToPublicKey f = some R) : g.stealthSecret sha256 secret Q R =
      (g.compressed ((ofBytes secret.val * ofBytes d.val) • g.gen)).bind fun v =>
        (g.compressed (g.point f + g.point (sha256 v))).map fun pk => (sha256 v, pk) := by
  have hd : ofBytes secret.val • g.point d = (ofBytes secret.val * ofBytes d.val) • g.gen := by
    rw [point, mul_smul]
  unfold stealthSecret
  rw [bn2point_of_compressed hQ, bn2point_of_compressed hR]
  simp [map_eq_bind, hd]

/-- **Sender and receiver agree** on the shared secret and the one-time key, and the receiver computes the secret
of that key in both ways. -/
theorem stealth_exchange_agrees (g : EcGroup) (sha256 : Bytes → CSecret) (d f e : CSecret) (Q R P : Bytes)
    (hQ : g.secretToPublicKey d = some Q) (hR : g.secretToPublicKey f = some R) (hP : g.secretToPublicKey e = some P) :
    g.stealthSecret sha256 e Q R = g.stealthSecret sha256 d P R ∧
      ∀ shared pk, g.stealthSecret sha256 e Q R = some (shared, pk) →
        ∃ s, g.stealthSecretSpend sha256 d P f = some s ∧ g.stealthSharedToSecretSpend shared f = some s ∧
          g.secretToPublicKey s = some pk := by
  constructor
  · rw [stealthSecret_eq hQ hR, stealthSecret_eq hP hR, Nat.mul_comm]
  · intro shared pk h
    rw [stealthSecret_eq hQ hR, bind_eq_some_iff] at h
    obtain ⟨v, hv, h⟩ := h
    obtain ⟨b, hb, heq⟩ := map_eq_some_iff.mp h
    cases heq
    obtain ⟨s, hs⟩ := exists_modAdd (compressed_eq_some_iff.mp hb).1
    have hkey : g.point s = g.point f + g.point (sha256 v) := point_of_modAdd hs
    refine ⟨s, ?_, hs, ?_⟩
    · have hd : ofBytes d.val • g.point e = (ofBytes e.val * ofBytes d.val) • g.gen := by
        rw [point, smul_smul, Nat.mul_comm]
      unfold stealthSecretSpend
      rw [bn2point_of_compressed hP]
      simp only [bind_eq_bind, bind_some, hd, hv]
      exact hs
    · rw [secretToPublicKey, hkey]
      exact hb

end EcGroup

/-! ### A group with seven points -/

namespace Sample

instance prime_seven : Fact (Nat.Prime 7) := ⟨by norm_num⟩

def seven : EcGroup where
  Point := ZMod 7
  gen := 1
  order := 7
  prime := by norm_num
  order_lt := by norm_num [ecSecretSize]
  addOrderOf_gen := ZMod.addOrderOf_one 7
  point2bn p := if p = 0 then 0 else 2 * 256 ^ 32 + p.val
  bn2point n := if n = 0 then some 0 else some ((n - 2 * 256 ^ 32 : Nat) : ZMod 7)
  point2bn_zero := if_pos rfl
  numBytes_point2bn p hp := by
    have hlt := ZMod.val_lt p
    rw [if_neg hp]
    apply numBytes_eq_succ_iff.mpr
    norm_num
    omega
  bn2point_point2bn p hp := by
    rw [if_neg hp, if_neg (by omega), Nat.add_sub_cancel_left, ZMod.natCast_zmod_val]
  bn2point_zero p h := (Option.some.inj h).symm

end Sample

/-- Scan secret 3, spend secret 1 and ephemeral secret 2, with 4 for every hash: the payment goes to key 5. -/
theorem EcGroup.stealth_exchange_agrees_seven : let pk (n : Nat) := toBytes 33 (2 * 256 ^ 32 + n)
    let sha256 (_ : Bytes) := paddedSecret 4
    Sample.seven.stealthSecret sha256 (paddedSecret 2) (pk 3) (pk 1) =
        Sample.seven.stealthSecret sha256 (paddedSecret 3) (pk 2) (pk 1) ∧
      ∃ s, Sample.seven.stealthSecretSpend sha256 (paddedSecret 3) (pk 2) (paddedSecret 1) = some s ∧
        Sample.seven.stealthSharedToSecretSpend (paddedSecret 4) (paddedSecret 1) = some s ∧
        Sample.seven.secretToPublicKey s = some (pk 5) := by
  intro pk sha256
  obtain ⟨hsa, hs⟩ := stealth_exchange_agrees Sample.seven sha256 (paddedSecret 3) (paddedSecret 1)
    (paddedSecret 2) (pk 3) (pk 1) (pk 2) (by decide +kernel) (by decide +kernel) (by decide +kernel)
  exact ⟨hsa, hs (paddedSecret 4) (pk 5) (by decide +kernel)⟩

end CloakCoin.Stealth
