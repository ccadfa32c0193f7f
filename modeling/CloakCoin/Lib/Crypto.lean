import Mathlib.Tactic

/-!
# Byte strings, a curve and a cipher

The cryptography a key store rests on, up to what its programs rely on. A `Curve` is a group with a
generator and encodings of its points, a `Cipher` decrypts what it has encrypted and pads.
-/

namespace CloakCoin.Lib

open List

abbrev Bytes := List UInt8

/-! ## Big-endian numbers -/

def ofBytes (b : Bytes) : Nat := b.foldl (fun n x => 256 * n + x.toNat) 0

/-- The last `k` base-256 digits of `n`. -/
def toBytes : Nat → Nat → Bytes
  | 0, _ => []
  | k + 1, n => toBytes k (n / 256) ++ [UInt8.ofNat n]

@[simp] theorem length_toBytes (k n : Nat) : (toBytes k n).length = k := by
  induction k generalizing n with
  | zero => rfl
  | succ k ih => simp [toBytes, ih]

theorem ofBytes_append_singleton (b : Bytes) (x : UInt8) : ofBytes (b ++ [x]) = 256 * ofBytes b + x.toNat := by
  simp [ofBytes]

theorem ofBytes_append (a b : Bytes) : ofBytes (a ++ b) = ofBytes a * 256 ^ b.length + ofBytes b := by
  induction b using List.reverseRecOn with
  | nil => simp [ofBytes]
  | append_singleton b x ih =>
    rw [← append_assoc, ofBytes_append_singleton, ih, ofBytes_append_singleton, length_append,
      length_singleton, pow_succ]
    ring

theorem ofBytes_cons (x : UInt8) (b : Bytes) : ofBytes (x :: b) = x.toNat * 256 ^ b.length + ofBytes b := by
  simpa [ofBytes] using ofBytes_append [x] b

theorem ofBytes_toBytes {k n : Nat} (h : n < 256 ^ k) : ofBytes (toBytes k n) = n := by
  induction k generalizing n with
  | zero =>
    rw [pow_zero, Nat.lt_one_iff] at h
    subst h
    rfl
  | succ k ih =>
    have hd : n / 256 < 256 ^ k := Nat.div_lt_of_lt_mul (by rw [← pow_succ']; exact h)
    rw [toBytes, ofBytes_append_singleton, ih hd, UInt8.toNat_ofNat']
    omega

theorem ofBytes_lt (b : Bytes) : ofBytes b < 256 ^ b.length := by
  induction b using List.reverseRecOn with
  | nil => exact Nat.one_pos
  | append_singleton b x ih =>
    have hx := x.toNat_lt
    rw [ofBytes_append_singleton, length_append, length_singleton, pow_succ]
    omega

theorem ofBytes_injective {a b : Bytes} (hle : a.length = b.length) (h : ofBytes a = ofBytes b) : a = b := by
  induction a using List.reverseRecOn generalizing b with
  | nil => exact (length_eq_zero_iff.mp hle.symm).symm
  | append_singleton a x ih =>
    induction b using List.reverseRecOn with
    | nil => simp at hle
    | append_singleton b y _ =>
      have hx := x.toNat_lt
      have hy := y.toNat_lt
      rw [ofBytes_append_singleton, ofBytes_append_singleton] at h
      have ht : ofBytes a = ofBytes b := by omega
      have hl : x = y := UInt8.toNat_inj.mp (by omega)
      rw [ih (by simpa using hle) ht, hl]

/-- The last `k` bytes. -/
theorem ofBytes_drop (k : Nat) (b : Bytes) : ofBytes (b.drop (b.length - k)) = ofBytes b % 256 ^ k := by
  have hlt := ofBytes_lt (b.drop (b.length - k))
  rw [length_drop] at hlt
  rcases Nat.le_total k b.length with h | h
  · conv_rhs => rw [← take_append_drop (b.length - k) b, ofBytes_append, length_drop]
    rw [Nat.sub_sub_self h] at hlt ⊢
    rw [Nat.mul_add_mod', Nat.mod_eq_of_lt hlt]
  · rw [Nat.sub_eq_zero_of_le h, drop_zero] at hlt ⊢
    rw [Nat.mod_eq_of_lt (hlt.trans_le (Nat.pow_le_pow_right (by decide) h))]

/-! ## Curves -/

/-- A group with a generator of finite order, and byte strings for its points. -/
structure Curve where
  Point : Type
  [group : AddCommGroup Point]
  gen : Point
  order : Nat
  order_pos : 0 < order
  order_le : order ≤ 256 ^ 32
  order_smul : order • gen = 0
  /-- The compressed form of a point. -/
  compress : Point → Bytes
  /-- The uncompressed form. -/
  expand : Point → Bytes
  decompress : Bytes → Option Point
  length_compress : ∀ p, (compress p).length = 33
  length_expand : ∀ p, (expand p).length = 65
  decompress_compress : ∀ p, decompress (compress p) = some p

attribute [instance] Curve.group

namespace Curve

variable (c : Curve)

def point (secret : Bytes) : c.Point := ofBytes secret • c.gen

def addSecrets (a b : Bytes) : Bytes := toBytes 32 ((ofBytes a + ofBytes b) % c.order)

theorem agree (a b : Bytes) : ofBytes a • c.point b = ofBytes b • c.point a := by
  rw [point, point, smul_smul, smul_smul, Nat.mul_comm]

@[simp] theorem length_addSecrets (a b : Bytes) : (c.addSecrets a b).length = 32 := length_toBytes 32 _

theorem smul_addSecrets (a b : Bytes) : c.point (c.addSecrets a b) = c.point a + c.point b := by
  have hlt : (ofBytes a + ofBytes b) % c.order < 256 ^ 32 := (Nat.mod_lt _ c.order_pos).trans_le c.order_le
  have hm : (ofBytes a + ofBytes b) • c.gen = ((ofBytes a + ofBytes b) % c.order) • c.gen := by
    conv_lhs => rw [← Nat.mod_add_div (ofBytes a + ofBytes b) c.order]
    rw [add_smul, Nat.mul_comm, mul_smul, c.order_smul, smul_zero, add_zero]
  rw [point, addSecrets, ofBytes_toBytes hlt, ← hm, add_smul, point, point]

theorem compress_injective : Function.Injective c.compress := by
  intro p q h
  have hp := c.decompress_compress p
  rw [h, c.decompress_compress q] at hp
  exact (Option.some.inj hp).symm

end Curve

/-! ## Ciphers -/

/-- A cipher with a key and an initial vector that pads what it encrypts. -/
structure Cipher where
  encrypt : Bytes → Bytes → Bytes → Bytes
  decrypt : Bytes → Bytes → Bytes → Option Bytes
  decrypt_encrypt : ∀ key iv plain, decrypt key iv (encrypt key iv plain) = some plain
  length_decrypt : ∀ key iv text plain, decrypt key iv text = some plain → plain.length < text.length

namespace Cipher

variable (c : Cipher)

theorem length_lt_encrypt (key iv plain : Bytes) : plain.length < (c.encrypt key iv plain).length :=
  c.length_decrypt key iv _ _ (c.decrypt_encrypt key iv plain)

@[simp] theorem decrypt_nil (key iv : Bytes) : c.decrypt key iv [] = none := by
  rcases h : c.decrypt key iv [] with _ | plain
  · rfl
  · exact absurd (c.length_decrypt key iv [] plain h) (Nat.not_lt_zero _)

end Cipher

/-! ## Key agreement -/

/-- A key and an initial vector of fixed lengths. -/
structure KeyIv where
  key : Bytes
  iv : Bytes
  length_key : key.length = 32
  length_iv : iv.length = 16

namespace KeyIv

/-- What a cleared buffer holds. -/
def zero : KeyIv := ⟨List.replicate 32 0, List.replicate 16 0, length_replicate, length_replicate⟩

def bytes (k : KeyIv) : Bytes := k.key ++ k.iv

/-- The first 48 bytes; what is missing is zero. -/
def ofBytes (b : Bytes) : KeyIv :=
  ⟨(b ++ List.replicate 32 0).take 32, (b.drop 32 ++ List.replicate 16 0).take 16, by simp, by simp⟩

@[simp] theorem ofBytes_bytes (k : KeyIv) : ofBytes k.bytes = k := by
  obtain ⟨key, iv, hk, hiv⟩ := k
  unfold ofBytes bytes
  congr 1
  · rw [append_assoc, take_left' hk]
  · rw [drop_left' hk, take_left' hiv]

@[simp] theorem length_bytes (k : KeyIv) : k.bytes.length = 48 := by
  rw [bytes, length_append, k.length_key, k.length_iv]

end KeyIv

/-- Key pairs any two of which agree on a secret. What is no public key gives none. -/
structure KeyExchange (K : Type) where
  Priv : Type
  pub : Priv → K
  secret : Priv → K → Option KeyIv
  agree : ∀ a b, secret a (pub b) = secret b (pub a)
  isSome_secret : ∀ a b, (secret a (pub b)).isSome = true

end CloakCoin.Lib
