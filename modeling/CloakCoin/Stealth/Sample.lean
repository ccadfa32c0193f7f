import CloakCoin.Enigma.Sample
import CloakCoin.Stealth.KeyStore

/-!
# A small curve and cipher to run the model on

Points are numbers modulo `256 ^ 32` with generator 1, so that a public key shows its secret. The cipher puts
key and initial vector in front of the text.
-/

namespace CloakCoin.Stealth.Sample

open Chain Lib Enigma List

/-! ## The curve -/

@[ext] structure Scalar where
  val : Nat
  lt : val < 256 ^ 32

namespace Scalar

def ofNat (n : Nat) : Scalar := ⟨n % 256 ^ 32, Nat.mod_lt _ (by norm_num)⟩

theorem ofNat_val (p : Scalar) : ofNat p.val = p := Scalar.ext (Nat.mod_eq_of_lt p.lt)

instance : Add Scalar := ⟨fun p q => ofNat (p.val + q.val)⟩
instance : Zero Scalar := ⟨ofNat 0⟩
instance : Neg Scalar := ⟨fun p => ofNat (256 ^ 32 - p.val)⟩

instance : AddCommGroup Scalar where
  nsmul n p := ofNat (n * p.val)
  zsmul := zsmulRec
  add_assoc p q r := Scalar.ext (show ((p.val + q.val) % _ + r.val) % _ = (p.val + (q.val + r.val) % _) % _ by
    rw [Nat.mod_add_mod, Nat.add_mod_mod, Nat.add_assoc])
  zero_add p := Scalar.ext (show (0 % 256 ^ 32 + p.val) % _ = p.val by
    rw [Nat.zero_mod, Nat.zero_add, Nat.mod_eq_of_lt p.lt])
  add_zero p := Scalar.ext (show (p.val + 0 % 256 ^ 32) % _ = p.val by
    rw [Nat.zero_mod, Nat.add_zero, Nat.mod_eq_of_lt p.lt])
  nsmul_zero p := Scalar.ext (show (0 * p.val) % _ = 0 % _ by rw [Nat.zero_mul])
  nsmul_succ n p := Scalar.ext (show ((n + 1) * p.val) % _ = (n * p.val % _ + p.val) % _ by
    rw [Nat.mod_add_mod, Nat.succ_mul])
  neg_add_cancel p := Scalar.ext (show ((256 ^ 32 - p.val) % 256 ^ 32 + p.val) % 256 ^ 32 = 0 % 256 ^ 32 by
    rw [Nat.mod_add_mod, Nat.sub_add_cancel p.lt.le, Nat.mod_self, Nat.zero_mod])
  add_comm p q := Scalar.ext (show (p.val + q.val) % _ = (q.val + p.val) % _ by rw [Nat.add_comm])

theorem nsmul_ofNat_one (n : Nat) : n • ofNat 1 = ofNat n :=
  Scalar.ext (show (n * (1 % 256 ^ 32)) % 256 ^ 32 = n % 256 ^ 32 by
    rw [show 1 % 256 ^ 32 = 1 from rfl, Nat.mul_one])

end Scalar

def compress (p : Scalar) : Bytes := 2 :: toBytes 32 p.val

def decompress : Bytes → Option Scalar
  | 2 :: b => if b.length = 32 then some (.ofNat (ofBytes b)) else none
  | _ => none

theorem decompress_compress (p : Scalar) : decompress (compress p) = some p := by
  rw [compress, decompress, if_pos (length_toBytes 32 _), ofBytes_toBytes p.lt, Scalar.ofNat_val]

def curve : Curve where
  Point := Scalar
  gen := .ofNat 1
  order := 256 ^ 32
  order_pos := by norm_num
  order_le := le_refl _
  order_smul := (Scalar.nsmul_ofNat_one _).trans (Scalar.ext (Nat.mod_self _))
  compress := compress
  expand := fun p => 4 :: toBytes 64 p.val
  decompress := decompress
  length_compress := fun p => by rw [compress, length_cons, length_toBytes]
  length_expand := fun p => by rw [length_cons, length_toBytes]
  decompress_compress := decompress_compress

/-! ## The cipher -/

def encrypt (key iv plain : Bytes) : Bytes := (key ++ iv) ++ (plain ++ [1])

def decrypt (key iv text : Bytes) : Option Bytes :=
  if text.take (key ++ iv).length = key ++ iv ∧ (key ++ iv).length < text.length then
    some (text.drop (key ++ iv).length).dropLast
  else none

def aes : Cipher where
  encrypt := encrypt
  decrypt := decrypt
  decrypt_encrypt := fun key iv plain => by
    unfold decrypt encrypt
    rw [take_left, drop_left, if_pos ⟨rfl, by simp⟩, dropLast_concat]
  length_decrypt := fun key iv text plain h => by
    unfold decrypt at h
    split_ifs at h with hlen
    cases h
    rw [length_dropLast, length_drop]
    omega

/-! ## Encoded addresses -/

variable (options : UInt8) (scan spend : Bytes)

def encodePoints (Q R : Scalar) : Nat := 2 * (256 ^ 32 * Q.val + R.val)

def decodePoints (encoded : Nat) : Scalar × Scalar := (.ofNat (encoded / 2 / 256 ^ 32), .ofNat (encoded / 2))

theorem decodePoints_encodePoints (Q R : Scalar) : decodePoints (encodePoints Q R) = (Q, R) := by
  have hh : encodePoints Q R / 2 = 256 ^ 32 * Q.val + R.val := by
    rw [encodePoints]
    omega
  have hhi : (256 ^ 32 * Q.val + R.val) / 256 ^ 32 = Q.val := by
    rw [Nat.mul_add_div (by norm_num), Nat.div_eq_of_lt R.lt, Nat.add_zero]
  rw [decodePoints, hh, hhi, Scalar.ofNat_val]
  exact congrArg (Prod.mk Q) (Scalar.ext ((Nat.mul_add_mod _ _ _).trans (Nat.mod_eq_of_lt R.lt)))

noncomputable def encode : Nat :=
  match decompress scan, decompress spend with
  | some Q, some R =>
    if options = 0 ∧ compress Q = scan ∧ compress R = spend then encodePoints Q R
    else 2 * someCode _ (options, scan, spend) + 1
  | _, _ => 2 * someCode _ (options, scan, spend) + 1

noncomputable def decode (encoded : Nat) : Option (UInt8 × Bytes × Bytes) :=
  if encoded % 2 = 0 then some (0, compress (decodePoints encoded).1, compress (decodePoints encoded).2)
  else Function.partialInv (someCode _) (encoded / 2)

theorem encodePoints_even (Q R : Scalar) : encodePoints Q R % 2 = 0 := by
  rw [encodePoints]
  omega

theorem decode_encode : decode (encode options scan spend) = some (options, scan, spend) := by
  have ho : decode (2 * someCode _ (options, scan, spend) + 1) = some (options, scan, spend) := by
    rw [decode, if_neg (by omega), Nat.mul_add_div two_pos]
    exact Function.partialInv_left (someCode_injective _) _
  unfold encode
  split
  · split_ifs with h
    · obtain ⟨rfl, hsc, hs⟩ := h
      rw [decode, if_pos (encodePoints_even _ _), decodePoints_encodePoints, hsc, hs]
    · exact ho
  · exact ho

/-! ## The environment -/

/-- A payment to a key id spells the id; `OP_RETURN` carries data. -/
def solver : CScript → Option (TxnOutType × List (List UInt8))
  | 0x76 :: 0xa9 :: _ :: rest => some (.pubkeyhash, [rest.dropLast.dropLast])
  | 0x6a :: _ => some (.nullData, [])
  | _ => none

def sha256 (b : Bytes) : Bytes := b.tail

def enigmaSecret (_ : Bytes) (cloakerHash : Hash256) (index : Nat) : Bytes :=
  toBytes 32 (1000 * cloakerHash + index + 16001)

noncomputable def addressPoints (sxAddress : Nat) : Option (Scalar × Scalar) :=
  if sxAddress % 2 = 0 then some (decodePoints sxAddress)
  else
    match decode sxAddress with
    | none => none
    | some (_, scan, spend) => (decompress scan).bind fun Q => (decompress spend).map fun R => (Q, R)

theorem addressPoints_encode {options : UInt8} {scan spend : Bytes} {Q R : Scalar} (hQ : decompress scan = some Q)
    (hR : decompress spend = some R) : addressPoints (encode options scan spend) = some (Q, R) := by
  have hd := decode_encode options scan spend
  unfold addressPoints
  split_ifs with he
  · unfold encode at he ⊢
    simp only [hQ, hR] at he ⊢
    split_ifs at he ⊢ with h
    · rw [decodePoints_encodePoints]
    · omega
  · simp [hd, hQ, hR]

noncomputable def enigmaKey (sxAddress : Nat) (rootKey : Bytes) (cloakerHash : Hash256) (index : Nat) : CKeyID :=
  match addressPoints sxAddress with
  | none => []
  | some (Q, R) =>
    let sharedS := sha256 (compress (ofBytes (enigmaSecret rootKey cloakerHash index) • Q))
    compress (R + ofBytes sharedS • Scalar.ofNat 1)

theorem enigmaKey_encode {options : UInt8} {scan spend rootKey : Bytes} {cloakerHash : Hash256} {index : Nat}
    {Q R : Scalar} (hQ : decompress scan = some Q) (hR : decompress spend = some R) :
    enigmaKey (encode options scan spend) rootKey cloakerHash index = compress
      (R + ofBytes (sha256 (compress (ofBytes (enigmaSecret rootKey cloakerHash index) • Q))) • Scalar.ofNat 1) := by
  rw [enigmaKey, addressPoints_encode hQ hR]

theorem solver_scriptForKeyID (id : CKeyID) : solver (scriptForKeyID id) = some (.pubkeyhash, [id]) := by
  simp only [scriptForKeyID, cons_append, nil_append, solver]
  rw [show id ++ [(0x88 : UInt8), 0xac] = (id ++ [0x88]) ++ [0xac] by simp, dropLast_concat, dropLast_concat]

def addressHash (scan spendSecret : Bytes) : Hash256 := ofBytes scan % 1000 * 1000 + spendSecret.length

/-- What `addressHash` gives for the owner of an encoded address. -/
noncomputable def privateHash (a : Enigma.CStealthAddress) : Hash256 :=
  match addressPoints a.encoded with
  | none => 0
  | some (Q, _) => addressHash (compress Q) (toBytes 32 0)

noncomputable def env (txs : List CTransaction) : StealthEnv :=
  { Enigma.Sample.env txs with
    solver := solver
    enigmaKey := enigmaKey
    privateHash := privateHash
    curve := curve
    aes := aes
    sha256 := sha256
    hash := fun b => b
    bytesToKey := fun passphrase salt _ => (toBytes 32 (if passphrase = "p" then 1 else 2), salt)
    enigmaSecret := enigmaSecret
    addressHash := fun scan _ _ spendSecret => addressHash scan spendSecret
    encode := encode
    decode := decode
    decode_encode := decode_encode
    narrationOk := fun _ _ => true
    enigmaKey_eq := fun _ _ _ _ _ _ _ _ hQ hR => enigmaKey_encode hQ hR
    solver_keyID := solver_scriptForKeyID }

def secret (n : Nat) : CSecret := ⟨toBytes 32 n, length_toBytes 32 n⟩

noncomputable def address (a b : Nat) : CStealthAddress :=
  KeyWallet.newStealthAddress (env []) "" (secret a) (secret b)

/-! ## An encrypted wallet -/

noncomputable def seed : Seed where
  vMasterKey := toBytes 32 7
  vchSalt := toBytes 8 0
  nDeriveIterations := 25000
  keyPool := []
  length_master := length_toBytes 32 7
  length_salt := length_toBytes 8 0
  rounds := le_refl _

noncomputable def plainWallet (k : Nat) : KeyWallet :=
  ((({} : KeyWallet).addKey (env []) (secret k) true).2.addStealthAddress (env []) (address 3 4)).2

noncomputable def lockedWallet (k : Nat) : KeyWallet :=
  (((plainWallet k).encryptWallet (env []) "p" seed).map Prod.snd).getD {}

theorem encryptWallet_plainWallet (k : Nat)
    (h : ((plainWallet k).encryptWallet (env []) "p" seed).map Prod.fst = some true) :
    (plainWallet k).encryptWallet (env []) "p" seed = some (true, lockedWallet k) := by
  obtain ⟨⟨ok, w⟩, heq, hok⟩ := Option.map_eq_some_iff.mp h
  cases hok
  rw [lockedWallet, heq]
  rfl

end CloakCoin.Stealth.Sample
