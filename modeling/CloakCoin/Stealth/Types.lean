import CloakCoin.Lib.Crypto
import CloakCoin.Enigma.Types

/-!
# Stealth addresses and their secrets

The full data of `CStealthAddress`, the set of a wallet's addresses, and the derivations of `stealth.cpp`.
`StealthEnv` adds to the environment of Enigma the curve under the one-time addresses, the wallet's cipher
and hashes. The point at infinity and hashes that are no valid secret are left out of the abstraction.
-/

namespace CloakCoin.Stealth

open Chain Lib Enigma List

def ecSecretSize : Nat := 32

structure CStealthAddress where
  options : UInt8 := 0
  scanPubkey : Bytes
  spendPubkey : Bytes
  label : String := ""
  scanSecret : Bytes := []
  spendSecret : Bytes := []
  deriving DecidableEq

def CStealthAddress.isOwned (a : CStealthAddress) : Bool := a.scanSecret.length == ecSecretSize

/-! ## The set of addresses -/

/-- `std::set<CStealthAddress>`, ordered by the scan key. -/
structure AddressSet where
  toList : List CStealthAddress
  nodup : (toList.map CStealthAddress.scanPubkey).Nodup

namespace AddressSet

instance : Membership CStealthAddress AddressSet := ⟨fun s a => a ∈ s.toList⟩

variable (s : AddressSet) {a b : CStealthAddress}

theorem mem_def : a ∈ s ↔ a ∈ s.toList := .rfl

def empty : AddressSet := ⟨[], nodup_nil⟩

theorem eq_of_scanPubkey_eq (ha : a ∈ s) (hb : b ∈ s) (h : a.scanPubkey = b.scanPubkey) : a = b :=
  inj_on_of_nodup_map s.nodup ha hb h

/-- An address with a scan key that is already there is not inserted. -/
def insert (a : CStealthAddress) : AddressSet :=
  if h : a.scanPubkey ∈ s.toList.map CStealthAddress.scanPubkey then s
  else
    { toList := s.toList.orderedInsert (fun x y => x.scanPubkey ≤ y.scanPubkey) a
      nodup := by
        have hperm := (perm_orderedInsert (fun x y => x.scanPubkey ≤ y.scanPubkey) a s.toList).map
          CStealthAddress.scanPubkey
        exact hperm.nodup_iff.mpr (nodup_cons.mpr ⟨h, s.nodup⟩) }

theorem mem_insert_of_mem (h : b ∈ s) : b ∈ s.insert a := by
  unfold insert
  split
  · exact h
  · exact (perm_orderedInsert _ a s.toList).mem_iff.mpr (mem_cons_of_mem a h)

theorem mem_insert_self (hn : ∀ b ∈ s, b.scanPubkey ≠ a.scanPubkey) : a ∈ s.insert a := by
  unfold insert
  rw [dif_neg fun hm => (mem_map.mp hm).elim fun b hb => hn b hb.1 hb.2]
  exact (perm_orderedInsert _ a s.toList).mem_iff.mpr mem_cons_self

theorem eq_or_mem_of_mem_insert (h : b ∈ s.insert a) : b = a ∨ b ∈ s := by
  unfold insert at h
  split at h
  · exact .inr h
  · exact mem_cons.mp ((perm_orderedInsert _ a s.toList).mem_iff.mp h)

/-- The address with the same scan key, whatever else it holds, is erased. -/
def erase (a : CStealthAddress) : AddressSet where
  toList := s.toList.filter fun b => b.scanPubkey ≠ a.scanPubkey
  nodup := (filter_sublist.map CStealthAddress.scanPubkey).nodup s.nodup

theorem mem_erase : b ∈ s.erase a ↔ b ∈ s ∧ b.scanPubkey ≠ a.scanPubkey := by
  simp [erase, mem_def]

/-- Overwrite the spend secrets in place. -/
def mapSpendSecret (f : CStealthAddress → Bytes) : AddressSet where
  toList := s.toList.map fun a => { a with spendSecret := f a }
  nodup := by
    rw [map_map]
    exact s.nodup

theorem mem_mapSpendSecret : b ∈ s.mapSpendSecret f ↔ ∃ a ∈ s, { a with spendSecret := f a } = b := by
  simp [mapSpendSecret, mem_def]

def find? (scanPubkey : Bytes) : Option CStealthAddress := s.toList.find? fun a => a.scanPubkey = scanPubkey

end AddressSet

/-! ## The environment -/

structure StealthEnv extends EnigmaEnv where
  curve : Curve
  /-- AES-256-CBC. -/
  aes : Cipher
  sha256 : Bytes → Bytes
  /-- `Hash` of a byte range; the initial vector for what is encrypted under a public key. -/
  hash : Bytes → Bytes
  /-- `EVP_BytesToKey`: key and initial vector for a passphrase, a salt and a number of rounds. -/
  bytesToKey : String → Bytes → Nat → Bytes × Bytes
  /-- `GenerateEnigmaSecret` for a root key, a cloaker hash and an index below 60. -/
  enigmaSecret : Bytes → Hash256 → Nat → Bytes
  /-- The hash of both public keys and both secrets. -/
  addressHash : Bytes → Bytes → Bytes → Bytes → Hash256
  /-- The Base58 form of options, scan key and spend key. -/
  encode : UInt8 → Bytes → Bytes → Nat
  decode : Nat → Option (UInt8 × Bytes × Bytes)
  decode_encode : ∀ options scan spend, decode (encode options scan spend) = some (options, scan, spend)
  /-- A narration after the key in this output, if there is one, can be decrypted with the shared secret. -/
  narrationOk : CTxOut → Bytes → Bool
  /-- The key of a one-time address is the point that `StealthSecret` computes for its secret. -/
  enigmaKey_eq : ∀ options scan spend rootKey cloakerHash index Q R,
    curve.decompress scan = some Q → curve.decompress spend = some R →
    enigmaKey (encode options scan spend) rootKey cloakerHash index = pubKeyID (curve.compress
      (R + curve.point (sha256 (curve.compress (ofBytes (enigmaSecret rootKey cloakerHash index) • Q)))))
  /-- `Solver` recognises a payment to a key id. -/
  solver_keyID : ∀ id, solver (scriptForKeyID id) = some (.pubkeyhash, [id])

section
variable (env : StealthEnv) (a : CStealthAddress)

def CStealthAddress.encoded : Nat := env.encode a.options a.scanPubkey a.spendPubkey

/-- Options and public keys of an encoded address, without label and secrets. -/
def setEncoded (encodedAddress : Nat) : Option CStealthAddress :=
  (env.decode encodedAddress).map fun (options, scan, spend) =>
    { options := options, scanPubkey := scan, spendPubkey := spend }

def CStealthAddress.getEnigmaAddressPrivateHash : Hash256 :=
  env.addressHash a.scanPubkey a.spendPubkey a.scanSecret a.spendSecret

/-- `uint256(HexStr(rootKey))`: the last 32 bytes. -/
def rootHash (rootKey : Bytes) : Hash256 := ofBytes rootKey % 2 ^ 256

def secretToPublicKey (secret : Bytes) : Bytes := env.curve.compress (env.curve.point secret)

/-- The shared secret `c = H(eQ)` and the key `R + cG`. -/
def stealthSecret (secret pubkey pkSpend : Bytes) : Option (Bytes × Bytes) :=
  match env.curve.decompress pubkey, env.curve.decompress pkSpend with
  | some Q, some R =>
    let sharedS := env.sha256 (env.curve.compress (ofBytes secret • Q))
    some (sharedS, env.curve.compress (R + env.curve.point sharedS))
  | _, _ => none

/-- `f + c` modulo the order of the curve. -/
def stealthSharedToSecretSpend (sharedS spendSecret : Bytes) : Bytes := env.curve.addSecrets spendSecret sharedS

def stealthSecretSpend (scanSecret ephemPubkey spendSecret : Bytes) : Option Bytes :=
  (env.curve.decompress ephemPubkey).map fun P =>
    stealthSharedToSecretSpend env (env.sha256 (env.curve.compress (ofBytes scanSecret • P))) spendSecret

/-- The stored secret is the plain one. -/
def CStealthAddress.Clear : Prop :=
  a.spendSecret.length = ecSecretSize ∧ secretToPublicKey env a.spendSecret = a.spendPubkey

instance (a : CStealthAddress) : Decidable (a.Clear env) := inferInstanceAs (Decidable (_ ∧ _))

structure CStealthAddress.Spendable (a : CStealthAddress) : Prop where
  owned : a.scanSecret.length = ecSecretSize
  scan : secretToPublicKey env a.scanSecret = a.scanPubkey
  clear : a.Clear env

end

/-! ## Both sides of a payment -/

section
variable {env : StealthEnv}

@[simp] theorem decompress_secretToPublicKey (secret : Bytes) :
    env.curve.decompress (secretToPublicKey env secret) = some (env.curve.point secret) :=
  env.curve.decompress_compress _

@[simp] theorem extractDestination_scriptForKeyID (id : CKeyID) :
    extractDestination env.toEnigmaEnv (scriptForKeyID id) = some (.keyID id) := by
  rw [extractDestination, env.solver_keyID]

theorem CStealthAddress.Spendable.receive_agrees {a : CStealthAddress} (h : a.Spendable env) (rootKey : Bytes)
    (cloakerHash : Hash256) (index : Nat) : ∃ sharedS pk,
      stealthSecret env a.scanSecret (secretToPublicKey env (env.enigmaSecret rootKey cloakerHash index))
        a.spendPubkey = some (sharedS, pk) ∧
      env.pubKeyID pk = env.enigmaKey (a.encoded env) rootKey cloakerHash index := by
  have hsc : env.curve.decompress a.scanPubkey = some (env.curve.point a.scanSecret) := by
    rw [← h.scan, decompress_secretToPublicKey]
  have hs : env.curve.decompress a.spendPubkey = some (env.curve.point a.spendSecret) := by
    rw [← h.clear.2, decompress_secretToPublicKey]
  have hk := env.enigmaKey_eq a.options a.scanPubkey a.spendPubkey rootKey cloakerHash index _ _ hsc hs
  rw [env.curve.agree] at hk
  rw [stealthSecret, decompress_secretToPublicKey, hs]
  exact ⟨_, _, rfl, hk.symm⟩

theorem CStealthAddress.Clear.point_oneTimeSecret {a : CStealthAddress} (h : a.Clear env)
    (hs : stealthSecret env secret pubkey a.spendPubkey = some (sharedS, pk)) :
    secretToPublicKey env (stealthSharedToSecretSpend env sharedS a.spendSecret) = pk := by
  have hsp : env.curve.decompress a.spendPubkey = some (env.curve.point a.spendSecret) := by
    rw [← h.2, decompress_secretToPublicKey]
  unfold stealthSecret at hs
  split at hs
  · rename_i Q R hQ hR
    rw [hsp] at hR
    cases hR
    cases hs
    rw [secretToPublicKey, stealthSharedToSecretSpend, env.curve.smul_addSecrets]
  · cases hs

end

end CloakCoin.Stealth
