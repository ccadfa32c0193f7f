import CloakCoin.Chain.Solver

/-!
# Signing an input

`Sign1`, `SignN`, the `Solver` that fills a `scriptSig` and `SignSignature`. What is written is a sequence of
pushes; how long it can get is known from the script that is spent (`Signer.scriptSigBound`).
-/

namespace CloakCoin.Wallet

open Chain
open Lib (Bytes)
open List Option

/-- The key store and the cryptography behind it. -/
structure Signer where
  /-- `GetKey` and `CKey::Sign`. -/
  sign : Bytes → Hash256 → Option Bytes
  getPubKey : Bytes → Bytes
  getCScript : Bytes → Option CScript
  /-- `CPubKey::GetID`. -/
  pubKeyID : Bytes → Bytes
  /-- The double SHA-256. -/
  hash : Bytes → Hash256
  verifyScript : CScript → CScript → CTransaction → Nat → Bool
  /-- The DER encoding of two numbers of 256 bits. -/
  length_sign : ∀ id h sig, sign id h = some sig → sig.length ≤ 72

namespace Signer

variable (ks : Signer) {s sig : CScript} {n : Nat} {nHashType : UInt32} {hash : Hash256}

def sign1 (address : Bytes) (hash : Hash256) (nHashType : UInt32) : Option CScript :=
  (ks.sign address hash).map fun vchSig => pushData (vchSig ++ [nHashType.toUInt8])

def signN (hash : Hash256) (nHashType : UInt32) : List Bytes → Nat → Option CScript
  | _, 0 => some []
  | [], _ + 1 => none
  | pubkey :: keys, nRequired + 1 =>
    match ks.sign1 (ks.pubKeyID pubkey) hash nHashType with
    | none => signN hash nHashType keys (nRequired + 1)
    | some sig => (signN hash nHashType keys nRequired).map fun rest => sig ++ rest

variable (scriptPubKey : CScript)

def solve (hash : Hash256) (nHashType : UInt32) : Option (TxnOutType × CScript) :=
  match solver scriptPubKey with
  | some (.pubkey, key :: _) => (ks.sign1 (ks.pubKeyID key) hash nHashType).map fun sig => (.pubkey, sig)
  | some (.pubkeyhash, keyID :: _) =>
    (ks.sign1 keyID hash nHashType).map fun sig => (.pubkeyhash, sig ++ pushData (ks.getPubKey keyID))
  | some (.scripthash, id :: _) => (ks.getCScript id).map fun script => (.scripthash, script)
  | some (.multisig, m :: keys) =>
    -- workaround CHECKMULTISIG bug
    (ks.signN hash nHashType keys.dropLast (m.headD 0).toNat).map fun sigs => (.multisig, pushData [] ++ sigs)
  | _ => none

def signSignature (fromPubKey : CScript) (txTo : CTransaction) (nIn : Nat) (nHashType : UInt32) : Option CScript :=
  let scriptSig := match ks.solve fromPubKey (signatureHash ks.hash fromPubKey txTo nIn nHashType) nHashType with
    | none => none
    | some (.scripthash, subscript) =>
      match ks.solve subscript (signatureHash ks.hash subscript txTo nIn nHashType) nHashType with
      | none => none
      | some (subType, sig) => if subType = TxnOutType.scripthash then none else some (sig ++ pushData subscript)
    | some (_, sig) => some sig
  -- Test solution
  scriptSig.filter fun sig => ks.verifyScript sig fromPubKey txTo nIn

/-! ## The length of a signature script -/

def solveBound : Nat :=
  match solver scriptPubKey with
  | some (.pubkey, _) => 74
  | some (.pubkeyhash, keyID :: _) => 74 + (pushData (ks.getPubKey keyID)).length
  | some (.multisig, m :: _) => 1 + 74 * (m.headD 0).toNat
  | _ => 0

/-- The most bytes `SignSignature` writes for an output with this script. -/
def scriptSigBound : Nat :=
  match solver scriptPubKey with
  | some (.scripthash, id :: _) =>
    match ks.getCScript id with
    | some subscript => ks.solveBound subscript + (pushData subscript).length
    | none => 0
  | _ => ks.solveBound scriptPubKey

def Pushes (n : Nat) (script : CScript) : Prop := ∃ l, script = pushAll l ∧ script.length ≤ n

theorem Pushes.append {m : Nat} {t : CScript} (hs : Pushes n s) (ht : Pushes m t) : Pushes (n + m) (s ++ t) := by
  obtain ⟨l, rfl, hl⟩ := hs
  obtain ⟨k, rfl, hk⟩ := ht
  refine ⟨l ++ k, (flatMap_append).symm, ?_⟩
  rw [length_append]
  omega

theorem Pushes.mono {m : Nat} (hs : Pushes n s) (h : n ≤ m) : Pushes m s := by
  obtain ⟨l, hl, hle⟩ := hs
  exact ⟨l, hl, hle.trans h⟩

theorem pushes_pushData (b : Bytes) : Pushes (pushData b).length (pushData b) :=
  ⟨[b], by simp [pushAll], le_rfl⟩

theorem Pushes.isPushOnly (hs : Pushes n s) (hn : n < 2 ^ 32) : isPushOnly s = true := by
  obtain ⟨l, rfl, hl⟩ := hs
  apply isPushOnly_pushAll
  intro b hb
  have hle : (pushData b).length ≤ (pushAll l).length := by
    rw [pushAll, length_flatMap]
    exact single_le_sum (fun _ _ => Nat.zero_le _) _ (mem_map_of_mem hb)
  have hp : b.length ≤ (pushData b).length := by
    unfold pushData
    dsimp only
    split_ifs <;> simp only [length_cons] <;> omega
  omega

variable {ks}

theorem sign1_pushes {address : Bytes} (h : ks.sign1 address hash nHashType = some sig) : Pushes 74 sig := by
  obtain ⟨vchSig, hsi, rfl⟩ := map_eq_some_iff.mp h
  have hl := ks.length_sign _ _ _ hsi
  have hs : (vchSig ++ [nHashType.toUInt8]).length < 0x4c := by
    rw [length_append, length_singleton]
    omega
  apply (pushes_pushData _).mono
  rw [length_pushData_short hs, length_append, length_singleton]
  omega

theorem signN_pushes {keys : List Bytes} {nRequired : Nat} {sigs : CScript}
    (h : ks.signN hash nHashType keys nRequired = some sigs) : Pushes (74 * nRequired) sigs := by
  induction keys generalizing nRequired sigs with
  | nil =>
    cases nRequired with
    | zero =>
      obtain rfl : [] = sigs := Option.some.inj h
      exact ⟨[], rfl, le_rfl⟩
    | succ n => cases h
  | cons pubkey keys ih =>
    cases nRequired with
    | zero =>
      obtain rfl : [] = sigs := Option.some.inj h
      exact ⟨[], rfl, le_rfl⟩
    | succ n =>
      rw [signN] at h
      split at h
      · exact ih h
      · rename_i sig hs
        obtain ⟨rest, hr, rfl⟩ := map_eq_some_iff.mp h
        exact ((sign1_pushes hs).append (ih hr)).mono (by omega)

theorem solve_pushes {scriptPubKey : CScript} {type : TxnOutType}
    (h : ks.solve scriptPubKey hash nHashType = some (type, sig)) (ht : type ≠ .scripthash) :
    Pushes (ks.solveBound scriptPubKey) sig := by
  unfold solve at h
  unfold solveBound
  split at h
  · rename_i key rest hs
    obtain ⟨sig', hsig, heq⟩ := map_eq_some_iff.mp h
    obtain ⟨-, rfl⟩ := Prod.mk.inj heq
    rw [hs]
    exact sign1_pushes hsig
  · rename_i keyID rest hs
    obtain ⟨sig', hsig, heq⟩ := map_eq_some_iff.mp h
    obtain ⟨-, rfl⟩ := Prod.mk.inj heq
    rw [hs]
    exact (sign1_pushes hsig).append (pushes_pushData _)
  · obtain ⟨script, -, heq⟩ := map_eq_some_iff.mp h
    exact absurd (Prod.mk.inj heq).1.symm ht
  · rename_i m keys hs
    obtain ⟨sigs, hsi, heq⟩ := map_eq_some_iff.mp h
    obtain ⟨-, rfl⟩ := Prod.mk.inj heq
    rw [hs]
    exact (pushes_pushData []).append (signN_pushes hsi)
  · cases h

theorem solver_of_solve {scriptPubKey : CScript} {type : TxnOutType}
    (h : ks.solve scriptPubKey hash nHashType = some (type, sig)) :
    ∃ first rest, solver scriptPubKey = some (type, first :: rest) ∧
      (type = .scripthash → ks.getCScript first = some sig) := by
  unfold solve at h
  split at h
  · obtain ⟨sig', -, heq⟩ := map_eq_some_iff.mp h
    obtain ⟨rfl, -⟩ := Prod.mk.inj heq
    exact ⟨_, _, ‹_›, fun h => by cases h⟩
  · obtain ⟨sig', -, heq⟩ := map_eq_some_iff.mp h
    obtain ⟨rfl, -⟩ := Prod.mk.inj heq
    exact ⟨_, _, ‹_›, fun h => by cases h⟩
  · obtain ⟨script, hs, heq⟩ := map_eq_some_iff.mp h
    obtain ⟨rfl, rfl⟩ := Prod.mk.inj heq
    exact ⟨_, _, ‹_›, fun _ => hs⟩
  · obtain ⟨sigs, -, heq⟩ := map_eq_some_iff.mp h
    obtain ⟨rfl, -⟩ := Prod.mk.inj heq
    exact ⟨_, _, ‹_›, fun h => by cases h⟩
  · cases h

theorem signSignature_pushes {fromPubKey : CScript} {txTo : CTransaction} {nIn : Nat}
    (h : ks.signSignature fromPubKey txTo nIn nHashType = some sig) : Pushes (ks.scriptSigBound fromPubKey) sig := by
  obtain ⟨h, -⟩ := filter_eq_some_iff.mp h
  split at h
  · cases h
  · rename_i subscript hs
    obtain ⟨id, rest, hso, hg⟩ := solver_of_solve hs
    split at h
    · cases h
    rename_i subType sub hsu
    split at h
    · cases h
    rename_i ht
    obtain rfl := Option.some.inj h
    rw [scriptSigBound, hso]
    dsimp only
    rw [hg rfl]
    exact (solve_pushes hsu ht).append (pushes_pushData subscript)
  · rename_i type sig' hne hs
    obtain rfl : sig' = sig := Option.some.inj h
    obtain ⟨first, rest, hso, -⟩ := solver_of_solve hs
    have hb : ks.scriptSigBound fromPubKey = ks.solveBound fromPubKey := by
      rw [scriptSigBound, hso]
      cases type <;> first | rfl | exact absurd rfl hne
    rw [hb]
    exact solve_pushes hs hne

theorem signSignature_standard {fromPubKey : CScript} {txTo : CTransaction} {nIn : Nat}
    (h : ks.signSignature fromPubKey txTo nIn nHashType = some sig) (hb : ks.scriptSigBound fromPubKey ≤ 1024) :
    sig.length ≤ 1024 ∧ isPushOnly sig = true := by
  have hp := (signSignature_pushes h).mono hb
  exact ⟨hp.choose_spec.2, hp.isPushOnly (by norm_num)⟩

end Signer
end CloakCoin.Wallet
