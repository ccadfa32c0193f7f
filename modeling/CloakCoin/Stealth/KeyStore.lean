import CloakCoin.Stealth.Types
import CloakCoin.Lib.Loop

/-!
# The key store of a wallet: encryption, locking and stealth addresses

`CCryptoKeyStore` with the part of `CWallet` that works on it. An operation returns its result and the
wallet. Database writes succeed; a `ckey` or `key` record is never overwritten.
-/

namespace CloakCoin.Stealth

open Chain Lib Enigma
open Std (ExtTreeMap)

/-! ## Data -/

/-- The order of `uint160`, whose last byte is the most significant. -/
def cmpKeyID : CKeyID → CKeyID → Ordering := compareOn List.reverse

instance : Std.TransCmp cmpKeyID := inferInstanceAs (Std.TransCmp (compareOn List.reverse))

instance : Std.LawfulEqCmp cmpKeyID where
  eq_of_compare h := List.reverse_injective (Std.LawfulEqCmp.eq_of_compare h)

abbrev KeyMap (β : Type) := ExtTreeMap CKeyID β cmpKeyID

abbrev CSecret := { b : Bytes // b.length = ecSecretSize }

def walletCryptoKeySize : Nat := 32
def walletCryptoSaltSize : Nat := 8

structure CMasterKey where
  vchCryptedKey : Bytes
  vchSalt : Bytes
  nDeriveIterations : Nat
  nDerivationMethod : Nat := 0
  deriving DecidableEq

/-- Used to get the secret for keys created by a stealth transaction while the wallet was locked. -/
structure CStealthKeyMetadata where
  pkEphem : Bytes
  pkScan : Bytes
  deriving DecidableEq

structure WalletDB where
  key : ExtTreeMap Bytes (CSecret × Bool) := ∅
  ckey : ExtTreeMap Bytes Bytes := ∅
  mkey : List CMasterKey := []
  /-- Everything ever written under `sxAddr`, newest first. -/
  sxAddr : List CStealthAddress := []
  sxKeyMeta : KeyMap CStealthKeyMetadata := ∅

structure KeyWallet where
  fUseCrypto : Bool := false
  mapKeys : KeyMap (CSecret × Bool) := ∅
  mapCryptedKeys : KeyMap (Bytes × Bytes) := ∅
  vMasterKey : Bytes := []
  /-- In the order of their ids. -/
  mapMasterKeys : List CMasterKey := []
  stealthAddresses : AddressSet := .empty
  mapStealthKeyMeta : KeyMap CStealthKeyMetadata := ∅
  db : WalletDB := {}

/-- The random data and the timing of `EncryptWallet`: the master key, its salt and rounds, and the new key pool. -/
structure Seed where
  vMasterKey : Bytes
  vchSalt : Bytes
  nDeriveIterations : Nat
  keyPool : List CSecret
  length_master : vMasterKey.length = walletCryptoKeySize
  length_salt : vchSalt.length = walletCryptoSaltSize
  rounds : 25000 ≤ nDeriveIterations

/-! ## Encrypting secrets -/

section
variable (env : StealthEnv)

def encryptSecret (vMasterKey vchPlaintext nIV : Bytes) : Option Bytes :=
  if vMasterKey.length ≠ walletCryptoKeySize then none else some (env.aes.encrypt vMasterKey nIV vchPlaintext)

def decryptSecret (vMasterKey vchCiphertext nIV : Bytes) : Option Bytes :=
  if vMasterKey.length ≠ walletCryptoKeySize then none else env.aes.decrypt vMasterKey nIV vchCiphertext

def setKeyFromPassphrase (strKeyData : String) (chSalt : Bytes) (nRounds nDerivationMethod : Nat) :
    Option (Bytes × Bytes) :=
  if nRounds < 1 ∨ chSalt.length ≠ walletCryptoSaltSize then none
  else if nDerivationMethod = 0 then some (env.bytesToKey strKeyData chSalt nRounds)
  else none

def CMasterKey.decrypt (strWalletPassphrase : String) (k : CMasterKey) : Option Bytes :=
  match setKeyFromPassphrase env strWalletPassphrase k.vchSalt k.nDeriveIterations k.nDerivationMethod with
  | none => none
  | some (chKey, chIV) => env.aes.decrypt chKey chIV k.vchCryptedKey

def pubKeyOf (secret : Bytes) (fCompressed : Bool) : Bytes :=
  if fCompressed then env.curve.compress (env.curve.point secret) else env.curve.expand (env.curve.point secret)

/-- The secret decrypts and belongs to the public key. -/
def checkSecret (vMasterKeyIn vchPubKey vchCryptedSecret : Bytes) : Bool :=
  match decryptSecret env vMasterKeyIn vchCryptedSecret (env.hash vchPubKey) with
  | none => false
  | some vchSecret =>
    vchSecret.length == ecSecretSize && pubKeyOf env vchSecret (vchPubKey.length == 33) == vchPubKey

end

/-! ## `CCryptoKeyStore` -/

namespace WalletDB

def writeKey (db : WalletDB) (vchPubKey : Bytes) (secret : CSecret) (fCompressed : Bool) : Bool × WalletDB :=
  if db.key.contains vchPubKey then (false, db)
  else (true, { db with key := db.key.insert vchPubKey (secret, fCompressed) })

def writeCryptedKey (db : WalletDB) (vchPubKey vchCryptedSecret : Bytes) : Bool × WalletDB :=
  if db.ckey.contains vchPubKey then (false, db)
  else (true, { db with ckey := db.ckey.insert vchPubKey vchCryptedSecret, key := db.key.erase vchPubKey })

def writeStealthAddress (db : WalletDB) (sxAddr : CStealthAddress) : WalletDB :=
  { db with sxAddr := sxAddr :: db.sxAddr }

end WalletDB

namespace KeyWallet

section
variable (env : StealthEnv) (w : KeyWallet)

def isCrypted : Bool := w.fUseCrypto

def isLocked : Bool := w.isCrypted && w.vMasterKey.isEmpty

/-- An unencrypted wallet without keys becomes an encrypted one. -/
def setCrypted : Bool × KeyWallet :=
  if w.fUseCrypto then (true, w)
  else if !w.mapKeys.isEmpty then (false, w)
  else (true, { w with fUseCrypto := true })

def lock : Bool × KeyWallet :=
  match w.setCrypted with
  | (false, w) => (false, w)
  | (true, w) => (true, { w with vMasterKey := [] })

def haveKey (address : CKeyID) : Bool :=
  if w.isCrypted then w.mapCryptedKeys.contains address else w.mapKeys.contains address

def firstCryptedKey : Option (Bytes × Bytes) :=
  w.mapCryptedKeys.keys.head?.bind fun id => w.mapCryptedKeys[id]?

variable (vMasterKeyIn : Bytes)

def cryptoUnlock (w : KeyWallet) : Bool × KeyWallet :=
  match w.setCrypted with
  | (false, w) => (false, w)
  | (true, w) =>
    match w.firstCryptedKey with
    | none => (true, { w with vMasterKey := vMasterKeyIn })
    | some (vchPubKey, vchCryptedSecret) =>
      if checkSecret env vMasterKeyIn vchPubKey vchCryptedSecret then (true, { w with vMasterKey := vMasterKeyIn })
      else (false, w)

/-- The entry in memory is replaced, the one in the database is not. -/
def addCryptedKey (vchPubKey vchCryptedSecret : Bytes) (w : KeyWallet) : Bool × KeyWallet :=
  match w.setCrypted with
  | (false, w) => (false, w)
  | (true, w) =>
    ((w.db.writeCryptedKey vchPubKey vchCryptedSecret).1,
      { w with
        mapCryptedKeys := w.mapCryptedKeys.insert (env.pubKeyID vchPubKey) (vchPubKey, vchCryptedSecret)
        db := (w.db.writeCryptedKey vchPubKey vchCryptedSecret).2 })

def addKey (secret : CSecret) (fCompressed : Bool) (w : KeyWallet) : Bool × KeyWallet :=
  let vchPubKey := pubKeyOf env secret fCompressed
  if !w.isCrypted then
    ((w.db.writeKey vchPubKey secret fCompressed).1,
      { w with
        mapKeys := w.mapKeys.insert (env.pubKeyID vchPubKey) (secret, fCompressed)
        db := (w.db.writeKey vchPubKey secret fCompressed).2 })
  else if w.isLocked then (false, w)
  else
    match encryptSecret env w.vMasterKey secret (env.hash vchPubKey) with
    | none => (false, w)
    | some vchCryptedSecret => w.addCryptedKey env vchPubKey vchCryptedSecret

def encryptKey (w : KeyWallet) (mKey : CKeyID × CSecret × Bool) : Option KeyWallet :=
  let vchPubKey := pubKeyOf env mKey.2.1 mKey.2.2
  match encryptSecret env vMasterKeyIn mKey.2.1 (env.hash vchPubKey) with
  | none => none
  | some vchCryptedSecret =>
    match w.addCryptedKey env vchPubKey vchCryptedSecret with
    | (false, _) => none
    | (true, w) => some w

def encryptKeys (w : KeyWallet) : Option KeyWallet :=
  if !w.mapCryptedKeys.isEmpty || w.isCrypted then none
  else
    (w.mapKeys.toList.foldlM (encryptKey env vMasterKeyIn) { w with fUseCrypto := true }).map fun w =>
      { w with mapKeys := ∅ }

/-! ## Unlocking -/

/-- The spend secret after `UnlockStealthAddresses`. -/
def unlockedSecret (a : CStealthAddress) : Bytes :=
  if !a.isOwned then a.spendSecret
  else
    match decryptSecret env vMasterKeyIn a.spendSecret (env.hash a.spendPubkey) with
    | none => a.spendSecret
    | some vchSecret =>
      if vchSecret.length ≠ ecSecretSize then a.spendSecret
      else if secretToPublicKey env vchSecret ≠ a.spendPubkey then a.spendSecret
      else vchSecret

/-- The secret of a key that was received while the wallet was locked. -/
def expandedSecret (pubKey : Bytes) (w : KeyWallet) : Option CSecret :=
  match w.mapStealthKeyMeta[env.pubKeyID pubKey]? with
  | none => none
  | some sxKeyMeta =>
    match w.stealthAddresses.find? sxKeyMeta.pkScan with
    | none => none
    | some sx =>
      if sx.spendSecret.length ≠ ecSecretSize ∨ sx.scanSecret.length ≠ ecSecretSize then none
      else
        match stealthSecretSpend env sx.scanSecret sxKeyMeta.pkEphem sx.spendSecret with
        | none => none
        | some sSpendR =>
          if h : sSpendR.length = ecSecretSize ∧ secretToPublicKey env sSpendR = pubKey then some ⟨sSpendR, h.1⟩
          else none

/-- Give the entry its secret if it has none. -/
def expandKey (id : CKeyID) : KeyWallet :=
  match w.mapCryptedKeys[id]? with
  | none => w
  | some (pubKey, vchCryptedSecret) =>
    if vchCryptedSecret.length ≠ 0 then w
    else
      match w.expandedSecret env pubKey with
      | none => w
      | some secret =>
        match w.addKey env secret true with
        | (false, w) => w
        | (true, w) => { w with db := { w.db with sxKeyMeta := w.db.sxKeyMeta.erase (env.pubKeyID pubKey) } }

def unlockStealthAddresses (w : KeyWallet) : KeyWallet :=
  let w := { w with stealthAddresses := w.stealthAddresses.mapSpendSecret (unlockedSecret env vMasterKeyIn) }
  w.mapCryptedKeys.keys.foldl (expandKey env) w

variable (strWalletPassphrase : String)

/-- Decrypt one master key record and try it. -/
def tryMasterKey (k : CMasterKey) (s : KeyWallet × Bytes) : Bool × (KeyWallet × Bytes) :=
  match k.decrypt env strWalletPassphrase with
  | none => (false, s)
  | some vMasterKey =>
    let (ok, w) := s.1.cryptoUnlock env vMasterKey
    (ok, (w, vMasterKey))

def unlock (w : KeyWallet) : Bool × KeyWallet :=
  if !w.isLocked then (false, w)
  else
    match loop (tryMasterKey env strWalletPassphrase) w.mapMasterKeys (w, []) with
    | (false, (w, _)) => (false, w)
    | (true, (w, vMasterKey)) => (true, w.unlockStealthAddresses env vMasterKey)

/-! ## Encrypting the wallet -/

/-- The spend secret encrypted, for an address of ours. -/
def cryptedSpendSecret (vMasterKey : Bytes) (a : CStealthAddress) : Bytes :=
  if a.isOwned then
    (encryptSecret env vMasterKey (a.spendSecret.take ecSecretSize) (env.hash a.spendPubkey)).getD a.spendSecret
  else a.spendSecret

def encryptStealthAddresses (vMasterKey : Bytes) (w : KeyWallet) : KeyWallet :=
  let stealthAddresses := w.stealthAddresses.mapSpendSecret (cryptedSpendSecret env vMasterKey)
  { w with
    stealthAddresses := stealthAddresses
    db := (stealthAddresses.toList.filter CStealthAddress.isOwned).foldl WalletDB.writeStealthAddress w.db }

/-- `none` when the process exits. -/
def encryptWallet (seed : Seed) (w : KeyWallet) : Option (Bool × KeyWallet) :=
  if w.isCrypted then some (false, w)
  else
    let (chKey, chIV) := env.bytesToKey strWalletPassphrase seed.vchSalt seed.nDeriveIterations
    let kMasterKey : CMasterKey :=
      { vchCryptedKey := env.aes.encrypt chKey chIV seed.vMasterKey
        vchSalt := seed.vchSalt
        nDeriveIterations := seed.nDeriveIterations }
    let w := { w with mapMasterKeys := w.mapMasterKeys ++ [kMasterKey]
                      db := { w.db with mkey := w.db.mkey ++ [kMasterKey] } }
    (w.encryptKeys env seed.vMasterKey).map fun w =>
      let w := (w.encryptStealthAddresses env seed.vMasterKey).lock.2
      let w := (w.unlock env strWalletPassphrase).2
      -- `NewKeyPool`
      let w := seed.keyPool.foldl (fun w secret => (w.addKey env secret true).2) w
      (true, w.lock.2)

/-! ## Stealth addresses -/

def writeStealthAddress (sxAddr : CStealthAddress) : KeyWallet :=
  { w with db := w.db.writeStealthAddress sxAddr }

def newStealthAddress (sLabel : String) (scanSecret spendSecret : CSecret) : CStealthAddress :=
  { label := sLabel
    scanPubkey := secretToPublicKey env scanSecret
    spendPubkey := secretToPublicKey env spendSecret
    scanSecret := scanSecret
    spendSecret := spendSecret }

def addStealthAddress (sxAddr : CStealthAddress) (w : KeyWallet) : Bool × KeyWallet :=
  -- must add before changing spend_secret
  let w := { w with stealthAddresses := w.stealthAddresses.insert sxAddr }
  if sxAddr.isOwned then
    if w.isLocked then (false, { w with stealthAddresses := w.stealthAddresses.erase sxAddr })
    else if w.isCrypted then
      match encryptSecret env w.vMasterKey (sxAddr.spendSecret.take ecSecretSize) (env.hash sxAddr.spendPubkey) with
      | none => (false, { w with stealthAddresses := w.stealthAddresses.erase sxAddr })
      | some vchCryptedSecret => (true, w.writeStealthAddress { sxAddr with spendSecret := vchCryptedSecret })
    else (true, w.writeStealthAddress sxAddr)
  else (true, w.writeStealthAddress sxAddr)

def updateStealthAddress (addr : Nat) (label : String) (addIfNotExist : Bool) (w : KeyWallet) : Bool × KeyWallet :=
  match setEncoded env addr with
  | none => (false, w)
  | some sxAddr =>
    match w.stealthAddresses.toList.find? fun it => it.encoded env = addr with
    | some sxFound => (true, w.writeStealthAddress { sxFound with label := label })
    | none =>
      if addIfNotExist then
        let sxFound := { sxAddr with label := label }
        (true, { w with stealthAddresses := w.stealthAddresses.insert sxFound }.writeStealthAddress sxFound)
      else (false, w)

/-! ## Restarting -/

/-- The newest record of every scan key. -/
def loadStealthAddresses (db : WalletDB) : AddressSet := db.sxAddr.foldl AddressSet.insert .empty

def loadWallet (db : WalletDB) (scanSecret spendSecret : CSecret) : Option KeyWallet :=
  if !db.key.isEmpty && !db.ckey.isEmpty then none
  else
    let w : KeyWallet :=
      { fUseCrypto := !db.ckey.isEmpty
        mapKeys := db.key.toList.foldl (fun m e => m.insert (env.pubKeyID e.1) e.2) ∅
        mapCryptedKeys := db.ckey.toList.foldl (fun m e => m.insert (env.pubKeyID e.1) e) ∅
        mapMasterKeys := db.mkey
        stealthAddresses := loadStealthAddresses db
        mapStealthKeyMeta := db.sxKeyMeta
        db := db }
    if w.stealthAddresses.toList.isEmpty then
      some (w.addStealthAddress env (newStealthAddress env "Cloaking" scanSecret spendSecret)).2
    else some w

end

end KeyWallet

end CloakCoin.Stealth
