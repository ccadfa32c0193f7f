import CloakCoin.Lib.Map
import CloakCoin.Stealth.KeyStore

/-!
# Scanning a transaction for one-time addresses

`FindStealthTransactions` looks for the key of an `OP_RETURN` output and then for outputs that pay a key
derived with it: once directly (a stealth payment), and through `FindEnigmaTransactions` with up to as many
indices as the transaction has outputs. A key found is added to the key store, without its secret when the
wallet is locked.
-/

namespace CloakCoin.Stealth

open Chain Lib Enigma
open Std (ExtTreeMap)
open List Option Bool

variable {id : CKeyID} {s : Int × KeyWallet}

/-! ## `FindStealthTransactionForOutput` -/

section
variable (env : StealthEnv) (sx : CStealthAddress)

def stealthMatch (txoutB : CTxOut) (vchEphemPK : Bytes) : Option (Bytes × Bytes) :=
  match extractDestination env.toEnigmaEnv txoutB.scriptPubKey with
  | some (.keyID ckidMatch) =>
    match stealthSecret env sx.scanSecret vchEphemPK sx.spendPubkey with
    | none => none
    | some (sShared, pkExtracted) => if env.pubKeyID pkExtracted = ckidMatch then some (sShared, pkExtracted) else none
  | _ => none

def oneTimeSecret (sShared : Bytes) : CSecret :=
  ⟨stealthSharedToSecretSpend env sShared sx.spendSecret, env.curve.length_addSecrets _ _⟩

def receiveLocked (cpkE vchEphemPK : Bytes) (w : KeyWallet) : KeyWallet :=
  let w := (w.addCryptedKey env cpkE []).2
  let lockedSkMeta : CStealthKeyMetadata := ⟨vchEphemPK, sx.scanPubkey⟩
  { w with
    mapStealthKeyMeta := w.mapStealthKeyMeta.insert (env.pubKeyID cpkE) lockedSkMeta
    db := { w.db with sxKeyMeta := w.db.sxKeyMeta.insert (env.pubKeyID cpkE) lockedSkMeta } }

def findStealthTransactionForOutput (txoutStealthKey txoutB : CTxOut) (vchEphemPK : Bytes)
    (isEnigmaAddress : Bool) (w : KeyWallet) : Bool × KeyWallet :=
  match stealthMatch env sx txoutB vchEphemPK with
  | none => (false, w)
  | some (sShared, pkExtracted) =>
    -- a narration that does not decrypt is a failure, but not for Enigma, and the key stays
    let narrated := isEnigmaAddress || env.narrationOk txoutStealthKey sShared
    if w.isLocked then (narrated, receiveLocked env sx pkExtracted vchEphemPK w)
    else if sx.spendSecret.length ≠ ecSecretSize then (false, w)
    else
      match w.addKey env (oneTimeSecret env sx sShared) true with
      | (false, w) => (false, w)
      | (true, w) => (narrated, w)

/-! ## `FindEnigmaTransactions` -/

def firstAddress (rootKey : Bytes) (hash : Hash256) : Option CTxDestination :=
  match getEnigmaChangeAddresses env.toEnigmaEnv (sx.encoded env) rootKey hash 1 0 with
  | some (script :: _) => extractDestination env.toEnigmaEnv script
  | _ => none

variable (addresses : AddressSet)

def lookupAddress (rootKey : Bytes) (hash : CStealthAddress → Hash256) (d : CTxDestination) : Option Nat :=
  (addresses.toList.reverse.find? fun sx => sx.isOwned && decide (firstAddress env sx rootKey (hash sx) = some d)).map
    (·.encoded env)

def getStealthAddress (enigmaAddress : Nat) : Option CStealthAddress :=
  addresses.toList.find? fun sx => sx.isOwned && decide (sx.encoded env = enigmaAddress)

def matchedAddress (rootKey : Bytes) (d : CTxDestination) : Option (CStealthAddress × Hash256) :=
  match (lookupAddress env addresses rootKey (·.getEnigmaAddressPrivateHash env) d).bind
      (getStealthAddress env addresses) with
  | some sx => some (sx, sx.getEnigmaAddressPrivateHash env)
  | none =>
    ((lookupAddress env addresses rootKey (fun _ => rootHash rootKey) d).bind (getStealthAddress env addresses)).map
      fun sx => (sx, rootHash rootKey)

def stealthIndex (rootKey : Bytes) (hash : Hash256) (num : Nat) (d : CTxDestination) : Option Nat :=
  match getEnigmaChangeAddresses env.toEnigmaEnv (sx.encoded env) rootKey hash num 0 with
  | none => none
  | some scripts =>
    (List.range num).reverse.find? fun i =>
      decide ((scripts[i]?).bind (extractDestination env.toEnigmaEnv) = some d)

/-- The inner loop over the outputs, with the amount found. -/
def findInner (rootKey : Bytes) (hash : Hash256) (num : Nat) (txoutStealthKey : CTxOut)
    (s : Int × KeyWallet) (txoutInner : CTxOut) : Int × KeyWallet :=
  if txoutInner = txoutStealthKey ∨ txoutInner.nValue = 0 then s
  else
    match extractDestination env.toEnigmaEnv txoutInner.scriptPubKey with
    | some (.keyID id) =>
      match stealthIndex env sx rootKey hash num (.keyID id) with
      | none => s
      | some i =>
        match findStealthTransactionForOutput env sx txoutStealthKey txoutInner
            (secretToPublicKey env (env.enigmaSecret rootKey hash i)) true s.2 with
        | (true, w) => (s.1 + txoutInner.nValue, w)
        | (false, w) => (s.1, w)
    | _ => s

def findOuter (rootKey : Bytes) (vout : List CTxOut) (txoutStealthKey : CTxOut)
    (s : Int × KeyWallet) (txout : CTxOut) : Int × KeyWallet :=
  if txout = txoutStealthKey then s
  else
    match extractDestination env.toEnigmaEnv txout.scriptPubKey with
    | some (.keyID id) =>
      match matchedAddress env addresses rootKey (.keyID id) with
      | none => s
      | some (sx, ourHash) => vout.foldl (findInner env sx rootKey ourHash vout.length txoutStealthKey) s
    | _ => s

variable (tx : CTransaction)

def findEnigmaTransactions (txoutStealthKey : CTxOut) (vchEphemPK : Bytes) (w : KeyWallet) : Int × KeyWallet :=
  tx.vout.foldl (findOuter env w.stealthAddresses vchEphemPK tx.vout txoutStealthKey) (0, w)

/-! ## `FindStealthTransactions` -/

def stealthReturn (vout : List CTxOut) : Option (CTxOut × Bytes) :=
  vout.findSome? fun txout => (ephemPKOf txout.scriptPubKey).map fun key => (txout, key)

def findForAddresses (txoutStealthKey txoutB : CTxOut) (vchEphemPK : Bytes) :
    List CStealthAddress → KeyWallet → Bool × KeyWallet
  | [], w => (false, w)
  | sx :: rest, w =>
    if !sx.isOwned then findForAddresses txoutStealthKey txoutB vchEphemPK rest w
    else
      match findStealthTransactionForOutput env sx txoutStealthKey txoutB vchEphemPK false w with
      | (true, w) => (true, w)
      | (false, w) => findForAddresses txoutStealthKey txoutB vchEphemPK rest w

/-- Only one output will match an ephemeral key. -/
def findStealthOutput (txoutStealthKey : CTxOut) (vchEphemPK : Bytes) : List CTxOut → KeyWallet → Int × KeyWallet
  | [], w => (0, w)
  | txoutB :: rest, w =>
    match findForAddresses env txoutStealthKey txoutB vchEphemPK w.stealthAddresses.toList w with
    | (true, w) => (txoutB.nValue, w)
    | (false, w) => findStealthOutput txoutStealthKey vchEphemPK rest w

/-- The amounts found, by stealth and by Enigma payments, and the wallet. -/
def findStealthTransactions (w : KeyWallet) : Int × Int × KeyWallet :=
  match stealthReturn tx.vout with
  | none => (0, 0, w)
  | some (txoutStealthKey, vchEphemPK) =>
    let (stealthAmountOut, w) := findStealthOutput env txoutStealthKey vchEphemPK tx.vout w
    let (enigmaAmountOut, w) := findEnigmaTransactions env tx txoutStealthKey vchEphemPK w
    (stealthAmountOut, enigmaAmountOut, w)

def KeyWallet.scan (w : KeyWallet) : KeyWallet := (findStealthTransactions env tx w).2.2

end

/-! ## What a scan may change -/

structure Grown (P : CKeyID → Prop) (w w' : KeyWallet) : Prop where
  crypto : w'.fUseCrypto = w.fUseCrypto
  master : w'.vMasterKey = w.vMasterKey
  records : w'.mapMasterKeys = w.mapMasterKeys
  addresses : w'.stealthAddresses = w.stealthAddresses
  written : w'.db.sxAddr = w.db.sxAddr
  kept : ∀ id, w.haveKey id = true → w'.haveKey id = true
  plain : ∀ id, ¬P id → w'.mapKeys[id]? = w.mapKeys[id]?
  crypted : ∀ id, ¬P id → w'.mapCryptedKeys[id]? = w.mapCryptedKeys[id]?

namespace Grown

variable {P Q : CKeyID → Prop} {w w₁ w₂ : KeyWallet}

theorem refl (w : KeyWallet) : Grown P w w :=
  ⟨rfl, rfl, rfl, rfl, rfl, fun _ h => h, fun _ _ => rfl, fun _ _ => rfl⟩

theorem trans (h1 : Grown P w w₁) (h2 : Grown P w₁ w₂) : Grown P w w₂ :=
  ⟨h2.crypto.trans h1.crypto, h2.master.trans h1.master, h2.records.trans h1.records,
    h2.addresses.trans h1.addresses, h2.written.trans h1.written, fun id h => h2.kept id (h1.kept id h),
    fun id h => (h2.plain id h).trans (h1.plain id h), fun id h => (h2.crypted id h).trans (h1.crypted id h)⟩

theorem mono (h : Grown P w w₁) (hPQ : ∀ id, P id → Q id) : Grown Q w w₁ :=
  { h with
    plain := fun id hid => h.plain id fun hp => hid (hPQ id hp)
    crypted := fun id hid => h.crypted id fun hp => hid (hPQ id hp) }

theorem isLocked (h : Grown P w w₁) : w₁.isLocked = w.isLocked := by
  rw [KeyWallet.isLocked, KeyWallet.isLocked, KeyWallet.isCrypted, KeyWallet.isCrypted, h.crypto, h.master]

theorem added (h : Grown P w w₁) (hn : w₁.haveKey id = true) (hold : w.haveKey id = false) : P id := by
  by_contra hP
  refine absurd hn ?_
  rw [not_eq_true, ← hold]
  unfold KeyWallet.haveKey KeyWallet.isCrypted
  rw [h.crypto, ExtTreeMap.contains_eq_isSome_getElem?, ExtTreeMap.contains_eq_isSome_getElem?,
    ExtTreeMap.contains_eq_isSome_getElem?, ExtTreeMap.contains_eq_isSome_getElem?, h.plain id hP, h.crypted id hP]

theorem foldl {l : List α} {s : Int × KeyWallet}
    (hs : ∀ a ∈ l, ∀ s' : Int × KeyWallet, Grown P s.2 s'.2 → Grown P s'.2 (step s' a).2) :
    Grown P s.2 (l.foldl step s).2 := by
  refine List.foldlRecOn (motive := fun s' => Grown P s.2 s'.2) l step (.refl s.2) ?_
  intro s' h a ha
  exact h.trans (hs a ha s' h)

theorem haveKey_foldl {step : Int × KeyWallet → α → Int × KeyWallet} {l : List α}
    (hs : ∀ a ∈ l, ∀ s' : Int × KeyWallet, Grown P s.2 s'.2 → Grown P s'.2 (step s' a).2) {a : α} (ha : a ∈ l)
    (hat : ∀ s' : Int × KeyWallet, Grown P s.2 s'.2 → (step s' a).2.haveKey id = true) :
    (l.foldl step s).2.haveKey id = true := by
  obtain ⟨l1, l2, rfl⟩ := append_of_mem ha
  have hbe : Grown P s.2 (l1.foldl step s).2 := foldl fun b hb => hs b (mem_append_left _ hb)
  have haf : Grown P (step (l1.foldl step s) a).2 (l2.foldl step (step (l1.foldl step s) a)).2 :=
    foldl fun b hb s' hs' => hs b (mem_append_right _ (mem_cons_of_mem a hb)) s'
      ((hbe.trans (hs a ha _ hbe)).trans hs')
  rw [foldl_append, foldl_cons]
  exact haf.kept id (hat _ hbe)

end Grown

/-! ## Adding one key -/

section
variable {env : StealthEnv} {P : CKeyID → Prop} {addresses : AddressSet} {sx : CStealthAddress} {txoutB : CTxOut}
  {vchEphemPK rootKey : Bytes} {d : CTxDestination} {hash : Hash256} {i num : Nat} {w : KeyWallet}

theorem KeyWallet.addCryptedKey_eq (h : w.fUseCrypto = true) (vchPubKey vchCryptedSecret : Bytes) :
    (w.addCryptedKey env vchPubKey vchCryptedSecret).2 =
      { w with
        mapCryptedKeys := w.mapCryptedKeys.insert (env.pubKeyID vchPubKey) (vchPubKey, vchCryptedSecret)
        db := (w.db.writeCryptedKey vchPubKey vchCryptedSecret).2 } := by
  unfold KeyWallet.addCryptedKey KeyWallet.setCrypted
  rw [if_pos h]

@[simp] theorem WalletDB.sxAddr_writeCryptedKey (db : WalletDB) (vchPubKey vchCryptedSecret : Bytes) :
    (db.writeCryptedKey vchPubKey vchCryptedSecret).2.sxAddr = db.sxAddr := by
  unfold WalletDB.writeCryptedKey
  split_ifs <;> rfl

@[simp] theorem WalletDB.sxAddr_writeKey (db : WalletDB) (vchPubKey : Bytes) (secret : CSecret) (fCompressed : Bool) :
    (db.writeKey vchPubKey secret fCompressed).2.sxAddr = db.sxAddr := by
  unfold WalletDB.writeKey
  split_ifs <;> rfl

theorem contains_insert_of_contains {m : KeyMap β} {v : β} (h : m.contains id = true) :
    (m.insert id' v).contains id = true := by
  rw [ExtTreeMap.contains_insert, h, Bool.or_true]

variable (env) in
theorem KeyWallet.addCryptedKey_grown (h : w.fUseCrypto = true) (vchPubKey vchCryptedSecret : Bytes) :
    Grown (· = env.pubKeyID vchPubKey) w (w.addCryptedKey env vchPubKey vchCryptedSecret).2 := by
  rw [addCryptedKey_eq h]
  refine ⟨rfl, rfl, rfl, rfl, WalletDB.sxAddr_writeCryptedKey _ _ _, fun id hid => ?_, fun _ _ => rfl,
    fun id hid => getElem?_insert_ne _ hid _⟩
  simp only [haveKey, isCrypted, h, if_true] at hid ⊢
  exact contains_insert_of_contains hid

variable (env) in
theorem KeyWallet.addKey_grown (w : KeyWallet) (secret : CSecret) (fCompressed : Bool) :
    Grown (· = env.pubKeyID (pubKeyOf env secret fCompressed)) w (w.addKey env secret fCompressed).2 := by
  unfold addKey
  dsimp only
  split_ifs with hp hl
  · refine ⟨rfl, rfl, rfl, rfl, WalletDB.sxAddr_writeKey _ _ _ _, fun id hid => ?_,
      fun id hid => getElem?_insert_ne _ hid _, fun _ _ => rfl⟩
    have hp : w.fUseCrypto = false := by simpa [isCrypted] using hp
    simp only [haveKey, isCrypted, hp, false_eq_true, if_false] at hid ⊢
    exact contains_insert_of_contains hid
  · exact .refl w
  · split
    · exact .refl w
    · exact addCryptedKey_grown env (by simpa [isCrypted] using hp) _ _

def KeyWallet.Unlocked (w : KeyWallet) : Prop := w.isCrypted = true → w.vMasterKey.length = walletCryptoKeySize

theorem KeyWallet.Unlocked.isLocked (h : w.Unlocked) : w.isLocked = false := by
  unfold KeyWallet.isLocked
  cases hc : w.isCrypted with
  | false => rfl
  | true =>
    have hl := h hc
    rw [Bool.true_and, List.isEmpty_eq_false_iff]
    intro hn
    rw [hn] at hl
    cases hl

theorem Grown.unlocked (h : Grown P w w') (hu : w.Unlocked) : w'.Unlocked := by
  unfold KeyWallet.Unlocked KeyWallet.isCrypted
  rw [h.crypto, h.master]
  exact hu

variable (env) in
theorem KeyWallet.haveKey_addKey (h : w.Unlocked) (secret : CSecret) (fCompressed : Bool) :
    (w.addKey env secret fCompressed).2.haveKey (env.pubKeyID (pubKeyOf env secret fCompressed)) = true := by
  unfold addKey
  cases hc : w.fUseCrypto with
  | false => simp [isCrypted, hc, haveKey]
  | true =>
    have hcr : w.isCrypted = true := hc
    have he : encryptSecret env w.vMasterKey secret (env.hash (pubKeyOf env secret fCompressed)) =
        some (env.aes.encrypt w.vMasterKey (env.hash (pubKeyOf env secret fCompressed)) secret) := by
      rw [encryptSecret, if_neg (not_not.mpr (h hcr))]
    simp [h.isLocked, he, addCryptedKey_eq hc, haveKey, isCrypted, hc]

/-! ## One output -/

def KeyWallet.SecretsMatch (env : StealthEnv) (w : KeyWallet) : Prop :=
  ∀ sx ∈ w.stealthAddresses, sx.isOwned = true → sx.spendSecret.length = ecSecretSize → sx.Clear env

structure ScanReady (env : StealthEnv) (P : CKeyID → Prop) (addresses : AddressSet) (w : KeyWallet) : Prop where
  addresses : w.stealthAddresses = addresses
  secrets : w.isLocked = false → w.SecretsMatch env ∨ ∀ id, P id

theorem Grown.scanReady (h : Grown P w w') (hw : ScanReady env Q addresses w) : ScanReady env Q addresses w' := by
  refine ⟨h.addresses.trans hw.addresses, fun ho => ?_⟩
  unfold KeyWallet.SecretsMatch
  rw [h.addresses]
  exact hw.secrets (h.isLocked ▸ ho)

theorem ScanReady.clear (h : ScanReady env P addresses w) (hsx : sx ∈ addresses) (ho : sx.isOwned = true)
    (hope : w.isLocked = false) (hs : sx.spendSecret.length = ecSecretSize) : sx.Clear env ∨ ∀ id, P id :=
  (h.secrets hope).imp_left fun hm => hm sx (h.addresses ▸ hsx) ho hs

theorem stealthMatch_keyID (h : stealthMatch env sx txoutB vchEphemPK = some (sShared, pk)) :
    extractDestination env.toEnigmaEnv txoutB.scriptPubKey = some (.keyID (env.pubKeyID pk)) ∧
      stealthSecret env sx.scanSecret vchEphemPK sx.spendPubkey = some (sShared, pk) := by
  unfold stealthMatch at h
  split at h
  · rename_i id hid
    split at h
    · cases h
    rename_i hs
    split_ifs at h with heq
    cases h
    rw [heq]
    exact ⟨hid, hs⟩
  · cases h

theorem findStealthTransactionForOutput_grown (txoutStealthKey : CTxOut) (isEnigmaAddress : Bool)
    (hp : ∀ id, (stealthMatch env sx txoutB vchEphemPK).isSome = true →
      extractDestination env.toEnigmaEnv txoutB.scriptPubKey = some (.keyID id) → P id)
    (hcl : w.isLocked = false → sx.spendSecret.length = ecSecretSize → sx.Clear env ∨ ∀ id, P id) :
    Grown P w (findStealthTransactionForOutput env sx txoutStealthKey txoutB vchEphemPK isEnigmaAddress w).2 := by
  unfold findStealthTransactionForOutput
  split
  · exact .refl w
  rename_i sShared pk hm
  obtain ⟨hd, hs⟩ := stealthMatch_keyID hm
  have hpk : ∀ id, id = env.pubKeyID pk → P id := by
    rintro id rfl
    exact hp _ (by rw [hm]; rfl) hd
  split_ifs with hl hsi
  · have hc : w.fUseCrypto = true := ((and_eq_true _ _).mp hl).1
    have hg := KeyWallet.addCryptedKey_grown env hc pk []
    exact Grown.mono ⟨hg.crypto, hg.master, hg.records, hg.addresses, hg.written, hg.kept,
      hg.plain, hg.crypted⟩ hpk
  · exact .refl w
  have ha : ∀ id, id = env.pubKeyID (pubKeyOf env (oneTimeSecret env sx sShared) true) → P id := by
    rcases hcl (by simpa using hl) (not_not.mp hsi) with hcl | hal
    · have hkey : pubKeyOf env (oneTimeSecret env sx sShared) true = pk := hcl.point_oneTimeSecret hs
      rw [hkey]
      exact hpk
    · exact fun id _ => hal id
  have hg := (KeyWallet.addKey_grown env w (oneTimeSecret env sx sShared) true).mono ha
  split
  · rename_i w' had
    rw [had] at hg
    exact hg
  · rename_i w' had
    rw [had] at hg
    exact hg

theorem haveKey_findStealthTransactionForOutput (hw : w.Unlocked) (hsx : sx.Clear env) (txoutStealthKey : CTxOut)
    (isEnigmaAddress : Bool) (hm : stealthMatch env sx txoutB vchEphemPK = some (sShared, pk)) :
    (findStealthTransactionForOutput env sx txoutStealthKey txoutB vchEphemPK isEnigmaAddress w).2.haveKey
      (env.pubKeyID pk) = true := by
  have hkey : pubKeyOf env (oneTimeSecret env sx sShared) true = pk :=
    hsx.point_oneTimeSecret (stealthMatch_keyID hm).2
  have ha := KeyWallet.haveKey_addKey env hw (oneTimeSecret env sx sShared) true
  rw [hkey] at ha
  unfold findStealthTransactionForOutput
  simp only [hm, hw.isLocked, false_eq_true, if_false, hsx.1, ne_eq, not_true_eq_false]
  split
  · rename_i w' had
    rw [had] at ha
    exact ha
  · rename_i w' had
    rw [had] at ha
    exact ha

/-! ## One-time addresses of the wallet -/

theorem CStealthAddress.scanPubkey_eq_of_encoded_eq {sx' : CStealthAddress} (h : sx.encoded env = sx'.encoded env) :
    sx.scanPubkey = sx'.scanPubkey := by
  have hd := env.decode_encode sx.options sx.scanPubkey sx.spendPubkey
  rw [show env.encode sx.options sx.scanPubkey sx.spendPubkey = env.encode sx'.options sx'.scanPubkey sx'.spendPubkey
    from h, env.decode_encode] at hd
  exact (congrArg (fun t => t.2.1) (Option.some.inj hd)).symm

theorem firstAddress_eq (sx : CStealthAddress) (rootKey : Bytes) (hash : Hash256) :
    firstAddress env sx rootKey hash = some (.keyID (env.enigmaKey (sx.encoded env) rootKey hash 0)) := by
  simp [firstAddress, getEnigmaChangeAddresses]

theorem getStealthAddress_encoded (hm : sx ∈ addresses) (ho : sx.isOwned = true) :
    getStealthAddress env addresses (sx.encoded env) = some sx := by
  unfold getStealthAddress
  rcases h : addresses.toList.find? fun sx' => sx'.isOwned && decide (sx'.encoded env = sx.encoded env) with _ | sx'
  · have hn := find?_eq_none.mp h sx hm
    simp [ho] at hn
  have hp := find?_some h
  rw [and_eq_true, decide_eq_true_eq] at hp
  rw [h, addresses.eq_of_scanPubkey_eq (mem_of_find?_eq_some h) hm
    (CStealthAddress.scanPubkey_eq_of_encoded_eq hp.2)]

theorem lookupAddress_spec {hash : CStealthAddress → Hash256}
    (h : (lookupAddress env addresses rootKey hash d).bind (getStealthAddress env addresses) = some sx) :
    sx ∈ addresses ∧ sx.isOwned = true ∧ d = .keyID (env.enigmaKey (sx.encoded env) rootKey (hash sx) 0) := by
  obtain ⟨enc, hl, hg⟩ := bind_eq_some_iff.mp h
  obtain ⟨sx', hf, rfl⟩ := map_eq_some_iff.mp hl
  have hm : sx' ∈ addresses := mem_reverse.mp (mem_of_find?_eq_some hf)
  have hp := find?_some hf
  rw [and_eq_true, decide_eq_true_eq, firstAddress_eq, Option.some.injEq] at hp
  rw [getStealthAddress_encoded hm hp.1] at hg
  cases hg
  exact ⟨hm, hp.1, hp.2.symm⟩

theorem matchedAddress_spec (h : matchedAddress env addresses rootKey d = some (sx, hash)) :
    sx ∈ addresses ∧ sx.isOwned = true ∧ (hash = sx.getEnigmaAddressPrivateHash env ∨ hash = rootHash rootKey) ∧
      d = .keyID (env.enigmaKey (sx.encoded env) rootKey hash 0) := by
  unfold matchedAddress at h
  split at h
  · rename_i sx' hc
    cases h
    obtain ⟨hm, ho, hd⟩ := lookupAddress_spec hc
    exact ⟨hm, ho, .inl rfl, hd⟩
  · obtain ⟨sx', ht, heq⟩ := map_eq_some_iff.mp h
    cases heq
    obtain ⟨hm, ho, hd⟩ := lookupAddress_spec ht
    exact ⟨hm, ho, .inr rfl, hd⟩

theorem stealthIndex_spec (h : stealthIndex env sx rootKey hash num d = some i) :
    num ≤ 60 ∧ i < num ∧ d = .keyID (env.enigmaKey (sx.encoded env) rootKey hash i) := by
  unfold stealthIndex getEnigmaChangeAddresses at h
  split_ifs at h with hn
  · have hi : i < num := mem_range.mp (mem_reverse.mp (mem_of_find?_eq_some h))
    have hp := find?_some h
    simp only [getElem?_map, getElem?_range hi, map_some, bind_some,
      extractDestination_scriptForKeyID, decide_eq_true_eq, Option.some.injEq, add_zero] at hp
    exact ⟨by omega, hi, hp.symm⟩

variable (env) in
theorem exists_stealthIndex (sx : CStealthAddress) (rootKey : Bytes) (hash : Hash256) (hi : i < num) (hn : num ≤ 60) :
    ∃ j, stealthIndex env sx rootKey hash num (.keyID (env.enigmaKey (sx.encoded env) rootKey hash i)) = some j := by
  rw [← isSome_iff_exists]
  unfold stealthIndex getEnigmaChangeAddresses
  rw [if_pos (.inr hn)]
  refine find?_isSome.mpr ⟨i, mem_reverse.mpr (mem_range.mpr hi), ?_⟩
  simp [getElem?_range hi]

/-! ## What a whole scan adds -/

def PaysAddress (env : StealthEnv) (vout : List CTxOut) (txoutStealthKey : CTxOut) (rootKey : Bytes)
    (sx : CStealthAddress) (txout : CTxOut) (id : CKeyID) : Prop :=
  (stealthMatch env sx txout rootKey).isSome = true ∨
    txout ≠ txoutStealthKey ∧ txout.nValue ≠ 0 ∧ vout.length ≤ 60 ∧
      ∃ hash, (hash = sx.getEnigmaAddressPrivateHash env ∨ hash = rootHash rootKey) ∧
        ∃ i < vout.length, id = env.enigmaKey (sx.encoded env) rootKey hash i

/-- An output of the transaction pays the key, to an address of ours. -/
def Found (env : StealthEnv) (addresses : AddressSet) (vout : List CTxOut) (id : CKeyID) : Prop :=
  ∃ txoutStealthKey rootKey, stealthReturn vout = some (txoutStealthKey, rootKey) ∧
    ∃ sx ∈ addresses, sx.isOwned = true ∧
      ∃ txout ∈ vout, extractDestination env.toEnigmaEnv txout.scriptPubKey = some (.keyID id) ∧
        PaysAddress env vout txoutStealthKey rootKey sx txout id

structure ScanCall (env : StealthEnv) (addresses : AddressSet) (vout : List CTxOut) (txoutStealthKey : CTxOut)
    (rootKey : Bytes) (sx : CStealthAddress) (txoutB : CTxOut) (vchEphemPK : Bytes)
      (isEnigmaAddress : Bool) : Prop where
  mem : sx ∈ addresses
  owned : sx.isOwned = true
  out : txoutB ∈ vout
  ephem : isEnigmaAddress = false ∧ vchEphemPK = rootKey ∨
    isEnigmaAddress = true ∧ txoutB ≠ txoutStealthKey ∧ txoutB.nValue ≠ 0 ∧
      ∃ hash, (hash = sx.getEnigmaAddressPrivateHash env ∨ hash = rootHash rootKey) ∧
        ∃ id i, extractDestination env.toEnigmaEnv txoutB.scriptPubKey = some (.keyID id) ∧
          stealthIndex env sx rootKey hash vout.length (.keyID id) = some i ∧
          vchEphemPK = secretToPublicKey env (env.enigmaSecret rootKey hash i)

section
variable {P : CKeyID → Prop} {addresses : AddressSet} {vout : List CTxOut} {txoutStealthKey : CTxOut}
  {rootKey : Bytes} {txoutInner : CTxOut} {tx : CTransaction}

theorem ScanCall.found (h : ScanCall env addresses vout txoutStealthKey rootKey sx txoutB vchEphemPK isEnigmaAddress)
    (hkey : stealthReturn vout = some (txoutStealthKey, rootKey))
    (hm : (stealthMatch env sx txoutB vchEphemPK).isSome = true)
    (hd : extractDestination env.toEnigmaEnv txoutB.scriptPubKey = some (.keyID id)) : Found env addresses vout id := by
  refine ⟨txoutStealthKey, rootKey, hkey, sx, h.mem, h.owned, txoutB, h.out, hd, ?_⟩
  rcases h.ephem with ⟨-, rfl⟩ | ⟨-, hne, hv, hash, hh, id', i, hid, hi, -⟩
  · exact .inl hm
  obtain ⟨hn, hlt, heq⟩ := stealthIndex_spec hi
  rw [hd] at hid
  cases hid
  exact .inr ⟨hne, hv, hn, hash, hh, i, hlt, CTxDestination.keyID.inj heq⟩

/-! ### Invariants of a scan -/

section
variable {I : KeyWallet → Prop}
  (hI : ∀ sx txoutB vchEphemPK isEnigmaAddress w,
    ScanCall env addresses vout txoutStealthKey rootKey sx txoutB vchEphemPK isEnigmaAddress → I w →
    I (findStealthTransactionForOutput env sx txoutStealthKey txoutB vchEphemPK isEnigmaAddress w).2)
include hI

theorem findForAddresses_rule (hou : txoutB ∈ vout) (hl : ∀ sx ∈ l, sx ∈ addresses) (hw : I w) :
    I (findForAddresses env txoutStealthKey txoutB rootKey l w).2 := by
  induction l generalizing w with
  | nil => exact hw
  | cons sx rest ih =>
    have hr := fun sx' h => hl sx' (mem_cons_of_mem sx h)
    rw [findForAddresses]
    split_ifs with ho
    · exact ih hr hw
    have hon := hI sx txoutB rootKey false w
      ⟨hl sx mem_cons_self, by simpa using ho, hou, .inl ⟨rfl, rfl⟩⟩ hw
    split
    · rename_i w' hw'
      rw [hw'] at hon
      exact hon
    · rename_i w' hw'
      rw [hw'] at hon
      exact ih hr hon

theorem findStealthOutput_rule (ha : ∀ w, I w → w.stealthAddresses = addresses) (l : List CTxOut) (hl : l ⊆ vout)
    (hw : I w) : I (findStealthOutput env txoutStealthKey rootKey l w).2 := by
  induction l generalizing w with
  | nil => exact hw
  | cons txoutB rest ih =>
    have ho := findForAddresses_rule hI (hl mem_cons_self)
      (fun sx h => ha w hw ▸ h) hw
    rw [findStealthOutput]
    split
    · rename_i w' hw'
      rw [hw'] at ho
      exact ho
    · rename_i w' hw'
      rw [hw'] at ho
      exact ih (fun x hx => hl (mem_cons_of_mem txoutB hx)) ho

theorem findInner_rule (hsx : sx ∈ addresses) (ho : sx.isOwned = true)
    (hh : hash = sx.getEnigmaAddressPrivateHash env ∨ hash = rootHash rootKey) (hou : txoutInner ∈ vout) (hw : I s.2) :
    I (findInner env sx rootKey hash vout.length txoutStealthKey s txoutInner).2 := by
  unfold findInner
  split_ifs with hs
  · exact hw
  split
  · rename_i id hid
    split
    · exact hw
    rename_i i hi
    have hon := hI sx txoutInner _ true s.2 ⟨hsx, ho, hou, .inr ⟨rfl, fun h => hs (.inl h),
      fun h => hs (.inr h), hash, hh, id, i, hid, hi, rfl⟩⟩ hw
    split
    · rename_i w' hw'
      rw [hw'] at hon
      exact hon
    · rename_i w' hw'
      rw [hw'] at hon
      exact hon
  · exact hw

theorem findOuter_rule (txout : CTxOut) (hw : I s.2) :
    I (findOuter env addresses rootKey vout txoutStealthKey s txout).2 := by
  unfold findOuter
  split_ifs
  · exact hw
  split
  · split
    · exact hw
    rename_i sx hash hm
    obtain ⟨hsx, ho, hh, -⟩ := matchedAddress_spec hm
    refine List.foldlRecOn (motive := fun s' : Int × KeyWallet => I s'.2) vout _ hw ?_
    intro s' hs' txoutInner hou
    exact findInner_rule hI hsx ho hh hou hs'
  · exact hw

end

theorem scan_eq (hkey : stealthReturn tx.vout = some (txoutStealthKey, rootKey)) (w : KeyWallet) :
    w.scan env tx = (tx.vout.foldl
      (findOuter env (findStealthOutput env txoutStealthKey rootKey tx.vout w).2.stealthAddresses rootKey tx.vout
        txoutStealthKey) (0, (findStealthOutput env txoutStealthKey rootKey tx.vout w).2)).2 := by
  rw [KeyWallet.scan, findStealthTransactions, hkey]
  rfl

theorem KeyWallet.scan_rule {I : KeyWallet → Prop} (ha : ∀ w', I w' → w'.stealthAddresses = w.stealthAddresses)
    (hI : ∀ txoutStealthKey rootKey, stealthReturn tx.vout = some (txoutStealthKey, rootKey) →
      ∀ sx txoutB vchEphemPK isEnigmaAddress w',
        ScanCall env w.stealthAddresses tx.vout txoutStealthKey rootKey sx txoutB vchEphemPK isEnigmaAddress → I w' →
        I (findStealthTransactionForOutput env sx txoutStealthKey txoutB vchEphemPK isEnigmaAddress w').2)
    (hw : I w) : I (w.scan env tx) := by
  rcases hkey : stealthReturn tx.vout with _ | ⟨key, rootKey⟩
  · rw [KeyWallet.scan, findStealthTransactions, hkey]
    exact hw
  have hst := findStealthOutput_rule (hI key rootKey hkey) ha tx.vout (List.Subset.refl _) hw
  rw [scan_eq hkey, ha _ hst]
  refine List.foldlRecOn (motive := fun s : Int × KeyWallet => I s.2) tx.vout _ hst ?_
  intro s hs txout _
  exact findOuter_rule (hI key rootKey hkey) txout hs

/-! ### Keys that are added -/

theorem ScanCall.grown (hP : ∀ id, Found env addresses vout id → P id)
    (hkey : stealthReturn vout = some (txoutStealthKey, rootKey)) (hw0 : ScanReady env P addresses w0)
    (sx : CStealthAddress) (txoutB : CTxOut) (vchEphemPK : Bytes) (isEnigmaAddress : Bool) (w : KeyWallet)
    (hc : ScanCall env addresses vout txoutStealthKey rootKey sx txoutB vchEphemPK isEnigmaAddress) (hw : Grown P w0 w)
    : Grown P w0 (findStealthTransactionForOutput env sx txoutStealthKey txoutB vchEphemPK isEnigmaAddress w).2 := by
  have hp : ∀ id, (stealthMatch env sx txoutB vchEphemPK).isSome = true →
      extractDestination env.toEnigmaEnv txoutB.scriptPubKey = some (.keyID id) → P id :=
    fun id hm hd => hP id (hc.found hkey hm hd)
  exact hw.trans (findStealthTransactionForOutput_grown txoutStealthKey isEnigmaAddress hp
    ((hw.scanReady hw0).clear hc.mem hc.owned))

theorem findStealthOutput_grown (hP : ∀ id, Found env addresses vout id → P id)
    (hkey : stealthReturn vout = some (txoutStealthKey, rootKey)) (hl : l ⊆ vout)
    (hw : ScanReady env P addresses w) : Grown P w (findStealthOutput env txoutStealthKey rootKey l w).2 :=
  findStealthOutput_rule (ScanCall.grown hP hkey hw) (fun _ h => h.addresses.trans hw.addresses) l hl (.refl w)

variable {s : Int × KeyWallet}

section
variable (hP : ∀ id, Found env addresses vout id → P id) (hkey : stealthReturn vout = some (txoutStealthKey, rootKey))
include hP hkey

theorem findInner_grown (hsx : sx ∈ addresses) (ho : sx.isOwned = true)
    (hh : hash = sx.getEnigmaAddressPrivateHash env ∨ hash = rootHash rootKey) (hou : txoutInner ∈ vout)
    (hw : ScanReady env P addresses s.2) :
    Grown P s.2 (findInner env sx rootKey hash vout.length txoutStealthKey s txoutInner).2 :=
  findInner_rule (ScanCall.grown hP hkey hw) hsx ho hh hou (.refl s.2)

theorem findOuter_grown (txout : CTxOut) (hw : ScanReady env P addresses s.2) :
    Grown P s.2 (findOuter env addresses rootKey vout txoutStealthKey s txout).2 :=
  findOuter_rule (ScanCall.grown hP hkey hw) txout (.refl s.2)

end

theorem KeyWallet.scan_grown_of (hP : ∀ id, Found env w.stealthAddresses tx.vout id → P id)
    (hr : ScanReady env P w.stealthAddresses w) : Grown P w (w.scan env tx) :=
  scan_rule (fun _ h => h.addresses) (fun _ _ hkey => ScanCall.grown hP hkey hr) (.refl w)

variable (env) in
theorem scan_grown (tx : CTransaction) (hw : w.isLocked = false → w.SecretsMatch env) :
    Grown (Found env w.stealthAddresses tx.vout) w (w.scan env tx) :=
  KeyWallet.scan_grown_of (fun _ h => h) ⟨rfl, fun ho => .inl (hw ho)⟩

variable (env) in
theorem scan_grown_any (tx : CTransaction) (w : KeyWallet) : Grown (fun _ => True) w (w.scan env tx) :=
  KeyWallet.scan_grown_of (fun _ _ => trivial) ⟨rfl, fun _ => .inr fun _ => trivial⟩

/-! ## What a whole scan finds -/

def FirstDistinct (env : StealthEnv) (addresses : AddressSet) (rootKey : Bytes) : Prop :=
  ∀ sx ∈ addresses, ∀ sx' ∈ addresses, sx.isOwned = true → sx'.isOwned = true →
    ∀ hash hash', (hash = sx.getEnigmaAddressPrivateHash env ∨ hash = rootHash rootKey) →
      (hash' = sx'.getEnigmaAddressPrivateHash env ∨ hash' = rootHash rootKey) →
      env.enigmaKey (sx.encoded env) rootKey hash 0 = env.enigmaKey (sx'.encoded env) rootKey hash' 0 →
      sx = sx' ∧ hash = hash'

variable (env rootKey) in
theorem exists_lookupAddress (hsx : sx ∈ addresses) (ho : sx.isOwned = true) (hash : CStealthAddress → Hash256) :
    ∃ sx', (lookupAddress env addresses rootKey hash
      (.keyID (env.enigmaKey (sx.encoded env) rootKey (hash sx) 0))).bind
        (getStealthAddress env addresses) = some sx' := by
  have hf : (addresses.toList.reverse.find? fun sx' => sx'.isOwned && decide (firstAddress env sx' rootKey (hash sx') =
      some (.keyID (env.enigmaKey (sx.encoded env) rootKey (hash sx) 0)))).isSome = true :=
    find?_isSome.mpr ⟨sx, mem_reverse.mpr hsx, by simp [ho, firstAddress_eq]⟩
  obtain ⟨sx', hs'⟩ := isSome_iff_exists.mp hf
  have hm : sx' ∈ addresses := mem_reverse.mp (mem_of_find?_eq_some hs')
  have hp := find?_some hs'
  have ho' : sx'.isOwned = true := ((and_eq_true _ _).mp hp).1
  exact ⟨sx', bind_eq_some_iff.mpr ⟨sx'.encoded env, by rw [lookupAddress, hs', map_some],
    getStealthAddress_encoded hm ho'⟩⟩

theorem matchedAddress_eq (hd : FirstDistinct env addresses rootKey) (hsx : sx ∈ addresses)
    (ho : sx.isOwned = true) (hh : hash = sx.getEnigmaAddressPrivateHash env ∨ hash = rootHash rootKey) :
    matchedAddress env addresses rootKey (.keyID (env.enigmaKey (sx.encoded env) rootKey hash 0)) =
      some (sx, hash) := by
  have hs : ∃ p, matchedAddress env addresses rootKey
      (.keyID (env.enigmaKey (sx.encoded env) rootKey hash 0)) = some p := by
    unfold matchedAddress
    split
    · exact ⟨_, rfl⟩
    rename_i hn
    rcases hh with rfl | rfl
    · obtain ⟨sx', hs'⟩ := exists_lookupAddress env rootKey hsx ho
        (·.getEnigmaAddressPrivateHash env)
      rw [hn] at hs'
      cases hs'
    · obtain ⟨sx', hs'⟩ := exists_lookupAddress env rootKey hsx ho
        fun _ => rootHash rootKey
      exact ⟨_, by rw [hs', map_some]⟩
  obtain ⟨⟨sx', hash'⟩, hp⟩ := hs
  obtain ⟨hs', ho', hh', heq⟩ := matchedAddress_spec hp
  obtain ⟨rfl, rfl⟩ := hd sx hsx sx' hs' ho ho' hash hash' hh hh' (CTxDestination.keyID.inj heq)
  exact hp

theorem haveKey_findInner (hsx : sx.Spendable env) (hkey : txoutInner ≠ txoutStealthKey) (hv : txoutInner.nValue ≠ 0)
    (hi : i < num) (hn : num ≤ 60) (hd : extractDestination env.toEnigmaEnv txoutInner.scriptPubKey =
      some (.keyID (env.enigmaKey (sx.encoded env) rootKey hash i))) (hw : s.2.Unlocked) :
    (findInner env sx rootKey hash num txoutStealthKey s txoutInner).2.haveKey
      (env.enigmaKey (sx.encoded env) rootKey hash i) = true := by
  obtain ⟨j, hj⟩ := exists_stealthIndex env sx rootKey hash hi hn
  obtain ⟨-, -, hsa⟩ := stealthIndex_spec hj
  obtain ⟨sShared, pk, hs, hpk⟩ := hsx.receive_agrees rootKey hash j
  have hid : env.pubKeyID pk = env.enigmaKey (sx.encoded env) rootKey hash i :=
    hpk.trans (CTxDestination.keyID.inj hsa).symm
  have hm : stealthMatch env sx txoutInner (secretToPublicKey env (env.enigmaSecret rootKey hash j)) =
      some (sShared, pk) := by
    simp [stealthMatch, hd, hs, hid]
  have ho := haveKey_findStealthTransactionForOutput hw hsx.clear txoutStealthKey true hm
  rw [hid] at ho
  unfold findInner
  rw [if_neg (not_or.mpr ⟨hkey, hv⟩)]
  simp only [hd, hj]
  split
  · rename_i w' hw'
    rw [hw'] at ho
    exact ho
  · rename_i w' hw'
    rw [hw'] at ho
    exact ho

theorem haveKey_scan (hkey : stealthReturn tx.vout = some (txoutStealthKey, rootKey)) (hn : tx.vout.length ≤ 60)
    (hw : w.Unlocked) (hd : FirstDistinct env w.stealthAddresses rootKey) (hm : sx ∈ w.stealthAddresses)
    (hsx : sx.Spendable env) (hh : hash = sx.getEnigmaAddressPrivateHash env ∨ hash = rootHash rootKey)
    (hf : first ∈ tx.vout) (hf' : first ≠ txoutStealthKey)
    (hd0 : extractDestination env.toEnigmaEnv first.scriptPubKey =
      some (.keyID (env.enigmaKey (sx.encoded env) rootKey hash 0))) (hou : txout ∈ tx.vout)
    (ho' : txout ≠ txoutStealthKey) (hv : txout.nValue ≠ 0) (hi : i < tx.vout.length)
    (hde : extractDestination env.toEnigmaEnv txout.scriptPubKey =
      some (.keyID (env.enigmaKey (sx.encoded env) rootKey hash i))) :
    (w.scan env tx).haveKey (env.enigmaKey (sx.encoded env) rootKey hash i) = true := by
  have ho : sx.isOwned = true := by simpa [CStealthAddress.isOwned] using hsx.owned
  have hP : ∀ id, Found env w.stealthAddresses tx.vout id → (fun _ => True) id := fun _ _ => trivial
  have hr : ScanReady env (fun _ => True) w.stealthAddresses w := ⟨rfl, fun _ => .inr fun _ => trivial⟩
  have hst := findStealthOutput_grown hP hkey (List.Subset.refl _) hr
  have hr' := hst.scanReady hr
  rw [scan_eq hkey, hr'.addresses]
  refine Grown.haveKey_foldl (s := (0, _))
    (fun txout _ s' hs' => findOuter_grown hP hkey txout (hs'.scanReady hr')) hf fun s' hs' => ?_
  have hready'' := hs'.scanReady hr'
  have hw'' := hs'.unlocked (hst.unlocked hw)
  unfold findOuter
  rw [if_neg hf']
  simp only [hd0, matchedAddress_eq hd hm ho hh]
  refine Grown.haveKey_foldl
    (fun txoutInner hin s hs => findInner_grown hP hkey hm ho hh hin (hs.scanReady hready'')) hou
    fun s hs => ?_
  exact haveKey_findInner hsx ho' hv hi hn hde (hs.unlocked hw'')

end

end

end CloakCoin.Stealth
