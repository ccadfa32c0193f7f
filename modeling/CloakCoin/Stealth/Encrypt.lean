import CloakCoin.Lib.Run
import CloakCoin.Stealth.Scan

/-!
# What encryption, locking and unlocking do to a wallet
-/

namespace CloakCoin.Stealth

open Chain Lib Enigma
open Std (ExtTreeMap)

/-! ## Operations -/

inductive WalletOp where
  | encryptWallet (strWalletPassphrase : String) (seed : Seed)
  | lock
  | unlock (strWalletPassphrase : String)
  | addStealthAddress (sxAddr : CStealthAddress)
  | updateStealthAddress (addr : Nat) (label : String) (addIfNotExist : Bool)
  | newStealthAddress (sLabel : String) (scanSecret spendSecret : CSecret)
  | scan (tx : CTransaction)
  /-- The program ends and loads the wallet again. -/
  | restart (scanSecret spendSecret : CSecret)

/-- The wallet after the operation, whether it succeeds or not; `none` when the program does not go on. -/
def WalletOp.exec (env : StealthEnv) : WalletOp → KeyWallet → Option KeyWallet
  | .encryptWallet p seed, w => (w.encryptWallet env p seed).map Prod.snd
  | .lock, w => some w.lock.2
  | .unlock p, w => some (w.unlock env p).2
  | .addStealthAddress sxAddr, w => some (w.addStealthAddress env sxAddr).2
  | .updateStealthAddress addr label addIfNotExist, w => some (w.updateStealthAddress env addr label addIfNotExist).2
  -- the new address is only returned
  | .newStealthAddress _ _ _, w => some w
  | .scan tx, w => some (w.scan env tx)
  | .restart scanSecret spendSecret, w => KeyWallet.loadWallet env w.db scanSecret spendSecret

/-! ## Address sets with other secrets -/

def Recoded (s s' : AddressSet) : Prop :=
  ∀ a' ∈ s', ∃ a ∈ s, a' = { a with spendSecret := a'.spendSecret } ∧ (a.isOwned = false → a' = a)

theorem Recoded.refl (s : AddressSet) : Recoded s s := fun a ha => ⟨a, ha, rfl, fun _ => rfl⟩

theorem Recoded.trans (h1 : Recoded s s1) (h2 : Recoded s1 s2) : Recoded s s2 := by
  intro a2 ha2
  obtain ⟨a1, ha1, he1, hs1⟩ := h2 a2 ha2
  obtain ⟨a, ha, heq, hs⟩ := h1 a1 ha1
  refine ⟨a, ha, ?_, fun hn => ?_⟩
  · rw [he1, heq]
  · have h := hs hn
    rw [h] at hs1
    exact hs1 hn

theorem recoded_mapSpendSecret (s : AddressSet)
    (hf : ∀ a, a.isOwned = false → f a = a.spendSecret) : Recoded s (s.mapSpendSecret f) := by
  intro a' ha'
  obtain ⟨a, ha, rfl⟩ := s.mem_mapSpendSecret.mp ha'
  refine ⟨a, ha, rfl, fun hn => ?_⟩
  rw [hf a hn]

structure Rekeyed (w w' : KeyWallet) : Prop where
  crypto : w.fUseCrypto = true → w'.fUseCrypto = true
  addresses : Recoded w.stealthAddresses w'.stealthAddresses
  written : w'.db.sxAddr = w.db.sxAddr

namespace Rekeyed

variable {w w₁ w₂ : KeyWallet}

theorem refl (w : KeyWallet) : Rekeyed w w := ⟨fun h => h, .refl _, rfl⟩

theorem trans (h1 : Rekeyed w w₁) (h2 : Rekeyed w₁ w₂) : Rekeyed w w₂ :=
  ⟨fun h => h2.crypto (h1.crypto h), h1.addresses.trans h2.addresses, h2.written.trans h1.written⟩

theorem of_grown (h : Grown P w w₁) : Rekeyed w w₁ :=
  ⟨fun hc => h.crypto.trans hc, h.addresses ▸ .refl _, h.written⟩

end Rekeyed

section
variable {env : StealthEnv} {w w' : KeyWallet} {a : CStealthAddress}

/-! ## `Lock` -/

theorem KeyWallet.lock_eq (w : KeyWallet) : w.lock = if w.fUseCrypto = true ∨ w.mapKeys.isEmpty = true then
      (true, { w with fUseCrypto := true, vMasterKey := [] }) else (false, w) := by
  unfold lock setCrypted
  cases hc : w.fUseCrypto with
  | true => simp [hc]
  | false => cases hk : w.mapKeys.isEmpty <;> simp

theorem KeyWallet.lock_of_crypted (h : w.fUseCrypto = true) : w.lock.2 = { w with vMasterKey := [] } := by
  rw [lock_eq, if_pos (.inl h), ← h]

theorem KeyWallet.lock_rekeyed (w : KeyWallet) : Rekeyed w w.lock.2 := by
  rw [lock_eq]
  split
  · exact ⟨fun _ => rfl, .refl _, rfl⟩
  · exact .refl w

/-! ## `Unlock` -/

/-- The master key passes the test. -/
def KeyWallet.accepts (env : StealthEnv) (vMasterKeyIn : Bytes) (w : KeyWallet) : Bool :=
  match w.firstCryptedKey with
  | none => true
  | some (vchPubKey, vchCryptedSecret) => checkSecret env vMasterKeyIn vchPubKey vchCryptedSecret

theorem KeyWallet.cryptoUnlock_eq (h : w.fUseCrypto = true) (k : Bytes) : w.cryptoUnlock env k =
      if w.accepts env k then (true, { w with vMasterKey := k }) else (false, w) := by
  unfold cryptoUnlock setCrypted accepts
  rw [if_pos h]
  dsimp only
  cases w.firstCryptedKey <;> rfl

theorem KeyWallet.unlockedSecret_of_not_owned (h : a.isOwned = false) (k : Bytes) :
    unlockedSecret env k a = a.spendSecret := by
  rw [unlockedSecret, h, Bool.not_false, if_pos rfl]

theorem KeyWallet.unlockedSecret_of_length (h : a.spendSecret.length = ecSecretSize) (k : Bytes) :
    unlockedSecret env k a = a.spendSecret := by
  unfold unlockedSecret
  split
  · rfl
  split
  · rfl
  rename_i vchSecret hd
  have hlt : vchSecret.length < a.spendSecret.length := by
    unfold decryptSecret at hd
    split_ifs at hd
    exact env.aes.length_decrypt _ _ _ _ hd
  rw [if_pos (by omega)]

theorem KeyWallet.unlockedSecret_of_encrypt (hk : k.length = walletCryptoKeySize) (ho : a.isOwned = true)
    (hs : a.spendSecret = env.aes.encrypt k (env.hash a.spendPubkey) f) (hl : f.length = ecSecretSize)
    (hp : secretToPublicKey env f = a.spendPubkey) : unlockedSecret env k a = f := by
  rw [unlockedSecret, ho, hs, Bool.not_true, if_neg Bool.false_ne_true, decryptSecret,
    if_neg (not_not.mpr hk), env.aes.decrypt_encrypt]
  simp [hl, hp]

variable (env)

theorem KeyWallet.tryMasterKey_eq (p : String) (k : CMasterKey) (h : s.1.fUseCrypto = true) : tryMasterKey env p k s =
      match k.decrypt env p with
      | none => (false, s)
      | some vMasterKey =>
        if s.1.accepts env vMasterKey then (true, ({ s.1 with vMasterKey := vMasterKey }, vMasterKey))
        else (false, (s.1, vMasterKey)) := by
  unfold tryMasterKey
  cases k.decrypt env p with
  | none => rfl
  | some vMasterKey =>
    simp only [cryptoUnlock_eq h]
    split <;> rfl

theorem KeyWallet.loop_tryMasterKey (p : String) (ks : List CMasterKey)
    (h : s.1.fUseCrypto = true) : ∃ v, (loop (tryMasterKey env p) ks s).2.1 = { s.1 with vMasterKey := v } := by
  induction ks generalizing s with
  | nil => exact ⟨s.1.vMasterKey, rfl⟩
  | cons k ks ih =>
    rw [loop, tryMasterKey_eq env p k h]
    cases k.decrypt env p with
    | none => exact ⟨s.1.vMasterKey, rfl⟩
    | some vMasterKey =>
      dsimp only
      split_ifs
      · exact ih (s := ({ s.1 with vMasterKey := vMasterKey }, vMasterKey)) h
      · exact ⟨s.1.vMasterKey, rfl⟩

theorem KeyWallet.expandKey_grown (w : KeyWallet) (id : CKeyID) : Grown (fun _ => True) w (w.expandKey env id) := by
  unfold expandKey
  split
  · exact .refl w
  split
  · exact .refl w
  split
  · exact .refl w
  rename_i secret _
  have hg := (KeyWallet.addKey_grown env w secret true).mono (Q := fun _ => True) fun _ _ => trivial
  split
  · rename_i heq
    rw [heq] at hg
    exact hg
  rename_i heq
  rw [heq] at hg
  exact ⟨hg.crypto, hg.master, hg.records, hg.addresses, hg.written, hg.kept, hg.plain,
    hg.crypted⟩

theorem KeyWallet.unlockStealthAddresses_grown (w : KeyWallet) (k : Bytes) :
    Grown (fun _ => True) { w with stealthAddresses := w.stealthAddresses.mapSpendSecret (unlockedSecret env k) }
      (w.unlockStealthAddresses env k) := by
  refine List.foldlRecOn (motive := Grown (fun _ => True) _) _ _ (.refl _) ?_
  intro w' h id _
  exact h.trans (expandKey_grown env w' id)

theorem KeyWallet.unlock_cases (w : KeyWallet) (p : String) :
    (∃ v, w.unlock env p = (false, { w with vMasterKey := v })) ∨
      ∃ k v, w.isLocked = true ∧
        loop (tryMasterKey env p) w.mapMasterKeys (w, []) = (true, ({ w with vMasterKey := v }, k)) ∧
        w.unlock env p = (true, ({ w with vMasterKey := v } : KeyWallet).unlockStealthAddresses env k) := by
  unfold unlock
  split
  · exact .inl ⟨w.vMasterKey, rfl⟩
  rename_i hl
  have hl : w.isLocked = true := by simpa using hl
  have hc : w.fUseCrypto = true := ((Bool.and_eq_true _ _).mp hl).1
  obtain ⟨v, hv⟩ := loop_tryMasterKey env p w.mapMasterKeys (s := (w, [])) hc
  split
  · rename_i heq
    rw [heq] at hv
    exact .inl ⟨v, by rw [← hv]⟩
  rename_i heq
  rw [heq] at hv
  subst hv
  exact .inr ⟨_, v, hl, heq, rfl⟩

theorem KeyWallet.unlock_rekeyed (w : KeyWallet) (p : String) : Rekeyed w (w.unlock env p).2 := by
  rcases unlock_cases env w p with ⟨v, h⟩ | ⟨k, v, -, -, h⟩
  · rw [h]
    exact ⟨fun h => h, .refl _, rfl⟩
  have hm : Rekeyed w { w with
      vMasterKey := v, stealthAddresses := w.stealthAddresses.mapSpendSecret (unlockedSecret env k) } :=
    ⟨fun h => h, recoded_mapSpendSecret _ fun a ha => unlockedSecret_of_not_owned ha k, rfl⟩
  rw [h]
  exact hm.trans (.of_grown (unlockStealthAddresses_grown env { w with vMasterKey := v } k))

/-! ## `EncryptWallet` -/

def WellEncrypted (env : StealthEnv) (vMasterKey vchPubKey vchCryptedSecret : Bytes) : Prop :=
  ∃ (secret : CSecret) (fCompressed : Bool), vchPubKey = pubKeyOf env secret fCompressed ∧
    vchCryptedSecret = env.aes.encrypt vMasterKey (env.hash vchPubKey) secret

def KeysEncrypted (env : StealthEnv) (vMasterKey : Bytes) (w : KeyWallet) : Prop :=
  ∀ (id : CKeyID) (e : Bytes × Bytes), w.mapCryptedKeys[id]? = some e → WellEncrypted env vMasterKey e.1 e.2

structure KeysAdded (w w' : KeyWallet) : Prop where
  crypto : w'.fUseCrypto = w.fUseCrypto
  records : w'.mapMasterKeys = w.mapMasterKeys
  addresses : w'.stealthAddresses = w.stealthAddresses

theorem KeysAdded.trans (h1 : KeysAdded w w₁) (h2 : KeysAdded w₁ w₂) : KeysAdded w w₂ :=
  ⟨h2.crypto.trans h1.crypto, h2.records.trans h1.records, h2.addresses.trans h1.addresses⟩

variable {env} {k : Bytes}

theorem KeysEncrypted.addCryptedKey (h : KeysEncrypted env k w) (hc : w.fUseCrypto = true)
    (hk : WellEncrypted env k vchPubKey vchCryptedSecret) :
    KeysEncrypted env k (w.addCryptedKey env vchPubKey vchCryptedSecret).2 := by
  rw [KeyWallet.addCryptedKey_eq hc]
  intro id e he
  rw [ExtTreeMap.getElem?_insert] at he
  split at he
  · cases he
    exact hk
  · exact h id e he

def sealedKey (env : StealthEnv) (k : Bytes) (e : CSecret × Bool) : Bytes × Bytes :=
  (pubKeyOf env e.1 e.2, env.aes.encrypt k (env.hash (pubKeyOf env e.1 e.2)) e.1)

theorem KeyWallet.encryptKey_eq (h : w.encryptKey env k mKey = some w') : k.length = walletCryptoKeySize ∧
      w' = (w.addCryptedKey env (sealedKey env k mKey.2).1 (sealedKey env k mKey.2).2).2 := by
  unfold encryptKey encryptSecret at h
  by_cases hk : k.length = walletCryptoKeySize
  · simp only [hk, ne_eq, not_true_eq_false, if_false] at h
    split at h
    · cases h
    · rename_i heq
      cases h
      exact ⟨hk, (congrArg Prod.snd heq).symm⟩
  · simp [hk] at h

theorem KeyWallet.encryptKey_spec (hc : w.fUseCrypto = true)
    (h : w.encryptKey env k mKey = some w') : KeysAdded w w' ∧ (KeysEncrypted env k w → KeysEncrypted env k w') := by
  obtain ⟨-, rfl⟩ := encryptKey_eq h
  refine ⟨?_, fun he => he.addCryptedKey hc ⟨mKey.2.1, mKey.2.2, rfl, rfl⟩⟩
  rw [addCryptedKey_eq hc]
  exact ⟨rfl, rfl, rfl⟩

theorem KeyWallet.foldlM_encryptKey {l : List (CKeyID × CSecret × Bool)} (hc : w.fUseCrypto = true)
    (h : l.foldlM (encryptKey env k) w = some w') :
    KeysAdded w w' ∧ (KeysEncrypted env k w → KeysEncrypted env k w') := by
  induction l generalizing w with
  | nil =>
    cases h
    exact ⟨⟨rfl, rfl, rfl⟩, fun he => he⟩
  | cons mKey l ih =>
    rw [List.foldlM_cons, Option.bind_eq_bind, Option.bind_eq_some_iff] at h
    obtain ⟨w₁, hs, hr⟩ := h
    obtain ⟨ha, hen⟩ := encryptKey_spec hc hs
    obtain ⟨ha', he'⟩ := ih (ha.crypto.trans hc) hr
    exact ⟨ha.trans ha', fun he => he' (hen he)⟩

theorem KeyWallet.encryptKeys_spec (h : w.encryptKeys env k = some w') :
    KeysAdded { w with fUseCrypto := true } w' ∧ KeysEncrypted env k w' := by
  unfold encryptKeys at h
  split at h
  · cases h
  rename_i hem
  obtain ⟨w₁, hl, rfl⟩ := Option.map_eq_some_iff.mp h
  have hn : w.mapCryptedKeys = ∅ := by
    rw [Bool.or_eq_true, not_or] at hem
    simpa using hem.1
  have hs : KeysEncrypted env k { w with fUseCrypto := true } := by
    intro id e he
    rw [hn, ExtTreeMap.getElem?_empty] at he
    cases he
  obtain ⟨ha, hen⟩ := foldlM_encryptKey (show ({ w with fUseCrypto := true } : KeyWallet).fUseCrypto = true
    from rfl) hl
  exact ⟨⟨ha.crypto, ha.records, ha.addresses⟩, hen hs⟩

/-! ### The steps of `EncryptWallet` -/

/-- The master key record. -/
def Seed.masterKey (env : StealthEnv) (p : String) (seed : Seed) : CMasterKey where
  vchCryptedKey := env.aes.encrypt (env.bytesToKey p seed.vchSalt seed.nDeriveIterations).1
    (env.bytesToKey p seed.vchSalt seed.nDeriveIterations).2 seed.vMasterKey
  vchSalt := seed.vchSalt
  nDeriveIterations := seed.nDeriveIterations

def KeyWallet.newKeyPool (env : StealthEnv) (keyPool : List CSecret) (w : KeyWallet) : KeyWallet :=
  keyPool.foldl (fun w secret => (w.addKey env secret true).2) w

theorem Seed.decrypt_masterKey (p : String) (seed : Seed) :
    (seed.masterKey env p).decrypt env p = some seed.vMasterKey := by
  have hr : ¬seed.nDeriveIterations < 1 := by
    have := seed.rounds
    omega
  simp [CMasterKey.decrypt, setKeyFromPassphrase, masterKey, hr, seed.length_salt, env.aes.decrypt_encrypt]

theorem KeyWallet.encryptWallet_cases
    (h : w.encryptWallet env p seed = some (ok, w')) : (w.fUseCrypto = true ∧ ok = false ∧ w' = w) ∨
      w.fUseCrypto = false ∧ ok = true ∧ ∃ w₁,
        ({ w with
            mapMasterKeys := w.mapMasterKeys ++ [seed.masterKey env p]
            db := { w.db with mkey := w.db.mkey ++ [seed.masterKey env p] } } : KeyWallet).encryptKeys
          env seed.vMasterKey = some w₁ ∧
        w' = ((((w₁.encryptStealthAddresses env seed.vMasterKey).lock.2.unlock env p).2).newKeyPool
          env seed.keyPool).lock.2 := by
  unfold encryptWallet at h
  split at h
  · rename_i hc
    cases h
    exact .inl ⟨hc, rfl, rfl⟩
  rename_i hc
  obtain ⟨w₁, hk, heq⟩ := Option.map_eq_some_iff.mp h
  cases heq
  exact .inr ⟨by simpa [isCrypted] using hc, rfl, w₁, hk, rfl⟩

variable (env) in
theorem KeyWallet.newKeyPool_grown (keyPool : List CSecret) (w : KeyWallet) :
    Grown (fun _ => True) w (w.newKeyPool env keyPool) := by
  refine List.foldlRecOn (motive := Grown (fun _ => True) w) keyPool _ (.refl w) ?_
  intro w' h secret _
  exact h.trans ((KeyWallet.addKey_grown env w' secret true).mono fun _ _ => trivial)

theorem KeyWallet.cryptedSpendSecret_of_not_owned (h : a.isOwned = false) (k : Bytes) :
    cryptedSpendSecret env k a = a.spendSecret := by
  rw [cryptedSpendSecret, h, if_neg Bool.false_ne_true]

theorem KeyWallet.encryptWallet_recoded (h : w.encryptWallet env p seed = some (true, w')) :
    w'.fUseCrypto = true ∧ Recoded w.stealthAddresses w'.stealthAddresses := by
  rcases encryptWallet_cases h with ⟨-, hok, -⟩ | ⟨-, -, w₁, hk, rfl⟩
  · cases hok
  obtain ⟨had, -⟩ := encryptKeys_spec hk
  have hs : Recoded w₁.stealthAddresses (w₁.encryptStealthAddresses env seed.vMasterKey).stealthAddresses :=
    recoded_mapSpendSecret _ fun a ha => cryptedSpendSecret_of_not_owned ha _
  rw [had.addresses] at hs
  have hr := (lock_rekeyed (w₁.encryptStealthAddresses env seed.vMasterKey)).trans
    ((unlock_rekeyed env _ p).trans ((Rekeyed.of_grown (newKeyPool_grown env seed.keyPool _)).trans
      (lock_rekeyed _)))
  exact ⟨hr.crypto had.crypto, hs.trans hr.addresses⟩

end

end CloakCoin.Stealth
