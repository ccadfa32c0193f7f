import CloakCoin.Stealth.Encrypt
import CloakCoin.Stealth.Sample

/-!
# Change addresses and the lock state

The hash that one-time addresses are derived with covers the spend secret as it is in memory. `Unlock` and a
restart exchange its clear and its encrypted form.
-/

namespace CloakCoin.Stealth

open Chain Lib Enigma

variable {k : Bytes}

section
variable {env : StealthEnv} {w w' : KeyWallet} {a : CStealthAddress}

/-! ## The two forms of a secret -/

theorem unlockedSecret_cryptedSpendSecret (hk : k.length = walletCryptoKeySize) (ho : a.isOwned = true)
    (hc : a.Clear env) :
    KeyWallet.unlockedSecret env k { a with spendSecret := KeyWallet.cryptedSpendSecret env k a } = a.spendSecret := by
  have hs : KeyWallet.cryptedSpendSecret env k a = env.aes.encrypt k (env.hash a.spendPubkey) a.spendSecret := by
    rw [KeyWallet.cryptedSpendSecret, if_pos ho, encryptSecret, if_neg (not_not.mpr hk),
      List.take_of_length_le hc.1.le, Option.getD_some]
  exact KeyWallet.unlockedSecret_of_encrypt hk ho hs hc.1 hc.2

/-! ## `Lock` and `Unlock` -/

theorem lock_addresses (w : KeyWallet) : w.lock.2.stealthAddresses = w.stealthAddresses := by
  rw [KeyWallet.lock_eq]
  split <;> rfl

theorem unlock_mem (p : String) (hle : w.isLocked = true → a.spendSecret.length = ecSecretSize)
    (ha : a ∈ w.stealthAddresses) : a ∈ (w.unlock env p).2.stealthAddresses := by
  rcases KeyWallet.unlock_cases env w p with ⟨v, h⟩ | ⟨k, v, hl, -, h⟩
  · rw [h]
    exact ha
  · rw [h, (KeyWallet.unlockStealthAddresses_grown env _ k).addresses]
    refine (AddressSet.mem_mapSpendSecret _).mpr ⟨a, ha, ?_⟩
    rw [KeyWallet.unlockedSecret_of_length (hle hl) k]

/-! ## `EncryptWallet` -/

theorem WellEncrypted.checkSecret {vchPubKey vchCryptedSecret : Bytes} (hk : k.length = walletCryptoKeySize)
    (h : WellEncrypted env k vchPubKey vchCryptedSecret) : checkSecret env k vchPubKey vchCryptedSecret = true := by
  obtain ⟨secret, fCompressed, rfl, rfl⟩ := h
  have hf : ((pubKeyOf env secret fCompressed).length == 33) = fCompressed := by
    cases fCompressed with
    | true => exact beq_iff_eq.mpr (env.curve.length_compress _)
    | false =>
      rw [beq_eq_false_iff_ne, pubKeyOf, if_neg Bool.false_ne_true, env.curve.length_expand]
      decide
  rw [Stealth.checkSecret, decryptSecret, if_neg (not_not.mpr hk), env.aes.decrypt_encrypt]
  simp [hf, secret.2]

theorem KeysEncrypted.accepts (hk : k.length = walletCryptoKeySize) (h : KeysEncrypted env k w) :
    w.accepts env k = true := by
  unfold KeyWallet.accepts
  split
  · rfl
  · rename_i vchPubKey vchCryptedSecret hf
    obtain ⟨id, -, hid⟩ := Option.bind_eq_some_iff.mp hf
    exact (h id (vchPubKey, vchCryptedSecret) hid).checkSecret hk

theorem unlock_masterKey {seed : Seed} (hl : w.isLocked = true)
    (hm : w.mapMasterKeys = [seed.masterKey env p]) (hk : KeysEncrypted env seed.vMasterKey w) : w.unlock env p = (true,
      ({ w with vMasterKey := seed.vMasterKey } : KeyWallet).unlockStealthAddresses env seed.vMasterKey) := by
  have hc : w.fUseCrypto = true := ((Bool.and_eq_true _ _).mp hl).1
  have ht : KeyWallet.tryMasterKey env p (seed.masterKey env p) (w, []) =
      (true, ({ w with vMasterKey := seed.vMasterKey }, seed.vMasterKey)) := by
    rw [KeyWallet.tryMasterKey_eq env p _ hc, Seed.decrypt_masterKey]
    dsimp only
    rw [if_pos (hk.accepts seed.length_master)]
  have hlo : loop (KeyWallet.tryMasterKey env p) w.mapMasterKeys (w, []) =
      (true, ({ w with vMasterKey := seed.vMasterKey }, seed.vMasterKey)) := by
    refine (congrArg (loop (KeyWallet.tryMasterKey env p) · (w, [])) hm).trans ?_
    rw [loop, ht]
    rfl
  rw [KeyWallet.unlock, hl, Bool.not_true, if_neg Bool.false_ne_true, hlo]

theorem encryptWallet_mem (h : w.encryptWallet env p seed = some (ok, w'))
    (hp : w.fUseCrypto = false → w.mapMasterKeys = [] ∧ a.Clear env) (ho : a.isOwned = true)
    (ha : a ∈ w.stealthAddresses) : a ∈ w'.stealthAddresses := by
  rcases KeyWallet.encryptWallet_cases h with ⟨-, -, rfl⟩ | ⟨hc, -, w1, hk, rfl⟩
  · exact ha
  obtain ⟨hm, hcl⟩ := hp hc
  obtain ⟨had, he⟩ := KeyWallet.encryptKeys_spec hk
  have hr : w1.mapMasterKeys = [seed.masterKey env p] := by
    rw [had.records]
    rw [hm, List.nil_append]
  have hl := KeyWallet.lock_of_crypted (w := w1.encryptStealthAddresses env seed.vMasterKey) had.crypto
  have hlo : (w1.encryptStealthAddresses env seed.vMasterKey).lock.2.isLocked = true := by
    rw [hl]
    exact (Bool.and_eq_true _ _).mpr ⟨had.crypto, rfl⟩
  have hu := unlock_masterKey hlo (by rw [hl]; exact hr) (by rw [hl]; exact he)
  have hpo := (KeyWallet.newKeyPool_grown env seed.keyPool
    ((w1.encryptStealthAddresses env seed.vMasterKey).lock.2.unlock env p).2).addresses
  have hadd : ((w1.encryptStealthAddresses env seed.vMasterKey).lock.2.unlock env p).2.stealthAddresses =
      (w.stealthAddresses.mapSpendSecret (KeyWallet.cryptedSpendSecret env seed.vMasterKey)).mapSpendSecret
        (KeyWallet.unlockedSecret env seed.vMasterKey) := by
    rw [hu, (KeyWallet.unlockStealthAddresses_grown env _ seed.vMasterKey).addresses, hl]
    dsimp only [KeyWallet.encryptStealthAddresses]
    rw [had.addresses]
  rw [lock_addresses, hpo, hadd]
  refine (AddressSet.mem_mapSpendSecret _).mpr ⟨_, (AddressSet.mem_mapSpendSecret _).mpr ⟨a, ha, rfl⟩, ?_⟩
  rw [unlockedSecret_cryptedSpendSecret seed.length_master ho hcl]

/-! ## Restarting -/

theorem mem_foldl_insert {records : List CStealthAddress} (hn : ∀ b ∈ s, b.scanPubkey ≠ a.scanPubkey)
    (h : records.find? (fun b => b.scanPubkey = a.scanPubkey) = some a) : a ∈ records.foldl AddressSet.insert s := by
  induction records generalizing s with
  | nil => cases h
  | cons b records ih =>
    rw [List.find?_cons] at h
    split at h
    · cases h
      refine List.foldlRecOn (motive := fun s => a ∈ s) records _ ?_ fun s hs b _ => s.mem_insert_of_mem hs
      exact s.mem_insert_self hn
    rename_i hb
    refine ih (fun c hc => ?_) h
    rcases s.eq_or_mem_of_mem_insert hc with rfl | hold
    · simpa using hb
    · exact hn c hold

def KeyWallet.AsStored (w : KeyWallet) : Prop :=
  ∀ a ∈ w.stealthAddresses, a.isOwned = true → w.db.sxAddr.find? (fun b => b.scanPubkey = a.scanPubkey) = some a

theorem loadWallet_mem (h : KeyWallet.loadWallet env w.db scanSecret spendSecret = some w') (hs : w.AsStored)
    (ho : a.isOwned = true) (ha : a ∈ w.stealthAddresses) : a ∈ w'.stealthAddresses := by
  have hl : a ∈ KeyWallet.loadStealthAddresses w.db :=
    mem_foldl_insert (fun b hb => nomatch hb) (hs a ha ho)
  unfold KeyWallet.loadWallet at h
  split at h
  · cases h
  dsimp only at h
  split at h
  · rename_i he
    rw [List.isEmpty_iff] at he
    rw [AddressSet.mem_def, he] at hl
    cases hl
  · cases h
    exact hl

/-! ## Runs -/

/-- The operation keeps every address of ours as it is. -/
def KeepsForm (env : StealthEnv) : WalletOp → KeyWallet → Prop
  | .encryptWallet _ _, w => w.fUseCrypto = false →
      w.mapMasterKeys = [] ∧ ∀ a ∈ w.stealthAddresses, a.isOwned = true → a.Clear env
  | .lock, _ => True
  | .unlock _, w => w.isLocked = true →
      ∀ a ∈ w.stealthAddresses, a.isOwned = true → a.spendSecret.length = ecSecretSize
  | .restart _ _, w => w.AsStored
  | .addStealthAddress _, _ | .updateStealthAddress _ _ _, _ | .newStealthAddress _ _ _, _ | .scan _, _ => False

theorem KeepsForm.exec (h : KeepsForm env op w) (he : op.exec env w = some w')
    (ho : a.isOwned = true) (ha : a ∈ w.stealthAddresses) : a ∈ w'.stealthAddresses := by
  cases op with
  | encryptWallet p seed =>
    obtain ⟨⟨ok, w1⟩, hen, rfl⟩ := Option.map_eq_some_iff.mp he
    exact encryptWallet_mem hen (fun hc => ⟨(h hc).1, (h hc).2 a ha ho⟩) ho ha
  | lock =>
    cases he
    rw [lock_addresses]
    exact ha
  | unlock p =>
    cases he
    exact unlock_mem p (fun hl => h hl a ha ho) ha
  | restart scanSecret spendSecret => exact loadWallet_mem he h ho ha
  | addStealthAddress => exact absurd h id
  | updateStealthAddress => exact absurd h id
  | newStealthAddress => exact absurd h id
  | scan => exact absurd h id

end

/-- **The change addresses of an address of the wallet stay the same**, and the outputs a scan can tell to be ours stay
ours, in every run whose operations keep the form of the secrets. -/
theorem change_addresses_kept (env : StealthEnv) (w₀ w : KeyWallet)
    (hrun : Reach (WalletOp.exec env) (KeepsForm env) w₀ w) : (∀ a ∈ w₀.stealthAddresses, a.isOwned = true →
      ∃ a' ∈ w.stealthAddresses, a'.isOwned = true ∧ a'.encoded env = a.encoded env ∧
        ∀ rootKey num offset,
          getEnigmaChangeAddresses env.toEnigmaEnv (a'.encoded env) rootKey (a'.getEnigmaAddressPrivateHash env) num
              offset =
            getEnigmaChangeAddresses env.toEnigmaEnv (a.encoded env) rootKey (a.getEnigmaAddressPrivateHash env) num
              offset) ∧
      ∀ vout id, Found env w₀.stealthAddresses vout id → Found env w.stealthAddresses vout id := by
  have hinv : ∀ a ∈ w₀.stealthAddresses, a.isOwned = true → a ∈ w.stealthAddresses := by
    refine hrun.inv (I := fun w => ∀ a ∈ w₀.stealthAddresses, a.isOwned = true → a ∈ w.stealthAddresses) ?_ ?_
    · exact fun a ha _ => ha
    · intro op w₁ w₂ hw hok he a ha ho
      exact hok.exec he ho (hw a ha ho)
  constructor
  · intro a ha ho
    exact ⟨a, hinv a ha ho, ho, rfl, fun _ _ _ => rfl⟩
  · rintro vout id ⟨txoutStealthKey, rootKey, hr, a, ha, ho, hp⟩
    exact ⟨txoutStealthKey, rootKey, hr, a, hinv a ha ho, ho, hp⟩

/-- The wallet that was encrypted is unlocked and locked. -/
theorem change_addresses_kept_unlocked : ((Sample.lockedWallet 1).unlock (Sample.env []) "p").1 = true ∧
      (∃ a ∈ (Sample.plainWallet 1).stealthAddresses.toList, a.isOwned = true) ∧
      (∀ a ∈ (Sample.plainWallet 1).stealthAddresses, a.isOwned = true →
        ∃ a' ∈ ((Sample.lockedWallet 1).unlock (Sample.env []) "p").2.lock.2.stealthAddresses, a'.isOwned = true ∧
          a'.encoded (Sample.env []) = a.encoded (Sample.env []) ∧
          ∀ rootKey num offset,
            getEnigmaChangeAddresses (Sample.env []).toEnigmaEnv (a'.encoded (Sample.env [])) rootKey
                (a'.getEnigmaAddressPrivateHash (Sample.env [])) num offset =
              getEnigmaChangeAddresses (Sample.env []).toEnigmaEnv (a.encoded (Sample.env [])) rootKey
                (a.getEnigmaAddressPrivateHash (Sample.env [])) num offset) ∧
        ∀ vout id, Found (Sample.env []) (Sample.plainWallet 1).stealthAddresses vout id →
          Found (Sample.env []) ((Sample.lockedWallet 1).unlock
            (Sample.env []) "p").2.lock.2.stealthAddresses vout id := by
  have he : (WalletOp.encryptWallet "p" Sample.seed).exec (Sample.env []) (Sample.plainWallet 1) =
      some (Sample.lockedWallet 1) := by
    rfl
  have hm : (Sample.plainWallet 1).mapMasterKeys = [] := by decide +kernel
  have hc : ∀ a ∈ (Sample.plainWallet 1).stealthAddresses.toList, a.isOwned = true → a.Clear (Sample.env []) := by
    decide +kernel
  have hl : ∀ a ∈ (Sample.lockedWallet 1).stealthAddresses.toList, a.isOwned = true →
      a.spendSecret.length = ecSecretSize := by decide +kernel
  have hrun : Reach (WalletOp.exec (Sample.env [])) (KeepsForm (Sample.env [])) (Sample.plainWallet 1)
      ((Sample.lockedWallet 1).unlock (Sample.env []) "p").2.lock.2 :=
    .step .lock (.step (.unlock "p") (.step (.encryptWallet "p" Sample.seed) .start (fun _ => ⟨hm, hc⟩) he)
      (fun _ => hl) rfl) trivial rfl
  exact ⟨by decide +kernel, by decide +kernel, change_addresses_kept (Sample.env []) (Sample.plainWallet 1) _ hrun⟩

noncomputable def Sample.restartedWallet : KeyWallet :=
  (KeyWallet.loadWallet (Sample.env []) (Sample.lockedWallet 1).db (Sample.secret 1) (Sample.secret 2)).getD {}

/-- **After a restart an encrypted wallet derives other change addresses.** -/
theorem change_addresses_differ :
    (Sample.plainWallet 1).encryptWallet (Sample.env []) "p" Sample.seed = some (true, Sample.lockedWallet 1) ∧
      KeyWallet.loadWallet (Sample.env []) (Sample.lockedWallet 1).db (Sample.secret 1) (Sample.secret 2) =
        some Sample.restartedWallet ∧
      ∃ a ∈ (Sample.plainWallet 1).stealthAddresses.toList, ∃ a' ∈ Sample.restartedWallet.stealthAddresses.toList,
        a.isOwned = true ∧ a'.encoded (Sample.env []) = a.encoded (Sample.env []) ∧
        getEnigmaChangeAddresses (Sample.env []).toEnigmaEnv (a'.encoded (Sample.env [])) []
            (a'.getEnigmaAddressPrivateHash (Sample.env [])) 1 0 ≠
          getEnigmaChangeAddresses (Sample.env []).toEnigmaEnv (a.encoded (Sample.env [])) []
            (a.getEnigmaAddressPrivateHash (Sample.env [])) 1 0 := by
  refine ⟨Sample.encryptWallet_plainWallet 1 (by decide +kernel), ?_, by decide +kernel⟩
  rfl

end CloakCoin.Stealth
