import CloakCoin.Stealth.Encrypt
import CloakCoin.Stealth.Sample

/-!
# Where the spend secrets of an encrypted wallet are in the clear

`EncryptWallet` and `Unlock` leave the spend secrets of the wallet's own stealth addresses decrypted in memory,
and `Lock` does not encrypt them again. `UpdateStealthAddress` writes an address as it is in memory.
-/

namespace CloakCoin.Stealth

open Chain Lib Enigma
open Std (ExtTreeMap)

variable {a : CStealthAddress} {w w' : KeyWallet}

section
variable {env : StealthEnv}

theorem not_clear_encrypt (h : ecSecretSize ≤ a.spendSecret.length)
    (hc : encryptSecret env vMasterKey (a.spendSecret.take ecSecretSize) (env.hash a.spendPubkey) = some c) :
    ¬({ a with spendSecret := c } : CStealthAddress).Clear env := by
  unfold encryptSecret at hc
  split_ifs at hc
  cases hc
  intro hcl
  have hl := env.aes.length_lt_encrypt vMasterKey (env.hash a.spendPubkey) (a.spendSecret.take ecSecretSize)
  rw [hcl.1, List.length_take, Nat.min_eq_left h] at hl
  exact lt_irrefl _ hl

/-! ## What is written to the database -/

def WritesCrypted (env : StealthEnv) (w w' : KeyWallet) : Prop :=
  ∃ new, w'.db.sxAddr = new ++ w.db.sxAddr ∧ ∀ a ∈ new, ¬a.Clear env

theorem WritesCrypted.of_eq (h : w'.db.sxAddr = w.db.sxAddr) : WritesCrypted env w w' :=
  ⟨[], h, fun _ ha => nomatch ha⟩

theorem WritesCrypted.of_one (h : w'.db.sxAddr = a :: w.db.sxAddr) (ha : ¬a.Clear env) : WritesCrypted env w w' :=
  ⟨[a], h, fun b hb => by rw [List.mem_singleton.mp hb]; exact ha⟩

theorem WritesCrypted.trans (h1 : WritesCrypted env w w1) (h2 : WritesCrypted env w1 w2) : WritesCrypted env w w2 := by
  obtain ⟨l1, he1, hl1⟩ := h1
  obtain ⟨l2, he2, hl2⟩ := h2
  refine ⟨l2 ++ l1, by rw [he2, he1, List.append_assoc], fun a ha => ?_⟩
  exact (List.mem_append.mp ha).elim (hl2 a) (hl1 a)

/-- The operation writes no clear spend secret. -/
def WritesSafely (env : StealthEnv) : WalletOp → KeyWallet → Prop
  | .lock, _ | .unlock _, _ | .newStealthAddress _ _ _, _ | .scan _, _ => True
  | .addStealthAddress a, _ => if a.isOwned then ecSecretSize ≤ a.spendSecret.length else ¬a.Clear env
  | .updateStealthAddress addr _ _, w => ∀ a ∈ w.stealthAddresses, a.encoded env = addr → ¬a.Clear env
  | .encryptWallet _ _, _ | .restart _ _, _ => False

theorem addStealthAddress_writes (hc : w.fUseCrypto = true)
    (ha : if a.isOwned then ecSecretSize ≤ a.spendSecret.length else ¬a.Clear env) :
    (w.addStealthAddress env a).2.fUseCrypto = true ∧ WritesCrypted env w (w.addStealthAddress env a).2 := by
  unfold KeyWallet.addStealthAddress
  dsimp only
  split_ifs with ho hl hcr
  · exact ⟨hc, .of_eq rfl⟩
  · rw [if_pos ho] at ha
    split
    · exact ⟨hc, .of_eq rfl⟩
    · rename_i c hs
      exact ⟨hc, .of_one rfl (not_clear_encrypt ha hs)⟩
  · exact absurd hc hcr
  · rw [if_neg ho] at ha
    exact ⟨hc, .of_one rfl ha⟩

theorem updateStealthAddress_writes (hc : w.fUseCrypto = true) (label : String) (addIfNotExist : Bool)
    (hcl : ∀ a ∈ w.stealthAddresses, a.encoded env = addr → ¬a.Clear env) :
    (w.updateStealthAddress env addr label addIfNotExist).2.fUseCrypto = true ∧
      WritesCrypted env w (w.updateStealthAddress env addr label addIfNotExist).2 := by
  unfold KeyWallet.updateStealthAddress
  split
  · exact ⟨hc, .of_eq rfl⟩
  rename_i sxAddr hd
  split
  · rename_i sxFound hf
    have hp := List.find?_some hf
    exact ⟨hc, .of_one rfl (hcl sxFound (List.mem_of_find?_eq_some hf) (by simpa using hp))⟩
  split_ifs
  · refine ⟨hc, .of_one rfl ?_⟩
    obtain ⟨⟨options, scan, spend⟩, -, rfl⟩ := Option.map_eq_some_iff.mp hd
    exact fun h => absurd (show ([] : Bytes).length = ecSecretSize from h.1) (by decide)
  · exact ⟨hc, .of_eq rfl⟩

theorem WritesSafely.exec (h : WritesSafely env op w) (hc : w.fUseCrypto = true)
    (he : op.exec env w = some w') : w'.fUseCrypto = true ∧ WritesCrypted env w w' := by
  cases op with
  | lock =>
    cases he
    exact ⟨w.lock_rekeyed.crypto hc, .of_eq w.lock_rekeyed.written⟩
  | unlock p =>
    cases he
    have hre := KeyWallet.unlock_rekeyed env w p
    exact ⟨hre.crypto hc, .of_eq hre.written⟩
  | addStealthAddress a =>
    cases he
    exact addStealthAddress_writes hc h
  | updateStealthAddress addr label addIfNotExist =>
    cases he
    exact updateStealthAddress_writes hc label addIfNotExist h
  | newStealthAddress =>
    cases he
    exact ⟨hc, .of_eq rfl⟩
  | scan tx =>
    cases he
    have hg := scan_grown_any env tx w
    exact ⟨hg.crypto.trans hc, .of_eq hg.written⟩
  | encryptWallet => exact absurd h id
  | restart => exact absurd h id

end

/-- **After encryption no record with a clear spend secret is written**, in any run of operations that write safely. -/
theorem stored_secrets_crypted (env : StealthEnv) (w w₀ w' : KeyWallet) (p : String) (seed : Seed)
    (hencrypt : w.encryptWallet env p seed = some (true, w₀))
    (hrun : Reach (WalletOp.exec env) (WritesSafely env) w₀ w') :
    ∃ new, w'.db.sxAddr = new ++ w₀.db.sxAddr ∧ ∀ a ∈ new, ¬a.Clear env := by
  have hinv : w'.fUseCrypto = true ∧ WritesCrypted env w₀ w' := by
    refine hrun.inv (I := fun w => w.fUseCrypto = true ∧ WritesCrypted env w₀ w) ?_ ?_
    · exact ⟨(KeyWallet.encryptWallet_recoded hencrypt).1, .of_eq rfl⟩
    · intro op w₁ w₂ hw hok he
      obtain ⟨hc, hwr⟩ := hok.exec hw.1 he
      exact ⟨hc, hw.2.trans hwr⟩
  exact hinv.2

/-- A new address of its own is added to the unlocked wallet. -/
theorem stored_secrets_crypted_added : ((Sample.lockedWallet 1).unlock (Sample.env []) "p").1 = true ∧
      (((Sample.lockedWallet 1).unlock (Sample.env []) "p").2.addStealthAddress (Sample.env [])
        (Sample.address 5 6)).1 =
        true ∧
      ∃ new, (((Sample.lockedWallet 1).unlock (Sample.env []) "p").2.addStealthAddress (Sample.env [])
          (Sample.address 5 6)).2.db.sxAddr = new ++ (Sample.lockedWallet 1).db.sxAddr ∧
        ∀ a ∈ new, ¬a.Clear (Sample.env []) := by
  have he := Sample.encryptWallet_plainWallet 1 (by decide +kernel)
  have hadd : if (Sample.address 5 6).isOwned then ecSecretSize ≤ (Sample.address 5 6).spendSecret.length
      else ¬(Sample.address 5 6).Clear (Sample.env []) := by decide +kernel
  have hrun : Reach (WalletOp.exec (Sample.env [])) (WritesSafely (Sample.env [])) (Sample.lockedWallet 1)
      (((Sample.lockedWallet 1).unlock (Sample.env []) "p").2.addStealthAddress (Sample.env [])
        (Sample.address 5 6)).2 :=
    .step (.addStealthAddress (Sample.address 5 6)) (.step (.unlock "p") .start trivial rfl) hadd rfl
  exact ⟨by decide +kernel, by decide +kernel, stored_secrets_crypted _ _ _ _ _ _ he hrun⟩

/-- **A change of the label writes the spend secret in the clear**, after the wallet has been unlocked and locked. -/
theorem stored_secret_clear :
    (Sample.plainWallet 1).encryptWallet (Sample.env []) "p" Sample.seed = some (true, Sample.lockedWallet 1) ∧
      ∃ a, ((((Sample.lockedWallet 1).unlock (Sample.env []) "p").2.lock.2).updateStealthAddress (Sample.env [])
          ((Sample.address 3 4).encoded (Sample.env [])) "savings" false).2.db.sxAddr =
          a :: (Sample.lockedWallet 1).db.sxAddr ∧ a.Clear (Sample.env []) := by
  refine ⟨Sample.encryptWallet_plainWallet 1 (by decide +kernel), { Sample.address 3 4 with label := "savings" }, ?_⟩
  decide +kernel

/-! ## What is in memory -/

section
variable {env : StealthEnv}

def SecretsHidden (env : StealthEnv) (w : KeyWallet) : Prop :=
  w.fUseCrypto = true → ∀ a ∈ w.stealthAddresses, ¬a.Clear env

/-- The operation leaves no clear spend secret in memory. -/
def HidesSecrets (env : StealthEnv) : WalletOp → KeyWallet → Prop
  | .encryptWallet _ _, w => w.fUseCrypto = false → ∀ a ∈ w.stealthAddresses, a.isOwned = false ∧ ¬a.Clear env
  | .lock, w => w.fUseCrypto = false → w.mapKeys.isEmpty = true → ∀ a ∈ w.stealthAddresses, ¬a.Clear env
  | .unlock _, w => w.isLocked = true → ∀ a ∈ w.stealthAddresses, a.isOwned = false
  | .addStealthAddress a, w => w.fUseCrypto = true → w.isLocked = true ∧ a.isOwned = true ∨ ¬a.Clear env
  | .updateStealthAddress _ _ _, _ => True
  | .newStealthAddress _ _ _, _ | .scan _, _ | .restart _ _, _ => False

theorem Recoded.not_clear (h : Recoded s s') (hs : ∀ a ∈ s, a.isOwned = false ∧ ¬a.Clear env) :
    ∀ a ∈ s', ¬a.Clear env := by
  intro a' ha'
  obtain ⟨a, ha, -, hsa⟩ := h a' ha'
  rw [hsa (hs a ha).1]
  exact (hs a ha).2

theorem SecretsHidden.addStealthAddress (h : SecretsHidden env w)
    (ha : w.fUseCrypto = true → w.isLocked = true ∧ a.isOwned = true ∨ ¬a.Clear env) :
    SecretsHidden env (w.addStealthAddress env a).2 := by
  have hca : (w.addStealthAddress env a).2.fUseCrypto = w.fUseCrypto ∧
      ((w.addStealthAddress env a).2.stealthAddresses = (w.stealthAddresses.insert a).erase a ∨
        ¬(w.isLocked = true ∧ a.isOwned = true) ∧
          (w.addStealthAddress env a).2.stealthAddresses = w.stealthAddresses.insert a) := by
    unfold KeyWallet.addStealthAddress
    dsimp only
    split_ifs with ho hl hcry
    · exact ⟨rfl, .inl rfl⟩
    · split
      · exact ⟨rfl, .inl rfl⟩
      · exact ⟨rfl, .inr ⟨fun hbo => hl hbo.1, rfl⟩⟩
    · exact ⟨rfl, .inr ⟨fun hbo => hl hbo.1, rfl⟩⟩
    · exact ⟨rfl, .inr ⟨fun hbo => ho hbo.2, rfl⟩⟩
  obtain ⟨hcr, hs⟩ := hca
  intro hc b hb
  rw [hcr] at hc
  rcases hs with hs | ⟨hn, hs⟩
  · rw [hs, AddressSet.mem_erase] at hb
    rcases AddressSet.eq_or_mem_of_mem_insert _ hb.1 with rfl | hold
    · exact absurd rfl hb.2
    · exact h hc b hold
  · rw [hs] at hb
    rcases AddressSet.eq_or_mem_of_mem_insert _ hb with rfl | hold
    · exact (ha hc).resolve_left hn
    · exact h hc b hold

theorem SecretsHidden.updateStealthAddress (h : SecretsHidden env w) (addr : Nat) (label : String)
    (addIfNotExist : Bool) : SecretsHidden env (w.updateStealthAddress env addr label addIfNotExist).2 := by
  unfold KeyWallet.updateStealthAddress
  split
  · exact h
  rename_i sxAddr hd
  split
  · exact h
  split_ifs
  · obtain ⟨⟨options, scan, spend⟩, -, rfl⟩ := Option.map_eq_some_iff.mp hd
    intro hc b hb
    rcases AddressSet.eq_or_mem_of_mem_insert _ hb with rfl | hold
    · exact fun hcl => absurd (show ([] : Bytes).length = ecSecretSize from hcl.1) (by decide)
    · exact h hc b hold
  · exact h

theorem SecretsHidden.exec (h : SecretsHidden env w) (hop : HidesSecrets env op w)
    (he : op.exec env w = some w') : SecretsHidden env w' := by
  cases op with
  | encryptWallet p seed =>
    obtain ⟨⟨ok, w1⟩, hen, rfl⟩ := Option.map_eq_some_iff.mp he
    rcases KeyWallet.encryptWallet_cases hen with ⟨-, -, rfl⟩ | ⟨hc, rfl, -⟩
    · exact h
    · exact fun _ => (KeyWallet.encryptWallet_recoded hen).2.not_clear (hop hc)
  | lock =>
    cases he
    rw [KeyWallet.lock_eq]
    split
    · rename_i hca
      intro _
      rcases Bool.eq_false_or_eq_true w.fUseCrypto with hc | hc
      · exact h hc
      · exact hop hc (hca.resolve_left (by rw [hc]; exact Bool.false_ne_true))
    · exact h
  | unlock p =>
    cases he
    rcases KeyWallet.unlock_cases env w p with ⟨v, heq⟩ | ⟨k, v, hl, -, -⟩
    · rw [heq]
      exact h
    · have hc : w.fUseCrypto = true := ((Bool.and_eq_true _ _).mp hl).1
      exact fun _ => (KeyWallet.unlock_rekeyed env w p).addresses.not_clear fun a ha => ⟨hop hl a ha, h hc a ha⟩
  | addStealthAddress a =>
    cases he
    exact h.addStealthAddress hop
  | updateStealthAddress addr label addIfNotExist =>
    cases he
    exact h.updateStealthAddress addr label addIfNotExist
  | newStealthAddress => exact absurd hop id
  | scan => exact absurd hop id
  | restart => exact absurd hop id

end

/-- **A locked wallet has no spend secret in the clear**, in any run from an unencrypted wallet whose operations do not
bring one in. -/
theorem locked_secrets_crypted (env : StealthEnv) (w₀ w : KeyWallet) (hstart : w₀.fUseCrypto = false)
    (hrun : Reach (WalletOp.exec env) (HidesSecrets env) w₀ w) (hcrypted : w.isCrypted = true) :
    ∀ a ∈ w.stealthAddresses, ¬a.Clear env := by
  have hinv : SecretsHidden env w := by
    refine hrun.inv ?_ fun op w₁ w₂ hw hop he => hw.exec hop he
    intro hc
    rw [hstart] at hc
    cases hc
  exact hinv hcrypted

noncomputable def Sample.payerWallet : KeyWallet :=
  ((({} : KeyWallet).addKey (Sample.env []) (Sample.secret 1) true).2.addStealthAddress (Sample.env [])
    { Sample.address 3 4 with scanSecret := [], spendSecret := [] }).2

noncomputable def Sample.lockedPayer : KeyWallet :=
  ((Sample.payerWallet.encryptWallet (Sample.env []) "p" Sample.seed).map Prod.snd).getD {}

theorem locked_secrets_crypted_payer : ((Sample.lockedPayer.unlock (Sample.env []) "p").2.lock.2).isLocked = true ∧
      (Sample.lockedPayer.unlock (Sample.env []) "p").2.lock.2.stealthAddresses.toList.length = 1 ∧
      ∀ a ∈ (Sample.lockedPayer.unlock (Sample.env []) "p").2.lock.2.stealthAddresses, ¬a.Clear (Sample.env []) := by
  have he : (WalletOp.encryptWallet "p" Sample.seed).exec (Sample.env []) Sample.payerWallet =
      some Sample.lockedPayer := by
    rfl
  have hf : ∀ a ∈ Sample.payerWallet.stealthAddresses.toList, a.isOwned = false ∧ ¬a.Clear (Sample.env []) := by
    decide +kernel
  have hs : ∀ a ∈ Sample.lockedPayer.stealthAddresses.toList, a.isOwned = false := by decide +kernel
  have hcr : (Sample.lockedPayer.unlock (Sample.env []) "p").2.fUseCrypto = true := by decide +kernel
  have hrun : Reach (WalletOp.exec (Sample.env [])) (HidesSecrets (Sample.env [])) Sample.payerWallet
      (Sample.lockedPayer.unlock (Sample.env []) "p").2.lock.2 :=
    .step .lock (.step (.unlock "p") (.step (.encryptWallet "p" Sample.seed) .start (fun _ => hf) he)
      (fun _ => hs) rfl) (fun hc => absurd (hcr.symm.trans hc) (by decide)) rfl
  refine ⟨by decide +kernel, by decide +kernel,
    locked_secrets_crypted (Sample.env []) Sample.payerWallet _ rfl hrun ?_⟩
  decide +kernel

/-- **A wallet with an address of its own has the spend secret in the clear as soon as it is encrypted and locked.** -/
theorem locked_secret_clear :
    (Sample.plainWallet 1).encryptWallet (Sample.env []) "p" Sample.seed = some (true, Sample.lockedWallet 1) ∧
      (Sample.lockedWallet 1).isCrypted = true ∧ (Sample.lockedWallet 1).isLocked = true ∧
      ∃ a ∈ (Sample.lockedWallet 1).stealthAddresses.toList, a.Clear (Sample.env []) := by
  refine ⟨Sample.encryptWallet_plainWallet 1 (by decide +kernel), ?_⟩
  decide +kernel

end CloakCoin.Stealth
