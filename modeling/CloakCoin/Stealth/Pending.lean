import CloakCoin.Stealth.Receive
import CloakCoin.Stealth.Derive

/-!
# Keys received while the wallet was locked

A key that a locked wallet receives is stored without its secret, with the ephemeral key and the scan key of the
payment. `UnlockStealthAddresses` decrypts the spend secrets and then computes what is missing. The database
refuses to write a `ckey` record twice, so this is done again after every start.
-/

namespace CloakCoin.Stealth

open Chain Lib Enigma Option
open Std (ExtTreeMap)
open List

/-- `CCryptoKeyStore::GetKey`: the public key and the secret. -/
def KeyWallet.getKey (env : StealthEnv) (address : CKeyID) (w : KeyWallet) : Option (Bytes × Bytes) :=
  if !w.isCrypted then
    (w.mapKeys[address]?).map fun (secret, fCompressed) => (pubKeyOf env secret fCompressed, secret.val)
  else
    match w.mapCryptedKeys[address]? with
    | none => none
    | some (vchPubKey, vchCryptedSecret) =>
      match decryptSecret env w.vMasterKey vchCryptedSecret (env.hash vchPubKey) with
      | none => none
      | some vchSecret => if vchSecret.length ≠ ecSecretSize then none else some (vchPubKey, vchSecret)

/-! ## The right master key -/

structure CStealthAddress.HasSecret (env : StealthEnv) (vMasterKey : Bytes)
    (a : CStealthAddress) (f : Bytes) : Prop where
  length : f.length = ecSecretSize
  pub : secretToPublicKey env f = a.spendPubkey
  form : a.spendSecret = f ∨ a.spendSecret = env.aes.encrypt vMasterKey (env.hash a.spendPubkey) f

/-- The master key decrypts the secret of every address of ours. -/
structure KeyWallet.RightKey (env : StealthEnv) (vMasterKey : Bytes) (w : KeyWallet) : Prop where
  length : vMasterKey.length = walletCryptoKeySize
  secrets : ∀ a ∈ w.stealthAddresses, a.isOwned = true → ∃ f, a.HasSecret env vMasterKey f

section
variable {env : StealthEnv} {w w₁ : KeyWallet} {k : Bytes} {pk : Bytes}

theorem CStealthAddress.HasSecret.unlockedSecret (h : a.HasSecret env k f) (hk : k.length = walletCryptoKeySize)
    (ho : a.isOwned = true) : KeyWallet.unlockedSecret env k a = f := by
  rcases h.form with hc | hs
  · rw [KeyWallet.unlockedSecret_of_length (by rw [hc]; exact h.length), hc]
  · exact KeyWallet.unlockedSecret_of_encrypt hk ho hs h.length h.pub

theorem AddressSet.find?_of_mem {s : AddressSet} (ha : a ∈ s) : s.find? a.scanPubkey = some a := by
  have hs : (s.find? a.scanPubkey).isSome = true :=
    find?_isSome.mpr ⟨a, ha, decide_eq_true rfl⟩
  obtain ⟨b, hb⟩ := isSome_iff_exists.mp hs
  have hsc := find?_some hb
  rw [hb, s.eq_of_scanPubkey_eq (mem_of_find?_eq_some hb) ha (of_decide_eq_true hsc)]

def KeyWallet.decryptAddresses (env : StealthEnv) (k : Bytes) (w : KeyWallet) : KeyWallet :=
  { w with stealthAddresses := w.stealthAddresses.mapSpendSecret (unlockedSecret env k) }

theorem expandedSecret_of_match (ha : a ∈ w.stealthAddresses) (ho : a.isOwned = true)
    (hf : a.HasSecret env k f) (hk : k.length = walletCryptoKeySize)
    (hm : stealthSecret env a.scanSecret vchEphemPK a.spendPubkey = some (sShared, pk))
    (hme : w.mapStealthKeyMeta[env.pubKeyID pk]? = some ⟨vchEphemPK, a.scanPubkey⟩) :
    ∃ secret : CSecret, (w.decryptAddresses env k).expandedSecret env pk = some secret ∧
      secretToPublicKey env secret = pk := by
  have hc : ({ a with spendSecret := f } : CStealthAddress).Clear env := ⟨hf.length, hf.pub⟩
  have hmem : { a with spendSecret := f } ∈ w.stealthAddresses.mapSpendSecret (KeyWallet.unlockedSecret env k) := by
    refine (AddressSet.mem_mapSpendSecret _).mpr ⟨a, ha, ?_⟩
    rw [hf.unlockedSecret hk ho]
  have hfi := AddressSet.find?_of_mem hmem
  have hsc : a.scanSecret.length = ecSecretSize := by simpa [CStealthAddress.isOwned] using ho
  have hp := hc.point_oneTimeSecret hm
  have hl : (stealthSharedToSecretSpend env sShared f).length = ecSecretSize := env.curve.length_addSecrets _ _
  have hs : stealthSecretSpend env a.scanSecret vchEphemPK f = some (stealthSharedToSecretSpend env sShared f) := by
    unfold stealthSecret at hm
    split at hm
    · rename_i hP _
      cases hm
      rw [stealthSecretSpend, hP]
      rfl
    · cases hm
  refine ⟨⟨stealthSharedToSecretSpend env sShared f, hl⟩, ?_, hp⟩
  unfold KeyWallet.expandedSecret KeyWallet.decryptAddresses
  rw [hme]
  dsimp only
  rw [hfi]
  dsimp only
  rw [if_neg (by simp [hf.length, hsc]), hs]
  dsimp only
  rw [dif_pos ⟨hl, hp⟩]

/-! ## The loop over the keys -/

structure Expanding (env : StealthEnv) (k : Bytes) (w₁ w : KeyWallet) : Prop where
  crypto : w.fUseCrypto = true
  master : w.vMasterKey = k
  addresses : w.stealthAddresses = w₁.stealthAddresses
  metadata : w.mapStealthKeyMeta = w₁.mapStealthKeyMeta
  ids : ∀ (id : CKeyID) (e : Bytes × Bytes), w.mapCryptedKeys[id]? = some e → env.pubKeyID e.1 = id

theorem Expanding.expandedSecret (h : Expanding env k w₁ w) (pk : Bytes) :
    w.expandedSecret env pk = w₁.expandedSecret env pk := by
  unfold KeyWallet.expandedSecret
  rw [h.metadata, h.addresses]

theorem KeyWallet.addKey_unlocked (hc : w.fUseCrypto = true) (hk : w.vMasterKey.length = walletCryptoKeySize)
    (secret : CSecret) (fCompressed : Bool) :
    w.addKey env secret fCompressed = w.addCryptedKey env (pubKeyOf env secret fCompressed)
      (env.aes.encrypt w.vMasterKey (env.hash (pubKeyOf env secret fCompressed)) secret) := by
  have ho : w.isLocked = false := KeyWallet.Unlocked.isLocked fun _ => hk
  unfold addKey
  simp [isCrypted, hc, ho, encryptSecret, hk]

theorem KeyWallet.secretToPublicKey_of_expandedSecret
    (h : w.expandedSecret env pk = some secret) : secretToPublicKey env secret = pk := by
  unfold expandedSecret at h
  split at h
  · cases h
  split at h
  · cases h
  split at h
  · cases h
  split at h
  · cases h
  split at h
  · rename_i hk
    rw [← some.inj h]
    exact hk.2
  · cases h

theorem expandKey_spec (hk : k.length = walletCryptoKeySize) (h : Expanding env k w₁ w) (id : CKeyID) :
    w.expandKey env id = w ∧ (∀ pk, w.mapCryptedKeys[id]? = some (pk, []) → w₁.expandedSecret env pk = none) ∨
      ∃ pk secret, w.mapCryptedKeys[id]? = some (pk, []) ∧ w₁.expandedSecret env pk = some secret ∧
        Expanding env k w₁ (w.expandKey env id) ∧
        (w.expandKey env id).mapCryptedKeys =
          w.mapCryptedKeys.insert id (pk, env.aes.encrypt k (env.hash pk) secret) := by
  unfold KeyWallet.expandKey
  rcases hen : w.mapCryptedKeys[id]? with _ | ⟨pk, _ | ⟨b, bs⟩⟩
  · exact .inl ⟨rfl, fun pk hpk => by cases hpk⟩
  · dsimp only
    rw [if_neg (by simp), h.expandedSecret]
    rcases hs : w₁.expandedSecret env pk with _ | secret
    · refine .inl ⟨rfl, ?_⟩
      intro pk' hp'
      cases hp'
      exact hs
    have hp : pubKeyOf env secret true = pk := KeyWallet.secretToPublicKey_of_expandedSecret hs
    have hid : env.pubKeyID pk = id := h.ids id _ hen
    have ha : w.addKey env secret true = w.addCryptedKey env pk (env.aes.encrypt k (env.hash pk) secret) := by
      rw [KeyWallet.addKey_unlocked h.crypto (by rw [h.master, hk]), hp, h.master]
    have hc : (w.addCryptedKey env pk (env.aes.encrypt k (env.hash pk) secret)).2 = _ :=
      KeyWallet.addCryptedKey_eq h.crypto pk _
    rw [hid] at hc
    have hi : ∀ (id' : CKeyID) (e : Bytes × Bytes),
        (w.mapCryptedKeys.insert id (pk, env.aes.encrypt k (env.hash pk) secret))[id']? = some e →
          env.pubKeyID e.1 = id' := by
      intro id' e he
      by_cases hi' : id' = id
      · rw [hi', ExtTreeMap.getElem?_insert_self] at he
        rw [← some.inj he, hi']
        exact hid
      · rw [getElem?_insert_ne _ hi'] at he
        exact h.ids id' e he
    refine .inr ⟨pk, secret, rfl, hs, ?_⟩
    dsimp only
    rw [ha]
    generalize w.addCryptedKey env pk (env.aes.encrypt k (env.hash pk) secret) = r at hc ⊢
    obtain ⟨ok, w'⟩ := r
    subst hc
    cases ok with
    | false => exact ⟨⟨h.crypto, h.master, h.addresses, h.metadata, hi⟩, rfl⟩
    | true => exact ⟨⟨h.crypto, h.master, h.addresses, h.metadata, hi⟩, rfl⟩
  · refine .inl ⟨rfl, ?_⟩
    intro pk' hp'
    cases hp'

theorem foldl_expandKey (hk : k.length = walletCryptoKeySize) {id : CKeyID}
    (hs : w₁.expandedSecret env pk = some secret) (l : List CKeyID) (hw : Expanding env k w₁ w)
    (he : w.mapCryptedKeys[id]? = some (pk, []) ∧ id ∈ l ∨
      w.mapCryptedKeys[id]? = some (pk, env.aes.encrypt k (env.hash pk) secret)) :
    Expanding env k w₁ (l.foldl (KeyWallet.expandKey env) w) ∧
      (l.foldl (KeyWallet.expandKey env) w).mapCryptedKeys[id]? =
        some (pk, env.aes.encrypt k (env.hash pk) secret) := by
  induction l generalizing w with
  | nil =>
    rcases he with ⟨-, hm⟩ | hd
    · cases hm
    · exact ⟨hw, hd⟩
  | cons id' l ih =>
    rw [foldl_cons]
    have hn : env.aes.encrypt k (env.hash pk) secret.val ≠ [] :=
      ne_nil_of_length_pos (Nat.zero_lt_of_lt (env.aes.length_lt_encrypt _ _ _))
    rcases expandKey_spec hk hw id' with ⟨heq, hno⟩ | ⟨pk', secret', he', hs', hw', hma⟩
    · rw [heq]
      apply ih hw
      rcases he with ⟨hp, hm⟩ | hd
      · rcases mem_cons.mp hm with rfl | hm
        · rw [hno pk hp] at hs
          cases hs
        · exact .inl ⟨hp, hm⟩
      · exact .inr hd
    · apply ih hw'
      rw [hma]
      by_cases hid : id = id'
      · subst hid
        rw [ExtTreeMap.getElem?_insert_self]
        rcases he with ⟨hp, -⟩ | hd
        · rw [hp] at he'
          cases he'
          rw [hs] at hs'
          cases hs'
          exact .inr rfl
        · rw [hd] at he'
          exact absurd (congrArg Prod.snd (some.inj he')) hn
      · rw [getElem?_insert_ne _ hid]
        exact he.imp_left fun ⟨hp, hm⟩ => ⟨hp, mem_of_ne_of_mem hid hm⟩

end

/-! ## Received and unlocked -/

/-- **Payments received while locked become spendable**: after any calls for addresses of our own in a locked wallet,
`UnlockStealthAddresses` with the right master key stores for every key id received the secret of the public key
that is recorded there. -/
theorem received_locked_spendable (env : StealthEnv) (k : Bytes) (w₀ : KeyWallet) (calls : List Receipt)
    (hlocked : w₀.isLocked = true) (hright : w₀.RightKey env k)
    (hids : ∀ (id : CKeyID) (e : Bytes × Bytes), w₀.mapCryptedKeys[id]? = some e → env.pubKeyID e.1 = id)
    (hours : ∀ c ∈ calls, c.sx ∈ w₀.stealthAddresses ∧ c.sx.isOwned = true) : ∀ c ∈ calls, ∀ id, c.keyID env = some id →
      ∃ pk, (calls.foldl (Receipt.run env) w₀).mapCryptedKeys[id]? = some (pk, []) ∧
        ∃ secret : CSecret, secretToPublicKey env secret = pk ∧
          (({ calls.foldl (Receipt.run env) w₀ with vMasterKey := k } : KeyWallet).unlockStealthAddresses env k).getKey
            env id = some (pk, secret.val) := by
  intro c hc id hid
  have hg := Receipt.foldl_run_grown env calls w₀
  have hcr : w₀.fUseCrypto = true := ((Bool.and_eq_true _ _).mp hlocked).1
  have hca := Receipt.foldl_run_locked env hlocked calls
  generalize calls.foldl (Receipt.run env) w₀ = w at hg hca ⊢
  rcases hca id with ⟨c', hc', pk, hpk, hid', hen, hm⟩ | ⟨hn, -⟩
  · obtain ⟨hmem, ho⟩ := hours c' hc'
    obtain ⟨f, hf⟩ := hright.secrets c'.sx hmem ho
    obtain ⟨⟨sShared, pk'⟩, hma, rfl⟩ := map_eq_some_iff.mp hpk
    obtain ⟨-, hs⟩ := stealthMatch_keyID hma
    rw [← hid'] at hm
    let w₁ : KeyWallet := { w with vMasterKey := k }
    have hm₁ : c'.sx ∈ w₁.stealthAddresses := by
      rw [hg.addresses]
      exact hmem
    obtain ⟨secret, hex, hpub⟩ := expandedSecret_of_match (w := w₁) hm₁ ho hf hright.length hs hm
    have hst : Expanding env k (w₁.decryptAddresses env k) (w₁.decryptAddresses env k) := by
      refine ⟨hg.crypto.trans hcr, rfl, rfl, rfl, ?_⟩
      intro id' e he
      rcases hca id' with ⟨c'', -, pk'', -, hid'', hentry'', -⟩ | ⟨-, hsa⟩
      · have heq := hentry''.symm.trans he
        rw [← some.inj heq]
        exact hid''
      · exact hids id' e (hsa.symm.trans he)
    have hkey : id ∈ (w₁.decryptAddresses env k).mapCryptedKeys.keys := by
      rw [ExtTreeMap.mem_keys, ExtTreeMap.mem_iff_isSome_getElem?]
      show (w.mapCryptedKeys[id]?).isSome = true
      rw [hen]
      rfl
    obtain ⟨hend, hd⟩ := foldl_expandKey hright.length hex _ hst (.inl ⟨hen, hkey⟩)
    refine ⟨pk', hen, secret, hpub, ?_⟩
    show KeyWallet.getKey env id (List.foldl (KeyWallet.expandKey env) (w₁.decryptAddresses env k)
      (w₁.decryptAddresses env k).mapCryptedKeys.keys) = _
    unfold KeyWallet.getKey
    rw [KeyWallet.isCrypted, hend.crypto, hd, hend.master]
    simp [decryptSecret, hright.length, env.aes.decrypt_encrypt, secret.2]
  · exact absurd hid (hn c hc)

/-- The payment to the key 19 is received and unlocked. -/
theorem received_locked_spendable_payment : let key : CTxOut := ⟨1, stealthNonceScript (Sample.compress (.ofNat 5))⟩
    let out : CTxOut := ⟨coin, scriptForKeyID (Sample.compress (.ofNat 19))⟩
    let calls : List Receipt := [⟨Sample.address 3 4, key, out, Sample.compress (.ofNat 5), false⟩]
    ∃ pk, (calls.foldl (Receipt.run (Sample.env [])) (Sample.lockedWallet 1)).mapCryptedKeys[Sample.compress
        (.ofNat 19)]? = some (pk, []) ∧
      ∃ secret : CSecret, secretToPublicKey (Sample.env []) secret = pk ∧
        (({ calls.foldl (Receipt.run (Sample.env [])) (Sample.lockedWallet 1) with vMasterKey := toBytes 32 7 } :
          KeyWallet).unlockStealthAddresses (Sample.env []) (toBytes 32 7)).getKey (Sample.env [])
            (Sample.compress (.ofNat 19)) = some (pk, secret.val) := by
  intro key out calls
  have had : (Sample.lockedWallet 1).stealthAddresses.toList = [Sample.address 3 4] := by decide +kernel
  have hk : (Sample.lockedWallet 1).mapCryptedKeys.toList.all
      (fun e => (Sample.env []).pubKeyID e.2.1 == e.1) = true := by decide +kernel
  have hmem : ∀ a ∈ (Sample.lockedWallet 1).stealthAddresses, a = Sample.address 3 4 := by
    intro a ha
    rw [AddressSet.mem_def, had] at ha
    exact mem_singleton.mp ha
  have hr : (Sample.lockedWallet 1).RightKey (Sample.env []) (toBytes 32 7) := by
    refine ⟨length_toBytes 32 7, ?_⟩
    intro a ha _
    rw [hmem a ha]
    exact ⟨(Sample.secret 4).val, ⟨length_toBytes 32 4, rfl, .inl rfl⟩⟩
  have hids : ∀ (id : CKeyID) (e : Bytes × Bytes), (Sample.lockedWallet 1).mapCryptedKeys[id]? = some e →
      (Sample.env []).pubKeyID e.1 = id := by
    intro id e he
    have hone := all_eq_true.mp hk (id, e) (ExtTreeMap.mem_toList_iff_getElem?_eq_some.mpr he)
    exact beq_iff_eq.mp hone
  have ho : ∀ c ∈ calls, c.sx ∈ (Sample.lockedWallet 1).stealthAddresses ∧ c.sx.isOwned = true := by
    intro c hc
    rw [mem_singleton.mp hc, AddressSet.mem_def, had]
    exact ⟨mem_cons_self, by decide +kernel⟩
  exact received_locked_spendable (Sample.env []) (toBytes 32 7) (Sample.lockedWallet 1) calls (by decide +kernel) hr
    hids ho _ mem_cons_self _ (by decide +kernel)

/-! ## Locking and unlocking the key store -/

def KeyWallet.getPubKey (env : StealthEnv) (address : CKeyID) (w : KeyWallet) : Option Bytes :=
  if !w.isCrypted then (w.getKey env address).map Prod.fst else (w.mapCryptedKeys[address]?).map Prod.fst

inductive StoreOp where
  | lock
  | unlock (vMasterKeyIn : Bytes)

def StoreOp.exec (env : StealthEnv) (w : KeyWallet) : StoreOp → KeyWallet
  | lock => w.lock.2
  | unlock vMasterKeyIn => (w.cryptoUnlock env vMasterKeyIn).2

/-- With another key nothing decrypts to the secret of the public key. -/
def KeepsOut (env : StealthEnv) (k : Bytes) : Prop :=
  ∀ k' pub c, k' ≠ k → WellEncrypted env k pub c → checkSecret env k' pub c = false

/-- The store holds the keys of `w`, encrypted with `k`. -/
structure Sealed (env : StealthEnv) (k : Bytes) (w s : KeyWallet) : Prop where
  length : k.length = walletCryptoKeySize
  crypto : s.fUseCrypto = true
  master : s.vMasterKey = [] ∨ s.vMasterKey = k
  keys : ∀ (id : CKeyID) e, w.mapKeys[id]? = some e → s.mapCryptedKeys[id]? = some (sealedKey env k e)
  encrypted : KeysEncrypted env k s
  first : s.firstCryptedKey ≠ none

section
variable {env : StealthEnv} {k : Bytes} {w w' s : KeyWallet}

/-- Each key is written once: what a key id gets does not depend on the order. -/
theorem KeyWallet.foldlM_encryptKey_getElem? {id : CKeyID} :
    ∀ (l : List (CKeyID × CSecret × Bool)) {w : KeyWallet}, w.fUseCrypto = true →
      l.foldlM (encryptKey env k) w = some w' →
      (∀ m ∈ l, env.pubKeyID (pubKeyOf env m.2.1 m.2.2) = id → sealedKey env k m.2 = x) →
      (w.mapCryptedKeys[id]? = some x ∨ ∃ m ∈ l, env.pubKeyID (pubKeyOf env m.2.1 m.2.2) = id) →
      w'.mapCryptedKeys[id]? = some x ∧ w'.vMasterKey = w.vMasterKey ∧ (l ≠ [] → k.length = walletCryptoKeySize)
  | [], w, _, h, _, hid => by
    cases h
    simpa using hid
  | m :: l, w, hc, h, hs, hid => by
    rw [foldlM_cons, bind_eq_bind, bind_eq_some_iff] at h
    obtain ⟨w₁, hst, hr⟩ := h
    obtain ⟨hk, rfl⟩ := encryptKey_eq hst
    rw [addCryptedKey_eq hc] at hr
    obtain ⟨hg, hma, -⟩ := foldlM_encryptKey_getElem? l (by exact hc) hr
      (fun m' hm' => hs m' (mem_cons_of_mem m hm')) (by
        rw [ExtTreeMap.getElem?_insert]
        by_cases hm : env.pubKeyID (pubKeyOf env m.2.1 m.2.2) = id
        · exact .inl (by simp [sealedKey, hm, ← hs m mem_cons_self hm])
        rcases hid with hid | ⟨m', hm', hid⟩
        · exact .inl (by simp [sealedKey, hm, hid])
        · rcases mem_cons.mp hm' with rfl | hm'
          · exact absurd hid hm
          · exact .inr ⟨m', hm', hid⟩)
    exact ⟨hg, hma, fun _ => hk⟩

theorem Sealed.encryptKeys (hi : ∀ (id : CKeyID) e, w.mapKeys[id]? = some e → env.pubKeyID (pubKeyOf env e.1 e.2) = id)
    (hma : w.vMasterKey = []) (hne : w.mapKeys ≠ ∅) (h : w.encryptKeys env k = some s) : Sealed env k w s := by
  obtain ⟨ha, hen⟩ := KeyWallet.encryptKeys_spec h
  unfold KeyWallet.encryptKeys at h
  split at h
  · cases h
  obtain ⟨s, hl, rfl⟩ := map_eq_some_iff.mp h
  have hs : ∀ (id : CKeyID) e, w.mapKeys[id]? = some e → s.mapCryptedKeys[id]? = some (sealedKey env k e) ∧
      s.vMasterKey = w.vMasterKey ∧ (w.mapKeys.toList ≠ [] → k.length = walletCryptoKeySize) := by
    intro id e he
    have hme : (id, e) ∈ w.mapKeys.toList := ExtTreeMap.mem_toList_iff_getElem?_eq_some.mpr he
    refine KeyWallet.foldlM_encryptKey_getElem? (w := { w with fUseCrypto := true }) _ rfl hl (fun m hm hid => ?_)
      (.inr ⟨_, hme, hi id e he⟩)
    have hm := ExtTreeMap.mem_toList_iff_getElem?_eq_some.mp (show (m.1, m.2) ∈ w.mapKeys.toList from hm)
    rw [← hi _ _ hm, hid, he] at hm
    cases hm
    rfl
  obtain ⟨id, e, he⟩ : ∃ (id : CKeyID) (e : CSecret × Bool), w.mapKeys[id]? = some e := by
    by_contra hn
    push Not at hn
    exact hne (ExtTreeMap.ext_getElem? fun id => by simpa using eq_none_iff_forall_not_mem.mpr (hn id))
  obtain ⟨hg, hm, hk⟩ := hs id e he
  refine ⟨hk (ne_nil_of_mem (ExtTreeMap.mem_toList_iff_getElem?_eq_some.mpr he)), ha.crypto,
    .inl (hm.trans hma), fun id e he => (hs id e he).1, hen, ?_⟩
  have hme (id : CKeyID) : id ∈ s.mapCryptedKeys.keys ↔ (s.mapCryptedKeys[id]?).isSome = true := by
    rw [ExtTreeMap.mem_keys, ExtTreeMap.mem_iff_isSome_getElem?]
  cases hke : s.mapCryptedKeys.keys with
  | nil =>
    have hin := (hme id).mpr (by rw [hg]; rfl)
    rw [hke] at hin
    cases hin
  | cons first rest =>
    have hf := (hme first).mp (by rw [hke]; exact mem_cons_self)
    simpa [KeyWallet.firstCryptedKey, hke, isSome_iff_ne_none] using hf

theorem Sealed.cryptoUnlock (h : Sealed env k w s) (ho : KeepsOut env k) (k' : Bytes) :
    s.cryptoUnlock env k' = if k' = k then (true, { s with vMasterKey := k }) else (false, s) := by
  rw [KeyWallet.cryptoUnlock_eq h.crypto]
  by_cases hk : k' = k
  · rw [if_pos hk, hk, if_pos (h.encrypted.accepts h.length)]
  obtain ⟨e, he⟩ := ne_none_iff_exists'.mp h.first
  obtain ⟨id, -, hid⟩ := bind_eq_some_iff.mp he
  have hf : s.accepts env k' = false := by
    simpa [KeyWallet.accepts, he] using ho k' _ _ hk (h.encrypted id e hid)
  rw [if_neg hk, hf, if_neg Bool.false_ne_true]

theorem Sealed.exec (h : Sealed env k w s) (ho : KeepsOut env k) (op : StoreOp) : Sealed env k w (op.exec env s) := by
  cases op with
  | lock =>
    rw [StoreOp.exec, KeyWallet.lock_of_crypted h.crypto]
    exact ⟨h.length, h.crypto, .inl rfl, h.keys, h.encrypted, h.first⟩
  | unlock k' =>
    rw [StoreOp.exec, h.cryptoUnlock ho]
    split
    · exact ⟨h.length, h.crypto, .inr rfl, h.keys, h.encrypted, h.first⟩
    · exact h

theorem Sealed.getKey (h : Sealed env k w s) (hm : s.vMasterKey = k) {id : CKeyID}
    (he : w.mapKeys[id]? = some e) : s.getKey env id = some (pubKeyOf env e.1 e.2, e.1.val) := by
  rw [KeyWallet.getKey, KeyWallet.isCrypted, h.crypto, h.keys id e he, hm]
  simp [sealedKey, decryptSecret, h.length, env.aes.decrypt_encrypt, e.1.2]

theorem encrypted_store_keeps_keys
    (hids : ∀ (id : CKeyID) e, w.mapKeys[id]? = some e → env.pubKeyID (pubKeyOf env e.1 e.2) = id)
    (hmaster : w.vMasterKey = []) (hne : w.mapKeys ≠ ∅) (h : w.encryptKeys env k = some w') (hout : KeepsOut env k)
    (ops : List StoreOp) : let s := ops.foldl (StoreOp.exec env) w'
    (s.isLocked = false → ∀ id e, w.mapKeys[id]? = some e → s.getKey env id = w.getKey env id) ∧
      (s.isLocked = true → ∀ id, s.getKey env id = none) ∧
      (∀ id e, w.mapKeys[id]? = some e → s.getPubKey env id = w.getPubKey env id) ∧
      (∀ k', k' ≠ k → s.cryptoUnlock env k' = (false, s)) ∧
      s.cryptoUnlock env k = (true, { s with vMasterKey := k }) := by
  intro s
  have hs : Sealed env k w s := List.foldlRecOn (motive := Sealed env k w) ops _ (.encryptKeys hids hmaster hne h)
    fun _ hs op _ => hs.exec hout op
  have hp : w.isCrypted = false := by
    unfold KeyWallet.encryptKeys at h
    grind
  have hkey : ∀ id e, w.mapKeys[id]? = some e →
    w.getKey env id = some (pubKeyOf env e.1 e.2, e.1.val) := fun id e he => by
    rw [KeyWallet.getKey, hp, he]
    rfl
  refine ⟨fun hu id e he => ?_, fun hl id => ?_, fun id e he => ?_, fun k' hk' => ?_, ?_⟩
  · have hk : s.vMasterKey = k := by
      rcases hs.master with hem | hk
      · simp [KeyWallet.isLocked, KeyWallet.isCrypted, hs.crypto, hem] at hu
      · exact hk
    rw [hs.getKey hk he, hkey id e he]
  · have hem : s.vMasterKey = [] := by
      simpa [KeyWallet.isLocked, KeyWallet.isCrypted, hs.crypto] using hl
    rw [KeyWallet.getKey, KeyWallet.isCrypted, hs.crypto, hem]
    simp only [Bool.not_true, Bool.false_eq_true, if_false]
    split
    · rfl
    · simp [decryptSecret, walletCryptoKeySize]
  · have hc : s.isCrypted = true := hs.crypto
    simp [KeyWallet.getPubKey, hp, hc, hkey id e he, hs.keys id e he, sealedKey]
  · rw [hs.cryptoUnlock hout, if_neg hk']
  · rw [hs.cryptoUnlock hout, if_pos rfl]

end

namespace Sample

noncomputable def oneKey : KeyWallet := (({} : KeyWallet).addKey (env []) (secret 1) true).2

theorem keepsOut (hk : k.length = walletCryptoKeySize) : KeepsOut (env []) k := by
  rintro k' _ _ hne ⟨plain, fCompressed, rfl, rfl⟩
  have hn (iv : Bytes) : decryptSecret (env []) k' ((env []).aes.encrypt k iv plain) iv = none := by
    unfold decryptSecret
    split
    · rfl
    rename_i hk'
    have hl : (k' ++ iv).length = (k ++ iv).length := by simp [not_not.mp hk', hk]
    refine if_neg fun h => hne ?_
    rw [hl, show (env []).aes.encrypt k iv plain = (k ++ iv) ++ (plain.val ++ [1]) from rfl, take_left] at h
    exact (append_cancel_right h.1).symm
  rw [checkSecret, hn]

theorem encrypted_store_keeps_keys_one : ∃ w, oneKey.encryptKeys (env []) (toBytes 32 7) = some w ∧
    let locked := w.lock.2
    let unlocked := (locked.cryptoUnlock (env []) (toBytes 32 7)).2
    locked.getKey (env []) (compress (.ofNat 1)) = none ∧
      locked.getPubKey (env []) (compress (.ofNat 1)) = oneKey.getPubKey (env []) (compress (.ofNat 1)) ∧
      locked.cryptoUnlock (env []) (toBytes 32 8) = (false, locked) ∧
      unlocked.getKey (env []) (compress (.ofNat 1)) = oneKey.getKey (env []) (compress (.ofNat 1)) := by
  have hk : oneKey.mapKeys = (∅ : KeyMap (CSecret × Bool)).insert (compress (.ofNat 1)) (secret 1, true) := by rfl
  have hs : (oneKey.encryptKeys (env []) (toBytes 32 7)).isSome = true := by decide +kernel
  obtain ⟨w, hw⟩ := isSome_iff_exists.mp hs
  have hids : ∀ (id : CKeyID) e, oneKey.mapKeys[id]? = some e → (env []).pubKeyID (pubKeyOf (env []) e.1 e.2) = id := by
    intro id e he
    rw [hk, ExtTreeMap.getElem?_insert] at he
    split at he
    · rename_i hid
      cases he
      exact Std.LawfulEqCmp.eq_of_compare hid
    · simp at he
  have hne : oneKey.mapKeys ≠ ∅ := by simp [hk]
  have hkeeps := encrypted_store_keeps_keys hids rfl hne hw (keepsOut (length_toBytes 32 7))
  obtain ⟨-, hnone, hpub, hwrong, hright⟩ := hkeeps [.lock]
  obtain ⟨hopen, -⟩ := hkeeps [.lock, .unlock (toBytes 32 7)]
  have hcrypto : w.fUseCrypto = true := (Sealed.encryptKeys hids rfl hne hw).crypto
  have hlock := KeyWallet.lock_of_crypted hcrypto
  simp only [foldl_cons, foldl_nil, StoreOp.exec] at hnone hpub hwrong hright hopen
  have he : oneKey.mapKeys[compress (.ofNat 1)]? = some (secret 1, true) := by
    rw [hk, ExtTreeMap.getElem?_insert_self]
  refine ⟨w, hw, hnone ?_ _, hpub _ _ he, hwrong _ (by decide +kernel), hopen ?_ _ _ he⟩
  · rw [hlock]
    simp [KeyWallet.isLocked, KeyWallet.isCrypted, hcrypto]
  · rw [hright]
    simp [KeyWallet.isLocked, toBytes]

end Sample

end CloakCoin.Stealth
