import CloakCoin.Stealth.Lockout

/-!
# Scanning and the keys that are already there

`FindStealthTransactionForOutput` asks whether the wallet has the key of an output and ignores the answer. An
unlocked wallet then adds the same key once more. A locked one replaces the entry by one without a secret.
-/

namespace CloakCoin.Stealth

open Chain Lib Enigma
open Std (ExtTreeMap)
open List Option

variable {w : KeyWallet} {rootKey : Bytes} {txoutStealthKey : CTxOut}

/-! ## Calls -/

structure Receipt where
  sx : CStealthAddress
  txoutStealthKey : CTxOut
  txoutB : CTxOut
  vchEphemPK : Bytes
  isEnigmaAddress : Bool

namespace Receipt

section
variable (env : StealthEnv)

def run (w : KeyWallet) (c : Receipt) : KeyWallet :=
  (findStealthTransactionForOutput env c.sx c.txoutStealthKey c.txoutB c.vchEphemPK c.isEnigmaAddress w).2

/-- The one-time key that the output pays, if it does. -/
def pubKey (c : Receipt) : Option Bytes := (stealthMatch env c.sx c.txoutB c.vchEphemPK).map Prod.snd

def keyID (c : Receipt) : Option CKeyID := (c.pubKey env).map env.pubKeyID

/-- What the call reports for a locked wallet. -/
def found (c : Receipt) : Bool :=
  match stealthMatch env c.sx c.txoutB c.vchEphemPK with
  | none => false
  | some (sShared, _) => c.isEnigmaAddress || env.narrationOk c.txoutStealthKey sShared

end

section
variable {env : StealthEnv}

variable (env) in
theorem run_grown (w : KeyWallet) (c : Receipt) : Grown (fun _ => True) w (c.run env w) :=
  findStealthTransactionForOutput_grown c.txoutStealthKey c.isEnigmaAddress (fun _ _ _ => trivial)
    fun _ _ => .inr fun _ => trivial

variable (env) in
theorem foldl_run_grown (calls : List Receipt) (w : KeyWallet) : Grown (fun _ => True) w (calls.foldl (run env) w) := by
  refine List.foldlRecOn (motive := Grown (fun _ => True) w) calls _ (.refl w) ?_
  intro w' h c _
  exact h.trans (run_grown env w' c)

variable (env) in
theorem find_locked (hl : w.isLocked = true) (c : Receipt) :
    findStealthTransactionForOutput env c.sx c.txoutStealthKey c.txoutB c.vchEphemPK c.isEnigmaAddress w =
      (c.found env, c.run env w) := by
  apply Prod.ext
  · unfold findStealthTransactionForOutput found
    cases stealthMatch env c.sx c.txoutB c.vchEphemPK with
    | none => rfl
    | some p => simp [hl]
  · rfl

theorem run_locked (hl : w.isLocked = true) (c : Receipt) : c.run env w = match c.pubKey env with
      | none => w
      | some pk => receiveLocked env c.sx pk c.vchEphemPK w := by
  unfold run findStealthTransactionForOutput pubKey
  cases stealthMatch env c.sx c.txoutB c.vchEphemPK with
  | none => rfl
  | some p => simp [hl]

end

end Receipt

/-! ## The calls of a scan -/

section
variable (env : StealthEnv)

/-- The calls of `FindStealthTransactions` for one output. -/
def outputReceipts (txoutStealthKey : CTxOut) (rootKey : Bytes) (addresses : List CStealthAddress) (txoutB : CTxOut) :
    List Receipt :=
  (addresses.filter CStealthAddress.isOwned).map fun sx => ⟨sx, txoutStealthKey, txoutB, rootKey, false⟩

/-- The call of the inner loop of `FindEnigmaTransactions`. -/
def innerReceipt (sx : CStealthAddress) (rootKey : Bytes) (hash : Hash256) (num : Nat) (txoutStealthKey : CTxOut)
    (txoutInner : CTxOut) : Option Receipt :=
  if txoutInner = txoutStealthKey ∨ txoutInner.nValue = 0 then none
  else
    match extractDestination env.toEnigmaEnv txoutInner.scriptPubKey with
    | some (.keyID id) => (stealthIndex env sx rootKey hash num (.keyID id)).map fun i =>
        ⟨sx, txoutStealthKey, txoutInner, secretToPublicKey env (env.enigmaSecret rootKey hash i), true⟩
    | _ => none

/-- The calls of one pass of its outer loop. -/
def outerReceipts (addresses : AddressSet) (rootKey : Bytes) (vout : List CTxOut) (txoutStealthKey txout : CTxOut) :
    List Receipt :=
  if txout = txoutStealthKey then []
  else
    match extractDestination env.toEnigmaEnv txout.scriptPubKey with
    | some (.keyID id) =>
      match matchedAddress env addresses rootKey (.keyID id) with
      | none => []
      | some (sx, ourHash) => vout.filterMap (innerReceipt env sx rootKey ourHash vout.length txoutStealthKey)
    | _ => []

/-- The calls that a scan makes in a locked wallet with these addresses. -/
def scanReceipts (addresses : AddressSet) (vout : List CTxOut) : List Receipt :=
  match stealthReturn vout with
  | none => []
  | some (txoutStealthKey, rootKey) =>
    takeUntil (Receipt.found env) (vout.flatMap (outputReceipts txoutStealthKey rootKey addresses.toList)) ++
      vout.flatMap (outerReceipts env addresses rootKey vout txoutStealthKey)

end

section
variable {env : StealthEnv}

theorem findForAddresses_locked (txoutB : CTxOut) (l : List CStealthAddress) (hl : w.isLocked = true) :
    findForAddresses env txoutStealthKey txoutB rootKey l w =
      ((outputReceipts txoutStealthKey rootKey l txoutB).any (Receipt.found env),
        (takeUntil (Receipt.found env) (outputReceipts txoutStealthKey rootKey l txoutB)).foldl
          (Receipt.run env) w) := by
  induction l generalizing w with
  | nil => rfl
  | cons sx rest ih =>
    have hf : outputReceipts txoutStealthKey rootKey (sx :: rest) txoutB =
        if sx.isOwned then ⟨sx, txoutStealthKey, txoutB, rootKey, false⟩ ::
          outputReceipts txoutStealthKey rootKey rest txoutB
        else outputReceipts txoutStealthKey rootKey rest txoutB := by
      unfold outputReceipts
      cases h : sx.isOwned <;> simp [h]
    rw [findForAddresses, hf]
    cases ho : sx.isOwned with
    | false => exact ih hl
    | true =>
      have hc := Receipt.find_locked env hl ⟨sx, txoutStealthKey, txoutB, rootKey, false⟩
      simp only [Bool.not_true, Bool.false_eq_true, if_false, if_true, hc, any_cons, takeUntil]
      cases Receipt.found env ⟨sx, txoutStealthKey, txoutB, rootKey, false⟩ with
      | true => rfl
      | false => exact ih ((Receipt.run_grown env w _).isLocked.trans hl)

theorem findStealthOutput_locked (l : List CTxOut) (hl : w.isLocked = true) :
    (findStealthOutput env txoutStealthKey rootKey l w).2 =
      (takeUntil (Receipt.found env) (l.flatMap
        (outputReceipts txoutStealthKey rootKey w.stealthAddresses.toList))).foldl
        (Receipt.run env) w := by
  induction l generalizing w with
  | nil => rfl
  | cons txoutB rest ih =>
    rw [findStealthOutput, findForAddresses_locked txoutB _ hl, flatMap_cons, takeUntil_append,
      foldl_append]
    cases (outputReceipts txoutStealthKey rootKey w.stealthAddresses.toList txoutB).any (Receipt.found env) with
    | true => rfl
    | false =>
      have hg := Receipt.foldl_run_grown env (takeUntil (Receipt.found env)
        (outputReceipts txoutStealthKey rootKey w.stealthAddresses.toList txoutB)) w
      have hr := ih (hg.isLocked.trans hl)
      rw [hg.addresses] at hr
      exact hr

theorem foldl_findInner (sx : CStealthAddress) (hash : Hash256) (num : Nat) (l : List CTxOut) (s : Int × KeyWallet) :
    (l.foldl (findInner env sx rootKey hash num txoutStealthKey) s).2 =
      (l.filterMap (innerReceipt env sx rootKey hash num txoutStealthKey)).foldl (Receipt.run env) s.2 := by
  have ho : ∀ (s : Int × KeyWallet) (o : CTxOut), (findInner env sx rootKey hash num txoutStealthKey s o).2 =
      (innerReceipt env sx rootKey hash num txoutStealthKey o).elim s.2 (Receipt.run env s.2) := by
    intro s o
    unfold findInner innerReceipt
    split_ifs
    · rfl
    rcases extractDestination env.toEnigmaEnv o.scriptPubKey with _ | id | id
    · rfl
    · rcases hi : stealthIndex env sx rootKey hash num (.keyID id) with _ | i
      · simp [hi]
      simp only [hi, map_some, elim_some, Receipt.run]
      split
      · rename_i heq
        rw [heq]
      · rename_i heq
        rw [heq]
    · rfl
  induction l generalizing s with
  | nil => rfl
  | cons o l ih =>
    rw [foldl_cons, ih, ho, filterMap_cons]
    cases innerReceipt env sx rootKey hash num txoutStealthKey o <;> rfl

theorem foldl_findOuter (addresses : AddressSet) (vout l : List CTxOut) (s : Int × KeyWallet) :
    (l.foldl (findOuter env addresses rootKey vout txoutStealthKey) s).2 =
      (l.flatMap (outerReceipts env addresses rootKey vout txoutStealthKey)).foldl (Receipt.run env) s.2 := by
  have ho : ∀ (s : Int × KeyWallet) (o : CTxOut), (findOuter env addresses rootKey vout txoutStealthKey s o).2 =
      (outerReceipts env addresses rootKey vout txoutStealthKey o).foldl (Receipt.run env) s.2 := by
    intro s o
    unfold findOuter outerReceipts
    split_ifs
    · rfl
    rcases extractDestination env.toEnigmaEnv o.scriptPubKey with _ | id | id
    · rfl
    · rcases hm : matchedAddress env addresses rootKey (.keyID id) with _ | ⟨sx, hash⟩
      · simp [hm]
      · simp only [hm]
        exact foldl_findInner sx hash vout.length vout s
    · rfl
  induction l generalizing s with
  | nil => rfl
  | cons o l ih => rw [foldl_cons, ih, ho, flatMap_cons, foldl_append]

end

theorem KeyWallet.scan_locked {env : StealthEnv} {w : KeyWallet} (hl : w.isLocked = true) (tx : CTransaction) :
    w.scan env tx = (scanReceipts env w.stealthAddresses tx.vout).foldl (Receipt.run env) w := by
  unfold scanReceipts
  rcases hk : stealthReturn tx.vout with _ | ⟨key, rootKey⟩
  · rw [KeyWallet.scan, findStealthTransactions, hk]
    rfl
  have hg := Receipt.foldl_run_grown env (takeUntil (Receipt.found env)
    (tx.vout.flatMap (outputReceipts key rootKey w.stealthAddresses.toList))) w
  rw [scan_eq hk, findStealthOutput_locked tx.vout hl, hg.addresses, foldl_findOuter, ← foldl_append]

/-! ## Locked wallets -/

namespace Receipt

variable {env : StealthEnv}

variable (env) in
theorem mapKeys_foldl_run {w : KeyWallet} (hl : w.isLocked = true) (calls : List Receipt) :
    (calls.foldl (run env) w).mapKeys = w.mapKeys := by
  induction calls using List.reverseRecOn with
  | nil => rfl
  | append_singleton calls c ih =>
    have hl' := (foldl_run_grown env calls w).isLocked.trans hl
    have hc : (calls.foldl (run env) w).fUseCrypto = true := ((Bool.and_eq_true _ _).mp hl').1
    simp only [foldl_append, foldl_cons, foldl_nil, run_locked hl']
    split
    · exact ih
    · rw [receiveLocked, KeyWallet.addCryptedKey_eq hc]
      exact ih

variable (env) in
theorem foldl_run_locked {w : KeyWallet} (hl : w.isLocked = true) (calls : List Receipt) (id : CKeyID) :
    (∃ c ∈ calls, ∃ pk, c.pubKey env = some pk ∧ env.pubKeyID pk = id ∧
        (calls.foldl (run env) w).mapCryptedKeys[id]? = some (pk, []) ∧
        (calls.foldl (run env) w).mapStealthKeyMeta[id]? = some ⟨c.vchEphemPK, c.sx.scanPubkey⟩) ∨
      (∀ c ∈ calls, c.keyID env ≠ some id) ∧
        (calls.foldl (run env) w).mapCryptedKeys[id]? = w.mapCryptedKeys[id]? := by
  induction calls using List.reverseRecOn with
  | nil => exact .inr ⟨fun c hc => absurd hc not_mem_nil, rfl⟩
  | append_singleton calls c ih =>
    have hl' := (foldl_run_grown env calls w).isLocked.trans hl
    have hc : (calls.foldl (run env) w).fUseCrypto = true := ((Bool.and_eq_true _ _).mp hl').1
    simp only [foldl_append, foldl_cons, foldl_nil, run_locked hl']
    cases hpk : c.pubKey env with
    | none =>
      rcases ih with ⟨c', hc', h⟩ | ⟨hn, hs⟩
      · exact .inl ⟨c', mem_append_left _ hc', h⟩
      refine .inr ⟨?_, hs⟩
      intro c' hc'
      rcases mem_append.mp hc' with hc' | hc'
      · exact hn c' hc'
      · rw [mem_singleton.mp hc', keyID, hpk]
        simp
    | some pk =>
      have heq : ((calls.foldl (run env) w).addCryptedKey env pk []).2 = _ := KeyWallet.addCryptedKey_eq hc pk []
      by_cases hid : env.pubKeyID pk = id
      · refine .inl ⟨c, mem_append_right _ mem_cons_self, pk, hpk, hid, ?_, ?_⟩
        · simp [receiveLocked, heq, hid]
        · simp [receiveLocked, hid]
      have hcr : (receiveLocked env c.sx pk c.vchEphemPK (calls.foldl (run env) w)).mapCryptedKeys[id]? =
          (calls.foldl (run env) w).mapCryptedKeys[id]? := by
        simp only [receiveLocked, heq]
        exact getElem?_insert_ne _ (Ne.symm hid) _
      have hm : (receiveLocked env c.sx pk c.vchEphemPK (calls.foldl (run env) w)).mapStealthKeyMeta[id]? =
          (calls.foldl (run env) w).mapStealthKeyMeta[id]? := by
        simp only [receiveLocked, heq]
        exact getElem?_insert_ne _ (Ne.symm hid) _
      rw [hcr, hm]
      rcases ih with ⟨c', hc', h⟩ | ⟨hn, hs⟩
      · exact .inl ⟨c', mem_append_left _ hc', h⟩
      refine .inr ⟨?_, hs⟩
      intro c' hc'
      rcases mem_append.mp hc' with hc' | hc'
      · exact hn c' hc'
      · rw [mem_singleton.mp hc', keyID, hpk]
        simpa using hid

end Receipt

/-! ## Unlocked wallets -/

def KeyWallet.HasSecretOf (env : StealthEnv) (w : KeyWallet) (vchPubKey : Bytes) : Prop :=
  (∃ (id : CKeyID) (secret : CSecret) (fCompressed : Bool), w.mapKeys[id]? = some (secret, fCompressed) ∧
    vchPubKey = pubKeyOf env secret fCompressed) ∨
    ∃ (id : CKeyID) (vchCryptedSecret : Bytes),
      w.mapCryptedKeys[id]? = some (vchPubKey, vchCryptedSecret) ∧ vchCryptedSecret ≠ []

/-- Keys are stored under their identifiers, encrypted as recorded. -/
structure KeyWallet.StoreSound (env : StealthEnv) (w : KeyWallet) : Prop where
  plain : ∀ (id : CKeyID) (secret : CSecret) (fCompressed : Bool), w.mapKeys[id]? = some (secret, fCompressed) →
    id = env.pubKeyID (pubKeyOf env secret fCompressed) ∧ ofBytes secret.val < env.curve.order
  crypted : ∀ (id : CKeyID) (vchPubKey vchCryptedSecret : Bytes),
    w.mapCryptedKeys[id]? = some (vchPubKey, vchCryptedSecret) →
    vchCryptedSecret ≠ [] → id = env.pubKeyID vchPubKey ∧ ∃ (secret : CSecret) (fCompressed : Bool),
      ofBytes secret.val < env.curve.order ∧ vchPubKey = pubKeyOf env secret fCompressed ∧
      vchCryptedSecret = env.aes.encrypt w.vMasterKey (env.hash vchPubKey) secret

/-- No key found has the identifier of another key. -/
def KeyWallet.IdsDistinct (env : StealthEnv) (w : KeyWallet) (vout : List CTxOut) : Prop :=
  ∀ txoutStealthKey rootKey, stealthReturn vout = some (txoutStealthKey, rootKey) →
    ∀ sx txoutB vchEphemPK isEnigmaAddress,
      ScanCall env w.stealthAddresses vout txoutStealthKey rootKey sx txoutB vchEphemPK isEnigmaAddress →
      ∀ sShared pk, stealthMatch env sx txoutB vchEphemPK = some (sShared, pk) →
        ∀ vchPubKey, w.HasSecretOf env vchPubKey →
          env.pubKeyID vchPubKey = env.pubKeyID (pubKeyOf env (oneTimeSecret env sx sShared) true) →
          vchPubKey = pubKeyOf env (oneTimeSecret env sx sShared) true

/-- No known secret is lost. -/
structure KeysKept (w w' : KeyWallet) : Prop where
  plain : ∀ (id : CKeyID) (key : CSecret × Bool), w.mapKeys[id]? = some key → w'.mapKeys[id]? = some key
  crypted : ∀ (id : CKeyID) (vchCryptedSecret : Bytes), (w.mapCryptedKeys[id]?).map Prod.snd = some vchCryptedSecret →
    vchCryptedSecret ≠ [] → (w'.mapCryptedKeys[id]?).map Prod.snd = some vchCryptedSecret

section
variable {env : StealthEnv}

theorem KeysKept.refl (w : KeyWallet) : KeysKept w w := ⟨fun _ _ h => h, fun _ _ h _ => h⟩

theorem secret_unique (hg : addOrderOf env.curve.gen = env.curve.order) {a b : CSecret}
    (ha : ofBytes a.val < env.curve.order) (hb : ofBytes b.val < env.curve.order)
    (h : pubKeyOf env a.val fCompressed = pubKeyOf env b.val true) : a = b ∧ fCompressed = true := by
  unfold pubKeyOf at h
  cases fCompressed with
  | false =>
    have hl := congrArg List.length h
    simp [env.curve.length_expand, env.curve.length_compress] at hl
  | true =>
    have hp : ofBytes a.val • env.curve.gen = ofBytes b.val • env.curve.gen :=
      env.curve.compress_injective (by simpa [Curve.point] using h)
    have heq : ofBytes a.val = ofBytes b.val := by
      rw [← hg] at ha hb
      exact nsmul_injOn_Iio_addOrderOf ha hb hp
    exact ⟨Subtype.ext (ofBytes_injective (a.2.trans b.2.symm) heq), rfl⟩

theorem ofBytes_oneTimeSecret_lt (sx : CStealthAddress) (sShared : Bytes) :
    ofBytes (oneTimeSecret env sx sShared).val < env.curve.order := by
  have hlt := Nat.mod_lt (ofBytes sx.spendSecret + ofBytes sShared) env.curve.order_pos
  show ofBytes (toBytes 32 _) < _
  rw [ofBytes_toBytes (hlt.trans_le env.curve.order_le)]
  exact hlt

theorem KeysKept.addKey (hg : addOrderOf env.curve.gen = env.curve.order) (hso : w.StoreSound env) {secret : CSecret}
    (hs : ofBytes secret.val < env.curve.order) (hd : ∀ vchPubKey, w.HasSecretOf env vchPubKey →
      env.pubKeyID vchPubKey = env.pubKeyID (pubKeyOf env secret true) → vchPubKey = pubKeyOf env secret true)
    (hm : w'.vMasterKey = w.vMasterKey) (h : KeysKept w w') : KeysKept w (w'.addKey env secret true).2 := by
  unfold KeyWallet.addKey
  dsimp only
  split_ifs with hp hl
  · refine ⟨?_, h.crypted⟩
    rintro id ⟨old, fCompressed⟩ hk
    by_cases hid : id = env.pubKeyID (pubKeyOf env secret true)
    · obtain ⟨hi, hold⟩ := hso.plain id old fCompressed hk
      have hsa := hd _ (.inl ⟨id, old, fCompressed, hk, rfl⟩) (hi.symm.trans hid)
      obtain ⟨rfl, rfl⟩ := secret_unique hg hold hs hsa
      rw [hid, ExtTreeMap.getElem?_insert_self]
    · rw [getElem?_insert_ne _ hid]
      exact h.plain id (old, fCompressed) hk
  · exact h
  have hc : w'.fUseCrypto = true := by simpa [KeyWallet.isCrypted] using hp
  split
  · exact h
  rename_i vchCryptedSecret he
  have hen : vchCryptedSecret = env.aes.encrypt w.vMasterKey (env.hash (pubKeyOf env secret true)) secret := by
    unfold encryptSecret at he
    split_ifs at he
    rw [← Option.some.inj he, hm]
  rw [KeyWallet.addCryptedKey_eq hc]
  refine ⟨h.plain, ?_⟩
  intro id old hold hne
  by_cases hid : id = env.pubKeyID (pubKeyOf env secret true)
  · obtain ⟨⟨vchPubKey, _⟩, hent, rfl⟩ := map_eq_some_iff.mp hold
    obtain ⟨hi, oldSecret, fCompressed, hlt, hpk, hcr⟩ := hso.crypted id vchPubKey _ hent hne
    have hsa := hd vchPubKey (.inr ⟨id, _, hent, hne⟩) (hi.symm.trans hid)
    obtain ⟨rfl, rfl⟩ := secret_unique hg hlt hs (hpk.symm.trans hsa)
    rw [hid, ExtTreeMap.getElem?_insert_self, hen, map_some]
    rw [hcr, hpk]
  · rw [getElem?_insert_ne _ hid]
    exact h.crypted id old hold hne

theorem KeysKept.scan (hg : addOrderOf env.curve.gen = env.curve.order) (ho : w.isLocked = false)
    (hs : w.StoreSound env) (hd : w.IdsDistinct env tx.vout) : KeysKept w (w.scan env tx) := by
  have hr : KeysKept w (w.scan env tx) ∧ Grown (fun _ => True) w (w.scan env tx) := by
    refine KeyWallet.scan_rule (I := fun w' => KeysKept w w' ∧ Grown (fun _ => True) w w')
      (fun _ h => h.2.addresses) ?_ ⟨.refl w, .refl w⟩
    intro key rootKey hk sx txoutB vchEphemPK isEnigmaAddress w' hc hw'
    refine ⟨?_, hw'.2.trans (Receipt.run_grown env w' ⟨sx, key, txoutB, vchEphemPK, isEnigmaAddress⟩)⟩
    have ho' : w'.isLocked = false := hw'.2.isLocked.trans ho
    unfold findStealthTransactionForOutput
    split
    · exact hw'.1
    rename_i sShared pk hm
    rw [ho', if_neg Bool.false_ne_true]
    split_ifs
    · exact hw'.1
    have ha := hw'.1.addKey hg hs (ofBytes_oneTimeSecret_lt sx sShared)
      (hd key rootKey hk sx txoutB vchEphemPK isEnigmaAddress hc sShared pk hm) hw'.2.master
    split
    · rename_i heq
      rw [heq] at ha
      exact ha
    · rename_i heq
      rw [heq] at ha
      exact ha
  exact hr.1

/-! ## All wallets -/

/-- **Which scans keep all keys**: a locked wallet must not have the secret of a key that the transaction pays. -/
theorem scan_keeps_keys_iff (env : StealthEnv) (hgen : addOrderOf env.curve.gen = env.curve.order) (w : KeyWallet)
    (tx : CTransaction) (hsound : w.isLocked = false → w.StoreSound env)
    (hdistinct : w.isLocked = false → w.IdsDistinct env tx.vout) : KeysKept w (w.scan env tx) ↔
      (w.isLocked = true → ∀ c ∈ scanReceipts env w.stealthAddresses tx.vout, ∀ id, c.keyID env = some id →
        ∀ vchCryptedSecret, (w.mapCryptedKeys[id]?).map Prod.snd = some vchCryptedSecret → vchCryptedSecret = []) := by
  cases hl : w.isLocked with
  | false =>
    have hk : KeysKept w (w.scan env tx) := .scan hgen hl (hsound hl) (hdistinct hl)
    exact ⟨fun _ h => absurd h Bool.false_ne_true, fun _ => hk⟩
  | true =>
    rw [KeyWallet.scan_locked hl]
    have hca := Receipt.foldl_run_locked env hl (scanReceipts env w.stealthAddresses tx.vout)
    constructor
    · intro hk _ c hc id hid old hold
      by_contra hne
      have ha := hk.crypted id old hold hne
      rcases hca id with ⟨_, -, pk, -, -, he, -⟩ | ⟨hn, -⟩
      · rw [he] at ha
        exact hne (Option.some.inj ha).symm
      · exact hn c hc hid
    · intro hem
      refine ⟨?_, ?_⟩
      · intro id key hkey
        rw [Receipt.mapKeys_foldl_run env hl]
        exact hkey
      · intro id old hold hne
        rcases hca id with ⟨c, hc, pk, hpk, hid, -, -⟩ | ⟨-, hs⟩
        · have hki : c.keyID env = some id := by rw [Receipt.keyID, hpk, map_some, hid]
          exact absurd (hem rfl c hc id hki old hold) hne
        · rw [hs]
          exact hold

end

/-! ### A wallet that has the key of the payment -/

theorem Sample.addOrderOf_gen : addOrderOf Sample.curve.gen = Sample.curve.order := by
  have hd : ∀ n : Nat, addOrderOf Sample.curve.gen ∣ n ↔ 256 ^ 32 ∣ n := by
    intro n
    rw [addOrderOf_dvd_iff_nsmul_eq_zero, Nat.dvd_iff_mod_eq_zero]
    show n • Scalar.ofNat 1 = Scalar.ofNat 0 ↔ _
    rw [Scalar.nsmul_ofNat_one, Scalar.ext_iff]
    exact Iff.rfl
  exact Nat.dvd_antisymm ((hd _).mpr (dvd_refl _)) ((hd _).mp (dvd_refl _))

theorem Sample.plainWallet_sound (hk : k < 256 ^ 32) : (Sample.plainWallet k).StoreSound (Sample.env []) := by
  constructor
  · intro id secret fCompressed h
    have hm : (Sample.plainWallet k).mapKeys = (∅ : KeyMap (CSecret × Bool)).insert
        (pubKeyOf (Sample.env []) (Sample.secret k) true) (Sample.secret k, true) := rfl
    rw [hm, ExtTreeMap.getElem?_insert] at h
    split_ifs at h with hid
    · obtain ⟨hs, hf⟩ := Prod.mk.inj (Option.some.inj h)
      rw [← hs, ← hf]
      refine ⟨(Std.LawfulEqCmp.eq_of_compare hid).symm, ?_⟩
      have hv : ofBytes (Sample.secret k).val = k := ofBytes_toBytes hk
      rw [hv]
      exact hk
    · simp at h
  · intro id vchPubKey vchCryptedSecret h
    have hm : (Sample.plainWallet k).mapCryptedKeys = ∅ := rfl
    rw [hm] at h
    simp at h

/-- The key 19 is paid again. -/
theorem scan_keeps_keys_plain : (Sample.plainWallet 19).haveKey (Sample.compress (.ofNat 19)) = true ∧
      KeysKept (Sample.plainWallet 19) ((Sample.plainWallet 19).scan (Sample.env []) Sample.payment) := by
  refine ⟨by decide +kernel, ?_⟩
  refine (scan_keeps_keys_iff (Sample.env []) Sample.addOrderOf_gen (Sample.plainWallet 19) Sample.payment
    (fun _ => Sample.plainWallet_sound (by norm_num)) ?_).mpr ?_
  · intro _ _ _ _ _ _ _ _ _ _ _ _ vchPubKey _ h
    exact h
  · exact fun h => absurd h Bool.false_ne_true

/-- **A payment to a key that a locked wallet has destroys it**: the entry of the key 19 loses its secret. -/
theorem locked_scan_loses_key : (Sample.lockedWallet 19).isLocked = true ∧
      ¬KeysKept (Sample.lockedWallet 19) ((Sample.lockedWallet 19).scan (Sample.env []) Sample.payment) := by
  refine ⟨by decide +kernel, fun h => ?_⟩
  have hb : (((Sample.lockedWallet 19).mapCryptedKeys[Sample.compress (.ofNat 19)]?).map Prod.snd).elim 0
      List.length = 32 + 33 + 32 + 1 := by decide +kernel
  have ha : (((Sample.lockedWallet 19).scan (Sample.env []) Sample.payment).mapCryptedKeys[Sample.compress
      (.ofNat 19)]?).map Prod.snd = some [] := by decide +kernel
  rcases hold : ((Sample.lockedWallet 19).mapCryptedKeys[Sample.compress (.ofNat 19)]?).map Prod.snd with _ | old
  · rw [hold] at hb
    cases hb
  rw [hold] at hb
  have hne : old ≠ [] := by
    rintro rfl
    cases hb
  have hk := h.crypted _ old hold hne
  rw [ha] at hk
  exact hne (Option.some.inj hk).symm

end CloakCoin.Stealth
