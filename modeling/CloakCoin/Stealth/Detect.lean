import CloakCoin.Enigma.Groups
import CloakCoin.Stealth.Sample
import CloakCoin.Stealth.Scan

/-!
# Who finds the outputs of a joint transaction

The wallet of the owner derives as many indices as the transaction has outputs, and derives nothing when these are
more than 60.
-/

namespace CloakCoin.Stealth

open Chain Lib Enigma List
open Std (ExtTreeMap)
open Stealth.Sample (address)

variable {sx : CStealthAddress} {r : CCloakingRequest} {tx : CTransaction} {recipients : List (Nat × Int)}
  {groups : List (List CTxOut)}

/-! ## The owners' wallets -/

/-- A wallet, and the address in it that is paid. -/
structure Owner where
  wallet : KeyWallet
  address : CStealthAddress

/-- The unlocked wallet of the payee, with the address paid to. -/
structure Owner.Holds (env : StealthEnv) (rootKey : Bytes) (p : Payee) (owner : Owner) : Prop where
  unlocked : owner.wallet.Unlocked
  secrets : owner.wallet.SecretsMatch env
  mem : owner.address ∈ owner.wallet.stealthAddresses
  spendable : owner.address.Spendable env
  encoded : owner.address.encoded env = p.1
  hash : p.2 = owner.address.getEnigmaAddressPrivateHash env ∨ p.2 = rootHash rootKey
  distinct : FirstDistinct env owner.wallet.stealthAddresses rootKey

/-- The output's key is new and the output is no plain stealth payment. -/
structure Owner.Fresh (env : StealthEnv) (rootKey : Bytes) (o : CTxOut) (owner : Owner) : Prop where
  unknown : ∀ id, extractDestination env.toEnigmaEnv o.scriptPubKey = some (.keyID id) → owner.wallet.haveKey id = false
  plain : ∀ sx ∈ owner.wallet.stealthAddresses, sx.isOwned = true → stealthMatch env sx o rootKey = none

/-- The wallet of a payee has the output's key after the scan. -/
def Recognised (env : StealthEnv) (rootKey : Bytes) (payees : List Payee) (owner : Payee → Owner) (tx : CTransaction)
    (o : CTxOut) : Prop :=
  ∃ p ∈ payees, ∃ i, o.scriptPubKey = scriptForKeyID (payeeKey env.toEnigmaEnv rootKey p i) ∧
    ((owner p).wallet.scan env tx).haveKey (payeeKey env.toEnigmaEnv rootKey p i) = true

section
variable {env : StealthEnv} {vout : List CTxOut} {o : CTxOut}

theorem stealthMatch_congr {sx : CStealthAddress} {o' : CTxOut} {rootKey : Bytes}
    (h : extractDestination env.toEnigmaEnv o.scriptPubKey = extractDestination env.toEnigmaEnv o'.scriptPubKey) :
    stealthMatch env sx o rootKey = stealthMatch env sx o' rootKey := by
  rw [stealthMatch, stealthMatch, h]

section
variable (h : JointGroups env.toEnigmaEnv (rootHash r.stealthRootKey) recipients r tx vout groups)
  (hroot : r.stealthRootKey.length = 33)
include h hroot

theorem stealthReturn_joint :
    stealthReturn tx.vout = some (⟨minTxoutAmount, stealthNonceScript r.stealthRootKey⟩, r.stealthRootKey) := by
  have hn : vout.findSome? (fun txout => (ephemPKOf txout.scriptPubKey).map fun key => (txout, key)) = none := by
    refine findSome?_eq_none_iff.mpr fun o ho => ?_
    obtain ⟨id, hid⟩ := h.script ho
    rw [hid, ephemPKOf_scriptForKeyID, Option.map_none]
  rw [stealthReturn, h.vout_eq, findSome?_append, hn, Option.none_or, findSome?_cons]
  simp [ephemPKOf_stealthNonceScript hroot]

theorem recognised_of_length_le {owner : Payee → Owner}
    (how : ∀ p ∈ r.payees env.toEnigmaEnv (rootHash r.stealthRootKey) recipients,
      (owner p).Holds env r.stealthRootKey p) (hn : tx.vout.length ≤ 60) {o' : CTxOut} (ho : o ∈ vout) (ho' : o' ∈ vout)
    (hsa : o'.scriptPubKey = o.scriptPubKey) (hv : o'.nValue ≠ 0) :
    Recognised env r.stealthRootKey (r.payees env.toEnigmaEnv (rootHash r.stealthRootKey) recipients) owner tx o := by
  obtain ⟨p, hp, group, hsu, hl, hm, hpa⟩ := h.exists_group ho
  obtain ⟨i, hi, hs⟩ := hpa.mem hm
  obtain ⟨first, hf, hs0⟩ := hpa.first
  have hh := how p hp
  have hin : ∀ x ∈ vout, x ∈ tx.vout := fun x hx => by
    rw [h.vout_eq]
    exact mem_append_left _ hx
  have hd : ∀ (x : CTxOut) (j : Nat), x.scriptPubKey = scriptForKeyID (payeeKey env.toEnigmaEnv r.stealthRootKey p j) →
      extractDestination env.toEnigmaEnv x.scriptPubKey =
        some (.keyID (env.enigmaKey ((owner p).address.encoded env) r.stealthRootKey p.2 j)) := by
    intro x j hx
    rw [hx, extractDestination_scriptForKeyID, hh.encoded]
    rfl
  have hlt : i < tx.vout.length := by
    rw [h.vout_eq, length_append]
    omega
  refine ⟨p, hp, i, hs, ?_⟩
  have hk := haveKey_scan (stealthReturn_joint h hroot) hn hh.unlocked hh.distinct hh.mem
    hh.spendable hh.hash (hin first (hsu hf)) (h.ne_nonce hroot (hsu hf)) (hd first 0 hs0)
    (hin o' ho') (h.ne_nonce hroot ho') hv hlt (hd o' i (hsa.trans hs))
  rw [hh.encoded] at hk
  exact hk

theorem of_haveKey_scan {p : Payee} {owner : Owner} (how : owner.Holds env r.stealthRootKey p)
    {id : CKeyID} (hid : o.scriptPubKey = scriptForKeyID id) (hf : owner.Fresh env r.stealthRootKey o)
    (hh : (owner.wallet.scan env tx).haveKey id = true) :
    tx.vout.length ≤ 60 ∧ ∃ o' ∈ vout, o'.scriptPubKey = o.scriptPubKey ∧ o'.nValue ≠ 0 := by
  have hd : extractDestination env.toEnigmaEnv o.scriptPubKey = some (.keyID id) := by
    rw [hid, extractDestination_scriptForKeyID]
  have hfo := (scan_grown env tx fun _ => how.secrets).added hh (hf.unknown id hd)
  obtain ⟨key, rootKey, hr, sx, hsx, ho, o', ho', hd', hpa⟩ := hfo
  rw [stealthReturn_joint h hroot] at hr
  cases hr
  rcases hpa with hp | ⟨hne, hv, hn, -⟩
  · rw [stealthMatch_congr (hd'.trans hd.symm), hf.plain sx hsx ho] at hp
    cases hp
  have hm : o' ∈ vout := by
    rw [h.vout_eq] at ho'
    rcases mem_append.mp ho' with ho' | ho'
    · exact ho'
    · exact absurd (mem_singleton.mp ho') hne
  obtain ⟨id', hi'⟩ := h.script hm
  rw [hi', extractDestination_scriptForKeyID] at hd'
  cases hd'
  exact ⟨hn, o', hm, hi'.trans hid.symm, hv⟩

theorem unrecognised_of_length_lt {p : Payee} {owner : Owner} (ho : owner.Holds env r.stealthRootKey p) {id : CKeyID}
    (hid : o.scriptPubKey = scriptForKeyID id) (hf : owner.Fresh env r.stealthRootKey o) (hl : 60 < tx.vout.length) :
    (owner.wallet.scan env tx).haveKey id = false := by
  rw [← Bool.not_eq_true]
  intro hh
  have := (of_haveKey_scan h hroot ho hid hf hh).1
  omega

end

end

/-- Every output of the joint transaction, but the one with the root key, is recognised by the wallet of its
owner exactly if there are at most 60 outputs and every key paid gets more than nothing. -/
theorem joint_outputs_recognised_iff (env : StealthEnv) (ctx : EnigmaCtx) (s s' : EnigmaWallet)
    (r r' : CCloakingRequest) (ok : Bool)
      (hmade : createTransactionAndRequestSign env.toEnigmaEnv ctx s r = (ok, s', r'))
    (inOuts : CCloakingInputsOutputs) (hmine : s.mapCloakingInputsOutputs[r.getIdHash env.toEnigmaEnv]? = some inOuts)
    (recipients : List (Nat × Int)) (rng : Draws) (hrec : inOuts.vout =
      recipientOutputs env.toEnigmaEnv r.stealthRootKey (rootHash r.stealthRootKey) recipients rng)
    (hroot : r.stealthRootKey.length = 33) (hold : r.rawtx = some []) (tx : CTransaction) (hnew : r'.rawtx = some [tx])
    (owner : Payee → Owner) (hown : ∀ p ∈ r.payees env.toEnigmaEnv (rootHash r.stealthRootKey) recipients,
      (owner p).Holds env r.stealthRootKey p ∧ ∀ o ∈ tx.vout.dropLast, (owner p).Fresh env r.stealthRootKey o) :
    (∀ o ∈ tx.vout.dropLast, Recognised env r.stealthRootKey
      (r.payees env.toEnigmaEnv (rootHash r.stealthRootKey) recipients) owner tx o) ↔ tx.vout.length ≤ 60 ∧
      ∀ o ∈ tx.vout.dropLast, ∃ o' ∈ tx.vout.dropLast, o'.scriptPubKey = o.scriptPubKey ∧ o'.nValue ≠ 0 := by
  obtain ⟨vout, groups, h⟩ := createTransactionAndRequestSign_groups hmade hmine hrec hold hnew
  have hl : tx.vout.dropLast = vout := by rw [h.vout_eq, dropLast_concat]
  rw [hl] at hown ⊢
  constructor
  · intro hall
    have hone : ∀ o ∈ vout, tx.vout.length ≤ 60 ∧ ∃ o' ∈ vout, o'.scriptPubKey = o.scriptPubKey ∧ o'.nValue ≠ 0 := by
      intro o ho
      obtain ⟨p, hp, i, hs, hh⟩ := hall o ho
      exact of_haveKey_scan h hroot (hown p hp).1 hs ((hown p hp).2 o ho) hh
    obtain ⟨o, ho⟩ := exists_mem_of_ne_nil vout h.vout_ne_nil
    exact ⟨(hone o ho).1, fun o ho => (hone o ho).2⟩
  · rintro ⟨hnum, hv⟩ o ho
    obtain ⟨o', ho', hsa, hne⟩ := hv o ho
    exact recognised_of_length_le h hroot (fun p hp => (hown p hp).1) hnum ho ho' hsa hne

/-! ### A send of 2 coins with participants of 10 coins each -/

def Owner.single (sx : CStealthAddress) : Owner := ⟨{ stealthAddresses := AddressSet.empty.insert sx }, sx⟩

section
variable {env : StealthEnv} {rootKey : Bytes}

theorem Owner.eq_of_mem_single {sx' : CStealthAddress} (h : sx' ∈ (single sx).wallet.stealthAddresses) : sx' = sx :=
  mem_singleton.mp h

theorem Owner.single_holds (hsx : sx.Spendable env) {hash : Hash256}
    (hh : hash = sx.getEnigmaAddressPrivateHash env ∨ hash = rootHash rootKey)
    (hne : env.enigmaKey (sx.encoded env) rootKey (sx.getEnigmaAddressPrivateHash env) 0 ≠
      env.enigmaKey (sx.encoded env) rootKey (rootHash rootKey) 0) :
    (single sx).Holds env rootKey (sx.encoded env, hash) := by
  refine ⟨(fun h => nomatch h), ?_, mem_singleton_self _, hsx, rfl, hh, ?_⟩
  · intro sx' hs' _ _
    rw [eq_of_mem_single hs']
    exact hsx.clear
  · intro sx1 hs1 sx2 hs2 _ _ hash1 hash2 hh1 hh2 hk
    rw [eq_of_mem_single hs1] at hh1 hk ⊢
    rw [eq_of_mem_single hs2] at hh2 hk ⊢
    refine ⟨rfl, ?_⟩
    rcases hh1 with rfl | rfl <;> rcases hh2 with rfl | rfl
    · rfl
    · exact absurd hk hne
    · exact absurd hk.symm hne
    · rfl

theorem Owner.single_fresh {o : CTxOut} (ho : stealthMatch env sx o rootKey = none) :
    (single sx).Fresh env rootKey o := by
  refine ⟨fun _ _ => ?_, fun sx' hs' _ => ?_⟩
  · simp [single, KeyWallet.haveKey, KeyWallet.isCrypted]
  · rw [eq_of_mem_single hs']
    exact ho

end

theorem spendable_newStealthAddress (env : StealthEnv) (label : String) (scanSecret spendSecret : CSecret) :
    (KeyWallet.newStealthAddress env label scanSecret spendSecret).Spendable env :=
  ⟨scanSecret.2, rfl, spendSecret.2, rfl⟩

noncomputable abbrev jointEnv : StealthEnv := Stealth.Sample.env []

def jointRoot : Bytes := Stealth.Sample.compress (.ofNat 7)

noncomputable def jointParticipant (k : Nat) : CCloakingParticipant :=
  { pubKey := k + 2, stealthAddress := (address (2 * k + 7) 8).encoded jointEnv
    inOuts := { vin := [{ prevout := ⟨1, k + 1⟩ }], nInputAmount := 10 * coin
                stealthHash := (address (2 * k + 7) 8).getEnigmaAddressPrivateHash jointEnv } }

variable (n : Nat)

noncomputable def jointRequest : CCloakingRequest :=
  { Enigma.Sample.sendRequest with
    nParticipantsRequired := n, sParticipants := (range n).map jointParticipant, stealthRootKey := jointRoot
    senderAddress := ⟨(address 3 4).encoded jointEnv, true⟩ }

noncomputable def jointRecipients : List (Nat × Int) := [((address 5 6).encoded jointEnv, 2 * coin)]

variable (rng : Draws)

noncomputable def jointInOuts : CCloakingInputsOutputs :=
  { Enigma.Sample.sendInOuts with
    vout := recipientOutputs jointEnv.toEnigmaEnv jointRoot (rootHash jointRoot) jointRecipients rng }

noncomputable def jointSender : EnigmaWallet :=
  Enigma.Sample.wallet ⟨∅, [], fun _ => [], 0⟩ [(jointRequest n, jointInOuts rng)]

def jointCtx : EnigmaCtx := { Enigma.Sample.ctx with rng := rng }

noncomputable def jointMade : Bool × EnigmaWallet × CCloakingRequest :=
  createTransactionAndRequestSign jointEnv.toEnigmaEnv (jointCtx rng) (jointSender n rng) (jointRequest n)

theorem jointMade_eq :
    createTransactionAndRequestSign jointEnv.toEnigmaEnv (jointCtx rng) (jointSender n rng) (jointRequest n) =
      ((jointMade n rng).1, (jointMade n rng).2.1, (jointMade n rng).2.2) := rfl

noncomputable def jointTx : CTransaction :=
  ((jointMade n rng).2.2.rawtx.bind head?).getD { nTime := 0, vin := [], vout := [] }

theorem jointTx_eq {n : Nat} {rng : Draws} (h : (jointTx n rng).vout.length ≠ 0) :
    (jointMade n rng).2.2.rawtx = some [jointTx n rng] := by
  obtain hold | ⟨tx, htx⟩ := rawtx_createTransactionAndRequestSign (jointMade_eq n rng)
  · have hn : jointTx n rng = { nTime := 0, vin := [], vout := [] } := by rw [jointTx, hold]; rfl
    rw [hn] at h
    exact absurd rfl h
  · rw [jointTx, htx]
    rfl

/-- The owners of the payees of a request with one participant. -/
noncomputable def jointOwners (p : Payee) : Owner :=
  if p.1 = (address 3 4).encoded jointEnv then Owner.single (address 3 4)
  else if p.1 = (address 5 6).encoded jointEnv then Owner.single (address 5 6)
  else Owner.single (address 7 8)

def draws : Draws := fun _ => 1000001

theorem jointRequest_payees : (jointRequest 1).payees jointEnv.toEnigmaEnv (rootHash jointRoot) jointRecipients =
      [((address 3 4).encoded jointEnv, (address 3 4).getEnigmaAddressPrivateHash jointEnv),
        ((address 5 6).encoded jointEnv, rootHash jointRoot),
        ((address 7 8).encoded jointEnv,
          (address 7 8).getEnigmaAddressPrivateHash jointEnv)] := by
  decide +kernel

theorem joint_outputs_recognised_eleven : (jointTx 1 draws).vout.length = 11 ∧
      ∀ o ∈ (jointTx 1 draws).vout.dropLast, Recognised jointEnv jointRoot
        ((jointRequest 1).payees jointEnv.toEnigmaEnv (rootHash jointRoot) jointRecipients) jointOwners
        (jointTx 1 draws) o := by
  have hlen : (jointTx 1 draws).vout.length = 11 := by decide +kernel
  have hpl : ∀ o ∈ (jointTx 1 draws).vout.dropLast, stealthMatch jointEnv (address 3 4) o jointRoot = none ∧
      stealthMatch jointEnv (address 5 6) o jointRoot = none ∧
      stealthMatch jointEnv (address 7 8) o jointRoot = none := by decide +kernel
  have hown : ∀ p ∈ (jointRequest 1).payees jointEnv.toEnigmaEnv (rootHash jointRoot) jointRecipients,
      (jointOwners p).Holds jointEnv jointRoot p ∧
        ∀ o ∈ (jointTx 1 draws).vout.dropLast, (jointOwners p).Fresh jointEnv jointRoot o := by
    intro p hp
    rw [jointRequest_payees] at hp
    simp only [mem_cons, not_mem_nil, or_false] at hp
    have h56 : (address 5 6).encoded jointEnv ≠ (address 3 4).encoded jointEnv := by
      decide +kernel
    have h78 : (address 7 8).encoded jointEnv ≠ (address 3 4).encoded jointEnv ∧
        (address 7 8).encoded jointEnv ≠ (address 5 6).encoded jointEnv := by
      decide +kernel
    rcases hp with rfl | rfl | rfl
    · rw [jointOwners, if_pos rfl]
      exact ⟨Owner.single_holds (spendable_newStealthAddress _ _ _ _) (.inl rfl) (by decide +kernel),
        fun o ho => Owner.single_fresh (hpl o ho).1⟩
    · rw [jointOwners, if_neg h56, if_pos rfl]
      exact ⟨Owner.single_holds (spendable_newStealthAddress _ _ _ _) (.inr rfl) (by decide +kernel),
        fun o ho => Owner.single_fresh (hpl o ho).2.1⟩
    · rw [jointOwners, if_neg h78.1, if_neg h78.2]
      exact ⟨Owner.single_holds (spendable_newStealthAddress _ _ _ _) (.inl rfl) (by decide +kernel),
        fun o ho => Owner.single_fresh (hpl o ho).2.2⟩
  have hm : (jointSender 1 draws).mapCloakingInputsOutputs[(jointRequest 1).getIdHash jointEnv.toEnigmaEnv]? =
      some (jointInOuts draws) := by decide +kernel
  have hnew := jointTx_eq (hlen.trans_ne (by decide))
  have hv : ∀ o ∈ (jointTx 1 draws).vout.dropLast, ∃ o' ∈ (jointTx 1 draws).vout.dropLast,
      o'.scriptPubKey = o.scriptPubKey ∧ o'.nValue ≠ 0 := by decide +kernel
  have hiff := joint_outputs_recognised_iff jointEnv (jointCtx draws) (jointSender 1 draws) (jointMade 1 draws).2.1
    (jointRequest 1) (jointMade 1 draws).2.2 (jointMade 1 draws).1 (jointMade_eq 1 draws) (jointInOuts draws) hm
    jointRecipients draws rfl (by decide +kernel) rfl (jointTx 1 draws) hnew jointOwners hown
  exact ⟨hlen, hiff.mpr ⟨hlen.le.trans (by decide), hv⟩⟩

noncomputable def jointChange : Payee :=
  ((address 3 4).encoded jointEnv, (address 3 4).getEnigmaAddressPrivateHash jointEnv)

/-- **With 14 participants the sender does not recognise its change.** The transaction has 63 outputs; the wallet is
not encrypted and holds all secrets. -/
theorem joint_outputs_unrecognised :
    (jointRequest 14).sParticipants.length = 14 ∧ (jointMade 14 draws).2.2.rawtx = some [jointTx 14 draws] ∧
    jointChange ∈ (jointRequest 14).payees jointEnv.toEnigmaEnv (rootHash jointRoot) jointRecipients ∧
    (Owner.single (address 3 4)).Holds jointEnv jointRoot jointChange ∧ ∃ o ∈ (jointTx 14 draws).vout.dropLast,
      o.scriptPubKey = scriptForKeyID (payeeKey jointEnv.toEnigmaEnv jointRoot jointChange 0) ∧
      ((Owner.single (address 3 4)).wallet.scan jointEnv (jointTx 14 draws)).haveKey
        (payeeKey jointEnv.toEnigmaEnv jointRoot jointChange 0) = false := by
  have hh : (Owner.single (address 3 4)).Holds jointEnv jointRoot jointChange :=
    Owner.single_holds (spendable_newStealthAddress _ _ _ _) (.inl rfl) (by decide +kernel)
  have hm : (jointSender 14 draws).mapCloakingInputsOutputs[(jointRequest 14).getIdHash jointEnv.toEnigmaEnv]? =
      some (jointInOuts draws) := by decide +kernel
  have hpa : 60 < (jointTx 14 draws).vout.length ∧ ∃ o ∈ (jointTx 14 draws).vout.dropLast,
      o.scriptPubKey = scriptForKeyID (payeeKey jointEnv.toEnigmaEnv jointRoot jointChange 0) ∧
      stealthMatch jointEnv (address 3 4) o jointRoot = none := by
    decide +kernel
  obtain ⟨hlen, o, ho, hid, hp⟩ := hpa
  have hnew := jointTx_eq (Nat.ne_of_gt (Nat.zero_lt_of_lt hlen))
  have hrec : (jointInOuts draws).vout = recipientOutputs jointEnv.toEnigmaEnv (jointRequest 14).stealthRootKey
      (rootHash (jointRequest 14).stealthRootKey) jointRecipients draws := rfl
  obtain ⟨vout, groups, h⟩ := createTransactionAndRequestSign_groups (jointMade_eq 14 draws) hm hrec rfl hnew
  have hnot := unrecognised_of_length_lt h (by decide +kernel) hh hid (Owner.single_fresh hp) hlen
  exact ⟨by decide +kernel, hnew, by decide +kernel, hh, o, ho, hid, hnot⟩

end CloakCoin.Stealth
