import CloakCoin.Enigma.Complete
import CloakCoin.Lib.Lists

/-!
# Signing and submitting a completed send

Once the joint transaction is made, each sign response is merged into it; with the last one the sender
signs its own inputs and submits the transaction.
-/

namespace CloakCoin.Enigma

open Chain Lib
open Std (ExtTreeMap)

variable {s : EnigmaWallet} {id : Hash256}

/-! ## Signing the inputs -/

def HoldsKey (env : EnigmaEnv) (script : CScript) : Prop :=
  ∀ (tx : CTransaction) (i : Nat), ∃ sig, env.signSignature script (setScriptSig tx i []) i = some sig ∧
    env.verifyScript (env.combineSignatures script (setScriptSig tx i sig) i sig sig) script
      (setScriptSig (setScriptSig tx i sig) i (env.combineSignatures script (setScriptSig tx i sig) i sig sig)) i = true

structure CanSign (env : EnigmaEnv) (ctx : EnigmaCtx) (ours vin : List CTxIn) : Prop where
  fetch : ∀ txin ∈ vin, (fetchPrevOut ctx txin).isSome = true
  keys : ∀ txin ∈ vin, txin.prevout ∈ ours.map CTxIn.prevout → ∀ script,
    fetchPrevOut ctx txin = some script → HoldsKey env script

section
variable {env : EnigmaEnv} {ctx : EnigmaCtx} {tx : CTransaction} {io : CCloakingInputsOutputs}

theorem signInput_complete (hp : tx.vin.mapM (fetchPrevOut ctx) = some prev) (hc : CanSign env ctx ours tx.vin)
    (hre : Resigned tx tx1) (hi : i < tx.vin.length) :
    ∃ tx2, signInput env ours prev (tx1, true) i = some (tx2, true) ∧ Resigned tx tx2 := by
  obtain ⟨txin, ht⟩ : ∃ txin, tx.vin[i]? = some txin := ⟨_, List.getElem?_eq_getElem hi⟩
  obtain ⟨script, hs, hf⟩ := mapM_getElem? hp ht
  obtain ⟨txin1, ht1, hou⟩ := hre.getElem? ht
  simp only [signInput, ht1, hs]
  split
  · rename_i ho
    have hm : txin.prevout ∈ ours.map CTxIn.prevout := hou ▸ List.mem_map_of_mem ho
    obtain ⟨sig, hsi, hv⟩ := hc.keys txin (List.mem_of_getElem? ht) hm script hf tx1 i
    simp only [hsi, hv, Bool.and_true]
    exact ⟨_, rfl, (hre.trans (.setScriptSig _ _ _)).trans (.setScriptSig _ _ _)⟩
  · exact ⟨tx1, rfl, hre⟩

theorem signInputs_complete (hp : tx.vin.mapM (fetchPrevOut ctx) = some prev)
    (hc : CanSign env ctx ours tx.vin) : ∃ tx', signInputs env ours prev tx = some (tx', true) ∧ Resigned tx tx' := by
  suffices hfold : ∀ is : List Nat, (∀ i ∈ is, i < tx.vin.length) → ∀ tx1, Resigned tx tx1 →
      ∃ tx', is.foldlM (signInput env ours prev) (tx1, true) = some (tx', true) ∧ Resigned tx tx' from
    hfold _ (fun i hi => List.mem_range.mp hi) tx (.refl tx)
  intro is
  induction is with
  | nil => exact fun _ tx1 hre => ⟨tx1, rfl, hre⟩
  | cons i is ih =>
    intro his tx1 hre
    obtain ⟨tx2, hs, hr2⟩ := signInput_complete hp hc hre (his i List.mem_cons_self)
    obtain ⟨tx', hr, hr'⟩ := ih (fun j hj => his j (List.mem_cons_of_mem i hj)) tx2 hr2
    exact ⟨tx', by rw [List.foldlM_cons, hs]; exact hr, hr'⟩

/-! ## The sign responses -/

structure ValidSign (env : EnigmaEnv) (ctx : EnigmaCtx) (id : Hash256) (s : EnigmaWallet)
    (sr : CCloakingSignResponse) : Prop where
  request : sr.identifier = id
  fresh : ∀ sr' ∈ s.sSignResponses, sr'.identifier = id → sr'.signingAddress ≠ sr.signingAddress
  notUs : sr.signingAddress ≠ env.myKey
  valid : ∀ r io, s.mapOurCloakingRequests[id]? = some r → s.mapCloakingInputsOutputs[id]? = some io →
    sr.signingAddress ∉ r.signedByAddresses ∧ sr.signatures.length = r.jointVin.length ∧
    (∀ txin ∈ io.vin, txin ∈ r.jointVin → txin ∈ List.zipWith mergeSignature r.jointVin sr.signatures) ∧
    (r.nParticipantsRequired ≤ r.signedByAddresses.card + 1 →
      CanSign env ctx io.vin (List.zipWith mergeSignature r.jointVin sr.signatures))

def Signs (env : EnigmaEnv) (id : Hash256) (s : EnigmaWallet) (out : EnigmaWallet × List Call) : Prop :=
  ∃ ctx sr, ValidSign env ctx id s sr ∧ out = handleSignResponse env ctx s sr

def CCloakingRequest.signed (r : CCloakingRequest) (by' : Finset PubKeyHex) (tx : CTransaction) : CCloakingRequest :=
  { r with signedByAddresses := by', signedrawtx := some [tx] }

structure Signing (env : EnigmaEnv) (id : Hash256) (r : CCloakingRequest) (io : CCloakingInputsOutputs)
    (tx : CTransaction) (k : Nat) (s : EnigmaWallet) (by' : Finset PubKeyHex) (tx' : CTransaction) : Prop where
  entry : s.mapOurCloakingRequests[id]? = some (r.signed by' tx')
  inOuts : s.mapCloakingInputsOutputs[id]? = some io
  count : by'.card = k
  notUs : env.myKey ∉ by'
  resigned : Resigned tx tx'
  ours : io.vin ⊆ tx'.vin

theorem mergeSignature_prevout (txin : CTxIn) (sig : CScript) : (mergeSignature txin sig).prevout = txin.prevout := by
  unfold mergeSignature
  split <;> rfl

theorem map_prevout_zipWith_mergeSignature (h : sigs.length = vin.length) :
    (List.zipWith mergeSignature vin sigs).map CTxIn.prevout = vin.map CTxIn.prevout := by
  induction vin generalizing sigs with
  | nil => rfl
  | cons txin vin ih =>
    cases sigs with
    | nil => simp at h
    | cons sig sigs =>
      rw [List.zipWith_cons_cons, List.map_cons, List.map_cons, mergeSignature_prevout, ih (by simpa using h)]

theorem addSignedInputsToTx_signed (r : CCloakingRequest) (by' : Finset PubKeyHex)
    (h : sr.signatures.length = tx.vin.length) :
    addSignedInputsToTx (r.signed by' tx) sr = (true, r.signed (insert sr.signingAddress by')
      { tx with vin := List.zipWith mergeSignature tx.vin sr.signatures }) := by
  unfold addSignedInputsToTx
  simp only [CCloakingRequest.signed, RawTx.tx, ne_eq, h, not_true_eq_false, if_false]
  by_cases hv : List.zipWith mergeSignature tx.vin sr.signatures = tx.vin
  · simp [hv]
  · simp [hv]

variable {r : CCloakingRequest}

theorem signedBySender_complete (by' : Finset PubKeyHex) (hk : r.getIdHash env = id)
    (hio : s.mapCloakingInputsOutputs[id]? = some io) (ho : io.vin ⊆ tx.vin)
    (he : (getStealthEphemPK tx.vout).isSome = true) (hc : CanSign env ctx io.vin tx.vin) :
    ∃ tx', signedBySender env ctx s (r.signed by' tx) = some (tx', true) ∧ Resigned tx tx' := by
  obtain ⟨prev, hp⟩ := mapM_of_isSome hc.fetch
  obtain ⟨tx', hs, hre⟩ := signInputs_complete hp hc
  refine ⟨tx', ?_, hre⟩
  have hi' : s.mapCloakingInputsOutputs[(r.signed by' tx).getIdHash env]? = some io := by rw [← hio, ← hk]; rfl
  have hi : oursIncluded io tx = true := by
    simp only [oursIncluded, he, Bool.and_true, List.all_eq_true, decide_eq_true_eq]
    exact fun txin hin => ho hin
  rw [← hs]
  simp only [signedBySender, CCloakingRequest.signed] at hi' ⊢
  simp [hi', hi, hp]

theorem signAndRespondSender_complete (hk : r.getIdHash env = id) (he : s.mapOurCloakingRequests.contains id = true)
    (hn : env.myKey ∉ by') (hio : s.mapCloakingInputsOutputs[id]? = some io)
    (ho : io.vin ⊆ tx.vin) (hep : (getStealthEphemPK tx.vout).isSome = true) (hca : CanSign env ctx io.vin tx.vin) :
    ∃ tx', Resigned tx tx' ∧ (tx'.checkTransaction = true →
      Call.submit tx' ∈ (signAndRespondSender env ctx s (r.signed by' tx)).2.2.2) := by
  obtain ⟨tx', hs, hre⟩ := signedBySender_complete by' hk hio ho hep hca
  refine ⟨tx', hre, fun hc => ?_⟩
  have he' : s.mapOurCloakingRequests.contains ((r.signed by' tx).getIdHash env) = true := by
    rw [← he, ← hk]
    rfl
  simp only [signAndRespondSender, he', Bool.not_true, Bool.false_eq_true, if_false, hs]
  rw [if_neg (show env.myKey ∉ (r.signed by' tx).signedByAddresses from hn)]
  simp only [hc, Bool.not_true, Bool.false_eq_true, if_false]
  split_ifs <;> simp

def Submitted (env : EnigmaEnv) (id : Hash256) (tx : CTransaction) (calls : List Call) : Prop :=
  ∃ q tx', Call.signAndRespond q ∈ calls ∧ q.getIdHash env = id ∧ Resigned tx tx' ∧
    (tx'.checkTransaction = true → Call.submit tx' ∈ calls)

theorem Signing.sign (h : Signing env id r io tx k s by' tx')
    (hk : r.getIdHash env = id) (ho : r.aborted = false ∧ r.processed = false)
    (he : (getStealthEphemPK tx.vout).isSome = true) (hva : ValidSign env ctx id s sr) :
    ((k + 1 : Int) < r.nParticipantsRequired → (handleSignResponse env ctx s sr).2 = [] ∧
      ∃ by1 tx1, Signing env id r io tx (k + 1) (handleSignResponse env ctx s sr).1 by1 tx1) ∧
    ((k + 1 : Int) = r.nParticipantsRequired → Submitted env id tx (handleSignResponse env ctx s sr).2) := by
  obtain ⟨hid, hfr, hn, hv⟩ := hva
  subst hid
  obtain ⟨hnew, hlen, hou, hcan⟩ := hv _ _ h.entry h.inOuts
  have hne' : sr.signingAddress ∉ by' := hnew
  have hj : (r.signed by' tx').jointVin = tx'.vin := rfl
  rw [hj] at hlen hou hcan
  have hm := addSignedInputsToTx_signed r by' hlen
  set txm : CTransaction := { tx' with vin := List.zipWith mergeSignature tx'.vin sr.signatures } with ht
  have hre : Resigned tx txm := h.resigned.trans ⟨rfl, map_prevout_zipWith_mergeSignature hlen⟩
  have hin : io.vin ⊆ txm.vin := fun txin hin => hou txin hin (h.ours hin)
  have hca : (insert sr.signingAddress by').card = k + 1 := by
    rw [Finset.card_insert_of_notMem hne', h.count]
  have hn' : env.myKey ∉ insert sr.signingAddress by' := by
    simp only [Finset.mem_insert, not_or]
    exact ⟨hn.symm, h.notUs⟩
  have hse : (s.sSignResponses.any fun sr' =>
      sr'.identifier == sr.identifier && sr'.signingAddress == sr.signingAddress) = false := by
    rw [List.any_eq_false]
    intro sr' hs'
    simp only [Bool.and_eq_true, beq_iff_eq, not_and]
    exact hfr sr' hs'
  have hst : ¬(r.signed by' tx').aborted = true := by
    rw [show (r.signed by' tx').aborted = false from ho.1]
    simp
  have hd : RawTx.decodes (r.signed by' tx').signedrawtx = true := rfl
  simp only [handleSignResponse, hse, Bool.false_eq_true, if_false, processSignatureResponse, h.entry,
    if_neg hst, if_neg hnew, hd, hm]
  constructor
  · intro hmo
    have hfe : ¬(((r.signed (insert sr.signingAddress by') txm).signedByAddresses.card : Int) ≥
        (r.signed (insert sr.signingAddress by') txm).nParticipantsRequired ∧
        (r.signed (insert sr.signingAddress by') txm).processed = false) := fun hf => by
      have hle : (((insert sr.signingAddress by').card : Nat) : Int) ≥ r.nParticipantsRequired := hf.1
      omega
    rw [if_neg hfe]
    exact ⟨rfl, _, txm, ExtTreeMap.getElem?_insert_self, h.inOuts, hca, hn', hre, hin⟩
  · intro hl
    have hf : ((r.signed (insert sr.signingAddress by') txm).signedByAddresses.card : Int) ≥
        (r.signed (insert sr.signingAddress by') txm).nParticipantsRequired ∧
        (r.signed (insert sr.signingAddress by') txm).processed = false := by
      refine ⟨?_, ho.2⟩
      show (((insert sr.signingAddress by').card : Nat) : Int) ≥ r.nParticipantsRequired
      omega
    rw [if_pos hf]
    have he' : (getStealthEphemPK txm.vout).isSome = true := by rw [hre.vout]; exact he
    have hne : r.nParticipantsRequired ≤ ((r.signed by' tx').signedByAddresses.card : Int) + 1 := by
      show r.nParticipantsRequired ≤ (by'.card : Int) + 1
      rw [h.count]
      omega
    obtain ⟨txf, hr, hs⟩ := signAndRespondSender_complete
      (s := s.setOurRequest sr.identifier (r.signed (insert sr.signingAddress by') txm)) hk
      (by simp [EnigmaWallet.setOurRequest]) hn' h.inOuts hin he' (hcan hne)
    exact ⟨_, txf, List.mem_cons_self, hk, hre.trans hr,
      fun hc => List.mem_cons_of_mem _ (hs hc)⟩

theorem Arrive.submitted {n : Nat} {calls : List Call} {by0 : Finset PubKeyHex}
    (hst : Signing env id r io tx 0 s0 by0 tx) (hke : r.getIdHash env = id)
    (ho : r.aborted = false ∧ r.processed = false) (he : (getStealthEphemPK tx.vout).isSome = true)
    (hn : (n : Int) = r.nParticipantsRequired) (hp : 1 ≤ n) (h : Arrive id (Signs env id) s0 n s calls) :
    Submitted env id tx calls := by
  suffices hi : ∀ k, Arrive id (Signs env id) s0 k s calls →
      ((k : Int) < r.nParticipantsRequired → calls = [] ∧ ∃ by' tx', Signing env id r io tx k s by' tx') ∧
      (1 ≤ k → (k : Int) = r.nParticipantsRequired → Submitted env id tx calls) from
    (hi n h).2 hp hn
  intro k hk
  clear h
  induction hk with
  | nil => exact ⟨fun _ => ⟨rfl, by0, tx, hst⟩, fun h => absurd h (by omega)⟩
  | message _ ha ih =>
    obtain ⟨ctx, sr, hv, rfl⟩ := ha
    refine ⟨fun hlt => ?_, fun _ heq => ?_⟩
    · obtain ⟨hc, by', tx', hs⟩ := ih.1 (by omega)
      obtain ⟨hni, hs'⟩ := (hs.sign hke ho he hv).1 (by exact hlt)
      exact ⟨by rw [hc, hni]; rfl, hs'⟩
    · obtain ⟨hc, by', tx', hs⟩ := ih.1 (by omega)
      rw [hc, List.nil_append]
      exact (hs.sign hke ho he hv).2 (by exact heq)
  | other _ hsa ih =>
    refine ⟨fun hlt => ?_, ih.2⟩
    obtain ⟨hc, by', tx', hs⟩ := ih.1 hlt
    exact ⟨hc, by', tx', { hs with entry := hsa.1 ▸ hs.entry, inOuts := hsa.2 ▸ hs.inOuts }⟩

/-! ## After `Retry` -/

/-- The joint transaction is the one a new request for the send would lead to. -/
def CompletesLikeNew (env : EnigmaEnv) (sent : Send → CCloakingInputsOutputs → Prop) (id : Hash256)
    (retryCount : Nat) (now : Int) (s : EnigmaWallet) (calls : List Call) : Prop :=
  ∃ send io ps ctx r', sent send io ∧
    calls = [.createTransactionAndRequestSign
      (({ send.createForBroadcast env now with retryCount := retryCount } : CCloakingRequest).full ps)] ∧
    Built env id { send.createForBroadcast env now with retryCount := retryCount } io ps ctx r' s ∧
    ∀ tx rest, r'.signedrawtx = some (tx :: rest) →
      (∃ change fee, PaysOnce env ctx.rng
        (({ send.createForBroadcast env now with retryCount := retryCount } : CCloakingRequest).full ps)
        io tx change fee) ∧
      ∀ s' calls', Arrive id (Signs env id) s send.participantsRequired.toNat s' calls' → Submitted env id tx calls'

theorem PaysOnce.ephemPK (h : PaysOnce env rng q io tx change fee) (hl : q.stealthRootKey.length = 33) :
    (getStealthEphemPK tx.vout).isSome = true := by
  obtain ⟨groups, hp, -⟩ := h.outputs
  rw [getStealthEphemPK, List.findSome?_isSome_iff]
  refine ⟨_, hp.mem_iff.mpr (List.mem_append_right _ (List.mem_singleton_self _)), ?_⟩
  simp [ephemPKOf_stealthNonceScript hl]

theorem completesLikeNew_of_waiting (hse : sent send io)
    (hw : Waiting id { send.createForBroadcast env now with retryCount := retryCount } io 0 s0)
    (hk : (send.createForBroadcast env now).getIdHash env = id)
    (ha : Arrive id (Accepts env id) s0 send.participantsRequired.toNat s calls) :
    CompletesLikeNew env sent id retryCount now s calls := by
  have hpo := send.required_pos
  have hn : ((send.participantsRequired.toNat : Nat) : Int) = send.participantsRequired := by omega
  obtain ⟨ps, ctx, r', hc, hb⟩ := ha.built hw rfl hn (by omega)
  refine ⟨send, io, ps, ctx, r', hse, hc, hb, fun tx rest htx => ?_⟩
  obtain ⟨hr', ⟨change, fee, hp⟩, ho, io', hi', hv⟩ := hb.paysOnce hk hpo rfl htx
  have he := hp.ephemPK send.rootKey_length
  refine ⟨⟨change, fee, hp⟩, fun s' calls' hs => ?_⟩
  have hst : Signing env id r' io' tx 0 s ∅ tx :=
    { entry := by rw [hb.entry, hr']; rfl
      inOuts := hi'
      count := rfl
      notUs := by simp
      resigned := .refl tx
      ours := by rw [hv]; exact ho }
  refine hs.submitted hst (by rw [hr']; exact hk) (by rw [hr']; exact ⟨rfl, rfl⟩) he ?_ (by omega)
  rw [hr']
  exact hn

variable (env) in
theorem retry_entry (hr : s.mapOurCloakingRequests[id]? = some r) (hio : s.mapCloakingInputsOutputs[id]? = some io)
    (now : Int) (transmit : Bool) (hne : (r.retried now).getIdHash env ≠ id) :
    (retry env now transmit s id).2.mapOurCloakingRequests[(r.retried now).getIdHash env]? = some (r.retried now) ∧
    (retry env now transmit s id).2.mapCloakingInputsOutputs[(r.retried now).getIdHash env]? = some io := by
  have hc : ¬compare id ((r.retried now).getIdHash env) = .eq := by
    rw [compare_eq_iff_eq]
    exact hne.symm
  simp only [retry, hr, hio, EnigmaWallet.setOurRequest, EnigmaWallet.setInOuts, ExtTreeMap.getElem?_erase,
    if_neg hc, ExtTreeMap.getElem?_insert_self, and_self]

theorem retry_same_id (hr : s.mapOurCloakingRequests[id]? = some r) (hio : s.mapCloakingInputsOutputs[id]? = some io)
    (now : Int) (transmit : Bool) : (retry env now transmit s id).2.mapOurCloakingRequests[id]? = none := by
  simp [retry, hr, hio]

end

/-- **Which retried sends complete**: in every run whose sends are stored under unused ids, for every
request of ours, whatever it has received, the entry after `Retry` completes like a new one when its
accept responses arrive if and only if the first attempt had not made its joint transaction and the new
id differs from the old one. -/
theorem retry_completes_iff (env : EnigmaEnv) (sent : Send → CCloakingInputsOutputs → Prop) (s₀ s : EnigmaWallet)
    (received : List CCloakingSignResponse) (h₀ : ∀ id : Hash256, s₀.mapOurCloakingRequests[id]? = none)
    (hrun : SenderRun env (NewSend env sent) (fun _ _ => True) s₀ s received) (id : Hash256) (r : CCloakingRequest)
    (hr : s.mapOurCloakingRequests[id]? = some r) (now : Int) (transmit : Bool) (s' : EnigmaWallet) (calls : List Call)
    (harrive : Arrive ((r.retried now).getIdHash env) (Accepts env ((r.retried now).getIdHash env))
      (retry env now transmit s id).2 r.nParticipantsRequired.toNat s' calls) :
    CompletesLikeNew env sent ((r.retried now).getIdHash env) (r.retryCount + 1) now s' calls ↔
      r.txCreated = false ∧ (r.retried now).getIdHash env ≠ id := by
  have hinv := hrun.retriesInv h₀ id r hr
  obtain ⟨io, hio⟩ := Option.ne_none_iff_exists'.mp hinv.stored
  constructor
  · -- no joint transaction is made when one was made before, or when the entry is gone
    intro hc
    obtain ⟨send, io', ps, ctx, r', -, hca, -⟩ := hc
    by_contra hnot
    have hcr : ∀ q, (retry env now transmit s id).2.mapOurCloakingRequests[(r.retried now).getIdHash env]? =
        some q → q.txCreated = true := by
      intro q hq
      by_cases hid : (r.retried now).getIdHash env = id
      · rw [hid, retry_same_id hr hio] at hq
        cases hq
      · rw [(retry_entry env hr hio now transmit hid).1] at hq
        cases hq
        exact Bool.eq_true_of_not_eq_false fun hf => hnot ⟨hf, hid⟩
    rw [(harrive.not_created hcr).1] at hca
    cases hca
  · rintro ⟨hnot, hne⟩
    obtain ⟨send, io', hse, hs, hio'⟩ := hinv.same hnot
    rw [hio] at hio'
    cases hio'
    have hre : r.retried now = { send.createForBroadcast env now with retryCount := r.retryCount + 1 } := by
      rw [← show (r.retried now).stripped = send.createForBroadcast env now from hs.retried now]
      rfl
    obtain ⟨he, hi⟩ := retry_entry env hr hio now transmit hne
    have hn : r.nParticipantsRequired = send.participantsRequired := congrArg CCloakingRequest.nParticipantsRequired hs
    rw [hn] at harrive
    refine completesLikeNew_of_waiting hse ⟨[], rfl, ?_, hi⟩ (by rw [hre]; rfl) harrive
    rw [he, hre]
    rfl

/-! ### One retry before and one after the joint transaction was made -/

namespace Sample

def send : Send where
  participantsRequired := 1
  numSplits := 1
  timeoutSecs := 60
  sendAmount := 2000000
  stealthRootKey := List.replicate 33 3
  senderAddress := ⟨1, true⟩
  recipientAddress := none
  required_pos := le_refl 1
  rootKey_length := List.length_replicate

noncomputable def request : CCloakingRequest := send.createForBroadcast (env []) 1

def idle : EnigmaWallet := wallet ⟨∅, [], fun _ => [], 0⟩ []

noncomputable def sending : EnigmaWallet := sendEnigma (env []) idle sendInOuts request

theorem sending_run : SenderRun (env []) (NewSend (env []) fun p io => p = send ∧ io = sendInOuts) (fun _ _ => True)
    idle sending [] :=
  .send .init sendInOuts request ⟨send, 1, ⟨rfl, rfl⟩, rfl, by decide⟩

def offerFor (id : Hash256) : CCloakingAcceptResponse := { offer with requestIdentifier := id }

theorem validAccept_offerFor (hf : (env []).acceptHash (offerFor id) ∉ s.sCloakingAccepts)
    (hv : ((accepted (env []) ctx (offerFor id)).any fun p => (s.mapOurCloakingRequests[id]?).all fun r =>
      decide (r.recipientAddress ≠ some p.stealthAddress) &&
        r.sParticipants.all fun q => decide ((env []).participantHash p ≠ (env []).participantHash q)) = true) :
    ValidAccept (env []) ctx id s (offerFor id) := by
  refine ⟨rfl, hf, rfl, rfl, ?_⟩
  cases hp : accepted (env []) ctx (offerFor id) with
  | none =>
    rw [hp] at hv
    cases hv
  | some p =>
    refine ⟨p, rfl, fun r hr => ?_⟩
    rw [hp, Option.any_some, hr, Option.all_some, Bool.and_eq_true, decide_eq_true_eq, List.all_eq_true] at hv
    exact ⟨hv.1, fun q hq => of_decide_eq_true (hv.2 q hq)⟩

noncomputable def made : EnigmaWallet := (handleCloakingAccept (env []) ctx sending (offerFor 101)).1

end Sample

open Sample in
theorem retry_completes_before_joint :
    ∃ s calls, CompletesLikeNew (env []) (fun p io => p = send ∧ io = Sample.sendInOuts) 201 1 2 s calls ∧
      (s.mapOurCloakingRequests[(201 : Hash256)]?).any (fun r => decide (r.signedrawtx ≠ some [])) = true := by
  have hv : ValidAccept (env []) ctx 201 (retry (env []) 2 true sending 101).2 (offerFor 201) :=
    validAccept_offerFor (by decide) (by decide)
  exact ⟨_, _, (retry_completes_iff (env []) _ idle sending [] (fun _ => rfl) sending_run 101 request (by decide) 2 true
    _ _ (.message .nil ⟨ctx, offerFor 201, hv, rfl⟩)).mpr ⟨rfl, by decide⟩, by decide⟩

open Sample in
/-- The participant joins, the joint transaction is made, the sender retries: the participant joins the
new request, and nothing is made. -/
theorem retry_never_completes_after_joint :
    ∃ r s' calls, SenderRun (env []) (NewSend (env []) fun p io => p = send ∧ io = Sample.sendInOuts) (fun _ _ => True)
        idle made [] ∧ made.mapOurCloakingRequests[(101 : Hash256)]? = some r ∧
      (r.retried 2).getIdHash (env []) = 201 ∧
      Arrive 201 (Accepts (env []) 201) (retry (env []) 2 true made 101).2 r.nParticipantsRequired.toNat s' calls ∧
      calls = [] ∧
      ¬CompletesLikeNew (env []) (fun p io => p = send ∧ io = Sample.sendInOuts) 201 (r.retryCount + 1) 2 s' calls := by
  obtain ⟨r, hr⟩ := Option.isSome_iff_exists.mp
    (show (made.mapOurCloakingRequests[(101 : Hash256)]?).isSome = true by decide)
  have he : ((made.mapOurCloakingRequests[(101 : Hash256)]?).all fun r =>
      decide ((r.retried 2).getIdHash (env []) = 201) && decide (r.nParticipantsRequired.toNat = 1)) = true := by decide
  rw [hr, Option.all_some, Bool.and_eq_true, decide_eq_true_eq, decide_eq_true_eq] at he
  have hv : ValidAccept (env []) ctx 201 (retry (env []) 2 true made 101).2 (offerFor 201) :=
    validAccept_offerFor (by decide) (by decide)
  have hca : (handleCloakingAccept (env []) ctx (retry (env []) 2 true made 101).2 (offerFor 201)).2 = [] := by decide
  have ha : Arrive 201 (Accepts (env []) 201) (retry (env []) 2 true made 101).2 1 _ ([] ++ _) :=
    .message .nil ⟨ctx, offerFor 201, hv, rfl⟩
  rw [hca, List.append_nil] at ha
  refine ⟨r, _, [], sending_run.accept ctx (offerFor 101), hr, he.1, he.2 ▸ ha, rfl, ?_⟩
  rintro ⟨send, io, ps, ctx', r', -, hc, -⟩
  cases hc

end CloakCoin.Enigma
