import CloakCoin.Enigma.Sender

/-!
# Who has signed when the sender signs

`SignAndRespond(myKey, false)` is called as soon as `nParticipantsRequired` addresses are counted in
`signedByAddresses`. The addresses are what the sign responses say of themselves, so that this is
everyone only as long as the responses counted come from participants (`FromParticipant`).
-/

namespace CloakCoin.Enigma

open Chain Lib
open Std (ExtTreeMap)
open List

variable {s s' : EnigmaWallet} {tx tx₁ : CTransaction} {received : List CCloakingSignResponse}
  {y : CTransaction × Bool}

def CCloakingRequest.pubKeys (r : CCloakingRequest) : Finset PubKeyHex :=
  (r.sParticipants.map CCloakingParticipant.pubKey).toFinset

theorem CCloakingRequest.card_pubKeys_le (r : CCloakingRequest) : r.pubKeys.card ≤ r.sParticipants.length := by
  simpa [pubKeys] using toFinset_card_le (r.sParticipants.map CCloakingParticipant.pubKey)

/-! ## What the handlers do to a request -/

section
variable {env : EnigmaEnv} {ctx : EnigmaCtx} {id : Hash256}

variable (env) in
theorem insertParticipant_eq_or_perm (p : CCloakingParticipant) (l : List CCloakingParticipant) :
    insertParticipant env p l = l ∨ (insertParticipant env p l).Perm (p :: l) := by
  induction l with
  | nil => exact .inr (.refl _)
  | cons a rest ih =>
    rw [insertParticipant]
    split_ifs
    · exact .inr (.refl _)
    · exact .inl rfl
    · rcases ih with ih | ih
      · exact .inl (by rw [ih])
      · exact .inr ((ih.cons a).trans (.swap p a rest))

theorem subset_insertParticipant (p : CCloakingParticipant) (l : List CCloakingParticipant) :
    l ⊆ insertParticipant env p l := by
  rcases insertParticipant_eq_or_perm env p l with h | h
  · rw [h]
    exact List.Subset.refl l
  · exact List.Subset.trans (subset_cons_self p l) h.symm.subset

variable (env) in
theorem length_insertParticipant_le (p : CCloakingParticipant) (l : List CCloakingParticipant) :
    (insertParticipant env p l).length ≤ l.length + 1 := by
  rcases insertParticipant_eq_or_perm env p l with h | h
  · rw [h]
    exact Nat.le_succ _
  · exact h.length_eq.le

structure Resigned (tx tx' : CTransaction) : Prop where
  rest : tx' = { tx with vin := tx'.vin }
  prevouts : tx'.vin.map CTxIn.prevout = tx.vin.map CTxIn.prevout

namespace Resigned

theorem refl (tx : CTransaction) : Resigned tx tx := ⟨rfl, rfl⟩

theorem trans (h1 : Resigned tx tx₁) (h2 : Resigned tx₁ tx₂) : Resigned tx tx₂ :=
  ⟨by rw [h2.rest, h1.rest], h2.prevouts.trans h1.prevouts⟩

theorem vout (h : Resigned tx tx₁) : tx₁.vout = tx.vout := by rw [h.rest]

theorem setScriptSig (tx : CTransaction) (i : Nat) (sig : CScript) : Resigned tx (setScriptSig tx i sig) := by
  refine ⟨rfl, ext_getElem? fun j => ?_⟩
  simp only [Enigma.setScriptSig, getElem?_map, getElem?_modify]
  cases tx.vin[j]? with
  | none => rfl
  | some txin =>
    by_cases hij : i = j
    · simp [hij]
    · simp [hij]

theorem length_vin (h : Resigned tx tx₁) : tx₁.vin.length = tx.vin.length := by
  simpa using congrArg List.length h.prevouts

theorem getElem? (h : Resigned tx tx₁) {i : Nat} (hi : tx.vin[i]? = some txin) :
    ∃ txin1, tx₁.vin[i]? = some txin1 ∧ txin1.prevout = txin.prevout := by
  have hm := congrArg (fun l : List COutPoint => l[i]?) h.prevouts
  simp only [getElem?_map, hi, Option.map_some] at hm
  exact Option.map_eq_some_iff.mp hm

end Resigned

theorem signInput_resigned {prev : List CScript} {i : Nat}
    (h : signInput env ours prev x i = some y) : Resigned x.1 y.1 := by
  obtain ⟨tx, c⟩ := x
  rw [signInput] at h
  split at h
  · split at h
    · split at h
      · cases h
      · cases h
        exact (Resigned.setScriptSig _ _ _).trans (.setScriptSig _ _ _)
    · cases h
      exact .refl tx
  · cases h
    exact .refl tx

theorem signInputs_resigned {prev : List CScript} (h : signInputs env ours prev tx = some y) : Resigned tx y.1 := by
  suffices hfold : ∀ (is : List Nat) (x : CTransaction × Bool),
      is.foldlM (signInput env ours prev) x = some y → Resigned x.1 y.1 by
    exact hfold _ _ h
  intro is
  induction is with
  | nil =>
    intro x hx
    cases hx
    exact .refl y.1
  | cons i is ih =>
    intro x hx
    obtain ⟨z, hz, hx⟩ := Option.bind_eq_some_iff.mp hx
    exact (signInput_resigned hz).trans (ih z hx)

variable {r r' : CCloakingRequest}

theorem length_signedBySender (h : signedBySender env ctx s r = some y) :
    y.1.vin.length = r.jointVin.length ∧ ∃ tx rest, r.signedrawtx = some (tx :: rest) := by
  unfold signedBySender at h
  split at h
  · rename_i tx rest hr
    have hv : r.jointVin = tx.vin := by rw [CCloakingRequest.jointVin, hr]; rfl
    rw [hv]
    refine ⟨?_, tx, rest, hr⟩
    dsimp only at h
    split at h
    · cases h
    split at h
    · cases h
    split at h
    · cases h
      rfl
    · exact (signInputs_resigned h).length_vin
  · cases h

structure SignedLast (env : EnigmaEnv) (s s' : EnigmaWallet) (r r' : CCloakingRequest) : Prop where
  identifier : r'.identifier = r.identifier
  participants : r'.sParticipants = r.sParticipants
  required : r'.nParticipantsRequired = r.nParticipantsRequired
  created : r'.txCreated = r.txCreated
  signed : (r'.signedByAddresses = r.signedByAddresses ∧ r'.signedrawtx = r.signedrawtx) ∨
    (r'.signedByAddresses = insert env.myKey r.signedByAddresses ∧
      (∃ tx, r'.signedrawtx = some [tx] ∧ tx.vin.length = r.jointVin.length) ∧
      ∃ tx rest, r.signedrawtx = some (tx :: rest))
  ours : s'.mapOurCloakingRequests = s.mapOurCloakingRequests
  inOuts : s'.mapCloakingInputsOutputs = s.mapCloakingInputsOutputs

theorem SignedLast.refl (s : EnigmaWallet) (r : CCloakingRequest) : SignedLast env s s r r where
  identifier := rfl
  participants := rfl
  required := rfl
  created := rfl
  signed := .inl ⟨rfl, rfl⟩
  ours := rfl
  inOuts := rfl

theorem signAndRespondSender_spec
    (h : signAndRespondSender env ctx s r = (ok, s', r', calls)) : SignedLast env s s' r r' := by
  unfold signAndRespondSender at h
  split at h
  · cases h
    exact .refl s r
  split at h
  · cases h
    exact .refl s r
  split at h
  · cases h
    exact .refl s r
  rename_i tx fComplete htx
  obtain ⟨hl, hr⟩ := length_signedBySender htx
  split_ifs at h <;> cases h <;>
    exact ⟨rfl, rfl, rfl, rfl, .inr ⟨rfl, ⟨tx, rfl, hl⟩, hr⟩, rfl, rfl⟩

/-! ## The invariant of a request -/

def Received (received : List CCloakingSignResponse) (id : Hash256) (a : PubKeyHex) (k : Nat) : Prop :=
  ∃ sr ∈ received, sr.identifier = id ∧ sr.signingAddress = a ∧ sr.signatures.length = k

theorem Received.mono (h : Received received id a k) (hs : received ⊆ received') : Received received' id a k := by
  obtain ⟨sr, hsr, hr⟩ := h
  exact ⟨sr, hs hsr, hr⟩

structure QuorumInv (received : List CCloakingSignResponse) (id : Hash256) (r : CCloakingRequest) : Prop where
  few : r.sParticipants = [] ∨ (r.sParticipants.length : Int) ≤ r.nParticipantsRequired
  created : r.txCreated = false → r.signedrawtx = some []
  built : r.signedByAddresses.Nonempty → ∃ tx rest, r.signedrawtx = some (tx :: rest)
  /-- Only participants have signed, or all of them have and no other can join. -/
  signers : r.signedByAddresses ⊆ r.pubKeys ∨
    r.pubKeys ⊆ r.signedByAddresses ∧ r.nParticipantsRequired ≤ r.sParticipants.length
  got : ∀ a ∈ r.signedByAddresses, a ∈ r.pubKeys → Received received id a r.jointVin.length

namespace QuorumInv

variable {id : Hash256} {r : CCloakingRequest}

theorem mono (h : QuorumInv received id r) (hs : received ⊆ received') : QuorumInv received' id r :=
  { h with got := fun a ha hp => (h.got a ha hp).mono hs }

theorem all_signed (h : QuorumInv received id r) (hc : r.nParticipantsRequired ≤ (r.signedByAddresses.card : Int)) :
    r.pubKeys ⊆ r.signedByAddresses ∧ r.nParticipantsRequired ≤ r.sParticipants.length := by
  rcases h.signers with hs | ha
  · have hle := Finset.card_le_card hs
    have hp := r.card_pubKeys_le
    refine ⟨?_, by omega⟩
    rcases h.few with hn | hf
    · simp [CCloakingRequest.pubKeys, hn]
    · rw [Finset.eq_of_subset_of_card_le hs (by omega)]
  · exact ha

variable (env) in
theorem join (h : QuorumInv received id r) (p : CCloakingParticipant)
    (hr : (r.sParticipants.length : Int) < r.nParticipantsRequired) : QuorumInv received id (r.join env p) := by
  have hl := length_insertParticipant_le env p r.sParticipants
  have hs : r.signedByAddresses ⊆ r.pubKeys := by
    rcases h.signers with hsu | ⟨-, hf⟩
    · exact hsu
    · omega
  have hp : r.pubKeys ⊆ (r.join env p).pubKeys := by
    intro a ha
    simp only [CCloakingRequest.pubKeys, mem_toFinset, mem_map] at ha ⊢
    obtain ⟨q, hq, hqa⟩ := ha
    exact ⟨q, subset_insertParticipant p _ hq, hqa⟩
  exact
    { few := .inr (by dsimp only [CCloakingRequest.join]; omega)
      created := h.created
      built := h.built
      signers := .inl (hs.trans hp)
      got := fun a ha _ => h.got a ha (hs ha) }

theorem create (h : QuorumInv received id r) (hn : r.txCreated = false) (raw signed : RawTx) :
    QuorumInv received id { r with txCreated := true, rawtx := raw, signedrawtx := signed } := by
  have he : r.signedByAddresses = ∅ := by
    by_contra hne
    obtain ⟨tx, rest, htx⟩ := h.built (Finset.nonempty_iff_ne_empty.mpr hne)
    rw [h.created hn] at htx
    cases htx
  exact
    { few := h.few
      created := fun hf => by cases hf
      built := fun hne => by simp [he] at hne
      signers := .inl (by simp [he])
      got := fun a ha => by simp [he] at ha }

theorem merge (h : QuorumInv received id r) (hid : sr.identifier = id) (hfr : sr.signatures.length = r.jointVin.length →
      sr.signingAddress ∈ r.pubKeys ∧ ∃ tx rest, r.signedrawtx = some (tx :: rest)) :
    QuorumInv (sr :: received) id (addSignedInputsToTx r sr).2 := by
  have hm := h.mono (subset_cons_self sr received)
  unfold addSignedInputsToTx
  dsimp only
  split
  · exact hm
  rename_i hl
  have hl : sr.signatures.length = r.jointVin.length := not_not.mp hl
  obtain ⟨hmem, tx, rest, htx⟩ := hfr hl
  have hc : r.txCreated = true := by
    by_contra hn
    rw [h.created (by simpa using hn)] at htx
    cases htx
  have hme : (List.zipWith mergeSignature (RawTx.tx r.signedrawtx).vin sr.signatures).length = r.jointVin.length := by
    rw [length_zipWith, hl, CCloakingRequest.jointVin, min_self]
  have hs : insert sr.signingAddress r.signedByAddresses ⊆ r.pubKeys ∨
      r.pubKeys ⊆ insert sr.signingAddress r.signedByAddresses ∧
        r.nParticipantsRequired ≤ r.sParticipants.length := by
    rcases h.signers with hsu | ⟨hal, hfu⟩
    · exact .inl (Finset.insert_subset hmem hsu)
    · exact .inr ⟨hal.trans (Finset.subset_insert _ _), hfu⟩
  have hg : ∀ a ∈ insert sr.signingAddress r.signedByAddresses, a ∈ r.pubKeys →
      Received (sr :: received) id a r.jointVin.length := by
    intro a ha hp
    rcases Finset.mem_insert.mp ha with rfl | ha
    · exact ⟨sr, mem_cons_self, hid, rfl, hl⟩
    · exact hm.got a ha hp
  split
  · exact ⟨h.few, fun hf => absurd hf (by simp [hc]), fun _ => ⟨_, _, rfl⟩, hs,
      fun a ha hp => by
        have := hg a ha hp
        rwa [← hme] at this⟩
  · exact ⟨h.few, h.created, fun _ => ⟨tx, rest, htx⟩, hs, hg⟩

theorem signLast (h : QuorumInv received id r) (hl : SignedLast env s s' r r')
    (ha : r.pubKeys ⊆ r.signedByAddresses ∧ r.nParticipantsRequired ≤ r.sParticipants.length) :
    QuorumInv received id r' := by
  have hpu : r'.pubKeys = r.pubKeys := by rw [CCloakingRequest.pubKeys, hl.participants]; rfl
  have hfe : r'.sParticipants = [] ∨ (r'.sParticipants.length : Int) ≤ r'.nParticipantsRequired := by
    rw [hl.participants, hl.required]
    exact h.few
  have hf : r'.nParticipantsRequired ≤ r'.sParticipants.length := by
    rw [hl.participants, hl.required]
    exact ha.2
  rcases hl.signed with ⟨hby, hr⟩ | ⟨hby, ⟨tx, hr, hle⟩, tx0, rest, hold⟩
  · have hv : r'.jointVin = r.jointVin := by rw [CCloakingRequest.jointVin, hr]; rfl
    refine ⟨hfe, by rw [hl.created, hr]; exact h.created, by rw [hby, hr]; exact h.built,
      .inr ⟨by rw [hpu, hby]; exact ha.1, hf⟩, ?_⟩
    rw [hpu, hby, hv]
    exact h.got
  have hv : r'.jointVin.length = r.jointVin.length := by
    rw [CCloakingRequest.jointVin, hr, ← hle]
    rfl
  refine ⟨hfe, ?_, fun _ => ⟨tx, [], hr⟩, .inr ⟨?_, hf⟩, ?_⟩
  · rw [hl.created]
    intro hn
    rw [h.created hn] at hold
    cases hold
  · rw [hpu, hby]
    exact ha.1.trans (Finset.subset_insert _ _)
  · intro a _ hp
    rw [hpu] at hp
    rw [hv]
    exact h.got a (ha.1 hp) hp

end QuorumInv

/-! ## Runs -/

/-- Nobody has joined or signed. -/
structure FreshRequest (r : CCloakingRequest) : Prop where
  participants : r.sParticipants = []
  signedBy : r.signedByAddresses = ∅
  raw : r.signedrawtx = some []
  created : r.txCreated = false
  processed : r.processed = false

/-- Signatures come from participants, after the transaction was made. -/
def FromParticipant (s : EnigmaWallet) (sr : CCloakingSignResponse) : Prop :=
  ∀ r, s.mapOurCloakingRequests[sr.identifier]? = some r → sr.signatures.length = r.jointVin.length →
    sr.signingAddress ∈ r.pubKeys ∧ ∃ tx rest, r.signedrawtx = some (tx :: rest)

/-- The messages of the peers, in any order, with our own sends, retries and cancellations in between;
and the sign responses received so far. Whatever else happens to the wallet leaves our requests alone:
`ProcessRequest` and `HandleSignRequest` work on requests that are not ours. -/
inductive SenderRun (env : EnigmaEnv)
    (okSend : EnigmaWallet → CCloakingInputsOutputs → CCloakingRequest → Prop)
    (okSign : EnigmaWallet → CCloakingSignResponse → Prop) (s₀ : EnigmaWallet) :
    EnigmaWallet → List CCloakingSignResponse → Prop
  | init : SenderRun env okSend okSign s₀ s₀ []
  | accept {s : EnigmaWallet} {received : List CCloakingSignResponse}
      (run : SenderRun env okSend okSign s₀ s received) (ctx : EnigmaCtx) (ccar : CCloakingAcceptResponse) :
      SenderRun env okSend okSign s₀ (handleCloakingAccept env ctx s ccar).1 received
  | sign {s : EnigmaWallet} {received : List CCloakingSignResponse}
      (run : SenderRun env okSend okSign s₀ s received) (ctx : EnigmaCtx) (ccr : CCloakingSignResponse)
      (ok : okSign s ccr) : SenderRun env okSend okSign s₀ (handleSignResponse env ctx s ccr).1 (ccr :: received)
  | send {s : EnigmaWallet} {received : List CCloakingSignResponse}
      (run : SenderRun env okSend okSign s₀ s received) (io : CCloakingInputsOutputs) (cr : CCloakingRequest)
      (ok : okSend s io cr) : SenderRun env okSend okSign s₀ (sendEnigma env s io cr) received
  | retry {s : EnigmaWallet} {received : List CCloakingSignResponse}
      (run : SenderRun env okSend okSign s₀ s received) (now : Int) (transmit : Bool) (id : Hash256) :
      SenderRun env okSend okSign s₀ (retry env now transmit s id).2 received
  | cancel {s : EnigmaWallet} {received : List CCloakingSignResponse}
      (run : SenderRun env okSend okSign s₀ s received) (id : Hash256) :
      SenderRun env okSend okSign s₀ (cancelSend env s id) received
  | other {s s' : EnigmaWallet} {received : List CCloakingSignResponse}
      (run : SenderRun env okSend okSign s₀ s received)
      (ours : s'.mapOurCloakingRequests = s.mapOurCloakingRequests)
      (inOuts : ∀ id : Hash256, s.mapOurCloakingRequests[id]? ≠ none →
        s'.mapCloakingInputsOutputs[id]? = s.mapCloakingInputsOutputs[id]?) : SenderRun env okSend okSign s₀ s' received

def OursInv (received : List CCloakingSignResponse) (s : EnigmaWallet) : Prop :=
  ∀ id r, s.mapOurCloakingRequests[id]? = some r → QuorumInv received id r

theorem FreshRequest.quorumInv (h : FreshRequest r) : QuorumInv received id r where
  few := .inl h.participants
  created := fun _ => h.raw
  built := fun hne => by simp [h.signedBy] at hne
  signers := .inl (by simp [h.signedBy])
  got := fun a ha => by simp [h.signedBy] at ha

theorem OursInv.set {m : RequestMap} (h : ∀ id r, m[id]? = some r → QuorumInv received id r)
    (hr : QuorumInv received id r)
    (hs : s.mapOurCloakingRequests = m.insert id r) : OursInv received s := by
  intro id' r' hg
  rw [hs, ExtTreeMap.getElem?_insert] at hg
  split at hg
  · rename_i heq
    rw [compare_eq_iff_eq] at heq
    cases hg
    exact heq ▸ hr
  · exact h id' r' hg

theorem OursInv.handleCloakingAccept (h : OursInv received s) (ctx : EnigmaCtx) (ccar : CCloakingAcceptResponse) :
    OursInv received (handleCloakingAccept env ctx s ccar).1 := by
  obtain ⟨t, seen, calls, heq, hst⟩ := handleCloakingAccept_cases env ctx s ccar
  rw [heq]
  cases hst with
  | ignored => exact h
  | joined hr ha _ => exact OursInv.set h ((h _ _ hr).join env _ ha.room) rfl
  | @created r inOuts s' calls hr ha _ hn hs raw signed =>
    have hj := (h _ _ hr).join env { ccar.participantInfo with inOuts := inOuts } ha.room
    rcases hs with rfl | ⟨io, rfl⟩ <;> exact OursInv.set h (hj.create hn raw signed) rfl

def EveryoneSigned (received : List CCloakingSignResponse) (id : Hash256) (r : CCloakingRequest) : Prop :=
  ∀ p ∈ r.sParticipants, p.pubKey ∈ r.signedByAddresses ∧ Received received id p.pubKey r.jointVin.length

theorem QuorumInv.everyoneSigned (h : QuorumInv received id r)
    (ha : r.pubKeys ⊆ r.signedByAddresses) : EveryoneSigned received id r := by
  intro p hp
  have hpu : p.pubKey ∈ r.pubKeys := by simpa [CCloakingRequest.pubKeys] using ⟨p, hp, rfl⟩
  exact ⟨ha hpu, h.got _ (ha hpu) hpu⟩

theorem calls_signAndRespondSender (h : signAndRespondSender env ctx s r = (ok, s', r', calls))
    (r1 : CCloakingRequest) : Call.signAndRespond r1 ∉ calls := by
  unfold signAndRespondSender at h
  split_ifs at h
  · cases h
    simp
  · cases h
    simp
  split at h
  · cases h
    simp
  split_ifs at h <;> cases h <;> simp

section
variable (h : OursInv received s)
include h

theorem OursInv.handleSignResponse (ctx : EnigmaCtx) (hf : FromParticipant s ccr) :
    OursInv (ccr :: received) (handleSignResponse env ctx s ccr).1 ∧
      ∀ r, Call.signAndRespond r ∈ (handleSignResponse env ctx s ccr).2 →
        EveryoneSigned (ccr :: received) ccr.identifier r := by
  have hmo : OursInv (ccr :: received) s := fun id r hr => (h id r hr).mono (subset_cons_self _ _)
  obtain ⟨t, seen, calls, heq, hst⟩ := handleSignResponse_cases env ctx s ccr
  rw [heq]
  cases hst with
  | ignored => exact ⟨hmo, by simp⟩
  | merged hr _ => exact ⟨OursInv.set hmo ((h _ _ hr).merge rfl (hf _ hr)) rfl, by simp⟩
  | @signed r q r' s' ok calls hr _ hq hfu hl =>
    have hm := (h _ _ hr).merge rfl (hf r hr)
    rw [← hq] at hm
    have ha := hm.all_signed hfu
    have hs := signAndRespondSender_spec hl
    have hi := hm.signLast hs ha
    have hd : QuorumInv (ccr :: received) ccr.identifier { r' with processed := ok || r'.processed } :=
      ⟨hi.few, hi.created, hi.built, hi.signers, hi.got⟩
    refine ⟨OursInv.set (m := s'.mapOurCloakingRequests) ?_ hd rfl, ?_⟩
    · rw [hs.ours]
      exact OursInv.set hmo hm rfl
    · intro r1 hr1
      rcases mem_cons.mp hr1 with heq | hr1
      · cases heq
        exact hm.everyoneSigned ha.1
      · exact absurd hr1 (calls_signAndRespondSender hl r1)

theorem OursInv.sendEnigma (io : CCloakingInputsOutputs) (fresh : FreshRequest cr) :
    OursInv received (sendEnigma env s io cr) := by
  have hs : OursInv received (s.setOurRequest (cr.getIdHash env) cr) := OursInv.set h fresh.quorumInv rfl
  unfold Enigma.sendEnigma
  dsimp only
  split_ifs
  · exact h
  · exact h
  · exact hs
  · exact hs

theorem OursInv.retry (now : Int) (transmit : Bool) (id : Hash256) :
    OursInv received (retry env now transmit s id).2 := by
  unfold Enigma.retry
  split
  · rename_i inOuts req _ hre
    have hr : QuorumInv received ((req.retried now).getIdHash env) (req.retried now) :=
      { few := .inl rfl
        created := (h _ _ hre).created
        built := fun hne => by simp [CCloakingRequest.retried] at hne
        signers := .inl (by simp [CCloakingRequest.retried])
        got := fun a ha => by simp [CCloakingRequest.retried] at ha }
    have hs := OursInv.set (s := s.setOurRequest _ _) h hr rfl
    intro id' r' hg
    rw [ExtTreeMap.getElem?_erase] at hg
    split at hg
    · cases hg
    · exact hs id' r' hg
  · exact h

theorem OursInv.cancelSend (id : Hash256) : OursInv received (cancelSend env s id) := by
  unfold Enigma.cancelSend
  split
  · exact h
  rename_i r hr
  have hi := h _ _ hr
  have hm : (freeInputs s (r.getIdHash env)).mapOurCloakingRequests = s.mapOurCloakingRequests := by
    unfold freeInputs
    split <;> rfl
  have ha : QuorumInv received id { r with aborted := true } :=
    ⟨hi.few, hi.created, hi.built, hi.signers, hi.got⟩
  exact OursInv.set h ha (by rw [EnigmaWallet.setOurRequest, hm])

end

theorem SenderRun.oursInv (h0 : ∀ (id : Hash256) r, s0.mapOurCloakingRequests[id]? = some r → FreshRequest r)
    (hru : SenderRun env (fun _ _ cr => FreshRequest cr) FromParticipant s0 s received) : OursInv received s := by
  induction hru with
  | init => exact fun id r hr => (h0 id r hr).quorumInv
  | accept _ ctx ccar ih => exact ih.handleCloakingAccept ctx ccar
  | sign _ ctx ccr hok ih => exact (ih.handleSignResponse ctx hok).1
  | send _ io cr fresh ih => exact ih.sendEnigma io fresh
  | retry _ now transmit id ih => exact ih.retry now transmit id
  | cancel _ id ih => exact ih.cancelSend id
  | other _ ho _ ih => exact fun id r hr => ih id r (ho ▸ hr)

end

/-- **The sender finalises only when everyone has signed**, in every run in which the sign responses
that are counted come from participants, after the joint transaction was made. -/
theorem everyone_signed_when_sender_signs (env : EnigmaEnv) (s₀ s : EnigmaWallet)
    (received : List CCloakingSignResponse)
    (h₀ : ∀ (id : Hash256) r, s₀.mapOurCloakingRequests[id]? = some r → FreshRequest r)
    (hrun : SenderRun env (fun _ _ cr => FreshRequest cr) FromParticipant s₀ s received) (ctx : EnigmaCtx)
      (ccr : CCloakingSignResponse)
    (hccr : FromParticipant s ccr) (r : CCloakingRequest)
    (hcall : Call.signAndRespond r ∈ (handleSignResponse env ctx s ccr).2) :
    ∀ p ∈ r.sParticipants, p.pubKey ∈ r.signedByAddresses ∧
      ∃ sr ∈ ccr :: received, sr.identifier = ccr.identifier ∧ sr.signingAddress = p.pubKey ∧
        sr.signatures.length = r.jointVin.length :=
  ((hrun.oursInv h₀).handleSignResponse ctx hccr).2 r hcall

namespace Sample

theorem sender_fresh (id : Hash256) (r : CCloakingRequest) (h : sender.mapOurCloakingRequests[id]? = some r) :
    FreshRequest r := by
  simp only [sender, wallet, foldl_cons, foldl_nil, ExtTreeMap.getElem?_insert] at h
  split at h
  · cases h
    exact ⟨rfl, rfl, rfl, rfl, rfl⟩
  · simp at h

noncomputable def joined : EnigmaWallet := (handleCloakingAccept (env []) ctx sender offer).1

end Sample

open Sample in
theorem everyone_signed_when_sender_signs_joined :
    ∃ r, Call.signAndRespond r ∈ (handleSignResponse (env []) ctx joined ⟨2, 101, [[], [5]]⟩).2 ∧
      ∀ p ∈ r.sParticipants, p.pubKey ∈ r.signedByAddresses := by
  have hca : ((handleSignResponse (env []) ctx joined ⟨2, 101, [[], [5]]⟩).2.any
      fun | .signAndRespond _ => true | _ => false) = true := by decide
  obtain ⟨c, hc, hs⟩ := any_eq_true.mp hca
  have hf : FromParticipant joined ⟨2, 101, [[], [5]]⟩ := by
    intro r hr _
    have hall : ((joined.mapOurCloakingRequests[101]?).all fun r =>
      decide (2 ∈ r.pubKeys) && !(r.signedrawtx.getD []).isEmpty) = true := by decide
    rw [hr, Option.all_some, Bool.and_eq_true, decide_eq_true_eq] at hall
    refine ⟨hall.1, ?_⟩
    cases hraw : r.signedrawtx with
    | none => simp [hraw] at hall
    | some l => cases l <;> simp_all
  cases c with
  | signAndRespond r =>
    exact ⟨r, hc, fun p hp => (everyone_signed_when_sender_signs (env []) sender joined [] sender_fresh
      (.accept .init ctx offer) ctx _ hf r hc p hp).1⟩
  | createTransactionAndRequestSign r => cases hs
  | submit tx => cases hs

open Sample in
/-- A stranger's empty signatures are counted, and the sender signs although the participant has not. -/
theorem sender_signs_for_stranger :
    SenderRun (env []) (fun _ _ cr => FreshRequest cr) (fun _ _ => True) sender joined [] ∧
      ∃ r, Call.signAndRespond r ∈ (handleSignResponse (env []) ctx joined ⟨9, 101, [[], []]⟩).2 ∧
        ∃ p ∈ r.sParticipants, p.pubKey ∉ r.signedByAddresses := by
  have hca : ((handleSignResponse (env []) ctx joined ⟨9, 101, [[], []]⟩).2.any
      fun | .signAndRespond r => r.sParticipants.any fun p => decide (p.pubKey ∉ r.signedByAddresses)
          | _ => false) = true := by decide
  obtain ⟨c, hc, hs⟩ := any_eq_true.mp hca
  refine ⟨.accept .init ctx offer, ?_⟩
  cases c with
  | signAndRespond r =>
    obtain ⟨p, hp, hnot⟩ := any_eq_true.mp hs
    exact ⟨r, hc, p, hp, of_decide_eq_true hnot⟩
  | createTransactionAndRequestSign r => cases hs
  | submit tx => cases hs

end CloakCoin.Enigma
