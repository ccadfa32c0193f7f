import CloakCoin.Enigma.Quorum

/-!
# Retrying a send

`Retry` gives a request a new id and clears what the first attempt collected, but not `txCreated`,
`processed` and the raw transactions, nor the change that was appended to the stored outputs. As long
as the first attempt had not built its joint transaction the entry under the new id is the one
`CreateForBroadcast` would have made (`RetryInv`), and completes like it; otherwise it never builds one.
-/

namespace CloakCoin.Enigma

open Chain Lib
open Std (ExtTreeMap)
open Std.ExtTreeMap

variable {env : EnigmaEnv} {s : EnigmaWallet} {r : CCloakingRequest} {sent : Send → CCloakingInputsOutputs → Prop}

/-! ## The request before its joint transaction is built -/

/-- The request without what an attempt collects. -/
def CCloakingRequest.stripped (r : CCloakingRequest) : CCloakingRequest :=
  { r with
    signedByAddresses := ∅
    sParticipants := []
    aborted := false
    bBroadcasted := true
    nBroadcastedTime := r.identifier.nInitiatedTime
    retryCount := 0 }

def SameSend (env : EnigmaEnv) (send : Send) (r : CCloakingRequest) : Prop :=
  r.stripped = send.createForBroadcast env r.identifier.nInitiatedTime

theorem SameSend.retried (h : SameSend env send r) (now : Int) : SameSend env send (r.retried now) := by
  unfold SameSend at h ⊢
  have hs : (r.retried now).stripped =
      { r.stripped with identifier := ⟨r.stripped.identifier.pubKeyHex, now⟩, nBroadcastedTime := now } := rfl
  rw [hs, h]
  rfl

/-- A request made for a send, under an identifier not in use. -/
def NewSend (env : EnigmaEnv) (sent : Send → CCloakingInputsOutputs → Prop) (s : EnigmaWallet)
    (io : CCloakingInputsOutputs) (cr : CCloakingRequest) : Prop :=
  ∃ (send : Send) (now : Int), sent send io ∧ cr = send.createForBroadcast env now ∧
    s.mapCloakingInputsOutputs[cr.getIdHash env]? = none

structure RetryInv (env : EnigmaEnv) (sent : Send → CCloakingInputsOutputs → Prop) (inOuts : InOutsMap)
    (id : Hash256) (r : CCloakingRequest) : Prop where
  key : r.getIdHash env = id
  stored : inOuts[id]? ≠ none
  same : r.txCreated = false → ∃ send io, sent send io ∧ SameSend env send r ∧ inOuts[id]? = some io

def RetriesInv (env : EnigmaEnv) (sent : Send → CCloakingInputsOutputs → Prop) (s : EnigmaWallet) : Prop :=
  ∀ (id : Hash256) r, s.mapOurCloakingRequests[id]? = some r →
    RetryInv env sent s.mapCloakingInputsOutputs id r

theorem signAndRespondSender_of_empty (hr : r.signedrawtx = some []) :
    signAndRespondSender env ctx s r = (false, s, r, []) := by
  have hn : signedBySender env ctx s r = none := by simp only [signedBySender, hr]
  simp only [signAndRespondSender, hn]
  split_ifs <;> rfl

theorem addSignedInputsToTx_spec (r : CCloakingRequest) (sr : CCloakingSignResponse) :
    ∃ by' raw, (addSignedInputsToTx r sr).2 = { r with signedByAddresses := by', signedrawtx := raw } ∧
      (r.signedrawtx = some [] → raw = some []) := by
  unfold addSignedInputsToTx
  dsimp only
  split_ifs with hl hv
  · exact ⟨_, _, rfl, id⟩
  · refine ⟨_, _, rfl, fun hr => ?_⟩
    simp [hr, RawTx.tx] at hv
  · exact ⟨_, _, rfl, id⟩

section

namespace RetriesInv

theorem set (h : RetriesInv env sent s) {t : EnigmaWallet} {id : Hash256}
    (ho : t.mapOurCloakingRequests = s.mapOurCloakingRequests)
    (hio : ∀ j : Hash256, j ≠ id → t.mapCloakingInputsOutputs[j]? = s.mapCloakingInputsOutputs[j]?)
    (hr : RetryInv env sent t.mapCloakingInputsOutputs id r) : RetriesInv env sent (t.setOurRequest id r) := by
  intro j q hq
  rcases EnigmaWallet.setOurRequest_cases hq with ⟨rfl, rfl⟩ | ⟨hj, hq⟩
  · exact hr
  rw [ho] at hq
  obtain ⟨hk, hs, hsa⟩ := h j q hq
  rw [← hio j hj] at hs hsa
  exact ⟨hk, hs, hsa⟩

theorem accept (h : RetriesInv env sent s) (ctx : EnigmaCtx) (ccar : CCloakingAcceptResponse) :
    RetriesInv env sent (handleCloakingAccept env ctx s ccar).1 := by
  obtain ⟨t, seen, calls, heq, hst⟩ := handleCloakingAccept_cases env ctx s ccar
  rw [heq]
  cases hst with
  | ignored => exact h
  | joined hr =>
    have hi := h _ _ hr
    exact h.set rfl (fun _ _ => rfl) ⟨hi.key, hi.stored, hi.same⟩
  | created hr _ _ _ hs =>
    have hi := h _ _ hr
    rcases hs with rfl | ⟨io, rfl⟩
    · exact h.set rfl (fun _ _ => rfl) ⟨hi.key, hi.stored, fun hf => by cases hf⟩
    · rw [hi.key]
      refine h.set rfl (fun j hj => getElem?_insert_ne _ hj _) ⟨hi.key, ?_, fun hf => by cases hf⟩
      simp [EnigmaWallet.setInOuts]

section
variable (h : RetriesInv env sent s)
include h

theorem sign (ctx : EnigmaCtx) (ccr : CCloakingSignResponse) :
    RetriesInv env sent (handleSignResponse env ctx s ccr).1 := by
  have hm : ∀ r, s.mapOurCloakingRequests[ccr.identifier]? = some r →
      RetryInv env sent s.mapCloakingInputsOutputs ccr.identifier (addSignedInputsToTx r ccr).2 := by
    intro r hr
    have hi := h _ _ hr
    obtain ⟨by', raw, hme, hra⟩ := addSignedInputsToTx_spec r ccr
    rw [hme]
    refine ⟨hi.key, hi.stored, fun hn => ?_⟩
    obtain ⟨send, io, hse, hs, hio⟩ := hi.same hn
    have he : r.signedrawtx = some [] := congrArg CCloakingRequest.signedrawtx hs
    refine ⟨send, io, hse, ?_, hio⟩
    rw [SameSend, ← hs, CCloakingRequest.stripped, hra he, ← he]
    rfl
  obtain ⟨t, seen, calls, heq, hst⟩ := handleSignResponse_cases env ctx s ccr
  rw [heq]
  cases hst with
  | ignored => exact h
  | merged hr => exact h.set rfl (fun _ _ => rfl) (hm _ hr)
  | @signed r q r' s' ok calls hr _ hq _ hl =>
    have hi := hm r hr
    rw [← hq] at hi
    have hsp := signAndRespondSender_spec hl
    refine (h.set rfl (fun _ _ => rfl) hi).set hsp.ours (fun j _ => by rw [hsp.inOuts]) ?_
    rw [hsp.inOuts]
    have hk : env.idHash r'.identifier = ccr.identifier := by
      rw [hsp.identifier]
      exact hi.key
    refine ⟨hk, hi.stored, fun hn => ?_⟩
    obtain ⟨send, io, hse, hs, hio⟩ := hi.same (hsp.created ▸ hn)
    have he : q.signedrawtx = some [] := congrArg CCloakingRequest.signedrawtx hs
    rw [signAndRespondSender_of_empty he] at hl
    cases hl
    exact ⟨send, io, hse, hs, hio⟩

theorem send (hne : NewSend env sent s io cr) : RetriesInv env sent (sendEnigma env s io cr) := by
  obtain ⟨send, now, hs, rfl, hn⟩ := hne
  generalize hid : (send.createForBroadcast env now).getIdHash env = id at hn
  have ho : s.mapOurCloakingRequests.contains id = false := by
    rw [← isSome_getElem?_eq_contains]
    cases hr : s.mapOurCloakingRequests[id]? with
    | none => rfl
    | some r => exact absurd hn (h id r hr).stored
  have hio : s.mapCloakingInputsOutputs.contains id = false := by
    rw [← isSome_getElem?_eq_contains, hn]
    rfl
  have hse : RetriesInv env sent ((s.setInOuts id io).setOurRequest id (send.createForBroadcast env now)) := by
    refine h.set rfl (fun j hj => ?_) ⟨hid, ?_, fun _ => ⟨send, io, hs, rfl, ?_⟩⟩
    · rw [EnigmaWallet.setInOuts, getElem?_insert, if_neg]
      rw [compare_eq_iff_eq]
      exact hj.symm
    · rw [EnigmaWallet.setInOuts, getElem?_insert_self]
      simp
    · rw [EnigmaWallet.setInOuts, getElem?_insert_self]
  simp only [sendEnigma, hid, ho, Bool.false_eq_true, if_false, EnigmaWallet.setOurRequest, hio]
  exact hse

theorem retry (now : Int) (transmit : Bool) (id : Hash256) : RetriesInv env sent (retry env now transmit s id).2 := by
  unfold Enigma.retry
  split
  · rename_i io req hio hr
    dsimp only
    have hi := h _ _ hr
    generalize hid : (req.retried now).getIdHash env = newId
    have hset : RetriesInv env sent ((s.setInOuts newId io).setOurRequest newId (req.retried now)) := by
      refine h.set rfl (fun j hj => ?_) ⟨hid, ?_, fun hn => ?_⟩
      · rw [EnigmaWallet.setInOuts, getElem?_insert, if_neg]
        rw [compare_eq_iff_eq]
        exact hj.symm
      · rw [EnigmaWallet.setInOuts, getElem?_insert_self]
        simp
      · obtain ⟨send, io', hse, hs, hi'⟩ := hi.same hn
        rw [hio] at hi'
        cases hi'
        refine ⟨send, io, hse, ?_, by rw [EnigmaWallet.setInOuts, getElem?_insert_self]⟩
        exact hs.retried now
    intro j q hq
    rw [getElem?_erase] at hq
    split at hq
    · cases hq
    rename_i hne
    obtain ⟨hk, hst, hs⟩ := hset j q hq
    have he : ∀ m : InOutsMap, (m.erase id)[j]? = m[j]? := fun m => by
      rw [getElem?_erase, if_neg hne]
    refine ⟨hk, ?_, ?_⟩
    · rw [he]
      exact hst
    · rw [he]
      exact hs
  · exact h

theorem cancel (id : Hash256) : RetriesInv env sent (cancelSend env s id) := by
  unfold cancelSend
  split
  · exact h
  rename_i r hr
  have hi := h _ _ hr
  have hm : (freeInputs s (r.getIdHash env)).mapOurCloakingRequests = s.mapOurCloakingRequests ∧
      (freeInputs s (r.getIdHash env)).mapCloakingInputsOutputs = s.mapCloakingInputsOutputs := by
    unfold freeInputs
    split <;> exact ⟨rfl, rfl⟩
  refine h.set hm.1 (fun j _ => by rw [hm.2]) ?_
  rw [hm.2]
  exact ⟨hi.key, hi.stored, hi.same⟩

end

end RetriesInv

theorem SenderRun.retriesInv (h0 : ∀ id : Hash256, s0.mapOurCloakingRequests[id]? = none)
    (hru : SenderRun env (NewSend env sent) (fun _ _ => True) s0 s received) : RetriesInv env sent s := by
  induction hru with
  | init =>
    intro id r hr
    rw [h0 id] at hr
    cases hr
  | accept _ ctx ccar ih => exact ih.accept ctx ccar
  | sign _ ctx ccr _ ih => exact ih.sign ctx ccr
  | send _ io cr hn ih => exact ih.send hn
  | retry _ now transmit id ih => exact ih.retry now transmit id
  | cancel _ id ih => exact ih.cancel id
  | other _ ho hio ih =>
    intro id r hr
    rw [ho] at hr
    obtain ⟨hk, hs, hsa⟩ := ih id r hr
    rw [← hio id (by simp [hr])] at hs hsa
    exact ⟨hk, hs, hsa⟩

end

end CloakCoin.Enigma
