import CloakCoin.Lib.Run
import CloakCoin.Enigma.Relay

/-!
# What packets may change

A packet should only act on what its sender owns: its announcement, the requests it initiated. The
onion handler goes on when the signature of a packet does not verify, and the handlers do not compare
the sender with what the content names.
-/

namespace CloakCoin.Enigma

open Chain Lib Wallet
open Std (ExtTreeMap)

variable {p : CCloakingData} {stored : CCloakingRequest} {d : Delivery} {h : Hash160} {data dataOut plain : Bytes}
  {q : CCloakingData}

/-! ## Decrypting twice -/

section
variable {env : ShieldEnv}

theorem decryptAES256_buffer (h : decryptAES256 env data dataOut k = (true, plain)) (dataOut' : Bytes) :
    decryptAES256 env data dataOut' k = (true, plain) := by
  unfold decryptAES256 at h ⊢
  split at h
  · exact h
  · cases h

theorem decrypt_again (h : p.decrypt env k = (true, q)) : q.decrypt env k = (true, q) := by
  unfold CCloakingData.decrypt at h
  dsimp only at h
  split at h
  · cases h
  rename_i hv
  split at h
  · -- unencrypted data is moved once
    rename_i hk
    split at h
    · rename_i hm
      cases h
      unfold CCloakingData.decrypt
      rw [if_neg hv, hk]
      rw [if_neg (fun hc => hm.2 hc.1)]
    · rename_i hke
      cases h
      unfold CCloakingData.decrypt
      rw [if_neg hv, hk]
      rw [if_neg hke]
  · rename_i recipient hk
    split at h
    · rename_i hh
      rcases hp : decryptAES256 env p.payload.data p.payload.dataRaw (getSecret env k p.senderPubKeyHex).keyIv
        with ⟨ok, plain⟩
      rw [hp] at h
      obtain ⟨hok, rfl⟩ := Prod.mk.inj h
      obtain ⟨rfl, hid⟩ := Bool.and_eq_true_iff.mp hok
      have ha : decryptAES256 env (p.setRaw plain).payload.data (p.setRaw plain).payload.dataRaw
          (getSecret env k (p.setRaw plain).senderPubKeyHex).keyIv = (true, plain) := decryptAES256_buffer hp _
      have hk' : (p.setRaw plain).recipientKeys = [recipient] := hk
      have hv' : ¬(p.setRaw plain).nVersion ≠ enigmaRequestCurrentVersion := hv
      unfold CCloakingData.decrypt
      rw [if_neg hv', hk']
      dsimp only
      rw [if_pos hh, ha]
      exact Prod.ext hok rfl
    · cases h
  · rename_i hn ho
    split at h
    · cases h
    rename_i recipient hf
    generalize hkey : KeyIv.ofBytes (decryptAES256 env (parseHex recipient.2) []
      (getSecret env k p.senderPubKeyHex).keyIv).2 = oneTime at h
    rcases hp : decryptAES256 env p.payload.data p.payload.dataRaw oneTime with ⟨ok, plain⟩
    rw [hp] at h
    obtain ⟨rfl, rfl⟩ := Prod.mk.inj h
    have ha : decryptAES256 env (p.setRaw plain).payload.data (p.setRaw plain).payload.dataRaw oneTime =
      (true, plain) := decryptAES256_buffer hp _
    have hv' : ¬(p.setRaw plain).nVersion ≠ enigmaRequestCurrentVersion := hv
    have hk' : (p.setRaw plain).recipientKeys = p.recipientKeys := rfl
    have hs : (p.setRaw plain).senderPubKeyHex = p.senderPubKeyHex := rfl
    unfold CCloakingData.decrypt
    rw [if_neg hv', hk']
    split
    · exact absurd ‹_› hn
    · exact absurd ‹_› (ho _)
    rw [hf]
    dsimp only
    rw [hs, hkey, ha]
    rfl

end

/-! ## What the wallet's handlers leave alone -/

structure KeepsOthers (s s' : EnigmaWallet) : Prop where
  others : s'.mapCloakingRequests = s.mapCloakingRequests
  signs : s'.sSignRequestHashes = s.sSignRequestHashes

theorem KeepsOthers.refl (s : EnigmaWallet) : KeepsOthers s s := ⟨rfl, rfl⟩

section
variable (env : EnigmaEnv) (ctx : EnigmaCtx) (s : EnigmaWallet)

theorem handleCloakingAccept_keepsOthers (ccar : CCloakingAcceptResponse) :
    KeepsOthers s (handleCloakingAccept env ctx s ccar).1 := by
  obtain ⟨t, seen, calls, heq, hst⟩ := handleCloakingAccept_cases env ctx s ccar
  rw [heq]
  cases hst with
  | ignored => exact ⟨rfl, rfl⟩
  | joined => exact ⟨rfl, rfl⟩
  | created _ _ _ _ hs => rcases hs with rfl | ⟨io, rfl⟩ <;> exact ⟨rfl, rfl⟩

theorem signAndRespondSender_keepsOthers (r : CCloakingRequest) :
    KeepsOthers s (signAndRespondSender env ctx s r).2.1 := by
  unfold signAndRespondSender
  split
  · exact .refl s
  split
  · exact .refl s
  split
  · exact .refl s
  split
  · exact .refl s
  split
  · exact .refl s
  split
  · exact ⟨rfl, rfl⟩
  · exact .refl s

theorem handleSignResponse_keepsOthers (ccr : CCloakingSignResponse) :
    KeepsOthers s (handleSignResponse env ctx s ccr).1 := by
  obtain ⟨t, seen, calls, heq, hst⟩ := handleSignResponse_cases env ctx s ccr
  rw [heq]
  cases hst with
  | ignored => exact ⟨rfl, rfl⟩
  | merged => exact ⟨rfl, rfl⟩
  | @signed _ q _ _ _ _ _ _ _ _ hl =>
    obtain ⟨ho, hs⟩ := signAndRespondSender_keepsOthers env ctx (s.setOurRequest ccr.identifier q) q
    rw [hl] at ho hs
    exact ⟨ho, hs⟩

end

section
variable (env : EnigmaEnv) (ctx : CloakerCtx) (s : EnigmaWallet)

theorem signAndRespond_keepsOthers (csr : CCloakingRequest) : KeepsOthers s (signAndRespond env ctx s csr).1 := by
  unfold signAndRespond
  dsimp only
  split
  · split
    · exact .refl s
    · split
      · exact .refl s
      · exact ⟨rfl, rfl⟩
  · exact .refl s

theorem handleSignRequest_requests (csr : CCloakingRequest) :
    (handleSignRequest env ctx s csr).1.mapCloakingRequests = s.mapCloakingRequests ∧
      ∀ id ∈ (handleSignRequest env ctx s csr).1.sSignRequestHashes,
        id ∈ s.sSignRequestHashes ∨ id = csr.getIdHash env := by
  unfold handleSignRequest
  dsimp only
  split
  · exact ⟨rfl, fun id hid => .inl hid⟩
  split
  · exact ⟨rfl, fun id hid => (List.mem_cons.mp hid).symm⟩
  have hk := signAndRespond_keepsOthers env ctx s csr
  refine ⟨hk.others, fun id hid => (List.mem_cons.mp hid).symm.imp_left fun h => ?_⟩
  rw [← hk.signs]
  exact h

theorem processRequest_signs (r : CCloakingRequest) : (processRequest env ctx s r).sSignRequestHashes =
    s.sSignRequestHashes := by
  unfold processRequest getCloakingInputsMine
  dsimp only
  split_ifs
  · rfl
  · rfl
  · rfl
  · split
    · rfl
    rename_i h
    split at h
    · cases h
    · cases h
      rfl
  · rfl

theorem processRequest_stored (r : CCloakingRequest) {id : Hash256} (h : s.mapCloakingRequests[id]? = some stored) :
    (processRequest env ctx s r).mapCloakingRequests[id]? = some stored := by
  rcases processRequest_cases env ctx s r with hs | ⟨io, ho⟩
  · rw [hs.others, h]
  have ha := ho.accepts
  have hne : ¬compare (r.getIdHash env) id = .eq := by
    intro heq
    rw [acceptsRequest, Std.LawfulEqCmp.eq_of_compare heq] at ha
    have hm : s.mapCloakingRequests.contains id = true := by
      rw [ExtTreeMap.contains_eq_isSome_getElem?, h]
      rfl
    rw [hm] at ha
    simp at ha
  rw [ho.others, ExtTreeMap.getElem?_insert, if_neg hne, h]

end

/-! ## One packet -/

namespace EnigmaNode

variable {env : ShieldEnv}

@[simp] theorem banAll_wallet (ctx : RelayCtx) (n : EnigmaNode env) (keys : List PubKeyHex) :
    (n.banAll ctx keys).wallet = n.wallet := by
  unfold banAll
  induction keys generalizing n with
  | nil => rfl
  | cons k keys ih => rw [List.foldl_cons, ih, banPeer]

@[simp] theorem banAll_mapEnigmaAnns (ctx : RelayCtx) (n : EnigmaNode env) (keys : List PubKeyHex) :
    (n.banAll ctx keys).mapEnigmaAnns = n.mapEnigmaAnns := by
  unfold banAll
  induction keys generalizing n with
  | nil => rfl
  | cons k keys ih => rw [List.foldl_cons, ih, banPeer]

theorem handle_rel {ctx : RelayCtx} {n : EnigmaNode env} {blocked checkSig : Bool}
    {act : CCloakingData → EnigmaNode env × List Effect} {R : EnigmaNode env → Prop}
    (ho : p.decrypt env env.routingKey = (true, p)) (hs : R n)
    (hb : checkSig = true → R (n.banPeer ctx.now enigmaBansecsJunkData p.senderPubKeyHex)) (ha : R (act p).1) :
    R (n.handle ctx blocked checkSig act p).1 := by
  unfold handle
  split
  · exact hs
  split
  · rename_i hsi
    exact hb (Bool.and_eq_true_iff.mp hsi).1
  · rw [ho]
    exact ha

/-- A signed packet that speaks for its sender only. -/
structure Vouched (n : EnigmaNode env) (p : CCloakingData) : Prop where
  signed : p.authenticate env = true
  offline : ∀ q, p.decrypt env env.routingKey = (true, q) → q.payload.dataType = CloakingDataType.code .enigmaMsg →
    (env.readMessage q.payload.dataRaw).2.messageCode = enigmaMsgNodeGoneOffline →
    env.uint160 (env.readMessage q.payload.dataRaw).2.messageData = env.keyHash p.senderPubKeyHex
  rejected : ∀ q r, p.decrypt env env.routingKey = (true, q) → q.payload.dataType = CloakingDataType.code .enigmaMsg →
    (env.readMessage q.payload.dataRaw).2.messageCode = enigmaMsgCloakerRejected →
    n.wallet.mapCloakingRequests[env.uint256 (env.readMessage q.payload.dataRaw).2.messageData]? = some r →
    r.identifier.pubKeyHex = p.senderPubKeyHex
  signRequest : ∀ q, p.decrypt env env.routingKey = (true, q) →
    q.payload.dataType = CloakingDataType.code .signRequest →
    (env.readRequest q.payload.dataRaw).2.identifier.pubKeyHex = p.senderPubKeyHex

structure Traced (owner : PubKeyHex → Prop) (n n' : EnigmaNode env) : Prop where
  anns : ∀ (h : Hash160) ann, n.mapEnigmaAnns[h]? = some ann →
    n'.mapEnigmaAnns[h]? = some ann ∨ owner ann.pEnigmaSessionKeyHex
  requests : ∀ (id : Hash256) r, n.wallet.mapCloakingRequests[id]? = some r →
    n'.wallet.mapCloakingRequests[id]? = some r ∨ owner r.identifier.pubKeyHex
  signs : ∀ id ∈ n'.wallet.sSignRequestHashes, id ∈ n.wallet.sSignRequestHashes ∨
    ∃ i, env.idHash i = id ∧ owner i.pubKeyHex

namespace Traced

variable {owner : PubKeyHex → Prop} {n n' n0 : EnigmaNode env}

theorem of_same (ha : n'.mapEnigmaAnns = n.mapEnigmaAnns) (hk : KeepsOthers n.wallet n'.wallet) :
    Traced owner n n' where
  anns := fun h ann han => .inl (by rw [ha, han])
  requests := fun id r hr => .inl (by rw [hk.others, hr])
  signs := fun id hid => .inl (by rw [← hk.signs]; exact hid)

theorem refl (n : EnigmaNode env) : Traced owner n n := of_same rfl (.refl _)

theorem of_scores (hn : ScoresOnly n0 n) (h : Traced owner n n') : Traced owner n0 n' := by
  have ha : n.mapEnigmaAnns = n0.mapEnigmaAnns := by rw [hn]
  have hw : n.wallet = n0.wallet := by rw [hn]
  refine ⟨?_, ?_, ?_⟩
  · rw [← ha]
    exact h.anns
  · rw [← hw]
    exact h.requests
  · rw [← hw]
    exact h.signs

theorem eraseAnn (hk : h = env.keyHash k) (ho : owner k) : Traced owner n (n.eraseAnn h) where
  anns := fun h' ann ha => by
    by_cases heq : compare h h' = .eq
    · have hke : env.keyHash k = env.keyHash ann.pEnigmaSessionKeyHex := by
        rw [← hk, Std.LawfulEqCmp.eq_of_compare heq]
        exact n.anns_keyed h' ann ha
      rw [env.keyHash_injective hke] at ho
      exact .inr ho
    · refine .inl ?_
      rw [EnigmaNode.eraseAnn, ExtTreeMap.getElem?_erase, if_neg heq, ha]
  requests := fun _ _ hr => .inl hr
  signs := fun _ hid => .inl hid

theorem cloakerRejected {id : Hash256}
    (ho : ∀ r, n.wallet.mapCloakingRequests[id]? = some r → owner r.identifier.pubKeyHex) :
    Traced owner n { n with wallet := cloakerRejected env.toEnigmaEnv n.wallet id } := by
  unfold Enigma.cloakerRejected
  split
  · exact refl n
  refine ⟨fun _ _ ha => .inl ha, fun id' r hr => ?_, fun _ hid => .inl ?_⟩
  · by_cases heq : compare id id' = .eq
    · rw [← Std.LawfulEqCmp.eq_of_compare heq] at hr
      exact .inr (ho r hr)
    refine .inl ?_
    unfold abortOther freeInputs
    rw [ExtTreeMap.getElem?_insert, if_neg heq]
    split
    · exact hr
    · exact hr
  · unfold abortOther freeInputs at hid
    split at hid
    · exact hid
    · exact hid

end Traced

theorem dispatch_traced {ctx : RelayCtx} {owner : PubKeyHex → Prop} {n : EnigmaNode env} {q : CCloakingData}
    (ho : p.decrypt env env.routingKey = (true, q)) (hv : Vouched n p) (how : owner p.senderPubKeyHex) :
    Traced owner n (n.dispatch ctx q).1 := by
  have ha := decrypt_again ho
  unfold dispatch
  split_ifs with hreq hac hsi hres htx hm
  · exact ⟨fun _ _ han => .inl han, fun id r hr => .inl (processRequest_stored _ _ _ _ hr),
      fun id hid => .inl (by rw [← processRequest_signs env.toEnigmaEnv ctx.toCloakerCtx n.wallet]; exact hid)⟩
  · refine handle_rel (R := Traced owner n) ha (.refl n) (fun _ => .of_same rfl (.refl _)) ?_
    split
    · exact .of_same (banAll_mapEnigmaAnns _ _ _)
        (by rw [banAll_wallet]; exact handleCloakingAccept_keepsOthers _ _ _ _)
    · exact .refl n
  · refine handle_rel (R := Traced owner n) ha (.refl n) (fun _ => .of_same rfl (.refl _)) ?_
    obtain ⟨hot, hs⟩ := handleSignRequest_requests env.toEnigmaEnv ctx.toCloakerCtx n.wallet
      (env.readRequest q.payload.dataRaw).2
    refine ⟨fun h ann han => .inl ?_, fun id r hr => .inl ?_, fun id hid => ?_⟩
    · rw [banAll_mapEnigmaAnns, han]
    · rw [banAll_wallet, hot, hr]
    · rw [banAll_wallet] at hid
      refine (hs id hid).imp_right fun heq => ⟨_, heq.symm, ?_⟩
      rw [hv.signRequest q ho hsi]
      exact how
  · refine handle_rel (R := Traced owner n) ha (.refl n) (fun _ => .of_same rfl (.refl _)) ?_
    have hk := handleSignResponse_keepsOthers env.toEnigmaEnv ctx.toEnigmaCtx n.wallet
      (env.readSignResponse q.payload.dataRaw).2
    dsimp only
    split
    · exact .of_same (banAll_mapEnigmaAnns _ _ _) ⟨(congrArg _ (banAll_wallet _ _ _)).trans hk.others,
        (congrArg _ (banAll_wallet _ _ _)).trans hk.signs⟩
    · exact .of_same rfl hk
  · exact handle_rel (R := Traced owner n) ha (.refl n) (fun _ => .of_same rfl (.refl _)) (.refl n)
  · refine handle_rel (R := Traced owner n) ha (.refl n) (fun _ => .of_same rfl (.refl _)) ?_
    dsimp only
    split_ifs with hof hoth
    · rw [handleAcceptResponseFromSender, hof, if_neg (by decide), if_neg (by decide), handleNodeOffline]
      split
      · exact .eraseAnn (hv.offline q ho hm hof) how
      · exact .refl n
    · unfold handleAcceptResponseFromSender
      split
      · exact .of_same rfl (.refl _)
      split
      · rename_i hre
        refine .cloakerRejected fun r hr => ?_
        rw [hv.rejected q r ho hm hre hr]
        exact how
      · exact .refl n
    · exact .refl n
  · exact .refl n

/-- Only signed layers change state, and only their senders' part of it. -/
structure Owned (d : Delivery) (n n' : EnigmaNode env) : Prop where
  unsigned : d.packet.authenticate env = false → ScoresOnly n n'
  traced : Traced (fun k => ∃ p ∈ n.layers d.packet, p.authenticate env = true ∧ p.senderPubKeyHex = k) n n'

/-- Every layer of the packet is vouched for. -/
def AllVouched (d : Delivery) (n : EnigmaNode env) : Prop := ∀ p ∈ n.layers d.packet, n.Vouched p

theorem owned_of_vouched {n : EnigmaNode env} (h : AllVouched d n) : Owned d n (n.receive d) where
  unsigned := fun hu => by
    have hd : d.packet.getSigningHash env ∈ n.sCloakDataHashes := by
      by_contra hnew
      have hm : d.packet ∈ n.layers d.packet := by
        unfold layers maxOnionSkins opened
        rw [if_neg hnew]
        exact List.mem_cons_self
      exact Bool.false_ne_true (hu.symm.trans (h _ hm).signed)
    have hsa : n.receive d = n := by
      unfold receive maxOnionSkins handleCloakOnionData
      rw [if_pos (show n.alreadyProcessed d.packet = true from decide_eq_true hd)]
    rw [hsa]
    exact .refl n
  traced := by
    refine onion_rel (R := Traced _ n) (fun n' hn' => .of_scores hn' (.refl n'))
      (fun n' hash hn' => ⟨hn'.anns, hn'.requests, hn'.signs⟩) (.refl n) fun p hp n' q hn' hope => ?_
    have hv : n'.Vouched p := by
      have hw : n'.wallet = n.wallet := by rw [hn']
      obtain ⟨hs, ho, hr, hsi⟩ := h p hp
      rw [← hw] at hr
      exact ⟨hs, ho, hr, hsi⟩
    exact .of_scores hn' (dispatch_traced hope hv ⟨p, hp, hv.signed, rfl⟩)

end EnigmaNode

open EnigmaNode in
theorem packets_owned (env : ShieldEnv) (n₀ n : EnigmaNode env) (l : List (EnigmaNode env × Delivery))
    (h : Trace receive AllVouched n₀ l n) : ∀ x ∈ l, Owned x.2 x.1 (x.1.receive x.2) :=
  fun x hx => owned_of_vouched (h.ok_of_mem x hx)

namespace Sample

noncomputable def peer : EnigmaNode shield where
  wallet := wallet ⟨∅, [], fun _ => [], 0⟩ []
  sCloakDataHashes := []
  mapEnigmaAnns := (∅ : ExtTreeMap Hash160 CEnigmaAnnouncement).insert 2 ⟨2, 0⟩
  anns_keyed := fun h ann hann => by
    rw [ExtTreeMap.getElem?_insert] at hann
    split at hann
    · rename_i heq
      cases hann
      exact (Std.LawfulEqCmp.eq_of_compare heq).symm
    · simp at hann
  nCloakerCountAccepted := 0
  bannedUntil := fun _ => 0
  nMisbehavior := fun _ => 0

def relayCtx : RelayCtx := { cloakerCtx with lockAnns := true }

def offlinePacket (senderPubKeyHex : PubKeyHex) (vchSig : Bytes) : CCloakingData :=
  { identifier := 5, senderPubKeyHex, timestamp := 9, vchSig
    payload := { dataType := CloakingDataType.code .enigmaMsg, data := 7 :: unary 2 } }

noncomputable def ownOffline : CCloakingData := (offlinePacket 2 []).signWith shield (2 : Nat)

theorem ownOffline_vouched : EnigmaNode.AllVouched ⟨ownOffline, 0, relayCtx⟩ peer := by
  have hl : peer.layers ownOffline = [ownOffline] := by decide +kernel
  intro p hp
  rw [hl, List.mem_singleton] at hp
  subst hp
  refine ⟨by decide +kernel, fun q hq _ _ => ?_, fun q r hq _ hc _ => ?_, fun q hq hs => ?_⟩
  all_goals
    obtain rfl := (Prod.mk.inj hq).2
  · decide +kernel
  · exact absurd hc (by decide +kernel)
  · exact absurd hs (by decide +kernel)

end Sample

open Sample EnigmaNode in
theorem packets_owned_offline : Owned ⟨ownOffline, 0, relayCtx⟩ peer (peer.receive ⟨ownOffline, 0, relayCtx⟩) :=
  packets_owned shield peer _ _ (.step _ .start ownOffline_vouched) (peer, ⟨ownOffline, 0, relayCtx⟩)
    (List.mem_singleton_self _)

open Sample EnigmaNode in
/-- A packet that key 3 did not even sign makes the node forget key 2. -/
theorem unsigned_packet_erases_announcement :
    (offlinePacket 3 []).authenticate shield = false ∧ peer.mapEnigmaAnns[2]? = some ⟨2, 0⟩ ∧
      (peer.receive ⟨offlinePacket 3 [], 0, relayCtx⟩).mapEnigmaAnns[2]? = none := by
  refine ⟨by decide +kernel, by decide +kernel, by decide +kernel⟩

end CloakCoin.Enigma
