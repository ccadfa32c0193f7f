import CloakCoin.Enigma.Expire
import CloakCoin.Enigma.Owned
import CloakCoin.Enigma.Retry

/-!
# Giving up a send

A request of ours that ran out of time and has no retry left is given up. `ExpireOldEnigma` goes through
a copy of the requests, so what `Abort` marks is the copy; messages and later runs look at the stored
entry.
-/

namespace CloakCoin.Enigma

open Chain Lib Wallet
open Std (ExtTreeMap)
open Std.ExtTreeMap Option

variable {r : CCloakingRequest} {id : Hash256}

/-! ## What a packet can do to the wallet -/

inductive MessageStep (env : EnigmaEnv) (s : EnigmaWallet) : EnigmaWallet → Prop
  | skip : MessageStep env s s
  | request (ctx : CloakerCtx) (r : CCloakingRequest) : MessageStep env s (processRequest env ctx s r)
  | accept (ctx : EnigmaCtx) (ccar : CCloakingAcceptResponse) :
    MessageStep env s (handleCloakingAccept env ctx s ccar).1
  | signRequest (ctx : CloakerCtx) (csr : CCloakingRequest) : MessageStep env s (handleSignRequest env ctx s csr).1
  | signResponse (ctx : EnigmaCtx) (ccr : CCloakingSignResponse) :
    MessageStep env s (handleSignResponse env ctx s ccr).1
  | rejected (id : Hash256) : MessageStep env s (cloakerRejected env s id)

namespace EnigmaNode

variable {env : ShieldEnv}

theorem dispatch_messageStep {n : EnigmaNode env} {p q : CCloakingData} (ho : p.decrypt env env.routingKey = (true, q))
    : MessageStep env.toEnigmaEnv n.wallet (n.dispatch ctx q).1.wallet := by
  have ha := decrypt_again ho
  have hru {blocked checkSig : Bool} {act : CCloakingData → EnigmaNode env × List Effect}
      (hac : MessageStep env.toEnigmaEnv n.wallet (act q).1.wallet) :
      MessageStep env.toEnigmaEnv n.wallet (n.handle ctx blocked checkSig act q).1.wallet := by
    apply handle_rel (R := fun m => MessageStep env.toEnigmaEnv n.wallet m.wallet) ha
    · exact .skip
    · exact fun _ => .skip
    · exact hac
  unfold dispatch
  split_ifs
  · exact .request _ _
  · apply hru
    split
    · rw [banAll_wallet]
      exact .accept _ _
    · exact .skip
  · apply hru
    rw [banAll_wallet]
    exact .signRequest _ _
  · apply hru
    dsimp only
    split
    · show MessageStep _ _ (banAll ctx _ _).wallet
      rw [banAll_wallet]
      exact .signResponse _ _
    · exact .signResponse _ _
  · exact hru .skip
  · apply hru
    unfold handleAcceptResponseFromSender handleNodeOffline
    dsimp only
    split_ifs
    all_goals first | exact .skip | exact .rejected _
  · exact .skip

theorem receive_messageStep (d : Delivery) (n : EnigmaNode env) :
    MessageStep env.toEnigmaEnv n.wallet (n.receive d).wallet := by
  have hs {m : EnigmaNode env} (hm : ScoresOnly n m) : m.wallet = n.wallet := by rw [hm]
  apply onion_rel (R := fun m => MessageStep env.toEnigmaEnv n.wallet m.wallet)
  · intro m hm
    rw [hs hm]
    exact .skip
  · exact fun m hash hm => hm
  · exact ScoresOnly.refl n
  · intro p _ m q hm ho
    have hst : MessageStep env.toEnigmaEnv m.wallet (m.dispatch d.ctx q).1.wallet := dispatch_messageStep ho
    rwa [hs hm] at hst

end EnigmaNode

/-! ## Our requests under messages -/

structure Continues (r r' : CCloakingRequest) : Prop where
  identifier : r'.identifier = r.identifier
  aborted : r'.aborted = r.aborted
  unfinished : (r.completed = false → r.txid = none) → r'.completed = false → r'.txid = none

theorem Continues.refl (r : CCloakingRequest) : Continues r r := ⟨rfl, rfl, id⟩

theorem Continues.trans (h1 : Continues r r1) (h2 : Continues r1 r2) : Continues r r2 where
  identifier := h2.identifier.trans h1.identifier
  aborted := h2.aborted.trans h1.aborted
  unfinished h := h2.unfinished (h1.unfinished h)

def Continued (s s' : EnigmaWallet) : Prop :=
  ∀ id : Hash256, Rel Continues s.mapOurCloakingRequests[id]? s'.mapOurCloakingRequests[id]?

namespace Continued

variable {env : EnigmaEnv} {s s' : EnigmaWallet} {r' : CCloakingRequest}

theorem of_ours (h : s'.mapOurCloakingRequests = s.mapOurCloakingRequests) : Continued s s' := by
  intro id
  rw [h]
  cases s.mapOurCloakingRequests[id]? with
  | none => exact .none
  | some r => exact .some (.refl r)

theorem set (hr : s.mapOurCloakingRequests[id]? = some r) (hc : Continues r r')
    (ho : ∀ j : Hash256, j ≠ id → s'.mapOurCloakingRequests[j]? = s.mapOurCloakingRequests[j]?) :
    Continued s (s'.setOurRequest id r') := by
  intro j
  by_cases hj : j = id
  · subst hj
    rw [hr, EnigmaWallet.setOurRequest, getElem?_insert_self]
    exact .some hc
  · rw [EnigmaWallet.setOurRequest, getElem?_insert_ne _ hj, ho j hj]
    exact of_ours rfl j

theorem getElem? (h : Continued s s') (hr' : s'.mapOurCloakingRequests[id]? = some r') :
    ∃ r, s.mapOurCloakingRequests[id]? = some r ∧ Continues r r' := by
  have hid := h id
  rw [hr'] at hid
  cases hr : s.mapOurCloakingRequests[id]? with
  | none =>
    rw [hr] at hid
    cases hid
  | some r =>
    rw [hr] at hid
    cases hid with
    | some hc => exact ⟨r, rfl, hc⟩

theorem getElem?_of_some (h : Continued s s') (hr : s.mapOurCloakingRequests[id]? = some r) :
    ∃ r', s'.mapOurCloakingRequests[id]? = some r' ∧ Continues r r' := by
  have hid := h id
  rw [hr] at hid
  cases hr' : s'.mapOurCloakingRequests[id]? with
  | none =>
    rw [hr'] at hid
    cases hid
  | some r' =>
    rw [hr'] at hid
    cases hid with
    | some hc => exact ⟨r', rfl, hc⟩

theorem accept (ctx : EnigmaCtx) (ccar : CCloakingAcceptResponse) :
    Continued s (handleCloakingAccept env ctx s ccar).1 := by
  obtain ⟨t, seen, calls, heq, hst⟩ := handleCloakingAccept_cases env ctx s ccar
  rw [heq]
  cases hst with
  | ignored => exact of_ours rfl
  | joined hr => exact set hr ⟨rfl, rfl, id⟩ fun _ _ => rfl
  | created hr _ _ _ hs => rcases hs with rfl | ⟨io, rfl⟩ <;> exact set hr ⟨rfl, rfl, id⟩ fun _ _ => rfl

theorem signAndRespondSender_continues
    (h : signAndRespondSender env ctx s r = (ok, s', r', calls)) : Continues r r' := by
  unfold signAndRespondSender at h
  split_ifs at h
  · cases h
    exact .refl r
  · cases h
    exact .refl r
  split at h
  · cases h
    exact .refl r
  split_ifs at h
  · cases h
    exact ⟨rfl, rfl, id⟩
  · cases h
    exact ⟨rfl, rfl, id⟩
  · cases h
    exact ⟨rfl, rfl, fun _ hd => by cases hd⟩
  · cases h
    exact ⟨rfl, rfl, id⟩

theorem signResponse (ctx : EnigmaCtx) (ccr : CCloakingSignResponse) :
    Continued s (handleSignResponse env ctx s ccr).1 := by
  have hm : ∀ r, Continues r (addSignedInputsToTx r ccr).2 := by
    intro r
    obtain ⟨signers, raw, hme, -⟩ := addSignedInputsToTx_spec r ccr
    rw [hme]
    exact ⟨rfl, rfl, id⟩
  obtain ⟨t, seen, calls, heq, hst⟩ := handleSignResponse_cases env ctx s ccr
  rw [heq]
  cases hst with
  | ignored => exact of_ours rfl
  | merged hr => exact set hr (hm _) fun _ _ => rfl
  | @signed r q r' s' ok calls hr _ hq _ hl =>
    have hs := (hm r).trans (hq ▸ signAndRespondSender_continues hl)
    refine set hr ⟨hs.identifier, hs.aborted, hs.unfinished⟩ fun j hj => ?_
    rw [(signAndRespondSender_spec hl).ours]
    exact getElem?_insert_ne _ hj _

theorem of_messageStep (h : MessageStep env s s') : Continued s s' := by
  cases h with
  | skip => exact of_ours rfl
  | request ctx r =>
    rcases processRequest_cases env ctx s r with hs | ⟨io, ho⟩
    · exact of_ours hs.ours
    · exact of_ours ho.ours
  | accept ctx ccar => exact accept ctx ccar
  | signRequest ctx csr =>
    apply of_ours
    unfold handleSignRequest signAndRespond
    dsimp only
    split_ifs
    · rfl
    · rfl
    split
    · split_ifs
      · rfl
      · split
        · rfl
        · rfl
    · rfl
  | signResponse ctx ccr => exact signResponse ctx ccr
  | rejected id =>
    unfold cloakerRejected
    split
    · exact of_ours rfl
    rename_i r _
    intro j
    have hf := ((freeInputs_spec s (r.getIdHash env)).2.2 j).ours
    show Rel _ _ (freeInputs s (r.getIdHash env)).mapOurCloakingRequests[j]?
    rw [hf]
    exact of_ours rfl j

end Continued

/-! ## Our requests under a run -/

/-- Our requests are stored under their identifiers. -/
def OursKeyed (env : EnigmaEnv) (s : EnigmaWallet) : Prop :=
  ∀ (id : Hash256) r, s.mapOurCloakingRequests[id]? = some r → r.getIdHash env = id ∧ r.identifier.pubKeyHex = env.myKey

namespace OursKeyed

variable {env : EnigmaEnv} {ctx : CloakerCtx} {s s' : EnigmaWallet} {id : Hash256}

section
variable (h : OursKeyed env s)
include h

theorem continued (hc : Continued s s') : OursKeyed env s' := by
  intro id r' hr'
  obtain ⟨r, hr, hc⟩ := hc.getElem? hr'
  obtain ⟨hid, hk⟩ := h id r hr
  rw [CCloakingRequest.getIdHash, hc.identifier]
  exact ⟨hid, hk⟩

theorem retry (now : Int) (transmit : Bool) (old : Hash256) : OursKeyed env (retry env now transmit s old).2 := by
  unfold Enigma.retry
  split
  · rename_i inOuts req _ hre
    intro id r hr
    simp only [EnigmaWallet.setOurRequest, EnigmaWallet.setInOuts, getElem?_erase,
      getElem?_insert, compare_eq_iff_eq] at hr
    split_ifs at hr with hold hn
    · obtain rfl := some.inj hr
      exact ⟨hn, (h old req hre).2⟩
    · exact h id r hr
  · exact h

theorem getElem?_retry (now : Int) (transmit : Bool) (hold : id ≠ old) (hn : env.idHash ⟨env.myKey, now⟩ ≠ id) :
    (Enigma.retry env now transmit s old).2.mapOurCloakingRequests[id]? = s.mapOurCloakingRequests[id]? := by
  unfold Enigma.retry
  split
  · rename_i inOuts req _ hre
    have hne : id ≠ (req.retried now).getIdHash env := by
      intro e
      apply hn
      rw [e, ← (h old req hre).2]
      rfl
    show ((s.mapOurCloakingRequests.insert _ _).erase old)[id]? = _
    rw [getElem?_erase_ne _ hold, getElem?_insert_ne _ hne]
  · rfl

theorem expireOurs (p : Hash256 × CCloakingRequest) : OursKeyed env (expireOurs env ctx s p) := by
  unfold Enigma.expireOurs
  split
  · exact h.retry _ _ _
  · intro j r hr
    rw [((freeInputs_spec s (p.2.getIdHash env)).2.2 j).ours] at hr
    exact h j r hr

theorem getElem?_expireOurs (hp : p.2.getIdHash env = p.1)
    (hk : p.1 = id → (p.2.autoRetry && p.2.shouldRetry) = false) (hn : env.idHash ⟨env.myKey, ctx.now⟩ ≠ id) :
    (Enigma.expireOurs env ctx s p).mapOurCloakingRequests[id]? = s.mapOurCloakingRequests[id]? := by
  unfold Enigma.expireOurs
  split
  · rename_i hre
    apply h.getElem?_retry _ _ _ hn
    intro e
    rw [hk (hp.symm.trans e.symm)] at hre
    cases hre
  · exact ((freeInputs_spec s (p.2.getIdHash env)).2.2 id).ours

end

end OursKeyed

theorem expireOthers_ours (env : EnigmaEnv) (ctx : CloakerCtx) (s : EnigmaWallet) (p : Hash256 × CCloakingRequest)
    (id : Hash256) : (expireOthers env ctx s p).mapOurCloakingRequests[id]? = s.mapOurCloakingRequests[id]? := by
  have hl : (shouldAbort env ctx s p.2).2.mapOurCloakingRequests = s.mapOurCloakingRequests := by
    rcases EnigmaNode.shouldAbort_wallet env ctx s p.2 with hs | hs
    · rw [hs]
    · rw [hs]
      rfl
  unfold expireOthers abortOther
  dsimp only
  split
  · rw [((freeInputs_spec _ (p.2.getIdHash env)).2.2 id).ours, hl]
  · rw [hl]

def Retried (ctx : CloakerCtx) (s : EnigmaWallet) (id : Hash256) : Prop :=
  ∃ r, (id, r) ∈ dueOurs ctx s ∧ (r.autoRetry && r.shouldRetry) = true

section
variable {env : EnigmaEnv} {ctx : CloakerCtx} {s : EnigmaWallet}

theorem mem_dueOurs : (id, r) ∈ dueOurs ctx s ↔
    s.mapOurCloakingRequests[id]? = some r ∧ r.txid = none ∧ r.completed = false ∧ r.aborted = false ∧
      r.isExpired ctx.now = true := by
  simp [dueOurs, and_assoc]

theorem expireOldEnigma_entry (h : OursKeyed env s) (hn : env.idHash ⟨env.myKey, ctx.now⟩ ≠ id) (hk : ¬Retried ctx s id)
    (lockOurReq lockReq : Bool) : OursKeyed env (expireOldEnigma env ctx lockOurReq lockReq s) ∧
      (expireOldEnigma env ctx lockOurReq lockReq s).mapOurCloakingRequests[id]? = s.mapOurCloakingRequests[id]? := by
  have ho : OursKeyed env (if lockOurReq then (dueOurs ctx s).foldl (expireOurs env ctx) s else s) ∧
      (if lockOurReq then (dueOurs ctx s).foldl (expireOurs env ctx) s else s).mapOurCloakingRequests[id]? =
        s.mapOurCloakingRequests[id]? := by
    split
    · refine List.foldlRecOn (motive := fun m => OursKeyed env m ∧
        m.mapOurCloakingRequests[id]? = s.mapOurCloakingRequests[id]?) _ _ ⟨h, rfl⟩ fun m hm p hp => ?_
      have hp' := mem_dueOurs.mp hp
      refine ⟨hm.1.expireOurs p, (hm.1.getElem?_expireOurs (h p.1 p.2 hp'.1).1 ?_ hn).trans hm.2⟩
      intro hid
      by_contra hre
      exact hk ⟨p.2, hid ▸ hp, Bool.eq_true_of_not_eq_false hre⟩
    · exact ⟨h, rfl⟩
  unfold expireOldEnigma
  dsimp only
  split
  · refine List.foldlRecOn (motive := fun m => OursKeyed env m ∧
      m.mapOurCloakingRequests[id]? = s.mapOurCloakingRequests[id]?) _ _ ho fun m hm p _ => ?_
    refine ⟨fun j r hr => ?_, (expireOthers_ours env ctx m p id).trans hm.2⟩
    rw [expireOthers_ours] at hr
    exact hm.1 j r hr
  · exact ho

end

/-! ## Later events -/

/-- What happens to a node: a run of `ExpireOldEnigma`, or a packet of a peer. -/
inductive NodeEvent where
  | expire (ctx : CloakerCtx) (lockOurReq lockReq : Bool)
  | packet (d : Delivery)

namespace NodeEvent

variable {env : ShieldEnv}

def step (e : NodeEvent) (n : EnigmaNode env) : EnigmaNode env :=
  match e with
  | expire ctx lockOurReq lockReq => n.expireOldEnigma ctx lockOurReq lockReq
  | packet d => n.receive d

/-- No retry gets the identifier. -/
def Apart (env : ShieldEnv) (id : Hash256) : NodeEvent → Prop
  | expire ctx _ _ => env.idHash ⟨env.myKey, ctx.now⟩ ≠ id
  | packet _ => True

end NodeEvent

/-- The request is aborted for good. -/
structure Final (env : EnigmaEnv) (s : EnigmaWallet) (id : Hash256) : Prop where
  marked : ∃ r, s.mapOurCloakingRequests[id]? = some r ∧ r.aborted = true
  untouched : ∀ (ctx : CloakerCtx) r, (id, r) ∉ dueOurs ctx s
  unsigned : ∀ (ctx : EnigmaCtx) (ccr : CCloakingSignResponse), ccr.identifier = id →
    (handleSignResponse env ctx s ccr).2 = []

section
variable {env : EnigmaEnv} {ctx : CloakerCtx} {s : EnigmaWallet} {id : Hash256} {r : CCloakingRequest}

section
variable (hr : s.mapOurCloakingRequests[id]? = some r) (haborted : r.aborted = true)
include hr haborted

theorem not_mem_dueOurs_of_aborted (q : CCloakingRequest) : (id, q) ∉ dueOurs ctx s := by
  intro hq
  obtain ⟨hs, -, -, hl, -⟩ := mem_dueOurs.mp hq
  rw [hr, some.injEq] at hs
  rw [← hs, haborted] at hl
  cases hl

theorem final_of_aborted : Final env s id where
  marked := ⟨r, hr, haborted⟩
  untouched ctx q := not_mem_dueOurs_of_aborted hr haborted q
  unsigned := by
    rintro ctx ccr rfl
    obtain ⟨t, seen, calls, heq, hst⟩ := handleSignResponse_cases env ctx s ccr
    rw [heq]
    cases hst with
    | ignored => rfl
    | merged => rfl
    | signed hs ha =>
      rw [hr, some.injEq] at hs
      rw [← hs, haborted] at ha
      cases ha

end

end

structure MarkedAborted (env : EnigmaEnv) (id : Hash256) (s : EnigmaWallet) : Prop where
  keyed : OursKeyed env s
  marked : ∃ r, s.mapOurCloakingRequests[id]? = some r ∧ r.aborted = true

namespace MarkedAborted

variable {env : ShieldEnv} {n : EnigmaNode env} {id : Hash256}

theorem expire {env : EnigmaEnv} (h : MarkedAborted env id s) (hn : env.idHash ⟨env.myKey, ctx.now⟩ ≠ id)
    (lockOurReq lockReq : Bool) : MarkedAborted env id (expireOldEnigma env ctx lockOurReq lockReq s) := by
  obtain ⟨hk, r, hr, haborted⟩ := h
  have hke : ¬Retried ctx s id := by
    rintro ⟨q, hq, -⟩
    exact not_mem_dueOurs_of_aborted hr haborted q hq
  obtain ⟨hk', he⟩ := expireOldEnigma_entry hk hn hke lockOurReq lockReq
  exact ⟨hk', r, he.trans hr, haborted⟩

theorem step (h : MarkedAborted env.toEnigmaEnv id n.wallet) {e : NodeEvent} (he : e.Apart env id) :
    MarkedAborted env.toEnigmaEnv id (e.step n).wallet := by
  cases e with
  | expire ctx lockOurReq lockReq =>
    show MarkedAborted _ id (n.expireOldEnigma ctx lockOurReq lockReq).wallet
    rw [EnigmaNode.wallet_expireOldEnigma]
    exact h.expire he lockOurReq lockReq
  | packet d =>
    have hc := Continued.of_messageStep (n.receive_messageStep d)
    obtain ⟨hk, r, hr, haborted⟩ := h
    obtain ⟨r', hr', hrr'⟩ := hc.getElem?_of_some hr
    exact ⟨hk.continued hc, r', hr', hrr'.aborted.trans haborted⟩

theorem trace (h : MarkedAborted env.toEnigmaEnv id n.wallet)
    (hru : Trace NodeEvent.step (fun e _ => e.Apart env id) n l m) : MarkedAborted env.toEnigmaEnv id m.wallet := by
  induction hru with
  | start => exact h
  | step e _ he ih => exact ih.step he

end MarkedAborted

/-- The request has expired and is not retried. -/
structure OutOfTime (now : Int) (r : CCloakingRequest) : Prop where
  noTx : r.txid = none
  unfinished : r.completed = false
  expired : r.isExpired now = true
  noRetry : (r.autoRetry && r.shouldRetry) = false

/-- **Giving up is final exactly if the stored entry was marked before**, from the status page: the run
that gives the request up does not mark it. -/
theorem given_up_final_iff (env : ShieldEnv) (ctx : CloakerCtx) (lockReq : Bool) (n : EnigmaNode env)
    (hkeyed : OursKeyed env.toEnigmaEnv n.wallet) (id : Hash256) (r : CCloakingRequest)
    (hr : n.wallet.mapOurCloakingRequests[id]? = some r) (hdead : OutOfTime ctx.now r)
    (hnow : env.idHash ⟨env.myKey, ctx.now⟩ ≠ id) :
    (∀ l m, Trace NodeEvent.step (fun e _ => e.Apart env id) (n.expireOldEnigma ctx true lockReq) l m →
      Final env.toEnigmaEnv m.wallet id) ↔ r.aborted = true := by
  have hk : ¬Retried ctx n.wallet id := by
    rintro ⟨q, hq, hre⟩
    have hs := (mem_dueOurs.mp hq).1
    rw [hr, some.injEq] at hs
    rw [← hs, hdead.noRetry] at hre
    cases hre
  obtain ⟨hk', he⟩ := expireOldEnigma_entry hkeyed hnow hk true lockReq
  rw [← EnigmaNode.wallet_expireOldEnigma] at hk' he
  constructor
  · intro hf
    obtain ⟨q, hq, haborted⟩ := (hf [] _ .start).marked
    rw [he, hr, some.injEq] at hq
    rwa [hq]
  · intro haborted l m hrun
    have hm : MarkedAborted env.toEnigmaEnv id (n.expireOldEnigma ctx true lockReq).wallet :=
      ⟨hk', r, he.trans hr, haborted⟩
    obtain ⟨q, hq, hqa⟩ := (hm.trace hrun).marked
    exact final_of_aborted hq hqa

namespace Sample

noncomputable def lastTry (aborted : Bool) : EnigmaNode shield where
  wallet := (handleCloakingAccept shield.toEnigmaEnv ctx
    (wallet ⟨∅, [], fun _ => [], 0⟩ [({ sendRequest with retryCount := 3, aborted }, sendInOuts)]) offer).1
  sCloakDataHashes := []
  mapEnigmaAnns := ∅
  anns_keyed := EnigmaNode.no_anns_keyed
  nCloakerCountAccepted := 0
  bannedUntil := fun _ => 0
  nMisbehavior := fun _ => 0

theorem lastTry_keyed (aborted : Bool) : OursKeyed shield.toEnigmaEnv (lastTry aborted).wallet := by
  apply OursKeyed.continued _ (.accept ctx offer)
  intro id r hr
  simp only [wallet, List.foldl_cons, List.foldl_nil, getElem?_insert, compare_eq_iff_eq,
    getElem?_empty] at hr
  split_ifs at hr with hid
  obtain rfl := some.inj hr
  exact ⟨hid, rfl⟩

end Sample

open Sample in
theorem given_up_final_cancelled :
    Final shield.toEnigmaEnv ((lastTry true).expireOldEnigma later true true).wallet 101 := by
  have hen : ((lastTry true).wallet.mapOurCloakingRequests[(101 : Hash256)]?).any fun r =>
      decide (r.txid = none) && !r.completed && r.isExpired later.now &&
        !(r.autoRetry && r.shouldRetry) && r.aborted := by
    decide +kernel
  obtain ⟨r, hr, hall⟩ := (any_eq_true _ _).mp hen
  simp only [Bool.and_eq_true, decide_eq_true_eq, Bool.not_eq_true'] at hall
  obtain ⟨⟨⟨⟨htx, ho⟩, he⟩, hre⟩, haborted⟩ := hall
  exact (given_up_final_iff shield later true (lastTry true) (lastTry_keyed true) 101 r hr ⟨htx, ho, he, hre⟩
    (by decide +kernel)).mpr haborted [] _ .start

open Sample in
/-- The request is given up at 100. Its entry is not marked, so it is due again at 101 and the participant
banned once more, and the signature of the participant at 102 still makes the wallet sign and submit. -/
theorem given_up_send_goes_on : let n₁ := (lastTry false).expireOldEnigma later true true
    let n₂ := n₁.expireOldEnigma { later with now := 101 } true true
    ((lastTry false).wallet.mapOurCloakingRequests[(101 : Hash256)]?).any
        (fun r => r.isExpired later.now && !(r.autoRetry && r.shouldRetry) && !r.completed && decide (r.txid = none)) ∧
      (n₁.wallet.mapOurCloakingRequests[(101 : Hash256)]?).map CCloakingRequest.aborted = some false ∧
      (dueOurs { later with now := 101 } n₁.wallet).map Prod.fst = [101] ∧
      (n₁.bannedUntil 2 = 220 ∧ n₂.bannedUntil 2 = 340) ∧
      ((handleSignResponse shield.toEnigmaEnv { ctx with now := 102 } n₂.wallet ⟨2, 101, [[], [5]]⟩).2.any
        fun | .submit _ => true | _ => false) = true := by
  refine ⟨?_, ?_, ?_, ⟨?_, ?_⟩, ?_⟩
  all_goals decide +kernel

end CloakCoin.Enigma
