import CloakCoin.Enigma.Relay

/-!
# Expiring requests

`ExpireOldEnigma` runs once a second. Requests of ours that ran out of time are retried or aborted and
their silent participants banned; requests of others are aborted and their senders banned if
`ShouldAbort` says so. `ShouldAbort` says so by default, whether the request is due or not.
-/

namespace CloakCoin.Enigma

open Chain Lib Wallet
open Std (ExtTreeMap)
open Std.ExtTreeMap Option

def enigmaBansecsNoResponse : Int := 120

namespace EnigmaNode

variable {env : ShieldEnv} (ctx : CloakerCtx) {id : Hash256} {p : Hash256 × CCloakingRequest} {r : CCloakingRequest}
  (n : EnigmaNode env)

def banSilent (req : CCloakingRequest) : EnigmaNode env :=
  if (req.sParticipants.length : Int) ≥ req.nParticipantsRequired then
    req.sParticipants.foldl (fun n p =>
      if p.pubKey ∉ req.signedByAddresses then n.banPeer ctx.now enigmaBansecsNoResponse p.pubKey else n) n
  else n

/-- A request of ours: ban, then retry or abort. -/
def expireOurs (p : Hash256 × CCloakingRequest) : EnigmaNode env :=
  { n.banSilent ctx p.2 with wallet := Enigma.expireOurs env.toEnigmaEnv ctx n.wallet p }

/-- A request from others: ban and abort. -/
def expireOthers (p : Hash256 × CCloakingRequest) : EnigmaNode env :=
  let (shouldAbort, s) := shouldAbort env.toEnigmaEnv ctx n.wallet p.2
  if !p.2.aborted && shouldAbort then
    { n.banPeer ctx.now enigmaBansecsNoResponse p.2.identifier.pubKeyHex with
      wallet := abortOther env.toEnigmaEnv s p.1 p.2 }
  else { n with wallet := s }

def expireOldEnigma (lockOurReq lockReq : Bool) (n : EnigmaNode env) : EnigmaNode env :=
  let n := if lockOurReq then (dueOurs ctx n.wallet).foldl (expireOurs ctx) n else n
  if lockReq then n.wallet.mapCloakingRequests.toList.foldl (expireOthers ctx) n else n

/-! ## The wallet's part -/

theorem wallet_expireOthers (p : Hash256 × CCloakingRequest) :
    (n.expireOthers ctx p).wallet = Enigma.expireOthers env.toEnigmaEnv ctx n.wallet p := by
  unfold expireOthers Enigma.expireOthers
  dsimp only
  split
  · rfl
  · rfl

theorem wallet_foldl {α : Type} {f : EnigmaNode env → α → EnigmaNode env} {g : EnigmaWallet → α → EnigmaWallet}
    (hs : ∀ n a, (f n a).wallet = g n.wallet a) :
    ∀ (l : List α) (n : EnigmaNode env), (l.foldl f n).wallet = l.foldl g n.wallet
  | [], n => rfl
  | a :: l, n => by rw [List.foldl_cons, List.foldl_cons, wallet_foldl hs l, hs]

theorem wallet_expireOldEnigma (lockOurReq lockReq : Bool) (n : EnigmaNode env) :
    (n.expireOldEnigma ctx lockOurReq lockReq).wallet =
      Enigma.expireOldEnigma env.toEnigmaEnv ctx lockOurReq lockReq n.wallet := by
  have ho : (if lockOurReq then (dueOurs ctx n.wallet).foldl (expireOurs ctx) n else n).wallet =
      if lockOurReq then (dueOurs ctx n.wallet).foldl (Enigma.expireOurs env.toEnigmaEnv ctx)
        n.wallet else n.wallet := by
    split
    · exact wallet_foldl (fun _ _ => rfl) _ n
    · rfl
  unfold expireOldEnigma Enigma.expireOldEnigma
  dsimp only
  rw [← ho]
  split
  · exact wallet_foldl (wallet_expireOthers ctx) _ _
  · rfl

/-! ## What is due -/

def Due (r : CCloakingRequest) : Prop :=
  r.completed = false ∧ r.aborted = false ∧ r.isExpired ctx.now = true ∧
    ∃ io, n.wallet.mapCloakingInputsOutputs[r.getIdHash env.toEnigmaEnv]? = some io ∧
      io.lockedUntilBlock ≤ ctx.nBestHeight

def DueOther (id : Hash256) (r : CCloakingRequest) : Prop :=
  n.wallet.mapCloakingRequests[id]? = some r ∧ n.Due ctx r

def DueInputs (io : CCloakingInputsOutputs) : Prop :=
  (∃ id r, n.DueOther ctx id r ∧ n.wallet.mapCloakingInputsOutputs[r.getIdHash env.toEnigmaEnv]? = some io) ∨
    ∃ p ∈ dueOurs ctx n.wallet, n.wallet.mapCloakingInputsOutputs[p.2.getIdHash env.toEnigmaEnv]? = some io

def DuePeer (k : PubKeyHex) : Prop :=
  (∃ id r, n.DueOther ctx id r ∧ r.identifier.pubKeyHex = k) ∨
    ∃ p ∈ dueOurs ctx n.wallet, ∃ q ∈ p.2.sParticipants, q.pubKey = k ∧ k ∉ p.2.signedByAddresses

/-- Only what is due was changed. -/
structure Spares (n₀ n : EnigmaNode env) : Prop where
  requests : ∀ (id : Hash256) r, n₀.wallet.mapCloakingRequests[id]? = some r → ¬n₀.Due ctx r →
    n.wallet.mapCloakingRequests[id]? = some r
  coins : ∀ o, n.wallet.wallet.isReserved o ≠ n₀.wallet.wallet.isReserved o →
    ∃ io, n₀.DueInputs ctx io ∧ o ∈ io.vin.map CTxIn.prevout
  bans : ∀ k, n.bannedUntil k ≠ n₀.bannedUntil k → n₀.DuePeer ctx k

/-- Every open request is due. -/
def AllDue : Prop :=
  ∀ (id : Hash256) r, n.wallet.mapCloakingRequests[id]? = some r → r.aborted = false → n.Due ctx r

/-! ## One step -/

def Known (n₀ n : EnigmaNode env) : Prop :=
  ∀ (id : Hash256) io, n.wallet.mapCloakingInputsOutputs[id]? = some io →
    io.vin = [] ∨ n₀.wallet.mapCloakingInputsOutputs[id]? = some io ∨
      ∃ p ∈ dueOurs ctx n₀.wallet, n₀.wallet.mapCloakingInputsOutputs[p.2.getIdHash env.toEnigmaEnv]? = some io

structure Attributed (n₀ n : EnigmaNode env) : Prop extends Spares ctx n₀ n where
  known : Known ctx n₀ n

variable {ctx} {n₀ n n' : EnigmaNode env}

theorem Attributed.refl (n : EnigmaNode env) : Attributed ctx n n where
  requests _ _ h _ := h
  coins _ h := absurd rfl h
  bans _ h := absurd rfl h
  known _ _ h := .inr (.inl h)

theorem Attributed.freed (h : Attributed ctx n₀ n)
    (hd : ∀ io, n₀.wallet.mapCloakingInputsOutputs[id]? = some io → n₀.DueInputs ctx io)
    (ho : (freeInputs n.wallet id).wallet.isReserved o ≠ n₀.wallet.wallet.isReserved o) :
    ∃ io, n₀.DueInputs ctx io ∧ o ∈ io.vin.map CTxIn.prevout := by
  by_cases hs : n.wallet.wallet.isReserved o = n₀.wallet.wallet.isReserved o
  · -- the flag has just been cleared
    have hf := (freeInputs_spec n.wallet id).2.1 o
    have hr : Recorded n.wallet id o := by
      by_contra hn
      refine ho (Eq.trans ?_ hs)
      rw [Bool.eq_iff_iff, hf, and_iff_left hn]
    obtain ⟨io, hio, hm⟩ := hr
    rcases h.known id io hio with hni | ht | hou
    · rw [hni] at hm
      cases hm
    · exact ⟨io, hd io ht, hm⟩
    · exact ⟨io, .inr hou, hm⟩
  · exact h.coins o hs

theorem Attributed.banned (h : Attributed ctx n₀ n) (hk : n₀.DuePeer ctx k) :
    Attributed ctx n₀ (n.banPeer now secs k) where
  requests := h.requests
  coins := h.coins
  bans k' hk' := by
    by_cases he : k' = k
    · rwa [he]
    · have hs : (n.banPeer now secs k).bannedUntil k' = n.bannedUntil k' := Function.update_of_ne he _ _
      rw [hs] at hk'
      exact h.bans k' hk'
  known := h.known

theorem Attributed.banSilent (h : Attributed ctx n₀ n) (hp : p ∈ dueOurs ctx n₀.wallet) :
    Attributed ctx n₀ (n.banSilent ctx p.2) := by
  unfold EnigmaNode.banSilent
  split
  · refine List.foldlRecOn (motive := Attributed ctx n₀) p.2.sParticipants _ h fun m hm q hq => ?_
    split
    · rename_i hu
      exact hm.banned (.inr ⟨p, hp, q, hq, rfl, hu⟩)
    · exact hm
  · exact h

theorem Known.retry (h : Known ctx n₀ n) (hp : p ∈ dueOurs ctx n₀.wallet)
    (hw : n'.wallet = (retry env.toEnigmaEnv ctx.now ctx.transmit n.wallet (p.2.getIdHash env.toEnigmaEnv)).2) :
    Known ctx n₀ n' := by
  intro id io hio
  rw [hw] at hio
  unfold Enigma.retry at hio
  split at hio
  · rename_i moved req hm hr
    simp only [getElem?_erase, EnigmaWallet.setInOuts, getElem?_insert] at hio
    split at hio
    · cases hio
    split at hio
    · -- the moved inputs
      obtain rfl := some.inj hio
      rcases h _ moved hm with hn | ht | ho
      · exact .inl hn
      · exact .inr (.inr ⟨p, hp, ht⟩)
      · exact .inr (.inr ho)
    · exact h id io hio
  · exact h id io hio

theorem retry_wallet (env : EnigmaEnv) (now : Int) (transmit : Bool) (s : EnigmaWallet) (id : Hash256) :
    (retry env now transmit s id).2.wallet = s.wallet ∧
      (retry env now transmit s id).2.mapCloakingRequests = s.mapCloakingRequests := by
  unfold retry
  split
  · exact ⟨rfl, rfl⟩
  · exact ⟨rfl, rfl⟩

theorem Attributed.expireOurs (h : Attributed ctx n₀ n)
    (hp : p ∈ dueOurs ctx n₀.wallet) : Attributed ctx n₀ (n.expireOurs ctx p) := by
  have hb := (h.banSilent hp).bans
  by_cases hre : (p.2.autoRetry && p.2.shouldRetry) = true
  · have hw : (n.expireOurs ctx p).wallet =
        (retry env.toEnigmaEnv ctx.now ctx.transmit n.wallet (p.2.getIdHash env.toEnigmaEnv)).2 := if_pos hre
    obtain ⟨hc, hot⟩ := retry_wallet env.toEnigmaEnv ctx.now ctx.transmit n.wallet (p.2.getIdHash env.toEnigmaEnv)
    rw [← hw] at hc hot
    refine ⟨⟨fun id r hr hd => ?_, fun o ho => ?_, hb⟩, h.known.retry hp hw⟩
    · rw [hot]
      exact h.requests id r hr hd
    · rw [hc] at ho
      exact h.coins o ho
  · have hw : (n.expireOurs ctx p).wallet = freeInputs n.wallet (p.2.getIdHash env.toEnigmaEnv) := if_neg hre
    have hs := (freeInputs_spec n.wallet (p.2.getIdHash env.toEnigmaEnv)).2.2
    rw [← hw] at hs
    refine ⟨⟨fun id r hr hd => ?_, fun o ho => ?_, hb⟩, fun id io hio => ?_⟩
    · exact (hs id).others.trans (h.requests id r hr hd)
    · rw [hw] at ho
      exact h.freed (fun io hio => .inr ⟨p, hp, hio⟩) ho
    · exact h.known id io ((hs id).inOuts ▸ hio)

theorem shouldAbort_wallet (env : EnigmaEnv) (ctx : CloakerCtx) (s : EnigmaWallet) (r : CCloakingRequest) :
    (shouldAbort env ctx s r).2 = s ∨ (shouldAbort env ctx s r).2 = s.setInOuts (r.getIdHash env) {} := by
  unfold shouldAbort
  split
  · exact .inr rfl
  · exact .inl rfl

theorem Attributed.looked (h : Attributed ctx n₀ n) (r : CCloakingRequest) :
    Attributed ctx n₀ { n with wallet := (shouldAbort env.toEnigmaEnv ctx n.wallet r).2 } := by
  rcases shouldAbort_wallet env.toEnigmaEnv ctx n.wallet r with hs | hs
  · rw [hs]
    exact h
  rw [hs]
  refine ⟨⟨h.requests, h.coins, h.bans⟩, fun id io hio => ?_⟩
  simp only [EnigmaWallet.setInOuts, getElem?_insert] at hio
  split at hio
  · obtain rfl := some.inj hio
    exact .inl rfl
  · exact h.known id io hio

theorem Attributed.abortOther (h : Attributed ctx n₀ n) (hd : n₀.DueOther ctx id r) :
    Attributed ctx n₀ { n with wallet := abortOther env.toEnigmaEnv n.wallet id r } := by
  have hs := (freeInputs_spec n.wallet (r.getIdHash env.toEnigmaEnv)).2.2
  refine ⟨⟨fun id' r' hr' hn => ?_, fun o ho => ?_, h.bans⟩, fun id' io hio => ?_⟩
  · have hne : id' ≠ id := by
      rintro rfl
      rw [hd.1] at hr'
      obtain rfl := some.inj hr'
      exact hn hd.2
    exact (getElem?_insert_ne _ hne _).trans ((hs id').others.trans (h.requests id' r' hr' hn))
  · exact h.freed (fun io hio => .inl ⟨id, r, hd, hio⟩) ho
  · exact h.known id' io ((hs id').inOuts ▸ hio)

theorem Attributed.expireOthers (h : Attributed ctx n₀ n)
    (hd : p.2.aborted = false → n₀.DueOther ctx p.1 p.2) : Attributed ctx n₀ (n.expireOthers ctx p) := by
  unfold EnigmaNode.expireOthers
  dsimp only
  split
  · rename_i ha
    rw [Bool.and_eq_true, Bool.not_eq_true'] at ha
    have ho := hd ha.1
    exact ((h.looked p.2).abortOther ho).banned (.inl ⟨p.1, p.2, ho, rfl⟩)
  · exact h.looked p.2

/-! ## A whole run -/

theorem Attributed.ours (n : EnigmaNode env) (lockOurReq : Bool) :
    Attributed ctx n (if lockOurReq then (dueOurs ctx n.wallet).foldl (EnigmaNode.expireOurs ctx) n else n) := by
  split
  · exact List.foldlRecOn (motive := Attributed ctx n) _ _ (.refl n) fun m hm p hp => hm.expireOurs hp
  · exact .refl n

theorem expireOurs_others (n : EnigmaNode env) (p : Hash256 × CCloakingRequest) :
    (n.expireOurs ctx p).wallet.mapCloakingRequests = n.wallet.mapCloakingRequests := by
  change (Enigma.expireOurs env.toEnigmaEnv ctx n.wallet p).mapCloakingRequests = _
  unfold Enigma.expireOurs
  split
  · exact (retry_wallet env.toEnigmaEnv ctx.now ctx.transmit n.wallet _).2
  unfold freeInputs
  split
  · rfl
  · rfl

theorem ours_others (n : EnigmaNode env) (lockOurReq : Bool) :
    (if lockOurReq then (dueOurs ctx n.wallet).foldl (expireOurs ctx) n else n).wallet.mapCloakingRequests =
      n.wallet.mapCloakingRequests := by
  split
  · refine List.foldlRecOn (motive := fun m : EnigmaNode env =>
      m.wallet.mapCloakingRequests = n.wallet.mapCloakingRequests) (dueOurs ctx n.wallet) _ rfl fun m hm p _ => ?_
    exact (expireOurs_others m p).trans hm
  · rfl

theorem spares_of_allDue (h : n.AllDue ctx) (lockOurReq lockReq : Bool) :
    Spares ctx n (n.expireOldEnigma ctx lockOurReq lockReq) := by
  have ho : Attributed ctx n _ := .ours n lockOurReq
  unfold expireOldEnigma
  dsimp only
  rw [ours_others]
  split
  · refine (List.foldlRecOn (motive := Attributed ctx n) _ _ ho fun m hm p hp => hm.expireOthers fun ha => ?_).toSpares
    have hp' : n.wallet.mapCloakingRequests[p.1]? = some p.2 := mem_toList_iff_getElem?_eq_some.mp hp
    exact ⟨hp', h p.1 p.2 hp' ha⟩
  · exact ho.toSpares

theorem shouldAbort_of_height (hh : 0 ≤ ctx.nBestHeight) (s : EnigmaWallet) (r : CCloakingRequest) :
    (shouldAbort env.toEnigmaEnv ctx s r).1 = true := by
  unfold shouldAbort
  split
  · exact decide_eq_true hh
  · rfl

theorem expireOthers_requests (hh : 0 ≤ ctx.nBestHeight) (n : EnigmaNode env) (p : Hash256 × CCloakingRequest) :
    (n.expireOthers ctx p).wallet.mapCloakingRequests =
      if p.2.aborted then n.wallet.mapCloakingRequests
      else n.wallet.mapCloakingRequests.insert p.1 { p.2 with aborted := true } := by
  have hl : (shouldAbort env.toEnigmaEnv ctx n.wallet p.2).2.mapCloakingRequests = n.wallet.mapCloakingRequests := by
    rcases shouldAbort_wallet env.toEnigmaEnv ctx n.wallet p.2 with hs | hs
    · rw [hs]
    · rw [hs]
      rfl
  have hf : ∀ s id, (freeInputs s id).mapCloakingRequests = s.mapCloakingRequests := by
    intro s id
    unfold freeInputs
    split
    · rfl
    · rfl
  unfold expireOthers
  dsimp only
  rw [shouldAbort_of_height hh, Bool.and_true]
  cases ha : p.2.aborted with
  | true => exact hl
  | false =>
    change (freeInputs _ _).mapCloakingRequests.insert _ _ = _
    rw [hf, hl]
    rfl

theorem others_aborted (hh : 0 ≤ ctx.nBestHeight) (ha : r.aborted = false) :
    ∀ (l : List (Hash256 × CCloakingRequest)) (n : EnigmaNode env),
      ((id, r) ∈ l ∨ ∃ q, n.wallet.mapCloakingRequests[id]? = some q ∧ q.aborted = true) →
      ∃ q, (l.foldl (expireOthers ctx) n).wallet.mapCloakingRequests[id]? = some q ∧ q.aborted = true
  | [], n, h => by
    rcases h with hm | hq
    · cases hm
    · exact hq
  | p :: l, n, h => by
    refine others_aborted hh ha l _ ?_
    rw [expireOthers_requests hh]
    rcases h with hm | ⟨q, hq, hqa⟩
    · rcases List.mem_cons.mp hm with rfl | hm
      · rw [ha, if_neg Bool.false_ne_true]
        exact .inr ⟨_, getElem?_insert_self, rfl⟩
      · exact .inl hm
    · refine .inr ?_
      split
      · exact ⟨q, hq, hqa⟩
      rw [getElem?_insert]
      split
      · exact ⟨_, rfl, rfl⟩
      · exact ⟨q, hq, hqa⟩

theorem requests_aborted (hh : 0 ≤ ctx.nBestHeight) (lockOurReq : Bool)
    (hr : n.wallet.mapCloakingRequests[id]? = some r) (ha : r.aborted = false) :
    ∃ q, (n.expireOldEnigma ctx lockOurReq true).wallet.mapCloakingRequests[id]? = some q ∧ q.aborted = true := by
  unfold expireOldEnigma
  dsimp only
  rw [ours_others, if_pos rfl]
  exact others_aborted hh ha _ _ (.inl (mem_toList_iff_getElem?_eq_some.mpr hr))

end EnigmaNode

open EnigmaNode in
theorem expire_spares_iff (env : ShieldEnv) (ctx : CloakerCtx) (lockOurReq lockReq : Bool) (n : EnigmaNode env) :
    (lockReq = false ∨ n.AllDue ctx → Spares ctx n (n.expireOldEnigma ctx lockOurReq lockReq)) ∧
      (0 ≤ ctx.nBestHeight → Spares ctx n (n.expireOldEnigma ctx lockOurReq lockReq) →
        lockReq = false ∨ n.AllDue ctx) := by
  refine ⟨?_, fun hh hs => ?_⟩
  · rintro (rfl | hall)
    · exact (Attributed.ours n lockOurReq).toSpares
    · exact spares_of_allDue hall lockOurReq lockReq
  · cases lockReq with
    | false => exact .inl rfl
    | true =>
      refine .inr fun id r hr ha => ?_
      by_contra hdue
      obtain ⟨q, hq, hqa⟩ := requests_aborted hh lockOurReq hr ha
      rw [hs.requests id r hr hdue, some.injEq] at hq
      rw [← hq, ha] at hqa
      cases hqa

namespace Sample

noncomputable def lender : EnigmaNode shield where
  wallet := processRequest shield.toEnigmaEnv cloakerCtx cloaker otherRequest
  sCloakDataHashes := []
  mapEnigmaAnns := ∅
  anns_keyed := EnigmaNode.no_anns_keyed
  nCloakerCountAccepted := 0
  bannedUntil := fun _ => 0
  nMisbehavior := fun _ => 0

def later : CloakerCtx := { cloakerCtx with now := 100 }

theorem lender_allDue : lender.AllDue later := by
  have hli : lender.wallet.mapCloakingRequests.toList =
    [(otherRequest.getIdHash shield.toEnigmaEnv, otherRequest)] := by
    decide +kernel
  have hl : (lender.wallet.mapCloakingInputsOutputs[otherRequest.getIdHash shield.toEnigmaEnv]?).map
      CCloakingInputsOutputs.lockedUntilBlock = some 0 := by decide +kernel
  intro id r hr _
  have hm := mem_toList_iff_getElem?_eq_some.mpr hr
  rw [hli, List.mem_singleton, Prod.mk.injEq] at hm
  obtain ⟨io, hio, hz⟩ := map_eq_some_iff.mp hl
  rw [hm.2]
  exact ⟨rfl, rfl, by decide +kernel, io, hio, hz ▸ by decide +kernel⟩

end Sample

open Sample EnigmaNode in
theorem expire_spares_later : Spares later lender (lender.expireOldEnigma later true true) :=
  (expire_spares_iff shield later true true lender).1 (.inr lender_allDue)

open Sample EnigmaNode in
/-- A request that has not expired is aborted, its coin is free again and its sender banned. -/
theorem fresh_request_aborted :
    (lender.wallet.mapCloakingRequests[otherRequest.getIdHash shield.toEnigmaEnv]? = some otherRequest ∧
        otherRequest.isExpired cloakerCtx.now = false ∧ lender.wallet.wallet.isReserved ⟨1, 0⟩ = true ∧
        lender.bannedUntil 2 = 0) ∧
      let n := lender.expireOldEnigma cloakerCtx true true
      (n.wallet.mapCloakingRequests[otherRequest.getIdHash shield.toEnigmaEnv]?).map
        CCloakingRequest.aborted = some true ∧
        n.wallet.wallet.isReserved ⟨1, 0⟩ = false ∧ n.bannedUntil 2 = 125 := by
  refine ⟨⟨?_, ?_, ?_, rfl⟩, ?_, ?_, ?_⟩
  all_goals decide +kernel

end CloakCoin.Enigma
