import CloakCoin.Enigma.GiveUp
import CloakCoin.Enigma.Submit

/-!
# Locking the wallet again after a send

The wallet is unlocked for an Enigma send and locked again by `ExpireOldEnigma`, in the first run after
`minEnigmaRelockTime` in which no request is retried. A request that has not run out of time is not
retried either, so such a run does not see it.
-/

namespace CloakCoin.Enigma

open Chain Lib Wallet
open Std (ExtTreeMap)
open List

variable {s : EnigmaWallet} {ctx : CloakerCtx}

/-! ## The lock -/

structure RelockNode (env : ShieldEnv) where
  node : EnigmaNode env
  isLocked : Bool
  shouldRelockAfterEnigmaSend : Bool
  minEnigmaRelockTime : Int

def numActiveRequests (ctx : CloakerCtx) (s : EnigmaWallet) : Nat :=
  (dueOurs ctx s).countP fun p => p.2.autoRetry && p.2.shouldRetry

namespace RelockNode

def wallet (n : RelockNode env) : EnigmaWallet := n.node.wallet

def requestUnlock (leaveUnlockedForMinting : Bool) (enigmaRelockTime : Int)
    (mintOnly unlocks : Bool) (n : RelockNode env) :
    RelockNode env :=
  let wasLocked := n.isLocked
  { n with
    isLocked := if wasLocked || mintOnly then !unlocks else n.isLocked
    shouldRelockAfterEnigmaSend := if wasLocked && leaveUnlockedForMinting then true else n.shouldRelockAfterEnigmaSend
    minEnigmaRelockTime := enigmaRelockTime }

def relocks (ctx : CloakerCtx) (lockOurReq : Bool) (n : RelockNode env) : Bool :=
  lockOurReq && n.shouldRelockAfterEnigmaSend && decide (n.minEnigmaRelockTime ≤ ctx.now) &&
    decide (numActiveRequests ctx n.wallet = 0)

def expireOldEnigma (ctx : CloakerCtx) (lockOurReq lockReq : Bool) (n : RelockNode env) : RelockNode env :=
  let locks := n.relocks ctx lockOurReq
  { n with
    node := n.node.expireOldEnigma ctx lockOurReq lockReq
    isLocked := locks || n.isLocked
    shouldRelockAfterEnigmaSend := n.shouldRelockAfterEnigmaSend && !locks }

end RelockNode

/-- What the user and the network do. `now` is the time of a send; `setWalletLocked` is every other way to
lock or unlock. -/
inductive RelockEvent where
  | requestUnlock (leaveUnlockedForMinting : Bool) (enigmaRelockTime : Int) (mintOnly unlocks : Bool)
  | setWalletLocked (locked : Bool)
  | send (send : Send) (inputsOutputs : CCloakingInputsOutputs) (now : Int)
  | cancel (id : Hash256)
  | packet (d : Delivery)
  | expire (ctx : CloakerCtx) (lockOurReq lockReq : Bool)

namespace RelockEvent

def step (e : RelockEvent) (n : RelockNode env) : RelockNode env :=
  match e with
  | requestUnlock leaveUnlockedForMinting enigmaRelockTime mintOnly unlocks =>
    n.requestUnlock leaveUnlockedForMinting enigmaRelockTime mintOnly unlocks
  | setWalletLocked locked => { n with isLocked := locked }
  | send p io now =>
    let r := p.createForBroadcast env.toEnigmaEnv now
    { n with node := { n.node with wallet := sendEnigma env.toEnigmaEnv n.wallet io r } }
  | cancel id => { n with node := { n.node with wallet := cancelSend env.toEnigmaEnv n.wallet id } }
  | packet d => { n with node := n.node.receive d }
  | expire ctx lockOurReq lockReq => n.expireOldEnigma ctx lockOurReq lockReq

end RelockEvent

/-! ## Live requests -/

def Unfinished (r : CCloakingRequest) : Prop := r.completed = false ∧ r.aborted = false

def StillLive (now : Int) (r : CCloakingRequest) : Prop :=
  Unfinished r ∧ (r.isExpired now = false ∨ (r.autoRetry && r.shouldRetry) = true)

/-- If the run locks the wallet, no request of ours is live then. -/
def RelockEvent.SparesLive {env : ShieldEnv} (n : RelockNode env) : RelockEvent → Prop
  | expire ctx lockOurReq lockReq => n.relocks ctx lockOurReq = true → ∀ (id : Hash256) r,
    (n.expireOldEnigma ctx lockOurReq lockReq).wallet.mapOurCloakingRequests[id]? = some r → ¬StillLive ctx.now r
  | _ => True

/-- The wallet is locked only when all unfinished requests have expired. -/
def RelockEvent.OnlyExpired {env : ShieldEnv} (n : RelockNode env) : RelockEvent → Prop
  | expire ctx lockOurReq _ => n.relocks ctx lockOurReq = true → ∀ (id : Hash256) r,
    n.wallet.mapOurCloakingRequests[id]? = some r → Unfinished r → r.isExpired ctx.now = true
  | _ => True

/-! ## A request with a transaction is completed -/

/-- An unfinished request of ours has no transaction. -/
def NoOpenTx (s : EnigmaWallet) : Prop :=
  ∀ (id : Hash256) r, s.mapOurCloakingRequests[id]? = some r → r.completed = false → r.txid = none

namespace NoOpenTx

section
variable (h : NoOpenTx s)
include h

theorem continued (hc : Continued s s') : NoOpenTx s' := by
  intro id r' hr'
  obtain ⟨r, hr, hc⟩ := hc.getElem? hr'
  exact hc.unfinished (h id r hr)

theorem set {id : Hash256} (hr : r.completed = false → r.txid = none) : NoOpenTx (s.setOurRequest id r) := by
  intro j q hq
  rw [EnigmaWallet.setOurRequest, ExtTreeMap.getElem?_insert] at hq
  split at hq
  · rwa [← Option.some.inj hq]
  · exact h j q hq

theorem sendEnigma (io : CCloakingInputsOutputs) {r : CCloakingRequest} (hr : r.txid = none) :
    NoOpenTx (sendEnigma env s io r) := by
  have hs : NoOpenTx (if s.mapOurCloakingRequests.contains (r.getIdHash env) then s
      else s.setOurRequest (r.getIdHash env) r) := by
    split
    · exact h
    · exact h.set fun _ => hr
  unfold Enigma.sendEnigma
  dsimp only
  generalize (if s.mapOurCloakingRequests.contains (r.getIdHash env) then s
    else s.setOurRequest (r.getIdHash env) r) = s' at hs
  split
  · exact hs
  · exact hs

theorem freeInputs (id : Hash256) : NoOpenTx (freeInputs s id) := by
  intro j r hr
  rw [((freeInputs_spec s id).2.2 j).ours] at hr
  exact h j r hr

theorem cancelSend (id : Hash256) : NoOpenTx (cancelSend env s id) := by
  unfold Enigma.cancelSend
  split
  · exact h
  · rename_i r hr
    exact (h.freeInputs _).set (h id r hr)

theorem retry (now : Int) (transmit : Bool) (old : Hash256) : NoOpenTx (retry env now transmit s old).2 := by
  unfold Enigma.retry
  split
  · rename_i inOuts req _ hre
    intro j r hr
    rw [ExtTreeMap.getElem?_erase] at hr
    split at hr
    · cases hr
    · have hs : NoOpenTx (s.setOurRequest ((req.retried now).getIdHash env) (req.retried now)) := h.set (h old req hre)
      exact hs j r hr
  · exact h

theorem expireOldEnigma (ctx : CloakerCtx) (lockOurReq lockReq : Bool) :
    NoOpenTx (expireOldEnigma env ctx lockOurReq lockReq s) := by
  have ho : NoOpenTx (if lockOurReq then (dueOurs ctx s).foldl (expireOurs env ctx) s else s) := by
    split
    · refine List.foldlRecOn (motive := NoOpenTx) _ _ h fun m hm p _ => ?_
      unfold expireOurs
      split
      · exact hm.retry _ _ _
      · exact hm.freeInputs _
    · exact h
  unfold Enigma.expireOldEnigma
  dsimp only
  split
  · refine List.foldlRecOn (motive := NoOpenTx) _ _ ho fun m hm p _ j r hr => ?_
    rw [expireOthers_ours] at hr
    exact hm j r hr
  · exact ho

end

end NoOpenTx

theorem NoOpenTx.step (h : NoOpenTx n.wallet) (e : RelockEvent) : NoOpenTx (e.step n).wallet := by
  cases e with
  | requestUnlock leaveUnlockedForMinting enigmaRelockTime mintOnly unlocks => exact h
  | setWalletLocked locked => exact h
  | send p io now => exact h.sendEnigma io rfl
  | cancel id => exact h.cancelSend id
  | packet d => exact h.continued (.of_messageStep (n.node.receive_messageStep d))
  | expire ctx lockOurReq lockReq =>
    show NoOpenTx (n.node.expireOldEnigma ctx lockOurReq lockReq).wallet
    rw [EnigmaNode.wallet_expireOldEnigma]
    exact h.expireOldEnigma ctx lockOurReq lockReq

/-! ## The run that locks -/

section

theorem not_retried_of_numActive (h : numActiveRequests ctx s = 0) :
    ∀ p ∈ dueOurs ctx s, (p.2.autoRetry && p.2.shouldRetry) = false := by
  intro p hp
  rw [numActiveRequests, countP_eq_zero] at h
  exact Bool.eq_false_of_not_eq_true (h p hp)

theorem expireOldEnigma_ours {env : EnigmaEnv} (h : numActiveRequests ctx s = 0)
    (lockOurReq lockReq : Bool) (id : Hash256) :
    (expireOldEnigma env ctx lockOurReq lockReq s).mapOurCloakingRequests[id]? = s.mapOurCloakingRequests[id]? := by
  have ho : (if lockOurReq then (dueOurs ctx s).foldl (expireOurs env ctx) s else s).mapOurCloakingRequests[id]? =
      s.mapOurCloakingRequests[id]? := by
    split
    · refine List.foldlRecOn (motive := fun m : EnigmaWallet =>
        m.mapOurCloakingRequests[id]? = s.mapOurCloakingRequests[id]?) _ _ rfl fun m hm p hp => ?_
      rw [expireOurs, not_retried_of_numActive h p hp, if_neg Bool.false_ne_true,
        ((freeInputs_spec m (p.2.getIdHash env)).2.2 id).ours, hm]
    · rfl
  unfold expireOldEnigma
  dsimp only
  split
  · refine List.foldlRecOn (motive := fun m : EnigmaWallet =>
      m.mapOurCloakingRequests[id]? = s.mapOurCloakingRequests[id]?) _ _ ho fun m hm p _ => ?_
    rw [expireOthers_ours, hm]
  · exact ho

theorem RelockNode.numActive_of_relocks {n : RelockNode env} (h : n.relocks ctx lockOurReq = true) :
    numActiveRequests ctx n.wallet = 0 := by
  rw [relocks, Bool.and_eq_true, decide_eq_true_eq] at h
  exact h.2

theorem RelockEvent.sparesLive_iff (h : NoOpenTx n.wallet) (e : RelockEvent) : e.SparesLive n ↔ e.OnlyExpired n := by
  cases e with
  | expire ctx lockOurReq lockReq =>
    refine forall_congr' fun hl => forall_congr' fun id => forall_congr' fun r => ?_
    have hi := n.numActive_of_relocks hl
    have hs : (n.expireOldEnigma ctx lockOurReq lockReq).wallet.mapOurCloakingRequests[id]? =
        n.wallet.mapOurCloakingRequests[id]? := by
      show (n.node.expireOldEnigma ctx lockOurReq lockReq).wallet.mapOurCloakingRequests[id]? = _
      rw [EnigmaNode.wallet_expireOldEnigma]
      exact expireOldEnigma_ours hi lockOurReq lockReq id
    rw [hs]
    refine forall_congr' fun hr => ?_
    constructor
    · intro hd ho
      by_contra he
      exact hd ⟨ho, .inl (Bool.eq_false_of_not_eq_true he)⟩
    · rintro he ⟨ho, ht | hre⟩
      · rw [he ho] at ht
        cases ht
      · -- the request is due, and would have been retried
        have hdu : (id, r) ∈ dueOurs ctx n.wallet :=
          mem_dueOurs.mpr ⟨hr, h id r hr ho.1, ho.1, ho.2, he ho⟩
        rw [not_retried_of_numActive hi _ hdu] at hre
        cases hre
  | requestUnlock leaveUnlockedForMinting enigmaRelockTime mintOnly unlocks => exact Iff.rfl
  | setWalletLocked locked => exact Iff.rfl
  | send p io now => exact Iff.rfl
  | cancel id => exact Iff.rfl
  | packet d => exact Iff.rfl

end

theorem NoOpenTx.trace (h0 : NoOpenTx n0.wallet) (hr : Trace RelockEvent.step ok n0 l n) :
    NoOpenTx n.wallet ∧ ∀ x ∈ l, NoOpenTx x.1.wallet := by
  induction hr with
  | start => exact ⟨h0, fun x hx => by cases hx⟩
  | step e _ _ ih =>
    refine ⟨ih.1.step e, fun x hx => ?_⟩
    rcases mem_append.mp hx with hx | hx
    · exact ih.2 x hx
    · rw [mem_singleton.mp hx]
      exact ih.1

theorem relock_spares_live_iff (env : ShieldEnv) (n₀ n : RelockNode env) (l : List (RelockNode env × RelockEvent))
    (h₀ : NoOpenTx n₀.wallet) (hrun : Trace RelockEvent.step (fun _ _ => True) n₀ l n) :
    (∀ x ∈ l, x.2.SparesLive x.1) ↔ ∀ x ∈ l, x.2.OnlyExpired x.1 :=
  forall₂_congr fun x hx => x.2.sparesLive_iff ((h₀.trace hrun).2 x hx)

namespace Sample

noncomputable def lockedNode : RelockNode shield where
  node := { lastTry false with wallet := idle }
  isLocked := true
  shouldRelockAfterEnigmaSend := false
  minEnigmaRelockTime := 0

noncomputable def unlockedNode : RelockNode shield where
  node := lastTry false
  isLocked := false
  shouldRelockAfterEnigmaSend := true
  minEnigmaRelockTime := 61

theorem lastTry_noOpenTx : NoOpenTx (lastTry false).wallet := by
  apply NoOpenTx.continued _ (.accept ctx offer)
  intro id r hr _
  simp only [wallet, foldl_cons, foldl_nil, ExtTreeMap.getElem?_insert, ExtTreeMap.getElem?_empty] at hr
  split_ifs at hr
  rw [← Option.some.inj hr]
  rfl

end Sample

open Sample in
/-- The wallet is locked at 100, when the last try has run out of time. -/
theorem relock_spares_live_last_try : unlockedNode.relocks later true = true ∧
      ∀ (id : Hash256) r, (unlockedNode.expireOldEnigma later true true).wallet.mapOurCloakingRequests[id]? = some r →
        ¬StillLive later.now r := by
  have hl : unlockedNode.relocks later true = true := by decide +kernel
  have hli : (unlockedNode.wallet.mapOurCloakingRequests.toList.all fun p => p.2.isExpired later.now) = true := by
    decide +kernel
  have hrun : Trace RelockEvent.step (fun _ _ => True) unlockedNode [(unlockedNode, RelockEvent.expire later true true)]
      (unlockedNode.expireOldEnigma later true true) :=
    .step (RelockEvent.expire later true true) .start trivial
  refine ⟨hl, (relock_spares_live_iff shield unlockedNode _ _ lastTry_noOpenTx hrun).mpr ?_ _ mem_cons_self hl⟩
  intro x hx
  rw [mem_singleton.mp hx]
  intro _ id r hr _
  exact all_eq_true.mp hli (id, r) (ExtTreeMap.mem_toList_iff_getElem?_eq_some.mpr hr)

open Sample in
/-- The wallet is unlocked for a send at 1 that times out after a minute. At 62 the send is retried, and at 63 the
wallet is locked although the second try has hardly begun. -/
theorem relock_during_retry : let unlocked := RelockEvent.step (.requestUnlock true 61 false true) lockedNode
    let sent := RelockEvent.step (.send send Sample.sendInOuts 1) unlocked
    let retried := RelockEvent.step (.expire { later with now := 62 } true true) sent
    sent.relocks { later with now := 62 } true = false ∧ retried.relocks { later with now := 63 } true = true ∧
      ((retried.expireOldEnigma { later with now := 63 } true
        true).wallet.mapOurCloakingRequests[(6201 : Hash256)]?).any
        (fun r => !r.completed && !r.aborted && !r.isExpired 63) = true := by
  refine ⟨?_, ?_, ?_⟩
  all_goals decide +kernel

end CloakCoin.Enigma
