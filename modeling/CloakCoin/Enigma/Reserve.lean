import CloakCoin.Lib.Reservation
import CloakCoin.Enigma.Cloaker

/-!
# Reserved coins

Coins are reserved for the requests we accept and for our own sends, and are free again when the
request ends. The flags are kept in the wallet transactions, the inputs in one map and the requests in
two others.
-/

namespace CloakCoin.Enigma

open Chain Lib Wallet List
open Std (ExtTreeMap)

variable {s s' : EnigmaWallet} {r : CCloakingRequest}

/-! ## The operations -/

section
variable (env : EnigmaEnv) (ctx : CloakerCtx)

def sentInOuts (setCoins : List COutput) (vout : List CTxOut) (nAmount : Nat) (nValueIn : Int) :
    CCloakingInputsOutputs :=
  { vin := setCoins.map fun coin => { prevout := coin.outPoint }
    vout := vout
    nSendAmount := nAmount
    nInputAmount := nValueIn }

def sendCloakedToAddress (s : EnigmaWallet) (nAmount : Nat) (numCloakers timeoutMins getTime : Int)
    (stealthRootKey : List UInt8) (vout : List CTxOut) : EnigmaWallet :=
  let vCoins := s.wallet.availableCoins ctx.view true
  let nBalance := (vCoins.map COutput.nValue).sum
  let nTotal := nAmount + env.totalReward nAmount + minTxFee * 20
  if (nAmount : Int) < minTxoutAmount then s -- amount too small
  else if ctx.isLocked then s
  else if (nAmount : Int) > nBalance ∨ nTotal > nBalance then s -- amount exceeds balance
  else
    match s.wallet.selectCoins .word nTotal getTime (ctx.shuffle.apply vCoins) ctx.rng with
    | none => s -- failed to select coins
    | some (setCoins, nValueIn) =>
      let req := createForBroadcast env ctx.now (numCloakers - 1) 1 (timeoutMins * 60) nAmount stealthRootKey
      let req := { req with senderAddress := ctx.enigmaAddress }
      -- whether the relay succeeds changes only the answer of the RPC
      sendEnigma env { s with wallet := (setCoins.map COutput.outPoint).foldl CWallet.reserveCoin s.wallet }
        (sentInOuts setCoins vout nAmount nValueIn) req

def abortOther (s : EnigmaWallet) (id : Hash256) (r : CCloakingRequest) : EnigmaWallet :=
  let s := freeInputs s (r.getIdHash env)
  { s with mapCloakingRequests := s.mapCloakingRequests.insert id { r with aborted := true } }

/-- Our offer has been rejected: `ENIGMA_MSG_CLOAKER_REJECTED`. -/
def cloakerRejected (s : EnigmaWallet) (requestHash : Hash256) : EnigmaWallet :=
  match s.mapCloakingRequests[requestHash]? with
  | none => s
  | some req => abortOther env s requestHash req

def shouldAbort (s : EnigmaWallet) (r : CCloakingRequest) : Bool × EnigmaWallet :=
  if !r.completed && !r.aborted && r.isExpired ctx.now && !s.mapCloakingInputsOutputs.contains (r.getIdHash env) then
    let inOuts : CCloakingInputsOutputs := {}
    (decide (ctx.nBestHeight ≥ inOuts.lockedUntilBlock), s.setInOuts (r.getIdHash env) inOuts)
  else (true, s)

def dueOurs (s : EnigmaWallet) : List (Hash256 × CCloakingRequest) :=
  s.mapOurCloakingRequests.toList.filter fun (_, req) =>
    decide (req.txid = none) && !req.completed && !req.aborted && req.isExpired ctx.now

def expireOurs (s : EnigmaWallet) (p : Hash256 × CCloakingRequest) : EnigmaWallet :=
  if p.2.autoRetry && p.2.shouldRetry then (retry env ctx.now ctx.transmit s (p.2.getIdHash env)).2
  else freeInputs s (p.2.getIdHash env)

def expireOthers (s : EnigmaWallet) (p : Hash256 × CCloakingRequest) : EnigmaWallet :=
  let (shouldAbort, s) := shouldAbort env ctx s p.2
  if !p.2.aborted && shouldAbort then abortOther env s p.1 p.2 else s

def expireOldEnigma (lockOurReq lockReq : Bool) (s : EnigmaWallet) : EnigmaWallet :=
  let s := if lockOurReq then (dueOurs ctx s).foldl (expireOurs env ctx) s else s
  if lockReq then s.mapCloakingRequests.toList.foldl (expireOthers env ctx) s else s

end

/-! ## The invariant -/

/-- The request is neither aborted nor completed. -/
def Live (s : EnigmaWallet) (id : Hash256) : Prop :=
  ∃ r, (s.mapOurCloakingRequests[id]? = some r ∨ s.mapCloakingRequests[id]? = some r) ∧
    r.aborted = false ∧ r.completed = false

/-- The coin is an input that was recorded for the request. -/
def Recorded (s : EnigmaWallet) (id : Hash256) (o : COutPoint) : Prop :=
  ∃ io, s.mapCloakingInputsOutputs[id]? = some io ∧ o ∈ io.vin.map CTxIn.prevout

/-- The flags of the wallet, and the live requests with their inputs. -/
def reservation (s : EnigmaWallet) : Reservation Hash256 COutPoint where
  reserved o := s.wallet.isReserved o = true
  holds id o := Live s id ∧ Recorded s id o

structure Keyed (env : EnigmaEnv) (s : EnigmaWallet) (id : Hash256) : Prop where
  ours : ∀ r, s.mapOurCloakingRequests[id]? = some r → r.getIdHash env = id ∧ r.completed = false ∧
    s.mapCloakingRequests[id]? = none ∧ s.mapCloakingInputsOutputs[id]? ≠ none
  others : ∀ r, s.mapCloakingRequests[id]? = some r → r.getIdHash env = id ∧ r.completed = false ∧
    s.mapCloakingInputsOutputs[id]? ≠ none

structure ReserveInv (env : EnigmaEnv) (s : EnigmaWallet) : Prop where
  keyed : ∀ id, Keyed env s id
  unspent : ∀ id o, (reservation s).holds id o → s.wallet.isSpentOutput o = false
  exact : (reservation s).Exact

structure Unused (s : EnigmaWallet) (id : Hash256) : Prop where
  ours : s.mapOurCloakingRequests[id]? = none
  others : s.mapCloakingRequests[id]? = none
  inOuts : s.mapCloakingInputsOutputs[id]? = none

structure SameAt (s s' : EnigmaWallet) (id : Hash256) : Prop where
  ours : s'.mapOurCloakingRequests[id]? = s.mapOurCloakingRequests[id]?
  others : s'.mapCloakingRequests[id]? = s.mapCloakingRequests[id]?
  inOuts : s'.mapCloakingInputsOutputs[id]? = s.mapCloakingInputsOutputs[id]?

section
variable {env : EnigmaEnv} {id id' : Hash256} {o : COutPoint}

theorem Live.of_ours (hr : s.mapOurCloakingRequests[id]? = some r) (ha : r.aborted = false)
    (hc : r.completed = false) : Live s id := ⟨r, .inl hr, ha, hc⟩

theorem Live.of_others (hr : s.mapCloakingRequests[id]? = some r) (ha : r.aborted = false)
    (hc : r.completed = false) : Live s id := ⟨r, .inr hr, ha, hc⟩

theorem not_live_of_none (hou : s.mapOurCloakingRequests[id]? = none) (ho : s.mapCloakingRequests[id]? = none) :
    ¬Live s id := by
  rintro ⟨r, hr | hr, -⟩
  · rw [hou] at hr
    cases hr
  · rw [ho] at hr
    cases hr

theorem recorded_iff (hio : s.mapCloakingInputsOutputs[id]? = some io) :
    Recorded s id o ↔ o ∈ io.vin.map CTxIn.prevout := by
  constructor
  · rintro ⟨io', hi', ho⟩
    rw [hio, Option.some.injEq] at hi'
    rwa [hi']
  · exact fun ho => ⟨io, hio, ho⟩

theorem Unused.keyed (h : Unused s id) : Keyed env s id := by
  refine ⟨fun r hr => ?_, fun r hr => ?_⟩
  · rw [h.ours] at hr
    cases hr
  · rw [h.others] at hr
    cases hr

theorem Unused.not_live (h : Unused s id) : ¬Live s id := not_live_of_none h.ours h.others

namespace SameAt

theorem holds_iff (h : SameAt s s' id) : (reservation s').holds id o ↔ (reservation s).holds id o := by
  simp only [reservation, Live, Recorded, h.ours, h.others, h.inOuts]

theorem keyed (h : SameAt s s' id) (hk : Keyed env s id) : Keyed env s' id := by
  refine ⟨fun r hr => ?_, fun r hr => ?_⟩
  · rw [h.ours] at hr
    rw [h.others, h.inOuts]
    exact hk.ours r hr
  · rw [h.others] at hr
    rw [h.inOuts]
    exact hk.others r hr

theorem unused (h : SameAt s s' id) (hu : Unused s id) : Unused s' id :=
  ⟨h.ours.trans hu.ours, h.others.trans hu.others, h.inOuts.trans hu.inOuts⟩

end SameAt

namespace ReserveInv

section
variable (h : ReserveInv env s)
include h

theorem congr (hw : s'.wallet = s.wallet) (hs : ∀ j, SameAt s s' j) : ReserveInv env s' where
  keyed j := (hs j).keyed (h.keyed j)
  unspent j o hj := by
    rw [hw]
    exact h.unspent j o ((hs j).holds_iff.mp hj)
  exact := h.exact.congr (fun o => by simp only [reservation, hw]) fun j o => (hs j).holds_iff

theorem opened {s' : EnigmaWallet} {io : CCloakingInputsOutputs} {value : Int}
    (hc : Chosen s.wallet (io.vin.map CTxIn.prevout) value)
    (hw : s'.wallet = (io.vin.map CTxIn.prevout).foldl CWallet.reserveCoin s.wallet) (hd : ¬Live s id)
    (hl : Live s' id) (hio : s'.mapCloakingInputsOutputs[id]? = some io) (hk : Keyed env s' id)
    (hr : ∀ j, j ≠ id → SameAt s s' j) : ReserveInv env s' := by
  obtain ⟨hs, hf⟩ := CWallet.foldl_reserveCoin_spec _ _ hc.has
  rw [← hw] at hs hf
  refine ⟨fun j => ?_, fun j o hj => ?_, ?_⟩
  · by_cases hj : j = id
    · rwa [hj]
    · exact (hr j hj).keyed (h.keyed j)
  · rw [hs.isSpentOutput]
    by_cases hji : j = id
    · subst hji
      exact hc.unspent o ((recorded_iff hio).mp hj.2)
    · exact h.unspent j o ((hr j hji).holds_iff.mp hj)
  · refine h.exact.open (i := id) (S := fun o => o ∈ io.vin.map CTxIn.prevout) ?_ ?_ ?_ ?_ ?_
    · intro o ho hre
      have hfr := hc.free o ho
      rw [show s.wallet.isReserved o = true from hre] at hfr
      cases hfr
    · exact fun o hh => hd hh.1
    · intro o
      show s'.wallet.isReserved o = true ↔ _ ∨ s.wallet.isReserved o = true
      rw [hf o, Bool.or_eq_true, decide_eq_true_eq]
    · intro o
      show Live s' id ∧ Recorded s' id o ↔ _
      rw [and_iff_right hl, recorded_iff hio]
    · exact fun j o hj => (hr j hj).holds_iff

theorem closed (hs : SameCoins s.wallet s'.wallet)
    (hf : ∀ o, s'.wallet.isReserved o = true ↔ s.wallet.isReserved o = true ∧ ¬Recorded s id o)
    (ho : ∀ o, Recorded s id o → s.wallet.isReserved o = true → Live s id)
    (hd : ¬Live s' id) (hk : Keyed env s' id) (hr : ∀ j, j ≠ id → SameAt s s' j) : ReserveInv env s' := by
  refine ⟨fun j => ?_, fun j o hj => ?_, ?_⟩
  · by_cases hj : j = id
    · rwa [hj]
    · exact (hr j hj).keyed (h.keyed j)
  · rw [hs.isSpentOutput]
    have hji : j ≠ id := by
      rintro rfl
      exact hd hj.1
    exact h.unspent j o ((hr j hji).holds_iff.mp hj)
  · refine h.exact.close (i := id) ?_ (fun o hh => hd hh.1) fun j o hj => (hr j hj).holds_iff
    intro o
    refine (hf o).trans (and_congr_right fun hre => not_congr ?_)
    exact ⟨fun hrec => ⟨ho o hrec hre, hrec⟩, fun hh => hh.2⟩

theorem renamed (hw : s'.wallet = s.wallet) (hl : Live s id) (hl' : Live s' id') (hu : Unused s id') (hg : Unused s' id)
    (hio : s'.mapCloakingInputsOutputs[id']? = s.mapCloakingInputsOutputs[id]?) (hk : Keyed env s' id')
    (hr : ∀ j, j ≠ id → j ≠ id' → SameAt s s' j) : ReserveInv env s' := by
  have hd : ¬Live s' id := hg.not_live
  have ho : ∀ o, (reservation s').holds id' o ↔ (reservation s).holds id o := fun o => by
    show Live s' id' ∧ Recorded s' id' o ↔ Live s id ∧ Recorded s id o
    rw [and_iff_right hl, and_iff_right hl', Recorded, Recorded, hio]
  refine ⟨fun j => ?_, fun j o hj => ?_, ?_⟩
  · by_cases hj' : j = id'
    · rwa [hj']
    by_cases hj : j = id
    · rw [hj]
      exact hg.keyed
    · exact (hr j hj hj').keyed (h.keyed j)
  · rw [hw]
    by_cases hj' : j = id'
    · subst hj'
      exact h.unspent id o ((ho o).mp hj)
    have hji : j ≠ id := by
      rintro rfl
      exact hd hj.1
    exact h.unspent j o ((hr j hji hj').holds_iff.mp hj)
  · refine h.exact.rename id id' ?_ (fun o => by simp only [reservation, hw]) ho
      (fun _ o hh => hd hh.1) fun j o hj hj' => (hr j hj hj').holds_iff
    exact fun o hh => hu.not_live hh.1

end

end ReserveInv

/-! ## What one operation preserves -/

theorem freeInputs_spec (s : EnigmaWallet) (id : Hash256) : SameCoins s.wallet (freeInputs s id).wallet ∧
      (∀ o, (freeInputs s id).wallet.isReserved o = true ↔ s.wallet.isReserved o = true ∧ ¬Recorded s id o) ∧
      ∀ j, SameAt s (freeInputs s id) j := by
  unfold freeInputs
  cases hio : s.mapCloakingInputsOutputs[id]? with
  | none =>
    refine ⟨.refl _, fun o => ?_, fun j => ⟨rfl, rfl, rfl⟩⟩
    rw [and_iff_left]
    rintro ⟨io, hi', -⟩
    rw [hio] at hi'
    cases hi'
  | some io =>
    obtain ⟨hs, hf⟩ := CWallet.foldl_freeCoin_spec (io.vin.map CTxIn.prevout) s.wallet
    refine ⟨hs, fun o => ?_, fun j => ⟨rfl, rfl, rfl⟩⟩
    rw [hf o, recorded_iff hio, Bool.and_eq_true, Bool.not_eq_true', decide_eq_false_iff_not, and_comm]

namespace ReserveInv

section
variable (h : ReserveInv env s)
include h

theorem processRequest (ctx : CloakerCtx) (r : CCloakingRequest)
    (hse : acceptsRequest env ctx s r = true → r.aborted = false ∧ r.completed = false) :
    ReserveInv env (processRequest env ctx s r) := by
  rcases processRequest_cases env ctx s r with hs | ⟨io, ho⟩
  · exact h.congr hs.wallet fun j => ⟨by rw [hs.ours], by rw [hs.others], by rw [hs.inOuts]⟩
  obtain ⟨hab, hc⟩ := hse ho.accepts
  obtain ⟨hou, hot⟩ : s.mapOurCloakingRequests[r.getIdHash env]? = none ∧
      s.mapCloakingRequests[r.getIdHash env]? = none := by
    have ha := ho.accepts
    simp only [acceptsRequest, Bool.and_eq_true, Bool.not_eq_true'] at ha
    obtain ⟨⟨⟨⟨⟨⟨hou, hot⟩, -⟩, -⟩, -⟩, -⟩, -⟩ := ha
    rw [← ExtTreeMap.isSome_getElem?_eq_contains, Option.isSome_eq_false_iff, Option.isNone_iff_eq_none] at hou hot
    exact ⟨hou, hot⟩
  have hm := ho.others
  generalize Enigma.processRequest env ctx s r = s' at ho hm ⊢
  have hst : s'.mapCloakingRequests[r.getIdHash env]? = some r := by
    rw [hm, ExtTreeMap.getElem?_insert_self]
  have hio : s'.mapCloakingInputsOutputs[r.getIdHash env]? = some io := by
    rw [ho.inOuts, ExtTreeMap.getElem?_insert_self]
  refine h.opened ho.chosen ho.wallet (not_live_of_none hou hot)
    (.of_others hst hab hc) hio ⟨fun q hq => ?_, fun q hq => ?_⟩ fun j hj => ⟨?_, ?_, ?_⟩
  · rw [ho.ours, hou] at hq
    cases hq
  · rw [hst, Option.some.injEq] at hq
    subst hq
    exact ⟨rfl, hc, by rw [hio]; exact Option.some_ne_none io⟩
  · rw [ho.ours]
  · rw [hm, getElem?_insert_ne _ hj]
  · rw [ho.inOuts, getElem?_insert_ne _ hj]

theorem sendEnigma {cr : CCloakingRequest} {value : Int} (hch : Chosen s.wallet (io.vin.map CTxIn.prevout) value)
    (hid : cr.getIdHash env = id) (ha : cr.aborted = false) (hc : cr.completed = false) (hu : Unused s id) :
    ReserveInv env (sendEnigma env
      { s with wallet := (io.vin.map CTxIn.prevout).foldl CWallet.reserveCoin s.wallet } io cr) := by
  have ho : s.mapOurCloakingRequests.contains id = false := by
    rw [← ExtTreeMap.isSome_getElem?_eq_contains, hu.ours, Option.isSome_none]
  have hi : s.mapCloakingInputsOutputs.contains id = false := by
    rw [← ExtTreeMap.isSome_getElem?_eq_contains, hu.inOuts, Option.isSome_none]
  unfold Enigma.sendEnigma
  simp only [hid, ho, EnigmaWallet.setOurRequest, hi, EnigmaWallet.setInOuts, Bool.false_eq_true, if_false]
  refine h.opened hch rfl hu.not_live (.of_ours ExtTreeMap.getElem?_insert_self ha hc)
    ExtTreeMap.getElem?_insert_self ⟨fun r hr => ?_, fun r hr => ?_⟩ fun j hj => ⟨?_, rfl, ?_⟩
  · rw [ExtTreeMap.getElem?_insert_self, Option.some.injEq] at hr
    subst hr
    exact ⟨hid, hc, hu.others, by rw [ExtTreeMap.getElem?_insert_self]; exact Option.some_ne_none io⟩
  · rw [hu.others] at hr
    cases hr
  · exact getElem?_insert_ne _ hj _
  · exact getElem?_insert_ne _ hj _

theorem sendCloakedToAddress (ctx : CloakerCtx) (nAmount : Nat) (numCloakers timeoutMins getTime : Int)
    (stealthRootKey : List UInt8) (vout : List CTxOut) (hu : Unused s (env.idHash ⟨env.myKey, ctx.now⟩)) :
    ReserveInv env
      (sendCloakedToAddress env ctx s nAmount numCloakers timeoutMins getTime stealthRootKey vout) := by
  unfold Enigma.sendCloakedToAddress
  dsimp only
  split
  · exact h
  split
  · exact h
  split
  · exact h
  split
  · exact h
  rename_i coins value hs
  have hc := CWallet.chosen_of_selectCoins (ctx.shuffle.perm _) hs
  have hv : coins.map COutput.outPoint = (sentInOuts coins vout nAmount value).vin.map CTxIn.prevout := by
    rw [sentInOuts, map_map]
    rfl
  rw [hv] at hc ⊢
  exact h.sendEnigma hc rfl rfl rfl hu

theorem cancelSend (how : ∀ o, Recorded s id o → s.wallet.isReserved o = true → Live s id) :
    ReserveInv env (cancelSend env s id) := by
  unfold Enigma.cancelSend
  cases hr : s.mapOurCloakingRequests[id]? with
  | none => exact h
  | some r =>
    obtain ⟨hid, hc, ho, hi⟩ := (h.keyed id).ours r hr
    obtain ⟨hco, hf, hs⟩ := freeInputs_spec s id
    dsimp only
    rw [hid]
    generalize hs' : (freeInputs s id).setOurRequest id { r with aborted := true } = s'
    have hst : s'.mapOurCloakingRequests[id]? = some { r with aborted := true } := by
      rw [← hs']
      exact ExtTreeMap.getElem?_insert_self
    have hn : s'.mapCloakingRequests[id]? = none := by
      rw [← hs']
      exact (hs id).others.trans ho
    have hre : ∀ j, j ≠ id → SameAt s s' j := by
      rw [← hs']
      exact fun j hj => ⟨(getElem?_insert_ne _ hj _).trans (hs j).ours, (hs j).others, (hs j).inOuts⟩
    have hio : s'.mapCloakingInputsOutputs[id]? = s.mapCloakingInputsOutputs[id]? := by
      rw [← hs']
      exact (hs id).inOuts
    have hw : s'.wallet = (freeInputs s id).wallet := by
      rw [← hs']
      rfl
    rw [← hw] at hco hf
    refine h.closed hco hf how ?_ ⟨fun q hq => ?_, fun q hq => ?_⟩ hre
    · rintro ⟨q, hq | hq, ha, -⟩
      · rw [hst, Option.some.injEq] at hq
        subst hq
        cases ha
      · rw [hn] at hq
        cases hq
    · rw [hst, Option.some.injEq] at hq
      subst hq
      exact ⟨hid, hc, hn, hio ▸ hi⟩
    · rw [hn] at hq
      cases hq

theorem abortOther (hr : s.mapCloakingRequests[id]? = some r)
    (how : ∀ o, Recorded s id o → s.wallet.isReserved o = true → Live s id) :
    ReserveInv env (abortOther env s id r) := by
  obtain ⟨hid, hc, hi⟩ := (h.keyed id).others r hr
  have ho : s.mapOurCloakingRequests[id]? = none := by
    cases hq : s.mapOurCloakingRequests[id]? with
    | none => rfl
    | some q =>
      have hn := ((h.keyed id).ours q hq).2.2.1
      rw [hr] at hn
      cases hn
  obtain ⟨hco, hf, hs⟩ := freeInputs_spec s id
  unfold Enigma.abortOther
  rw [hid]
  refine h.closed hco hf how ?_ ⟨fun q hq => ?_, fun q hq => ?_⟩
    fun j hj => ⟨(hs j).ours, (getElem?_insert_ne _ hj _).trans (hs j).others, (hs j).inOuts⟩
  · rintro ⟨q, hq | hq, ha, -⟩
    · rw [show _ = _ from (hs id).ours, ho] at hq
      cases hq
    · rw [ExtTreeMap.getElem?_insert_self, Option.some.injEq] at hq
      subst hq
      cases ha
  · rw [show _ = _ from (hs id).ours, ho] at hq
    cases hq
  · rw [ExtTreeMap.getElem?_insert_self, Option.some.injEq] at hq
    subst hq
    exact ⟨hid, hc, fun e => hi ((hs id).inOuts.symm.trans e)⟩

theorem cloakerRejected (ho : ∀ o, Recorded s id o → s.wallet.isReserved o = true → Live s id) :
    ReserveInv env (cloakerRejected env s id) := by
  unfold Enigma.cloakerRejected
  cases hr : s.mapCloakingRequests[id]? with
  | none => exact h
  | some r => exact h.abortOther hr ho

end

end ReserveInv

structure Moved (s s' : EnigmaWallet) (id id' : Hash256) (r' : CCloakingRequest) : Prop where
  wallet : s'.wallet = s.wallet
  gone : Unused s' id
  request : s'.mapOurCloakingRequests[id']? = some r'
  others : s'.mapCloakingRequests[id']? = none
  inOuts : s'.mapCloakingInputsOutputs[id']? = s.mapCloakingInputsOutputs[id]?
  rest : ∀ j, j ≠ id → j ≠ id' → SameAt s s' j

theorem retry_moved (transmit : Bool) (hr : s.mapOurCloakingRequests[id]? = some r)
    (ho : s.mapCloakingRequests[id]? = none) (hi : s.mapCloakingInputsOutputs[id]? ≠ none)
    (hu : Unused s ((r.retried now).getIdHash env)) :
    Moved s (retry env now transmit s id).2 id ((r.retried now).getIdHash env) (r.retried now) := by
  obtain ⟨io, hio⟩ := Option.ne_none_iff_exists'.mp hi
  have hne : (r.retried now).getIdHash env ≠ id := by
    intro e
    have hn := hu.ours
    rw [e, hr] at hn
    cases hn
  unfold retry
  simp only [hr, hio, EnigmaWallet.setOurRequest, EnigmaWallet.setInOuts]
  refine ⟨rfl, ⟨ExtTreeMap.getElem?_erase_self, ho, ExtTreeMap.getElem?_erase_self⟩, ?_, hu.others, ?_,
    fun j hj hj' => ⟨?_, rfl, ?_⟩⟩
  · rw [getElem?_erase_ne _ hne, ExtTreeMap.getElem?_insert_self]
  · rw [getElem?_erase_ne _ hne, ExtTreeMap.getElem?_insert_self, hio]
  · rw [getElem?_erase_ne _ hj, getElem?_insert_ne _ hj']
  · rw [getElem?_erase_ne _ hj, getElem?_insert_ne _ hj']

namespace ReserveInv

theorem retry (h : ReserveInv env s) {now : Int} (transmit : Bool) (hr : s.mapOurCloakingRequests[id]? = some r)
    (ha : r.aborted = false)
    (hu : Unused s ((r.retried now).getIdHash env)) : ReserveInv env (retry env now transmit s id).2 := by
  obtain ⟨-, hc, ho, hi⟩ := (h.keyed id).ours r hr
  have hm := retry_moved transmit hr ho hi hu
  refine h.renamed hm.wallet (.of_ours hr ha hc) (.of_ours hm.request rfl hc) hu
    hm.gone hm.inOuts ⟨fun q hq => ?_, fun q hq => ?_⟩ hm.rest
  · rw [hm.request, Option.some.injEq] at hq
    subst hq
    exact ⟨rfl, hc, hm.others, hm.inOuts ▸ hi⟩
  · rw [hm.others] at hq
    cases hq

theorem retryAll (ctx : CloakerCtx) : ∀ (due : List (Hash256 × CCloakingRequest)) {s : EnigmaWallet},
    ReserveInv env s → (due.map Prod.fst).Nodup → (due.map fun p => (p.2.retried ctx.now).getIdHash env).Nodup →
    (∀ p ∈ due, s.mapOurCloakingRequests[p.1]? = some p.2 ∧ p.2.aborted = false ∧
      (p.2.autoRetry && p.2.shouldRetry) = true ∧ Unused s ((p.2.retried ctx.now).getIdHash env)) →
    ReserveInv env (due.foldl (expireOurs env ctx) s)
  | [], s, h, _, _, _ => h
  | (id, r) :: due, s, h, hids, hnew, hal => by
    obtain ⟨hr, ha, hre, hu⟩ := hal (id, r) mem_cons_self
    obtain ⟨hid, -, ho, hi⟩ := (h.keyed id).ours r hr
    rw [map_cons, nodup_cons] at hids hnew
    have hm := retry_moved ctx.transmit hr ho hi hu
    rw [foldl_cons, expireOurs, if_pos hre, hid]
    refine retryAll ctx due (h.retry ctx.transmit hr ha hu) hids.2 hnew.2 fun p hp => ?_
    obtain ⟨hp1, hp2, hp3, hp4⟩ := hal p (mem_cons_of_mem _ hp)
    have hne : p.1 ≠ id := fun e => hids.1 (mem_map.mpr ⟨p, hp, e⟩)
    have hne' : p.1 ≠ (r.retried ctx.now).getIdHash env := by
      intro e
      rw [e, hu.ours] at hp1
      cases hp1
    have hnn : (p.2.retried ctx.now).getIdHash env ≠ id := by
      intro e
      have hn := hp4.ours
      rw [e, hr] at hn
      cases hn
    have hn' : (p.2.retried ctx.now).getIdHash env ≠ (r.retried ctx.now).getIdHash env :=
      fun e => hnew.1 (mem_map.mpr ⟨p, hp, e⟩)
    exact ⟨(hm.rest _ hne hne').ours.trans hp1, hp2, hp3, (hm.rest _ hnn hn').unused hp4⟩

theorem abortAll (ctx : CloakerCtx) : ∀ (reqs : List (Hash256 × CCloakingRequest)) {s : EnigmaWallet},
    ReserveInv env s → (reqs.map Prod.fst).Nodup → (∀ p ∈ reqs, s.mapCloakingRequests[p.1]? = some p.2) →
    ReserveInv env (reqs.foldl (expireOthers env ctx) s)
  | [], s, h, _, _ => h
  | (id, r) :: reqs, s, h, hids, hal => by
    have hr := hal (id, r) mem_cons_self
    obtain ⟨hid, hc, hi⟩ := (h.keyed id).others r hr
    rw [map_cons, nodup_cons] at hids
    have hs : shouldAbort env ctx s r = (true, s) := by
      have hco : s.mapCloakingInputsOutputs.contains id = true := by
        rw [← ExtTreeMap.isSome_getElem?_eq_contains, Option.isSome_iff_ne_none]
        exact hi
      rw [shouldAbort, hid, hco, Bool.not_true, Bool.and_false, if_neg Bool.false_ne_true]
    rw [foldl_cons]
    simp only [expireOthers, hs, Bool.and_true]
    cases ha : r.aborted with
    | true => exact abortAll ctx reqs h hids.2 fun p hp => hal p (mem_cons_of_mem _ hp)
    | false =>
      refine abortAll ctx reqs (h.abortOther hr fun _ _ _ => .of_others hr ha hc) hids.2 fun p hp => ?_
      have hne : p.1 ≠ id := fun e => hids.1 (mem_map.mpr ⟨p, hp, e⟩)
      exact ((getElem?_insert_ne _ hne _).trans ((freeInputs_spec s _).2.2 p.1).others).trans
        (hal p (mem_cons_of_mem _ hp))

theorem expireOldEnigma (h : ReserveInv env s) (ctx : CloakerCtx) (lockOurReq lockReq : Bool) (hd : lockOurReq = true →
      (∀ p ∈ dueOurs ctx s, (p.2.autoRetry && p.2.shouldRetry) = true ∧
        Unused s ((p.2.retried ctx.now).getIdHash env)) ∧
        ((dueOurs ctx s).map fun p => (p.2.retried ctx.now).getIdHash env).Nodup) :
    ReserveInv env (expireOldEnigma env ctx lockOurReq lockReq s) := by
  have ho : ReserveInv env (if lockOurReq then (dueOurs ctx s).foldl (expireOurs env ctx) s else s) := by
    cases lockOurReq with
    | false => exact h
    | true =>
      obtain ⟨ha, hn⟩ := hd rfl
      refine retryAll ctx _ h ?_ hn fun p hp => ?_
      · refine (filter_sublist.map Prod.fst).nodup ?_
        rw [ExtTreeMap.map_fst_toList_eq_keys]
        exact ExtTreeMap.nodup_keys
      · obtain ⟨hm, hl⟩ := mem_filter.mp hp
        simp only [Bool.and_eq_true, Bool.not_eq_true', decide_eq_true_eq] at hl
        obtain ⟨hr, hu⟩ := ha p hp
        exact ⟨ExtTreeMap.mem_toList_iff_getElem?_eq_some.mp hm, hl.1.2, hr, hu⟩
  cases lockReq with
  | false => exact ho
  | true =>
    refine abortAll ctx _ ho ?_ fun p hp => ExtTreeMap.mem_toList_iff_getElem?_eq_some.mp hp
    rw [ExtTreeMap.map_fst_toList_eq_keys]
    exact ExtTreeMap.nodup_keys

end ReserveInv

end

/-! ## Every run -/

/-- The operations that reserve or release coins, each with what it finds outside the wallet. -/
inductive ReserveOp where
  | processRequest (ctx : CloakerCtx) (r : CCloakingRequest)
  | sendCloakedToAddress (ctx : CloakerCtx) (nAmount : Nat) (numCloakers timeoutMins getTime : Int)
      (stealthRootKey : List UInt8) (vout : List CTxOut)
  | cancelSend (id : Hash256)
  | cloakerRejected (id : Hash256)
  | retry (now : Int) (transmit : Bool) (id : Hash256)
  | expireOldEnigma (ctx : CloakerCtx) (lockOurReq lockReq : Bool)

namespace ReserveOp

def exec (env : EnigmaEnv) (s : EnigmaWallet) : ReserveOp → EnigmaWallet
  | processRequest ctx r => Enigma.processRequest env ctx s r
  | sendCloakedToAddress ctx nAmount numCloakers timeoutMins getTime stealthRootKey vout =>
    Enigma.sendCloakedToAddress env ctx s nAmount numCloakers timeoutMins getTime stealthRootKey vout
  | cancelSend id => Enigma.cancelSend env s id
  | cloakerRejected id => Enigma.cloakerRejected env s id
  | retry now transmit id => (Enigma.retry env now transmit s id).2
  | expireOldEnigma ctx lockOurReq lockReq => Enigma.expireOldEnigma env ctx lockOurReq lockReq s

def MayAbort (s : EnigmaWallet) (id : Hash256) : Prop :=
  Live s id ∨ ∀ o, Recorded s id o → s.wallet.isReserved o = false

/-- What an operation relies on and does not check.

* A request that is accepted did not come in as an ended one; both flags are part of the message.
* Requests of ours get ids that are not in use; an id is made of our key and a time in seconds.
* A request is not aborted again once its inputs may be reserved for another one.
* A request of ours that ran out of time has a retry left. -/
def Safe (env : EnigmaEnv) (s : EnigmaWallet) : ReserveOp → Prop
  | processRequest ctx r =>
    acceptsRequest env ctx s r = true → r.aborted = false ∧ r.completed = false
  | sendCloakedToAddress ctx _ _ _ _ _ _ => Unused s (env.idHash ⟨env.myKey, ctx.now⟩)
  | cancelSend id => MayAbort s id
  | cloakerRejected id => MayAbort s id
  | retry now _ id => ∀ r, s.mapOurCloakingRequests[id]? = some r →
    r.aborted = false ∧ Unused s ((r.retried now).getIdHash env)
  | expireOldEnigma ctx lockOurReq _ => lockOurReq = true →
    (∀ p ∈ dueOurs ctx s, (p.2.autoRetry && p.2.shouldRetry) = true ∧ Unused s ((p.2.retried ctx.now).getIdHash env)) ∧
      ((dueOurs ctx s).map fun p => (p.2.retried ctx.now).getIdHash env).Nodup

theorem MayAbort.live {id : Hash256} (h : MayAbort s id) (o : COutPoint) (hre : Recorded s id o)
    (hr : s.wallet.isReserved o = true) : Live s id := by
  rcases h with hl | hf
  · exact hl
  · rw [hf o hre] at hr
    cases hr

end ReserveOp

/-- Runs of the operations, each meeting the condition `ok`. -/
inductive ReserveRun (env : EnigmaEnv) (ok : EnigmaWallet → ReserveOp → Prop) (s₀ : EnigmaWallet) : EnigmaWallet → Prop
  | init : ReserveRun env ok s₀ s₀
  | step {s : EnigmaWallet} (h : ReserveRun env ok s₀ s) (op : ReserveOp) (hop : ok s op) :
    ReserveRun env ok s₀ (op.exec env s)

theorem ReserveInv.exec {env : EnigmaEnv} (h : ReserveInv env s) (op : ReserveOp)
    (hop : op.Safe env s) : ReserveInv env (op.exec env s) := by
  cases op with
  | processRequest ctx r => exact h.processRequest ctx r hop
  | sendCloakedToAddress ctx nAmount numCloakers timeoutMins getTime stealthRootKey vout =>
    exact h.sendCloakedToAddress ctx nAmount numCloakers timeoutMins getTime stealthRootKey vout hop
  | cancelSend id => exact h.cancelSend (ReserveOp.MayAbort.live hop)
  | cloakerRejected id => exact h.cloakerRejected (ReserveOp.MayAbort.live hop)
  | retry now transmit id =>
    cases hr : s.mapOurCloakingRequests[id]? with
    | none =>
      have hs : (Enigma.retry env now transmit s id).2 = s := by simp [Enigma.retry, hr]
      rw [ReserveOp.exec, hs]
      exact h
    | some r =>
      obtain ⟨ha, hu⟩ := hop r hr
      exact h.retry transmit hr ha hu
  | expireOldEnigma ctx lockOurReq lockReq => exact h.expireOldEnigma ctx lockOurReq lockReq hop

/-- No request and no reserved coin. -/
structure Idle (s : EnigmaWallet) : Prop where
  ours : ∀ id : Hash256, s.mapOurCloakingRequests[id]? = none
  others : ∀ id : Hash256, s.mapCloakingRequests[id]? = none
  free : ∀ o, s.wallet.isReserved o = false

theorem Idle.reserveInv {env : EnigmaEnv} (h : Idle s) : ReserveInv env s := by
  have hd : ∀ id, ¬Live s id := fun id => not_live_of_none (h.ours id) (h.others id)
  refine ⟨fun id => ⟨fun r hr => ?_, fun r hr => ?_⟩, fun id o hh => absurd hh.1 (hd id), ⟨fun o => ?_, ?_⟩⟩
  · rw [h.ours] at hr
    cases hr
  · rw [h.others] at hr
    cases hr
  · constructor
    · intro hre
      have hf := h.free o
      rw [show s.wallet.isReserved o = true from hre] at hf
      cases hf
    · rintro ⟨id, hh⟩
      exact absurd hh.1 (hd id)
  · exact fun {i j o} hi _ => absurd hi.1 (hd i)

theorem ReserveRun.reserveInv {env : EnigmaEnv} {s0 : EnigmaWallet} (h0 : Idle s0)
    (h : ReserveRun env (fun s op => op.Safe env s) s0 s) : ReserveInv env s := by
  induction h with
  | init => exact h0.reserveInv
  | step _ op hop ih => exact ih.exec op hop

/-- **Reservations are exact** in every state that safe operations reach. -/
theorem reservations_exact (env : EnigmaEnv) (s₀ s : EnigmaWallet) (h₀ : Idle s₀)
    (hrun : ReserveRun env (fun s op => op.Safe env s) s₀ s) : (∀ o, s.wallet.isReserved o = true ↔
      s.wallet.isSpentOutput o = false ∧ ∃! id, Live s id ∧ Recorded s id o) ∧
    (∀ o id id', Live s id → Recorded s id o → Live s id' → Recorded s id' o → id = id') := by
  have hinv := hrun.reserveInv h₀
  refine ⟨fun o => ?_, fun o id id' hl hr hl' hr' => hinv.exact.unique ⟨hl, hr⟩ ⟨hl', hr'⟩⟩
  constructor
  · intro hre
    obtain ⟨id, hh, hu⟩ := (hinv.exact.existsUnique o).mp hre
    exact ⟨hinv.unspent id o hh, id, hh, hu⟩
  · rintro ⟨-, hh⟩
    exact (hinv.exact.existsUnique o).mpr hh

namespace Sample

def otherRequest : CCloakingRequest :=
  { identifier := ⟨2, 1⟩, nSendAmount := (4 * coin - minTxoutAmount).toNat, nParticipantsRequired := 1 }

noncomputable def offered (aborted : Bool) : EnigmaWallet :=
  processRequest (env []) cloakerCtx cloaker { otherRequest with aborted := aborted }

theorem cloaker_idle : Idle cloaker := by
  refine ⟨fun id => ?_, fun id => ?_, fun o => ?_⟩
  · exact ExtTreeMap.getElem?_empty
  · exact ExtTreeMap.getElem?_empty
  · show Option.any _ ((∅ : ExtTreeMap Hash256 CWalletTx).insert 1 { tx := funding })[o.hash]? = false
    rw [ExtTreeMap.getElem?_insert]
    split
    · simp [CWalletTx.isEnigmaReserved]
    · simp

end Sample

open Sample in
theorem reservations_exact_offered : (offered false).wallet.isReserved ⟨1, 0⟩ = true ∧
    ∃! id, Live (offered false) id ∧ Recorded (offered false) id ⟨1, 0⟩ := by
  have hr : (offered false).wallet.isReserved ⟨1, 0⟩ = true := by decide
  have hrun : ReserveRun (env []) (fun s op => op.Safe (env []) s) cloaker (offered false) :=
    ReserveRun.init.step (.processRequest cloakerCtx otherRequest) fun _ => ⟨rfl, rfl⟩
  exact ⟨hr, (((reservations_exact (env []) cloaker (offered false) cloaker_idle hrun).1 _).mp hr).2⟩

open Sample in
/-- A request comes in with its `aborted` flag set: the coin is reserved, and no request is live. -/
theorem reserved_for_ended_request : Idle cloaker ∧ ReserveRun (env []) (fun _ _ => True) cloaker (offered true) ∧
      (offered true).wallet.isReserved ⟨1, 0⟩ = true ∧ ∀ id, ¬Live (offered true) id := by
  have hou : (offered true).mapOurCloakingRequests.isEmpty = true := by decide
  have ho : (offered true).mapCloakingRequests.toList.all (fun p => p.2.aborted) = true := by decide
  refine ⟨cloaker_idle, ?_, by decide, ?_⟩
  · exact ReserveRun.init.step (.processRequest cloakerCtx { otherRequest with aborted := true }) trivial
  · rintro id ⟨r, hr | hr, ha, -⟩
    · rw [ExtTreeMap.isEmpty_iff.mp hou, ExtTreeMap.getElem?_empty] at hr
      cases hr
    · rw [all_eq_true.mp ho _ (ExtTreeMap.mem_toList_iff_getElem?_eq_some.mpr hr)] at ha
      cases ha

end CloakCoin.Enigma
