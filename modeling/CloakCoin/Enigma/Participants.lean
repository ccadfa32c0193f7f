import CloakCoin.Enigma.Quorum
import CloakCoin.Enigma.Sample

/-!
# The participants of a request

`ProcessAcceptResponse` puts a participant into `sParticipants`, a set ordered by the hash of the whole
participant, once `CheckValid` has looked at the inputs. `CheckValid` does not read `vSpent`, does not
compare outpoints, also finds transactions of the memory pool, and bans without refusing when the
inputs are worth too little. `ParticipantsValid` holds along every run whose responses bring what `CheckValid`
leaves open (`Admissible`).
-/

namespace CloakCoin.Enigma

open Chain Lib
open Std (ExtTreeMap)
open List

variable {src : TxSource} {r' : CCloakingRequest}

/-! ## Outputs in the transaction index -/

def Unspent (src : TxSource) (o : COutPoint) : Prop :=
  ∃ txindex txPrev, src.readTxIndex o.hash = some txindex ∧ src.prevTx o.hash txindex = some txPrev ∧
    o.n < txPrev.vout.length ∧ txindex.vSpent[o.n]? = some .null

/-- What the inputs are worth by the transaction index. -/
def totalIn (src : TxSource) (vin : List CTxIn) : Int :=
  (vin.map fun txin => src.spentValue src.readTxIndex txin.prevout.key).sum

section
variable {env : EnigmaEnv} {ctx : EnigmaCtx}

theorem checkValid_spec (h : checkValid env ctx io = some io')
    (hi : ∀ txin ∈ io.vin, Unspent ctx.toTxSource txin.prevout) :
    io'.vin = io.vin ∧ io'.nInputAmount = totalIn ctx.toTxSource io.vin := by
  unfold checkValid at h
  dsimp only at h
  split at h
  · rename_i mapInputs hf
    obtain ⟨nValueIn, hfo, rfl⟩ := Option.map_eq_some_iff.mp h
    refine ⟨rfl, (foldlM_getOutputFor io.vin (fun txin hm out ho => ?_) (foldlM_checkInput _ hfo)).trans
      (zero_add _)⟩
    obtain ⟨p, hin, hg⟩ := Option.bind_eq_some_iff.mp ho
    have hl := fetchInputs_lookedUp hf _ _ hin
    obtain ⟨txindex, txPrev, hr, hp, -, -⟩ := hi txin hm
    have hfi : ctx.toTxSource.findIndex ∅ (false || false) txin.prevout.hash = some txindex := by
      simpa [TxSource.findIndex] using hr
    rw [TxSource.lookup, hfi] at hl
    simp only [hp, Option.map_some, Option.some.injEq] at hl
    subst hl
    simp [TxSource.spentValue, COutPoint.key, hr, hp, hg]
  · cases h

/-! ## What an accept response does to a request -/

structure SameParticipants (r r' : CCloakingRequest) : Prop where
  participants : r'.sParticipants = r.sParticipants
  amount : r'.nSendAmount = r.nSendAmount
  required : r'.nParticipantsRequired = r.nParticipantsRequired

theorem SameParticipants.refl (r : CCloakingRequest) : SameParticipants r r := ⟨rfl, rfl, rfl⟩

theorem handleCloakingAccept_request {id : Hash256}
    (h : (handleCloakingAccept env ctx s ccar).1.mapOurCloakingRequests[id]? = some r') :
    ∃ r, s.mapOurCloakingRequests[id]? = some r ∧ (SameParticipants r r' ∨
      id = ccar.requestIdentifier ∧ Admitted env ctx s r ccar ∧
        ∃ inOuts, checkValid env ctx ccar.participantInfo.inOuts = some inOuts ∧
          SameParticipants (r.join env { ccar.participantInfo with inOuts := inOuts }) r') := by
  obtain ⟨t, seen, calls, heq, hst⟩ := handleCloakingAccept_cases env ctx s ccar
  rw [heq] at h
  cases hst with
  | ignored => exact ⟨r', h, .inl (.refl r')⟩
  | joined hr ha hc =>
    rcases EnigmaWallet.setOurRequest_cases h with ⟨rfl, rfl⟩ | ⟨-, h⟩
    · exact ⟨_, hr, .inr ⟨rfl, ha, _, hc, .refl _⟩⟩
    · exact ⟨r', h, .inl (.refl r')⟩
  | created hr ha hc _ hs raw signed =>
    rcases EnigmaWallet.setOurRequest_cases h with ⟨rfl, rfl⟩ | ⟨-, h⟩
    · exact ⟨_, hr, .inr ⟨rfl, ha, _, hc, rfl, rfl, rfl⟩⟩
    · rcases hs with rfl | ⟨io, rfl⟩ <;> exact ⟨r', h, .inl (.refl r')⟩

end

/-! ## Valid sets of participants -/

def participantOutpoints (participants : List CCloakingParticipant) : List COutPoint :=
  participants.flatMap fun p => p.inOuts.vin.map CTxIn.prevout

/-- What the sender relies on when the participants are complete. -/
structure ParticipantsValid (src : TxSource) (r : CCloakingRequest) : Prop where
  keys : (r.sParticipants.map CCloakingParticipant.pubKey).Nodup
  outpoints : (participantOutpoints r.sParticipants).Nodup
  unspent : ∀ o ∈ participantOutpoints r.sParticipants, Unspent src o
  amount : ∀ p ∈ r.sParticipants,
    p.inOuts.nInputAmount = totalIn src p.inOuts.vin ∧ (r.nSendAmount : Int) ≤ p.inOuts.nInputAmount
  size : (r.sParticipants.length : Int) ≤ r.nParticipantsRequired

/-- A participant that leaves the list of participants valid when it joins. -/
structure Admissible (src : TxSource) (r : CCloakingRequest) (info : CCloakingParticipant) : Prop where
  key : info.pubKey ∉ r.sParticipants.map CCloakingParticipant.pubKey
  distinct : (info.inOuts.vin.map CTxIn.prevout).Nodup
  apart : ∀ o ∈ info.inOuts.vin.map CTxIn.prevout, o ∉ participantOutpoints r.sParticipants
  unspent : ∀ txin ∈ info.inOuts.vin, Unspent src txin.prevout
  enough : (r.nSendAmount : Int) ≤ totalIn src info.inOuts.vin

def StillUnspent (src src' : TxSource) (r : CCloakingRequest) : Prop :=
  ∀ o ∈ participantOutpoints r.sParticipants,
    Unspent src' o ∧ src'.spentValue src'.readTxIndex o.key = src.spentValue src.readTxIndex o.key

structure FairAccept (env : EnigmaEnv) (id : Hash256) (src : TxSource) (ctx : EnigmaCtx) (s : EnigmaWallet)
    (ccar : CCloakingAcceptResponse) : Prop where
  chain : ∀ r, s.mapOurCloakingRequests[id]? = some r → StillUnspent src ctx.toTxSource r
  fits : ∀ r, s.mapOurCloakingRequests[id]? = some r → id = ccar.requestIdentifier →
    Admitted env ctx s r ccar → Admissible ctx.toTxSource r ccar.participantInfo

/-- The chain and the wallet after some accept responses, for any request. -/
inductive Accepted (env : EnigmaEnv) (id : Hash256) (src₀ : TxSource) (s₀ : EnigmaWallet) :
    TxSource → EnigmaWallet → Prop
  | start : Accepted env id src₀ s₀ src₀ s₀
  | accept {src : TxSource} {s : EnigmaWallet} {ctx : EnigmaCtx} {ccar : CCloakingAcceptResponse} :
    Accepted env id src₀ s₀ src s → FairAccept env id src ctx s ccar →
    Accepted env id src₀ s₀ ctx.toTxSource (handleCloakingAccept env ctx s ccar).1

namespace ParticipantsValid

variable {r : CCloakingRequest}

theorem of_nil (hn : r.sParticipants = []) (hr : 0 ≤ r.nParticipantsRequired) : ParticipantsValid src r := by
  refine ⟨?_, ?_, ?_, ?_, ?_⟩ <;> simp [hn, participantOutpoints, hr]

theorem congr (h : ParticipantsValid src r) (hs : SameParticipants r r') : ParticipantsValid src r' := by
  obtain ⟨hp, ha, hn⟩ := hs
  refine ⟨?_, ?_, ?_, ?_, ?_⟩
  · rw [hp]
    exact h.keys
  · rw [hp]
    exact h.outpoints
  · rw [hp]
    exact h.unspent
  · rw [hp, ha]
    exact h.amount
  · rw [hp, hn]
    exact h.size

theorem chain (h : ParticipantsValid src r) (hs : StillUnspent src src' r) : ParticipantsValid src' r := by
  refine ⟨h.keys, h.outpoints, fun o ho => (hs o ho).1, fun p hp => ?_, h.size⟩
  have ht : totalIn src' p.inOuts.vin = totalIn src p.inOuts.vin := by
    refine congrArg List.sum (map_congr_left fun txin htx => (hs txin.prevout ?_).2)
    exact mem_flatMap.mpr ⟨p, hp, mem_map_of_mem htx⟩
  rw [ht]
  exact h.amount p hp

theorem join
    (h : ParticipantsValid src r) (hf : Admissible src r info)
      (hr : (r.sParticipants.length : Int) < r.nParticipantsRequired)
    (hv : inOuts.vin = info.inOuts.vin) (ha : inOuts.nInputAmount = totalIn src info.inOuts.vin) :
    ParticipantsValid src (r.join env { info with inOuts := inOuts }) := by
  rcases insertParticipant_eq_or_perm env { info with inOuts := inOuts } r.sParticipants with heq | hpe
  · exact h.congr ⟨heq, rfl, rfl⟩
  have hou : (participantOutpoints (insertParticipant env { info with inOuts := inOuts } r.sParticipants)).Perm
      (info.inOuts.vin.map CTxIn.prevout ++ participantOutpoints r.sParticipants) := by
    rw [← hv]
    exact hpe.flatMap_right _
  refine ⟨?_, ?_, ?_, ?_, ?_⟩
  · exact ((hpe.map CCloakingParticipant.pubKey).nodup_iff).mpr (nodup_cons.mpr ⟨hf.key, h.keys⟩)
  · refine hou.nodup_iff.mpr (nodup_append.mpr ⟨hf.distinct, h.outpoints, ?_⟩)
    rintro o ho _ ho' rfl
    exact hf.apart o ho ho'
  · intro o ho
    rcases mem_append.mp (hou.mem_iff.mp ho) with ho | ho
    · obtain ⟨txin, ht, rfl⟩ := mem_map.mp ho
      exact hf.unspent txin ht
    · exact h.unspent o ho
  · intro p hp
    rcases mem_cons.mp (hpe.mem_iff.mp hp) with rfl | hp
    · rw [hv, ha]
      exact ⟨rfl, hf.enough⟩
    · exact h.amount p hp
  · have hl : (r.join env { info with inOuts := inOuts }).sParticipants.length = r.sParticipants.length + 1 :=
      hpe.length_eq
    rw [hl]
    show ((r.sParticipants.length + 1 : Nat) : Int) ≤ r.nParticipantsRequired
    omega

end ParticipantsValid

theorem FairAccept.valid {id : Hash256} {ctx : EnigmaCtx} {s : EnigmaWallet} {ccar : CCloakingAcceptResponse}
    (hf : FairAccept env id src ctx s ccar) (hv : ∀ r, s.mapOurCloakingRequests[id]? = some r → ParticipantsValid src r)
    (hr' : (handleCloakingAccept env ctx s ccar).1.mapOurCloakingRequests[id]? = some r') :
    ParticipantsValid ctx.toTxSource r' := by
  obtain ⟨r, hr, hca⟩ := handleCloakingAccept_request hr'
  have hm := (hv r hr).chain (hf.chain r hr)
  rcases hca with hs | ⟨hid, ha, inOuts, hc, hs⟩
  · exact hm.congr hs
  · have hfi := hf.fits r hr hid ha
    obtain ⟨hvi, ham⟩ := checkValid_spec hc hfi.unspent
    exact (hm.join hfi ha.room hvi ham).congr hs

/-- From a request without participants on, the participants are valid at every moment, as long as those
that the code admits fit and nobody spends what the others brought. -/
theorem participants_valid (env : EnigmaEnv) (id : Hash256) (src₀ src : TxSource) (s₀ s : EnigmaWallet)
    (h₀ : ∀ r, s₀.mapOurCloakingRequests[id]? = some r → r.sParticipants = [] ∧ 0 ≤ r.nParticipantsRequired)
    (hrun : Accepted env id src₀ s₀ src s) (r : CCloakingRequest) (hr : s.mapOurCloakingRequests[id]? = some r) :
    ParticipantsValid src r := by
  induction hrun generalizing r with
  | start => exact .of_nil (h₀ r hr).1 (h₀ r hr).2
  | accept _ hf ih => exact hf.valid ih hr

/-! ## A request for three participants -/

def openRequest (nSendAmount : Nat) : CCloakingRequest :=
  { Sample.sendRequest with nParticipantsRequired := 3, nSendAmount := nSendAmount }

def openSender (nSendAmount : Nat) : EnigmaWallet :=
  Sample.wallet ⟨∅, [], fun _ => [], 0⟩ [(openRequest nSendAmount, Sample.sendInOuts)]

theorem participants_valid_offer :
    ∃ s, Accepted (Sample.env []) 101 Sample.ctx.toTxSource (openSender 2000000) Sample.ctx.toTxSource s ∧
      ∃ r, s.mapOurCloakingRequests[101]? = some r ∧ r.sParticipants.length = 1 ∧
        ParticipantsValid Sample.ctx.toTxSource r := by
  have hs : ∀ r, (openSender 2000000).mapOurCloakingRequests[101]? = some r → r = openRequest 2000000 := by
    intro r hr
    have hget : (openSender 2000000).mapOurCloakingRequests[101]? = some (openRequest 2000000) := by decide
    exact Option.some.inj (hr.symm.trans hget)
  have hu : Unspent Sample.ctx.toTxSource ⟨1, 1⟩ :=
    ⟨.ofOutputs (.ofFile 1 8 89) 2, Sample.funding, rfl, rfl, by decide, by decide⟩
  have hf : FairAccept (Sample.env []) 101 Sample.ctx.toTxSource Sample.ctx (openSender 2000000) Sample.offer := by
    constructor
    · intro r hr o ho
      rw [hs r hr] at ho
      cases ho
    · intro r hr _ _
      rw [hs r hr]
      refine ⟨by decide, by decide, by decide, ?_, by decide⟩
      intro txin ht
      rw [mem_singleton.mp ht]
      exact hu
  have hrun := Accepted.accept (show Accepted _ _ Sample.ctx.toTxSource _ _ _ from .start) hf
  refine ⟨_, hrun, { openRequest 2000000 with sParticipants :=
    [{ Sample.offer.participantInfo with
        inOuts := { Sample.offer.participantInfo.inOuts with nInputAmount := 5 * coin } }] }, by decide, rfl, ?_⟩
  exact participants_valid _ _ _ _ _ _ (fun r hr => by rw [hs r hr]; decide) hrun _ (by decide)

def spentCtx : EnigmaCtx :=
  { Sample.ctx with
    readTxIndex := fun h => if h = 1 then some ⟨.ofFile 1 8 89, [.ofFile 2 9 90, .null]⟩ else none }

def spentOffer (stealthAddress : Nat) : CCloakingAcceptResponse :=
  ⟨101, ⟨2, stealthAddress, { vin := [{ prevout := ⟨1, 0⟩ }], stealthHash := 3 }⟩⟩

def spentParticipant (stealthAddress : Nat) : CCloakingParticipant :=
  ⟨2, stealthAddress, { vin := [{ prevout := ⟨1, 0⟩ }], stealthHash := 3, nInputAmount := 4 * coin }⟩

/-- One key gets in twice with one output, which is spent and worth 4 coins where 9 are sent. -/
theorem participants_invalid : (openSender 9000000).mapOurCloakingRequests[101]? = some (openRequest 9000000) ∧
    (openRequest 9000000).sParticipants = [] ∧ ∃ r, (handleCloakingAccept (Sample.env []) spentCtx
        (handleCloakingAccept (Sample.env []) spentCtx (openSender 9000000) (spentOffer 2)).1
        (spentOffer 3)).1.mapOurCloakingRequests[101]? = some r ∧
      r.sParticipants = [spentParticipant 2, spentParticipant 3] ∧
      ¬(r.sParticipants.map CCloakingParticipant.pubKey).Nodup ∧
      ¬(participantOutpoints r.sParticipants).Nodup ∧
      (∃ o ∈ participantOutpoints r.sParticipants, ¬Unspent spentCtx.toTxSource o) ∧
      ∀ p ∈ r.sParticipants, p.inOuts.nInputAmount < r.nSendAmount := by
  refine ⟨by decide, rfl, ?_⟩
  have hs : ¬Unspent spentCtx.toTxSource ⟨1, 0⟩ := by
    rintro ⟨txindex, txPrev, hr, -, -, hsl⟩
    cases hr
    exact absurd hsl (by decide)
  exact ⟨{ openRequest 9000000 with sParticipants := [spentParticipant 2, spentParticipant 3] }, by decide, rfl,
    by decide, by decide, ⟨⟨1, 0⟩, by decide, hs⟩, by decide⟩

end CloakCoin.Enigma
