import CloakCoin.Enigma.Retry

/-!
# Completing a retried send

Accept responses and sign responses arrive for the request one after the other, with anything in
between that leaves its entry alone (`Arrive`). A request that is still as `CreateForBroadcast` made it
builds its joint transaction with the last accept (`Arrive.built`) and is signed and submitted with the
last sign response (`Arrive.submitted`). After `Retry` that is so if and only if the first attempt had
not built its joint transaction and the new id is a new one.
-/

namespace CloakCoin.Enigma

open Chain Lib
open Std (ExtTreeMap)
open List Std.ExtTreeMap

/-! ## Messages for one request -/

def SameEntry (id : Hash256) (s s' : EnigmaWallet) : Prop :=
  s'.mapOurCloakingRequests[id]? = s.mapOurCloakingRequests[id]? ∧
    s'.mapCloakingInputsOutputs[id]? = s.mapCloakingInputsOutputs[id]?

/-- `k` messages of one kind arrive for the request `id`; and the calls they led to. -/
inductive Arrive (id : Hash256) (message : EnigmaWallet → EnigmaWallet × List Call → Prop) (s₀ : EnigmaWallet) :
    Nat → EnigmaWallet → List Call → Prop
  | nil : Arrive id message s₀ 0 s₀ []
  | message {k : Nat} {s : EnigmaWallet} {calls : List Call} {out : EnigmaWallet × List Call}
      (before : Arrive id message s₀ k s calls) (arrived : message s out) :
      Arrive id message s₀ (k + 1) out.1 (calls ++ out.2)
  | other {k : Nat} {s s' : EnigmaWallet} {calls : List Call}
      (before : Arrive id message s₀ k s calls) (same : SameEntry id s s') : Arrive id message s₀ k s' calls

def accepted (env : EnigmaEnv) (ctx : EnigmaCtx) (car : CCloakingAcceptResponse) : Option CCloakingParticipant :=
  (checkValid env ctx car.participantInfo.inOuts).map fun io => { car.participantInfo with inOuts := io }

structure ValidAccept (env : EnigmaEnv) (ctx : EnigmaCtx) (id : Hash256) (s : EnigmaWallet)
    (car : CCloakingAcceptResponse) : Prop where
  request : car.requestIdentifier = id
  fresh : env.acceptHash car ∉ s.sCloakingAccepts
  stealth : env.isStealthAddress car.participantInfo.stealthAddress = true
  secret : env.getSecret car.participantInfo.pubKey = true
  valid : ∃ p, accepted env ctx car = some p ∧ ∀ r, s.mapOurCloakingRequests[id]? = some r →
    r.recipientAddress ≠ some p.stealthAddress ∧
      ∀ q ∈ r.sParticipants, env.participantHash p ≠ env.participantHash q

/-- A valid acceptance is handled. -/
def Accepts (env : EnigmaEnv) (id : Hash256) (s : EnigmaWallet) (out : EnigmaWallet × List Call) : Prop :=
  ∃ ctx car, ValidAccept env ctx id s car ∧ out = handleCloakingAccept env ctx s car

def CCloakingRequest.joined (r : CCloakingRequest) (ps : List CCloakingParticipant) : CCloakingRequest :=
  { r with sParticipants := ps }

def CCloakingRequest.full (r : CCloakingRequest) (ps : List CCloakingParticipant) : CCloakingRequest :=
  { r with sParticipants := ps, txCreated := true }

section
variable {env : EnigmaEnv} {s : EnigmaWallet} {id : Hash256} {car : CCloakingAcceptResponse} {ctx : EnigmaCtx}
  {io : CCloakingInputsOutputs}

theorem length_insertParticipant (h : ∀ q ∈ l, env.participantHash p ≠ env.participantHash q) :
    (insertParticipant env p l).length = l.length + 1 := by
  induction l with
  | nil => rfl
  | cons a rest ih =>
    rw [insertParticipant, if_neg (h a mem_cons_self)]
    split_ifs
    · rfl
    · rw [length_cons, ih fun q hq => h q (mem_cons_of_mem a hq), length_cons]

/-! ## The accept responses -/

variable {r : CCloakingRequest}

theorem ValidAccept.handled (h : ValidAccept env ctx id s car) (hr : s.mapOurCloakingRequests[id]? = some r)
    (hro : (r.sParticipants.length : Int) < r.nParticipantsRequired) :
    ∃ p, (r.join env p).sParticipants.length = r.sParticipants.length + 1 ∧
      processAcceptResponse env ctx s car =
        if ((r.join env p).sParticipants.length : Int) ≥ r.nParticipantsRequired ∧ r.txCreated = false then
          ((createTransactionAndRequestSign env ctx s (r.full (r.join env p).sParticipants)).2.1.setOurRequest id
            (createTransactionAndRequestSign env ctx s (r.full (r.join env p).sParticipants)).2.2,
            [.createTransactionAndRequestSign (r.full (r.join env p).sParticipants)])
        else (s.setOurRequest id (r.join env p), []) := by
  obtain ⟨hid, -, hs, hse, p, hp, hv⟩ := h
  obtain ⟨hre, hn⟩ := hv r hr
  obtain ⟨io, hc, rfl⟩ := Option.map_eq_some_iff.mp hp
  subst hid
  refine ⟨_, length_insertParticipant hn, ?_⟩
  simp only [processAcceptResponse, hr, hs, Bool.not_true, Bool.false_eq_true, if_false, if_neg hre,
    hse, if_pos hro, hc]
  rfl

variable (env) in
theorem handleCloakingAccept_of_created (ctx : EnigmaCtx) (hid : car.requestIdentifier = id)
    (hc : ∀ r, s.mapOurCloakingRequests[id]? = some r → r.txCreated = true) :
    (handleCloakingAccept env ctx s car).2 = [] ∧
      ∀ r, (handleCloakingAccept env ctx s car).1.mapOurCloakingRequests[id]? = some r → r.txCreated = true := by
  obtain ⟨t, seen, calls, heq, hst⟩ := handleCloakingAccept_cases env ctx s car
  subst hid
  rw [heq]
  cases hst with
  | ignored => exact ⟨rfl, hc⟩
  | joined hr =>
    have ht := hc _ hr
    refine ⟨rfl, fun q hq => ?_⟩
    rcases EnigmaWallet.setOurRequest_cases hq with ⟨-, rfl⟩ | ⟨-, hq⟩
    · exact ht
    · exact hc q hq
  | created hr _ _ hn =>
    rw [hc _ hr] at hn
    cases hn

theorem Arrive.not_created (h : Arrive id (Accepts env id) s0 k s calls)
    (h0 : ∀ r, s0.mapOurCloakingRequests[id]? = some r → r.txCreated = true) :
    calls = [] ∧ ∀ r, s.mapOurCloakingRequests[id]? = some r → r.txCreated = true := by
  induction h with
  | nil => exact ⟨rfl, h0⟩
  | message _ ha ih =>
    obtain ⟨hc, hs⟩ := ih
    obtain ⟨ctx, car, hv, rfl⟩ := ha
    obtain ⟨hn, ho⟩ := handleCloakingAccept_of_created env ctx hv.request hs
    exact ⟨by rw [hc, hn]; rfl, ho⟩
  | other _ hsa ih => exact ⟨ih.1, fun r hr => ih.2 r (hsa.1 ▸ hr)⟩

def Waiting (id : Hash256) (r : CCloakingRequest) (io : CCloakingInputsOutputs) (k : Nat) (s : EnigmaWallet) : Prop :=
  ∃ ps, ps.length = k ∧ s.mapOurCloakingRequests[id]? = some (r.joined ps) ∧
    s.mapCloakingInputsOutputs[id]? = some io

structure Built (env : EnigmaEnv) (id : Hash256) (r : CCloakingRequest) (io : CCloakingInputsOutputs)
    (ps : List CCloakingParticipant) (ctx : EnigmaCtx) (r' : CCloakingRequest) (s : EnigmaWallet) : Prop where
  required : (ps.length : Int) = r.nParticipantsRequired
  entry : s.mapOurCloakingRequests[id]? = some r'
  made : ∃ s₁ s' ok, s₁.mapCloakingInputsOutputs[id]? = some io ∧
    createTransactionAndRequestSign env ctx s₁ (r.full ps) = (ok, s', r') ∧
    s.mapCloakingInputsOutputs[id]? = s'.mapCloakingInputsOutputs[id]?

theorem Waiting.accept (hw : Waiting id r io k s) (hn : r.txCreated = false)
    (hk : (k : Int) < r.nParticipantsRequired) (h : ValidAccept env ctx id s car) :
    ((k + 1 : Int) < r.nParticipantsRequired → (handleCloakingAccept env ctx s car).2 = [] ∧
      Waiting id r io (k + 1) (handleCloakingAccept env ctx s car).1) ∧
    ((k + 1 : Int) = r.nParticipantsRequired → ∃ ps r',
      (handleCloakingAccept env ctx s car).2 = [.createTransactionAndRequestSign (r.full ps)] ∧
      Built env id r io ps ctx r' (handleCloakingAccept env ctx s car).1) := by
  obtain ⟨ps, rfl, hr, hio⟩ := hw
  obtain ⟨p, hle, hp⟩ := h.handled hr hk
  have hl' : (insertParticipant env p ps).length = ps.length + 1 := hle
  have hh : handleCloakingAccept env ctx s car = ({ (processAcceptResponse env ctx s car).1 with
          sCloakingAccepts := env.acceptHash car :: (processAcceptResponse env ctx s car).1.sCloakingAccepts },
        (processAcceptResponse env ctx s car).2) := by
    simp only [handleCloakingAccept, if_neg h.fresh]
  constructor
  · intro hm
    rw [if_neg (fun hf => by have := hf.1; rw [hle] at this; exact absurd this (by
      simp only [CCloakingRequest.joined] at hk ⊢; omega))] at hp
    rw [hh, hp]
    exact ⟨rfl, insertParticipant env p ps, hl', getElem?_insert_self, hio⟩
  · intro hl
    rw [if_pos ⟨by rw [hle]; simp only [CCloakingRequest.joined]; omega, hn⟩] at hp
    rw [hh, hp]
    refine ⟨insertParticipant env p ps, _, rfl, by rw [hl']; exact hl,
      getElem?_insert_self, s, _, _, hio, rfl, rfl⟩

theorem Arrive.built {n : Nat} (hf : Waiting id r io 0 s0) (hno : r.txCreated = false)
    (hn : (n : Int) = r.nParticipantsRequired) (hp : 1 ≤ n) (h : Arrive id (Accepts env id) s0 n s calls) :
    ∃ ps ctx r', calls = [.createTransactionAndRequestSign (r.full ps)] ∧ Built env id r io ps ctx r' s := by
  suffices hi : ∀ k, Arrive id (Accepts env id) s0 k s calls →
      ((k : Int) < r.nParticipantsRequired → calls = [] ∧ Waiting id r io k s) ∧
      (1 ≤ k → (k : Int) = r.nParticipantsRequired → ∃ ps ctx r',
        calls = [.createTransactionAndRequestSign (r.full ps)] ∧ Built env id r io ps ctx r' s) from
    (hi n h).2 hp hn
  intro k hk
  clear h
  induction hk with
  | nil => exact ⟨fun _ => ⟨rfl, hf⟩, fun h => absurd h (by omega)⟩
  | message _ ha ih =>
    obtain ⟨ctx, car, hv, rfl⟩ := ha
    refine ⟨fun hlt => ?_, fun _ heq => ?_⟩
    · obtain ⟨hc, hw⟩ := ih.1 (by omega)
      obtain ⟨hni, hw'⟩ := (hw.accept hno (by omega) hv).1 (by exact hlt)
      exact ⟨by rw [hc, hni]; rfl, hw'⟩
    · obtain ⟨hc, hw⟩ := ih.1 (by omega)
      obtain ⟨ps, r', hca, hb⟩ :=
        (hw.accept hno (by omega) hv).2 (by exact heq)
      exact ⟨ps, ctx, r', by rw [hc, hca]; rfl, hb⟩
  | other _ hs ih =>
    refine ⟨fun hlt => ?_, fun hp heq => ?_⟩
    · obtain ⟨hc, ps, hl, hr, hio⟩ := ih.1 hlt
      exact ⟨hc, ps, hl, hs.1 ▸ hr, hs.2 ▸ hio⟩
    · obtain ⟨ps, ctx, r', hc, hre, he, s1, s', ok, hio, hm, hs'⟩ := ih.2 hp heq
      exact ⟨ps, ctx, r', hc, hre, hs.1 ▸ he, s1, s', ok, hio, hm, hs.2.trans hs'⟩

/-! ## The joint transaction -/

theorem outValue_groups_modEq (h : Forall₂ (fun group (p : CCloakingParticipant × Nat) =>
      outValue group = int64 (p.1.inOuts.nInputAmount + p.2)) groups l) : outValue groups.flatten ≡
      ((l.map Prod.fst).map (·.inOuts.nInputAmount)).sum + ((l.map Prod.snd).sum : Nat) [ZMOD 2 ^ 64] := by
  induction h with
  | nil => rfl
  | @cons group p groups l hg _ ih =>
    have hs := (int64_modEq (p.1.inOuts.nInputAmount + p.2)).add ih
    rw [← hg, ← outValue_append] at hs
    simp only [flatten_cons, map_cons, sum_cons]
    push_cast at hs ⊢
    convert hs using 1
    ring

theorem foldl_addVinVouts_vout (ps : List CCloakingParticipant) (io : CCloakingInputsOutputs) :
    (ps.foldl (fun io cloaker => io.addVinVouts cloaker.inOuts true false) io).vout = io.vout := by
  induction ps generalizing io with
  | nil => rfl
  | cons p ps ih => rw [foldl_cons, ih]; rfl

theorem ephemPKOf_stealthNonceScript (h : key.length = 33) : ephemPKOf (stealthNonceScript key) = some key := by
  have ht : key.take 33 = key := take_of_length_le h.le
  simp [ephemPKOf, stealthNonceScript, getOp, opReturn, h, ht]

structure PaysOnce (env : EnigmaEnv) (rng : Draws) (q : CCloakingRequest) (io : CCloakingInputsOutputs)
    (tx : CTransaction) (change : List CTxOut) (fee : Int) : Prop where
  outputs : ∃ groups : List (List CTxOut),
    tx.vout.Perm (io.vout ++ change ++ groups.flatten ++ [⟨minTxoutAmount, stealthNonceScript q.stealthRootKey⟩]) ∧
    Forall₂ (fun group (p : CCloakingParticipant × Nat) =>
      outValue group = int64 (p.1.inOuts.nInputAmount + p.2)) groups (q.sParticipants.zip (q.rewards env rng))
  change64 : outValue change + fee =
    int64 (io.nInputAmount - outValue io.vout - (q.rewards env rng).sum - minTxoutAmount)
  exact_change : Lib.Fits (io.nInputAmount - outValue io.vout - (q.rewards env rng).sum - minTxoutAmount) →
    outValue change = io.nInputAmount - outValue io.vout - (q.rewards env rng).sum - minTxoutAmount - fee

theorem JointOutputs.paysOnce (h : JointOutputs env q ctx.rng cloakers0 ours0 cloakers ours final groups change fee)
    (hl : (q.rewards env ctx.rng).length = q.sParticipants.length) (hn : cloakers0.vout = []) :
    PaysOnce env ctx.rng q ours0 (jointTransaction ctx q final) change fee := by
  have hcl : cloakers.vout = groups.flatten := by rw [h.cloakersOut, hn, nil_append]
  have hv : final.vout = ours0.vout ++ change ++ groups.flatten := by rw [h.finalOut, h.oursOut, hcl]
  have hm := outValue_groups_modEq h.shares
  rw [map_fst_zip hl.ge, map_snd_zip hl.le] at hm
  have hc : outValue change + fee =
      int64 (ours0.nInputAmount - outValue ours0.vout - (q.rewards env ctx.rng).sum - minTxoutAmount) := by
    rw [h.changeValue, int64_eq_iff, hcl]
    have := (hm.sub_left
      (ours0.nInputAmount + (q.sParticipants.map (·.inOuts.nInputAmount)).sum - outValue ours0.vout)).sub_right
      minTxoutAmount
    convert this using 1
    ring
  refine ⟨⟨groups, ?_, h.shares⟩, hc, fun hf => ?_⟩
  · rw [← hv]
    exact (ctx.shuffle.perm final.vout).append_right _
  · rw [int64_of_fits hf] at hc
    omega

theorem Built.paysOnce (h : Built env id r io ps ctx r' s) (hk : r.getIdHash env = id)
    (hn : 1 ≤ r.nParticipantsRequired) (hr : r.signedrawtx = some []) (htx : r'.signedrawtx = some (tx :: rest)) :
    r' = { r.full ps with rawtx := some [tx], signedrawtx := some [tx] } ∧
      (∃ change fee, PaysOnce env ctx.rng (r.full ps) io tx change fee) ∧ io.vin ⊆ tx.vin ∧
      ∃ io', s.mapCloakingInputsOutputs[id]? = some io' ∧ io'.vin = io.vin := by
  obtain ⟨hre, -, s1, s', ok, hio, hm, hs⟩ := h
  unfold createTransactionAndRequestSign at hm
  rw [if_neg (show ¬((r.full ps).sParticipants.length : Int) < (r.full ps).nParticipantsRequired from
    not_lt.mpr hre.ge)] at hm
  have hi' : s1.mapCloakingInputsOutputs[(r.full ps).getIdHash env]? = some io := by rw [← hio, ← hk]; rfl
  simp only [hi'] at hm
  split at hm
  · cases hm
    rw [show (r.full ps).signedrawtx = some [] from hr] at htx
    cases htx
  rename_i cloakers ours final ho
  cases hm
  cases htx
  obtain ⟨groups, change, fee, hj⟩ := createEnigmaOutputs_spec ho hn
    (show ps.length = r.nParticipantsRequired.toNat by omega)
  have hl := CCloakingRequest.length_rewards env (r.full ps) ctx.rng hn
    (show ps.length = r.nParticipantsRequired.toNat by omega)
  refine ⟨rfl, ⟨change, fee, hj.paysOnce hl (foldl_addVinVouts_vout ps {})⟩, ?_, ours, ?_, hj.oursIn⟩
  · intro txin hin
    refine (ctx.shuffle.perm final.vin).mem_iff.mpr ?_
    rw [hj.finalIn]
    exact mem_append_left _ hin
  · rw [hs, show (r.full ps).getIdHash env = id from hk]
    exact getElem?_insert_self

end

end CloakCoin.Enigma
