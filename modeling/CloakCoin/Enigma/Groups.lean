import CloakCoin.Enigma.Complete

/-!
# The outputs of a joint transaction

They come in groups: for each participant, for the sender's change and for each recipient, one-time addresses with
indices from 0 on (`PaidTo`).
-/

namespace CloakCoin.Enigma

open Chain Lib
open Std (ExtTreeMap)
open List

variable {r : CCloakingRequest} {tx : CTransaction} {group : List CTxOut} {recipients : List (Nat × Int)}
  {groups : List (List CTxOut)}

/-! ## Groups of outputs -/

abbrev Payee := Nat × Hash256

section
variable (env : EnigmaEnv)

def payeeKey (rootKey : List UInt8) (p : Payee) (i : Nat) : CKeyID := env.enigmaKey p.1 rootKey p.2 i

structure PaidTo (rootKey : List UInt8) (p : Payee) (group : List CTxOut) : Prop where
  nonempty : group ≠ []
  few : group.length ≤ 4
  scripts : group.map CTxOut.scriptPubKey =
    (List.range group.length).map fun i => scriptForKeyID (payeeKey env rootKey p i)

def recipientOutputs (rootKey : List UInt8) (rootHash : Hash256) : List (Nat × Int) → Draws → List CTxOut
  | [], _ => []
  | (sxAddress, amount) :: rest, rng =>
    let (numScripts, rng) := getRandRange 2 3 rng
    let scripts := (getEnigmaChangeAddresses env sxAddress rootKey rootHash numScripts.toNat 0).getD []
    let (amounts, rng) := splitAmount amount minTxoutAmount scripts.length rng
    payTo amounts scripts ++ recipientOutputs rootKey rootHash rest rng

end

section
variable {env : EnigmaEnv} {rootKey : List UInt8} {rng : Draws} {p : Payee}

theorem PaidTo.mem (h : PaidTo env rootKey p group) {o : CTxOut} (ho : o ∈ group) :
    ∃ i < group.length, o.scriptPubKey = scriptForKeyID (payeeKey env rootKey p i) := by
  have hm := mem_map_of_mem (f := CTxOut.scriptPubKey) ho
  rw [h.scripts] at hm
  obtain ⟨i, hi, heq⟩ := mem_map.mp hm
  exact ⟨i, mem_range.mp hi, heq.symm⟩

theorem PaidTo.first (h : PaidTo env rootKey p group) :
    ∃ o ∈ group, o.scriptPubKey = scriptForKeyID (payeeKey env rootKey p 0) := by
  have hp := length_pos_of_ne_nil h.nonempty
  have hm : scriptForKeyID (payeeKey env rootKey p 0) ∈ group.map CTxOut.scriptPubKey := by
    rw [h.scripts]
    exact mem_map_of_mem (f := fun i => scriptForKeyID (payeeKey env rootKey p i)) (mem_range.mpr hp)
  obtain ⟨o, ho, heq⟩ := mem_map.mp hm
  exact ⟨o, ho, heq⟩

theorem map_scriptPubKey_payTo (amounts : List Int) (scripts : List CScript) :
    (payTo amounts scripts).map CTxOut.scriptPubKey = scripts.take amounts.length := by
  induction amounts generalizing scripts with
  | nil => simp [payTo]
  | cons amount amounts ih =>
    cases scripts with
    | nil => simp [payTo]
    | cons script scripts =>
      exact congrArg (script :: ·) (ih scripts)

theorem paidTo_payTo {sx : Nat} {hash : Hash256} {amounts : List Int} {num : Nat} {scripts : List CScript}
    (hs : getEnigmaChangeAddresses env sx rootKey hash num 0 = some scripts) (hne : amounts ≠ [])
    (hf : amounts.length ≤ 4) (hn : amounts.length ≤ num) : PaidTo env rootKey (sx, hash) (payTo amounts scripts) := by
  have hl : (payTo amounts scripts).length = amounts.length := by
    rw [payTo, length_zipWith, length_getEnigmaChangeAddresses env hs]
    omega
  refine ⟨fun hni => hne ?_, by rw [hl]; exact hf, ?_⟩
  · rw [hni] at hl
    exact length_eq_zero_iff.mp hl.symm
  · rw [map_scriptPubKey_payTo, hl]
    unfold getEnigmaChangeAddresses at hs
    split_ifs at hs
    cases hs
    rw [← map_take, take_range, Nat.min_eq_left hn]
    rfl

theorem cloakerOutputs_groups {rewards : List Nat} {outputs outputs' : List CTxOut}
    {rng' : Draws} (h : cloakerOutputs env rootKey cloakers rewards outputs rng = some (outputs', rng')) :
    ∃ groups : List (List CTxOut), outputs' = outputs ++ groups.flatten ∧
      List.Forall₂ (fun group (p : CCloakingParticipant) =>
        PaidTo env rootKey (p.stealthAddress, p.inOuts.stealthHash) group) groups cloakers := by
  induction cloakers generalizing rewards outputs rng with
  | nil =>
    cases h
    exact ⟨[], by simp, .nil⟩
  | cons cloaker rest ih =>
    simp only [cloakerOutputs] at h
    have hp := getRandRange_of_lt (show (2 : Int) < 4 by norm_num) rng
    generalize getRandRange 2 4 rng = draw at h hp
    obtain ⟨parts, rng1⟩ := draw
    generalize int64 (cloaker.inOuts.nInputAmount + (rewards.headD 0 : Nat)) = input at h
    have hne := splitAmount_ne_nil input (show 0 ≤ minTxoutAmount by decide) (show 1 ≤ parts by omega) rng1
    have hle := length_splitAmount_le input minTxoutAmount (show 1 ≤ parts by omega) rng1
    generalize splitAmount input minTxoutAmount parts rng1 = split at h hne hle
    obtain ⟨amounts, rng2⟩ := split
    dsimp only at h hne hle
    split at h
    · cases h
    rename_i scripts hs
    split at h
    · obtain ⟨groups, ho, ha⟩ := ih h
      refine ⟨payTo amounts scripts :: groups, by simp [ho], .cons ?_ ha⟩
      exact paidTo_payTo hs hne (by omega) (le_refl _)
    · cases h

theorem PaidTo.congr {group' : List CTxOut} (h : PaidTo env rootKey p group)
    (hs : group'.map CTxOut.scriptPubKey = group.map CTxOut.scriptPubKey) : PaidTo env rootKey p group' := by
  have hl : group'.length = group.length := by simpa using congrArg List.length hs
  refine ⟨fun hn => h.nonempty ?_, hl ▸ h.few, by rw [hs, hl, h.scripts]⟩
  rw [hn] at hl
  exact length_eq_zero_iff.mp hl.symm

theorem createEnigmaOutputs_groups {cloakers0 ours0 cloakers ours final : CCloakingInputsOutputs}
    (h : createEnigmaOutputs env r cloakers0 ours0 {} rng = some (cloakers, ours, final)) :
    ∃ (change : List CTxOut) (groups : List (List CTxOut)),
      final.vout = ours0.vout ++ change ++ (cloakers0.vout ++ groups.flatten) ∧
      PaidTo env r.stealthRootKey (r.senderAddress.encoded, env.privateHash r.senderAddress) change ∧
      List.Forall₂ (fun group (p : CCloakingParticipant) =>
        PaidTo env r.stealthRootKey (p.stealthAddress, p.inOuts.stealthHash) group) groups r.sParticipants := by
  obtain ⟨rng1, change0, change, hc, hm⟩ := createEnigmaOutputs_change h
  obtain ⟨groups, hv, hg⟩ := cloakerOutputs_groups hc
  obtain ⟨amounts, scripts, hne, hle, rfl, hs⟩ := hm.parts
  refine ⟨change, groups, ?_, (paidTo_payTo hs hne (by omega) (le_refl _)).congr
    (map_scriptPubKey_subtractFee hm.feeTaken), hg⟩
  rw [hm.final_vout, hv]

variable (env rootKey) in
theorem recipientOutputs_groups (rootHash : Hash256) (recipients : List (Nat × Int)) (rng : Draws) :
    ∃ groups : List (List CTxOut), recipientOutputs env rootKey rootHash recipients rng = groups.flatten ∧
      List.Forall₂ (fun group (p : Nat × Int) => PaidTo env rootKey (p.1, rootHash) group) groups recipients := by
  induction recipients generalizing rng with
  | nil => exact ⟨[], rfl, .nil⟩
  | cons recipient rest ih =>
    obtain ⟨sx, amount⟩ := recipient
    rw [recipientOutputs]
    have hp := getRandRange_of_lt (show (2 : Int) < 3 by norm_num) rng
    generalize getRandRange 2 3 rng = draw at hp ⊢
    obtain ⟨num, rng1⟩ := draw
    dsimp only at hp ⊢
    obtain ⟨scripts, hs⟩ : ∃ scripts, getEnigmaChangeAddresses env sx rootKey rootHash num.toNat 0 = some scripts := by
      rw [getEnigmaChangeAddresses, if_pos (.inr (by omega))]
      exact ⟨_, rfl⟩
    have hl := length_getEnigmaChangeAddresses env hs
    rw [hs, Option.getD_some]
    have ho : 1 ≤ (scripts.length : Int) := by omega
    have hne := splitAmount_ne_nil amount (show 0 ≤ minTxoutAmount by decide) ho rng1
    have hle := length_splitAmount_le amount minTxoutAmount ho rng1
    generalize splitAmount amount minTxoutAmount scripts.length rng1 = split at hne hle ⊢
    obtain ⟨amounts, rng2⟩ := split
    dsimp only at hne hle ⊢
    obtain ⟨groups, hg, ha⟩ := ih rng2
    refine ⟨payTo amounts scripts :: groups, by rw [hg, flatten_cons], .cons ?_ ha⟩
    exact paidTo_payTo hs hne (by omega) (by omega)

/-! ## The joint transaction -/

/-- The payees of a request: the sender, the recipients and the participants. -/
def CCloakingRequest.payees (env : EnigmaEnv) (rootHash : Hash256) (recipients : List (Nat × Int))
    (r : CCloakingRequest) : List Payee :=
  (r.senderAddress.encoded, env.privateHash r.senderAddress) :: recipients.map (fun p => (p.1, rootHash)) ++
    r.sParticipants.map fun p => (p.stealthAddress, p.inOuts.stealthHash)

structure JointGroups (env : EnigmaEnv) (rootHash : Hash256) (recipients : List (Nat × Int)) (r : CCloakingRequest)
    (tx : CTransaction) (vout : List CTxOut) (groups : List (List CTxOut)) : Prop where
  vout_eq : tx.vout = vout ++ [⟨minTxoutAmount, stealthNonceScript r.stealthRootKey⟩]
  perm : vout.Perm groups.flatten
  paid : List.Forall₂ (fun p group => PaidTo env r.stealthRootKey p group) (r.payees env rootHash recipients) groups

theorem rawtx_createTransactionAndRequestSign {ctx : EnigmaCtx} {s s' : EnigmaWallet}
    {r' : CCloakingRequest} {ok : Bool}
    (h : createTransactionAndRequestSign env ctx s r = (ok, s', r')) :
    r'.rawtx = r.rawtx ∨ ∃ tx, r'.rawtx = some [tx] := by
  unfold createTransactionAndRequestSign at h
  split_ifs at h
  · cases h
    exact .inl rfl
  split at h
  · cases h
    exact .inl rfl
  dsimp only at h
  split at h
  · cases h
    exact .inl rfl
  · cases h
    exact .inr ⟨_, rfl⟩

theorem createTransactionAndRequestSign_groups {ctx : EnigmaCtx} {s s' : EnigmaWallet}
    {r' : CCloakingRequest} {ok : Bool}
    (h : createTransactionAndRequestSign env ctx s r = (ok, s', r')) {inOuts : CCloakingInputsOutputs}
    (hm : s.mapCloakingInputsOutputs[r.getIdHash env]? = some inOuts) {rootHash : Hash256}
      {recipients : List (Nat × Int)}
    (hre : inOuts.vout = recipientOutputs env r.stealthRootKey rootHash recipients rng) (hold : r.rawtx = some [])
    {tx : CTransaction} (hn : r'.rawtx = some [tx]) :
    ∃ vout groups, JointGroups env rootHash recipients r tx vout groups := by
  unfold createTransactionAndRequestSign at h
  split_ifs at h
  · cases h
    rw [hold] at hn
    cases hn
  simp only [hm] at h
  split at h
  · cases h
    rw [hold] at hn
    cases hn
  rename_i cloakers ours final ho
  cases h
  cases hn
  obtain ⟨change, groups, hv, hc, hg⟩ := createEnigmaOutputs_groups ho
  obtain ⟨recGroups, hr, hra⟩ := recipientOutputs_groups env r.stealthRootKey
    rootHash recipients rng
  rw [foldl_addVinVouts_vout, nil_append, hre, hr] at hv
  refine ⟨_, change :: recGroups ++ groups, rfl, (ctx.shuffle.perm final.vout).trans ?_, ?_⟩
  · rw [hv, flatten_append, flatten_cons]
    exact perm_append_comm.append_right _
  · refine rel_append (.cons hc ?_) ?_
    · exact (forall₂_map_left_iff.mpr hra.flip)
    · exact (forall₂_map_left_iff.mpr hg.flip)

theorem ephemPKOf_scriptForKeyID (id : CKeyID) : ephemPKOf (scriptForKeyID id) = none := by
  simp [ephemPKOf, scriptForKeyID, getOp, opReturn]

namespace JointGroups

variable {rootHash : Hash256} {vout : List CTxOut} {o : CTxOut}

section
variable (h : JointGroups env rootHash recipients r tx vout groups)
include h

theorem exists_group (ho : o ∈ vout) :
    ∃ p ∈ r.payees env rootHash recipients, ∃ group, group ⊆ vout ∧ group.length ≤ vout.length ∧ o ∈ group ∧
      PaidTo env r.stealthRootKey p group := by
  obtain ⟨group, hg, ho'⟩ := mem_flatten.mp (h.perm.mem_iff.mp ho)
  obtain ⟨p, hp, hpa⟩ : ∃ p ∈ r.payees env rootHash recipients, PaidTo env r.stealthRootKey p group := by
    have hpa := h.paid
    generalize r.payees env rootHash recipients = ps at hpa ⊢
    clear h
    induction hpa with
    | nil => cases hg
    | cons hh _ ih =>
      rcases mem_cons.mp hg with rfl | hg
      · exact ⟨_, mem_cons_self, hh⟩
      · obtain ⟨p, hp, hpa⟩ := ih hg
        exact ⟨p, mem_cons_of_mem _ hp, hpa⟩
  have hs := sublist_flatten_of_mem hg
  exact ⟨p, hp, group, fun x hx => h.perm.mem_iff.mpr (hs.subset hx), h.perm.length_eq ▸ hs.length_le, ho', hpa⟩

theorem script (ho : o ∈ vout) : ∃ id, o.scriptPubKey = scriptForKeyID id := by
  obtain ⟨p, -, group, -, -, ho', hp⟩ := h.exists_group ho
  obtain ⟨i, -, heq⟩ := hp.mem ho'
  exact ⟨_, heq⟩

theorem ne_nonce (hroot : r.stealthRootKey.length = 33)
    (ho : o ∈ vout) : o ≠ ⟨minTxoutAmount, stealthNonceScript r.stealthRootKey⟩ := by
  rintro rfl
  obtain ⟨id, hid⟩ := h.script ho
  have hk := ephemPKOf_stealthNonceScript hroot
  rw [show stealthNonceScript r.stealthRootKey = scriptForKeyID id from hid, ephemPKOf_scriptForKeyID] at hk
  cases hk

theorem vout_ne_nil : vout ≠ [] := by
  rintro rfl
  have hp := h.paid
  have hpe := h.perm
  cases hp with
  | cons hc hr =>
    exact hc.nonempty (append_eq_nil_iff.mp hpe.nil_eq.symm).1

end

end JointGroups

end

end CloakCoin.Enigma
