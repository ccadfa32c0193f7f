import CloakCoin.Enigma.Sample

/-!
# The outputs of the joint transaction

`CreateEnigmaOutputs` splits the reward between the participants, returns to each of them its inputs
with its reward in random parts, and gives the rest to the sender as change, less the network fee.
-/

namespace CloakCoin.Enigma

open Chain Lib List

variable {rng : Draws} {min maxparts : Int}

/-! ## `SplitAmount` -/

/-- The loop, with `k` of the parts still to be drawn. -/
def splitLoop (amount min : Int) : Nat → Int → List Int → Draws → Int × List Int × Draws
  | 0, assigned, results, rng => (assigned, results, rng)
  | k + 1, assigned, results, rng =>
    let (amt, rng) := getRandRange min ((amount - assigned).tdiv (k + 1)) rng
    if assigned + amt < amount ∧ amt > min then
      splitLoop amount min k (assigned + amt) (results ++ [amt]) rng
    else splitLoop amount min k assigned results rng

def splitAmount (amount min maxparts : Int) (rng : Draws) : List Int × Draws :=
  if amount.tdiv maxparts ≤ min then ([amount], rng)
  else
    let (assigned, results, rng) := splitLoop amount min maxparts.toNat 0 [] rng
    -- handle dust
    if assigned < amount then
      let remain := amount - assigned
      -- `results.at(0)` exists here: without results `remain` is all of `amount`
      if results.length = maxparts ∨ remain ≤ min then (results.modifyHead (· + remain), rng)
      else (results ++ [remain], rng)
    else (results, rng)

theorem splitLoop_spec (h : splitLoop amount min k assigned results rng = (assigned', results', rng'))
    (hlt : assigned < amount) (hs : results.sum = assigned) : results'.sum = assigned' ∧ assigned' < amount := by
  induction k generalizing assigned results rng with
  | zero =>
    cases h
    exact ⟨hs, hlt⟩
  | succ k ih =>
    simp only [splitLoop] at h
    split at h
    · rename_i ha
      exact ih h ha.1 (by simp [hs])
    · exact ih h hlt hs

theorem sum_modifyHead (hl : l ≠ []) (r : Int) : (l.modifyHead (· + r)).sum = l.sum + r := by
  cases l with
  | nil => exact absurd rfl hl
  | cons x xs =>
    simp only [modifyHead_cons, sum_cons]
    omega

theorem sum_splitAmount (amount : Int) (hm : 0 ≤ min) (hp : 1 ≤ maxparts) (rng : Draws) :
    (splitAmount amount min maxparts rng).1.sum = amount := by
  unfold splitAmount
  split
  · simp
  have hpo : 0 < amount := by
    by_contra hneg
    have hle : amount.tdiv maxparts ≤ 0 := by
      rw [← neg_neg amount, Int.neg_tdiv]
      have := Int.tdiv_nonneg (a := -amount) (b := maxparts) (by omega) (by omega)
      omega
    omega
  have hge : min < amount := by
    have := Int.tdiv_le_self (b := maxparts) hpo.le
    omega
  rcases hl : splitLoop amount min maxparts.toNat 0 [] rng with ⟨assigned, results, rng'⟩
  obtain ⟨hs, hlt⟩ := splitLoop_spec hl hpo rfl
  simp only [if_pos hlt]
  split
  · rename_i hd
    have hne : results ≠ [] := by
      rintro rfl
      simp only [sum_nil, length_nil, Nat.cast_zero] at hs hd
      omega
    rw [sum_modifyHead hne, hs]
    omega
  · simp [hs]

theorem length_splitLoop_le (amount min : Int) (k : Nat) (assigned : Int) (results : List Int) (rng : Draws) :
    (splitLoop amount min k assigned results rng).2.1.length ≤ results.length + k := by
  induction k generalizing assigned results rng with
  | zero => exact le_refl _
  | succ k ih =>
    rw [splitLoop]
    dsimp only
    split_ifs
    · refine (ih _ _ _).trans ?_
      rw [length_append, length_singleton]
      omega
    · exact (ih _ _ _).trans (by omega)

theorem length_splitAmount_le (amount min : Int) (hp : 1 ≤ maxparts) (rng : Draws) :
    ((splitAmount amount min maxparts rng).1.length : Int) ≤ maxparts := by
  have hl := length_splitLoop_le amount min maxparts.toNat 0 [] rng
  unfold splitAmount
  split_ifs
  · exact hp
  generalize splitLoop amount min maxparts.toNat 0 [] rng = res at hl ⊢
  obtain ⟨assigned, results, rng'⟩ := res
  rw [length_nil, Nat.zero_add] at hl
  dsimp only at hl ⊢
  split_ifs with hd ha
  · rw [length_modifyHead]
    omega
  · rw [length_append, length_singleton]
    omega
  · show (results.length : Int) ≤ maxparts
    omega

theorem splitAmount_ne_nil (amount : Int) (hm : 0 ≤ min) (hp : 1 ≤ maxparts) (rng : Draws) :
    (splitAmount amount min maxparts rng).1 ≠ [] := by
  intro hn
  have hs := sum_splitAmount amount hm hp rng
  rw [hn, sum_nil] at hs
  subst hs
  unfold splitAmount at hn
  rw [Int.zero_tdiv, if_pos hm] at hn
  cases hn

theorem splitLoop_above (amount min : Int) (k : Nat) (assigned : Int) (results : List Int) (rng : Draws)
    (h : ∀ part ∈ results, min < part) : ∀ part ∈ (splitLoop amount min k assigned results rng).2.1, min < part := by
  induction k generalizing assigned results rng with
  | zero => exact h
  | succ k ih =>
    rw [splitLoop]
    dsimp only
    split
    · rename_i ha
      apply ih
      intro part hp
      rcases mem_append.mp hp with hp | hp
      · exact h part hp
      · rw [mem_singleton.mp hp]
        exact ha.2
    · exact ih _ _ _ h

theorem splitAmount_above (hb : min < amount.tdiv maxparts) (rng : Draws) :
    ∀ part ∈ (splitAmount amount min maxparts rng).1, min < part := by
  have ha := splitLoop_above amount min maxparts.toNat 0 [] rng (by simp)
  unfold splitAmount
  rw [if_neg (not_le.mpr hb)]
  generalize splitLoop amount min maxparts.toNat 0 [] rng = res at ha
  obtain ⟨assigned, results, rng'⟩ := res
  dsimp only at ha ⊢
  split_ifs with hd had
  · -- the first part grows by the dust
    cases results with
    | nil => simp
    | cons first rest =>
      rw [forall_mem_cons] at ha
      simp only [modifyHead_cons, forall_mem_cons]
      exact ⟨by omega, ha.2⟩
  · intro part hp
    rcases mem_append.mp hp with hp | hp
    · exact ha part hp
    · rw [mem_singleton.mp hp]
      omega
  · exact ha

/-- **A split is an exact partition** into parts above the minimum, whatever is drawn. -/
theorem splitAmount_partition (amount min maxparts : Int) (_ : 0 < amount) (hparts : 1 ≤ maxparts) (hmin : 0 ≤ min)
    (hbig : min < amount.tdiv maxparts) (rng : Draws) :
    (splitAmount amount min maxparts rng).1.sum = amount ∧ 1 ≤ (splitAmount amount min maxparts rng).1.length ∧
      ((splitAmount amount min maxparts rng).1.length : Int) ≤ maxparts ∧
      ∀ part ∈ (splitAmount amount min maxparts rng).1, min < part := by
  refine ⟨sum_splitAmount amount hmin hparts rng, ?_, length_splitAmount_le amount min hparts rng,
    splitAmount_above hbig rng⟩
  exact length_pos_of_ne_nil (splitAmount_ne_nil amount hmin hparts rng)

/-- Three equal draws; the dust goes to the first part. -/
theorem splitAmount_partition_hundred : (splitAmount 100 10 3 (Stream'.const 20)).1 = [40, 30, 30] ∧
      (splitAmount 100 10 3 (Stream'.const 20)).1.sum = 100 :=
  ⟨by decide, (splitAmount_partition 100 10 3 (by decide) (by decide) (by decide) (by decide) (Stream'.const 20)).1⟩

/-! ## Rewards -/

/-- Each participant is guaranteed from 30-70% of the evenly split amount. -/
def drawDistribution : Nat → Draws → List Nat × Draws
  | 0, rng => ([], rng)
  | n + 1, rng =>
    let (d, rng) := getRandRange 30000 70000 rng
    let (ds, rng) := drawDistribution n rng
    (d.toNat :: ds, rng)

def participantRewards (totalReward : Int) (dist : List Nat) : List Nat :=
  let totalParticipantDistribution := dist.sum % 2 ^ 64
  let first := dist.dropLast.map fun d : Nat => uint64 (totalReward * d) / totalParticipantDistribution
  first ++ [uint64 (totalReward - first.sum)]

theorem length_drawDistribution (n : Nat) (rng : Draws) : (drawDistribution n rng).1.length = n := by
  induction n generalizing rng with
  | zero => rfl
  | succ n ih => simp [drawDistribution, ih]

theorem mem_drawDistribution (h : d ∈ (drawDistribution n rng).1) : 30000 ≤ d ∧ d ≤ 70000 := by
  induction n generalizing rng with
  | zero => cases h
  | succ n ih =>
    simp only [drawDistribution, mem_cons] at h
    rcases h with rfl | h
    · have := getRandRange_of_lt (show (30000 : Int) < 70000 by norm_num) rng
      omega
    · exact ih h

theorem length_participantRewards (totalReward : Int) {dist : List Nat} (h : dist ≠ []) :
    (participantRewards totalReward dist).length = dist.length := by
  have := length_pos_of_ne_nil h
  simp only [participantRewards, length_append, length_map, length_dropLast, length_singleton]
  omega

theorem sum_map_div_le (T total : Nat) (l : List Nat) (hl : l.sum ≤ total) :
    (l.map fun d => T * d / total).sum ≤ T := by
  rcases Nat.eq_zero_or_pos total with rfl | hp
  · simp
  have hm : (l.map fun d => T * d / total).sum * total ≤ T * l.sum := by
    clear hl
    induction l with
    | nil => simp
    | cons d l ih =>
      have := Nat.div_mul_le_self (T * d) total
      simp only [map_cons, sum_cons, add_mul, mul_add]
      omega
  exact Nat.le_of_mul_le_mul_right (hm.trans (Nat.mul_le_mul_left T hl)) hp

theorem sum_participantRewards {totalReward : Int} (h0 : 0 ≤ totalReward) (hfi : totalReward < 2 ^ 64)
    {dist : List Nat} (hdi : dist.sum < 2 ^ 64) (hm : ∀ d ∈ dist, totalReward * d < 2 ^ 64) :
    ((participantRewards totalReward dist).sum : Int) = totalReward := by
  obtain ⟨T, rfl⟩ := Int.eq_ofNat_of_zero_le h0
  have hf : (dist.dropLast.map fun d : Nat => uint64 ((T : Int) * d) / (dist.sum % 2 ^ 64)) =
      dist.dropLast.map fun d => T * d / dist.sum := by
    refine map_congr_left fun d hd => ?_
    have hlt := hm d (dropLast_subset dist hd)
    have hu := uint64_of_nonneg (by positivity) hlt
    have hv : uint64 ((T : Int) * d) = T * d := by exact_mod_cast hu
    rw [hv, Nat.mod_eq_of_lt hdi]
  have hs : dist.dropLast.sum ≤ dist.sum := (dropLast_sublist dist).sum_le_sum fun _ _ => Nat.zero_le _
  have hle := sum_map_div_le T dist.sum dist.dropLast hs
  simp only [participantRewards, hf, sum_append, sum_singleton]
  generalize (dist.dropLast.map fun d => T * d / dist.sum).sum = first at hle
  have hl := uint64_of_nonneg (x := (T : Int) - first) (by omega) (by omega)
  omega

/-! ## `CreateCloakerTxOutputs` -/

def CCloakingInputsOutputs.outputAmount (io : CCloakingInputsOutputs) : Nat :=
  uint64 (io.vout.map CTxOut.nValue).sum

def CCloakingInputsOutputs.addVinVouts (io inouts : CCloakingInputsOutputs) (addInputs addOuputs : Bool := true) :
    CCloakingInputsOutputs :=
  { io with vin := if addInputs then io.vin ++ inouts.vin else io.vin
            vout := if addOuputs then io.vout ++ inouts.vout else io.vout }

def payTo (amounts : List Int) (scripts : List CScript) : List CTxOut := List.zipWith CTxOut.mk amounts scripts

theorem map_nValue_payTo (h : scripts.length = amounts.length) :
    (payTo amounts scripts).map CTxOut.nValue = amounts := by
  rw [payTo, ← map_uncurry_zip_eq_zipWith, map_map]
  exact map_fst_zip h.ge

section
variable (env : EnigmaEnv)

def paysKeyID (script : CScript) : Bool :=
  match extractDestination env script with
  | some (.keyID _) => true
  | _ => false

def cloakerOutputs (stealthRootKey : List UInt8) :
    List CCloakingParticipant → List Nat → List CTxOut → Draws → Option (List CTxOut × Draws)
  | [], _, outputs, rng => some (outputs, rng)
  | cloaker :: rest, participantReward, outputs, rng =>
    let input := int64 (cloaker.inOuts.nInputAmount + (participantReward.headD 0 : Nat))
    let (parts, rng) := getRandRange 2 4 rng
    let (amounts, rng) := splitAmount input minTxoutAmount parts rng
    match getEnigmaChangeAddresses env cloaker.stealthAddress stealthRootKey cloaker.inOuts.stealthHash
        amounts.length 0 with
    | none => none
    | some scriptChange =>
      if scriptChange.all (paysKeyID env) then
        cloakerOutputs stealthRootKey rest participantReward.tail (outputs ++ payTo amounts scriptChange) rng
      else none

def createCloakerTxOutputs (r : CCloakingRequest) (outputs : List CTxOut) (rng : Draws) :
    Option (List CTxOut × Draws) :=
  let (dist, rng) := drawDistribution r.nParticipantsRequired.toNat rng
  cloakerOutputs env r.stealthRootKey r.sParticipants
    (participantRewards (env.totalReward r.nSendAmount) dist) outputs rng

/-! ## `AddCorrectFee` and `CreateEnigmaOutputs` -/

variable (inOutsParticipants inOutsOurs : CCloakingInputsOutputs)

def correctFee : Int :=
  let tx : CTransaction := { nTime := 0, vin := inOutsParticipants.vin ++ inOutsOurs.vin
                             vout := inOutsParticipants.vout ++ inOutsOurs.vout }
  let nBytes := (tx.serializeSize + tx.vin.length * 120) % (uintMax + 1)
  tx.getMinFee 1 .send nBytes

/-- Take the fee from the first output that can bear it. -/
def subtractFee (intFee : Int) : List CTxOut → Option (List CTxOut)
  | [] => none
  | txout :: rest =>
    if txout.nValue - minTxoutAmount > intFee ∧ txout.nValue > 0 then
      some ({ txout with nValue := txout.nValue - intFee } :: rest)
    else (subtractFee intFee rest).map (txout :: ·)

def addCorrectFee (senderChangeStartIndex : Nat) : Option CCloakingInputsOutputs :=
  (subtractFee (correctFee inOutsParticipants inOutsOurs) (inOutsOurs.vout.drop senderChangeStartIndex)).map
    fun change => { inOutsOurs with vout := inOutsOurs.vout.take senderChangeStartIndex ++ change }

def createEnigmaOutputs (r : CCloakingRequest) (inOutsCloakers inOutsOurs inOutsFinal : CCloakingInputsOutputs)
    (rng : Draws) : Option (CCloakingInputsOutputs × CCloakingInputsOutputs × CCloakingInputsOutputs) :=
  match createCloakerTxOutputs env r inOutsCloakers.vout rng with
  | none => none
  | some (vout, rng) =>
    let inOutsCloakers := { inOutsCloakers with vout := vout }
    let amountIn := int64 (inOutsOurs.nInputAmount + (r.sParticipants.map (·.inOuts.nInputAmount)).sum)
    let amountOut := uint64 (inOutsOurs.outputAmount + inOutsCloakers.outputAmount)
    -- calc our change due, account for op return payment
    let amountRemain := int64 (int64 (amountIn - amountOut) - minTxoutAmount)
    let (parts, rng) := getRandRange 2 3 rng
    let (amounts, _) := splitAmount amountRemain minTxoutAmount parts rng
    match getEnigmaChangeAddresses env r.senderAddress.encoded r.stealthRootKey
        (env.privateHash r.senderAddress) amounts.length 0 with
    | none => none
    | some scriptChange =>
      let senderChangeStartIndex := inOutsOurs.vout.length
      let inOutsOurs := { inOutsOurs with vout := inOutsOurs.vout ++ payTo amounts scriptChange }
      match addCorrectFee inOutsCloakers inOutsOurs senderChangeStartIndex with
      | none => none
      | some inOutsOurs =>
        some (inOutsCloakers, inOutsOurs, (inOutsFinal.addVinVouts inOutsOurs).addVinVouts inOutsCloakers)

/-! ## Conservation -/

def outValue (vout : List CTxOut) : Int := (vout.map CTxOut.nValue).sum

@[simp] theorem outValue_append (a b : List CTxOut) : outValue (a ++ b) = outValue a + outValue b := by
  simp [outValue]

variable {env}

theorem cloakerOutputs_spec
    (h : cloakerOutputs env rootKey cloakers rewards outputs rng = some (outputs', rng'))
    (hl : rewards.length = cloakers.length) : ∃ groups : List (List CTxOut), outputs' = outputs ++ groups.flatten ∧
      List.Forall₂ (fun group (p : CCloakingParticipant × Nat) =>
        outValue group = int64 (p.1.inOuts.nInputAmount + p.2)) groups (cloakers.zip rewards) := by
  induction cloakers generalizing rewards outputs rng with
  | nil =>
    cases h
    exact ⟨[], by simp, by simp⟩
  | cons cloaker rest ih =>
    cases rewards with
    | nil => simp at hl
    | cons reward rewards =>
      simp only [cloakerOutputs, headD_cons, tail_cons] at h
      have hp := getRandRange_of_lt (show (2 : Int) < 4 by norm_num) rng
      generalize getRandRange 2 4 rng = draw at h hp
      obtain ⟨parts, rng1⟩ := draw
      have hsu := sum_splitAmount (int64 (cloaker.inOuts.nInputAmount + reward)) (show 0 ≤ minTxoutAmount by decide)
        (show 1 ≤ parts by omega) rng1
      generalize splitAmount (int64 (cloaker.inOuts.nInputAmount + reward)) minTxoutAmount parts rng1 = split
        at h hsu
      obtain ⟨amounts, rng2⟩ := split
      split at h
      · cases h
      rename_i scripts hs
      split at h
      · obtain ⟨groups, ho, ha⟩ := ih h (by simpa using hl)
        refine ⟨payTo amounts scripts :: groups, by simp [ho], .cons ?_ ha⟩
        rw [outValue, map_nValue_payTo (length_getEnigmaChangeAddresses env hs), hsu]
      · cases h

theorem outValue_subtractFee (h : subtractFee intFee vout = some vout') : outValue vout' = outValue vout - intFee := by
  induction vout generalizing vout' with
  | nil => cases h
  | cons txout rest ih =>
    rw [subtractFee] at h
    split at h
    · cases h
      simp only [outValue, map_cons, sum_cons]
      omega
    obtain ⟨rest', hr, rfl⟩ := Option.map_eq_some_iff.mp h
    have := ih hr
    simp only [outValue, map_cons, sum_cons] at this ⊢
    omega

theorem map_scriptPubKey_subtractFee
    (h : subtractFee intFee vout = some vout') : vout'.map CTxOut.scriptPubKey = vout.map CTxOut.scriptPubKey := by
  induction vout generalizing vout' with
  | nil => cases h
  | cons o rest ih =>
    rw [subtractFee] at h
    split_ifs at h
    · cases h
      rfl
    · obtain ⟨rest', hr, rfl⟩ := Option.map_eq_some_iff.mp h
      rw [map_cons, map_cons, ih hr]

def CCloakingRequest.rewards (env : EnigmaEnv) (r : CCloakingRequest) (rng : Draws) : List Nat :=
  participantRewards (env.totalReward r.nSendAmount) (drawDistribution r.nParticipantsRequired.toNat rng).1

variable (env) in
theorem CCloakingRequest.length_rewards (r : CCloakingRequest) (rng : Draws) (hn : 1 ≤ r.nParticipantsRequired)
    (hl : r.sParticipants.length = r.nParticipantsRequired.toNat) :
    (r.rewards env rng).length = r.sParticipants.length := by
  have hd := length_drawDistribution r.nParticipantsRequired.toNat rng
  rw [rewards, length_participantRewards, hd, hl]
  intro hni
  rw [hni, length_nil] at hd
  omega

structure JointOutputs (env : EnigmaEnv) (r : CCloakingRequest) (rng : Draws)
    (cloakers₀ ours₀ cloakers ours final : CCloakingInputsOutputs) (groups : List (List CTxOut))
    (change : List CTxOut) (fee : Int) : Prop where
  cloakersOut : cloakers.vout = cloakers₀.vout ++ groups.flatten
  shares : List.Forall₂ (fun group (p : CCloakingParticipant × Nat) =>
    outValue group = int64 (p.1.inOuts.nInputAmount + p.2)) groups (r.sParticipants.zip (r.rewards env rng))
  oursOut : ours.vout = ours₀.vout ++ change
  changeValue : outValue change + fee =
    int64 (ours₀.nInputAmount + (r.sParticipants.map (·.inOuts.nInputAmount)).sum - outValue ours₀.vout -
      outValue cloakers.vout - minTxoutAmount)
  feeTaken : ∃ ours₁, addCorrectFee cloakers ours₁ ours₀.vout.length = some ours ∧ fee = correctFee cloakers ours₁
  finalOut : final.vout = ours.vout ++ cloakers.vout
  finalIn : final.vin = ours₀.vin ++ cloakers₀.vin
  oursIn : ours.vin = ours₀.vin

theorem amountRemain_eq (amountIn ours cloakers : Int) :
    int64 (int64 (int64 amountIn - uint64 ((uint64 ours : Int) + uint64 cloakers)) - minTxoutAmount) =
      int64 (amountIn - ours - cloakers - minTxoutAmount) := by
  rw [int64_eq_iff]
  have ho : ((uint64 ((uint64 ours : Int) + uint64 cloakers) : Nat) : Int) ≡ ours + cloakers [ZMOD 2 ^ 64] :=
    (uint64_modEq _).trans ((uint64_modEq ours).add (uint64_modEq cloakers))
  have hin := ((int64_modEq _).trans ((int64_modEq amountIn).sub ho)).sub_right minTxoutAmount
  rwa [← sub_sub] at hin

structure ChangeMade (env : EnigmaEnv) (r : CCloakingRequest)
    (cloakers₀ ours₀ cloakers ours final : CCloakingInputsOutputs) (change₀ change : List CTxOut) : Prop where
  parts : ∃ amounts scripts, amounts ≠ [] ∧ amounts.length ≤ 3 ∧ change₀ = payTo amounts scripts ∧
    getEnigmaChangeAddresses env r.senderAddress.encoded r.stealthRootKey (env.privateHash r.senderAddress)
      amounts.length 0 = some scripts
  value : outValue change₀ = int64 (ours₀.nInputAmount + (r.sParticipants.map (·.inOuts.nInputAmount)).sum -
    outValue ours₀.vout - outValue cloakers.vout - minTxoutAmount)
  feeTaken : subtractFee (correctFee cloakers { ours₀ with vout := ours₀.vout ++ change₀ }) change₀ = some change
  cloakersIn : cloakers.vin = cloakers₀.vin
  ours_eq : ours = { ours₀ with vout := ours₀.vout ++ change }
  final_eq : final = (({} : CCloakingInputsOutputs).addVinVouts ours).addVinVouts cloakers

variable {cloakers₀ cloakers ours₀ final ours : CCloakingInputsOutputs} {r : CCloakingRequest}

theorem ChangeMade.final_vin (h : ChangeMade env r cloakers₀ ours₀ cloakers ours final change0 change) :
    final.vin = ours₀.vin ++ cloakers₀.vin := by
  simp [h.final_eq, h.ours_eq, h.cloakersIn, CCloakingInputsOutputs.addVinVouts]

theorem ChangeMade.final_vout (h : ChangeMade env r cloakers₀ ours₀ cloakers ours final change0 change) :
    final.vout = ours₀.vout ++ change ++ cloakers.vout := by
  simp [h.final_eq, h.ours_eq, CCloakingInputsOutputs.addVinVouts]

section
variable (h : createEnigmaOutputs env r cloakers₀ ours₀ {} rng = some (cloakers, ours, final))
include h

theorem createEnigmaOutputs_change :
    ∃ rng1 change0 change, createCloakerTxOutputs env r cloakers₀.vout rng = some (cloakers.vout, rng1) ∧
      ChangeMade env r cloakers₀ ours₀ cloakers ours final change0 change := by
  unfold createEnigmaOutputs at h
  split at h
  · cases h
  rename_i vout rng1 hc
  dsimp only [CCloakingInputsOutputs.outputAmount] at h
  rw [amountRemain_eq] at h
  have hp := getRandRange_of_lt (show (2 : Int) < 3 by norm_num) rng1
  generalize getRandRange 2 3 rng1 = draw at h hp
  obtain ⟨parts, rng2⟩ := draw
  generalize hr : int64 (ours₀.nInputAmount + (r.sParticipants.map (·.inOuts.nInputAmount)).sum -
    (ours₀.vout.map CTxOut.nValue).sum - (vout.map CTxOut.nValue).sum - minTxoutAmount) = amountRemain at h
  have hsu := sum_splitAmount amountRemain (show 0 ≤ minTxoutAmount by decide) (show 1 ≤ parts by omega) rng2
  have hne := splitAmount_ne_nil amountRemain (show 0 ≤ minTxoutAmount by decide) (show 1 ≤ parts by omega) rng2
  have hle := length_splitAmount_le amountRemain minTxoutAmount (show 1 ≤ parts by omega) rng2
  generalize splitAmount amountRemain minTxoutAmount parts rng2 = split at h hsu hne hle
  obtain ⟨amounts, rng3⟩ := split
  dsimp only at h hsu hne hle
  split at h
  · cases h
  rename_i scripts hs
  split at h
  · cases h
  rename_i ours' hf
  cases h
  obtain ⟨change, hsub, rfl⟩ := Option.map_eq_some_iff.mp hf
  rw [drop_left] at hsub
  refine ⟨rng1, payTo amounts scripts, change, hc, ⟨amounts, scripts, hne, by omega, rfl, hs⟩, ?_, hsub, rfl,
    ?_, rfl⟩
  · rw [outValue, map_nValue_payTo (length_getEnigmaChangeAddresses env hs), hsu, ← hr]
    rfl
  · rw [take_left]

theorem createEnigmaOutputs_spec
    (hn : 1 ≤ r.nParticipantsRequired) (hl : r.sParticipants.length = r.nParticipantsRequired.toNat) :
    ∃ groups change fee, JointOutputs env r rng cloakers₀ ours₀ cloakers ours final groups change fee := by
  obtain ⟨rng1, change0, change, hc, hm⟩ := createEnigmaOutputs_change h
  obtain ⟨groups, hv, hs⟩ := cloakerOutputs_spec hc (r.length_rewards env rng hn hl)
  have ho : ours.vout = ours₀.vout ++ change := by rw [hm.ours_eq]
  have hin : ours.vin = ours₀.vin := by rw [hm.ours_eq]
  refine ⟨groups, change, _, hv, hs, ho, ?_,
    ⟨{ ours₀ with vout := ours₀.vout ++ change0 }, ?_, rfl⟩, ?_, hm.final_vin, hin⟩
  · rw [outValue_subtractFee hm.feeTaken, hm.value, sub_add_cancel]
  · rw [addCorrectFee, drop_left, hm.feeTaken, Option.map_some, take_left, hm.ours_eq]
  · rw [hm.final_vout, ho]

end

/-! ### In integers, when the 64-bit sums do not wrap -/

theorem outValue_groups (h : List.Forall₂ (fun group (p : CCloakingParticipant × Nat) =>
      outValue group = int64 (p.1.inOuts.nInputAmount + p.2)) groups l)
    (hf : ∀ p ∈ l, Fits (p.1.inOuts.nInputAmount + p.2)) : outValue groups.flatten =
      ((l.map Prod.fst).map (·.inOuts.nInputAmount)).sum + ((l.map Prod.snd).sum : Nat) := by
  induction h with
  | nil => rfl
  | @cons group p groups l hg _ ih =>
    have hr := ih fun q hq => hf q (mem_cons_of_mem _ hq)
    rw [int64_of_fits (hf p mem_cons_self)] at hg
    simp only [flatten_cons, outValue_append, hr, hg, map_cons, sum_cons]
    push_cast
    ring

theorem CCloakingRequest.sum_rewards (hn : 1 ≤ r.nParticipantsRequired) (hi : r.nParticipantsRequired < 2 ^ 31)
    (h0 : 0 ≤ env.totalReward r.nSendAmount) (hm : ∀ d ∈ (drawDistribution r.nParticipantsRequired.toNat rng).1,
      env.totalReward r.nSendAmount * d < 2 ^ 64) :
    ((r.rewards env rng).sum : Int) = env.totalReward r.nSendAmount := by
  have hl := length_drawDistribution r.nParticipantsRequired.toNat rng
  have hr := fun d (hd : d ∈ (drawDistribution r.nParticipantsRequired.toNat rng).1) => mem_drawDistribution hd
  unfold rewards
  generalize (drawDistribution r.nParticipantsRequired.toNat rng).1 = dist at hl hr hm ⊢
  have hs : dist.sum ≤ dist.length * 70000 := by
    simpa using sum_le_card_nsmul dist 70000 fun d hd => (hr d hd).2
  obtain ⟨d, hd⟩ := exists_mem_of_length_pos (l := dist) (by omega)
  have hre : env.totalReward r.nSendAmount < 2 ^ 64 := by
    have hd1 : (1 : Int) ≤ d := by have := (hr d hd).1; omega
    have := hm d hd
    nlinarith
  exact sum_participantRewards h0 hre (by omega) hm

namespace JointOutputs

variable {r : CCloakingRequest} {cloakers₀ ours₀ cloakers ours final : CCloakingInputsOutputs}
  {groups : List (List CTxOut)} {change : List CTxOut} {fee : Int}

section
variable (h : JointOutputs env r rng cloakers₀ ours₀ cloakers ours final groups change fee)
include h

theorem outValue_final : outValue final.vout = outValue ours₀.vout + outValue change + outValue cloakers.vout := by
  rw [h.finalOut, h.oursOut, outValue_append, outValue_append]

theorem conserves_int64 : int64 (ours₀.nInputAmount + (r.sParticipants.map (·.inOuts.nInputAmount)).sum) =
      int64 (outValue final.vout + minTxoutAmount + fee) := by
  rw [int64_eq_iff, h.outValue_final]
  have hm := int64_modEq (ours₀.nInputAmount + (r.sParticipants.map (·.inOuts.nInputAmount)).sum -
    outValue ours₀.vout - outValue cloakers.vout - minTxoutAmount)
  rw [← h.changeValue] at hm
  have hs := hm.symm.add_right (outValue ours₀.vout + outValue cloakers.vout + minTxoutAmount)
  convert hs using 1 <;> ring

theorem conserves (hl : (r.rewards env rng).length = r.sParticipants.length)
    (hr : ((r.rewards env rng).sum : Int) = env.totalReward r.nSendAmount)
    (hf : ∀ p ∈ r.sParticipants.zip (r.rewards env rng), Fits (p.1.inOuts.nInputAmount + p.2))
    (hfi : Fits (ours₀.nInputAmount - outValue ours₀.vout - outValue cloakers₀.vout -
      env.totalReward r.nSendAmount - minTxoutAmount)) :
    ours₀.nInputAmount + (r.sParticipants.map (·.inOuts.nInputAmount)).sum =
      outValue final.vout + minTxoutAmount + fee := by
  have hg := outValue_groups h.shares hf
  rw [map_snd_zip hl.le, map_fst_zip hl.ge, hr] at hg
  have hcl : outValue cloakers.vout = outValue cloakers₀.vout + outValue groups.flatten := by
    rw [h.cloakersOut, outValue_append]
  have ha : ours₀.nInputAmount + (r.sParticipants.map (·.inOuts.nInputAmount)).sum - outValue ours₀.vout -
      outValue cloakers.vout - minTxoutAmount = ours₀.nInputAmount - outValue ours₀.vout -
      outValue cloakers₀.vout - env.totalReward r.nSendAmount - minTxoutAmount := by
    rw [hcl, hg]
    ring
  have hc := h.changeValue
  rw [ha, int64_of_fits hfi, ← ha] at hc
  rw [h.outValue_final]
  linarith

end

end JointOutputs

/-- **The joint transaction conserves money**: as 64-bit amounts for all amounts, and as integers as
soon as no sum leaves the 64 bits. The rewards add up, each participant gets its inputs and its
reward, and the outputs of the recipients stay as they are. -/
theorem createEnigmaOutputs_conserves (env : EnigmaEnv) (r : CCloakingRequest)
    (cloakers₀ ours₀ cloakers ours final : CCloakingInputsOutputs) (rng : Draws) (hn : 1 ≤ r.nParticipantsRequired)
    (hint : r.nParticipantsRequired < 2 ^ 31) (hlen : r.sParticipants.length = r.nParticipantsRequired.toNat)
    (h0 : 0 ≤ env.totalReward r.nSendAmount) (hmul : ∀ d ∈ (drawDistribution r.nParticipantsRequired.toNat rng).1,
      env.totalReward r.nSendAmount * d < 2 ^ 64)
    (h : createEnigmaOutputs env r cloakers₀ ours₀ {} rng = some (cloakers, ours, final)) : ∃ groups change fee,
      ((r.rewards env rng).sum : Int) = env.totalReward r.nSendAmount ∧
      cloakers.vout = cloakers₀.vout ++ groups.flatten ∧
      List.Forall₂ (fun group (p : CCloakingParticipant × Nat) =>
        outValue group = int64 (p.1.inOuts.nInputAmount + p.2) ∧
          (Fits (p.1.inOuts.nInputAmount + p.2) → outValue group = p.1.inOuts.nInputAmount + p.2))
        groups (r.sParticipants.zip (r.rewards env rng)) ∧
      ours.vout = ours₀.vout ++ change ∧ final.vout = ours.vout ++ cloakers.vout ∧
      (∃ ours₁, addCorrectFee cloakers ours₁ ours₀.vout.length = some ours ∧ fee = correctFee cloakers ours₁) ∧
      int64 (ours₀.nInputAmount + (r.sParticipants.map (·.inOuts.nInputAmount)).sum) =
        int64 (outValue final.vout + minTxoutAmount + fee) ∧
      ((∀ p ∈ r.sParticipants.zip (r.rewards env rng), Fits (p.1.inOuts.nInputAmount + p.2)) →
        Fits (ours₀.nInputAmount - outValue ours₀.vout - outValue cloakers₀.vout -
          env.totalReward r.nSendAmount - minTxoutAmount) →
        ours₀.nInputAmount + (r.sParticipants.map (·.inOuts.nInputAmount)).sum =
          outValue final.vout + minTxoutAmount + fee) := by
  obtain ⟨groups, change, fee, hj⟩ := createEnigmaOutputs_spec h hn hlen
  have hr := r.sum_rewards hn hint h0 hmul
  have hs : ∀ (g : List CTxOut) (p : CCloakingParticipant × Nat),
      outValue g = int64 (p.1.inOuts.nInputAmount + p.2) → outValue g = int64 (p.1.inOuts.nInputAmount + p.2) ∧
        (Fits (p.1.inOuts.nInputAmount + p.2) → outValue g = p.1.inOuts.nInputAmount + p.2) := by
    intro g p hg
    exact ⟨hg, fun hfit => by rw [hg, int64_of_fits hfit]⟩
  exact ⟨groups, change, fee, hr, hj.cloakersOut, hj.shares.imp hs, hj.oursOut, hj.finalOut,
    hj.feeTaken, hj.conserves_int64, hj.conserves (r.length_rewards env rng hn hlen) hr⟩

end

/-! ### Two participants and a sender -/

namespace Sample

def joint : CCloakingRequest :=
  { identifier := ⟨1, 1⟩, nSendAmount := 2000000, nParticipantsRequired := 2
    sParticipants := [⟨2, 2, { nInputAmount := 4 * coin }⟩, ⟨3, 3, { nInputAmount := 5 * coin }⟩] }

def jointOurs : CCloakingInputsOutputs :=
  { vout := [⟨2 * coin, [9]⟩], nSendAmount := 2 * coin, nInputAmount := 3 * coin }

def jointDraws : Draws := fun n => 7919 * n

end Sample

open Sample in
theorem createEnigmaOutputs_conserves_joint : ∃ cloakers ours final fee,
      createEnigmaOutputs (env []) joint {} jointOurs {} jointDraws = some (cloakers, ours, final) ∧
      3 * coin + 9 * coin = outValue final.vout + minTxoutAmount + fee := by
  obtain ⟨⟨cloakers, ours, final⟩, hout⟩ := Option.isSome_iff_exists.mp
    (show (createEnigmaOutputs (env []) joint {} jointOurs {} jointDraws).isSome = true by decide)
  obtain ⟨groups, change, fee, -, -, -, -, -, -, -, he⟩ := createEnigmaOutputs_conserves (env []) joint {} jointOurs
    cloakers ours final jointDraws (by decide) (by decide) (by decide) (by decide) (by decide) hout
  exact ⟨cloakers, ours, final, fee, hout, he (by decide) (by decide)⟩

end CloakCoin.Enigma
