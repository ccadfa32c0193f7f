import CloakCoin.Chain.Fee
import CloakCoin.Enigma.Groups
import CloakCoin.Enigma.Quorum
import CloakCoin.Lib.Lists

/-!
# The fee of the joint transaction

`AddCorrectFee` takes the fee from the change of the sender before the transaction is complete: for its
size without the output that carries the root key, and with 120 bytes for each signature to come. The
mempool asks for the fee of the final size, and for more if a block would be half full with it.
-/

namespace CloakCoin.Enigma

open Chain Lib List
open Std (ExtTreeMap)

variable {tx : CTransaction}

theorem Resigned.signedWith (tx : CTransaction) (n : Nat) : Resigned tx (tx.signedWith n) :=
  ⟨rfl, by simp [CTransaction.signedWith, map_map, Function.comp_def]⟩

theorem getSizeOfCompactSize_mem (n : Nat) : 1 ≤ getSizeOfCompactSize n ∧ getSizeOfCompactSize n ≤ 9 := by
  unfold getSizeOfCompactSize
  split_ifs <;> omega

theorem bytesSize_mono {a b : List UInt8} (h : a.length ≤ b.length) : bytesSize a ≤ bytesSize b := by
  unfold bytesSize getSizeOfCompactSize
  split_ifs <;> omega

theorem serializeSize_le {tx' : CTransaction} (hvi : tx'.vin.length = tx.vin.length)
    (hs : (tx'.vin.map CTxIn.serializeSize).sum ≤ (tx.vin.map CTxIn.serializeSize).sum)
    (hr : tx' = { tx with vin := tx'.vin }) : tx'.serializeSize ≤ tx.serializeSize := by
  have hvo : tx'.vout = tx.vout := by rw [hr]
  have hv : tx'.nVersion = tx.nVersion := by rw [hr]
  have hd : tx'.data = tx.data := by rw [hr]
  rw [CTransaction.serializeSize, CTransaction.serializeSize, hvi, hvo, hv, hd]
  omega

theorem serializeSize_perm {a b : CTransaction} (hvi : a.vin.Perm b.vin)
    (hvo : (a.vout.map CTxOut.scriptPubKey).Perm (b.vout.map CTxOut.scriptPubKey))
    (hv : a.nVersion = b.nVersion) (hd : a.data = b.data) : a.serializeSize = b.serializeSize := by
  have hm : ∀ vout : List CTxOut, vout.map CTxOut.serializeSize =
      (vout.map CTxOut.scriptPubKey).map fun s => 8 + bytesSize s := by
    intro vout
    rw [map_map]
    rfl
  have hl : a.vout.length = b.vout.length := by simpa using hvo.length_eq
  rw [CTransaction.serializeSize, CTransaction.serializeSize, hm, hm, hvi.length_eq, hl, hv, hd,
    (hvi.map CTxIn.serializeSize).sum_eq, (hvo.map fun s => 8 + bytesSize s).sum_eq]

theorem sum_serializeSize_signedWith (tx : CTransaction) :
    ((tx.signedWith 108).vin.map CTxIn.serializeSize).sum = tx.vin.length * 149 := by
  have hf : ∀ txin : CTxIn, ({ txin with scriptSig := replicate 108 0 } : CTxIn).serializeSize = 149 := by
    intro txin
    rfl
  rw [CTransaction.signedWith, map_map]
  simp only [Function.comp_def, hf, map_const', sum_replicate, smul_eq_mul]

theorem largestSize_eq (hv : tx.nVersion = 1) :
    tx.largestSize = 12 + getSizeOfCompactSize tx.vin.length + tx.vin.length * 149 +
      getSizeOfCompactSize tx.vout.length + (tx.vout.map CTxOut.serializeSize).sum := by
  rw [CTransaction.largestSize, CTransaction.serializeSize, sum_serializeSize_signedWith]
  simp [CTransaction.signedWith, hv]
  omega

theorem Resigned.serializeSize_le {signed : CTransaction} (h : Resigned tx signed)
    (hs : ∀ txin ∈ signed.vin, txin.scriptSig.length ≤ 108) : signed.serializeSize ≤ tx.largestSize := by
  apply Enigma.serializeSize_le
  · rw [h.length_vin]
    simp [CTransaction.signedWith]
  · rw [sum_serializeSize_signedWith, ← h.length_vin]
    apply sum_map_le_of_le
    intro txin ht
    have hm := bytesSize_mono (a := txin.scriptSig) (b := replicate 108 0)
      (by exact hs txin ht)
    have hf : bytesSize (replicate 108 0) = 109 := rfl
    rw [CTxIn.serializeSize]
    omega
  · rw [h.rest]
    rfl

theorem minFee_le_iff (hsi : 1000 + tx.largestSize ≤ uintMax) :
    (∀ signed, Resigned tx signed → (∀ txin ∈ signed.vin, txin.scriptSig.length ≤ 108) →
      signed.getMinFee 1000 .relay signed.serializeSize ≤ (1 + (tx.estimatedSize : Int) / 1000) * minTxFee) ↔
      tx.FeeEnough := by
  have he : tx.estimatedSize ≤ uintMax := Nat.le_of_lt_succ (Nat.mod_lt _ (Nat.succ_pos _))
  constructor
  · intro ha
    have hl := ha (tx.signedWith 108) (.signedWith tx 108) (by simp [CTransaction.signedWith])
    rw [← CTransaction.largestSize, CTransaction.getMinFee_relay _ hsi] at hl
    split at hl
    · -- the price of a full block is out of reach
      have hu : uintMax = 4294967295 := rfl
      rw [maxMoney, coin, minTxFee, cent] at hl
      omega
    · rename_i hr
      refine ⟨not_le.mp hr, ?_⟩
      rw [minRelayTxFee, minTxFee, cent] at hl
      have := le_of_mul_le_mul_right hl (by norm_num)
      exact_mod_cast this
  · rintro ⟨hr, hp⟩ signed hs hsig
    have hle := hs.serializeSize_le hsig
    have hn : ¬1000 + signed.serializeSize ≥ maxBlockSizeGen := by omega
    rw [CTransaction.getMinFee_relay _ (by omega), if_neg hn, minRelayTxFee, minTxFee]
    apply mul_le_mul_of_nonneg_right _ (by decide)
    have hc := CTransaction.crowding_mono hle hr
    have hst : 1 + signed.serializeSize / 1000 ≤ 1 + tx.largestSize / 1000 :=
      Nat.add_le_add_left (Nat.div_le_div_right hle) 1
    exact_mod_cast (Nat.mul_le_mul hst hc).trans hp

/-! ## What is left for the fee -/

theorem Resigned.inputsValue {signed : CTransaction} (h : Resigned tx signed) (src : TxSource) :
    src.inputsValue signed.vin = src.inputsValue tx.vin := by
  have hm : ∀ vin : List CTxIn, src.inputsValue vin = ((vin.map CTxIn.prevout).map src.inputValue).sum := by
    intro vin
    rw [map_map]
    rfl
  rw [hm, hm, h.prevouts]

theorem paysFee_spec {ctx : EnigmaCtx} (h : paysFee ctx tx = true) :
    0 ≤ outValue tx.vout ∧ minTxFee ≤ ctx.inputsValue tx.vin - outValue tx.vout := by
  unfold paysFee at h
  split at h
  · rename_i mapInputs hf
    split at h
    · rename_i valIn valOut hin hou
      obtain ⟨hva, hp⟩ := CTransaction.getValueOut_eq_some hou
      have hn : 0 ≤ tx.valueOut := by
        apply sum_nonneg
        intro v hv
        obtain ⟨o, ho, rfl⟩ := mem_map.mp hv
        exact hp o ho
      have hfe : minTxFee ≤ valIn - valOut := by simpa using h
      have hb : tx.isCoinBase = false := by
        by_contra hb
        rw [CTransaction.getValueIn, if_pos (by simpa using hb)] at hin
        cases hin
        rw [hva, minTxFee, cent] at hfe
        omega
      rw [CTransaction.getValueIn, hb, if_neg Bool.false_ne_true] at hin
      rw [LookedUp.value_eq (fetchInputs_lookedUp hf) hin, hva] at hfe
      exact ⟨hn, hfe⟩
    · cases h
  · cases h

/-! ## The joint transaction -/

def CCloakingRequest.jointInputs (r : CCloakingRequest) (io : CCloakingInputsOutputs) : List CTxIn :=
  io.vin ++ r.sParticipants.flatMap fun p => p.inOuts.vin

/-- The recorded input amounts are right. -/
structure AmountsRight (ctx : EnigmaCtx) (r : CCloakingRequest) (io : CCloakingInputsOutputs) : Prop where
  ours : io.nInputAmount = ctx.inputsValue io.vin
  others : ∀ p ∈ r.sParticipants, p.inOuts.nInputAmount = ctx.inputsValue p.inOuts.vin

theorem AmountsRight.sum_eq {ctx : EnigmaCtx} {r : CCloakingRequest} {io : CCloakingInputsOutputs}
    (h : AmountsRight ctx r io) :
    io.nInputAmount + (r.sParticipants.map (·.inOuts.nInputAmount)).sum = ctx.inputsValue (r.jointInputs io) := by
  have ho : ∀ ps : List CCloakingParticipant, (∀ p ∈ ps, p.inOuts.nInputAmount = ctx.inputsValue p.inOuts.vin) →
      (ps.map (·.inOuts.nInputAmount)).sum = ctx.inputsValue (ps.flatMap fun p => p.inOuts.vin) := by
    intro ps ha
    induction ps with
    | nil => rfl
    | cons p ps ih =>
      rw [map_cons, sum_cons, flatMap_cons, TxSource.inputsValue_append, ha p mem_cons_self,
        ih fun q hq => ha q (mem_cons_of_mem p hq)]
  rw [CCloakingRequest.jointInputs, TxSource.inputsValue_append, h.ours, ho _ h.others]

theorem foldl_addVinVouts_vin (ps : List CCloakingParticipant) (io : CCloakingInputsOutputs) :
    (ps.foldl (fun io cloaker => io.addVinVouts cloaker.inOuts true false) io).vin =
      io.vin ++ ps.flatMap fun p => p.inOuts.vin := by
  induction ps generalizing io with
  | nil => simp
  | cons p ps ih =>
    rw [foldl_cons, ih, flatMap_cons, ← append_assoc]
    rfl

structure JointBuilt (env : EnigmaEnv) (ctx : EnigmaCtx) (r : CCloakingRequest) (io : CCloakingInputsOutputs)
    (tx : CTransaction) (cloakers ours final : CCloakingInputsOutputs) : Prop where
  outputs : createEnigmaOutputs env r (r.sParticipants.foldl
    (fun io cloaker => io.addVinVouts cloaker.inOuts true false) {})
    io {} ctx.rng = some (cloakers, ours, final)
  tx_eq : tx = jointTransaction ctx r final
  pays : paysFee ctx tx = true

section
variable {env : EnigmaEnv} {ctx : EnigmaCtx} {r : CCloakingRequest} {io cloakers ours final : CCloakingInputsOutputs}
  {tx : CTransaction}

theorem createTransactionAndRequestSign_built {s s' : EnigmaWallet} {r' : CCloakingRequest}
    (h : createTransactionAndRequestSign env ctx s r = (true, s', r'))
    (hf : r.nParticipantsRequired ≤ r.sParticipants.length)
    (hm : s.mapCloakingInputsOutputs[r.getIdHash env]? = some io) (hr : r'.signedrawtx = some [tx]) :
    ∃ cloakers ours final, JointBuilt env ctx r io tx cloakers ours final := by
  unfold createTransactionAndRequestSign at h
  rw [if_neg (not_lt.mpr hf)] at h
  simp only [hm] at h
  split at h
  · cases h
  rename_i cloakers ours final ho
  obtain ⟨hp, h⟩ := Prod.mk.inj h
  obtain ⟨-, rfl⟩ := Prod.mk.inj h
  have htx : jointTransaction ctx r final = tx := by simpa using hr
  exact ⟨cloakers, ours, final, ho, htx.symm, htx ▸ hp⟩

namespace JointBuilt

section
variable (h : JointBuilt env ctx r io tx cloakers ours final)
include h

theorem vin_perm : tx.vin.Perm (r.jointInputs io) := by
  obtain ⟨rng1, change0, change, -, hm⟩ := createEnigmaOutputs_change h.outputs
  rw [h.tx_eq]
  refine (ctx.shuffle.perm final.vin).trans ?_
  rw [hm.final_vin, foldl_addVinVouts_vin]
  exact .refl _

theorem estimatedSize_eq {change0 change : List CTxOut}
    (hm : ChangeMade env r (r.sParticipants.foldl (fun io cloaker => io.addVinVouts cloaker.inOuts true false) {}) io
      cloakers ours final change0 change) :
    correctFee cloakers { io with vout := io.vout ++ change0 } = (1 + (tx.estimatedSize : Int) / 1000) * minTxFee := by
  have hs := map_scriptPubKey_subtractFee hm.feeTaken
  have hvi : tx.vin.Perm (cloakers.vin ++ io.vin) := by
    refine h.vin_perm.trans ?_
    rw [hm.cloakersIn, foldl_addVinVouts_vin]
    exact perm_append_comm
  have hv : (tx.vout.dropLast.map CTxOut.scriptPubKey).Perm
      ((cloakers.vout ++ (io.vout ++ change0)).map CTxOut.scriptPubKey) := by
    rw [h.tx_eq, jointTransaction, dropLast_concat]
    refine ((ctx.shuffle.perm final.vout).map _).trans ?_
    rw [hm.final_vout, map_append, map_append, hs, ← map_append, ← map_append]
    exact perm_append_comm.map _
  have hsi : ({ nTime := 0, vin := cloakers.vin ++ io.vin, vout := cloakers.vout ++ (io.vout ++ change0) } :
      CTransaction).serializeSize = ({ tx with vout := tx.vout.dropLast } : CTransaction).serializeSize := by
    apply serializeSize_perm hvi.symm hv.symm
    · rw [h.tx_eq]
      rfl
    · rw [h.tx_eq]
      rfl
  unfold correctFee CTransaction.estimatedSize
  dsimp only
  rw [hsi, hvi.length_eq]
  exact CTransaction.getMinFee_send _ (Nat.le_of_lt_succ (Nat.mod_lt _ (Nat.succ_pos _)))

theorem fee_eq (ha : AmountsRight ctx r io) (hr : ctx.inputsValue tx.vin ≤ maxMoney) :
    ctx.inputsValue tx.vin - outValue tx.vout = (1 + (tx.estimatedSize : Int) / 1000) * minTxFee := by
  obtain ⟨rng1, change0, change, -, hm⟩ := createEnigmaOutputs_change h.outputs
  have hf := h.estimatedSize_eq hm
  have hc := outValue_subtractFee hm.feeTaken
  rw [hf, hm.value, ha.sum_eq, ← ctx.inputsValue_perm h.vin_perm] at hc
  have ho : outValue tx.vout = outValue io.vout + outValue change + outValue cloakers.vout + minTxoutAmount := by
    rw [h.tx_eq, jointTransaction, outValue_append]
    have hs : outValue (ctx.shuffle.apply final.vout) = outValue final.vout :=
      ((ctx.shuffle.perm final.vout).map CTxOut.nValue).sum_eq
    rw [hs, hm.final_vout, outValue_append, outValue_append]
    simp [outValue]
  have hmo := int64_modEq (ctx.inputsValue tx.vin - outValue io.vout - outValue cloakers.vout - minTxoutAmount)
  obtain ⟨hn, hp⟩ := paysFee_spec h.pays
  have he : tx.estimatedSize ≤ uintMax := Nat.le_of_lt_succ (Nat.mod_lt _ (Nat.succ_pos _))
  have hu : uintMax = 4294967295 := rfl
  rw [minTxFee, cent] at *
  rw [maxMoney, coin] at hr
  rw [Int.modEq_iff_dvd] at hmo
  omega

end

end JointBuilt

/-! ## When the estimate is large enough -/

theorem feeEnough_of_four {last : CTxOut} {vout : List CTxOut} (hv : tx.nVersion = 1)
    (hvo : tx.vout = vout ++ [last]) (hla : last.serializeSize ≤ 44) (hf : 4 ≤ tx.vin.length)
    (hin : (tx.vin.map CTxIn.serializeSize).sum ≤ 2 ^ 31) (hs : tx.largestSize < 249000) : tx.FeeEnough := by
  have he : tx.vin.length * 41 ≤ (tx.vin.map CTxIn.serializeSize).sum := by
    have hle : ∀ n ∈ tx.vin.map CTxIn.serializeSize, 41 ≤ n := by
      intro n hn
      obtain ⟨txin, -, rfl⟩ := mem_map.mp hn
      have ho := (getSizeOfCompactSize_mem txin.scriptSig.length).1
      rw [CTxIn.serializeSize, bytesSize]
      omega
    simpa using card_nsmul_le_sum _ 41 hle
  have hl : tx.largestSize = 12 + getSizeOfCompactSize tx.vin.length + tx.vin.length * 149 +
      getSizeOfCompactSize (vout.length + 1) + (vout.map CTxOut.serializeSize).sum + last.serializeSize := by
    rw [largestSize_eq hv, hvo]
    simp
    omega
  have hes : ({ tx with vout := tx.vout.dropLast } : CTransaction).serializeSize =
      12 + getSizeOfCompactSize tx.vin.length + (tx.vin.map CTxIn.serializeSize).sum +
        getSizeOfCompactSize vout.length + (vout.map CTxOut.serializeSize).sum := by
    simp [CTransaction.serializeSize, hv, hvo]
    omega
  have hfe : vout.length ≤ (vout.map CTxOut.serializeSize).sum := by
    have hle : ∀ n ∈ vout.map CTxOut.serializeSize, 1 ≤ n := by
      intro n hn
      obtain ⟨o, -, rfl⟩ := mem_map.mp hn
      rw [CTxOut.serializeSize]
      omega
    simpa using length_le_sum_of_one_le _ hle
  have hco : getSizeOfCompactSize (vout.length + 1) ≤ getSizeOfCompactSize vout.length + 2 := by
    unfold getSizeOfCompactSize
    split_ifs <;> omega
  have hle : tx.largestSize ≤ tx.estimatedSize := by
    rw [CTransaction.estimatedSize, hes, Nat.mod_eq_of_lt]
    · omega
    · have hu : uintMax = 4294967295 := rfl
      have hc := (getSizeOfCompactSize_mem vout.length).2
      omega
  have hfu : maxBlockSizeGen = 500000 := by decide
  refine ⟨by omega, ?_⟩
  rw [CTransaction.crowding, if_neg (by omega), Nat.mul_one]
  exact Nat.add_le_add_left (Nat.div_le_div_right hle) 1

/-- The joint transaction has four inputs or more and is within half a block. -/
structure JointSmall (r : CCloakingRequest) (io : CCloakingInputsOutputs) : Prop where
  four : 4 ≤ (r.jointInputs io).length
  inputs : ((r.jointInputs io).map CTxIn.serializeSize).sum ≤ 2 ^ 31
  room : 74 + (r.jointInputs io).length * 149 + (io.vout.map CTxOut.serializeSize).sum +
    136 * (r.sParticipants.length + 1) < 249000

theorem PaidTo.sum_serializeSize {rootKey : List UInt8} {p : Payee} {group : List CTxOut}
    (h : PaidTo env rootKey p group)
    (hk : ∀ sx root hash i, (env.enigmaKey sx root hash i).length = 20) :
    (group.map CTxOut.serializeSize).sum ≤ 136 := by
  have hle : (group.map CTxOut.serializeSize).sum ≤ group.length * 34 := by
    apply sum_map_le_of_le
    intro o ho
    obtain ⟨i, -, hs⟩ := h.mem ho
    have hl : o.scriptPubKey.length = 25 := by
      rw [hs, scriptForKeyID, payeeKey]
      simp [hk]
    rw [CTxOut.serializeSize, bytesSize, hl]
    decide
  have hf := h.few
  omega

theorem JointBuilt.largestSize_le (h : JointBuilt env ctx r io tx cloakers ours final)
    (hk : ∀ sx root hash i, (env.enigmaKey sx root hash i).length = 20) (hr : r.stealthRootKey.length = 33) :
    tx.largestSize ≤ 74 + (r.jointInputs io).length * 149 + (io.vout.map CTxOut.serializeSize).sum +
      136 * (r.sParticipants.length + 1) := by
  obtain ⟨change, groups, hvo, hc, hg⟩ := createEnigmaOutputs_groups h.outputs
  have hsu : ∀ (gs : List (List CTxOut)) (ps : List CCloakingParticipant), List.Forall₂ (fun group p =>
      PaidTo env r.stealthRootKey (p.stealthAddress, p.inOuts.stealthHash) group) gs ps →
      (gs.flatten.map CTxOut.serializeSize).sum ≤ 136 * ps.length := by
    intro gs ps ha
    induction ha with
    | nil => exact Nat.le_refl _
    | cons hp _ ih =>
      have := hp.sum_serializeSize hk
      rw [flatten_cons, map_append, sum_append, length_cons]
      omega
  have ho := hsu _ _ hg
  have hou := hc.sum_serializeSize hk
  have hs : ((ctx.shuffle.apply final.vout).map CTxOut.serializeSize).sum =
      (final.vout.map CTxOut.serializeSize).sum := ((ctx.shuffle.perm final.vout).map _).sum_eq
  have hl : (⟨minTxoutAmount, stealthNonceScript r.stealthRootKey⟩ : CTxOut).serializeSize = 44 := by
    simp [CTxOut.serializeSize, bytesSize, stealthNonceScript, hr, getSizeOfCompactSize]
  have htx : tx.vout = ctx.shuffle.apply final.vout ++ [⟨minTxoutAmount, stealthNonceScript r.stealthRootKey⟩] := by
    rw [h.tx_eq]
    rfl
  have hvi := (getSizeOfCompactSize_mem tx.vin.length).2
  have hn := (getSizeOfCompactSize_mem tx.vout.length).2
  have hv : tx.nVersion = 1 := by rw [h.tx_eq]; rfl
  have hout : (tx.vout.map CTxOut.serializeSize).sum ≤
      (io.vout.map CTxOut.serializeSize).sum + 136 * (r.sParticipants.length + 1) + 44 := by
    rw [htx, map_append, sum_append, hs, hvo, foldl_addVinVouts_vout]
    simp only [map_append, sum_append, map_cons, map_nil, sum_cons, sum_nil, hl]
    omega
  have hsi := largestSize_eq hv
  have hle := h.vin_perm.length_eq
  omega

end

/-- However it is signed, the transaction pays its relay fee. -/
def FeeCovered (ctx : EnigmaCtx) (tx : CTransaction) : Prop :=
  ∀ signed, Resigned tx signed → (∀ txin ∈ signed.vin, txin.scriptSig.length ≤ 108) →
    signed.getMinFee 1000 .relay signed.serializeSize ≤ ctx.inputsValue signed.vin - outValue signed.vout

/-- What is left for the fee of a joint transaction is enough exactly if the price of the estimate is that of the
largest final size; it always is with four inputs and a size far from that of a block. -/
theorem joint_fee_enough_iff (env : EnigmaEnv) (hkeys : ∀ sx root hash i, (env.enigmaKey sx root hash i).length = 20)
    (ctx : EnigmaCtx) (s s' : EnigmaWallet) (r r' : CCloakingRequest) (io : CCloakingInputsOutputs) (tx : CTransaction)
    (hroot : r.stealthRootKey.length = 33) (hfull : r.nParticipantsRequired ≤ r.sParticipants.length)
    (hmine : s.mapCloakingInputsOutputs[r.getIdHash env]? = some io) (hamounts : AmountsRight ctx r io)
    (hmade : createTransactionAndRequestSign env ctx s r = (true, s', r')) (hraw : r'.signedrawtx = some [tx])
    (hrange : ctx.inputsValue tx.vin ≤ maxMoney) :
    (1000 + tx.largestSize ≤ uintMax → (FeeCovered ctx tx ↔ tx.FeeEnough)) ∧
      (JointSmall r io → FeeCovered ctx tx) := by
  obtain ⟨cloakers, ours, final, hb⟩ := createTransactionAndRequestSign_built hmade hfull hmine hraw
  have hfee := hb.fee_eq hamounts hrange
  have hl : ∀ signed, Resigned tx signed → ctx.inputsValue signed.vin - outValue signed.vout =
      (1 + (tx.estimatedSize : Int) / 1000) * minTxFee := by
    intro signed hs
    rw [hs.inputsValue, hs.vout, hfee]
  have hiff : 1000 + tx.largestSize ≤ uintMax → (FeeCovered ctx tx ↔ tx.FeeEnough) := by
    intro hsi
    rw [← minFee_le_iff hsi]
    constructor
    · intro h signed hs hsig
      exact (h signed hs hsig).trans_eq (hl signed hs)
    · intro h signed hs hsig
      exact (h signed hs hsig).trans_eq (hl signed hs).symm
  refine ⟨hiff, ?_⟩
  intro hsm
  have hle := hb.largestSize_le hkeys hroot
  have hr := hsm.room
  have hu : uintMax = 4294967295 := rfl
  rw [hiff (by omega)]
  have hvin := hb.vin_perm
  have hv : tx.nVersion = 1 := by rw [hb.tx_eq]; rfl
  have hvo : tx.vout = ctx.shuffle.apply final.vout ++ [⟨minTxoutAmount, stealthNonceScript r.stealthRootKey⟩] := by
    rw [hb.tx_eq]
    rfl
  refine feeEnough_of_four hv hvo ?_ ?_ ?_ (by omega)
  · simp [CTxOut.serializeSize, bytesSize, stealthNonceScript, hroot, getSizeOfCompactSize]
  · rw [hvin.length_eq]
    exact hsm.four
  · rw [(hvin.map CTxIn.serializeSize).sum_eq]
    exact hsm.inputs

/-! ### Twelve outputs for the recipient -/

namespace Sample

noncomputable def feeEnv : EnigmaEnv := { env [] with enigmaKey := fun _ _ _ i => replicate 20 (UInt8.ofNat i) }

def coins : CTransaction := { nTime := 1, vin := [{ prevout := ⟨9, 0⟩ }], vout := replicate 4 ⟨5 * coin, [7]⟩ }

def feeCtx : EnigmaCtx :=
  { ctx with readTxIndex := fun h => if h = 1 then some (.ofOutputs (.ofFile 1 8 89) 4) else none
             readTx := fun _ => some coins
             rng := fun _ => 1000001 }

def feeRequest (n : Nat) : CCloakingRequest :=
  { sendRequest with sParticipants := [⟨2, 2, { vin := (range n).map fun i => { prevout := ⟨1, i + 1⟩ }
                                                nInputAmount := n * (5 * coin), stealthHash := 3 }⟩] }

def feeInOuts : CCloakingInputsOutputs :=
  { vin := [{ prevout := ⟨1, 0⟩ }], vout := replicate 12 ⟨100000, replicate 25 1⟩, nInputAmount := 5 * coin }

def feeSender : EnigmaWallet := wallet ⟨∅, [], fun _ => [], 0⟩ [(sendRequest, feeInOuts)]

end Sample

open Sample in
/-- With four inputs the fee covers all signatures. -/
theorem joint_fee_enough_four : FeeCovered feeCtx
    (createTransactionAndRequestSign feeEnv feeCtx feeSender (feeRequest 3)).2.2.signedrawtx.tx := by
  refine (joint_fee_enough_iff feeEnv (fun _ _ _ i => length_replicate) feeCtx feeSender
    (createTransactionAndRequestSign feeEnv feeCtx feeSender (feeRequest 3)).2.1 (feeRequest 3)
    (createTransactionAndRequestSign feeEnv feeCtx feeSender (feeRequest 3)).2.2 feeInOuts _ (by decide) (by decide)
    (by decide +kernel) ⟨by decide +kernel, by decide +kernel⟩ ?_ (by decide +kernel) (by decide +kernel)).2
    ⟨by decide, by decide, by decide⟩
  have hok : (createTransactionAndRequestSign feeEnv feeCtx feeSender (feeRequest 3)).1 = true := by decide +kernel
  exact Prod.ext hok rfl

open Sample in
/-- With two inputs and 19 outputs the estimate is 982 bytes, and the signed transaction has 1002. -/
theorem joint_fee_too_small : let built := createTransactionAndRequestSign feeEnv feeCtx feeSender (feeRequest 1)
    let tx := built.2.2.signedrawtx.tx
    built.1 = true ∧ built.2.2.signedrawtx = some [tx] ∧ AmountsRight feeCtx (feeRequest 1) feeInOuts ∧
      Resigned tx (tx.signedWith 108) ∧ (∀ txin ∈ (tx.signedWith 108).vin, txin.scriptSig.length ≤ 108) ∧
      feeCtx.inputsValue (tx.signedWith 108).vin - outValue (tx.signedWith 108).vout = 10000 ∧
      (tx.signedWith 108).getMinFee 1000 .relay (tx.signedWith 108).serializeSize = 20000 := by
  refine ⟨by decide +kernel, by decide +kernel, ⟨by decide +kernel, by decide +kernel⟩, .signedWith _ _, ?_,
    by decide +kernel, by decide +kernel⟩
  decide +kernel

end CloakCoin.Enigma
