import CloakCoin.Chain.Inputs

/-!
# Fees and sizes

`GetMinFee` in closed form for the two modes a joint transaction meets, the sizes it is asked with, and what the
inputs of a transaction are worth.
-/

namespace CloakCoin.Chain

open Lib

namespace CTransaction

/-! ## `GetMinFee` in closed form -/

variable (tx : CTransaction)

theorem getMinFee_send {nBytes : Nat} (h : nBytes ≤ uintMax) :
    tx.getMinFee 1 .send nBytes = (1 + (nBytes : Int) / 1000) * minTxFee := by
  simp only [getMinFee, moneyRange, maxMoney, coin, minTxFee, cent, ne_eq, not_true_eq_false, false_and, if_false,
    reduceCtorEq]
  have hl : uintMax = 4294967295 := rfl
  have hn : ¬((1 + (nBytes : Int) / 1000) * (1 * 10000) < 1 * 10000) := by omega
  rw [decide_eq_false hn, Bool.false_and, if_neg Bool.false_ne_true, if_neg]
  simp only [Bool.not_eq_true', Bool.and_eq_false_iff, decide_eq_false_iff_not, not_or, not_not]
  omega

def crowding (nBytes : Nat) : Nat :=
  if 1000 + nBytes ≥ maxBlockSizeGen / 2 then maxBlockSizeGen / (maxBlockSizeGen - (1000 + nBytes)) else 1

theorem crowding_mono {a b : Nat} (h : a ≤ b) (hb : 1000 + b < maxBlockSizeGen) : crowding a ≤ crowding b := by
  unfold crowding
  split
  · rw [if_pos (by omega)]
    exact Nat.div_le_div_left (by omega) (by omega)
  · split
    · exact (Nat.one_le_div_iff (by omega)).mpr (by omega)
    · exact le_refl 1

theorem crowding_le (nBytes : Nat) : crowding nBytes ≤ maxBlockSizeGen := by
  unfold crowding
  split
  · exact Nat.div_le_self _ _
  · decide

theorem getMinFee_relay {nBytes : Nat} (h : 1000 + nBytes ≤ uintMax) :
    tx.getMinFee 1000 .relay nBytes = if 1000 + nBytes ≥ maxBlockSizeGen then maxMoney
      else ((1 + nBytes / 1000) * crowding nBytes : Nat) * minRelayTxFee := by
  have hm : (1000 + nBytes) % (uintMax + 1) = 1000 + nBytes := Nat.mod_eq_of_lt (Nat.lt_succ_of_le h)
  have hh : maxBlockSizeGen / 2 ≤ maxBlockSizeGen := by decide
  have hb : ¬((1 + (nBytes : Int) / 1000) * minRelayTxFee < minRelayTxFee) := by
    rw [minRelayTxFee, cent]
    omega
  simp only [getMinFee, hm, if_true, decide_eq_false hb, Bool.false_and, Bool.false_eq_true, if_false]
  by_cases hf : 1000 + nBytes ≥ maxBlockSizeGen
  · rw [if_pos ⟨by decide, hh.trans hf, hf⟩, if_pos hf]
  rw [if_neg (fun ha => hf ha.2.2), if_neg hf]
  have hr : (if 1000 ≠ 1 ∧ 1000 + nBytes ≥ maxBlockSizeGen / 2 then
      (1 + (nBytes : Int) / 1000) * minRelayTxFee *
        ((maxBlockSizeGen / (maxBlockSizeGen - (1000 + nBytes)) : Nat) : Int)
      else (1 + (nBytes : Int) / 1000) * minRelayTxFee) =
      ((1 + nBytes / 1000) * crowding nBytes : Nat) * minRelayTxFee := by
    unfold crowding
    by_cases hc : 1000 + nBytes ≥ maxBlockSizeGen / 2
    · rw [if_pos ⟨by decide, hc⟩, if_pos hc]
      push_cast
      ring
    · rw [if_neg (fun ha => hc ha.2), if_neg hc]
      push_cast
      ring
  rw [hr, if_neg]
  have hs : 1 + nBytes / 1000 ≤ 500 := by
    have hg : maxBlockSizeGen = 500000 := by decide
    omega
  have hle : (1 + nBytes / 1000) * crowding nBytes ≤ 500 * maxBlockSizeGen :=
    Nat.mul_le_mul hs (crowding_le nBytes)
  have hg : 500 * maxBlockSizeGen = 250000000 := by decide
  have hra : moneyRange (((1 + nBytes / 1000) * crowding nBytes : Nat) * minRelayTxFee) = true := by
    rw [moneyRange_iff, minRelayTxFee, cent, maxMoney, coin]
    omega
  rw [hra]
  decide

/-! ## Sizes -/

def estimatedSize : Nat :=
  ({ tx with vout := tx.vout.dropLast }.serializeSize + tx.vin.length * 120) % (uintMax + 1)

/-- The transaction with `n` bytes of signature in each input. -/
def signedWith (n : Nat) : CTransaction :=
  { tx with vin := tx.vin.map fun txin => { txin with scriptSig := List.replicate n 0 } }

/-- The largest final size: every input carries 108 bytes. -/
def largestSize : Nat := (tx.signedWith 108).serializeSize

/-- The fee for the estimated size covers the largest one. -/
def FeeEnough : Prop :=
  1000 + tx.largestSize < maxBlockSizeGen ∧
    (1 + tx.largestSize / 1000) * crowding tx.largestSize ≤ 1 + tx.estimatedSize / 1000

instance (tx : CTransaction) : Decidable tx.FeeEnough := inferInstanceAs (Decidable (_ ∧ _))

end CTransaction

/-! ## What inputs are worth -/

def TxSource.inputValue (src : TxSource) (o : COutPoint) : Int := (src.prevOutput o).elim 0 CTxOut.nValue

def TxSource.inputsValue (src : TxSource) (vin : List CTxIn) : Int :=
  (vin.map fun txin => src.inputValue txin.prevout).sum

theorem TxSource.inputsValue_append (src : TxSource) (a b : List CTxIn) :
    src.inputsValue (a ++ b) = src.inputsValue a + src.inputsValue b := by
  simp [TxSource.inputsValue]

theorem TxSource.inputsValue_perm (src : TxSource) {a b : List CTxIn} (h : a.Perm b) :
    src.inputsValue a = src.inputsValue b :=
  (h.map _).sum_eq

theorem LookedUp.value_eq {src : TxSource} {inputs : MapPrevTx} (hl : LookedUp src ∅ false inputs) {vin : List CTxIn}
    {v : Int} (h : vin.foldlM (fun nResult txin => (getOutputFor inputs txin).map (nResult + ·.nValue)) 0 = some v) :
    v = src.inputsValue vin := by
  have hv : ∀ txin ∈ vin, ∀ out, getOutputFor inputs txin = some out →
      src.inputValue ⟨txin.prevout.key.1, txin.prevout.key.2⟩ = out.nValue := by
    intro txin _ out ho
    obtain ⟨p, hin, hg⟩ := Option.bind_eq_some_iff.mp ho
    simp [TxSource.inputValue, TxSource.prevOutput, COutPoint.key, hl _ _ hin, hg]
  exact (@foldlM_getOutputFor v inputs (fun o => src.inputValue ⟨o.1, o.2⟩) vin hv 0 h).trans (zero_add _)

end CloakCoin.Chain
