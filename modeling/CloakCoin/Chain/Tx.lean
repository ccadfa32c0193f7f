import Mathlib.Tactic

/-!
# Transactions

The data model of `main.h` (amounts, outpoints, inputs, outputs, transactions) with the checks that
need no context: `CTransaction.checkTransaction`, `getValueOut` and `getMinFee`.
-/

namespace CloakCoin.Chain

open List

variable {v : Int}

abbrev Hash256 := Nat
abbrev CScript := List UInt8

/-! ## Amounts -/

def coin : Int := 1000000
def cent : Int := 10000
def minTxFee : Int := 1 * cent
def minRelayTxFee : Int := 1 * cent
def maxMoney : Int := 10000000 * coin
def minTxoutAmount : Int := minTxFee

def maxBlockSize : Nat := 1000000
def maxBlockSizeGen : Nat := maxBlockSize / 2
def maxBlockSigops : Nat := maxBlockSize / 50
def lockTimeThreshold : Int := 500000000

/-- `(unsigned int) -1`, also `std::numeric_limits<unsigned int>::max()`. -/
def uintMax : Nat := 4294967295

instance : NeZero uintMax := ⟨by decide⟩

def moneyRange (nValue : Int) : Bool := decide (0 ≤ nValue) && decide (nValue ≤ maxMoney)

theorem moneyRange_iff : moneyRange v = true ↔ 0 ≤ v ∧ v ≤ maxMoney := by
  simp [moneyRange]

/-! ## Scripts -/

/-- `CScript::GetOp`: opcode, operand and the rest of the script. -/
def getOp : CScript → Option (UInt8 × List UInt8 × CScript)
  | [] => none
  | opcode :: pc =>
    let operand (nSize : Nat) (pc : CScript) :=
      if pc.length < nSize then none else some (opcode, pc.take nSize, pc.drop nSize)
    if opcode < 0x4c then operand opcode.toNat pc
    else if opcode = 0x4c then
      match pc with
      | n0 :: pc => operand n0.toNat pc
      | _ => none
    else if opcode = 0x4d then
      match pc with
      | n0 :: n1 :: pc => operand (n0.toNat + 256 * n1.toNat) pc
      | _ => none
    else if opcode = 0x4e then
      match pc with
      | n0 :: n1 :: n2 :: n3 :: pc =>
        operand (n0.toNat + 256 * n1.toNat + 65536 * n2.toNat + 16777216 * n3.toNat) pc
      | _ => none
    else some (opcode, [], pc)

def isPushOnlyFrom : Nat → CScript → Bool
  | 0, pc => pc.isEmpty
  | fuel + 1, pc =>
    if pc.isEmpty then true
    else
      match getOp pc with
      | none => false
      | some (opcode, _, pc) => if opcode > 0x60 then false else isPushOnlyFrom fuel pc

/-- Every opcode has a byte of its own. -/
def isPushOnly (script : CScript) : Bool := isPushOnlyFrom script.length script

/-! ## Inputs and outputs -/

structure COutPoint where
  hash : Hash256
  n : Nat
  deriving DecidableEq, Repr

def COutPoint.null : COutPoint := ⟨0, uintMax⟩

def COutPoint.isNull (o : COutPoint) : Bool := o.hash == 0 && o.n == uintMax

structure CTxIn where
  prevout : COutPoint
  scriptSig : CScript := []
  nSequence : Nat := uintMax
  deriving DecidableEq, Repr

def CTxIn.isFinal (i : CTxIn) : Bool := i.nSequence == uintMax

structure CTxOut where
  nValue : Int
  scriptPubKey : CScript
  deriving DecidableEq, Repr

/-- The marker of a coinstake's first output. -/
def CTxOut.empty : CTxOut := ⟨0, []⟩

def CTxOut.isEmpty (o : CTxOut) : Bool := o.nValue == 0 && o.scriptPubKey.isEmpty

theorem CTxOut.nValue_of_isEmpty {o : CTxOut} (h : o.isEmpty = true) : o.nValue = 0 := by
  simp only [isEmpty, Bool.and_eq_true, beq_iff_eq] at h
  exact h.1

structure CTransaction where
  nVersion : Int := 1
  nTime : Nat
  vin : List CTxIn
  vout : List CTxOut
  nLockTime : Nat := 0
  data : List UInt8 := []
  deriving DecidableEq, Repr

/-! ## Serialized sizes -/

def getSizeOfCompactSize (nSize : Nat) : Nat :=
  if nSize < 253 then 1 else if nSize ≤ 65535 then 3 else if nSize ≤ 4294967295 then 5 else 9

def bytesSize (v : List UInt8) : Nat := getSizeOfCompactSize v.length + v.length

def CTxIn.serializeSize (i : CTxIn) : Nat := 36 + bytesSize i.scriptSig + 4

def CTxOut.serializeSize (o : CTxOut) : Nat := 8 + bytesSize o.scriptPubKey

namespace CTransaction

/-- The source's `operator==`, which does not look at `data`. -/
def sameAs (a b : CTransaction) : Bool :=
  a.nVersion == b.nVersion && a.nTime == b.nTime && decide (a.vin = b.vin) && decide (a.vout = b.vout) &&
    a.nLockTime == b.nLockTime

variable (tx : CTransaction)

/-- `data` is part of the format from version 2 on. -/
def serializeSize : Nat :=
  4 + 4 + (getSizeOfCompactSize tx.vin.length + (tx.vin.map CTxIn.serializeSize).sum) +
    (getSizeOfCompactSize tx.vout.length + (tx.vout.map CTxOut.serializeSize).sum) + 4 +
    (if tx.nVersion > 1 then bytesSize tx.data else 0)

theorem serializeSize_pos : 0 < tx.serializeSize := by
  unfold serializeSize
  omega

/-! ## Kinds of transaction -/

def isCoinBase : Bool :=
  match tx.vin with
  | [txin] => txin.prevout.isNull && decide (1 ≤ tx.vout.length)
  | _ => false

/-- ppcoin: a coinstake is marked with the first output empty. -/
def isCoinStake : Bool :=
  match tx.vin, tx.vout with
  | txin :: _, out0 :: _ :: _ => !txin.prevout.isNull && out0.isEmpty
  | _, _ => false

def isFinal (nBlockHeight nBlockTime nBestHeight adjustedTime : Int) : Bool :=
  if tx.nLockTime = 0 then true
  else
    let height := if nBlockHeight = 0 then nBestHeight else nBlockHeight
    let time := if nBlockTime = 0 then adjustedTime else nBlockTime
    if (tx.nLockTime : Int) < (if (tx.nLockTime : Int) < lockTimeThreshold then height else time) then true
    else tx.vin.all CTxIn.isFinal

variable {tx : CTransaction}

theorem isCoinStake_of_isCoinBase (h : tx.isCoinBase = true) : tx.isCoinStake = false := by
  unfold isCoinBase at h
  unfold isCoinStake
  split at h
  · rename_i i hin
    simp only [Bool.and_eq_true] at h
    rw [hin]
    cases tx.vout with
    | nil => rfl
    | cons o os => cases os <;> simp [h.1]
  · cases h

/-! ## Value of the outputs -/

def valueOut (tx : CTransaction) : Int := (tx.vout.map (·.nValue)).sum

/-- The loop of `GetValueOut`; `none` is the exception "value out of range". -/
def getValueOutFrom : Int → List CTxOut → Option Int
  | nValueOut, [] => some nValueOut
  | nValueOut, txout :: rest =>
    if !moneyRange txout.nValue || !moneyRange (nValueOut + txout.nValue) then none
    else getValueOutFrom (nValueOut + txout.nValue) rest

def getValueOut (tx : CTransaction) : Option Int := getValueOutFrom 0 tx.vout

theorem getValueOutFrom_eq_some (vout : List CTxOut) (h : getValueOutFrom acc vout = some v) :
    v = acc + (vout.map (·.nValue)).sum ∧ ∀ o ∈ vout, 0 ≤ o.nValue := by
  induction vout generalizing acc with
  | nil =>
    simp only [getValueOutFrom, Option.some.injEq] at h
    simp [h]
  | cons o os ih =>
    simp only [getValueOutFrom] at h
    split at h
    · cases h
    rename_i hr
    simp only [Bool.or_eq_true, Bool.not_eq_true', not_or, Bool.not_eq_false, moneyRange_iff] at hr
    obtain ⟨hv, hpo⟩ := ih h
    refine ⟨by simp only [map_cons, sum_cons]; omega, ?_⟩
    intro p hp
    rcases mem_cons.mp hp with rfl | hp
    · exact hr.1.1
    · exact hpo p hp

theorem getValueOut_eq_some (h : tx.getValueOut = some v) : v = tx.valueOut ∧ ∀ o ∈ tx.vout, 0 ≤ o.nValue := by
  simpa [valueOut] using getValueOutFrom_eq_some tx.vout h

/-! ## `CheckTransaction` -/

def outputsOk (special : Bool) : Int → List CTxOut → Bool
  | _, [] => true
  | nValueOut, txout :: rest =>
    if txout.isEmpty && !special then false
    -- ppcoin: enforce minimum output amount
    else if !txout.isEmpty && decide (txout.nValue < minTxoutAmount) then false
    else if txout.nValue > maxMoney then false
    else if !moneyRange (nValueOut + txout.nValue) then false
    else outputsOk special (nValueOut + txout.nValue) rest

/-- Basic checks that don't depend on any context. -/
def checkTransaction (tx : CTransaction) : Bool :=
  !tx.vin.isEmpty && !tx.vout.isEmpty &&
  decide (tx.serializeSize ≤ maxBlockSize) &&
  outputsOk (tx.isCoinBase || tx.isCoinStake) 0 tx.vout &&
  decide (tx.vin.map (·.prevout)).Nodup &&
  (if tx.isCoinBase then
    tx.vin.all fun txin => decide (2 ≤ txin.scriptSig.length) && decide (txin.scriptSig.length ≤ 100)
  else tx.vin.all fun txin => !txin.prevout.isNull)

theorem outputsOk_spec (vout : List CTxOut) (h : outputsOk special acc vout = true) :
    getValueOutFrom acc vout = some (acc + (vout.map (·.nValue)).sum) := by
  induction vout generalizing acc with
  | nil => simp [getValueOutFrom]
  | cons o os ih =>
    simp only [outputsOk] at h
    split_ifs at h with h1 h2 h3 h4
    have hr : moneyRange o.nValue = true := by
      rw [moneyRange_iff]
      refine ⟨?_, by omega⟩
      cases he : o.isEmpty with
      | true => rw [o.nValue_of_isEmpty he]
      | false =>
        simp only [he, Bool.not_false, Bool.true_and, decide_eq_true_eq, not_lt] at h2
        have : (0 : Int) ≤ minTxoutAmount := by decide
        omega
    have hs : moneyRange (acc + o.nValue) = true := by simpa using h4
    simp only [getValueOutFrom, hr, hs, Bool.not_true, Bool.or_self, Bool.false_eq_true, if_false,
      ih h, map_cons, sum_cons]
    rw [add_assoc]

theorem getValueOut_of_checkTransaction (h : tx.checkTransaction = true) : tx.getValueOut = some tx.valueOut := by
  simp only [checkTransaction, Bool.and_eq_true] at h
  simpa [valueOut, getValueOut] using outputsOk_spec tx.vout h.1.1.2

theorem isCoinBase_of_not_null (h : ∀ txin ∈ tx.vin, txin.prevout.isNull = false) : tx.isCoinBase = false := by
  unfold isCoinBase
  split
  · rename_i txin hv
    rw [h txin (by rw [hv]; exact mem_singleton_self _), Bool.false_and]
  · rfl

theorem checkTransaction_iff_outputsOk (hvi : tx.vin ≠ []) (hv : tx.vout ≠ []) (hs : tx.serializeSize ≤ maxBlockSize)
    (hno : (tx.vin.map CTxIn.prevout).Nodup) (hn : ∀ txin ∈ tx.vin, txin.prevout.isNull = false) :
    tx.checkTransaction = true ↔ outputsOk tx.isCoinStake 0 tx.vout = true := by
  have hb := isCoinBase_of_not_null hn
  have ha : (tx.vin.all fun txin => !txin.prevout.isNull) = true := by
    rw [all_eq_true]
    intro txin h
    rw [hn txin h, Bool.not_false]
  rw [checkTransaction, hb, Bool.false_or, if_neg Bool.false_ne_true, ha, decide_eq_true hs,
    decide_eq_true hno, isEmpty_eq_false_iff.mpr hvi, isEmpty_eq_false_iff.mpr hv]
  simp

theorem vin_ne_nil_of_checkTransaction (h : tx.checkTransaction = true) : tx.vin ≠ [] := by
  simp only [checkTransaction, Bool.and_eq_true] at h
  simpa using h.1.1.1.1.1

theorem nodup_of_checkTransaction (h : tx.checkTransaction = true) : (tx.vin.map (·.prevout)).Nodup := by
  simp only [checkTransaction, Bool.and_eq_true, decide_eq_true_eq] at h
  exact h.1.2

/-! ## `GetMinFee` -/

inductive GetMinFeeMode where
  | block
  | relay
  | send
  deriving DecidableEq, Repr

def getMinFee (tx : CTransaction) (nBlockSize : Nat := 1) (mode : GetMinFeeMode := .block)
    (nBytes : Nat := 0) : Int :=
  let nBaseFee := if mode = .relay then minRelayTxFee else minTxFee
  let nNewBlockSize := (nBlockSize + nBytes) % (uintMax + 1)
  let nMinFee := (1 + (nBytes : Int) / 1000) * nBaseFee
  let nMinFee := if nMinFee < nBaseFee && tx.vout.any (fun o => decide (o.nValue < cent)) then nBaseFee
    else nMinFee
  if nBlockSize ≠ 1 ∧ nNewBlockSize ≥ maxBlockSizeGen / 2 ∧ nNewBlockSize ≥ maxBlockSizeGen then maxMoney
  else
    let nMinFee := if nBlockSize ≠ 1 ∧ nNewBlockSize ≥ maxBlockSizeGen / 2 then
        nMinFee * ((maxBlockSizeGen / (maxBlockSizeGen - nNewBlockSize) : Nat) : Int)
      else nMinFee
    if !moneyRange nMinFee then maxMoney else nMinFee

@[simp] theorem getMinFee_default (tx : CTransaction) : tx.getMinFee = minTxFee := by
  simp [getMinFee, minTxFee, cent, moneyRange, maxMoney, coin]

end CTransaction
end CloakCoin.Chain
