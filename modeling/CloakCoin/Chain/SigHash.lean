import CloakCoin.Chain.Serialize

/-!
# What a signature commits to

`SignatureHash` of `script.cpp`: the surgery on a copy of the transaction, for every hash type, and the
bytes that are hashed. `FindAndDelete` removes a pattern wherever it stands at the start of an operation
and leaves the rest of a script that cannot be parsed as it is.
-/

namespace CloakCoin.Chain

open Lib (Bytes Format)
open List

variable {script b : CScript}

/-! ## `FindAndDelete` -/

theorem length_lt_of_getOp (h : getOp script = some (opcode, data, rest)) : rest.length < script.length := by
  cases script with
  | nil => cases h
  | cons op pc =>
    have ho {nSize : Nat} {pc' : CScript} (hle : pc'.length ≤ pc.length)
        (h : (if pc'.length < nSize then none else some (op, pc'.take nSize, pc'.drop nSize)) =
          some (opcode, data, rest)) : rest.length < pc.length + 1 := by
      split at h
      · cases h
      · obtain ⟨-, -, rfl⟩ := by simpa using h
        rw [length_drop]
        omega
    simp only [getOp] at h
    split at h
    · exact ho le_rfl h
    split at h
    · split at h
      · exact ho (by simp) h
      · cases h
    split at h
    · split at h
      · exact ho (by simp only [length_cons]; omega) h
      · cases h
    split at h
    · split at h
      · exact ho (by simp only [length_cons]; omega) h
      · cases h
    obtain ⟨-, -, rfl⟩ := by simpa using h
    exact Nat.lt_succ_self _

def findAndDeleteFrom (b : CScript) : Nat → CScript → CScript
  | 0, pc => pc
  | fuel + 1, pc =>
    if b.isPrefixOf pc then findAndDeleteFrom b fuel (pc.drop b.length)
    else
      match getOp pc with
      | none => pc
      | some (_, _, rest) => pc.take (pc.length - rest.length) ++ findAndDeleteFrom b fuel rest

/-- Every turn passes or erases a byte. -/
def findAndDelete (script b : CScript) : CScript :=
  if b.isEmpty then script else findAndDeleteFrom b script.length script

-- the separator inside the operand of a push stays
example : findAndDelete [0xab, 0x01, 0xab, 0xab] [0xab] = [0x01, 0xab] := by decide

theorem length_findAndDeleteFrom_le (b : CScript) (fuel : Nat) (pc : CScript) :
    (findAndDeleteFrom b fuel pc).length ≤ pc.length := by
  induction fuel generalizing pc with
  | zero => exact le_rfl
  | succ fuel ih =>
    rw [findAndDeleteFrom]
    split
    · exact (ih _).trans (by rw [length_drop]; omega)
    cases hop : getOp pc with
    | none => exact le_rfl
    | some op =>
      obtain ⟨opcode, data, rest⟩ := op
      have hlt := length_lt_of_getOp hop
      have hle := ih rest
      rw [length_append, length_take]
      omega

theorem length_findAndDelete_le (script b : CScript) : (findAndDelete script b).length ≤ script.length := by
  rw [findAndDelete]
  split
  · exact le_rfl
  · exact length_findAndDeleteFrom_le b _ script

/-! ## `SignatureHash` -/

def opCodeSeparator : UInt8 := 0xab

def sighashAll : UInt32 := 1
def sighashNone : UInt32 := 2
def sighashSingle : UInt32 := 3
def sighashAnyoneCanPay : UInt32 := 0x80

def CTxOut.null : CTxOut := ⟨-1, []⟩

def signatureTx (scriptCode : CScript) (txTo : CTransaction) (nIn : Nat) (nHashType : UInt32) : Option CTransaction :=
  if nIn ≥ txTo.vin.length then none
  else
    -- Blank out other inputs' signatures
    let scriptCode := findAndDelete scriptCode [opCodeSeparator]
    let vin := txTo.vin.mapIdx fun i txin => { txin with scriptSig := if i = nIn then scriptCode else [] }
    -- Let the others update at will
    let unsequenced := vin.mapIdx fun i txin => if i ≠ nIn then { txin with nSequence := 0 } else txin
    -- Blank out other inputs completely
    let onlyIn (vin : List CTxIn) := if nHashType &&& sighashAnyoneCanPay ≠ 0 then vin[nIn]?.toList else vin
    if nHashType &&& 0x1f = sighashNone then some { txTo with vin := onlyIn unsequenced, vout := [] }
    else if nHashType &&& 0x1f = sighashSingle then
      if nIn ≥ txTo.vout.length then none
      else
        let vout := (txTo.vout.take (nIn + 1)).mapIdx fun i txout => if i < nIn then CTxOut.null else txout
        some { txTo with vin := onlyIn unsequenced, vout := vout }
    else some { txTo with vin := onlyIn vin }

def signatureBytes (scriptCode : CScript) (txTo : CTransaction) (nIn : Nat) (nHashType : UInt32) : Option Bytes :=
  (signatureTx scriptCode txTo nIn nHashType).map fun txTmp => txTmp.serialize ++ (Format.uint 4).write nHashType.toNat

/-- `hash` is the double SHA-256. -/
def signatureHash (hash : Bytes → Hash256) (scriptCode : CScript) (txTo : CTransaction) (nIn : Nat)
    (nHashType : UInt32) : Hash256 :=
  match signatureBytes scriptCode txTo nIn nHashType with
  | none => 1
  | some ss => hash ss

/-! ## Signatures do not commit to signatures -/

def CTxIn.unsigned (txin : CTxIn) : CTxIn := { txin with scriptSig := [] }

/-! ## Signatures of a joint transaction -/

/-- The hash type the parties of an Enigma transaction sign with. -/
def sighashEnigma : UInt32 := sighashAll ||| sighashAnyoneCanPay

variable {tx : CTransaction} {nIn : Nat} {txin : CTxIn}

theorem signatureTx_enigma (hin : tx.vin[nIn]? = some txin) : signatureTx scriptCode tx nIn sighashEnigma =
      some { tx with vin := [{ txin with scriptSig := findAndDelete scriptCode [opCodeSeparator] }] } := by
  have hlt : ¬nIn ≥ tx.vin.length := not_le.mpr (List.getElem?_eq_some_iff.mp hin).1
  have hn : ¬sighashEnigma &&& 0x1f = sighashNone := by decide
  have hs : ¬sighashEnigma &&& 0x1f = sighashSingle := by decide
  have ha : sighashEnigma &&& sighashAnyoneCanPay ≠ 0 := by decide
  rw [signatureTx, if_neg hlt]
  dsimp only
  rw [if_neg hn, if_neg hs, if_pos ha, getElem?_mapIdx, hin, Option.map_some, if_pos rfl]
  rfl

theorem signedTx_inRange (htx : tx.InRange) (hin : tx.vin[nIn]? = some txin) (hs : script.length < 2 ^ 64) :
    ({ tx with vin := [{ txin with scriptSig := script }] } : CTransaction).InRange := by
  have hm := htx.vin txin (mem_of_getElem? hin)
  have ho : 1 ≤ 2 ^ 64 - 1 := by norm_num
  refine ⟨htx.nVersion, htx.nTime, ?_, htx.vout, htx.nLockTime,
    ⟨ho, htx.vectors.vout, ?_, htx.vectors.scriptPubKey, htx.vectors.data⟩⟩
  · simp only [mem_singleton, forall_eq]
    exact ⟨hm.prevout, hm.nSequence⟩
  · simp only [mem_singleton, forall_eq]
    omega

/-- Two signed messages of an Enigma transaction are the same exactly if everything but the other inputs is,
and the hash does not depend on the other inputs or on their number. -/
theorem signature_commits_iff (s s' : CScript) (tx tx' : CTransaction) (i i' : Nat) (txin txin' : CTxIn)
    (hs : s.length < 2 ^ 64) (hs' : s'.length < 2 ^ 64) (htx : tx.InRange) (htx' : tx'.InRange)
    (hin : tx.vin[i]? = some txin) (hin' : tx'.vin[i']? = some txin') :
    (∃ ss ss', signatureBytes s tx i sighashEnigma = some ss ∧ signatureBytes s' tx' i' sighashEnigma = some ss' ∧
      (ss = ss' ↔ tx.nVersion = tx'.nVersion ∧ tx.nTime = tx'.nTime ∧ tx.nLockTime = tx'.nLockTime ∧
        tx.vout = tx'.vout ∧ (1 < tx.nVersion → tx.data = tx'.data) ∧
        txin.prevout = txin'.prevout ∧ txin.nSequence = txin'.nSequence ∧
        findAndDelete s [opCodeSeparator] = findAndDelete s' [opCodeSeparator])) ∧
    (∀ (hash : Bytes → Hash256) (vin : List CTxIn) (j : Nat), vin[j]? = some txin →
      signatureHash hash s { tx with vin := vin } j sighashEnigma = signatureHash hash s tx i sighashEnigma) := by
  have hf {s : CScript} (hs : s.length < 2 ^ 64) : (findAndDelete s [opCodeSeparator]).length < 2 ^ 64 :=
    (length_findAndDelete_le s _).trans_lt hs
  constructor
  · rw [signatureBytes, signatureBytes, signatureTx_enigma hin, signatureTx_enigma hin']
    refine ⟨_, _, rfl, rfl, ?_⟩
    rw [append_cancel_right_eq, CTransaction.serialize_eq_iff (signedTx_inRange htx hin (hf hs))
      (signedTx_inRange htx' hin' (hf hs')), CTransaction.sameAs_iff]
    simp only [cons.injEq, and_true, CTxIn.mk.injEq]
    tauto
  · intro hash vin j hj
    rw [signatureHash, signatureHash, signatureBytes, signatureBytes, signatureTx_enigma hin, signatureTx_enigma hj]

/-- Two inputs of one transaction spending different outputs never have the same message; the first
signs the same with the second left out. -/
theorem signature_commits_two : let tx : CTransaction :=
      { nTime := 5, vin := [{ prevout := ⟨7, 0⟩ }, { prevout := ⟨7, 1⟩ }], vout := [⟨coin, [0x51]⟩] }
    (∃ ss ss', signatureBytes [0x51, 0xab] tx 0 sighashEnigma = some ss ∧
      signatureBytes [0x51] tx 1 sighashEnigma = some ss' ∧ ss ≠ ss') ∧
    signatureHash length [0x51] { tx with vin := [{ prevout := ⟨7, 0⟩ }] } 0 sighashEnigma =
      signatureHash length [0x51] tx 0 sighashEnigma := by
  intro tx
  have htx : tx.InRange := by
    refine ⟨by decide, by decide, ?_, ?_, by decide, ⟨by decide, by decide, by decide, by decide, by decide⟩⟩
    · intro i hi
      have hc : i = { prevout := ⟨7, 0⟩ } ∨ i = { prevout := ⟨7, 1⟩ } := by simpa [tx] using hi
      rcases hc with rfl | rfl <;> exact ⟨⟨by norm_num, by norm_num⟩, by decide⟩
    · intro o ho
      obtain rfl : o = ⟨coin, [0x51]⟩ := by simpa [tx] using ho
      exact ⟨by decide⟩
  constructor
  · obtain ⟨ss, ss', h, h', hiff⟩ :=
      (signature_commits_iff [0x51, 0xab] [0x51] tx tx 0 1 _ _ (by decide) (by decide) htx htx rfl rfl).1
    refine ⟨ss, ss', h, h', fun heq => ?_⟩
    have hp := (hiff.mp heq).2.2.2.2.2.1
    exact absurd hp (by decide)
  · exact (signature_commits_iff [0x51] [0x51] tx tx 0 0 _ _ (by decide) (by decide) htx htx rfl rfl).2 _ _ 0 rfl

end CloakCoin.Chain
