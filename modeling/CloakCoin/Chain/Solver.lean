import CloakCoin.Chain.SigHash
import CloakCoin.Chain.Mempool

/-!
# Standard scripts

`CScript::operator<<` for data, `Solver` of `script.cpp` with its template matching, and the scripts that
the wallet writes: `SetDestination` and the data outputs behind an `OP_RETURN`.
-/

namespace CloakCoin.Chain

open Lib (Bytes)
open List Option

variable {b : Bytes}

/-! ## Pushing data -/

def pushData (b : Bytes) : CScript :=
  let n := b.length
  if n < 0x4c then UInt8.ofNat n :: b
  else if n ≤ 0xff then 0x4c :: UInt8.ofNat n :: b
  else if n ≤ 0xffff then 0x4d :: UInt8.ofNat n :: UInt8.ofNat (n / 256) :: b
  else 0x4e :: UInt8.ofNat n :: UInt8.ofNat (n / 256) :: UInt8.ofNat (n / 65536) :: UInt8.ofNat (n / 16777216) :: b

def pushAll (l : List Bytes) : CScript := l.flatMap pushData

theorem getOp_opcode (h : 0x4e < opcode) (pc : CScript) : getOp (opcode :: pc) = some (opcode, [], pc) := by
  have hn : 0x4e < opcode.toNat := UInt8.lt_iff_toNat_lt.mp h
  have hp : ¬opcode < 0x4c := fun hlt => by
    have := UInt8.lt_iff_toNat_lt.mp hlt
    have h76 : (0x4c : UInt8).toNat = 0x4c := rfl
    omega
  have hne (k : UInt8) (hk : k.toNat ≤ 0x4e) : opcode ≠ k := by
    rintro rfl
    omega
  simp [getOp, if_neg hp, if_neg (hne 0x4c (by decide)), if_neg (hne 0x4d (by decide)), if_neg (hne 0x4e (by decide))]

theorem getOp_pushData (hb : b.length < 2 ^ 32) (rest : CScript) :
    ∃ opcode : UInt8, opcode.toNat ≤ 0x4e ∧ getOp (pushData b ++ rest) = some (opcode, b, rest) := by
  have ho (opcode : UInt8) {n : Nat} (hn : n = b.length) :
      (if (b ++ rest).length < n then none else some (opcode, (b ++ rest).take n, (b ++ rest).drop n)) =
        some (opcode, b, rest) := by
    have hs : ¬(b ++ rest).length < b.length := by
      rw [length_append]
      omega
    rw [hn, if_neg hs, take_left, drop_left]
  unfold pushData
  dsimp only
  split_ifs with h1 h2 h3
  · have hn : (UInt8.ofNat b.length).toNat = b.length := by
      rw [UInt8.toNat_ofNat']
      omega
    have hlt : UInt8.ofNat b.length < 0x4c := UInt8.lt_iff_toNat_lt.mpr (by rw [hn]; exact h1)
    refine ⟨UInt8.ofNat b.length, by omega, ?_⟩
    rw [cons_append]
    simp only [getOp, if_pos hlt]
    exact ho _ hn
  · refine ⟨0x4c, by decide, ho _ ?_⟩
    rw [UInt8.toNat_ofNat']
    omega
  · refine ⟨0x4d, by decide, ho _ ?_⟩
    rw [UInt8.toNat_ofNat', UInt8.toNat_ofNat']
    omega
  · refine ⟨0x4e, by decide, ho _ ?_⟩
    rw [UInt8.toNat_ofNat', UInt8.toNat_ofNat', UInt8.toNat_ofNat', UInt8.toNat_ofNat']
    omega

theorem length_pushData_short (h : b.length < 0x4c) : (pushData b).length = b.length + 1 := by
  rw [pushData, if_pos h, length_cons]

/-! ## Push-only scripts -/

theorem isPushOnlyFrom_eq (h : pc.length ≤ fuel) : isPushOnlyFrom fuel pc = isPushOnly pc := by
  induction fuel using Nat.strong_induction_on generalizing pc with
  | _ fuel ih =>
    unfold isPushOnly
    cases hl : pc.length with
    | zero =>
      rw [length_eq_zero_iff] at hl
      subst hl
      cases fuel <;> rfl
    | succ n =>
      obtain ⟨fuel, rfl⟩ : ∃ k, fuel = k + 1 := ⟨fuel - 1, by omega⟩
      rw [isPushOnlyFrom, isPushOnlyFrom]
      cases hop : getOp pc with
      | none => rfl
      | some op =>
        have hlt := length_lt_of_getOp hop
        dsimp only
        rw [ih fuel (Nat.lt_succ_self _) (by omega), ih n (by omega) (by omega)]

theorem isPushOnly_pushData_append (hb : b.length < 2 ^ 32) (h : isPushOnly rest = true) :
    isPushOnly (pushData b ++ rest) = true := by
  obtain ⟨opcode, hop, hg⟩ := getOp_pushData hb rest
  have hle : ¬opcode > 0x60 := fun hgt => by
    have := UInt8.lt_iff_toNat_lt.mp hgt
    have h96 : (0x60 : UInt8).toNat = 0x60 := rfl
    omega
  have hlt := length_lt_of_getOp hg
  rw [isPushOnly]
  obtain ⟨n, hn⟩ : ∃ n, (pushData b ++ rest).length = n + 1 := ⟨(pushData b ++ rest).length - 1, by omega⟩
  rw [hn, isPushOnlyFrom, hg]
  dsimp only
  rw [if_neg hle, isPushOnlyFrom_eq (by omega), h, ite_self]

theorem isPushOnly_pushAll (hl : ∀ b ∈ l, b.length < 2 ^ 32) : isPushOnly (pushAll l) = true := by
  induction l with
  | nil => rfl
  | cons b l ih =>
    rw [forall_mem_cons] at hl
    exact isPushOnly_pushData_append hl.1 (ih hl.2)

/-! ## `Solver` -/

def opcodeReturn : UInt8 := 0x6a

def isPayToScriptHash (script : CScript) : Bool :=
  decide (script.length = 23) && decide (script[0]? = some 0xa9) && decide (script[1]? = some 0x14) &&
    decide (script[22]? = some 0x87)

-- template matching params
def opSmallData : UInt8 := 0xf9
def opSmallInteger : UInt8 := 0xfa
def opPubKeys : UInt8 := 0xfb
def opPubKeyHash : UInt8 := 0xfd
def opPubKey : UInt8 := 0xfe

/-- The templates in the order of their types. -/
def mTemplates : List (TxnOutType × CScript) :=
  [(.pubkey, [opPubKey, 0xac]),
    (.pubkeyhash, [0x76, 0xa9, opPubKeyHash, 0x88, 0xac]),
    (.multisig, [opSmallInteger, opPubKeys, opSmallInteger, 0xae]),
    (.nullData, [opcodeReturn, opSmallData])]

def matchOp (opcode1 : UInt8) (vch1 : Bytes) (opcode2 : UInt8) (vch2 : Bytes) : Option (List Bytes) :=
  if opcode2 = opPubKey then if vch1.length < 33 ∨ vch1.length > 120 then none else some [vch1]
  else if opcode2 = opPubKeyHash then if vch1.length ≠ 20 then none else some [vch1]
  else if opcode2 = opSmallInteger then
    if opcode1 = 0 then some [[0]]
    else if 0x51 ≤ opcode1 ∧ opcode1 ≤ 0x60 then some [[opcode1 - 0x50]]
    else none
  else if opcode2 = opSmallData then if vch1.length > 80 then none else some []
  else if opcode1 ≠ opcode2 ∨ vch1 ≠ vch2 then none
  else some []

def takePubKeys : Nat → UInt8 × Bytes × CScript → List Bytes → (UInt8 × Bytes × CScript) × List Bytes
  | 0, op, keys => (op, keys)
  | fuel + 1, (opcode1, vch1, pc1), keys =>
    if 33 ≤ vch1.length ∧ vch1.length ≤ 120 then
      takePubKeys fuel ((getOp pc1).getD (0xff, [], pc1)) (keys ++ [vch1])
    else ((opcode1, vch1, pc1), keys)

def matchTemplate : Nat → CScript → CScript → List Bytes → Option (List Bytes)
  | 0, _, _, _ => none
  | fuel + 1, pc1, pc2, vSolutions =>
    if pc1.isEmpty && pc2.isEmpty then some vSolutions
    else
      match getOp pc1, getOp pc2 with
      | some (opcode1, vch1, pc1), some (opcode2, vch2, pc2) =>
        if opcode2 = opPubKeys then
          let ((opcode1, vch1, pc1), vSolutions) := takePubKeys (pc1.length + 1) (opcode1, vch1, pc1) vSolutions
          match getOp pc2 with
          | none => none
          | some (opcode2, vch2, pc2) =>
            match matchOp opcode1 vch1 opcode2 vch2 with
            | none => none
            | some found => matchTemplate fuel pc1 pc2 (vSolutions ++ found)
        else
          match matchOp opcode1 vch1 opcode2 vch2 with
          | none => none
          | some found => matchTemplate fuel pc1 pc2 (vSolutions ++ found)
      | _, _ => none

def scanTemplates (script : CScript) : List (TxnOutType × CScript) → Option (TxnOutType × List Bytes)
  | [] => none
  | (type, tplate) :: rest =>
    match matchTemplate (tplate.length + 1) script tplate [] with
    | none => scanTemplates script rest
    | some vSolutions =>
      if type = .multisig then
        let m := ((vSolutions.headD []).headD 0).toNat
        let n := ((vSolutions.getLastD []).headD 0).toNat
        if m < 1 ∨ n < 1 ∨ m > n ∨ vSolutions.length - 2 ≠ n then none else some (type, vSolutions)
      else some (type, vSolutions)

def solver (scriptPubKey : CScript) : Option (TxnOutType × List Bytes) :=
  if isPayToScriptHash scriptPubKey then some (.scripthash, [(scriptPubKey.drop 2).take 20])
  else scanTemplates scriptPubKey mTemplates

/-! ### Matching -/

theorem matchTemplate_step (h1 : getOp pc1 = some (opcode1, vch1, rest1)) (h2 : getOp pc2 = some (opcode2, vch2, rest2))
    (hk : opcode2 ≠ opPubKeys) : matchTemplate (fuel + 1) pc1 pc2 vSolutions =
      (matchOp opcode1 vch1 opcode2 vch2).bind fun found => matchTemplate fuel rest1 rest2 (vSolutions ++ found) := by
  have hne : (pc1.isEmpty && pc2.isEmpty) = false := by
    cases pc1 with
    | nil => cases h1
    | cons b pc1 => rfl
  rw [matchTemplate, hne, h1, h2]
  simp only [Bool.false_eq_true, if_false, if_neg hk]
  cases matchOp opcode1 vch1 opcode2 vch2 <;> rfl

theorem matchTemplate_longer (fuel : Nat) (h : pc1 ≠ []) (vSolutions : List Bytes) :
    matchTemplate (fuel + 1) pc1 [] vSolutions = none := by
  cases pc1 with
  | nil => exact absurd rfl h
  | cons b pc1 =>
    rw [matchTemplate]
    cases getOp (b :: pc1) <;> rfl

theorem scanTemplates_of_none (h : matchTemplate (tplate.length + 1) script tplate [] = none) :
    scanTemplates script ((type, tplate) :: rest) = scanTemplates script rest := by
  rw [scanTemplates, h]

theorem scanTemplates_of_some (h : matchTemplate (tplate.length + 1) script tplate [] = some vSolutions)
    (ht : type ≠ .multisig) : scanTemplates script ((type, tplate) :: rest) = some (type, vSolutions) := by
  rw [scanTemplates, h]
  exact if_neg ht

theorem not_matched_of_opcode (hop : 0x60 < opcode) : matchTemplate 3 (opcode :: rest) [opPubKey, 0xac] [] = none ∧
    matchTemplate 5 (opcode :: rest) [opSmallInteger, opPubKeys, opSmallInteger, 0xae] [] = none := by
  have hn := UInt8.lt_iff_toNat_lt.mp hop
  have h96 : (0x60 : UInt8).toNat = 0x60 := rfl
  have hg : getOp (opcode :: rest) = some (opcode, [], rest) :=
    getOp_opcode (UInt8.lt_iff_toNat_lt.mpr (by simp; omega)) rest
  have hz : opcode ≠ 0 := by
    rintro rfl
    exact absurd hop (by decide)
  have hs : ¬((0x51 : UInt8) ≤ opcode ∧ opcode ≤ 0x60) := by
    rintro ⟨-, hle⟩
    exact absurd (UInt8.le_iff_toNat_le.mp hle) (by omega)
  constructor
  · rw [matchTemplate_step hg rfl (by decide)]
    rfl
  · rw [matchTemplate_step hg rfl (by decide), matchOp, if_neg (by decide), if_neg (by decide), if_pos rfl,
      if_neg hz, if_neg hs]
    rfl

theorem solver_keyID {id : Bytes} (hid : id.length = 20) :
    solver ([0x76, 0xa9] ++ pushData id ++ [0x88, 0xac]) = some (.pubkeyhash, [id]) := by
  have hs : [0x76, 0xa9] ++ pushData id ++ [0x88, 0xac] = 0x76 :: 0xa9 :: (pushData id ++ [0x88, 0xac]) := by
    simp
  obtain ⟨opcode, -, hg⟩ := getOp_pushData (b := id) (by omega) [0x88, 0xac]
  have hno : isPayToScriptHash (0x76 :: 0xa9 :: (pushData id ++ [0x88, 0xac])) = false := by
    simp [isPayToScriptHash]
  have hm : matchTemplate 6 (0x76 :: 0xa9 :: (pushData id ++ [0x88, 0xac])) [0x76, 0xa9, opPubKeyHash, 0x88, 0xac] [] =
      some [id] := by
    rw [matchTemplate_step (getOp_opcode (by decide) _) rfl (by decide),
      show matchOp 0x76 [] 0x76 [] = some [] from rfl,
      bind_some,
      matchTemplate_step (getOp_opcode (by decide) _) rfl (by decide), show matchOp 0xa9 [] 0xa9 [] = some [] from rfl,
      bind_some, matchTemplate_step hg rfl (by decide)]
    have hk : matchOp opcode id opPubKeyHash [] = some [id] := by
      rw [matchOp, if_neg (by decide), if_pos rfl, if_neg (by simpa using hid)]
    rw [hk]
    rfl
  rw [hs, solver, hno, if_neg Bool.false_ne_true, mTemplates,
    scanTemplates_of_none (not_matched_of_opcode (by decide)).1, scanTemplates_of_some hm (by decide)]

theorem solver_scriptID {id : Bytes} (hid : id.length = 20) :
    solver ([0xa9] ++ pushData id ++ [0x87]) = some (.scripthash, [id]) := by
  have hp : pushData id = 0x14 :: id := by
    rw [pushData, hid]
    rfl
  have hp2 : isPayToScriptHash ([0xa9] ++ pushData id ++ [0x87]) = true := by
    simp [isPayToScriptHash, hp, hid]
  rw [solver, hp2, if_pos rfl, hp]
  simp [take_left' hid]

theorem solver_return (hb : b.length < 2 ^ 32) (rest : CScript) : solver (opcodeReturn :: (pushData b ++ rest)) =
      if b.length ≤ 80 ∧ rest = [] then some (.nullData, []) else none := by
  obtain ⟨opcode, -, hg⟩ := getOp_pushData hb rest
  have hf : getOp (opcodeReturn :: (pushData b ++ rest)) = some (opcodeReturn, [], pushData b ++ rest) :=
    getOp_opcode (by decide) _
  have hno : isPayToScriptHash (opcodeReturn :: (pushData b ++ rest)) = false := by
    simp [isPayToScriptHash, opcodeReturn]
  obtain ⟨hk, hm⟩ := @not_matched_of_opcode opcodeReturn (pushData b ++ rest) (by decide)
  have hh : matchTemplate 6 (opcodeReturn :: (pushData b ++ rest))
    [0x76, 0xa9, opPubKeyHash, 0x88, 0xac] [] = none := by
    rfl
  have hd : matchTemplate 3 (opcodeReturn :: (pushData b ++ rest)) [opcodeReturn, opSmallData] [] =
      if b.length ≤ 80 ∧ rest = [] then some [] else none := by
    rw [matchTemplate_step hf rfl (by decide), show matchOp opcodeReturn [] opcodeReturn [] = some [] from rfl,
      bind_some, matchTemplate_step hg rfl (by decide), matchOp, if_neg (by decide), if_neg (by decide),
      if_neg (by decide), if_pos rfl]
    by_cases hl : b.length > 80
    · rw [if_pos hl, if_neg (by omega)]
      rfl
    rw [if_neg hl, bind_some]
    by_cases hr : rest = []
    · rw [if_pos ⟨by omega, hr⟩, hr]
      rfl
    · rw [if_neg (by tauto), matchTemplate_longer _ hr]
  rw [solver, hno, if_neg Bool.false_ne_true, mTemplates, scanTemplates_of_none hk, scanTemplates_of_none hh,
    scanTemplates_of_none hm]
  split
  · rename_i h
    rw [if_pos h] at hd
    rw [scanTemplates_of_some hd (by decide)]
  rename_i h
  rw [if_neg h] at hd
  rw [scanTemplates_of_none hd]
  rfl

-- one of one keys
example : solver ([0x51] ++ pushData (replicate 33 2) ++ [0x51, 0xae]) =
    some (.multisig, [[1], replicate 33 2, [1]]) := by decide +kernel

end CloakCoin.Chain
