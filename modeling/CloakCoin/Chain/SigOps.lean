import CloakCoin.Chain.Inputs
import CloakCoin.Chain.Solver

/-!
# Signature operations

`CScript::GetSigOpCount`, and the operations of a transaction with those of the scripts it pays to by their hash, as
`ConnectBlock` counts them.
-/

namespace CloakCoin.Chain

open Lib
open Std (ExtTreeMap)
open Option

variable {inputs : MapPrevTx} {tx : CTransaction} {env : Env} {script rest : CScript} {opcode : UInt8}
  {vSolutions : List Bytes} {vch : List UInt8}

/-! ## `GetSigOpCount` -/

def sigOpCountFrom (fAccurate : Bool) : Nat → UInt8 → CScript → Nat
  | 0, _, _ => 0
  | fuel + 1, lastOpcode, pc =>
    match getOp pc with
    | none => 0
    | some (opcode, _, pc) =>
      (if opcode = 0xac ∨ opcode = 0xad then 1
        else if opcode = 0xae ∨ opcode = 0xaf then
          if fAccurate ∧ 0x51 ≤ lastOpcode ∧ lastOpcode ≤ 0x60 then (lastOpcode - 0x50).toNat else 20
        else 0) + sigOpCountFrom fAccurate fuel opcode pc

def getSigOpCount (fAccurate : Bool) (script : CScript) : Nat := sigOpCountFrom fAccurate script.length 0xff script

theorem sigOpCountFrom_step (h : getOp pc = some (opcode, vch, rest)) (hop : opcode.toNat ≤ 0x4e) :
    sigOpCountFrom fAccurate (fuel + 1) last pc = sigOpCountFrom fAccurate fuel opcode rest := by
  have hne (k : UInt8) (hk : 0x4e < k.toNat) : opcode ≠ k := by
    rintro rfl
    omega
  rw [sigOpCountFrom, h]
  dsimp only
  rw [if_neg (not_or.mpr ⟨hne 0xac (by decide), hne 0xad (by decide)⟩),
    if_neg (not_or.mpr ⟨hne 0xae (by decide), hne 0xaf (by decide)⟩), Nat.zero_add]

theorem sigOpCountFrom_nil (fAccurate : Bool) (fuel : Nat) (last : UInt8) :
    sigOpCountFrom fAccurate fuel last [] = 0 := by
  cases fuel <;> rfl

theorem sigOpCountFrom_pushAll (fAccurate : Bool) (hl : ∀ b ∈ l, b.length < 2 ^ 32) (fuel : Nat)
    (last : UInt8) : sigOpCountFrom fAccurate fuel last (pushAll l) = 0 := by
  induction l generalizing fuel last with
  | nil => exact sigOpCountFrom_nil fAccurate fuel last
  | cons b l ih =>
    rw [List.forall_mem_cons] at hl
    cases fuel with
    | zero => rfl
    | succ fuel =>
      obtain ⟨opcode, hop, hg⟩ := getOp_pushData hl.1 (pushAll l)
      have hc : pushAll (b :: l) = pushData b ++ pushAll l := List.flatMap_cons
      rw [hc, sigOpCountFrom_step hg hop]
      exact ih hl.2 fuel opcode

theorem length_le_pushData (b : Bytes) : b.length ≤ (pushData b).length := by
  unfold pushData
  dsimp only
  split_ifs <;> simp only [List.length_cons] <;> omega

theorem getSigOpCount_pushAll (h : (pushAll l).length < 2 ^ 32) : getSigOpCount false (pushAll l) = 0 := by
  apply sigOpCountFrom_pushAll
  intro b hb
  have hs : (pushData b).length ≤ (pushAll l).length := by
    rw [pushAll, List.length_flatMap]
    exact List.single_le_sum (fun _ _ => Nat.zero_le _) _ (List.mem_map_of_mem hb)
  have := length_le_pushData b
  omega

/-! ## Payments to a public key -/

theorem getSigOpCount_checkSig (h : getOp script = some (opcode, vch, rest)) (hop : opcode.toNat ≤ 0x4e)
    (hr : rest = [0xac]) : getSigOpCount false script ≤ 1 := by
  unfold getSigOpCount
  cases script.length with
  | zero => exact Nat.zero_le 1
  | succ fuel =>
    rw [sigOpCountFrom_step h hop, hr]
    cases fuel with
    | zero => exact Nat.zero_le 1
    | succ fuel =>
      have hg : getOp [(0xac : UInt8)] = some (0xac, [], []) := by decide
      rw [sigOpCountFrom, hg]
      simp [sigOpCountFrom_nil]

theorem getOp_some (h : getOp pc = some (opcode, vch, rest)) :
    ∃ tail, pc = opcode :: tail ∧ (0x4e < opcode.toNat → vch = [] ∧ rest = tail) := by
  cases pc with
  | nil => cases h
  | cons b tail =>
    have hb : b = opcode := by
      unfold getOp at h
      dsimp only at h
      split_ifs at h
      all_goals first
        | exact (Prod.mk.inj (some.inj h)).1
        | skip
      all_goals
        split at h
        · split_ifs at h
          exact (Prod.mk.inj (some.inj h)).1
        · cases h
    subst hb
    refine ⟨tail, rfl, fun hop => ?_⟩
    rw [getOp_opcode (UInt8.lt_iff_toNat_lt.mpr hop)] at h
    obtain ⟨-, h⟩ := Prod.mk.inj (some.inj h)
    obtain ⟨rfl, rfl⟩ := Prod.mk.inj h
    exact ⟨rfl, rfl⟩

theorem matchTemplate_pubkey (h : matchTemplate 3 script [opPubKey, 0xac] [] = some vSolutions) :
    ∃ opcode vch, getOp script = some (opcode, vch, [0xac]) ∧ opcode.toNat ≤ 0x4e := by
  have ht : getOp [opPubKey, (0xac : UInt8)] = some (opPubKey, [], [0xac]) := by decide
  have hc : getOp [(0xac : UInt8)] = some (0xac, [], []) := by decide
  cases hg : getOp script with
  | none =>
    rw [matchTemplate, hg, ht, if_neg (by simp)] at h
    cases h
  | some op =>
    obtain ⟨opcode, vch, rest⟩ := op
    rw [matchTemplate_step hg ht (by decide)] at h
    obtain ⟨found, hm, h⟩ := bind_eq_some_iff.mp h
    rw [matchOp, if_pos rfl] at hm
    split_ifs at hm with hl
    have hop : opcode.toNat ≤ 0x4e := by
      obtain ⟨tail, -, hp⟩ := getOp_some hg
      by_contra hlarge
      rw [(hp (by omega)).1, List.length_nil] at hl
      omega
    refine ⟨opcode, vch, ?_, hop⟩
    cases hn : getOp rest with
    | none =>
      rw [matchTemplate, hn, hc, if_neg (by simp)] at h
      cases h
    | some op2 =>
      obtain ⟨opcode2, vch2, rest2⟩ := op2
      rw [matchTemplate_step hn hc (by decide)] at h
      obtain ⟨found2, hm2, h⟩ := bind_eq_some_iff.mp h
      rw [matchOp, if_neg (by decide), if_neg (by decide), if_neg (by decide), if_neg (by decide)] at hm2
      split_ifs at hm2 with hs
      push Not at hs
      obtain ⟨tail, hta, he⟩ := getOp_some hn
      rw [hs.1] at hta he
      have hen : rest2 = [] := by
        by_contra hne
        rw [matchTemplate_longer 0 hne] at h
        cases h
      rw [hta, ← (he (by decide)).2, hen]

theorem scanTemplates_some (h : scanTemplates script l = some (type, vSolutions)) :
    ∃ tplate, (type, tplate) ∈ l ∧ matchTemplate (tplate.length + 1) script tplate [] = some vSolutions := by
  induction l with
  | nil => cases h
  | cons entry rest ih =>
    obtain ⟨type', tplate⟩ := entry
    cases hm : matchTemplate (tplate.length + 1) script tplate [] with
    | none =>
      rw [scanTemplates_of_none hm] at h
      obtain ⟨found, hme, hf⟩ := ih h
      exact ⟨found, List.mem_cons_of_mem _ hme, hf⟩
    | some sols =>
      have hs : some (type', sols) = some (type, vSolutions) := by
        rw [scanTemplates, hm] at h
        dsimp only at h
        split_ifs at h
        · exact h
        · exact h
      obtain ⟨rfl, rfl⟩ := Prod.mk.inj (some.inj hs)
      exact ⟨tplate, List.mem_cons_self, hm⟩

theorem getSigOpCount_of_solver (h : solver script = some (.pubkey, vSolutions)) : getSigOpCount false script ≤ 1 := by
  unfold solver at h
  split at h
  · cases h
  obtain ⟨tplate, hme, hm⟩ := scanTemplates_some h
  obtain rfl : tplate = [opPubKey, 0xac] := by simpa [mTemplates] using hme
  obtain ⟨opcode, vch, hg, hop⟩ := matchTemplate_pubkey hm
  exact getSigOpCount_checkSig hg hop rfl

theorem getSigOpCount_pushKey (h : key.length < 2 ^ 32) : getSigOpCount false (pushData key ++ [0xac]) ≤ 1 := by
  obtain ⟨opcode, hop, hg⟩ := getOp_pushData h [0xac]
  exact getSigOpCount_checkSig hg hop rfl

/-! ## Payments to the hash of a script -/

theorem not_payToScriptHash_of_solver (h : solver script = some (type, vSolutions))
    (ht : type ≠ .scripthash) : CScript.isPayToScriptHash script = false := by
  have hs : CScript.isPayToScriptHash script = isPayToScriptHash script := by
    simp [CScript.isPayToScriptHash, isPayToScriptHash, beq_eq_decide]
  rw [hs, ← Bool.not_eq_true]
  intro hh
  rw [solver, if_pos hh] at h
  exact ht (Prod.mk.inj (some.inj h)).1.symm

theorem not_payToScriptHash_pushKey (key : Bytes) : CScript.isPayToScriptHash (pushData key ++ [0xac]) = false := by
  rw [← Bool.not_eq_true]
  intro h
  simp only [CScript.isPayToScriptHash, Bool.and_eq_true, beq_iff_eq] at h
  obtain ⟨⟨⟨hl, hf⟩, -⟩, -⟩ := h
  unfold pushData at hl hf
  dsimp only at hl hf
  split_ifs at hl hf with hs
  · rw [List.cons_append, List.getElem?_cons_zero, some.injEq] at hf
    have hv := congrArg UInt8.toNat hf
    rw [UInt8.toNat_ofNat', Nat.mod_eq_of_lt (by omega)] at hv
    have h169 : (0xa9 : UInt8).toNat = 169 := rfl
    omega
  · cases hf
  · cases hf
  · cases hf

/-! ## Pending changes and where they lead -/

def TxSource.Agrees (src : TxSource) (h : Hash256) (txindex : CTxIndex) : Prop :=
  (∃ stored, src.readTxIndex h = some stored ∧ stored.pos = txindex.pos) ∨
    (src.readTxIndex h = none ∧ txindex.pos = .memPool)

section
variable {src : TxSource} {mapTestPool : MapTxIndex} {mapTestPool' : MapTxIndex} {pos : CDiskTxPos}

theorem TxSource.Agrees.lookup (ha : src.Agrees h e)
    (hp : src.prevTx h e = some t) : ∃ e', src.lookup ∅ false h = some (e', t) := by
  have hf : src.findIndex ∅ false h = src.readTxIndex h := rfl
  rcases ha with ⟨stored, hs, hpo⟩ | ⟨hn, hpo⟩
  · have hsa : src.prevTx h stored = some t := by rw [← hp, TxSource.prevTx, TxSource.prevTx, hpo]
    refine ⟨stored, ?_⟩
    rw [TxSource.lookup, hf, hs]
    dsimp only
    rw [hsa, map_some]
  · rw [TxSource.prevTx, if_pos hpo] at hp
    refine ⟨.ofOutputs .null t.vout.length, ?_⟩
    rw [TxSource.lookup, hf, hn]
    rw [hp, if_neg Bool.false_ne_true, map_some]

theorem fetchInputs_agrees (hf : fetchInputs src mapTestPool fBlock true tx = .ok inputs)
    (hp : ∀ (h : Hash256) (e : CTxIndex), mapTestPool[h]? = some e → src.Agrees h e) (hin : inputs[h]? = some (e, t)) :
    src.Agrees h e ∧ ∃ e', src.lookup ∅ false h = some (e', t) := by
  have hl := fetchInputs_lookedUp hf h (e, t) hin
  rw [Bool.or_true, TxSource.lookup, src.findIndex_pending] at hl
  split at hl
  · rename_i e' he'
    obtain ⟨t', hpr, heq⟩ := map_eq_some_iff.mp hl
    obtain ⟨rfl, rfl⟩ := Prod.mk.inj heq
    have ha : src.Agrees h e' := by
      rw [overlay_eq_ite] at he'
      split at he'
      · exact hp h e' he'
      · exact .inl ⟨e', he', rfl⟩
    exact ⟨ha, ha.lookup hpr⟩
  · cases hl

theorem spendInput_agrees
    (hs : spendInput env tx pos pending skip strict (inputs, mapTestPool) i = some (inputs', mapTestPool'))
    (hi : ∀ (h : Hash256) (p : CTxIndex × CTransaction), inputs[h]? = some p → src.Agrees h p.1)
    (hp : ∀ (h : Hash256) (e : CTxIndex), mapTestPool[h]? = some e → src.Agrees h e) :
    (∀ (h : Hash256) (p : CTxIndex × CTransaction), inputs'[h]? = some p → src.Agrees h p.1) ∧
      ∀ (h : Hash256) (e : CTxIndex), mapTestPool'[h]? = some e → src.Agrees h e := by
  obtain ⟨txin, n⟩ := i
  simp only [spendInput] at hs
  split at hs
  · cases hs
  rename_i e t hin
  split at hs
  · cases hs
  have hold : src.Agrees txin.prevout.hash e := hi _ _ hin
  split_ifs at hs
  · obtain ⟨rfl, rfl⟩ := Prod.mk.inj (some.inj hs)
    exact ⟨forall_getElem?_insert hi hold, forall_getElem?_insert hp hold⟩
  · obtain ⟨rfl, rfl⟩ := Prod.mk.inj (some.inj hs)
    exact ⟨forall_getElem?_insert hi hold, hp⟩

theorem foldlM_spendInput_agrees (vin : List (CTxIn × Nat))
    (hf : vin.foldlM (spendInput env tx pos pending skip strict) (inputs, mapTestPool) = some (inputs', mapTestPool'))
    (hin : ∀ (h : Hash256) (p : CTxIndex × CTransaction), inputs[h]? = some p → src.Agrees h p.1)
    (hp : ∀ (h : Hash256) (e : CTxIndex), mapTestPool[h]? = some e → src.Agrees h e) :
    ∀ (h : Hash256) (e : CTxIndex), mapTestPool'[h]? = some e → src.Agrees h e := by
  induction vin generalizing inputs mapTestPool with
  | nil =>
    obtain ⟨rfl, rfl⟩ := Prod.mk.inj (some.inj hf)
    exact hp
  | cons i vin ih =>
    obtain ⟨⟨inputs1, pool1⟩, hi, hf⟩ := bind_eq_some_iff.mp hf
    obtain ⟨hi1, hp1⟩ := spendInput_agrees hi hin hp
    exact ih hf hi1 hp1

theorem connectInputs_agrees
    (hc : connectInputs env ctx tx inputs mapTestPool pos fBlock fMiner fStrict = some mapTestPool')
    (hi : ∀ (h : Hash256) (p : CTxIndex × CTransaction), inputs[h]? = some p → src.Agrees h p.1)
    (hp : ∀ (h : Hash256) (e : CTxIndex), mapTestPool[h]? = some e → src.Agrees h e) :
    ∀ (h : Hash256) (e : CTxIndex), mapTestPool'[h]? = some e → src.Agrees h e := by
  unfold connectInputs at hc
  split at hc
  · obtain rfl := some.inj hc
    exact hp
  split at hc
  · cases hc
  dsimp only at hc
  split at hc
  · cases hc
  rename_i inputs' pool' hf
  split_ifs at hc
  obtain rfl := some.inj hc
  exact foldlM_spendInput_agrees _ hf hi hp

end

/-! ## The operations of a transaction -/

/-- The operations of the script behind an input, if it pays to its hash. -/
def TxSource.p2shInput (env : Env) (src : TxSource) (txin : CTxIn) : Nat :=
  match src.prevOutput txin.prevout with
  | some prevout =>
    if CScript.isPayToScriptHash prevout.scriptPubKey then env.p2shSigOpCount prevout.scriptPubKey txin.scriptSig else 0
  | none => 0

def TxSource.sigOps (env : Env) (src : TxSource) (tx : CTransaction) : Nat :=
  tx.getLegacySigOpCount env + if tx.isCoinBase then 0 else (tx.vin.map (src.p2shInput env)).sum

theorem getP2SHSigOpCount_eq {src : TxSource}
    (hs : ∀ (h : Hash256) (e : CTxIndex) (t : CTransaction), inputs[h]? = some (e, t) →
      ∃ e', src.lookup ∅ false h = some (e', t)) (h : tx.getP2SHSigOpCount env inputs = some n) :
    n = if tx.isCoinBase then 0 else (tx.vin.map (src.p2shInput env)).sum := by
  unfold CTransaction.getP2SHSigOpCount at h
  split at h
  · rw [if_pos ‹_›]
    exact (some.inj h).symm
  rw [if_neg ‹_›]
  suffices hfold : ∀ (vin : List CTxIn) (acc : Nat), vin.foldlM (fun nSigOps txin => (getOutputFor inputs txin).map
      fun prevout => if CScript.isPayToScriptHash prevout.scriptPubKey then
        nSigOps + env.p2shSigOpCount prevout.scriptPubKey txin.scriptSig else nSigOps) acc = some n →
      n = acc + (vin.map (src.p2shInput env)).sum by
    rw [hfold _ _ h, Nat.zero_add]
  intro vin
  induction vin with
  | nil =>
    intro acc ha
    exact (some.inj ha).symm
  | cons txin vin ih =>
    intro acc ha
    obtain ⟨acc', hst, ha⟩ := bind_eq_some_iff.mp ha
    obtain ⟨prevout, ho, rfl⟩ := map_eq_some_iff.mp hst
    obtain ⟨⟨e, t⟩, hin, hg⟩ := bind_eq_some_iff.mp ho
    obtain ⟨e', hl⟩ := hs _ e t hin
    have hp : src.prevOutput txin.prevout = some prevout := by
      rw [TxSource.prevOutput, hl]
      exact hg
    rw [ih _ ha, List.map_cons, List.sum_cons, TxSource.p2shInput, hp]
    dsimp only
    split
    · omega
    · omega

end CloakCoin.Chain
