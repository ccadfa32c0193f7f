import CloakCoin.Chain.TxDb
import CloakCoin.Lib.Map

/-!
# Connecting the inputs of one transaction

`FetchInputs`, `GetCoinAge` and `ConnectInputs`. The pending changes `mapTestPool` are an overlay of the transaction
index, in which a successful `ConnectInputs` takes the slots of its outpoints.
-/

namespace CloakCoin.Chain

open Lib
open Std (ExtTreeMap)
open List Option Function Bool

variable {fMiner strict : Bool} {v : Int} {pos : CDiskTxPos}

abbrev MapTxIndex := ExtTreeMap Hash256 CTxIndex
abbrev MapPrevTx := ExtTreeMap Hash256 (CTxIndex × CTransaction)

/-- Where transactions are looked up. -/
structure TxSource where
  readTxIndex : Hash256 → Option CTxIndex
  readTx : CDiskTxPos → Option CTransaction
  readBlockTime : CDiskTxPos → Option Nat
  mempoolLookup : Hash256 → Option CTransaction

/-- The source with the block being connected: its entry and that entry's ancestors. -/
structure ConnectCtx extends TxSource where
  ancestors : List CBlockIndex
  nBestHeight : Int

def COutPoint.key (o : COutPoint) : Hash256 × Nat := (o.hash, o.n)

theorem COutPoint.key_injective : Injective COutPoint.key := by
  rintro ⟨hash, n⟩ ⟨hash', n'⟩ h
  simpa [key] using h

namespace CTransaction

/-- The slots this transaction spends; a coinbase spends none. -/
def outpoints (tx : CTransaction) : List (Hash256 × Nat) :=
  if tx.isCoinBase then [] else tx.vin.map (·.prevout.key)

end CTransaction

/-! ## `FetchInputs` -/

inductive FetchResult where
  | ok (inputsRet : MapPrevTx)
  | notFound
  /-- The transaction is definitely invalid (`fInvalid`). -/
  | invalid

variable (src : TxSource)

/-- Read txPrev, from the memory pool if the record says so. -/
def TxSource.prevTx (hash : Hash256) (txindex : CTxIndex) : Option CTransaction :=
  if txindex.pos = .memPool then src.mempoolLookup hash else src.readTx txindex.pos

variable (mapTestPool : MapTxIndex)

def TxSource.findIndex (pending : Bool) (hash : Hash256) : Option CTxIndex :=
  if pending && mapTestPool.contains hash then mapTestPool[hash]? else src.readTxIndex hash

/-- One turn of the loop of `FetchInputs`; `pending` is `fBlock || fMiner`. -/
def fetchInput (pending : Bool) (inputsRet : MapPrevTx) (txin : CTxIn) : Option MapPrevTx :=
  let hash := txin.prevout.hash
  if inputsRet.contains hash then some inputsRet -- Got it already
  else
    match src.findIndex mapTestPool pending hash with
    | some txindex => (src.prevTx hash txindex).map fun txPrev => inputsRet.insert hash (txindex, txPrev)
    | none =>
      if pending then none
      else (src.mempoolLookup hash).map fun txPrev =>
        inputsRet.insert hash (CTxIndex.ofOutputs .null txPrev.vout.length, txPrev)

def prevoutInRange (inputs : MapPrevTx) (txin : CTxIn) : Bool :=
  match inputs[txin.prevout.hash]? with
  | none => false
  | some (txindex, txPrev) =>
    decide (txin.prevout.n < txPrev.vout.length) && decide (txin.prevout.n < txindex.vSpent.length)

def fetchInputs (fBlock fMiner : Bool) (tx : CTransaction) : FetchResult :=
  if tx.isCoinBase then .ok ∅ -- Coinbase transactions have no inputs to fetch.
  else
    match tx.vin.foldlM (fetchInput src mapTestPool (fBlock || fMiner)) ∅ with
    | none => .notFound
    | some inputs => if tx.vin.all (prevoutInRange inputs) then .ok inputs else .invalid

def Fetched (inputs : MapPrevTx) : Prop :=
  ∀ h e t, inputs[h]? = some (e, t) →
    overlay mapTestPool src.readTxIndex h = some e ∧ src.prevTx h e = some t

variable (pool : MapTxIndex)

theorem TxSource.findIndex_pending (hash : Hash256) : src.findIndex pool true hash =
    overlay pool src.readTxIndex hash := by
  rw [overlay_eq_ite]
  simp [findIndex]

/-- The record and the transaction found for a hash. -/
def TxSource.lookup (pending : Bool) (hash : Hash256) : Option (CTxIndex × CTransaction) :=
  match src.findIndex mapTestPool pending hash with
  | some txindex => (src.prevTx hash txindex).map fun txPrev => (txindex, txPrev)
  | none =>
    if pending then none
    else (src.mempoolLookup hash).map fun txPrev => (CTxIndex.ofOutputs .null txPrev.vout.length, txPrev)

theorem fetchInput_eq (pending : Bool) (inputs : MapPrevTx) (txin : CTxIn) : fetchInput src pool pending inputs txin =
      if inputs.contains txin.prevout.hash then some inputs
      else (src.lookup pool pending txin.prevout.hash).map (inputs.insert txin.prevout.hash) := by
  unfold fetchInput TxSource.lookup
  dsimp only
  split_ifs
  · rfl
  · cases src.findIndex pool pending txin.prevout.hash <;> simp [Option.map_map, Function.comp_def]
  · cases src.findIndex pool pending txin.prevout.hash <;> simp [Option.map_map, Function.comp_def]

def LookedUp (pending : Bool) (inputs : MapPrevTx) : Prop :=
  ∀ h p, inputs[h]? = some p → src.lookup pool pending h = some p

variable {pool : MapTxIndex} {src : TxSource} {tx : CTransaction} {inputs inputs' : MapPrevTx}

theorem fetchInput_lookedUp (h : fetchInput src pool pending inputs txin = some inputs')
    (hl : LookedUp src pool pending inputs) : LookedUp src pool pending inputs' := by
  rw [fetchInput_eq] at h
  split_ifs at h
  · cases h
    exact hl
  obtain ⟨p, hp, rfl⟩ := map_eq_some_iff.mp h
  intro k q hk
  by_cases hh : k = txin.prevout.hash
  · subst hh
    rw [ExtTreeMap.getElem?_insert_self] at hk
    rw [hp, hk]
  · rw [getElem?_insert_ne _ hh] at hk
    exact hl k q hk

theorem foldlM_fetchInput {vin : List CTxIn} (h : vin.foldlM (fetchInput src pool pending) inputs = some inputs')
    (hl : LookedUp src pool pending inputs) : LookedUp src pool pending inputs' := by
  induction vin generalizing inputs with
  | nil =>
    cases h
    exact hl
  | cons i rest ih =>
    obtain ⟨mid, hm, h⟩ := bind_eq_some_iff.mp h
    exact ih h (fetchInput_lookedUp hm hl)

theorem fetchInputs_lookedUp (h : fetchInputs src pool fBlock fMiner tx = .ok inputs) :
    LookedUp src pool (fBlock || fMiner) inputs := by
  have hn : LookedUp src pool (fBlock || fMiner) ∅ := by
    intro h' p hin
    simp at hin
  unfold fetchInputs at h
  split at h
  · cases h
    exact hn
  split at h
  · cases h
  rename_i inputs' hf
  split at h
  · cases h
    exact foldlM_fetchInput hf hn
  · cases h

theorem fetchInputs_spec (h : fetchInputs src pool true fMiner tx = .ok inputs) : Fetched src pool inputs := by
  intro k e t hk
  have hl := fetchInputs_lookedUp h k (e, t) hk
  rw [TxSource.lookup, Bool.true_or, src.findIndex_pending] at hl
  split at hl
  · rename_i e' he'
    obtain ⟨t', ht', heq⟩ := map_eq_some_iff.mp hl
    cases heq
    exact ⟨he', ht'⟩
  · cases hl

/-! ## Sums over the inputs -/

/-- `none` is the exception of `GetOutputFor`. -/
def getOutputFor (inputs : MapPrevTx) (txin : CTxIn) : Option CTxOut :=
  (inputs[txin.prevout.hash]?).bind fun p => p.2.vout[txin.prevout.n]?

/-- The output at an outpoint, confirmed or in the memory pool. -/
def TxSource.prevOutput (src : TxSource) (o : COutPoint) : Option CTxOut :=
  (src.lookup ∅ false o.hash).bind fun p => p.2.vout[o.n]?

def CTransaction.getValueIn (tx : CTransaction) (inputs : MapPrevTx) : Option Int :=
  if tx.isCoinBase then some 0
  else tx.vin.foldlM (fun nResult txin => (getOutputFor inputs txin).map (nResult + ·.nValue)) 0

def TxSource.spentValue (src : TxSource) (idx : SlotIndex Hash256 CDiskTxPos) (o : Hash256 × Nat) : Int :=
  (((idx o.1).bind (src.prevTx o.1)).bind fun txPrev => txPrev.vout[o.2]?).elim 0 CTxOut.nValue

theorem foldlM_getOutputFor {value : Hash256 × Nat → Int} (vin : List CTxIn)
    (hv : ∀ txin ∈ vin, ∀ out, getOutputFor inputs txin = some out → value txin.prevout.key = out.nValue) {acc : Int}
    (h : vin.foldlM (fun nResult txin => (getOutputFor inputs txin).map (nResult + ·.nValue)) acc = some v) :
    v = acc + (vin.map fun txin => value txin.prevout.key).sum := by
  induction vin generalizing acc with
  | nil =>
    cases h
    simp
  | cons i rest ih =>
    obtain ⟨acc', hi, h⟩ := bind_eq_some_iff.mp h
    obtain ⟨out, ho, rfl⟩ := map_eq_some_iff.mp hi
    rw [ih (fun j hj => hv j (mem_cons_of_mem i hj)) h, map_cons, sum_cons,
      hv i mem_cons_self out ho, add_assoc]

theorem getValueIn_eq (hf : Fetched src pool inputs) (hcb : tx.isCoinBase = false) (h : tx.getValueIn inputs = some v) :
    v = (tx.outpoints.map (src.spentValue (overlay pool src.readTxIndex))).sum := by
  rw [CTransaction.getValueIn, hcb, if_neg (by simp)] at h
  rw [CTransaction.outpoints, hcb, if_neg (by simp), List.map_map]
  refine (foldlM_getOutputFor tx.vin (fun i _ out ho => ?_) h).trans (zero_add _)
  obtain ⟨⟨e, t⟩, hin, hg⟩ := Option.bind_eq_some_iff.mp ho
  obtain ⟨hi, hp⟩ := hf _ _ _ hin
  simp [TxSource.spentValue, COutPoint.key, hi, hp, hg]

/-- `OP_HASH160`, 20 bytes, `OP_EQUAL`. -/
def CScript.isPayToScriptHash (s : CScript) : Bool :=
  s.length == 23 && s[0]? == some 0xa9 && s[1]? == some 0x14 && s[22]? == some 0x87

variable (env : Env)

def CTransaction.getP2SHSigOpCount (tx : CTransaction) (inputs : MapPrevTx) : Option Nat :=
  if tx.isCoinBase then some 0
  else tx.vin.foldlM (fun nSigOps txin => (getOutputFor inputs txin).map fun prevout =>
    if CScript.isPayToScriptHash prevout.scriptPubKey then
      nSigOps + env.p2shSigOpCount prevout.scriptPubKey txin.scriptSig
    else nSigOps) 0

/-! ## Coin age and rewards -/

def coinAgeInput (src : TxSource) (tx : CTransaction) (bnCentSecond : Int) (txin : CTxIn) : Option Int :=
  -- an input that is not in the main chain counts for nothing
  match src.readTxIndex txin.prevout.hash with
  | none => some bnCentSecond
  | some txindex =>
    match src.readTx txindex.pos with
    | none => some bnCentSecond
    | some txPrev =>
      match txPrev.vout[txin.prevout.n]? with
      | none => some bnCentSecond
      | some out =>
        if tx.nTime < txPrev.nTime then none -- Transaction timestamp violation
        else
          match src.readBlockTime txindex.pos with
          | none => none
          | some nBlockTime =>
            if (nBlockTime : Int) + env.nStakeMinAge > tx.nTime then some bnCentSecond
            else some (bnCentSecond + (out.nValue * ((tx.nTime - txPrev.nTime : Nat) : Int)).tdiv cent)

/-- Total coin age spent, in coin-days. -/
def getCoinAge (src : TxSource) (tx : CTransaction) : Option Nat :=
  if tx.isCoinBase then some 0
  else (tx.vin.foldlM (coinAgeInput env src tx) 0).map fun bnCentSecond =>
    (((bnCentSecond * cent).tdiv coin).tdiv (24 * 60 * 60)).natAbs % 2 ^ 64

def maxCloakProofOfStake : Int := 60000

def getProofOfWorkReward (nHeight : Nat) (nFees : Int) : Int :=
  (if nHeight ≤ 50 then 1 * coin else 496 * coin) + nFees

def getProofOfStakeReward (nCoinAge : Nat) : Int := ((nCoinAge : Int) * maxCloakProofOfStake).tdiv 365

/-! ## `ConnectInputs` -/

def immature (ancestors : List CBlockIndex) (txindex : CTxIndex) : Bool :=
  match ancestors with
  | [] => false
  | pindexBlock :: _ =>
    (ancestors.takeWhile fun p => decide ((pindexBlock.nHeight : Int) - p.nHeight < env.nCoinbaseMaturity)).any
      fun p => p.nBlockPos == txindex.pos.nBlockPos && p.nFile.val == txindex.pos.nFile

/-- The inexpensive checks of the first loop, adding up `nValueIn`. -/
def checkInput (ctx : ConnectCtx) (tx : CTransaction) (inputs : MapPrevTx) (nValueIn : Int)
    (txin : CTxIn) : Option Int :=
  match inputs[txin.prevout.hash]? with
  | none => none
  | some (txindex, txPrev) =>
    match txPrev.vout[txin.prevout.n]? with
    | none => none
    | some out =>
      if txin.prevout.n ≥ txindex.vSpent.length then none
      else if (txPrev.isCoinBase || txPrev.isCoinStake) && immature env ctx.ancestors txindex then none
      else if txPrev.nTime > tx.nTime then none
      else if !moneyRange out.nValue || !moneyRange (nValueIn + out.nValue) then none
      else some (nValueIn + out.nValue)

def spendInput (tx : CTransaction) (posThisTx : CDiskTxPos) (pending fSkipSig fStrict : Bool) :
    MapPrevTx × MapTxIndex → CTxIn × Nat → Option (MapPrevTx × MapTxIndex)
  | (inputs, mapTestPool), (txin, i) =>
    match inputs[txin.prevout.hash]? with
    | none => none
    | some (txindex, txPrev) =>
      match txindex.vSpent[txin.prevout.n]? with
      | none => none
      | some slot =>
        if !slot.isNull then none
        else if !fSkipSig && !env.verifySignature txPrev tx i fStrict then none
        else
          let txindex : CTxIndex := { txindex with vSpent := txindex.vSpent.set txin.prevout.n posThisTx }
          some (inputs.insert txin.prevout.hash (txindex, txPrev),
            if pending then mapTestPool.insert txin.prevout.hash txindex else mapTestPool)

def valuesOk (src : TxSource) (tx : CTransaction) (nValueIn : Int) : Bool :=
  match tx.getValueOut with
  | none => false
  | some nValueOut =>
    if tx.isCoinStake then
      match getCoinAge env src tx with
      | none => false
      | some nCoinAge =>
        !decide (nValueOut - nValueIn > getProofOfStakeReward nCoinAge - tx.getMinFee + minTxFee)
    else if nValueIn < nValueOut then false
    else if nValueIn - nValueOut < tx.getMinFee then false
    else moneyRange (nValueIn - nValueOut)

/-- The new pending changes, or `none` when the transaction is refused. -/
def connectInputs (ctx : ConnectCtx) (tx : CTransaction) (inputs : MapPrevTx)
    (mapTestPool : MapTxIndex) (posThisTx : CDiskTxPos) (fBlock fMiner fStrict : Bool) : Option MapTxIndex :=
  if tx.isCoinBase then some mapTestPool
  else
    match tx.vin.foldlM (checkInput env ctx tx inputs) 0 with
    | none => none
    | some nValueIn =>
      -- signatures are not checked again in a block below the last checkpoint
      let fSkipSig := fBlock && decide (ctx.nBestHeight < env.totalBlocksEstimate)
      match tx.vin.zipIdx.foldlM (spendInput env tx posThisTx (fBlock || fMiner) fSkipSig fStrict)
          (inputs, mapTestPool) with
      | none => none
      | some (_, mapTestPool) => if valuesOk env ctx.toTxSource tx nValueIn then some mapTestPool else none

/-! ### What a success says -/

variable {pool' : MapTxIndex}

section
variable {env : Env}

theorem foldlM_checkInput (vin : List CTxIn) (h : vin.foldlM (checkInput env ctx tx inputs) acc = some v) :
    vin.foldlM (fun nResult txin => (getOutputFor inputs txin).map (nResult + ·.nValue)) acc = some v := by
  induction vin generalizing acc with
  | nil => exact h
  | cons i rest ih =>
    obtain ⟨acc', hi, h⟩ := bind_eq_some_iff.mp h
    refine bind_eq_some_iff.mpr ⟨acc', ?_, ih h⟩
    unfold checkInput at hi
    split at hi
    · cases hi
    rename_i e t hin
    split at hi
    · cases hi
    · rename_i out ho
      split_ifs at hi
      simpa [getOutputFor, hin, ho] using hi

theorem spendInput_spec (h : spendInput env tx pos true skip strict (inputs, pool) i = some (inputs', pool'))
    (hf : ∀ k e t, inputs[k]? = some (e, t) → overlay pool idx k = some e) :
    SlotIndex.slot (overlay pool idx) i.1.prevout.key = some .null ∧
      overlay pool' idx = SlotIndex.setSlot (overlay pool idx) i.1.prevout.key pos ∧
      ∀ k e t, inputs'[k]? = some (e, t) → overlay pool' idx k = some e := by
  obtain ⟨txin, n⟩ := i
  simp only [spendInput] at h
  split at h
  · cases h
  rename_i e t hin
  split at h
  · cases h
  rename_i slot hsl
  split_ifs at h with hn
  have he := hf _ _ _ hin
  have hs : slot = .null := CDiskTxPos.isNull_iff.mp (by simpa using hn)
  obtain ⟨rfl, rfl⟩ := h
  have hse : overlay (pool.insert txin.prevout.hash { e with vSpent := e.vSpent.set txin.prevout.n pos }) idx =
      SlotIndex.setSlot (overlay pool idx) txin.prevout.key pos := by
    rw [overlay_insert, SlotIndex.setSlot, COutPoint.key, he]
    rfl
  refine ⟨by simp [SlotIndex.slot, COutPoint.key, he, hsl, hs], hse, ?_⟩
  intro k e' t' hk
  by_cases hh : txin.prevout.hash = k
  · subst hh
    rw [Std.ExtTreeMap.getElem?_insert_self, some.injEq, Prod.mk.injEq] at hk
    rw [overlay_insert, update_self, hk.1]
  · simp only [Std.ExtTreeMap.getElem?_insert, compare_eq_iff_eq, hh, if_false] at hk
    rw [overlay_insert, update_of_ne (Ne.symm hh)]
    exact hf k e' t' hk

theorem foldlM_spendInput (hp : pos ≠ .null) (vin : List (CTxIn × Nat))
    (h : vin.foldlM (spendInput env tx pos true skip strict) (inputs, pool) = some (inputs', pool'))
    (hf : ∀ k e t, inputs[k]? = some (e, t) → overlay pool idx k = some e) : (vin.map (·.1.prevout.key)).Nodup ∧
      (∀ o ∈ vin.map (·.1.prevout.key), SlotIndex.slot (overlay pool idx) o = some .null) ∧
      overlay pool' idx = SlotIndex.take (overlay pool idx) (vin.map (·.1.prevout.key)) pos := by
  induction vin generalizing inputs pool with
  | nil =>
    cases h
    simp
  | cons i rest ih =>
    obtain ⟨⟨inputs1, pool1⟩, hi, h⟩ := bind_eq_some_iff.mp h
    obtain ⟨hs, hse, hf1⟩ := spendInput_spec hi hf
    obtain ⟨hnd, hfr, ht⟩ := ih h hf1
    rw [hse] at hfr ht
    have hn : i.1.prevout.key ∉ rest.map (·.1.prevout.key) := by
      intro hm
      have := hfr _ hm
      rw [SlotIndex.slot_setSlot_same hs, some.injEq] at this
      exact hp this
    refine ⟨nodup_cons.mpr ⟨hn, hnd⟩, ?_, ht⟩
    intro o ho
    rcases mem_cons.mp ho with rfl | ho
    · exact hs
    · have hne : o ≠ i.1.prevout.key := fun e => hn (e ▸ ho)
      rw [← hfr o ho, SlotIndex.slot_setSlot_of_ne hne]

theorem valuesOk_spec (h : valuesOk env src tx nValueIn = true) : tx.getValueOut = some tx.valueOut ∧
      (tx.isCoinStake = true → ∃ nCoinAge, getCoinAge env src tx = some nCoinAge ∧
        tx.valueOut - nValueIn ≤ getProofOfStakeReward nCoinAge) ∧
      (tx.isCoinStake = false → tx.valueOut + minTxFee ≤ nValueIn) := by
  unfold valuesOk at h
  split at h
  · cases h
  rename_i v hv
  obtain rfl := (CTransaction.getValueOut_eq_some hv).1
  refine ⟨hv, ?_, ?_⟩
  · intro hs
    simp only [hs, if_true] at h
    split at h
    · cases h
    · rename_i age ha
      refine ⟨age, ha, ?_⟩
      simpa using h
  · intro hs
    simp only [hs, false_eq_true, if_false, CTransaction.getMinFee_default] at h
    split_ifs at h with h1 h2
    omega

theorem connectInputs_spec (hp : pos ≠ .null) (hcb : tx.isCoinBase = false) (hf : Fetched ctx.toTxSource pool inputs)
    (h : connectInputs env ctx tx inputs pool pos true fMiner strict = some pool') : tx.outpoints.Nodup ∧
      (∀ o ∈ tx.outpoints, SlotIndex.slot (overlay pool ctx.readTxIndex) o = some .null) ∧
      overlay pool' ctx.readTxIndex = SlotIndex.take (overlay pool ctx.readTxIndex) tx.outpoints pos ∧
      ∃ nValueIn, tx.getValueIn inputs = some nValueIn ∧ valuesOk env ctx.toTxSource tx nValueIn = true := by
  simp only [connectInputs, hcb, Bool.false_eq_true, if_false, Bool.true_or] at h
  split at h
  · cases h
  rename_i nValueIn hc
  split at h
  · cases h
  rename_i inputs' pool1 hs
  split_ifs at h with hv
  cases h
  have hm : tx.vin.zipIdx.map (·.1.prevout.key) = tx.outpoints := by
    rw [CTransaction.outpoints, hcb, if_neg (by simp),
      show (fun x : CTxIn × Nat => x.1.prevout.key) = (fun i : CTxIn => i.prevout.key) ∘ Prod.fst from rfl,
      ← List.map_map, List.zipIdx_map_fst]
  obtain ⟨hnd, hfr, ht⟩ := foldlM_spendInput hp _ hs fun k e t hk => (hf k e t hk).1
  rw [hm] at hnd hfr ht
  refine ⟨hnd, hfr, ht, nValueIn, ?_, hv⟩
  rw [CTransaction.getValueIn, hcb, if_neg (by simp)]
  exact foldlM_checkInput _ hc

end
end CloakCoin.Chain
