import CloakCoin.Chain.Fee
import CloakCoin.Chain.Sample
import CloakCoin.Enigma.Types
import CloakCoin.Wallet.Coins
import CloakCoin.Wallet.Sign

/-!
# Sending coins

`CreateTransaction` with its loop over the fee, the narration it adds for `SendMoneyToDestination`, and the
stealth send, which adds the ephemeral key and an encrypted narration. A transaction is relayable if it
passes `CheckTransaction` and `IsStandard`.

What the loop returns spends chosen coins and pays the outputs it was given and the change (`Chosen.made`). Whether it
is relayable then depends on the outputs given (`relayable_iff`): a narration is written either with amount 0 or behind
a second `OP_RETURN`.

The loop is written over the arithmetic of its amounts. The program's is `Arith.word`; it makes the same amounts as the
unbounded one as long as `Computes` holds, which is what payments, fee and funds in range give (`Modest.computes`).
-/

namespace CloakCoin.Wallet

open Chain Lib Enigma List
open Std (ExtTreeMap)

variable {dest : CTxDestination} {vout : List CTxOut} {acc nValue nFeeRet nChange : Int} {txData data : Bytes}
  {vecSend : List (CScript × Int)} {setCoins : List COutput}

/-! ## Scripts -/

/-- `CBitcoinAddress::IsValid`: the hash of a key or of a script. -/
def isValidAddress : CTxDestination → Prop
  | .keyID id | .scriptID id => id.length = 20

def setDestination : CTxDestination → CScript
  | .keyID id => scriptForKeyID id
  | .scriptID id => [0xa9, UInt8.ofNat id.length] ++ id ++ [0x87]

/-- `CScript() << OP_RETURN << "np" << OP_RETURN << vNarr` -/
def narrationScript (vNarr : Bytes) : CScript :=
  opcodeReturn :: (pushData [0x6e, 0x70] ++ opcodeReturn :: pushData vNarr)

def stealthScript (P narr : Bytes) : CScript :=
  opcodeReturn :: (pushData P ++ if narr.length > 0 then opcodeReturn :: pushData narr else [])

theorem solver_setDestination (h : isValidAddress dest) :
    ∃ type id, solver (setDestination dest) = some (type, [id]) ∧ (type = .pubkeyhash ∨ type = .scripthash) := by
  have hp {id : Bytes} (hid : id.length = 20) : pushData id = UInt8.ofNat id.length :: id := by
    rw [pushData, if_pos (by omega)]
  cases dest with
  | keyID id =>
    have hid : id.length = 20 := h
    have hs : setDestination (.keyID id) = [0x76, 0xa9] ++ pushData id ++ [0x88, 0xac] := by
      simp [setDestination, scriptForKeyID, hp hid]
    exact ⟨_, id, by rw [hs]; exact solver_keyID hid, .inl rfl⟩
  | scriptID id =>
    have hid : id.length = 20 := h
    have hs : setDestination (.scriptID id) = [0xa9] ++ pushData id ++ [0x87] := by
      simp [setDestination, hp hid]
    exact ⟨_, id, by rw [hs]; exact solver_scriptID hid, .inr rfl⟩

/-! ## `CreateTransaction` -/

def maxTxDataSize : Nat := maxBlockSize / 8

def vchFromString (txData : Bytes) : Bytes := txData.takeWhile (· ≠ 0)

def COutput.scriptPubKey (c : COutput) : CScript := ((c.tx.tx.vout[c.i]?).map CTxOut.scriptPubKey).getD []

/-- A wallet that sends, and what it finds outside: the clock, the random source, a key for the change. -/
structure Sender where
  env : Env
  ks : Signer
  wallet : CWallet
  view : ChainView
  nTime : Nat
  nTransactionFee : Int
  balance : Int
  changeKey : CKeyID
  /-- The shuffle and the draws of each choice of coins. -/
  shuffle : Nat → Shuffle
  draws : Nat → Draws

section
variable (A : Arith)

/-- The sum of the amounts; it must not become negative on the way. -/
def sumSend : Int → List (CScript × Int) → Option Int
  | nValue, [] => if nValue < 0 then none else some nValue
  | nValue, s :: vecSend => if nValue < 0 then none else sumSend (A.store (nValue + s.2)) vecSend

def payees (bAnonymize : Bool) (data : Bytes) (vecSend : List (CScript × Int)) : List CTxOut :=
  if bAnonymize then []
  else vecSend.filterMap fun s => if 0 = s.2 ∧ data.length > 0 then none else some ⟨s.2, s.1⟩

def settleChange (nFeeRet nChange : Int) : Int × Int :=
  let nMoveToFee := if nFeeRet < minTxFee ∧ nChange > 0 ∧ nChange < cent then
    min nChange (A.store (minTxFee - nFeeRet)) else 0
  let nChange := A.store (nChange - nMoveToFee)
  let nFeeRet := A.store (nFeeRet + nMoveToFee)
  -- ppcoin: sub-cent change is moved to fee
  if nChange > 0 ∧ nChange < minTxoutAmount then (A.store (nFeeRet + nChange), 0) else (nFeeRet, nChange)

end

namespace Sender

variable (s : Sender)

def changeOutputs (nChange : Int) : List CTxOut :=
  if nChange > 0 then [⟨nChange, setDestination (.keyID s.changeKey)⟩] else []

def signInputs : List COutput → Nat → CTransaction → Option CTransaction
  | [], _, tx => some tx
  | coin :: setCoins, nIn, tx =>
    match s.ks.signSignature coin.scriptPubKey tx nIn sighashAll with
    | none => none
    | some scriptSig =>
      signInputs setCoins (nIn + 1)
        { tx with vin := tx.vin.modify nIn fun txin => { txin with scriptSig := scriptSig } }

def unsignedTx (vout : List CTxOut) (data : Bytes) (setCoins : List COutput) (nChange : Int) : CTransaction :=
  { nTime := s.nTime
    vin := setCoins.map fun coin => { prevout := coin.outPoint }
    vout := vout ++ s.changeOutputs nChange
    data := data }

section
variable (A : Arith)

/-- The fee for this many bytes: our own rate or the least that is relayed. -/
def requiredFee (tx : CTransaction) : Int :=
  max (A.store (s.nTransactionFee * (1 + (tx.serializeSize : Int) / 1000))) (tx.getMinFee 1 .send tx.serializeSize)

def createTurn (vout : List CTxOut) (data : Bytes) (nValue : Int) (k : Nat) (nFeeRet : Int) :
    Option (CTransaction × Int) ⊕ Int :=
  let vCoins := (s.shuffle k).apply (s.wallet.availableCoins s.view true)
  let nTotalValue := A.store (nValue + nFeeRet)
  match s.wallet.selectCoins A nTotalValue s.nTime vCoins (s.draws k) with
  | none => .inl none
  | some (setCoins, nValueIn) =>
    let (nFeeRet, nChange) := settleChange A nFeeRet (A.store (nValueIn - nTotalValue))
    match s.signInputs setCoins 0 (s.unsignedTx vout data setCoins nChange) with
    | none => .inl none
    | some tx =>
      -- Limit size
      if tx.serializeSize ≥ maxBlockSizeGen / 5 then .inl none
      else if nFeeRet < s.requiredFee A tx then .inr (s.requiredFee A tx)
      else .inl (some (tx, nFeeRet))

/-- The loop; `none` if it is not left within `fuel` turns. -/
def createLoop (vout : List CTxOut) (data : Bytes) (nValue : Int) :
    Nat → Nat → Int → Option (Option (CTransaction × Int))
  | 0, _, _ => none
  | fuel + 1, k, nFeeRet =>
    match s.createTurn A vout data nValue k nFeeRet with
    | .inl r => some r
    | .inr nFeeRet => createLoop vout data nValue fuel (k + 1) nFeeRet

def createTransactionFee (vecSend : List (CScript × Int)) (bAnonymize : Bool) (txData : Bytes) :
    Option (CTransaction × Int) :=
  match sumSend A 0 vecSend with
  | none => none
  | some nValue =>
    if vecSend.isEmpty then none
    else if txData.length > maxTxDataSize then none
    else
      let data := vchFromString txData
      (s.createLoop A (payees bAnonymize data vecSend) data nValue 101 0 s.nTransactionFee).join

end

/-- What is paid and held is taken to be in range here, where the two arithmetics agree. -/
def createTransaction (vecSend : List (CScript × Int)) (bAnonymize : Bool) (txData : Bytes) : Option CTransaction :=
  (s.createTransactionFee .exact vecSend bAnonymize txData).map Prod.fst

def createTransactionTo (scriptPubKey : CScript) (nValue : Int) (sNarr : Bytes) (bAnonymize : Bool) (txData : Bytes) :
    Option CTransaction :=
  s.createTransaction
    ((scriptPubKey, nValue) :: if sNarr.length > 0 then [(narrationScript sNarr, 0)] else []) bAnonymize txData

def sendMoneyToDestination (address : CTxDestination) (nValue : Int) (sNarr : Bytes) (bAnonymize : Bool)
    (txData : Bytes) : Option CTransaction :=
  if nValue ≤ 0 then none
  else if nValue + s.nTransactionFee > s.balance then none
  else if sNarr.length > 24 then none
  else s.createTransactionTo (setDestination address) nValue sNarr bAnonymize txData

end Sender

/-- What the sender of a stealth payment derives for it: the payee's one-time key, the ephemeral key and the
shared secret, with the cipher and the shuffle of the outputs. -/
structure StealthSend where
  aes : Cipher
  keyTo : CKeyID
  ephemPubkey : Bytes
  secretShared : Bytes
  shuffle : Shuffle
  length_keyTo : keyTo.length = 20
  length_ephemPubkey : ephemPubkey.length = 33

namespace Sender

variable (s : Sender)

def createStealthTransaction (p : StealthSend) (nValue : Int) (narr : Bytes) : Option CTransaction :=
  s.createTransaction
    (p.shuffle.apply [(setDestination (.keyID p.keyTo), nValue), (stealthScript p.ephemPubkey narr, minTxoutAmount)])
    false []

def sendStealthMoneyToDestination (p : StealthSend) (nValue : Int) (sNarr : Bytes) : Option CTransaction :=
  if nValue ≤ 0 then none
  else if nValue + s.nTransactionFee > s.balance then none
  else
    let vchNarr := if sNarr.length > 0 then p.aes.encrypt p.secretShared p.ephemPubkey sNarr else []
    if vchNarr.length > 48 then none else s.createStealthTransaction p nValue vchNarr

end Sender

/-! ## What the loop returns -/

theorem minTxoutAmount_pos : 0 < minTxoutAmount := by decide

theorem settleChange_spec (nFeeRet : Int) (h : 0 ≤ nChange) :
    nFeeRet ≤ (settleChange .exact nFeeRet nChange).1 ∧ 0 ≤ (settleChange .exact nFeeRet nChange).2 ∧
      (settleChange .exact nFeeRet nChange).1 + (settleChange .exact nFeeRet nChange).2 = nFeeRet + nChange ∧
      (0 < (settleChange .exact nFeeRet nChange).2 → minTxoutAmount ≤ (settleChange .exact nFeeRet nChange).2) := by
  unfold settleChange minTxoutAmount minTxFee cent
  dsimp only [Arith.exact, id]
  split_ifs <;> refine ⟨?_, ?_, ?_, ?_⟩ <;> dsimp only <;> omega

def StandardIn (txin : CTxIn) : Prop := txin.scriptSig.length ≤ 1024 ∧ isPushOnly txin.scriptSig = true

/-- What is assumed of the wallet that sends. -/
structure Sender.Sound (s : Sender) : Prop where
  solver_eq : s.env.solver = solver
  fee : 0 ≤ s.nTransactionFee
  changeKey : s.changeKey.length = 20
  /-- The coins together are an amount. -/
  funds : ((s.wallet.availableCoins s.view true).map COutput.nValue).sum ≤ maxMoney
  /-- The signature scripts for our outputs are within the limit. -/
  signable : ∀ script ∈ s.wallet.keys, s.ks.scriptSigBound script ≤ 1024
  /-- Output indices are below the null index. -/
  indices : ∀ (hash : Hash256) (wtx : CWalletTx), s.wallet.mapWallet[hash]? = some wtx → wtx.tx.vout.length ≤ uintMax

namespace Sender

variable {s : Sender} {tx : CTransaction}

theorem sum_changeOutputs (s : Sender) (h : 0 ≤ nChange) :
    ((s.changeOutputs nChange).map CTxOut.nValue).sum = nChange := by
  rw [changeOutputs]
  split
  · simp
  · simp
    omega

theorem signInputs_forall (P : CScript → Prop)
    (hsi : ∀ coin ∈ setCoins, ∀ txTo i sig, s.ks.signSignature coin.scriptPubKey txTo i sighashAll = some sig → P sig)
    (hin : ∀ txin ∈ tx.vin, P txin.scriptSig) (h : s.signInputs setCoins nIn tx = some tx') :
    tx' = { tx with vin := tx'.vin } ∧ tx'.vin.map CTxIn.prevout = tx.vin.map CTxIn.prevout ∧
      ∀ txin ∈ tx'.vin, P txin.scriptSig := by
  induction setCoins generalizing nIn tx with
  | nil =>
    obtain rfl : tx = tx' := Option.some.inj h
    exact ⟨rfl, rfl, hin⟩
  | cons coin setCoins ih =>
    rw [forall_mem_cons] at hsi
    rw [signInputs] at h
    split at h
    · cases h
    rename_i scriptSig hs
    have hp : (tx.vin.modify nIn fun txin => { txin with scriptSig := scriptSig }).map CTxIn.prevout =
        tx.vin.map CTxIn.prevout := by
      apply ext_getElem?
      intro j
      rw [getElem?_map, getElem?_map, getElem?_modify]
      cases tx.vin[j]? with
      | none => rfl
      | some txin => split <;> rfl
    have hg : ∀ txin ∈ tx.vin.modify nIn fun txin => { txin with scriptSig := scriptSig }, P txin.scriptSig := by
      intro txin ht
      obtain ⟨j, hj⟩ := mem_iff_getElem?.mp ht
      rw [getElem?_modify] at hj
      obtain ⟨old, hold, rfl⟩ := Option.map_eq_some_iff.mp hj
      split
      · exact hsi.1 tx nIn scriptSig hs
      · exact hin old (mem_of_getElem? hold)
    obtain ⟨hsa, hp', hg'⟩ := ih hsi.2 hg h
    exact ⟨hsa, hp'.trans hp, hg'⟩

theorem signInputs_spec (hs : s.Sound) (hc : ∀ coin ∈ setCoins, coin.scriptPubKey ∈ s.wallet.keys)
    (hin : ∀ txin ∈ tx.vin, StandardIn txin) (h : s.signInputs setCoins nIn tx = some tx') :
    tx' = { tx with vin := tx'.vin } ∧ tx'.vin.map CTxIn.prevout = tx.vin.map CTxIn.prevout ∧
      ∀ txin ∈ tx'.vin, StandardIn txin := by
  refine signInputs_forall (fun sig => sig.length ≤ 1024 ∧ isPushOnly sig = true) ?_ hin h
  intro coin hco txTo i sig hsi
  exact Signer.signSignature_standard hsi (hs.signable _ (hc coin hco))

structure Made (s : Sender) (vout : List CTxOut) (nValue : Int) (tx : CTransaction) (setCoins : List COutput)
    (nChange : Int) : Prop where
  nVersion : tx.nVersion = 1
  size : tx.serializeSize < maxBlockSizeGen / 5
  vout_eq : tx.vout = vout ++ s.changeOutputs nChange
  prevouts : tx.vin.map CTxIn.prevout = setCoins.map COutput.outPoint
  signed : ∀ txin ∈ tx.vin, StandardIn txin
  coins : setCoins.Subperm (s.wallet.availableCoins s.view true)
  covered : nValue + nChange ≤ (setCoins.map COutput.nValue).sum
  change_nonneg : 0 ≤ nChange
  change_min : 0 < nChange → minTxoutAmount ≤ nChange

theorem scriptPubKey_mem_keys (h : c ∈ s.wallet.availableCoins s.view true) : c.scriptPubKey ∈ s.wallet.keys := by
  have ha := (CWallet.mem_availableCoins h).2
  unfold CWallet.isAvailable at ha
  cases ho : c.tx.tx.vout[c.i]? with
  | none =>
    rw [ho] at ha
    cases ha
  | some txout =>
    rw [ho] at ha
    simp only [Bool.and_eq_true] at ha
    have hm : s.wallet.keys.contains txout.scriptPubKey = true := ha.1.2
    rw [COutput.scriptPubKey, ho]
    simpa using hm

theorem requiredFee_nonneg (hs : s.Sound) (tx : CTransaction) : 0 ≤ s.requiredFee .exact tx :=
  le_max_of_le_left (mul_nonneg hs.fee (by positivity))

structure Chosen (s : Sender) (vout : List CTxOut) (data : Bytes) (nValue : Int) (tx : CTransaction) (nFeeRet : Int)
    (setCoins : List COutput) (nChange : Int) : Prop where
  signed : s.signInputs setCoins 0 (s.unsignedTx vout data setCoins nChange) = some tx
  size : tx.serializeSize < maxBlockSizeGen / 5
  coins : setCoins.Subperm (s.wallet.availableCoins s.view true)
  balance : (setCoins.map COutput.nValue).sum = nValue + nFeeRet + nChange
  fee : s.requiredFee .exact tx ≤ nFeeRet
  change_nonneg : 0 ≤ nChange
  change_min : 0 < nChange → minTxoutAmount ≤ nChange

/-- The arithmetic keeps the amounts of a turn that starts with the given fee. -/
structure Computes (A : Arith) (s : Sender) (nValue nFeeRet : Int) : Prop where
  target : A.store (nValue + nFeeRet) = nValue + nFeeRet
  coins : Keeps A (nValue + nFeeRet) (s.wallet.availableCoins s.view true)
  change : ∀ c, 0 ≤ c → nValue + nFeeRet + c ≤ ((s.wallet.availableCoins s.view true).map COutput.nValue).sum →
    A.store c = c ∧ settleChange A nFeeRet c = settleChange .exact nFeeRet c
  fee : ∀ tx : CTransaction, tx.serializeSize < maxBlockSizeGen / 5 → s.requiredFee A tx = s.requiredFee .exact tx

theorem computes_exact (s : Sender) (nValue nFeeRet : Int) : Computes .exact s nValue nFeeRet :=
  ⟨rfl, keeps_exact _ _, fun _ _ _ => ⟨rfl, rfl⟩, fun _ _ => rfl⟩

/-- The fees a turn may start with. -/
def Owed (s : Sender) (nFeeRet : Int) : Prop :=
  nFeeRet = s.nTransactionFee ∨
    ∃ tx : CTransaction, tx.serializeSize < maxBlockSizeGen / 5 ∧ nFeeRet = s.requiredFee .exact tx

theorem createTurn_cases (s : Sender) (vout : List CTxOut) (data : Bytes) (k : Nat) (hA : Computes A s nValue nFeeRet) :
    s.createTurn A vout data nValue k nFeeRet = .inl none ∨
    (∃ tx nFeeRet' setCoins nChange, s.createTurn A vout data nValue k nFeeRet = .inl (some (tx, nFeeRet')) ∧
      Chosen s vout data nValue tx nFeeRet' setCoins nChange) ∨
    ∃ tx : CTransaction, s.createTurn A vout data nValue k nFeeRet = .inr (s.requiredFee .exact tx) ∧
      tx.serializeSize < maxBlockSizeGen / 5 ∧ nFeeRet < s.requiredFee .exact tx := by
  rw [createTurn, hA.target]
  dsimp only
  split
  · exact .inl rfl
  rename_i setCoins nValueIn hs
  obtain ⟨hsu, hv, hr⟩ := CWallet.selectCoins_reaches hs
  have hsu := hsu.trans ((s.shuffle k).perm _).subperm
  have hr := hr (hA.coins.subperm ((s.shuffle k).perm _).subperm)
  rw [hA.coins.sums _ hsu] at hv
  have hle := CWallet.sum_le_available hsu
  obtain ⟨hst, hse⟩ := hA.change (nValueIn - (nValue + nFeeRet)) (by omega) (by omega)
  rw [hst, hse]
  obtain ⟨hra, hn, hsum, hm⟩ := settleChange_spec nFeeRet (show 0 ≤ nValueIn - (nValue + nFeeRet) by omega)
  split
  · exact .inl rfl
  rename_i tx hsi
  split
  · exact .inl rfl
  rename_i hsz
  rw [hA.fee tx (not_le.mp hsz)]
  split
  · rename_i hlt
    exact .inr (.inr ⟨tx, rfl, not_le.mp hsz, hra.trans_lt hlt⟩)
  · rename_i hle'
    exact .inr (.inl ⟨tx, _, setCoins, _, rfl, hsi, not_le.mp hsz,
      hsu, by linarith only [hv, hsum], not_lt.mp hle', hn, hm⟩)

theorem createLoop_chosen (hA : ∀ nFeeRet, Owed s nFeeRet → Computes A s nValue nFeeRet) (ho : Owed s nFeeRet)
    (h : s.createLoop A vout data nValue fuel k nFeeRet = some (some (tx, nFeeRet'))) :
    ∃ setCoins nChange, Chosen s vout data nValue tx nFeeRet' setCoins nChange := by
  induction fuel generalizing k nFeeRet with
  | zero => cases h
  | succ fuel ih =>
    rw [createLoop] at h
    obtain ht | ⟨tx', fee', setCoins, nChange, ht, hc⟩ | ⟨tx', ht, hsi, -⟩ :=
      s.createTurn_cases vout data k (hA _ ho)
    · rw [ht] at h
      cases h
    · rw [ht] at h
      cases h
      exact ⟨setCoins, nChange, hc⟩
    · rw [ht] at h
      exact ih (.inr ⟨tx', hsi, rfl⟩) h

theorem Chosen.tx_eq (h : Chosen s vout data nValue tx nFeeRet setCoins nChange) :
    tx = { s.unsignedTx vout data setCoins nChange with vin := tx.vin } ∧
      tx.vin.map CTxIn.prevout = setCoins.map COutput.outPoint := by
  obtain ⟨hs, hp, -⟩ := signInputs_forall (fun _ => True) (fun _ _ _ _ _ _ => trivial) (fun _ _ => trivial) h.signed
  exact ⟨hs, hp.trans map_map⟩

theorem Chosen.made (hs : s.Sound)
    (h : Chosen s vout data nValue tx nFeeRet setCoins nChange) : Made s vout nValue tx setCoins nChange := by
  obtain ⟨hsa, hp⟩ := h.tx_eq
  have hf := (requiredFee_nonneg hs tx).trans h.fee
  have hb := h.balance
  obtain ⟨-, -, hst⟩ := signInputs_spec hs (fun c hc => scriptPubKey_mem_keys (h.coins.subset hc))
    (by
      intro txin ht
      obtain ⟨coin, -, rfl⟩ := mem_map.mp ht
      exact ⟨Nat.zero_le _, rfl⟩) h.signed
  exact ⟨by rw [hsa]; rfl, h.size, by rw [hsa]; rfl, hp, hst, h.coins, by omega, h.change_nonneg, h.change_min⟩

/-! ### The loop ends -/

theorem requiredFee_eq (s : Sender) (hsi : tx.serializeSize < maxBlockSizeGen / 5) :
    s.requiredFee .exact tx = (1 + (tx.serializeSize : Int) / 1000) * max s.nTransactionFee minTxFee := by
  have hl : maxBlockSizeGen / 5 = 100000 := by decide
  have hb : tx.getMinFee 1 .send tx.serializeSize = (1 + (tx.serializeSize : Int) / 1000) * minTxFee :=
    tx.getMinFee_send (by unfold uintMax; omega)
  have hs : (0 : Int) ≤ 1 + (tx.serializeSize : Int) / 1000 := by omega
  rw [requiredFee, hb, mul_comm s.nTransactionFee, mul_max_of_nonneg _ _ hs]
  rfl

theorem createLoop_ends (s : Sender) (vout : List CTxOut) (data : Bytes) (nValue : Int) {k j : Nat}
    (hA : ∀ nFeeRet, Owed s nFeeRet → Computes A s nValue nFeeRet) (ho : Owed s nFeeRet) (hj : j ≤ 100)
      (hfe : j = 0 ∨ j * max s.nTransactionFee minTxFee ≤ nFeeRet) (hf : 101 - j ≤ fuel) :
    ∃ r, s.createLoop A vout data nValue fuel k nFeeRet = some r := by
  have hr : 0 < max s.nTransactionFee minTxFee := lt_max_of_lt_right (by decide)
  induction fuel generalizing k j nFeeRet with
  | zero => omega
  | succ fuel ih =>
    rw [createLoop]
    obtain ht | ⟨tx, fee, _, _, ht, -⟩ | ⟨tx, ht, hsi, hm⟩ := s.createTurn_cases vout data k (hA _ ho)
    · exact ⟨none, by rw [ht]⟩
    · exact ⟨some (tx, fee), by rw [ht]⟩
    have hs := requiredFee_eq s hsi
    have hl : maxBlockSizeGen / 5 = 100000 := by decide
    have hlt : (j : Int) < 1 + (tx.serializeSize : Int) / 1000 := by
      obtain rfl | hfe := hfe
      · omega
      · exact lt_of_mul_lt_mul_right (hfe.trans_lt (hm.trans_eq hs)) hr.le
    rw [ht]
    refine ih (j := 1 + tx.serializeSize / 1000) (.inr ⟨tx, hsi, rfl⟩) (by omega) (.inr ?_) (by omega)
    rw [hs]
    exact le_rfl

end Sender

/-! ## Relayable transactions -/

/-- `AcceptToMemoryPool` takes the form of the transaction. -/
def Relayable (env : Env) (tx : CTransaction) : Prop := tx.checkTransaction = true ∧ tx.isStandard env = true

theorem outputsOk_iff_of_amounts (h : ∀ o ∈ vout, minTxoutAmount ≤ o.nValue) (ha : 0 ≤ acc) (hm : acc ≤ maxMoney) :
    CTransaction.outputsOk special acc vout = true ↔ acc + (vout.map CTxOut.nValue).sum ≤ maxMoney := by
  have hmi := minTxoutAmount_pos
  induction vout generalizing acc with
  | nil => simpa [CTransaction.outputsOk] using hm
  | cons o vout ih =>
    rw [forall_mem_cons] at h
    rw [map_cons, sum_cons]
    have hre : 0 ≤ (vout.map CTxOut.nValue).sum := by
      apply sum_nonneg
      intro x hx
      obtain ⟨o', ho', rfl⟩ := mem_map.mp hx
      have := h.2 o' ho'
      omega
    have he : o.isEmpty = false := by
      rw [CTxOut.isEmpty, Bool.and_eq_false_iff, beq_eq_false_iff_ne]
      exact .inl (by omega)
    rw [CTransaction.outputsOk, he]
    simp only [Bool.false_and, Bool.false_eq_true, if_false, Bool.not_false, Bool.true_and, decide_eq_true_eq]
    rw [if_neg (by omega)]
    by_cases hle : acc + o.nValue ≤ maxMoney
    · have hn : 0 ≤ acc + o.nValue := by omega
      rw [if_neg (by omega), moneyRange_iff.mpr ⟨hn, hle⟩, Bool.not_true, if_neg Bool.false_ne_true, ← add_assoc]
      exact ih h.2 hn hle
    have hr : moneyRange (acc + o.nValue) = false := by
      rw [← Bool.not_eq_true, moneyRange_iff]
      omega
    rw [hr, Bool.not_false, if_pos rfl, ite_self]
    constructor
    · intro h
      cases h
    · omega

theorem amount_of_outputsOk (h : CTransaction.outputsOk special acc vout = true)
    (ho : o ∈ vout) (he : o.isEmpty = false) : minTxoutAmount ≤ o.nValue := by
  induction vout generalizing acc with
  | nil => cases ho
  | cons o' vout ih =>
    rw [CTransaction.outputsOk] at h
    split_ifs at h with h1 h2 h3 h4
    rcases mem_cons.mp ho with rfl | ho
    · simpa [he] using h2
    · exact ih h ho

namespace Sender

variable {s : Sender}

theorem isStandardScript_setDestination (hs : s.Sound) (h : isValidAddress dest) :
    isStandardScript s.env (setDestination dest) = true := by
  obtain ⟨type, id, hso, rfl | rfl⟩ := solver_setDestination h
  all_goals
    rw [isStandardScript, hs.solver_eq, hso]
    rfl

variable {vout : List CTxOut} {nValue nChange : Int} {tx : CTransaction} {setCoins : List COutput}

theorem Made.prevout_not_null (hs : s.Sound) (hm : Made s vout nValue tx setCoins nChange)
    (h : txin ∈ tx.vin) : txin.prevout.isNull = false := by
  have hme : txin.prevout ∈ setCoins.map COutput.outPoint := hm.prevouts ▸ mem_map_of_mem h
  obtain ⟨c, hc, hp⟩ := mem_map.mp hme
  rw [← hp]
  exact CWallet.outPoint_not_null hs.indices (hm.coins.subset hc)

theorem Made.vin_ne_nil (hm : Made s vout nValue tx setCoins nChange) (hp : 0 < nValue) : tx.vin ≠ [] := by
  intro hni
  have hc : setCoins = [] := by
    have h := hm.prevouts
    rw [hni] at h
    exact map_eq_nil_iff.mp h.symm
  have hco := hm.covered
  have hn := hm.change_nonneg
  rw [hc] at hco
  simp only [map_nil, sum_nil] at hco
  omega

theorem Made.relayable_iff (hs : s.Sound) (hm : Made s vout nValue tx setCoins nChange)
    (hsu : (vout.map CTxOut.nValue).sum = nValue) (hp : 0 < nValue) :
    Relayable s.env tx ↔ ∀ o ∈ vout, minTxoutAmount ≤ o.nValue ∧ isStandardScript s.env o.scriptPubKey = true := by
  have hmi := minTxoutAmount_pos
  constructor
  · rintro ⟨hc, hst⟩ o ho
    have hme : o ∈ tx.vout := by
      rw [hm.vout_eq]
      exact mem_append_left _ ho
    simp only [CTransaction.isStandard, Bool.and_eq_true, all_eq_true, decide_eq_true_eq] at hst
    obtain ⟨hsc, hva⟩ := hst.2 o hme
    have he : o.isEmpty = false := by
      rw [CTxOut.isEmpty, beq_eq_false_iff_ne.mpr hva, Bool.false_and]
    simp only [CTransaction.checkTransaction, Bool.and_eq_true] at hc
    exact ⟨amount_of_outputsOk hc.1.1.2 hme he, hsc⟩
  · intro hou
    have hch : ∀ o ∈ s.changeOutputs nChange,
        minTxoutAmount ≤ o.nValue ∧ isStandardScript s.env o.scriptPubKey = true := by
      intro o ho
      rw [changeOutputs] at ho
      split at ho
      · rename_i hlt
        obtain rfl := mem_singleton.mp ho
        have ha : isValidAddress (.keyID s.changeKey) := hs.changeKey
        exact ⟨hm.change_min hlt, isStandardScript_setDestination hs ha⟩
      · cases ho
    have hal : ∀ o ∈ tx.vout, minTxoutAmount ≤ o.nValue ∧ isStandardScript s.env o.scriptPubKey = true := by
      intro o ho
      rw [hm.vout_eq] at ho
      rcases mem_append.mp ho with ho | ho
      · exact hou o ho
      · exact hch o ho
    have ht : (tx.vout.map CTxOut.nValue).sum ≤ maxMoney := by
      rw [hm.vout_eq, map_append, sum_append, hsu, s.sum_changeOutputs hm.change_nonneg]
      exact (hm.covered.trans (CWallet.sum_le_available hm.coins)).trans hs.funds
    have hvo : tx.vout ≠ [] := by
      intro hni
      have hv : vout = [] := (append_eq_nil_iff.mp (hm.vout_eq ▸ hni)).1
      rw [hv] at hsu
      simp only [map_nil, sum_nil] at hsu
      omega
    have hnu : ∀ txin ∈ tx.vin, txin.prevout.isNull = false := fun txin h => hm.prevout_not_null hs h
    have hsi : tx.serializeSize ≤ maxBlockSize := hm.size.le.trans (by decide)
    have hn : (tx.vin.map CTxIn.prevout).Nodup := by
      rw [hm.prevouts]
      exact CWallet.nodup_of_subperm_available hm.coins
    constructor
    · rw [CTransaction.checkTransaction_iff_outputsOk (hm.vin_ne_nil hp) hvo hsi hn hnu]
      rw [outputsOk_iff_of_amounts (fun o ho => (hal o ho).1) le_rfl (by decide), zero_add]
      exact ht
    · simp only [CTransaction.isStandard, Bool.and_eq_true, all_eq_true, decide_eq_true_eq]
      refine ⟨⟨hm.nVersion.le, hm.signed⟩, fun o ho => ⟨(hal o ho).2, ?_⟩⟩
      have := (hal o ho).1
      omega

/-! ### The three ways to send -/

theorem sumSend_eq (h : sumSend .exact acc vecSend = some v) : v = acc + (vecSend.map Prod.snd).sum := by
  induction vecSend generalizing acc with
  | nil =>
    rw [sumSend] at h
    split at h
    · cases h
    · simpa using (Option.some.inj h).symm
  | cons p vecSend ih =>
    rw [sumSend] at h
    split at h
    · cases h
    · rw [ih h, map_cons, sum_cons, ← add_assoc]
      rfl

theorem mem_payees :
    o ∈ payees false data vecSend ↔ (o.scriptPubKey, o.nValue) ∈ vecSend ∧ ¬(0 = o.nValue ∧ data.length > 0) := by
  rw [payees, if_neg Bool.false_ne_true, mem_filterMap]
  constructor
  · rintro ⟨p, hp, h⟩
    split at h
    · cases h
    · cases h
      exact ⟨hp, ‹_›⟩
  · rintro ⟨hm, hz⟩
    exact ⟨_, hm, if_neg hz⟩

theorem sum_payees (data : Bytes) (vecSend : List (CScript × Int)) :
    ((payees false data vecSend).map CTxOut.nValue).sum = (vecSend.map Prod.snd).sum := by
  rw [payees, if_neg Bool.false_ne_true]
  induction vecSend with
  | nil => rfl
  | cons p vecSend ih =>
    rw [filterMap_cons, map_cons, sum_cons, ← ih]
    split
    · rename_i h
      split at h
      · omega
      · cases h
    · rename_i h
      split at h
      · cases h
      · cases h
        rfl

theorem createTransactionFee_chosen
    (hA : ∀ nFeeRet, Owed s nFeeRet → Computes A s (vecSend.map Prod.snd).sum nFeeRet)
    (hsum : sumSend A 0 vecSend = sumSend .exact 0 vecSend)
    (h : s.createTransactionFee A vecSend bAnonymize txData = some (tx, nFeeRet)) :
    ∃ setCoins nChange, Chosen s (payees bAnonymize (vchFromString txData) vecSend) (vchFromString txData)
      (vecSend.map Prod.snd).sum tx nFeeRet setCoins nChange := by
  rw [createTransactionFee, hsum] at h
  split at h
  · cases h
  rename_i v hv
  obtain rfl : v = (vecSend.map Prod.snd).sum := by simpa using sumSend_eq hv
  split at h
  · cases h
  split at h
  · cases h
  exact createLoop_chosen hA (.inl rfl) (Option.join_eq_some_iff.mp h)

theorem createTransaction_relayable_iff (hs : s.Sound) (hp : 0 < (vecSend.map Prod.snd).sum)
    (h : s.createTransaction vecSend false txData = some tx) :
    Relayable s.env tx ↔ ∀ o ∈ payees false (vchFromString txData) vecSend,
      minTxoutAmount ≤ o.nValue ∧ isStandardScript s.env o.scriptPubKey = true := by
  obtain ⟨⟨tx, nFeeRet⟩, hf, rfl⟩ := Option.map_eq_some_iff.mp h
  obtain ⟨setCoins, nChange, hc⟩ := createTransactionFee_chosen (fun f _ => computes_exact s _ f) rfl hf
  exact (hc.made hs).relayable_iff hs (sum_payees _ _) hp

/-- Payments, fee and funds are amounts that a 64-bit sum of them holds. -/
structure Modest (s : Sender) (vecSend : List (CScript × Int)) : Prop where
  payments : ∀ p ∈ vecSend, 0 ≤ p.2
  fee : 0 ≤ s.nTransactionFee
  total : (vecSend.map Prod.snd).sum + 100 * max s.nTransactionFee minTxFee + cent < 2 ^ 63
  funds : ((s.wallet.availableCoins s.view true).map COutput.nValue).sum < 2 ^ 63 - 1

theorem sumSend_word (hp : ∀ p ∈ vecSend, 0 ≤ p.2) (h0 : 0 ≤ acc) (h : acc + (vecSend.map Prod.snd).sum < 2 ^ 63) :
    sumSend .word acc vecSend = sumSend .exact acc vecSend := by
  induction vecSend generalizing acc with
  | nil => rfl
  | cons p vecSend ih =>
    rw [forall_mem_cons] at hp
    rw [map_cons, sum_cons] at h
    have hnn : 0 ≤ (vecSend.map Prod.snd).sum := by
      refine sum_nonneg fun x hx => ?_
      obtain ⟨q, hq, rfl⟩ := mem_map.mp hx
      exact hp.2 q hq
    have hst : Arith.word.store (acc + p.2) = acc + p.2 := int64_of_fits ⟨by omega, by omega⟩
    rw [sumSend, sumSend, hst]
    split
    · rfl
    · exact ih hp.2 (by omega) (by omega)

theorem settleChange_word (h0 : 0 ≤ nFeeRet) (hf : nFeeRet + cent < 2 ^ 63) (hc0 : 0 ≤ c) (hc : c < 2 ^ 63) :
    settleChange .word nFeeRet c = settleChange .exact nFeeRet c := by
  have hst : ∀ x, Fits x → Arith.word.store x = x := fun x hx => int64_of_fits hx
  have hex : ∀ x, Arith.exact.store x = x := fun _ => rfl
  have hce : minTxFee = cent := rfl
  have hmi : minTxoutAmount = cent := rfl
  have hpos : 0 < cent := by decide
  simp only [settleChange, hex]
  rw [hst (minTxFee - nFeeRet) ⟨by omega, by omega⟩]
  generalize hmv : (if nFeeRet < minTxFee ∧ c > 0 ∧ c < cent then min c (minTxFee - nFeeRet) else 0) = nMoveToFee
  have hm : 0 ≤ nMoveToFee ∧ nMoveToFee ≤ c ∧ nMoveToFee ≤ cent ∧ (nMoveToFee = 0 ∨ c < cent) := by
    rw [← hmv]
    split <;> omega
  rw [hst (c - nMoveToFee) ⟨by omega, by omega⟩, hst (nFeeRet + nMoveToFee) ⟨by omega, by omega⟩]
  split
  · rw [hst _ ⟨by omega, by omega⟩]
  · rfl

theorem Owed.bounds (h : Owed s nFeeRet) (hf : 0 ≤ s.nTransactionFee) :
    0 ≤ nFeeRet ∧ nFeeRet ≤ 100 * max s.nTransactionFee minTxFee := by
  have hmi : 0 < minTxFee := by decide
  have hl : maxBlockSizeGen / 5 = 100000 := by decide
  obtain rfl | ⟨tx, hsi, heq⟩ := h
  · omega
  · rw [heq, requiredFee_eq s hsi]
    have hr : 0 ≤ max s.nTransactionFee minTxFee := hf.trans (le_max_left _ _)
    refine ⟨mul_nonneg (by omega) hr, mul_le_mul_of_nonneg_right (by omega) hr⟩

theorem Modest.computes (h : Modest s vecSend) (ho : Owed s nFeeRet) :
    Computes .word s (vecSend.map Prod.snd).sum nFeeRet := by
  obtain ⟨hf0, hfm⟩ := ho.bounds h.fee
  have htot := h.total
  have hfu := h.funds
  have hce : 0 < cent := by decide
  have hnn : 0 ≤ (vecSend.map Prod.snd).sum := by
    refine sum_nonneg fun x hx => ?_
    obtain ⟨q, hq, rfl⟩ := mem_map.mp hx
    exact h.payments q hq
  refine ⟨int64_of_fits ⟨by omega, by omega⟩, InRange.keeps ⟨by omega, hfu⟩ (by omega) fun c hc =>
    (CWallet.available_spec hc).2.2.2.2, fun c hc0 hc => ?_, fun tx hsi => ?_⟩
  · exact ⟨int64_of_fits ⟨by omega, by omega⟩, settleChange_word hf0 (by omega) hc0 (by omega)⟩
  · have hl : maxBlockSizeGen / 5 = 100000 := by decide
    have hmx : s.nTransactionFee ≤ max s.nTransactionFee minTxFee := le_max_left _ _
    have hlo : 0 ≤ s.nTransactionFee * (1 + (tx.serializeSize : Int) / 1000) := mul_nonneg h.fee (by omega)
    have hhi : s.nTransactionFee * (1 + (tx.serializeSize : Int) / 1000) ≤ s.nTransactionFee * 100 :=
      mul_le_mul_of_nonneg_left (by omega) h.fee
    rw [requiredFee, requiredFee, show Arith.word.store _ = _ from int64_of_fits ⟨by omega, by omega⟩]
    rfl

theorem isStandardScript_return (hs : s.Sound) (hb : b.length ≤ 80) (rest : CScript) :
    isStandardScript s.env (opcodeReturn :: (pushData b ++ rest)) = true ↔ rest = [] := by
  rw [isStandardScript, hs.solver_eq, solver_return (by omega)]
  split
  · rename_i h
    split at h
    · cases h
    · rename_i hne
      simp only [Bool.false_eq_true, false_iff]
      exact fun hr => hne ⟨hb, hr⟩
  · rename_i h
    split at h <;> cases h
  · rename_i h
    split at h
    · rename_i hr
      cases h
      simp [hr.2]
    · cases h

theorem createTransactionTo_relayable_iff (hs : s.Sound) (hd : isValidAddress dest) (hv : minTxoutAmount ≤ nValue)
    (h : s.createTransactionTo (setDestination dest) nValue sNarr false txData = some tx) :
    Relayable s.env tx ↔ sNarr = [] ∨ vchFromString txData ≠ [] := by
  have hmi := minTxoutAmount_pos
  have hsu : 0 < (((setDestination dest, nValue) ::
      if sNarr.length > 0 then [(narrationScript sNarr, 0)] else []).map Prod.snd).sum := by
    split <;> simp <;> omega
  rw [createTransaction_relayable_iff hs hsu h]
  constructor
  · -- the narration's output has no amount
    intro hal
    by_contra hno
    push Not at hno
    have hm : (⟨0, narrationScript sNarr⟩ : CTxOut) ∈ payees false (vchFromString txData)
        ((setDestination dest, nValue) :: if sNarr.length > 0 then [(narrationScript sNarr, 0)] else []) := by
      rw [mem_payees, if_pos (length_pos_iff.mpr hno.1), hno.2]
      simp
    exact absurd (hal _ hm).1 (not_le.mpr hmi)
  · intro hok o ho
    obtain ⟨hm, hz⟩ := mem_payees.mp ho
    rcases mem_cons.mp hm with heq | hn
    · obtain ⟨hsc, ha⟩ := Prod.mk.inj heq
      rw [hsc, ha]
      exact ⟨hv, isStandardScript_setDestination hs hd⟩
    split at hn
    · rename_i hl
      obtain ⟨-, ha⟩ := Prod.mk.inj (mem_singleton.mp hn)
      have hda := hok.resolve_left (length_pos_iff.mp hl)
      exact absurd ⟨ha.symm, length_pos_iff.mpr hda⟩ hz
    · cases hn

theorem createTransaction_relayable (hs : s.Sound) {recipients : List (CTxDestination × Int)}
    (hv : ∀ r ∈ recipients, isValidAddress r.1 ∧ minTxoutAmount ≤ r.2)
    (h : s.createTransaction (recipients.map fun r => (setDestination r.1, r.2)) false [] = some tx) :
    Relayable s.env tx := by
  have hm := minTxoutAmount_pos
  have hsu : 0 < ((recipients.map fun r => (setDestination r.1, r.2)).map Prod.snd).sum := by
    cases recipients with
    | nil => cases h
    | cons r recipients =>
      rw [forall_mem_cons] at hv
      have hre : 0 ≤ ((recipients.map fun r => (setDestination r.1, r.2)).map Prod.snd).sum := by
        apply sum_nonneg
        simp only [map_map, mem_map, Function.comp_apply]
        rintro x ⟨r', hr', rfl⟩
        have := (hv.2 r' hr').2
        omega
      simp only [map_cons, sum_cons]
      omega
  rw [createTransaction_relayable_iff hs hsu h]
  intro o ho
  obtain ⟨r, hr, heq⟩ := mem_map.mp (mem_payees.mp ho).1
  obtain ⟨hsc, ha⟩ := Prod.mk.inj heq
  rw [← hsc, ← ha]
  exact ⟨(hv r hr).2, isStandardScript_setDestination hs (hv r hr).1⟩

theorem createStealthTransaction_relayable_iff (hs : s.Sound) (hv : minTxoutAmount ≤ nValue)
    (h : s.createStealthTransaction p nValue narr = some tx) : Relayable s.env tx ↔ narr = [] := by
  have hmi := minTxoutAmount_pos
  rw [createStealthTransaction] at h
  have hp := p.shuffle.perm
    [(setDestination (.keyID p.keyTo), nValue), (stealthScript p.ephemPubkey narr, minTxoutAmount)]
  generalize p.shuffle.apply _ = vecSend at h hp
  have hsu : 0 < (vecSend.map Prod.snd).sum := by
    rw [(hp.map Prod.snd).sum_eq]
    simp only [map_cons, map_nil, sum_cons, sum_nil]
    omega
  have hn : isStandardScript s.env (stealthScript p.ephemPubkey narr) = true ↔ narr = [] := by
    rw [stealthScript, isStandardScript_return hs (by rw [p.length_ephemPubkey]; omega)]
    split
    · rename_i hl
      exact ⟨fun h => (by cases h), fun h => absurd h (length_pos_iff.mp hl)⟩
    · rename_i hl
      simpa using hl
  rw [createTransaction_relayable_iff hs hsu h, ← hn]
  constructor
  · intro hal
    refine (hal ⟨minTxoutAmount, stealthScript p.ephemPubkey narr⟩ (mem_payees.mpr ⟨?_, ?_⟩)).2
    · apply hp.symm.subset
      simp
    · exact fun hz => absurd hz.1 hmi.ne
  · intro hst o ho
    have hm := hp.subset (mem_payees.mp ho).1
    rcases mem_cons.mp hm with heq | hm
    · obtain ⟨hsc, ha⟩ := Prod.mk.inj heq
      rw [hsc, ha]
      exact ⟨hv, isStandardScript_setDestination hs (show isValidAddress (.keyID p.keyTo) from p.length_keyTo)⟩
    · obtain ⟨hsc, ha⟩ := Prod.mk.inj (mem_singleton.mp hm)
      rw [hsc, ha]
      exact ⟨le_rfl, hst⟩

/-- What is sent to a key or script address, to many of them, or to a stealth address is relayable exactly
if there is no narration; a narration of a data transaction is left out. -/
theorem send_relayable_iff (s : Sender) (hs : s.Sound) :
    (∀ (dest : CTxDestination) (nValue : Int) (sNarr txData : Bytes) (tx : CTransaction), isValidAddress dest →
      minTxoutAmount ≤ nValue → s.sendMoneyToDestination dest nValue sNarr false txData = some tx →
      (Relayable s.env tx ↔ sNarr = [] ∨ vchFromString txData ≠ [])) ∧
    (∀ (recipients : List (CTxDestination × Int)) (tx : CTransaction),
      (∀ r ∈ recipients, isValidAddress r.1 ∧ minTxoutAmount ≤ r.2) →
      s.createTransaction (recipients.map fun r => (setDestination r.1, r.2)) false [] = some tx →
      Relayable s.env tx) ∧
    (∀ (p : StealthSend) (nValue : Int) (sNarr : Bytes) (tx : CTransaction), minTxoutAmount ≤ nValue →
      s.sendStealthMoneyToDestination p nValue sNarr = some tx → (Relayable s.env tx ↔ sNarr = [])) := by
  refine ⟨?_, fun recipients tx hva h => createTransaction_relayable hs hva h, ?_⟩
  · intro dest nValue sNarr txData tx hd hv h
    rw [sendMoneyToDestination] at h
    split_ifs at h
    exact createTransactionTo_relayable_iff hs hd hv h
  · intro p nValue sNarr tx hv h
    have he : (if sNarr.length > 0 then p.aes.encrypt p.secretShared p.ephemPubkey sNarr else []) = [] ↔
        sNarr = [] := by
      split
      · have hl := p.aes.length_lt_encrypt p.secretShared p.ephemPubkey sNarr
        rw [← length_eq_zero_iff, ← length_eq_zero_iff]
        omega
      · rename_i hlen
        simpa using hlen
    rw [sendStealthMoneyToDestination] at h
    split at h
    · cases h
    split at h
    · cases h
    dsimp only at h
    generalize (if sNarr.length > 0 then p.aes.encrypt p.secretShared p.ephemPubkey sNarr else []) = narr at h he
    split at h
    · cases h
    rw [createStealthTransaction_relayable_iff hs hv h, he]

end Sender

/-! ### A wallet with one coin -/

namespace SendSample

def coinScript : CScript := setDestination (.keyID (replicate 20 7))

def funding : CTransaction := { nTime := 1, vin := [{ prevout := ⟨9, 0⟩ }], vout := [⟨50 * coin, coinScript⟩] }

noncomputable def sender : Sender where
  env := { Chain.Sample.env [] [] with solver := solver }
  ks :=
    { sign := fun _ _ => some [1]
      getPubKey := fun _ => replicate 33 2
      getCScript := fun _ => none
      pubKeyID := fun key => key
      hash := fun _ => 0
      verifyScript := fun _ _ _ _ => true
      length_sign := fun _ _ sig h => by obtain rfl : [1] = sig := Option.some.inj h; decide }
  wallet :=
    { mapWallet := (∅ : ExtTreeMap Hash256 CWalletTx).insert 5 { tx := funding }
      keys := [coinScript]
      stealthKeys := fun _ => []
      nOrderPosNext := 0 }
  view := ⟨fun _ => true, fun _ => true, fun _ => 0, fun _ => 10⟩
  nTime := 100
  nTransactionFee := 0
  balance := 50 * coin
  changeKey := replicate 20 8
  shuffle := fun _ => ⟨fun l => l, fun l => List.Perm.refl l⟩
  draws := fun _ => Stream'.const 0

theorem sender_sound : sender.Sound where
  solver_eq := rfl
  fee := le_rfl
  changeKey := rfl
  funds := by decide +kernel
  signable := by decide +kernel
  indices := by
    intro hash wtx h
    have hm : sender.wallet.mapWallet = (∅ : ExtTreeMap Hash256 CWalletTx).insert 5 { tx := funding } := rfl
    rw [hm, ExtTreeMap.getElem?_insert] at h
    split at h
    · obtain rfl := Option.some.inj h
      decide
    · cases h

def stealth : StealthSend where
  aes :=
    { encrypt := fun _ _ plain => 0 :: plain
      decrypt := fun _ _ text => text.tail?
      decrypt_encrypt := fun _ _ _ => rfl
      length_decrypt := by
        intro key iv text plain h
        cases text with
        | nil => cases h
        | cons b text =>
          obtain rfl : text = plain := Option.some.inj h
          exact Nat.lt_succ_self _ }
  keyTo := replicate 20 9
  ephemPubkey := replicate 33 2
  secretShared := replicate 32 1
  shuffle := ⟨fun l => l, fun l => List.Perm.refl l⟩
  length_keyTo := rfl
  length_ephemPubkey := rfl

def payTo : CTxDestination := .keyID (replicate 20 9)

def recipients : List (CTxDestination × Int) := [(payTo, coin), (.scriptID (replicate 20 3), 2 * coin)]

/-- Without a narration all three are sent and relayable. -/
theorem send_relayable_plain :
    (∃ tx, sender.sendMoneyToDestination payTo coin [] false [] = some tx ∧ Relayable sender.env tx) ∧
    (∃ tx, sender.createTransaction (recipients.map fun r => (setDestination r.1, r.2)) false [] = some tx ∧
      Relayable sender.env tx) ∧
    (∃ tx, sender.sendStealthMoneyToDestination stealth coin [] = some tx ∧ Relayable sender.env tx) := by
  obtain ⟨hpay, hm, hs⟩ := Sender.send_relayable_iff sender sender_sound
  have hp : isValidAddress payTo := by unfold payTo isValidAddress; decide
  refine ⟨?_, ?_, ?_⟩
  · obtain ⟨tx, htx⟩ : ∃ tx, sender.sendMoneyToDestination payTo coin [] false [] = some tx :=
      Option.isSome_iff_exists.mp (by decide +kernel)
    exact ⟨tx, htx, (hpay payTo _ _ _ _ hp (by decide) htx).mpr (.inl rfl)⟩
  · obtain ⟨tx, htx⟩ : ∃ tx, sender.createTransaction (recipients.map fun r => (setDestination r.1, r.2)) false [] =
        some tx := Option.isSome_iff_exists.mp (by decide +kernel)
    refine ⟨tx, htx, hm recipients tx ?_ htx⟩
    simp only [recipients, forall_mem_cons, not_mem_nil, false_implies, implies_true, and_true]
    exact ⟨⟨hp, by decide⟩, by unfold isValidAddress; decide, by decide⟩
  · obtain ⟨tx, htx⟩ : ∃ tx, sender.sendStealthMoneyToDestination stealth coin [] = some tx :=
      Option.isSome_iff_exists.mp (by decide +kernel)
    exact ⟨tx, htx, (hs stealth _ _ _ (by decide) htx).mpr rfl⟩

/-- A narration makes the payment invalid, and the stealth payment nonstandard. -/
theorem narration_not_relayable : ((sender.sendMoneyToDestination payTo coin [104, 105] false []).map fun tx =>
      (tx.checkTransaction, tx.isStandard sender.env)) = some (false, false) ∧
    ((sender.sendStealthMoneyToDestination stealth coin [104, 105]).map fun tx =>
      (tx.checkTransaction, tx.isStandard sender.env)) = some (true, false) := by
  decide +kernel

end SendSample
end CloakCoin.Wallet
