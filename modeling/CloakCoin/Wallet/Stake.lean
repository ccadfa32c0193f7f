import CloakCoin.Chain.Kernel
import CloakCoin.Wallet.Send

/-!
# Staking

`CreateCoinStake`: it searches the chosen coins for a kernel, splits a young stake, merges more coins with an
old one, and pays the coins with their reward back to the key of the kernel.

What is returned is `Staked`: the kernel, the coins spent with it and the coin age they earn a reward for.
-/

namespace CloakCoin.Wallet

open Chain Lib Enigma
open Std (ExtTreeMap)
open List

variable {nLimit : Int}

/-! ## `CreateCoinStake` -/

/-- `GetLastBlockIndex` over the ancestors of a block, itself first. -/
def getLastBlockIndex (fProofOfStake : Bool) : List CBlockIndex → Option CBlockIndex
  | [] => none
  | pindex :: prev =>
    if pindex.pprev.isSome && pindex.fProofOfStake != fProofOfStake then getLastBlockIndex fProofOfStake prev
    else some pindex

/-- A wallet that stakes, on top of its node. -/
structure Staker extends Sender where
  node : Node
  kernelHash : KernelData → Hash256
  /-- The public key of a key of the store. -/
  getKey : CKeyID → Option Bytes
  /-- `-reservebalance`, if it is an amount. -/
  reserveBalance : Option Int
  /-- The order of `setCoins`, by address. -/
  order : Shuffle
  fShutdown : Bool

/-- A kernel that was found: the coin with the time of its block, the seconds back from now, and the script
for the new outputs. -/
structure StakeKernel where
  coin : COutput
  nBlockTime : Nat
  n : Nat
  scriptPubKeyOut : CScript

/-- The coins to be spent and their value. -/
structure StakeInputs where
  vwtxPrev : List COutput
  nCredit : Int

def nMaxStakeSearchInterval : Nat := 60

def stakeOutputs (fSplit : Bool) (scriptPubKeyOut : CScript) (nCredit : Int) : List CTxOut :=
  if fSplit then
    let nHalf := (nCredit.tdiv 2).tdiv cent * cent
    [⟨0, []⟩, ⟨nHalf, scriptPubKeyOut⟩, ⟨nCredit - nHalf, scriptPubKeyOut⟩]
  else [⟨0, []⟩, ⟨nCredit, scriptPubKeyOut⟩]

namespace Staker

variable (s : Staker)

def timeBack (n : Nat) : Nat := (s.nTime + 2 ^ 32 - n) % 2 ^ 32

/-- What `GetCoinAge` reads. -/
def txSource : TxSource where
  readTxIndex := s.node.txdb.readTxIndex
  readTx := s.node.files.readTx
  readBlockTime := s.node.files.readBlockTime
  mempoolLookup := fun h => s.node.mempool.mapTx[h]?

def kernelScript (scriptPubKeyKernel : CScript) : Option CScript :=
  match solver scriptPubKeyKernel with
  | some (.pubkey, _) => some scriptPubKeyKernel
  | some (.pubkeyhash, keyID :: _) => (s.getKey keyID).map fun pubkey => pushData pubkey ++ [0xac]
  | _ => none

/-- Whether the kernel of the coin meets the target, `n` seconds back. -/
def meetsTarget (nBits : Nat) (coin : COutput) (txindex : CTxIndex) (block : CBlock) (n : Nat) : Bool :=
  (checkStakeKernelHash s.env s.kernelHash s.node nBits block.toCBlockHeader
    ((txindex.pos.nTxPos + 2 ^ 32 - txindex.pos.nBlockPos) % 2 ^ 32) coin.tx.tx coin.outPoint (s.timeBack n)).isSome

def searchCoin (nBits : Nat) (nSearchInterval : Int) (coin : COutput) : Option StakeKernel :=
  match s.node.txdb.readTxIndex coin.hash with
  | none => none
  | some txindex =>
    match s.node.files.recordAt txindex.pos.nFile txindex.pos.nBlockPos with
    | none => none
    | some block =>
      -- only count coins meeting min age requirement
      if (block.nTime : Int) + s.env.nStakeMinAge > s.timeBack nMaxStakeSearchInterval then none
      else if s.fShutdown then none
      else
        match (List.range (min nSearchInterval nMaxStakeSearchInterval).toNat).find?
            (s.meetsTarget nBits coin txindex block) with
        | none => none
        | some n => (s.kernelScript coin.scriptPubKey).map fun scriptPubKeyOut =>
          ⟨coin, block.nTime, n, scriptPubKeyOut⟩

def isSplit (k : StakeKernel) : Bool := decide (k.nBlockTime + nStakeSplitAge > s.timeBack k.n)

def mergeCoins (k : StakeKernel) (nCombineThreshold nLimit : Int) : List COutput → StakeInputs → StakeInputs
  | [], txNew => txNew
  | coin :: setCoins, txNew =>
    if !s.isSplit k && (coin.scriptPubKey == k.coin.scriptPubKey || coin.scriptPubKey == k.scriptPubKeyOut) &&
        coin.hash != k.coin.hash then
      if txNew.vwtxPrev.length ≥ 100 then txNew -- already too many inputs
      else if txNew.nCredit > nCombineThreshold then txNew -- value is already pretty significant
      else if txNew.nCredit + coin.nValue > nLimit then txNew -- reached reserve limit
      else if coin.nValue > nCombineThreshold then mergeCoins k nCombineThreshold nLimit setCoins txNew
      -- still too young
      else if ((coin.tx.tx.nTime : Int) + nStakeMaxAge s.env) % 2 ^ 32 > s.timeBack k.n then
        mergeCoins k nCombineThreshold nLimit setCoins txNew
      else if coin.tx.isEnigmaReserved coin.i then mergeCoins k nCombineThreshold nLimit setCoins txNew
      else mergeCoins k nCombineThreshold nLimit setCoins ⟨txNew.vwtxPrev ++ [coin], txNew.nCredit + coin.nValue⟩
    else mergeCoins k nCombineThreshold nLimit setCoins txNew

def unsignedStake (k : StakeKernel) (vwtxPrev : List COutput) (nCredit : Int) : CTransaction :=
  { nTime := s.timeBack k.n
    vin := vwtxPrev.map fun coin => { prevout := coin.outPoint }
    vout := stakeOutputs (s.isSplit k) k.scriptPubKeyOut nCredit }

/-- The loop that sets the amounts and signs, until enough fee is paid. -/
def stakeLoop (k : StakeKernel) (vwtxPrev : List COutput) (nCredit : Int) : Nat → Int → Option CTransaction
  | 0, _ => none
  | fuel + 1, nMinFee =>
    match s.signInputs vwtxPrev 0 (s.unsignedStake k vwtxPrev (nCredit - nMinFee)) with
    | none => none
    | some tx =>
      -- Limit size
      if tx.serializeSize ≥ maxBlockSizeGen / 5 then none
      else if nMinFee < tx.getMinFee - minTxFee then stakeLoop k vwtxPrev nCredit fuel (tx.getMinFee - minTxFee)
      else some tx

/-- A third of a proof-of-work reward; more than that is not combined. -/
def combineThreshold (pIndex0 : CBlockIndex) : Int :=
  if pIndex0.pprev.isSome then (getProofOfWorkReward pIndex0.nHeight minTxFee).tdiv 3 else 0

def payStake (k : StakeKernel) (txNew : StakeInputs) : Option CTransaction :=
  match getCoinAge s.env s.txSource (s.unsignedStake k txNew.vwtxPrev 0) with
  | none => none
  | some nCoinAge => s.stakeLoop k txNew.vwtxPrev (txNew.nCredit + getProofOfStakeReward nCoinAge) 1 0

/-- The loop over the fee is left in its first turn (`stakeLoop_fuel`). -/
def createCoinStake (nBits : Nat) (nSearchInterval : Int) : Option CTransaction :=
  match (s.node.bestEntry).bind fun pindexBest => getLastBlockIndex false (s.node.ancestorsOf pindexBest),
      s.reserveBalance with
  | some pIndex0, some nReserveBalance =>
    let nLimit := s.balance - nReserveBalance
    if s.balance ≤ nReserveBalance then none
    else
      match s.wallet.selectCoins .word nLimit s.nTime
        ((s.shuffle 0).apply (s.wallet.availableCoins s.view true)) (s.draws 0) with
      | none => none
      | some (setCoins, _) =>
        match (s.order.apply setCoins).findSome? (s.searchCoin nBits nSearchInterval) with
        | none => none
        | some k =>
          if k.coin.nValue = 0 ∨ k.coin.nValue > nLimit then none
          else s.payStake k (s.mergeCoins k (combineThreshold pIndex0) nLimit (s.order.apply setCoins)
            ⟨[k.coin], k.coin.nValue⟩)
  | _, _ => none

end Staker

/-! ## What is returned -/

structure KernelFound (s : Staker) (nBits : Nat) (nSearchInterval : Int) (k : StakeKernel) : Prop where
  back : (k.n : Int) < min nSearchInterval nMaxStakeSearchInterval
  script : s.kernelScript k.coin.scriptPubKey = some k.scriptPubKeyOut
  proof : ∃ txindex block, s.node.txdb.readTxIndex k.coin.hash = some txindex ∧
    s.node.files.recordAt txindex.pos.nFile txindex.pos.nBlockPos = some block ∧ k.nBlockTime = block.nTime ∧
    (block.nTime : Int) + s.env.nStakeMinAge ≤ s.timeBack nMaxStakeSearchInterval ∧
    s.meetsTarget nBits k.coin txindex block k.n = true

structure Merged (s : Staker) (k : StakeKernel) (nLimit : Int) (setCoins : List COutput) (txNew txNew' : StakeInputs)
    (more : List COutput) : Prop where
  coins : txNew'.vwtxPrev = txNew.vwtxPrev ++ more
  sub : more.Sublist setCoins
  other : ∀ coin ∈ more, coin.hash ≠ k.coin.hash
  split : s.isSplit k = true → more = []
  credit : txNew'.nCredit = txNew.nCredit + (more.map COutput.nValue).sum
  limit : txNew'.nCredit ≤ nLimit

variable {k : StakeKernel}

section
variable {s : Staker}

theorem Merged.skip (h : Merged s k nLimit setCoins txNew txNew' more) (coin : COutput) :
    Merged s k nLimit (coin :: setCoins) txNew txNew' more :=
  { h with sub := h.sub.cons coin }

theorem Merged.subperm (h : Merged s k nLimit setCoins txNew txNew' more) (hk : k.coin ∈ setCoins) :
    (k.coin :: more).Subperm setCoins := by
  have hm : k.coin ∉ more := fun hm => h.other k.coin hm rfl
  exact cons_subperm_of_not_mem_of_mem hm hk h.sub.subperm

end

structure Staked (s : Staker) (nBits : Nat) (nSearchInterval : Int) (tx : CTransaction) (k : StakeKernel)
    (vwtxPrev : List COutput) (nCoinAge : Nat) : Prop where
  found : KernelFound s nBits nSearchInterval k
  coins : (k.coin :: vwtxPrev).Subperm (s.wallet.availableCoins s.view true)
  /-- A split stake has one input. -/
  merged : s.isSplit k = true → vwtxPrev = []
  limit : ∃ nReserveBalance, s.reserveBalance = some nReserveBalance ∧
    ((k.coin :: vwtxPrev).map COutput.nValue).sum ≤ s.balance - nReserveBalance
  age : getCoinAge s.env s.txSource (s.unsignedStake k (k.coin :: vwtxPrev) 0) = some nCoinAge
  same : tx = { s.unsignedStake k (k.coin :: vwtxPrev)
    (((k.coin :: vwtxPrev).map COutput.nValue).sum + getProofOfStakeReward nCoinAge) with vin := tx.vin }
  prevouts : tx.vin.map CTxIn.prevout = (k.coin :: vwtxPrev).map COutput.outPoint
  signed : ∀ txin ∈ tx.vin, txin.scriptSig = [] ∨
    ∃ coin ∈ k.coin :: vwtxPrev, Signer.Pushes (s.ks.scriptSigBound coin.scriptPubKey) txin.scriptSig
  size : tx.serializeSize < maxBlockSizeGen / 5

namespace Staker

variable {s : Staker}

theorem searchCoin_found {coin : COutput}
    (h : s.searchCoin nBits nSearchInterval coin = some k) : k.coin = coin ∧ KernelFound s nBits nSearchInterval k := by
  unfold searchCoin at h
  split at h
  · cases h
  rename_i txindex hi
  split at h
  · cases h
  rename_i block hb
  split at h
  · cases h
  split at h
  · cases h
  split at h
  · cases h
  rename_i n hn
  obtain ⟨scriptPubKeyOut, hs, rfl⟩ := Option.map_eq_some_iff.mp h
  have hba := mem_range.mp (mem_of_find?_eq_some hn)
  exact ⟨rfl, ⟨by show (n : Int) < _; omega, hs,
    txindex, block, hi, hb, rfl, by omega, find?_some hn⟩⟩

theorem mergeCoins_merged (setCoins : List COutput) (txNew : StakeInputs) (hl : txNew.nCredit ≤ nLimit) :
    ∃ more, Merged s k nLimit setCoins txNew (s.mergeCoins k nCombineThreshold nLimit setCoins txNew) more := by
  have hs (l : List COutput) (t : StakeInputs) (ht : t.nCredit ≤ nLimit) : ∃ more, Merged s k nLimit l t t more :=
    ⟨[], ⟨by simp, nil_sublist l, by simp, fun _ => rfl, by simp, ht⟩⟩
  induction setCoins generalizing txNew with
  | nil => exact hs [] txNew hl
  | cons coin setCoins ih =>
    have hsk : ∃ more, Merged s k nLimit (coin :: setCoins) txNew
        (s.mergeCoins k nCombineThreshold nLimit setCoins txNew) more :=
      (ih txNew hl).imp fun _ h => h.skip coin
    rw [mergeCoins]
    split
    · rename_i hsa
      simp only [Bool.and_eq_true, Bool.not_eq_true', bne_iff_ne, ne_eq] at hsa
      split
      · exact hs _ txNew hl
      split
      · exact hs _ txNew hl
      split
      · exact hs _ txNew hl
      split
      · exact hsk
      split
      · exact hsk
      split
      · exact hsk
      obtain ⟨more, hm⟩ := ih ⟨txNew.vwtxPrev ++ [coin], txNew.nCredit + coin.nValue⟩ (by show _ + _ ≤ _; omega)
      refine ⟨coin :: more, ⟨by rw [hm.coins]; simp, hm.sub.cons_cons coin, ?_, ?_, ?_, hm.limit⟩⟩
      · rw [forall_mem_cons]
        exact ⟨hsa.2, hm.other⟩
      · intro hsp
        rw [hsa.1.1] at hsp
        cases hsp
      · rw [hm.credit, map_cons, sum_cons]
        exact add_assoc _ _ _
    · exact hsk

theorem mergeCoins_sameKey (k : StakeKernel) (nCombineThreshold nLimit : Int) (setCoins : List COutput)
    (txNew : StakeInputs) : ∀ coin ∈ (s.mergeCoins k nCombineThreshold nLimit setCoins txNew).vwtxPrev,
      coin ∈ txNew.vwtxPrev ∨ coin.scriptPubKey = k.coin.scriptPubKey ∨ coin.scriptPubKey = k.scriptPubKeyOut := by
  induction setCoins generalizing txNew with
  | nil =>
    intro coin hc
    exact .inl hc
  | cons c setCoins ih =>
    have hs : ∀ coin ∈ txNew.vwtxPrev, coin ∈ txNew.vwtxPrev ∨ coin.scriptPubKey = k.coin.scriptPubKey ∨
        coin.scriptPubKey = k.scriptPubKeyOut := fun coin hc => .inl hc
    rw [mergeCoins]
    split_ifs with hsa
    · exact hs
    · exact hs
    · exact hs
    · exact ih txNew
    · exact ih txNew
    · exact ih txNew
    · intro coin hc
      rcases ih _ coin hc with hc | hc
      · rcases mem_append.mp hc with hc | hc
        · exact .inl hc
        · rw [mem_singleton.mp hc]
          simp only [Bool.and_eq_true, Bool.or_eq_true, beq_iff_eq] at hsa
          exact .inr hsa.1.2
      · exact .inr hc
    · exact ih txNew

theorem stakeLoop_fuel (k : StakeKernel) (vwtxPrev : List COutput) (nCredit : Int) (fuel : Nat) :
    s.stakeLoop k vwtxPrev nCredit (fuel + 1) 0 = s.stakeLoop k vwtxPrev nCredit 1 0 := by
  simp [stakeLoop]

theorem payStake_spec (h : s.payStake k ⟨vwtxPrev, nCredit⟩ = some tx) :
    ∃ nCoinAge, getCoinAge s.env s.txSource (s.unsignedStake k vwtxPrev 0) = some nCoinAge ∧
      tx = { s.unsignedStake k vwtxPrev (nCredit + getProofOfStakeReward nCoinAge) with vin := tx.vin } ∧
      tx.vin.map CTxIn.prevout = vwtxPrev.map COutput.outPoint ∧
      (∀ txin ∈ tx.vin, txin.scriptSig = [] ∨
        ∃ coin ∈ vwtxPrev, Signer.Pushes (s.ks.scriptSigBound coin.scriptPubKey) txin.scriptSig) ∧
      tx.serializeSize < maxBlockSizeGen / 5 := by
  unfold payStake at h
  split at h
  · cases h
  rename_i nCoinAge ha
  rw [stakeLoop] at h
  split at h
  · cases h
  rename_i tx' hs
  split at h
  · cases h
  obtain rfl : tx' = tx := Option.some.inj h
  rw [sub_zero] at hs
  have hb : ∀ txin ∈ (s.unsignedStake k vwtxPrev (nCredit + getProofOfStakeReward nCoinAge)).vin, txin.scriptSig = [] ∨
        ∃ coin ∈ vwtxPrev, Signer.Pushes (s.ks.scriptSigBound coin.scriptPubKey) txin.scriptSig := by
    intro txin ht
    obtain ⟨coin, -, rfl⟩ := mem_map.mp ht
    exact .inl rfl
  obtain ⟨hsa, hp, hpu⟩ := Sender.signInputs_forall
    (fun sig => sig = [] ∨ ∃ coin ∈ vwtxPrev, Signer.Pushes (s.ks.scriptSigBound coin.scriptPubKey) sig)
    (fun coin hc txTo i sig hsi => .inr ⟨coin, hc, Signer.signSignature_pushes hsi⟩) hb hs
  refine ⟨nCoinAge, ha, hsa, ?_, hpu, by omega⟩
  rw [hp]
  exact map_map

theorem createCoinStake_staked (h : s.createCoinStake nBits nSearchInterval = some tx) :
    ∃ k vwtxPrev nCoinAge, Staked s nBits nSearchInterval tx k vwtxPrev nCoinAge ∧
      ∀ coin ∈ k.coin :: vwtxPrev, coin.scriptPubKey = k.coin.scriptPubKey ∨ coin.scriptPubKey = k.scriptPubKeyOut := by
  unfold createCoinStake at h
  split at h
  case h_2 => cases h
  rename_i pIndex0 nReserveBalance _ hr
  dsimp only at h
  split at h
  · cases h
  split at h
  · cases h
  rename_i setCoins _ hs
  split at h
  · cases h
  rename_i k hk
  split at h
  · cases h
  obtain ⟨coin, hc, hse⟩ := exists_of_findSome?_eq_some hk
  obtain ⟨rfl, hf⟩ := searchCoin_found hse
  obtain ⟨more, hm⟩ : ∃ more, Merged s k (s.balance - nReserveBalance) (s.order.apply setCoins)
      ⟨[k.coin], k.coin.nValue⟩ (s.mergeCoins k (combineThreshold pIndex0) (s.balance - nReserveBalance)
        (s.order.apply setCoins) ⟨[k.coin], k.coin.nValue⟩) more :=
    mergeCoins_merged _ _ (by show k.coin.nValue ≤ _; omega)
  have hke := s.mergeCoins_sameKey k (combineThreshold pIndex0) (s.balance - nReserveBalance) (s.order.apply setCoins)
    ⟨[k.coin], k.coin.nValue⟩
  generalize s.mergeCoins k (combineThreshold pIndex0) _ _ _ = txNew at h hm hke
  have hco : txNew.vwtxPrev = k.coin :: more := hm.coins
  have hsu : txNew.nCredit = ((k.coin :: more).map COutput.nValue).sum := hm.credit
  have hsub : (k.coin :: more).Subperm (s.wallet.availableCoins s.view true) :=
    (((hm.subperm hc).trans (s.order.perm setCoins).subperm).trans (CWallet.selectCoins_reaches hs).1).trans
      ((s.shuffle 0).perm _).subperm
  rw [show txNew = ⟨k.coin :: more, txNew.nCredit⟩ by rw [← hco]] at h
  obtain ⟨nCoinAge, ha, hsa, hp, hpu, hsi⟩ := payStake_spec h
  refine ⟨k, more, nCoinAge, ⟨hf, hsub, hm.split, ⟨nReserveBalance, hr, hsu ▸ hm.limit⟩, ha,
    hsu ▸ hsa, hp, hpu, hsi⟩, ?_⟩
  rw [← hco]
  intro coin hc
  rcases hke coin hc with hfi | ho
  · rw [mem_singleton.mp hfi]
    exact .inl rfl
  · exact ho

end Staker

end CloakCoin.Wallet
