import CloakCoin.Chain.Coinstake
import CloakCoin.Wallet.Stake

/-!
# The shape of a coinstake

A coinstake has to pass `CheckTransaction`, the rule of `AcceptBlock` for version 6 and the reward limit of
`ConnectInputs`. The kernel is worth some coins, since its hash is not zero and its weight counts coin-days, and
its transaction is not later than its block. So the shape is always the one `AcceptBlock` asks for and the reward
is exactly the limit. `CheckTransaction` can still find that the coins and their reward exceed `MAX_MONEY`.
-/

namespace CloakCoin.Wallet

open Chain Lib Enigma Option
open Std (ExtTreeMap)

variable {s : Staker} {nBits nCoinAge : Nat} {nSearchInterval : Int} {k : StakeKernel} {vwtxPrev : List COutput}

/-! ## Kernels of a sound chain -/

/-- What is assumed of the chain and the wallet that stakes. -/
structure Staker.Sound (s : Staker) : Prop where
  nStakeMinAge : 0 ≤ s.env.nStakeMinAge
  minAge_le : s.env.nStakeMinAge ≤ nStakeMaxAge s.env
  /-- No kernel hash is zero. -/
  kernelHash : ∀ data, s.kernelHash data ≠ 0
  chain : s.node.IndexSound s.env
  /-- The wallet's copy of a transaction of the chain is that transaction: they have one hash. -/
  copies : ∀ (hash : Hash256) (wtx : CWalletTx) (txindex : CTxIndex) (tx : CTransaction),
    s.wallet.mapWallet[hash]? = some wtx → s.node.txdb.readTxIndex hash = some txindex →
    s.node.files.readTx txindex.pos = some tx → wtx.tx = tx
  /-- Output indices are below the null index. -/
  indices : ∀ (hash : Hash256) (wtx : CWalletTx), s.wallet.mapWallet[hash]? = some wtx → wtx.tx.vout.length ≤ uintMax

theorem CWallet.output_of_available {w : CWallet} {c : COutput} (h : c ∈ w.availableCoins view fOnlyConfirmed) :
    ∃ out, c.tx.tx.vout[c.i]? = some out ∧ out.nValue = c.nValue ∧ 0 < out.nValue := by
  have ha := (mem_availableCoins h).2
  unfold isAvailable at ha
  cases ho : c.tx.tx.vout[c.i]? with
  | none =>
    rw [ho] at ha
    cases ha
  | some out =>
    rw [ho] at ha
    simp only [Bool.and_eq_true, decide_eq_true_eq] at ha
    exact ⟨out, rfl, by rw [COutput.nValue, ho]; rfl, ha.2⟩

namespace KernelFound

section
variable (hs : s.Sound) (hk : KernelFound s nBits nSearchInterval k)
  (hcoin : k.coin ∈ s.wallet.availableCoins s.view true)
include hs hk hcoin

theorem prev : ChainMan.readTxPrev s.node k.coin.outPoint = some k.coin.tx.tx ∧ k.coin.tx.tx.nTime ≤ k.nBlockTime := by
  obtain ⟨txindex, block, hi, hb, ht, -⟩ := hk.proof
  obtain ⟨tx, b, hr, hre, htx, -, hch⟩ := hs.chain _ _ hi
  obtain rfl : b = block := some.inj (hre.symm.trans hb)
  have hc := hs.copies _ _ _ _ (CWallet.mem_availableCoins hcoin).1 hi hr
  obtain ⟨out, ho, -⟩ := CWallet.output_of_available hcoin
  have hlt : k.coin.i < tx.vout.length := by
    rw [← hc]
    exact (getElem?_eq_some_iff.mp ho).1
  constructor
  · have hi' : s.node.txdb.readTxIndex k.coin.outPoint.hash = some txindex := hi
    rw [ChainMan.readTxPrev, hi']
    dsimp only
    rw [hr]
    dsimp only
    rw [if_neg (show ¬k.coin.outPoint.n ≥ tx.vout.length from not_le.mpr hlt), hc]
  · rw [hc, ht]
    exact CBlock.nTime_le_of_checkBlock hch htx

theorem value_ge : 2 * cent ≤ k.coin.nValue := by
  have htp := (hk.prev hs hcoin).2
  obtain ⟨txindex, block, -, -, hti, ha, hm⟩ := hk.proof
  obtain ⟨hash, hh⟩ := isSome_iff_exists.mp hm
  obtain ⟨hmi, out, data, ho, rfl, ht⟩ := checkStakeKernelHash_some hh
  obtain ⟨out', ho', hv, hp⟩ := CWallet.output_of_available hcoin
  obtain rfl : out = out' := some.inj (ho.symm.trans ho')
  have hlt : s.timeBack nMaxStakeSearchInterval < 2 ^ 32 := Nat.mod_lt _ (by decide)
  rw [← hv]
  have hold : (k.coin.tx.tx.nTime : Int) + s.env.nStakeMinAge ≤ s.timeBack k.n := by omega
  apply value_ge_of_weight hs.nStakeMinAge hs.minAge_le hp.le hold
  intro hz
  rw [hz, zero_mul] at ht
  exact hs.kernelHash data (Nat.le_zero.mp (by exact_mod_cast ht))

end

end KernelFound

/-! ## The checks of a coinstake -/

theorem stakeOutputs_eq (fSplit : Bool) (script : CScript) (nCredit : Int) :
    ∃ parts, stakeOutputs fSplit script nCredit = ⟨0, []⟩ :: parts ∧ (parts.map CTxOut.nValue).sum = nCredit ∧
      parts.length = (if fSplit then 2 else 1) ∧ (∀ o ∈ parts, o.scriptPubKey = script) ∧
      (2 * cent ≤ nCredit → ∀ o ∈ parts, minTxoutAmount ≤ o.nValue) := by
  cases fSplit with
  | false => exact ⟨[⟨nCredit, script⟩], rfl, by simp, rfl, by simp, by simp [minTxoutAmount, minTxFee, cent]; omega⟩
  | true =>
    refine ⟨_, rfl, by simp, rfl, by simp, fun h => ?_⟩
    have hn : 0 ≤ nCredit := le_trans (by decide) h
    rw [Int.tdiv_eq_ediv_of_nonneg hn, Int.tdiv_eq_ediv_of_nonneg (Int.ediv_nonneg hn (by decide))]
    simp only [List.forall_mem_cons, List.not_mem_nil, false_implies, implies_true, and_true, minTxoutAmount, minTxFee,
      cent] at h ⊢
    omega

theorem outputsOk_stakeOutputs (fSplit : Bool) (script : CScript) (h : 2 * cent ≤ nCredit) :
    CTransaction.outputsOk true 0 (stakeOutputs fSplit script nCredit) = true ↔ nCredit ≤ maxMoney := by
  obtain ⟨parts, heq, hsu, -, -, hmi⟩ := stakeOutputs_eq fSplit script nCredit
  have hm : CTransaction.outputsOk true 0 (⟨0, []⟩ :: parts) = CTransaction.outputsOk true 0 parts := by
    rfl
  rw [heq, hm, outputsOk_iff_of_amounts (hmi h) le_rfl (by decide), hsu, zero_add]

theorem getCoinAge_congr (ht : tx'.nTime = tx.nTime) (hp : tx'.vin.map CTxIn.prevout = tx.vin.map CTxIn.prevout)
    (hb : tx.isCoinBase = false) (hb' : tx'.isCoinBase = false) : getCoinAge env src tx' = getCoinAge env src tx := by
  have hf (vin vin' : List CTxIn) (h : vin'.map CTxIn.prevout = vin.map CTxIn.prevout) (acc : Int) :
      vin'.foldlM (coinAgeInput env src tx') acc = vin.foldlM (coinAgeInput env src tx) acc := by
    induction vin generalizing vin' acc with
    | nil => rw [List.map_eq_nil_iff.mp h]; rfl
    | cons txin vin ih =>
      obtain ⟨txin', rest, rfl, hh, hta⟩ := List.map_eq_cons_iff.mp h
      have hst : coinAgeInput env src tx' acc txin' = coinAgeInput env src tx acc txin := by
        rw [coinAgeInput, coinAgeInput, hh, ht]
      rw [List.foldlM_cons, List.foldlM_cons, hst]
      cases coinAgeInput env src tx acc txin with
      | none => rfl
      | some acc' => exact ih rest hta acc'
  rw [getCoinAge, getCoinAge, hb, hb', hf tx.vin tx'.vin hp]

namespace Staked

variable {tx : CTransaction}

def credit (k : StakeKernel) (vwtxPrev : List COutput) (nCoinAge : Nat) : Int :=
  ((k.coin :: vwtxPrev).map COutput.nValue).sum + getProofOfStakeReward nCoinAge

section
variable (h : Staked s nBits nSearchInterval tx k vwtxPrev nCoinAge)
include h

theorem vout_eq : tx.vout = stakeOutputs (s.isSplit k) k.scriptPubKeyOut (credit k vwtxPrev nCoinAge) := by
  rw [h.same]
  rfl

theorem nTime_eq : tx.nTime = s.timeBack k.n := by
  rw [h.same]
  rfl

theorem length_vin : tx.vin.length = vwtxPrev.length + 1 := by
  rw [← List.length_map, h.prevouts, List.length_map, List.length_cons]

end

variable (hs : s.Sound) (h : Staked s nBits nSearchInterval tx k vwtxPrev nCoinAge)
include hs h

theorem not_null : ∀ txin ∈ tx.vin, txin.prevout.isNull = false := by
  intro txin ht
  have hm : txin.prevout ∈ (k.coin :: vwtxPrev).map COutput.outPoint := h.prevouts ▸ List.mem_map_of_mem ht
  obtain ⟨coin, hcoin, hp⟩ := List.mem_map.mp hm
  rw [← hp]
  exact CWallet.outPoint_not_null hs.indices (h.coins.subset hcoin)

theorem isCoinStake : tx.isCoinStake = true := by
  obtain ⟨parts, heq, -, hl, -⟩ := stakeOutputs_eq (s.isSplit k) k.scriptPubKeyOut (credit k vwtxPrev nCoinAge)
  have hn := h.not_null hs
  have hv := h.length_vin
  rw [CTransaction.isCoinStake, h.vout_eq, heq]
  cases htx : tx.vin with
  | nil =>
    rw [htx] at hv
    cases hv
  | cons txin rest =>
    cases parts with
    | nil => split at hl <;> cases hl
    | cons o parts =>
      rw [htx, List.forall_mem_cons] at hn
      simp only [hn.1]
      rfl

theorem value_ge : 2 * cent ≤ credit k vwtxPrev nCoinAge := by
  have hke := h.found.value_ge hs (h.coins.subset List.mem_cons_self)
  have hm : 0 ≤ (vwtxPrev.map COutput.nValue).sum := by
    apply List.sum_nonneg
    intro x hx
    obtain ⟨coin, hcoin, rfl⟩ := List.mem_map.mp hx
    obtain ⟨out, -, hv, hp⟩ := CWallet.output_of_available (h.coins.subset (List.mem_cons_of_mem _ hcoin))
    omega
  have hr : 0 ≤ getProofOfStakeReward nCoinAge := by
    unfold getProofOfStakeReward maxCloakProofOfStake
    exact Int.tdiv_nonneg (by positivity) (by decide)
  rw [credit, List.map_cons, List.sum_cons]
  omega

theorem checkTransaction_iff : tx.checkTransaction = true ↔ credit k vwtxPrev nCoinAge ≤ maxMoney := by
  have hvi : tx.vin ≠ [] := List.ne_nil_of_length_pos (by rw [h.length_vin]; omega)
  have hv : tx.vout ≠ [] := by
    obtain ⟨parts, heq, -⟩ := stakeOutputs_eq (s.isSplit k) k.scriptPubKeyOut (credit k vwtxPrev nCoinAge)
    rw [h.vout_eq, heq]
    exact List.cons_ne_nil _ _
  have hsi : tx.serializeSize ≤ maxBlockSize := h.size.le.trans (by decide)
  have hn : (tx.vin.map CTxIn.prevout).Nodup := by
    rw [h.prevouts]
    exact CWallet.nodup_of_subperm_available h.coins
  rw [CTransaction.checkTransaction_iff_outputsOk hvi hv hsi hn (h.not_null hs), h.isCoinStake hs, h.vout_eq,
    outputsOk_stakeOutputs _ _ (h.value_ge hs)]

theorem shape : (tx.vin.length = 1 ∧ tx.vout.length = 3) ∨ (tx.vin.length > 1 ∧ tx.vout.length = 2) ∨
      (tx.vin.length = 1 ∧ tx.vout.length = 2 ∧ ∃ txin txPrev, tx.vin = [txin] ∧
        ChainMan.readTxPrev s.node txin.prevout = some txPrev ∧ txPrev.nTime + nStakeSplitAge ≤ tx.nTime) := by
  obtain ⟨parts, heq, -, hl, -⟩ := stakeOutputs_eq (s.isSplit k) k.scriptPubKeyOut (credit k vwtxPrev nCoinAge)
  have hv : tx.vout.length = parts.length + 1 := by rw [h.vout_eq, heq, List.length_cons]
  have hvi := h.length_vin
  cases hsp : s.isSplit k with
  | true =>
    rw [hsp, if_pos rfl] at hl
    rw [h.merged hsp] at hvi
    exact .inl ⟨hvi, by omega⟩
  | false =>
    rw [hsp, if_neg Bool.false_ne_true] at hl
    right
    cases hm : vwtxPrev with
    | cons coin more =>
      rw [hm, List.length_cons] at hvi
      exact .inl ⟨by omega, by omega⟩
    | nil =>
      have hp := h.prevouts
      rw [hm] at hvi hp
      obtain ⟨txin, htx⟩ := List.length_eq_one_iff.mp hvi
      rw [htx] at hp
      have hpr : txin.prevout = k.coin.outPoint := (List.cons.inj hp).1
      obtain ⟨hr, ht⟩ := h.found.prev hs (h.coins.subset List.mem_cons_self)
      have hold : k.nBlockTime + nStakeSplitAge ≤ s.timeBack k.n := by
        simpa [Staker.isSplit] using hsp
      refine .inr ⟨hvi, by omega, txin, _, htx, hpr ▸ hr, ?_⟩
      rw [h.nTime_eq]
      omega

theorem reward_eq : getCoinAge s.env s.txSource tx = some nCoinAge ∧
      tx.valueOut = ((k.coin :: vwtxPrev).map COutput.nValue).sum + getProofOfStakeReward nCoinAge := by
  constructor
  · rw [← h.age]
    have hb : ∀ txin ∈ (s.unsignedStake k (k.coin :: vwtxPrev) 0).vin, txin.prevout.isNull = false := by
      intro txin ht
      obtain ⟨coin, hcoin, rfl⟩ := List.mem_map.mp ht
      exact CWallet.outPoint_not_null hs.indices (h.coins.subset hcoin)
    apply getCoinAge_congr h.nTime_eq
    · have hv : (s.unsignedStake k (k.coin :: vwtxPrev) 0).vin.map CTxIn.prevout =
          (k.coin :: vwtxPrev).map COutput.outPoint := List.map_map
      rw [h.prevouts, hv]
    · exact CTransaction.isCoinBase_of_not_null hb
    · exact CTransaction.isCoinBase_of_not_null (h.not_null hs)
  · obtain ⟨parts, heq, hsu, -⟩ := stakeOutputs_eq (s.isSplit k) k.scriptPubKeyOut (credit k vwtxPrev nCoinAge)
    rw [CTransaction.valueOut, h.vout_eq, heq, List.map_cons, List.sum_cons, hsu, zero_add]
    rfl

end Staked

/-- Coins and reward never exceed `MAX_MONEY`. -/
def Staker.Fits (s : Staker) (nSearchInterval : Int) : Prop :=
  ∀ (coins : List COutput) (nReserveBalance : Int) (n nCoinAge : Nat),
    coins.Subperm (s.wallet.availableCoins s.view true) → s.reserveBalance = some nReserveBalance →
    (coins.map COutput.nValue).sum ≤ s.balance - nReserveBalance →
      (n : Int) < min nSearchInterval nMaxStakeSearchInterval →
    getCoinAge s.env s.txSource
      { nTime := s.timeBack n, vin := coins.map fun coin => { prevout := coin.outPoint }, vout := [] } = some nCoinAge →
    (coins.map COutput.nValue).sum + getProofOfStakeReward nCoinAge ≤ maxMoney

theorem Staked.credit_le (h : Staked s nBits nSearchInterval tx k vwtxPrev nCoinAge) (hs : s.Sound)
    (hf : s.Fits nSearchInterval) : credit k vwtxPrev nCoinAge ≤ maxMoney := by
  obtain ⟨nReserveBalance, hr, hl⟩ := h.limit
  apply hf (k.coin :: vwtxPrev) nReserveBalance k.n nCoinAge h.coins hr hl h.found.back
  rw [← (h.reward_eq hs).1]
  have hn : ∀ txin ∈ (k.coin :: vwtxPrev).map (fun coin => ({ prevout := coin.outPoint } : CTxIn)),
      txin.prevout.isNull = false := by
    intro txin ht
    obtain ⟨coin, hcoin, rfl⟩ := List.mem_map.mp ht
    exact CWallet.outPoint_not_null hs.indices (h.coins.subset hcoin)
  apply getCoinAge_congr h.nTime_eq.symm
  · rw [h.prevouts]
    exact List.map_map
  · exact CTransaction.isCoinBase_of_not_null (h.not_null hs)
  · exact CTransaction.isCoinBase_of_not_null hn

/-- What `CreateCoinStake` returns has the shape that `AcceptBlock` asks for, earns what `ConnectInputs` allows,
and passes `CheckTransaction` if no coins become more than `MAX_MONEY` by their reward. -/
theorem createCoinStake_proper (s : Staker) (hs : s.Sound) (nBits : Nat) (nSearchInterval : Int)
    (hfits : s.Fits nSearchInterval) (tx : CTransaction) (h : s.createCoinStake nBits nSearchInterval = some tx) :
    tx.checkTransaction = true ∧ ((tx.vin.length = 1 ∧ tx.vout.length = 3) ∨ (tx.vin.length > 1 ∧ tx.vout.length = 2) ∨
      (tx.vin.length = 1 ∧ tx.vout.length = 2 ∧ ∃ txin txPrev, tx.vin = [txin] ∧
        ChainMan.readTxPrev s.node txin.prevout = some txPrev ∧ txPrev.nTime + nStakeSplitAge ≤ tx.nTime)) ∧
    (∀ pindexPrev b, b.vtx[1]? = some tx → ChainMan.properStake s.env s.node pindexPrev b = some true) ∧
    ∃ coins : List COutput, coins.Subperm (s.wallet.availableCoins s.view true) ∧
      tx.vin.map CTxIn.prevout = coins.map COutput.outPoint ∧
      ∀ pindex, valuesOk s.env (s.node.connectCtx pindex).toTxSource tx (coins.map COutput.nValue).sum = true := by
  obtain ⟨k, vwtxPrev, nCoinAge, hst, -⟩ := Staker.createCoinStake_staked h
  have hc := (hst.checkTransaction_iff hs).mpr (hst.credit_le hs hfits)
  have hsh := hst.shape hs
  refine ⟨hc, hsh, ?_, k.coin :: vwtxPrev, hst.coins, hst.prevouts, ?_⟩
  · intro pindexPrev b hb
    exact ChainMan.properStake_of_shape hb hsh
  · intro pindex
    obtain ⟨hage, hout⟩ := hst.reward_eq hs
    have hsrc : (s.node.connectCtx pindex).toTxSource = s.txSource := rfl
    rw [valuesOk, CTransaction.getValueOut_of_checkTransaction hc, hst.isCoinStake hs, hsrc, hage, hout]
    simp [CTransaction.getMinFee_default]

/-! ### A wallet with one coin -/

namespace StakeSample

open SendSample (coinScript)

def staked (nValue : Int) : CTransaction :=
  { Sample.coinbase 1 nValue with vout := [⟨nValue, coinScript⟩] }

def stakedBlock (nValue : Int) : CBlock := Sample.block 1 0 1 [staked nValue]

def genesisBlock : CBlock := Sample.block 0 0 0 []

def laterBlock : CBlock := Sample.block 2 0 30000 []

noncomputable def env (nValue : Int) : Env :=
  Sample.env [staked nValue] [genesisBlock.toCBlockHeader, (stakedBlock nValue).toCBlockHeader,
    laterBlock.toCBlockHeader]

def blocks (nValue : Int) : BlockMap :=
  ((((∅ : BlockMap).insert 1 (Sample.entry 1 none ⟨1, by decide⟩ 0 1 genesisBlock)).insert 2
    { Sample.entry 2 (some 1) ⟨2, by decide⟩ 1 2 (stakedBlock nValue) with pnext := some 3 }).insert 3
    { Sample.entry 3 (some 2) ⟨3, by decide⟩ 2 3 laterBlock with fStakeModifier := true })

def pos : CDiskTxPos := .ofFile ⟨2, by decide⟩ 8 (8 + CBlock.headerSize + 1)

def node (nValue : Int) : Node :=
  Sample.node ⟨[⟨⟨2, by decide⟩, 8, stakedBlock nValue⟩], ⟨2, by decide⟩, List.pairwise_singleton _ _⟩ (blocks nValue)
    (fun hash => if hash = 1 then some ⟨pos, [.null]⟩ else none) 3 2 []

noncomputable def staker (nValue : Int) : Staker where
  toSender :=
    { SendSample.sender with
      env := env nValue
      wallet := { SendSample.sender.wallet with
        mapWallet := (∅ : ExtTreeMap Hash256 CWalletTx).insert 1 { tx := staked nValue } }
      nTime := 40000
      balance := nValue }
  node := node nValue
  kernelHash := fun _ => 1
  getKey := fun _ => some (List.replicate 33 2)
  reserveBalance := some 0
  order := ⟨fun l => l, fun l => List.Perm.refl l⟩
  fShutdown := false

theorem readTxIndex_some {hash : Hash256}
    (h : (staker nValue).node.txdb.readTxIndex hash = some txindex) : hash = 1 ∧ txindex = ⟨pos, [.null]⟩ := by
  change (if hash = 1 then some ⟨pos, [.null]⟩ else none) = some txindex at h
  split at h
  · exact ⟨‹_›, (some.inj h).symm⟩
  · cases h

theorem mapWallet_some {hash : Hash256}
    (h : (staker nValue).wallet.mapWallet[hash]? = some wtx) : wtx.tx = staked nValue := by
  change ((∅ : ExtTreeMap Hash256 CWalletTx).insert 1 { tx := staked nValue })[hash]? = some wtx at h
  rw [ExtTreeMap.getElem?_insert] at h
  split at h
  · obtain rfl := some.inj h
    rfl
  · cases h

theorem staker_sound : (staker (100 * coin)).Sound where
  nStakeMinAge := by decide
  minAge_le := by decide
  kernelHash := fun _ => Nat.one_ne_zero
  chain := by
    intro hash txindex h
    obtain ⟨rfl, rfl⟩ := readTxIndex_some h
    exact ⟨staked (100 * coin), stakedBlock (100 * coin), by decide +kernel, by decide +kernel, by decide, by decide,
      by decide +kernel⟩
  copies := by
    intro hash wtx txindex tx hw hi htx
    obtain ⟨rfl, rfl⟩ := readTxIndex_some hi
    have hr : (staker (100 * coin)).node.files.readTx pos = some (staked (100 * coin)) := by decide +kernel
    rw [mapWallet_some hw]
    exact some.inj (hr.symm.trans htx)
  indices := by
    intro hash wtx h
    rw [mapWallet_some h]
    decide

theorem staker_fits : (staker (100 * coin)).Fits 1 := by
  intro coins nReserveBalance n nCoinAge hsu _ _ hn ha
  obtain rfl : n = 0 := by
    omega
  obtain ⟨l, hp, hl⟩ := hsu
  have hco : coins = [] ∨ coins = [⟨1, { tx := staked (100 * coin) }, 0, 10⟩] := by
    rcases List.sublist_singleton.mp hl with rfl | rfl
    · exact .inl (List.nil_perm.mp hp)
    · exact .inr (List.singleton_perm.mp hp).symm
  rcases hco with rfl | rfl
  · obtain rfl : 0 = nCoinAge := some.inj ha
    decide
  have hc : getCoinAge (staker (100 * coin)).env (staker (100 * coin)).txSource
      { nTime := (staker (100 * coin)).timeBack 0, vin := [{ prevout := ⟨1, 0⟩ }], vout := [] } = some 46 := by
    decide +kernel
  obtain rfl : 46 = nCoinAge := some.inj (hc.symm.trans ha)
  decide +kernel

/-- A wallet with a hundred coins stakes them. -/
theorem createCoinStake_proper_hundred :
    ∃ tx, (staker (100 * coin)).createCoinStake Sample.easyBits 1 = some tx ∧ tx.checkTransaction = true ∧
      tx.vin.length = 1 ∧ tx.vout.length = 3 := by
  obtain ⟨tx, htx⟩ : ∃ tx, (staker (100 * coin)).createCoinStake Sample.easyBits 1 = some tx :=
    isSome_iff_exists.mp (by decide +kernel)
  obtain ⟨hc, -⟩ := createCoinStake_proper _ staker_sound Sample.easyBits 1 staker_fits tx htx
  have hsh : ((staker (100 * coin)).createCoinStake Sample.easyBits 1).map (fun tx => (tx.vin.length, tx.vout.length)) =
      some (1, 3) := by decide +kernel
  rw [htx, map_some, some.injEq, Prod.mk.injEq] at hsh
  exact ⟨tx, htx, hc, hsh.1, hsh.2⟩

/-- The coinstake of a coin of `MAX_MONEY` is refused by `CheckTransaction`. -/
theorem rich_stake_refused : (staker maxMoney).createCoinStake Sample.easyBits 1 ≠ none ∧
      ((staker maxMoney).createCoinStake Sample.easyBits 1).map CTransaction.checkTransaction = some false := by
  decide +kernel

end StakeSample
end CloakCoin.Wallet
