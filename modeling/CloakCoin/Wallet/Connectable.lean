import CloakCoin.Chain.Connectable
import CloakCoin.Wallet.NewBlock

/-!
# Whether an assembled block can be connected

The transactions of the memory pool fit together, are in the order of their dependencies and leave room for a
coinstake's few signature operations. But the coinstake is chosen by the wallet alone: a transaction of the pool may
spend one of its coins or be the parent of one, and its size is not counted.
-/

namespace CloakCoin.Wallet

open Chain Lib Enigma List
open Std (ExtTreeMap)

/-! ## What was taken from the pool -/

namespace Assembled

variable {m : Miner} {start : List CTransaction} {taken : List TxPriority} {st : Assembly}

section
variable (h : Assembled m start taken st)
include h

theorem pooled (hp : p ∈ taken) : m.Pooled p :=
  h.pool p (mem_append_left _ (mem_append_left _ hp))

theorem nodup_taken : (taken.map fun p => p.tx.getHash m.env).Nodup := by
  have ha := h.scheduled.nodup
  rw [append_assoc, map_append] at ha
  exact ha.of_append_left

theorem spentOnce (hpo : m.PoolConsistent) : ((taken.map TxPriority.tx).flatMap CTransaction.outpoints).Nodup := by
  have hi : ∀ p ∈ taken, m.node.mempool.spends (p.tx.getHash m.env) = some (p.tx.vin.map CTxIn.prevout) := by
    intro p hp
    rw [CTxMemPool.spends, (h.pooled hp).mem, Option.map_some]
  have hk : (taken.map TxPriority.tx).flatMap CTransaction.outpoints =
      (taken.flatMap fun p => p.tx.vin.map CTxIn.prevout).map COutPoint.key := by
    rw [flatMap_map, map_flatMap]
    apply flatMap_congr
    intro p hp
    rw [CTransaction.outpoints, (h.pooled hp).coinBase, if_neg Bool.false_ne_true, map_map]
    rfl
  rw [hk]
  exact (hpo.index.next.nodup_flatMap h.nodup_taken hi).map COutPoint.key_injective

theorem ordered (hpo : m.PoolConsistent) {i j : Nat}
    (hi : (taken.map TxPriority.tx)[i]? = some parent) (hj : (taken.map TxPriority.tx)[j]? = some child)
    (hpa : ∃ n, (parent.getHash m.env, n) ∈ child.outpoints) : i < j := by
  rw [getElem?_map] at hi hj
  obtain ⟨p, hp, rfl⟩ := Option.map_eq_some_iff.mp hi
  obtain ⟨c, hc, rfl⟩ := Option.map_eq_some_iff.mp hj
  refine h.scheduled.ordered.lt h.nodup_taken hp hc ?_
  obtain ⟨n, hn⟩ := hpa
  have hch := h.pooled (mem_of_getElem? hc)
  rw [CTransaction.outpoints, hch.coinBase, if_neg Bool.false_ne_true] at hn
  obtain ⟨txin, hin, hk⟩ := mem_map.mp hn
  have hh : txin.prevout.hash = p.tx.getHash m.env := congrArg Prod.fst hk
  rw [← hh]
  apply Miner.mem_dependsOn hch.complete hin
  rw [ChainMan.readTxPrev, hh, hpo.fresh _ _ (h.pooled (mem_of_getElem? hp)).mem]

end

end Assembled

/-! ## The coinstake -/

/-- The miner counts as the chain does and has the chain's transactions. -/
structure Miner.Sound (m : Miner) : Prop where
  sigOpCount : m.env.sigOpCount = getSigOpCount false
  keys : ∀ id key, m.getKey id = some key → key.length < 2 ^ 32
  copies : ∀ (hash : Hash256) (wtx : CWalletTx) (found : CTxIndex × CTransaction),
    m.wallet.mapWallet[hash]? = some wtx → m.src.lookup ∅ false hash = some found → wtx.tx = found.2

theorem kernelScript_spec {s : Staker} (h : s.kernelScript script = some scriptOut)
    (hk : ∀ id key, s.getKey id = some key → key.length < 2 ^ 32) :
    getSigOpCount false scriptOut ≤ 1 ∧ CScript.isPayToScriptHash script = false ∧
      CScript.isPayToScriptHash scriptOut = false := by
  unfold Staker.kernelScript at h
  split at h
  · rename_i sols hs
    obtain rfl := Option.some.inj h
    have hp := not_payToScriptHash_of_solver hs (by decide)
    exact ⟨getSigOpCount_of_solver hs, hp, hp⟩
  · rename_i id sols hs
    obtain ⟨key, hke, rfl⟩ := Option.map_eq_some_iff.mp h
    exact ⟨getSigOpCount_pushKey (hk _ _ hke), not_payToScriptHash_of_solver hs (by decide),
      not_payToScriptHash_pushKey key⟩
  · cases h

namespace Staked

variable {m : Miner} {nBits : Nat} {nSearchInterval : Int} {tx : CTransaction} {k : StakeKernel}
  {vwtxPrev : List COutput} {nCoinAge : Nat}

theorem length_scriptSig_le (h : txin ∈ tx.vin) : txin.scriptSig.length ≤ tx.serializeSize := by
  have ho : txin.serializeSize ≤ (tx.vin.map CTxIn.serializeSize).sum :=
    single_le_sum (fun _ _ => Nat.zero_le _) _ (mem_map_of_mem h)
  rw [CTxIn.serializeSize, bytesSize] at ho
  rw [CTransaction.serializeSize]
  omega

section
variable (hm : m.Sound) (h : Staked m.toStaker nBits nSearchInterval tx k vwtxPrev nCoinAge)
include hm h

theorem getLegacySigOpCount_le : tx.getLegacySigOpCount m.env ≤ 2 := by
  have hin : (tx.vin.map fun i => m.env.sigOpCount i.scriptSig).sum = 0 := by
    apply sum_eq_zero
    intro n hn
    obtain ⟨txin, ht, rfl⟩ := mem_map.mp hn
    rw [hm.sigOpCount]
    rcases h.signed txin ht with hni | ⟨coin, -, l, hl, -⟩
    · rw [hni]
      rfl
    · have hlen := (length_scriptSig_le ht).trans_lt h.size
      rw [hl] at hlen ⊢
      exact getSigOpCount_pushAll (hlen.trans (by decide))
  obtain ⟨parts, heq, -, hlength, hscripts, -⟩ :=
    stakeOutputs_eq (m.isSplit k) k.scriptPubKeyOut (credit k vwtxPrev nCoinAge)
  have hon := (kernelScript_spec h.found.script hm.keys).1
  have hp : (parts.map fun o => m.env.sigOpCount o.scriptPubKey).sum ≤ parts.length * 1 := by
    have hle : ∀ n ∈ parts.map (fun o => m.env.sigOpCount o.scriptPubKey), n ≤ 1 := by
      intro n hn
      obtain ⟨o, ho, rfl⟩ := mem_map.mp hn
      rw [hm.sigOpCount, hscripts o ho]
      exact hon
    simpa using sum_le_card_nsmul _ 1 hle
  have hma : m.env.sigOpCount [] = 0 := by
    rw [hm.sigOpCount]
    rfl
  rw [CTransaction.getLegacySigOpCount, hin, h.vout_eq, heq, map_cons, sum_cons, hma]
  split at hlength <;> omega

section
variable (hscripts : ∀ coin ∈ k.coin :: vwtxPrev,
  coin.scriptPubKey = k.coin.scriptPubKey ∨ coin.scriptPubKey = k.scriptPubKeyOut)
include hscripts

theorem p2shInput_eq (ht : txin ∈ tx.vin) : m.src.p2shInput m.env txin = 0 := by
  have hpr : txin.prevout ∈ (k.coin :: vwtxPrev).map COutput.outPoint := by
    rw [← h.prevouts]
    exact mem_map_of_mem ht
  obtain ⟨coin, hc, heq⟩ := mem_map.mp hpr
  obtain ⟨-, hk, ho⟩ := kernelScript_spec h.found.script hm.keys
  have hpl : CScript.isPayToScriptHash coin.scriptPubKey = false := by
    rcases hscripts coin hc with hs | hs
    · rw [hs]
      exact hk
    · rw [hs]
      exact ho
  unfold TxSource.p2shInput
  split
  · rename_i prevout hp
    rw [TxSource.prevOutput, ← heq] at hp
    obtain ⟨found, hf, hg⟩ := Option.bind_eq_some_iff.mp hp
    have hco := hm.copies _ _ _ (CWallet.mem_availableCoins (h.coins.subset hc)).1 hf
    have hsc : coin.scriptPubKey = prevout.scriptPubKey := by
      have hg' : found.2.vout[coin.i]? = some prevout := hg
      rw [COutput.scriptPubKey, hco, hg']
      rfl
    rw [← hsc, hpl, if_neg Bool.false_ne_true]
  · rfl

theorem sigOps_le : m.src.sigOps m.env tx ≤ 2 := by
  have hl := h.getLegacySigOpCount_le hm
  have hz : (tx.vin.map (m.src.p2shInput m.env)).sum = 0 := by
    apply sum_eq_zero
    intro n hn
    obtain ⟨txin, ht, rfl⟩ := mem_map.mp hn
    exact h.p2shInput_eq hm hscripts ht
  rw [TxSource.sigOps, hz, ite_self]
  exact hl

end

end

end Staked

/-! ## The block -/

/-- The wallet stakes no coin that the pool spends or makes. -/
structure Miner.CoinsApart (m : Miner) : Prop where
  unspent : ∀ c ∈ m.wallet.availableCoins m.view true, m.node.mempool.mapNextTx c.outPoint = none
  confirmed : ∀ c ∈ m.wallet.availableCoins m.view true, m.node.mempool.mapTx[c.hash]? = none
  room : m.nBlockMaxSize ≤ maxBlockSize - 100000

theorem Miner.createCoinStake_of_findStake {m : Miner} (h : m.findStake pindexPrev = some tx) :
    m.createCoinStake (m.getNextTargetRequired true) (m.nTime - m.nLastCoinStakeSearchTime) = some tx := by
  unfold findStake at h
  split at h
  · exact (Option.filter_eq_some_iff.mp h).1
  · cases h

section
variable {m : Miner} {nBits : Nat} {nSearchInterval : Int} {txCoinStake coinbase : CTransaction} {k : StakeKernel}
  {vwtxPrev : List COutput} {nCoinAge : Nat} {start : List CTransaction} {taken : List TxPriority} {st : Assembly}
  {b : CBlock}

section
variable (h : Staked m.toStaker nBits nSearchInterval txCoinStake k vwtxPrev nCoinAge)
include h

theorem Staked.mem_outpoints (ho : o ∈ txCoinStake.outpoints) :
    ∃ c ∈ m.wallet.availableCoins m.view true, o = c.outPoint.key := by
  unfold CTransaction.outpoints at ho
  split at ho
  · cases ho
  obtain ⟨txin, ht, rfl⟩ := mem_map.mp ho
  have hp : txin.prevout ∈ (k.coin :: vwtxPrev).map COutput.outPoint := by
    rw [← h.prevouts]
    exact mem_map_of_mem ht
  obtain ⟨c, hc, heq⟩ := mem_map.mp hp
  exact ⟨c, h.coins.subset hc, by rw [heq]⟩

theorem Staked.nodup_outpoints : txCoinStake.outpoints.Nodup := by
  unfold CTransaction.outpoints
  split
  · exact nodup_nil
  have hk : txCoinStake.vin.map (·.prevout.key) = ((k.coin :: vwtxPrev).map COutput.outPoint).map COutPoint.key := by
    rw [← h.prevouts, map_map]
    rfl
  rw [hk]
  exact (CWallet.nodup_of_subperm_available h.coins).map COutPoint.key_injective

theorem stakeApart_of_coinsApart (hasm : Assembled m start taken st) (hpoo : m.PoolConsistent) (ha : m.CoinsApart) :
    StakeApart m.env txCoinStake (taken.map TxPriority.tx) := by
  intro tx htx o ho
  obtain ⟨p, hp, rfl⟩ := mem_map.mp htx
  obtain ⟨c, hc, rfl⟩ := h.mem_outpoints ho
  have hpo := hasm.pooled hp
  constructor
  · intro hs
    rw [CTransaction.outpoints, hpo.coinBase, if_neg Bool.false_ne_true] at hs
    obtain ⟨txin, ht, hk⟩ := mem_map.mp hs
    have hso : (m.node.mempool.mapNextTx c.outPoint).isSome = true := by
      rw [hpoo.index.next.isSome_iff]
      refine ⟨p.tx.getHash m.env, p.tx.vin.map CTxIn.prevout, ?_, ?_⟩
      · rw [CTxMemPool.spends, hpo.mem, Option.map_some]
      · rw [← COutPoint.key_injective hk]
        exact mem_map_of_mem ht
    rw [ha.unspent c hc] at hso
    cases hso
  · intro hh
    have hn := ha.confirmed c hc
    have hsa : c.hash = p.tx.getHash m.env := hh
    rw [hsa, hpo.mem] at hn
    cases hn

theorem serializeSize_le_of_room
    (ha : Assembled m start taken st) (hv : b.vtx = coinbase :: txCoinStake :: taken.map TxPriority.tx)
    (hsi : b.vchBlockSig = []) (hb : coinbase.serializeSize = 64)
    (hr : m.nBlockMaxSize ≤ maxBlockSize - 100000) : b.serializeSize ≤ maxBlockSize := by
  have hs := h.size
  have hg : maxBlockSizeGen / 5 = 100000 := by decide
  have hc : getSizeOfCompactSize b.vtx.length ≤ 9 := by
    unfold getSizeOfCompactSize
    split_ifs <;> omega
  have hp : ((taken.map TxPriority.tx).map CTransaction.serializeSize).sum + 1000 ≤ m.nBlockMaxSize := by
    have hsu := ha.size
    have hle := ha.maxSize
    rw [map_map]
    show (taken.map fun p => p.tx.serializeSize).sum + 1000 ≤ _
    omega
  have hh : CBlock.headerSize = 80 := rfl
  rw [CBlock.serializeSize, hsi, show bytesSize [] = 1 from rfl, hv, map_cons, map_cons, sum_cons,
    sum_cons, hb, ← hv]
  omega

end

theorem sum_sigOps_le (hm : m.Sound) (h : Staked m.toStaker nBits nSearchInterval txCoinStake k vwtxPrev nCoinAge)
    (hscripts : ∀ coin ∈ k.coin :: vwtxPrev, coin.scriptPubKey = k.coin.scriptPubKey ∨
      coin.scriptPubKey = k.scriptPubKeyOut) (ha : Assembled m start taken st)
    (hv : b.vtx = coinbase :: txCoinStake :: taken.map TxPriority.tx) (hb : m.src.sigOps m.env coinbase = 0) :
    (b.vtx.map (m.src.sigOps m.env)).sum ≤ maxBlockSigops := by
  have hs := h.sigOps_le hm hscripts
  have hsu := ha.sigOps
  have hma := ha.maxSigOps
  rw [hv, map_cons, map_cons, sum_cons, sum_cons, hb, map_map]
  show 0 + (m.src.sigOps m.env txCoinStake + (taken.map fun p => m.src.sigOps m.env p.tx).sum) ≤ _
  omega

end

/-- A proof-of-stake block can be connected exactly if the transactions of the pool in it have nothing to do with the
coins that are staked, and the size of the coinstake was left room for. It always is if no available coin of the
wallet is spent or made in the memory pool, and `-blockmaxsize` leaves room for a coinstake. -/
theorem new_block_connectable_iff (m : Miner) (hm : m.Sound) (hpool : m.PoolConsistent) (b : CBlock)
    (h : m.createNewBlock true = some b) (hstake : b.isProofOfStake = true) :
    (∀ txCoinStake, b.vtx[1]? = some txCoinStake → (Connectable m.env m.src b ↔
      StakeApart m.env txCoinStake (b.vtx.drop 2) ∧ b.serializeSize ≤ maxBlockSize)) ∧
    (m.CoinsApart → Connectable m.env m.src b) := by
  obtain ⟨pindexPrev, coinbase, cs, taken, st, hf, hb, hasm, hvtx, hsig, ht⟩ :=
    Miner.createNewBlock_assembled hpool h hstake
  obtain ⟨k, vwtxPrev, nCoinAge, hs, hscripts⟩ :=
    Staker.createCoinStake_staked (Miner.createCoinStake_of_findStake hf)
  have hsp : coinbase.outpoints = [] := by
    rw [hb]
    rfl
  have hc : m.src.sigOps m.env coinbase = 0 := by
    rw [hb, TxSource.sigOps, CTransaction.getLegacySigOpCount, hm.sigOpCount]
    rfl
  have hiff : Connectable m.env m.src b ↔
      StakeApart m.env cs (taken.map TxPriority.tx) ∧ b.serializeSize ≤ maxBlockSize := by
    apply connectable_iff hvtx hsp hs.nodup_outpoints (hasm.spentOnce hpool)
    · intro i j parent child hi hj hpar
      exact hasm.ordered hpool hi hj hpar
    · exact sum_sigOps_le hm hs hscripts hasm hvtx hc
    · intro tx htx
      exact (Miner.le_getMaxTransactionTime htx).trans ht
  constructor
  · intro txCoinStake hcs
    rw [hvtx] at hcs ⊢
    obtain rfl : cs = txCoinStake := Option.some.inj hcs
    exact hiff
  · intro ha
    rw [hiff]
    refine ⟨stakeApart_of_coinsApart hs hasm hpool ha, ?_⟩
    apply serializeSize_le_of_room hs hasm hvtx hsig _ ha.room
    rw [hb]
    rfl

/-! ### A wallet with one coin, and another coin of someone else -/

namespace MinerSample

open StakeSample (staked genesisBlock laterBlock)

def other : CTransaction := { nTime := 1, vin := [{ prevout := ⟨9, 0⟩ }], vout := [⟨50 * coin, [7]⟩] }

def payment : CTransaction := { nTime := 30000, vin := [{ prevout := ⟨2, 0⟩ }], vout := [⟨49 * coin, [8]⟩] }

def rival : CTransaction := { nTime := 30000, vin := [{ prevout := ⟨1, 0⟩ }], vout := [⟨99 * coin, [8]⟩] }

def stakedBlock : CBlock := Sample.block 1 0 1 [staked (100 * coin), other]

noncomputable def env : Env :=
  { Sample.env [staked (100 * coin), other, payment, rival]
      [genesisBlock.toCBlockHeader, stakedBlock.toCBlockHeader, laterBlock.toCBlockHeader] with
    sigOpCount := getSigOpCount false }

def index (hash : Hash256) : Option CTxIndex :=
  if hash = 1 then some ⟨StakeSample.pos, [.null]⟩
  else if hash = 2 then
    some ⟨.ofFile 2 8 (8 + CBlock.headerSize + 1 + (staked (100 * coin)).serializeSize), [.null]⟩
  else none

noncomputable def mempool (tx : CTransaction) : CTxMemPool :=
  CTxMemPool.addUnchecked ⟨∅, fun _ => none⟩ (tx.getHash env) tx

noncomputable def node (tx : CTransaction) : Node :=
  { Sample.node ⟨[⟨2, 8, stakedBlock⟩], 2, pairwise_singleton _ _⟩
      (StakeSample.blocks (100 * coin)) index 3 2 [] with
    mempool := mempool tx }

noncomputable def miner (tx : CTransaction) : Miner where
  toStaker := { StakeSample.staker (100 * coin) with
    toSender := { (StakeSample.staker (100 * coin)).toSender with env := env }
    node := node tx }
  adjustedTime := 40000
  reservedKey := some (replicate 33 3)
  dPriority := fun _ => 1
  dFeePerKb := fun _ => 1
  heap := .sorted
  nLastCoinStakeSearchTime := 39999
  getNextTargetRequired := fun _ => Sample.easyBits

theorem miner_sound (hl : ((miner tx).src.lookup ∅ false 1).map Prod.snd = some (staked (100 * coin))) :
    (miner tx).Sound where
  sigOpCount := rfl
  keys := by
    intro id key h
    obtain rfl : replicate 33 2 = key := Option.some.inj h
    decide
  copies := by
    intro hash wtx found hw hf
    change ((∅ : ExtTreeMap Hash256 CWalletTx).insert 1 { tx := staked (100 * coin) })[hash]? = some wtx at hw
    by_cases hh : hash = 1
    · rw [hh] at hw hf
      rw [ExtTreeMap.getElem?_insert_self, Option.some.injEq] at hw
      rw [hf] at hl
      rw [← hw]
      exact (Option.some.inj hl).symm
    · rw [getElem?_insert_ne _ hh, ExtTreeMap.getElem?_empty] at hw
      cases hw

theorem miner_poolConsistent (ha : CTxMemPool.Admitted env ⟨∅, fun _ => none⟩ tx)
    (hf : index (tx.getHash env) = none) : (miner tx).PoolConsistent where
  index := (CTxMemPool.SpendIndex.empty env).addUnchecked ha
  fresh := by
    intro h t hg
    change ((∅ : ExtTreeMap Hash256 CTransaction).insert (tx.getHash env) tx)[h]? = some t at hg
    by_cases hh : h = tx.getHash env
    · rw [hh]
      exact hf
    · rw [getElem?_insert_ne _ hh, ExtTreeMap.getElem?_empty] at hg
      cases hg

theorem admitted (hc : tx.checkTransaction = true) (hl : tx.isCoinBase = false ∧ tx.isCoinStake = false)
    (hlo : tx.nLockTime ≤ 2147483647) (hs : tx.isStandard env = true) : CTxMemPool.Admitted env ⟨∅, fun _ => none⟩ tx :=
  ⟨hc, hl, hlo, .inr hs, ExtTreeMap.getElem?_empty, fun _ _ => rfl⟩

/-- The block with the payment of someone else. -/
theorem new_block_connectable_payment :
    ∃ b, (miner payment).createNewBlock true = some b ∧ b.vtx.length = 3 ∧ Connectable env (miner payment).src b := by
  obtain ⟨b, hb⟩ : ∃ b, (miner payment).createNewBlock true = some b := Option.isSome_iff_exists.mp (by decide +kernel)
  have hs : ((miner payment).createNewBlock true).map (fun b => (b.vtx.length, b.isProofOfStake)) = some (3, true) := by
    decide +kernel
  rw [hb, Option.map_some, Option.some.injEq, Prod.mk.injEq] at hs
  have hp : (miner payment).PoolConsistent :=
    miner_poolConsistent (admitted (by decide +kernel) (by decide) (by decide) (by decide +kernel)) (by decide +kernel)
  refine ⟨b, hb, hs.1, (new_block_connectable_iff (miner payment) (miner_sound (by decide +kernel)) hp b hb
    hs.2).2 ⟨?_, ?_, by decide⟩⟩
  · decide +kernel
  · decide +kernel

/-- A transaction of the pool spends the coin that is staked, and goes into the block with the coinstake. -/
theorem new_block_spends_twice : (miner rival).Sound ∧ (miner rival).PoolConsistent ∧
      ((miner rival).createNewBlock true).map (fun b => (b.isProofOfStake, b.vtx.flatMap CTransaction.outpoints)) =
        some (true, [(1, 0), (1, 0)]) := by
  refine ⟨miner_sound (by decide +kernel), ?_, by decide +kernel⟩
  exact miner_poolConsistent (admitted (by decide +kernel) (by decide) (by decide) (by decide +kernel))
    (by decide +kernel)

end MinerSample

end CloakCoin.Wallet
