import CloakCoin.Chain.Restartable
import CloakCoin.Chain.Serialize
import CloakCoin.Codec.BigNum

/-!
# A restart reproduces the block tree

What `LoadBlockIndex` builds from the database of a `Restartable` node is what the node has in memory.
-/

namespace CloakCoin.Chain

open Lib Wallet
open Std (ExtTreeMap)
open Option Std.ExtTreeMap

variable {p : CBlockIndex}

/-! ## Loading -/

theorem toEntry_noSupply (h : Hash256) (d : CDiskBlockIndex) :
    (d.toEntry h).noSupply = (CDiskBlockIndex.toEntry h ⟨d.toCBlockIndex.shape, d.hashPrev, d.hashNext⟩).noSupply := rfl

theorem CBlockIndex.eq_of_noSupply_eq (h : p.noSupply = q.noSupply) (hm : p.nMint = q.nMint)
    (hs : p.nMoneySupply = q.nMoneySupply) : p = q := by
  cases p
  simp_all [CBlockIndex.noSupply]

theorem Stores.loaded (hs : Stores p.pnext exact p d) (hok : EntryOk env trust h p) (hk : p.phashBlock = h)
    (hp : toPointer (p.pprev.getD 0) = p.pprev) (hn : toPointer (p.pnext.getD 0) = p.pnext) :
    ({ d.toEntry h with bnChainTrust := p.bnChainTrust } : CBlockIndex).noSupply = p.noSupply ∧
      (exact → { d.toEntry h with bnChainTrust := p.bnChainTrust } = p) := by
  have hsa : ({ d.toEntry h with bnChainTrust := p.bnChainTrust } : CBlockIndex).noSupply = p.noSupply := by
    show ({ (d.toEntry h).noSupply with bnChainTrust := p.bnChainTrust } : CBlockIndex) = p.noSupply
    rw [toEntry_noSupply, hs.shape, hs.prev, hs.next, CDiskBlockIndex.toEntry, hp, hn, ← hk]
    have hw := hok.work
    cases p with
    | mk =>
      split_ifs with hpo
      · rfl
      · obtain ⟨rfl, rfl, rfl⟩ := hw (Bool.eq_false_of_not_eq_true hpo)
        rfl
  refine ⟨hsa, fun he => ?_⟩
  obtain ⟨hm, hsu⟩ := hs.amounts he
  exact CBlockIndex.eq_of_noSupply_eq hsa hm hsu

/-- The keys of the block index records, in any order. -/
def CTxDB.Lists (db : CTxDB) (keys : List Hash256) : Prop :=
  ∀ h, h ∈ keys ↔ (db.store.disk (.blockindex h)).isSome = true

/-- What is loaded is the tree and the best chain in memory. -/
structure Reproduces (s : ChainMan) (l : Loaded) : Prop where
  entries : ∀ h : Hash256,
    (l.mapBlockIndex[h]?).map CBlockIndex.noSupply = (s.node.mapBlockIndex[h]?).map CBlockIndex.noSupply
  supply : ∀ tip h : Hash256, s.node.pindexBest = some tip → s.node.Descends tip h →
    l.mapBlockIndex[h]? = s.node.mapBlockIndex[h]?
  hash : l.hashBestChain = s.node.hashBestChain
  best : l.pindexBest = s.node.pindexBest
  height : l.nBestHeight = s.node.nBestHeight
  trust : l.bnBestChainTrust = s.node.bnBestChainTrust
  stakes : l.setStakeSeen = s.setStakeSeen

namespace Restartable

variable {env : Env} {s : ChainMan} {tip : Hash256} {k : Hash256}

theorem toPointer_getD (h : x ≠ some 0) : toPointer (x.getD 0) = x := by
  cases x with
  | none => rfl
  | some k => exact if_neg fun hk => h (congrArg some hk)

theorem links (h : Restartable env s) (hr : s.node.Recorded env tip)
    (hp : s.node.mapBlockIndex[k]? = some p) : p.pprev ≠ some 0 ∧ p.pnext ≠ some 0 := by
  have hz : s.node.mapBlockIndex[(0 : Hash256)]? = none := by
    cases hq : s.node.mapBlockIndex[(0 : Hash256)]? with
    | none => rfl
    | some q => exact absurd rfl (h.entries hq).ne_zero
  constructor
  · intro hpr
    have hl : s.node.prevOf k = some 0 := by
      rw [Node.prevOf, hp]
      exact hpr
    have hi := hr.chained.linked.closed hl
    rw [hz] at hi
    cases hi
  · intro hn
    obtain ⟨-, hpr⟩ := hr.chained.next k 0 (by rw [Node.nextOf, hp]; exact hn)
    rw [Node.prevOf, hz] at hpr
    cases hpr

theorem trustOf_eq {n : Node} (hp : n.mapBlockIndex[k]? = some p) : n.trustOf k = p.bnChainTrust := by
  rw [Node.trustOf, hp]
  rfl

theorem record (hr : s.node.Recorded env tip) (hd : s.node.txdb.readBlockIndex k = some d) :
    ∃ p, s.node.mapBlockIndex[k]? = some p ∧ Stores p.pnext (s.node.Descends tip k) p d := by
  obtain ⟨p, hp, hs⟩ := hr.saved.mirror.entry hd
  rw [Node.nextOf, hp] at hs
  exact ⟨p, hp, hs⟩

theorem recordsOk (h : Restartable env s) (hre : s.node.Recorded env tip) :
    RecordsOk env s.node.txdb.readBlockIndex where
  key {k d} hd := by
    obtain ⟨p, hp, hs⟩ := record hre hd
    show CBlockHeader.getHash env { d.toCBlockIndex.shape.getBlockHeader with hashPrevBlock := d.hashPrev } = k
    rw [hs.shape, hs.prev]
    have hh := hre.headers hp
    exact hh
  ne_zero hd := by
    obtain ⟨p, hp, -⟩ := record hre hd
    exact (h.entries hp).ne_zero
  prev {k d} hd hne := by
    obtain ⟨p, hp, hs⟩ := record hre hd
    rw [hs.prev] at hne ⊢
    cases hpr : p.pprev with
    | none =>
      rw [hpr] at hne
      exact absurd rfl hne
    | some prev =>
      have hl : s.node.prevOf k = some prev := by
        rw [Node.prevOf, hp]
        exact hpr
      obtain ⟨e, he⟩ : ∃ e, s.node.txdb.readBlockIndex prev = some e := by
        rw [← isSome_iff_exists, hre.saved.mirror.isSome]
        exact hre.chained.linked.closed hl
      obtain ⟨q, hq, hs'⟩ := record hre he
      refine ⟨e, he, ?_⟩
      have hr := hre.chained.ranked hl
      rw [Node.heightOf, Node.heightOf, hp, hq] at hr
      have hd' : d.nHeight = p.nHeight := hs.field CBlockIndex.nHeight fun _ => rfl
      have he' : e.nHeight = q.nHeight := hs'.field CBlockIndex.nHeight fun _ => rfl
      simp only [map_some, getD_some] at hr
      omega
  next {k d} hd hne := by
    obtain ⟨p, hp, hs⟩ := record hre hd
    rw [hs.next] at hne ⊢
    cases hn : p.pnext with
    | none =>
      rw [hn] at hne
      exact absurd rfl hne
    | some next =>
      obtain ⟨-, hpr⟩ := hre.chained.next k next (by rw [Node.nextOf, hp]; exact hn)
      obtain ⟨q, hq, -⟩ := bind_eq_some_iff.mp hpr
      rw [getD_some, hre.saved.mirror.isSome, hq]
      rfl
  version {k d} hd := by
    obtain ⟨p, hp, hs⟩ := record hre hd
    have hv : d.nVersion = p.nVersion := hs.field CBlockIndex.nVersion fun _ => rfl
    rw [hv]
    exact (h.entries hp).version

theorem trustOk (h : Restartable env s) (hr : s.node.Recorded env tip) :
    TrustOk env s.node.txdb.readBlockIndex s.node.trustOf := by
  intro k d hd
  obtain ⟨p, hp, hs⟩ := record hr hd
  have hb : d.nBits = p.nBits := hs.field CBlockIndex.nBits fun _ => rfl
  have hpo : d.fProofOfStake = p.fProofOfStake := hs.field CBlockIndex.fProofOfStake fun _ => rfl
  rw [hb, hpo, hs.prev, toPointer_getD (h.links hr hp).1, trustOf_eq hp]
  exact (h.entries hp).trust

theorem load (h : Restartable env s) (hashGenesis : Hash256) {keys : List Hash256} (hke : s.node.txdb.Lists keys) :
    ∃ l, loadBlockIndex env hashGenesis s.node.txdb keys = some l ∧ Reproduces s l := by
  obtain ⟨tip, hr⟩ := h.recorded
  have hdi : ∀ k, s.node.txdb.store.disk (.blockindex k) = s.node.txdb.readBlockIndex k :=
    fun k => (hr.saved.read_eq (.blockindex k)).symm
  have hbe : s.node.txdb.store.disk .hashBestChain = some tip :=
    (hr.saved.read_eq .hashBestChain).symm.trans hr.saved.hash
  obtain ⟨d, hd⟩ : ∃ d, s.node.txdb.readBlockIndex tip = some d := by
    rw [← isSome_iff_exists, hr.saved.mirror.isSome]
    exact hr.chained.indexed
  obtain ⟨l, hl, hen, hsta, hha, hpi, hh, htr⟩ := loadBlockIndex_spec hashGenesis hdi
    (h.recordsOk hr) (h.trustOk hr) hbe hd fun k => by rw [hke k, hdi]
  have hb : ∀ k : Hash256,
      (l.mapBlockIndex[k]?).map CBlockIndex.noSupply = (s.node.mapBlockIndex[k]?).map CBlockIndex.noSupply ∧
      (s.node.Descends tip k → l.mapBlockIndex[k]? = s.node.mapBlockIndex[k]?) := by
    intro k
    rw [hen k]
    cases hk : s.node.txdb.readBlockIndex k with
    | none =>
      have hn : s.node.mapBlockIndex[k]? = none := by
        rw [← not_isSome_iff_eq_none, ← hr.saved.mirror.isSome, hk]
        exact Bool.false_ne_true
      rw [hn]
      exact ⟨rfl, fun _ => rfl⟩
    | some e =>
      obtain ⟨p, hp, hs⟩ := record hr hk
      obtain ⟨hpre, hne⟩ := h.links hr hp
      obtain ⟨hsa, hex⟩ := hs.loaded (h.entries hp) (hr.chained.linked.keys hp) (toPointer_getD hpre)
        (toPointer_getD hne)
      rw [hp, map_some, trustOf_eq hp]
      exact ⟨congrArg some hsa, fun hde => congrArg some (hex hde)⟩
  refine ⟨l, hl, fun k => (hb k).1, fun t k ht hde => ?_, hha.trans hr.chained.hash.symm,
    hpi.trans hr.chained.best.symm, ?_, htr.trans hr.trust.symm, ?_⟩
  · rw [hr.chained.best, some.injEq] at ht
    subst ht
    exact (hb k).2 hde
  · obtain ⟨p, hp, hs⟩ := record hr hd
    have hd' : d.nHeight = p.nHeight := hs.field CBlockIndex.nHeight fun _ => rfl
    rw [hh, hr.height, Node.heightOf, hp, hd']
    rfl
  · ext stake
    rw [hsta, h.stakes]
    have hsa : ∀ {k : Hash256} {p : CBlockIndex} {e : CDiskBlockIndex},
        Stores (s.node.nextOf k) (s.node.Descends tip k) p e →
        e.fProofOfStake = p.fProofOfStake ∧ e.prevoutStake = p.prevoutStake ∧ e.nStakeTime = p.nStakeTime := by
      intro k p e hs
      exact ⟨hs.field CBlockIndex.fProofOfStake fun _ => rfl, hs.field CBlockIndex.prevoutStake fun _ => rfl,
        hs.field CBlockIndex.nStakeTime fun _ => rfl⟩
    constructor
    · rintro ⟨k, e, he, hpo, hst⟩
      obtain ⟨p, hp, hs⟩ := hr.saved.mirror.entry he
      obtain ⟨hf, hpr, hti⟩ := hsa hs
      rw [hf] at hpo
      rw [hpr, hti] at hst
      exact ⟨k, p, hp, hpo, hst⟩
    · rintro ⟨k, p, hp, hpo, hst⟩
      obtain ⟨e, he, hs⟩ := hr.saved.mirror.record hp
      obtain ⟨hf, hpr, hti⟩ := hsa hs
      rw [← hf] at hpo
      rw [← hpr, ← hti] at hst
      exact ⟨k, e, he, hpo, hst⟩

end Restartable

/-! ## The run -/

/-- The state after the genesis block was written. -/
structure ChainMan.AtGenesis (env : Env) (s : ChainMan) (g : CBlockIndex) : Prop where
  blocks : ∀ h : Hash256, s.node.mapBlockIndex[h]? = if h = g.phashBlock then some g else none
  prev : g.pprev = none
  next : g.pnext = none
  header : g.getBlockHeader.getHash env = g.phashBlock
  entry : EntryOk env s.node.trustOf g.phashBlock g
  work : g.fProofOfStake = false
  genesis : s.node.pindexGenesisBlock = some g.phashBlock
  best : s.node.pindexBest = some g.phashBlock
  hash : s.node.hashBestChain = g.phashBlock
  height : s.node.nBestHeight = g.nHeight
  trust : s.node.bnBestChainTrust = g.bnChainTrust
  idle : s.node.txdb.store.activeBatch = none
  records : ∀ h, s.node.txdb.readBlockIndex h = if h = g.phashBlock then some g.toDisk else none
  committed : s.node.txdb.readHashBestChain = some g.phashBlock
  stakes : s.setStakeSeen = ∅

theorem ChainMan.AtGenesis.restartable (h : s.AtGenesis env g) : Restartable env s := by
  have he : ∀ {k : Hash256} {p : CBlockIndex}, s.node.mapBlockIndex[k]? = some p → k = g.phashBlock ∧ p = g := by
    intro k p hp
    rw [h.blocks] at hp
    split_ifs at hp with hk
    exact ⟨hk, (some.inj hp).symm⟩
  have hs : s.node.mapBlockIndex[g.phashBlock]? = some g := by rw [h.blocks, if_pos rfl]
  have hpr : ∀ k, s.node.prevOf k = none := by
    intro k
    refine bind_eq_none_iff.mpr fun p hp => ?_
    obtain ⟨-, rfl⟩ := he hp
    exact h.prev
  have hn : ∀ k, s.node.nextOf k = none := by
    intro k
    refine bind_eq_none_iff.mpr fun p hp => ?_
    obtain ⟨-, rfl⟩ := he hp
    exact h.next
  have hc : s.node.Chained g.phashBlock := by
    refine ⟨⟨fun hp => ?_, fun hp => ?_⟩, fun a b hab => ?_, ?_, h.best, h.hash, by rw [hs]; rfl, fun j k hjk => ?_⟩
    · obtain ⟨rfl, rfl⟩ := he hp
      rfl
    · rw [hpr] at hp
      cases hp
    · rw [hpr] at hab
      cases hab
    · rw [h.genesis]
      exact some_ne_none _
    · rw [hn] at hjk
      cases hjk
  have hm : Mirror s.node.mapBlockIndex s.node.nextOf (s.node.Descends g.phashBlock) s.node.txdb.readBlockIndex := by
    intro k
    rw [h.blocks, h.records, hn]
    split_ifs with hk
    · refine .some ⟨rfl, rfl, ?_, fun _ => ⟨rfl, rfl⟩⟩
      show g.pnext.getD 0 = 0
      rw [h.next]
      rfl
    · exact .none
  refine ⟨⟨g.phashBlock, hc, fun hp => ?_, ⟨h.idle, h.committed, hm⟩, ?_, ?_⟩, fun k p prev hp hl => ?_,
    fun hp => ?_, fun stake => ?_⟩
  · obtain ⟨rfl, rfl⟩ := he hp
    exact h.header
  · rw [h.height, Node.heightOf, hs]
    rfl
  · rw [h.trust, Node.trustOf, hs]
    rfl
  · obtain ⟨-, rfl⟩ := he hp
    rw [h.prev] at hl
    cases hl
  · obtain ⟨rfl, rfl⟩ := he hp
    exact h.entry
  · rw [h.stakes]
    refine iff_of_false (Finset.notMem_empty stake) ?_
    rintro ⟨k, p, hp, hpo, -⟩
    obtain ⟨-, rfl⟩ := he hp
    rw [h.work] at hpo
    cases hpo

/-- **A restart reproduces the block tree.** In every run of blocks and checkpoints from genesis whose steps lose no
index record and postpone no block, the index is rebuilt from the database, in whatever order the records are read. -/
theorem restart_reproduces (env : Env) (hashGenesis : Hash256) (s₀ s : ChainMan) (g : CBlockIndex)
    (h₀ : s₀.AtGenesis env g)
    (hrun : Reach (treeStep env) (StepSafe env) s₀ s) : (∃ keys, s.node.txdb.Lists keys) ∧
      ∀ keys, s.node.txdb.Lists keys → ∃ l, loadBlockIndex env hashGenesis s.node.txdb keys =
        some l ∧ Reproduces s l := by
  have hinv : Restartable env s := hrun.inv h₀.restartable fun a s s' h hs hst => h.step hs hst
  refine ⟨?_, fun keys hk => hinv.load hashGenesis hk⟩
  obtain ⟨tip, hrec⟩ := hinv.recorded
  refine ⟨s.node.mapBlockIndex.keys, fun k => ?_⟩
  rw [mem_keys, mem_iff_isSome_getElem?, ← hrec.saved.mirror.isSome,
    ← hrec.saved.read_eq (.blockindex k)]
  rfl

/-! ### A block that could not be made the best one at once, and an invalid block on top of it -/

theorem pindexBest_of_load {db : CTxDB} {keys : List Hash256} {l : Loaded}
    (hb : db.store.disk .hashBestChain = some tip) (h : loadBlockIndex env hashGenesis db keys = some l) :
    l.pindexBest = some tip := by
  unfold loadBlockIndex at h
  split at h
  · cases h
  rw [hb, loadBest] at h
  split at h
  · cases h
  · cases h
    rfl

namespace Sample

noncomputable def genesisRecord : CBlockIndex :=
  { genesisEntry with bnChainTrust := CBlockIndex.getBlockTrust forkEnv easyBits false }

noncomputable def recordedMan (commits : List Bool) : ChainMan where
  node := { startMan.node with
    txdb := {
      store := {
        disk := fun
          | .tx _ => none
          | .blockindex h => if h = 1 then some genesisRecord.toDisk else none
          | .hashBestChain => some 1
        activeBatch := none }
      commits := commits }
    mapBlockIndex := (∅ : BlockMap).insert 1 genesisRecord
    bnBestChainTrust := genesisRecord.bnChainTrust }
  mapOrphanBlocks := ∅
  mapOrphanBlocksByPrev := []
  setStakeSeen := ∅
  setStakeSeenOrphan := ∅
  mapProofOfStake := ∅
  checkpoints := ⟨1, 0, 0⟩

theorem recordedMan_atGenesis (commits : List Bool) : (recordedMan commits).AtGenesis forkEnv genesisRecord where
  blocks h := by
    show ((∅ : BlockMap).insert 1 genesisRecord)[h]? = if h = 1 then some genesisRecord else none
    by_cases hh : h = 1
    · rw [hh, getElem?_insert_self, if_pos rfl]
    · rw [getElem?_insert_ne _ hh, if_neg hh, getElem?_empty]
  prev := rfl
  next := rfl
  header := by decide
  entry := by
    refine ⟨by decide, by decide, ?_, fun _ => ⟨rfl, rfl, rfl⟩⟩
    show genesisRecord.bnChainTrust = (0 + CBlockIndex.getBlockTrust forkEnv easyBits false) % 2 ^ 256
    decide
  work := rfl
  genesis := rfl
  best := rfl
  hash := rfl
  height := rfl
  trust := rfl
  idle := rfl
  records _ := rfl
  committed := rfl
  stakes := rfl

noncomputable def afterEntry (s : ChainMan) (b : CBlock) : ChainMan := (treeStep forkEnv (.block rules b) s).getD s

theorem treeStep_afterEntry (h : (treeStep forkEnv (.block rules b) s).isSome = true) :
    treeStep forkEnv (.block rules b) s = some (afterEntry s b) := by
  obtain ⟨s', hs'⟩ := isSome_iff_exists.mp h
  rw [afterEntry, hs']
  rfl

end Sample

open Sample in
theorem restart_reproduces_first : (afterEntry (recordedMan []) rivalBlock).node.pindexBest = some 3 ∧
      (∃ keys, (afterEntry (recordedMan []) rivalBlock).node.txdb.Lists keys) ∧
      ∀ keys, (afterEntry (recordedMan []) rivalBlock).node.txdb.Lists keys →
        ∃ l, loadBlockIndex forkEnv 1 (afterEntry (recordedMan []) rivalBlock).node.txdb keys = some l ∧
          Reproduces (afterEntry (recordedMan []) rivalBlock) l := by
  have hs : StepSafe forkEnv (.block rules rivalBlock) (recordedMan []) := ⟨by decide, by decide, rfl, le_refl _⟩
  exact ⟨by decide, restart_reproduces forkEnv 1 (recordedMan []) _ genesisRecord (recordedMan_atGenesis [])
    (.step (.block rules rivalBlock) .start hs (treeStep_afterEntry (by decide)))⟩

open Sample in
/-- The batch that makes the first block the best one is not written. With the invalid block on top of it, the first
block becomes the best one on disk and the invalid one in memory. -/
theorem invalid_best_is_lost : (recordedMan [true, false]).AtGenesis forkEnv genesisRecord ∧
      Reach (treeStep forkEnv) (fun _ _ => True) (recordedMan [true, false])
        (afterEntry (afterEntry (recordedMan [true, false]) rivalBlock) greedyBlock) ∧
      (afterEntry (afterEntry (recordedMan [true, false]) rivalBlock) greedyBlock).node.pindexBest = some 4 ∧
      (loadBlockIndex forkEnv 1
        (afterEntry (afterEntry (recordedMan [true, false]) rivalBlock) greedyBlock).node.txdb
          [1, 3, 4]).isSome = true ∧
      ∀ keys l, loadBlockIndex forkEnv 1
          (afterEntry (afterEntry (recordedMan [true, false]) rivalBlock) greedyBlock).node.txdb keys = some l →
        l.pindexBest = some 3 := by
  have hf := treeStep_afterEntry (s := recordedMan [true, false]) (b := rivalBlock) (by decide)
  have hs := treeStep_afterEntry (s := afterEntry (recordedMan [true, false]) rivalBlock) (b := greedyBlock) (by decide)
  refine ⟨recordedMan_atGenesis _, .step _ (.step _ .start trivial hf) trivial hs, by decide, by decide,
    fun keys l h => ?_⟩
  exact pindexBest_of_load (by decide) h

/-! ## The best invalid trust -/

/-- `WriteBestInvalidTrust` writes a `uint256`. -/
def writeBestInvalidTrust (bnBestInvalidTrust : Nat) : Bytes := (Format.uint 32).write bnBestInvalidTrust

/-- `ReadBestInvalidTrust` reads a `CBigNum`, which is stored as a vector of bytes. -/
def readBestInvalidTrust (record : Option Bytes) : Option Int :=
  (record.bind (Format.bytes maxSize).read).bind fun (vch, _) => Codec.CBigNum.setvch vch

inductive TrustEvent where
  | invalidChainFound (pindexNew : CBlockIndex)
  /-- A restart, with what the other globals are after it. -/
  | loadBlockIndex (loaded : Node)

namespace TrustEvent

/-- The globals and the record of the database. -/
def step : Node × Option Bytes → TrustEvent → Node × Option Bytes
  | (n, record), invalidChainFound pindexNew =>
    (n.invalidChainFound pindexNew, if pindexNew.bnChainTrust > n.bnBestInvalidTrust then
      some (writeBestInvalidTrust pindexNew.bnChainTrust) else record)
  | (_, record), loadBlockIndex loaded =>
    -- read into a local variable that hides the global one
    let _bnBestInvalidTrust := readBestInvalidTrust record
    ({ loaded with bnBestInvalidTrust := 0 }, record)

def trust : TrustEvent → Nat
  | invalidChainFound pindexNew => pindexNew.bnChainTrust
  | loadBlockIndex _ => 0

/-- From a fresh data directory. -/
def run (n : Node) (es : List TrustEvent) : Node × Option Bytes :=
  es.foldl step ({ n with bnBestInvalidTrust := 0 }, none)

/-- The most trust of the blocks that were found invalid. -/
def maxTrust (es : List TrustEvent) : Nat := (es.map trust).foldl max 0

/-- Global and record after blocks with at most this trust. -/
def Kept (trust : Nat) (s : Node × Option Bytes) : Prop :=
  s.1.bnBestInvalidTrust = trust ∧ s.2 = if trust = 0 then none else some (writeBestInvalidTrust trust)

theorem maxTrust_concat (es : List TrustEvent) (e : TrustEvent) : maxTrust (es ++ [e]) = max (maxTrust es) e.trust := by
  simp [maxTrust]

theorem run_concat (n : Node) (es : List TrustEvent) (e : TrustEvent) : run n (es ++ [e]) = step (run n es) e := by
  simp [run]

theorem Kept.step (h : Kept t s) (hf : ∀ n, e = loadBlockIndex n → t = 0) : Kept (max t e.trust) (step s e) := by
  obtain ⟨n, record⟩ := s
  obtain ⟨rfl, hr⟩ := h
  dsimp only at hf hr ⊢
  cases e with
  | invalidChainFound p =>
    unfold Kept TrustEvent.step Node.invalidChainFound trust
    dsimp only
    split
    · rename_i hlt
      rw [max_eq_right hlt.le, if_neg (Nat.ne_of_gt (Nat.zero_lt_of_lt hlt))]
      exact ⟨rfl, rfl⟩
    · rename_i hge
      rw [max_eq_left (Nat.not_lt.mp hge)]
      exact ⟨rfl, hr⟩
  | loadBlockIndex loaded =>
    rw [hf loaded rfl] at hr ⊢
    exact ⟨rfl, hr⟩

end TrustEvent

open TrustEvent in
/-- **The best invalid trust is the maximum, in memory and on disk,
exactly if no restart comes after a block with trust.** -/
theorem bestInvalidTrust_survives_iff (n : Node) (es : List TrustEvent) :
    (∀ l, l <+: es → Kept (maxTrust l) (run n l)) ↔ ∀ l loaded, l ++ [.loadBlockIndex loaded] <+:
      es → maxTrust l = 0 := by
  constructor
  · intro h l loaded hl
    have hk := (h _ hl).1
    rw [run_concat, maxTrust_concat] at hk
    exact Nat.max_eq_zero_iff.mp hk.symm |>.1
  · intro h l hl
    induction l using List.reverseRecOn with
    | nil => exact ⟨rfl, rfl⟩
    | append_singleton l e ih =>
      rw [maxTrust_concat, run_concat]
      refine (ih ((List.prefix_append l [e]).trans hl)).step fun m hm => h l m ?_
      rwa [← hm]

open Sample TrustEvent in
/-- After a restart a block with less trust counts as the best one, and its trust replaces the greater one on disk.
What is read back is not what was written either. -/
theorem bestInvalidTrust_lost : let n := (recordedMan []).node
    let found (t : Nat) := invalidChainFound { genesisEntry with bnChainTrust := t }
    let es := [found 5, .loadBlockIndex n, found 3]
    maxTrust es = 5 ∧ (run n es).1.bnBestInvalidTrust = 3 ∧ (run n [found 5]).2 = some (writeBestInvalidTrust 5) ∧
      (run n es).2 = some (writeBestInvalidTrust 3) ∧ readBestInvalidTrust (some (writeBestInvalidTrust 5)) = some 0 :=
  ⟨rfl, rfl, rfl, rfl, by decide⟩

end CloakCoin.Chain
