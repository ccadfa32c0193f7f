import CloakCoin.Chain.Block
import CloakCoin.Lib.Store
import CloakCoin.Lib.SlotIndex

/-!
# The transaction database and the block files

Positions on disk, the two kinds of index record, `CTxDB` over a store with a write batch, and the
append-only block files.
-/

namespace CloakCoin.Chain

open Lib List

variable {p : Nat} {tx : CTransaction}

/-! ## Positions -/

/-- Position on disk of a transaction. `nFile = -1` is the null position, and only `SetNull` makes it. -/
structure CDiskTxPos where
  nFile : Nat
  nBlockPos : Nat
  nTxPos : Nat
  canonical : nFile = uintMax → nBlockPos = 0 ∧ nTxPos = 0
  deriving DecidableEq

namespace CDiskTxPos

def null : CDiskTxPos := ⟨uintMax, 0, 0, fun _ => ⟨rfl, rfl⟩⟩

/-- A position in a block file; file numbers stop short of the null marker. -/
def ofFile (nFile : Fin uintMax) (nBlockPos nTxPos : Nat) : CDiskTxPos :=
  ⟨nFile, nBlockPos, nTxPos, fun h => absurd h (Nat.ne_of_lt nFile.isLt)⟩

def isNull (p : CDiskTxPos) : Bool := p.nFile == uintMax

/-- `FetchInputs` treats this position as "refer to the memory pool". -/
def memPool : CDiskTxPos := ⟨1, 1, 1, fun h => absurd h (by decide)⟩

theorem isNull_iff {p : CDiskTxPos} : p.isNull = true ↔ p = null := by
  constructor
  · intro h
    have hf : p.nFile = uintMax := by simpa [isNull] using h
    cases p
    simp_all [null]
  · rintro rfl
    rfl

@[simp] theorem ofFile_ne_null (f : Fin uintMax) (b t : Nat) : ofFile f b t ≠ null := by
  intro h
  have : (f : Nat) = uintMax := congrArg CDiskTxPos.nFile h
  exact absurd this (Nat.ne_of_lt f.isLt)

end CDiskTxPos

abbrev CTxIndex := SlotEntry CDiskTxPos

/-- The constructor `CTxIndex(posIn, nOutputs)`. -/
def CTxIndex.ofOutputs (posIn : CDiskTxPos) (nOutputs : Nat) : CTxIndex :=
  ⟨posIn, replicate nOutputs .null⟩

/-! ## Block index -/

/-- An entry of `mapBlockIndex`; pointers to other entries are their hashes. -/
structure CBlockIndex where
  phashBlock : Hash256
  pprev : Option Hash256
  pnext : Option Hash256
  nFile : Fin uintMax
  nBlockPos : Nat
  bnChainTrust : Nat
  nHeight : Nat
  nMint : Int
  nMoneySupply : Int
  /-- The three bits of `nFlags`. -/
  fProofOfStake : Bool
  fStakeEntropy : Bool := false
  fStakeModifier : Bool := false
  nStakeModifier : Nat := 0
  prevoutStake : COutPoint
  nStakeTime : Nat
  hashProofOfStake : Hash256
  nVersion : Int
  hashMerkleRoot : Hash256
  nTime : Nat
  nBits : Nat
  nNonce : Nat
  deriving DecidableEq, Repr

/-- A block index entry with its links turned into hashes, as the database stores it. -/
structure CDiskBlockIndex extends CBlockIndex where
  hashPrev : Hash256
  hashNext : Hash256
  deriving DecidableEq, Repr

namespace CBlockIndex

def toDisk (p : CBlockIndex) : CDiskBlockIndex :=
  { p with hashPrev := p.pprev.getD 0, hashNext := p.pnext.getD 0 }

/-- The header fields, with the previous hash taken from the link. -/
def getBlockHeader (p : CBlockIndex) : CBlockHeader :=
  { nVersion := p.nVersion, hashPrevBlock := p.pprev.getD 0, hashMerkleRoot := p.hashMerkleRoot,
    nTime := p.nTime, nBits := p.nBits, nNonce := p.nNonce }

end CBlockIndex

/-! ## `CTxDB` -/

inductive DbKey where
  | tx (hash : Hash256)
  | blockindex (hash : Hash256)
  | hashBestChain
  deriving DecidableEq, Repr

abbrev DbKey.Val : DbKey → Type
  | .tx _ => CTxIndex
  | .blockindex _ => CDiskBlockIndex
  | .hashBestChain => Hash256

/-- The database; `commits` holds the outcomes of the batch writes to come, an exhausted list
meaning that they succeed. -/
structure CTxDB where
  store : Store DbKey.Val
  commits : List Bool

namespace CTxDB

variable (db : CTxDB) (hash : Hash256)

def readTxIndex : Option CTxIndex := db.store.read (.tx hash)

def updateTxIndex (txindex : CTxIndex) : CTxDB :=
  { db with store := db.store.write (.tx hash) txindex }

def eraseTxIndex (env : Env) (db : CTxDB) (tx : CTransaction) : CTxDB :=
  { db with store := db.store.erase (.tx (tx.getHash env)) }

def readBlockIndex : Option CDiskBlockIndex := db.store.read (.blockindex hash)

/-- The key is the hash of the header being written. -/
def writeBlockIndex (env : Env) (db : CTxDB) (d : CDiskBlockIndex) : CTxDB :=
  { db with store := db.store.write (.blockindex (d.getBlockHeader.getHash env)) d }

def readHashBestChain : Option Hash256 := db.store.read .hashBestChain

def writeHashBestChain : CTxDB :=
  { db with store := db.store.write .hashBestChain hash }

def txnBegin : CTxDB := { db with store := db.store.txnBegin }

def txnAbort : CTxDB := { db with store := db.store.txnAbort }

def txnCommit : Bool × CTxDB :=
  (db.commits.headD true, { store := db.store.txnCommit (db.commits.headD true), commits := db.commits.tail })

/-! ### Views of the transaction index -/

/-- The transaction index the database shows, pending changes included. -/
def txIndex : SlotIndex Hash256 CDiskTxPos := db.readTxIndex

theorem txIndex_updateTxIndex (h : Hash256) (e : CTxIndex) :
    (db.updateTxIndex h e).txIndex = Function.update db.txIndex h (some e) := by
  funext h'
  unfold txIndex readTxIndex updateTxIndex
  by_cases hh : h' = h
  · subst hh
    simp
  · rw [Function.update_of_ne hh, Store.read_write_of_ne]
    simpa using Ne.symm hh

theorem txIndex_eraseTxIndex (env : Env) (db : CTxDB) (tx : CTransaction) :
    (db.eraseTxIndex env tx).txIndex = db.txIndex.erase (env.txHash tx) := by
  funext h'
  unfold txIndex readTxIndex eraseTxIndex SlotIndex.erase CTransaction.getHash
  by_cases hh : h' = env.txHash tx
  · subst hh
    simp [Store.read_erase]
  · rw [Function.update_of_ne hh, Store.read_erase_of_ne]
    simpa using Ne.symm hh

@[simp] theorem txIndex_writeBlockIndex (env : Env) (db : CTxDB) (d : CDiskBlockIndex) :
    (db.writeBlockIndex env d).txIndex = db.txIndex := by
  funext h
  exact Store.read_write_of_ne _ _ (by simp)

@[simp] theorem txIndex_writeHashBestChain (db : CTxDB) (hash : Hash256) :
    (db.writeHashBestChain hash).txIndex = db.txIndex := by
  funext h
  exact Store.read_write_of_ne _ _ (by simp)

@[simp] theorem readHashBestChain_writeBlockIndex (env : Env) (db : CTxDB) (d : CDiskBlockIndex) :
    (db.writeBlockIndex env d).readHashBestChain = db.readHashBestChain :=
  Store.read_write_of_ne _ _ (by simp)

@[simp] theorem readHashBestChain_writeHashBestChain (db : CTxDB) (hash : Hash256) :
    (db.writeHashBestChain hash).readHashBestChain = some hash :=
  Store.read_write_same _ _ _

/-! ### Open batches -/

theorem read_of_txnCommit {db db' : CTxDB} (h : db.txnCommit = (true, db')) :
    db'.store.activeBatch = none ∧ ∀ k, db'.store.read k = db.store.read k := by
  have hok : db.commits.headD true = true := congrArg Prod.fst h
  obtain rfl : db.txnCommit.2 = db' := congrArg Prod.snd h
  unfold txnCommit
  rw [hok]
  exact ⟨rfl, Store.read_txnCommit_true _⟩

structure Batched (db db' : CTxDB) : Prop where
  commits : db'.commits = db.commits
  opened : db.store.activeBatch.isSome = true →
    db'.store.activeBatch.isSome = true ∧ db'.store.disk = db.store.disk

namespace Batched

theorem refl (db : CTxDB) : Batched db db := ⟨rfl, fun h => ⟨h, rfl⟩⟩

theorem trans (h1 : Batched db1 db2) (h2 : Batched db2 db3) : Batched db1 db3 where
  commits := h2.commits.trans h1.commits
  opened h := ⟨(h2.opened (h1.opened h).1).1, (h2.opened (h1.opened h).1).2.trans (h1.opened h).2⟩

theorem write (db : CTxDB) (k : DbKey) (v : k.Val) : Batched db { db with store := db.store.write k v } :=
  ⟨rfl, fun h => ⟨(Store.disk_write_of_batch k v h).2, (Store.disk_write_of_batch k v h).1⟩⟩

theorem erase (db : CTxDB) (k : DbKey) : Batched db { db with store := db.store.erase k } :=
  ⟨rfl, fun h => ⟨(Store.disk_erase_of_batch k h).2, (Store.disk_erase_of_batch k h).1⟩⟩

end Batched

end CTxDB

/-! ## Block files -/

structure BlockRecord where
  nFile : Fin uintMax
  nBlockPos : Nat
  block : CBlock
  deriving DecidableEq, Repr

def txAtFrom (nTxPos : Nat) : Nat → List CTransaction → Option CTransaction
  | _, [] => none
  | off, tx :: rest => if off = nTxPos then some tx else txAtFrom nTxPos (off + tx.serializeSize) rest

namespace BlockRecord

def firstTxPos (r : BlockRecord) : Nat :=
  r.nBlockPos + CBlock.headerSize + getSizeOfCompactSize r.block.vtx.length

def endPos (r : BlockRecord) : Nat := r.nBlockPos + r.block.serializeSize

def txAt (r : BlockRecord) (nTxPos : Nat) : Option CTransaction := txAtFrom nTxPos r.firstTxPos r.block.vtx

def Apart (r s : BlockRecord) : Prop :=
  r.nFile ≠ s.nFile ∨ r.endPos ≤ s.nBlockPos ∨ s.endPos ≤ r.nBlockPos

instance (r s : BlockRecord) : Decidable (r.Apart s) := by unfold Apart; infer_instance

end BlockRecord

theorem txAtFrom_range (h : txAtFrom p off vtx = some tx) :
    off ≤ p ∧ p < off + (vtx.map CTransaction.serializeSize).sum := by
  induction vtx generalizing off with
  | nil => cases h
  | cons t rest ih =>
    simp only [txAtFrom] at h
    have := t.serializeSize_pos
    split_ifs at h with hp
    · simp only [map_cons, sum_cons]
      omega
    · obtain ⟨h1, h2⟩ := ih h
      simp only [map_cons, sum_cons]
      omega

theorem BlockRecord.txAt_range {r : BlockRecord} (h : r.txAt p = some tx) : r.nBlockPos ≤ p ∧ p < r.endPos := by
  obtain ⟨h1, h2⟩ := txAtFrom_range h
  unfold firstTxPos at h1 h2
  unfold endPos CBlock.serializeSize
  omega

/-- The block files: an append-only log of records that do not overlap. -/
structure BlockFiles where
  log : List BlockRecord
  nCurrentBlockFile : Fin uintMax
  apart : log.Pairwise BlockRecord.Apart

namespace BlockFiles

/-- `CTransaction::ReadFromDisk(pos)`; there is no block file 0. -/
def readTx (d : BlockFiles) (pos : CDiskTxPos) : Option CTransaction :=
  if pos.nFile < 1 then none
  else d.log.findSome? fun r => if r.nFile.val = pos.nFile then r.txAt pos.nTxPos else none

/-- The bytes at a block position, as a block. -/
def recordAt (d : BlockFiles) (nFile : Nat) (nBlockPos : Nat) : Option CBlock :=
  if nFile < 1 then none
  else (d.log.find? fun r => r.nFile.val == nFile && r.nBlockPos == nBlockPos).map (·.block)

/-- `CBlock::ReadFromDisk(nFile, nBlockPos)` with its transactions. -/
def readBlock (env : Env) (d : BlockFiles) (nFile : Nat) (nBlockPos : Nat) : Option CBlock :=
  match d.recordAt nFile nBlockPos with
  | none => none
  | some b => if b.isProofOfWork && !checkProofOfWork env (b.getHash env) b.nBits then none else some b

/-- `CBlock::ReadFromDisk(pindex)`: the hash has to match the index. -/
def readFromDisk (env : Env) (d : BlockFiles) (pindex : CBlockIndex) : Option CBlock :=
  match d.readBlock env pindex.nFile pindex.nBlockPos with
  | none => none
  | some b => if b.getHash env = pindex.phashBlock then some b else none

/-- The header read of `GetCoinAge` at the position of a transaction. -/
def readBlockTime (d : BlockFiles) (pos : CDiskTxPos) : Option Nat :=
  (d.recordAt pos.nFile pos.nBlockPos).map (·.nTime)

theorem readTx_of_mem {d : BlockFiles} (hr : r ∈ d.log) (hf : 1 ≤ r.nFile.val) (h : r.txAt p = some tx) :
    d.readTx (.ofFile r.nFile r.nBlockPos p) = some tx := by
  have hlt : ¬ (CDiskTxPos.ofFile r.nFile r.nBlockPos p).nFile < 1 := by
    simp only [CDiskTxPos.ofFile]
    omega
  rw [readTx, if_neg hlt]
  have hap := d.apart
  generalize d.log = log at hr hap
  induction log with
  | nil => cases hr
  | cons s rest ih =>
    rw [pairwise_cons] at hap
    rw [findSome?_cons]
    rcases mem_cons.mp hr with rfl | hr
    · simp [CDiskTxPos.ofFile, h]
    have hra := r.txAt_range h
    have hn : (if s.nFile.val = (CDiskTxPos.ofFile r.nFile r.nBlockPos p).nFile then
        s.txAt (CDiskTxPos.ofFile r.nFile r.nBlockPos p).nTxPos else none) = none := by
      split_ifs with hfi
      · cases hs : s.txAt p with
        | none => simpa [CDiskTxPos.ofFile] using hs
        | some t =>
          have hr' := s.txAt_range hs
          rcases hap.1 r hr with hne | hle | hle
          · exact absurd (Fin.ext hfi) hne
          · omega
          · omega
      · rfl
    rw [hn]
    exact ih hr hap.2

theorem mem_log_of_readFromDisk {d : BlockFiles} {b : CBlock}
    (h : d.readFromDisk env pindex = some b) : ⟨pindex.nFile, pindex.nBlockPos, b⟩ ∈ d.log ∧ 1 ≤ pindex.nFile.val := by
  unfold readFromDisk at h
  split at h
  · cases h
  rename_i b' hb
  split_ifs at h
  cases h
  unfold readBlock at hb
  split at hb
  · cases hb
  rename_i b' hre
  split_ifs at hb
  cases hb
  unfold recordAt at hre
  split_ifs at hre with hf
  obtain ⟨r, hr, hbl⟩ := Option.map_eq_some_iff.mp hre
  have hp := find?_some hr
  simp only [Bool.and_eq_true, beq_iff_eq] at hp
  refine ⟨?_, by omega⟩
  rw [← Fin.ext hp.1, ← hp.2, ← hbl]
  exact mem_of_find?_eq_some hr

end BlockFiles
end CloakCoin.Chain
