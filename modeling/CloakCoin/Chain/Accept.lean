import CloakCoin.Chain.Checkpoint

/-!
# Accepting a block

`ProcessBlock` with `AcceptBlock` and `AddToBlockIndex`, the orphan blocks and the stakes seen. What the rest of the
node decides about a block is the record `AcceptRules`, taken anew for each call.

A check that reads past the end of a vector gives `none`: the call has no defined outcome.
-/

namespace CloakCoin.Chain

open Lib
open Std (ExtTreeMap)
open List

variable {fuel : Nat}

/-! ## Appending to the block files -/

namespace BlockFiles

variable {d : BlockFiles}

/-- Size of a block file. -/
def fileEnd (d : BlockFiles) (nFile : Fin uintMax) : Nat :=
  ((d.log.filter fun r => r.nFile = nFile).map BlockRecord.endPos).foldr max 0

theorem endPos_le_fileEnd (hr : r ∈ d.log) : r.endPos ≤ d.fileEnd r.nFile := by
  have hm : r.endPos ∈ (d.log.filter fun s => s.nFile = r.nFile).map BlockRecord.endPos :=
    mem_map_of_mem (mem_filter.mpr ⟨hr, decide_eq_true rfl⟩)
  unfold fileEnd
  generalize (d.log.filter fun s => s.nFile = r.nFile).map BlockRecord.endPos = l at hm
  induction l with
  | nil => cases hm
  | cons x l ih =>
    rcases mem_cons.mp hm with rfl | hm
    · exact le_max_left _ _
    · exact (ih hm).trans (le_max_right _ _)

/-- The file that `AppendBlockFile` opens. -/
def appendFile (d : BlockFiles) : Nat → Fin uintMax → Option (Fin uintMax)
  | 0, _ => none
  | fuel + 1, nFile =>
    if nFile.val < 1 then none
    else if d.fileEnd nFile < 0x7F000000 - 0x02000000 then some nFile
    else if h : nFile.val + 1 < uintMax then appendFile d fuel ⟨nFile.val + 1, h⟩
    else none

/-- `CBlock::WriteToDisk`: eight bytes of index header, then the block. -/
def append (d : BlockFiles) (nFile : Fin uintMax) (b : CBlock) : BlockFiles where
  log := d.log ++ [⟨nFile, d.fileEnd nFile + 8, b⟩]
  nCurrentBlockFile := nFile
  apart := by
    refine pairwise_append.mpr ⟨d.apart, pairwise_singleton _ _, fun r hr s hs => ?_⟩
    obtain rfl := mem_singleton.mp hs
    by_cases hfile : r.nFile = nFile
    · have hend := endPos_le_fileEnd hr
      rw [hfile] at hend
      exact .inr (.inl (hend.trans (Nat.le_add_right _ 8)))
    · exact .inl hfile

theorem appendFile_pos (h : d.appendFile fuel f = some nFile) : 1 ≤ nFile.val := by
  induction fuel generalizing f with
  | zero => cases h
  | succ fuel ih =>
    unfold appendFile at h
    split at h
    · cases h
    split at h
    · cases h
      omega
    split at h
    · exact ih h
    · cases h

theorem recordAt_append (hp : 1 ≤ nFile.val) (b : CBlock) :
    (d.append nFile b).recordAt nFile (d.fileEnd nFile + 8) = some b ∧
      ∀ {f p : Nat} {b' : CBlock}, d.recordAt f p = some b' → (d.append nFile b).recordAt f p = some b' := by
  constructor
  · have hn : d.log.find? (fun r => r.nFile.val == nFile.val && r.nBlockPos == d.fileEnd nFile + 8) = none := by
      refine find?_eq_none.mpr fun r hr => ?_
      rw [Bool.and_eq_true, beq_iff_eq, beq_iff_eq]
      rintro ⟨hfi, hat⟩
      have he := endPos_le_fileEnd hr
      rw [Fin.ext hfi, BlockRecord.endPos, hat] at he
      omega
    rw [recordAt, if_neg (by omega), append, find?_append, hn]
    simp
  · intro f p b' h
    unfold recordAt at h ⊢
    split at h
    · cases h
    rename_i hf
    obtain ⟨r, hr, hb⟩ := Option.map_eq_some_iff.mp h
    rw [if_neg hf, append, find?_append, hr]
    exact congrArg some hb

end BlockFiles

/-! ## State and surroundings -/

/-- The globals of `main.cpp` that blocks pass through. -/
structure ChainMan where
  node : Node
  mapOrphanBlocks : ExtTreeMap Hash256 CBlock
  /-- The multimap, in the order of insertion. -/
  mapOrphanBlocksByPrev : List (Hash256 × CBlock)
  setStakeSeen : Finset (COutPoint × Nat)
  setStakeSeenOrphan : Finset (COutPoint × Nat)
  mapProofOfStake : ExtTreeMap Hash256 Hash256
  checkpoints : SyncCheckpoints

/-- What `AddToBlockIndex` computes for the stake modifier. -/
structure StakeFields where
  entropyBit : Bool
  nStakeModifier : Nat
  fGeneratedStakeModifier : Bool

/-- What the rest of the node decides during one call of `ProcessBlock`. -/
structure AcceptRules where
  /-- `GetNextTargetRequired`. -/
  nextTargetRequired : Node → CBlockIndex → Bool → Nat
  /-- `Checkpoints::CheckHardened`. -/
  checkHardened : Nat → Hash256 → Bool
  /-- `-nosynccheckpoints` is set. -/
  noSyncCheckpoints : Bool
  /-- There is a synchronized checkpoint, and the target of the block is too easy for the time since. -/
  tooLittleProof : Node → CBlock → Bool
  /-- `CheckProofOfStake`, with the hash of the proof. -/
  checkProofOfStake : Node → CTransaction → Nat → Option Hash256
  /-- Stake entropy bit and stake modifier, unless it cannot be computed or does not match its checkpoints. -/
  stakeFields : Node → CBlock → Option StakeFields
  adjustedTime : Int
  /-- There is room on the disk and the block file can be written. -/
  diskOk : Bool
  /-- The blocks whose bytes can be read. -/
  io : Hash256 → Bool
  /-- A new checkpoint can be written to the database. -/
  syncCheckpointWritten : Bool

def cutoffPowBlock : Nat := 10080

def getMaxClockDrift (nHeight : Nat) : Int := if nHeight > 59860 then 8 * 60 else 2 * 60 * 60

def nStakeSplitAge : Nat := 60 * 60 * 24 * 30

def allChecks : List (Option Bool) → Option Bool
  | [] => some true
  | none :: _ => none
  | some false :: _ => some false
  | some true :: rest => allChecks rest

theorem allChecks_eq_true (h : allChecks l = some true) (hc : c ∈ l) : c = some true := by
  induction l with
  | nil => cases hc
  | cons x l ih =>
    rcases x with _ | _ | _
    · cases h
    · cases h
    · rcases mem_cons.mp hc with rfl | hc
      · rfl
      · exact ih h hc

/-- `std::equal(expect.begin(), expect.end(), bytes.begin())`. -/
def equalBytes : List UInt8 → List UInt8 → Option Bool
  | [], _ => some true
  | _ :: _, [] => none
  | e :: expect, b :: bytes => if e = b then equalBytes expect bytes else some false

namespace CBlockIndex

def getBlockTrust (env : Env) (nBits : Nat) (fProofOfStake : Bool) : Nat :=
  let (bnTarget, fNegative, fOverflow) := setCompact nBits
  if fNegative || fOverflow || bnTarget == 0 then 0
  else if fProofOfStake then (2 ^ 256 - 1 - bnTarget) / (bnTarget + 1) + 1
  else max (env.bnProofOfWorkLimit / (bnTarget + 1)) 1

/-- `CBlockIndex(nFile, nBlockPos, block)`. -/
def ofBlock (hash : Hash256) (nFile : Fin uintMax) (nBlockPos : Nat) (b : CBlock) : CBlockIndex :=
  let stake := if b.isProofOfStake then b.vtx[1]? else none
  { phashBlock := hash, pprev := none, pnext := none, nFile, nBlockPos, bnChainTrust := 0, nHeight := 0, nMint := 0
    nMoneySupply := 0, fProofOfStake := b.isProofOfStake
    prevoutStake := (stake.bind fun tx => tx.vin.head?.map CTxIn.prevout).getD .null
    nStakeTime := (stake.map CTransaction.nTime).getD 0
    hashProofOfStake := 0, nVersion := b.nVersion, hashMerkleRoot := b.hashMerkleRoot, nTime := b.nTime
    nBits := b.nBits, nNonce := b.nNonce }

end CBlockIndex

def CBlock.getProofOfStake (b : CBlock) : COutPoint × Nat :=
  match b.isProofOfStake, b.vtx[1]? with
  | true, some tx1 => ((tx1.vin.head?.map CTxIn.prevout).getD .null, tx1.nTime)
  | _, _ => (.null, 0)

namespace ChainMan

def setNode (s : ChainMan) (n : Node) : ChainMan := { s with node := n }

section
variable (env : Env) (rules : AcceptRules)

/-! ## `AcceptBlock` -/

def isSuperMajority (n : Node) (minVersion : Int) (pstart : CBlockIndex) (nRequired nToCheck : Nat) : Bool :=
  decide (nRequired ≤ (((n.ancestorsOf pstart).take nToCheck).filter fun p => decide (minVersion ≤ p.nVersion)).length)

/-- `txPrev.ReadFromDisk(txdb, prevout, txindex)`. -/
def readTxPrev (n : Node) (prevout : COutPoint) : Option CTransaction :=
  match n.txdb.readTxIndex prevout.hash with
  | none => none
  | some txindex =>
    match n.files.readTx txindex.pos with
    | none => none
    | some tx => if prevout.n ≥ tx.vout.length then none else some tx

def properStake (n : Node) (pindexPrev : CBlockIndex) (b : CBlock) : Option Bool :=
  if b.nVersion ≤ 5 then some true
  else
    match b.vtx[1]? with
    | none => none
    | some tx1 =>
      let noop := tx1.vin.length = 1 ∧ tx1.vout.length = 2
      let txPrev := if noop then (tx1.vin.head?).bind fun txin => readTxPrev n txin.prevout else none
      if noop ∧ txPrev = none then some false
      else if isSuperMajority n 6 pindexPrev (if env.fTestNet then 51 else 5400)
        (if env.fTestNet then 100 else 7200) then
        some (decide ((tx1.vin.length = 1 ∧ tx1.vout.length = 3) ∨ (tx1.vin.length > 1 ∧ tx1.vout.length = 2) ∨
          (noop ∧ ((txPrev.map CTransaction.nTime).getD 0 + nStakeSplitAge) % 2 ^ 32 ≤ tx1.nTime)))
      else some true

/-- The checks of `AcceptBlock` before it looks at the coinbase script. -/
def earlyChecks (n : Node) (c : SyncCheckpoints) (pindexPrev : CBlockIndex) (b : CBlock) : List (Option Bool) :=
  let nHeight := pindexPrev.nHeight + 1
  [ some (!(b.isProofOfWork && decide (nHeight > cutoffPowBlock))),
    some (decide (b.nBits = rules.nextTargetRequired n pindexPrev b.isProofOfStake)),
    some (decide ((b.nTime : Int) ≤ rules.adjustedTime + getMaxClockDrift nHeight)),
    b.vtx.head?.map fun tx0 => decide ((b.nTime : Int) ≤ tx0.nTime + getMaxClockDrift nHeight),
    some (b.vtx.all fun tx => tx.isFinal nHeight b.nTime n.nBestHeight rules.adjustedTime),
    some (rules.checkHardened nHeight (b.getHash env)),
    (c.checkSync env n (b.getHash env) pindexPrev).map (· || rules.noSyncCheckpoints),
    some (!(decide (b.nVersion < 3) && decide (nHeight > if env.fTestNet then 0 else 14060)))]

/-- The checks of `AcceptBlock` before the block is written. -/
def acceptable (n : Node) (c : SyncCheckpoints) (pindexPrev : CBlockIndex) (b : CBlock) : Option Bool :=
  allChecks (earlyChecks env rules n c pindexPrev b ++ [
    -- the coinbase starts with the serialized block height
    b.coinbaseIn.bind fun txin => equalBytes (scriptInt (pindexPrev.nHeight + 1)) txin.scriptSig,
    properStake env n pindexPrev b,
    some (!(decide (b.nVersion < 5) &&
      isSuperMajority n 5 pindexPrev (if env.fTestNet then 75 else 17136) (if env.fTestNet then 100 else 20160)))])

variable (s : ChainMan) (b : CBlock)

/-- The entry that `AddToBlockIndex` builds. -/
def newIndex (nFile : Fin uintMax) (nBlockPos : Nat) : CBlockIndex :=
  let hash := b.getHash env
  let prev := s.node.mapBlockIndex[b.hashPrevBlock]?
  let stake := (rules.stakeFields s.node b).getD ⟨false, 0, false⟩
  { CBlockIndex.ofBlock hash nFile nBlockPos b with
    pprev := prev.map fun _ => b.hashPrevBlock
    nHeight := (prev.map fun q => q.nHeight + 1).getD 0
    bnChainTrust := ((prev.map CBlockIndex.bnChainTrust).getD 0 +
      CBlockIndex.getBlockTrust env b.nBits b.isProofOfStake) % 2 ^ 256
    hashProofOfStake := if b.isProofOfStake then (s.mapProofOfStake[hash]?).getD 0 else 0
    fStakeEntropy := stake.entropyBit
    fStakeModifier := stake.fGeneratedStakeModifier
    nStakeModifier := stake.nStakeModifier }

def insertIndex (p : CBlockIndex) : ChainMan :=
  { s with
    node := { s.node with mapBlockIndex := s.node.mapBlockIndex.insert p.phashBlock p }
    setStakeSeen := if p.fProofOfStake then insert (p.prevoutStake, p.nStakeTime) s.setStakeSeen else s.setStakeSeen }

def addToBlockIndex (nFile : Fin uintMax) (nBlockPos : Nat) : Bool × ChainMan :=
  let hash := b.getHash env
  let pindexNew := s.newIndex env rules b nFile nBlockPos
  if s.node.mapBlockIndex.contains hash then (false, s)
  else if b.isProofOfStake && !s.mapProofOfStake.contains hash then (false, s)
  else if (rules.stakeFields s.node b).isNone then (false, s)
  else
    let s := s.insertIndex pindexNew
    -- write to disk block index
    match (s.node.txdb.txnBegin.writeBlockIndex env pindexNew.toDisk).txnCommit with
    | (false, db) => (false, s.setNode (s.node.setTxdb db))
    | (true, db) =>
      let n := s.node.setTxdb db
      if pindexNew.bnChainTrust > n.bnBestChainTrust then
        let (ok, n) := n.setBestChain env rules.io b pindexNew
        (ok, s.setNode n)
      else (true, s.setNode n)

/-- The pending checkpoint is looked at after a block has been accepted. -/
def acceptPendingSyncCheckpoint : ChainMan :=
  let (_, node, checkpoints) := s.checkpoints.acceptPending env rules.io rules.syncCheckpointWritten s.node
  { s with node := node, checkpoints := checkpoints }

def processSyncCheckpoint (io : Hash256 → Bool) (written : Bool) (s : ChainMan) (hashCheckpoint : Hash256) : ChainMan :=
  let (_, node, checkpoints) := s.checkpoints.process env io written s.node hashCheckpoint
  { s with node := node, checkpoints := checkpoints }

def acceptBlock : Option (Bool × ChainMan) :=
  if s.node.mapBlockIndex.contains (b.getHash env) then some (false, s)
  else
    match s.node.mapBlockIndex[b.hashPrevBlock]? with
    | none => some (false, s)
    | some pindexPrev =>
      match acceptable env rules s.node s.checkpoints pindexPrev b with
      | none => none
      | some false => some (false, s)
      | some true =>
        -- write block to history file
        if !rules.diskOk then some (false, s)
        else
          match s.node.files.appendFile (s.node.files.log.length + 1) s.node.files.nCurrentBlockFile with
          | none => some (false, s)
          | some nFile =>
            let (ok, s) := addToBlockIndex env rules
              (s.setNode { s.node with files := s.node.files.append nFile b }) b nFile
              (s.node.files.fileEnd nFile + 8)
            some (ok, if ok then s.acceptPendingSyncCheckpoint env rules else s)

/-! ## `ProcessBlock` -/

def forgetOrphan (pblockOrphan : CBlock) : ChainMan :=
  { s with
    mapOrphanBlocks := s.mapOrphanBlocks.erase (pblockOrphan.getHash env)
    setStakeSeenOrphan := s.setStakeSeenOrphan.erase pblockOrphan.getProofOfStake }

def acceptOrphans : List CBlock → ChainMan → Option (List Hash256 × ChainMan)
  | [], s => some ([], s)
  | pblockOrphan :: rest, s =>
    match s.acceptBlock env rules pblockOrphan with
    | none => none
    | some (ok, s) =>
      match acceptOrphans rest (s.forgetOrphan env pblockOrphan) with
      | none => none
      | some (accepted, s) => some (if ok then pblockOrphan.getHash env :: accepted else accepted, s)

def waitingFor (hashPrev : Hash256) : List CBlock :=
  (s.mapOrphanBlocksByPrev.filter fun e => e.1 = hashPrev).map Prod.snd

def dropWaiting (hashPrev : Hash256) : ChainMan :=
  { s with mapOrphanBlocksByPrev := s.mapOrphanBlocksByPrev.filter fun e => e.1 ≠ hashPrev }

/-- Recursively process any orphan blocks that depended on this one. -/
def resolveOrphans : Nat → List Hash256 → ChainMan → Option ChainMan
  | 0, _, s => some s
  | _ + 1, [], s => some s
  | fuel + 1, hashPrev :: vWorkQueue, s =>
    match acceptOrphans env rules (s.waitingFor hashPrev) s with
    | none => none
    | some (accepted, s) => resolveOrphans fuel (vWorkQueue ++ accepted) (s.dropWaiting hashPrev)

def checkStake : Option ChainMan :=
  if b.isProofOfStake then
    match (b.vtx[1]?).bind fun tx1 => rules.checkProofOfStake s.node tx1 b.nBits with
    | none => none
    | some hashProofOfStake =>
      if s.mapProofOfStake.contains (b.getHash env) then some s
      else some { s with mapProofOfStake := s.mapProofOfStake.insert (b.getHash env) hashProofOfStake }
  else some s

/-- `WantedByOrphan`: the block that the orphans up to this one wait for. -/
def wantedByOrphan (mapOrphanBlocks : ExtTreeMap Hash256 CBlock) : Nat → CBlock → Hash256
  | 0, pblockOrphan => pblockOrphan.hashPrevBlock
  | fuel + 1, pblockOrphan =>
    match mapOrphanBlocks[pblockOrphan.hashPrevBlock]? with
    | none => pblockOrphan.hashPrevBlock
    | some prev => wantedByOrphan mapOrphanBlocks fuel prev

def wantedByPendingSyncCheckpoint (hashBlock : Hash256) : Bool :=
  if s.checkpoints.hashPendingCheckpoint = 0 then false
  else if hashBlock = s.checkpoints.hashPendingCheckpoint then true
  else
    match s.mapOrphanBlocks[s.checkpoints.hashPendingCheckpoint]? with
    | none => false
    | some pblockOrphan => decide (hashBlock = wantedByOrphan s.mapOrphanBlocks s.mapOrphanBlocks.size pblockOrphan)

def repeatsStake (seen : Finset (COutPoint × Nat)) (b : CBlock) : Bool :=
  b.isProofOfStake && decide (b.getProofOfStake ∈ seen) && (s.waitingFor (b.getHash env)).isEmpty &&
    !s.wantedByPendingSyncCheckpoint (b.getHash env)

/-- Shunt a block without previous block off to the holding area. -/
def holdOrphan : Bool × ChainMan :=
  if s.repeatsStake env s.setStakeSeenOrphan b then (false, s)
  else
    (true, { s with
      setStakeSeenOrphan := if b.isProofOfStake then insert b.getProofOfStake s.setStakeSeenOrphan
        else s.setStakeSeenOrphan
      mapOrphanBlocks := s.mapOrphanBlocks.insert (b.getHash env) b
      mapOrphanBlocksByPrev := s.mapOrphanBlocksByPrev ++ [(b.hashPrevBlock, b)] })

def processBlock : Option (Bool × ChainMan) :=
  let hash := b.getHash env
  if s.node.mapBlockIndex.contains hash then some (false, s) -- already have block
  else if s.mapOrphanBlocks.contains hash then some (false, s) -- already have block (orphan)
  else if s.repeatsStake env s.setStakeSeen b then some (false, s)
  else if !b.checkBlock env false false then some (false, s)
  else
    match s.checkStake env rules b with
    | none => some (false, s)
    | some s =>
      if b.hashPrevBlock ≠ s.node.hashBestChain ∧ s.wantedByPendingSyncCheckpoint hash = false ∧
          rules.tooLittleProof s.node b = true then some (false, s)
      else if !s.node.mapBlockIndex.contains b.hashPrevBlock then some (s.holdOrphan env b)
      else
        match s.acceptBlock env rules b with
        | none => none
        | some (false, s) => some (false, s)
        | some (true, s) =>
          (resolveOrphans env rules (s.mapOrphanBlocksByPrev.length + 1) [hash] s).map fun s => (true, s)

end

/-! ## The work queue runs empty -/

section
variable {env : Env} {rules : AcceptRules} {ok : Bool} {s s' : ChainMan} {b : CBlock}

theorem checkStake_eq (h : s.checkStake env rules b = some s') :
    ∃ proofs, s' = { s with mapProofOfStake := proofs } := by
  unfold checkStake at h
  split at h
  · split at h
    · cases h
    split at h
    · cases h
      exact ⟨_, rfl⟩
    · cases h
      exact ⟨_, rfl⟩
  · cases h
    exact ⟨_, rfl⟩

def entered (env : Env) (rules : AcceptRules) (s : ChainMan) (b : CBlock) (nFile : Fin uintMax)
    (nBlockPos : Nat) : ChainMan :=
  s.insertIndex (s.newIndex env rules b nFile nBlockPos)

theorem addToBlockIndex_cases (env : Env) (rules : AcceptRules) (s : ChainMan) (b : CBlock) (nFile : Fin uintMax)
    (nBlockPos : Nat) : s.addToBlockIndex env rules b nFile nBlockPos = (false, s) ∨
      s.node.mapBlockIndex.contains (b.getHash env) = false ∧
      ∃ s1 p ok db, s1 = s.entered env rules b nFile nBlockPos ∧ p = s.newIndex env rules b nFile nBlockPos ∧
        (s1.node.txdb.txnBegin.writeBlockIndex env p.toDisk).txnCommit = (ok, db) ∧
        ((ok = false ∧ s.addToBlockIndex env rules b nFile nBlockPos = (false, s1.setNode (s1.node.setTxdb db))) ∨
          (ok = true ∧ s.node.bnBestChainTrust < p.bnChainTrust ∧ s.addToBlockIndex env rules b nFile nBlockPos =
            (((s1.node.setTxdb db).setBestChain env rules.io b p).1,
              s1.setNode ((s1.node.setTxdb db).setBestChain env rules.io b p).2)) ∨
          (ok = true ∧ p.bnChainTrust ≤ s.node.bnBestChainTrust ∧
            s.addToBlockIndex env rules b nFile nBlockPos = (true, s1.setNode (s1.node.setTxdb db)))) := by
  unfold addToBlockIndex
  dsimp only
  split
  · exact .inl rfl
  rename_i hn
  split
  · exact .inl rfl
  split
  · exact .inl rfl
  refine .inr ⟨Bool.eq_false_of_not_eq_true hn, ?_⟩
  split
  · rename_i db hc
    exact ⟨_, _, false, db, rfl, rfl, hc, .inl ⟨rfl, rfl⟩⟩
  rename_i db hc
  split
  · rename_i ht
    exact ⟨_, _, true, db, rfl, rfl, hc, .inr (.inl ⟨rfl, ht, rfl⟩)⟩
  · rename_i ht
    exact ⟨_, _, true, db, rfl, rfl, hc, .inr (.inr ⟨rfl, Nat.not_lt.mp ht, rfl⟩)⟩

def stored (s : ChainMan) (nFile : Fin uintMax) (b : CBlock) : ChainMan :=
  s.setNode { s.node with files := s.node.files.append nFile b }

theorem acceptBlock_cases (h : s.acceptBlock env rules b = some (ok, s')) : (ok = false ∧ s' = s) ∨
      ∃ pindexPrev nFile, s.node.mapBlockIndex.contains (b.getHash env) = false ∧
        s.node.mapBlockIndex[b.hashPrevBlock]? = some pindexPrev ∧
        acceptable env rules s.node s.checkpoints pindexPrev b = some true ∧
        s.node.files.appendFile (s.node.files.log.length + 1) s.node.files.nCurrentBlockFile = some nFile ∧
        ok = ((s.stored nFile b).addToBlockIndex env rules b nFile (s.node.files.fileEnd nFile + 8)).1 ∧
        s' = if ok then
            ((s.stored nFile b).addToBlockIndex env rules b nFile
              (s.node.files.fileEnd nFile + 8)).2.acceptPendingSyncCheckpoint
              env rules
          else ((s.stored nFile b).addToBlockIndex env rules b nFile (s.node.files.fileEnd nFile + 8)).2 := by
  unfold acceptBlock at h
  split at h
  · cases h
    exact .inl ⟨rfl, rfl⟩
  rename_i hn
  split at h
  · cases h
    exact .inl ⟨rfl, rfl⟩
  rename_i pindexPrev hp
  split at h
  · cases h
  · cases h
    exact .inl ⟨rfl, rfl⟩
  rename_i hok
  split at h
  · cases h
    exact .inl ⟨rfl, rfl⟩
  split at h
  · cases h
    exact .inl ⟨rfl, rfl⟩
  rename_i nFile hf
  cases h
  exact .inr ⟨pindexPrev, nFile, Bool.eq_false_of_not_eq_true hn, hp, hok, hf, rfl, rfl⟩

theorem acceptBlock_byPrev (h : s.acceptBlock env rules b = some (ok, s')) :
    s'.mapOrphanBlocksByPrev = s.mapOrphanBlocksByPrev := by
  rcases acceptBlock_cases h with ⟨-, rfl⟩ | ⟨-, nFile, -, -, -, -, -, rfl⟩
  · rfl
  have ha : ((s.stored nFile b).addToBlockIndex env rules b nFile
      (s.node.files.fileEnd nFile + 8)).2.mapOrphanBlocksByPrev = s.mapOrphanBlocksByPrev := by
    rcases addToBlockIndex_cases env rules (s.stored nFile b) b nFile (s.node.files.fileEnd nFile + 8) with
      heq | ⟨-, s1, p, ok, db, rfl, rfl, -, ⟨-, heq⟩ | ⟨-, -, heq⟩ | ⟨-, -, heq⟩⟩ <;> rw [heq] <;> rfl
  split
  · exact ha
  · exact ha

theorem acceptOrphans_spec (h : acceptOrphans env rules bs s = some (accepted, s')) :
    s'.mapOrphanBlocksByPrev = s.mapOrphanBlocksByPrev ∧ accepted.length ≤ bs.length := by
  induction bs generalizing s accepted with
  | nil =>
    cases h
    exact ⟨rfl, le_rfl⟩
  | cons b bs ih =>
    unfold acceptOrphans at h
    split at h
    · cases h
    rename_i ok s1 ho
    split at h
    · cases h
    rename_i accepted' s2 hr
    cases h
    obtain ⟨hm, hl⟩ := ih hr
    have hs : s1.mapOrphanBlocksByPrev = s.mapOrphanBlocksByPrev := acceptBlock_byPrev ho
    refine ⟨hm.trans hs, ?_⟩
    cases ok with
    | false => exact Nat.le_succ_of_le hl
    | true => exact Nat.succ_le_succ hl

theorem length_waitingFor (s : ChainMan) (hashPrev : Hash256) :
    (s.waitingFor hashPrev).length + (s.dropWaiting hashPrev).mapOrphanBlocksByPrev.length =
      s.mapOrphanBlocksByPrev.length := by
  unfold waitingFor dropWaiting
  have := length_eq_length_filter_add (l := s.mapOrphanBlocksByPrev) fun e => decide (e.1 = hashPrev)
  simpa using this.symm

theorem resolveOrphans_fuel (h : queue.length + s.mapOrphanBlocksByPrev.length ≤ fuel)
    (h' : queue.length + s.mapOrphanBlocksByPrev.length ≤ fuel') :
    resolveOrphans env rules fuel queue s = resolveOrphans env rules fuel' queue s := by
  induction fuel generalizing fuel' queue s with
  | zero =>
    obtain rfl : queue = [] := eq_nil_of_length_eq_zero (by omega)
    cases fuel' <;> rfl
  | succ fuel ih =>
    cases queue with
    | nil => cases fuel' <;> rfl
    | cons hashPrev queue =>
      rw [length_cons] at h h'
      obtain ⟨fuel', rfl⟩ : ∃ k, fuel' = k + 1 := ⟨fuel' - 1, by omega⟩
      unfold resolveOrphans
      split
      · rfl
      rename_i accepted s' ho
      obtain ⟨hm, hl⟩ := acceptOrphans_spec ho
      have hs : (s.waitingFor hashPrev).length + (s'.dropWaiting hashPrev).mapOrphanBlocksByPrev.length =
          s.mapOrphanBlocksByPrev.length := by
        rw [← s.length_waitingFor hashPrev]
        unfold dropWaiting
        rw [hm]
      have hq : (queue ++ accepted).length = queue.length + accepted.length := length_append
      exact ih (by omega) (by omega)

/-! ## What a call does to node, checkpoints and stakes seen -/

structure Aside (s s' : ChainMan) : Prop where
  node : s'.node = s.node
  checkpoints : s'.checkpoints = s.checkpoints
  stakes : s'.setStakeSeen = s.setStakeSeen

section
variable {R : ChainMan → ChainMan → Prop} (haside : ∀ {s s' : ChainMan}, Aside s s' → R s s')
  (htrans : ∀ {s s' s'' : ChainMan}, R s s' → R s' s'' → R s s'')
  (haccept : ∀ {s s' : ChainMan} {b : CBlock} {ok : Bool}, s.acceptBlock env rules b = some (ok, s') → R s s')
include haside htrans haccept

theorem acceptOrphans_rule (h : acceptOrphans env rules bs s = some (accepted, s')) : R s s' := by
  induction bs generalizing s accepted with
  | nil =>
    cases h
    exact haside ⟨rfl, rfl, rfl⟩
  | cons b bs ih =>
    unfold acceptOrphans at h
    split at h
    · cases h
    rename_i ok s1 ho
    split at h
    · cases h
    rename_i hr
    cases h
    have hf : R s1 (s1.forgetOrphan env b) := haside ⟨rfl, rfl, rfl⟩
    exact htrans (haccept ho) (htrans hf (ih hr))

theorem resolveOrphans_rule (h : resolveOrphans env rules fuel queue s = some s') : R s s' := by
  induction fuel generalizing queue s with
  | zero =>
    cases h
    exact haside ⟨rfl, rfl, rfl⟩
  | succ fuel ih =>
    cases queue with
    | nil =>
      cases h
      exact haside ⟨rfl, rfl, rfl⟩
    | cons hashPrev queue =>
      unfold resolveOrphans at h
      split at h
      · cases h
      rename_i s1 ho
      have hd : R s1 (s1.dropWaiting hashPrev) := haside ⟨rfl, rfl, rfl⟩
      exact htrans (acceptOrphans_rule haside htrans haccept ho) (htrans hd (ih h))

theorem processBlock_rule (h : s.processBlock env rules b = some (ok, s')) : R s s' := by
  have hr : R s s := haside ⟨rfl, rfl, rfl⟩
  unfold processBlock at h
  dsimp only at h
  split at h
  · cases h
    exact hr
  split at h
  · cases h
    exact hr
  split at h
  · cases h
    exact hr
  split at h
  · cases h
    exact hr
  split at h
  · cases h
    exact hr
  rename_i s1 hs
  have ho : R s s1 := by
    obtain ⟨proofs, rfl⟩ := checkStake_eq hs
    exact haside ⟨rfl, rfl, rfl⟩
  split at h
  · cases h
    exact ho
  split at h
  · obtain rfl : (s1.holdOrphan env b).2 = s' := congrArg Prod.snd (Option.some.inj h)
    refine htrans ho (haside ?_)
    unfold holdOrphan
    split <;> exact ⟨rfl, rfl, rfl⟩
  split at h
  · cases h
  · rename_i ha
    cases h
    exact htrans ho (haccept ha)
  · rename_i s2 ha
    obtain ⟨s3, hre, heq⟩ := Option.map_eq_some_iff.mp h
    cases heq
    exact htrans ho (htrans (haccept ha) (resolveOrphans_rule haside htrans haccept hre))

end

end

end ChainMan

end CloakCoin.Chain
