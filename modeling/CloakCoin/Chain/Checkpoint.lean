import CloakCoin.Chain.BestChain

/-!
# Synchronized checkpoints

`hashSyncCheckpoint` with the functions that compare blocks with it and move it. `io` and `written` say which blocks
can be read and whether the new checkpoint can be written.
-/

namespace CloakCoin.Chain

open Std (ExtTreeMap)

/-- The globals of `Checkpoints`; no checkpoint is pending if `hashPendingCheckpoint` is 0. -/
structure SyncCheckpoints where
  hashSyncCheckpoint : Hash256
  hashPendingCheckpoint : Hash256
  hashInvalidCheckpoint : Hash256

namespace Node

def isInMainChain (n : Node) (p : CBlockIndex) : Bool := p.pnext.isSome || decide (n.pindexBest = some p.phashBlock)

/-- Trace back from `pindex` to a height, unless the links end before. -/
def traceBack (n : Node) (pindex : CBlockIndex) (nHeight : Nat) : Option CBlockIndex :=
  (n.ancestorsOf pindex).find? fun p => decide (p.nHeight ≤ nHeight)

end Node

namespace SyncCheckpoints

section
variable (env : Env) (io : Hash256 → Bool) (written : Bool) (c : SyncCheckpoints) (n : Node)

/-- Only a descendant of the current checkpoint is allowed. -/
def validate (hashCheckpoint : Hash256) : Bool × SyncCheckpoints :=
  match n.mapBlockIndex[c.hashSyncCheckpoint]?, n.mapBlockIndex[hashCheckpoint]? with
  | some pindexSyncCheckpoint, some pindexCheckpointRecv =>
    if pindexCheckpointRecv.nHeight ≤ pindexSyncCheckpoint.nHeight then
      -- an older checkpoint: the current one should be a descendant block
      match n.traceBack pindexSyncCheckpoint pindexCheckpointRecv.nHeight with
      | none => (false, c)
      | some pindex =>
        if pindex.phashBlock ≠ hashCheckpoint then (false, { c with hashInvalidCheckpoint := hashCheckpoint })
        else (false, c)
    else
      match n.traceBack pindexCheckpointRecv pindexSyncCheckpoint.nHeight with
      | none => (false, c)
      | some pindex =>
        if pindex.phashBlock ≠ c.hashSyncCheckpoint then (false, { c with hashInvalidCheckpoint := hashCheckpoint })
        else (true, c)
  | _, _ => (false, c)

def move (hashCheckpoint : Hash256) : Bool × Node × SyncCheckpoints :=
  let write (n : Node) : Bool × Node × SyncCheckpoints :=
    if written then (true, n, { c with hashSyncCheckpoint := hashCheckpoint, hashPendingCheckpoint := 0 })
      else (false, n, c)
  match n.mapBlockIndex[hashCheckpoint]? with
  | none => (false, n, c)
  | some pindexCheckpoint =>
    if n.isInMainChain pindexCheckpoint then write n
    else
      match n.readBlock env io hashCheckpoint with
      | none => (false, n, c)
      | some (_, block) =>
        match n.setBestChain env io block pindexCheckpoint with
        | (false, n) => (false, n, { c with hashInvalidCheckpoint := hashCheckpoint })
        | (true, n) => write n

def acceptPending : Bool × Node × SyncCheckpoints :=
  if c.hashPendingCheckpoint ≠ 0 ∧ n.mapBlockIndex.contains c.hashPendingCheckpoint = true then
    match c.validate n c.hashPendingCheckpoint with
    | (false, c) => (false, n, { c with hashPendingCheckpoint := 0 })
    | (true, c) => c.move env io written n c.hashPendingCheckpoint
  else (false, n, c)

def process (hashCheckpoint : Hash256) : Bool × Node × SyncCheckpoints :=
  if !n.mapBlockIndex.contains hashCheckpoint then (false, n, { c with hashPendingCheckpoint := hashCheckpoint })
  else
    match c.validate n hashCheckpoint with
    | (false, c) => (false, n, c)
    | (true, c) => c.move env io written n hashCheckpoint

/-- `CheckSync`, which asserts that the checkpoint is indexed. -/
def checkSync (hashBlock : Hash256) (pindexPrev : CBlockIndex) : Option Bool :=
  if env.fTestNet then some true -- testnet has no checkpoints
  else
    let nHeight := pindexPrev.nHeight + 1
    match n.mapBlockIndex[c.hashSyncCheckpoint]? with
    | none => none
    | some pindexSync =>
      if nHeight > pindexSync.nHeight then
        match n.traceBack pindexPrev pindexSync.nHeight with
        | none => some false
        | some pindex =>
          -- only descendant of sync-checkpoint can pass check
          some !(decide (pindex.nHeight < pindexSync.nHeight) || decide (pindex.phashBlock ≠ c.hashSyncCheckpoint))
      else if nHeight = pindexSync.nHeight ∧ hashBlock ≠ c.hashSyncCheckpoint then some false
      else if nHeight < pindexSync.nHeight ∧ n.mapBlockIndex.contains hashBlock = false then some false
      else some true

end

end SyncCheckpoints

end CloakCoin.Chain
