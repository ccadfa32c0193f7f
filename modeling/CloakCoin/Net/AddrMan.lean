import CloakCoin.Lib.Format
import CloakCoin.Lib.Word

/-!
# The address manager

`CAddrMan` of `addrman.cpp`. Addresses we heard of are in up to four of the "new" buckets, addresses we have
connected to in one "tried" bucket. Entries have numbers; `mapInfo` holds what is known of them, `mapAddr` finds
the number of an address, and `vRandom` lists the numbers in an order that `GetAddr` shuffles.

A failed `assert` is `none`. What `GetRandInt` draws comes from a `Draws`; the floating point chances of
`Select` only say which of the drawn entries is taken.
-/

namespace CloakCoin.Net

open Lib

/-! ## Entries -/

/-- The 16 bytes of an address. -/
abbrev CNetAddr := Nat

structure CService where
  ip : CNetAddr
  port : Nat
  deriving DecidableEq

structure CAddress where
  service : CService
  nServices : UInt64
  nTime : Nat
  deriving DecidableEq

structure CAddrInfo extends CAddress where
  source : CNetAddr
  nLastTry : Int := 0
  nLastSuccess : Int := 0
  nAttempts : Int := 0
  nRefCount : Int := 0
  fInTried : Bool := false
  nRandomPos : Nat
  deriving DecidableEq

/-- A number of seconds kept in an `unsigned int`. -/
def toUint32 (x : Int) : Nat := (x % 2 ^ 32).toNat

def addrmanTriedBucketCount : Nat := 64
def addrmanTriedBucketSize : Nat := 64
def addrmanNewBucketCount : Nat := 256
def addrmanNewBucketSize : Nat := 64
def addrmanTriedBucketsPerGroup : Nat := 4
def addrmanNewBucketsPerSourceGroup : Nat := 32
def addrmanNewBucketsPerAddress : Int := 4
def addrmanTriedEntriesInspectOnEvict : Nat := 4
def addrmanHorizonDays : Int := 30
def addrmanRetries : Int := 3
def addrmanMaxFailures : Int := 10
def addrmanMinFailDays : Int := 7
def addrmanGetaddrMaxPct : Nat := 23
def addrmanGetaddrMax : Nat := 2500

instance : NeZero addrmanTriedBucketCount := ⟨by decide⟩
instance : NeZero addrmanNewBucketCount := ⟨by decide⟩

abbrev TriedBucket := Fin addrmanTriedBucketCount
abbrev NewBucket := Fin addrmanNewBucketCount

/-- What comes from the network code and the hash, and the secret key. -/
structure AddrEnv where
  /-- `Hash(...).Get64()` -/
  hash64 : Bytes → Nat
  getKey : CService → Bytes
  getGroup : CNetAddr → Bytes
  isRoutable : CNetAddr → Bool
  nKey : Bytes

namespace AddrEnv

variable (env : AddrEnv)

/-- `ss << vch` -/
def vch (b : Bytes) : Bytes := Format.varSize.write b.length ++ b

def getTriedBucket (addr : CService) : TriedBucket :=
  let hash1 := env.hash64 (vch env.nKey ++ vch (env.getKey addr))
  let hash2 := env.hash64 (vch env.nKey ++ vch (env.getGroup addr.ip) ++
    (Format.uint 8).write (hash1 % addrmanTriedBucketsPerGroup))
  Fin.ofNat addrmanTriedBucketCount hash2

def getNewBucket (addr : CService) (src : CNetAddr) : NewBucket :=
  let hash1 := env.hash64 (vch env.nKey ++ vch (env.getGroup addr.ip) ++ vch (env.getGroup src))
  let hash2 := env.hash64 (vch env.nKey ++ vch (env.getGroup src) ++
    (Format.uint 8).write (hash1 % addrmanNewBucketsPerSourceGroup))
  Fin.ofNat addrmanNewBucketCount hash2

end AddrEnv

def CAddrInfo.isTerrible (info : CAddrInfo) (nNow : Int) : Bool :=
  if info.nLastTry ≠ 0 ∧ info.nLastTry ≥ nNow - 60 then false -- never remove things tried the last minute
  else if (info.nTime : Int) > nNow + 10 * 60 then true -- came in a flying DeLorean
  else if info.nTime = 0 ∨ nNow - info.nTime > addrmanHorizonDays * 86400 then true -- not seen in over a month
  else if info.nLastSuccess = 0 ∧ info.nAttempts ≥ addrmanRetries then true -- tried three times and never a success
  else decide (nNow - info.nLastSuccess > addrmanMinFailDays * 86400 ∧ info.nAttempts ≥ addrmanMaxFailures)

/-! ## The tables -/

structure CAddrMan where
  nIdCount : Nat
  mapInfo : Nat → Option CAddrInfo
  mapAddr : CNetAddr → Option Nat
  vRandom : List Nat
  nTried : Int
  vvTried : TriedBucket → List Nat
  nNew : Int
  vvNew : NewBucket → List Nat

namespace CAddrMan

def empty : CAddrMan where
  nIdCount := 0
  mapInfo := fun _ => none
  mapAddr := fun _ => none
  vRandom := []
  nTried := 0
  vvTried := fun _ => []
  nNew := 0
  vvNew := fun _ => []

variable (env : AddrEnv) (s : CAddrMan)

def find (addr : CNetAddr) : Option (Nat × CAddrInfo) :=
  (s.mapAddr addr).bind fun nId => (s.mapInfo nId).map fun info => (nId, info)

variable (nId : Nat)

def setInfo (info : CAddrInfo) : CAddrMan :=
  { s with mapInfo := Function.update s.mapInfo nId (some info) }

/-- The new entry has number `nIdCount`. -/
def create (addr : CAddress) (addrSource : CNetAddr) : CAddrMan :=
  { s with
    nIdCount := s.nIdCount + 1
    mapInfo := Function.update s.mapInfo s.nIdCount
      (some { toCAddress := addr, source := addrSource, nRandomPos := s.vRandom.length })
    mapAddr := Function.update s.mapAddr addr.service.ip (some s.nIdCount)
    vRandom := s.vRandom ++ [s.nIdCount] }

def swapRandom (nRndPos1 nRndPos2 : Nat) : Option CAddrMan :=
  if nRndPos1 = nRndPos2 then some s
  else
    match s.vRandom[nRndPos1]?, s.vRandom[nRndPos2]? with
    | some nId1, some nId2 =>
      match s.mapInfo nId1, s.mapInfo nId2 with
      | some info1, some info2 =>
        some { (s.setInfo nId1 { info1 with nRandomPos := nRndPos2 }).setInfo nId2
          { info2 with nRandomPos := nRndPos1 } with
          vRandom := (s.vRandom.set nRndPos1 nId2).set nRndPos2 nId1 }
      | _, _ => none
    | _, _ => none

/-- Insertion into a `std::set`. -/
def insertId (bucket : List Nat) : List Nat :=
  if nId ∈ bucket then bucket else bucket.orderedInsert (· ≤ ·) nId

/-! ### `ShrinkNew` -/

/-- The entry leaves a new bucket; it is deleted when that was its last one. -/
def removeNew (nUBucket : NewBucket) (nId : Nat) : Option CAddrMan :=
  match s.mapInfo nId with
  | none => none
  | some info =>
    let s := s.setInfo nId { info with nRefCount := info.nRefCount - 1 }
    let s := if info.nRefCount - 1 = 0 then
      (s.swapRandom info.nRandomPos (s.vRandom.length - 1)).map fun s =>
        { s with
          vRandom := s.vRandom.dropLast
          mapAddr := Function.update s.mapAddr info.service.ip none
          mapInfo := Function.update s.mapInfo nId none
          nNew := s.nNew - 1 }
      else some s
    s.map fun s => { s with vvNew := Function.update s.vvNew nUBucket ((s.vvNew nUBucket).erase nId) }

/-- First look for deletable items. -/
def firstTerrible (nNow : Int) : List Nat → Option (Option Nat)
  | [] => some none
  | nId :: rest =>
    match s.mapInfo nId with
    | none => none
    | some info => if info.isTerrible nNow then some (some nId) else firstTerrible nNow rest

/-- The oldest of the items whose places in the bucket were drawn. -/
def oldestDrawn (n : List Nat) : Nat → List Nat → Option Nat → Option (Option Nat)
  | _, [], nOldest => some nOldest
  | nI, nId :: rest, nOldest =>
    if nI ∈ n then
      match nOldest with
      | none => oldestDrawn n (nI + 1) rest (some nId)
      | some old =>
        match s.mapInfo nId, s.mapInfo old with
        | some info, some infoOld =>
          oldestDrawn n (nI + 1) rest (some (if info.nTime < infoOld.nTime then nId else old))
        | _, _ => none
    else oldestDrawn n (nI + 1) rest nOldest

def shrinkNew (nUBucket : NewBucket) (nNow : Int) (rng : Draws) : Option CAddrMan :=
  let vNew := s.vvNew nUBucket
  match s.firstTerrible nNow vNew with
  | none => none
  | some (some nId) => s.removeNew nUBucket nId
  | some none =>
    -- select four randomly, and pick the oldest of those to replace
    let (n0, rng) := getRand vNew.length rng
    let (n1, rng) := getRand vNew.length rng
    let (n2, rng) := getRand vNew.length rng
    let (n3, _) := getRand vNew.length rng
    match s.oldestDrawn [n0, n1, n2, n3] 0 vNew none with
    | some (some nOldest) => s.removeNew nUBucket nOldest
    | _ => none

/-! ### `MakeTried` -/

def selectTried : Nat → Nat → List Nat → Option (Nat × Nat) → Draws → Option (List Nat × Option Nat)
  | 0, _, vTried, nOldest, _ => some (vTried, nOldest.map Prod.snd)
  | fuel + 1, i, vTried, nOldest, rng =>
    if vTried.length ≤ i then some (vTried, nOldest.map Prod.snd)
    else
      let (r, rng) := getRand (vTried.length - i) rng
      let nPos := r + i
      match vTried[nPos]?, vTried[i]? with
      | some nTemp, some first =>
        let vTried := (vTried.set nPos first).set i nTemp
        match nOldest with
        | none => selectTried fuel (i + 1) vTried (some (nTemp, nPos)) rng
        | some (old, oldPos) =>
          match s.mapInfo nTemp, s.mapInfo old with
          | some info, some infoOld =>
            selectTried fuel (i + 1) vTried
              (some (if info.nLastSuccess < infoOld.nLastSuccess then (nTemp, nPos) else (old, oldPos))) rng
          | _, _ => none
      | _, _ => none

def newBuckets : Finset NewBucket := Finset.univ.filter fun b => nId ∈ s.vvNew b

def makeTried (nOrigin : NewBucket) (rng : Draws) : Option CAddrMan :=
  match s.mapInfo nId with
  | none => none
  | some info =>
    if nId ∉ s.vvNew nOrigin then none
    else
      -- remove the entry from all new buckets
      let info : CAddrInfo := { info with nRefCount := info.nRefCount - (s.newBuckets nId).card }
      let vvNew := fun b => (s.vvNew b).erase nId
      if info.nRefCount ≠ 0 then none
      else
        let nKBucket := env.getTriedBucket info.service
        let vTried := s.vvTried nKBucket
        -- first check whether there is place to just add it
        if vTried.length < addrmanTriedBucketSize then
          some { s.setInfo nId { info with fInTried := true } with
            vvNew := vvNew
            nNew := s.nNew - 1
            vvTried := Function.update s.vvTried nKBucket (vTried ++ [nId])
            nTried := s.nTried + 1 }
        else
          -- otherwise, find an item to evict
          match s.selectTried addrmanTriedEntriesInspectOnEvict 0 vTried none rng with
          | some (vTried, some nPos) =>
            match vTried[nPos]? with
            | none => none
            | some old =>
              match s.mapInfo old with
              | none => none
              | some infoOld =>
                let nUBucket := env.getNewBucket infoOld.service infoOld.source
                -- if there is no place in its bucket, move it to the one nId came from
                let nTo := if (vvNew nUBucket).length < addrmanNewBucketSize then nUBucket else nOrigin
                some { (s.setInfo old { infoOld with fInTried := false, nRefCount := 1 }).setInfo nId
                    { info with fInTried := true } with
                  vvNew := Function.update vvNew nTo (insertId old (vvNew nTo))
                  nNew := s.nNew - 1 + 1
                  vvTried := Function.update s.vvTried nKBucket (vTried.set nPos nId) }
          | _ => none

/-! ### The operations -/

def good (addr : CService) (nTime : Int) (rng : Draws) : Option CAddrMan :=
  match s.find addr.ip with
  | none => some s
  | some (nId, info) =>
    if info.service ≠ addr then some s
    else
      let s := s.setInfo nId
        { info with nLastSuccess := nTime, nLastTry := nTime, nTime := toUint32 nTime, nAttempts := 0 }
      if info.fInTried then some s
      else
        -- find a bucket it is in now
        let (nRnd, rng) := getRand addrmanNewBucketCount rng
        let buckets := (List.range addrmanNewBucketCount).map fun n => Fin.ofNat addrmanNewBucketCount (n + nRnd)
        match buckets.find? fun b => decide (nId ∈ s.vvNew b) with
        | none => some s
        | some nUBucket => s.makeTried env nId nUBucket rng

/-- The second half of `Add_`: put the entry into the bucket of this source. -/
def addToBucket (source : CNetAddr) (nNow : Int) (rng : Draws) : Option CAddrMan :=
  match s.mapInfo nId with
  | none => none
  | some info =>
    let nUBucket := env.getNewBucket info.service source
    if nId ∈ s.vvNew nUBucket then some s
    else
      let s := s.setInfo nId { info with nRefCount := info.nRefCount + 1 }
      let s := if (s.vvNew nUBucket).length = addrmanNewBucketSize then s.shrinkNew nUBucket nNow rng else some s
      s.map fun s => { s with vvNew := Function.update s.vvNew nUBucket (insertId nId (s.vvNew nUBucket)) }

/-- The entry after news of its address: time and services. -/
def refreshed (info : CAddrInfo) (addr : CAddress) (nTimePenalty nNow : Int) : CAddrInfo :=
  let fCurrentlyOnline := nNow - addr.nTime < 24 * 60 * 60
  let nUpdateInterval : Int := if fCurrentlyOnline then 60 * 60 else 24 * 60 * 60
  let nTime := if addr.nTime ≠ 0 ∧ (info.nTime = 0 ∨ (info.nTime : Int) < addr.nTime -
    nUpdateInterval - nTimePenalty) then
    toUint32 (max 0 (addr.nTime - nTimePenalty)) else info.nTime
  { info with nTime := nTime, nServices := info.nServices ||| addr.nServices }

def add (addr : CAddress) (source : CNetAddr) (nTimePenalty nNow : Int) (rng : Draws) : Option CAddrMan :=
  if !env.isRoutable addr.service.ip then some s
  else
    match s.find addr.service.ip with
    | some (nId, info) =>
      let info := refreshed info addr nTimePenalty nNow
      let s := s.setInfo nId info
      -- do not update if no new information is present
      if addr.nTime = 0 ∨ (info.nTime ≠ 0 ∧ addr.nTime ≤ info.nTime) then some s
      -- do not update if the entry was already in the "tried" table
      else if info.fInTried then some s
      -- do not update if the max reference count is reached
      else if info.nRefCount = addrmanNewBucketsPerAddress then some s
      else
        -- stochastic test: previous nRefCount == N: 2^N times harder to increase it
        let nFactor := 2 ^ info.nRefCount.toNat
        let (r, rng) := if nFactor > 1 then getRand nFactor rng else (0, rng)
        if r ≠ 0 then some s else s.addToBucket env nId source nNow rng
    | none =>
      let nId := s.nIdCount
      let addr := { addr with nTime := toUint32 (max 0 (addr.nTime - nTimePenalty)) }
      let s := s.create addr source
      { s with nNew := s.nNew + 1 }.addToBucket env nId source nNow rng

def attempt (addr : CService) (nTime : Int) : CAddrMan :=
  match s.find addr.ip with
  | none => s
  | some (nId, info) =>
    if info.service ≠ addr then s
    else s.setInfo nId { info with nLastTry := nTime, nAttempts := info.nAttempts + 1 }

def connected (addr : CService) (nTime : Int) : CAddrMan :=
  match s.find addr.ip with
  | none => s
  | some (nId, info) =>
    if info.service ≠ addr then s
    else if nTime - info.nTime > 20 * 60 then s.setInfo nId { info with nTime := toUint32 nTime }
    else s

def selectLoop (bucket : Nat → List Nat) : List (Nat × Nat × Bool) → Option (Option CAddrInfo)
  | [] => some none
  | (b, r, taken) :: tries =>
    match bucket b with
    | [] => selectLoop bucket tries
    | ids =>
      match (ids[r % ids.length]?).bind s.mapInfo with
      | none => none
      | some info => if taken then some (some info) else selectLoop bucket tries

def select (fTried : Bool) (tries : List (Nat × Nat × Bool)) : Option (Option CAddrInfo) :=
  if s.vRandom.length = 0 then some none
  else if fTried then s.selectLoop (fun b => s.vvTried (Fin.ofNat addrmanTriedBucketCount b)) tries
  else s.selectLoop (fun b => s.vvNew (Fin.ofNat addrmanNewBucketCount b)) tries

def getAddrLoop : Nat → Nat → CAddrMan → Draws → Option (CAddrMan × List CAddrInfo)
  | 0, _, s, _ => some (s, [])
  | fuel + 1, n, s, rng =>
    let (r, rng) := getRand (s.vRandom.length - n) rng
    match s.swapRandom n (r + n) with
    | none => none
    | some s =>
      match (s.vRandom[n]?).bind s.mapInfo with
      | none => none
      | some info => (getAddrLoop fuel (n + 1) s rng).map fun (s, vAddr) => (s, info :: vAddr)

def getAddr (rng : Draws) : Option (CAddrMan × List CAddrInfo) :=
  getAddrLoop (min (addrmanGetaddrMaxPct * s.vRandom.length / 100) addrmanGetaddrMax) 0 s rng

/-! ### Runs -/

/-- An operation with its arguments, the clock and the random choices. -/
inductive Op where
  | add (addr : CAddress) (source : CNetAddr) (nTimePenalty nNow : Int) (rng : Draws)
  | good (addr : CService) (nTime : Int) (rng : Draws)
  | attempt (addr : CService) (nTime : Int)
  | connected (addr : CService) (nTime : Int)
  | select (fTried : Bool) (tries : List (Nat × Nat × Bool))
  | getAddr (rng : Draws)

def step : Op → CAddrMan → Option CAddrMan
  | .add addr source nTimePenalty nNow rng, s => s.add env addr source nTimePenalty nNow rng
  | .good addr nTime rng, s => s.good env addr nTime rng
  | .attempt addr nTime, s => some (s.attempt addr nTime)
  | .connected addr nTime, s => some (s.connected addr nTime)
  | .select fTried tries, s => (s.select fTried tries).map fun _ => s
  | .getAddr rng, s => (s.getAddr rng).map Prod.fst

def run (ops : List Op) (s : CAddrMan) : Option CAddrMan := ops.foldlM (fun s op => step env op s) s

end CAddrMan
end CloakCoin.Net
