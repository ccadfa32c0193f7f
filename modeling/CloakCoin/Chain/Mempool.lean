import CloakCoin.Chain.Block
import CloakCoin.Lib.ReverseIndex

/-!
# The memory pool

Transactions that wait for a block, and which of them spends an outpoint. `CTxMemPool.accept` is the function without
the check of inputs.
-/

namespace CloakCoin.Chain

open Lib
open Std (ExtTreeMap)

section
variable (env : Env)

/-! ## Standard transactions -/

/-- The template of a script we relay; at most 3 keys in a multisig. -/
def isStandardScript (scriptPubKey : CScript) : Bool :=
  match env.solver scriptPubKey with
  | none => false
  | some (.multisig, vSolutions) =>
    let m := ((vSolutions.headD []).headD 0).toNat
    let n := ((vSolutions.getLastD []).headD 0).toNat
    decide (1 ≤ n) && decide (n ≤ 3) && decide (1 ≤ m) && decide (m ≤ n)
  | some (whichType, _) => decide (whichType ≠ .nonstandard)

def CTransaction.isStandard (tx : CTransaction) : Bool :=
  decide (tx.nVersion ≤ 1) &&
    tx.vin.all (fun txin => decide (txin.scriptSig.length ≤ 1024) && isPushOnly txin.scriptSig) &&
    tx.vout.all fun txout => isStandardScript env txout.scriptPubKey && decide (txout.nValue ≠ 0)

/-! ## The pool -/

/-- An input of a pool transaction, `ptx` given by its key in `mapTx`. -/
abbrev CInPoint := Place Hash256

structure CTxMemPool where
  mapTx : ExtTreeMap Hash256 CTransaction
  /-- Which input of which pool transaction spends an outpoint. -/
  mapNextTx : COutPoint → Option CInPoint

namespace CTxMemPool

def addUnchecked (pool : CTxMemPool) (hash : Hash256) (tx : CTransaction) : CTxMemPool where
  mapTx := pool.mapTx.insert hash tx
  mapNextTx := ReverseIndex.record hash (tx.vin.map CTxIn.prevout) pool.mapNextTx

def accept (pool : CTxMemPool) (tx : CTransaction) : Bool × CTxMemPool :=
  let hash := tx.getHash env
  if !tx.checkTransaction then (false, pool)
  else if tx.isCoinBase then (false, pool)
  else if tx.isCoinStake then (false, pool)
  else if tx.nLockTime > 2147483647 then (false, pool) -- not accepting nLockTime beyond 2038 yet
  else if !env.fTestNet && !tx.isStandard env then (false, pool)
  else if pool.mapTx.contains hash then (false, pool)
  else if tx.vin.any fun txin => (pool.mapNextTx txin.prevout).isSome then (false, pool) -- no replacement
  else (true, pool.addUnchecked hash tx)

def remove (pool : CTxMemPool) (tx : CTransaction) : CTxMemPool :=
  let hash := tx.getHash env
  if pool.mapTx.contains hash then
    { mapTx := pool.mapTx.erase hash
      mapNextTx := ReverseIndex.forget (tx.vin.map CTxIn.prevout) pool.mapNextTx }
  else pool

def clear (_pool : CTxMemPool) : CTxMemPool := ⟨∅, fun _ => none⟩

end CTxMemPool

end

end CloakCoin.Chain
