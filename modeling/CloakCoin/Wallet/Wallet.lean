import CloakCoin.Chain.Block
import CloakCoin.Lib.Map

/-!
# The wallet as the chain code sees it

Wallet transactions with their spent and Enigma-reserved flags, and what a block does to them:
`addToWalletIfInvolvingMe` when a transaction is connected, `disableTransaction` when a coinstake is
disconnected.
-/

namespace CloakCoin.Wallet

open Chain
open Std (ExtTreeMap)

/-- `std::vector<char>::resize`. -/
def resize (v : List Bool) (n : Nat) : List Bool := v.take n ++ List.replicate (n - v.length) false

structure CWalletTx where
  tx : CTransaction
  hashBlock : Hash256 := 0
  vMerkleBranch : List Hash256 := []
  nIndex : Int := -1
  fFromMe : Bool := false
  vfSpent : List Bool := []
  vfEnigmaReserved : List Bool := []
  nOrderPos : Int := -1
  deriving DecidableEq, Repr

namespace CWalletTx

variable (w : CWalletTx) (nOut : Nat)

def isSpent : Bool := w.vfSpent.getD nOut false

def isEnigmaReserved : Bool := w.vfEnigmaReserved.getD nOut false

/-! The four markers throw when `nOut` is out of range; every caller has checked it. -/

def markSpent : CWalletTx :=
  { w with vfSpent := (resize w.vfSpent w.tx.vout.length).set nOut true }

def markUnspent : CWalletTx :=
  { w with vfSpent := (resize w.vfSpent w.tx.vout.length).set nOut false }

def markEnigmaReserved : CWalletTx :=
  { w with vfEnigmaReserved := (resize w.vfEnigmaReserved w.tx.vout.length).set nOut true }

def markNotEnigmaReserved : CWalletTx :=
  { w with vfEnigmaReserved := (resize w.vfEnigmaReserved w.tx.vout.length).set nOut false }

/-- The tx's block, its index there and its merkle branch. -/
def setMerkleBranch (env : Env) (w : CWalletTx) (b : CBlock) : CWalletTx :=
  match b.vtx.findIdx? (·.sameAs w.tx) with
  | some i => { w with hashBlock := b.getHash env, nIndex := i, vMerkleBranch := b.getMerkleBranch env i }
  | none => { w with hashBlock := b.getHash env, nIndex := -1, vMerkleBranch := [] }

end CWalletTx

structure CWallet where
  mapWallet : ExtTreeMap Hash256 CWalletTx
  /-- The scripts that pay a key of the key store. -/
  keys : List CScript
  /-- Scripts of the one-time keys `FindStealthTransactions` derives from a transaction. -/
  stealthKeys : CTransaction → List CScript
  nOrderPosNext : Int

namespace CWallet

variable {hash : Hash256} {tx : CTransaction}

def isMine (w : CWallet) (txout : CTxOut) : Bool := w.keys.contains txout.scriptPubKey

def ownOutput (w : CWallet) (txin : CTxIn) : Option CTxOut :=
  match w.mapWallet[txin.prevout.hash]? with
  | none => none
  | some prev =>
    match prev.tx.vout[txin.prevout.n]? with
    | none => none
    | some out => if w.isMine out then some out else none

def getDebit (w : CWallet) (tx : CTransaction) : Int :=
  (tx.vin.map fun txin => ((w.ownOutput txin).map CTxOut.nValue).getD 0).sum

def isFromMe (w : CWallet) (tx : CTransaction) : Bool := decide (w.getDebit tx > 0)

/-- Find stealth or Enigma outputs, then store the keys. -/
def findStealthTransactions (w : CWallet) (tx : CTransaction) : CWallet :=
  { w with keys := w.keys ++ w.stealthKeys tx }

def updatePrev (f : CWalletTx → Nat → CWalletTx) (w : CWallet) (txin : CTxIn) : CWallet :=
  match w.mapWallet[txin.prevout.hash]?, w.ownOutput txin with
  | some prev, some _ =>
    { w with mapWallet := w.mapWallet.insert txin.prevout.hash (f prev txin.prevout.n) }
  | _, _ => w

def walletUpdateSpent (w : CWallet) (tx : CTransaction) : CWallet :=
  tx.vin.foldl (updatePrev fun prev n => if prev.isSpent n then prev else prev.markSpent n) w

/-- Merge a new sighting of a known transaction into its record. -/
def mergeTx (wtx wtxIn : CWalletTx) : CWalletTx :=
  let wtx := if wtxIn.hashBlock ≠ 0 ∧ wtxIn.hashBlock ≠ wtx.hashBlock then
    { wtx with hashBlock := wtxIn.hashBlock } else wtx
  let wtx := if wtxIn.nIndex ≠ -1 ∧ (wtxIn.vMerkleBranch ≠ wtx.vMerkleBranch ∨ wtxIn.nIndex ≠ wtx.nIndex) then
    { wtx with vMerkleBranch := wtxIn.vMerkleBranch, nIndex := wtxIn.nIndex } else wtx
  if wtxIn.fFromMe then { wtx with fFromMe := true } else wtx

variable (env : Env)

/-- Insert or merge, then mark the coins the transaction spends. -/
def addToWallet (w : CWallet) (wtxIn : CWalletTx) : CWallet :=
  let hash := wtxIn.tx.getHash env
  let w := match w.mapWallet[hash]? with
    | none => { w with
        mapWallet := w.mapWallet.insert hash { wtxIn with nOrderPos := w.nOrderPosNext }
        nOrderPosNext := w.nOrderPosNext + 1 }
    | some wtx => { w with mapWallet := w.mapWallet.insert hash (mergeTx wtx wtxIn) }
  w.walletUpdateSpent wtxIn.tx

def addToWalletIfInvolvingMe (w : CWallet) (tx : CTransaction) (pblock : Option CBlock) (fUpdate : Bool) : CWallet :=
  let fExisted := w.mapWallet.contains (tx.getHash env)
  if fExisted && !fUpdate then w
  else
    let w := w.findStealthTransactions tx
    if fExisted || tx.vout.any w.isMine || w.isFromMe tx then
      let wtx : CWalletTx := { tx := tx }
      w.addToWallet env (match pblock with | some b => wtx.setMerkleBranch env b | none => wtx)
    else w.walletUpdateSpent tx

/-! ### Wallet transactions stay -/

variable {w : CWallet}

theorem contains_updatePrev (h : w.mapWallet.contains hash = true) :
    (updatePrev f w txin).mapWallet.contains hash = true := by
  unfold updatePrev
  split
  · rw [ExtTreeMap.contains_insert, h, Bool.or_true]
  · exact h

theorem contains_walletUpdateSpent (h : w.mapWallet.contains hash = true) (tx : CTransaction) :
    (w.walletUpdateSpent tx).mapWallet.contains hash = true :=
  List.foldlRecOn (motive := fun w' : CWallet => w'.mapWallet.contains hash = true) tx.vin _ h
    fun _ hw _ _ => contains_updatePrev hw

theorem contains_addToWallet (w : CWallet)
    (h : hash = wtxIn.tx.getHash env ∨ w.mapWallet.contains hash = true) :
    (w.addToWallet env wtxIn).mapWallet.contains hash = true := by
  have hi (wtx : CWalletTx) : (w.mapWallet.insert (wtxIn.tx.getHash env) wtx).contains hash = true := by
    rcases h with rfl | h
    · exact ExtTreeMap.contains_insert_self
    · rw [ExtTreeMap.contains_insert, h, Bool.or_true]
  apply contains_walletUpdateSpent
  split
  · exact hi _
  · exact hi _

theorem tx_setMerkleBranch (w : CWalletTx) (b : CBlock) : (w.setMerkleBranch env b).tx = w.tx := by
  unfold CWalletTx.setMerkleBranch
  split
  · rfl
  · rfl

theorem contains_addToWalletIfInvolvingMe (h : w.mapWallet.contains hash = true) (tx : CTransaction)
    (pblock : Option CBlock) (fUpdate : Bool) :
    (w.addToWalletIfInvolvingMe env tx pblock fUpdate).mapWallet.contains hash = true := by
  unfold addToWalletIfInvolvingMe
  dsimp only
  split
  · exact h
  split
  · exact contains_addToWallet env _ (.inr h)
  · exact contains_walletUpdateSpent (w := w.findStealthTransactions tx) h tx

theorem contains_of_isFromMe (pblock : Option CBlock) (hs : (w.mapWallet.contains (tx.getHash env) && !fUpdate) = false)
    (hf : (w.findStealthTransactions tx).isFromMe tx = true) :
    (w.addToWalletIfInvolvingMe env tx pblock fUpdate).mapWallet.contains (tx.getHash env) = true := by
  unfold addToWalletIfInvolvingMe
  dsimp only
  rw [hs, if_neg Bool.false_ne_true, hf, Bool.or_true, if_pos rfl]
  apply contains_addToWallet
  left
  split
  · rw [tx_setMerkleBranch]
  · rfl

/-- ppcoin: only disconnecting coinstake requires marking input unspent. -/
def disableTransaction (w : CWallet) (tx : CTransaction) : CWallet :=
  if !tx.isCoinStake || !w.isFromMe tx then w else tx.vin.foldl (updatePrev CWalletTx.markUnspent) w

end CWallet

def syncWithWallets (env : Env) (wallets : List CWallet) (tx : CTransaction) (pblock : Option CBlock)
    (fUpdate fConnect : Bool) : List CWallet :=
  if fConnect then wallets.map fun w => w.addToWalletIfInvolvingMe env tx pblock fUpdate
  else wallets.map fun w => w.disableTransaction tx

end CloakCoin.Wallet
