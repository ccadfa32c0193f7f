import CloakCoin.Enigma.Sender
import CloakCoin.Lib.Run
import CloakCoin.Stealth.Sample
import CloakCoin.Stealth.Scan
import CloakCoin.Wallet.Wallet

/-!
# Earnings of a cloaker

`AddToWalletIfInvolvingMe` adds what an Enigma transaction has earned us to a counter, before it looks
whether the transaction is new. A transaction is seen several times: in the mempool, in a block, after a
reorganisation, in a rescan.
-/

namespace CloakCoin.Stealth

open Chain Lib Enigma Wallet
open Std (ExtTreeMap)

/-! ## The counter -/

def getCredit (w : CWallet) (tx : CTransaction) : Int :=
  (tx.vout.map fun txout => if w.isMine txout then txout.nValue else 0).sum

/-- The coins of a wallet, its key store with the stealth addresses, and the counter. -/
structure EarningWallet where
  coins : CWallet
  keyStore : KeyWallet
  enigmaFeesEarnt : Int

/-- A call of `AddToWalletIfInvolvingMe`. -/
structure AddCall where
  tx : CTransaction
  pblock : Option CBlock
  fUpdate : Bool

section
variable (env : StealthEnv)

def AddCall.hash (c : AddCall) : Hash256 := c.tx.getHash env.toEnv

namespace EarningWallet

variable (w : EarningWallet)

def skips (c : AddCall) : Bool := w.coins.mapWallet.contains (c.hash env) && !c.fUpdate

variable (tx : CTransaction)

def credit : Int := getCredit (w.coins.findStealthTransactions tx) tx

def debit : Int := (w.coins.findStealthTransactions tx).getDebit tx

def Qualifies : Prop :=
  (findStealthTransactions env tx w.keyStore).2.1 > 0 ∧ w.debit tx > 0 ∧ w.credit tx > w.debit tx

instance (w : EarningWallet) (tx : CTransaction) : Decidable (w.Qualifies env tx) := inferInstanceAs (Decidable (_ ∧ _))

/-- What it earns us, without the stealth payments it makes to us. -/
def gain : Int :=
  w.credit tx - w.debit tx - (findStealthTransactions env tx w.keyStore).1

def addToWalletIfInvolvingMe (c : AddCall) : EarningWallet :=
  if w.skips env c then w
  else
    { coins := w.coins.addToWalletIfInvolvingMe env.toEnv c.tx c.pblock c.fUpdate
      keyStore := w.keyStore.scan env c.tx
      enigmaFeesEarnt := if w.Qualifies env c.tx then w.enigmaFeesEarnt + w.gain env c.tx else w.enigmaFeesEarnt }

variable {env} {w : EarningWallet}

theorem contains_add {hash : Hash256} (h : w.coins.mapWallet.contains hash = true) :
    (w.addToWalletIfInvolvingMe env c).coins.mapWallet.contains hash = true := by
  unfold addToWalletIfInvolvingMe
  split
  · exact h
  · exact CWallet.contains_addToWalletIfInvolvingMe env.toEnv h _ _ _

theorem contains_of_qualifies (hs : w.skips env c = false) (h : w.Qualifies env c.tx) :
    (w.addToWalletIfInvolvingMe env c).coins.mapWallet.contains (c.hash env) = true := by
  unfold addToWalletIfInvolvingMe
  rw [hs, if_neg Bool.false_ne_true]
  exact CWallet.contains_of_isFromMe env.toEnv _ hs (decide_eq_true h.2.1)

end EarningWallet

/-! ## Every run -/

/-- The wallet, with the hashes of the transactions that have qualified so far and what they earned when
each first did. -/
structure Books where
  wallet : EarningWallet
  counted : Finset Hash256
  once : Int

/-- A call, or any change of the key store: keys, stealth addresses, locking. -/
inductive EarningEvent where
  | add (c : AddCall)
  | keys (keyStore : KeyWallet)

namespace EarningEvent

def step (e : EarningEvent) (b : Books) : Books :=
  match e with
  | add c =>
    let b' := { b with wallet := b.wallet.addToWalletIfInvolvingMe env c }
    if !b.wallet.skips env c ∧ b.wallet.Qualifies env c.tx ∧ c.hash env ∉ b.counted then
      { b' with counted := insert (c.hash env) b.counted, once := b.once + b.wallet.gain env c.tx }
    else b'
  | keys keyStore => { b with wallet := { b.wallet with keyStore := keyStore } }

/-- No transaction is counted again. -/
def CountsAnew (b : Books) : EarningEvent → Prop
  | add c => c.fUpdate = true → c.hash env ∈ b.counted → b.wallet.Qualifies env c.tx → b.wallet.gain env c.tx = 0
  | keys _ => True

end EarningEvent

end

variable {b : Books}

namespace Books

variable {env : StealthEnv}

/-- Each fee is counted once. -/
def Agrees (b : Books) : Prop := b.wallet.enigmaFeesEarnt = b.once

def Stored (b : Books) : Prop := ∀ hash ∈ b.counted, b.wallet.coins.mapWallet.contains hash = true

theorem wallet_step_add (c : AddCall) :
    ((EarningEvent.add c).step env b).wallet = b.wallet.addToWalletIfInvolvingMe env c := by
  unfold EarningEvent.step
  dsimp only
  split
  · rfl
  · rfl

theorem Stored.step (h : b.Stored) (e : EarningEvent) : (e.step env b).Stored := by
  cases e with
  | keys keyStore => exact h
  | add c =>
    intro hash hh
    rw [wallet_step_add]
    by_cases hold : hash ∈ b.counted
    · exact EarningWallet.contains_add (h hash hold)
    unfold EarningEvent.step at hh
    dsimp only at hh
    split at hh
    · -- the hash has just been counted
      rename_i hn
      obtain rfl := (Finset.mem_insert.mp hh).resolve_right hold
      exact EarningWallet.contains_of_qualifies (by simpa using hn.1) hn.2.1
    · exact absurd hh hold

theorem agrees_step_iff (h : b.Stored) (ha : b.Agrees) (e : EarningEvent) :
    (e.step env b).Agrees ↔ e.CountsAnew env b := by
  cases e with
  | keys keyStore => exact ⟨fun _ => trivial, fun _ => ha⟩
  | add c =>
    unfold Agrees at ha ⊢
    unfold EarningEvent.step EarningEvent.CountsAnew EarningWallet.addToWalletIfInvolvingMe
    dsimp only
    cases hs : b.wallet.skips env c with
    | true =>
      have hu : c.fUpdate = false := by simpa using (Bool.and_eq_true_iff.mp hs).2
      simp [hu, ha]
    | false =>
      by_cases hq : b.wallet.Qualifies env c.tx
      · by_cases hc : c.hash env ∈ b.counted
        · -- the transaction is in the wallet, so this is an update
          have hu : c.fUpdate = true := by
            rw [EarningWallet.skips, h _ hc] at hs
            simpa using hs
          simp [hq, hc, hu, ha]
        · simp [hq, hc, ha]
      · simp [hq, ha]

theorem agrees_trace (hs : b0.Stored) (ha : b0.Agrees) (hr : Trace (EarningEvent.step env) (fun _ _ => True) b0 l b) :
    b.Stored ∧ ((∀ x ∈ l, (x.2.step env x.1).Agrees) → b.Agrees) ∧
      ((∀ x ∈ l, (x.2.step env x.1).Agrees) ↔ ∀ x ∈ l, x.2.CountsAnew env x.1) := by
  induction hr with
  | start =>
    refine ⟨hs, fun _ => ha, ?_⟩
    constructor
    · intro _ x hx
      cases hx
    · intro _ x hx
      cases hx
  | step e _ _ ih =>
    obtain ⟨hst, hag, hi⟩ := ih
    refine ⟨hst.step e, fun hal => hal _ (List.mem_append_right _ List.mem_cons_self), ?_⟩
    simp only [List.forall_mem_append, List.forall_mem_singleton]
    constructor
    · rintro ⟨hal, hl⟩
      exact ⟨hi.mp hal, (agrees_step_iff hst (hag hal) e).mp hl⟩
    · rintro ⟨hal, hl⟩
      exact ⟨hi.mpr hal, (agrees_step_iff hst (hag (hi.mpr hal)) e).mpr hl⟩

end Books

theorem earnings_counted_once_iff (env : StealthEnv) (b₀ b : Books) (l : List (Books × EarningEvent))
    (hnone : b₀.counted = ∅) (hagree : b₀.Agrees) (hrun : Trace (EarningEvent.step env) (fun _ _ => True) b₀ l b) :
    (∀ x ∈ l, (x.2.step env x.1).Agrees) ↔ ∀ x ∈ l, x.2.CountsAnew env x.1 := by
  have hs : b₀.Stored := by
    intro hash hh
    rw [hnone] at hh
    exact absurd hh (Finset.notMem_empty hash)
  exact (Books.agrees_trace hs hagree hrun).2.2

/-! ### A transaction we helped with -/

namespace Sample

def lentTx : CTransaction := { nTime := 1, vin := [], vout := [⟨5 * coin, [7]⟩] }

noncomputable def earningScript : CScript :=
  scriptForKeyID ((env []).enigmaKey ((address 3 4).encoded (env [])) (compress (.ofNat 7))
    ((address 3 4).getEnigmaAddressPrivateHash (env [])) 0)

noncomputable def cloakedTx : CTransaction :=
  { nTime := 2, vin := [{ prevout := ⟨1, 0⟩ }]
    vout := [⟨6 * coin, earningScript⟩, ⟨minTxoutAmount, stealthNonceScript (compress (.ofNat 7))⟩] }

noncomputable def earningEnv : StealthEnv := env [lentTx, cloakedTx]

noncomputable def cloakerBooks : Books where
  wallet :=
    { coins :=
        { mapWallet := (∅ : ExtTreeMap Hash256 CWalletTx).insert 1 { tx := lentTx }
          keys := [[7]]
          stealthKeys := fun _ => [earningScript]
          nOrderPosNext := 0 }
      keyStore := lockedWallet 1
      enigmaFeesEarnt := 0 }
  counted := ∅
  once := 0

end Sample

open Sample in
/-- It is seen once with and once without an update. -/
theorem earnings_counted_once_two : let b₁ := EarningEvent.step earningEnv (.add ⟨cloakedTx, none, true⟩) cloakerBooks
    (EarningEvent.step earningEnv (.add ⟨cloakedTx, none, false⟩) b₁).Agrees := by
  intro b₁
  have hrun : Trace (EarningEvent.step earningEnv) (fun _ _ => True) cloakerBooks
      [(cloakerBooks, EarningEvent.add ⟨cloakedTx, none, true⟩), (b₁, EarningEvent.add ⟨cloakedTx, none, false⟩)]
      (EarningEvent.step earningEnv (.add ⟨cloakedTx, none, false⟩) b₁) :=
    .step (EarningEvent.add ⟨cloakedTx, none, false⟩)
      (.step (EarningEvent.add ⟨cloakedTx, none, true⟩) .start trivial) trivial
  have ha : ∀ x ∈ [(cloakerBooks, EarningEvent.add ⟨cloakedTx, none, true⟩),
      (b₁, EarningEvent.add ⟨cloakedTx, none, false⟩)], x.2.CountsAnew earningEnv x.1 := by
    simp only [List.forall_mem_cons, List.not_mem_nil, false_implies, implies_true, and_true]
    exact ⟨fun _ hc => absurd hc (Finset.notMem_empty _), fun hu => absurd hu Bool.false_ne_true⟩
  have hall := (earnings_counted_once_iff earningEnv cloakerBooks _ _ rfl (Eq.refl (0 : Int)) hrun).mpr ha
  simp only [List.forall_mem_cons] at hall
  exact hall.2.1

open Sample in
/-- **Seen in the mempool and then in a block, it is counted twice** by a wallet that is locked. -/
theorem earnings_counted_twice : let seen : EarningEvent := .add ⟨cloakedTx, none, true⟩
    let b := seen.step earningEnv (seen.step earningEnv cloakerBooks)
    b.once = coin ∧ b.wallet.enigmaFeesEarnt = 2 * coin := by
  decide +kernel

end CloakCoin.Stealth
