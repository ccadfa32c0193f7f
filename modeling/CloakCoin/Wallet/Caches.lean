import CloakCoin.Lib.Memo
import CloakCoin.Lib.Run
import CloakCoin.Wallet.Coins

/-!
# The cached amounts of a wallet transaction

`GetAvailableCredit` and `GetEnigmaReservedAmount` keep their last result in the transaction. Both depend
on the flags of the outputs, and each mutator clears the caches it is written to clear: marking an output
spent or unspent leaves the reserved amount cached, which counts unspent outputs only.
-/

namespace CloakCoin.Wallet

open Chain Lib
open Std (ExtTreeMap)
open List

variable {pcoin : CWalletTx}

/-- `CWallet::GetCredit(txout)`; `none` when it throws. -/
def CWallet.getCredit (w : CWallet) (txout : CTxOut) : Option Int :=
  if !moneyRange txout.nValue then none else some (if w.isMine txout then txout.nValue else 0)

def CWallet.tally (w : CWallet) (counts : Nat → Bool) : Nat → Int → List CTxOut → Option Int
  | _, n, [] => some n
  | i, n, txout :: vout =>
    if counts i then
      match w.getCredit txout with
      | none => none
      | some credit => if !moneyRange (n + credit) then none else w.tally counts (i + 1) (n + credit) vout
    else w.tally counts (i + 1) n vout

variable (s : CachedTx) (nOut : Nat)

/-- A wallet transaction and its `f...Cached` and `n...Cached` for the two amounts. -/
structure CachedTx extends CWalletTx where
  availableCredit : Memo Int := ⟨false, 0⟩
  enigmaReserved : Memo Int := ⟨false, 0⟩
  deriving DecidableEq

namespace CachedTx

/-! ## Mutators

A call with `nOut` out of range throws and changes nothing. -/

def markSpent : CachedTx :=
  if nOut ≥ s.tx.vout.length then s
  else { s with
    toCWalletTx := s.toCWalletTx.markSpent nOut
    availableCredit := s.availableCredit.clearUnless (s.isSpent nOut) }

def markUnspent : CachedTx :=
  if nOut ≥ s.tx.vout.length then s
  else { s with
    toCWalletTx := s.toCWalletTx.markUnspent nOut
    availableCredit := s.availableCredit.clearUnless !s.isSpent nOut }

def markEnigmaReserved : CachedTx :=
  if nOut ≥ s.tx.vout.length then s
  else { s with
    toCWalletTx := s.toCWalletTx.markEnigmaReserved nOut
    enigmaReserved := s.enigmaReserved.clearUnless (s.isEnigmaReserved nOut) }

def markNotEnigmaReserved : CachedTx :=
  if nOut ≥ s.tx.vout.length then s
  else { s with
    toCWalletTx := s.toCWalletTx.markNotEnigmaReserved nOut
    enigmaReserved := s.enigmaReserved.clearUnless !s.isEnigmaReserved nOut }

def updateOne (p : Bool × Nat) : CachedTx :=
  if p.1 && !s.isSpent p.2 then
    { s with
      vfSpent := s.vfSpent.set p.2 true
      vfEnigmaReserved := s.vfEnigmaReserved.set p.2 false
      availableCredit := s.availableCredit.clear
      enigmaReserved := s.enigmaReserved.clear }
  else s

def updateSpent (vfNewSpent : List Bool) : CachedTx :=
  (vfNewSpent.take s.vfSpent.length).zipIdx.foldl updateOne s

/-- Of the two amounts only the available credit is made dirty. -/
def markDirty : CachedTx := { s with availableCredit := s.availableCredit.clear }

/-! ## Reads

`nBlocksToMaturity` is the outcome of `GetBlocksToMaturity` at the time of the call. -/

section
variable (w : CWallet) (nBlocksToMaturity : Int) (fUseCache : Bool)

def immature (s : CachedTx) : Bool := (s.tx.isCoinBase || s.tx.isCoinStake) && decide (nBlocksToMaturity > 0)

def countsAvailable (s : CachedTx) (i : Nat) : Bool := !s.isSpent i

def countsReserved (s : CachedTx) (i : Nat) : Bool := !s.isSpent i && s.isEnigmaReserved i

def sumAvailable (s : CachedTx) : Option Int := w.tally s.countsAvailable 0 0 s.tx.vout

def sumReserved (s : CachedTx) : Option Int := w.tally s.countsReserved 0 0 s.tx.vout

def getAvailableCredit (s : CachedTx) : Option Int × CachedTx :=
  if s.immature nBlocksToMaturity then (some 0, s)
  else
    let (credit, memo) := s.availableCredit.read fUseCache (s.sumAvailable w)
    (credit, { s with availableCredit := memo })

def getEnigmaReservedAmount (s : CachedTx) : Option Int × CachedTx :=
  if s.immature nBlocksToMaturity then (some 0, s)
  else
    let (reserved, memo) := s.enigmaReserved.read fUseCache (s.sumReserved w)
    (reserved, { s with enigmaReserved := memo })

end

end CachedTx

/-! ## Sums -/

theorem CWallet.tally_congr {w : CWallet} {counts counts' : Nat → Bool} : ∀ (vout : List CTxOut) (i : Nat) (n : Int),
    (∀ j, i ≤ j → j < i + vout.length → counts j = counts' j) → w.tally counts i n vout = w.tally counts' i n vout
  | [], _, _, _ => rfl
  | txout :: vout, i, n, h => by
    have hr : ∀ m, w.tally counts (i + 1) m vout = w.tally counts' (i + 1) m vout := fun m =>
      tally_congr vout (i + 1) m fun j hij hj => h j (by omega) (by rw [length_cons]; omega)
    unfold tally
    rw [h i le_rfl (by rw [length_cons]; omega), hr]
    simp only [hr]

/-! ## Flags -/

namespace CachedTx

variable {w : CWallet} {s s' : CachedTx} {nOut : Nat}

theorem sumAvailable_congr (htx : s'.tx = s.tx) (h : ∀ i < s.tx.vout.length, s'.isSpent i = s.isSpent i) :
    s'.sumAvailable w = s.sumAvailable w := by
  unfold sumAvailable
  rw [htx]
  refine CWallet.tally_congr _ _ _ fun j _ hj => ?_
  rw [countsAvailable, countsAvailable, h j (by omega)]

theorem sumReserved_congr (htx : s'.tx = s.tx) (h : ∀ i < s.tx.vout.length, s'.countsReserved i = s.countsReserved i) :
    s'.sumReserved w = s.sumReserved w := by
  unfold sumReserved
  rw [htx]
  exact CWallet.tally_congr _ _ _ fun j _ hj => h j (by omega)

/-! ## The invariant -/

structure CacheInv (w : CWallet) (s : CachedTx) : Prop where
  available : s.availableCredit.Exact (s.sumAvailable w)
  reserved : s.enigmaReserved.Exact (s.sumReserved w)

def MaySetSpent (s : CachedTx) (nOut : Nat) (b : Bool) : Prop :=
  s.enigmaReserved.cached = false ∨ s.isSpent nOut = b ∨ s.isEnigmaReserved nOut = false

structure SpentSet (s s' : CachedTx) (nOut : Nat) (b : Bool) : Prop where
  tx : s'.tx = s.tx
  spent : ∀ i < s.tx.vout.length, s'.isSpent i = if i = nOut then b else s.isSpent i
  flags : s'.vfEnigmaReserved = s.vfEnigmaReserved

theorem SpentSet.cacheInv {b : Bool} (hse : SpentSet s s' nOut b) (h : CacheInv w s) (hok : s.MaySetSpent nOut b)
    {keep : Bool} (hke : keep = true → s.isSpent nOut = b)
    (ha : s'.availableCredit = s.availableCredit.clearUnless keep)
    (hr : s'.enigmaReserved = s.enigmaReserved) : CacheInv w s' where
  available := by
    rw [ha]
    refine h.available.clearUnless fun _ hk => (sumAvailable_congr hse.tx fun i hi => ?_).symm
    rw [hse.spent i hi]
    split
    · rename_i hin
      rw [hin, hke hk]
    · rfl
  reserved := by
    rw [hr]
    intro hc
    rw [← h.reserved hc]
    refine sumReserved_congr hse.tx fun i hi => ?_
    have hf : s'.isEnigmaReserved i = s.isEnigmaReserved i := by
      rw [CWalletTx.isEnigmaReserved, CWalletTx.isEnigmaReserved, hse.flags]
    rw [countsReserved, countsReserved, hse.spent i hi, hf]
    split
    · rename_i hin
      rw [hin]
      rcases hok with hn | hs | hfr
      · rw [hn] at hc
        cases hc
      · rw [hs]
      · rw [hfr, Bool.and_false, Bool.and_false]
    · rfl

section
variable (h : CacheInv w s)
include h

theorem CacheInv.markSpent (hok : s.MaySetSpent nOut true) : CacheInv w (s.markSpent nOut) := by
  unfold CachedTx.markSpent
  split
  · exact h
  have hs : SpentSet s { s with
      toCWalletTx := s.toCWalletTx.markSpent nOut
      availableCredit := s.availableCredit.clearUnless (s.isSpent nOut) } nOut true :=
    ⟨rfl, fun i hi => getD_resize_set true i hi, rfl⟩
  exact hs.cacheInv h hok id rfl rfl

theorem CacheInv.markUnspent (hok : s.MaySetSpent nOut false) : CacheInv w (s.markUnspent nOut) := by
  unfold CachedTx.markUnspent
  split
  · exact h
  have hs : SpentSet s { s with
      toCWalletTx := s.toCWalletTx.markUnspent nOut
      availableCredit := s.availableCredit.clearUnless !s.isSpent nOut } nOut false :=
    ⟨rfl, fun i hi => getD_resize_set false i hi, rfl⟩
  exact hs.cacheInv h hok (fun hk => by simpa using hk) rfl rfl

theorem CacheInv.setReserved {b keep : Bool} (hke : keep = true → s.isEnigmaReserved nOut = b) (hs' : s' = { s with
      vfEnigmaReserved := (resize s.vfEnigmaReserved s.tx.vout.length).set nOut b
      enigmaReserved := s.enigmaReserved.clearUnless keep }) : CacheInv w s' := by
  subst hs'
  refine ⟨h.available.congr (sumAvailable_congr rfl fun i _ => rfl).symm, ?_⟩
  refine h.reserved.clearUnless fun _ hk => Eq.symm ?_
  refine sumReserved_congr rfl fun i hi => ?_
  have hf : ((resize s.vfEnigmaReserved s.tx.vout.length).set nOut b).getD i false = s.isEnigmaReserved i := by
    rw [getD_resize_set b i hi]
    split
    · rename_i hin
      rw [hin, hke hk]
    · rfl
  exact congrArg (!s.isSpent i && ·) hf

theorem CacheInv.updateOne (p : Bool × Nat) : CacheInv w (s.updateOne p) := by
  unfold CachedTx.updateOne
  split
  · exact ⟨Memo.exact_clear _ _, Memo.exact_clear _ _⟩
  · exact h

theorem CacheInv.updateSpent (vfNewSpent : List Bool) : CacheInv w (s.updateSpent vfNewSpent) :=
  List.foldlRecOn (motive := CacheInv w) _ _ h fun _ hm p _ => hm.updateOne p

theorem CacheInv.markDirty : CacheInv w s.markDirty :=
  ⟨Memo.exact_clear _ _, h.reserved⟩

variable (nBlocksToMaturity : Int)

theorem CacheInv.getAvailableCredit (fUseCache : Bool) :
    CacheInv w (s.getAvailableCredit w nBlocksToMaturity fUseCache).2 := by
  unfold CachedTx.getAvailableCredit
  split
  · exact h
  · exact ⟨h.available.read_snd fUseCache, h.reserved⟩

theorem CacheInv.getEnigmaReservedAmount (fUseCache : Bool) :
    CacheInv w (s.getEnigmaReservedAmount w nBlocksToMaturity fUseCache).2 := by
  unfold CachedTx.getEnigmaReservedAmount
  split
  · exact h
  · exact ⟨h.available, h.reserved.read_snd fUseCache⟩

theorem CacheInv.reads :
    (s.getAvailableCredit w nBlocksToMaturity true).1 = (s.getAvailableCredit w nBlocksToMaturity false).1 ∧
      (s.getEnigmaReservedAmount w nBlocksToMaturity true).1 =
        (s.getEnigmaReservedAmount w nBlocksToMaturity false).1 := by
  unfold CachedTx.getAvailableCredit CachedTx.getEnigmaReservedAmount
  split
  · exact ⟨rfl, rfl⟩
  · exact ⟨(h.available.read_fst true).trans (h.available.read_fst false).symm,
      (h.reserved.read_fst true).trans (h.reserved.read_fst false).symm⟩

end

end CachedTx

/-! ## Every run -/

inductive CacheOp where
  | markSpent (nOut : Nat)
  | markUnspent (nOut : Nat)
  | markEnigmaReserved (nOut : Nat)
  | markNotEnigmaReserved (nOut : Nat)
  | updateSpent (vfNewSpent : List Bool)
  | markDirty
  | getAvailableCredit (nBlocksToMaturity : Int) (fUseCache : Bool)
  | getEnigmaReservedAmount (nBlocksToMaturity : Int) (fUseCache : Bool)

namespace CacheOp

def exec (w : CWallet) : CacheOp → CachedTx → CachedTx
  | markSpent nOut, s => s.markSpent nOut
  | markUnspent nOut, s => s.markUnspent nOut
  | markEnigmaReserved nOut, s => s.markEnigmaReserved nOut
  | markNotEnigmaReserved nOut, s => s.markNotEnigmaReserved nOut
  | updateSpent vfNewSpent, s => s.updateSpent vfNewSpent
  | markDirty, s => s.markDirty
  | getAvailableCredit nBlocksToMaturity fUseCache, s => (s.getAvailableCredit w nBlocksToMaturity fUseCache).2
  | getEnigmaReservedAmount nBlocksToMaturity fUseCache, s =>
    (s.getEnigmaReservedAmount w nBlocksToMaturity fUseCache).2

/-- While the reserved credit is cached, no reserved output changes its spent flag. -/
def Safe : CacheOp → CachedTx → Prop
  | markSpent nOut, s => s.MaySetSpent nOut true
  | markUnspent nOut, s => s.MaySetSpent nOut false
  | _, _ => True

end CacheOp

theorem CachedTx.CacheInv.exec {w : CWallet} {s : CachedTx} (h : s.CacheInv w) (op : CacheOp) (hop : op.Safe s) :
    (op.exec w s).CacheInv w := by
  cases op with
  | markSpent nOut => exact h.markSpent hop
  | markUnspent nOut => exact h.markUnspent hop
  | markEnigmaReserved nOut =>
    unfold CacheOp.exec CachedTx.markEnigmaReserved
    dsimp only
    split
    · exact h
    · exact h.setReserved id rfl
  | markNotEnigmaReserved nOut =>
    unfold CacheOp.exec CachedTx.markNotEnigmaReserved
    dsimp only
    split
    · exact h
    · exact h.setReserved (b := false) (fun hk => by simpa using hk) rfl
  | updateSpent vfNewSpent => exact h.updateSpent vfNewSpent
  | markDirty => exact h.markDirty
  | getAvailableCredit nBlocksToMaturity fUseCache => exact h.getAvailableCredit nBlocksToMaturity fUseCache
  | getEnigmaReservedAmount nBlocksToMaturity fUseCache => exact h.getEnigmaReservedAmount nBlocksToMaturity fUseCache

theorem cached_amounts_exact (w : CWallet) (wtx : CWalletTx) (s : CachedTx) (l : List (CachedTx × CacheOp))
    (hrun : Trace (CacheOp.exec w) CacheOp.Safe { wtx with } l s) (nBlocksToMaturity : Int) :
    (s.getAvailableCredit w nBlocksToMaturity true).1 = (s.getAvailableCredit w nBlocksToMaturity false).1 ∧
      (s.getEnigmaReservedAmount w nBlocksToMaturity true).1 =
        (s.getEnigmaReservedAmount w nBlocksToMaturity false).1 := by
  refine CachedTx.CacheInv.reads ?_ nBlocksToMaturity
  induction hrun with
  | start => exact ⟨Memo.exact_clear ⟨false, 0⟩ _, Memo.exact_clear ⟨false, 0⟩ _⟩
  | step op _ hop ih => exact ih.exec op hop

namespace Sample

def twoOutputs : CWalletTx :=
  { tx := { nTime := 1, vin := [{ prevout := ⟨9, 0⟩ }], vout := [⟨400, [7]⟩, ⟨500, [7]⟩] } }

def oneKey : CWallet := ⟨∅, [[7]], fun _ => [], 0⟩

def reservedAndRead : CachedTx :=
  CacheOp.exec oneKey (.getEnigmaReservedAmount 0 true)
    (CacheOp.exec oneKey (.markEnigmaReserved 0) { twoOutputs with })

end Sample

open Sample in
/-- The other output may be spent. -/
theorem cached_amounts_exact_two : (CacheOp.exec oneKey (.markSpent 1) reservedAndRead).enigmaReserved = ⟨true, 400⟩ ∧
      ((CacheOp.exec oneKey (.markSpent 1) reservedAndRead).getEnigmaReservedAmount oneKey 0 true).1 =
        ((CacheOp.exec oneKey (.markSpent 1) reservedAndRead).getEnigmaReservedAmount oneKey 0 false).1 := by
  have hs : CacheOp.Safe (.markSpent 1) reservedAndRead := .inr (.inr (by decide))
  have hr : Trace (CacheOp.exec oneKey) CacheOp.Safe { twoOutputs with } _ reservedAndRead :=
    .step (CacheOp.getEnigmaReservedAmount 0 true) (.step (CacheOp.markEnigmaReserved 0) .start trivial) trivial
  exact ⟨by decide, (cached_amounts_exact oneKey twoOutputs _ _ (.step _ hr hs) 0).2⟩

open Sample in
/-- The reserved output itself is spent: it is still counted. -/
theorem reserved_amount_stale :
    (CacheOp.exec oneKey (.markSpent 0) reservedAndRead).getEnigmaReservedAmount oneKey 0 true =
        (some 400, CacheOp.exec oneKey (.markSpent 0) reservedAndRead) ∧
      ((CacheOp.exec oneKey (.markSpent 0) reservedAndRead).getEnigmaReservedAmount oneKey 0 false).1 = some 0 := by
  decide

/-! ## The balance -/

namespace CWallet

variable (w : CWallet) (view : ChainView)

def availableCredit (pcoin : CWalletTx) : Option Int :=
  (CachedTx.getAvailableCredit w (view.getBlocksToMaturity pcoin) false { pcoin with }).1

def reservedAmount (pcoin : CWalletTx) : Option Int :=
  (CachedTx.getEnigmaReservedAmount w (view.getBlocksToMaturity pcoin) false { pcoin with }).1

def total (f : CWalletTx → Option Int) : List (Hash256 × CWalletTx) → Int → Option Int
  | [], nTotal => some nTotal
  | p :: rest, nTotal => (f p.2).bind fun n => total f rest (nTotal + n)

def credited (pcoin : CWalletTx) : Option Int :=
  if view.isFinal pcoin && view.isConfirmed pcoin then w.availableCredit view pcoin else some 0

def getBalance : Option Int := total (w.credited view) w.mapWallet.toList 0

/-- A transaction counts when everything in it is reserved. -/
def reserved (pcoin : CWalletTx) : Option Int :=
  (w.availableCredit view pcoin).bind fun credit => (w.reservedAmount view pcoin).map fun reserved =>
    if view.isFinal pcoin && view.isConfirmed pcoin && credit == reserved then reserved else 0

def getEnigmaReservedBalance : Option Int := total (w.reserved view) w.mapWallet.toList 0

variable {w view}

theorem tally_counted {counts : Nat → Bool} {i : Nat} {n c : Int} {txout : CTxOut} {vout : List CTxOut}
    (hc : counts i = true) (h : w.tally counts i n (txout :: vout) = some c) : 0 ≤ txout.nValue ∧
      w.tally counts (i + 1) (n + if w.isMine txout then txout.nValue else 0) vout = some c := by
  rw [tally, hc, if_pos rfl, getCredit] at h
  cases hr : moneyRange txout.nValue with
  | false => simp [hr] at h
  | true =>
    rw [hr, Bool.not_true, if_neg Bool.false_ne_true] at h
    unfold moneyRange at hr
    grind

/-- Output `i` is ours and worth something. -/
def pays (w : CWallet) (pcoin : CWalletTx) (i : Nat) : Bool :=
  (pcoin.tx.vout[i]?).any fun txout => w.isMine txout && decide (0 < txout.nValue)

theorem tally_grows {counts : Nat → Bool} {pcoin : CWalletTx} {c : Int} :
    ∀ (vout : List CTxOut) (i : Nat) (n : Int), pcoin.tx.vout.drop i = vout → w.tally counts i n vout = some c →
      n ≤ c ∧ (c = n ↔ ∀ j, i ≤ j → counts j = true → w.pays pcoin j = false)
  | [], i, n, hd, h => by
    cases h
    have hl := drop_eq_nil_iff.mp hd
    refine ⟨le_rfl, iff_of_true rfl fun j hj _ => ?_⟩
    rw [pays, getElem?_eq_none (by omega), Option.any_none]
  | txout :: vout, i, n, hd, h => by
    have hg : pcoin.tx.vout[i]? = some txout := by
      rw [← head?_drop, hd, head?_cons]
    have hres : pcoin.tx.vout.drop (i + 1) = vout := by
      rw [← tail_drop, hd, tail_cons]
    have hsplit : (∀ j, i ≤ j → counts j = true → w.pays pcoin j = false) ↔
        (counts i = true → w.pays pcoin i = false) ∧ ∀ j, i + 1 ≤ j → counts j = true → w.pays pcoin j = false := by
      refine ⟨fun h => ⟨h i le_rfl, fun j hj => h j (by omega)⟩, fun h j hj => ?_⟩
      obtain rfl | hj := hj.eq_or_lt
      · exact h.1
      · exact h.2 j hj
    have hp : w.pays pcoin i = (w.isMine txout && decide (0 < txout.nValue)) := by
      rw [pays, hg, Option.any_some]
    rw [hsplit, hp]
    cases hc : counts i with
    | false =>
      rw [tally, hc, if_neg Bool.false_ne_true] at h
      simpa using tally_grows vout (i + 1) n hres h
    | true =>
      obtain ⟨hv, h⟩ := tally_counted hc h
      obtain ⟨hle, hi⟩ := tally_grows vout (i + 1) _ hres h
      cases hm : w.isMine txout with
      | false => simpa [hm] using And.intro hle hi
      | true =>
        simp only [hm, if_true, Bool.true_and, decide_eq_false_iff_not, not_lt, forall_const] at hle hi ⊢
        rw [← hi]
        omega

/-- Output by output, what counts as credit is available or reserved. -/
theorem tally_split {c' r' : Int} : ∀ (vout : List CTxOut) (i : Nat) (c r : Int), pcoin.tx.vout.drop i = vout →
    w.tally (fun i => !pcoin.isSpent i) i c vout = some c' →
    w.tally (fun i => !pcoin.isSpent i && pcoin.isEnigmaReserved i) i r vout = some r' →
    c' - c = (((range' i vout.length).filter (w.isAvailable pcoin)).map fun j =>
      ((pcoin.tx.vout[j]?).map CTxOut.nValue).getD 0).sum + (r' - r)
  | [], i, c, r, _, hc, hr => by
    cases hc
    cases hr
    simp
  | txout :: vout, i, c, r, hd, hc, hr => by
    have hg : pcoin.tx.vout[i]? = some txout := by
      rw [← head?_drop, hd, head?_cons]
    have hres : pcoin.tx.vout.drop (i + 1) = vout := by
      rw [← tail_drop, hd, tail_cons]
    rw [length_cons, range'_succ, filter_cons, isAvailable, hg]
    cases hs : pcoin.isSpent i with
    | true =>
      rw [tally, hs, Bool.not_true, if_neg Bool.false_ne_true] at hc
      rw [tally, hs, Bool.not_true, Bool.false_and, if_neg Bool.false_ne_true] at hr
      simpa using tally_split vout (i + 1) c r hres hc hr
    | false =>
      obtain ⟨hv, hc⟩ := tally_counted (by simp [hs]) hc
      cases hre : pcoin.isEnigmaReserved i with
      | true =>
        obtain ⟨-, hr⟩ := tally_counted (by simp [hs, hre]) hr
        have ih := tally_split vout (i + 1) _ _ hres hc hr
        simp only [Bool.not_true, Bool.false_and, Bool.false_eq_true, if_false]
        omega
      | false =>
        rw [tally, hs, hre, Bool.and_false, if_neg Bool.false_ne_true] at hr
        have ih := tally_split vout (i + 1) _ _ hres hc hr
        simp only [Bool.not_false, Bool.true_and]
        cases hm : w.isMine txout with
        | false =>
          simp only [hm, Bool.false_eq_true, if_false, Bool.false_and] at ih ⊢
          omega
        | true =>
          simp only [hm, if_true, Bool.true_and, decide_eq_true_eq] at ih ⊢
          split
          · rw [map_cons, sum_cons, hg]
            simp only [Option.map_some, Option.getD_some]
            omega
          · omega

theorem availableOf_eq (hash : Hash256) : w.availableOf view true hash pcoin =
    if view.isFinal pcoin && view.isConfirmed pcoin && !CachedTx.immature
      (view.getBlocksToMaturity pcoin) { pcoin with } then
      ((range pcoin.tx.vout.length).filter (w.isAvailable pcoin)).map fun i =>
        ⟨hash, pcoin, i, view.getDepthInMainChain pcoin⟩ else [] := by
  unfold availableOf CachedTx.immature
  grind

theorem sum_pos_eq_zero_iff {l : List Int} (h : ∀ x ∈ l, 0 < x) : 0 ≤ l.sum ∧ (l.sum = 0 ↔ l = []) := by
  induction l with
  | nil => simp
  | cons x l ih =>
    rw [forall_mem_cons] at h
    have := ih h.2
    simp only [sum_cons, reduceCtorEq, iff_false]
    omega

/-- A final, confirmed and mature transaction has no output that can be spent, or no unspent output that is reserved
and worth something to us. -/
def Whole (w : CWallet) (view : ChainView) (pcoin : CWalletTx) : Prop :=
  (view.isFinal pcoin && view.isConfirmed pcoin && !CachedTx.immature
    (view.getBlocksToMaturity pcoin) { pcoin with }) = true →
    (∀ i < pcoin.tx.vout.length, w.isAvailable pcoin i = false) ∨
      ∀ i, (!pcoin.isSpent i && pcoin.isEnigmaReserved i) = true → w.pays pcoin i = false

/-- What the balance counts of a transaction and neither side of the split does. -/
theorem credited_split (hash : Hash256) {c r : Int} (hc : w.credited view pcoin = some c)
    (hr : w.reserved view pcoin = some r) :
    ∃ d, c = ((w.availableOf view true hash pcoin).map COutput.nValue).sum + r + d ∧ 0 ≤ d ∧
      (d = 0 ↔ w.Whole view pcoin) := by
  obtain ⟨credit, hcr, amount, ha, hr⟩ : ∃ credit, w.availableCredit view pcoin = some credit ∧
      ∃ amount, w.reservedAmount view pcoin = some amount ∧
        (if (view.isFinal pcoin && view.isConfirmed pcoin && credit == amount) = true then amount else 0) = r := by
    simpa [reserved, Option.bind_eq_some_iff] using hr
  rw [credited, hcr] at hc
  rw [availableOf_eq, Whole]
  cases hf : view.isFinal pcoin && view.isConfirmed pcoin with
  | false => exact ⟨0, by simp_all, le_rfl, by simp⟩
  | true =>
    unfold availableCredit CachedTx.getAvailableCredit at hcr
    unfold reservedAmount CachedTx.getEnigmaReservedAmount at ha
    cases hi : CachedTx.immature (view.getBlocksToMaturity pcoin) { pcoin with } with
    | true => exact ⟨0, by simp_all, le_rfl, by simp⟩
    | false =>
      rw [hi, if_neg Bool.false_ne_true] at hcr ha
      have hcr : w.tally (fun i => !pcoin.isSpent i) 0 0 pcoin.tx.vout = some credit :=
        ((Memo.exact_clear ⟨false, 0⟩ _).read_fst false).symm.trans hcr
      have ha : w.tally (fun i => !pcoin.isSpent i && pcoin.isEnigmaReserved i) 0 0 pcoin.tx.vout = some amount :=
        ((Memo.exact_clear ⟨false, 0⟩ _).read_fst false).symm.trans ha
      have hs := tally_split pcoin.tx.vout 0 0 0 rfl hcr ha
      obtain ⟨hle, hz⟩ := tally_grows pcoin.tx.vout 0 0 rfl ha
      obtain rfl : credit = c := by simpa [hf] using hc
      rw [← range_eq_range'] at hs
      simp only [hf, Bool.true_and, beq_iff_eq] at hr
      simp only [Bool.true_and, Bool.not_false, if_true, map_map, Function.comp_def, COutput.nValue, true_imp_iff]
      have hpos : ∀ x ∈ ((range pcoin.tx.vout.length).filter (w.isAvailable pcoin)).map fun j =>
          ((pcoin.tx.vout[j]?).map CTxOut.nValue).getD 0, 0 < x := by
        intro x hx
        obtain ⟨j, hj, rfl⟩ := mem_map.mp hx
        have hav := (mem_filter.mp hj).2
        unfold isAvailable at hav
        split at hav
        · cases hav
        · rename_i txout ho
          simp_all
      obtain ⟨hge, hnil⟩ := sum_pos_eq_zero_iff hpos
      rw [map_eq_nil_iff, filter_eq_nil_iff] at hnil
      simp only [mem_range, Bool.not_eq_true] at hnil
      rw [← hnil, show (∀ i, (!pcoin.isSpent i && pcoin.isEnigmaReserved i) = true → w.pays pcoin i = false) ↔
        amount = 0 by simp [hz]]
      generalize (((range pcoin.tx.vout.length).filter (w.isAvailable pcoin)).map fun j =>
        ((pcoin.tx.vout[j]?).map CTxOut.nValue).getD 0).sum = spendable at hs hge ⊢
      refine ⟨credit - spendable - r, by omega, ?_⟩
      split_ifs at hr <;> omega

theorem balance_split_iff (w : CWallet) (view : ChainView) {nBalance nReserved : Int}
    (hb : w.getBalance view = some nBalance) (hr : w.getEnigmaReservedBalance view = some nReserved) :
    nBalance = ((w.availableCoins view true).map COutput.nValue).sum + nReserved ↔
      ∀ p ∈ w.mapWallet.toList, w.Whole view p.2 := by
  unfold getBalance at hb
  unfold getEnigmaReservedBalance at hr
  unfold availableCoins
  generalize w.mapWallet.toList = l at hb hr ⊢
  -- the totals so far are arbitrary
  suffices h : ∀ b r, total (w.credited view) l b = some nBalance → total (w.reserved view) l r = some nReserved →
      ∃ d, nBalance - b = ((l.flatMap fun p => w.availableOf view true p.1 p.2).map COutput.nValue).sum +
        (nReserved - r) + d ∧ 0 ≤ d ∧ (d = 0 ↔ ∀ p ∈ l, w.Whole view p.2) by
    obtain ⟨d, hd, -, hz⟩ := h 0 0 hb hr
    rw [← hz]
    omega
  clear hb hr
  induction l with
  | nil =>
    rintro b r ⟨rfl⟩ ⟨rfl⟩
    exact ⟨0, by simp, le_rfl, by simp⟩
  | cons p rest ih =>
    intro b r hb hr
    obtain ⟨c, hc, hb⟩ := Option.bind_eq_some_iff.mp hb
    obtain ⟨a, ha, hr⟩ := Option.bind_eq_some_iff.mp hr
    obtain ⟨d, hd, hge, hz⟩ := credited_split p.1 hc ha
    obtain ⟨d', hd', hge', hz'⟩ := ih _ _ hb hr
    refine ⟨d + d', ?_, by omega, ?_⟩
    · rw [flatMap_cons, map_append, sum_append]
      omega
    · rw [forall_mem_cons, ← hz, ← hz']
      omega

end CWallet

namespace Sample

/-- The transaction with its two outputs, and which of them are reserved. -/
def holding (vfEnigmaReserved : List Bool) : CWallet :=
  { oneKey with mapWallet := ExtTreeMap.empty.insert 1 { twoOutputs with vfEnigmaReserved } }

def deep : ChainView := ⟨fun _ => true, fun _ => true, fun _ => 0, fun _ => 10⟩

theorem balance_split_all_reserved : (holding [true, true]).getBalance deep = some 900 ∧
    900 = (((holding [true, true]).availableCoins deep true).map COutput.nValue).sum + 900 := by
  refine ⟨by decide +kernel, (CWallet.balance_split_iff _ deep (by decide +kernel) (by decide +kernel)).mpr ?_⟩
  rintro p hp -
  obtain rfl := mem_singleton.mp hp
  exact .inl (by decide +kernel)

/-- One of the two outputs is reserved: it counts in the balance and on neither side of the split. -/
theorem part_reserved_lost : (holding [true, false]).getBalance deep = some 900 ∧
    ((holding [true, false]).availableCoins deep true).map COutput.nValue = [500] ∧
    (holding [true, false]).getEnigmaReservedBalance deep = some 0 := by
  decide +kernel

end Sample

end CloakCoin.Wallet
