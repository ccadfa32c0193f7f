import CloakCoin.Lib.Word
import CloakCoin.Wallet.Wallet

/-!
# Choosing and reserving coins

`AvailableCoins` lists the spendable outputs of the wallet that are not reserved, `SelectCoinsMinConf`
chooses some of them that reach a target, and the chosen ones are marked as reserved for Enigma.

The selection is written over the arithmetic it is done in: 64-bit amounts in the program, and unbounded ones where a
development above it leaves the range to its reader. Both choose among the eligible outputs; that the target is reached
is shown for amounts that the arithmetic keeps (`Keeps`).
-/

namespace CloakCoin.Wallet

open Chain Lib
open Std (ExtTreeMap)
open List Option

variable {fOnlyConfirmed : Bool} {nTargetValue nSpendTime value nConfTheirs nConfMine : Int} {rng : Draws} {i : Nat}
  {values : List Int}

/-- What the chain says of a wallet transaction, and its owner's clock. -/
structure ChainView where
  isFinal : CWalletTx → Bool
  isConfirmed : CWalletTx → Bool
  getBlocksToMaturity : CWalletTx → Int
  getDepthInMainChain : CWalletTx → Int

/-- An output of the wallet transaction stored under `hash`. -/
structure COutput where
  hash : Hash256
  tx : CWalletTx
  i : Nat
  nDepth : Int
  deriving DecidableEq

namespace COutput

def outPoint (c : COutput) : COutPoint := ⟨c.hash, c.i⟩

def nValue (c : COutput) : Int := ((c.tx.tx.vout[c.i]?).map CTxOut.nValue).getD 0

end COutput

/-! ## `AvailableCoins` -/

variable (w : CWallet)

/-- The output can be spent and is neither spent nor reserved. -/
def CWallet.isAvailable (pcoin : CWalletTx) (i : Nat) : Bool :=
  match pcoin.tx.vout[i]? with
  | none => false
  | some txout => !pcoin.isEnigmaReserved i && !pcoin.isSpent i && w.isMine txout && decide (txout.nValue > 0)

def CWallet.availableOf (view : ChainView) (fOnlyConfirmed : Bool) (hash : Hash256) (pcoin : CWalletTx) :
    List COutput :=
  if !view.isFinal pcoin then []
  else if fOnlyConfirmed && !view.isConfirmed pcoin then []
  else if pcoin.tx.isCoinBase && decide (view.getBlocksToMaturity pcoin > 0) then []
  else if pcoin.tx.isCoinStake && decide (view.getBlocksToMaturity pcoin > 0) then []
  else ((range pcoin.tx.vout.length).filter (w.isAvailable pcoin)).map fun i =>
    ⟨hash, pcoin, i, view.getDepthInMainChain pcoin⟩

def CWallet.availableCoins (view : ChainView) (fOnlyConfirmed : Bool) : List COutput :=
  w.mapWallet.toList.flatMap fun p => w.availableOf view fOnlyConfirmed p.1 p.2

/-! ## `SelectCoinsMinConf` -/

section
variable (A : Arith)

/-- The coins below the target, and the smallest of those above. -/
structure Buckets where
  vValue : List COutput := []
  coinLowestLarger : Option COutput := none

/-- The coin replaces the one in `coinLowestLarger`, which starts as no coin with the greatest amount there is. -/
def Buckets.isLower (b : Buckets) (coin : COutput) : Bool :=
  match b.coinLowestLarger with
  | none => A.belowMax coin.nValue
  | some larger => decide (coin.nValue < larger.nValue)

def sortBySize (nTargetValue : Int) : List COutput → Buckets → COutput ⊕ Buckets
  | [], b => .inr b
  | coin :: rest, b =>
    if coin.nValue = nTargetValue then .inl coin
    else if coin.nValue < A.store (nTargetValue + cent) then
      sortBySize nTargetValue rest { b with vValue := b.vValue ++ [coin] }
    else if b.isLower A coin then sortBySize nTargetValue rest { b with coinLowestLarger := some coin }
    else sortBySize nTargetValue rest b

structure Subset where
  vfIncluded : List Bool
  nTotal : Int
  fReachedTarget : Bool
  vfBest : List Bool
  nBest : Int

/-- Include coin `i` and take it out again once the target is reached. -/
def Subset.add (nTargetValue : Int) (st : Subset) (i : Nat) (value : Int) : Subset :=
  let nTotal := A.store (st.nTotal + value)
  let vfIncluded := st.vfIncluded.set i true
  if nTotal ≥ nTargetValue then
    { vfIncluded := vfIncluded.set i false
      nTotal := st.nTotal
      fReachedTarget := true
      vfBest := if nTotal < st.nBest then vfIncluded else st.vfBest
      nBest := if nTotal < st.nBest then nTotal else st.nBest }
  else { st with vfIncluded := vfIncluded, nTotal := nTotal }

def Subset.pass (nTargetValue : Int) (first : Bool) : List (Nat × Int) → Subset → Draws → Subset × Draws
  | [], st, rng => (st, rng)
  | (i, value) :: rest, st, rng =>
    let (take, rng) := if first then (decide (rng.head % 2 = 1), rng.tail) else (!st.vfIncluded.getD i false, rng)
    pass nTargetValue first rest (if take then st.add A nTargetValue i value else st) rng

def approximateBestSubset (values : List Int) (nTargetValue : Int) :
    (iterations : Nat) → List Bool × Int → Draws → (List Bool × Int) × Draws
  | 0, best, rng => (best, rng)
  | k + 1, (vfBest, nBest), rng =>
    if nBest = nTargetValue then ((vfBest, nBest), rng)
    else
      let coins := (range values.length).zip values
      let start : Subset := ⟨replicate values.length false, 0, false, vfBest, nBest⟩
      let (st, rng) := start.pass A nTargetValue true coins rng
      let (st, rng) := if st.fReachedTarget then (st, rng) else st.pass A nTargetValue false coins rng
      approximateBestSubset values nTargetValue k (st.vfBest, st.nBest) rng

variable (vValue : List COutput)

def included (vfBest : List Bool) : List COutput :=
  (vValue.zip vfBest).filterMap fun (coin, f) => if f then some coin else none

/-- Deep enough, and not later than the spend. -/
def CWallet.isEligible (nSpendTime nConfMine nConfTheirs : Int) (output : COutput) : Bool :=
  !decide (output.nDepth < (if w.isFromMe output.tx.tx then nConfMine else nConfTheirs)) &&
    !decide ((output.tx.tx.nTime : Int) > nSpendTime)

/-- `setCoinsRet` and `nValueRet`, to which the amounts were added one by one. -/
def withValue (coins : List COutput) : List COutput × Int := (coins, A.store (coins.map COutput.nValue).sum)

def CWallet.selectCoinsMinConf (nTargetValue nSpendTime nConfMine nConfTheirs : Int)
    (vCoins : List COutput) (rng : Draws) : Option (List COutput × Int) :=
  match sortBySize A nTargetValue (vCoins.filter (w.isEligible nSpendTime nConfMine nConfTheirs)) {} with
  | .inl coin => some (withValue A [coin])
  | .inr ⟨vValue, coinLowestLarger⟩ =>
    let nTotalLower := A.store (vValue.map COutput.nValue).sum
    if nTotalLower = nTargetValue then some (withValue A vValue)
    else if nTotalLower < nTargetValue then coinLowestLarger.map fun coin => withValue A [coin]
    else
      -- solve subset sum by stochastic approximation
      let vValue := vValue.mergeSort fun a b => decide (a.nValue ≥ b.nValue)
      let values := vValue.map COutput.nValue
      let all := (replicate values.length true, nTotalLower)
      let (best, rng) := approximateBestSubset A values nTargetValue 1000 all rng
      let (best, _) := if best.2 ≠ nTargetValue ∧ nTotalLower ≥ A.store (nTargetValue + cent) then
        approximateBestSubset A values (A.store (nTargetValue + cent)) 1000 all rng else (best, rng)
      match coinLowestLarger with
      | some coin =>
        if (best.2 ≠ nTargetValue ∧ best.2 < A.store (nTargetValue + cent)) ∨ coin.nValue ≤ best.2 then
          some (withValue A [coin])
        else some (withValue A (included vValue best.1))
      | none => some (withValue A (included vValue best.1))

def CWallet.selectCoins (nTargetValue nSpendTime : Int) (vCoins : List COutput) (rng : Draws) :
    Option (List COutput × Int) :=
  (w.selectCoinsMinConf A nTargetValue nSpendTime 1 6 vCoins rng).or
    ((w.selectCoinsMinConf A nTargetValue nSpendTime 1 1 vCoins rng).or
      (w.selectCoinsMinConf A nTargetValue nSpendTime 0 1 vCoins rng))

end

/-! ### What is available, and what is chosen -/

variable {A : Arith} {w : CWallet} {view : ChainView} {c : COutput} {coins vCoins : List COutput}

theorem CWallet.mem_availableOf {hash : Hash256} (h : c ∈ w.availableOf view fOnlyConfirmed hash pcoin) :
    c.hash = hash ∧ c.tx = pcoin ∧ w.isAvailable c.tx c.i = true := by
  unfold availableOf at h
  split_ifs at h
  · cases h
  · cases h
  · cases h
  · cases h
  obtain ⟨i, hi, rfl⟩ := mem_map.mp h
  exact ⟨rfl, rfl, (mem_filter.mp hi).2⟩

theorem CWallet.nodup_availableOf (w : CWallet) (view : ChainView) (fOnlyConfirmed : Bool) (hash : Hash256)
    (pcoin : CWalletTx) : ((w.availableOf view fOnlyConfirmed hash pcoin).map COutput.outPoint).Nodup := by
  unfold availableOf
  split_ifs
  · exact nodup_nil
  · exact nodup_nil
  · exact nodup_nil
  · exact nodup_nil
  rw [List.map_map]
  exact (nodup_range.filter _).map fun i j hij => congrArg COutPoint.n hij

theorem CWallet.mem_availableCoins (h : c ∈ w.availableCoins view fOnlyConfirmed) :
    w.mapWallet[c.hash]? = some c.tx ∧ w.isAvailable c.tx c.i = true := by
  obtain ⟨⟨hash, pcoin⟩, hm, hc⟩ := mem_flatMap.mp h
  rw [ExtTreeMap.mem_toList_iff_getElem?_eq_some] at hm
  obtain ⟨hh, htx, ha⟩ := mem_availableOf hc
  exact ⟨by rw [hh, htx]; exact hm, ha⟩

theorem CWallet.nodup_availableCoins (w : CWallet) (view : ChainView) (fOnlyConfirmed : Bool) :
    ((w.availableCoins view fOnlyConfirmed).map COutput.outPoint).Nodup := by
  have hk : (w.mapWallet.toList.map Prod.fst).Nodup := by
    rw [ExtTreeMap.map_fst_toList_eq_keys]
    exact ExtTreeMap.nodup_keys
  unfold availableCoins
  generalize w.mapWallet.toList = l at hk
  induction l with
  | nil => exact nodup_nil
  | cons p l ih =>
    rw [map_cons, nodup_cons] at hk
    rw [flatMap_cons, map_append, nodup_append]
    refine ⟨w.nodup_availableOf view fOnlyConfirmed p.1 p.2, ih hk.2, ?_⟩
    intro a ha b hb hab
    subst hab
    obtain ⟨c, hc, rfl⟩ := mem_map.mp ha
    obtain ⟨c', hc', heq⟩ := mem_map.mp hb
    obtain ⟨q, hq, hcq⟩ := mem_flatMap.mp hc'
    have hh : c'.hash = c.hash := congrArg COutPoint.hash heq
    refine hk.1 (mem_map.mpr ⟨q, hq, ?_⟩)
    rw [← (mem_availableOf hcq).1, hh, (mem_availableOf hc).1]

/-- What `sortBySize` makes of the coins: one is the target, or `l` is kept in order. If the arithmetic is right
(`ok`), the larger one reaches the target, and `l` is all of the coins unless there is a larger one. -/
inductive SortedBySize (ok : Prop) (nTargetValue : Int) (coins : List COutput) (b : Buckets) : COutput ⊕ Buckets → Prop
  | found {coin : COutput} (mem : coin ∈ coins) (eq : coin.nValue = nTargetValue) :
    SortedBySize ok nTargetValue coins b (.inl coin)
  | sorted {b' : Buckets} {l : List COutput} (sub : l.Sublist coins) (lower : b'.vValue = b.vValue ++ l)
    (larger : ∀ coin, b'.coinLowestLarger = some coin →
      b.coinLowestLarger = some coin ∨ coin ∈ coins ∧ (ok → nTargetValue ≤ coin.nValue))
    (all : ok → b'.coinLowestLarger = none → b.coinLowestLarger = none ∧ l = coins) :
    SortedBySize ok nTargetValue coins b (.inr b')

theorem SortedBySize.cons {ok : Prop} {larger : Option COutput} {b : Buckets} {r : COutput ⊕ Buckets}
    (h : SortedBySize ok nTargetValue coins { b with coinLowestLarger := larger } r)
    (hl : larger = b.coinLowestLarger ∧ (ok → larger ≠ none) ∨ larger = some c ∧ (ok → nTargetValue ≤ c.nValue)) :
    SortedBySize ok nTargetValue (c :: coins) b r := by
  cases h with
  | found mem eq => exact .found (mem_cons_of_mem c mem) eq
  | sorted sub lower low all =>
    refine .sorted (sub.cons c) lower (fun coin hc => ?_) fun hok h => ?_
    · rcases low coin hc with h | ⟨hm, hle⟩
      · rcases hl with ⟨rfl, -⟩ | ⟨rfl, hle⟩
        · exact .inl h
        · cases h
          exact .inr ⟨mem_cons_self, hle⟩
      · exact .inr ⟨mem_cons_of_mem c hm, hle⟩
    · obtain rfl : larger = none := (all hok h).1
      rcases hl with ⟨-, hne⟩ | ⟨heq, -⟩
      · exact absurd rfl (hne hok)
      · cases heq

theorem sortBySize_spec (ok : Prop) (nTargetValue : Int) (coins : List COutput) (b : Buckets)
    (hce : ok → A.store (nTargetValue + cent) = nTargetValue + cent)
    (hbe : ok → ∀ coin ∈ coins, A.belowMax coin.nValue = true) :
    SortedBySize ok nTargetValue coins b (sortBySize A nTargetValue coins b) := by
  have hc0 : (0 : Int) ≤ cent := by decide
  fun_induction sortBySize A nTargetValue coins b with
  | case1 b => exact .sorted .slnil (append_nil _).symm (fun _ h => .inl h) fun _ h => ⟨h, rfl⟩
  | case2 coin rest b heq => exact .found mem_cons_self heq
  | case3 coin rest b hne hlt ih =>
    have ih := ih fun hok c hc => hbe hok c (mem_cons_of_mem coin hc)
    generalize sortBySize A nTargetValue rest _ = r at ih ⊢
    cases ih with
    | found mem eq => exact .found (mem_cons_of_mem coin mem) eq
    | sorted sub lower larger all =>
      refine .sorted (sub.cons_cons coin) (by simp [lower]) (fun c hc => ?_) fun hok h =>
        ⟨(all hok h).1, congrArg _ (all hok h).2⟩
      exact (larger c hc).imp_right (And.imp_left (mem_cons_of_mem coin))
  | case4 coin rest b hne hle hlo ih =>
    refine (ih fun hok c hc => hbe hok c (mem_cons_of_mem coin hc)).cons (.inr ⟨rfl, fun hok => ?_⟩)
    have := hce hok
    omega
  | case5 coin rest b hne hle hlo ih =>
    refine SortedBySize.cons (ih fun hok c hc => hbe hok c (mem_cons_of_mem coin hc)) (.inl ⟨rfl, fun hok hn => hlo ?_⟩)
    rw [Buckets.isLower, hn]
    exact hbe hok coin mem_cons_self

theorem included_sublist {vValue : List COutput} (vfBest : List Bool) : (included vValue vfBest).Sublist vValue := by
  induction vValue generalizing vfBest with
  | nil => simp [included]
  | cons c rest ih =>
    cases vfBest with
    | nil => simp [included]
    | cons f fs =>
      cases f with
      | false => exact (ih fs).cons c
      | true => exact (ih fs).cons_cons c

/-! ### The target is reached -/

def subsetSum (values : List Int) (flags : List Bool) : Int :=
  ((values.zip flags).map fun p => if p.2 then p.1 else 0).sum

theorem subsetSum_set_true (hv : values[i]? = some v) (hf : flags[i]? = some false) :
    subsetSum values (flags.set i true) = subsetSum values flags + v := by
  induction values generalizing flags i with
  | nil => cases hv
  | cons x values ih =>
    cases flags with
    | nil => cases hf
    | cons f flags =>
      cases i with
      | zero =>
        obtain rfl : x = v := some.inj hv
        obtain rfl : f = false := some.inj hf
        simp [subsetSum, add_comm]
      | succ i =>
        have h := ih hv hf
        simp only [subsetSum] at h
        simp [subsetSum, h, add_assoc]

theorem subsetSum_replicate (values : List Int) (b : Bool) :
    subsetSum values (replicate values.length b) = if b then values.sum else 0 := by
  induction values with
  | nil => cases b <;> rfl
  | cons x values ih =>
    simp only [subsetSum] at ih
    simp only [subsetSum, length_cons, replicate_succ, zip_cons_cons, map_cons, sum_cons, ih]
    cases b <;> simp

theorem sum_included {vValue : List COutput} (flags : List Bool) :
    ((included vValue flags).map COutput.nValue).sum = subsetSum (vValue.map COutput.nValue) flags := by
  induction vValue generalizing flags with
  | nil => simp [included, subsetSum]
  | cons c vValue ih =>
    cases flags with
    | nil => simp [included, subsetSum]
    | cons f flags =>
      have h := ih flags
      simp only [included, subsetSum] at h
      cases f <;> simp [included, subsetSum, h]

structure Subset.Sound (values : List Int) (nTargetValue : Int) (st : Subset) : Prop where
  length : st.vfIncluded.length = values.length
  total : subsetSum values st.vfIncluded = st.nTotal
  best : subsetSum values st.vfBest = st.nBest
  reached : nTargetValue ≤ st.nBest

theorem Subset.Sound.add {st : Subset} (hA : ∀ flags, A.store (subsetSum values flags) = subsetSum values flags)
    (h : st.Sound values nTargetValue) (hv : values[i]? = some v)
    (hf : st.vfIncluded[i]? = some false) : (st.add A nTargetValue i v).Sound values nTargetValue := by
  have ha : subsetSum values (st.vfIncluded.set i true) = A.store (st.nTotal + v) := by
    rw [← h.total, ← subsetSum_set_true hv hf, hA]
  have hb : (st.vfIncluded.set i true).set i false = st.vfIncluded := by
    obtain ⟨hlt, hg⟩ := List.getElem?_eq_some_iff.mp hf
    have hs := set_getElem_self hlt
    rwa [set_set, ← hg]
  unfold Subset.add
  dsimp only
  split
  · rename_i hr
    refine ⟨?_, ?_, ?_, ?_⟩
    · rw [hb]
      exact h.length
    · rw [hb]
      exact h.total
    · split
      · exact ha
      · exact h.best
    · split
      · exact hr
      · exact h.reached
  · exact ⟨by rw [length_set]; exact h.length, ha, h.best, h.reached⟩

theorem Subset.add_getElem?_ne (nTargetValue : Int) (st : Subset) (hij : i ≠ j) (v : Int) :
    (st.add A nTargetValue i v).vfIncluded[j]? = st.vfIncluded[j]? := by
  unfold Subset.add
  dsimp only
  split
  · rw [getElem?_set_ne hij, getElem?_set_ne hij]
  · rw [getElem?_set_ne hij]

theorem Subset.Sound.pass (hA : ∀ flags, A.store (subsetSum values flags) = subsetSum values flags)
    (coins : List (Nat × Int)) {st : Subset} (h : st.Sound values nTargetValue)
    (rng : Draws) (hn : (coins.map Prod.fst).Nodup) (hc : ∀ p ∈ coins, values[p.1]? = some p.2)
    (hcl : first = true → ∀ p ∈ coins, st.vfIncluded[p.1]? = some false) :
    (st.pass A nTargetValue first coins rng).1.Sound values nTargetValue := by
  induction coins generalizing st rng with
  | nil => exact h
  | cons p coins ih =>
    obtain ⟨i, v⟩ := p
    rw [map_cons, nodup_cons] at hn
    rw [forall_mem_cons] at hc
    have hlt : i < st.vfIncluded.length := by
      rw [h.length]
      exact (List.getElem?_eq_some_iff.mp hc.1).1
    have hne : ∀ q ∈ coins, i ≠ q.1 := fun q hq heq => hn.1 (mem_map.mpr ⟨q, hq, heq.symm⟩)
    have hgo (rng' : Draws) (take : Bool) (ht : take = true → st.vfIncluded[i]? = some false) :
        (Subset.pass A nTargetValue first coins (if take then st.add A nTargetValue i v else st) rng').1.Sound values
          nTargetValue := by
      cases take with
      | false => exact ih h rng' hn.2 hc.2 fun hf q hq => hcl hf q (mem_cons_of_mem _ hq)
      | true =>
        refine ih (h.add hA hc.1 (ht rfl)) rng' hn.2 hc.2 fun hf q hq => ?_
        rw [Subset.add_getElem?_ne nTargetValue st (hne q hq)]
        exact hcl hf q (mem_cons_of_mem _ hq)
    cases first with
    | true => exact hgo _ _ fun _ => hcl rfl (i, v) mem_cons_self
    | false =>
      refine hgo _ _ fun ht => ?_
      rw [getD_eq_getElem?_getD, getElem?_eq_getElem hlt, getD_some, Bool.not_eq_true'] at ht
      rw [getElem?_eq_getElem hlt, ht]

theorem approximateBestSubset_spec (values : List Int) (nTargetValue : Int) (iterations : Nat) (best : List Bool × Int)
    (rng : Draws) (hA : ∀ flags, A.store (subsetSum values flags) = subsetSum values flags)
    (hb : subsetSum values best.1 = best.2) (hr : nTargetValue ≤ best.2) :
    subsetSum values (approximateBestSubset A values nTargetValue iterations best rng).1.1 =
        (approximateBestSubset A values nTargetValue iterations best rng).1.2 ∧
      nTargetValue ≤ (approximateBestSubset A values nTargetValue iterations best rng).1.2 := by
  induction iterations generalizing best rng with
  | zero => exact ⟨hb, hr⟩
  | succ k ih =>
    obtain ⟨vfBest, nBest⟩ := best
    rw [approximateBestSubset]
    split
    · exact ⟨hb, hr⟩
    have hc : ∀ p ∈ (range values.length).zip values, values[p.1]? = some p.2 := by
      intro p hp
      obtain ⟨i, hi, hg⟩ := mem_iff_getElem.mp hp
      rw [← hg, getElem_zip, getElem_range]
      exact getElem?_eq_getElem _
    have hn : (((range values.length).zip values).map Prod.fst).Nodup := by
      rw [map_fst_zip (by rw [length_range])]
      exact nodup_range
    have hst : Subset.Sound values nTargetValue ⟨replicate values.length false, 0, false, vfBest, nBest⟩ :=
      ⟨length_replicate, subsetSum_replicate values false, hb, hr⟩
    have hf : (Subset.pass A nTargetValue true _ _ rng).1.Sound values nTargetValue :=
      hst.pass hA _ rng hn hc fun _ p hp =>
        List.getElem?_replicate_of_lt (List.getElem?_eq_some_iff.mp (hc p hp)).1
    dsimp only
    generalize Subset.pass A nTargetValue true _ _ rng = p at hf ⊢
    split
    · exact ih _ _ hf.best hf.reached
    · have hs : (p.1.pass A nTargetValue false _ p.2).1.Sound values nTargetValue :=
        hf.pass hA _ p.2 hn hc fun h => absurd h Bool.false_ne_true
      exact ih _ _ hs.best hs.reached

/-- The arithmetic keeps all amounts that a selection from `offered` computes. -/
structure Keeps (A : Arith) (nTargetValue : Int) (offered : List COutput) : Prop where
  target : A.store (nTargetValue + cent) = nTargetValue + cent
  sums : ∀ l : List COutput, l.Subperm offered → A.store (l.map COutput.nValue).sum = (l.map COutput.nValue).sum
  below : ∀ coin ∈ offered, A.belowMax coin.nValue = true

theorem keeps_exact (nTargetValue : Int) (offered : List COutput) : Keeps .exact nTargetValue offered :=
  ⟨rfl, fun _ _ => rfl, fun _ _ => rfl⟩

/-- What can come of a selection: too little is offered, or some of it reaches the target. -/
inductive Selection (A : Arith) (nTargetValue : Int) (offered : List COutput) : Option (List COutput × Int) → Prop
  | short (lt : Keeps A nTargetValue offered → (offered.map COutput.nValue).sum < nTargetValue) :
    Selection A nTargetValue offered none
  | chosen {coins : List COutput} (sub : coins.Subperm offered)
    (reach : Keeps A nTargetValue offered → nTargetValue ≤ (coins.map COutput.nValue).sum) :
    Selection A nTargetValue offered (some (withValue A coins))

theorem CWallet.selectCoinsMinConf_selection (A : Arith) (w : CWallet)
    (nTargetValue nSpendTime nConfMine nConfTheirs : Int)
    (vCoins : List COutput) (rng : Draws) :
    Selection A nTargetValue (vCoins.filter (w.isEligible nSpendTime nConfMine nConfTheirs))
      (w.selectCoinsMinConf A nTargetValue nSpendTime nConfMine nConfTheirs vCoins rng) := by
  have hce : (0 : Int) ≤ cent := by decide
  unfold selectCoinsMinConf
  generalize vCoins.filter _ = offered
  have ho : ∀ coin ∈ offered, (Keeps A nTargetValue offered → nTargetValue ≤ coin.nValue) →
      Selection A nTargetValue offered (some (withValue A [coin])) := by
    intro coin hm hle
    exact .chosen (singleton_subperm_iff.mpr hm) fun hk => by simpa using hle hk
  have hs := sortBySize_spec (Keeps A nTargetValue offered) nTargetValue offered {} Keeps.target Keeps.below
  dsimp only
  generalize sortBySize A nTargetValue offered {} = sorted at hs ⊢
  cases hs with
  | found mem eq => exact ho _ mem fun _ => eq.ge
  | @sorted b' vValue sub lower larger all =>
  obtain rfl : b'.vValue = vValue := lower
  have hl : ∀ coin, b'.coinLowestLarger = some coin → Selection A nTargetValue offered (some (withValue A [coin])) := by
    intro coin hc
    obtain ⟨hm, hle⟩ := (larger coin hc).resolve_left (by simp)
    exact ho coin hm hle
  dsimp only
  split
  · rename_i heq
    exact .chosen sub.subperm fun hk => (heq.symm.trans (hk.sums _ sub.subperm)).le
  split
  · rename_i hlt
    cases hc : b'.coinLowestLarger with
    | none =>
      refine .short fun hk => ?_
      rwa [hk.sums _ sub.subperm, (all hk hc).2] at hlt
    | some coin => exact hl coin hc
  rename_i hlt
  have hp := mergeSort_perm b'.vValue fun a b => decide (a.nValue ≥ b.nValue)
  have hi : ∀ flags, (included (b'.vValue.mergeSort fun a b => decide (a.nValue ≥ b.nValue)) flags).Subperm offered :=
    fun flags => ((included_sublist flags).subperm.trans hp.subperm).trans sub.subperm
  have ha : Keeps A nTargetValue offered →
      subsetSum ((b'.vValue.mergeSort fun a b => decide (a.nValue ≥ b.nValue)).map COutput.nValue)
        (replicate ((b'.vValue.mergeSort fun a b => decide (a.nValue ≥ b.nValue)).map
          COutput.nValue).length true) =
      A.store (b'.vValue.map COutput.nValue).sum := by
    intro hk
    rw [subsetSum_replicate, if_pos rfl, (hp.map COutput.nValue).sum_eq, hk.sums _ sub.subperm]
  generalize b'.vValue.mergeSort _ = vValue at ha hi ⊢
  generalize A.store (b'.vValue.map COutput.nValue).sum = nTotalLower at ha hlt ⊢
  have hA : Keeps A nTargetValue offered → ∀ flags, A.store (subsetSum (vValue.map COutput.nValue) flags) =
      subsetSum (vValue.map COutput.nValue) flags := by
    intro hk flags
    rw [← sum_included]
    exact hk.sums _ (hi flags)
  have hf (hk : Keeps A nTargetValue offered) :=
    approximateBestSubset_spec (vValue.map COutput.nValue) nTargetValue 1000
    (_, nTotalLower) rng (hA hk) (ha hk) (not_lt.mp hlt)
  generalize approximateBestSubset A _ nTargetValue 1000 _ rng = first at hf ⊢
  have hb : Keeps A nTargetValue offered → nTargetValue ≤ subsetSum (vValue.map COutput.nValue)
      (if first.1.2 ≠ nTargetValue ∧ nTotalLower ≥ A.store (nTargetValue + cent) then
        approximateBestSubset A (vValue.map COutput.nValue) (A.store (nTargetValue + cent)) 1000
          (replicate (vValue.map COutput.nValue).length true, nTotalLower) first.2
            else (first.1, first.2)).1.1 := by
    intro hk
    split
    · rename_i hse
      obtain ⟨hsu, hr⟩ := approximateBestSubset_spec (vValue.map COutput.nValue) (A.store (nTargetValue + cent)) 1000
        (_, nTotalLower) first.2 (hA hk) (ha hk) hse.2
      have := hk.target
      omega
    · exact (hf hk).1 ▸ (hf hk).2
  generalize (ite (first.1.2 ≠ nTargetValue ∧ nTotalLower ≥ A.store (nTargetValue + cent)) _ _ :
    (List Bool × Int) × Draws) = best at hb ⊢
  rw [← sum_included] at hb
  split
  · rename_i coin hc
    split
    · exact hl coin hc
    · exact .chosen (hi _) hb
  · exact .chosen (hi _) hb

theorem CWallet.selectCoinsMinConf_spec
    (h : w.selectCoinsMinConf A nTargetValue nSpendTime nConfMine nConfTheirs vCoins rng = some (coins, value)) :
    coins.Subperm (vCoins.filter (w.isEligible nSpendTime nConfMine nConfTheirs)) ∧
      value = A.store (coins.map COutput.nValue).sum ∧
      (Keeps A nTargetValue (vCoins.filter (w.isEligible nSpendTime nConfMine nConfTheirs)) →
        nTargetValue ≤ (coins.map COutput.nValue).sum) := by
  have hs := w.selectCoinsMinConf_selection A nTargetValue nSpendTime nConfMine nConfTheirs vCoins rng
  rw [h] at hs
  cases hs with
  | chosen sub reach => exact ⟨sub, rfl, reach⟩

theorem sum_le_of_subperm (h : coins.Subperm vCoins) (hp : ∀ c ∈ vCoins, 0 < c.nValue) :
    (coins.map COutput.nValue).sum ≤ (vCoins.map COutput.nValue).sum := by
  obtain ⟨l, hlp, hls⟩ := h
  rw [← (hlp.map COutput.nValue).sum_eq]
  refine (hls.map COutput.nValue).sum_le_sum fun x hx => ?_
  obtain ⟨c, hc, rfl⟩ := mem_map.mp hx
  exact (hp c hc).le

theorem nodup_of_subperm (h : coins.Subperm vCoins) (hn : (vCoins.map COutput.outPoint).Nodup) :
    (coins.map COutput.outPoint).Nodup := by
  obtain ⟨l, hlp, hls⟩ := h
  exact (hlp.map COutput.outPoint).nodup_iff.mp ((hls.map COutput.outPoint).nodup hn)

theorem Keeps.subperm (h : Keeps A nTargetValue vCoins) (hs : coins.Subperm vCoins) : Keeps A nTargetValue coins :=
  ⟨h.target, fun l hl => h.sums l (hl.trans hs), fun c hc => h.below c (hs.subset hc)⟩

/-- The target and all that is offered are amounts below the greatest 64-bit one. -/
structure InRange (nTargetValue : Int) (offered : List COutput) : Prop where
  target : nTargetValue + cent < 2 ^ 63
  total : (offered.map COutput.nValue).sum < 2 ^ 63 - 1

theorem InRange.keeps (h : InRange nTargetValue vCoins) (h0 : 0 ≤ nTargetValue) (hp : ∀ c ∈ vCoins, 0 < c.nValue) :
    Keeps .word nTargetValue vCoins := by
  have hce : (0 : Int) ≤ cent := by decide
  have hto := h.total
  refine ⟨int64_of_fits ⟨by omega, h.target⟩, fun l hl => int64_of_fits ⟨?_, ?_⟩, fun c hc => ?_⟩
  · have hnn : 0 ≤ (l.map COutput.nValue).sum := by
      refine sum_nonneg fun x hx => ?_
      obtain ⟨c, hc, rfl⟩ := mem_map.mp hx
      exact (hp c (hl.subset hc)).le
    omega
  · have hle := sum_le_of_subperm hl hp
    omega
  · have hle := sum_le_of_subperm (singleton_subperm_iff.mpr hc) hp
    rw [map_singleton, sum_singleton] at hle
    exact decide_eq_true (by omega)

namespace CoinSample

def coinOf (hash : Hash256) (nValue : Int) : COutput :=
  ⟨hash, { tx := { nTime := 0, vin := [], vout := [⟨nValue, []⟩] } }, 0, 10⟩

def nobody : CWallet := ⟨∅, [], fun _ => [], 0⟩

end CoinSample

/-! ## The reserved flags -/

def CWallet.hasOutput (w : CWallet) (o : COutPoint) : Bool :=
  (w.mapWallet[o.hash]?).any fun wtx => decide (o.n < wtx.tx.vout.length)

def CWallet.isReserved (w : CWallet) (o : COutPoint) : Bool :=
  (w.mapWallet[o.hash]?).any fun wtx => decide (o.n < wtx.tx.vout.length) && wtx.isEnigmaReserved o.n

def CWallet.isSpentOutput (w : CWallet) (o : COutPoint) : Bool :=
  (w.mapWallet[o.hash]?).any fun wtx => wtx.isSpent o.n

def CWallet.coinValue (w : CWallet) (o : COutPoint) : Int :=
  (((w.mapWallet[o.hash]?).bind fun wtx => wtx.tx.vout[o.n]?).map CTxOut.nValue).getD 0

theorem CWallet.available_spec (h : c ∈ w.availableCoins view fOnlyConfirmed) :
    w.hasOutput c.outPoint = true ∧ w.isReserved c.outPoint = false ∧ w.isSpentOutput c.outPoint = false ∧
      c.nValue = w.coinValue c.outPoint ∧ 0 < c.nValue := by
  obtain ⟨hg, ha⟩ := mem_availableCoins h
  unfold isAvailable at ha
  cases ho : c.tx.tx.vout[c.i]? with
  | none =>
    rw [ho] at ha
    cases ha
  | some txout =>
    rw [ho] at ha
    simp only [Bool.and_eq_true, Bool.not_eq_true', decide_eq_true_eq] at ha
    obtain ⟨⟨⟨hr, hs⟩, -⟩, hv⟩ := ha
    have hlt : c.i < c.tx.tx.vout.length := (List.getElem?_eq_some_iff.mp ho).1
    have hc : c.nValue = txout.nValue := by simp [COutput.nValue, ho]
    refine ⟨by simp [hasOutput, COutput.outPoint, hg, hlt], by simp [isReserved, COutput.outPoint, hg, hr],
      by simp [isSpentOutput, COutput.outPoint, hg, hs], ?_, hc ▸ hv⟩
    simp [hc, coinValue, COutput.outPoint, hg, ho]

structure Chosen (w : CWallet) (os : List COutPoint) (value : Int) : Prop where
  nodup : os.Nodup
  has : ∀ o ∈ os, w.hasOutput o = true
  free : ∀ o ∈ os, w.isReserved o = false
  unspent : ∀ o ∈ os, w.isSpentOutput o = false
  pos : ∀ o ∈ os, 0 < w.coinValue o
  value : value = int64 (os.map w.coinValue).sum

theorem CWallet.sum_le_available (h : coins.Subperm (w.availableCoins view fOnlyConfirmed)) :
    (coins.map COutput.nValue).sum ≤ ((w.availableCoins view fOnlyConfirmed).map COutput.nValue).sum :=
  sum_le_of_subperm h fun _ hc => (available_spec hc).2.2.2.2

theorem CWallet.outPoint_not_null
    (hle : ∀ (hash : Hash256) (wtx : CWalletTx), w.mapWallet[hash]? = some wtx → wtx.tx.vout.length ≤ uintMax)
    (h : c ∈ w.availableCoins view fOnlyConfirmed) : c.outPoint.isNull = false := by
  have hh := (available_spec h).1
  have hg := (mem_availableCoins h).1
  have hle := hle _ _ hg
  rw [hasOutput, COutput.outPoint, hg] at hh
  have hlt : c.i < c.tx.tx.vout.length := of_decide_eq_true hh
  rw [COutPoint.isNull, Bool.and_eq_false_iff]
  simp only [COutput.outPoint, beq_eq_false_iff_ne]
  omega

theorem CWallet.nodup_of_subperm_available
    (h : coins.Subperm (w.availableCoins view fOnlyConfirmed)) : (coins.map COutput.outPoint).Nodup :=
  nodup_of_subperm h (w.nodup_availableCoins view fOnlyConfirmed)

theorem CWallet.chosen_of_select (hp : vCoins.Perm (w.availableCoins view fOnlyConfirmed))
    (h : w.selectCoinsMinConf .word nTargetValue nSpendTime nConfMine nConfTheirs vCoins rng = some (coins, value)) :
    Chosen w (coins.map COutput.outPoint) value ∧
      ((coins.map COutput.outPoint).map w.coinValue).sum ≤
        ((w.availableCoins view fOnlyConfirmed).map COutput.nValue).sum := by
  obtain ⟨hsu, hv, -⟩ := selectCoinsMinConf_spec h
  have hsu := (hsu.trans filter_sublist.subperm).trans hp.subperm
  have hs : ∀ c ∈ coins, _ := fun c hc => available_spec (hsu.subset hc)
  have ha : ∀ o ∈ coins.map COutput.outPoint, w.hasOutput o = true ∧ w.isReserved o = false ∧
      w.isSpentOutput o = false ∧ 0 < w.coinValue o := by
    intro o ho
    obtain ⟨c, hc, rfl⟩ := mem_map.mp ho
    obtain ⟨h1, h2, h3, h4, h5⟩ := hs c hc
    exact ⟨h1, h2, h3, h4 ▸ h5⟩
  have hsum : ((coins.map COutput.outPoint).map w.coinValue).sum = (coins.map COutput.nValue).sum := by
    rw [List.map_map]
    exact congrArg sum (map_congr_left fun c hc => (hs c hc).2.2.2.1.symm)
  refine ⟨⟨?_, fun o ho => (ha o ho).1, fun o ho => (ha o ho).2.1, fun o ho => (ha o ho).2.2.1,
    fun o ho => (ha o ho).2.2.2, ?_⟩, ?_⟩
  · exact nodup_of_subperm_available hsu
  · rw [hv, hsum]
    rfl
  · rw [hsum]
    exact sum_le_available hsu

theorem CWallet.chosen_of_selectCoins (hp : vCoins.Perm (w.availableCoins view fOnlyConfirmed))
    (h : w.selectCoins .word nTargetValue nSpendTime vCoins rng = some (coins, value)) :
    Chosen w (coins.map COutput.outPoint) value := by
  rcases or_eq_some_iff.mp h with h | ⟨-, h⟩
  · exact (chosen_of_select hp h).1
  rcases or_eq_some_iff.mp h with h | ⟨-, h⟩
  · exact (chosen_of_select hp h).1
  · exact (chosen_of_select hp h).1

theorem CWallet.selectCoins_reaches (h : w.selectCoins A nTargetValue nSpendTime vCoins rng = some (coins, value)) :
    coins.Subperm vCoins ∧ value = A.store (coins.map COutput.nValue).sum ∧
      (Keeps A nTargetValue vCoins → nTargetValue ≤ (coins.map COutput.nValue).sum) := by
  have ho {nConfMine nConfTheirs : Int}
      (h : w.selectCoinsMinConf A nTargetValue nSpendTime nConfMine nConfTheirs vCoins rng = some (coins, value)) :
      coins.Subperm vCoins ∧ value = A.store (coins.map COutput.nValue).sum ∧
        (Keeps A nTargetValue vCoins → nTargetValue ≤ (coins.map COutput.nValue).sum) := by
    obtain ⟨hs, hv, hr⟩ := selectCoinsMinConf_spec h
    exact ⟨hs.trans filter_sublist.subperm, hv, fun hk => hr (hk.subperm filter_sublist.subperm)⟩
  rcases or_eq_some_iff.mp h with h | ⟨-, h⟩
  · exact ho h
  rcases or_eq_some_iff.mp h with h | ⟨-, h⟩
  · exact ho h
  · exact ho h

def CWallet.reserveCoin (w : CWallet) (o : COutPoint) : CWallet :=
  match w.mapWallet[o.hash]? with
  | none => w
  | some wtxIn => { w with mapWallet := w.mapWallet.insert o.hash (wtxIn.markEnigmaReserved o.n) }

/-- Remove the reserved flag, so that the coin is available once more. -/
def CWallet.freeCoin (w : CWallet) (o : COutPoint) : CWallet :=
  match w.mapWallet[o.hash]? with
  | none => w
  | some wtxIn => { w with mapWallet := w.mapWallet.insert o.hash (wtxIn.markNotEnigmaReserved o.n) }

theorem getD_resize_set {v : List Bool} {n k : Nat} (b : Bool) (i : Nat) (hi : i < n) :
    ((resize v n).set k b).getD i false = if i = k then b else v.getD i false := by
  have hl : (resize v n).length = n := by
    simp only [resize, length_append, length_take, length_replicate]
    omega
  have hg : (resize v n).getD i false = v.getD i false := by
    simp only [resize, getD_eq_getElem?_getD, getElem?_append, length_take, getElem?_take,
      getElem?_replicate]
    by_cases hv : i < v.length
    · rw [if_pos (by omega), if_pos hi]
    · rw [if_neg (by omega), if_pos (by omega), getElem?_eq_none (by omega)]
      rfl
  rw [getD_eq_getElem?_getD, getElem?_set]
  by_cases hik : k = i
  · rw [if_pos hik, if_pos (by omega), if_pos hik.symm]
    rfl
  · rw [if_neg hik, if_neg fun e => hik e.symm, ← getD_eq_getElem?_getD, hg]

structure SameCoins (w w' : CWallet) : Prop where
  txs : ∀ h : Hash256, (w'.mapWallet[h]?).map (fun wtx => (wtx.tx, wtx.vfSpent)) =
    (w.mapWallet[h]?).map fun wtx => (wtx.tx, wtx.vfSpent)
  keys : w'.keys = w.keys

namespace SameCoins

variable {w w₁ w₂ : CWallet}

theorem refl (w : CWallet) : SameCoins w w := ⟨fun _ => rfl, rfl⟩

theorem trans (h1 : SameCoins w w₁) (h2 : SameCoins w₁ w₂) : SameCoins w w₂ :=
  ⟨fun h => (h2.txs h).trans (h1.txs h), h2.keys.trans h1.keys⟩

section
variable (h : SameCoins w w₁) (o : COutPoint)
include h o

theorem hasOutput : w₁.hasOutput o = w.hasOutput o := by
  have := congrArg (Option.any fun p : CTransaction × List Bool => decide (o.n < p.1.vout.length)) (h.txs o.hash)
  rw [Option.any_map, Option.any_map] at this
  exact this

theorem isSpentOutput : w₁.isSpentOutput o = w.isSpentOutput o := by
  have := congrArg (Option.any fun p : CTransaction × List Bool => p.2.getD o.n false) (h.txs o.hash)
  rw [Option.any_map, Option.any_map] at this
  exact this

theorem coinValue : w₁.coinValue o = w.coinValue o := by
  have := congrArg (fun x : Option (CTransaction × List Bool) =>
    ((x.bind fun p => p.1.vout[o.n]?).map CTxOut.nValue).getD 0) (h.txs o.hash)
  rw [bind_map, bind_map] at this
  exact this

end

end SameCoins

theorem CWallet.setFlag_spec (w' : CWallet) {o : COutPoint} {wtx wtx' : CWalletTx} (b : Bool)
    (hg : w.mapWallet[o.hash]? = some wtx)
    (hwt' : wtx' = { wtx with vfEnigmaReserved := (resize wtx.vfEnigmaReserved wtx.tx.vout.length).set o.n b })
    (hw' : w' = { w with mapWallet := w.mapWallet.insert o.hash wtx' }) :
    SameCoins w w' ∧ ∀ p, w'.isReserved p = if p = o ∧ w.hasOutput o = true then b else w.isReserved p := by
  subst hw'
  constructor
  · refine ⟨fun h => ?_, rfl⟩
    rw [ExtTreeMap.getElem?_insert]
    split
    · rename_i heq
      rw [compare_eq_iff_eq] at heq
      rw [← heq, hg, hwt']
      rfl
    · rfl
  · intro p
    simp only [isReserved, hasOutput, hg, any_some, decide_eq_true_eq]
    rw [ExtTreeMap.getElem?_insert]
    split
    · rename_i heq
      rw [compare_eq_iff_eq] at heq
      rw [← heq, hg, any_some, any_some, hwt', CWalletTx.isEnigmaReserved, CWalletTx.isEnigmaReserved]
      by_cases hp : p.n < wtx.tx.vout.length
      · rw [getD_resize_set _ _ hp]
        by_cases hn : p.n = o.n
        · obtain rfl : p = o := by
            cases p
            cases o
            simp_all
          simp [hp]
        · have hpo : p ≠ o := fun e => hn (by rw [e])
          simp [hn, hpo]
      · by_cases hpo : p = o
        · subst hpo
          simp [hp]
        · simp [hp, hpo]
    · rename_i hne
      have hpo : p ≠ o := fun e => hne (by rw [e, compare_eq_iff_eq])
      simp [hpo]

theorem CWallet.reserveCoin_spec (w : CWallet) (o : COutPoint) : SameCoins w (w.reserveCoin o) ∧
      ∀ p, (w.reserveCoin o).isReserved p = (decide (p = o) && w.hasOutput o || w.isReserved p) := by
  cases hg : w.mapWallet[o.hash]? with
  | none =>
    rw [show w.reserveCoin o = w by simp only [reserveCoin, hg]]
    exact ⟨.refl w, fun p => by simp [hasOutput, hg]⟩
  | some wtx =>
    obtain ⟨hs, hf⟩ := setFlag_spec (w.reserveCoin o) true hg rfl (by simp only [reserveCoin, hg]; rfl)
    refine ⟨hs, fun p => ?_⟩
    rw [hf p]
    by_cases hp : p = o ∧ w.hasOutput o = true
    · simp [hp]
    · rcases not_and_or.mp hp with h | h <;> simp [h]

theorem CWallet.freeCoin_spec (w : CWallet) (o : COutPoint) :
    SameCoins w (w.freeCoin o) ∧ ∀ p, (w.freeCoin o).isReserved p = (!decide (p = o) && w.isReserved p) := by
  cases hg : w.mapWallet[o.hash]? with
  | none =>
    rw [show w.freeCoin o = w by simp only [freeCoin, hg]]
    refine ⟨.refl w, fun p => ?_⟩
    by_cases hp : p = o
    · simp [hp, isReserved, hg]
    · simp [hp]
  | some wtx =>
    obtain ⟨hs, hf⟩ := setFlag_spec (w.freeCoin o) false hg rfl (by simp only [freeCoin, hg]; rfl)
    refine ⟨hs, fun p => ?_⟩
    rw [hf p]
    by_cases hp : p = o
    · subst hp
      by_cases ho : w.hasOutput p = true
      · simp [ho]
      · simp only [hasOutput, hg, any_some, decide_eq_true_eq] at ho
        simp [isReserved, hg, hasOutput, ho]
    · simp [hp]

theorem CWallet.foldl_reserveCoin_spec (os : List COutPoint) (w : CWallet) (hos : ∀ o ∈ os, w.hasOutput o = true) :
    SameCoins w (os.foldl reserveCoin w) ∧
      ∀ p, (os.foldl reserveCoin w).isReserved p = (decide (p ∈ os) || w.isReserved p) := by
  induction os generalizing w with
  | nil => exact ⟨.refl w, fun p => by simp⟩
  | cons o os ih =>
    obtain ⟨hs, hf⟩ := w.reserveCoin_spec o
    obtain ⟨hs', hf'⟩ := ih (w.reserveCoin o) fun q hq => by
      rw [hs.hasOutput]
      exact hos q (mem_cons_of_mem o hq)
    refine ⟨hs.trans hs', fun p => ?_⟩
    rw [foldl_cons, hf' p, hf p, hos o mem_cons_self]
    by_cases hpo : p = o <;> by_cases hp : p ∈ os <;> simp [hpo, hp]

theorem CWallet.foldl_freeCoin_spec (os : List COutPoint) (w : CWallet) : SameCoins w (os.foldl freeCoin w) ∧
      ∀ p, (os.foldl freeCoin w).isReserved p = (!decide (p ∈ os) && w.isReserved p) := by
  induction os generalizing w with
  | nil => exact ⟨.refl w, fun p => by simp⟩
  | cons o os ih =>
    obtain ⟨hs, hf⟩ := w.freeCoin_spec o
    obtain ⟨hs', hf'⟩ := ih (w.freeCoin o)
    refine ⟨hs.trans hs', fun p => ?_⟩
    rw [foldl_cons, hf' p, hf p]
    by_cases hpo : p = o <;> by_cases hp : p ∈ os <;> simp [hpo, hp]

end CloakCoin.Wallet
