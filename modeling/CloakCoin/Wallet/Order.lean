import CloakCoin.Chain.Tx
import Mathlib.Data.List.Sort
import Mathlib.Order.RelIso.Basic

/-!
# The order of transactions

`ReorderTransactions` gives wallet transactions and accounting entries without a position one, in the order
of their times, and shifts the positions there are to make room. An old position is compared with the new ones
as it is, without the shifts before, so that it can be moved onto a new one.
-/

namespace CloakCoin.Wallet

open Chain List

/-- A wallet transaction or an accounting entry: `nTimeReceived` or `nTime`, and the position or -1. -/
structure TxItem where
  key : Hash256 ⊕ Nat
  nTime : Int
  nOrderPos : Int
  deriving DecidableEq

def reorderLoop : List TxItem → Int → List Int → List (TxItem × Int) × Int
  | [], nOrderPosNext, _ => ([], nOrderPosNext)
  | item :: rest, nOrderPosNext, nOrderPosOffsets =>
    if item.nOrderPos = -1 then
      let r := reorderLoop rest (nOrderPosNext + 1) (nOrderPosOffsets ++ [nOrderPosNext])
      ((item, nOrderPosNext) :: r.1, r.2)
    else
      let nOrderPos := item.nOrderPos + nOrderPosOffsets.countP (item.nOrderPos ≥ ·)
      let r := reorderLoop rest (max nOrderPosNext (nOrderPos + 1)) nOrderPosOffsets
      ((item, nOrderPos) :: r.1, r.2)

def itemsByTime (txs : List TxItem) (acentries : List (String × TxItem)) : List TxItem :=
  (txs ++ (acentries.filter (·.1 = "")).map Prod.snd).insertionSort (Order.Preimage (·.nTime) (· ≤ ·))

def reorderTransactions (txs : List TxItem) (acentries : List (String × TxItem)) : List (TxItem × Int) × Int :=
  reorderLoop (itemsByTime txs acentries) 0 []

/-- No old position follows two items without one; `k` of these came before. -/
def placeable : Nat → List TxItem → Bool
  | _, [] => true
  | k, item :: rest => if item.nOrderPos = -1 then placeable (k + 1) rest else k ≤ 1 && placeable k rest

theorem le_one_of_placeable (h : placeable k l = true) (hm : item ∈ l) (hold : item.nOrderPos ≠ -1) : k ≤ 1 := by
  induction l generalizing k with
  | nil => cases hm
  | cons first rest ih =>
    rw [placeable] at h
    grind

theorem map_fst_reorderLoop (l : List TxItem) (next : Int) (offsets : List Int) :
    (reorderLoop l next offsets).1.map Prod.fst = l := by
  fun_induction reorderLoop l next offsets with
  | case1 => rfl
  | case2 item rest next offsets hn r ih => simpa [r] using ih
  | case3 item rest next offsets hold nOrderPos r ih => simpa [r] using ih

theorem reorderLoop_shifts (l : List TxItem) (next : Int) (offsets : List Int) :
    next ≤ (reorderLoop l next offsets).2 ∧ ∀ b ∈ (reorderLoop l next offsets).1, b.2 < (reorderLoop l next offsets).2 ∧
      (b.1.nOrderPos = -1 → next ≤ b.2) ∧
      (b.1.nOrderPos ≠ -1 → b.1.nOrderPos + offsets.countP (b.1.nOrderPos ≥ ·) ≤ b.2 ∧
        (b.1.nOrderPos < next → b.2 = b.1.nOrderPos + offsets.countP (b.1.nOrderPos ≥ ·))) := by
  fun_induction reorderLoop l next offsets with
  | case1 => simp
  | case2 item rest next offsets hn r ih =>
    dsimp only [r]
    refine ⟨by omega, forall_mem_cons.mpr ⟨⟨by dsimp only; omega, by omega, fun h => absurd hn h⟩, fun b hb => ?_⟩⟩
    have h := ih.2 b hb
    grind
  | case3 item rest next offsets hold nOrderPos r ih =>
    dsimp only [r]
    refine ⟨by omega, forall_mem_cons.mpr ⟨⟨by dsimp only; omega, fun h => absurd h hold, by grind⟩, fun b hb => ?_⟩⟩
    grind

structure Ordered (a b : TxItem × Int) : Prop where
  new : b.1.nOrderPos = -1 → a.2 < b.2
  ne : a.1.nOrderPos = -1 → a.2 ≠ b.2
  up : a.1.nOrderPos ≠ -1 → b.1.nOrderPos ≠ -1 → a.1.nOrderPos < b.1.nOrderPos → a.2 < b.2
  down : a.1.nOrderPos ≠ -1 → b.1.nOrderPos ≠ -1 → b.1.nOrderPos < a.1.nOrderPos → b.2 < a.2

theorem reorderLoop_ordered (next : Int) (h : placeable offsets.length l = true) :
    (reorderLoop l next offsets).1.Pairwise Ordered := by
  have hm : ∀ {p q : Int}, p ≤ q → offsets.countP (p ≥ ·) ≤ offsets.countP (q ≥ ·) := fun hpq =>
    countP_mono_left fun o _ ho => by simp at ho ⊢; omega
  fun_induction reorderLoop l next offsets with
  | case1 => exact .nil
  | case2 item rest next offsets hn r ih =>
    rw [placeable, if_pos hn] at h
    refine pairwise_cons.mpr ⟨fun b hb => ?_, ih (by simpa using h) fun hpq => countP_mono_left (by grind)⟩
    have hb' := (reorderLoop_shifts rest (next + 1) (offsets ++ [next])).2 b hb
    have hme : b.1 ∈ rest := map_fst_reorderLoop rest _ _ ▸ mem_map_of_mem hb
    have hk : b.1.nOrderPos ≠ -1 → offsets = [] := fun hold =>
      length_eq_zero_iff.mp (by have := le_one_of_placeable h hme hold; omega)
    constructor <;> grind
  | case3 item rest next offsets hold nOrderPos r ih =>
    rw [placeable, if_neg hold, Bool.and_eq_true] at h
    refine pairwise_cons.mpr ⟨fun b hb => ?_, ih h.2 hm⟩
    have hb' := (reorderLoop_shifts rest _ _).2 b hb
    have hup := @hm item.nOrderPos b.1.nOrderPos
    have hd := @hm b.1.nOrderPos item.nOrderPos
    constructor <;> intros <;> dsimp only at * <;> omega

/-- **The order is consistent** if the accounting entries are of the account `""`, old positions differ, and none of
them follows two items without one. -/
theorem reorder_consistent (txs : List TxItem) (acentries : List (String × TxItem))
    (haccount : ∀ e ∈ acentries, e.1 = "")
    (hpos : ∀ a ∈ itemsByTime txs acentries, -1 ≤ a.nOrderPos)
    (hdiff : (itemsByTime txs acentries).Pairwise fun a b => a.nOrderPos = b.nOrderPos → b.nOrderPos = -1)
    (hplace : placeable 0 (itemsByTime txs acentries) = true) : let r := reorderTransactions txs acentries
    (r.1.map Prod.fst).Perm (txs ++ acentries.map Prod.snd) ∧ (r.1.map Prod.snd).Nodup ∧
      (∀ a ∈ r.1, 0 ≤ a.2 ∧ a.2 < r.2) ∧ ∀ a ∈ r.1, ∀ b ∈ r.1,
        (a.1.nOrderPos = -1 → b.1.nOrderPos = -1 → a.1.nTime < b.1.nTime → a.2 < b.2) ∧
        (a.1.nOrderPos ≠ -1 → b.1.nOrderPos ≠ -1 → a.1.nOrderPos < b.1.nOrderPos → a.2 < b.2) := by
  intro r
  have hit : r.1.map Prod.fst = itemsByTime txs acentries := map_fst_reorderLoop _ _ _
  have ho : r.1.Pairwise Ordered := reorderLoop_ordered 0 hplace
  have hs := (reorderLoop_shifts (itemsByTime txs acentries) 0 []).2
  have hti : (itemsByTime txs acentries).Pairwise fun a b => a.nTime ≤ b.nTime := by
    exact pairwise_insertionSort _ _
  have hp := ho.and ((pairwise_map.mp (hit ▸ hdiff)).and (pairwise_map.mp (hit ▸ hti)))
  refine ⟨?_, ?_, fun a ha => ?_, fun a ha b hb => ?_⟩
  · rw [hit, itemsByTime, filter_eq_self.mpr (by simpa using haccount)]
    exact perm_insertionSort _ _
  · exact pairwise_map.mpr (hp.imp fun {a b} ⟨⟨hnew, hne, hup, hdo⟩, hd, _⟩ => by omega)
  · have h := hs a ha
    have := hpos a.1 (hit ▸ mem_map_of_mem ha)
    exact ⟨by omega, h.1⟩
  · obtain ⟨i, hi, rfl⟩ := getElem_of_mem ha
    obtain ⟨j, hj, rfl⟩ := getElem_of_mem hb
    have hlt := pairwise_iff_getElem.mp hp
    obtain hij | rfl | hij := Nat.lt_trichotomy i j
    · exact ⟨fun _ hb _ => (hlt i j hi hj hij).1.new hb, (hlt i j hi hj hij).1.up⟩
    · omega
    · obtain ⟨hb, -, ht⟩ := hlt j i hj hi hij
      exact ⟨fun _ _ h => absurd h (by omega), fun hi hj => hb.down hj hi⟩

/-- Positions 0, none and 1 in the order of time: the last one makes room. -/
theorem reorder_consistent_three :
    (reorderTransactions [⟨.inl 1, 1, 0⟩, ⟨.inl 2, 2, -1⟩] [("", ⟨.inr 3, 3, 1⟩)]).1.map Prod.snd = [0, 1, 2] ∧
    ((reorderTransactions [⟨.inl 1, 1, 0⟩, ⟨.inl 2, 2, -1⟩] [("", ⟨.inr 3, 3, 1⟩)]).1.map Prod.snd).Nodup :=
  ⟨by decide +kernel, (reorder_consistent [⟨.inl 1, 1, 0⟩, ⟨.inl 2, 2, -1⟩] [("", ⟨.inr 3, 3, 1⟩)] (by decide)
    (by decide +kernel) (by decide +kernel) (by decide +kernel)).2.1⟩

/-- Positions 0, none, none and 1: the last one counts one new position only, and gets the other. -/
theorem reorder_duplicates : (reorderTransactions
    [⟨.inl 1, 1, 0⟩, ⟨.inl 2, 2, -1⟩, ⟨.inl 3, 3, -1⟩, ⟨.inl 4, 4, 1⟩] []).1.map
    Prod.snd = [0, 1, 2, 2] := by decide +kernel

end CloakCoin.Wallet
