import CloakCoin.Wallet.Wallet
import Mathlib.Data.Finset.Union
import Mathlib.Logic.Relation

/-!
# Address groupings

`GetAddressGroupings` forms groups of addresses from single transactions and then merges groups that share an
address. The groups that are left are found through `setmap`, from an address to the pointer of its group.
-/

namespace CloakCoin.Wallet

open Chain List
open Std (ExtTreeMap)

variable {α : Type} [DecidableEq α]

/-! ## Merging -/

/-- The sets on the heap by pointer, those that are not deleted, and the next pointer of `new`. -/
structure Merging (α : Type) where
  heap : Nat → Finset α := fun _ => ∅
  uniqueGroupings : Finset Nat := ∅
  setmap : α → Option Nat := fun _ => none
  fresh : Nat := 0

namespace Merging

/-- The groups hit by a new group. -/
def hits (s : Merging α) (grouping : Finset α) : Finset Nat := grouping.biUnion fun address =>
    (s.setmap address).toFinset

def merged (s : Merging α) (grouping : Finset α) : Finset α := grouping ∪ (s.hits grouping).biUnion s.heap

def merge (s : Merging α) (grouping : Finset α) : Merging α where
  heap := Function.update s.heap s.fresh (s.merged grouping)
  uniqueGroupings := insert s.fresh (s.uniqueGroupings \ s.hits grouping)
  setmap address := if address ∈ s.merged grouping then some s.fresh else s.setmap address
  fresh := s.fresh + 1

def Same (s : Merging α) (a b : α) : Prop := ∃ p, s.setmap a = some p ∧ s.setmap b = some p

def Together (groupings : List (Finset α)) (a b : α) : Prop := ∃ g ∈ groupings, a ∈ g ∧ b ∈ g

structure Inv (groupings : List (Finset α)) (s : Merging α) : Prop where
  setmap : ∀ a p, s.setmap a = some p ↔ p ∈ s.uniqueGroupings ∧ a ∈ s.heap p
  fresh : ∀ p ∈ s.uniqueGroupings, p < s.fresh
  same : ∀ a b, s.Same a b ↔ Relation.TransGen (Together groupings) a b

variable {groupings : List (Finset α)} {s : Merging α} {g : Finset α} {a b : α}

omit [DecidableEq α] in
theorem Same.symm (h : s.Same a b) : s.Same b a := h.imp fun _ => And.symm

instance Same.isTrans (s : Merging α) : IsTrans α s.Same where
  trans _ _ _ := fun ⟨p, ha, hb⟩ ⟨_, hb', hc⟩ => ⟨p, ha, hc.trans (hb'.symm.trans hb)⟩

theorem Inv.mem_merged (h : Inv groupings s) : a ∈ s.merged g ↔ a ∈ g ∨ ∃ x ∈ g, s.Same a x := by
  simp only [merged, hits, Finset.mem_union, Finset.mem_biUnion, Option.mem_toFinset, Option.mem_def, Same, h.setmap]
  grind

theorem Inv.mem_merged_of_same (h : Inv groupings s) (hab : s.Same a b) (ha : a ∈ s.merged g) : b ∈ s.merged g := by
  rw [h.mem_merged] at ha ⊢
  obtain ha | ⟨x, hx, hax⟩ := ha
  · exact .inr ⟨a, ha, hab.symm⟩
  · exact .inr ⟨x, hx, IsTrans.trans _ _ _ hab.symm hax⟩

theorem Inv.setmap_merge (h : Inv groupings s) {p : Nat} :
    (s.merge g).setmap a = some p ↔ p ∈ (s.merge g).uniqueGroupings ∧ a ∈ (s.merge g).heap p := by
  have hm : a ∈ s.merged g ↔ _ := h.mem_merged
  have hs := h.setmap a p
  have hf := h.fresh
  have hh : p ∈ s.hits g ↔ ∃ x ∈ g, s.setmap x = some p := by simp [hits]
  simp only [merge, Finset.mem_insert, Finset.mem_sdiff]
  obtain rfl | hp := eq_or_ne p s.fresh
  · grind
  · unfold Same at hm
    grind

theorem Inv.same_merge (h : Inv groupings s) : (s.merge g).Same a b ↔
    (a ∈ s.merged g ∧ b ∈ s.merged g) ∨ (a ∉ s.merged g ∧ b ∉ s.merged g ∧ s.Same a b) := by
  have hold : ∀ a, s.setmap a ≠ some s.fresh := fun a ha => (h.fresh _ ((h.setmap a _).mp ha).1).false
  simp only [Same, merge]
  grind

theorem Inv.merge (h : Inv groupings s) (g : Finset α) : Inv (g :: groupings) (s.merge g) := by
  have hmo : ∀ {a b}, s.Same a b → Relation.TransGen (Together (g :: groupings)) a b := fun hab =>
    Relation.TransGen.mono (fun _ _ ⟨g', hg', hab⟩ => ⟨g', mem_cons_of_mem _ hg', hab⟩) _ _ ((h.same _ _).mp hab)
  refine ⟨fun a p => h.setmap_merge, fun p hp => ?_, fun a b => ⟨fun hab => ?_, fun hab => ?_⟩⟩
  · obtain rfl | hp := Finset.mem_insert.mp hp
    · exact Nat.lt_succ_self _
    · exact (h.fresh p (Finset.mem_sdiff.mp hp).1).trans (Nat.lt_succ_self _)
  · obtain ⟨ha, hb⟩ | ⟨-, -, hab⟩ := h.same_merge.mp hab
    · have hg : ∀ {x y}, x ∈ g → y ∈ g → Relation.TransGen (Together (g :: groupings)) x y := fun hx hy =>
        .single ⟨g, mem_cons_self, hx, hy⟩
      obtain ha | ⟨x, hx, hax⟩ := h.mem_merged.mp ha <;> obtain hb | ⟨y, hy, hby⟩ := h.mem_merged.mp hb
      · exact hg ha hb
      · exact (hg ha hy).trans (hmo hby.symm)
      · exact (hmo hax).trans (hg hx hb)
      · exact (hmo hax).trans ((hg hx hy).trans (hmo hby.symm))
    · exact hmo hab
  · rw [← Relation.transGen_eq_self (r := (s.merge g).Same)]
    refine Relation.TransGen.mono (fun a b ⟨g', hg', ha, hb⟩ => h.same_merge.mpr ?_) _ _ hab
    obtain rfl | hg' := mem_cons.mp hg'
    · exact .inl ⟨h.mem_merged.mpr (.inl ha), h.mem_merged.mpr (.inl hb)⟩
    have hab : s.Same a b := (h.same a b).mpr (.single ⟨g', hg', ha, hb⟩)
    by_cases hm : a ∈ s.merged g
    · exact .inl ⟨hm, h.mem_merged_of_same hab hm⟩
    · exact .inr ⟨hm, fun hm' => hm (h.mem_merged_of_same hab.symm hm'), hab⟩

omit [DecidableEq α] in
theorem inv_empty : Inv [] ({} : Merging α) := by
  refine ⟨by simp, by simp, fun a b => ⟨by simp [Same], fun h => ?_⟩⟩
  obtain ⟨_, ⟨_, hg, -⟩, -⟩ := Relation.TransGen.head'_iff.mp h
  cases hg

theorem Inv.foldl (h : Inv groupings s) (gs : List (Finset α)) :
    Inv (gs.reverse ++ groupings) (gs.foldl Merging.merge s) := by
  induction gs generalizing groupings s with
  | nil => exact h
  | cons g gs ih => simpa using ih (h.merge g)

end Merging

/-! ## `GetAddressGroupings` -/

/-- `ExtractDestination`, `IsMine` of an address, and the address book. -/
structure AddressBook (α : Type) where
  extractDestination : CScript → Option α
  isMine : α → Bool
  mapAddressBook : α → Bool

namespace CWallet

variable (env : AddressBook α) (w : CWallet)

/-- Ours but not in the address book. -/
def isChange (env : AddressBook α) (txout : CTxOut) : Bool :=
  (env.extractDestination txout.scriptPubKey).any fun address => env.isMine address && !env.mapAddressBook address

def txGroupings (tx : CTransaction) : List (Finset α) :=
  let address (txout : CTxOut) := env.extractDestination txout.scriptPubKey
  let spent (txin : CTxIn) := (w.mapWallet[txin.prevout.hash]?).bind fun prev => prev.tx.vout[txin.prevout.n]?
  (if tx.vin.head?.any fun txin => (w.ownOutput txin).isSome then
    [(tx.vin.filterMap (fun txin => (spent txin).bind address) ++
      (tx.vout.filter (isChange env)).filterMap address).toFinset]
  else []) ++ ((tx.vout.filter w.isMine).filterMap address).map fun a => {a}

def groupings : List (Finset α) := (w.mapWallet.toList.flatMap fun entry => txGroupings env w entry.2.tx).dedup

def getAddressGroupings : Finset (Finset α) :=
  let merging := (groupings env w).foldl Merging.merge {}
  merging.uniqueGroupings.image merging.heap

/-- An address that the first group of a transaction takes in: of an output of a wallet transaction that it spends,
or of a change output. -/
def Drawn (tx : CTransaction) (a : α) : Prop :=
  (∃ txin ∈ tx.vin, ∃ prev out, w.mapWallet[txin.prevout.hash]? = some prev ∧
    prev.tx.vout[txin.prevout.n]? = some out ∧ env.extractDestination out.scriptPubKey = some a) ∨
  (∃ out ∈ tx.vout, env.extractDestination out.scriptPubKey = some a ∧ env.isMine a = true ∧
    env.mapAddressBook a = false)

/-- What a transaction says about two addresses: if its first input is ours, all that it spends and its change
belong together; an output of ours belongs to itself. -/
inductive Linked (tx : CTransaction) : α → α → Prop
  | spent {txin : CTxIn} {a b : α} : tx.vin.head? = some txin → (w.ownOutput txin).isSome → Drawn env w tx a →
    Drawn env w tx b → Linked tx a b
  | lone {out : CTxOut} {a : α} : out ∈ tx.vout → w.isMine out = true →
    env.extractDestination out.scriptPubKey = some a → Linked tx a a

variable {env w} {tx : CTransaction} {a b : α}

omit [DecidableEq α] in
theorem mem_drawn : a ∈ tx.vin.filterMap (fun txin => ((w.mapWallet[txin.prevout.hash]?).bind fun prev =>
        prev.tx.vout[txin.prevout.n]?).bind fun txout => env.extractDestination txout.scriptPubKey) ++
      (tx.vout.filter (isChange env)).filterMap (fun txout => env.extractDestination txout.scriptPubKey) ↔
    Drawn env w tx a := by
  simp only [mem_append, mem_filterMap, mem_filter, Drawn, Option.bind_eq_some_iff, isChange]
  refine or_congr ?_ (exists_congr fun out => ?_)
  · grind
  · constructor
    · rintro ⟨⟨hm, hc⟩, ha⟩
      rw [ha, Option.any_some, Bool.and_eq_true, Bool.not_eq_true'] at hc
      exact ⟨hm, ha, hc⟩
    · rintro ⟨hm, ha, hc⟩
      exact ⟨⟨hm, by simp [ha, hc]⟩, ha⟩

/-- Two addresses are in one group of a transaction exactly if it links them. -/
theorem exists_mem_txGroupings : (∃ g ∈ txGroupings env w tx, a ∈ g ∧ b ∈ g) ↔ Linked env w tx a b := by
  unfold txGroupings
  dsimp only
  constructor
  · rintro ⟨g, hg, ha, hb⟩
    rcases mem_append.mp hg with hg | hg
    · split at hg
      · rename_i hf
        obtain ⟨txin, hh, ho⟩ := (Option.any_eq_true _ _).mp hf
        cases mem_singleton.mp hg
        exact .spent hh ho (mem_drawn.mp (mem_toFinset.mp ha)) (mem_drawn.mp (mem_toFinset.mp hb))
      · cases hg
    · obtain ⟨c, hc, rfl⟩ := mem_map.mp hg
      obtain ⟨out, hout, hd⟩ := mem_filterMap.mp hc
      obtain ⟨hm, hmine⟩ := mem_filter.mp hout
      cases Finset.mem_singleton.mp ha
      cases Finset.mem_singleton.mp hb
      exact .lone hm hmine hd
  · intro h
    cases h with
    | spent hh ho ha hb =>
      refine ⟨_, mem_append_left _ ?_, mem_toFinset.mpr (mem_drawn.mpr ha),
        mem_toFinset.mpr (mem_drawn.mpr hb)⟩
      rw [if_pos (by simpa [hh] using ho)]
      exact mem_singleton_self _
    | lone hm hmine hd =>
      refine ⟨{a}, mem_append_right _ (mem_map.mpr ⟨a, ?_, rfl⟩), by simp, by simp⟩
      exact mem_filterMap.mpr ⟨_, mem_filter.mpr ⟨hm, hmine⟩, hd⟩

theorem together_groupings : Merging.Together (groupings env w) a b ↔
    ∃ (hash : Hash256) (wtx : CWalletTx), w.mapWallet[hash]? = some wtx ∧ Linked env w wtx.tx a b := by
  simp only [Merging.Together, groupings, mem_dedup, mem_flatMap, Prod.exists,
    ExtTreeMap.mem_toList_iff_getElem?_eq_some, ← exists_mem_txGroupings]
  grind

end CWallet

end CloakCoin.Wallet
