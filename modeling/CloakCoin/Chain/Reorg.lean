import CloakCoin.Chain.BestChain

/-!
# The best chain is consistent

`AtTip env n tip`: everything the node keeps about the best chain describes the chain up to `tip`, that is
the transaction index, the committed hash and the forward links. `Reorganize` and `SetBestChainInner` move
a node from one tip to another when they succeed, and leave it where it is when they fail.
-/

namespace CloakCoin.Chain

open Lib Wallet
open Std (ExtTreeMap)
open List Option Std.ExtTreeMap

variable {n : Node} {env : Env} {new best : Hash256} {fork tip : Hash256}

theorem TreeOk.ranked (h : TreeOk env n.mapBlockIndex n.files) : Ranked n.prevOf n.heightOf := by
  intro a b hab
  obtain ⟨p, hp, hl⟩ := bind_eq_some_iff.mp hab
  obtain ⟨q, hq, hh⟩ := h.parent hp hl
  rw [Node.heightOf, Node.heightOf, hp, hq, map_some, map_some, getD_some, getD_some, hh]

namespace Node

variable {cs : List Hash256}

/-! ## Forward links -/

def nextOf (n : Node) (h : Hash256) : Option Hash256 := (n.mapBlockIndex[h]?).bind CBlockIndex.pnext

def NextOk (n : Node) (tip : Hash256) : Prop :=
  ∀ h k, n.nextOf h = some k ↔ (∃ l, Branch n.prevOf k tip l) ∧ n.prevOf k = some h

def NextSound (n : Node) (tip : Hash256) : Prop :=
  ∀ h k, n.nextOf h = some k → (∃ l, Branch n.prevOf k tip l) ∧ n.prevOf k = some h

theorem NextOk.of_root (hr : n.prevOf g = none) (hn : ∀ h, n.nextOf h = none) : NextOk n g := by
  intro h k
  rw [hn]
  refine iff_of_false (fun e => nomatch e) ?_
  rintro ⟨⟨l, hl⟩, hp⟩
  cases hl with
  | nil => exact absurd (hr.symm.trans hp) fun e => nomatch e
  | cons link rest => exact absurd (hr.symm.trans link) fun e => nomatch e

structure Relinked (n n' : Node) : Prop where
  fields : ∃ m, n' = { n with mapBlockIndex := m }
  blocks : ∀ k : Hash256, (n'.mapBlockIndex[k]?).map CBlockIndex.noNext = (n.mapBlockIndex[k]?).map CBlockIndex.noNext

def HashKeys (n : Node) : Prop := ∀ {h : Hash256} {p : CBlockIndex}, n.mapBlockIndex[h]? = some p → p.phashBlock = h

theorem bind_congr_of_map {g : α → Option γ} (g' : β → Option γ) (hg : ∀ a, g' (f a) = g a)
    {x y : Option α} (h : x.map f = y.map f) : x.bind g = y.bind g := by
  have hb : ∀ z : Option α, (z.map f).bind g' = z.bind g := fun z => by
    cases z with
    | none => rfl
    | some a => exact hg a
  rw [← hb x, ← hb y, h]

namespace Relinked

variable {n n' n'' : Node}

theorem refl (n : Node) : Relinked n n := ⟨⟨_, rfl⟩, fun _ => rfl⟩

theorem trans (h1 : Relinked n n') (h2 : Relinked n' n'') : Relinked n n'' := by
  refine ⟨?_, fun k => (h2.blocks k).trans (h1.blocks k)⟩
  obtain ⟨_, rfl⟩ := h1.fields
  obtain ⟨m, rfl⟩ := h2.fields
  exact ⟨m, rfl⟩

theorem prevOf (h : Relinked n n') : n'.prevOf = n.prevOf :=
  funext fun k => bind_congr_of_map (f := CBlockIndex.noNext) CBlockIndex.pprev (fun _ => rfl) (h.blocks k)

theorem hashKeys (h : Relinked n n') (hk : HashKeys n) : HashKeys n' := by
  intro k p hp
  obtain ⟨q, hq, hqp⟩ := exists_of_map_eq (h.blocks k) hp
  rw [← hk hq]
  exact (congrArg CBlockIndex.phashBlock hqp).symm

end Relinked

theorem setNext_relinked (hk : HashKeys n) (h : Hash256) (k : Option Hash256) : Relinked n (n.setNext h k) := by
  unfold setNext
  split
  · exact .refl n
  rename_i p hp
  obtain rfl : p.phashBlock = h := hk hp
  unfold setIndex
  split
  · refine ⟨⟨_, rfl⟩, fun j => ?_⟩
    by_cases hj : j = p.phashBlock
    · subst hj
      rw [getElem?_insert_self, hp]
      rfl
    · rw [getElem?_insert_ne _ hj]
  · exact .refl n

theorem nextOf_setNext (hk : HashKeys n) {h : Hash256} (hm : (n.mapBlockIndex[h]?).isSome = true) (k : Option Hash256)
    (j : Hash256) : (n.setNext h k).nextOf j = if j = h then k else n.nextOf j := by
  obtain ⟨p, hp⟩ := isSome_iff_exists.mp hm
  obtain rfl : p.phashBlock = h := hk hp
  have hc : n.mapBlockIndex.contains p.phashBlock = true := by
    rw [contains_eq_isSome_getElem?, hm]
  unfold setNext setIndex
  simp only [hp, hc, if_true]
  show ((n.mapBlockIndex.insert p.phashBlock { p with pnext := k })[j]?).bind CBlockIndex.pnext = _
  by_cases hj : j = p.phashBlock
  · subst hj
    rw [getElem?_insert_self, if_pos rfl]
    rfl
  · rw [getElem?_insert_ne _ hj, if_neg hj]
    rfl

structure Linked (n : Node) : Prop where
  keys : HashKeys n
  closed : ∀ {h prev : Hash256}, n.prevOf h = some prev → (n.mapBlockIndex[prev]?).isSome = true

theorem linked_of_tree (h : TreeOk env n.mapBlockIndex n.files) : Linked n where
  keys := h.key
  closed hpr := by
    obtain ⟨p, hp, hl⟩ := bind_eq_some_iff.mp hpr
    obtain ⟨q, hq, -⟩ := h.parent hp hl
    rw [hq]
    rfl

theorem Relinked.linked (h : Relinked n n') (hl : Linked n) : Linked n' := by
  refine ⟨h.hashKeys hl.keys, fun {k prev} hp => ?_⟩
  rw [h.prevOf] at hp
  obtain ⟨q, hq⟩ := isSome_iff_exists.mp (hl.closed hp)
  obtain ⟨q', hq', -⟩ := exists_of_map_eq (h.blocks prev).symm hq
  rw [hq']
  rfl

theorem setNextOfPrev_relinked (hl : Linked n) (h : Hash256) (k : Option Hash256) :
    Relinked n (n.setNextOfPrev h k) := by
  unfold setNextOfPrev
  split
  · exact .refl n
  · exact setNext_relinked hl.keys _ k

theorem nextOf_setNextOfPrev (hl : Linked n) (h : Hash256) (k : Option Hash256) (j : Hash256) :
    (n.setNextOfPrev h k).nextOf j = if n.prevOf h = some j then k else n.nextOf j := by
  unfold setNextOfPrev
  cases hp : n.prevOf h with
  | none => rw [if_neg (some_ne_none j).symm]
  | some prev =>
    rw [nextOf_setNext hl.keys (hl.closed hp)]
    by_cases hj : j = prev
    · rw [if_pos hj, if_pos (by rw [hj])]
    · rw [if_neg hj, if_neg fun e => hj (some.inj e).symm]

theorem unlink_spec (ds : List Hash256) (hl : Linked n) : Relinked n (ds.foldl (fun n h => n.setNextOfPrev h none) n) ∧
      ∀ j k, (ds.foldl (fun n h => n.setNextOfPrev h none) n).nextOf j = some k ↔
        (∀ d ∈ ds, n.prevOf d ≠ some j) ∧ n.nextOf j = some k := by
  induction ds generalizing n with
  | nil => exact ⟨.refl n, fun j k => by simp⟩
  | cons d ds ih =>
    have hs := setNextOfPrev_relinked hl d none
    obtain ⟨hr, hn⟩ := ih (hs.linked hl)
    refine ⟨hs.trans hr, fun j k => ?_⟩
    rw [foldl_cons, hn, nextOf_setNextOfPrev hl, hs.prevOf, forall_mem_cons]
    by_cases hd : n.prevOf d = some j
    · simp [hd]
    · simp [hd]

theorem link_spec (hl : Linked n) (hi : ∀ c ∈ cs, ∀ c' ∈ cs, n.prevOf c = n.prevOf c' → c = c') :
    Relinked n (cs.foldl (fun n h => n.setNextOfPrev h (some h)) n) ∧
      ∀ j k, (cs.foldl (fun n h => n.setNextOfPrev h (some h)) n).nextOf j = some k ↔
        (k ∈ cs ∧ n.prevOf k = some j) ∨ ((∀ c ∈ cs, n.prevOf c ≠ some j) ∧ n.nextOf j = some k) := by
  induction cs generalizing n with
  | nil => exact ⟨.refl n, fun j k => by simp⟩
  | cons c cs ih =>
    have hs := setNextOfPrev_relinked hl c (some c)
    obtain ⟨hr, hn⟩ := ih (hs.linked hl) (by
      rw [hs.prevOf]
      exact fun a ha b hb => hi a (mem_cons_of_mem c ha) b (mem_cons_of_mem c hb))
    refine ⟨hs.trans hr, fun j k => ?_⟩
    rw [foldl_cons, hn, nextOf_setNextOfPrev hl, hs.prevOf, forall_mem_cons, mem_cons]
    by_cases hc : n.prevOf c = some j
    · rw [if_pos hc, some.injEq]
      constructor
      · rintro (⟨hk, hj⟩ | ⟨-, rfl⟩)
        · exact .inl ⟨.inr hk, hj⟩
        · exact .inl ⟨.inl rfl, hc⟩
      · rintro (⟨rfl | hk, hj⟩ | ⟨⟨hne, -⟩, -⟩)
        · -- another block with this previous block would be the same block
          by_cases hm : k ∈ cs
          · exact .inl ⟨hm, hj⟩
          · refine .inr ⟨fun c' hc' e => hm ?_, rfl⟩
            rw [hi k mem_cons_self c' (mem_cons_of_mem k hc') (hj.trans e.symm)]
            exact hc'
        · exact .inl ⟨hk, hj⟩
        · exact absurd hc hne
    · rw [if_neg hc]
      constructor
      · rintro (⟨hk, hj⟩ | ⟨hne, hj⟩)
        · exact .inl ⟨.inr hk, hj⟩
        · exact .inr ⟨⟨hc, hne⟩, hj⟩
      · rintro (⟨rfl | hk, hj⟩ | ⟨⟨-, hne⟩, hj⟩)
        · exact absurd hj hc
        · exact .inl ⟨hk, hj⟩
        · exact .inr ⟨hne, hj⟩

abbrev moveLinks (n : Node) (ds cs : List Hash256) : Node :=
  cs.foldl (fun n h => n.setNextOfPrev h (some h)) (ds.foldl (fun n h => n.setNextOfPrev h none) n)

theorem relinked_spec (ds : List Hash256) (hra : Ranked n.prevOf n.heightOf) (hl : Linked n)
    (hcs : Branch n.prevOf fork new cs.reverse) :
    Relinked n (n.moveLinks ds cs) ∧ ∀ j k, (n.moveLinks ds cs).nextOf j = some k ↔ (k ∈ cs ∧ n.prevOf k = some j) ∨
          ((∀ c ∈ cs, n.prevOf c ≠ some j) ∧ (∀ d ∈ ds, n.prevOf d ≠ some j) ∧ n.nextOf j = some k) := by
  obtain ⟨hun, hu⟩ := unlink_spec ds hl
  obtain ⟨hre, hr⟩ := link_spec (hun.linked hl) (by
    rw [hun.prevOf]
    exact fun a ha b hb => hcs.eq_of_link_eq hra (mem_reverse.mpr ha) (mem_reverse.mpr hb))
  refine ⟨hun.trans hre, fun j k => ?_⟩
  rw [hr, hu, hun.prevOf]

theorem NextSound.move (hr : Ranked n.prevOf n.heightOf) (hl : Linked n) (hn : NextSound n best)
    (hds : Branch n.prevOf fork best ds) (hcs : Branch n.prevOf fork new cs.reverse) :
    NextSound (n.moveLinks ds cs) new := by
  obtain ⟨hre, hrn⟩ := relinked_spec ds hr hl hcs
  intro j k hjk
  rw [hre.prevOf]
  obtain ⟨hk, hj⟩ | ⟨-, hd', hjk⟩ := (hrn j k).mp hjk
  · obtain ⟨l, -, hb, -⟩ := hcs.split (mem_reverse.mpr hk)
    exact ⟨⟨l, hb⟩, hj⟩
  -- `k` was on the old chain and is not disconnected, so it is below the fork
  obtain ⟨⟨l, hl⟩, hj⟩ := hn j k hjk
  rcases hl.mem_or_below hr hds with hd | ⟨l', hbe⟩
  · exact absurd hj (hd' k hd)
  · exact ⟨⟨_, hcs.append hbe⟩, hj⟩

theorem NextOk.move (hr : Ranked n.prevOf n.heightOf) (hl : Linked n) (hn : NextOk n best)
    (hds : Branch n.prevOf fork best ds) (hcs : Branch n.prevOf fork new cs.reverse) :
    Relinked n (n.moveLinks ds cs) ∧ NextOk (n.moveLinks ds cs) new := by
  obtain ⟨hre, hrn⟩ := relinked_spec ds hr hl hcs
  have hs := NextSound.move hr hl (fun j k h => (hn j k).mp h) hds hcs
  refine ⟨hre, fun j k => ⟨hs j k, ?_⟩⟩
  rw [hrn, hn, hre.prevOf]
  rintro ⟨⟨l, hl⟩, hj⟩
  rcases hl.mem_or_below hr hcs with hk | ⟨l', hb⟩
  · exact .inl ⟨mem_reverse.mp hk, hj⟩
  have hlo := hb.rank_top hr
  have hup : ∀ {top x : Hash256} {bs : List Hash256}, Branch n.prevOf fork top bs → x ∈ bs → n.prevOf x ≠ some j := by
    intro top x bs hbs hx e
    have := (hbs.rank_mem hr hx).1
    have hx' := hr e
    have hk' := hr hj
    omega
  exact .inr ⟨fun c hc => hup hcs (mem_reverse.mpr hc), fun d hd => hup hds hd, ⟨_, hds.append hb⟩, hj⟩

/-! ## Running through a branch -/

namespace Framed

variable {n n' : Node}

theorem prevOf (h : Framed n n') : n'.prevOf = n.prevOf :=
  funext fun k => bind_congr_of_map (f := CBlockIndex.noSupply) CBlockIndex.pprev (fun _ => rfl) (h.blocks k)

theorem hashKeys (h : Framed n n') (hk : HashKeys n) : HashKeys n' := by
  intro k p hp
  obtain ⟨q, hq, hqp⟩ := exists_of_map_eq (h.blocks k) hp
  rw [← hk hq]
  exact (congrArg CBlockIndex.phashBlock hqp).symm

theorem nextOf (h : Framed n n') : n'.nextOf = n.nextOf :=
  funext fun k => bind_congr_of_map (f := CBlockIndex.noSupply) CBlockIndex.pnext (fun _ => rfl) (h.blocks k)

theorem nextOk (h : Framed n n') (hn : NextOk n tip) : NextOk n' tip := by
  intro j k
  rw [h.nextOf, h.prevOf]
  exact hn j k

theorem tree (h : Framed n n') (ht : TreeOk env n.mapBlockIndex n.files) : TreeOk env n'.mapBlockIndex n'.files := by
  rw [h.files]
  refine ht.congr fun k => ?_
  have hk := congrArg (Option.map CBlockIndex.noNext) (h.blocks k)
  rwa [Option.map_map, Option.map_map] at hk

end Framed

theorem readBlock_eq_some {io : Hash256 → Bool} {h : Hash256} {p : CBlockIndex} {b : CBlock}
    (hr : n.readBlock env io h = some (p, b)) : n.mapBlockIndex[h]? = some p ∧ n.files.readFromDisk env p = some b := by
  unfold readBlock at hr
  split at hr
  · cases hr
  rename_i q hq
  split at hr
  · obtain ⟨b', hb', heq⟩ := map_eq_some_iff.mp hr
    cases heq
    exact ⟨hq, hb'⟩
  · cases hr

section
variable {env : Env} {io : Hash256 → Bool}

variable (env io) in
theorem disconnectBranch_framed (hs : List Hash256) (n : Node) : Framed n (disconnectBranch env io hs n).2.1 ∧
      (disconnectBranch env io hs n).2.1.mapBlockIndex = n.mapBlockIndex := by
  induction hs generalizing n with
  | nil => exact ⟨.refl n, rfl⟩
  | cons h hs ih =>
    unfold disconnectBranch
    split
    · exact ⟨.refl n, rfl⟩
    rename_i p b hr
    have hf := disconnectBlock_framed env n b p
    have hm := mapBlockIndex_disconnectBlock env n b p
    split
    · rename_i n' heq
      rw [heq] at hf hm
      exact ⟨hf, hm⟩
    · rename_i n' heq
      rw [heq] at hf hm
      exact ⟨hf.trans (ih n').1, (ih n').2.trans hm⟩

variable (env io) in
theorem connectBranch_framed (hs : List Hash256) (hke : HashKeys n) : Framed n (connectBranch env io hs n).2.1 ∧
      ∀ k, k ∉ hs → (connectBranch env io hs n).2.1.mapBlockIndex[k]? = n.mapBlockIndex[k]? := by
  induction hs generalizing n with
  | nil => exact ⟨.refl n, fun _ _ => rfl⟩
  | cons h hs ih =>
    unfold connectBranch
    split
    · exact ⟨.refl n, fun _ _ => rfl⟩
    rename_i p b hr
    obtain ⟨entry, -⟩ := readBlock_eq_some hr
    obtain rfl : p.phashBlock = h := hke entry
    have hf := connectBlock_framed env b entry
    have hm := fun k (hk : k ≠ p.phashBlock) => mapBlockIndex_connectBlock env n b p hk
    split
    · rename_i n' heq
      rw [heq] at hf hm
      exact ⟨hf, fun k hk => hm k (ne_of_not_mem_cons hk)⟩
    rename_i n' heq
    rw [heq] at hf hm
    obtain ⟨hre, hsa⟩ := ih (hf.hashKeys hke)
    exact ⟨hf.trans hre, fun k hk =>
      (hsa k (not_mem_of_not_mem_cons hk)).trans (hm k (ne_of_not_mem_cons hk))⟩

theorem disconnectBranch_synced (hi : TxHashBinds env) (hsy : SyncedAt env n top) (hb : Branch n.prevOf low top hs)
    (hok : (disconnectBranch env io hs n).1 = true) : SyncedAt env (disconnectBranch env io hs n).2.1 low := by
  induction hs generalizing n top with
  | nil =>
    cases hb
    exact hsy
  | cons h hs ih =>
    cases hb with
    | cons link rest =>
      unfold disconnectBranch at hok ⊢
      split at hok
      · cases hok
      rename_i p b hr
      obtain ⟨entry, disk⟩ := readBlock_eq_some hr
      rw [prevOf, entry] at link
      have hf := disconnectBlock_framed env n b p
      have hst := (hsy.disconnect hi entry link disk).2
      split at hok
      · cases hok
      rename_i n' heq
      rw [heq] at hf hst
      exact ih hst (hf.prevOf ▸ rest) hok

theorem connectBranch_synced (hsy : SyncedAt env n low) (hb : Branch n.prevOf low top hs.reverse)
    (hok : (connectBranch env io hs n).1 = true) : SyncedAt env (connectBranch env io hs n).2.1 top := by
  induction hs generalizing n low with
  | nil =>
    cases hb
    exact hsy
  | cons h hs ih =>
    rw [reverse_cons, Branch.concat_iff] at hb
    obtain ⟨hb, link⟩ := hb
    unfold connectBranch at hok ⊢
    split at hok
    · cases hok
    rename_i p b hr
    obtain ⟨entry, disk⟩ := readBlock_eq_some hr
    rw [prevOf, entry] at link
    obtain rfl : p.phashBlock = h := hsy.tree.key entry
    have hf := connectBlock_framed env b entry
    cases hbl : n.connectBlock env b p false with
    | mk ok n' =>
      rw [hbl] at hok hf
      cases ok with
      | false => cases hok
      | true =>
        have hst := hsy.connect entry link disk (by rw [hbl])
        rw [hbl] at hst
        exact ih hst (hf.prevOf ▸ hb) hok

end

/-! ## Moving the tip -/

structure Kept (n n' : Node) : Prop where
  fields : ∃ db m pool ws trust, n' =
    { n with txdb := db, mapBlockIndex := m, mempool := pool, wallets := ws, bnBestInvalidTrust := trust }
  blocks : ∀ k : Hash256, (n'.mapBlockIndex[k]?).map CBlockIndex.shape = (n.mapBlockIndex[k]?).map CBlockIndex.shape

namespace Kept

variable {n n' n'' : Node}

theorem refl (n : Node) : Kept n n := ⟨⟨_, _, _, _, _, rfl⟩, fun _ => rfl⟩

theorem trans (h1 : Kept n n') (h2 : Kept n' n'') : Kept n n'' := by
  refine ⟨?_, fun k => (h2.blocks k).trans (h1.blocks k)⟩
  obtain ⟨_, _, _, _, _, rfl⟩ := h1.fields
  obtain ⟨db, m, pool, ws, trust, rfl⟩ := h2.fields
  exact ⟨db, m, pool, ws, trust, rfl⟩

theorem setTxdb (n : Node) (db : CTxDB) : Kept n (n.setTxdb db) := ⟨⟨_, _, _, _, _, rfl⟩, fun _ => rfl⟩

theorem invalidChainFound (n : Node) (p : CBlockIndex) : Kept n (n.invalidChainFound p) := by
  unfold Node.invalidChainFound
  split
  · exact ⟨⟨_, _, _, _, _, rfl⟩, fun _ => rfl⟩
  · exact .refl n

theorem files (h : Kept n n') : n'.files = n.files := by
  obtain ⟨_, _, _, _, _, rfl⟩ := h.fields
  rfl

theorem prevOf (h : Kept n n') : n'.prevOf = n.prevOf :=
  funext fun k => bind_congr_of_map (f := CBlockIndex.shape) CBlockIndex.pprev (fun _ => rfl) (h.blocks k)

theorem of_framed (h : Framed n n') : Kept n n' := by
  refine ⟨?_, fun k => ?_⟩
  · obtain ⟨db, m, ws, rfl⟩ := h.fields
    exact ⟨db, m, _, ws, _, rfl⟩
  · have hk := congrArg (Option.map CBlockIndex.noNext) (h.blocks k)
    rwa [Option.map_map, Option.map_map] at hk

theorem of_relinked (h : Relinked n n') : Kept n n' := by
  refine ⟨?_, fun k => ?_⟩
  · obtain ⟨m, rfl⟩ := h.fields
    exact ⟨_, m, _, _, _, rfl⟩
  · have hk := congrArg (Option.map CBlockIndex.noSupply) (h.blocks k)
    rwa [Option.map_map, Option.map_map] at hk

end Kept

end Node

structure AtTip (env : Env) (n : Node) (tip : Hash256) : Prop where
  synced : SyncedAt env n tip
  idle : n.txdb.store.activeBatch = none
  hash : n.txdb.readHashBestChain = some tip
  next : n.NextOk tip

namespace AtTip

open Node

variable {env : Env} {n n' : Node}

section
variable (h : AtTip env n tip)
include h

theorem read_eq (k : DbKey) : n.txdb.store.read k = n.txdb.store.disk k := by
  rw [Lib.Store.read, h.idle]

theorem congr (txdb : n'.txdb = n.txdb) (blocks : n'.mapBlockIndex = n.mapBlockIndex)
    (files : n'.files = n.files) : AtTip env n' tip := by
  cases n
  cases txdb
  cases blocks
  cases files
  exact ⟨⟨h.synced.tree, h.synced.synced⟩, h.idle, h.hash, h.next⟩

theorem begin : SyncedAt env (n.setTxdb n.txdb.txnBegin) tip := by
  refine h.synced.other (funext fun k => ?_) rfl fun _ => rfl
  exact (h.read_eq (.tx k)).symm

theorem rollback (db : CTxDB) (hf : Framed (n.setTxdb n.txdb.txnBegin) n')
    (hsa : ∀ k l, Branch n.prevOf k tip l → n'.mapBlockIndex[k]? = n.mapBlockIndex[k]?)
    (hd : db.store.disk = n'.txdb.store.disk) (hi : db.store.activeBatch = none) : AtTip env (n'.setTxdb db) tip := by
  have hr : ∀ k, db.store.read k = n.txdb.store.read k := by
    intro k
    rw [h.read_eq, Lib.Store.read, hi]
    rw [hd, (hf.txdb.opened rfl).2]
    rfl
  obtain ⟨chain, recs, hs⟩ := h.synced.synced
  refine ⟨⟨hf.tree h.synced.tree, chain, recs, ?_⟩, hi, (hr .hashBestChain).trans h.hash,
    hf.nextOk h.next⟩
  have hid : (n'.setTxdb db).txdb.txIndex = n.txdb.txIndex := funext fun k => hr (.tx k)
  rw [hid, show (n'.setTxdb db).files = n.files from hf.files]
  refine hs.mono (fun k => ∃ l, Branch n.prevOf k tip l) ?_ ?_ ⟨[], .nil⟩
  · rintro k k' p ⟨l, hl⟩ hp hli
    exact ⟨l ++ [k], Branch.concat_iff.mpr ⟨hl, by rw [prevOf, hp]; exact hli⟩⟩
  · rintro k p ⟨l, hl⟩ hp
    exact ⟨p.pnext, (hsa k l hl).trans hp⟩

end

theorem commit (hs : SyncedAt env n' new) (hc : (n'.txdb.writeHashBestChain new).txnCommit = (true, db)) :
    SyncedAt env (n'.setTxdb db) new ∧ db.store.activeBatch = none ∧ db.readHashBestChain = some new := by
  obtain ⟨hi, hr⟩ := CTxDB.read_of_txnCommit hc
  refine ⟨hs.other (funext fun k => ?_) rfl fun _ => rfl, hi, ?_⟩
  · refine (hr (.tx k)).trans ?_
    exact congrFun (CTxDB.txIndex_writeHashBestChain n'.txdb new) k
  · exact (hr .hashBestChain).trans (CTxDB.readHashBestChain_writeHashBestChain n'.txdb new)

theorem of_relinked (hs : SyncedAt env n tip) (hi : n.txdb.store.activeBatch = none)
    (hh : n.txdb.readHashBestChain = some tip) (hre : Relinked n n') (hn : NextOk n' tip) : AtTip env n' tip := by
  have hb := hre.blocks
  obtain ⟨m, rfl⟩ := hre.fields
  refine ⟨?_, hi, hh, hn⟩
  generalize hn' : ({ n with mapBlockIndex := m } : Node) = n' at *
  exact hs.other (by rw [← hn']) (by rw [← hn']) hb

end AtTip

namespace Node

variable {env : Env} {io : Hash256 → Bool} {n : Node}

theorem disk_txnCommit_false {db db' : CTxDB} {hash : Hash256}
    (hc : (db.writeHashBestChain hash).txnCommit = (false, db')) (ho : db.store.activeBatch.isSome = true) :
    db'.store.disk = db.store.disk ∧ db'.store.activeBatch = none := by
  have hok : (db.writeHashBestChain hash).commits.headD true = false := congrArg Prod.fst hc
  obtain rfl : ((db.writeHashBestChain hash).txnCommit).2 = db' := congrArg Prod.snd hc
  unfold CTxDB.txnCommit
  rw [hok]
  exact ⟨(Lib.Store.disk_write_of_batch _ _ ho).1, rfl⟩

theorem relink_eq (env : Env) (n : Node) (ds cs : List Hash256) (rs vs : List CTransaction) :
    ∃ pool, n.relink env ds cs rs vs = { n.moveLinks ds cs with mempool := pool } :=
  ⟨_, rfl⟩

theorem findFork_spec (hr : Ranked n.prevOf n.heightOf) (hf : n.findFork best new = some pfork) :
    Branch n.prevOf pfork best (n.branchTo pfork best) ∧ Branch n.prevOf pfork new (n.branchTo pfork new) ∧
      ∀ k l, Branch n.prevOf k best l → k ∉ n.branchTo pfork new := by
  obtain ⟨⟨ds, hds⟩, ⟨cs, hcs⟩, ha⟩ := meet_spec hr hf
  have hp : ∀ {top : Hash256} {l : List Hash256}, Branch n.prevOf pfork top l → n.branchTo pfork top = l := by
    intro top l hl
    refine pathTo_eq hr hl ?_
    have := hl.rank_top hr
    omega
  rw [hp hds, hp hcs]
  refine ⟨hds, hcs, fun k l hk hm => ?_⟩
  obtain ⟨l1, -, hn, -⟩ := hcs.split hm
  obtain ⟨l', hlo⟩ := ha k l l1 hk hn
  have hle := hlo.rank_top hr
  have hlt := (hcs.rank_mem hr hm).1
  omega

/-- **What `Reorganize` can do**: give up with the entries of the old chain untouched and, if a batch is open, nothing
on disk, or disconnect and connect the two branches from the fork, commit and relink. -/
inductive Reorganized (env : Env) (io : Hash256 → Bool) (n : Node) (best new : Hash256) : Bool → Node → Prop
  | failed {m : Node} {db : CTxDB} (framed : Framed n m)
    (chain : ∀ k l, Branch n.prevOf k best l → m.mapBlockIndex[k]? = n.mapBlockIndex[k]?)
    (disk : n.txdb.store.activeBatch.isSome = true → db.store.disk = n.txdb.store.disk) :
    Reorganized env io n best new false (m.setTxdb db)
  | moved {pfork : Hash256} {ds cs : List Hash256} {m m' : Node} {db : CTxDB} {rs vs : List CTransaction}
    (down : Branch n.prevOf pfork best ds) (up : Branch n.prevOf pfork new cs)
    (apart : ∀ k l, Branch n.prevOf k best l → k ∉ cs)
    (disconnected : disconnectBranch env io ds n = (true, m, rs))
    (connected : connectBranch env io cs.reverse m = (true, m', vs)) (framed : Framed n m')
    (committed : (m'.txdb.writeHashBestChain new).txnCommit = (true, db)) :
    Reorganized env io n best new true ((m'.setTxdb db).relink env ds cs.reverse rs vs)

theorem reorganize_cases (hke : HashKeys n) (hr : Ranked n.prevOf n.heightOf)
    (hru : reorganize env io n best new = (ok, n')) : Reorganized env io n best new ok n' := by
  unfold reorganize at hru
  split at hru
  · cases hru
    exact .failed (.refl n) (fun _ _ _ => rfl) fun _ => rfl
  rename_i pfork hfo
  obtain ⟨hds, hcs, ha⟩ := findFork_spec hr hfo
  generalize n.branchTo pfork best = ds at *
  generalize n.branchTo pfork new = cs at *
  obtain ⟨hd, hm⟩ := disconnectBranch_framed env io ds n
  dsimp only at hru
  split at hru
  · rename_i m _ hdis
    cases hru
    rw [hdis] at hd hm
    exact .failed hd (fun _ _ _ => by rw [hm]) fun ho => (hd.txdb.opened ho).2
  rename_i m rs hdis
  rw [hdis] at hd hm
  obtain ⟨hup, hs⟩ := connectBranch_framed env io cs.reverse (hd.hashKeys hke)
  have hc : ∀ k l, Branch n.prevOf k best l →
      (connectBranch env io cs.reverse m).2.1.mapBlockIndex[k]? = n.mapBlockIndex[k]? := by
    intro k l hk
    rw [hs k fun hme => ha k l hk (mem_reverse.mp hme)]
    exact congrArg (fun map : BlockMap => map[k]?) hm
  have hf := hd.trans hup
  split at hru
  · rename_i m' _ hcon
    cases hru
    rw [hcon] at hf hc
    exact .failed hf hc fun ho => (hf.txdb.opened ho).2
  rename_i m' vs hcon
  rw [hcon] at hf hc
  split at hru
  · rename_i db hco
    cases hru
    refine .failed hf hc fun ho => ?_
    obtain ⟨ho', hdi⟩ := hf.txdb.opened ho
    exact (disk_txnCommit_false hco ho').1.trans hdi
  · rename_i db hco
    cases hru
    exact .moved hds hcs ha hdis hcon hf hco

theorem reorganize_spec (hin : TxHashBinds env) (h : AtTip env n best)
    (hr : reorganize env io (n.setTxdb n.txdb.txnBegin) best new = (ok, n')) :
    Kept n n' ∧ (ok = true → AtTip env n' new) ∧ (ok = false → AtTip env (n'.setTxdb n'.txdb.txnAbort) best) := by
  have hb := h.begin
  have hk := Kept.setTxdb n n.txdb.txnBegin
  cases reorganize_cases hb.tree.key hb.tree.ranked hr with
  | failed hf hch hdi =>
    rename_i m db
    refine ⟨(hk.trans (.of_framed hf)).trans (.setTxdb m db), (nomatch ·), fun _ => ?_⟩
    have hba := h.rollback db.txnAbort hf hch ((hdi rfl).trans (hf.txdb.opened rfl).2.symm) rfl
    exact hba
  | moved hds hcs ha hdis hco hf hc =>
    rename_i pfork ds cs m m' db rs vs
    have hd : SyncedAt env (disconnectBranch env io ds (n.setTxdb n.txdb.txnBegin)).2.1 pfork :=
      disconnectBranch_synced hin hb hds (by rw [hdis])
    have hp := (disconnectBranch_framed env io ds (n.setTxdb n.txdb.txnBegin)).1.prevOf
    rw [hdis] at hd hp
    have hup : SyncedAt env (connectBranch env io cs.reverse m).2.1 new :=
      connectBranch_synced hd (by rw [reverse_reverse, hp]; exact hcs) (by rw [hco])
    rw [hco] at hup
    obtain ⟨hs, hi, hh⟩ := AtTip.commit hup hc
    have hn : NextOk (m'.setTxdb db) best := hf.nextOk h.next
    have hp' : (m'.setTxdb db).prevOf = n.prevOf := hf.prevOf
    obtain ⟨hre, hn'⟩ := NextOk.move hs.tree.ranked (linked_of_tree hs.tree) hn
      (show Branch (m'.setTxdb db).prevOf pfork best ds by rw [hp']; exact hds)
      (show Branch (m'.setTxdb db).prevOf pfork new cs.reverse.reverse by rw [hp', reverse_reverse]; exact hcs)
    have hk' := (hk.trans (.of_framed hf)).trans (.setTxdb m' db)
    refine ⟨hk'.trans ((Kept.of_relinked hre).trans ⟨⟨_, _, _, _, _, rfl⟩, fun _ => rfl⟩), fun _ => ?_, (nomatch ·)⟩
    exact (AtTip.of_relinked hs hi hh hre hn').congr rfl rfl rfl

end Node

end CloakCoin.Chain
