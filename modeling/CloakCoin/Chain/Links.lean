import CloakCoin.Chain.Accept
import CloakCoin.Chain.Consistent

/-!
# What `SetBestChain` does to the block tree in any state

`Reorg` and `Consistent` start from a consistent node. The lemmas here ask only that the entries are stored under
their hashes.
-/

namespace CloakCoin.Chain

open Lib Wallet
open Std (ExtTreeMap)
open List Option

variable {ok : Bool}

namespace Node

variable {p q : CBlockIndex} {tip top a b : Hash256} {l : List Hash256}

/-! ## What is kept -/

structure SameTree (n n' : Node) : Prop where
  files : n'.files = n.files
  blocks : ∀ k : Hash256, (n'.mapBlockIndex[k]?).map CBlockIndex.shape = (n.mapBlockIndex[k]?).map CBlockIndex.shape

namespace SameTree

variable {n n' n'' : Node}

theorem refl (n : Node) : SameTree n n := ⟨rfl, fun _ => rfl⟩

theorem trans (h1 : SameTree n n') (h2 : SameTree n' n'') : SameTree n n'' :=
  ⟨h2.files.trans h1.files, fun k => (h2.blocks k).trans (h1.blocks k)⟩

theorem of_kept (h : Kept n n') : SameTree n n' := ⟨h.files, h.blocks⟩

section
variable (h : SameTree n n')
include h

theorem hashKeys (hk : HashKeys n) : HashKeys n' := by
  intro k p hp
  obtain ⟨q, hq, hqp⟩ := exists_of_map_eq (h.blocks k) hp
  rw [← (CBlockIndex.of_shape_eq hqp).1]
  exact hk hq

theorem prevOf : n'.prevOf = n.prevOf :=
  funext fun k => bind_congr_of_map (f := CBlockIndex.shape) CBlockIndex.pprev (fun _ => rfl) (h.blocks k)

theorem heightOf : n'.heightOf = n.heightOf := by
  funext k
  have hm := congrArg (Option.map CBlockIndex.nHeight) (h.blocks k)
  rw [Option.map_map, Option.map_map] at hm
  exact congrArg (Option.getD · 0) hm

theorem isSome (k : Hash256) : (n'.mapBlockIndex[k]?).isSome = (n.mapBlockIndex[k]?).isSome := by
  rw [← isSome_map (f := CBlockIndex.shape), h.blocks, isSome_map]

theorem recordAt (hs : q.shape = p.shape) : n'.files.recordAt p.nFile p.nBlockPos =
    n.files.recordAt q.nFile q.nBlockPos := by
  rw [h.files]
  change n.files.recordAt p.shape.nFile p.shape.nBlockPos = n.files.recordAt q.shape.nFile q.shape.nBlockPos
  rw [hs]

theorem linked (hl : Linked n) : Linked n' where
  keys := h.hashKeys hl.keys
  closed hprev := by
    rw [h.prevOf] at hprev
    rw [h.isSome]
    exact hl.closed hprev

theorem ranked (hr : Ranked n.prevOf n.heightOf) : Ranked n'.prevOf n'.heightOf := by
  rw [h.prevOf, h.heightOf]
  exact hr

end

end SameTree

variable {env : Env} {io : Hash256 → Bool} {n n' : Node}

theorem setNextOfPrev_kept (hk : HashKeys n) (h : Hash256) (k : Option Hash256) : Kept n (n.setNextOfPrev h k) := by
  unfold setNextOfPrev
  split
  · exact .refl n
  · exact .of_relinked (setNext_relinked hk _ k)

theorem foldl_setNextOfPrev_kept (hk : HashKeys n) (link : Hash256 → Option Hash256) (hs : List Hash256) :
    Kept n (hs.foldl (fun n h => n.setNextOfPrev h (link h)) n) := by
  induction hs generalizing n with
  | nil => exact .refl n
  | cons h hs ih =>
    have hst := setNextOfPrev_kept hk h (link h)
    exact hst.trans (ih ((SameTree.of_kept hst).hashKeys hk))

/-! ## Forward links -/

theorem NextSound.congr (h : NextSound n tip) (hp : n'.prevOf = n.prevOf) (hn : n'.nextOf = n.nextOf) :
    NextSound n' tip := by
  intro j k hjk
  rw [hn] at hjk
  rw [hp]
  exact h j k hjk

theorem NextSound.mono (h : NextSound n tip) (ht : Branch n.prevOf tip top l) : NextSound n top := by
  intro j k hjk
  obtain ⟨⟨l', hl'⟩, hj⟩ := h j k hjk
  exact ⟨⟨_, ht.append hl'⟩, hj⟩

theorem NextSound.setNextOfPrev {h : Hash256} (hl : Linked n) (hn : NextSound n top)
    (hb : Branch n.prevOf h top l) : NextSound (n.setNextOfPrev h (some h)) top := by
  intro j k hjk
  rw [nextOf_setNextOfPrev hl] at hjk
  rw [(setNextOfPrev_relinked hl h _).prevOf]
  split at hjk
  · rename_i hj
    cases hjk
    exact ⟨⟨l, hb⟩, hj⟩
  · exact hn j k hjk

theorem reorganize_links (hke : HashKeys n) (h : reorganize env io n best new = (ok, n')) :
    Kept n n' ∧ (Linked n → Ranked n.prevOf n.heightOf → NextSound n best →
      NextSound n' (if ok then new else best)) := by
  have hs : ∀ {m : Node}, Framed n m → ∀ db, Kept n (m.setTxdb db) ∧
      (Linked n → Ranked n.prevOf n.heightOf → NextSound n best → NextSound (m.setTxdb db) best) :=
    fun hf db => ⟨(Kept.of_framed hf).trans (.setTxdb _ db), fun _ _ hn => hn.congr hf.prevOf hf.nextOf⟩
  unfold reorganize at h
  split at h
  · cases h
    exact hs (.refl n) n.txdb
  rename_i pfork hfo
  dsimp only at h
  have hd := (disconnectBranch_framed env io (n.branchTo pfork best) n).1
  split at h
  · rename_i m _ hdi
    cases h
    rw [hdi] at hd
    exact hs hd n'.txdb
  rename_i m _ hdi
  rw [hdi] at hd
  have hup := (connectBranch_framed env io (n.branchTo pfork new).reverse (hd.hashKeys hke)).1
  split at h
  · rename_i hc
    cases h
    rw [hc] at hup
    exact hs (hd.trans hup) n'.txdb
  rename_i m' _ hc
  rw [hc] at hup
  have hf := hd.trans hup
  split at h
  · cases h
    exact hs hf _
  rename_i db _
  cases h
  have hk := (Kept.of_framed hf).trans (.setTxdb m' db)
  have hk' : HashKeys (m'.setTxdb db) := (SameTree.of_kept hk).hashKeys hke
  constructor
  · have hun := foldl_setNextOfPrev_kept hk' (fun _ => none) (n.branchTo pfork best)
    have hre := foldl_setNextOfPrev_kept ((SameTree.of_kept hun).hashKeys hk') some (n.branchTo pfork new).reverse
    obtain ⟨pool, heq⟩ := relink_eq env (m'.setTxdb db) (n.branchTo pfork best) (n.branchTo pfork new).reverse _ _
    rw [heq]
    refine (hk.trans (hun.trans hre)).trans ⟨⟨_, _, pool, _, _, rfl⟩, fun _ => rfl⟩
  · intro hl hr hn
    obtain ⟨hds, hcs, -⟩ := findFork_spec hr hfo
    have ht := SameTree.of_kept hk
    rw [← hk.prevOf] at hds hcs
    obtain ⟨pool, heq⟩ := relink_eq env (m'.setTxdb db) (n.branchTo pfork best) (n.branchTo pfork new).reverse _ _
    rw [heq, if_pos rfl]
    exact NextSound.move (ht.ranked hr) (ht.linked hl) (hn.congr hf.prevOf hf.nextOf) hds
      (by rwa [reverse_reverse])

theorem setBestChainInner_links (hke : HashKeys n) {b : CBlock} (entry : n.mapBlockIndex[p.phashBlock]? = some p)
    (h : n.setBestChainInner env b p = (ok, n')) : Kept n n' ∧ (ok = false → n'.nextOf = n.nextOf) ∧
      (Linked n → ∀ top l, Branch n.prevOf p.phashBlock top l → NextSound n top → NextSound n' top) := by
  have hf := connectBlock_framed env b entry
  unfold setBestChainInner at h
  split at h
  · rename_i m heq
    cases h
    rw [heq] at hf
    have hk := (Kept.of_framed hf).trans ((Kept.setTxdb m m.txdb.txnAbort).trans (.invalidChainFound _ p))
    have hn : ((m.setTxdb m.txdb.txnAbort).invalidChainFound p).nextOf = n.nextOf := by
      rw [← hf.nextOf]
      unfold invalidChainFound
      split <;> rfl
    exact ⟨hk, fun _ => hn, fun _ _ _ _ hs => hs.congr hk.prevOf hn⟩
  rename_i m heq
  rw [heq] at hf
  split at h
  · rename_i db _
    cases h
    have hk := (Kept.of_framed hf).trans (.setTxdb m db)
    exact ⟨hk, fun _ => hf.nextOf, fun _ _ _ _ hs => hs.congr hk.prevOf hf.nextOf⟩
  rename_i db _
  cases h
  have hk := (Kept.of_framed hf).trans (.setTxdb m db)
  have ht := SameTree.of_kept hk
  refine ⟨?_, (nomatch ·), fun hl top l hb hs => ?_⟩
  · refine (hk.trans (setNextOfPrev_kept (ht.hashKeys hke) p.phashBlock (some p.phashBlock))).trans ?_
    exact ⟨⟨_, _, _, _, _, rfl⟩, fun _ => rfl⟩
  · rw [← hk.prevOf] at hb
    exact NextSound.setNextOfPrev (ht.linked hl) (hs.congr hk.prevOf hf.nextOf) hb

variable (env io) in
theorem connectFurther_links (hs : List Hash256) (hke : HashKeys n) : Kept n (connectFurther env io hs n).2 ∧
      (Linked n → ∀ top, (∀ h ∈ hs, ∃ l, Branch n.prevOf h top l) → NextSound n top →
        NextSound (connectFurther env io hs n).2 top) := by
  induction hs generalizing n with
  | nil => exact ⟨.refl n, fun _ _ _ hn => hn⟩
  | cons h hs ih =>
    unfold connectFurther
    split
    · exact ⟨.refl n, fun _ _ _ hn => hn⟩
    rename_i p b hre
    obtain ⟨entry, -⟩ := readBlock_eq_some hre
    obtain rfl : p.phashBlock = h := hke entry
    split
    · rename_i m heq
      obtain ⟨hkep, -, hn⟩ := setBestChainInner_links (n := n.setTxdb n.txdb.txnBegin) hke entry heq
      refine ⟨(Kept.setTxdb n _).trans hkep, fun hl top hhs hso => ?_⟩
      obtain ⟨l, hb⟩ := hhs _ mem_cons_self
      exact hn ⟨hl.keys, hl.closed⟩ top l hb hso
    rename_i m heq
    obtain ⟨hkep, -, hn⟩ := setBestChainInner_links (n := n.setTxdb n.txdb.txnBegin) hke entry heq
    have ho := (Kept.setTxdb n n.txdb.txnBegin).trans hkep
    have ht := SameTree.of_kept ho
    obtain ⟨hres, hr⟩ := ih (ht.hashKeys hke)
    refine ⟨ho.trans hres, fun hl top hhs hso => ?_⟩
    obtain ⟨l, hb⟩ := hhs _ mem_cons_self
    refine hr (ht.linked hl) top (fun k hk => ?_) (hn ⟨hl.keys, hl.closed⟩ top l hb hso)
    rw [ho.prevOf]
    exact hhs k (mem_cons_of_mem _ hk)

theorem switchChain_links (hkey : HashKeys n) (h : n.switchChain env io best p = (ok, n')) :
    Kept n n' ∧ (Linked n → Ranked n.prevOf n.heightOf → NextSound n best.phashBlock →
      NextSound n' (if ok then p.phashBlock else best.phashBlock)) := by
  have hb := n.postpone_branch best.bnChainTrust p.nHeight p.phashBlock
  unfold switchChain at h
  dsimp only at h
  generalize n.postpone best.bnChainTrust p.nHeight p.phashBlock = further at h hb
  split at h
  · rename_i m heq
    obtain ⟨hke, hn⟩ := reorganize_links hkey heq
    cases h
    have hla := (Kept.setTxdb m m.txdb.txnAbort).trans (.invalidChainFound _ p)
    have hsa : ((m.setTxdb m.txdb.txnAbort).invalidChainFound p).nextOf = m.nextOf := by
      unfold invalidChainFound
      split <;> rfl
    exact ⟨hke.trans hla, fun hl hr hs => (hn hl hr hs).congr hla.prevOf hsa⟩
  · rename_i m heq
    obtain ⟨hke, hn⟩ := reorganize_links hkey heq
    cases h
    have ht := SameTree.of_kept hke
    obtain ⟨hfu, hf⟩ := connectFurther_links env io further.1.reverse (ht.hashKeys hkey)
    refine ⟨hke.trans hfu, fun hl hr hs => ?_⟩
    rw [← hke.prevOf] at hb
    refine hf (ht.linked hl) p.phashBlock (fun k hk => ?_) ((hn hl hr hs).mono hb)
    obtain ⟨l, -, hk', -⟩ := hb.split (mem_reverse.mp hk)
    exact ⟨l, hk'⟩

/-! ## `SetBestChain` -/

structure Chained (n : Node) (tip : Hash256) : Prop where
  linked : Linked n
  ranked : Ranked n.prevOf n.heightOf
  genesis : n.pindexGenesisBlock ≠ none
  best : n.pindexBest = some tip
  hash : n.hashBestChain = tip
  indexed : (n.mapBlockIndex[tip]?).isSome = true
  next : NextSound n tip

theorem Chained.setTxdb (h : Chained n tip) (db : CTxDB) : Chained (n.setTxdb db) tip :=
  ⟨⟨h.linked.keys, h.linked.closed⟩, h.ranked, h.genesis, h.best, h.hash, h.indexed, h.next⟩

variable (env io) in
theorem setBestChain_sameTree (hk : HashKeys n) (b : CBlock)
    (entry : n.mapBlockIndex[p.phashBlock]? = some p) : SameTree n (n.setBestChain env io b p).2 := by
  have hs : SameTree n (n.setTxdb n.txdb.txnBegin) := .of_kept (.setTxdb n _)
  have hk' : HashKeys (n.setTxdb n.txdb.txnBegin) := hk
  have entry' : (n.setTxdb n.txdb.txnBegin).mapBlockIndex[p.phashBlock]? = some p := entry
  unfold setBestChain
  generalize n.setTxdb n.txdb.txnBegin = n1 at hs hk' entry'
  dsimp only
  generalize hr : (ite (n1.pindexGenesisBlock = none ∧ b.getHash env = env.hashGenesisBlock) _ _ : Bool × Node) = r
  have ht : SameTree n1 r.2 := by
    rw [← hr]
    split
    · split <;> exact ⟨rfl, fun _ => rfl⟩
    split
    · exact .of_kept (setBestChainInner_links hk' entry' rfl).1
    split
    · exact .refl n1
    · exact .of_kept (switchChain_links hk' rfl).1
  split
  · exact (hs.trans ht).trans ⟨rfl, fun _ => rfl⟩
  · exact hs.trans ht

theorem Chained.setBestChain (h : Chained n tip) {b : CBlock} (entry : n.mapBlockIndex[p.phashBlock]? = some p)
    (hha : b.getHash env = p.phashBlock) (hp : p.pprev = some b.hashPrevBlock)
    (hru : n.setBestChain env io b p = (ok, n')) : Chained n' (if ok then p.phashBlock else tip) := by
  have ht : SameTree n n' := by
    have := setBestChain_sameTree env io h.linked.keys b entry
    rwa [hru] at this
  have hs := h.setTxdb n.txdb.txnBegin
  have entry' : (n.setTxdb n.txdb.txnBegin).mapBlockIndex[p.phashBlock]? = some p := entry
  unfold Node.setBestChain at hru
  generalize n.setTxdb n.txdb.txnBegin = n1 at hs entry' hru
  dsimp only at hru
  have hla : ¬(n1.pindexGenesisBlock = none ∧ b.getHash env = env.hashGenesisBlock) := fun hg => hs.genesis hg.1
  rw [if_neg hla] at hru
  have hl : n1.prevOf p.phashBlock = some b.hashPrevBlock := by
    rw [Node.prevOf, entry']
    exact hp
  generalize hr : (ite (b.hashPrevBlock = n1.hashBestChain) _ _ : Bool × Node) = r at hru
  obtain ⟨hk, hn⟩ : Kept n1 r.2 ∧ NextSound r.2 (if r.1 then p.phashBlock else tip) := by
    split at hr
    · rename_i hd
      obtain ⟨hk, hf, hn⟩ := setBestChainInner_links hs.linked.keys entry' hr
      refine ⟨hk, ?_⟩
      rw [hs.hash] at hd
      rw [hd] at hl
      split
      · exact hn hs.linked _ [] .nil (hs.next.mono (.cons hl .nil))
      · rename_i hno
        exact hs.next.congr hk.prevOf (hf (Bool.eq_false_of_not_eq_true hno))
    split at hr
    · subst hr
      exact ⟨.refl _, hs.next⟩
    rename_i best hb
    obtain ⟨q, hq, hb'⟩ := bind_eq_some_iff.mp hb
    rw [hs.best] at hq
    cases hq
    obtain rfl : best.phashBlock = tip := hs.linked.keys hb'
    obtain ⟨hk, hn⟩ := switchChain_links hs.linked.keys hr
    exact ⟨hk, hn hs.linked hs.ranked hs.next⟩
  obtain ⟨ok', m⟩ := r
  obtain ⟨hge, hb, hh⟩ : m.pindexGenesisBlock = n1.pindexGenesisBlock ∧ m.pindexBest = n1.pindexBest ∧
      m.hashBestChain = n1.hashBestChain := by
    obtain ⟨db, map, pool, ws, trust, hm⟩ := hk.fields
    obtain rfl : m = _ := hm
    exact ⟨rfl, rfl, rfl⟩
  cases ok' with
  | false =>
    cases hru
    exact ⟨ht.linked h.linked, ht.ranked h.ranked, hge ▸ hs.genesis, hb.trans hs.best,
      hh.trans hs.hash, (ht.isSome tip).trans h.indexed, hn⟩
  | true =>
    cases hru
    exact ⟨ht.linked h.linked, ht.ranked h.ranked, hge ▸ hs.genesis, rfl, hha,
      (ht.isSome p.phashBlock).trans (by rw [entry]; rfl), hn⟩

/-! ## A new block -/

def Grows (n n' : Node) : Prop := ∀ ⦃a b : Hash256⦄, n.prevOf a = some b → n'.prevOf a = some b

theorem SameTree.grows (h : SameTree n n') : Grows n n' := fun a b hab => by rwa [h.prevOf]

theorem Grows.trans (h : Grows n n') (h' : Grows n' n'') : Grows n n'' := fun _ _ hab => h' (h hab)

theorem Grows.branch (h : Grows n n') (hb : Branch n.prevOf low top l) : Branch n'.prevOf low top l := by
  induction hb with
  | nil => exact .nil
  | cons link _ ih => exact .cons (h link) ih

def enter (n : Node) (p : CBlockIndex) : Node := { n with mapBlockIndex := n.mapBlockIndex.insert p.phashBlock p }

section
variable {p : CBlockIndex} (hnew : n.mapBlockIndex[p.phashBlock]? = none)

theorem getElem?_enter_self (n : Node) (p : CBlockIndex) : (n.enter p).mapBlockIndex[p.phashBlock]? = some p :=
  ExtTreeMap.getElem?_insert_self

theorem getElem?_enter_ne (hk : k ≠ p.phashBlock) : (n.enter p).mapBlockIndex[k]? = n.mapBlockIndex[k]? :=
  getElem?_insert_ne _ hk p

theorem prevOf_enter_ne (hk : k ≠ p.phashBlock) : (n.enter p).prevOf k = n.prevOf k := by
  rw [prevOf, prevOf, getElem?_enter_ne hk]

theorem HashKeys.enter (hke : HashKeys n) (p : CBlockIndex) : HashKeys (n.enter p) := by
  intro k q hq
  by_cases hk : k = p.phashBlock
  · subst hk
    rw [getElem?_enter_self, some.injEq] at hq
    rw [hq]
  · rw [getElem?_enter_ne hk] at hq
    exact hke hq

include hnew

theorem enter_grows : Grows n (n.enter p) := by
  intro a b hab
  rw [prevOf_enter_ne, hab]
  rintro rfl
  rw [prevOf, hnew] at hab
  cases hab

theorem Chained.enter (h : Chained n tip) {prev : Hash256} (hp : n.mapBlockIndex[prev]? = some q)
    (hli : p.pprev = some prev) (hhe : p.nHeight = q.nHeight + 1) (hn : p.pnext = none) : Chained (n.enter p) tip := by
  have hne : ∀ {k : Hash256}, (n.mapBlockIndex[k]?).isSome = true → k ≠ p.phashBlock := by
    rintro k hk rfl
    rw [hnew] at hk
    cases hk
  have hi : ∀ {k : Hash256}, (n.mapBlockIndex[k]?).isSome = true → ((n.enter p).mapBlockIndex[k]?).isSome = true :=
    fun hk => by rwa [getElem?_enter_ne (hne hk)]
  have hp' : (n.mapBlockIndex[prev]?).isSome = true := by rw [hp]; rfl
  have hc : ∀ {a b : Hash256}, (n.enter p).prevOf a = some b → (a = p.phashBlock ∧ b = prev) ∨
      (a ≠ p.phashBlock ∧ n.prevOf a = some b) := by
    intro a b hab
    by_cases ha : a = p.phashBlock
    · subst ha
      rw [prevOf, getElem?_enter_self, bind_some, hli, some.injEq] at hab
      exact .inl ⟨rfl, hab.symm⟩
    · rw [prevOf_enter_ne ha] at hab
      exact .inr ⟨ha, hab⟩
  refine ⟨⟨HashKeys.enter h.linked.keys p, fun hab => ?_⟩, fun a b hab => ?_, h.genesis, h.best,
    h.hash, hi h.indexed, ?_⟩
  · rcases hc hab with ⟨-, rfl⟩ | ⟨-, hab⟩
    · exact hi hp'
    · exact hi (h.linked.closed hab)
  · have hh : ∀ {k : Hash256}, (n.mapBlockIndex[k]?).isSome = true → (n.enter p).heightOf k = n.heightOf k :=
      fun hk => by rw [heightOf, heightOf, getElem?_enter_ne (hne hk)]
    rcases hc hab with ⟨rfl, rfl⟩ | ⟨ha, hab⟩
    · rw [hh hp', heightOf, heightOf, getElem?_enter_self, hp]
      exact hhe
    · rw [hh (h.linked.closed hab), heightOf, getElem?_enter_ne ha]
      exact h.ranked hab
  · intro j k hjk
    have hj : j ≠ p.phashBlock := by
      rintro rfl
      rw [nextOf, getElem?_enter_self, bind_some, hn] at hjk
      cases hjk
    rw [nextOf, getElem?_enter_ne hj] at hjk
    obtain ⟨⟨l, hl⟩, hkj⟩ := h.next j k hjk
    exact ⟨⟨l, (enter_grows hnew).branch hl⟩, enter_grows hnew hkj⟩

end

/-! ## Ancestors -/

/-- `anc` is `h` or an ancestor of it. -/
def Descends (n : Node) (h anc : Hash256) : Prop := ∃ l, Branch n.prevOf anc h l

/-- `anc` is a proper ancestor of `h`. -/
def StrictlyDescends (n : Node) (h anc : Hash256) : Prop := ∃ l, l ≠ [] ∧ Branch n.prevOf anc h l

theorem Descends.refl (n : Node) (h : Hash256) : n.Descends h h := ⟨[], .nil⟩

theorem Descends.trans (h : n.Descends a b) (h' : n.Descends b c) : n.Descends a c := by
  obtain ⟨l, hl⟩ := h
  obtain ⟨l', hl'⟩ := h'
  exact ⟨_, hl.append hl'⟩

theorem StrictlyDescends.descends (h : n.StrictlyDescends a b) : n.Descends a b := by
  obtain ⟨l, -, hl⟩ := h
  exact ⟨l, hl⟩

theorem Descends.strictly (h : n.Descends a b) (hne : a ≠ b) : n.StrictlyDescends a b := by
  obtain ⟨l, hl⟩ := h
  refine ⟨l, ?_, hl⟩
  rintro rfl
  cases hl
  exact hne rfl

theorem StrictlyDescends.prevOf (h : n.StrictlyDescends a b) : ∃ prev, n.prevOf a = some prev := by
  obtain ⟨l, hne, hl⟩ := h
  cases hl with
  | nil => exact absurd rfl hne
  | cons link _ => exact ⟨_, link⟩

theorem StrictlyDescends.trans (h : n.StrictlyDescends a b) (h' : n.StrictlyDescends b c) : n.StrictlyDescends a c := by
  obtain ⟨l, hne, hl⟩ := h
  obtain ⟨l', -, hl'⟩ := h'
  exact ⟨l ++ l', append_ne_nil_of_left_ne_nil hne l', hl.append hl'⟩

theorem Grows.descends (h : Grows n n') (hab : n.Descends a b) : n'.Descends a b := by
  obtain ⟨l, hl⟩ := hab
  exact ⟨l, h.branch hl⟩

theorem Grows.strictlyDescends (h : Grows n n') (hab : n.StrictlyDescends a b) : n'.StrictlyDescends a b := by
  obtain ⟨l, hne, hl⟩ := hab
  exact ⟨l, hne, h.branch hl⟩

theorem Descends.indexed (hl : Linked n) {h anc : Hash256} (hd : n.Descends h anc)
    (hi : (n.mapBlockIndex[h]?).isSome = true) : (n.mapBlockIndex[anc]?).isSome = true := by
  obtain ⟨l, hb⟩ := hd
  induction hb with
  | nil => exact hi
  | cons link _ ih => exact ih (hl.closed link)

theorem descends_of_mem_walkBack (hl : Linked n)
    (hq : q ∈ walkBack n.mapBlockIndex fuel start) : ∃ h, start = some h ∧ n.Descends h q.phashBlock := by
  induction fuel generalizing start with
  | zero => cases start <;> cases hq
  | succ fuel ih =>
    cases start with
    | none => cases hq
    | some h =>
      refine ⟨h, rfl, ?_⟩
      rw [walkBack] at hq
      split at hq
      · cases hq
      rename_i p hp
      obtain rfl : p.phashBlock = h := hl.keys hp
      rcases mem_cons.mp hq with rfl | hq
      · exact .refl n _
      obtain ⟨prev, hpr, hd⟩ := ih hq
      have hli : n.prevOf p.phashBlock = some prev := by
        rw [prevOf, hp]
        exact hpr
      exact Descends.trans ⟨_, .cons hli .nil⟩ hd

theorem descends_of_traceBack (hl : Linked n) (hp : n.mapBlockIndex[p.phashBlock]? = some p)
    (h : n.traceBack p nHeight = some q) : n.Descends p.phashBlock q.phashBlock := by
  rcases mem_cons.mp (mem_of_find?_eq_some h) with rfl | hq
  · exact .refl n _
  obtain ⟨prev, hpr, hd⟩ := descends_of_mem_walkBack hl hq
  have hli : n.prevOf p.phashBlock = some prev := by
    rw [prevOf, hp]
    exact hpr
  exact Descends.trans ⟨_, .cons hli .nil⟩ hd

theorem descends_of_isInMainChain (hn : NextSound n tip) (hb : n.pindexBest = some tip)
    (hp : n.mapBlockIndex[p.phashBlock]? = some p) (hm : n.isInMainChain p = true) : n.Descends tip p.phashBlock := by
  rcases Bool.or_eq_true_iff.mp hm with hso | hs
  · obtain ⟨k, hk⟩ := isSome_iff_exists.mp hso
    have hl : n.nextOf p.phashBlock = some k := by
      rw [nextOf, hp]
      exact hk
    obtain ⟨hd, hpr⟩ := hn _ _ hl
    exact Descends.trans hd ⟨_, .cons hpr .nil⟩
  · have hs := of_decide_eq_true hs
    rw [hb, some.injEq] at hs
    rw [hs]
    exact .refl n _

end Node

/-! ## Checkpoints -/

theorem SyncCheckpoints.move_sameTree (hk : Node.HashKeys n) (c : SyncCheckpoints) (hash : Hash256) :
    Node.SameTree n (c.move env io written n hash).2.1 := by
  unfold move
  dsimp only
  split
  · exact .refl n
  rename_i p hp
  have hw : ∀ n' : Node, Node.SameTree n n' → Node.SameTree n
      (if written = true then (true, n', { c with hashSyncCheckpoint := hash, hashPendingCheckpoint := 0 })
        else (false, n', c) : Bool × Node × SyncCheckpoints).2.1 := by
    intro n' h
    split <;> exact h
  split
  · exact hw n (.refl n)
  split
  · exact .refl n
  rename_i block _
  obtain rfl : p.phashBlock = hash := hk hp
  have hs := Node.setBestChain_sameTree env io hk block hp
  split
  · rename_i heq
    rwa [heq] at hs
  · rename_i heq
    rw [heq] at hs
    exact hw _ hs

theorem ChainMan.acceptPendingSyncCheckpoint_eq (env : Env) (rules : AcceptRules) (s : ChainMan) :
    ∃ n c, s.acceptPendingSyncCheckpoint env rules = { s with node := n, checkpoints := c } ∧
      (Node.HashKeys s.node → Node.SameTree s.node n) := by
  refine ⟨(s.checkpoints.acceptPending env rules.io rules.syncCheckpointWritten s.node).2.1,
    (s.checkpoints.acceptPending env rules.io rules.syncCheckpointWritten s.node).2.2, rfl, fun hk => ?_⟩
  unfold SyncCheckpoints.acceptPending
  split
  · split
    · exact .refl _
    · exact SyncCheckpoints.move_sameTree hk _ _
  · exact .refl _

end CloakCoin.Chain
