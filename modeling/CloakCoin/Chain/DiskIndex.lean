import CloakCoin.Chain.Links

/-!
# The block index on disk

`AddToBlockIndex`, `ConnectBlock` and `DisconnectBlock` write whole records of the block index, with the forward link
the memory will have once the batch is written. `Mirror` compares records and entries: they agree in everything but
the amounts, which agree where `exact` says so.
-/

namespace CloakCoin.Chain

open Lib Wallet
open Std (ExtTreeMap)
open List Option Function Std.ExtTreeMap

variable {p : CBlockIndex} {k : Hash256}

/-! ## Reading records -/

namespace CTxDB

variable (env : Env) (db : CTxDB)

theorem readBlockIndex_writeBlockIndex (d : CDiskBlockIndex) :
    (db.writeBlockIndex env d).readBlockIndex = update db.readBlockIndex (d.getBlockHeader.getHash env) (some d) := by
  funext h
  unfold readBlockIndex writeBlockIndex
  by_cases hh : h = d.getBlockHeader.getHash env
  · subst hh
    simp
  · rw [update_of_ne hh, Store.read_write_of_ne]
    simpa using Ne.symm hh

@[simp] theorem readBlockIndex_updateTxIndex (hash : Hash256) (txindex : CTxIndex) :
    (db.updateTxIndex hash txindex).readBlockIndex = db.readBlockIndex := by
  funext h
  exact Store.read_write_of_ne _ _ (by simp)

@[simp] theorem readBlockIndex_eraseTxIndex (tx : CTransaction) :
    (db.eraseTxIndex env tx).readBlockIndex = db.readBlockIndex := by
  funext h
  exact Store.read_erase_of_ne _ (by simp)

@[simp] theorem readBlockIndex_writeHashBestChain (hash : Hash256) :
    (db.writeHashBestChain hash).readBlockIndex = db.readBlockIndex := by
  funext h
  exact Store.read_write_of_ne _ _ (by simp)

theorem readBlockIndex_writeQueued (queued : MapTxIndex) :
    (Node.writeQueued db queued).readBlockIndex = db.readBlockIndex := by
  unfold Node.writeQueued
  induction queued.toList generalizing db with
  | nil => rfl
  | cons q rest ih =>
    rw [foldl_cons, ih, readBlockIndex_updateTxIndex]

theorem readBlockIndex_releaseInputs (vin : List CTxIn) :
    (releaseInputs db vin).2.readBlockIndex = db.readBlockIndex := by
  induction vin generalizing db with
  | nil => rfl
  | cons txin rest ih =>
    unfold releaseInputs
    split
    · rfl
    split
    · rfl
    · rw [ih, readBlockIndex_updateTxIndex]

theorem readBlockIndex_disconnectTxs (vtx : List CTransaction) :
    (disconnectTxs env db vtx).2.readBlockIndex = db.readBlockIndex := by
  induction vtx generalizing db with
  | nil => rfl
  | cons tx rest ih =>
    have hi : (disconnectInputs env db tx).2.readBlockIndex = db.readBlockIndex := by
      have hr : (if tx.isCoinBase then (true, db) else releaseInputs db tx.vin).2.readBlockIndex =
          db.readBlockIndex := by
        split
        · rfl
        · exact readBlockIndex_releaseInputs db tx.vin
      unfold disconnectInputs
      split
      · rename_i heq
        rwa [heq] at hr
      · rename_i db' heq
        rw [heq] at hr
        exact (readBlockIndex_eraseTxIndex env db' tx).trans hr
    unfold disconnectTxs
    split
    · rename_i heq
      rwa [heq] at hi
    · rename_i db' heq
      rw [heq] at hi
      exact (ih db').trans hi

end CTxDB

/-! ## Records and entries -/

structure Stores (next : Option Hash256) (exact : Prop) (p : CBlockIndex) (d : CDiskBlockIndex) : Prop where
  shape : d.toCBlockIndex.shape = p.shape
  prev : d.hashPrev = p.pprev.getD 0
  next : d.hashNext = next.getD 0
  amounts : exact → d.nMint = p.nMint ∧ d.nMoneySupply = p.nMoneySupply

def Mirror (m : BlockMap) (next : Hash256 → Option Hash256) (exact : Hash256 → Prop)
    (view : Hash256 → Option CDiskBlockIndex) : Prop :=
  ∀ h : Hash256, Rel (Stores (next h) (exact h)) m[h]? (view h)

theorem Stores.toDisk (p : CBlockIndex) (next : Option Hash256) (exact : Prop) :
    Stores next exact p { p.toDisk with hashNext := next.getD 0 } :=
  ⟨rfl, rfl, rfl, fun _ => ⟨rfl, rfl⟩⟩

theorem Stores.field {next : Option Hash256} {d : CDiskBlockIndex} (h : Stores next exact p d)
    (f : CBlockIndex → α) (hf : ∀ q : CBlockIndex, f q.shape = f q) : f d.toCBlockIndex = f p := by
  rw [← hf, h.shape, hf]

namespace Mirror

variable {m m' : BlockMap} {next next' : Hash256 → Option Hash256} {exact exact' : Hash256 → Prop}
  {view : Hash256 → Option CDiskBlockIndex}

section
variable (h : Mirror m next exact view)
include h

theorem entry (hd : view k = some d) : ∃ p, m[k]? = some p ∧ Stores (next k) (exact k) p d := by
  have hk := h k
  rw [hd] at hk
  generalize m[k]? = x at hk
  cases hk with
  | some hs => exact ⟨_, rfl, hs⟩

theorem record (hp : m[k]? = some p) : ∃ d, view k = some d ∧ Stores (next k) (exact k) p d := by
  have hk := h k
  rw [hp] at hk
  generalize view k = v at hk
  cases hk with
  | some hs => exact ⟨_, rfl, hs⟩

theorem isSome (k : Hash256) : (view k).isSome = (m[k]?).isSome := by
  have hk := h k
  generalize m[k]? = x at hk
  generalize view k = v at hk
  cases hk with
  | none => rfl
  | some => rfl

theorem memory (hsh : ∀ k : Hash256, (m'[k]?).map CBlockIndex.shape = (m[k]?).map CBlockIndex.shape)
    (hex : ∀ k : Hash256, exact' k → exact k ∧
      (m'[k]?).map (fun p => (p.nMint, p.nMoneySupply)) = (m[k]?).map fun p => (p.nMint, p.nMoneySupply)) :
    Mirror m' next exact' view := by
  intro k
  have hk := h k
  have hs := hsh k
  have he := hex k
  generalize m[k]? = x at hk hs he
  generalize m'[k]? = y at hs he
  generalize view k = v at hk
  cases hk with
  | none =>
    rw [map_none, map_eq_none_iff] at hs
    rw [hs]
    exact .none
  | @some p d hst =>
    obtain ⟨p', rfl, hp'⟩ := map_eq_some_iff.mp hs
    have hp : p'.pprev = p.pprev := (CBlockIndex.of_shape_eq hp').2.1
    refine .some ⟨hst.shape.trans hp'.symm, by rw [hp]; exact hst.prev, hst.next, fun hx => ?_⟩
    obtain ⟨hx, ha⟩ := he hx
    simp only [map_some, some.injEq, Prod.mk.injEq] at ha
    rw [ha.1, ha.2]
    exact hst.amounts hx

theorem write (hp : m[k]? = some p) (link : Option Hash256) : Mirror m (update next k link) (fun j => exact j ∨ j = k)
      (update view k (some { p.toDisk with hashNext := link.getD 0 })) := by
  intro j
  by_cases hj : j = k
  · subst hj
    rw [update_self, update_self, hp]
    exact .some (.toDisk p link _)
  rw [update_of_ne hj, update_of_ne hj]
  have hk := h j
  generalize m[j]? = x at hk
  generalize view j = v at hk
  cases hk with
  | none => exact .none
  | some hs =>
    refine .some ⟨hs.shape, hs.prev, hs.next, ?_⟩
    rintro (hx | hx)
    · exact hs.amounts hx
    · exact absurd hx hj

theorem next_congr (hnext : ∀ k : Hash256, (m[k]?).isSome = true → next' k = next k) : Mirror m next' exact view := by
  intro k
  have hk := h k
  have hn := hnext k
  generalize m[k]? = x at hk hn
  generalize view k = v at hk
  cases hk with
  | none => exact .none
  | some hs =>
    rw [hn rfl]
    exact .some hs

end

end Mirror

namespace Node

variable {env : Env} {io : Hash256 → Bool} {n n' : Node} {next : Hash256 → Option Hash256} {exact : Hash256 → Prop}
  {ok : Bool} {tip : Hash256}

def HeaderKeys (env : Env) (n : Node) : Prop :=
  ∀ {h : Hash256} {p : CBlockIndex}, n.mapBlockIndex[h]? = some p → p.getBlockHeader.getHash env = h

theorem HeaderKeys.congr (h : HeaderKeys env n)
    (hs : ∀ k : Hash256, (n'.mapBlockIndex[k]?).map CBlockIndex.shape = (n.mapBlockIndex[k]?).map CBlockIndex.shape) :
    HeaderKeys env n' := by
  intro k p hp
  obtain ⟨q, hq, hqp⟩ := exists_of_map_eq (hs k) hp
  have hheader : q.getBlockHeader = p.getBlockHeader := by
    change q.shape.getBlockHeader = p.shape.getBlockHeader
    rw [hqp]
  rw [← hheader]
  exact h hq

theorem Relinked.mirror (hre : Relinked n n')
    (h : Mirror n.mapBlockIndex next exact view) : Mirror n'.mapBlockIndex next exact view := by
  refine h.memory (fun k => ?_) fun k hk => ⟨hk, ?_⟩
  · have hk := congrArg (Option.map CBlockIndex.noSupply) (hre.blocks k)
    rwa [Option.map_map, Option.map_map] at hk
  · have hk := congrArg (Option.map fun p => (p.nMint, p.nMoneySupply)) (hre.blocks k)
    rwa [Option.map_map, Option.map_map] at hk

/-! ## One block -/

variable (prevOf : Hash256 → Option Hash256)

/-- The links once `pprev->pnext` of `h` is `k`. -/
def relinkNext (h : Hash256) (k : Option Hash256) (next : Hash256 → Option Hash256) : Hash256 → Option Hash256 :=
  fun j => if prevOf h = some j then k else next j

section
variable (hheader : HeaderKeys env n) (entry : n.mapBlockIndex[p.phashBlock]? = some p)
include hheader entry

theorem writeHashNext_mirror (link : Option Hash256) (h : Mirror n.mapBlockIndex next exact n.txdb.readBlockIndex) :
    Mirror (n.writeHashNext env p (link.getD 0)).mapBlockIndex (relinkNext n.prevOf p.phashBlock link next) exact
      (n.writeHashNext env p (link.getD 0)).txdb.readBlockIndex := by
  have hp : n.prevOf p.phashBlock = p.pprev := by rw [prevOf, entry]; rfl
  unfold writeHashNext
  cases hpr : p.pprev with
  | none =>
    refine h.next_congr fun k _ => ?_
    rw [relinkNext, hp, hpr, if_neg (by simp)]
  | some prev =>
    rw [bind_some]
    cases hq : n.mapBlockIndex[prev]? with
    | none =>
      refine h.next_congr fun k hk => ?_
      rw [relinkNext, hp, hpr, if_neg]
      rintro ⟨⟩
      rw [hq] at hk
      cases hk
    | some q =>
      have hke : ({ q.toDisk with hashNext := link.getD 0 } : CDiskBlockIndex).getBlockHeader.getHash env = prev :=
        hheader hq
      show Mirror n.mapBlockIndex _ exact (n.txdb.writeBlockIndex env
        { q.toDisk with hashNext := link.getD 0 }).readBlockIndex
      rw [CTxDB.readBlockIndex_writeBlockIndex, hke]
      have hw := h.write hq link
      have hnext : relinkNext n.prevOf p.phashBlock link next = update next prev link := by
        funext j
        rw [relinkNext, hp, hpr, update_apply]
        by_cases hj : j = prev
        · simp [hj]
        · rw [if_neg hj, if_neg]
          rintro ⟨⟩
          exact hj rfl
      rw [hnext]
      exact hw.memory (fun _ => rfl) fun _ hx => ⟨.inl hx, rfl⟩

theorem disconnectBlock_mirror (b : CBlock)
    (h : Mirror n.mapBlockIndex next exact n.txdb.readBlockIndex) (hok : (n.disconnectBlock env b p).1 = true) :
    Mirror (n.disconnectBlock env b p).2.mapBlockIndex (relinkNext n.prevOf p.phashBlock none next) exact
      (n.disconnectBlock env b p).2.txdb.readBlockIndex := by
  have ht := CTxDB.readBlockIndex_disconnectTxs env n.txdb b.vtx.reverse
  unfold disconnectBlock at hok ⊢
  split at hok
  · cases hok
  rename_i db heq
  rw [heq] at ht
  have hs : Mirror (n.setTxdb db).mapBlockIndex next exact (n.setTxdb db).txdb.readBlockIndex := by
    show Mirror n.mapBlockIndex next exact db.readBlockIndex
    rw [ht]
    exact h
  exact writeHashNext_mirror (n := n.setTxdb db) hheader entry none hs

end

variable (env) in
theorem mapBlockIndex_recordSupply (entry : n.mapBlockIndex[p.phashBlock]? = some p) (st : ConnectState) :
    (n.recordSupply env p st).2.mapBlockIndex = n.mapBlockIndex.insert p.phashBlock (n.recordSupply env p st).1 := by
  have hc : n.mapBlockIndex.contains (n.recordSupply env p st).1.phashBlock = true := by
    show n.mapBlockIndex.contains p.phashBlock = true
    rw [contains_eq_isSome_getElem?, entry]
    rfl
  show (n.setIndex (n.recordSupply env p st).1).mapBlockIndex = _
  rw [setIndex, if_pos hc]
  rfl

section
variable (hheader : HeaderKeys env n) (entry : n.mapBlockIndex[p.phashBlock]? = some p)
  (hnext : next p.phashBlock = p.pnext)
include hheader entry hnext

theorem recordSupply_mirror (st : ConnectState) (h : Mirror n.mapBlockIndex next exact n.txdb.readBlockIndex) :
    Mirror (n.recordSupply env p st).2.mapBlockIndex next (fun k => exact k ∨ k = p.phashBlock)
      (n.recordSupply env p st).2.txdb.readBlockIndex := by
  have hf := Framed.recordSupply env entry st
  have hma := mapBlockIndex_recordSupply env entry st
  have hke : (n.recordSupply env p st).1.toDisk.getBlockHeader.getHash env = p.phashBlock := by
    show p.getBlockHeader.getHash env = p.phashBlock
    exact hheader entry
  have hv : (n.recordSupply env p st).2.txdb.readBlockIndex =
      update n.txdb.readBlockIndex p.phashBlock (some (n.recordSupply env p st).1.toDisk) := by
    rw [← hke]
    exact CTxDB.readBlockIndex_writeBlockIndex env n.txdb _
  have hm : Mirror (n.recordSupply env p st).2.mapBlockIndex next (fun k => exact k ∧ k ≠ p.phashBlock)
      n.txdb.readBlockIndex := by
    refine h.memory (fun k => ?_) fun k hk => ⟨hk.1, ?_⟩
    · have hk := congrArg (Option.map CBlockIndex.noNext) (hf.blocks k)
      rwa [Option.map_map, Option.map_map] at hk
    · rw [hma, getElem?_insert_ne _ hk.2]
  have hs : (n.recordSupply env p st).2.mapBlockIndex[p.phashBlock]? = some (n.recordSupply env p st).1 := by
    rw [hma, getElem?_insert_self]
  have hw := hm.write hs p.pnext
  rw [← hnext, update_eq_self, hnext] at hw
  rw [hv]
  refine hw.memory (fun _ => rfl) fun k hk => ⟨?_, rfl⟩
  by_cases hs : k = p.phashBlock
  · exact .inr hs
  · exact .inl ⟨hk.resolve_right hs, hs⟩

theorem connectBlock_mirror (b : CBlock) (h : Mirror n.mapBlockIndex next exact n.txdb.readBlockIndex)
    (hok : (n.connectBlock env b p false).1 = true) :
    Mirror (n.connectBlock env b p false).2.mapBlockIndex (relinkNext n.prevOf p.phashBlock (some p.phashBlock) next)
      (fun k => exact k ∨ k = p.phashBlock) (n.connectBlock env b p false).2.txdb.readBlockIndex := by
  unfold connectBlock at hok ⊢
  split at hok
  · cases hok
  rename_i hc
  split at hok
  · cases hok
  rename_i st _
  have hr := recordSupply_mirror hheader entry hnext st h
  have hf := Framed.recordSupply env entry st
  have entry' : (n.recordSupply env p st).2.mapBlockIndex[p.phashBlock]? = some (n.recordSupply env p st).1 := by
    rw [mapBlockIndex_recordSupply env entry, getElem?_insert_self]
  have hh' : HeaderKeys env (n.recordSupply env p st).2 := hheader.congr (Kept.of_framed hf).blocks
  simp only [Bool.false_eq_true, if_false] at hok ⊢
  split at hok
  · cases hok
  split at hok
  · cases hok
  rename_i hle
  rw [if_neg hc, if_neg hle, ← hf.prevOf]
  rw [← CTxDB.readBlockIndex_writeQueued _ st.mapQueuedChanges] at hr
  exact writeHashNext_mirror (n := (n.recordSupply env p st).2.setTxdb
    (writeQueued (n.recordSupply env p st).2.txdb st.mapQueuedChanges)) (p := (n.recordSupply env p st).1) hh' entry'
    (some p.phashBlock) hr

end

/-! ## Branches -/

/-- The links once `pprev->pnext` of each block listed has been set. -/
def relinkAll (link : Hash256 → Option Hash256) (hs : List Hash256)
    (next : Hash256 → Option Hash256) : Hash256 → Option Hash256 :=
  hs.foldl (fun next h => relinkNext prevOf h (link h) next) next

theorem nextOf_foldl_setNextOfPrev (hl : Linked n) (link : Hash256 → Option Hash256) (hs : List Hash256) :
    (hs.foldl (fun n h => n.setNextOfPrev h (link h)) n).nextOf = relinkAll n.prevOf link hs n.nextOf := by
  induction hs generalizing n with
  | nil => rfl
  | cons h hs ih =>
    have hre := setNextOfPrev_relinked hl h (link h)
    have ho : (n.setNextOfPrev h (link h)).nextOf = relinkNext n.prevOf h (link h) n.nextOf :=
      funext fun j => nextOf_setNextOfPrev hl h (link h) j
    rw [foldl_cons, ih (hre.linked hl), hre.prevOf, ho]
    rfl

theorem relinkAll_none_of_none (hs : List Hash256) (hk : next k = none) :
    relinkAll prevOf (fun _ => none) hs next k = none := by
  induction hs generalizing next with
  | nil => exact hk
  | cons h hs ih =>
    refine ih ?_
    show (if prevOf h = some k then none else next k) = none
    split
    · rfl
    · exact hk

variable (io) in
theorem disconnectBranch_mirror (hheader : HeaderKeys env n) (hk : HashKeys n) (hs : List Hash256)
    (h : Mirror n.mapBlockIndex next exact n.txdb.readBlockIndex) (hok : (disconnectBranch env io hs n).1 = true) :
    Mirror (disconnectBranch env io hs n).2.1.mapBlockIndex (relinkAll n.prevOf (fun _ => none) hs next) exact
      (disconnectBranch env io hs n).2.1.txdb.readBlockIndex := by
  induction hs generalizing n next with
  | nil => exact h
  | cons k hs ih =>
    unfold disconnectBranch at hok ⊢
    split at hok
    · cases hok
    rename_i p b hre
    obtain ⟨entry, -⟩ := readBlock_eq_some hre
    obtain rfl : p.phashBlock = k := hk entry
    have hf := disconnectBlock_framed env n b p
    have hst := fun ho => disconnectBlock_mirror hheader entry b h ho
    split at hok
    · cases hok
    rename_i n' heq
    rw [heq] at hf hst
    have hr := ih (hheader.congr (Kept.of_framed hf).blocks) (hf.hashKeys hk) (hst rfl) hok
    rw [hf.prevOf] at hr
    exact hr

variable (io) in
theorem connectBranch_mirror (hheader : HeaderKeys env n) (hke : HashKeys n) (hr : Ranked n.prevOf n.heightOf)
    {hs : List Hash256} {low top : Hash256} (hb : Branch n.prevOf low top hs.reverse)
    (hnext : ∀ k ∈ hs, n.nextOf k = none ∧ next k = none)
    (h : Mirror n.mapBlockIndex next exact n.txdb.readBlockIndex) (hok : (connectBranch env io hs n).1 = true) :
    Mirror (connectBranch env io hs n).2.1.mapBlockIndex (relinkAll n.prevOf some hs next) (fun k => exact k ∨ k ∈ hs)
      (connectBranch env io hs n).2.1.txdb.readBlockIndex := by
  induction hs generalizing n next low exact with
  | nil => exact h.memory (fun _ => rfl) fun k hk => ⟨hk.resolve_right not_mem_nil, rfl⟩
  | cons k hs ih =>
    rw [reverse_cons, Branch.concat_iff] at hb
    obtain ⟨hb, hl⟩ := hb
    unfold connectBranch at hok ⊢
    split at hok
    · cases hok
    rename_i p b hrea
    obtain ⟨entry, -⟩ := readBlock_eq_some hrea
    obtain rfl : p.phashBlock = k := hke entry
    have hp : next p.phashBlock = p.pnext := by
      obtain ⟨hm, hd⟩ := hnext _ mem_cons_self
      rw [nextOf, entry] at hm
      rw [hd]
      exact hm.symm
    have hf := connectBlock_framed env b entry
    have hst := fun ho => connectBlock_mirror hheader entry hp b h ho
    split at hok
    · cases hok
    rename_i n' heq
    rw [heq] at hf hst
    have ht := SameTree.of_kept (Kept.of_framed hf)
    have hbe : ∀ j ∈ hs, n'.nextOf j = none ∧ relinkNext n.prevOf p.phashBlock (some p.phashBlock) next j = none := by
      intro j hj
      obtain ⟨hm, hd⟩ := hnext j (mem_cons_of_mem _ hj)
      rw [hf.nextOf, relinkNext, if_neg]
      · exact ⟨hm, hd⟩
      · intro hlo
        have hst := hr hlo
        have := (hb.rank_mem hr (mem_reverse.mpr hj)).1
        omega
    have hre := ih (hheader.congr (Kept.of_framed hf).blocks) (hf.hashKeys hke) (ht.ranked hr)
      (hf.prevOf ▸ hb) hbe (hst rfl) hok
    rw [hf.prevOf] at hre
    refine hre.memory (fun _ => rfl) fun j hj => ⟨?_, rfl⟩
    rcases hj with hj | hj
    · exact .inl (.inl hj)
    · rcases mem_cons.mp hj with hj | hj
      · exact .inl (.inr hj)
      · exact .inr hj

/-! ## Batches -/

structure Saved (n : Node) (tip : Hash256) : Prop where
  idle : n.txdb.store.activeBatch = none
  hash : n.txdb.readHashBestChain = some tip
  mirror : Mirror n.mapBlockIndex n.nextOf (n.Descends tip) n.txdb.readBlockIndex

namespace Saved

variable {tip new : Hash256} {db : CTxDB}

theorem read_eq (h : Saved n tip) (k : DbKey) : n.txdb.store.read k = n.txdb.store.disk k := by
  rw [Store.read, h.idle]

theorem begin (h : Saved n tip) :
    Mirror n.mapBlockIndex n.nextOf (n.Descends tip) (n.setTxdb n.txdb.txnBegin).txdb.readBlockIndex := by
  have hv : (n.setTxdb n.txdb.txnBegin).txdb.readBlockIndex = n.txdb.readBlockIndex :=
    funext fun k => (h.read_eq (.blockindex k)).symm
  rw [hv]
  exact h.mirror

theorem rollback (h : Saved n tip) (hf : Framed (n.setTxdb n.txdb.txnBegin) n')
    (hs : ∀ k l, Branch n.prevOf k tip l → n'.mapBlockIndex[k]? = n.mapBlockIndex[k]?)
    (hd : db.store.disk = n'.txdb.store.disk) (hi : db.store.activeBatch = none) : Saved (n'.setTxdb db) tip := by
  have hr : ∀ k, db.store.read k = n.txdb.store.read k := by
    intro k
    rw [h.read_eq, Store.read, hi]
    rw [hd, (hf.txdb.opened rfl).2]
    rfl
  have hv : db.readBlockIndex = n.txdb.readBlockIndex := funext fun k => hr (.blockindex k)
  refine ⟨hi, (hr .hashBestChain).trans h.hash, ?_⟩
  show Mirror n'.mapBlockIndex n'.nextOf (n'.Descends tip) db.readBlockIndex
  rw [hv, show n'.nextOf = n.nextOf from hf.nextOf]
  refine h.mirror.memory (Kept.of_framed hf).blocks fun k hk => ?_
  obtain ⟨l, hl⟩ := hk
  rw [show n'.prevOf = n.prevOf from hf.prevOf] at hl
  exact ⟨⟨l, hl⟩, congrArg (Option.map _) (hs k l hl)⟩

theorem commit (hm : Mirror n.mapBlockIndex next exact n.txdb.readBlockIndex)
    (hc : (n.txdb.writeHashBestChain new).txnCommit = (true, db)) :
    db.store.activeBatch = none ∧ db.readHashBestChain = some new ∧
      Mirror n.mapBlockIndex next exact db.readBlockIndex := by
  obtain ⟨hi, hr⟩ := CTxDB.read_of_txnCommit hc
  have hv : db.readBlockIndex = n.txdb.readBlockIndex := by
    rw [← CTxDB.readBlockIndex_writeHashBestChain n.txdb new]
    exact funext fun k => hr (.blockindex k)
  refine ⟨hi, (hr .hashBestChain).trans (CTxDB.readHashBestChain_writeHashBestChain n.txdb new), ?_⟩
  rw [hv]
  exact hm

end Saved

theorem reorganize_saved (hc : Chained n best) (hheader : HeaderKeys env n) (h : Saved n best)
    (hru : reorganize env io (n.setTxdb n.txdb.txnBegin) best new = (ok, n')) :
    (ok = true → Saved n' new) ∧ (ok = false → Saved (n'.setTxdb n'.txdb.txnAbort) best) := by
  have hc1 := hc.setTxdb n.txdb.txnBegin
  have hh1 : HeaderKeys env (n.setTxdb n.txdb.txnBegin) := hheader
  cases reorganize_cases hc1.linked.keys hc1.ranked hru with
  | failed hf hs hdi =>
    rename_i m db
    refine ⟨(nomatch ·), fun _ => ?_⟩
    have hba : Saved (m.setTxdb db.txnAbort) best :=
      h.rollback hf hs ((hdi rfl).trans (hf.txdb.opened rfl).2.symm) rfl
    exact hba
  | moved hds hcs ha hdis hcon hf hco =>
    rename_i pfork ds cs m m' db rs vs
    refine ⟨fun _ => ?_, (nomatch ·)⟩
    have hdo := disconnectBranch_mirror io hh1 hc1.linked.keys ds h.begin (by rw [hdis])
    have hd := (disconnectBranch_framed env io ds (n.setTxdb n.txdb.txnBegin)).1
    rw [hdis] at hdo hd
    have hdt := SameTree.of_kept (Kept.of_framed hd)
    have hfr : ∀ k ∈ cs.reverse, m.nextOf k = none ∧ relinkAll n.prevOf (fun _ => none) ds n.nextOf k = none := by
      intro k hk
      have hn : n.nextOf k = none := by
        cases hnext : n.nextOf k with
        | none => rfl
        | some j =>
          obtain ⟨⟨l, hl⟩, hj⟩ := hc.next k j hnext
          exact absurd (mem_reverse.mp hk) (ha k _ (Branch.concat_iff.mpr ⟨hl, hj⟩))
      exact ⟨(congrFun hd.nextOf k).trans hn, relinkAll_none_of_none _ ds hn⟩
    have hup := connectBranch_mirror io (hh1.congr (Kept.of_framed hd).blocks)
      (hdt.hashKeys hc1.linked.keys) (hdt.ranked hc1.ranked)
      (by rw [reverse_reverse, hdt.prevOf]; exact hcs) hfr hdo (by rw [hcon])
    rw [hcon, hdt.prevOf] at hup
    obtain ⟨hi, hh, hm⟩ := Saved.commit hup hco
    have htr := SameTree.of_kept ((Kept.of_framed hf).trans (.setTxdb m' db))
    have hli := htr.linked hc1.linked
    have hp : (m'.setTxdb db).prevOf = n.prevOf := hf.prevOf
    obtain ⟨hre, -⟩ := relinked_spec ds (htr.ranked hc1.ranked) hli (by rw [hp, reverse_reverse]; exact hcs)
    obtain ⟨hun, -⟩ := unlink_spec ds hli
    have hnext : ((m'.setTxdb db).moveLinks ds cs.reverse).nextOf = _ :=
      nextOf_foldl_setNextOfPrev (hun.linked hli) some cs.reverse
    rw [nextOf_foldl_setNextOfPrev hli (fun _ => none), hun.prevOf, hp,
      show (m'.setTxdb db).nextOf = n.nextOf from hf.nextOf] at hnext
    obtain ⟨pool, hpo⟩ := relink_eq env (m'.setTxdb db) ds cs.reverse rs vs
    rw [hpo]
    generalize (m'.setTxdb db).moveLinks ds cs.reverse = top at hre hnext ⊢
    have hr := hre.mirror (n := m'.setTxdb db) hm
    have hpt := hre.prevOf.trans hp
    have ht : top.txdb = db := by
      obtain ⟨map, rfl⟩ := hre.fields
      rfl
    refine ⟨by rw [← ht] at hi; exact hi, by rw [← ht] at hh; exact hh, ?_⟩
    show Mirror top.mapBlockIndex top.nextOf (top.Descends new) top.txdb.readBlockIndex
    rw [ht, hnext]
    refine hr.memory (fun _ => rfl) fun k hk => ⟨?_, rfl⟩
    obtain ⟨l, hl⟩ := hk
    rw [hpt] at hl
    rcases hl.mem_or_below hc.ranked hcs with hme | ⟨l', hb⟩
    · exact .inr (mem_reverse.mpr hme)
    · exact .inl ⟨_, hds.append hb⟩

theorem Saved.invalidChainFound (h : Saved n tip) (p : CBlockIndex) : Saved (n.invalidChainFound p) tip := by
  unfold Node.invalidChainFound
  split
  · exact ⟨h.idle, h.hash, h.mirror⟩
  · exact h

theorem setBestChainInner_saved (hch : Chained n tip) (hheader : HeaderKeys env n) (h : Saved n tip)
    (entry : n.mapBlockIndex[p.phashBlock]? = some p) (hpr : p.pprev = some tip) (hh : b.getHash env = p.phashBlock)
    (hru : (n.setTxdb n.txdb.txnBegin).setBestChainInner env b p = (ok, n')) :
    Saved n' (if ok then p.phashBlock else tip) := by
  have hlin : n.prevOf p.phashBlock = some tip := by
    rw [prevOf, entry]
    exact hpr
  have hnext : n.nextOf p.phashBlock = p.pnext := by rw [nextOf, entry, bind_some]
  have hf := connectBlock_framed (n := n.setTxdb n.txdb.txnBegin) env b entry
  have hs : ∀ k l, Branch n.prevOf k tip l →
      ((n.setTxdb n.txdb.txnBegin).connectBlock env b p false).2.mapBlockIndex[k]? = n.mapBlockIndex[k]? := by
    intro k l hk
    refine mapBlockIndex_connectBlock env _ b p ?_
    rintro rfl
    have hst := hch.ranked hlin
    have := hk.rank_top hch.ranked
    omega
  have hm := connectBlock_mirror (n := n.setTxdb n.txdb.txnBegin) hheader entry hnext b h.begin
  unfold setBestChainInner at hru
  split at hru
  · rename_i m hcon
    cases hru
    rw [hcon] at hf hs
    have hb : Saved (m.setTxdb m.txdb.txnAbort) tip := h.rollback hf hs rfl rfl
    exact hb.invalidChainFound p
  rename_i m hcon
  rw [hcon] at hf hs hm
  rw [hh] at hru
  split at hru
  · rename_i db hco
    cases hru
    obtain ⟨hd, hi⟩ := disk_txnCommit_false hco (hf.txdb.opened rfl).1
    exact h.rollback hf hs hd hi
  rename_i db hco
  cases hru
  obtain ⟨hi, hc, hm⟩ := Saved.commit (hm rfl) hco
  have ht := SameTree.of_kept ((Kept.of_framed hf).trans (.setTxdb m db))
  have hli := ht.linked (hch.setTxdb n.txdb.txnBegin).linked
  have hre := setNextOfPrev_relinked hli p.phashBlock (some p.phashBlock)
  have hn' : ((m.setTxdb db).setNextOfPrev p.phashBlock (some p.phashBlock)).nextOf =
      relinkNext n.prevOf p.phashBlock (some p.phashBlock) n.nextOf := by
    funext j
    rw [nextOf_setNextOfPrev hli, ht.prevOf, show (m.setTxdb db).nextOf = n.nextOf from hf.nextOf]
    rfl
  have hr := hre.mirror (n := m.setTxdb db) hm
  have hp := hre.prevOf.trans ht.prevOf
  generalize (m.setTxdb db).setNextOfPrev p.phashBlock (some p.phashBlock) = top at hre hn' hr hp
  have htx : top.txdb = db := by
    obtain ⟨map, rfl⟩ := hre.fields
    rfl
  refine ⟨by rw [← htx] at hi; exact hi, by rw [← htx] at hc; exact hc, ?_⟩
  show Mirror top.mapBlockIndex top.nextOf (top.Descends p.phashBlock) top.txdb.readBlockIndex
  rw [htx, hn']
  refine hr.memory (fun _ => rfl) fun k hk => ⟨?_, rfl⟩
  obtain ⟨l, hl⟩ := hk
  rw [hp] at hl
  cases hl with
  | nil => exact .inr rfl
  | cons link rest =>
    obtain rfl : tip = _ := some.inj (hlin.symm.trans link)
    exact .inl ⟨_, rest⟩

/-! ## `SetBestChain` -/

structure Recorded (env : Env) (n : Node) (tip : Hash256) : Prop where
  chained : Chained n tip
  headers : HeaderKeys env n
  saved : Saved n tip
  height : n.nBestHeight = n.heightOf tip
  trust : n.bnBestChainTrust = n.trustOf tip

theorem SameTree.trustOf (h : SameTree n n') : n'.trustOf = n.trustOf := by
  funext k
  have hm := congrArg (Option.map CBlockIndex.bnChainTrust) (h.blocks k)
  rw [Option.map_map, Option.map_map] at hm
  exact congrArg (Option.getD · 0) hm

theorem switchChain_saved (hc : Chained n best.phashBlock) (hheader : HeaderKeys env n) (h : Saved n best.phashBlock)
    (hn : ((n.setTxdb n.txdb.txnBegin).postpone best.bnChainTrust p.nHeight p.phashBlock).1 = [])
    (hr : (n.setTxdb n.txdb.txnBegin).switchChain env io best p = (ok, n')) :
    Saved n' (if ok then p.phashBlock else best.phashBlock) := by
  have hb := (n.setTxdb n.txdb.txnBegin).postpone_branch best.bnChainTrust p.nHeight p.phashBlock
  unfold switchChain at hr
  generalize (n.setTxdb n.txdb.txnBegin).postpone best.bnChainTrust p.nHeight p.phashBlock = further at hr hn hb
  obtain ⟨vpindexSecondary, pindexIntermediate⟩ := further
  obtain rfl : vpindexSecondary = [] := hn
  cases hb
  dsimp only at hr
  split at hr
  · rename_i m heq
    cases hr
    exact ((reorganize_saved hc hheader h heq).2 rfl).invalidChainFound p
  · rename_i m heq
    cases hr
    exact (reorganize_saved hc hheader h heq).1 rfl

theorem Recorded.setBestChain (h : Recorded env n tip) (entry : n.mapBlockIndex[p.phashBlock]? = some p)
    (hha : b.getHash env = p.phashBlock) (hp : p.pprev = some b.hashPrevBlock)
    (hn : n.trustOf b.hashPrevBlock ≤ n.trustOf tip)
    (hru : n.setBestChain env io b p = (ok, n')) : Recorded env n' (if ok then p.phashBlock else tip) := by
  have hc := h.chained.setBestChain entry hha hp hru
  have ht : SameTree n n' := by
    have := setBestChain_sameTree env io h.chained.linked.keys b entry
    rwa [hru] at this
  have hse := h.chained.setTxdb n.txdb.txnBegin
  have hl : n.prevOf p.phashBlock = some b.hashPrevBlock := by
    rw [prevOf, entry]
    exact hp
  have hh : n.heightOf p.phashBlock = p.nHeight := by rw [heightOf, entry]; rfl
  have hla : ¬((n.setTxdb n.txdb.txnBegin).pindexGenesisBlock = none ∧ b.getHash env = env.hashGenesisBlock) :=
    fun hg => hse.genesis hg.1
  unfold Node.setBestChain at hru
  dsimp only at hru
  rw [if_neg hla] at hru
  generalize hr : (ite (b.hashPrevBlock = (n.setTxdb n.txdb.txnBegin).hashBestChain) _ _ : Bool × Node) = r at hru
  obtain ⟨hk, hs⟩ : Kept n r.2 ∧ Saved r.2 (if r.1 then p.phashBlock else tip) := by
    have hk := Kept.setTxdb n n.txdb.txnBegin
    split at hr
    · rename_i hd
      rw [hse.hash] at hd
      rw [hd] at hp
      refine ⟨hk.trans (setBestChainInner_links hse.linked.keys entry hr).1, ?_⟩
      exact setBestChainInner_saved h.chained h.headers h.saved entry hp hha hr
    obtain ⟨best, hbe⟩ := isSome_iff_exists.mp h.chained.indexed
    have hbes : (n.setTxdb n.txdb.txnBegin).bestEntry = some best := by
      rw [bestEntry, hse.best]
      exact hbe
    obtain rfl : best.phashBlock = tip := h.chained.linked.keys hbe
    rw [hbes] at hr
    refine ⟨hk.trans (switchChain_links hse.linked.keys hr).1, ?_⟩
    refine switchChain_saved h.chained h.headers h.saved ?_ hr
    have htr : n.trustOf best.phashBlock = best.bnChainTrust := by rw [trustOf, hbe]; rfl
    rw [← hh, h.chained.ranked hl, ← htr]
    exact (postpone_eq_nil_iff (n := n.setTxdb n.txdb.txnBegin) _ _ hl).mpr hn
  obtain ⟨ok', m⟩ := r
  cases ok' with
  | false =>
    cases hru
    obtain ⟨hb, hbt⟩ : n'.nBestHeight = n.nBestHeight ∧ n'.bnBestChainTrust = n.bnBestChainTrust := by
      obtain ⟨db, map, pool, ws, trust, rfl⟩ := hk.fields
      exact ⟨rfl, rfl⟩
    refine ⟨hc, HeaderKeys.congr h.headers ht.blocks, hs, ?_, ?_⟩
    · rw [hb, ht.heightOf]
      exact h.height
    · rw [hbt, ht.trustOf]
      exact h.trust
  | true =>
    cases hru
    refine ⟨hc, HeaderKeys.congr h.headers ht.blocks, ⟨hs.idle, hs.hash, hs.mirror⟩, ?_, ?_⟩
    · rw [ht.heightOf]
      show (p.nHeight : Int) = n.heightOf p.phashBlock
      rw [hh]
    · rw [ht.trustOf]
      show p.bnChainTrust = n.trustOf p.phashBlock
      rw [trustOf, entry]
      rfl

end Node

end CloakCoin.Chain
