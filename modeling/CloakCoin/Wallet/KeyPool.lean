import CloakCoin.Lib.Lease
import CloakCoin.Lib.Run

/-!
# The key pool

`setKeyPool` holds the indices of the keys that wait in the pool, the wallet database a record for each.
A holder (`CReserveKey`) takes the smallest index out and later keeps the key or returns the index. A new
index is one above the largest that is in the set now, or starts at 1 again.
-/

namespace CloakCoin.Wallet

open Lib Function Option

variable {keypool : Int}

abbrev CPubKey := Nat

/-- `GenerateNewKey`: a key the wallet does not have yet. -/
structure KeyGen where
  generateNewKey : Finset CPubKey → CPubKey
  fresh : ∀ keys, generateNewKey keys ∉ keys

/-- `nIndex` is `none` for -1, `vchPubKey` for an invalid key. -/
structure CReserveKey where
  nIndex : Option Nat := none
  vchPubKey : Option CPubKey := none
  deriving DecidableEq

structure KeyPool where
  setKeyPool : Finset Nat
  /-- The pool records of the wallet database, with the key of each. -/
  pool : Nat → Option CPubKey
  /-- The keys of the key store. -/
  keys : Finset CPubKey
  isLocked : Bool
  vchDefaultKey : Option CPubKey
  holders : Nat → CReserveKey

namespace KeyPool

def last (s : KeyPool) : Nat := s.setKeyPool.sup id

/-- `WritePool` and the insertion of the index. -/
def write (s : KeyPool) (nIndex : Nat) (k : CPubKey) : KeyPool :=
  { s with
    pool := Function.update s.pool nIndex (some k)
    setKeyPool := insert nIndex s.setKeyPool }

section
variable (gen : KeyGen)

def writeNew (s : KeyPool) (nIndex : Nat) : KeyPool :=
  let k := gen.generateNewKey s.keys
  { s with keys := insert k s.keys }.write nIndex k

/-- `max(GetArg("-keypool", 100), 0)`. -/
def nKeys (keypool : Int) : Nat := (max keypool 0).toNat

/-- Mark old keypool keys as used, and generate all new keys. -/
def newKeyPool (keypool : Int) (s : KeyPool) : KeyPool :=
  let s := { s with
    pool := fun i => if i ∈ s.setKeyPool then none else s.pool i
    setKeyPool := ∅ }
  if s.isLocked then s else (List.range (nKeys keypool)).foldl (fun s i => s.writeNew gen (i + 1)) s

/-- `nTargetSize + 1`, in 32 bits. -/
def targetSize (keypool : Int) : Nat := (nKeys keypool % 2 ^ 32 + 1) % 2 ^ 32

/-- The loop of `TopUpKeyPool`; each round adds one index. -/
def topUpLoop (target : Nat) : Nat → KeyPool → KeyPool
  | 0, s => s
  | fuel + 1, s => if s.setKeyPool.card < target then topUpLoop target fuel (s.writeNew gen (s.last + 1)) else s

def topUpKeyPool (keypool : Int) (s : KeyPool) : KeyPool :=
  if s.isLocked then s else topUpLoop gen (targetSize keypool) (targetSize keypool - s.setKeyPool.card) s

def reserveKeyFromKeyPool (keypool : Int) (s : KeyPool) : KeyPool × Option Nat × Option CPubKey :=
  let s := if !s.isLocked then s.topUpKeyPool gen keypool else s
  if h : s.setKeyPool.Nonempty then
    let nIndex := s.setKeyPool.min' h
    ({ s with setKeyPool := s.setKeyPool.erase nIndex }, some nIndex,
      (s.pool nIndex).filter fun k => decide (k ∈ s.keys))
  else (s, none, none)

def setHolder (s : KeyPool) (a : Nat) (r : CReserveKey) : KeyPool := { s with holders := Function.update s.holders a r }

def getReservedKey (keypool : Int) (a : Nat) (s : KeyPool) : KeyPool :=
  if (s.holders a).nIndex = none then
    match s.reserveKeyFromKeyPool gen keypool with
    | (s, some nIndex, some vchPubKey) => s.setHolder a ⟨some nIndex, some vchPubKey⟩
    | (s, some nIndex, none) => s.setHolder a { s.holders a with nIndex := some nIndex } -- an exception was thrown
    | (s, none, _) => s.setHolder a ⟨none, s.vchDefaultKey⟩
  else s

end

/-- `CReserveKey::KeepKey`: the record is erased. -/
def keepKey (a : Nat) (s : KeyPool) : KeyPool :=
  match (s.holders a).nIndex with
  | some nIndex => { s with pool := Function.update s.pool nIndex none }.setHolder a {}
  | none => s.setHolder a {}

/-- `CReserveKey::ReturnKey`, also called when the holder is destroyed. -/
def returnKey (a : Nat) (s : KeyPool) : KeyPool :=
  match (s.holders a).nIndex with
  | some nIndex => { s with setKeyPool := insert nIndex s.setKeyPool }.setHolder a {}
  | none => s.setHolder a {}

/-- The last element of an empty set is undefined. -/
def addReserveKey (k : CPubKey) (s : KeyPool) : Option KeyPool :=
  if s.setKeyPool.Nonempty then some (s.write (1 + s.last) k) else none

def setLocked (b : Bool) (s : KeyPool) : KeyPool := { s with isLocked := b }

/-! ## The invariant -/

/-- The indices in the set are free, those of the holders leased. -/
def lease (s : KeyPool) : Lease Nat Nat := ⟨s.setKeyPool, fun a => (s.holders a).nIndex⟩

structure PoolInv (s : KeyPool) : Prop where
  sound : s.lease.Sound s.pool
  known : ∀ {i k}, s.lease.InUse i → s.pool i = some k → k ∈ s.keys
  held : ∀ {a i}, (s.holders a).nIndex = some i → (s.holders a).vchPubKey = s.pool i

variable {s : KeyPool} {gen : KeyGen} {a b i : Nat} {k : CPubKey}

theorem le_last (hi : i ∈ s.setKeyPool) : i ≤ s.last := Finset.le_sup (f := id) hi

theorem lease_write (s : KeyPool) (i : Nat) (k : CPubKey) : (s.write i k).lease = s.lease.put i := by
  simp [lease, write, Lease.put]

theorem write_pool_self (s : KeyPool) (i : Nat) (k : CPubKey) : (s.write i k).pool i = some k := update_self ..

theorem write_pool_ne (h : j ≠ i) : (s.write i k).pool j = s.pool j := update_of_ne h _ _

theorem setHolder_self (s : KeyPool) (a : Nat) (r : CReserveKey) : (s.setHolder a r).holders a = r :=
  update_self ..

theorem setHolder_ne (h : b ≠ a) : (s.setHolder a r).holders b = s.holders b := update_of_ne h _ _

theorem lease_setHolder (s : KeyPool) (a : Nat) (r : CReserveKey) :
    (s.setHolder a r).lease = { s.lease with held := Function.update s.lease.held a r.nIndex } := by
  unfold lease
  congr 1
  funext b
  by_cases hb : b = a
  · rw [hb, setHolder_self, update_self]
  · rw [setHolder_ne hb, update_of_ne hb]

theorem PoolInv.of_setHolder {s' : KeyPool} (h : s.PoolInv) (hl : (s'.setHolder a r).lease = l)
    (hs : l.Sound s'.pool) (hu : ∀ j, l.InUse j → s.lease.InUse j) (hk : s'.keys = s.keys)
    (hp : ∀ j, l.InUse j → s'.pool j = s.pool j) (hh : s'.holders = s.holders)
    (ho : ∀ i, r.nIndex = some i → r.vchPubKey = s.pool i) : (s'.setHolder a r).PoolInv where
  sound := hl ▸ hs
  known {j k} hj hjk := by
    rw [hl] at hj
    exact hk ▸ h.known (hu j hj) ((hp j hj).symm.trans hjk)
  held {b j} hb := by
    have hj : s'.pool j = s.pool j := hp j (hl ▸ .inr ⟨b, hb⟩)
    change _ = s'.pool j
    rw [hj]
    by_cases hba : b = a
    · rw [hba, setHolder_self] at hb ⊢
      exact ho j hb
    · rw [setHolder_ne hba, hh] at hb ⊢
      exact h.held hb

theorem PoolInv.write (h : s.PoolInv) (hi : ∀ a, (s.holders a).nIndex ≠ some i)
    (hk : ∀ j, s.lease.InUse j → s.pool j ≠ some k) (hkn : k ∈ s.keys) : (s.write i k).PoolInv where
  sound := by
    rw [lease_write]
    exact h.sound.put hi hk
  known {j k'} hj hjk := by
    rw [lease_write] at hj
    by_cases hji : j = i
    · rw [hji, write_pool_self, some.injEq] at hjk
      exact hjk ▸ hkn
    · rw [write_pool_ne hji] at hjk
      exact h.known (hj.of_put.resolve_left hji) hjk
  held {a j} ha := by
    have hji : j ≠ i := by
      rintro rfl
      exact hi a ha
    rw [write_pool_ne hji]
    exact h.held ha

theorem PoolInv.writeNew (h : s.PoolInv) (gen : KeyGen) (hi : ∀ a, (s.holders a).nIndex ≠ some i) :
    (s.writeNew gen i).PoolInv := by
  have hk : { s with keys := insert (gen.generateNewKey s.keys) s.keys }.PoolInv :=
    ⟨h.sound, fun hj hjk => Finset.mem_insert_of_mem (h.known hj hjk), h.held⟩
  exact hk.write hi (fun j hj hjk => gen.fresh s.keys (h.known hj hjk)) (Finset.mem_insert_self _ _)

/-! ## Topping up -/

theorem writeNew_last (s : KeyPool) (gen : KeyGen) : (s.writeNew gen (s.last + 1)).last = s.last + 1 := by
  change (insert (s.last + 1) s.setKeyPool).sup id = s.last + 1
  rw [Finset.sup_insert]
  exact sup_eq_left.mpr (Nat.le_succ _)

def Vacant (s : KeyPool) (first n : Nat) : Prop := ∀ a i, (s.holders a).nIndex = some i → ¬(first < i ∧ i ≤ first + n)

theorem PoolInv.topUpLoop (gen : KeyGen) (target : Nat) : ∀ (fuel : Nat) {s : KeyPool}, s.PoolInv →
    s.Vacant s.last fuel → (KeyPool.topUpLoop gen target fuel s).PoolInv
  | 0, _, h, _ => h
  | fuel + 1, s, h, hv => by
    unfold KeyPool.topUpLoop
    split
    · refine topUpLoop gen target fuel (h.writeNew gen fun a ha => ?_) fun a i ha hi => ?_
      · exact hv a _ ha (by omega)
      · rw [writeNew_last] at hi
        exact hv a i ha (by omega)
    · exact h

def TopUpVacant (s : KeyPool) (keypool : Int) : Prop :=
  s.isLocked = true ∨ s.Vacant s.last (targetSize keypool - s.setKeyPool.card)

theorem PoolInv.topUpKeyPool (h : s.PoolInv) (gen : KeyGen) (hok : s.TopUpVacant keypool) :
    (s.topUpKeyPool gen keypool).PoolInv := by
  unfold KeyPool.topUpKeyPool
  split
  · exact h
  · rename_i hl
    exact PoolInv.topUpLoop gen _ _ h (hok.resolve_left hl)

theorem topUpLoop_holders (gen : KeyGen) (target : Nat) : ∀ (fuel : Nat) (s : KeyPool),
    (topUpLoop gen target fuel s).holders = s.holders
  | 0, s => rfl
  | fuel + 1, s => by
    unfold topUpLoop
    split
    · exact topUpLoop_holders gen target fuel _
    · rfl

theorem topUpKeyPool_holders (gen : KeyGen) (keypool : Int) (s : KeyPool) :
    (s.topUpKeyPool gen keypool).holders = s.holders := by
  unfold topUpKeyPool
  split
  · rfl
  · exact topUpLoop_holders gen _ _ s

theorem topUp_unless_locked (gen : KeyGen) (keypool : Int) (s : KeyPool) :
    (if !s.isLocked then s.topUpKeyPool gen keypool else s) = s.topUpKeyPool gen keypool := by
  unfold topUpKeyPool
  cases s.isLocked with
  | true => rfl
  | false => rfl

/-! ## The other operations -/

theorem PoolInv.setHolder_none (h : s.PoolInv) (ha : (s.holders a).nIndex = none) (k : Option CPubKey) :
    (s.setHolder a ⟨none, k⟩).PoolInv := by
  have hl : (s.setHolder a ⟨none, k⟩).lease = s.lease := by
    rw [lease_setHolder]
    exact congrArg (Lease.mk s.lease.free) (update_eq_self_iff.mpr ha.symm)
  exact h.of_setHolder hl h.sound (fun _ hj => hj) rfl (fun _ _ => rfl) rfl fun i hi => nomatch hi

theorem PoolInv.take (h : s.PoolInv) (hi : i ∈ s.setKeyPool) (hk : s.pool i = some k) :
    ({ s with setKeyPool := s.setKeyPool.erase i }.setHolder a ⟨some i, some k⟩).PoolInv := by
  have hl : ({ s with setKeyPool := s.setKeyPool.erase i }.setHolder a ⟨some i, some k⟩).lease = s.lease.take a i := by
    rw [lease_setHolder]
    simp [lease, Lease.take]
  refine h.of_setHolder hl (h.sound.take hi) (fun _ => .of_take hi) rfl (fun _ _ => rfl) rfl fun j hj => ?_
  obtain rfl := some.inj hj
  exact hk.symm

theorem PoolInv.getReservedKey (h : s.PoolInv) (gen : KeyGen) (a : Nat)
    (hok : (s.holders a).nIndex ≠ none ∨ s.TopUpVacant keypool) : (s.getReservedKey gen keypool a).PoolInv := by
  unfold KeyPool.getReservedKey
  split
  · rename_i hn
    have hv := hok.resolve_left fun hne => hne hn
    have hi := h.topUpKeyPool gen hv
    have hh := topUpKeyPool_holders gen keypool s
    unfold reserveKeyFromKeyPool
    rw [topUp_unless_locked]
    generalize s.topUpKeyPool gen keypool = s' at hi hh
    dsimp only
    by_cases hne : s'.setKeyPool.Nonempty
    · have hm := s'.setKeyPool.min'_mem hne
      obtain ⟨k, hk⟩ := hi.sound.labelled (.inl hm)
      have hkn : k ∈ s'.keys := hi.known (.inl hm) hk
      rw [dif_pos hne, hk, filter_some, if_pos (decide_eq_true hkn)]
      exact hi.take hm hk
    · rw [dif_neg hne]
      exact hi.setHolder_none (hh ▸ hn) _
  · exact h

theorem getReservedKey_ne (h : b ≠ a) : (s.getReservedKey gen keypool a).holders b = s.holders b := by
  have hh : (s.reserveKeyFromKeyPool gen keypool).1.holders = s.holders := by
    unfold reserveKeyFromKeyPool
    rw [topUp_unless_locked]
    dsimp only
    split
    · exact topUpKeyPool_holders gen keypool s
    · exact topUpKeyPool_holders gen keypool s
  unfold getReservedKey
  split
  · split
    all_goals
      rename_i heq
      rw [setHolder_ne h, ← hh, heq]
  · rfl

theorem PoolInv.keepKey (h : s.PoolInv) (a : Nat) : (s.keepKey a).PoolInv := by
  unfold KeyPool.keepKey
  split
  · rename_i i hi
    have hl : ({ s with pool := Function.update s.pool i none }.setHolder a {}).lease = s.lease.drop a :=
      lease_setHolder ..
    refine h.of_setHolder hl (h.sound.drop hi) (fun _ => .of_drop) rfl (fun j hj => ?_) rfl fun i hi => nomatch hi
    exact update_of_ne (h.sound.ne_of_drop hi hj) _ _
  · rename_i hn
    exact h.setHolder_none hn none

theorem PoolInv.returnKey (h : s.PoolInv) (a : Nat) : (s.returnKey a).PoolInv := by
  unfold KeyPool.returnKey
  split
  · rename_i i hi
    have hl : ({ s with setKeyPool := insert i s.setKeyPool }.setHolder a {}).lease = s.lease.give a i := by
      rw [lease_setHolder]
      simp [lease, Lease.give]
    exact h.of_setHolder hl (h.sound.give hi) (fun _ => .of_give hi) rfl (fun _ _ => rfl) rfl fun i hi => nomatch hi
  · rename_i hn
    exact h.setHolder_none hn none

theorem PoolInv.writeAll (gen : KeyGen) : ∀ (l : List Nat) {s : KeyPool}, s.PoolInv →
    (∀ a, ∀ i ∈ l, (s.holders a).nIndex ≠ some (i + 1)) → (l.foldl (fun s i => s.writeNew gen (i + 1)) s).PoolInv
  | [], _, h, _ => h
  | i :: l, s, h, hv => by
    refine writeAll gen l (h.writeNew gen fun a => hv a i List.mem_cons_self) fun a j hj => ?_
    exact hv a j (List.mem_cons_of_mem _ hj)

theorem PoolInv.newKeyPool (h : s.PoolInv) (gen : KeyGen)
    (hok : s.isLocked = true ∨ s.Vacant 0 (nKeys keypool)) : (s.newKeyPool gen keypool).PoolInv := by
  have hh : ∀ {a i}, (s.holders a).nIndex = some i → i ∉ s.setKeyPool := fun ha hm => h.sound.apart ha hm
  have hc : { s with
      pool := fun i => if i ∈ s.setKeyPool then none else s.pool i
      setKeyPool := ∅ }.PoolInv := by
    have hl : { s with
        pool := fun i => if i ∈ s.setKeyPool then none else s.pool i
        setKeyPool := ∅ }.lease = s.lease.clear := by
      simp [lease, Lease.clear]
    refine ⟨?_, fun {i k} hi hik => ?_, fun {a i} ha => ?_⟩
    · rw [hl]
      exact h.sound.clear fun i hi => if_neg hi
    · rw [hl] at hi
      obtain ⟨a, ha⟩ := hi.resolve_left fun hm => hm
      dsimp only at hik
      rw [if_neg (hh ha)] at hik
      exact h.known (.inr ⟨a, ha⟩) hik
    · dsimp only
      rw [if_neg (hh ha)]
      exact h.held ha
  unfold KeyPool.newKeyPool
  dsimp only
  split
  · exact hc
  rename_i hlo
  refine PoolInv.writeAll gen _ hc fun a i hi ha => ?_
  rw [List.mem_range] at hi
  exact hok.resolve_left hlo a (i + 1) ha (by omega)

end KeyPool

/-! ## Every run -/

inductive KeyPoolOp where
  | topUpKeyPool (keypool : Int)
  | getReservedKey (keypool : Int) (a : Nat)
  | keepKey (a : Nat)
  | returnKey (a : Nat)
  | newKeyPool (keypool : Int)
  | addReserveKey (k : CPubKey)
  | setLocked (b : Bool)

namespace KeyPoolOp

def exec (gen : KeyGen) : KeyPoolOp → KeyPool → Option KeyPool
  | topUpKeyPool keypool, s => some (s.topUpKeyPool gen keypool)
  | getReservedKey keypool a, s => some (s.getReservedKey gen keypool a)
  | keepKey a, s => some (s.keepKey a)
  | returnKey a, s => some (s.returnKey a)
  | newKeyPool keypool, s => some (s.newKeyPool gen keypool)
  | addReserveKey k, s => s.addReserveKey k
  | setLocked b, s => some (s.setLocked b)

/-- The operation writes to no index in use. -/
def Safe : KeyPoolOp → KeyPool → Prop
  | topUpKeyPool keypool, s => s.TopUpVacant keypool
  | getReservedKey keypool a, s => (s.holders a).nIndex ≠ none ∨ s.TopUpVacant keypool
  | newKeyPool keypool, s => s.isLocked = true ∨ s.Vacant 0 (KeyPool.nKeys keypool)
  | addReserveKey k, s =>
    s.Vacant s.last 1 ∧ k ∈ s.keys ∧ ∀ i, (i ∈ s.setKeyPool ∨ ∃ a, (s.holders a).nIndex = some i) → s.pool i ≠ some k
  | _, _ => True

end KeyPoolOp

theorem KeyPool.PoolInv.exec {gen : KeyGen} {s s' : KeyPool} (h : s.PoolInv) {op : KeyPoolOp} (hop : op.Safe s)
    (hs' : op.exec gen s = some s') : s'.PoolInv := by
  cases op with
  | addReserveKey k =>
    obtain ⟨hv, hk, hu⟩ := hop
    unfold KeyPoolOp.exec KeyPool.addReserveKey at hs'
    dsimp only at hs'
    split at hs'
    · obtain rfl := some.inj hs'
      exact h.write (fun a ha => hv a _ ha (by omega)) (fun i hi => hu i hi) hk
    · cases hs'
  | topUpKeyPool keypool =>
    obtain rfl := some.inj hs'
    exact h.topUpKeyPool gen hop
  | getReservedKey keypool a =>
    obtain rfl := some.inj hs'
    exact h.getReservedKey gen a hop
  | keepKey a =>
    obtain rfl := some.inj hs'
    exact h.keepKey a
  | returnKey a =>
    obtain rfl := some.inj hs'
    exact h.returnKey a
  | newKeyPool keypool =>
    obtain rfl := some.inj hs'
    exact h.newKeyPool gen hop
  | setLocked b =>
    obtain rfl := some.inj hs'
    exact ⟨h.sound, h.known, h.held⟩

/-- The pool as `CWalletDB` loads it: nothing is reserved. -/
structure KeyPool.Loaded (s : KeyPool) : Prop where
  holders : ∀ a, (s.holders a).nIndex = none
  records : ∀ i ∈ s.setKeyPool, ∃ k ∈ s.keys, s.pool i = some k
  distinct : ∀ i ∈ s.setKeyPool, ∀ j ∈ s.setKeyPool, s.pool i = s.pool j → i = j

theorem KeyPool.Loaded.poolInv {s : KeyPool} (h : s.Loaded) : s.PoolInv := by
  have hn : ∀ {a i}, s.lease.held a ≠ some i := fun {a i} ha => nomatch (h.holders a).symm.trans ha
  have hu : ∀ {i}, s.lease.InUse i → i ∈ s.setKeyPool := fun hi => hi.resolve_right fun ⟨_, ha⟩ => hn ha
  refine ⟨⟨fun ha => absurd ha hn, fun ha => absurd ha hn, fun {i} hi => ?_, fun {i j k} hi hj hik hjk => ?_⟩,
    fun {i k} hi hik => ?_, fun ha => absurd ha hn⟩
  · obtain ⟨k, -, hk⟩ := h.records i (hu hi)
    exact ⟨k, hk⟩
  · exact h.distinct i (hu hi) j (hu hj) (hik.trans hjk.symm)
  · obtain ⟨k', hk', hi'⟩ := h.records i (hu hi)
    rw [hik, some.injEq] at hi'
    exact hi' ▸ hk'

theorem pool_indices_unshared (gen : KeyGen) (s₀ s : KeyPool) (h₀ : s₀.Loaded)
    (hrun : Reach (KeyPoolOp.exec gen) KeyPoolOp.Safe s₀ s) : (∀ i ∈ s.setKeyPool, ∃ k, s.pool i = some k) ∧
      (∀ a b i j, a ≠ b → (s.holders a).nIndex = some i → (s.holders b).nIndex = some j →
        i ≠ j ∧ (s.holders a).vchPubKey ≠ (s.holders b).vchPubKey) ∧
      ∀ a i, (s.holders a).nIndex = some i → i ∉ s.setKeyPool := by
  have hinv : s.PoolInv := hrun.inv h₀.poolInv fun op t t' ht hop ht' => ht.exec hop ht'
  refine ⟨fun i hi => hinv.sound.labelled (.inl hi), fun a b i j hab ha hb => ?_, fun a i ha => hinv.sound.apart ha⟩
  have hij : i ≠ j := by
    rintro rfl
    exact hab (hinv.sound.unique ha hb)
  refine ⟨hij, fun hke => ?_⟩
  obtain ⟨k, hk⟩ := hinv.sound.labelled (.inr ⟨a, ha⟩)
  rw [hinv.held ha, hinv.held hb, hk] at hke
  exact hij (hinv.sound.distinct (.inr ⟨a, ha⟩) (.inr ⟨b, hb⟩) hk hke.symm)

namespace Sample

def keyGen : KeyGen where
  generateNewKey keys := keys.sup id + 1
  fresh _ hmem := Nat.not_succ_le_self _ (Finset.le_sup (f := id) hmem)

def emptyPool : KeyPool := ⟨∅, fun _ => none, ∅, false, none, fun _ => {}⟩

theorem emptyPool_loaded : emptyPool.Loaded := ⟨fun _ => rfl, by simp [emptyPool], by simp [emptyPool]⟩

end Sample

open Sample KeyPool in
/-- With `-keypool=1` one key stays in the pool when the first of two holders takes one. -/
theorem pool_indices_unshared_two : let s := getReservedKey keyGen 1 1 (getReservedKey keyGen 1 0 emptyPool)
    (s.holders 0).nIndex = some 1 ∧ (s.holders 1).nIndex = some 2 ∧
      (s.holders 0).vchPubKey ≠ (s.holders 1).vchPubKey := by
  have hf : KeyPoolOp.Safe (.getReservedKey 1 0) emptyPool := .inr (.inr fun a i ha => nomatch ha)
  have hs : KeyPoolOp.Safe (.getReservedKey 1 1) (getReservedKey keyGen 1 0 emptyPool) := by
    have hl : (getReservedKey keyGen 1 0 emptyPool).last = 2 := by decide
    refine .inr (.inr fun a i ha => ?_)
    have hi : i = 1 := by
      by_cases ha0 : a = 0
      · rw [ha0, show ((getReservedKey keyGen 1 0 emptyPool).holders 0).nIndex = some 1 by decide] at ha
        exact (some.inj ha).symm
      · rw [getReservedKey_ne ha0] at ha
        cases ha
    omega
  have hrun : Reach (KeyPoolOp.exec keyGen) KeyPoolOp.Safe emptyPool
      (getReservedKey keyGen 1 1 (getReservedKey keyGen 1 0 emptyPool)) :=
    .step (.getReservedKey 1 1) (.step (.getReservedKey 1 0) .start hf rfl) hs rfl
  refine ⟨by decide, by decide, ?_⟩
  exact ((pool_indices_unshared keyGen emptyPool _ emptyPool_loaded hrun).2.1 0 1 1 2 (by decide)
    (by decide) (by decide)).2

open Sample KeyPool in
/-- Two holders at once have the same index; when one keeps its key and the other returns, the index is in
the set without a record. -/
theorem pool_index_shared : let s := getReservedKey keyGen 0 1 (getReservedKey keyGen 0 0 emptyPool)
    emptyPool.Loaded ∧ (s.holders 0).nIndex = some 1 ∧ (s.holders 1).nIndex = some 1 ∧
      1 ∈ (returnKey 1 (keepKey 0 s)).setKeyPool ∧ (returnKey 1 (keepKey 0 s)).pool 1 = none := by
  refine ⟨emptyPool_loaded, ?_, ?_, ?_, ?_⟩
  all_goals decide

end CloakCoin.Wallet
