import CloakCoin.Chain.Accept

/-!
# Loading the block index

`CTxDB::LoadBlockIndex` up to the best block: every record becomes an entry, with entries made on the way for the
hashes it links to; chain trust is added in the order of the heights.
-/

namespace CloakCoin.Chain

open Lib
open Std (ExtTreeMap)
open List

variable {m : BlockMap} {hash : Hash256} {seen : Hash256 → Prop} {trust : Hash256 → Nat}

/-! ## Records -/

namespace CDiskBlockIndex

def getBlockHash (env : Env) (d : CDiskBlockIndex) : Hash256 :=
  CBlockHeader.getHash env { d.getBlockHeader with hashPrevBlock := d.hashPrev }

end CDiskBlockIndex

def CBlockIndex.blank (hash : Hash256) : CBlockIndex where
  phashBlock := hash
  pprev := none
  pnext := none
  nFile := ⟨0, by decide⟩
  nBlockPos := 0
  bnChainTrust := 0
  nHeight := 0
  nMint := 0
  nMoneySupply := 0
  fProofOfStake := false
  prevoutStake := .null
  nStakeTime := 0
  hashProofOfStake := 0
  nVersion := 0
  hashMerkleRoot := 0
  nTime := 0
  nBits := 0
  nNonce := 0

/-- The hash 0 stands for the null pointer. -/
def toPointer (hash : Hash256) : Option Hash256 := if hash = 0 then none else some hash

def CDiskBlockIndex.toEntry (hash : Hash256) (d : CDiskBlockIndex) : CBlockIndex :=
  { d.toCBlockIndex with
    phashBlock := hash
    pprev := toPointer d.hashPrev
    pnext := toPointer d.hashNext
    bnChainTrust := 0
    prevoutStake := if d.fProofOfStake then d.prevoutStake else .null
    nStakeTime := if d.fProofOfStake then d.nStakeTime else 0
    hashProofOfStake := if d.fProofOfStake then d.hashProofOfStake else 0 }

/-! ## `LoadBlockIndex` -/

structure Loaded where
  mapBlockIndex : BlockMap
  setStakeSeen : Finset (COutPoint × Nat)
  pindexGenesisBlock : Option Hash256
  hashBestChain : Hash256
  pindexBest : Option Hash256
  nBestHeight : Int
  bnBestChainTrust : Nat

def Loaded.start : Loaded := ⟨∅, ∅, none, 0, none, -1, 0⟩

/-- `InsertBlockIndex`: an entry is made for a hash that has none. -/
def insertBlockIndex (m : BlockMap) (hash : Hash256) : BlockMap :=
  if hash = 0 then m else if m.contains hash then m else m.insert hash (.blank hash)

section
variable (env : Env) (hashGenesis : Hash256)

def loadRecord (l : Loaded) (d : CDiskBlockIndex) : Option Loaded :=
  let blockHash := d.getBlockHash env
  if blockHash = 0 then none
  else
    let m := insertBlockIndex (insertBlockIndex (insertBlockIndex l.mapBlockIndex blockHash) d.hashPrev) d.hashNext
    let pindexNew := d.toEntry blockHash
    some { l with
      mapBlockIndex := m.insert blockHash pindexNew
      pindexGenesisBlock := if l.pindexGenesisBlock = none ∧ blockHash = hashGenesis then some blockHash
        else l.pindexGenesisBlock
      setStakeSeen := if pindexNew.fProofOfStake then insert (pindexNew.prevoutStake,
        pindexNew.nStakeTime) l.setStakeSeen
        else l.setStakeSeen }

def trustIn (m : BlockMap) (h : Hash256) : Nat := ((m[h]?).map CBlockIndex.bnChainTrust).getD 0

def heightIn (m : BlockMap) (h : Hash256) : Nat := ((m[h]?).map CBlockIndex.nHeight).getD 0

/-- One turn of the loop that calculates the trust. -/
def addTrust (m : BlockMap) (h : Hash256) : BlockMap :=
  match m[h]? with
  | none => m
  | some p =>
    if p.nVersion > 0 then
      m.insert h { p with
        bnChainTrust := ((p.pprev.map (trustIn m)).getD 0 + CBlockIndex.getBlockTrust env p.nBits
          p.fProofOfStake) % 2 ^ 256 }
    else m

def sortedByHeight (m : BlockMap) : List Hash256 := m.keys.insertionSort fun a b => heightIn m a ≤ heightIn m b

def loadBest (hashBestChain : Option Hash256) (l : Loaded) : Option Loaded :=
  match hashBestChain with
  | none => if l.pindexGenesisBlock = none then some l else none
  | some hash =>
    match l.mapBlockIndex[hash]? with
    | none => none
    | some best => some { l with
        hashBestChain := hash
        pindexBest := some hash
        nBestHeight := best.nHeight
        bnBestChainTrust := best.bnChainTrust }

def loadBlockIndex (db : CTxDB) (keys : List Hash256) : Option Loaded :=
  match (keys.filterMap fun h => db.store.disk (.blockindex h)).foldlM (loadRecord env hashGenesis) .start with
  | none => none
  | some l =>
    loadBest (db.store.disk .hashBestChain)
      { l with mapBlockIndex := (sortedByHeight l.mapBlockIndex).foldl (addTrust env) l.mapBlockIndex }

end

/-! ## Records that link to each other -/

structure RecordsOk (env : Env) (r : Hash256 → Option CDiskBlockIndex) : Prop where
  key : ∀ {h : Hash256} {d : CDiskBlockIndex}, r h = some d → d.getBlockHash env = h
  ne_zero : ∀ {h : Hash256} {d : CDiskBlockIndex}, r h = some d → h ≠ 0
  prev : ∀ {h : Hash256} {d : CDiskBlockIndex}, r h = some d → d.hashPrev ≠ 0 →
    ∃ q, r d.hashPrev = some q ∧ q.nHeight < d.nHeight
  next : ∀ {h : Hash256} {d : CDiskBlockIndex}, r h = some d → d.hashNext ≠ 0 → (r d.hashNext).isSome = true
  version : ∀ {h : Hash256} {d : CDiskBlockIndex}, r h = some d → 0 < d.nVersion

variable {env : Env} {hashGenesis : Hash256} {r : Hash256 → Option CDiskBlockIndex}

/-! ## The records are read -/

structure Reading (r : Hash256 → Option CDiskBlockIndex) (seen : Hash256 → Prop) (l : Loaded) : Prop where
  read : ∀ {h : Hash256}, seen h → l.mapBlockIndex[h]? = (r h).map (CDiskBlockIndex.toEntry h)
  ahead : ∀ {h : Hash256}, ¬seen h → l.mapBlockIndex[h]? = none ∨ (r h).isSome = true
  stakes : ∀ stake, stake ∈ l.setStakeSeen ↔
    ∃ h d, seen h ∧ r h = some d ∧ d.fProofOfStake = true ∧ stake = (d.prevoutStake, d.nStakeTime)

theorem Reading.start : Reading r (fun _ => False) .start where
  read h := h.elim
  ahead _ := .inl ExtTreeMap.getElem?_empty
  stakes stake := by
    constructor
    · intro h
      exact absurd h (Finset.notMem_empty stake)
    · rintro ⟨h, d, hs, -⟩
      exact hs.elim

def Made (r : Hash256 → Option CDiskBlockIndex) (m m' : BlockMap) : Prop :=
  ∀ k : Hash256, m'[k]? = m[k]? ∨ m[k]? = none ∧ (r k).isSome = true

theorem Made.trans (h : Made r m m') (h' : Made r m' m'') : Made r m m'' := by
  intro k
  rcases h k with hk | hk
  · rw [← hk]
    exact h' k
  · exact .inr hk

theorem insertBlockIndex_made (m : BlockMap) (h : hash ≠ 0 → (r hash).isSome = true) :
    Made r m (insertBlockIndex m hash) := by
  intro k
  unfold insertBlockIndex
  split
  · exact .inl rfl
  rename_i hz
  split
  · exact .inl rfl
  rename_i hn
  by_cases hk : k = hash
  · subst hk
    exact .inr ⟨ExtTreeMap.getElem?_eq_none_of_contains_eq_false (Bool.eq_false_of_not_eq_true hn), h hz⟩
  · exact .inl (getElem?_insert_ne _ hk _)

variable {l : Loaded}

variable (hashGenesis) in
theorem Reading.loadRecord (hr : RecordsOk env r) (h : Reading r seen l) {d : CDiskBlockIndex} (hd : r hash = some d) :
    ∃ l', loadRecord env hashGenesis l d = some l' ∧ Reading r (fun k => seen k ∨ k = hash) l' := by
  have hse : (r hash).isSome = true := by rw [hd]; rfl
  have hpr : d.hashPrev ≠ 0 → (r d.hashPrev).isSome = true := by
    intro hne
    obtain ⟨q, hq, -⟩ := hr.prev hd hne
    rw [hq]
    rfl
  have hm := ((insertBlockIndex_made l.mapBlockIndex fun _ => hse).trans
    (insertBlockIndex_made _ hpr)).trans (insertBlockIndex_made _ (hr.next hd))
  unfold Chain.loadRecord
  dsimp only
  rw [hr.key hd, if_neg (hr.ne_zero hd)]
  refine ⟨_, rfl, ?_, ?_, ?_⟩
  · intro k hk
    show (ExtTreeMap.insert _ hash (d.toEntry hash))[k]? = _
    by_cases hkh : k = hash
    · subst hkh
      rw [ExtTreeMap.getElem?_insert_self, hd]
      rfl
    have hre := h.read (hk.resolve_right hkh)
    rw [getElem?_insert_ne _ hkh]
    rcases hm k with hsa | ⟨hn, hso⟩
    · rw [hsa, hre]
    -- an entry that was read was there
    rw [hre, Option.map_eq_none_iff] at hn
    rw [hn] at hso
    cases hso
  · intro k hk
    show (ExtTreeMap.insert _ hash (d.toEntry hash))[k]? = _ ∨ _
    have hkh : k ≠ hash := fun e => hk (.inr e)
    rw [getElem?_insert_ne _ hkh]
    rcases hm k with hsa | ⟨-, hso⟩
    · rw [hsa]
      exact h.ahead fun e => hk (.inl e)
    · exact .inr hso
  · intro stake
    show stake ∈ (if d.fProofOfStake then insert ((d.toEntry hash).prevoutStake,
      (d.toEntry hash).nStakeTime) l.setStakeSeen
      else l.setStakeSeen) ↔ _
    have hmo : (∃ k e, (seen k ∨ k = hash) ∧ r k = some e ∧ e.fProofOfStake = true ∧
        stake = (e.prevoutStake, e.nStakeTime)) ↔
        stake ∈ l.setStakeSeen ∨ d.fProofOfStake = true ∧ stake = (d.prevoutStake, d.nStakeTime) := by
      rw [h.stakes]
      constructor
      · rintro ⟨k, e, hk | rfl, he, hpo, hs⟩
        · exact .inl ⟨k, e, hk, he, hpo, hs⟩
        · rw [hd, Option.some.injEq] at he
          subst he
          exact .inr ⟨hpo, hs⟩
      · rintro (⟨k, e, hk, he, hpo, hs⟩ | ⟨hpo, hs⟩)
        · exact ⟨k, e, .inl hk, he, hpo, hs⟩
        · exact ⟨hash, d, .inr rfl, hd, hpo, hs⟩
    rw [hmo]
    cases hpo : d.fProofOfStake with
    | false => simp
    | true =>
      have hp : (d.toEntry hash).prevoutStake = d.prevoutStake := if_pos hpo
      have ht : (d.toEntry hash).nStakeTime = d.nStakeTime := if_pos hpo
      rw [if_pos rfl, hp, ht, Finset.mem_insert, Or.comm]
      simp

variable (hashGenesis) in
theorem loadRecords_spec (hr : RecordsOk env r) (keys : List Hash256) (hke : ∀ h ∈ keys, (r h).isSome = true)
    (h : Reading r seen l) :
    ∃ l', (keys.filterMap r).foldlM (loadRecord env hashGenesis) l = some l' ∧
      Reading r (fun k => seen k ∨ k ∈ keys) l' := by
  induction keys generalizing seen l with
  | nil => exact ⟨l, rfl, by simpa using h⟩
  | cons hash keys ih =>
    obtain ⟨d, hd⟩ := Option.isSome_iff_exists.mp (hke hash mem_cons_self)
    obtain ⟨l1, ho, hre⟩ := h.loadRecord hashGenesis hr hd
    obtain ⟨l', hres, hr'⟩ := ih (fun k hk => hke k (mem_cons_of_mem hash hk)) hre
    refine ⟨l', ?_, ?_⟩
    · rw [filterMap_cons_some hd, foldlM_cons, ho]
      exact hres
    · have hs : (fun k => seen k ∨ k ∈ hash :: keys) = fun k => (seen k ∨ k = hash) ∨ k ∈ keys := by
        funext k
        rw [mem_cons, or_assoc]
      rw [hs]
      exact hr'

theorem Reading.entries (h : Reading r seen l) (ha : ∀ k, seen k ↔ (r k).isSome = true) (k : Hash256) :
    l.mapBlockIndex[k]? = (r k).map (CDiskBlockIndex.toEntry k) := by
  by_cases hk : seen k
  · exact h.read hk
  have hn : r k = none := by
    rw [ha, Option.not_isSome_iff_eq_none] at hk
    exact hk
  rcases h.ahead hk with hm | hs
  · rw [hm, hn]
    rfl
  · rw [hn] at hs
    cases hs

/-! ## Trust -/

def TrustOk (env : Env) (r : Hash256 → Option CDiskBlockIndex) (trust : Hash256 → Nat) : Prop :=
  ∀ {h : Hash256} {d : CDiskBlockIndex}, r h = some d → trust h =
    (((toPointer d.hashPrev).map trust).getD 0 + CBlockIndex.getBlockTrust env d.nBits d.fProofOfStake) % 2 ^ 256

def Trusting (r : Hash256 → Option CDiskBlockIndex) (trust : Hash256 → Nat)
    (done : List Hash256) (m : BlockMap) : Prop :=
  ∀ h : Hash256, m[h]? = (r h).map fun d => { d.toEntry h with bnChainTrust := if h ∈ done then trust h else 0 }

theorem Trusting.addTrust (hr : RecordsOk env r) (ht : TrustOk env r trust) {done : List Hash256}
    (h : Trusting r trust done m) (hp : ∀ d, r hash = some d → d.hashPrev ≠ 0 → d.hashPrev ∈ done) :
    Trusting r trust (done ++ [hash]) (addTrust env m hash) := by
  intro k
  unfold Chain.addTrust
  rw [h hash]
  cases hd : r hash with
  | none =>
    show m[k]? = _
    rw [h k]
    by_cases hk : k = hash
    · rw [hk, hd]
      rfl
    · simp [hk]
  | some d =>
    have hv : (d.toEntry hash).nVersion > 0 := hr.version hd
    have hb : ((toPointer d.hashPrev).map (trustIn m)).getD 0 = ((toPointer d.hashPrev).map trust).getD 0 := by
      unfold toPointer
      split
      · rfl
      rename_i hne
      obtain ⟨q, hq, -⟩ := hr.prev hd hne
      show trustIn m d.hashPrev = trust d.hashPrev
      rw [trustIn, h d.hashPrev, hq, Option.map_some, Option.map_some, Option.getD_some]
      exact if_pos (hp d hd hne)
    rw [Option.map_some]
    dsimp only
    rw [if_pos hv]
    by_cases hk : k = hash
    · subst hk
      rw [ExtTreeMap.getElem?_insert_self, hd, Option.map_some, if_pos (by simp), ht hd, ← hb]
      rfl
    · rw [getElem?_insert_ne _ hk, h k]
      simp [hk]

theorem addTrusts_spec (hr : RecordsOk env r) (ht : TrustOk env r trust) {height : Hash256 → Nat}
    (hh : ∀ {h : Hash256} {d : CDiskBlockIndex}, r h = some d → height h = d.nHeight) (done todo : List Hash256)
    (hs : (done ++ todo).Pairwise fun a b => height a ≤ height b)
    (ha : ∀ {h : Hash256}, (r h).isSome = true → h ∈ done ++ todo) (h : Trusting r trust done m) :
    Trusting r trust (done ++ todo) (todo.foldl (addTrust env) m) := by
  induction todo generalizing done m with
  | nil =>
    rw [append_nil]
    exact h
  | cons hash todo ih =>
    have hp : ∀ d, r hash = some d → d.hashPrev ≠ 0 → d.hashPrev ∈ done := by
      intro d hd hne
      obtain ⟨q, hq, hlt⟩ := hr.prev hd hne
      rcases mem_append.mp (ha (h := d.hashPrev) (by rw [hq]; rfl)) with hm | hm
      · exact hm
      rcases mem_cons.mp hm with hse | hl
      · rw [hse, hd, Option.some.injEq] at hq
        rw [hq] at hlt
        exact absurd hlt (lt_irrefl _)
      · have hle := (pairwise_cons.mp (pairwise_append.mp hs).2.1).1 _ hl
        rw [hh hd, hh hq] at hle
        omega
    have ho := h.addTrust hr ht hp
    rw [append_cons] at hs ha ⊢
    exact ih (done ++ [hash]) hs ha ho

/-! ## The result -/

variable (hashGenesis) in
theorem loadBlockIndex_spec {db : CTxDB} (hdb : ∀ h, db.store.disk (.blockindex h) = r h) (hr : RecordsOk env r)
    (htr : TrustOk env r trust) {tip : Hash256} {d : CDiskBlockIndex} (hb : db.store.disk .hashBestChain = some tip)
    (hti : r tip = some d) {keys : List Hash256} (hk : ∀ h, h ∈ keys ↔ (r h).isSome = true) :
    ∃ l, loadBlockIndex env hashGenesis db keys = some l ∧
      (∀ h : Hash256, l.mapBlockIndex[h]? = (r h).map fun d => { d.toEntry h with bnChainTrust := trust h }) ∧
      (∀ stake, stake ∈ l.setStakeSeen ↔
        ∃ h d, r h = some d ∧ d.fProofOfStake = true ∧ stake = (d.prevoutStake, d.nStakeTime)) ∧
      l.hashBestChain = tip ∧ l.pindexBest = some tip ∧ l.nBestHeight = d.nHeight ∧ l.bnBestChainTrust = trust tip := by
  have hv : (fun h => db.store.disk (.blockindex h)) = r := funext hdb
  obtain ⟨l, hl, hre⟩ := loadRecords_spec hashGenesis hr keys (fun h hh => (hk h).mp hh) Reading.start
  have he := hre.entries fun k => by simpa using hk k
  have hp : (sortedByHeight l.mapBlockIndex).Perm l.mapBlockIndex.keys := perm_insertionSort _ _
  have hso : (sortedByHeight l.mapBlockIndex).Pairwise fun a b =>
      heightIn l.mapBlockIndex a ≤ heightIn l.mapBlockIndex b := pairwise_insertionSort _ _
  have ha : ∀ {h : Hash256}, (r h).isSome = true → h ∈ [] ++ sortedByHeight l.mapBlockIndex := by
    intro h hh
    rw [nil_append, hp.mem_iff, ExtTreeMap.mem_keys, ExtTreeMap.mem_iff_isSome_getElem?, he, Option.isSome_map]
    exact hh
  have ht := addTrusts_spec hr htr (fun hd => by rw [heightIn, he, hd]; rfl) []
    (sortedByHeight l.mapBlockIndex) hso ha (m := l.mapBlockIndex) fun h => (he h).trans (by simp; rfl)
  have hm : ∀ h : Hash256, ((sortedByHeight l.mapBlockIndex).foldl (addTrust env) l.mapBlockIndex)[h]? =
      (r h).map fun d => { d.toEntry h with bnChainTrust := trust h } := by
    intro h
    rw [ht h]
    cases hd : r h with
    | none => rfl
    | some d => rw [Option.map_some, Option.map_some, if_pos (ha (by rw [hd]; rfl))]
  have hen := hm tip
  rw [hti, Option.map_some] at hen
  unfold loadBlockIndex
  rw [hv, hl, hb]
  dsimp only [loadBest]
  rw [hen]
  refine ⟨_, rfl, hm, fun stake => ?_, rfl, rfl, rfl, rfl⟩
  rw [show _ ↔ _ from hre.stakes stake]
  constructor
  · rintro ⟨h, d, -, hd, hpo, hs⟩
    exact ⟨h, d, hd, hpo, hs⟩
  · rintro ⟨h, d, hd, hpo, hs⟩
    exact ⟨h, d, .inr ((hk h).mpr (by rw [hd]; rfl)), hd, hpo, hs⟩

end CloakCoin.Chain
