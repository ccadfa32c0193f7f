import CloakCoin.Lib.Merkle
import CloakCoin.Chain.Sample

/-!
# The merkle root binds the body

`BuildMerkleTree` keeps all levels of the tree in one vector, the level of `nSize` hashes at offset `j`.
`merkleVector_eq` relates it to the levels of `Block`.
-/

namespace CloakCoin.Chain

open Lib List

section
variable (env : Env)

/-! ## The vector -/

def merkleRow (v : List Hash256) (j nSize : Nat) : List Hash256 :=
  (range ((nSize + 1) / 2)).map fun k =>
    let i := 2 * k
    let i2 := min (i + 1) (nSize - 1)
    env.hashPair (v.getD (j + i) 0) (v.getD (j + i2) 0)

def merkleLoop : Nat → List Hash256 → Nat → Nat → List Hash256
  | 0, v, _, _ => v
  | fuel + 1, v, j, nSize =>
    if nSize > 1 then merkleLoop fuel (v ++ merkleRow env v j nSize) (j + nSize) ((nSize + 1) / 2) else v

variable (vtx : List CTransaction)

def merkleVector : List Hash256 :=
  merkleLoop env vtx.length (vtx.map env.txHash) 0 vtx.length

/-- What `BuildMerkleTree` returns: the last hash, 0 for an empty body. -/
def merkleRoot : Hash256 := (merkleVector env vtx).getLastD 0

def branchLoop (v : List Hash256) : Nat → Nat → Nat → Nat → List Hash256
  | 0, _, _, _ => []
  | fuel + 1, j, nSize, nIndex =>
    if nSize > 1 then
      v.getD (j + min (nIndex ^^^ 1) (nSize - 1)) 0 :: branchLoop v fuel (j + nSize) ((nSize + 1) / 2) (nIndex / 2)
    else []

def merkleVectorBranch (nIndex : Nat) : List Hash256 :=
  branchLoop (merkleVector env vtx) vtx.length 0 vtx.length nIndex

def checkMerkleBranch (hash : Hash256) (vMerkleBranch : List Hash256) (nIndex : Int) : Hash256 :=
  if nIndex = -1 then 0
  else
    (vMerkleBranch.foldl (fun (hash, nIndex) otherside =>
      (if nIndex % 2 = 1 then env.hashPair otherside hash else env.hashPair hash otherside, nIndex / 2))
      (hash, nIndex)).1

end

/-! ## Levels -/

section
variable {env : Env}

theorem merkleLevel_eq : ∀ l : List Hash256, merkleLevel env l = Merkle.level env.hashPair l
  | [] => rfl
  | [_] => rfl
  | a :: b :: rest => by rw [merkleLevel, Merkle.level, merkleLevel_eq rest]

theorem getD_at_offset (pre post : List Hash256) (hk : k < l.length) :
    (pre ++ (l ++ post)).getD (pre.length + k) 0 = l.getD k 0 := by
  rw [getD_append_right _ _ _ _ (Nat.le_add_right _ _), Nat.add_sub_cancel_left, getD_append _ _ _ _ hk]

theorem merkleRow_eq (pre l : List Hash256) : merkleRow env (pre ++ l) pre.length l.length = merkleLevel env l := by
  have hg : ∀ k < l.length, (pre ++ l).getD (pre.length + k) 0 = l.getD k 0 := by
    intro k hk
    have := getD_at_offset pre [] hk
    rwa [append_nil] at this
  rw [merkleLevel_eq]
  refine ext_getElem (by simp [merkleRow]) fun k _ hk => ?_
  have hl := hk
  rw [Merkle.length_level] at hl
  have hp := Merkle.getD_level (h := env.hashPair) (d := 0) l (2 * k) (by omega)
  rw [Nat.mul_div_cancel_left k Nat.two_pos, if_neg (by omega)] at hp
  rw [getD_eq_getElem _ _ hk] at hp
  rw [hp]
  simp only [merkleRow, getElem_map, getElem_range]
  rw [hg _ (by omega), hg _ (by omega)]

theorem merkleLoop_eq : ∀ (fuel : Nat) (pre l : List Hash256),
    merkleLoop env fuel (pre ++ l) pre.length l.length = pre ++ (merkleLevels env fuel l).flatten
  | 0, pre, l => by simp [merkleLoop, merkleLevels]
  | fuel + 1, pre, l => by
    unfold merkleLoop merkleLevels
    by_cases hl : l.length ≤ 1
    · rw [if_neg (by omega), if_pos hl, flatten_cons, flatten_nil, append_nil]
    · have hn : (l.length + 1) / 2 = (merkleLevel env l).length := by rw [merkleLevel_eq, Merkle.length_level]
      rw [if_pos (by omega), if_neg hl, merkleRow_eq, hn, ← length_append, merkleLoop_eq fuel, flatten_cons,
        append_assoc]

variable (vtx : List CTransaction)

theorem merkleVector_eq : merkleVector env vtx = (merkleLevels env vtx.length (vtx.map env.txHash)).flatten := by
  have hl : merkleLoop env vtx.length ([] ++ vtx.map env.txHash) 0 (vtx.map env.txHash).length = _ := merkleLoop_eq ..
  rwa [nil_append, length_map, nil_append] at hl

theorem branchLoop_eq : ∀ (fuel : Nat) (pre l : List Hash256) (nIndex : Nat), l.length ≤ fuel + 1 →
    branchLoop (pre ++ (merkleLevels env fuel l).flatten) fuel pre.length l.length nIndex =
      merkleBranch (merkleLevels env fuel l) nIndex
  | 0, pre, l, nIndex, hf => by rw [branchLoop, merkleLevels, merkleBranch, if_pos (by omega)]
  | fuel + 1, pre, l, nIndex, hf => by
    unfold branchLoop merkleLevels
    by_cases hl : l.length ≤ 1
    · rw [if_neg (by omega), if_pos hl, merkleBranch, if_pos hl]
    have hn : (l.length + 1) / 2 = (merkleLevel env l).length := by rw [merkleLevel_eq, Merkle.length_level]
    rw [if_pos (by omega), if_neg hl, merkleBranch, if_neg hl, flatten_cons,
      getD_at_offset pre _ (by omega), hn, ← append_assoc, ← length_append,
      branchLoop_eq fuel _ _ _ (by omega)]

/-! ## The root -/

variable (env) in
theorem length_merkleLevel (l : List Hash256) : (merkleLevel env l).length = (l.length + 1) / 2 := by
  rw [merkleLevel_eq, Merkle.length_level]

variable (env) in
theorem exists_top : ∀ (fuel : Nat) {l : List Hash256}, l ≠ [] → l.length ≤ fuel + 1 → ∃ k r,
    (merkleLevels env fuel l).getLast? = some [r] ∧ (merkleLevels env fuel l).flatten.getLast? = some r ∧
      (Merkle.level env.hashPair)^[k] l = [r]
  | 0, l, hne, hf => by
    obtain ⟨r, rfl⟩ := length_eq_one_iff.mp (le_antisymm hf (length_pos_iff.mpr hne))
    exact ⟨0, r, rfl, rfl, rfl⟩
  | fuel + 1, l, hne, hf => by
    have hp := length_pos_iff.mpr hne
    unfold merkleLevels
    by_cases hle : l.length ≤ 1
    · obtain ⟨r, rfl⟩ := length_eq_one_iff.mp (le_antisymm hle hp)
      exact ⟨0, r, rfl, rfl, rfl⟩
    have hn := length_merkleLevel env l
    obtain ⟨k, r, ht, hl, hk⟩ :=
      exists_top fuel (length_pos_iff.mp (by omega : 0 < (merkleLevel env l).length)) (by omega)
    rw [if_neg hle]
    refine ⟨k + 1, r, ?_, ?_, ?_⟩
    · rw [getLast?_cons, ht]
      rfl
    · rw [flatten_cons, getLast?_append, hl]
      rfl
    · rw [Function.iterate_succ_apply, ← merkleLevel_eq, hk]

theorem merkleRoot_eq (b : CBlock) : merkleRoot env b.vtx = b.buildMerkleTree env := by
  unfold merkleRoot CBlock.buildMerkleTree CBlock.vMerkleTree
  rw [merkleVector_eq, getLastD_eq_getLast?, getLastD_eq_getLast?]
  by_cases hne : b.vtx.map env.txHash = []
  · rw [hne, map_eq_nil_iff.mp hne]
    rfl
  · obtain ⟨k, r, ht, hl, -⟩ := exists_top env b.vtx.length hne (by rw [length_map]; omega)
    rw [ht, hl]
    rfl

variable (env) in
theorem merkleRoot_top {vtx : List CTransaction} (hne : vtx ≠ []) :
    ∃ k, (Merkle.level env.hashPair)^[k] (vtx.map env.txHash) = [merkleRoot env vtx] := by
  obtain ⟨k, r, -, hl, hk⟩ := exists_top env vtx.length (l := vtx.map env.txHash) (by simpa using hne)
    (by rw [length_map]; omega)
  refine ⟨k, hk.trans ?_⟩
  rw [merkleRoot, merkleVector_eq, getLastD_eq_getLast?, hl]
  rfl

theorem merkleVectorBranch_eq (nIndex : Nat) :
    merkleVectorBranch env vtx nIndex = merkleBranch (merkleLevels env vtx.length (vtx.map env.txHash)) nIndex := by
  have hl : branchLoop ([] ++ (merkleLevels env vtx.length (vtx.map env.txHash)).flatten) vtx.length 0
      (vtx.map env.txHash).length nIndex = _ := branchLoop_eq _ _ _ _ (by rw [length_map]; omega)
  rwa [nil_append, length_map, ← merkleVector_eq] at hl

theorem getMerkleBranch_eq (b : CBlock) (nIndex : Nat) :
    b.getMerkleBranch env nIndex = merkleVectorBranch env b.vtx nIndex := (merkleVectorBranch_eq b.vtx nIndex).symm

/-! ## Branches -/

theorem checkMerkleBranch_eq (hash : Hash256) (branch : List Hash256) (i : Nat) :
    checkMerkleBranch env hash branch i = Merkle.climb env.hashPair hash branch i := by
  rw [checkMerkleBranch, if_neg (by omega)]
  induction branch generalizing hash i with
  | nil => rfl
  | cons s branch ih =>
    have hm : (i : Int) % 2 = 1 ↔ i % 2 = 1 := by omega
    rw [foldl_cons, Merkle.climb]
    simp only [hm]
    exact ih _ (i / 2)

theorem climb_merkleBranch : ∀ (fuel : Nat) {l : List Hash256} {i : Nat}, i < l.length → l.length ≤ fuel + 1 →
    (merkleLevels env fuel l).flatten.getLast? =
      some (Merkle.climb env.hashPair (l.getD i 0) (merkleBranch (merkleLevels env fuel l) i) i)
  | 0, l, i, hi, hf => by
    obtain ⟨r, rfl⟩ := length_eq_one_iff.mp (by omega : l.length = 1)
    obtain rfl : i = 0 := by simpa using hi
    rfl
  | fuel + 1, l, i, hi, hf => by
    unfold merkleLevels
    by_cases hl : l.length ≤ 1
    · obtain ⟨r, rfl⟩ := length_eq_one_iff.mp (by omega : l.length = 1)
      obtain rfl : i = 0 := by simpa using hi
      rfl
    have hn := length_merkleLevel env l
    have hup := climb_merkleBranch fuel (by omega : i / 2 < (merkleLevel env l).length) (by omega)
    rw [if_neg hl, flatten_cons, getLast?_append, hup, merkleBranch, if_neg hl]
    refine congrArg some ?_
    rw [merkleLevel_eq]
    exact (Merkle.climb_cons_sibling hi _).symm

theorem checkMerkleBranch_branch (htx : vtx[i]? = some tx) :
    checkMerkleBranch env (env.txHash tx) (merkleVectorBranch env vtx i) i = merkleRoot env vtx := by
  obtain ⟨hi, rfl⟩ := List.getElem?_eq_some_iff.mp htx
  have hl : env.txHash vtx[i] = (vtx.map env.txHash).getD i 0 := by
    rw [getD_eq_getElem _ _ (by rwa [length_map]), getElem_map]
  rw [checkMerkleBranch_eq, hl, merkleVectorBranch_eq, merkleRoot, merkleVector_eq, getLastD_eq_getLast?,
    climb_merkleBranch vtx.length (by rwa [length_map]) (by rw [length_map]; omega)]
  rfl

/-- No two inner nodes collide, and no leaf is an inner node. -/
structure CollisionFree (env : Env) : Prop where
  pairs : Merkle.CollisionFree env.hashPair
  leaves : ∀ tx, Merkle.Leaf env.hashPair (env.txHash tx)

end

theorem merkle_root_binds (env : Env) :
    (CollisionFree env → ∀ vtx vtx' : List CTransaction, vtx ≠ [] → vtx' ≠ [] → (vtx.map env.txHash).Nodup →
      (vtx'.map env.txHash).Nodup → merkleRoot env vtx = merkleRoot env vtx' →
        vtx.map env.txHash = vtx'.map env.txHash) ∧
    ∀ (vtx : List CTransaction) (i : Nat) (tx : CTransaction), vtx[i]? = some tx →
      checkMerkleBranch env (env.txHash tx) (merkleVectorBranch env vtx i) i = merkleRoot env vtx := by
  refine ⟨fun hf vtx vtx' hne hne' hnd hnd' hr => ?_, fun vtx i tx htx => checkMerkleBranch_branch vtx htx⟩
  obtain ⟨m, hm⟩ := merkleRoot_top env hne
  obtain ⟨n, hn⟩ := merkleRoot_top env hne'
  have hl : ∀ vtx : List CTransaction, ∀ a ∈ vtx.map env.txHash, Merkle.Leaf env.hashPair a := by
    intro vtx a ha
    obtain ⟨tx, -, rfl⟩ := mem_map.mp ha
    exact hf.leaves tx
  refine Merkle.leaves_eq_of_top hf.pairs hnd hnd' (hl vtx) (hl vtx') ?_ ?_ ?_ (m := m) (n := n)
  · simpa using hne
  · simpa using hne'
  · rw [hm, hn, hr]

namespace Sample

def leafTx (n : Nat) : CTransaction := { nTime := n, vin := [], vout := [] }

noncomputable def treeEnv : Env :=
  { env [] [] with
    txHash := fun tx => 2 * tableHash (someCode _) [leafTx 1, leafTx 2] tx
    hashPair := fun a b => 2 * Nat.pair a b + 1 }

theorem treeEnv_collisionFree : CollisionFree treeEnv where
  pairs {a b c d} heq := by
    have hp : Nat.pair a b = Nat.pair c d := by
      have : 2 * Nat.pair a b + 1 = 2 * Nat.pair c d + 1 := heq
      omega
    exact Nat.pair_eq_pair.mp hp
  leaves tx x y heq := by
    have : 2 * tableHash (someCode _) [leafTx 1, leafTx 2] tx = 2 * Nat.pair x y + 1 := heq
    omega

end Sample

open Sample in
/-- Two orders of the same transactions, and the branch of the second one. -/
theorem merkle_root_binds_order : merkleRoot treeEnv [leafTx 1, leafTx 2] ≠ merkleRoot treeEnv [leafTx 2, leafTx 1] ∧
      checkMerkleBranch treeEnv 4 (merkleVectorBranch treeEnv [leafTx 1, leafTx 2] 1) 1 =
        merkleRoot treeEnv [leafTx 1, leafTx 2] := by
  have h1 : treeEnv.txHash (leafTx 1) = 2 := rfl
  have h2 : treeEnv.txHash (leafTx 2) = 4 := rfl
  constructor
  · intro hr
    have hl := (merkle_root_binds treeEnv).1 treeEnv_collisionFree [leafTx 1, leafTx 2] [leafTx 2, leafTx 1] (by simp)
      (by simp) (by simp [h1, h2]) (by simp [h1, h2]) hr
    simp [h1, h2] at hl
  · have hb := (merkle_root_binds treeEnv).2 [leafTx 1, leafTx 2] 1 (leafTx 2) rfl
    rwa [h2] at hb

end CloakCoin.Chain
