import CloakCoin.Chain.Tx

/-!
# Blocks

Block headers and bodies, the merkle tree, proof of work, block signatures and `CBlock.checkBlock`. What the program
takes from outside its own logic and the network parameters are the record `Env`.
-/

namespace CloakCoin.Chain

open List Bool

variable {n : Nat}

structure CBlockHeader where
  nVersion : Int := 6
  hashPrevBlock : Hash256
  hashMerkleRoot : Hash256
  nTime : Nat
  nBits : Nat
  nNonce : Nat
  deriving DecidableEq, Repr

structure CBlock extends CBlockHeader where
  vtx : List CTransaction
  vchBlockSig : List UInt8
  deriving DecidableEq, Repr

inductive TxnOutType where
  | nonstandard
  | pubkey
  | pubkeyhash
  | scripthash
  | multisig
  | nullData
  deriving DecidableEq, Repr

/-- The script interpreter, the cryptography and the network parameters. -/
structure Env where
  /-- `SerializeHash` of a transaction. -/
  txHash : CTransaction → Hash256
  /-- `Hash` of two concatenated hashes. -/
  hashPair : Hash256 → Hash256 → Hash256
  /-- `Hash9` of the header bytes. -/
  blockHash : CBlockHeader → Hash256
  sigOpCount : CScript → Nat
  p2shSigOpCount : CScript → CScript → Nat
  solver : CScript → Option (TxnOutType × List (List UInt8))
  /-- `CKey::SetPubKey` succeeds and `CKey::Verify` accepts the signature. -/
  keyVerify : List UInt8 → Hash256 → List UInt8 → Bool
  verifySignature : CTransaction → CTransaction → Nat → Bool → Bool
  hashGenesisBlock : Hash256
  bnProofOfWorkLimit : Nat
  /-- `Checkpoints::GetTotalBlocksEstimate`. -/
  totalBlocksEstimate : Int
  nCoinbaseMaturity : Int
  nStakeMinAge : Int
  fTestNet : Bool := false

section
variable (env : Env)

abbrev CBlockHeader.getHash (b : CBlockHeader) : Hash256 := env.blockHash b

abbrev CTransaction.getHash (tx : CTransaction) : Hash256 := env.txHash tx

def CTransaction.getLegacySigOpCount (tx : CTransaction) : Nat :=
  (tx.vin.map fun i => env.sigOpCount i.scriptSig).sum +
    (tx.vout.map fun o => env.sigOpCount o.scriptPubKey).sum

/-! ## Numbers in scripts -/

/-- Little-endian bytes, at most `fuel` of them, without leading zeros. -/
def leBytes : Nat → Nat → List UInt8
  | 0, _ => []
  | fuel + 1, n => if n = 0 then [] else UInt8.ofNat (n % 256) :: leBytes fuel (n / 256)

def bigNumVch (n : Nat) : List UInt8 :=
  if 0x80 ≤ ((leBytes 8 n).getLastD 0).toNat then leBytes 8 n ++ [0] else leBytes 8 n

/-- `CScript() << n`: an opcode up to 16, otherwise a push of the bytes. -/
def scriptInt (n : Nat) : CScript :=
  if 1 ≤ n ∧ n ≤ 16 then [UInt8.ofNat (n + 0x50)] else UInt8.ofNat (bigNumVch n).length :: bigNumVch n

/-! ## Merkle tree -/

def merkleLevel : List Hash256 → List Hash256
  | [] => []
  | [a] => [env.hashPair a a]
  | a :: b :: rest => env.hashPair a b :: merkleLevel rest

def merkleLevels : Nat → List Hash256 → List (List Hash256)
  | 0, level => [level]
  | fuel + 1, level =>
    if level.length ≤ 1 then [level] else level :: merkleLevels fuel (merkleLevel env level)

variable (b : CBlock)

/-- A walk up the levels for one leaf. -/
def merkleBranch : List (List Hash256) → Nat → List Hash256
  | [], _ => []
  | level :: rest, nIndex =>
    if level.length ≤ 1 then []
    else level.getD (min (nIndex ^^^ 1) (level.length - 1)) 0 :: merkleBranch rest (nIndex / 2)

namespace CBlock

def vMerkleTree : List (List Hash256) :=
  merkleLevels env b.vtx.length (b.vtx.map env.txHash)

def buildMerkleTree : Hash256 := ((b.vMerkleTree env).getLastD []).headD 0

def getMerkleBranch (nIndex : Nat) : List Hash256 := merkleBranch (b.vMerkleTree env) nIndex

/-! ## Kinds of block and sizes -/

def isProofOfStake : Bool :=
  match b.vtx with
  | _ :: tx1 :: _ => tx1.isCoinStake
  | _ => false

def isProofOfWork : Bool := !b.isProofOfStake

def headerSize : Nat := 80

def serializeSize : Nat :=
  headerSize + (getSizeOfCompactSize b.vtx.length + (b.vtx.map CTransaction.serializeSize).sum) +
    bytesSize b.vchBlockSig

end CBlock

/-! ## Proof of work -/

def setCompact (nCompact : Nat) : Nat × Bool × Bool :=
  let nSize := nCompact >>> 24
  let nWord := (nCompact &&& 0x007fffff) >>> (8 * (3 - nSize))
  let target := (nWord <<< (8 * (nSize - 3))) % 2 ^ 256
  (target, nWord != 0 && nCompact &&& 0x00800000 != 0,
    nWord != 0 && (decide (nSize > 34) || (decide (nWord > 0xff) && decide (nSize > 33)) ||
      (decide (nWord > 0xffff) && decide (nSize > 32))))

def checkProofOfWork (hash : Hash256) (nBits : Nat) : Bool :=
  let (bnTarget, fNegative, fOverflow) := setCompact nBits
  if fNegative || bnTarget == 0 || fOverflow || decide (bnTarget > env.bnProofOfWorkLimit) then false
  else if hash > bnTarget then false
  else true

namespace CBlock

/-! ## Block signature -/

/-- The loop over the coinbase outputs of a proof-of-work block. -/
def coinbaseSigned (hash : Hash256) (sig : List UInt8) : List CTxOut → Bool
  | [] => false
  | txout :: rest =>
    match env.solver txout.scriptPubKey with
    | none => false
    | some (.pubkey, vSolutions) =>
      if !sig.isEmpty && env.keyVerify (vSolutions.headD []) hash sig then true
      else coinbaseSigned hash sig rest
    | some _ => coinbaseSigned hash sig rest

def checkBlockSignature (b : CBlock) : Bool :=
  if b.getHash env = env.hashGenesisBlock then b.vchBlockSig.isEmpty
  else if b.isProofOfStake then
    match (b.vtx.drop 1).head?.bind (fun tx1 => tx1.vout.drop 1 |>.head?) with
    | none => false
    | some txout =>
      match env.solver txout.scriptPubKey with
      | some (.pubkey, vSolutions) =>
        !b.vchBlockSig.isEmpty && env.keyVerify (vSolutions.headD []) (b.getHash env) b.vchBlockSig
      | _ => false
  else coinbaseSigned env (b.getHash env) b.vchBlockSig (b.vtx.headD ⟨1, 0, [], [], 0, []⟩).vout

/-! ## `CheckBlock` -/

def kindsOk (b : CBlock) : Bool :=
  match b.vtx with
  | [] => false
  | tx0 :: rest =>
    tx0.isCoinBase && rest.all (fun tx => !tx.isCoinBase) &&
    (rest.drop 1).all (fun tx => !tx.isCoinStake) &&
    -- ppcoin: coinbase output should be empty if proof-of-stake block
    !(b.isProofOfStake && (tx0.vout.length != 1 || !tx0.vout.all CTxOut.isEmpty))

def checkBlock (b : CBlock) (fCheckPOW fCheckMerkleRoot : Bool) : Bool :=
  !(b.vtx.isEmpty || decide (b.vtx.length > maxBlockSize) || decide (b.serializeSize > maxBlockSize)) &&
  !(fCheckPOW && b.isProofOfWork && !checkProofOfWork env (b.getHash env) b.nBits) &&
  b.kindsOk &&
  b.vtx.all (fun tx => tx.checkTransaction && decide (tx.nTime ≤ b.nTime)) &&
  decide (b.vtx.map env.txHash).Nodup &&
  decide ((b.vtx.map (CTransaction.getLegacySigOpCount env)).sum ≤ maxBlockSigops) &&
  !(fCheckMerkleRoot && b.hashMerkleRoot != b.buildMerkleTree env) &&
  b.checkBlockSignature env

structure BasicChecks (b : CBlock) : Prop where
  kinds : b.kindsOk = true
  txs : ∀ tx ∈ b.vtx, tx.checkTransaction = true
  unique : (b.vtx.map env.txHash).Nodup
  size : b.serializeSize ≤ maxBlockSize

/-- The input of the coinbase. -/
def coinbaseIn (b : CBlock) : Option CTxIn := b.vtx.head?.bind fun tx0 => tx0.vin.head?

/-- The coinbase starts with the block's height. -/
def startsWithHeight (b : CBlock) (nHeight : Nat) : Prop :=
  ∀ tx0 rest, b.vtx = tx0 :: rest → ∀ txin ∈ tx0.vin.head?, scriptInt nHeight <+: txin.scriptSig

variable {env} {b : CBlock}

theorem checkBlock_spec (h : b.checkBlock env pow root = true) : b.BasicChecks env ∧
      (pow = true → b.isProofOfWork = true → checkProofOfWork env (b.getHash env) b.nBits = true) ∧
      (root = true → b.hashMerkleRoot = b.buildMerkleTree env) := by
  simp only [checkBlock, and_eq_true, all_eq_true, decide_eq_true_eq] at h
  obtain ⟨⟨⟨⟨⟨⟨⟨hs, hp⟩, hk⟩, ht⟩, hnd⟩, -⟩, hr⟩, -⟩ := h
  refine ⟨⟨hk, fun tx htx => (ht tx htx).1, hnd, ?_⟩, ?_, ?_⟩
  · simp only [not_eq_true', or_eq_false_iff, decide_eq_false_iff_not, not_lt] at hs
    exact hs.2
  · rintro rfl hw
    simpa [hw] using hp
  · rintro rfl
    simpa using hr

theorem nTime_le_of_checkBlock (h : b.checkBlock env pow root = true) (htx : tx ∈ b.vtx) : tx.nTime ≤ b.nTime := by
  simp only [checkBlock, and_eq_true, all_eq_true, decide_eq_true_eq] at h
  exact (h.1.1.1.1.2 tx htx).2

theorem BasicChecks.coinbase_first (h : b.BasicChecks env) :
    ∃ tx0 rest, b.vtx = tx0 :: rest ∧ tx0.isCoinBase = true ∧ (∀ tx ∈ rest, tx.isCoinBase = false) ∧
      (∀ tx ∈ rest.drop 1, tx.isCoinStake = false) ∧
      (b.isProofOfStake = true → tx0.valueOut = 0) := by
  have hk := h.kinds
  unfold kindsOk at hk
  split at hk
  · cases hk
  rename_i tx0 rest hv
  simp only [Bool.and_eq_true, List.all_eq_true, Bool.not_eq_true'] at hk
  obtain ⟨⟨⟨h0, hr⟩, hs⟩, hp⟩ := hk
  refine ⟨tx0, rest, hv, h0, hr, hs, fun hb => ?_⟩
  simp only [hb, Bool.true_and, Bool.or_eq_false_iff, bne_eq_false_iff_eq, Bool.not_eq_false',
    List.all_eq_true] at hp
  obtain ⟨o, ho⟩ := List.length_eq_one_iff.mp hp.1
  simp [CTransaction.valueOut, ho, o.nValue_of_isEmpty (hp.2 o (by simp [ho]))]

end CBlock

/-! ## Distinct heights have incompatible scripts -/

theorem length_leBytes_le (fuel n : Nat) : (leBytes fuel n).length ≤ fuel := by
  induction fuel generalizing n with
  | zero => simp [leBytes]
  | succ fuel ih =>
    unfold leBytes
    split_ifs
    · simp
    · have := ih (n / 256)
      simp only [length_cons]
      omega

def leValue (bs : List UInt8) : Nat := bs.foldr (fun b acc => b.toNat + 256 * acc) 0

theorem leValue_leBytes (h : n < 256 ^ fuel) : leValue (leBytes fuel n) = n := by
  induction fuel generalizing n with
  | zero =>
    have : n = 0 := by simpa using h
    simp [leBytes, leValue, this]
  | succ fuel ih =>
    unfold leBytes
    split_ifs with h0
    · simp [leValue, h0]
    have hlt : n / 256 < 256 ^ fuel := by
      omega
    have hb : (UInt8.ofNat (n % 256)).toNat = n % 256 := by simp
    have hr := ih hlt
    unfold leValue at hr ⊢
    rw [foldr_cons, hb, hr]
    omega

theorem leValue_append_zero (bs : List UInt8) : leValue (bs ++ [0]) = leValue bs := by
  simp [leValue]

theorem leValue_bigNumVch (h : n < 2 ^ 31) : leValue (bigNumVch n) = n := by
  have hn : leValue (leBytes 8 n) = n := leValue_leBytes (by omega)
  unfold bigNumVch
  split_ifs
  · rw [leValue_append_zero, hn]
  · exact hn

theorem length_bigNumVch_le (n : Nat) : (bigNumVch n).length ≤ 9 := by
  have := length_leBytes_le 8 n
  unfold bigNumVch
  split_ifs
  · simp only [length_append, length_singleton]
    omega
  · omega

theorem ofNat_inj {a b : Nat} (ha : a < 256) (hb : b < 256) (h : UInt8.ofNat a = UInt8.ofNat b) : a = b := by
  have := congrArg UInt8.toNat h
  simp only [UInt8.toNat_ofNat'] at this
  omega

theorem scriptInt_prefix_unique (hn : n < 2 ^ 31) (hm : m < 2 ^ 31) (h : scriptInt n <+: s)
    (h' : scriptInt m <+: s) : n = m := by
  have ln := length_bigNumVch_le n
  have lm := length_bigNumVch_le m
  unfold scriptInt at h h'
  obtain ⟨t, rfl⟩ := h
  obtain ⟨t', h'⟩ := h'
  split_ifs at h' with hms hns hns
  · have := ofNat_inj (by omega) (by omega) (cons.inj h').1
    omega
  · have := ofNat_inj (by omega) (by omega) (cons.inj h').1
    omega
  · have := ofNat_inj (by omega) (by omega) (cons.inj h').1
    omega
  · obtain ⟨hl, ht⟩ := cons.inj h'
    have hl := ofNat_inj (by omega) (by omega) hl
    have hv := (append_inj ht hl).1
    rw [← leValue_bigNumVch hn, ← leValue_bigNumVch hm, hv]

end
end CloakCoin.Chain
