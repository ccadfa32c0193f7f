import CloakCoin.Chain.Connect

/-!
# A small network to run the model on

`Sample.env` takes lists of known transactions and headers and numbers them; every other one hashes
to something larger, so that the hashes are injective and the known ones are small enough to satisfy
a proof of work.
-/

namespace CloakCoin.Chain

open Lib Wallet Function

/-! ## Injective hashes with chosen values -/

section
variable [DecidableEq α]

def tableHash (enc : α → Nat) (known : List α) (a : α) : Nat :=
  if a ∈ known then known.idxOf a + 1 else known.length + 1 + enc a

theorem tableHash_injective (he : Injective enc) (known : List α) : Injective (tableHash enc known) := by
  intro a b h
  unfold tableHash at h
  split_ifs at h with ha hb hb
  · exact (List.idxOf_inj ha).mp (by omega)
  · have := List.idxOf_lt_length_of_mem ha
    omega
  · have := List.idxOf_lt_length_of_mem hb
    omega
  · exact he (by omega)

end

instance countable_uint8 : Countable UInt8 :=
  Injective.countable (f := UInt8.toNat) fun _ _ h => UInt8.toNat_inj.mp h

instance : Countable COutPoint :=
  Injective.countable (f := fun o : COutPoint => (o.hash, o.n)) fun a b h => by
    cases a; cases b; simp_all

instance : Countable CTxIn :=
  Injective.countable (f := fun i : CTxIn => (i.prevout, i.scriptSig, i.nSequence)) fun a b h => by
    cases a; cases b; simp_all

instance : Countable CTxOut :=
  Injective.countable (f := fun o : CTxOut => (o.nValue, o.scriptPubKey)) fun a b h => by
    cases a; cases b; simp_all

instance : Countable CTransaction :=
  Injective.countable
    (f := fun t : CTransaction => (t.nVersion, t.nTime, t.vin, t.vout, t.nLockTime, t.data)) fun a b h => by
    cases a; cases b; simp_all

instance : Countable CBlockHeader :=
  Injective.countable
    (f := fun b : CBlockHeader => (b.nVersion, b.hashPrevBlock, b.hashMerkleRoot, b.nTime, b.nBits, b.nNonce))
    fun a b h => by cases a; cases b; simp_all

/-- Some injective numbering of a countable type. -/
noncomputable def someCode (α : Type) [Countable α] : α → Nat := Classical.choose (exists_injective_nat α)

theorem someCode_injective (α : Type) [Countable α] : Injective (someCode α) :=
  Classical.choose_spec (exists_injective_nat α)

namespace Sample

/-! ## The environment -/

noncomputable def env (txs : List CTransaction) (headers : List CBlockHeader) : Env where
  txHash := tableHash (someCode _) txs
  hashPair := fun a b => a * 1000 + b
  blockHash := tableHash (someCode _) headers
  sigOpCount := fun _ => 0
  p2shSigOpCount := fun _ _ => 0
  solver := fun s => some (.pubkey, [s])
  keyVerify := fun _ _ _ => true
  verifySignature := fun _ _ _ _ => true
  hashGenesisBlock := 1
  bnProofOfWorkLimit := 2 ^ 236 - 1
  totalBlocksEstimate := 0
  nCoinbaseMaturity := 0
  nStakeMinAge := 3600

variable (txs : List CTransaction) (headers : List CBlockHeader)

theorem txHash_injective : Injective (env txs headers).txHash :=
  tableHash_injective (someCode_injective _) _

theorem blockHash_injective : Injective (env txs headers).blockHash :=
  tableHash_injective (someCode_injective _) _

/-! ## Blocks -/

def easyBits : Nat := 0x03010000

def coinbase (nHeight : Nat) (nValue : Int) : CTransaction :=
  { nTime := nHeight, vin := [{ prevout := .null, scriptSig := scriptInt nHeight ++ [0, 0] }]
    vout := [⟨nValue, [7]⟩] }

def block (hashPrevBlock hashMerkleRoot nTime : Nat) (vtx : List CTransaction) : CBlock :=
  { nVersion := 5, hashPrevBlock, hashMerkleRoot, nTime, nBits := easyBits, nNonce := 0, vtx, vchBlockSig := [1] }

def entry (h : Hash256) (pprev : Option Hash256) (nFile : Fin uintMax) (nHeight bnChainTrust : Nat) (b : CBlock) :
    CBlockIndex :=
  { phashBlock := h, pprev, pnext := none, nFile, nBlockPos := 8, bnChainTrust, nHeight, nMint := 0
    nMoneySupply := 0, fProofOfStake := b.isProofOfStake, prevoutStake := .null, nStakeTime := 0
    hashProofOfStake := 0, nVersion := b.nVersion, hashMerkleRoot := b.hashMerkleRoot, nTime := b.nTime
    nBits := b.nBits, nNonce := b.nNonce }

def node (files : BlockFiles) (blocks : BlockMap) (index : Hash256 → Option CTxIndex) (best : Hash256)
    (nBestHeight : Int) (wallets : List CWallet) : Node where
  txdb := { store := { disk := fun | .tx h => index h | .blockindex _ => none | .hashBestChain => some best
                       activeBatch := none }
            commits := [] }
  files := files
  mapBlockIndex := blocks
  pindexGenesisBlock := some 1
  pindexBest := some best
  hashBestChain := best
  nBestHeight := nBestHeight
  bnBestChainTrust := ((blocks[best]?).map CBlockIndex.bnChainTrust).getD 0
  bnBestInvalidTrust := 0
  mempool := ⟨∅, fun _ => none⟩
  wallets := wallets

end Sample
end CloakCoin.Chain
