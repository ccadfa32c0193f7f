import CloakCoin.Chain.Sample
import CloakCoin.Enigma.Types

/-!
# A small Enigma network to run the model on

One-time keys are written in unary, so that the derivation is injective and evaluates quickly.
-/

namespace CloakCoin.Enigma.Sample

open Chain Lib Wallet

def unary (n : Nat) : List UInt8 := List.replicate n 1 ++ [0]

theorem unary_append_inj (h : unary m ++ a = unary n ++ b) : m = n ∧ a = b := by
  induction m generalizing n with
  | zero =>
    cases n with
    | zero => simpa [unary] using h
    | succ n => simp [unary, List.replicate_succ] at h
  | succ m ih =>
    cases n with
    | zero => simp [unary, List.replicate_succ] at h
    | succ n =>
      simp only [unary, List.replicate_succ, List.cons_append, List.cons.injEq, true_and] at h ih
      obtain ⟨rfl, hab⟩ := ih h
      exact ⟨rfl, hab⟩

def enigmaKey (sxAddress : Nat) (rootKey : List UInt8) (cloakerHash : Hash256) (index : Nat) : CKeyID :=
  unary sxAddress ++ (unary cloakerHash ++ (unary index ++ rootKey))

theorem enigmaKey_inj {hash hash' : Hash256} {i i' : Nat} (h : enigmaKey sx root hash i = enigmaKey sx' root' hash' i')
    : sx = sx' ∧ root = root' ∧ hash = hash' ∧ i = i' := by
  obtain ⟨hsx, h⟩ := unary_append_inj h
  obtain ⟨hh, h⟩ := unary_append_inj h
  obtain ⟨hi, hr⟩ := unary_append_inj h
  exact ⟨hsx, hr, hh, hi⟩

def solver : CScript → Option (TxnOutType × List (List UInt8))
  | 0x6a :: _ => some (.nullData, [])
  | script => some (.pubkeyhash, [script])

def idHash (i : CCloakingIdentifier) : Hash256 := 100 * i.nInitiatedTime.toNat + i.pubKeyHex

/-- A tenth of the amount is the reward. -/
noncomputable def env (txs : List CTransaction) : EnigmaEnv :=
  { Chain.Sample.env txs [] with
    solver := solver
    idHash := idHash
    participantHash := fun p => 100 * p.pubKey + p.stealthAddress
    acceptHash := fun a => 10000 * a.requestIdentifier + 100 * a.participantInfo.pubKey +
      a.participantInfo.stealthAddress
    pubKeyID := fun key => key
    enigmaKey := enigmaKey
    privateHash := fun a => a.encoded + 1
    isStealthAddress := fun _ => true
    getSecret := fun _ => true
    totalReward := fun nSendAmount => nSendAmount / 10
    myKey := 1
    signSignature := fun _ _ _ => some [1]
    combineSignatures := fun _ _ _ sig _ => sig
    verifyScript := fun _ _ _ _ => true }

/-! ## A send of 2 coins with one participant -/

def funding : CTransaction :=
  { nTime := 1, vin := [{ prevout := ⟨9, 0⟩ }], vout := [⟨4 * coin, [7]⟩, ⟨5 * coin, [8]⟩] }

def ctx : EnigmaCtx where
  readTxIndex := fun h => if h = 1 then some (.ofOutputs (.ofFile 1 8 89) 2) else none
  readTx := fun _ => some funding
  readBlockTime := fun _ => some 1
  mempoolLookup := fun _ => none
  ancestors := []
  nBestHeight := 1
  now := 5
  rng := fun n => 7919 * n
  shuffle := ⟨fun l => l, fun l => List.Perm.refl l⟩
  transmit := true
  acceptToMemoryPool := fun _ => true

def wallet (wallet : CWallet) (ours : List (CCloakingRequest × CCloakingInputsOutputs)) : EnigmaWallet where
  wallet := wallet
  stealthAddresses := []
  mapCloakingRequests := ∅
  mapOurCloakingRequests := ours.foldl (fun m p => m.insert (idHash p.1.identifier) p.1) ∅
  mapCloakingInputsOutputs := ours.foldl (fun m p => m.insert (idHash p.1.identifier) p.2) ∅
  sRequestHashes := []
  sSignRequestHashes := []
  sCloakingAccepts := []
  sSignResponses := []

def sendRequest : CCloakingRequest :=
  { identifier := ⟨1, 1⟩, nSendAmount := 2000000, nParticipantsRequired := 1
    stealthRootKey := List.replicate 33 3, senderAddress := ⟨1, true⟩ }

def sendInOuts : CCloakingInputsOutputs :=
  { vin := [{ prevout := ⟨1, 0⟩ }], vout := [⟨2 * coin, [9]⟩], nSendAmount := 2 * coin, nInputAmount := 4 * coin }

def sender : EnigmaWallet := wallet ⟨∅, [], fun _ => [], 0⟩ [(sendRequest, sendInOuts)]

def offer : CCloakingAcceptResponse := ⟨101, ⟨2, 2, { vin := [{ prevout := ⟨1, 1⟩ }], stealthHash := 3 }⟩⟩

end CloakCoin.Enigma.Sample
