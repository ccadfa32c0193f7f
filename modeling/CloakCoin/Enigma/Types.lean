import CloakCoin.Lib.Word
import CloakCoin.Chain.Inputs
import CloakCoin.Wallet.Wallet

/-!
# Enigma: requests, participants and one-time addresses

The data of `enigma.h` and `cloakingrequest.h`, and the derivation of one-time addresses from stealth
addresses (`GetEnigmaChangeAddresses`, `GetStealthEphemPK`). `EnigmaEnv` holds what comes from
elliptic curves, hashes and the message layer.
-/

namespace CloakCoin.Enigma

open Chain Lib Wallet
open Std (ExtTreeMap)

/-- A public key in hex; only compared. -/
abbrev PubKeyHex := Nat
abbrev CKeyID := List UInt8

inductive CTxDestination where
  | keyID (id : CKeyID)
  | scriptID (id : CKeyID)
  deriving DecidableEq, Repr

/-- The encoded address, and whether we hold its scan secret. -/
structure CStealthAddress where
  encoded : Nat
  isOwned : Bool := false
  deriving DecidableEq, Repr

structure CCloakingIdentifier where
  pubKeyHex : PubKeyHex
  nInitiatedTime : Int
  deriving DecidableEq, Repr

/-- Inputs and outputs for a joint transaction, of a participant or of the requester. -/
structure CCloakingInputsOutputs where
  vin : List CTxIn := []
  vout : List CTxOut := []
  /-- Payment amount for the Enigma tx. -/
  nSendAmount : Int := 0
  /-- Our input amount for the Enigma tx. -/
  nInputAmount : Int := 0
  stealthHash : Hash256 := 0
  requestSigned : Bool := false
  lockedUntilBlock : Int := 0
  deriving DecidableEq, Repr

structure CCloakingParticipant where
  /-- Public signer address. -/
  pubKey : PubKeyHex
  stealthAddress : Nat
  inOuts : CCloakingInputsOutputs := {}
  deriving DecidableEq, Repr

structure CCloakingAcceptResponse where
  requestIdentifier : Hash256
  participantInfo : CCloakingParticipant
  deriving DecidableEq, Repr

/-- Sent to the requester once we have signed the joint transaction. -/
structure CCloakingSignResponse where
  signingAddress : PubKeyHex
  identifier : Hash256
  signatures : List CScript
  deriving DecidableEq, Repr

abbrev RawTx := Option (List CTransaction)

structure CCloakingRequest where
  nVersion : Int := 10
  identifier : CCloakingIdentifier
  nSendAmount : Nat
  nParticipantsRequired : Int := 3
  rawtx : RawTx := some []
  signedrawtx : RawTx := some []
  signedByAddresses : Finset PubKeyHex := ∅
  recipientAddress : Option Nat := none
  bBroadcasted : Bool := false
  nBroadcastedTime : Int := 0
  processed : Bool := false
  aborted : Bool := false
  numSplitsRequired : Int := 1
  isMine : Bool := false
  completed : Bool := false
  txCreated : Bool := false
  autoRetry : Bool := true
  retryCount : Nat := 0
  timeoutSecs : Int := 60
  /-- The id of the finalized transaction, `none` for the initial "0". -/
  txid : Option Hash256 := none
  /-- Ordered by hash, as the `std::set` is. -/
  sParticipants : List CCloakingParticipant := []
  stealthRootKey : List UInt8 := []
  senderAddress : CStealthAddress := ⟨0, false⟩
  deriving DecidableEq

/-- `ENIGMA_REQUEST_CURRENTVERSION` is written `0012`, an octal literal. -/
def enigmaRequestCurrentVersion : Int := 10
def enigmaMaxRetries : Nat := 3

structure EnigmaEnv extends Env where
  /-- `SerializeHash` of the identifier, of a participant and of an accept response. -/
  idHash : CCloakingIdentifier → Hash256
  participantHash : CCloakingParticipant → Hash256
  acceptHash : CCloakingAcceptResponse → Hash256
  /-- `CPubKey::GetID`. -/
  pubKeyID : List UInt8 → CKeyID
  /-- `GenerateEnigmaSecret` and `StealthSecret`: the key of a one-time address. -/
  enigmaKey : Nat → List UInt8 → Hash256 → Nat → CKeyID
  /-- `CStealthAddress::GetEnigmaAddressPrivateHash`. -/
  privateHash : CStealthAddress → Hash256
  isStealthAddress : Nat → Bool
  /-- An ECDH secret can be derived for the peer. -/
  getSecret : PubKeyHex → Bool
  /-- `nSendAmount * ENIGMA_TOTAL_FEE_PERCENT(nSendAmount) * 0.01`, computed in doubles. -/
  totalReward : Nat → Int
  /-- Our routing key. -/
  myKey : PubKeyHex
  /-- `SignSignature` with `SIGHASH_ALL | SIGHASH_ANYONECANPAY`: the `scriptSig` of the input. -/
  signSignature : CScript → CTransaction → Nat → Option CScript
  combineSignatures : CScript → CTransaction → Nat → CScript → CScript → CScript
  verifyScript : CScript → CScript → CTransaction → Nat → Bool

/-! ## Scripts and one-time addresses -/

def opReturn : UInt8 := 0x6a

/-- The key after an `OP_RETURN`, when it has the 33 bytes of a public key. -/
def ephemPKOf (scriptPubKey : CScript) : Option (List UInt8) :=
  match getOp scriptPubKey with
  | some (opcode, _, pc) =>
    if opcode ≠ opReturn then none
    else
      match getOp pc with
      | some (_, vch, _) => if vch.length = 33 then some vch else none
      | none => none
  | none => none

def getStealthEphemPK (vout : List CTxOut) : Option (List UInt8) :=
  vout.findSome? fun txout => ephemPKOf txout.scriptPubKey

section
variable (env : EnigmaEnv)

def extractDestination (scriptPubKey : CScript) : Option CTxDestination :=
  match env.solver scriptPubKey with
  | some (.pubkey, key :: _) => some (.keyID (env.pubKeyID key))
  | some (.pubkeyhash, id :: _) => some (.keyID id)
  | some (.scripthash, id :: _) => some (.scriptID id)
  | _ => none

def scriptForKeyID (id : CKeyID) : CScript := [0x76, 0xa9, UInt8.ofNat id.length] ++ id ++ [0x88, 0xac]

def getEnigmaChangeAddresses (sxAddress : Nat) (stealthRootKey : List UInt8) (cloakerHash : Hash256)
    (numChangeAddresses offset : Nat) : Option (List CScript) :=
  if numChangeAddresses = 0 ∨ numChangeAddresses + offset ≤ 60 then
    some ((List.range numChangeAddresses).map fun i =>
      scriptForKeyID (env.enigmaKey sxAddress stealthRootKey cloakerHash (i + offset)))
  else none

theorem length_getEnigmaChangeAddresses
    (h : getEnigmaChangeAddresses env sxAddress rootKey cloakerHash num offset = some scripts) :
    scripts.length = num := by
  unfold getEnigmaChangeAddresses at h
  split_ifs at h
  cases h
  simp

end

/-! ## Requests -/

def CCloakingRequest.getIdHash (env : EnigmaEnv) (r : CCloakingRequest) : Hash256 := env.idHash r.identifier

def CCloakingRequest.isExpired (now : Int) (r : CCloakingRequest) : Bool :=
  decide (int32 (now - r.nBroadcastedTime) > r.timeoutSecs)

def CCloakingRequest.shouldRetry (r : CCloakingRequest) : Bool := decide (r.retryCount < enigmaMaxRetries)

abbrev RequestMap := ExtTreeMap Hash256 CCloakingRequest
abbrev InOutsMap := ExtTreeMap Hash256 CCloakingInputsOutputs

/-- The outcome of `random_shuffle`. -/
structure Shuffle where
  apply : {α : Type} → List α → List α
  perm : ∀ {α : Type} (l : List α), (apply l).Perm l

/-- What a message handler finds outside the wallet: the chain, the clock, the random source, and
whether sending and submitting succeed. -/
structure EnigmaCtx extends ConnectCtx where
  now : Int
  rng : Draws
  shuffle : Shuffle
  transmit : Bool
  acceptToMemoryPool : CTransaction → Bool

/-- What `pwalletMain` holds for Enigma. -/
structure EnigmaWallet where
  wallet : CWallet
  stealthAddresses : List CStealthAddress
  mapCloakingRequests : RequestMap
  mapOurCloakingRequests : RequestMap
  mapCloakingInputsOutputs : InOutsMap
  sRequestHashes : List Hash256
  sSignRequestHashes : List Hash256
  sCloakingAccepts : List Hash256
  sSignResponses : List CCloakingSignResponse

end CloakCoin.Enigma
