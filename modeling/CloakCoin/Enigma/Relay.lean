import CloakCoin.Enigma.Reserve
import CloakCoin.Enigma.Shield

/-!
# What a node does with CloakShield packets

`HandleCloakOnionData` peels the layers of an onion that are for us and hands the content to the handler
of its type. The handlers of `Sender` and `Cloaker` are wrapped as the source wraps them: each has its
own guard from the packets already processed and the banned peers, and most look at the signature.
-/

namespace CloakCoin.Enigma

open Chain Lib Wallet
open Std (ExtTreeMap)

def maxOnionSkins : Nat := 25
def enigmaBansecsMissingInputs : Int := 600
def enigmaBansecsJunkData : Int := 120

/-- The codes of a `CCloakingMessage` that are acted on. -/
def enigmaMsgCloakerAccepted : Int := 1
def enigmaMsgCloakerRejected : Int := 2
def enigmaMsgNodeGoneOffline : Int := 7

structure CEnigmaAnnouncement where
  pEnigmaSessionKeyHex : PubKeyHex
  timestamp : Int
  deriving DecidableEq

/-- The wallet, and what is kept about packets and peers. Announcements are stored under the hash of
their key. -/
structure EnigmaNode (env : ShieldEnv) where
  wallet : EnigmaWallet
  sCloakDataHashes : List Hash256
  mapEnigmaAnns : ExtTreeMap Hash160 CEnigmaAnnouncement
  anns_keyed : ∀ (h : Hash160) ann, mapEnigmaAnns[h]? = some ann → h = env.keyHash ann.pEnigmaSessionKeyHex
  nCloakerCountAccepted : Nat
  /-- 0 for a peer not seen before. -/
  bannedUntil : PubKeyHex → Nat
  /-- The misbehaviour score of each connected node. -/
  nMisbehavior : Nat → Nat

theorem EnigmaNode.no_anns_keyed {env : ShieldEnv} (h : Hash160) (ann : CEnigmaAnnouncement)
    (ha : (∅ : ExtTreeMap Hash160 CEnigmaAnnouncement)[h]? = some ann) : h = env.keyHash ann.pEnigmaSessionKeyHex := by
  cases ha

/-- What leaves the node: a relayed transaction, calls on our requests, signatures. -/
inductive Effect where
  | relayTx (tx : CTransaction)
  | call (c : Call)
  | release (r : Release)
  deriving DecidableEq

structure RelayCtx extends CloakerCtx where
  /-- `TRY_LOCK(cs_mapEnigmaAnns)` succeeds. -/
  lockAnns : Bool

namespace EnigmaNode

variable {env : ShieldEnv} (n : EnigmaNode env)

def alreadyProcessed (p : CCloakingData) : Bool := decide (p.getSigningHash env ∈ n.sCloakDataHashes)

def markProcessed (hash : Hash256) : EnigmaNode env :=
  { n with sCloakDataHashes := if hash ∈ n.sCloakDataHashes then n.sCloakDataHashes else hash :: n.sCloakDataHashes }

def isEnigmaPeerBanned (now : Int) (n : EnigmaNode env) (k : PubKeyHex) : Bool := decide (now ≤ n.bannedUntil k)

def banPeer (now banTimeSecs : Int) (n : EnigmaNode env) (k : PubKeyHex) : EnigmaNode env :=
  { n with bannedUntil := Function.update n.bannedUntil k (max now (n.bannedUntil k) + banTimeSecs).toNat }

def clearBans (keys : Finset PubKeyHex) : EnigmaNode env :=
  { n with bannedUntil := fun k => if k ∈ keys then 0 else n.bannedUntil k }

/-- `Misbehaving(10)`, if the packet came straight from a connected node. -/
def misbehaving (node : Option Nat) : EnigmaNode env :=
  match node with
  | some i => { n with nMisbehavior := Function.update n.nMisbehavior i (n.nMisbehavior i + 10) }
  | none => n

def eraseAnn (keyHash : Hash160) : EnigmaNode env :=
  { n with
    mapEnigmaAnns := n.mapEnigmaAnns.erase keyHash
    anns_keyed := fun h ann hann => by
      rw [ExtTreeMap.getElem?_erase] at hann
      split at hann
      · cases hann
      · exact n.anns_keyed h ann hann }

end EnigmaNode

/-! ## Whom the wallet's handlers ban -/

section
variable (env : ShieldEnv) (ctx : EnigmaCtx)

def checkValidBans (minInputAmount : Int) (io : CCloakingInputsOutputs) : Bool :=
  let txTemp : CTransaction := { nTime := ctx.now.toNat, vin := io.vin, vout := io.vout }
  match fetchInputs ctx.toTxSource ∅ false false txTemp with
  | .ok mapInputs =>
    match io.vin.foldlM (checkInput env.toEnv ctx.toConnectCtx txTemp mapInputs) 0 with
    | some nValueIn => decide (nValueIn < minInputAmount)
    | none => io.vin.all fun txin => mapInputs.contains txin.prevout.hash
  | _ => false

variable (s : EnigmaWallet)

/-- Whom an accept response gets banned: the participant it names. -/
def acceptBans (ccar : CCloakingAcceptResponse) : List PubKeyHex :=
  let info := ccar.participantInfo
  if env.acceptHash ccar ∈ s.sCloakingAccepts then []
  else
    match s.mapOurCloakingRequests[ccar.requestIdentifier]? with
    | none => []
    | some request =>
      if !env.isStealthAddress info.stealthAddress || decide (request.recipientAddress = some info.stealthAddress) ||
          !env.getSecret info.pubKey ||
          decide ((request.sParticipants.length : Int) ≥ request.nParticipantsRequired) then []
      else if checkValidBans env ctx (int64 request.nSendAmount) info.inOuts then [info.pubKey]
      else []

def prevOutBans (vin : List CTxIn) : Bool :=
  match vin.find? fun txin => (fetchPrevOut ctx txin).isNone with
  | none => false
  | some txin =>
    match fetchInputs ctx.toTxSource ∅ false false { nTime := ctx.now.toNat, vin := [txin], vout := [] } with
    | .notFound => false
    | _ => true

def cloakerBans (csr : CCloakingRequest) : Bool :=
  match s.mapCloakingRequests[csr.getIdHash env.toEnigmaEnv]?, csr.signedrawtx with
  | some reqOurCopy, some (jointTrans :: _) =>
    if env.myKey ∈ reqOurCopy.signedByAddresses then false
    else
      match s.mapCloakingInputsOutputs[csr.getIdHash env.toEnigmaEnv]? with
      | none => true -- could not find our inputs and outputs
      | some inoutsMine =>
        if !inoutsMine.vin.all fun invMine => decide (invMine ∈ jointTrans.vin) then true -- altered
        else
          match getStealthEphemPK jointTrans.vout with
          | none => false
          | some vchEphemPK =>
            if getEnigmaOutputsAmounts env.toEnigmaEnv s.stealthAddresses jointTrans.vout vchEphemPK <
                uint64 inoutsMine.nInputAmount then true -- output amount smaller than our inputs
            else prevOutBans ctx jointTrans.vin
  | _, _ => false

def signRequestBans (csr : CCloakingRequest) : List PubKeyHex :=
  if csr.getIdHash env.toEnigmaEnv ∈ s.sSignRequestHashes then []
  else if !csr.aborted && cloakerBans env ctx s csr then [csr.identifier.pubKeyHex]
  else []

/-- `SignAndRespond` as the sender bans the initiator of its own request. -/
def senderBans (r : CCloakingRequest) : Bool :=
  if !s.mapOurCloakingRequests.contains (r.getIdHash env.toEnigmaEnv) ||
    decide (env.myKey ∈ r.signedByAddresses) then false
  else
    match r.signedrawtx with
    | some (jointTrans :: _) =>
      match s.mapCloakingInputsOutputs[r.getIdHash env.toEnigmaEnv]? with
      | none => prevOutBans ctx jointTrans.vin
      | some inoutsMine =>
        if !inoutsMine.vin.all fun invMine => decide (invMine ∈ jointTrans.vin) then true
        else if (getStealthEphemPK jointTrans.vout).isNone then false
        else prevOutBans ctx jointTrans.vin
    | _ => false

def clearedBy (r : CCloakingRequest) : Finset PubKeyHex :=
  if !s.mapOurCloakingRequests.contains (r.getIdHash env.toEnigmaEnv) || decide (env.myKey ∈ r.signedByAddresses) then ∅
  else
    match signedBySender env.toEnigmaEnv ctx s r with
    | some (jointTrans, true) =>
      let w := s.wallet.findStealthTransactions jointTrans
      if jointTrans.checkTransaction && ctx.acceptToMemoryPool jointTrans &&
          !s.wallet.mapWallet.contains (jointTrans.getHash env.toEnv) &&
          (jointTrans.vout.any w.isMine || w.isFromMe jointTrans) then
        r.signedByAddresses.erase env.myKey
      else ∅
    | _ => ∅

def lastSigned (sr : CCloakingSignResponse) : Option (EnigmaWallet × CCloakingRequest) :=
  if s.sSignResponses.any fun sr' => sr'.identifier == sr.identifier && sr'.signingAddress == sr.signingAddress then
    none
  else
    match s.mapOurCloakingRequests[sr.identifier]? with
    | none => none
    | some r =>
      if r.aborted || decide (sr.signingAddress ∈ r.signedByAddresses) || !RawTx.decodes r.signedrawtx then none
      else
        let r := (addSignedInputsToTx r sr).2
        if (r.signedByAddresses.card : Int) ≥ r.nParticipantsRequired ∧ r.processed = false then
          some (s.setOurRequest sr.identifier r, r)
        else none

end

/-! ## The handlers -/

namespace EnigmaNode

variable {env : ShieldEnv} (ctx : RelayCtx)

def handle (blocked checkSig : Bool) (act : CCloakingData → EnigmaNode env × List Effect) (n : EnigmaNode env)
    (p : CCloakingData) : EnigmaNode env × List Effect :=
  if blocked then (n, [])
  else if checkSig && !p.authenticate env then (n.banPeer ctx.now enigmaBansecsJunkData p.senderPubKeyHex, [])
  else
    match p.decrypt env env.routingKey with
    | (true, p) => act p
    | (false, _) => (n, [])

variable (n : EnigmaNode env) (p : CCloakingData)

def handled : Bool :=
  n.alreadyProcessed p && !n.isEnigmaPeerBanned ctx.now p.senderPubKeyHex

def banAll (keys : List PubKeyHex) : EnigmaNode env :=
  keys.foldl (banPeer ctx.now enigmaBansecsMissingInputs) n

def handleCloakingAccept : EnigmaNode env × List Effect :=
  n.handle ctx (n.alreadyProcessed p || n.isEnigmaPeerBanned ctx.now p.senderPubKeyHex) true (fun p =>
    match env.readAccept p.payload.dataRaw with
    | (true, ccar) =>
      let (w, calls) := Enigma.handleCloakingAccept env.toEnigmaEnv ctx.toEnigmaCtx n.wallet ccar
      (({ n with wallet := w } : EnigmaNode env).banAll ctx (acceptBans env ctx.toEnigmaCtx n.wallet ccar),
        calls.map .call)
    | (false, _) => (n, [])) p

def handleOnionTx : EnigmaNode env × List Effect :=
  n.handle ctx (n.handled ctx p) false (fun p => (n, [.relayTx (env.readTransaction p.payload.dataRaw).2])) p

def handleSignResponse : EnigmaNode env × List Effect :=
  n.handle ctx (n.handled ctx p) true (fun p =>
    let ccr := (env.readSignResponse p.payload.dataRaw).2
    let (w, calls) := Enigma.handleSignResponse env.toEnigmaEnv ctx.toEnigmaCtx n.wallet ccr
    let n' : EnigmaNode env := { n with wallet := w }
    match lastSigned n.wallet ccr with
    | some (s, r) =>
      let bans := if senderBans env ctx.toEnigmaCtx s r then [r.identifier.pubKeyHex] else []
      ((n'.banAll ctx bans).clearBans (clearedBy env ctx.toEnigmaCtx s r), calls.map .call)
    | none => (n', calls.map .call)) p

def handleSignRequest : EnigmaNode env × List Effect :=
  n.handle ctx (n.handled ctx p) true (fun p =>
    let csr := (env.readRequest p.payload.dataRaw).2
    let (w, release) := Enigma.handleSignRequest env.toEnigmaEnv ctx.toCloakerCtx n.wallet csr
    (({ n with wallet := w } : EnigmaNode env).banAll ctx (signRequestBans env ctx.toEnigmaCtx n.wallet csr),
      release.toList.map .release)) p

def handleNodeOffline (nodePubkeyHash : Bytes) : EnigmaNode env :=
  if ctx.lockAnns then n.eraseAnn (env.uint160 nodePubkeyHash) else n

def handleAcceptResponseFromSender (msgType : Int) (requestIdHashHex : Bytes) : EnigmaNode env :=
  if msgType = enigmaMsgCloakerAccepted then { n with nCloakerCountAccepted := n.nCloakerCountAccepted + 1 }
  else if msgType = enigmaMsgCloakerRejected then
    { n with wallet := cloakerRejected env.toEnigmaEnv n.wallet (env.uint256 requestIdHashHex) }
  else n

def handleCloakMessage : EnigmaNode env × List Effect :=
  n.handle ctx (n.handled ctx p) false (fun p =>
    let msg := (env.readMessage p.payload.dataRaw).2
    if msg.messageCode = enigmaMsgNodeGoneOffline then
      -- falls through to the next case, which does nothing for this code
      ((n.handleNodeOffline ctx msg.messageData).handleAcceptResponseFromSender msg.messageCode msg.messageData, [])
    else if msg.messageCode = enigmaMsgCloakerRejected ∨ msg.messageCode = enigmaMsgCloakerAccepted then
      (n.handleAcceptResponseFromSender msg.messageCode msg.messageData, [])
    else (n, [])) p

def dispatch : EnigmaNode env × List Effect :=
  if p.payload.dataType = CloakingDataType.code .enigmaReq then
    let request := (env.readRequest p.payload.dataRaw).2
    ({ n with wallet := processRequest env.toEnigmaEnv ctx.toCloakerCtx n.wallet request }, [])
  else if p.payload.dataType = CloakingDataType.code .reqAccept then n.handleCloakingAccept ctx p
  else if p.payload.dataType = CloakingDataType.code .signRequest then n.handleSignRequest ctx p
  else if p.payload.dataType = CloakingDataType.code .signResponse then n.handleSignResponse ctx p
  else if p.payload.dataType = CloakingDataType.code .tx then n.handleOnionTx ctx p
  else if p.payload.dataType = CloakingDataType.code .enigmaMsg then n.handleCloakMessage ctx p
  else (n, [])

def handleCloakOnionData : Nat → EnigmaNode env → Option Nat → CCloakingData → EnigmaNode env × List Effect
  | 0, n, _, _ => (n, [])
  | skins + 1, n, node, p =>
    if n.alreadyProcessed p then (n, [])
    else
      -- `Transmit` forwards the packet whether or not it authenticates
      let n := if p.authenticate env then n else n.misbehaving node
      let (n, effects) :=
        match p.decrypt env env.routingKey with
        | (true, q) =>
          if q.payload.dataType = CloakingDataType.code .relayData then
            match (CCloakingData.format env).read q.payload.dataRaw with
            | some (child, _) => handleCloakOnionData skins n none child
            | none => (n, [])
          else n.dispatch ctx q
        | (false, _) => (n, [])
      (n.markProcessed (p.getSigningHash env), effects)

end EnigmaNode

/-- A packet as it arrives from a connected node. -/
structure Delivery where
  packet : CCloakingData
  node : Nat
  ctx : RelayCtx

namespace EnigmaNode

variable {env : ShieldEnv}

def receive (d : Delivery) (n : EnigmaNode env) : EnigmaNode env :=
  (handleCloakOnionData d.ctx maxOnionSkins n (some d.node) d.packet).1

/-! ## The layers that get opened -/

/-- The layers opened of a packet when `hashes` are already processed. -/
def opened (env : ShieldEnv) (hashes : List Hash256) : Nat → CCloakingData → List CCloakingData
  | 0, _ => []
  | skins + 1, p =>
    if p.getSigningHash env ∈ hashes then []
    else
      p :: match strip env p env.routingKey with
        | some child => opened env hashes skins child
        | none => []

def layers (n : EnigmaNode env) (p : CCloakingData) : List CCloakingData :=
  opened env n.sCloakDataHashes maxOnionSkins p

def ScoresOnly (n n' : EnigmaNode env) : Prop := n' = { n with nMisbehavior := n'.nMisbehavior }

theorem ScoresOnly.refl (n : EnigmaNode env) : ScoresOnly n n := rfl

theorem ScoresOnly.misbehaving {n n' : EnigmaNode env} (h : ScoresOnly n n') (node : Option Nat) :
    ScoresOnly n (n'.misbehaving node) := by
  cases node with
  | none => exact h
  | some i =>
    unfold ScoresOnly at h ⊢
    unfold EnigmaNode.misbehaving
    rw [h]

theorem ScoresOnly.hashes {n n' : EnigmaNode env} (h : ScoresOnly n n') : n'.sCloakDataHashes = n.sCloakDataHashes := by
  rw [h]

theorem onion_rel {ctx : RelayCtx} {n0 : EnigmaNode env} {R : EnigmaNode env → Prop}
    (hst : ∀ n, ScoresOnly n0 n → R n) (hm : ∀ n hash, R n → R (n.markProcessed hash)) {skins : Nat}
    {p : CCloakingData} {node : Option Nat} {n : EnigmaNode env} (hn : ScoresOnly n0 n)
    (hd : ∀ layer ∈ opened env n0.sCloakDataHashes skins p, ∀ n q, ScoresOnly n0 n →
      layer.decrypt env env.routingKey = (true, q) → R (n.dispatch ctx q).1) :
    R (handleCloakOnionData ctx skins n node p).1 := by
  induction skins generalizing p node n with
  | zero => exact hst n hn
  | succ skins ih =>
    unfold handleCloakOnionData
    unfold opened at hd
    by_cases hdo : p.getSigningHash env ∈ n0.sCloakDataHashes
    · rw [if_pos (by rw [alreadyProcessed, hn.hashes]; exact decide_eq_true hdo)]
      exact hst n hn
    rw [if_neg (by rw [alreadyProcessed, hn.hashes]; simpa using hdo)]
    rw [if_neg hdo] at hd
    have hs : ScoresOnly n0 (if p.authenticate env then n else n.misbehaving node) := by
      split
      · exact hn
      · exact hn.misbehaving node
    generalize (if p.authenticate env then n else n.misbehaving node) = n1 at hs
    refine hm _ _ ?_
    unfold strip at hd
    rcases ho : p.decrypt env env.routingKey with ⟨ok, q⟩
    rw [ho] at hd
    cases ok with
    | false => exact hst n1 hs
    | true =>
      dsimp only at hd ⊢
      split
      · rename_i hr
        rw [if_pos hr] at hd
        split
        · rename_i child rest hre
          rw [hre, Option.map_some] at hd
          exact ih hs fun layer hl => hd layer (List.mem_cons_of_mem _ hl)
        · exact hst n1 hs
      · exact hd p List.mem_cons_self n1 q hs ho

end EnigmaNode

end CloakCoin.Enigma
