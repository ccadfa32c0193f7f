import CloakCoin.Wallet.Coins
import CloakCoin.Enigma.Outputs

/-!
# The sender's side of an Enigma send

Accept responses fill the request and start the joint transaction, sign responses are merged into it
until the sender signs last and submits. A handler returns the new wallet and the calls it made.
-/

namespace CloakCoin.Enigma

open Chain Lib Wallet
open Std (ExtTreeMap)

/-- The calls a handler makes on one of our requests, with the request as it was then. -/
inductive Call where
  | createTransactionAndRequestSign (r : CCloakingRequest)
  | signAndRespond (r : CCloakingRequest)
  | submit (tx : CTransaction)
  deriving DecidableEq

namespace EnigmaWallet

def setOurRequest (s : EnigmaWallet) (id : Hash256) (r : CCloakingRequest) : EnigmaWallet :=
  { s with mapOurCloakingRequests := s.mapOurCloakingRequests.insert id r }

def setInOuts (s : EnigmaWallet) (id : Hash256) (io : CCloakingInputsOutputs) : EnigmaWallet :=
  { s with mapCloakingInputsOutputs := s.mapCloakingInputsOutputs.insert id io }

end EnigmaWallet

section
variable (env : EnigmaEnv) (ctx : EnigmaCtx)

/-! ## Accept responses -/

def checkValid (io : CCloakingInputsOutputs) : Option CCloakingInputsOutputs :=
  let txTemp : CTransaction := { nTime := ctx.now.toNat, vin := io.vin, vout := io.vout }
  match fetchInputs ctx.toTxSource ∅ false false txTemp with
  | .ok mapInputs =>
    (io.vin.foldlM (checkInput env.toEnv ctx.toConnectCtx txTemp mapInputs) 0).map fun nValueIn =>
      { io with nInputAmount := nValueIn }
  | _ => none

/-- `std::set::insert`, ordered by hash. -/
def insertParticipant (p : CCloakingParticipant) : List CCloakingParticipant → List CCloakingParticipant
  | [] => [p]
  | q :: rest =>
    if env.participantHash p < env.participantHash q then p :: q :: rest
    else if env.participantHash p = env.participantHash q then q :: rest
    else q :: insertParticipant p rest

def CCloakingRequest.join (r : CCloakingRequest) (p : CCloakingParticipant) : CCloakingRequest :=
  { r with sParticipants := insertParticipant env p r.sParticipants }

/-- `CScript() << OP_RETURN << stealthRootKey`. -/
def stealthNonceScript (stealthRootKey : List UInt8) : CScript :=
  opReturn :: UInt8.ofNat stealthRootKey.length :: stealthRootKey

def jointTransaction (r : CCloakingRequest) (inOuts : CCloakingInputsOutputs) : CTransaction :=
  { nTime := ctx.now.toNat
    vin := ctx.shuffle.apply inOuts.vin
    vout := ctx.shuffle.apply inOuts.vout ++ [⟨minTxoutAmount, stealthNonceScript r.stealthRootKey⟩] }

/-- The joint transaction pays at least `MIN_TX_FEE`. -/
def paysFee (tx : CTransaction) : Bool :=
  match fetchInputs ctx.toTxSource ∅ false false tx with
  | .ok mapInputs =>
    match tx.getValueIn mapInputs, tx.getValueOut with
    | some valIn, some valOut => !decide (valIn - valOut < minTxFee)
    | _, _ => false
  | _ => false

variable (s : EnigmaWallet)

def createTransactionAndRequestSign (r : CCloakingRequest) : Bool × EnigmaWallet × CCloakingRequest :=
  if (r.sParticipants.length : Int) < r.nParticipantsRequired then (true, s, r)
  else
    match s.mapCloakingInputsOutputs[r.getIdHash env]? with
    | none => (false, s, r)
    | some inOutsMine =>
      let inOutsCloakers := r.sParticipants.foldl (fun io cloaker => io.addVinVouts cloaker.inOuts true false) {}
      match createEnigmaOutputs env r inOutsCloakers inOutsMine {} ctx.rng with
      | none => (false, s, r)
      | some (_, inOutsMine, inOuts) =>
        -- update the original copy of our inouts so that it reflects the redistributed fee
        let s := s.setInOuts (r.getIdHash env) inOutsMine
        let jointTrans := jointTransaction ctx r inOuts
        let r := { r with rawtx := some [jointTrans], signedrawtx := some [jointTrans] }
        (paysFee ctx jointTrans, s, r)

/-- Process the response of a cloaker that wants to participate. -/
def processAcceptResponse (car : CCloakingAcceptResponse) : EnigmaWallet × List Call :=
  let info := car.participantInfo
  match s.mapOurCloakingRequests[car.requestIdentifier]? with
  | none => (s, [])
  | some request =>
    if !env.isStealthAddress info.stealthAddress then (s, [])
    else if request.recipientAddress = some info.stealthAddress then (s, []) -- receiver can't help
    else if !env.getSecret info.pubKey then (s, [])
    else if (request.sParticipants.length : Int) < request.nParticipantsRequired then
      match checkValid env ctx info.inOuts with
      | none => (s, [])
      | some inOuts =>
        let request := request.join env { info with inOuts := inOuts }
        if (request.sParticipants.length : Int) ≥ request.nParticipantsRequired ∧ request.txCreated = false then
          let request := { request with txCreated := true }
          let (_, s', request') := createTransactionAndRequestSign env ctx s request
          (s'.setOurRequest car.requestIdentifier request', [.createTransactionAndRequestSign request])
        else (s.setOurRequest car.requestIdentifier request, [])
    else (s, []) -- full: CLOAKER_REJECTED is sent

/-- Handle an accept response that was authenticated and decrypted. -/
def handleCloakingAccept (ccar : CCloakingAcceptResponse) : EnigmaWallet × List Call :=
  let acceptHash := env.acceptHash ccar
  if acceptHash ∈ s.sCloakingAccepts then (s, [])
  else
    let (s', calls) := processAcceptResponse env ctx s ccar
    ({ s' with sCloakingAccepts := acceptHash :: s'.sCloakingAccepts }, calls)

/-! ## Sign responses -/

/-- The transaction a raw string decodes to; a null one when there is none. -/
def RawTx.tx (raw : RawTx) : CTransaction :=
  match raw with
  | some (tx :: _) => tx
  | _ => { nTime := 0, vin := [], vout := [] }

def RawTx.decodes (raw : RawTx) : Bool := raw.any (!·.isEmpty)

def CCloakingRequest.jointVin (r : CCloakingRequest) : List CTxIn := (RawTx.tx r.signedrawtx).vin

/-- The longer of two signatures of an input is kept. -/
def mergeSignature (txin : CTxIn) (signature : CScript) : CTxIn :=
  if signature.length > txin.scriptSig.length then { txin with scriptSig := signature } else txin

def addSignedInputsToTx (r : CCloakingRequest) (signResponse : CCloakingSignResponse) : Bool × CCloakingRequest :=
  let txRequest := RawTx.tx r.signedrawtx
  if signResponse.signatures.length ≠ txRequest.vin.length then (false, r)
  else
    let vin := List.zipWith mergeSignature txRequest.vin signResponse.signatures
    let r := if vin ≠ txRequest.vin then { r with signedrawtx := some [{ txRequest with vin := vin }] } else r
    (true, { r with signedByAddresses := insert signResponse.signingAddress r.signedByAddresses })

def fetchPrevOut (txin : CTxIn) : Option CScript :=
  let tempTx : CTransaction := { nTime := ctx.now.toNat, vin := [txin], vout := [] }
  match fetchInputs ctx.toTxSource ∅ false false tempTx with
  | .ok mapPrevTx => (getOutputFor mapPrevTx txin).map CTxOut.scriptPubKey
  | _ => none

def setScriptSig (tx : CTransaction) (i : Nat) (scriptSig : CScript) : CTransaction :=
  { tx with vin := tx.vin.modify i fun txin => { txin with scriptSig := scriptSig } }

/-- Sign input `i` if it is one of ours; the flag is `fComplete`. -/
def signInput (ourInputs : List CTxIn) (mapPrevOut : List CScript) : CTransaction × Bool → Nat →
    Option (CTransaction × Bool)
  | (jointTrans, fComplete), i =>
    match jointTrans.vin[i]?, mapPrevOut[i]? with
    | some txInput, some prevPubKey =>
      if txInput ∈ ourInputs then
        match env.signSignature prevPubKey (setScriptSig jointTrans i []) i with
        | none => none
        | some sig =>
          let jointTrans := setScriptSig jointTrans i sig
          -- `txInput` is a reference into `jointTrans`, so both signatures combined are the new one
          let sig := env.combineSignatures prevPubKey jointTrans i sig sig
          let jointTrans := setScriptSig jointTrans i sig
          some (jointTrans, fComplete && env.verifyScript sig prevPubKey jointTrans i)
      else some (jointTrans, fComplete)
    | _, _ => some (jointTrans, false)

def signInputs (ourInputs : List CTxIn) (mapPrevOut : List CScript) (jointTrans : CTransaction) :
    Option (CTransaction × Bool) :=
  (List.range jointTrans.vin.length).foldlM (signInput env ourInputs mapPrevOut) (jointTrans, true)

def oursIncluded (inoutsMine : CCloakingInputsOutputs) (jointTrans : CTransaction) : Bool :=
  inoutsMine.vin.all (fun invMine => decide (invMine ∈ jointTrans.vin)) &&
    (getStealthEphemPK jointTrans.vout).isSome

def signedBySender (r : CCloakingRequest) : Option (CTransaction × Bool) :=
  match r.signedrawtx with
  | some (jointTrans :: _) =>
    let inoutsMine := s.mapCloakingInputsOutputs[r.getIdHash env]?
    if !(inoutsMine.all fun io => oursIncluded io jointTrans) then none
    else
      match jointTrans.vin.mapM (fetchPrevOut ctx) with
      | none => none
      | some mapPrevOut =>
        match inoutsMine with
        | none => some (jointTrans, true)
        | some io => signInputs env io.vin mapPrevOut jointTrans
  | _ => none -- does not decode, or no transaction

def signAndRespondSender (r : CCloakingRequest) : Bool × EnigmaWallet × CCloakingRequest × List Call :=
  if !s.mapOurCloakingRequests.contains (r.getIdHash env) then (false, s, r, [])
  else if env.myKey ∈ r.signedByAddresses then (false, s, r, []) -- already signed by me
  else
    match signedBySender env ctx s r with
    | none => (false, s, r, [])
    | some (jointTrans, fComplete) =>
      let r := { r with signedByAddresses := insert env.myKey r.signedByAddresses
                        signedrawtx := some [jointTrans] }
      if !fComplete then (true, s, r, [])
      else if !jointTrans.checkTransaction then (false, s, r, [])
      else
        let r := { r with bBroadcasted := true, nBroadcastedTime := ctx.now }
        if ctx.acceptToMemoryPool jointTrans then
          let r := { r with txid := some (jointTrans.getHash env.toEnv), completed := true }
          let s := { s with wallet := s.wallet.addToWalletIfInvolvingMe env.toEnv jointTrans none false }
          (true, s, r, [.submit jointTrans])
        else (true, s, r, [.submit jointTrans])

/-- `none` if `DeserializeTx` throws: a `JSONRPCError` is no `std::exception`, and no handler on the way catches it. -/
def processSignatureResponse (sr : CCloakingSignResponse) : Option (EnigmaWallet × List Call) :=
  match s.mapOurCloakingRequests[sr.identifier]? with
  | none => some (s, []) -- not our request
  | some r =>
    if r.aborted then some (s, [])
    else if sr.signingAddress ∈ r.signedByAddresses then some (s, []) -- already signed
    else if !RawTx.decodes r.signedrawtx then none
    else
      -- the result of the merge is not looked at
      let r := (addSignedInputsToTx r sr).2
      if (r.signedByAddresses.card : Int) ≥ r.nParticipantsRequired ∧ r.processed = false then
        let (ok, s', r', calls) := signAndRespondSender env ctx (s.setOurRequest sr.identifier r) r
        some (s'.setOurRequest sr.identifier { r' with processed := ok || r'.processed }, .signAndRespond r :: calls)
      else some (s.setOurRequest sr.identifier r, [])

/-- Handle a sign response that was authenticated and decrypted. -/
def handleSignResponse (ccr : CCloakingSignResponse) : EnigmaWallet × List Call :=
  if s.sSignResponses.any fun sr => sr.identifier == ccr.identifier && sr.signingAddress == ccr.signingAddress then
    (s, [])
  else
    match processSignatureResponse env ctx s ccr with
    | none => (s, [])
    | some (s', calls) => ({ s' with sSignResponses := ccr :: s'.sSignResponses }, calls)

/-! ## Sending, retrying and cancelling -/

/-- What the user asked for, with at least one participant; the root key is a compressed public key. -/
structure Send where
  participantsRequired : Int
  numSplits : Int
  timeoutSecs : Int
  sendAmount : Nat
  stealthRootKey : List UInt8
  senderAddress : CStealthAddress
  recipientAddress : Option Nat
  required_pos : 1 ≤ participantsRequired
  rootKey_length : stealthRootKey.length = 33

def createForBroadcast (now participantsRequired numSplits timeoutSecs : Int) (sendAmount : Nat)
    (stealthRootKey : List UInt8) : CCloakingRequest :=
  { identifier := ⟨env.myKey, now⟩
    nSendAmount := sendAmount
    nParticipantsRequired := participantsRequired
    numSplitsRequired := numSplits
    timeoutSecs := timeoutSecs
    isMine := true
    stealthRootKey := stealthRootKey
    bBroadcasted := true
    nBroadcastedTime := now }

/-- The request of a send, with the addresses the RPC fills in. -/
def Send.createForBroadcast (send : Send) (now : Int) : CCloakingRequest :=
  { Enigma.createForBroadcast env now send.participantsRequired send.numSplits send.timeoutSecs send.sendAmount
      send.stealthRootKey with
    senderAddress := send.senderAddress
    recipientAddress := send.recipientAddress }

def sendEnigma (inputsOutputs : CCloakingInputsOutputs) (cr : CCloakingRequest) : EnigmaWallet :=
  let id := cr.getIdHash env
  -- `std::map::insert` keeps an entry that is already there
  let s := if s.mapOurCloakingRequests.contains id then s else s.setOurRequest id cr
  if s.mapCloakingInputsOutputs.contains id then s else s.setInOuts id inputsOutputs

/-- What `Abort` does to the funds held for a request. -/
def freeInputs (id : Hash256) : EnigmaWallet :=
  match s.mapCloakingInputsOutputs[id]? with
  | none => s
  | some inOuts => { s with wallet := (inOuts.vin.map CTxIn.prevout).foldl CWallet.freeCoin s.wallet }

def cancelSend (id : Hash256) : EnigmaWallet :=
  match s.mapOurCloakingRequests[id]? with
  | none => s
  | some r => (freeInputs s (r.getIdHash env)).setOurRequest id { r with aborted := true }

/-- The request as `Retry` stores it under its new id. -/
def CCloakingRequest.retried (now : Int) (req : CCloakingRequest) : CCloakingRequest :=
  { req with
    identifier := { req.identifier with nInitiatedTime := now }
    aborted := false
    signedByAddresses := ∅
    sParticipants := []
    bBroadcasted := true
    nBroadcastedTime := now
    retryCount := req.retryCount + 1 }

def retry (now : Int) (transmit : Bool) (s : EnigmaWallet) (oldHash : Hash256) : Bool × EnigmaWallet :=
  match s.mapCloakingInputsOutputs[oldHash]?, s.mapOurCloakingRequests[oldHash]? with
  | some inOuts, some req =>
    let req := req.retried now
    let newHash := req.getIdHash env
    let s := (s.setOurRequest newHash req).setInOuts newHash inOuts
    (transmit, { s with
      mapCloakingInputsOutputs := s.mapCloakingInputsOutputs.erase oldHash
      mapOurCloakingRequests := s.mapOurCloakingRequests.erase oldHash })
  | _, _ => (false, s)

end

/-! ## What the handlers do -/

structure Admitted (env : EnigmaEnv) (ctx : EnigmaCtx) (s : EnigmaWallet) (r : CCloakingRequest)
    (ccar : CCloakingAcceptResponse) : Prop where
  fresh : env.acceptHash ccar ∉ s.sCloakingAccepts
  stealth : env.isStealthAddress ccar.participantInfo.stealthAddress = true
  recipient : r.recipientAddress ≠ some ccar.participantInfo.stealthAddress
  secret : env.getSecret ccar.participantInfo.pubKey = true
  room : (r.sParticipants.length : Int) < r.nParticipantsRequired
  valid : (checkValid env ctx ccar.participantInfo.inOuts).isSome = true

/-- What an accept response does to the wallet, the responses seen apart, and the calls it leads to. -/
inductive AcceptResult (env : EnigmaEnv) (ctx : EnigmaCtx) (s : EnigmaWallet) (ccar : CCloakingAcceptResponse) :
    EnigmaWallet → List Call → Prop
  | ignored : AcceptResult env ctx s ccar s []
  | joined {r : CCloakingRequest} {inOuts : CCloakingInputsOutputs}
      (hr : s.mapOurCloakingRequests[ccar.requestIdentifier]? = some r) (ha : Admitted env ctx s r ccar)
      (hc : checkValid env ctx ccar.participantInfo.inOuts = some inOuts) :
      AcceptResult env ctx s ccar
        (s.setOurRequest ccar.requestIdentifier (r.join env { ccar.participantInfo with inOuts := inOuts })) []
  | created {r : CCloakingRequest} {inOuts : CCloakingInputsOutputs} {s' : EnigmaWallet} {calls : List Call}
      (hr : s.mapOurCloakingRequests[ccar.requestIdentifier]? = some r) (ha : Admitted env ctx s r ccar)
      (hc : checkValid env ctx ccar.participantInfo.inOuts = some inOuts) (hn : r.txCreated = false)
      (hs : s' = s ∨ ∃ io, s' = s.setInOuts (r.getIdHash env) io) (raw signed : RawTx) :
      AcceptResult env ctx s ccar (s'.setOurRequest ccar.requestIdentifier
        { r.join env { ccar.participantInfo with inOuts := inOuts } with
          txCreated := true, rawtx := raw, signedrawtx := signed }) calls

/-- What a sign response does to the wallet, the responses seen apart, and the calls it leads to. -/
inductive SignResult (env : EnigmaEnv) (ctx : EnigmaCtx) (s : EnigmaWallet) (ccr : CCloakingSignResponse) :
    EnigmaWallet → List Call → Prop
  | ignored : SignResult env ctx s ccr s []
  | merged {r : CCloakingRequest} (hr : s.mapOurCloakingRequests[ccr.identifier]? = some r) (ha : r.aborted = false) :
      SignResult env ctx s ccr (s.setOurRequest ccr.identifier (addSignedInputsToTx r ccr).2) []
  | signed {r q r' : CCloakingRequest} {s' : EnigmaWallet} {ok : Bool} {calls : List Call}
      (hr : s.mapOurCloakingRequests[ccr.identifier]? = some r) (ha : r.aborted = false)
      (hq : q = (addSignedInputsToTx r ccr).2) (hf : (q.signedByAddresses.card : Int) ≥ q.nParticipantsRequired)
      (hl : signAndRespondSender env ctx (s.setOurRequest ccr.identifier q) q = (ok, s', r', calls)) :
      SignResult env ctx s ccr (s'.setOurRequest ccr.identifier { r' with processed := ok || r'.processed })
        (.signAndRespond q :: calls)

section
variable {env : EnigmaEnv} {ctx : EnigmaCtx} {s s' : EnigmaWallet}

theorem EnigmaWallet.setOurRequest_cases {id j : Hash256}
    (h : (s.setOurRequest id r).mapOurCloakingRequests[j]? = some r') :
    j = id ∧ r' = r ∨ j ≠ id ∧ s.mapOurCloakingRequests[j]? = some r' := by
  by_cases hj : j = id
  · rw [hj, setOurRequest, ExtTreeMap.getElem?_insert_self, Option.some.injEq] at h
    exact .inl ⟨hj, h.symm⟩
  · rw [setOurRequest, getElem?_insert_ne _ hj] at h
    exact .inr ⟨hj, h⟩

theorem createTransactionAndRequestSign_cases (h : createTransactionAndRequestSign env ctx s r = (ok, s', r')) :
    (s' = s ∨ ∃ io, s' = s.setInOuts (r.getIdHash env) io) ∧
      ∃ raw signed, r' = { r with rawtx := raw, signedrawtx := signed } := by
  unfold createTransactionAndRequestSign at h
  split at h
  · cases h
    exact ⟨.inl rfl, _, _, rfl⟩
  split at h
  · cases h
    exact ⟨.inl rfl, _, _, rfl⟩
  dsimp only at h
  split at h <;> cases h
  · exact ⟨.inl rfl, _, _, rfl⟩
  · exact ⟨.inr ⟨_, rfl⟩, _, _, rfl⟩

variable (env ctx s) in
theorem handleCloakingAccept_cases (ccar : CCloakingAcceptResponse) :
    ∃ t seen calls, handleCloakingAccept env ctx s ccar = ({ t with sCloakingAccepts := seen }, calls) ∧
      AcceptResult env ctx s ccar t calls := by
  unfold handleCloakingAccept
  dsimp only
  split_ifs with hf
  · exact ⟨s, _, _, rfl, .ignored⟩
  refine ⟨_, _, _, rfl, ?_⟩
  unfold processAcceptResponse
  dsimp only
  split
  · exact .ignored
  rename_i r hr
  split_ifs with hst hre hse hro
  · exact .ignored
  · exact .ignored
  · exact .ignored
  · split
    · exact .ignored
    rename_i inOuts hc
    have ha : Admitted env ctx s r ccar := ⟨hf, by simpa using hst, hre, by simpa using hse, hro, by simp [hc]⟩
    split_ifs with hn
    · rcases hm : createTransactionAndRequestSign env ctx s _ with ⟨ok, s', r'⟩
      obtain ⟨hs, raw, signed, rfl⟩ := createTransactionAndRequestSign_cases hm
      exact .created hr ha hc hn.2 hs raw signed
    · exact .joined hr ha hc
  · exact .ignored

variable (env ctx s) in
theorem handleSignResponse_cases (ccr : CCloakingSignResponse) :
    ∃ t seen calls, handleSignResponse env ctx s ccr = ({ t with sSignResponses := seen }, calls) ∧
      SignResult env ctx s ccr t calls := by
  unfold handleSignResponse
  split
  · exact ⟨s, _, _, rfl, .ignored⟩
  split
  · exact ⟨s, _, _, rfl, .ignored⟩
  rename_i s' calls hp
  refine ⟨s', _, _, rfl, ?_⟩
  unfold processSignatureResponse at hp
  split at hp
  · cases hp
    exact .ignored
  rename_i r hr
  dsimp only at hp
  split_ifs at hp with ha hm hd hf <;> cases hp
  · exact .ignored
  · exact .ignored
  · exact .signed hr (Bool.eq_false_of_not_eq_true ha) rfl hf.1 rfl
  · exact .merged hr (Bool.eq_false_of_not_eq_true ha)

end

end CloakCoin.Enigma
