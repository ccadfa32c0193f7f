import CloakCoin.Enigma.Sender

/-!
# The cloaker's side of an Enigma send

A cloaker accepts requests of others, reserving coins for each (`ProcessRequest`), and later signs the
joint transaction it is sent if the one-time addresses of the wallet get at least the value of its
inputs (`HandleSignRequest`, `SignAndRespond` with `participantSigning`).
-/

namespace CloakCoin.Enigma

open Chain Lib Wallet
open Std (ExtTreeMap)

/-- What a cloaker finds outside its wallet. -/
structure CloakerCtx extends EnigmaCtx where
  view : ChainView
  /-- Onion routing is wanted and there are not enough nodes for it. -/
  onionRoutingMissing : Bool
  isLocked : Bool
  fWalletUnlockMintOnly : Bool
  /-- `GetBoolArg("-mincloakers", MIN_CLOAKERS)`, a truth value although it is compared with a number. -/
  minCloakers : Bool
  getBalance : CWallet → Int
  /-- The outcome of `GetEnigmaAddress`. -/
  enigmaAddress : CStealthAddress

section
variable (env : EnigmaEnv) (ctx : CloakerCtx)

/-! ## `ProcessRequest` -/

variable (s : EnigmaWallet) (r : CCloakingRequest)

/-- Reserve coins for a request: the wallet, and the inputs offered. -/
def getCloakingInputsMine : Option (EnigmaWallet × CCloakingInputsOutputs) :=
  let vCoins := ctx.shuffle.apply (s.wallet.availableCoins ctx.view true)
  let amt := int64 (r.nSendAmount + minTxoutAmount)
  match s.wallet.selectCoinsMinConf .word amt ctx.now 1 6 vCoins ctx.rng with
  | none => none
  | some (setCoins, nValue) =>
    let inOuts : CCloakingInputsOutputs :=
      { vin := setCoins.map fun coin => { prevout := coin.outPoint }
        stealthHash := env.privateHash ctx.enigmaAddress
        nSendAmount := int64 r.nSendAmount
        nInputAmount := nValue }
    let s := { s with wallet := (setCoins.map COutput.outPoint).foldl CWallet.reserveCoin s.wallet }
    some (s.setInOuts (r.getIdHash env) inOuts, inOuts)

/-- The request is not known, and we can and want to take part in it. -/
def acceptsRequest : Bool :=
  !s.mapOurCloakingRequests.contains (r.getIdHash env) && !s.mapCloakingRequests.contains (r.getIdHash env) &&
    (!ctx.isLocked || ctx.fWalletUnlockMintOnly) &&
    decide ((r.sParticipants.length : Int) < r.nParticipantsRequired) && !r.isExpired ctx.now &&
    decide (r.nParticipantsRequired ≥ if ctx.minCloakers then 1 else 0) &&
    decide (uint64 (ctx.getBalance s.wallet) > uint64 (r.numSplitsRequired * r.nSendAmount))

def processRequest : EnigmaWallet :=
  let idhash := r.getIdHash env
  if r.nVersion ≠ enigmaRequestCurrentVersion then s
  else if idhash ∈ s.sRequestHashes then s -- already handled
  else if ctx.onionRoutingMissing then s
  else if acceptsRequest env ctx s r then
    match getCloakingInputsMine env ctx s r with
    | none => s -- need to stake
    | some (s, inOuts) =>
      let car : CCloakingAcceptResponse := ⟨idhash, ⟨env.myKey, ctx.enigmaAddress.encoded, inOuts⟩⟩
      { s with
        sCloakingAccepts := env.acceptHash car :: s.sCloakingAccepts
        -- `EncodeEncryptTransmit` drops the result of `Transmit`
        mapCloakingRequests := s.mapCloakingRequests.insert idhash r
        sRequestHashes := idhash :: s.sRequestHashes }
  else { s with sRequestHashes := idhash :: s.sRequestHashes }

/-! ## What the joint transaction pays us -/

/-- The destination of the one-time address with index `i`. -/
def oneTimeAddress (sa : CStealthAddress) (rootKey : List UInt8) (i : Nat) : Option CTxDestination :=
  extractDestination env (scriptForKeyID (env.enigmaKey sa.encoded rootKey (env.privateHash sa) i))

variable (addresses : List CStealthAddress) (rootKey : List UInt8)

def addressLookup (d : CTxDestination) : Option CStealthAddress :=
  addresses.reverse.find? fun sa => sa.isOwned && decide (oneTimeAddress env sa rootKey 0 = some d)

def generatedKeyIds (sa : CStealthAddress) (rootKey : List UInt8) (num : Nat) : List CTxDestination :=
  ((getEnigmaChangeAddresses env sa.encoded rootKey (env.privateHash sa) num 1).getD []).filterMap fun script =>
    match extractDestination env script with
    | some (.keyID id) => some (.keyID id)
    | _ => none

variable (vout : List CTxOut)

def innerAmount (keyIds : List CTxDestination) (txout : CTxOut) : Int :=
  (vout.map fun txoutInner =>
    if txout = txoutInner then 0
    else
      match extractDestination env txoutInner.scriptPubKey with
      | some d => if d ∈ keyIds then txoutInner.nValue else 0
      | none => 0).sum

/-- The stealth address whose first one-time address the output pays. -/
def outerAddress (txoutStealthNonce txout : CTxOut) : Option CStealthAddress :=
  if txout = txoutStealthNonce then none
  else
    match extractDestination env txout.scriptPubKey with
    | some (.keyID id) => addressLookup env addresses rootKey (.keyID id)
    | _ => none

def outerAmount (txoutStealthNonce txout : CTxOut) : Int :=
  match outerAddress env addresses rootKey txoutStealthNonce txout with
  | some sa => txout.nValue + innerAmount env vout (generatedKeyIds env sa rootKey vout.length) txout
  | none => 0

def getEnigmaOutputsAmounts (rootKey : List UInt8) : Nat :=
  match vout.getLast? with
  | none => 0
  | some txoutStealthNonce =>
    if txoutStealthNonce.nValue ≠ minTxoutAmount then 0
    else if (extractDestination env txoutStealthNonce.scriptPubKey).isSome then 0
    else uint64 (vout.map (outerAmount env addresses rootKey vout txoutStealthNonce)).sum

/-! ## `HandleSignRequest` -/

/-- Signatures sent out: the transaction as signed, and the outputs of ours it spends. -/
structure Release where
  tx : CTransaction
  inputs : List COutPoint
  deriving DecidableEq

/-- The joint transaction with our signatures, if it pays us enough. -/
def signedByCloaker (inoutsMine : CCloakingInputsOutputs) (jointTrans : CTransaction) : Option CTransaction :=
  if !inoutsMine.vin.all fun invMine => decide (invMine ∈ jointTrans.vin) then none
  else
    match getStealthEphemPK jointTrans.vout with
    | none => none
    | some vchEphemPK =>
      if getEnigmaOutputsAmounts env s.stealthAddresses jointTrans.vout vchEphemPK < uint64 inoutsMine.nInputAmount then
        none -- change too small
      else
        match jointTrans.vin.mapM (fetchPrevOut ctx.toEnigmaCtx) with
        | none => none
        | some mapPrevOut => (signInputs env inoutsMine.vin mapPrevOut jointTrans).map Prod.fst

/-- Sign a joint transaction as a cloaker and send the signatures. -/
def signAndRespond (csr : CCloakingRequest) : EnigmaWallet × Option Release :=
  let idhash := csr.getIdHash env
  match s.mapCloakingRequests[idhash]?, csr.signedrawtx, s.mapCloakingInputsOutputs[idhash]? with
  | some reqOurCopy, some (jointTrans :: _), some inoutsMine =>
    if env.myKey ∈ reqOurCopy.signedByAddresses then (s, none) -- already signed by me
    else
      match signedByCloaker env ctx s inoutsMine jointTrans with
      | none => (s, none)
      | some signed =>
        let ours := (jointTrans.vin.filter fun txin => decide (txin ∈ inoutsMine.vin)).map CTxIn.prevout
        let inoutsMine := { inoutsMine with requestSigned := true, lockedUntilBlock := ctx.nBestHeight + 1 }
        (s.setInOuts idhash inoutsMine, some ⟨signed, ours⟩)
  | _, _, _ => (s, none)

def handleSignRequest (csr : CCloakingRequest) : EnigmaWallet × Option Release :=
  let hashReq := csr.getIdHash env
  if hashReq ∈ s.sSignRequestHashes then (s, none)
  else
    let (s, release) := if csr.aborted then (s, none) else signAndRespond env ctx s csr
    ({ s with sSignRequestHashes := hashReq :: s.sSignRequestHashes }, release)

end

/-! ## What the handlers do to the wallet -/

section
variable {env : EnigmaEnv} {ctx : CloakerCtx} {s : EnigmaWallet} {r : CCloakingRequest}

structure Offered (env : EnigmaEnv) (ctx : CloakerCtx) (s s' : EnigmaWallet) (r : CCloakingRequest)
    (io : CCloakingInputsOutputs) : Prop where
  accepts : acceptsRequest env ctx s r = true
  fresh : r.getIdHash env ∉ s.sRequestHashes
  chosen : Chosen s.wallet (io.vin.map CTxIn.prevout) io.nInputAmount
  bound : ((io.vin.map CTxIn.prevout).map s.wallet.coinValue).sum ≤
    ((s.wallet.availableCoins ctx.view true).map COutput.nValue).sum
  wallet : s'.wallet = (io.vin.map CTxIn.prevout).foldl CWallet.reserveCoin s.wallet
  inOuts : s'.mapCloakingInputsOutputs = s.mapCloakingInputsOutputs.insert (r.getIdHash env) io
  ours : s'.mapOurCloakingRequests = s.mapOurCloakingRequests
  others : s'.mapCloakingRequests = s.mapCloakingRequests.insert (r.getIdHash env) r
  addresses : s'.stealthAddresses = s.stealthAddresses
  handled : s'.sRequestHashes = r.getIdHash env :: s.sRequestHashes

structure SameReservations (s s' : EnigmaWallet) : Prop where
  wallet : s'.wallet = s.wallet
  inOuts : s'.mapCloakingInputsOutputs = s.mapCloakingInputsOutputs
  ours : s'.mapOurCloakingRequests = s.mapOurCloakingRequests
  others : s'.mapCloakingRequests = s.mapCloakingRequests
  addresses : s'.stealthAddresses = s.stealthAddresses
  handled : s.sRequestHashes ⊆ s'.sRequestHashes

theorem processRequest_cases (env : EnigmaEnv) (ctx : CloakerCtx) (s : EnigmaWallet) (r : CCloakingRequest) :
    SameReservations s (processRequest env ctx s r) ∨ ∃ io, Offered env ctx s (processRequest env ctx s r) r io := by
  have hs : SameReservations s s := ⟨rfl, rfl, rfl, rfl, rfl, List.Subset.refl _⟩
  unfold processRequest
  dsimp only
  split
  · exact .inl hs
  split
  · exact .inl hs
  rename_i hf
  split
  · exact .inl hs
  split
  · rename_i ha
    unfold getCloakingInputsMine
    dsimp only
    cases hse : s.wallet.selectCoinsMinConf .word (int64 (r.nSendAmount + minTxoutAmount)) ctx.now 1 6
      (ctx.shuffle.apply (s.wallet.availableCoins ctx.view true)) ctx.rng with
    | none => exact .inl hs
    | some chosen =>
      obtain ⟨coins, value⟩ := chosen
      obtain ⟨hc, hb⟩ := CWallet.chosen_of_select (ctx.shuffle.perm _) hse
      have hv : coins.map COutput.outPoint =
          (coins.map fun coin => ({ prevout := coin.outPoint } : CTxIn)).map CTxIn.prevout := by
        rw [List.map_map]
        rfl
      rw [hv] at hc hb
      dsimp only
      rw [hv]
      exact .inr ⟨_, ha, hf, hc, hb, rfl, rfl, rfl, rfl, rfl, rfl⟩
  · exact .inl ⟨rfl, rfl, rfl, rfl, rfl, List.subset_cons_self _ _⟩

def KeepsInputs (s s' : EnigmaWallet) : Prop :=
  ∀ (id : Hash256) io, s'.mapCloakingInputsOutputs[id]? = some io →
    ∃ (id' : Hash256) (io' : CCloakingInputsOutputs), s.mapCloakingInputsOutputs[id']? = some io' ∧
      io'.vin = io.vin ∧ io'.nInputAmount = io.nInputAmount

end

namespace Sample

def cloakerCtx : CloakerCtx where
  toEnigmaCtx := ctx
  view := ⟨fun _ => true, fun _ => true, fun _ => 0, fun _ => 10⟩
  onionRoutingMissing := false
  isLocked := false
  fWalletUnlockMintOnly := false
  minCloakers := true
  getBalance := fun _ => 9 * coin
  enigmaAddress := ⟨1, true⟩

def cloaker : EnigmaWallet :=
  { wallet ⟨(∅ : Std.ExtTreeMap Hash256 CWalletTx).insert 1 { tx := funding }, [[7], [8]], fun _ => [], 0⟩ [] with
    stealthAddresses := [⟨1, true⟩] }

end Sample

end CloakCoin.Enigma
