import CloakCoin.Lib.Format
import CloakCoin.Enigma.Sample

/-!
# CloakShield packets

`CCloakingData` and what is done to it before it is sent and after it is received: the wire format and
the hash that is signed, `Encode`, `Encrypt`, `Sign`, `Authenticate` and `Decrypt`. `ShieldEnv` holds the
ciphers, hashes and signatures, and the formats of the objects a packet carries.
-/

namespace CloakCoin.Enigma

open Chain Lib

abbrev Hash160 := Nat

/-- The types of a payload, with their numbers. -/
inductive CloakingDataType where
  | unknown | reqAccept | signRequest | signResponse | relayData | enigmaAnnouncement | enigmaDone | tx | enigmaReq
  | posBlock | enigmaMsg
  deriving DecidableEq, Repr

def CloakingDataType.code : CloakingDataType → UInt8
  | .unknown => 0
  | .reqAccept => 1
  | .signRequest => 2
  | .signResponse => 3
  | .relayData => 4
  | .enigmaAnnouncement => 5
  | .enigmaDone => 6
  | .tx => 7
  | .enigmaReq => 8
  | .posBlock => 9
  | .enigmaMsg => 10

structure CCloakingDataPayload where
  isCompressed : Bool := false
  dataType : UInt8 := CloakingDataType.code .unknown
  /-- Encrypted and encoded data. -/
  data : Bytes := []
  /-- Unencrypted data, in memory only. -/
  dataRaw : Bytes := []
  deriving DecidableEq

structure CCloakingData where
  /-- In memory only. -/
  nVersion : Int := enigmaRequestCurrentVersion
  identifier : Hash256
  senderPubKeyHex : PubKeyHex
  /-- Key hash and the wrapped one-time key, both in hex. -/
  recipientKeys : List (Bytes × Bytes) := []
  payload : CCloakingDataPayload := {}
  timestamp : UInt64
  vchSig : Bytes := []
  maxHops : UInt16 := 64
  hops : UInt16 := 0
  deriving DecidableEq

structure CCloakingMessage where
  messageCode : Int
  messageData : Bytes
  deriving DecidableEq

structure ShieldEnv extends EnigmaEnv where
  /-- The keys of the peers, and the secrets `GetSecret` derives from them. -/
  ecdh : KeyExchange PubKeyHex
  routingKey : ecdh.Priv
  pub_routingKey : ecdh.pub routingKey = myKey
  getSecret_eq : ∀ k, getSecret k = (ecdh.secret routingKey k).isSome
  /-- AES-256-CBC, which pads to whole blocks. -/
  aes : Cipher
  length_encrypt : ∀ key iv plain, (aes.encrypt key iv plain).length ≤ plain.length + 16
  /-- What a failed decryption leaves in the buffer it was given. -/
  aesRest : Bytes → KeyIv → Bytes → Bytes
  /-- `Hash` of a range of bytes. -/
  hash : Bytes → Hash256
  hash_lt : ∀ b, hash b < 256 ^ 32
  /-- The characters of a key. -/
  chars : PubKeyHex ≃ Bytes
  /-- `Hash160` of them, taken to be free of collisions. -/
  keyHash : PubKeyHex → Hash160
  keyHash_injective : Function.Injective keyHash
  /-- `GetHex` of a number, and the numbers `uint160` and `uint256` read from a string. -/
  getHex : Hash160 → Bytes
  uint160 : Bytes → Hash160
  uint256 : Bytes → Hash256
  uint160_getHex : ∀ k, uint160 (getHex (keyHash k)) = keyHash k
  getHex_ne_nil : ∀ h, getHex h ≠ []
  sign : ecdh.Priv → Hash256 → Bytes
  verify : PubKeyHex → Hash256 → Bytes → Bool
  verify_sign : ∀ k h, verify (ecdh.pub k) h (sign k h) = true
  /-- Whether reading an object succeeds, and the object it leaves. -/
  readAccept : Bytes → Bool × CCloakingAcceptResponse
  readRequest : Bytes → Bool × CCloakingRequest
  readSignResponse : Bytes → Bool × CCloakingSignResponse
  readTransaction : Bytes → Bool × CTransaction
  readMessage : Bytes → Bool × CCloakingMessage

/-! ## The wire format -/

/-- The largest vector `ReadCompactSize` lets in. -/
def maxSize : Nat := 0x02000000

namespace CCloakingDataPayload

def format : Format CCloakingDataPayload :=
  (Format.bool.pair (Format.byte.pair (Format.bytes maxSize))).map
    (fun (isCompressed, dataType, data) => { isCompressed, dataType, data })
    fun p => (p.isCompressed, p.dataType, p.data)

end CCloakingDataPayload

namespace CCloakingData

section
variable (env : ShieldEnv)

def recipientFormat : Format (List (Bytes × Bytes)) :=
  Format.list maxSize ((Format.bytes maxSize).pair (Format.bytes maxSize))

def senderFormat : Format PubKeyHex := (Format.bytes maxSize).map env.chars.symm env.chars

def format : Format CCloakingData :=
  ((Format.uint 32).pair ((senderFormat env).pair (recipientFormat.pair (CCloakingDataPayload.format.pair
    (Format.uint64.pair ((Format.bytes maxSize).pair (Format.uint16.pair Format.uint16))))))).map
    (fun (identifier, senderPubKeyHex, recipientKeys, payload, timestamp, vchSig, maxHops, hops) =>
      { identifier, senderPubKeyHex, recipientKeys, payload, timestamp, vchSig, maxHops, hops })
    fun p => (p.identifier, p.senderPubKeyHex, p.recipientKeys, p.payload, p.timestamp, p.vchSig, p.maxHops, p.hops)

def getSigningHash (p : CCloakingData) : Hash256 :=
  env.hash ((Format.uint 32).write p.identifier ++ (senderFormat env).write p.senderPubKeyHex ++
    recipientFormat.write p.recipientKeys ++ CCloakingDataPayload.format.write p.payload ++
    Format.uint64.write p.timestamp ++ Format.uint16.write p.maxHops)

def authenticate (p : CCloakingData) : Bool := env.verify p.senderPubKeyHex (p.getSigningHash env) p.vchSig

def signWith (key : env.ecdh.Priv) (p : CCloakingData) : CCloakingData :=
  { p with vchSig := env.sign key (p.getSigningHash env) }

end

/-- What a receiver gets: the fields in memory only are not sent. -/
def onWire (p : CCloakingData) : CCloakingData :=
  { p with nVersion := enigmaRequestCurrentVersion, payload := { p.payload with dataRaw := [] } }

end CCloakingData

/-! ## Encryption -/

/-- The secret shared with a user; `none` and zeros when `GetSecret` has failed. -/
structure CCloakingSecret where
  userPubKey : Option PubKeyHex
  keyIv : KeyIv

section
variable (env : ShieldEnv)

def getSecret (key : env.ecdh.Priv) (targetPubKey : PubKeyHex) : CCloakingSecret :=
  match env.ecdh.secret key targetPubKey with
  | some keyIv => ⟨some targetPubKey, keyIv⟩
  | none => ⟨none, KeyIv.zero⟩

def CCloakingSecret.getKeyHash (secret : CCloakingSecret) : Bytes :=
  match secret.userPubKey with
  | some k => env.getHex (env.keyHash k)
  | none => []

def aesInput (data : Bytes) : Option Bytes :=
  let nLen := data.length % 2 ^ 32
  if nLen < 2 ^ 31 - 16 then some (data.take nLen) else none

def encryptAES256 (data : Bytes) (k : KeyIv) : Option Bytes := (aesInput data).map (env.aes.encrypt k.key k.iv)

/-- The result, and the buffer `dataOut` afterwards. -/
def decryptAES256 (data dataOut : Bytes) (k : KeyIv) : Bool × Bytes :=
  match (aesInput data).bind (env.aes.decrypt k.key k.iv) with
  | some plain => (true, plain)
  | none => (false, env.aesRest dataOut k data)

namespace CCloakingData

/-- The type is the first byte of the data and is stripped. -/
def setRaw (p : CCloakingData) (dataRaw : Bytes) : CCloakingData :=
  { p with payload := { p.payload with dataType := dataRaw.headD 0, dataRaw := dataRaw.tail } }

/-- Decrypt, if intended for the key: the result, and the packet afterwards. -/
def decrypt (key : env.ecdh.Priv) (p : CCloakingData) : Bool × CCloakingData :=
  let pubkeyHexHash := env.getHex (env.keyHash (env.ecdh.pub key))
  if p.nVersion ≠ enigmaRequestCurrentVersion then (false, p)
  else
    match p.recipientKeys with
    | [] =>
      -- unencrypted
      if p.payload.dataRaw = [] ∧ p.payload.data ≠ [] then
        (true, { p with payload := { p.payload with dataRaw := p.payload.data, data := [] } })
      else (true, p)
    | [recipient] =>
      if recipient.1 = pubkeyHexHash then
        let secret := getSecret env key p.senderPubKeyHex
        let (unpackedOk, dataRaw) :=
          decryptAES256 env p.payload.data p.payload.dataRaw secret.keyIv
        let hash := env.hash (env.chars p.senderPubKeyHex ++ dataRaw)
        (unpackedOk && hash == p.identifier, p.setRaw dataRaw)
      else (false, p)
    | recipients =>
      match recipients.find? (·.1 == pubkeyHexHash) with
      | none => (false, p)
      | some recipient =>
        let secret := getSecret env key p.senderPubKeyHex
        -- whether the one-time key could be decrypted is not looked at
        let oneTime := KeyIv.ofBytes (decryptAES256 env (parseHex recipient.2) [] secret.keyIv).2
        let (unpackedOk, dataRaw) := decryptAES256 env p.payload.data p.payload.dataRaw oneTime
        (unpackedOk, p.setRaw dataRaw)

def wrapKeys (oneTime : KeyIv) (recipientSecrets : List CCloakingSecret) : List (Bytes × Bytes) :=
  recipientSecrets.filterMap fun secret =>
    (encryptAES256 env oneTime.bytes secret.keyIv).map fun vchUserKey =>
      (secret.getKeyHash env, hexStr vchUserKey)

/-- The key for the data, and the table sent along with it. -/
def keysFor (oneTime : KeyIv) : List CCloakingSecret → KeyIv × List (Bytes × Bytes)
  | [secret] => (secret.keyIv, [(secret.getKeyHash env, [])])
  | secrets => (oneTime, wrapKeys env oneTime secrets)

def encrypt (oneTime : KeyIv) (recipientSecrets : List CCloakingSecret) (myPubkeyHex : PubKeyHex)
    (p : CCloakingData) : Bool × CCloakingData :=
  let (secret, recipientKeys) := keysFor env oneTime recipientSecrets
  -- the type is put in front, so that the packet must be decrypted to see it
  let dataRaw := p.payload.dataType :: p.payload.dataRaw
  let p := { p with recipientKeys, identifier := env.hash (env.chars myPubkeyHex ++ dataRaw) }
  match encryptAES256 env dataRaw secret with
  | some data => (true, { p with payload := { p.payload with data, dataRaw := [] } })
  | none => (false, { p with payload := { p.payload with dataRaw } })

def new (identifier : Hash256) (timestamp : UInt64) : CCloakingData :=
  { identifier, senderPubKeyHex := env.chars.symm [], timestamp }

def encode (data : Bytes) (cloakDataType : CloakingDataType) (key : env.ecdh.Priv) (p : CCloakingData) :
    CCloakingData :=
  signWith env key
    { p with
      payload := { p.payload with data, dataRaw := data, dataType := cloakDataType.code }
      senderPubKeyHex := env.myKey }

def encodeEncrypt (data : Bytes) (cloakDataType : CloakingDataType) (oneTime : KeyIv)
    (recipients : List CCloakingSecret) (key : env.ecdh.Priv) (p : CCloakingData) : Bool × CCloakingData :=
  match encrypt env oneTime recipients (env.ecdh.pub key) (encode env data cloakDataType key p) with
  | (true, p) => (true, signWith env key { p with senderPubKeyHex := env.ecdh.pub key })
  | (false, p) => (false, p)

end CCloakingData

end

namespace Sample

/-! ## Strings as numbers: digits 1 to 256, the least significant first -/

def toChars : Nat → Nat → Bytes
  | 0, _ => []
  | _, 0 => []
  | fuel + 1, n + 1 => UInt8.ofNat (n % 256) :: toChars fuel (n / 256)

def ofChars : Bytes → Nat
  | [] => 0
  | c :: rest => c.toNat + 1 + 256 * ofChars rest

theorem ofChars_toChars (h : n ≤ fuel) : ofChars (toChars fuel n) = n := by
  induction fuel generalizing n with
  | zero =>
    obtain rfl : n = 0 := by omega
    rfl
  | succ fuel ih =>
    cases n with
    | zero => rfl
    | succ n =>
      rw [toChars, ofChars, ih (by omega), UInt8.toNat_ofNat']
      omega

theorem toChars_ofChars (h : ofChars b ≤ fuel) : toChars fuel (ofChars b) = b := by
  induction b generalizing fuel with
  | nil =>
    cases fuel <;> rfl
  | cons c rest ih =>
    rw [ofChars] at h
    cases fuel with
    | zero => omega
    | succ fuel =>
      have hc := c.toNat_lt
      have hs : ofChars (c :: rest) = c.toNat + 256 * ofChars rest + 1 := by rw [ofChars]; omega
      rw [hs, toChars, Nat.add_mul_mod_self_left, Nat.mod_eq_of_lt hc, UInt8.ofNat_toNat,
        Nat.add_mul_div_left _ _ (by norm_num), Nat.div_eq_of_lt hc, Nat.zero_add, ih (by omega)]

def chars : PubKeyHex ≃ Bytes where
  toFun n := toChars n n
  invFun := ofChars
  left_inv _ := ofChars_toChars le_rfl
  right_inv _ := toChars_ofChars le_rfl

/-! ## A cipher that appends a byte of the key -/

def encrypt (key _iv plain : Bytes) : Bytes := plain ++ [key.getLastD 0]

def decrypt (key _iv text : Bytes) : Option Bytes :=
  if text.getLast? = some (key.getLastD 0) then some text.dropLast else none

def aes : Cipher where
  encrypt := encrypt
  decrypt := decrypt
  decrypt_encrypt := fun key iv plain => by
    rw [decrypt, encrypt, List.getLast?_concat, if_pos rfl, List.dropLast_concat]
  length_decrypt := fun key iv text plain h => by
    unfold decrypt at h
    split_ifs at h with hlast
    cases h
    cases text with
    | nil => cases hlast
    | cons x rest => simp

def ecdh : KeyExchange PubKeyHex where
  Priv := Nat
  pub := fun k => k
  secret := fun a b => some ⟨toBytes 32 (a + b), toBytes 16 (a + b), length_toBytes _ _, length_toBytes _ _⟩
  agree := fun a b => by simp only [Nat.add_comm]
  isSome_secret := fun _ _ => rfl

def sign (k : Nat) (h : Hash256) : Bytes := toBytes 33 (k + h)

def verify (k : PubKeyHex) (h : Hash256) (sig : Bytes) : Bool := sig == sign k h

theorem verify_sign (k : Nat) (h : Hash256) : verify k h (sign k h) = true := by rw [verify, beq_self_eq_true]

noncomputable def shieldEnv (req : CCloakingRequest) (car : CCloakingAcceptResponse) : ShieldEnv :=
  { env [] with
    ecdh := ecdh
    routingKey := (1 : Nat)
    pub_routingKey := rfl
    getSecret_eq := fun _ => rfl
    aes := aes
    length_encrypt := fun key iv plain => by simp [aes, encrypt]
    aesRest := fun dataOut _ _ => dataOut
    hash := fun b => ofBytes b % 256 ^ 32
    hash_lt := fun _ => Nat.mod_lt _ (by positivity)
    chars := chars
    keyHash := fun k => k
    keyHash_injective := fun _ _ h => h
    getHex := unary
    uint160 := fun b => b.length - 1
    uint256 := ofBytes
    uint160_getHex := fun k => by simp [unary]
    getHex_ne_nil := fun h => by simp [unary]
    sign := sign
    verify := verify
    verify_sign := verify_sign
    readAccept := fun _ => (true, car)
    readRequest := fun _ => (true, req)
    readSignResponse := fun _ => (true, ⟨2, 101, []⟩)
    readTransaction := fun _ => (true, funding)
    readMessage := fun b => (true, ⟨(b.headD 0).toNat, b.tail⟩) }

end Sample

end CloakCoin.Enigma
