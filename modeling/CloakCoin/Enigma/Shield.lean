import CloakCoin.Enigma.Packet

/-!
# CloakShield encryption and onions

A packet that `Encrypt` made is opened by the keys it was encrypted for and by no others, and a route of
onion layers is undone hop by hop.
-/

namespace CloakCoin.Enigma

open Chain Lib
open CCloakingData List

variable {data : Bytes} {oneTime : KeyIv} {p : CCloakingData}

/-! ## The cipher -/

section
variable (env : ShieldEnv)

theorem aesInput_of_lt (h : data.length + 16 < 2 ^ 31) : aesInput data = some data := by
  have hl : data.length % 2 ^ 32 = data.length := Nat.mod_eq_of_lt (by omega)
  unfold aesInput
  rw [hl, if_pos (by omega), take_length]

theorem encryptAES256_of_lt (h : data.length + 16 < 2 ^ 31) (k : KeyIv) :
    encryptAES256 env data k = some (env.aes.encrypt k.key k.iv data) := by
  rw [encryptAES256, aesInput_of_lt h, Option.map_some]

theorem decryptAES256_encrypt (h : data.length + 32 < 2 ^ 31) (dataOut : Bytes) (k : KeyIv) :
    decryptAES256 env (env.aes.encrypt k.key k.iv data) dataOut k = (true, data) := by
  have hp := env.length_encrypt k.key k.iv data
  have hl : (env.aes.encrypt k.key k.iv data).length + 16 < 2 ^ 31 := by omega
  rw [decryptAES256, aesInput_of_lt hl, Option.bind_some, env.aes.decrypt_encrypt]

/-! ## Secrets -/

variable (key k : env.ecdh.Priv)

theorem getSecret_pub : ∃ keyIv, getSecret env key (env.ecdh.pub k) = ⟨some (env.ecdh.pub k), keyIv⟩ ∧
      getSecret env k (env.ecdh.pub key) = ⟨some (env.ecdh.pub key), keyIv⟩ := by
  obtain ⟨keyIv, hs⟩ := Option.isSome_iff_exists.mp (env.ecdh.isSome_secret key k)
  have ha : env.ecdh.secret k (env.ecdh.pub key) = some keyIv := by rw [← env.ecdh.agree, hs]
  refine ⟨keyIv, ?_, ?_⟩
  · rw [getSecret, hs]
  · rw [getSecret, ha]

theorem keyIv_getSecret : (getSecret env k (env.ecdh.pub key)).keyIv = (getSecret env key (env.ecdh.pub k)).keyIv := by
  obtain ⟨keyIv, h1, h2⟩ := getSecret_pub env key k
  rw [h1, h2]

theorem getKeyHash_getSecret (q : PubKeyHex) :
    (getSecret env key q).getKeyHash env = env.getHex (env.keyHash (env.ecdh.pub k)) ↔ q = env.ecdh.pub k := by
  constructor
  · intro h
    unfold getSecret at h
    split at h
    · have hh := congrArg env.uint160 h
      rw [CCloakingSecret.getKeyHash, env.uint160_getHex, env.uint160_getHex] at hh
      exact env.keyHash_injective hh
    · exact absurd h.symm (env.getHex_ne_nil _)
  · rintro rfl
    obtain ⟨keyIv, h1, -⟩ := getSecret_pub env key k
    rw [h1, CCloakingSecret.getKeyHash]

/-! ## Opening a packet -/

/-- The entry for one of several recipients. -/
def wrappedKey (key : env.ecdh.Priv) (oneTime : KeyIv) (q : PubKeyHex) : Bytes × Bytes :=
  let secret := getSecret env key q
  (secret.getKeyHash env, hexStr (env.aes.encrypt secret.keyIv.key secret.keyIv.iv oneTime.bytes))

theorem wrapKeys_eq (key : env.ecdh.Priv) (oneTime : KeyIv) (pubs : List PubKeyHex) :
    wrapKeys env oneTime (pubs.map (getSecret env key)) = pubs.map (wrappedKey env key oneTime) := by
  have hf : oneTime.bytes.length + 16 < 2 ^ 31 := by
    rw [KeyIv.length_bytes]
    omega
  rw [wrapKeys, filterMap_map, ← filterMap_eq_map]
  congr 1
  funext q
  rw [Function.comp_apply, encryptAES256_of_lt env hf, Option.map_some]
  rfl

theorem find?_wrappedKey {key k : env.ecdh.Priv} {pubs : List PubKeyHex} (hm : env.ecdh.pub k ∈ pubs) :
    (pubs.map (wrappedKey env key oneTime)).find? (·.1 == env.getHex (env.keyHash (env.ecdh.pub k))) =
      some (wrappedKey env key oneTime (env.ecdh.pub k)) := by
  induction pubs with
  | nil => cases hm
  | cons q pubs ih =>
    rw [map_cons, find?_cons]
    by_cases hq : q = env.ecdh.pub k
    · have hh : (wrappedKey env key oneTime q).1 == env.getHex (env.keyHash (env.ecdh.pub k)) :=
        beq_iff_eq.mpr ((getKeyHash_getSecret env key k q).mpr hq)
      rw [hh, hq]
    have hh : ((wrappedKey env key oneTime q).1 == env.getHex (env.keyHash (env.ecdh.pub k))) = false :=
      beq_eq_false_iff_ne.mpr fun h => hq ((getKeyHash_getSecret env key k q).mp h)
    rw [hh]
    exact ih ((mem_cons.mp hm).resolve_left fun h => hq h.symm)

structure Sealed (key : env.ecdh.Priv) (oneTime : KeyIv) (pubs : List PubKeyHex) (dataRaw : Bytes)
    (p : CCloakingData) : Prop where
  version : p.nVersion = enigmaRequestCurrentVersion
  sender : p.senderPubKeyHex = env.ecdh.pub key
  recipients : p.recipientKeys = (keysFor env oneTime (pubs.map (getSecret env key))).2
  identifier : p.identifier = env.hash (env.chars (env.ecdh.pub key) ++ dataRaw)
  data : p.payload.data =
    let secret := (keysFor env oneTime (pubs.map (getSecret env key))).1
    env.aes.encrypt secret.key secret.iv dataRaw

namespace Sealed

variable {env} {key : env.ecdh.Priv} {oneTime : KeyIv} {pubs : List PubKeyHex} {dataRaw : Bytes} {p : CCloakingData}

section
variable (h : Sealed env key oneTime pubs dataRaw p)
include h

theorem setRaw (raw : Bytes) : Sealed env key oneTime pubs dataRaw (p.setRaw raw) :=
  ⟨h.version, h.sender, h.recipients, h.identifier, h.data⟩

theorem onWire : Sealed env key oneTime pubs dataRaw p.onWire :=
  ⟨rfl, h.sender, h.recipients, h.identifier, h.data⟩

theorem decrypt (hl : dataRaw.length + 32 < 2 ^ 31) {k : env.ecdh.Priv}
    (hk : env.ecdh.pub k ∈ pubs) : decrypt env k p = (true, p.setRaw dataRaw) := by
  have hr := h.recipients
  have hd := h.data
  unfold CCloakingData.decrypt
  rw [if_neg (not_not.mpr h.version)]
  match pubs, hk with
  | [q], hk =>
    obtain rfl := mem_singleton.mp hk
    have hh := (getKeyHash_getSecret env key k _).mpr rfl
    rw [map_singleton, keysFor] at hr hd
    rw [hr]
    dsimp only
    rw [if_pos hh, h.sender, keyIv_getSecret, hd, decryptAES256_encrypt env hl]
    rw [h.identifier, beq_self_eq_true, Bool.and_self]
  | q :: q' :: rest, hk =>
    have hke : keysFor env oneTime ((q :: q' :: rest).map (getSecret env key)) =
        (oneTime, (q :: q' :: rest).map (wrappedKey env key oneTime)) := by
      rw [← wrapKeys_eq]
      rfl
    have ho : (oneTime.bytes).length + 32 < 2 ^ 31 := by
      rw [KeyIv.length_bytes]
      omega
    rw [hke] at hr hd
    rw [hr, map_cons, map_cons]
    dsimp only
    rw [← map_cons, ← map_cons, find?_wrappedKey env hk]
    dsimp only [wrappedKey]
    rw [h.sender, keyIv_getSecret, parseHex_hexStr, decryptAES256_encrypt env ho]
    rw [KeyIv.ofBytes_bytes, hd, decryptAES256_encrypt env hl]

theorem decrypt_unlisted {k : env.ecdh.Priv} (hne : pubs ≠ [])
    (hk : env.ecdh.pub k ∉ pubs) : CCloakingData.decrypt env k p = (false, p) := by
  have hre := h.recipients
  unfold CCloakingData.decrypt
  rw [if_neg (not_not.mpr h.version)]
  match pubs, hne, hk with
  | [q], _, hk =>
    have hh : ¬(getSecret env key q).getKeyHash env = env.getHex (env.keyHash (env.ecdh.pub k)) := fun he =>
      hk (mem_singleton.mpr ((getKeyHash_getSecret env key k q).mp he).symm)
    rw [map_singleton, keysFor] at hre
    rw [hre]
    dsimp only
    rw [if_neg hh]
  | q :: q' :: rest, _, hk =>
    have hke : (keysFor env oneTime ((q :: q' :: rest).map (getSecret env key))).2 =
        (q :: q' :: rest).map (wrappedKey env key oneTime) := by
      rw [← wrapKeys_eq]
      rfl
    have hn : ((q :: q' :: rest).map (wrappedKey env key oneTime)).find?
        (·.1 == env.getHex (env.keyHash (env.ecdh.pub k))) = none := by
      refine find?_eq_none.mpr fun r hr hh => ?_
      obtain ⟨q'', hq'', rfl⟩ := mem_map.mp hr
      have hp := (getKeyHash_getSecret env key k q'').mp (beq_iff_eq.mp hh)
      rw [hp] at hq''
      exact hk hq''
    rw [hre, hke, map_cons, map_cons]
    dsimp only
    rw [← map_cons, ← map_cons, hn]

end

end Sealed

theorem encrypt_sealed {key : env.ecdh.Priv} (oneTime : KeyIv) (pubs : List PubKeyHex)
    (hv : p.nVersion = enigmaRequestCurrentVersion) (hs : p.senderPubKeyHex = env.ecdh.pub key)
    (hl : p.payload.dataRaw.length + 33 < 2 ^ 31) :
    (encrypt env oneTime (pubs.map (getSecret env key)) (env.ecdh.pub key) p).1 = true ∧
      Sealed env key oneTime pubs (p.payload.dataType :: p.payload.dataRaw)
        (encrypt env oneTime (pubs.map (getSecret env key)) (env.ecdh.pub key) p).2 := by
  have hf : (p.payload.dataType :: p.payload.dataRaw).length + 16 < 2 ^ 31 := by
    rw [length_cons]
    omega
  unfold encrypt
  dsimp only
  rw [encryptAES256_of_lt env hf]
  exact ⟨rfl, hv, hs, rfl, rfl, rfl⟩

end

/-! ## Onions -/

/-- The nodes of a hop, and what `Transmit` draws for its layer. -/
structure OnionHop where
  nodes : List PubKeyHex
  oneTime : KeyIv
  identifier : Hash256
  timestamp : UInt64

section
variable (env : ShieldEnv)

def wrap (p : CCloakingData) (hop : OnionHop) : CCloakingData :=
  (encodeEncrypt env ((format env).write p) .relayData hop.oneTime
    (hop.nodes.map (getSecret env env.routingKey)) env.routingKey (new env hop.identifier hop.timestamp)).2

/-- The complete onion; the first hop of the list is the innermost. -/
def onion (route : List OnionHop) (p : CCloakingData) : CCloakingData := route.foldl (wrap env) p

/-- Strip a layer: decrypt, and decode the packet it holds. -/
def strip (p : CCloakingData) (key : env.ecdh.Priv) : Option CCloakingData :=
  match decrypt env key p with
  | (true, p) =>
    if p.payload.dataType = CloakingDataType.code .relayData then
      ((format env).read p.payload.dataRaw).map Prod.fst
    else none
  | (false, _) => none

/-- The packet can be read back from its serialization. -/
structure WireFits (p : CCloakingData) : Prop where
  identifier : p.identifier < 256 ^ 32
  sender : (env.chars p.senderPubKeyHex).length ≤ maxSize
  recipients : p.recipientKeys.length ≤ maxSize
  keys : ∀ r ∈ p.recipientKeys, r.1.length ≤ maxSize ∧ r.2.length ≤ maxSize
  data : p.payload.data.length ≤ maxSize
  sig : p.vchSig.length ≤ maxSize
  size : ((format env).write p).length + 33 < 2 ^ 31

variable {env}

theorem bytes_ok {b : Bytes} (h : b.length ≤ maxSize) : (Format.bytes maxSize).Ok b := by
  refine ⟨lt_of_le_of_lt h ?_, h⟩
  unfold maxSize
  norm_num

theorem read_write (h : WireFits env p) (rest : Bytes) :
    (format env).read ((format env).write p ++ rest) = some (p.onWire, rest) := by
  have hre : recipientFormat.Ok p.recipientKeys :=
    ⟨⟨lt_of_le_of_lt h.recipients (by unfold maxSize; norm_num), h.recipients⟩,
      fun r hr => ⟨bytes_ok (h.keys r hr).1, bytes_ok (h.keys r hr).2⟩⟩
  have hs : (senderFormat env).Ok p.senderPubKeyHex := ⟨bytes_ok h.sender, env.chars.symm_apply_apply _⟩
  have hp : CCloakingDataPayload.format.Ok { p.payload with dataRaw := [] } :=
    ⟨⟨Format.bool_ok _, trivial, bytes_ok h.data⟩, rfl⟩
  have hsa : (format env).write p = (format env).write p.onWire := rfl
  rw [hsa]
  exact (format env).read_write p.onWire ⟨⟨h.identifier, hs, hre, hp, Format.uint64_ok _,
    bytes_ok h.sig, Format.uint16_ok _, Format.uint16_ok _⟩, rfl⟩ rest

-- from here on only `read_write` is used of the format
attribute [local irreducible] CCloakingData.format

theorem wrap_sealed (hop : OnionHop) (h : WireFits env p) :
    Sealed env env.routingKey hop.oneTime hop.nodes (CloakingDataType.code .relayData :: (format env).write p)
      (wrap env p hop) := by
  have hs := encrypt_sealed env hop.oneTime hop.nodes
    (p := encode env ((format env).write p) .relayData env.routingKey (new env hop.identifier hop.timestamp))
    rfl env.pub_routingKey.symm h.size
  unfold wrap encodeEncrypt
  split
  · rename_i q hq
    rw [hq] at hs
    exact ⟨hs.2.version, rfl, hs.2.recipients, hs.2.identifier, hs.2.data⟩
  · rename_i q hq
    rw [hq] at hs
    exact absurd hs.1 Bool.false_ne_true

theorem Sealed.strip {key k : env.ecdh.Priv} {pubs : List PubKeyHex} {q : CCloakingData}
    (h : Sealed env key oneTime pubs (CloakingDataType.code .relayData :: (format env).write q) p) (hq : WireFits env q)
    (hk : env.ecdh.pub k ∈ pubs) : strip env p k = some q.onWire := by
  have hl : (CloakingDataType.code .relayData :: (format env).write q).length + 32 < 2 ^ 31 := by
    have hs := hq.size
    omega
  have hr := read_write hq []
  rw [append_nil] at hr
  unfold Enigma.strip
  rw [h.decrypt hl hk]
  dsimp only [CCloakingData.setRaw, headD_cons, tail_cons]
  rw [if_pos rfl, hr, Option.map_some]

theorem strip_wrap {hop : OnionHop} {k : env.ecdh.Priv} (h : WireFits env p)
    (hk : env.ecdh.pub k ∈ hop.nodes) : strip env (wrap env p hop).onWire k = some p.onWire :=
  (wrap_sealed hop h).onWire.strip h hk

theorem foldlM_strip_onion {inner outer : List OnionHop} {keys : List env.ecdh.Priv}
    (hf : ∀ l hop l', inner ++ outer = l ++ hop :: l' → WireFits env (onion env l p))
    (hke : List.Forall₂ (fun hop k => env.ecdh.pub k ∈ hop.nodes) outer.reverse keys) :
    keys.foldlM (strip env) (onion env (inner ++ outer) p).onWire = some (onion env inner p).onWire := by
  induction outer using List.reverseRecOn generalizing keys with
  | nil =>
    cases hke
    rw [append_nil]
    rfl
  | append_singleton outer hop ih =>
    rw [reverse_concat] at hke
    cases hke with
    | cons hk hke =>
      have hla : onion env (inner ++ (outer ++ [hop])) p = wrap env (onion env (inner ++ outer) p) hop := by
        rw [onion, ← append_assoc, foldl_concat]
        rfl
      rw [hla, foldlM_cons,
        strip_wrap (hf (inner ++ outer) hop [] (by rw [append_assoc])) hk]
      refine ih (fun l ho' l' hl => hf l ho' (l' ++ [hop]) ?_) hke
      rw [← append_assoc, hl, append_assoc, cons_append]

end

/-! ## Both together -/

/-- The listed keys restore the payload, once and again; no other key does. -/
structure RoundTrip (env : ShieldEnv) (pubs : List PubKeyHex) (p sent : CCloakingData) : Prop where
  listed : ∀ k, env.ecdh.pub k ∈ pubs → (decrypt env k sent).1 = true ∧
    (decrypt env k sent).2.payload.dataRaw = p.payload.dataRaw ∧
    (decrypt env k sent).2.payload.dataType = p.payload.dataType ∧
    decrypt env k (decrypt env k sent).2 = decrypt env k sent
  unlisted : ∀ k, env.ecdh.pub k ∉ pubs → (decrypt env k sent).1 = false

theorem shield_round_trip (env : ShieldEnv) :
    (∀ (key : env.ecdh.Priv) (oneTime : KeyIv) (pubs : List PubKeyHex) (p : CCloakingData),
      pubs ≠ [] → p.nVersion = enigmaRequestCurrentVersion → p.senderPubKeyHex = env.ecdh.pub key →
      p.payload.dataRaw.length + 33 < 2 ^ 31 →
      let sent := encrypt env oneTime (pubs.map (getSecret env key)) (env.ecdh.pub key) p
      sent.1 = true ∧ RoundTrip env pubs p sent.2) ∧
    ∀ (p : CCloakingData) (inner outer : List OnionHop) (keys : List env.ecdh.Priv),
      (∀ l hop l', inner ++ outer = l ++ hop :: l' → WireFits env (onion env l p)) →
      List.Forall₂ (fun hop k => env.ecdh.pub k ∈ hop.nodes) outer.reverse keys →
      keys.foldlM (strip env) (onion env (inner ++ outer) p).onWire = some (onion env inner p).onWire := by
  refine ⟨?_, fun p inner outer keys hf hke => foldlM_strip_onion hf hke⟩
  intro key oneTime pubs p hne hv hse hlen sent
  obtain ⟨hok, hs⟩ := encrypt_sealed env oneTime pubs hv hse hlen
  have hraw : (p.payload.dataType :: p.payload.dataRaw).length + 32 < 2 ^ 31 := by
    omega
  refine ⟨hok, fun k hk => ?_, fun k hk => ?_⟩
  · have ho := hs.decrypt hraw hk
    have ha := (hs.setRaw (p.payload.dataType :: p.payload.dataRaw)).decrypt hraw hk
    rw [ho]
    exact ⟨rfl, rfl, rfl, ha⟩
  · rw [hs.decrypt_unlisted hne hk]

/-! ## Data that is too long -/

section
variable {env : ShieldEnv} {p : CCloakingData}

theorem aesInput_of_ge (h : 2 ^ 31 - 16 ≤ data.length) (hlt : data.length < 2 ^ 32) : aesInput data = none := by
  unfold aesInput
  rw [Nat.mod_eq_of_lt hlt, if_neg (by omega)]

theorem encrypt_eq_false (oneTime : KeyIv) (secret : CCloakingSecret) (myPubkeyHex : PubKeyHex)
    (h : aesInput (p.payload.dataType :: p.payload.dataRaw) = none) :
    (encrypt env oneTime [secret] myPubkeyHex p).1 = false ∧
      (encrypt env oneTime [secret] myPubkeyHex p).2.payload.data = p.payload.data ∧
      (encrypt env oneTime [secret] myPubkeyHex p).2.recipientKeys = [(secret.getKeyHash env, [])] := by
  unfold encrypt
  dsimp only
  rw [encryptAES256, h, Option.map_none]
  exact ⟨rfl, rfl, rfl⟩

theorem decrypt_of_no_data {recipient : Bytes × Bytes} (hd : p.payload.data = [])
    (hk : p.recipientKeys = [recipient]) (k : env.ecdh.Priv) : (decrypt env k p).1 = false := by
  have hn : (aesInput []).bind (env.aes.decrypt (getSecret env k p.senderPubKeyHex).keyIv.key
      (getSecret env k p.senderPubKeyHex).keyIv.iv) = none := env.aes.decrypt_nil _ _
  unfold decrypt
  split
  · rfl
  rw [hk]
  dsimp only
  split
  · rw [hd, decryptAES256, hn, Bool.false_and]
  · rfl

theorem encrypt_long {key k : env.ecdh.Priv} {q myPubkeyHex : PubKeyHex} (hd : p.payload.data = [])
    (hl : 2 ^ 31 - 17 ≤ p.payload.dataRaw.length) (hlt : p.payload.dataRaw.length + 1 < 2 ^ 32) :
    (encrypt env oneTime [getSecret env key q] myPubkeyHex p).1 = false ∧
      (decrypt env k (encrypt env oneTime [getSecret env key q] myPubkeyHex p).2).1 = false := by
  have hi : aesInput (p.payload.dataType :: p.payload.dataRaw) = none := by
    refine aesInput_of_ge ?_ ?_
    · rw [length_cons]
      omega
    · omega
  obtain ⟨hf, hs, hk⟩ := encrypt_eq_false oneTime (getSecret env key q) myPubkeyHex hi
  exact ⟨hf, decrypt_of_no_data (hs.trans hd) hk _⟩

end

namespace Sample

def packet (dataRaw : Bytes) : CCloakingData :=
  { identifier := 5, senderPubKeyHex := 1, payload := { dataRaw }, timestamp := 9 }

def hop (nodes : List PubKeyHex) : OnionHop := ⟨nodes, KeyIv.zero, 6, 9⟩

noncomputable abbrev shield : ShieldEnv := shieldEnv sendRequest offer

theorem packet_fits : WireFits shield (packet [7, 8]) where
  identifier := by decide +kernel
  sender := by decide +kernel
  recipients := by decide +kernel
  keys := fun r hr => nomatch hr
  data := by decide +kernel
  sig := by decide +kernel
  size := by decide +kernel

theorem onion_fits : WireFits shield (onion shield [hop [2, 3]] (packet [7, 8])) where
  identifier := by decide +kernel
  sender := by decide +kernel
  recipients := by decide +kernel
  keys := by decide +kernel
  data := by decide +kernel
  sig := by decide +kernel
  size := by decide +kernel

end Sample

open Sample in
/-- Two recipients, and an onion of two layers. -/
theorem shield_round_trip_two :
    ((encrypt shield KeyIv.zero ([2, 3].map (getSecret shield (1 : Nat))) 1 (packet [7, 8])).1 = true ∧
      RoundTrip shield [2, 3] (packet [7, 8])
        (encrypt shield KeyIv.zero ([2, 3].map (getSecret shield (1 : Nat))) 1 (packet [7, 8])).2) ∧
    [(4 : Nat), 2].foldlM (strip shield) (onion shield ([] ++ [hop [2, 3], hop [4]]) (packet [7, 8])).onWire =
      some (onion shield [] (packet [7, 8])).onWire := by
  have hk : List.Forall₂ (fun (hop : OnionHop) (k : Nat) => shield.ecdh.pub k ∈ hop.nodes) [hop [4], hop [2, 3]]
      [4, 2] :=
    .cons mem_cons_self (.cons mem_cons_self .nil)
  refine ⟨(shield_round_trip shield).1 (1 : Nat) KeyIv.zero [2, 3] (packet [7, 8])
    (by decide) rfl rfl (by decide +kernel),
    (shield_round_trip shield).2 (packet [7, 8]) [] [hop [2, 3], hop [4]] [(4 : Nat), (2 : Nat)]
      (fun l hop' l' hl => ?_) hk⟩
  match l, hl with
  | [], _ => exact packet_fits
  | [h], hl =>
    cases hl
    exact onion_fits
  | h :: h' :: l, hl => simpa using congrArg List.length hl

open Sample in
/-- A payload of `2 ^ 31` bytes is neither encrypted nor restored. -/
theorem shield_no_round_trip_long :
    let sent := encrypt shield KeyIv.zero [getSecret shield (1 : Nat) 2] 1 (packet (List.replicate (2 ^ 31) 0))
    sent.1 = false ∧ (decrypt shield (2 : Nat) sent.2).1 = false := by
  have hlen : (packet (List.replicate (2 ^ 31) 0)).payload.dataRaw.length = 2 ^ 31 := length_replicate
  refine encrypt_long rfl ?_ ?_
  · rw [hlen]
    norm_num
  · rw [hlen]
    norm_num

end CloakCoin.Enigma
