import CloakCoin.Enigma.Owned

/-!
# Banned peers

A peer is banned for packets that do not authenticate and for inputs that turn out to be bad. The key
that is banned is the one a packet or a request names, and the guards of the handlers let packets of
banned peers through.
-/

namespace CloakCoin.Enigma

open Chain Lib Wallet
open Std (ExtTreeMap)
open List Bool

variable {env : ShieldEnv} {s : EnigmaWallet} {csr : CCloakingRequest} {k : PubKeyHex} {d : Delivery}
  {ccar : CCloakingAcceptResponse} {p : CCloakingData} {owner : PubKeyHex → Prop}

namespace EnigmaNode

/-! ## Whom a packet gets banned -/

theorem decrypt_sender {k : env.ecdh.Priv} (p : CCloakingData) :
    (p.decrypt env k).2.senderPubKeyHex = p.senderPubKeyHex := by
  unfold CCloakingData.decrypt
  dsimp only
  split
  · rfl
  split
  · split
    · rfl
    · rfl
  · split
    · rfl
    · rfl
  · split
    · rfl
    · rfl

def BansOnly (owner : PubKeyHex → Prop) (n n' : EnigmaNode env) : Prop :=
  ∀ k, n.bannedUntil k < n'.bannedUntil k → owner k

namespace BansOnly

variable {n n' n0 : EnigmaNode env}

theorem of_same (h : n'.bannedUntil = n.bannedUntil) : BansOnly owner n n' := by
  intro k hk
  rw [h] at hk
  exact absurd hk (lt_irrefl _)

theorem of_scores (hn : ScoresOnly n0 n) (h : BansOnly owner n n') : BansOnly owner n0 n' := by
  have hb : n.bannedUntil = n0.bannedUntil := by rw [hn]
  unfold BansOnly
  rw [← hb]
  exact h

theorem banPeer (now secs : Int) (ho : owner k) (h : BansOnly owner n n') :
    BansOnly owner n (n'.banPeer now secs k) := by
  intro k' hk'
  by_cases heq : k' = k
  · rw [heq]
    exact ho
  unfold EnigmaNode.banPeer at hk'
  dsimp only at hk'
  rw [Function.update_of_ne heq] at hk'
  exact h k' hk'

theorem banAll {keys : List PubKeyHex} (ctx : RelayCtx) (ho : ∀ k ∈ keys, owner k) (h : BansOnly owner n n') :
    BansOnly owner n (n'.banAll ctx keys) := by
  induction keys generalizing n' with
  | nil => exact h
  | cons k keys ih =>
    exact ih (fun k' hk' => ho k' (mem_cons_of_mem _ hk')) (h.banPeer _ _ (ho k mem_cons_self))

theorem clearBans {keys : Finset PubKeyHex} (h : BansOnly owner n n') : BansOnly owner n (n'.clearBans keys) := by
  intro k hk
  unfold EnigmaNode.clearBans at hk
  dsimp only at hk
  split at hk
  · exact absurd hk (Nat.not_lt_zero _)
  · exact h k hk

end BansOnly

/-- A signed packet that names its sender and whose signatures ban nobody. -/
structure Fair (ctx : RelayCtx) (n : EnigmaNode env) (p : CCloakingData) : Prop where
  signed : p.authenticate env = true
  accept : ∀ q ccar, p.decrypt env env.routingKey = (true, q) →
    q.payload.dataType = CloakingDataType.code .reqAccept → env.readAccept q.payload.dataRaw = (true, ccar) →
    ccar.participantInfo.pubKey = p.senderPubKeyHex
  signRequest : ∀ q, p.decrypt env env.routingKey = (true, q) →
    q.payload.dataType = CloakingDataType.code .signRequest →
    (env.readRequest q.payload.dataRaw).2.identifier.pubKeyHex = p.senderPubKeyHex
  signResponse : ∀ q s r, p.decrypt env env.routingKey = (true, q) →
    q.payload.dataType = CloakingDataType.code .signResponse →
    lastSigned n.wallet (env.readSignResponse q.payload.dataRaw).2 = some (s, r) →
    senderBans env ctx.toEnigmaCtx s r = false

theorem mem_acceptBans (h : k ∈ acceptBans env ctx s ccar) : k = ccar.participantInfo.pubKey := by
  unfold acceptBans at h
  dsimp only at h
  split at h
  · cases h
  split at h
  · cases h
  split at h
  · cases h
  split at h
  · exact mem_singleton.mp h
  · cases h

theorem mem_signRequestBans (h : k ∈ signRequestBans env ctx s csr) : k = csr.identifier.pubKeyHex := by
  unfold signRequestBans at h
  split at h
  · cases h
  split at h
  · exact mem_singleton.mp h
  · cases h

theorem dispatch_bans {n : EnigmaNode env} {p q : CCloakingData} (ho : p.decrypt env env.routingKey = (true, q))
    (hf : Fair ctx n p) (how : owner p.senderPubKeyHex) : BansOnly owner n (n.dispatch ctx q).1 := by
  have ha := decrypt_again ho
  have hs : BansOnly owner n n := .of_same rfl
  have hse : q.senderPubKeyHex = p.senderPubKeyHex := by
    rw [← decrypt_sender p (k := env.routingKey), ho]
  have hj : BansOnly owner n (n.banPeer ctx.now enigmaBansecsJunkData q.senderPubKeyHex) :=
    hs.banPeer _ _ (by rw [hse]; exact how)
  unfold dispatch
  split_ifs with hreq hac hsi hr htx hm
  · exact .of_same rfl
  · refine handle_rel (R := BansOnly owner n) ha hs (fun _ => hj) ?_
    split
    · rename_i ccar hre
      refine BansOnly.banAll ctx (fun k hk => ?_) (.of_same rfl)
      rw [mem_acceptBans hk, hf.accept q ccar ho hac hre]
      exact how
    · exact hs
  · refine handle_rel (R := BansOnly owner n) ha hs (fun _ => hj) ?_
    refine BansOnly.banAll ctx (fun k hk => ?_) (.of_same rfl)
    rw [mem_signRequestBans hk, hf.signRequest q ho hsi]
    exact how
  · refine handle_rel (R := BansOnly owner n) ha hs (fun _ => hj) ?_
    dsimp only
    split
    · rename_i s r hl
      rw [hf.signResponse q s r ho hr hl]
      exact BansOnly.clearBans (BansOnly.banAll ctx (fun k hk => absurd hk not_mem_nil) (.of_same rfl))
    · exact .of_same rfl
  · exact handle_rel (R := BansOnly owner n) ha hs (fun _ => hj) hs
  · refine handle_rel (R := BansOnly owner n) ha hs (fun _ => hj) ?_
    dsimp only
    split_ifs with hof hot
    · rw [handleAcceptResponseFromSender, hof, if_neg (by decide), if_neg (by decide), handleNodeOffline]
      split
      · exact .of_same rfl
      · exact hs
    · unfold handleAcceptResponseFromSender
      split
      · exact .of_same rfl
      · split
        · exact .of_same rfl
        · exact hs
    · exact hs
  · exact hs

/-- Every layer of the packet is fair. -/
def AllFair (d : Delivery) (n : EnigmaNode env) : Prop := ∀ p ∈ n.layers d.packet, Fair d.ctx n p

/-- A layer of the packet is signed by `k`. -/
def SignedBy (k : PubKeyHex) (x : EnigmaNode env × Delivery) : Prop :=
  ∃ p ∈ x.1.layers x.2.packet, p.senderPubKeyHex = k ∧ p.authenticate env = true

theorem receive_bans (h : AllFair d n) : BansOnly (fun k => SignedBy k (n, d)) n (n.receive d) := by
  refine onion_rel (R := BansOnly _ n) (fun n' hn' => .of_scores hn' (.of_same rfl)) (fun n' hash hn' => hn') (.refl n)
    fun p hp n' q hn' ho => ?_
  have hf : Fair d.ctx n' p := by
    have hw : n'.wallet = n.wallet := by rw [hn']
    obtain ⟨hs, ha, hsi, hr⟩ := h p hp
    rw [← hw] at hr
    exact ⟨hs, ha, hsi, hr⟩
  exact .of_scores hn' (dispatch_bans ho hf ⟨p, hp, rfl, hf.signed⟩)

end EnigmaNode

open EnigmaNode in
theorem bans_signed (env : ShieldEnv) (n₀ n : EnigmaNode env) (l : List (EnigmaNode env × Delivery))
    (h : Trace receive AllFair n₀ l n) (k : PubKeyHex) (hban : n₀.bannedUntil k < n.bannedUntil k) :
    ∃ x ∈ l, SignedBy k x := by
  induction h with
  | start => exact absurd hban (lt_irrefl _)
  | @step l n d _ hf ih =>
    by_cases hl : n.bannedUntil k < (n.receive d).bannedUntil k
    · exact ⟨(n, d), mem_append_right _ (mem_singleton_self _), receive_bans hf k hl⟩
    · obtain ⟨x, hx, hs⟩ := ih (lt_of_lt_of_le hban (Nat.le_of_not_lt hl))
      exact ⟨x, mem_append_left _ hx, hs⟩

namespace Sample

def acceptPacket (vchSig : Bytes) : CCloakingData :=
  { identifier := 5, senderPubKeyHex := 2, timestamp := 9, vchSig
    payload := { dataType := CloakingDataType.code .reqAccept, data := [1] } }

noncomputable def signedAccept : CCloakingData := (acceptPacket []).signWith shield (2 : Nat)

theorem signedAccept_fair : EnigmaNode.AllFair ⟨signedAccept, 0, relayCtx⟩ peer := by
  have hl : peer.layers signedAccept = [signedAccept] := by decide +kernel
  intro p hp
  rw [hl, mem_singleton] at hp
  subst hp
  refine ⟨by decide +kernel, fun q ccar hq _ hre => ?_, fun q hq hs => ?_, fun q s r hq hr => ?_⟩
  all_goals
    obtain rfl := (Prod.mk.inj hq).2
  · cases hre
    rfl
  · exact absurd hs (by decide +kernel)
  · exact absurd hr (by decide +kernel)

end Sample

open Sample EnigmaNode in
/-- Decrypting moves data that is sent in the clear, so the handler finds the signature wrong and bans the
key that has signed. -/
theorem bans_signed_accept : ∃ x ∈ [(peer, (⟨signedAccept, 0, relayCtx⟩ : Delivery))], SignedBy 2 x :=
  bans_signed shield peer _ _ (.step _ .start signedAccept_fair) 2 (by decide +kernel)

open Sample EnigmaNode in
/-- The same packet without a signature bans key 2 just as well. -/
theorem unsigned_packet_bans : peer.bannedUntil 2 < (peer.receive ⟨acceptPacket [], 0, relayCtx⟩).bannedUntil 2 ∧
      peer.layers (acceptPacket []) = [acceptPacket []] ∧ (acceptPacket []).authenticate shield = false := by
  refine ⟨by decide +kernel, by decide +kernel, by decide +kernel⟩

/-! ## Packets that act -/

/-- The handlers a packet is delivered to. -/
inductive Handler where
  | onionTx | cloakingAccept | signResponse | signRequest | cloakMessage
  deriving DecidableEq

variable {h : Handler}

namespace EnigmaNode

def run (h : Handler) (ctx : RelayCtx) (n : EnigmaNode env) (p : CCloakingData) : EnigmaNode env × List Effect :=
  match h with
  | .onionTx => n.handleOnionTx ctx p
  | .cloakingAccept => n.handleCloakingAccept ctx p
  | .signResponse => n.handleSignResponse ctx p
  | .signRequest => n.handleSignRequest ctx p
  | .cloakMessage => n.handleCloakMessage ctx p

def blocked (h : Handler) (ctx : RelayCtx) (n : EnigmaNode env) (p : CCloakingData) : Bool :=
  match h with
  | .cloakingAccept => n.alreadyProcessed p || n.isEnigmaPeerBanned ctx.now p.senderPubKeyHex
  | _ => n.handled ctx p

theorem run_of_blocked {ctx : RelayCtx} {n : EnigmaNode env}
    (hb : n.blocked h ctx p = true) : n.run h ctx p = (n, []) := by
  have hs : ∀ checkSig act, n.handle ctx (n.blocked h ctx p) checkSig act p = (n, []) := by
    intro checkSig act
    rw [handle, hb, if_pos rfl]
  cases h with
  | onionTx => exact hs _ _
  | cloakingAccept => exact hs _ _
  | signResponse => exact hs _ _
  | signRequest => exact hs _ _
  | cloakMessage => exact hs _ _

end EnigmaNode

/-- A packet is delivered to a handler, or the onion handler marks one as processed. -/
inductive Arrival where
  | deliver (h : Handler) (ctx : RelayCtx) (p : CCloakingData)
  | mark (hash : Hash256)

/-- The node, and the packets that had an effect, with whether their sender was banned then. -/
structure HandlerLog (env : ShieldEnv) where
  node : EnigmaNode env
  acted : List (Hash256 × Bool)

variable {a : Arrival} {s : HandlerLog env}

namespace HandlerLog

open Classical in
noncomputable def arrive : Arrival → HandlerLog env → HandlerLog env
  | .deliver h ctx p, s =>
    let out := s.node.run h ctx p
    { node := out.1
      acted := if out = (s.node, []) then s.acted
        else (p.getSigningHash env, s.node.isEnigmaPeerBanned ctx.now p.senderPubKeyHex) :: s.acted }
  | .mark hash, s => { s with node := s.node.markProcessed hash }

/-- Bans reach the accept handler only, and handled packets are marked. -/
def Orderly : Arrival → HandlerLog env → Prop
  | .deliver h ctx p, s =>
    (s.node.isEnigmaPeerBanned ctx.now p.senderPubKeyHex = true → h = .cloakingAccept) ∧
      (p.getSigningHash env ∈ s.acted.map Prod.fst → s.node.alreadyProcessed p = true)
  | .mark _, _ => True

/-- No packet is acted on twice, or for a banned peer. -/
structure ActedOnce (s : HandlerLog env) : Prop where
  nodup : (s.acted.map Prod.fst).Nodup
  unbanned : ∀ x ∈ s.acted, x.2 = false

theorem ActedOnce.arrive (h : s.ActedOnce) (ha : Orderly a s) : (s.arrive a).ActedOnce := by
  cases a with
  | mark hash => exact ⟨h.nodup, h.unbanned⟩
  | deliver handler ctx p =>
    unfold HandlerLog.arrive
    dsimp only
    split
    · exact ⟨h.nodup, h.unbanned⟩
    rename_i hac
    have ho : s.node.blocked handler ctx p = false :=
      eq_false_iff.mpr fun hbl => hac (EnigmaNode.run_of_blocked hbl)
    have hu : s.node.isEnigmaPeerBanned ctx.now p.senderPubKeyHex = false := by
      by_contra hb
      rw [ha.1 (not_eq_false _ ▸ hb), EnigmaNode.blocked, or_eq_false_iff] at ho
      exact hb ho.2
    have hf : s.node.alreadyProcessed p = false := by
      cases handler with
      | cloakingAccept => exact (or_eq_false_iff.mp ho).1
      | _ =>
        rw [EnigmaNode.blocked, EnigmaNode.handled, hu, Bool.not_false, Bool.and_true] at ho
        · exact ho
        · nofun
    refine ⟨?_, ?_⟩
    · exact nodup_cons.mpr ⟨fun hm => false_ne_true (hf.symm.trans (ha.2 hm)), h.nodup⟩
    · intro x hx
      rcases mem_cons.mp hx with rfl | hx
      · exact hu
      · exact h.unbanned x hx

end HandlerLog

open HandlerLog in
theorem handled_once (env : ShieldEnv) (n₀ : EnigmaNode env) (s : HandlerLog env) (l : List (HandlerLog env × Arrival))
    (h : Trace arrive Orderly ⟨n₀, []⟩ l s) : s.ActedOnce := by
  induction h with
  | start => exact ⟨nodup_nil, fun x hx => nomatch hx⟩
  | step a _ ha ih => exact ih.arrive ha

namespace Sample

def txPacket : CCloakingData :=
  { identifier := 5, senderPubKeyHex := 2, timestamp := 9
    payload := { dataType := CloakingDataType.code .tx, data := [1] } }

noncomputable def bannedPeer : EnigmaNode shield :=
  EnigmaNode.receive ⟨acceptPacket [], 0, relayCtx⟩
    ((peer.handleOnionTx relayCtx txPacket).1.markProcessed (txPacket.getSigningHash shield))

end Sample

open Sample HandlerLog in
/-- Delivered, marked and delivered again. -/
theorem handled_once_marked :
    (arrive (.deliver .onionTx relayCtx txPacket) (arrive (.mark (txPacket.getSigningHash shield))
      (arrive (.deliver .onionTx relayCtx txPacket) ⟨peer, []⟩))).ActedOnce := by
  have hf : Orderly (.deliver .onionTx relayCtx txPacket) ⟨peer, []⟩ :=
    ⟨fun hb => absurd hb (by decide +kernel), fun hmem => nomatch hmem⟩
  have ha : Orderly (.deliver .onionTx relayCtx txPacket) (arrive (.mark (txPacket.getSigningHash shield))
      (arrive (.deliver .onionTx relayCtx txPacket) ⟨peer, []⟩)) :=
    ⟨fun hb => absurd hb (by decide +kernel), fun _ => by decide +kernel⟩
  exact handled_once shield peer _ _ (.step _ (.step _ (.step _ .start hf) trivial) ha)

open Sample EnigmaNode in
/-- A packet that was relayed and marked is relayed again because its sender is banned. -/
theorem marked_packet_of_banned_peer_acts :
    (peer.handleOnionTx relayCtx txPacket).2 = [.relayTx Sample.funding] ∧ bannedPeer.alreadyProcessed txPacket = true ∧
      bannedPeer.isEnigmaPeerBanned relayCtx.now txPacket.senderPubKeyHex = true ∧
      (bannedPeer.handleOnionTx relayCtx txPacket).2 = [.relayTx Sample.funding] := by
  refine ⟨by decide +kernel, by decide +kernel, by decide +kernel, by decide +kernel⟩

end CloakCoin.Enigma
