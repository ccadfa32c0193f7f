import CloakCoin.Enigma.Lifetime
import CloakCoin.Enigma.Owned

/-!
# Announcements of Enigma nodes

`ProcessAnnouncement` stores an announcement under the hash of its key, and `CullEnigmaAnns` removes those that
are no longer in effect. An announcement in effect replaces the stored one whatever the timestamps of the two
are, so that one that was overtaken on its way takes the place of its successor.
-/

namespace CloakCoin.Enigma

open Chain Lib Wallet
open Std (ExtTreeMap)
open List Option Std.ExtTreeMap

/-! ## `ProcessAnnouncement` and `CullEnigmaAnns` -/

structure SentAnnouncement extends CEnigmaAnnouncement where
  nVersion : Int := enigmaRequestCurrentVersion
  vchSig : Bytes
  maxHops : UInt16 := 64
  hops : UInt16 := 0
  deriving DecidableEq

/-- The clock, and what the program knows of itself. -/
structure AnnounceCtx where
  timeData : Net.TimeData
  getTime : Int
  /-- The key of our own announcement, empty before the first. -/
  nMyEnigmaAddress : Bytes
  fEnigma : Bool

namespace SentAnnouncement

variable (env : ShieldEnv)

/-- Everything but the signature and the hop count. -/
def getSigningHash (ann : SentAnnouncement) : Hash256 :=
  env.hash ((Format.int 4).write ann.nVersion ++ (Format.int 8).write ann.timestamp ++
    (CCloakingData.senderFormat env).write ann.pEnigmaSessionKeyHex ++ Format.uint16.write ann.maxHops)

def authenticate (ann : SentAnnouncement) : Bool :=
  env.verify ann.pEnigmaSessionKeyHex (ann.getSigningHash env) ann.vchSig

def isMine (ctx : AnnounceCtx) (ann : SentAnnouncement) : Bool :=
  env.hash ctx.nMyEnigmaAddress == env.hash (env.chars ann.pEnigmaSessionKeyHex)

end SentAnnouncement

namespace EnigmaNode

variable {env : ShieldEnv}

def storeAnn (n : EnigmaNode env) (ann : CEnigmaAnnouncement) : EnigmaNode env :=
  { n with
    mapEnigmaAnns := n.mapEnigmaAnns.insert (env.keyHash ann.pEnigmaSessionKeyHex) ann
    anns_keyed := fun h ann' hann => by
      rw [ExtTreeMap.getElem?_insert] at hann
      split at hann
      · rename_i heq
        obtain rfl := Option.some.inj hann
        exact (Std.LawfulEqCmp.eq_of_compare heq).symm
      · exact n.anns_keyed h ann' hann }

def processAnnouncement (ctx : AnnounceCtx) (sender : Option Nat) (n : EnigmaNode env) (ann : SentAnnouncement) :
    Bool × EnigmaNode env :=
  if ann.hops ≥ ann.maxHops then (false, n)
  else if ann.nVersion ≠ enigmaRequestCurrentVersion then (false, n)
  -- node sent a junk announcement - penalize them!
  else if !ann.authenticate env then (false, n.misbehaving sender)
  else if !ann.isInEffect ctx.timeData ctx.getTime || ann.isMine env ctx then (false, n)
  else (true, n.storeAnn ann.toCEnigmaAnnouncement)

def cullEnigmaAnns (ctx : AnnounceCtx) (lockAnns : Bool) (n : EnigmaNode env) : EnigmaNode env :=
  if lockAnns then
    { n with
      mapEnigmaAnns := n.mapEnigmaAnns.filter fun _ ann => ann.isInEffect ctx.timeData ctx.getTime
      anns_keyed := fun h ann hann => by
        rw [ExtTreeMap.getElem?_filter] at hann
        exact n.anns_keyed h ann (pfilter_eq_some_iff.mp hann).1 }
  else n

end EnigmaNode

/-! ## Messages -/

/-- The node, with the announcements known to each connected peer. -/
structure AnnounceNode (env : ShieldEnv) where
  node : EnigmaNode env
  setKnownAnns : Nat → Finset Hash256

inductive AnnounceEvent where
  /-- An announcement comes from a peer and is relayed to the connected ones. -/
  | announce (ctx : AnnounceCtx) (pfrom : Nat) (vNodes : List Nat) (ann : SentAnnouncement)
  | cull (ctx : AnnounceCtx) (lockAnns : Bool)
  | packet (d : Delivery)
  | connect (peer : Nat)

namespace AnnounceNode

variable {env : ShieldEnv} (ctx : AnnounceCtx) (pfrom : Nat) (s : AnnounceNode env)

/-- The peer has not sent it before, nobody has relayed it to the peer, and its owner is not banned. -/
def isNew (ann : SentAnnouncement) : Bool :=
  decide (ann.getSigningHash env ∉ s.setKnownAnns pfrom) &&
    !s.node.isEnigmaPeerBanned (ctx.timeData.getAdjustedTime ctx.getTime) ann.pEnigmaSessionKeyHex

def relayed (vNodes : List Nat) (s : AnnounceNode env) (ann : SentAnnouncement) : AnnounceNode env :=
  { s with setKnownAnns := fun peer =>
      if peer = pfrom ∨ (peer ∈ vNodes ∧ ann.isInEffect ctx.timeData ctx.getTime = true) then
        insert (ann.getSigningHash env) (s.setKnownAnns peer)
      else s.setKnownAnns peer }

def handleAnnouncement (vNodes : List Nat) (s : AnnounceNode env) (ann : SentAnnouncement) : AnnounceNode env :=
  if ctx.fEnigma && s.isNew ctx pfrom ann then
    match s.node.processAnnouncement ctx (some pfrom) ann with
    | (true, n) => ({ s with node := n } : AnnounceNode env).relayed ctx pfrom vNodes ann
    | (false, n) => { s with node := n }
  else s

def step (e : AnnounceEvent) (s : AnnounceNode env) : AnnounceNode env :=
  match e with
  | .announce ctx pfrom vNodes ann => s.handleAnnouncement ctx pfrom vNodes ann
  | .cull ctx lockAnns => { s with node := s.node.cullEnigmaAnns ctx lockAnns }
  | .packet d => { s with node := s.node.receive d }
  | .connect peer => { s with setKnownAnns := Function.update s.setKnownAnns peer ∅ }

def stored (h : Hash160) : Option CEnigmaAnnouncement := s.node.mapEnigmaAnns[h]?

/-- The announcement takes the place of the one stored. -/
def accepts (ann : SentAnnouncement) : Bool :=
  ctx.fEnigma && s.isNew ctx pfrom ann && (s.node.processAnnouncement ctx (some pfrom) ann).1

/-- An accepted announcement is not older than the stored one. -/
def InOrder (e : AnnounceEvent) (s : AnnounceNode env) : Prop :=
  match e with
  | .announce ctx pfrom _ ann => s.accepts ctx pfrom ann = true →
      ∀ old, s.stored (env.keyHash ann.pEnigmaSessionKeyHex) = some old → old.timestamp ≤ ann.timestamp
  | _ => True

end AnnounceNode

/-! ## What is stored afterwards -/

namespace EnigmaNode

variable {env : ShieldEnv}

def AnnsFrom (n n' : EnigmaNode env) : Prop :=
  ∀ (h : Hash160) ann, n'.mapEnigmaAnns[h]? = some ann → n.mapEnigmaAnns[h]? = some ann

theorem AnnsFrom.of_eq (h : n'.mapEnigmaAnns = n.mapEnigmaAnns) : AnnsFrom n n' := by
  intro k ann ha
  rw [← h]
  exact ha

theorem AnnsFrom.eraseAnn (n : EnigmaNode env) (keyHash : Hash160) : AnnsFrom n (n.eraseAnn keyHash) := by
  intro h ann ha
  rw [EnigmaNode.eraseAnn, getElem?_erase] at ha
  split at ha
  · cases ha
  · exact ha

theorem AnnsFrom.cullEnigmaAnns (ctx : AnnounceCtx) (lockAnns : Bool) (n : EnigmaNode env) :
    AnnsFrom n (n.cullEnigmaAnns ctx lockAnns) := by
  unfold EnigmaNode.cullEnigmaAnns
  split
  · intro h ann ha
    rw [ExtTreeMap.getElem?_filter] at ha
    exact (pfilter_eq_some_iff.mp ha).1
  · exact .of_eq rfl

theorem dispatch_anns {ctx : RelayCtx} {n : EnigmaNode env} {p q : CCloakingData}
    (hope : p.decrypt env env.routingKey = (true, q)) : AnnsFrom n (n.dispatch ctx q).1 := by
  have ha := decrypt_again hope
  have hs : AnnsFrom n n := .of_eq rfl
  unfold dispatch
  split_ifs with hre hac hsi hr htx hm
  · exact .of_eq rfl
  · apply handle_rel ha hs (fun _ => .of_eq rfl)
    split
    · exact .of_eq (banAll_mapEnigmaAnns _ _ _)
    · exact hs
  · apply handle_rel ha hs (fun _ => .of_eq rfl)
    exact .of_eq (banAll_mapEnigmaAnns _ _ _)
  · apply handle_rel ha hs (fun _ => .of_eq rfl)
    dsimp only
    split
    · exact .of_eq (banAll_mapEnigmaAnns _ _ _)
    · exact .of_eq rfl
  · exact handle_rel ha hs (fun _ => .of_eq rfl) hs
  · apply handle_rel ha hs (fun _ => .of_eq rfl)
    dsimp only
    split_ifs with ho hot
    · -- only a node that goes offline is forgotten
      rw [handleAcceptResponseFromSender, ho, if_neg (by decide), if_neg (by decide), handleNodeOffline]
      split
      · exact .eraseAnn n _
      · exact hs
    · unfold handleAcceptResponseFromSender
      split
      · exact .of_eq rfl
      split
      · exact .of_eq rfl
      · exact hs
    · exact hs
  · exact hs

theorem receive_anns (d : Delivery) (n : EnigmaNode env) : AnnsFrom n (n.receive d) := by
  refine onion_rel (R := AnnsFrom n) ?_ ?_ (ScoresOnly.refl n) ?_
  · intro n' hn'
    exact .of_eq (by rw [hn'])
  · intro n' hash hn'
    exact hn'
  · intro p hp n' q hn' ho h ann ha
    have hs : n'.mapEnigmaAnns = n.mapEnigmaAnns := by rw [hn']
    rw [← hs]
    exact dispatch_anns ho h ann ha

theorem processAnnouncement_anns (ctx : AnnounceCtx) (sender : Option Nat) (n : EnigmaNode env)
    (ann : SentAnnouncement) :
    (n.processAnnouncement ctx sender ann).2.mapEnigmaAnns =
      if (n.processAnnouncement ctx sender ann).1 then
        n.mapEnigmaAnns.insert (env.keyHash ann.pEnigmaSessionKeyHex) ann.toCEnigmaAnnouncement
      else n.mapEnigmaAnns := by
  unfold processAnnouncement
  split
  · rfl
  split
  · rfl
  split
  · cases sender <;> rfl
  split
  · rfl
  · rfl

end EnigmaNode

namespace AnnounceNode

variable {env : ShieldEnv}

theorem stored_announce (ctx : AnnounceCtx) (pfrom : Nat) (vNodes : List Nat) (ann : SentAnnouncement)
    (s : AnnounceNode env) (h : Hash160) : (s.step (.announce ctx pfrom vNodes ann)).stored h =
      if s.accepts ctx pfrom ann = true ∧ h = env.keyHash ann.pEnigmaSessionKeyHex then
        some ann.toCEnigmaAnnouncement
      else s.stored h := by
  have ha := s.node.processAnnouncement_anns ctx (some pfrom) ann
  show (s.handleAnnouncement ctx pfrom vNodes ann).stored h = _
  unfold handleAnnouncement accepts
  cases hn : ctx.fEnigma && s.isNew ctx pfrom ann with
  | false => rw [if_neg Bool.false_ne_true, Bool.false_and, if_neg (fun h => Bool.false_ne_true h.1)]
  | true =>
    rw [if_pos rfl, Bool.true_and]
    rcases hp : s.node.processAnnouncement ctx (some pfrom) ann with ⟨ok, n⟩
    rw [hp] at ha
    cases ok with
    | false =>
      exact congrArg (·[h]?) ha
    | true =>
      have hm : n.mapEnigmaAnns =
          s.node.mapEnigmaAnns.insert (env.keyHash ann.pEnigmaSessionKeyHex) ann.toCEnigmaAnnouncement := ha
      show n.mapEnigmaAnns[h]? = _
      rw [hm, ExtTreeMap.getElem?_insert]
      simp only [compare_eq_iff_eq, true_and, eq_comm (a := h)]
      rfl

def Keeps (s s' : AnnounceNode env) : Prop :=
  ∀ (h : Hash160) ann ann', s.stored h = some ann → s'.stored h = some ann' → ann.timestamp ≤ ann'.timestamp

theorem Keeps.of_annsFrom {s s' : AnnounceNode env} (h : s.node.AnnsFrom s'.node) : Keeps s s' := by
  intro k ann ann' ha ha'
  obtain rfl : ann = ann' := some.inj (ha.symm.trans (h k ann' ha'))
  exact le_rfl

theorem step_keeps_iff (e : AnnounceEvent) (s : AnnounceNode env) : Keeps s (s.step e) ↔ InOrder e s := by
  cases e with
  | announce ctx pfrom vNodes ann =>
    have hs := s.stored_announce ctx pfrom vNodes ann
    constructor
    · intro hk hok old hold
      apply hk _ old ann.toCEnigmaAnnouncement hold
      rw [hs, if_pos ⟨hok, rfl⟩]
    · intro ho h old new hold hn
      rw [hs] at hn
      split at hn
      · rename_i hok
        obtain rfl := some.inj hn
        rw [hok.2] at hold
        exact ho hok.1 old hold
      · obtain rfl : old = new := some.inj (hold.symm.trans hn)
        exact le_rfl
  | cull ctx lockAnns => exact ⟨fun _ => trivial, fun _ => .of_annsFrom (.cullEnigmaAnns ctx lockAnns s.node)⟩
  | packet d => exact ⟨fun _ => trivial, fun _ => .of_annsFrom (EnigmaNode.receive_anns d s.node)⟩
  | connect peer => exact ⟨fun _ => trivial, fun _ => .of_annsFrom (.of_eq rfl)⟩

end AnnounceNode

open AnnounceNode in
/-- In a run in which no announcement that is accepted is older than the one stored, the timestamp under a key
hash never goes back while there is an entry. -/
theorem announcements_in_order (env : ShieldEnv) (s₀ s : AnnounceNode env) (l : List (AnnounceNode env × AnnounceEvent))
    (hrun : Trace step InOrder s₀ l s) (h : Hash160) (hstays : ∀ x ∈ l, (x.1.stored h).isSome = true)
    (ann : CEnigmaAnnouncement) (hann : s.stored h = some ann) :
    ∀ x ∈ l, ∀ ann₀, x.1.stored h = some ann₀ → ann₀.timestamp ≤ ann.timestamp := by
  induction hrun generalizing ann with
  | start =>
    intro x hx
    cases hx
  | @step l s e _ hok ih =>
    obtain ⟨mid, hmid⟩ := isSome_iff_exists.mp (hstays (s, e) (mem_append_right _ (mem_singleton_self _)))
    have hl := (step_keeps_iff e s).mpr hok h mid ann hmid hann
    intro x hx ann₀ ha₀
    rcases mem_append.mp hx with hx | hx
    · have hp := ih (fun x hx => hstays x (mem_append_left _ hx)) mid hmid x hx ann₀ ha₀
      omega
    · obtain rfl := mem_singleton.mp hx
      obtain rfl : ann₀ = mid := some.inj (ha₀.symm.trans hmid)
      exact hl

namespace Sample

noncomputable def announcement (timestamp : Int) : SentAnnouncement :=
  let ann : SentAnnouncement := { pEnigmaSessionKeyHex := 2, timestamp, vchSig := [] }
  { ann with vchSig := shield.sign (2 : Nat) (ann.getSigningHash shield) }

def announceCtx : AnnounceCtx := ⟨{}, 1000, [], true⟩

noncomputable def announceNode : AnnounceNode shield := ⟨peer, fun _ => ∅⟩

noncomputable def first (timestamp : Int) : AnnounceEvent := .announce announceCtx 1 [1] (announcement timestamp)
noncomputable def second (timestamp : Int) : AnnounceEvent := .announce announceCtx 2 [1, 2] (announcement timestamp)

end Sample

open Sample AnnounceNode in
theorem announcements_in_order_two : (announceNode.step (first 1000)).stored 2 = some ⟨2, 1000⟩ ∧
      ((announceNode.step (first 1000)).step (second 1001)).stored 2 = some ⟨2, 1001⟩ ∧
      (⟨2, 1000⟩ : CEnigmaAnnouncement).timestamp ≤ (⟨2, 1001⟩ : CEnigmaAnnouncement).timestamp := by
  have h₀ : announceNode.stored 2 = some ⟨2, 0⟩ := by decide +kernel
  have h₁ : (announceNode.step (first 1000)).stored 2 = some ⟨2, 1000⟩ := by decide +kernel
  have h₂ : ((announceNode.step (first 1000)).step (second 1001)).stored 2 = some ⟨2, 1001⟩ := by decide +kernel
  have hf : InOrder (first 1000) announceNode := by
    intro _ old hold
    obtain rfl : ⟨2, 0⟩ = old := some.inj (h₀.symm.trans hold)
    decide
  have hs : InOrder (second 1001) (announceNode.step (first 1000)) := by
    intro _ old hold
    obtain rfl : ⟨2, 1000⟩ = old := some.inj (h₁.symm.trans hold)
    decide
  refine ⟨h₁, h₂, announcements_in_order shield announceNode _ _ (.step _ (.step _ .start hf) hs) 2 ?_ _ h₂
    (announceNode.step (first 1000), second 1001) (by simp) _ h₁⟩
  simp [h₀, h₁]

open Sample AnnounceNode in
/-- The second one was made before the first. -/
theorem overtaken_announcement_is_stored :
    (announcement 1001).authenticate shield = true ∧ (announcement 1000).authenticate shield = true ∧
      (announceNode.step (first 1001)).stored 2 = some ⟨2, 1001⟩ ∧
      ((announceNode.step (first 1001)).step (second 1000)).stored 2 = some ⟨2, 1000⟩ := by
  refine ⟨by decide +kernel, by decide +kernel, by decide +kernel, by decide +kernel⟩

end CloakCoin.Enigma
