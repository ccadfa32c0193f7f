import CloakCoin.Net.TimeData
import CloakCoin.Enigma.Relay

/-!
# How long announcements and packets live

An announcement is in effect until a minute after its own timestamp by the adjusted clock, whatever the
timestamp is; a packet that is too old is complained about in the log and accepted.
-/

namespace CloakCoin.Enigma

open Lib
open Net (TimeData VersionTime TimeRun defaultMaxTimeAdjustment int64Min peers clockOf)

def cloakshieldAnnounceTimeoutSecs : Int := 60
def cloakshieldDataTimeoutSecs : Int := 60

/-- `nMaxObservedTimeOffset` is static in a header: the copy read here is never written. -/
def unwrittenMaxObservedTimeOffset : Int := 0

def CEnigmaAnnouncement.isInEffect (s : TimeData) (getTime : Int) (ann : CEnigmaAnnouncement) : Bool :=
  decide (s.getAdjustedTime getTime <
    int64 (ann.timestamp + cloakshieldAnnounceTimeoutSecs + unwrittenMaxObservedTimeOffset))

def CCloakingData.authenticateAt (env : ShieldEnv) (s : TimeData) (getTime : Int) (p : CCloakingData) : Bool × Bool :=
  if !p.authenticate env then (false, false)
  else
    (true, decide (s.getAdjustedTime getTime ≥
      int64 (int64 p.timestamp.toNat + cloakshieldDataTimeoutSecs + unwrittenMaxObservedTimeOffset)))

/-- The latest time at which something received at `t` may be accepted. -/
def deadline (t lifetime : Int) : Int := t + lifetime + defaultMaxTimeAdjustment

/-- A time the local clock may show: no adjustment below `2 ^ 62` makes it wrap. -/
def Shown (τ : Int) : Prop := 0 ≤ τ ∧ τ < 2 ^ 62

/-- What was received at `t` and has the given lifetime is not accepted after its deadline, whatever the peers
have said so far. -/
def Dies (ok : VersionTime → Prop) (accepted : TimeData → Int → Bool) (t lifetime : Int) : Prop :=
  ∀ l s τ, TimeRun ok l s → Shown τ → deadline t lifetime < τ → accepted s τ = false

section
variable {ok : VersionTime → Prop} {l : List (TimeData × VersionTime)} {s : TimeData} {t τ : Int}
  {ann : CEnigmaAnnouncement}

theorem CEnigmaAnnouncement.isInEffect_eq_false_iff :
    ann.isInEffect s τ = false ↔ int64 (ann.timestamp + cloakshieldAnnounceTimeoutSecs) ≤ s.getAdjustedTime τ := by
  rw [isInEffect, decide_eq_false_iff_not, not_lt, unwrittenMaxObservedTimeOffset, add_zero]

theorem getAdjustedTime_eq (h : TimeRun ok l s) (hτ : Shown τ) : s.getAdjustedTime τ = τ + s.nTimeOffset := by
  obtain ⟨h0, hlt⟩ := hτ
  refine int64_of_fits ?_
  unfold Fits
  rcases h.nTimeOffset with hb | ⟨hm, -⟩
  · have hb := abs_lt.mp hb
    unfold defaultMaxTimeAdjustment at hb
    omega
  · rw [hm, int64Min]
    omega

theorem dies_inEffect_of_le (ha : ∀ l s, TimeRun ok l s → a ≤ s.nTimeOffset)
    (hts : int64 (ann.timestamp + cloakshieldAnnounceTimeoutSecs) ≤ deadline t cloakshieldAnnounceTimeoutSecs + 1 + a) :
    Dies ok (fun s τ => ann.isInEffect s τ) t cloakshieldAnnounceTimeoutSecs := by
  intro l s τ hrun hsh hτ
  rw [CEnigmaAnnouncement.isInEffect_eq_false_iff, getAdjustedTime_eq hrun hsh]
  have := ha l s hrun
  omega

theorem le_of_dies_inEffect (h : Dies ok (fun s τ => ann.isInEffect s τ) t cloakshieldAnnounceTimeoutSecs)
    (ht : 0 ≤ t ∧ t < 2 ^ 61) (hr : TimeRun ok l s) :
    int64 (ann.timestamp + cloakshieldAnnounceTimeoutSecs) ≤
      deadline t cloakshieldAnnounceTimeoutSecs + 1 + s.nTimeOffset := by
  have hsh : Shown (deadline t cloakshieldAnnounceTimeoutSecs + 1) := by
    unfold Shown deadline cloakshieldAnnounceTimeoutSecs defaultMaxTimeAdjustment
    omega
  have hd := h l s _ hr hsh (by omega)
  rwa [CEnigmaAnnouncement.isInEffect_eq_false_iff, getAdjustedTime_eq hr hsh] at hd

end

/-- An announcement dies in time, whatever sane peers say, exactly if it is stamped at most 2 seconds ahead; with
peers that send the one sample `abs64` leaves negative, exactly if it is stamped some `2 ^ 63` seconds in the past.
A packet dies exactly if it was never accepted. -/
theorem lifetimes_bounded_iff (env : ShieldEnv) (ann : CEnigmaAnnouncement) (p : CCloakingData) (t : Int)
    (ht : 0 ≤ t ∧ t < 2 ^ 61) :
    (Dies VersionTime.Sane (fun s τ => ann.isInEffect s τ) t cloakshieldAnnounceTimeoutSecs ↔
      int64 (ann.timestamp + cloakshieldAnnounceTimeoutSecs) ≤ t + 2 + cloakshieldAnnounceTimeoutSecs) ∧
    (Dies (fun _ => True) (fun s τ => ann.isInEffect s τ) t cloakshieldAnnounceTimeoutSecs ↔
      int64 (ann.timestamp + cloakshieldAnnounceTimeoutSecs) ≤ deadline t cloakshieldAnnounceTimeoutSecs + 1 - 2 ^ 63) ∧
    (Dies (fun _ => True) (fun s τ => (p.authenticateAt env s τ).1) t cloakshieldDataTimeoutSecs ↔
      env.verify p.senderPubKeyHex (p.getSigningHash env) p.vchSig = false) := by
  have hdl : deadline t cloakshieldAnnounceTimeoutSecs + 1 + -839 = t + 2 + cloakshieldAnnounceTimeoutSecs := by
    unfold deadline cloakshieldAnnounceTimeoutSecs defaultMaxTimeAdjustment
    omega
  refine ⟨⟨fun h => ?_, fun hts => ?_⟩, ⟨fun h => ?_, fun hts => ?_⟩, ⟨fun h => ?_, fun hsig l s τ _ _ _ => ?_⟩⟩
  · -- peers slow the clock down as far as the test lets them
    obtain ⟨l, hrun⟩ := TimeRun.foldl (peers (-839)) .start Net.peers_sane
    have hd := le_of_dies_inEffect h ht hrun
    rwa [show List.foldl _ _ (peers (-839)) = clockOf (peers (-839)) from rfl, Net.clockOf_late, hdl] at hd
  · refine dies_inEffect_of_le (a := -839) (fun l s hrun => ?_) (by rwa [hdl])
    have hb := (abs_lt.mp hrun.adjustment_bounded).1
    unfold defaultMaxTimeAdjustment at hb
    omega
  · obtain ⟨l, hrun⟩ := TimeRun.foldl (peers int64Min) .start fun _ _ => trivial
    have hd := le_of_dies_inEffect h ht hrun
    rwa [show List.foldl _ _ (peers int64Min) = clockOf (peers int64Min) from rfl, Net.clockOf_least] at hd
  · refine dies_inEffect_of_le (a := int64Min) (fun l s hrun => ?_) hts
    rcases hrun.nTimeOffset with hb | ⟨hm, -⟩
    · have hb := (abs_lt.mp hb).1
      unfold defaultMaxTimeAdjustment at hb
      unfold int64Min
      omega
    · exact hm.ge
  · have hd := h [] {} (deadline t cloakshieldDataTimeoutSecs + 1) .start
      (by unfold Shown deadline cloakshieldDataTimeoutSecs defaultMaxTimeAdjustment; omega) (by omega)
    by_contra hsig
    dsimp only at hd
    rw [CCloakingData.authenticateAt, CCloakingData.authenticate, (Bool.not_eq_false _).mp hsig] at hd
    cases hd
  · dsimp only
    rw [CCloakingData.authenticateAt, CCloakingData.authenticate, hsig]
    rfl

open Sample in
/-- No peer has said anything. An announcement that comes at time 1000 with a timestamp far ahead is in
effect for as long, and a packet that was signed at time 9 is accepted, with a complaint. -/
theorem announcement_outlives_deadline : TimeRun VersionTime.Sane [] {} ∧ Shown 1000000 ∧
      deadline 1000 cloakshieldAnnounceTimeoutSecs < 1000000 ∧
      CEnigmaAnnouncement.isInEffect {} 1000 ⟨2, 1000000⟩ = true ∧
      CEnigmaAnnouncement.isInEffect {} 1000000 ⟨2, 1000000⟩ = true ∧
      ((packet [7, 8]).signWith shield (1 : Nat)).authenticateAt shield {} 1000000 = (true, true) := by
  refine ⟨.start, ⟨by decide, by decide⟩, by decide, by decide, by decide, ?_⟩
  decide +kernel

/-- An announcement stamped 5 seconds behind the time it comes at dies in time. -/
theorem lifetimes_bounded_iff_timely :
    Dies VersionTime.Sane (fun s τ => CEnigmaAnnouncement.isInEffect s τ ⟨2, 995⟩) 1000
      cloakshieldAnnounceTimeoutSecs :=
  (lifetimes_bounded_iff Sample.shield ⟨2, 995⟩ (Sample.packet []) 1000 (by decide)).1.mpr (by decide)

end CloakCoin.Enigma
