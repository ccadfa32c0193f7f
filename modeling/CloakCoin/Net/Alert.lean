import CloakCoin.Chain.Tx
import CloakCoin.Lib.Format

/-!
# Alerts

`ProcessAlert`: a signed alert cancels stored ones, by a range of numbers and by a set of them, and is then refused if a
stored one cancels it. The number `INT_MAX` is reserved for the news that the alert key is compromised.
-/

namespace CloakCoin.Net

open Chain Lib List

def maxInt : Int := 2 ^ 31 - 1

structure CAlert where
  vchMsg : Bytes := []
  nExpiration : Int
  nID : Int
  nCancel : Int
  setCancel : Finset Int := ∅
  nMinVer : Int := 0
  nMaxVer : Int := maxInt
  setSubVer : Finset String := ∅
  nPriority : Int := maxInt
  strStatusBar : String := "URGENT: Alert key compromised, upgrade required"
  deriving DecidableEq

/-- `GetHash` of the signed message and the check of its signature. -/
structure AlertEnv where
  getHash : CAlert → Hash256
  checkSignature : CAlert → Bool

namespace CAlert

variable (env : AlertEnv) (t : Int)

def isInEffect (a : CAlert) : Bool := decide (t < a.nExpiration)

def cancels (a b : CAlert) : Bool := a.isInEffect t && (decide (b.nID ≤ a.nCancel) || decide (b.nID ∈ a.setCancel))

def isReserved (a : CAlert) : Prop :=
  a.nExpiration = maxInt ∧ a.nCancel = maxInt - 1 ∧ a.nMinVer = 0 ∧ a.nMaxVer = maxInt ∧ a.setSubVer = ∅ ∧
    a.nPriority = maxInt ∧ a.strStatusBar = "URGENT: Alert key compromised, upgrade required"

instance (a : CAlert) : Decidable a.isReserved := inferInstanceAs (Decidable (_ ∧ _))

/-- `std::map::insert`, which keeps what is there. -/
def store (a : CAlert) (mapAlerts : List CAlert) : List CAlert :=
  if mapAlerts.any fun alert => env.getHash alert = env.getHash a then mapAlerts else mapAlerts ++ [a]

/-- At time `t`, on the values of `mapAlerts`, which are stored under their hashes. -/
def processAlert (a : CAlert) (mapAlerts : List CAlert) : Bool × List CAlert :=
  if !env.checkSignature a then (false, mapAlerts)
  else if !a.isInEffect t then (false, mapAlerts)
  else if a.nID = maxInt ∧ ¬a.isReserved then (false, mapAlerts)
  else
    let mapAlerts := mapAlerts.filter fun alert => !a.cancels t alert && alert.isInEffect t
    -- check if this alert has been cancelled
    if mapAlerts.any fun alert => alert.cancels t a then (false, mapAlerts)
    else (true, a.store env mapAlerts)

def run (l : List (Int × CAlert)) (mapAlerts : List CAlert) : List CAlert :=
  l.foldl (fun m p => (p.2.processAlert env p.1 m).2) mapAlerts

/-- The alert does not name the reserved number. -/
def Spares (a : CAlert) : Prop := a.nCancel < maxInt ∧ maxInt ∉ a.setCancel

/-- The reserved alert is stored, and nothing but reserved alerts. -/
structure Silenced (r : CAlert) (m : List CAlert) : Prop where
  nID : r.nID = maxInt
  nCancel : r.nCancel = maxInt - 1
  mem : r ∈ m
  others : ∀ a ∈ m, maxInt ≤ a.nID

variable {env t} {a b r : CAlert} {m : List CAlert}

theorem mem_store (h : b ∈ a.store env m) : b ∈ m ∨ b = a := by
  unfold store at h
  split at h
  · exact .inl h
  · simpa using h

theorem mem_store_of_mem (h : b ∈ m) : b ∈ a.store env m := by
  unfold store
  split
  · exact h
  · exact mem_append_left _ h

theorem mem_store_self (hi : ∀ b ∈ m, env.getHash b = env.getHash a → b = a) : a ∈ a.store env m := by
  unfold store
  split
  · rename_i ha
    obtain ⟨b, hb, hh⟩ := any_eq_true.mp ha
    rwa [← hi b hb (of_decide_eq_true hh)]
  · simp

variable (env t a m) in
/-- What a call does: nothing, or it clears the map and then refuses the alert or stores it. -/
theorem processAlert_cases : a.processAlert env t m = (false, m) ∨
    (a.isInEffect t = true ∧ (a.nID = maxInt → a.isReserved)) ∧
      ∃ m', m' = m.filter (fun alert => !a.cancels t alert && alert.isInEffect t) ∧
        (a.processAlert env t m = (false, m') ∨
          (∀ alert ∈ m', alert.cancels t a = false) ∧ a.processAlert env t m = (true, a.store env m')) := by
  unfold processAlert
  split
  · exact .inl rfl
  split
  · exact .inl rfl
  split
  · exact .inl rfl
  rename_i he hr
  refine .inr ⟨⟨by simpa using he, by simpa using hr⟩, _, rfl, ?_⟩
  dsimp only
  split
  · exact .inl rfl
  · rename_i ha
    exact .inr ⟨by simpa using ha, rfl⟩

theorem lt_nID_of_not_cancels (he : a.isInEffect t = true) (h : a.cancels t b = false) : a.nCancel < b.nID := by
  simp only [cancels, he, Bool.true_and, Bool.or_eq_false_iff, decide_eq_false_iff_not] at h
  omega

theorem Silenced.accept (hi : ∀ b ∈ m, env.getHash b = env.getHash r → b = r) (hid : r.nID = maxInt)
    (h : (r.processAlert env t m).1 = true) : Silenced r (r.processAlert env t m).2 := by
  obtain heq | ⟨⟨he, hr⟩, m', rfl, heq | ⟨-, heq⟩⟩ := processAlert_cases env t r m
  · simp [heq] at h
  · simp [heq] at h
  have hc : r.nCancel = maxInt - 1 := (hr hid).2.1
  rw [heq]
  refine ⟨hid, hc, mem_store_self fun b hb => hi b (mem_of_mem_filter hb), fun b hb => ?_⟩
  rcases mem_store hb with hb | rfl
  · have := lt_nID_of_not_cancels he (b := b) (by grind)
    omega
  · exact hid.ge

theorem Silenced.step (h : Silenced r m) (hs : a.Spares) (ht : t < r.nExpiration) :
    Silenced r (a.processAlert env t m).2 := by
  obtain heq | ⟨-, m', rfl, hc⟩ := processAlert_cases env t a m
  · rwa [heq]
  have hm : r ∈ m.filter fun alert => !a.cancels t alert && alert.isInEffect t := by
    refine mem_filter.mpr ⟨h.mem, ?_⟩
    simp [cancels, isInEffect, ht, h.nID, hs.1, hs.2]
  have ho : ∀ b ∈ m.filter (fun alert => !a.cancels t alert && alert.isInEffect t), maxInt ≤ b.nID :=
    fun b hb => h.others b (mem_of_mem_filter hb)
  rcases hc with heq | ⟨hn, heq⟩
  · rw [heq]
    exact ⟨h.nID, h.nCancel, hm, ho⟩
  rw [heq]
  refine ⟨h.nID, h.nCancel, mem_store_of_mem hm, fun b hb => ?_⟩
  rcases mem_store hb with hb | rfl
  · exact ho b hb
  -- the reserved alert cancels every smaller number
  have := lt_nID_of_not_cancels (by simpa [isInEffect] using ht) (hn r hm)
  have := h.nCancel
  omega

/-- `b` is in the range or the set of `a`. -/
def Names (a b : CAlert) : Prop := b.nID ≤ a.nCancel ∨ b.nID ∈ a.setCancel

def Apart (env : AlertEnv) (a b : CAlert) : Prop := env.getHash a ≠ env.getHash b ∧ ¬a.Names b ∧ ¬b.Names a

theorem not_names (he : a.isInEffect t = true) (h : a.cancels t b = false) : ¬a.Names b := by
  simpa [cancels, he, Names] using h

theorem apart_processAlert (h : m.Pairwise (Apart env)) : (a.processAlert env t m).2.Pairwise (Apart env) := by
  obtain heq | ⟨⟨he, -⟩, m', rfl, heq | ⟨hn, heq⟩⟩ := processAlert_cases env t a m
  · rwa [heq]
  · rw [heq]
    exact h.filter _
  rw [heq]
  unfold store
  split
  · exact h.filter _
  rename_i hh
  refine pairwise_append.mpr ⟨h.filter _, pairwise_singleton _ _, fun b hb c hc => ?_⟩
  obtain rfl := mem_singleton.mp hc
  have hf := (mem_filter.mp hb).2
  simp only [Bool.and_eq_true, Bool.not_eq_true'] at hf
  refine ⟨fun he => hh (any_eq_true.mpr ⟨b, hb, decide_eq_true he⟩), not_names hf.2 (hn b hb), not_names he hf.1⟩

/-- The alerts stored by any run have different hashes, and none names another. -/
theorem run_apart (env : AlertEnv) (l : List (Int × CAlert)) : (run env l []).Pairwise (Apart env) :=
  foldlRecOn (motive := List.Pairwise (Apart env)) l _ .nil fun _ h _ _ => apart_processAlert h

/-- The alert passes the first checks, and a stored alert that it does not cancel cancels it. -/
def Futile (env : AlertEnv) (t : Int) (a : CAlert) (m : List CAlert) : Prop :=
  env.checkSignature a = true ∧ a.isInEffect t = true ∧ (a.nID = maxInt → a.isReserved) ∧
    ∃ c ∈ m, a.cancels t c = false ∧ c.cancels t a = true

theorem processAlert_futile (h : Futile env t a m) :
    a.processAlert env t m = (false, m.filter fun alert => !a.cancels t alert && alert.isInEffect t) := by
  obtain ⟨hs, he, hr, c, hc, hac, hca⟩ := h
  have hce : c.isInEffect t = true := by
    rw [cancels, Bool.and_eq_true] at hca
    exact hca.1
  unfold processAlert
  rw [hs, he, if_neg (by simp), if_neg (by simp), if_neg fun hn => hn.2 (hr hn.1)]
  refine if_pos (any_eq_true.mpr ⟨c, mem_filter.mpr ⟨hc, ?_⟩, hca⟩)
  rw [hac, hce]
  rfl

theorem processAlert_not_futile (h : ¬Futile env t a m) (hf : (a.processAlert env t m).1 = false) :
    (a.processAlert env t m).2 = m := by
  unfold processAlert at hf ⊢
  split
  · rfl
  split
  · rfl
  split
  · rfl
  rename_i hs he hr
  rw [if_neg hs, if_neg he, if_neg hr] at hf
  dsimp only at hf ⊢
  split at hf
  · rename_i hany
    obtain ⟨c, hc, hca⟩ := any_eq_true.mp hany
    obtain ⟨hm, hk⟩ := mem_filter.mp hc
    refine absurd ⟨by simpa using hs, by simpa using he, by simpa using hr, c, hm, ?_, hca⟩ h
    simpa using (Bool.and_eq_true_iff.mp hk).1
  · cases hf

/-- **The reserved alert stays** in every run of alerts that do not name its number (there is no collision of it with a
stored one), and a call that returns false keeps the alerts in effect exactly if the alert is not futile or cancels none
of them. -/
theorem reserved_alert_stays (env : AlertEnv) :
    (∀ (t : Int) (r : CAlert) (m : List CAlert) (l : List (Int × CAlert)), r.nID = maxInt →
      (∀ b ∈ m, env.getHash b = env.getHash r → b = r) → (r.processAlert env t m).1 = true →
      (∀ p ∈ l, p.2.Spares ∧ p.1 < r.nExpiration) →
      r ∈ run env l (r.processAlert env t m).2 ∧ ∀ a ∈ run env l (r.processAlert env t m).2, ¬a.nID < maxInt) ∧
    ∀ (t : Int) (a : CAlert) (m : List CAlert),
      ((a.processAlert env t m).1 = false → ∀ b ∈ m, b.isInEffect t = true → b ∈ (a.processAlert env t m).2) ↔
        (Futile env t a m → ∀ b ∈ m, b.isInEffect t = true → a.cancels t b = false) := by
  constructor
  · intro t r m l hid hinj hac hl
    have hrun : Silenced r (run env l (r.processAlert env t m).2) :=
      foldlRecOn (motive := Silenced r) l _ (.accept hinj hid hac) fun _ h p hp => h.step (hl p hp).1 (hl p hp).2
    exact ⟨hrun.mem, fun a ha => not_lt.mpr (hrun.others a ha)⟩
  · intro t a m
    by_cases hfu : Futile env t a m
    · rw [processAlert_futile hfu]
      refine ⟨fun h _ b hb he => ?_, fun h _ b hb he => mem_filter.mpr ⟨hb, ?_⟩⟩
      · have hk := (mem_filter.mp (h rfl b hb he)).2
        simpa using (Bool.and_eq_true_iff.mp hk).1
      · rw [h hfu b hb he, he]
        rfl
    · refine iff_of_true (fun hf b hb _ => ?_) fun h => absurd h hfu
      rwa [processAlert_not_futile hfu hf]

end CAlert

namespace AlertSample

def env : AlertEnv := ⟨fun a => a.nID.toNat, fun _ => true⟩

def alert (nID nCancel : Int) (setCancel : Finset Int) : CAlert := { nExpiration := maxInt, nID, nCancel, setCancel }

def compromised : CAlert := alert maxInt (maxInt - 1) ∅

theorem reserved_alert_stays_one : compromised.processAlert env 0 [] = (true, [compromised]) ∧
    compromised ∈ CAlert.run env [(1, alert 3 2 {5})] [compromised] ∧
    alert 7 0 ∅ ∈ ((alert 3 2 ∅).processAlert env 0 [alert 7 0 ∅, alert 9 6 ∅]).2 := by
  obtain ⟨hs, hk⟩ := CAlert.reserved_alert_stays env
  refine ⟨by decide +kernel, ?_, (hk 0 (alert 3 2 ∅) [alert 7 0 ∅, alert 9 6 ∅]).mpr (fun _ => ?_) ?_ _ ?_ ?_⟩
  · have hone := (hs 0 compromised [] [(1, alert 3 2 {5})] rfl (by simp) (by decide +kernel) ?_).1
    · rwa [show compromised.processAlert env 0 [] = (true, [compromised]) by decide +kernel] at hone
    · intro p hp
      obtain rfl := mem_singleton.mp hp
      exact ⟨⟨by decide, by decide⟩, by decide⟩
  all_goals decide +kernel

/-- An alert that cancels `INT_MAX` takes the place of the reserved one; and alert 3, which alert 9 cancels, has
cancelled alert 7 by then. -/
theorem reserved_alert_silenced : (compromised.processAlert env 0 []).1 = true ∧
    (alert 3 maxInt ∅).processAlert env 1 (compromised.processAlert env 0 []).2 = (true, [alert 3 maxInt ∅]) ∧
    (alert 3 2 {7}).processAlert env 0 [alert 7 0 ∅, alert 9 6 ∅] = (false, [alert 9 6 ∅]) := by
  decide +kernel

end AlertSample
end CloakCoin.Net
