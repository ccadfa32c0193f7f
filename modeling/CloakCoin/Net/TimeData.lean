import CloakCoin.Lib.Run
import CloakCoin.Lib.Word

/-!
# The adjusted clock

`AddTimeData` adjusts the clock by the median of what peers say, within 14 minutes. A sample is a signed
64-bit number, and the least of these is its own negation: `abs64` leaves it as it is, and the test that
should keep the adjustment small lets it through.
-/

namespace CloakCoin.Net

open Lib List

def defaultMaxTimeAdjustment : Int := 14 * 60
def cloakcoinTimedataMaxSamples : Nat := 200

/-- The least 64-bit number. -/
def int64Min : Int := -2 ^ 63

/-- The absolute value of a 64-bit number, as a 64-bit number: negative for `int64Min`. -/
def abs64 (n : Int) : Int := if n ≥ 0 then n else int64 (-n)

theorem abs64_of_lt {n : Int} (h : int64Min < n) (hn : n < 2 ^ 63) : abs64 n = |n| := by
  unfold int64Min at h
  unfold abs64
  split
  · rename_i h0
    exact (abs_of_nonneg h0).symm
  · rw [int64_of_fits ⟨by omega, by omega⟩, abs_of_neg (by omega)]

/-! ## The median filter -/

/-- `CMedianFilter`; its sorted copy is computed when it is read. -/
structure CMedianFilter where
  nSize : Nat
  vValues : List Int

namespace CMedianFilter

variable (f : CMedianFilter)

/-- The oldest value makes room for a new one. -/
def input (value : Int) : CMedianFilter :=
  { f with vValues := (if f.vValues.length = f.nSize then f.vValues.tail else f.vValues) ++ [value] }

def sorted : List Int := f.vValues.insertionSort (· ≤ ·)

def median : Int :=
  let size := f.sorted.length
  if size % 2 = 1 then f.sorted.getD (size / 2) 0
  else (int64 (f.sorted.getD (size / 2 - 1) 0 + f.sorted.getD (size / 2) 0)).tdiv 2

def maxAbs : Int := max (abs64 (f.sorted.getD 0 0)) (abs64 (f.sorted.getD (f.sorted.length - 1) 0))

/-- How many values lie from `a` to `b`. -/
def samplesIn (a b : Int) : Nat := f.vValues.countP fun x => a ≤ x ∧ x ≤ b

end CMedianFilter

/-- The middle of a sorted list lies where most of the list does. -/
theorem middle_mem {l1 l2 : List Int} {x a b : Int} (hs : (l1 ++ x :: l2).Pairwise (· ≤ ·))
    (hle : l1.length = l2.length)
    (hm : (l1 ++ x :: l2).length < 2 * (l1 ++ x :: l2).countP fun y => a ≤ y ∧ y ≤ b) : a ≤ x ∧ x ≤ b := by
  obtain ⟨-, hr, hl⟩ := pairwise_append.mp hs
  by_contra hx
  rw [countP_append, countP_cons_of_neg (by simpa using hx), length_append, length_cons] at hm
  have h1 := l1.countP_le_length (p := fun y => a ≤ y ∧ y ≤ b)
  have h2 := l2.countP_le_length (p := fun y => a ≤ y ∧ y ≤ b)
  rcases lt_or_ge x a with hlt | hge
  · have hn : l1.countP (fun y => a ≤ y ∧ y ≤ b) = 0 := by
      refine countP_eq_zero.mpr fun y hy => ?_
      have hyx := hl y hy x mem_cons_self
      simp; omega
    omega
  · have hn : l2.countP (fun y => a ≤ y ∧ y ≤ b) = 0 := by
      refine countP_eq_zero.mpr fun y hy => ?_
      have hxy := rel_of_pairwise_cons hr hy
      simp; omega
    omega

namespace CMedianFilter

variable {f : CMedianFilter} {a b : Int}

theorem median_eq_getElem (ho : f.vValues.length % 2 = 1) :
    ∃ h : f.sorted.length / 2 < f.sorted.length, f.median = f.sorted[f.sorted.length / 2] := by
  have hp : f.sorted.Perm f.vValues := perm_insertionSort _ _
  rw [← hp.length_eq] at ho
  have hmi : f.sorted.length / 2 < f.sorted.length := by omega
  exact ⟨hmi, by simp [median, ho, getElem?_eq_getElem hmi]⟩

theorem median_mem_vValues (ho : f.vValues.length % 2 = 1) : f.median ∈ f.vValues := by
  obtain ⟨hmi, hme⟩ := median_eq_getElem ho
  rw [hme]
  exact (perm_insertionSort (· ≤ ·) f.vValues).mem_iff.mp (getElem_mem hmi)

theorem median_mem (ho : f.vValues.length % 2 = 1) (hm : f.vValues.length < 2 * f.samplesIn a b) :
    a ≤ f.median ∧ f.median ≤ b := by
  obtain ⟨hmi, hme⟩ := median_eq_getElem ho
  have hp : f.sorted.Perm f.vValues := perm_insertionSort _ _
  have hso : f.sorted.Pairwise (· ≤ ·) := pairwise_insertionSort _ _
  rw [samplesIn, ← hp.countP_eq] at hm
  rw [← hp.length_eq] at ho hm
  have hs := take_append_drop (f.sorted.length / 2) f.sorted
  rw [drop_eq_getElem_cons hmi] at hs
  rw [hme]
  rw [← hs] at hso
  refine middle_mem hso ?_ (by rwa [hs])
  rw [length_take, length_drop]
  omega

end CMedianFilter

/-! ## The samples -/

/-- The statics of `util.cpp`. -/
structure TimeData where
  /-- The addresses heard from, as numbers. -/
  setKnown : Finset Nat := ∅
  vTimeOffsets : CMedianFilter := ⟨cloakcoinTimedataMaxSamples, [0]⟩
  nMaxObservedTimeOffset : Int := 0
  nTimeOffset : Int := 0

/-- A peer's address and the time in its version message, at a local time. -/
structure VersionTime where
  ip : Nat
  nTime : Int
  getTime : Int

def VersionTime.nOffsetSample (v : VersionTime) : Int := int64 (v.nTime - v.getTime)

def addTimeData (v : VersionTime) (s : TimeData) : TimeData :=
  if s.setKnown.card = cloakcoinTimedataMaxSamples then s
  else if v.ip ∈ s.setKnown then s
  else
    let vTimeOffsets := s.vTimeOffsets.input v.nOffsetSample
    let s := { s with
      setKnown := insert v.ip s.setKnown
      vTimeOffsets := vTimeOffsets
      nMaxObservedTimeOffset := vTimeOffsets.maxAbs }
    if vTimeOffsets.vValues.length ≥ 5 ∧ vTimeOffsets.vValues.length % 2 = 1 then
      let nMedian := vTimeOffsets.median
      -- only let other nodes change our time by so much
      { s with nTimeOffset := if abs64 nMedian < max 0 defaultMaxTimeAdjustment then nMedian else 0 }
    else s

def TimeData.getAdjustedTime (s : TimeData) (getTime : Int) : Int := int64 (getTime + s.nTimeOffset)

/-- The calls of `AddTimeData` since the start, each with a version time that `ok` allows. -/
abbrev TimeRun (ok : VersionTime → Prop) (l : List (TimeData × VersionTime)) (s : TimeData) : Prop :=
  Trace addTimeData (fun v _ => ok v) {} l s

/-- The sample has an absolute value in 64 bits. -/
def VersionTime.Sane (v : VersionTime) : Prop := v.nOffsetSample ≠ int64Min

/-- `AddTimeData` comes to the point where it sets the offset. -/
def TimeData.updates (v : VersionTime) (s : TimeData) : Prop :=
  s.setKnown.card ≠ cloakcoinTimedataMaxSamples ∧ v.ip ∉ s.setKnown ∧
    5 ≤ (s.vTimeOffsets.input v.nOffsetSample).vValues.length ∧
    (s.vTimeOffsets.input v.nOffsetSample).vValues.length % 2 = 1

section
variable {ok : VersionTime → Prop} {l : List (TimeData × VersionTime)} {s : TimeData} {v : VersionTime}

theorem addTimeData_of_updates (h : s.updates v) :
    (addTimeData v s).vTimeOffsets = s.vTimeOffsets.input v.nOffsetSample ∧
      ((addTimeData v s).nTimeOffset = 0 ∨ (addTimeData v s).nTimeOffset = (addTimeData v s).vTimeOffsets.median ∧
        abs64 (addTimeData v s).vTimeOffsets.median < defaultMaxTimeAdjustment) := by
  obtain ⟨hr, hn, hs⟩ := h
  unfold addTimeData
  dsimp only
  rw [if_neg hr, if_neg hn, if_pos hs]
  refine ⟨rfl, ?_⟩
  split
  · rename_i hm
    exact .inr ⟨rfl, hm⟩
  · exact .inl rfl

theorem addTimeData_of_not_updates (h : ¬s.updates v) : (addTimeData v s).nTimeOffset = s.nTimeOffset ∧
    ((addTimeData v s).vTimeOffsets = s.vTimeOffsets ∨
      (addTimeData v s).vTimeOffsets = s.vTimeOffsets.input v.nOffsetSample) := by
  unfold addTimeData
  dsimp only
  split
  · exact ⟨rfl, .inl rfl⟩
  split
  · exact ⟨rfl, .inl rfl⟩
  split
  · rename_i hr hn hs
    exact absurd ⟨hr, hn, hs⟩ h
  · exact ⟨rfl, .inr rfl⟩

theorem VersionTime.nOffsetSample_fits : Fits v.nOffsetSample := by
  refine ⟨?_, ?_⟩
  · have h := Int.le_bmod (x := v.nTime - v.getTime) (m := 2 ^ 64) (by norm_num)
    exact h
  · have h := Int.bmod_lt (x := v.nTime - v.getTime) (m := 2 ^ 64) (by norm_num)
    exact h

/-- A value of the filter is the zero it started with or a sample of the run. -/
theorem TimeRun.vValues (h : TimeRun ok l s) {x : Int} (hx : x ∈ s.vTimeOffsets.vValues) :
    x = 0 ∨ ∃ v, ok v ∧ x = v.nOffsetSample := by
  induction h generalizing x with
  | start => exact .inl (mem_singleton.mp hx)
  | @step l s v _ hok ih =>
    have hf : (addTimeData v s).vTimeOffsets = s.vTimeOffsets ∨
        (addTimeData v s).vTimeOffsets = s.vTimeOffsets.input v.nOffsetSample := by
      by_cases hu : s.updates v
      · exact .inr (addTimeData_of_updates hu).1
      · exact (addTimeData_of_not_updates hu).2
    rcases hf with hf | hf <;> rw [hf] at hx
    · exact ih hx
    · rcases mem_append.mp hx with hx | hx
      · split at hx
        · exact ih (mem_of_mem_tail hx)
        · exact ih hx
      · exact .inr ⟨v, hok, mem_singleton.mp hx⟩

/-- The adjustment is small, or it is the one number that `abs64` does not make positive. -/
theorem TimeRun.nTimeOffset (h : TimeRun ok l s) : |s.nTimeOffset| < defaultMaxTimeAdjustment ∨
    s.nTimeOffset = int64Min ∧ ∃ v, ok v ∧ v.nOffsetSample = int64Min := by
  induction h with
  | start => exact .inl (by decide)
  | @step l s v h hok ih =>
    by_cases hu : s.updates v
    · obtain ⟨hf, hz | ⟨hm, hab⟩⟩ := addTimeData_of_updates hu
      · rw [hz]
        exact .inl (by decide)
      have hmem := CMedianFilter.median_mem_vValues (f := (addTimeData v s).vTimeOffsets) (by rw [hf]; exact hu.2.2.2)
      rw [hm]
      rcases TimeRun.vValues (.step v h hok) hmem with hz | ⟨w, hw, heq⟩
      · rw [hz]
        exact .inl (by decide)
      · by_cases hmin : w.nOffsetSample = int64Min
        · exact .inr ⟨heq.trans hmin, w, hw, hmin⟩
        · have hfit := w.nOffsetSample_fits
          rw [heq, abs64_of_lt (lt_of_le_of_ne hfit.1 (Ne.symm hmin)) hfit.2] at hab
          rw [heq]
          exact .inl hab
    · rw [(addTimeData_of_not_updates hu).1]
      exact ih

theorem TimeRun.adjustment_bounded (h : TimeRun VersionTime.Sane l s) : |s.nTimeOffset| < defaultMaxTimeAdjustment := by
  rcases h.nTimeOffset with hb | ⟨-, v, hv, hmin⟩
  · exact hb
  · exact absurd hmin hv

theorem network_time_robust (h : TimeRun VersionTime.Sane l s) (hv : v.Sane) :
    |(addTimeData v s).nTimeOffset| < defaultMaxTimeAdjustment ∧ ∀ a b, s.updates v →
      (addTimeData v s).vTimeOffsets.vValues.length < 2 * (addTimeData v s).vTimeOffsets.samplesIn a b →
      (a ≤ (addTimeData v s).nTimeOffset ∧ (addTimeData v s).nTimeOffset ≤ b) ∨ (addTimeData v s).nTimeOffset = 0 := by
  refine ⟨TimeRun.adjustment_bounded (.step v h hv), fun a b hu hmo => ?_⟩
  obtain ⟨hf, hz | ⟨hm, -⟩⟩ := addTimeData_of_updates hu
  · exact .inr hz
  · rw [hm]
    exact .inl (CMedianFilter.median_mem (by rw [hf]; exact hu.2.2.2) hmo)

theorem TimeRun.foldl : ∀ (vs : List VersionTime) {l : List (TimeData × VersionTime)} {s : TimeData}, TimeRun ok l s →
    (∀ v ∈ vs, ok v) → ∃ l', TimeRun ok l' (vs.foldl (fun s v => addTimeData v s) s)
  | [], l, _, h, _ => ⟨l, h⟩
  | v :: vs, _, _, h, hok =>
    TimeRun.foldl vs (.step v h (hok v mem_cons_self)) fun w hw => hok w (mem_cons_of_mem v hw)

end

/-! ## Peers that agree on a wrong time -/

/-- Four peers that all send `1000 + sample` at local time 1000. -/
def peers (sample : Int) : List VersionTime := [1, 2, 3, 4].map fun ip => ⟨ip, 1000 + sample, 1000⟩

def clockOf (vs : List VersionTime) : TimeData := vs.foldl (fun s v => addTimeData v s) {}

theorem peers_sane : ∀ v ∈ peers (-839), v.Sane := by
  unfold VersionTime.Sane
  decide

theorem clockOf_late : (clockOf (peers (-839))).nTimeOffset = -839 := by decide

theorem clockOf_least : (clockOf (peers int64Min)).nTimeOffset = int64Min := by decide

/-- Four peers are late by 839 seconds; with the fourth they outvote the zero the filter starts with. -/
theorem network_time_robust_late : ∃ l s, TimeRun VersionTime.Sane l s ∧ s.updates ⟨4, 161, 1000⟩ ∧
    (addTimeData ⟨4, 161, 1000⟩ s).vTimeOffsets.samplesIn (-839) (-839) = 4 ∧
    |(addTimeData ⟨4, 161, 1000⟩ s).nTimeOffset| < defaultMaxTimeAdjustment ∧
    (addTimeData ⟨4, 161, 1000⟩ s).nTimeOffset = -839 := by
  obtain ⟨l, hrun⟩ := TimeRun.foldl ((peers (-839)).take 3) .start fun v hv => peers_sane v (mem_of_mem_take hv)
  obtain ⟨hb, hm⟩ := network_time_robust hrun (v := ⟨4, 161, 1000⟩) (by unfold VersionTime.Sane; decide)
  have hu : (((peers (-839)).take 3).foldl (fun s v => addTimeData v s) {}).updates ⟨4, 161, 1000⟩ :=
    ⟨by decide, by decide, by decide, by decide⟩
  refine ⟨l, _, hrun, hu, by decide, hb, ?_⟩
  rcases hm (-839) (-839) hu (by decide) with hmem | hz
  · exact le_antisymm hmem.2 hmem.1
  · exact absurd hz (by decide)

/-- Four peers send the time that differs from ours by the least 64-bit number, and that becomes the offset. -/
theorem time_offset_unbounded : ∃ l, TimeRun (fun _ => True) l (clockOf (peers int64Min)) ∧
    (clockOf (peers int64Min)).nTimeOffset = -2 ^ 63 ∧
    ¬|(clockOf (peers int64Min)).nTimeOffset| < defaultMaxTimeAdjustment := by
  obtain ⟨l, hrun⟩ := TimeRun.foldl (peers int64Min) .start fun _ _ => trivial
  exact ⟨l, hrun, clockOf_least, by rw [clockOf_least]; decide⟩

end CloakCoin.Net
