import CloakCoin.Net.AddrNew

/-!
# The tried buckets

`MakeTried` takes an entry out of all its new buckets and puts it into a tried one. If that one is full, an entry of it
goes back to a new bucket: its own, or the one the entry came from, where there is place now.
-/

namespace CloakCoin.Net

open Lib List Function

namespace CAddrMan

variable {s t : CAddrMan} {nId : Nat} {info info' : CAddrInfo} {b : NewBucket} {k : TriedBucket} {l : List Nat}

/-! ## The bucket -/

theorem selectTried_spec : ∀ (fuel i : Nat) (l : List Nat) (nOldest : Option (Nat × Nat)) (rng : Draws),
    (∀ n ∈ l, ∃ info, s.mapInfo n = some info) → (∀ p ∈ nOldest, p.1 ∈ l ∧ p.2 < l.length) →
    (nOldest.isSome = true ∨ 0 < fuel ∧ i < l.length) →
    ∃ l' p, s.selectTried fuel i l nOldest rng = some (l', some p) ∧ l'.Perm l ∧ p < l.length
  | 0, i, l, nOldest, rng, _, hold, hd => by
    cases nOldest with
    | none => simp at hd
    | some p => exact ⟨l, p.2, rfl, List.Perm.refl l, (hold p rfl).2⟩
  | fuel + 1, i, l, nOldest, rng, hk, hold, hd => by
    unfold selectTried
    split
    · cases nOldest with
      | none =>
        simp only [Option.isSome_none, Bool.false_eq_true, false_or] at hd
        omega
      | some p => exact ⟨l, p.2, rfl, List.Perm.refl l, (hold p rfl).2⟩
    rename_i hi
    have hi' : i < l.length := not_le.mp hi
    simp only
    have hr := getRand_lt (Nat.sub_pos_of_lt hi') rng
    generalize getRand (l.length - i) rng = draw at hr ⊢
    have hpo : draw.1 + i < l.length := by omega
    rw [getElem?_eq_getElem hpo, getElem?_eq_getElem hi']
    simp only
    have hpe : ((l.set (draw.1 + i) l[i]).set i l[draw.1 + i]).Perm l := set_set_perm hpo hi'
    have hmem : l[draw.1 + i] ∈ l := getElem_mem hpo
    generalize hl' : (l.set (draw.1 + i) l[i]).set i l[draw.1 + i] = l' at hpe ⊢
    have hk' : ∀ n ∈ l', ∃ info, s.mapInfo n = some info := fun n hn => hk n (hpe.mem_iff.mp hn)
    have hne : ∀ next : Nat × Nat, next.1 ∈ l → next.2 < l.length →
        ∃ l'' p, s.selectTried fuel (i + 1) l' (some next) draw.2 = some (l'', some p) ∧ l''.Perm l ∧ p < l.length := by
      intro next h1 h2
      obtain ⟨l'', p, heq, hp, hlt⟩ := selectTried_spec fuel (i + 1) l' (some next) draw.2 hk'
        (by
          intro q hq
          cases hq
          exact ⟨hpe.mem_iff.mpr h1, hpe.length_eq ▸ h2⟩) (.inl rfl)
      exact ⟨l'', p, heq, hp.trans hpe, hpe.length_eq ▸ hlt⟩
    cases nOldest with
    | none => exact hne _ hmem hpo
    | some p =>
      obtain ⟨info, hin⟩ := hk _ hmem
      obtain ⟨infoOld, hio⟩ := hk _ (hold p rfl).1
      simp only [hin, hio]
      split
      · exact hne _ hmem hpo
      · exact hne p (hold p rfl).1 (hold p rfl).2

theorem sum_length_update (vv : TriedBucket → List Nat) (k : TriedBucket) (l : List Nat) :
    ∑ j, ((Function.update vv k l j).length : Int) = ∑ j, ((vv j).length : Int) - (vv k).length + l.length := by
  have hf : (fun j => ((Function.update vv k l j).length : Int)) =
      Function.update (fun j => ((vv j).length : Int)) k (l.length : Int) := by
    funext j
    by_cases hj : j = k
    · subst hj
      simp
    · simp [hj]
  rw [hf, Finset.sum_update_of_mem (Finset.mem_univ k),
    Finset.sum_eq_add_sum_sdiff_singleton_of_mem (Finset.mem_univ k)]
  ring

theorem Shelved.updateTried (h : Shelved s) (hn : l.Nodup) (hl : l.length ≤ addrmanTriedBucketSize)
    (hne : t.vvNew = s.vvNew) (ht : t.vvTried = Function.update s.vvTried k l)
    (hc : t.nTried = s.nTried - (s.vvTried k).length + l.length) : Shelved t where
  nodupNew := hne ▸ h.nodupNew
  nodupTried := ht ▸ (forall_update_iff s.vvTried fun _ l => l.Nodup).mpr ⟨hn, fun c _ => h.nodupTried c⟩
  newSize := hne ▸ h.newSize
  triedSize := ht ▸ (forall_update_iff s.vvTried fun _ l => l.length ≤ addrmanTriedBucketSize).mpr
    ⟨hl, fun c _ => h.triedSize c⟩
  nTried := by
    rw [hc, ht, sum_length_update, h.nTried]

theorem Shelved.eraseAll (h : Shelved s) (n : Nat) : Shelved { s with vvNew := fun b => (s.vvNew b).erase n } where
  nodupNew b := (h.nodupNew b).erase n
  nodupTried := h.nodupTried
  newSize b := length_erase_le.trans (h.newSize b)
  triedSize := h.triedSize
  nTried := h.nTried

theorem fits_promoted (hr : t.refs nId = some (true, 0)) (hn : ∀ c, nId ∉ t.vvNew c)
    (ht : ∀ c, nId ∈ t.vvTried c ↔ c = k) : Fits d (t.standing nId) := by
  show Fits d ⟨t.refs nId, (t.standing nId).inNew, (t.standing nId).inTried⟩
  rw [hr, fits_tried]
  refine ⟨rfl, ?_, k, ?_⟩
  · ext c
    simp [mem_inNew, hn]
  · ext c
    simp [mem_inTried, ht]

theorem fits_demoted (hr : t.refs nId = some (false, 1)) (hn : ∀ c, nId ∈ t.vvNew c ↔ c = b)
    (ht : ∀ c, nId ∉ t.vvTried c) : Fits none (t.standing nId) := by
  show Fits none ⟨t.refs nId, (t.standing nId).inNew, (t.standing nId).inTried⟩
  have hN : (t.standing nId).inNew = {b} := by
    ext c
    simp [mem_inNew, hn]
  rw [hr, hN, fits_new]
  refine ⟨?_, by decide, by simp, Finset.singleton_nonempty b⟩
  ext c
  simp [mem_inTried, ht]

theorem mem_set_iff_of_nodup (hn : l.Nodup) (hold : l[p]? = some old) :
    ∀ m, m ∈ l.set p n ↔ m = n ∨ m ∈ l ∧ m ≠ old := by
  obtain ⟨hp, hg⟩ := List.getElem?_eq_some_iff.mp hold
  intro m
  constructor
  · intro hm
    obtain ⟨i, hi, him⟩ := mem_iff_getElem.mp hm
    rw [getElem_set] at him
    split at him
    · exact .inl him.symm
    rename_i hne
    rw [length_set] at hi
    refine .inr ⟨him ▸ getElem_mem hi, ?_⟩
    rintro rfl
    exact hne (hn.getElem_inj_iff.mp (hg.trans him.symm))
  · rintro (rfl | ⟨hm, hne⟩)
    · exact mem_set hp m
    · obtain ⟨i, hi, him⟩ := mem_iff_getElem.mp hm
      have hip : p ≠ i := by
        rintro rfl
        exact hne (him.symm.trans hg)
      apply mem_iff_getElem.mpr
      refine ⟨i, by rwa [length_set], ?_⟩
      rw [getElem_set_ne hip, him]

/-! ## `MakeTried` -/

theorem Tables.notMem_tried (h : Tables settled s) (hmem : nId ∈ s.vvNew b) : ∀ c, nId ∉ s.vvTried c := by
  intro c hc
  obtain ⟨-, hn, -⟩ := (h.fits nId).of_inTried (mem_inTried.mpr hc)
  rw [← mem_inNew, hn] at hmem
  exact Finset.notMem_empty b hmem

section
variable (h : Tables settled s) (hid : s.mapInfo nId = some info) (hmem : nId ∈ s.vvNew b)
include h hid hmem

theorem Tables.promote (hro : (s.vvTried k).length < addrmanTriedBucketSize) (hip : info'.service.ip = info.service.ip)
    (hp : info'.nRandomPos = info.nRandomPos) (htr : info'.fInTried = true) (hco : info'.nRefCount = 0) :
    Tables settled { s.setInfo nId info' with
      vvNew := fun c => (s.vvNew c).erase nId
      nNew := s.nNew - 1
      vvTried := Function.update s.vvTried k (s.vvTried k ++ [nId])
      nTried := s.nTried + 1 } := by
  have hno := h.notMem_tried hmem
  obtain ⟨hf, hi, ha⟩ := h.toListed.setInfo hid hip hp
  obtain ⟨t, ht⟩ : ∃ t, t = { s.setInfo nId info' with
      vvNew := fun c => (s.vvNew c).erase nId
      nNew := s.nNew - 1
      vvTried := Function.update s.vvTried k (s.vvTried k ++ [nId])
      nTried := s.nTried + 1 } := ⟨_, rfl⟩
  have hN : ∀ n c, n ∈ t.vvNew c ↔ n ∈ s.vvNew c ∧ n ≠ nId := by
    intro n c
    rw [ht, (h.nodupNew c).mem_erase_iff, and_comm]
  have hT : ∀ n c, n ∈ t.vvTried c ↔ n ∈ s.vvTried c ∨ n = nId ∧ c = k := by
    intro n c
    rw [ht]
    by_cases hc : c = k
    · subst hc
      simp
    · simp [hc]
  have hr : t.refs = Function.update s.refs nId (some (true, 0)) := by
    rw [ht, ← htr, ← hco]
    exact map_setInfo _
  rw [← ht]
  refine ⟨ht ▸ ⟨hf, hi, ha⟩, ?_, ?_, ?_⟩
  · rw [ht]
    refine (h.toShelved.eraseAll nId).updateTried ?_ ?_ rfl rfl ?_
    · apply List.Nodup.append (h.nodupTried k) (nodup_singleton nId)
      simpa using hno k
    · rw [length_append]
      exact hro
    · show s.nTried + 1 = s.nTried - (s.vvTried k).length + (s.vvTried k ++ [nId]).length
      rw [length_append, length_singleton]
      omega
  · intro n
    by_cases hn : n = nId
    · subst hn
      refine fits_promoted (k := k) ?_ ?_ ?_
      · rw [hr, update_self]
      · simp [hN]
      · intro c
        simp [hT, hno c]
    · rw [standing_congr (t := t) (s := s)]
      · exact h.fits n
      · rw [hr, update_of_ne hn]
      · simp [hN, hn]
      · simp [hT, hn]
  · have hto := h.total
    rw [ht]
    show s.nNew - 1 + (s.nTried + 1) = (s.vRandom.length : Int)
    omega

theorem Tables.replace (hi : s.mapInfo old = some infoOld)
    (hp : l.Perm (s.vvTried k)) (hold : l[p]? = some old) (hro : ((s.vvNew c).erase nId).length < addrmanNewBucketSize)
    (hip : info'.service.ip = info.service.ip) (hpos : info'.nRandomPos = info.nRandomPos) (htr : info'.fInTried = true)
    (hco : info'.nRefCount = 0) (hio : infoOld'.service.ip = infoOld.service.ip)
    (hpo : infoOld'.nRandomPos = infoOld.nRandomPos) (hto : infoOld'.fInTried = false) (hc : infoOld'.nRefCount = 1) :
    Tables settled { (s.setInfo old infoOld').setInfo nId info' with
      vvNew := Function.update (fun c => (s.vvNew c).erase nId) c (insertId old ((s.vvNew c).erase nId))
      nNew := s.nNew - 1 + 1
      vvTried := Function.update s.vvTried k (l.set p nId) } := by
  have hnot := h.notMem_tried hmem
  have ho : old ∈ s.vvTried k := hp.mem_iff.mp (mem_of_getElem? hold)
  obtain ⟨-, hon, hoi⟩ := (h.fits old).of_inTried (mem_inTried.mpr ho)
  have hne : nId ≠ old := by
    rintro rfl
    exact hnot k ho
  have hnod : l.Nodup := hp.nodup_iff.mpr (h.nodupTried k)
  have hi' : (s.setInfo old infoOld').mapInfo nId = some info := by
    rw [setInfo_ne hne, hid]
  obtain ⟨hf, hind, had⟩ := (h.toListed.setInfo hi hio hpo).setInfo hi' hip hpos
  obtain ⟨t, ht⟩ : ∃ t, t = { (s.setInfo old infoOld').setInfo nId info' with
      vvNew := Function.update (fun c => (s.vvNew c).erase nId) c (insertId old ((s.vvNew c).erase nId))
      nNew := s.nNew - 1 + 1
      vvTried := Function.update s.vvTried k (l.set p nId) } := ⟨_, rfl⟩
  have hN : ∀ n a, n ∈ t.vvNew a ↔ (n ∈ s.vvNew a ∧ n ≠ nId) ∨ n = old ∧ a = c := by
    intro n a
    rw [ht]
    rw [@mem_update_insertId _ _ _ _ fun c => (s.vvNew c).erase nId,
      (h.nodupNew a).mem_erase_iff, and_comm (a := n ≠ nId)]
  have hT : ∀ n a, n ∈ t.vvTried a ↔ (n ∈ s.vvTried a ∧ ¬(n = old ∧ a = k)) ∨ n = nId ∧ a = k := by
    intro n a
    rw [ht]
    show n ∈ Function.update s.vvTried k (l.set p nId) a ↔ _
    by_cases ha : a = k
    · subst ha
      rw [update_self, mem_set_iff_of_nodup hnod hold n, hp.mem_iff]
      simp [or_comm]
    · simp [ha]
  have hr : t.refs = Function.update (Function.update s.refs old (some (false, 1))) nId (some (true, 0)) := by
    rw [ht, ← htr, ← hco, ← hto, ← hc]
    exact (map_setInfo _).trans (by rw [map_setInfo]; rfl)
  rw [← ht]
  refine ⟨ht ▸ ⟨hf, hind, had⟩, ?_, ?_, ?_⟩
  · have hl : (l.set p nId).length = (s.vvTried k).length := by rw [length_set, hp.length_eq]
    have hs := (h.toShelved.eraseAll nId).updateTried (k := k)
      (t := { s with vvNew := fun b => (s.vvNew b).erase nId, vvTried := Function.update s.vvTried k (l.set p nId) })
      (hnod.set (fun hin => hnot k (hp.mem_iff.mp hin))) (hl ▸ h.triedSize k) rfl rfl
      (by rw [hl]; exact (sub_add_cancel s.nTried _).symm)
    rw [ht]
    refine hs.updateNew (nodup_insertId ((h.nodupNew c).erase nId)) ?_ rfl rfl rfl
    exact (length_insertId_le old _).trans hro
  · intro n
    by_cases hn : n = nId
    · subst hn
      refine fits_promoted (k := k) ?_ ?_ ?_
      · rw [hr, update_self]
      · simp [hN, hne]
      · intro a
        simp [hT, hnot a]
    by_cases hno : n = old
    · subst hno
      refine fits_demoted (b := c) ?_ ?_ ?_
      · rw [hr, update_of_ne hn, update_self]
      · intro a
        have hou : n ∉ s.vvNew a := by
          rw [← mem_inNew, hon]
          exact Finset.notMem_empty a
        simp [hN, hou]
      · intro a
        have hin : n ∈ s.vvTried a → a = k := by
          rw [← mem_inTried, hoi, Finset.mem_singleton]
          exact id
        simp only [hT, hn, true_and, false_and, or_false, not_and, not_not]
        exact hin
    · rw [standing_congr (t := t) (s := s)]
      · exact h.fits n
      · rw [hr, update_of_ne hn, update_of_ne hno]
      · simp [hN, hn, hno]
      · simp [hT, hn, hno]
  · have htot := h.total
    rw [ht]
    show s.nNew - 1 + 1 + s.nTried = (s.vRandom.length : Int)
    omega

end

theorem Tables.makeTried (env : AddrEnv) (h : Tables settled s) (hid : s.mapInfo nId = some info)
    (ho : nId ∈ s.vvNew b) (rng : Draws) : ∃ t, s.makeTried env nId b rng = some t ∧ Tables settled t := by
  obtain ⟨hne, hno, hle, hc⟩ := h.record hid ho rfl
  have hz : info.nRefCount - (s.newBuckets nId).card = 0 := by
    rw [hc]
    exact Int.sub_self _
  unfold CAddrMan.makeTried
  simp only [hid, ho, not_true_eq_false, if_false, hz, ne_eq]
  generalize env.getTriedBucket info.service = k
  split
  · rename_i hr
    exact ⟨_, rfl, h.promote hid ho hr rfl rfl rfl rfl⟩
  rename_i hf
  have hpo : 0 < (s.vvTried k).length := lt_of_lt_of_le (by decide) (not_lt.mp hf)
  obtain ⟨l, p, hs, hpe, hp⟩ := selectTried_spec addrmanTriedEntriesInspectOnEvict 0 (s.vvTried k) none rng
    (fun n hn => h.known_tried hn) (fun q hq => by cases hq) (.inr ⟨by decide, hpo⟩)
  rw [hs]
  simp only
  obtain ⟨old, hold⟩ : ∃ old, l[p]? = some old := ⟨_, getElem?_eq_getElem (hpe.length_eq ▸ hp)⟩
  obtain ⟨infoOld, hi⟩ := h.known_tried (hpe.mem_iff.mp (mem_of_getElem? hold))
  rw [hold]
  simp only [hi]
  refine ⟨_, rfl, h.replace hid ho hi hpe hold ?_ rfl rfl rfl rfl rfl rfl rfl rfl⟩
  split
  · assumption
  rw [length_erase_of_mem ho]
  have := h.newSize b
  have : 0 < (s.vvNew b).length := length_pos_of_mem ho
  omega

/-! ## Which entry is evicted -/

def lastSuccess (s : CAddrMan) (nId : Nat) : Int := ((s.mapInfo nId).map CAddrInfo.nLastSuccess).getD 0

/-- The entries `SelectTried` looks at: it swaps each of them to the front. -/
def inspected (s : CAddrMan) (k : TriedBucket) (rng : Draws) : List Nat :=
  ((s.selectTried addrmanTriedEntriesInspectOnEvict 0 (s.vvTried k) none rng).map fun r =>
    r.1.take addrmanTriedEntriesInspectOnEvict).getD []

/-- The position of the oldest entry is noted before the entry is swapped away, so it is right as long as each
draw takes the entry that stands at the place of its round. -/
theorem selectTried_inPlace : ∀ (fuel i : Nat) (nOldest : Option (Nat × Nat)) (rng : Draws) {l' : List Nat} {p : Nat},
    i + fuel ≤ l.length → (∀ j < fuel, rng.get j % (l.length - (i + j)) = 0) →
    (∀ q ∈ nOldest, l[q.2]? = some q.1 ∧ ∀ n ∈ l.take i, s.lastSuccess q.1 ≤ s.lastSuccess n) →
    (nOldest = none → i = 0) → s.selectTried fuel i l nOldest rng = some (l', some p) →
    l' = l ∧ ∃ old, l[p]? = some old ∧ ∀ n ∈ l.take (i + fuel), s.lastSuccess old ≤ s.lastSuccess n
  | 0, i, nOldest, rng, l', p, _, _, hold, _, h => by
    obtain ⟨rfl, hp⟩ : l = l' ∧ nOldest.map Prod.snd = some p := by simpa [selectTried] using h
    obtain ⟨q, hq, rfl⟩ := Option.map_eq_some_iff.mp hp
    exact ⟨rfl, q.1, hold q hq⟩
  | fuel + 1, i, nOldest, rng, l', p, hle, hd, hold, hno, h => by
    have hi : i < l.length := by omega
    have hdra : getRand (l.length - i) rng = (0, rng.tail) := by
      rw [getRand, if_neg (by omega)]
      exact congrArg (·, rng.tail) (hd 0 (by omega))
    have hr : ∀ j < fuel, rng.tail.get j % (l.length - (i + 1 + j)) = 0 := fun j hj => by
      rw [Nat.add_right_comm]
      exact hd (j + 1) (by omega)
    have ht : ∀ n ∈ l.take (i + 1), n ∈ l.take i ∨ n = l[i] := fun n hn => by
      rw [take_succ_eq_append_getElem hi, mem_append, mem_singleton] at hn
      exact hn
    unfold selectTried at h
    simp only [not_le.mpr hi, if_false, hdra, Nat.zero_add, getElem?_eq_getElem hi, set_getElem_self] at h
    rw [← Nat.add_assoc, Nat.add_right_comm]
    cases nOldest with
    | none =>
      refine selectTried_inPlace fuel (i + 1) _ _ (by omega) hr ?_ (by simp) h
      rintro q ⟨rfl⟩
      refine ⟨getElem?_eq_getElem hi, fun n hn => ?_⟩
      rcases ht n hn with hn | rfl
      · simp [hno rfl] at hn
      · exact le_refl _
    | some q =>
      obtain ⟨hq, hl⟩ := hold q rfl
      simp only at h
      split at h
      · rename_i info infoOld hin hio
        have hne : s.lastSuccess l[i] = info.nLastSuccess := by simp [lastSuccess, hin]
        have hqo : s.lastSuccess q.1 = infoOld.nLastSuccess := by simp [lastSuccess, hio]
        refine selectTried_inPlace fuel (i + 1) _ _ (by omega) hr ?_ (by simp) h
        rintro q' ⟨rfl⟩
        split
        · refine ⟨getElem?_eq_getElem hi, fun n hn => ?_⟩
          rcases ht n hn with hn | rfl
          · have := hl n hn
            simp only
            omega
          · exact le_refl _
        · refine ⟨hq, fun n hn => ?_⟩
          rcases ht n hn with hn | rfl
          · exact hl n hn
          · simp only
            omega
      · cases h

namespace TriedSample

def env : AddrEnv := ⟨fun _ => 0, fun _ => [], fun _ => [], fun _ => true, []⟩

/-- Entries 0 to 63 fill a tried bucket, entry 5 succeeded first; entry 64 is new. -/
def full : CAddrMan where
  nIdCount := 65
  mapInfo n :=
    if n < 65 then
      some { service := ⟨n, 0⟩, nServices := 0, nTime := 0, source := 0, nRandomPos := n,
             nLastSuccess := if n = 5 then 1 else 10, nRefCount := n / 64, fInTried := decide (n < 64) }
    else none
  mapAddr ip := if ip < 65 then some ip else none
  vRandom := range 65
  nTried := 64
  vvTried k := if k = 0 then range 64 else []
  nNew := 1
  vvNew b := if b = 0 then [64] else []

end TriedSample

end CAddrMan
end CloakCoin.Net
