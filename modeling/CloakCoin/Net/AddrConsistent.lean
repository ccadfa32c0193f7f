import CloakCoin.Net.AddrTried

/-!
# The address manager stays consistent

Each operation keeps the invariant `Tables` and fails no assertion. `Consistent` says what that means for the
tables themselves: it is the debug check `Check_` of the source, with the limits of the buckets.
-/

namespace CloakCoin.Net

open Lib List

namespace CAddrMan

variable {s : CAddrMan}

/-! ## The operations -/

theorem Tables.good (env : AddrEnv) (h : Tables settled s) (addr : CService) (nTime : Int) (rng : Draws) :
    ∃ t, s.good env addr nTime rng = some t ∧ Tables settled t := by
  unfold CAddrMan.good
  cases hf : s.find addr.ip with
  | none => exact ⟨s, rfl, h⟩
  | some found =>
    obtain ⟨nId, info⟩ := found
    obtain ⟨hid, -⟩ := h.toListed.find_some hf
    simp only
    split
    · exact ⟨s, rfl, h⟩
    generalize hi : { info with
      nLastSuccess := nTime, nLastTry := nTime, nTime := toUint32 nTime, nAttempts := 0 } = info'
    have hu : Tables settled (s.setInfo nId info') := by
      subst hi
      exact h.touch hid rfl rfl rfl rfl
    split
    · exact ⟨_, rfl, hu⟩
    split
    · exact ⟨_, rfl, hu⟩
    rename_i b hb
    have hm : nId ∈ (s.setInfo nId info').vvNew b := by
      simpa using find?_some hb
    exact hu.makeTried env setInfo_self hm _

theorem Tables.attempt (h : Tables settled s) (addr : CService) (nTime : Int) :
    Tables settled (s.attempt addr nTime) := by
  unfold CAddrMan.attempt
  cases hf : s.find addr.ip with
  | none => exact h
  | some found =>
    obtain ⟨hid, -⟩ := h.toListed.find_some hf
    simp only
    split
    · exact h
    · exact h.touch hid rfl rfl rfl rfl

theorem Tables.connected (h : Tables settled s) (addr : CService) (nTime : Int) :
    Tables settled (s.connected addr nTime) := by
  unfold CAddrMan.connected
  cases hf : s.find addr.ip with
  | none => exact h
  | some found =>
    obtain ⟨hid, -⟩ := h.toListed.find_some hf
    simp only
    split
    · exact h
    split
    · exact h.touch hid rfl rfl rfl rfl
    · exact h

theorem selectLoop_spec (hk : ∀ c, ∀ n ∈ bucket c, ∃ info, s.mapInfo n = some info) :
    ∀ tries, ∃ r, s.selectLoop bucket tries = some r
  | [] => ⟨none, rfl⟩
  | (c, r, taken) :: tries => by
    unfold selectLoop
    cases hb : bucket c with
    | nil => exact selectLoop_spec hk tries
    | cons n rest =>
      have hlt : r % (n :: rest).length < (n :: rest).length := Nat.mod_lt r (Nat.succ_pos _)
      have hin : (n :: rest)[r % (n :: rest).length] ∈ bucket c := by
        rw [hb]
        exact getElem_mem hlt
      obtain ⟨info, hi⟩ := hk c _ hin
      simp only [getElem?_eq_getElem hlt, Option.bind_some, hi]
      split
      · exact ⟨_, rfl⟩
      · exact selectLoop_spec hk tries

theorem mem_drop_swapRandom (h : s.swapRandom i j = some t) (hi : n ≤ i) (hj : n ≤ j) (ha : a ∈ t.vRandom.drop n) :
    a ∈ s.vRandom.drop n := by
  unfold swapRandom at h
  split at h
  · cases h
    exact ha
  split at h <;> try cases h
  rename_i hA hB
  split at h <;> cases h
  have hs {k x : Nat} (hk : n ≤ k) (hx : s.vRandom[k]? = some x) : x ∈ s.vRandom.drop n :=
    mem_of_getElem? (i := k - n) (by rw [getElem?_drop, Nat.add_sub_cancel' hk, hx])
  simp only [drop_set, Nat.not_lt.mpr hi, Nat.not_lt.mpr hj, if_false] at ha
  rcases mem_or_eq_of_mem_set ha with ha | rfl
  · rcases mem_or_eq_of_mem_set ha with ha | rfl
    · exact ha
    · exact hs hj hB
  · exact hs hi hA

/-- The `n`-th entry is drawn from the places that are left, so that it is none of the earlier ones. -/
theorem getAddrLoop_spec : ∀ (fuel n : Nat) (s : CAddrMan) (rng : Draws), Tables due s → n + fuel ≤ s.vRandom.length →
    ∃ t vAddr, getAddrLoop fuel n s rng = some (t, vAddr) ∧ Tables due t ∧ vAddr.length = fuel ∧
      (vAddr.map (·.service.ip)).Nodup ∧ ∀ info ∈ vAddr, ∃ nId ∈ s.vRandom.drop n, s.ips nId = some info.service.ip
  | 0, _, s, _, h, _ => ⟨s, [], rfl, h, rfl, .nil, by simp⟩
  | fuel + 1, n, s, rng, h, hle => by
    unfold getAddrLoop
    have hr := getRand_lt (show 0 < s.vRandom.length - n by omega) rng
    simp only
    generalize getRand (s.vRandom.length - n) rng = draw at hr ⊢
    obtain ⟨u, hu, hlu, hru, -⟩ := swapRandom_spec h.toListed (show n < s.vRandom.length by omega)
      (show draw.1 + n < s.vRandom.length by omega)
    have hl := hru.length
    have hn : n < u.vRandom.length := by omega
    obtain ⟨info, hi, -⟩ := hlu.mapInfo_of_vRandom (getElem?_eq_getElem hn)
    obtain ⟨t, vAddr, ht, hta, hlen, hnd, hin⟩ := getAddrLoop_spec fuel (n + 1) u draw.2 (hru.tables h hlu) (by omega)
    have hip : u.ips u.vRandom[n] = some info.service.ip := by simp [ips, hi]
    have hnode := hlu.index.nodup.sublist (drop_sublist n _)
    have hsub := fun a => mem_drop_swapRandom (a := a) hu le_rfl (Nat.le_add_left n draw.1)
    rw [drop_eq_getElem_cons hn] at hnode hsub
    rw [hu]
    simp only [getElem?_eq_getElem hn, Option.bind_some, hi, ht, Option.map_some]
    refine ⟨t, _, rfl, hta, congrArg (· + 1) hlen, nodup_cons.mpr ⟨fun hm => ?_, hnd⟩,
      forall_mem_cons.mpr ⟨?_, fun b hb => ?_⟩⟩
    · obtain ⟨b, hb, hbi : b.service.ip = info.service.ip⟩ := mem_map.mp hm
      obtain ⟨nId, hmem, hid⟩ := hin b hb
      -- two ids with one address are one id
      obtain rfl := Option.some.inj (((hlu.addr _ _).mpr hid).symm.trans (hbi ▸ (hlu.addr _ _).mpr hip))
      exact (nodup_cons.mp hnode).1 hmem
    · exact ⟨_, hsub _ mem_cons_self, hru.ips ▸ hip⟩
    · obtain ⟨nId, hmem, hid⟩ := hin b hb
      exact ⟨nId, hsub _ (mem_cons_of_mem _ hmem), hru.ips ▸ hid⟩

theorem tables_step (env : AddrEnv) (op : Op) (h : Tables settled s) :
    ∃ t, step env op s = some t ∧ Tables settled t := by
  cases op with
  | add addr source nTimePenalty nNow rng => exact h.add env addr source nTimePenalty nNow rng
  | good addr nTime rng => exact h.good env addr nTime rng
  | attempt addr nTime => exact ⟨_, rfl, h.attempt addr nTime⟩
  | connected addr nTime => exact ⟨_, rfl, h.connected addr nTime⟩
  | select fTried tries =>
    refine ⟨s, ?_, h⟩
    have hs : ∃ r, s.select fTried tries = some r := by
      unfold CAddrMan.select
      split
      · exact ⟨none, rfl⟩
      split
      · exact selectLoop_spec (fun c n hn => h.known_tried hn) tries
      · exact selectLoop_spec (fun c n hn => h.known hn) tries
    obtain ⟨r, hr⟩ := hs
    simp [step, hr]
  | getAddr rng =>
    obtain ⟨t, vAddr, ht, hta, -⟩ := getAddrLoop_spec _ 0 s rng h
      (show 0 + min (addrmanGetaddrMaxPct * s.vRandom.length / 100) addrmanGetaddrMax ≤ s.vRandom.length by
        rw [show addrmanGetaddrMaxPct = 23 from rfl]
        omega)
    refine ⟨t, ?_, hta⟩
    simp [step, CAddrMan.getAddr, ht]

theorem tables_run (env : AddrEnv) : ∀ (ops : List Op) (s : CAddrMan), Tables settled s →
    ∃ t, run env ops s = some t ∧ Tables settled t
  | [], s, h => ⟨s, rfl, h⟩
  | op :: ops, s, h => by
    obtain ⟨u, hu, hut⟩ := tables_step env op h
    rw [run, foldlM_cons, hu]
    exact tables_run env ops u hut

/-! ## Consistency -/

/-- What `Check_` asks for. -/
structure Consistent (s : CAddrMan) : Prop where
  /-- entries and `vRandom` -/
  place : ∀ nId i, (∃ info, s.mapInfo nId = some info ∧ info.nRandomPos = i) ↔ s.vRandom[i]? = some nId
  /-- entries and `mapAddr` -/
  number : ∀ ip nId, s.mapAddr ip = some nId ↔ ∃ info, s.mapInfo nId = some info ∧ info.service.ip = ip
  tried : ∀ nId info, s.mapInfo nId = some info → info.fInTried = true →
    (∃! k, nId ∈ s.vvTried k) ∧ ∀ b, nId ∉ s.vvNew b
  new : ∀ nId info, s.mapInfo nId = some info → info.fInTried = false →
    (∀ k, nId ∉ s.vvTried k) ∧ 1 ≤ info.nRefCount ∧ info.nRefCount ≤ addrmanNewBucketsPerAddress ∧
      info.nRefCount = (s.newBuckets nId).card
  /-- nothing else is in the buckets, and nothing twice in one -/
  known : ∀ nId, s.mapInfo nId = none → (∀ b, nId ∉ s.vvNew b) ∧ ∀ k, nId ∉ s.vvTried k
  once : (∀ b, (s.vvNew b).Nodup) ∧ ∀ k, (s.vvTried k).Nodup
  nTried : s.nTried = {nId | ∃ info, s.mapInfo nId = some info ∧ info.fInTried = true}.ncard
  nNew : s.nNew = {nId | ∃ info, s.mapInfo nId = some info ∧ info.fInTried = false}.ncard
  sizes : (∀ b, (s.vvNew b).length ≤ addrmanNewBucketSize) ∧ ∀ k, (s.vvTried k).length ≤ addrmanTriedBucketSize

theorem Tables.mem_vRandom (h : Tables due s) : n ∈ s.vRandom ↔ ∃ info, s.mapInfo n = some info := by
  rw [h.index.mem_iff]
  simp [pos, Option.isSome_iff_exists]

theorem Tables.ncard_tried (h : Tables settled s) :
    s.nTried = {nId | ∃ info, s.mapInfo nId = some info ∧ info.fInTried = true}.ncard := by
  have hs : {nId | ∃ info, s.mapInfo nId = some info ∧ info.fInTried = true} =
      ((Finset.univ.biUnion fun k => (s.vvTried k).toFinset : Finset Nat) : Set Nat) := by
    ext n
    simp only [Set.mem_ofPred_eq, Finset.coe_biUnion, Finset.coe_univ, Set.mem_univ, coe_toFinset, Set.iUnion_true,
      Set.mem_iUnion]
    constructor
    · rintro ⟨info, hi, ht⟩
      have hf := h.fits n
      rw [standing_eq hi ht, fits_tried] at hf
      obtain ⟨-, -, k, hk⟩ := hf
      exact ⟨k, mem_inTried.mp (hk ▸ Finset.mem_singleton_self k)⟩
    · rintro ⟨k, hk⟩
      obtain ⟨hr, -⟩ := (h.fits n).of_inTried (mem_inTried.mpr hk)
      obtain ⟨info, hi, heq⟩ := isSome_mapInfo_of_refs hr
      exact ⟨info, hi, (congrArg Prod.fst heq).symm⟩
  have hd : ∀ j ∈ Finset.univ, ∀ k ∈ Finset.univ, j ≠ k → Disjoint (s.vvTried j).toFinset (s.vvTried k).toFinset := by
    intro j _ k _ hjk
    rw [Finset.disjoint_left]
    intro n hj hk
    rw [mem_toFinset, ← mem_inTried] at hj hk
    obtain ⟨-, -, hin⟩ := (h.fits n).of_inTried hj
    rw [hin, Finset.mem_singleton] at hk
    exact hjk hk.symm
  rw [hs, Set.ncard_coe_finset, Finset.card_biUnion hd, h.nTried]
  push_cast
  apply Finset.sum_congr rfl
  intro k _
  rw [toFinset_card_of_nodup (h.nodupTried k)]

theorem Tables.ncard_new (h : Tables settled s) :
    s.nNew = {nId | ∃ info, s.mapInfo nId = some info ∧ info.fInTried = false}.ncard := by
  have ha : ((s.vRandom.toFinset : Finset Nat) : Set Nat) =
      {nId | ∃ info, s.mapInfo nId = some info ∧ info.fInTried = true} ∪
        {nId | ∃ info, s.mapInfo nId = some info ∧ info.fInTried = false} := by
    ext n
    simp only [coe_toFinset, Set.mem_ofPred_eq, h.mem_vRandom, Set.mem_union, ← exists_or]
    apply exists_congr
    intro info
    cases info.fInTried <;> simp
  have hd : Disjoint {nId | ∃ info, s.mapInfo nId = some info ∧ info.fInTried = true}
      {nId | ∃ info, s.mapInfo nId = some info ∧ info.fInTried = false} := by
    rw [Set.disjoint_left]
    rintro n ⟨info, hi, htr⟩ ⟨info', hi', hfa⟩
    rw [hi] at hi'
    cases hi'
    rw [htr] at hfa
    cases hfa
  have hf := ha ▸ (s.vRandom.toFinset).finite_toSet
  have hc := Set.ncard_union_eq hd (hf.subset Set.subset_union_left) (hf.subset Set.subset_union_right)
  rw [← ha, Set.ncard_coe_finset, toFinset_card_of_nodup h.index.nodup] at hc
  have ht := h.total
  rw [hc, Nat.cast_add, ← h.ncard_tried] at ht
  omega

theorem Tables.consistent (h : Tables settled s) : Consistent s where
  place nId i := by
    rw [← h.index nId i]
    simp [pos, Option.map_eq_some_iff]
  number ip nId := by
    rw [h.addr ip nId]
    simp [ips, Option.map_eq_some_iff]
  tried nId info hinfo htried := by
    have hf := h.fits nId
    rw [standing_eq hinfo htried, fits_tried] at hf
    obtain ⟨-, hnew, k, hk⟩ := hf
    refine ⟨⟨k, ?_, ?_⟩, ?_⟩
    · exact mem_inTried.mp (hk ▸ Finset.mem_singleton_self k)
    · intro j hj
      rw [← mem_inTried, hk] at hj
      exact Finset.mem_singleton.mp hj
    · intro b hb
      rw [← mem_inNew, hnew] at hb
      exact Finset.notMem_empty b hb
  new nId info hinfo hnew := by
    have hf := h.fits nId
    rw [standing_eq hinfo hnew] at hf
    obtain ⟨hn, hle, hc, hne⟩ := fits_new.mp hf
    have hp := hne.card_pos
    refine ⟨?_, by omega, hle, hc⟩
    intro k hk
    rw [← mem_inTried, hn] at hk
    exact Finset.notMem_empty k hk
  known nId hn := by
    have hf := h.fits nId
    rw [standing_unknown hn, fits_unknown] at hf
    constructor
    · intro b hb
      rw [← mem_inNew, hf.1] at hb
      exact Finset.notMem_empty b hb
    · intro k hk
      rw [← mem_inTried, hf.2] at hk
      exact Finset.notMem_empty k hk
  once := ⟨h.nodupNew, h.nodupTried⟩
  nTried := h.ncard_tried
  nNew := h.ncard_new
  sizes := ⟨h.newSize, h.triedSize⟩

/-- No sequence of operations on an empty address manager fails an assertion or leaves it inconsistent. -/
theorem run_consistent (env : AddrEnv) (ops : List Op) : ∃ s, run env ops empty = some s ∧ Consistent s := by
  obtain ⟨t, ht, hta⟩ := tables_run env ops empty tables_empty
  exact ⟨t, ht, hta.consistent⟩

/-- After any operations, a peer that asks is told a fixed share of the known addresses, none of them twice. -/
theorem run_getAddr_distinct (env : AddrEnv) (ops : List Op) (rng : Draws) : ∃ s t vAddr,
    run env ops empty = some s ∧ s.getAddr rng = some (t, vAddr) ∧
      vAddr.length = min (addrmanGetaddrMaxPct * s.vRandom.length / 100) addrmanGetaddrMax ∧
        (vAddr.map (·.service.ip)).Nodup ∧ ∀ info ∈ vAddr, ∃ nId, s.mapAddr info.service.ip = some nId := by
  obtain ⟨s, hs, hta⟩ := tables_run env ops empty tables_empty
  obtain ⟨t, vAddr, ht, -, hlen, hnd, hin⟩ := getAddrLoop_spec
    (min (addrmanGetaddrMaxPct * s.vRandom.length / 100) addrmanGetaddrMax) 0 s rng hta (by
      rw [show addrmanGetaddrMaxPct = 23 from rfl]
      omega)
  refine ⟨s, t, vAddr, hs, ht, hlen, hnd, fun info hi => ?_⟩
  obtain ⟨nId, -, hid⟩ := hin info hi
  exact ⟨nId, (hta.addr _ _).mpr hid⟩

end CAddrMan
end CloakCoin.Net
