import CloakCoin.Net.AddrTables

/-!
# The new buckets

An entry that leaves its last new bucket is moved to the end of `vRandom` and deleted. `Add_` raises the count of an
entry first and then makes room in the bucket, so between the two a reference is due.
-/

namespace CloakCoin.Net

open Lib List Function Option Finset

variable {nId : Nat}

namespace CAddrMan

variable {s t : CAddrMan} {info info' : CAddrInfo} {b : NewBucket} {m n : Nat} {l : List Nat} {due : Nat → Option Int}

/-! ## Taking an entry out of a bucket -/

theorem mem_update_erase [DecidableEq ι] {vv : ι → List Nat} {b c : ι} (hn : (vv b).Nodup) :
    n ∈ update vv b ((vv b).erase m) c ↔ n ∈ vv c ∧ ¬(n = m ∧ c = b) := by
  by_cases hc : c = b
  · subst hc
    simp [hn.mem_erase_iff, and_comm]
  · simp [hc]

theorem mem_insertId : n ∈ insertId m l ↔ n = m ∨ n ∈ l := by
  unfold insertId
  split
  · constructor
    · exact Or.inr
    · rintro (rfl | h)
      · assumption
      · exact h
  · simp

theorem nodup_insertId (h : l.Nodup) : (insertId m l).Nodup := by
  unfold insertId
  split
  · exact h
  · rename_i hm
    exact (perm_orderedInsert (· ≤ ·) m l).nodup_iff.mpr (nodup_cons.mpr ⟨hm, h⟩)

theorem length_insertId_le (m : Nat) (l : List Nat) : (insertId m l).length ≤ l.length + 1 := by
  unfold insertId
  split
  · omega
  · simp [orderedInsert_length]

theorem mem_update_insertId {ι : Type} [DecidableEq ι] {vv : ι → List Nat} {b c : ι} :
    n ∈ update vv b (insertId m (vv b)) c ↔ n ∈ vv c ∨ (n = m ∧ c = b) := by
  by_cases hc : c = b
  · subst hc
    simp [mem_insertId, or_comm]
  · simp [hc]

theorem Shelved.updateNew (h : Shelved s) (hn : l.Nodup) (hl : l.length ≤ addrmanNewBucketSize)
    (hne : t.vvNew = update s.vvNew b l) (ht : t.vvTried = s.vvTried) (hc : t.nTried = s.nTried) : Shelved t where
  nodupNew := hne ▸ (forall_update_iff s.vvNew fun _ l => l.Nodup).mpr ⟨hn, fun c _ => h.nodupNew c⟩
  nodupTried := ht ▸ h.nodupTried
  newSize := hne ▸ (forall_update_iff s.vvNew fun _ l => l.length ≤ addrmanNewBucketSize).mpr
    ⟨hl, fun c _ => h.newSize c⟩
  triedSize := ht ▸ h.triedSize
  nTried := by
    rw [hc, ht]
    exact h.nTried

theorem Listed.pop (h : Listed s) (hid : s.mapInfo nId = some info) (hpo : info.nRandomPos = s.vRandom.length - 1)
    (hc : t.nIdCount = s.nIdCount) (hr : t.vRandom = s.vRandom.dropLast) (hi : t.mapInfo = update s.mapInfo nId none)
    (ha : t.mapAddr = update s.mapAddr info.service.ip none) : Listed t where
  fresh n hn := by
    rw [hi]
    by_cases heq : n = nId
    · subst heq
      exact update_self ..
    · rw [update_of_ne heq]
      exact h.fresh n (hc ▸ hn)
  index := by
    have hp : t.pos = update s.pos nId none := by
      unfold pos
      rw [hi]
      exact comp_update _ _ _ _
    rw [hr, hp]
    apply h.index.pop
    simp [pos, hid, hpo]
  addr := by
    have hp : t.ips = update s.ips nId none := by
      unfold ips
      rw [hi]
      exact comp_update _ _ _ _
    rw [ha, hp]
    apply h.addr.erase
    simp [ips, hid]

theorem Tables.erase (h : Tables due s) (ht : Listed t) (hne : t.vvNew = update s.vvNew b ((s.vvNew b).erase nId))
    (htr : t.vvTried = s.vvTried) (hc : t.nTried = s.nTried) (hr : ∀ n, n ≠ nId → t.refs n = s.refs n)
    (hf : Fits (due nId) ⟨t.refs nId, (s.standing nId).inNew.erase b, (s.standing nId).inTried⟩)
    (hto : t.nNew + t.nTried = t.vRandom.length) : Tables due t where
  toListed := ht
  toShelved := by
    apply h.toShelved.updateNew ((h.nodupNew b).erase nId) _ hne htr hc
    exact length_erase_le.trans (h.newSize b)
  fits n := by
    have hm : ∀ c, n ∈ t.vvNew c ↔ n ∈ s.vvNew c ∧ ¬(n = nId ∧ c = b) := by
      intro c
      rw [hne, mem_update_erase (h.nodupNew b)]
    by_cases hn : n = nId
    · subst hn
      have hN : (t.standing n).inNew = (s.standing n).inNew.erase b := by
        ext c
        rw [mem_inNew, hm, mem_erase, mem_inNew]
        simp [and_comm]
      have hT : (t.standing n).inTried = (s.standing n).inTried := by
        ext k
        rw [mem_inTried, mem_inTried, htr]
      rw [← hN, ← hT] at hf
      exact hf
    · rw [standing_congr (hr n hn)]
      · exact h.fits n
      · intro c
        rw [hm]
        simp [hn]
      · intro k
        rw [htr]
  total := hto

theorem Tables.record (h : Tables due s) (hid : s.mapInfo nId = some info)
    (hm : nId ∈ s.vvNew b) (hd : due nId = none) :
    info.fInTried = false ∧ (s.standing nId).inTried = ∅ ∧ info.nRefCount ≤ addrmanNewBucketsPerAddress ∧
      info.nRefCount = (s.standing nId).inNew.card := by
  obtain ⟨n, hr, -⟩ := (h.fits nId).of_inNew ⟨b, mem_inNew.mpr hm⟩
  have hfi := h.fits nId
  have heq : some (info.fInTried, info.nRefCount) = some (false, n) := (refs_of_mapInfo hid).symm.trans hr
  simp only [some.injEq, Prod.mk.injEq] at heq
  obtain ⟨hf, rfl⟩ := heq
  rw [Fits, hr, hd] at hfi
  exact ⟨hf, hfi.1, hfi.2.1, hfi.2.2.1⟩

theorem Tables.removeNew (h : Tables due s) (hm : nId ∈ s.vvNew b) (hd : due nId = none) :
    ∃ t, s.removeNew b nId = some t ∧ Tables due t ∧
      t.vvNew = update s.vvNew b ((s.vvNew b).erase nId) ∧ ∀ n, n ≠ nId → t.refs n = s.refs n := by
  obtain ⟨info, hid⟩ := h.known hm
  obtain ⟨ht, hno, hle, hc⟩ := h.record hid hm hd
  have hc' : ((s.standing nId).inNew.erase b).card + 1 = (s.standing nId).inNew.card :=
    card_erase_add_one (mem_inNew.mpr hm)
  obtain ⟨u, hu⟩ : ∃ u, u = s.setInfo nId { info with nRefCount := info.nRefCount - 1 } := ⟨_, rfl⟩
  have hlu : Listed u := hu ▸ h.toListed.setInfo hid rfl rfl
  have hr : u.refs = update s.refs nId (some (info.fInTried, info.nRefCount - 1)) :=
    hu ▸ map_setInfo _
  unfold CAddrMan.removeNew
  simp only [hid]
  rw [← hu]
  by_cases hl : info.nRefCount - 1 = 0
  · -- the last reference: the entry moves to the end of `vRandom` and is deleted
    rw [if_pos hl]
    have hp : u.vRandom[info.nRandomPos]? = some nId := by
      apply (hlu.index nId _).mp
      simp [hu, pos]
    have hlen := (List.getElem?_eq_some_iff.mp hp).1
    obtain ⟨v, hv, hlv, hrv, hat⟩ := swapRandom_spec hlu hlen (Nat.sub_lt (Nat.zero_lt_of_lt hlen) one_pos)
    obtain ⟨infoV, hi, hpv⟩ := hlv.mapInfo_of_vRandom (hat.trans hp)
    have hip : infoV.service.ip = info.service.ip := by
      have := congrFun hrv.ips nId
      simpa [ips, hi, hu] using this
    obtain ⟨hips, href, hlenV, hre⟩ := hrv
    simp only [Prod.mk.injEq] at hre
    obtain ⟨-, -, hnt, hvt, hnn, hvn⟩ := hre
    have hvv : v.vvNew = s.vvNew := hvn.trans (hu ▸ rfl)
    have he : update v.vvNew b ((v.vvNew b).erase nId) = update s.vvNew b ((s.vvNew b).erase nId) := by rw [hvv]
    have ho : ∀ n, n ≠ nId →
        Option.map (fun info => (info.fInTried, info.nRefCount)) (Function.update v.mapInfo nId none n) = s.refs n := by
      intro n hn
      rw [update_of_ne hn]
      exact (congrFun (href.trans hr) n).trans (update_of_ne hn ..)
    rw [hv]
    refine ⟨_, rfl, ?_, he, ho⟩
    refine h.erase ?_ he ?_ ?_ ho ?_ ?_
    · exact hlv.pop hi (hpv.trans (by rw [hlenV])) rfl rfl rfl (by rw [hip])
    · exact hvt.trans (hu ▸ rfl)
    · exact hnt.trans (hu ▸ rfl)
    · have hs : Option.map (fun info => (info.fInTried, info.nRefCount))
        (Function.update v.mapInfo nId none nId) = none := by
        rw [update_self]
        rfl
      show Fits _ ⟨Option.map _ (Function.update v.mapInfo nId none nId), _, _⟩
      rw [hs, fits_unknown]
      refine ⟨?_, hno⟩
      rw [← card_eq_zero]
      omega
    · have hto := h.total
      have hN : v.nNew = s.nNew := hnn.trans (hu ▸ rfl)
      have hT : v.nTried = s.nTried := hnt.trans (hu ▸ rfl)
      have hL : v.vRandom.length = s.vRandom.length := hlenV.trans (hu ▸ rfl)
      show v.nNew - 1 + v.nTried = (v.vRandom.dropLast.length : Int)
      rw [hN, hT, length_dropLast, hL]
      omega
  · rw [if_neg hl]
    have he : update u.vvNew b ((u.vvNew b).erase nId) = update s.vvNew b ((s.vvNew b).erase nId) := by rw [hu]; rfl
    have ho : ∀ n, n ≠ nId → u.refs n = s.refs n := by
      intro n hn
      exact (congrFun hr n).trans (update_of_ne hn ..)
    refine ⟨_, rfl, ?_, he, ho⟩
    refine h.erase ⟨hlu.fresh, hlu.index, hlu.addr⟩ he (hu ▸ rfl) (hu ▸ rfl) ho ?_ ?_
    · have hs : u.refs nId = some (false, info.nRefCount - 1) := by
        rw [hr, update_self, ht]
      show Fits _ ⟨u.refs nId, _, _⟩
      rw [hs, hd, fits_new]
      refine ⟨hno, by omega, by omega, ?_⟩
      rw [← card_pos]
      omega
    · rw [hu]
      exact h.total

/-! ## `ShrinkNew` -/

theorem firstTerrible_spec (nNow : Int) : ∀ l : List Nat, (∀ n ∈ l, ∃ info, s.mapInfo n = some info) →
    s.firstTerrible nNow l = some none ∨ ∃ n ∈ l, s.firstTerrible nNow l = some (some n)
  | [], _ => .inl rfl
  | n :: rest, hk => by
    obtain ⟨info, hi⟩ := hk n mem_cons_self
    unfold firstTerrible
    simp only [hi]
    split
    · exact .inr ⟨n, mem_cons_self, rfl⟩
    · obtain h | ⟨m, hm, h⟩ := firstTerrible_spec nNow rest fun m hm => hk m (mem_cons_of_mem n hm)
      · exact .inl h
      · exact .inr ⟨m, mem_cons_of_mem n hm, h⟩

theorem oldestDrawn_spec (n : List Nat) (b : List Nat) (hb : ∀ m ∈ b, ∃ info, s.mapInfo m = some info) :
    ∀ (l : List Nat) (nI : Nat) (nOldest : Option Nat), l ⊆ b → (∀ m ∈ nOldest, m ∈ b) →
      (nOldest.isSome = true ∨ ∃ i ∈ n, nI ≤ i ∧ i < nI + l.length) →
      ∃ m ∈ b, s.oldestDrawn n nI l nOldest = some (some m)
  | [], nI, nOldest, _, hold, hd => by
    cases nOldest with
    | some m => exact ⟨m, hold m rfl, rfl⟩
    | none =>
      obtain h | ⟨i, -, h1, h2⟩ := hd
      · cases h
      · simp only [length_nil] at h2
        omega
  | m :: rest, nI, nOldest, hs, hold, hd => by
    have hmb : m ∈ b := hs mem_cons_self
    have hr : rest ⊆ b := fun x hx => hs (mem_cons_of_mem m hx)
    unfold oldestDrawn
    split
    · cases nOldest with
      | none =>
        apply oldestDrawn_spec n b hb rest (nI + 1) (some m) hr
        · intro x hx
          cases hx
          exact hmb
        · exact .inl rfl
      | some old =>
        have ho : old ∈ b := hold old rfl
        obtain ⟨info, hin⟩ := hb m hmb
        obtain ⟨infoOld, hio⟩ := hb old ho
        simp only [hin, hio]
        apply oldestDrawn_spec n b hb rest (nI + 1) _ hr
        · intro x hx
          cases hx
          split
          · exact hmb
          · exact ho
        · exact .inl rfl
    · rename_i hn
      apply oldestDrawn_spec n b hb rest (nI + 1) nOldest hr hold
      obtain h | ⟨i, hi, h1, h2⟩ := hd
      · exact .inl h
      have hne : i ≠ nI := by
        rintro rfl
        exact hn hi
      rw [length_cons] at h2
      exact .inr ⟨i, hi, by omega, by omega⟩

theorem shrinkNew_spec (h : Tables due s) (hne : s.vvNew b ≠ []) (nNow : Int) (rng : Draws) :
    ∃ n ∈ s.vvNew b, s.shrinkNew b nNow rng = s.removeNew b n := by
  have hk : ∀ n ∈ s.vvNew b, ∃ info, s.mapInfo n = some info := fun n hn => h.known hn
  unfold shrinkNew
  simp only
  obtain hf | ⟨n, hn, hf⟩ := firstTerrible_spec nNow (s.vvNew b) hk
  · rw [hf]
    have hd : (getRand (s.vvNew b).length rng).1 < (s.vvNew b).length :=
      getRand_lt (length_pos_iff.mpr hne) rng
    have hs := fun drawn => oldestDrawn_spec ((getRand (s.vvNew b).length rng).1 :: drawn) (s.vvNew b) hk
      (s.vvNew b) 0 none (Subset.refl _) (fun m hm => by cases hm)
      (.inr ⟨_, mem_cons_self, Nat.zero_le _, by simpa using hd⟩)
    obtain ⟨n, hn, hold⟩ := hs _
    refine ⟨n, hn, ?_⟩
    rw [hold]
  · rw [hf]
    exact ⟨n, hn, rfl⟩

/-! ## `Add_` -/

theorem Tables.insert (h : Tables (update settled nId (some 1)) s) (hne : nId ∉ s.vvNew b)
    (hs : (s.vvNew b).length < addrmanNewBucketSize) (hi : ∃ n, s.refs nId = some (false, n)) :
    Tables settled { s with vvNew := update s.vvNew b (insertId nId (s.vvNew b)) } where
  toListed := ⟨h.fresh, h.index, h.addr⟩
  toShelved := by
    refine h.toShelved.updateNew (nodup_insertId (h.nodupNew b)) ?_ rfl rfl rfl
    exact (length_insertId_le nId _).trans hs
  fits n := by
    by_cases hn : n = nId
    · subst hn
      obtain ⟨c, hr⟩ := hi
      have hf := h.fits n
      rw [update_self, show s.standing n = ⟨some (false, c), _, _⟩ from by rw [← hr]; rfl, fits_due] at hf
      have hN : (newBuckets { s with vvNew := update s.vvNew b (insertId n (s.vvNew b)) } n) =
          Insert.insert b (s.newBuckets n) := by
        ext c
        simp [newBuckets, mem_update_insertId, or_comm]
      have hno : b ∉ s.newBuckets n := by
        simpa [newBuckets] using hne
      show Fits none ⟨s.refs n, _, (s.standing n).inTried⟩
      rw [hr, hN, fits_new, card_insert_of_notMem hno]
      refine ⟨hf.1, hf.2.1, ?_, insert_nonempty _ _⟩
      rw [hf.2.2]
      rfl
    · have hf := h.fits n
      rw [update_of_ne hn] at hf
      have hsa : standing { s with vvNew := update s.vvNew b (insertId nId (s.vvNew b)) } n = s.standing n := by
        refine standing_congr rfl ?_ fun _ => Iff.rfl
        intro c
        rw [mem_update_insertId]
        simp [hn]
      rw [hsa]
      exact hf
  total := h.total

theorem Listed.create (h : Listed s) {addr : CAddress} (source : CNetAddr) (ha : s.mapAddr addr.service.ip = none) :
    Listed (s.create addr source) := by
  have hno := h.fresh s.nIdCount le_rfl
  refine ⟨?_, ?_, ?_⟩
  · intro n hn
    have hne : n ≠ s.nIdCount := Nat.ne_of_gt hn
    show update s.mapInfo s.nIdCount _ n = none
    rw [update_of_ne hne]
    exact h.fresh n (Nat.le_of_succ_le hn)
  · have hp : (s.create addr source).pos = update s.pos s.nIdCount (some s.vRandom.length) :=
      comp_update _ _ _ _
    rw [hp]
    apply h.index.push
    simp [pos, hno]
  · have hp : (s.create addr source).ips = update s.ips s.nIdCount (some addr.service.ip) :=
      comp_update _ _ _ _
    rw [hp]
    apply h.addr.insert ha
    simp [ips, hno]

theorem Tables.create (h : Tables settled s) (source : CNetAddr) (ha : s.mapAddr addr.service.ip = none) :
    Tables (update settled s.nIdCount (some 0)) { s.create addr source with nNew := s.nNew + 1 } where
  toListed := by
    obtain ⟨hfr, hi, hin⟩ := h.toListed.create source ha
    exact ⟨hfr, hi, hin⟩
  toShelved := ⟨h.nodupNew, h.nodupTried, h.newSize, h.triedSize, h.nTried⟩
  fits n := by
    have hr : refs { s.create addr source with nNew := s.nNew + 1 } =
        update s.refs s.nIdCount (some (false, 0)) := comp_update _ _ _ _
    have hf := h.fits n
    by_cases hn : n = s.nIdCount
    · subst hn
      rw [standing_unknown (h.fresh s.nIdCount le_rfl), fits_unknown] at hf
      show Fits _ ⟨refs { s.create addr source with nNew := s.nNew + 1 } s.nIdCount, s.newBuckets s.nIdCount,
        (s.standing s.nIdCount).inTried⟩
      rw [hr, update_self, update_self, fits_due]
      refine ⟨hf.2, by decide, ?_⟩
      rw [show s.newBuckets s.nIdCount = ∅ from hf.1]
      rfl
    · rw [update_of_ne hn]
      have hs : standing { s.create addr source with nNew := s.nNew + 1 } n = s.standing n := by
        refine standing_congr ?_ (fun _ => Iff.rfl) fun _ => Iff.rfl
        rw [hr, update_of_ne hn]
      rw [hs]
      exact hf
  total := by
    have ht := h.total
    show s.nNew + 1 + s.nTried = ((s.vRandom ++ [s.nIdCount]).length : Int)
    rw [length_append, length_singleton]
    omega

theorem Tables.addToBucket (env : AddrEnv) (h : Tables (update settled nId (some 0)) s)
    (hid : s.mapInfo nId = some info) (hnew : info.fInTried = false)
    (hlt : info.nRefCount < addrmanNewBucketsPerAddress) (source : CNetAddr) (nNow : Int) (rng : Draws) :
    ∃ t, s.addToBucket env nId source nNow rng = some t ∧ Tables settled t := by
  unfold CAddrMan.addToBucket
  simp only [hid]
  generalize env.getNewBucket info.service source = b
  have hfi := h.fits nId
  rw [update_self, standing_eq hid hnew, fits_due] at hfi
  obtain ⟨hno, hle, hc⟩ := hfi
  split
  · -- it is there already, so nothing was due
    rename_i hme
    refine ⟨s, rfl, h.toListed, h.toShelved, ?_, h.total⟩
    intro n
    by_cases hn : n = nId
    · subst hn
      rw [standing_eq hid hnew]
      exact fits_new.mpr ⟨hno, hle, by omega, ⟨b, mem_inNew.mpr hme⟩⟩
    · have := h.fits n
      rwa [update_of_ne hn] at this
  rename_i hnot
  obtain ⟨u, hu⟩ : ∃ u, u = s.setInfo nId { info with nRefCount := info.nRefCount + 1 } := ⟨_, rfl⟩
  have hd : Fits (some 1) { s.standing nId with refs := some (info.fInTried, info.nRefCount + 1) } := by
    rw [hnew]
    exact fits_due.mpr ⟨hno, by omega, by omega⟩
  have ht : Tables (update settled nId (some 1)) u := by
    have hse : Tables (update (update settled nId (some 0)) nId (some 1)) u := by
      rw [hu]
      refine h.setInfo hid ?_ ?_ hd
      · rfl
      · rfl
    rwa [update_idem] at hse
  have hr : u.refs nId = some (false, info.nRefCount + 1) := by
    rw [hu, show CAddrMan.refs _ = _ from map_setInfo _, update_self, hnew]
  have hnu : nId ∉ u.vvNew b := by
    rw [hu]
    exact hnot
  rw [← hu]
  split
  · -- a full bucket loses an entry, which is another one
    rename_i hf
    have hne : u.vvNew b ≠ [] := by
      intro hni
      rw [hni] at hf
      exact absurd hf (by decide)
    obtain ⟨m, hm, hs⟩ := shrinkNew_spec ht hne nNow rng
    have hmn : m ≠ nId := by
      rintro rfl
      exact hnu hm
    obtain ⟨v, hv, hvt, hvv, hvr⟩ := ht.removeNew hm (update_of_ne hmn ..)
    have hvb : v.vvNew b = (u.vvNew b).erase m := by rw [hvv, update_self]
    rw [hs, hv]
    refine ⟨_, rfl, hvt.insert ?_ ?_ ⟨_, (hvr nId hmn.symm).trans hr⟩⟩
    · rw [hvb]
      exact fun hin => hnu (mem_of_mem_erase hin)
    · rw [hvb, length_erase_of_mem hm, hf]
      decide
  · rename_i hf
    refine ⟨_, rfl, ht.insert hnu ?_ ⟨_, hr⟩⟩
    exact lt_of_le_of_ne (ht.newSize b) hf

theorem Tables.add (env : AddrEnv) (h : Tables settled s) (addr : CAddress) (source : CNetAddr)
    (nTimePenalty nNow : Int) (rng : Draws) :
    ∃ t, s.add env addr source nTimePenalty nNow rng = some t ∧ Tables settled t := by
  unfold CAddrMan.add
  split
  · exact ⟨s, rfl, h⟩
  cases hfi : s.find addr.service.ip with
  | none =>
    have hno := h.toListed.find_none hfi
    have hz : (0 : Int) < addrmanNewBucketsPerAddress := by decide
    refine Tables.addToBucket env (h.create source ?_) (update_self ..) rfl hz source nNow rng
    exact hno
  | some found =>
    obtain ⟨nId, info⟩ := found
    obtain ⟨hid, -⟩ := h.toListed.find_some hfi
    have hu : Tables settled (s.setInfo nId (refreshed info addr nTimePenalty nNow)) := h.touch hid rfl rfl rfl rfl
    simp only
    generalize hu' : s.setInfo nId (refreshed info addr nTimePenalty nNow) = u at hu
    have hi : u.mapInfo nId = some (refreshed info addr nTimePenalty nNow) := by
      rw [← hu', setInfo_self]
    generalize refreshed info addr nTimePenalty nNow = info' at hi ⊢
    generalize (if 2 ^ info'.nRefCount.toNat > 1 then getRand (2 ^ info'.nRefCount.toNat) rng else (0, rng)) = draw
    by_cases ht : info'.fInTried = true
    · simp only [ht, if_true, ite_self]
      exact ⟨u, rfl, hu⟩
    by_cases hm : info'.nRefCount = addrmanNewBucketsPerAddress
    · simp only [ht, hm, if_true, Bool.false_eq_true, ite_self]
      exact ⟨u, rfl, hu⟩
    split
    · exact ⟨u, rfl, hu⟩
    split
    · exact ⟨u, rfl, hu⟩
    have hfit := hu.fits nId
    have hf : info'.fInTried = false := Bool.eq_false_iff.mpr ht
    rw [standing_eq hi hf] at hfit
    obtain ⟨hno, hle, hc, -⟩ := fits_new.mp hfit
    refine Tables.addToBucket env ?_ hi hf (lt_of_le_of_ne hle hm) source nNow _
    refine ⟨hu.toListed, hu.toShelved, ?_, hu.total⟩
    intro n
    by_cases hn : n = nId
    · subst hn
      rw [update_self, standing_eq hi hf]
      exact fits_due.mpr ⟨hno, hle, by omega⟩
    · rw [update_of_ne hn]
      exact hu.fits n

end CAddrMan
end CloakCoin.Net
