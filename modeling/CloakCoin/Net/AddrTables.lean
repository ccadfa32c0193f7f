import CloakCoin.Lib.IndexedVec
import CloakCoin.Net.AddrMan

/-!
# The tables of the address manager agree

What an entry's record says about its buckets and where its number really is are its `Standing`. `Tables` is the
invariant: the maps and `vRandom` are inverse to each other, every standing is right, and the counters and bucket
sizes are as they should be. While `Add_` puts an entry into a bucket, its count runs ahead of the buckets; `due` says
by how much.
-/

namespace CloakCoin.Net

open Lib Function Option

variable {N : Finset NewBucket} {T : Finset TriedBucket}

namespace CAddrMan

variable {k : TriedBucket} {due : Nat → Option Int}

/-! ## Standings -/

def pos (s : CAddrMan) : Nat → Option Nat := Option.map (fun info => info.nRandomPos) ∘ s.mapInfo

def ips (s : CAddrMan) : Nat → Option CNetAddr := Option.map (fun info => info.service.ip) ∘ s.mapInfo

def refs (s : CAddrMan) : Nat → Option (Bool × Int) :=
  Option.map (fun info => (info.fInTried, info.nRefCount)) ∘ s.mapInfo

structure Standing where
  refs : Option (Bool × Int)
  inNew : Finset NewBucket
  inTried : Finset TriedBucket

def standing (s : CAddrMan) (nId : Nat) : Standing where
  refs := s.refs nId
  inNew := s.newBuckets nId
  inTried := Finset.univ.filter fun k => nId ∈ s.vvTried k

def Fits (due : Option Int) (st : Standing) : Prop :=
  match st.refs with
  | none => st.inNew = ∅ ∧ st.inTried = ∅
  | some (true, nRefCount) => nRefCount = 0 ∧ st.inNew = ∅ ∧ ∃ k, st.inTried = {k}
  | some (false, nRefCount) => st.inTried = ∅ ∧ nRefCount ≤ addrmanNewBucketsPerAddress ∧
    match due with
    | none => nRefCount = st.inNew.card ∧ st.inNew.Nonempty
    | some d => nRefCount = st.inNew.card + d

section Fits

variable {due : Option Int} {n : Int}

theorem fits_unknown : Fits due ⟨none, N, T⟩ ↔ N = ∅ ∧ T = ∅ := Iff.rfl

theorem fits_tried : Fits due ⟨some (true, n), N, T⟩ ↔ n = 0 ∧ N = ∅ ∧ ∃ k, T = {k} := Iff.rfl

theorem fits_new : Fits none ⟨some (false, n), N, T⟩ ↔
    T = ∅ ∧ n ≤ addrmanNewBucketsPerAddress ∧ n = N.card ∧ N.Nonempty := Iff.rfl

theorem fits_due : Fits (some d) ⟨some (false, n), N, T⟩ ↔
    T = ∅ ∧ n ≤ addrmanNewBucketsPerAddress ∧ n = N.card + d := Iff.rfl

end Fits

variable {s t : CAddrMan} {nId : Nat} {info info' : CAddrInfo}

theorem standing_congr (hr : t.refs nId = s.refs nId) (hn : ∀ b, nId ∈ t.vvNew b ↔ nId ∈ s.vvNew b)
    (ht : ∀ k, nId ∈ t.vvTried k ↔ nId ∈ s.vvTried k) : t.standing nId = s.standing nId := by
  unfold standing newBuckets
  simp only [hr, hn, ht]

theorem mem_inNew : b ∈ (s.standing nId).inNew ↔ nId ∈ s.vvNew b := by
  simp [standing, newBuckets]

theorem mem_inTried : k ∈ (s.standing nId).inTried ↔ nId ∈ s.vvTried k := by
  simp [standing]

theorem refs_of_mapInfo (hid : s.mapInfo nId = some info) : s.refs nId = some (info.fInTried, info.nRefCount) := by
  simp [refs, hid]

theorem standing_eq (hid : s.mapInfo nId = some info) (hf : info.fInTried = f) :
    s.standing nId = ⟨some (f, info.nRefCount), (s.standing nId).inNew, (s.standing nId).inTried⟩ := by
  rw [← hf, ← refs_of_mapInfo hid]
  rfl

theorem standing_unknown (hid : s.mapInfo nId = none) :
    s.standing nId = ⟨none, (s.standing nId).inNew, (s.standing nId).inTried⟩ := by
  rw [← show s.refs nId = none by simp [refs, hid]]
  rfl

theorem isSome_mapInfo_of_refs (h : s.refs nId = some x) :
    ∃ info, s.mapInfo nId = some info ∧ x = (info.fInTried, info.nRefCount) := by
  unfold refs at h
  simp only [comp_apply, Option.map_eq_some_iff] at h
  obtain ⟨info, hi, hx⟩ := h
  exact ⟨info, hi, hx.symm⟩

theorem Fits.of_inNew {due : Option Int} (h : Fits due st) (hne : st.inNew.Nonempty) :
    ∃ n, st.refs = some (false, n) ∧ st.inTried = ∅ ∧ n ≤ addrmanNewBucketsPerAddress := by
  unfold Fits at h
  split at h
  · exact absurd h.1 hne.ne_empty
  · exact absurd h.2.1 hne.ne_empty
  · rename_i n hr
    exact ⟨n, hr, h.1, h.2.1⟩

theorem Fits.of_inTried {due : Option Int} (h : Fits due st) (hk : k ∈ st.inTried) :
    st.refs = some (true, 0) ∧ st.inNew = ∅ ∧ st.inTried = {k} := by
  unfold Fits at h
  split at h
  · rw [h.2] at hk
    exact absurd hk (Finset.notMem_empty k)
  · rename_i n hr
    obtain ⟨hn, hne, k', hk'⟩ := h
    rw [hk', Finset.mem_singleton] at hk
    subst hk hn
    exact ⟨hr, hne, hk'⟩
  · rw [h.1] at hk
    exact absurd hk (Finset.notMem_empty k)

/-! ## The invariant -/

structure Listed (s : CAddrMan) : Prop where
  fresh : ∀ nId, s.nIdCount ≤ nId → s.mapInfo nId = none
  index : Indexed s.vRandom s.pos
  addr : Inverse s.mapAddr s.ips

structure Shelved (s : CAddrMan) : Prop where
  nodupNew : ∀ b, (s.vvNew b).Nodup
  nodupTried : ∀ k, (s.vvTried k).Nodup
  newSize : ∀ b, (s.vvNew b).length ≤ addrmanNewBucketSize
  triedSize : ∀ k, (s.vvTried k).length ≤ addrmanTriedBucketSize
  nTried : s.nTried = ∑ k, ((s.vvTried k).length : Int)

structure Tables (due : Nat → Option Int) (s : CAddrMan) : Prop extends Listed s, Shelved s where
  fits : ∀ nId, Fits (due nId) (s.standing nId)
  total : s.nNew + s.nTried = s.vRandom.length

def settled : Nat → Option Int := fun _ => none

theorem tables_empty : Tables settled empty where
  fresh _ _ := rfl
  index := by
    intro k i
    simp [pos, empty]
  addr := by
    intro a b
    simp [ips, empty]
  nodupNew _ := List.nodup_nil
  nodupTried _ := List.nodup_nil
  newSize _ := Nat.zero_le _
  triedSize _ := Nat.zero_le _
  nTried := by simp [empty]
  fits nId := by
    simp [Fits, standing, refs, newBuckets, empty]
  total := rfl

theorem Listed.find_some (h : Listed s) (hf : s.find ip = some (nId, info)) :
    s.mapInfo nId = some info ∧ info.service.ip = ip := by
  simp only [find, bind_eq_some_iff, map_eq_some_iff, Prod.mk.injEq] at hf
  obtain ⟨n, ha, i, hi, rfl, rfl⟩ := hf
  have := (h.addr ip n).mp ha
  simpa [ips, hi] using this

theorem Listed.find_none (h : Listed s) (hf : s.find ip = none) : s.mapAddr ip = none := by
  cases ha : s.mapAddr ip with
  | none => rfl
  | some n =>
    have hip := (h.addr ip n).mp ha
    simp only [ips, comp_apply, Option.map_eq_some_iff] at hip
    obtain ⟨i, hi, -⟩ := hip
    simp [find, ha, hi] at hf

theorem Tables.known (h : Tables due s) (hm : nId ∈ s.vvNew b) : ∃ info, s.mapInfo nId = some info := by
  obtain ⟨n, hr, -⟩ := (h.fits nId).of_inNew ⟨b, mem_inNew.mpr hm⟩
  obtain ⟨info, hi, -⟩ := isSome_mapInfo_of_refs hr
  exact ⟨info, hi⟩

theorem Tables.known_tried (h : Tables due s) (hm : nId ∈ s.vvTried k) : ∃ info, s.mapInfo nId = some info := by
  obtain ⟨hr, -⟩ := (h.fits nId).of_inTried (mem_inTried.mpr hm)
  obtain ⟨info, hi, -⟩ := isSome_mapInfo_of_refs hr
  exact ⟨info, hi⟩

/-! ## Writing to an entry -/

@[simp] theorem setInfo_self : (s.setInfo nId info').mapInfo nId = some info' := update_self ..

theorem setInfo_ne (hne : n ≠ nId) : (s.setInfo nId info').mapInfo n = s.mapInfo n := update_of_ne hne ..

theorem map_setInfo (f : CAddrInfo → α) :
    Option.map f ∘ (s.setInfo nId info').mapInfo = Function.update (Option.map f ∘ s.mapInfo) nId (some (f info')) :=
  comp_update _ _ _ _

theorem map_setInfo_same (hid : s.mapInfo nId = some info) (hf : f info' = f info) :
    Option.map f ∘ (s.setInfo nId info').mapInfo = Option.map f ∘ s.mapInfo := by
  rw [map_setInfo, hf]
  simp [hid]

theorem Listed.ne_of_fresh (h : Listed s) (hn : s.nIdCount ≤ n) (hid : s.mapInfo nId = some info) : n ≠ nId := by
  rintro rfl
  rw [h.fresh n hn] at hid
  cases hid

theorem Listed.setInfo (h : Listed s) (hid : s.mapInfo nId = some info) (hip : info'.service.ip = info.service.ip)
    (hp : info'.nRandomPos = info.nRandomPos) : Listed (s.setInfo nId info') where
  fresh n hn := by
    show Function.update s.mapInfo nId (some info') n = none
    rw [update_of_ne (h.ne_of_fresh hn hid)]
    exact h.fresh n hn
  index := by
    rw [show (s.setInfo nId info').pos = s.pos from map_setInfo_same hid hp]
    exact h.index
  addr := by
    rw [show (s.setInfo nId info').ips = s.ips from map_setInfo_same hid hip]
    exact h.addr

theorem standing_setInfo_ne (hne : n ≠ nId) : (s.setInfo nId info').standing n = s.standing n := by
  apply standing_congr
  · rw [show (s.setInfo nId info').refs = _ from map_setInfo _, update_of_ne hne]
    rfl
  · exact fun _ => Iff.rfl
  · exact fun _ => Iff.rfl

theorem standing_setInfo : (s.setInfo nId info').standing nId =
    { s.standing nId with refs := some (info'.fInTried, info'.nRefCount) } := by
  show Standing.mk ((s.setInfo nId info').refs nId) _ _ = _
  rw [show (s.setInfo nId info').refs = _ from map_setInfo _, update_self]
  rfl

theorem Tables.setInfo (h : Tables due s) (hid : s.mapInfo nId = some info) (hip : info'.service.ip = info.service.ip)
    (hp : info'.nRandomPos = info.nRandomPos)
    (hf : Fits d { s.standing nId with refs := some (info'.fInTried, info'.nRefCount) }) :
    Tables (Function.update due nId d) (s.setInfo nId info') where
  toListed := h.toListed.setInfo hid hip hp
  toShelved := ⟨h.nodupNew, h.nodupTried, h.newSize, h.triedSize, h.nTried⟩
  fits n := by
    by_cases hn : n = nId
    · subst hn
      rw [update_self, standing_setInfo]
      exact hf
    · rw [update_of_ne hn, standing_setInfo_ne hn]
      exact h.fits n
  total := h.total

theorem Tables.touch (h : Tables settled s) (hid : s.mapInfo nId = some info) (hip : info'.service.ip = info.service.ip)
    (hp : info'.nRandomPos = info.nRandomPos) (ht : info'.fInTried = info.fInTried)
    (hc : info'.nRefCount = info.nRefCount) : Tables settled (s.setInfo nId info') := by
  have hf : Fits none { s.standing nId with refs := some (info'.fInTried, info'.nRefCount) } := by
    rw [ht, hc, ← refs_of_mapInfo hid]
    exact h.fits nId
  have := h.setInfo hid hip hp hf
  rwa [show Function.update settled nId none = settled from update_eq_self _ _] at this

/-! ## Swapping places -/

structure Reordered (s t : CAddrMan) : Prop where
  ips : t.ips = s.ips
  refs : t.refs = s.refs
  length : t.vRandom.length = s.vRandom.length
  rest : (t.nIdCount, t.mapAddr, t.nTried, t.vvTried, t.nNew, t.vvNew) =
    (s.nIdCount, s.mapAddr, s.nTried, s.vvTried, s.nNew, s.vvNew)

theorem Reordered.tables (h : Reordered s t) (hs : Tables due s) (ht : Listed t) : Tables due t := by
  obtain ⟨hi, hre, hl, hr⟩ := h
  simp only [Prod.mk.injEq] at hr
  obtain ⟨-, -, hn, hv, hnn, hvn⟩ := hr
  refine { toListed := ht, toShelved := ⟨?_, ?_, ?_, ?_, ?_⟩, fits := ?_, total := ?_ }
  · rw [hvn]; exact hs.nodupNew
  · rw [hv]; exact hs.nodupTried
  · rw [hvn]; exact hs.newSize
  · rw [hv]; exact hs.triedSize
  · rw [hn, hv]; exact hs.nTried
  · intro n
    rw [standing_congr (congrFun hre n) (fun b => by rw [hvn]) (fun k => by rw [hv])]
    exact hs.fits n
  · rw [hnn, hn, hl]; exact hs.total

theorem Listed.mapInfo_of_vRandom (h : Listed s) (hi : s.vRandom[i]? = some nId) :
    ∃ info, s.mapInfo nId = some info ∧ info.nRandomPos = i := by
  have := (h.index nId i).mpr hi
  simpa [pos, Option.map_eq_some_iff] using this

theorem swapRandom_spec (h : Listed s) (hi : i < s.vRandom.length) (hj : j < s.vRandom.length) :
    ∃ t, s.swapRandom i j = some t ∧ Listed t ∧ Reordered s t ∧ t.vRandom[j]? = s.vRandom[i]? := by
  unfold swapRandom
  by_cases hij : i = j
  · subst hij
    rw [if_pos rfl]
    exact ⟨s, rfl, h, ⟨rfl, rfl, rfl, rfl⟩, rfl⟩
  rw [if_neg hij]
  obtain ⟨a, ha⟩ : ∃ a, s.vRandom[i]? = some a := ⟨_, List.getElem?_eq_getElem hi⟩
  obtain ⟨b, hb⟩ : ∃ b, s.vRandom[j]? = some b := ⟨_, List.getElem?_eq_getElem hj⟩
  obtain ⟨infoA, hA, hp⟩ := h.mapInfo_of_vRandom ha
  obtain ⟨infoB, hB, hpb⟩ := h.mapInfo_of_vRandom hb
  have hne : b ≠ a := by
    rintro rfl
    rw [hA] at hB
    cases hB
    exact hij (hp.symm.trans hpb)
  have hs : ∀ {α : Type} (f : CAddrInfo → α), (∀ info n, f { info with nRandomPos := n } = f info) →
      Option.map f ∘ ((s.setInfo a { infoA with nRandomPos := j }).setInfo b { infoB with nRandomPos := i }).mapInfo =
        Option.map f ∘ s.mapInfo := by
    intro α f hf
    have hB' : (s.setInfo a { infoA with nRandomPos := j }).mapInfo b = some infoB := by
      show Function.update s.mapInfo a _ b = _
      rw [update_of_ne hne, hB]
    rw [map_setInfo_same hB' (hf infoB i), map_setInfo_same hA (hf infoA j)]
  rw [ha, hb]
  simp only [hA, hB]
  refine ⟨_, rfl, ⟨?_, ?_, ?_⟩, ⟨?_, ?_, ?_, rfl⟩, ?_⟩
  · intro n hn
    show Function.update (Function.update s.mapInfo a _) b _ n = none
    rw [update_of_ne (h.ne_of_fresh hn hB), update_of_ne (h.ne_of_fresh hn hA)]
    exact h.fresh n hn
  · have hsw := h.index.swap ha hb hij
    unfold pos at hsw ⊢
    rw [map_setInfo, map_setInfo]
    exact hsw
  · have hip := hs (fun info => info.service.ip) fun _ _ => rfl
    show Inverse s.mapAddr (_ ∘ _)
    rw [hip]
    exact h.addr
  · exact hs (fun info => info.service.ip) fun _ _ => rfl
  · exact hs (fun info => (info.fInTried, info.nRefCount)) fun _ _ => rfl
  · simp
  · rw [List.getElem?_set_self]
    rw [List.length_set]
    exact hj

end CAddrMan
end CloakCoin.Net
