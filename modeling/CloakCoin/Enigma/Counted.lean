import CloakCoin.Enigma.Payout

/-!
# How often an output is counted

`GetEnigmaOutputsAmounts` should add up the outputs that pay one-time keys of our stealth addresses whose
first key is paid. Exchanging its two loops (`sum_outerAmount_eq`) gives the number of times each output
is counted: once if it pays a first key, and as often as the first key is paid if it pays a later one.
-/

namespace CloakCoin.Enigma

open Chain Lib Wallet List

variable {sa : CStealthAddress} {i : Nat}

section
variable (env : EnigmaEnv) (addresses : List CStealthAddress) (rootKey : List UInt8) (vout : List CTxOut)

/-- The output pays the one-time key of `sa` with index `i`. -/
def paysKey (sa : CStealthAddress) (i : Nat) (txout : CTxOut) : Bool :=
  match extractDestination env txout.scriptPubKey with
  | some (.keyID id) => decide (oneTimeAddress env sa rootKey i = some (.keyID id))
  | _ => false

def firstPaid (sa : CStealthAddress) : Nat := vout.countP (paysKey env rootKey sa 0)

def counted (txout : CTxOut) : Bool :=
  addresses.any fun sa => sa.isOwned && vout.any (paysKey env rootKey sa 0) &&
    (range (vout.length + 1)).any fun i => paysKey env rootKey sa i txout

/-- An address paid twice at index 0 gets nothing at others. -/
def SiblingsOnce : Prop :=
  ∀ sa ∈ addresses, sa.isOwned = true → firstPaid env rootKey vout sa ≤ 1 ∨
    ∀ u ∈ vout, ∀ i, 1 ≤ i → i ≤ vout.length → paysKey env rootKey sa i u = true → u.nValue = 0

/-- How often the two loops count an output. -/
def times (nonce u : CTxOut) : Nat :=
  (if (outerAddress env addresses rootKey nonce u).isSome then 1 else 0) +
    vout.countP (countsInner env addresses rootKey vout.length nonce · u)

end

section
variable {env : EnigmaEnv} {addresses : List CStealthAddress} {rootKey : List UInt8} {vout : List CTxOut}
  {u t nonce : CTxOut}

theorem paysKey_iff : paysKey env rootKey sa i u = true ↔
    ∃ id, extractDestination env u.scriptPubKey = some (.keyID id) ∧
      oneTimeAddress env sa rootKey i = some (.keyID id) := by
  unfold paysKey
  split
  · rename_i id hid
    rw [decide_eq_true_eq]
    constructor
    · exact fun h => ⟨id, hid, h⟩
    · rintro ⟨id', hi', h⟩
      rw [hid] at hi'
      cases hi'
      exact h
  · rename_i hno
    constructor
    · intro h
      cases h
    · rintro ⟨id, hid, -⟩
      exact absurd hid (hno id)

theorem paysKey_unique (hinj : OneTimeInjective env) (hsa : sa.isOwned = true) (hsb : sb.isOwned = true)
    (hi : paysKey env rootKey sa i u = true) (hj : paysKey env rootKey sb j u = true) : sa = sb ∧ i = j := by
  obtain ⟨id, hid, ho⟩ := paysKey_iff.mp hi
  obtain ⟨id', hi', ho'⟩ := paysKey_iff.mp hj
  rw [hid] at hi'
  cases hi'
  obtain ⟨he, hij⟩ := hinj sa sb rootKey i j _ ho ho'
  cases sa
  cases sb
  simp_all

/-! ## The two loops -/

theorem outerAddress_eq_some_iff (hinj : OneTimeInjective env)
    (hnonce : extractDestination env nonce.scriptPubKey = none) : outerAddress env addresses rootKey nonce u = some sa ↔
      sa ∈ addresses ∧ sa.isOwned = true ∧ paysKey env rootKey sa 0 u = true := by
  constructor
  · intro h
    unfold outerAddress at h
    split at h
    · cases h
    split at h
    · rename_i id hid
      obtain ⟨hm, ho, hon⟩ := addressLookup_spec h
      exact ⟨hm, ho, paysKey_iff.mpr ⟨id, hid, hon⟩⟩
    · cases h
  · rintro ⟨hm, ho, hp⟩
    obtain ⟨id, hid, hon⟩ := paysKey_iff.mp hp
    have hne : u ≠ nonce := by
      rintro rfl
      rw [hnonce] at hid
      cases hid
    unfold outerAddress
    rw [if_neg hne, hid]
    dsimp only
    cases hf : addressLookup env addresses rootKey (.keyID id) with
    | none =>
      have hno := find?_eq_none.mp hf sa (mem_reverse.mpr hm)
      exact absurd (by simp [ho, hon]) hno
    | some sa' =>
      obtain ⟨-, ho', hon'⟩ := addressLookup_spec hf
      exact congrArg some (paysKey_unique hinj ho' ho (paysKey_iff.mpr ⟨id, hid, hon'⟩) hp).1

theorem mem_generatedKeyIds_iff (hn : num < 60) : d ∈ generatedKeyIds env sa rootKey num ↔
      ∃ i, 1 ≤ i ∧ i ≤ num ∧ ∃ id, d = .keyID id ∧ oneTimeAddress env sa rootKey i = some (.keyID id) := by
  unfold generatedKeyIds getEnigmaChangeAddresses
  rw [if_pos (.inr (by omega)), Option.getD_some]
  simp only [mem_filterMap, mem_map, mem_range]
  constructor
  · rintro ⟨script, ⟨i, hi, rfl⟩, hd⟩
    split at hd
    · rename_i id hid
      cases hd
      exact ⟨i + 1, by omega, by omega, id, rfl, hid⟩
    · cases hd
  · rintro ⟨i, hi, hle, id, rfl, hid⟩
    refine ⟨_, ⟨i - 1, by omega, rfl⟩, ?_⟩
    rw [Nat.sub_add_cancel hi]
    unfold oneTimeAddress at hid
    rw [hid]

section
variable (hinj : OneTimeInjective env) (hnonce : extractDestination env nonce.scriptPubKey = none)
include hinj hnonce

theorem countsInner_iff (hn : num < 60) : countsInner env addresses rootKey num nonce t u = true ↔
      ∃ sa ∈ addresses, sa.isOwned = true ∧ paysKey env rootKey sa 0 t = true ∧
        ∃ i, 1 ≤ i ∧ i ≤ num ∧ paysKey env rootKey sa i u = true := by
  unfold countsInner
  constructor
  · intro h
    split at h
    · rename_i sa d hou hd
      obtain ⟨hm, ho, hf⟩ := (outerAddress_eq_some_iff hinj hnonce).mp hou
      rw [Bool.and_eq_true, decide_eq_true_eq, decide_eq_true_eq] at h
      obtain ⟨i, hi, hle, id, rfl, hon⟩ := (mem_generatedKeyIds_iff hn).mp h.2
      exact ⟨sa, hm, ho, hf, i, hi, hle, paysKey_iff.mpr ⟨id, hd, hon⟩⟩
    · cases h
  · rintro ⟨sa, hm, ho, hf, i, hi, hle, hl⟩
    obtain ⟨id, hid, hon⟩ := paysKey_iff.mp hl
    have hne : t ≠ u := by
      rintro rfl
      have := (paysKey_unique hinj ho ho hf hl).2
      omega
    rw [(outerAddress_eq_some_iff hinj hnonce).mpr ⟨hm, ho, hf⟩, hid]
    dsimp only
    rw [decide_eq_true hne, Bool.true_and, decide_eq_true_eq]
    exact (mem_generatedKeyIds_iff hn).mpr ⟨i, hi, hle, id, rfl, hon⟩

/-! ## How often -/

theorem times_of_first (hsa : sa ∈ addresses) (how : sa.isOwned = true) (hf : paysKey env rootKey sa 0 u = true) :
    times env addresses rootKey vout nonce u = 1 := by
  have ho := (outerAddress_eq_some_iff hinj hnonce).mpr ⟨hsa, how, hf⟩
  have hi : vout.countP (countsInner env addresses rootKey vout.length nonce · u) = 0 :=
    countP_eq_zero.mpr fun t _ => by rw [countsInner_of_outer hinj ho t]; exact Bool.false_ne_true
  rw [times, hi, ho]
  rfl

theorem times_of_later (hlen : vout.length < 60) (hsa : sa ∈ addresses) (ho : sa.isOwned = true) (hi : 1 ≤ i)
    (hle : i ≤ vout.length) (hl : paysKey env rootKey sa i u = true) :
    times env addresses rootKey vout nonce u = firstPaid env rootKey vout sa := by
  have hou : outerAddress env addresses rootKey nonce u = none := by
    cases h : outerAddress env addresses rootKey nonce u with
    | none => rfl
    | some sb =>
      obtain ⟨-, ho', hf⟩ := (outerAddress_eq_some_iff hinj hnonce).mp h
      have := (paysKey_unique hinj ho' ho hf hl).2
      omega
  rw [times, hou, Option.isSome_none, if_neg Bool.false_ne_true, Nat.zero_add]
  refine countP_congr fun t _ => ?_
  rw [countsInner_iff hinj hnonce hlen]
  constructor
  · rintro ⟨sb, -, ho', hf, i', -, -, hl'⟩
    rwa [(paysKey_unique hinj ho ho' hl hl').1]
  · exact fun hf => ⟨sa, hsa, ho, hf, i, hi, hle, hl⟩

theorem times_of_foreign (hlen : vout.length < 60)
    (hno : ∀ sa ∈ addresses, sa.isOwned = true → ∀ i ≤ vout.length, paysKey env rootKey sa i u = false) :
    times env addresses rootKey vout nonce u = 0 := by
  have hou : outerAddress env addresses rootKey nonce u = none := by
    cases h : outerAddress env addresses rootKey nonce u with
    | none => rfl
    | some sa =>
      obtain ⟨hsa, ho, hf⟩ := (outerAddress_eq_some_iff hinj hnonce).mp h
      rw [hno sa hsa ho 0 (Nat.zero_le _)] at hf
      cases hf
  have hi : vout.countP (countsInner env addresses rootKey vout.length nonce · u) = 0 := by
    refine countP_eq_zero.mpr fun t _ ht => ?_
    obtain ⟨sa, hsa, ho, -, i, -, hle, hl⟩ := (countsInner_iff hinj hnonce hlen).mp ht
    rw [hno sa hsa ho i hle] at hl
    cases hl
  rw [times, hou, hi]
  rfl

end

theorem counted_iff : counted env addresses rootKey vout u = true ↔
    ∃ sa ∈ addresses, sa.isOwned = true ∧ 0 < firstPaid env rootKey vout sa ∧
      ∃ i ≤ vout.length, paysKey env rootKey sa i u = true := by
  simp [counted, firstPaid, and_assoc]

theorem paid_cases (env : EnigmaEnv) (addresses : List CStealthAddress) (rootKey : List UInt8)
    (num : Nat) (u : CTxOut) :
    (∃ sa ∈ addresses, sa.isOwned = true ∧ paysKey env rootKey sa 0 u = true) ∨
      (∃ sa ∈ addresses, sa.isOwned = true ∧ ∃ i, 1 ≤ i ∧ i ≤ num ∧ paysKey env rootKey sa i u = true) ∨
      ∀ sa ∈ addresses, sa.isOwned = true → ∀ i ≤ num, paysKey env rootKey sa i u = false := by
  by_cases hs : ∃ sa ∈ addresses, sa.isOwned = true ∧ ∃ i ≤ num, paysKey env rootKey sa i u = true
  · obtain ⟨sa, hsa, ho, i, hi, hp⟩ := hs
    rcases Nat.eq_zero_or_pos i with rfl | hpo
    · exact .inl ⟨sa, hsa, ho, hp⟩
    · exact .inr (.inl ⟨sa, hsa, ho, i, hpo, hi, hp⟩)
  · refine .inr (.inr fun sa hsa ho i hi => Bool.eq_false_iff.mpr fun hp => ?_)
    exact hs ⟨sa, hsa, ho, i, hi, hp⟩

section
variable (hinj : OneTimeInjective env) (hnonce : extractDestination env nonce.scriptPubKey = none)
  (hlen : vout.length < 60)
include hinj hnonce hlen

theorem times_pos_iff (hu : u ∈ vout) :
    0 < times env addresses rootKey vout nonce u ↔ counted env addresses rootKey vout u = true := by
  rw [counted_iff]
  rcases paid_cases env addresses rootKey vout.length u with
    ⟨sa, hsa, ho, hf⟩ | ⟨sa, hsa, ho, i, hi, hle, hl⟩ | hno
  · rw [times_of_first hinj hnonce hsa ho hf]
    exact iff_of_true Nat.one_pos
      ⟨sa, hsa, ho, countP_pos_iff.mpr ⟨u, hu, hf⟩, 0, Nat.zero_le _, hf⟩
  · rw [times_of_later hinj hnonce hlen hsa ho hi hle hl]
    constructor
    · exact fun hp => ⟨sa, hsa, ho, hp, i, hle, hl⟩
    · rintro ⟨sb, -, ho', hp, j, -, hj⟩
      rwa [(paysKey_unique hinj ho ho' hl hj).1]
  · rw [times_of_foreign hinj hnonce hlen hno]
    refine iff_of_false (Nat.lt_irrefl 0) ?_
    rintro ⟨sa, hsa, ho, -, i, hle, hi⟩
    rw [hno sa hsa ho i hle] at hi
    cases hi

theorem times_mul_of_once (hon : SiblingsOnce env addresses rootKey vout) (hu : u ∈ vout) :
    (times env addresses rootKey vout nonce u : Int) * u.nValue =
      if counted env addresses rootKey vout u then u.nValue else 0 := by
  have hp : 0 < times env addresses rootKey vout nonce u ↔ _ := times_pos_iff hinj hnonce hlen hu
  by_cases hc : counted env addresses rootKey vout u = true
  · rw [if_pos hc]
    rw [← hp] at hc
    rcases paid_cases env addresses rootKey vout.length u with
      ⟨sa, hsa, ho, hf⟩ | ⟨sa, hsa, ho, i, hi, hle, hl⟩ | hno
    · rw [times_of_first hinj hnonce hsa ho hf, Nat.cast_one, one_mul]
    · have ht := times_of_later hinj hnonce hlen hsa ho hi hle hl
      rcases hon sa hsa ho with hle1 | hz
      · have hone : times env addresses rootKey vout nonce u = 1 := by omega
        rw [hone, Nat.cast_one, one_mul]
      · rw [hz u hu i hi hle hl, mul_zero]
    · rw [times_of_foreign hinj hnonce hlen hno] at hc
      cases hc
  · rw [if_neg hc]
    rw [← hp, Nat.pos_iff_ne_zero, not_not] at hc
    rw [hc, Nat.cast_zero, zero_mul]

end

theorem sum_outerAmount_eq_times : (vout.map (outerAmount env addresses rootKey vout nonce)).sum =
    (vout.map fun u => (times env addresses rootKey vout nonce u : Int) * u.nValue).sum := by
  rw [sum_outerAmount_eq]
  refine congrArg sum (map_congr_left fun u _ => ?_)
  rw [times]
  push_cast
  split_ifs
  · ring
  · ring

theorem getEnigmaOutputsAmounts_eq_times (hl : vout.getLast? = some nonce) (hv : nonce.nValue = minTxoutAmount)
    (hnonce : extractDestination env nonce.scriptPubKey = none) (hlen : vout.length < 60) (hr : PaysInRange vout) :
    (getEnigmaOutputsAmounts env addresses vout rootKey : Int) =
      (vout.map fun u => (times env addresses rootKey vout nonce u : Int) * u.nValue).sum := by
  have hle : (vout.map fun u => (times env addresses rootKey vout nonce u : Int) * u.nValue).sum ≤
      (vout.map fun u => 60 * u.nValue).sum := by
    refine sum_le_sum fun u hu => mul_le_mul_of_nonneg_right ?_ (hr.1 u hu)
    have hc : vout.countP (countsInner env addresses rootKey vout.length nonce · u) ≤ vout.length :=
      countP_le_length
    have ht : times env addresses rootKey vout nonce u ≤ 60 := by
      rw [times]
      split_ifs
      · omega
      · omega
    exact_mod_cast ht
  have hto : (vout.map fun u => 60 * u.nValue).sum = 60 * outValue vout := sum_map_mul_left ..
  have hb : 60 * maxMoney < 2 ^ 64 := by decide
  have hm := hr.2
  unfold getEnigmaOutputsAmounts
  rw [hl]
  dsimp only
  rw [if_neg (not_not.mpr hv), hnonce, Option.isSome_none, if_neg Bool.false_ne_true, sum_outerAmount_eq_times]
  refine uint64_of_nonneg (sum_nonneg fun x hx => ?_) (by omega)
  obtain ⟨u, hu, rfl⟩ := mem_map.mp hx
  exact mul_nonneg (Int.natCast_nonneg _) (hr.1 u hu)

end

theorem outputs_counted_once_iff (env : EnigmaEnv) (hinj : OneTimeInjective env) (addresses : List CStealthAddress)
    (rootKey : List UInt8) (vout : List CTxOut) (nonce : CTxOut) (hlast : vout.getLast? = some nonce)
    (hvalue : nonce.nValue = minTxoutAmount) (hnonce : extractDestination env nonce.scriptPubKey = none)
    (hlen : vout.length < 60) (hrange : PaysInRange vout) :
    ((getEnigmaOutputsAmounts env addresses vout rootKey : Int) =
        outValue (vout.filter (counted env addresses rootKey vout)) ↔ SiblingsOnce env addresses rootKey vout) ∧
      (SiblingsOnce env addresses rootKey vout →
        (getEnigmaOutputsAmounts env addresses vout rootKey : Int) ≤
          outValue (vout.filter (paysUs env addresses rootKey))) := by
  have hsum : (getEnigmaOutputsAmounts env addresses vout rootKey : Int) = _ :=
    getEnigmaOutputsAmounts_eq_times hlast hvalue hnonce hlen hrange
  have hr : SiblingsOnce env addresses rootKey vout → (getEnigmaOutputsAmounts env addresses vout rootKey : Int) =
        outValue (vout.filter (counted env addresses rootKey vout)) := by
    intro hon
    rw [hsum, outValue_filter]
    exact congrArg sum (map_congr_left fun u hu => times_mul_of_once hinj hnonce hlen hon hu)
  refine ⟨⟨fun heq => ?_, hr⟩, fun hon => ?_⟩
  · -- an output that is worth something and counted twice makes the sum too large
    intro sa hsa ho
    by_contra hf
    rw [not_or, Nat.not_le] at hf
    obtain ⟨htw, hw⟩ := hf
    push Not at hw
    obtain ⟨u, hu, i, hi, hle, hl, hne⟩ := hw
    have ht := times_of_later hinj hnonce hlen hsa ho hi hle hl
    have hlt : (vout.map fun u => if counted env addresses rootKey vout u then u.nValue else 0).sum <
        (vout.map fun u => (times env addresses rootKey vout nonce u : Int) * u.nValue).sum := by
      refine sum_lt_sum _ _ (fun x hx => ?_) ⟨u, hu, ?_⟩
      · have hx0 := hrange.1 x hx
        split_ifs with hc
        · have hpos : 1 ≤ times env addresses rootKey vout nonce x := (times_pos_iff hinj hnonce hlen hx).mpr hc
          exact le_mul_of_one_le_left hx0 (by exact_mod_cast hpos)
        · exact mul_nonneg (Int.natCast_nonneg _) hx0
      · have hu0 : 0 < u.nValue := lt_of_le_of_ne (hrange.1 u hu) hne.symm
        rw [ht]
        split_ifs
        · nlinarith
        · positivity
    rw [hsum, outValue_filter] at heq
    omega
  · rw [hr hon, outValue_filter, outValue_filter]
    refine sum_le_sum fun u hu => ?_
    have hu0 := hrange.1 u hu
    split_ifs with hc hp
    · exact le_rfl
    · obtain ⟨sa, hsa, ho, -, i, hle, hi⟩ := counted_iff.mp hc
      obtain ⟨id, hid, hone⟩ := paysKey_iff.mp hi
      refine absurd ?_ hp
      simp only [paysUs, hid, any_eq_true, Bool.and_eq_true, mem_range, decide_eq_true_eq]
      exact ⟨sa, hsa, ho, i, by omega, hone⟩
    · exact hu0
    · exact le_rfl

namespace Sample

def rootKey : List UInt8 := replicate 33 3

def keyScript (i : Nat) : CScript := scriptForKeyID (enigmaKey 1 rootKey 2 i)

def nonce : CTxOut := ⟨minTxoutAmount, stealthNonceScript rootKey⟩

def paidOnce : List CTxOut := [⟨1 * coin, keyScript 0⟩, ⟨3 * coin, keyScript 1⟩, nonce]

def paidTwice : List CTxOut := [⟨1 * coin, keyScript 0⟩, ⟨2 * coin, keyScript 0⟩, ⟨3 * coin, keyScript 1⟩, nonce]

end Sample

open Sample in
theorem outputs_counted_once_paid : (getEnigmaOutputsAmounts (env []) [⟨1, true⟩] paidOnce rootKey : Int) =
    outValue (paidOnce.filter (counted (env []) [⟨1, true⟩] rootKey paidOnce)) := by
  have ho : SiblingsOnce (env []) [⟨1, true⟩] rootKey paidOnce := by
    intro sa hsa _
    rw [mem_singleton.mp hsa]
    exact .inl (by decide)
  exact (outputs_counted_once_iff (env []) (oneTimeInjective []) [⟨1, true⟩] rootKey paidOnce nonce rfl rfl (by decide)
    (by decide) (by unfold PaysInRange; decide)).1.mpr ho

open Sample in
/-- Nine coins are counted where six are paid. -/
theorem sibling_counted_twice : paidTwice.getLast? = some nonce ∧ nonce.nValue = minTxoutAmount ∧
      extractDestination (env []) nonce.scriptPubKey = none ∧
      getEnigmaOutputsAmounts (env []) [⟨1, true⟩] paidTwice rootKey = 9000000 ∧
      outValue (paidTwice.filter (counted (env []) [⟨1, true⟩] rootKey paidTwice)) = 6000000 := by
  refine ⟨rfl, rfl, by decide, by decide, by decide⟩

end CloakCoin.Enigma
