import CloakCoin.Enigma.Cloaker
import CloakCoin.Enigma.Submit
import CloakCoin.Lib.Lists

/-!
# What a cloaker gets for what it signs

`GetEnigmaOutputsAmounts` counts at most what the outputs really pay to one-time addresses of the
wallet, as long as no first one-time address is paid twice (`getEnigmaOutputsAmounts_le`): with each
further payment to it all its siblings are counted once more.

`SIGHASH_ALL | SIGHASH_ANYONECANPAY` commits to the outputs and to one input, so that the signatures
released for several requests over the same outputs can be put into one transaction. A cloaker does not
lose when it signs over each list of outputs once.
-/

namespace CloakCoin.Enigma

open Chain Lib Wallet List
open Std (ExtTreeMap)

variable {vout : List CTxOut} {io : CCloakingInputsOutputs} {s s' : EnigmaWallet} {sa : CStealthAddress} {w : CWallet}
  {csr : CCloakingRequest} {addresses : List CStealthAddress} {rootKey : List UInt8}

/-! ## The amount counted and the amount paid -/

/-- A one-time address determines its stealth address and index. -/
def OneTimeInjective (env : EnigmaEnv) : Prop :=
  ∀ (a b : CStealthAddress) (rootKey : List UInt8) (i j : Nat) (d : CTxDestination),
    oneTimeAddress env a rootKey i = some d → oneTimeAddress env b rootKey j = some d → a.encoded = b.encoded ∧ i = j

def paysUs (env : EnigmaEnv) (addresses : List CStealthAddress) (rootKey : List UInt8) (txout : CTxOut) : Bool :=
  match extractDestination env txout.scriptPubKey with
  | none => false
  | some d => addresses.any fun sa =>
    sa.isOwned && (range 60).any fun i => decide (oneTimeAddress env sa rootKey i = some d)

def ownValue (env : EnigmaEnv) (addresses : List CStealthAddress) (vout : List CTxOut) : Int :=
  outValue (vout.filter (paysUs env addresses ((getStealthEphemPK vout).getD [])))

def FirstPaidOnce (env : EnigmaEnv) (addresses : List CStealthAddress) (rootKey : List UInt8) (vout : List CTxOut) :
    Prop :=
  ∀ sa ∈ addresses, sa.isOwned = true → ∀ d, oneTimeAddress env sa rootKey 0 = some d →
    vout.countP (fun txout => decide (extractDestination env txout.scriptPubKey = some d)) ≤ 1

/-- The outputs are amounts, also together. -/
def PaysInRange (vout : List CTxOut) : Prop := (∀ txout ∈ vout, 0 ≤ txout.nValue) ∧ outValue vout ≤ maxMoney

section
variable {env : EnigmaEnv}

theorem mem_generatedKeyIds (h : d ∈ generatedKeyIds env sa rootKey num) :
    ∃ j, 1 ≤ j ∧ j < 60 ∧ oneTimeAddress env sa rootKey j = some d := by
  unfold generatedKeyIds getEnigmaChangeAddresses at h
  split_ifs at h with hn
  · simp only [Option.getD_some, mem_filterMap, mem_map, mem_range] at h
    obtain ⟨script, ⟨i, hi, rfl⟩, hd⟩ := h
    refine ⟨i + 1, by omega, by omega, ?_⟩
    split at hd
    · rename_i id hid
      cases hd
      exact hid
    · cases hd
  · simp at h

theorem addressLookup_spec (h : addressLookup env addresses rootKey d = some sa) :
    sa ∈ addresses ∧ sa.isOwned = true ∧ oneTimeAddress env sa rootKey 0 = some d := by
  have hm := mem_of_find?_eq_some h
  have hp := find?_some h
  rw [Bool.and_eq_true, decide_eq_true_eq] at hp
  exact ⟨mem_reverse.mp hm, hp.1, hp.2⟩

theorem outerAddress_spec (h : outerAddress env addresses rootKey nonce txout = some sa) :
    sa ∈ addresses ∧ sa.isOwned = true ∧
      ∃ d, oneTimeAddress env sa rootKey 0 = some d ∧ extractDestination env txout.scriptPubKey = some d := by
  unfold outerAddress at h
  split at h
  · cases h
  split at h
  · rename_i id hid
    obtain ⟨hm, ho, hon⟩ := addressLookup_spec h
    exact ⟨hm, ho, _, hon, hid⟩
  · cases h

/-- The inner loop counts `txoutInner` when it meets `txout`. -/
def countsInner (env : EnigmaEnv) (addresses : List CStealthAddress) (rootKey : List UInt8) (num : Nat)
    (nonce txout txoutInner : CTxOut) : Bool :=
  match outerAddress env addresses rootKey nonce txout, extractDestination env txoutInner.scriptPubKey with
  | some sa, some d => decide (txout ≠ txoutInner) && decide (d ∈ generatedKeyIds env sa rootKey num)
  | _, _ => false

theorem outerAmount_eq (vout : List CTxOut) (nonce txout : CTxOut) :
    outerAmount env addresses rootKey vout nonce txout =
      (if (outerAddress env addresses rootKey nonce txout).isSome then txout.nValue else 0) +
        (vout.map fun u => if countsInner env addresses rootKey vout.length nonce txout u
          then u.nValue else 0).sum := by
  unfold outerAmount
  cases ho : outerAddress env addresses rootKey nonce txout with
  | none => simp [countsInner, ho]
  | some sa =>
    have hi : innerAmount env vout (generatedKeyIds env sa rootKey vout.length) txout =
        (vout.map fun u => if countsInner env addresses rootKey vout.length nonce txout u
          then u.nValue else 0).sum := by
      unfold innerAmount
      congr 1
      refine map_congr_left fun u _ => ?_
      simp only [countsInner, ho]
      by_cases htu : txout = u
      · subst htu
        cases extractDestination env txout.scriptPubKey <;> simp
      · cases extractDestination env u.scriptPubKey <;> simp [htu]
    simp [hi]

theorem countsInner_of_outer (hi : OneTimeInjective env) (hu : outerAddress env addresses rootKey nonce u = some sa)
    (t : CTxOut) : countsInner env addresses rootKey num nonce t u = false := by
  obtain ⟨-, -, d, hz, hd⟩ := outerAddress_spec hu
  unfold countsInner
  rw [hd]
  cases outerAddress env addresses rootKey nonce t with
  | none => rfl
  | some sa' =>
    by_contra hc
    simp only [Bool.not_eq_false, Bool.and_eq_true, decide_eq_true_eq] at hc
    obtain ⟨j, hj, -, ho⟩ := mem_generatedKeyIds hc.2
    have := (hi sa sa' rootKey 0 j d hz ho).2
    omega

theorem countP_countsInner_le (num : Nat) (nonce u : CTxOut) (hi : OneTimeInjective env)
    (hon : FirstPaidOnce env addresses rootKey vout) : vout.countP (countsInner env addresses rootKey num nonce · u) ≤
      if paysUs env addresses rootKey u then 1 else 0 := by
  rcases Nat.eq_zero_or_pos (vout.countP (countsInner env addresses rootKey num nonce · u)) with hz | hpo
  · omega
  obtain ⟨t0, -, hc⟩ := countP_pos_iff.mp hpo
  unfold countsInner at hc
  split at hc
  swap
  · cases hc
  rename_i sa d hou hd
  simp only [Bool.and_eq_true, decide_eq_true_eq] at hc
  obtain ⟨hsa, ho, d0, hz, -⟩ := outerAddress_spec hou
  obtain ⟨j, -, hj, hone⟩ := mem_generatedKeyIds hc.2
  have hp : paysUs env addresses rootKey u = true := by
    simp only [paysUs, hd, any_eq_true, Bool.and_eq_true, mem_range, decide_eq_true_eq]
    exact ⟨sa, hsa, ho, j, hj, hone⟩
  rw [if_pos hp]
  refine le_trans (countP_mono_left fun t _ ht => ?_) (hon sa hsa ho d0 hz)
  unfold countsInner at ht
  rw [hd] at ht
  cases ho' : outerAddress env addresses rootKey nonce t with
  | none => simp [ho'] at ht
  | some sa' =>
    rw [ho'] at ht
    simp only [Bool.and_eq_true, decide_eq_true_eq] at ht
    obtain ⟨j', -, -, hon'⟩ := mem_generatedKeyIds ht.2
    obtain ⟨-, how', d', hz', hd'⟩ := outerAddress_spec ho'
    have hs : sa' = sa := by
      have := (hi sa' sa rootKey j' j d hon' hone).1
      cases sa
      cases sa'
      simp_all
    rw [hs, hz] at hz'
    rw [decide_eq_true_eq, hd', hz']

theorem sum_outerAmount_eq (vout : List CTxOut) (nonce : CTxOut) :
    (vout.map (outerAmount env addresses rootKey vout nonce)).sum =
      (vout.map fun u => (if (outerAddress env addresses rootKey nonce u).isSome then u.nValue else 0) +
        (vout.countP (countsInner env addresses rootKey vout.length nonce · u) : Nat) * u.nValue).sum := by
  rw [map_congr_left fun t _ => outerAmount_eq vout nonce t]
  simp only [sum_map_add, ← sum_map_ite_const]
  have := Multiset.sum_map_sum_map (m := (vout : Multiset CTxOut)) (n := (vout : Multiset CTxOut))
    (f := fun t u => if countsInner env addresses rootKey vout.length nonce t u then u.nValue else 0)
  simpa using this

theorem outValue_filter (p : CTxOut → Bool) (vout : List CTxOut) :
    outValue (vout.filter p) = (vout.map fun u => if p u then u.nValue else 0).sum := by
  induction vout with
  | nil => rfl
  | cons u vout ih =>
    rw [filter_cons]
    split_ifs with hu <;> simp_all [outValue]

theorem sum_outerAmount_le (nonce : CTxOut) (hi : OneTimeInjective env) (hon : FirstPaidOnce env addresses rootKey vout)
    (hpo : ∀ txout ∈ vout, 0 ≤ txout.nValue) : (vout.map (outerAmount env addresses rootKey vout nonce)).sum ≤
      outValue (vout.filter (paysUs env addresses rootKey)) := by
  rw [sum_outerAmount_eq, outValue_filter]
  refine sum_le_sum fun u hu => ?_
  have hv := hpo u hu
  cases ho : outerAddress env addresses rootKey nonce u with
  | some sa =>
    have hn : vout.countP (countsInner env addresses rootKey vout.length nonce · u) = 0 :=
      countP_eq_zero.mpr fun t _ => by simp [countsInner_of_outer hi ho t]
    obtain ⟨hsa, how, d, hz, hd⟩ := outerAddress_spec ho
    have hp : paysUs env addresses rootKey u = true := by
      simp only [paysUs, hd, any_eq_true, Bool.and_eq_true, mem_range, decide_eq_true_eq]
      exact ⟨sa, hsa, how, 0, by norm_num, hz⟩
    simp [hn, hp]
  | none =>
    have hle := countP_countsInner_le vout.length nonce u hi hon
    split_ifs at hle ⊢ with hp
    · simp only [Option.isSome_none, Bool.false_eq_true] at *
    · simp only [Option.isSome_none, Bool.false_eq_true] at *
    · nlinarith
    · have : vout.countP (countsInner env addresses rootKey vout.length nonce · u) = 0 := by omega
      simp [this]

theorem getEnigmaOutputsAmounts_le (hi : OneTimeInjective env) (hon : FirstPaidOnce env addresses rootKey vout)
    (hr : PaysInRange vout) (hro : getStealthEphemPK vout = some rootKey) :
    (getEnigmaOutputsAmounts env addresses vout rootKey : Int) ≤ ownValue env addresses vout := by
  have how : ownValue env addresses vout = outValue (vout.filter (paysUs env addresses rootKey)) := by
    rw [ownValue, hro]
    rfl
  have hn : 0 ≤ outValue (vout.filter (paysUs env addresses rootKey)) :=
    sum_nonneg fun x hx => by
      obtain ⟨o, ho, rfl⟩ := mem_map.mp hx
      exact hr.1 o (mem_of_mem_filter ho)
  rw [how]
  unfold getEnigmaOutputsAmounts
  split
  · exact hn
  rename_i nonce _
  split_ifs
  · exact hn
  · exact hn
  have hle := sum_outerAmount_le nonce hi hon hr.1
  have ha : outValue (vout.filter (paysUs env addresses rootKey)) ≤ outValue vout :=
    (filter_sublist.map CTxOut.nValue).sum_le_sum fun x hx => by
      obtain ⟨o, ho, rfl⟩ := mem_map.mp hx
      exact hr.1 o ho
  have hm : maxMoney < 2 ^ 64 := by decide
  rw [uint64_of_nonneg ?_ (by have := hr.2; omega)]
  · exact hle
  · refine sum_nonneg fun x hx => ?_
    obtain ⟨t, ht, rfl⟩ := mem_map.mp hx
    rw [outerAmount_eq]
    refine add_nonneg ?_ (sum_nonneg fun y hy => ?_)
    · split_ifs
      · exact hr.1 t ht
      · exact le_rfl
    · obtain ⟨u, hu, rfl⟩ := mem_map.mp hy
      split_ifs
      · exact hr.1 u hu
      · exact le_rfl

/-- Paid twice, the first one-time address makes the wallet count nine coins where six are paid. -/
example :
    let script := fun i => scriptForKeyID (Sample.enigmaKey 1 (replicate 33 3) 2 i)
    let vout : List CTxOut := [⟨1 * coin, script 0⟩, ⟨2 * coin, script 0⟩, ⟨3 * coin, script 1⟩,
      ⟨minTxoutAmount, stealthNonceScript (replicate 33 3)⟩]
    getEnigmaOutputsAmounts (Sample.env []) [⟨1, true⟩] vout (replicate 33 3) = 9000000 ∧
      ownValue (Sample.env []) [⟨1, true⟩] vout = 6 * coin := by
  decide

/-! ## The coins offered -/

def KeepsCoins (w w' : CWallet) : Prop :=
  ∀ o, w.hasOutput o = true → w'.hasOutput o = true ∧ w'.coinValue o = w.coinValue o

/-- The recorded inputs are coins of the wallet, worth the recorded amount. -/
structure Funded (w : CWallet) (io : CCloakingInputsOutputs) : Prop where
  nodup : (io.vin.map CTxIn.prevout).Nodup
  coins : ∀ o ∈ io.vin.map CTxIn.prevout, w.hasOutput o = true ∧ 0 ≤ w.coinValue o
  amount : io.nInputAmount = ((io.vin.map CTxIn.prevout).map w.coinValue).sum
  range : io.nInputAmount ≤ maxMoney

theorem Funded.mono (h : Funded w io) (hk : KeepsCoins w w') : Funded w' io where
  nodup := h.nodup
  coins := fun o ho => by
    obtain ⟨hou, hv⟩ := hk o (h.coins o ho).1
    exact ⟨hou, by rw [hv]; exact (h.coins o ho).2⟩
  amount := by
    rw [h.amount, map_congr_left fun o ho => (hk o (h.coins o ho).1).2]
  range := h.range

theorem Offered.funded (h : Offered env ctx s s' r io)
    (hr : ((s.wallet.availableCoins ctx.view true).map COutput.nValue).sum ≤ maxMoney) : Funded s.wallet io := by
  have hle := h.bound.trans hr
  have hnn : 0 ≤ ((io.vin.map CTxIn.prevout).map s.wallet.coinValue).sum := by
    refine sum_nonneg fun x hx => ?_
    obtain ⟨o, ho, rfl⟩ := mem_map.mp hx
    exact (h.chosen.pos o ho).le
  have ham := h.chosen.value.trans (int64_of_fits ⟨by omega, hle.trans_lt (by decide)⟩)
  exact ⟨h.chosen.nodup, fun o ho => ⟨h.chosen.has o ho, (h.chosen.pos o ho).le⟩, ham, ham ▸ hle⟩

theorem keepsCoins_of_sameCoins (h : SameCoins w w') : KeepsCoins w w' :=
  fun o ho => ⟨by rw [h.hasOutput]; exact ho, h.coinValue o⟩

/-! ## What is signed -/

def committed (tx : CTransaction) : Int × Nat × List CTxOut × Nat := (tx.nVersion, tx.nTime, tx.vout, tx.nLockTime)

structure Released (env : EnigmaEnv) (s : EnigmaWallet) (csr : CCloakingRequest) (rel : Release)
    (jointTrans : CTransaction) (io : CCloakingInputsOutputs) : Prop where
  joint : ∃ rest, csr.signedrawtx = some (jointTrans :: rest)
  recorded : s.mapCloakingInputsOutputs[csr.getIdHash env]? = some io
  committed : committed rel.tx = committed jointTrans
  inputs : rel.inputs ⊆ io.vin.map CTxIn.prevout
  paid : ∃ rootKey, getStealthEphemPK jointTrans.vout = some rootKey ∧
    uint64 io.nInputAmount ≤ getEnigmaOutputsAmounts env s.stealthAddresses jointTrans.vout rootKey

theorem committed_of_resigned (h : Resigned tx tx') : committed tx' = committed tx := by
  rw [h.rest]
  rfl

theorem signAndRespond_spec (h : signAndRespond env ctx s csr = (s', rel)) :
    s'.wallet = s.wallet ∧ s'.stealthAddresses = s.stealthAddresses ∧ KeepsInputs s s' ∧
      ∀ r, rel = some r → ∃ jointTrans io, Released env s csr r jointTrans io := by
  have hk : KeepsInputs s s := fun id io hio => ⟨id, io, hio, rfl, rfl⟩
  unfold signAndRespond at h
  dsimp only at h
  split at h
  · rename_i reqOurCopy jointTrans rest inoutsMine hre hra hm
    split at h
    · cases h
      exact ⟨rfl, rfl, hk, fun r hr => by cases hr⟩
    split at h
    · cases h
      exact ⟨rfl, rfl, hk, fun r hr => by cases hr⟩
    rename_i signed hs
    cases h
    refine ⟨rfl, rfl, fun id io hio => ?_, fun r hr => ?_⟩
    · dsimp only [EnigmaWallet.setInOuts] at hio
      rw [ExtTreeMap.getElem?_insert] at hio
      split at hio
      · cases hio
        exact ⟨_, inoutsMine, hm, rfl, rfl⟩
      · exact hk id io hio
    · cases hr
      unfold signedByCloaker at hs
      split at hs
      · cases hs
      split at hs
      · cases hs
      rename_i rootKey hro
      split at hs
      · cases hs
      rename_i he
      split at hs
      · cases hs
      obtain ⟨y, hy, rfl⟩ := Option.map_eq_some_iff.mp hs
      refine ⟨jointTrans, inoutsMine, ⟨rest, hra⟩, hm, committed_of_resigned (signInputs_resigned hy),
        fun o ho => ?_, rootKey, hro, not_lt.mp he⟩
      obtain ⟨txin, hin, rfl⟩ := mem_map.mp ho
      exact mem_map_of_mem (of_decide_eq_true (mem_filter.mp hin).2)
  · cases h
    exact ⟨rfl, rfl, hk, fun r hr => by cases hr⟩

theorem handleSignRequest_spec (env : EnigmaEnv) (ctx : CloakerCtx) (s : EnigmaWallet) (csr : CCloakingRequest) :
    (handleSignRequest env ctx s csr).1.wallet = s.wallet ∧
      (handleSignRequest env ctx s csr).1.stealthAddresses = s.stealthAddresses ∧
      KeepsInputs s (handleSignRequest env ctx s csr).1 ∧
      ∀ r, (handleSignRequest env ctx s csr).2 = some r → ∃ jointTrans io, Released env s csr r jointTrans io := by
  have hk : KeepsInputs s s := fun id io hio => ⟨id, io, hio, rfl, rfl⟩
  unfold handleSignRequest
  dsimp only
  split
  · exact ⟨rfl, rfl, hk, fun r hr => by cases hr⟩
  split
  · exact ⟨rfl, rfl, hk, fun r hr => by cases hr⟩
  · obtain ⟨hw, ha, hi, hre⟩ :=
      signAndRespond_spec (Prod.mk.eta (p := signAndRespond env ctx s csr)).symm
    exact ⟨hw, ha, hi, hre⟩

end

/-! ## Runs of a cloaker -/

def CoinsInRange (view : ChainView) (w : CWallet) : Prop :=
  ((w.availableCoins view true).map COutput.nValue).sum ≤ maxMoney

/-- Requests and sign requests in any order, with the signatures released. Whatever else happens to the
wallet keeps its coins and its stealth addresses, and records inputs for sends of its own that are
funded. -/
inductive CloakerRun (env : EnigmaEnv) (okSign : EnigmaWallet → List Release → CCloakingRequest → Prop)
    (s₀ : EnigmaWallet) : EnigmaWallet → List Release → Prop
  | init : CloakerRun env okSign s₀ s₀ []
  | process {s : EnigmaWallet} {log : List Release} (run : CloakerRun env okSign s₀ s log) (ctx : CloakerCtx)
      (r : CCloakingRequest) (range : CoinsInRange ctx.view s.wallet) :
      CloakerRun env okSign s₀ (processRequest env ctx s r) log
  | sign {s : EnigmaWallet} {log : List Release} (run : CloakerRun env okSign s₀ s log) (ctx : CloakerCtx)
      (csr : CCloakingRequest) (ok : okSign s log csr) :
      CloakerRun env okSign s₀ (handleSignRequest env ctx s csr).1 ((handleSignRequest env ctx s csr).2.toList ++ log)
  | other {s s' : EnigmaWallet} {log : List Release} (run : CloakerRun env okSign s₀ s log)
      (coins : KeepsCoins s.wallet s'.wallet) (addresses : s.stealthAddresses ⊆ s'.stealthAddresses)
      (inputs : ∀ (id : Hash256) io, s'.mapCloakingInputsOutputs[id]? = some io → Funded s'.wallet io ∨
        ∃ (id' : Hash256) (io' : CCloakingInputsOutputs), s.mapCloakingInputsOutputs[id']? = some io' ∧
          io'.vin = io.vin ∧ io'.nInputAmount = io.nInputAmount) :
      CloakerRun env okSign s₀ s' log

/-- What the cloaker is asked to sign is new and pays each first address once. -/
def SignsOnce (env : EnigmaEnv) (s : EnigmaWallet) (log : List Release) (csr : CCloakingRequest) : Prop :=
  ∀ jointTrans rest, csr.signedrawtx = some (jointTrans :: rest) →
    PaysInRange jointTrans.vout ∧
    (∀ rootKey, getStealthEphemPK jointTrans.vout = some rootKey →
      FirstPaidOnce env s.stealthAddresses rootKey jointTrans.vout) ∧
    ∀ rel ∈ log, committed rel.tx ≠ committed jointTrans

/-- The inputs for which signatures over these outputs were released. -/
def signedInputs (log : List Release) (c : Int × Nat × List CTxOut × Nat) : Finset COutPoint :=
  ((log.filter fun rel => decide (committed rel.tx = c)).flatMap Release.inputs).toFinset

structure CloakerInv (env : EnigmaEnv) (s : EnigmaWallet) (log : List Release) : Prop where
  funded : ∀ (id : Hash256) io, s.mapCloakingInputsOutputs[id]? = some io → Funded s.wallet io
  coins : ∀ rel ∈ log, ∀ o ∈ rel.inputs, s.wallet.hasOutput o = true
  range : ∀ rel ∈ log, ∀ txout ∈ rel.tx.vout, 0 ≤ txout.nValue
  paid : ∀ rel ∈ log, ∑ o ∈ rel.inputs.toFinset, s.wallet.coinValue o ≤ ownValue env s.stealthAddresses rel.tx.vout
  once : log.Pairwise fun a b => committed a.tx ≠ committed b.tx

section
variable {env : EnigmaEnv}

theorem ownValue_mono (h : a ⊆ b)
    (hpo : ∀ txout ∈ vout, 0 ≤ txout.nValue) : ownValue env a vout ≤ ownValue env b vout := by
  have hs : (vout.filter (paysUs env a ((getStealthEphemPK vout).getD []))).Sublist
      (vout.filter (paysUs env b ((getStealthEphemPK vout).getD []))) := by
    refine monotone_filter_right vout fun txout hp => ?_
    unfold paysUs at hp ⊢
    split at hp
    · cases hp
    · obtain ⟨sa, hsa, ha⟩ := any_eq_true.mp hp
      exact any_eq_true.mpr ⟨sa, h hsa, ha⟩
  refine (hs.map CTxOut.nValue).sum_le_sum fun x hx => ?_
  obtain ⟨o, ho, rfl⟩ := mem_map.mp hx
  exact hpo o (mem_of_mem_filter ho)

theorem Funded.sum_le (h : Funded w io)
    (hos : os ⊆ io.vin.map CTxIn.prevout) : ∑ o ∈ os.toFinset, w.coinValue o ≤ io.nInputAmount := by
  rw [h.amount, ← sum_toFinset _ h.nodup]
  refine Finset.sum_le_sum_of_subset_of_nonneg (fun o ho => ?_) fun o ho _ => ?_
  · rw [mem_toFinset] at ho ⊢
    exact hos ho
  · exact (h.coins o (mem_toFinset.mp ho)).2

theorem Funded.nonneg (h : Funded w io) : 0 ≤ io.nInputAmount := by
  rw [h.amount]
  refine sum_nonneg fun x hx => ?_
  obtain ⟨o, ho, rfl⟩ := mem_map.mp hx
  exact (h.coins o ho).2

theorem Released.paid_le (h : Released env s csr rel jointTrans io)
    (hf : Funded s.wallet io) (hi : OneTimeInjective env) (hra : PaysInRange jointTrans.vout)
    (ho : ∀ rootKey, getStealthEphemPK jointTrans.vout = some rootKey →
      FirstPaidOnce env s.stealthAddresses rootKey jointTrans.vout) :
    ∑ o ∈ rel.inputs.toFinset, s.wallet.coinValue o ≤ ownValue env s.stealthAddresses jointTrans.vout := by
  obtain ⟨rootKey, hr, hp⟩ := h.paid
  have hm : maxMoney < 2 ^ 64 := by decide
  have ha : (uint64 io.nInputAmount : Int) = io.nInputAmount :=
    uint64_of_nonneg hf.nonneg (by have := hf.range; omega)
  calc ∑ o ∈ rel.inputs.toFinset, s.wallet.coinValue o ≤ io.nInputAmount := hf.sum_le h.inputs
    _ = uint64 io.nInputAmount := ha.symm
    _ ≤ getEnigmaOutputsAmounts env s.stealthAddresses jointTrans.vout rootKey := by exact_mod_cast hp
    _ ≤ ownValue env s.stealthAddresses jointTrans.vout := getEnigmaOutputsAmounts_le hi (ho rootKey hr) hra hr

namespace CloakerInv

variable {log : List Release}

section
variable (h : CloakerInv env s log)
include h

theorem step (hk : KeepsCoins s.wallet s'.wallet) (ha : s.stealthAddresses ⊆ s'.stealthAddresses)
    (hi : ∀ (id : Hash256) io, s'.mapCloakingInputsOutputs[id]? = some io → Funded s'.wallet io) :
    CloakerInv env s' log where
  funded := hi
  coins := fun rel hr o ho => (hk o (h.coins rel hr o ho)).1
  range := h.range
  paid := fun rel hr => by
    rw [Finset.sum_congr rfl fun o ho => (hk o (h.coins rel hr o (mem_toFinset.mp ho))).2]
    exact (h.paid rel hr).trans (ownValue_mono ha (h.range rel hr))
  once := h.once

theorem keeps (hw : s'.wallet = s.wallet) (hi : KeepsInputs s s') :
    ∀ (id : Hash256) io, s'.mapCloakingInputsOutputs[id]? = some io → Funded s'.wallet io := by
  intro id io hio
  obtain ⟨id', io', hi', hv, ha⟩ := hi id io hio
  obtain ⟨hn, hc, hs, hr⟩ := h.funded id' io' hi'
  rw [hw]
  rw [hv] at hn hc hs
  rw [ha] at hs hr
  exact ⟨hn, hc, hs, hr⟩

theorem process (ctx : CloakerCtx) (r : CCloakingRequest)
    (hr : CoinsInRange ctx.view s.wallet) : CloakerInv env (processRequest env ctx s r) log := by
  rcases processRequest_cases env ctx s r with hs | ⟨io, ho⟩
  · refine h.step ?_ (by rw [hs.addresses]; exact List.Subset.refl _)
      (h.keeps hs.wallet fun id io hio => ⟨id, io, hs.inOuts ▸ hio, rfl, rfl⟩)
    rw [hs.wallet]
    exact keepsCoins_of_sameCoins (.refl _)
  have hc := (CWallet.foldl_reserveCoin_spec (io.vin.map CTxIn.prevout) s.wallet ho.chosen.has).1
  have hk : KeepsCoins s.wallet (processRequest env ctx s r).wallet := by
    rw [ho.wallet]
    exact keepsCoins_of_sameCoins hc
  refine h.step hk (by rw [ho.addresses]; exact List.Subset.refl _) fun id io' hi' => ?_
  rw [ho.inOuts, ExtTreeMap.getElem?_insert] at hi'
  split at hi'
  · cases hi'
    exact (ho.funded hr).mono hk
  · exact (h.funded id io' hi').mono hk

theorem sign (hin : OneTimeInjective env) (ctx : CloakerCtx) (hok : SignsOnce env s log csr) :
    CloakerInv env (handleSignRequest env ctx s csr).1 ((handleSignRequest env ctx s csr).2.toList ++ log) := by
  obtain ⟨hw, ha, hi, hre⟩ := handleSignRequest_spec env ctx s csr
  have hk : KeepsCoins s.wallet (handleSignRequest env ctx s csr).1.wallet := by
    rw [hw]
    exact keepsCoins_of_sameCoins (.refl _)
  have hs := h.step hk (by rw [ha]; exact List.Subset.refl _) (h.keeps hw hi)
  cases hou : (handleSignRequest env ctx s csr).2 with
  | none => exact hs
  | some rel =>
    obtain ⟨jointTrans, io, hr⟩ := hre rel hou
    obtain ⟨rest, hraw⟩ := hr.joint
    obtain ⟨hra, hon, hn⟩ := hok jointTrans rest hraw
    have hf := h.funded _ io hr.recorded
    have hv : rel.tx.vout = jointTrans.vout := congrArg (fun c => c.2.2.1) hr.committed
    exact
      { funded := hs.funded
        coins := forall_mem_cons.mpr ⟨fun o ho => by
          rw [hw]
          exact (hf.coins o (hr.inputs ho)).1, hs.coins⟩
        range := forall_mem_cons.mpr ⟨by rw [hv]; exact hra.1, hs.range⟩
        paid := forall_mem_cons.mpr ⟨by
          rw [hw, ha, hv]
          exact hr.paid_le hf hin hra hon, hs.paid⟩
        once := pairwise_cons.mpr ⟨fun rel' hr' => by
          rw [hr.committed]
          exact (hn rel' hr').symm, h.once⟩ }

end

end CloakerInv

theorem CloakerRun.cloakerInv (hin : OneTimeInjective env)
    (h0 : ∀ (id : Hash256) io, s0.mapCloakingInputsOutputs[id]? = some io → Funded s0.wallet io)
    (hru : CloakerRun env (SignsOnce env) s0 s log) : CloakerInv env s log := by
  induction hru with
  | init =>
    exact ⟨h0, fun rel hre => absurd hre (by simp), fun rel hre => absurd hre (by simp),
      fun rel hre => absurd hre (by simp), List.Pairwise.nil⟩
  | process _ ctx r hr ih => exact ih.process ctx r hr
  | sign _ ctx csr hok ih => exact ih.sign hin ctx hok
  | other _ hco had hi ih =>
    refine ih.step hco had fun id io hio => ?_
    rcases hi id io hio with hf | ⟨id', io', hi', hv, ha⟩
    · exact hf
    obtain ⟨hn, hc, hs, hr⟩ := (ih.funded id' io' hi').mono hco
    rw [hv] at hn hc hs
    rw [ha] at hs hr
    exact ⟨hn, hc, hs, hr⟩

theorem filter_committed {log : List Release} (h : log.Pairwise fun a b => committed a.tx ≠ committed b.tx)
    (hr : rel ∈ log) : log.filter (fun rel' => decide (committed rel'.tx = committed rel.tx)) = [rel] := by
  induction log with
  | nil => cases hr
  | cons a log ih =>
    rw [pairwise_cons] at h
    rcases mem_cons.mp hr with rfl | hr
    · rw [filter_cons, if_pos (by simp)]
      congr 1
      exact filter_eq_nil_iff.mpr fun b hb => by simpa using (h.1 b hb).symm
    · rw [filter_cons, if_neg (by simpa using h.1 rel hr)]
      exact ih h.2 hr

end

/-- **A cloaker never loses money by signing**, in every run in which each joint transaction it is asked
to sign is in range, pays no first one-time address twice and has outputs that were not signed before:
over every list of outputs, the inputs signed are worth no more than what the outputs pay to one-time
addresses of the wallet. -/
theorem cloaker_never_loses (env : EnigmaEnv) (hinj : OneTimeInjective env) (s₀ s : EnigmaWallet) (log : List Release)
    (h₀ : ∀ (id : Hash256) io, s₀.mapCloakingInputsOutputs[id]? = some io → Funded s₀.wallet io)
    (hrun : CloakerRun env (SignsOnce env) s₀ s log) (rel : Release) (hrel : rel ∈ log) :
    ∑ o ∈ signedInputs log (committed rel.tx), s.wallet.coinValue o ≤ ownValue env s.stealthAddresses rel.tx.vout := by
  have hinv := hrun.cloakerInv hinj h₀
  have hset : signedInputs log (committed rel.tx) = rel.inputs.toFinset := by
    rw [signedInputs, filter_committed hinv.once hrel]
    simp
  rw [hset]
  exact hinv.paid rel hrel

/-! ### Two requests, signed over the same outputs -/

namespace Sample

theorem oneTimeInjective (txs : List CTransaction) : OneTimeInjective (env txs) := by
  intro a b rootKey i j d hi hj
  have hs : ∀ (sa : CStealthAddress) (k : Nat), oneTimeAddress (env txs) sa rootKey k =
      some (.keyID (scriptForKeyID (enigmaKey sa.encoded rootKey (sa.encoded + 1) k))) := fun _ _ => rfl
  rw [hs] at hi hj
  have hk := (Option.some.inj hi).trans (Option.some.inj hj).symm
  simp only [CTxDestination.keyID.injEq, scriptForKeyID, cons_append, nil_append,
    cons.injEq, true_and] at hk
  obtain ⟨hsx, -, -, hin⟩ := enigmaKey_inj (append_cancel_right hk.2)
  exact ⟨hsx, hin⟩

def jointOutputs : List CTxOut :=
  [⟨5 * coin, scriptForKeyID (enigmaKey 1 (replicate 33 3) 2 0)⟩,
    ⟨minTxoutAmount, stealthNonceScript (replicate 33 3)⟩]

def request2 (time : Int) (n : Nat) (amount : Int) : CCloakingRequest :=
  { identifier := ⟨2, time⟩, nSendAmount := (amount - minTxoutAmount).toNat, nParticipantsRequired := 1
    signedrawtx := some [{ nTime := 5, vin := [{ prevout := ⟨1, n⟩ }], vout := jointOutputs }] }

noncomputable def accepted1 : EnigmaWallet := processRequest (env []) cloakerCtx cloaker (request2 1 0 (4 * coin))
noncomputable def accepted2 : EnigmaWallet := processRequest (env []) cloakerCtx accepted1 (request2 2 1 (5 * coin))
noncomputable def signed1 : EnigmaWallet × Option Release :=
  handleSignRequest (env []) cloakerCtx accepted2 (request2 1 0 (4 * coin))
noncomputable def signed2 : EnigmaWallet × Option Release :=
  handleSignRequest (env []) cloakerCtx signed1.1 (request2 2 1 (5 * coin))

theorem accepted2_run : CloakerRun (env []) okSign cloaker accepted2 [] :=
  (CloakerRun.init.process cloakerCtx _ (by unfold CoinsInRange; decide)).process cloakerCtx _
    (by unfold CoinsInRange; decide)

theorem cloaker_unfunded (id : Hash256) (io : CCloakingInputsOutputs)
    (h : cloaker.mapCloakingInputsOutputs[id]? = some io) : Funded cloaker.wallet io := by
  simp [cloaker, wallet] at h

end Sample

open Sample in
theorem cloaker_never_loses_first :
    ∃ rel ∈ signed1.2.toList ++ [], ∑ o ∈ signedInputs (signed1.2.toList ++ []) (committed rel.tx),
      signed1.1.wallet.coinValue o ≤ ownValue (env []) signed1.1.stealthAddresses rel.tx.vout := by
  obtain ⟨rel, hrel⟩ := Option.isSome_iff_exists.mp (show signed1.2.isSome = true by decide)
  have hmem : rel ∈ signed1.2.toList ++ [] := by simp [hrel]
  have hok : SignsOnce (env []) accepted2 [] (request2 1 0 (4 * coin)) := by
    intro jointTrans rest hraw
    cases hraw
    refine ⟨⟨by decide, by decide⟩, fun rootKey hr => ?_, fun rel hrel => absurd hrel (by simp)⟩
    have hkey : rootKey = replicate 33 3 := by
      rw [← Option.some.injEq, ← hr]
      decide
    subst hkey
    intro sa hsa _ d hd
    have hsa' : sa = ⟨1, true⟩ := by simpa using (show sa ∈ [(⟨1, true⟩ : CStealthAddress)] from hsa)
    subst hsa'
    rw [← hd]
    decide
  exact ⟨rel, hmem, cloaker_never_loses (env []) (oneTimeInjective []) cloaker signed1.1 _ cloaker_unfunded
    (accepted2_run.sign cloakerCtx _ hok) rel hmem⟩

open Sample in
/-- Four and five coins are signed over outputs that pay five. -/
theorem cloaker_loses_over_shared_outputs :
    ∃ log rel, CloakerRun (env []) (fun _ _ _ => True) cloaker signed2.1 log ∧ rel ∈ log ∧
      ownValue (env []) signed2.1.stealthAddresses rel.tx.vout = 5 * coin ∧
      ∑ o ∈ signedInputs log (committed rel.tx), signed2.1.wallet.coinValue o = 9 * coin := by
  obtain ⟨rel, hrel⟩ := Option.isSome_iff_exists.mp (show signed2.2.isSome = true by decide)
  have hv : (signed2.2.all fun rel =>
      decide (ownValue (env []) signed2.1.stealthAddresses rel.tx.vout = 5 * coin) &&
      decide (∑ o ∈ signedInputs (signed2.2.toList ++ (signed1.2.toList ++ [])) (committed rel.tx),
        signed2.1.wallet.coinValue o = 9 * coin)) = true := by decide
  have hrun : CloakerRun (env []) (fun _ _ _ => True) cloaker signed2.1
      (signed2.2.toList ++ (signed1.2.toList ++ [])) :=
    (accepted2_run.sign cloakerCtx (request2 1 0 (4 * coin)) trivial).sign cloakerCtx (request2 2 1 (5 * coin)) trivial
  refine ⟨_, rel, hrun, ?_, ?_⟩
  · exact mem_append_left _ (by simp [hrel])
  · rw [hrel, Option.all_some, Bool.and_eq_true, decide_eq_true_eq, decide_eq_true_eq, ← hrel] at hv
    exact hv

end CloakCoin.Enigma
