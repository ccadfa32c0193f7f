import CloakCoin.Chain.Pool

/-!
# Committing a transaction

`CommitTransaction` records the transaction and marks the coins it spends before it hands it to the
memory pool, and undoes nothing when the pool refuses it.
-/

namespace CloakCoin.Wallet

open Chain List Option
open Std (ExtTreeMap)

variable {w' : CWallet}

namespace CWallet

def commitSpent (w : CWallet) (txin : CTxIn) : Option CWallet :=
  match w.mapWallet[txin.prevout.hash]? with
  | none => none
  | some coin =>
    if txin.prevout.n < coin.tx.vout.length then
      some { w with mapWallet := w.mapWallet.insert txin.prevout.hash (coin.markSpent txin.prevout.n) }
    else none

def commitTransaction (env : Env) (policy : RelayPolicy) (n : Node) (w : CWallet) (wtxNew : CWalletTx) :
    Option (Bool × CWallet × Node) := do
  let w := (w.findStealthTransactions wtxNew.tx).addToWallet env wtxNew
  let w ← wtxNew.tx.vin.foldlM commitSpent w
  let (verdict, n) := n.acceptToMemoryPool env policy true wtxNew.tx
  some (verdict == .accepted, w, n)

variable {env : Env} {w : CWallet} {wtxNew : CWalletTx}

/-- The wallet has the transaction and its spends: there is nothing to merge, no key to find and no flag to set. -/
structure Recorded (env : Env) (w : CWallet) (wtxNew : CWalletTx) : Prop where
  keys : w.stealthKeys wtxNew.tx = []
  known : ∃ wtx, w.mapWallet[wtxNew.tx.getHash env]? = some wtx ∧ mergeTx wtx wtxNew = wtx
  marked : ∀ txin ∈ wtxNew.tx.vin, ∀ coin, w.mapWallet[txin.prevout.hash]? = some coin →
    coin.vfSpent.length = coin.tx.vout.length ∧ coin.isSpent txin.prevout.n = true

theorem insert_self {hash : Hash256} (h : w.mapWallet[hash]? = some wtx) :
    { w with mapWallet := w.mapWallet.insert hash wtx } = w := by
  have hm : w.mapWallet.insert hash wtx = w.mapWallet := by
    apply ExtTreeMap.ext_getElem?
    intro k
    rw [ExtTreeMap.getElem?_insert]
    split
    · rename_i heq
      rw [← Std.LawfulEqCmp.eq_of_compare heq, h]
    · rfl
  rw [hm]

theorem Recorded.addToWallet (h : Recorded env w wtxNew) : w.addToWallet env wtxNew = w := by
  obtain ⟨wtx, hw, hm⟩ := h.known
  unfold CWallet.addToWallet
  simp only [hw, hm, insert_self hw]
  refine foldlRecOn (motive := (· = w)) _ _ rfl ?_
  rintro _ rfl txin hme
  unfold updatePrev
  split
  · rename_i coin _ hc _
    dsimp only
    rw [if_pos (h.marked txin hme coin hc).2, insert_self hc]
  · rfl

theorem Recorded.commitSpent (h : Recorded env w wtxNew) (hm : txin ∈ wtxNew.tx.vin)
    (hr : w.commitSpent txin = some w') : w' = w := by
  unfold CWallet.commitSpent at hr
  split at hr
  · cases hr
  rename_i coin hc
  split at hr
  · obtain ⟨hl, hs⟩ := h.marked txin hm coin hc
    have hsa : coin.markSpent txin.prevout.n = coin := by
      rw [CWalletTx.isSpent, getD_eq_getElem?_getD] at hs
      have hse : coin.vfSpent.set txin.prevout.n true = coin.vfSpent := by
        apply ext_getElem?
        grind
      simp [CWalletTx.markSpent, resize, ← hl, hse]
    rw [hsa, insert_self hc] at hr
    exact (some.inj hr).symm
  · cases hr

theorem Recorded.commitTransaction (h : Recorded env w wtxNew)
    (hrun : CWallet.commitTransaction env policy n w wtxNew = some (ok, w', n')) : w' = w := by
  have hs : ∀ vin ⊆ wtxNew.tx.vin, vin.foldlM CWallet.commitSpent w = some w' → w' = w := by
    intro vin
    induction vin with
    | nil => exact fun _ hf => (some.inj hf).symm
    | cons txin vin ih =>
      intro hsub hf
      rw [cons_subset] at hsub
      rw [foldlM_cons, bind_eq_bind, bind_eq_some_iff] at hf
      obtain ⟨w₁, hone, hr⟩ := hf
      rw [h.commitSpent hsub.1 hone] at hr
      exact ih hsub.2 hr
  have hfi : w.findStealthTransactions wtxNew.tx = w := by rw [findStealthTransactions, h.keys, append_nil]
  simp only [CWallet.commitTransaction, hfi, h.addToWallet, bind_eq_bind, bind_eq_some_iff,
    some.injEq, Prod.mk.injEq] at hrun
  obtain ⟨w₁, hf, -, rfl, -⟩ := hrun
  exact hs _ (List.Subset.refl _) hf

/-! ### What a commit leaves -/

/-- `w'` is `w` but for spent flags, and a flag that is set in a full vector stays so. -/
structure Spends (w w' : CWallet) : Prop where
  keys : w'.keys = w.keys
  records : ∀ k : Hash256, (w'.mapWallet[k]?).map (fun c => { c with vfSpent := [] }) =
    (w.mapWallet[k]?).map fun c => { c with vfSpent := [] }
  kept : ∀ (k : Hash256) coin coin' i, w.mapWallet[k]? = some coin → w'.mapWallet[k]? = some coin' →
    coin.vfSpent.length = coin.tx.vout.length ∧ coin.isSpent i = true →
    coin'.vfSpent.length = coin'.tx.vout.length ∧ coin'.isSpent i = true

theorem Spends.refl (w : CWallet) : Spends w w :=
  ⟨rfl, fun _ => rfl, fun _ _ _ _ h h' hs => by rwa [some.inj (h.symm.trans h')] at hs⟩

theorem Spends.trans {w₁ w₂ : CWallet} (h : Spends w w₁) (h' : Spends w₁ w₂) : Spends w w₂ := by
  refine ⟨h'.keys.trans h.keys, fun k => (h'.records k).trans (h.records k), fun k coin coin' i hc hc' hs => ?_⟩
  have hm := h.records k
  rw [hc] at hm
  obtain ⟨coin₁, h₁, -⟩ := map_eq_some_iff.mp hm
  exact h'.kept k coin₁ coin' i h₁ hc' (h.kept k coin coin₁ i hc h₁ hs)

theorem markSpent_marked (coin : CWalletTx) {i : Nat} (hi : i < coin.tx.vout.length) :
    (coin.markSpent i).vfSpent.length = coin.tx.vout.length ∧ (coin.markSpent i).isSpent i = true := by
  have hl : (resize coin.vfSpent coin.tx.vout.length).length = coin.tx.vout.length := by
    simp only [resize, length_append, length_take, length_replicate]
    omega
  refine ⟨by rw [CWalletTx.markSpent, length_set, hl], ?_⟩
  rw [CWalletTx.isSpent, CWalletTx.markSpent, getD_eq_getElem?_getD, getElem?_set_self (by omega)]
  rfl

theorem spends_insert {k : Hash256} {coin : CWalletTx} (hc : w.mapWallet[k]? = some coin) (n : Nat) :
    Spends w { w with mapWallet := w.mapWallet.insert k (coin.markSpent n) } := by
  refine ⟨rfl, fun j => ?_, fun j c c' i hj hj' hs => ?_⟩
  · by_cases hjk : j = k
    · rw [hjk, ExtTreeMap.getElem?_insert_self, hc]
      rfl
    · rw [Lib.getElem?_insert_ne _ hjk]
  · by_cases hjk : j = k
    · subst hjk
      rw [ExtTreeMap.getElem?_insert_self] at hj'
      obtain rfl := some.inj (hc.symm.trans hj)
      obtain rfl := some.inj hj'
      obtain ⟨hl, hsp⟩ := hs
      have hr : resize coin.vfSpent coin.tx.vout.length = coin.vfSpent := by simp [resize, ← hl]
      refine ⟨by rw [CWalletTx.markSpent, length_set, hr, hl], ?_⟩
      rw [CWalletTx.isSpent, getD_eq_getElem?_getD] at hsp ⊢
      rw [CWalletTx.markSpent, hr]
      grind
    · rw [Lib.getElem?_insert_ne _ hjk, hj] at hj'
      rwa [← some.inj hj']

theorem spends_walletUpdateSpent (w : CWallet) (tx : CTransaction) : Spends w (w.walletUpdateSpent tx) := by
  refine foldlRecOn (motive := Spends w) tx.vin _ (.refl w) fun w₁ h txin _ => ?_
  unfold updatePrev
  split
  · rename_i prev _ hc _
    dsimp only
    split
    · rwa [insert_self hc]
    · exact h.trans (spends_insert hc _)
  · exact h

theorem spends_commitSpent {vin : List CTxIn} (h : vin.foldlM CWallet.commitSpent w = some w') : Spends w w' ∧
    ∀ txin ∈ vin, ∀ coin, w'.mapWallet[txin.prevout.hash]? = some coin →
      coin.vfSpent.length = coin.tx.vout.length ∧ coin.isSpent txin.prevout.n = true := by
  induction vin generalizing w with
  | nil =>
    cases h
    exact ⟨.refl _, fun _ hm => absurd hm not_mem_nil⟩
  | cons txin vin ih =>
    rw [foldlM_cons, bind_eq_bind, bind_eq_some_iff] at h
    obtain ⟨w₁, hone, hr⟩ := h
    obtain ⟨hs, hal⟩ := ih hr
    unfold CWallet.commitSpent at hone
    split at hone
    · cases hone
    rename_i prev hc
    split at hone
    · rename_i hn
      cases hone
      refine ⟨(spends_insert hc _).trans hs, forall_mem_cons.mpr ⟨fun coin hco => ?_, hal⟩⟩
      exact hs.kept _ _ coin _ ExtTreeMap.getElem?_insert_self hco (markSpent_marked prev hn)
    · cases hone

theorem Recorded.of_unchanged (h : CWallet.commitTransaction env policy n w wtxNew = some (ok, w, n')) :
    Recorded env w wtxNew := by
  simp only [CWallet.commitTransaction, bind_eq_bind, bind_eq_some_iff, some.injEq,
    Prod.mk.injEq] at h
  obtain ⟨w₂, hf, -, rfl, -⟩ := h
  obtain ⟨hs, hm⟩ := spends_commitSpent hf
  have hs := (spends_walletUpdateSpent _ _).trans hs
  cases hw : w₂.mapWallet[wtxNew.tx.getHash env]? with
  | none =>
    have hr := hs.records (wtxNew.tx.getHash env)
    simp [findStealthTransactions, hw] at hr
  | some wtx =>
    have hk := hs.keys
    have hr := hs.records (wtxNew.tx.getHash env)
    simp only [findStealthTransactions, hw, ExtTreeMap.getElem?_insert_self, map_some,
      some.injEq] at hk hr
    refine ⟨self_eq_append_right.mp hk, ⟨wtx, hw, ?_⟩, hm⟩
    have hv : (mergeTx wtx wtxNew).vfSpent = wtx.vfSpent := by
      simp only [mergeTx, apply_ite CWalletTx.vfSpent, ite_self]
    calc mergeTx wtx wtxNew = { mergeTx wtx wtxNew with vfSpent := wtx.vfSpent } := by rw [← hv]
      _ = { { mergeTx wtx wtxNew with vfSpent := [] } with vfSpent := wtx.vfSpent } := rfl
      _ = wtx := by rw [← hr]

end CWallet

namespace CommitSample

def payment : CTransaction := { nTime := 1, vin := [{ prevout := ⟨5, 0⟩ }], vout := [⟨coin, [8]⟩] }

def wallet (vfSpent : List Bool) (more : List (Hash256 × CWalletTx)) : CWallet where
  mapWallet := more.foldl (fun m p => m.insert p.1 p.2)
    ((∅ : ExtTreeMap Hash256 CWalletTx).insert 5 { tx := { nTime := 0, vin := [], vout := [⟨coin, [7]⟩] }, vfSpent })
  keys := [[7]]
  stealthKeys := fun _ => []
  nOrderPosNext := 0

noncomputable def commit (w : CWallet) : Option (Bool × CWallet × Node) :=
  w.commitTransaction (Sample.env [payment] []) Sample.relayPolicy (Sample.node ⟨[], 1, .nil⟩ ∅ (fun _ => none) 1 0 [])
    { tx := payment }

end CommitSample

end CloakCoin.Wallet
