import CloakCoin.Enigma.Sender
import CloakCoin.Stealth.Encrypt
import CloakCoin.Stealth.Sample

/-!
# Unlocking after payments that arrived while the wallet was locked

A payment found while the wallet is locked leaves an entry without a secret in the key store. `Unlock` tries
the master key on the entry with the smallest key id, so it fails when such an entry comes first.
-/

namespace CloakCoin.Stealth

open Chain Lib Enigma
open Std (ExtTreeMap)
open Std.ExtTreeMap

variable {w w' : KeyWallet}

section
variable {env : StealthEnv}

def BehindFirst (env : StealthEnv) (w : KeyWallet) (tx : CTransaction) : Prop :=
  ∀ id, Found env w.stealthAddresses tx.vout id →
    ∃ first, w.mapCryptedKeys.keys.head? = some first ∧ cmpKeyID first id = .lt

theorem cmpKeyID_self_ne_lt (id : CKeyID) : cmpKeyID id id ≠ .lt := by
  have heq : cmpKeyID id id = .eq := Std.ReflCmp.compare_self
  rw [heq]
  decide

theorem Grown.head?_keys_eq (h : Grown P w w')
    (hb : ∀ id, P id → ∃ first, w.mapCryptedKeys.keys.head? = some first ∧ cmpKeyID first id = .lt) :
    w'.mapCryptedKeys.keys.head? = w.mapCryptedKeys.keys.head? := by
  rcases hm : w.mapCryptedKeys.keys.head? with _ | first
  · have hn : ∀ id, ¬P id := by
      intro id hid
      obtain ⟨first, hf, -⟩ := hb id hid
      rw [hm] at hf
      cases hf
    have heq : w'.mapCryptedKeys = w.mapCryptedKeys := ext_getElem? fun id => h.crypted id (hn id)
    rw [heq, hm]
  have hlt : ∀ id, P id → cmpKeyID first id = .lt := by
    intro id hid
    obtain ⟨first', hf, hlt⟩ := hb id hid
    rw [hm] at hf
    cases hf
    exact hlt
  rw [← minKey?_eq_head?_keys, minKey?_eq_some_iff_mem_and_forall] at hm ⊢
  have hs : ¬P first := fun hP => cmpKeyID_self_ne_lt first (hlt first hP)
  constructor
  · rw [mem_iff_isSome_getElem?, h.crypted first hs, ← mem_iff_isSome_getElem?]
    exact hm.1
  · intro id hid
    by_cases hP : P id
    · rw [hlt id hP]
      rfl
    · rw [mem_iff_isSome_getElem?, h.crypted id hP, ← mem_iff_isSome_getElem?] at hid
      exact hm.2 id hid

theorem Grown.firstCryptedKey_eq (h : Grown P w w')
    (hb : ∀ id, P id → ∃ first, w.mapCryptedKeys.keys.head? = some first ∧ cmpKeyID first id = .lt) :
    w'.firstCryptedKey = w.firstCryptedKey := by
  unfold KeyWallet.firstCryptedKey
  rw [h.head?_keys_eq hb]
  refine Option.bind_congr fun first hf => h.crypted first fun hP => ?_
  obtain ⟨first', hf', hlt⟩ := hb first hP
  rw [hf] at hf'
  cases hf'
  exact cmpKeyID_self_ne_lt _ hlt

/-! ## What `Unlock` depends on -/

structure SameTest (w w' : KeyWallet) : Prop where
  crypto : w.fUseCrypto = true
  crypto' : w'.fUseCrypto = true
  first : w'.firstCryptedKey = w.firstCryptedKey

theorem SameTest.cryptoUnlock (h : SameTest w w') (k : Bytes) : (w.cryptoUnlock env k).1 = (w'.cryptoUnlock env k).1 ∧
      SameTest (w.cryptoUnlock env k).2 (w'.cryptoUnlock env k).2 := by
  have ha : w'.accepts env k = w.accepts env k := by rw [KeyWallet.accepts, KeyWallet.accepts, h.first]
  rw [KeyWallet.cryptoUnlock_eq h.crypto, KeyWallet.cryptoUnlock_eq h.crypto', ha]
  split
  · exact ⟨rfl, h.crypto, h.crypto', h.first⟩
  · exact ⟨rfl, h⟩

theorem SameTest.unlock (h : SameTest w w') (hl : w.isLocked = true) (hl' : w'.isLocked = true)
    (hr : w'.mapMasterKeys = w.mapMasterKeys) (p : String) : (w'.unlock env p).1 = (w.unlock env p).1 := by
  have hs : ∀ (k : CMasterKey) (s t : KeyWallet × Bytes), SameTest s.1 t.1 →
      (KeyWallet.tryMasterKey env p k s).1 = (KeyWallet.tryMasterKey env p k t).1 ∧
        SameTest (KeyWallet.tryMasterKey env p k s).2.1 (KeyWallet.tryMasterKey env p k t).2.1 := by
    intro k s t hst
    unfold KeyWallet.tryMasterKey
    split
    · exact ⟨rfl, hst⟩
    · exact hst.cryptoUnlock _
  have hlo := (loop_rel (R := fun s t => SameTest s.1 t.1) hs w.mapMasterKeys
    (s := (w, [])) (t := (w', [])) h).1
  have hf : ∀ u : KeyWallet, u.isLocked = true →
      (u.unlock env p).1 = (loop (KeyWallet.tryMasterKey env p) u.mapMasterKeys (u, [])).1 := by
    intro u hu
    unfold KeyWallet.unlock
    rw [hu, Bool.not_true, if_neg Bool.false_ne_true]
    split
    · rename_i heq
      rw [heq]
    · rename_i heq
      rw [heq]
  rw [hf w hl, hf w' hl', hr, hlo]

end

/-! ## Runs -/

/-- Scans of a locked wallet whose payments come behind the first entry of the key store. -/
inductive ScannedLocked (env : StealthEnv) (w₀ : KeyWallet) : KeyWallet → Prop
  | start : ScannedLocked env w₀ w₀
  | scan {w : KeyWallet} (tx : CTransaction) : ScannedLocked env w₀ w → BehindFirst env w tx →
    ScannedLocked env w₀ (w.scan env tx)

/-- **A passphrase that unlocks the wallet still does after any number of scans** whose payments come behind the
first entry. -/
theorem unlock_after_scans (env : StealthEnv) (p : String) (w₀ w : KeyWallet) (hlocked : w₀.isLocked = true)
    (hopens : (w₀.unlock env p).1 = true) (hrun : ScannedLocked env w₀ w) : (w.unlock env p).1 = true := by
  have hinv : w.isLocked = true ∧ (w.unlock env p).1 = true := by
    induction hrun with
    | start => exact ⟨hlocked, hopens⟩
    | @scan w tx _ hb ih =>
      obtain ⟨hw, ho⟩ := ih
      have hg := scan_grown env tx fun hun => absurd (hun.symm.trans hw) Bool.false_ne_true
      have hl' : (w.scan env tx).isLocked = true := hg.isLocked.trans hw
      have hc : w.fUseCrypto = true := ((Bool.and_eq_true _ _).mp hw).1
      have hs : SameTest w (w.scan env tx) :=
        ⟨hc, hg.crypto.trans hc, hg.firstCryptedKey_eq hb⟩
      exact ⟨hl', (hs.unlock hw hl' hg.records p).trans ho⟩
  exact hinv.2

/-! ### A stealth payment to the wallet of the sample -/

noncomputable def Sample.payment : CTransaction :=
  { nTime := 1, vin := []
    vout := [⟨coin, scriptForKeyID (Sample.compress (.ofNat 19))⟩,
      ⟨1, stealthNonceScript (Sample.compress (.ofNat 5))⟩] }

theorem keyID_of_found_payment {id : CKeyID}
    (h : Found (Sample.env []) addresses Sample.payment.vout id) : id = Sample.compress (.ofNat 19) := by
  obtain ⟨-, -, -, -, -, -, txout, ho, hd, -⟩ := h
  simp only [Sample.payment, List.mem_cons, List.not_mem_nil, or_false] at ho
  rcases ho with rfl | rfl
  · cases hd
    rfl
  · cases hd

theorem unlock_after_scans_payment :
    ((Sample.lockedWallet 1).scan (Sample.env []) Sample.payment).haveKey (Sample.compress (.ofNat 19)) = true ∧
      (((Sample.lockedWallet 1).scan (Sample.env []) Sample.payment).unlock (Sample.env []) "p").1 = true := by
  have hb : BehindFirst (Sample.env []) (Sample.lockedWallet 1) Sample.payment := by
    intro id hf
    rw [keyID_of_found_payment hf]
    exact ⟨Sample.compress (.ofNat 1), by decide +kernel⟩
  exact ⟨by decide +kernel, unlock_after_scans (Sample.env []) "p" (Sample.lockedWallet 1) _ (by decide +kernel)
    (by decide +kernel) (.scan Sample.payment .start hb)⟩

/-- **A payment can lock the owner out**: the key 19 arrives while the first entry is the key 255. -/
theorem unlock_fails_after_scan :
    (Sample.lockedWallet 255).isLocked = true ∧ ((Sample.lockedWallet 255).unlock (Sample.env []) "p").1 = true ∧
      (((Sample.lockedWallet 255).scan (Sample.env []) Sample.payment).unlock (Sample.env []) "p").1 = false := by
  decide +kernel

end CloakCoin.Stealth
