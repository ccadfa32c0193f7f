import CloakCoin.Chain.SigHash
import CloakCoin.Chain.Solver

/-!
# `OP_CHECKMULTISIG`

Keys and signatures are walked from the top of the stack, and a signature is tried on each key until one fits.
This finds an order-preserving matching whenever there is one: the first key that fits can be taken.
-/

namespace CloakCoin.Chain

open Lib (Bytes)
open List

/-! ## The opcode -/

/-- `none` when the number has more than four bytes and the script fails with an exception. -/
def castToBigNum (vch : Bytes) : Option Int :=
  if 4 < vch.length then none
  else if 0x80 ≤ (vch.getLastD 0).toNat then some (0x80 * 256 ^ (vch.length - 1) - leValue vch)
  else some (leValue vch)

def vchFalse : Bytes := []

def vchTrue : Bytes := [1]

/-- The loop over the keys and signatures that are left. -/
def matchSigs {α β : Type} (valid : β → α → Bool) : List α → List β → Bool
  | _, [] => true
  | [], _ :: _ => false
  | key :: keys, sig :: sigs =>
    let left := if valid sig key then sigs else sig :: sigs
    if keys.length < left.length then false else matchSigs valid keys left

/-- The stack has its top first; the operation count and the stack afterwards, `none` when the script fails. -/
def opCheckMultisig (checkSig : Bytes → Bytes → CScript → Bool) (fVerify : Bool) (scriptCode : CScript) (nOpCount : Nat)
    (stack : List Bytes) : Option (Nat × List Bytes) := do
  let nKeysCount ← castToBigNum (← stack[0]?)
  guard (0 ≤ nKeysCount ∧ nKeysCount ≤ 20)
  let nKeys := nKeysCount.toNat
  guard (nOpCount + nKeys ≤ 201)
  let nSigsCount ← castToBigNum (← stack[1 + nKeys]?)
  guard (0 ≤ nSigsCount ∧ nSigsCount ≤ nKeysCount)
  let nSigs := nSigsCount.toNat
  -- one element more than the arguments is popped
  guard (3 + nKeys + nSigs ≤ stack.length)
  let sigs := (stack.drop (2 + nKeys)).take nSigs
  let code := sigs.foldl (fun code vchSig => findAndDelete code (pushData vchSig)) scriptCode
  let fSuccess := matchSigs (fun vchSig vchPubKey => checkSig vchSig vchPubKey code) ((stack.drop 1).take nKeys) sigs
  let rest := stack.drop (3 + nKeys + nSigs)
  if fVerify then guard fSuccess *> some (nOpCount + nKeys, rest)
  else some (nOpCount + nKeys, (if fSuccess then vchTrue else vchFalse) :: rest)

/-! ## Matchings in order -/

section

variable {α β : Type} {valid : β → α → Bool} {keys : List α} {sigs : List β}

def Matching (valid : β → α → Bool) (keys : List α) (sigs : List β) : Prop :=
  ∃ ks, ks <+ keys ∧ Forall₂ (fun sig key => valid sig key = true) sigs ks

theorem Matching.length_le (h : Matching valid keys sigs) : sigs.length ≤ keys.length := by
  obtain ⟨ks, hs, hv⟩ := h
  rw [hv.length_eq]
  exact hs.length_le

theorem matching_cons_of_valid (hv : valid sig key = true) :
    Matching valid (key :: keys) (sig :: sigs) ↔ Matching valid keys sigs := by
  constructor
  · rintro ⟨_, hs, _ | ⟨-, hva⟩⟩
    exact ⟨_, hs.of_cons_cons, hva⟩
  · rintro ⟨ks, hs, hva⟩
    exact ⟨key :: ks, hs.cons_cons key, .cons hv hva⟩

theorem matching_cons_of_not_valid (hv : ¬ valid sig key = true) :
    Matching valid (key :: keys) (sig :: sigs) ↔ Matching valid keys (sig :: sigs) := by
  constructor
  · rintro ⟨ks, hs, hva⟩
    refine ⟨ks, ?_, hva⟩
    cases hs with
    | cons _ hs => exact hs
    | cons_cons _ hs =>
      rw [forall₂_cons] at hva
      exact absurd hva.1 hv
  · rintro ⟨ks, hs, hva⟩
    exact ⟨ks, hs.cons key, hva⟩

theorem matchSigs_iff (h : sigs.length ≤ keys.length) : matchSigs valid keys sigs = true ↔
    Matching valid keys sigs := by
  induction keys generalizing sigs with
  | nil =>
    obtain rfl : sigs = [] := by simpa using h
    simp [matchSigs, Matching]
  | cons key keys ih =>
    cases sigs with
    | nil => simp [matchSigs, Matching]
    | cons sig sigs =>
      simp only [length_cons, Nat.add_le_add_iff_right] at h
      unfold matchSigs
      by_cases hv : valid sig key = true
      · simp only [hv, if_true]
        rw [if_neg (by omega), ih h, matching_cons_of_valid hv]
      simp only [hv, Bool.false_eq_true, if_false, matching_cons_of_not_valid hv]
      split_ifs with hlt
      · -- more signatures than keys are left
        have hno : ¬ Matching valid keys (sig :: sigs) := fun hm => absurd hm.length_le (not_le.mpr hlt)
        simp [hno]
      · exact ih (not_lt.mp hlt)

theorem matching_reverse : Matching valid keys.reverse sigs.reverse ↔ Matching valid keys sigs := by
  have hr {keys : List α} {sigs : List β} (h : Matching valid keys sigs) :
    Matching valid keys.reverse sigs.reverse := by
    obtain ⟨ks, hs, hv⟩ := h
    exact ⟨ks.reverse, hs.reverse, rel_reverse hv⟩
  constructor
  · intro h
    simpa using hr h
  · exact hr

theorem matching_iff_strictMono : Matching valid keys sigs ↔
    ∃ f : Fin sigs.length → Fin keys.length, StrictMono f ∧ ∀ i, valid (sigs.get i) (keys.get (f i)) = true := by
  constructor
  · rintro ⟨ks, hs, hv⟩
    obtain ⟨f, hf⟩ := sublist_iff_exists_fin_orderEmbedding_get_eq.mp hs
    obtain ⟨hl, hg⟩ := forall₂_iff_get.mp hv
    refine ⟨fun i => f (i.cast hl), fun i j hij => f.strictMono hij, fun i => ?_⟩
    rw [← hf]
    exact hg i i.2 (hl ▸ i.2)
  · rintro ⟨f, hm, hv⟩
    refine ⟨ofFn fun i => keys.get (f i), ?_, ?_⟩
    · apply sublist_iff_exists_fin_orderEmbedding_get_eq.mpr
      refine ⟨OrderEmbedding.ofStrictMono (fun i => f (i.cast (length_ofFn ..))) fun i j hij => hm hij, fun i => ?_⟩
      exact get_ofFn ..
    · apply forall₂_iff_get.mpr
      refine ⟨by simp, fun i hi _ => ?_⟩
      simpa using hv ⟨i, hi⟩

end

/-! ## What is pushed -/

variable {keys : List Bytes}

/-- The stack, top first, after the signatures, their number, the keys and their number were pushed on `extra`. -/
def multisigStack (keys sigs : List Bytes) (vchKeys vchSigs extra : Bytes) (rest : List Bytes) : List Bytes :=
  vchKeys :: (keys.reverse ++ vchSigs :: (sigs.reverse ++ extra :: rest))

theorem opCheckMultisig_eq (hn : castToBigNum vchKeys = some (keys.length : Int))
    (hm : castToBigNum vchSigs = some (sigs.length : Int)) (hle : sigs.length ≤ keys.length) (h20 : keys.length ≤ 20) :
    opCheckMultisig checkSig false scriptCode nOpCount (multisigStack keys sigs vchKeys vchSigs extra rest) =
      if nOpCount + keys.length ≤ 201 then
        some (nOpCount + keys.length,
          (if matchSigs (fun vchSig vchPubKey => checkSig vchSig vchPubKey
              (sigs.reverse.foldl (fun code vchSig => findAndDelete code (pushData vchSig)) scriptCode))
            keys.reverse sigs.reverse then vchTrue else vchFalse) :: rest)
      else none := by
  have hc : (multisigStack keys sigs vchKeys vchSigs extra rest)[1 + keys.length]? = some vchSigs := by
    rw [Nat.add_comm]
    simp [multisigStack]
  have hk : ((multisigStack keys sigs vchKeys vchSigs extra rest).drop 1).take keys.length = keys.reverse := by
    simp [multisigStack]
  have hd : (multisigStack keys sigs vchKeys vchSigs extra rest).drop (2 + keys.length) =
      sigs.reverse ++ extra :: rest := by
    rw [show 2 + keys.length = (keys.length + 1) + 1 by omega]
    simp [multisigStack, drop_append]
  have hs : ((multisigStack keys sigs vchKeys vchSigs extra rest).drop (2 + keys.length)).take sigs.length =
      sigs.reverse := by
    rw [hd]
    simp
  have hr : (multisigStack keys sigs vchKeys vchSigs extra rest).drop (3 + keys.length + sigs.length) = rest := by
    rw [show 3 + keys.length + sigs.length = (2 + keys.length) + (sigs.length + 1) by omega, ← drop_drop, hd]
    simp [drop_append]
  have hl : 3 + keys.length + sigs.length ≤ (multisigStack keys sigs vchKeys vchSigs extra rest).length := by
    simp [multisigStack]
    omega
  have ht : (multisigStack keys sigs vchKeys vchSigs extra rest)[0]? = some vchKeys := rfl
  unfold opCheckMultisig
  simp only [ht, hn, hc, hm, hk, hs, hr, Int.toNat_natCast, Option.bind_eq_bind, Option.bind_some]
  by_cases hops : nOpCount + keys.length ≤ 201
  · simp [guard, hops, hl, hle, h20]
  · simp [guard, hops, h20]

/-- Beyond 201 operations the script fails. Otherwise true is pushed exactly when the signatures are valid, in order,
for some of the keys. -/
theorem opCheckMultisig_matching (checkSig : Bytes → Bytes → CScript → Bool) (scriptCode : CScript) (nOpCount : Nat)
    (keys sigs rest : List Bytes) (vchKeys vchSigs extra : Bytes) (hn : castToBigNum vchKeys = some (keys.length : Int))
    (hm : castToBigNum vchSigs = some (sigs.length : Int)) (hle : sigs.length ≤ keys.length) (h20 : keys.length ≤ 20) :
    let code := sigs.reverse.foldl (fun code vchSig => findAndDelete code (pushData vchSig)) scriptCode
    let result := opCheckMultisig checkSig false scriptCode nOpCount
      (multisigStack keys sigs vchKeys vchSigs extra rest)
    (201 < nOpCount + keys.length → result = none) ∧
      (nOpCount + keys.length ≤ 201 → ∃ top, result = some (nOpCount + keys.length, top :: rest) ∧
        (top = vchTrue ∨ top = vchFalse) ∧
        (top = vchTrue ↔ ∃ f : Fin sigs.length → Fin keys.length,
          StrictMono f ∧ ∀ i, checkSig (sigs.get i) (keys.get (f i)) code = true)) := by
  intro code result
  have heq : result = _ := opCheckMultisig_eq hn hm hle h20
  constructor
  · intro hops
    rw [heq, if_neg (by omega)]
  · intro hops
    rw [heq, if_pos hops]
    refine ⟨_, rfl, ite_eq_or_eq .., ?_⟩
    have hma : matchSigs (fun vchSig vchPubKey => checkSig vchSig vchPubKey code) keys.reverse
      sigs.reverse = true ↔ _ :=
      matchSigs_iff (by simpa using hle)
    rw [matching_reverse, matching_iff_strictMono] at hma
    rw [← hma]
    simp [vchTrue, vchFalse, code]

/-- A check that accepts a signature for the key of the same bytes. -/
def sameBytes (vchSig vchPubKey : Bytes) (_ : CScript) : Bool := vchSig == vchPubKey

theorem opCheckMultisig_matching_two : castToBigNum [2] = some (([[7], [8]] : List Bytes).length : Int) ∧
      ∃ top, opCheckMultisig sameBytes false [] 1 (multisigStack [[7], [8]] [[8]] [2] [1] [] []) = some (3, top :: []) ∧
        top = vchTrue := by
  have h := (opCheckMultisig_matching sameBytes [] 1 [[7], [8]] [[8]] [] [2] [1] [] (by decide) (by decide) (by decide)
    (by decide)).2 (by decide)
  obtain ⟨top, hr, -, hiff⟩ := h
  exact ⟨by decide, top, hr, hiff.mpr ⟨fun _ => 1, by decide, by decide⟩⟩

/-- With 201 operations counted, a valid one-of-one fails the script. -/
theorem multisig_over_budget : opCheckMultisig sameBytes false [] 201 (multisigStack [[7]] [[7]] [1] [1] [] []) = none ∧
      sameBytes [7] [7] (findAndDelete [] (pushData [7])) = true := by decide

end CloakCoin.Chain
