import CloakCoin.Chain.Sample
import CloakCoin.Chain.Solver

/-!
# Block signatures

`SignBlock` and `CheckBlockSignature` go over the outputs of a coinbase with rules of their own: the signer skips an
output that `Solver` cannot solve, the check fails there.
-/

namespace CloakCoin.Chain

open Lib List

/-- A key store, as `SignBlock` uses it. -/
structure BlockSigner (Key : Type) where
  hash160 : Bytes → Bytes
  getKey : Bytes → Option Key
  getPubKey : Key → Bytes
  sign : Key → Hash256 → Option Bytes

namespace BlockSigner

section
variable {Key : Type} (ks : BlockSigner Key) (env : Env)

def signPubKey (hash : Hash256) (vchPubKey : Bytes) : Option Bytes :=
  match ks.getKey (ks.hash160 vchPubKey) with
  | none => none
  | some key => if ks.getPubKey key ≠ vchPubKey then none else ks.sign key hash

def signOutput (hash : Hash256) (txout : CTxOut) : Option Bytes :=
  match env.solver txout.scriptPubKey with
  | some (.pubkey, vSolutions) => ks.signPubKey hash (vSolutions.headD [])
  | _ => none

def coinbaseOutputs (b : CBlock) : List CTxOut := (b.vtx.headD ⟨1, 0, [], [], 0, []⟩).vout

/-- What stops the signing of a stake only skips an output of a coinbase. -/
def signBlock (b : CBlock) : Option CBlock :=
  let vchBlockSig := if !b.isProofOfStake then (coinbaseOutputs b).findSome? (ks.signOutput env (b.getHash env))
    else ((b.vtx.drop 1).head?.bind (fun tx1 => tx1.vout.drop 1 |>.head?)).bind (ks.signOutput env (b.getHash env))
  vchBlockSig.map fun sig => { b with vchBlockSig := sig }

/-- Signing with a key yields a signature that its public key verifies. -/
def Sound : Prop :=
  ∀ key hash sig, ks.sign key hash = some sig → sig ≠ [] ∧ env.keyVerify (ks.getPubKey key) hash sig = true

/-- No public key verifies a signature of the store but those that the store signs for. -/
def Exclusive : Prop :=
  ∀ key hash sig vchPubKey, ks.sign key hash = some sig → env.keyVerify vchPubKey hash sig = true →
    (ks.signPubKey hash vchPubKey).isSome = true

/-- `Solver` solves the outputs before the first one that the store signs for. -/
def SolvedFirst (hash : Hash256) (vout : List CTxOut) : Prop :=
  vout.any (fun o => (ks.signOutput env hash o).isSome) = true →
    ∀ o ∈ vout.takeWhile fun o => (ks.signOutput env hash o).isNone, (env.solver o.scriptPubKey).isSome = true

variable {ks env} {hash : Hash256} {sig : Bytes}

theorem signOutput_spec (hks : ks.Sound env) {txout : CTxOut} (h : ks.signOutput env hash txout = some sig) :
    (∃ vSolutions, env.solver txout.scriptPubKey = some (.pubkey, vSolutions) ∧
      (!sig.isEmpty && env.keyVerify (vSolutions.headD []) hash sig) = true) ∧ ∃ key, ks.sign key hash = some sig := by
  unfold signOutput signPubKey at h
  split at h
  · rename_i vSolutions hs
    split at h
    · cases h
    rename_i key _
    split at h
    · cases h
    rename_i hp
    obtain ⟨hne, hv⟩ := hks key hash sig h
    rw [not_not.mp hp] at hv
    exact ⟨⟨vSolutions, hs, by rw [hv, Bool.and_true]; simp [hne]⟩, key, h⟩
  · cases h

/-- By induction over the outputs: the first one that is signed for ends both loops. -/
theorem coinbaseSigned_spec (hks : ks.Sound env) {vout : List CTxOut}
    (h : vout.findSome? (ks.signOutput env hash) = some sig) :
    (ks.SolvedFirst env hash vout → CBlock.coinbaseSigned env hash sig vout = true) ∧
      (ks.Exclusive env → CBlock.coinbaseSigned env hash sig vout = true → ks.SolvedFirst env hash vout) := by
  induction vout with
  | nil => cases h
  | cons txout vout ih =>
    unfold CBlock.coinbaseSigned SolvedFirst
    cases hsi : ks.signOutput env hash txout with
    | some sig' =>
      obtain rfl : sig' = sig := by simpa [hsi] using h
      obtain ⟨⟨vSolutions, hs, hve⟩, -⟩ := signOutput_spec hks hsi
      rw [hs, takeWhile_cons_of_neg (by simp [hsi])]
      exact ⟨fun _ => if_pos hve, fun _ _ _ o ho => absurd ho not_mem_nil⟩
    | none =>
      have h : vout.findSome? (ks.signOutput env hash) = some sig := by simpa [hsi] using h
      obtain ⟨o, hm, hso⟩ := exists_of_findSome?_eq_some h
      have hany : vout.any (fun o => (ks.signOutput env hash o).isSome) = true :=
        any_eq_true.mpr ⟨o, hm, by rw [hso]; rfl⟩
      obtain ⟨hto, hof⟩ := ih h
      unfold SolvedFirst at hto hof
      simp only [hany, forall_const] at hto hof
      rw [any_cons, hsi, hany, Bool.or_true, eq_self, true_imp_iff, takeWhile_cons_of_pos (by rw [hsi]; rfl),
        forall_mem_cons]
      cases hs : env.solver txout.scriptPubKey with
      | none => exact ⟨fun h => absurd h.1 (by simp), fun _ h => absurd h Bool.false_ne_true⟩
      | some r =>
        obtain ⟨kind, vSolutions⟩ := r
        rw [Option.isSome_some, eq_self, true_and]
        split
        · rename_i heq
          cases heq
        · rename_i heq
          cases heq
          split
          · rename_i hv
            refine ⟨fun _ => rfl, fun hex _ => ?_⟩
            obtain ⟨-, key, hk⟩ := signOutput_spec hks hso
            have hp := hex key hash sig _ hk (Bool.and_eq_true_iff.mp hv).2
            simp [signOutput, hs, Option.isSome_iff_exists] at hsi hp
            simp [hsi] at hp
          · exact ⟨hto, hof⟩
        · exact ⟨hto, hof⟩

end

namespace Sample

noncomputable def env : Env :=
  { Chain.Sample.env [] [] with
    blockHash := fun _ => 2, solver := solver, keyVerify := fun key _ sig => decide (sig = key) }

def key : Bytes := replicate 33 2

def signer : BlockSigner Unit := ⟨fun _ => [], fun _ => some (), fun _ => key, fun _ _ => some key⟩

theorem signer_sound : signer.Sound env := by
  rintro _ _ _ ⟨rfl⟩
  exact ⟨by decide, by simp [env, signer]⟩

def block (scripts : List CScript) : CBlock :=
  Chain.Sample.block 0 0 0 [{ nTime := 0, vin := [], vout := scripts.map (⟨1, ·⟩) }]

end Sample

end BlockSigner

end CloakCoin.Chain
