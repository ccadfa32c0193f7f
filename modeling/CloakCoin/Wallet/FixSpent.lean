import CloakCoin.Chain.TxDb
import CloakCoin.Wallet.Caches

/-!
# Repairing the spent flags

`FixSpentCoins` compares the spent flags of the wallet's own outputs with the transaction index, counts the
mismatches with their amounts, and repairs the flags unless it only checks.
-/

namespace CloakCoin.Wallet

open Chain
open Std (ExtTreeMap)
open List

/-- `txindex.vSpent.size() > n && !txindex.vSpent[n].IsNull()`. -/
def spentInIndex (txindex : CTxIndex) (n : Nat) : Bool := (txindex.vSpent[n]?).any fun pos => !pos.isNull

namespace CWallet

def fixOutput (w : CWallet) (txindex : CTxIndex) (fCheckOnly : Bool)
    (s : (Nat × Int) × CWalletTx) (out : CTxOut × Nat) :
    (Nat × Int) × CWalletTx :=
  if w.isMine out.1 && s.2.isSpent out.2 && !spentInIndex txindex out.2 then
    (s.1 + (1, out.1.nValue), if !fCheckOnly then s.2.markUnspent out.2 else s.2)
  else if w.isMine out.1 && !s.2.isSpent out.2 && spentInIndex txindex out.2 then
    (s.1 + (1, out.1.nValue), if !fCheckOnly then s.2.markSpent out.2 else s.2)
  else s

def fixCoin (env : Env) (db : CTxDB) (w : CWallet) (fCheckOnly : Bool) (coin : CWalletTx) : (Nat × Int) × CWalletTx :=
  match db.readTxIndex (coin.tx.getHash env) with
  | none => (0, coin)
  | some txindex => coin.tx.vout.zipIdx.foldl (w.fixOutput txindex fCheckOnly) (0, coin)

def fixSpentCoins (env : Env) (db : CTxDB) (w : CWallet) (fCheckOnly : Bool) : (Nat × Int) × CWallet :=
  ((w.mapWallet.toList.map fun p => (w.fixCoin env db fCheckOnly p.2).1).sum,
    { w with mapWallet := w.mapWallet.map fun _ coin => (w.fixCoin env db fCheckOnly coin).2 })

variable {env : Env} {db : CTxDB} {w : CWallet} {txindex : CTxIndex} {fCheckOnly : Bool} {coin : CWalletTx}
  {out : CTxOut × Nat} {outs : List (CTxOut × Nat)} {found : Nat × Int}

def wrong (w : CWallet) (txindex : CTxIndex) (coin : CWalletTx) (out : CTxOut × Nat) : Bool :=
  w.isMine out.1 && coin.isSpent out.2 != spentInIndex txindex out.2

def mismatches (w : CWallet) (txindex : CTxIndex) (coin : CWalletTx) (outs : List (CTxOut × Nat)) : Nat × Int :=
  ((outs.filter (w.wrong txindex coin)).map fun out => (1, out.1.nValue)).sum

theorem mismatches_cons : w.mismatches txindex coin (out :: outs) =
    (if w.wrong txindex coin out then (1, out.1.nValue) else 0) + w.mismatches txindex coin outs := by
  rw [mismatches, filter_cons]
  split
  · rfl
  · rw [zero_add]
    rfl

theorem fixOutput_eq : w.fixOutput txindex fCheckOnly (found, coin) out =
    if w.wrong txindex coin out then (found + (1, out.1.nValue), if fCheckOnly then coin
      else if spentInIndex txindex out.2 then coin.markSpent out.2 else coin.markUnspent out.2) else (found, coin) := by
  unfold fixOutput wrong
  cases w.isMine out.1 <;> cases coin.isSpent out.2 <;> cases spentInIndex txindex out.2 <;> cases fCheckOnly <;> rfl

theorem fixOutput_repair (ho : out.2 < coin.tx.vout.length) : ∃ coin', w.fixOutput txindex false (found, coin) out =
        (found + (if w.wrong txindex coin out then (1, out.1.nValue) else 0), coin') ∧ coin'.tx = coin.tx ∧
      (w.isMine out.1 = true → coin'.isSpent out.2 = spentInIndex txindex out.2) ∧
      ∀ i < coin.tx.vout.length, i ≠ out.2 → coin'.isSpent i = coin.isSpent i := by
  have hs : ∀ b i, i < coin.tx.vout.length → ((resize coin.vfSpent coin.tx.vout.length).set out.2 b).getD i false =
      if i = out.2 then b else coin.isSpent i := fun b i => getD_resize_set b i
  rw [fixOutput_eq]
  by_cases hw : w.wrong txindex coin out = true
  · rw [if_pos hw, if_pos hw, if_neg Bool.false_ne_true]
    cases spentInIndex txindex out.2 <;> exact ⟨_, rfl, rfl, fun _ => (hs _ _ ho).trans (if_pos rfl),
      fun i hi hne => (hs _ i hi).trans (if_neg hne)⟩
  · rw [if_neg hw, if_neg hw, add_zero]
    refine ⟨_, rfl, rfl, fun hm => ?_, fun _ _ _ => rfl⟩
    simpa [wrong, hm] using hw

theorem fixOutputs_check :
    outs.foldl (w.fixOutput txindex true) (found, coin) = (found + w.mismatches txindex coin outs, coin) := by
  induction outs generalizing found with
  | nil => simp [mismatches]
  | cons out outs ih =>
    rw [foldl_cons, fixOutput_eq, mismatches_cons, ← add_assoc]
    split
    · exact ih
    · rw [add_zero]
      exact ih

theorem fixOutputs_repair (hn : (outs.map Prod.snd).Nodup) (hlt : ∀ out ∈ outs, out.2 < coin.tx.vout.length) :
    ∃ coin', outs.foldl (w.fixOutput txindex false) (found, coin) = (found + w.mismatches txindex coin outs, coin') ∧
      coin'.tx = coin.tx ∧ (∀ out ∈ outs, w.isMine out.1 = true → coin'.isSpent out.2 = spentInIndex txindex out.2) ∧
      ∀ i < coin.tx.vout.length, i ∉ outs.map Prod.snd → coin'.isSpent i = coin.isSpent i := by
  induction outs generalizing found coin with
  | nil => exact ⟨coin, by simp [mismatches]⟩
  | cons out outs ih =>
    obtain ⟨hno, hn⟩ := nodup_cons.mp hn
    obtain ⟨ho, hlt⟩ := forall_mem_cons.mp hlt
    obtain ⟨coin1, hs, htx, hm, hk⟩ := fixOutput_repair ho
    obtain ⟨coin', hr, ht', hm', hk'⟩ := ih hn (htx ▸ hlt)
    rw [htx] at hk'
    have hsa : w.mismatches txindex coin1 outs = w.mismatches txindex coin outs := by
      unfold mismatches
      rw [filter_congr]
      intro p hp
      rw [wrong, wrong, hk p.2 (hlt p hp)]
      rintro heq
      exact hno (heq ▸ mem_map_of_mem hp)
    refine ⟨coin', ?_, ht'.trans htx, forall_mem_cons.mpr ⟨fun h => ?_, hm'⟩, fun i hi hme => ?_⟩
    · rw [foldl_cons, hs, hr, hsa, mismatches_cons, add_assoc]
    · rw [hk' _ ho hno, hm h]
    · simp only [map_cons, mem_cons, not_or] at hme
      rw [hk' i hi hme.2, hk i hi hme.1]

/-- The spent flags are those of the transaction index. -/
def Agrees (env : Env) (db : CTxDB) (w : CWallet) (coin : CWalletTx) : Prop :=
  ∀ txindex, db.readTxIndex (coin.tx.getHash env) = some txindex → ∀ n out, coin.tx.vout[n]? = some out →
    w.isMine out = true → coin.isSpent n = spentInIndex txindex n

theorem fixCoin_spec (env : Env) (db : CTxDB) (w : CWallet) (coin : CWalletTx) :
    w.fixCoin env db true coin = ((w.fixCoin env db false coin).1, coin) ∧
      (w.fixCoin env db false coin).2.tx = coin.tx ∧
      w.Agrees env db (w.fixCoin env db false coin).2 ∧
        (w.Agrees env db coin → (w.fixCoin env db false coin).1 = 0) := by
  unfold fixCoin
  cases hi : db.readTxIndex (coin.tx.getHash env) with
  | none => exact ⟨rfl, rfl, fun txindex h => absurd (hi.symm.trans h) nofun, fun _ => rfl⟩
  | some txindex =>
    have hlt : ∀ out ∈ coin.tx.vout.zipIdx, out.2 < coin.tx.vout.length := fun out ho =>
      (List.getElem?_eq_some_iff.mp (List.mem_zipIdx_iff_getElem?.mp ho)).1
    have hn : (coin.tx.vout.zipIdx.map Prod.snd).Nodup := by simp [nodup_range']
    obtain ⟨coin', hr, htx, hmi, -⟩ := fixOutputs_repair hn hlt
    dsimp only
    rw [fixOutputs_check, hr]
    refine ⟨rfl, htx, fun txindex' h n out ho hm => ?_, fun ha => ?_⟩
    · rw [htx] at ho h
      obtain rfl : txindex = txindex' := Option.some.inj (hi.symm.trans h)
      exact hmi (out, n) (mem_zipIdx_iff_getElem?.mpr ho) hm
    · rw [zero_add, mismatches, filter_eq_nil_iff.mpr]
      · rfl
      · intro out ho
        have := ha txindex hi out.2 out.1 (mem_zipIdx_iff_getElem?.mp ho)
        grind [wrong]

/-- **`FixSpentCoins` repairs the wallet**: its flags agree with the index, a second run finds nothing, and a run that
only checks changes nothing and finds what the repair finds. -/
theorem fixSpentCoins_repairs (env : Env) (db : CTxDB) (w : CWallet) : let fixed := (w.fixSpentCoins env db false).2
    (∀ hash : Hash256, (fixed.mapWallet[hash]?).map CWalletTx.tx = (w.mapWallet[hash]?).map CWalletTx.tx) ∧
    (∀ (hash : Hash256) coin, fixed.mapWallet[hash]? = some coin → fixed.Agrees env db coin) ∧
    (∀ fCheckOnly, (fixed.fixSpentCoins env db fCheckOnly).1 = 0) ∧
    w.fixSpentCoins env db true = ((w.fixSpentCoins env db false).1, w) := by
  intro fixed
  have hs := w.fixCoin_spec env db
  have hget (hash : Hash256) : fixed.mapWallet[hash]? = (w.mapWallet[hash]?).map fun coin =>
    (w.fixCoin env db false coin).2 :=
    ExtTreeMap.getElem?_map
  have hc : ∀ w : CWallet, w.fixSpentCoins env db true = ((w.fixSpentCoins env db false).1, w) := by
    intro w
    have hmap : (w.mapWallet.map fun _ coin => coin) = w.mapWallet := ExtTreeMap.ext_getElem? fun k => by simp
    simp [fixSpentCoins, (fixCoin_spec env db w _).1]
  have hz : (fixed.fixSpentCoins env db false).1 = 0 := by
    show (List.map _ (ExtTreeMap.map _ _).toList).sum = 0
    rw [ExtTreeMap.toList_map, map_map]
    refine sum_eq_zero fun x hx => ?_
    obtain ⟨p, -, rfl⟩ := mem_map.mp hx
    exact (fixed.fixCoin_spec env db _).2.2.2 (hs p.2).2.2.1
  refine ⟨fun hash => ?_, fun hash coin hco => ?_, fun fCheckOnly => ?_, hc w⟩
  · simp [hget, Function.comp_def, (hs _).2.1]
  · rw [hget] at hco
    obtain ⟨coin, -, rfl⟩ := Option.map_eq_some_iff.mp hco
    exact (hs coin).2.2.1
  · cases fCheckOnly with
    | false => exact hz
    | true => rw [hc, hz]

end CWallet
end CloakCoin.Wallet
