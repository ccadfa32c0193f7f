import CloakCoin.Chain.Serialize
import Mathlib.Data.List.TakeWhile

/-!
# Wallet transactions on disk

`CWalletTx` writes four of its fields as text into `mapValue` and takes them out again, after writing and after
reading: the account, the spent flags, the position in the order and the smart time.
-/

namespace CloakCoin.Wallet

open Chain Lib
open Std (ExtTreeMap)
open List Std.ExtTreeMap

/-! ## Numbers as text -/

def decimal (n : Nat) : Bytes := (if n < 10 then [] else decimal (n / 10)) ++ [UInt8.ofNat (48 + n % 10)]

def i64tostr (n : Int) : Bytes := (if n < 0 then [45] else []) ++ decimal n.natAbs

def isDigit (c : UInt8) : Bool := 48 ≤ c && c ≤ 57

def digitsValue (s : Bytes) : Nat := s.foldl (fun n c => 10 * n + (c.toNat - 48)) 0

def isSpace (c : UInt8) : Bool := c == 32 || (9 ≤ c && c ≤ 13)

/-- `strtoll` to base 10. -/
def atoi64 (s : Bytes) : Int :=
  let s := s.dropWhile isSpace
  let digits := if s.head? = some 45 ∨ s.head? = some 43 then s.tail else s
  let n : Int := digitsValue (digits.takeWhile isDigit)
  max (-2 ^ 63) (min (2 ^ 63 - 1) (if s.head? = some 45 then -n else n))

theorem decimal_spec (n : Nat) : (∀ c ∈ decimal n, isDigit c = true) ∧
    digitsValue (decimal n) = n ∧ decimal n ≠ [] := by
  induction n using Nat.strong_induction_on with
  | _ n ih =>
    have hd : (UInt8.ofNat (48 + n % 10)).toNat = 48 + n % 10 := by simp; omega
    rw [decimal]
    generalize UInt8.ofNat (48 + n % 10) = d at hd
    have hl : isDigit d = true := by
      simp [isDigit, UInt8.le_iff_toNat_le]
      omega
    split
    · simp [hl, digitsValue, hd]
      omega
    obtain ⟨ha, hv, -⟩ := ih (n / 10) (by omega)
    refine ⟨by simpa [or_imp, forall_and] using ⟨ha, hl⟩, ?_, by simp⟩
    rw [digitsValue, foldl_append, ← digitsValue, hv, foldl_cons, foldl_nil]
    omega

theorem atoi64_i64tostr (h : Fits n) : atoi64 (i64tostr n) = n := by
  obtain ⟨ha, hv, hne⟩ := decimal_spec n.natAbs
  have hab : (n.natAbs : Int) = if n < 0 then -n else n := by omega
  rw [i64tostr, atoi64]
  generalize n.natAbs = m at *
  have ht : (decimal m).takeWhile isDigit = decimal m := takeWhile_eq_self_iff.mpr ha
  unfold Fits at h
  by_cases hn : n < 0
  · rw [if_pos hn] at hab ⊢
    have hsp : isSpace 45 = false := by decide
    simp [hsp, ht, hv]
    omega
  rw [if_neg hn] at hab ⊢
  obtain ⟨c, s, hs⟩ := exists_cons_of_ne_nil hne
  have hc := ha c (hs ▸ mem_cons_self)
  simp only [isDigit, Bool.and_eq_true, decide_eq_true_eq, UInt8.le_iff_toNat_le, UInt8.toNat_ofNat] at hc
  have hsp : isSpace c = false := by
    simp [isSpace, UInt8.le_iff_toNat_le, ← UInt8.toNat_inj]
    omega
  have hsi : c ≠ 45 ∧ c ≠ 43 := by
    rw [ne_eq, ne_eq, ← UInt8.toNat_inj, ← UInt8.toNat_inj]
    simp
    omega
  rw [hs] at ht hv ⊢
  simp [hsp, hsi.1, hsi.2, ht, hv]
  omega

/-! ## Objects -/

abbrev MapValue := ExtTreeMap Bytes Bytes

/-- A transaction with the branch that links it to a block. -/
structure CMerkleTx where
  tx : CTransaction
  hashBlock : Hash256 := 0
  vMerkleBranch : List Hash256 := []
  nIndex : Int := -1
  deriving DecidableEq

/-- The members of a `CWalletTx` that are on disk. -/
structure StoredTx extends CMerkleTx where
  vtxPrev : List CMerkleTx := []
  mapValue : MapValue := ∅
  vOrderForm : List (Bytes × Bytes) := []
  fTimeReceivedIsTxTime : Nat := 0
  nTimeReceived : Nat := 0
  nTimeSmart : Nat := 0
  fFromMe : UInt8 := 0
  strFromAccount : Bytes := []
  vfSpent : List Bool := []
  nOrderPos : Int := -1

/-! The reserved keys `fromaccount`, `version`, `spent`, `n` and `timesmart`. -/

def keyFromAccount : Bytes := [102, 114, 111, 109, 97, 99, 99, 111, 117, 110, 116]

def keyVersion : Bytes := [118, 101, 114, 115, 105, 111, 110]

def keySpent : Bytes := [115, 112, 101, 110, 116]

def keyN : Bytes := [110]

def keyTimeSmart : Bytes := [116, 105, 109, 101, 115, 109, 97, 114, 116]

def reservedKeys : List Bytes := [keyFromAccount, keyVersion, keySpent, keyN, keyTimeSmart]

def eraseReserved (m : MapValue) : MapValue := reservedKeys.foldl ExtTreeMap.erase m

def readOrderPos (m : MapValue) : Int :=
  match m[keyN]? with
  | none => -1
  | some s => atoi64 s

def writeOrderPos (nOrderPos : Int) (m : MapValue) : MapValue :=
  if nOrderPos = -1 then m else m.insert keyN (i64tostr nOrderPos)

/-! ## Formats -/

def CMerkleTx.format : Format CMerkleTx :=
  ((CTransaction.format maxSize).pair ((Format.uint 32).pair
    ((Format.list maxSize (Format.uint 32)).pair (Format.int 4)))).map
    (fun p => ⟨p.1, p.2.1, p.2.2.1, p.2.2.2⟩) fun m => (m.tx, m.hashBlock, m.vMerkleBranch, m.nIndex)

def stringPairs : Format (List (Bytes × Bytes)) :=
  Format.list maxSize ((Format.bytes maxSize).pair (Format.bytes maxSize))

/-- What is read into a map is inserted pair by pair. -/
def MapValue.format : Format MapValue := stringPairs.map (fun l => ExtTreeMap.ofList l) ExtTreeMap.toList

namespace StoredTx

/-- What is read and written, in this order. -/
abbrev Fields := CMerkleTx × List CMerkleTx × MapValue × List (Bytes × Bytes) × Nat × Nat × UInt8 × Bool

def fieldsFormat : Format Fields :=
  CMerkleTx.format.pair ((Format.list maxSize CMerkleTx.format).pair (MapValue.format.pair (stringPairs.pair
    ((Format.uint 4).pair ((Format.uint 4).pair (Format.byte.pair Format.bool))))))

/-- `mapValue` as it is while the transaction is written. -/
def mapWritten (w : StoredTx) : MapValue :=
  let m := (w.mapValue.insert keyFromAccount w.strFromAccount).insert keySpent
    (w.vfSpent.map fun f => if f then 49 else 48)
  let m := writeOrderPos w.nOrderPos m
  if w.nTimeSmart ≠ 0 then m.insert keyTimeSmart (i64tostr w.nTimeSmart) else m

def fields (w : StoredTx) : Fields :=
  (w.toCMerkleTx, w.vtxPrev, w.mapWritten, w.vOrderForm, w.fTimeReceivedIsTxTime, w.nTimeReceived,
    w.fFromMe, w.vfSpent.any id)

def ofFields : Fields → StoredTx
  | (merkle, vtxPrev, m, vOrderForm, fTimeReceivedIsTxTime, nTimeReceived, fFromMe, fSpent) =>
    { toCMerkleTx := merkle, vtxPrev, vOrderForm, fTimeReceivedIsTxTime, nTimeReceived, fFromMe
      strFromAccount := (m[keyFromAccount]?).getD []
      vfSpent := (m[keySpent]?).elim (List.replicate merkle.tx.vout.length fSpent) (List.map (· != 48))
      nOrderPos := readOrderPos m
      nTimeSmart := (m[keyTimeSmart]?).elim 0 fun s => (atoi64 s % 2 ^ 32).toNat
      mapValue := eraseReserved m }

def format : Format StoredTx := fieldsFormat.map ofFields fields

/-- The bytes, and the object afterwards. -/
def serialize (w : StoredTx) : Bytes × StoredTx := (format.write w, { w with mapValue := eraseReserved w.mapWritten })

def unserialize (b : Bytes) : Option (StoredTx × Bytes) := format.read b

theorem getElem?_foldl_erase (keys : List Bytes) (m : MapValue) (k : Bytes) :
    (keys.foldl ExtTreeMap.erase m)[k]? = if k ∈ keys then none else m[k]? := by
  induction keys generalizing m with
  | nil => simp
  | cons key keys ih =>
    grind

theorem ofList_toList (m : MapValue) : ExtTreeMap.ofList m.toList = m := by
  apply ExtTreeMap.ext_getElem?
  intro k
  cases hk : m[k]? with
  | some v =>
    exact getElem?_ofList_of_mem Std.ReflCmp.compare_self distinct_keys_toList
      (mem_toList_iff_getElem?_eq_some.mpr hk)
  | none =>
    refine getElem?_ofList_of_contains_eq_false ?_
    rw [map_fst_toList_eq_keys, contains_keys]
    rw [← Bool.not_eq_true, ExtTreeMap.contains_iff_mem]
    simpa using hk

variable {w : StoredTx} (hkeys : ∀ k ∈ reservedKeys, w.mapValue[k]? = none)
include hkeys

theorem eraseReserved_mapWritten : eraseReserved w.mapWritten = w.mapValue := by
  apply ExtTreeMap.ext_getElem?
  intro k
  rw [eraseReserved, getElem?_foldl_erase]
  split
  · rename_i hk
    exact (hkeys k hk).symm
  rename_i hk
  simp only [reservedKeys, mem_cons, not_mem_nil, or_false, not_or] at hk
  unfold mapWritten writeOrderPos
  split_ifs <;> simp only [ExtTreeMap.getElem?_insert, Std.compare_eq_iff_eq] <;> grind

theorem mapWritten_get : w.mapWritten[keyFromAccount]? = some w.strFromAccount ∧
    w.mapWritten[keySpent]? = some (w.vfSpent.map fun f => if f then 49 else 48) ∧
    w.mapWritten[keyN]? = (if w.nOrderPos = -1 then none else some (i64tostr w.nOrderPos)) ∧
    w.mapWritten[keyTimeSmart]? = if w.nTimeSmart ≠ 0 then some (i64tostr w.nTimeSmart) else none := by
  have hn := hkeys keyN (by decide)
  have ht := hkeys keyTimeSmart (by decide)
  have hne : reservedKeys.Nodup := by decide
  simp only [reservedKeys, nodup_cons, mem_cons, not_mem_nil, or_false, not_or] at hne
  unfold mapWritten writeOrderPos
  split_ifs <;> simp only [ExtTreeMap.getElem?_insert, Std.compare_eq_iff_eq] <;> grind

theorem ofFields_fields (ho : Fits w.nOrderPos) (ht : w.nTimeSmart < 2 ^ 32) : ofFields w.fields = w := by
  obtain ⟨ha, hsp, hn, hs⟩ := mapWritten_get hkeys
  have hf : (w.vfSpent.map fun f => if f then (49 : UInt8) else 48).map (· != 48) = w.vfSpent := by
    rw [List.map_map]
    exact map_id'' (by decide) _
  have hp : readOrderPos w.mapWritten = w.nOrderPos := by
    rw [readOrderPos, hn]
    split_ifs with h
    · exact h.symm
    · exact atoi64_i64tostr ho
  have hs : (w.mapWritten[keyTimeSmart]?).elim 0 (fun s => (atoi64 s % 2 ^ 32).toNat) = w.nTimeSmart := by
    rw [hs]
    split_ifs with h
    · rw [Option.elim_some, atoi64_i64tostr ⟨by omega, by omega⟩]
      omega
    · exact (not_not.mp h).symm
  rw [fields, ofFields, ha, hsp, hs, hp, eraseReserved_mapWritten hkeys, Option.elim_some, hf]
  rfl

omit hkeys

/-- Every field fits its serialization. -/
structure Storable (w : StoredTx) : Prop where
  merkle : CMerkleTx.format.Ok w.toCMerkleTx
  vtxPrev : (Format.list maxSize CMerkleTx.format).Ok w.vtxPrev
  mapValue : stringPairs.Ok w.mapWritten.toList
  vOrderForm : stringPairs.Ok w.vOrderForm
  nOrderPos : Fits w.nOrderPos
  fTimeReceivedIsTxTime : w.fTimeReceivedIsTxTime < 256 ^ 4
  nTimeReceived : w.nTimeReceived < 256 ^ 4
  nTimeSmart : w.nTimeSmart < 2 ^ 32

end StoredTx
namespace DiskSample

def stored (data : Bytes) : StoredTx where
  tx := { nTime := 1, vin := [], vout := [] }
  vtxPrev := [{ tx := { nTime := 1, vin := [], vout := [], data } }]
  mapValue := (∅ : MapValue).insert [99] [104, 105]
  strFromAccount := [97]
  vfSpent := [true, false]

theorem merkle_ok : CMerkleTx.format.Ok { tx := { nTime := 1, vin := [], vout := [] } } := by
  have htx : (CTransaction.format maxSize).Ok { nTime := 1, vin := [], vout := [] } := by
    refine (CTransaction.format_ok (by decide) ?_).mpr ⟨⟨by decide, by decide, nofun, nofun, by decide⟩, rfl⟩
    exact ⟨by decide, by decide, nofun, nofun, by decide, ⟨by decide, by decide, nofun, nofun, by decide⟩⟩
  exact ⟨⟨htx, Nat.pow_pos (by decide), ⟨⟨by decide, by decide⟩, nofun⟩, Format.int_ok.mpr (by decide)⟩, rfl⟩

theorem stored_storable : (stored []).Storable where
  merkle := merkle_ok
  vtxPrev := ⟨⟨by decide, by decide⟩, by simpa [stored] using merkle_ok⟩
  mapValue := by
    show (_ ∧ _) ∧ ∀ p ∈ (stored []).mapWritten.toList, (_ ∧ _) ∧ (_ ∧ _)
    decide +kernel
  vOrderForm := ⟨⟨by decide, by decide⟩, nofun⟩
  nOrderPos := by decide
  fTimeReceivedIsTxTime := by decide
  nTimeReceived := by decide
  nTimeSmart := by decide

end DiskSample

open DiskSample

end CloakCoin.Wallet
