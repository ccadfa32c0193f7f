import CloakCoin.Lib.Crypto
import CloakCoin.Lib.Store

/-!
# Reads inside a database transaction

`CTxDB::Read` and `CTxDB::Exists` on bytes, with the batch scanned by a replay handler. `Read` shows the database as a
commit would leave it; `Exists` asks the disk about a key whose pending operation is a delete.
-/

namespace CloakCoin.Chain

open Lib List

abbrev RawOp := BatchOp fun _ : Bytes => Bytes
abbrev RawDb := Store fun _ : Bytes => Bytes

/-- The handler, with the variables of the caller it fills. -/
structure CBatchScanner where
  foundEntry : Bool := false
  deleted : Bool := false
  foundValue : Bytes := []
  deriving DecidableEq

namespace CBatchScanner

def handle (needle : Bytes) (scanner : CBatchScanner) : RawOp → CBatchScanner
  | .put key value =>
    if key = needle then { foundEntry := true, deleted := false, foundValue := value } else scanner
  | .delete key => if key = needle then { scanner with foundEntry := true, deleted := true } else scanner

def Agrees (scanner : CBatchScanner) : Option (Option Bytes) → Prop
  | none => scanner = {}
  | some none => scanner.foundEntry = true ∧ scanner.deleted = true
  | some (some value) => scanner = ⟨true, false, value⟩

end CBatchScanner

def RawOp.key : RawOp → Bytes
  | .put key _ => key
  | .delete key => key

namespace RawDb

/-- `ScanBatch`: replay the batch in the order of its operations. -/
def scanBatch (activeBatch : List RawOp) (key : Bytes) : CBatchScanner := activeBatch.foldl (.handle key) {}

variable (db : RawDb)

def rawRead {T : Type} (ssKey : Bytes) (unserialize : Bytes → Option T) : Option T :=
  match db.activeBatch with
  | some activeBatch =>
    let scanner := scanBatch activeBatch ssKey
    if scanner.deleted then none
    else if scanner.foundEntry then unserialize scanner.foundValue
    else (db.disk ssKey).bind unserialize
  | none => (db.disk ssKey).bind unserialize

def rawExists (ssKey : Bytes) : Bool :=
  match db.activeBatch with
  | some activeBatch =>
    let scanner := scanBatch activeBatch ssKey
    if scanner.foundEntry && !scanner.deleted then true else (db.disk ssKey).isSome
  | none => (db.disk ssKey).isSome

def call : RawOp → RawDb
  | .put ssKey ssValue => db.write ssKey ssValue
  | .delete ssKey => db.erase ssKey

def txn (disk : Bytes → Option Bytes) (calls : List RawOp) : RawDb := calls.foldl call (Store.txnBegin ⟨disk, none⟩)

/-! ## What the scanner finds -/

theorem scanBatch_agrees (activeBatch : List RawOp) (key : Bytes) :
    (scanBatch activeBatch key).Agrees (Lib.scanBatch activeBatch key) := by
  induction activeBatch using reverseRecOn with
  | nil => rfl
  | append_singleton ops op ih =>
    have hs : scanBatch (ops ++ [op]) key = (scanBatch ops key).handle key op := by
      rw [scanBatch, foldl_concat]
      rfl
    rw [hs]
    cases op with
    | put key' value =>
      rw [scanBatch_append_put]
      by_cases h : key' = key
      · subst h
        rw [dif_pos rfl, CBatchScanner.handle, if_pos rfl]
        rfl
      · rw [dif_neg h, CBatchScanner.handle, if_neg h]
        exact ih
    | delete key' =>
      rw [scanBatch_append_delete]
      by_cases h : key' = key
      · rw [if_pos h, CBatchScanner.handle, if_pos h]
        exact ⟨rfl, rfl⟩
      · rw [if_neg h, CBatchScanner.handle, if_neg h]
        exact ih

theorem rawRead_eq (key : Bytes) (unserialize : Bytes → Option T) :
    db.rawRead key unserialize = (db.read key).bind unserialize := by
  unfold rawRead Store.read
  cases db.activeBatch with
  | none => rfl
  | some ops =>
    have hs := scanBatch_agrees ops key
    dsimp only
    rcases hops : Lib.scanBatch ops key with _ | _ | value
    · rw [hops] at hs
      rw [show scanBatch ops key = {} from hs]
      rfl
    · rw [hops] at hs
      rw [hs.2]
      rfl
    · rw [hops] at hs
      rw [show scanBatch ops key = ⟨true, false, value⟩ from hs]
      rfl

theorem rawExists_eq (key : Bytes) : db.rawExists key =
      if db.activeBatch.any (fun ops => Lib.scanBatch ops key == some none) then (db.disk key).isSome
      else (db.read key).isSome := by
  unfold rawExists Store.read
  cases db.activeBatch with
  | none => rfl
  | some ops =>
    have hs := scanBatch_agrees ops key
    rw [Option.any_some]
    dsimp only
    rcases hops : Lib.scanBatch ops key with _ | _ | value
    · rw [hops] at hs
      rw [show scanBatch ops key = {} from hs]
      rfl
    · rw [hops] at hs
      rw [hs.1, hs.2]
      rfl
    · rw [hops] at hs
      rw [show scanBatch ops key = ⟨true, false, value⟩ from hs]
      rfl

/-! ## A transaction -/

theorem txn_eq (disk : Bytes → Option Bytes) (calls : List RawOp) : txn disk calls = ⟨disk, some calls⟩ := by
  induction calls using reverseRecOn with
  | nil => rfl
  | append_singleton calls op ih =>
    rw [txn, foldl_concat]
    rw [txn] at ih
    rw [ih]
    cases op <;> rfl

/-- The last of the calls about the key is `Erase`. -/
def lastErased (calls : List RawOp) (key : Bytes) : Bool :=
  match calls.reverse.find? (·.key = key) with
  | some (.delete _) => true
  | _ => false

theorem lastErased_iff (calls : List RawOp) (key : Bytes) :
    lastErased calls key = true ↔ Lib.scanBatch calls key = some none := by
  induction calls using reverseRecOn with
  | nil => simp [lastErased]
  | append_singleton calls op ih =>
    unfold lastErased at ih ⊢
    rw [reverse_concat]
    by_cases h : op.key = key
    · rw [find?_cons_of_pos (by simpa using h)]
      cases op with
      | put key' value => simp [scanBatch_append_put, show key' = key from h]
      | delete key' => simp [scanBatch_append_delete, show key' = key from h]
    · rw [find?_cons_of_neg (by simpa using h)]
      cases op with
      | put key' value => rw [ih, scanBatch_append_put, dif_neg (show ¬key' = key from h)]
      | delete key' => rw [ih, scanBatch_append_delete, if_neg (show ¬key' = key from h)]

/-- Reads see the calls of the transaction, until it is aborted. -/
structure SeesOwnWrites (disk : Bytes → Option Bytes) (calls : List RawOp) (key : Bytes) : Prop where
  read : ∀ (T : Type) (unserialize : Bytes → Option T),
    (txn disk calls).rawRead key unserialize = (calls.foldl BatchOp.apply disk key).bind unserialize
  «exists» : (txn disk calls).rawExists key = (calls.foldl BatchOp.apply disk key).isSome
  aborted : (∀ (T : Type) (unserialize : Bytes → Option T),
    rawRead (txn disk calls).txnAbort key unserialize = (disk key).bind unserialize) ∧
    rawExists (txn disk calls).txnAbort key = (disk key).isSome
  committed : (∀ (T : Type) (unserialize : Bytes → Option T),
    rawRead ((txn disk calls).txnCommit true) key unserialize =
      (calls.foldl BatchOp.apply disk key).bind unserialize) ∧
    rawExists ((txn disk calls).txnCommit true) key = (calls.foldl BatchOp.apply disk key).isSome

end RawDb

open RawDb in
theorem sees_own_writes_iff (disk : Bytes → Option Bytes) (calls : List RawOp) (key : Bytes) :
    SeesOwnWrites disk calls key ↔ ¬(lastErased calls key = true ∧ (disk key).isSome = true) := by
  have hr : (txn disk calls).read key = calls.foldl BatchOp.apply disk key := by
    rw [foldl_apply_eq_scanBatch, txn_eq]
    rfl
  have hex : (txn disk calls).rawExists key =
      if lastErased calls key then (disk key).isSome else (calls.foldl BatchOp.apply disk key).isSome := by
    rw [rawExists_eq, hr, txn_eq, Option.any_some]
    congr 1
    rw [beq_iff_eq, lastErased_iff]
  have hd : (txn disk calls).disk = disk := by rw [txn_eq]
  constructor
  · rintro ⟨-, hs, -, -⟩ ⟨he, ht⟩
    rw [hex, if_pos he, ht, foldl_apply_eq_scanBatch, (lastErased_iff calls key).mp he] at hs
    cases hs
  · intro hco
    refine ⟨fun T unserialize => by rw [rawRead_eq, hr], ?_, ⟨fun T unserialize => ?_, ?_⟩, fun T unserialize => ?_, ?_⟩
    · rw [hex]
      split
      · rename_i he
        rw [foldl_apply_eq_scanBatch, (lastErased_iff calls key).mp he]
        exact Bool.eq_false_iff.mpr fun ht => hco ⟨he, ht⟩
      · rfl
    · rw [rawRead_eq, Store.read_txnAbort, hd]
    · rw [rawExists, Store.txnAbort, hd]
    · rw [rawRead_eq, Store.read_txnCommit_true, hr]
    · have hc := Store.disk_txnCommit_true (txn disk calls) key
      rw [hr] at hc
      rw [rawExists, ← hc]
      rfl

open RawDb in
/-- A key that is on disk and erased in the transaction still exists. -/
theorem erased_key_exists : let disk : Bytes → Option Bytes := fun key => if key = [1] then some [2] else none
    let calls : List RawOp := [.delete [1]]
    (txn disk calls).rawExists [1] = true ∧ (calls.foldl BatchOp.apply disk [1]).isSome = false := by
  decide

end CloakCoin.Chain
