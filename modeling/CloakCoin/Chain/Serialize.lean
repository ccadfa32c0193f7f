import CloakCoin.Chain.Tx
import CloakCoin.Lib.Format
import CloakCoin.Lib.Word

/-!
# Transactions as bytes

The `IMPLEMENT_SERIALIZE` blocks of `COutPoint`, `CTxIn`, `CTxOut` and `CTransaction`. Numbers have the
width of their C++ type, vectors are preceded by their length, and `data` is written from version 2 on.
Reading refuses vectors of more than `MAX_SIZE` elements; writing does not look at it, so that the
bytes of any two transactions can be compared by reading them with the largest limit.
-/

namespace CloakCoin.Chain

open Lib (Bytes Format Fits)
open List

/-- `MAX_SIZE` of `serialize.h`. -/
def maxSize : Nat := 0x02000000

/-! ## Formats -/

/-- `FLATDATA` of the hash and the index. -/
def COutPoint.format : Format COutPoint :=
  ((Format.uint 32).pair (Format.uint 4)).map (fun p => ⟨p.1, p.2⟩) fun o => (o.hash, o.n)

/-- The fields of the head of a transaction: everything but `data`. -/
abbrev CTransaction.Head := Int × Nat × List CTxIn × List CTxOut × Nat

section
variable (limit : Nat)

def CTxIn.format : Format CTxIn :=
  (COutPoint.format.pair ((Format.bytes limit).pair (Format.uint 4))).map (fun p => ⟨p.1, p.2.1, p.2.2⟩)
    fun i => (i.prevout, i.scriptSig, i.nSequence)

def CTxOut.format : Format CTxOut :=
  ((Format.int 8).pair (Format.bytes limit)).map (fun p => ⟨p.1, p.2⟩) fun o => (o.nValue, o.scriptPubKey)

namespace CTransaction

def headFormat : Format Head :=
  (Format.int 4).pair ((Format.uint 4).pair ((Format.list limit (CTxIn.format limit)).pair
    ((Format.list limit (CTxOut.format limit)).pair (Format.uint 4))))

def format : Format CTransaction :=
  ((headFormat limit).sigma fun head => if head.1 > 1 then Format.bytes limit else Format.const []).map
    (fun ((nVersion, nTime, vin, vout, nLockTime), data) => ⟨nVersion, nTime, vin, vout, nLockTime, data⟩)
    fun tx => ((tx.nVersion, tx.nTime, tx.vin, tx.vout, tx.nLockTime), tx.data)

end CTransaction

end

namespace CTransaction

def serialize (tx : CTransaction) : Bytes := (format maxSize).write tx

def unserialize (b : Bytes) : Option (CTransaction × Bytes) := (format maxSize).read b

theorem write_format (limit : Nat) (tx : CTransaction) : (format limit).write tx = tx.serialize := by
  have hd : ((if tx.nVersion > 1 then Format.bytes limit else Format.const []).write tx.data) =
      (if tx.nVersion > 1 then Format.bytes maxSize else Format.const []).write tx.data := by
    split <;> rfl
  exact congrArg ((headFormat maxSize).write _ ++ ·) hd

end CTransaction

/-! ## Ranges -/

structure COutPoint.InRange (o : COutPoint) : Prop where
  hash : o.hash < 2 ^ 256
  n : o.n < 2 ^ 32

structure CTxIn.InRange (i : CTxIn) : Prop where
  prevout : i.prevout.InRange
  nSequence : i.nSequence < 2 ^ 32

structure CTxOut.InRange (o : CTxOut) : Prop where
  nValue : Fits o.nValue

namespace CTransaction

/-- No vector is longer than `n`. -/
structure VectorsLe (n : Nat) (tx : CTransaction) : Prop where
  vin : tx.vin.length ≤ n
  vout : tx.vout.length ≤ n
  scriptSig : ∀ i ∈ tx.vin, i.scriptSig.length ≤ n
  scriptPubKey : ∀ o ∈ tx.vout, o.scriptPubKey.length ≤ n
  data : tx.data.length ≤ n

/-- The fields are values of their C++ types. -/
structure InRange (tx : CTransaction) : Prop where
  nVersion : -2 ^ 31 ≤ tx.nVersion ∧ tx.nVersion < 2 ^ 31
  nTime : tx.nTime < 2 ^ 32
  vin : ∀ i ∈ tx.vin, i.InRange
  vout : ∀ o ∈ tx.vout, o.InRange
  nLockTime : tx.nLockTime < 2 ^ 32
  vectors : tx.VectorsLe (2 ^ 64 - 1)

end CTransaction

/-! ## The values that are read back -/

theorem COutPoint.format_ok : COutPoint.format.Ok o ↔ o.InRange := by
  constructor
  · rintro ⟨⟨hh, hn⟩, -⟩
    exact ⟨lt_of_lt_of_eq hh (by norm_num), lt_of_lt_of_eq hn (by norm_num)⟩
  · rintro ⟨hh, hn⟩
    exact ⟨⟨lt_of_lt_of_eq hh (by norm_num), lt_of_lt_of_eq hn (by norm_num)⟩, rfl⟩

theorem COutPoint.format_tight : COutPoint.format.Tight :=
  Format.map_tight (Format.pair_tight (Format.uint_tight 32) (Format.uint_tight 4)) fun _ _ => rfl

section
variable {limit : Nat}

theorem compactSize_ok (hl : limit < 2 ^ 64) : (Format.compactSize limit).Ok n ↔ n ≤ limit := by
  constructor
  · exact And.right
  · exact fun h => ⟨lt_of_le_of_lt h (hl.trans_eq (by norm_num)), h⟩

theorem CTxIn.format_ok (hl : limit < 2 ^ 64) : (CTxIn.format limit).Ok i ↔ i.InRange ∧ i.scriptSig.length ≤ limit := by
  constructor
  · rintro ⟨⟨hp, hs, hse⟩, -⟩
    exact ⟨⟨COutPoint.format_ok.mp hp, lt_of_lt_of_eq hse (by norm_num)⟩, (compactSize_ok hl).mp hs⟩
  · rintro ⟨⟨hp, hse⟩, hs⟩
    exact ⟨⟨COutPoint.format_ok.mpr hp, (compactSize_ok hl).mpr hs, lt_of_lt_of_eq hse (by norm_num)⟩, rfl⟩

theorem CTxIn.format_tight (limit : Nat) : (CTxIn.format limit).Tight :=
  Format.map_tight (Format.pair_tight COutPoint.format_tight
    (Format.pair_tight (Format.bytes_tight limit) (Format.uint_tight 4))) fun _ _ => rfl

theorem CTxOut.format_ok (hl : limit < 2 ^ 64) :
    (CTxOut.format limit).Ok o ↔ o.InRange ∧ o.scriptPubKey.length ≤ limit := by
  have hva : (Format.int 8).Ok o.nValue ↔ Fits o.nValue := by
    rw [Format.int_ok, Fits]
    omega
  constructor
  · rintro ⟨⟨hv, hs⟩, -⟩
    exact ⟨⟨hva.mp hv⟩, (compactSize_ok hl).mp hs⟩
  · rintro ⟨⟨hv⟩, hs⟩
    exact ⟨⟨hva.mpr hv, (compactSize_ok hl).mpr hs⟩, rfl⟩

theorem CTxOut.format_tight (limit : Nat) : (CTxOut.format limit).Tight :=
  Format.map_tight (Format.pair_tight (Format.int_tight 8) (Format.bytes_tight limit)) fun _ _ => rfl

namespace CTransaction

theorem headFormat_tight (limit : Nat) : (headFormat limit).Tight :=
  Format.pair_tight (Format.int_tight 4) (Format.pair_tight (Format.uint_tight 4)
    (Format.pair_tight (Format.list_tight limit (CTxIn.format_tight limit))
      (Format.pair_tight (Format.list_tight limit (CTxOut.format_tight limit)) (Format.uint_tight 4))))

theorem format_tight (limit : Nat) : (format limit).Tight := by
  refine Format.map_tight (Format.sigma_tight (headFormat_tight limit) fun head => ?_) fun _ _ => rfl
  split
  · exact Format.bytes_tight limit
  · exact Format.const_tight []

def onWire (tx : CTransaction) : CTransaction := { tx with data := if tx.nVersion > 1 then tx.data else [] }

theorem onWire_eq_self_iff {tx : CTransaction} : tx.onWire = tx ↔ 1 < tx.nVersion ∨ tx.data = [] := by
  have hd : tx.onWire = tx ↔ (if tx.nVersion > 1 then tx.data else []) = tx.data :=
    ⟨congrArg CTransaction.data, fun h => by rw [onWire, h]⟩
  rw [hd]
  split
  · rename_i hv
    exact ⟨fun _ => .inl hv, fun _ => rfl⟩
  · rename_i hv
    rw [or_iff_right hv, eq_comm]

theorem format_ok (hl : limit < 2 ^ 64) (htx : tx.InRange) :
    (format limit).Ok tx ↔ tx.VectorsLe limit ∧ tx.onWire = tx := by
  have hda : (if tx.nVersion > 1 then Format.bytes limit else Format.const []).Ok tx.data ↔
      tx.data.length ≤ limit ∧ (1 < tx.nVersion ∨ tx.data = []) := by
    split
    · rename_i hv
      rw [and_iff_left (.inl hv)]
      exact compactSize_ok hl
    rename_i hv
    constructor
    · intro h
      have hn : tx.data = [] := h
      rw [hn]
      exact ⟨Nat.zero_le _, .inr rfl⟩
    · rintro ⟨-, h | h⟩
      · exact absurd h hv
      · exact h
  rw [onWire_eq_self_iff]
  constructor
  · rintro ⟨⟨⟨-, -, hvi, hvo, -⟩, hd⟩, -⟩
    obtain ⟨hlen, hk⟩ := hda.mp hd
    exact ⟨⟨(compactSize_ok hl).mp hvi.1, (compactSize_ok hl).mp hvo.1,
      fun i hi => ((CTxIn.format_ok hl).mp (hvi.2 i hi)).2,
      fun o ho => ((CTxOut.format_ok hl).mp (hvo.2 o ho)).2, hlen⟩, hk⟩
  · rintro ⟨hle, hk⟩
    have hve : (Format.int 4).Ok tx.nVersion := by
      have h := htx.nVersion
      rw [Format.int_ok]
      omega
    exact ⟨⟨⟨hve, htx.nTime.trans_eq (by norm_num),
      ⟨(compactSize_ok hl).mpr hle.vin,
        fun i hi => (CTxIn.format_ok hl).mpr ⟨htx.vin i hi, hle.scriptSig i hi⟩⟩,
      ⟨(compactSize_ok hl).mpr hle.vout,
        fun o ho => (CTxOut.format_ok hl).mpr ⟨htx.vout o ho, hle.scriptPubKey o ho⟩⟩,
      htx.nLockTime.trans_eq (by norm_num)⟩, hda.mpr ⟨hle.data, hk⟩⟩, rfl⟩

end CTransaction
end

/-! ## Sizes -/

theorem length_int (k : Nat) (z : Int) : ((Format.int k).write z).length = k := Format.length_uint k _

theorem length_varSize (n : Nat) : (Format.varSize.write n).length = getSizeOfCompactSize n := by
  simp only [Format.varSize, getSizeOfCompactSize]
  split_ifs <;> first | rfl | omega

variable (limit : Nat)

theorem length_bytes (b : Bytes) : ((Format.bytes limit).write b).length = bytesSize b := by
  change (Format.varSize.write b.length ++ b).length = _
  rw [length_append, length_varSize, bytesSize]

theorem length_list {size : α → Nat} (hf : ∀ a, (f.write a).length = size a) (l : List α) :
    ((Format.list limit f).write l).length = getSizeOfCompactSize l.length + (l.map size).sum := by
  change (Format.varSize.write l.length ++ l.flatMap f.write).length = _
  rw [length_append, length_varSize, length_flatMap]
  simp only [hf]

theorem CTxIn.length_write (i : CTxIn) : ((CTxIn.format limit).write i).length = i.serializeSize := by
  change (((Format.uint 32).write _ ++ (Format.uint 4).write _) ++ ((Format.bytes limit).write _ ++
    (Format.uint 4).write _)).length = _
  simp only [length_append, Format.length_uint, length_bytes, serializeSize]
  omega

theorem CTxOut.length_write (o : CTxOut) : ((CTxOut.format limit).write o).length = o.serializeSize := by
  change ((Format.int 8).write _ ++ (Format.bytes limit).write _).length = _
  rw [length_append, length_int, length_bytes, serializeSize]

theorem CTransaction.length_serialize (tx : CTransaction) : tx.serialize.length = tx.serializeSize := by
  have hd : ((if tx.nVersion > 1 then Format.bytes maxSize else Format.const []).write tx.data).length =
      if tx.nVersion > 1 then bytesSize tx.data else 0 := by
    split
    · exact length_bytes maxSize tx.data
    · rfl
  change (((Format.int 4).write _ ++ ((Format.uint 4).write _ ++ ((Format.list maxSize _).write _ ++
    ((Format.list maxSize _).write _ ++ (Format.uint 4).write _)))) ++
    (if tx.nVersion > 1 then Format.bytes maxSize else Format.const []).write tx.data).length = _
  simp only [length_append, length_int, Format.length_uint, length_list maxSize (CTxIn.length_write maxSize),
    length_list maxSize (CTxOut.length_write maxSize), serializeSize]
  omega

/-! ## The bytes and the fields -/

namespace CTransaction

theorem serialize_onWire (tx : CTransaction) : tx.onWire.serialize = tx.serialize := by
  unfold serialize format Format.map Format.sigma onWire
  dsimp only
  split <;> rfl

theorem InRange.onWire {tx : CTransaction} (h : tx.InRange) : tx.onWire.InRange := by
  have hd : tx.onWire.data.length ≤ 2 ^ 64 - 1 := by
    rw [CTransaction.onWire]
    split
    · exact h.vectors.data
    · exact Nat.zero_le _
  exact ⟨h.nVersion, h.nTime, h.vin, h.vout, h.nLockTime,
    ⟨h.vectors.vin, h.vectors.vout, h.vectors.scriptSig, h.vectors.scriptPubKey, hd⟩⟩

theorem onWire_onWire (tx : CTransaction) : tx.onWire.onWire = tx.onWire := by
  unfold onWire
  split <;> rfl

variable {a b : CTransaction}

theorem serialize_eq_iff_onWire (ha : a.InRange) (hb : b.InRange) :
    a.serialize = b.serialize ↔ a.onWire = b.onWire := by
  constructor
  · intro h
    have hw : 2 ^ 64 - 1 < 2 ^ 64 := by norm_num
    refine Format.write_injective ((format_ok hw ha.onWire).mpr ⟨ha.onWire.vectors, a.onWire_onWire⟩)
      ((format_ok hw hb.onWire).mpr ⟨hb.onWire.vectors, b.onWire_onWire⟩) ?_
    rw [write_format, write_format, serialize_onWire, serialize_onWire, h]
  · intro h
    rw [← a.serialize_onWire, h, b.serialize_onWire]

theorem sameAs_iff : a.sameAs b = true ↔ a.nVersion = b.nVersion ∧ a.nTime = b.nTime ∧
    a.vin = b.vin ∧ a.vout = b.vout ∧ a.nLockTime = b.nLockTime := by
  simp [sameAs, and_assoc]

theorem serialize_eq_iff (ha : a.InRange) (hb : b.InRange) :
    a.serialize = b.serialize ↔ a.sameAs b = true ∧ (1 < a.nVersion → a.data = b.data) := by
  rw [serialize_eq_iff_onWire ha hb, sameAs_iff]
  unfold onWire
  rw [CTransaction.mk.injEq]
  constructor
  · rintro ⟨hv, ht, hin, ho, hl, hd⟩
    refine ⟨⟨hv, ht, hin, ho, hl⟩, fun hv1 => ?_⟩
    rwa [if_pos hv1, if_pos (hv ▸ hv1)] at hd
  · rintro ⟨⟨hv, ht, hin, ho, hl⟩, hd⟩
    refine ⟨hv, ht, hin, ho, hl, ?_⟩
    rw [← hv]
    split
    · rename_i hv1
      exact hd hv1
    · rfl

/-- A transaction comes back from the wire unless a vector is too long to be read or its version leaves
`data` out. `operator==`, which does not look at `data`, says that the bytes are the same except for
two transactions that write different `data`. -/
theorem survives_iff (tx a b : CTransaction) (rest : Bytes) (htx : tx.InRange) (ha : a.InRange) (hb : b.InRange) :
    (unserialize (tx.serialize ++ rest) = some (tx, rest) ↔
      tx.VectorsLe maxSize ∧ (1 < tx.nVersion ∨ tx.data = [])) ∧ ((a.sameAs b = true ↔ a.serialize = b.serialize) ↔
      (a.sameAs b = true → 1 < a.nVersion → a.data = b.data)) := by
  constructor
  · rw [← onWire_eq_self_iff, ← format_ok (by unfold maxSize; norm_num) htx]
    exact Format.read_write_iff (format_tight maxSize)
  · rw [serialize_eq_iff ha hb]
    constructor
    · intro h hs
      exact (h.mp hs).2
    · intro h
      exact ⟨fun hs => ⟨hs, h hs⟩, And.left⟩

/-- A transaction as `CreateTransaction` leaves it: version 1, with `data`. -/
def dataTx (nVersion : Int) (data : List UInt8) : CTransaction :=
  ⟨nVersion, 5, [{ prevout := ⟨7, 0⟩ }], [⟨coin, [0x51]⟩], 0, data⟩

theorem dataTx_inRange : (dataTx 1 []).InRange ∧ (dataTx 2 [1]).InRange := by
  have hin : (⟨⟨7, 0⟩, [], uintMax⟩ : CTxIn).InRange := ⟨⟨by norm_num, by norm_num⟩, by decide⟩
  have ho : (⟨coin, [0x51]⟩ : CTxOut).InRange := ⟨by decide⟩
  refine ⟨⟨by decide, by decide, ?_, ?_, by decide, ⟨by decide, by decide, ?_, ?_, by decide⟩⟩,
    ⟨by decide, by decide, ?_, ?_, by decide, ⟨by decide, by decide, ?_, ?_, by decide⟩⟩⟩ <;>
    simp [dataTx, hin, ho]

theorem survives_sample : unserialize ((dataTx 2 [1]).serialize ++ [9]) = some (dataTx 2 [1], [9]) ∧
    ((dataTx 1 []).sameAs (dataTx 2 [1]) = true ↔ (dataTx 1 []).serialize = (dataTx 2 [1]).serialize) := by
  obtain ⟨hr, hsa⟩ := survives_iff (dataTx 2 [1]) (dataTx 1 []) (dataTx 2 [1]) [9] dataTx_inRange.2
    dataTx_inRange.1 dataTx_inRange.2
  have hs : (dataTx 2 [1]).VectorsLe maxSize := ⟨by decide, by decide, by decide, by decide, by decide⟩
  exact ⟨hr.mpr ⟨hs, .inl (by decide)⟩, hsa.mpr fun h => absurd h (by decide)⟩

/-- The `data` of a version 1 transaction is lost, and two transactions of version 2 that are `==`
have different bytes. -/
theorem data_lost : unserialize (dataTx 1 [1]).serialize = some (dataTx 1 [], []) ∧
    (dataTx 2 [1]).sameAs (dataTx 2 [2]) = true ∧ (dataTx 2 [1]).serialize ≠ (dataTx 2 [2]).serialize := by
  decide +kernel

end CTransaction
end CloakCoin.Chain
