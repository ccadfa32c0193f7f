import CloakCoin.Lib.Crypto

/-!
# Byte formats

A `Format` writes values in front of other bytes and reads them back. `Ok` are the values it can read
back: a reader may refuse long vectors, and fields that are not written are lost.
-/

namespace CloakCoin.Lib

open List Option

variable {α β : Type}

structure Format (α : Type) where
  write : α → Bytes
  read : Bytes → Option (α × Bytes)
  Ok : α → Prop
  read_write : ∀ a, Ok a → ∀ rest, read (write a ++ rest) = some (a, rest)

namespace Format

/-! ## Numbers -/

def byte : Format UInt8 where
  write b := [b]
  read
    | [] => none
    | b :: rest => some (b, rest)
  Ok _ := True
  read_write _ _ _ := rfl

/-- Numbers of `k` bytes, the least significant first. -/
def uint (k : Nat) : Format Nat where
  write n := (toBytes k n).reverse
  read b := if b.length < k then none else some (ofBytes (b.take k).reverse, b.drop k)
  Ok n := n < 256 ^ k
  read_write n hn rest := by
    have hlen : (toBytes k n).reverse.length = k := by rw [length_reverse, length_toBytes]
    have hshort : ¬((toBytes k n).reverse ++ rest).length < k := by
      rw [length_append, hlen]
      omega
    rw [if_neg hshort, take_left' hlen, drop_left' hlen, reverse_reverse, ofBytes_toBytes hn]

theorem length_uint (k n : Nat) : ((uint k).write n).length = k := by
  change (toBytes k n).reverse.length = k
  rw [length_reverse, length_toBytes]

/-! ## Composition -/

def pair (f : Format α) (g : Format β) : Format (α × β) where
  write p := f.write p.1 ++ g.write p.2
  read b :=
    match f.read b with
    | none => none
    | some (a, rest) => (g.read rest).map fun (b, rest) => ((a, b), rest)
  Ok p := f.Ok p.1 ∧ g.Ok p.2
  read_write p hp rest := by
    rw [append_assoc, f.read_write p.1 hp.1]
    dsimp only
    rw [g.read_write p.2 hp.2, map_some]

/-- The values `dec a`, written as `enc` says. -/
def map (f : Format α) (dec : α → β) (enc : β → α) : Format β where
  write b := f.write (enc b)
  read bytes := (f.read bytes).map fun (a, rest) => (dec a, rest)
  Ok b := f.Ok (enc b) ∧ dec (enc b) = b
  read_write b hb rest := by
    rw [f.read_write _ hb.1, map_some]
    dsimp only
    rw [hb.2]

def bool : Format Bool := byte.map (· != 0) fun b => if b then 1 else 0

@[simp] theorem bool_ok (b : Bool) : bool.Ok b := ⟨trivial, by cases b <;> rfl⟩

def uint16 : Format UInt16 := (uint 2).map UInt16.ofNat UInt16.toNat

@[simp] theorem uint16_ok (n : UInt16) : uint16.Ok n := ⟨n.toNat_lt, UInt16.ofNat_toNat⟩

def uint64 : Format UInt64 := (uint 8).map UInt64.ofNat UInt64.toNat

@[simp] theorem uint64_ok (n : UInt64) : uint64.Ok n := ⟨n.toNat_lt, UInt64.ofNat_toNat⟩

/-! ## Vectors -/

/-- A size: one byte, or a mark and 2, 4 or 8 bytes. -/
def varSize : Format Nat where
  write n :=
    if n < 253 then [UInt8.ofNat n]
    else if n < 256 ^ 2 then 253 :: (uint 2).write n
    else if n < 256 ^ 4 then 254 :: (uint 4).write n
    else 255 :: (uint 8).write n
  read
    | [] => none
    | chSize :: rest =>
      if chSize < 253 then some (chSize.toNat, rest)
      else if chSize = 253 then (uint 2).read rest
      else if chSize = 254 then (uint 4).read rest
      else (uint 8).read rest
  Ok n := n < 256 ^ 8
  read_write n hn rest := by
    split_ifs with h₁ h₂ h₄
    · have hbyte : (UInt8.ofNat n).toNat = n := by
        rw [UInt8.toNat_ofNat']
        omega
      have hlt : UInt8.ofNat n < 253 := UInt8.lt_iff_toNat_lt.mpr (by rw [hbyte]; exact h₁)
      rw [singleton_append]
      dsimp only
      rw [if_pos hlt, hbyte]
    · exact (uint 2).read_write n h₂ rest
    · exact (uint 4).read_write n h₄ rest
    · exact (uint 8).read_write n hn rest

section
variable (maxSize : Nat)

/-- A size that is refused above `maxSize`. -/
def compactSize : Format Nat where
  write := varSize.write
  read b :=
    match varSize.read b with
    | none => none
    | some (n, rest) => if n > maxSize then none else some (n, rest)
  Ok n := n < 256 ^ 8 ∧ n ≤ maxSize
  read_write n hn rest := by
    rw [varSize.read_write n hn.1]
    dsimp only
    rw [if_neg (Nat.not_lt.mpr hn.2)]

def bytes : Format Bytes where
  write b := (compactSize maxSize).write b.length ++ b
  read b :=
    match (compactSize maxSize).read b with
    | none => none
    | some (n, rest) => if rest.length < n then none else some (rest.take n, rest.drop n)
  Ok b := (compactSize maxSize).Ok b.length
  read_write b hb rest := by
    rw [append_assoc, (compactSize maxSize).read_write _ hb]
    dsimp only
    rw [if_neg (by rw [length_append]; omega), take_left, drop_left]

def readMany (f : Format α) : Nat → Bytes → Option (List α × Bytes)
  | 0, b => some ([], b)
  | n + 1, b =>
    match f.read b with
    | none => none
    | some (a, rest) => (readMany f n rest).map fun (l, rest) => (a :: l, rest)

theorem readMany_flatMap {l : List α} (hl : ∀ a ∈ l, f.Ok a) (rest : Bytes) :
    readMany f l.length (l.flatMap f.write ++ rest) = some (l, rest) := by
  induction l with
  | nil => rfl
  | cons a l ih =>
    rw [flatMap_cons, append_assoc, length_cons, readMany,
      f.read_write a (hl a mem_cons_self)]
    dsimp only
    rw [ih fun b hb => hl b (mem_cons_of_mem a hb), map_some]

def list (f : Format α) : Format (List α) where
  write l := (compactSize maxSize).write l.length ++ l.flatMap f.write
  read b :=
    match (compactSize maxSize).read b with
    | none => none
    | some (n, rest) => readMany f n rest
  Ok l := (compactSize maxSize).Ok l.length ∧ ∀ a ∈ l, f.Ok a
  read_write l hl rest := by
    rw [append_assoc, (compactSize maxSize).read_write _ hl.1]
    exact readMany_flatMap hl.2 rest

end

/-! ## Dependent fields -/

/-- The second value is written as the first one says. -/
def sigma (f : Format α) (g : α → Format β) : Format (α × β) where
  write p := f.write p.1 ++ (g p.1).write p.2
  read b :=
    match f.read b with
    | none => none
    | some (a, rest) => ((g a).read rest).map fun (b, rest) => ((a, b), rest)
  Ok p := f.Ok p.1 ∧ (g p.1).Ok p.2
  read_write p hp rest := by
    rw [append_assoc, f.read_write p.1 hp.1]
    dsimp only
    rw [(g p.1).read_write p.2 hp.2, map_some]

def const (a : α) : Format α where
  write _ := []
  read b := some (a, b)
  Ok x := x = a
  read_write x hx rest := by rw [hx, nil_append]

/-- Signed numbers of `k` bytes. -/
def int (k : Nat) : Format Int := (uint k).map (fun n => (n : Int).bmod (256 ^ k)) fun z => (z % 256 ^ k).toNat

theorem int_ok {k : Nat} {z : Int} : (int k).Ok z ↔ -256 ^ k ≤ z * 2 ∧ z * 2 < 256 ^ k := by
  have hp : (0 : Int) < 256 ^ k := by positivity
  have hc : ((256 ^ k : Nat) : Int) = 256 ^ k := by rfl
  have hm : ((z % 256 ^ k).toNat : Int) = z % 256 ^ k := Int.toNat_of_nonneg (Int.emod_nonneg z hp.ne')
  have hlt : (z % 256 ^ k).toNat < 256 ^ k := by
    zify
    rw [hm]
    exact Int.emod_lt_of_pos z hp
  have hd : ((z % 256 ^ k).toNat : Int).bmod (256 ^ k) = z.bmod (256 ^ k) := by
    rw [hm, ← hc, Int.emod_bmod]
  constructor
  · rintro ⟨-, h⟩
    replace h : z.bmod (256 ^ k) = z := hd.symm.trans h
    have hle := Int.le_bmod (x := z) (m := 256 ^ k) (by positivity)
    have hub := Int.bmod_lt (x := z) (m := 256 ^ k) (by positivity)
    omega
  · rintro ⟨hle, hub⟩
    refine ⟨hlt, hd.trans (Int.bmod_eq_of_le_mul_two ?_ ?_)⟩
    · exact hle
    · exact hub

/-! ## What is read can be written -/

def Tight (f : Format α) : Prop := ∀ b a rest, f.read b = some (a, rest) → f.Ok a

theorem read_write_iff {f : Format α} (hf : f.Tight) {a : α} {rest : Bytes} :
    f.read (f.write a ++ rest) = some (a, rest) ↔ f.Ok a :=
  ⟨hf _ a rest, fun ha => f.read_write a ha rest⟩

theorem write_injective {f : Format α} {a b : α} (ha : f.Ok a) (hb : f.Ok b) (h : f.write a = f.write b) : a = b := by
  have hr := f.read_write a ha []
  rw [h, f.read_write b hb []] at hr
  exact congrArg Prod.fst (Option.some.inj hr).symm

theorem uint_tight (k : Nat) : (uint k).Tight := by
  intro b n rest h
  simp only [uint] at h
  split at h
  · cases h
  rename_i hl
  obtain ⟨rfl, -⟩ := Prod.mk.inj (Option.some.inj h)
  have hlt := ofBytes_lt (b.take k).reverse
  rwa [length_reverse, length_take_of_le (not_lt.mp hl)] at hlt

theorem sigma_tight {f : Format α} {g : α → Format β} (hf : f.Tight) (hg : ∀ a, (g a).Tight) : (f.sigma g).Tight := by
  intro b p rest h
  simp only [sigma] at h
  split at h
  · cases h
  rename_i a rest' ha
  obtain ⟨⟨b', rest''⟩, hb, heq⟩ := map_eq_some_iff.mp h
  obtain ⟨rfl, -⟩ := Prod.mk.inj heq
  exact ⟨hf _ _ _ ha, hg a _ _ _ hb⟩

theorem pair_tight {f : Format α} {g : Format β} (hf : f.Tight) (hg : g.Tight) : (f.pair g).Tight :=
  sigma_tight hf fun _ => hg

theorem const_tight (a : α) : (const a).Tight := by
  intro b x rest h
  exact (congrArg Prod.fst (Option.some.inj h)).symm

theorem map_tight {f : Format α} {dec : α → β} {enc : β → α} (hf : f.Tight) (h : ∀ a, f.Ok a → enc (dec a) = a) :
    (f.map dec enc).Tight := by
  intro b x rest hr
  obtain ⟨⟨a, rest'⟩, ha, heq⟩ := map_eq_some_iff.mp hr
  obtain ⟨rfl, -⟩ := Prod.mk.inj heq
  have hok := hf _ _ _ ha
  have he := h a hok
  refine ⟨?_, congrArg dec he⟩
  rw [he]
  exact hok

theorem int_tight (k : Nat) : (int k).Tight := by
  refine map_tight (uint_tight k) fun n hn => ?_
  have hlt : (n : Int) < 256 ^ k := by exact_mod_cast hn
  have hc : ((256 ^ k : Nat) : Int) = 256 ^ k := by rfl
  rw [← hc, Int.bmod_emod, hc, Int.emod_eq_of_lt (Int.natCast_nonneg n) hlt, Int.toNat_natCast]

theorem varSize_tight : varSize.Tight := by
  have hw {k : Nat} {b : Bytes} {n : Nat} {rest : Bytes} (hk : k ≤ 8)
      (h : (uint k).read b = some (n, rest)) : varSize.Ok n :=
    (uint_tight k _ _ _ h).trans_le (Nat.pow_le_pow_right (by norm_num) hk)
  intro b n rest h
  cases b with
  | nil => cases h
  | cons chSize b =>
    simp only [varSize] at h
    split_ifs at h
    · obtain ⟨rfl, -⟩ := Prod.mk.inj (Option.some.inj h)
      exact chSize.toNat_lt.trans (by norm_num)
    · exact hw (by norm_num) h
    · exact hw (by norm_num) h
    · exact hw le_rfl h

theorem compactSize_tight (maxSize : Nat) : (compactSize maxSize).Tight := by
  intro b n rest h
  simp only [compactSize] at h
  split at h
  · cases h
  rename_i m rest' hm
  split at h
  · cases h
  · rename_i hle
    obtain ⟨rfl, -⟩ := Prod.mk.inj (Option.some.inj h)
    exact ⟨varSize_tight _ _ _ hm, not_lt.mp hle⟩

theorem bytes_tight (maxSize : Nat) : (bytes maxSize).Tight := by
  intro b v rest h
  simp only [bytes] at h
  split at h
  · cases h
  rename_i n rest' hn
  split at h
  · cases h
  rename_i hl
  obtain ⟨rfl, -⟩ := Prod.mk.inj (Option.some.inj h)
  change (compactSize maxSize).Ok (rest'.take n).length
  rw [length_take_of_le (not_lt.mp hl)]
  exact compactSize_tight maxSize _ _ _ hn

theorem readMany_ok {f : Format α} (hf : f.Tight) {n : Nat} {b rest : Bytes} {l : List α}
    (h : readMany f n b = some (l, rest)) : l.length = n ∧ ∀ a ∈ l, f.Ok a := by
  induction n generalizing b l with
  | zero =>
    obtain ⟨rfl, -⟩ := Prod.mk.inj (Option.some.inj h)
    exact ⟨rfl, fun a ha => absurd ha not_mem_nil⟩
  | succ n ih =>
    rw [readMany] at h
    split at h
    · cases h
    rename_i a rest' ha
    obtain ⟨⟨l', rest''⟩, hl, heq⟩ := map_eq_some_iff.mp h
    obtain ⟨rfl, rfl⟩ := Prod.mk.inj heq
    obtain ⟨hle, hok⟩ := ih hl
    exact ⟨congrArg (· + 1) hle, forall_mem_cons.mpr ⟨hf _ _ _ ha, hok⟩⟩

theorem list_tight (maxSize : Nat) {f : Format α} (hf : f.Tight) : (list maxSize f).Tight := by
  intro b l rest h
  simp only [list] at h
  split at h
  · cases h
  · rename_i n rest' hn
    obtain ⟨rfl, hok⟩ := readMany_ok hf h
    exact ⟨compactSize_tight maxSize _ _ _ hn, hok⟩

end Format

/-! ## Hexadecimal -/

/-- The digit for a number below 16, in lower case. -/
def hexDigit (n : Nat) : UInt8 := UInt8.ofNat (if n < 10 then 48 + n else 87 + n)

/-- The value of a digit of either case. -/
def hexValue (c : UInt8) : Option Nat :=
  if 48 ≤ c ∧ c ≤ 57 then some (c.toNat - 48)
  else if 97 ≤ c ∧ c ≤ 102 then some (c.toNat - 87)
  else if 65 ≤ c ∧ c ≤ 70 then some (c.toNat - 55)
  else none

def isSpace (c : UInt8) : Bool := c == 32 || (9 ≤ c && c ≤ 13)

def hexStr (b : Bytes) : Bytes := b.flatMap fun x => [hexDigit (x.toNat / 16), hexDigit (x.toNat % 16)]

def parseHex : Bytes → Bytes
  | [] => []
  | [_] => []
  | c :: d :: rest =>
    if isSpace c then parseHex (d :: rest)
    else
      match hexValue c, hexValue d with
      | some hi, some lo => UInt8.ofNat (16 * hi + lo) :: parseHex rest
      | _, _ => []

theorem hexValue_hexDigit {n : Nat} (h : n < 16) : isSpace (hexDigit n) = false ∧ hexValue (hexDigit n) = some n := by
  interval_cases n <;> decide

theorem parseHex_hexStr (b : Bytes) : parseHex (hexStr b) = b := by
  induction b with
  | nil => rfl
  | cons x b ih =>
    have hx := x.toNat_lt
    obtain ⟨hs, hhi⟩ := hexValue_hexDigit (n := x.toNat / 16) (by omega)
    obtain ⟨-, hlo⟩ := hexValue_hexDigit (n := x.toNat % 16) (by omega)
    have hst : hexStr (x :: b) = hexDigit (x.toNat / 16) :: hexDigit (x.toNat % 16) :: hexStr b := by
      rfl
    have hb : 16 * (x.toNat / 16) + x.toNat % 16 = x.toNat := by omega
    rw [hst, parseHex, hs, if_neg Bool.false_ne_true, hhi, hlo]
    dsimp only
    rw [hb, UInt8.ofNat_toNat, ih]

end CloakCoin.Lib
