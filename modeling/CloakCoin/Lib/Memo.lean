import Mathlib.Tactic

/-!
# Cached values

A `Memo` is a value with a flag that says whether it may be used. Reading computes the value when the flag
is not set or the cache is not wanted; the computation may fail, which leaves the memo alone.
-/

namespace CloakCoin.Lib

variable {α : Type}

structure Memo (α : Type) where
  cached : Bool
  value : α
  deriving DecidableEq

namespace Memo

variable {m : Memo α} {x y : Option α}

def clear (m : Memo α) : Memo α := { m with cached := false }

/-- Clear the memo unless `keep`. -/
def clearUnless (keep : Bool) (m : Memo α) : Memo α := { m with cached := m.cached && keep }

def read (useCache : Bool) (x : Option α) (m : Memo α) : Option α × Memo α :=
  if useCache && m.cached then (some m.value, m)
  else
    match x with
    | none => (none, m)
    | some v => (some v, ⟨true, v⟩)

def Exact (m : Memo α) (x : Option α) : Prop := m.cached = true → x = some m.value

theorem exact_clear (m : Memo α) (x : Option α) : m.clear.Exact x := fun h => nomatch h

theorem Exact.congr (h : m.Exact x) (hxy : x = y) : m.Exact y := hxy ▸ h

theorem Exact.clearUnless (h : m.Exact x) {keep : Bool} (hke : m.cached = true → keep = true → x = y) :
    (m.clearUnless keep).Exact y := by
  intro hc
  obtain ⟨hm, hk⟩ := (Bool.and_eq_true _ _).mp hc
  exact (hke hm hk).symm.trans (h hm)

theorem Exact.read_fst (h : m.Exact x) (useCache : Bool) : (m.read useCache x).1 = x := by
  unfold read
  split
  · rename_i hc
    exact (h ((Bool.and_eq_true _ _).mp hc).2).symm
  · split
    · rfl
    · rfl

theorem Exact.read_snd (h : m.Exact x) (useCache : Bool) : (m.read useCache x).2.Exact x := by
  unfold read
  split
  · exact h
  · split
    · exact h
    · exact fun _ => rfl

end Memo

end CloakCoin.Lib
