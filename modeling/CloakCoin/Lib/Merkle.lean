import Mathlib.Data.Nat.Bitwise
import Mathlib.Tactic

/-!
# Levels of a hash tree

`level h l` pairs the entries of a level up with `h`, the last one with itself when it is alone. A tree
over `l` is the sequence of its levels `(level h)^[k] l`.

The doubled entry makes different lists give the same next level, but not lists without repeated
entries: `level_injective`. Such lists stay without repeated entries on the way up, so that a level as
high as one likes determines the leaves (`leaves_eq_of_top`), also between trees of different heights.
-/

namespace CloakCoin.Lib.Merkle

open List

variable (h : α → α → α) {l l' : List α}

def level : List α → List α
  | [] => []
  | [a] => [h a a]
  | a :: b :: rest => h a b :: level rest

def CollisionFree : Prop := ∀ {a b c d}, h a b = h c d → a = c ∧ b = d

def Leaf (a : α) : Prop := ∀ x y, a ≠ h x y

variable {h}

@[simp] theorem length_level : ∀ l : List α, (level h l).length = (l.length + 1) / 2
  | [] => by simp [level]
  | [_] => by simp [level]
  | _ :: _ :: rest => by
    rw [level, length_cons, length_level rest]
    simp only [length_cons]
    omega

theorem mem_level : ∀ {l : List α}, a ∈ level h l → ∃ x ∈ l, ∃ y ∈ l, a = h x y
  | [], ha => nomatch ha
  | [x], ha => ⟨x, mem_singleton_self x, x, mem_singleton_self x, mem_singleton.mp ha⟩
  | x :: y :: rest, ha => by
    rcases mem_cons.mp ha with rfl | ha
    · exact ⟨x, by simp, y, by simp, rfl⟩
    · obtain ⟨x', hx', y', hy', rfl⟩ := mem_level ha
      exact ⟨x', by simp [hx'], y', by simp [hy'], rfl⟩

/-! ## Levels determine each other -/

theorem nodup_level (hf : CollisionFree h) : ∀ {l : List α}, l.Nodup → (level h l).Nodup
  | [], _ => nodup_nil
  | [_], _ => nodup_singleton _
  | x :: y :: rest, hl => by
    rw [nodup_cons, nodup_cons, mem_cons, not_or] at hl
    refine nodup_cons.mpr ⟨fun hm => ?_, nodup_level hf hl.2.2⟩
    obtain ⟨x', hx', y', -, heq⟩ := mem_level hm
    exact hl.1.2 ((hf heq).1 ▸ hx')

theorem level_injective (hf : CollisionFree h) : ∀ {l l' : List α}, l.Nodup → l'.Nodup → level h l = level h l' → l = l'
  | [], [], _, _, _ => rfl
  | [], [_], _, _, heq => nomatch heq
  | [], _ :: _ :: _, _, _, heq => nomatch heq
  | [_], [], _, _, heq => nomatch heq
  | _ :: _ :: _, [], _, _, heq => nomatch heq
  | [a], [b], _, _, heq => by
    rw [(hf (List.cons.inj heq).1).1]
  | [a], b :: c :: rest, _, hl', heq => by
    obtain ⟨hb, hc⟩ := hf (List.cons.inj heq).1
    exact absurd (mem_cons.mpr (.inl (hb.symm.trans hc))) (nodup_cons.mp hl').1
  | b :: c :: rest, [a], hl, _, heq => by
    obtain ⟨hb, hc⟩ := hf (List.cons.inj heq).1
    exact absurd (mem_cons.mpr (.inl (hb.trans hc.symm))) (nodup_cons.mp hl).1
  | a :: b :: rest, c :: d :: rest', hl, hl', heq => by
    obtain ⟨hh, ht⟩ := List.cons.inj heq
    obtain ⟨rfl, rfl⟩ := hf hh
    rw [level_injective hf (hl.sublist (by simp)) (hl'.sublist (by simp)) ht]

theorem nodup_iterate_level (hf : CollisionFree h) (hl : l.Nodup) : ∀ k, ((level h)^[k] l).Nodup
  | 0 => hl
  | k + 1 => by
    rw [Function.iterate_succ_apply']
    exact nodup_level hf (nodup_iterate_level hf hl k)

theorem iterate_level_injective (hf : CollisionFree h) (hl : l.Nodup) (hl' : l'.Nodup) :
    ∀ k, (level h)^[k] l = (level h)^[k] l' → l = l'
  | 0, heq => heq
  | k + 1, heq => by
    rw [Function.iterate_succ_apply', Function.iterate_succ_apply'] at heq
    exact iterate_level_injective hf hl hl' k
      (level_injective hf (nodup_iterate_level hf hl k) (nodup_iterate_level hf hl' k) heq)

theorem leaves_eq_of_higher (hf : CollisionFree h) (hl : l.Nodup) (hl' : l'.Nodup) (hle : ∀ a ∈ l, Leaf h a)
    (hne : l ≠ []) (heq : (level h)^[k] l = (level h)^[k + n] l') : l = l' := by
  rw [Function.iterate_add_apply] at heq
  have hc := iterate_level_injective hf hl (nodup_iterate_level hf hl' n) k heq
  cases n with
  | zero => exact hc
  | succ n =>
    obtain ⟨a, ha⟩ := exists_mem_of_ne_nil l hne
    have hi := ha
    rw [hc, Function.iterate_succ_apply'] at hi
    obtain ⟨x, -, y, -, hxy⟩ := mem_level hi
    exact absurd hxy (hle a ha x y)

theorem leaves_eq_of_top (hf : CollisionFree h) (hl : l.Nodup) (hl' : l'.Nodup) (hle : ∀ a ∈ l, Leaf h a)
    (hle' : ∀ a ∈ l', Leaf h a) (hne : l ≠ []) (hn' : l' ≠ []) {m n : Nat}
    (heq : (level h)^[m] l = (level h)^[n] l') : l = l' := by
  rcases Nat.le_total m n with hmn | hmn
  · obtain ⟨k, rfl⟩ := Nat.exists_eq_add_of_le hmn
    exact leaves_eq_of_higher hf hl hl' hle hne heq
  · obtain ⟨k, rfl⟩ := Nat.exists_eq_add_of_le hmn
    exact (leaves_eq_of_higher hf hl' hl hle' hn' heq.symm).symm

/-! ## Parents -/

theorem getD_level : ∀ (l : List α) (i : Nat), i < l.length → (level h l).getD (i / 2) d =
    if i % 2 = 1 then h (l.getD (i - 1) d) (l.getD i d) else h (l.getD i d) (l.getD (min (i + 1) (l.length - 1)) d)
  | [], i, hi => absurd hi (Nat.not_lt_zero i)
  | [a], 0, _ => rfl
  | [a], i + 1, hi => absurd hi (by simp)
  | a :: b :: rest, 0, _ => by simp [level]
  | a :: b :: rest, 1, _ => by simp [level]
  | a :: b :: rest, i + 2, hi => by
    have hlt : i < rest.length := by simpa using hi
    have hd : (i + 2) / 2 = i / 2 + 1 := by omega
    have hm : (i + 2) % 2 = i % 2 := by omega
    rw [level, hd, getD_cons_succ, getD_level rest i hlt, hm]
    split
    · have hp : i + 2 - 1 = i - 1 + 1 + 1 := by omega
      rw [hp]
      simp
    have hmi : min (i + 2 + 1) ((a :: b :: rest).length - 1) = min (i + 1) (rest.length - 1) + 1 + 1 := by
      simp only [length_cons]
      omega
    rw [hmi]
    simp

/-- Hash up from `x` at index `i` along its siblings. -/
def climb (h : α → α → α) : α → List α → Nat → α
  | x, [], _ => x
  | x, s :: rest, i => climb h (if i % 2 = 1 then h s x else h x s) rest (i / 2)

/-- The sibling of an entry; the last one may be its own. -/
def sibling (d : α) (l : List α) (i : Nat) : α := l.getD (min (i ^^^ 1) (l.length - 1)) d

theorem climb_cons_sibling {i : Nat} (hi : i < l.length) (rest : List α) :
    climb h (l.getD i d) (sibling d l i :: rest) i = climb h ((level h l).getD (i / 2) d) rest (i / 2) := by
  rw [climb, getD_level l i hi]
  unfold sibling
  by_cases ho : i % 2 = 1
  · rw [if_pos ho, if_pos ho, Nat.xor_one_of_odd (Nat.odd_iff.mpr ho), min_eq_left (by omega)]
  · rw [if_neg ho, if_neg ho, Nat.xor_one_of_even (Nat.even_iff.mpr (by omega))]

end CloakCoin.Lib.Merkle
