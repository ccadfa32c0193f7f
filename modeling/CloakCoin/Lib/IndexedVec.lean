import Mathlib.Tactic

/-!
# Vectors and maps with a back index

A vector of keys, each of which knows its place: `Indexed l pos` says that `pos` gives the place of every key
in `l` and of no other. Swapping two places, appending a key and removing the last
one keep the index if the places of the keys involved are updated. `Inverse m n` says the same of two maps.
-/

namespace CloakCoin.Lib

open List Function Option

variable {α β κ : Type*} {l : List κ} {pos : κ → Option Nat}

/-! ## Maps -/

section Inverse

variable [DecidableEq α] [DecidableEq β]

def Inverse (m : α → Option β) (n : β → Option α) : Prop := ∀ a b, m a = some b ↔ n b = some a

theorem Inverse.insert (h : Inverse m n) {a : α} {b : β} (ha : m a = none) (hb : n b = none) :
    Inverse (Function.update m a (some b)) (Function.update n b (some a)) := by
  intro a' b'
  by_cases haa : a' = a <;> by_cases hbb : b' = b
  · subst haa hbb
    simp
  · subst haa
    have hn : n b' ≠ some a' := by
      rw [Ne, ← h a' b', ha]
      simp
    simp [hbb, hn, Ne.symm hbb]
  · subst hbb
    have hn : m a' ≠ some b' := by
      rw [Ne, h a' b', hb]
      simp
    simp [haa, hn, Ne.symm haa]
  · simpa [haa, hbb] using h a' b'

theorem Inverse.erase (h : Inverse m n) {a : α} {b : β} (hb : n b = some a) :
    Inverse (Function.update m a none) (Function.update n b none) := by
  intro a' b'
  by_cases haa : a' = a <;> by_cases hbb : b' = b
  · subst haa hbb
    simp
  · subst haa
    have hn : n b' ≠ some a' := by
      rw [Ne, ← h a' b', (h a' b).mpr hb, some.injEq]
      exact Ne.symm hbb
    simp [hbb, hn]
  · subst hbb
    have hn : m a' ≠ some b' := by
      rw [Ne, h a' b', hb, some.injEq]
      exact Ne.symm haa
    simp [haa, hn]
  · simpa [haa, hbb] using h a' b'

end Inverse

/-! ## Vectors -/

variable [DecidableEq κ]

def Indexed (l : List κ) (pos : κ → Option Nat) : Prop := ∀ k i, pos k = some i ↔ l[i]? = some k

namespace Indexed

omit [DecidableEq κ] in
theorem nodup (h : Indexed l pos) : l.Nodup := by
  rw [nodup_iff_injective_getElem]
  intro i j hij
  have hi : pos (l.get i) = some i.1 := (h _ _).mpr (getElem?_eq_getElem i.2)
  have hj : pos (l.get j) = some j.1 := (h _ _).mpr (getElem?_eq_getElem j.2)
  replace hij : l.get i = l.get j := hij
  rw [hij, hj] at hi
  exact Fin.ext (some.inj hi).symm

omit [DecidableEq κ] in
theorem mem_iff (h : Indexed l pos) {k : κ} : k ∈ l ↔ (pos k).isSome = true := by
  rw [mem_iff_getElem?, isSome_iff_exists]
  exact exists_congr fun i => (h k i).symm

theorem push (h : Indexed l pos) {k : κ} (hk : pos k = none) :
    Indexed (l ++ [k]) (Function.update pos k (some l.length)) := by
  intro k' i
  have hl : (l ++ [k])[i]? = if i < l.length then l[i]? else if i = l.length then some k else none := by
    split
    · exact getElem?_append_left ‹_›
    rename_i hle
    rw [getElem?_append_right (not_lt.mp hle)]
    split
    · rename_i heq
      rw [heq, Nat.sub_self]
      rfl
    · exact getElem?_eq_none (by rw [length_singleton]; omega)
  rw [hl]
  by_cases hkk : k' = k
  · subst hkk
    rw [update_self]
    split
    · have hn : l[i]? ≠ some k' := fun hg => by
        rw [← h k' i, hk] at hg
        cases hg
      simp only [some.injEq, hn, iff_false]
      omega
    · split <;> simp <;> omega
  · rw [update_of_ne hkk, h k' i]
    split
    · rfl
    rename_i hle
    rw [getElem?_eq_none (not_lt.mp hle)]
    split
    · simp only [reduceCtorEq, some.injEq, false_iff]
      exact fun heq => hkk heq.symm
    · rfl

theorem swap (h : Indexed l pos) {a b : κ} {i j : Nat} (hi : l[i]? = some a) (hj : l[j]? = some b) (hij : i ≠ j) :
    Indexed ((l.set i b).set j a) (Function.update (Function.update pos a (some j)) b (some i)) := by
  have hli := (List.getElem?_eq_some_iff.mp hi).1
  have hlj := (List.getElem?_eq_some_iff.mp hj).1
  have hab : a ≠ b := by
    rintro rfl
    rw [← h a i] at hi
    rw [← h a j, hi] at hj
    exact hij (some.inj hj)
  intro k n
  have hg : ((l.set i b).set j a)[n]? = if n = j then some a else if n = i then some b else l[n]? := by
    by_cases hnj : n = j
    · subst hnj
      rw [if_pos rfl, List.getElem?_set_self (by rw [List.length_set]; exact hlj)]
    rw [if_neg hnj, List.getElem?_set_ne (Ne.symm hnj)]
    by_cases hni : n = i
    · subst hni
      rw [if_pos rfl, List.getElem?_set_self hli]
    · rw [if_neg hni, List.getElem?_set_ne (Ne.symm hni)]
  rw [hg]
  by_cases hkb : k = b
  · subst hkb
    rw [Function.update_self]
    have hold : l[n]? = some k ↔ n = j := by
      rw [← h k n, (h k j).mpr hj]
      simp [eq_comm]
    split_ifs with hnj hni
    · simp only [some.injEq]
      exact ⟨fun e => absurd (e.trans hnj) hij, fun e => absurd e hab⟩
    · simp [hni]
    · rw [hold, some.injEq]
      exact ⟨fun e => absurd e.symm hni, fun e => absurd e hnj⟩
  rw [Function.update_of_ne hkb]
  by_cases hka : k = a
  · subst hka
    rw [Function.update_self]
    have hold : l[n]? = some k ↔ n = i := by
      rw [← h k n, (h k i).mpr hi]
      simp [eq_comm]
    split_ifs with hnj hni
    · simp [hnj]
    · simp only [some.injEq]
      exact ⟨fun e => absurd (e.trans hni).symm hij, fun e => absurd e.symm hab⟩
    · rw [hold, some.injEq]
      exact ⟨fun e => absurd e.symm hnj, fun e => absurd e hni⟩
  · rw [Function.update_of_ne hka, h k n]
    split_ifs with hnj hni
    · subst hnj
      rw [hj]
      simp [Ne.symm hkb, Ne.symm hka]
    · subst hni
      rw [hi]
      simp [Ne.symm hkb, Ne.symm hka]
    · rfl

theorem pop (h : Indexed l pos) {k : κ} (hk : pos k = some (l.length - 1)) :
    Indexed l.dropLast (Function.update pos k none) := by
  intro k' i
  rw [getElem?_dropLast]
  by_cases hkk : k' = k
  · subst hkk
    split
    · have hn : l[i]? ≠ some k' := fun hg => by
        rw [← h k' i, hk] at hg
        have := some.inj hg
        omega
      simp [hn]
    · simp
  · rw [update_of_ne hkk, h k' i]
    split
    · rfl
    simp only [reduceCtorEq, iff_false]
    intro hg
    have hl : i = l.length - 1 := by
      have := (List.getElem?_eq_some_iff.mp hg).1
      omega
    rw [hl, (h k _).mp hk] at hg
    exact hkk (some.inj hg).symm

end Indexed
end CloakCoin.Lib
