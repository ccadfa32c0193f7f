import Mathlib.Tactic

/-!
# Forests of parent links

Nodes with a link to their parent and a rank that falls by one along it. `Branch parent low top l` says
that `l` lists the nodes from `top` down to `low`, `low` left out.
-/

namespace CloakCoin.Lib

open List

variable {α : Type*} {fuel : Nat} {low top x y : α} {l l' : List α}

def Ranked (parent : α → Option α) (rank : α → Nat) : Prop := ∀ ⦃a b⦄, parent a = some b → rank a = rank b + 1

inductive Branch (parent : α → Option α) (low : α) : α → List α → Prop
  | nil : Branch parent low low []
  | cons {a b : α} {l : List α} (link : parent a = some b) (rest : Branch parent low b l) :
    Branch parent low a (a :: l)

namespace Branch

variable {parent : α → Option α} {rank : α → Nat}

section
variable (hrank : Ranked parent rank) (h : Branch parent low top l)
include hrank h

theorem rank_top : rank top = rank low + l.length := by
  induction h with
  | nil => rfl
  | cons link _ ih =>
    rw [hrank link, ih, length_cons]
    omega

theorem rank_mem (hx : x ∈ l) : rank low < rank x ∧ rank x ≤ rank top := by
  induction h with
  | nil => cases hx
  | cons link rest ih =>
    have hs := hrank link
    have hr := rest.rank_top hrank
    rcases mem_cons.mp hx with rfl | hx
    · omega
    · have := ih hx
      omega

theorem nodup : l.Nodup := by
  induction h with
  | nil => exact nodup_nil
  | cons link rest ih =>
    refine nodup_cons.mpr ⟨fun hm => ?_, ih⟩
    have hs := hrank link
    have := rest.rank_mem hrank hm
    omega

end

theorem append (h : Branch parent mid top l) (h' : Branch parent low mid l') : Branch parent low top (l ++ l') := by
  induction h with
  | nil => exact h'
  | cons link _ ih => exact .cons link ih

theorem concat_iff : Branch parent low top (l ++ [x]) ↔ Branch parent x top l ∧ parent x = some low := by
  constructor
  · intro h
    induction l generalizing top with
    | nil =>
      cases h with
      | cons link rest =>
        cases rest
        exact ⟨.nil, link⟩
    | cons a l ih =>
      cases h with
      | cons link rest =>
        obtain ⟨hb, hl⟩ := ih rest
        exact ⟨.cons link hb, hl⟩
  · rintro ⟨hb, hl⟩
    exact hb.append (.cons hl .nil)

theorem split (h : Branch parent low top l) (hx : x ∈ l) :
    ∃ l1 l2, Branch parent x top l1 ∧ Branch parent low x (x :: l2) := by
  induction h with
  | nil => cases hx
  | @cons a b l link rest ih =>
    rcases mem_cons.mp hx with rfl | hx
    · exact ⟨[], l, .nil, .cons link rest⟩
    · obtain ⟨l1, l2, h1, h2⟩ := ih hx
      exact ⟨a :: l1, l2, .cons link h1, h2⟩

section
variable (hrank : Ranked parent rank)
include hrank

theorem between (h : Branch parent x top l) (h' : Branch parent y top l')
    (hle : rank x ≤ rank y) : ∃ l'', l = l' ++ l'' ∧ Branch parent x y l'' := by
  induction h' generalizing l with
  | nil => exact ⟨l, rfl, h⟩
  | cons link rest ih =>
    have hs := hrank link
    have hr := rest.rank_top hrank
    cases h with
    | nil => omega
    | cons link' rest' =>
      rw [link, Option.some.injEq] at link'
      subst link'
      obtain ⟨l'', rfl, hb⟩ := ih rest'
      exact ⟨l'', rfl, hb⟩

theorem unique (h : Branch parent low top l) (h' : Branch parent low top l') : l = l' := by
  obtain ⟨l'', rfl, hb⟩ := h.between hrank h' le_rfl
  have hl := hb.rank_top hrank
  rw [eq_nil_of_length_eq_zero (show l''.length = 0 by omega), append_nil]

theorem eq_of_rank_eq (h : Branch parent x top l) (h' : Branch parent y top l') (heq : rank x = rank y) : x = y := by
  obtain ⟨l'', -, hb⟩ := h.between hrank h' heq.le
  cases hb with
  | nil => rfl
  | cons link rest =>
    have hs := hrank link
    have hr := rest.rank_top hrank
    omega

theorem mem_or_below (h : Branch parent x top l) (h' : Branch parent low top l') :
    x ∈ l' ∨ ∃ l'', Branch parent x low l'' := by
  rcases Nat.lt_or_ge (rank low) (rank x) with hlt | hle
  · obtain ⟨l'', rfl, hb⟩ := h'.between hrank h hlt.le
    cases hb with
    | nil => omega
    | cons link rest => exact .inl (mem_append_right _ mem_cons_self)
  · obtain ⟨l'', -, hb⟩ := h.between hrank h' hle
    exact .inr ⟨l'', hb⟩

end

theorem link_of_mem (h : Branch parent low top l) (hx : x ∈ l) : ∃ z, parent x = some z := by
  obtain ⟨-, l2, -, h2⟩ := h.split hx
  cases h2 with
  | cons link rest => exact ⟨_, link⟩

theorem eq_of_link_eq (hrank : Ranked parent rank) (h : Branch parent low top l) (hx : x ∈ l) (hy : y ∈ l)
    (heq : parent x = parent y) : x = y := by
  obtain ⟨l1, -, hx', -⟩ := h.split hx
  obtain ⟨l2, -, hy', -⟩ := h.split hy
  obtain ⟨z, hz⟩ := h.link_of_mem hx
  exact hx'.eq_of_rank_eq hrank hy' ((hrank hz).trans (hrank (heq.symm.trans hz)).symm)

end Branch

/-! ## Following the links -/

section
variable [DecidableEq α] (parent : α → Option α) (rank : α → Nat)

/-- The nodes from `a` down to `low`, at most `fuel` of them. -/
def pathTo (low : α) : Nat → α → List α
  | 0, _ => []
  | fuel + 1, a =>
    if a = low then []
    else
      match parent a with
      | none => [a]
      | some b => a :: pathTo low fuel b

def meet : Nat → α → α → Option α
  | 0, _, _ => none
  | fuel + 1, a, b =>
    if a = b then some a
    else if rank b > rank a then
      match parent b with
      | none => none
      | some b => meet fuel a b
    else
      match parent a with
      | none => none
      | some a => meet fuel a b

variable {parent rank}

theorem pathTo_eq (hrank : Ranked parent rank) {low top : α} {l : List α} (h : Branch parent low top l)
    (hf : l.length ≤ fuel) : pathTo parent low fuel top = l := by
  induction h generalizing fuel with
  | nil =>
    cases fuel with
    | zero => rfl
    | succ fuel => rw [pathTo, if_pos rfl]
  | @cons a b l link rest ih =>
    obtain ⟨fuel, rfl⟩ : ∃ k, fuel = k + 1 := ⟨fuel - 1, by rw [length_cons] at hf; omega⟩
    have hne : a ≠ low := by
      intro e
      have hs := hrank link
      have hr := rest.rank_top hrank
      rw [e] at hs
      omega
    rw [pathTo, if_neg hne, link]
    dsimp only
    rw [ih (by rw [length_cons] at hf; omega)]

theorem meet_spec (hrank : Ranked parent rank) {a b c : α} (h : meet parent rank fuel a b = some c) :
    (∃ l, Branch parent c a l) ∧ (∃ l, Branch parent c b l) ∧
      ∀ x l l', Branch parent x a l → Branch parent x b l' → ∃ l'', Branch parent x c l'' := by
  induction fuel generalizing a b with
  | zero => cases h
  | succ fuel ih =>
    unfold meet at h
    split at h
    · rename_i hab
      cases h
      exact ⟨⟨[], .nil⟩, ⟨[], hab ▸ .nil⟩, fun x l l' hx _ => ⟨l, hx⟩⟩
    rename_i hab
    split at h
    · split at h
      · cases h
      rename_i b' hb'
      obtain ⟨hca, ⟨l, hcb⟩, ha⟩ := ih h
      refine ⟨hca, ⟨b :: l, .cons hb' hcb⟩, fun x l l' hxa hxb => ?_⟩
      cases hxb with
      | nil =>
        have := hxa.rank_top hrank
        omega
      | cons link rest =>
        rw [hb', Option.some.injEq] at link
        subst link
        exact ha x l _ hxa rest
    · split at h
      · cases h
      rename_i a' ha'
      obtain ⟨⟨l, hca⟩, hcb, ha⟩ := ih h
      refine ⟨⟨a :: l, .cons ha' hca⟩, hcb, fun x l l' hxa hxb => ?_⟩
      cases hxa with
      | nil =>
        cases hxb with
        | nil => exact absurd rfl hab
        | cons link rest =>
          have hs := hrank link
          have hr := rest.rank_top hrank
          omega
      | cons link rest =>
        rw [ha', Option.some.injEq] at link
        subst link
        exact ha x _ l' rest hxb

theorem isSome_meet (hrank : Ranked parent rank) {a b x : α} {l l' : List α} (ha : Branch parent x a l)
    (hb : Branch parent x b l') (hf : l.length + l'.length < fuel) : (meet parent rank fuel a b).isSome = true := by
  induction fuel generalizing a b l l' with
  | zero => omega
  | succ fuel ih =>
    unfold meet
    split
    · rfl
    rename_i hab
    have hta := ha.rank_top hrank
    split
    · cases hb with
      | nil => omega
      | cons link rest =>
        rw [link]
        rw [length_cons] at hf
        exact ih ha rest (by omega)
    cases ha with
    | nil =>
      cases hb with
      | nil => exact absurd rfl hab
      | cons link rest =>
        have hs := hrank link
        have hr := rest.rank_top hrank
        omega
    | cons link rest =>
      rw [link]
      rw [length_cons] at hf
      exact ih rest hb (by omega)

end

/-! ## Following the links forward -/

/-- The nodes from `a` on along forward links, at most `fuel` of them. -/
def follow (next : α → Option α) : Nat → α → List α
  | 0, _ => []
  | fuel + 1, a =>
    a ::
      match next a with
      | none => []
      | some b => follow next fuel b

theorem follow_eq {parent next : α → Option α} {rank : α → Nat} (hrank : Ranked parent rank) {low top : α}
    (hn : ∀ a b, next a = some b ↔ (∃ l, Branch parent b top l) ∧ parent b = some a) {l : List α}
    (h : Branch parent low top l) (hf : l.length < fuel) : follow next fuel low = low :: l.reverse := by
  induction l using List.reverseRecOn generalizing low fuel with
  | nil =>
    cases h
    obtain ⟨fuel, rfl⟩ : ∃ k, fuel = k + 1 := ⟨fuel - 1, by omega⟩
    have hno : next top = none := by
      by_contra hne
      obtain ⟨b, hb⟩ := Option.ne_none_iff_exists'.mp hne
      obtain ⟨⟨l, hl⟩, hli⟩ := (hn top b).mp hb
      have hs := hrank hli
      have := hl.rank_top hrank
      omega
    rw [follow, hno]
    rfl
  | append_singleton l x ih =>
    rw [length_append, length_singleton] at hf
    obtain ⟨fuel, rfl⟩ : ∃ k, fuel = k + 1 := ⟨fuel - 1, by omega⟩
    obtain ⟨hbr, hli⟩ := Branch.concat_iff.mp h
    rw [follow, (hn low x).mpr ⟨⟨l, hbr⟩, hli⟩]
    dsimp only
    rw [ih hbr (by omega), reverse_append]
    rfl

end CloakCoin.Lib
