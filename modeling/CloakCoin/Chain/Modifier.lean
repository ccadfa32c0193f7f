import CloakCoin.Chain.Kernel
import Mathlib.Data.List.Sort
import Mathlib.Data.Prod.Lex

/-!
# The stake modifier

`ComputeNextStakeModifier` and `SelectBlockFromCandidates`. A block is given with its ancestors, newest first, and the
hash of a candidate with the previous modifier is a parameter.
-/

namespace CloakCoin.Chain

open Wallet List Option

variable {l : List CBlockIndex}

/-- The last stake modifier and its generation time. -/
def getLastStakeModifier : List CBlockIndex → Option (Nat × Nat)
  | [] => none -- null pindex, or no generation at genesis block
  | pindex :: pprev =>
    if pindex.fStakeModifier then some (pindex.nStakeModifier, pindex.nTime) else getLastStakeModifier pprev

section
variable (hash : Hash256 → Nat → Hash256)

def hashSelection (nStakeModifierPrev : Nat) (pindex : CBlockIndex) : Hash256 :=
  if pindex.fProofOfStake then hash pindex.hashProofOfStake nStakeModifierPrev >>> 32
  else hash pindex.phashBlock nStakeModifierPrev

def selectBlockFromCandidates (m : BlockMap) (mapSelectedBlocks : List CBlockIndex) (nSelectionIntervalStop : Int)
    (nStakeModifierPrev : Nat) : List (Nat ×ₗ Hash256) → Option (CBlockIndex × Hash256) → Option CBlockIndex
  | [], best => best.map Prod.fst
  | item :: items, best =>
    match m[item.2]? with
    | none => none -- failed to find block index for candidate block
    | some pindex =>
      if best.isSome ∧ nSelectionIntervalStop < pindex.nTime then best.map Prod.fst
      else if pindex.phashBlock ∈ mapSelectedBlocks.map CBlockIndex.phashBlock then
        selectBlockFromCandidates m mapSelectedBlocks nSelectionIntervalStop nStakeModifierPrev items best
      else
        let selection := hashSelection hash nStakeModifierPrev pindex
        selectBlockFromCandidates m mapSelectedBlocks nSelectionIntervalStop nStakeModifierPrev items
          (if best.all fun b => selection < b.2 then some (pindex, selection) else best)

variable (env : Env)

def selectionIntervalStart (pindexPrev : CBlockIndex) : Int :=
  (pindexPrev.nTime / nModifierInterval env * nModifierInterval env : Nat) - getStakeModifierSelectionInterval env

/-- The blocks of the selection interval, newest first. -/
def candidates : List CBlockIndex → List CBlockIndex
  | [] => []
  | pindexPrev :: pprev => (pindexPrev :: pprev).takeWhile fun b => selectionIntervalStart env pindexPrev ≤ b.nTime

def timeKey (b : CBlockIndex) : Nat ×ₗ Hash256 := toLex (b.nTime, b.phashBlock)

def sortedByTimestamp (blocks : List CBlockIndex) : List (Nat ×ₗ Hash256) :=
  (blocks.reverse.map timeKey).insertionSort (· ≤ ·)

/-- The locals of the rounds, the selected blocks in the order of their selection. -/
structure Selection where
  nSelectionIntervalStop : Int
  nStakeModifierNew : Nat := 0
  mapSelectedBlocks : List CBlockIndex := []

/-- The first rounds of the selection. -/
def selectRounds (m : BlockMap) (vSortedByTimestamp : List (Nat ×ₗ Hash256)) (nStakeModifier : Nat) (start : Int) :
    Nat → Option Selection
  | 0 => some { nSelectionIntervalStop := start }
  | nRound + 1 => do
    let s ← selectRounds m vSortedByTimestamp nStakeModifier start nRound
    let nSelectionIntervalStop := s.nSelectionIntervalStop + getStakeModifierSelectionIntervalSection env nRound
    let pindex ← selectBlockFromCandidates hash m s.mapSelectedBlocks nSelectionIntervalStop nStakeModifier
      vSortedByTimestamp none
    some ⟨nSelectionIntervalStop, s.nStakeModifierNew ||| pindex.fStakeEntropy.toNat <<< nRound,
      s.mapSelectedBlocks ++ [pindex]⟩

def computeNextStakeModifier (m : BlockMap) : List CBlockIndex → Option (Nat × Bool)
  | [] => some (0, true) -- genesis block's modifier is 0
  | pindexPrev :: pprev => do
    let (nStakeModifier, nModifierTime) ← getLastStakeModifier (pindexPrev :: pprev)
    if pindexPrev.nTime / nModifierInterval env ≤ nModifierTime / nModifierInterval env then
      some (nStakeModifier, false)
    else
      let blocks := candidates env (pindexPrev :: pprev)
      let s ← selectRounds hash env m (sortedByTimestamp blocks) nStakeModifier (selectionIntervalStart env pindexPrev)
        (min 64 blocks.length)
      some (s.nStakeModifierNew, true)

end

/-! ## One round -/

section
variable {hash : Hash256 → Nat → Hash256} {m : BlockMap} {blocks taken : List CBlockIndex} {stop : Int} {prev : Nat}

structure Selects (hash : Hash256 → Nat → Hash256) (prev : Nat) (blocks taken : List CBlockIndex) (stop : Int)
    (b : CBlockIndex) : Prop where
  mem : b ∈ blocks
  unselected : b ∉ taken
  least : ∀ c ∈ blocks, c ∉ taken → c.nTime ≤ stop →
    b.nTime ≤ stop ∧ hashSelection hash prev b ≤ hashSelection hash prev c
  earliest : (∀ c ∈ blocks, c ∉ taken → stop < c.nTime) → ∀ c ∈ blocks, c ∉ taken → timeKey b ≤ timeKey c

/-- The index has the blocks under their hashes. -/
def InIndex (m : BlockMap) (blocks : List CBlockIndex) : Prop := ∀ b ∈ blocks, m[b.phashBlock]? = some b

theorem InIndex.mono (h : InIndex m blocks) (hs : taken ⊆ blocks) : InIndex m taken := fun b hb => h b (hs hb)

theorem InIndex.mem_map_iff (h : InIndex m blocks) (hs : taken ⊆ blocks) (hb : b ∈ blocks) :
    b.phashBlock ∈ taken.map CBlockIndex.phashBlock ↔ b ∈ taken := by
  constructor
  · intro hm
    obtain ⟨c, hc, heq⟩ := mem_map.mp hm
    have hbc : some c = some b := (h c (hs hc)).symm.trans (heq ▸ h b hb)
    exact some.inj hbc ▸ hc
  · exact mem_map_of_mem

theorem time_le_of_timeKey_le (h : timeKey b ≤ timeKey c) : b.nTime ≤ c.nTime := by
  rcases Prod.Lex.toLex_le_toLex.mp h with hlt | ⟨heq, -⟩
  · exact hlt.le
  · exact heq.le

theorem select_some (hindex : InIndex m blocks) (hsu : taken ⊆ blocks) :
    ∀ {l : List CBlockIndex} {b : CBlockIndex}, l ⊆ blocks → (b :: l).Pairwise (timeKey · ≤ timeKey ·) →
    ∃ b', selectBlockFromCandidates hash m taken stop prev (l.map timeKey)
      (some (b, hashSelection hash prev b)) = some b' ∧
      (b' = b ∨ b' ∈ l ∧ b' ∉ taken ∧ b'.nTime ≤ stop) ∧ hashSelection hash prev b' ≤ hashSelection hash prev b ∧
      ∀ c ∈ l, c ∉ taken → c.nTime ≤ stop → hashSelection hash prev b' ≤ hashSelection hash prev c
  | [], b, _, _ => ⟨b, rfl, .inl rfl, le_rfl, by simp⟩
  | x :: l, b, hl, hs => by
    have hx : m[(timeKey x).2]? = some x := hindex x (hl mem_cons_self)
    have hl' : l ⊆ blocks := fun c hc => hl (mem_cons_of_mem _ hc)
    rw [pairwise_cons, pairwise_cons] at hs
    obtain ⟨hb, hxl, hp⟩ := hs
    rw [map_cons, selectBlockFromCandidates, hx]
    simp only [isSome_some, true_and, hindex.mem_map_iff hsu (hl mem_cons_self), all_some]
    split_ifs with hst ht
    · refine ⟨b, rfl, .inl rfl, le_rfl, ?_⟩
      rintro c hc - hle
      have : x.nTime ≤ c.nTime := by
        rcases mem_cons.mp hc with rfl | hc
        · exact le_rfl
        · exact time_le_of_timeKey_le (hxl c hc)
      omega
    · obtain ⟨b', hr, hb', hle, hm⟩ := select_some hindex hsu hl'
        (pairwise_cons.mpr ⟨fun c hc => hb c (mem_cons_of_mem _ hc), hp⟩)
      exact ⟨b', hr, by grind, hle, by grind⟩
    · obtain ⟨b', hr, hb', hle, hm⟩ := select_some hindex hsu hl' (pairwise_cons.mpr ⟨hxl, hp⟩)
      exact ⟨b', hr, by grind, by grind, by grind⟩
    · obtain ⟨b', hr, hb', hle, hm⟩ := select_some hindex hsu hl'
        (pairwise_cons.mpr ⟨fun c hc => hb c (mem_cons_of_mem _ hc), hp⟩)
      exact ⟨b', hr, by grind, hle, by grind⟩

theorem select_none (hindex : InIndex m blocks) (hsu : taken ⊆ blocks) :
    ∀ {l : List CBlockIndex}, l ⊆ blocks → l.Pairwise (timeKey · ≤ timeKey ·) → (∃ c ∈ l, c ∉ taken) →
    ∃ b, selectBlockFromCandidates hash m taken stop prev (l.map timeKey) none = some b ∧
      Selects hash prev l taken stop b
  | [], _, _, hex => by simp at hex
  | x :: l, hl, hs, hex => by
    have hx : m[(timeKey x).2]? = some x := hindex x (hl mem_cons_self)
    have hl' : l ⊆ blocks := fun c hc => hl (mem_cons_of_mem _ hc)
    rw [map_cons, selectBlockFromCandidates, hx]
    simp only [isSome_none, Bool.false_eq_true, false_and, if_false, all_none, if_true,
      hindex.mem_map_iff hsu (hl mem_cons_self)]
    split_ifs with ht
    · obtain ⟨b, hr, hb⟩ := select_none hindex hsu hl' (pairwise_cons.mp hs).2 (by grind)
      have hsk : ∀ c ∈ x :: l, c ∉ taken → c ∈ l := by grind
      exact ⟨b, hr, mem_cons_of_mem _ hb.mem, hb.unselected, fun c hc hf => hb.least c (hsk c hc hf) hf,
        fun hla c hc hf => hb.earliest (fun c hc => hla c (mem_cons_of_mem _ hc)) c (hsk c hc hf) hf⟩
    obtain ⟨b, hr, hb, hle, hmi⟩ := select_some hindex hsu hl' hs
    have hfi : ∀ c ∈ x :: l, timeKey x ≤ timeKey c := by
      rintro c (_ | ⟨_, hc⟩)
      · exact le_rfl
      · exact (pairwise_cons.mp hs).1 c hc
    refine ⟨b, hr, by grind, by grind, ?_, ?_⟩
    · intro c hc hf hst
      have := time_le_of_timeKey_le (hfi c hc)
      refine ⟨?_, by grind⟩
      rcases hb with rfl | ⟨-, -, hb⟩ <;> omega
    · intro hla c hc hf
      rcases hb with rfl | ⟨hm, hf', hb⟩
      · exact hfi c hc
      · exact absurd (hla b (mem_cons_of_mem _ hm) hf') (by omega)

theorem select_congr (h : InIndex m l) (h' : InIndex m' l)
    (best : Option (CBlockIndex × Hash256)) : selectBlockFromCandidates hash m taken stop prev (l.map timeKey) best =
      selectBlockFromCandidates hash m' taken stop prev (l.map timeKey) best := by
  induction l generalizing best with
  | nil => rfl
  | cons x l ih =>
    have hx : m[(timeKey x).2]? = some x := h x mem_cons_self
    have hx' : m'[(timeKey x).2]? = some x := h' x mem_cons_self
    simp [selectBlockFromCandidates, hx, hx', ih (h.mono (subset_cons_self x l)) (h'.mono (subset_cons_self x l))]

theorem sortedByTimestamp_eq (blocks : List CBlockIndex) :
    ∃ l : List CBlockIndex, sortedByTimestamp blocks = l.map timeKey ∧
    l.Perm blocks ∧ l.Pairwise (timeKey · ≤ timeKey ·) := by
  refine ⟨blocks.reverse.insertionSort (timeKey · ≤ timeKey ·), ?_, ?_, ?_⟩
  · exact (map_insertionSort _ _ timeKey _ fun _ _ _ _ => Iff.rfl).symm
  · exact (perm_insertionSort _ _).trans blocks.reverse_perm
  · exact pairwise_insertionSort _ _

end

/-! ## A block and its ancestors -/

/-- Each block is followed by its parent, the last one has none. -/
def Ancestry : List CBlockIndex → Prop
  | [] => True
  | b :: l => b.pprev = l.head?.map CBlockIndex.phashBlock ∧ Ancestry l

section
variable {hash : Hash256 → Nat → Hash256} {env : Env} {m : BlockMap} {chain : List CBlockIndex}

theorem Ancestry.eq_of_head? : ∀ {l l' : List CBlockIndex}, Ancestry l → Ancestry l' → InIndex m l → InIndex m l' →
    l.head?.map CBlockIndex.phashBlock = l'.head?.map CBlockIndex.phashBlock → l = l'
  | [], [], _, _, _, _, _ => rfl
  | b :: l, c :: l', hl, hl', hm, hm', hh => by
    have hha : b.phashBlock = c.phashBlock := some.inj hh
    have hbc : some b = some c := (hm b mem_cons_self).symm.trans (hha ▸ hm' c mem_cons_self)
    obtain rfl := some.inj hbc
    rw [hl.2.eq_of_head? hl'.2 (hm.mono (subset_cons_self b l)) (hm'.mono (subset_cons_self b l'))
      (hl.1.symm.trans hl'.1)]

theorem Ancestry.of_append : ∀ {s : List CBlockIndex}, Ancestry (s ++ l) → Ancestry l
  | [], h => h
  | _ :: _, h => of_append h.2

theorem Ancestry.nodup : ∀ {l : List CBlockIndex}, Ancestry l → InIndex m l → l.Nodup
  | [], _, _ => nodup_nil
  | b :: l, h, hm => by
    refine nodup_cons.mpr ⟨fun hme => ?_, h.2.nodup (hm.mono (subset_cons_self b l))⟩
    obtain ⟨s, t, rfl⟩ := append_of_mem hme
    have hbt : Ancestry (b :: t) := Ancestry.of_append h.2
    have heq := h.eq_of_head? hbt hm (hm.mono fun c hc => by grind) rfl
    have := congrArg length heq
    simp only [length_cons, length_append] at this
    omega

theorem isSome_getLastStakeModifier (hge : ∀ g ∈ chain.getLast?, g.fStakeModifier) (hne : chain ≠ []) :
    (getLastStakeModifier chain).isSome := by
  fun_induction getLastStakeModifier chain with
  | case1 => exact absurd rfl hne
  | case2 => rfl
  | case3 b l hb ih =>
    have hl : l ≠ [] := by
      rintro rfl
      exact hb (hge b rfl)
    exact ih (fun g hg => hge g (by rwa [getLast?_cons_of_ne_nil hl])) hl

/-- The end of the interval of round `r`. -/
def roundStop (env : Env) (start : Int) (r : Nat) : Int :=
  start + ((range (r + 1)).map (getStakeModifierSelectionIntervalSection env)).sum

/-- `picks` are selected round by round and give the bits. -/
structure Chosen (hash : Hash256 → Nat → Hash256) (env : Env) (blocks : List CBlockIndex) (prev : Nat) (start : Int)
    (picks : List CBlockIndex) (nStakeModifier : Nat) : Prop where
  nodup : picks.Nodup
  selects : ∀ r b, picks[r]? = some b → Selects hash prev blocks (picks.take r) (roundStop env start r) b
  bits : ∀ i, nStakeModifier.testBit i = picks[i]?.any CBlockIndex.fStakeEntropy

theorem Chosen.append {prev new : Nat} (h : Chosen hash env blocks prev start picks new) {b : CBlockIndex}
    (hb : Selects hash prev blocks picks (roundStop env start picks.length) b) :
    Chosen hash env blocks prev start (picks ++ [b]) (new ||| b.fStakeEntropy.toNat <<< picks.length) where
  nodup := by
    have := hb.unselected
    grind [h.nodup]
  selects r c hc := by
    rcases Nat.lt_trichotomy r picks.length with hr | rfl | hr
    · rw [getElem?_append_left hr] at hc
      rw [take_append_of_le_length hr.le]
      exact h.selects r c hc
    · obtain rfl : b = c := by simpa using hc
      rwa [take_left]
    · simp [getElem?_eq_none_iff.mpr (show (picks ++ [b]).length ≤ r by simpa using hr)] at hc
  bits i := by
    rw [Nat.testBit_or, h.bits, Nat.testBit_shiftLeft]
    rcases Nat.lt_trichotomy i picks.length with hi | rfl | hi
    · simp [getElem?_append_left hi, Nat.not_le.mpr hi]
    · cases hbi : b.fStakeEntropy <;> simp [hbi]
    · have h0 : (b.fStakeEntropy.toNat).testBit (i - picks.length) = false :=
        Nat.testBit_lt_two_pow (b.fStakeEntropy.toNat_lt.trans_le (Nat.le_self_pow (by omega) 2))
      simp [h0, getElem?_append_right hi.le, getElem?_eq_none_iff.mpr hi.le, show i - picks.length ≠ 0 by omega]

theorem Selects.congr {prev : Nat} {b : CBlockIndex} (hp : l.Perm blocks)
    (h : Selects hash prev l taken stop b) : Selects hash prev blocks taken stop b := by
  obtain ⟨hm, hf, hl, he⟩ := h
  simp only [hp.mem_iff] at hm hl he
  exact ⟨hm, hf, hl, he⟩

section
variable {blocks : List CBlockIndex} {prev : Nat} {start : Int} (hindex : InIndex m blocks)
include hindex

theorem selectRounds_spec (hn : blocks.Nodup) (hk : k ≤ blocks.length) :
    ∃ s, selectRounds hash env m (sortedByTimestamp blocks) prev start k = some s ∧
      s.nSelectionIntervalStop = start + ((range k).map (getStakeModifierSelectionIntervalSection env)).sum ∧
      s.mapSelectedBlocks.length = k ∧ Chosen hash env blocks prev start s.mapSelectedBlocks s.nStakeModifierNew := by
  induction k with
  | zero => exact ⟨_, rfl, by simp, rfl, nodup_nil, by simp, by simp⟩
  | succ k ih =>
    obtain ⟨s, hru, hst, hl, hs⟩ := ih (by omega)
    obtain ⟨l, hso, hp, hpa⟩ := sortedByTimestamp_eq blocks
    have hsu : s.mapSelectedBlocks ⊆ blocks := by
      intro b hb
      obtain ⟨r, hr⟩ := mem_iff_getElem?.mp hb
      exact (hs.selects r b hr).mem
    have hf : ∃ c ∈ l, c ∉ s.mapSelectedBlocks := by
      by_contra ha
      push Not at ha
      have := (hn.subperm fun c hc => ha c (hp.mem_iff.mpr hc)).length_le
      omega
    have hne : s.nSelectionIntervalStop + getStakeModifierSelectionIntervalSection env k = roundStop env start k := by
      rw [hst, roundStop, range_succ, map_append, sum_append, map_singleton, sum_singleton]
      push_cast
      ring
    obtain ⟨b, hse, hb⟩ : ∃ b, selectBlockFromCandidates hash m s.mapSelectedBlocks (roundStop env start k) prev
        (l.map timeKey) none = some b ∧ Selects hash prev l s.mapSelectedBlocks (roundStop env start k) b :=
      select_none hindex hsu hp.subset hpa hf
    rw [← hso] at hse
    refine ⟨⟨roundStop env start k, s.nStakeModifierNew ||| b.fStakeEntropy.toNat <<< k, s.mapSelectedBlocks ++ [b]⟩,
      ?_, rfl, by simp [hl], ?_⟩
    · simp [selectRounds, hru, hse, hne]
    · have hap := hs.append (hl.symm ▸ hb.congr hp)
      rwa [hl] at hap

theorem selectRounds_congr (hi' : InIndex m' blocks) (k : Nat) :
    selectRounds hash env m (sortedByTimestamp blocks) prev start k =
      selectRounds hash env m' (sortedByTimestamp blocks) prev start k := by
  obtain ⟨l, hs, hp, -⟩ := sortedByTimestamp_eq blocks
  rw [hs]
  induction k with
  | zero => rfl
  | succ k ih => simp only [selectRounds, ih, select_congr (hindex.mono hp.subset) (hi'.mono hp.subset)]

end

theorem candidates_sublist (env : Env) (chain : List CBlockIndex) : (candidates env chain).Sublist chain := by
  cases chain with
  | nil => exact Sublist.refl _
  | cons => exact takeWhile_sublist _

/-- **The next stake modifier** is computed for every block whose ancestors are indexed, depends on nothing else, and
is made of the entropy bits of the blocks that the rounds select. -/
theorem nextStakeModifier_spec (hash : Hash256 → Nat → Hash256) (env : Env) {m m' : BlockMap} {chain : List CBlockIndex}
    (hchain : Ancestry chain) (hindex : InIndex m chain) (hindex' : InIndex m' chain)
    (hgen : ∀ g ∈ chain.getLast?, g.fStakeModifier) :
    computeNextStakeModifier hash env m chain = computeNextStakeModifier hash env m' chain ∧
    ∃ nStakeModifier fGeneratedStakeModifier,
      computeNextStakeModifier hash env m chain = some (nStakeModifier, fGeneratedStakeModifier) ∧
      (fGeneratedStakeModifier = true → ∃ picks : List CBlockIndex,
        picks.length = min 64 (candidates env chain).length ∧
        Chosen hash env (candidates env chain) ((getLastStakeModifier chain).elim 0 Prod.fst)
          (chain.head?.elim 0 (selectionIntervalStart env)) picks nStakeModifier) := by
  have hb := hindex.mono (candidates_sublist env chain).subset
  have hb' := hindex'.mono (candidates_sublist env chain).subset
  have hn := (hchain.nodup hindex).sublist (candidates_sublist env chain)
  cases chain with
  | nil => exact ⟨rfl, 0, true, rfl, fun _ => ⟨[], rfl, nodup_nil, by simp, by simp⟩⟩
  | cons pindexPrev pprev =>
    obtain ⟨⟨nStakeModifier, nModifierTime⟩, hl⟩ := isSome_iff_exists.mp
      (isSome_getLastStakeModifier hgen (cons_ne_nil _ _))
    simp only [computeNextStakeModifier, hl, bind_eq_bind, bind_some, selectRounds_congr hb hb',
      true_and]
    split_ifs with hold
    · exact ⟨_, _, rfl, by simp⟩
    · obtain ⟨s, hrun, -, hlen, hs⟩ := selectRounds_spec hb' hn (min_le_right _ _)
      rw [hrun]
      exact ⟨_, _, rfl, fun _ => ⟨_, hlen, hs⟩⟩

end

namespace ModifierSample

def genesis : CBlockIndex := { Sample.entry 1 none 1 0 0 (Sample.block 0 0 0 []) with fStakeModifier := true }

def next : CBlockIndex := { Sample.entry 2 (some 1) 1 1 1 (Sample.block 1 0 1000 []) with fStakeEntropy := true }

def index : BlockMap := ((∅ : BlockMap).insert 1 genesis).insert 2 next

end ModifierSample

theorem nextStakeModifier_two :
    let chain := [ModifierSample.next, ModifierSample.genesis]
    computeNextStakeModifier (· + ·) (Sample.env [] []) ModifierSample.index chain = some (2, true) ∧
      ∃ picks : List CBlockIndex, picks.length = 2 ∧
        Chosen (· + ·) (Sample.env [] []) (candidates (Sample.env [] []) chain) 0
          (selectionIntervalStart (Sample.env [] []) ModifierSample.next) picks 2 := by
  intro chain
  have hindex : InIndex ModifierSample.index chain := by
    intro b hb
    rcases mem_pair.mp hb with rfl | rfl <;> decide +kernel
  have hc : Ancestry chain := ⟨rfl, rfl, trivial⟩
  have hm : computeNextStakeModifier (· + ·) (Sample.env [] []) ModifierSample.index chain = some (2, true) := by
    decide +kernel
  obtain ⟨-, _, _, hs, hp⟩ := nextStakeModifier_spec (· + ·) (Sample.env [] []) hc hindex hindex
    (by decide +kernel)
  cases hm.symm.trans hs
  obtain ⟨picks, hlen, hch⟩ := hp rfl
  exact ⟨hm, picks, hlen.trans (by decide +kernel), hch⟩

end CloakCoin.Chain
