import CloakCoin.Chain.SigHash
import CloakCoin.Enigma.Submit
import CloakCoin.Lib.Lists

/-!
# Merging sign responses

`AddSignedInputsToTx` keeps for every input of the joint transaction the longer of two signatures, whoever has
sent it.
-/

namespace CloakCoin.Enigma

open Chain Lib Wallet
open Std (ExtTreeMap)
open List Option

variable {txin : CTxIn} {i : Nat} {r' : CCloakingRequest}

/-! ## One response -/

variable (r : CCloakingRequest) (sr : CCloakingSignResponse)

def CCloakingRequest.receiveSignatures : CCloakingRequest :=
  if r.aborted then r
  else if sr.signingAddress ∈ r.signedByAddresses then r
  else (addSignedInputsToTx r sr).2

def CCloakingRequest.counts : Bool :=
  !r.aborted && decide (sr.signingAddress ∉ r.signedByAddresses) && decide (sr.signatures.length = r.jointVin.length)

def CCloakingSignResponse.signature (i : Nat) : CScript := sr.signatures.getD i []

/-- The participant brought the input. -/
def CCloakingRequest.Owns (key : PubKeyHex) (txin : CTxIn) : Prop :=
  ∃ p ∈ r.sParticipants, p.pubKey = key ∧ txin.prevout ∈ p.inOuts.vin.map CTxIn.prevout

instance (r : CCloakingRequest) (key : PubKeyHex) (txin : CTxIn) : Decidable (r.Owns key txin) :=
  inferInstanceAs (Decidable (∃ p ∈ r.sParticipants, _))

/-- No input belongs to two participants. -/
def CCloakingRequest.OneOwner : Prop :=
  ∀ txin ∈ r.jointVin, ∀ key key', r.Owns key txin → r.Owns key' txin → key = key'

/-- The response has no longer signature for an input of others. -/
def CCloakingRequest.Fair : Prop :=
  ∀ (i : Nat) (txin : CTxIn), r.jointVin[i]? = some txin → ¬r.Owns sr.signingAddress txin →
    (sr.signature i).length ≤ txin.scriptSig.length

/-- The response changes inputs of its signer only. -/
def CCloakingRequest.ChangesOnlyOwn : Prop :=
  ∀ (i : Nat) (txin : CTxIn), r.jointVin[i]? = some txin → (r.receiveSignatures sr).jointVin[i]? ≠ some txin →
    r.Owns sr.signingAddress txin

/-- Input `i` of the joint transaction is signed. -/
def CCloakingRequest.Verifies (env : EnigmaEnv) (r : CCloakingRequest) (i : Nat) (prevPubKey : CScript) : Prop :=
  ∃ txin, r.jointVin[i]? = some txin ∧ env.verifyScript txin.scriptSig prevPubKey (RawTx.tx r.signedrawtx) i = true

/-- A signature does not depend on other signatures. -/
def SignsContent (env : EnigmaEnv) : Prop :=
  ∀ sig prevPubKey (tx : CTransaction) vin i, vin.map CTxIn.unsigned = tx.vin.map CTxIn.unsigned →
    env.verifyScript sig prevPubKey { tx with vin := vin } i = env.verifyScript sig prevPubKey tx i

section
variable {r : CCloakingRequest} {sr : CCloakingSignResponse}

theorem unsigned_mergeSignature (txin : CTxIn) (sig : CScript) :
    (mergeSignature txin sig).unsigned = txin.unsigned := by
  unfold mergeSignature
  split <;> rfl

theorem length_le_mergeSignature (txin : CTxIn) (sig : CScript) :
    txin.scriptSig.length ≤ (mergeSignature txin sig).scriptSig.length := by
  unfold mergeSignature
  split
  · exact Nat.le_of_lt ‹_›
  · exact le_rfl

theorem mergeSignature_eq_self_iff : mergeSignature txin sig = txin ↔ sig.length ≤ txin.scriptSig.length := by
  unfold mergeSignature
  split
  · constructor
    · intro h
      have hs : sig = txin.scriptSig := congrArg CTxIn.scriptSig h
      rw [hs]
    · omega
  · exact ⟨fun _ => by omega, fun _ => rfl⟩

structure Merged (r : CCloakingRequest) (sr : CCloakingSignResponse) (r' : CCloakingRequest) : Prop where
  aborted : r'.aborted = r.aborted
  participants : r'.sParticipants = r.sParticipants
  signers : r'.signedByAddresses = if r.counts sr then insert sr.signingAddress r.signedByAddresses
    else r.signedByAddresses
  tx : RawTx.tx r'.signedrawtx = { RawTx.tx r.signedrawtx with vin := r'.jointVin }
  input : ∀ i, r'.jointVin[i]? = (r.jointVin[i]?).map fun txin =>
    if r.counts sr then mergeSignature txin (sr.signature i) else txin

theorem Merged.of_not_counts (h : r.counts sr = false) : Merged r sr r where
  aborted := rfl
  participants := rfl
  signers := by rw [h, if_neg Bool.false_ne_true]
  tx := rfl
  input i := by simp [h]

theorem getElem?_zipWith_mergeSignature (h : sr.signatures.length = vin.length) (i : Nat) :
    (zipWith mergeSignature vin sr.signatures)[i]? =
      (vin[i]?).map fun txin => mergeSignature txin (sr.signature i) := by
  rw [getElem?_zipWith]
  rcases hi : vin[i]? with _ | txin
  · rfl
  have hlt : i < sr.signatures.length := by
    rw [h]
    exact (List.getElem?_eq_some_iff.mp hi).1
  simp [CCloakingSignResponse.signature, getD_eq_getElem?_getD, getElem?_eq_getElem hlt]

theorem Merged.of_counts (h : r.counts sr = true) (ha : r'.aborted = r.aborted)
    (hp : r'.sParticipants = r.sParticipants) (hs : r'.signedByAddresses = insert sr.signingAddress r.signedByAddresses)
    (htx : RawTx.tx r'.signedrawtx = { RawTx.tx r.signedrawtx with vin := r'.jointVin })
    (hv : r'.jointVin = zipWith mergeSignature r.jointVin sr.signatures) : Merged r sr r' where
  aborted := ha
  participants := hp
  signers := by rw [h, if_pos rfl, hs]
  tx := htx
  input i := by
    have hl : sr.signatures.length = r.jointVin.length := by
      simp only [CCloakingRequest.counts, Bool.and_eq_true, decide_eq_true_eq] at h
      exact h.2
    simp [h, hv, getElem?_zipWith_mergeSignature hl]

theorem receiveSignatures_merged (r : CCloakingRequest) (sr : CCloakingSignResponse) :
    Merged r sr (r.receiveSignatures sr) := by
  unfold CCloakingRequest.receiveSignatures addSignedInputsToTx
  dsimp only
  split_ifs with ha hs hl hsa
  · exact .of_not_counts (by simp [CCloakingRequest.counts, ha])
  · exact .of_not_counts (by simp [CCloakingRequest.counts, hs])
  · exact .of_not_counts (by simp [CCloakingRequest.counts, CCloakingRequest.jointVin, hl])
  · refine .of_counts (by simp [CCloakingRequest.counts, CCloakingRequest.jointVin, ha, hs,
      not_not.mp hl]) rfl rfl rfl rfl ?_
    rfl
  · refine .of_counts (by simp [CCloakingRequest.counts, CCloakingRequest.jointVin, ha, hs,
      not_not.mp hl]) rfl rfl rfl rfl ?_
    exact (not_not.mp hsa).symm

namespace Merged

theorem length_jointVin (h : Merged r sr r') : r'.jointVin.length = r.jointVin.length := by
  have hn : ∀ i : Nat, r'.jointVin[i]? = none ↔ r.jointVin[i]? = none := by
    intro i
    rw [h.input i, map_eq_none_iff]
  apply le_antisymm
  · exact getElem?_eq_none_iff.mp ((hn _).mpr (getElem?_eq_none_iff.mpr le_rfl))
  · exact getElem?_eq_none_iff.mp ((hn _).mp (getElem?_eq_none_iff.mpr le_rfl))

theorem counts_eq (h : Merged r sr r') (hne : sr'.signingAddress ≠ sr.signingAddress) :
    r'.counts sr' = r.counts sr' := by
  have hs : sr'.signingAddress ∈ r'.signedByAddresses ↔ sr'.signingAddress ∈ r.signedByAddresses := by
    rw [h.signers]
    split
    · simp [hne]
    · rfl
  unfold CCloakingRequest.counts
  rw [h.aborted, h.length_jointVin]
  simp only [hs]

end Merged

theorem changesOnlyOwn_iff (hco : r.counts sr = true) : r.ChangesOnlyOwn sr ↔ r.Fair sr := by
  have hin : ∀ (i : Nat) (txin : CTxIn), r.jointVin[i]? = some txin →
      ((r.receiveSignatures sr).jointVin[i]? = some txin ↔ (sr.signature i).length ≤ txin.scriptSig.length) := by
    intro i txin hi
    rw [(receiveSignatures_merged r sr).input i, hi, map_some, if_pos hco, some_inj]
    exact mergeSignature_eq_self_iff
  constructor
  · intro h i txin hi ho
    by_contra hl
    exact ho (h i txin hi fun hs => hl ((hin i txin hi).mp hs))
  · intro h i txin hi hc
    by_contra ho
    exact hc ((hin i txin hi).mpr (h i txin hi ho))

end

/-! ## Runs -/

structure Advanced (r r' : CCloakingRequest) : Prop where
  participants : r'.sParticipants = r.sParticipants
  tx : RawTx.tx r'.signedrawtx = { RawTx.tx r.signedrawtx with vin := r'.jointVin }
  unsigned : r'.jointVin.map CTxIn.unsigned = r.jointVin.map CTxIn.unsigned
  longer : ∀ (i : Nat) (txin txin' : CTxIn), r.jointVin[i]? = some txin → r'.jointVin[i]? = some txin' →
    txin.scriptSig.length ≤ txin'.scriptSig.length

namespace Advanced

variable {r r₁ r₂ : CCloakingRequest} {sr : CCloakingSignResponse}

theorem refl (r : CCloakingRequest) : Advanced r r := by
  refine ⟨rfl, rfl, rfl, ?_⟩
  intro i txin txin' h h'
  rw [h] at h'
  cases h'
  exact le_rfl

theorem getElem? (h : Advanced r r₁) (hi : r₁.jointVin[i]? = some txin1) :
    ∃ txin, r.jointVin[i]? = some txin ∧ txin.prevout = txin1.prevout := by
  have hm := congrArg (fun l : List CTxIn => l[i]?) h.unsigned
  simp only [getElem?_map, hi, map_some] at hm
  obtain ⟨txin, ht, heq⟩ := map_eq_some_iff.mp hm.symm
  have hp : txin.unsigned.prevout = txin1.unsigned.prevout := by rw [heq]
  exact ⟨txin, ht, hp⟩

theorem trans (h1 : Advanced r r₁) (h2 : Advanced r₁ r₂) : Advanced r r₂ := by
  refine ⟨h2.participants.trans h1.participants, by rw [h2.tx, h1.tx], h2.unsigned.trans h1.unsigned, ?_⟩
  intro i txin txin2 h h'
  obtain ⟨txin1, hi, -⟩ := h2.getElem? h'
  exact (h1.longer i txin txin1 h hi).trans (h2.longer i txin1 txin2 hi h')

theorem owns_iff (h : Advanced r r₁) (key : PubKeyHex) (hs : txin.prevout = txin1.prevout) :
    r₁.Owns key txin1 ↔ r.Owns key txin := by
  unfold CCloakingRequest.Owns
  rw [h.participants, hs]

theorem receiveSignatures (r : CCloakingRequest) (sr : CCloakingSignResponse) :
    Advanced r (r.receiveSignatures sr) := by
  have h := receiveSignatures_merged r sr
  refine ⟨h.participants, h.tx, ext_getElem? ?_, ?_⟩
  · intro i
    rw [List.getElem?_map, List.getElem?_map, h.input i, Option.map_map]
    congr 1
    funext txin
    split
    · exact unsigned_mergeSignature _ _
    · rfl
  · intro i txin txin' hi hi'
    rw [h.input i, hi, map_some] at hi'
    cases hi'
    split
    · exact length_le_mergeSignature _ _
    · exact le_rfl

theorem foldl (r : CCloakingRequest) (srs : List CCloakingSignResponse) :
    Advanced r (srs.foldl CCloakingRequest.receiveSignatures r) := by
  refine foldlRecOn (motive := Advanced r) srs _ (.refl r) ?_
  intro r' h sr _
  exact h.trans (.receiveSignatures r' sr)

theorem fair (h : Advanced r r₁) (hfair : r.Fair sr) : r₁.Fair sr := by
  intro i txin1 hi ho
  obtain ⟨txin, ht, hs⟩ := h.getElem? hi
  have ho' : ¬r.Owns sr.signingAddress txin := fun how => ho ((h.owns_iff _ hs).mpr how)
  exact (hfair i txin ht ho').trans (h.longer i txin txin1 ht hi)

end Advanced

section
variable {r : CCloakingRequest} {sr : CCloakingSignResponse}

theorem CCloakingRequest.Fair.changesOnlyOwn (h : r.Fair sr) : r.ChangesOnlyOwn sr := by
  by_cases hc : r.counts sr = true
  · exact (changesOnlyOwn_iff hc).mpr h
  · intro i txin hi hch
    refine absurd ?_ hch
    rw [(receiveSignatures_merged r sr).input i, hi, map_some, if_neg hc]

variable {srs : List CCloakingSignResponse}

theorem foldl_other (hfair : ∀ sr ∈ srs, r.Fair sr) (hi : r.jointVin[i]? = some txin)
    (ho : ∀ sr ∈ srs, ¬r.Owns sr.signingAddress txin) :
    (srs.foldl CCloakingRequest.receiveSignatures r).jointVin[i]? = some txin := by
  induction srs using reverseRecOn with
  | nil => exact hi
  | append_singleton srs sr ih =>
    have hr := ih (fun sr' h => hfair sr' (mem_append_left _ h))
      fun sr' h => ho sr' (mem_append_left _ h)
    have ha := Advanced.foldl r srs
    have hl : sr ∈ srs ++ [sr] := mem_append_right _ mem_cons_self
    rw [foldl_append, foldl_cons, foldl_nil]
    by_contra hc
    have how := (ha.fair (hfair sr hl)).changesOnlyOwn i txin hr hc
    exact ho sr hl ((ha.owns_iff _ rfl).mp how)

/-! ## The order of arrival -/

theorem foldl_mergeSignature_filter (sigs : List CScript) (hn : n ≤ txin.scriptSig.length) :
    sigs.foldl mergeSignature txin = (sigs.filter fun sig => n < sig.length).foldl mergeSignature txin := by
  induction sigs generalizing txin with
  | nil => rfl
  | cons sig sigs ih =>
    rw [foldl_cons, filter_cons]
    split_ifs with hl
    · exact ih (hn.trans (length_le_mergeSignature txin sig))
    · have hs : sig.length ≤ txin.scriptSig.length := (by simpa using hl : sig.length ≤ n).trans hn
      rw [mergeSignature_eq_self_iff.mpr hs]
      exact ih hn

theorem jointVin_foldl (hnodup : (srs.map CCloakingSignResponse.signingAddress).Nodup) (i : Nat) :
    (srs.foldl CCloakingRequest.receiveSignatures r).jointVin[i]? = (r.jointVin[i]?).map fun txin =>
      ((srs.filter r.counts).map fun sr => sr.signature i).foldl mergeSignature txin := by
  induction srs generalizing r with
  | nil => simp
  | cons sr srs ih =>
    rw [map_cons, nodup_cons] at hnodup
    have hm := receiveSignatures_merged r sr
    have hs : srs.filter (r.receiveSignatures sr).counts = srs.filter r.counts := by
      apply filter_congr
      intro sr' hs'
      apply hm.counts_eq
      intro heq
      exact hnodup.1 (heq ▸ mem_map_of_mem hs')
    rw [List.foldl_cons, ih hnodup.2, hs, hm.input i, Option.map_map, List.filter_cons]
    congr 1
    funext txin
    cases hc : r.counts sr with
    | true => simp
    | false => simp

section
variable (hfair : ∀ sr ∈ srs, r.Fair sr) (howner : r.OneOwner)
  (hnodup : (srs.map CCloakingSignResponse.signingAddress).Nodup)
include hfair howner hnodup

theorem length_effective_le (hi : r.jointVin[i]? = some txin) :
    (srs.filter fun sr => txin.scriptSig.length < (sr.signature i).length).length ≤ 1 := by
  have hsu : (srs.filter fun sr => txin.scriptSig.length < (sr.signature i).length).Sublist srs :=
    filter_sublist
  have hn' := (hsu.map CCloakingSignResponse.signingAddress).nodup hnodup
  have ho : ∀ sr ∈ srs.filter fun sr => txin.scriptSig.length < (sr.signature i).length,
      r.Owns sr.signingAddress txin := by
    intro sr hsr
    obtain ⟨hm, hl⟩ := mem_filter.mp hsr
    by_contra hot
    exact absurd (hfair sr hm i txin hi hot) (Nat.not_le.mpr (of_decide_eq_true hl))
  generalize (srs.filter fun sr => txin.scriptSig.length < (sr.signature i).length) = l at hn' ho
  match l with
  | [] => exact Nat.zero_le 1
  | [sr] => exact le_rfl
  | sr :: sr' :: l =>
    have hs := howner txin (mem_of_getElem? hi) _ _ (ho sr mem_cons_self)
      (ho sr' (mem_cons_of_mem _ mem_cons_self))
    simp [hs] at hn'

theorem jointVin_foldl_perm {srs' : List CCloakingSignResponse} (hp : srs'.Perm srs) :
    (srs'.foldl CCloakingRequest.receiveSignatures r).jointVin =
      (srs.foldl CCloakingRequest.receiveSignatures r).jointVin := by
  apply ext_getElem?
  intro i
  have hn' : (srs'.map CCloakingSignResponse.signingAddress).Nodup :=
    (hp.map CCloakingSignResponse.signingAddress).nodup_iff.mpr hnodup
  rw [jointVin_foldl hnodup, jointVin_foldl hn']
  rcases hi : r.jointVin[i]? with _ | txin
  · rfl
  have he := length_effective_le hfair howner hnodup hi
  have hf : ∀ l : List CCloakingSignResponse, (((l.filter r.counts).map fun sr => sr.signature i).filter
      fun sig => txin.scriptSig.length < sig.length) = ((l.filter fun sr =>
        txin.scriptSig.length < (sr.signature i).length).filter r.counts).map fun sr => sr.signature i := by
    intro l
    rw [List.filter_map, List.filter_filter, List.filter_filter]
    congr 2
    funext sr
    exact Bool.and_comm _ _
  have hs := eq_of_perm_of_length_le_one
    (hp.filter fun sr => txin.scriptSig.length < (sr.signature i).length) he
  rw [map_some, map_some, foldl_mergeSignature_filter _ le_rfl, hf, hs, ← hf,
    ← foldl_mergeSignature_filter _ le_rfl]

end

end

/-! ## Good signatures -/

/-- **Runs of fair responses**, one of each signer, for inputs with one owner each: a response changes inputs of its
participant only, what others send leaves a good signature good, and the order of arrival does not matter. -/
theorem merged_signatures_kept (env : EnigmaEnv) (henv : SignsContent env) (r : CCloakingRequest)
    (srs : List CCloakingSignResponse) (hfair : ∀ sr ∈ srs, r.Fair sr) (howner : r.OneOwner)
    (hnodup : (srs.map CCloakingSignResponse.signingAddress).Nodup) :
    (∀ l₁ sr l₂, srs = l₁ ++ sr :: l₂ → (l₁.foldl CCloakingRequest.receiveSignatures r).ChangesOnlyOwn sr) ∧
      (∀ l₁ l₂, srs = l₁ ++ l₂ → ∀ (i : Nat) (prevPubKey : CScript),
        (l₁.foldl CCloakingRequest.receiveSignatures r).Verifies env i prevPubKey →
        (∀ txin, r.jointVin[i]? = some txin → ∀ sr ∈ l₂, ¬r.Owns sr.signingAddress txin) →
        (srs.foldl CCloakingRequest.receiveSignatures r).Verifies env i prevPubKey) ∧
      ∀ srs' : List CCloakingSignResponse, srs'.Perm srs → (srs'.foldl CCloakingRequest.receiveSignatures r).jointVin =
        (srs.foldl CCloakingRequest.receiveSignatures r).jointVin := by
  refine ⟨?_, ?_, fun srs' hp => jointVin_foldl_perm hfair howner hnodup hp⟩
  · rintro l₁ sr l₂ rfl
    exact ((Advanced.foldl r l₁).fair (hfair sr (by simp))).changesOnlyOwn
  · rintro l₁ l₂ rfl i prevPubKey ⟨txin₁, hi, hv⟩ ho
    have hb := Advanced.foldl r l₁
    obtain ⟨txin, ht, hs⟩ := hb.getElem? hi
    rw [foldl_append]
    generalize l₁.foldl CCloakingRequest.receiveSignatures r = r₁ at hb hi hv ⊢
    have ha := Advanced.foldl r₁ l₂
    have hk : (l₂.foldl CCloakingRequest.receiveSignatures r₁).jointVin[i]? = some txin₁ := by
      apply foldl_other _ hi
      · intro sr hsr hown
        exact ho txin ht sr hsr ((hb.owns_iff _ hs).mp hown)
      · intro sr hsr
        exact hb.fair (hfair sr (mem_append_right _ hsr))
    refine ⟨txin₁, hk, ?_⟩
    rw [ha.tx, henv _ _ _ _ _ ha.unsigned]
    exact hv

/-! ### Two participants -/

namespace Sample

noncomputable def strictEnv : EnigmaEnv := { env [] with verifyScript := fun sig _ _ _ => sig == [5] }

def jointRequest : CCloakingRequest :=
  { sendRequest with
    nParticipantsRequired := 2
    sParticipants := [⟨2, 2, { vin := [{ prevout := ⟨1, 0⟩ }] }⟩, ⟨3, 3, { vin := [{ prevout := ⟨1, 1⟩ }] }⟩]
    signedrawtx := some [{ nTime := 5, vin := [{ prevout := ⟨1, 0⟩ }, { prevout := ⟨1, 1⟩ }, { prevout := ⟨2, 0⟩ }]
                           vout := [] }] }

end Sample

open Sample in
theorem merged_signatures_kept_two :
    ([⟨3, 101, [[], [5], []]⟩, ⟨2, 101, [[5], [], []]⟩].foldl
      CCloakingRequest.receiveSignatures jointRequest).jointVin =
      ([⟨2, 101, [[5], [], []]⟩, ⟨3, 101, [[], [5], []]⟩].foldl CCloakingRequest.receiveSignatures
        jointRequest).jointVin := by
  have hvin : ∀ (i : Nat) (txin : CTxIn), jointRequest.jointVin[i]? = some txin →
      i = 0 ∧ txin = { prevout := ⟨1, 0⟩ } ∨ i = 1 ∧ txin = { prevout := ⟨1, 1⟩ } ∨ i = 2 ∧
        txin = { prevout := ⟨2, 0⟩ } := by
    intro i txin hi
    match i with
    | 0 => exact .inl ⟨rfl, (some.inj hi).symm⟩
    | 1 => exact .inr (.inl ⟨rfl, (some.inj hi).symm⟩)
    | 2 => exact .inr (.inr ⟨rfl, (some.inj hi).symm⟩)
    | i + 3 => cases hi
  refine (merged_signatures_kept strictEnv (fun _ _ _ _ _ _ => rfl) jointRequest
    [⟨2, 101, [[5], [], []]⟩, ⟨3, 101, [[], [5], []]⟩] ?_ ?_ (by decide)).2.2 _ (Perm.swap _ _ _)
  · intro sr hsr i txin hi ho
    simp only [mem_cons, not_mem_nil, or_false] at hsr
    rcases hvin i txin hi with ⟨rfl, rfl⟩ | ⟨rfl, rfl⟩ | ⟨rfl, rfl⟩ <;> rcases hsr with rfl | rfl
    · exact absurd (by decide) ho
    · decide
    · decide
    · exact absurd (by decide) ho
    · decide
    · decide
  · intro txin ht key key' ⟨p, hp, hkey, hmem⟩ ⟨p', hp', hk', hm'⟩
    obtain ⟨i, hi⟩ := mem_iff_getElem?.mp ht
    simp only [jointRequest, mem_cons, not_mem_nil, or_false] at hp hp'
    rcases hvin i txin hi with ⟨-, rfl⟩ | ⟨-, rfl⟩ | ⟨-, rfl⟩ <;> rcases hp with rfl | rfl <;>
      rcases hp' with rfl | rfl <;> simp_all

open Sample in
/-- **A longer signature of anyone replaces a good one**: key 3 overwrites the good signature of key 2. With a script
of the same length it depends on the order which of the two stays. -/
theorem good_signature_is_overwritten : let good : CCloakingSignResponse := ⟨2, 101, [[5], [], []]⟩
    let longer : CCloakingSignResponse := ⟨3, 101, [[6, 6], [5], []]⟩
    let same : CCloakingSignResponse := ⟨3, 101, [[6], [5], []]⟩
    ([good].foldl CCloakingRequest.receiveSignatures jointRequest).Verifies strictEnv 0 [] ∧
      ¬([good, longer].foldl CCloakingRequest.receiveSignatures jointRequest).Verifies strictEnv 0 [] ∧
      ([good, same].foldl CCloakingRequest.receiveSignatures jointRequest).jointVin ≠
        ([same, good].foldl CCloakingRequest.receiveSignatures jointRequest).jointVin := by
  intro good longer same
  refine ⟨⟨{ prevout := ⟨1, 0⟩, scriptSig := [5] }, by decide, rfl⟩, ?_, by decide⟩
  rintro ⟨txin, hi, hv⟩
  have hsig : ([good, longer].foldl CCloakingRequest.receiveSignatures jointRequest).jointVin[0]? =
      some { prevout := ⟨1, 0⟩, scriptSig := [6, 6] } := by decide
  rw [hsig] at hi
  cases hi
  cases hv

end CloakCoin.Enigma
