import CloakCoin.Chain.Ledger

/-!
# The money supply is the value of the unspent outputs

The tip of the chain moves by `ConnectBlock` and `DisconnectBlock` (`TipStep`). In every state it
can reach from genesis the transaction index is the ledger of the connected blocks (`Synced`), so
that `pindexBest->nMoneySupply` is the value of what the index shows as unspent.
-/

namespace CloakCoin.Chain

open Lib List Option

variable {r : TxRecord} {b : CBlock} {files : BlockFiles} {st : ConnectState} {h : Hash256} {n' : Node} {m : BlockMap}
  {idx : SlotIndex Hash256 CDiskTxPos}

/-! ## Transactions are found where `ConnectBlock` says they are -/

variable {pindex p : CBlockIndex}

theorem txAtFrom_records (hr : r ∈ pindex.records off vtx) :
    ∃ k, off ≤ k ∧ r.pos = .ofFile pindex.nFile pindex.nBlockPos k ∧ txAtFrom k off vtx = some r.tx := by
  induction vtx generalizing off with
  | nil => cases hr
  | cons tx rest ih =>
    rcases mem_cons.mp hr with rfl | hr
    · exact ⟨off, le_rfl, rfl, by simp [txAtFrom]⟩
    obtain ⟨k, hk, hp, htx⟩ := ih hr
    have := tx.serializeSize_pos
    refine ⟨k, by omega, hp, ?_⟩
    rw [txAtFrom, if_neg (by omega), htx]

theorem readTx_records (hd : files.readFromDisk env pindex = some b)
    (hr : r ∈ pindex.records (firstTxPos pindex b) b.vtx) : files.readTx r.pos = some r.tx ∧ r.pos ≠ .memPool := by
  obtain ⟨k, hk, hp, htx⟩ := txAtFrom_records hr
  obtain ⟨hm, hf⟩ := BlockFiles.mem_log_of_readFromDisk hd
  rw [hp]
  refine ⟨BlockFiles.readTx_of_mem hm hf htx, fun e => ?_⟩
  have hk1 : k = 1 := congrArg CDiskTxPos.nTxPos e
  unfold firstTxPos CBlock.headerSize at hk
  omega

/-! ## What a block adds to the supply -/

section
variable {env : Env} {ctx : ConnectCtx}

theorem foldlM_connectTx_plain (vtx : List CTransaction)
    (hr : vtx.foldlM (connectTx env ctx pindex false) st = some st') (hcb : ∀ tx ∈ vtx, tx.isCoinBase = false)
    (hcs : ∀ tx ∈ vtx, tx.isCoinStake = false) :
    st'.nValueOut - st'.nValueIn + st'.nFees = st.nValueOut - st.nValueIn + st.nFees ∧
      st.nFees ≤ st'.nFees := by
  induction vtx generalizing st with
  | nil =>
    cases hr
    exact ⟨rfl, le_rfl⟩
  | cons tx rest ih =>
    obtain ⟨st1, h1, hr⟩ := bind_eq_some_iff.mp hr
    have hc := connectTx_spec h1
    have hb := hcb tx mem_cons_self
    have hs := hcs tx mem_cons_self
    obtain ⟨hsu, hle⟩ := ih hr (fun t ht => hcb t (mem_cons_of_mem _ ht))
      fun t ht => hcs t (mem_cons_of_mem _ ht)
    have hf := hc.fees
    have hfe := hc.fee hb hs
    have hm : (0 : Int) ≤ minTxFee := by decide
    rw [hb, hs, Bool.or_self, if_neg (by simp)] at hf
    rw [hc.valueIn, hc.valueOut] at hsu
    omega

theorem connect_raise (hb : b.BasicChecks env) (hru : connectTxs env ctx pindex false b = some st)
    (hre : ∀ tx0 rest, b.vtx = tx0 :: rest → tx0.valueOut ≤ getProofOfWorkReward pindex.nHeight st.nFees) :
    (b.isProofOfWork = true →
      st.nValueOut - st.nValueIn ≤ if pindex.nHeight ≤ 50 then 1 * coin else 496 * coin) ∧
    (b.isProofOfStake = true → ∃ tx0 tx1 rest nCoinAge, b.vtx = tx0 :: tx1 :: rest ∧
      getCoinAge env ctx.toTxSource tx1 = some nCoinAge ∧
      st.nValueOut - st.nValueIn ≤ getProofOfStakeReward nCoinAge) := by
  obtain ⟨tx0, rest, hv, h0, hr, hst, he⟩ := hb.coinbase_first
  have hle := hre tx0 rest hv
  unfold connectTxs at hru
  rw [hv, foldlM_cons] at hru
  obtain ⟨st0, hs0, hru⟩ := bind_eq_some_iff.mp hru
  have hc0 := connectTx_spec hs0
  have hin := hc0.valueIn
  have ho := hc0.valueOut
  have hf := hc0.fees
  have hn : tx0.outpoints = [] := by simp [CTransaction.outpoints, h0]
  simp only [ConnectState.txValueIn, hn, map_nil, sum_nil, h0, Bool.true_or, if_true] at hin ho hf
  constructor
  · -- no coinstake: what the other transactions lose are the fees the coinbase may claim
    intro hw
    have hcs : ∀ tx ∈ rest, tx.isCoinStake = false := by
      intro tx htx
      cases rest with
      | nil => cases htx
      | cons tx1 rest =>
        rcases mem_cons.mp htx with rfl | htx
        · simpa [CBlock.isProofOfWork, CBlock.isProofOfStake, hv] using hw
        · exact hst tx htx
    obtain ⟨hsu, -⟩ := foldlM_connectTx_plain rest hru hr hcs
    unfold getProofOfWorkReward at hle
    split_ifs at hle ⊢ <;> omega
  · intro hs
    have hz := he hs
    cases rest with
    | nil => simp [CBlock.isProofOfStake, hv] at hs
    | cons tx1 rest =>
      have hcs : tx1.isCoinStake = true := by simpa [CBlock.isProofOfStake, hv] using hs
      obtain ⟨st1, hs1, hru⟩ := bind_eq_some_iff.mp hru
      have hc1 := connectTx_spec hs1
      obtain ⟨nCoinAge, ha, hbo⟩ := hc1.stake hcs
      refine ⟨tx0, tx1, rest, nCoinAge, hv, ha, ?_⟩
      obtain ⟨hsu, hl'⟩ := foldlM_connectTx_plain rest hru
        (fun t ht => hr t (mem_cons_of_mem _ ht)) hst
      have hi1 := hc1.valueIn
      have ho1 := hc1.valueOut
      omega

end

/-! ## Moving the tip -/

namespace Node

def bestEntry (n : Node) : Option CBlockIndex := n.pindexBest.bind (n.mapBlockIndex[·]?)

def moneySupply (n : Node) : Int := (n.bestEntry.map CBlockIndex.nMoneySupply).getD 0

def connectedBlocks (env : Env) (n : Node) : List CBlock :=
  match n.bestEntry with
  | none => []
  | some p => ((n.ancestorsOf p).filter (·.pprev.isSome)).filterMap (n.files.readFromDisk env)

def unspentValue (env : Env) (n : Node) : Int :=
  (((n.connectedBlocks env).flatMap (·.vtx)).map fun tx =>
    n.txdb.txIndex.freeValue .null (tx.getHash env) (tx.vout.map CTxOut.nValue)).sum

/-- An indexed block on top of the best one. -/
structure OnTip (env : Env) (n : Node) (h : Hash256) (p : CBlockIndex) (b : CBlock) : Prop where
  entry : n.mapBlockIndex[h]? = some p
  link : p.pprev = n.pindexBest
  disk : n.files.readFromDisk env p = some b

def advance (env : Env) (n : Node) (h : Hash256) (p : CBlockIndex) (b : CBlock) : Node :=
  { (n.connectBlock env b p false).2 with pindexBest := some h }

def retreat (env : Env) (n : Node) (p : CBlockIndex) (b : CBlock) : Node :=
  { (n.disconnectBlock env b p).2 with pindexBest := p.pprev }

end Node

def CBlockIndex.noNext (p : CBlockIndex) : CBlockIndex := { p with pnext := none }

/-- What moves the tip by one block, or does not touch it. -/
inductive TipStep (env : Env) : Node → Node → Prop
  | connect {n : Node} {h : Hash256} {p : CBlockIndex} {b : CBlock} (tip : n.OnTip env h p b)
      (ok : (n.connectBlock env b p false).1 = true) : TipStep env n (n.advance env h p b)
  | disconnect {n : Node} {h prev : Hash256} {p : CBlockIndex} {b : CBlock} (tip : n.pindexBest = some h)
      (entry : n.mapBlockIndex[h]? = some p) (link : p.pprev = some prev)
      (disk : n.files.readFromDisk env p = some b) (ok : (n.disconnectBlock env b p).1 = true) :
      TipStep env n (n.retreat env p b)
  /-- Commits, wallets, the memory pool and the `pnext` links. -/
  | other {n n' : Node} (index : n'.txdb.txIndex = n.txdb.txIndex) (files : n'.files = n.files)
      (best : n'.pindexBest = n.pindexBest)
      (blocks : ∀ h : Hash256, (n'.mapBlockIndex[h]?).map CBlockIndex.noNext =
        (n.mapBlockIndex[h]?).map CBlockIndex.noNext) : TipStep env n n'

/-- What `AcceptBlock` and `AddToBlockIndex` promise about the entries of `mapBlockIndex`. -/
structure TreeOk (env : Env) (m : BlockMap) (files : BlockFiles) : Prop where
  key : ∀ {h : Hash256} {p : CBlockIndex}, m[h]? = some p → p.phashBlock = h
  parent : ∀ {h h' : Hash256} {p : CBlockIndex}, m[h]? = some p → p.pprev = some h' →
    ∃ q : CBlockIndex, m[h']? = some q ∧ p.nHeight = q.nHeight + 1
  /-- `nHeight` is an `int`. -/
  int : ∀ {h : Hash256} {p : CBlockIndex}, m[h]? = some p → p.nHeight < 2 ^ 31
  accepted : ∀ {h : Hash256} {p : CBlockIndex} {b : CBlock}, m[h]? = some p → p.pprev ≠ none →
    files.readFromDisk env p = some b → b.startsWithHeight p.nHeight

/-- The tip is the genesis block and nothing is indexed. -/
structure AtGenesis (env : Env) (n : Node) : Prop where
  tree : TreeOk env n.mapBlockIndex n.files
  tip : ∃ g p, n.pindexBest = some g ∧ n.mapBlockIndex[g]? = some p ∧ p.pprev = none ∧ p.nHeight = 0 ∧
    p.nMoneySupply = 0
  index : ∀ h, n.txdb.readTxIndex h = none

/-! ## The index is the ledger of the connected blocks -/

/-- `idx` and the supplies recorded in `m` are what connecting `chain` (newest first) up to the entry
`tip` has left. -/
inductive Synced (env : Env) (files : BlockFiles) (m : BlockMap) :
    Hash256 → List CBlock → List TxRecord → SlotIndex Hash256 CDiskTxPos → Prop
  | genesis {g : Hash256} {p : CBlockIndex} (entry : m[g]? = some p) (root : p.pprev = none)
      (height : p.nHeight = 0) (supply : p.nMoneySupply = 0) : Synced env files m g [] [] (fun _ => none)
  | block {tip h : Hash256} {chain : List CBlock} {recs : List TxRecord}
      {idx : SlotIndex Hash256 CDiskTxPos} {p q : CBlockIndex} {b : CBlock} {ctx : ConnectCtx}
      {st : ConnectState} (prev : Synced env files m tip chain recs idx) (entry : m[h]? = some p)
      (link : p.pprev = some tip) (prevEntry : m[tip]? = some q) (height : p.nHeight = q.nHeight + 1)
      (int : p.nHeight < 2 ^ 31) (disk : files.readFromDisk env p = some b)
      (readIndex : ctx.readTxIndex = idx) (readTx : ctx.readTx = files.readTx)
      (run : connectTxs env ctx p false b = some st) (checks : b.BasicChecks env)
      (coinbase : b.startsWithHeight p.nHeight)
      (supply : p.nMoneySupply = q.nMoneySupply + st.nValueOut - st.nValueIn) :
      Synced env files m h (b :: chain) ((p.records (firstTxPos p b) b.vtx).reverse ++ recs)
        (st.index ctx.toTxSource)

def HeightsOk (recs : List TxRecord) (nHeight : Nat) : Prop :=
  ∀ r ∈ recs, r.nHeight ≤ nHeight ∧
    (r.tx.isCoinBase = true → ∀ txin ∈ r.tx.vin.head?, scriptInt r.nHeight <+: txin.scriptSig)

theorem nHeight_records (hr : r ∈ pindex.records off vtx) : r.nHeight = pindex.nHeight ∧ r.tx ∈ vtx := by
  induction vtx generalizing off with
  | nil => cases hr
  | cons tx rest ih =>
    rcases mem_cons.mp hr with rfl | hr
    · exact ⟨rfl, mem_cons_self⟩
    · obtain ⟨h1, h2⟩ := ih hr
      exact ⟨h1, mem_cons_of_mem _ h2⟩

theorem coinbase_startsWith (hb : b.BasicChecks env) (hh : b.startsWithHeight nHeight) (htx : tx ∈ b.vtx)
    (hcb : tx.isCoinBase = true) : ∀ txin ∈ tx.vin.head?, scriptInt nHeight <+: txin.scriptSig := by
  obtain ⟨tx0, rest, hv, -, hr, -⟩ := hb.coinbase_first
  rw [hv] at htx
  rcases mem_cons.mp htx with rfl | htx
  · exact hh tx rest hv
  · rw [hr tx htx] at hcb
    cases hcb

theorem coinbase_new (hi : TxHashBinds env) (hr : HeightsOk recs H) (hlt : H < nHeight) (hint : nHeight < 2 ^ 31)
    (hcb : tx.isCoinBase = true) (htx : ∀ txin ∈ tx.vin.head?, scriptInt nHeight <+: txin.scriptSig) :
    ∀ r ∈ recs, env.txHash r.tx ≠ env.txHash tx := by
  intro r hm hh
  obtain ⟨hin, ho⟩ := hi _ _ hh
  obtain ⟨hle, hp⟩ := hr r hm
  have hrc := hp (by rw [(outpoints_congr hin ho).1, hcb])
  rw [hin] at hrc
  cases hv : tx.vin with
  | nil => simp [CTransaction.isCoinBase, hv] at hcb
  | cons i rest =>
    rw [hv] at hrc htx
    have := scriptInt_prefix_unique (by omega) hint (hrc i rfl) (htx i rfl)
    omega

theorem Ledger.extend_block (hin : TxHashBinds env) (hl : Ledger env files.readTx recs idx) (hh : HeightsOk recs H)
    (hlt : H < p.nHeight) (int : p.nHeight < 2 ^ 31) (disk : files.readFromDisk env p = some b)
    (readIndex : ctx.readTxIndex = idx) (readTx : ctx.readTx = files.readTx)
      (run : connectTxs env ctx p false b = some st)
    (checks : b.BasicChecks env) (coinbase : b.startsWithHeight p.nHeight) :
    Ledger env files.readTx ((p.records (firstTxPos p b) b.vtx).reverse ++ recs) (st.index ctx.toTxSource) ∧
      SlotIndex.totalFree (st.index ctx.toTxSource) .null
          (outputs env ((p.records (firstTxPos p b) b.vtx).reverse ++ recs)) =
        idx.totalFree .null (outputs env recs) + (st.nValueOut - st.nValueIn) ∧
      ∀ o q, q ≠ .null → idx.slot o = some q → (st.index ctx.toTxSource).slot o = some q := by
  have hi : ({ nTxPos := firstTxPos p b } : ConnectState).index ctx.toTxSource = idx := by
    rw [ConnectState.index, readIndex]
    exact overlay_empty _
  have hcb : ∀ tx ∈ b.vtx, tx.isCoinBase = true → ∀ r ∈ recs, env.txHash r.tx ≠ env.txHash tx :=
    fun tx htx hb => coinbase_new hin hh hlt int hb
      (coinbase_startsWith checks coinbase htx hb)
  have hv : ∀ tx ∈ b.vtx, tx.vin ≠ [] := fun tx htx =>
    CTransaction.vin_ne_nil_of_checkTransaction (checks.txs tx htx)
  have run' : b.vtx.foldlM (connectTx env ctx p false) { nTxPos := firstTxPos p b } = some st := run
  have he := Ledger.extend hin b.vtx run' (show Ledger env ctx.readTx recs _ by rw [hi, readTx]; exact hl)
    checks.unique hv hcb (by rw [readTx]; exact fun r hr => readTx_records disk hr)
  rw [readTx, hi] at he
  simpa using he

namespace Synced

variable {env : Env} {files : BlockFiles} {tip : Hash256} {chain : List CBlock}
  {recs : List TxRecord}

theorem exists_entry (h : Synced env files m tip chain recs idx) : ∃ p : CBlockIndex, m[tip]? = some p := by
  cases h with
  | genesis entry => exact ⟨_, entry⟩
  | block prev entry => exact ⟨_, entry⟩

theorem facts (hi : TxHashBinds env) (h : Synced env files m tip chain recs idx) (hp : m[tip]? = some p) :
    Ledger env files.readTx recs idx ∧
      idx.totalFree .null (Ledger.outputs env recs) = p.nMoneySupply ∧ HeightsOk recs p.nHeight := by
  induction h generalizing p with
  | genesis entry root height supply =>
    rw [entry, some.injEq] at hp
    subst hp
    exact ⟨.nil, by simp [SlotIndex.totalFree, Ledger.outputs, supply], by simp [HeightsOk]⟩
  | @block tip h chain recs idx p' q b ctx st prev entry link prevEntry height int disk readIndex readTx run
      checks coinbase supply ih =>
    rw [entry, some.injEq] at hp
    subst hp
    obtain ⟨hl, hf, hhe⟩ := ih prevEntry
    obtain ⟨hl', hs, -⟩ := Ledger.extend_block hi hl hhe (by omega) int disk readIndex readTx run
      checks coinbase
    refine ⟨hl', ?_, ?_⟩
    · omega
    · intro r hr
      rcases mem_append.mp hr with hr | hr
      · obtain ⟨hh, htx⟩ := nHeight_records (mem_reverse.mp hr)
        exact ⟨hh.le, hh ▸ coinbase_startsWith checks coinbase htx⟩
      · obtain ⟨hle, hpr⟩ := hhe r hr
        exact ⟨by omega, hpr⟩

theorem map_tx (h : Synced env files m tip chain recs idx) :
    recs.map TxRecord.tx = chain.flatMap fun b => b.vtx.reverse := by
  induction h with
  | genesis => rfl
  | block prev entry link prevEntry height int disk readIndex readTx run checks coinbase supply ih =>
    rw [map_append, map_reverse, map_tx_records, ih, flatMap_cons]

theorem walk (h : Synced env files m tip chain recs idx) (hp : m[tip]? = some p) :
    ((p :: walkBack m p.nHeight p.pprev).filter (·.pprev.isSome)).filterMap (files.readFromDisk env) = chain := by
  induction h generalizing p with
  | genesis entry root height supply =>
    rw [entry, some.injEq] at hp
    subst hp
    simp [root, height, walkBack]
  | block prev entry link prevEntry height int disk readIndex readTx run checks coinbase supply ih =>
    rw [entry, some.injEq] at hp
    subst hp
    have hw := ih prevEntry
    rw [link, height, walkBack, prevEntry, filter_cons_of_pos (by simp [link])]
    rw [filterMap_cons_some disk, hw]

theorem mono (h : Synced env files m tip chain recs idx) (P : Hash256 → Prop)
    (hd : ∀ {k k' : Hash256} {p : CBlockIndex}, P k → m[k]? = some p → p.pprev = some k' → P k')
    (hs : ∀ {k : Hash256} {p : CBlockIndex}, P k → m[k]? = some p → ∃ x, m'[k]? = some { p with pnext := x })
    (ht : P tip) : Synced env files m' tip chain recs idx := by
  induction h with
  | genesis entry root height supply =>
    obtain ⟨x, hx⟩ := hs ht entry
    exact .genesis hx root height supply
  | block prev entry link prevEntry height int disk readIndex readTx run checks coinbase supply ih =>
    have hp := hd ht entry link
    obtain ⟨x, hx⟩ := hs ht entry
    obtain ⟨y, hy⟩ := hs hp prevEntry
    have hb := Synced.block (ih hp) hx link hy height int disk readIndex readTx run checks coinbase supply
    exact hb

end Synced
/-! ## The invariant of the run -/

def CBlockIndex.shape (p : CBlockIndex) : CBlockIndex := { p with pnext := none, nMint := 0, nMoneySupply := 0 }

theorem CBlockIndex.of_shape_eq (h : p.shape = q.shape) :
    p.phashBlock = q.phashBlock ∧ p.pprev = q.pprev ∧ p.nHeight = q.nHeight ∧
      ∀ (env : Env) (files : BlockFiles), files.readFromDisk env p = files.readFromDisk env q := by
  have hha : p.shape.phashBlock = q.shape.phashBlock := by rw [h]
  have hp : p.shape.pprev = q.shape.pprev := by rw [h]
  have hh : p.shape.nHeight = q.shape.nHeight := by rw [h]
  refine ⟨hha, hp, hh, fun env files => ?_⟩
  change files.readFromDisk env p.shape = files.readFromDisk env q.shape
  rw [h]

theorem exists_of_map_eq (h : x.map f = y.map f) (hx : x = some a) : ∃ b, y = some b ∧ f b = f a := by
  rw [hx, map_some] at h
  exact map_eq_some_iff.mp h.symm

theorem TreeOk.congr (h : TreeOk env m files)
    (hs : ∀ k : Hash256, (m'[k]?).map CBlockIndex.shape = (m[k]?).map CBlockIndex.shape) : TreeOk env m' files where
  key hp := by
    obtain ⟨q, hq, hqp⟩ := exists_of_map_eq (hs _) hp
    rw [← (CBlockIndex.of_shape_eq hqp).1, h.key hq]
  parent {k k' p} hp hl := by
    obtain ⟨q, hq, hqp⟩ := exists_of_map_eq (hs _) hp
    obtain ⟨-, hpr, hh, -⟩ := CBlockIndex.of_shape_eq hqp
    obtain ⟨r, hr, hqr⟩ := h.parent hq (hpr.trans hl)
    obtain ⟨r', hr', hrr⟩ := exists_of_map_eq (hs k').symm hr
    obtain ⟨-, -, hh', -⟩ := CBlockIndex.of_shape_eq hrr
    exact ⟨r', hr', by omega⟩
  int {k p} hp := by
    obtain ⟨q, hq, hqp⟩ := exists_of_map_eq (hs _) hp
    rw [← (CBlockIndex.of_shape_eq hqp).2.2.1]
    exact h.int hq
  accepted {k p b} hp hro hd := by
    obtain ⟨q, hq, hqp⟩ := exists_of_map_eq (hs _) hp
    obtain ⟨-, hpr, hh, hre⟩ := CBlockIndex.of_shape_eq hqp
    rw [← hh]
    exact h.accepted hq (by rwa [hpr]) ((hre env files).trans hd)

structure SyncedAt (env : Env) (n : Node) (tip : Hash256) : Prop where
  tree : TreeOk env n.mapBlockIndex n.files
  synced : ∃ chain recs, Synced env n.files n.mapBlockIndex tip chain recs n.txdb.txIndex

namespace SyncedAt

variable {env : Env} {n : Node} {tip : Hash256}

theorem mapBlockIndex_connect (ht : TreeOk env n.mapBlockIndex n.files) (hp : n.mapBlockIndex[h]? = some p)
    (hc : n.BlockConnected env b p st n') :
    n'.mapBlockIndex = n.mapBlockIndex.insert h (n.recordSupply env p st).1 := by
  have hm : n.mapBlockIndex.contains h = true := by
    rw [Std.ExtTreeMap.contains_eq_isSome_getElem?, hp]
    rfl
  have hk : p.phashBlock = h := ht.key hp
  have hk' : (n.recordSupply env p st).1.phashBlock = h := hk
  rw [hc.blocks, Node.setIndex, hk', if_pos hm]

theorem connect (hs : SyncedAt env n tip) (entry : n.mapBlockIndex[h]? = some p) (link : p.pprev = some tip)
    (disk : n.files.readFromDisk env p = some b) (ok : (n.connectBlock env b p false).1 = true) :
    SyncedAt env (n.connectBlock env b p false).2 h := by
  obtain ⟨st, hc⟩ := Node.connectBlock_spec ok
  obtain ⟨chain, recs, hsy⟩ := hs.synced
  obtain ⟨q, hq, hh⟩ := hs.tree.parent entry link
  have hm := mapBlockIndex_connect hs.tree entry hc
  have hne : ∀ {k : Hash256} {r : CBlockIndex}, n.mapBlockIndex[k]? = some r → r.nHeight < p.nHeight → k ≠ h := by
    rintro k r hr hlt rfl
    rw [entry, some.injEq] at hr
    subst hr
    omega
  have hg : ∀ {k : Hash256}, k ≠ h → (n.connectBlock env b p false).2.mapBlockIndex[k]? = n.mapBlockIndex[k]? := by
    intro k hk
    rw [hm, getElem?_insert_ne _ hk]
  have hse : (n.connectBlock env b p false).2.mapBlockIndex[h]? = some (n.recordSupply env p st).1 := by
    rw [hm, Std.ExtTreeMap.getElem?_insert_self]
  refine ⟨?_, b :: chain, (p.records (firstTxPos p b) b.vtx).reverse ++ recs, ?_⟩
  · rw [hc.files]
    refine hs.tree.congr fun k => ?_
    by_cases hk : k = h
    · subst hk
      rw [hse, entry]
      rfl
    · rw [hg hk]
  · have hp : Synced env n.files (n.connectBlock env b p false).2.mapBlockIndex tip chain recs n.txdb.txIndex := by
      refine hsy.mono (fun k => ∀ r, n.mapBlockIndex[k]? = some r → r.nHeight < p.nHeight) ?_
        (fun {k r} hk hr => ⟨r.pnext, by rw [hg (hne hr (hk r hr)), hr]⟩) ?_
      · intro k k' r hk hr hl r' hr'
        obtain ⟨r'', hr'', hst⟩ := hs.tree.parent hr hl
        rw [hr', some.injEq] at hr''
        subst hr''
        have := hk r hr
        omega
      · intro r hr
        rw [hq, some.injEq] at hr
        subst hr
        omega
    have hco : b.startsWithHeight p.nHeight := hs.tree.accepted entry (by rw [link]; simp) disk
    have hi : p.nHeight < 2 ^ 31 := hs.tree.int entry
    have hb := Synced.block hp hse link
      (by rw [hg (hne hq (by omega)), hq]) hh hi disk (show (n.connectCtx p).readTxIndex = _ from rfl) rfl hc.txs
      (CBlock.checkBlock_spec hc.check).1 hco (by simp [Node.recordSupply, link, hq])
    rw [hc.files, hc.index]
    exact hb

theorem disconnect {prev : Hash256} (hin : TxHashBinds env) (hs : SyncedAt env n tip)
    (entry : n.mapBlockIndex[tip]? = some p) (link : p.pprev = some prev) (disk : n.files.readFromDisk env p = some b) :
    (n.disconnectBlock env b p).1 = true ∧ SyncedAt env (n.disconnectBlock env b p).2 prev := by
  obtain ⟨chain, recs, hsy⟩ := hs.synced
  have hl := (hsy.facts hin entry).1
  generalize hc : n.txdb.txIndex = cur at hsy hl
  cases hsy with
  | genesis entry' root =>
    rw [entry, some.injEq] at entry'
    subst entry'
    rw [link] at root
    cases root
  | @block t _ chain recs idx p' q b' ctx st hp entry' link' prevEntry height int disk' readIndex readTx
      run checks coinbase supply =>
    rw [entry, some.injEq] at entry'
    subst entry'
    obtain rfl : b = b' := by rw [disk, some.injEq] at disk'; exact disk'
    obtain rfl : prev = t := by rw [link, some.injEq] at link'; exact link'
    have hi : ({ nTxPos := firstTxPos p b } : ConnectState).index ctx.toTxSource = idx := by
      rw [ConnectState.index, readIndex]
      exact overlay_empty _
    have run' : b.vtx.foldlM (connectTx env ctx p false) { nTxPos := firstTxPos p b } = some st := run
    have hn : ∀ tx ∈ b.vtx, idx (env.txHash tx) = none := by
      intro tx htx
      by_contra hso
      obtain ⟨e, he⟩ := ne_none_iff_exists'.mp hso
      obtain ⟨r, hr, hh⟩ := (hp.facts hin prevEntry).1.exists_of_some he
      have hnd := hl.hashes_nodup
      rw [map_append, nodup_append] at hnd
      refine hnd.2.2 (env.txHash tx) ?_ (env.txHash tx) (mem_map.mpr ⟨r, hr, hh⟩) rfl
      rw [← map_tx_records p (firstTxPos p b) b.vtx] at htx
      obtain ⟨s, hs, hst⟩ := mem_map.mp htx
      exact mem_map.mpr ⟨s, mem_reverse.mpr hs, by rw [hst]⟩
    have hu := disconnectTxs_connectTxs n.txdb b.vtx run' checks.unique
    rw [hi] at hu
    obtain ⟨db, hd, hid⟩ := hu hn hc
    obtain ⟨hok, hba, hb, hf⟩ := Node.disconnectBlock_spec p hd
    refine ⟨hok, ?_, chain, recs, ?_⟩
    · rw [hb, hf]
      exact hs.tree
    · rw [hb, hf, hba, hid]
      exact hp

theorem other (hs : SyncedAt env n tip) (index : n'.txdb.txIndex = n.txdb.txIndex) (files : n'.files = n.files)
    (blocks : ∀ h : Hash256, (n'.mapBlockIndex[h]?).map CBlockIndex.noNext =
      (n.mapBlockIndex[h]?).map CBlockIndex.noNext) : SyncedAt env n' tip := by
  obtain ⟨chain, recs, hsy⟩ := hs.synced
  refine ⟨?_, chain, recs, ?_⟩
  · rw [files]
    refine hs.tree.congr fun k => ?_
    have hk := congrArg (Option.map CBlockIndex.shape) (blocks k)
    rwa [Option.map_map, Option.map_map] at hk
  · rw [files, index]
    refine hsy.mono (fun _ => True) (fun _ _ _ => trivial) (fun {k r} _ hr => ?_) trivial
    obtain ⟨r', hr', hrr⟩ := exists_of_map_eq (blocks k).symm hr
    refine ⟨r'.pnext, ?_⟩
    rw [hr', show r' = { r'.noNext with pnext := r'.pnext } from rfl, hrr]
    rfl

end SyncedAt

def SupplyInv (env : Env) (n : Node) : Prop := ∃ tip, n.pindexBest = some tip ∧ SyncedAt env n tip

theorem AtGenesis.supplyInv (h : AtGenesis env n) : SupplyInv env n := by
  obtain ⟨g, p, hg, hp, hr, hh, hs⟩ := h.tip
  refine ⟨g, hg, h.tree, [], [], ?_⟩
  rw [show n.txdb.txIndex = fun _ => none from funext h.index]
  exact .genesis hp hr hh hs

namespace SupplyInv

theorem step (hi : TxHashBinds env) (hin : SupplyInv env n) (h : TipStep env n n') : SupplyInv env n' := by
  obtain ⟨t, ht, hs⟩ := hin
  cases h with
  | connect tip ok =>
    obtain ⟨htr, hsy⟩ := hs.connect tip.entry (tip.link.trans ht) tip.disk ok
    exact ⟨_, rfl, htr, hsy⟩
  | disconnect tip entry link disk ok =>
    rw [ht, some.injEq] at tip
    subst tip
    obtain ⟨htr, hsy⟩ := (hs.disconnect hi entry link disk).2
    exact ⟨_, link, htr, hsy⟩
  | other index files best blocks => exact ⟨t, best.trans ht, hs.other index files blocks⟩

theorem run (hi : TxHashBinds env) (h0 : AtGenesis env n0)
    (hr : Relation.ReflTransGen (TipStep env) n0 n) : SupplyInv env n := by
  induction hr with
  | refl => exact h0.supplyInv
  | tail _ hs ih => exact ih.step hi hs

/-! ## Reading the invariant -/

theorem perm_flatMap_reverse (chain : List CBlock) :
    (chain.flatMap fun b => b.vtx.reverse).Perm (chain.flatMap (·.vtx)) :=
  Perm.flatMap_left _ fun b _ => reverse_perm b.vtx

theorem moneySupply_eq (hi : TxHashBinds env) (hin : SupplyInv env n) : n.moneySupply = n.unspentValue env ∧
      (((n.connectedBlocks env).flatMap (·.vtx)).flatMap CTransaction.outpoints).Nodup := by
  obtain ⟨t, ht, -, chain, recs, hs⟩ := hin
  obtain ⟨p, hp⟩ := hs.exists_entry
  obtain ⟨hl, hf, -⟩ := hs.facts hi hp
  have hbe : n.bestEntry = some p := by simp [Node.bestEntry, ht, hp]
  have hb : n.connectedBlocks env = chain := by
    simp only [Node.connectedBlocks, hbe, Node.ancestorsOf]
    exact hs.walk hp
  have hpe : (recs.map TxRecord.tx).Perm (chain.flatMap (·.vtx)) := hs.map_tx ▸ perm_flatMap_reverse chain
  constructor
  · rw [Node.moneySupply, hbe, Node.unspentValue, hb, ← (hpe.map _).sum_eq, List.map_map]
    simp only [Option.map_some, Option.getD_some, ← hf, SlotIndex.totalFree, Ledger.outputs, List.map_map]
    rfl
  · rw [hb, ← (hpe.flatMap_right _).nodup_iff, List.flatMap_map]
    exact hl.outpoints_nodup

theorem connect_effect (hi : TxHashBinds env) (hin : SupplyInv env n) (tip : n.OnTip env h p b)
    (ok : (n.connectBlock env b p false).1 = true) : (∀ o q, q ≠ .null → n.txdb.txIndex.slot o = some q →
        (n.advance env h p b).txdb.txIndex.slot o = some q) ∧
      ∃ st, connectTxs env (n.connectCtx p) p false b = some st ∧ b.BasicChecks env ∧
        (∀ tx0 rest, b.vtx = tx0 :: rest → tx0.valueOut ≤ getProofOfWorkReward p.nHeight st.nFees) ∧
        (n.advance env h p b).moneySupply = n.moneySupply + st.nValueOut - st.nValueIn := by
  obtain ⟨st, hc⟩ := Node.connectBlock_spec ok
  obtain ⟨t, ht, htr, chain, recs, hs⟩ := hin
  have hl : p.pprev = some t := tip.link.trans ht
  obtain ⟨q, hq, hhe⟩ := htr.parent tip.entry hl
  obtain ⟨hle, -, hh⟩ := hs.facts hi hq
  have hch := (CBlock.checkBlock_spec hc.check).1
  obtain ⟨-, -, hk⟩ := Ledger.extend_block hi hle hh (by omega)
    (htr.int tip.entry) tip.disk (show (n.connectCtx p).readTxIndex = _ from rfl) rfl hc.txs hch
    (htr.accepted tip.entry (by rw [hl]; simp) tip.disk)
  constructor
  · intro o q hne ho
    change (n.connectBlock env b p false).2.txdb.txIndex.slot o = some q
    rw [hc.index]
    exact hk o q hne ho
  · refine ⟨st, hc.txs, hch, hc.reward, ?_⟩
    have hm := SyncedAt.mapBlockIndex_connect htr tip.entry hc
    have hn : (n.advance env h p b).bestEntry = some (n.recordSupply env p st).1 := by
      simp [Node.bestEntry, Node.advance, hm]
    have hold : n.bestEntry = some q := by simp [Node.bestEntry, ht, hq]
    simp [Node.moneySupply, hn, hold, Node.recordSupply, hl, hq]

end SupplyInv

/-- **The recorded money supply is the value of the unspent outputs**, no output is spent twice, no
slot is overwritten, and a block raises the supply by at most its subsidy or reward. -/
theorem moneySupply_eq_unspentValue (env : Env) (hinj : TxHashBinds env) (n₀ n : Node) (h₀ : AtGenesis env n₀)
    (hrun : Relation.ReflTransGen (TipStep env) n₀ n) : n.moneySupply = n.unspentValue env ∧
      (((n.connectedBlocks env).flatMap (·.vtx)).flatMap CTransaction.outpoints).Nodup ∧
      ∀ h p b, n.OnTip env h p b → (n.connectBlock env b p false).1 = true →
        (∀ o q, q ≠ .null → n.txdb.txIndex.slot o = some q →
          (n.advance env h p b).txdb.txIndex.slot o = some q) ∧
        (b.isProofOfWork = true → (n.advance env h p b).moneySupply - n.moneySupply ≤
          if p.nHeight ≤ 50 then 1 * coin else 496 * coin) ∧
        (b.isProofOfStake = true → ∃ tx0 tx1 rest nCoinAge, b.vtx = tx0 :: tx1 :: rest ∧
          getCoinAge env (n.connectCtx p).toTxSource tx1 = some nCoinAge ∧
          (n.advance env h p b).moneySupply - n.moneySupply ≤ getProofOfStakeReward nCoinAge) := by
  have hinv := SupplyInv.run hinj h₀ hrun
  obtain ⟨hs, hnd⟩ := hinv.moneySupply_eq hinj
  refine ⟨hs, hnd, fun h p b tip ok => ?_⟩
  obtain ⟨hk, st, htxs, hc, hr, hra⟩ := hinv.connect_effect hinj tip ok
  obtain ⟨hpow, hpos⟩ := connect_raise hc htxs hr
  refine ⟨hk, fun hw => ?_, fun hst => ?_⟩
  · have := hpow hw
    omega
  · obtain ⟨tx0, tx1, rest, nCoinAge, hvtx, hage, hle⟩ := hpos hst
    exact ⟨tx0, tx1, rest, nCoinAge, hvtx, hage, by omega⟩

/-! ### Two blocks connected on genesis, the second one disconnected again -/

theorem Sample.txHashBinds (txs : List CTransaction) (headers : List CBlockHeader) :
    TxHashBinds (Sample.env txs headers) := by
  intro t t' h
  rw [Sample.txHash_injective txs headers h]
  exact ⟨rfl, rfl⟩

theorem TreeOk.of_entries (h : ∀ e ∈ m.toList, e.2.phashBlock = e.1 ∧
    (∀ b ∈ e.2.pprev, ∃ q ∈ m[b]?, e.2.nHeight = q.nHeight + 1) ∧ e.2.nHeight < 2 ^ 31 ∧
    (e.2.pprev ≠ none → ∀ b ∈ files.readFromDisk env e.2, ∀ tx0 ∈ b.vtx.head?, ∀ txin ∈ tx0.vin.head?,
      scriptInt e.2.nHeight <+: txin.scriptSig)) : TreeOk env m files := by
  have he : ∀ {k : Hash256} {p : CBlockIndex}, m[k]? = some p → (k, p) ∈ m.toList :=
    Std.ExtTreeMap.mem_toList_iff_getElem?_eq_some.mpr
  refine ⟨fun hp => (h _ (he hp)).1, fun hp hl => (h _ (he hp)).2.1 _ hl,
    fun hp => (h _ (he hp)).2.2.1, fun hp hr hd tx0 rest hv => ?_⟩
  exact (h _ (he hp)).2.2.2 hr _ hd tx0 (by rw [hv]; rfl)

namespace Sample

def payment : CTransaction :=
  { nTime := 2, vin := [{ prevout := ⟨2, 0⟩ }], vout := [⟨coin / 2, [7]⟩, ⟨coin / 4, [8]⟩] }

def genesisBlock : CBlock := block 0 1 0 [coinbase 0 0]
def firstBlock : CBlock := block 1 2 1 [coinbase 1 coin]
def secondBlock : CBlock := block 2 3004 2 [coinbase 2 coin, payment]

noncomputable def tipEnv : Env :=
  env [coinbase 0 0, coinbase 1 coin, coinbase 2 coin, payment]
    [genesisBlock.toCBlockHeader, firstBlock.toCBlockHeader, secondBlock.toCBlockHeader]

def genesisEntry : CBlockIndex := entry 1 none 1 0 1 genesisBlock
def firstEntry : CBlockIndex := entry 2 (some 1) 2 1 2 firstBlock
def secondEntry : CBlockIndex := entry 3 (some 2) 3 2 3 secondBlock

def tipFiles : BlockFiles := ⟨[⟨1, 8, genesisBlock⟩, ⟨2, 8, firstBlock⟩, ⟨3, 8, secondBlock⟩], 3, by decide⟩

def tipBlocks : BlockMap := (((∅ : BlockMap).insert 1 genesisEntry).insert 2 firstEntry).insert 3 secondEntry

def tipNode : Node := node tipFiles tipBlocks (fun _ => none) 1 0 []

theorem tipNode_atGenesis : AtGenesis tipEnv tipNode :=
  ⟨.of_entries (by decide), ⟨1, genesisEntry, rfl, by decide, rfl, rfl, rfl⟩, fun _ => rfl⟩

noncomputable def tipNode₁ : Node := tipNode.advance tipEnv 2 firstEntry firstBlock
noncomputable def tipNode₂ : Node := tipNode₁.advance tipEnv 3 secondEntry secondBlock

def secondEntry' : CBlockIndex := { secondEntry with nMint := coin, nMoneySupply := 2 * coin - coin / 4 }

end Sample

open Sample in
theorem moneySupply_eq_unspentValue_tip :
    tipNode₂.moneySupply = 2 * coin - coin / 4 ∧ tipNode₂.unspentValue tipEnv = 2 * coin - coin / 4 ∧
      (tipNode₂.retreat tipEnv secondEntry' secondBlock).unspentValue tipEnv = coin := by
  have h₁ : TipStep tipEnv tipNode tipNode₁ := .connect ⟨by decide, rfl, by decide⟩ (by decide)
  have h₂ : TipStep tipEnv tipNode₁ tipNode₂ := .connect ⟨by decide, rfl, by decide⟩ (by decide)
  have h₃ : TipStep tipEnv tipNode₂ (tipNode₂.retreat tipEnv secondEntry' secondBlock) :=
    .disconnect rfl (by decide) rfl (by decide) (by decide)
  have hrun := (Relation.ReflTransGen.single h₁).tail h₂
  have hup := moneySupply_eq_unspentValue _ (txHashBinds _ _) _ _ tipNode_atGenesis hrun
  have hb := moneySupply_eq_unspentValue _ (txHashBinds _ _) _ _ tipNode_atGenesis (hrun.tail h₃)
  have hs : tipNode₂.moneySupply = 2 * coin - coin / 4 := by decide
  exact ⟨hs, hup.1 ▸ hs, hb.1 ▸ by decide⟩

end CloakCoin.Chain
