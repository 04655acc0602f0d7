import WalletProxyIndexer.Feed
import WalletProxyIndexer.NodeHooks
import WalletProxyIndexer.Record

/-!
# The indexer

`main`: the service with `DatabaseState` and `CanonicalAddressCache` as its hooks, over
nodes that follow one chain.  Every run of it is a run of a feed of the blocks of that
chain (`indexer_follows_feed`), and each block that commits adds to the contents what
the chain says of it (`commit_contents`).

The height a start resumes from is read off the contents: `Contents.startFrom`.
-/

namespace WalletProxyIndexer

open Transition

/-! ## Hooks -/

def databaseState (J : Type) [SdkJson J] : DatabaseHooks TransactionLogData (Tables J) where
  insertIntoDb := insertIntoDb
  onRequestMaxHeight := getLastBlockHeight

/-- The hooks of the cache, whichever node of the chain answers. -/
def Chain.nodeHooks (chain : Chain) : NodeHooks TransactionLogData CanonicalAddressCache where
  onUseNode cache r cache' := ∃ client : Node, client.Follows chain ∧ onUseNode client cache = (r, cache')
  onFinalizedBlock cache height r cache' :=
    ∃ node : Node, node.Follows chain ∧ onFinalizedBlock node height cache = (r, cache')

def indexer {J : Type} [SdkJson J] (chain : Chain) (args : SharedIndexerArgs)
    (initial : Tables J → Prop) : Setup TransactionLogData (Tables J) CanonicalAddressCache where
  args := args
  databaseHooks := databaseState J
  nodeHooks := chain.nodeHooks
  newHooks := .empty
  initial := initial

/-- One endpoint, chunks of two blocks. -/
def oneNode : SharedIndexerArgs := ⟨1, 2, 6, Nat.one_pos⟩

theorem Chain.nodeHooks_serve (chain : Chain) :
    chain.nodeHooks.Serve (CanonicalAddressCache.Canonical chain) chain.BlockData where
  useNode := by
    rintro cache r cache' hcache ⟨client, hclient, hrun⟩
    have h := (onUseNode_keeps hclient cache hcache).1
    rw [hrun] at h
    exact h
  finalizedBlock := by
    rintro cache height r cache' hcache ⟨node, hnode, hrun⟩
    have h := onFinalizedBlock_keeps hnode height cache hcache
    rw [hrun] at h
    exact h

/-! ## Heights in the contents -/

def TransactionLogData.rowCount (d : TransactionLogData) : Nat :=
  d.itemSummaries.length + d.specialEvents.length

theorem TransactionLogData.hasRows_iff (d : TransactionLogData) : d.hasRows = true ↔ 0 < d.rowCount := by
  unfold hasRows rowCount
  cases d.itemSummaries <;> cases d.specialEvents <;> simp

section
variable {J : Type} [SdkJson J]

omit [SdkJson J] in
def Contents.heights (c : Contents J) : List AbsoluteBlockHeight :=
  c.summaries.map fun r => r.height.toUInt64

/-- A row for each item and each special outcome, all at the height of the block. -/
theorem Contents.heights_record (c : Contents J) (d : TransactionLogData) :
    (c.record d).heights = c.heights ++ List.replicate d.rowCount d.blockInfo.blockHeight := by
  have hitem : ∀ (c : Contents J) (ts : BlockItemSummaryWithCanonicalAddresses),
      (c.recordTransaction d.blockInfo ts).heights = c.heights ++ [d.blockInfo.blockHeight] := by
    intro c ts
    simp [heights, recordTransaction, addItem, SummaryRow.columns]
  have hspecial : ∀ (c : Contents J) (so : SpecialTransactionOutcome),
      (c.recordSpecial d.blockInfo so).heights = c.heights ++ [d.blockInfo.blockHeight] := by
    intro c so
    simp [heights, recordSpecial, addItem, SummaryRow.columns]
  have hfold : ∀ {α : Type} (f : Contents J → α → Contents J) (l : List α) (c : Contents J),
      (∀ c a, (f c a).heights = c.heights ++ [d.blockInfo.blockHeight]) →
      (l.foldl f c).heights = c.heights ++ List.replicate l.length d.blockInfo.blockHeight := by
    intro α f l c hf
    induction l generalizing c with
    | nil => simp
    | cons a l ih =>
      rw [List.foldl_cons, ih, hf, List.append_assoc, List.length_cons, List.replicate_succ]
      rfl
  unfold record TransactionLogData.rowCount
  rw [hfold _ _ _ hspecial, hfold _ _ _ hitem, List.append_assoc, List.replicate_append_replicate]

theorem Contents.record_of_no_rows (c : Contents J) {d : TransactionLogData}
    (h : d.hasRows = false) : c.record d = c := by
  unfold TransactionLogData.hasRows at h
  have h : d.itemSummaries = [] ∧ d.specialEvents = [] := by simpa using h
  unfold record
  rw [h.1, h.2]
  rfl

omit [SdkJson J] in
/-- The height the indexer starts from. -/
def Contents.startFrom (c : Contents J) : AbsoluteBlockHeight :=
  match c.heights.getLast? with
  | some h => h.next
  | none => 0

omit [SdkJson J] in
theorem getLastBlockHeight_eq (db : Tables J) :
    getLastBlockHeight db = db.contents.heights.getLast? := by
  unfold Contents.heights
  rw [List.getLast?_map]
  rfl

theorem startFrom_eq (db : Tables J) : (databaseState J).startFrom db = db.contents.startFrom := by
  unfold Contents.startFrom
  rw [← getLastBlockHeight_eq]
  rfl

theorem Contents.startFrom_record (c : Contents J) {d : TransactionLogData}
    (h : d.hasRows = true) : (c.record d).startFrom = d.blockInfo.blockHeight.next := by
  have hpos := d.hasRows_iff.mp h
  unfold startFrom
  rw [heights_record, List.getLast?_append, List.getLast?_replicate, if_neg (by omega)]
  rfl

end

/-! ## Blocks of the chain -/

namespace Chain

variable (chain : Chain)

/-- Block `n` has a transaction or a special outcome. -/
def hasRows (n : Nat) : Bool :=
  !((chain.transactionEvents n).isEmpty && (chain.specialEvents n).isEmpty)

/-- Blocks `m`, …, `n - 1` write no summaries. -/
def NoRows (m n : Nat) : Prop := ∀ i, m ≤ i → i < n → chain.hasRows i = false

variable {chain} in
theorem NoRows.succ {m n : Nat} (h : chain.NoRows m n) (hn : chain.hasRows n = false) :
    chain.NoRows m (n + 1) := by
  intro i hm hi
  by_cases hin : i = n
  · rw [hin]; exact hn
  · exact h i hm (by omega)

/-- What the index says of block `n`; the key bindings are not part of it. -/
noncomputable def blockData (n : Nat) : TransactionLogData where
  blockInfo := chain.blockInfo n
  itemSummaries := (chain.transactionEvents n).map chain.resolve
  specialEvents := (chain.specialEvents n).filterMap Upward.toOption
  bindings := .new

variable {chain} {n : Nat} {d : TransactionLogData}

theorem BlockData.eq_blockData (h : chain.BlockData n d) :
    { d with bindings := (chain.blockData n).bindings } = chain.blockData n := by
  have hspecial : (chain.specialEvents n).filterMap Upward.toOption = d.specialEvents := by
    rw [← h.specialEvents, List.filterMap_map]
    exact List.filterMap_some
  unfold blockData
  rw [hspecial, ← h.blockInfo, ← h.itemSummaries]

theorem BlockData.record {J : Type} [SdkJson J] (h : chain.BlockData n d) (c : Contents J) :
    c.record d = c.record (chain.blockData n) := by
  rw [← h.eq_blockData]
  rfl

theorem BlockData.hasRows (h : chain.BlockData n d) : d.hasRows = chain.hasRows n := by
  unfold TransactionLogData.hasRows Chain.hasRows
  rw [h.itemSummaries, ← h.specialEvents]
  cases chain.transactionEvents n <;> cases d.specialEvents <;> rfl

theorem BlockData.height (h : chain.BlockData n d) (hn : n + 1 < 2 ^ 64) :
    d.blockInfo.blockHeight.toNat = n ∧ d.blockInfo.blockHeight.next.toNat = n + 1 := by
  have hheight : d.blockInfo.blockHeight.toNat = n := by
    rw [h.blockInfo, chain.blockHeight]
    exact UInt64.toNat_ofNat_of_lt' (show n < 2 ^ 64 by omega)
  exact ⟨hheight, by rw [toNat_next (k := 0) (by omega), hheight]⟩

end Chain

section
variable {J : Type} [SdkJson J] {chain : Chain}

/-- The blocks of the chain, fed to the tables. -/
def blockFeed (chain : Chain) (initial : Tables J → Prop) :
    System (Feed (Tables J)) (FeedAction TransactionLogData) :=
  feed (databaseState J) chain.BlockData initial

/-- A service and a feed with the same tables. -/
def Indexing (chain : Chain) : Service TransactionLogData (Tables J) CanonicalAddressCache →
    Feed (Tables J) → Prop :=
  FollowsFeed (CanonicalAddressCache.Canonical chain) chain.BlockData

theorem indexer_follows_feed (chain : Chain) (args : SharedIndexerArgs)
    (initial : Tables J → Prop) :
    Simulation (indexer chain args initial).service (blockFeed chain initial) (Indexing chain)
      (fun l m => l = m.ofService) :=
  service_follows_feed chain.nodeHooks_serve (CanonicalAddressCache.canonical_empty chain)

/-- What the tables hold after block `n` commits, and where a start resumes then. -/
theorem commit_contents {db db' : Tables J} {n : Nat} {k : Option Nat} {d : TransactionLogData}
    (hdata : chain.BlockData n d) (hn : n + 1 < 2 ^ 64) (h : insertIntoDb k db d = (.ok (), db')) :
    db'.contents = db.contents.record (chain.blockData n) ∧
    db'.keyBindings = applyBindings db.keyBindings d.bindings ∧
    (chain.hasRows n = true → db'.contents.startFrom.toNat = n + 1) ∧
    (chain.hasRows n = false → db'.contents = db.contents) := by
  obtain ⟨hc, hb, -⟩ := insertIntoDb_committed h
  refine ⟨by rw [hc, hdata.record], hb, fun hrows => ?_, fun hrows => ?_⟩
  · rw [hc, Contents.startFrom_record _ (by rw [hdata.hasRows, hrows])]
    exact (hdata.height hn).2
  · rw [hc, Contents.record_of_no_rows _ (by rw [hdata.hasRows, hrows])]

/-- A block that does not commit leaves contents and key bindings as they were. -/
theorem failed_contents {db db' : Tables J} {k : Option Nat} {d : TransactionLogData}
    {e : IndexingError} (h : insertIntoDb k db d = (.error e, db')) :
    db'.contents = db.contents ∧ db'.keyBindings = db.keyBindings := by
  obtain ⟨⟨w, rfl⟩, -⟩ := insertIntoDb_failed h
  exact ⟨Tables.contents_rollback db w, Tables.keyBindings_rollback db w⟩

/-- Only a commit changes contents and key bindings. -/
theorem ServiceStep.contents {args : SharedIndexerArgs} {initial : Tables J → Prop}
    {s s' : Service TransactionLogData (Tables J) CanonicalAddressCache}
    {l : Action TransactionLogData} (h : ServiceStep (indexer chain args initial) s l s')
    (hl : ∀ d, l ≠ .commit d ∧ l ≠ .commitUnanswered d) :
    s'.db.contents = s.db.contents ∧ s'.db.keyBindings = s.db.keyBindings := by
  cases h with
  | database hd =>
    cases hd with
    | inserted _ _ => exact absurd rfl (hl _).1
    | insertedUnanswered _ _ => exact absurd rfl (hl _).2
    | unknownData _ hins => exact failed_contents hins
    | connectionLost _ hins => exact failed_contents hins
    | _ => exact ⟨rfl, rfl⟩
  | _ => exact ⟨rfl, rfl⟩

/-- Over nodes that answer every query, the first block gets to the database task. -/
theorem indexer_midChunk (chain : Chain) (args : SharedIndexerArgs) {initial : Tables J → Prop}
    {db : Tables J} {d : TransactionLogData} (hinitial : initial db)
    (hstart : db.contents.startFrom.toNat + 2 < 2 ^ 64) (hparallel : 2 ≤ args.numParallel)
    (hd : (onFinalizedBlock (chain.node 0) db.contents.startFrom
      (onUseNode (chain.node 0) .empty).2).1 = .ok d) :
    ∃ cache, Reachable (indexer chain args initial).service
      ⟨db, some (.midChunk db.contents.startFrom d cache)⟩ := by
  have huse : onUseNode (chain.node 0) .empty = (.ok (), (onUseNode (chain.node 0) .empty).2) := rfl
  rcases hblock : onFinalizedBlock (chain.node 0) db.contents.startFrom
    (onUseNode (chain.node 0) .empty).2 with ⟨r, cache⟩
  rw [hblock] at hd
  obtain rfl : r = .ok d := hd
  exact ⟨cache, (indexer chain args initial).reachable_midChunk hinitial (startFrom_eq db) hstart
    hparallel ⟨chain.node 0, chain.node_follows 0, huse⟩ ⟨chain.node 0, chain.node_follows 0, hblock⟩⟩

end

end WalletProxyIndexer
