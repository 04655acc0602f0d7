import WalletProxyIndexer.Indexer

/-!
# Commits whose outcome is unknown

A connection may break after the server has committed a block and before the indexer
learns of it (`Action.commitUnanswered`).  `use_db` then inserts the same block again,
and no table refuses it: the block is recorded twice.

What would keep it out is a look at the last recorded height, `Ahead`: each block lies
above it when it commits.  Blocks are recorded at most once exactly in the executions
whose commits are all of such blocks, or of blocks without rows (`recorded_once_iff`).
-/

namespace WalletProxyIndexer

open Transition

section
variable {J : Type} [SdkJson J] {chain : Chain}

/-- The contents after the blocks of these heights, in this order. -/
noncomputable def Chain.contents (J : Type) [SdkJson J] (chain : Chain) (ns : List Nat) : Contents J :=
  Contents.records .empty (ns.map chain.blockData)

/-- The contents come from different blocks of the chain, each recorded once. -/
def RecordedOnce (chain : Chain) (db : Tables J) : Prop :=
  ∃ ns : List Nat, ns.Nodup ∧ (∀ n ∈ ns, n + 1 < 2 ^ 64) ∧ db.contents = chain.contents J ns

/-- The block lies above the last recorded height, or has no rows. -/
def Ahead (db : Tables J) (d : TransactionLogData) : Prop :=
  d.hasRows = true → ∀ h, getLastBlockHeight db = some h → h < d.blockInfo.blockHeight

/-- What a step commits lies ahead. -/
def CommitsAhead (s : Service TransactionLogData (Tables J) CanonicalAddressCache)
    (l : Action TransactionLogData) : Prop :=
  ∀ d, l = .commit d ∨ l = .commitUnanswered d → Ahead s.db d

/-! ## Heights -/

theorem Chain.toNat_blockHeight (chain : Chain) {n : Nat} (hn : n + 1 < 2 ^ 64) :
    (chain.blockData n).blockInfo.blockHeight.toNat = n := by
  show (chain.blockInfo n).blockHeight.toNat = n
  rw [chain.blockHeight]
  exact UInt64.toNat_ofNat_of_lt' (show n < 2 ^ 64 by omega)

theorem Chain.contents_concat (ns : List Nat) (n : Nat) :
    chain.contents J (ns ++ [n]) = (chain.contents J ns).record (chain.blockData n) := by
  unfold contents Contents.records
  rw [List.map_append, List.foldl_append]
  rfl

/-- A height occurs once for each row of its block, each time the block was recorded. -/
theorem Chain.count_heights (chain : Chain) (J : Type) [SdkJson J] {ns : List Nat}
    (hns : ∀ m ∈ ns, m + 1 < 2 ^ 64) {n : Nat} (hn : n + 1 < 2 ^ 64) :
    (chain.contents J ns).heights.count (UInt64.ofNat n) =
      ns.count n * (chain.blockData n).rowCount := by
  induction ns using List.reverseRecOn with
  | nil => simp [contents, Contents.records, Contents.heights, Contents.empty]
  | append_singleton ns m ih =>
    have hm : m + 1 < 2 ^ 64 := hns m (by simp)
    rw [contents_concat, Contents.heights_record, List.count_append,
      ih fun x hx => hns x (List.mem_append_left _ hx), List.count_append, List.count_replicate,
      Nat.add_mul]
    congr 1
    show (if ((chain.blockInfo m).blockHeight == UInt64.ofNat n) = true then _ else 0) = _
    rw [chain.blockHeight]
    by_cases hmn : m = n
    · subst hmn
      simp
    · have hne : UInt64.ofNat m ≠ UInt64.ofNat n := by
        intro h
        have := congrArg UInt64.toNat h
        rw [UInt64.toNat_ofNat_of_lt' (show m < 2 ^ 64 by omega),
          UInt64.toNat_ofNat_of_lt' (show n < 2 ^ 64 by omega)] at this
        exact hmn this
      rw [if_neg (by simpa using hne), List.count_singleton, if_neg (by simpa using hmn), Nat.zero_mul]

/-- The height recorded last is that of the last block. -/
theorem Chain.lastHeight_contents {ns : List Nat} {n : Nat}
    (hrows : (chain.blockData n).hasRows = true) :
    (chain.contents J (ns ++ [n])).heights.getLast? = some (chain.blockData n).blockInfo.blockHeight := by
  have hpos := (chain.blockData n).hasRows_iff.mp hrows
  rw [contents_concat, Contents.heights_record, List.getLast?_append, List.getLast?_replicate,
    if_neg (by omega)]
  rfl

/-! ## The feed -/

/-- The blocks recorded so far, in ascending order and none above the cursor. -/
structure Once (chain : Chain) (ns : List Nat) (a : Feed (Tables J)) : Prop where
  ascending : ns.Pairwise (· < ·)
  blocks : ∀ n ∈ ns, n + 1 < 2 ^ 64 ∧ (chain.blockData n).hasRows = true
  contents : a.db.contents = chain.contents J ns
  cursor : ∀ q, a.cursor = some q → ∀ n ∈ ns, n ≤ q

theorem once_empty {a : Feed (Tables J)} (hdb : a.db.contents = .empty) : Once chain [] a where
  ascending := .nil
  blocks n hn := by cases hn
  contents := hdb
  cursor q _ n hn := by cases hn

theorem Once.recordedOnce {ns : List Nat} {a : Feed (Tables J)} (h : Once chain ns a) :
    RecordedOnce chain a.db :=
  ⟨ns, h.ascending.imp Nat.ne_of_lt, fun n hn => (h.blocks n hn).1, h.contents⟩

/-- The height recorded last is that of the highest block. -/
theorem Once.last {ns : List Nat} {a : Feed (Tables J)} (h : Once chain ns a) :
    (ns = [] ∧ getLastBlockHeight a.db = none) ∨ ∃ m ∈ ns, (∀ n ∈ ns, n ≤ m) ∧
      getLastBlockHeight a.db = some (chain.blockData m).blockInfo.blockHeight := by
  have hasc := h.ascending
  have hblocks := h.blocks
  rw [getLastBlockHeight_eq, h.contents]
  rcases List.eq_nil_or_concat ns with rfl | ⟨ns', m, rfl⟩
  · exact Or.inl ⟨rfl, rfl⟩
  · rw [List.concat_eq_append] at *
    have hm : m ∈ ns' ++ [m] := by simp
    refine Or.inr ⟨m, hm, fun n hn => ?_, Chain.lastHeight_contents (hblocks m hm).2⟩
    rcases List.mem_append.mp hn with hn | hn
    · exact Nat.le_of_lt ((List.pairwise_append.mp hasc).2.2 n hn m (List.mem_singleton_self m))
    · rw [List.mem_singleton.mp hn]

theorem Once.commit {ns : List Nat} {n : Nat} {db db' : Tables J} {k : Option Nat}
    {d : TransactionLogData} (h : Once chain ns ⟨db, some n⟩) (answered : Bool)
    (hdata : chain.BlockData n d) (hn : n + 1 < 2 ^ 64) (hahead : Ahead db d)
    (hins : insertIntoDb k db d = (.ok (), db')) :
    ∃ ns', Once chain ns' ⟨db', some (if answered then n + 1 else n)⟩ := by
  obtain ⟨hrec, -, -, -⟩ := commit_contents hdata hn hins
  have hrows : d.hasRows = (chain.blockData n).hasRows := by rw [← hdata.eq_blockData]; rfl
  have hle : n ≤ (if answered then n + 1 else n) := by split <;> omega
  cases hr : d.hasRows with
  | false =>
    refine ⟨ns, h.ascending, h.blocks, ?_, fun q hq m hm => ?_⟩
    · show db'.contents = _
      rw [hrec, Contents.record_of_no_rows _ (by rw [← hrows, hr])]
      exact h.contents
    · cases hq
      exact Nat.le_trans (h.cursor n rfl m hm) hle
  | true =>
    -- every block recorded so far lies below
    have hbelow : ∀ m ∈ ns, m < n := by
      intro m hm
      rcases h.last with ⟨rfl, -⟩ | ⟨l, hl, hmax, hlast⟩
      · cases hm
      · have hlt := UInt64.lt_iff_toNat_lt.mp (hahead hr _ hlast)
        rw [chain.toNat_blockHeight (h.blocks l hl).1, (hdata.height hn).1] at hlt
        exact Nat.lt_of_le_of_lt (hmax m hm) hlt
    refine ⟨ns ++ [n], ?_, fun m hm => ?_, ?_, fun q hq m hm => ?_⟩
    · refine List.pairwise_append.mpr ⟨h.ascending, List.pairwise_singleton _ _, fun m hm x hx => ?_⟩
      rw [List.mem_singleton.mp hx]
      exact hbelow m hm
    · rcases List.mem_append.mp hm with hm | hm
      · exact h.blocks m hm
      · rw [List.mem_singleton.mp hm]
        exact ⟨hn, by rw [← hrows, hr]⟩
    · show db'.contents = _
      rw [hrec, Chain.contents_concat]
      exact congrArg (fun c : Contents J => c.record (chain.blockData n)) h.contents
    · cases hq
      rcases List.mem_append.mp hm with hm | hm
      · exact Nat.le_trans (Nat.le_of_lt (hbelow m hm)) hle
      · rw [List.mem_singleton.mp hm]
        exact hle

/-- A block that commits again is there twice. -/
theorem Once.commit_again {ns : List Nat} {n : Nat} {db db' : Tables J} {k : Option Nat}
    {d : TransactionLogData} (h : Once chain ns ⟨db, some n⟩) (hdata : chain.BlockData n d)
    (hn : n + 1 < 2 ^ 64) (hahead : ¬Ahead db d) (hins : insertIntoDb k db d = (.ok (), db')) :
    ¬RecordedOnce chain db' := by
  rintro ⟨ns', hnodup, hns', hcontents'⟩
  obtain ⟨hrec, -, -, -⟩ := commit_contents hdata hn hins
  unfold Ahead at hahead
  push Not at hahead
  obtain ⟨hr, height, hlast, hge⟩ := hahead
  -- it is the last block recorded
  have hmem : n ∈ ns := by
    rcases h.last with ⟨-, hnone⟩ | ⟨m, hm, -, hsome⟩
    · rw [hlast] at hnone; cases hnone
    · obtain rfl := Option.some.inj (hlast.symm.trans hsome)
      have hge := mt UInt64.lt_iff_toNat_lt.mpr hge
      rw [chain.toNat_blockHeight (h.blocks m hm).1, (hdata.height hn).1] at hge
      obtain rfl : m = n := Nat.le_antisymm (h.cursor n rfl m hm) (Nat.le_of_not_lt hge)
      exact hm
  have hrows := (h.blocks n hmem).2
  have hpos := (chain.blockData n).hasRows_iff.mp hrows
  have hcontents : db'.contents = chain.contents J (ns ++ [n]) := by
    rw [hrec, Chain.contents_concat]
    exact congrArg (fun c : Contents J => c.record (chain.blockData n)) h.contents
  have hns : ∀ m ∈ ns ++ [n], m + 1 < 2 ^ 64 := by
    intro m hm
    rcases List.mem_append.mp hm with hm | hm
    · exact (h.blocks m hm).1
    · rw [List.mem_singleton.mp hm]; exact hn
  have htwice := chain.count_heights J hns hn
  have honce := chain.count_heights J hns' hn
  rw [← hcontents, hcontents', honce, List.count_append] at htwice
  have hone : ns'.count n ≤ 1 := List.nodup_iff_count_le_one.mp hnodup n
  have hcount : 0 < ns.count n := List.count_pos_iff.mpr hmem
  have hself : [n].count n = 1 := by simp
  rw [hself] at htwice
  have := Nat.eq_of_mul_eq_mul_right hpos htwice
  omega

theorem Once.step {ns : List Nat} {a a' : Feed (Tables J)} {m : FeedAction TransactionLogData}
    (h : Once chain ns a) (hm : ∀ n d answered, m = .insert n d answered → Ahead a.db d)
    (hstep : FeedStep (databaseState J) chain.BlockData a m a') : ∃ ns', Once chain ns' a' := by
  cases hstep with
  | @resume db cursor =>
    refine ⟨ns, h.ascending, h.blocks, h.contents, fun q hq n hn => ?_⟩
    cases hq
    rcases h.last with ⟨rfl, -⟩ | ⟨m, hm, hmax, hlast⟩
    · cases hn
    · have hheight := chain.toNat_blockHeight (h.blocks m hm).1
      have hnext : ((databaseState J).startFrom db).toNat = m + 1 := by
        rw [startFrom_eq]
        unfold Contents.startFrom
        rw [← getLastBlockHeight_eq, hlast]
        show (AbsoluteBlockHeight.next _).toNat = m + 1
        rw [toNat_next (k := 0) (by rw [hheight]; exact (h.blocks m hm).1), hheight]
      rw [hnext]
      exact Nat.le_succ_of_le (hmax n hn)
  | insert answered hdata hn hins => exact h.commit answered hdata hn (hm _ _ _ rfl) hins
  | fail hdata hins =>
    obtain ⟨hsame, -⟩ := failed_contents hins
    exact ⟨ns, h.ascending, h.blocks, hsame.trans h.contents, h.cursor⟩

/-! ## The service -/

theorem once_of_reachable {args : SharedIndexerArgs}
    {s : Service TransactionLogData (Tables J) CanonicalAddressCache}
    (h : Reachable ((indexer (J := J) chain args fun db => db.contents = .empty).service.restrict
      CommitsAhead) s) : ∃ a ns, Indexing chain s a ∧ Once chain ns a := by
  have hsim := (indexer_follows_feed chain args fun db : Tables J => db.contents = .empty).restrict
    (P := CommitsAhead) (Q := fun a m => ∀ n d answered, m = .insert n d answered → Ahead a.db d)
    (fun s a l m hr hl hp n d answered hm => by
      rw [hr.1]
      refine hp d ?_
      rw [hl, hm]
      cases answered
      · exact Or.inr rfl
      · exact Or.inl rfl)
  obtain ⟨a, ha, hr⟩ := hsim.reachable h
  have hinv : ∃ ns, Once chain ns a := by
    refine ha.invariant (I := fun a => ∃ ns, Once chain ns a) ?_ ?_
    · rintro a ⟨hdb, -⟩
      exact ⟨[], once_empty hdb⟩
    · rintro a m a' ⟨ns, hns⟩ ⟨hahead, hstep⟩
      exact hns.step hahead hstep
  obtain ⟨ns, hns⟩ := hinv
  exact ⟨a, ns, hr, hns⟩

/-- In an execution of the indexer from an empty index, where any commit may go unanswered:
every block is recorded at most once at every moment exactly if each block that commits lies
above the last recorded height, or has no rows. -/
theorem recorded_once_iff {args : SharedIndexerArgs}
    (e : Execution (indexer (J := J) chain args fun db => db.contents = .empty).service) :
    (∀ i, RecordedOnce chain (e.state i).db) ↔
      ∀ i l, e.label i = some l → CommitsAhead (e.state i) l := by
  constructor
  · intro honce i
    induction i using Nat.strong_induction_on with
    | _ i ih =>
      intro l hl d hd
      by_contra hahead
      -- up to here every commit lay ahead
      obtain ⟨a, ns, hr, hns⟩ := once_of_reachable (e.reachable_restrict ih)
      have hstep := e.moves i
      rw [hl] at hstep
      obtain ⟨n, k, hcur, hdata, hn, hins⟩ := hr.commit hstep hd
      have hns : Once chain ns ⟨(e.state i).db, some n⟩ := by
        rw [← hr.1, ← hcur]
        exact hns
      exact hns.commit_again hdata hn hahead hins (honce (i + 1))
  · intro hahead i
    obtain ⟨a, ns, hr, hns⟩ := once_of_reachable (e.reachable_restrict fun j _ => hahead j)
    rw [← hr.1]
    exact hns.recordedOnce

end

/-- Every block pays a reward. -/
def rewardChain : Chain :=
  .ofEvents (fun _ => []) (fun _ => [.known (.paydayFoundationReward ⟨.replicate 32 0⟩)])
    (fun _ => ⟨[]⟩)

/-- The commit of block 0 goes unanswered; the indexer reconnects and commits it again. -/
theorem block_recorded_twice : ∃ s,
    Reachable (indexer (J := PlainJson) rewardChain oneNode fun db => db.contents = .empty).service s ∧
    ¬RecordedOnce rewardChain s.db := by
  let chain := rewardChain
  let setup := indexer (J := PlainJson) chain oneNode fun db => db.contents = .empty
  let db : Tables PlainJson := .empty
  let d : TransactionLogData :=
    ⟨chain.blockInfo 0, [], [.paydayFoundationReward ⟨.replicate 32 0⟩], .new⟩
  have hd : (onFinalizedBlock (chain.node 0) db.contents.startFrom
      (onUseNode (chain.node 0) .empty).2).1 = .ok d := rfl
  have hinitial : setup.initial db := rfl
  obtain ⟨cache, hmid⟩ := indexer_midChunk chain oneNode hinitial (by decide) (Nat.le_refl 2) hd
  have hdata : chain.BlockData 0 d :=
    (onFinalizedBlock_keeps (chain.node_follows 0) 0 _
      (CanonicalAddressCache.canonical_empty chain)).2 d rfl
  -- it commits, twice
  have hins : ∀ db : Tables PlainJson, ∃ db', insertIntoDb none db d = (.ok (), db') :=
    fun db => insertIntoDb_healthy rfl rfl
  obtain ⟨db₁, hins₁⟩ := hins db
  obtain ⟨db₂, hins₂⟩ := hins db₁
  have hfirst : setup.databaseHooks.insertIntoDb none db d = (.ok (), db₁) := hins₁
  have hsecond : setup.databaseHooks.insertIntoDb none db₁ d = (.ok (), db₂) := hins₂
  have hunanswered := reachable_step hmid (.database (.insertedUnanswered rfl hfirst))
  have hreconnected := reachable_step hunanswered (.database (.reconnected rfl))
  have htwice := reachable_step hreconnected (.database (.inserted rfl hsecond))
  refine ⟨_, htwice, ?_⟩
  have hahead : Ahead db d := by
    intro _ h hlast
    cases hlast
  have hempty : Once chain [] ⟨db, some 0⟩ := once_empty rfl
  obtain ⟨ns, hns⟩ := hempty.commit false hdata (by decide) hahead hins₁
  have hnot : ¬Ahead db₁ d := by
    intro h
    have hlast : getLastBlockHeight db₁ = some 0 := by
      rw [getLastBlockHeight_eq, (commit_contents hdata (by decide) hins₁).1]
      rfl
    exact absurd (h rfl 0 hlast) (by decide)
  exact hns.commit_again hdata (by decide) hnot hins₂

end WalletProxyIndexer
