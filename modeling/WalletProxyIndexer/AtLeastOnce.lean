import WalletProxyIndexer.InFlight
import WalletProxyIndexer.UnansweredCommit

/-!
# At least once, in order

What is left of `index_is_fold` when commits go unanswered.  The index is then still
the contents of a list of blocks (`recorded_in_order`):

* the heights in the list ascend, though a block may be in it several times in a row;
* no block with rows is missing below one that is there;
* the list is only ever extended;
* beyond its first copy, a block has at most one copy for each commit of it that went
  unanswered.

So a reader that drops repeated blocks reads the chain.  The last recorded height is the
greatest one (`InOrder.last`), so that a restart alone never repeats a block.

The cursor of the same invariant says what is on its way: the blocks sent and not yet
inserted follow those in the tables, and the channel bounds how many they are
(`in_flight`).
-/

namespace WalletProxyIndexer

open Transition

section
variable {J : Type} [SdkJson J] {chain : Chain}

theorem Chain.hasRows_of_blockData {n : Nat} (h : (chain.blockData n).hasRows = true) :
    chain.hasRows n = true := by
  unfold TransactionLogData.hasRows Chain.blockData at h
  unfold Chain.hasRows
  cases ht : chain.transactionEvents n with
  | cons s l => rfl
  | nil =>
    cases hs : chain.specialEvents n with
    | cons u l => rfl
    | nil => simp [ht, hs] at h

/-- The blocks in the tables, where `u n` commits of block `n` went unanswered. -/
structure InOrder (chain : Chain) (u : Nat → Nat) (ns : List Nat) (a : Feed (Tables J)) : Prop where
  contents : a.db.contents = chain.contents J ns
  blocks : ∀ n ∈ ns, n + 1 < 2 ^ 64 ∧ (chain.blockData n).hasRows = true
  ascending : ns.Pairwise (· ≤ ·)
  complete : ∀ n ∈ ns, ∀ m < n, chain.hasRows m = true → m ∈ ns
  copies : ∀ n, ns.count n ≤ u n + 1
  /-- every block before the cursor is there, and the copies from there on were not answered -/
  cursor : ∀ q, a.cursor = some q → (∀ n ∈ ns, n ≤ q) ∧
    (∀ m < q, chain.hasRows m = true → m ∈ ns) ∧ ∀ n, q ≤ n → ns.count n ≤ u n

theorem inOrder_empty {u : Nat → Nat} {a : Feed (Tables J)} (hdb : a.db.contents = .empty)
    (hcursor : a.cursor = none) : InOrder chain u [] a where
  contents := hdb
  blocks n hn := by cases hn
  ascending := .nil
  complete n hn := by cases hn
  copies n := Nat.zero_le _
  cursor q hq := by rw [hcursor] at hq; cases hq

variable {u u' : Nat → Nat} {ns : List Nat} {a a' : Feed (Tables J)}

/-- More commits may have gone unanswered. -/
theorem InOrder.mono (h : InOrder chain u ns a) (hu : ∀ n, u n ≤ u' n) : InOrder chain u' ns a where
  contents := h.contents
  blocks := h.blocks
  ascending := h.ascending
  complete := h.complete
  copies n := Nat.le_trans (h.copies n) (Nat.succ_le_succ (hu n))
  cursor q hq := by
    obtain ⟨hle, hbefore, hcount⟩ := h.cursor q hq
    exact ⟨hle, hbefore, fun n hn => Nat.le_trans (hcount n hn) (hu n)⟩

/-- The height recorded last is that of the greatest block. -/
theorem InOrder.last (h : InOrder chain u ns a) :
    (ns = [] ∧ getLastBlockHeight a.db = none) ∨ ∃ m ∈ ns, (∀ n ∈ ns, n ≤ m) ∧
      getLastBlockHeight a.db = some (chain.blockData m).blockInfo.blockHeight := by
  have hasc := h.ascending
  have hblocks := h.blocks
  rw [getLastBlockHeight_eq, h.contents]
  rcases List.eq_nil_or_concat ns with rfl | ⟨ns', m, rfl⟩
  · exact Or.inl ⟨rfl, rfl⟩
  · rw [List.concat_eq_append] at *
    have hm : m ∈ ns' ++ [m] := by simp
    refine Or.inr ⟨m, hm, fun n hn => ?_, Chain.lastHeight_contents (hblocks m hm).2⟩
    rcases List.mem_append.mp hn with hn | hn
    · exact (List.pairwise_append.mp hasc).2.2 n hn m (List.mem_singleton_self m)
    · exact Nat.le_of_eq (List.mem_singleton.mp hn)

/-- A start resumes behind the greatest block. -/
theorem InOrder.startFrom (h : InOrder chain u ns a) :
    (ns = [] ∧ ((databaseState J).startFrom a.db).toNat = 0) ∨ ∃ m ∈ ns, (∀ n ∈ ns, n ≤ m) ∧
      ((databaseState J).startFrom a.db).toNat = m + 1 := by
  rw [startFrom_eq]
  unfold Contents.startFrom
  rw [← getLastBlockHeight_eq]
  rcases h.last with ⟨hnil, hlast⟩ | ⟨m, hm, hmax, hlast⟩
  · rw [hlast]
    exact Or.inl ⟨hnil, rfl⟩
  · have hbound := (h.blocks m hm).1
    have hheight := chain.toNat_blockHeight hbound
    rw [hlast]
    refine Or.inr ⟨m, hm, hmax, ?_⟩
    show (AbsoluteBlockHeight.next _).toNat = m + 1
    rw [toNat_next (k := 0) (by rw [hheight]; exact hbound), hheight]

theorem InOrder.below_start (h : InOrder chain u ns a) {n : Nat} (hn : n ∈ ns) :
    n < ((databaseState J).startFrom a.db).toNat := by
  rcases h.startFrom with ⟨rfl, -⟩ | ⟨m, -, hmax, hstart⟩
  · cases hn
  · have := hmax n hn
    omega

/-- The blocks in the tables are those with rows that a start resumes behind. -/
theorem InOrder.mem_iff (h : InOrder chain u ns a) (n : Nat) :
    n ∈ ns ↔ n < ((databaseState J).startFrom a.db).toNat ∧ chain.hasRows n = true := by
  constructor
  · intro hn
    exact ⟨h.below_start hn, Chain.hasRows_of_blockData (h.blocks n hn).2⟩
  · rintro ⟨hlt, hrows⟩
    rcases h.startFrom with ⟨-, hstart⟩ | ⟨m, hm, -, hstart⟩
    · omega
    · by_cases hnm : n = m
      · rw [hnm]
        exact hm
      · exact h.complete m hm n (by omega) hrows

theorem InOrder.resume {db : Tables J} {cursor : Option Nat} (h : InOrder chain u ns ⟨db, cursor⟩) :
    InOrder chain u ns ⟨db, some ((databaseState J).startFrom db).toNat⟩ where
  contents := h.contents
  blocks := h.blocks
  ascending := h.ascending
  complete := h.complete
  copies := h.copies
  cursor q hq := by
    have hq : q = ((databaseState J).startFrom db).toNat := (Option.some.inj hq).symm
    have hbelow : ∀ n ∈ ns, n < q := fun n hn => by rw [hq]; exact h.below_start hn
    refine ⟨fun n hn => Nat.le_of_lt (hbelow n hn), fun x hx hrows => ?_, fun n hn => ?_⟩
    · rcases h.startFrom with ⟨-, hstart⟩ | ⟨m, hm, -, hstart⟩
      · dsimp only at hstart
        omega
      · dsimp only at hstart
        by_cases hxm : x = m
        · rw [hxm]; exact hm
        · exact h.complete m hm x (by omega) hrows
    · have hnot : n ∉ ns := fun hin => by have := hbelow n hin; omega
      rw [List.count_eq_zero.mpr hnot]
      exact Nat.zero_le _

/-- A commit adds its block at the end, if it has rows. -/
theorem InOrder.commit {db db' : Tables J} {k : Option Nat} {d : TransactionLogData} {q : Nat}
    (h : InOrder chain u ns ⟨db, some q⟩) (answered : Bool) (hdata : chain.BlockData q d)
    (hq : q + 1 < 2 ^ 64) (hins : insertIntoDb k db d = (.ok (), db')) (hu : ∀ n, u n ≤ u' n)
    (hcopy : answered = false → u q + 1 ≤ u' q) :
    ∃ ns', ns <+: ns' ∧ InOrder chain u' ns' ⟨db', some (if answered then q + 1 else q)⟩ := by
  obtain ⟨hrec, -, -, hsame⟩ := commit_contents hdata hq hins
  obtain ⟨hle, hbefore, hcount⟩ := h.cursor q rfl
  have hrows : (chain.blockData q).hasRows = chain.hasRows q := by
    rw [← hdata.hasRows, ← hdata.eq_blockData]
    rfl
  cases hr : chain.hasRows q with
  | false =>
    refine ⟨ns, List.prefix_rfl, ?_⟩
    have h' := h.mono hu
    exact {
      contents := (hsame hr).trans h.contents
      blocks := h.blocks
      ascending := h.ascending
      complete := h.complete
      copies := h'.copies
      cursor := fun q' hq' => by
        have hq' : q' = if answered then q + 1 else q := (Option.some.inj hq').symm
        have hqq : q ≤ q' ∧ q' ≤ q + 1 := by rw [hq']; split <;> omega
        refine ⟨fun n hn => by have := hle n hn; omega, fun m hm hrow => ?_, fun n hn => ?_⟩
        · by_cases hmq : m = q
          · rw [hmq, hr] at hrow; cases hrow
          · exact hbefore m (by omega) hrow
        · exact Nat.le_trans (hcount n (by omega)) (hu n) }
  | true =>
    have hmem : ∀ n, n ∈ ns ++ [q] ↔ n ∈ ns ∨ n = q := fun n => by simp
    have hcopies : ∀ n, (ns ++ [q]).count n = ns.count n + if n = q then 1 else 0 := by
      intro n
      rw [List.count_append, List.count_singleton]
      by_cases hn : n = q
      · simp [hn]
      · simp [hn, Ne.symm hn]
    refine ⟨ns ++ [q], List.prefix_append _ _, ?_⟩
    exact {
      contents := by
        rw [chain.contents_concat]
        exact hrec.trans (congrArg (fun c : Contents J => c.record (chain.blockData q)) h.contents)
      blocks := fun n hn => by
        rcases (hmem n).mp hn with hn | rfl
        · exact h.blocks n hn
        · exact ⟨hq, by rw [hrows, hr]⟩
      ascending := by
        refine List.pairwise_append.mpr ⟨h.ascending, List.pairwise_singleton _ _, ?_⟩
        intro n hn m hm
        rw [List.mem_singleton.mp hm]
        exact hle n hn
      complete := fun n hn m hm hrow => by
        rw [hmem]
        rcases (hmem n).mp hn with hn | rfl
        · exact Or.inl (h.complete n hn m hm hrow)
        · exact Or.inl (hbefore m hm hrow)
      copies := fun n => by
        rw [hcopies]
        have hn := h.copies n
        have hn' := hu n
        by_cases hnq : n = q
        · subst hnq
          have := hcount n (Nat.le_refl n)
          simp only [if_true]
          omega
        · simp only [if_neg hnq]
          omega
      cursor := fun q' hq' => by
        have hq' : q' = if answered then q + 1 else q := (Option.some.inj hq').symm
        have hqq : q ≤ q' ∧ q' ≤ q + 1 := by rw [hq']; split <;> omega
        refine ⟨fun n hn => ?_, fun m hm hrow => ?_, fun n hn => ?_⟩
        · rcases (hmem n).mp hn with hn | rfl
          · have := hle n hn
            omega
          · exact hqq.1
        · rw [hmem]
          by_cases hmq : m = q
          · exact Or.inr hmq
          · exact Or.inl (hbefore m (by omega) hrow)
        · rw [hcopies]
          have hc := hcount n (by omega)
          have hn' := hu n
          by_cases hnq : n = q
          · -- the block itself is at the cursor only if the commit was not answered
            subst hnq
            cases answered with
            | true => simp only [if_true] at hq'; omega
            | false => have := hcopy rfl; simp only [if_true]; omega
          · simp only [if_neg hnq]
            omega }

theorem InOrder.step {m : FeedAction TransactionLogData} (h : InOrder chain u ns a)
    (hstep : FeedStep (databaseState J) chain.BlockData a m a') (hu : ∀ n, u n ≤ u' n)
    (hcopy : ∀ n d, m = .insert n d false → chain.BlockData n d → n + 1 < 2 ^ 64 →
      u n + 1 ≤ u' n) :
    ∃ ns', ns <+: ns' ∧ InOrder chain u' ns' a' := by
  cases hstep with
  | resume => exact ⟨ns, List.prefix_rfl, h.resume.mono hu⟩
  | insert answered hdata hn hins =>
    exact h.commit answered hdata hn hins hu fun ha => hcopy _ _ (by rw [ha]) hdata hn
  | fail hdata hins =>
    obtain ⟨hsame, -⟩ := failed_contents hins
    have h' := h.mono hu
    exact ⟨ns, List.prefix_rfl, hsame.trans h.contents, h.blocks, h.ascending, h.complete, h'.copies,
      h'.cursor⟩

/-! ## The service -/

/-- A commit of block `n` goes unanswered. -/
def UnansweredAt (n : Nat) (_ : Service TransactionLogData (Tables J) CanonicalAddressCache)
    (l : Action TransactionLogData) (_ : Service TransactionLogData (Tables J) CanonicalAddressCache) :
    Prop :=
  ∃ d, l = .commitUnanswered d ∧ d.blockInfo.blockHeight.toNat = n

/-- The list of the blocks in the tables, followed along an execution. -/
theorem exists_inOrder {args : SharedIndexerArgs}
    (e : Execution (indexer (J := J) chain args fun db => db.contents = .empty).service) :
    ∃ ns : Nat → List Nat, ∀ i, ns i <+: ns (i + 1) ∧ ∃ a, Indexing chain (e.state i) a ∧
      InOrder chain (fun n => e.count (UnansweredAt n) 0 i) (ns i) a := by
  have hsim := indexer_follows_feed chain args fun db : Tables J => db.contents = .empty
  let u : Nat → Nat → Nat := fun i n => e.count (UnansweredAt n) 0 i
  have hstart : ∃ ns a, Indexing chain (e.state 0) a ∧ InOrder chain (u 0) ns a := by
    obtain ⟨a, ha, hr⟩ := hsim.init _ e.starts
    exact ⟨[], a, hr, inOrder_empty ha.1 ha.2⟩
  have hnext : ∀ i ns, (∃ a, Indexing chain (e.state i) a ∧ InOrder chain (u i) ns a) →
      ∃ ns', ns <+: ns' ∧ ∃ a, Indexing chain (e.state (i + 1)) a ∧ InOrder chain (u (i + 1)) ns' a := by
    rintro i ns ⟨a, hr, h⟩
    have hu : ∀ n, u i n ≤ u (i + 1) n := fun n => Execution.count_le_next
    rcases e.next _ i with hidle | ⟨l, hl, hstep⟩
    · exact ⟨ns, List.prefix_rfl, a, by rw [hidle]; exact hr, h.mono hu⟩
    · rcases hsim.step _ _ _ a hr hstep with hr' | ⟨m, a', hm, hfeed, hr'⟩
      · exact ⟨ns, List.prefix_rfl, a, hr', h.mono hu⟩
      · obtain ⟨ns', hgrows, h'⟩ := h.step hfeed hu fun n d hd hdata hn => by
          have hcount : u (i + 1) n = u i n +
              tally (UnansweredAt n (e.state i) l (e.state (i + 1))) := Execution.count_next hl
          rw [hcount, tally_of ⟨d, by rw [hm, hd]; rfl, (hdata.height hn).1⟩]
        exact ⟨ns', hgrows, a', hr', h'⟩
  obtain ⟨ns, hns⟩ := exists_along _ (fun ns ns' => ns <+: ns') hstart hnext
  exact ⟨ns, fun i => ⟨(hns i).2, (hns i).1⟩⟩

/-- In every execution of the indexer from an empty index, where any commit may go unanswered:
at every moment the tables hold the contents of a list of blocks that ascends and leaves out no
block with rows, and that is only ever extended; a start resumes behind all of them; and a block
has at most one copy in it, and one more for each commit of it that went unanswered. -/
theorem recorded_in_order {args : SharedIndexerArgs}
    (e : Execution (indexer (J := J) chain args fun db => db.contents = .empty).service) :
    ∃ ns : Nat → List Nat, ∀ i, ns i <+: ns (i + 1) ∧
      (e.state i).db.contents = chain.contents J (ns i) ∧ (ns i).Pairwise (· ≤ ·) ∧
      (∀ n ∈ ns i, n < ((databaseState J).startFrom (e.state i).db).toNat) ∧
      (∀ n ∈ ns i, ∀ m < n, chain.hasRows m = true → m ∈ ns i) ∧
      ∀ n, (ns i).count n ≤ 1 + e.count (UnansweredAt n) 0 i := by
  obtain ⟨ns, hns⟩ := exists_inOrder e
  refine ⟨ns, fun i => ?_⟩
  obtain ⟨hgrows, a, ⟨hdb, -⟩, h⟩ := hns i
  rw [← hdb]
  refine ⟨hgrows, h.contents, h.ascending, fun n hn => h.below_start hn, h.complete, fun n => ?_⟩
  rw [Nat.add_comm]
  exact h.copies n

theorem inOrder_of_reachable {args : SharedIndexerArgs}
    {s : Service TransactionLogData (Tables J) CanonicalAddressCache}
    (h : Reachable (indexer (J := J) chain args fun db => db.contents = .empty).service s) :
    ∃ a u ns, Indexing chain s a ∧ InOrder chain u ns a := by
  obtain ⟨a, ha, hr⟩ := (indexer_follows_feed chain args fun db : Tables J =>
    db.contents = .empty).reachable h
  obtain ⟨u, ns, hns⟩ : ∃ u ns, InOrder chain u ns a := by
    refine ha.invariant (I := fun a => ∃ u ns, InOrder chain u ns a) ?_ ?_
    · rintro a ⟨hdb, hcursor⟩
      exact ⟨fun _ => 0, [], inOrder_empty hdb hcursor⟩
    · rintro a m a' ⟨u, ns, hns⟩ hstep
      obtain ⟨ns', -, hns'⟩ := hns.step hstep (fun n => Nat.le_succ (u n))
        fun n _ _ _ _ => Nat.le_refl (u n + 1)
      exact ⟨_, ns', hns'⟩
  exact ⟨a, u, ns, hr, hns⟩

/-! ## In flight -/

/-- In every run of the indexer from an empty index, whatever fails: while the database task
works, the blocks sent and not yet inserted are at most 101 consecutive ones, they end just below
the height the node loop stands at, and every block with rows below them is in the tables. -/
theorem in_flight {args : SharedIndexerArgs}
    {s : Service TransactionLogData (Tables J) CanonicalAddressCache}
    (hs : Reachable (indexer (J := J) chain args fun db => db.contents = .empty).service s)
    {p : Process TransactionLogData CanonicalAddressCache} (hp : s.process = some p)
    {r : Rotation} {attempt : Attempt TransactionLogData} (hn : p.node = .loop r attempt)
    (hworking : p.database.finished = false) :
    ∃ q ns, DataFrom chain.BlockData q p.pipeline ∧ p.pipeline.length ≤ 101 ∧
      r.height.toNat = q + p.pipeline.length ∧ s.db.contents = chain.contents J ns ∧
      (∀ n ∈ ns, n ≤ q) ∧ ∀ m < q, chain.hasRows m = true → m ∈ ns := by
  obtain ⟨a, u, ns, hr, hns⟩ := inOrder_of_reachable hs
  obtain ⟨hco, -, ht⟩ := hr.2 p hp
  -- the loop has its start height, so the database task is past reading it
  have hlate : p.database.early = false := by
    rw [← Bool.not_eq_true]
    intro he
    obtain ⟨x, hx⟩ := hco.loop r attempt hn
    rw [hco.early he] at hx
    cases hx
  obtain ⟨q, hq, hdata, hheight⟩ := ht.running hlate hworking
  obtain ⟨hle, hbefore, -⟩ := hns.cursor q hq
  have hnext : p.nextHeight = some r.height := by
    unfold Process.nextHeight
    rw [hn]
  exact ⟨q, ns, hdata, pipeline_le hs hp, hheight _ hnext, by rw [← hr.1]; exact hns.contents, hle,
    hbefore⟩

end

/-- Block 0 is being inserted, and the node loop stands at block 1. -/
theorem in_flight_reward : ∃ s p r attempt,
    Reachable (indexer (J := PlainJson) rewardChain oneNode fun db => db.contents = .empty).service s ∧
    s.process = some p ∧ p.node = .loop r attempt ∧ p.database.finished = false ∧
    ∃ q ns, DataFrom rewardChain.BlockData q p.pipeline ∧ p.pipeline.length ≤ 101 ∧
      r.height.toNat = q + p.pipeline.length ∧ s.db.contents = rewardChain.contents PlainJson ns ∧
      (∀ n ∈ ns, n ≤ q) ∧ ∀ m < q, rewardChain.hasRows m = true → m ∈ ns := by
  let setup := indexer (J := PlainJson) rewardChain oneNode fun db => db.contents = .empty
  let db : Tables PlainJson := .empty
  have hinitial : setup.initial db := rfl
  obtain ⟨cache, hmid⟩ := indexer_midChunk rewardChain oneNode hinitial (by decide) (Nat.le_refl 2) rfl
  exact ⟨_, _, _, _, hmid, rfl, rfl, rfl, in_flight hmid rfl rfl rfl⟩

end WalletProxyIndexer
