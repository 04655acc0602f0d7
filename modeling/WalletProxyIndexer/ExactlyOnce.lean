import WalletProxyIndexer.Indexer

/-!
# The index is a fold over the chain

As long as the indexer learns of every commit, its tables hold at every moment what
committing blocks 0 … k-1 once each, in order, gives (`Records`), and `k` never
decreases: whatever the interleaving of the tasks, the failing nodes and connections,
and the crashes and restarts.

The height a start resumes from may lie below `k`, but then the blocks in between write
no rows (`NoRows`), so that inserting them again changes nothing.
-/

namespace WalletProxyIndexer

open Transition

section
variable {J : Type} [SdkJson J] {chain : Chain}

/-- Up to generated ids, the tables are ones into which blocks 0 … k-1 were committed, each
once, in order. -/
def Records (chain : Chain) (k : Nat) (db : Tables J) : Prop :=
  ∃ blocks clean, blocks.length = k ∧ DataFrom chain.BlockData 0 blocks ∧ Indexed blocks clean ∧
    db.contents = clean.contents

theorem records_empty {db : Tables J} (h : db.contents = .empty) : Records chain 0 db :=
  ⟨[], .empty, rfl, trivial, .nil, h⟩

/-- A block that commits here commits into the clean tables too. -/
theorem Records.commit {k : Nat} {db db' : Tables J} {n : Option Nat} {d : TransactionLogData}
    (h : Records chain k db) (hdata : chain.BlockData k d) (hk : k + 1 < 2 ^ 64)
    (hins : insertIntoDb n db d = (.ok (), db')) : Records chain (k + 1) db' := by
  obtain ⟨blocks, clean, rfl, hblocks, hindexed, hcontents⟩ := h
  obtain ⟨hrec, -, hknown, hfits⟩ := insertIntoDb_committed hins
  have hsupplies : db.supplies = clean.supplies := congrArg Contents.cis2Tokens hcontents
  obtain ⟨clean', hclean⟩ := insertIntoDb_healthy hknown (by rw [← hsupplies]; exact hfits)
  refine ⟨blocks ++ [d], clean', by simp, ?_, hindexed.committed hclean, ?_⟩
  · exact dataFrom_concat hblocks (by rw [Nat.zero_add]; exact hdata) (by omega)
  · rw [hrec, (insertIntoDb_committed hclean).1, hcontents]

/-- The tables hold the first `k` blocks; the cursor and the next start are at `k` or short of
it by blocks without rows. -/
structure UpTo (chain : Chain) (k : Nat) (a : Feed (Tables J)) : Prop where
  records : Records chain k a.db
  resume : a.db.contents.startFrom.toNat ≤ k ∧ chain.NoRows a.db.contents.startFrom.toNat k
  cursor : ∀ q, a.cursor = some q → q ≤ k ∧ chain.NoRows q k

theorem upTo_init {a : Feed (Tables J)} (hdb : a.db.contents = .empty) (hcursor : a.cursor = none) :
    UpTo chain 0 a where
  records := records_empty hdb
  resume := by
    rw [hdb]
    exact ⟨Nat.le_refl 0, fun i _ hi => by omega⟩
  cursor q hq := by rw [hcursor] at hq; cases hq

/-- Nothing changes but the cursor. -/
theorem UpTo.same {k : Nat} {db db' : Tables J} {cursor cursor' : Option Nat}
    (h : UpTo chain k ⟨db, cursor⟩) (hsame : db'.contents = db.contents)
    (hcursor : ∀ q, cursor' = some q → q ≤ k ∧ chain.NoRows q k) :
    UpTo chain k ⟨db', cursor'⟩ where
  records := by
    obtain ⟨blocks, clean, hlen, hblocks, hindexed, hcontents⟩ := h.records
    exact ⟨blocks, clean, hlen, hblocks, hindexed, hsame.trans hcontents⟩
  resume := by
    show db'.contents.startFrom.toNat ≤ k ∧ chain.NoRows db'.contents.startFrom.toNat k
    rw [hsame]
    exact h.resume
  cursor := hcursor

/-- A block of the chain that commits: below `k` it has no rows, at `k` it is the next. -/
theorem UpTo.commit {k n : Nat} {db db' : Tables J} {j : Option Nat} {d : TransactionLogData}
    (h : UpTo chain k ⟨db, some n⟩) (hdata : chain.BlockData n d) (hn : n + 1 < 2 ^ 64)
    (hins : insertIntoDb j db d = (.ok (), db')) :
    ∃ k', k ≤ k' ∧ UpTo chain k' ⟨db', some (n + 1)⟩ := by
  obtain ⟨-, -, hfull, hempty⟩ := commit_contents hdata hn hins
  obtain ⟨hle, hrows⟩ := h.cursor n rfl
  by_cases hlt : n < k
  · have hsame := hempty (hrows n (Nat.le_refl n) hlt)
    refine ⟨k, Nat.le_refl k, h.same hsame fun q hq => ?_⟩
    cases hq
    exact ⟨hlt, fun i hi hik => hrows i (by omega) hik⟩
  · obtain rfl : n = k := by omega
    refine ⟨n + 1, Nat.le_succ n, h.records.commit hdata hn hins, ?_, ?_⟩
    · show db'.contents.startFrom.toNat ≤ n + 1 ∧ _
      cases hr : chain.hasRows n with
      | true =>
        rw [hfull hr]
        exact ⟨Nat.le_refl _, fun i hi hin => by omega⟩
      | false =>
        rw [hempty hr]
        exact ⟨Nat.le_succ_of_le h.resume.1, h.resume.2.succ hr⟩
    · intro q hq
      cases hq
      exact ⟨Nat.le_refl _, fun i hi hin => by omega⟩

theorem UpTo.step {k : Nat} {a a' : Feed (Tables J)} {m : FeedAction TransactionLogData}
    (h : UpTo chain k a) (hm : ∀ n d, m ≠ .insert n d false)
    (hstep : FeedStep (databaseState J) chain.BlockData a m a') :
    ∃ k', k ≤ k' ∧ UpTo chain k' a' := by
  cases hstep with
  | resume =>
    refine ⟨k, Nat.le_refl k, h.same rfl fun q hq => ?_⟩
    cases hq
    rw [startFrom_eq]
    exact h.resume
  | insert answered hdata hn hins =>
    cases answered with
    | true => exact h.commit hdata hn hins
    | false => exact absurd rfl (hm _ _)
  | fail hdata hins =>
    obtain ⟨hsame, -⟩ := failed_contents hins
    exact ⟨k, Nat.le_refl k, h.same hsame h.cursor⟩

/-- In every execution of the indexer in which no commit goes unanswered, from an empty index:
at every moment the tables hold blocks 0 … k-1, each once, in order, where `k` never decreases;
and a start resumes from a height that is at most `k`, with no rows in the blocks between. -/
theorem index_is_fold {args : SharedIndexerArgs} (e : Execution
    ((indexer (J := J) chain args fun db => db.contents = .empty).service.restrict
      fun _ l => ∀ d, l ≠ .commitUnanswered d)) :
    ∃ k : Nat → Nat, Monotone k ∧ ∀ i,
      Records chain (k i) (e.state i).db ∧
      ((databaseState J).startFrom (e.state i).db).toNat ≤ k i ∧
      ∀ n, ((databaseState J).startFrom (e.state i).db).toNat ≤ n → n < k i →
        chain.hasRows n = false := by
  have hsim := (indexer_follows_feed chain args fun db : Tables J => db.contents = .empty).restrict
    (P := fun _ l => ∀ d, l ≠ .commitUnanswered d) (Q := fun _ m => ∀ n d, m ≠ .insert n d false)
    (fun s a l m _ hl hp n d hm => hp d (by rw [hl, hm]; rfl))
  obtain ⟨k, hmono, hk⟩ := hsim.exists_monotone (UpTo chain)
    (fun a ha => ⟨0, upTo_init ha.1 ha.2⟩) (fun k a m a' h hstep => h.step hstep.1 hstep.2) e
  refine ⟨k, hmono, fun i => ?_⟩
  obtain ⟨a, ⟨hdb, -⟩, h⟩ := hk i
  rw [startFrom_eq, ← hdb]
  exact ⟨h.records, h.resume⟩

end

end WalletProxyIndexer
