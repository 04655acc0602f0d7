import WalletProxyIndexer.AtLeastOnce
import WalletProxyIndexer.Availability
import WalletProxyIndexer.TargetRows

/-!
# What readers are answered

From the nodes through the tables to the readers.  What a query returns depends on the
contents of the tables only, apart from row ids (`Target.rows_content`), and contents to
which blocks are added have what was there before at the front (`Target.answers_grow`).

    readers_follow_the_chain   whatever fails: an answer lists the items of the recorded blocks,
                               and later answers begin with it, row by row
    replicas_agree             two indexers of one chain: the one that resumes from the lower
                               height answers with the beginning of what the other answers
-/

namespace WalletProxyIndexer

open Transition

section
variable {J : Type} [SdkJson J]

/-! ## Answers by contents -/

/-- What a summary says to a reader, if it decodes. -/
def SummariesRow.content (r : SummariesRow J) : Option SummaryRow :=
  (constructRow ⟨0, 0, r⟩).map DatabaseRow.content

theorem constructRow_content (j : JoinedRow J) :
    (constructRow j).map DatabaseRow.content = j.summary.content := by
  unfold SummariesRow.content constructRow
  dsimp only
  cases BlockHash.ofBytes j.summary.block with
  | none => rfl
  | some hash =>
    cases DatabaseSummaryEntry.ofJson j.summary.summary with
    | none => rfl
    | some entry => rfl

namespace Target
variable (t : Target) {db : Tables J} {c c' : Contents J}

omit [SdkJson J] in
/-- Where the summaries stand that the index lists for a target. -/
def places (c : Contents J) : List Nat :=
  match t with
  | .account acc => (c.ati.filter fun e => e.1 = acc.toBytes).map Prod.snd
  | .contract a => (c.cti.filter fun e => e.1 = (a.index.toInt64, a.subindex.toInt64)).map Prod.snd

omit [SdkJson J] in
def summaries (c : Contents J) : List (SummariesRow J) :=
  (t.places c).filterMap fun p => c.summaries[p]?

/-- What the whole answer about a target says. -/
def answers (c : Contents J) : List SummaryRow := (t.summaries c).filterMap SummariesRow.content

/-- The items of the blocks that affect a target. -/
def items (blocks : List TransactionLogData) : List SummaryRow :=
  match t with
  | .account acc => accountItems acc blocks
  | .contract c => contractItems c blocks

omit [SdkJson J] in
theorem index_places (db : Tables J) :
    (t.index db).map (fun e => db.summaries.position e.2) = t.places db.contents := by
  unfold index places Tables.contents
  cases t with
  | account acc =>
    unfold Tables.accountIndex SerialTable.values
    simp only [List.map_map, List.filter_map]
    refine congrArg (List.map _) (List.filter_congr fun r _ => ?_)
    simp [beq_eq_decide]
  | contract c =>
    unfold Tables.contractIndex SerialTable.values
    simp only [List.map_map, List.filter_map]
    refine congrArg (List.map _) (List.filter_congr fun r _ => ?_)
    simp [beq_eq_decide]

omit [SdkJson J] in
/-- The rows of a query hold the summaries at these places. -/
theorem joined_summaries (db : Tables J) :
    (t.joined db).map JoinedRow.summary = t.summaries db.contents := by
  obtain ⟨hindex, hrows⟩ := join_rows db t.index_known
  unfold summaries
  rw [← index_places, ← hindex, List.map_map, List.filterMap_map]
  have hplace : ∀ j ∈ t.joined db,
      db.contents.summaries[db.summaries.position j.summaryId]? = some j.summary := fun j hj =>
    db.summaries.getElem?_position (hrows j hj)
  rw [← List.filterMap_eq_map]
  apply List.filterMap_congr
  intro j hj
  exact (hplace j hj).symm

/-- Apart from row ids, what is returned depends on the contents only. -/
theorem rows_content (db : Tables J) : (t.rows db).map DatabaseRow.content = t.answers db.contents := by
  unfold answers
  rw [← joined_summaries, rows_eq, List.map_filterMap, List.filterMap_map]
  apply List.filterMap_congr
  intro j _
  exact constructRow_content j

/-- A reader of tables with the contents of some blocks gets their items. -/
theorem readsBack [SdkJson.RoundTrip J] {blocks : List TransactionLogData}
    (h : db.contents = Contents.records .empty blocks) (hati : db.ati.Serial8)
    (hcti : db.cti.Serial8) :
    ReadsBack (t.joined db) (t.query db Int64.maxValue (.ascending none))
      (t.query db Int64.maxValue (.descending none)) (t.items blocks) := by
  have hplaces := t.index_places db
  cases t with
  | account acc =>
    exact readsBack_of_contents (accountView acc) h db.contents.ati acc.toBytes rfl
      (db.accountIndex_known acc) hplaces (db.accountIndex_ascending acc)
      (db.accountIndex_serial hati acc)
  | contract c =>
    have hitems : contractItems c blocks = blocks.flatMap (contractView (J := J) c).items := by
      unfold contractItems ItemView.items contractView
      simp
    show ReadsBack _ _ _ (contractItems c blocks)
    rw [hitems]
    exact readsBack_of_contents (contractView c) h db.contents.cti
      (c.index.toInt64, c.subindex.toInt64) rfl (db.contractIndex_known c) hplaces
      (db.contractIndex_ascending c) (db.contractIndex_serial hcti c)

end Target

/-! ## Contents that grow -/

omit [SdkJson J] in
/-- What was there stays, at the front. -/
structure Contents.Grows (c c' : Contents J) : Prop where
  summaries : c.summaries <+: c'.summaries
  ati : c.ati <+: c'.ati
  cti : c.cti <+: c'.cti

namespace Contents
variable (c : Contents J)

omit [SdkJson J] in
theorem Grows.refl : c.Grows c := ⟨List.prefix_rfl, List.prefix_rfl, List.prefix_rfl⟩

omit [SdkJson J] in
theorem Grows.trans {c c' c'' : Contents J} (h : c.Grows c') (h' : c'.Grows c'') : c.Grows c'' :=
  ⟨h.summaries.trans h'.summaries, h.ati.trans h'.ati, h.cti.trans h'.cti⟩

omit [SdkJson J] in
theorem grows_foldl {α : Type} {f : Contents J → α → Contents J}
    (hf : ∀ (c : Contents J) a, c.Grows (f c a)) (l : List α) : c.Grows (l.foldl f c) := by
  induction l generalizing c with
  | nil => exact .refl c
  | cons a l ih => exact (hf c a).trans (ih (f c a))

theorem grows_record (d : TransactionLogData) : c.Grows (c.record d) := by
  have hitem : ∀ (c : Contents J) r accounts contracts, c.Grows (c.addItem r accounts contracts) :=
    fun c r accounts contracts =>
      ⟨List.prefix_append _ _, List.prefix_append _ _, List.prefix_append _ _⟩
  have htransaction : ∀ (c : Contents J) ts, c.Grows (c.recordTransaction d.blockInfo ts) := by
    intro c ts
    have h := hitem c ⟨d.blockInfo.blockHash, d.blockInfo.blockSlotTime.toUInt64,
      d.blockInfo.blockHeight, .blockItem ts.summary⟩ ts.addresses ts.summary.knownContracts
    exact ⟨h.summaries, h.ati, h.cti⟩
  exact (c.grows_foldl htransaction d.itemSummaries).trans
    (grows_foldl _ (fun c so => hitem c _ _ _) d.specialEvents)

theorem grows_records (blocks : List TransactionLogData) : c.Grows (c.records blocks) :=
  c.grows_foldl grows_record blocks

end Contents

namespace Target
variable (t : Target) {c c' : Contents J}

omit [SdkJson J] in
theorem places_grow (h : c.Grows c') : t.places c <+: t.places c' := by
  cases t with
  | account acc => exact (h.ati.filter _).map _
  | contract a => exact (h.cti.filter _).map _

theorem places_lt (hc : c.Closed) : ∀ p ∈ t.places c, p < c.summaries.length := by
  intro p hp
  cases t with
  | account acc =>
    obtain ⟨e, he, rfl⟩ := List.mem_map.mp hp
    exact hc.ati e (List.mem_of_mem_filter he)
  | contract a =>
    obtain ⟨e, he, rfl⟩ := List.mem_map.mp hp
    exact hc.cti e (List.mem_of_mem_filter he)

/-- An answer over more blocks begins with the answer over fewer. -/
theorem answers_grow (hc : c.Closed) (h : c.Grows c') : t.answers c <+: t.answers c' := by
  obtain ⟨later, hlater⟩ := t.places_grow h
  obtain ⟨new, hnew⟩ := h.summaries
  have hsame : (t.places c).filterMap (fun p => c'.summaries[p]?) = t.summaries c := by
    apply List.filterMap_congr
    intro p hp
    rw [← hnew]
    exact List.getElem?_append_left (t.places_lt hc p hp)
  have hsummaries : t.summaries c <+: t.summaries c' := by
    show t.summaries c <+: (t.places c').filterMap _
    rw [← hlater, List.filterMap_append, hsame]
    exact List.prefix_append _ _
  exact hsummaries.filterMap SummariesRow.content

end Target

/-! ## One indexer -/

variable {chain : Chain} {args : SharedIndexerArgs}

theorem ServiceStep.grows {initial : Tables J → Prop}
    {s s' : Service TransactionLogData (Tables J) CanonicalAddressCache}
    {l : Action TransactionLogData} (h : ServiceStep (indexer chain args initial) s l s') :
    s.db.Grows s'.db := by
  have hsame : s.db.Grows s.db := .same rfl rfl rfl
  cases h with
  | database hd =>
    cases hd with
    | inserted _ hins => exact insertIntoDb_grows hins
    | insertedUnanswered _ hins => exact insertIntoDb_grows hins
    | unknownData _ hins => exact insertIntoDb_grows hins
    | connectionLost _ hins => exact insertIntoDb_grows hins
    | _ => exact hsame
  | _ => exact hsame

theorem grows_along {initial : Tables J → Prop}
    (e : Execution (indexer chain args initial).service) {i j : Nat} (hij : i ≤ j) :
    (e.state i).db.Grows (e.state j).db := by
  induction hij with
  | refl => exact .same rfl rfl rfl
  | @step j _ ih =>
    rcases e.next _ j with heq | ⟨l, -, hstep⟩
    · rw [heq]
      exact ih
    · exact ih.trans (ServiceStep.grows hstep)

/-- In every execution of the indexer from an empty index, whatever fails and goes unanswered:
there is at every moment an ascending list of the blocks with rows that a start resumes behind,
some of them perhaps several times in a row, and every account and every contract is answered
with exactly the items of these blocks that affect it; and every later answer begins with the
rows of this one, ids included. -/
theorem readers_follow_the_chain [SdkJson.RoundTrip J]
    (e : Execution (indexer (J := J) chain args fun db => db.contents = .empty).service) :
    ∃ ns : Nat → List Nat, ∀ i, (ns i).Pairwise (· ≤ ·) ∧
      (∀ n, n ∈ ns i ↔
        n < ((databaseState J).startFrom (e.state i).db).toNat ∧ chain.hasRows n = true) ∧
      ∀ t : Target,
        ((e.state i).db.ati.Serial8 → (e.state i).db.cti.Serial8 →
          ReadsBack (t.joined (e.state i).db)
            (t.query (e.state i).db Int64.maxValue (.ascending none))
            (t.query (e.state i).db Int64.maxValue (.descending none))
            (t.items ((ns i).map chain.blockData))) ∧
        ∀ j, i ≤ j → t.rows (e.state i).db <+: t.rows (e.state j).db := by
  obtain ⟨ns, hns⟩ := exists_inOrder e
  refine ⟨ns, fun i => ?_⟩
  obtain ⟨-, a, ⟨hdb, -⟩, h⟩ := hns i
  have hcontents := h.contents
  have hmem := h.mem_iff
  rw [hdb] at hcontents hmem
  refine ⟨h.ascending, hmem, fun t => ⟨fun hati hcti => ?_, fun j hij => ?_⟩⟩
  · exact t.readsBack hcontents hati hcti
  · exact t.rows_grows (grows_along e hij)

end

/-- Block 0 of the chain of rewards. -/
def firstReward : TransactionLogData :=
  ⟨rewardChain.blockInfo 0, [], [.paydayFoundationReward ⟨.replicate 32 0⟩], .new⟩

/-- Block 0 is committed, and a reader asks for the foundation account. -/
theorem reward_answered : ∃ (e : Execution
    (indexer (J := PlainJson) rewardChain oneNode fun db => db.contents = .empty).service)
    (i : Nat) (ns : List Nat), (∀ n, n ∈ ns ↔ n < 1 ∧ rewardChain.hasRows n = true) ∧
    let t : Target := .account ⟨.replicate 32 0⟩
    (t.rows (e.state i).db).length = 1 ∧
    ReadsBack (t.joined (e.state i).db) (t.query (e.state i).db Int64.maxValue (.ascending none))
      (t.query (e.state i).db Int64.maxValue (.descending none))
      (t.items (ns.map rewardChain.blockData)) := by
  let setup := indexer (J := PlainJson) rewardChain oneNode fun db => db.contents = .empty
  let db : Tables PlainJson := .empty
  have hd : (onFinalizedBlock (rewardChain.node 0) db.contents.startFrom
      (onUseNode (rewardChain.node 0) .empty).2).1 = .ok firstReward := rfl
  have hinitial : setup.initial db := rfl
  obtain ⟨cache, hmid⟩ := indexer_midChunk rewardChain oneNode hinitial (by decide) (Nat.le_refl 2) hd
  have hins : setup.databaseHooks.insertIntoDb none db firstReward =
      (.ok (), (insertIntoDb none db firstReward).2) := rfl
  have hcommitted := reachable_step hmid (.database (.inserted rfl hins))
  have hati : (insertIntoDb none (.empty : Tables PlainJson) firstReward).2.ati.Serial8 := by
    unfold SerialTable.Serial8
    decide
  have hcti : (insertIntoDb none (.empty : Tables PlainJson) firstReward).2.cti.Serial8 := by
    unfold SerialTable.Serial8
    decide
  obtain ⟨e, i, he⟩ := hcommitted.exists_execution
  have hstate := (he i (Nat.le_refl i)).1
  obtain ⟨ns, hns⟩ := readers_follow_the_chain e
  obtain ⟨-, hmem, hread⟩ := hns i
  refine ⟨e, i, ns i, ?_, ?_⟩
  · rw [hstate] at hmem
    exact hmem
  · have hanswer := (hread (.account ⟨.replicate 32 0⟩)).1
    rw [hstate] at hanswer ⊢
    exact ⟨rfl, hanswer hati hcti⟩

/-! ## Two indexers -/

section
variable {J : Type} [SdkJson J] {chain : Chain} {args args' : SharedIndexerArgs}

/-- Blocks without rows add nothing to the contents. -/
theorem Chain.contents_range {m k : Nat} (hmk : m ≤ k) (h : chain.NoRows m k) :
    chain.contents J (List.range k) = chain.contents J (List.range m) := by
  induction k, hmk using Nat.le_induction with
  | base => rfl
  | succ k hmk ih =>
    have hrows : (chain.blockData k).hasRows = false := by
      rw [← Bool.not_eq_true]
      intro hrows
      have hnone := h k hmk (Nat.lt_succ_self k)
      rw [Chain.hasRows_of_blockData hrows] at hnone
      cases hnone
    rw [List.range_succ, Chain.contents_concat, Contents.record_of_no_rows _ hrows]
    exact ih fun i hi hik => h i hi (Nat.lt_succ_of_lt hik)

/-- The contents are those of all blocks below the height a start resumes from. -/
theorem contents_of_reachable
    {s : Service TransactionLogData (Tables J) CanonicalAddressCache}
    (h : Reachable ((indexer (J := J) chain args fun db => db.contents = .empty).service.restrict
      fun _ l => ∀ d, l ≠ .commitUnanswered d) s) :
    s.db.contents = chain.contents J (List.range ((databaseState J).startFrom s.db).toNat) := by
  obtain ⟨a, k, ⟨hdb, -⟩, hup⟩ := upTo_of_reachable h
  obtain ⟨hle, hrows⟩ := hup.resume
  rw [startFrom_eq, ← hdb, hup.records.contents_eq]
  rw [hup.records.contents_eq] at hle hrows
  exact Chain.contents_range hle hrows

theorem Chain.contents_append (ns ms : List Nat) :
    chain.contents J (ns ++ ms) = (chain.contents J ns).records (ms.map chain.blockData) := by
  unfold contents Contents.records
  rw [List.map_append, List.foldl_append]

/-- Two indexers of one chain, each with its own settings, nodes, failures and restarts, as long as
each learns of its commits: the one that resumes from the lower height answers for every account
and every contract with the beginning of what the other answers, and the token totals of the
other are its own after the mints and burns of the blocks in between.  When both resume from the
same height, their tables have the same contents. -/
theorem replicas_agree
    {s s' : Service TransactionLogData (Tables J) CanonicalAddressCache}
    (h : Reachable ((indexer (J := J) chain args fun db => db.contents = .empty).service.restrict
      fun _ l => ∀ d, l ≠ .commitUnanswered d) s)
    (h' : Reachable ((indexer (J := J) chain args' fun db => db.contents = .empty).service.restrict
      fun _ l => ∀ d, l ≠ .commitUnanswered d) s')
    {m k : Nat} (hm : ((databaseState J).startFrom s.db).toNat = m)
    (hk : ((databaseState J).startFrom s'.db).toNat = m + k) :
    (∀ t : Target, (t.rows s.db).map DatabaseRow.content <+:
      (t.rows s'.db).map DatabaseRow.content) ∧
    s'.db.supplies = supplyRun s.db.supplies
      ((List.range' m k).flatMap fun n => (chain.blockData n).supplyEvents) ∧
    (k = 0 → s'.db.contents = s.db.contents) := by
  have hs := contents_of_reachable h
  have hs' := contents_of_reachable h'
  rw [hm] at hs
  rw [hk] at hs'
  -- the contents of the other are its own after the blocks in between
  have hrecords : s'.db.contents = s.db.contents.records ((List.range' m k).map chain.blockData) := by
    rw [hs, hs', ← Chain.contents_append, List.range_add, List.range'_eq_map_range]
  refine ⟨fun t => ?_, ?_, fun hzero => ?_⟩
  · have hclosed : s.db.contents.Closed := by
      rw [hs]
      exact ((accountView (J := J) ⟨.replicate 32 0⟩).records _).1
    rw [t.rows_content, t.rows_content, hrecords]
    exact t.answers_grow hclosed (s.db.contents.grows_records _)
  · show s'.db.contents.cis2Tokens = _
    rw [hrecords, Contents.cis2Tokens_records, List.flatMap_map]
    rfl
  · subst hzero
    rw [hrecords]
    rfl

end

/-- An indexer gets to any height of the chain of rewards. -/
theorem rewardChain_reached (args : SharedIndexerArgs) (hparallel : 1 ≤ args.numParallel) {n : Nat}
    (hn : n < 2 ^ 64) : ∃ s, Reachable
      ((indexer (J := PlainJson) rewardChain args fun db => db.contents = .empty).service.restrict
        fun _ l => ∀ d, l ≠ .commitUnanswered d) s ∧
      ((databaseState PlainJson).startFrom s.db).toNat = n := by
  have hready : Ready (J := PlainJson) rewardChain args (fun db => db.contents = .empty) 0
      ⟨.empty, none⟩ := by
    refine ⟨rfl, 0, (upTo_init rfl rfl).same rfl fun q hq => ?_⟩
    cases hq
    exact ⟨Nat.le_refl 0, fun i _ hi => by omega⟩
  obtain ⟨s, hwithin, -, k, hup⟩ := hready.reaches (rewardChain_indexable n) hn hparallel (Nat.zero_add n)
  have hs := (hwithin.reachable (.init ⟨rfl, rfl⟩)).restrict_mono
    (Q := fun _ l => ∀ d, l ≠ .commitUnanswered d) fun _ _ h => h.2.2
  refine ⟨s, hs, ?_⟩
  have hrows : ∀ a b, a ≤ b → rewardChain.NoRows a b → a = b := by
    intro a b hab h
    by_contra hne
    have hnone := h a (Nat.le_refl a) (by omega)
    cases hnone
  obtain ⟨hle, hcursor⟩ := hup.cursor n rfl
  obtain ⟨hstart, hresume⟩ := hup.resume
  rw [startFrom_eq, hrows _ _ hstart hresume, hrows _ _ hle hcursor]

/-- One indexer has two blocks, another one five. -/
theorem rewards_replicated : ∃ s s' : Service TransactionLogData (Tables PlainJson) CanonicalAddressCache,
    ((databaseState PlainJson).startFrom s.db).toNat = 2 ∧
    ((databaseState PlainJson).startFrom s'.db).toNat = 2 + 3 ∧
    (∀ t : Target, (t.rows s.db).map DatabaseRow.content <+:
      (t.rows s'.db).map DatabaseRow.content) ∧
    s'.db.supplies = supplyRun s.db.supplies
      ((List.range' 2 3).flatMap fun n => (rewardChain.blockData n).supplyEvents) := by
  obtain ⟨s, hs, hm⟩ := rewardChain_reached oneNode (by decide) (n := 2) (by decide)
  obtain ⟨s', hs', hk⟩ := rewardChain_reached ⟨3, 10, 1, by decide⟩ (by decide) (n := 2 + 3) (by decide)
  obtain ⟨hanswers, hsupplies, -⟩ := replicas_agree hs hs' hm hk
  exact ⟨s, s', hm, hk, hanswers, hsupplies⟩

end WalletProxyIndexer
