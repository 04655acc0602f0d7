import WalletProxyIndexer.Record
import WalletProxyIndexer.Lib.Select

/-!
# Querying the index

The four prepared queries of `postgres.rs` over the tables the indexer writes, the
parsing of their rows, and what a reader gets back.

A query joins the rows of `ati` or `cti` for one account or contract with the
summaries they refer to, keeps a range of row ids, sorts by row id, then summary id,
and cuts after `limit` rows (`select`).  `constructRow` turns a row into a
`DatabaseRow`, or drops it.

`readers_get_the_chain` compares this with the blocks that were committed: the rows,
with those of one summary that stand next to each other collapsed, say exactly which
transactions and special outcomes affect the account or contract (`accountItems`,
`contractItems`), in chain order.
-/

namespace WalletProxyIndexer

open Select

inductive DatabaseSummaryEntry where
  | blockItem (s : BlockItemSummary)
  | protocolEvent (o : SpecialTransactionOutcome)
deriving DecidableEq

structure DatabaseRow where
  id : Nat
  blockHash : BlockHash
  blockTime : Timestamp
  blockHeight : AbsoluteBlockHeight
  summary : DatabaseSummaryEntry
deriving DecidableEq

inductive QueryOrder where
  | ascending (start : Option Int64)
  | descending (start : Option Int64)

/-- A row of `ati` or `cti` joined with its summary.  The id of the summary is sorted by, but
not selected. -/
structure JoinedRow (J : Type) where
  id : Nat
  summaryId : Nat
  summary : SummariesRow J

section
variable {J : Type}

/-- Joins index rows, given by their id and the id of their summary. -/
def join (index : List (Nat × Nat)) (summaries : List (Nat × SummariesRow J)) :
    List (JoinedRow J) :=
  index.flatMap fun (id, summary) =>
    (summaries.filter fun r => r.1 == summary).map fun r => ⟨id, summary, r.2⟩

/-- `ORDER BY id, summaries.id` -/
def rowLe (a b : JoinedRow J) : Bool := a.id < b.id || (a.id == b.id && a.summaryId ≤ b.summaryId)

def select (index : List (Nat × Nat)) (summaries : List (Nat × SummariesRow J)) (limit : Int64)
    (order : QueryOrder) : Except PgError (List (JoinedRow J)) :=
  let rows := match order with
    | .ascending start =>
      let start := start.getD Int64.minValue
      ((join index summaries).filter fun r : JoinedRow J => start.toInt ≤ r.id).mergeSort rowLe
    | .descending start =>
      let start := start.getD Int64.maxValue
      ((join index summaries).filter fun r : JoinedRow J => r.id ≤ start.toInt).mergeSort fun a b => rowLe b a
  if limit < 0 then .error .invalidRowCountInLimitClause
  else .ok (rows.take limit.toInt.toNat)

/-- `WHERE ati.account = $1` -/
def Tables.accountIndex (db : Tables J) (acc : AccountAddress) : List (Nat × Nat) :=
  (db.ati.rows.filter fun r => r.2.account == acc.toBytes).map fun r => (r.1, r.2.summary)

/-- `WHERE cti.index = $1 AND cti.subindex = $2` -/
def Tables.contractIndex (db : Tables J) (c : ContractAddress) : List (Nat × Nat) :=
  (db.cti.rows.filter fun r => r.2.index == c.index.toInt64 && r.2.subindex == c.subindex.toInt64).map
    fun r => (r.1, r.2.summary)

def BlockHash.ofBytes (b : Bytea) : Option BlockHash :=
  if h : b.length = 32 then some ⟨⟨b.toArray, by simpa using h⟩⟩ else none

variable [SdkJson J]

def DatabaseSummaryEntry.ofJson (json : TaggedJson J) : Option DatabaseSummaryEntry :=
  if json.tag = "Left" then (SdkJson.toBlockItem json.content).map .blockItem
  else if json.tag = "Right" then (SdkJson.toOutcome json.content).map .protocolEvent
  else none

def constructRow (row : JoinedRow J) : Option DatabaseRow := do
  let blockHash ← BlockHash.ofBytes row.summary.block
  let blockTime : Timestamp := row.summary.timestamp.toUInt64
  let blockHeight : AbsoluteBlockHeight := row.summary.height.toUInt64
  let summary ← DatabaseSummaryEntry.ofJson row.summary.summary
  some ⟨row.id, blockHash, blockTime, blockHeight, summary⟩

def Tables.queryAccount (db : Tables J) (acc : AccountAddress) (limit : Int64) (order : QueryOrder) :
    Except PgError (List DatabaseRow) :=
  (select (db.accountIndex acc) db.summaries.rows limit order).map (List.filterMap constructRow)

def Tables.queryContract (db : Tables J) (c : ContractAddress) (limit : Int64) (order : QueryOrder) :
    Except PgError (List DatabaseRow) :=
  (select (db.contractIndex c) db.summaries.rows limit order).map (List.filterMap constructRow)

def Tables.iterateAccount (db : Tables J) (acc : AccountAddress) (start : Option Int64) :
    Except PgError (List DatabaseRow) :=
  db.queryAccount acc Int64.maxValue (.ascending start)

def Tables.iterateContract (db : Tables J) (addr : ContractAddress) (start : Option Int64) :
    Except PgError (List DatabaseRow) :=
  db.queryContract addr Int64.maxValue (.ascending start)

end

/-! ## What the chain says -/

/-- The items of the blocks with the given transactions and special outcomes, in chain order. -/
def chainItems (tx : BlockItemSummaryWithCanonicalAddresses → Bool)
    (special : SpecialTransactionOutcome → Bool) (d : TransactionLogData) : List SummaryRow :=
  let row := SummaryRow.mk d.blockInfo.blockHash d.blockInfo.blockSlotTime.toUInt64
    d.blockInfo.blockHeight
  (d.itemSummaries.filter tx).map (fun ts => row (.blockItem ts.summary)) ++
    (d.specialEvents.filter special).map fun so => row (.protocolEvent so)

/-- The items that affect an account: transactions by their resolved addresses, special
outcomes by the accounts they name. -/
def accountItems (acc : AccountAddress) (blocks : List TransactionLogData) : List SummaryRow :=
  blocks.flatMap (chainItems (fun ts => acc ∈ ts.addresses)
    fun so => acc ∈ specialAffectedAddresses so)

def contractItems (c : ContractAddress) (blocks : List TransactionLogData) : List SummaryRow :=
  blocks.flatMap (chainItems (fun ts => c ∈ ts.summary.knownContracts) fun _ => false)

/-! ## Positions -/

/-- The summaries an index lists for a key, by position: rows of one summary that stand next to
each other are one. -/
def listed {κ α : Type} [DecidableEq κ] (entries : List (κ × Nat)) (summaries : List α) (k : κ) :
    List (Option α) :=
  (collapse id ((entries.filter fun e => e.1 == k).map Prod.snd)).map fun p => summaries[p]?

/-- Appending a summary, with entries for it at the end of the index. -/
theorem listed_append {κ α : Type} [DecidableEq κ] {entries : List (κ × Nat)} {summaries : List α}
    (hlt : ∀ e ∈ entries, e.2 < summaries.length) (keys : List κ) (r : α) (k : κ) :
    listed (entries ++ keys.map fun a => (a, summaries.length)) (summaries ++ [r]) k =
      listed entries summaries k ++ if k ∈ keys then [some r] else [] := by
  let own := (entries.filter fun e => e.1 == k).map Prod.snd
  have hown : ∀ p ∈ own, p < summaries.length := by
    intro p hp
    obtain ⟨e, he, rfl⟩ := List.mem_map.mp hp
    exact hlt e (List.mem_of_mem_filter he)
  have hnew : ((keys.map fun a => (a, summaries.length)).filter fun e => e.1 == k).map Prod.snd =
      List.replicate (keys.count k) summaries.length := by
    induction keys with
    | nil => rfl
    | cons a keys ih =>
      rw [List.map_cons, List.filter_cons, List.count_cons]
      by_cases ha : a = k
      · simp [ha, ih, List.replicate_succ]
      · simp [ha, ih]
  unfold listed
  rw [List.filter_append, List.map_append, hnew, collapse_append_run id own _ summaries.length
    (fun p hp => List.eq_of_mem_replicate hp) (fun p hp => by have := hown p hp; simp only [id]; omega),
    List.map_append]
  congr 1
  · refine List.map_congr_left fun p hp => ?_
    exact List.getElem?_append_left (hown p (mem_of_mem_collapse id hp))
  · by_cases hk : k ∈ keys
    · obtain ⟨n, hn⟩ := Nat.exists_eq_succ_of_ne_zero (Nat.pos_iff_ne_zero.mp (List.count_pos_iff.mpr hk))
      rw [if_pos hk, hn, List.replicate_succ, List.head?_cons]
      simp
    · rw [if_neg hk, List.count_eq_zero_of_not_mem hk]
      rfl

section
variable {J : Type} [SdkJson J]

/-- Index entries refer to summaries, and summaries come from items. -/
structure Contents.Closed (c : Contents J) : Prop where
  ati : ∀ e ∈ c.ati, e.2 < c.summaries.length
  cti : ∀ e ∈ c.cti, e.2 < c.summaries.length
  rows : ∀ r ∈ c.summaries, ∃ s : SummaryRow, r = s.columns

theorem Contents.closed_empty : (Contents.empty : Contents J).Closed :=
  ⟨by simp [Contents.empty], by simp [Contents.empty], by simp [Contents.empty]⟩

theorem Contents.Closed.addItem {c : Contents J} (h : c.Closed) (r : SummaryRow)
    (accounts : List AccountAddress) (contracts : List ContractAddress) :
    (c.addItem r accounts contracts).Closed := by
  refine ⟨fun e he => ?_, fun e he => ?_, fun q hq => ?_⟩
  · simp only [Contents.addItem, List.length_append, List.length_singleton]
    rcases List.mem_append.mp he with he | he
    · exact Nat.lt_succ_of_lt (h.ati e he)
    · obtain ⟨a, -, rfl⟩ := List.mem_map.mp he
      exact Nat.lt_succ_self _
  · simp only [Contents.addItem, List.length_append, List.length_singleton]
    rcases List.mem_append.mp he with he | he
    · exact Nat.lt_succ_of_lt (h.cti e he)
    · obtain ⟨a, -, rfl⟩ := List.mem_map.mp he
      exact Nat.lt_succ_self _
  · rcases List.mem_append.mp hq with hq | hq
    · exact h.rows q hq
    · exact ⟨r, List.mem_singleton.mp hq⟩

theorem Contents.recordTransaction_eq (bi : BlockInfo) (c : Contents J)
    (ts : BlockItemSummaryWithCanonicalAddresses) : c.recordTransaction bi ts =
      (c.addItem ⟨bi.blockHash, bi.blockSlotTime.toUInt64, bi.blockHeight, .blockItem ts.summary⟩
        ts.addresses ts.summary.knownContracts).supply ts.summary.supplyEvents := rfl

theorem Contents.Closed.supply {c : Contents J} (h : c.Closed) (es : List SupplyEvent) :
    (c.supply es).Closed :=
  ⟨h.ati, h.cti, h.rows⟩

/-- A view of the contents that only items extend: by their row, if `listsItem` selects them. -/
structure ItemView (J : Type) [SdkJson J] where
  view : Contents J → List (Option (SummariesRow J))
  listsItem : List AccountAddress → List ContractAddress → Bool
  empty : view .empty = []
  addItem : ∀ c r accounts contracts, c.Closed → view (c.addItem r accounts contracts) =
    view c ++ if listsItem accounts contracts then [some r.columns] else []
  supply : ∀ c es, view (c.supply es) = view c

namespace ItemView
variable (v : ItemView J)

/-- What a view selects of one block. -/
def items (d : TransactionLogData) : List SummaryRow :=
  chainItems (fun ts => v.listsItem ts.addresses ts.summary.knownContracts)
    (fun so => v.listsItem (specialAffectedAddresses so) []) d

/-- A loop that adds an item a round adds to the view what it selects. -/
theorem foldl_items {α : Type} {f : Contents J → α → Contents J} {p : α → Bool} {g : α → SummaryRow}
    (hstep : ∀ c a, c.Closed → (f c a).Closed ∧
      v.view (f c a) = v.view c ++ if p a then [some (g a).columns] else [])
    (l : List α) (c : Contents J) (hc : c.Closed) :
    (l.foldl f c).Closed ∧
      v.view (l.foldl f c) = v.view c ++ ((l.filter p).map g).map fun r => some r.columns := by
  induction l generalizing c with
  | nil => simp [hc]
  | cons a l ih =>
    obtain ⟨hadd, hview⟩ := hstep c a hc
    obtain ⟨hclosed, hrest⟩ := ih (f c a) hadd
    rw [List.foldl_cons]
    refine ⟨hclosed, ?_⟩
    rw [hrest, hview, List.append_assoc, List.filter_cons]
    congr 1
    cases p a <;> rfl

theorem record (c : Contents J) (hc : c.Closed) (d : TransactionLogData) :
    (c.record d).Closed ∧
      v.view (c.record d) = v.view c ++ (v.items d).map fun r => some r.columns := by
  let bi := d.blockInfo
  let row := SummaryRow.mk bi.blockHash bi.blockSlotTime.toUInt64 bi.blockHeight
  have htransactions := v.foldl_items (f := Contents.recordTransaction bi)
    (g := fun ts => row (.blockItem ts.summary))
    (p := fun ts => v.listsItem ts.addresses ts.summary.knownContracts) fun c ts hc => by
      rw [Contents.recordTransaction_eq]
      exact ⟨(hc.addItem _ _ _).supply _, (v.supply _ _).trans (v.addItem c _ _ _ hc)⟩
  have hspecials := v.foldl_items (f := Contents.recordSpecial bi)
    (g := fun so => row (.protocolEvent so))
    (p := fun so => v.listsItem (specialAffectedAddresses so) []) fun c so hc =>
      ⟨hc.addItem _ _ _, v.addItem c _ _ _ hc⟩
  obtain ⟨hclosed, hview⟩ := htransactions d.itemSummaries c hc
  obtain ⟨hclosed', hview'⟩ := hspecials d.specialEvents _ hclosed
  refine ⟨hclosed', ?_⟩
  unfold Contents.record items chainItems
  rw [hview', hview, List.append_assoc, List.map_append]

theorem records (blocks : List TransactionLogData) :
    (Contents.records (J := J) .empty blocks).Closed ∧
      v.view (Contents.records .empty blocks) =
        (blocks.flatMap v.items).map fun r => some r.columns := by
  induction blocks using List.reverseRecOn with
  | nil => exact ⟨Contents.closed_empty, v.empty⟩
  | append_singleton blocks d ih =>
    have hrecords : Contents.records (J := J) .empty (blocks ++ [d]) =
        (Contents.records .empty blocks).record d := by
      unfold Contents.records
      rw [List.foldl_append]
      rfl
    obtain ⟨hclosed, hview⟩ := v.record _ ih.1 d
    rw [hrecords]
    refine ⟨hclosed, ?_⟩
    rw [hview, ih.2, List.flatMap_append, List.flatMap_singleton, List.map_append]

end ItemView

def accountView (acc : AccountAddress) : ItemView J where
  view c := listed c.ati c.summaries acc.toBytes
  listsItem accounts _ := acc ∈ accounts
  empty := rfl
  addItem c r accounts contracts hc := by
    have h := listed_append hc.ati (accounts.map AccountAddress.toBytes) r.columns acc.toBytes
    rw [List.map_map] at h
    refine h.trans ?_
    simp only [List.mem_map, AccountAddress.toBytes_inj, exists_eq_right, decide_eq_true_eq]
  supply _ _ := rfl

def contractView (c : ContractAddress) : ItemView J where
  view contents := listed contents.cti contents.summaries (c.index.toInt64, c.subindex.toInt64)
  listsItem _ contracts := c ∈ contracts
  empty := rfl
  addItem contents r accounts contracts hc := by
    have h := listed_append hc.cti (contracts.map fun a => (a.index.toInt64, a.subindex.toInt64))
      r.columns (c.index.toInt64, c.subindex.toInt64)
    rw [List.map_map] at h
    refine h.trans ?_
    -- the casts to i64 confuse no two contracts
    have hinj : ∀ a : ContractAddress, (a.index.toInt64, a.subindex.toInt64) =
        (c.index.toInt64, c.subindex.toInt64) ↔ a = c := by
      intro a
      constructor
      · intro ha
        obtain ⟨h1, h2⟩ := Prod.mk.inj ha
        have hkey : tokenKey a [] = tokenKey c [] := by simp [tokenKey, h1, h2]
        exact (tokenKey_inj.mp hkey).1
      · rintro rfl; rfl
    simp only [List.mem_map, hinj, exists_eq_right, decide_eq_true_eq]
  supply _ _ := rfl

/-! ## Whole queries -/

omit [SdkJson J] in
/-- The join neither drops nor repeats an index row. -/
theorem join_rows (db : Tables J) {index : List (Nat × Nat)}
    (hfk : ∀ e ∈ index, e.2 ∈ db.summaries.ids) :
    (join index db.summaries.rows).map (fun j => (j.id, j.summaryId)) = index ∧
      ∀ j ∈ join index db.summaries.rows, (j.summaryId, j.summary) ∈ db.summaries.rows := by
  induction index with
  | nil => exact ⟨rfl, fun j hj => by cases hj⟩
  | cons e index ih =>
    obtain ⟨r, hr⟩ := db.summaries.filter_id (hfk e List.mem_cons_self)
    obtain ⟨hids, hrows⟩ := ih fun e' he' => hfk e' (List.mem_cons_of_mem _ he')
    have hjoin : join (e :: index) db.summaries.rows =
        ⟨e.1, e.2, r⟩ :: join index db.summaries.rows := by
      unfold join
      rw [List.flatMap_cons]
      simp only [hr, List.map_singleton, List.singleton_append]
    rw [hjoin]
    refine ⟨by rw [List.map_cons, hids], fun j hj => ?_⟩
    rcases List.mem_cons.mp hj with rfl | hj
    · exact List.mem_of_mem_filter (p := fun q => q.1 == e.2) (by rw [hr]; exact List.mem_cons_self)
    · exact hrows j hj

omit [SdkJson J] in
theorem rowLe_of_lt {a b : JoinedRow J} (h : a.id < b.id) : rowLe a b = true ∧ rowLe b a = false := by
  simp only [rowLe, Bool.or_eq_true, Bool.or_eq_false_iff, Bool.and_eq_true, Bool.and_eq_false_iff,
    decide_eq_true_eq, decide_eq_false_iff_not, beq_iff_eq, beq_eq_false_iff_ne]
  omega

omit [SdkJson J] in
theorem rowLe_trans {a b c : JoinedRow J} (hab : rowLe a b = true) (hbc : rowLe b c = true) :
    rowLe a c = true := by
  simp only [rowLe, Bool.or_eq_true, Bool.and_eq_true, decide_eq_true_eq, beq_iff_eq] at *
  omega

omit [SdkJson J] in
theorem rowLe_total (a b : JoinedRow J) : (rowLe a b || rowLe b a) = true := by
  simp only [rowLe, Bool.or_eq_true, Bool.and_eq_true, decide_eq_true_eq, beq_iff_eq]
  omega

section
variable {index : List (Nat × Nat)} {summaries : List (Nat × SummariesRow J)}

omit [SdkJson J] in
/-- The largest limit leaves no row out. -/
theorem length_join_le (hasc : ((join index summaries).map JoinedRow.id).Pairwise (· < ·))
    (hids : ∀ j ∈ join index summaries, 1 ≤ j.id ∧ j.id < 2 ^ 63) :
    (join index summaries).length ≤ Int64.maxValue.toInt.toNat := by
  have hnodup : ((join index summaries).map JoinedRow.id).Nodup := hasc.imp Nat.ne_of_lt
  have hsub : (join index summaries).map JoinedRow.id ⊆ List.range' 1 (2 ^ 63 - 1) := by
    intro x hx
    obtain ⟨j, hj, rfl⟩ := List.mem_map.mp hx
    have := hids j hj
    exact List.mem_range'_1.mpr (by omega)
  have hle := (List.subperm_of_subset hnodup hsub).length_le
  rw [List.length_map, List.length_range'] at hle
  exact hle

omit [SdkJson J] in
/-- Rows in id order stay where they are: a query keeps a range of them and cuts it. -/
theorem select_ascending (hasc : ((join index summaries).map JoinedRow.id).Pairwise (· < ·))
    (start : Option Int64) {limit : Int64} (hlimit : ¬limit < 0) :
    select index summaries limit (.ascending start) =
      .ok (((join index summaries).filter fun r =>
        decide ((start.getD Int64.minValue).toInt ≤ r.id)).take limit.toInt.toNat) := by
  have hlt : (join index summaries).Pairwise fun a b => a.id < b.id := List.pairwise_map.mp hasc
  have hsort : ∀ p : JoinedRow J → Bool,
      ((join index summaries).filter p).mergeSort rowLe = (join index summaries).filter p := fun p =>
    List.mergeSort_of_pairwise ((hlt.imp fun h => (rowLe_of_lt h).1).sublist List.filter_sublist)
  unfold select
  dsimp only
  rw [if_neg hlimit, hsort]

omit [SdkJson J] in
theorem select_descending (hasc : ((join index summaries).map JoinedRow.id).Pairwise (· < ·))
    (start : Option Int64) {limit : Int64} (hlimit : ¬limit < 0) :
    select index summaries limit (.descending start) =
      .ok (((join index summaries).filter fun r =>
        decide ((r.id : Int) ≤ (start.getD Int64.maxValue).toInt)).reverse.take limit.toInt.toNat) := by
  have hlt : (join index summaries).Pairwise fun a b => a.id < b.id := List.pairwise_map.mp hasc
  have hsort : ∀ p : JoinedRow J → Bool,
      ((join index summaries).filter p).mergeSort (fun a b => rowLe b a) =
        ((join index summaries).filter p).reverse := fun p =>
    mergeSort_reverse ((hlt.imp fun h => (rowLe_of_lt h).1).sublist List.filter_sublist)
      ((hlt.imp fun h => (rowLe_of_lt h).2).sublist List.filter_sublist)
      (fun a b c hab hbc => rowLe_trans hbc hab) fun a b => rowLe_total b a
  unfold select
  dsimp only
  rw [if_neg hlimit, hsort]

omit [SdkJson J] in
/-- From the beginning, without a limit: all rows. -/
theorem select_all_ascending (hasc : ((join index summaries).map JoinedRow.id).Pairwise (· < ·))
    (hids : ∀ j ∈ join index summaries, 1 ≤ j.id ∧ j.id < 2 ^ 63) :
    select index summaries Int64.maxValue (.ascending none) = .ok (join index summaries) := by
  have hlow : (none.getD Int64.minValue).toInt = -2 ^ 63 := by decide
  have hfilter : (join index summaries).filter (fun r =>
      decide ((none.getD Int64.minValue).toInt ≤ r.id)) = join index summaries :=
    List.filter_eq_self.mpr fun j hj => decide_eq_true (by rw [hlow]; omega)
  rw [select_ascending hasc none (by decide), hfilter, List.take_of_length_le (length_join_le hasc hids)]

omit [SdkJson J] in
/-- From the end, without a limit: all rows in reverse. -/
theorem select_all_descending (hasc : ((join index summaries).map JoinedRow.id).Pairwise (· < ·))
    (hids : ∀ j ∈ join index summaries, 1 ≤ j.id ∧ j.id < 2 ^ 63) :
    select index summaries Int64.maxValue (.descending none) = .ok (join index summaries).reverse := by
  have hhigh : (none.getD Int64.maxValue).toInt = 2 ^ 63 - 1 := by decide
  have hfilter : (join index summaries).filter (fun r =>
      decide ((r.id : Int) ≤ (none.getD Int64.maxValue).toInt)) = join index summaries :=
    List.filter_eq_self.mpr fun j hj => decide_eq_true (by
      have := hids j hj
      rw [hhigh]
      omega)
  rw [select_descending hasc none (by decide), hfilter,
    List.take_of_length_le (by rw [List.length_reverse]; exact length_join_le hasc hids)]

end

/-! ### The rows of one account or contract -/

omit [SdkJson J] in
theorem Tables.accountIndex_known (db : Tables J) (acc : AccountAddress) :
    ∀ e ∈ db.accountIndex acc, e.2 ∈ db.summaries.ids := by
  intro e he
  obtain ⟨r, hr, rfl⟩ := List.mem_map.mp he
  exact db.atiSummaryFkey r.2 (List.mem_map.mpr ⟨r, List.mem_of_mem_filter hr, rfl⟩)

omit [SdkJson J] in
theorem Tables.accountIndex_ascending (db : Tables J) (acc : AccountAddress) :
    ((db.accountIndex acc).map Prod.fst).Pairwise (· < ·) := by
  unfold accountIndex
  rw [List.map_map]
  exact db.ati.ascending.sublist (List.filter_sublist.map Prod.fst)

omit [SdkJson J] in
theorem Tables.accountIndex_serial (db : Tables J) (h : db.ati.Serial8) (acc : AccountAddress) :
    ∀ e ∈ db.accountIndex acc, 1 ≤ e.1 ∧ e.1 < 2 ^ 63 := by
  intro e he
  obtain ⟨r, hr, rfl⟩ := List.mem_map.mp he
  exact h r.1 (List.mem_map.mpr ⟨r, List.mem_of_mem_filter hr, rfl⟩)

omit [SdkJson J] in
theorem Tables.contractIndex_known (db : Tables J) (c : ContractAddress) :
    ∀ e ∈ db.contractIndex c, e.2 ∈ db.summaries.ids := by
  intro e he
  obtain ⟨r, hr, rfl⟩ := List.mem_map.mp he
  exact db.ctiSummaryFkey r.2 (List.mem_map.mpr ⟨r, List.mem_of_mem_filter hr, rfl⟩)

omit [SdkJson J] in
theorem Tables.contractIndex_ascending (db : Tables J) (c : ContractAddress) :
    ((db.contractIndex c).map Prod.fst).Pairwise (· < ·) := by
  unfold contractIndex
  rw [List.map_map]
  exact db.cti.ascending.sublist (List.filter_sublist.map Prod.fst)

omit [SdkJson J] in
theorem Tables.contractIndex_serial (db : Tables J) (h : db.cti.Serial8) (c : ContractAddress) :
    ∀ e ∈ db.contractIndex c, 1 ≤ e.1 ∧ e.1 < 2 ^ 63 := by
  intro e he
  obtain ⟨r, hr, rfl⟩ := List.mem_map.mp he
  exact h r.1 (List.mem_map.mpr ⟨r, List.mem_of_mem_filter hr, rfl⟩)

omit [SdkJson J] in
/-- The collapsed rows of a query are the summaries listed at their positions. -/
theorem collapse_join (db : Tables J) {κ : Type} [DecidableEq κ] (entries : List (κ × Nat)) (k : κ)
    {index : List (Nat × Nat)} (hfk : ∀ e ∈ index, e.2 ∈ db.summaries.ids)
    (hindex : index.map (fun e => db.summaries.position e.2) =
      (entries.filter fun e => e.1 == k).map Prod.snd) :
    (collapse JoinedRow.summaryId (join index db.summaries.rows)).map (fun j => some j.summary) =
      listed entries db.contents.summaries k := by
  obtain ⟨hids, hrows⟩ := join_rows db hfk
  let rows := join index db.summaries.rows
  let place := fun j : JoinedRow J => db.summaries.position j.summaryId
  have hsummary : ∀ j ∈ rows, db.contents.summaries[place j]? = some j.summary := fun j hj =>
    db.summaries.getElem?_position (hrows j hj)
  have hmem : ∀ j ∈ rows, j.summaryId ∈ db.summaries.ids := fun j hj =>
    List.mem_map.mpr ⟨_, hrows j hj, rfl⟩
  have hplaces : rows.map place = (entries.filter fun e => e.1 == k).map Prod.snd := by
    rw [← hindex, ← hids, List.map_map]
    rfl
  have hcollapse : collapse id (rows.map place) = (collapse JoinedRow.summaryId rows).map place := by
    refine collapse_map JoinedRow.summaryId place id rows fun a ha b hb => ?_
    exact List.idxOf_inj (hmem a ha)
  unfold listed
  rw [← hplaces, hcollapse, List.map_map]
  refine List.map_congr_left fun j hj => ?_
  exact (hsummary j (mem_of_mem_collapse _ hj)).symm

end

/-! ## Rows as readers see them -/

/-- JSON gives back what was stored. -/
class SdkJson.RoundTrip (J : Type) [SdkJson J] : Prop where
  blockItem : ∀ s : BlockItemSummary, SdkJson.toBlockItem (SdkJson.ofBlockItem s : J) = some s
  outcome : ∀ o : SpecialTransactionOutcome, SdkJson.toOutcome (SdkJson.ofOutcome o : J) = some o

instance : SdkJson.RoundTrip PlainJson := ⟨fun _ => rfl, fun _ => rfl⟩

/-- What a row says, apart from its id. -/
def DatabaseRow.content (r : DatabaseRow) : SummaryRow where
  blockHash := r.blockHash
  blockTime := r.blockTime
  blockHeight := r.blockHeight
  summary := match r.summary with
    | .blockItem s => .blockItem s
    | .protocolEvent o => .protocolEvent o

section
variable {J : Type} [SdkJson J] [SdkJson.RoundTrip J]

theorem BlockHash.ofBytes_toBytes (h : BlockHash) : BlockHash.ofBytes h.toBytes = some h := by
  unfold ofBytes toBytes
  rw [dif_pos (by simp)]
  obtain ⟨⟨bytes, hsize⟩⟩ := h
  simp

/-- The columns of an item are parsed back to it. -/
theorem constructRow_columns (row : JoinedRow J) (r : SummaryRow) (h : row.summary = r.columns) :
    ∃ d, constructRow row = some d ∧ d.content = r := by
  have htime : r.blockTime.toInt64.toUInt64 = r.blockTime := UInt64.toUInt64_toInt64 _
  have hheight : r.blockHeight.toInt64.toUInt64 = r.blockHeight := UInt64.toUInt64_toInt64 _
  obtain ⟨hash, time, height, summary⟩ := r
  unfold constructRow
  rw [h]
  simp only [SummaryRow.columns, BlockHash.ofBytes_toBytes, htime, hheight]
  cases summary with
  | blockItem s =>
    refine ⟨⟨row.id, hash, time, height, .blockItem s⟩, ?_, rfl⟩
    simp [BorrowedDatabaseSummaryEntry.toJson, DatabaseSummaryEntry.ofJson, SdkJson.RoundTrip.blockItem]
  | protocolEvent o =>
    refine ⟨⟨row.id, hash, time, height, .protocolEvent o⟩, ?_, rfl⟩
    simp [BorrowedDatabaseSummaryEntry.toJson, DatabaseSummaryEntry.ofJson, SdkJson.RoundTrip.outcome]

/-- Rows that hold the columns of items are parsed back to the items. -/
theorem content_of_columns {rows : List (JoinedRow J)} {items : List SummaryRow}
    (h : rows.map (fun j => some j.summary) = items.map fun r => some r.columns) :
    (rows.filterMap constructRow).map DatabaseRow.content = items := by
  induction rows generalizing items with
  | nil =>
    rw [List.map_nil] at h
    rw [List.map_eq_nil_iff.mp h.symm]
    rfl
  | cons j rows ih =>
    cases items with
    | nil => cases h
    | cons r items =>
      rw [List.map_cons, List.map_cons] at h
      obtain ⟨hj, hrest⟩ := List.cons.inj h
      obtain ⟨d, hd, hcontent⟩ := constructRow_columns j r (Option.some.inj hj)
      rw [List.filterMap_cons_some hd, List.map_cons, hcontent, ih hrest]

/-- The two answers of a query, ascending from the beginning and descending from the end, over
the joined rows it finds. -/
structure ReadsBack (rows : List (JoinedRow J)) (ascending descending : Except PgError (List DatabaseRow))
    (items : List SummaryRow) : Prop where
  ascending_eq : ascending = .ok (rows.filterMap constructRow)
  /-- no row is dropped -/
  decodes : ∀ r ∈ rows, (constructRow r).isSome = true
  /-- one row for each item, in order, that says what the item is and where it stands -/
  collapsed : ((collapse JoinedRow.summaryId rows).filterMap constructRow).map DatabaseRow.content = items
  descending_eq : descending = .ok (rows.filterMap constructRow).reverse

theorem readsBack_of_contents (v : ItemView J) {blocks : List TransactionLogData} {db : Tables J}
    (h : db.contents = Contents.records .empty blocks) {κ : Type} [DecidableEq κ] (entries : List (κ × Nat)) (k : κ)
    (hview : v.view db.contents = listed entries db.contents.summaries k)
    {index : List (Nat × Nat)} (hfk : ∀ e ∈ index, e.2 ∈ db.summaries.ids)
    (hindex : index.map (fun e => db.summaries.position e.2) =
      (entries.filter fun e => e.1 == k).map Prod.snd)
    (hasc : (index.map Prod.fst).Pairwise (· < ·))
    (hids : ∀ e ∈ index, 1 ≤ e.1 ∧ e.1 < 2 ^ 63) :
    ReadsBack (join index db.summaries.rows)
      ((select index db.summaries.rows Int64.maxValue (.ascending none)).map
        (List.filterMap constructRow))
      ((select index db.summaries.rows Int64.maxValue (.descending none)).map
        (List.filterMap constructRow))
      (blocks.flatMap v.items) := by
  obtain ⟨hjoin, hrows⟩ := join_rows db hfk
  obtain ⟨hclosed, hitems⟩ := v.records blocks
  rw [← h] at hclosed hitems
  have hasc : ((join index db.summaries.rows).map JoinedRow.id).Pairwise (· < ·) := by
    rw [← hjoin, List.map_map] at hasc
    exact hasc
  have hids : ∀ j ∈ join index db.summaries.rows, 1 ≤ j.id ∧ j.id < 2 ^ 63 := by
    intro j hj
    refine hids (j.id, j.summaryId) ?_
    rw [← hjoin]
    exact List.mem_map.mpr ⟨j, hj, rfl⟩
  have hcollapse := collapse_join db entries k hfk hindex
  rw [← hview, hitems] at hcollapse
  refine ⟨by rw [select_all_ascending hasc hids]; rfl, fun j hj => ?_, content_of_columns hcollapse, ?_⟩
  · obtain ⟨r, hr⟩ := hclosed.rows j.summary (List.mem_map.mpr ⟨_, hrows j hj, rfl⟩)
    obtain ⟨d, hd, -⟩ := constructRow_columns j r hr
    rw [hd]; rfl
  · rw [select_all_descending hasc hids]
    show Except.ok (List.filterMap _ _) = _
    rw [List.filterMap_reverse]

theorem readsBack_of_view (v : ItemView J) {blocks : List TransactionLogData} {db : Tables J}
    (h : Indexed blocks db) {κ : Type} [DecidableEq κ] (entries : List (κ × Nat)) (k : κ)
    (hview : v.view db.contents = listed entries db.contents.summaries k)
    {index : List (Nat × Nat)} (hfk : ∀ e ∈ index, e.2 ∈ db.summaries.ids)
    (hindex : index.map (fun e => db.summaries.position e.2) =
      (entries.filter fun e => e.1 == k).map Prod.snd)
    (hasc : (index.map Prod.fst).Pairwise (· < ·))
    (hids : ∀ e ∈ index, 1 ≤ e.1 ∧ e.1 < 2 ^ 63) :
    ReadsBack (join index db.summaries.rows)
      ((select index db.summaries.rows Int64.maxValue (.ascending none)).map
        (List.filterMap constructRow))
      ((select index db.summaries.rows Int64.maxValue (.descending none)).map
        (List.filterMap constructRow))
      (blocks.flatMap v.items) :=
  readsBack_of_contents v h.contents entries k hview hfk hindex hasc hids

/-- Readers get back what was indexed: for each account and each contract exactly the items that
affect it, in chain order, and in reverse when they read backwards. -/
theorem readers_get_the_chain {blocks : List TransactionLogData} {db : Tables J}
    (h : Indexed blocks db) (hati : db.ati.Serial8) (hcti : db.cti.Serial8) :
    (∀ acc, ReadsBack (join (db.accountIndex acc) db.summaries.rows) (db.iterateAccount acc none)
      (db.queryAccount acc Int64.maxValue (.descending none)) (accountItems acc blocks)) ∧
    (∀ c, ReadsBack (join (db.contractIndex c) db.summaries.rows) (db.iterateContract c none)
      (db.queryContract c Int64.maxValue (.descending none)) (contractItems c blocks)) := by
  constructor
  · intro acc
    refine readsBack_of_view (accountView acc) h db.contents.ati acc.toBytes rfl
      (db.accountIndex_known acc) ?_ (db.accountIndex_ascending acc) (db.accountIndex_serial hati acc)
    unfold Tables.accountIndex Tables.contents SerialTable.values
    simp only [List.map_map, List.filter_map]
    refine congrArg (List.map _) (List.filter_congr fun r _ => ?_)
    rw [Bool.eq_iff_iff]
    simp
  · intro c
    have hitems : contractItems c blocks = blocks.flatMap (contractView (J := J) c).items := by
      unfold contractItems ItemView.items contractView
      simp
    rw [hitems]
    refine readsBack_of_view (contractView c) h db.contents.cti
      (c.index.toInt64, c.subindex.toInt64) rfl (db.contractIndex_known c) ?_
      (db.contractIndex_ascending c) (db.contractIndex_serial hcti c)
    unfold Tables.contractIndex Tables.contents SerialTable.values
    simp only [List.map_map, List.filter_map]
    refine congrArg (List.map _) (List.filter_congr fun r _ => ?_)
    rw [Bool.eq_iff_iff]
    simp

end

/-- A block without transactions whose baker is also the foundation account. -/
def rewardBlock (baker : AccountAddress) : TransactionLogData where
  blockInfo := ⟨⟨.replicate 32 0⟩, 0, 0, 0⟩
  itemSummaries := []
  specialEvents := [.blockReward baker baker]
  bindings := .new

theorem readers_get_one_reward :
    let baker : AccountAddress := ⟨.replicate 32 0⟩
    ∃ db : Tables PlainJson, Indexed [rewardBlock baker] db ∧
      ReadsBack (join (db.accountIndex baker) db.summaries.rows) (db.iterateAccount baker none)
        (db.queryAccount baker Int64.maxValue (.descending none))
        [⟨⟨.replicate 32 0⟩, 0, 0, .protocolEvent (.blockReward baker baker)⟩] := by
  intro baker
  have hins : insertIntoDb none (.empty : Tables PlainJson) (rewardBlock baker) =
      (.ok (), (insertIntoDb none .empty (rewardBlock baker)).2) := rfl
  have hdb : Indexed [rewardBlock baker] (insertIntoDb none (.empty : Tables PlainJson)
      (rewardBlock baker)).2 := .committed .nil hins
  exact ⟨_, hdb, (readers_get_the_chain hdb (by unfold SerialTable.Serial8; decide)
    (by unfold SerialTable.Serial8; decide)).1 baker⟩

end WalletProxyIndexer
