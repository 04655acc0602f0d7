import WalletProxyIndexer.Queries

/-!
# Rows of an account or a contract

What queries can return for one account or contract (`Target.rows`), and how an insert
changes it.

    Target.query_pages      a query returns a range of the rows, cut at the limit
    insertIntoDb_grows      an insert keeps the rows of the tables and adds others behind
    Target.rows_grows       so the rows of an account or contract grow at the end only
-/

namespace WalletProxyIndexer

open Transaction

/-- What a query is about. -/
inductive Target where
  | account (acc : AccountAddress)
  | contract (c : ContractAddress)

/-- All rows can be read: they decode, and their ids are those a `SERIAL8` column draws. -/
structure Tables.Readable {J : Type} [SdkJson J] (db : Tables J) : Prop where
  decodes : ∀ r ∈ db.summaries.values, ∀ id summaryId,
    (constructRow ⟨id, summaryId, r⟩).isSome = true
  ati : db.ati.Serial8
  cti : db.cti.Serial8

section
variable {J : Type} [SdkJson J]

theorem constructRow_id {j : JoinedRow J} {r : DatabaseRow} (h : constructRow j = some r) :
    r.id = j.id := by
  unfold constructRow at h
  obtain ⟨hash, -, h⟩ := Option.bind_eq_some_iff.mp h
  obtain ⟨summary, -, h⟩ := Option.bind_eq_some_iff.mp h
  rw [← Option.some.inj h]

theorem filterMap_take {l : List (JoinedRow J)} (h : ∀ j ∈ l, (constructRow j).isSome = true)
    (n : Nat) : (l.take n).filterMap constructRow = (l.filterMap constructRow).take n := by
  induction l generalizing n with
  | nil => simp
  | cons j l ih =>
    obtain ⟨r, hr⟩ := Option.isSome_iff_exists.mp (h j List.mem_cons_self)
    cases n with
    | zero => rfl
    | succ n =>
      rw [List.take_succ_cons, List.filterMap_cons_some hr, List.filterMap_cons_some hr,
        List.take_succ_cons, ih fun j hj => h j (List.mem_cons_of_mem _ hj)]

theorem filterMap_filter_id (l : List (JoinedRow J)) (p : Nat → Bool) :
    (l.filter fun j => p j.id).filterMap constructRow =
      (l.filterMap constructRow).filter fun r => p r.id := by
  induction l with
  | nil => rfl
  | cons j l ih =>
    cases hr : constructRow j with
    | none =>
      rw [List.filterMap_cons_none hr, ← ih, List.filter_cons]
      split
      · exact List.filterMap_cons_none hr
      · rfl
    | some r =>
      rw [List.filterMap_cons_some hr, List.filter_cons, List.filter_cons, constructRow_id hr]
      split
      · rw [List.filterMap_cons_some hr, ih]
      · exact ih

theorem filterMap_ids {l : List (JoinedRow J)} (h : ∀ j ∈ l, (constructRow j).isSome = true) :
    (l.filterMap constructRow).map DatabaseRow.id = l.map JoinedRow.id := by
  induction l with
  | nil => rfl
  | cons j l ih =>
    obtain ⟨r, hr⟩ := Option.isSome_iff_exists.mp (h j List.mem_cons_self)
    rw [List.filterMap_cons_some hr, List.map_cons, List.map_cons, constructRow_id hr,
      ih fun j hj => h j (List.mem_cons_of_mem _ hj)]

namespace Target
variable (t : Target) {db : Tables J}

omit [SdkJson J] in
/-- The rows of the index for a target: their ids, and those of their summaries. -/
def index (db : Tables J) : List (Nat × Nat) :=
  match t with
  | .account acc => db.accountIndex acc
  | .contract c => db.contractIndex c

def query (db : Tables J) (limit : Int64) (order : QueryOrder) : Except PgError (List DatabaseRow) :=
  match t with
  | .account acc => db.queryAccount acc limit order
  | .contract c => db.queryContract c limit order

omit [SdkJson J] in
/-- All rows a query selects from, those that do not decode among them. -/
def joined (db : Tables J) : List (JoinedRow J) := join (t.index db) db.summaries.rows

/-- All rows a query could return. -/
def rows (db : Tables J) : List DatabaseRow :=
  (join (t.index db) db.summaries.rows).filterMap constructRow

theorem rows_eq (db : Tables J) : t.rows db = (t.joined db).filterMap constructRow := rfl

theorem query_eq (limit : Int64) (order : QueryOrder) : t.query db limit order =
    (select (t.index db) db.summaries.rows limit order).map (List.filterMap constructRow) := by
  cases t <;> rfl

omit [SdkJson J] in
theorem index_known : ∀ e ∈ t.index db, e.2 ∈ db.summaries.ids := by
  cases t with
  | account acc => exact db.accountIndex_known acc
  | contract c => exact db.contractIndex_known c

omit [SdkJson J] in
theorem index_ascending : ((t.index db).map Prod.fst).Pairwise (· < ·) := by
  cases t with
  | account acc => exact db.accountIndex_ascending acc
  | contract c => exact db.contractIndex_ascending c

theorem index_serial (h : db.Readable) : ∀ e ∈ t.index db, 1 ≤ e.1 ∧ e.1 < 2 ^ 63 := by
  cases t with
  | account acc => exact db.accountIndex_serial h.ati acc
  | contract c => exact db.contractIndex_serial h.cti c

omit [SdkJson J] in
theorem join_ids : (join (t.index db) db.summaries.rows).map JoinedRow.id = (t.index db).map Prod.fst := by
  have h := congrArg (List.map Prod.fst) (join_rows db t.index_known).1
  rwa [List.map_map] at h

omit [SdkJson J] in
theorem joined_ascending (db : Tables J) : (t.joined db).Pairwise fun a b => a.id < b.id := by
  have hindex : ((t.index db).map Prod.fst).Pairwise (· < ·) := t.index_ascending
  rw [← t.join_ids] at hindex
  exact List.pairwise_map.mp hindex

theorem join_decodes (h : db.Readable) :
    ∀ j ∈ join (t.index db) db.summaries.rows, (constructRow j).isSome = true := by
  intro j hj
  have hmem := (join_rows db t.index_known).2 j hj
  exact h.decodes j.summary (List.mem_map.mpr ⟨_, hmem, rfl⟩) j.id j.summaryId

/-- One row for each row of the index. -/
theorem rows_ids (h : db.Readable) : (t.rows db).map DatabaseRow.id = (t.index db).map Prod.fst := by
  unfold rows
  rw [filterMap_ids (t.join_decodes h), t.join_ids]

theorem rows_ascending (h : db.Readable) : (t.rows db).Pairwise fun a b => a.id < b.id := by
  have hindex : ((t.index db).map Prod.fst).Pairwise (· < ·) := t.index_ascending
  rw [← t.rows_ids h] at hindex
  exact List.pairwise_map.mp hindex

theorem rows_serial (h : db.Readable) : ∀ r ∈ t.rows db, 1 ≤ r.id ∧ r.id < 2 ^ 63 := by
  intro r hr
  have hid : r.id ∈ (t.index db).map Prod.fst := by
    rw [← t.rows_ids h]
    exact List.mem_map_of_mem hr
  obtain ⟨e, he, heq⟩ := List.mem_map.mp hid
  rw [← heq]
  exact t.index_serial h e he

/-- A query returns a range of the rows, in its order, cut at the limit. -/
theorem query_pages (h : db.Readable) {limit : Int64} (hlimit : ¬limit < 0) (start : Option Int64) :
    t.query db limit (.ascending start) = .ok (((t.rows db).filter fun r =>
      decide ((start.getD Int64.minValue).toInt ≤ r.id)).take limit.toInt.toNat) ∧
    t.query db limit (.descending start) = .ok (((t.rows db).filter fun r =>
      decide ((r.id : Int) ≤ (start.getD Int64.maxValue).toInt)).reverse.take limit.toInt.toNat) := by
  have hasc : ((join (t.index db) db.summaries.rows).map JoinedRow.id).Pairwise (· < ·) := by
    rw [t.join_ids]
    exact t.index_ascending
  have hdecodes := t.join_decodes h
  constructor
  · rw [query_eq, select_ascending hasc start hlimit]
    show Except.ok (List.filterMap _ _) = _
    rw [filterMap_take fun j hj => hdecodes j (List.mem_of_mem_filter hj),
      filterMap_filter_id _ fun id => decide ((start.getD Int64.minValue).toInt ≤ id)]
    rfl
  · rw [query_eq, select_descending hasc start hlimit]
    show Except.ok (List.filterMap _ _) = _
    rw [filterMap_take fun j hj => hdecodes j (List.mem_of_mem_filter (List.mem_reverse.mp hj)),
      List.filterMap_reverse,
      filterMap_filter_id _ fun id => decide ((id : Int) ≤ (start.getD Int64.maxValue).toInt)]
    rfl

end Target

end

/-! ## Growth -/

section
variable {J : Type}

/-- Rows are kept, and others come behind. -/
structure Tables.Grows (db db' : Tables J) : Prop where
  summaries : db.summaries.rows <+: db'.summaries.rows
  ati : db.ati.rows <+: db'.ati.rows
  cti : db.cti.rows <+: db'.cti.rows

namespace Tables

/-- Same rows in these tables, whatever happens in the others. -/
theorem Grows.same {db db' : Tables J} (hsummaries : db'.summaries.rows = db.summaries.rows)
    (hati : db'.ati.rows = db.ati.rows) (hcti : db'.cti.rows = db.cti.rows) : db.Grows db' where
  summaries := by rw [hsummaries]
  ati := by rw [hati]
  cti := by rw [hcti]

theorem Grows.trans {db db' db'' : Tables J} (h : db.Grows db') (h' : db'.Grows db'') :
    db.Grows db'' :=
  ⟨h.summaries.trans h'.summaries, h.ati.trans h'.ati, h.cti.trans h'.cti⟩

variable {w w' : Tables J}

theorem grows_insertSummaries (w : Tables J) (r : SummariesRow J) : w.Grows (w.insertSummaries r).2 :=
  ⟨List.prefix_append _ _, List.prefix_refl _, List.prefix_refl _⟩

theorem grows_insertAti {r : AtiRow} (h : w.insertAti r = .ok ((), w')) : w.Grows w' := by
  unfold insertAti at h
  split at h
  · obtain ⟨-, rfl⟩ := Prod.mk.inj (Except.ok.inj h)
    exact ⟨List.prefix_refl _, List.prefix_append _ _, List.prefix_refl _⟩
  · cases h

theorem grows_insertCti {r : CtiRow} (h : w.insertCti r = .ok ((), w')) : w.Grows w' := by
  unfold insertCti at h
  split at h
  · obtain ⟨-, rfl⟩ := Prod.mk.inj (Except.ok.inj h)
    exact ⟨List.prefix_refl _, List.prefix_refl _, List.prefix_append _ _⟩
  · cases h

/-- The tokens are a table of their own. -/
theorem grows_upsertCis2Tokens {onConflict : Int → Int → Int} {r : Cis2TokensRow} {id : Nat}
    (h : w.upsertCis2Tokens onConflict r = .ok (id, w')) : w.Grows w' := by
  unfold upsertCis2Tokens at h
  split at h
  · split at h
    · obtain ⟨-, rfl⟩ := Prod.mk.inj (Except.ok.inj h)
      exact .same rfl rfl rfl
    · split at h
      · obtain ⟨-, rfl⟩ := Prod.mk.inj (Except.ok.inj h)
        exact .same rfl rfl rfl
      · cases h
  · cases h

end Tables

variable {db : Tables J}

/-! ### Statements of a block -/

theorem statement_grows {α : Type} {f : Tables J → Except IndexingError (α × Tables J)}
    (hf : ∀ w a w', f w = .ok (a, w') → w.Grows w') :
    Triple db.Grows (Txn.statement f) (fun _ => db.Grows) fun _ => True := by
  apply Triple.statement
  intro w hw
  cases h : f w with
  | error e => trivial
  | ok p => exact hw.trans (hf w p.1 p.2 h)

theorem ofExcept_grows {α : Type} (x : Except IndexingError α) :
    Triple db.Grows (Txn.ofExcept x) (fun _ => db.Grows) fun _ => True := by
  apply Triple.ofExcept
  intro w hw
  cases x with
  | ok a => exact hw
  | error e => trivial

theorem insertAti_grows (account : AccountAddress) (id : Nat) :
    Triple db.Grows (insertAti account id) (fun _ => db.Grows) fun _ => True := by
  apply statement_grows
  intro w a w' h
  exact Tables.grows_insertAti h

theorem insertCti_grows (contract : ContractAddress) (id : Nat) :
    Triple db.Grows (insertCti contract id) (fun _ => db.Grows) fun _ => True := by
  apply statement_grows
  intro w a w' h
  exact Tables.grows_insertCti h

theorem cis2UpsertTotalSupply_grows (onConflict : Int → Int → Int) (ca : ContractAddress)
    (tokenId : Cis2.TokenId) (amount : Nat) :
    Triple db.Grows (cis2UpsertTotalSupply onConflict ca tokenId amount) (fun _ => db.Grows)
      fun _ => True := by
  apply statement_grows
  intro w id w' h
  exact Tables.grows_upsertCis2Tokens h

theorem insertCis2Tokens_grows (s : BlockItemSummary) :
    Triple db.Grows (insertCis2Tokens s) (fun _ => db.Grows) fun _ => True := by
  unfold insertCis2Tokens
  refine Triple.bind (ofExcept_grows _) fun effects => ?_
  refine Triple.each _ _ fun p => Triple.each _ _ fun event => ?_
  cases event with
  | mint tokenId amount =>
    exact Triple.bind (cis2UpsertTotalSupply_grows _ _ _ _) fun _ => Triple.pure fun _ hw => hw
  | burn tokenId amount =>
    exact Triple.bind (cis2UpsertTotalSupply_grows _ _ _ _) fun _ => Triple.pure fun _ hw => hw
  | _ => exact Triple.pure fun _ hw => hw

theorem updateKeyBindings_grows (bindings : AccountPublicKeyBindings) :
    Triple db.Grows (updateKeyBindings bindings) (fun _ => db.Grows) fun _ => True := by
  have hkeys : ∀ f : Tables J → Tables J, (∀ w : Tables J, w.Grows (f w)) →
      Triple db.Grows (Txn.statement fun w => .ok ((), f w) : DbTx J Unit) (fun _ => db.Grows)
        fun _ => True := by
    intro f hf
    apply statement_grows
    intro w a w' h
    obtain ⟨-, rfl⟩ := Prod.mk.inj (Except.ok.inj h)
    exact hf w
  refine Triple.each _ _ fun e => ?_
  exact Triple.bind (hkeys _ fun w => .same rfl rfl rfl) fun _ => Triple.each _ _ fun b =>
    hkeys _ fun w => .same rfl rfl rfl

section
variable [SdkJson J]

theorem insertSummary_grows (r : SummaryRow) :
    Triple db.Grows (insertSummary r) (fun _ => db.Grows) fun _ => True := by
  apply statement_grows
  intro w id w' h
  obtain rfl : (w.insertSummaries r.columns).2 = w' := congrArg Prod.snd (Except.ok.inj h)
  exact w.grows_insertSummaries _

theorem insertTransaction_grows (hash : BlockHash) (time : Timestamp) (height : AbsoluteBlockHeight)
    (ts : BlockItemSummaryWithCanonicalAddresses) :
    Triple db.Grows (insertTransaction hash time height ts) (fun _ => db.Grows) fun _ => True := by
  unfold insertTransaction
  refine Triple.bind (insertSummary_grows _) fun id => ?_
  refine Triple.bind (Triple.each _ _ fun a => insertAti_grows a id) fun _ => ?_
  refine Triple.bind (ofExcept_grows _) fun contracts => ?_
  refine Triple.each _ _ fun contract => ?_
  exact Triple.bind (ofExcept_grows _) fun c => insertCti_grows c id

theorem insertSpecial_grows (hash : BlockHash) (time : Timestamp) (height : AbsoluteBlockHeight)
    (so : SpecialTransactionOutcome) :
    Triple db.Grows (insertSpecial hash time height so) (fun _ => db.Grows) fun _ => True :=
  Triple.bind (insertSummary_grows _) fun id => Triple.each _ _ fun a => insertAti_grows a id

/-- A block only adds rows, also when it fails: what was written is then rolled back. -/
theorem insertIntoDb_grows {k : Option Nat} {db' : Tables J} {d : TransactionLogData}
    {r : Except IndexingError Unit} (h : insertIntoDb k db d = (r, db')) : db.Grows db' := by
  have hbody : Triple db.Grows (insertBlockBody d.blockInfo.blockHash
      d.blockInfo.blockSlotTime.toUInt64 d.blockInfo.blockHeight d.itemSummaries d.specialEvents
      d.bindings) (fun _ => db.Grows) fun _ => True := by
    unfold insertBlockBody
    refine Triple.bind (Triple.each _ _ fun ts => ?_) fun _ => ?_
    · exact Triple.bind (insertTransaction_grows _ _ _ ts) fun _ => insertCis2Tokens_grows _
    · exact Triple.bind (Triple.each _ _ fun so => insertSpecial_grows _ _ _ so) fun _ =>
        updateKeyBindings_grows _
  have hspec := transaction_of_triple (n := k) hbody (Tables.Grows.same rfl rfl rfl)
  unfold insertIntoDb insertBlock at h
  rw [h] at hspec
  cases r with
  | ok u => exact hspec
  | error e =>
    obtain ⟨⟨w, rfl⟩, -⟩ := hspec
    exact .same rfl rfl rfl

/-! ### Rows of a target -/

omit [SdkJson J] in
theorem join_append (a b : List (Nat × Nat)) (summaries : List (Nat × SummariesRow J)) :
    join (a ++ b) summaries = join a summaries ++ join b summaries :=
  List.flatMap_append

omit [SdkJson J] in
/-- Summaries that come behind join with no earlier row. -/
theorem join_grows {db' : Tables J} (h : db.Grows db') {index : List (Nat × Nat)}
    (hknown : ∀ e ∈ index, e.2 ∈ db.summaries.ids) :
    join index db'.summaries.rows = join index db.summaries.rows := by
  obtain ⟨later, hlater⟩ := h.summaries
  have hnodup := db'.summaries.ids_nodup
  have hids : db'.summaries.ids = db.summaries.ids ++ later.map Prod.fst := by
    unfold SerialTable.ids
    rw [← hlater, List.map_append]
  rw [hids] at hnodup
  have hnone : ∀ e ∈ index, later.filter (fun r => r.1 == e.2) = [] := by
    intro e he
    apply List.filter_eq_nil_iff.mpr
    intro r hr heq
    have hid : r.1 = e.2 := beq_iff_eq.mp heq
    exact (List.nodup_append.mp hnodup).2.2 e.2 (hknown e he) r.1 (List.mem_map_of_mem hr) hid.symm
  unfold join
  apply List.flatMap_congr
  intro e he
  dsimp only
  rw [← hlater, List.filter_append, hnone e he, List.append_nil]

omit [SdkJson J] in
theorem Target.index_grows (t : Target) {db' : Tables J} (h : db.Grows db') :
    t.index db <+: t.index db' := by
  cases t with
  | account acc => exact (h.ati.filter _).map _
  | contract c => exact (h.cti.filter _).map _

omit [SdkJson J] in
theorem Target.joined_grows (t : Target) {db' : Tables J} (h : db.Grows db') :
    t.joined db <+: t.joined db' := by
  obtain ⟨later, hlater⟩ := t.index_grows h
  unfold joined
  rw [← hlater, join_append, join_grows h t.index_known]
  exact List.prefix_append _ _

theorem Target.rows_grows (t : Target) {db' : Tables J} (h : db.Grows db') :
    t.rows db <+: t.rows db' :=
  (t.joined_grows h).filterMap constructRow

end

end

end WalletProxyIndexer
