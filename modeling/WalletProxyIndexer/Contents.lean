import WalletProxyIndexer.Supply

/-!
# Contents up to generated ids

`Tables.contents` is what the four tables of the index say once generated ids are
forgotten: rows in id order, and in place of a foreign key the position of the row it
refers to.  `Contents.record` adds one block to it, with no transaction, no ids and no
failures: the meaning of `insert_block`.

`insertBlockBody_triple` is the refinement.  The statements of `insert_block` either
add exactly `record`, apply the key bindings (`applyBindings`) and had only known data
and totals in range; or they stop with `UnknownData` (then the block has an unknown
affected contract or contract log), with an out-of-range total, or on a broken
connection.
-/

namespace WalletProxyIndexer

open Transaction

structure Contents (J : Type) where
  summaries : List (SummariesRow J)
  /-- account, and position of the summary -/
  ati : List (Bytea × Nat)
  /-- index and subindex, and position of the summary -/
  cti : List ((Int64 × Int64) × Nat)
  cis2Tokens : Supplies
deriving DecidableEq

section
variable {J : Type}

def Contents.empty : Contents J := ⟨[], [], [], []⟩

namespace Tables

def supplies (t : Tables J) : Supplies := t.cis2Tokens.values.map fun r => (r.key, r.totalSupply)

def contents (t : Tables J) : Contents J where
  summaries := t.summaries.values
  ati := t.ati.values.map fun r => (r.account, t.summaries.position r.summary)
  cti := t.cti.values.map fun r => ((r.index, r.subindex), t.summaries.position r.summary)
  cis2Tokens := t.supplies

def keyBindings (t : Tables J) : List AccountPublicKeyBindingsRow :=
  t.accountPublicKeyBindings.values

@[simp] theorem contents_empty : (empty : Tables J).contents = .empty := rfl

/-- A rolled back transaction leaves the contents as they were. -/
@[simp] theorem contents_rollback (a b : Tables J) : (Rollback.rollback a b).contents = a.contents :=
  rfl

@[simp] theorem keyBindings_rollback (a b : Tables J) :
    (Rollback.rollback a b).keyBindings = a.keyBindings := rfl

@[simp] theorem keyBindings_insertSummaries (t : Tables J) (r : SummariesRow J) :
    (t.insertSummaries r).2.keyBindings = t.keyBindings := rfl

theorem contents_insertSummaries (t : Tables J) (r : SummariesRow J) :
    (t.insertSummaries r).2.contents =
      { t.contents with summaries := t.contents.summaries ++ [r] } := by
  simp only [contents, insertSummaries, supplies, SerialTable.values_insert, Contents.mk.injEq,
    true_and, and_true]
  -- earlier foreign keys refer to rows that have not moved
  constructor
  · exact List.map_congr_left fun a ha => by
      rw [SerialTable.position_insert _ _ (t.atiSummaryFkey a ha)]
  · exact List.map_congr_left fun a ha => by
      rw [SerialTable.position_insert _ _ (t.ctiSummaryFkey a ha)]

end Tables

/-- A table state by its contents and its key bindings. -/
def Holds (c : Contents J) (b : List AccountPublicKeyBindingsRow) (w : Tables J) : Prop :=
  w.contents = c ∧ w.keyBindings = b

/-- The summary with the given id is at position `p`. -/
def SummaryAt (id p : Nat) (w : Tables J) : Prop :=
  id ∈ w.summaries.ids ∧ w.summaries.position id = p

/-! ## Statements -/

section
variable {E : IndexingError → Prop} {c : Contents J} {b : List AccountPublicKeyBindingsRow}

theorem insertSummary_triple [SdkJson J] (r : SummaryRow) :
    Triple (Holds c b) (insertSummary r)
      (fun id w => Holds { c with summaries := c.summaries ++ [r.columns] } b w ∧
        SummaryAt id c.summaries.length w) E := by
  refine Triple.statement fun w hw => ?_
  obtain ⟨rfl, rfl⟩ := hw
  refine ⟨⟨w.contents_insertSummaries _, w.keyBindings_insertSummaries _⟩, ?_,
    w.summaries.position_insert_self _⟩
  show _ ∈ (w.summaries.insert r.columns).2.ids
  rw [SerialTable.ids_insert]
  exact List.mem_append_right _ (List.mem_singleton_self _)

theorem insertAti_triple (account : AccountAddress) (id p : Nat) :
    Triple (fun w => Holds c b w ∧ SummaryAt id p w) (insertAti account id)
      (fun _ w => Holds { c with ati := c.ati ++ [(account.toBytes, p)] } b w ∧ SummaryAt id p w)
      E := by
  refine Triple.statement fun w hw => ?_
  obtain ⟨⟨rfl, rfl⟩, hid, rfl⟩ := hw
  rw [Tables.insertAti, dif_pos hid]
  refine ⟨⟨?_, rfl⟩, hid, rfl⟩
  simp [Tables.contents, Tables.supplies]

theorem insertCti_triple (contract : ContractAddress) (id p : Nat) :
    Triple (fun w => Holds c b w ∧ SummaryAt id p w) (insertCti contract id)
      (fun _ w => Holds { c with
          cti := c.cti ++ [((contract.index.toInt64, contract.subindex.toInt64), p)] } b w ∧
        SummaryAt id p w) E := by
  refine Triple.statement fun w hw => ?_
  obtain ⟨⟨rfl, rfl⟩, hid, rfl⟩ := hw
  rw [Tables.insertCti, dif_pos hid]
  refine ⟨⟨?_, rfl⟩, hid, rfl⟩
  simp [Tables.contents, Tables.supplies]

theorem insertAtis_triple (accounts : List AccountAddress) (id p : Nat) :
    Triple (fun w => Holds c b w ∧ SummaryAt id p w) (accounts.forM fun a => insertAti a id)
      (fun _ w => Holds { c with ati := c.ati ++ accounts.map fun a => (a.toBytes, p) } b w ∧
        SummaryAt id p w) E := by
  have h := Triple.forM (E := E) accounts (fun a => insertAti (J := J) a id)
    (fun done w => Holds { c with ati := c.ati ++ done.map fun a => (a.toBytes, p) } b w ∧
      SummaryAt id p w) (fun done a rest _ => by
        refine (insertAti_triple a id p).conseq (fun _ hw => hw) (fun _ w hw => ?_) (fun _ he => he)
        simpa using hw)
  simpa using h

end

/-! ## Supplies -/

theorem find?_map_total (rows : List (Nat × Cis2TokensRow)) (k : Cis2Key) :
    (rows.find? fun r => r.2.key == k).map (fun r => r.2.totalSupply) =
      total ((rows.map Prod.snd).map fun r => (r.key, r.totalSupply)) k := by
  induction rows with
  | nil => rfl
  | cons r rows ih =>
    rw [List.map_cons, List.map_cons, total_cons, ← ih, List.find?_cons]
    by_cases h : k = r.2.key
    · subst h; simp
    · have : (r.2.key == k) = false := beq_eq_false_iff_ne.mpr (Ne.symm h)
      rw [this, if_neg h]

theorem Tables.cis2Row_total (t : Tables J) (k : Cis2Key) :
    (t.cis2Row k).map (fun r => r.2.totalSupply) = total t.supplies k :=
  find?_map_total t.cis2Tokens.rows k

/-- A key without a row: the upsert inserts one. -/
theorem Tables.upsertCis2Tokens_insert (t : Tables J) (f : Int → Int → Int) (r : Cis2TokensRow)
    (hfit : numericFits r.totalSupply = true) (h : t.cis2Row r.key = none) :
    ∃ id t', t.upsertCis2Tokens f r = .ok (id, t') ∧
      Holds { t.contents with cis2Tokens := t.supplies ++ [(r.key, r.totalSupply)] } t.keyBindings t' := by
  unfold Tables.upsertCis2Tokens
  rw [if_pos hfit]
  split
  · exact ⟨_, _, rfl, by simp [Tables.contents, Tables.supplies], rfl⟩
  · next h' => rw [h] at h'; cases h'

/-- A key with a row: the upsert updates its total, if that stays in range. -/
theorem Tables.upsertCis2Tokens_update (t : Tables J) (f : Int → Int → Int) (r : Cis2TokensRow)
    (hfit : numericFits r.totalSupply = true) {old : Nat × Cis2TokensRow}
    (h : t.cis2Row r.key = some old) :
    (numericFits (f old.2.totalSupply r.totalSupply) = true ∧
      ∃ id t', t.upsertCis2Tokens f r = .ok (id, t') ∧
        Holds { t.contents with cis2Tokens := t.supplies.map fun p =>
          if p.1 = r.key then (p.1, f old.2.totalSupply r.totalSupply) else p } t.keyBindings t') ∨
    (numericFits (f old.2.totalSupply r.totalSupply) = false ∧
      t.upsertCis2Tokens f r = .error (.postgresError .numericValueOutOfRange)) := by
  unfold Tables.upsertCis2Tokens
  rw [if_pos hfit]
  split
  · next h' => rw [h] at h'; cases h'
  · next old' h' =>
    obtain rfl : old' = old := by rw [h] at h'; exact (Option.some.inj h').symm
    split
    · next hnew =>
      refine Or.inl ⟨hnew, _, _, rfl, ?_, rfl⟩
      simp only [Tables.contents, Tables.supplies, SerialTable.values_update,
        SerialTable.values_burn, List.map_map]
      congr 1
      refine List.map_congr_left fun q _ => ?_
      simp only [Function.comp_apply, beq_iff_eq]
      split <;> rfl
    · next hnew => exact Or.inr ⟨by simpa using hnew, rfl⟩

/-- An upsert is `supplyStep`, and fails exactly when a total is out of range. -/
theorem Tables.upsertCis2Tokens_spec (t : Tables J) (e : SupplyEvent) :
    (e.fits t.supplies = true ∧ ∃ id t', t.upsertCis2Tokens e.onConflict ⟨e.key, e.amount⟩ = .ok (id, t') ∧
      Holds { t.contents with cis2Tokens := supplyStep t.supplies e } t.keyBindings t') ∨
    (e.fits t.supplies = false ∧ t.upsertCis2Tokens e.onConflict ⟨e.key, e.amount⟩ =
      .error (.postgresError .numericValueOutOfRange)) := by
  unfold SupplyEvent.fits supplyStep
  have hrow := t.cis2Row_total e.key
  by_cases hamount : numericFits (e.amount : Int) = true
  · rw [hamount, Bool.true_and]
    cases h : t.cis2Row e.key with
    | none =>
      rw [h, Option.map_none] at hrow
      rw [← hrow]
      exact Or.inl ⟨hamount, t.upsertCis2Tokens_insert e.onConflict ⟨e.key, e.amount⟩ hamount h⟩
    | some old =>
      rw [h, Option.map_some] at hrow
      rw [← hrow]
      have hup := t.upsertCis2Tokens_update e.onConflict ⟨e.key, e.amount⟩ hamount h
      simp only [SupplyEvent.onConflict_eq] at hup
      exact hup
  · refine Or.inr ⟨by simp [hamount], ?_⟩
    unfold Tables.upsertCis2Tokens
    rw [if_neg hamount]

end

end WalletProxyIndexer
