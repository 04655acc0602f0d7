import WalletProxyIndexer.Sdk
import WalletProxyIndexer.Lib.SerialTable
import WalletProxyIndexer.Lib.Transaction

/-!
# Database schema

The tables of `m0001-initial.sql` and `m0002-accounts-public-key-bindings.sql`, with
their foreign keys and the unique key of `cis2_tokens` as fields of `Tables`, and the
statements the indexer prepares over them.  A statement that would break a constraint
returns the error Postgres returns.

`INT8` columns are `Int64`, `INT` columns `Int`, `NUMERIC(80, 0)` an `Int` checked by
`numericFits`; generated ids are `Nat`.
-/

namespace WalletProxyIndexer

open Transaction

/-- `postgres::Error`, by its cause. -/
inductive PgError where
  | closed
  | numericValueOutOfRange
  | foreignKeyViolation
  | invalidRowCountInLimitClause
deriving DecidableEq

/-- `anyhow::Error`, by its message. -/
abbrev AnyhowError := String

inductive IndexingError where
  | postgresError (e : PgError)
  | unknownData (reason : String)
deriving DecidableEq

instance : Connection IndexingError := ⟨.postgresError .closed⟩

/-- A JSON object with one field. -/
structure TaggedJson (J : Type) where
  tag : String
  content : J
deriving DecidableEq

structure SummariesRow (J : Type) where
  block : Bytea
  timestamp : Int64
  height : Int64
  summary : TaggedJson J
deriving DecidableEq

structure AtiRow where
  account : Bytea
  /-- id of the row in `summaries` -/
  summary : Nat
deriving DecidableEq

structure CtiRow where
  index : Int64
  subindex : Int64
  /-- id of the row in `summaries` -/
  summary : Nat
deriving DecidableEq

/-- The unique key of `cis2_tokens`. -/
structure Cis2Key where
  index : Int64
  subindex : Int64
  tokenId : Bytea
deriving DecidableEq

structure Cis2TokensRow where
  key : Cis2Key
  totalSupply : Int
deriving DecidableEq

structure AccountPublicKeyBindingsRow where
  address : Bytea
  publicKey : Bytea
  credentialIndex : Int
  keyIndex : Int
  isSimpleAccount : Bool
deriving DecidableEq

structure Tables (J : Type) where
  summaries : SerialTable (SummariesRow J)
  ati : SerialTable AtiRow
  cti : SerialTable CtiRow
  cis2Tokens : SerialTable Cis2TokensRow
  accountPublicKeyBindings : SerialTable AccountPublicKeyBindingsRow
  atiSummaryFkey : ∀ r ∈ ati.values, r.summary ∈ summaries.ids
  ctiSummaryFkey : ∀ r ∈ cti.values, r.summary ∈ summaries.ids
  cis2Unique : (cis2Tokens.values.map Cis2TokensRow.key).Nodup

/-- `NUMERIC(80, 0)` holds integers of at most 80 digits. -/
def numericFits (x : Int) : Bool := x.natAbs < 10 ^ 80

namespace Tables

variable {J : Type}

def empty : Tables J where
  summaries := .empty
  ati := .empty
  cti := .empty
  cis2Tokens := .empty
  accountPublicKeyBindings := .empty
  atiSummaryFkey := by simp
  ctiSummaryFkey := by simp
  cis2Unique := by simp

/-- `INSERT INTO summaries (block, timestamp, height, summary) VALUES … RETURNING id` -/
def insertSummaries (t : Tables J) (r : SummariesRow J) : Nat × Tables J :=
  ((t.summaries.insert r).1, { t with
    summaries := (t.summaries.insert r).2
    atiSummaryFkey := fun a ha => by
      rw [SerialTable.ids_insert]; exact List.mem_append_left _ (t.atiSummaryFkey a ha)
    ctiSummaryFkey := fun c hc => by
      rw [SerialTable.ids_insert]; exact List.mem_append_left _ (t.ctiSummaryFkey c hc) })

/-- `INSERT INTO ati (account, summary) VALUES ($1, $2)` -/
def insertAti (t : Tables J) (r : AtiRow) : Except IndexingError (Unit × Tables J) :=
  if h : r.summary ∈ t.summaries.ids then
    .ok ((), { t with
      ati := (t.ati.insert r).2
      atiSummaryFkey := fun a ha => by
        rw [SerialTable.values_insert] at ha
        rcases List.mem_append.mp ha with ha | ha
        · exact t.atiSummaryFkey a ha
        · rw [List.mem_singleton.mp ha]; exact h })
  else .error (.postgresError .foreignKeyViolation)

/-- `INSERT INTO cti (index, subindex, summary) VALUES ($1, $2, $3)` -/
def insertCti (t : Tables J) (r : CtiRow) : Except IndexingError (Unit × Tables J) :=
  if h : r.summary ∈ t.summaries.ids then
    .ok ((), { t with
      cti := (t.cti.insert r).2
      ctiSummaryFkey := fun c hc => by
        rw [SerialTable.values_insert] at hc
        rcases List.mem_append.mp hc with hc | hc
        · exact t.ctiSummaryFkey c hc
        · rw [List.mem_singleton.mp hc]; exact h })
  else .error (.postgresError .foreignKeyViolation)

/-- The row of `cis2_tokens` with the given unique key, with its id. -/
def cis2Row (t : Tables J) (key : Cis2Key) : Option (Nat × Cis2TokensRow) :=
  t.cis2Tokens.rows.find? fun r => r.2.key == key

theorem cis2Row_eq_none {t : Tables J} {key : Cis2Key} (h : t.cis2Row key = none) :
    key ∉ t.cis2Tokens.values.map Cis2TokensRow.key := by
  intro hk
  obtain ⟨r, hr, hrk⟩ := List.mem_map.mp hk
  obtain ⟨p, hp, rfl⟩ := List.mem_map.mp hr
  have := List.find?_eq_none.mp h p hp
  simp [hrk] at this

/-- `INSERT INTO cis2_tokens … ON CONFLICT (index, subindex, token_id) DO UPDATE SET
total_supply = onConflict cis2_tokens.total_supply EXCLUDED.total_supply RETURNING id`.
The proposed row is built, so its total checked, before the conflict is looked for. -/
def upsertCis2Tokens (t : Tables J) (onConflict : Int → Int → Int) (r : Cis2TokensRow) :
    Except IndexingError (Nat × Tables J) :=
  if numericFits r.totalSupply then
    match h : t.cis2Row r.key with
    | none => .ok ((t.cis2Tokens.insert r).1, { t with
        cis2Tokens := (t.cis2Tokens.insert r).2
        cis2Unique := by
          rw [SerialTable.values_insert, List.map_append, List.nodup_append]
          refine ⟨t.cis2Unique, by simp, ?_⟩
          intro a ha b hb he
          simp only [List.map_cons, List.map_nil, List.mem_singleton] at hb
          exact cis2Row_eq_none h (by rw [← hb, ← he]; exact ha) })
    | some old =>
      if numericFits (onConflict old.2.totalSupply r.totalSupply) then
        .ok (old.1, { t with
          cis2Tokens := t.cis2Tokens.burn.update (·.key == r.key) fun q =>
            { q with totalSupply := onConflict old.2.totalSupply r.totalSupply }
          cis2Unique := by
            rw [SerialTable.values_update, SerialTable.values_burn, List.map_map]
            have hkey : ∀ q ∈ t.cis2Tokens.values, (Cis2TokensRow.key ∘ fun q : Cis2TokensRow =>
                if q.key == r.key then
                  { q with totalSupply := onConflict old.2.totalSupply r.totalSupply }
                else q) q = q.key := by
              intro q _
              simp only [Function.comp_apply]
              split <;> rfl
            rw [List.map_congr_left hkey]
            exact t.cis2Unique })
      else .error (.postgresError .numericValueOutOfRange)
  else .error (.postgresError .numericValueOutOfRange)

/-- `INSERT INTO account_public_key_bindings (…) VALUES ($1, $2, $3, $4, $5)` -/
def insertKeyBindings (t : Tables J) (r : AccountPublicKeyBindingsRow) : Tables J :=
  { t with accountPublicKeyBindings := (t.accountPublicKeyBindings.insert r).2 }

/-- `DELETE FROM account_public_key_bindings WHERE address = $1` -/
def deleteKeyBindings (t : Tables J) (address : Bytea) : Tables J :=
  { t with accountPublicKeyBindings :=
      t.accountPublicKeyBindings.delete (·.address == address) }

instance : Rollback (Tables J) where
  rollback before after :=
    { before with
      summaries := before.summaries.rollback after.summaries
      ati := before.ati.rollback after.ati
      cti := before.cti.rollback after.cti
      cis2Tokens := before.cis2Tokens.rollback after.cis2Tokens
      accountPublicKeyBindings :=
        before.accountPublicKeyBindings.rollback after.accountPublicKeyBindings }

end Tables

end WalletProxyIndexer
