import WalletProxyIndexer.M0002
import WalletProxyIndexer.Lib.Transition

/-!
# Migrations under concurrency

Any number of indexers run `get_new_conn` against one database: they create the
`migrations` table, read the current version outside of any transaction, run the next
migration in a transaction of its own, and go on until the latest version.  Any of
them may fail or crash at any step; then its open transaction is rolled back.

Two indexers may read the same version and run the same body.  What separates them is
the row for the new version, which each inserts in its transaction: the primary key
lets an insert through only if the version is neither committed nor inserted by
another open transaction.  So the invariant (`Inv`) is

    an inserted version is the successor of the recorded one, and only one
    indexer has inserted it,

and a commit always extends the recorded versions `1, …, v` by `v + 1`, with exactly
one execution of its body (`migrations_applied_once`).
-/

namespace WalletProxyIndexer

open Transition

inductive SchemaVersion where
  | empty
  | initialSchema
  | accountsPublicKeyBindings
  | optimizeAffectedAccountQueries
deriving DecidableEq

namespace SchemaVersion

def latest : SchemaVersion := .optimizeAffectedAccountQueries

def asI64 : SchemaVersion → Int
  | .empty => 0
  | .initialSchema => 1
  | .accountsPublicKeyBindings => 2
  | .optimizeAffectedAccountQueries => 3

def fromVersion : Int → Option SchemaVersion
  | 0 => some .empty
  | 1 => some .initialSchema
  | 2 => some .accountsPublicKeyBindings
  | 3 => some .optimizeAffectedAccountQueries
  | _ => none

def display : SchemaVersion → String
  | .empty => "0000:Empty database with no tables yet."
  | .initialSchema => "0001:Initial schema version with tables for tracking affected accounts, contracts, and cis2 tokens."
  | .accountsPublicKeyBindings => "0002: Adding account address bindings to public keys."
  | .optimizeAffectedAccountQueries => "0003: Optimize affected account queries."

def isDestructive : SchemaVersion → Bool
  | .empty => false
  | .initialSchema => false
  | .accountsPublicKeyBindings => false
  | .optimizeAffectedAccountQueries => false

/-- The version `migration_to_next` leads to; it is not implemented for the latest one. -/
def next : SchemaVersion → Option SchemaVersion
  | .empty => some .initialSchema
  | .initialSchema => some .accountsPublicKeyBindings
  | .accountsPublicKeyBindings => some .optimizeAffectedAccountQueries
  | .optimizeAffectedAccountQueries => none

theorem fromVersion_asI64 (c : SchemaVersion) : fromVersion c.asI64 = some c := by
  cases c <;> rfl

theorem asI64_next {c new : SchemaVersion} (h : c.next = some new) : new.asI64 = c.asI64 + 1 := by
  cases c with
  | optimizeAffectedAccountQueries => cases h
  | empty | initialSchema | accountsPublicKeyBindings => obtain rfl := Option.some.inj h; rfl

theorem asI64_nonneg (c : SchemaVersion) : 0 ≤ c.asI64 := by
  cases c <;> decide

theorem asI64_le (c : SchemaVersion) : c.asI64 ≤ 3 := by
  cases c <;> decide

end SchemaVersion

/-- A row of `migrations`, without its times. -/
structure Migration where
  version : Int
  description : String
  destructive : Bool
deriving DecidableEq

def Migration.ofVersion (v : SchemaVersion) : Migration := ⟨v.asI64, v.display, v.isDestructive⟩

/-! ## The database -/

/-- A statement of a migration body. -/
inductive Statement where
  /-- the SQL file that leads to a version -/
  | batchExecute (resource : SchemaVersion)
  | insert (s : M0002.InsertStatement)
deriving DecidableEq

def Statement.accepted : Statement → Bool
  | .batchExecute _ => true
  | .insert s => s.accepted

structure Database where
  /-- rows of the `migrations` table, `none` when there is no such table -/
  migrations : Option (List Migration)
  /-- the statements of migration bodies that were committed, in order -/
  effects : List Statement
deriving DecidableEq

namespace Database

def versions (db : Database) : List Int := (db.migrations.getD []).map Migration.version

/-- `CREATE TABLE IF NOT EXISTS migrations` -/
def ensureMigrationsTable (db : Database) : Database :=
  { db with migrations := some (db.migrations.getD []) }

def hasMigrationTable (db : Database) : Bool := db.migrations.isSome

/-- `SELECT MAX(version) FROM migrations`, 0 when there are no rows. -/
def currentSchemaVersion (db : Database) : Except AnyhowError SchemaVersion :=
  match db.migrations with
  | none => .error "db error"
  | some rows =>
    match SchemaVersion.fromVersion ((rows.map Migration.version).max?.getD 0) with
    | some version => .ok version
    | none => .error "Unknown database schema version"

/-- The statements of a transaction and its row in `migrations` become visible together. -/
def commit (db : Database) (new : SchemaVersion) (work : List Statement) : Database where
  migrations := some (db.migrations.getD [] ++ [Migration.ofVersion new])
  effects := db.effects ++ work

end Database

/-- The rows of `account_public_key_bindings` that the statements insert. -/
def keyBindingRows (effects : List Statement) : List AccountPublicKeyBindingsRow :=
  effects.flatMap fun
    | .batchExecute _ => []
    | .insert s => s.rows

/-- What `migration_to_next` executes before it inserts the new version.  For `m0002` the
statements depend on the account infos the node returns. -/
inductive Body : SchemaVersion → List Statement → Prop where
  | initialSchema : Body .empty [.batchExecute .initialSchema]
  | keyBindings {infos : List AccountInfo} {issued : List M0002.InsertStatement} :
      M0002.run infos = .ok issued →
      Body .initialSchema (.batchExecute .accountsPublicKeyBindings :: issued.map .insert)
  | queryIndexes : Body .accountsPublicKeyBindings [.batchExecute .optimizeAffectedAccountQueries]

/-! ## The indexers -/

/-- Where an indexer is in `get_new_conn`. -/
inductive Runner where
  /-- not started, or ended by an error or a crash -/
  | stopped
  /-- connected, about to create the `migrations` table -/
  | connected
  /-- about to read the current version -/
  | reading
  /-- at the head of the loop of `run_migrations` -/
  | looping (current : SchemaVersion)
  /-- in the transaction of a migration: what it executed and what is left of its body -/
  | migrating (current new : SchemaVersion) (done todo : List Statement)
  /-- the row for `new` is inserted, `COMMIT` is next -/
  | inserted (new : SchemaVersion) (work : List Statement)
  /-- in `ensure_latest_schema_version`, about to look for the table -/
  | checkingTable
  /-- in `ensure_latest_schema_version`, about to compare the version -/
  | checkingVersion
  /-- preparing the query statements -/
  | preparing
  /-- `get_new_conn` returned the connection -/
  | handedOut

structure Cluster where
  db : Database
  runner : Nat → Runner

def Cluster.set (s : Cluster) (i : Nat) (r : Runner) : Cluster :=
  { s with runner := Function.update s.runner i r }

/-- One step of indexer `i`. -/
inductive MigrationStep (s : Cluster) (i : Nat) : Cluster → Prop where
  | connect : s.runner i = .stopped → MigrationStep s i (s.set i .connected)
  | ensureTable : s.runner i = .connected →
      MigrationStep s i { s.set i .reading with db := s.db.ensureMigrationsTable }
  | read {current : SchemaVersion} : s.runner i = .reading →
      s.db.currentSchemaVersion = .ok current → MigrationStep s i (s.set i (.looping current))
  | begin {current new : SchemaVersion} {body : List Statement} : s.runner i = .looping current →
      current.asI64 < SchemaVersion.latest.asI64 → current.next = some new → Body current body →
      MigrationStep s i (s.set i (.migrating current new [] body))
  | execute {current new : SchemaVersion} {done todo : List Statement} {st : Statement} :
      s.runner i = .migrating current new done (st :: todo) → st.accepted = true →
      MigrationStep s i (s.set i (.migrating current new (done ++ [st]) todo))
  /-- the primary key: the version is not committed, and no open transaction holds it -/
  | insertVersion {current new : SchemaVersion} {done : List Statement} :
      s.runner i = .migrating current new done [] → new.asI64 ∉ s.db.versions →
      (∀ j work, s.runner j ≠ .inserted new work) →
      MigrationStep s i (s.set i (.inserted new done))
  | commit {new : SchemaVersion} {work : List Statement} : s.runner i = .inserted new work →
      MigrationStep s i { s.set i (.looping new) with db := s.db.commit new work }
  /-- the transaction is committed, but the connection breaks before the answer -/
  | commitUnanswered {new : SchemaVersion} {work : List Statement} : s.runner i = .inserted new work →
      MigrationStep s i { s.set i .stopped with db := s.db.commit new work }
  | latest {current : SchemaVersion} : s.runner i = .looping current →
      ¬ current.asI64 < SchemaVersion.latest.asI64 → MigrationStep s i (s.set i .checkingTable)
  | hasTable : s.runner i = .checkingTable → s.db.hasMigrationTable = true →
      MigrationStep s i (s.set i .checkingVersion)
  | ensureLatest : s.runner i = .checkingVersion →
      s.db.currentSchemaVersion = .ok SchemaVersion.latest → MigrationStep s i (s.set i .preparing)
  | handOut : s.runner i = .preparing → MigrationStep s i (s.set i .handedOut)
  /-- an error or a crash, or the connection is dropped after use -/
  | stop : MigrationStep s i (s.set i .stopped)

/-- Indexers, numbered, on a database that starts out empty. -/
def migrationSystem : System Cluster Nat where
  init s := s.db = ⟨none, []⟩ ∧ ∀ i, s.runner i = .stopped
  step s i s' := MigrationStep s i s'

/-! ## The recorded versions -/

/-- One execution of each of the first `v` migration bodies, in order. -/
inductive Executed : Nat → List Statement → Prop where
  | nil : Executed 0 []
  | next {v : Nat} {effects body : List Statement} {current : SchemaVersion} :
      Executed v effects → current.asI64 = v → Body current body → Executed (v + 1) (effects ++ body)

/-- 1, …, v -/
def versionsUpTo (v : Nat) : List Int := (List.range v).map fun i : Nat => (i : Int) + 1

structure Migrated (db : Database) (v : Nat) : Prop where
  versions : db.versions = versionsUpTo v
  /-- the effects are one execution of each of their bodies -/
  effects : Executed v db.effects
  le : v ≤ 3

theorem mem_versionsUpTo {v : Nat} {x : Int} : x ∈ versionsUpTo v ↔ 1 ≤ x ∧ x ≤ v := by
  unfold versionsUpTo
  rw [List.mem_map]
  constructor
  · rintro ⟨i, hi, rfl⟩
    have := List.mem_range.mp hi
    omega
  · rintro ⟨h1, h2⟩
    exact ⟨(x - 1).toNat, List.mem_range.mpr (by omega), by omega⟩

theorem versionsUpTo_succ (v : Nat) : versionsUpTo (v + 1) = versionsUpTo v ++ [(v : Int) + 1] := by
  unfold versionsUpTo
  rw [List.range_succ, List.map_append, List.map_singleton]

theorem max?_versionsUpTo (v : Nat) : (versionsUpTo v).max?.getD 0 = v := by
  cases v with
  | zero => rfl
  | succ v =>
    have hmax : (versionsUpTo (v + 1)).max? = some ((v : Int) + 1) := by
      rw [List.max?_eq_some_iff]
      constructor
      · exact mem_versionsUpTo.mpr (by omega)
      · intro b hb
        have := mem_versionsUpTo.mp hb
        omega
    rw [hmax]
    simp

theorem Migrated.exists_version {db : Database} {v : Nat} (h : Migrated db v) :
    ∃ c : SchemaVersion, c.asI64 = v := by
  have hle := h.le
  have hv : v = 0 ∨ v = 1 ∨ v = 2 ∨ v = 3 := by omega
  rcases hv with rfl | rfl | rfl | rfl
  · exact ⟨.empty, rfl⟩
  · exact ⟨.initialSchema, rfl⟩
  · exact ⟨.accountsPublicKeyBindings, rfl⟩
  · exact ⟨.optimizeAffectedAccountQueries, rfl⟩

/-- `current_schema_version` reads the last recorded version. -/
theorem Migrated.currentSchemaVersion {db : Database} {v : Nat} (h : Migrated db v)
    (htable : db.hasMigrationTable = true) {c : SchemaVersion} (hc : c.asI64 = v) :
    db.currentSchemaVersion = .ok c := by
  have hversions := h.versions
  unfold Database.hasMigrationTable at htable
  unfold Database.versions at hversions
  unfold Database.currentSchemaVersion
  cases hm : db.migrations with
  | none => rw [hm] at htable; cases htable
  | some rows =>
    rw [hm, Option.getD_some] at hversions
    dsimp only
    rw [hversions, max?_versionsUpTo, ← hc, SchemaVersion.fromVersion_asI64]

/-- A commit of the next version. -/
theorem Migrated.commit {db : Database} {v : Nat} (h : Migrated db v) {current new : SchemaVersion}
    {work : List Statement} (hnext : current.next = some new) (hnew : new.asI64 = v + 1)
    (hbody : Body current work) : Migrated (db.commit new work) (v + 1) := by
  have hcur := SchemaVersion.asI64_next hnext
  refine ⟨?_, .next h.effects (by omega) hbody, ?_⟩
  · have hv := h.versions
    unfold Database.versions at hv
    unfold Database.versions Database.commit
    rw [Option.getD_some, List.map_append, List.map_singleton, versionsUpTo_succ, hv]
    show _ ++ [new.asI64] = _
    rw [hnew]
  · have := new.asI64_le
    omega

theorem Migrated.ensureTable {db : Database} {v : Nat} (h : Migrated db v) :
    Migrated db.ensureMigrationsTable v := by
  refine ⟨?_, h.effects, h.le⟩
  have hv := h.versions
  unfold Database.versions Database.ensureMigrationsTable at *
  rw [Option.getD_some]
  exact hv

/-- The snapshot of `m0002` is present once when its version is recorded, and not before. -/
theorem Executed.keyBindings {v : Nat} {effects : List Statement} (h : Executed v effects) :
    (v < 2 → keyBindingRows effects = []) ∧
    (2 ≤ v → ∃ infos issued, M0002.run infos = .ok issued ∧
      keyBindingRows effects = infos.flatMap M0002.infoRows) := by
  induction h with
  | nil => exact ⟨fun _ => rfl, fun h => by omega⟩
  | @next v effects body current _ hcur hbody ih =>
    have happend : keyBindingRows (effects ++ body) = keyBindingRows effects ++ keyBindingRows body :=
      List.flatMap_append
    rw [happend]
    cases hbody with
    | initialSchema =>
      have hv : (v : Int) = 0 := hcur.symm
      exact ⟨fun _ => by rw [ih.1 (by omega)]; rfl, fun h => by omega⟩
    | @keyBindings infos issued hrun =>
      have hv : (v : Int) = 1 := hcur.symm
      refine ⟨fun h => by omega, fun _ => ⟨infos, issued, hrun, ?_⟩⟩
      rw [ih.1 (by omega), ← (M0002.run_rows hrun).1]
      show [] ++ ([] ++ (issued.map Statement.insert).flatMap _) = _
      rw [List.nil_append, List.nil_append, List.flatMap_map]
    | queryIndexes =>
      have hv : (v : Int) = 2 := hcur.symm
      refine ⟨fun h => by omega, fun _ => ?_⟩
      obtain ⟨infos, issued, hrun, hrows⟩ := ih.2 (by omega)
      exact ⟨infos, issued, hrun, by rw [hrows]; exact List.append_nil _⟩

/-! ## The invariant -/

/-- What an indexer may rely on when `v` versions are recorded. -/
def Runner.Ok (v : Nat) (table : Bool) : Runner → Prop
  | .stopped => True
  | .connected => True
  | .reading => table = true
  | .looping current => current.asI64 ≤ v ∧ table = true
  | .migrating current new done todo =>
    current.asI64 ≤ v ∧ current.next = some new ∧ Body current (done ++ todo) ∧ table = true
  | .inserted new work =>
    new.asI64 = v + 1 ∧ (∃ current, current.next = some new ∧ Body current work) ∧ table = true
  | .checkingTable => v = 3
  | .checkingVersion => v = 3 ∧ table = true
  | .preparing => v = 3
  | .handedOut => v = 3

structure Inv (v : Nat) (s : Cluster) : Prop where
  migrated : Migrated s.db v
  runners : ∀ i, (s.runner i).Ok v s.db.hasMigrationTable
  alone : ∀ i j new new' work work', s.runner i = .inserted new work →
    s.runner j = .inserted new' work' → i = j

theorem Cluster.set_runner_self (s : Cluster) (i : Nat) (r : Runner) : (s.set i r).runner i = r :=
  Function.update_self ..

theorem Cluster.set_runner_ne (s : Cluster) {i j : Nat} (r : Runner) (h : j ≠ i) :
    (s.set i r).runner j = s.runner j :=
  Function.update_of_ne h ..

/-- A step of one indexer that neither inserts a version nor writes. -/
theorem Inv.set {v : Nat} {s : Cluster} (h : Inv v s) {i : Nat} {r : Runner}
    (hr : r.Ok v s.db.hasMigrationTable) (hne : ∀ new work, r ≠ .inserted new work) :
    Inv v (s.set i r) := by
  refine ⟨h.migrated, fun j => ?_, fun j k new new' work work' hj hk => ?_⟩
  · by_cases hji : j = i
    · subst hji; rw [s.set_runner_self]; exact hr
    · rw [s.set_runner_ne r hji]; exact h.runners j
  · by_cases hji : j = i
    · subst hji; rw [s.set_runner_self] at hj; exact absurd hj (hne _ _)
    · by_cases hki : k = i
      · subst hki; rw [s.set_runner_self] at hk; exact absurd hk (hne _ _)
      · rw [s.set_runner_ne r hji] at hj
        rw [s.set_runner_ne r hki] at hk
        exact h.alone j k _ _ _ _ hj hk

/-- An indexer that is ready to insert its version and may: nobody else holds it. -/
theorem Inv.insertVersion {v : Nat} {s : Cluster} (h : Inv v s) {i : Nat}
    {current new : SchemaVersion} {done : List Statement}
    (hi : s.runner i = .migrating current new done []) (hfree : new.asI64 ∉ s.db.versions)
    (hopen : ∀ j work, s.runner j ≠ .inserted new work) : Inv v (s.set i (.inserted new done)) := by
  have hok := h.runners i
  rw [hi] at hok
  obtain ⟨hle, hnext, hbody, htable⟩ := hok
  rw [List.append_nil] at hbody
  have hsucc := SchemaVersion.asI64_next hnext
  have hnew : new.asI64 = v + 1 := by
    rw [h.migrated.versions, mem_versionsUpTo] at hfree
    have := current.asI64_nonneg
    omega
  -- any other inserted version would be the same one
  have hothers : ∀ j w work, s.runner j = .inserted w work → False := by
    intro j w work hj
    have hjok := h.runners j
    rw [hj] at hjok
    have hsame : some w = some new := by
      rw [← w.fromVersion_asI64, ← new.fromVersion_asI64, hjok.1, hnew]
    exact hopen j work (by rw [hj, Option.some.inj hsame])
  refine ⟨h.migrated, fun j => ?_, fun j k w w' work work' hj hk => ?_⟩
  · by_cases hji : j = i
    · subst hji
      rw [s.set_runner_self]
      exact ⟨hnew, ⟨current, hnext, hbody⟩, htable⟩
    · rw [s.set_runner_ne _ hji]; exact h.runners j
  · by_cases hji : j = i
    · by_cases hki : k = i
      · rw [hji, hki]
      · rw [s.set_runner_ne _ hki] at hk
        exact (hothers k _ _ hk).elim
    · rw [s.set_runner_ne _ hji] at hj
      exact (hothers j _ _ hj).elim

/-- Recording the next version takes nothing from the other indexers. -/
theorem Runner.Ok.mono {v : Nat} {table : Bool} {r : Runner} (h : r.Ok v table) (hv : v < 3)
    (hne : ∀ new work, r ≠ .inserted new work) : r.Ok (v + 1) true := by
  cases r with
  | stopped | connected => trivial
  | reading => rfl
  | looping current => exact ⟨by have := h.1; omega, rfl⟩
  | migrating current new done todo =>
    exact ⟨by have := h.1; omega, h.2.1, h.2.2.1, rfl⟩
  | inserted new work => exact absurd rfl (hne new work)
  | checkingTable | preparing | handedOut =>
    have h : v = 3 := h
    omega
  | checkingVersion =>
    have h : v = 3 := h.1
    omega

/-- A commit records the next version. -/
theorem Inv.commit {v : Nat} {s : Cluster} (h : Inv v s) {i : Nat} {new : SchemaVersion}
    {work : List Statement} (hi : s.runner i = .inserted new work) {r : Runner}
    (hr : r.Ok (v + 1) true) (hne : ∀ w work', r ≠ .inserted w work') :
    Inv (v + 1) { s.set i r with db := s.db.commit new work } := by
  have hok := h.runners i
  rw [hi] at hok
  obtain ⟨hnew, ⟨current, hnext, hbody⟩, -⟩ := hok
  have hlt : v < 3 := by
    have := new.asI64_le
    omega
  have hother : ∀ j, j ≠ i → ∀ w work', s.runner j ≠ .inserted w work' := by
    intro j hji w work' hj
    exact hji (h.alone j i _ _ _ _ hj hi)
  refine ⟨h.migrated.commit hnext hnew hbody, fun j => ?_, fun j k w w' work' work'' hj hk => ?_⟩
  · by_cases hji : j = i
    · subst hji
      show ((s.set j r).runner j).Ok _ _
      rw [s.set_runner_self]
      exact hr
    · show ((s.set i r).runner j).Ok _ _
      rw [s.set_runner_ne r hji]
      exact (h.runners j).mono hlt (hother j hji)
  · by_cases hji : j = i
    · have hj : (s.set i r).runner j = _ := hj
      rw [hji, s.set_runner_self] at hj
      exact absurd hj (hne _ _)
    · have hj : (s.set i r).runner j = _ := hj
      rw [s.set_runner_ne r hji] at hj
      exact absurd hj (hother j hji _ _)

theorem Runner.Ok.table {v : Nat} {table : Bool} {r : Runner} (h : r.Ok v table) : r.Ok v true := by
  cases r with
  | stopped | connected => trivial
  | reading => rfl
  | looping current => exact ⟨h.1, rfl⟩
  | migrating current new done todo => exact ⟨h.1, h.2.1, h.2.2.1, rfl⟩
  | inserted new work => exact ⟨h.1, h.2.1, rfl⟩
  | checkingTable | preparing | handedOut => exact h
  | checkingVersion => exact ⟨h.1, rfl⟩

theorem Inv.ensureTable {v : Nat} {s : Cluster} (h : Inv v s) :
    Inv v { s with db := s.db.ensureMigrationsTable } :=
  ⟨h.migrated.ensureTable, fun j => (h.runners j).table, h.alone⟩

/-- Each step keeps the recorded versions or adds the next one. -/
theorem Inv.step {v : Nat} {s s' : Cluster} {i : Nat} (h : Inv v s) (hs : MigrationStep s i s') :
    ∃ v', v ≤ v' ∧ Inv v' s' := by
  have hok := h.runners i
  cases hs with
  | connect hi => exact ⟨v, le_refl v, h.set trivial (by simp)⟩
  | ensureTable hi => exact ⟨v, le_refl v, h.ensureTable.set rfl (by simp)⟩
  | @read current hi hread =>
    rw [hi] at hok
    obtain ⟨c, hc⟩ := h.migrated.exists_version
    rw [h.migrated.currentSchemaVersion hok hc] at hread
    obtain rfl : c = current := Except.ok.inj hread
    exact ⟨v, le_refl v, h.set ⟨le_of_eq hc, hok⟩ (by simp)⟩
  | begin hi hlt hnext hbody =>
    rw [hi] at hok
    exact ⟨v, le_refl v, h.set ⟨hok.1, hnext, hbody, hok.2⟩ (by simp)⟩
  | execute hi hacc =>
    rw [hi] at hok
    refine ⟨v, le_refl v, h.set ⟨hok.1, hok.2.1, ?_, hok.2.2.2⟩ (by simp)⟩
    rw [List.append_assoc, List.singleton_append]
    exact hok.2.2.1
  | insertVersion hi hfree hopen => exact ⟨v, le_refl v, h.insertVersion hi hfree hopen⟩
  | @commit new work hi =>
    rw [hi] at hok
    exact ⟨v + 1, by omega, h.commit hi ⟨by have := hok.1; omega, rfl⟩ (by simp)⟩
  | commitUnanswered hi => exact ⟨v + 1, by omega, h.commit hi trivial (by simp)⟩
  | @latest current hi hlt =>
    rw [hi] at hok
    have hv : v = 3 := by
      have h3 : SchemaVersion.latest.asI64 = 3 := rfl
      have := hok.1
      have := h.migrated.le
      omega
    exact ⟨v, le_refl v, h.set hv (by simp)⟩
  | hasTable hi htable =>
    rw [hi] at hok
    exact ⟨v, le_refl v, h.set ⟨hok, htable⟩ (by simp)⟩
  | ensureLatest hi _ =>
    rw [hi] at hok
    exact ⟨v, le_refl v, h.set hok.1 (by simp)⟩
  | handOut hi =>
    rw [hi] at hok
    exact ⟨v, le_refl v, h.set hok (by simp)⟩
  | stop => exact ⟨v, le_refl v, h.set trivial (by simp)⟩

/-- In every run the recorded versions are 1, …, v for some v that never decreases,
`current_schema_version` reads v, the effects are one execution of each of their bodies in
order, the snapshot of `m0002` among them once, and a connection is handed out only at the
latest version. -/
theorem migrations_applied_once (e : Execution migrationSystem) :
    ∃ v : Nat → Nat, Monotone v ∧ ∀ t,
      Migrated (e.state t).db (v t) ∧
      ((e.state t).db.hasMigrationTable = true → ∃ c : SchemaVersion, c.asI64 = v t ∧
        (e.state t).db.currentSchemaVersion = .ok c) ∧
      (v t < 2 → keyBindingRows (e.state t).db.effects = []) ∧
      (2 ≤ v t → ∃ infos issued, M0002.run infos = .ok issued ∧
        keyBindingRows (e.state t).db.effects = infos.flatMap M0002.infoRows) ∧
      (∀ i, (e.state t).runner i = .handedOut → (v t : Int) = SchemaVersion.latest.asI64) := by
  have hstart : ∀ s, migrationSystem.init s → ∃ v, Inv v s := by
    rintro s ⟨hdb, hrunner⟩
    refine ⟨0, ⟨?_, ?_, ?_⟩, fun i => ?_, fun i j new new' work work' hi => ?_⟩
    · rw [hdb]; rfl
    · rw [hdb]; exact .nil
    · omega
    · rw [hrunner i]; trivial
    · rw [hrunner i] at hi; cases hi
  obtain ⟨v, hmono, hinv⟩ := e.exists_monotone Inv hstart fun k s l s' hk hs => hk.step hs
  refine ⟨v, hmono, fun t => ⟨(hinv t).migrated, fun htable => ?_,
    (hinv t).migrated.effects.keyBindings.1, (hinv t).migrated.effects.keyBindings.2, fun i hi => ?_⟩⟩
  · obtain ⟨c, hc⟩ := (hinv t).migrated.exists_version
    exact ⟨c, hc, (hinv t).migrated.currentSchemaVersion htable hc⟩
  · have hok := (hinv t).runners i
    rw [hi] at hok
    have hok : v t = 3 := hok
    rw [hok]
    rfl

end WalletProxyIndexer
