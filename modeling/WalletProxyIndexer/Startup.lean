import WalletProxyIndexer.KeyBatches
import WalletProxyIndexer.Migrations
import WalletProxyIndexer.Lib.Progress

/-!
# Whether an indexer gets its connection

`migrations_applied_once` says that what is handed out is right.  Here: when a connection
is handed out at all, over nodes whose account infos satisfy a condition
(`migrationsOver`).  The one step that may never go through is a statement of `m0002`,
which the database accepts only up to a number of parameters.

    connection_within_reach    no account is too large: any indexer can get its connection, from
                               wherever the others stand, in a bounded number of steps
    connection_iff             otherwise no indexer ever does, and the schema never gets to
                               version 2

One indexer on its way gets nearer with each step (`Starting.step`); what the others may
hold is an inserted version, which is theirs to commit.
-/

namespace WalletProxyIndexer

open Transition

/-- What `m0002` executes for the account infos, when these satisfy `P`. -/
def Snapshot (P : List AccountInfo → Prop) (body : List Statement) : Prop :=
  ∃ infos issued, P infos ∧ M0002.run infos = .ok issued ∧
    body = .batchExecute .accountsPublicKeyBindings :: issued.map .insert

/-- The migrations of key bindings that are under way come from account infos with `P`. -/
def Fed (P : List AccountInfo → Prop) (s : Cluster) : Prop :=
  ∀ i new done todo, s.runner i = .migrating .initialSchema new done todo → Snapshot P (done ++ todo)

/-- The migrations over nodes whose account infos satisfy `P`. -/
def migrationsOver (P : List AccountInfo → Prop) : System Cluster Nat where
  init := migrationSystem.init
  step s i s' := MigrationStep s i s' ∧ Fed P s'

/-- For some account infos the database accepts every statement of `m0002`. -/
def Acceptable (P : List AccountInfo → Prop) : Prop :=
  ∃ infos issued, P infos ∧ M0002.run infos = .ok issued ∧ ∀ st ∈ issued, st.accepted = true

section
variable {P : List AccountInfo → Prop} {s s' : Cluster} {i : Nat} {r : Runner}

theorem Fed.set (h : Fed P s) (hr : ∀ new done todo,
    r = .migrating .initialSchema new done todo → Snapshot P (done ++ todo)) : Fed P (s.set i r) := by
  intro j new done todo hj
  by_cases hji : j = i
  · subst hji
    rw [s.set_runner_self] at hj
    exact hr new done todo hj
  · rw [s.set_runner_ne r hji] at hj
    exact h j new done todo hj

theorem versions_length {v : Nat} (h : Inv v s) : s.db.versions.length = v := by
  rw [h.migrated.versions]
  unfold versionsUpTo
  rw [List.length_map, List.length_range]

theorem inv_init (h : migrationSystem.init s) : Inv 0 s := by
  obtain ⟨hdb, hrunner⟩ := h
  refine ⟨⟨by rw [hdb]; rfl, by rw [hdb]; exact .nil, by omega⟩, fun i => ?_, ?_⟩
  · rw [hrunner i]; trivial
  · intro i j new new' work work' hi
    rw [hrunner i] at hi; cases hi

theorem inv_of_reachable (h : Reachable (migrationsOver P) s) :
    Inv s.db.versions.length s ∧ Fed P s := by
  obtain ⟨⟨v, hv⟩, hfed⟩ : (∃ v, Inv v s) ∧ Fed P s := by
    refine h.invariant (I := fun s => (∃ v, Inv v s) ∧ Fed P s) ?_ ?_
    · intro s hinit
      refine ⟨⟨0, inv_init hinit⟩, fun i new done todo hi => ?_⟩
      rw [hinit.2 i] at hi; cases hi
    · rintro s l s' ⟨⟨v, hv⟩, -⟩ ⟨hstep, hfed⟩
      obtain ⟨v', -, hv'⟩ := hv.step hstep
      exact ⟨⟨v', hv'⟩, hfed⟩
  exact ⟨by rw [versions_length hv]; exact hv, hfed⟩

/-! ## One indexer alone -/

/-- How many steps the migrations from version `v` on take, with `m` inserts in `m0002`. -/
def migrationSteps (m : Nat) : Nat → Nat
  | 0 => 12 + m
  | 1 => 8 + m
  | 2 => 4
  | _ => 0

/-- How many steps an indexer is away from its connection, when `v` versions are recorded. -/
def Runner.distance (m v : Nat) : Runner → Nat
  | .stopped => 7 + migrationSteps m v
  | .connected => 6 + migrationSteps m v
  | .reading => 5 + migrationSteps m v
  | .looping _ => 4 + migrationSteps m v
  | .migrating _ _ _ todo => todo.length + 6 + migrationSteps m (v + 1)
  | .inserted _ _ => 5 + migrationSteps m (v + 1)
  | .checkingTable => 3
  | .checkingVersion => 2
  | .preparing => 1
  | .handedOut => 0

/-- The indexer works on the next version, with statements that are accepted. -/
def Runner.Fresh (v : Nat) : Runner → Prop
  | .looping current => current.asI64 = v
  | .migrating current _ _ todo => current.asI64 = v ∧ ∀ st ∈ todo, st.accepted = true
  | _ => True

/-- Indexer `i` is on its way, and no other one holds a version it has not committed. -/
structure Starting (P : List AccountInfo → Prop) (i : Nat) (s : Cluster) : Prop where
  inv : Inv s.db.versions.length s
  fed : Fed P s
  alone : ∀ j new work, s.runner j = .inserted new work → j = i
  fresh : (s.runner i).Fresh s.db.versions.length

theorem Starting.goesOn (h : Starting P i s) (hstep : MigrationStep s i s')
    (hothers : ∀ j, j ≠ i → s'.runner j = s.runner j)
    (hfresh : (s'.runner i).Fresh s'.db.versions.length)
    (hfed : ∀ new done todo, s'.runner i = .migrating .initialSchema new done todo →
      Snapshot P (done ++ todo)) : Starting P i s' where
  inv := by
    obtain ⟨v, -, hv⟩ := h.inv.step hstep
    rw [versions_length hv]
    exact hv
  fed j new done todo hj := by
    by_cases hji : j = i
    · subst hji
      exact hfed new done todo hj
    · rw [hothers j hji] at hj
      exact h.fed j new done todo hj
  alone j new work hj := by
    by_contra hji
    rw [hothers j hji] at hj
    exact hji (h.alone j new work hj)
  fresh := hfresh

/-- A step that writes nothing. -/
theorem Starting.moves (h : Starting P i s) (hstep : MigrationStep s i (s.set i r))
    (hfresh : r.Fresh s.db.versions.length)
    (hfed : ∀ new done todo, r = .migrating .initialSchema new done todo →
      Snapshot P (done ++ todo)) : Starting P i (s.set i r) := by
  refine h.goesOn hstep (fun j hj => s.set_runner_ne r hj) ?_ ?_
  · rw [s.set_runner_self]
    exact hfresh
  · rw [s.set_runner_self]
    exact hfed

/-- The migration from version `v`, with statements that are accepted. -/
theorem exists_body {infos : List AccountInfo} {issued : List M0002.InsertStatement} (hP : P infos)
    (hrun : M0002.run infos = .ok issued) (hacc : ∀ st ∈ issued, st.accepted = true)
    {current : SchemaVersion} {v : Nat} (hv : current.asI64 = v) (hlt : v < 3) :
    ∃ new body, current.next = some new ∧ Body current body ∧ (∀ st ∈ body, st.accepted = true) ∧
      (current = .initialSchema → Snapshot P body) ∧
      body.length + 3 + migrationSteps issued.length (v + 1) = migrationSteps issued.length v := by
  cases current with
  | empty =>
    obtain rfl : v = 0 := by
      have hv : (0 : Int) = v := hv
      omega
    refine ⟨_, _, rfl, .initialSchema, by simp [Statement.accepted], nofun, ?_⟩
    unfold migrationSteps
    simp only [List.length_singleton]
    omega
  | initialSchema =>
    obtain rfl : v = 1 := by
      have hv : (1 : Int) = v := hv
      omega
    refine ⟨_, _, rfl, .keyBindings hrun, ?_, fun _ => ⟨infos, issued, hP, hrun, rfl⟩, ?_⟩
    · intro st hst
      rcases List.mem_cons.mp hst with rfl | hst
      · rfl
      · obtain ⟨insert, hinsert, rfl⟩ := List.mem_map.mp hst
        exact hacc insert hinsert
    · unfold migrationSteps
      simp only [List.length_cons, List.length_map]
      omega
  | accountsPublicKeyBindings =>
    obtain rfl : v = 2 := by
      have hv : (2 : Int) = v := hv
      omega
    exact ⟨_, _, rfl, .queryIndexes, by simp [Statement.accepted], nofun, rfl⟩
  | optimizeAffectedAccountQueries =>
    have hv : (3 : Int) = v := hv
    omega

/-- Some step of the indexer leads on. -/
theorem Starting.step {infos : List AccountInfo} {issued : List M0002.InsertStatement} (hP : P infos)
    (hrun : M0002.run infos = .ok issued) (hacc : ∀ st ∈ issued, st.accepted = true)
    (h : Starting P i s) : s.runner i = .handedOut ∨ ∃ s', MigrationStep s i s' ∧ Starting P i s' ∧
      (s'.runner i).distance issued.length s'.db.versions.length <
        (s.runner i).distance issued.length s.db.versions.length := by
  have hok := h.inv.runners i
  have hfresh := h.fresh
  have hfed := h.fed i
  have hlatest : SchemaVersion.latest.asI64 = 3 := rfl
  -- a step that writes nothing, towards the connection
  have hmoves : ∀ r : Runner, MigrationStep s i (s.set i r) → r.Fresh s.db.versions.length →
      (∀ new done todo, r = .migrating .initialSchema new done todo → Snapshot P (done ++ todo)) →
      r.distance issued.length s.db.versions.length <
        (s.runner i).distance issued.length s.db.versions.length →
      ∃ s', MigrationStep s i s' ∧ Starting P i s' ∧
        (s'.runner i).distance issued.length s'.db.versions.length <
          (s.runner i).distance issued.length s.db.versions.length := by
    intro r hstep hr hbody hlt
    refine ⟨_, hstep, h.moves hstep hr hbody, ?_⟩
    rw [s.set_runner_self]
    exact hlt
  cases hi : s.runner i with
  | stopped =>
    rw [hi] at hmoves
    exact Or.inr (hmoves .connected (.connect hi) trivial (by simp) (by simp [Runner.distance]))
  | connected =>
    have hstep := MigrationStep.ensureTable hi
    have hversions : s.db.ensureMigrationsTable.versions = s.db.versions :=
      h.inv.migrated.ensureTable.versions.trans h.inv.migrated.versions.symm
    refine Or.inr ⟨_, hstep, h.goesOn hstep (fun j hj => s.set_runner_ne _ hj) ?_ ?_, ?_⟩
    · show ((s.set i .reading).runner i).Fresh _
      rw [s.set_runner_self]
      trivial
    · intro new done todo hr
      have hr : (s.set i .reading).runner i = _ := hr
      rw [s.set_runner_self] at hr
      cases hr
    · show ((s.set i .reading).runner i).distance _ s.db.ensureMigrationsTable.versions.length < _
      rw [s.set_runner_self, hversions]
      simp [Runner.distance]
  | reading =>
    rw [hi] at hok hmoves
    obtain ⟨c, hc⟩ := h.inv.migrated.exists_version
    have hread := h.inv.migrated.currentSchemaVersion hok hc
    exact Or.inr (hmoves (.looping c) (.read hi hread) hc (by simp) (by simp [Runner.distance]))
  | looping current =>
    rw [hi] at hfresh hok hmoves
    have hfresh : current.asI64 = s.db.versions.length := hfresh
    by_cases hlt : s.db.versions.length < 3
    · obtain ⟨new, body, hnext, hbody, haccepted, hsnapshot, hsteps⟩ :=
        exists_body hP hrun hacc hfresh hlt
      refine Or.inr (hmoves (.migrating current new [] body) (.begin hi (by omega) hnext hbody)
        ⟨hfresh, haccepted⟩ ?_ ?_)
      · rintro new' done todo hr
        cases hr
        exact hsnapshot rfl
      · simp only [Runner.distance]
        omega
    · refine Or.inr (hmoves .checkingTable (.latest hi (by omega)) trivial (by simp) ?_)
      simp only [Runner.distance]
      omega
  | migrating current new done todo =>
    rw [hi] at hfresh hok hmoves
    obtain ⟨hv, haccepted⟩ := hfresh
    obtain ⟨-, hnext, -, -⟩ := hok
    cases todo with
    | cons st todo =>
      refine Or.inr (hmoves (.migrating current new (done ++ [st]) todo)
        (.execute hi (haccepted st List.mem_cons_self))
        ⟨hv, fun x hx => haccepted x (List.mem_cons_of_mem _ hx)⟩ ?_ ?_)
      · rintro new' done' todo' hr
        cases hr
        rw [List.append_assoc]
        exact hfed _ _ _ hi
      · simp only [Runner.distance, List.length_cons]
        omega
    | nil =>
      have hnew : new.asI64 ∉ s.db.versions := by
        have hsucc := SchemaVersion.asI64_next hnext
        rw [h.inv.migrated.versions, mem_versionsUpTo]
        omega
      have hfree : ∀ j work, s.runner j ≠ .inserted new work := by
        intro j work hj
        obtain rfl := h.alone j new work hj
        rw [hi] at hj
        cases hj
      refine Or.inr (hmoves (.inserted new done) (.insertVersion hi hnew hfree) trivial (by simp) ?_)
      simp only [Runner.distance, List.length_nil]
      omega
  | inserted new work =>
    rw [hi] at hok
    have hstep := MigrationStep.commit hi
    have hversions : (s.db.commit new work).versions.length = s.db.versions.length + 1 := by
      unfold Database.versions Database.commit
      simp
    refine Or.inr ⟨_, hstep, h.goesOn hstep (fun j hj => s.set_runner_ne _ hj) ?_ ?_, ?_⟩
    · show ((s.set i (.looping new)).runner i).Fresh (s.db.commit new work).versions.length
      rw [s.set_runner_self, hversions]
      exact hok.1
    · intro new' done todo hr
      have hr : (s.set i (.looping new)).runner i = _ := hr
      rw [s.set_runner_self] at hr
      cases hr
    · show ((s.set i (.looping new)).runner i).distance _ (s.db.commit new work).versions.length < _
      rw [s.set_runner_self, hversions]
      simp [Runner.distance]
  | checkingTable =>
    rw [hi] at hok hmoves
    have htable : s.db.hasMigrationTable = true := by
      have hv : s.db.versions.length = 3 := hok
      unfold Database.versions at hv
      unfold Database.hasMigrationTable
      cases hm : s.db.migrations with
      | none => rw [hm] at hv; simp at hv
      | some rows => rfl
    exact Or.inr (hmoves .checkingVersion (.hasTable hi htable) trivial (by simp)
      (by simp [Runner.distance]))
  | checkingVersion =>
    rw [hi] at hok hmoves
    have hread := h.inv.migrated.currentSchemaVersion hok.2 (c := SchemaVersion.latest)
      (by rw [hok.1]; rfl)
    exact Or.inr (hmoves .preparing (.ensureLatest hi hread) trivial (by simp)
      (by simp [Runner.distance]))
  | preparing =>
    rw [hi] at hmoves
    exact Or.inr (hmoves .handedOut (.handOut hi) trivial (by simp) (by simp [Runner.distance]))
  | handedOut => exact Or.inl rfl

/-! ## From anywhere -/

theorem Runner.distance_stopped (m v : Nat) : Runner.stopped.distance m v ≤ 19 + m := by
  have hsteps : migrationSteps m v ≤ 12 + m := by
    unfold migrationSteps
    split <;> omega
  simp only [Runner.distance]
  omega

/-- An indexer that has inserted a version commits it. -/
theorem nobody_holds (hs : Reachable (migrationsOver P) s) : ∃ s', Within (migrationsOver P) 1 s s' ∧
    ∀ j new work, s'.runner j ≠ .inserted new work := by
  obtain ⟨hinv, hfed⟩ := inv_of_reachable hs
  by_cases h : ∃ i new work, s.runner i = .inserted new work
  · obtain ⟨i, new, work, hi⟩ := h
    have hfed' : Fed P (s.set i (.looping new)) := hfed.set nofun
    refine ⟨_, .step (n := 0) ⟨.commit hi, hfed'⟩ .refl, fun j new' work' hj => ?_⟩
    have hj : (s.set i (.looping new)).runner j = _ := hj
    by_cases hji : j = i
    · subst hji
      rw [s.set_runner_self] at hj
      cases hj
    · rw [s.set_runner_ne _ hji] at hj
      exact hji (hinv.alone j i _ _ _ _ hj hi)
  · exact ⟨s, .refl, fun j new work hj => h ⟨j, new, work, hj⟩⟩

/-- If for some account infos every statement of `m0002` is accepted, an indexer can get its
connection from every state that the indexers reach together. -/
theorem reaches_connection {infos : List AccountInfo} {issued : List M0002.InsertStatement}
    (hP : P infos) (hrun : M0002.run infos = .ok issued) (hacc : ∀ st ∈ issued, st.accepted = true)
    (hs : Reachable (migrationsOver P) s) (i : Nat) :
    ∃ s', Within (migrationsOver P) (21 + issued.length) s s' ∧ s'.runner i = .handedOut := by
  obtain ⟨s₁, hcommit, hnobody⟩ := nobody_holds hs
  obtain ⟨hinv, hfed⟩ := inv_of_reachable (hcommit.reachable hs)
  -- the indexer starts anew
  have hfed' : Fed P (s₁.set i .stopped) := hfed.set nofun
  have hstop : Within (migrationsOver P) 1 s₁ (s₁.set i .stopped) :=
    .step (n := 0) ⟨.stop, hfed'⟩ .refl
  have hstarting : Starting P i (s₁.set i .stopped) := by
    refine ⟨hinv.set trivial nofun, hfed', fun j new work hj => ?_, ?_⟩
    · by_contra hji
      rw [s₁.set_runner_ne _ hji] at hj
      exact hnobody j new work hj
    · rw [s₁.set_runner_self]
      trivial
  obtain ⟨s', hwithin, -, hgoal⟩ := exists_within (S := migrationsOver P) (I := Starting P i)
    (G := fun s => s.runner i = .handedOut)
    (fun s => (s.runner i).distance issued.length s.db.versions.length) (fun s h => by
      rcases h.step hP hrun hacc with hdone | ⟨s', hstep, h', hlt⟩
      · exact Or.inl hdone
      · exact Or.inr ⟨i, s', ⟨hstep, h'.fed⟩, h', hlt⟩) hstarting
  refine ⟨s', ((hcommit.trans hstop).trans hwithin).mono ?_, hgoal⟩
  have := Runner.distance_stopped issued.length (s₁.set i .stopped).db.versions.length
  rw [s₁.set_runner_self]
  omega

end

/-! ## When it never does -/

section
variable {P : List AccountInfo → Prop} {s s' : Cluster} {i : Nat} {r : Runner}

/-- What an indexer has executed was accepted. -/
def Runner.Took (P : List AccountInfo → Prop) : Runner → Prop
  | .migrating current _ done _ => current = .initialSchema → ∀ st ∈ done, st.accepted = true
  | .inserted new _ => new = .accountsPublicKeyBindings → Acceptable P
  | _ => True

theorem Snapshot.acceptable {body : List Statement} (h : Snapshot P body)
    (hacc : ∀ st ∈ body, st.accepted = true) : Acceptable P := by
  obtain ⟨infos, issued, hP, hrun, rfl⟩ := h
  exact ⟨infos, issued, hP, hrun, fun st hst =>
    hacc _ (List.mem_cons_of_mem _ (List.mem_map_of_mem hst))⟩

theorem took_set (h : ∀ i, (s.runner i).Took P) (hr : r.Took P) (j : Nat) :
    ((s.set i r).runner j).Took P := by
  by_cases hji : j = i
  · subst hji
    rw [s.set_runner_self]
    exact hr
  · rw [s.set_runner_ne r hji]
    exact h j

theorem SchemaVersion.asI64_inj {c c' : SchemaVersion} (h : c.asI64 = c'.asI64) : c = c' := by
  have hsame := congrArg fromVersion h
  rw [fromVersion_asI64, fromVersion_asI64] at hsame
  exact Option.some.inj hsame

/-- Version 2 is recorded only after the statements of a snapshot. -/
theorem took_step (hinv : Inv s.db.versions.length s) (hfed : Fed P s)
    (htook : ∀ i, (s.runner i).Took P) (hrecorded : 2 ≤ s.db.versions.length → Acceptable P)
    (hstep : MigrationStep s i s') :
    (∀ i, (s'.runner i).Took P) ∧ (2 ≤ s'.db.versions.length → Acceptable P) := by
  -- a commit records the version that was inserted
  have hcommit : ∀ new work, s.runner i = .inserted new work →
      2 ≤ (s.db.commit new work).versions.length → Acceptable P := by
    intro new work hi hle
    have hok := hinv.runners i
    have htaken := htook i
    rw [hi] at hok htaken
    have hversions : (s.db.commit new work).versions.length = s.db.versions.length + 1 := by
      unfold Database.versions Database.commit
      simp
    by_cases h2 : 2 ≤ s.db.versions.length
    · exact hrecorded h2
    · have hnew : new.asI64 = 2 := by
        have := hok.1
        omega
      exact htaken (SchemaVersion.asI64_inj hnew)
  cases hstep with
  | ensureTable hi =>
    have hversions : s.db.ensureMigrationsTable.versions = s.db.versions :=
      hinv.migrated.ensureTable.versions.trans hinv.migrated.versions.symm
    refine ⟨took_set htook trivial, fun hle => hrecorded ?_⟩
    have hle : 2 ≤ s.db.ensureMigrationsTable.versions.length := hle
    rwa [hversions] at hle
  | begin hi hlt hnext hbody => exact ⟨took_set htook (fun _ st hst => by cases hst), hrecorded⟩
  | @execute current new done todo st hi hacc =>
    have hdone := htook i
    rw [hi] at hdone
    refine ⟨took_set htook fun hc x hx => ?_, hrecorded⟩
    rcases List.mem_append.mp hx with hx | hx
    · exact hdone hc x hx
    · rw [List.mem_singleton.mp hx]
      exact hacc
  | @insertVersion current new done hi hfree hopen =>
    refine ⟨took_set htook ?_, hrecorded⟩
    rintro rfl
    have hok := hinv.runners i
    have hdone := htook i
    rw [hi] at hok hdone
    obtain rfl : current = .initialSchema := by
      have hnext := hok.2.1
      cases current with
      | initialSchema => rfl
      | empty | accountsPublicKeyBindings | optimizeAffectedAccountQueries => cases hnext
    have hsnapshot := hfed i _ _ _ hi
    rw [List.append_nil] at hsnapshot
    exact hsnapshot.acceptable (hdone rfl)
  | commit hi => exact ⟨took_set htook trivial, hcommit _ _ hi⟩
  | commitUnanswered hi => exact ⟨took_set htook trivial, hcommit _ _ hi⟩
  | connect _ | read _ _ | latest _ _ | hasTable _ _ | ensureLatest _ _ | handOut _ | stop =>
    exact ⟨took_set htook trivial, hrecorded⟩

theorem acceptable_of_recorded (hs : Reachable (migrationsOver P) s) :
    2 ≤ s.db.versions.length → Acceptable P := by
  have htook : (∀ i, (s.runner i).Took P) ∧ (2 ≤ s.db.versions.length → Acceptable P) := by
    induction hs with
    | init hinit =>
      obtain ⟨hdb, hrunner⟩ := hinit
      refine ⟨fun i => by rw [hrunner i]; trivial, fun h => ?_⟩
      rw [hdb] at h
      simp [Database.versions] at h
    | @step s s' i hreached hstep ih =>
      obtain ⟨hinv, hfed⟩ := inv_of_reachable hreached
      exact took_step hinv hfed ih.1 ih.2 hstep.1
  exact htook.2

theorem acceptable_of_connected (hs : Reachable (migrationsOver P) s) (hi : s.runner i = .handedOut) :
    Acceptable P := by
  have hok := (inv_of_reachable hs).1.runners i
  rw [hi] at hok
  have hok : s.db.versions.length = 3 := hok
  exact acceptable_of_recorded hs (by omega)

end

/-! ## Accounts with many keys -/

section
variable {accounts : List (AccountAddress × AccountAccessStructure)}

/-- The account queries of a node complete in any order. -/
def Completing (accounts : List (AccountAddress × AccountAccessStructure)) (infos : List AccountInfo) :
    Prop :=
  ∃ l : List (AccountAddress × AccountAccessStructure), l.Perm accounts ∧
    infos = l.map AccountInfo.ofKnown

/-- Accounts that fill a batch each leave nothing behind. -/
theorem M0002.leftover_full {keys : List Nat} (h : ∀ k ∈ keys, batchSize ≤ k) : leftover keys = 0 := by
  induction keys using List.reverseRecOn with
  | nil => rfl
  | append_singleton keys k ih =>
    rw [leftover_concat, if_pos]
    have := h k (by simp)
    omega

/-- The account fills a batch. -/
def fillsBatch (a : AccountAddress × AccountAccessStructure) : Bool := M0002.batchSize ≤ a.2.numKeys

/-- The accounts that fill a batch come first. -/
def fullFirst (accounts : List (AccountAddress × AccountAccessStructure)) :
    List (AccountAddress × AccountAccessStructure) :=
  accounts.filter fillsBatch ++ accounts.filter fun a => !fillsBatch a

theorem full_before {done : List Nat} {k : Nat}
    (h : done ++ [k] <+: M0002.keyCounts (fullFirst accounts)) (hk : M0002.batchSize ≤ k) :
    ∀ x ∈ done, M0002.batchSize ≤ x := by
  have hsplit : M0002.keyCounts (fullFirst accounts) = M0002.keyCounts (accounts.filter fillsBatch) ++
      M0002.keyCounts (accounts.filter fun a => !fillsBatch a) := List.map_append
  have hfull : ∀ x ∈ M0002.keyCounts (accounts.filter fillsBatch), M0002.batchSize ≤ x := by
    intro x hx
    obtain ⟨a, ha, rfl⟩ := List.mem_map.mp hx
    have hfills : fillsBatch a = true := List.of_mem_filter ha
    exact of_decide_eq_true hfills
  rw [hsplit] at h
  rcases List.prefix_or_prefix_of_prefix h (List.prefix_append _ _) with hin | hout
  · intro x hx
    exact hfull x (hin.subset (List.mem_append_left _ hx))
  · -- the first part lies before `k`, which then does not fill a batch
    rcases List.prefix_concat_iff.mp hout with heq | hdone
    · intro x hx
      exact hfull x (by rw [heq]; exact List.mem_append_left _ hx)
    · obtain ⟨done', rfl⟩ := hdone
      rw [List.append_assoc, List.prefix_append_right_inj] at h
      obtain ⟨a, ha, rfl⟩ := List.mem_map.mp (h.subset (by simp : k ∈ done' ++ [k]))
      have hnot := List.of_mem_filter ha
      unfold fillsBatch at hnot
      simp at hnot
      omega

/-- When no account is too large, the statements of this order are accepted. -/
theorem fullFirst_accepted (h : ∀ a ∈ accounts, a.2.numKeys ≤ 13107) :
    ∀ st ∈ (M0002.batches (fullFirst accounts)).finish, st.accepted = true := by
  have hperm : (fullFirst accounts).Perm accounts := List.filter_append_perm fillsBatch accounts
  intro st hst
  have hfits : ∀ s ∈ (M0002.batches (fullFirst accounts)).finish, s.params.length ≤ 65535 := by
    rw [M0002.finish_fits_iff, M0002.batches_fit_iff]
    intro done k hdone
    have hk : k ∈ M0002.keyCounts (fullFirst accounts) := hdone.subset (by simp)
    obtain ⟨a, ha, rfl⟩ := List.mem_map.mp hk
    have hle := h a (hperm.subset ha)
    have hleft := M0002.leftover_lt done
    by_cases hfull : M0002.batchSize ≤ a.2.numKeys
    · rw [M0002.leftover_full fun k hk => full_before hdone hfull k hk]
      omega
    · unfold M0002.batchSize at *
      omega
  exact decide_eq_true (hfits st hst)

theorem not_acceptable_completing {a : AccountAddress × AccountAccessStructure} (ha : a ∈ accounts)
    (hlarge : 13107 < a.2.numKeys) : ¬Acceptable (Completing accounts) := by
  rintro ⟨infos, issued, ⟨l, hperm, rfl⟩, hrun, hacc⟩
  rw [M0002.run_known l] at hrun
  obtain rfl := Except.ok.inj hrun
  have hfits : ∀ s ∈ (M0002.batches l).finish, s.params.length ≤ 65535 := fun s hs =>
    of_decide_eq_true (hacc s hs)
  rw [M0002.finish_fits_iff, M0002.batches_fit_iff] at hfits
  have hmem : a.2.numKeys ∈ M0002.keyCounts l := List.mem_map_of_mem (hperm.symm.subset ha)
  obtain ⟨done, rest, hsplit⟩ := List.append_of_mem hmem
  have := hfits done a.2.numKeys ⟨rest, by rw [hsplit]; simp⟩
  omega

theorem length_finish (accounts : List (AccountAddress × AccountAccessStructure)) :
    (M0002.batches accounts).finish.length ≤ accounts.length + 1 := by
  have hflush : ∀ b : M0002.Batches, b.flush.issued.length ≤ b.issued.length + 1 := by
    intro b
    unfold M0002.Batches.flush
    cases M0002.bulkInsertPendingRows b.pendingRows <;> simp
  have hissued : (M0002.batches accounts).issued.length ≤ accounts.length := by
    induction accounts using List.reverseRecOn with
    | nil => exact Nat.le_refl 0
    | append_singleton accounts a ih =>
      rw [M0002.batches_concat, List.length_append, List.length_singleton]
      unfold M0002.Batches.push
      dsimp only
      split
      · exact Nat.le_trans (hflush _) (Nat.succ_le_succ ih)
      · exact Nat.le_succ_of_le ih
  unfold M0002.Batches.finish
  split
  · exact Nat.le_trans (hflush _) (Nat.succ_le_succ hissued)
  · exact Nat.le_succ_of_le hissued

end

end WalletProxyIndexer
