import WalletProxyIndexer.Feed
import WalletProxyIndexer.Progress

/-!
# Blocks in flight, and stopping

Blocks are in flight between `sender.send` and the answer to their commit
(`Process.pipeline`).  The channel bounds them (`pipeline_le`).

    stop_within_reach    a process that was asked to stop is at most three steps of its tasks
                         away from having stopped, and none of these commits anything
    drained_in_order     what is committed after the loop over the nodes has ended is a
                         beginning of what was in flight then

The first needs that the node loop is never left waiting for a start height that nobody
will send (`Process.Settled`).
-/

namespace WalletProxyIndexer

open Transition

section
variable {D DB NH : Type} {setup : Setup D DB NH}

/-! ## The bound -/

theorem queue_le {s : Service D DB NH} (h : Reachable setup.service s) {p : Process D NH}
    (hp : s.process = some p) : p.queue.length ≤ channelCapacity := by
  refine h.invariant (I := fun s => ∀ p, s.process = some p → p.queue.length ≤ channelCapacity)
    ?_ ?_ p hp
  · rintro s ⟨-, hnone⟩ p hp
    rw [hnone] at hp
    cases hp
  · rintro s l s' ih hstep p hp
    cases hstep with
    | start => obtain rfl := Option.some.inj hp; exact Nat.zero_le _
    | crash => cases hp
    | @signal db p₀ => obtain rfl := Option.some.inj hp; exact ih p₀ rfl
    | @node db p₀ p' hnode =>
      obtain rfl := Option.some.inj hp
      have hle := ih p₀ rfl
      cases hnode with
      | sent _ _ hroom => rw [List.length_append, List.length_singleton]; exact hroom
      | _ => exact hle
    | @database db db' p₀ p' l hd =>
      obtain rfl := Option.some.inj hp
      have hle := ih p₀ rfl
      cases hd with
      | received _ hq => rw [hq, List.length_cons] at hle; exact Nat.le_of_succ_le hle
      | _ => exact hle

theorem DatabaseTask.length_held_le (d : DatabaseTask D) : d.held.length ≤ 1 := by
  cases d <;> simp [held]

theorem pipeline_le {s : Service D DB NH} (h : Reachable setup.service s) {p : Process D NH}
    (hp : s.process = some p) : p.pipeline.length ≤ 101 := by
  have hqueue := queue_le h hp
  have hheld := p.database.length_held_le
  unfold Process.pipeline
  rw [List.length_append]
  unfold channelCapacity at hqueue
  omega

/-! ## A start height is sent, or dropped -/

/-- Past its early phases, the database task has sent the start height or dropped the sender. -/
def Process.Settled (p : Process D NH) : Prop := p.database.early = false → p.startHeight ≠ .pending

theorem StartHeight.drop_ne (sh : StartHeight) : sh.drop ≠ .pending := by
  cases sh <;> simp [drop]

theorem Process.Settled.database {p p' : Process D NH} {db db' : DB} {l : Action D}
    (h : p.Settled) (hstep : DatabaseStep setup db p l db' p') : p'.Settled := by
  cases hstep with
  | connected _ => intro he; cases he
  | connectFailed _ _ => intro he; cases he
  | heightRead _ _ => exact fun _ hs => by cases hs
  | connectGaveUp _ _ _
  | heightNotSent _ _
  | heightNotRead _ _
  | shutdownConnecting _ _
  | shutdown _ _ _ _
  | aborted _ _ => exact fun _ => p.startHeight.drop_ne
  | received hd _
  | channelClosed hd _ _
  | inserted hd _
  | insertedUnanswered hd _
  | unknownData hd _
  | connectionLost hd _
  | reconnected hd
  | reconnectFailed hd _
  | reconnectGaveUp _ hd _ => exact fun _ => h (by rw [hd]; rfl)

theorem settled_of_reachable {s : Service D DB NH} (h : Reachable setup.service s)
    {p : Process D NH} (hp : s.process = some p) : p.Settled := by
  refine h.invariant (I := fun s => ∀ p, s.process = some p → p.Settled) ?_ ?_ p hp
  · rintro s ⟨-, hnone⟩ p hp
    rw [hnone] at hp
    cases hp
  · rintro s l s' ih hstep p hp
    cases hstep with
    | start => obtain rfl := Option.some.inj hp; intro he; cases he
    | crash => cases hp
    | @signal db p₀ => obtain rfl := Option.some.inj hp; exact ih p₀ rfl
    | @node db p₀ p' hnode =>
      obtain rfl := Option.some.inj hp
      have hsettled := ih p₀ rfl
      cases hnode <;> exact hsettled
    | database hd => obtain rfl := Option.some.inj hp; exact (ih _ rfl).database hd

/-! ## Stopping -/

/-- `run_service` has returned, and its database task is over. -/
def Process.Stopped (p : Process D NH) : Prop :=
  p.database.finished = true ∧ ∃ result, p.node = .returned result

/-- A step of a task that commits nothing. -/
def Quiet (_ : Service D DB NH) (l : Action D) : Prop := l = .node ∨ l = .database

variable {db db' : DB} {p p' : Process D NH}

/-- The database task of a process that was asked to stop ends, if it has not. -/
theorem database_stops (setup : Setup D DB NH) (db : DB) (hs : p.shutdown = true)
    (hsettled : p.Settled) : ∃ d sh,
    Within (setup.service.restrict Quiet) 1 ⟨db, some p⟩
      ⟨db, some { p with startHeight := sh, database := d }⟩ ∧
    d.finished = true ∧ sh ≠ .pending := by
  cases hf : p.database.finished with
  | true => exact ⟨p.database, p.startHeight, .refl, hf, hsettled (DatabaseTask.early_of_finished hf)⟩
  | false =>
    have hdrop := p.startHeight.drop_ne
    by_cases hc : ∃ i, p.database = .connecting i
    · obtain ⟨i, hi⟩ := hc
      exact ⟨_, _, .step ⟨Or.inr rfl, .database (.shutdownConnecting hi hs)⟩ .refl, rfl, hdrop⟩
    · have hne : ∀ i, p.database ≠ .connecting i := fun i hi => hc ⟨i, hi⟩
      exact ⟨_, _, .step ⟨Or.inr rfl, .database (.shutdown (.ok ()) hf hne hs)⟩ .refl, rfl, hdrop⟩

/-- The loop over the nodes returns, once a start height was sent or dropped. -/
theorem node_stops (setup : Setup D DB NH) (db : DB) (hs : p.shutdown = true)
    (hsent : p.startHeight ≠ .pending) : ∃ result,
    Within (setup.service.restrict Quiet) 2 ⟨db, some p⟩
      ⟨db, some { p with node := .returned result }⟩ := by
  have hreturn : ∀ {q : Process D NH} {r : Rotation} {a : Attempt D}, q.node = .loop r a →
      q.shutdown = true → Within (setup.service.restrict Quiet) 1 ⟨db, some q⟩
        ⟨db, some { q with node := .returned (.ok ()) }⟩ :=
    fun hn hq => .step ⟨Or.inl rfl, .node (.shutdown hn hq)⟩ .refl
  have hsent : p.startHeight = .dropped ∨ ∃ h, p.startHeight = .sent h := by
    cases hsh : p.startHeight with
    | pending => exact absurd hsh hsent
    | dropped => exact Or.inl rfl
    | sent h => exact Or.inr ⟨h, rfl⟩
  cases hn : p.node with
  | returned result =>
    refine ⟨result, ?_⟩
    rw [← hn]
    exact .refl
  | loop r a => exact ⟨_, (hreturn hn hs).mono (by omega)⟩
  | awaitHeight =>
    rcases hsent with hsh | ⟨h, hsh⟩
    · exact ⟨_, .step ⟨Or.inl rfl, .node (.heightDropped hn hsh)⟩ .refl⟩
    · have hreceived : Within (setup.service.restrict Quiet) 1 ⟨db, some p⟩
          ⟨db, some { p with node := .loop (.start h) .head }⟩ :=
        .step ⟨Or.inl rfl, .node (.heightReceived hn hsh)⟩ .refl
      exact ⟨_, hreceived.trans (hreturn rfl hs)⟩

/-- From every reachable state of the service, with any hooks: a process that was asked to stop is
at most three steps away from having stopped, with the database as it is. -/
theorem stop_within_reach {s : Service D DB NH} (h : Reachable setup.service s)
    (hp : s.process = some p) (hs : p.shutdown = true) : ∃ p',
    Within (setup.service.restrict Quiet) 3 s ⟨s.db, some p'⟩ ∧ p'.Stopped := by
  obtain ⟨d, sh, hdatabase, hfinished, hsent⟩ :=
    database_stops setup s.db hs (settled_of_reachable h hp)
  obtain ⟨result, hnode⟩ := node_stops setup s.db
    (p := { p with startHeight := sh, database := d }) hs hsent
  have hstart : s = ⟨s.db, some p⟩ := by rw [← hp]
  rw [hstart]
  exact ⟨_, hdatabase.trans hnode, hfinished, result, rfl⟩

/-! ## What is committed after the loop has ended -/

def Action.committed : Action D → Option D
  | .commit data => some data
  | _ => none

/-- The blocks whose commits are answered in the `n` steps from moment `i` on. -/
def committed (e : Execution setup.service) (i : Nat) : Nat → List D
  | 0 => []
  | n + 1 => committed e i n ++ ((e.label (i + n)).bind Action.committed).toList

/-- A step of the database task takes what it commits off the blocks in flight, or ends the task. -/
theorem DatabaseStep.pipeline {l : Action D} (h : DatabaseStep setup db p l db' p') :
    (p'.database.finished = true ∧ l.committed = none) ∨
    p.pipeline = l.committed.toList ++ p'.pipeline := by
  cases h with
  | connected hd
  | connectFailed hd _
  | heightRead hd _
  | inserted hd _
  | insertedUnanswered hd _
  | connectionLost hd _
  | reconnected hd
  | reconnectFailed hd _ =>
    refine Or.inr ?_
    unfold Process.pipeline
    rw [hd]
    rfl
  | received hd hq =>
    refine Or.inr ?_
    unfold Process.pipeline
    rw [hd, hq]
    rfl
  | _ => exact Or.inl ⟨rfl, rfl⟩

/-- The loop of a process has ended with `pipeline` in flight, of which `done` was committed. -/
structure Draining (result : Except AnyhowError Unit) (pipeline done : List D) (p : Process D NH) :
    Prop where
  returned : p.node = .returned result
  committed : done <+: pipeline
  left : p.database.finished = false → pipeline = done ++ p.pipeline

theorem Draining.database {result : Except AnyhowError Unit} {pipeline done : List D} {l : Action D}
    (h : Draining result pipeline done p) (hstep : DatabaseStep setup db p l db' p') :
    Draining result pipeline (done ++ l.committed.toList) p' := by
  have hnode : p'.node = .returned result := by
    rw [← h.returned]
    cases hstep <;> rfl
  rcases hstep.pipeline with ⟨hf, hnone⟩ | hpipe
  · rw [hnone]
    refine ⟨hnode, ?_, fun hrun => ?_⟩
    · rw [Option.toList_none, List.append_nil]
      exact h.committed
    · rw [hf] at hrun; cases hrun
  · have hleft : pipeline = (done ++ l.committed.toList) ++ p'.pipeline := by
      rw [h.left hstep.unfinished, hpipe, List.append_assoc]
    exact ⟨hnode, ⟨p'.pipeline, hleft.symm⟩, fun _ => hleft⟩

/-- Nothing is committed, and the process goes on with what it has. -/
theorem Draining.same {result : Except AnyhowError Unit} {pipeline done : List D}
    (h : Draining result pipeline done p) {l : Option D} (hl : l = none)
    (hp : p'.node = p.node ∧ p'.database = p.database ∧ p'.queue = p.queue) :
    Draining result pipeline (done ++ l.toList) p' := by
  obtain ⟨hn, hd, hq⟩ := hp
  rw [hl, Option.toList_none, List.append_nil]
  refine ⟨by rw [hn, h.returned], h.committed, fun hrun => ?_⟩
  rw [h.left (by rw [← hd]; exact hrun)]
  unfold Process.pipeline
  rw [hd, hq]

theorem NodeStep.not_returned (h : NodeStep setup p p') (result : Except AnyhowError Unit) :
    p.node ≠ .returned result := by
  intro hn
  cases h with
  | heightReceived hn' _
  | heightDropped hn' _
  | moved hn' _
  | failed hn' _
  | nodeUsed hn' _
  | nodeNotUsed hn' _
  | collected hn' _
  | notCollected hn' _
  | sent hn' _ _
  | closed hn' _
  | shutdown hn' _ => rw [hn] at hn'; cases hn'

end

/-- One node, chunks of two blocks, and blocks without data. -/
def blankChunks : Setup Unit Unit Unit := { blankSetup with args := ⟨1, 2, 1, Nat.one_pos⟩ }

/-- The process was asked to stop in the middle of a chunk, while it inserts a block. -/
def signalledChunk : Process Unit Unit := { Process.midChunk 0 () () with shutdown := true }

theorem signalledChunk_reachable : Reachable blankChunks.service ⟨(), some signalledChunk⟩ := by
  have huse : blankChunks.nodeHooks.onUseNode () (.ok ()) () := trivial
  have hmid : Reachable blankChunks.service ⟨(), some (.midChunk 0 () ())⟩ :=
    blankChunks.reachable_midChunk trivial rfl (by decide) (Nat.le_refl 2) huse trivial
  exact reachable_step hmid .signal

theorem signalledChunk_stops : ∃ p', Within (blankChunks.service.restrict Quiet) 3
    ⟨(), some signalledChunk⟩ ⟨(), some p'⟩ ∧ p'.Stopped :=
  stop_within_reach signalledChunk_reachable rfl rfl

end WalletProxyIndexer
