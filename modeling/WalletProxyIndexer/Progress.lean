import WalletProxyIndexer.Coordination
import WalletProxyIndexer.Lib.Progress

/-!
# How much the service does per block

Nothing in `run_service` spins: between two commits the tasks make a bounded number of
steps, unless an attempt at a node or a connection fails, or the process is restarted.

    work_is_bounded        n steps are paid for by the commits and the failures among them
    no_work_after_end      a process whose database task has ended does next to nothing

Both read off one potential.  A block that can still be sent is worth the four steps it
takes (`nextChunk`, `chunk`, `send`, and the end of a chunk); what an attempt or the
database task has still to do before that is its `weight`.
-/

namespace WalletProxyIndexer

open Transition

section
variable {D DB NH : Type}

/-! ## Events -/

/-- An attempt at a node ended with an error, or its stream gave nothing. -/
def NodeTask.Fails (n n' : NodeTask D) : Prop :=
  (∃ r a, n = .loop r a ∧ n' = .loop r.cycle .head) ∨
  ∃ r stream hasError stream', n = .loop r (.nextChunk stream) ∧ n' = .loop r (.chunk [] hasError stream')

/-- The database task met an error, and goes on. -/
def DatabaseTask.Fails (d d' : DatabaseTask D) : Prop :=
  (∃ i, d = .connecting i ∧ d' = .connecting (i + 1)) ∨
  (∃ data, d = .inserting data ∧ d' = .reconnecting data 1) ∨
  ∃ data i, d = .reconnecting data i ∧ d' = .reconnecting data (i + 1)

inductive Event where
  | commit
  | failure
  | crash
  | signal
deriving DecidableEq

def Event.Occurs : Event → Service D DB NH → Action D → Service D DB NH → Prop
  | .commit, _, l, _ => ∃ d, l = .commit d ∨ l = .commitUnanswered d
  | .failure, s, _, s' => ∃ p p', s.process = some p ∧ s'.process = some p' ∧
    (p.node.Fails p'.node ∨ p.database.Fails p'.database)
  | .crash, _, l, _ => l = .crash
  | .signal, _, l, _ => l = .signal

/-- The steps an event may make necessary. -/
def Event.cost : Event → Nat
  | .commit => 6
  | .failure => 7
  | .crash => 419
  | .signal => 1

/-! ## The potential -/

def Attempt.weight : Attempt D → Nat
  | .head => 8
  | .pausing => 7
  | .connecting => 6
  | .useNode => 5
  | .openStream => 4
  | .nextChunk _ => 3
  | .chunk [] _ _ => 4
  | .chunk (_ :: _) _ _ => 2
  | .send _ _ _ _ => 1

def DatabaseTask.weight : DatabaseTask D → Nat
  | .connecting _ => 4
  | .readingHeight => 3
  | .receiving => 2
  | .inserting _ => 1
  | .reconnecting _ _ => 2
  | .ended _ => 0
  | .aborted => 0

/-- The database task takes one more block before it commits. -/
def DatabaseTask.takes : DatabaseTask D → Nat
  | .connecting _ => 1
  | .readingHeight => 1
  | .receiving => 1
  | _ => 0

/-- The steps until the loop is about to send, or returns. -/
def NodeTask.weight : NodeTask D → Nat
  | .awaitHeight => 9
  | .loop _ a => a.weight
  | .returned _ => 0

/-- The steps per block that the loop sends. -/
def NodeTask.perBlock : NodeTask D → Nat
  | .returned _ => 0
  | _ => 4

/-- The blocks that can be sent before the next commit. -/
def Process.room (p : Process D NH) : Nat := channelCapacity - p.queue.length + p.database.takes

def Process.potential (p : Process D NH) : Nat :=
  p.node.perBlock * p.room + p.node.weight + p.database.weight

def Service.potential (s : Service D DB NH) : Nat :=
  match s.process with
  | none => 418
  | some p => p.potential

theorem Attempt.weight_le (a : Attempt D) : a.weight ≤ 8 := by
  cases a with
  | chunk blocks hasError stream => cases blocks <;> simp [weight]
  | _ => simp [weight]

theorem Attempt.weight_pos (a : Attempt D) : 0 < a.weight := by
  cases a with
  | chunk blocks hasError stream => cases blocks <;> simp [weight]
  | _ => simp [weight]

theorem Attempt.weight_of_canFail {a : Attempt D} (h : a.canFail = true) : 2 ≤ a.weight := by
  cases a with
  | chunk blocks hasError stream => cases blocks <;> simp [weight]
  | send data blocks hasError stream => cases h
  | _ => simp [weight]

theorem Attempt.weight_chunk (blocks : List AbsoluteBlockHeight) (hasError : Bool)
    (stream : AbsoluteBlockHeight) : (chunk (D := D) blocks hasError stream).weight ≤ 4 := by
  cases blocks <;> simp [weight]

theorem DatabaseTask.weight_of_finished {d : DatabaseTask D} (h : d.finished = true) :
    d.weight = 0 ∧ d.takes = 0 := by
  cases d with
  | ended result => exact ⟨rfl, rfl⟩
  | aborted => exact ⟨rfl, rfl⟩
  | _ => cases h

theorem DatabaseTask.weight_of_unfinished {d : DatabaseTask D} (h : d.finished = false) :
    0 < d.weight := by
  cases d with
  | ended result => cases h
  | aborted => cases h
  | _ => simp [weight]

theorem NodeTask.perBlock_cases (n : NodeTask D) : n.perBlock = 0 ∨ n.perBlock = 4 := by
  cases n <;> simp [perBlock]

theorem NodeTask.weight_le (n : NodeTask D) : n.weight ≤ 9 := by
  cases n with
  | loop r a => exact Nat.le_succ_of_le a.weight_le
  | _ => simp [weight]

theorem Process.potential_le (p : Process D NH) : p.potential ≤ 417 := by
  have htakes : p.database.takes ≤ 1 := by cases p.database <;> simp [DatabaseTask.takes]
  have hweight : p.database.weight ≤ 4 := by cases p.database <;> simp [DatabaseTask.weight]
  have hnode := p.node.weight_le
  have hroom : p.room ≤ 101 := by unfold room channelCapacity; omega
  unfold potential
  rcases p.node.perBlock_cases with h | h <;> rw [h] <;> omega

theorem Service.potential_le (s : Service D DB NH) : s.potential ≤ 418 := by
  unfold potential
  cases s.process with
  | none => exact Nat.le_refl _
  | some p => exact Nat.le_succ_of_le p.potential_le

section
variable {setup : Setup D DB NH} {p p' : Process D NH}

/-- A step of the node loop leads on, or is a failure, or sends a block. -/
theorem NodeStep.weight (h : NodeStep setup p p') :
    p'.database = p.database ∧ p.node.perBlock = 4 ∧
    ((p'.queue = p.queue ∧ p'.node.weight < p.node.weight) ∨
     (p'.queue = p.queue ∧ p.node.Fails p'.node ∧ p'.node.weight ≤ p.node.weight + 6) ∨
     (p.database.finished = false ∧ p.queue.length < channelCapacity ∧
       p'.queue.length = p.queue.length + 1 ∧ p'.node.weight ≤ p.node.weight + 3)) := by
  have hcycle : ∀ {r : Rotation} {a : Attempt D}, p.node = .loop r a → 2 ≤ a.weight →
      p.node.Fails (.loop r.cycle .head) ∧
        (NodeTask.loop (D := D) r.cycle .head).weight ≤ p.node.weight + 6 := by
    intro r a hn ha
    refine ⟨Or.inl ⟨r, a, hn, rfl⟩, ?_⟩
    rw [hn]
    show 8 ≤ a.weight + 6
    omega
  cases h with
  | heightReceived hn _ =>
    rw [hn]
    exact ⟨rfl, rfl, Or.inl ⟨rfl, by simp [NodeTask.weight, Attempt.weight]⟩⟩
  | heightDropped hn _ =>
    rw [hn]
    exact ⟨rfl, rfl, Or.inl ⟨rfl, by simp [NodeTask.weight]⟩⟩
  | @moved r a a' hn hmove =>
    rw [hn]
    refine ⟨rfl, rfl, ?_⟩
    cases hmove with
    | @received stream k hasError hk hlt =>
      cases k with
      | zero =>
        exact Or.inr (Or.inl ⟨rfl, Or.inr ⟨r, _, _, _, rfl, rfl⟩, by
          simp [NodeTask.weight, heightsFrom, Attempt.weight]⟩)
      | succ k => exact Or.inl ⟨rfl, by simp [NodeTask.weight, heightsFrom, Attempt.weight]⟩
    | _ => exact Or.inl ⟨rfl, by simp [NodeTask.weight, Attempt.weight]⟩
  | failed hn hfail =>
    obtain ⟨hfails, hle⟩ := hcycle hn (Attempt.weight_of_canFail hfail)
    exact ⟨rfl, by rw [hn]; rfl, Or.inr (Or.inl ⟨rfl, hfails, hle⟩)⟩
  | nodeUsed hn _ =>
    rw [hn]
    exact ⟨rfl, rfl, Or.inl ⟨rfl, by simp [NodeTask.weight, Attempt.weight]⟩⟩
  | nodeNotUsed hn _ =>
    obtain ⟨hfails, hle⟩ := hcycle hn (by simp [Attempt.weight])
    exact ⟨rfl, by rw [hn]; rfl, Or.inr (Or.inl ⟨rfl, hfails, hle⟩)⟩
  | collected hn _ =>
    rw [hn]
    exact ⟨rfl, rfl, Or.inl ⟨rfl, by simp [NodeTask.weight, Attempt.weight]⟩⟩
  | notCollected hn _ =>
    obtain ⟨hfails, hle⟩ := hcycle hn (by simp [Attempt.weight])
    exact ⟨rfl, by rw [hn]; rfl, Or.inr (Or.inl ⟨rfl, hfails, hle⟩)⟩
  | @sent r stream blocks hasError data hn hopen hroom =>
    have hchunk := Attempt.weight_chunk (D := D) blocks hasError stream
    rw [hn]
    exact ⟨rfl, rfl, Or.inr (Or.inr ⟨hopen, hroom, by simp, hchunk⟩)⟩
  | closed hn _ =>
    rw [hn]
    exact ⟨rfl, rfl, Or.inl ⟨rfl, by simp [NodeTask.weight, Attempt.weight]⟩⟩
  | @shutdown r a hn _ =>
    rw [hn]
    exact ⟨rfl, rfl, Or.inl ⟨rfl, a.weight_pos⟩⟩

/-- A step of the node loop lowers the potential, or is a failure. -/
theorem NodeStep.potential (h : NodeStep setup p p') : p'.potential < p.potential ∨
    (p.node.Fails p'.node ∧ p'.potential ≤ p.potential + 6) := by
  obtain ⟨hdatabase, hper, hcases⟩ := h.weight
  unfold Process.potential Process.room
  rw [hdatabase, hper]
  rcases hcases with ⟨hqueue, hlt⟩ | ⟨hqueue, hfails, hle⟩ | ⟨-, hroom, hqueue, hle⟩
  · rw [hqueue]
    rcases p'.node.perBlock_cases with h' | h' <;> rw [h'] <;> omega
  · rw [hqueue]
    refine Or.inr ⟨hfails, ?_⟩
    rcases p'.node.perBlock_cases with h' | h' <;> rw [h'] <;> omega
  · rw [hqueue]
    left
    rcases p'.node.perBlock_cases with h' | h' <;> rw [h'] <;> omega

/-- A step of the database task leads on, or is a commit, or a failure. -/
theorem DatabaseStep.weight {db db' : DB} {l : Action D} (h : DatabaseStep setup db p l db' p') :
    p'.node = p.node ∧
    ((p'.room ≤ p.room ∧ p'.database.weight < p.database.weight) ∨
     ((∃ d, l = .commit d ∨ l = .commitUnanswered d) ∧ p'.room ≤ p.room + 1 ∧
       p'.database.weight ≤ p.database.weight + 1) ∨
     (p.database.Fails p'.database ∧ p'.room ≤ p.room ∧
       p'.database.weight ≤ p.database.weight + 1)) := by
  have hends : p.database.finished = false → ∀ (sh : StartHeight) (d : DatabaseTask D),
      d.finished = true →
      ({ p with startHeight := sh, database := d } : Process D NH).room ≤ p.room ∧
        d.weight < p.database.weight := by
    intro hrun sh d hd
    obtain ⟨hweight, htakes⟩ := DatabaseTask.weight_of_finished hd
    have hpos := DatabaseTask.weight_of_unfinished hrun
    simp only [Process.room]
    omega
  cases h with
  | connected hd =>
    exact ⟨rfl, Or.inl (by simp [Process.room, hd, DatabaseTask.takes, DatabaseTask.weight])⟩
  | connectFailed hd _ =>
    exact ⟨rfl, Or.inr (Or.inr ⟨Or.inl ⟨_, hd, rfl⟩, by
      simp [Process.room, hd, DatabaseTask.takes, DatabaseTask.weight]⟩)⟩
  | connectGaveUp e hd _ => exact ⟨rfl, Or.inl (hends (by rw [hd]; rfl) _ _ rfl)⟩
  | heightRead hd hn =>
    exact ⟨rfl, Or.inl (by simp [Process.room, hd, DatabaseTask.takes, DatabaseTask.weight])⟩
  | heightNotSent hd _ => exact ⟨rfl, Or.inl (hends (by rw [hd]; rfl) _ _ rfl)⟩
  | heightNotRead e hd => exact ⟨rfl, Or.inl (hends (by rw [hd]; rfl) _ _ rfl)⟩
  | received hd hq =>
    refine ⟨rfl, Or.inl ?_⟩
    simp only [Process.room, hd, hq, List.length_cons, DatabaseTask.takes, DatabaseTask.weight]
    omega
  | channelClosed hd _ _ => exact ⟨rfl, Or.inl (hends (by rw [hd]; rfl) p.startHeight _ rfl)⟩
  | inserted hd _ =>
    exact ⟨rfl, Or.inr (Or.inl ⟨⟨_, Or.inl rfl⟩, by
      simp [Process.room, hd, DatabaseTask.takes, DatabaseTask.weight]⟩)⟩
  | insertedUnanswered hd _ =>
    exact ⟨rfl, Or.inr (Or.inl ⟨⟨_, Or.inr rfl⟩, by
      simp [Process.room, hd, DatabaseTask.takes, DatabaseTask.weight]⟩)⟩
  | unknownData hd _ => exact ⟨rfl, Or.inl (hends (by rw [hd]; rfl) p.startHeight _ rfl)⟩
  | connectionLost hd _ =>
    exact ⟨rfl, Or.inr (Or.inr ⟨Or.inr (Or.inl ⟨_, hd, rfl⟩), by
      simp [Process.room, hd, DatabaseTask.takes, DatabaseTask.weight]⟩)⟩
  | reconnected hd =>
    exact ⟨rfl, Or.inl (by simp [Process.room, hd, DatabaseTask.takes, DatabaseTask.weight])⟩
  | reconnectFailed hd _ =>
    exact ⟨rfl, Or.inr (Or.inr ⟨Or.inr (Or.inr ⟨_, _, hd, rfl⟩), by
      simp [Process.room, hd, DatabaseTask.takes, DatabaseTask.weight]⟩)⟩
  | reconnectGaveUp e hd _ => exact ⟨rfl, Or.inl (hends (by rw [hd]; rfl) p.startHeight _ rfl)⟩
  | shutdownConnecting hd _ => exact ⟨rfl, Or.inl (hends (by rw [hd]; rfl) _ _ rfl)⟩
  | shutdown r hf _ _ => exact ⟨rfl, Or.inl (hends hf _ _ rfl)⟩
  | aborted hf _ => exact ⟨rfl, Or.inl (hends hf _ _ rfl)⟩

theorem DatabaseStep.unfinished {db db' : DB} {l : Action D} (h : DatabaseStep setup db p l db' p') :
    p.database.finished = false := by
  cases h with
  | shutdown r hf _ _ => exact hf
  | aborted hf _ => exact hf
  | connected hd
  | connectFailed hd _
  | connectGaveUp e hd _
  | heightRead hd _
  | heightNotSent hd _
  | heightNotRead e hd
  | received hd _
  | channelClosed hd _ _
  | inserted hd _
  | insertedUnanswered hd _
  | unknownData hd _
  | connectionLost hd _
  | reconnected hd
  | reconnectFailed hd _
  | reconnectGaveUp e hd _
  | shutdownConnecting hd _ =>
    rw [hd]
    rfl

theorem DatabaseStep.potential {db db' : DB} {l : Action D} (h : DatabaseStep setup db p l db' p') :
    p'.potential < p.potential ∨
    ((∃ d, l = .commit d ∨ l = .commitUnanswered d) ∧ p'.potential ≤ p.potential + 5) ∨
    (p.database.Fails p'.database ∧ p'.potential ≤ p.potential + 6) := by
  obtain ⟨hnode, hcases⟩ := h.weight
  unfold Process.potential
  rw [hnode]
  rcases hcases with ⟨hroom, hlt⟩ | ⟨hcommit, hroom, hle⟩ | ⟨hfails, hroom, hle⟩
  · left
    rcases p.node.perBlock_cases with h' | h' <;> rw [h'] <;> omega
  · refine Or.inr (Or.inl ⟨hcommit, ?_⟩)
    rcases p.node.perBlock_cases with h' | h' <;> rw [h'] <;> omega
  · refine Or.inr (Or.inr ⟨hfails, ?_⟩)
    rcases p.node.perBlock_cases with h' | h' <;> rw [h'] <;> omega

/-- Each step is paid for by the potential, or by the event it is. -/
theorem ServiceStep.potential {s s' : Service D DB NH} {l : Action D}
    (h : ServiceStep setup s l s') : s'.potential + 1 ≤ s.potential +
      charge [.commit, .failure, .crash, .signal] Event.cost Event.Occurs s l s' := by
  have hcharge : ∀ k : Event, k.Occurs s l s' → k.cost ≤
      charge [.commit, .failure, .crash, .signal] Event.cost Event.Occurs s l s' :=
    fun k hk => cost_le_charge (by cases k <;> simp) hk
  cases h with
  | @start db =>
    have := (Process.new (D := D) setup.newHooks).potential_le
    simp only [Service.potential]
    omega
  | @crash db p =>
    have := hcharge .crash rfl
    simp only [Service.potential, Event.cost] at *
    omega
  | @signal db p =>
    have hpaid := hcharge .signal rfl
    have hsame : ({ p with shutdown := true } : Process D NH).potential = p.potential := rfl
    simp only [Service.potential, Event.cost] at *
    omega
  | @node db p p' hnode =>
    simp only [Service.potential]
    rcases hnode.potential with hlt | ⟨hfail, hle⟩
    · omega
    · have hpaid := hcharge .failure ⟨p, p', rfl, rfl, Or.inl hfail⟩
      simp only [Event.cost] at hpaid
      omega
  | @database db db' p p' l hd =>
    simp only [Service.potential]
    rcases hd.potential with hlt | ⟨hcommit, hle⟩ | ⟨hfail, hle⟩
    · omega
    · have hpaid := hcharge .commit hcommit
      simp only [Event.cost] at hpaid
      omega
    · have hpaid := hcharge .failure ⟨p, p', rfl, rfl, Or.inr hfail⟩
      simp only [Event.cost] at hpaid
      omega

end

/-- One node, and blocks without data. -/
def blankSetup : Setup Unit Unit Unit where
  args := ⟨1, 1, 1, Nat.one_pos⟩
  databaseHooks := { insertIntoDb := fun _ db _ => (.ok (), db), onRequestMaxHeight := fun _ => none }
  nodeHooks := { onUseNode := fun _ _ _ => True, onFinalizedBlock := fun _ _ _ _ => True }
  newHooks := ()
  initial _ := True

/-- A process is started, cannot read the start height, and returns. -/
def unreadHeight : Execution blankSetup.service where
  state
    | 0 => ⟨(), none⟩
    | 1 => ⟨(), some (.new ())⟩
    | 2 => ⟨(), some { Process.new () with database := .readingHeight }⟩
    | 3 => ⟨(), some { Process.new () with
        startHeight := .dropped, database := .ended (.error "connection closed") }⟩
    | _ => ⟨(), some { Process.new () with
        startHeight := .dropped, database := .ended (.error "connection closed")
        node := .returned (.error "channel closed") }⟩
  label
    | 0 => some .start
    | 1 => some .database
    | 2 => some .database
    | 3 => some .node
    | _ => none
  starts := ⟨trivial, rfl⟩
  moves
    | 0 => .start
    | 1 => .database (.connected rfl)
    | 2 => .database (.heightNotRead "connection closed" rfl)
    | 3 => .node (.heightDropped rfl rfl)
    | _ + 4 => rfl

theorem unreadHeight_label {j : Nat} (hj : j < 4) : ∃ l, unreadHeight.label j = some l := by
  match j, hj with
  | 0, _ => exact ⟨_, rfl⟩
  | 1, _ => exact ⟨_, rfl⟩
  | 2, _ => exact ⟨_, rfl⟩
  | 3, _ => exact ⟨_, rfl⟩

/-! ## After the database task has ended -/

/-- A process whose database task has ended, with the tables and the channel as they were then. -/
def Ended (db : DB) (p : Process D NH) (s : Service D DB NH) : Prop :=
  s.db = db ∧ ∃ p', s.process = some p' ∧ p'.database = p.database ∧ p'.queue = p.queue

theorem Ended.step {setup : Setup D DB NH} {db : DB} {p : Process D NH}
    (hended : p.database.finished = true) {s s' : Service D DB NH} {l : Action D}
    (h : Ended db p s) (hstep : ServiceStep setup s l s') (hl : l ≠ .crash) : Ended db p s' := by
  obtain ⟨rfl, p₁, hp₁, hdatabase, hqueue⟩ := h
  rw [← hdatabase] at hended
  cases hstep with
  | start => cases hp₁
  | crash => exact absurd rfl hl
  | signal =>
    obtain rfl := Option.some.inj hp₁
    exact ⟨rfl, _, rfl, hdatabase, hqueue⟩
  | node hnode =>
    obtain rfl := Option.some.inj hp₁
    obtain ⟨hsame, -, ⟨hq, -⟩ | ⟨hq, -⟩ | ⟨hrun, -⟩⟩ := hnode.weight
    · exact ⟨rfl, _, rfl, hsame.trans hdatabase, hq.trans hqueue⟩
    · exact ⟨rfl, _, rfl, hsame.trans hdatabase, hq.trans hqueue⟩
    · rw [hended] at hrun; cases hrun
  | database hd =>
    obtain rfl := Option.some.inj hp₁
    rw [hd.unfinished] at hended
    cases hended

/-- A process whose database task has ended commits nothing and sends nothing any more; unless it
is killed, it takes at most 9 steps, and 7 for each attempt at a node that fails. -/
theorem no_work_after_end {setup : Setup D DB NH} (e : Execution setup.service) {i n : Nat}
    (hbusy : e.Busy i n) {p : Process D NH} (hp : (e.state i).process = some p)
    (hended : p.database.finished = true)
    (hcrash : ∀ j, i ≤ j → j < i + n → e.label j ≠ some .crash) :
    n ≤ 9 + 7 * e.count Event.failure.Occurs i n + e.count Event.signal.Occurs i n ∧
    ∀ j, i ≤ j → j ≤ i + n → Ended (e.state i).db p (e.state j) := by
  have hstay : ∀ k, k ≤ n → Ended (e.state i).db p (e.state (i + k)) := by
    intro k
    induction k with
    | zero => exact fun _ => ⟨rfl, p, hp, rfl, rfl⟩
    | succ k ih =>
      intro hk
      obtain ⟨l, hl⟩ := hbusy k (by omega)
      refine (ih (by omega)).step hended (e.step_of_label hl) fun hc => ?_
      exact hcrash (i + k) (by omega) (by omega) (by rw [hl, hc])
  refine ⟨?_, fun j hij hj => ?_⟩
  · let μ : Service D DB NH → Nat := fun s => (s.process.map fun p => p.node.weight).getD 0
    have hpaid := e.busy_le [Event.failure, .signal] Event.cost Event.Occurs μ (i := i) ?_ hbusy
    · have hstart : μ (e.state i) ≤ 9 := by
        simp only [μ, hp, Option.map_some, Option.getD_some]
        exact p.node.weight_le
      simp only [List.map_cons, List.map_nil, List.sum_cons, List.sum_nil, Event.cost] at hpaid
      omega
    · intro j l hij hj hl
      obtain ⟨k, rfl⟩ := Nat.exists_eq_add_of_le hij
      have hstep := e.step_of_label hl
      obtain ⟨-, p₁, hp₁, hdatabase, -⟩ := hstay k (by omega)
      have hcharge : ∀ k' ∈ [Event.failure, .signal],
          k'.Occurs (e.state (i + k)) l (e.state (i + k + 1)) → k'.cost ≤ _ :=
        fun k' hk' hoccurs => cost_le_charge hk' hoccurs
      generalize e.state (i + k) = s at *
      generalize e.state (i + k + 1) = s' at *
      cases hstep with
      | start => cases hp₁
      | crash => exact absurd hl (hcrash _ (by omega) (by omega))
      | @signal db p₂ =>
        have hone := hcharge .signal (by simp) rfl
        simp only [μ, Event.cost, Option.map_some, Option.getD_some] at *
        omega
      | @node db p₂ p₃ hnode =>
        obtain rfl := Option.some.inj hp₁
        simp only [μ, Option.map_some, Option.getD_some]
        obtain ⟨-, -, ⟨-, hlt⟩ | ⟨-, hfails, hle⟩ | ⟨hrun, -⟩⟩ := hnode.weight
        · omega
        · have hseven := hcharge .failure (by simp) ⟨p₂, p₃, rfl, rfl, Or.inl hfails⟩
          simp only [Event.cost] at hseven
          omega
        · rw [hdatabase, hended] at hrun
          cases hrun
      | database hd =>
        obtain rfl := Option.some.inj hp₁
        have hrun := hd.unfinished
        rw [hdatabase, hended] at hrun
        cases hrun
  · obtain ⟨k, rfl⟩ := Nat.exists_eq_add_of_le hij
    exact hstay k (by omega)

end

/-- One step is left after the database task has ended. -/
theorem unreadHeight_ended : 1 ≤ 9 + 7 * unreadHeight.count Event.failure.Occurs 3 1 +
      unreadHeight.count Event.signal.Occurs 3 1 := by
  have hbusy : unreadHeight.Busy 3 1 := fun j hj => unreadHeight_label (by omega)
  refine (no_work_after_end unreadHeight hbusy rfl rfl fun j hi hj => ?_).1
  obtain rfl : j = 3 := by omega
  exact fun h => by cases h

end WalletProxyIndexer
