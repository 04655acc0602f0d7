import WalletProxyIndexer.Chain
import WalletProxyIndexer.Lib.Transition

/-!
# The service

`run_service` of `lib.rs`: the node loop with `node_process`, the database task with
`db_process` and `use_db`, the oneshot channel that hands the start height from the
database task to the node loop, and the bounded channel that hands blocks back.  The
hooks are parameters (`DatabaseHooks`, `NodeHooks`).

Each step is what one task does between two points where it waits.  The steps of both
tasks interleave in any order; a process may crash at any point and be started again,
and the database stays.  What the environment decides (a connection that fails, a
stream that drops or times out, the answer of a hook) is a choice between steps.

A transaction takes effect when the server commits it: `Action.commit` if the task
learns of it, `Action.commitUnanswered` if the connection breaks before it does.

Delays, timeouts, TLS and log messages are left out.
-/

namespace WalletProxyIndexer

open Transition

structure SharedIndexerArgs where
  /-- number of endpoints; an empty list is refused -/
  numNodes : Nat
  numParallel : Nat
  maxConnectAttemps : Nat
  atLeastOne : 0 < numNodes

structure DatabaseHooks (D DB : Type) where
  /-- the first argument says after how many statements the connection breaks -/
  insertIntoDb : Option Nat → DB → D → Except IndexingError Unit × DB
  onRequestMaxHeight : DB → Option AbsoluteBlockHeight

/-- The ways a hook can end, with the hooks' own state before and after. -/
structure NodeHooks (D NH : Type) where
  onUseNode : NH → Except NodeError Unit → NH → Prop
  onFinalizedBlock : NH → AbsoluteBlockHeight → Except NodeError D → NH → Prop

structure Setup (D DB NH : Type) where
  args : SharedIndexerArgs
  databaseHooks : DatabaseHooks D DB
  nodeHooks : NodeHooks D NH
  /-- the hooks a process starts with -/
  newHooks : NH
  /-- databases the first process finds -/
  initial : DB → Prop

/-- The height the indexer starts from: the next after the last recorded one. -/
def DatabaseHooks.startFrom {D DB : Type} (hooks : DatabaseHooks D DB) (db : DB) :
    AbsoluteBlockHeight :=
  match hooks.onRequestMaxHeight db with
  | some h => h.next
  | none => 0

/-! ## State -/

/-- The oneshot channel. -/
inductive StartHeight where
  | pending
  | sent (h : AbsoluteBlockHeight)
  | dropped
deriving DecidableEq

/-- The sender is dropped; what was sent stays. -/
def StartHeight.drop : StartHeight → StartHeight
  | .sent h => .sent h
  | _ => .dropped

/-- The variables of the loop over the nodes. -/
structure Rotation where
  idx : Nat
  lastSuccess : Nat
  maxHeight : AbsoluteBlockHeight
  height : AbsoluteBlockHeight
deriving DecidableEq

namespace Rotation

def start (h : AbsoluteBlockHeight) : Rotation := ⟨0, 0, h, h⟩

/-- All nodes were tried without success. -/
def mustPause (r : Rotation) (numNodes : Nat) : Bool := r.idx - r.lastSuccess ≥ numNodes

def sent (r : Rotation) : Rotation := { r with height := r.height.next }

/-- The next node, after an attempt that failed. -/
def cycle (r : Rotation) : Rotation :=
  if r.height > r.maxHeight then ⟨r.idx + 1, r.idx, r.height, r.height⟩
  else { r with idx := r.idx + 1 }

@[simp] theorem height_sent (r : Rotation) : r.sent.height = r.height.next := rfl

@[simp] theorem height_cycle (r : Rotation) : r.cycle.height = r.height := by
  unfold cycle
  split <;> rfl

end Rotation

/-- Where an attempt at one node stands.  `stream` is the height the finalized block stream
continues at, `blocks` what is left of a chunk. -/
inductive Attempt (D : Type) where
  | head
  | pausing
  | connecting
  | useNode
  | openStream
  | nextChunk (stream : AbsoluteBlockHeight)
  | chunk (blocks : List AbsoluteBlockHeight) (hasError : Bool) (stream : AbsoluteBlockHeight)
  | send (data : D) (blocks : List AbsoluteBlockHeight) (hasError : Bool)
      (stream : AbsoluteBlockHeight)

inductive NodeTask (D : Type) where
  | awaitHeight
  | loop (r : Rotation) (a : Attempt D)
  | returned (result : Except AnyhowError Unit)

/-- `inserting` holds the block taken from the channel or from `retry`; `i` counts connection
attempts. -/
inductive DatabaseTask (D : Type) where
  | connecting (i : Nat)
  | readingHeight
  | receiving
  | inserting (data : D)
  | reconnecting (data : D) (i : Nat)
  | ended (result : Except AnyhowError Unit)
  | aborted

namespace DatabaseTask

variable {D : Type}

/-- The task is over, so its end of the block channel is closed. -/
def finished : DatabaseTask D → Bool
  | .ended _ => true
  | .aborted => true
  | _ => false

/-- The start height is not handed over yet. -/
def early : DatabaseTask D → Bool
  | .connecting _ => true
  | .readingHeight => true
  | _ => false

end DatabaseTask

structure Process (D NH : Type) where
  hooks : NH
  node : NodeTask D
  startHeight : StartHeight
  queue : List D
  database : DatabaseTask D
  shutdown : Bool

def Process.new {D NH : Type} (hooks : NH) : Process D NH where
  hooks := hooks
  node := .awaitHeight
  startHeight := .pending
  queue := []
  database := .connecting 1
  shutdown := false

structure Service (D DB NH : Type) where
  db : DB
  process : Option (Process D NH)

inductive Action (D : Type) where
  | start
  | crash
  | signal
  | node
  | database
  | commit (data : D)
  | commitUnanswered (data : D)

/-! ## Steps of the node loop -/

def channelCapacity : Nat := 100

/-- The heights of the next `k` blocks of a stream. -/
def heightsFrom (h : AbsoluteBlockHeight) : Nat → List AbsoluteBlockHeight
  | 0 => []
  | k + 1 => h :: heightsFrom h.next k

/-- Where a stream continues after `k` blocks. -/
def heightAfter (h : AbsoluteBlockHeight) : Nat → AbsoluteBlockHeight
  | 0 => h
  | k + 1 => heightAfter h.next k

section
variable {D DB NH : Type}

/-- Moves of an attempt that touch neither the hooks nor the channel. -/
inductive Attempt.Move (args : SharedIndexerArgs) (r : Rotation) : Attempt D → Attempt D → Prop where
  | pause : r.mustPause args.numNodes = true → Move args r .head .pausing
  | connect : r.mustPause args.numNodes = false → Move args r .head .connecting
  | paused : Move args r .pausing .connecting
  | connected : Move args r .connecting .useNode
  | opened : Move args r .openStream (.nextChunk r.height)
  /-- a chunk of consecutive blocks; a chain never reaches the last height of 64 bits -/
  | received {stream : AbsoluteBlockHeight} {k : Nat} (hasError : Bool) : k ≤ args.numParallel →
      stream.toNat + k < 2 ^ 64 →
      Move args r (.nextChunk stream) (.chunk (heightsFrom stream k) hasError (heightAfter stream k))
  | chunkDone {stream : AbsoluteBlockHeight} :
      Move args r (.chunk [] false stream) (.nextChunk stream)

/-- Where an attempt can end with an error of the node: no connection, no stream, no block in
time, or a stream that dropped. -/
def Attempt.canFail : Attempt D → Bool
  | .connecting => true
  | .openStream => true
  | .nextChunk _ => true
  | .chunk [] true _ => true
  | _ => false

inductive NodeStep (setup : Setup D DB NH) (p : Process D NH) : Process D NH → Prop where
  | heightReceived {h : AbsoluteBlockHeight} : p.node = .awaitHeight → p.startHeight = .sent h →
      NodeStep setup p { p with node := .loop (.start h) .head }
  | heightDropped : p.node = .awaitHeight → p.startHeight = .dropped →
      NodeStep setup p { p with node := .returned (.error "channel closed") }
  | moved {r : Rotation} {a a' : Attempt D} : p.node = .loop r a → Attempt.Move setup.args r a a' →
      NodeStep setup p { p with node := .loop r a' }
  | failed {r : Rotation} {a : Attempt D} : p.node = .loop r a → a.canFail = true →
      NodeStep setup p { p with node := .loop r.cycle .head }
  | nodeUsed {r : Rotation} {hooks : NH} : p.node = .loop r .useNode →
      setup.nodeHooks.onUseNode p.hooks (.ok ()) hooks →
      NodeStep setup p { p with hooks := hooks, node := .loop r .openStream }
  | nodeNotUsed {r : Rotation} {hooks : NH} {e : NodeError} : p.node = .loop r .useNode →
      setup.nodeHooks.onUseNode p.hooks (.error e) hooks →
      NodeStep setup p { p with hooks := hooks, node := .loop r.cycle .head }
  | collected {r : Rotation} {h stream : AbsoluteBlockHeight} {blocks : List AbsoluteBlockHeight}
      {hasError : Bool} {data : D} {hooks : NH} :
      p.node = .loop r (.chunk (h :: blocks) hasError stream) →
      setup.nodeHooks.onFinalizedBlock p.hooks h (.ok data) hooks →
      NodeStep setup p { p with hooks := hooks, node := .loop r (.send data blocks hasError stream) }
  | notCollected {r : Rotation} {h stream : AbsoluteBlockHeight}
      {blocks : List AbsoluteBlockHeight} {hasError : Bool} {hooks : NH} {e : NodeError} :
      p.node = .loop r (.chunk (h :: blocks) hasError stream) →
      setup.nodeHooks.onFinalizedBlock p.hooks h (.error e) hooks →
      NodeStep setup p { p with hooks := hooks, node := .loop r.cycle .head }
  | sent {r : Rotation} {stream : AbsoluteBlockHeight} {blocks : List AbsoluteBlockHeight}
      {hasError : Bool} {data : D} : p.node = .loop r (.send data blocks hasError stream) →
      p.database.finished = false → p.queue.length < channelCapacity →
      NodeStep setup p { p with
        queue := p.queue ++ [data], node := .loop r.sent (.chunk blocks hasError stream) }
  /-- the channel is closed: `node_process` ends without an error, and so does the loop -/
  | closed {r : Rotation} {stream : AbsoluteBlockHeight} {blocks : List AbsoluteBlockHeight}
      {hasError : Bool} {data : D} : p.node = .loop r (.send data blocks hasError stream) →
      p.database.finished = true → NodeStep setup p { p with node := .returned (.ok ()) }
  | shutdown {r : Rotation} {a : Attempt D} : p.node = .loop r a → p.shutdown = true →
      NodeStep setup p { p with node := .returned (.ok ()) }

/-! ## Steps of the database task -/

inductive DatabaseStep (setup : Setup D DB NH) (db : DB) (p : Process D NH) :
    Action D → DB → Process D NH → Prop where
  -- `try_connect`; the schema is at its latest version, so there is nothing to migrate
  | connected {i : Nat} : p.database = .connecting i →
      DatabaseStep setup db p .database db { p with database := .readingHeight }
  | connectFailed {i : Nat} : p.database = .connecting i → i < setup.args.maxConnectAttemps →
      DatabaseStep setup db p .database db { p with database := .connecting (i + 1) }
  | connectGaveUp {i : Nat} (e : AnyhowError) : p.database = .connecting i →
      ¬i < setup.args.maxConnectAttemps →
      DatabaseStep setup db p .database db
        { p with startHeight := p.startHeight.drop, database := .ended (.error e) }
  -- the start height
  | heightRead : p.database = .readingHeight → p.node = .awaitHeight →
      DatabaseStep setup db p .database db { p with
        startHeight := .sent (setup.databaseHooks.startFrom db), database := .receiving }
  | heightNotSent : p.database = .readingHeight → p.node ≠ .awaitHeight →
      DatabaseStep setup db p .database db { p with
        startHeight := p.startHeight.drop
        database := .ended (.error "Cannot send start height value to the node worker.") }
  | heightNotRead (e : AnyhowError) : p.database = .readingHeight →
      DatabaseStep setup db p .database db
        { p with startHeight := p.startHeight.drop, database := .ended (.error e) }
  -- the loop of `use_db`
  | received {data : D} {queue : List D} : p.database = .receiving → p.queue = data :: queue →
      DatabaseStep setup db p .database db { p with queue := queue, database := .inserting data }
  | channelClosed {result r : Except AnyhowError Unit} : p.database = .receiving → p.queue = [] →
      p.node = .returned result →
      DatabaseStep setup db p .database db { p with database := .ended r }
  | inserted {data : D} {n : Option Nat} {db' : DB} : p.database = .inserting data →
      setup.databaseHooks.insertIntoDb n db data = (.ok (), db') →
      DatabaseStep setup db p (.commit data) db' { p with database := .receiving }
  | insertedUnanswered {data : D} {n : Option Nat} {db' : DB} : p.database = .inserting data →
      setup.databaseHooks.insertIntoDb n db data = (.ok (), db') →
      DatabaseStep setup db p (.commitUnanswered data) db' { p with database := .reconnecting data 1 }
  | unknownData {data : D} {n : Option Nat} {db' : DB} {reasons : String} :
      p.database = .inserting data →
      setup.databaseHooks.insertIntoDb n db data = (.error (.unknownData reasons), db') →
      DatabaseStep setup db p .database db' { p with
        database := .ended (.error ("Encountered unknown data variant. Please update the rust SDK. " ++
          "Reason(s): " ++ reasons)) }
  | connectionLost {data : D} {n : Option Nat} {db' : DB} {e : PgError} :
      p.database = .inserting data →
      setup.databaseHooks.insertIntoDb n db data = (.error (.postgresError e), db') →
      DatabaseStep setup db p .database db' { p with database := .reconnecting data 1 }
  | reconnected {data : D} {i : Nat} : p.database = .reconnecting data i →
      DatabaseStep setup db p .database db { p with database := .inserting data }
  | reconnectFailed {data : D} {i : Nat} : p.database = .reconnecting data i →
      i < setup.args.maxConnectAttemps →
      DatabaseStep setup db p .database db { p with database := .reconnecting data (i + 1) }
  | reconnectGaveUp {data : D} {i : Nat} (e : AnyhowError) : p.database = .reconnecting data i →
      ¬i < setup.args.maxConnectAttemps →
      DatabaseStep setup db p .database db { p with database := .ended (.error e) }
  -- `db_process`
  | shutdownConnecting {i : Nat} : p.database = .connecting i → p.shutdown = true →
      DatabaseStep setup db p .database db { p with
        startHeight := p.startHeight.drop, database := .ended (.error "Service shut down manually") }
  /-- stopping the connection may fail -/
  | shutdown (r : Except AnyhowError Unit) : p.database.finished = false →
      (∀ i, p.database ≠ .connecting i) → p.shutdown = true →
      DatabaseStep setup db p .database db
        { p with startHeight := p.startHeight.drop, database := .ended r }
  /-- `run_service` aborts the task when the loop ends, not when there is no start height -/
  | aborted : p.database.finished = false → p.node = .returned (.ok ()) →
      DatabaseStep setup db p .database db
        { p with startHeight := p.startHeight.drop, database := .aborted }

/-! ## The system -/

inductive ServiceStep (setup : Setup D DB NH) :
    Service D DB NH → Action D → Service D DB NH → Prop where
  | start {db : DB} : ServiceStep setup ⟨db, none⟩ .start ⟨db, some (.new setup.newHooks)⟩
  | crash {db : DB} {p : Process D NH} : ServiceStep setup ⟨db, some p⟩ .crash ⟨db, none⟩
  | signal {db : DB} {p : Process D NH} :
      ServiceStep setup ⟨db, some p⟩ .signal ⟨db, some { p with shutdown := true }⟩
  | node {db : DB} {p p' : Process D NH} : NodeStep setup p p' →
      ServiceStep setup ⟨db, some p⟩ .node ⟨db, some p'⟩
  | database {db db' : DB} {p p' : Process D NH} {l : Action D} : DatabaseStep setup db p l db' p' →
      ServiceStep setup ⟨db, some p⟩ l ⟨db', some p'⟩

def Setup.service (setup : Setup D DB NH) : System (Service D DB NH) (Action D) where
  init s := setup.initial s.db ∧ s.process = none
  step := ServiceStep setup

theorem reachable_step {setup : Setup D DB NH} {s s' : Service D DB NH} {l : Action D}
    (h : Reachable setup.service s) (hstep : ServiceStep setup s l s') : Reachable setup.service s' :=
  .step h hstep

/-- The process in the middle of a chunk of two blocks: the first is being inserted, the second
not collected yet. -/
def Process.midChunk (h : AbsoluteBlockHeight) (data : D) (hooks : NH) : Process D NH where
  hooks := hooks
  node := .loop (Rotation.start h).sent (.chunk [h.next] false h.next.next)
  startHeight := .sent h
  queue := []
  database := .inserting data
  shutdown := false

/-- With nodes that answer, the service gets there. -/
theorem Setup.reachable_midChunk (setup : Setup D DB NH) {db : DB} {h : AbsoluteBlockHeight}
    {data : D} {hooks hooks' : NH} (hinitial : setup.initial db)
    (hstart : setup.databaseHooks.startFrom db = h) (hheight : h.toNat + 2 < 2 ^ 64)
    (hparallel : 2 ≤ setup.args.numParallel)
    (huse : setup.nodeHooks.onUseNode setup.newHooks (.ok ()) hooks)
    (hblock : setup.nodeHooks.onFinalizedBlock hooks h (.ok data) hooks') :
    Reachable setup.service ⟨db, some (.midChunk h data hooks')⟩ := by
  have hpause : (Rotation.start h).mustPause setup.args.numNodes = false := by
    have := setup.args.atLeastOne
    simp [Rotation.mustPause, Rotation.start]
    omega
  have hinit : Reachable setup.service ⟨db, none⟩ := .init ⟨hinitial, rfl⟩
  have hstarted := reachable_step hinit .start
  -- the database task connects and reads the height
  have hconnected := reachable_step hstarted (.database (.connected rfl))
  have hread := reachable_step hconnected (.database (.heightRead rfl rfl))
  rw [hstart] at hread
  -- the node loop opens a stream and sends the first block
  have hreceived := reachable_step hread (.node (.heightReceived rfl rfl))
  have hhead := reachable_step hreceived (.node (.moved rfl (.connect hpause)))
  have hnode := reachable_step hhead (.node (.moved rfl .connected))
  have hused := reachable_step hnode (.node (.nodeUsed rfl huse))
  have hopened := reachable_step hused (.node (.moved rfl .opened))
  have hchunk := reachable_step hopened
    (.node (.moved rfl (.received (k := 2) false hparallel hheight)))
  have hcollected := reachable_step hchunk (.node (.collected rfl hblock))
  have hsent := reachable_step hcollected (.node (.sent rfl rfl (show 0 < channelCapacity by decide)))
  exact reachable_step hsent (.database (.received rfl rfl))

end

end WalletProxyIndexer
