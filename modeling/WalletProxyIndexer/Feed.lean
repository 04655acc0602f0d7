import WalletProxyIndexer.Coordination

/-!
# The feed

What the two tasks, the channels and the rotation over nodes amount to for the
database: a cursor, from which blocks are inserted one after the other.  A start moves
the cursor to the height after the last recorded one; an insert that was answered moves
it to the next block, any other attempt leaves it where it is.

    service_follows_feed     every run of the service is a run of the feed

The relation (`Process.Tracks`) accounts for each block between the stream and the
tables: the blocks of a chunk, the block being sent, the channel, and the block the
database task holds follow each other without a gap, starting at the cursor.
-/

namespace WalletProxyIndexer

open Transition

structure Feed (DB : Type) where
  db : DB
  /-- height of the next block to insert -/
  cursor : Option Nat

inductive FeedAction (D : Type) where
  | resume
  | insert (n : Nat) (data : D) (answered : Bool)
  | fail (n : Nat) (data : D)

section
variable {D DB NH : Type}

inductive FeedStep (hooks : DatabaseHooks D DB) (isData : Nat → D → Prop) :
    Feed DB → FeedAction D → Feed DB → Prop where
  | resume {db : DB} {cursor : Option Nat} :
      FeedStep hooks isData ⟨db, cursor⟩ .resume ⟨db, some (hooks.startFrom db).toNat⟩
  | insert {db db' : DB} {n : Nat} {data : D} {k : Option Nat} (answered : Bool) :
      isData n data → n + 1 < 2 ^ 64 → hooks.insertIntoDb k db data = (.ok (), db') →
      FeedStep hooks isData ⟨db, some n⟩ (.insert n data answered)
        ⟨db', some (if answered then n + 1 else n)⟩
  | fail {db db' : DB} {n : Nat} {data : D} {k : Option Nat} {e : IndexingError} :
      isData n data → hooks.insertIntoDb k db data = (.error e, db') →
      FeedStep hooks isData ⟨db, some n⟩ (.fail n data) ⟨db', some n⟩

def feed (hooks : DatabaseHooks D DB) (isData : Nat → D → Prop) (initial : DB → Prop) :
    System (Feed DB) (FeedAction D) where
  init a := initial a.db ∧ a.cursor = none
  step := FeedStep hooks isData

/-- The step of the service that a step of the feed stands for. -/
def FeedAction.ofService : FeedAction D → Action D
  | .resume => .database
  | .insert _ data answered => if answered then .commit data else .commitUnanswered data
  | .fail _ _ => .database

/-- The hooks keep what is `valid`, and collect block `h` for height `h`. -/
structure NodeHooks.Serve (hooks : NodeHooks D NH) (valid : NH → Prop) (isData : Nat → D → Prop) :
    Prop where
  useNode : ∀ nh r nh', valid nh → hooks.onUseNode nh r nh' → valid nh'
  finalizedBlock : ∀ nh h r nh', valid nh → hooks.onFinalizedBlock nh h r nh' →
    valid nh' ∧ ∀ data, r = .ok data → isData h.toNat data

/-! ## Heights -/

theorem toNat_next {h : AbsoluteBlockHeight} {k : Nat} (hlt : h.toNat + (k + 1) < 2 ^ 64) :
    h.next.toNat = h.toNat + 1 := by
  unfold AbsoluteBlockHeight.next
  rw [UInt64.toNat_add, UInt64.toNat_one]
  exact Nat.mod_eq_of_lt (by omega)

/-- Blocks `n`, `n + 1`, … -/
def DataFrom (isData : Nat → D → Prop) : Nat → List D → Prop
  | _, [] => True
  | n, data :: l => isData n data ∧ n + 1 < 2 ^ 64 ∧ DataFrom isData (n + 1) l

theorem dataFrom_concat {isData : Nat → D → Prop} {n : Nat} {l : List D} {data : D}
    (h : DataFrom isData n l) (hdata : isData (n + l.length) data) (hlt : n + l.length + 1 < 2 ^ 64) :
    DataFrom isData n (l ++ [data]) := by
  induction l generalizing n with
  | nil => exact ⟨hdata, hlt, trivial⟩
  | cons d l ih =>
    rw [List.length_cons, show n + (l.length + 1) = n + 1 + l.length by omega] at hdata hlt
    exact ⟨h.1, h.2.1, ih h.2.2 hdata hlt⟩

/-! ## Where each block is -/

def DatabaseTask.held : DatabaseTask D → List D
  | .inserting data => [data]
  | .reconnecting data _ => [data]
  | _ => []

/-- Blocks sent but not inserted. -/
def Process.pipeline (p : Process D NH) : List D := p.database.held ++ p.queue

theorem Process.pipeline_send (p : Process D NH) (node : NodeTask D) (data : D) :
    ({ p with queue := p.queue ++ [data], node := node } : Process D NH).pipeline =
      p.pipeline ++ [data] := by
  simp [pipeline]

/-- The height the node loop sends next. -/
def Process.nextHeight (p : Process D NH) : Option AbsoluteBlockHeight :=
  match p.node with
  | .loop r _ => some r.height
  | .awaitHeight => match p.startHeight with
    | .sent h => some h
    | _ => none
  | .returned _ => none

/-- The `k` blocks left of a chunk are the next ones, and the stream continues after them. -/
structure Upcoming (h : AbsoluteBlockHeight) (k : Nat) (blocks : List AbsoluteBlockHeight)
    (stream : AbsoluteBlockHeight) : Prop where
  blocks : blocks = heightsFrom h k
  stream : stream = heightAfter h k
  below : h.toNat + k < 2 ^ 64

/-- What an attempt has in hand continues at the height of the loop. -/
def Attempt.Aligned (isData : Nat → D → Prop) (h : AbsoluteBlockHeight) : Attempt D → Prop
  | .nextChunk stream => stream = h
  | .chunk blocks _ stream => ∃ k, Upcoming h k blocks stream
  | .send data blocks _ stream =>
    isData h.toNat data ∧ h.toNat + 1 < 2 ^ 64 ∧ ∃ k, Upcoming h.next k blocks stream
  | _ => True

structure Process.Tracks (isData : Nat → D → Prop) (p : Process D NH) (cursor : Option Nat) :
    Prop where
  aligned : ∀ r a, p.node = .loop r a → a.Aligned isData r.height
  waiting : p.node = .awaitHeight → p.pipeline = []
  early : p.database.early = true → p.queue = []
  running : p.database.early = false → p.database.finished = false →
    ∃ n, cursor = some n ∧ DataFrom isData n p.pipeline ∧
      ∀ h, p.nextHeight = some h → h.toNat = n + p.pipeline.length

variable {isData : Nat → D → Prop} {cursor : Option Nat} {p p' : Process D NH}

theorem tracks_new (hooks : NH) : (Process.new (D := D) hooks).Tracks isData cursor where
  aligned _ _ h := by cases h
  waiting _ := rfl
  early _ := rfl
  running h := by cases h

/-! ## Steps of the node loop -/

section
variable {setup : Setup D DB NH} {valid : NH → Prop}

/-- A move of the loop that sends nothing. -/
theorem Process.Tracks.inLoop (h : p.Tracks isData cursor) (hooks : NH) {r : Rotation}
    {a : Attempt D} (hnext : p.nextHeight = some r.height) (ha : a.Aligned isData r.height) :
    ({ p with hooks := hooks, node := .loop r a } : Process D NH).Tracks isData cursor where
  aligned r' a' hn := by cases hn; exact ha
  waiting hn := by cases hn
  early := h.early
  running he hf := by
    obtain ⟨n, hc, hd, hlen⟩ := h.running he hf
    refine ⟨n, hc, hd, fun x hx => ?_⟩
    cases hx
    exact hlen _ hnext

theorem Process.Tracks.returned (h : p.Tracks isData cursor) (result : Except AnyhowError Unit) :
    ({ p with node := .returned result } : Process D NH).Tracks isData cursor where
  aligned _ _ hn := by cases hn
  waiting hn := by cases hn
  early := h.early
  running he hf := by
    obtain ⟨n, hc, hd, -⟩ := h.running he hf
    exact ⟨n, hc, hd, fun x hx => by cases hx⟩

theorem Attempt.Aligned.move {args : SharedIndexerArgs} {r : Rotation} {a a' : Attempt D}
    (h : a.Aligned isData r.height) (hmove : Attempt.Move args r a a') :
    a'.Aligned isData r.height := by
  cases hmove with
  | pause _ => trivial
  | connect _ => trivial
  | paused => trivial
  | connected => trivial
  | opened => exact rfl
  | @received stream k hasError hk hlt =>
    obtain rfl : stream = r.height := h
    exact ⟨k, rfl, rfl, hlt⟩
  | chunkDone =>
    obtain ⟨k, hk⟩ := h
    cases k with
    | zero => exact hk.stream
    | succ k => cases hk.blocks

/-- The first block of a chunk is the next one; after it the rest is. -/
theorem Upcoming.cons {h x stream : AbsoluteBlockHeight} {k : Nat} {blocks : List AbsoluteBlockHeight}
    (hup : Upcoming h k (x :: blocks) stream) :
    x = h ∧ h.toNat + 1 < 2 ^ 64 ∧ h.next.toNat = h.toNat + 1 ∧ ∃ k, Upcoming h.next k blocks stream := by
  cases k with
  | zero => cases hup.blocks
  | succ k =>
    obtain ⟨rfl, rfl⟩ := List.cons.inj hup.blocks
    have hnext := toNat_next hup.below
    have hlt := hup.below
    exact ⟨rfl, by omega, hnext, k, rfl, hup.stream, by rw [hnext]; omega⟩

theorem Process.Tracks.node (hserve : setup.nodeHooks.Serve valid isData) (hc : p.Coordinated)
    (hvalid : valid p.hooks) (h : p.Tracks isData cursor) (hstep : NodeStep setup p p') :
    valid p'.hooks ∧ p'.Tracks isData cursor := by
  have hnext : ∀ {r : Rotation} {a : Attempt D}, p.node = .loop r a → p.nextHeight = some r.height := by
    intro r a hn
    unfold Process.nextHeight
    rw [hn]
  cases hstep with
  | @heightReceived x hn hs =>
    have hnx : p.nextHeight = some (Rotation.start x).height := by
      unfold Process.nextHeight
      rw [hn, hs]
      rfl
    exact ⟨hvalid, h.inLoop p.hooks hnx trivial⟩
  | heightDropped hn hs => exact ⟨hvalid, h.returned _⟩
  | moved hn hmove => exact ⟨hvalid, h.inLoop p.hooks (hnext hn) ((h.aligned _ _ hn).move hmove)⟩
  | failed hn hfail =>
    exact ⟨hvalid, h.inLoop p.hooks (by rw [Rotation.height_cycle]; exact hnext hn) trivial⟩
  | nodeUsed hn hr => exact ⟨hserve.useNode _ _ _ hvalid hr, h.inLoop _ (hnext hn) trivial⟩
  | nodeNotUsed hn hr =>
    exact ⟨hserve.useNode _ _ _ hvalid hr,
      h.inLoop _ (by rw [Rotation.height_cycle]; exact hnext hn) trivial⟩
  | collected hn hr =>
    obtain ⟨hvalid', hdata⟩ := hserve.finalizedBlock _ _ _ _ hvalid hr
    obtain ⟨k, hup⟩ := h.aligned _ _ hn
    obtain ⟨rfl, hlt, -, hrest⟩ := hup.cons
    exact ⟨hvalid', h.inLoop _ (hnext hn) ⟨hdata _ rfl, hlt, hrest⟩⟩
  | notCollected hn hr =>
    obtain ⟨hvalid', -⟩ := hserve.finalizedBlock _ _ _ _ hvalid hr
    exact ⟨hvalid', h.inLoop _ (by rw [Rotation.height_cycle]; exact hnext hn) trivial⟩
  | @sent r stream blocks hasError data hn hopen _ =>
    obtain ⟨hdata, hlt, hrest⟩ := h.aligned _ _ hn
    have hstep : r.height.next.toNat = r.height.toNat + 1 := toNat_next (k := 0) hlt
    refine ⟨hvalid, ?_⟩
    exact {
      aligned := fun _ _ he => by cases he; exact hrest
      waiting := fun he => by cases he
      early := fun he => by
        -- the start height is sent, so the database task is past its early phases
        obtain ⟨x, hx⟩ := hc.loop _ _ hn
        rw [hc.early he] at hx
        cases hx
      running := fun he hf => by
        obtain ⟨n, hcur, hd, hlen⟩ := h.running he hf
        have hn' := hlen _ (hnext hn)
        rw [p.pipeline_send]
        refine ⟨n, hcur, dataFrom_concat hd (by rw [← hn']; exact hdata) (by omega), fun x hx => ?_⟩
        cases hx
        rw [Rotation.height_sent, hstep, List.length_append, List.length_singleton]
        omega }
  | closed hn _ => exact ⟨hvalid, h.returned _⟩
  | shutdown hn _ => exact ⟨hvalid, h.returned _⟩

/-! ## Steps of the database task -/

theorem DatabaseTask.held_of_finished {d : DatabaseTask D} (h : d.finished = true) : d.held = [] := by
  cases d with
  | inserting data => cases h
  | reconnecting data i => cases h
  | _ => rfl

theorem DatabaseTask.early_of_finished {d : DatabaseTask D} (h : d.finished = true) :
    d.early = false := by
  cases d with
  | connecting i => cases h
  | readingHeight => cases h
  | _ => rfl

theorem DatabaseTask.held_of_early {d : DatabaseTask D} (h : d.early = true) :
    d.held = [] ∧ d.finished = false := by
  cases d with
  | connecting i => exact ⟨rfl, rfl⟩
  | readingHeight => exact ⟨rfl, rfl⟩
  | _ => cases h

/-- The database task ends. -/
theorem Process.Tracks.ends (h : p.Tracks isData cursor) (sh : StartHeight) {d : DatabaseTask D}
    (hd : d.finished = true) :
    ({ p with startHeight := sh, database := d } : Process D NH).Tracks isData cursor where
  aligned := h.aligned
  waiting hn := by
    have hpipe : p.database.held ++ p.queue = [] := h.waiting hn
    show d.held ++ p.queue = []
    rw [DatabaseTask.held_of_finished hd, (List.append_eq_nil_iff.mp hpipe).2]
    rfl
  early he := by rw [DatabaseTask.early_of_finished hd] at he; cases he
  running _ hf := by rw [hd] at hf; cases hf

/-- The database task connects. -/
theorem Process.Tracks.connects (h : p.Tracks isData cursor) (he : p.database.early = true)
    {d : DatabaseTask D} (hd : d.early = true) :
    ({ p with database := d } : Process D NH).Tracks isData cursor where
  aligned := h.aligned
  waiting _ := by
    show d.held ++ p.queue = []
    rw [(DatabaseTask.held_of_early hd).1, h.early he]
    rfl
  early _ := h.early he
  running hne := by rw [hd] at hne; cases hne

/-- The database task goes on with the blocks it has, or with what is left of them. -/
theorem Process.Tracks.proceeds (h : p.Tracks isData cursor) {cursor' : Option Nat}
    {queue : List D} {d : DatabaseTask D} (hd : d.early = false)
    (hwait : p.pipeline = [] → d.held ++ queue = [])
    (hcur : ∀ n, cursor = some n → DataFrom isData n p.pipeline →
      ∃ n', cursor' = some n' ∧ DataFrom isData n' (d.held ++ queue) ∧
        n' + (d.held ++ queue).length = n + p.pipeline.length)
    (he : p.database.early = false) (hf : p.database.finished = false) :
    ({ p with queue := queue, database := d } : Process D NH).Tracks isData cursor' where
  aligned := h.aligned
  waiting hn := hwait (h.waiting hn)
  early hd' := by rw [hd] at hd'; cases hd'
  running _ _ := by
    obtain ⟨n, hc, hdata, hlen⟩ := h.running he hf
    obtain ⟨n', hc', hdata', heq⟩ := hcur n hc hdata
    refine ⟨n', hc', hdata', fun x hx => ?_⟩
    rw [hlen x hx, ← heq]
    rfl

/-- Same blocks, same cursor. -/
theorem Process.Tracks.keeps (h : p.Tracks isData cursor) {queue : List D} {d : DatabaseTask D}
    (hd : d.early = false) (hsame : d.held ++ queue = p.pipeline)
    (he : p.database.early = false) (hf : p.database.finished = false) :
    ({ p with queue := queue, database := d } : Process D NH).Tracks isData cursor :=
  h.proceeds hd (fun hp => by rw [hsame, hp]) (fun n hc hdata => ⟨n, hc, by rw [hsame]; exact hdata,
    by rw [hsame]⟩) he hf

/-- The block in hand is the one at the cursor. -/
theorem Process.Tracks.head (h : p.Tracks isData cursor) {data : D}
    (hd : p.database = .inserting data) :
    p.pipeline = data :: p.queue ∧ p.database.early = false ∧ p.database.finished = false ∧
    ∃ n, cursor = some n ∧ isData n data ∧ n + 1 < 2 ^ 64 ∧ DataFrom isData (n + 1) p.queue := by
  have hpipe : p.pipeline = data :: p.queue := by unfold Process.pipeline; rw [hd]; rfl
  have he : p.database.early = false := by rw [hd]; rfl
  have hf : p.database.finished = false := by rw [hd]; rfl
  obtain ⟨n, hcur, hdata, -⟩ := h.running he hf
  rw [hpipe] at hdata
  exact ⟨hpipe, he, hf, n, hcur, hdata⟩

/-- A step of the database task is a step of the feed, or one the feed does not see. -/
theorem Process.Tracks.database {db db' : DB} {l : Action D} (h : p.Tracks isData cursor)
    (hstep : DatabaseStep setup db p l db' p') :
    (db' = db ∧ p'.Tracks isData cursor) ∨ ∃ m cursor', l = m.ofService ∧
      FeedStep setup.databaseHooks isData ⟨db, cursor⟩ m ⟨db', cursor'⟩ ∧
      p'.Tracks isData cursor' := by
  cases hstep with
  | connected hd => exact Or.inl ⟨rfl, h.connects (by rw [hd]; rfl) rfl⟩
  | connectFailed hd _ => exact Or.inl ⟨rfl, h.connects (by rw [hd]; rfl) rfl⟩
  | connectGaveUp e _ _ => exact Or.inl ⟨rfl, h.ends _ rfl⟩
  | heightRead hd hn =>
    have hq : p.queue = [] := h.early (by rw [hd]; rfl)
    refine Or.inr ⟨.resume, _, rfl, .resume, ?_⟩
    exact {
      aligned := fun r a he => by rw [hn] at he; cases he
      waiting := fun _ => hq
      early := fun he => by cases he
      running := fun _ _ => by
        refine ⟨_, rfl, ?_, fun x hx => ?_⟩
        · show DataFrom isData _ ([] ++ p.queue)
          rw [hq]
          trivial
        · unfold Process.nextHeight at hx
          rw [hn] at hx
          cases hx
          show _ = _ + ([] ++ p.queue).length
          rw [hq]
          rfl }
  | heightNotSent _ _ => exact Or.inl ⟨rfl, h.ends _ rfl⟩
  | heightNotRead e _ => exact Or.inl ⟨rfl, h.ends _ rfl⟩
  | received hd hq =>
    refine Or.inl ⟨rfl, h.keeps rfl ?_ (by rw [hd]; rfl) (by rw [hd]; rfl)⟩
    unfold Process.pipeline
    rw [hd, hq]
    rfl
  | channelClosed _ _ _ => exact Or.inl ⟨rfl, h.ends p.startHeight rfl⟩
  | @inserted data k db' hd hins =>
    obtain ⟨hpipe, he, hf, n, hcur, hdata, hlt, hrest⟩ := h.head hd
    subst hcur
    refine Or.inr ⟨.insert n data true, _, rfl, .insert true hdata hlt hins, ?_⟩
    refine h.proceeds rfl (fun hp => by rw [hpipe] at hp; cases hp) (fun m hm _ => ?_) he hf
    cases hm
    refine ⟨n + 1, rfl, hrest, ?_⟩
    rw [hpipe, List.length_cons]
    show n + 1 + p.queue.length = _
    omega
  | @insertedUnanswered data k db' hd hins =>
    obtain ⟨hpipe, he, hf, n, hcur, hdata, hlt, -⟩ := h.head hd
    subst hcur
    exact Or.inr ⟨.insert n data false, _, rfl, .insert false hdata hlt hins,
      h.keeps rfl hpipe.symm he hf⟩
  | @unknownData data k db' reasons hd hins =>
    obtain ⟨-, -, -, n, hcur, hdata, -⟩ := h.head hd
    subst hcur
    exact Or.inr ⟨.fail n data, _, rfl, .fail hdata hins, h.ends p.startHeight rfl⟩
  | @connectionLost data k db' e hd hins =>
    obtain ⟨hpipe, he, hf, n, hcur, hdata, -⟩ := h.head hd
    subst hcur
    exact Or.inr ⟨.fail n data, _, rfl, .fail hdata hins, h.keeps rfl hpipe.symm he hf⟩
  | reconnected hd =>
    refine Or.inl ⟨rfl, h.keeps rfl ?_ (by rw [hd]; rfl) (by rw [hd]; rfl)⟩
    unfold Process.pipeline
    rw [hd]
    rfl
  | reconnectFailed hd _ =>
    refine Or.inl ⟨rfl, h.keeps rfl ?_ (by rw [hd]; rfl) (by rw [hd]; rfl)⟩
    unfold Process.pipeline
    rw [hd]
    rfl
  | reconnectGaveUp e _ _ => exact Or.inl ⟨rfl, h.ends p.startHeight rfl⟩
  | shutdownConnecting _ _ => exact Or.inl ⟨rfl, h.ends _ rfl⟩
  | shutdown r _ _ _ => exact Or.inl ⟨rfl, h.ends _ rfl⟩
  | aborted _ _ => exact Or.inl ⟨rfl, h.ends _ rfl⟩

theorem DatabaseStep.hooks {db db' : DB} {l : Action D} (h : DatabaseStep setup db p l db' p') :
    p'.hooks = p.hooks := by
  cases h <;> rfl

/-! ## The simulation -/

/-- The databases are the same, and a process tracks the cursor. -/
def FollowsFeed (valid : NH → Prop) (isData : Nat → D → Prop) (s : Service D DB NH) (a : Feed DB) :
    Prop :=
  a.db = s.db ∧ ∀ p, s.process = some p →
    p.Coordinated ∧ valid p.hooks ∧ p.Tracks isData a.cursor

theorem DatabaseStep.commit {db db' : DB} {l : Action D} {data : D}
    (h : DatabaseStep setup db p l db' p') (hl : l = .commit data ∨ l = .commitUnanswered data) :
    p.database = .inserting data ∧
      ∃ k, setup.databaseHooks.insertIntoDb k db data = (.ok (), db') := by
  rcases hl with rfl | rfl
  · cases h with
    | inserted hd hins => exact ⟨hd, _, hins⟩
  · cases h with
    | insertedUnanswered hd hins => exact ⟨hd, _, hins⟩

/-- A commit is of the block at the cursor. -/
theorem FollowsFeed.commit {s s' : Service D DB NH} {a : Feed DB} {l : Action D} {data : D}
    (h : FollowsFeed valid isData s a) (hstep : ServiceStep setup s l s')
    (hl : l = .commit data ∨ l = .commitUnanswered data) :
    ∃ n k, a.cursor = some n ∧ isData n data ∧ n + 1 < 2 ^ 64 ∧
      setup.databaseHooks.insertIntoDb k s.db data = (.ok (), s'.db) := by
  cases hstep with
  | database hd =>
    obtain ⟨hdata, k, hins⟩ := hd.commit hl
    obtain ⟨-, -, ht⟩ := h.2 _ rfl
    obtain ⟨-, -, -, n, hcur, hn, hlt, -⟩ := ht.head hdata
    exact ⟨n, k, hcur, hn, hlt, hins⟩
  | _ => simp at hl

theorem service_follows_feed (hserve : setup.nodeHooks.Serve valid isData)
    (hnew : valid setup.newHooks) :
    Simulation setup.service (feed setup.databaseHooks isData setup.initial)
      (FollowsFeed valid isData) (fun l m => l = m.ofService) where
  init := by
    rintro s ⟨hdb, hnone⟩
    refine ⟨⟨s.db, none⟩, ⟨hdb, rfl⟩, rfl, fun p hp => ?_⟩
    rw [hnone] at hp
    cases hp
  step := by
    rintro s l s' ⟨db, cursor⟩ ⟨hdb, hp⟩ hstep
    obtain rfl : db = s.db := hdb
    cases hstep with
    | start =>
      refine Or.inl ⟨rfl, fun p h => ?_⟩
      obtain rfl := Option.some.inj h
      exact ⟨coordinated_new _, hnew, tracks_new _⟩
    | crash => exact Or.inl ⟨rfl, fun p h => by cases h⟩
    | signal =>
      refine Or.inl ⟨rfl, fun p h => ?_⟩
      obtain rfl := Option.some.inj h
      obtain ⟨hc, hv, ht⟩ := hp _ rfl
      exact ⟨hc.signal, hv, ht.aligned, ht.waiting, ht.early, ht.running⟩
    | node hnode =>
      refine Or.inl ⟨rfl, fun p h => ?_⟩
      obtain rfl := Option.some.inj h
      obtain ⟨hc, hv, ht⟩ := hp _ rfl
      exact ⟨hc.node hnode, ht.node hserve hc hv hnode⟩
    | @database db db' p p' l hd =>
      obtain ⟨hc, hv, ht⟩ := hp _ rfl
      rw [← hd.hooks] at hv
      rcases ht.database hd with ⟨rfl, ht'⟩ | ⟨m, cursor', hl, hm, ht'⟩
      · refine Or.inl ⟨rfl, fun p h => ?_⟩
        obtain rfl := Option.some.inj h
        exact ⟨hc.database hd, hv, ht'⟩
      · refine Or.inr ⟨m, ⟨db', cursor'⟩, hl, hm, rfl, fun p h => ?_⟩
        obtain rfl := Option.some.inj h
        exact ⟨hc.database hd, hv, ht'⟩

end

end

end WalletProxyIndexer
