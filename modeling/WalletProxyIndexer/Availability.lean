import WalletProxyIndexer.Progress
import WalletProxyIndexer.Served

/-!
# The index grows

Two facts beside `index_is_fold`, which only says that the index never goes wrong.

    index_keeps_pace       a run that neither waits nor fails keeps committing new blocks
    height_within_reach    from every state that was not asked to stop, every height can still
                           be indexed, and no restart is needed for it

For both, the cursor of a process that has read its start height only ever moves at a
commit (`Tracks.stays`, `Tracks.inserted`).
-/

namespace WalletProxyIndexer

open Transition

/-! ## The cursor of one process -/

section
variable {D DB NH : Type} {setup : Setup D DB NH} {isData : Nat → D → Prop} {cursor : Option Nat}
  {p p' : Process D NH} {db db' : DB}

/-- Before the start height is read, no cursor is tracked. -/
theorem Process.Tracks.anyCursor (h : p.Tracks isData cursor) (he : p.database.early = true)
    (cursor' : Option Nat) : p.Tracks isData cursor' where
  aligned := h.aligned
  waiting := h.waiting
  early := h.early
  running hne := by rw [he] at hne; cases hne

/-- The process starts to track the height it read. -/
theorem Process.Tracks.heightRead (h : p.Tracks isData cursor) (hd : p.database = .readingHeight)
    (hn : p.node = .awaitHeight) : ({ p with
      startHeight := .sent (setup.databaseHooks.startFrom db), database := .receiving } :
        Process D NH).Tracks isData (some (setup.databaseHooks.startFrom db).toNat) := by
  have h' := h.anyCursor (by rw [hd]; rfl) (some (setup.databaseHooks.startFrom db).toNat)
  rcases h'.database (.heightRead hd hn) with ⟨-, ht⟩ | ⟨m, cursor', hm, hstep, ht⟩
  · exact ht
  · cases hstep with
    | resume => exact ht
    | fail _ _ => exact ht
    | insert answered _ _ _ => cases answered <;> cases hm

/-- Afterwards, a step that commits nothing leaves the cursor where it is. -/
theorem Process.Tracks.stays (h : p.Tracks isData cursor) (he : p.database.early = false)
    (hstep : DatabaseStep setup db p .database db' p') :
    p'.database.early = false ∧ p'.Tracks isData cursor := by
  have hlate : ∀ {d : DatabaseTask D}, p.database = d → d.early ≠ true := by
    intro d hd hearly
    rw [hd, hearly] at he
    cases he
  have hkeeps : ∀ {d d' : DatabaseTask D} {data : D}, p.database = d → d.held = [data] →
      d.finished = false → d'.held = [data] → d'.early = false →
      ({ p with database := d' } : Process D NH).Tracks isData cursor := by
    rintro d d' data rfl hheld hf hheld' he'
    refine h.keeps he' ?_ he hf
    unfold Process.pipeline
    rw [hheld, hheld']
  cases hstep with
  | connected hd => exact absurd rfl (hlate hd)
  | connectFailed hd _ => exact absurd rfl (hlate hd)
  | connectGaveUp e hd _ => exact absurd rfl (hlate hd)
  | heightRead hd _ => exact absurd rfl (hlate hd)
  | heightNotSent hd _ => exact absurd rfl (hlate hd)
  | heightNotRead e hd => exact absurd rfl (hlate hd)
  | received hd hq =>
    refine ⟨rfl, h.keeps rfl ?_ he (by rw [hd]; rfl)⟩
    unfold Process.pipeline
    rw [hd, hq]
    rfl
  | channelClosed _ _ _ => exact ⟨rfl, h.ends p.startHeight rfl⟩
  | unknownData _ _ => exact ⟨rfl, h.ends p.startHeight rfl⟩
  | connectionLost hd _ => exact ⟨rfl, hkeeps hd rfl rfl rfl rfl⟩
  | reconnected hd => exact ⟨rfl, hkeeps hd rfl rfl rfl rfl⟩
  | reconnectFailed hd _ => exact ⟨rfl, hkeeps hd rfl rfl rfl rfl⟩
  | reconnectGaveUp e _ _ => exact ⟨rfl, h.ends p.startHeight rfl⟩
  | shutdownConnecting hd _ => exact absurd rfl (hlate hd)
  | shutdown r _ _ _ => exact ⟨rfl, h.ends _ rfl⟩
  | aborted _ _ => exact ⟨rfl, h.ends _ rfl⟩

/-- A commit that is answered moves it to the next block. -/
theorem Process.Tracks.inserted (h : p.Tracks isData cursor) {data : D}
    (hd : p.database = .inserting data) : ∃ n, cursor = some n ∧ isData n data ∧ n + 1 < 2 ^ 64 ∧
      ({ p with database := .receiving } : Process D NH).Tracks isData (some (n + 1)) := by
  obtain ⟨hpipe, he, hf, n, rfl, hdata, hlt, hrest⟩ := h.head hd
  refine ⟨n, rfl, hdata, hlt, ?_⟩
  refine h.proceeds rfl (fun hp => by rw [hpipe] at hp; cases hp) (fun m hm _ => ?_) he hf
  cases hm
  refine ⟨n + 1, rfl, hrest, ?_⟩
  rw [hpipe, List.length_cons]
  show n + 1 + p.queue.length = _
  omega

end

/-! ## Keeping pace -/

section
variable {J : Type} [SdkJson J] {chain : Chain} {args : SharedIndexerArgs}
  {initial : Tables J → Prop}

/-- The `c` blocks that the process committed lie below its cursor. -/
def Process.Pace (chain : Chain) (c : Nat) (db : Tables J)
    (p : Process TransactionLogData CanonicalAddressCache) : Prop :=
  ∃ cursor k, (p.Coordinated ∧ p.hooks.Canonical chain ∧ p.Tracks chain.BlockData cursor) ∧
    UpTo chain k ⟨db, cursor⟩ ∧
    (c = 0 ∨ p.database.early = false ∧ ∃ q, cursor = some q ∧ c ≤ q)

def Pace (chain : Chain) (c : Nat) (s : Service TransactionLogData (Tables J) CanonicalAddressCache) :
    Prop :=
  match s.process with
  | none => c = 0 ∧ ∃ cursor k, UpTo chain k ⟨s.db, cursor⟩
  | some p => p.Pace chain c s.db

theorem Pace.exists_records {c : Nat}
    {s : Service TransactionLogData (Tables J) CanonicalAddressCache} (h : Pace chain c s) :
    ∃ k, Records chain k s.db ∧ c ≤ k := by
  unfold Pace at h
  split at h
  · obtain ⟨rfl, cursor, k, hup⟩ := h
    exact ⟨k, hup.records, Nat.zero_le k⟩
  · obtain ⟨cursor, k, -, hup, rfl | ⟨-, q, rfl, hle⟩⟩ := h
    · exact ⟨k, hup.records, Nat.zero_le k⟩
    · exact ⟨k, hup.records, Nat.le_trans hle (hup.cursor q rfl).1⟩

theorem Process.Pace.node {c : Nat} {db : Tables J}
    {p p' : Process TransactionLogData CanonicalAddressCache} (h : p.Pace chain c db)
    (hstep : NodeStep (indexer chain args initial) p p') : p'.Pace chain c db := by
  obtain ⟨cursor, k, ⟨hco, hv, ht⟩, hup, hc⟩ := h
  have ht' := ht.node chain.nodeHooks_serve hco hv hstep
  exact ⟨cursor, k, ⟨hco.node hstep, ht'⟩, hup, by rw [hstep.weight.1]; exact hc⟩

/-- A step that commits nothing: before the start height is read nothing was committed, and
afterwards the cursor stays. -/
theorem Process.Pace.database {c : Nat} {db db' : Tables J}
    {p p' : Process TransactionLogData CanonicalAddressCache} (h : p.Pace chain c db)
    (hstep : DatabaseStep (indexer chain args initial) db p .database db' p') :
    p'.Pace chain c db' := by
  obtain ⟨cursor, k, ⟨hco, hv, ht⟩, hup, hc⟩ := h
  have hv' : p'.hooks.Canonical chain := by rw [hstep.hooks]; exact hv
  obtain ⟨hsame, -⟩ := ServiceStep.contents (.database hstep) fun d => ⟨by simp, by simp⟩
  cases he : p.database.early with
  | false =>
    obtain ⟨he', ht'⟩ := ht.stays he hstep
    exact ⟨cursor, k, ⟨hco.database hstep, hv', ht'⟩, hup.same hsame hup.cursor,
      hc.imp_right fun hq => ⟨he', hq.2⟩⟩
  | true =>
    have hzero : c = 0 := by
      rcases hc with hc | ⟨hne, -⟩
      · exact hc
      · rw [he] at hne; cases hne
    rcases ht.database hstep with ⟨-, ht'⟩ | ⟨m, cursor', hm, hfeed, ht'⟩
    · exact ⟨cursor, k, ⟨hco.database hstep, hv', ht'⟩, hup.same hsame hup.cursor, Or.inl hzero⟩
    · obtain ⟨k', -, hup'⟩ := hup.step (fun n d h => by rw [h] at hm; cases hm) hfeed
      exact ⟨cursor', k', ⟨hco.database hstep, hv', ht'⟩, hup', Or.inl hzero⟩

theorem Process.Pace.commit {c : Nat} {db db' : Tables J} {d : TransactionLogData}
    {p p' : Process TransactionLogData CanonicalAddressCache} (h : p.Pace chain c db)
    (hstep : DatabaseStep (indexer chain args initial) db p (.commit d) db' p') :
    p'.Pace chain (c + 1) db' := by
  obtain ⟨cursor, k, ⟨hco, hv, ht⟩, hup, hc⟩ := h
  have hco' := hco.database hstep
  cases hstep with
  | inserted hd hins =>
    obtain ⟨n, rfl, hdata, hn, ht'⟩ := ht.inserted hd
    obtain ⟨k', -, hup'⟩ := hup.commit hdata hn hins
    refine ⟨some (n + 1), k', ⟨hco', hv, ht'⟩, hup', Or.inr ⟨rfl, n + 1, rfl, ?_⟩⟩
    rcases hc with rfl | ⟨-, q, hq, hle⟩
    · omega
    · cases hq
      omega

theorem Pace.step {c : Nat} {s s' : Service TransactionLogData (Tables J) CanonicalAddressCache}
    {l : Action TransactionLogData} (h : Pace chain c s)
    (hstep : ServiceStep (indexer chain args initial) s l s') (hcrash : l ≠ .crash)
    (hanswered : ∀ d, l ≠ .commitUnanswered d) :
    Pace chain (c + tally (Event.commit.Occurs s l s')) s' := by
  have hnone : (∀ d, l ≠ .commit d) → tally (Event.commit.Occurs s l s') = 0 := by
    intro hl
    apply tally_of_not
    rintro ⟨d, h | h⟩
    · exact hl d h
    · exact hanswered d h
  cases hstep with
  | start =>
    rw [hnone fun d => by simp]
    obtain ⟨rfl, cursor, k, hup⟩ := h
    exact ⟨cursor, k, ⟨coordinated_new _, CanonicalAddressCache.canonical_empty chain, tracks_new _⟩,
      hup, Or.inl rfl⟩
  | crash => exact absurd rfl hcrash
  | signal =>
    rw [hnone fun d => by simp]
    obtain ⟨cursor, k, ⟨hco, hv, ht⟩, hup, hc⟩ := h
    exact ⟨cursor, k, ⟨hco.signal, hv, ht.aligned, ht.waiting, ht.early, ht.running⟩, hup, hc⟩
  | node hnode =>
    rw [hnone fun d => by simp]
    exact Process.Pace.node h hnode
  | @database db db' p p' l hd =>
    cases l with
    | commit d =>
      rw [tally_of ⟨d, Or.inl rfl⟩]
      exact Process.Pace.commit h hd
    | database =>
      rw [hnone fun d => by simp]
      exact Process.Pace.database h hd
    | commitUnanswered d => exact absurd rfl (hanswered d)
    | _ => cases hd

theorem upTo_of_reachable {s : Service TransactionLogData (Tables J) CanonicalAddressCache}
    (h : Reachable ((indexer (J := J) chain args fun db => db.contents = .empty).service.restrict
      fun _ l => ∀ d, l ≠ .commitUnanswered d) s) : ∃ a k, Indexing chain s a ∧ UpTo chain k a := by
  have hsim := (indexer_follows_feed chain args fun db : Tables J => db.contents = .empty).restrict
    (P := fun _ l => ∀ d, l ≠ .commitUnanswered d) (Q := fun _ m => ∀ n d, m ≠ .insert n d false)
    (fun s a l m _ hl hp n d hm => hp d (by rw [hl, hm]; rfl))
  obtain ⟨a, ha, hr⟩ := hsim.reachable h
  obtain ⟨k, hup⟩ : ∃ k, UpTo chain k a := by
    refine ha.invariant (I := fun a => ∃ k, UpTo chain k a) ?_ ?_
    · rintro a ⟨hdb, hcursor⟩
      exact ⟨0, upTo_init hdb hcursor⟩
    · rintro a m a' ⟨k, hup⟩ ⟨hm, hstep⟩
      obtain ⟨k', -, hup'⟩ := hup.step hm hstep
      exact ⟨k', hup'⟩
  exact ⟨a, k, hr, hup⟩

theorem pace_zero {s : Service TransactionLogData (Tables J) CanonicalAddressCache}
    {a : Feed (Tables J)} {k : Nat} (hr : Indexing chain s a) (hup : UpTo chain k a) :
    Pace chain 0 s := by
  obtain ⟨db, process⟩ := s
  obtain ⟨db', cursor⟩ := a
  obtain ⟨rfl, hp⟩ := hr
  cases process with
  | none => exact ⟨rfl, cursor, k, hup⟩
  | some p => exact ⟨cursor, k, hp p rfl, hup, Or.inl rfl⟩

end

/-- The first step of the indexer. -/
def firstStart : Execution
    (indexer (J := PlainJson) rewardChain oneNode fun db => db.contents = .empty).service :=
  .once (s := ⟨.empty, none⟩) ⟨rfl, rfl⟩ .start

/-! ## The next block -/

section
variable {D DB NH : Type}

/-- The start height is handed over once it was read. -/
def Process.HandedOver (p : Process D NH) : Prop :=
  p.database.early = false → p.database.finished = false → p.heightSent

/-- Any node can be used, and block `n` can be collected from it. -/
structure NodeHooks.Answer (hooks : NodeHooks D NH) (valid : NH → Prop) (n : Nat) : Prop where
  useNode : ∀ nh, valid nh → ∃ nh', hooks.onUseNode nh (.ok ()) nh'
  finalizedBlock : ∀ nh h, valid nh → h.toNat = n → ∃ data nh', hooks.onFinalizedBlock nh h (.ok data) nh'

variable {setup : Setup D DB NH} {valid : NH → Prop} {isData : Nat → D → Prop} {n : Nat}
  {p p' : Process D NH} {db db' : DB}

theorem NodeStep.frame (h : NodeStep setup p p') :
    p'.database = p.database ∧ p'.startHeight = p.startHeight ∧ p'.shutdown = p.shutdown := by
  cases h <;> exact ⟨rfl, rfl, rfl⟩

theorem Process.HandedOver.node (h : p.HandedOver) (hstep : NodeStep setup p p') : p'.HandedOver := by
  obtain ⟨hd, hs, -⟩ := hstep.frame
  unfold HandedOver heightSent at *
  rw [hd, hs]
  exact h

theorem Process.HandedOver.database {l : Action D} (h : p.HandedOver)
    (hstep : DatabaseStep setup db p l db' p') : p'.HandedOver := by
  cases hstep with
  | connected _ => intro he; cases he
  | connectFailed _ _ => intro he; cases he
  | heightRead _ _ => exact fun _ _ => ⟨_, rfl⟩
  | received hd _
  | inserted hd _
  | insertedUnanswered hd _
  | connectionLost hd _
  | reconnected hd
  | reconnectFailed hd _ => exact fun _ _ => h (by rw [hd]; rfl) (by rw [hd]; rfl)
  | _ => intro _ hf; cases hf

theorem handedOver_of_reachable {s : Service D DB NH} (h : Reachable setup.service s)
    (hp : s.process = some p) : p.HandedOver := by
  refine h.invariant (I := fun s => ∀ p, s.process = some p → p.HandedOver) ?_ ?_ p hp
  · rintro s ⟨-, hnone⟩ p hp
    rw [hnone] at hp
    cases hp
  · rintro s l s' ih hstep p hp
    cases hstep with
    | start => obtain rfl := Option.some.inj hp; intro he; cases he
    | crash => cases hp
    | @signal db p₀ => obtain rfl := Option.some.inj hp; exact fun he hf => ih p₀ rfl he hf
    | node hnode => obtain rfl := Option.some.inj hp; exact (ih _ rfl).node hnode
    | database hd => obtain rfl := Option.some.inj hp; exact (ih _ rfl).database hd

/-- A process that was not asked to stop, and whose database task works, with block `n` the next
to be inserted. -/
structure Process.Heading (setup : Setup D DB NH) (valid : NH → Prop) (isData : Nat → D → Prop)
    (db : DB) (n : Nat) (p : Process D NH) : Prop where
  coordinated : p.Coordinated
  handedOver : p.HandedOver
  valid : valid p.hooks
  tracks : p.Tracks isData (some n)
  early : p.database.early = true → (setup.databaseHooks.startFrom db).toNat = n
  unstopped : p.shutdown = false
  working : p.database.finished = false

def Heading (setup : Setup D DB NH) (valid : NH → Prop) (isData : Nat → D → Prop) (n : Nat)
    (s : Service D DB NH) : Prop :=
  match s.process with
  | none => (setup.databaseHooks.startFrom s.db).toNat = n
  | some p => p.Heading setup valid isData s.db n

theorem Process.Heading.node (hserve : setup.nodeHooks.Serve valid isData)
    (h : p.Heading setup valid isData db n) (hstep : NodeStep setup p p') :
    p'.Heading setup valid isData db n := by
  obtain ⟨hd, hs, hsd⟩ := hstep.frame
  obtain ⟨hv, ht⟩ := h.tracks.node hserve h.coordinated h.valid hstep
  exact {
    coordinated := h.coordinated.node hstep
    handedOver := h.handedOver.node hstep
    valid := hv
    tracks := ht
    early := by rw [hd]; exact h.early
    unstopped := by rw [hsd]; exact h.unstopped
    working := by rw [hd]; exact h.working }

/-- It has not returned. -/
theorem Process.Heading.node_cases (h : p.Heading setup valid isData db n) :
    p.node = .awaitHeight ∨ ∃ r a, p.node = .loop r a := by
  cases hn : p.node with
  | awaitHeight => exact Or.inl rfl
  | loop r a => exact Or.inr ⟨r, a, rfl⟩
  | returned result =>
    have := h.coordinated.shutdown_of_returned h.working hn
    rw [h.unstopped] at this
    cases this

/-- A step of the database task that goes on. -/
theorem Process.Heading.goesOn {db' : DB} {l : Action D} {n' : Nat}
    (h : p.Heading setup valid isData db n) (hstep : DatabaseStep setup db p l db' p')
    (ht : p'.Tracks isData (some n'))
    (hearly : p'.database.early = true → (setup.databaseHooks.startFrom db').toNat = n')
    (hsame : p'.shutdown = p.shutdown) (hworking : p'.database.finished = false) :
    p'.Heading setup valid isData db' n' where
  coordinated := h.coordinated.database hstep
  handedOver := h.handedOver.database hstep
  valid := by rw [hstep.hooks]; exact h.valid
  tracks := ht
  early := hearly
  unstopped := hsame.trans h.unstopped
  working := hworking

/-! ## The way there -/

/-- The steps until the attempt sends a block.  A stream that dropped is left behind first. -/
@[simp] def Attempt.distance : Attempt D → Nat
  | .chunk [] true _ => 9
  | a => a.weight

@[simp] def NodeTask.distance : NodeTask D → Nat
  | .awaitHeight => 9
  | .loop _ a => a.distance
  | .returned _ => 0

/-- The steps until the database task has a block to insert. -/
def Process.distance (p : Process D NH) : Nat :=
  match p.database, p.queue with
  | .connecting _, _ => 12
  | .readingHeight, _ => 11
  | .receiving, [] => p.node.distance + 1
  | .receiving, _ :: _ => 1
  | .reconnecting _ _, _ => 1
  | _, _ => 0

def Service.distance (s : Service D DB NH) : Nat :=
  match s.process with
  | none => 13
  | some p => p.distance

/-- While the channel is empty, the attempt has a step towards the next block. -/
theorem Process.Heading.attempt (hanswer : setup.nodeHooks.Answer valid n) (hparallel : 1 ≤ setup.args.numParallel)
    (hn : n + 1 < 2 ^ 64) (h : p.Heading setup valid isData db n)
    (hd : p.database = .receiving) (hq : p.queue = []) :
    ∃ p', NodeStep setup p p' ∧ p'.distance < p.distance := by
  have hhere : p.distance = p.node.distance + 1 := by
    unfold Process.distance
    rw [hd, hq]
  -- a step that sends nothing
  have hleads : ∀ hooks node, NodeStep setup p { p with hooks := hooks, node := node } →
      node.distance < p.node.distance → ∃ p', NodeStep setup p p' ∧ p'.distance < p.distance := by
    intro hooks node hstep hlt
    refine ⟨_, hstep, ?_⟩
    rw [hhere]
    unfold Process.distance
    simp only [hd, hq]
    omega
  -- the loop is about to send block `n`
  have hheight : ∀ {r a}, p.node = .loop r a → r.height.toNat = n := by
    intro r a hr
    obtain ⟨m, hm, -, hlen⟩ := h.tracks.running (by rw [hd]; rfl) h.working
    obtain rfl := Option.some.inj hm
    have := hlen r.height (by unfold Process.nextHeight; rw [hr])
    unfold Process.pipeline at this
    rw [hd, hq] at this
    exact this
  rcases h.node_cases with hawait | ⟨r, a, hr⟩
  · obtain ⟨x, hx⟩ := h.handedOver (by rw [hd]; rfl) h.working
    exact hleads _ _ (.heightReceived hawait hx) (by simp [hawait, Attempt.weight])
  · have haligned := h.tracks.aligned r a hr
    cases a with
    | head =>
      by_cases hpause : r.mustPause setup.args.numNodes = true
      · exact hleads _ _ (.moved hr (.pause hpause)) (by simp [hr, Attempt.weight])
      · exact hleads _ _ (.moved hr (.connect (by simpa using hpause))) (by simp [hr, Attempt.weight])
    | pausing => exact hleads _ _ (.moved hr .paused) (by simp [hr, Attempt.weight])
    | connecting => exact hleads _ _ (.moved hr .connected) (by simp [hr, Attempt.weight])
    | useNode =>
      obtain ⟨hooks, huse⟩ := hanswer.useNode p.hooks h.valid
      exact hleads _ _ (.nodeUsed hr huse) (by simp [hr, Attempt.weight])
    | openStream => exact hleads _ _ (.moved hr .opened) (by simp [hr, Attempt.weight])
    | nextChunk stream =>
      obtain rfl : stream = r.height := haligned
      have hlt : r.height.toNat + 1 < 2 ^ 64 := by rw [hheight hr]; exact hn
      exact hleads _ _ (.moved hr (.received (k := 1) false hparallel hlt))
        (by simp [hr, Attempt.weight, heightsFrom])
    | chunk blocks hasError stream =>
      cases blocks with
      | nil =>
        cases hasError with
        | false => exact hleads _ _ (.moved hr .chunkDone) (by simp [hr, Attempt.weight])
        | true => exact hleads _ _ (.failed hr rfl) (by simp [hr, Attempt.weight])
      | cons x blocks =>
        obtain ⟨k, hup⟩ := haligned
        obtain ⟨rfl, -⟩ := hup.cons
        obtain ⟨data, hooks, hcollect⟩ := hanswer.finalizedBlock p.hooks _ h.valid (hheight hr)
        exact hleads _ _ (.collected hr hcollect) (by simp [hr, Attempt.weight])
    | send data blocks hasError stream =>
      refine ⟨_, .sent hr h.working (by simp [hq, channelCapacity]), ?_⟩
      rw [hhere, hr]
      unfold Process.distance
      simp [hd, hq, Attempt.weight]

/-- Nobody stops the process, and no commit goes unanswered. -/
def Undisturbed (_ : Service D DB NH) (l : Action D) : Prop :=
  l ≠ .crash ∧ l ≠ .signal ∧ ∀ data, l ≠ .commitUnanswered data

/-- Short of an insert, some step leads on. -/
theorem Heading.step (hserve : setup.nodeHooks.Serve valid isData) (hnew : valid setup.newHooks)
    (hanswer : setup.nodeHooks.Answer valid n) (hparallel : 1 ≤ setup.args.numParallel)
    (hn : n + 1 < 2 ^ 64) {s : Service D DB NH} (h : Heading setup valid isData n s) :
    (∃ p data, s.process = some p ∧ p.database = .inserting data) ∨
    ∃ l s', (setup.service.restrict Undisturbed).step s l s' ∧
      (s'.db = s.db ∧ Heading setup valid isData n s') ∧ s'.distance < s.distance := by
  obtain ⟨db, _ | p⟩ := s
  · right
    refine ⟨.start, _, ⟨by simp [Undisturbed], .start⟩, ⟨rfl, ?_⟩, Nat.lt_succ_self 12⟩
    exact {
      coordinated := coordinated_new _
      handedOver := fun he => by cases he
      valid := hnew
      tracks := tracks_new _
      early := fun _ => h
      unstopped := rfl
      working := rfl }
  · have h : p.Heading setup valid isData db n := h
    have hgoes : ∀ p', DatabaseStep setup db p .database db p' → p'.Heading setup valid isData db n →
        p'.distance < p.distance → (∃ p₀ data, some p = some p₀ ∧ p₀.database = .inserting data) ∨
        ∃ l s', (setup.service.restrict Undisturbed).step ⟨db, some p⟩ l s' ∧
          (s'.db = db ∧ Heading setup valid isData n s') ∧
            s'.distance < (⟨db, some p⟩ : Service D DB NH).distance :=
      fun p' hstep hp' hlt =>
        Or.inr ⟨.database, ⟨db, some p'⟩, ⟨by simp [Undisturbed], .database hstep⟩, ⟨rfl, hp'⟩, hlt⟩
    cases hd : p.database with
    | connecting i =>
      have hstep : DatabaseStep setup db p .database db _ := .connected hd
      refine hgoes _ hstep (h.goesOn hstep ?_ ?_ rfl rfl) ?_
      · exact h.tracks.connects (by rw [hd]; rfl) rfl
      · exact fun _ => h.early (by rw [hd]; rfl)
      · unfold Process.distance
        simp only [hd]
        decide
    | readingHeight =>
      have hawait : p.node = .awaitHeight := by
        rcases h.node_cases with hn | ⟨r, a, hn⟩
        · exact hn
        · obtain ⟨x, hx⟩ := h.coordinated.loop r a hn
          rw [h.coordinated.early (by rw [hd]; rfl)] at hx
          cases hx
      have hstart := h.early (by rw [hd]; rfl)
      have hstep : DatabaseStep setup db p .database db _ := .heightRead hd hawait
      refine hgoes _ hstep (h.goesOn hstep ?_ (fun he => by cases he) rfl rfl) ?_
      · rw [← hstart]
        exact h.tracks.heightRead hd hawait
      · unfold Process.distance
        simp [hd, hawait, h.tracks.early (by rw [hd]; rfl)]
    | receiving =>
      cases hq : p.queue with
      | nil =>
        obtain ⟨p', hstep, hlt⟩ := h.attempt hanswer hparallel hn hd hq
        exact Or.inr ⟨.node, ⟨db, some p'⟩, ⟨by simp [Undisturbed], .node hstep⟩,
          ⟨rfl, h.node hserve hstep⟩, hlt⟩
      | cons data queue =>
        have hstep : DatabaseStep setup db p .database db _ := .received hd hq
        obtain ⟨hlate, ht⟩ := h.tracks.stays (by rw [hd]; rfl) hstep
        refine hgoes _ hstep (h.goesOn hstep ht (fun he => by cases he) rfl rfl) ?_
        unfold Process.distance
        simp only [hd, hq]
        decide
    | inserting data => exact Or.inl ⟨p, data, rfl, hd⟩
    | reconnecting data i =>
      have hstep : DatabaseStep setup db p .database db _ := .reconnected hd
      obtain ⟨hlate, ht⟩ := h.tracks.stays (by rw [hd]; rfl) hstep
      refine hgoes _ hstep (h.goesOn hstep ht (fun he => by cases he) rfl rfl) ?_
      unfold Process.distance
      simp only [hd]
      decide
    | ended result => have := h.working; rw [hd] at this; cases this
    | aborted => have := h.working; rw [hd] at this; cases this

theorem Attempt.distance_le (a : Attempt D) : a.distance ≤ 9 := by
  cases a with
  | chunk blocks hasError stream =>
    cases blocks <;> cases hasError <;> simp [Attempt.weight]
  | _ => simp [Attempt.weight]

theorem Service.distance_le (s : Service D DB NH) : s.distance ≤ 13 := by
  obtain ⟨db, _ | p⟩ := s
  · exact Nat.le_refl 13
  · have hnode : p.node.distance ≤ 9 := by
      cases p.node with
      | loop r a => exact a.distance_le
      | _ => simp
    show p.distance ≤ 13
    unfold Process.distance
    split <;> omega

/-- The database task gets the next block to insert after at most 13 steps. -/
theorem Heading.insert_within (hserve : setup.nodeHooks.Serve valid isData)
    (hnew : valid setup.newHooks) (hanswer : setup.nodeHooks.Answer valid n)
    (hparallel : 1 ≤ setup.args.numParallel) (hn : n + 1 < 2 ^ 64) {s : Service D DB NH}
    (h : Heading setup valid isData n s) :
    ∃ p data, Within (setup.service.restrict Undisturbed) 13 s ⟨s.db, some p⟩ ∧
      p.Heading setup valid isData s.db n ∧ p.database = .inserting data := by
  obtain ⟨⟨db, process⟩, hwithin, ⟨rfl, hheading⟩, p, data, rfl, hd⟩ := exists_within
    (I := fun s' => s'.db = s.db ∧ Heading setup valid isData n s')
    (G := fun s' => ∃ p data, s'.process = some p ∧ p.database = .inserting data)
    Service.distance (fun s' ⟨hdb, hs'⟩ => by
      have hstep := hs'.step hserve hnew hanswer hparallel hn
      rwa [hdb] at hstep) ⟨rfl, h⟩
  exact ⟨p, data, hwithin.mono s.distance_le, hheading, hd⟩

end

/-! ## Every height -/

section
variable {J : Type} [SdkJson J] {chain : Chain} {args : SharedIndexerArgs}
  {initial : Tables J → Prop} {n N : Nat}

theorem Chain.nodeHooks_answer (h : chain.Served n) :
    chain.nodeHooks.Answer (CanonicalAddressCache.Canonical chain) n where
  useNode cache hcache := by
    obtain ⟨-, _, hok, -⟩ := onUseNode_yields chain 0 cache hcache
    exact ⟨_, chain.node 0, chain.node_follows 0, Prod.ext hok rfl⟩
  finalizedBlock cache height hcache hheight := by
    subst hheight
    obtain ⟨-, d, hok, -⟩ := onFinalizedBlock_yields 0 h cache hcache
    exact ⟨d, _, chain.node 0, chain.node_follows 0, Prod.ext hok rfl⟩

/-- The next block is `n`, and the blocks before it are in the tables. -/
def Ready (chain : Chain) (args : SharedIndexerArgs) (initial : Tables J → Prop) (n : Nat)
    (s : Service TransactionLogData (Tables J) CanonicalAddressCache) : Prop :=
  Heading (indexer chain args initial) (CanonicalAddressCache.Canonical chain) chain.BlockData n s ∧
    ∃ k, UpTo chain k ⟨s.db, some n⟩

theorem Ready.advance (hchain : chain.Indexable N) (hN : N < 2 ^ 64)
    (hparallel : 1 ≤ args.numParallel) (hn : n < N)
    {s : Service TransactionLogData (Tables J) CanonicalAddressCache} (h : Ready chain args initial n s) :
    ∃ s', Within ((indexer chain args initial).service.restrict Undisturbed) 14 s s' ∧
      Ready chain args initial (n + 1) s' := by
  obtain ⟨hheading, k, hup⟩ := h
  obtain ⟨p, d, hwithin, hp, hd⟩ := hheading.insert_within chain.nodeHooks_serve
    (CanonicalAddressCache.canonical_empty chain) (Chain.nodeHooks_answer (hchain.served n hn))
    hparallel (by omega)
  obtain ⟨m, hm, hdata, hlt, ht⟩ := hp.tracks.inserted hd
  obtain rfl := Option.some.inj hm
  obtain ⟨hle, hrows⟩ := hup.cursor n rfl
  obtain ⟨db', hins⟩ := hchain.commits hup.records hn hle hrows hdata
  have hstep : DatabaseStep (indexer chain args initial) s.db p (.commit d) db' _ := .inserted hd hins
  obtain ⟨k', -, hup'⟩ := hup.commit hdata hlt hins
  refine ⟨⟨db', _⟩, hwithin.trans (.step (n := 0) ⟨by simp [Undisturbed], .database hstep⟩ .refl), ?_, k', hup'⟩
  exact hp.goesOn hstep ht (fun he => by cases he) rfl rfl

theorem Ready.reaches (hchain : chain.Indexable N) (hN : N < 2 ^ 64)
    (hparallel : 1 ≤ args.numParallel) {m : Nat} (hm : n + m = N)
    {s : Service TransactionLogData (Tables J) CanonicalAddressCache} (h : Ready chain args initial n s) :
    ∃ s', Within ((indexer chain args initial).service.restrict Undisturbed) (14 * m) s s' ∧
      Ready chain args initial N s' := by
  induction m generalizing n s with
  | zero => exact ⟨s, .refl, hm ▸ h⟩
  | succ m ih =>
    obtain ⟨s₁, hfirst, h₁⟩ := h.advance hchain hN hparallel (by omega)
    obtain ⟨s', hrest, h'⟩ := ih (by omega) h₁
    exact ⟨s', (hfirst.trans hrest).mono (by omega), h'⟩

/-- A run of the indexer that may go on stands before some block. -/
theorem exists_ready
    {s : Service TransactionLogData (Tables J) CanonicalAddressCache}
    (hs : Reachable (indexer chain args initial).service s)
    {a : Feed (Tables J)} {k : Nat} (hr : Indexing chain s a) (hup : UpTo chain k a)
    (hlive : ∀ p, s.process = some p → p.shutdown = false ∧ p.database.finished = false) :
    ∃ n, Ready chain args initial n s := by
  obtain ⟨db, process⟩ := s
  obtain ⟨db', cursor⟩ := a
  obtain ⟨rfl, hp⟩ := hr
  -- where a start would resume
  have hresume : UpTo chain k ⟨db', some ((databaseState J).startFrom db').toNat⟩ := by
    refine hup.same rfl fun q hq => ?_
    cases hq
    rw [startFrom_eq]
    exact hup.resume
  cases process with
  | none => exact ⟨_, rfl, k, hresume⟩
  | some p =>
    obtain ⟨hco, hv, ht⟩ := hp p rfl
    obtain ⟨hunstopped, hworking⟩ := hlive p rfl
    have hheading : ∀ n, p.Tracks chain.BlockData (some n) →
        (p.database.early = true → ((databaseState J).startFrom db').toNat = n) →
        p.Heading (indexer chain args initial) (CanonicalAddressCache.Canonical chain)
          chain.BlockData db' n := fun n ht he =>
      { coordinated := hco
        handedOver := handedOver_of_reachable hs rfl
        valid := hv
        tracks := ht
        early := he
        unstopped := hunstopped
        working := hworking }
    cases he : p.database.early with
    | true => exact ⟨_, hheading _ (ht.anyCursor he _) fun _ => rfl, k, hresume⟩
    | false =>
      obtain ⟨n, rfl, -⟩ := ht.running he hworking
      exact ⟨n, hheading n ht (fun h => by rw [he] at h; cases h), k, hup⟩

/-- From every state of the indexer that is reached from an empty index with no commit
unanswered, and that was not asked to stop and whose database task works (or that waits to be
started): if the first `N` blocks of the chain can be indexed, they are in the tables after at
most `14 * N` further steps of the tasks, without a restart. -/
theorem height_within_reach (hchain : chain.Indexable N) (hN : N < 2 ^ 64)
    (hparallel : 1 ≤ args.numParallel)
    {s : Service TransactionLogData (Tables J) CanonicalAddressCache}
    (hs : Reachable ((indexer (J := J) chain args fun db => db.contents = .empty).service.restrict
      fun _ l => ∀ d, l ≠ .commitUnanswered d) s)
    (hlive : ∀ p, s.process = some p → p.shutdown = false ∧ p.database.finished = false) :
    ∃ s' k, Within ((indexer (J := J) chain args fun db => db.contents = .empty).service.restrict
      Undisturbed) (14 * N) s s' ∧ Records chain k s'.db ∧ N ≤ k := by
  obtain ⟨a, k, hr, hup⟩ := upTo_of_reachable hs
  obtain ⟨n, hready⟩ := exists_ready hs.unrestrict hr hup hlive
  rcases Nat.le_total N n with hle | hle
  · obtain ⟨k', hup'⟩ := hready.2
    exact ⟨s, k', .refl, hup'.records, Nat.le_trans hle (hup'.cursor n rfl).1⟩
  · obtain ⟨m, rfl⟩ := Nat.exists_eq_add_of_le hle
    obtain ⟨s', hwithin, -, k', hup'⟩ := hready.reaches hchain hN hparallel rfl
    exact ⟨s', k', hwithin.mono (by omega), hup'.records, (hup'.cursor _ rfl).1⟩

end

theorem rewardChain_indexable (N : Nat) : rewardChain.Indexable N where
  served n _ := {
    addresses := fun s hs => absurd hs List.not_mem_nil
    specialEvents := fun u hu => by rw [List.mem_singleton.mp hu]; rfl
    keys := fun a ha => absurd ha List.not_mem_nil }
  known n _ := rfl
  inRange := by
    have hnone : ((List.range N).flatMap fun n => (rewardChain.blockData n).supplyEvents) = [] :=
      List.flatMap_eq_nil_iff.mpr fun n _ => rfl
    rw [hnone]
    rfl

theorem rewardChain_within_reach : ∃ s' k, Within
    ((indexer (J := PlainJson) rewardChain oneNode fun db => db.contents = .empty).service.restrict
      Undisturbed) (14 * 1000) ⟨.empty, none⟩ s' ∧ Records rewardChain k s'.db ∧ 1000 ≤ k :=
  height_within_reach (rewardChain_indexable 1000) (by decide) (by decide) (.init ⟨rfl, rfl⟩)
    fun p hp => by cases hp

end WalletProxyIndexer
