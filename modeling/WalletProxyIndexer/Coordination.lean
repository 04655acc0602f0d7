import WalletProxyIndexer.Service

/-!
# Coordination of the tasks

What always holds between the node loop, the database task and the oneshot channel
(`Process.Coordinated`), from the start of a process to its end.
-/

namespace WalletProxyIndexer

open Transition

section
variable {D DB NH : Type} {setup : Setup D DB NH}

/-- The database task ended with an error. -/
def Process.databaseFailed (p : Process D NH) : Prop := ∃ e, p.database = .ended (.error e)

/-- The start height was handed to the node loop. -/
def Process.heightSent (p : Process D NH) : Prop := ∃ h, p.startHeight = .sent h

/-- How the tasks and the oneshot channel depend on each other. -/
structure Process.Coordinated (p : Process D NH) : Prop where
  early : p.database.early = true → p.startHeight = .pending
  dropped : p.startHeight = .dropped → p.shutdown = true ∨ p.databaseFailed
  loop : ∀ r a, p.node = .loop r a → p.heightSent
  finished : p.database.finished = true →
    p.shutdown = true ∨ p.databaseFailed ∨ ∃ result, p.node = .returned result
  error : ∀ e, p.node = .returned (.error e) → p.startHeight = .dropped
  ok : p.node = .returned (.ok ()) → p.shutdown = true ∨ (p.heightSent ∧ p.databaseFailed)

theorem coordinated_new (hooks : NH) : (Process.new (D := D) hooks).Coordinated where
  early _ := rfl
  dropped h := by cases h
  loop _ _ h := by cases h
  finished h := by cases h
  error _ h := by cases h
  ok h := by cases h

theorem Process.Coordinated.signal {p : Process D NH} (h : p.Coordinated) :
    ({ p with shutdown := true } : Process D NH).Coordinated where
  early := h.early
  dropped _ := Or.inl rfl
  loop := h.loop
  finished _ := Or.inl rfl
  error := h.error
  ok _ := Or.inl rfl

/-- A move within the loop. -/
theorem Process.Coordinated.inLoop {p : Process D NH} (h : p.Coordinated) (hsent : p.heightSent)
    (hooks : NH) (queue : List D) (r : Rotation) (a : Attempt D)
    (hnode : ∀ result, p.node ≠ .returned result) :
    ({ p with hooks := hooks, queue := queue, node := .loop r a } : Process D NH).Coordinated where
  early := h.early
  dropped := h.dropped
  loop _ _ _ := hsent
  finished hf := (h.finished hf).imp id (Or.imp id fun ⟨_, hr⟩ => absurd hr (hnode _))
  error _ he := by cases he
  ok he := by cases he

theorem Process.Coordinated.node {p p' : Process D NH} (h : p.Coordinated)
    (hstep : NodeStep setup p p') : p'.Coordinated := by
  have hmove : ∀ {r : Rotation} {a : Attempt D}, p.node = .loop r a →
      ∀ hooks queue r' a', ({ p with hooks := hooks, queue := queue, node := .loop r' a' } :
        Process D NH).Coordinated := by
    intro r a hn hooks queue r' a'
    refine h.inLoop (h.loop r a hn) hooks queue r' a' fun result hr => ?_
    rw [hn] at hr
    cases hr
  cases hstep with
  | heightReceived hn hs =>
    exact h.inLoop ⟨_, hs⟩ p.hooks p.queue _ _ fun result hr => by rw [hn] at hr; cases hr
  | heightDropped hn hs =>
    exact {
      early := h.early
      dropped := h.dropped
      loop := fun _ _ he => by cases he
      finished := fun hf => Or.inr (Or.inr ⟨_, rfl⟩)
      error := fun _ _ => hs
      ok := fun he => by cases he }
  | moved hn _ => exact hmove hn _ _ _ _
  | failed hn _ => exact hmove hn _ _ _ _
  | nodeUsed hn _ => exact hmove hn _ _ _ _
  | nodeNotUsed hn _ => exact hmove hn _ _ _ _
  | collected hn _ => exact hmove hn _ _ _ _
  | notCollected hn _ => exact hmove hn _ _ _ _
  | sent hn _ _ => exact hmove hn _ _ _ _
  | closed hn hf =>
    have hsent := h.loop _ _ hn
    -- in the loop, only a shutdown or an error closes the channel
    have hcause : p.shutdown = true ∨ p.databaseFailed := by
      rcases h.finished hf with hs | he | ⟨result, hr⟩
      · exact Or.inl hs
      · exact Or.inr he
      · rw [hn] at hr; cases hr
    exact {
      early := h.early
      dropped := h.dropped
      loop := fun _ _ he => by cases he
      finished := fun _ => Or.inr (Or.inr ⟨_, rfl⟩)
      error := fun _ he => by cases he
      ok := fun _ => hcause.imp id fun he => ⟨hsent, he⟩ }
  | shutdown hn hs =>
    exact {
      early := h.early
      dropped := h.dropped
      loop := fun _ _ he => by cases he
      finished := fun _ => Or.inl hs
      error := fun _ he => by cases he
      ok := fun _ => Or.inl hs }

theorem not_failed_of_unfinished {p : Process D NH} (h : p.database.finished = false) :
    ¬p.databaseFailed := by
  rintro ⟨e, he⟩
  rw [he] at h
  cases h

/-- While the database task runs, `run_service` returns only after a shutdown. -/
theorem Process.Coordinated.shutdown_of_returned {p : Process D NH} (h : p.Coordinated)
    (hrun : p.database.finished = false) {result : Except AnyhowError Unit}
    (hn : p.node = .returned result) : p.shutdown = true := by
  have hnot := not_failed_of_unfinished hrun
  cases result with
  | error e => exact (h.dropped (h.error e hn)).resolve_right hnot
  | ok u => exact (h.ok hn).resolve_right fun hf => hnot hf.2

/-- A step of a database task that goes on. -/
theorem Process.Coordinated.goesOn {p : Process D NH} (h : p.Coordinated)
    (hrun : p.database.finished = false) {queue : List D} {d : DatabaseTask D}
    (hd : d.finished = false)
    (hearly : d.early = true → p.startHeight = .pending) :
    ({ p with queue := queue, database := d } : Process D NH).Coordinated := by
  have hnot := not_failed_of_unfinished hrun
  exact {
    early := hearly
    dropped := fun hs => Or.inl ((h.dropped hs).resolve_right hnot)
    loop := h.loop
    finished := fun hf => by rw [hd] at hf; cases hf
    error := h.error
    ok := fun hn => Or.inl ((h.ok hn).resolve_right fun hf => hnot hf.2) }

/-- A step that ends the database task: with an error, or after a shutdown. -/
theorem Process.Coordinated.ends {p : Process D NH} (h : p.Coordinated)
    (hrun : p.database.finished = false) {sh : StartHeight} {d : DatabaseTask D}
    (hsh : sh = p.startHeight ∨ sh = p.startHeight.drop) (hd : d.finished = true)
    (hcause : p.shutdown = true ∨ ∃ e, d = .ended (.error e)) :
    ({ p with startHeight := sh, database := d } : Process D NH).Coordinated := by
  have hkept : ∀ x, p.startHeight = .sent x → sh = .sent x := by
    rintro x hx
    rcases hsh with rfl | rfl
    · exact hx
    · rw [hx]; rfl
  exact {
    early := fun he => by
      cases d with
      | connecting i => cases hd
      | readingHeight => cases hd
      | _ => cases he
    dropped := fun _ => hcause
    loop := fun r a hn => (h.loop r a hn).imp hkept
    finished := fun _ => hcause.imp id Or.inl
    error := fun e hn => by
      have hdrop := h.error e hn
      rcases hsh with rfl | rfl
      · exact hdrop
      · rw [hdrop]; rfl
    ok := fun hn => Or.inl (h.shutdown_of_returned hrun hn) }

theorem Process.Coordinated.database {p p' : Process D NH} {db db' : DB} {l : Action D}
    (h : p.Coordinated) (hstep : DatabaseStep setup db p l db' p') : p'.Coordinated := by
  have hrun : ∀ {d : DatabaseTask D}, p.database = d → d.finished = false →
      p.database.finished = false := by
    rintro d rfl hd
    exact hd
  cases hstep with
  | connected hd => exact h.goesOn (hrun hd rfl) rfl fun _ => h.early (by rw [hd]; rfl)
  | connectFailed hd _ => exact h.goesOn (hrun hd rfl) rfl fun _ => h.early (by rw [hd]; rfl)
  | connectGaveUp e hd _ => exact h.ends (hrun hd rfl) (Or.inr rfl) rfl (Or.inr ⟨_, rfl⟩)
  | heightRead hd hn =>
    exact {
      early := fun he => by cases he
      dropped := fun hs => by cases hs
      loop := fun _ _ _ => ⟨_, rfl⟩
      finished := fun hf => by cases hf
      error := fun e he => by rw [hn] at he; cases he
      ok := fun he => by rw [hn] at he; cases he }
  | heightNotSent hd _ => exact h.ends (hrun hd rfl) (Or.inr rfl) rfl (Or.inr ⟨_, rfl⟩)
  | heightNotRead e hd => exact h.ends (hrun hd rfl) (Or.inr rfl) rfl (Or.inr ⟨_, rfl⟩)
  | received hd _ => exact h.goesOn (hrun hd rfl) rfl fun he => by cases he
  | channelClosed hd _ hn =>
    exact h.ends (hrun hd rfl) (Or.inl rfl) rfl (Or.inl (h.shutdown_of_returned (hrun hd rfl) hn))
  | inserted hd _ => exact h.goesOn (hrun hd rfl) rfl fun he => by cases he
  | insertedUnanswered hd _ => exact h.goesOn (hrun hd rfl) rfl fun he => by cases he
  | unknownData hd _ => exact h.ends (hrun hd rfl) (Or.inl rfl) rfl (Or.inr ⟨_, rfl⟩)
  | connectionLost hd _ => exact h.goesOn (hrun hd rfl) rfl fun he => by cases he
  | reconnected hd => exact h.goesOn (hrun hd rfl) rfl fun he => by cases he
  | reconnectFailed hd _ => exact h.goesOn (hrun hd rfl) rfl fun he => by cases he
  | reconnectGaveUp e hd _ => exact h.ends (hrun hd rfl) (Or.inl rfl) rfl (Or.inr ⟨_, rfl⟩)
  | shutdownConnecting hd hs => exact h.ends (hrun hd rfl) (Or.inr rfl) rfl (Or.inl hs)
  | shutdown r hf _ hs => exact h.ends hf (Or.inr rfl) rfl (Or.inl hs)
  | aborted hf hn =>
    exact h.ends hf (Or.inr rfl) rfl (Or.inl (h.shutdown_of_returned hf hn))

theorem coordinated_of_reachable {s : Service D DB NH} (h : Reachable setup.service s)
    {p : Process D NH} (hp : s.process = some p) : p.Coordinated := by
  refine h.invariant (I := fun s => ∀ p, s.process = some p → p.Coordinated) ?_ ?_ p hp
  · rintro s ⟨-, hnone⟩ p hp
    rw [hnone] at hp
    cases hp
  · rintro s l s' ih hstep p hp
    cases hstep with
    | start => obtain rfl := Option.some.inj hp; exact coordinated_new _
    | crash => cases hp
    | signal => obtain rfl := Option.some.inj hp; exact (ih _ rfl).signal
    | node hnode => obtain rfl := Option.some.inj hp; exact (ih _ rfl).node hnode
    | database hdb => obtain rfl := Option.some.inj hp; exact (ih _ rfl).database hdb

end

end WalletProxyIndexer
