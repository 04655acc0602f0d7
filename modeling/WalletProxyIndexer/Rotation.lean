import WalletProxyIndexer.Feed

/-!
# Rotation over the nodes

`run_service` takes the nodes in turn, and pauses before an attempt when all of them
have failed since the last that made progress.  It decides this from `last_success` and
`max_height`, updated after each attempt.

`AttemptOutcomes` says how many blocks each attempt sends before it ends in an error;
`AttemptOutcomes.rotation` is the loop's variables before each attempt.

    AttemptOutcomes.rotation_spec     what the variables say about the attempts so far
    Process.Rotates                   the node loop has the variables of some outcomes

`rotation_backs_off`: an attempt is preceded by a pause exactly if none of the `n - 1`
attempts before it sent a block and there were `n` attempts at all.
-/

namespace WalletProxyIndexer

open Transition

/-- Attempt `i` sends `blocks i` blocks; heights stay in 64 bits. -/
structure AttemptOutcomes where
  start : AbsoluteBlockHeight
  blocks : Nat → Nat
  inRange : ∀ i, start.toNat + ((List.range i).map blocks).sum < 2 ^ 64

/-- The loop after `k` blocks were sent. -/
def Rotation.advance (r : Rotation) : Nat → Rotation
  | 0 => r
  | k + 1 => (r.advance k).sent

/-- The node an attempt uses: `endpoint.into_iter().cycle().zip(0u64..)`. -/
def Rotation.endpoint (r : Rotation) (numNodes : Nat) : Nat := r.idx % numNodes

@[simp] theorem Rotation.idx_advance (r : Rotation) (k : Nat) : (r.advance k).idx = r.idx := by
  induction k with
  | zero => rfl
  | succ k ih => exact ih

@[simp] theorem Rotation.maxHeight_advance (r : Rotation) (k : Nat) :
    (r.advance k).maxHeight = r.maxHeight := by
  induction k with
  | zero => rfl
  | succ k ih => exact ih

theorem Rotation.height_advance (r : Rotation) {k : Nat} (h : r.height.toNat + k < 2 ^ 64) :
    (r.advance k).height.toNat = r.height.toNat + k := by
  induction k with
  | zero => rfl
  | succ k ih =>
    have hk := ih (by omega)
    show (r.advance k).height.next.toNat = _
    rw [toNat_next (k := 0) (by omega), hk, Nat.add_assoc]

@[simp] theorem Rotation.idx_cycle (r : Rotation) : r.cycle.idx = r.idx + 1 := by
  unfold cycle
  split <;> rfl

namespace AttemptOutcomes

/-- The variables of the loop before attempt `i`. -/
def rotation (o : AttemptOutcomes) : Nat → Rotation
  | 0 => .start o.start
  | i + 1 => ((o.rotation i).advance (o.blocks i)).cycle

variable (o : AttemptOutcomes)

/-- The height before attempt `i`. -/
def heightAt (i : Nat) : Nat := o.start.toNat + ((List.range i).map o.blocks).sum

theorem heightAt_succ (i : Nat) : o.heightAt (i + 1) = o.heightAt i + o.blocks i := by
  unfold heightAt
  rw [List.range_succ, List.map_append, List.sum_append, List.map_singleton, List.sum_singleton,
    Nat.add_assoc]

/-- What the variables say before attempt `i`. -/
structure Spec (i : Nat) (r : Rotation) : Prop where
  idx : r.idx = i
  height : r.height.toNat = o.heightAt i
  maxHeight : r.maxHeight = r.height
  /-- no attempt after the last success sent a block -/
  idle : ∀ j, r.lastSuccess < j → j < i → o.blocks j = 0
  /-- it is one, or there was none and the count began at the first attempt -/
  success : r.lastSuccess = 0 ∨ (r.lastSuccess < i ∧ 0 < o.blocks r.lastSuccess)

theorem Spec.next {i : Nat} {r : Rotation} (h : o.Spec i r) :
    o.Spec (i + 1) (r.advance (o.blocks i)).cycle := by
  have hlt := o.inRange (i + 1)
  change o.heightAt (i + 1) < 2 ^ 64 at hlt
  rw [o.heightAt_succ, ← h.height] at hlt
  have hheight := r.height_advance hlt
  have hgrown : (r.advance (o.blocks i)).height > (r.advance (o.blocks i)).maxHeight ↔ 0 < o.blocks i := by
    rw [gt_iff_lt, UInt64.lt_iff_toNat_lt, hheight, Rotation.maxHeight_advance, h.maxHeight]
    omega
  have hnext : (r.advance (o.blocks i)).cycle.height.toNat = o.heightAt (i + 1) := by
    rw [Rotation.height_cycle, hheight, h.height, o.heightAt_succ]
  by_cases hpos : 0 < o.blocks i
  · have hcycle : (r.advance (o.blocks i)).cycle = ⟨i + 1, i, (r.advance (o.blocks i)).height,
        (r.advance (o.blocks i)).height⟩ := by
      unfold Rotation.cycle
      rw [if_pos (hgrown.mpr hpos), Rotation.idx_advance, h.idx]
    rw [hcycle] at hnext ⊢
    exact {
      idx := rfl
      height := hnext
      maxHeight := rfl
      idle := fun j hj hji => by
        have hj : i < j := hj
        omega
      success := Or.inr ⟨Nat.lt_succ_self i, hpos⟩ }
  · have hzero : o.blocks i = 0 := Nat.eq_zero_of_not_pos hpos
    have hcycle : (r.advance (o.blocks i)).cycle = { r with idx := i + 1 } := by
      unfold Rotation.cycle
      rw [if_neg (mt hgrown.mp hpos), hzero, Rotation.advance, h.idx]
    rw [hcycle] at hnext ⊢
    exact {
      idx := rfl
      height := hnext
      maxHeight := h.maxHeight
      idle := fun j hj hji => by
        by_cases hij : j = i
        · rw [hij]; exact hzero
        · exact h.idle j hj (by omega)
      success := h.success.imp id fun hs => ⟨Nat.lt_succ_of_lt hs.1, hs.2⟩ }

theorem rotation_spec (i : Nat) : o.Spec i (o.rotation i) := by
  induction i with
  | zero =>
    exact {
      idx := rfl
      height := rfl
      maxHeight := rfl
      idle := fun j _ hj => absurd hj (Nat.not_lt_zero j)
      success := Or.inl rfl }
  | succ i ih => exact ih.next

/-! ## Pauses -/

/-- Attempt `i` is preceded by a pause. -/
def paused (n i : Nat) : Bool := (o.rotation i).mustPause n

theorem paused_iff {n i : Nat} :
    o.paused n i = true ↔ n ≤ i ∧ ∀ j, j < i → i < j + n → o.blocks j = 0 := by
  have h := o.rotation_spec i
  unfold paused Rotation.mustPause
  rw [h.idx, decide_eq_true_eq]
  constructor
  · intro hge
    refine ⟨by omega, fun j hj hjn => ?_⟩
    by_cases hlast : (o.rotation i).lastSuccess < j
    · exact h.idle j hlast hj
    · omega
  · rintro ⟨hn, hidle⟩
    by_contra hlt
    rcases h.success with hzero | ⟨hbefore, hpos⟩
    · omega
    · have := hidle _ hbefore (by omega)
      omega

/-- The node loop over `n` nodes backs off exactly when all have failed. -/
structure BacksOff (n : Nat) : Prop where
  paused_iff : ∀ i, o.paused n i = true ↔ n ≤ i ∧ ∀ j, j < i → i < j + n → o.blocks j = 0
  /-- no `n + 1` attempts in a row send nothing without a pause -/
  never_idle : ∀ i, ∃ j, i ≤ j ∧ j ≤ i + n ∧ (0 < o.blocks j ∨ o.paused n j = true)
  after_success : ∀ i j, 0 < o.blocks i → i < j → j < i + n → o.paused n j = false
  endpoint : ∀ i, (o.rotation i).endpoint n = i % n
  /-- any `n` attempts in a row use each node once -/
  window : ∀ i, ((List.range n).map fun k => (o.rotation (i + k)).endpoint n).Perm (List.range n)
  /-- each attempt starts where the one before stopped -/
  height : ∀ i, (o.rotation 0).height = o.start ∧
    (o.rotation (i + 1)).height = ((o.rotation i).advance (o.blocks i)).height ∧
    (o.rotation i).height.toNat = o.heightAt i

theorem window_perm {n : Nat} (hn : 0 < n) (i : Nat) :
    ((List.range n).map fun k => (i + k) % n).Perm (List.range n) := by
  have hnodup : ((List.range n).map fun k => (i + k) % n).Nodup := by
    refine List.Nodup.map_on ?_ List.nodup_range
    intro a ha b hb heq
    have hmod : a ≡ b [MOD n] := Nat.ModEq.add_left_cancel' i heq
    exact hmod.eq_of_lt_of_lt (List.mem_range.mp ha) (List.mem_range.mp hb)
  have hsub : ((List.range n).map fun k => (i + k) % n) ⊆ List.range n := by
    intro x hx
    obtain ⟨k, -, rfl⟩ := List.mem_map.mp hx
    exact List.mem_range.mpr (Nat.mod_lt _ hn)
  apply (List.subperm_of_subset hnodup hsub).perm_of_length_le
  rw [List.length_map]

theorem backsOff {n : Nat} (hn : 0 < n) : o.BacksOff n where
  paused_iff _ := o.paused_iff
  never_idle i := by
    by_contra hnone
    push Not at hnone
    have hlast := (hnone (i + n) (by omega) (Nat.le_refl _)).2
    apply hlast
    apply o.paused_iff.mpr
    refine ⟨by omega, fun j hj hjn => ?_⟩
    exact Nat.le_zero.mp (hnone j (by omega) (by omega)).1
  after_success i j hpos hij hjn := by
    by_contra hpaused
    have hidle := (o.paused_iff.mp (Bool.eq_true_of_not_eq_false hpaused)).2 i hij hjn
    omega
  endpoint i := by
    unfold Rotation.endpoint
    rw [(o.rotation_spec i).idx]
  window i := by
    have hindices : ((List.range n).map fun k => (o.rotation (i + k)).endpoint n) =
        (List.range n).map fun k => (i + k) % n := by
      apply List.map_congr_left
      intro k _
      unfold Rotation.endpoint
      rw [(o.rotation_spec (i + k)).idx]
    rw [hindices]
    exact window_perm hn i
  height i := ⟨rfl, Rotation.height_cycle _, (o.rotation_spec i).height⟩

/-! ## Outcomes of a run -/

theorem rotation_congr {o o' : AttemptOutcomes} (hstart : o.start = o'.start) {i : Nat}
    (h : ∀ j, j < i → o.blocks j = o'.blocks j) : o.rotation i = o'.rotation i := by
  induction i with
  | zero => unfold rotation; rw [hstart]
  | succ i ih =>
    unfold rotation
    rw [ih fun j hj => h j (by omega), h i (Nat.lt_succ_self i)]

theorem heightAt_mono {i j : Nat} (hij : i ≤ j) : o.heightAt i ≤ o.heightAt j := by
  induction hij with
  | refl => exact Nat.le_refl _
  | step _ ih => rw [Nat.succ_eq_add_one, heightAt_succ]; omega

/-- Without blocks after attempt `i`, the height stays. -/
theorem heightAt_of_idle {i : Nat} (hidle : ∀ j, i < j → o.blocks j = 0) (k : Nat) :
    o.heightAt (i + 1 + k) = o.heightAt (i + 1) := by
  induction k with
  | zero => rfl
  | succ k ih => rw [← Nat.add_assoc, heightAt_succ, ih, hidle _ (by omega), Nat.add_zero]

/-- One more block in attempt `i`, the last so far. -/
def send (o : AttemptOutcomes) (i : Nat) (hidle : ∀ j, i < j → o.blocks j = 0)
    (hlt : o.heightAt (i + 1) + 1 < 2 ^ 64) : AttemptOutcomes where
  start := o.start
  blocks j := if j = i then o.blocks i + 1 else o.blocks j
  inRange m := by
    have hsum : ∀ m, ((List.range m).map fun j => if j = i then o.blocks i + 1 else o.blocks j).sum =
        ((List.range m).map o.blocks).sum + if i < m then 1 else 0 := by
      intro m
      induction m with
      | zero => rfl
      | succ m ih =>
        rw [List.range_succ, List.map_append, List.sum_append, ih, List.map_append, List.sum_append,
          List.map_singleton, List.map_singleton, List.sum_singleton, List.sum_singleton]
        by_cases hmi : m = i
        · subst hmi
          rw [if_pos rfl, if_neg (Nat.lt_irrefl m), if_pos (Nat.lt_succ_self m)]
          omega
        · rw [if_neg hmi]
          split <;> split <;> omega
    have hheight : o.heightAt m ≤ o.heightAt (i + 1) := by
      by_cases hm : m ≤ i + 1
      · exact o.heightAt_mono hm
      · obtain ⟨k, rfl⟩ := Nat.exists_eq_add_of_le (Nat.le_of_not_le hm)
        rw [o.heightAt_of_idle hidle]
    unfold heightAt at hheight hlt
    rw [hsum]
    split <;> omega

end AttemptOutcomes

section
variable {D DB NH : Type}

/-- The stream of the attempt is not open yet. -/
def Attempt.unopened : Attempt D → Bool
  | .head => true
  | .pausing => true
  | .connecting => true
  | .useNode => true
  | .openStream => true
  | _ => false

/-- The loop has the variables that follow from the outcomes, the attempt it is in included. -/
structure AttemptOutcomes.Explains (o : AttemptOutcomes) (r : Rotation) (a : Attempt D) : Prop where
  rotation : r = (o.rotation r.idx).advance (o.blocks r.idx)
  last : ∀ j, r.idx < j → o.blocks j = 0
  unopened : a.unopened = true → o.blocks r.idx = 0

namespace AttemptOutcomes.Explains
variable {o : AttemptOutcomes} {r : Rotation} {a a' : Attempt D}

theorem start (h : AbsoluteBlockHeight) :
    (⟨h, fun _ => 0, fun i => by simp [h.toNat_lt]⟩ : AttemptOutcomes).Explains (.start h)
      (.head : Attempt D) :=
  ⟨rfl, fun _ _ => rfl, fun _ => rfl⟩

/-- The attempt goes on. -/
theorem goesOn (h : o.Explains r a) (hopen : a'.unopened = true → a.unopened = true) :
    o.Explains r a' :=
  ⟨h.rotation, h.last, fun ha => h.unopened (hopen ha)⟩

/-- The attempt fails, the next begins. -/
theorem cycle (h : o.Explains r a) : o.Explains r.cycle (.head : Attempt D) := by
  have hzero : o.blocks (r.idx + 1) = 0 := h.last _ (Nat.lt_succ_self _)
  refine ⟨?_, fun j hj => ?_, fun _ => ?_⟩
  · rw [Rotation.idx_cycle, hzero]
    show r.cycle = ((o.rotation r.idx).advance (o.blocks r.idx)).cycle
    rw [← h.rotation]
  · rw [Rotation.idx_cycle] at hj
    exact h.last j (by omega)
  · rw [Rotation.idx_cycle]
    exact hzero

/-- A block is sent. -/
theorem sent (h : o.Explains r a) (hlt : r.height.toNat + 1 < 2 ^ 64) (ha' : a'.unopened = false) :
    ∃ o' : AttemptOutcomes, o'.Explains r.sent a' := by
  have hheight : r.height.toNat = o.heightAt (r.idx + 1) := by
    have hnext := o.inRange (r.idx + 1)
    change o.heightAt (r.idx + 1) < 2 ^ 64 at hnext
    rw [o.heightAt_succ, ← (o.rotation_spec r.idx).height] at hnext
    rw [o.heightAt_succ, ← (o.rotation_spec r.idx).height, ← Rotation.height_advance _ hnext,
      ← h.rotation]
  let o' := o.send r.idx h.last (by rw [← hheight]; exact hlt)
  have hblocks : o'.blocks r.idx = o.blocks r.idx + 1 := if_pos rfl
  refine ⟨o', ?_, fun j hj => ?_, fun hopen => ?_⟩
  · have hsame : o'.rotation r.idx = o.rotation r.idx := by
      apply AttemptOutcomes.rotation_congr
      · rfl
      · intro j hj
        exact if_neg (Nat.ne_of_lt hj)
    show r.sent = (o'.rotation r.idx).advance (o'.blocks r.idx)
    rw [hsame, hblocks]
    show r.sent = ((o.rotation r.idx).advance (o.blocks r.idx)).sent
    rw [← h.rotation]
  · have hj : r.idx < j := hj
    show (if j = r.idx then _ else _) = 0
    rw [if_neg (Nat.ne_of_gt hj)]
    exact h.last j hj
  · rw [ha'] at hopen
    cases hopen

end AttemptOutcomes.Explains

theorem Attempt.Move.unopened {args : SharedIndexerArgs} {r : Rotation} {a a' : Attempt D}
    (h : Attempt.Move args r a a') (ha' : a'.unopened = true) : a.unopened = true := by
  cases h with
  | received hasError _ _ => cases ha'
  | chunkDone => cases ha'
  | _ => rfl

variable {setup : Setup D DB NH}

/-- Some outcomes explain the variables of the loop. -/
def Process.Explained (p : Process D NH) : Prop :=
  ∀ r a, p.node = .loop r a → ∃ o : AttemptOutcomes, o.Explains r a

/-- What a step of the node task does to the loop: it begins, or ends; or an attempt goes on, fails,
or sends a block. -/
theorem NodeStep.loop {p p' : Process D NH} (h : NodeStep setup p p') :
    (∃ x, p'.node = .loop (.start x) .head) ∨ (∃ result, p'.node = .returned result) ∨
    ∃ r a, p.node = .loop r a ∧
      ((∃ a', p'.node = .loop r a' ∧ (a'.unopened = true → a.unopened = true)) ∨
        p'.node = .loop r.cycle .head ∨
        ∃ data blocks hasError stream, a = .send data blocks hasError stream ∧
          p'.node = .loop r.sent (.chunk blocks hasError stream)) := by
  cases h with
  | heightReceived _ _ => exact Or.inl ⟨_, rfl⟩
  | heightDropped _ _ => exact Or.inr (Or.inl ⟨_, rfl⟩)
  | moved hn hmove => exact Or.inr (Or.inr ⟨_, _, hn, Or.inl ⟨_, rfl, hmove.unopened⟩⟩)
  | failed hn _ => exact Or.inr (Or.inr ⟨_, _, hn, Or.inr (Or.inl rfl)⟩)
  | nodeUsed hn _ => exact Or.inr (Or.inr ⟨_, _, hn, Or.inl ⟨_, rfl, fun _ => rfl⟩⟩)
  | nodeNotUsed hn _ => exact Or.inr (Or.inr ⟨_, _, hn, Or.inr (Or.inl rfl)⟩)
  | collected hn _ => exact Or.inr (Or.inr ⟨_, _, hn, Or.inl ⟨_, rfl, fun ha => by cases ha⟩⟩)
  | notCollected hn _ => exact Or.inr (Or.inr ⟨_, _, hn, Or.inr (Or.inl rfl)⟩)
  | sent hn _ _ => exact Or.inr (Or.inr ⟨_, _, hn, Or.inr (Or.inr ⟨_, _, _, _, rfl, rfl⟩)⟩)
  | closed _ _ => exact Or.inr (Or.inl ⟨_, rfl⟩)
  | shutdown _ _ => exact Or.inr (Or.inl ⟨_, rfl⟩)

theorem Process.Explained.node {p p' : Process D NH} (h : p.Explained)
    (hbelow : ∀ r data blocks hasError stream, p.node = .loop r (.send data blocks hasError stream) →
      r.height.toNat + 1 < 2 ^ 64) (hstep : NodeStep setup p p') : p'.Explained := by
  intro r' a' hn'
  rcases hstep.loop with ⟨x, hx⟩ | ⟨result, hresult⟩ | ⟨r, a, hn, hmove⟩
  · rw [hx] at hn'
    cases hn'
    exact ⟨_, .start x⟩
  · rw [hresult] at hn'
    cases hn'
  · obtain ⟨o, ho⟩ := h r a hn
    rcases hmove with ⟨a'', ha, hopen⟩ | hfail | ⟨data, blocks, hasError, stream, rfl, hsent⟩
    · rw [ha] at hn'
      cases hn'
      exact ⟨o, ho.goesOn hopen⟩
    · rw [hfail] at hn'
      cases hn'
      exact ⟨o, ho.cycle⟩
    · rw [hsent] at hn'
      cases hn'
      exact ho.sent (hbelow _ _ _ _ _ hn) rfl

/-- A block that is being sent is not the last of 64 bits. -/
theorem sending_below {s : Service D DB NH} (h : Reachable setup.service s) {p : Process D NH}
    (hp : s.process = some p) {r : Rotation} {data : D} {blocks : List AbsoluteBlockHeight}
    {hasError : Bool} {stream : AbsoluteBlockHeight}
    (hn : p.node = .loop r (.send data blocks hasError stream)) : r.height.toNat + 1 < 2 ^ 64 := by
  -- whatever the hooks collect
  have hserve : setup.nodeHooks.Serve (fun _ => True) (fun _ _ => True) :=
    ⟨fun _ _ _ _ _ => trivial, fun _ _ _ _ _ _ => ⟨trivial, fun _ _ => trivial⟩⟩
  obtain ⟨a, -, -, htracks⟩ := (service_follows_feed hserve trivial).reachable h
  exact ((htracks p hp).2.2.aligned _ _ hn).2.1

theorem DatabaseStep.node {db db' : DB} {p p' : Process D NH} {l : Action D}
    (h : DatabaseStep setup db p l db' p') : p'.node = p.node := by
  cases h <;> rfl

theorem explained_of_reachable {s : Service D DB NH} (h : Reachable setup.service s) :
    ∀ p, s.process = some p → p.Explained := by
  induction h with
  | init hi =>
    intro p hp
    rw [hi.2] at hp
    cases hp
  | step hreach hstep ih =>
    intro p hp
    cases hstep with
    | start =>
      obtain rfl := Option.some.inj hp
      intro r a hn
      cases hn
    | crash => cases hp
    | signal =>
      obtain rfl := Option.some.inj hp
      intro r a hn
      exact ih _ rfl r a hn
    | node hnode =>
      obtain rfl := Option.some.inj hp
      exact (ih _ rfl).node (fun _ _ _ _ _ => sending_below hreach rfl) hnode
    | database hd =>
      obtain rfl := Option.some.inj hp
      intro r a hn
      rw [hd.node] at hn
      exact ih _ rfl r a hn

/-- The node loop backs off exactly when all nodes have failed: its variables always follow from
the outcomes of the attempts so far; it pauses before an attempt when they say so; and for any
outcomes they say so exactly if the `n - 1` attempts before sent nothing, and there were `n`. -/
theorem rotation_backs_off (setup : Setup D DB NH) :
    (∀ s, Reachable setup.service s → ∀ p, s.process = some p → p.Explained) ∧
    (∀ r a, Attempt.Move (D := D) setup.args r .head a ↔
      (a = .pausing ∧ r.mustPause setup.args.numNodes = true) ∨
      (a = .connecting ∧ r.mustPause setup.args.numNodes = false)) ∧
    ∀ o : AttemptOutcomes, o.BacksOff setup.args.numNodes := by
  refine ⟨fun s hs => explained_of_reachable hs, fun r a => ?_, fun o =>
    o.backsOff setup.args.atLeastOne⟩
  constructor
  · intro hmove
    cases hmove with
    | pause hp => exact Or.inl ⟨rfl, hp⟩
    | connect hp => exact Or.inr ⟨rfl, hp⟩
  · rintro (⟨rfl, hp⟩ | ⟨rfl, hp⟩)
    · exact .pause hp
    · exact .connect hp

end

end WalletProxyIndexer
