import Mathlib

/-!
# Labelled transition systems

A `System` has initial states and labelled steps.  `Reachable` is what any finite
run leads to.  An `Execution` is an infinite run in which a step may also do
nothing (`label i = none`), so finite runs, and runs where everybody waits, are
executions too.

* `Reachable.invariant`: what holds initially and is kept by each step always holds.
* `Execution.exists_monotone`: a measure that each step keeps or raises can be
  chosen along a whole execution so that it never decreases.
* `Simulation`: an abstract system follows a concrete one; every concrete
  reachable state is related to an abstract reachable one (`Simulation.reachable`),
  and a measure of the abstract system carries over (`Simulation.exists_monotone`).
-/

namespace Transition

structure System (σ Λ : Type) where
  init : σ → Prop
  step : σ → Λ → σ → Prop

variable {σ τ Λ M : Type}

/-- The steps of `S` that satisfy `P` (a condition on the state before, and on the label). -/
def System.restrict (S : System σ Λ) (P : σ → Λ → Prop) : System σ Λ where
  init := S.init
  step := fun s l s' => P s l ∧ S.step s l s'

inductive Reachable (S : System σ Λ) : σ → Prop where
  | init {s : σ} : S.init s → Reachable S s
  | step {s s' : σ} {l : Λ} : Reachable S s → S.step s l s' → Reachable S s'

theorem Reachable.invariant {S : System σ Λ} {I : σ → Prop} (h0 : ∀ s, S.init s → I s)
    (hs : ∀ s l s', I s → S.step s l s' → I s') {s : σ} (h : Reachable S s) : I s := by
  induction h with
  | init hi => exact h0 _ hi
  | step _ hstep ih => exact hs _ _ _ ih hstep

theorem Reachable.unrestrict {S : System σ Λ} {P : σ → Λ → Prop} {s : σ}
    (h : Reachable (S.restrict P) s) : Reachable S s := by
  induction h with
  | init hi => exact .init hi
  | step _ hstep ih => exact .step ih hstep.2

theorem Reachable.restrict_mono {S : System σ Λ} {P Q : σ → Λ → Prop} (hPQ : ∀ s l, P s l → Q s l)
    {s : σ} (h : Reachable (S.restrict P) s) : Reachable (S.restrict Q) s := by
  induction h with
  | init hi => exact .init hi
  | step _ hstep ih => exact .step ih ⟨hPQ _ _ hstep.1, hstep.2⟩

structure Execution (S : System σ Λ) where
  state : Nat → σ
  label : Nat → Option Λ
  starts : S.init (state 0)
  moves : ∀ i, match label i with
    | none => state (i + 1) = state i
    | some l => S.step (state i) l (state (i + 1))

/-- One step, and nothing after it. -/
def Execution.once {S : System σ Λ} {s s' : σ} {l : Λ} (hinit : S.init s) (hstep : S.step s l s') :
    Execution S where
  state i := if i = 0 then s else s'
  label i := if i = 0 then some l else none
  starts := hinit
  moves i := by
    cases i with
    | zero => exact hstep
    | succ i => rfl

/-- Each move of an execution stays put or is a step of the system. -/
theorem Execution.next (S : System σ Λ) (e : Execution S) (i : Nat) :
    e.state (i + 1) = e.state i ∨ ∃ l, e.label i = some l ∧ S.step (e.state i) l (e.state (i + 1)) := by
  have h := e.moves i
  cases hl : e.label i with
  | none => rw [hl] at h; exact Or.inl h
  | some l => rw [hl] at h; exact Or.inr ⟨l, rfl, h⟩

theorem Execution.reachable {S : System σ Λ} (e : Execution S) (i : Nat) :
    Reachable S (e.state i) := by
  induction i with
  | zero => exact .init e.starts
  | succ i ih =>
    rcases e.next S i with heq | ⟨l, -, hstep⟩
    · rw [heq]; exact ih
    · exact .step ih hstep

/-- An execution that stays somewhere can take a step from there instead, and stay after it. -/
theorem Execution.exists_step {S : System σ Λ} (e : Execution S) {s s' : σ} {l : Λ} {i : Nat}
    (he : ∀ j, i ≤ j → e.state j = s ∧ e.label j = none) (hstep : S.step s l s') :
    ∃ e' : Execution S, e'.state i = s ∧ e'.label i = some l ∧
      ∀ j, i + 1 ≤ j → e'.state j = s' ∧ e'.label j = none := by
  refine ⟨⟨fun j => if j ≤ i then e.state j else s',
    fun j => if j < i then e.label j else if j = i then some l else none, ?_, fun j => ?_⟩,
    ?_, ?_, fun j hj => ⟨if_neg (by omega), ?_⟩⟩
  · rw [if_pos (Nat.zero_le i)]
    exact e.starts
  · rcases Nat.lt_trichotomy j i with hlt | rfl | hgt
    · rw [if_pos hlt, if_pos (Nat.le_of_lt hlt), if_pos (Nat.succ_le_of_lt hlt)]
      exact e.moves j
    · rw [if_neg (Nat.lt_irrefl j), if_pos rfl, if_pos (Nat.le_refl j), if_neg (by omega),
        (he j (Nat.le_refl j)).1]
      exact hstep
    · rw [if_neg (by omega), if_neg (by omega), if_neg (by omega), if_neg (by omega)]
  · show (if i ≤ i then _ else _) = s
    rw [if_pos (Nat.le_refl i)]
    exact (he i (Nat.le_refl i)).1
  · show (if i < i then _ else _) = _
    rw [if_neg (Nat.lt_irrefl i), if_pos rfl]
  · show (if j < i then _ else _) = _
    rw [if_neg (by omega), if_neg (by omega)]

/-- What is reachable is where some execution stays from some moment on. -/
theorem Reachable.exists_execution {S : System σ Λ} {s : σ} (h : Reachable S s) :
    ∃ (e : Execution S) (i : Nat), ∀ j, i ≤ j → e.state j = s ∧ e.label j = none := by
  induction h with
  | @init s hi => exact ⟨⟨fun _ => s, fun _ => none, hi, fun _ => rfl⟩, 0, fun j _ => ⟨rfl, rfl⟩⟩
  | step _ hstep ih =>
    obtain ⟨e, i, he⟩ := ih
    obtain ⟨e', -, -, he'⟩ := e.exists_step he hstep
    exact ⟨e', i + 1, he'⟩

/-- An execution whose first `i` steps satisfy `P` runs in the restricted system up to there. -/
theorem Execution.reachable_restrict {S : System σ Λ} (e : Execution S) {P : σ → Λ → Prop} {i : Nat}
    (h : ∀ j < i, ∀ l, e.label j = some l → P (e.state j) l) :
    Reachable (S.restrict P) (e.state i) := by
  induction i with
  | zero => exact .init e.starts
  | succ i ih =>
    have hi := ih fun j hj => h j (by omega)
    rcases e.next S i with heq | ⟨l, hl, hstep⟩
    · rw [heq]; exact hi
    · exact .step hi ⟨h i (by omega) l hl, hstep⟩

/-- A measure `k` that each step keeps or raises never decreases along an execution. -/
theorem Execution.exists_monotone {ι : Type} [Preorder ι] {S : System σ Λ} (I : ι → σ → Prop)
    (h0 : ∀ s, S.init s → ∃ k, I k s)
    (hs : ∀ k s l s', I k s → S.step s l s' → ∃ k', k ≤ k' ∧ I k' s') (e : Execution S) :
    ∃ k : Nat → ι, Monotone k ∧ ∀ i, I (k i) (e.state i) := by
  have hnext : ∀ i k, I k (e.state i) → ∃ k', k ≤ k' ∧ I k' (e.state (i + 1)) := by
    intro i k hk
    rcases e.next S i with h | ⟨l, -, h⟩
    · exact ⟨k, le_refl k, by rw [h]; exact hk⟩
    · exact hs k _ l _ hk h
  obtain ⟨k0, hk0⟩ := h0 _ e.starts
  -- the measure is built step by step, each value together with the fact it satisfies
  let go : (i : Nat) → { k : ι // I k (e.state i) } := fun i =>
    Nat.rec ⟨k0, hk0⟩ (fun i k => ⟨(hnext i k.1 k.2).choose, (hnext i k.1 k.2).choose_spec.2⟩) i
  refine ⟨fun i => (go i).1, monotone_nat_of_le_succ fun i => ?_, fun i => (go i).2⟩
  exact (hnext i (go i).1 (go i).2).choose_spec.1

/-- `A` follows `C` under `R`: each step of `C` is a step of `A` with a label that `L` relates
to it, or `A` waits. -/
structure Simulation (C : System σ Λ) (A : System τ M) (R : σ → τ → Prop) (L : Λ → M → Prop) :
    Prop where
  init : ∀ s, C.init s → ∃ a, A.init a ∧ R s a
  step : ∀ s l s' a, R s a → C.step s l s' → R s' a ∨ ∃ m a', L l m ∧ A.step a m a' ∧ R s' a'

section
variable {C : System σ Λ} {A : System τ M} {R : σ → τ → Prop} {L : Λ → M → Prop}

/-- A condition on the steps of `C` is followed as the condition it means for `A`. -/
theorem Simulation.restrict (h : Simulation C A R L) {P : σ → Λ → Prop} {Q : τ → M → Prop}
    (hPQ : ∀ s a l m, R s a → L l m → P s l → Q a m) :
    Simulation (C.restrict P) (A.restrict Q) R L where
  init := h.init
  step := by
    rintro s l s' a hr ⟨hp, hstep⟩
    rcases h.step s l s' a hr hstep with hr' | ⟨m, a', hl, hm, hr'⟩
    · exact Or.inl hr'
    · exact Or.inr ⟨m, a', hl, ⟨hPQ s a l m hr hl hp, hm⟩, hr'⟩

theorem Simulation.reachable (h : Simulation C A R L) {s : σ} (hs : Reachable C s) :
    ∃ a, Reachable A a ∧ R s a := by
  induction hs with
  | init hi =>
    obtain ⟨a, ha, hr⟩ := h.init _ hi
    exact ⟨a, .init ha, hr⟩
  | step _ hstep ih =>
    obtain ⟨a, ha, hr⟩ := ih
    rcases h.step _ _ _ a hr hstep with hr' | ⟨m, a', -, hm, hr'⟩
    · exact ⟨a, ha, hr'⟩
    · exact ⟨a', .step ha hm, hr'⟩

/-- A measure of the abstract system that its steps keep or raise never decreases along a
concrete execution. -/
theorem Simulation.exists_monotone {ι : Type} [Preorder ι] (h : Simulation C A R L)
    (I : ι → τ → Prop) (h0 : ∀ a, A.init a → ∃ k, I k a)
    (hs : ∀ k a m a', I k a → A.step a m a' → ∃ k', k ≤ k' ∧ I k' a') (e : Execution C) :
    ∃ k : Nat → ι, Monotone k ∧ ∀ i, ∃ a, R (e.state i) a ∧ I (k i) a := by
  refine e.exists_monotone (fun k s => ∃ a, R s a ∧ I k a) ?_ ?_
  · intro s hs
    obtain ⟨a, ha, hr⟩ := h.init s hs
    obtain ⟨k, hk⟩ := h0 a ha
    exact ⟨k, a, hr, hk⟩
  · rintro k s l s' ⟨a, hr, hk⟩ hstep
    rcases h.step _ _ _ a hr hstep with hr' | ⟨m, a', -, hm, hr'⟩
    · exact ⟨k, le_refl _, a, hr', hk⟩
    · obtain ⟨k', hle, hk'⟩ := hs k a m a' hk hm
      exact ⟨k', hle, a', hr', hk'⟩

end

end Transition
