import WalletProxyIndexer.Lib.Transition

/-!
# Progress

Two rules about how much a system does.

* `Execution.busy_le`: if every step lowers a potential, except that some events may
  raise it by a known amount, then a run of `n` steps is paid for by the potential at
  its start and by the events in it.
* `exists_within`: if from every state short of a goal some step leads on and lowers a
  measure, the goal is at most that many steps away.
-/

namespace Transition

variable {σ Λ : Type}

/-! ## Charged steps -/

open Classical in
/-- 1 for what is the case. -/
noncomputable def tally (p : Prop) : Nat := if p then 1 else 0

@[simp] theorem tally_of {p : Prop} (h : p) : tally p = 1 := if_pos h

@[simp] theorem tally_of_not {p : Prop} (h : ¬p) : tally p = 0 := if_neg h

section
open Classical in
/-- How many of the `n` steps from moment `i` on are events of the given kind. -/
noncomputable def Execution.count {S : System σ Λ} (e : Execution S) (event : σ → Λ → σ → Prop)
    (i n : Nat) : Nat :=
  Nat.count (fun j => ∃ l, e.label (i + j) = some l ∧ event (e.state (i + j)) l (e.state (i + j + 1))) n

variable {S : System σ Λ} {e : Execution S} {event : σ → Λ → σ → Prop} {i n : Nat}

theorem Execution.count_zero : e.count event i 0 = 0 := by
  simp [Execution.count]

theorem Execution.count_succ {l : Λ} (hl : e.label (i + n) = some l) : e.count event i (n + 1) =
    e.count event i n + tally (event (e.state (i + n)) l (e.state (i + n + 1))) := by
  have hevent : (∃ l', e.label (i + n) = some l' ∧
      event (e.state (i + n)) l' (e.state (i + n + 1))) ↔
      event (e.state (i + n)) l (e.state (i + n + 1)) := by
    simp only [hl, Option.some.injEq]
    exact ⟨fun ⟨l', hl', h⟩ => hl' ▸ h, fun h => ⟨l, rfl, h⟩⟩
  unfold Execution.count
  rw [Nat.count_succ]
  by_cases h : event (e.state (i + n)) l (e.state (i + n + 1))
  · rw [if_pos (hevent.mpr h), tally_of h]
  · rw [if_neg (mt hevent.mp h), tally_of_not h]

theorem Execution.count_idle (hl : e.label (i + n) = none) :
    e.count event i (n + 1) = e.count event i n := by
  unfold Execution.count
  rw [Nat.count_succ, if_neg (by simp [hl]), Nat.add_zero]

/-- The events so far, after one more step. -/
theorem Execution.count_next {l : Λ} (hl : e.label i = some l) : e.count event 0 (i + 1) =
    e.count event 0 i + tally (event (e.state i) l (e.state (i + 1))) := by
  have hsucc : e.count event 0 (i + 1) =
      e.count event 0 i + tally (event (e.state (0 + i)) l (e.state (0 + i + 1))) :=
    Execution.count_succ (by rw [Nat.zero_add]; exact hl)
  rwa [Nat.zero_add] at hsucc

theorem Execution.count_le_next : e.count event 0 i ≤ e.count event 0 (i + 1) := by
  cases hl : e.label i with
  | none => exact Nat.le_of_eq (Execution.count_idle (i := 0) (by rw [Nat.zero_add]; exact hl)).symm
  | some l =>
    rw [Execution.count_next hl]
    exact Nat.le_add_right _ _

theorem Execution.count_eq_zero (h : ∀ j l, i ≤ j → j < i + n → e.label j = some l →
    ¬event (e.state j) l (e.state (j + 1))) : e.count event i n = 0 := by
  classical
  unfold Execution.count
  rw [Nat.count_iff_forall_not]
  rintro j hj ⟨l, hl, hevent⟩
  exact h (i + j) l (by omega) (by omega) hl hevent

/-- The steps of an execution from moment `i` on, none of them idle. -/
def Execution.Busy (e : Execution S) (i n : Nat) : Prop := ∀ j, j < n → ∃ l, e.label (i + j) = some l

/-- A charge for each kind of event: what one step may cost. -/
noncomputable def charge {κ : Type} (kinds : List κ) (cost : κ → Nat) (event : κ → σ → Λ → σ → Prop)
    (s : σ) (l : Λ) (s' : σ) : Nat :=
  (kinds.map fun k => cost k * tally (event k s l s')).sum

theorem Execution.step_of_label {l : Λ} (hl : e.label i = some l) :
    S.step (e.state i) l (e.state (i + 1)) := by
  have hmove := e.moves i
  rw [hl] at hmove
  exact hmove

/-- A charge covers the cost of each event that occurs. -/
theorem cost_le_charge {κ : Type} {kinds : List κ} {cost : κ → Nat} {event : κ → σ → Λ → σ → Prop}
    {k : κ} (hk : k ∈ kinds) {s s' : σ} {l : Λ} (h : event k s l s') :
    cost k ≤ charge kinds cost event s l s' := by
  unfold charge
  have hmem := List.le_sum_of_mem (List.mem_map_of_mem (f := fun k => cost k * tally (event k s l s')) hk)
  rw [tally_of h, Nat.mul_one] at hmem
  exact hmem

/-- A run is paid for by the potential it starts with and by its events. -/
theorem Execution.busy_le {κ : Type} (kinds : List κ) (cost : κ → Nat) (event : κ → σ → Λ → σ → Prop)
    (μ : σ → Nat) (hstep : ∀ j l, i ≤ j → j < i + n → e.label j = some l →
      μ (e.state (j + 1)) + 1 ≤ μ (e.state j) + charge kinds cost event (e.state j) l (e.state (j + 1)))
    (hbusy : e.Busy i n) : n + μ (e.state (i + n)) ≤
      μ (e.state i) + (kinds.map fun k => cost k * e.count (event k) i n).sum := by
  induction n with
  | zero => simp [Execution.count_zero]
  | succ n ih =>
    have hn := ih (fun j l hij hj => hstep j l hij (by omega)) fun j hj => hbusy j (by omega)
    obtain ⟨l, hl⟩ := hbusy n (Nat.lt_succ_self n)
    have hpaid := hstep (i + n) l (by omega) (by omega) hl
    have hsum : (kinds.map fun k => cost k * e.count (event k) i (n + 1)).sum =
        (kinds.map fun k => cost k * e.count (event k) i n).sum +
          charge kinds cost event (e.state (i + n)) l (e.state (i + n + 1)) := by
      unfold charge
      rw [← List.sum_map_add]
      congr 1
      apply List.map_congr_left
      intro k _
      rw [Execution.count_succ hl, Nat.mul_add]
    rw [hsum, ← Nat.add_assoc]
    omega

end

/-- What can be chosen at one moment after the other can be chosen along the whole run. -/
theorem exists_along {α : Type} (P : Nat → α → Prop) (r : α → α → Prop) (h0 : ∃ a, P 0 a)
    (hs : ∀ i a, P i a → ∃ a', r a a' ∧ P (i + 1) a') :
    ∃ f : Nat → α, ∀ i, P i (f i) ∧ r (f i) (f (i + 1)) := by
  let go : (i : Nat) → { a : α // P i a } := fun i =>
    Nat.rec ⟨h0.choose, h0.choose_spec⟩
      (fun i a => ⟨(hs i a.1 a.2).choose, (hs i a.1 a.2).choose_spec.2⟩) i
  exact ⟨fun i => (go i).1, fun i => ⟨(go i).2, (hs i (go i).1 (go i).2).choose_spec.1⟩⟩

/-! ## Reaching a goal -/

/-- `s'` is at most `n` steps away from `s`. -/
inductive Within (S : System σ Λ) : Nat → σ → σ → Prop where
  | refl {n : Nat} {s : σ} : Within S n s s
  | step {n : Nat} {s s' s'' : σ} {l : Λ} : S.step s l s' → Within S n s' s'' → Within S (n + 1) s s''

section
variable {S : System σ Λ} {n m : Nat} {s s' s'' : σ}

theorem Within.mono (h : Within S n s s') (hnm : n ≤ m) : Within S m s s' := by
  induction h generalizing m with
  | refl => exact .refl
  | step hstep _ ih =>
    obtain ⟨m, rfl⟩ := Nat.exists_eq_add_of_le' (Nat.one_le_of_lt hnm)
    exact .step hstep (ih (by omega))

theorem Within.trans (h : Within S n s s') (h' : Within S m s' s'') : Within S (n + m) s s'' := by
  induction h with
  | refl => exact h'.mono (by omega)
  | step hstep _ ih =>
    rw [Nat.add_right_comm]
    exact .step hstep (ih h')

theorem Within.reachable (h : Within S n s s') (hs : Reachable S s) : Reachable S s' := by
  induction h with
  | refl => exact hs
  | step hstep _ ih => exact ih (.step hs hstep)

/-- What the steps keep holds at the end. -/
theorem Within.invariant {I : σ → Prop} (h : Within S n s s')
    (hI : ∀ s l s', I s → S.step s l s' → I s') (hs : I s) : I s' := by
  induction h with
  | refl => exact hs
  | step hstep _ ih => exact ih (hI _ _ _ hs hstep)

/-- Short of the goal some step leads on and lowers the measure: the goal is within reach. -/
theorem exists_within {I G : σ → Prop} (μ : σ → Nat)
    (h : ∀ s, I s → G s ∨ ∃ l s', S.step s l s' ∧ I s' ∧ μ s' < μ s) (hs : I s) :
    ∃ s', Within S (μ s) s s' ∧ I s' ∧ G s' := by
  induction hμ : μ s using Nat.strong_induction_on generalizing s with
  | _ k ih =>
    subst hμ
    rcases h s hs with hgoal | ⟨l, s₁, hstep, hs₁, hlt⟩
    · exact ⟨s, .refl, hs, hgoal⟩
    · obtain ⟨s', hwithin, hI, hG⟩ := ih (μ s₁) hlt hs₁ rfl
      exact ⟨s', (Within.step hstep hwithin).mono (by omega), hI, hG⟩

end

end Transition
