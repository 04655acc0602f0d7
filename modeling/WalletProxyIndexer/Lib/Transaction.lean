import Mathlib

/-!
# Database transactions

`Txn σ ε α`: a program of statements over a working copy of type `σ`, which ends
with a value or with the first error `ε`.  The working copy keeps what was written
before an error; `transaction` decides what the database keeps: everything on
commit, `Rollback.rollback` of it otherwise.

The connection may break at any statement: `Session.survives` counts the statements
it still carries (`none`: it does not break), and a statement on a broken connection
returns `Connection.closed`.

`Triple P m Q E`: from a working copy with `P`, the program `m` ends with `Q`, or
with an error in `E`, or on a connection that broke.  The rules `Triple.bind`,
`Triple.forM`, … follow the program; `transaction_of_triple` brings the result back to
the database.
-/

namespace Transaction

variable {σ ε α β : Type}

structure Session (σ : Type) where
  work : σ
  survives : Option Nat

def Txn (σ ε α : Type) : Type := Session σ → Except ε α × Session σ

/-- The error of a statement on a broken connection. -/
class Connection (ε : Type) where
  closed : ε

/-- What an aborted transaction leaves, from the state before it and its working copy. -/
class Rollback (σ : Type) where
  rollback : σ → σ → σ

namespace Txn

instance : Monad (Txn σ ε) where
  pure a := fun s => (.ok a, s)
  bind m f := fun s => match m s with
    | (.ok a, s') => f a s'
    | (.error e, s') => (.error e, s')

def fail (e : ε) : Txn σ ε α := fun s => (.error e, s)

def ofExcept : Except ε α → Txn σ ε α
  | .ok a => pure a
  | .error e => fail e

/-- One statement sent over the connection. -/
def statement [Connection ε] (f : σ → Except ε (α × σ)) : Txn σ ε α := fun s =>
  if s.survives = some 0 then (.error Connection.closed, s)
  else match f s.work with
    | .ok (a, w) => (.ok a, ⟨w, s.survives.map (· - 1)⟩)
    | .error e => (.error e, ⟨s.work, s.survives.map (· - 1)⟩)

theorem bind_run (m : Txn σ ε β) (f : β → Txn σ ε α) (s : Session σ) : (m >>= f) s =
    match m s with
    | (.ok a, s') => f a s'
    | (.error e, s') => (.error e, s') := rfl

theorem forM_append_ok {xs ys : List β} {f : β → Txn σ ε PUnit} {s s' : Session σ}
    (h : xs.forM f s = (.ok ⟨⟩, s')) : (xs ++ ys).forM f s = ys.forM f s' := by
  induction xs generalizing s with
  | nil =>
    obtain ⟨-, rfl⟩ := Prod.mk.inj h
    rfl
  | cons x xs ih =>
    show (f x >>= fun _ => (xs ++ ys).forM f) s = _
    have h : (f x >>= fun _ => xs.forM f) s = (.ok ⟨⟩, s') := h
    rw [bind_run] at h ⊢
    rcases hx : f x s with ⟨_ | _, s₁⟩
    · rw [hx] at h; cases (Prod.mk.inj h).1
    · rw [hx] at h; exact ih h

end Txn

/-- A statement that leaves the working copy as it is (`BEGIN`, `COMMIT`). -/
def Txn.mark [Connection ε] : Txn σ ε PUnit := statement fun w => .ok (⟨⟩, w)

/-- `BEGIN`, the body, `COMMIT`. -/
def Txn.bracket [Connection ε] (body : Txn σ ε α) : Txn σ ε α := do
  mark
  let a ← body
  mark
  pure a

/-- The database keeps the working copy of a bracketed body that reached its end, and
rolls it back at the first error. -/
def transaction [Connection ε] [Rollback σ] (body : Txn σ ε α) (survives : Option Nat) (db : σ) :
    Except ε α × σ :=
  match body.bracket ⟨db, survives⟩ with
  | (.ok a, s) => (.ok a, s.work)
  | (.error e, s) => (.error e, Rollback.rollback db s.work)

/-! ## Triples -/

/-- The result `r` of a run that started on a connection that survives `n`. -/
def Ends [Connection ε] (n : Option Nat) (Q : α → σ → Prop) (E : ε → Prop) :
    Except ε α × Session σ → Prop
  | (.ok a, s) => Q a s.work ∧ (n = none → s.survives = none)
  | (.error e, _) => E e ∨ (e = Connection.closed ∧ n ≠ none)

def Triple [Connection ε] (P : σ → Prop) (m : Txn σ ε α) (Q : α → σ → Prop) (E : ε → Prop) : Prop :=
  ∀ s : Session σ, P s.work → Ends s.survives Q E (m s)

section
variable [Connection ε] {P : σ → Prop} {Q : α → σ → Prop} {E : ε → Prop}

theorem Triple.pure {a : α} (h : ∀ w, P w → Q a w) : Triple P (Pure.pure a : Txn σ ε α) Q E :=
  fun _ hs => ⟨h _ hs, id⟩

theorem Triple.fail {e : ε} (h : ∀ w, P w → E e) : Triple P (Txn.fail e : Txn σ ε α) Q E :=
  fun s hs => Or.inl (h s.work hs)

theorem Triple.ofExcept {x : Except ε α} (h : ∀ w, P w → match x with
      | .ok a => Q a w
      | .error e => E e) : Triple P (Txn.ofExcept x : Txn σ ε α) Q E := by
  cases x with
  | ok a => exact Triple.pure h
  | error e => exact Triple.fail h

theorem Triple.bind {m : Txn σ ε β} {f : β → Txn σ ε α} {R : β → σ → Prop}
    (hm : Triple P m R E) (hf : ∀ b, Triple (R b) (f b) Q E) : Triple P (m >>= f) Q E := by
  intro s hs
  have h := hm s hs
  rw [Txn.bind_run]
  rcases hr : m s with ⟨r, s'⟩
  rw [hr] at h
  cases r with
  | error e => exact h
  | ok b =>
    have h' := hf b s' h.1
    show Ends s.survives Q E (f b s')
    rcases hr' : f b s' with ⟨r', s''⟩
    rw [hr'] at h'
    -- a connection that was healthy before `m` is healthy after it
    cases r' with
    | error e => exact Or.imp id (fun he => ⟨he.1, fun h0 => he.2 (h.2 h0)⟩) h'
    | ok a => exact ⟨h'.1, fun h0 => h'.2 (h.2 h0)⟩

/-- What a run that ended with a value satisfies. -/
theorem Triple.result {m : Txn σ ε α} (h : Triple P m Q E) {s s' : Session σ} {a : α}
    (hs : P s.work) (hr : m s = (.ok a, s')) : Q a s'.work := by
  have h' := h s hs
  rw [hr] at h'
  exact h'.1

/-- Without errors, and on a healthy connection, a run ends with a value. -/
theorem Triple.succeeds {m : Txn σ ε α} (h : Triple P m Q fun _ => False) {s : Session σ}
    (hs : P s.work) (hn : s.survives = none) : ∃ a s', m s = (.ok a, s') := by
  have h' := h s hs
  rcases hr : m s with ⟨r, s'⟩
  rw [hr] at h'
  cases r with
  | ok a => exact ⟨a, s', rfl⟩
  | error e => exact absurd hn (h'.resolve_left id).2

theorem Triple.conseq {P' : σ → Prop} {Q' : α → σ → Prop} {E' : ε → Prop} {m : Txn σ ε α}
    (h : Triple P' m Q' E') (hP : ∀ w, P w → P' w) (hQ : ∀ a w, Q' a w → Q a w)
    (hE : ∀ e, E' e → E e) : Triple P m Q E := by
  intro s hs
  have h' := h s (hP _ hs)
  rcases hr : m s with ⟨r, s'⟩
  rw [hr] at h'
  cases r with
  | error e => exact h'.imp (hE e) id
  | ok a => exact ⟨hQ _ _ h'.1, h'.2⟩

/-- A fact about no state is carried along. -/
theorem Triple.carry {φ : Prop} {m : Txn σ ε α} (h : φ → Triple P m Q E) :
    Triple (fun w => P w ∧ φ) m (fun a w => Q a w ∧ φ) E := by
  rintro s ⟨hs, hφ⟩
  exact ((h hφ).conseq (Q := fun a w => Q a w ∧ φ) (fun _ => id) (fun _ _ hq => ⟨hq, hφ⟩)
    (fun _ => id)) s hs

theorem Triple.statement {f : σ → Except ε (α × σ)}
    (h : ∀ w, P w → match f w with
      | .ok (a, w') => Q a w'
      | .error e => E e) : Triple P (Txn.statement f) Q E := by
  intro s hs
  have h' := h s.work hs
  unfold Txn.statement
  split
  · next h0 => exact Or.inr ⟨rfl, by rw [h0]; simp⟩
  · split
    · next he => rw [he] at h'; exact ⟨h', fun h0 => by simp [h0]⟩
    · next he => rw [he] at h'; exact Or.inl h'

/-- A loop keeps an invariant that speaks of the elements done so far. -/
theorem Triple.forM (xs : List β) (f : β → Txn σ ε PUnit) (I : List β → σ → Prop)
    (h : ∀ done x rest, xs = done ++ x :: rest →
      Triple (I done) (f x) (fun _ => I (done ++ [x])) E) :
    Triple (I []) (xs.forM f) (fun _ => I xs) E := by
  have go : ∀ rest done, xs = done ++ rest → Triple (I done) (rest.forM f) (fun _ => I xs) E := by
    intro rest
    induction rest with
    | nil =>
      intro done hd
      rw [List.append_nil] at hd
      subst hd
      exact Triple.pure fun _ => id
    | cons x rest ih =>
      intro done hd
      exact Triple.bind (h done x rest hd) fun _ => ih (done ++ [x]) (by rw [hd]; simp)
  exact go xs [] rfl

/-- A loop keeps what each of its turns keeps. -/
theorem Triple.each (xs : List β) (f : β → Txn σ ε PUnit) {I : σ → Prop}
    (h : ∀ x, Triple I (f x) (fun _ => I) E) : Triple I (xs.forM f) (fun _ => I) E :=
  Triple.forM xs f (fun _ => I) fun _ x _ _ => h x

theorem Triple.bracket {body : Txn σ ε α} (h : Triple P body Q E) : Triple P body.bracket Q E := by
  refine Triple.bind (R := fun _ => P) (Triple.statement fun _ hw => hw) fun _ => ?_
  refine Triple.bind h fun a => ?_
  refine Triple.bind (R := fun _ => Q a) (Triple.statement fun _ hw => hw) fun _ => ?_
  exact Triple.pure fun _ hw => hw

/-- What commits satisfies `Q`; what does not is rolled back, with an error in `E` unless
the connection broke. -/
theorem transaction_of_triple [Rollback σ] {body : Txn σ ε α} (h : Triple P body Q E)
    {n : Option Nat} {db : σ} (hdb : P db) :
    match transaction body n db with
    | (.ok a, db') => Q a db'
    | (.error e, db') => (∃ w, db' = Rollback.rollback db w) ∧
        (E e ∨ (e = Connection.closed ∧ n ≠ none)) := by
  have h' := h.bracket ⟨db, n⟩ hdb
  unfold transaction
  rcases hr : body.bracket ⟨db, n⟩ with ⟨r, s⟩
  rw [hr] at h'
  cases r with
  | ok a => exact h'.1
  | error e => exact ⟨⟨_, rfl⟩, h'⟩

end

end Transaction
