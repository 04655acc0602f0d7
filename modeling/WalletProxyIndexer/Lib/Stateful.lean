import Mathlib

/-!
# Programs that keep their state when they fail

`Prog σ ε α`: a program over a state of type `σ` that ends with a value or an error,
and leaves a state either way.

`Keeps I m Q`: from a state with `I` the program leaves one with `I` also when it
fails, and a value it ends with satisfies `Q`.  `Yields I m Q`: from such a state it
does end with a value.  `Leaves P m Q`: a value and the state it is left with satisfy
`Q`.  `Same I m m'`: from a state with `I` both programs do the same.  The rules follow
the program.
-/

namespace Stateful

def Prog (σ ε α : Type) : Type := σ → Except ε α × σ

variable {σ ε α β : Type}

namespace Prog

instance : Monad (Prog σ ε) where
  pure a := fun s => (.ok a, s)
  bind m f := fun s => match m s with
    | (.ok a, s') => f a s'
    | (.error e, s') => (.error e, s')

def read : Prog σ ε σ := fun s => (.ok s, s)

def modify (f : σ → σ) : Prog σ ε Unit := fun s => (.ok (), f s)

def ofExcept (x : Except ε α) : Prog σ ε α := fun s => (x, s)

end Prog

def Keeps (I : σ → Prop) (m : Prog σ ε α) (Q : α → Prop) : Prop :=
  ∀ s, I s → I (m s).2 ∧ ∀ a, (m s).1 = .ok a → Q a

variable {I : σ → Prop} {Q : α → Prop}

theorem Keeps.pure {a : α} (h : Q a) : Keeps I (Pure.pure a : Prog σ ε α) Q := by
  intro s hs
  refine ⟨hs, fun b hb => ?_⟩
  obtain rfl : a = b := Except.ok.inj hb
  exact h

theorem Keeps.ofExcept {x : Except ε α} (h : ∀ a, x = .ok a → Q a) :
    Keeps I (Prog.ofExcept x) Q :=
  fun _ hs => ⟨hs, h⟩

theorem Keeps.read : Keeps I (Prog.read : Prog σ ε σ) I := by
  intro s hs
  refine ⟨hs, fun b hb => ?_⟩
  obtain rfl : s = b := Except.ok.inj hb
  exact hs

theorem Keeps.modify {f : σ → σ} (h : ∀ s, I s → I (f s)) :
    Keeps I (Prog.modify f : Prog σ ε Unit) fun _ => True :=
  fun s hs => ⟨h s hs, fun _ _ => trivial⟩

theorem Keeps.bind {m : Prog σ ε β} {f : β → Prog σ ε α} {R : β → Prop} (hm : Keeps I m R)
    (hf : ∀ b, R b → Keeps I (f b) Q) : Keeps I (m >>= f) Q := by
  intro s hs
  obtain ⟨hI, hR⟩ := hm s hs
  show I (match m s with
    | (.ok a, s') => f a s'
    | (.error e, s') => (.error e, s')).2 ∧ ∀ a, (match m s with
    | (.ok a, s') => f a s'
    | (.error e, s') => (.error e, s')).1 = .ok a → Q a
  rcases hr : m s with ⟨r, s'⟩
  rw [hr] at hI hR
  cases r with
  | ok b => exact hf b (hR b rfl) s' hI
  | error e => exact ⟨hI, fun a ha => by cases ha⟩

/-- A loop keeps what it accumulates in step with the elements done so far. -/
theorem Keeps.foldlM (xs : List α) (f : β → α → Prog σ ε β) (J : List α → β → Prop) {b : β}
    (h0 : J [] b) (h : ∀ done x rest b, xs = done ++ x :: rest → J done b →
      Keeps I (f b x) (J (done ++ [x]))) : Keeps I (xs.foldlM f b) (J xs) := by
  have go : ∀ rest done b, xs = done ++ rest → J done b → Keeps I (rest.foldlM f b) (J xs) := by
    intro rest
    induction rest with
    | nil =>
      intro done b hd hb
      rw [List.append_nil] at hd
      subst hd
      exact Keeps.pure hb
    | cons x rest ih =>
      intro done b hd hb
      exact Keeps.bind (h done x rest b hd hb) fun b' hb' => ih (done ++ [x]) b' (by rw [hd]; simp) hb'
  exact go xs [] b rfl h0

/-! ## Programs that do not fail -/

def Yields (I : σ → Prop) (m : Prog σ ε α) (Q : α → Prop) : Prop :=
  ∀ s, I s → I (m s).2 ∧ ∃ a, (m s).1 = .ok a ∧ Q a

theorem Yields.pure {a : α} (h : Q a) : Yields I (Pure.pure a : Prog σ ε α) Q :=
  fun _ hs => ⟨hs, a, rfl, h⟩

theorem Yields.ofExcept {x : Except ε α} {a : α} (hx : x = .ok a) (h : Q a) :
    Yields I (Prog.ofExcept x) Q :=
  fun _ hs => ⟨hs, a, hx, h⟩

theorem Yields.read : Yields I (Prog.read : Prog σ ε σ) I :=
  fun s hs => ⟨hs, s, rfl, hs⟩

theorem Yields.modify {f : σ → σ} (h : ∀ s, I s → I (f s)) :
    Yields I (Prog.modify f : Prog σ ε Unit) fun _ => True :=
  fun s hs => ⟨h s hs, (), rfl, trivial⟩

theorem Yields.bind {m : Prog σ ε β} {f : β → Prog σ ε α} {R : β → Prop} (hm : Yields I m R)
    (hf : ∀ b, R b → Yields I (f b) Q) : Yields I (m >>= f) Q := by
  intro s hs
  obtain ⟨hI, b, hb, hR⟩ := hm s hs
  show I (match m s with
    | (.ok a, s') => f a s'
    | (.error e, s') => (.error e, s')).2 ∧ ∃ a, (match m s with
    | (.ok a, s') => f a s'
    | (.error e, s') => (.error e, s')).1 = .ok a ∧ Q a
  rcases hr : m s with ⟨r, s'⟩
  rw [hr] at hI hb
  obtain rfl : r = .ok b := hb
  exact hf b hR s' hI

theorem Yields.foldlM (xs : List α) (f : β → α → Prog σ ε β) (J : List α → β → Prop) {b : β}
    (h0 : J [] b) (h : ∀ done x rest b, xs = done ++ x :: rest → J done b →
      Yields I (f b x) (J (done ++ [x]))) : Yields I (xs.foldlM f b) (J xs) := by
  have go : ∀ rest done b, xs = done ++ rest → J done b → Yields I (rest.foldlM f b) (J xs) := by
    intro rest
    induction rest with
    | nil =>
      intro done b hd hb
      rw [List.append_nil] at hd
      subst hd
      exact Yields.pure hb
    | cons x rest ih =>
      intro done b hd hb
      exact Yields.bind (h done x rest b hd hb) fun b' hb' => ih (done ++ [x]) b' (by rw [hd]; simp) hb'
  exact go xs [] b rfl h0

/-! ## The state at the end -/

/-- From a state with `P`, a value the program ends with and the state it leaves satisfy `Q`. -/
def Leaves (P : σ → Prop) (m : Prog σ ε α) (Q : α → σ → Prop) : Prop :=
  ∀ s a, P s → (m s).1 = .ok a → Q a (m s).2

variable {P Q : σ → Prop} {R : α → σ → Prop}

theorem Leaves.pure {a : α} (h : ∀ s, P s → R a s) : Leaves P (Pure.pure a : Prog σ ε α) R := by
  intro s b hs hb
  obtain rfl : a = b := Except.ok.inj hb
  exact h s hs

theorem Leaves.ofExcept {x : Except ε α} (h : ∀ s a, P s → x = .ok a → R a s) :
    Leaves P (Prog.ofExcept x) R :=
  h

theorem Leaves.read : Leaves P (Prog.read : Prog σ ε σ) fun s s' => s' = s ∧ P s := by
  intro s a hs ha
  obtain rfl : s = a := Except.ok.inj ha
  exact ⟨rfl, hs⟩

theorem Leaves.modify {f : σ → σ} (h : ∀ s, P s → Q (f s)) :
    Leaves P (Prog.modify f : Prog σ ε Unit) fun _ => Q :=
  fun s _ hs _ => h s hs

theorem Leaves.bind {m : Prog σ ε β} {f : β → Prog σ ε α} {T : β → σ → Prop} (hm : Leaves P m T)
    (hf : ∀ b, Leaves (T b) (f b) R) : Leaves P (m >>= f) R := by
  intro s a hs ha
  have hrun : (m >>= f) s = match m s with
    | (.ok b, s') => f b s'
    | (.error e, s') => (.error e, s') := rfl
  rw [hrun] at ha ⊢
  have hT := hm s
  rcases hr : m s with ⟨r, s'⟩
  rw [hr] at ha hT
  cases r with
  | ok b => exact hf b s' a (hT b hs rfl) ha
  | error e => cases ha

theorem Leaves.foldlM (xs : List α) (f : β → α → Prog σ ε β) (J : List α → β → σ → Prop) {b : β}
    (h0 : ∀ s, P s → J [] b s) (h : ∀ done x rest b, xs = done ++ x :: rest →
      Leaves (J done b) (f b x) (J (done ++ [x]))) : Leaves P (xs.foldlM f b) (J xs) := by
  have go : ∀ rest done b, xs = done ++ rest → Leaves (J done b) (rest.foldlM f b) (J xs) := by
    intro rest
    induction rest with
    | nil =>
      intro done b hd
      rw [List.append_nil] at hd
      subst hd
      exact Leaves.pure fun s hs => hs
    | cons x rest ih =>
      intro done b hd
      exact Leaves.bind (h done x rest b hd) fun b' => ih (done ++ [x]) b' (by rw [hd]; simp)
  intro s a hs ha
  exact go xs [] b rfl s a (h0 s hs) ha

/-! ## Programs that do the same -/

/-- From a state with `I` both programs do the same, and keep `I`. -/
def Same (I : σ → Prop) (m m' : Prog σ ε α) : Prop := ∀ s, I s → m s = m' s ∧ I (m s).2

theorem Same.of_keeps {m : Prog σ ε α} (h : Keeps I m fun _ => True) : Same I m m :=
  fun s hs => ⟨rfl, (h s hs).1⟩

theorem Same.bind {m m' : Prog σ ε β} {f f' : β → Prog σ ε α} (hm : Same I m m')
    (hf : ∀ b, Same I (f b) (f' b)) : Same I (m >>= f) (m' >>= f') := by
  intro s hs
  obtain ⟨heq, hI⟩ := hm s hs
  have hrun : ∀ (m : Prog σ ε β) (f : β → Prog σ ε α), (m >>= f) s = match m s with
    | (.ok b, s') => f b s'
    | (.error e, s') => (.error e, s') := fun _ _ => rfl
  rw [hrun, hrun, ← heq]
  rcases hr : m s with ⟨r, s'⟩
  rw [hr] at hI
  cases r with
  | ok b => exact hf b s' hI
  | error e => exact ⟨rfl, hI⟩

/-- The state that was read is one with `I`. -/
theorem Same.read {f f' : σ → Prog σ ε α} (h : ∀ s, I s → Same I (f s) (f' s)) :
    Same I (Prog.read >>= f) (Prog.read >>= f') :=
  fun s hs => h s hs s hs

theorem Same.foldlM (xs : List α) {f f' : β → α → Prog σ ε β} (h : ∀ b x, Same I (f b x) (f' b x))
    (b : β) : Same I (xs.foldlM f b) (xs.foldlM f' b) := by
  induction xs generalizing b with
  | nil => exact Same.of_keeps (Keeps.pure trivial)
  | cons x xs ih => exact Same.bind (h b x) fun b' => ih b'

end Stateful
