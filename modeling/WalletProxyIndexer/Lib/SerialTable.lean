import Mathlib

/-!
# Tables with generated ids

A table whose rows carry an id drawn from the table's own sequence.  Ids only
grow, rows are kept in id order, and the sequence stays above every id used; the
structure carries these facts, so no table breaks them.

A rolled back transaction restores the rows but not the sequence
(`SerialTable.rollback`), so ids may have gaps.

`position id` is the place of a row in id order.  It is what remains of an id
once generated values are forgotten: inserting never moves an earlier row
(`position_insert`), and the new row comes last (`position_insert_self`).
-/

structure SerialTable (ρ : Type) where
  /-- rows with their ids, in id order -/
  rows : List (Nat × ρ)
  /-- next value of the sequence -/
  seq : Nat
  ascending : (rows.map Prod.fst).Pairwise (· < ·)
  below : ∀ r ∈ rows, r.1 < seq

namespace SerialTable

variable {ρ : Type}

def empty : SerialTable ρ := ⟨[], 1, .nil, by simp⟩

def ids (t : SerialTable ρ) : List Nat := t.rows.map Prod.fst

/-- The rows without their ids, in id order. -/
def values (t : SerialTable ρ) : List ρ := t.rows.map Prod.snd

def position (t : SerialTable ρ) (id : Nat) : Nat := t.ids.idxOf id

/-- `INSERT … RETURNING id` -/
def insert (t : SerialTable ρ) (r : ρ) : Nat × SerialTable ρ :=
  (t.seq, {
    rows := t.rows ++ [(t.seq, r)]
    seq := t.seq + 1
    ascending := by
      rw [List.map_append]
      refine List.pairwise_append.mpr ⟨t.ascending, by simp, ?_⟩
      intro a ha b hb
      obtain ⟨r, hr, rfl⟩ := List.mem_map.mp ha
      simp only [List.map_cons, List.map_nil, List.mem_singleton] at hb
      rw [hb]
      exact t.below r hr
    below := by
      intro r hr
      rcases List.mem_append.mp hr with hr | hr
      · exact Nat.lt_succ_of_lt (t.below r hr)
      · rw [List.mem_singleton.mp hr]; exact Nat.lt_succ_self _ })

/-- A sequence value drawn for a row that is not inserted. -/
def burn (t : SerialTable ρ) : SerialTable ρ :=
  { t with seq := t.seq + 1, below := fun r hr => Nat.lt_succ_of_lt (t.below r hr) }

/-- `UPDATE … SET … WHERE p` -/
def update (t : SerialTable ρ) (p : ρ → Bool) (f : ρ → ρ) : SerialTable ρ where
  rows := t.rows.map fun r => if p r.2 then (r.1, f r.2) else r
  seq := t.seq
  ascending := by
    have h : (t.rows.map fun r => if p r.2 then (r.1, f r.2) else r).map Prod.fst =
        t.rows.map Prod.fst := by
      rw [List.map_map]
      refine List.map_congr_left fun r _ => ?_
      simp only [Function.comp_apply]
      split <;> rfl
    rw [h]; exact t.ascending
  below := by
    intro r hr
    obtain ⟨r', hr', rfl⟩ := List.mem_map.mp hr
    split <;> exact t.below r' hr'

/-- `DELETE … WHERE p` -/
def delete (t : SerialTable ρ) (p : ρ → Bool) : SerialTable ρ where
  rows := t.rows.filter fun r => !p r.2
  seq := t.seq
  ascending := t.ascending.sublist (List.filter_sublist.map _)
  below := fun r hr => t.below r (List.mem_of_mem_filter hr)

/-- The rows of before, the sequence where the aborted transaction left it. -/
def rollback (before after : SerialTable ρ) : SerialTable ρ :=
  { before with
    seq := max before.seq after.seq
    below := fun r hr => Nat.lt_of_lt_of_le (before.below r hr) (Nat.le_max_left _ _) }

/-! ## Rows -/

@[simp] theorem values_empty : (empty : SerialTable ρ).values = [] := rfl
@[simp] theorem values_burn (t : SerialTable ρ) : t.burn.values = t.values := rfl

@[simp] theorem values_insert (t : SerialTable ρ) (r : ρ) :
    (t.insert r).2.values = t.values ++ [r] := by
  simp [values, insert]

@[simp] theorem ids_insert (t : SerialTable ρ) (r : ρ) :
    (t.insert r).2.ids = t.ids ++ [(t.insert r).1] := by
  simp [ids, insert]

@[simp] theorem values_update (t : SerialTable ρ) (p : ρ → Bool) (f : ρ → ρ) :
    (t.update p f).values = t.values.map fun r => if p r then f r else r := by
  simp only [values, update, List.map_map]
  refine List.map_congr_left fun r _ => ?_
  simp only [Function.comp_apply]
  split <;> rfl

@[simp] theorem values_delete (t : SerialTable ρ) (p : ρ → Bool) :
    (t.delete p).values = t.values.filter fun r => !p r := by
  simp only [values, delete, List.filter_map]
  rfl

theorem length_ids (t : SerialTable ρ) : t.ids.length = t.values.length := by
  simp [ids, values]

theorem ids_nodup (t : SerialTable ρ) : t.ids.Nodup :=
  t.ascending.imp fun h => Nat.ne_of_lt h

theorem ids_lt_seq (t : SerialTable ρ) : ∀ id ∈ t.ids, id < t.seq := by
  intro id hid
  obtain ⟨r, hr, rfl⟩ := List.mem_map.mp hid
  exact t.below r hr

/-- A generated id is new. -/
theorem insert_fresh (t : SerialTable ρ) (r : ρ) : (t.insert r).1 ∉ t.ids :=
  fun h => Nat.lt_irrefl _ (t.ids_lt_seq _ h)

/-! ## Positions -/

/-- Inserting a row leaves the others where they are. -/
theorem position_insert (t : SerialTable ρ) (r : ρ) {id : Nat} (h : id ∈ t.ids) :
    (t.insert r).2.position id = t.position id := by
  unfold position
  rw [ids_insert, List.idxOf_append_of_mem h]

/-- The inserted row comes last. -/
theorem position_insert_self (t : SerialTable ρ) (r : ρ) :
    (t.insert r).2.position (t.insert r).1 = t.values.length := by
  unfold position
  rw [ids_insert, List.idxOf_append_of_notMem (t.insert_fresh r), ← t.length_ids]
  simp

/-- The id of the last row. -/
theorem exists_last (t : SerialTable ρ) {l : List ρ} {r : ρ} (h : t.values = l ++ [r]) :
    ∃ id, t.rows.getLast? = some (id, r) ∧ t.position id = l.length := by
  obtain ⟨before, last, hrows, rfl, hlast⟩ := List.map_eq_append_iff.mp h
  obtain ⟨⟨id, r'⟩, rfl, rfl⟩ := List.map_eq_singleton_iff.mp hlast
  have hids : t.ids = before.map Prod.fst ++ [id] := by
    unfold ids
    rw [hrows, List.map_append]
    rfl
  have hnodup := t.ids_nodup
  rw [hids] at hnodup
  have hnot : id ∉ before.map Prod.fst := fun hid =>
    (List.nodup_append.mp hnodup).2.2 id hid id (List.mem_singleton_self id) rfl
  refine ⟨id, by rw [hrows]; simp, ?_⟩
  unfold position
  rw [hids, List.idxOf_append_of_notMem hnot]
  simp

/-- The row at the position of its id. -/
theorem getElem?_position (t : SerialTable ρ) {id : Nat} {r : ρ} (h : (id, r) ∈ t.rows) :
    t.values[t.position id]? = some r := by
  obtain ⟨i, hi, he⟩ := List.mem_iff_getElem.mp h
  have hlen : i < t.ids.length := by simpa [ids] using hi
  have hid : t.ids[i] = id := by simp [ids, he]
  have hp : t.position id = i := by
    unfold position
    rw [← hid]
    exact t.ids_nodup.idxOf_getElem i hlen
  rw [hp, List.getElem?_eq_getElem (by simpa [values] using hi)]
  simp [values, he]

/-- The one row with a given id. -/
theorem filter_id (t : SerialTable ρ) {id : Nat} (h : id ∈ t.ids) :
    ∃ r, t.rows.filter (fun q => q.1 == id) = [(id, r)] := by
  have hids : (t.rows.filter fun q => q.1 == id).map Prod.fst = [id] := by
    have hcount : t.ids.filter (fun i => i == id) = [id] := by
      rw [List.filter_beq, List.count_eq_one_of_mem t.ids_nodup h]
      rfl
    rw [← hcount]
    unfold ids
    rw [List.filter_map]
    rfl
  obtain ⟨q, hq, rfl⟩ := List.map_eq_singleton_iff.mp hids
  exact ⟨q.2, hq⟩

/-- The ids a `SERIAL8` column draws. -/
def Serial8 (t : SerialTable ρ) : Prop := ∀ id ∈ t.ids, 1 ≤ id ∧ id < 2 ^ 63

end SerialTable
