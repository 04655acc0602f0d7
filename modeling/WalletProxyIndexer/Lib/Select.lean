import Mathlib

/-!
# Ordered and collapsed query results

Facts about lists that queries produce.  Sorting rows that come in strict order the
other way round reverses them (`mergeSort_reverse`).

`collapse key` keeps the first row of each run of adjacent rows with one key, the way
a reader skips rows that repeat what it has just seen.
-/

namespace Select

variable {α β κ κ' : Type}

/-! ## Order -/

/-- Rows in strict order, sorted by the opposite order. -/
theorem mergeSort_reverse {ge : α → α → Bool} {l : List α}
    (h : l.Pairwise fun a b => ge b a = true) (hstrict : l.Pairwise fun a b => ge a b = false)
    (htrans : ∀ a b c, ge a b = true → ge b c = true → ge a c = true)
    (htotal : ∀ a b, (ge a b || ge b a) = true) : l.mergeSort ge = l.reverse := by
  have hperm : (l.mergeSort ge).Perm l.reverse :=
    (List.mergeSort_perm l ge).trans (List.reverse_perm l).symm
  have hsorted := List.pairwise_mergeSort htrans htotal l
  have hrev : l.reverse.Pairwise fun a b => ge a b = true := List.pairwise_reverse.mpr h
  refine hperm.eq_of_pairwise ?_ hsorted hrev
  intro a b ha hb hab hba
  by_contra hne
  have hdiff : l.Pairwise fun a b => ge a b = false ∨ ge b a = false := hstrict.imp Or.inl
  have hmem : ∀ x ∈ l.mergeSort ge, x ∈ l := fun x hx => (List.mergeSort_perm l ge).mem_iff.mp hx
  have : Std.Symm fun a b => ge a b = false ∨ ge b a = false := ⟨fun _ _ => Or.symm⟩
  rcases hdiff.forall (hmem a ha) (List.mem_reverse.mp hb) hne with h | h
  · rw [h] at hab; cases hab
  · rw [h] at hba; cases hba

/-! ## Runs of one key -/

def collapse [DecidableEq κ] (key : α → κ) (l : List α) : List α :=
  l.foldl (fun kept a => if kept.getLast?.map key = some (key a) then kept else kept ++ [a]) []

section
variable [DecidableEq κ] [DecidableEq κ'] (key : α → κ)

theorem collapse_concat (l : List α) (a : α) : collapse key (l ++ [a]) =
    if (collapse key l).getLast?.map key = some (key a) then collapse key l
    else collapse key l ++ [a] := by
  unfold collapse
  rw [List.foldl_append]
  rfl

/-- The last row kept has the key of the last row. -/
theorem getLast?_collapse (l : List α) :
    (collapse key l).getLast?.map key = l.getLast?.map key := by
  induction l using List.reverseRecOn with
  | nil => rfl
  | append_singleton l a ih =>
    rw [collapse_concat]
    split
    · next h => rw [h, List.getLast?_concat]; rfl
    · rw [List.getLast?_concat, List.getLast?_concat]

theorem mem_of_mem_collapse {l : List α} {a : α} (h : a ∈ collapse key l) : a ∈ l := by
  induction l using List.reverseRecOn with
  | nil => exact h
  | append_singleton l b ih =>
    rw [collapse_concat] at h
    split at h
    · exact List.mem_append_left _ (ih h)
    · rcases List.mem_append.mp h with h | h
      · exact List.mem_append_left _ (ih h)
      · exact List.mem_append_right _ h

/-- A run with a new key adds its first row. -/
theorem collapse_append_run (l run : List α) (k : κ) (hrun : ∀ a ∈ run, key a = k)
    (hl : ∀ a ∈ l, key a ≠ k) : collapse key (l ++ run) = collapse key l ++ run.head?.toList := by
  induction run using List.reverseRecOn with
  | nil => simp
  | append_singleton run a ih =>
    have ha : key a = k := hrun a (by simp)
    rw [← List.append_assoc, collapse_concat, getLast?_collapse,
      ih fun b hb => hrun b (List.mem_append_left _ hb)]
    rcases List.eq_nil_or_concat' run with rfl | ⟨run', b, rfl⟩
    · rw [List.append_nil, if_neg]
      · simp
      · intro h
        obtain ⟨b, hb, hkey⟩ := Option.map_eq_some_iff.mp h
        exact hl b (List.mem_of_getLast? hb) (hkey.trans ha)
    · rw [← List.append_assoc, List.getLast?_concat, if_pos]
      · cases run' <;> simp
      · rw [Option.map_some, hrun b (by simp), ha]

/-- A map that separates the same rows as the key. -/
theorem collapse_map (f : α → β) (key' : β → κ') (l : List α)
    (h : ∀ a ∈ l, ∀ b ∈ l, key' (f a) = key' (f b) ↔ key a = key b) :
    collapse key' (l.map f) = (collapse key l).map f := by
  induction l using List.reverseRecOn with
  | nil => rfl
  | append_singleton l a ih =>
    rw [List.map_append, List.map_singleton, collapse_concat, collapse_concat,
      ih fun x hx y hy => h x (List.mem_append_left _ hx) y (List.mem_append_left _ hy)]
    have hcond : ((collapse key l).map f).getLast?.map key' = some (key' (f a)) ↔
        (collapse key l).getLast?.map key = some (key a) := by
      rw [List.getLast?_map]
      cases hlast : (collapse key l).getLast? with
      | none => simp
      | some b =>
        have hb : b ∈ l := mem_of_mem_collapse key (List.mem_of_getLast? hlast)
        simp only [Option.map_some, Option.some.injEq]
        exact h b (List.mem_append_left _ hb) a (by simp)
    by_cases hc : (collapse key l).getLast?.map key = some (key a)
    · rw [if_pos hc, if_pos (hcond.mpr hc)]
    · rw [if_neg hc, if_neg fun h => hc (hcond.mp h), List.map_append, List.map_singleton]

end

end Select
