import Mathlib

/-!
# Reading a list page by page

Rows carry a key, in strictly ascending order.  A reader that has read `done`, a prefix
of the rows, asks for those above its last key: these are the rest
(`filter_above_last`), and with a page of them it has read a longer prefix
(`append_page`).  A page that is shorter than asked for completes it
(`eq_of_short_page`).

Rows may be added behind while they are read.  A reader that gets ahead again and again
reads every row in the end (`eventually_read`).

Where a row may not decode, pages are cut before the rows that do not are dropped.  The
reader then gets ahead as long as no page is full of them (`NoGap.advances`), and never
past a page that is (`not_past_gap`).
-/

namespace Paging

variable {α : Type}

/-! ## Pages -/

section
variable {rows done : List α}

theorem append_drop (h : done <+: rows) : done ++ rows.drop done.length = rows := by
  obtain ⟨rest, rfl⟩ := h
  rw [List.drop_left]

theorem append_page (h : done <+: rows) (n : Nat) :
    done ++ (rows.drop done.length).take n <+: rows := by
  have hpage : (rows.drop done.length).take n <+: rows.drop done.length := List.take_prefix _ _
  have happend := (List.prefix_append_right_inj done).mpr hpage
  rwa [append_drop h] at happend

theorem eq_of_short_page (h : done <+: rows) {n : Nat}
    (hshort : ((rows.drop done.length).take n).length < n) :
    done ++ (rows.drop done.length).take n = rows := by
  have hlen : (rows.drop done.length).length ≤ n := by
    rw [List.length_take] at hshort
    omega
  rw [List.take_of_length_le hlen, append_drop h]

/-- A page of at least one row gets ahead, or there is nothing left. -/
theorem page_advances (h : done <+: rows) {n : Nat} (hn : 0 < n) :
    done.length < (done ++ (rows.drop done.length).take n).length ∨ done = rows := by
  obtain ⟨rest, rfl⟩ := h
  rw [List.drop_left]
  cases rest with
  | nil => exact Or.inr (List.append_nil _).symm
  | cons r rest =>
    refine Or.inl ?_
    rw [List.length_append, List.length_take, List.length_cons]
    omega

end

/-! ## Cuts -/

section
variable {κ : Type} [Preorder κ] {rows done rest : List α} {key : α → κ}

theorem head_le (hasc : rows.Pairwise fun a b => key a < key b) {a b : α} (hhead : rows.head? = some b)
    (ha : a ∈ rows) : key b ≤ key a := by
  cases rows with
  | nil => cases ha
  | cons c rows =>
    obtain rfl : c = b := Option.some.inj hhead
    rcases List.mem_cons.mp ha with rfl | ha
    · exact le_refl _
    · exact le_of_lt ((List.pairwise_cons.mp hasc).1 a ha)

theorem le_last (hasc : rows.Pairwise fun a b => key a < key b) {a b : α}
    (hlast : rows.getLast? = some b) (ha : a ∈ rows) : key a ≤ key b := by
  obtain ⟨init, rfl⟩ := List.getLast?_eq_some_iff.mp hlast
  rcases List.mem_append.mp ha with ha | ha
  · exact le_of_lt ((List.pairwise_append.mp hasc).2.2 a ha b (List.mem_singleton_self b))
  · rw [List.mem_singleton.mp ha]

variable [DecidableLT κ]

omit [Preorder κ] [DecidableLT κ] in
/-- What a cut at the seam keeps. -/
theorem filter_seam {before after : List α} {p : α → Bool} (hbefore : ∀ r ∈ before, p r = false)
    (hafter : ∀ r ∈ after, p r = true) : (before ++ after).filter p = after := by
  have hnone : before.filter p = [] :=
    List.filter_eq_nil_iff.mpr fun r hr => by rw [hbefore r hr]; exact Bool.false_ne_true
  rw [List.filter_append, hnone, List.filter_eq_self.mpr hafter, List.nil_append]

/-- Above the last row read comes the rest. -/
theorem filter_above_last (hasc : rows.Pairwise fun a b => key a < key b) (h : done <+: rows)
    {a : α} (hlast : done.getLast? = some a) :
    rows.filter (fun r => decide (key a < key r)) = rows.drop done.length := by
  obtain ⟨rest, rfl⟩ := h
  obtain ⟨hdone, -, hcross⟩ := List.pairwise_append.mp hasc
  rw [List.drop_left]
  apply filter_seam
  · intro r hr
    exact decide_eq_false (not_lt_of_ge (le_last hdone hlast hr))
  · intro r hr
    exact decide_eq_true (hcross a (List.mem_of_getLast? hlast) r hr)

/-- Read from the end, with rows added behind since: below the last row read comes the rest. -/
theorem filter_below_last (hasc : rows.Pairwise fun a b => key a < key b) {seen : List α}
    (hseen : seen <+: rows) (h : done <+: seen.reverse) {a : α} (hlast : done.getLast? = some a) :
    (rows.filter (fun r => decide (key r < key a))).reverse = seen.reverse.drop done.length := by
  obtain ⟨later, rfl⟩ := hseen
  obtain ⟨rest, hrest⟩ := h
  obtain ⟨hsorted, -, hcross⟩ := List.pairwise_append.mp hasc
  have hlater : later.filter (fun r => decide (key r < key a)) = [] := by
    apply List.filter_eq_nil_iff.mpr
    intro r hr
    have ha : a ∈ seen := by
      rw [← List.mem_reverse, ← hrest]
      exact List.mem_append_left _ (List.mem_of_getLast? hlast)
    simpa using lt_asymm (hcross a ha r hr)
  -- seen from the end, it is a cut at the seam again
  have hdown : (done ++ rest).Pairwise fun a b => key b < key a := by
    rw [hrest]
    exact List.pairwise_reverse.mpr hsorted
  obtain ⟨hdone, -, hbelow⟩ := List.pairwise_append.mp hdown
  rw [List.filter_append, hlater, List.append_nil, ← List.filter_reverse, ← hrest, List.drop_left]
  apply filter_seam
  · intro r hr
    exact decide_eq_false (not_lt_of_ge (@le_last α κᵒᵈ _ done key hdone r a hlast hr))
  · intro r hr
    exact decide_eq_true (hbelow a (List.mem_of_getLast? hlast) r hr)

/-- Above the first row of a range comes the rest of the range. -/
theorem filter_above_head (hasc : rows.Pairwise fun a b => key a < key b) {p : α → Bool}
    (hup : ∀ r s, p r = true → key r < key s → p s = true) {a : α} (hrange : rows.filter p = a :: rest) :
    rows.filter (fun r => decide (key a < key r)) = rest := by
  have ha : p a = true := List.of_mem_filter (l := rows) (by rw [hrange]; exact List.mem_cons_self)
  have hsorted := hasc.sublist (List.filter_sublist (p := p))
  rw [hrange] at hsorted
  have hboth : rows.filter (fun r => decide (key a < key r)) =
      ([a] ++ rest).filter (fun r => decide (key a < key r)) := by
    rw [List.singleton_append, ← hrange, List.filter_filter]
    apply List.filter_congr
    intro r _
    rw [Bool.eq_iff_iff, Bool.and_eq_true, decide_eq_true_eq]
    exact ⟨fun hlt => ⟨hlt, hup a r ha hlt⟩, fun hr => hr.1⟩
  rw [hboth]
  apply filter_seam
  · intro r hr
    rw [List.mem_singleton.mp hr]
    exact decide_eq_false (lt_irrefl _)
  · intro r hr
    exact decide_eq_true ((List.pairwise_cons.mp hsorted).1 r hr)

end

/-! ## Runs -/

theorem prefix_of_le {l : Nat → List α} (h : ∀ i, l i <+: l (i + 1)) {i j : Nat} (hij : i ≤ j) :
    l i <+: l j := by
  induction hij with
  | refl => exact List.prefix_refl _
  | step _ ih => exact ih.trans (h _)

/-- A reader that keeps up with a prefix, and again and again gets ahead or has everything, reads
every row. -/
theorem eventually_read (rows done : Nat → List α) (hread : ∀ i, done i <+: rows i)
    (hrows : ∀ i, rows i <+: rows (i + 1)) (hdone : ∀ i, done i <+: done (i + 1))
    (hprogress : ∀ i, ∃ j, i ≤ j ∧ ((done j).length < (done (j + 1)).length ∨ done j = rows j))
    {i : Nat} {r : α} (hr : r ∈ rows i) : ∃ j, r ∈ done j := by
  -- it reads as many rows as one likes, or everything there is at some later moment
  have hmany : ∀ n, ∃ j, i ≤ j ∧ (n ≤ (done j).length ∨ done j = rows j) := by
    intro n
    induction n with
    | zero => exact ⟨i, Nat.le_refl i, Or.inl (Nat.zero_le _)⟩
    | succ n ih =>
      obtain ⟨j, hij, hn | hall⟩ := ih
      · obtain ⟨k, hjk, hlt | hall⟩ := hprogress j
        · have hle := (prefix_of_le hdone hjk).length_le
          exact ⟨k + 1, by omega, Or.inl (by omega)⟩
        · exact ⟨k, by omega, Or.inr hall⟩
      · exact ⟨j, hij, Or.inr hall⟩
  obtain ⟨j, hij, hmost⟩ := hmany (rows i).length
  have hgrown := prefix_of_le hrows hij
  rcases hmost with hlen | hall
  · exact ⟨j, (List.prefix_of_prefix_length_le hgrown (hread j) hlen).subset hr⟩
  · exact ⟨j, by rw [hall]; exact hgrown.subset hr⟩

/-! ## Rows that do not decode -/

section
variable {α β : Type} {f : α → Option β} {rows before after a b : List α} {done : List β} {n : Nat}

/-- What was read came from `before`, whose last row is the last that was read. -/
structure ReadUpTo (f : α → Option β) (done : List β) (before : List α) : Prop where
  read : before.filterMap f = done
  ends : before = [] ∨ ∃ init x y, before = init ++ [x] ∧ f x = some y

theorem exists_readUpTo (h : done <+: rows.filterMap f) :
    ∃ before, before <+: rows ∧ ReadUpTo f done before := by
  induction rows generalizing done with
  | nil =>
    rw [List.filterMap_nil, List.prefix_nil] at h
    exact ⟨[], List.prefix_rfl, h.symm, Or.inl rfl⟩
  | cons x rows ih =>
    cases done with
    | nil => exact ⟨[], List.nil_prefix, rfl, Or.inl rfl⟩
    | cons z done =>
      cases hx : f x with
      | none =>
        rw [List.filterMap_cons_none hx] at h
        obtain ⟨before, hbefore, hread, hends⟩ := ih h
        refine ⟨x :: before, List.cons_prefix_cons.mpr ⟨rfl, hbefore⟩, ?_, Or.inr ?_⟩
        · rw [List.filterMap_cons_none hx, hread]
        · rcases hends with rfl | ⟨init, u, v, rfl, hu⟩
          · cases hread
          · exact ⟨x :: init, u, v, rfl, hu⟩
      | some y =>
        rw [List.filterMap_cons_some hx, List.cons_prefix_cons] at h
        obtain ⟨rfl, h⟩ := h
        obtain ⟨before, hbefore, hread, hends⟩ := ih h
        refine ⟨x :: before, List.cons_prefix_cons.mpr ⟨rfl, hbefore⟩, ?_, Or.inr ?_⟩
        · rw [List.filterMap_cons_some hx, hread]
        · rcases hends with rfl | ⟨init, u, v, rfl, hu⟩
          · exact ⟨[], x, z, rfl, hx⟩
          · exact ⟨x :: init, u, v, rfl, hu⟩

/-- Of two beginnings of a list, the one that holds what was read is the longer one. -/
theorem ReadUpTo.le_of (h : ReadUpTo f done before) (hbefore : before <+: rows) (ha : a <+: rows)
    (hdone : done <+: a.filterMap f) : before <+: a := by
  rcases h.ends with rfl | ⟨init, x, y, rfl, hx⟩
  · exact List.nil_prefix
  · rcases List.prefix_or_prefix_of_prefix hbefore ha with hle | hle
    · exact hle
    · rcases List.prefix_concat_iff.mp hle with rfl | hinit
      · exact List.prefix_rfl
      · -- then the last row that was read lies behind `a`
        have hlen := hdone.length_le
        have hlen' := (hinit.filterMap f).length_le
        rw [← h.read, List.filterMap_append, List.filterMap_cons_some hx, List.length_append] at hlen
        simp at hlen
        omega

/-- No row that decodes comes behind `n` in a row that do not. -/
def NoGap (f : α → Option β) (n : Nat) (rows : List α) : Prop :=
  ∀ a b c, rows = a ++ b ++ c → b.length = n → b.filterMap f = [] → c.filterMap f = []

theorem NoGap.advances (h : NoGap f n rows) (hread : ReadUpTo f done before)
    (hrows : before ++ after = rows) :
    done.length < (done ++ (after.take n).filterMap f).length ∨ done = rows.filterMap f := by
  by_cases hpage : (after.take n).filterMap f = []
  · right
    have hrest : (after.drop n).filterMap f = [] := by
      by_cases hlen : n ≤ after.length
      · refine h before (after.take n) (after.drop n) ?_ (List.length_take_of_le hlen) hpage
        rw [List.append_assoc, List.take_append_drop, hrows]
      · rw [List.drop_of_length_le (by omega)]
        rfl
    rw [← hrows, List.filterMap_append, hread.read, ← List.take_append_drop n after,
      List.filterMap_append, hpage, hrest, List.append_nil, List.append_nil]
  · left
    have := List.length_pos_iff.mpr hpage
    rw [List.length_append]
    omega

/-- A page does not get past `n` rows in a row that do not decode. -/
theorem not_past_gap {all : List α} (hread : ReadUpTo f done before) (hrows : before ++ after <+: all)
    (hgap : a ++ b <+: all) (hb : b.length = n) (hnone : b.filterMap f = [])
    (hdone : done <+: a.filterMap f) : done ++ (after.take n).filterMap f <+: a.filterMap f := by
  have hbefore := hread.le_of ((List.prefix_append _ _).trans hrows)
    ((List.prefix_append _ _).trans hgap) hdone
  have hpage : before ++ after.take n <+: all :=
    ((List.prefix_append_right_inj before).mpr (List.take_prefix _ _)).trans hrows
  have hlen : (before ++ after.take n).length ≤ (a ++ b).length := by
    have := hbefore.length_le
    have := List.length_take_le n after
    rw [List.length_append, List.length_append]
    omega
  have hle := (List.prefix_of_prefix_length_le hpage hgap hlen).filterMap f
  rw [List.filterMap_append, List.filterMap_append, hread.read, hnone, List.append_nil] at hle
  exact hle

end

end Paging
