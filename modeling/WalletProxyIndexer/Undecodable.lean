import WalletProxyIndexer.Monitor
import WalletProxyIndexer.Paging

/-!
# Rows that do not decode

`construct_row` turns a row it cannot read into `None`, because errors should not occur
where it is used.  Nothing in the tables says so: a summary that the SDK of the reader
does not know is such a row, and `LIMIT` counts it.

A reader that pages upwards is then still right about what it gets, but a page full of
such rows is empty, and it asks for that page for ever.  It gets every row exactly if no
such page is in its way (`reads_every_row_iff`).
-/

namespace WalletProxyIndexer

open Transition Paging

section
variable {J : Type} [SdkJson J]

namespace Target
variable (t : Target) {db db' : Tables J}

/-- An ascending page is cut from the rows behind the last one that was returned. -/
theorem joined_page {pages : List (List DatabaseRow)} {start : Option Int64} {limit : Int64}
    {rows : List DatabaseRow} (hread : pages.flatten <+: t.rows db) (hlimit : 1 ≤ limit)
    (hstart : PageOrder.ascending.start pages = some start)
    (hquery : t.query db limit (.ascending start) = .ok rows) :
    ∃ before after, ReadUpTo constructRow pages.flatten before ∧ before ++ after = t.joined db ∧
      rows = (after.take limit.toInt.toNat).filterMap constructRow := by
  have hasc : ((join (t.index db) db.summaries.rows).map JoinedRow.id).Pairwise (· < ·) := by
    rw [t.join_ids]
    exact t.index_ascending
  rw [query_eq, select_ascending hasc start (limit_pos hlimit).1] at hquery
  obtain ⟨before, ⟨after, hafter⟩, hup⟩ := exists_readUpTo hread
  have hafter : before ++ after = t.joined db := hafter
  refine ⟨before, after, hup, hafter, ?_⟩
  -- the cut of the query is behind the last row returned
  have hcut : (t.joined db).filter (fun j => decide ((start.getD Int64.minValue).toInt ≤ j.id)) =
      after := by
    unfold PageOrder.ascending at hstart
    dsimp only at hstart
    rcases hup.ends with rfl | ⟨init, x, y, rfl, hx⟩
    · rw [← hup.read] at hstart
      obtain rfl := Option.some.inj hstart
      rw [← hafter, List.nil_append]
      apply List.filter_eq_self.mpr
      intro j hj
      have hlow : (none.getD Int64.minValue).toInt = -2 ^ 63 := by decide
      rw [hlow, decide_eq_true_eq]
      omega
    · have hlast : pages.flatten.getLast? = some y := by
        rw [← hup.read, List.filterMap_append, List.filterMap_cons_some hx]
        simp
      rw [hlast] at hstart
      dsimp only at hstart
      split at hstart
      · next hlt =>
        obtain rfl := Option.some.inj hstart
        have hid := constructRow_id hx
        have habove := filter_above_last (t.joined_ascending db) ⟨after, hafter⟩
          (List.getLast?_concat : (init ++ [x]).getLast? = some x)
        rw [← hafter, List.drop_left] at habove
        rw [← hafter]
        refine Eq.trans ?_ habove
        apply List.filter_congr
        intro j _
        rw [Option.getD_some, Int64.toInt_ofNat_of_lt hlt, decide_eq_decide]
        omega
      · cases hstart
  rw [← Except.ok.inj hquery]
  show List.filterMap constructRow (List.take _ (List.filter _ (t.joined db))) = _
  rw [hcut]

end Target

/-! ## Runs -/

section
variable {t : Target} {e : Execution (reading (J := J) t .ascending)}

theorem joined_runs (e : Execution (reading (J := J) t .ascending)) (i : Nat) :
    t.joined (e.state i).db <+: t.joined (e.state (i + 1)).db := by
  rcases e.next _ i with heq | ⟨l, -, hstep⟩
  · rw [heq]
  · generalize e.state i = s at hstep
    generalize e.state (i + 1) = s' at hstep
    cases hstep with
    | block hins => exact t.joined_grows (insertIntoDb_grows hins)
    | page _ _ _ => exact List.prefix_rfl

/-- A step returns nothing, or the rows of a page that decode. -/
theorem returned_next (e : Execution (reading (J := J) t .ascending)) (i : Nat)
    (hread : (e.state i).returned <+: t.rows (e.state i).db) :
    ((e.state (i + 1)).returned = (e.state i).returned ∧
      ∀ limit page, e.label i ≠ some (.page limit page)) ∨
    ∃ limit page before after, e.label i = some (.page limit page) ∧ 1 ≤ limit ∧
      ReadUpTo constructRow (e.state i).returned before ∧
      before ++ after = t.joined (e.state i).db ∧ (e.state (i + 1)).returned =
        (e.state i).returned ++ (after.take limit.toInt.toNat).filterMap constructRow := by
  cases hl : e.label i with
  | none =>
    have hmove := e.moves i
    rw [hl] at hmove
    exact Or.inl ⟨by rw [hmove], fun _ _ h => by cases h⟩
  | some l =>
    have hstep := e.moves i
    rw [hl] at hstep
    generalize e.state i = s at *
    generalize e.state (i + 1) = s' at *
    cases hstep with
    | block _ => exact Or.inl ⟨rfl, fun _ _ h => by cases h⟩
    | @page db pages limit start rows hlimit hstart hquery =>
      obtain ⟨before, after, hup, hafter, rfl⟩ := t.joined_page hread hlimit hstart hquery
      exact Or.inr ⟨limit, _, before, after, rfl, hlimit, hup, hafter, returned_page db pages _⟩

theorem returned_le (e : Execution (reading (J := J) t .ascending)) (i : Nat) :
    (e.state i).returned <+: t.rows (e.state i).db := by
  induction i with
  | zero =>
    have hnew : (e.state 0).pages = [] := e.starts
    unfold Reading.returned
    rw [hnew]
    exact List.nil_prefix
  | succ i ih =>
    have hgrows := (joined_runs e i).filterMap constructRow
    rcases returned_next e i ih with ⟨hsame, -⟩ | ⟨limit, page, before, after, -, -, hup, hafter, hnext⟩
    · rw [hsame]
      exact ih.trans hgrows
    · have hpage : before ++ after.take limit.toInt.toNat <+: t.joined (e.state i).db := by
        rw [← hafter]
        exact (List.prefix_append_right_inj before).mpr (List.take_prefix _ _)
      rw [hnext, ← hup.read, ← List.filterMap_append]
      exact (hpage.filterMap constructRow).trans hgrows

/-- Where `limit` rows in a row do not decode, the reader stays before them. -/
theorem returned_before_gap {limit : Int64}
    (hlimit : ∀ i l page, e.label i = some (.page l page) → l = limit) {i : Nat}
    {a b c : List (JoinedRow J)} (hgap : t.joined (e.state i).db = a ++ b ++ c)
    (hb : b.length = limit.toInt.toNat) (hnone : b.filterMap constructRow = []) (j : Nat) :
    (e.state j).returned <+: a.filterMap constructRow := by
  induction j with
  | zero =>
    have hnew : (e.state 0).pages = [] := e.starts
    unfold Reading.returned
    rw [hnew]
    exact List.nil_prefix
  | succ j ih =>
    rcases returned_next e j (returned_le e j) with ⟨hsame, -⟩ |
      ⟨l, page, before, after, hl, -, hup, hafter, hnext⟩
    · rw [hsame]
      exact ih
    · obtain rfl := hlimit j l page hl
      rw [hnext]
      -- both are seen in the later of the two tables
      have hrows : before ++ after <+: t.joined (e.state (max i j)).db := by
        rw [hafter]
        exact prefix_of_le (joined_runs e) (Nat.le_max_right i j)
      have hfull : a ++ b <+: t.joined (e.state (max i j)).db := by
        refine List.IsPrefix.trans ?_ (prefix_of_le (joined_runs e) (Nat.le_max_left i j))
        rw [hgap]
        exact List.prefix_append _ _
      exact not_past_gap hup hrows hfull hb hnone ih

/-- A reader that pages upwards through a growing index, with one page size and for ever: what it
got is always the beginning of the rows that decode; and it gets every one of them exactly if
there are never as many rows as a page holds that do not decode, in a row and before one that
does. -/
theorem reads_every_row_iff (e : Execution (reading (J := J) t .ascending)) {limit : Int64}
    (hlimit : ∀ i l page, e.label i = some (.page l page) → l = limit)
    (hforever : ∀ i, ∃ j, i ≤ j ∧ ∃ l page, e.label j = some (.page l page)) :
    (∀ i, (e.state i).returned <+: t.rows (e.state i).db) ∧
    ((∀ i, ∀ r ∈ t.rows (e.state i).db, ∃ j, r ∈ (e.state j).returned) ↔
      ∀ i, NoGap constructRow limit.toInt.toNat (t.joined (e.state i).db)) := by
  refine ⟨returned_le e, fun hall i a b c hgap hb hnone => ?_, fun hnogap i r hr => ?_⟩
  · -- a row behind the gap would have been returned before it
    by_contra hc
    obtain ⟨y, hy⟩ := List.exists_mem_of_ne_nil _ hc
    have hrow : y ∈ t.rows (e.state i).db := by
      rw [t.rows_eq, hgap, List.filterMap_append]
      exact List.mem_append_right _ hy
    obtain ⟨j, hj⟩ := hall i y hrow
    have ha := (returned_before_gap hlimit hgap hb hnone j).subset hj
    obtain ⟨x, hx, hxy⟩ := List.mem_filterMap.mp ha
    obtain ⟨z, hz, hzy⟩ := List.mem_filterMap.mp hy
    have hasc := t.joined_ascending (e.state i).db
    rw [hgap] at hasc
    have hlt := (List.pairwise_append.mp hasc).2.2 x (List.mem_append_left _ hx) z hz
    have := constructRow_id hxy
    have := constructRow_id hzy
    omega
  · refine eventually_read _ _ (returned_le e) (fun i => (joined_runs e i).filterMap constructRow)
      (fun i => (reading_grows e i).2) (fun i => ?_) hr
    obtain ⟨j, hij, l, page, hl⟩ := hforever i
    refine ⟨j, hij, ?_⟩
    rcases returned_next e j (returned_le e j) with ⟨-, hno⟩ |
      ⟨l', page', before, after, hl', -, hup, hafter, hnext⟩
    · exact absurd hl (hno l page)
    · obtain rfl := hlimit j l' page' hl'
      rw [hnext]
      exact (hnogap j).advances hup hafter

end

end

/-- A reader gets the one row there is, and then empty pages for ever. -/
theorem paying_row_read :
    let t : Target := .account ⟨.replicate 32 0⟩
    ∃ e : Execution (reading (J := PlainJson) t .ascending),
      ((∀ i, ∀ r ∈ t.rows (e.state i).db, ∃ j, r ∈ (e.state j).returned) ↔
        ∀ i, NoGap constructRow 1 (t.joined (e.state i).db)) ∧ (t.rows (e.state 0).db).length = 1 := by
  intro t
  let db : Tables PlainJson := (insertIntoDb none .empty (payingBlock ⟨.replicate 32 0⟩)).2
  let row : DatabaseRow := ⟨1, ⟨.replicate 32 0⟩, 0, 0,
    .protocolEvent (.paydayAccountReward ⟨.replicate 32 0⟩)⟩
  have hrows : t.rows db = [row] := rfl
  have hquery := fun start => (t.query_pages payingBlock_readable (limit_pos (Int64.le_refl 1)).1 start).1
  have hfirst : t.query db 1 (.ascending none) = .ok [row] := hquery none
  have hlater : t.query db 1 (.ascending (some 2)) = .ok [] := hquery (some 2)
  let page : Nat → List DatabaseRow := fun i => if i = 0 then [row] else []
  have hflat : ∀ i, ((List.range (i + 1)).map page).flatten = [row] := by
    intro i
    induction i with
    | zero => rfl
    | succ i ih =>
      rw [List.range_succ, List.map_append, List.flatten_append, ih]
      rfl
  let e : Execution (reading (J := PlainJson) t .ascending) := {
    state := fun i => ⟨db, (List.range i).map page⟩
    label := fun i => some (.page 1 (page i))
    starts := rfl
    moves := by
      intro i
      show ReadingStep t .ascending ⟨db, (List.range i).map page⟩ (.page 1 (page i))
        ⟨db, (List.range (i + 1)).map page⟩
      rw [List.range_succ, List.map_append]
      cases i with
      | zero => exact .page (Int64.le_refl 1) rfl hfirst
      | succ i =>
        refine .page (Int64.le_refl 1) ?_ hlater
        unfold PageOrder.ascending
        dsimp only
        rw [hflat]
        rfl }
  have hlimit : ∀ i l page, e.label i = some (.page l page) → l = 1 := by
    intro i l page hl
    cases hl
    rfl
  have hforever : ∀ i, ∃ j, i ≤ j ∧ ∃ l page, e.label j = some (.page l page) := by
    intro i
    exact ⟨i, Nat.le_refl i, 1, page i, rfl⟩
  have hone : (1 : Int64).toInt.toNat = 1 := by decide
  have hiff := (reads_every_row_iff e hlimit hforever).2
  rw [hone] at hiff
  exact ⟨e, hiff, rfl⟩

end WalletProxyIndexer
