import WalletProxyIndexer.TargetRows
import WalletProxyIndexer.Lib.Transition
import WalletProxyIndexer.Lib.Paging

/-!
# Paging through a growing index

A reader pages through the rows of one account or contract while blocks are inserted
between its queries, or fail and burn ids.  It starts each page at the id after the last
one it got (`PageOrder.ascending`), or before it (`PageOrder.descending`).

What an ascending reader has got is always the beginning of the rows there are, what a
descending one has got the end of the rows there were at its first page
(`paging_is_exact`).
-/

namespace WalletProxyIndexer

open Transition Paging

/-! ## Readers -/

/-- How a reader pages: the order, and where the next page starts, by the pages so far (`none`:
there is nowhere to start). -/
structure PageOrder where
  order : Option Int64 → QueryOrder
  start : List (List DatabaseRow) → Option (Option Int64)

/-- Each page starts at the id after the last one. -/
def PageOrder.ascending : PageOrder where
  order := .ascending
  start pages := match pages.flatten.getLast? with
    | none => some none
    | some r => if r.id + 1 < 2 ^ 63 then some (some (Int64.ofNat (r.id + 1))) else none

/-- Each page starts at the id before the last one. -/
def PageOrder.descending : PageOrder where
  order := .descending
  start pages := match pages.flatten.getLast? with
    | none => if pages = [] then some none else none
    | some r => some (some (Int64.ofInt (r.id - 1)))

/-- The database, and a reader with the pages it got. -/
structure Reading (J : Type) where
  db : Tables J
  pages : List (List DatabaseRow)

def Reading.returned {J : Type} (s : Reading J) : List DatabaseRow := s.pages.flatten

inductive ReadingAction where
  | block
  | page (limit : Int64) (rows : List DatabaseRow)

section
variable {J : Type} [SdkJson J]

/-- Any block is inserted, or fails, between two pages. -/
inductive ReadingStep (t : Target) (o : PageOrder) :
    Reading J → ReadingAction → Reading J → Prop where
  | block {db db' : Tables J} {pages : List (List DatabaseRow)} {k : Option Nat}
      {d : TransactionLogData} {r : Except IndexingError Unit} : insertIntoDb k db d = (r, db') →
      ReadingStep t o ⟨db, pages⟩ .block ⟨db', pages⟩
  | page {db : Tables J} {pages : List (List DatabaseRow)} {limit : Int64} {start : Option Int64}
      {rows : List DatabaseRow} : 1 ≤ limit → o.start pages = some start →
      t.query db limit (o.order start) = .ok rows →
      ReadingStep t o ⟨db, pages⟩ (.page limit rows) ⟨db, pages ++ [rows]⟩

def reading (t : Target) (o : PageOrder) : System (Reading J) ReadingAction where
  init s := s.pages = []
  step := ReadingStep t o

/-! ## Pages -/

theorem limit_pos {limit : Int64} (h : 1 ≤ limit) : ¬limit < 0 ∧ 0 < limit.toInt.toNat := by
  have h := Int64.le_iff_toInt_le.mp h
  rw [Int64.lt_iff_toInt_lt]
  change 1 ≤ limit.toInt at h
  change ¬limit.toInt < 0 ∧ _
  omega

section
variable {t : Target} {db : Tables J} {pages : List (List DatabaseRow)} {start : Option Int64}
  {limit : Int64} {rows : List DatabaseRow}

/-- An ascending page is the next part of the rows. -/
theorem ascending_page (h : db.Readable) (hread : pages.flatten <+: t.rows db) (hlimit : 1 ≤ limit)
    (hstart : PageOrder.ascending.start pages = some start)
    (hquery : t.query db limit (.ascending start) = .ok rows) :
    rows = ((t.rows db).drop pages.flatten.length).take limit.toInt.toNat := by
  rw [(t.query_pages h (limit_pos hlimit).1 start).1] at hquery
  rw [← Except.ok.inj hquery]
  congr 1
  unfold PageOrder.ascending at hstart
  dsimp only at hstart
  cases hlast : pages.flatten.getLast? with
  | none =>
    rw [hlast] at hstart
    obtain rfl := Option.some.inj hstart
    rw [List.getLast?_eq_none_iff.mp hlast]
    apply List.filter_eq_self.mpr
    intro r hr
    have hlow : (none.getD Int64.minValue).toInt = -2 ^ 63 := by decide
    rw [hlow, decide_eq_true_eq]
    omega
  | some a =>
    rw [hlast] at hstart
    dsimp only at hstart
    split at hstart
    · next hlt =>
      obtain rfl := Option.some.inj hstart
      rw [← filter_above_last (t.rows_ascending h) hread hlast]
      apply List.filter_congr
      intro r _
      rw [Option.getD_some, Int64.toInt_ofNat_of_lt hlt, decide_eq_decide]
      omega
    · cases hstart

/-- There is no id to go on from when the last row has the largest. -/
theorem ascending_stuck (h : db.Readable) (hread : pages.flatten <+: t.rows db)
    (hstart : PageOrder.ascending.start pages = none) : pages.flatten = t.rows db := by
  unfold PageOrder.ascending at hstart
  dsimp only at hstart
  cases hlast : pages.flatten.getLast? with
  | none => rw [hlast] at hstart; cases hstart
  | some a =>
    rw [hlast] at hstart
    dsimp only at hstart
    split at hstart
    · cases hstart
    · next hge =>
      have hrest := filter_above_last (t.rows_ascending h) hread hlast
      have hnone : (t.rows db).filter (fun r => decide (a.id < r.id)) = [] := by
        apply List.filter_eq_nil_iff.mpr
        intro r hr
        have := (t.rows_serial h r hr).2
        rw [decide_eq_true_eq]
        omega
      rw [hnone] at hrest
      have hall := append_drop hread
      rwa [← hrest, List.append_nil] at hall

/-- A descending page is the next part of the rows there were at the first page, from the end. -/
theorem descending_page (h : db.Readable) {seen : List DatabaseRow} (hseen : seen <+: t.rows db)
    (hfirst : pages = [] → seen = t.rows db) (hread : pages.flatten <+: seen.reverse)
    (hlimit : 1 ≤ limit) (hstart : PageOrder.descending.start pages = some start)
    (hquery : t.query db limit (.descending start) = .ok rows) :
    rows = (seen.reverse.drop pages.flatten.length).take limit.toInt.toNat := by
  rw [(t.query_pages h (limit_pos hlimit).1 start).2] at hquery
  rw [← Except.ok.inj hquery]
  congr 1
  unfold PageOrder.descending at hstart
  dsimp only at hstart
  cases hlast : pages.flatten.getLast? with
  | none =>
    rw [hlast] at hstart
    dsimp only at hstart
    split at hstart
    · next hnew =>
      obtain rfl := Option.some.inj hstart
      rw [hfirst hnew, List.getLast?_eq_none_iff.mp hlast]
      congr 1
      apply List.filter_eq_self.mpr
      intro r hr
      have hhigh : (none.getD Int64.maxValue).toInt = 2 ^ 63 - 1 := by decide
      have := (t.rows_serial h r hr).2
      rw [hhigh, decide_eq_true_eq]
      omega
    · cases hstart
  | some a =>
    rw [hlast] at hstart
    obtain rfl := Option.some.inj hstart
    have ha : a ∈ t.rows db :=
      hseen.subset (List.mem_reverse.mp (hread.subset (List.mem_of_getLast? hlast)))
    have hid := t.rows_serial h a ha
    rw [← filter_below_last (t.rows_ascending h) hseen hread hlast]
    congr 1
    apply List.filter_congr
    intro r _
    rw [Option.getD_some, Int64.toInt_ofInt_of_le (by omega) (by omega), decide_eq_decide]
    omega

end

/-! ## Runs -/

section
variable {t : Target} {s s' : Reading J} {l : ReadingAction}

/-- What a page of `rows` adds to what was returned: the next part, and everything if the page is
short. -/
structure PageOf (rows before after : List DatabaseRow) (limit : Int64) (page : List DatabaseRow) :
    Prop where
  short : page.length < limit.toInt.toNat → after = rows
  advances : before.length < after.length ∨ before = rows

theorem pageOf {rows done page : List DatabaseRow} {limit : Int64} (hread : done <+: rows)
    (hlimit : 1 ≤ limit) (hpage : page = (rows.drop done.length).take limit.toInt.toNat) :
    done ++ page <+: rows ∧ PageOf rows done (done ++ page) limit page := by
  subst hpage
  exact ⟨append_page hread _, eq_of_short_page hread,
    page_advances hread (limit_pos hlimit).2⟩

omit [SdkJson J] in
theorem returned_page (db : Tables J) (pages : List (List DatabaseRow)) (page : List DatabaseRow) :
    (Reading.mk db (pages ++ [page])).returned = pages.flatten ++ page := by
  simp [Reading.returned]

theorem ReadingStep.grows {o : PageOrder} (h : ReadingStep t o s l s') :
    t.rows s.db <+: t.rows s'.db ∧ s.returned <+: s'.returned := by
  cases h with
  | block hins => exact ⟨t.rows_grows (insertIntoDb_grows hins), List.prefix_refl _⟩
  | page _ _ _ =>
    rw [returned_page]
    exact ⟨List.prefix_refl _, List.prefix_append _ _⟩

theorem ReadingStep.ascending (h : ReadingStep t .ascending s l s') (hdb : s.db.Readable)
    (hread : s.returned <+: t.rows s.db) : s'.returned <+: t.rows s'.db ∧
      ∀ limit page, l = .page limit page → PageOf (t.rows s.db) s.returned s'.returned limit page := by
  cases h with
  | block hins =>
    have hgrows := t.rows_grows (insertIntoDb_grows hins)
    exact ⟨hread.trans hgrows, fun _ _ hl => by cases hl⟩
  | page hlimit hstart hquery =>
    obtain ⟨hnext, hpage⟩ := pageOf hread hlimit (ascending_page hdb hread hlimit hstart hquery)
    rw [returned_page]
    refine ⟨hnext, fun _ _ hl => ?_⟩
    cases hl
    exact hpage

/-- A reader that has got the end of `seen`, the rows there were at its first page. -/
structure FromEnd (t : Target) (seen : List DatabaseRow) (s : Reading J) : Prop where
  grown : seen <+: t.rows s.db
  returned : s.returned <+: seen.reverse
  new : s.pages = [] → seen = t.rows s.db

theorem ReadingStep.descending (h : ReadingStep t .descending s l s') (hdb : s.db.Readable)
    {seen : List DatabaseRow} (hs : FromEnd t seen s) :
    (s.pages ≠ [] → FromEnd t seen s' ∧ s'.pages ≠ []) ∧
      ∀ limit page, l = .page limit page → FromEnd t seen s' ∧ s'.pages ≠ [] ∧
        PageOf seen.reverse s.returned s'.returned limit page := by
  cases h with
  | block hins =>
    have hgrows := t.rows_grows (insertIntoDb_grows hins)
    refine ⟨fun hpages => ⟨⟨hs.grown.trans hgrows, hs.returned, ?_⟩, hpages⟩, fun _ _ hl => by cases hl⟩
    exact fun hnew => absurd hnew hpages
  | @page db pages limit start rows hlimit hstart hquery =>
    obtain ⟨hnext, hpage⟩ := pageOf hs.returned hlimit
      (descending_page hdb hs.grown hs.new hs.returned hlimit hstart hquery)
    have hend : FromEnd t seen ⟨db, pages ++ [rows]⟩ := by
      refine ⟨hs.grown, ?_, fun hnew => by simp at hnew⟩
      rw [returned_page]
      exact hnext
    refine ⟨fun _ => ⟨hend, by simp⟩, fun _ _ hl => ⟨hend, by simp, ?_⟩⟩
    cases hl
    rw [returned_page]
    exact hpage

/-- What an ascending reader has got at every moment of an execution. -/
structure ReadsAscending (e : Execution (reading (J := J) t .ascending)) : Prop where
  /-- one row for each row of the index -/
  ids : ∀ i, (t.rows (e.state i).db).map DatabaseRow.id = (t.index (e.state i).db).map Prod.fst
  /-- the beginning of the rows there are -/
  returned : ∀ i, (e.state i).returned <+: t.rows (e.state i).db
  increasing : ∀ i, (e.state i).returned.Pairwise fun a b => a.id < b.id
  /-- a short page completes the rows there are -/
  short : ∀ i limit page, e.label i = some (.page limit page) → page.length < limit.toInt.toNat →
    (e.state (i + 1)).returned = t.rows (e.state i).db
  /-- it can always go on, unless it has everything and ids are used up -/
  stuck : ∀ i, PageOrder.ascending.start (e.state i).pages = none →
    (e.state i).returned = t.rows (e.state i).db
  /-- reading on and on, it gets every row -/
  everyRow : (∀ i, ∃ j, i ≤ j ∧ ∃ limit page, e.label j = some (.page limit page)) →
    ∀ i, ∀ r ∈ t.rows (e.state i).db, ∃ j, r ∈ (e.state j).returned

/-- What a descending reader has got after its first page, at moment `i`. -/
structure ReadsDescending (e : Execution (reading (J := J) t .descending)) (i : Nat) : Prop where
  /-- one row for each row of the index -/
  ids : (t.rows (e.state i).db).map DatabaseRow.id = (t.index (e.state i).db).map Prod.fst
  /-- the end of the rows there were -/
  returned : ∀ j, i < j → (e.state j).returned <+: (t.rows (e.state i).db).reverse
  decreasing : ∀ j, i < j → (e.state j).returned.Pairwise fun a b => b.id < a.id
  /-- a short page completes the rows there were -/
  short : ∀ j limit page, i ≤ j → e.label j = some (.page limit page) →
    page.length < limit.toInt.toNat → (e.state (j + 1)).returned = (t.rows (e.state i).db).reverse
  /-- it can always go on, unless there were no rows -/
  stuck : ∀ j, i < j → PageOrder.descending.start (e.state j).pages = none →
    (e.state j).returned = (t.rows (e.state i).db).reverse
  /-- reading on and on, it gets every row -/
  everyRow : (∀ k, ∃ j, k ≤ j ∧ ∃ limit page, e.label j = some (.page limit page)) →
    ∀ r ∈ t.rows (e.state i).db, ∃ j, r ∈ (e.state j).returned

theorem reading_grows {o : PageOrder} (e : Execution (reading (J := J) t o)) (i : Nat) :
    t.rows (e.state i).db <+: t.rows (e.state (i + 1)).db ∧
      (e.state i).returned <+: (e.state (i + 1)).returned := by
  rcases e.next _ i with heq | ⟨l, -, hstep⟩
  · rw [heq]
    exact ⟨List.prefix_refl _, List.prefix_refl _⟩
  · exact ReadingStep.grows hstep

theorem readsAscending (e : Execution (reading (J := J) t .ascending))
    (hreadable : ∀ i, (e.state i).db.Readable) : ReadsAscending e := by
  have hread : ∀ i, (e.state i).returned <+: t.rows (e.state i).db := by
    intro i
    induction i with
    | zero =>
      have hnew : (e.state 0).pages = [] := e.starts
      unfold Reading.returned
      rw [hnew]
      exact List.nil_prefix
    | succ i ih =>
      rcases e.next _ i with heq | ⟨l, -, hstep⟩
      · rw [heq]; exact ih
      · exact (ReadingStep.ascending hstep (hreadable i) ih).1
  have hpage : ∀ i limit page, e.label i = some (.page limit page) →
      PageOf (t.rows (e.state i).db) (e.state i).returned (e.state (i + 1)).returned limit page := by
    intro i limit page hl
    have hstep := e.moves i
    rw [hl] at hstep
    exact (ReadingStep.ascending hstep (hreadable i) (hread i)).2 _ _ rfl
  exact {
    ids := fun i => t.rows_ids (hreadable i)
    returned := hread
    increasing := fun i => (t.rows_ascending (hreadable i)).sublist (hread i).sublist
    short := fun i limit page hl => (hpage i limit page hl).short
    stuck := fun i => ascending_stuck (hreadable i) (hread i)
    everyRow := fun hforever i r hr => by
      apply eventually_read _ _ hread (fun i => (reading_grows e i).1) (fun i => (reading_grows e i).2) _ hr
      intro i
      obtain ⟨j, hij, limit, page, hl⟩ := hforever i
      exact ⟨j, hij, (hpage j limit page hl).advances⟩ }

theorem readsDescending (e : Execution (reading (J := J) t .descending))
    (hreadable : ∀ i, (e.state i).db.Readable) {i : Nat} {limit : Int64} {page : List DatabaseRow}
    (hnew : (e.state i).pages = []) (hfirst : e.label i = some (.page limit page)) :
    ReadsDescending e i := by
  let seen := t.rows (e.state i).db
  have hstart : FromEnd t seen (e.state i) := by
    refine ⟨List.prefix_refl _, ?_, fun _ => rfl⟩
    unfold Reading.returned
    rw [hnew]
    exact List.nil_prefix
  have hstep : ∀ j limit page, e.label j = some (.page limit page) →
      ReadingStep t .descending (e.state j) (.page limit page) (e.state (j + 1)) := by
    intro j limit page hl
    have hmove := e.moves j
    rw [hl] at hmove
    exact hmove
  have hlater : ∀ k, FromEnd t seen (e.state (i + 1 + k)) ∧ (e.state (i + 1 + k)).pages ≠ [] := by
    intro k
    induction k with
    | zero =>
      obtain ⟨hend, hpages, -⟩ := (ReadingStep.descending (hstep i _ _ hfirst) (hreadable i)
        hstart).2 _ _ rfl
      exact ⟨hend, hpages⟩
    | succ k ih =>
      rcases e.next _ (i + 1 + k) with heq | ⟨l, -, hmove⟩
      · rw [← Nat.add_assoc, heq]; exact ih
      · exact (ReadingStep.descending hmove (hreadable _) ih.1).1 ih.2
  have hend : ∀ j, i < j → FromEnd t seen (e.state j) := by
    intro j hij
    obtain ⟨k, rfl⟩ := Nat.exists_eq_add_of_lt hij
    rw [show i + k + 1 = i + 1 + k by omega]
    exact (hlater k).1
  have hpage : ∀ j limit page, i ≤ j → e.label j = some (.page limit page) →
      PageOf seen.reverse (e.state j).returned (e.state (j + 1)).returned limit page := by
    intro j limit page hij hl
    have hfrom : FromEnd t seen (e.state j) := by
      by_cases heq : i = j
      · rw [← heq]; exact hstart
      · exact hend j (by omega)
    exact ((ReadingStep.descending (hstep j _ _ hl) (hreadable j) hfrom).2 _ _ rfl).2.2
  exact {
    ids := t.rows_ids (hreadable i)
    returned := fun j hij => (hend j hij).returned
    decreasing := fun j hij => by
      have hasc := t.rows_ascending (hreadable i)
      exact (List.pairwise_reverse.mpr hasc).sublist (hend j hij).returned.sublist
    short := fun j limit page hij hl => (hpage j limit page hij hl).short
    stuck := fun j hij hnone => by
      have hempty : (e.state j).returned = [] := by
        unfold PageOrder.descending at hnone
        dsimp only at hnone
        cases hlast : (e.state j).pages.flatten.getLast? with
        | none => exact List.getLast?_eq_none_iff.mp hlast
        | some a => rw [hlast] at hnone; cases hnone
      -- so the first page was empty
      have hgrows := prefix_of_le (fun k => (reading_grows e k).2) hij
      rw [hempty] at hgrows
      rcases (hpage i _ _ (Nat.le_refl i) hfirst).advances with hlt | hall
      · rw [List.prefix_nil.mp hgrows] at hlt
        exact absurd hlt (Nat.not_lt_zero _)
      · have hbefore := prefix_of_le (fun k => (reading_grows e k).2) (Nat.le_of_lt hij)
        rw [hempty, hall] at hbefore
        rw [hempty, List.prefix_nil.mp hbefore]
    everyRow := fun hforever r hr => by
      obtain ⟨k, hk⟩ := eventually_read (fun _ => seen.reverse)
        (fun k => (e.state (i + 1 + k)).returned) (fun k => (hlater k).1.returned)
        (fun _ => List.prefix_refl _) (fun k => (reading_grows e (i + 1 + k)).2) (fun k => by
          obtain ⟨j, hj, limit, page, hl⟩ := hforever (i + 1 + k)
          obtain ⟨k', rfl⟩ := Nat.exists_eq_add_of_le (show i + 1 ≤ j by omega)
          exact ⟨k', by omega, (hpage _ limit page (by omega) hl).advances⟩)
        (i := 0) (List.mem_reverse.mpr hr)
      exact ⟨_, hk⟩ }

end

/-- Paging is exact while the index grows: upwards, what was returned is at every moment the
beginning of the rows there are; downwards, the end of the rows there were at the first page. -/
theorem paging_is_exact (t : Target) (up : Execution (reading (J := J) t .ascending))
    (down : Execution (reading (J := J) t .descending)) (hup : ∀ i, (up.state i).db.Readable)
    (hdown : ∀ i, (down.state i).db.Readable) :
    ReadsAscending up ∧ ∀ i limit page, (down.state i).pages = [] →
      down.label i = some (.page limit page) → ReadsDescending down i :=
  ⟨readsAscending up hup, fun _ _ _ hnew hfirst => readsDescending down hdown hnew hfirst⟩

end

/-- Two rows of one reward, and a page of each order. -/
theorem reward_paged :
    let t : Target := .account ⟨.replicate 32 0⟩
    ∃ (up : Execution (reading (J := PlainJson) t .ascending))
      (down : Execution (reading (J := PlainJson) t .descending)) (page page' : List DatabaseRow),
      up.label 0 = some (.page 1 page) ∧ down.label 0 = some (.page 1 page') ∧
        (t.rows (up.state 0).db).map DatabaseRow.id = [1, 2] ∧
        ReadsAscending up ∧ ReadsDescending down 0 := by
  intro t
  let db : Tables PlainJson := (insertIntoDb none .empty (rewardBlock ⟨.replicate 32 0⟩)).2
  have hdb : db.Readable := by
    refine ⟨?_, by unfold SerialTable.Serial8; decide, by unfold SerialTable.Serial8; decide⟩
    intro r hr id summaryId
    obtain rfl := List.mem_singleton.mp hr
    rfl
  obtain ⟨hascending, hdescending⟩ := t.query_pages hdb (limit_pos (Int64.le_refl 1)).1 none
  let up : Execution (reading t .ascending) := .once (s := ⟨db, []⟩) rfl
    (.page (Int64.le_refl 1) rfl hascending)
  let down : Execution (reading t .descending) := .once (s := ⟨db, []⟩) rfl
    (.page (Int64.le_refl 1) rfl hdescending)
  have hup : ∀ i, (up.state i).db.Readable := by
    intro i
    cases i with
    | zero => exact hdb
    | succ i => exact hdb
  have hdown : ∀ i, (down.state i).db.Readable := by
    intro i
    cases i with
    | zero => exact hdb
    | succ i => exact hdb
  have h := paging_is_exact t up down hup hdown
  refine ⟨up, down, _, _, rfl, rfl, ?_, h.1, h.2 0 1 _ rfl rfl⟩
  exact t.rows_ids hdb

end WalletProxyIndexer
