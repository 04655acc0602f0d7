import WalletProxyIndexer.TargetRows
import WalletProxyIndexer.Lib.Transition
import WalletProxyIndexer.Lib.Paging

/-!
# The account monitor

The poller of `examples/monitor-postgres.rs`: it asks for the last row of an account to
know where new ones start, then polls for rows from there and sends each over a channel,
while blocks are inserted at any point in between.

Each poll folds over its rows with the id after the last one, and starts that fold from
the id it started with.  So a poll that finds nothing sets the next one back to the
start, and what was sent since is sent again.  Rows are sent once exactly as long as no
such poll is followed by another row (`sent_once_iff`); no row is ever missed.
-/

namespace WalletProxyIndexer

open Transition Paging

/-- `row.id + 1`, in `i64` -/
def DatabaseRow.nextId (row : DatabaseRow) : Int64 := Int64.ofNat row.id + 1

/-- Where the poller stands; `startId` is set once, before the loop. -/
inductive PollerTask where
  | starting
  | querying (startId nextStartId : Int64)
  /-- the rows of a poll that are still to come, how many came, and the new start -/
  | sending (startId : Int64) (rows : List DatabaseRow) (numRows : Nat) (newStart : Int64)
  /-- by an error, or a panic where the next id overflows -/
  | ended

structure Monitor (J : Type) where
  db : Tables J
  poller : PollerTask
  /-- what was sent over the channel, in order -/
  sent : List DatabaseRow

inductive MonitorAction where
  | block
  | start
  | query
  | send
  | lost
  | finish
  | fail
deriving DecidableEq

section
variable {J : Type} [SdkJson J]

inductive MonitorStep (addr : AccountAddress) : Monitor J → MonitorAction → Monitor J → Prop where
  | block {db db' : Tables J} {poller : PollerTask} {sent : List DatabaseRow} {k : Option Nat}
      {d : TransactionLogData} {r : Except IndexingError Unit} : insertIntoDb k db d = (r, db') →
      MonitorStep addr ⟨db, poller, sent⟩ .block ⟨db', poller, sent⟩
  | start {db : Tables J} {sent rows : List DatabaseRow} {startId : Int64} :
      db.queryAccount addr 1 (.descending none) = .ok rows →
      startId = rows.foldl (fun _ row => row.nextId) 0 →
      MonitorStep addr ⟨db, .starting, sent⟩ .start ⟨db, .querying startId startId, sent⟩
  | query {db : Tables J} {sent rows : List DatabaseRow} {startId nextStartId : Int64} :
      db.queryAccount addr 100 (.ascending (some nextStartId)) = .ok rows →
      MonitorStep addr ⟨db, .querying startId nextStartId, sent⟩ .query
        ⟨db, .sending startId rows 0 startId, sent⟩
  | send {db : Tables J} {sent rows : List DatabaseRow} {row : DatabaseRow} {numRows : Nat}
      {startId newStart : Int64} :
      MonitorStep addr ⟨db, .sending startId (row :: rows) numRows newStart, sent⟩ .send
        ⟨db, .sending startId rows (numRows + 1) row.nextId, sent ++ [row]⟩
  /-- the connection breaks: rows that did not arrive are skipped like rows that do not decode -/
  | lost {db : Tables J} {sent rows : List DatabaseRow} {numRows : Nat} {startId newStart : Int64} :
      MonitorStep addr ⟨db, .sending startId rows numRows newStart, sent⟩ .lost
        ⟨db, .sending startId [] numRows newStart, sent⟩
  | finish {db : Tables J} {sent : List DatabaseRow} {numRows : Nat} {startId newStart : Int64} :
      MonitorStep addr ⟨db, .sending startId [] numRows newStart, sent⟩ .finish
        ⟨db, .querying startId newStart, sent⟩
  | fail {db : Tables J} {poller : PollerTask} {sent : List DatabaseRow} :
      MonitorStep addr ⟨db, poller, sent⟩ .fail ⟨db, .ended, sent⟩

def monitor (J : Type) [SdkJson J] (addr : AccountAddress) : System (Monitor J) MonitorAction where
  init s := s.poller = .starting ∧ s.sent = []
  step := MonitorStep addr

/-- A poll is at its end that sets the next one back: nothing came though rows were sent before,
or the last row has the largest id, which the next start overflows. -/
def Monitor.Resets (s : Monitor J) : Prop :=
  ∃ startId numRows newStart, s.poller = .sending startId [] numRows newStart ∧ s.sent ≠ [] ∧
    (numRows = 0 ∨ ∃ row, s.sent.getLast? = some row ∧ row.id = 2 ^ 63 - 1)

/-! ## Rows -/

theorem nextId_toInt {row : DatabaseRow} (h : row.id < 2 ^ 63) :
    (row.id = 2 ^ 63 - 1 ∧ row.nextId.toInt = -2 ^ 63) ∨ row.nextId.toInt = row.id + 1 := by
  unfold DatabaseRow.nextId
  rw [Int64.toInt_add, Int64.toInt_ofNat_of_lt h]
  change _ ∨ ((row.id : Int) + 1).bmod (2 ^ 64) = _
  by_cases hmax : row.id = 2 ^ 63 - 1
  · refine Or.inl ⟨hmax, ?_⟩
    rw [hmax]
    rfl
  · refine Or.inr ?_
    rw [Int.bmod_eq_of_le (by omega) (by omega)]

theorem query_rows {db : Tables J} (h : db.Readable) {addr : AccountAddress}
    {nextStartId : Int64} {rows : List DatabaseRow}
    (hquery : db.queryAccount addr 100 (.ascending (some nextStartId)) = .ok rows) :
    rows = (((Target.account addr).rows db).filter fun r =>
      decide (nextStartId.toInt ≤ r.id)).take 100 := by
  have hlimit : ¬(100 : Int64) < 0 := by decide
  have hpages := ((Target.account addr).query_pages h hlimit (some nextStartId)).1
  exact (Except.ok.inj (hpages.symm.trans hquery)).symm

/-! ## No row is missed -/

/-- The rows from the start to below `x` were sent, and no row comes below `x` any more. -/
structure Covers (t : Target) (db : Tables J) (sent : List DatabaseRow) (startId : Int64) (x : Int) :
    Prop where
  settled : x ≤ startId.toInt ∨ ∃ r ∈ t.rows db, x ≤ r.id + 1
  sent : ∀ r ∈ t.rows db, startId.toInt ≤ r.id → (r.id : Int) < x → r ∈ sent

section
variable {t : Target} {db db' : Tables J} {sent : List DatabaseRow} {startId : Int64} {x : Int}

theorem covers_none (h : x ≤ startId.toInt) : Covers t db sent startId x :=
  ⟨Or.inl h, fun r _ hstart hx => by omega⟩

theorem Covers.grows (h : Covers t db sent startId x) (hdb' : db'.Readable)
    (hgrows : t.rows db <+: t.rows db') : Covers t db' sent startId x where
  settled := by
    rcases h.settled with hle | ⟨r, hr, hle⟩
    · exact Or.inl hle
    · exact Or.inr ⟨r, hgrows.subset hr, hle⟩
  sent := by
    intro r hr hstart hx
    have hasc := t.rows_ascending hdb'
    obtain ⟨later, hlater⟩ := hgrows
    rw [← hlater] at hr hasc
    rcases List.mem_append.mp hr with hr | hr
    · exact h.sent r hr hstart hx
    · -- a later row lies above
      rcases h.settled with hle | ⟨a, ha, hle⟩
      · omega
      · have := (List.pairwise_append.mp hasc).2.2 a ha r hr
        omega

/-- The next row of the range is sent. -/
theorem Covers.next (h : Covers t db sent startId x) (hdb : db.Readable) {row : DatabaseRow}
    {rest : List DatabaseRow}
    (hrange : (t.rows db).filter (fun r => decide (x ≤ r.id)) = row :: rest) :
    Covers t db (sent ++ [row]) startId (row.id + 1) where
  settled := by
    have hrow : row ∈ (t.rows db).filter (fun r => decide (x ≤ r.id)) := by rw [hrange]; simp
    exact Or.inr ⟨row, List.mem_of_mem_filter hrow, Int.le_refl _⟩
  sent := by
    intro r hr hstart hlt
    by_cases hx : (r.id : Int) < x
    · exact List.mem_append_left _ (h.sent r hr hstart hx)
    · have hin : r ∈ row :: rest := by
        rw [← hrange]
        exact List.mem_filter.mpr ⟨hr, by simpa using hx⟩
      have hsorted := (t.rows_ascending hdb).sublist
        (List.filter_sublist (p := fun r => decide (x ≤ (r.id : Int))))
      rw [hrange] at hsorted
      rcases List.mem_cons.mp hin with rfl | hrest
      · simp
      · have := (List.pairwise_cons.mp hsorted).1 r hrest
        omega

end

/-- The poller goes on from where the rows sent end, or further back. -/
def PollerTask.Covered (t : Target) (db : Tables J) (sent : List DatabaseRow) : PollerTask → Prop
  | .starting => sent = []
  | .querying startId nextStartId => Covers t db sent startId nextStartId.toInt
  | .sending startId rows _ newStart => Covers t db sent startId newStart.toInt ∧
    ∃ x : Int, Covers t db sent startId x ∧ rows <+: (t.rows db).filter fun r => decide (x ≤ r.id)
  | .ended => True

/-- What was sent are rows, and none was left out. -/
structure Monitor.Sound (t : Target) (s : Monitor J) : Prop where
  known : ∀ r ∈ s.sent, r ∈ t.rows s.db
  covered : s.poller.Covered t s.db s.sent

theorem MonitorStep.sound {addr : AccountAddress} {s s' : Monitor J} {l : MonitorAction}
    (h : MonitorStep addr s l s') (hs : s.Sound (.account addr)) (hdb : s.db.Readable)
    (hdb' : s'.db.Readable) : s'.Sound (.account addr) := by
  let t : Target := .account addr
  cases h with
  | @block db db' poller sent k d r hins =>
    have hgrows := t.rows_grows (insertIntoDb_grows hins)
    refine ⟨fun r hr => hgrows.subset (hs.known r hr), ?_⟩
    have hcovered := hs.covered
    cases poller with
    | starting => exact hcovered
    | querying startId nextStartId => exact hcovered.grows hdb' hgrows
    | sending startId rows numRows newStart =>
      obtain ⟨hnew, x, hx, hrows⟩ := hcovered
      exact ⟨hnew.grows hdb' hgrows, x, hx.grows hdb' hgrows, hrows.trans (hgrows.filter _)⟩
    | ended => trivial
  | start _ _ => exact ⟨hs.known, covers_none (Int.le_refl _)⟩
  | query hquery =>
    rw [query_rows hdb hquery]
    exact ⟨hs.known, covers_none (Int.le_refl _), _, hs.covered, List.take_prefix _ _⟩
  | @send db sent rows row numRows startId newStart =>
    obtain ⟨-, x, hx, later, hlater⟩ := hs.covered
    have hrow : row ∈ t.rows db := by
      have hmem : row ∈ (t.rows db).filter (fun r => decide (x ≤ r.id)) := by rw [← hlater]; simp
      exact List.mem_of_mem_filter hmem
    have hnext := hx.next hdb hlater.symm
    refine ⟨fun r hr => ?_, ?_, _, hnext, ?_⟩
    · rcases List.mem_append.mp hr with hr | hr
      · exact hs.known r hr
      · rw [List.mem_singleton.mp hr]; exact hrow
    · rcases nextId_toInt (t.rows_serial hdb row hrow).2 with ⟨-, hmin⟩ | hid
      · apply covers_none
        rw [hmin]
        exact startId.le_toInt
      · rw [hid]
        exact hnext
    · have hup : ∀ r r' : DatabaseRow, decide (x ≤ r.id) = true → r.id < r'.id →
          decide (x ≤ r'.id) = true := by
        intro r r' hr hlt
        rw [decide_eq_true_eq] at hr ⊢
        omega
      have hcut : (t.rows db).filter (fun r => decide ((row.id : Int) + 1 ≤ r.id)) =
          (t.rows db).filter fun r => decide (row.id < r.id) := by
        apply List.filter_congr
        intro r _
        rw [decide_eq_decide]
        omega
      rw [hcut, filter_above_head (t.rows_ascending hdb) hup hlater.symm]
      exact List.prefix_append _ _
  | lost =>
    obtain ⟨hnew, x, hx, -⟩ := hs.covered
    exact ⟨hs.known, hnew, x, hx, List.nil_prefix⟩
  | finish => exact ⟨hs.known, hs.covered.1⟩
  | fail => exact ⟨hs.known, trivial⟩

/-! ## Rows sent once -/

/-- All rows to come lie above those sent. -/
def PollerTask.Ahead (sent : List DatabaseRow) : PollerTask → Prop
  | .starting => sent = []
  | .querying startId nextStartId => (∀ a ∈ sent, startId.toInt ≤ a.id) ∧
    ((sent = [] ∧ nextStartId = startId) ∨
      ∃ a, sent.getLast? = some a ∧ nextStartId.toInt = a.id + 1)
  | .sending startId rows numRows newStart => (∀ a ∈ sent ++ rows, startId.toInt ≤ a.id) ∧
    (sent ++ rows).Pairwise (fun a b => a.id < b.id) ∧ (numRows = 0 → newStart = startId) ∧
    (0 < numRows → ∃ a, sent.getLast? = some a ∧ newStart = a.nextId)
  | .ended => True

/-- The next row to come, if there is one, does not lie above those sent. -/
def PollerTask.Behind (sent : List DatabaseRow) : PollerTask → Prop
  | .starting => False
  | .querying startId nextStartId => (∀ a ∈ sent, startId.toInt ≤ a.id) ∧
    ∃ a ∈ sent, nextStartId.toInt ≤ a.id
  | .sending startId rows numRows newStart => (∀ a ∈ sent, startId.toInt ≤ a.id) ∧ sent ≠ [] ∧
    numRows = 0 ∧ newStart = startId ∧ ∀ b, rows.head? = some b → ∃ a ∈ sent, b.id ≤ a.id
  | .ended => True

def Monitor.Increasing (s : Monitor J) : Prop := s.sent.Pairwise fun a b => a.id < b.id

section
variable {addr : AccountAddress} {s s' : Monitor J} {l : MonitorAction}

/-- A poll that does not set the next one back. -/
theorem MonitorStep.ahead (h : MonitorStep addr s l s') (hs : s.Sound (.account addr))
    (hdb : s.db.Readable) (hinc : s.Increasing) (hahead : s.poller.Ahead s.sent)
    (hl : l = .finish → ¬s.Resets) : s'.Increasing ∧ s'.poller.Ahead s'.sent := by
  let t : Target := .account addr
  cases h with
  | block hins => exact ⟨hinc, hahead⟩
  | @start db sent rows startId hquery hstart =>
    obtain rfl : sent = [] := hahead
    exact ⟨hinc, fun _ ha => absurd ha List.not_mem_nil, Or.inl ⟨rfl, rfl⟩⟩
  | @query db sent rows startId nextStartId hquery =>
    obtain ⟨hstart, hnext⟩ := hahead
    have hrange : ∀ r ∈ rows, nextStartId.toInt ≤ r.id := by
      intro r hr
      rw [query_rows hdb hquery] at hr
      simpa using List.of_mem_filter (List.mem_of_mem_take hr)
    have hsorted : rows.Pairwise fun a b => a.id < b.id := by
      rw [query_rows hdb hquery]
      exact (t.rows_ascending hdb).sublist ((List.take_sublist _ _).trans List.filter_sublist)
    refine ⟨hinc, ?_, ?_, fun _ => rfl, fun hpos => absurd hpos (Nat.lt_irrefl 0)⟩
    · intro a ha
      rcases List.mem_append.mp ha with ha | ha
      · exact hstart a ha
      · have hle := hrange a ha
        rcases hnext with ⟨-, rfl⟩ | ⟨b, hlast, hnext⟩
        · exact hle
        · have := hstart b (List.mem_of_getLast? hlast)
          omega
    · apply List.pairwise_append.mpr
      refine ⟨hinc, hsorted, fun a ha b hb => ?_⟩
      have hle := hrange b hb
      rcases hnext with ⟨rfl, -⟩ | ⟨c, hlast, hnext⟩
      · cases ha
      · have := le_last hinc hlast ha
        omega
  | @send db sent rows row numRows startId newStart =>
    obtain ⟨hstart, hsorted, -, -⟩ := hahead
    rw [← List.singleton_append, ← List.append_assoc] at hstart hsorted
    refine ⟨(List.pairwise_append.mp hsorted).1, hstart, hsorted, fun hzero => ?_, fun _ => ?_⟩
    · exact absurd hzero (Nat.succ_ne_zero numRows)
    · exact ⟨row, by simp, rfl⟩
  | @lost db sent rows numRows startId newStart =>
    obtain ⟨hstart, -, hnew⟩ := hahead
    refine ⟨hinc, fun a ha => ?_, ?_, hnew⟩
    · rw [List.append_nil] at ha
      exact hstart a (List.mem_append_left _ ha)
    · rw [List.append_nil]
      exact hinc
  | @finish db sent numRows startId newStart =>
    obtain ⟨hstart, -, hzero, hpos⟩ := hahead
    rw [List.append_nil] at hstart
    refine ⟨hinc, hstart, ?_⟩
    by_cases hempty : sent = []
    · subst hempty
      have hnone : numRows = 0 := by
        by_contra hne
        obtain ⟨a, hlast, -⟩ := hpos (Nat.pos_of_ne_zero hne)
        cases hlast
      exact Or.inl ⟨rfl, hzero hnone⟩
    · have hreset := hl rfl
      have hne : numRows ≠ 0 := fun h0 => hreset ⟨_, _, _, rfl, hempty, Or.inl h0⟩
      obtain ⟨a, hlast, rfl⟩ := hpos (Nat.pos_of_ne_zero hne)
      refine Or.inr ⟨a, hlast, ?_⟩
      have ha := hs.known a (List.mem_of_getLast? hlast)
      rcases nextId_toInt (t.rows_serial hdb a ha).2 with ⟨hmax, -⟩ | hid
      · exact absurd ⟨_, _, _, rfl, hempty, Or.inr ⟨a, hlast, hmax⟩⟩ hreset
      · exact hid
  | fail => exact ⟨hinc, trivial⟩

/-- A poll that sets the next one back. -/
theorem MonitorStep.resets (h : MonitorStep addr s .finish s') (hs : s.Sound (.account addr))
    (hdb : s.db.Readable) (hahead : s.poller.Ahead s.sent) (hresets : s.Resets) :
    s'.poller.Behind s'.sent := by
  obtain ⟨_, _, _, hpoller, hsent, hwhy⟩ := hresets
  cases h with
  | @finish db sent numRows startId newStart =>
    obtain ⟨rfl, -, rfl, rfl⟩ := PollerTask.sending.inj hpoller
    obtain ⟨hstart, -, hzero, hpos⟩ := hahead
    rw [List.append_nil] at hstart
    refine ⟨hstart, ?_⟩
    obtain ⟨b, hb⟩ := List.exists_mem_of_ne_nil _ hsent
    by_cases h0 : numRows = 0
    · rw [hzero h0]
      exact ⟨b, hb, hstart b hb⟩
    · obtain ⟨a, hlast, rfl⟩ := hpos (Nat.pos_of_ne_zero h0)
      have ha := hs.known a (List.mem_of_getLast? hlast)
      obtain ⟨c, hc, hmax⟩ := hwhy.resolve_left h0
      obtain rfl : a = c := Option.some.inj (hlast.symm.trans hc)
      have hserial := (Target.rows_serial _ hdb a ha).2
      rcases nextId_toInt hserial with ⟨-, hmin⟩ | hid
      · refine ⟨a, List.mem_of_getLast? hlast, ?_⟩
        rw [hmin]
        omega
      · -- the id after the largest is not there
        have := a.nextId.toInt_lt
        omega

theorem MonitorStep.send_ne (h : MonitorStep addr s .send s') : s' ≠ s := by
  intro heq
  cases h with
  | @send db sent rows row numRows startId newStart =>
    have hlen := congrArg (fun s : Monitor J => s.sent.length) heq
    simp at hlen

/-- What was set back stays so until a row is sent again. -/
theorem MonitorStep.behind (h : MonitorStep addr s l s') (hs : s.Sound (.account addr))
    (hdb : s.db.Readable) (hbehind : s.poller.Behind s.sent) :
    (l = .send ∧ ¬s'.Increasing) ∨ (l ≠ .send ∧ s'.sent = s.sent ∧ s'.poller.Behind s'.sent) := by
  let t : Target := .account addr
  cases h with
  | block hins => exact Or.inr ⟨by simp, rfl, hbehind⟩
  | start _ _ => exact hbehind.elim
  | @query db sent rows startId nextStartId hquery =>
    obtain ⟨hstart, a, ha, hle⟩ := hbehind
    refine Or.inr ⟨by simp, rfl, hstart, List.ne_nil_of_mem ha, rfl, rfl, fun b hb => ⟨a, ha, ?_⟩⟩
    have hsorted : rows.Pairwise fun a b => a.id < b.id := by
      rw [query_rows hdb hquery]
      exact (t.rows_ascending hdb).sublist ((List.take_sublist _ _).trans List.filter_sublist)
    rw [query_rows hdb hquery] at hb
    have hb' : ((t.rows db).filter fun r => decide (nextStartId.toInt ≤ r.id)).head? = some b := by
      rwa [List.head?_take, if_neg (by decide)] at hb
    apply head_le ((t.rows_ascending hdb).sublist List.filter_sublist) hb'
    exact List.mem_filter.mpr ⟨hs.known a ha, by simpa using hle⟩
  | @send db sent rows row numRows startId newStart =>
    obtain ⟨-, -, -, -, hhead⟩ := hbehind
    obtain ⟨a, ha, hle⟩ := hhead row rfl
    refine Or.inl ⟨rfl, fun hinc => ?_⟩
    have := (List.pairwise_append.mp hinc).2.2 a ha row (List.mem_singleton_self row)
    omega
  | lost =>
    obtain ⟨hstart, hsent, hnum, hnew, -⟩ := hbehind
    exact Or.inr ⟨by simp, rfl, hstart, hsent, hnum, hnew, fun b hb => by cases hb⟩
  | @finish db sent numRows startId newStart =>
    obtain ⟨hstart, hsent, -, rfl, -⟩ := hbehind
    obtain ⟨b, hb⟩ := List.exists_mem_of_ne_nil _ hsent
    exact Or.inr ⟨by simp, rfl, hstart, b, hb, hstart b hb⟩
  | fail => exact Or.inr ⟨by simp, rfl, trivial⟩

/-! ## Polls that catch up -/

/-- During a poll of `rows`, begun when `before` was sent: what was sent since are its first rows. -/
def PollerTask.Polls (startId : Int64) (before rows sent : List DatabaseRow) : PollerTask → Prop
  | .starting => False
  | .sending startId' rest numRows _ => startId' = startId ∧
    ∃ done, sent = before ++ done ∧ done.length = numRows ∧ done ++ rest = rows
  | _ => True

theorem MonitorStep.polls (h : MonitorStep addr s l s') (hquery : l ≠ .query) (hlost : l ≠ .lost)
    {startId : Int64} {before rows : List DatabaseRow}
    (hpolls : s.poller.Polls startId before rows s.sent) :
    s'.poller.Polls startId before rows s'.sent := by
  cases h with
  | block hins => exact hpolls
  | start _ _ => exact hpolls.elim
  | query _ => exact absurd rfl hquery
  | @send db sent rest row numRows startId' newStart =>
    obtain ⟨hstart, done, rfl, rfl, rfl⟩ := hpolls
    refine ⟨hstart, done ++ [row], ?_, ?_, ?_⟩
    · rw [List.append_assoc]
    · rw [List.length_append, List.length_singleton]
    · rw [List.append_assoc]
      rfl
  | lost => exact absurd rfl hlost
  | finish => trivial
  | fail => trivial

/-- A poll from moment `i` to moment `j` that got all its rows, fewer than it asked for. -/
structure CatchesUp (e : Execution (monitor J addr)) (startId : Int64) (i j : Nat) : Prop where
  before : i < j
  query : e.label i = some .query
  polling : ∃ nextStartId, (e.state i).poller = .querying startId nextStartId
  undisturbed : ∀ m, i < m → m < j → e.label m ≠ some .query ∧ e.label m ≠ some .lost
  finish : e.label j = some .finish
  fewer : ∃ numRows newStart, (e.state j).poller = .sending startId [] numRows newStart ∧ numRows < 100

theorem caught_up {e : Execution (monitor J addr)} (hdb : ∀ i, (e.state i).db.Readable)
    (hsound : ∀ i, (e.state i).Sound (.account addr)) {startId : Int64} {i j : Nat}
    (h : CatchesUp e startId i j) {r : DatabaseRow} (hr : r ∈ (Target.account addr).rows (e.state i).db)
    (hstart : startId.toInt ≤ r.id) : r ∈ (e.state j).sent := by
  let range (x : Int64) := ((Target.account addr).rows (e.state i).db).filter fun r =>
    decide (x.toInt ≤ r.id)
  obtain ⟨nextStartId, hi⟩ := h.polling
  have hcovered := (hsound i).covered
  rw [hi] at hcovered
  have hfirst : (e.state (i + 1)).poller.Polls startId (e.state i).sent ((range nextStartId).take 100)
      (e.state (i + 1)).sent := by
    have hstep := e.moves i
    rw [h.query] at hstep
    have hdbi := hdb i
    simp only [range]
    generalize e.state i = s at hstep hi hdbi
    generalize e.state (i + 1) = s' at hstep
    cases hstep with
    | query hquery =>
      obtain ⟨rfl, rfl⟩ := PollerTask.querying.inj hi
      exact ⟨rfl, [], by simp, rfl, query_rows hdbi hquery⟩
  have hlater : ∀ k, i + 1 + k ≤ j → (e.state (i + 1 + k)).poller.Polls startId (e.state i).sent
      ((range nextStartId).take 100) (e.state (i + 1 + k)).sent := by
    intro k
    induction k with
    | zero => exact fun _ => hfirst
    | succ k ih =>
      intro hk
      have hpolls := ih (by omega)
      rcases e.next _ (i + 1 + k) with heq | ⟨l, hl, hstep⟩
      · rw [← Nat.add_assoc, heq]; exact hpolls
      · have hbetween := h.undisturbed (i + 1 + k) (by omega) (by omega)
        rw [hl] at hbetween
        exact MonitorStep.polls hstep (fun hq => hbetween.1 (by rw [hq]))
          (fun hq => hbetween.2 (by rw [hq])) hpolls
  obtain ⟨numRows, newStart, hj, hfewer⟩ := h.fewer
  obtain ⟨k, rfl⟩ := Nat.exists_eq_add_of_le h.before
  have hpolls := hlater k (Nat.le_refl _)
  rw [hj] at hpolls
  obtain ⟨-, done, hsent, rfl, hdone⟩ := hpolls
  rw [List.append_nil] at hdone
  -- fewer rows than asked for are all there are
  have hall : done = range nextStartId := by
    rw [hdone, List.length_take] at hfewer
    rw [hdone]
    exact List.take_of_length_le (by omega)
  rw [hsent]
  by_cases hlt : (r.id : Int) < nextStartId.toInt
  · exact List.mem_append_left _ (hcovered.sent r hr hstart hlt)
  · apply List.mem_append_right
    rw [hall]
    exact List.mem_filter.mpr ⟨hr, by simpa using hlt⟩

/-! ## Runs -/

theorem monitor_sound {e : Execution (monitor J addr)} (hdb : ∀ i, (e.state i).db.Readable) (i : Nat) :
    (e.state i).Sound (.account addr) := by
  induction i with
  | zero =>
    obtain ⟨hpoller, hsent⟩ := e.starts
    refine ⟨?_, ?_⟩
    · rw [hsent]; exact fun _ ha => absurd ha List.not_mem_nil
    · rw [hpoller]; exact hsent
  | succ i ih =>
    rcases e.next _ i with heq | ⟨l, -, hstep⟩
    · rw [heq]; exact ih
    · exact MonitorStep.sound hstep ih (hdb i) (hdb (i + 1))

section
variable {e : Execution (monitor J addr)} (hdb : ∀ i, (e.state i).db.Readable) {i : Nat}
include hdb

theorem ahead_next (hinc : (e.state i).Increasing)
    (h : (e.state i).poller.Ahead (e.state i).sent) : (e.state (i + 1)).Increasing ∧
      ((e.state (i + 1)).poller.Ahead (e.state (i + 1)).sent ∨
        (e.label i = some .finish ∧ (e.state i).Resets ∧
          (e.state (i + 1)).poller.Behind (e.state (i + 1)).sent)) := by
  have hsound := monitor_sound hdb i
  rcases e.next _ i with heq | ⟨l, hl, hstep⟩
  · rw [heq]
    exact ⟨hinc, Or.inl h⟩
  · by_cases hreset : l = .finish ∧ (e.state i).Resets
    · obtain ⟨rfl, hreset⟩ := hreset
      have hsent : (e.state (i + 1)).sent = (e.state i).sent := by
        generalize e.state i = s at hstep
        generalize e.state (i + 1) = s' at hstep
        cases hstep
        rfl
      refine ⟨?_, Or.inr ⟨hl, hreset, MonitorStep.resets hstep hsound (hdb i) h hreset⟩⟩
      unfold Monitor.Increasing
      rw [hsent]
      exact hinc
    · obtain ⟨hinc', hahead⟩ := MonitorStep.ahead hstep hsound (hdb i) hinc h
        fun hfinish hr => hreset ⟨hfinish, hr⟩
      exact ⟨hinc', Or.inl hahead⟩

theorem behind_next (hinc : (e.state i).Increasing)
    (h : (e.state i).poller.Behind (e.state i).sent) :
    (e.label i = some .send ∧ ¬(e.state (i + 1)).Increasing) ∨
    (e.label i ≠ some .send ∧ (e.state (i + 1)).Increasing ∧
      (e.state (i + 1)).poller.Behind (e.state (i + 1)).sent) := by
  rcases e.next _ i with heq | ⟨l, hl, hstep⟩
  · rw [heq]
    by_cases hsend : e.label i = some .send
    · -- a step that sends a row changes the state
      have hstep := e.moves i
      rw [hsend] at hstep
      exact absurd heq (MonitorStep.send_ne hstep)
    · exact Or.inr ⟨hsend, hinc, h⟩
  · rw [hl]
    rcases MonitorStep.behind hstep (monitor_sound hdb i) (hdb i) h with ⟨rfl, hnot⟩ | ⟨hne, hsent, hbehind⟩
    · exact Or.inl ⟨rfl, hnot⟩
    · refine Or.inr ⟨fun heq => hne (Option.some.inj heq), ?_, hbehind⟩
      unfold Monitor.Increasing
      rw [hsent]
      exact hinc

/-- What a run is sure of while ids increase: rows to come lie above, or a poll set it back. -/
theorem ahead_or_behind (hinc : ∀ i, (e.state i).Increasing) (i : Nat) :
    (e.state i).poller.Ahead (e.state i).sent ∨ (e.state i).poller.Behind (e.state i).sent := by
  induction i with
  | zero =>
    obtain ⟨hpoller, hsent⟩ := e.starts
    rw [hpoller, hsent]
    exact Or.inl rfl
  | succ i ih =>
    rcases ih with hahead | hbehind
    · exact (ahead_next hdb (hinc i) hahead).2.imp id fun h => h.2.2
    · rcases behind_next hdb (hinc i) hbehind with ⟨-, hnot⟩ | ⟨-, -, h⟩
      · exact absurd (hinc (i + 1)) hnot
      · exact Or.inr h

/-- Ids cannot increase if a row comes after a poll that set the next one back. -/
theorem not_sent_after_reset (hinc : ∀ i, (e.state i).Increasing)
    (hfinish : e.label i = some .finish) (hreset : (e.state i).Resets) {k : Nat} (hik : i < k) :
    e.label k ≠ some .send := by
  have hset : (e.state (i + 1)).poller.Behind (e.state (i + 1)).sent := by
    have hstep := e.moves i
    rw [hfinish] at hstep
    rcases ahead_or_behind hdb hinc i with hahead | hbehind
    · exact MonitorStep.resets hstep (monitor_sound hdb i) (hdb i) hahead hreset
    · rcases behind_next hdb (hinc i) hbehind with ⟨hl, -⟩ | ⟨-, -, h⟩
      · rw [hfinish] at hl; cases hl
      · exact h
  have hstays : ∀ m, (e.state (i + 1 + m)).poller.Behind (e.state (i + 1 + m)).sent := by
    intro m
    induction m with
    | zero => exact hset
    | succ m ih =>
      rcases behind_next hdb (hinc _) ih with ⟨-, hnot⟩ | ⟨-, -, h⟩
      · exact absurd (hinc (i + 1 + m + 1)) hnot
      · exact h
  obtain ⟨m, rfl⟩ := Nat.exists_eq_add_of_le hik
  rcases behind_next hdb (hinc _) (hstays m) with ⟨-, hnot⟩ | ⟨hne, -⟩
  · exact absurd (hinc (i + 1 + m + 1)) hnot
  · exact hne

/-- Ids increase if no row comes after a poll that set the next one back. -/
theorem increasing_of_not_sent (hnone : ∀ i k, i < k → e.label i = some .finish →
    (e.state i).Resets → e.label k ≠ some .send) (i : Nat) : (e.state i).Increasing ∧
      ((e.state i).poller.Ahead (e.state i).sent ∨
        ((e.state i).poller.Behind (e.state i).sent ∧
          ∃ j < i, e.label j = some .finish ∧ (e.state j).Resets)) := by
  induction i with
  | zero =>
    obtain ⟨hpoller, hsent⟩ := e.starts
    unfold Monitor.Increasing
    rw [hpoller, hsent]
    exact ⟨.nil, Or.inl rfl⟩
  | succ i ih =>
    obtain ⟨hinc, hahead | ⟨hbehind, j, hji, hfinish, hreset⟩⟩ := ih
    · obtain ⟨hinc', h⟩ := ahead_next hdb hinc hahead
      exact ⟨hinc', h.imp id fun h => ⟨h.2.2, i, Nat.lt_succ_self i, h.1, h.2.1⟩⟩
    · rcases behind_next hdb hinc hbehind with ⟨hsend, -⟩ | ⟨-, hinc', h⟩
      · exact absurd hsend (hnone j i hji hfinish hreset)
      · exact ⟨hinc', Or.inr ⟨h, j, by omega, hfinish, hreset⟩⟩

end

/-- The poller sends each row once, in the order of their ids, exactly as long as no poll that
found nothing after rows were sent (or ended on the largest id) is followed by another row.  And
it leaves none out: after a poll that got all its rows, every row from the start is sent. -/
theorem sent_once_iff (e : Execution (monitor J addr)) (hdb : ∀ i, (e.state i).db.Readable) :
    ((∀ i, (e.state i).Increasing) ↔ ∀ i k, i < k → e.label i = some .finish → (e.state i).Resets →
      e.label k ≠ some .send) ∧
    ∀ startId i j, CatchesUp e startId i j → ∀ r ∈ (Target.account addr).rows (e.state i).db,
      startId.toInt ≤ r.id → r ∈ (e.state j).sent := by
  refine ⟨⟨?_, ?_⟩, ?_⟩
  · intro hinc i k hik hfinish hreset
    exact not_sent_after_reset hdb hinc hfinish hreset hik
  · intro hnone i
    exact (increasing_of_not_sent hdb hnone i).1
  · intro startId i j h r hr hstart
    exact caught_up hdb (monitor_sound hdb) h hr hstart

end

end

/-- A block that pays an account. -/
def payingBlock (account : AccountAddress) : TransactionLogData where
  blockInfo := ⟨⟨.replicate 32 0⟩, 0, 0, 0⟩
  itemSummaries := []
  specialEvents := [.paydayAccountReward account]
  bindings := .new

theorem payingBlock_readable :
    (insertIntoDb none (.empty : Tables PlainJson) (payingBlock ⟨.replicate 32 0⟩)).2.Readable := by
  let db : Tables PlainJson := (insertIntoDb none .empty (payingBlock ⟨.replicate 32 0⟩)).2
  have hati : db.ati.ids = [1] := rfl
  have hcti : db.cti.ids = [] := rfl
  constructor
  · intro r hr id summaryId
    obtain rfl := List.mem_singleton.mp hr
    rfl
  · intro id hid
    rw [hati] at hid
    rw [List.mem_singleton.mp hid]
    decide
  · intro id hid
    rw [hcti] at hid
    cases hid

/-- The monitor starts behind the row of an account; so far it sends each row once. -/
theorem monitor_starts :
    let addr : AccountAddress := ⟨.replicate 32 0⟩
    ∃ e : Execution (monitor PlainJson addr), e.label 0 = some .start ∧
      (e.state 1).poller = .querying 2 2 ∧ ∀ i, (e.state i).Increasing := by
  intro addr
  let t : Target := .account addr
  let db : Tables PlainJson := (insertIntoDb none .empty (payingBlock addr)).2
  let row : DatabaseRow := ⟨1, ⟨.replicate 32 0⟩, 0, 0, .protocolEvent (.paydayAccountReward addr)⟩
  have hdb : db.Readable := payingBlock_readable
  have hrows : t.rows db = [row] := rfl
  have hquery : db.queryAccount addr 1 (.descending none) = .ok [row] := by
    have hlimit : ¬(1 : Int64) < 0 := by decide
    have hpages := (t.query_pages hdb hlimit none).2
    rw [hrows] at hpages
    exact hpages
  have hstart : (2 : Int64) = [row].foldl (fun _ row => row.nextId) 0 := rfl
  let e : Execution (monitor PlainJson addr) := .once (s := ⟨db, .starting, []⟩) ⟨rfl, rfl⟩
    (.start hquery hstart)
  have hall : ∀ i, (e.state i).db.Readable := by
    intro i
    cases i with
    | zero => exact hdb
    | succ i => exact hdb
  refine ⟨e, rfl, rfl, (sent_once_iff e hall).1.mpr fun i k _ hfinish => ?_⟩
  cases i with
  | zero => cases hfinish
  | succ i => cases hfinish

/-- A row is sent, the next poll finds nothing, and the one after that sends the row again. -/
theorem row_sent_twice :
    let addr : AccountAddress := ⟨.replicate 32 0⟩
    ∃ s, Reachable ((monitor PlainJson addr).restrict fun s _ => s.db.Readable) s ∧ ¬s.Increasing := by
  intro addr
  let t : Target := .account addr
  let S := (monitor PlainJson addr).restrict fun s _ => s.db.Readable
  let db : Tables PlainJson := (insertIntoDb none .empty (payingBlock addr)).2
  let row : DatabaseRow := ⟨1, ⟨.replicate 32 0⟩, 0, 0, .protocolEvent (.paydayAccountReward addr)⟩
  have hempty : (Tables.empty : Tables PlainJson).Readable :=
    ⟨fun r hr => by simp [Tables.empty] at hr, by unfold SerialTable.Serial8; decide,
      by unfold SerialTable.Serial8; decide⟩
  have hdb : db.Readable := payingBlock_readable
  have hrows : t.rows db = [row] := rfl
  -- the start finds nothing, a poll from there the row, and one from behind it nothing
  have hstart : (Tables.empty : Tables PlainJson).queryAccount addr 1 (.descending none) = .ok [] := by
    have hlimit : ¬(1 : Int64) < 0 := by decide
    exact (t.query_pages hempty hlimit none).2
  have hquery : ∀ nextStartId : Int64, db.queryAccount addr 100 (.ascending (some nextStartId)) =
      .ok (([row].filter fun r => decide (nextStartId.toInt ≤ r.id)).take 100) := by
    intro nextStartId
    have hlimit : ¬(100 : Int64) < 0 := by decide
    have hpages := (t.query_pages hdb hlimit (some nextStartId)).1
    rw [hrows] at hpages
    exact hpages
  have hfound : db.queryAccount addr 100 (.ascending (some 0)) = .ok [row] := hquery 0
  have hnothing : db.queryAccount addr 100 (.ascending (some row.nextId)) = .ok [] := hquery row.nextId
  have hstarting : Reachable S ⟨.empty, .starting, []⟩ := .init ⟨rfl, rfl⟩
  have hstarted : Reachable S ⟨.empty, .querying 0 0, []⟩ :=
    hstarting.step ⟨hempty, .start hstart rfl⟩
  have hinserted : Reachable S ⟨db, .querying 0 0, []⟩ :=
    hstarted.step ⟨hempty, .block (k := none) (d := payingBlock addr) (r := .ok ()) rfl⟩
  have hpolled : Reachable S ⟨db, .sending 0 [row] 0 0, []⟩ := hinserted.step ⟨hdb, .query hfound⟩
  have hsent : Reachable S ⟨db, .sending 0 [] 1 row.nextId, [row]⟩ := hpolled.step ⟨hdb, .send⟩
  have hfinished : Reachable S ⟨db, .querying 0 row.nextId, [row]⟩ := hsent.step ⟨hdb, .finish⟩
  have hagain : Reachable S ⟨db, .sending 0 [] 0 0, [row]⟩ := hfinished.step ⟨hdb, .query hnothing⟩
  have hreset : Reachable S ⟨db, .querying 0 0, [row]⟩ := hagain.step ⟨hdb, .finish⟩
  have hrepolled : Reachable S ⟨db, .sending 0 [row] 0 0, [row]⟩ := hreset.step ⟨hdb, .query hfound⟩
  have htwice : Reachable S ⟨db, .sending 0 [] 1 row.nextId, [row, row]⟩ := hrepolled.step ⟨hdb, .send⟩
  refine ⟨_, htwice, fun h => ?_⟩
  exact absurd ((List.pairwise_cons.mp h).1 row (List.mem_singleton_self row)) (Nat.lt_irrefl _)

end WalletProxyIndexer
