import WalletProxyIndexer.Availability
import WalletProxyIndexer.UnansweredCommit

/-!
# Several indexers on one database

Nothing in the code keeps a second indexer from running against the same database: only the
migrations are guarded (`migrations_applied_once`).  A `Fleet` is any number of indexers of one
chain, each with its own settings, nodes, failures and restarts.

    fleet_loses_nothing    the tables hold a list of blocks that leaves out no block with rows
                           below one that is in it; a block is in it at most once for each
                           start of an indexer, and once for each unanswered commit of it
    fleet_repeats          and that often it can be in it

Each block is inserted in a transaction of its own, so the commits are the steps.  The ids of
its rows are drawn before it commits.  When several indexers write, the row with the largest
id is therefore not the one committed last, and `get_last_block_height` may be answered with
the height of any row (`LastHeight`).
-/

namespace WalletProxyIndexer

open Transition

/-! ## Fleets -/

structure Fleet (D DB NH : Type) where
  db : DB
  process : Nat → Option (Process D NH)

section
variable {D DB NH : Type}

/-- Indexer `i`, on its own. -/
def Fleet.member (s : Fleet D DB NH) (i : Nat) : Service D DB NH := ⟨s.db, s.process i⟩

def Fleet.set (s : Fleet D DB NH) (i : Nat) (t : Service D DB NH) : Fleet D DB NH :=
  ⟨t.db, Function.update s.process i t.process⟩

theorem Fleet.set_process_self (s : Fleet D DB NH) (i : Nat) (t : Service D DB NH) :
    (s.set i t).process i = t.process :=
  Function.update_self ..

theorem Fleet.set_process_ne (s : Fleet D DB NH) {i j : Nat} (t : Service D DB NH) (h : j ≠ i) :
    (s.set i t).process j = s.process j :=
  Function.update_of_ne h ..

end

section
variable {J : Type} [SdkJson J]

omit [SdkJson J] in
/-- What `get_last_block_height` may answer. -/
def LastHeight (c : Contents J) : Option AbsoluteBlockHeight → Prop
  | none => c.heights = []
  | some h => h ∈ c.heights

/-- An indexer that reads the last height by `read`. -/
def memberSetup (chain : Chain) (args : SharedIndexerArgs) (initial : Tables J → Prop)
    (read : Tables J → Option AbsoluteBlockHeight) :
    Setup TransactionLogData (Tables J) CanonicalAddressCache :=
  { indexer chain args initial with
    databaseHooks := { insertIntoDb := insertIntoDb, onRequestMaxHeight := read } }

/-- Indexers, numbered, each with its arguments. -/
def fleet (chain : Chain) (args : Nat → SharedIndexerArgs) (initial : Tables J → Prop) :
    System (Fleet TransactionLogData (Tables J) CanonicalAddressCache)
      (Nat × Action TransactionLogData) where
  init s := initial s.db ∧ ∀ i, s.process i = none
  step s l s' := ∃ read t, LastHeight s.db.contents (read s.db) ∧
    ServiceStep (memberSetup chain (args l.1) initial read) (s.member l.1) l.2 t ∧ s' = s.set l.1 t

omit [SdkJson J] in
/-- A single indexer reads the height of a row. -/
theorem lastHeight_getLastBlockHeight (db : Tables J) :
    LastHeight db.contents (getLastBlockHeight db) := by
  rw [getLastBlockHeight_eq]
  unfold LastHeight
  cases hlast : db.contents.heights.getLast? with
  | none => exact List.getLast?_eq_none_iff.mp hlast
  | some h => exact List.mem_of_getLast? hlast

/-! ## One member -/

section
variable {D DB NH : Type} {setup : Setup D DB NH} {isData : Nat → D → Prop} {cursor : Option Nat}
  {p p' : Process D NH} {db db' : DB}

/-- Up to the start height, a step of the database task reads it or nothing. -/
theorem Process.Tracks.reads {l : Action D} (h : p.Tracks isData cursor)
    (he : p.database.early = true) (hstep : DatabaseStep setup db p l db' p') :
    l = .database ∧ db' = db ∧ p'.Tracks isData (some (setup.databaseHooks.startFrom db).toNat) := by
  have h' := h.anyCursor he (some (setup.databaseHooks.startFrom db).toNat)
  have hlate : ∀ {d : DatabaseTask D}, p.database = d → d.early ≠ false := by
    intro d hd hlate
    rw [hd, hlate] at he
    cases he
  cases hstep with
  | connected hd => exact ⟨rfl, rfl, h'.connects he rfl⟩
  | connectFailed hd _ => exact ⟨rfl, rfl, h'.connects he rfl⟩
  | heightRead hd hn => exact ⟨rfl, rfl, h.heightRead hd hn⟩
  | connectGaveUp _ _ _
  | heightNotSent _ _
  | heightNotRead _ _
  | shutdownConnecting _ _
  | shutdown _ _ _ _
  | aborted _ _ => exact ⟨rfl, rfl, h'.ends _ rfl⟩
  | received hd _
  | channelClosed hd _ _
  | inserted hd _
  | insertedUnanswered hd _
  | unknownData hd _
  | connectionLost hd _
  | reconnected hd
  | reconnectFailed hd _
  | reconnectGaveUp _ hd _ => exact absurd rfl (hlate hd)

/-- A commit that goes unanswered leaves the cursor where it is. -/
theorem Process.Tracks.insertedUnanswered (h : p.Tracks isData cursor) {data : D}
    (hd : p.database = .inserting data) : ∃ n, cursor = some n ∧ isData n data ∧ n + 1 < 2 ^ 64 ∧
      ({ p with database := .reconnecting data 1 } : Process D NH).Tracks isData (some n) := by
  obtain ⟨hpipe, he, hf, n, rfl, hdata, hlt, -⟩ := h.head hd
  exact ⟨n, rfl, hdata, hlt, h.keeps rfl hpipe.symm he hf⟩

end

/-! ## The index they share -/

section
variable {chain : Chain} {args : Nat → SharedIndexerArgs} {initial : Tables J → Prop}

/-- The process may still commit block `n`. -/
def Process.Before (p : Process TransactionLogData CanonicalAddressCache) (cursor : Option Nat)
    (n : Nat) : Prop :=
  p.database.early = true ∨ ∃ q, cursor = some q ∧ q ≤ n

def Process.Follows (chain : Chain) (p : Process TransactionLogData CanonicalAddressCache)
    (cursor : Option Nat) : Prop :=
  p.Coordinated ∧ p.hooks.Canonical chain ∧ p.Tracks chain.BlockData cursor

/-- The blocks in the tables after `c` starts, where `u n` commits of block `n` went unanswered. -/
structure SharedIndex (chain : Chain) (c : Nat) (u : Nat → Nat) (ns : List Nat)
    (cursor : Nat → Option Nat) (s : Fleet TransactionLogData (Tables J) CanonicalAddressCache) :
    Prop where
  contents : s.db.contents = chain.contents J ns
  blocks : ∀ n ∈ ns, n + 1 < 2 ^ 64 ∧ (chain.blockData n).hasRows = true
  complete : ∀ n ∈ ns, ∀ m < n, chain.hasRows m = true → m ∈ ns
  below : ∀ i q, cursor i = some q → ∀ m < q, chain.hasRows m = true → m ∈ ns
  tracked : ∀ i p, s.process i = some p → p.Follows chain (cursor i)
  /-- starts are left over for the processes that may still commit the block -/
  copies : ∀ n, ∃ before : Finset Nat,
    (∀ i p, s.process i = some p → p.Before (cursor i) n → i ∈ before) ∧
    ns.count n + before.card ≤ u n + c

variable {c c' : Nat} {u u' : Nat → Nat} {ns : List Nat} {cursor : Nat → Option Nat}
  {s s' : Fleet TransactionLogData (Tables J) CanonicalAddressCache}

theorem SharedIndex.mono (h : SharedIndex chain c u ns cursor s) (hc : c ≤ c') (hu : ∀ n, u n ≤ u' n) :
    SharedIndex chain c' u' ns cursor s where
  contents := h.contents
  blocks := h.blocks
  complete := h.complete
  below := h.below
  tracked := h.tracked
  copies n := by
    obtain ⟨before, hbefore, hle⟩ := h.copies n
    have := hu n
    exact ⟨before, hbefore, by omega⟩

omit [SdkJson J] in
/-- What holds of member `i` after its step, and of the others before it, holds of all after it. -/
theorem forall_set {i : Nat} {t : Service TransactionLogData (Tables J) CanonicalAddressCache}
    {x : Option Nat}
    {P : Nat → Process TransactionLogData CanonicalAddressCache → Option Nat → Prop}
    (h : ∀ j p, j ≠ i → s.process j = some p → P j p (cursor j))
    (hi : ∀ p, t.process = some p → P i p x) :
    ∀ j p, (s.set i t).process j = some p → P j p (Function.update cursor i x j) := by
  intro j p hp
  by_cases hji : j = i
  · subst hji
    rw [s.set_process_self] at hp
    rw [Function.update_self]
    exact hi p hp
  · rw [s.set_process_ne t hji] at hp
    rw [Function.update_of_ne hji]
    exact h j p hji hp

omit [SdkJson J] in
theorem before_set {i n : Nat} {t : Service TransactionLogData (Tables J) CanonicalAddressCache}
    {x : Option Nat} {before : Finset Nat}
    (h : ∀ j p, j ≠ i → s.process j = some p → p.Before (cursor j) n → j ∈ before)
    (hi : ∀ p, t.process = some p → p.Before x n → i ∈ before) :
    ∀ j p, (s.set i t).process j = some p → p.Before (Function.update cursor i x j) n → j ∈ before :=
  forall_set (P := fun j p y => p.Before y n → j ∈ before) h hi

theorem below_set {i : Nat} {x : Option Nat} {ns' : List Nat}
    (h : ∀ j q, cursor j = some q → ∀ m < q, chain.hasRows m = true → m ∈ ns)
    (hns : ∀ m ∈ ns, m ∈ ns') (hx : ∀ q, x = some q → ∀ m < q, chain.hasRows m = true → m ∈ ns') :
    ∀ j q, Function.update cursor i x j = some q → ∀ m < q, chain.hasRows m = true → m ∈ ns' := by
  intro j q hq
  by_cases hji : j = i
  · subst hji
    rw [Function.update_self] at hq
    exact hx q hq
  · rw [Function.update_of_ne hji] at hq
    exact fun m hm hrows => hns m (h j q hq m hm hrows)

/-- A step of member `i` that commits nothing. -/
theorem SharedIndex.moves (h : SharedIndex chain c u ns cursor s) {i : Nat} {x : Option Nat}
    {t : Service TransactionLogData (Tables J) CanonicalAddressCache}
    (hcontents : t.db.contents = s.db.contents)
    (hx : ∀ q, x = some q → ∀ m < q, chain.hasRows m = true → m ∈ ns)
    (htracked : ∀ p, t.process = some p → p.Follows chain x)
    (hbefore : ∀ p n, t.process = some p → p.Before x n →
      ∃ p₀, s.process i = some p₀ ∧ p₀.Before (cursor i) n) :
    SharedIndex chain c u ns (Function.update cursor i x) (s.set i t) where
  contents := hcontents.trans h.contents
  blocks := h.blocks
  complete := h.complete
  below := below_set h.below (fun _ hm => hm) hx
  tracked := forall_set (fun j p _ => h.tracked j p) htracked
  copies n := by
    obtain ⟨before, hmem, hle⟩ := h.copies n
    refine ⟨before, before_set (fun j p _ => hmem j p) fun p hp hb => ?_, hle⟩
    obtain ⟨p₀, hp₀, hb₀⟩ := hbefore p n hp hb
    exact hmem i p₀ hp₀ hb₀

/-- An indexer is started. -/
theorem SharedIndex.starts (h : SharedIndex chain c u ns cursor s) {i : Nat}
    {p : Process TransactionLogData CanonicalAddressCache} (hp : p.Follows chain (cursor i)) :
    SharedIndex chain (c + 1) u ns (Function.update cursor i (cursor i)) (s.set i ⟨s.db, some p⟩) where
  contents := h.contents
  blocks := h.blocks
  complete := h.complete
  below := below_set h.below (fun _ hm => hm) (h.below i)
  tracked := forall_set (fun j p _ => h.tracked j p) fun p' hp' => by
    obtain rfl := Option.some.inj hp'
    exact hp
  copies n := by
    obtain ⟨before, hmem, hle⟩ := h.copies n
    refine ⟨insert i before, before_set
      (fun j p _ hj hb => Finset.mem_insert_of_mem (hmem j p hj hb))
      (fun _ _ _ => Finset.mem_insert_self i before), ?_⟩
    have := Finset.card_insert_le i before
    omega

/-- Member `i` commits the block at its cursor. -/
theorem SharedIndex.commits (h : SharedIndex chain c u ns cursor s) {i q : Nat} {k : Option Nat}
    {d : TransactionLogData} {db' : Tables J}
    {p p' : Process TransactionLogData CanonicalAddressCache} (answered : Bool)
    (hp : s.process i = some p) (hq : cursor i = some q) (hdata : chain.BlockData q d)
    (hlt : q + 1 < 2 ^ 64) (hins : insertIntoDb k s.db d = (.ok (), db'))
    (htracked : p'.Follows chain (some (if answered then q + 1 else q)))
    (hlate : p'.database.early = false) (hu : ∀ n, u n ≤ u' n)
    (hcopy : answered = false → u q + 1 ≤ u' q) :
    ∃ ns', ns <+: ns' ∧ SharedIndex chain c u' ns'
      (Function.update cursor i (some (if answered then q + 1 else q))) (s.set i ⟨db', some p'⟩) := by
  obtain ⟨hrec, -, -, hsame⟩ := commit_contents hdata hlt hins
  have hrows : (chain.blockData q).hasRows = chain.hasRows q := by
    rw [← hdata.hasRows, ← hdata.eq_blockData]
    rfl
  have hnext : q ≤ (if answered then q + 1 else q) ∧ (if answered then q + 1 else q) ≤ q + 1 := by
    split <;> omega
  -- whoever may commit a block after the step could do so before it
  have hold : ∀ (before : Finset Nat) n,
      (∀ j p, s.process j = some p → p.Before (cursor j) n → j ∈ before) →
      ∀ p'', some p' = some p'' → p''.Before (some (if answered then q + 1 else q)) n →
        i ∈ before ∧ (if answered then q + 1 else q) ≤ n := by
    intro before n hmem p'' hp'' hb
    obtain rfl := Option.some.inj hp''
    rcases hb with he | ⟨q', hq', hle⟩
    · rw [hlate] at he; cases he
    · obtain rfl := Option.some.inj hq'
      exact ⟨hmem i p hp (Or.inr ⟨q, hq, by omega⟩), hle⟩
  cases hr : chain.hasRows q with
  | false =>
    refine ⟨ns, List.prefix_rfl, ?_⟩
    exact {
      contents := (hsame hr).trans h.contents
      blocks := h.blocks
      complete := h.complete
      below := below_set h.below (fun _ hm => hm) fun q' hq' m hm hrow => by
        obtain rfl := Option.some.inj hq'
        by_cases hmq : m = q
        · rw [hmq, hr] at hrow; cases hrow
        · exact h.below i q hq m (by omega) hrow
      tracked := forall_set (fun j p _ => h.tracked j p) fun p'' hp'' => by
        obtain rfl := Option.some.inj hp''
        exact htracked
      copies := fun n => by
        obtain ⟨before, hmem, hle⟩ := h.copies n
        have := hu n
        exact ⟨before, before_set (fun j p _ => hmem j p)
          fun p'' hp'' hb => (hold before n hmem p'' hp'' hb).1, by omega⟩ }
  | true =>
    have hmem : ∀ m, m ∈ ns ++ [q] ↔ m ∈ ns ∨ m = q := fun m => by simp
    refine ⟨ns ++ [q], List.prefix_append _ _, ?_⟩
    exact {
      contents := by
        rw [chain.contents_concat]
        exact hrec.trans (congrArg (fun c : Contents J => c.record (chain.blockData q)) h.contents)
      blocks := fun n hn => by
        rcases (hmem n).mp hn with hn | rfl
        · exact h.blocks n hn
        · exact ⟨hlt, by rw [hrows, hr]⟩
      complete := fun n hn m hm hrow => by
        rw [hmem]
        rcases (hmem n).mp hn with hn | rfl
        · exact Or.inl (h.complete n hn m hm hrow)
        · exact Or.inl (h.below i n hq m hm hrow)
      below := below_set h.below (fun m hm => (hmem m).mpr (Or.inl hm)) fun q' hq' m hm hrow => by
        obtain rfl := Option.some.inj hq'
        rw [hmem]
        by_cases hmq : m = q
        · exact Or.inr hmq
        · exact Or.inl (h.below i q hq m (by omega) hrow)
      tracked := forall_set (fun j p _ => h.tracked j p) fun p'' hp'' => by
        obtain rfl := Option.some.inj hp''
        exact htracked
      copies := fun n => by
        obtain ⟨before, hbefore, hle⟩ := h.copies n
        have hn := hu n
        rw [List.count_append, List.count_singleton]
        by_cases hnq : n = q
        · subst hnq
          have hi := hbefore i p hp (Or.inr ⟨n, hq, Nat.le_refl n⟩)
          cases answered with
          | true =>
            -- the start of this process is used up
            refine ⟨before.erase i, before_set ?_ ?_, ?_⟩
            · exact fun j p hji hj hb => Finset.mem_erase.mpr ⟨hji, hbefore j p hj hb⟩
            · intro p'' hp'' hb
              have := (hold before n hbefore p'' hp'' hb).2
              simp only [if_true] at this
              omega
            · have hcard := Finset.card_erase_of_mem hi
              have hpos := Finset.card_pos.mpr ⟨i, hi⟩
              simp only [beq_self_eq_true, if_true]
              omega
          | false =>
            have := hcopy rfl
            refine ⟨before, before_set (fun j p _ => hbefore j p) fun _ _ _ => hi, ?_⟩
            simp only [beq_self_eq_true, if_true]
            omega
        · refine ⟨before, before_set (fun j p _ => hbefore j p)
            fun p'' hp'' hb => (hold before n hbefore p'' hp'' hb).1, ?_⟩
          rw [if_neg (by simpa using Ne.symm hnq)]
          omega }

theorem mem_heights_contents {x : AbsoluteBlockHeight} (h : x ∈ (chain.contents J ns).heights) :
    ∃ n ∈ ns, x = (chain.blockData n).blockInfo.blockHeight := by
  induction ns using List.reverseRecOn with
  | nil => cases h
  | append_singleton ns m ih =>
    rw [chain.contents_concat, Contents.heights_record] at h
    rcases List.mem_append.mp h with h | h
    · obtain ⟨n, hn, hx⟩ := ih h
      exact ⟨n, List.mem_append_left _ hn, hx⟩
    · exact ⟨m, by simp, (List.mem_replicate.mp h).2⟩

/-- Whichever row is read: the blocks with rows below the start height are there. -/
theorem SharedIndex.start_below (h : SharedIndex chain c u ns cursor s)
    {hooks : DatabaseHooks TransactionLogData (Tables J)}
    (hread : LastHeight s.db.contents (hooks.onRequestMaxHeight s.db)) :
    ∀ m < (hooks.startFrom s.db).toNat, chain.hasRows m = true → m ∈ ns := by
  intro m hm hrows
  unfold DatabaseHooks.startFrom at hm
  cases hlast : hooks.onRequestMaxHeight s.db with
  | none =>
    rw [hlast] at hm
    exact absurd hm (Nat.not_lt_zero m)
  | some x =>
    rw [hlast, h.contents] at hread
    obtain ⟨n, hn, rfl⟩ := mem_heights_contents hread
    have hbound := (h.blocks n hn).1
    have hheight := chain.toNat_blockHeight hbound
    have hnext : (chain.blockData n).blockInfo.blockHeight.next.toNat = n + 1 := by
      rw [toNat_next (k := 0) (by rw [hheight]; exact hbound), hheight]
    rw [hlast] at hm
    have hm : m < (chain.blockData n).blockInfo.blockHeight.next.toNat := hm
    rw [hnext] at hm
    by_cases hmn : m = n
    · rw [hmn]; exact hn
    · exact h.complete n hn m (by omega) hrows

/-- Without a commit the contents stay. -/
theorem DatabaseStep.contents {args : SharedIndexerArgs}
    {read : Tables J → Option AbsoluteBlockHeight} {db db' : Tables J}
    {p p' : Process TransactionLogData CanonicalAddressCache}
    (h : DatabaseStep (memberSetup chain args initial read) db p .database db' p') :
    db'.contents = db.contents := by
  cases h with
  | unknownData _ hins => exact (failed_contents hins).1
  | connectionLost _ hins => exact (failed_contents hins).1
  | _ => rfl

/-- A step of the database task of member `i`. -/
theorem SharedIndex.database (h : SharedIndex chain c u ns cursor s) {i : Nat}
    {read : Tables J → Option AbsoluteBlockHeight} {db' : Tables J}
    {p p' : Process TransactionLogData CanonicalAddressCache} {a : Action TransactionLogData}
    (hread : LastHeight s.db.contents (read s.db)) (hp : s.process i = some p)
    (hd : DatabaseStep (memberSetup chain (args i) initial read) s.db p a db' p')
    (hu : ∀ n, u n ≤ u' n) (hcopy : ∀ n d, a = .commitUnanswered d → chain.BlockData n d →
      n + 1 < 2 ^ 64 → u n + 1 ≤ u' n) :
    ∃ ns' x, ns <+: ns' ∧
      SharedIndex chain c u' ns' (Function.update cursor i x) (s.set i ⟨db', some p'⟩) := by
  obtain ⟨hco, hv, ht⟩ := h.tracked i p hp
  have hfollows : ∀ {x : Option Nat}, p'.Tracks chain.BlockData x → p'.Follows chain x :=
    fun ht' => ⟨hco.database hd, by rw [hd.hooks]; exact hv, ht'⟩
  -- a step that commits nothing, from which on the process is at `x`
  have hmoves : ∀ x, db'.contents = s.db.contents →
      (∀ q, x = some q → ∀ m < q, chain.hasRows m = true → m ∈ ns) →
      p'.Tracks chain.BlockData x → (∀ n, p'.Before x n → p.Before (cursor i) n) →
      ∃ ns' x, ns <+: ns' ∧
        SharedIndex chain c u' ns' (Function.update cursor i x) (s.set i ⟨db', some p'⟩) := by
    intro x hcontents hx ht' hbefore
    have hmoved : SharedIndex chain c u ns (Function.update cursor i x) (s.set i ⟨db', some p'⟩) :=
      h.moves hcontents hx (fun p₁ hp₁ => by rw [← Option.some.inj hp₁]; exact hfollows ht')
        fun p₁ n hp₁ hb => ⟨p, hp, hbefore n (by rw [Option.some.inj hp₁]; exact hb)⟩
    exact ⟨ns, x, List.prefix_rfl, hmoved.mono (Nat.le_refl c) hu⟩
  cases he : p.database.early with
  | true =>
    obtain ⟨rfl, rfl, ht'⟩ := ht.reads he hd
    refine hmoves _ rfl (fun q hq => ?_) ht' fun _ _ => Or.inl he
    rw [← Option.some.inj hq]
    exact h.start_below hread
  | false =>
    cases a with
    | database =>
      obtain ⟨hlate, ht'⟩ := ht.stays he hd
      refine hmoves (cursor i) hd.contents (h.below i) ht' fun n hb => Or.inr ?_
      rcases hb with hearly | hq
      · rw [hlate] at hearly; cases hearly
      · exact hq
    | commit d =>
      cases hd with
      | inserted hin hins =>
        obtain ⟨n, hcur, hdata, hlt, ht'⟩ := ht.inserted hin
        obtain ⟨ns', hgrows, h'⟩ := h.commits true hp hcur hdata hlt hins (hfollows ht') rfl hu nofun
        exact ⟨ns', _, hgrows, h'⟩
    | commitUnanswered d =>
      cases hd with
      | insertedUnanswered hin hins =>
        obtain ⟨n, hcur, hdata, hlt, ht'⟩ := ht.insertedUnanswered hin
        obtain ⟨ns', hgrows, h'⟩ := h.commits false hp hcur hdata hlt hins (hfollows ht') rfl hu
          fun _ => hcopy n d rfl hdata hlt
        exact ⟨ns', _, hgrows, h'⟩
    | _ => cases hd

theorem SharedIndex.step (h : SharedIndex chain c u ns cursor s)
    {l : Nat × Action TransactionLogData} (hstep : (fleet chain args initial).step s l s')
    (hc : c ≤ c') (hstart : l.2 = .start → c + 1 ≤ c') (hu : ∀ n, u n ≤ u' n)
    (hcopy : ∀ n d, l.2 = .commitUnanswered d → chain.BlockData n d → n + 1 < 2 ^ 64 →
      u n + 1 ≤ u' n) :
    ∃ ns' cursor', ns <+: ns' ∧ SharedIndex chain c' u' ns' cursor' s' := by
  obtain ⟨i, a⟩ := l
  obtain ⟨read, t, hread, hstep, rfl⟩ := hstep
  unfold Fleet.member at hstep
  dsimp only at hread hstep hstart hcopy
  generalize hp : s.process i = process at hstep
  cases hstep with
  | start =>
    have hnew : (Process.new .empty : Process TransactionLogData CanonicalAddressCache).Follows chain
        (cursor i) :=
      ⟨coordinated_new _, CanonicalAddressCache.canonical_empty chain, tracks_new _⟩
    exact ⟨ns, _, List.prefix_rfl, (h.starts hnew).mono (hstart rfl) hu⟩
  | crash =>
    exact ⟨ns, _, List.prefix_rfl, (h.moves rfl (h.below i) (fun p' hp' => by cases hp')
      fun p' n hp' => by cases hp').mono hc hu⟩
  | @signal db p =>
    obtain ⟨hco, hv, ht⟩ := h.tracked i p hp
    refine ⟨ns, _, List.prefix_rfl, (h.moves rfl (h.below i) (fun p' hp' => ?_)
      fun p' n hp' hb => ⟨p, hp, ?_⟩).mono hc hu⟩
    · obtain rfl := Option.some.inj hp'
      exact ⟨hco.signal, hv, ht.aligned, ht.waiting, ht.early, ht.running⟩
    · obtain rfl := Option.some.inj hp'
      exact hb
  | @node db p p₁ hnode =>
    obtain ⟨hco, hv, ht⟩ := h.tracked i p hp
    have ht' := ht.node chain.nodeHooks_serve hco hv hnode
    refine ⟨ns, _, List.prefix_rfl, (h.moves rfl (h.below i) (fun p' hp' => ?_)
      fun p' n hp' hb => ⟨p, hp, ?_⟩).mono hc hu⟩
    · obtain rfl := Option.some.inj hp'
      exact ⟨hco.node hnode, ht'⟩
    · obtain rfl := Option.some.inj hp'
      unfold Process.Before at hb
      rwa [hnode.weight.1] at hb
  | database hd =>
    obtain ⟨ns', x, hgrows, h'⟩ := h.database hread hp hd hu hcopy
    exact ⟨ns', _, hgrows, h'.mono hc fun n => Nat.le_refl _⟩

/-! ## Runs -/

/-- An indexer is started. -/
def FleetStarts (_ : Fleet TransactionLogData (Tables J) CanonicalAddressCache)
    (l : Nat × Action TransactionLogData)
    (_ : Fleet TransactionLogData (Tables J) CanonicalAddressCache) : Prop :=
  l.2 = .start

/-- A commit of block `n` goes unanswered. -/
def FleetUnansweredAt (n : Nat) (_ : Fleet TransactionLogData (Tables J) CanonicalAddressCache)
    (l : Nat × Action TransactionLogData)
    (_ : Fleet TransactionLogData (Tables J) CanonicalAddressCache) : Prop :=
  ∃ d, l.2 = .commitUnanswered d ∧ d.blockInfo.blockHeight.toNat = n

theorem sharedIndex_init (hdb : s.db.contents = .empty) (hnone : ∀ i, s.process i = none) :
    SharedIndex chain 0 (fun _ => 0) [] (fun _ => none) s where
  contents := hdb
  blocks n hn := by cases hn
  complete n hn := by cases hn
  below i q hq := by cases hq
  tracked i p hp := by rw [hnone i] at hp; cases hp
  copies n := by
    refine ⟨∅, fun i p hp => ?_, Nat.le_refl 0⟩
    rw [hnone i] at hp
    cases hp

/-- In every execution of any number of indexers on one database that is empty at first, whatever
fails in each of them: the tables hold the contents of a list of blocks that leaves out no block
with rows below one that is in it, and that is only ever extended; a block is in it at most once
for each start of an indexer, and once more for each commit of it that went unanswered. -/
theorem fleet_loses_nothing
    (e : Execution (fleet (J := J) chain args fun db => db.contents = .empty)) :
    ∃ ns : Nat → List Nat, ∀ i, ns i <+: ns (i + 1) ∧
      (e.state i).db.contents = chain.contents J (ns i) ∧
      (∀ n ∈ ns i, ∀ m < n, chain.hasRows m = true → m ∈ ns i) ∧
      ∀ n, (ns i).count n ≤ e.count FleetStarts 0 i + e.count (FleetUnansweredAt n) 0 i := by
  let P : Nat → List Nat → Prop := fun i ns => ∃ cursor, SharedIndex chain (e.count FleetStarts 0 i)
    (fun n => e.count (FleetUnansweredAt n) 0 i) ns cursor (e.state i)
  have hstart : ∃ ns, P 0 ns := by
    obtain ⟨hdb, hnone⟩ := e.starts
    refine ⟨[], fun _ => none, (sharedIndex_init hdb hnone).mono (Nat.zero_le _) fun _ => Nat.zero_le _⟩
  have hnext : ∀ i ns, P i ns → ∃ ns', ns <+: ns' ∧ P (i + 1) ns' := by
    rintro i ns ⟨cursor, h⟩
    have hmono : ∀ event, e.count event 0 i ≤ e.count event 0 (i + 1) :=
      fun event => Execution.count_le_next
    rcases e.next _ i with hidle | ⟨l, hl, hstep⟩
    · refine ⟨ns, List.prefix_rfl, cursor, ?_⟩
      rw [hidle]
      exact h.mono (hmono _) fun n => hmono _
    · have hnext : ∃ ns' cursor', ns <+: ns' ∧ SharedIndex chain (e.count FleetStarts 0 (i + 1))
          (fun n => e.count (FleetUnansweredAt n) 0 (i + 1)) ns' cursor' (e.state (i + 1)) := by
        refine h.step hstep (hmono _) (fun hs => ?_) (fun n => hmono _) fun n d hd hdata hn => ?_
        · have hs : FleetStarts (e.state i) l (e.state (i + 1)) := hs
          rw [Execution.count_next hl, tally_of hs]
        · rw [Execution.count_next hl, tally_of ⟨d, hd, (hdata.height hn).1⟩]
      obtain ⟨ns', cursor', hgrows, h'⟩ := hnext
      exact ⟨ns', hgrows, cursor', h'⟩
  obtain ⟨ns, hns⟩ := exists_along P (fun ns ns' => ns <+: ns') hstart hnext
  refine ⟨ns, fun i => ?_⟩
  obtain ⟨⟨cursor, h⟩, hgrows⟩ := hns i
  refine ⟨hgrows, h.contents, h.complete, fun n => ?_⟩
  obtain ⟨before, -, hle⟩ := h.copies n
  omega

/-! ## Blocks are repeated -/

/-- No process is stopped, and every commit is answered. -/
def FaultFree (_ : Fleet TransactionLogData (Tables J) CanonicalAddressCache)
    (l : Nat × Action TransactionLogData) : Prop :=
  l.2 ≠ .crash ∧ l.2 ≠ .signal ∧ ∀ d, l.2 ≠ .commitUnanswered d

/-- The fault-free runs on a database that is empty at first. -/
def faultFree (J : Type) [SdkJson J] (chain : Chain) (args : Nat → SharedIndexerArgs) :
    System (Fleet TransactionLogData (Tables J) CanonicalAddressCache)
      (Nat × Action TransactionLogData) :=
  (fleet chain args fun db => db.contents = .empty).restrict FaultFree

omit [SdkJson J] in
theorem Fleet.set_member (i : Nat) (t t' : Service TransactionLogData (Tables J) CanonicalAddressCache) :
    (s.set i t).member i = t ∧ (s.set i t).set i t' = s.set i t' := by
  unfold member set
  simp

/-- Member `i` goes on from `t` by a step of its own. -/
theorem member_step {i : Nat} {a : Action TransactionLogData}
    {t t' : Service TransactionLogData (Tables J) CanonicalAddressCache}
    (h : Reachable (faultFree J chain args) (s.set i t))
    (hstep : ServiceStep (indexer chain (args i) fun db => db.contents = .empty) t a t')
    (ha : a ≠ .crash ∧ a ≠ .signal ∧ ∀ d, a ≠ .commitUnanswered d) :
    Reachable (faultFree J chain args) (s.set i t') := by
  obtain ⟨hmember, hset⟩ := Fleet.set_member (s := s) i t t'
  refine .step (l := (i, a)) h ⟨ha, getLastBlockHeight, t', lastHeight_getLastBlockHeight _, ?_, hset.symm⟩
  rw [hmember]
  exact hstep

/-- Block 0 was recorded by the first `j` of `k` indexers, and the others are about to. -/
structure Repeating (chain : Chain) (j k : Nat)
    (s : Fleet TransactionLogData (Tables J) CanonicalAddressCache) : Prop where
  contents : s.db.contents = chain.contents J (List.replicate j 0)
  inserting : ∀ i, j ≤ i → i < k → ∃ p d, s.process i = some p ∧ p.database = .inserting d ∧
    chain.BlockData 0 d
  unstarted : ∀ i, k ≤ i → s.process i = none

/-- Indexer `k` starts on empty tables, and gets as far as inserting block 0. -/
theorem member_inserts {k : Nat} (hs : Reachable (faultFree J chain args) s)
    (hcontents : s.db.contents = .empty) (hnone : s.process k = none) (hserved : chain.Served 0)
    (hparallel : 1 ≤ (args k).numParallel) : ∃ p d, p.database = .inserting d ∧
      chain.BlockData 0 d ∧ Reachable (faultFree J chain args) (s.set k ⟨s.db, some p⟩) := by
  let setup := indexer (J := J) chain (args k) fun db => db.contents = .empty
  have hanswer := chain.nodeHooks_answer hserved
  have hserve := chain.nodeHooks_serve
  obtain ⟨hooks, huse⟩ := hanswer.useNode .empty (CanonicalAddressCache.canonical_empty chain)
  have hvalid := hserve.useNode _ _ _ (CanonicalAddressCache.canonical_empty chain) huse
  obtain ⟨d, hooks', hblock⟩ := hanswer.finalizedBlock hooks 0 hvalid rfl
  have hdata := (hserve.finalizedBlock _ _ _ _ hvalid hblock).2 d rfl
  have hpause : (Rotation.start 0).mustPause (args k).numNodes = false := by
    have := (args k).atLeastOne
    simp [Rotation.mustPause, Rotation.start]
    omega
  have hstart : setup.databaseHooks.startFrom s.db = 0 := by
    have hstart : setup.databaseHooks.startFrom s.db = s.db.contents.startFrom := startFrom_eq s.db
    rw [hstart, hcontents]
    rfl
  have hnew : Reachable (faultFree J chain args) (s.set k ⟨s.db, none⟩) := by
    have hsame : s.set k ⟨s.db, none⟩ = s := by
      unfold Fleet.set
      rw [← hnone, Function.update_eq_self]
    rw [hsame]
    exact hs
  have hfree : ∀ {a : Action TransactionLogData}, a = .start ∨ a = .node ∨ a = .database →
      a ≠ .crash ∧ a ≠ .signal ∧ ∀ d, a ≠ .commitUnanswered d := by
    rintro a (rfl | rfl | rfl) <;> simp
  have hstarted := member_step hnew .start (hfree (Or.inl rfl))
  -- the database task connects and reads the height
  have hconnected := member_step hstarted (.database (.connected rfl)) (hfree (by simp))
  have hread := member_step hconnected (.database (.heightRead rfl rfl)) (hfree (by simp))
  rw [hstart] at hread
  -- the node loop collects the block and sends it
  have hreceived := member_step hread (.node (.heightReceived rfl rfl)) (hfree (by simp))
  have hhead := member_step hreceived (.node (.moved rfl (.connect hpause))) (hfree (by simp))
  have hnode := member_step hhead (.node (.moved rfl .connected)) (hfree (by simp))
  have hused := member_step hnode (.node (.nodeUsed rfl huse)) (hfree (by simp))
  have hopened := member_step hused (.node (.moved rfl .opened)) (hfree (by simp))
  have hchunk := member_step hopened
    (.node (.moved rfl (.received (k := 1) false hparallel (by decide)))) (hfree (by simp))
  have hcollected := member_step hchunk (.node (.collected rfl hblock)) (hfree (by simp))
  have hsent := member_step hcollected
    (.node (.sent rfl rfl (show 0 < channelCapacity by decide))) (hfree (by simp))
  exact ⟨_, d, rfl, hdata, member_step hsent (.database (.received rfl rfl)) (hfree (by simp))⟩

theorem Repeating.joins {k : Nat} (h : Repeating chain 0 k s) (hs : Reachable (faultFree J chain args) s)
    (hserved : chain.Served 0) (hparallel : 1 ≤ (args k).numParallel) :
    ∃ s', Reachable (faultFree J chain args) s' ∧ Repeating chain 0 (k + 1) s' := by
  obtain ⟨p, d, hin, hdata, hs'⟩ :=
    member_inserts hs h.contents (h.unstarted k (Nat.le_refl k)) hserved hparallel
  refine ⟨_, hs', h.contents, fun i _ hi => ?_, fun i hi => ?_⟩
  · by_cases hik : i = k
    · subst hik
      exact ⟨p, d, s.set_process_self _ _, hin, hdata⟩
    · obtain ⟨p, d', hp, hin, hd'⟩ := h.inserting i (Nat.zero_le i) (by omega)
      exact ⟨p, d', (s.set_process_ne _ hik).trans hp, hin, hd'⟩
  · exact (s.set_process_ne _ (by omega)).trans (h.unstarted i (by omega))

/-- The next of them commits its block. -/
theorem Repeating.commits {j k : Nat} (h : Repeating chain j k s)
    (hs : Reachable (faultFree J chain args) s) (hjk : j < k)
    (hknown : (chain.blockData 0).known = true) (hsupply : (chain.blockData 0).supplyEvents = []) :
    ∃ s', Reachable (faultFree J chain args) s' ∧ Repeating chain (j + 1) k s' := by
  obtain ⟨p, d, hp, hin, hdata⟩ := h.inserting j (Nat.le_refl j) hjk
  have hins : ∃ db', insertIntoDb none s.db d = (.ok (), db') := by
    have heq := hdata.eq_blockData
    apply insertIntoDb_healthy
    · rw [← heq] at hknown
      exact hknown
    · rw [← heq] at hsupply
      have hsupply : d.supplyEvents = [] := hsupply
      rw [hsupply]
      rfl
  obtain ⟨db', hins⟩ := hins
  have hself : s.set j ⟨s.db, some p⟩ = s := by
    unfold Fleet.set
    rw [← hp, Function.update_eq_self]
  have hs' : Reachable (faultFree J chain args) (s.set j ⟨db', some { p with database := .receiving }⟩) :=
    member_step (a := .commit d) (by rw [hself]; exact hs) (.database (.inserted hin hins)) (by simp)
  refine ⟨_, hs', ?_, fun i hi hik => ?_, fun i hi => ?_⟩
  · rw [List.replicate_succ', chain.contents_concat, ← h.contents]
    exact (commit_contents hdata (by decide) hins).1
  · obtain ⟨p', d', hp', hin', hd'⟩ := h.inserting i (by omega) hik
    exact ⟨p', d', (s.set_process_ne _ (by omega)).trans hp', hin', hd'⟩
  · exact (s.set_process_ne _ (by omega)).trans (h.unstarted i hi)

/-- On a chain whose first block can be collected, has only known data, and neither mints nor burns:
`k` indexers, each started once, with no restart and every commit answered, can record that block
`k` times, and then each of its rows is in the tables `k` times. -/
theorem fleet_repeats (hserved : chain.Served 0) (hknown : (chain.blockData 0).known = true)
    (hsupply : (chain.blockData 0).supplyEvents = []) (hparallel : ∀ i, 1 ≤ (args i).numParallel)
    (k : Nat) : ∃ s, Reachable (faultFree J chain args) s ∧ (∀ i, k ≤ i → s.process i = none) ∧
      s.db.contents = chain.contents J (List.replicate k 0) ∧
      s.db.contents.heights.count 0 = k * (chain.blockData 0).rowCount := by
  have hjoined : ∀ k, ∃ s, Reachable (faultFree J chain args) s ∧ Repeating chain 0 k s := by
    intro k
    induction k with
    | zero =>
      exact ⟨⟨.empty, fun _ => none⟩, .init ⟨rfl, fun _ => rfl⟩, rfl, fun i _ hi => by omega,
        fun i _ => rfl⟩
    | succ k ih =>
      obtain ⟨s, hs, h⟩ := ih
      exact h.joins hs hserved (hparallel k)
  have hcommitted : ∀ j, j ≤ k → ∃ s, Reachable (faultFree J chain args) s ∧ Repeating chain j k s := by
    intro j
    induction j with
    | zero => exact fun _ => hjoined k
    | succ j ih =>
      intro hj
      obtain ⟨s, hs, h⟩ := ih (by omega)
      exact h.commits hs hj hknown hsupply
  obtain ⟨s, hs, h⟩ := hcommitted k (Nat.le_refl k)
  refine ⟨s, hs, h.unstarted, h.contents, ?_⟩
  have hbound : ∀ m ∈ List.replicate k 0, m + 1 < 2 ^ 64 := by
    intro m hm
    rw [(List.mem_replicate.mp hm).2]
    decide
  have hcount := chain.count_heights J hbound (n := 0) (by decide)
  rw [List.count_replicate_self] at hcount
  rw [h.contents]
  exact hcount

end

end

/-- Three indexers of a chain that pays a reward in every block. -/
theorem rewards_repeated : ∃ s, Reachable (faultFree PlainJson rewardChain fun _ => oneNode) s ∧
    (∀ i, 3 ≤ i → s.process i = none) ∧
    s.db.contents = rewardChain.contents PlainJson (List.replicate 3 0) ∧
    s.db.contents.heights.count 0 = 3 * (rewardChain.blockData 0).rowCount :=
  fleet_repeats ((rewardChain_indexable 1).served 0 (by decide)) rfl rfl (fun _ => by decide) 3

end WalletProxyIndexer
