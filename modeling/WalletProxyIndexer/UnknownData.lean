import WalletProxyIndexer.Indexer

/-!
# Unknown data

A block may hold data of a variant the SDK does not know (`Chain.UnknownAt`).  Some of
it stops the node loop, before anything is sent; some of it the database task, in the
middle of a transaction.  Whichever it is, no tables of the run ever commit the block
(`UnknownAt.refused`), and the cursor never gets past it (`Below`).
-/

namespace WalletProxyIndexer

open Transition

/-- The type of the item, or of its effects, is unknown. -/
def BlockItemSummary.detailsUnknown (s : BlockItemSummary) : Bool :=
  match s.details with
  | .unknown => true
  | .known (.accountTransaction _ .unknown) => true
  | _ => false

inductive Chain.UnknownAt (chain : Chain) (n : Nat) : Prop where
  | details (s : BlockItemSummary) : s ∈ chain.transactionEvents n → s.detailsUnknown = true →
      UnknownAt chain n
  | contract (s : BlockItemSummary) : s ∈ chain.transactionEvents n → s.contractsKnown = false →
      UnknownAt chain n
  | contractLog (s : BlockItemSummary) : s ∈ chain.transactionEvents n → s.logsKnown = false →
      UnknownAt chain n
  | specialOutcome : .unknown ∈ chain.specialEvents n → UnknownAt chain n
  | accessStructure (s : BlockItemSummary) (a c : AccountAddress) : s ∈ chain.transactionEvents n →
      s.ChangesKeysOf a → c ∈ chain.accounts n → c.sameAccount a = true →
      chain.accessStructure n c = .unknown → UnknownAt chain n

/-- The SDK cannot tell the affected addresses of an item it does not know. -/
def Chain.AddressesNeedDetails (chain : Chain) : Prop :=
  ∀ n, ∀ s ∈ chain.transactionEvents n, s.detailsUnknown = true → s.affectedAddresses = .unknown

/-- A block with unknown data that got as far as the database has it in its contracts. -/
theorem Chain.UnknownAt.refused {chain : Chain} (hsdk : chain.AddressesNeedDetails) {n : Nat}
    {d : TransactionLogData} (h : chain.UnknownAt n) (hdata : chain.BlockData n d) : d.known = false := by
  have hitem : ∀ s ∈ chain.transactionEvents n, (s.contractsKnown && s.logsKnown) = false →
      d.known = false := by
    intro s hs hunknown
    unfold TransactionLogData.known
    rw [hdata.itemSummaries, List.all_eq_false]
    exact ⟨chain.resolve s, List.mem_map_of_mem hs, by
      show ¬(s.contractsKnown && s.logsKnown) = true
      rw [hunknown]
      exact Bool.false_ne_true⟩
  cases h with
  | details s hs hunknown =>
    obtain ⟨affected, haff, -⟩ := hdata.resolvable s hs
    rw [hsdk n s hs hunknown] at haff
    cases haff
  | contract s hs hunknown => exact hitem s hs (by rw [hunknown]; rfl)
  | contractLog s hs hunknown => exact hitem s hs (by rw [hunknown, Bool.and_false])
  | specialOutcome hs =>
    rw [← hdata.specialEvents] at hs
    obtain ⟨so, -, hso⟩ := List.mem_map.mp hs
    cases hso
  | accessStructure s a c hs ha hc hsame hunknown =>
    obtain ⟨e, he, hsame'⟩ := hdata.bindings.all a (mem_keyUpdates.mpr ⟨s, hs, ha⟩)
    obtain ⟨hmem, s, hs, -⟩ := hdata.bindings.current e he
    -- the account has one canonical address
    obtain rfl : e.1 = c := chain.eq_of_sameAccount_at hmem hc
      (AccountAddress.sameAccount_trans hsame' (AccountAddress.sameAccount_symm hsame))
    rw [hunknown] at hs
    cases hs

section
variable {J : Type} [SdkJson J] {chain : Chain} {bindings : List AccountPublicKeyBindingsRow}

/-- Everything in the tables comes from blocks below `h`, over the key bindings at the start. -/
def OnlyBelow (chain : Chain) (bindings : List AccountPublicKeyBindingsRow) (h : Nat)
    (db : Tables J) : Prop :=
  ∃ blocks : List (Nat × TransactionLogData), (∀ b ∈ blocks, b.1 < h ∧ chain.BlockData b.1 b.2) ∧
    db.contents = Contents.records .empty (blocks.map Prod.snd) ∧
    db.keyBindings = blocks.foldl (fun rows b => applyBindings rows b.2.bindings) bindings

structure Below (chain : Chain) (bindings : List AccountPublicKeyBindingsRow) (h : Nat)
    (a : Feed (Tables J)) : Prop where
  blocks : OnlyBelow chain bindings h a.db
  heights : ∀ x ∈ a.db.contents.heights, x.toNat < h
  cursor : ∀ q, a.cursor = some q → q ≤ h

theorem Below.startFrom_le {h : Nat} {a : Feed (Tables J)} (hb : Below chain bindings h a) :
    a.db.contents.startFrom.toNat ≤ h := by
  unfold Contents.startFrom
  split
  · next x hx =>
    have hlt := hb.heights x (List.mem_of_getLast? hx)
    unfold AbsoluteBlockHeight.next
    rw [UInt64.toNat_add]
    exact Nat.le_trans (Nat.mod_le _ _) hlt
  · exact Nat.zero_le h

theorem Below.same {h : Nat} {db db' : Tables J} {cursor cursor' : Option Nat}
    (hb : Below chain bindings h ⟨db, cursor⟩) (hcontents : db'.contents = db.contents)
    (hbindings : db'.keyBindings = db.keyBindings) (hcursor : ∀ q, cursor' = some q → q ≤ h) :
    Below chain bindings h ⟨db', cursor'⟩ where
  blocks := by
    obtain ⟨blocks, hblocks, hc, hk⟩ := hb.blocks
    exact ⟨blocks, hblocks, hcontents.trans hc, hbindings.trans hk⟩
  heights := by
    show ∀ x ∈ db'.contents.heights, x.toNat < h
    rw [hcontents]
    exact hb.heights
  cursor := hcursor

theorem Below.step (hsdk : chain.AddressesNeedDetails) {h : Nat} (hunknown : chain.UnknownAt h)
    {a a' : Feed (Tables J)} {m : FeedAction TransactionLogData} (hb : Below chain bindings h a)
    (hstep : FeedStep (databaseState J) chain.BlockData a m a') : Below chain bindings h a' := by
  cases hstep with
  | resume =>
    refine hb.same rfl rfl fun q hq => ?_
    cases hq
    rw [startFrom_eq]
    exact hb.startFrom_le
  | @insert db db' n d k answered hdata hn hins =>
    obtain ⟨hrec, hbind, hknown, -⟩ := insertIntoDb_committed hins
    -- it is not block `h`, which does not commit
    have hlt : n < h := by
      refine Nat.lt_of_le_of_ne (hb.cursor n rfl) fun heq => ?_
      subst heq
      rw [hunknown.refused hsdk hdata] at hknown
      cases hknown
    obtain ⟨blocks, hblocks, hc, hk⟩ := hb.blocks
    refine ⟨⟨blocks ++ [(n, d)], ?_, ?_, ?_⟩, ?_, ?_⟩
    · intro b hmem
      rcases List.mem_append.mp hmem with hmem | hmem
      · exact hblocks b hmem
      · rw [List.mem_singleton.mp hmem]
        exact ⟨hlt, hdata⟩
    · show db'.contents = _
      rw [hrec, List.map_append, Contents.records, List.foldl_append]
      exact congrArg (fun c : Contents J => c.record d) hc
    · show db'.keyBindings = _
      rw [hbind, List.foldl_append]
      exact congrArg (fun rows => applyBindings rows d.bindings) hk
    · show ∀ x ∈ db'.contents.heights, x.toNat < h
      intro x hx
      rw [hrec, Contents.heights_record] at hx
      rcases List.mem_append.mp hx with hx | hx
      · exact hb.heights x hx
      · rw [List.eq_of_mem_replicate hx, (hdata.height hn).1]
        exact hlt
    · intro q hq
      cases hq
      split <;> omega
  | fail hdata hins =>
    obtain ⟨hcontents, hbindings⟩ := failed_contents hins
    exact hb.same hcontents hbindings hb.cursor

/-- In every run of the indexer over a chain with unknown data at height `h`, whatever fails:
only blocks below `h` are in the tables, a start resumes at or below `h`, and the transaction of
block `h` fails on any connection and leaves contents and key bindings as they were. -/
theorem unknown_data_stops (hsdk : chain.AddressesNeedDetails) {h : Nat}
    (hunknown : chain.UnknownAt h) {args : SharedIndexerArgs}
    {s : Service TransactionLogData (Tables J) CanonicalAddressCache}
    (hreachable : Reachable (indexer chain args fun db : Tables J =>
      db.contents = .empty ∧ db.keyBindings = bindings).service s) :
    OnlyBelow chain bindings h s.db ∧
    (∀ r ∈ s.db.summaries.values, r.height.toUInt64.toNat < h) ∧
    ((databaseState J).startFrom s.db).toNat ≤ h ∧
    ∀ d, chain.BlockData h d → ∀ n, ∃ e db', insertIntoDb n s.db d = (.error e, db') ∧
      db'.contents = s.db.contents ∧ db'.keyBindings = s.db.keyBindings := by
  obtain ⟨a, ha, hdb, -⟩ := (indexer_follows_feed chain args _).reachable hreachable
  have hb : Below chain bindings h a := by
    refine ha.invariant (I := Below chain bindings h) ?_ fun a m a' hb hstep => hb.step hsdk hunknown hstep
    rintro a ⟨⟨hcontents, hbindings⟩, hcursor⟩
    refine ⟨⟨[], fun b hb => absurd hb List.not_mem_nil, hcontents, hbindings⟩, ?_, ?_⟩
    · rw [hcontents]
      intro x hx
      cases hx
    · intro q hq
      rw [hcursor] at hq
      cases hq
  rw [startFrom_eq, ← hdb]
  refine ⟨hb.blocks, fun r hr => hb.heights _ (List.mem_map_of_mem hr), hb.startFrom_le,
    fun d hdata n => ?_⟩
  rcases hins : insertIntoDb n a.db d with ⟨_ | u, db'⟩
  · exact ⟨_, _, rfl, failed_contents hins⟩
  · obtain ⟨-, -, hknown, -⟩ := insertIntoDb_committed hins
    rw [hunknown.refused hsdk hdata] at hknown
    cases hknown

end

/-- Block 0 pays a reward, block 1 has a special outcome of an unknown type. -/
def unknownOutcomeChain : Chain :=
  .ofEvents (fun _ => [])
    (fun n => if n = 0 then [.known (.paydayFoundationReward ⟨.replicate 32 0⟩)] else [.unknown])
    (fun _ => ⟨[]⟩)

/-- After block 0 is committed there is one row, and block 1 is never added. -/
theorem unknown_outcome_stops : ∃ s,
    Reachable (indexer (J := PlainJson) unknownOutcomeChain oneNode fun db =>
      db.contents = .empty ∧ db.keyBindings = []).service s ∧
    s.db.summaries.values.length = 1 ∧ (∀ r ∈ s.db.summaries.values, r.height.toUInt64.toNat < 1) ∧
    ((databaseState PlainJson).startFrom s.db).toNat ≤ 1 := by
  let chain := unknownOutcomeChain
  let setup := indexer (J := PlainJson) chain oneNode fun db =>
    db.contents = .empty ∧ db.keyBindings = []
  let db : Tables PlainJson := .empty
  let d : TransactionLogData :=
    ⟨chain.blockInfo 0, [], [.paydayFoundationReward ⟨.replicate 32 0⟩], .new⟩
  have hd : (onFinalizedBlock (chain.node 0) db.contents.startFrom
      (onUseNode (chain.node 0) .empty).2).1 = .ok d := rfl
  have hinitial : setup.initial db := ⟨rfl, rfl⟩
  obtain ⟨cache, hmid⟩ := indexer_midChunk chain oneNode hinitial (by decide) (Nat.le_refl 2) hd
  have hins : setup.databaseHooks.insertIntoDb none db d = (.ok (), (insertIntoDb none db d).2) := rfl
  have hcommitted := reachable_step hmid (.database (.inserted rfl hins))
  have hsdk : chain.AddressesNeedDetails := fun n s hs => absurd hs List.not_mem_nil
  have hunknown : chain.UnknownAt 1 := .specialOutcome (by decide)
  obtain ⟨-, hheights, hstart, -⟩ := unknown_data_stops hsdk hunknown hcommitted
  exact ⟨_, hcommitted, rfl, hheights, hstart⟩

end WalletProxyIndexer
