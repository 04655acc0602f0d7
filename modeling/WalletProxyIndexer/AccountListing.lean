import WalletProxyIndexer.Indexer

/-!
# Accounts of an item

`insert_transaction` and `insert_special` list a summary under each account it affects
(table `ati`).  The addresses of a transaction are resolved without duplicates; those of
a special outcome are listed by hand, and a block reward names its baker and the
foundation account, which may be one account.  That account then has two rows for one
summary.

    ListsOnce     a program lists an item under its accounts, each once
    ListedOnce    no two rows of `ati` have the same account and summary

The tables list each account once as long as no such reward is committed, and no longer
(`accounts_listed_once_iff`).
-/

namespace WalletProxyIndexer

open Transition Transaction

/-! ## Affected accounts -/

/-- The accounts that a special outcome names. -/
def SpecialTransactionOutcome.Affects : SpecialTransactionOutcome → AccountAddress → Prop
  | .bakingRewards rewards, a => a ∈ rewards.keys
  | .mint foundationAccount, a => a = foundationAccount
  | .finalizationRewards rewards, a => a ∈ rewards.keys
  | .blockReward baker foundationAccount, a => a = baker ∨ a = foundationAccount
  | .paydayFoundationReward foundationAccount, a => a = foundationAccount
  | .paydayAccountReward account, a => a = account
  | .blockAccrueReward, _ => False
  | .paydayPoolReward, _ => False
  | .validatorSuspended account, a => a = account
  | .validatorPrimedForSuspension account, a => a = account

/-- A block reward whose baker is the foundation account. -/
def SpecialTransactionOutcome.bakerIsFoundation : SpecialTransactionOutcome → Bool
  | .blockReward baker foundationAccount => baker = foundationAccount
  | _ => false

theorem mem_specialAffectedAddresses {so : SpecialTransactionOutcome} {a : AccountAddress} :
    a ∈ specialAffectedAddresses so ↔ so.Affects a := by
  cases so <;> simp [specialAffectedAddresses, SpecialTransactionOutcome.Affects]

theorem nodup_specialAffectedAddresses {so : SpecialTransactionOutcome} :
    (specialAffectedAddresses so).Nodup ↔ so.bakerIsFoundation = false := by
  cases so with
  | bakingRewards r => exact iff_of_true r.distinct rfl
  | finalizationRewards r => exact iff_of_true r.distinct rfl
  | _ => simp [specialAffectedAddresses, SpecialTransactionOutcome.bakerIsFoundation]

/-- The accounts that a transaction affects: those its addresses belong to. -/
def Chain.Affects (chain : Chain) (s : BlockItemSummary) (a : AccountAddress) : Prop :=
  ∃ affected, s.affectedAddresses = .known affected ∧ ∃ b ∈ affected, chain.canonical b = a

theorem Chain.mem_resolve {chain : Chain} {s : BlockItemSummary} {a : AccountAddress} :
    a ∈ (chain.resolve s).addresses ↔ chain.Affects s a := by
  unfold resolve Affects
  cases s.affectedAddresses with
  | known affected => simp [mem_firstOccurrences]
  | unknown => simp

theorem Chain.nodup_resolve (chain : Chain) (s : BlockItemSummary) :
    (chain.resolve s).addresses.Nodup := by
  unfold resolve
  cases s.affectedAddresses with
  | known affected => exact nodup_firstOccurrences _
  | unknown => exact .nil

/-! ## Rows of an item -/

section
variable {J : Type}

/-- The accounts a summary is listed under. -/
def Tables.accountsOf (db : Tables J) (id : Nat) : List Bytea :=
  (db.ati.values.filter fun r => r.summary == id).map AtiRow.account

def ListedOnce (db : Tables J) : Prop := (db.ati.values.map fun r => (r.account, r.summary)).Nodup

theorem Tables.accountsOf_eq (db : Tables J) (id : Nat) : db.accountsOf id =
    (db.contents.ati.filter fun e => e.2 == db.summaries.position id).map Prod.fst := by
  unfold accountsOf contents
  simp only [List.filter_map, List.map_map]
  refine congrArg (List.map _) (List.filter_congr fun r hr => ?_)
  rw [Bool.eq_iff_iff]
  simp only [Function.comp_apply, beq_iff_eq]
  exact (List.idxOf_inj (db.atiSummaryFkey r hr)).symm

/-- Different ids have different positions. -/
theorem listedOnce_iff (db : Tables J) : ListedOnce db ↔ db.contents.ati.Nodup := by
  let pairs := db.ati.values.map fun r => (r.account, r.summary)
  let place := fun p : Bytea × Nat => (p.1, db.summaries.position p.2)
  have hati : db.contents.ati = pairs.map place := by
    unfold Tables.contents
    rw [List.map_map]
    rfl
  rw [hati]
  constructor
  · intro h
    refine List.Nodup.map_on ?_ h
    intro p hp q _ heq
    obtain ⟨r, hr, rfl⟩ := List.mem_map.mp hp
    obtain ⟨haccount, hplace⟩ := Prod.mk.inj heq
    exact Prod.ext haccount ((List.idxOf_inj (db.atiSummaryFkey r hr)).mp hplace)
  · exact List.Nodup.of_map place

/-- Index entries refer to summaries that are there. -/
def Contents.AtiBelow (c : Contents J) : Prop := ∀ e ∈ c.ati, e.2 < c.summaries.length

theorem Tables.atiBelow (db : Tables J) : db.contents.AtiBelow := by
  intro e he
  obtain ⟨r, hr, rfl⟩ := List.mem_map.mp he
  show db.summaries.ids.idxOf r.summary < db.summaries.values.length
  rw [← db.summaries.length_ids]
  exact List.idxOf_lt_length_of_mem (db.atiSummaryFkey r hr)

variable [SdkJson J]

theorem Contents.AtiBelow.addItem {c : Contents J} (h : c.AtiBelow) (r : SummaryRow)
    (accounts : List AccountAddress) (contracts : List ContractAddress) :
    (c.addItem r accounts contracts).AtiBelow ∧
      ((c.addItem r accounts contracts).ati.Nodup ↔ c.ati.Nodup ∧ accounts.Nodup) := by
  constructor
  · intro e he
    simp only [Contents.addItem, List.length_append, List.length_singleton]
    rcases List.mem_append.mp he with he | he
    · exact Nat.lt_succ_of_lt (h e he)
    · obtain ⟨a, -, rfl⟩ := List.mem_map.mp he
      exact Nat.lt_succ_self _
  · have hinj : Function.Injective fun a : AccountAddress => (a.toBytes, c.summaries.length) :=
      fun a b hab => AccountAddress.toBytes_inj.mp (Prod.mk.inj hab).1
    have hdisjoint : ∀ e ∈ c.ati, ∀ f ∈ accounts.map fun a => (a.toBytes, c.summaries.length), e ≠ f := by
      rintro e he f hf rfl
      obtain ⟨a, -, rfl⟩ := List.mem_map.mp hf
      exact Nat.lt_irrefl _ (h _ he)
    simp only [Contents.addItem]
    rw [List.nodup_append, List.nodup_map_iff hinj]
    exact ⟨fun hn => ⟨hn.1, hn.2.1⟩, fun hn => ⟨hn.1, hn.2, hdisjoint⟩⟩

/-- An item that is added is the last summary, listed under its accounts. -/
theorem accountsOf_addItem {db db' : Tables J} {r : SummaryRow} {accounts : List AccountAddress}
    {contracts : List ContractAddress} (h : db'.contents = db.contents.addItem r accounts contracts) :
    db'.summaries.values = db.summaries.values ++ [r.columns] ∧
      ∃ id, db'.summaries.rows.getLast? = some (id, r.columns) ∧
        db'.accountsOf id = accounts.map AccountAddress.toBytes := by
  have hvalues : db'.summaries.values = db.summaries.values ++ [r.columns] :=
    congrArg Contents.summaries h
  obtain ⟨id, hlast, hposition⟩ := db'.summaries.exists_last hvalues
  refine ⟨hvalues, id, hlast, ?_⟩
  have hold : db.contents.ati.filter (fun e => e.2 == db.contents.summaries.length) = [] := by
    refine List.filter_eq_nil_iff.mpr fun e he => ?_
    simpa using Nat.ne_of_lt (db.atiBelow e he)
  have hnew : (accounts.map fun a => (a.toBytes, db.contents.summaries.length)).filter
      (fun e => e.2 == db.contents.summaries.length) =
      accounts.map fun a => (a.toBytes, db.contents.summaries.length) := by
    refine List.filter_eq_self.mpr fun e he => ?_
    obtain ⟨a, -, rfl⟩ := List.mem_map.mp he
    exact beq_self_eq_true _
  rw [db'.accountsOf_eq, hposition, h]
  show List.map _ ((db.contents.ati ++ _).filter fun e => e.2 == db.contents.summaries.length) = _
  rw [List.filter_append, hold, hnew, List.nil_append, List.map_map]
  rfl

/-- When `m` ends, it has added the summary of `item`, and the rows of `ati` for that summary hold
the accounts that `affects` selects, each once. -/
def ListsOnce (m : DbTx J Unit) (item : SummaryRow) (affects : AccountAddress → Prop) : Prop :=
  ∀ s s', m s = (.ok (), s') →
    s'.work.summaries.values = s.work.summaries.values ++ [item.columns] ∧
    ∃ id, s'.work.summaries.rows.getLast? = some (id, item.columns) ∧
      (s'.work.accountsOf id).Nodup ∧
      ∀ b, b ∈ s'.work.accountsOf id ↔ ∃ a, affects a ∧ a.toBytes = b

theorem nodup_toBytes {accounts : List AccountAddress} :
    (accounts.map AccountAddress.toBytes).Nodup ↔ accounts.Nodup :=
  List.nodup_map_iff fun _ _ h => AccountAddress.toBytes_inj.mp h

theorem listsOnce_of_nodup {m : DbTx J Unit} {item : SummaryRow} {accounts : List AccountAddress}
    {contracts : List ContractAddress} {affects : AccountAddress → Prop}
    (hm : ∀ s s', m s = (.ok (), s') →
      s'.work.contents = s.work.contents.addItem item accounts contracts)
    (haffects : ∀ a, a ∈ accounts ↔ affects a) (hnodup : accounts.Nodup) :
    ListsOnce m item affects := by
  intro s s' hs
  obtain ⟨hvalues, id, hlast, hlisted⟩ := accountsOf_addItem (hm s s' hs)
  refine ⟨hvalues, id, hlast, by rw [hlisted]; exact nodup_toBytes.mpr hnodup, fun b => ?_⟩
  rw [hlisted, List.mem_map]
  simp only [haffects]

theorem nodup_of_listsOnce {m : DbTx J Unit} {item : SummaryRow} {accounts : List AccountAddress}
    {contracts : List ContractAddress} {affects : AccountAddress → Prop} {s s' : Session (Tables J)}
    (hs : m s = (.ok (), s'))
    (hm : s'.work.contents = s.work.contents.addItem item accounts contracts)
    (h : ListsOnce m item affects) : accounts.Nodup := by
  obtain ⟨-, id, hlast, hnodup, -⟩ := h s s' hs
  obtain ⟨-, id', hlast', hlisted⟩ := accountsOf_addItem hm
  obtain ⟨rfl, -⟩ := Prod.mk.inj (Option.some.inj (hlast.symm.trans hlast'))
  rw [hlisted] at hnodup
  exact nodup_toBytes.mp hnodup

theorem insertTransaction_addItem {hash : BlockHash} {time : Timestamp}
    {height : AbsoluteBlockHeight} {ts : BlockItemSummaryWithCanonicalAddresses}
    {s s' : Session (Tables J)} (h : insertTransaction hash time height ts s = (.ok (), s')) :
    s'.work.contents = s.work.contents.addItem ⟨hash, time, height, .blockItem ts.summary⟩
      ts.addresses ts.summary.knownContracts :=
  ((insertTransaction_triple (E := fun _ => True) hash time height ts fun _ _ => trivial).result
    (show Holds s.work.contents s.work.keyBindings s.work from ⟨rfl, rfl⟩) h).1.1

theorem insertSpecial_addItem {hash : BlockHash} {time : Timestamp} {height : AbsoluteBlockHeight}
    {so : SpecialTransactionOutcome} {s s' : Session (Tables J)}
    (h : insertSpecial hash time height so s = (.ok (), s')) :
    s'.work.contents = s.work.contents.addItem ⟨hash, time, height, .protocolEvent so⟩
      (specialAffectedAddresses so) [] :=
  ((insertSpecial_triple (E := fun _ => True) hash time height so).result
    (show Holds s.work.contents s.work.keyBindings s.work from ⟨rfl, rfl⟩) h).1

/-- A special outcome is listed once under each account it names, unless it is a block reward that
names one account twice. -/
theorem insertSpecial_listsOnce (hash : BlockHash) (time : Timestamp) (height : AbsoluteBlockHeight)
    (so : SpecialTransactionOutcome) :
    ListsOnce (J := J) (insertSpecial hash time height so) ⟨hash, time, height, .protocolEvent so⟩
      so.Affects ↔ so.bakerIsFoundation = false := by
  rw [← nodup_specialAffectedAddresses]
  constructor
  · intro h
    -- it does end, in the empty tables on a healthy connection
    obtain ⟨_, s', hs⟩ := (insertSpecial_triple (J := J) (E := fun _ => False) hash time height
      so).succeeds (s := ⟨.empty, none⟩) ⟨rfl, rfl⟩ rfl
    exact nodup_of_listsOnce hs (insertSpecial_addItem hs) h
  · exact listsOnce_of_nodup (fun _ _ => insertSpecial_addItem) fun _ => mem_specialAffectedAddresses

/-! ## Blocks -/

omit [SdkJson J] in
theorem Contents.AtiBelow.foldl {α : Type} {f : Contents J → α → Contents J}
    (accounts : α → List AccountAddress) (hstep : ∀ c a, c.AtiBelow → (f c a).AtiBelow ∧
      ((f c a).ati.Nodup ↔ c.ati.Nodup ∧ (accounts a).Nodup))
    (l : List α) {c : Contents J} (h : c.AtiBelow) : (l.foldl f c).AtiBelow ∧
      ((l.foldl f c).ati.Nodup ↔ c.ati.Nodup ∧ ∀ a ∈ l, (accounts a).Nodup) := by
  induction l generalizing c with
  | nil => simp [h]
  | cons a l ih =>
    obtain ⟨hbelow, hnodup⟩ := hstep c a h
    obtain ⟨hrest, hiff⟩ := ih hbelow
    rw [List.foldl_cons]
    refine ⟨hrest, ?_⟩
    rw [hiff, hnodup, and_assoc, List.forall_mem_cons]

/-- A block repeats an account exactly if one of its items does. -/
theorem Contents.AtiBelow.nodup_record {c : Contents J} (h : c.AtiBelow) (d : TransactionLogData) :
    (c.record d).ati.Nodup ↔ c.ati.Nodup ∧ (∀ ts ∈ d.itemSummaries, ts.addresses.Nodup) ∧
      ∀ so ∈ d.specialEvents, so.bakerIsFoundation = false := by
  obtain ⟨hbelow, htransactions⟩ := h.foldl (f := Contents.recordTransaction d.blockInfo)
    (fun ts => ts.addresses) (fun c ts hc => hc.addItem _ ts.addresses
      ts.summary.knownContracts) d.itemSummaries
  obtain ⟨-, hspecials⟩ := hbelow.foldl (f := Contents.recordSpecial d.blockInfo)
    specialAffectedAddresses (fun c so hc => hc.addItem _ _ _) d.specialEvents
  unfold Contents.record
  rw [hspecials, htransactions, and_assoc]
  simp only [nodup_specialAffectedAddresses]

/-- A block of the chain that commits. -/
theorem ListedOnce.commit_iff {chain : Chain} {n : Nat} {db db' : Tables J} {k : Option Nat}
    {d : TransactionLogData} (h : ListedOnce db) (hdata : chain.BlockData n d)
    (hins : insertIntoDb k db d = (.ok (), db')) :
    ListedOnce db' ↔ ∀ so ∈ d.specialEvents, so.bakerIsFoundation = false := by
  have htransactions : ∀ ts ∈ d.itemSummaries, ts.addresses.Nodup := by
    intro ts hts
    rw [hdata.itemSummaries] at hts
    obtain ⟨s, -, rfl⟩ := List.mem_map.mp hts
    exact chain.nodup_resolve s
  rw [listedOnce_iff, (insertIntoDb_committed hins).1, db.atiBelow.nodup_record]
  exact ⟨fun hd => hd.2.2, fun hd => ⟨(listedOnce_iff db).mp h, htransactions, hd⟩⟩

/-! ## The indexer -/

section
variable {chain : Chain}

/-- A commit of the indexer is of a block of the chain. -/
theorem commit_of_reachable {args : SharedIndexerArgs} {initial : Tables J → Prop}
    {s s' : Service TransactionLogData (Tables J) CanonicalAddressCache}
    {l : Action TransactionLogData} {d : TransactionLogData}
    (h : Reachable (indexer chain args initial).service s)
    (hstep : ServiceStep (indexer chain args initial) s l s')
    (hl : l = .commit d ∨ l = .commitUnanswered d) :
    ∃ n k, chain.BlockData n d ∧ insertIntoDb k s.db d = (.ok (), s'.db) := by
  obtain ⟨a, -, hr⟩ := (indexer_follows_feed chain args initial).reachable h
  obtain ⟨n, k, -, hdata, -, hins⟩ := hr.commit hstep hl
  exact ⟨n, k, hdata, hins⟩

/-- Accounts are listed once per item: for each transaction of a block, under the accounts it
affects; for each special outcome exactly if it is not a block reward that names one account
twice; and in every execution of the indexer, no two rows have the same account and summary
exactly as long as no such reward is committed. -/
theorem accounts_listed_once_iff (chain : Chain) (args : SharedIndexerArgs) :
    (∀ n d, chain.BlockData n d → ∀ ts ∈ d.itemSummaries, ∀ hash time height,
      ListsOnce (J := J) (insertTransaction hash time height ts)
        ⟨hash, time, height, .blockItem ts.summary⟩ (chain.Affects ts.summary)) ∧
    (∀ hash time height so,
      ListsOnce (J := J) (insertSpecial hash time height so)
        ⟨hash, time, height, .protocolEvent so⟩ so.Affects ↔ so.bakerIsFoundation = false) ∧
    ∀ e : Execution (indexer (J := J) chain args ListedOnce).service,
      (∀ i, ListedOnce (e.state i).db) ↔
        ∀ i d, e.label i = some (.commit d) ∨ e.label i = some (.commitUnanswered d) →
          ∀ so ∈ d.specialEvents, so.bakerIsFoundation = false := by
  refine ⟨?_, insertSpecial_listsOnce, fun e => ?_⟩
  · intro n d hdata ts hts hash time height
    rw [hdata.itemSummaries] at hts
    obtain ⟨s, -, rfl⟩ := List.mem_map.mp hts
    exact listsOnce_of_nodup (fun _ _ => insertTransaction_addItem) (fun _ => Chain.mem_resolve)
      (chain.nodup_resolve s)
  · have hcommit : ∀ i l d, e.label i = some l → (l = .commit d ∨ l = .commitUnanswered d) →
        ∃ n k, chain.BlockData n d ∧
          insertIntoDb k (e.state i).db d = (.ok (), (e.state (i + 1)).db) := by
      intro i l d hi hl
      have hstep := e.moves i
      rw [hi] at hstep
      exact commit_of_reachable (e.reachable i) hstep hl
    constructor
    · intro honce i d hd
      obtain ⟨l, hi, hl⟩ : ∃ l, e.label i = some l ∧ (l = .commit d ∨ l = .commitUnanswered d) := by
        rcases hd with hd | hd
        · exact ⟨_, hd, Or.inl rfl⟩
        · exact ⟨_, hd, Or.inr rfl⟩
      obtain ⟨n, k, hdata, hins⟩ := hcommit i l d hi hl
      exact ((honce i).commit_iff hdata hins).mp (honce (i + 1))
    · intro hdistinct i
      induction i with
      | zero => exact e.starts.1
      | succ i ih =>
        rcases e.next _ i with heq | ⟨l, hi, hstep⟩
        · rw [heq]; exact ih
        · by_cases hl : ∃ d, l = .commit d ∨ l = .commitUnanswered d
          · obtain ⟨d, hd⟩ := hl
            obtain ⟨n, k, hdata, hins⟩ := hcommit i l d hi hd
            refine (ih.commit_iff hdata hins).mpr (hdistinct i d ?_)
            rw [hi]
            simpa using hd
          · push Not at hl
            have hsame := (ServiceStep.contents hstep hl).1
            rw [listedOnce_iff, hsame]
            exact (listedOnce_iff _).mp ih

end

end

/-- The foundation account bakes every block. -/
def foundationBakesChain : Chain :=
  .ofEvents (fun _ => []) (fun _ => [.known (.blockReward ⟨.replicate 32 0⟩ ⟨.replicate 32 0⟩)])
    (fun _ => ⟨[]⟩)

/-- Its account is listed twice for the reward of block 0. -/
theorem reward_listed_twice : ∃ s,
    Reachable (indexer (J := PlainJson) foundationBakesChain oneNode fun db =>
      db.contents = .empty).service s ∧ ¬ListedOnce s.db := by
  let chain := foundationBakesChain
  let setup := indexer (J := PlainJson) chain oneNode fun db => db.contents = .empty
  let db : Tables PlainJson := .empty
  let reward : SpecialTransactionOutcome := .blockReward ⟨.replicate 32 0⟩ ⟨.replicate 32 0⟩
  let d : TransactionLogData := ⟨chain.blockInfo 0, [], [reward], .new⟩
  have hd : (onFinalizedBlock (chain.node 0) db.contents.startFrom
      (onUseNode (chain.node 0) .empty).2).1 = .ok d := rfl
  have hinitial : setup.initial db := rfl
  obtain ⟨cache, hmid⟩ := indexer_midChunk chain oneNode hinitial (by decide) (Nat.le_refl 2) hd
  obtain ⟨db', hins⟩ : ∃ db', insertIntoDb none db d = (.ok (), db') := insertIntoDb_healthy rfl rfl
  have hins' : setup.databaseHooks.insertIntoDb none db d = (.ok (), db') := hins
  refine ⟨_, reachable_step hmid (.database (.inserted rfl hins')), fun h => ?_⟩
  rw [listedOnce_iff, (insertIntoDb_committed hins).1, db.atiBelow.nodup_record] at h
  exact absurd (h.2.2 reward (List.mem_singleton_self _)) (by decide)

end WalletProxyIndexer
