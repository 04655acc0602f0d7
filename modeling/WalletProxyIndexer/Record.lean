import WalletProxyIndexer.Contents

/-!
# Recording a block

`Contents.record` is what one block adds to the contents of the index, and
`applyBindings` what its key updates do to the key bindings, as pure functions.
`insertBlockBody_triple` proves that the statements of `insert_block` do this or stop
with an error, and says which blocks stop it:

    TransactionLogData.known d     every affected contract and contract log is known
    supplyFits … d.supplyEvents    every total the block stores is in range

`insertIntoDb_committed` and `insertIntoDb_healthy` bring it to whole transactions.
-/

namespace WalletProxyIndexer

open Transaction

/-! ## What a block says -/

def BlockItemSummary.knownContracts (s : BlockItemSummary) : List ContractAddress :=
  match s.affectedContracts with
  | .known l => l.filterMap Upward.toOption
  | .unknown => []

def BlockItemSummary.contractsKnown (s : BlockItemSummary) : Bool :=
  match s.affectedContracts with
  | .known l => l.all Upward.isKnown
  | .unknown => false

def BlockItemSummary.logsKnown (s : BlockItemSummary) : Bool :=
  match s.contractUpdateLogs with
  | some l => l.all Upward.isKnown
  | none => true

def effectsSupply (effects : ContractEffects) : List SupplyEvent :=
  effects.flatMap fun (ca, events) => events.filterMap (Cis2.Event.supply ca)

def BlockItemSummary.supplyEvents (s : BlockItemSummary) : List SupplyEvent :=
  match getCis2Events s with
  | .ok effects => effectsSupply effects
  | .error _ => []

def TransactionLogData.known (d : TransactionLogData) : Bool :=
  d.itemSummaries.all fun ts => ts.summary.contractsKnown && ts.summary.logsKnown

def TransactionLogData.supplyEvents (d : TransactionLogData) : List SupplyEvent :=
  d.itemSummaries.flatMap fun ts => ts.summary.supplyEvents

/-- The block writes summaries: it has a transaction or a special outcome. -/
def TransactionLogData.hasRows (d : TransactionLogData) : Bool :=
  !(d.itemSummaries.isEmpty && d.specialEvents.isEmpty)

section
variable {J : Type} [SdkJson J]

def Contents.addItem (c : Contents J) (r : SummaryRow) (accounts : List AccountAddress)
    (contracts : List ContractAddress) : Contents J :=
  { c with
    summaries := c.summaries ++ [r.columns]
    ati := c.ati ++ accounts.map fun a => (a.toBytes, c.summaries.length)
    cti := c.cti ++ contracts.map fun a =>
      ((a.index.toInt64, a.subindex.toInt64), c.summaries.length) }

def Contents.recordTransaction (bi : BlockInfo) (c : Contents J)
    (ts : BlockItemSummaryWithCanonicalAddresses) : Contents J :=
  { c.addItem ⟨bi.blockHash, bi.blockSlotTime.toUInt64, bi.blockHeight, .blockItem ts.summary⟩
      ts.addresses ts.summary.knownContracts with
    cis2Tokens := supplyRun c.cis2Tokens ts.summary.supplyEvents }

def Contents.recordSpecial (bi : BlockInfo) (c : Contents J) (so : SpecialTransactionOutcome) :
    Contents J :=
  c.addItem ⟨bi.blockHash, bi.blockSlotTime.toUInt64, bi.blockHeight, .protocolEvent so⟩
    (specialAffectedAddresses so) []

def Contents.record (c : Contents J) (d : TransactionLogData) : Contents J :=
  d.specialEvents.foldl (Contents.recordSpecial d.blockInfo)
    (d.itemSummaries.foldl (Contents.recordTransaction d.blockInfo) c)

end

/-- One account's update: its rows are deleted, the new ones appended. -/
def applyBinding (rows : List AccountPublicKeyBindingsRow)
    (e : AccountAddress × List PublicKeyBindingInfo) : List AccountPublicKeyBindingsRow :=
  (rows.filter fun r => !(r.address == e.1.toBytes)) ++ e.2.map (PublicKeyBindingInfo.columns e.1)

def applyBindings (rows : List AccountPublicKeyBindingsRow) (b : AccountPublicKeyBindings) :
    List AccountPublicKeyBindingsRow :=
  b.entries.foldl applyBinding rows

/-! ## Transactions of a block -/

section
variable {J : Type} {c : Contents J} {b : List AccountPublicKeyBindingsRow}

variable {E : IndexingError → Prop}

theorem insertCtis_triple (contracts : List (Upward ContractAddress))
    (id p : Nat)
    (hE : contracts.all Upward.isKnown = false → E unknownEffectsContract) :
    Triple (fun w => Holds c b w ∧ SummaryAt id p w)
      (contracts.forM fun contractAddress => do
        let affected ← Txn.ofExcept (contractAddress.knownOrElse unknownEffectsContract)
        insertCti affected id)
      (fun _ w => Holds { c with cti := c.cti ++ (contracts.filterMap Upward.toOption).map fun a =>
          ((a.index.toInt64, a.subindex.toInt64), p) } b w ∧ contracts.all Upward.isKnown = true)
      E := by
  have h := Triple.forM (E := E) contracts
    (fun contractAddress => (do
        let affected ← Txn.ofExcept (contractAddress.knownOrElse unknownEffectsContract)
        insertCti affected id : DbTx J Unit))
    (fun done w => (Holds { c with cti := c.cti ++ (done.filterMap Upward.toOption).map fun a =>
          ((a.index.toInt64, a.subindex.toInt64), p) } b w ∧ SummaryAt id p w) ∧
        done.all Upward.isKnown = true) (fun done contract rest hxs => by
      cases contract with
      | unknown =>
        refine Triple.bind (R := fun _ _ => False) (Triple.ofExcept fun w _ => hE ?_) ?_
        · rw [hxs]; simp [Upward.isKnown]
        · intro a s hs; exact hs.elim
      | known a =>
        show Triple _ (insertCti a id) _ E
        refine (Triple.carry fun _ => insertCti_triple a id p).conseq (fun w hw => hw) ?_
          (fun _ he => he)
        rintro _ w ⟨⟨hc, hid⟩, hall⟩
        refine ⟨⟨?_, hid⟩, ?_⟩
        · simpa [List.filterMap_append, Upward.toOption] using hc
        · simpa [Upward.isKnown] using hall)
  refine h.conseq (fun w hw => ⟨⟨?_, hw.2⟩, rfl⟩) (fun _ w hw => ⟨hw.1.1, hw.2⟩) (fun _ he => he)
  simpa using hw.1

theorem insertTransaction_triple [SdkJson J] (hash : BlockHash) (time : Timestamp)
    (height : AbsoluteBlockHeight) (ts : BlockItemSummaryWithCanonicalAddresses)
    (hE : ts.summary.contractsKnown = false → ∀ reason, E (.unknownData reason)) :
    Triple (Holds c b) (insertTransaction hash time height ts)
      (fun _ w => Holds (c.addItem ⟨hash, time, height, .blockItem ts.summary⟩ ts.addresses
        ts.summary.knownContracts) b w ∧ ts.summary.contractsKnown = true) E := by
  unfold insertTransaction
  unfold BlockItemSummary.contractsKnown at hE ⊢
  unfold BlockItemSummary.knownContracts
  refine Triple.bind (insertSummary_triple _) fun id => ?_
  refine Triple.bind (insertAtis_triple ts.addresses id _) fun _ => ?_
  cases hcs : ts.summary.affectedContracts with
  | unknown =>
    rw [hcs] at hE
    exact Triple.bind (R := fun _ _ => False) (Triple.ofExcept fun w _ => hE rfl _)
      fun _ _ hs => hs.elim
  | known contracts =>
    rw [hcs] at hE
    show Triple _ (contracts.forM _) _ E
    refine (insertCtis_triple contracts id _ fun hall => hE hall _).conseq (fun w hw => hw)
      (fun _ w hw => ⟨hw.1, hw.2⟩) (fun _ he => he)

theorem insertSpecial_triple [SdkJson J] (hash : BlockHash) (time : Timestamp)
    (height : AbsoluteBlockHeight) (so : SpecialTransactionOutcome) :
    Triple (Holds c b) (insertSpecial hash time height so)
      (fun _ w => Holds (c.addItem ⟨hash, time, height, .protocolEvent so⟩
        (specialAffectedAddresses so) []) b w) E := by
  unfold insertSpecial
  refine Triple.bind (insertSummary_triple _) fun id => ?_
  refine (insertAtis_triple (specialAffectedAddresses so) id _).conseq (fun w hw => hw)
    (fun _ w hw => ?_) (fun _ he => he)
  simpa [Contents.addItem] using hw.1

/-! ## Supplies of a block -/

/-- The events of one execution segment, when all its logs parse. -/
def parsedSegment (segment : Upward (ContractAddress × List ContractEvent)) :
    Option (ContractAddress × List Cis2.Event) :=
  match segment with
  | .known (ca, logs) => (logs.mapM Cis2.Event.tryFrom).map (ca, ·)
  | .unknown => none

theorem pushSegment_known (acc : ContractEffects) (p : ContractAddress × List ContractEvent) :
    pushSegment acc (.known p) = .ok (acc ++ (parsedSegment (.known p)).toList) := by
  obtain ⟨ca, logs⟩ := p
  cases hlogs : logs.mapM Cis2.Event.tryFrom with
  | none => simp [pushSegment, parsedSegment, Upward.knownOrElse, hlogs, bind, Except.bind, pure, Except.pure]
  | some evs =>
    simp [pushSegment, parsedSegment, Upward.knownOrElse, hlogs, bind, Except.bind, pure, Except.pure]

theorem foldlM_pushSegment (segments : List (Upward (ContractAddress × List ContractEvent)))
    (acc : ContractEffects) : segments.foldlM pushSegment acc =
      if segments.all Upward.isKnown then .ok (acc ++ segments.filterMap parsedSegment)
      else .error unknownContractLog := by
  induction segments generalizing acc with
  | nil => simp [pure, Except.pure]
  | cons segment segments ih =>
    rw [List.foldlM_cons]
    cases segment with
    | unknown => rfl
    | known p =>
      rw [pushSegment_known]
      show segments.foldlM pushSegment (acc ++ (parsedSegment (.known p)).toList) = _
      rw [ih, List.all_cons, show (Upward.known p).isKnown = true from rfl, Bool.true_and]
      cases hp : parsedSegment (.known p) with
      | none => rw [List.filterMap_cons_none hp, Option.toList_none, List.append_nil]
      | some effect =>
        rw [List.filterMap_cons_some hp, Option.toList_some, List.append_assoc,
          List.singleton_append]

theorem getCis2Events_known (s : BlockItemSummary) (h : s.logsKnown = true) :
    ∃ effects, getCis2Events s = .ok effects := by
  unfold BlockItemSummary.logsKnown at h
  unfold getCis2Events
  cases hlogs : s.contractUpdateLogs with
  | some segments =>
    rw [hlogs] at h
    exact ⟨_, (foldlM_pushSegment segments []).trans (if_pos h)⟩
  | none =>
    dsimp only
    cases s.contractInit with
    | none => exact ⟨_, rfl⟩
    | some init =>
      dsimp only
      cases init.events.mapM Cis2.Event.tryFrom with
      | none => exact ⟨_, rfl⟩
      | some evs => exact ⟨_, rfl⟩

theorem getCis2Events_unknown (s : BlockItemSummary) (h : s.logsKnown = false) :
    getCis2Events s = .error unknownContractLog := by
  unfold BlockItemSummary.logsKnown at h
  unfold getCis2Events
  cases hlogs : s.contractUpdateLogs with
  | some segments =>
    rw [hlogs] at h
    exact (foldlM_pushSegment segments []).trans (if_neg (by simpa using h))
  | none => rw [hlogs] at h; cases h

/-- The contents with a history of mints and burns applied to the supplies. -/
def Contents.supply (c : Contents J) (es : List SupplyEvent) : Contents J :=
  { c with cis2Tokens := supplyRun c.cis2Tokens es }

theorem Contents.supply_append (c : Contents J) (es es' : List SupplyEvent) :
    c.supply (es ++ es') = (c.supply es).supply es' := by
  simp [supply, supplyRun_append]

theorem upsert_triple (e : SupplyEvent)
    (hE : e.fits c.cis2Tokens = false → E (.postgresError .numericValueOutOfRange)) :
    Triple (Holds c b) (Txn.statement fun t => t.upsertCis2Tokens e.onConflict ⟨e.key, e.amount⟩)
      (fun _ w => Holds (c.supply [e]) b w ∧ supplyFits c.cis2Tokens [e] = true) E := by
  refine Triple.statement fun w hw => ?_
  obtain ⟨rfl, rfl⟩ := hw
  rcases w.upsertCis2Tokens_spec e with ⟨hfit, id, t', ht, hc⟩ | ⟨hfit, ht⟩
  · rw [ht]
    refine ⟨hc, ?_⟩
    simp only [supplyFits, Bool.and_true]
    exact hfit
  · rw [ht]
    exact hE hfit

theorem insertCis2Event_triple (ca : ContractAddress) (ev : Cis2.Event)
    (hE : supplyFits c.cis2Tokens (ev.supply ca).toList = false →
      E (.postgresError .numericValueOutOfRange)) :
    Triple (Holds c b) (insertCis2Event ca ev)
      (fun _ w => Holds (c.supply (ev.supply ca).toList) b w ∧
        supplyFits c.cis2Tokens (ev.supply ca).toList = true) E := by
  -- a mint and a burn are one upsert each
  have hup : ∀ e : SupplyEvent, (supplyFits c.cis2Tokens [e] = false →
      E (.postgresError .numericValueOutOfRange)) →
      Triple (Holds c b) (do
          let _ ← Txn.statement fun t => t.upsertCis2Tokens e.onConflict ⟨e.key, e.amount⟩
          pure () : DbTx J Unit)
        (fun _ w => Holds (c.supply [e]) b w ∧ supplyFits c.cis2Tokens [e] = true) E := by
    intro e he
    refine Triple.bind (upsert_triple e fun h => he ?_) fun _ => Triple.pure fun _ hw => hw
    simpa [supplyFits] using h
  cases ev with
  | mint tokenId amount => exact hup ⟨tokenKey ca tokenId, .mint, amount⟩ hE
  | burn tokenId amount => exact hup ⟨tokenKey ca tokenId, .burn, amount⟩ hE
  | transfer => exact Triple.pure fun _ hw => ⟨hw, rfl⟩
  | updateOperator => exact Triple.pure fun _ hw => ⟨hw, rfl⟩
  | tokenMetadata => exact Triple.pure fun _ hw => ⟨hw, rfl⟩
  | unknown => exact Triple.pure fun _ hw => ⟨hw, rfl⟩

/-- A loop whose turns apply the mints and burns `g x`, each checked, applies them all. -/
theorem supplies_triple {α : Type} (xs : List α) (f : α → DbTx J Unit) (g : α → List SupplyEvent)
    (h : ∀ c x, (supplyFits c.cis2Tokens (g x) = false → E (.postgresError .numericValueOutOfRange)) →
      Triple (Holds c b) (f x) (fun _ w => Holds (c.supply (g x)) b w ∧
        supplyFits c.cis2Tokens (g x) = true) E)
    (hE : supplyFits c.cis2Tokens (xs.flatMap g) = false → E (.postgresError .numericValueOutOfRange)) :
    Triple (Holds c b) (xs.forM f) (fun _ w => Holds (c.supply (xs.flatMap g)) b w ∧
      supplyFits c.cis2Tokens (xs.flatMap g) = true) E := by
  have hloop := Triple.forM (E := E) xs f
    (fun done w => Holds (c.supply (done.flatMap g)) b w ∧
      supplyFits c.cis2Tokens (done.flatMap g) = true) (fun done x rest hxs => by
        -- what is out of range here is out of range in the whole history
        have hrest : supplyFits c.cis2Tokens (done.flatMap g) = true →
            supplyFits (c.supply (done.flatMap g)).cis2Tokens (g x) = false →
            supplyFits c.cis2Tokens (xs.flatMap g) = false := by
          intro hdone hx
          rw [hxs, List.flatMap_append, List.flatMap_cons, supplyFits_append, supplyFits_append,
            hdone, Bool.true_and]
          simp only [Contents.supply] at hx
          rw [hx, Bool.false_and]
        refine (Triple.carry fun hdone => h _ x fun hx => hE (hrest hdone hx)).conseq
          (fun w hw => hw) ?_ (fun _ he => he)
        rintro _ w ⟨⟨hc, hfit⟩, hdone⟩
        rw [List.flatMap_append, List.flatMap_singleton, Contents.supply_append, supplyFits_append,
          hdone, Bool.true_and]
        exact ⟨hc, hfit⟩)
  exact hloop.conseq (fun w hw => ⟨hw, rfl⟩) (fun _ w hw => hw) (fun _ he => he)

theorem insertCis2Tokens_triple (s : BlockItemSummary)
    (hknown : s.logsKnown = false → E unknownContractLog)
    (hfits : supplyFits c.cis2Tokens s.supplyEvents = false →
      E (.postgresError .numericValueOutOfRange)) :
    Triple (Holds c b) (insertCis2Tokens s)
      (fun _ w => Holds (c.supply s.supplyEvents) b w ∧
        supplyFits c.cis2Tokens s.supplyEvents = true ∧ s.logsKnown = true) E := by
  unfold insertCis2Tokens
  unfold BlockItemSummary.supplyEvents at hfits ⊢
  cases hk : s.logsKnown with
  | false =>
    rw [getCis2Events_unknown s hk]
    exact Triple.bind (R := fun _ _ => False) (Triple.ofExcept fun w _ => hknown hk)
      fun _ _ hs => hs.elim
  | true =>
    obtain ⟨effects, he⟩ := getCis2Events_known s hk
    rw [he] at hfits ⊢
    dsimp only at hfits ⊢
    show Triple _ (effects.forM _) _ E
    refine (supplies_triple effects (fun p => p.2.forM (insertCis2Event p.1))
      (fun p => p.2.filterMap (Cis2.Event.supply p.1)) (fun c p hp => ?_) hfits).conseq
      (fun w hw => hw) (fun _ w hw => ⟨hw.1, hw.2, rfl⟩) (fun _ he => he)
    rw [List.filterMap_eq_flatMap_toList] at hp ⊢
    exact supplies_triple p.2 (insertCis2Event p.1) _
      (fun c ev hev => insertCis2Event_triple p.1 ev hev) hp

/-! ## Key bindings of a block -/

theorem deleteKeyBindings_triple (address : AccountAddress) :
    Triple (Holds c b) (deleteKeyBindings address)
      (fun _ => Holds c (b.filter fun r => !(r.address == address.toBytes))) E := by
  refine Triple.statement fun w hw => ?_
  obtain ⟨rfl, rfl⟩ := hw
  exact ⟨rfl, by simp [Tables.keyBindings, Tables.deleteKeyBindings]⟩

theorem insertKeyBinding_triple (address : AccountAddress) (i : PublicKeyBindingInfo) :
    Triple (Holds c b) (insertKeyBinding address i)
      (fun _ => Holds c (b ++ [i.columns address])) E := by
  refine Triple.statement fun w hw => ?_
  obtain ⟨rfl, rfl⟩ := hw
  exact ⟨rfl, by simp [Tables.keyBindings, Tables.insertKeyBindings]⟩

theorem updateKeyBindings_triple (bindings : AccountPublicKeyBindings) :
    Triple (Holds c b) (updateKeyBindings bindings)
      (fun _ => Holds c (applyBindings b bindings)) E := by
  have hinsert : ∀ (b : List AccountPublicKeyBindingsRow) (e : AccountAddress × List PublicKeyBindingInfo),
      Triple (Holds c b) (e.2.forM (insertKeyBinding e.1))
        (fun _ => Holds c (b ++ e.2.map (PublicKeyBindingInfo.columns e.1))) E := by
    intro b e
    have h := Triple.forM (E := E) e.2 (insertKeyBinding (J := J) e.1)
      (fun done => Holds c (b ++ done.map (PublicKeyBindingInfo.columns e.1))) (fun done i rest _ => by
        rw [List.map_append, ← List.append_assoc]
        exact insertKeyBinding_triple e.1 i)
    simpa using h
  have hloop := Triple.forM (E := E) bindings.entries
    (fun e => (do deleteKeyBindings e.1; e.2.forM (insertKeyBinding e.1) : DbTx J Unit))
    (fun done => Holds c (done.foldl applyBinding b)) (fun done e rest _ => by
      rw [List.foldl_append]
      exact Triple.bind (deleteKeyBindings_triple e.1) fun _ => hinsert _ e)
  exact hloop

end

/-! ## Blocks -/

section
variable {J : Type} [SdkJson J] {c : Contents J} {b : List AccountPublicKeyBindingsRow}

/-- The contents after recording the blocks in order. -/
def Contents.records (c : Contents J) (blocks : List TransactionLogData) : Contents J :=
  blocks.foldl Contents.record c

/-- What stops a block: unknown data in it, or a total out of range. -/
def BlockError (c : Contents J) (d : TransactionLogData) (e : IndexingError) : Prop :=
  (d.known = false ∧ ∃ reason, e = .unknownData reason) ∨
  (supplyFits c.cis2Tokens d.supplyEvents = false ∧ e = .postgresError .numericValueOutOfRange)

theorem Contents.cis2Tokens_recordTransactions (bi : BlockInfo) (c : Contents J)
    (ts : List BlockItemSummaryWithCanonicalAddresses) :
    (ts.foldl (recordTransaction bi) c).cis2Tokens =
      supplyRun c.cis2Tokens (ts.flatMap fun ts => ts.summary.supplyEvents) := by
  induction ts generalizing c with
  | nil => rfl
  | cons t ts ih =>
    rw [List.foldl_cons, ih, List.flatMap_cons, supplyRun_append]
    rfl

theorem Contents.cis2Tokens_record (c : Contents J) (d : TransactionLogData) :
    (c.record d).cis2Tokens = supplyRun c.cis2Tokens d.supplyEvents := by
  have hspecials : ∀ (l : List SpecialTransactionOutcome) (c : Contents J),
      (l.foldl (recordSpecial d.blockInfo) c).cis2Tokens = c.cis2Tokens := by
    intro l
    induction l with
    | nil => intro c; rfl
    | cons so l ih => intro c; exact ih _
  unfold record
  rw [hspecials, cis2Tokens_recordTransactions]
  rfl

theorem Contents.cis2Tokens_records (blocks : List TransactionLogData) (c : Contents J) :
    (c.records blocks).cis2Tokens =
      supplyRun c.cis2Tokens (blocks.flatMap TransactionLogData.supplyEvents) := by
  induction blocks generalizing c with
  | nil => rfl
  | cons d blocks ih =>
    show ((c.record d).records blocks).cis2Tokens = _
    rw [ih, cis2Tokens_record, List.flatMap_cons, supplyRun_append]

/-- The statements of one item record it, or stop for a reason in the item. -/
theorem insertItem_triple {E : IndexingError → Prop} (bi : BlockInfo)
    (ts : BlockItemSummaryWithCanonicalAddresses)
    (hunknown : (ts.summary.contractsKnown && ts.summary.logsKnown) = false →
      ∀ reason, E (.unknownData reason))
    (hrange : supplyFits c.cis2Tokens ts.summary.supplyEvents = false →
      E (.postgresError .numericValueOutOfRange)) :
    Triple (Holds c b)
      (do
        insertTransaction bi.blockHash bi.blockSlotTime.toUInt64 bi.blockHeight ts
        insertCis2Tokens ts.summary)
      (fun _ w => Holds (c.recordTransaction bi ts) b w ∧
        supplyFits c.cis2Tokens ts.summary.supplyEvents = true ∧
        (ts.summary.contractsKnown && ts.summary.logsKnown) = true) E := by
  refine Triple.bind (insertTransaction_triple _ _ _ ts fun h => hunknown (by simp [h])) fun _ => ?_
  refine (Triple.carry fun _ => insertCis2Tokens_triple ts.summary
    (fun h => hunknown (by simp [h]) _) (by exact hrange)).conseq (fun _ hw => hw) ?_ (fun _ he => he)
  rintro _ w ⟨⟨hw, hfits, hlogs⟩, hcontracts⟩
  exact ⟨hw, hfits, by simp [hlogs, hcontracts]⟩

theorem insertTransactions_triple (d : TransactionLogData) :
    Triple (Holds c b)
      (d.itemSummaries.forM fun transaction => do
        insertTransaction d.blockInfo.blockHash d.blockInfo.blockSlotTime.toUInt64
          d.blockInfo.blockHeight transaction
        insertCis2Tokens transaction.summary)
      (fun _ w => Holds (d.itemSummaries.foldl (Contents.recordTransaction d.blockInfo) c) b w ∧
        d.known = true ∧ supplyFits c.cis2Tokens d.supplyEvents = true)
      (BlockError c d) := by
  let known := fun ts : BlockItemSummaryWithCanonicalAddresses =>
    ts.summary.contractsKnown && ts.summary.logsKnown
  let events := fun ts : BlockItemSummaryWithCanonicalAddresses => ts.summary.supplyEvents
  refine (Triple.forM d.itemSummaries _
    (fun done w => Holds (done.foldl (Contents.recordTransaction d.blockInfo) c) b w ∧
      done.all known = true ∧ supplyFits c.cis2Tokens (done.flatMap events) = true)
    fun done ts rest hxs => ?_).conseq (fun _ hw => ⟨hw, rfl, rfl⟩) (fun _ _ hw => hw) (fun _ he => he)
  have hc := Contents.cis2Tokens_recordTransactions d.blockInfo c done
  -- an error of this item is an error of the block
  have hunknown : known ts = false → ∀ reason, BlockError c d (.unknownData reason) := by
    intro hts reason
    refine Or.inl ⟨?_, reason, rfl⟩
    show d.itemSummaries.all known = false
    rw [hxs, List.all_append, List.all_cons, hts]
    simp
  have hrange : supplyFits c.cis2Tokens (done.flatMap events) = true →
      supplyFits (supplyRun c.cis2Tokens (done.flatMap events)) (events ts) = false →
      BlockError c d (.postgresError .numericValueOutOfRange) := by
    intro hdone hts
    refine Or.inr ⟨?_, rfl⟩
    show supplyFits c.cis2Tokens (d.itemSummaries.flatMap events) = false
    rw [hxs, List.flatMap_append, List.flatMap_cons, supplyFits_append, supplyFits_append, hdone, hts]
    simp
  refine (Triple.carry fun hφ => insertItem_triple d.blockInfo ts hunknown
    (fun h => hrange hφ.2 (by rw [← hc]; exact h))).conseq (fun _ hw => hw) ?_ (fun _ he => he)
  rintro _ w ⟨⟨hw, hfits, hts⟩, hall, hdone⟩
  refine ⟨?_, ?_, ?_⟩
  · rw [List.foldl_append]; exact hw
  · rw [List.all_append, hall, List.all_cons, show known ts = true from hts]; rfl
  · rw [List.flatMap_append, supplyFits_append, hdone, List.flatMap_singleton, ← hc]
    exact hfits

/-- The statements of `insert_block` record the block, or stop for a reason in the block. -/
theorem insertBlockBody_triple (d : TransactionLogData) :
    Triple (Holds c b)
      (insertBlockBody d.blockInfo.blockHash d.blockInfo.blockSlotTime.toUInt64
        d.blockInfo.blockHeight d.itemSummaries d.specialEvents d.bindings)
      (fun _ w => Holds (c.record d) (applyBindings b d.bindings) w ∧
        d.known = true ∧ supplyFits c.cis2Tokens d.supplyEvents = true)
      (BlockError c d) := by
  unfold insertBlockBody
  refine Triple.bind (insertTransactions_triple d) fun _ => Triple.carry fun _ => ?_
  refine Triple.bind (R := fun _ => Holds (c.record d) b) ?_ fun _ => updateKeyBindings_triple _
  exact Triple.forM d.specialEvents _
    (fun done => Holds (done.foldl (Contents.recordSpecial d.blockInfo)
      (d.itemSummaries.foldl (Contents.recordTransaction d.blockInfo) c)) b)
    (fun done so rest _ => by rw [List.foldl_append]; exact insertSpecial_triple _ _ _ so)

/-- A block that commits is recorded once, and had only known data and totals in range. -/
theorem insertIntoDb_committed {n : Option Nat} {db db' : Tables J} {d : TransactionLogData}
    (h : insertIntoDb n db d = (.ok (), db')) :
    db'.contents = db.contents.record d ∧
    db'.keyBindings = applyBindings db.keyBindings d.bindings ∧
    d.known = true ∧ supplyFits db.supplies d.supplyEvents = true := by
  have hspec := transaction_of_triple (n := n) (insertBlockBody_triple (J := J) d)
    (show Holds db.contents db.keyBindings db from ⟨rfl, rfl⟩)
  unfold insertIntoDb insertBlock at h
  rw [h] at hspec
  exact ⟨hspec.1.1, hspec.1.2, hspec.2⟩

/-- A block that fails is rolled back: with an error of the block, or of the connection. -/
theorem insertIntoDb_failed {n : Option Nat} {db db' : Tables J} {d : TransactionLogData}
    {e : IndexingError} (h : insertIntoDb n db d = (.error e, db')) :
    (∃ w, db' = Rollback.rollback db w) ∧
    (BlockError db.contents d e ∨ (e = .postgresError .closed ∧ n ≠ none)) := by
  have hspec := transaction_of_triple (n := n) (insertBlockBody_triple (J := J) d)
    (show Holds db.contents db.keyBindings db from ⟨rfl, rfl⟩)
  unfold insertIntoDb insertBlock at h
  rw [h] at hspec
  exact hspec

/-- On a healthy connection a block of known data with totals in range commits. -/
theorem insertIntoDb_healthy {db : Tables J} {d : TransactionLogData} (hknown : d.known = true)
    (hfits : supplyFits db.supplies d.supplyEvents = true) :
    ∃ db', insertIntoDb none db d = (.ok (), db') := by
  rcases h : insertIntoDb none db d with ⟨r, db'⟩
  cases r with
  | ok u => exact ⟨db', rfl⟩
  | error e =>
    rcases (insertIntoDb_failed h).2 with (⟨hk, -⟩ | ⟨hf, -⟩) | ⟨-, hn⟩
    · rw [hknown] at hk; cases hk
    · rw [show db.contents.cis2Tokens = db.supplies from rfl, hfits] at hf; cases hf
    · exact absurd rfl hn

/-- Tables that result from committing the blocks in order, whatever attempts failed between. -/
inductive Indexed : List TransactionLogData → Tables J → Prop where
  | nil : Indexed [] .empty
  | committed {blocks : List TransactionLogData} {db db' : Tables J} {n : Option Nat}
      {d : TransactionLogData} : Indexed blocks db → insertIntoDb n db d = (.ok (), db') →
      Indexed (blocks ++ [d]) db'
  | failed {blocks : List TransactionLogData} {db db' : Tables J} {n : Option Nat}
      {d : TransactionLogData} {e : IndexingError} : Indexed blocks db →
      insertIntoDb n db d = (.error e, db') → Indexed blocks db'

theorem Indexed.contents {blocks : List TransactionLogData} {db : Tables J}
    (h : Indexed blocks db) : db.contents = Contents.records .empty blocks := by
  induction h with
  | nil => exact Tables.contents_empty
  | committed _ hins ih =>
    rw [(insertIntoDb_committed hins).1, ih]
    unfold Contents.records
    rw [List.foldl_append]
    rfl
  | failed _ hins ih =>
    obtain ⟨⟨w, rfl⟩, -⟩ := insertIntoDb_failed hins
    rw [Tables.contents_rollback]
    exact ih

end

end WalletProxyIndexer
