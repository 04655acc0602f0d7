import WalletProxyIndexer.Record

/-!
# CIS2 supply accounting

What `insert_cis2_tokens` makes of a sequence of block item summaries, against the
events read off their logs.

`BlockItemSummary.extracted` is the specification of `get_cis2_events`: the events of
every execution segment whose logs all parse, in order.  `SupplyAccounted` is what one
expects of `cis2_tokens` after them: a token has a row exactly when it was minted or
burned, its total is minted minus burned, and a token that is not mentioned keeps its
row.

Rows, extraction and frame hold for every sequence.  The totals do not: the upsert of
a burn inserts its amount with a positive sign when the token has no row yet.  So they
are right exactly when no token's first event burns a nonzero amount
(`firstIsBurn`).
-/

namespace WalletProxyIndexer

open Transaction

/-! ## Extraction -/

/-- The execution segments of an update, or the one of an init, with their logs. -/
def BlockItemSummary.segments (s : BlockItemSummary) : List (ContractAddress × List ContractEvent) :=
  match s.contractUpdateLogs with
  | some segments => segments.filterMap Upward.toOption
  | none => s.contractInit.toList.map fun init => (init.address, init.events)

/-- All events of a segment whose logs all parse, no event of another. -/
def segmentEvents (logs : List ContractEvent) : List Cis2.Event :=
  if logs.all fun log => (Cis2.Event.tryFrom log).isSome then logs.filterMap Cis2.Event.tryFrom
  else []

abbrev TokenEvents := List (ContractAddress × Cis2.Event)

def supplyOf (p : ContractAddress × Cis2.Event) : Option SupplyEvent := p.2.supply p.1

def BlockItemSummary.extracted (s : BlockItemSummary) : TokenEvents :=
  s.segments.flatMap fun (ca, logs) => (segmentEvents logs).map (ca, ·)

theorem mapM_tryFrom (logs : List ContractEvent) : logs.mapM Cis2.Event.tryFrom =
    if logs.all fun log => (Cis2.Event.tryFrom log).isSome then
      some (logs.filterMap Cis2.Event.tryFrom)
    else none := by
  induction logs with
  | nil => rfl
  | cons log logs ih =>
    rw [List.mapM_cons, ih, List.all_cons]
    cases h : Cis2.Event.tryFrom log with
    | none => rfl
    | some ev =>
      rw [List.filterMap_cons_some h]
      show (if _ then some _ else none : Option (List Cis2.Event)).bind _ = _
      split <;> simp_all

theorem effectsSupply_segments (segments : List (ContractAddress × List ContractEvent)) :
    effectsSupply (segments.filterMap fun p => (p.2.mapM Cis2.Event.tryFrom).map (p.1, ·)) =
      (segments.flatMap fun p => (segmentEvents p.2).map (p.1, ·)).filterMap supplyOf := by
  unfold effectsSupply
  induction segments with
  | nil => rfl
  | cons p segments ih =>
    rw [List.flatMap_cons, List.filterMap_append, ← ih, List.filterMap_cons, mapM_tryFrom]
    unfold segmentEvents
    split
    · next h => split at h <;> simp_all
    · next q h =>
      split at h
      · next hall =>
        simp only [Option.map_some, Option.some.injEq] at h
        subst h
        rw [if_pos hall, List.flatMap_cons, List.filterMap_map]
        rfl
      · simp at h

theorem parsedSegment_eq (segments : List (Upward (ContractAddress × List ContractEvent))) :
    segments.filterMap parsedSegment = (segments.filterMap Upward.toOption).filterMap
      fun p => (p.2.mapM Cis2.Event.tryFrom).map (p.1, ·) := by
  rw [List.filterMap_filterMap]
  refine List.filterMap_congr fun segment _ => ?_
  cases segment <;> rfl

/-- The mints and burns the code applies are those of the extracted events. -/
theorem supplyEvents_eq_extracted (s : BlockItemSummary) (h : s.logsKnown = true) :
    s.supplyEvents = s.extracted.filterMap supplyOf := by
  unfold BlockItemSummary.logsKnown at h
  unfold BlockItemSummary.supplyEvents BlockItemSummary.extracted BlockItemSummary.segments
    getCis2Events
  cases hlogs : s.contractUpdateLogs with
  | some segments =>
    rw [hlogs] at h
    dsimp only
    rw [foldlM_pushSegment, if_pos h, List.nil_append, parsedSegment_eq]
    exact effectsSupply_segments _
  | none =>
    dsimp only
    cases s.contractInit with
    | none => rfl
    | some init =>
      have hseg := effectsSupply_segments [(init.address, init.events)]
      rw [Option.toList_some, List.map_singleton, ← hseg]
      simp only [List.filterMap_cons, List.filterMap_nil]
      cases init.events.mapM Cis2.Event.tryFrom <;> rfl

/-! ## Tokens -/

/-- The event mints or burns the token. -/
def concerns (ca : ContractAddress) (id : Cis2.TokenId) : ContractAddress × Cis2.Event → Bool
  | (ca', .mint id' _) => ca' = ca ∧ id' = id
  | (ca', .burn id' _) => ca' = ca ∧ id' = id
  | _ => false

def mintedAmount : ContractAddress × Cis2.Event → Nat
  | (_, .mint _ amount) => amount
  | _ => 0

def burnedAmount : ContractAddress × Cis2.Event → Nat
  | (_, .burn _ amount) => amount
  | _ => 0

def minted (ca : ContractAddress) (id : Cis2.TokenId) (events : TokenEvents) : Nat :=
  ((events.filter (concerns ca id)).map mintedAmount).sum

def burned (ca : ContractAddress) (id : Cis2.TokenId) (events : TokenEvents) : Nat :=
  ((events.filter (concerns ca id)).map burnedAmount).sum

/-- The first mint or burn of the token burns a nonzero amount. -/
def firstIsBurn (ca : ContractAddress) (id : Cis2.TokenId) (events : TokenEvents) : Bool :=
  match events.find? (concerns ca id) with
  | some (_, .burn _ amount) => amount != 0
  | _ => false

theorem supply_concerns {ca : ContractAddress} {id : Cis2.TokenId}
    {p : ContractAddress × Cis2.Event} (h : concerns ca id p = true) :
    ∃ e, supplyOf p = some e ∧ e.key = tokenKey ca id ∧
      e.signed = mintedAmount p - burnedAmount p ∧
      (e.change == .burn && e.amount != 0) = (match p.2 with
        | .burn _ amount => amount != 0
        | _ => false) := by
  obtain ⟨ca', ev⟩ := p
  cases ev with
  | mint id' amount =>
    simp only [concerns, decide_eq_true_eq] at h
    obtain ⟨rfl, rfl⟩ := h
    exact ⟨_, rfl, rfl, by simp [SupplyEvent.signed, mintedAmount, burnedAmount], rfl⟩
  | burn id' amount =>
    simp only [concerns, decide_eq_true_eq] at h
    obtain ⟨rfl, rfl⟩ := h
    exact ⟨_, rfl, rfl, by simp [SupplyEvent.signed, mintedAmount, burnedAmount], rfl⟩
  | transfer | updateOperator | tokenMetadata | unknown => simp [concerns] at h

theorem supply_not_concerns {ca : ContractAddress} {id : Cis2.TokenId}
    {p : ContractAddress × Cis2.Event} (h : concerns ca id p = false) {e : SupplyEvent}
    (he : supplyOf p = some e) : e.key ≠ tokenKey ca id := by
  obtain ⟨ca', ev⟩ := p
  cases ev with
  | mint id' amount =>
    simp only [supplyOf, Cis2.Event.supply, Option.some.injEq] at he
    subst he
    simp only [concerns, decide_eq_false_iff_not] at h
    exact fun hk => h (tokenKey_inj.mp hk)
  | burn id' amount =>
    simp only [supplyOf, Cis2.Event.supply, Option.some.injEq] at he
    subst he
    simp only [concerns, decide_eq_false_iff_not] at h
    exact fun hk => h (tokenKey_inj.mp hk)
  | transfer | updateOperator | tokenMetadata | unknown => simp [supplyOf, Cis2.Event.supply] at he

/-- A token's events, as the supplies see them. -/
theorem ofKey_supply (ca : ContractAddress) (id : Cis2.TokenId) (events : TokenEvents) :
    ofKey (tokenKey ca id) (events.filterMap supplyOf) =
      (events.filter (concerns ca id)).filterMap supplyOf := by
  induction events with
  | nil => rfl
  | cons p events ih =>
    cases hp : concerns ca id p with
    | true =>
      obtain ⟨e, he, hk, -⟩ := supply_concerns hp
      rw [List.filterMap_cons_some he, List.filter_cons_of_pos hp, List.filterMap_cons_some he,
        ← hk, ofKey_cons_self, hk, ih]
    | false =>
      rw [List.filter_cons_of_neg (by simp [hp])]
      cases he : supplyOf p with
      | none => rw [List.filterMap_cons_none he, ih]
      | some e =>
        rw [List.filterMap_cons_some he, ofKey_cons_ne _ (supply_not_concerns hp he), ih]

/-- Their net supply is minted minus burned. -/
theorem net_supply (ca : ContractAddress) (id : Cis2.TokenId) (events : TokenEvents) :
    net (ofKey (tokenKey ca id) (events.filterMap supplyOf)) =
      minted ca id events - burned ca id events := by
  rw [ofKey_supply]
  unfold minted burned
  have hall : ∀ p ∈ events.filter (concerns ca id), concerns ca id p = true := fun p hp =>
    (List.mem_filter.mp hp).2
  generalize events.filter (concerns ca id) = own at hall
  induction own with
  | nil => rfl
  | cons p own ih =>
    obtain ⟨e, he, -, hs, -⟩ := supply_concerns (hall p List.mem_cons_self)
    have ih := ih fun q hq => hall q (List.mem_cons_of_mem _ hq)
    rw [List.filterMap_cons_some he, net_cons, ih, hs]
    simp only [List.map_cons, List.sum_cons, Nat.cast_add]
    omega

theorem startsWithBurn_supply (ca : ContractAddress) (id : Cis2.TokenId) (events : TokenEvents) :
    startsWithBurn (ofKey (tokenKey ca id) (events.filterMap supplyOf)) =
      firstIsBurn ca id events := by
  rw [ofKey_supply]
  unfold firstIsBurn
  rw [← List.head?_filter]
  cases h : events.filter (concerns ca id) with
  | nil => rfl
  | cons p own =>
    have hp : concerns ca id p = true := (List.mem_filter.mp (h ▸ List.mem_cons_self)).2
    obtain ⟨e, he, -, -, hb⟩ := supply_concerns hp
    rw [List.filterMap_cons_some he, List.head?_cons]
    show (e.change == .burn && e.amount != 0) = _
    rw [hb]
    rcases p with ⟨ca', ev⟩
    cases ev <;> rfl

theorem ofKey_supply_eq_nil (ca : ContractAddress) (id : Cis2.TokenId) (events : TokenEvents) :
    ofKey (tokenKey ca id) (events.filterMap supplyOf) = [] ↔
      ∀ p ∈ events, concerns ca id p = false := by
  rw [ofKey_supply]
  constructor
  · intro h p hp
    by_contra hc
    have hc : concerns ca id p = true := by simpa using hc
    obtain ⟨e, he, -⟩ := supply_concerns hc
    have : e ∈ (events.filter (concerns ca id)).filterMap supplyOf :=
      List.mem_filterMap.mpr ⟨p, List.mem_filter.mpr ⟨hp, hc⟩, he⟩
    rw [h] at this
    cases this
  · intro h
    rw [List.filter_eq_nil_iff.mpr fun p hp => by simp [h p hp]]
    rfl

/-! ## Runs -/

section
variable {J : Type} {c : Contents J} {b : List AccountPublicKeyBindingsRow}

theorem insertCis2TokensAll_triple (summaries : List BlockItemSummary) :
    Triple (Holds c b) (summaries.forM insertCis2Tokens)
      (fun _ => Holds (c.supply ((summaries.flatMap BlockItemSummary.extracted).filterMap supplyOf)) b)
      (fun _ => True) := by
  refine (Triple.forM summaries insertCis2Tokens
    (fun done => Holds (c.supply ((done.flatMap BlockItemSummary.extracted).filterMap supplyOf)) b)
    (fun done s rest _ => ?_)).conseq (fun w hw => hw) (fun _ _ hw => hw) (fun _ he => he)
  refine (insertCis2Tokens_triple s (fun _ => trivial) (fun _ => trivial)).conseq (fun w hw => hw)
    (fun _ w hw => ?_) (fun _ he => he)
  obtain ⟨hw, -, hlogs⟩ := hw
  rw [supplyEvents_eq_extracted s hlogs] at hw
  rw [List.flatMap_append, List.flatMap_singleton, List.filterMap_append, Contents.supply_append]
  exact hw

/-- An upsert leaves the rows of other keys as they are. -/
theorem Tables.cis2Row_upsert {t t' : Tables J} {f : Int → Int → Int} {r : Cis2TokensRow} {id : Nat}
    {k : Cis2Key} (h : t.upsertCis2Tokens f r = .ok (id, t')) (hk : r.key ≠ k) :
    t'.cis2Row k = t.cis2Row k := by
  unfold upsertCis2Tokens at h
  split at h
  · split at h
    · -- a new row at the end, with another key
      simp only [Except.ok.injEq, Prod.mk.injEq] at h
      rw [← h.2]
      simp only [cis2Row, SerialTable.insert, List.find?_append, List.find?_singleton,
        beq_eq_false_iff_ne.mpr hk, Bool.false_eq_true, if_false, Option.or_none]
    · split at h
      · next old _ _ =>
        simp only [Except.ok.injEq, Prod.mk.injEq] at h
        rw [← h.2]
        simp only [cis2Row, SerialTable.update, SerialTable.burn, List.find?_map]
        let g := fun q : Nat × Cis2TokensRow => if q.2.key == r.key then
          (q.1, { q.2 with totalSupply := f old.2.totalSupply r.totalSupply }) else q
        have hkey : ((fun q : Nat × Cis2TokensRow => q.2.key == k) ∘ g) = fun q => q.2.key == k := by
          funext q
          simp only [Function.comp_apply, g]
          split <;> rfl
        show ((t.cis2Tokens.rows.find? ((fun q => q.2.key == k) ∘ g)).map g) = _
        rw [hkey]
        cases hfind : t.cis2Tokens.rows.find? fun q => q.2.key == k with
        | none => rfl
        | some q =>
          have hq : q.2.key = k := by simpa using List.find?_some hfind
          have hne : (q.2.key == r.key) = false := beq_eq_false_iff_ne.mpr (by rw [hq]; exact hk.symm)
          rw [Option.map_some]
          simp only [g, hne, Bool.false_eq_true, if_false]
      · cases h
  · cases h

theorem insertCis2Event_frame {k : Cis2Key} {row : Option (Nat × Cis2TokensRow)}
    (ca : ContractAddress) (ev : Cis2.Event) (h : ∀ e, ev.supply ca = some e → e.key ≠ k) :
    Triple (fun w : Tables J => w.cis2Row k = row) (insertCis2Event ca ev)
      (fun _ w => w.cis2Row k = row) (fun _ => True) := by
  have hup : ∀ (f : Int → Int → Int) (tokenId : Cis2.TokenId) (amount : Nat),
      tokenKey ca tokenId ≠ k →
      Triple (fun w : Tables J => w.cis2Row k = row)
        (do let _ ← cis2UpsertTotalSupply f ca tokenId amount; pure ())
        (fun _ w => w.cis2Row k = row) (fun _ => True) := by
    intro f tokenId amount hk
    refine Triple.bind (R := fun _ w => w.cis2Row k = row) (Triple.statement fun w hw => ?_)
      fun _ => Triple.pure fun _ hw => hw
    split
    · next hu => rw [Tables.cis2Row_upsert hu hk]; exact hw
    · trivial
  cases ev with
  | mint tokenId amount => exact hup (· + ·) tokenId amount (h _ rfl)
  | burn tokenId amount => exact hup (· - ·) tokenId amount (h _ rfl)
  | transfer => exact Triple.pure fun _ hw => hw
  | updateOperator => exact Triple.pure fun _ hw => hw
  | tokenMetadata => exact Triple.pure fun _ hw => hw
  | unknown => exact Triple.pure fun _ hw => hw

theorem insertCis2Tokens_frame {k : Cis2Key} {row : Option (Nat × Cis2TokensRow)}
    (s : BlockItemSummary) (h : ∀ p ∈ s.extracted, ∀ e, supplyOf p = some e → e.key ≠ k) :
    Triple (fun w : Tables J => w.cis2Row k = row) (insertCis2Tokens s)
      (fun _ w => w.cis2Row k = row) (fun _ => True) := by
  unfold insertCis2Tokens
  cases hlogs : s.logsKnown with
  | false =>
    rw [getCis2Events_unknown s hlogs]
    exact Triple.bind (R := fun _ _ => False) (Triple.ofExcept fun w _ => trivial)
      fun _ _ hs => hs.elim
  | true =>
    obtain ⟨effects, he⟩ := getCis2Events_known s hlogs
    have hsup := supplyEvents_eq_extracted s hlogs
    rw [BlockItemSummary.supplyEvents, he] at hsup
    -- no event applied is about the key
    have hkey : ∀ q ∈ effects, ∀ ev ∈ q.2, ∀ e, ev.supply q.1 = some e → e.key ≠ k := by
      intro q hq ev hev e hse
      have hmem : e ∈ effectsSupply effects :=
        List.mem_flatMap.mpr ⟨q, hq, List.mem_filterMap.mpr ⟨ev, hev, hse⟩⟩
      rw [show effectsSupply effects = _ from hsup] at hmem
      obtain ⟨p, hp, hpe⟩ := List.mem_filterMap.mp hmem
      exact h p hp e hpe
    rw [he]
    show Triple _ (effects.forM _) _ _
    refine Triple.forM effects _ (fun _ (w : Tables J) => w.cis2Row k = row) fun done q rest hxs => ?_
    have hq : q ∈ effects := by rw [hxs]; simp
    refine Triple.forM q.2 _ (fun _ (w : Tables J) => w.cis2Row k = row) fun done' ev rest' hxs' => ?_
    exact insertCis2Event_frame q.1 ev (hkey q hq ev (by rw [hxs']; simp))

end

/-! ## Accounting -/

section
variable {J : Type}

/-- What `cis2_tokens` should say after a run over the summaries that started at `db`. -/
structure SupplyAccounted (summaries : List BlockItemSummary) (db : Tables J) (n : Option Nat)
    (t : Tables J) : Prop where
  /-- a row exists iff the token was minted or burned -/
  row : ∀ ca id, (t.cis2Row (tokenKey ca id)).isSome = true ↔
    ∃ p ∈ summaries.flatMap BlockItemSummary.extracted, concerns ca id p = true
  /-- its total is what was minted minus what was burned -/
  supply : ∀ ca id r, t.cis2Row (tokenKey ca id) = some r →
    r.2.totalSupply = minted ca id (summaries.flatMap BlockItemSummary.extracted) -
      burned ca id (summaries.flatMap BlockItemSummary.extracted)
  /-- the row of a token stays as it is over summaries that neither mint nor burn it -/
  frame : ∀ done rest mid, summaries = done ++ rest →
    (done.forM insertCis2Tokens) ⟨db, n⟩ = (.ok (), mid) → ∀ ca id,
    (∀ p ∈ rest.flatMap BlockItemSummary.extracted, concerns ca id p = false) →
    t.cis2Row (tokenKey ca id) = mid.work.cis2Row (tokenKey ca id)

variable {summaries : List BlockItemSummary} {db : Tables J} {n : Option Nat}
  {s : Session (Tables J)}

/-- The rows after a run from an empty table, key by key. -/
theorem cis2Row_run (hempty : db.cis2Tokens.values = [])
    (hrun : (summaries.forM insertCis2Tokens) ⟨db, n⟩ = (.ok (), s)) (k : Cis2Key) :
    (s.work.cis2Row k).map (fun r => r.2.totalSupply) =
      keyTotal (ofKey k ((summaries.flatMap BlockItemSummary.extracted).filterMap supplyOf)) := by
  have h := insertCis2TokensAll_triple (c := db.contents) (b := db.keyBindings) summaries ⟨db, n⟩
    ⟨rfl, rfl⟩
  rw [hrun] at h
  have hsup : db.supplies = [] := by unfold Tables.supplies; rw [hempty]; rfl
  have hw : s.work.supplies = supplyRun db.supplies _ := congrArg Contents.cis2Tokens h.1.1
  rw [s.work.cis2Row_total, hw, hsup, total_supplyRun_nil]

theorem cis2Row_frame (hrun : (summaries.forM insertCis2Tokens) ⟨db, n⟩ = (.ok (), s))
    {done rest : List BlockItemSummary} {mid : Session (Tables J)} (hsplit : summaries = done ++ rest)
    (hmid : (done.forM insertCis2Tokens) ⟨db, n⟩ = (.ok (), mid)) {ca : ContractAddress}
    {id : Cis2.TokenId}
    (hrest : ∀ p ∈ rest.flatMap BlockItemSummary.extracted, concerns ca id p = false) :
    s.work.cis2Row (tokenKey ca id) = mid.work.cis2Row (tokenKey ca id) := by
  rw [hsplit, Txn.forM_append_ok hmid] at hrun
  have hframe := Triple.forM (E := fun _ => True) rest (insertCis2Tokens (J := J))
    (fun _ w => w.cis2Row (tokenKey ca id) = mid.work.cis2Row (tokenKey ca id))
    (fun done' x rest' hxs => insertCis2Tokens_frame x fun p hp e he =>
      supply_not_concerns (hrest p (List.mem_flatMap.mpr ⟨x, by rw [hxs]; simp, hp⟩)) he) mid rfl
  rw [hrun] at hframe
  exact hframe.1

/-- The totals of the table are right exactly when no token's first event burns a nonzero
amount; the rest of the accounting always holds. -/
theorem supplyAccounted_iff (hempty : db.cis2Tokens.values = [])
    (hrun : (summaries.forM insertCis2Tokens) ⟨db, n⟩ = (.ok (), s)) :
    SupplyAccounted summaries db n s.work ↔
      ∀ ca id, firstIsBurn ca id (summaries.flatMap BlockItemSummary.extracted) = false := by
  let events := summaries.flatMap BlockItemSummary.extracted
  have htotal := fun ca id => cis2Row_run hempty hrun (tokenKey ca id)
  have hnet := fun ca id => total_eq_net_iff (ofKey (tokenKey ca id) (events.filterMap supplyOf))
  simp only [startsWithBurn_supply, net_supply] at hnet
  have hrow : ∀ ca id, (s.work.cis2Row (tokenKey ca id)).isSome = true ↔
      ofKey (tokenKey ca id) (events.filterMap supplyOf) ≠ [] := by
    intro ca id
    rw [← Option.isSome_map, htotal]
    show (keyTotal (ofKey (tokenKey ca id) (events.filterMap supplyOf))).isSome = true ↔ _
    cases ofKey (tokenKey ca id) (events.filterMap supplyOf) <;> simp [keyTotal]
  constructor
  · intro h ca id
    refine (hnet ca id).mp ?_
    rw [← show _ = keyTotal _ from htotal ca id]
    cases hr : s.work.cis2Row (tokenKey ca id) with
    | none =>
      have := hrow ca id
      rw [hr] at this
      rw [if_pos (by simpa using this)]
      rfl
    | some r =>
      have := hrow ca id
      rw [hr] at this
      rw [if_neg (by simpa using this), Option.map_some, h.supply ca id r hr]
  · intro h
    refine ⟨fun ca id => ?_, fun ca id r hr => ?_, fun done rest mid hsplit hmid ca id hrest =>
      cis2Row_frame hrun hsplit hmid hrest⟩
    · rw [hrow, Ne, ofKey_supply_eq_nil]
      push Not
      simp only [Bool.not_eq_false]
      rfl
    · have hk := (hnet ca id).mpr (h ca id)
      have hne := (hrow ca id).mp (by rw [hr]; rfl)
      rw [if_neg hne, ← show _ = keyTotal _ from htotal ca id, hr, Option.map_some,
        Option.some.injEq] at hk
      exact hk

/-- An update of one contract that emits the given CIS2 events. -/
def updateEmitting (ca : ContractAddress) (events : List Cis2.Event) : BlockItemSummary where
  hash := []
  details := .known .other
  affectedAddresses := .known []
  affectedContracts := .known [.known ca]
  contractUpdateLogs := some [.known (ca, events.map fun ev => ⟨some ev⟩)]
  contractInit := none

theorem supplyAccounted_mint_burn :
    let summaries := [updateEmitting ⟨1, 0⟩ [.mint [] 7, .burn [] 3]]
    ∃ s : Session (Tables Unit), (summaries.forM insertCis2Tokens) ⟨.empty, none⟩ = (.ok (), s) ∧
      SupplyAccounted summaries .empty none s.work := by
  refine ⟨_, rfl, (supplyAccounted_iff rfl rfl).mpr fun ca id => ?_⟩
  show firstIsBurn ca id [(⟨1, 0⟩, .mint [] 7), (⟨1, 0⟩, .burn [] 3)] = false
  unfold firstIsBurn
  by_cases h : (⟨1, 0⟩ : ContractAddress) = ca ∧ ([] : Cis2.TokenId) = id
  · rw [List.find?_cons_of_pos (by simpa [concerns] using h)]
  · rw [List.find?_cons_of_neg (by simpa [concerns] using h),
      List.find?_cons_of_neg (by simpa [concerns] using h)]
    rfl

/-- Burning 5 of a fresh token stores the total 5, not -5. -/
theorem burn_first_not_accounted :
    let summaries := [updateEmitting ⟨1, 0⟩ [.burn [] 5]]
    ∃ s : Session (Tables Unit), (summaries.forM insertCis2Tokens) ⟨.empty, none⟩ = (.ok (), s) ∧
      ¬ SupplyAccounted summaries .empty none s.work := by
  refine ⟨_, rfl, fun h => ?_⟩
  have hsupply := h.supply ⟨1, 0⟩ [] (1, ⟨tokenKey ⟨1, 0⟩ [], 5⟩) rfl
  revert hsupply
  decide

end

end WalletProxyIndexer
