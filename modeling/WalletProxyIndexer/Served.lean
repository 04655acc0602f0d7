import WalletProxyIndexer.ExactlyOnce
import WalletProxyIndexer.UnansweredCommit

/-!
# Blocks that can be indexed

What `on_use_node` and `on_finalized_block` need of a node to succeed: the accounts a
block names exist, and everything asked about it is of a known variant
(`Chain.Served`).  Then they succeed whatever canonical addresses are in the cache
(`onFinalizedBlock_yields`).

`Chain.Indexable N` adds what the database needs of the first `N` blocks.
-/

namespace WalletProxyIndexer

open Transition Stateful

/-! ## The hooks -/

/-- A node that follows the chain can answer everything asked about block `n`. -/
structure Chain.Served (chain : Chain) (n : Nat) : Prop where
  addresses : ∀ s ∈ chain.transactionEvents n, ∃ affected, s.affectedAddresses = .known affected ∧
    ∀ a ∈ affected, ∃ info, chain.accountInfo n a = some info
  specialEvents : ∀ u ∈ chain.specialEvents n, u.isKnown = true
  keys : ∀ a ∈ keyUpdates (chain.transactionEvents n), ∃ info, chain.accountInfo n a = some info ∧
    info.accessStructure.isKnown = true

section
variable {chain : Chain} {height : AbsoluteBlockHeight}

theorem onUseNode_yields (chain : Chain) (lastFinal : Nat) :
    Yields (CanonicalAddressCache.Canonical chain) (onUseNode (chain.node lastFinal)) fun _ => True := by
  unfold onUseNode
  refine Yields.bind Yields.read fun cache _ => ?_
  split
  · refine Yields.bind (R := fun l => l = chain.accounts lastFinal) (Yields.ofExcept rfl rfl) ?_
    rintro l rfl
    exact Yields.modify fun _ _ => CanonicalAddressCache.canonical_ofList fun a ha => ⟨lastFinal, ha⟩
  · exact Yields.pure trivial

theorem resolveAddress_yields (lastFinal : Nat) (addresses : List AccountAddress)
    {a : AccountAddress} (ha : ∃ info, chain.accountInfo height.toNat a = some info) :
    Yields (CanonicalAddressCache.Canonical chain)
      (resolveAddress (chain.node lastFinal) height addresses a) fun _ => True := by
  obtain ⟨info, hinfo⟩ := ha
  obtain ⟨hmem, -, -⟩ := chain.accountInfo_spec hinfo
  unfold resolveAddress
  refine Yields.bind Yields.read fun cache _ => ?_
  split
  · exact Yields.pure trivial
  · refine Yields.bind (R := fun i => i = info) (Yields.ofExcept ?_ rfl) ?_
    · unfold Chain.node
      dsimp only
      rw [hinfo]
      rfl
    · rintro i rfl
      dsimp only
      split
      · exact Yields.pure trivial
      · refine Yields.bind (Yields.modify fun c hc => hc.insert ⟨_, hmem⟩) fun _ _ => ?_
        exact Yields.pure trivial

theorem collectSummary_yields (lastFinal : Nat) (acc : Collected) {s : BlockItemSummary}
    {affected : List AccountAddress} (hs : s.affectedAddresses = .known affected)
    (hinfo : ∀ a ∈ affected, ∃ info, chain.accountInfo height.toNat a = some info) :
    Yields (CanonicalAddressCache.Canonical chain)
      (collectSummary (chain.node lastFinal) height acc s)
      fun c => ∃ addresses, c = acc.push s addresses := by
  unfold collectSummary
  rw [hs]
  refine Yields.bind (R := fun l => l = affected) (Yields.ofExcept rfl rfl) ?_
  rintro l rfl
  refine Yields.bind (R := fun _ => True) ?_ fun addresses _ => Yields.pure ⟨addresses, rfl⟩
  refine Yields.foldlM l _ (fun _ _ => True) trivial fun done a rest addresses hl _ => ?_
  exact resolveAddress_yields lastFinal addresses (hinfo a (by rw [hl]; simp))

theorem mapM_ok {ε α β : Type} {f : α → Except ε β} {l : List α} (h : ∀ a ∈ l, ∃ b, f a = .ok b) :
    ∃ r, l.mapM f = .ok r := by
  induction l with
  | nil => exact ⟨[], rfl⟩
  | cons a l ih =>
    obtain ⟨b, hb⟩ := h a List.mem_cons_self
    obtain ⟨r, hr⟩ := ih fun x hx => h x (List.mem_cons_of_mem _ hx)
    exact ⟨b :: r, by rw [List.mapM_cons, hb, hr]; rfl⟩

theorem accountInfoToBindings_ok {infos : List AccountInfo}
    (h : ∀ info ∈ infos, info.accessStructure.isKnown = true) :
    ∃ bindings, accountInfoToBindings infos = .ok bindings := by
  have go : ∀ (infos : List AccountInfo) (m : AccountPublicKeyBindings),
      (∀ info ∈ infos, info.accessStructure.isKnown = true) →
      ∃ bindings, infos.foldlM addAccountInfo m = .ok bindings := by
    intro infos
    induction infos with
    | nil => exact fun m _ => ⟨m, rfl⟩
    | cons info infos ih =>
      intro m h
      rw [List.foldlM_cons]
      have hknown := h info List.mem_cons_self
      unfold addAccountInfo
      cases hs : info.accessStructure with
      | unknown => rw [hs] at hknown; cases hknown
      | known s => exact ih _ fun i hi => h i (List.mem_cons_of_mem _ hi)
  exact go infos .new h

theorem parseKeyUpdates_ok (lastFinal : Nat) {updates : List AccountAddress}
    (h : ∀ a ∈ updates, ∃ info, chain.accountInfo height.toNat a = some info ∧
      info.accessStructure.isKnown = true) :
    ∃ bindings, parseKeyUpdates (chain.node lastFinal) updates height = .ok bindings := by
  have hasked : ∀ a info, chain.accountInfo height.toNat a = some info →
      (chain.node lastFinal).getKeyUpdateInfo a height = .ok info := by
    intro a info hinfo
    unfold Chain.node
    dsimp only
    rw [hinfo]
  obtain ⟨infos, hinfos⟩ := mapM_ok (f := fun a => (chain.node lastFinal).getKeyUpdateInfo a height)
    fun a ha => (h a ha).imp fun info hinfo => hasked a info hinfo.1
  have hknown : ∀ info ∈ infos, info.accessStructure.isKnown = true := by
    intro info hinfo
    obtain ⟨a, ha, hok⟩ := (mapM_ok_mem hinfos).1 info hinfo
    obtain ⟨i, hi, hknown⟩ := h a ha
    rw [hasked a i hi] at hok
    rw [← Except.ok.inj hok]
    exact hknown
  obtain ⟨bindings, hb⟩ := accountInfoToBindings_ok hknown
  refine ⟨bindings, ?_⟩
  unfold parseKeyUpdates
  rw [hinfos]
  simp only [bind, Except.bind]
  have hcompleted : (chain.node lastFinal).completed infos = infos := rfl
  rw [hcompleted, hb]
  rfl

/-- A node that answers everything gets a served block collected, whatever is in the cache. -/
theorem onFinalizedBlock_yields (lastFinal : Nat) (h : chain.Served height.toNat) :
    Yields (CanonicalAddressCache.Canonical chain)
      (onFinalizedBlock (chain.node lastFinal) height) fun _ => True := by
  have hheight : (chain.blockInfo height.toNat).blockHeight = height := by
    rw [chain.blockHeight]
    exact UInt64.ofNat_toNat
  unfold onFinalizedBlock
  refine Yields.bind (R := fun bi => bi = chain.blockInfo height.toNat) (Yields.ofExcept rfl rfl) ?_
  rintro bi rfl
  rw [hheight]
  refine Yields.bind (R := fun l => l = chain.transactionEvents height.toNat) ?_ ?_
  · unfold transactionSummaries
    split
    · next hcount => exact Yields.pure (chain.noEvents _ hcount).symm
    · exact Yields.ofExcept rfl rfl
  rintro l rfl
  refine Yields.bind (R := fun l => l = chain.specialEvents height.toNat) (Yields.ofExcept rfl rfl) ?_
  rintro l rfl
  obtain ⟨specials, hspecials⟩ := mapM_ok (l := chain.specialEvents height.toNat)
    (f := fun u => u.knownOrElse (NodeError.networkError "Unknown SpecialTransactionOutcome type"))
    fun u hu => by
      have hknown := h.specialEvents u hu
      cases u with
      | known so => exact ⟨so, rfl⟩
      | unknown => cases hknown
  refine Yields.bind (R := fun _ => True) (Yields.ofExcept hspecials trivial) fun _ _ => ?_
  refine Yields.bind (R := fun c : Collected =>
    ∀ a, a ∈ c.keyUpdateAddresses ↔ a ∈ keyUpdates (chain.transactionEvents height.toNat)) ?_ ?_
  · refine Yields.foldlM _ _ (fun done (c : Collected) => ∀ a, a ∈ c.keyUpdateAddresses ↔ a ∈ keyUpdates done)
      (fun a => Iff.rfl) fun done s rest acc hl hacc => ?_
    obtain ⟨affected, hs, hinfo⟩ := h.addresses s (by rw [hl]; simp)
    intro cache hcache
    obtain ⟨hI, c, hc, addresses, rfl⟩ := collectSummary_yields lastFinal acc hs hinfo cache hcache
    exact ⟨hI, _, hc, mem_keyUpdateAddresses_push hacc⟩
  · intro c hc
    obtain ⟨bindings, hb⟩ := parseKeyUpdates_ok lastFinal fun a ha => h.keys a ((hc a).mp ha)
    exact Yields.bind (R := fun _ => True) (Yields.ofExcept hb trivial) fun _ _ => Yields.pure trivial

end

/-! ## The tables -/

/-- The first `N` blocks can be collected, and inserted one after the other. -/
structure Chain.Indexable (chain : Chain) (N : Nat) : Prop where
  served : ∀ n < N, chain.Served n
  known : ∀ n < N, (chain.blockData n).known = true
  inRange : supplyFits [] ((List.range N).flatMap fun n => (chain.blockData n).supplyEvents) = true

section
variable {J : Type} [SdkJson J] {chain : Chain}

/-- The contents are those of blocks 0 … k-1. -/
theorem Records.contents_eq {k : Nat} {db : Tables J} (h : Records chain k db) :
    db.contents = chain.contents J (List.range k) := by
  have go : ∀ (blocks : List TransactionLogData) (m : Nat) (c : Contents J),
      DataFrom chain.BlockData m blocks →
      c.records blocks = c.records ((List.range' m blocks.length).map chain.blockData) := by
    intro blocks
    induction blocks with
    | nil => exact fun m c _ => rfl
    | cons d blocks ih =>
      intro m c ⟨hd, _, hrest⟩
      have := ih (m + 1) (c.record d) hrest
      rw [hd.record] at this
      rw [List.length_cons, List.range'_succ]
      show (c.record d).records blocks = _
      rw [hd.record, this]
      rfl
  obtain ⟨blocks, clean, rfl, hblocks, hindexed, hcontents⟩ := h
  rw [hcontents, hindexed.contents, go blocks 0 .empty hblocks, ← List.range_eq_range']
  rfl

/-- The totals are those of the mints and burns in blocks 0 … k-1. -/
theorem Records.supplies_eq {k : Nat} {db : Tables J} (h : Records chain k db) :
    db.supplies =
      supplyRun [] ((List.range k).flatMap fun n => (chain.blockData n).supplyEvents) := by
  show db.contents.cis2Tokens = _
  rw [h.contents_eq, Chain.contents, Contents.cis2Tokens_records, List.flatMap_map]
  rfl

theorem Chain.Indexable.fits {N k : Nat} (h : chain.Indexable N) (hk : k < N) :
    supplyFits (supplyRun [] ((List.range k).flatMap fun n => (chain.blockData n).supplyEvents))
      (chain.blockData k).supplyEvents = true := by
  have hrange := h.inRange
  obtain ⟨m, rfl⟩ := Nat.exists_eq_add_of_lt hk
  rw [show k + m + 1 = (k + 1) + m by omega, List.range_add, List.flatMap_append, supplyFits_append,
    Bool.and_eq_true, List.range_succ, List.flatMap_append, supplyFits_append, Bool.and_eq_true,
    List.flatMap_singleton] at hrange
  exact hrange.1.2

/-- On a healthy connection, a block up to the first that is not recorded commits. -/
theorem Chain.Indexable.commits {N k n : Nat} (h : chain.Indexable N) {db : Tables J}
    (hrecords : Records chain k db) (hn : n < N) (hnk : n ≤ k) (hrows : chain.NoRows n k)
    {d : TransactionLogData} (hdata : chain.BlockData n d) :
    ∃ db', insertIntoDb none db d = (.ok (), db') := by
  have hknown : d.known = true := by
    have := h.known n hn
    rw [← hdata.eq_blockData] at this
    exact this
  have hevents : d.supplyEvents = (chain.blockData n).supplyEvents := by
    rw [← hdata.eq_blockData]
    rfl
  apply insertIntoDb_healthy hknown
  rcases Nat.lt_or_eq_of_le hnk with hlt | rfl
  · -- it has no rows, so no mints and burns either
    have hnone := hrows n (Nat.le_refl n) hlt
    rw [← hdata.hasRows] at hnone
    unfold TransactionLogData.hasRows at hnone
    unfold TransactionLogData.supplyEvents
    have hnone : d.itemSummaries = [] ∧ d.specialEvents = [] := by simpa using hnone
    rw [hnone.1]
    rfl
  · rw [hrecords.supplies_eq, hevents]
    exact h.fits hn

end

end WalletProxyIndexer
