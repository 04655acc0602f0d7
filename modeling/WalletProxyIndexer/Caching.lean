import WalletProxyIndexer.Indexer

/-!
# What is asked of the nodes

`CanonicalAddressCache` is there so that the canonical address of an account is asked for
once.  `Node.refusing` is a node that refuses that question for some addresses.

    onFinalizedBlock_refusing    a block is collected the same from a node that refuses the
                                 addresses whose accounts are in the cache
    onFinalizedBlock_covers      once a block is collected, the accounts it affects are in the cache
    accounts_asked_once          so no process asks for them again, whichever nodes it turns to

An account never leaves the cache (`hits_insert`), and the cache is only filled from
`get_account_list` when there is nothing in it.  Key updates ask for their accounts anew,
with a query of their own.
-/

namespace WalletProxyIndexer

open Transition Stateful

/-! ## Hits -/

namespace CanonicalAddressCache
variable {c : CanonicalAddressCache} {a b : AccountAddress}

/-- The account of the address is in the cache. -/
def hits (c : CanonicalAddressCache) (a : AccountAddress) : Bool := (c.get a).isSome

theorem hits_iff : c.hits a = true ↔ ∃ b ∈ c.addresses, b.sameAccount a = true := by
  unfold hits get
  rw [List.find?_isSome]

theorem hits_congr (hab : a.sameAccount b = true) (h : c.hits a = true) : c.hits b = true := by
  obtain ⟨x, hx, hsame⟩ := hits_iff.mp h
  exact hits_iff.mpr ⟨x, hx, AccountAddress.sameAccount_trans hsame hab⟩

theorem hits_insert (h : c.hits a = true) : (c.insert b).hits a = true := by
  obtain ⟨x, hx, hsame⟩ := hits_iff.mp h
  refine hits_iff.mpr ⟨x, ?_, hsame⟩
  unfold insert
  split
  · exact hx
  · exact List.mem_append_left _ hx

theorem hits_insert_self : (c.insert a).hits a = true := by
  unfold insert
  split
  · next h => exact h
  · exact hits_iff.mpr ⟨a, List.mem_append_right _ (List.mem_singleton_self a), a.sameAccount_self⟩

/-- The accounts of all these addresses are in the cache. -/
def Covers (c : CanonicalAddressCache) (l : List AccountAddress) : Prop := ∀ a ∈ l, c.hits a = true

theorem Covers.insert {l : List AccountAddress} (h : c.Covers l) (b : AccountAddress) :
    (c.insert b).Covers l :=
  fun a ha => hits_insert (h a ha)

theorem covers_append {l l' : List AccountAddress} :
    c.Covers (l ++ l') ↔ c.Covers l ∧ c.Covers l' := by
  simp only [Covers, List.mem_append, or_imp, forall_and]

theorem covers_singleton : c.Covers [a] ↔ c.hits a = true := by
  simp only [Covers, List.mem_singleton, forall_eq]

end CanonicalAddressCache

/-! ## What a call of a hook keeps -/

section
variable {I : CanonicalAddressCache → Prop} (hinsert : ∀ c a, I c → I (c.insert a)) (node : Node)
  (height : AbsoluteBlockHeight)

include hinsert

theorem resolveAddress_inserts (addresses : List AccountAddress) (address : AccountAddress) :
    Keeps I (resolveAddress node height addresses address) fun _ => True := by
  unfold resolveAddress
  refine Keeps.bind Keeps.read fun cache _ => ?_
  split
  · exact Keeps.pure trivial
  · refine Keeps.bind (R := fun _ => True) (Keeps.ofExcept fun _ _ => trivial) fun info _ => ?_
    dsimp only
    split
    · exact Keeps.pure trivial
    · exact Keeps.bind (Keeps.modify fun c hc => hinsert c _ hc) fun _ _ => Keeps.pure trivial

theorem collectSummary_inserts (acc : Collected) (s : BlockItemSummary) :
    Keeps I (collectSummary node height acc s) fun _ => True := by
  unfold collectSummary
  refine Keeps.bind (R := fun _ => True) (Keeps.ofExcept fun _ _ => trivial) fun affected _ => ?_
  refine Keeps.bind (R := fun _ => True) ?_ fun _ _ => Keeps.pure trivial
  exact Keeps.foldlM affected _ (fun _ _ => True) trivial fun _ a _ l _ _ =>
    resolveAddress_inserts hinsert node height l a

/-- Collecting a block only inserts into the cache. -/
theorem onFinalizedBlock_inserts : Keeps I (onFinalizedBlock node height) fun _ => True := by
  have hany : ∀ {α : Type} (x : Except NodeError α), Keeps I (Prog.ofExcept x) fun _ => True :=
    fun x => Keeps.ofExcept fun _ _ => trivial
  unfold onFinalizedBlock
  refine Keeps.bind (hany _) fun binfo _ => ?_
  refine Keeps.bind (R := fun _ => True) ?_ fun summaries _ => ?_
  · unfold transactionSummaries
    split
    · exact Keeps.pure trivial
    · exact hany _
  refine Keeps.bind (hany _) fun _ _ => Keeps.bind (hany _) fun specials _ => ?_
  refine Keeps.bind (R := fun _ => True) ?_ fun _ _ => Keeps.bind (hany _) fun _ _ => Keeps.pure trivial
  exact Keeps.foldlM summaries _ (fun _ _ => True) trivial fun _ s _ acc _ _ =>
    collectSummary_inserts hinsert node binfo.blockHeight acc s

end

/-- A node that is used leaves an account in the cache where it is. -/
theorem onUseNode_hits (client : Node) (a : AccountAddress) :
    Keeps (fun c => c.hits a = true) (onUseNode client) fun _ => True := by
  unfold onUseNode
  refine Keeps.bind Keeps.read fun cache hcache => ?_
  split
  · next hempty =>
    obtain ⟨b, hb, -⟩ := CanonicalAddressCache.hits_iff.mp hcache
    have hnone : cache.addresses = [] := List.isEmpty_iff.mp hempty
    rw [hnone] at hb
    cases hb
  · exact Keeps.pure trivial

/-! ## Refusing nodes -/

/-- The node refuses to tell the canonical address of the accounts that are known. -/
def Node.refusing (node : Node) (known : AccountAddress → Bool) : Node :=
  { node with getAccountInfo := fun a height =>
      if known a then .error .queryError else node.getAccountInfo a height }

section
variable {known : AccountAddress → Bool}

/-- Every account that is known is in the cache. -/
def Remembers (known : AccountAddress → Bool) (c : CanonicalAddressCache) : Prop :=
  ∀ a, known a = true → c.hits a = true

theorem Remembers.insert {c : CanonicalAddressCache} (h : Remembers known c) (a : AccountAddress) :
    Remembers known (c.insert a) :=
  fun b hb => CanonicalAddressCache.hits_insert (h b hb)

theorem resolveAddress_refusing (node : Node) (height : AbsoluteBlockHeight)
    (addresses : List AccountAddress) (address : AccountAddress) :
    Same (Remembers known) (resolveAddress node height addresses address)
      (resolveAddress (node.refusing known) height addresses address) := by
  unfold resolveAddress
  refine Same.read fun cache hcache => ?_
  cases hget : cache.get address with
  | some addr => exact Same.of_keeps (Keeps.pure trivial)
  | none =>
    have hunknown : known address = false := by
      rw [← Bool.not_eq_true]
      intro hknown
      have hhit := hcache address hknown
      unfold CanonicalAddressCache.hits at hhit
      rw [hget] at hhit
      cases hhit
    have hasked : (node.refusing known).getAccountInfo address height =
        node.getAccountInfo address height := by
      unfold Node.refusing
      dsimp only
      rw [hunknown]
      rfl
    dsimp only
    rw [hasked]
    refine Same.of_keeps (Keeps.bind (R := fun _ => True) (Keeps.ofExcept fun _ _ => trivial)
      fun info _ => ?_)
    split
    · exact Keeps.pure trivial
    · exact Keeps.bind (Keeps.modify fun c hc => hc.insert _) fun _ _ => Keeps.pure trivial

/-- Collecting a block from a node that refuses what is in the cache is the same. -/
theorem onFinalizedBlock_refusing (node : Node) (height : AbsoluteBlockHeight) :
    Same (Remembers known) (onFinalizedBlock node height)
      (onFinalizedBlock (node.refusing known) height) := by
  have hany : ∀ {α : Type} (x : Except NodeError α),
      Same (Remembers known) (Prog.ofExcept x) (Prog.ofExcept x) :=
    fun x => Same.of_keeps (Keeps.ofExcept fun _ _ => trivial)
  unfold onFinalizedBlock
  refine Same.bind (hany _) fun binfo => ?_
  refine Same.bind ?_ fun summaries => ?_
  · unfold transactionSummaries
    split
    · exact Same.of_keeps (Keeps.pure trivial)
    · exact hany _
  refine Same.bind (hany _) fun _ => Same.bind (hany _) fun specials => ?_
  refine Same.bind (Same.foldlM summaries (fun acc s => ?_) _) fun collected => ?_
  · unfold collectSummary
    refine Same.bind (hany _) fun affected => ?_
    refine Same.bind (Same.foldlM affected (fun l a => ?_) _) fun l => ?_
    · exact resolveAddress_refusing node binfo.blockHeight l a
    · exact Same.of_keeps (Keeps.pure trivial)
  · exact Same.bind (hany _) fun _ => Same.of_keeps (Keeps.pure trivial)

end

/-! ## Coverage -/

def BlockItemSummary.affected (s : BlockItemSummary) : List AccountAddress :=
  match s.affectedAddresses with
  | .known affected => affected
  | .unknown => []

/-- The addresses that the items of a block affect, as the items name them. -/
def affectedBy (summaries : List BlockItemSummaryWithCanonicalAddresses) : List AccountAddress :=
  summaries.flatMap fun ts => ts.summary.affected

section
variable {chain : Chain} {node : Node}

/-- An address is in the cache once it is resolved, and so is what is listed for it. -/
theorem resolveAddress_covers (hnode : node.Follows chain) (height : AbsoluteBlockHeight)
    (l addresses : List AccountAddress) (address : AccountAddress) :
    Leaves (fun c => c.Covers l ∧ c.Covers addresses) (resolveAddress node height addresses address)
      fun addresses' c => c.Covers (l ++ [address]) ∧ c.Covers addresses' := by
  unfold resolveAddress
  refine Leaves.bind Leaves.read fun cache => ?_
  cases hget : cache.get address with
  | some addr =>
    refine Leaves.pure ?_
    rintro c ⟨rfl, hl, haddresses⟩
    have hmem : addr ∈ c.addresses := List.mem_of_find?_eq_some hget
    have haddr : c.hits addr = true :=
      CanonicalAddressCache.hits_iff.mpr ⟨addr, hmem, addr.sameAccount_self⟩
    have haddress : c.hits address = true := by
      unfold CanonicalAddressCache.hits
      rw [hget]
      rfl
    refine ⟨CanonicalAddressCache.covers_append.mpr
      ⟨hl, CanonicalAddressCache.covers_singleton.mpr haddress⟩, ?_⟩
    split
    · exact haddresses
    · exact CanonicalAddressCache.covers_append.mpr
        ⟨haddresses, CanonicalAddressCache.covers_singleton.mpr haddr⟩
  | none =>
    refine Leaves.bind (T := fun info c => (c.Covers l ∧ c.Covers addresses) ∧
      info.accountAddress.sameAccount address = true) (Leaves.ofExcept ?_) fun info => ?_
    · rintro c info ⟨rfl, hc⟩ hok
      have hinfo := hnode.accountInfo _ _ _ (mapError_eq_ok hok)
      exact ⟨hc, (chain.accountInfo_spec hinfo).2.1⟩
    · dsimp only
      split
      · next hlisted =>
        refine Leaves.pure ?_
        rintro c ⟨⟨hl, haddresses⟩, hsame⟩
        refine ⟨CanonicalAddressCache.covers_append.mpr ⟨hl, ?_⟩, haddresses⟩
        exact CanonicalAddressCache.covers_singleton.mpr
          (CanonicalAddressCache.hits_congr hsame (haddresses _ hlisted))
      · refine Leaves.bind (Leaves.modify (Q := fun c => c.Covers (l ++ [address]) ∧
          c.Covers (addresses ++ [info.accountAddress])) ?_) fun _ => Leaves.pure fun c hc => hc
        rintro c ⟨⟨hl, haddresses⟩, hsame⟩
        have hself : (c.insert info.accountAddress).hits info.accountAddress = true :=
          CanonicalAddressCache.hits_insert_self
        exact ⟨CanonicalAddressCache.covers_append.mpr ⟨hl.insert _,
            CanonicalAddressCache.covers_singleton.mpr (CanonicalAddressCache.hits_congr hsame hself)⟩,
          CanonicalAddressCache.covers_append.mpr ⟨haddresses.insert _,
            CanonicalAddressCache.covers_singleton.mpr hself⟩⟩

theorem collectSummary_covers (hnode : node.Follows chain) (height : AbsoluteBlockHeight)
    (acc : Collected) (s : BlockItemSummary) :
    Leaves (fun c => c.Covers (affectedBy acc.withAddresses)) (collectSummary node height acc s)
      fun acc' c => c.Covers (affectedBy acc'.withAddresses) := by
  unfold collectSummary
  refine Leaves.bind (T := fun affected c => c.Covers (affectedBy acc.withAddresses) ∧
    affected = s.affected) (Leaves.ofExcept ?_) fun affected => ?_
  · intro c affected hc hok
    refine ⟨hc, ?_⟩
    unfold BlockItemSummary.affected
    cases haff : s.affectedAddresses with
    | unknown => rw [haff] at hok; cases hok
    | known l =>
      rw [haff] at hok
      exact (Except.ok.inj hok).symm
  · refine Leaves.bind (T := fun l c => (c.Covers (affectedBy acc.withAddresses ++ affected) ∧
      c.Covers l) ∧ affected = s.affected) ?_ fun l => Leaves.pure ?_
    · refine Leaves.foldlM affected _ (fun done l (c : CanonicalAddressCache) =>
        (c.Covers (affectedBy acc.withAddresses ++ done) ∧ c.Covers l) ∧ affected = s.affected)
        (fun c hc => ?_) fun done a rest l _ => ?_
      · rw [List.append_nil]
        exact ⟨⟨hc.1, fun a ha => by cases ha⟩, hc.2⟩
      · rintro c l' ⟨hc, haff⟩ hl'
        rw [← List.append_assoc]
        exact ⟨resolveAddress_covers hnode height _ l a c l' hc hl', haff⟩
    · rintro c ⟨⟨hc, -⟩, rfl⟩
      unfold Collected.push affectedBy
      rw [List.flatMap_append, List.flatMap_singleton]
      exact hc

/-- Once a block is collected, the accounts it affects are in the cache. -/
theorem onFinalizedBlock_covers (hnode : node.Follows chain) (height : AbsoluteBlockHeight) :
    Leaves (fun _ => True) (onFinalizedBlock node height)
      fun d c => c.Covers (affectedBy d.itemSummaries) := by
  have hany : ∀ {P : CanonicalAddressCache → Prop} {α : Type} (x : Except NodeError α),
      Leaves P (Prog.ofExcept x) fun _ => P := fun x => Leaves.ofExcept fun _ _ hc _ => hc
  unfold onFinalizedBlock
  refine Leaves.bind (hany _) fun binfo => ?_
  refine Leaves.bind (T := fun _ _ => True) (fun _ _ _ _ => trivial) fun summaries => ?_
  refine Leaves.bind (hany _) fun _ => Leaves.bind (hany _) fun specials => ?_
  refine Leaves.bind (Leaves.foldlM summaries (collectSummary node binfo.blockHeight)
    (fun _ acc c => c.Covers (affectedBy acc.withAddresses)) (fun c _ a ha => by cases ha)
    fun done s rest acc _ => collectSummary_covers hnode binfo.blockHeight acc s) fun collected => ?_
  exact Leaves.bind (hany _) fun bindings => Leaves.pure fun c hc => hc

end

/-! ## The life of a process -/

section
variable {J : Type} [SdkJson J] {chain : Chain} {args : SharedIndexerArgs}
  {initial : Tables J → Prop}

/-- The accounts of the block that is about to be sent are in the cache. -/
def Process.Covered (p : Process TransactionLogData CanonicalAddressCache) : Prop :=
  ∀ r d blocks hasError stream, p.node = .loop r (.send d blocks hasError stream) →
    p.hooks.Covers (affectedBy d.itemSummaries)

theorem Process.covered_of_nodeStep {p p' : Process TransactionLogData CanonicalAddressCache}
    (hstep : NodeStep (indexer chain args initial) p p') : p'.Covered := by
  intro r d blocks hasError stream hsend
  cases hstep with
  | collected hn hblock =>
    obtain ⟨node, hnode, hrun⟩ := hblock
    cases hsend
    have hcovers := onFinalizedBlock_covers hnode _ p.hooks d trivial (by rw [hrun])
    rwa [hrun] at hcovers
  | moved hn hmove =>
    have hsend : NodeTask.loop _ _ = NodeTask.loop r (.send d blocks hasError stream) := hsend
    cases hsend
    cases hmove
  | _ => cases hsend

theorem covered_of_reachable {s : Service TransactionLogData (Tables J) CanonicalAddressCache}
    (hs : Reachable (indexer chain args initial).service s) :
    ∀ p, s.process = some p → p.Covered := by
  refine hs.invariant (I := fun s => ∀ p, s.process = some p → p.Covered) ?_ ?_
  · rintro s ⟨-, hnone⟩ p hp
    rw [hnone] at hp
    cases hp
  · rintro s l s' ih hstep p hp
    cases hstep with
    | start =>
      obtain rfl := Option.some.inj hp
      intro r d blocks hasError stream hsend
      cases hsend
    | crash => cases hp
    | @signal db p₀ =>
      obtain rfl := Option.some.inj hp
      exact ih p₀ rfl
    | @node db p₀ p' hnode =>
      obtain rfl := Option.some.inj hp
      exact Process.covered_of_nodeStep hnode
    | @database db db' p₀ p' l hd =>
      obtain rfl := Option.some.inj hp
      have hcovered := ih p₀ rfl
      cases hd <;> exact hcovered

/-- A step of a process, other than its end, keeps an account in the cache. -/
theorem hits_step {s s' : Service TransactionLogData (Tables J) CanonicalAddressCache}
    {l : Action TransactionLogData} {a : AccountAddress}
    (h : ∃ p, s.process = some p ∧ p.hooks.hits a = true)
    (hstep : ServiceStep (indexer chain args initial) s l s') (hcrash : l ≠ .crash) :
    ∃ p, s'.process = some p ∧ p.hooks.hits a = true := by
  obtain ⟨p, hp, hhits⟩ := h
  cases hstep with
  | start => cases hp
  | crash => exact absurd rfl hcrash
  | @signal db p₀ =>
    obtain rfl := Option.some.inj hp
    exact ⟨_, rfl, hhits⟩
  | @node db p₀ p' hnode =>
    obtain rfl := Option.some.inj hp
    refine ⟨_, rfl, ?_⟩
    have huse : ∀ r hooks, (indexer chain args initial).nodeHooks.onUseNode p₀.hooks r hooks →
        hooks.hits a = true := by
      rintro r hooks ⟨client, -, hrun⟩
      have hkept := (onUseNode_hits client a p₀.hooks hhits).1
      rwa [hrun] at hkept
    have hblock : ∀ h r hooks, (indexer chain args initial).nodeHooks.onFinalizedBlock p₀.hooks h r
        hooks →
        hooks.hits a = true := by
      rintro h r hooks ⟨node, -, hrun⟩
      have hkept := (onFinalizedBlock_inserts (I := fun c => c.hits a = true)
        (fun c b hc => CanonicalAddressCache.hits_insert hc) node h p₀.hooks hhits).1
      rwa [hrun] at hkept
    cases hnode with
    | nodeUsed _ hused => exact huse _ _ hused
    | nodeNotUsed _ hused => exact huse _ _ hused
    | collected _ hcollected => exact hblock _ _ _ hcollected
    | notCollected _ hcollected => exact hblock _ _ _ hcollected
    | _ => exact hhits
  | @database db db' p₀ p' l hd =>
    obtain rfl := Option.some.inj hp
    exact ⟨_, rfl, by rw [hd.hooks]; exact hhits⟩

/-- In every execution of the indexer: once a process has collected a block, it asks no node for
the canonical addresses of the accounts that the block affects again, under none of their
addresses, until it crashes or ends.  Whatever it collects later, and from whichever node, it
collects the same from one that would refuse these questions. -/
theorem accounts_asked_once (e : Execution (indexer chain args initial).service) {i j : Nat}
    (hij : i ≤ j) (halive : ∀ k, i ≤ k → k < j → e.label k ≠ some .crash)
    {p q : Process TransactionLogData CanonicalAddressCache} (hp : (e.state i).process = some p)
    (hq : (e.state j).process = some q) {r : Rotation} {d : TransactionLogData}
    {blocks : List AbsoluteBlockHeight} {hasError : Bool} {stream : AbsoluteBlockHeight}
    (hcollected : p.node = .loop r (.send d blocks hasError stream)) (node : Node)
    (height : AbsoluteBlockHeight) :
    onFinalizedBlock (node.refusing fun b => (affectedBy d.itemSummaries).any fun a => a.sameAccount b)
      height q.hooks = onFinalizedBlock node height q.hooks := by
  have hcovers := covered_of_reachable (e.reachable i) p hp r d blocks hasError stream hcollected
  -- the accounts stay in the cache
  have hkept : ∀ a ∈ affectedBy d.itemSummaries, q.hooks.hits a = true := by
    intro a ha
    have halong : ∃ q, (e.state j).process = some q ∧ q.hooks.hits a = true := by
      clear hq
      induction j, hij using Nat.le_induction with
      | base => exact ⟨p, hp, hcovers a ha⟩
      | succ j hij ih =>
        have hbefore := ih fun k hk hkj => halive k hk (Nat.lt_succ_of_lt hkj)
        rcases e.next _ j with heq | ⟨l, hl, hstep⟩
        · rw [heq]
          exact hbefore
        · refine hits_step hbefore hstep fun hc => ?_
          exact halive j hij (Nat.lt_succ_self j) (by rw [hl, hc])
    obtain ⟨q', hq', hhits⟩ := halong
    rw [hq] at hq'
    obtain rfl := Option.some.inj hq'
    exact hhits
  refine ((onFinalizedBlock_refusing node height) q.hooks fun b hb => ?_).1.symm
  obtain ⟨a, ha, hsame⟩ := List.any_eq_true.mp hb
  exact CanonicalAddressCache.hits_congr hsame (hkept a ha)

end

/-- A process on `aliasChain` that has collected block 1. -/
theorem alias_asked_once : ∃ (e : Execution
    (indexer (J := PlainJson) aliasChain oneNode fun db => db.contents = .empty).service)
    (i : Nat) (q : Process TransactionLogData CanonicalAddressCache) (d : TransactionLogData),
    (e.state (i + 1)).process = some q ∧ aliasAddress ∈ affectedBy d.itemSummaries ∧
    onFinalizedBlock ((aliasChain.node 0).refusing fun b =>
      (affectedBy d.itemSummaries).any fun a => a.sameAccount b) 2 q.hooks =
        onFinalizedBlock (aliasChain.node 0) 2 q.hooks := by
  let setup := indexer (J := PlainJson) aliasChain oneNode fun db => db.contents = .empty
  have hinitial : setup.initial .empty := rfl
  have hnode := aliasChain.node_follows 0
  obtain ⟨db, q, r, d, blocks, hasError, stream, hreach, hsend, haffected⟩ :
      ∃ db q r d blocks hasError stream, Reachable setup.service ⟨db, some q⟩ ∧
        q.node = .loop r (.send d blocks hasError stream) ∧
        aliasAddress ∈ affectedBy d.itemSummaries := by
    have hmid := setup.reachable_midChunk (h := 0) hinitial rfl (by decide) (Nat.le_refl 2)
      ⟨_, hnode, rfl⟩ ⟨_, hnode, rfl⟩
    exact ⟨_, _, _, _, _, _, _, reachable_step hmid (.node (.collected rfl ⟨_, hnode, rfl⟩)), rfl,
      by decide⟩
  obtain ⟨e, i, he⟩ := hreach.exists_execution
  have halive : ∀ k, i ≤ k → k < i + 1 → e.label k ≠ some .crash := by
    intro k hk _
    rw [(he k hk).2]
    exact nofun
  have hp : (e.state i).process = some q := by rw [(he i (Nat.le_refl i)).1]
  have hq : (e.state (i + 1)).process = some q := by rw [(he _ (Nat.le_succ i)).1]
  exact ⟨e, i, q, d, hq, haffected,
    accounts_asked_once e (Nat.le_succ i) halive hp hq hsend (aliasChain.node 0) 2⟩

end WalletProxyIndexer
