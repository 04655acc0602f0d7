import WalletProxyIndexer.Chain
import WalletProxyIndexer.Lib.Stateful

/-!
# Collecting a block from a node

`CanonicalAddressCache` and its two hooks, `on_use_node` and `on_finalized_block`.  A
hook is a program over the cache that may fail at any query, and keeps what it has
cached so far when it does.

The cache is a set under the equality of the first 29 bytes (`distinct`).  As long as
it holds only canonical addresses (`CanonicalAddressCache.Canonical`), a hit and a
query give the same address, so the addresses resolved for a transaction are

    firstOccurrences (affected.map chain.canonical)

whatever is in the cache (`onFinalizedBlock_spec`, `resolution_agrees`).
-/

namespace WalletProxyIndexer

open Stateful

structure CanonicalAddressCache where
  addresses : List AccountAddress
  distinct : addresses.Pairwise fun a b => a.sameAccount b = false

namespace CanonicalAddressCache

def empty : CanonicalAddressCache := ⟨[], .nil⟩

def isEmpty (c : CanonicalAddressCache) : Bool := c.addresses.isEmpty

def get (c : CanonicalAddressCache) (a : AccountAddress) : Option AccountAddress :=
  c.addresses.find? fun b => b.sameAccount a

/-- An address of an account already there is not inserted. -/
def insert (c : CanonicalAddressCache) (a : AccountAddress) : CanonicalAddressCache :=
  if h : (c.get a).isSome then c
  else {
    addresses := c.addresses ++ [a]
    distinct := by
      refine List.pairwise_append.mpr ⟨c.distinct, List.pairwise_singleton _ _, ?_⟩
      intro b hb a' ha'
      obtain rfl := List.mem_singleton.mp ha'
      have hnone : c.get a' = none := by simpa using h
      simpa using List.find?_eq_none.mp hnone b hb }

def ofList (l : List AccountAddress) : CanonicalAddressCache := l.foldl insert empty

/-- Every address in the cache is the canonical one of its account. -/
def Canonical (chain : Chain) (c : CanonicalAddressCache) : Prop :=
  ∀ a ∈ c.addresses, chain.IsCanonical a

theorem canonical_empty (chain : Chain) : empty.Canonical chain := fun a ha => by cases ha

theorem Canonical.insert {chain : Chain} {c : CanonicalAddressCache} (h : c.Canonical chain)
    {a : AccountAddress} (ha : chain.IsCanonical a) : (c.insert a).Canonical chain := by
  intro b hb
  unfold CanonicalAddressCache.insert at hb
  split at hb
  · exact h b hb
  · rcases List.mem_append.mp hb with hb | hb
    · exact h b hb
    · rw [List.mem_singleton.mp hb]; exact ha

theorem canonical_ofList {chain : Chain} {l : List AccountAddress}
    (h : ∀ a ∈ l, chain.IsCanonical a) : (ofList l).Canonical chain := by
  have go : ∀ (l : List AccountAddress) (c : CanonicalAddressCache), c.Canonical chain →
      (∀ a ∈ l, chain.IsCanonical a) → (l.foldl CanonicalAddressCache.insert c).Canonical chain := by
    intro l
    induction l with
    | nil => intro c hc _; exact hc
    | cons a l ih =>
      intro c hc hl
      exact ih _ (hc.insert (hl a List.mem_cons_self)) fun b hb => hl b (List.mem_cons_of_mem _ hb)
  exact go l empty (canonical_empty chain) h

/-- A hit is the canonical address. -/
theorem Canonical.get {chain : Chain} {c : CanonicalAddressCache} (h : c.Canonical chain)
    {a b : AccountAddress} (hget : c.get a = some b) :
    chain.IsCanonical b ∧ b.sameAccount a = true :=
  have hsame := List.find?_some hget
  ⟨h b (List.mem_of_find?_eq_some hget), hsame⟩

end CanonicalAddressCache

abbrev Hook := Prog CanonicalAddressCache NodeError

/-! ## Key updates -/

def keyUpdateAccount (bi : BlockItemSummary) : Option AccountAddress :=
  match bi.details with
  | .known details =>
    match details with
    | .accountCreation address => some address
    | .accountTransaction sender effects =>
      match effects with
      | .known .credentialKeysUpdated => some sender
      | .known .credentialsUpdated => some sender
      | _ => none
    | _ => none
  | _ => none

structure UnknownDataError where

/-- `entry(address).or_insert(bindings)` -/
def AccountPublicKeyBindings.orInsert (m : AccountPublicKeyBindings) (address : AccountAddress)
    (bindings : List PublicKeyBindingInfo) : AccountPublicKeyBindings :=
  if h : address ∈ m.entries.map Prod.fst then m
  else {
    entries := m.entries ++ [(address, bindings)]
    distinct := by
      rw [List.map_append, List.nodup_append]
      refine ⟨m.distinct, by simp, ?_⟩
      intro a ha b hb hab
      obtain rfl : b = address := by simpa using hb
      exact h (hab ▸ ha) }

def accountBindings (accessStructure : AccountAccessStructure) : List PublicKeyBindingInfo :=
  let isSimpleAccount := accessStructure.numKeys == 1
  accessStructure.keys.flatMap fun (credentialIndex, credentialsKeys) =>
    credentialsKeys.keys.map fun (keyIndex, key) =>
      ⟨key.serial, credentialIndex, keyIndex, isSimpleAccount⟩

def accountInfoToBindings (infos : List AccountInfo) :
    Except UnknownDataError AccountPublicKeyBindings :=
  infos.foldlM (fun res info => do
    let accessStructure ← info.accessStructure.knownOrElse UnknownDataError.mk
    pure (res.orInsert info.accountAddress (accountBindings accessStructure))) .new

def parseKeyUpdates (node : Node) (addressesWithKeyUpdate : List AccountAddress)
    (height : AbsoluteBlockHeight) : Except NodeError AccountPublicKeyBindings := do
  let accountInfos ← addressesWithKeyUpdate.mapM fun address => node.getKeyUpdateInfo address height
  match accountInfoToBindings (node.completed accountInfos) with
  | .ok bindings => pure bindings
  | .error _ => .error (.networkError "Error parsing account info to get public key bindings")

/-! ## The hooks -/

def onUseNode (client : Node) : Hook Unit := do
  let cache ← Prog.read
  if cache.isEmpty then
    let accounts ← Prog.ofExcept (client.getAccountList.mapError fun _ =>
      NodeError.otherError "Error querying account list.")
    Prog.modify fun _ => .ofList accounts

/-- One affected address of a transaction.  The set of addresses seen holds the addresses
listed. -/
def resolveAddress (node : Node) (height : AbsoluteBlockHeight) (addresses : List AccountAddress)
    (address : AccountAddress) : Hook (List AccountAddress) := do
  match (← Prog.read).get address with
  | some addr => pure (if addr ∈ addresses then addresses else addresses ++ [addr])
  | none =>
    let ainfo ← Prog.ofExcept ((node.getAccountInfo address height).mapError fun _ =>
      NodeError.otherError "Error querying account info.")
    let addr := ainfo.accountAddress
    if addr ∈ addresses then pure addresses
    else
      Prog.modify fun cache => cache.insert addr
      pure (addresses ++ [addr])

/-- The summaries with their addresses, and the set of accounts with a key update. -/
structure Collected where
  withAddresses : List BlockItemSummaryWithCanonicalAddresses
  keyUpdateAddresses : List AccountAddress

def Collected.push (acc : Collected) (summary : BlockItemSummary) (addresses : List AccountAddress) :
    Collected where
  withAddresses := acc.withAddresses ++ [⟨summary, addresses⟩]
  keyUpdateAddresses := match keyUpdateAccount summary with
    | some address =>
      if address ∈ acc.keyUpdateAddresses then acc.keyUpdateAddresses
      else acc.keyUpdateAddresses ++ [address]
    | none => acc.keyUpdateAddresses

def collectSummary (node : Node) (height : AbsoluteBlockHeight) (acc : Collected)
    (summary : BlockItemSummary) : Hook Collected := do
  let affectedAddresses ← Prog.ofExcept (summary.affectedAddresses.knownOrElse
    (.networkError "Could not determine affected addresses for BlockItem"))
  let addresses ← affectedAddresses.foldlM (resolveAddress node height) []
  pure (acc.push summary addresses)

def transactionSummaries (node : Node) (height : AbsoluteBlockHeight) (binfo : BlockInfo) :
    Hook (List BlockItemSummary) :=
  if binfo.transactionCount = 0 then pure []
  else Prog.ofExcept (node.getBlockTransactionEvents height)

def onFinalizedBlock (node : Node) (height : AbsoluteBlockHeight) : Hook TransactionLogData := do
  let binfo ← Prog.ofExcept (node.getBlockInfo height)
  let transactionSummaries ← transactionSummaries node height binfo
  let specialEvents ← Prog.ofExcept (node.getBlockSpecialEvents height)
  let specialEvents ← Prog.ofExcept (specialEvents.mapM fun upward =>
    upward.knownOrElse (.networkError "Unknown SpecialTransactionOutcome type"))
  let collected ← transactionSummaries.foldlM (collectSummary node binfo.blockHeight) ⟨[], []⟩
  let bindings ← Prog.ofExcept (parseKeyUpdates node collected.keyUpdateAddresses binfo.blockHeight)
  pure ⟨binfo, collected.withAddresses, specialEvents, bindings⟩

/-! ## Resolution -/

/-- The first occurrence of each address, in order. -/
def firstOccurrences (l : List AccountAddress) : List AccountAddress :=
  l.foldl (fun acc a => if a ∈ acc then acc else acc ++ [a]) []

theorem firstOccurrences_concat (l : List AccountAddress) (a : AccountAddress) :
    firstOccurrences (l ++ [a]) =
      if a ∈ firstOccurrences l then firstOccurrences l else firstOccurrences l ++ [a] := by
  unfold firstOccurrences
  rw [List.foldl_append]
  rfl

theorem mem_firstOccurrences {l : List AccountAddress} {a : AccountAddress} :
    a ∈ firstOccurrences l ↔ a ∈ l := by
  induction l using List.reverseRecOn with
  | nil => rfl
  | append_singleton l b ih =>
    rw [firstOccurrences_concat]
    split
    · next hb =>
      rw [ih, List.mem_append, List.mem_singleton]
      constructor
      · exact Or.inl
      · rintro (h | rfl)
        · exact h
        · exact ih.mp hb
    · rw [List.mem_append, List.mem_append, ih]

theorem nodup_firstOccurrences (l : List AccountAddress) : (firstOccurrences l).Nodup := by
  induction l using List.reverseRecOn with
  | nil => exact .nil
  | append_singleton l b ih =>
    rw [firstOccurrences_concat]
    split
    · exact ih
    · next hb =>
      refine List.nodup_append.mpr ⟨ih, by simp, ?_⟩
      intro a ha c hc hac
      rw [List.mem_singleton.mp hc] at hac
      exact hb (hac ▸ ha)

/-- The address belongs to an account of the chain. -/
def Chain.HasAccount (chain : Chain) (a : AccountAddress) : Prop :=
  ∃ c, chain.IsCanonical c ∧ c.sameAccount a = true

/-- A summary with the canonical addresses of its affected accounts. -/
noncomputable def Chain.resolve (chain : Chain) (s : BlockItemSummary) :
    BlockItemSummaryWithCanonicalAddresses where
  summary := s
  addresses := match s.affectedAddresses with
    | .known affected => firstOccurrences (affected.map chain.canonical)
    | .unknown => []

/-- The affected addresses are known, and belong to accounts. -/
def Chain.Resolvable (chain : Chain) (s : BlockItemSummary) : Prop :=
  ∃ affected, s.affectedAddresses = .known affected ∧ ∀ a ∈ affected, chain.HasAccount a

section
variable {chain : Chain} {node : Node}

theorem mapError_eq_ok {ε ε' α : Type} {x : Except ε α} {f : ε → ε'} {a : α}
    (h : x.mapError f = .ok a) : x = .ok a := by
  cases x with
  | ok b => simpa [Except.mapError] using h
  | error e => cases h

/-- A hit in the cache and a query of the node give the same address. -/
theorem resolveAddress_keeps (hnode : node.Follows chain) (height : AbsoluteBlockHeight)
    (done : List AccountAddress) (address : AccountAddress) :
    Keeps (CanonicalAddressCache.Canonical chain)
      (resolveAddress node height (firstOccurrences (done.map chain.canonical)) address)
      (fun r => r = firstOccurrences ((done ++ [address]).map chain.canonical) ∧
        chain.HasAccount address) := by
  rw [List.map_append, List.map_singleton, firstOccurrences_concat]
  refine Keeps.bind Keeps.read fun cache hcache => ?_
  cases hget : cache.get address with
  | some addr =>
    obtain ⟨hcan, hsame⟩ := hcache.get hget
    rw [chain.canonical_eq hcan hsame]
    exact Keeps.pure ⟨rfl, addr, hcan, hsame⟩
  | none =>
    refine Keeps.bind (R := fun info => chain.accountInfo height.toNat address = some info)
      (Keeps.ofExcept fun info hok => hnode.accountInfo _ _ _ (mapError_eq_ok hok)) fun info hinfo => ?_
    obtain ⟨hmem, hsame, -⟩ := chain.accountInfo_spec hinfo
    have hcan : chain.IsCanonical info.accountAddress := ⟨_, hmem⟩
    rw [chain.canonical_eq hcan hsame]
    dsimp only
    split
    · exact Keeps.pure ⟨rfl, _, hcan, hsame⟩
    · exact Keeps.bind (Keeps.modify fun c hc => hc.insert hcan) fun _ _ =>
        Keeps.pure ⟨rfl, _, hcan, hsame⟩

theorem collectSummary_keeps (hnode : node.Follows chain) (height : AbsoluteBlockHeight)
    (acc : Collected) (s : BlockItemSummary) :
    Keeps (CanonicalAddressCache.Canonical chain) (collectSummary node height acc s)
      (fun r => r = acc.push s (chain.resolve s).addresses ∧ chain.Resolvable s) := by
  unfold collectSummary Chain.resolve Chain.Resolvable
  cases haff : s.affectedAddresses with
  | unknown =>
    exact Keeps.bind (R := fun _ => False) (Keeps.ofExcept fun a ha => by cases ha)
      fun _ h => h.elim
  | known affected =>
    refine Keeps.bind (R := fun l => l = affected)
      (Keeps.ofExcept fun l hl => (Except.ok.inj hl).symm) fun l hl => ?_
    subst hl
    refine Keeps.bind (R := fun r => r = firstOccurrences (l.map chain.canonical) ∧
      ∀ a ∈ l, chain.HasAccount a) ?_ fun r hr => Keeps.pure ⟨by rw [hr.1], l, rfl, hr.2⟩
    refine Keeps.foldlM l (resolveAddress node height) (fun done r =>
      r = firstOccurrences (done.map chain.canonical) ∧ ∀ a ∈ done, chain.HasAccount a)
      ⟨rfl, fun a ha => by cases ha⟩ fun done a rest r _ hr => ?_
    rw [hr.1]
    intro c hc
    obtain ⟨hI, hQ⟩ := resolveAddress_keeps hnode height done a c hc
    refine ⟨hI, fun r' hr' => ⟨(hQ r' hr').1, fun x hx => ?_⟩⟩
    rcases List.mem_append.mp hx with hx | hx
    · exact hr.2 x hx
    · rw [List.mem_singleton.mp hx]; exact (hQ r' hr').2

end

/-! ## Bindings -/

/-- The accounts whose keys an item of the block may change. -/
def keyUpdates (summaries : List BlockItemSummary) : List AccountAddress :=
  summaries.filterMap keyUpdateAccount

/-- The items that create an account or change its keys. -/
def BlockItemSummary.ChangesKeysOf (s : BlockItemSummary) (a : AccountAddress) : Prop :=
  s.details = .known (.accountCreation a) ∨
  s.details = .known (.accountTransaction a (.known .credentialKeysUpdated)) ∨
  s.details = .known (.accountTransaction a (.known .credentialsUpdated))

/-- None of them is missed. -/
theorem mem_keyUpdates {summaries : List BlockItemSummary} {a : AccountAddress} :
    a ∈ keyUpdates summaries ↔ ∃ s ∈ summaries, s.ChangesKeysOf a := by
  unfold keyUpdates
  rw [List.mem_filterMap]
  refine exists_congr fun s => and_congr_right fun _ => ?_
  unfold keyUpdateAccount BlockItemSummary.ChangesKeysOf
  constructor
  · intro h
    split at h
    · next hd =>
      split at h
      · rw [hd, Option.some.inj h]; exact Or.inl rfl
      · split at h
        · rw [hd, Option.some.inj h]; exact Or.inr (Or.inl rfl)
        · rw [hd, Option.some.inj h]; exact Or.inr (Or.inr rfl)
        · cases h
      · cases h
    · cases h
  · rintro (h | h | h)
    · rw [h]
    · rw [h]
    · rw [h]

/-- The bindings after block `n` of the accounts with a key update and of no others, each with
a known access structure. -/
structure Chain.BindingsOf (chain : Chain) (n : Nat) (updates : List AccountAddress)
    (bindings : AccountPublicKeyBindings) : Prop where
  current : ∀ e ∈ bindings.entries, e.1 ∈ chain.accounts n ∧
    ∃ s, chain.accessStructure n e.1 = .known s ∧ e.2 = accountBindings s
  only : ∀ e ∈ bindings.entries, ∃ a ∈ updates, e.1.sameAccount a = true
  all : ∀ a ∈ updates, ∃ e ∈ bindings.entries, e.1.sameAccount a = true

theorem orInsert_entries (m : AccountPublicKeyBindings) (address : AccountAddress)
    (l : List PublicKeyBindingInfo) : (m.orInsert address l).entries =
      if address ∈ m.entries.map Prod.fst then m.entries else m.entries ++ [(address, l)] := by
  unfold AccountPublicKeyBindings.orInsert
  split <;> rfl

theorem orInsert_subset (m : AccountPublicKeyBindings) (address : AccountAddress)
    (l : List PublicKeyBindingInfo) : m.entries ⊆ (m.orInsert address l).entries := by
  rw [orInsert_entries]
  split
  · exact List.Subset.refl _
  · exact List.subset_append_left _ _

theorem eq_of_mem_orInsert {m : AccountPublicKeyBindings} {address : AccountAddress}
    {l : List PublicKeyBindingInfo} {e : AccountAddress × List PublicKeyBindingInfo}
    (h : e ∈ (m.orInsert address l).entries) : e ∈ m.entries ∨ e = (address, l) := by
  rw [orInsert_entries] at h
  split at h
  · exact Or.inl h
  · exact (List.mem_append.mp h).imp_right List.mem_singleton.mp

theorem exists_mem_orInsert (m : AccountPublicKeyBindings) (address : AccountAddress)
    (l : List PublicKeyBindingInfo) : ∃ e ∈ (m.orInsert address l).entries, e.1 = address := by
  rw [orInsert_entries]
  split
  · next hin =>
    obtain ⟨e, he, heq⟩ := List.mem_map.mp hin
    exact ⟨e, he, heq⟩
  · exact ⟨_, List.mem_append_right _ (List.mem_singleton_self _), rfl⟩

/-- The entry of an account whose access structure is known. -/
def AccountInfo.Entry (info : AccountInfo) (e : AccountAddress × List PublicKeyBindingInfo) : Prop :=
  e.1 = info.accountAddress ∧ ∃ s, info.accessStructure = .known s ∧ e.2 = accountBindings s

/-- One round of the loop in `accountInfoToBindings`. -/
def addAccountInfo (res : AccountPublicKeyBindings) (info : AccountInfo) :
    Except UnknownDataError AccountPublicKeyBindings := do
  let accessStructure ← info.accessStructure.knownOrElse UnknownDataError.mk
  pure (res.orInsert info.accountAddress (accountBindings accessStructure))

/-- A round keeps the entries, has one for its account, and adds no other. -/
theorem addAccountInfo_spec {m m' : AccountPublicKeyBindings} {info : AccountInfo}
    (h : addAccountInfo m info = .ok m') : m.entries ⊆ m'.entries ∧
    (∃ e ∈ m'.entries, e.1 = info.accountAddress) ∧
    ∀ e ∈ m'.entries, e ∈ m.entries ∨ info.Entry e := by
  unfold addAccountInfo at h
  cases hs : info.accessStructure with
  | unknown => rw [hs] at h; cases h
  | known s =>
    rw [hs] at h
    obtain rfl := Except.ok.inj h
    refine ⟨orInsert_subset _ _ _, exists_mem_orInsert _ _ _, fun e he => ?_⟩
    refine (eq_of_mem_orInsert he).imp_right ?_
    rintro rfl
    exact ⟨rfl, s, hs, rfl⟩

/-- Every account info is known, adds an entry for its address, and nothing else is added. -/
theorem accountInfoToBindings_spec {infos : List AccountInfo} {bindings : AccountPublicKeyBindings}
    (h : accountInfoToBindings infos = .ok bindings) :
    (∀ e ∈ bindings.entries, ∃ info ∈ infos, info.Entry e) ∧
    ∀ info ∈ infos, ∃ e ∈ bindings.entries, e.1 = info.accountAddress := by
  have go : ∀ (infos : List AccountInfo) (m : AccountPublicKeyBindings),
      infos.foldlM addAccountInfo m = .ok bindings → m.entries ⊆ bindings.entries ∧
      (∀ e ∈ bindings.entries, e ∈ m.entries ∨ ∃ info ∈ infos, info.Entry e) ∧
      ∀ info ∈ infos, ∃ e ∈ bindings.entries, e.1 = info.accountAddress := by
    intro infos
    induction infos with
    | nil =>
      intro m hm
      obtain rfl : m = bindings := Except.ok.inj hm
      exact ⟨List.Subset.refl _, fun e he => Or.inl he, fun info hi => by cases hi⟩
    | cons info infos ih =>
      intro m hm
      rw [List.foldlM_cons] at hm
      cases hadd : addAccountInfo m info with
      | error e => rw [hadd] at hm; cases hm
      | ok m' =>
        rw [hadd] at hm
        obtain ⟨hsub, ⟨e, he, heq⟩, hfrom⟩ := addAccountInfo_spec hadd
        obtain ⟨hkeep, hfrom', hall⟩ := ih m' hm
        refine ⟨List.Subset.trans hsub hkeep, fun e he => ?_, fun i hi => ?_⟩
        · rcases hfrom' e he with hm' | ⟨i, hi, hentry⟩
          · exact (hfrom e hm').imp_right fun hentry => ⟨info, List.mem_cons_self, hentry⟩
          · exact Or.inr ⟨i, List.mem_cons_of_mem _ hi, hentry⟩
        · rcases List.mem_cons.mp hi with rfl | hi
          · exact ⟨e, hkeep he, heq⟩
          · exact hall i hi
  obtain ⟨-, hfrom, hall⟩ := go infos .new h
  refine ⟨fun e he => (hfrom e he).resolve_left ?_, hall⟩
  intro hnew
  cases hnew

theorem mapM_ok_mem {ε α β : Type} {f : α → Except ε β} {l : List α} {r : List β}
    (h : l.mapM f = .ok r) :
    (∀ b ∈ r, ∃ a ∈ l, f a = .ok b) ∧ ∀ a ∈ l, ∃ b ∈ r, f a = .ok b := by
  induction l generalizing r with
  | nil =>
    obtain rfl : [] = r := Except.ok.inj h
    simp
  | cons a l ih =>
    rw [List.mapM_cons] at h
    cases ha : f a with
    | error e => rw [ha] at h; cases h
    | ok b =>
      rw [ha] at h
      cases hl : l.mapM f with
      | error e => rw [hl] at h; cases h
      | ok r' =>
        rw [hl] at h
        obtain rfl : b :: r' = r := Except.ok.inj h
        obtain ⟨hfrom, hall⟩ := ih hl
        refine ⟨fun x hx => ?_, fun x hx => ?_⟩
        · rcases List.mem_cons.mp hx with rfl | hx
          · exact ⟨a, List.mem_cons_self, ha⟩
          · obtain ⟨y, hy, hxy⟩ := hfrom x hx
            exact ⟨y, List.mem_cons_of_mem _ hy, hxy⟩
        · rcases List.mem_cons.mp hx with rfl | hx
          · exact ⟨b, List.mem_cons_self, ha⟩
          · obtain ⟨y, hy, hxy⟩ := hall x hx
            exact ⟨y, List.mem_cons_of_mem _ hy, hxy⟩

section
variable {chain : Chain} {node : Node}

theorem parseKeyUpdates_spec (hnode : node.Follows chain) {updates : List AccountAddress}
    {height : AbsoluteBlockHeight} {bindings : AccountPublicKeyBindings}
    (h : parseKeyUpdates node updates height = .ok bindings) :
    chain.BindingsOf height.toNat updates bindings := by
  unfold parseKeyUpdates at h
  cases hinfos : updates.mapM fun address => node.getKeyUpdateInfo address height with
  | error e => rw [hinfos] at h; cases h
  | ok infos =>
    rw [hinfos] at h
    have h : (match accountInfoToBindings (node.completed infos) with
      | .ok bindings => pure bindings
      | .error _ => .error (.networkError "Error parsing account info to get public key bindings") :
        Except NodeError AccountPublicKeyBindings) = .ok bindings := h
    cases hb : accountInfoToBindings (node.completed infos) with
    | error e => rw [hb] at h; cases h
    | ok b =>
      rw [hb] at h
      obtain rfl : b = bindings := Except.ok.inj h
      obtain ⟨hfrom, hall⟩ := accountInfoToBindings_spec hb
      obtain ⟨hasked, hanswered⟩ := mapM_ok_mem hinfos
      have hperm := node.completedPerm infos
      refine ⟨fun e he => ?_, fun e he => ?_, fun a ha => ?_⟩
      · obtain ⟨info, hi, heq, s, hs, hv⟩ := hfrom e he
        obtain ⟨a, -, hok⟩ := hasked info (hperm.mem_iff.mp hi)
        obtain ⟨hmem, -, hstruct⟩ := chain.accountInfo_spec (hnode.keyUpdateInfo _ _ _ hok)
        rw [heq]
        exact ⟨hmem, s, by rw [← hstruct, hs], hv⟩
      · obtain ⟨info, hi, heq, -⟩ := hfrom e he
        obtain ⟨a, ha, hok⟩ := hasked info (hperm.mem_iff.mp hi)
        obtain ⟨-, hsame, -⟩ := chain.accountInfo_spec (hnode.keyUpdateInfo _ _ _ hok)
        exact ⟨a, ha, by rw [heq]; exact hsame⟩
      · obtain ⟨info, hi, hok⟩ := hanswered a ha
        obtain ⟨-, hsame, -⟩ := chain.accountInfo_spec (hnode.keyUpdateInfo _ _ _ hok)
        obtain ⟨e, he, heq⟩ := hall info (hperm.mem_iff.mpr hi)
        exact ⟨e, he, by rw [heq]; exact hsame⟩

/-! ## A block as the chain has it -/

/-- The data collected for block `n`. -/
structure Chain.BlockData (chain : Chain) (n : Nat) (d : TransactionLogData) : Prop where
  blockInfo : d.blockInfo = chain.blockInfo n
  itemSummaries : d.itemSummaries = (chain.transactionEvents n).map chain.resolve
  specialEvents : d.specialEvents.map Upward.known = chain.specialEvents n
  resolvable : ∀ s ∈ chain.transactionEvents n, chain.Resolvable s
  bindings : chain.BindingsOf n (keyUpdates (chain.transactionEvents n)) d.bindings

theorem mapM_knownOrElse {α ε : Type} {l : List (Upward α)} {e : ε} {r : List α}
    (h : l.mapM (fun u => u.knownOrElse e) = .ok r) : r.map Upward.known = l := by
  induction l generalizing r with
  | nil => rw [← Except.ok.inj h]; rfl
  | cons u l ih =>
    rw [List.mapM_cons] at h
    cases u with
    | unknown => cases h
    | known a =>
      cases hl : l.mapM fun u => u.knownOrElse e with
      | error e => rw [hl] at h; cases h
      | ok r' =>
        rw [hl] at h
        obtain rfl : a :: r' = r := Except.ok.inj h
        rw [List.map_cons, ih hl]

theorem mem_keyUpdateAddresses_push {acc : Collected} {s : BlockItemSummary}
    {l : List AccountAddress} {done : List BlockItemSummary}
    (h : ∀ a, a ∈ acc.keyUpdateAddresses ↔ a ∈ keyUpdates done) (a : AccountAddress) :
    a ∈ (acc.push s l).keyUpdateAddresses ↔ a ∈ keyUpdates (done ++ [s]) := by
  unfold keyUpdates at *
  rw [List.filterMap_append, List.mem_append, ← h a]
  unfold Collected.push
  dsimp only
  cases hs : keyUpdateAccount s with
  | none => simp [hs]
  | some b =>
    rw [List.filterMap_cons_some hs, List.filterMap_nil, List.mem_singleton]
    dsimp only
    split
    · next hb =>
      constructor
      · exact Or.inl
      · rintro (ha | rfl)
        · exact ha
        · exact hb
    · rw [List.mem_append, List.mem_singleton]

/-- The hook collects the block as the chain has it, whatever is in the cache, and keeps only
canonical addresses in it, also when it fails. -/
theorem onFinalizedBlock_keeps (hnode : node.Follows chain) (height : AbsoluteBlockHeight) :
    Keeps (CanonicalAddressCache.Canonical chain) (onFinalizedBlock node height)
      (chain.BlockData height.toNat) := by
  unfold onFinalizedBlock
  refine Keeps.bind (R := fun bi => bi = chain.blockInfo height.toNat)
    (Keeps.ofExcept fun bi hok => hnode.blockInfo _ _ hok) fun bi hbi => ?_
  subst hbi
  refine Keeps.bind (R := fun l => l = chain.transactionEvents height.toNat) ?_ fun l hl => ?_
  · unfold transactionSummaries
    split
    · next hcount => exact Keeps.pure (chain.noEvents _ hcount).symm
    · exact Keeps.ofExcept fun l hok => hnode.transactionEvents _ _ hok
  subst hl
  refine Keeps.bind (R := fun l => l = chain.specialEvents height.toNat)
    (Keeps.ofExcept fun l hok => hnode.specialEvents _ _ hok) fun specials hspecials => ?_
  refine Keeps.bind (R := fun r => r.map Upward.known = chain.specialEvents height.toNat)
    (Keeps.ofExcept fun r hok => by rw [← hspecials]; exact mapM_knownOrElse hok) fun r hr => ?_
  have hheight : (chain.blockInfo height.toNat).blockHeight = height := by
    rw [chain.blockHeight]
    exact UInt64.ofNat_toNat
  rw [hheight]
  refine Keeps.bind (R := fun c : Collected =>
    c.withAddresses = (chain.transactionEvents height.toNat).map chain.resolve ∧
    (∀ a, a ∈ c.keyUpdateAddresses ↔ a ∈ keyUpdates (chain.transactionEvents height.toNat)) ∧
    ∀ s ∈ chain.transactionEvents height.toNat, chain.Resolvable s) ?_ fun c hc => ?_
  · refine Keeps.foldlM (chain.transactionEvents height.toNat) (collectSummary node height)
      (fun done c => c.withAddresses = done.map chain.resolve ∧
        (∀ a, a ∈ c.keyUpdateAddresses ↔ a ∈ keyUpdates done) ∧
        ∀ s ∈ done, chain.Resolvable s)
      ⟨rfl, fun a => Iff.rfl, fun s hs => by cases hs⟩ fun done s rest acc _ hacc => ?_
    obtain ⟨hsummaries, hupdates, hres⟩ := hacc
    intro cache hcache
    obtain ⟨hI, hQ⟩ := collectSummary_keeps hnode height acc s cache hcache
    refine ⟨hI, fun c hc => ?_⟩
    obtain ⟨rfl, hs⟩ := hQ c hc
    refine ⟨?_, mem_keyUpdateAddresses_push hupdates, fun x hx => ?_⟩
    · rw [List.map_append, ← hsummaries]
      rfl
    · rcases List.mem_append.mp hx with hx | hx
      · exact hres x hx
      · rw [List.mem_singleton.mp hx]; exact hs
  · obtain ⟨hsummaries, hupdates, hres⟩ := hc
    refine Keeps.bind (R := fun b => chain.BindingsOf height.toNat c.keyUpdateAddresses b)
      (Keeps.ofExcept fun b hok => parseKeyUpdates_spec hnode hok) fun b hb => Keeps.pure ?_
    exact ⟨rfl, hsummaries, hr, hres,
      ⟨hb.current, fun e he => (hb.only e he).imp fun a ha => ⟨(hupdates a).mp ha.1, ha.2⟩,
        fun a ha => hb.all a ((hupdates a).mpr ha)⟩⟩

theorem onUseNode_keeps (hnode : node.Follows chain) :
    Keeps (CanonicalAddressCache.Canonical chain) (onUseNode node) (fun _ => True) := by
  unfold onUseNode
  refine Keeps.bind Keeps.read fun cache _ => ?_
  split
  · refine Keeps.bind (R := fun l => ∀ a ∈ l, chain.IsCanonical a) (Keeps.ofExcept fun l hok => ?_)
      fun l hl => Keeps.modify fun _ _ => CanonicalAddressCache.canonical_ofList hl
    obtain ⟨n, hn⟩ := hnode.accountList l (mapError_eq_ok hok)
    exact fun a ha => ⟨n, hn a ha⟩
  · exact Keeps.pure trivial

/-! ## Runs of the hooks -/

inductive HookCall where
  | useNode (client : Node)
  | finalizedBlock (node : Node) (height : AbsoluteBlockHeight)

def HookCall.client : HookCall → Node
  | .useNode client => client
  | .finalizedBlock node _ => node

/-- The cache a call leaves, whether it succeeds or not. -/
def HookCall.run (cache : CanonicalAddressCache) : HookCall → CanonicalAddressCache
  | .useNode client => (onUseNode client cache).2
  | .finalizedBlock node height => (onFinalizedBlock node height cache).2

theorem canonical_run {cache : CanonicalAddressCache} (hcache : cache.Canonical chain)
    (calls : List HookCall) (hnodes : ∀ call ∈ calls, call.client.Follows chain) :
    (calls.foldl HookCall.run cache).Canonical chain := by
  induction calls generalizing cache with
  | nil => exact hcache
  | cons call calls ih =>
    refine ih ?_ fun c hc => hnodes c (List.mem_cons_of_mem _ hc)
    have hnode := hnodes call List.mem_cons_self
    cases call with
    | useNode client => exact (onUseNode_keeps hnode cache hcache).1
    | finalizedBlock node height => exact (onFinalizedBlock_keeps hnode height cache hcache).1

/-- After any calls of the hooks, from a cache of canonical addresses: the cache holds only
canonical addresses, and a block collected next has for each transaction the canonical
addresses of its affected accounts, each once, in the order of their first occurrence.  The
same lists come out with an empty cache. -/
theorem resolution_agrees {cache : CanonicalAddressCache} (hcache : cache.Canonical chain)
    (calls : List HookCall) (hnodes : ∀ call ∈ calls, call.client.Follows chain) :
    (calls.foldl HookCall.run cache).Canonical chain ∧
    ∀ (node : Node) (height : AbsoluteBlockHeight) (d : TransactionLogData), node.Follows chain →
      (onFinalizedBlock node height (calls.foldl HookCall.run cache)).1 = .ok d →
      (∀ ts ∈ d.itemSummaries, ∃ affected, ts.summary.affectedAddresses = .known affected ∧
        (∀ a ∈ affected, chain.HasAccount a) ∧
        ts.addresses = firstOccurrences (affected.map chain.canonical)) ∧
      ∀ (node' : Node) (d' : TransactionLogData), node'.Follows chain →
        (onFinalizedBlock node' height .empty).1 = .ok d' → d'.itemSummaries = d.itemSummaries := by
  have hrun := canonical_run hcache calls hnodes
  refine ⟨hrun, fun node height d hnode hd => ?_⟩
  have hdata := (onFinalizedBlock_keeps hnode height _ hrun).2 d hd
  refine ⟨fun ts hts => ?_, fun node' d' hnode' hd' => ?_⟩
  · rw [hdata.itemSummaries] at hts
    obtain ⟨s, hs, rfl⟩ := List.mem_map.mp hts
    obtain ⟨affected, haff, hacc⟩ := hdata.resolvable s hs
    refine ⟨affected, haff, hacc, ?_⟩
    unfold Chain.resolve
    rw [haff]
  · have hdata' := (onFinalizedBlock_keeps hnode' height _
      (CanonicalAddressCache.canonical_empty chain)).2 d' hd'
    rw [hdata.itemSummaries, hdata'.itemSummaries]

end

/-- Another address of the account with address zero. -/
def aliasAddress : AccountAddress := ⟨(Vector.replicate 32 0).set 31 1⟩

/-- A chain with one account, whose blocks name it by an alias and then by its canonical
address. -/
def aliasChain : Chain :=
  .ofEvents
    (fun _ => [{
      hash := []
      details := .known .other
      affectedAddresses := .known [aliasAddress, ⟨.replicate 32 0⟩]
      affectedContracts := .known []
      contractUpdateLogs := none
      contractInit := none }])
    (fun _ => []) (fun _ => ⟨[]⟩)

theorem resolution_agrees_alias :
    let calls := [HookCall.useNode (aliasChain.node 0), .finalizedBlock (aliasChain.node 0) 0]
    ∃ d, (onFinalizedBlock (aliasChain.node 0) 0 (calls.foldl HookCall.run .empty)).1 = .ok d ∧
      (d.itemSummaries.map fun ts => ts.addresses) = [[⟨.replicate 32 0⟩]] ∧
      ∀ ts ∈ d.itemSummaries, ∃ affected, ts.summary.affectedAddresses = .known affected ∧
        (∀ a ∈ affected, aliasChain.HasAccount a) ∧
        ts.addresses = firstOccurrences (affected.map aliasChain.canonical) := by
  intro calls
  refine ⟨_, rfl, by decide, ?_⟩
  refine ((resolution_agrees (CanonicalAddressCache.canonical_empty aliasChain) calls ?_).2
    (aliasChain.node 0) 0 _ (aliasChain.node_follows 0) rfl).1
  intro call hcall
  simp only [calls, List.mem_cons, List.not_mem_nil, or_false] at hcall
  rcases hcall with rfl | rfl <;> exact aliasChain.node_follows 0

end WalletProxyIndexer
