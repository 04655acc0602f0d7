import WalletProxyIndexer.Insert

/-!
# The chain

The finalized chain the nodes serve, block by block.  Accounts are identified by the
first 29 bytes of an address (`AccountAddress.sameAccount`); of the addresses of one
account one is canonical, and it stays so once the account exists.  A chain carries
these facts, together with what nodes report consistently: the height of a block, and
that a block without transactions has no transaction events.

`Node` are the answers a node gives during one call of a hook; any query may fail.
`Node.Follows` says that what it does answer is what the chain says.
-/

namespace WalletProxyIndexer

/-- The equality of `AccountAddressEq`. -/
def AccountAddress.sameAccount (a b : AccountAddress) : Bool :=
  a.toBytes.take 29 == b.toBytes.take 29

namespace AccountAddress

@[simp] theorem sameAccount_self (a : AccountAddress) : a.sameAccount a = true :=
  beq_self_eq_true _

theorem sameAccount_symm {a b : AccountAddress} (h : a.sameAccount b = true) :
    b.sameAccount a = true := by
  unfold sameAccount at *
  rw [beq_iff_eq] at *
  exact h.symm

theorem sameAccount_trans {a b c : AccountAddress} (h : a.sameAccount b = true)
    (h' : b.sameAccount c = true) : a.sameAccount c = true := by
  unfold sameAccount at *
  rw [beq_iff_eq] at *
  exact h.trans h'

end AccountAddress

structure Chain where
  blockInfo : Nat → BlockInfo
  transactionEvents : Nat → List BlockItemSummary
  specialEvents : Nat → List (Upward SpecialTransactionOutcome)
  /-- canonical addresses of the accounts that exist after a block -/
  accounts : Nat → List AccountAddress
  /-- access structure of an account after a block, by its canonical address -/
  accessStructure : Nat → AccountAddress → Upward AccountAccessStructure
  blockHeight : ∀ n, (blockInfo n).blockHeight = UInt64.ofNat n
  noEvents : ∀ n, (blockInfo n).transactionCount = 0 → transactionEvents n = []
  distinct : ∀ n, (accounts n).Pairwise fun a b => a.sameAccount b = false
  grows : ∀ n, accounts n ⊆ accounts (n + 1)

namespace Chain

/-- A chain with one account, which has one key at a time. -/
def ofEvents (transactionEvents : Nat → List BlockItemSummary)
    (specialEvents : Nat → List (Upward SpecialTransactionOutcome)) (key : Nat → VerifyKey) : Chain where
  blockInfo n :=
    ⟨⟨.replicate 32 0⟩, UInt64.ofNat n, 0, if (transactionEvents n).isEmpty then 0 else 1⟩
  transactionEvents := transactionEvents
  specialEvents := specialEvents
  accounts _ := [⟨.replicate 32 0⟩]
  accessStructure n _ := .known ⟨[(0, ⟨[(0, key n)], by simp⟩)], by simp⟩
  blockHeight _ := rfl
  noEvents n h := by
    cases hl : transactionEvents n with
    | nil => rfl
    | cons s l => simp [hl] at h
  distinct _ := List.pairwise_singleton _ _
  grows _ := List.Subset.refl _

variable (chain : Chain)

/-- `get_account_info` after block `n`, for any address of the account. -/
def accountInfo (n : Nat) (a : AccountAddress) : Option AccountInfo :=
  ((chain.accounts n).find? fun c => c.sameAccount a).map fun c => ⟨c, chain.accessStructure n c⟩

def IsCanonical (c : AccountAddress) : Prop := ∃ n, c ∈ chain.accounts n

theorem accounts_mono {m n : Nat} (h : m ≤ n) : chain.accounts m ⊆ chain.accounts n := by
  induction h with
  | refl => exact List.Subset.refl _
  | step _ ih => exact fun a ha => chain.grows _ (ih ha)

theorem eq_of_sameAccount_at {n : Nat} {a b : AccountAddress} (ha : a ∈ chain.accounts n)
    (hb : b ∈ chain.accounts n) (h : a.sameAccount b = true) : a = b := by
  by_contra hne
  have hpair : (chain.accounts n).Pairwise fun a b => a.sameAccount b = false ∨ b.sameAccount a = false :=
    (chain.distinct n).imp Or.inl
  have : Std.Symm fun a b : AccountAddress => a.sameAccount b = false ∨ b.sameAccount a = false :=
    ⟨fun _ _ => Or.symm⟩
  rcases hpair.forall ha hb hne with h' | h'
  · rw [h] at h'; cases h'
  · rw [AccountAddress.sameAccount_symm h] at h'; cases h'

/-- An account has one canonical address. -/
theorem eq_of_sameAccount {a b : AccountAddress} (ha : chain.IsCanonical a)
    (hb : chain.IsCanonical b) (h : a.sameAccount b = true) : a = b := by
  obtain ⟨m, hm⟩ := ha
  obtain ⟨n, hn⟩ := hb
  exact chain.eq_of_sameAccount_at (chain.accounts_mono (Nat.le_max_left m n) hm)
    (chain.accounts_mono (Nat.le_max_right m n) hn) h

open Classical in
/-- The canonical address of the account an address belongs to. -/
noncomputable def canonical (a : AccountAddress) : AccountAddress :=
  if h : ∃ c, chain.IsCanonical c ∧ c.sameAccount a = true then h.choose else a

theorem canonical_eq {a c : AccountAddress} (hc : chain.IsCanonical c)
    (h : c.sameAccount a = true) : chain.canonical a = c := by
  have hex : ∃ c, chain.IsCanonical c ∧ c.sameAccount a = true := ⟨c, hc, h⟩
  unfold canonical
  rw [dif_pos hex]
  obtain ⟨hcan, hsame⟩ := hex.choose_spec
  exact chain.eq_of_sameAccount hcan hc
    (AccountAddress.sameAccount_trans hsame (AccountAddress.sameAccount_symm h))

theorem accountInfo_spec {n : Nat} {a : AccountAddress} {info : AccountInfo}
    (h : chain.accountInfo n a = some info) : info.accountAddress ∈ chain.accounts n ∧
      info.accountAddress.sameAccount a = true ∧
      info.accessStructure = chain.accessStructure n info.accountAddress := by
  obtain ⟨c, hc, rfl⟩ := Option.map_eq_some_iff.mp h
  have hsame := List.find?_some hc
  exact ⟨List.mem_of_find?_eq_some hc, hsame, rfl⟩

end Chain

/-! ## Nodes -/

inductive NodeError where
  | connectionError
  | timeout
  | networkError (message : String)
  | queryError
  | otherError (message : String)
deriving DecidableEq

/-- The answers of a node during one call of a hook. -/
structure Node where
  getBlockInfo : AbsoluteBlockHeight → Except NodeError BlockInfo
  getBlockTransactionEvents : AbsoluteBlockHeight → Except NodeError (List BlockItemSummary)
  getBlockSpecialEvents :
    AbsoluteBlockHeight → Except NodeError (List (Upward SpecialTransactionOutcome))
  getAccountInfo : AccountAddress → AbsoluteBlockHeight → Except NodeError AccountInfo
  /-- the same query, as made for key updates -/
  getKeyUpdateInfo : AccountAddress → AbsoluteBlockHeight → Except NodeError AccountInfo
  /-- the accounts of the last finalized block -/
  getAccountList : Except NodeError (List AccountAddress)
  /-- the order in which concurrent queries complete -/
  completed : List AccountInfo → List AccountInfo
  completedPerm : ∀ infos, (completed infos).Perm infos

structure Node.Follows (node : Node) (chain : Chain) : Prop where
  blockInfo : ∀ h bi, node.getBlockInfo h = .ok bi → bi = chain.blockInfo h.toNat
  transactionEvents : ∀ h l, node.getBlockTransactionEvents h = .ok l →
    l = chain.transactionEvents h.toNat
  specialEvents : ∀ h l, node.getBlockSpecialEvents h = .ok l → l = chain.specialEvents h.toNat
  accountInfo : ∀ a h info, node.getAccountInfo a h = .ok info →
    chain.accountInfo h.toNat a = some info
  keyUpdateInfo : ∀ a h info, node.getKeyUpdateInfo a h = .ok info →
    chain.accountInfo h.toNat a = some info
  accountList : ∀ l, node.getAccountList = .ok l → ∃ n, ∀ a ∈ l, a ∈ chain.accounts n

/-- A node of the chain that answers every query. -/
def Chain.node (chain : Chain) (lastFinal : Nat) : Node where
  getBlockInfo h := .ok (chain.blockInfo h.toNat)
  getBlockTransactionEvents h := .ok (chain.transactionEvents h.toNat)
  getBlockSpecialEvents h := .ok (chain.specialEvents h.toNat)
  getAccountInfo a h := match chain.accountInfo h.toNat a with
    | some info => .ok info
    | none => .error .queryError
  getKeyUpdateInfo a h := match chain.accountInfo h.toNat a with
    | some info => .ok info
    | none => .error .queryError
  getAccountList := .ok (chain.accounts lastFinal)
  completed infos := infos
  completedPerm infos := .refl infos

theorem Chain.node_follows (chain : Chain) (lastFinal : Nat) :
    (chain.node lastFinal).Follows chain := by
  have hinfo : ∀ (a : AccountAddress) (h : AbsoluteBlockHeight) info,
      (match chain.accountInfo h.toNat a with
        | some info => .ok info
        | none => .error .queryError : Except NodeError AccountInfo) = .ok info →
      chain.accountInfo h.toNat a = some info := by
    intro a h info hok
    split at hok
    · next hi => rw [hi, Except.ok.inj hok]
    · cases hok
  exact {
    blockInfo := fun h bi hok => (Except.ok.inj hok).symm
    transactionEvents := fun h l hok => (Except.ok.inj hok).symm
    specialEvents := fun h l hok => (Except.ok.inj hok).symm
    accountInfo := hinfo
    keyUpdateInfo := hinfo
    accountList := fun l hok => ⟨lastFinal, fun a ha => by rw [Except.ok.inj hok]; exact ha⟩ }

end WalletProxyIndexer
