import Mathlib

/-!
# SDK data

What the indexer reads of the data a node returns.  The SDK itself is outside the
repository: a method the indexer calls on a summary (`affected_addresses`,
`contract_update_logs`, …) is represented by the answer it gives for that summary,
one field each, so a `BlockItemSummary` here stands for a summary with any answers.
Parts that no code here looks into (amounts, memos, reject reasons) are left out.

A `BTreeMap` is the list of its entries, with distinct keys.
-/

namespace WalletProxyIndexer

abbrev Bytea := List UInt8

/-- Data of a variant the SDK knows, or of one introduced after it was built. -/
inductive Upward (α : Type) where
  | known (a : α)
  | unknown
deriving DecidableEq

namespace Upward

variable {α : Type}

def knownOrElse {ε : Type} (u : Upward α) (e : ε) : Except ε α :=
  match u with
  | known a => .ok a
  | unknown => .error e

def isKnown : Upward α → Bool
  | known _ => true
  | unknown => false

def toOption : Upward α → Option α
  | known a => some a
  | unknown => none

end Upward

abbrev AbsoluteBlockHeight := UInt64

def AbsoluteBlockHeight.next (h : AbsoluteBlockHeight) : AbsoluteBlockHeight := h + 1

/-- Milliseconds since the unix epoch. -/
abbrev Timestamp := UInt64

structure BlockHash where
  bytes : Vector UInt8 32
deriving DecidableEq

structure AccountAddress where
  bytes : Vector UInt8 32
deriving DecidableEq

structure ContractAddress where
  index : UInt64
  subindex : UInt64
deriving DecidableEq

def BlockHash.toBytes (h : BlockHash) : Bytea := h.bytes.toList

def AccountAddress.toBytes (a : AccountAddress) : Bytea := a.bytes.toList

theorem AccountAddress.toBytes_inj {a b : AccountAddress} : a.toBytes = b.toBytes ↔ a = b := by
  constructor
  · intro h
    cases a; cases b
    simp only [toBytes] at h
    rw [Vector.toList_inj] at h
    rw [h]
  · rintro rfl; rfl

/-! ## CIS2 -/

namespace Cis2

abbrev TokenId := Bytea

/-- `cis2::Event`; only mints and burns carry data the indexer reads. -/
inductive Event where
  | transfer
  | mint (tokenId : TokenId) (amount : Nat)
  | burn (tokenId : TokenId) (amount : Nat)
  | updateOperator
  | tokenMetadata
  | unknown
deriving DecidableEq

end Cis2

/-- A log entry of a contract, with what `cis2::Event::try_from` makes of it. -/
structure ContractEvent where
  parsed : Option Cis2.Event
deriving DecidableEq

def Cis2.Event.tryFrom (e : ContractEvent) : Option Cis2.Event := e.parsed

/-! ## Block item summaries -/

inductive AccountTransactionEffects where
  | credentialKeysUpdated
  | credentialsUpdated
  | other
deriving DecidableEq

inductive BlockItemSummaryDetails where
  | accountTransaction (sender : AccountAddress) (effects : Upward AccountTransactionEffects)
  | accountCreation (address : AccountAddress)
  | other
deriving DecidableEq

structure ContractInitializedEvent where
  address : ContractAddress
  events : List ContractEvent
deriving DecidableEq

structure BlockItemSummary where
  hash : Bytea
  details : Upward BlockItemSummaryDetails
  affectedAddresses : Upward (List AccountAddress)
  affectedContracts : Upward (List (Upward ContractAddress))
  /-- one entry per execution segment of an update transaction, `none` for other items -/
  contractUpdateLogs : Option (List (Upward (ContractAddress × List ContractEvent)))
  contractInit : Option ContractInitializedEvent
deriving DecidableEq

/-! ## Special outcomes -/

/-- `BTreeMap<AccountAddress, Amount>` -/
structure AccountAmounts where
  entries : List (AccountAddress × Nat)
  distinct : (entries.map Prod.fst).Nodup
deriving DecidableEq

def AccountAmounts.keys (m : AccountAmounts) : List AccountAddress := m.entries.map Prod.fst

inductive SpecialTransactionOutcome where
  | bakingRewards (bakerRewards : AccountAmounts)
  | mint (foundationAccount : AccountAddress)
  | finalizationRewards (finalizationRewards : AccountAmounts)
  | blockReward (baker foundationAccount : AccountAddress)
  | paydayFoundationReward (foundationAccount : AccountAddress)
  | paydayAccountReward (account : AccountAddress)
  | blockAccrueReward
  | paydayPoolReward
  | validatorSuspended (account : AccountAddress)
  | validatorPrimedForSuspension (account : AccountAddress)
deriving DecidableEq

/-! ## Accounts -/

/-- A verification key, by its serialization. -/
structure VerifyKey where
  serial : Bytea
deriving DecidableEq

/-- `BTreeMap<KeyIndex, VerifyKey>` -/
structure CredentialPublicKeys where
  keys : List (UInt8 × VerifyKey)
  distinct : (keys.map Prod.fst).Nodup
deriving DecidableEq

/-- `BTreeMap<CredentialIndex, CredentialPublicKeys>` -/
structure AccountAccessStructure where
  keys : List (UInt8 × CredentialPublicKeys)
  distinct : (keys.map Prod.fst).Nodup
deriving DecidableEq

def AccountAccessStructure.numKeys (s : AccountAccessStructure) : Nat :=
  (s.keys.map fun c => c.2.keys.length).sum

structure AccountInfo where
  accountAddress : AccountAddress
  accessStructure : Upward AccountAccessStructure
deriving DecidableEq

/-! ## Blocks -/

structure BlockInfo where
  blockHash : BlockHash
  blockHeight : AbsoluteBlockHeight
  /-- `block_slot_time.timestamp_millis()` -/
  blockSlotTime : Int64
  transactionCount : UInt64
deriving DecidableEq

/-- The JSON form of summaries and special outcomes, as a `JSONB` column gives it back. -/
class SdkJson (J : Type) where
  ofBlockItem : BlockItemSummary → J
  toBlockItem : J → Option BlockItemSummary
  ofOutcome : SpecialTransactionOutcome → J
  toOutcome : J → Option SpecialTransactionOutcome

/-- JSON as the value it encodes. -/
abbrev PlainJson := BlockItemSummary ⊕ SpecialTransactionOutcome

instance : SdkJson PlainJson where
  ofBlockItem := .inl
  toBlockItem := Sum.getLeft?
  ofOutcome := .inr
  toOutcome := Sum.getRight?

end WalletProxyIndexer
