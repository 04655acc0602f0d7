import WalletProxyIndexer.Schema

/-!
# Inserting a block

`insert_block` of `main.rs` and what it calls: the prepared statements, the extraction
of CIS2 events and the key bindings.  A block is one transaction
(`Transaction.transaction`) over the statements of `Schema`.

`insertIntoDb` is what the database task runs; its argument `survives` says after how
many statements the connection breaks (`none`: never).
-/

namespace WalletProxyIndexer

open Transaction

abbrev DbTx (J : Type) := Txn (Tables J) IndexingError

inductive BorrowedDatabaseSummaryEntry where
  | blockItem (s : BlockItemSummary)
  | protocolEvent (o : SpecialTransactionOutcome)
deriving DecidableEq

structure SummaryRow where
  blockHash : BlockHash
  blockTime : Timestamp
  blockHeight : AbsoluteBlockHeight
  summary : BorrowedDatabaseSummaryEntry
deriving DecidableEq

structure BlockItemSummaryWithCanonicalAddresses where
  summary : BlockItemSummary
  /-- affected addresses, resolved to canonical addresses -/
  addresses : List AccountAddress
deriving DecidableEq

structure PublicKeyBindingInfo where
  publicKey : Bytea
  credentialIndex : UInt8
  keyIndex : UInt8
  isSimpleAccount : Bool
deriving DecidableEq

/-- `HashMap<AccountAddress, Vec<PublicKeyBindingInfo>>`, in the order it is iterated. -/
structure AccountPublicKeyBindings where
  entries : List (AccountAddress × List PublicKeyBindingInfo)
  distinct : (entries.map Prod.fst).Nodup
deriving DecidableEq

def AccountPublicKeyBindings.new : AccountPublicKeyBindings := ⟨[], .nil⟩

/-- What the node task sends to the database task for one block. -/
structure TransactionLogData where
  blockInfo : BlockInfo
  itemSummaries : List BlockItemSummaryWithCanonicalAddresses
  specialEvents : List SpecialTransactionOutcome
  bindings : AccountPublicKeyBindings
deriving DecidableEq

section
variable {J : Type} [SdkJson J]

/-- The serde form: the variant's name as tag. -/
def BorrowedDatabaseSummaryEntry.toJson : BorrowedDatabaseSummaryEntry → TaggedJson J
  | .blockItem s => ⟨"Left", SdkJson.ofBlockItem s⟩
  | .protocolEvent o => ⟨"Right", SdkJson.ofOutcome o⟩

def SummaryRow.columns (r : SummaryRow) : SummariesRow J where
  block := r.blockHash.toBytes
  timestamp := r.blockTime.toInt64
  height := r.blockHeight.toInt64
  summary := r.summary.toJson

def insertSummary (summary : SummaryRow) : DbTx J Nat :=
  Txn.statement fun t => .ok (t.insertSummaries summary.columns)

omit [SdkJson J] in
def insertAti (account : AccountAddress) (id : Nat) : DbTx J Unit :=
  Txn.statement fun t => t.insertAti ⟨account.toBytes, id⟩

omit [SdkJson J] in
def insertCti (contract : ContractAddress) (id : Nat) : DbTx J Unit :=
  Txn.statement fun t => t.insertCti ⟨contract.index.toInt64, contract.subindex.toInt64, id⟩

def unknownItemContracts : IndexingError :=
  .unknownData "Could not determine affected contracts for a BlockItemSummary of unknown type."

def unknownEffectsContract : IndexingError :=
  .unknownData "Could not determine affected contracts of an unknown type of AccountTransactionEffects."

def unknownContractLog : IndexingError :=
  .unknownData "Could not determine contract log, unknown type."

def insertTransaction (blockHash : BlockHash) (blockTime : Timestamp)
    (blockHeight : AbsoluteBlockHeight) (ts : BlockItemSummaryWithCanonicalAddresses) :
    DbTx J Unit := do
  let id ← insertSummary ⟨blockHash, blockTime, blockHeight, .blockItem ts.summary⟩
  ts.addresses.forM fun affected => insertAti affected id
  let affectedContracts ← Txn.ofExcept (ts.summary.affectedContracts.knownOrElse unknownItemContracts)
  affectedContracts.forM fun contractAddress => do
    let affected ← Txn.ofExcept (contractAddress.knownOrElse unknownEffectsContract)
    insertCti affected id

/-- The accounts a special outcome is listed under. -/
def specialAffectedAddresses : SpecialTransactionOutcome → List AccountAddress
  | .bakingRewards bakerRewards => bakerRewards.keys
  | .mint foundationAccount => [foundationAccount]
  | .finalizationRewards finalizationRewards => finalizationRewards.keys
  | .blockReward baker foundationAccount => [baker, foundationAccount]
  | .paydayFoundationReward foundationAccount => [foundationAccount]
  | .paydayAccountReward account => [account]
  -- administrative events, they do not transfer to an account
  | .blockAccrueReward => []
  | .paydayPoolReward => []
  | .validatorSuspended account => [account]
  | .validatorPrimedForSuspension account => [account]

def insertSpecial (blockHash : BlockHash) (blockTime : Timestamp)
    (blockHeight : AbsoluteBlockHeight) (so : SpecialTransactionOutcome) : DbTx J Unit := do
  let id ← insertSummary ⟨blockHash, blockTime, blockHeight, .protocolEvent so⟩
  (specialAffectedAddresses so).forM fun affected => insertAti affected id

end

/-! ## CIS2 tokens -/

section
variable {J : Type}

/-- The two upserts differ only in how a conflict updates the total. -/
def cis2UpsertTotalSupply (onConflict : Int → Int → Int) (ca : ContractAddress)
    (tokenId : Cis2.TokenId) (amount : Nat) : DbTx J Nat :=
  Txn.statement fun t =>
    t.upsertCis2Tokens onConflict ⟨⟨ca.index.toInt64, ca.subindex.toInt64, tokenId⟩, amount⟩

def cis2IncreaseTotalSupply (ca : ContractAddress) (tokenId : Cis2.TokenId) (amount : Nat) :
    DbTx J Nat :=
  cis2UpsertTotalSupply (· + ·) ca tokenId amount

def cis2DecreaseTotalSupply (ca : ContractAddress) (tokenId : Cis2.TokenId) (amount : Nat) :
    DbTx J Nat :=
  cis2UpsertTotalSupply (· - ·) ca tokenId amount

abbrev ContractEffects := List (ContractAddress × List Cis2.Event)

/-- One turn of the loop over the execution segments of an update transaction. -/
def pushSegment (events : ContractEffects) (contractLog : Upward (ContractAddress × List ContractEvent)) :
    Except IndexingError ContractEffects := do
  let (ca, logs) ← contractLog.knownOrElse unknownContractLog
  match logs.mapM Cis2.Event.tryFrom with
  | some evs => pure (events ++ [(ca, evs)])
  | none => pure events

def getCis2Events (bi : BlockItemSummary) : Except IndexingError ContractEffects :=
  match bi.contractUpdateLogs with
  | some logIter => logIter.foldlM pushSegment []
  | none =>
    match bi.contractInit with
    | none => .ok []
    | some init =>
      match init.events.mapM Cis2.Event.tryFrom with
      | some cis2 => .ok [(init.address, cis2)]
      | none => .ok []

def insertCis2Event (ca : ContractAddress) : Cis2.Event → DbTx J Unit
  | .transfer => pure ()
  | .mint tokenId amount => do let _ ← cis2IncreaseTotalSupply ca tokenId amount
  | .burn tokenId amount => do let _ ← cis2DecreaseTotalSupply ca tokenId amount
  | .updateOperator => pure ()
  | .tokenMetadata => pure ()
  | .unknown => pure ()

def insertCis2Tokens (ts : BlockItemSummary) : DbTx J Unit := do
  let effects ← Txn.ofExcept (getCis2Events ts)
  effects.forM fun (ca, events) => events.forM (insertCis2Event ca)

/-! ## Key bindings -/

def PublicKeyBindingInfo.columns (address : AccountAddress) (b : PublicKeyBindingInfo) :
    AccountPublicKeyBindingsRow where
  address := address.toBytes
  publicKey := b.publicKey
  credentialIndex := b.credentialIndex.toNat
  keyIndex := b.keyIndex.toNat
  isSimpleAccount := b.isSimpleAccount

def deleteKeyBindings (address : AccountAddress) : DbTx J Unit :=
  Txn.statement fun t => .ok ((), t.deleteKeyBindings address.toBytes)

def insertKeyBinding (address : AccountAddress) (b : PublicKeyBindingInfo) : DbTx J Unit :=
  Txn.statement fun t => .ok ((), t.insertKeyBindings (b.columns address))

def updateKeyBindings (bindings : AccountPublicKeyBindings) : DbTx J Unit :=
  bindings.entries.forM fun (account, bindings) => do
    deleteKeyBindings account
    bindings.forM (insertKeyBinding account)

end

/-! ## Blocks -/

section
variable {J : Type} [SdkJson J]

/-- The statements of `insert_block` between `BEGIN` and `COMMIT`. -/
def insertBlockBody (blockHash : BlockHash) (blockTime : Timestamp)
    (blockHeight : AbsoluteBlockHeight) (itemSummaries : List BlockItemSummaryWithCanonicalAddresses)
    (specialEvents : List SpecialTransactionOutcome) (bindings : AccountPublicKeyBindings) :
    DbTx J Unit := do
  itemSummaries.forM fun transaction => do
    insertTransaction blockHash blockTime blockHeight transaction
    insertCis2Tokens transaction.summary
  specialEvents.forM fun special => insertSpecial blockHash blockTime blockHeight special
  updateKeyBindings bindings

def insertBlock (survives : Option Nat) (db : Tables J) (blockHash : BlockHash)
    (blockTime : Timestamp) (blockHeight : AbsoluteBlockHeight)
    (itemSummaries : List BlockItemSummaryWithCanonicalAddresses)
    (specialEvents : List SpecialTransactionOutcome) (bindings : AccountPublicKeyBindings) :
    Except IndexingError Unit × Tables J :=
  transaction (insertBlockBody blockHash blockTime blockHeight itemSummaries specialEvents bindings)
    survives db

def insertIntoDb (survives : Option Nat) (db : Tables J) (data : TransactionLogData) :
    Except IndexingError Unit × Tables J :=
  insertBlock survives db data.blockInfo.blockHash data.blockInfo.blockSlotTime.toUInt64
    data.blockInfo.blockHeight data.itemSummaries data.specialEvents data.bindings

omit [SdkJson J] in
/-- `SELECT summaries.height FROM summaries ORDER BY summaries.id DESC LIMIT 1`: rows are in
id order, so the row with the largest id is the last one. -/
def getLastBlockHeight (db : Tables J) : Option AbsoluteBlockHeight :=
  db.summaries.values.getLast?.map fun r => r.height.toUInt64

end

end WalletProxyIndexer
