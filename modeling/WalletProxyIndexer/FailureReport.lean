import WalletProxyIndexer.Indexer

/-!
# What run_service reports

`run_service` learns of a failure of the database task in two ways only: the start
height never arrives, or the block channel is closed when it sends.  The first gives an
error, the second ends the loop without one.
-/

namespace WalletProxyIndexer

open Transition

section
variable {D DB NH : Type} {setup : Setup D DB NH}

end

/-- Every block has an update of a contract whose address is of an unknown type. -/
def unknownContractChain : Chain :=
  .ofEvents
    (fun _ => [{
      hash := []
      details := .known .other
      affectedAddresses := .known []
      affectedContracts := .known [.unknown]
      contractUpdateLogs := none
      contractInit := none }])
    (fun _ => []) (fun _ => ⟨[]⟩)

end WalletProxyIndexer
