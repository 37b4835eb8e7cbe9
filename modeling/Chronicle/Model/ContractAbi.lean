import Chronicle.Model.State
import Mathlib.Data.List.Sort

/-!
# Contract ABIs

The functions of `receiver_plugin_impl` that keep the table of current ABIs, the table of
all ABI revisions, and the cache of decoded ABIs.
-/

namespace Chronicle

open Store

variable {Abi : Type} (lib : Abieos Abi)

/-- `init_contract_abi_ctxt`: a new context, and nothing imported into it.  A process starts
without a context; that is the context without contracts here. -/
def initContractAbiCtxt : Receiver Abi Unit :=
  modifyProc fun p ↦ { p with contractAbiCtxt := ∅, contractAbiImported := ∅ }

/-- Call `abieos_set_abi_bin` on the context of the process. -/
def abieosSetAbiBin (account : Name) (data : Bytes) : Receiver Abi Bool := do
  let w ← get
  observe (.setAbiBin account (w.proc.contractAbiCtxt.find? account).isSome)
  let (ok, ctxt) := lib.setAbiBin w.proc.contractAbiCtxt account data
  modifyProc fun p ↦ { p with contractAbiCtxt := ctxt }
  return ok

def contractAbiImportedInsert (account : Name) : Receiver Abi Unit :=
  modifyProc fun p ↦ { p with contractAbiImported := insert account p.contractAbiImported }

/-- `save_contract_abi_history`: a second ABI of an account in one block overwrites the
first, so modifying a row and creating it come to the same. -/
def saveContractAbiHistory (account : Name) (data : Bytes) : Receiver Abi Unit := do
  let w ← get
  modifyTables fun t ↦
    { t with contractAbiHistory := t.contractAbiHistory.insert (toLex (account, w.proc.head)) data }

/-- `clear_contract_abi` -/
def clearContractAbi (account : Name) : Receiver Abi Unit := do
  let w ← get
  if account ∈ w.proc.contractAbiImported then initContractAbiCtxt
  if (w.db.current.contractAbi.find? account).isSome then
    modifyTables fun t ↦ { t with contractAbi := t.contractAbi.erase account }
    publish (.abiRemoval
      { blockNum := w.proc.head, blockTimestamp := w.proc.blockHeader.timestamp, account })
    saveContractAbiHistory account []

/-- The handler in `save_contract_abi` for whatever its `try` block throws. -/
def publishAbiError (account : Name) (error : String) : Receiver Abi Unit := do
  let w ← get
  publish (.abiError
    { blockNum := w.proc.head, blockTimestamp := w.proc.blockHeader.timestamp, account, error })

/-- The end of the `try` block of `save_contract_abi`. -/
def publishAbiUpdate (account : Name) (data : Bytes) : Receiver Abi Unit := do
  let w ← get
  if w.options.subscribers.abiUpdates then
    match lib.fromBin data with
    | .error what => publishAbiError account what
    | .ok _ => publish (.abiUpdate
        { blockNum := w.proc.head, blockTimestamp := w.proc.blockHeader.timestamp, account,
          binary := data })

/-- The `try` block of `save_contract_abi`, with its handler. -/
def tryContractAbi (account : Name) (data : Bytes) : Receiver Abi Unit := do
  if ← abieosSetAbiBin lib account data then
    contractAbiImportedInsert account
    modifyTables fun t ↦ { t with contractAbi := t.contractAbi.insert account data }
    publishAbiUpdate lib account data
  else
    publishAbiError account (lib.getError data)

/-- `save_contract_abi`.  The history row is written after the handler, for valid and
invalid bytes alike. -/
def saveContractAbi (account : Name) (data : Bytes) : Receiver Abi Unit := do
  let w ← get
  if account ∈ w.proc.contractAbiImported then initContractAbiCtxt
  tryContractAbi lib account data
  saveContractAbiHistory account data

/-- The order of `by_name_and_block_rev`: accounts ascending, blocks descending. -/
def revLE (x y : (Name ×ₗ Nat) × Bytes) : Prop :=
  (ofLex x.1).1 < (ofLex y.1).1 ∨ ((ofLex x.1).1 = (ofLex y.1).1 ∧ (ofLex y.1).2 ≤ (ofLex x.1).2)

instance : DecidableRel revLE := fun _ _ ↦ inferInstanceAs (Decidable (_ ∨ _))

/-- `lower_bound(account, block)` of the index `by_name_and_block_rev`: the first row that
is not before the key, whatever its account. -/
def lowerBoundRev (history : Table (Name ×ₗ Nat) Bytes) (account block : Nat) :
    Option ((Name ×ₗ Nat) × Bytes) :=
  (history.rows.insertionSort revLE).find? fun row ↦
    decide (revLE (toLex (account, block), []) row)

/-- Load an ABI found in the database into the context; the answer of the library is
ignored. -/
def importContractAbi (account : Name) (data : Bytes) : Receiver Abi Bool := do
  let _ ← abieosSetAbiBin lib account data
  contractAbiImportedInsert account
  return true

/-- `get_contract_abi_ready`, without the record of its outcome. -/
def loadContractAbi (account : Name) : Receiver Abi Bool := do
  let w ← get
  if account ∈ w.proc.contractAbiImported then
    return true
  else if w.options.interactiveMode then
    match lowerBoundRev w.db.current.contractAbiHistory account w.proc.head with
    | some row => importContractAbi lib account row.2
    | none => return false
  else
    match w.db.current.contractAbi.find? account with
    | some data => importContractAbi lib account data
    | none => return false

/-- `get_contract_abi_ready` -/
def getContractAbiReady (account : Name) : Receiver Abi Bool := do
  let ready ← loadContractAbi lib account
  let w ← get
  observe (.abiReady account w.proc.head (w.proc.contractAbiCtxt.find? account))
  return ready

end Chronicle
