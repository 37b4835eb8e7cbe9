import Chronicle.Store.Table
import Chronicle.Store.Undo
import Mathlib.Data.Finset.Insert

/-!
# The data of the receiver

The tables of the state database, the results of the state history protocol as far as
`receiver_plugin` reads them, and the events it publishes on its channels.

Block numbers and account names are natural numbers: they are only compared, apart from
the few places where the source subtracts one from an unsigned number (`Uint32.pred`,
`Uint32.sub`).  A part of a message that has to be unpacked is `Parsed`: either its value
or the text of the exception that unpacking it throws.
-/

namespace Chronicle

open Store

/-- The value of an EOSIO account name. -/
abbrev Name := Nat

abbrev Checksum256 := BitVec 256

abbrev Bytes := List UInt8

abbrev BlockTimestamp := Nat

/-- What unpacking a part of a message yields: its value, or the text of an exception. -/
abbrev Parsed (α : Type) := Except String α

namespace Uint32

/-- `UINT32_MAX` -/
def max : Nat := 2 ^ 32 - 1

/-- `n - 1` on `uint32_t` -/
def pred (n : Nat) : Nat := if n = 0 then max else n - 1

/-- `a - b` on `uint32_t` -/
def sub (a b : Nat) : Nat := if b ≤ a then a - b else a + 2 ^ 32 - b

@[simp] theorem pred_succ (n : Nat) : pred (n + 1) = n := rfl

theorem pred_of_pos {n : Nat} (h : 0 < n) : pred n = n - 1 := if_neg (Nat.ne_of_gt h)

end Uint32

/-! ## State database -/

/-- `state_object`: the singleton that keeps the state of the receiver. -/
structure StateObject where
  head : Nat
  headId : Checksum256
  irreversible : Nat
  irreversibleId : Checksum256
deriving DecidableEq, Repr

/-- The four indexes of the state database.  The singleton table is its only row. -/
structure Tables where
  /-- `state_index` -/
  state : Option StateObject
  /-- `received_block_index`, by `block_index` -/
  receivedBlocks : Table Nat Checksum256
  /-- `contract_abi_index`, by `account` -/
  contractAbi : Table Name Bytes
  /-- `contract_abi_hist_index`, by `account` and `block_index` -/
  contractAbiHistory : Table (Name ×ₗ Nat) Bytes

namespace Tables

/-- The tables of a database that was just created. -/
def empty : Tables := ⟨none, ∅, ∅, ∅⟩

instance : EmptyCollection Tables := ⟨empty⟩

end Tables

/-! ## Results of the state history protocol -/

structure BlockPosition where
  blockNum : Nat
  blockId : Checksum256
deriving DecidableEq, Repr

/-- `block_header`, with the fields that are exported. -/
structure BlockHeader where
  timestamp : BlockTimestamp := 0
  producer : Name := 0
  previous : Checksum256 := 0
  transactionMroot : Checksum256 := 0
  actionMroot : Checksum256 := 0
deriving DecidableEq, Repr

/-- `signed_block`, with the number of its transactions in place of the transactions. -/
structure SignedBlock extends BlockHeader where
  transactions : Nat := 0
deriving DecidableEq, Repr

/-- `account_v0` -/
structure AccountV0 where
  name : Name
  abi : Bytes

/-- `contract_row_v0` -/
structure ContractRowV0 where
  code : Name
  table : Name
  value : Bytes

/-- A row of a table delta.  `variant` is what reading its variant index gives, and `data`
what unpacking the rest gives. -/
structure Row (α : Type) where
  present : Bool
  variant : Parsed Unit := .ok ()
  data : Parsed α

/-- `table_delta_v0`, by the name of the table. -/
inductive TableDelta where
  | account (rows : List (Row AccountV0))
  | contractRow (rows : List (Row ContractRowV0))
  | permission (rows : List (Row Bytes))
  | permissionLink (rows : List (Row Bytes))
  | accountMetadata (rows : List (Row Bytes))
  | other (name : String)

/-- `action`, with the actors of its authorizations. -/
structure Action where
  account : Name
  name : Name
  authorization : List Name

/-- `action_trace_v0` or `action_trace_v1` -/
inductive ActionTrace where
  | v0 (receiver : Name) (act : Action)
  | v1 (receiver : Name) (act : Action)

/-- `transaction_trace_v0` -/
structure TransactionTrace where
  id : Checksum256
  actionTraces : List ActionTrace

/-- `get_blocks_result_v0` -/
structure GetBlocksResult where
  lastIrreversible : BlockPosition
  thisBlock : Option BlockPosition
  prevBlock : Option BlockPosition := none
  block : Option (Parsed SignedBlock) := none
  traces : Option (List (Parsed TransactionTrace)) := none
  deltas : Option (List (Parsed TableDelta)) := none

/-! ## Channels -/

/-- `fork_reason_val` -/
inductive ForkReason where
  | network
  | restart
  | resync
deriving DecidableEq, Repr

structure ForkEvent where
  blockNum : Nat
  depth : Nat
  forkReason : ForkReason
  lastIrreversible : Nat
deriving DecidableEq, Repr

/-- `block_begins` -/
structure BlockBegins where
  blockNum : Nat
  blockId : Checksum256
  blockTimestamp : BlockTimestamp
  lastIrreversible : Nat

/-- The event of the `blocks` channel. -/
structure BlockEvent where
  blockNum : Nat
  blockId : Checksum256
  lastIrreversible : Nat
  block : SignedBlock

structure BlockTableDelta where
  blockNum : Nat
  blockTimestamp : BlockTimestamp
  tableDelta : TableDelta

structure TraceEvent where
  blockNum : Nat
  blockTimestamp : BlockTimestamp
  trace : TransactionTrace

/-- `abi_update`; the decoded ABI is a function of `binary`. -/
structure AbiUpdate where
  blockNum : Nat
  blockTimestamp : BlockTimestamp
  account : Name
  binary : Bytes

structure AbiRemoval where
  blockNum : Nat
  blockTimestamp : BlockTimestamp
  account : Name

structure AbiError where
  blockNum : Nat
  blockTimestamp : BlockTimestamp
  account : Name
  error : String

structure TableRowUpdate where
  blockNum : Nat
  blockTimestamp : BlockTimestamp
  added : Bool
  kvo : ContractRowV0

/-- `permission_update`, `permission_link_update` and `account_metadata_update` (which has no
`added` and leaves it `true`). -/
structure AccountInfoUpdate where
  blockNum : Nat
  blockTimestamp : BlockTimestamp
  added : Bool
  data : Bytes

structure ReceiverPause where
  head : Nat
  acknowledged : Nat

/-- `block_finished` -/
structure BlockFinished where
  blockNum : Nat
  blockId : Checksum256
  blockTimestamp : BlockTimestamp
  producer : Name
  previous : Checksum256
  transactionMroot : Checksum256
  actionMroot : Checksum256
  trxCount : Nat
  lastIrreversible : Nat

/-- What is published on the channels of the receiver. -/
inductive Event where
  | fork (e : ForkEvent)
  | blockStarted (e : BlockBegins)
  | block (e : BlockEvent)
  | blockTableDelta (e : BlockTableDelta)
  | transactionTrace (e : TraceEvent)
  | abiUpdate (e : AbiUpdate)
  | abiRemoval (e : AbiRemoval)
  | abiError (e : AbiError)
  | tableRowUpdate (e : TableRowUpdate)
  | permissionUpdate (e : AccountInfoUpdate)
  | permissionLinkUpdate (e : AccountInfoUpdate)
  | accountMetadataUpdate (e : AccountInfoUpdate)
  | receiverPause (e : ReceiverPause)
  | blockCompleted (e : BlockFinished)

/-! ## Configuration -/

/-- Which channels have subscribers. -/
structure Subscribers where
  blockStarted : Bool := true
  blockTableDeltas : Bool := false
  transactionTraces : Bool := true
  abiUpdates : Bool := true
  abiErrors : Bool := true
  tableRowUpdates : Bool := true
  permissionUpdates : Bool := true
  permissionLinkUpdates : Bool := true
  accountMetadataUpdates : Bool := true

theorem ack_scan_of_no_ack {interactive noexport : Bool} :
    false = true → interactive = false ∧ noexport = false := nofun

theorem ack_scan_of_scan {ack : Bool} : ack = true → false = false ∧ false = false :=
  fun _ ↦ ⟨rfl, rfl⟩

/-- The options of a process, and what its exporter has announced before the start.  An
exporter that acknowledges is refused outside of scan mode with export, so there is no
value for it. -/
structure Options where
  interactiveMode : Bool := false
  noexportMode : Bool := false
  skipBlockEvents : Bool := false
  skipTableDeltas : Bool := false
  skipTraces : Bool := false
  skipAccountInfo : Bool := false
  irreversibleOnly : Bool := false
  startBlockNum : Nat := 0
  endBlockNum : Nat := Uint32.max
  maxQueueSize : Nat := 10000
  enableRcvrFilter : Bool := false
  rcvrFilter : List Name := []
  enableAuthFilter : Bool := false
  authFilter : List Name := []
  doTraceBlacklist : Bool := false
  blacklistActions : List (Name × Name) := []
  enableTablesFilter : Bool := false
  tablesFilter : List Name := []
  enableTablesBlacklist : Bool := false
  tablesBlacklist : List Name := []
  subscribers : Subscribers := {}
  exporterWillAck : Bool := false
  exporterMaxUnconfirmed : Nat := 1000
  ack_scan : exporterWillAck = true → interactiveMode = false ∧ noexportMode = false := by
    first | exact ack_scan_of_no_ack | exact ack_scan_of_scan

/-- In interactive mode there are no acknowledgements. -/
theorem Options.exporterWillAck_eq_false {o : Options} (hmode : o.interactiveMode = true) :
    o.exporterWillAck = false := by
  cases hack : o.exporterWillAck with
  | false => rfl
  | true => exact absurd ((o.ack_scan hack).1.symm.trans hmode) Bool.false_ne_true

/-- `interactive_request` -/
structure InteractiveRequest where
  blockNumStart : Nat
  blockNumEnd : Nat
deriving DecidableEq, Repr

end Chronicle
