import Chronicle.Model.Process

/-!
# Portable snapshots

`write_snapshot` and `read_snapshot`, with the rows of `chronicle_portable_state`.

A file is what reading it yields: its magic number, its version, and its rows, each of
them `Parsed`.  The packed form of a row is the business of `fc::raw`.
-/

namespace Chronicle

open Store

variable {Abi : Type}

/-! ## Portable state -/

namespace PortableState

/-- `MIN_VERSION_SUPPORTED` -/
def minVersionSupported : Nat := 0

/-- `MAX_VERSION_SUPPORTED` -/
def maxVersionSupported : Nat := 0

/-- `CURRENT_VERSION` -/
def currentVersion : Nat := 0

/-- `MAGIC_NUMBER` -/
def magicNumber : Nat := 0x67c7d12ce9fc56c1

end PortableState

/-- `portable_format_version` -/
structure PortableFormatVersion where
  formatVersion : Nat
  chronicleVersion : String

/-- The alternatives of `row` that are objects of the database. -/
inductive PortableObject where
  /-- `state_object_v0` -/
  | state (entry : StateObject)
  /-- `received_block_object_v0` -/
  | receivedBlock (blockIndex : Nat) (blockId : Checksum256)
  /-- `contract_abi_object_v0` -/
  | contractAbi (account : Name) (abi : Bytes)
  /-- `contract_abi_history_v0` -/
  | contractAbiHistory (account : Name) (blockIndex : Nat) (abi : Bytes)
deriving DecidableEq

/-- `row` -/
inductive PortableRow where
  | object (o : PortableObject)
  /-- `stream_end_v0` -/
  | streamEnd (magicNumber : Nat)
deriving DecidableEq

/-- A snapshot file, as far as it is unpacked. -/
structure SnapshotFile where
  magicNumber : Nat
  version : Parsed PortableFormatVersion
  rows : List (Parsed PortableRow)
  /-- What unpacking one more row throws after the last one. -/
  endOfFile : String

/-! ## Writing -/

/-- The rows of `contract_abi_index` that are written. -/
def contractAbiRows (t : Table Name Bytes) : List PortableObject :=
  (t.rows.filter fun r ↦ 0 < r.2.length).map fun r ↦ .contractAbi r.1 r.2

/-- The rows of `contract_abi_hist_index` that are written. -/
def contractAbiHistoryRows (t : Table (Name ×ₗ Nat) Bytes) : List PortableObject :=
  (t.rows.filter fun r ↦ 0 < r.2.length).map fun r ↦
    .contractAbiHistory (ofLex r.1).1 (ofLex r.1).2 r.2

/-- The rows of `received_block_index` -/
def receivedBlockRows (t : Table Nat Checksum256) : List PortableObject :=
  t.rows.map fun r ↦ .receivedBlock r.1 r.2

/-- `write_snapshot`: the file that is written, by a program of the given version. -/
def writeSnapshot (versionString endOfFile : String) : Receiver Abi SnapshotFile := do
  let _ ← revertUncommittedRevisions
  let w ← get
  let t := w.db.current
  match t.state with
  | none => throw (.exception "The chronicle database does not have a valid state")
  | some entry =>
    let objects := .state entry :: receivedBlockRows t.receivedBlocks ++
      contractAbiRows t.contractAbi ++ contractAbiHistoryRows t.contractAbiHistory
    return { magicNumber := PortableState.magicNumber
             version := .ok ⟨PortableState.currentVersion, versionString⟩
             rows := objects.map (fun o ↦ .ok (.object o)) ++
               [.ok (.streamEnd PortableState.magicNumber)]
             endOfFile }

/-! ## Reading -/

/-- The indexes of the state database with all rows that they can hold: nothing but the id
is unique in `state_index`. -/
structure StoredTables where
  /-- `state_index`, by `id` -/
  states : List StateObject
  receivedBlocks : Table Nat Checksum256
  contractAbi : Table Name Bytes
  contractAbiHistory : Table (Name ×ₗ Nat) Bytes

namespace StoredTables

/-- The indexes of a database that was just created. -/
def empty : StoredTables := ⟨[], ∅, ∅, ∅⟩

instance : EmptyCollection StoredTables := ⟨empty⟩

/-- What a receiver sees of the indexes: it only looks at the first row of `state_index`. -/
def tables (t : StoredTables) : Tables :=
  ⟨t.states.head?, t.receivedBlocks, t.contractAbi, t.contractAbiHistory⟩

/-- `create`, unless the key of the object is taken in its index. -/
def create (t : StoredTables) : PortableObject → Option StoredTables
  | .state entry => some { t with states := t.states ++ [entry] }
  | .receivedBlock blockIndex blockId =>
    (t.receivedBlocks.create blockIndex blockId).map fun rows ↦ { t with receivedBlocks := rows }
  | .contractAbi account abi =>
    (t.contractAbi.create account abi).map fun rows ↦ { t with contractAbi := rows }
  | .contractAbiHistory account blockIndex abi =>
    (t.contractAbiHistory.create (toLex (account, blockIndex)) abi).map fun rows ↦
      { t with contractAbiHistory := rows }

end StoredTables

/-- What reads a snapshot into the database.  An exception leaves the database as it is at
the throw. -/
abbrev SnapshotReader := EStateM String StoredTables

/-- `fc::raw::unpack` -/
def unpack {α : Type} : Parsed α → SnapshotReader α
  | .ok a => pure a
  | .error what => throw what

/-- `create` of the database. -/
def createObject (o : PortableObject) : SnapshotReader Unit := do
  match (← get).create o with
  | none => throw "could not insert object, most likely a uniqueness constraint was violated"
  | some t => set t

/-- The body of the loop over the rows: whether the stream has ended. -/
def readRow : PortableRow → SnapshotReader Bool
  | .object o => do
    createObject o
    return false
  | .streamEnd magicNumber =>
    if magicNumber = PortableState.magicNumber then return true
    else throw "Invalid magic number at rthe end of the stream. Aborting"

/-- The loop over the rows. -/
def readRows (endOfFile : String) : List (Parsed PortableRow) → SnapshotReader Unit
  | [] => throw endOfFile
  | row :: rest => do
    let row ← unpack row
    let streamEnded ← readRow row
    if streamEnded then return () else readRows endOfFile rest

/-- `read_snapshot` -/
def readSnapshot (file : SnapshotFile) : SnapshotReader Unit := do
  if file.magicNumber ≠ PortableState.magicNumber then
    throw "Invalid snapshot file: wrong magic number"
  let version ← unpack file.version
  if version.formatVersion < PortableState.minVersionSupported ∨
      PortableState.maxVersionSupported < version.formatVersion then
    throw "Unsupported snapshot format version"
  if (← get).states ≠ [] then
    throw "The chronicle database contains a valid state. Aborting"
  readRows file.endOfFile file.rows

end Chronicle
