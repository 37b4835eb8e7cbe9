import Chronicle.Model.Objects

/-!
# The state of a receiver process

`Proc` holds the members of `receiver_plugin_impl` that a process loses when it stops, and
`World` adds what outlives it: the state database and the record of everything the
receiver did that can be seen from outside (`Observation`).

The functions of the receiver are programs of the monad `Receiver`: an exception ends
them, but leaves the state as it was at the throw, the way a C++ exception does.
-/

namespace Chronicle

open Store

variable {Abi : Type}

/-! ## ABI decoder library -/

/-- The parts of `abieos` that decide what is stored for a contract. -/
structure Abieos (Abi : Type) where
  /-- The decoded form of a serialized ABI, if it is valid. -/
  convert : Bytes → Option Abi
  /-- The answer to valid bytes for an account that has an ABI already. -/
  present : Bytes → Bool
  /-- `abieos_get_error` after invalid bytes. -/
  getError : Bytes → String
  /-- `from_bin` of the `abi_def` for the ABI_UPD event. -/
  fromBin : Bytes → Parsed Unit

/-- The contracts of an `abieos_context`. -/
abbrev AbieosContext (Abi : Type) := Table Name Abi

/-- `abieos_set_abi_bin`: valid bytes are stored, unless the account has an ABI already. -/
def Abieos.setAbiBin (lib : Abieos Abi) (ctxt : AbieosContext Abi) (account : Name)
    (data : Bytes) : Bool × AbieosContext Abi :=
  match lib.convert data with
  | none => (false, ctxt)
  | some abi =>
    if (ctxt.find? account).isSome then (lib.present data, ctxt)
    else (true, ctxt.insert account abi)

/-! ## Process and world -/

/-- The one asynchronous operation of the reader that is under way. -/
inductive Continuation where
  /-- The first message of the stream, with the ABI of the protocol. -/
  | handshake
  /-- A result of the state history protocol. -/
  | reading
  /-- The pause timer. -/
  | paused
  /-- None: the reader has stopped. -/
  | closed
  /-- A handler never returns. -/
  | hung
deriving DecidableEq, Repr

/-- The members of `receiver_plugin_impl`. -/
structure Proc (Abi : Type) where
  aborting : Bool := false
  receiverReady : Bool := false
  continuation : Continuation := .handshake
  interactiveReqQueue : List InteractiveRequest := []
  interactiveReqPending : Bool := false
  endBlockNum : Nat := Uint32.max
  head : Nat := 0
  headId : Checksum256 := 0
  irreversible : Nat := 0
  irreversibleId : Checksum256 := 0
  blockHeader : BlockHeader := {}
  trxCount : Nat := 0
  receivedBlocks : Nat := 0
  contractAbiCtxt : AbieosContext Abi := ∅
  contractAbiImported : Finset Name := ∅
  exporterAckedBlock : Nat := 0
  forkedAtBlock : Nat := 0
  pauseTimeMsec : Nat := 0
  slowdownRequested : Bool := false
  staleCheckLastHead : Nat := 0

/-- A `get_blocks_request_v0` -/
structure GetBlocksRequest where
  startBlockNum : Nat
  endBlockNum : Nat
  havePositions : List BlockPosition
  irreversibleOnly : Bool
  fetchBlock : Bool
  fetchTraces : Bool
  fetchDeltas : Bool

/-- What the receiver does to its surroundings. -/
inductive Observation (Abi : Type) where
  /-- An event on a channel. -/
  | published (e : Event)
  /-- A request on the websocket. -/
  | requested (r : GetBlocksRequest)
  /-- A revision of the database that was kept, with the tables it ends in. -/
  | pushed (tables : Tables)
  /-- A call of `commit` with a revision. -/
  | committed (revision : Nat)
  /-- A call of `abieos_set_abi_bin`, and whether the account had an ABI already. -/
  | setAbiBin (account : Name) (present : Bool)
  /-- The end of a call of `get_contract_abi_ready`: the head, and the ABI that the context
  then holds for the account. -/
  | abiReady (account : Name) (head : Nat) (abi : Option Abi)

structure World (Abi : Type) where
  options : Options := {}
  proc : Proc Abi := {}
  db : Undo Tables := ⟨0, ∅, []⟩
  log : List (Observation Abi) := []

/-- Why a function of the receiver does not return. -/
inductive Abort where
  | exception (what : String)
  /-- A loop without end. -/
  | hang
  /-- Undefined behaviour of the language. -/
  | undefinedBehaviour
deriving DecidableEq, Repr

abbrev Receiver (Abi : Type) := EStateM Abort (World Abi)

/-! ## Elementary steps -/

def modifyProc (f : Proc Abi → Proc Abi) : Receiver Abi Unit :=
  modify fun w ↦ { w with proc := f w.proc }

def modifyTables (f : Tables → Tables) : Receiver Abi Unit :=
  modify fun w ↦ { w with db := w.db.modify f }

def observe (o : Observation Abi) : Receiver Abi Unit :=
  modify fun w ↦ { w with log := w.log ++ [o] }

def publish (e : Event) : Receiver Abi Unit := observe (.published e)

/-- Unpack a part of a message. -/
def fromBin {α : Type} : Parsed α → Receiver Abi α
  | .ok a => pure a
  | .error what => throw (.exception what)

/-- The published events of a record, in order. -/
def published (log : List (Observation Abi)) : List Event :=
  log.filterMap fun
    | .published e => some e
    | _ => none

/-- The tables of the revisions kept in a record, in order. -/
def pushed (log : List (Observation Abi)) : List Tables :=
  log.filterMap fun
    | .pushed t => some t
    | _ => none

/-- The revisions committed in a record, in order. -/
def committed (log : List (Observation Abi)) : List Nat :=
  log.filterMap fun
    | .committed r => some r
    | _ => none

@[simp] theorem published_append (l₁ l₂ : List (Observation Abi)) :
    published (l₁ ++ l₂) = published l₁ ++ published l₂ := List.filterMap_append

@[simp] theorem pushed_append (l₁ l₂ : List (Observation Abi)) :
    pushed (l₁ ++ l₂) = pushed l₁ ++ pushed l₂ := List.filterMap_append

@[simp] theorem committed_append (l₁ l₂ : List (Observation Abi)) :
    committed (l₁ ++ l₂) = committed l₁ ++ committed l₂ := List.filterMap_append

theorem committed_eq_nil {l : List (Observation Abi)} (h : ∀ n, Observation.committed n ∉ l) :
    committed l = [] := by
  refine List.filterMap_eq_nil_iff.mpr fun o ho ↦ ?_
  cases o with
  | committed n => exact absurd ho (h n)
  | _ => rfl

/-- The events that an input has added to the record. -/
def newEvents (w w' : World Abi) : List Event :=
  (published w'.log).drop (published w.log).length

theorem newEvents_eq {w w' : World Abi} {es : List Event}
    (h : published w'.log = published w.log ++ es) : newEvents w w' = es := by
  rw [newEvents, h, List.drop_left]

end Chronicle
