import Chronicle.Exporter.Sender
import Chronicle.Logic.Effect
import Chronicle.Logic.JsonWriter
import Chronicle.Model.ContractAbi
import Mathlib.Data.String.Basic

/-!
# The JSON encoder

`native_to_json` tells a writer of a value of the state history protocol, and `decoder_plugin`
publishes what was written.  The data of an action and the value of a table row are decoded by
`abieos`; what cannot be decoded is written in hexadecimal, and the error is noted.
-/

namespace Chronicle.Decoder

open JsonText (Call ascii)

/-! ## Libraries -/

/-- What the encoder uses of other libraries, `abieos_context` apart. -/
structure Libraries where
  /-- What is in the buffer of a `Writer` after these calls. -/
  write : List Call → Bytes
  /-- `fc::to_hex` -/
  toHex : Bytes → Bytes
  /-- `name_to_string`, for which `abieos_name_to_string` and the conversion to `string` stand
  too. -/
  nameToString : Name → Bytes
  microsecondsToStr : Int → Bytes
  /-- `to_string` of a `transaction_status` -/
  transactionStatus : UInt8 → Bytes
  publicKeyToString : Bytes → Bytes
  signatureToString : Bytes → Bytes

/-- The calls that decode with an ABI.  What they do may depend on all that happened before, which
`σ` stands for. -/
structure AbiDecoder (σ : Type) where
  getContractAbiCtxt : Name → σ → σ
  getTypeForAction : Name → Name → σ → Option Bytes × σ
  getTypeForTable : Name → Name → σ → Option Bytes × σ
  binToJson : Name → Bytes → Bytes → σ → Option Bytes × σ
  getError : σ → Bytes

/-! ## Values -/

/-- An `input_stream`, whose length was read as a `varuint32`. -/
structure InputStream where
  bytes : Bytes
  size_lt : bytes.length < 2 ^ 32

/-- The values that are written as one string. -/
inductive Leaf where
  | string (str : Bytes)
  | optionalString (str : Option Bytes)
  /-- The integer types, and `varuint32`. -/
  | integer (v : Int)
  | bool (obj : Bool)
  | forkReasonVal (obj : ForkReason)
  | checksum256 (obj : Bytes)
  | transactionStatus (obj : UInt8)
  | name (obj : Name)
  | inputStream (obj : InputStream)
  /-- A `time_point` or a `block_timestamp`, in microseconds. -/
  | timePoint (elapsed : Int)
  | publicKey (obj : Bytes)
  | signature (obj : Bytes)

/-- The values that `native_to_json` has overloads for. -/
inductive Native where
  | leaf (obj : Leaf)
  | vector (obj : List Native)
  | optional (obj : Option Native)
  | pair (first second : Native)
  /-- A variant, `might_not_exist` or `recurse_transaction_trace`: only what is in it is
  written.  The overloads for variants have a branch for each alternative. -/
  | variant (obj : Native)
  | action (account name : Name) (data : InputStream) (fields : List (Bytes × Native))
  | contractRowV0 (code table : Name) (value : InputStream) (fields : List (Bytes × Native))
  /-- Any other class, with its reflected fields. -/
  | object (fields : List (Bytes × Native))

/-- `to_string` of a `fork_reason_val` -/
def forkReasonText : ForkReason → String
  | .network => "network"
  | .restart => "restart"
  | .resync => "resync"

/-- The string that is written for a value. -/
def Leaf.text (lib : Libraries) : Leaf → Bytes
  | string str => str
  | optionalString str => str.getD []
  | integer v => ascii (toString v)
  | bool obj => ascii (if obj then "true" else "false")
  | forkReasonVal obj => ascii (forkReasonText obj)
  | checksum256 obj => lib.toHex obj
  | transactionStatus obj => lib.transactionStatus obj
  | name obj => lib.nameToString obj
  | inputStream obj => lib.toHex obj.bytes
  | timePoint elapsed => lib.microsecondsToStr elapsed
  | publicKey obj => lib.publicKeyToString obj
  | signature obj => lib.signatureToString obj

/-! ## What is decoded with an ABI -/

inductive PayloadKind where
  | actionData
  | tableRow
deriving DecidableEq

/-- The field of an action or of a row that is decoded. -/
def PayloadKind.field : PayloadKind → Bytes
  | actionData => ascii "data"
  | tableRow => ascii "value"

/-- How an error begins. -/
def PayloadKind.error : PayloadKind → Bytes
  | actionData => ascii "Cannot decode action data for "
  | tableRow => ascii "Cannot decode table row for "

/-- The data of an action, or the value of a row of a table. -/
structure Payload where
  kind : PayloadKind
  account : Name
  name : Name
  data : InputStream

/-- `native_to_json_state`, and what the ABI decoder depends on.  Of the writer the calls are kept
since it was reset. -/
structure NativeToJsonState (σ : Type) where
  writer : List Call := []
  encoderErrors : Option (List Bytes)
  abieos : σ

namespace NativeToJsonState

variable {σ : Type}

/-- A call of the writer. -/
def emit (st : NativeToJsonState σ) (c : Call) : NativeToJsonState σ :=
  { st with writer := st.writer ++ [c] }

/-- `emplace_back`, if errors are collected. -/
def note (st : NativeToJsonState σ) (error : Bytes) : NativeToJsonState σ :=
  { st with encoderErrors := st.encoderErrors.map (· ++ [error]) }

end NativeToJsonState

section Encoder

variable {σ : Type} (lib : Libraries) (dec : AbiDecoder σ)

def AbiDecoder.getType : PayloadKind → Name → Name → σ → Option Bytes × σ
  | .actionData => dec.getTypeForAction
  | .tableRow => dec.getTypeForTable

/-- The `try` block: the JSON text, or the text of the exception. -/
def AbiDecoder.decode (p : Payload) (s : σ) : Except Bytes Bytes × σ :=
  let (found, s) := dec.getType p.kind p.account p.name (dec.getContractAbiCtxt p.account s)
  let (datajs, s) := dec.binToJson p.account (found.getD (lib.nameToString p.name)) p.data.bytes s
  (datajs.elim (.error (dec.getError s)) .ok, s)

/-- The error that is noted. -/
def Payload.message (p : Payload) (what : Bytes) : Bytes :=
  p.kind.error ++ lib.nameToString p.account ++ ascii ": " ++ lib.nameToString p.name ++
    ascii " - " ++ what

def leafToJson (obj : Leaf) (st : NativeToJsonState σ) : NativeToJsonState σ :=
  st.emit (.string (obj.text lib))

/-- The field that is decoded. -/
def payloadToJson (p : Payload) (st : NativeToJsonState σ) : NativeToJsonState σ :=
  let (result, s) := dec.decode lib p st.abieos
  let st := { st with abieos := s }
  match result with
  | .ok datajs => st.emit (.raw datajs)
  | .error what => leafToJson lib (.inputStream p.data) (st.note (p.message lib what))

mutual

/-- `native_to_json` -/
def nativeToJson : Native → NativeToJsonState σ → NativeToJsonState σ
  | .leaf obj, st => leafToJson lib obj st
  | .vector obj, st => (vectorToJson obj (st.emit .startArray)).emit .endArray
  | .optional none, st => st.emit .null
  | .optional (some obj), st => nativeToJson obj st
  | .pair first second, st =>
    (nativeToJson second (nativeToJson first (st.emit .startArray))).emit .endArray
  | .variant obj, st => nativeToJson obj st
  | .action account name data fields, st =>
    (fieldsToJson (some ⟨.actionData, account, name, data⟩) fields (st.emit .startObject)).emit
      .endObject
  | .contractRowV0 code table value fields, st =>
    (fieldsToJson (some ⟨.tableRow, code, table, value⟩) fields (st.emit .startObject)).emit
      .endObject
  | .object fields, st => (fieldsToJson none fields (st.emit .startObject)).emit .endObject

def vectorToJson : List Native → NativeToJsonState σ → NativeToJsonState σ
  | [], st => st
  | v :: obj, st => vectorToJson obj (nativeToJson v st)

/-- `for_each_field`, for a class that may have a field to be decoded. -/
def fieldsToJson (special : Option Payload) :
    List (Bytes × Native) → NativeToJsonState σ → NativeToJsonState σ
  | [], st => st
  | (name, member) :: fields, st =>
    fieldsToJson special fields
      (match special.filter fun p ↦ p.kind.field = name with
      | some p => payloadToJson lib dec p (st.emit (.key name))
      | none => nativeToJson member (st.emit (.key name)))

end

/-- The text of a C string. -/
def cText (s : Bytes) : Bytes := s.takeWhile (· ≠ 0)

/-- `impl_native_to_json`: the output, and the errors if they are collected. -/
def implNativeToJson (v : Native) (encoderErrors : Option (List Bytes)) (s : σ) :
    Bytes × Option (List Bytes) × σ :=
  let st := nativeToJson lib dec v { encoderErrors, abieos := s }
  (cText (lib.write st.writer), st.encoderErrors, st.abieos)

/-! ## Events -/

/-- The attributes of an error, by name. -/
abbrev Attrs := Store.Table String Bytes

/-- `report_encoder_errors` -/
def reportEncoderErrors (encoderErrors : List Bytes) (attrs : Attrs) : ExportType × Bytes :=
  (.encoderErr, cText (lib.write
    (.startObject :: (attrs.rows.flatMap fun p ↦ [.key (ascii p.1), .string (cText p.2)]) ++
      [.key (ascii "errors"), .startArray] ++ encoderErrors.map (fun err ↦ .string (cText err)) ++
      [.endArray, .endObject])))

/-- A transaction trace as the receiver publishes it. -/
structure TransactionTrace where
  blockNum : Nat
  blockTimestamp : Int
  id : Bytes
  /-- The fields of the `transaction_trace_v0`. -/
  trace : List (Bytes × Native)

def TransactionTrace.native (tr : TransactionTrace) : Native :=
  .object [(ascii "block_num", .leaf (.integer tr.blockNum)),
    (ascii "block_timestamp", .leaf (.timePoint tr.blockTimestamp)),
    (ascii "trace", .variant (.object tr.trace))]

/-- A change of a row of a contract's table. -/
structure TableRowUpdate where
  blockNum : Nat
  blockTimestamp : Int
  added : Bool
  code : Name
  scope : Name
  table : Name
  primaryKey : UInt64
  value : InputStream
  /-- The fields of the `contract_row_v0`. -/
  kvo : List (Bytes × Native)

def TableRowUpdate.native (trupd : TableRowUpdate) : Native :=
  .object [(ascii "block_num", .leaf (.integer trupd.blockNum)),
    (ascii "block_timestamp", .leaf (.timePoint trupd.blockTimestamp)),
    (ascii "added", .leaf (.bool trupd.added)),
    (ascii "kvo", .contractRowV0 trupd.code trupd.table trupd.value trupd.kvo)]

/-- Publish what was written, and the errors if there are any. -/
def publishEncoded (type : ExportType) (v : Native) (attrs : Attrs) (s : σ) :
    List (ExportType × Bytes) × σ :=
  let (output, encoderErrors, s) := implNativeToJson lib dec v (some []) s
  match encoderErrors.getD [] with
  | [] => ([(type, output)], s)
  | error :: errors => ([(type, output), reportEncoderErrors lib (error :: errors) attrs], s)

/-- `on_transaction_trace` -/
def onTransactionTrace (tr : TransactionTrace) (s : σ) : List (ExportType × Bytes) × σ :=
  publishEncoded lib dec .txTrace tr.native ((∅ : Attrs).insertAll
    [("where", ascii "transaction_trace"), ("block_num", ascii (toString tr.blockNum)),
      ("block_timestamp", lib.microsecondsToStr tr.blockTimestamp), ("trx_id", lib.toHex tr.id)]) s

/-- `on_table_row_update`.  The primary key is assigned to a string as a character. -/
def onTableRowUpdate (trupd : TableRowUpdate) (s : σ) : List (ExportType × Bytes) × σ :=
  publishEncoded lib dec .tblRow trupd.native ((∅ : Attrs).insertAll
    [("where", ascii "table_row_update"), ("block_num", ascii (toString trupd.blockNum)),
      ("block_timestamp", lib.microsecondsToStr trupd.blockTimestamp),
      ("added", ascii (if trupd.added then "true" else "false")),
      ("code", lib.nameToString trupd.code), ("scope", lib.nameToString trupd.scope),
      ("table", lib.nameToString trupd.table), ("primary_key", [trupd.primaryKey.toUInt8])]) s

end Encoder

/-! ## The receiver's part -/

section Receiver

variable {Abi : Type} (lib : Abieos Abi)

/-- `get_contract_abi_ctxt` -/
def getContractAbiCtxt (account : Name) : Receiver Abi (AbieosContext Abi) := do
  let _ ← getContractAbiReady lib account
  let w ← get
  return w.proc.contractAbiCtxt

/-- It never throws, although it is called outside of the `try` block. -/
theorem getContractAbiCtxt_returns (account : Name) (w : World Abi) :
    ∃ ctxt w', getContractAbiCtxt lib account w = .ok ctxt w' := by
  have hload : ∃ ready w', loadContractAbi lib account w = .ok ready w' := by
    change ∃ ready w', (ite _ _ _ : Receiver Abi Bool) w = .ok ready w'
    split_ifs
    · exact ⟨_, _, rfl⟩
    · cases hrow : lowerBoundRev w.db.current.contractAbiHistory account w.proc.head <;>
        exact ⟨_, _, rfl⟩
    · cases hrow : w.db.current.contractAbi.find? account <;> exact ⟨_, _, rfl⟩
  obtain ⟨ready, w', hload⟩ := hload
  have hready : ∃ w'', getContractAbiReady lib account w = .ok ready w'' := by
    rw [getContractAbiReady, Effect.bind_run hload]
    exact ⟨_, rfl⟩
  obtain ⟨w'', hready⟩ := hready
  rw [getContractAbiCtxt, Effect.bind_run hready]
  exact ⟨_, _, rfl⟩

/-- The decoder of a receiver: the context is the receiver's, and what the other calls do depends
on the context. -/
def receiverDecoder {σ : Type} (dec : AbieosContext Abi → AbiDecoder σ) :
    AbiDecoder (World Abi × σ) where
  getContractAbiCtxt account s :=
    match getContractAbiCtxt lib account s.1 with
    | .ok _ w | .error _ w => (w, s.2)
  getTypeForAction account name s :=
    ((dec s.1.proc.contractAbiCtxt).getTypeForAction account name s.2).map id (s.1, ·)
  getTypeForTable account name s :=
    ((dec s.1.proc.contractAbiCtxt).getTypeForTable account name s.2).map id (s.1, ·)
  binToJson account type data s :=
    ((dec s.1.proc.contractAbiCtxt).binToJson account type data s.2).map id (s.1, ·)
  getError s := (dec s.1.proc.contractAbiCtxt).getError s.2

end Receiver

end Chronicle.Decoder
