import Chronicle.Decoder.NativeToJson
import Mathlib.Data.List.DropRight

/-!
# Decoding failures and the JSON that is published

`describe` says which document a value is: the JSON of the decoder stands for what could be
decoded, and hexadecimal digits for what could not.  The encoder tells the writer of that document
and collects the errors of the decodings that failed, in order.
-/

namespace Chronicle.Decoder

open JsonText (Call Doc Denotes Writes ascii)

variable {σ : Type}

/-! ## The document -/

/-- The lower-case hexadecimal digits of bytes. -/
def lowerHex (bs : Bytes) : Bytes :=
  bs.flatMap fun b ↦ [b / 16, b % 16].map fun n ↦ ((ascii "0123456789abcdef")[n.toNat]?).getD 0

/-- An attempt to decode, and what came of it. -/
structure Decoding where
  payload : Payload
  result : Except Bytes Bytes

namespace Decoding

/-- What is written for the payload. -/
def doc (d : Decoding) : Doc :=
  match d.result with
  | .ok datajs => .raw datajs
  | .error _ => .string (lowerHex d.payload.data.bytes)

/-- The error of a decoding that fell back to hexadecimal digits. -/
def error? (lib : Libraries) (d : Decoding) : Option Bytes :=
  match d.result with
  | .ok _ => none
  | .error what => some (d.payload.message lib what)

/-- The JSON of a decoding that succeeded. -/
def text? (d : Decoding) : Option Bytes :=
  match d.result with
  | .ok datajs => some datajs
  | .error _ => none

def fellBack (lib : Libraries) (d : Decoding) : Bool := (d.error? lib).isSome

end Decoding

/-- A part of a document, the decodings that it took, and what the decoder depends on after
them. -/
structure Described (σ α : Type) where
  value : α
  decodings : List Decoding
  abieos : σ

section Describe

variable (lib : Libraries) (dec : AbiDecoder σ)

/-- Decode a payload. -/
def describePayload (p : Payload) (s : σ) : Described σ Doc :=
  let d : Decoding := ⟨p, (dec.decode lib p s).1⟩
  ⟨d.doc, [d], (dec.decode lib p s).2⟩

mutual

/-- The document that a value is. -/
def describe : Native → σ → Described σ Doc
  | .leaf obj, s => ⟨.string (obj.text lib), [], s⟩
  | .vector obj, s =>
    let x := describeAll obj s
    ⟨.array x.value, x.decodings, x.abieos⟩
  | .optional none, s => ⟨.null, [], s⟩
  | .optional (some obj), s => describe obj s
  | .pair first second, s =>
    let x := describe first s
    let y := describe second x.abieos
    ⟨.array [x.value, y.value], x.decodings ++ y.decodings, y.abieos⟩
  | .variant obj, s => describe obj s
  | .action account name data fields, s =>
    let x := describeFields (some ⟨.actionData, account, name, data⟩) fields s
    ⟨.object x.value, x.decodings, x.abieos⟩
  | .contractRowV0 code table value fields, s =>
    let x := describeFields (some ⟨.tableRow, code, table, value⟩) fields s
    ⟨.object x.value, x.decodings, x.abieos⟩
  | .object fields, s =>
    let x := describeFields none fields s
    ⟨.object x.value, x.decodings, x.abieos⟩

def describeAll : List Native → σ → Described σ (List Doc)
  | [], s => ⟨[], [], s⟩
  | v :: obj, s =>
    let x := describe v s
    let y := describeAll obj x.abieos
    ⟨x.value :: y.value, x.decodings ++ y.decodings, y.abieos⟩

/-- The members of an object; the one of a payload is decoded. -/
def describeFields (special : Option Payload) :
    List (Bytes × Native) → σ → Described σ (List (Bytes × Doc))
  | [], s => ⟨[], [], s⟩
  | (name, member) :: fields, s =>
    let x := match special.filter fun p ↦ p.kind.field = name with
      | some p => describePayload lib dec p s
      | none => describe member s
    let y := describeFields special fields x.abieos
    ⟨(name, x.value) :: y.value, x.decodings ++ y.decodings, y.abieos⟩

end

end Describe

mutual

/-- The payloads in a value, in order. -/
def Native.payloads : Native → List Payload
  | .leaf _ | .optional none => []
  | .vector obj => vectorPayloads obj
  | .optional (some obj) => obj.payloads
  | .pair first second => first.payloads ++ second.payloads
  | .variant obj => obj.payloads
  | .action account name data fields =>
    fieldPayloads (some ⟨.actionData, account, name, data⟩) fields
  | .contractRowV0 code table value fields =>
    fieldPayloads (some ⟨.tableRow, code, table, value⟩) fields
  | .object fields => fieldPayloads none fields

def vectorPayloads : List Native → List Payload
  | [] => []
  | v :: obj => v.payloads ++ vectorPayloads obj

def fieldPayloads (special : Option Payload) : List (Bytes × Native) → List Payload
  | [] => []
  | (name, member) :: fields =>
    (match special.filter fun p ↦ p.kind.field = name with
      | some p => [p]
      | none => member.payloads) ++ fieldPayloads special fields

end

/-! ## The encoder and the document -/

/-- What the other libraries are documented to do. -/
structure Libraries.Documented (lib : Libraries) (holds : Bytes → Prop) : Prop where
  writes : Writes holds lib.write
  toHex : ∀ bs, bs.length < 2 ^ 32 → lib.toHex bs = lowerHex bs

/-- `abieos_bin_to_json` returns null or well-formed JSON. -/
def AbiDecoder.YieldsJson (dec : AbiDecoder σ) (holds : Bytes → Prop) : Prop :=
  ∀ account type data s datajs, (dec.binToJson account type data s).1 = some datajs →
    ∃ t, Denotes holds datajs t

section Encoder

variable {lib : Libraries} {dec : AbiDecoder σ} {holds : Bytes → Prop}

/-- The state of the encoder after calls of the writer and decodings. -/
def NativeToJsonState.after (lib : Libraries) (st : NativeToJsonState σ) (cs : List Call)
    (ds : List Decoding) (s : σ) : NativeToJsonState σ where
  writer := st.writer ++ cs
  encoderErrors := st.encoderErrors.map (· ++ ds.filterMap (Decoding.error? lib))
  abieos := s

theorem NativeToJsonState.after_after (st : NativeToJsonState σ) (cs cs' : List Call)
    (ds ds' : List Decoding) (s s' : σ) :
    (st.after lib cs ds s).after lib cs' ds' s' = st.after lib (cs ++ cs') (ds ++ ds') s' := by
  rw [after, after, after]
  congr 1
  · exact List.append_assoc _ _ _
  · cases st.encoderErrors with
    | none => rfl
    | some errors =>
        rw [Option.map_some, Option.map_some, Option.map_some, List.filterMap_append,
          List.append_assoc]

theorem NativeToJsonState.after_nil (lib : Libraries) (st : NativeToJsonState σ) :
    st.after lib [] [] st.abieos = st := by
  rw [after, List.append_nil]
  cases st with
  | mk writer encoderErrors s =>
      congr 1
      cases encoderErrors with
      | none => rfl
      | some errors => exact congrArg some (List.append_nil errors)

/-- A call of the writer is no decoding. -/
theorem NativeToJsonState.emit_eq (lib : Libraries) (st : NativeToJsonState σ) (c : Call) :
    st.emit c = st.after lib [c] [] st.abieos := by
  have hnil := congrArg encoderErrors (st.after_nil lib)
  rw [emit, after]
  congr 1
  exact hnil.symm

theorem NativeToJsonState.emit_after (st : NativeToJsonState σ) (c : Call) (cs : List Call)
    (ds : List Decoding) (s : σ) :
    (st.emit c).after lib cs ds s = st.after lib (c :: cs) ds s := by
  rw [emit_eq lib, after_after]
  rfl

/-- What is written between the beginning and the end of an array or an object. -/
theorem NativeToJsonState.emit_after_emit (st : NativeToJsonState σ) (c c' : Call)
    (cs : List Call) (ds : List Decoding) (s : σ) :
    ((st.emit c).after lib cs ds s).emit c' = st.after lib (c :: (cs ++ [c'])) ds s := by
  rw [emit_after, emit_eq lib, after_after, List.append_nil]
  rfl

/-- One value is written for a payload, and an error is noted with the hexadecimal digits. -/
theorem payloadToJson_eq (hlib : lib.Documented holds) (p : Payload) (st : NativeToJsonState σ) :
    payloadToJson lib dec p st =
      let x := describePayload lib dec p st.abieos
      st.after lib x.value.calls x.decodings x.abieos := by
  rw [payloadToJson, describePayload]
  cases dec.decode lib p st.abieos with
  | mk result s =>
      cases result with
      | ok datajs => exact NativeToJsonState.emit_eq lib _ (.raw datajs)
      | error what =>
          have hhex : lib.toHex p.data.bytes = lowerHex p.data.bytes :=
            hlib.toHex _ p.data.size_lt
          change NativeToJsonState.mk (st.writer ++ [.string (lib.toHex p.data.bytes)]) _ s = _
          rw [hhex]
          rfl

mutual

/-- **The encoder tells the writer of the document that a value is**, and notes the errors of the
decodings that failed. -/
theorem nativeToJson_eq (hlib : lib.Documented holds) : (v : Native) →
    (st : NativeToJsonState σ) → nativeToJson lib dec v st =
      let x := describe lib dec v st.abieos
      st.after lib x.value.calls x.decodings x.abieos
  | .leaf obj, st => by
      rw [nativeToJson, leafToJson, describe, NativeToJsonState.emit_eq lib]
      rfl
  | .vector obj, st => by
      rw [nativeToJson, vectorToJson_eq hlib obj, describe]
      exact st.emit_after_emit _ _ _ _ _
  | .optional none, st => by
      rw [nativeToJson, describe, NativeToJsonState.emit_eq lib]
      rfl
  | .optional (some obj), st => by
      rw [nativeToJson, nativeToJson_eq hlib obj, describe]
  | .pair first second, st => by
      rw [nativeToJson, nativeToJson_eq hlib second, nativeToJson_eq hlib first, describe]
      dsimp only
      rw [NativeToJsonState.after_after, NativeToJsonState.emit_after_emit,
        Doc.calls, Doc.elementCalls, Doc.elementCalls, Doc.elementCalls, List.append_nil]
      rfl
  | .variant obj, st => by
      rw [nativeToJson, nativeToJson_eq hlib obj, describe]
  | .action account name data fields, st => by
      rw [nativeToJson, fieldsToJson_eq hlib _ fields, describe]
      exact st.emit_after_emit _ _ _ _ _
  | .contractRowV0 code table value fields, st => by
      rw [nativeToJson, fieldsToJson_eq hlib _ fields, describe]
      exact st.emit_after_emit _ _ _ _ _
  | .object fields, st => by
      rw [nativeToJson, fieldsToJson_eq hlib _ fields, describe]
      exact st.emit_after_emit _ _ _ _ _

theorem vectorToJson_eq (hlib : lib.Documented holds) : (obj : List Native) →
    (st : NativeToJsonState σ) → vectorToJson lib dec obj st =
      let x := describeAll lib dec obj st.abieos
      st.after lib (Doc.elementCalls x.value) x.decodings x.abieos
  | [], st => by
      rw [vectorToJson, describeAll]
      exact (st.after_nil lib).symm
  | v :: obj, st => by
      rw [vectorToJson, vectorToJson_eq hlib obj, nativeToJson_eq hlib v, describeAll]
      exact st.after_after _ _ _ _ _ _

theorem fieldsToJson_eq (hlib : lib.Documented holds) (special : Option Payload) :
    (fields : List (Bytes × Native)) → (st : NativeToJsonState σ) →
    fieldsToJson lib dec special fields st =
      let x := describeFields lib dec special fields st.abieos
      st.after lib (Doc.memberCalls x.value) x.decodings x.abieos
  | [], st => by
      rw [fieldsToJson, describeFields]
      exact (st.after_nil lib).symm
  | (name, member) :: fields, st => by
      rw [fieldsToJson, fieldsToJson_eq hlib special fields, describeFields]
      cases special.filter fun p ↦ p.kind.field = name with
      | none =>
          dsimp only
          rw [nativeToJson_eq hlib member, NativeToJsonState.emit_after,
            NativeToJsonState.after_after]
          rfl
      | some p =>
          dsimp only
          rw [payloadToJson_eq hlib p, NativeToJsonState.emit_after, NativeToJsonState.after_after]
          rfl

end

/-! ## The decodings of a value -/

/-- Decodings are those of the payloads, by the decoder, and their JSON is in the document, each in
order. -/
structure Genuine (lib : Libraries) (dec : AbiDecoder σ) (ds : List Decoding) (raws : List Bytes)
    (ps : List Payload) : Prop where
  raws : ds.filterMap Decoding.text? = raws
  payloads : ds.map Decoding.payload = ps
  results : ∀ d ∈ ds, ∃ s, d.result = (dec.decode lib d.payload s).1

theorem Genuine.nil : Genuine lib dec [] [] [] :=
  ⟨rfl, rfl, fun _ h ↦ absurd h List.not_mem_nil⟩

theorem Genuine.append {ds ds' : List Decoding} {raws raws' : List Bytes} {ps ps' : List Payload}
    (h : Genuine lib dec ds raws ps) (h' : Genuine lib dec ds' raws' ps') :
    Genuine lib dec (ds ++ ds') (raws ++ raws') (ps ++ ps') where
  raws := by rw [List.filterMap_append, h.raws, h'.raws]
  payloads := by rw [List.map_append, h.payloads, h'.payloads]
  results d hd := (List.mem_append.mp hd).elim (h.results d) (h'.results d)

theorem describePayload_genuine (p : Payload) (s : σ) :
    Genuine lib dec (describePayload lib dec p s).decodings
      (describePayload lib dec p s).value.raws [p] where
  raws := by
    rw [describePayload, Decoding.doc]
    cases (dec.decode lib p s).1 <;> rfl
  payloads := rfl
  results := List.forall_mem_singleton.mpr ⟨s, rfl⟩

mutual

theorem describe_genuine : (v : Native) → (s : σ) →
    Genuine lib dec (describe lib dec v s).decodings (describe lib dec v s).value.raws v.payloads
  | .leaf _, _ | .optional none, _ => by
      rw [describe, Native.payloads]
      exact .nil
  | .vector obj, s => by
      rw [describe, Native.payloads]
      exact describeAll_genuine obj s
  | .optional (some obj), s | .variant obj, s => by
      rw [describe, Native.payloads]
      exact describe_genuine obj s
  | .pair first second, s => by
      rw [describe, Native.payloads]
      have hboth := (describe_genuine first s).append
        (describe_genuine second (describe lib dec first s).abieos)
      rwa [← List.append_nil (Doc.raws (describe lib dec second _).value)] at hboth
  | .action _ _ _ fields, s | .contractRowV0 _ _ _ fields, s | .object fields, s => by
      rw [describe, Native.payloads]
      exact describeFields_genuine _ fields s

theorem describeAll_genuine : (obj : List Native) → (s : σ) →
    Genuine lib dec (describeAll lib dec obj s).decodings
      (Doc.elementRaws (describeAll lib dec obj s).value) (vectorPayloads obj)
  | [], _ => by
      rw [describeAll, vectorPayloads]
      exact .nil
  | v :: obj, s => by
      rw [describeAll, vectorPayloads]
      exact (describe_genuine v s).append (describeAll_genuine obj _)

theorem describeFields_genuine (special : Option Payload) : (fields : List (Bytes × Native)) →
    (s : σ) → Genuine lib dec (describeFields lib dec special fields s).decodings
      (Doc.memberRaws (describeFields lib dec special fields s).value)
      (fieldPayloads special fields)
  | [], _ => by
      rw [describeFields, fieldPayloads]
      exact .nil
  | (name, member) :: fields, s => by
      rw [describeFields, fieldPayloads]
      cases special.filter fun p ↦ p.kind.field = name with
      | none => exact (describe_genuine member s).append (describeFields_genuine special fields _)
      | some p =>
          exact (describePayload_genuine p s).append (describeFields_genuine special fields _)

end

/-- What decoding yields was returned by `abieos_bin_to_json`, for the bytes of the payload. -/
theorem AbiDecoder.decode_ok {p : Payload} {s : σ} {datajs : Bytes}
    (h : (dec.decode lib p s).1 = .ok datajs) :
    ∃ type s', (dec.binToJson p.account type p.data.bytes s').1 = some datajs := by
  let r := dec.getType p.kind p.account p.name (dec.getContractAbiCtxt p.account s)
  refine ⟨r.1.getD (lib.nameToString p.name), r.2, ?_⟩
  change (dec.binToJson p.account (r.1.getD (lib.nameToString p.name)) p.data.bytes r.2).1.elim
    (Except.error _) Except.ok = Except.ok datajs at h
  cases hbin : (dec.binToJson p.account
    (r.1.getD (lib.nameToString p.name)) p.data.bytes r.2).1 with
  | none =>
      rw [hbin] at h
      cases h
  | some js =>
      rw [hbin] at h
      exact congrArg some (Except.ok.inj h)

/-- The JSON in a document is that of the decoder. -/
theorem describe_sound (hdec : dec.YieldsJson holds) (v : Native) (s : σ) :
    (describe lib dec v s).value.Sound holds := by
  have hgenuine : Genuine lib dec _ _ _ := describe_genuine v s
  intro text htext
  rw [← hgenuine.raws] at htext
  obtain ⟨d, hd, hd_text⟩ := List.mem_filterMap.mp htext
  obtain ⟨s', hs'⟩ := hgenuine.results d hd
  have hok : (dec.decode lib d.payload s').1 = .ok text := by
    rw [← hs']
    rw [Decoding.text?] at hd_text
    cases hresult : d.result with
    | ok datajs => rw [hresult] at hd_text; exact congrArg Except.ok (Option.some.inj hd_text)
    | error what => rw [hresult] at hd_text; cases hd_text
  obtain ⟨type, s'', hbin⟩ := dec.decode_ok hok
  exact hdec _ _ _ _ _ hbin

/-- What is written of a value, and the errors that are collected. -/
structure Survived (lib : Libraries) (holds : Bytes → Prop) (v : Native) (x : Described σ Doc)
    (text : Bytes) (errors : List Bytes) : Prop where
  denotes : Denotes holds text x.value.tree
  payloads : x.decodings.map Decoding.payload = v.payloads
  inOrder : errors = x.decodings.filterMap (Decoding.error? lib)
  counted : errors.length = x.decodings.countP (Decoding.fellBack lib)

theorem implNativeToJson_survives (hlib : lib.Documented holds) (hdec : dec.YieldsJson holds)
    (v : Native) (s : σ) :
    let x := describe lib dec v s
    ∃ text errors, implNativeToJson lib dec v (some []) s = (text, some errors, x.abieos) ∧
      Survived lib holds v x text errors := by
  intro x
  have hdenotes : Denotes holds (lib.write x.value.calls) x.value.tree :=
    hlib.writes x.value (describe_sound hdec v s)
  -- the text of a document has no null character that would end it early
  have htext : cText (lib.write x.value.calls) = lib.write x.value.calls := by
    refine List.takeWhile_eq_self_iff.mpr fun b hb ↦ decide_eq_true ?_
    rintro rfl
    exact hdenotes.ne_zero hb
  refine ⟨lib.write x.value.calls, x.decodings.filterMap (Decoding.error? lib), ?_, hdenotes,
    (describe_genuine v s).payloads, rfl, ?_⟩
  · rw [implNativeToJson, nativeToJson_eq hlib]
    exact congrArg (·, _, _) htext
  · rw [List.length_filterMap_eq_countP]
    rfl

/-! ## What is published -/

/-- The events that have payloads. -/
inductive EncodedEvent where
  | transactionTrace (tr : TransactionTrace)
  | tableRowUpdate (trupd : TableRowUpdate)

namespace EncodedEvent

def native : EncodedEvent → Native
  | transactionTrace tr => tr.native
  | tableRowUpdate trupd => trupd.native

def type : EncodedEvent → ExportType
  | transactionTrace _ => .txTrace
  | tableRowUpdate _ => .tblRow

def publish (lib : Libraries) (dec : AbiDecoder σ) :
    EncodedEvent → σ → List (ExportType × Bytes) × σ
  | transactionTrace tr => onTransactionTrace lib dec tr
  | tableRowUpdate trupd => onTableRowUpdate lib dec trupd

end EncodedEvent

/-- The errors are published if there are any. -/
theorem publishEncoded_eq {type : ExportType} {v : Native} {attrs : Attrs} {s s' : σ}
    {text : Bytes} {errors : List Bytes}
    (h : implNativeToJson lib dec v (some []) s = (text, some errors, s')) :
    publishEncoded lib dec type v attrs s =
      ((type, text) :: if errors = [] then [] else [reportEncoderErrors lib errors attrs], s') := by
  rw [publishEncoded, h]
  cases errors with
  | nil => rfl
  | cons error errors => rfl

theorem EncodedEvent.publish_eq (e : EncodedEvent) {s s' : σ} {text : Bytes}
    {errors : List Bytes}
    (h : implNativeToJson lib dec e.native (some []) s = (text, some errors, s')) :
    ∃ attrs, e.publish lib dec s = ((e.type, text) ::
      if errors = [] then [] else [reportEncoderErrors lib errors attrs], s') := by
  cases e with
  | transactionTrace tr => exact ⟨_, publishEncoded_eq h⟩
  | tableRowUpdate trupd => exact ⟨_, publishEncoded_eq h⟩

/-- **Encoding survives every failure of the ABI decoder.**  A transaction trace or a table row is
published as one JSON text of its document, and the errors as an event of their own exactly when
something could not be decoded. -/
theorem encoding_survives (hlib : lib.Documented holds) (hdec : dec.YieldsJson holds)
    (e : EncodedEvent) (s : σ) :
    let x := describe lib dec e.native s
    ∃ text errors, implNativeToJson lib dec e.native (some []) s = (text, some errors, x.abieos) ∧
      Survived lib holds e.native x text errors ∧
      (e.publish lib dec s).1.head? = some (e.type, text) ∧
      ((∃ report, (ExportType.encoderErr, report) ∈ (e.publish lib dec s).1) ↔
        ∃ d ∈ x.decodings, d.fellBack lib = true) := by
  intro x
  obtain ⟨text, errors, himpl, hsurvived⟩ := implNativeToJson_survives hlib hdec e.native s
  obtain ⟨attrs, hpublish⟩ := e.publish_eq himpl
  refine ⟨text, errors, himpl, hsurvived, by rw [hpublish]; rfl, ?_⟩
  have htype : e.type ≠ .encoderErr := by cases e <;> exact ExportType.noConfusion
  have hnone : errors ≠ [] ↔ ∃ d ∈ x.decodings, d.fellBack lib = true := by
    rw [← List.length_pos_iff, hsurvived.counted]
    exact List.countP_pos_iff
  rw [← hnone, hpublish]
  constructor
  · rintro ⟨report, hmem⟩ rfl
    rw [if_pos rfl] at hmem
    exact htype (congrArg Prod.fst (List.mem_singleton.mp hmem)).symm
  · intro hne
    rw [if_neg hne]
    exact ⟨_, List.mem_cons_of_mem _ List.mem_cons_self⟩

end Encoder

/-! ## A transfer and an account without ABI -/

/-- The JSON of a receiver's decoder is that of `abieos`. -/
theorem receiverDecoder_yieldsJson {Abi : Type} (lib : Abieos Abi) {holds : Bytes → Prop}
    {dec : AbieosContext Abi → AbiDecoder σ} (hdec : ∀ ctxt, (dec ctxt).YieldsJson holds) :
    (receiverDecoder lib dec).YieldsJson holds := by
  intro account type data s datajs h
  exact hdec s.1.proc.contractAbiCtxt account type data s.2 datajs h

/-- The text of a name: five bits for each of twelve characters, and four for the last. -/
def nameText (n : Name) : Bytes :=
  let digit i := ((ascii ".12345abcdefghijklmnopqrstuvwxyz")[i]?).getD 0
  (((List.range 12).map fun i ↦ digit (n / 2 ^ (59 - 5 * i) % 32)) ++ [digit (n % 16)]).rdropWhile
    (· = 46)

/-- Libraries, as far as the trace below uses them. -/
def exampleLibraries : Libraries where
  write := JsonText.writeCalls
  toHex := lowerHex
  nameToString := nameText
  microsecondsToStr _ := ascii "2000-01-01T00:00:00.000"
  transactionStatus _ := ascii "executed"
  publicKeyToString _ := []
  signatureToString _ := []

theorem exampleLibraries_documented : exampleLibraries.Documented fun _ ↦ True where
  writes := JsonText.writes_writeCalls _
  toHex _ _ := rfl

/-- `eosio.token` and `transfer` -/
def tokenName : Name := 6138663591592764928
def transferName : Name := 14829575313431724032
/-- `alice` -/
def aliceName : Name := 3773036822876127232

def memoDoc : Doc := .object [(ascii "memo", .string (ascii "hi"))]

/-- An ABI with one action, whose data is a memo. -/
def exampleDecoder : AbiDecoder Unit where
  getContractAbiCtxt _ s := s
  getTypeForAction account _ s := (if account = tokenName then some (ascii "transfer") else none, s)
  getTypeForTable _ _ s := (none, s)
  binToJson account _ _ s := (if account = tokenName then some memoDoc.text else none, s)
  getError _ := ascii "contract \"alice\" is not loaded"

theorem exampleDecoder_yieldsJson : exampleDecoder.YieldsJson fun _ ↦ True := by
  intro account type data s datajs h
  change (if account = tokenName then some memoDoc.text else none) = some datajs at h
  split_ifs at h
  obtain rfl := Option.some.inj h
  exact ⟨_, memoDoc.text_denotes fun _ hs ↦ absurd hs List.not_mem_nil⟩

def exampleAction (account : Name) (data : InputStream) : Native :=
  .action account transferName data [(ascii "account", .leaf (.name account)),
    (ascii "name", .leaf (.name transferName)), (ascii "authorization", .vector []),
    (ascii "data", .leaf (.inputStream data))]

/-- The data of a call that cannot be decoded. -/
def unknownData : InputStream := ⟨[0xDE, 0xAD], by decide⟩

def exampleTrace : TransactionTrace where
  blockNum := 5
  blockTimestamp := 946684800000000
  id := List.replicate 32 0
  trace := [(ascii "id", .leaf (.checksum256 (List.replicate 32 0))),
    (ascii "status", .leaf (.transactionStatus 0)),
    (ascii "action_traces", .vector
      [.variant (.object [(ascii "act", exampleAction tokenName ⟨[2, 104, 105], by decide⟩)]),
        .variant (.object [(ascii "act", exampleAction aliceName unknownData)])])]

/-- `abieos` for a receiver whose database has no ABIs. -/
def exampleAbieos : Abieos Unit := ⟨fun _ ↦ some (), fun _ ↦ true, fun _ ↦ "", fun _ ↦ .ok ()⟩

/-- The data of the second action is reported. -/
theorem encoding_survives_unknown : ∃ report, (ExportType.encoderErr, report) ∈
    (onTransactionTrace exampleLibraries (receiverDecoder exampleAbieos fun _ ↦ exampleDecoder)
      exampleTrace ({}, ())).1 := by
  obtain ⟨-, -, -, -, -, hreported⟩ := encoding_survives exampleLibraries_documented
    (receiverDecoder_yieldsJson exampleAbieos fun _ ↦ exampleDecoder_yieldsJson)
    (.transactionTrace exampleTrace) ({}, ())
  let what := ascii "contract \"alice\" is not loaded"
  refine hreported.mpr ⟨⟨⟨.actionData, aliceName, transferName, unknownData⟩, .error what⟩, ?_, rfl⟩
  exact List.mem_cons_of_mem _ List.mem_cons_self

end Chronicle.Decoder
