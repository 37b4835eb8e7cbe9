import Chronicle.Decoder.Failures

/-!
# The handlers of the decoder

`decoder_plugin` has a handler for each channel of the receiver but that of the table deltas: it
writes the reflected fields of the event as one JSON object, and publishes the text.  The members
that are classes of other libraries come with an event as their fields (`Detail`).

Each text denotes an object, whose first member is the block number if the event has one
(`onEvent_outputs`).
-/

namespace Chronicle.Decoder

open JsonText (Tree Denotes Doc ascii)

/-! ## Events -/

/-- An `input_stream` at its end. -/
def emptyStream : InputStream := ⟨[], by decide⟩

/-- The members of an event that are classes of other libraries. -/
structure Detail where
  /-- `block_timestamp`, in microseconds. -/
  blockTimestamp : Int := 0
  /-- The fields of the block, the trace, the ABI or the row. -/
  fields : List (Bytes × Native) := []
  scope : Name := 0
  primaryKey : UInt64 := 0
  /-- The value of a table row. -/
  value : InputStream := emptyStream

/-- The memory of a checksum. -/
def checksumBytes (id : Checksum256) : Bytes :=
  (List.range 32).map fun i ↦ UInt8.ofNat (id.toNat / 256 ^ (31 - i))

section Handlers

variable {σ : Type} (lib : Libraries) (dec : AbiDecoder σ)

/-- `block_num` -/
def blockNumField (n : Nat) : Bytes × Native := (ascii "block_num", .leaf (.integer n))

/-- `block_timestamp` -/
def timestampField (d : Detail) : Bytes × Native :=
  (ascii "block_timestamp", .leaf (.timePoint d.blockTimestamp))

def checksumField (name : String) (id : Checksum256) : Bytes × Native :=
  (ascii name, .leaf (.checksum256 (checksumBytes id)))

/-- `last_irreversible` -/
def irreversibleField (n : Nat) : Bytes × Native :=
  (ascii "last_irreversible", .leaf (.integer n))

/-- Publish what was written; errors are not collected. -/
def publishPlain (type : ExportType) (fields : List (Bytes × Native)) (s : σ) :
    List (ExportType × Bytes) × σ :=
  let (output, _, s) := implNativeToJson lib dec (.object fields) none s
  ([(type, output)], s)

/-- `on_fork` -/
def onFork (fe : ForkEvent) (s : σ) : List (ExportType × Bytes) × σ :=
  publishPlain lib dec .fork
    [blockNumField fe.blockNum, (ascii "depth", .leaf (.integer fe.depth)),
      (ascii "fork_reason", .leaf (.forkReasonVal fe.forkReason)),
      irreversibleField fe.lastIrreversible] s

/-- `on_block_started` -/
def onBlockStarted (bb : BlockBegins) (d : Detail) (s : σ) : List (ExportType × Bytes) × σ :=
  publishPlain lib dec .blockStarted [blockNumField bb.blockNum, timestampField d] s

/-- `on_block` -/
def onBlock (block : BlockEvent) (d : Detail) (s : σ) : List (ExportType × Bytes) × σ :=
  publishPlain lib dec .block
    [blockNumField block.blockNum, checksumField "block_id" block.blockId,
      irreversibleField block.lastIrreversible, (ascii "block", .object d.fields)] s

/-- `on_abi_update` -/
def onAbiUpdate (abiupd : AbiUpdate) (d : Detail) (s : σ) : List (ExportType × Bytes) × σ :=
  publishPlain lib dec .abiUpd
    [blockNumField abiupd.blockNum, timestampField d,
      (ascii "account", .leaf (.name abiupd.account)), (ascii "abi", .object d.fields)] s

/-- `on_abi_removal` -/
def onAbiRemoval (ar : AbiRemoval) (d : Detail) (s : σ) : List (ExportType × Bytes) × σ :=
  publishPlain lib dec .abiRem
    [blockNumField ar.blockNum, timestampField d, (ascii "account", .leaf (.name ar.account))] s

/-- `on_abi_error` -/
def onAbiError (abierr : AbiError) (d : Detail) (s : σ) : List (ExportType × Bytes) × σ :=
  publishPlain lib dec .abiErr
    [blockNumField abierr.blockNum, timestampField d,
      (ascii "account", .leaf (.name abierr.account)),
      (ascii "error", .leaf (.string abierr.error.toUTF8.toList))] s

/-- `on_permission_update` -/
def onPermissionUpdate (pupd : AccountInfoUpdate) (d : Detail) (s : σ) :
    List (ExportType × Bytes) × σ :=
  publishPlain lib dec .permission
    [blockNumField pupd.blockNum, timestampField d, (ascii "added", .leaf (.bool pupd.added)),
      (ascii "permission", .object d.fields)] s

/-- `on_permission_link_update` -/
def onPermissionLinkUpdate (plupd : AccountInfoUpdate) (d : Detail) (s : σ) :
    List (ExportType × Bytes) × σ :=
  publishPlain lib dec .permissionLink
    [blockNumField plupd.blockNum, timestampField d, (ascii "added", .leaf (.bool plupd.added)),
      (ascii "permission_link", .object d.fields)] s

/-- `on_account_metadata_update` -/
def onAccountMetadataUpdate (plupd : AccountInfoUpdate) (d : Detail) (s : σ) :
    List (ExportType × Bytes) × σ :=
  publishPlain lib dec .accMetadata
    [blockNumField plupd.blockNum, timestampField d,
      (ascii "account_metadata", .object d.fields)] s

/-- `on_receiver_pause` -/
def onReceiverPause (rp : ReceiverPause) (s : σ) : List (ExportType × Bytes) × σ :=
  publishPlain lib dec .rcvrPause
    [(ascii "head", .leaf (.integer rp.head)),
      (ascii "acknowledged", .leaf (.integer rp.acknowledged))] s

/-- `on_block_completed` -/
def onBlockCompleted (bf : BlockFinished) (d : Detail) (s : σ) : List (ExportType × Bytes) × σ :=
  publishPlain lib dec .blockCompleted
    [blockNumField bf.blockNum, checksumField "block_id" bf.blockId, timestampField d,
      (ascii "producer", .leaf (.name bf.producer)), checksumField "previous" bf.previous,
      checksumField "transaction_mroot" bf.transactionMroot,
      checksumField "action_mroot" bf.actionMroot,
      (ascii "trx_count", .leaf (.integer bf.trxCount)), irreversibleField bf.lastIrreversible] s

/-- What the decoder publishes for an event of the receiver. -/
def onEvent (d : Detail) (s : σ) : Event → List (ExportType × Bytes) × σ
  | .fork e => onFork lib dec e s
  | .blockStarted e => onBlockStarted lib dec e d s
  | .block e => onBlock lib dec e d s
  | .blockTableDelta _ => ([], s)
  | .transactionTrace e =>
    onTransactionTrace lib dec ⟨e.blockNum, d.blockTimestamp, checksumBytes e.trace.id, d.fields⟩ s
  | .abiUpdate e => onAbiUpdate lib dec e d s
  | .abiRemoval e => onAbiRemoval lib dec e d s
  | .abiError e => onAbiError lib dec e d s
  | .tableRowUpdate e =>
    onTableRowUpdate lib dec
      ⟨e.blockNum, d.blockTimestamp, e.added, e.kvo.code, d.scope, e.kvo.table, d.primaryKey,
        d.value, d.fields⟩ s
  | .permissionUpdate e => onPermissionUpdate lib dec e d s
  | .permissionLinkUpdate e => onPermissionLinkUpdate lib dec e d s
  | .accountMetadataUpdate e => onAccountMetadataUpdate lib dec e d s
  | .receiverPause e => onReceiverPause lib dec e s
  | .blockCompleted e => onBlockCompleted lib dec e d s

/-- What the decoder publishes for events, one after another. -/
def onEvents : List (Event × Detail) → σ → List (ExportType × Bytes) × σ
  | [], s => ([], s)
  | (e, d) :: es, s =>
    let (outputs, s) := onEvent lib dec d s e
    let (more, s) := onEvents es s
    (outputs ++ more, s)

end Handlers

/-! ## Texts -/

/-- How an event is exported. -/
def exportType? : Event → Option ExportType
  | .fork _ => some .fork
  | .blockStarted _ => some .blockStarted
  | .block _ => some .block
  | .blockTableDelta _ => none
  | .transactionTrace _ => some .txTrace
  | .abiUpdate _ => some .abiUpd
  | .abiRemoval _ => some .abiRem
  | .abiError _ => some .abiErr
  | .tableRowUpdate _ => some .tblRow
  | .permissionUpdate _ => some .permission
  | .permissionLinkUpdate _ => some .permissionLink
  | .accountMetadataUpdate _ => some .accMetadata
  | .receiverPause _ => some .rcvrPause
  | .blockCompleted _ => some .blockCompleted

/-- The block of an event. -/
def blockNum? : Event → Option Nat
  | .fork e => some e.blockNum
  | .blockStarted e => some e.blockNum
  | .block e => some e.blockNum
  | .blockTableDelta e => some e.blockNum
  | .transactionTrace e => some e.blockNum
  | .abiUpdate e => some e.blockNum
  | .abiRemoval e => some e.blockNum
  | .abiError e => some e.blockNum
  | .tableRowUpdate e => some e.blockNum
  | .permissionUpdate e => some e.blockNum
  | .permissionLinkUpdate e => some e.blockNum
  | .accountMetadataUpdate e => some e.blockNum
  | .receiverPause _ => none
  | .blockCompleted e => some e.blockNum

/-- The member of a block number. -/
def blockNumMember (n : Nat) : List UInt8 × Tree :=
  (ascii "block_num", .string (ascii (toString n)))

/-- A text denotes an object, whose first member is the number `n?` if there is one. -/
def TellsBlock (holds : Bytes → Prop) (n? : Option Nat) (text : Bytes) : Prop :=
  ∃ ms, Denotes holds text (.object ms) ∧ ∀ n ∈ n?, ms.head? = some (blockNumMember n)

/-- What is published for an event: its text, and maybe a report of errors. -/
structure Outputs (holds : Bytes → Prop) (e : Event) (outputs : List (ExportType × Bytes)) :
    Prop where
  unhandled : exportType? e = none → outputs = []
  written : ∀ type, exportType? e = some type → ∃ text reports, outputs = (type, text) :: reports ∧
    TellsBlock holds (blockNum? e) text ∧
    ∀ p ∈ reports, p.1 = .encoderErr ∧ TellsBlock holds none p.2

section Texts

variable {σ : Type} {lib : Libraries} {dec : AbiDecoder σ} {holds : Bytes → Prop}

variable (lib dec) in
/-- The number of a block is written before everything else. -/
theorem describe_blockNum (n : Nat) (fields : List (Bytes × Native)) (s : σ) :
    ∃ ms, (describe lib dec (.object (blockNumField n :: fields)) s).value.tree = .object ms ∧
      ms.head? = some (blockNumMember n) := by
  refine ⟨_, rfl, ?_⟩
  exact congrArg (fun text ↦ some (ascii "block_num", Tree.string text)) rfl

variable (lib dec) in
theorem describe_object (fields : List (Bytes × Native)) (s : σ) :
    ∃ ms, (describe lib dec (.object fields) s).value.tree = .object ms := ⟨_, rfl⟩

/-- A text without errors that are collected. -/
theorem implNativeToJson_plain (hlib : lib.Documented holds) (hdec : dec.YieldsJson holds)
    (v : Native) (s : σ) :
    let x := describe lib dec v s
    ∃ text, implNativeToJson lib dec v none s = (text, none, x.abieos) ∧
      Denotes holds text x.value.tree := by
  intro x
  obtain ⟨text, errors, himpl, hsurvived⟩ := implNativeToJson_survives hlib hdec v s
  refine ⟨text, ?_, hsurvived.denotes⟩
  rw [implNativeToJson, nativeToJson_eq hlib] at himpl ⊢
  have htext := congrArg Prod.fst himpl
  exact congrArg (·, none, x.abieos) htext

/-- The document of a report. -/
def reportDoc (errors : List Bytes) (attrs : Attrs) : Doc :=
  .object ((attrs.rows.map fun p ↦ (ascii p.1, .string (cText p.2))) ++
    [(ascii "errors", .array (errors.map fun err ↦ .string (cText err)))])

/-- The attributes come before the errors. -/
theorem attrs_calls (rows : List (String × Bytes)) (ms : List (List UInt8 × Doc)) :
    Doc.memberCalls ((rows.map fun p ↦ (ascii p.1, Doc.string (cText p.2))) ++ ms) =
      (rows.flatMap fun p ↦ [.key (ascii p.1), .string (cText p.2)]) ++ Doc.memberCalls ms := by
  induction rows with
  | nil => rfl
  | cons p rows ih =>
      rw [List.map_cons, List.cons_append, Doc.memberCalls, ih]
      rfl

theorem attrs_raws (rows : List (String × Bytes)) (ms : List (List UInt8 × Doc)) :
    Doc.memberRaws ((rows.map fun p ↦ (ascii p.1, Doc.string (cText p.2))) ++ ms) =
      Doc.memberRaws ms := by
  induction rows with
  | nil => rfl
  | cons p rows ih => exact ih

theorem errors_calls (errors : List Bytes) :
    Doc.elementCalls (errors.map fun err ↦ Doc.string (cText err)) =
      errors.map fun err ↦ .string (cText err) := by
  induction errors with
  | nil => rfl
  | cons err errors ih =>
      rw [List.map_cons, Doc.elementCalls, ih]
      rfl

theorem errors_raws (errors : List Bytes) :
    Doc.elementRaws (errors.map fun err ↦ Doc.string (cText err)) = [] := by
  induction errors with
  | nil => rfl
  | cons err errors ih => exact ih

/-- The calls of `report_encoder_errors` are those of the document. -/
theorem reportDoc_calls (errors : List Bytes) (attrs : Attrs) :
    (reportDoc errors attrs).calls =
      .startObject :: (attrs.rows.flatMap fun p ↦ [.key (ascii p.1), .string (cText p.2)]) ++
        [.key (ascii "errors"), .startArray] ++ errors.map (fun err ↦ .string (cText err)) ++
        [.endArray, .endObject] := by
  rw [reportDoc, Doc.calls, attrs_calls, Doc.memberCalls, Doc.memberCalls, Doc.calls, errors_calls]
  simp only [List.append_assoc, List.cons_append, List.nil_append, List.append_nil]

/-- The report of errors is an object. -/
theorem reportEncoderErrors_tells (hlib : lib.Documented holds) (errors : List Bytes)
    (attrs : Attrs) : TellsBlock holds none (reportEncoderErrors lib errors attrs).2 := by
  have hraws : (reportDoc errors attrs).raws = [] := by
    rw [reportDoc, Doc.raws, attrs_raws, Doc.memberRaws, Doc.memberRaws, Doc.raws, errors_raws]
    rfl
  have hdenotes : Denotes holds (lib.write (reportDoc errors attrs).calls)
      (reportDoc errors attrs).tree := by
    refine hlib.writes _ fun s hs ↦ ?_
    rw [hraws] at hs
    exact absurd hs List.not_mem_nil
  have htext : (reportEncoderErrors lib errors attrs).2 =
      lib.write (reportDoc errors attrs).calls := by
    rw [reportEncoderErrors, ← reportDoc_calls]
    refine List.takeWhile_eq_self_iff.mpr fun b hb ↦ decide_eq_true ?_
    rintro rfl
    exact hdenotes.ne_zero hb
  rw [htext]
  exact ⟨_, hdenotes, fun n hn ↦ absurd hn (Option.not_mem_none n)⟩

/-! ## The handlers -/

/-- An event whose fields are written as they are. -/
theorem publishPlain_outputs (hlib : lib.Documented holds) (hdec : dec.YieldsJson holds)
    (type : ExportType) (fields : List (Bytes × Native)) (s : σ) :
    ∃ text, (publishPlain lib dec type fields s).1 = [(type, text)] ∧
      Denotes holds text (describe lib dec (.object fields) s).value.tree := by
  obtain ⟨text, himpl, hdenotes⟩ := implNativeToJson_plain hlib hdec (.object fields) s
  refine ⟨text, ?_, hdenotes⟩
  rw [publishPlain, himpl]

/-- An event that begins with its block number. -/
theorem publishPlain_tells (hlib : lib.Documented holds) (hdec : dec.YieldsJson holds)
    {e : Event} {type : ExportType} {n : Nat} (htype : exportType? e = some type)
    (hn : blockNum? e = some n) (fields : List (Bytes × Native)) (s : σ) :
    Outputs holds e (publishPlain lib dec type (blockNumField n :: fields) s).1 := by
  obtain ⟨text, hout, hdenotes⟩ := publishPlain_outputs hlib hdec type (blockNumField n :: fields) s
  obtain ⟨ms, htree, hhead⟩ := describe_blockNum lib dec n fields s
  refine ⟨fun hnone ↦ ?_, fun type' htype' ↦ ⟨text, [], ?_, ⟨ms, htree ▸ hdenotes, ?_⟩, ?_⟩⟩
  · rw [htype] at hnone
    cases hnone
  · rw [hout, Option.some.inj (htype.symm.trans htype')]
  · intro n' hn'
    obtain rfl := Option.some.inj (hn.symm.trans hn')
    exact hhead
  · exact fun p hp ↦ absurd hp List.not_mem_nil

/-- An event with payloads, which is published with a report of errors. -/
theorem EncodedEvent.outputs (hlib : lib.Documented holds) (hdec : dec.YieldsJson holds)
    {e : Event} (ev : EncodedEvent) {n : Nat} {fields : List (Bytes × Native)}
    (htype : exportType? e = some ev.type) (hn : blockNum? e = some n)
    (hnative : ev.native = .object (blockNumField n :: fields)) (s : σ) :
    Outputs holds e (ev.publish lib dec s).1 := by
  obtain ⟨text, errors, himpl, hsurvived⟩ := implNativeToJson_survives hlib hdec ev.native s
  obtain ⟨attrs, hpublish⟩ := ev.publish_eq himpl
  obtain ⟨ms, htree, hhead⟩ := describe_blockNum lib dec n fields s
  have hdenotes := hsurvived.denotes
  rw [hnative, htree] at hdenotes
  rw [hpublish]
  constructor
  · intro hnone
    rw [htype] at hnone
    cases hnone
  · intro type htype'
    obtain rfl := Option.some.inj (htype.symm.trans htype')
    refine ⟨text, if errors = [] then [] else [reportEncoderErrors lib errors attrs], rfl,
      ⟨ms, hdenotes, fun n' hn' ↦ ?_⟩, fun p hp ↦ ?_⟩
    · obtain rfl := Option.some.inj (hn.symm.trans hn')
      exact hhead
    · split_ifs at hp
      · exact absurd hp List.not_mem_nil
      · obtain rfl := List.mem_singleton.mp hp
        exact ⟨rfl, reportEncoderErrors_tells hlib errors attrs⟩

/-- What is published for an event. -/
theorem onEvent_outputs (hlib : lib.Documented holds) (hdec : dec.YieldsJson holds) (e : Event)
    (d : Detail) (s : σ) : Outputs holds e (onEvent lib dec d s e).1 := by
  cases e with
  | blockTableDelta e => exact ⟨fun _ ↦ rfl, fun _ htype ↦ by cases htype⟩
  | transactionTrace e =>
      exact EncodedEvent.outputs hlib hdec (.transactionTrace _) rfl rfl rfl s
  | tableRowUpdate e => exact EncodedEvent.outputs hlib hdec (.tableRowUpdate _) rfl rfl rfl s
  | receiverPause e =>
      obtain ⟨text, hout, hdenotes⟩ := publishPlain_outputs hlib hdec .rcvrPause
        [(ascii "head", .leaf (.integer e.head)),
          (ascii "acknowledged", .leaf (.integer e.acknowledged))] s
      obtain ⟨ms, htree⟩ := describe_object lib dec
        [(ascii "head", .leaf (.integer e.head)),
          (ascii "acknowledged", .leaf (.integer e.acknowledged))] s
      refine ⟨fun hnone ↦ (by cases hnone), fun type htype ↦ ⟨text, [], ?_, ⟨ms, htree ▸ hdenotes,
        fun n hn ↦ absurd hn (Option.not_mem_none n)⟩, fun p hp ↦ absurd hp List.not_mem_nil⟩⟩
      exact Option.some.inj htype ▸ hout
  | fork _ | blockStarted _ | block _ | abiUpdate _ | abiRemoval _ | abiError _
  | permissionUpdate _ | permissionLinkUpdate _ | accountMetadataUpdate _ | blockCompleted _ =>
      exact publishPlain_tells hlib hdec rfl rfl _ s

end Texts

/-! ## What the decoder depends on -/

section Depends

variable {σ : Type} {lib : Libraries} {dec : AbiDecoder σ} {R : σ → σ → Prop} [Std.Refl R]
  [IsTrans σ R]

omit [Std.Refl R] [IsTrans σ R] in
theorem payloadToJson_moves (hdec : ∀ p s, R s (dec.decode lib p s).2) (p : Payload)
    (st : NativeToJsonState σ) : R st.abieos (payloadToJson lib dec p st).abieos := by
  have hmoves := hdec p st.abieos
  rw [payloadToJson]
  cases h : dec.decode lib p st.abieos with
  | mk result s =>
      rw [h] at hmoves
      cases result <;> exact hmoves

mutual

/-- The encoder only changes what the decodings change. -/
theorem nativeToJson_moves (hdec : ∀ p s, R s (dec.decode lib p s).2) : (v : Native) →
    (st : NativeToJsonState σ) → R st.abieos (nativeToJson lib dec v st).abieos
  | .leaf _, st | .optional none, st => refl st.abieos
  | .vector obj, st => by
      rw [nativeToJson]
      exact vectorToJson_moves hdec obj (st.emit .startArray)
  | .optional (some obj), st | .variant obj, st => by
      rw [nativeToJson]
      exact nativeToJson_moves hdec obj st
  | .pair first second, st => by
      rw [nativeToJson]
      exact IsTrans.trans _ _ _ (nativeToJson_moves hdec first (st.emit .startArray))
        (nativeToJson_moves hdec second _)
  | .action _ _ _ fields, st | .contractRowV0 _ _ _ fields, st | .object fields, st => by
      rw [nativeToJson]
      exact fieldsToJson_moves hdec _ fields (st.emit .startObject)

theorem vectorToJson_moves (hdec : ∀ p s, R s (dec.decode lib p s).2) : (obj : List Native) →
    (st : NativeToJsonState σ) → R st.abieos (vectorToJson lib dec obj st).abieos
  | [], st => refl st.abieos
  | v :: obj, st => by
      rw [vectorToJson]
      exact IsTrans.trans _ _ _ (nativeToJson_moves hdec v st) (vectorToJson_moves hdec obj _)

theorem fieldsToJson_moves (hdec : ∀ p s, R s (dec.decode lib p s).2) (special : Option Payload) :
    (fields : List (Bytes × Native)) → (st : NativeToJsonState σ) →
    R st.abieos (fieldsToJson lib dec special fields st).abieos
  | [], st => refl st.abieos
  | (name, member) :: fields, st => by
      rw [fieldsToJson]
      refine IsTrans.trans _ _ _ ?_ (fieldsToJson_moves hdec special fields _)
      cases special.filter fun p ↦ p.kind.field = name with
      | none => exact nativeToJson_moves hdec member (st.emit (.key name))
      | some p => exact payloadToJson_moves hdec p (st.emit (.key name))

end

theorem publishPlain_moves (hdec : ∀ p s, R s (dec.decode lib p s).2) (type : ExportType)
    (fields : List (Bytes × Native)) (s : σ) : R s (publishPlain lib dec type fields s).2 :=
  nativeToJson_moves hdec (.object fields) { encoderErrors := none, abieos := s }

theorem publishEncoded_moves (hdec : ∀ p s, R s (dec.decode lib p s).2) (type : ExportType)
    (v : Native) (attrs : Attrs) (s : σ) : R s (publishEncoded lib dec type v attrs s).2 := by
  rw [publishEncoded, implNativeToJson]
  have hmoves := nativeToJson_moves hdec v { encoderErrors := some [], abieos := s }
  dsimp only
  split <;> exact hmoves

/-- A handler only changes what the decodings change. -/
theorem onEvent_moves (hdec : ∀ p s, R s (dec.decode lib p s).2) (d : Detail) (s : σ)
    (e : Event) : R s (onEvent lib dec d s e).2 := by
  cases e with
  | blockTableDelta _ => exact refl s
  | transactionTrace _ | tableRowUpdate _ => exact publishEncoded_moves hdec _ _ _ s
  | _ => exact publishPlain_moves hdec _ _ s

end Depends

end Chronicle.Decoder
