import Chronicle.Scan.Step
import Chronicle.Logic.Effect

/-!
# Events tagged with their own block

Every event of a block should carry its number and the timestamp of its own header, and the event
that completes it the rest of the header (`Event.Tagged`).  The receiver fills them in from members
that it sets only if the optional part of the block is there, and it never sets the number in the
event of a table delta.  So the events are tagged as they should be exactly if the part of the
block is there or the members hold its header already, and no table delta is announced
(`Taggable`).
-/

namespace Chronicle

open Store Effect

variable {Abi : Type} (lib : Abieos Abi)

/-! ## Tags -/

/-- What the receiver remembers of a block, besides its position. -/
structure Heading where
  header : BlockHeader
  trxCount : Nat

/-- An event carries the number of block `b`, and what it tells of the header is that of `b`. -/
def Event.Tagged (b : Nat) (own : Heading) : Event → Prop
  | .blockStarted e => e.blockNum = b ∧ e.blockTimestamp = own.header.timestamp
  | .block e => e.blockNum = b
  | .blockTableDelta e => e.blockNum = b ∧ e.blockTimestamp = own.header.timestamp
  | .transactionTrace e => e.blockNum = b ∧ e.blockTimestamp = own.header.timestamp
  | .abiUpdate e => e.blockNum = b ∧ e.blockTimestamp = own.header.timestamp
  | .abiRemoval e => e.blockNum = b ∧ e.blockTimestamp = own.header.timestamp
  | .abiError e => e.blockNum = b ∧ e.blockTimestamp = own.header.timestamp
  | .tableRowUpdate e => e.blockNum = b ∧ e.blockTimestamp = own.header.timestamp
  | .permissionUpdate e => e.blockNum = b ∧ e.blockTimestamp = own.header.timestamp
  | .permissionLinkUpdate e => e.blockNum = b ∧ e.blockTimestamp = own.header.timestamp
  | .accountMetadataUpdate e => e.blockNum = b ∧ e.blockTimestamp = own.header.timestamp
  | .blockCompleted e => e.blockNum = b ∧ e.blockTimestamp = own.header.timestamp ∧
      e.producer = own.header.producer ∧ e.previous = own.header.previous ∧
      e.transactionMroot = own.header.transactionMroot ∧
      e.actionMroot = own.header.actionMroot ∧ e.trxCount = own.trxCount
  | .fork _ | .receiverPause _ => True

/-- What a process remembers of the block that it processes. -/
def Proc.heading (p : Proc Abi) : Heading := ⟨p.blockHeader, p.trxCount⟩

/-- A result tells this about its block, if it tells anything. -/
def GetBlocksResult.Describes (result : GetBlocksResult) (own : Heading) : Prop :=
  ∀ bin ∈ result.block, ∀ block, bin = .ok block →
    own = ⟨block.toBlockHeader, block.transactions⟩

/-- The deltas of a result are announced one by one. -/
def TellsDeltas (o : Options) (result : GetBlocksResult) : Prop :=
  o.subscribers.blockTableDeltas = true ∧ ∃ bin ∈ result.deltas, bin ≠ []

/-- The receiver can tag the events of a result. -/
structure Taggable (block : BlockPosition) (result : GetBlocksResult) (own : Heading)
    (w : World Abi) : Prop where
  heading : result.block = none → w.proc.heading = own
  deltas : TellsDeltas w.options result → block.blockNum = 0

/-! ## What the programs publish -/

/-- Events with the property were published, and what `stamp` tells of the process is as it
was. -/
structure Emits {σ : Type} (P : Event → Prop) (stamp : Proc Abi → σ) (w₀ w : World Abi) : Prop where
  options : w.options = w₀.options
  stamp : stamp w.proc = stamp w₀.proc
  events : ∃ es, published w.log = published w₀.log ++ es ∧ ∀ e ∈ es, P e

namespace Emits

variable {σ : Type} {P : Event → Prop} {stamp : Proc Abi → σ} {w₀ w w' : World Abi}

theorem refl (w : World Abi) : Emits P stamp w w :=
  ⟨rfl, rfl, [], (List.append_nil _).symm, fun _ he ↦ absurd he List.not_mem_nil⟩

theorem trans (h : Emits P stamp w₀ w) (h' : Emits P stamp w w') : Emits P stamp w₀ w' := by
  obtain ⟨es, hes, hP⟩ := h.events
  obtain ⟨es', hes', hP'⟩ := h'.events
  refine ⟨h'.options.trans h.options, h'.stamp.trans h.stamp, es ++ es', ?_, ?_⟩
  · rw [hes', hes, List.append_assoc]
  · intro e he
    rcases List.mem_append.mp he with he | he
    · exact hP e he
    · exact hP' e he

/-- A change that publishes nothing and leaves what matters of the process. -/
theorem change (h : Emits P stamp w₀ w) (hoptions : w'.options = w.options)
    (hstamp : stamp w'.proc = stamp w.proc) (hlog : published w'.log = published w.log) :
    Emits P stamp w₀ w' :=
  h.trans ⟨hoptions, hstamp, [], by rw [hlog, List.append_nil], fun _ he ↦
    absurd he List.not_mem_nil⟩

end Emits

section Programs

variable {σ : Type} {P : Event → Prop} {stamp : Proc Abi → σ} {w₀ : World Abi}

theorem keeps_publish {e : Event} (he : P e) : Keeps (Emits P stamp w₀) (publish e) := by
  intro w hw
  refine hw.trans ⟨rfl, rfl, [e], published_append _ _, fun e' he' ↦ ?_⟩
  rwa [List.mem_singleton.mp he']

/-- An observation that is no event. -/
theorem keeps_observe {o : Observation Abi} (ho : published [o] = []) :
    Keeps (Emits P stamp w₀) (observe o) := by
  intro w hw
  refine hw.change rfl rfl ?_
  change published (w.log ++ [o]) = _
  rw [published_append, ho, List.append_nil]

theorem keeps_modifyProc {f : Proc Abi → Proc Abi} (hf : ∀ p, stamp (f p) = stamp p) :
    Keeps (Emits P stamp w₀) (modifyProc f) := fun w hw ↦ hw.change rfl (hf w.proc) rfl

theorem keeps_modifyTables (f : Tables → Tables) :
    Keeps (Emits P stamp w₀) (modifyTables f) := fun _ hw ↦ hw.change rfl rfl rfl

theorem keeps_fromBin {α : Type} (bin : Parsed α) : Keeps (Emits P stamp w₀) (fromBin bin) := by
  cases bin with
  | error what => exact Keeps.throw
  | ok a => exact Keeps.pure

/-- A session of the database, kept or undone. -/
theorem keeps_withUndoSession {m : Receiver Abi Unit} (hm : Keeps (Emits P stamp w₀) m) :
    Keeps (Emits P stamp w₀) (withUndoSession m) := by
  intro w hw
  have hstart : Emits P stamp w₀ { w with db := w.db.startUndoSession } := hw.change rfl rfl rfl
  have hends := hm _ hstart
  rw [withUndoSession]
  cases hr : m { w with db := w.db.startUndoSession } with
  | ok u w' =>
      rw [hr] at hends
      refine Emits.change hends rfl rfl ?_
      change published (w'.log ++ [.pushed w'.db.current]) = _
      rw [published_append]
      exact List.append_nil _
  | error e w' =>
      rw [hr] at hends
      exact Emits.change hends rfl rfl rfl

end Programs

/-! ## The parts of a block -/

/-- An event is tagged as the members of the process tell; the number of a table delta is zero. -/
def Event.Stamped (told : Prop) (b : Nat) (own : Heading) : Event → Prop
  | .blockTableDelta e => told ∧ e.blockNum = 0 ∧ e.blockTimestamp = own.header.timestamp
  | e => e.Tagged b own

/-- Only the events of table deltas can be tagged wrongly. -/
theorem Event.Stamped.tagged {told : Prop} {b : Nat} {own : Heading} {e : Event}
    (h : e.Stamped told b own) (hb : told → b = 0) : e.Tagged b own := by
  cases e with
  | blockTableDelta e => exact ⟨h.2.1.trans (hb h.1).symm, h.2.2⟩
  | _ => exact h

/-- The members from which events are tagged. -/
def Proc.mark (p : Proc Abi) : Nat × Heading := (p.head, p.heading)

/-- The world `w` is reached from `w₀` while the parts of a block are processed. -/
abbrev Marked (told : Prop) (w₀ w : World Abi) : Prop :=
  Emits (Event.Stamped told w₀.proc.head w₀.proc.heading) Proc.mark w₀ w

namespace Emits

variable {told : Prop} {w₀ w : World Abi}

theorem head (h : Marked told w₀ w) : w.proc.head = w₀.proc.head := congrArg Prod.fst h.stamp

theorem heading (h : Marked told w₀ w) : w.proc.heading = w₀.proc.heading :=
  congrArg Prod.snd h.stamp

theorem timestamp (h : Marked told w₀ w) :
    w.proc.blockHeader.timestamp = w₀.proc.heading.header.timestamp :=
  congrArg (fun own ↦ own.header.timestamp) h.heading

theorem tag (h : Marked told w₀ w) : w.proc.head = w₀.proc.head ∧
    w.proc.blockHeader.timestamp = w₀.proc.heading.header.timestamp := ⟨h.head, h.timestamp⟩

end Emits

section Parts

variable {told : Prop} {w₀ : World Abi}

theorem keeps_initContractAbiCtxt : Keeps (Marked told w₀) initContractAbiCtxt :=
  keeps_modifyProc fun _ ↦ rfl

theorem keeps_abieosSetAbiBin (account : Name) (data : Bytes) :
    Keeps (Marked told w₀) (abieosSetAbiBin lib account data) := by
  refine Keeps.get_bind fun w _ ↦ (keeps_observe rfl).bind fun _ ↦ ?_
  exact Keeps.bind (keeps_modifyProc fun _ ↦ rfl) fun _ ↦ Keeps.pure

theorem keeps_saveContractAbiHistory (account : Name) (data : Bytes) :
    Keeps (Marked told w₀) (saveContractAbiHistory account data) :=
  Keeps.get_bind fun _ _ ↦ keeps_modifyTables _

theorem keeps_clearContractAbi (account : Name) :
    Keeps (Marked told w₀) (clearContractAbi account) := by
  refine Keeps.get_bind fun w hw ↦ ?_
  have hrest : Keeps (Marked told w₀) (if (w.db.current.contractAbi.find? account).isSome then do
      modifyTables fun t ↦ { t with contractAbi := t.contractAbi.erase account }
      publish (.abiRemoval
        { blockNum := w.proc.head, blockTimestamp := w.proc.blockHeader.timestamp, account })
      saveContractAbiHistory account []
    else pure ()) := by
    refine Keeps.ite (fun _ ↦ (keeps_modifyTables _).bind fun _ ↦ ?_) fun _ ↦ Keeps.pure
    refine (keeps_publish ?_).bind fun _ ↦ keeps_saveContractAbiHistory account []
    exact hw.tag
  refine Keeps.ite (fun _ ↦ keeps_initContractAbiCtxt.bind fun _ ↦ hrest) fun _ ↦ hrest

theorem keeps_publishAbiError (account : Name) (what : String) :
    Keeps (Marked told w₀) (publishAbiError account what) := by
  refine Keeps.get_bind fun w hw ↦ keeps_publish ?_
  exact hw.tag

theorem keeps_publishAbiUpdate (account : Name) (data : Bytes) :
    Keeps (Marked told w₀) (publishAbiUpdate lib account data) := by
  refine Keeps.get_bind fun w hw ↦ Keeps.ite (fun _ ↦ ?_) fun _ ↦ Keeps.pure
  cases lib.fromBin data with
  | error what => exact keeps_publishAbiError account what
  | ok _ =>
      refine keeps_publish ?_
      exact hw.tag

theorem keeps_saveContractAbi (account : Name) (data : Bytes) :
    Keeps (Marked told w₀) (saveContractAbi lib account data) := by
  refine Keeps.get_bind fun w _ ↦ ?_
  have htry : Keeps (Marked told w₀) (tryContractAbi lib account data) := by
    refine (keeps_abieosSetAbiBin lib account data).bind fun ok ↦ Keeps.ite (fun _ ↦ ?_) fun _ ↦
      keeps_publishAbiError account _
    refine Keeps.bind (keeps_modifyProc fun _ ↦ rfl) fun _ ↦ ?_
    exact (keeps_modifyTables _).bind fun _ ↦ keeps_publishAbiUpdate lib account data
  have hrest : Keeps (Marked told w₀) (do
      tryContractAbi lib account data
      saveContractAbiHistory account data) :=
    htry.bind fun _ ↦ keeps_saveContractAbiHistory account data
  exact Keeps.ite (fun _ ↦ keeps_initContractAbiCtxt.bind fun _ ↦ hrest) fun _ ↦ hrest

theorem keeps_importContractAbi (account : Name) (data : Bytes) :
    Keeps (Marked told w₀) (importContractAbi lib account data) :=
  (keeps_abieosSetAbiBin lib account data).bind fun _ ↦
    Keeps.bind (keeps_modifyProc fun _ ↦ rfl) fun _ ↦ Keeps.pure

theorem keeps_getContractAbiReady (account : Name) :
    Keeps (Marked told w₀) (getContractAbiReady lib account) := by
  have hload : Keeps (Marked told w₀) (loadContractAbi lib account) := by
    refine Keeps.get_bind fun w _ ↦ Keeps.ite (fun _ ↦ Keeps.pure) fun _ ↦ ?_
    refine Keeps.ite (fun _ ↦ ?_) fun _ ↦ ?_
    · cases lowerBoundRev w.db.current.contractAbiHistory account w.proc.head with
      | none => exact Keeps.pure
      | some row => exact keeps_importContractAbi lib account row.2
    · cases w.db.current.contractAbi.find? account with
      | none => exact Keeps.pure
      | some data => exact keeps_importContractAbi lib account data
  refine hload.bind fun ready ↦ Keeps.get_bind fun w _ ↦ ?_
  exact (keeps_observe rfl).bind fun _ ↦ Keeps.pure

/-! ## Deltas and traces -/

theorem keeps_receiveAccountRow (row : Row AccountV0) :
    Keeps (Marked told w₀) (receiveAccountRow lib row) := by
  refine (keeps_fromBin row.variant).bind fun _ ↦ Keeps.ite (fun _ ↦ ?_) fun _ ↦ Keeps.pure
  refine (keeps_fromBin row.data).bind fun acc ↦ Keeps.ite (fun _ ↦ ?_) fun _ ↦ ?_
  · exact keeps_clearContractAbi acc.name
  · exact keeps_saveContractAbi lib acc.name acc.abi

theorem keeps_receiveContractRow (row : Row ContractRowV0) :
    Keeps (Marked told w₀) (receiveContractRow lib row) := by
  refine (keeps_fromBin row.variant).bind fun _ ↦ (keeps_fromBin row.data).bind fun kvo ↦ ?_
  refine Keeps.get_bind fun w hw ↦ Keeps.ite (fun _ ↦ ?_) fun _ ↦ Keeps.pure
  refine (keeps_getContractAbiReady lib kvo.code).bind fun ready ↦ ?_
  refine Keeps.ite (fun _ ↦ keeps_publish ?_) fun _ ↦ keeps_publish ?_
  · exact hw.tag
  · exact hw.tag

theorem keeps_receiveAccountInfoRow {channel : AccountInfoUpdate → Event}
    (hc : ∀ e : AccountInfoUpdate, e.blockNum = w₀.proc.head →
      e.blockTimestamp = w₀.proc.heading.header.timestamp →
        (channel e).Stamped told w₀.proc.head w₀.proc.heading)
    (withAdded : Bool) (row : Row Bytes) :
    Keeps (Marked told w₀) (receiveAccountInfoRow channel withAdded row) := by
  refine (keeps_fromBin row.variant).bind fun _ ↦ (keeps_fromBin row.data).bind fun data ↦ ?_
  exact Keeps.get_bind fun w hw ↦ keeps_publish (hc _ hw.head hw.timestamp)

theorem keeps_receiveTableRows (delta : TableDelta) :
    Keeps (Marked told w₀) (receiveTableRows lib delta) := by
  refine Keeps.get_bind fun w _ ↦ ?_
  cases delta with
  | account rows =>
      exact Keeps.ite (fun _ ↦ Keeps.forM (keeps_receiveAccountRow lib)) fun _ ↦ Keeps.pure
  | contractRow rows =>
      exact Keeps.ite (fun _ ↦ Keeps.forM (keeps_receiveContractRow lib)) fun _ ↦ Keeps.pure
  | permission rows | permissionLink rows | accountMetadata rows =>
      refine Keeps.ite (fun _ ↦ Keeps.forM (keeps_receiveAccountInfoRow ?_ _)) fun _ ↦ Keeps.pure
      exact fun e hb ht ↦ ⟨hb, ht⟩
  | other name => exact Keeps.pure

theorem keeps_receiveTableDelta
    (htold : w₀.options.subscribers.blockTableDeltas = true → told) (bin : Parsed TableDelta) :
    Keeps (Marked told w₀) (receiveTableDelta lib bin) := by
  refine Keeps.get_bind fun w hw ↦ (keeps_fromBin bin).bind fun delta ↦ ?_
  refine (keeps_receiveTableRows lib delta).bind fun _ ↦ Keeps.ite (fun h ↦ ?_) fun _ ↦ Keeps.pure
  rw [hw.options] at h
  refine keeps_publish ?_
  exact ⟨htold h, rfl, hw.timestamp⟩

theorem keeps_receiveDeltasPart {result : GetBlocksResult}
    (htold : TellsDeltas w₀.options result → told) :
    Keeps (Marked told w₀) (receiveDeltasPart lib result) := by
  rw [receiveDeltasPart]
  cases hdeltas : result.deltas with
  | none => exact Keeps.pure
  | some bin =>
      cases bin with
      | nil => exact Keeps.pure
      | cons delta rest =>
          refine Keeps.forM (keeps_receiveTableDelta lib fun hsub ↦ htold ⟨hsub, ?_⟩)
          exact ⟨delta :: rest, hdeltas, List.cons_ne_nil _ _⟩

theorem keeps_receiveTracesPart (result : GetBlocksResult) :
    Keeps (Marked told w₀) (receiveTracesPart result) := by
  rw [receiveTracesPart]
  cases result.traces with
  | none => exact Keeps.pure
  | some bin =>
      refine Keeps.get_bind fun w _ ↦ Keeps.ite (fun _ ↦ Keeps.forM fun bin ↦ ?_) fun _ ↦ Keeps.pure
      refine (keeps_fromBin bin).bind fun trace ↦ Keeps.get_bind fun w hw ↦ ?_
      refine Keeps.ite (fun _ ↦ keeps_publish ?_) fun _ ↦ Keeps.pure
      exact hw.tag

/-! ## The whole block -/

theorem keeps_addReceivedBlock (block : BlockPosition) :
    Keeps (Marked told w₀) (addReceivedBlock block) := by
  have hcreate : Keeps (Marked told w₀) (createReceivedBlock block) := by
    refine Keeps.get_bind fun w _ ↦ Keeps.ite (fun _ ↦ ?_) fun _ ↦ keeps_modifyTables _
    exact Keeps.throw.bind fun _ ↦ keeps_modifyTables _
  have htruncate : Keeps (Marked told w₀) truncateReceivedBlocks := by
    refine Keeps.get_bind fun w _ ↦ ?_
    cases truncateRows w.proc.irreversible w.db.current.receivedBlocks.rows
        w.db.current.receivedBlocks with
    | none => exact Keeps.throw
    | some truncated => exact keeps_modifyTables _
  refine Keeps.get_bind fun w _ ↦ Keeps.ite (fun _ ↦ ?_) fun _ ↦ Keeps.pure
  exact hcreate.bind fun _ ↦ htruncate

theorem keeps_storeBlock (block : BlockPosition) {result : GetBlocksResult}
    (htold : TellsDeltas w₀.options result → told) :
    Keeps (Marked told w₀) (storeBlock lib block result) := by
  refine Keeps.bind (keeps_withUndoSession ?_) fun _ ↦ ?_
  · refine (keeps_addReceivedBlock block).bind fun _ ↦ ?_
    refine (keeps_receiveDeltasPart lib htold).bind fun _ ↦ ?_
    exact Keeps.get_bind fun _ _ ↦ keeps_modifyTables _
  · refine Keeps.get_bind fun w _ ↦ (keeps_observe rfl).bind fun _ ↦ ?_
    exact Keeps.modify fun w hw ↦ hw.change rfl rfl rfl

theorem keeps_finishBlock : Keeps (Marked told w₀) finishBlock := by
  refine Keeps.get_bind fun w hw ↦ keeps_publish ?_
  have hown := hw.heading
  refine ⟨hw.head, ?_, ?_, ?_, ?_, ?_, congrArg Heading.trxCount hown⟩
  · exact congrArg (fun own ↦ own.header.timestamp) hown
  · exact congrArg (fun own ↦ own.header.producer) hown
  · exact congrArg (fun own ↦ own.header.previous) hown
  · exact congrArg (fun own ↦ own.header.transactionMroot) hown
  · exact congrArg (fun own ↦ own.header.actionMroot) hown

/-- The rest of a block after its own part. -/
theorem keeps_afterBlockPart (o : Options) (block : BlockPosition) {result : GetBlocksResult}
    (htold : TellsDeltas w₀.options result → told) :
    Keeps (Marked told w₀) (do
      if o.interactiveMode then receiveDeltasPart lib result
      else storeBlock lib block result
      receiveTracesPart result
      finishBlock) := by
  have hrest : Keeps (Marked told w₀) (do
      receiveTracesPart result
      finishBlock) := (keeps_receiveTracesPart result).bind fun _ ↦ keeps_finishBlock
  refine Keeps.ite (fun _ ↦ ?_) fun _ ↦ ?_
  · exact (keeps_receiveDeltasPart lib htold).bind fun _ ↦ hrest
  · exact (keeps_storeBlock lib block htold).bind fun _ ↦ hrest

end Parts

/-- The process remembers this of a block. -/
def World.withHeading (own : Heading) (w : World Abi) : World Abi :=
  { w with proc := { w.proc with blockHeader := own.header, trxCount := own.trxCount } }

/-- After its own part the heading of a block is the one that the process remembers. -/
theorem receiveBlockPart_ends {result : GetBlocksResult} {own : Heading} {told : Prop}
    (hown : result.Describes own) {w : World Abi}
    (hheading : result.block = none → w.proc.heading = own) :
    Ends (fun _ w' ↦ Marked told (w.withHeading own) w')
      (fun _ w' ↦ ∃ es, published w'.log = published w.log ++ es ∧
        ∀ e ∈ es, e.Stamped told w.proc.head own) (receiveBlockPart result w) := by
  rw [receiveBlockPart]
  cases hblock : result.block with
  | none =>
      obtain rfl := hheading hblock
      exact Emits.refl w
  | some bin =>
      cases bin with
      | error what => exact ⟨[], (List.append_nil _).symm, fun _ he ↦ absurd he List.not_mem_nil⟩
      | ok block =>
          obtain rfl := hown _ hblock block rfl
          have hrest : Keeps (Marked told (w.withHeading ⟨block.toBlockHeader, block.transactions⟩))
              (do
                let w ← get
                if w.options.subscribers.blockStarted then
                  publish (.blockStarted
                    { blockNum := w.proc.head, blockId := w.proc.headId,
                      blockTimestamp := block.timestamp, lastIrreversible := w.proc.irreversible })
                if !w.options.skipBlockEvents then
                  publish (.block
                    { blockNum := w.proc.head, blockId := w.proc.headId,
                      lastIrreversible := w.proc.irreversible, block })) := by
            refine Keeps.get_bind fun w' hw' ↦ ?_
            have hevent : Keeps (Marked told (w.withHeading
              ⟨block.toBlockHeader, block.transactions⟩))
                (if !w'.options.skipBlockEvents then
                  publish (.block
                    { blockNum := w'.proc.head, blockId := w'.proc.headId,
                      lastIrreversible := w'.proc.irreversible, block }) else pure ()) := by
              refine Keeps.ite (fun _ ↦ keeps_publish ?_) fun _ ↦ Keeps.pure
              exact hw'.head
            refine Keeps.ite (fun _ ↦ Keeps.bind (keeps_publish ?_) fun _ ↦ hevent) fun _ ↦ hevent
            exact ⟨hw'.head, rfl⟩
          exact (hrest _ (Emits.refl _)).mono (fun _ _ h ↦ h) fun _ _ h ↦ h.events

/-- However a block ends, its events are tagged with the heading that the process remembers. -/
theorem processBlock_stamped (block : BlockPosition) {result : GetBlocksResult} {own : Heading}
    (hown : result.Describes own) {w : World Abi}
    (hheading : result.block = none → w.proc.heading = own) :
    Ends (fun _ w' ↦ Marked (TellsDeltas w.options result) (w.withHeading own) w')
      (fun _ w' ↦ ∃ es, published w'.log = published w.log ++ es ∧
        ∀ e ∈ es, e.Stamped (TellsDeltas w.options result) w.proc.head own)
      (processBlock lib block result w) := by
  change Ends _ _ ((receiveBlockPart result >>= fun _ ↦ _ : Receiver Abi Unit) w)
  refine (receiveBlockPart_ends hown hheading).bind (fun _ w₁ hw₁ ↦ ?_) fun _ _ h ↦ h
  have hrest : Keeps (Marked (TellsDeltas w.options result) (w.withHeading own)) _ :=
    keeps_afterBlockPart lib w.options block fun h ↦ h
  exact (hrest w₁ hw₁).mono (fun _ _ h ↦ h) fun _ _ h ↦ h.events

/-! ## The position -/

/-- Only forks are announced before a block is processed, and the process still remembers the
block before. -/
abbrev Headed (w₀ w : World Abi) : Prop := Emits (fun e ↦ ∃ f, e = .fork f) Proc.heading w₀ w

section Position

variable {w₀ : World Abi}

theorem keeps_set {w : World Abi} (hw : Headed w₀ w) :
    Keeps (Headed w₀) (set w : Receiver Abi Unit) := fun _ _ ↦ hw

theorem keeps_processInteractiveReqs : Keeps (Headed w₀) processInteractiveReqs := by
  refine Keeps.get_bind fun w _ ↦ Keeps.ite (fun _ ↦ ?_) fun _ ↦ Keeps.pure
  cases w.proc.interactiveReqQueue with
  | nil => exact Keeps.pure
  | cons req queue =>
      refine Keeps.bind (keeps_modifyProc fun _ ↦ rfl) fun _ ↦ ?_
      refine Keeps.bind (keeps_modifyProc fun _ ↦ rfl) fun _ ↦ ?_
      exact Keeps.bind (keeps_modifyProc fun _ ↦ rfl) fun _ ↦ keeps_observe rfl

theorem keeps_interactiveResult (b : Nat) : Keeps (Headed w₀) (interactiveResult b) := by
  refine Keeps.get_bind fun w _ ↦ Keeps.ite (fun _ ↦ ?_) fun _ ↦ Keeps.pure
  exact Keeps.bind (keeps_modifyProc fun _ ↦ rfl) fun _ ↦ keeps_processInteractiveReqs

theorem keeps_raiseRevision (b : Nat) : Keeps (Headed w₀) (raiseRevision b) := by
  refine Keeps.get_bind fun w hw ↦ Keeps.ite (fun _ ↦ ?_) fun _ ↦ Keeps.pure
  cases w.db.setRevision (Uint32.pred b) with
  | none => exact Keeps.throw
  | some db => exact keeps_set (hw.change rfl rfl rfl)

theorem keeps_rollbackDb (b : Nat) : Keeps (Headed w₀) (rollbackDb b) := by
  refine Keeps.get_bind fun w hw ↦ ?_
  cases w.db.rollback b with
  | none => exact Keeps.bind (keeps_set (hw.change rfl rfl rfl)) fun _ ↦ Keeps.throw
  | some db =>
      refine Keeps.bind (keeps_set (hw.change rfl rfl rfl)) fun _ ↦ ?_
      exact Keeps.ite (fun _ ↦ Keeps.throw) fun _ ↦ Keeps.pure

theorem keeps_handleFork (b lastIrreversible : Nat) :
    Keeps (Headed w₀) (handleFork b lastIrreversible) := by
  refine Keeps.get_bind fun w _ ↦ ?_
  refine Keeps.bind (keeps_modifyProc fun _ ↦ rfl) fun _ ↦ (keeps_rollbackDb b).bind fun _ ↦ ?_
  exact Keeps.bind (keeps_modifyProc fun _ ↦ rfl) fun _ ↦ keeps_publish ⟨_, rfl⟩

theorem keeps_checkPosition (b : Nat) (result : GetBlocksResult) :
    Keeps (Headed w₀) (checkPosition b result) := by
  refine (keeps_raiseRevision b).bind fun _ ↦ Keeps.get_bind fun w _ ↦ ?_
  refine Keeps.ite (fun _ ↦ ?_) fun _ ↦ Keeps.pure
  have hplace : Keeps (Headed w₀) (if b ≤ w.proc.head then
      handleFork b result.lastIrreversible.blockNum
    else if 0 < w.proc.head ∧ w.options.startBlockNum < w.proc.head ∧
        ¬ extendsHead w.proc result then throw (.exception "prev_block does not match")
    else pure ()) :=
    Keeps.ite (fun _ ↦ keeps_handleFork b _) fun _ ↦
      Keeps.ite (fun _ ↦ Keeps.throw) fun _ ↦ Keeps.pure
  exact Keeps.ite (fun _ ↦ Keeps.throw.bind fun _ ↦ hplace) fun _ ↦ hplace

/-- When a position is accepted the head is the new block. -/
theorem acceptPosition_headed {block : BlockPosition} {result : GetBlocksResult} {w w₁ : World Abi}
    (h : acceptPosition block result w = .ok () w₁) :
    Headed w w₁ ∧ w₁.proc.head = block.blockNum := by
  have hmove : Triple (Headed w) (moveHead block result)
      (fun _ w' ↦ Headed w w' ∧ w'.proc.head = block.blockNum) fun _ w' ↦ Headed w w' :=
    fun w' hw' ↦ ⟨hw'.change rfl rfl rfl, rfl⟩
  have haccept : Triple (Headed w) (acceptPosition block result)
      (fun _ w' ↦ Headed w w' ∧ w'.proc.head = block.blockNum) fun _ w' ↦ Headed w w' := by
    refine Triple.get_bind fun w' hw' ↦ ?_
    refine Triple.ite (fun _ ↦ Triple.throw_bind fun _ h ↦ h) (fun _ ↦ ?_) w' hw'
    refine Triple.ite (fun _ ↦ ?_) fun _ ↦ ?_
    · exact Triple.bind (keeps_interactiveResult _) fun _ ↦ hmove
    · exact Triple.bind (keeps_checkPosition _ _) fun _ ↦ hmove
  exact haccept.ok (Emits.refl w) h

end Position

/-! ## Announced deltas -/

section Deltas

variable {w w₁ w₂ w' : World Abi}

/-- The record of events only grows. -/
def Extends (w w' : World Abi) : Prop := ∃ es, published w'.log = published w.log ++ es

theorem Emits.extends {σ : Type} {P : Event → Prop} {stamp : Proc Abi → σ} {w w' : World Abi}
    (h : Emits P stamp w w') : Extends w w' := by
  obtain ⟨es, hes, -⟩ := h.events
  exact ⟨es, hes⟩

theorem extends_of_keeps {α : Type} {m : Receiver Abi α} (h : Keeps (Marked True w) m) {a : α}
    (hm : m w = .ok a w') : Extends w w' := (Keeps.ok h (Emits.refl w) hm).extends

theorem mem_newEvents {e : Event} (h₁ : Extends w w₁) (h₂ : Extends w₁ w₂) (h : Extends w₂ w')
    (he : e ∈ newEvents w₁ w₂) : e ∈ newEvents w w' := by
  obtain ⟨es₁, hes₁⟩ := h₁
  obtain ⟨es₂, hes₂⟩ := h₂
  obtain ⟨es, hes⟩ := h
  rw [newEvents_eq hes₂] at he
  have hall : published w'.log = published w.log ++ (es₁ ++ (es₂ ++ es)) := by
    rw [hes, hes₂, hes₁, List.append_assoc, List.append_assoc]
  rw [newEvents_eq hall]
  exact List.mem_append_right _ (List.mem_append_left _ he)

/-- A delta that was received is announced with the number zero. -/
theorem receiveTableDelta_tells {bin : Parsed TableDelta}
    (hsub : w.options.subscribers.blockTableDeltas = true)
    (h : receiveTableDelta lib bin w = .ok () w') :
    ∃ e : BlockTableDelta, e.blockNum = 0 ∧ .blockTableDelta e ∈ newEvents w w' := by
  change (fromBin bin >>= fun delta ↦ _ : Receiver Abi Unit) w = .ok () w' at h
  obtain ⟨delta, w₁, hbin, hrest⟩ := bind_eq_ok h
  obtain ⟨_, w₂, hrows, hlast⟩ := bind_eq_ok hrest
  rw [if_pos hsub] at hlast
  obtain ⟨-, rfl⟩ := EStateM.Result.ok.inj hlast
  obtain ⟨es₁, h₁⟩ := extends_of_keeps (keeps_fromBin bin) hbin
  obtain ⟨es₂, h₂⟩ := extends_of_keeps (keeps_receiveTableRows lib delta) hrows
  refine ⟨{ blockNum := 0, blockTimestamp := w.proc.blockHeader.timestamp, tableDelta := delta },
    rfl, ?_⟩
  have hlog : published (w₂.log ++ [.published (.blockTableDelta
      { blockNum := 0, blockTimestamp := w.proc.blockHeader.timestamp, tableDelta := delta })]) =
      published w.log ++ (es₁ ++ es₂ ++ [.blockTableDelta
        { blockNum := 0, blockTimestamp := w.proc.blockHeader.timestamp,
          tableDelta := delta }]) := by
    rw [published_append, h₂, h₁, List.append_assoc, List.append_assoc, List.append_assoc]
    rfl
  rw [newEvents_eq hlog]
  exact List.mem_append_right _ (List.mem_singleton_self _)

theorem Extends.trans (h : Extends w w₁) (h' : Extends w₁ w') : Extends w w' := by
  obtain ⟨es, hes⟩ := h
  obtain ⟨es', hes'⟩ := h'
  exact ⟨es ++ es', by rw [hes', hes, List.append_assoc]⟩

theorem Extends.refl (w : World Abi) : Extends w w := ⟨[], (List.append_nil _).symm⟩

/-- The deltas of a result are announced with the number zero. -/
theorem receiveDeltasPart_tells {result : GetBlocksResult}
    (htells : TellsDeltas w.options result) (h : receiveDeltasPart lib result w = .ok () w') :
    ∃ e : BlockTableDelta, e.blockNum = 0 ∧ .blockTableDelta e ∈ newEvents w w' := by
  obtain ⟨hsub, bin, hdeltas, hne⟩ := htells
  rw [receiveDeltasPart, hdeltas] at h
  obtain ⟨delta, rest, rfl⟩ := List.exists_cons_of_ne_nil hne
  obtain ⟨_, w₁, hdelta, hrest⟩ := bind_eq_ok h
  obtain ⟨e, he, hmem⟩ := receiveTableDelta_tells lib hsub hdelta
  have hfirst : Extends w w₁ :=
    extends_of_keeps (keeps_receiveTableDelta lib (fun _ ↦ trivial) delta) hdelta
  have hloop : Extends w₁ w' :=
    extends_of_keeps (Keeps.forM (keeps_receiveTableDelta lib fun _ ↦ trivial)) hrest
  exact ⟨e, he, mem_newEvents (.refl w) hfirst hloop hmem⟩

/-- A session that is kept announces what its program does. -/
theorem withUndoSession_tells {m : Receiver Abi Unit} (h : withUndoSession m w = .ok () w') :
    ∃ w₁, m { w with db := w.db.startUndoSession } = .ok () w₁ ∧ Extends w₁ w' := by
  rw [withUndoSession] at h
  cases hm : m { w with db := w.db.startUndoSession } with
  | error e w₁ =>
      rw [hm] at h
      cases h
  | ok u w₁ =>
      rw [hm] at h
      obtain ⟨-, rfl⟩ := EStateM.Result.ok.inj h
      exact ⟨w₁, rfl, [], published_append _ _⟩

/-- A block that is stored announces its deltas. -/
theorem storeBlock_tells {block : BlockPosition} {result : GetBlocksResult}
    (htells : TellsDeltas w.options result) (h : storeBlock lib block result w = .ok () w') :
    ∃ e : BlockTableDelta, e.blockNum = 0 ∧ .blockTableDelta e ∈ newEvents w w' := by
  obtain ⟨_, w₁, hsession, hcommit⟩ := bind_eq_ok h
  obtain ⟨w₂, hm, hkept⟩ := withUndoSession_tells hsession
  obtain ⟨_, w₃, hadd, hrest⟩ := bind_eq_ok hm
  obtain ⟨_, w₄, hdeltas, hsave⟩ := bind_eq_ok hrest
  have hadded : Marked True _ w₃ := Keeps.ok (keeps_addReceivedBlock block) (Emits.refl _) hadd
  obtain ⟨e, he, hmem⟩ := receiveDeltasPart_tells lib (hadded.options ▸ htells) hdeltas
  have hsaved : Extends w₄ w₂ :=
    extends_of_keeps (Keeps.get_bind fun _ _ ↦ keeps_modifyTables _) hsave
  have hcommitted : Extends w₁ w' := by
    refine extends_of_keeps (Keeps.get_bind fun w _ ↦ (keeps_observe rfl).bind fun _ ↦ ?_) hcommit
    exact Keeps.modify fun w hw ↦ hw.change rfl rfl rfl
  have hreceived : Extends w₃ w₄ :=
    extends_of_keeps (keeps_receiveDeltasPart lib fun _ ↦ trivial) hdeltas
  exact ⟨e, he, mem_newEvents hadded.extends hreceived
    (hsaved.trans (hkept.trans hcommitted)) hmem⟩

/-- The last event of a block tells what the process remembers of it. -/
theorem finishBlock_tells {own : Heading} (hown : w.proc.heading = own)
    (h : finishBlock w = .ok () w') :
    ∃ e : BlockFinished, .blockCompleted e ∈ newEvents w w' ∧ own =
      ⟨⟨e.blockTimestamp, e.producer, e.previous, e.transactionMroot, e.actionMroot⟩,
        e.trxCount⟩ := by
  obtain ⟨-, rfl⟩ := EStateM.Result.ok.inj h
  refine ⟨blockFinished w.proc, ?_, hown.symm⟩
  rw [newEvents_eq (published_append _ _)]
  exact List.mem_singleton_self _

/-- A block that is completed announces its deltas, and at last what the process remembers of
it. -/
theorem processBlock_tells {block : BlockPosition} {result : GetBlocksResult} {own : Heading}
    (hown : result.Describes own) (hheading : result.block = none → w.proc.heading = own)
    (h : processBlock lib block result w = .ok () w') :
    (TellsDeltas w.options result →
        ∃ e : BlockTableDelta, e.blockNum = 0 ∧ .blockTableDelta e ∈ newEvents w w') ∧
      ∃ e : BlockFinished, .blockCompleted e ∈ newEvents w w' ∧ own =
        ⟨⟨e.blockTimestamp, e.producer, e.previous, e.transactionMroot, e.actionMroot⟩,
          e.trxCount⟩ := by
  change (receiveBlockPart result >>= fun _ ↦ _ : Receiver Abi Unit) w = _ at h
  obtain ⟨_, w₁, hblock, hrest⟩ := bind_eq_ok h
  have hw₁ : Marked True (w.withHeading own) w₁ := by
    have hends := @receiveBlockPart_ends _ _ _ True hown w hheading
    rw [hblock] at hends
    exact hends
  -- what comes after the deltas
  have hlast : ∀ {w₂}, Marked True (w.withHeading own) w₂ → Extends w₁ w₂ →
      (TellsDeltas w.options result →
        ∃ e : BlockTableDelta, e.blockNum = 0 ∧ .blockTableDelta e ∈ newEvents w₁ w₂) →
      (receiveTracesPart result >>= fun _ ↦ finishBlock : Receiver Abi Unit) w₂ = .ok () w' →
      (TellsDeltas w.options result →
          ∃ e : BlockTableDelta, e.blockNum = 0 ∧ .blockTableDelta e ∈ newEvents w w') ∧
        ∃ e : BlockFinished, .blockCompleted e ∈ newEvents w w' ∧ own =
          ⟨⟨e.blockTimestamp, e.producer, e.previous, e.transactionMroot, e.actionMroot⟩,
            e.trxCount⟩ := by
    intro w₂ hw₂ hext htells hrest
    obtain ⟨_, w₃, htraces, hfinish⟩ := bind_eq_ok hrest
    have hw₃ := Keeps.ok (keeps_receiveTracesPart result) hw₂ htraces
    have hext₃ : Extends w₂ w₃ := extends_of_keeps (keeps_receiveTracesPart result) htraces
    have hext' : Extends w₃ w' := extends_of_keeps keeps_finishBlock hfinish
    constructor
    · intro ht
      obtain ⟨e, he, hmem⟩ := htells ht
      exact ⟨e, he, mem_newEvents hw₁.extends hext (hext₃.trans hext') hmem⟩
    · obtain ⟨e, hmem, he⟩ := finishBlock_tells hw₃.heading hfinish
      have hall : Extends (w.withHeading own) w₃ := hw₃.extends
      exact ⟨e, mem_newEvents hall hext' (.refl w') hmem, he⟩
  split_ifs at hrest
  · obtain ⟨_, w₂, hdeltas, hrest⟩ := bind_eq_ok hrest
    have hkeeps : ∀ {w₀ : World Abi}, Keeps (Marked True w₀) (receiveDeltasPart lib result) :=
      keeps_receiveDeltasPart lib fun _ ↦ trivial
    refine hlast (Keeps.ok hkeeps hw₁ hdeltas) (extends_of_keeps hkeeps hdeltas) (fun ht ↦ ?_) hrest
    exact receiveDeltasPart_tells lib (hw₁.options ▸ ht) hdeltas
  · obtain ⟨_, w₂, hstore, hrest⟩ := bind_eq_ok hrest
    have hkeeps : ∀ {w₀ : World Abi}, Keeps (Marked True w₀) (storeBlock lib block result) :=
      keeps_storeBlock lib block fun _ ↦ trivial
    refine hlast (Keeps.ok hkeeps hw₁ hstore) (extends_of_keeps hkeeps hstore) (fun ht ↦ ?_) hrest
    exact storeBlock_tells lib (hw₁.options ▸ ht) hstore

end Deltas

/-! ## Results -/

/-- All the events between two worlds are tagged with a block and its heading. -/
def TaggedBetween (b : Nat) (own : Heading) (w w' : World Abi) : Prop :=
  ∀ e ∈ newEvents w w', e.Tagged b own

section Results

variable {block : BlockPosition} {result : GetBlocksResult} {own : Heading} {w w₁ : World Abi}

/-- The position of a result and its block, one after the other. -/
theorem receiveResult_accepted (hblock : result.thisBlock = some block)
    (haccept : acceptPosition block result w.counted = .ok () w₁) :
    receiveResult lib (.ok result) w = (processBlock lib block result >>= fun _ ↦
      get >>= fun w ↦ pure !w.proc.aborting : Receiver Abi Bool) w₁ := by
  rw [receiveResult_block lib hblock]
  exact bind_run haccept

/-- What is published for a result, in terms of what the process remembers in the end. -/
theorem tells_of_accepted (haccept : acceptPosition block result w.counted = .ok () w₁)
    (hown : result.Describes own) (hheading : result.block = none → w.proc.heading = own) :
    Ends
      (fun _ w' ↦ (∀ e ∈ newEvents w w',
          e.Stamped (TellsDeltas w.options result) block.blockNum own) ∧
        (TellsDeltas w.options result →
          ∃ e : BlockTableDelta, e.blockNum = 0 ∧ .blockTableDelta e ∈ newEvents w w') ∧
        ∃ e : BlockFinished, .blockCompleted e ∈ newEvents w w' ∧ own =
          ⟨⟨e.blockTimestamp, e.producer, e.previous, e.transactionMroot, e.actionMroot⟩,
            e.trxCount⟩)
      (fun _ w' ↦ ∀ e ∈ newEvents w w',
        e.Stamped (TellsDeltas w.options result) block.blockNum own)
      (processBlock lib block result w₁) := by
  obtain ⟨hforks, hhead⟩ := acceptPosition_headed haccept
  have hoptions : w₁.options = w.options := hforks.options
  have hheading₁ : result.block = none → w₁.proc.heading = own := fun h ↦
    hforks.stamp.trans (hheading h)
  obtain ⟨es₁, hes₁, hfork⟩ := hforks.events
  -- the forks are tagged in any case
  have hall : ∀ {w' : World Abi}, (∃ es, published w'.log = published w₁.log ++ es ∧
      ∀ e ∈ es, e.Stamped (TellsDeltas w₁.options result) w₁.proc.head own) →
      ∀ e ∈ newEvents w w', e.Stamped (TellsDeltas w.options result) block.blockNum own := by
    rintro w' ⟨es, hes, hstamped⟩ e he
    have hlog : published w'.log = published w.log ++ (es₁ ++ es) := by
      rw [hes, hes₁, List.append_assoc]
      rfl
    rw [newEvents_eq hlog] at he
    rcases List.mem_append.mp he with he | he
    · obtain ⟨f, rfl⟩ := hfork e he
      trivial
    · rw [← hoptions, ← hhead]
      exact hstamped e he
  have hends := processBlock_stamped lib block hown hheading₁
  cases hr : processBlock lib block result w₁ with
  | error e w' =>
      rw [hr] at hends
      exact hall hends
  | ok u w' =>
      rw [hr] at hends
      have hmarked : Marked (TellsDeltas w₁.options result) (w₁.withHeading own) w' := hends
      obtain ⟨htells, hcompleted⟩ := processBlock_tells lib hown hheading₁ hr
      have hnew : ∀ {e : Event}, e ∈ newEvents w₁ w' → e ∈ newEvents w w' := fun he ↦
        mem_newEvents ⟨es₁, hes₁⟩ hmarked.extends (.refl w') he
      refine ⟨hall hmarked.events, fun ht ↦ ?_, ?_⟩
      · obtain ⟨e, he, hmem⟩ := htells (hoptions ▸ ht)
        exact ⟨e, he, hnew hmem⟩
      · obtain ⟨e, hmem, he⟩ := hcompleted
        exact ⟨e, hnew hmem, he⟩

/-- What the process remembers when a block is completed. -/
def GetBlocksResult.remembered (result : GetBlocksResult) (before : Heading) : Heading :=
  match result.block with
  | some (.ok block) => ⟨block.toBlockHeader, block.transactions⟩
  | _ => before

/-- In any state: if a result is accepted and can be tagged, every event of the block is tagged as
it should be; and if it is completed, only then. -/
theorem tagged_iff (hblock : result.thisBlock = some block) (hown : result.Describes own)
    (haccept : acceptPosition block result w.counted = .ok () w₁) :
    (Taggable block result own w →
      Ends (fun _ ↦ TaggedBetween block.blockNum own w) (fun _ ↦ TaggedBetween block.blockNum own w)
        (receiveResult lib (.ok result) w)) ∧
    ∀ goes w', receiveResult lib (.ok result) w = .ok goes w' →
      (TaggedBetween block.blockNum own w w' ↔ Taggable block result own w) := by
  have hrun := receiveResult_accepted lib hblock haccept
  have hsound : Taggable block result own w →
      Ends (fun _ ↦ TaggedBetween block.blockNum own w) (fun _ ↦ TaggedBetween block.blockNum own w)
        (receiveResult lib (.ok result) w) := by
    intro htag
    rw [hrun]
    refine (tells_of_accepted lib haccept hown htag.heading).bind (fun _ w' hw' ↦ ?_)
      fun _ w' hw' e he ↦ (hw' e he).tagged htag.deltas
    exact fun e he ↦ (hw'.1 e he).tagged htag.deltas
  refine ⟨hsound, fun goes w' hr ↦ ⟨fun htagged ↦ ?_, fun htag ↦ ?_⟩⟩
  · obtain ⟨_, w₂, hprocess, hlast⟩ := bind_eq_ok (hrun.symm.trans hr)
    obtain ⟨-, rfl⟩ := EStateM.Result.ok.inj hlast
    have hremembered : result.Describes (result.remembered w.proc.heading) := by
      rintro bin hbin b rfl
      rw [GetBlocksResult.remembered, Option.mem_def.mp hbin]
    have hends := tells_of_accepted lib haccept hremembered
      fun hnone ↦ by rw [GetBlocksResult.remembered, hnone]
    rw [hprocess] at hends
    obtain ⟨-, htells, e, hmem, he⟩ := hends
    constructor
    · intro hnone
      rw [GetBlocksResult.remembered, hnone] at he
      obtain ⟨-, ht, hp, hprev, htrx, hact, hcount⟩ := htagged _ hmem
      refine he.trans ?_
      rw [ht, hp, hprev, htrx, hact, hcount]
    · intro ht
      obtain ⟨e, hzero, hmem⟩ := htells ht
      exact (htagged _ hmem).1.symm.trans hzero
  · have hends := hsound htag
    rw [hr] at hends
    exact hends

/-- **At any point of any run: if a result is accepted, and the part of the block is there or what
the process remembers is that of the block, and no table delta is announced, then every event of
the block is tagged as it should be; and for a result that is completed only then.** -/
theorem events_tagged_iff (db : Undo Tables) (inputs : List Input)
    (hblock : result.thisBlock = some block) (hown : result.Describes own)
    (haccept : acceptPosition block result (run lib { newWorld with db := db } inputs).counted =
      .ok () w₁) :
    let w := run lib { newWorld with db := db } inputs
    (Taggable block result own w →
      Ends (fun _ ↦ TaggedBetween block.blockNum own w) (fun _ ↦ TaggedBetween block.blockNum own w)
        (receiveResult lib (.ok result) w)) ∧
    ∀ goes w', receiveResult lib (.ok result) w = .ok goes w' →
      (TaggedBetween block.blockNum own w w' ↔ Taggable block result own w) :=
  tagged_iff lib hblock hown haccept

end Results

/-- A block with its own part, at time 7. -/
def timedResult : GetBlocksResult :=
  { bareResult ⟨1, 1⟩ 0 0 with block := some (.ok { timestamp := 7 }) }

theorem events_tagged_timed :
    let w : World Unit := run .lenient { newWorld with db := ⟨0, ∅, []⟩ } [.start {}, .ready 0]
    ∃ w', receiveResult .lenient (.ok timedResult) w = .ok true w' ∧
      (TaggedBetween 1 ⟨{ timestamp := 7 }, 0⟩ w w' ↔
        Taggable ⟨1, 1⟩ timedResult ⟨{ timestamp := 7 }, 0⟩ w) := by
  intro w
  have hown : timedResult.Describes ⟨{ timestamp := 7 }, 0⟩ := by
    rintro _ ⟨⟩ _ ⟨⟩
    rfl
  have hblock : timedResult.thisBlock = some ⟨1, 1⟩ := rfl
  have htagged := events_tagged_iff .lenient ⟨0, ∅, []⟩ [.start {}, .ready 0] hblock hown rfl
  exact ⟨_, rfl, htagged.2 true _ rfl⟩

/-- Block 2 comes without its own part and with a delta: it is completed with the time of block 1,
whatever its own is, and its delta is announced for block 0. -/
theorem events_tagged_stale :
    let w : World Unit := run .lenient { newWorld with db := ⟨0, ∅, []⟩ }
      [.start { subscribers := { blockTableDeltas := true } }, .ready 0, .result timedResult]
    let result := { bareResult ⟨2, 2⟩ 1 0 with deltas := some [.ok (.other "global_property")] }
    ∃ w', receiveResult .lenient (.ok result) w = .ok true w' ∧
      (∃ e : BlockFinished, .blockCompleted e ∈ newEvents w w' ∧ e.blockNum = 2 ∧
        e.blockTimestamp = 7) ∧
      (∃ e : BlockTableDelta, .blockTableDelta e ∈ newEvents w w' ∧ e.blockNum = 0) ∧
      ∀ own, ¬ TaggedBetween 2 own w w' := by
  intro w result
  have hrun : ∃ w', receiveResult .lenient (.ok result) w = .ok true w' ∧ newEvents w w' =
      [.blockTableDelta ⟨0, 7, .other "global_property"⟩,
        .blockCompleted { blockNum := 2, blockId := 2, blockTimestamp := 7, producer := 0,
                          previous := 0, transactionMroot := 0, actionMroot := 0, trxCount := 0,
                          lastIrreversible := 0 }] := ⟨_, rfl, rfl⟩
  obtain ⟨w', hw', hnew⟩ := hrun
  have hdelta : .blockTableDelta ⟨0, 7, .other "global_property"⟩ ∈ newEvents w w' := by
    rw [hnew]
    exact List.mem_cons_self
  have hcompleted : ∃ e : BlockFinished, .blockCompleted e ∈ newEvents w w' ∧ e.blockNum = 2 ∧
      e.blockTimestamp = 7 := by
    rw [hnew]
    exact ⟨_, List.mem_cons_of_mem _ (List.mem_singleton_self _), rfl, rfl⟩
  exact ⟨w', hw', hcompleted, ⟨_, hdelta, rfl⟩, fun own htagged ↦
    absurd (htagged _ hdelta).1 (by decide)⟩

end Chronicle
