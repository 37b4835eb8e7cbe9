import Chronicle.Model.ContractAbi

/-!
# Processing one result of the state history

`receive_result` and what it calls, for scan mode and for interactive mode.  The function
of the source is cut at its comments: the request queue (`interactiveResult`), the check of
the position with the rollback (`checkPosition`), the block, the state changing activities
(`storeBlock`), the traces, and the event that completes the block.
-/

namespace Chronicle

open Store

variable {Abi : Type} (lib : Abieos Abi)

/-! ## Block, deltas and traces -/

/-- `receive_block` -/
def receiveBlock (bin : Parsed SignedBlock) : Receiver Abi Unit := do
  let block ← fromBin bin
  modifyProc fun p ↦ { p with blockHeader := block.toBlockHeader, trxCount := block.transactions }
  let w ← get
  if w.options.subscribers.blockStarted then
    publish (.blockStarted
      { blockNum := w.proc.head, blockId := w.proc.headId, blockTimestamp := block.timestamp,
        lastIrreversible := w.proc.irreversible })
  if !w.options.skipBlockEvents then
    publish (.block
      { blockNum := w.proc.head, blockId := w.proc.headId,
        lastIrreversible := w.proc.irreversible, block })

/-- A row of the `account` table: memorize the contract ABI. -/
def receiveAccountRow (row : Row AccountV0) : Receiver Abi Unit := do
  fromBin row.variant
  if row.present then
    let acc ← fromBin row.data
    if acc.abi = [] then clearContractAbi acc.name else saveContractAbi lib acc.name acc.abi

/-- Whether the filters on table deltas let a contract through. -/
def takeTableRow (o : Options) (code : Name) : Bool :=
  !(o.enableTablesFilter && !o.tablesFilter.contains code) &&
    !(o.enableTablesBlacklist && o.tablesBlacklist.contains code)

/-- A row of the `contract_row` table. -/
def receiveContractRow (row : Row ContractRowV0) : Receiver Abi Unit := do
  fromBin row.variant
  let kvo ← fromBin row.data
  let w ← get
  if takeTableRow w.options kvo.code then
    if ← getContractAbiReady lib kvo.code then
      publish (.tableRowUpdate
        { blockNum := w.proc.head, blockTimestamp := w.proc.blockHeader.timestamp,
          added := row.present, kvo })
    else
      publish (.abiError
        { blockNum := w.proc.head, blockTimestamp := w.proc.blockHeader.timestamp,
          account := kvo.code, error := "cannot decode table delta because of missing ABI" })

/-- A row of the tables `permission`, `permission_link` and `account_metadata`. -/
def receiveAccountInfoRow (channel : AccountInfoUpdate → Event) (withAdded : Bool)
    (row : Row Bytes) : Receiver Abi Unit := do
  fromBin row.variant
  let data ← fromBin row.data
  let w ← get
  publish (channel
    { blockNum := w.proc.head, blockTimestamp := w.proc.blockHeader.timestamp,
      added := !withAdded || row.present, data })

/-- Whether rows of `contract_row` are exported at all. -/
def exportsContractRows (o : Options) : Bool :=
  !o.noexportMode && !o.skipTableDeltas &&
    (o.subscribers.tableRowUpdates || o.subscribers.abiErrors)

/-- Whether rows of a table with account information are exported, given that its channel
has subscribers. -/
def exportsAccountInfo (o : Options) (hasSubscribers : Bool) : Bool :=
  !o.noexportMode && !o.skipTableDeltas && !o.skipAccountInfo && hasSubscribers

/-- The rows of a table delta, by table. -/
def receiveTableRows (delta : TableDelta) : Receiver Abi Unit := do
  let w ← get
  let o := w.options
  match delta with
  | .account rows =>
    if !o.interactiveMode then rows.forM (receiveAccountRow lib)
  | .contractRow rows =>
    if exportsContractRows o then rows.forM (receiveContractRow lib)
  | .permission rows =>
    if exportsAccountInfo o o.subscribers.permissionUpdates then
      rows.forM (receiveAccountInfoRow .permissionUpdate true)
  | .permissionLink rows =>
    if exportsAccountInfo o o.subscribers.permissionLinkUpdates then
      rows.forM (receiveAccountInfoRow .permissionLinkUpdate true)
  | .accountMetadata rows =>
    if exportsAccountInfo o o.subscribers.accountMetadataUpdates then
      rows.forM (receiveAccountInfoRow .accountMetadataUpdate false)
  | .other _ => pure ()

/-- One table delta.  The event of the whole delta never sets its block number, which is
zero in a new object. -/
def receiveTableDelta (bin : Parsed TableDelta) : Receiver Abi Unit := do
  let w ← get
  let delta ← fromBin bin
  receiveTableRows lib delta
  if w.options.subscribers.blockTableDeltas then
    publish (.blockTableDelta
      { blockNum := 0, blockTimestamp := w.proc.blockHeader.timestamp, tableDelta := delta })

/-- `receive_deltas` -/
def receiveDeltas (bin : List (Parsed TableDelta)) : Receiver Abi Unit :=
  bin.forM (receiveTableDelta lib)

/-- Why the walk over the actions of a trace ends: it meets an action of the blacklist, a
filter matches, or it comes to the end. -/
inductive TraceMatch where
  | blacklist
  | rcvrFilter
  | authFilter
  | none
deriving DecidableEq, Repr

def ActionTrace.act : ActionTrace → Action
  | .v0 _ act | .v1 _ act => act

def ActionTrace.receiver : ActionTrace → Name
  | .v0 receiver _ | .v1 receiver _ => receiver

/-- The loop over the actions of a trace, with the breaks of the source. -/
def matchActionTraces (o : Options) : List ActionTrace → TraceMatch
  | [] => .none
  | at' :: rest =>
    if o.doTraceBlacklist && o.blacklistActions.contains (at'.act.account, at'.act.name) then
      .blacklist
    else if o.enableRcvrFilter && o.rcvrFilter.contains at'.receiver then .rcvrFilter
    else if o.enableAuthFilter && at'.act.authorization.any o.authFilter.contains then .authFilter
    else matchActionTraces o rest

/-- `do_trace_filter` -/
def doTraceFilter (o : Options) : Bool := o.enableRcvrFilter || o.enableAuthFilter

/-- Whether a trace is exported. -/
def takeTrace (o : Options) (trace : TransactionTrace) : Bool :=
  let m :=
    if doTraceFilter o || o.doTraceBlacklist then matchActionTraces o trace.actionTraces
    else .none
  m ≠ .blacklist &&
    (!doTraceFilter o || (o.enableRcvrFilter && m = .rcvrFilter) ||
      (o.enableAuthFilter && m = .authFilter))

def receiveTrace (bin : Parsed TransactionTrace) : Receiver Abi Unit := do
  let trace ← fromBin bin
  let w ← get
  if takeTrace w.options trace then
    publish (.transactionTrace
      { blockNum := w.proc.head, blockTimestamp := w.proc.blockHeader.timestamp, trace })

/-- `receive_traces` -/
def receiveTraces (bin : List (Parsed TransactionTrace)) : Receiver Abi Unit := do
  let w ← get
  if w.options.subscribers.transactionTraces then bin.forM receiveTrace

/-! ## State database -/

/-- `save_state` -/
def saveState : Receiver Abi Unit := do
  let w ← get
  let state : StateObject :=
    { head := w.proc.head, headId := w.proc.headId, irreversible := w.proc.irreversible,
      irreversibleId := w.proc.irreversibleId }
  modifyTables fun t ↦ { t with state := some state }

/-- The revision that `commit_db` commits: if the exporter is acknowledging, only what is
confirmed. -/
def commitRev (o : Options) (p : Proc Abi) : Nat :=
  if o.exporterWillAck && p.exporterAckedBlock < p.irreversible then p.exporterAckedBlock
  else p.irreversible

/-- `commit_db` -/
def commitDb : Receiver Abi Unit := do
  let w ← get
  let commitRev := commitRev w.options w.proc
  observe (.committed commitRev)
  modify fun w ↦ { w with db := w.db.commit commitRev }

/-- Create a row of `received_block_index`; its key is unique. -/
def createReceivedBlock (block : BlockPosition) : Receiver Abi Unit := do
  let w ← get
  if (w.db.current.receivedBlocks.find? block.blockNum).isSome then
    throw (.exception "could not insert object, most likely a uniqueness constraint was violated")
  modifyTables fun t ↦
    { t with receivedBlocks := t.receivedBlocks.insert block.blockNum block.blockId }

/-- The loop that removes rows from the begin of `received_block_index`.  It looks at the
row before it looks for the end; `none` stands for reading through the end iterator. -/
def truncateRows (irreversible : Nat) :
    List (Nat × Checksum256) → Table Nat Checksum256 → Option (Table Nat Checksum256)
  | [], _ => none
  | row :: rest, t =>
    if row.1 < irreversible then truncateRows irreversible rest (t.erase row.1) else some t

/-- Truncate old blocks up to the previously known irreversible one. -/
def truncateReceivedBlocks : Receiver Abi Unit := do
  let w ← get
  match truncateRows w.proc.irreversible w.db.current.receivedBlocks.rows
    w.db.current.receivedBlocks with
  | none => throw .undefinedBehaviour
  | some truncated => modifyTables fun t ↦ { t with receivedBlocks := truncated }

/-- Run a program inside an undo session.  Its revision is kept when the program returns;
an exception undoes it when the session goes out of scope. -/
def withUndoSession (m : Receiver Abi Unit) : Receiver Abi Unit := fun w ↦
  match m { w with db := w.db.startUndoSession } with
  | .ok _ w' => .ok () { w' with log := w'.log ++ [.pushed w'.db.current] }
  | .error e w' => .error e { w' with db := w'.db.undo }

/-- The part of the deltas, if there is one. -/
def receiveDeltasPart (result : GetBlocksResult) : Receiver Abi Unit :=
  match result.deltas with
  | some deltas => receiveDeltas lib deltas
  | none => pure ()

/-- Add the new block to the list of received ones. -/
def addReceivedBlock (block : BlockPosition) : Receiver Abi Unit := do
  let w ← get
  if w.proc.irreversible < block.blockNum then
    createReceivedBlock block
    truncateReceivedBlocks

/-- The state changing activities of `receive_result` in scan mode. -/
def storeBlock (block : BlockPosition) (result : GetBlocksResult) : Receiver Abi Unit := do
  withUndoSession do
    addReceivedBlock block
    receiveDeltasPart lib result
    saveState
  commitDb

/-! ## Position of the result -/

/-- Bring the revision up to the block below the new one. -/
def raiseRevision (blockNum : Nat) : Receiver Abi Unit := do
  let w ← get
  let newrev := Uint32.pred blockNum
  if w.db.revision < newrev then
    match w.db.setRevision newrev with
    | some db => set { w with db := db }
    | none => throw (.exception "cannot set revision while there is an existing undo stack")

/-- The loop that undoes revisions after a fork. -/
def rollbackDb (blockNum : Nat) : Receiver Abi Unit := do
  let w ← get
  match w.db.rollback blockNum with
  | some db =>
    set { w with db := db }
    if db.revision = 0 then
      throw (.exception "Cannot rollback, no undo stack at revision 0")
  | none =>
    set { w with db := w.db.undoAll }
    throw .hang

/-- Received a block that is not higher than the head: roll back and announce the fork. -/
def handleFork (blockNum lastIrreversible : Nat) : Receiver Abi Unit := do
  let w ← get
  initContractAbiCtxt
  rollbackDb blockNum
  modifyProc fun p ↦
    { p with
      exporterAckedBlock :=
        if w.options.exporterWillAck && Uint32.pred blockNum < p.exporterAckedBlock then
          Uint32.pred blockNum
        else p.exporterAckedBlock
      forkedAtBlock := blockNum }
  publish (.fork
    { blockNum, depth := w.proc.head - blockNum, forkReason := .network, lastIrreversible })

/-- Whether the previous block of a result is the head of the receiver. -/
def extendsHead (p : Proc Abi) (result : GetBlocksResult) : Prop :=
  result.prevBlock.map BlockPosition.blockId = some p.headId

instance (p : Proc Abi) (result : GetBlocksResult) : Decidable (extendsHead p result) :=
  inferInstanceAs (Decidable (_ = _))

/-- Where a result of scan mode goes.  Nothing is checked for a block that is irreversible
by its own result. -/
def checkPosition (blockNum : Nat) (result : GetBlocksResult) : Receiver Abi Unit := do
  raiseRevision blockNum
  let w ← get
  if result.lastIrreversible.blockNum < blockNum then
    if blockNum < w.proc.irreversible then
      throw (.exception "Received block number that is lower than last seen irreversible")
    if blockNum ≤ w.proc.head then
      handleFork blockNum result.lastIrreversible.blockNum
    else if 0 < w.proc.head ∧ w.options.startBlockNum < w.proc.head ∧
        ¬ extendsHead w.proc result then
      throw (.exception "prev_block does not match")

/-! ## Interactive requests -/

/-- `process_interactive_reqs` -/
def processInteractiveReqs : Receiver Abi Unit := do
  let w ← get
  if w.proc.receiverReady && !w.proc.interactiveReqPending then
    match w.proc.interactiveReqQueue with
    | [] => pure ()
    | req :: queue =>
      modifyProc fun p ↦ { p with interactiveReqQueue := queue, endBlockNum := req.blockNumEnd }
      initContractAbiCtxt
      modifyProc fun p ↦ { p with interactiveReqPending := true }
      observe (.requested
        { startBlockNum := req.blockNumStart, endBlockNum := req.blockNumEnd,
          havePositions := [], irreversibleOnly := false, fetchBlock := true,
          fetchTraces := !w.options.skipTraces, fetchDeltas := !w.options.skipTableDeltas })

/-- The last block of a request makes way for the next one, before its own data is
processed. -/
def interactiveResult (blockNum : Nat) : Receiver Abi Unit := do
  let w ← get
  if blockNum = Uint32.pred w.proc.endBlockNum then
    modifyProc fun p ↦ { p with interactiveReqPending := false }
    processInteractiveReqs

/-! ## The whole result -/

/-- The new head of the receiver. -/
def moveHead (block : BlockPosition) (result : GetBlocksResult) : Receiver Abi Unit :=
  modifyProc fun p ↦
    { p with
      head := block.blockNum
      headId := block.blockId
      irreversible := result.lastIrreversible.blockNum
      irreversibleId := result.lastIrreversible.blockId }

/-- The content of the event that completes a block. -/
def blockFinished (p : Proc Abi) : BlockFinished :=
  { blockNum := p.head, blockId := p.headId, lastIrreversible := p.irreversible,
    blockTimestamp := p.blockHeader.timestamp, producer := p.blockHeader.producer,
    previous := p.blockHeader.previous, transactionMroot := p.blockHeader.transactionMroot,
    actionMroot := p.blockHeader.actionMroot, trxCount := p.trxCount }

/-- The event that completes a block. -/
def finishBlock : Receiver Abi Unit := do
  let w ← get
  publish (.blockCompleted (blockFinished w.proc))

/-- The part of the block, if there is one. -/
def receiveBlockPart (result : GetBlocksResult) : Receiver Abi Unit :=
  match result.block with
  | some block => receiveBlock block
  | none => pure ()

/-- The part of the traces, if there is one. -/
def receiveTracesPart (result : GetBlocksResult) : Receiver Abi Unit :=
  match result.traces with
  | some traces => receiveTraces traces
  | none => pure ()

/-- `receive_result` from the check of the irreversible block to the new head. -/
def acceptPosition (block : BlockPosition) (result : GetBlocksResult) : Receiver Abi Unit := do
  let w ← get
  if result.lastIrreversible.blockNum < w.proc.irreversible then
    throw (.exception "Irreversible block in state history is lower than the one last seen")
  if w.options.interactiveMode then interactiveResult block.blockNum
  else checkPosition block.blockNum result
  moveHead block result

/-- `receive_result` from the new head to the completed block. -/
def processBlock (block : BlockPosition) (result : GetBlocksResult) : Receiver Abi Unit := do
  let w ← get
  receiveBlockPart result
  if w.options.interactiveMode then receiveDeltasPart lib result
  else storeBlock lib block result
  receiveTracesPart result
  finishBlock

/-- `receive_result`: whether the reader goes on. -/
def receiveResult (bin : Parsed GetBlocksResult) : Receiver Abi Bool := do
  let result ← fromBin bin
  match result.thisBlock with
  | none => return true
  | some block =>
    modifyProc fun p ↦ { p with receivedBlocks := p.receivedBlocks + 1 }
    acceptPosition block result
    processBlock lib block result
    let w ← get
    return !w.proc.aborting

end Chronicle
