import Chronicle.Model.Receive

/-!
# The life of a receiver process

Start and restart, acknowledgements, flow control, and `exec`: what one input of the
environment does to a receiver.  The lifetime of a state database is a list of inputs, in
which `start` begins the next process on what the one before has left behind.
-/

namespace Chronicle

open Store

variable {Abi : Type} (lib : Abieos Abi)

/-! ## Start -/

/-- `revert_uncommitted_revisions`: how many revisions were reverted. -/
def revertUncommittedRevisions : Receiver Abi Nat := do
  let w ← get
  set { w with db := w.db.undoAll }
  return w.db.stack.length

/-- An explicit fork event for the block above the head. -/
def publishExplicitFork (depth : Nat) (forkReason : ForkReason) (lastIrreversible : Nat) :
    Receiver Abi Unit := do
  let w ← get
  let blockNum := w.proc.head + 1
  modifyProc fun p ↦ { p with forkedAtBlock := blockNum }
  publish (.fork { blockNum, depth, forkReason, lastIrreversible })

/-- The head from the state object, or from `start-block` if there is none. -/
def loadHead : Receiver Abi Unit := do
  let w ← get
  match w.db.current.state with
  | some s =>
    modifyProc fun p ↦
      { p with head := s.head, headId := s.headId, irreversible := s.irreversible,
               irreversibleId := s.irreversibleId }
    if 0 < w.options.startBlockNum then
      throw (.exception "start-block can only be specified for initial startup")
  | none =>
    if 0 < w.options.startBlockNum then
      modifyProc fun p ↦ { p with head := w.options.startBlockNum - 1 }
    publishExplicitFork 0 .resync 0

/-- The explicit fork event after revisions were reverted. -/
def announceRestart (depth : Nat) : Receiver Abi Unit := do
  let w ← get
  if 0 < depth then publishExplicitFork depth .restart w.proc.irreversible

/-- The end of `load_state`. -/
def finishLoadState : Receiver Abi Unit := do
  let w ← get
  if w.options.exporterWillAck then
    modifyProc fun p ↦ { p with exporterAckedBlock := p.head }
  if w.proc.endBlockNum ≤ w.proc.head then
    throw (.exception "Head is already at or past end block number")
  initContractAbiCtxt

/-- `load_state` -/
def loadState : Receiver Abi Unit := do
  let depth ← revertUncommittedRevisions
  loadHead
  announceRestart depth
  finishLoadState

/-- A process with the given options, before `load_state`, on a database. -/
def bootWorld (o : Options) (db : Undo Tables) (log : List (Observation Abi)) : World Abi :=
  { options := o, proc := { endBlockNum := o.endBlockNum }, db, log }

/-- `start`, up to the first message of the stream. -/
def startReceiver : Receiver Abi Unit := do
  let w ← get
  if !w.options.interactiveMode then loadState
  modifyProc fun p ↦ { p with staleCheckLastHead := p.head }

/-! ## Acknowledgements and flow control -/

/-- `abort_receiver` -/
def abortReceiver : Receiver Abi Unit := modifyProc fun p ↦ { p with aborting := true }

def setAckedBlock (blockNum : Nat) : Receiver Abi Unit :=
  modifyProc fun p ↦ { p with exporterAckedBlock := blockNum }

/-- `receiver_plugin::ack_block` -/
def ackBlock (blockNum : Nat) : Receiver Abi Unit := do
  let w ← get
  if 0 < w.proc.forkedAtBlock then
    let waitForAck := w.proc.forkedAtBlock - 1
    if waitForAck < blockNum then
      -- ignore all confirmations for higher blocks until we receive fork-1 acknowledged
      pure ()
    else
      if blockNum = waitForAck then modifyProc fun p ↦ { p with forkedAtBlock := 0 }
      setAckedBlock blockNum
  else if blockNum < w.proc.exporterAckedBlock then abortReceiver
  else setAckedBlock blockNum

/-- The acknowledgement condition of `check_pause`. -/
def waitsForAck (o : Options) (p : Proc Abi) : Bool :=
  o.exporterWillAck &&
    (0 < p.forkedAtBlock ||
      o.exporterMaxUnconfirmed ≤ Uint32.sub p.head p.exporterAckedBlock)

/-- Whether `check_pause` does not let the reader go on, given the size of the priority
queue. -/
def mustPause (o : Options) (p : Proc Abi) (queueSize : Nat) : Bool :=
  p.slowdownRequested || waitsForAck o p || o.maxQueueSize < queueSize ||
    (!o.interactiveMode && p.head = Uint32.pred p.endBlockNum)

/-- Whether `check_pause` stops the receiver instead of pausing it. -/
def reachedEnd (o : Options) (p : Proc Abi) : Bool :=
  p.head = Uint32.pred p.endBlockNum && p.head ≤ p.irreversible &&
    (!o.exporterWillAck || p.exporterAckedBlock = p.head)

/-- The next length of the pause timer. -/
def nextPauseTime (msec : Nat) : Nat :=
  if msec = 0 then 50 else if msec < 500 then msec + 50 else msec

/-- `check_pause` -/
def checkPause (queueSize : Nat) : Receiver Abi Bool := do
  let w ← get
  if mustPause w.options w.proc queueSize then
    if reachedEnd w.options w.proc then
      commitDb
      abortReceiver
      modifyProc fun p ↦ { p with continuation := .closed }
    else
      publish (.receiverPause
        { head := w.proc.head, acknowledged := w.proc.exporterAckedBlock })
      modifyProc fun p ↦
        { p with pauseTimeMsec := nextPauseTime p.pauseTimeMsec, continuation := .paused }
    return false
  return true

/-- `continue_read`.  Reading from a stream that was closed fails at once. -/
def continueRead (queueSize : Nat) : Receiver Abi Unit := do
  if ← checkPause queueSize then
    modifyProc fun p ↦
      { p with pauseTimeMsec := 0, continuation := if p.aborting then .closed else .reading }

/-- `check_stale_head` -/
def checkStaleHead : Receiver Abi Unit := do
  let w ← get
  let p := w.proc
  if p.staleCheckLastHead = p.head ∧ p.pauseTimeMsec = 0 ∧ 0 < p.receivedBlocks then
    abortReceiver
  else
    modifyProc fun p ↦ { p with staleCheckLastHead := p.head }

/-! ## Requests -/

/-- The positions that `request_blocks` sends along. -/
def havePositions (p : Proc Abi) (t : Tables) : List BlockPosition :=
  ((t.receivedBlocks.rows.dropWhile (·.1 < p.irreversible)).takeWhile (·.1 ≤ p.head)).map
    fun row ↦ ⟨row.1, row.2⟩

/-- The request for everything above the head. -/
def blocksRequest (w : World Abi) : GetBlocksRequest :=
  let o := w.options
  { startBlockNum := w.proc.head + 1, endBlockNum := w.proc.endBlockNum,
    havePositions := havePositions w.proc w.db.current, irreversibleOnly := o.irreversibleOnly,
    fetchBlock := !o.noexportMode, fetchTraces := !(o.skipTraces || o.noexportMode),
    fetchDeltas := true }

/-- `request_blocks` -/
def requestBlocks : Receiver Abi Unit := do
  let w ← get
  observe (.requested (blocksRequest w))

/-- `on_block_req`.  The head that bounds a request is the one in the database. -/
def onBlockReq (req : InteractiveRequest) : Receiver Abi Unit := do
  let w ← get
  match w.db.current.state with
  | none => pure ()
  | some s =>
    if s.head < req.blockNumStart then pure ()
    else if s.head < req.blockNumEnd then pure ()
    else
      modifyProc fun p ↦ { p with interactiveReqQueue := p.interactiveReqQueue ++ [req] }
      processInteractiveReqs

/-- The first message of the stream. -/
def receiveAbi (queueSize : Nat) : Receiver Abi Unit := do
  modifyProc fun p ↦ { p with receiverReady := true }
  let w ← get
  if w.options.interactiveMode then processInteractiveReqs else requestBlocks
  continueRead queueSize

/-- A message with a result. -/
def receiveMessage (bin : Parsed GetBlocksResult) (queueSize : Nat) : Receiver Abi Unit := do
  if ← receiveResult lib bin then continueRead queueSize
  else modifyProc fun p ↦ { p with continuation := .closed }

/-! ## Inputs -/

/-- What can happen to a receiver.  The sizes are those of the priority queue of the
application at that moment. -/
inductive Input where
  /-- A process starts, after the one before has stopped. -/
  | start (o : Options)
  /-- The stream delivers its first message. -/
  | ready (queueSize : Nat)
  /-- The stream delivers a result. -/
  | receive (bin : Parsed GetBlocksResult) (queueSize : Nat)
  /-- The pause timer expires. -/
  | timer (queueSize : Nat)
  /-- The exporter acknowledges a block. -/
  | ack (blockNum : Nat)
  /-- The exporter asks for a slowdown, or takes it back. -/
  | slowdown (pause : Bool)
  /-- The stale check timer expires. -/
  | stale
  /-- The decoder asks for the ABI of an account. -/
  | decode (account : Name)
  /-- An interactive request. -/
  | request (req : InteractiveRequest)
  /-- Another process in scan mode changes the database of this one in interactive mode. -/
  | scanner (tables : Tables)

/-- `catch_and_close`: an exception closes the stream, and the reader is not continued. -/
def catchAndClose (m : Receiver Abi Unit) (w : World Abi) : World Abi :=
  match m w with
  | .ok _ w' => w'
  | .error (.exception _) w' =>
    { w' with proc := { w'.proc with aborting := true, continuation := .closed } }
  | .error _ w' => { w' with proc := { w'.proc with continuation := .hung } }

/-- Run a handler, if its continuation is the one under way. -/
def handle (c : Continuation) (m : Receiver Abi Unit) (w : World Abi) : World Abi :=
  if w.proc.continuation = c then catchAndClose m w else w

/-- Run a handler that is not part of the reader, unless the process hangs. -/
def handleAny (m : Receiver Abi Unit) (w : World Abi) : World Abi :=
  if w.proc.continuation = .hung then w else catchAndClose m w

/-- What an input does to the world. -/
def exec (w : World Abi) : Input → World Abi
  | .start o => catchAndClose startReceiver (bootWorld o w.db w.log)
  | .ready queueSize => handle .handshake (receiveAbi queueSize) w
  | .receive bin queueSize => handle .reading (receiveMessage lib bin queueSize) w
  | .timer queueSize => handle .paused (continueRead queueSize) w
  | .ack blockNum => if w.options.exporterWillAck then handleAny (ackBlock blockNum) w else w
  | .slowdown pause => handleAny (modifyProc fun p ↦ { p with slowdownRequested := pause }) w
  | .stale => handleAny checkStaleHead w
  | .decode account => handleAny (do let _ ← getContractAbiReady lib account) w
  | .request req => if w.options.interactiveMode then handleAny (onBlockReq req) w else w
  | .scanner tables =>
    if w.options.interactiveMode then { w with db := { w.db with current := tables } } else w

/-- What is left after a list of inputs. -/
def run (w : World Abi) (inputs : List Input) : World Abi := inputs.foldl (exec lib) w

/-- Before the first process: an empty database, and nobody to read it. -/
def newWorld : World Abi := { proc := { continuation := .closed } }

/-! ## Small inputs -/

/-- A library for which all bytes are an ABI, and all ABIs are the same. -/
def Abieos.lenient : Abieos Unit where
  convert _ := some ()
  present _ := true
  getError _ := ""
  fromBin _ := .ok ()

/-- A result with nothing in it but its position. -/
def bareResult (block : BlockPosition) (prevId : Checksum256) (lastIrreversible : Nat) :
    GetBlocksResult :=
  { lastIrreversible := ⟨lastIrreversible, 0⟩
    thisBlock := some block
    prevBlock := some ⟨Uint32.pred block.blockNum, prevId⟩ }

/-- A library for which the ABIs are the bytes that begin with 1. -/
def Abieos.tagged : Abieos Bytes where
  convert data := if data.head? = some 1 then some data else none
  present _ := true
  getError _ := ""
  fromBin _ := .ok ()

/-- A result that sets ABIs. -/
def abiResult (block : BlockPosition) (prevId : Checksum256) (lastIrreversible : Nat)
    (accounts : List AccountV0) : GetBlocksResult :=
  { bareResult block prevId lastIrreversible with
    deltas := some [.ok (.account (accounts.map fun acc ↦ { present := true, data := .ok acc }))] }

/-- A message with a result, while the priority queue is empty. -/
def Input.result (r : GetBlocksResult) : Input := .receive (.ok r) 0

end Chronicle
