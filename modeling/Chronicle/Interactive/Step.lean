import Chronicle.Scan.Step

/-!
# What one input does in interactive mode

A process in interactive mode answers requests for blocks and never writes to the database:
another process does (`Input.scanner`).  `Serves` lists what an input can do to the request
queue, the head, the cache and the record; blocks are processed by `processBlock` as in scan
mode.
-/

namespace Chronicle

open Store Effect

variable {Abi : Type} (lib : Abieos Abi)

/-! ## Requests -/

/-- The members that keep track of the requests. -/
def Proc.requests (p : Proc Abi) : List InteractiveRequest × Bool × Nat × Bool :=
  (p.interactiveReqQueue, p.interactiveReqPending, p.endBlockNum, p.receiverReady)

/-- What is asked of the state history for a request. -/
def blocksRequestFor (o : Options) (req : InteractiveRequest) : GetBlocksRequest :=
  { startBlockNum := req.blockNumStart, endBlockNum := req.blockNumEnd, havePositions := [],
    irreversibleOnly := false, fetchBlock := true, fetchTraces := !o.skipTraces,
    fetchDeltas := !o.skipTableDeltas }

/-- The world after `process_interactive_reqs`. -/
def World.served (w : World Abi) : World Abi :=
  if w.proc.receiverReady && !w.proc.interactiveReqPending then
    match w.proc.interactiveReqQueue with
    | [] => w
    | req :: queue =>
      { w with
        proc := { w.proc.cleared with
          interactiveReqQueue := queue, endBlockNum := req.blockNumEnd,
          interactiveReqPending := true }
        log := w.log ++ [.requested (blocksRequestFor w.options req)] }
  else w

theorem processInteractiveReqs_run (w : World Abi) :
    processInteractiveReqs w = .ok () w.served := by
  change (if w.proc.receiverReady && !w.proc.interactiveReqPending then
    match w.proc.interactiveReqQueue with
    | [] => pure ()
    | req :: queue => _
    else pure () : Receiver Abi Unit) w = _
  rw [World.served]
  split_ifs
  · cases w.proc.interactiveReqQueue with
    | nil => rfl
    | cons req queue => rfl
  · rfl

/-- The world after the last block of a request has made way for the next one. -/
def World.answered (b : Nat) (w : World Abi) : World Abi :=
  if b = Uint32.pred w.proc.endBlockNum then
    World.served { w with proc := { w.proc with interactiveReqPending := false } }
  else w

theorem interactiveResult_run (b : Nat) (w : World Abi) :
    interactiveResult b w = .ok () (w.answered b) := by
  change (if b = Uint32.pred w.proc.endBlockNum then
    ((modifyProc fun p ↦ { p with interactiveReqPending := false }) >>= fun _ ↦
      processInteractiveReqs) else pure () : Receiver Abi Unit) w = _
  rw [World.answered]
  split_ifs
  · exact (bind_run rfl).trans (processInteractiveReqs_run _)
  · rfl

/-- A result was received, and the head was moved to its block. -/
def World.atResult (block : BlockPosition) (result : GetBlocksResult) (w : World Abi) :
    World Abi :=
  { w.answered block.blockNum with
    proc := (w.answered block.blockNum).proc.moved block result }

theorem acceptPosition_interactive {w : World Abi} (hmode : w.options.interactiveMode = true)
    (block : BlockPosition) (result : GetBlocksResult) :
    acceptPosition block result w =
      if result.lastIrreversible.blockNum < w.proc.irreversible then
        .error (.exception
          "Irreversible block in state history is lower than the one last seen") w
      else .ok () (w.atResult block result) := by
  change (if result.lastIrreversible.blockNum < w.proc.irreversible then
    (throw _ >>= _ : Receiver Abi Unit) else _) w = _
  by_cases hirr : result.lastIrreversible.blockNum < w.proc.irreversible
  · rw [if_pos hirr, if_pos hirr]
    rfl
  · rw [if_neg hirr, if_neg hirr, hmode, if_pos rfl, bind_run (interactiveResult_run _ w)]
    rfl

/-! ## The world between blocks -/

/-- A record that says nothing about requests and ABIs. -/
def Observation.Silent : Observation Abi → Prop
  | .requested _ | .abiReady _ _ _ => False
  | _ => True

/-- Neither the requests, the head and the cache nor the tables have changed. -/
structure Undisturbed (w w' : World Abi) : Prop where
  options : w'.options = w.options
  current : w'.db.current = w.db.current
  position : w'.proc.position = w.proc.position
  requests : w'.proc.requests = w.proc.requests
  cache : w'.proc.SameCache w.proc
  log : ∃ l, w'.log = w.log ++ l ∧ ∀ o ∈ l, o.Silent

namespace Undisturbed

variable {w w₁ w' : World Abi}

theorem refl (w : World Abi) : Undisturbed w w :=
  ⟨rfl, rfl, rfl, rfl, ⟨rfl, rfl⟩, [], (List.append_nil _).symm, fun _ ho ↦ by cases ho⟩

/-- A change of members that have nothing to do with requests. -/
theorem proc {p : Proc Abi} (hpos : p.position = w.proc.position)
    (hreq : p.requests = w.proc.requests) (hcache : p.SameCache w.proc) :
    Undisturbed w { w with proc := p } :=
  ⟨rfl, rfl, hpos, hreq, hcache, [], (List.append_nil _).symm, fun _ ho ↦ by cases ho⟩

theorem trans (h : Undisturbed w w₁) (h' : Undisturbed w₁ w') : Undisturbed w w' := by
  obtain ⟨l, hl, hs⟩ := h.log
  obtain ⟨l', hl', hs'⟩ := h'.log
  refine ⟨h'.options.trans h.options, h'.current.trans h.current, h'.position.trans h.position,
    h'.requests.trans h.requests, ⟨h'.cache.1.trans h.cache.1, h'.cache.2.trans h.cache.2⟩,
    l ++ l', by rw [hl', hl, List.append_assoc], fun o ho ↦ ?_⟩
  rcases List.mem_append.mp ho with ho | ho
  · exact hs o ho
  · exact hs' o ho

end Undisturbed

/-- The reader goes on, pauses or stops, and nothing is asked for. -/
theorem World.readOn_undisturbed (queueSize : Nat) (w : World Abi) :
    Undisturbed w (w.readOn queueSize) := by
  have hsilent : ∀ {o : Observation Abi}, o.Silent → ∀ o' ∈ [o], o'.Silent := by
    rintro o ho o' ho'
    rwa [List.mem_singleton.mp ho']
  rw [World.readOn]
  split_ifs
  · exact ⟨rfl, rfl, rfl, rfl, ⟨rfl, rfl⟩, _, rfl, hsilent trivial⟩
  · exact ⟨rfl, rfl, rfl, rfl, ⟨rfl, rfl⟩, _, rfl, hsilent trivial⟩
  · exact Undisturbed.proc rfl rfl ⟨rfl, rfl⟩

/-- The first message of the stream serves the first request that waits. -/
theorem receiveAbi_served (queueSize : Nat) {w : World Abi}
    (hmode : w.options.interactiveMode = true) :
    receiveAbi queueSize w = .ok () ((World.served
      { w with proc := { w.proc with receiverReady := true } }).readOn queueSize) := by
  rw [receiveAbi_ready, hmode, if_pos rfl, bind_run (processInteractiveReqs_run _), continueRead_readOn]

theorem checkStaleHead_undisturbed (w : World Abi) :
    ∃ w', checkStaleHead w = .ok () w' ∧ Undisturbed w w' := by
  refine ⟨_, checkStaleHead_run w, ?_⟩
  rw [Proc.staleChecked]
  split_ifs
  · exact Undisturbed.proc rfl rfl ⟨rfl, rfl⟩
  · exact Undisturbed.proc rfl rfl ⟨rfl, rfl⟩

/-- An exception stops the reader, and changes nothing else. -/
theorem catchAndClose_undisturbed {m : Receiver Abi Unit} {w w₁ : World Abi} {e : Abort}
    (hm : m w = .error e w₁) : Undisturbed w₁ (catchAndClose m w) := by
  rw [catchAndClose, hm]
  cases e <;> exact Undisturbed.proc rfl rfl ⟨rfl, rfl⟩

/-! ## Inputs -/

/-- A world in interactive mode: the options say so, and the cache knows what it holds. -/
structure Interactive (w : World Abi) : Prop where
  mode : w.options.interactiveMode = true
  cached : w.proc.Cached

/-- Whether `on_block_req` accepts a request: it is not above the head in the database. -/
def acceptsRequest (t : Tables) (req : InteractiveRequest) : Bool :=
  match t.state with
  | some s => decide (req.blockNumStart ≤ s.head) && decide (req.blockNumEnd ≤ s.head)
  | none => false

/-- A request was accepted. -/
def World.queued (req : InteractiveRequest) (w : World Abi) : World Abi :=
  World.served
    { w with proc := { w.proc with interactiveReqQueue := w.proc.interactiveReqQueue ++ [req] } }

theorem onBlockReq_run (req : InteractiveRequest) (w : World Abi) :
    onBlockReq req w =
      .ok () (if acceptsRequest w.db.current req then w.queued req else w) := by
  rw [onBlockReq, bind_run (get_run w), acceptsRequest]
  cases w.db.current.state with
  | none => rfl
  | some s =>
      by_cases hstart : req.blockNumStart ≤ s.head
      · by_cases hend : req.blockNumEnd ≤ s.head
        · simp only [decide_eq_true hstart, decide_eq_true hend, if_neg (not_lt.mpr hstart),
            if_neg (not_lt.mpr hend), Bool.and_self, if_true]
          exact (bind_run rfl).trans (processInteractiveReqs_run _)
        · simp only [decide_eq_false hend, if_neg (not_lt.mpr hstart), if_pos (not_le.mp hend),
            Bool.and_false, Bool.false_eq_true, if_false]
          rfl
      · simp only [decide_eq_false hstart, if_pos (not_le.mp hstart), Bool.false_and,
          Bool.false_eq_true, if_false]
        rfl

/-- The block of a result that gets past the check of the irreversible block, if any. -/
def taken (w : World Abi) (i : Input) : Option (BlockPosition × GetBlocksResult) :=
  (delivered w i).filter fun d ↦ w.proc.irreversible ≤ d.2.lastIrreversible.blockNum

/-- The request that an input brings and that is accepted, if any. -/
def acceptedRequest (w : World Abi) : Input → Option InteractiveRequest
  | .request req =>
    if w.proc.continuation ≠ .hung ∧ acceptsRequest w.db.current req then some req else none
  | _ => none

/-- Whether an input is the first message of the stream. -/
def isReady (w : World Abi) : Input → Bool
  | .ready _ => w.proc.continuation = .handshake
  | _ => false

/-- What an input does to a world in interactive mode. -/
inductive Serves (w : World Abi) (i : Input) : World Abi → Prop
  | undisturbed {w' : World Abi} (h : Undisturbed w w') (htaken : taken w i = none)
      (hreq : acceptedRequest w i = none) (hready : isReady w i = false) : Serves w i w'
  | changed {tables : Tables} {w' : World Abi} (hi : i = .scanner tables)
      (h : w' = { w with db := { w.db with current := tables } }) : Serves w i w'
  | decoded {account : Name} {w' : World Abi} (hi : i = .decode account)
      (h : w' = w.decoded lib account) : Serves w i w'
  | ready {w' : World Abi} (hready : isReady w i = true) (htaken : taken w i = none)
      (hreq : acceptedRequest w i = none)
      (h : Undisturbed
        (World.served { w with proc := { w.proc with receiverReady := true } }) w') :
    Serves w i w'
  | accepted {req : InteractiveRequest} {w' : World Abi} (hi : i = .request req)
      (hreq : acceptedRequest w i = some req) (h : w' = w.queued req) : Serves w i w'
  | completed {d : BlockPosition × GetBlocksResult} {w₂ w' : World Abi} (hd : taken w i = some d)
      (hprocess : processBlock lib d.1 d.2 (w.counted.atResult d.1 d.2) = .ok () w₂)
      (h : Undisturbed w₂ w') : Serves w i w'
  | broken {d : BlockPosition × GetBlocksResult} {e : Abort} {w₂ w' : World Abi}
      (hd : taken w i = some d)
      (hprocess : processBlock lib d.1 d.2 (w.counted.atResult d.1 d.2) = .error e w₂)
      (h : Undisturbed w₂ w') : Serves w i w'

/-- How `receive_result` ends on a result with a block in interactive mode. -/
theorem receiveResult_interactive {block : BlockPosition} {result : GetBlocksResult}
    {w : World Abi} (hmode : w.options.interactiveMode = true)
    (hblock : result.thisBlock = some block) :
    receiveResult lib (.ok result) w =
      if result.lastIrreversible.blockNum < w.proc.irreversible then
        .error (.exception
          "Irreversible block in state history is lower than the one last seen") w.counted
      else (processBlock lib block result >>= fun _ ↦
        get >>= fun w ↦ pure !w.proc.aborting : Receiver Abi Bool)
          (w.counted.atResult block result) := by
  have haccept := acceptPosition_interactive (w := w.counted) hmode block result
  rw [receiveResult_block lib hblock]
  split_ifs with hirr
  · exact bind_run_error (haccept.trans (if_pos hirr))
  · exact bind_run (haccept.trans (if_neg hirr))

/-- A result with a block is refused, completed or broken. -/
theorem serves_receive {block : BlockPosition} {result : GetBlocksResult} (queueSize : Nat)
    {w : World Abi} (hmode : w.options.interactiveMode = true)
    (hblock : result.thisBlock = some block) (hread : w.proc.continuation = .reading) :
    Serves lib w (.receive (.ok result) queueSize)
      (exec lib w (.receive (.ok result) queueSize)) := by
  have hd := delivered_receive queueSize hblock hread
  have hresult := receiveResult_interactive lib hmode hblock
  rw [exec, handle, if_pos hread]
  by_cases hirr : result.lastIrreversible.blockNum < w.proc.irreversible
  · rw [if_pos hirr] at hresult
    have hmessage : receiveMessage lib (.ok result) queueSize w = .error _ w.counted :=
      bind_run_error hresult
    have hcounted : Undisturbed w w.counted := Undisturbed.proc rfl rfl ⟨rfl, rfl⟩
    refine .undisturbed (hcounted.trans (catchAndClose_undisturbed hmessage)) ?_ rfl rfl
    rw [taken, hd]
    exact if_neg (by simpa using hirr)
  · rw [if_neg hirr] at hresult
    have htaken : taken w (.receive (.ok result) queueSize) = some (block, result) := by
      rw [taken, hd]
      exact if_pos (by simpa using hirr)
    cases hprocess : processBlock lib block result (w.counted.atResult block result) with
    | error e w₂ =>
        rw [bind_run_error hprocess] at hresult
        have hmessage : receiveMessage lib (.ok result) queueSize w = .error e w₂ :=
          bind_run_error hresult
        exact .broken htaken hprocess (catchAndClose_undisturbed hmessage)
    | ok u w₂ =>
        have hgo : receiveResult lib (.ok result) w = .ok (!w₂.proc.aborting) w₂ :=
          hresult.trans (bind_run hprocess)
        have hmessage : receiveMessage lib (.ok result) queueSize w =
            (if !w₂.proc.aborting then continueRead queueSize
              else modifyProc fun p ↦ { p with continuation := .closed } : Receiver Abi Unit) w₂ :=
          bind_run hgo
        rw [catchAndClose, hmessage]
        refine .completed htaken hprocess ?_
        split_ifs
        · rw [continueRead_readOn]
          exact w₂.readOn_undisturbed queueSize
        · exact Undisturbed.proc rfl rfl ⟨rfl, rfl⟩

/-- The first message of the stream. -/
theorem serves_ready (queueSize : Nat) {w : World Abi}
    (hmode : w.options.interactiveMode = true) :
    Serves lib w (.ready queueSize) (exec lib w (.ready queueSize)) := by
  rw [exec, handle]
  split_ifs with hcont
  · rw [catchAndClose, receiveAbi_served queueSize hmode]
    exact .ready (decide_eq_true hcont) rfl rfl (World.readOn_undisturbed queueSize _)
  · exact .undisturbed (.refl w) rfl rfl (decide_eq_false hcont)

/-- Every input in interactive mode does one of the things listed. -/
theorem serves_exec {w : World Abi} {i : Input} (h : Interactive w)
    (hstart : ∀ o, i ≠ .start o) : Serves lib w i (exec lib w i) := by
  have hmode := h.mode
  cases i with
  | start o => exact absurd rfl (hstart o)
  | ready queueSize => exact serves_ready lib queueSize hmode
  | timer queueSize =>
      refine .undisturbed ?_ rfl rfl rfl
      rw [exec, handle]
      split_ifs
      · rw [catchAndClose, continueRead_readOn]
        exact w.readOn_undisturbed queueSize
      · exact .refl w
  | ack n =>
      rw [exec, Options.exporterWillAck_eq_false hmode, if_neg Bool.false_ne_true]
      exact .undisturbed (.refl w) rfl rfl rfl
  | slowdown pause =>
      refine .undisturbed ?_ rfl rfl rfl
      rw [exec, handleAny]
      split_ifs
      · exact .refl w
      · exact Undisturbed.proc rfl rfl ⟨rfl, rfl⟩
  | stale =>
      refine .undisturbed ?_ rfl rfl rfl
      rw [exec, handleAny]
      split_ifs
      · exact .refl w
      · obtain ⟨w', hw', h⟩ := checkStaleHead_undisturbed w
        rw [catchAndClose, hw']
        exact h
  | decode account =>
      rw [exec, handleAny]
      split_ifs
      · exact .undisturbed (.refl w) rfl rfl rfl
      · rw [catchAndClose, bind_run (getContractAbiReady_run lib account h.cached)]
        exact .decoded rfl rfl
  | request req =>
      rw [exec, if_pos hmode, handleAny]
      split_ifs with hhung
      · exact .undisturbed (.refl w) rfl (by rw [acceptedRequest, if_neg fun hr ↦ hr.1 hhung]) rfl
      · rw [catchAndClose, onBlockReq_run]
        by_cases hacc : acceptsRequest w.db.current req = true
        · rw [if_pos hacc]
          exact .accepted rfl (if_pos ⟨hhung, hacc⟩) rfl
        · rw [if_neg hacc]
          exact .undisturbed (.refl w) rfl (by rw [acceptedRequest, if_neg fun hr ↦ hacc hr.2]) rfl
  | scanner tables =>
      rw [exec, if_pos hmode]
      exact .changed rfl rfl
  | receive bin queueSize =>
      by_cases hread : w.proc.continuation = .reading
      swap
      · rw [exec, handle, if_neg hread]
        refine .undisturbed (.refl w) ?_ rfl rfl
        cases bin with
        | error what => rfl
        | ok result => rw [taken, delivered, if_neg hread]; rfl
      cases bin with
      | error what =>
          rw [exec, handle, if_pos hread]
          exact .undisturbed
            (catchAndClose_undisturbed (receiveMessage_error lib what queueSize w)) rfl rfl rfl
      | ok result =>
          cases hblock : result.thisBlock with
          | some block => exact serves_receive lib queueSize hmode hblock hread
          | none =>
              rw [exec, handle, if_pos hread, catchAndClose,
                receiveMessage_noBlock lib hblock queueSize w]
              refine .undisturbed (w.readOn_undisturbed queueSize) ?_ rfl rfl
              rw [taken, delivered, if_pos hread, hblock]
              rfl

/-! ## Blocks -/

variable {lib} in
/-- A program that reads, from a world where the invariant holds. -/
theorem Reads.ends {I : Tables → World Abi → Prop} {t t' : Tables} {m : Receiver Abi Unit}
    {R : Prop} (h : Reads I t m t' R) {w : World Abi} (hw : I t w) :
    Ends (fun _ ↦ I t') (fun _ w' ↦ ∃ t, I t w') (m w) :=
  (h w hw).mono (fun _ _ h ↦ h.1) fun _ _ h ↦ h.2.1

variable {lib} in
/-- In interactive mode a block keeps what its parts keep, and the tables stay as they are. -/
theorem BlockRule.processBlock_interactive {I : Tables → World Abi → Prop} {w : World Abi}
    (rule : BlockRule lib w.options w.proc.head I) (hmode : w.options.interactiveMode = true)
    (block : BlockPosition) (result : GetBlocksResult) {t : Tables} (hw : I t w) :
    Ends (fun _ w' ↦ ∃ w₁, I t w₁ ∧
        w' = { w₁ with log := w₁.log ++ [.published (.blockCompleted (blockFinished w₁.proc))] })
      (fun _ w' ↦ ∃ t, I t w') (processBlock lib block result w) := by
  have hrun : processBlock lib block result w =
      (receiveBlockPart result >>= fun _ ↦
        (if w.options.interactiveMode then receiveDeltasPart lib result
          else storeBlock lib block result) >>= fun _ ↦
        receiveTracesPart result >>= fun _ ↦ finishBlock : Receiver Abi Unit) w := by
    change (receiveBlockPart result >>= fun _ ↦ _ : Receiver Abi Unit) w = _
    rw [hmode]
    rfl
  have hblock : Ends (fun _ ↦ I t) (fun _ w' ↦ ∃ t, I t w') (receiveBlockPart result w) := by
    rw [receiveBlockPart]
    cases result.block with
    | none => exact hw
    | some bin => exact (rule.reads_receiveBlock bin t).ends hw
  have hdeltas : ∀ {w₁}, I t w₁ →
      Ends (fun _ ↦ I t) (fun _ w' ↦ ∃ t, I t w') (receiveDeltasPart lib result w₁) := by
    intro w₁ hw₁
    rw [receiveDeltasPart]
    cases result.deltas with
    | none => exact hw₁
    | some bin =>
        have hreads := rule.reads_receiveDeltas bin t
        rw [appliedAccounts, if_pos hmode, Tables.setAbis_nil] at hreads
        exact hreads.ends hw₁
  have htraces : ∀ {w₁}, I t w₁ →
      Ends (fun _ ↦ I t) (fun _ w' ↦ ∃ t, I t w') (receiveTracesPart result w₁) := by
    intro w₁ hw₁
    rw [receiveTracesPart]
    cases result.traces with
    | none => exact hw₁
    | some bin => exact (rule.reads_receiveTraces bin t).ends hw₁
  rw [hrun, if_pos hmode]
  refine hblock.bind (fun _ w₁ hw₁ ↦ ?_) fun _ _ h ↦ h
  refine (hdeltas hw₁).bind (fun _ w₂ hw₂ ↦ ?_) fun _ _ h ↦ h
  refine (htraces hw₂).bind (fun _ w₃ hw₃ ↦ ?_) fun _ _ h ↦ h
  exact ⟨w₃, hw₃, rfl⟩

/-- What is left after a block in interactive mode: the cache has changed, and there are
events and decoded ABIs in the record. -/
theorem processBlock_interactive (block : BlockPosition) (result : GetBlocksResult)
    {w : World Abi} (h : Interactive w) :
    Ends (fun _ w' ↦ ∃ w₁, Within w w₁ ∧
        w' = { w₁ with log := w₁.log ++ [.published (.blockCompleted (blockFinished w₁.proc))] })
      (fun _ w' ↦ Within w w') (processBlock lib block result w) := by
  refine ((withinRule lib w).processBlock_interactive h.mode block result
    (t := w.db.current) ⟨.refl h.cached, rfl⟩).mono ?_ ?_
  · rintro _ _ ⟨w₁, hw₁, rfl⟩
    exact ⟨w₁, hw₁.1, rfl⟩
  · rintro _ w' ⟨t, hw'⟩
    exact hw'.1

/-- Within a block, with the tables as they were. -/
def UnwrittenAt (w₀ : World Abi) (t : Tables) (w : World Abi) : Prop :=
  t = w₀.db.current ∧ WithinAt w₀ t w

/-- In interactive mode all the parts of a block leave the tables alone. -/
theorem unwrittenRule {w₀ : World Abi} (hmode : w₀.options.interactiveMode = true) :
    BlockRule lib w₀.options w₀.proc.head (UnwrittenAt w₀) where
  options h := h.2.1.options
  head h := h.2.1.head
  publish h he := ⟨h.1, h.2.publish he⟩
  header header trxCount h := ⟨h.1, (withinRule lib w₀).header header trxCount h.2⟩
  set hscan := absurd (hscan.symm.trans hmode) nofun
  ready account _ w h := (returns_getContractAbiReady lib account w h.2).mono
    (fun _ _ hw ↦ ⟨h.1, hw⟩) fun _ _ hw ↦ hw

theorem processBlock_current (block : BlockPosition) (result : GetBlocksResult) {w : World Abi}
    (h : Interactive w) :
    Ends (fun _ w' ↦ w'.db.current = w.db.current) (fun _ w' ↦ w'.db.current = w.db.current)
      (processBlock lib block result w) := by
  refine ((unwrittenRule lib h.mode).processBlock_interactive h.mode block result
    (t := w.db.current) ⟨rfl, .refl h.cached, rfl⟩).mono ?_ ?_
  · rintro _ _ ⟨w₁, hw₁, rfl⟩
    exact hw₁.2.2
  · rintro _ w' ⟨t, ht, hw'⟩
    exact hw'.2.trans ht

/-! ## The mode -/

theorem Interactive.undisturbed {w w' : World Abi} (h : Interactive w)
    (hu : Undisturbed w w') : Interactive w' :=
  ⟨hu.options ▸ h.mode, hu.cache.cached h.cached⟩

theorem Interactive.within {w w' : World Abi} (h : Interactive w) (hw : Within w w') :
    Interactive w' := ⟨hw.options ▸ h.mode, hw.cached⟩

/-- Sending a request resets the cache. -/
theorem Interactive.served {w : World Abi} (h : Interactive w) : Interactive w.served := by
  rw [World.served]
  split_ifs
  · cases w.proc.interactiveReqQueue with
    | nil => exact h
    | cons req queue => exact ⟨h.mode, w.proc.cached_init⟩
  · exact h

theorem Interactive.answered {w : World Abi} (h : Interactive w) (b : Nat) :
    Interactive (w.answered b) := by
  rw [World.answered]
  split_ifs
  · exact Interactive.served ⟨h.mode, h.cached⟩
  · exact h

theorem Interactive.atResult {w : World Abi} (h : Interactive w) (block : BlockPosition)
    (result : GetBlocksResult) : Interactive (w.counted.atResult block result) :=
  have h₀ : Interactive w.counted := ⟨h.mode, h.cached⟩
  ⟨(h₀.answered block.blockNum).mode, (h₀.answered block.blockNum).cached⟩

/-- The mode is never left. -/
theorem Interactive.exec {w : World Abi} {i : Input} (h : Interactive w)
    (hstart : ∀ o, i ≠ .start o) : Interactive (exec lib w i) := by
  cases serves_exec lib h hstart with
  | undisturbed hu _ _ _ => exact h.undisturbed hu
  | changed _ hw => exact hw ▸ ⟨h.mode, h.cached⟩
  | decoded _ hw => exact hw ▸ ⟨h.mode, h.cached.load lib _ _⟩
  | ready _ _ _ hu =>
      have h₁ : Interactive { w with proc := { w.proc with receiverReady := true } } :=
        ⟨h.mode, h.cached⟩
      exact h₁.served.undisturbed hu
  | accepted _ _ hw => exact hw ▸ Interactive.served ⟨h.mode, h.cached⟩
  | @completed d _ _ _ hprocess hu =>
      have hends := processBlock_interactive lib d.1 d.2 (h.atResult d.1 d.2)
      rw [hprocess] at hends
      obtain ⟨w₁, hw, rfl⟩ := hends
      have h₁ := (h.atResult d.1 d.2).within hw
      have h₂ : Interactive { w₁ with
          log := w₁.log ++ [.published (.blockCompleted (blockFinished w₁.proc))] } :=
        ⟨h₁.mode, h₁.cached⟩
      exact h₂.undisturbed hu
  | @broken d _ _ _ _ hprocess hu =>
      have hends := processBlock_interactive lib d.1 d.2 (h.atResult d.1 d.2)
      rw [hprocess] at hends
      exact ((h.atResult d.1 d.2).within hends).undisturbed hu

/-- A process in interactive mode starts over with what was sent before. -/
theorem exec_start_interactive {o : Options} (hmode : o.interactiveMode = true) (w : World Abi) :
    exec lib w (.start o) = bootWorld o w.db w.log := by
  rw [exec, catchAndClose, startReceiver_run, hmode]
  rfl

theorem interactive_bootWorld {o : Options} (hmode : o.interactiveMode = true) (db : Undo Tables)
    (log : List (Observation Abi)) : Interactive (bootWorld o db log) :=
  ⟨hmode, fun a ha ↦ absurd ha (by simp [bootWorld])⟩

end Chronicle
