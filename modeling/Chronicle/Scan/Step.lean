import Chronicle.Scan.Position

/-!
# What one input does in scan mode

`Exec` lists what an input can do to the database, the head and the record: nothing that
matters (`Calm`), the commit with which the receiver stops at its end block (`Ended`), the
start of a process (`Started`), or a block (`Received`).  Everything about runs in scan
mode is derived from these cases.
-/

namespace Chronicle

open Store Effect

variable {Abi : Type} (lib : Abieos Abi)

/-! ## Inputs without a block -/

/-- The reader of the process goes on. -/
def Running (w : World Abi) : Prop :=
  w.proc.continuation ≠ .closed ∧ w.proc.continuation ≠ .hung

instance (w : World Abi) : Decidable (Running w) := inferInstanceAs (Decidable (_ ∧ _))

theorem running_iff {w : World Abi} {c : Continuation} (h : w.proc.continuation = c) :
    Running w ↔ c ≠ .closed ∧ c ≠ .hung := by rw [Running, h]

/-- A record that says nothing about blocks. -/
def Observation.Quiet : Observation Abi → Prop
  | .published (.receiverPause _) => True
  | .requested _ => True
  | .setAbiBin _ present => present = false
  | .abiReady _ _ _ => True
  | _ => False

/-- Neither the database nor the head has changed. -/
structure Calm (w w' : World Abi) : Prop where
  options : w'.options = w.options
  db : w'.db = w.db
  position : w'.proc.position = w.proc.position
  cached : w.proc.Cached → w'.proc.Cached
  log : ∃ l, w'.log = w.log ++ l ∧ ∀ o ∈ l, o.Quiet
  running : Running w' → Running w

/-- Neither the acknowledgements nor the cache have changed either. -/
structure Idle (w w' : World Abi) : Prop extends Calm w w' where
  acked : w'.proc.exporterAckedBlock = w.proc.exporterAckedBlock
  forked : w'.proc.forkedAtBlock = w.proc.forkedAtBlock
  cache : w'.proc.SameCache w.proc

/-- The receiver commits what it can, and stops at its end block. -/
structure Ended (w w' : World Abi) : Prop where
  running : Running w
  reached : reachedEnd w.options w.proc = true
  options : w'.options = w.options
  db : w'.db = w.db.commit (commitRev w.options w.proc)
  position : w'.proc.position = w.proc.position
  cache : w'.proc.SameCache w.proc
  log : w'.log = w.log ++ [.committed (commitRev w.options w.proc)]
  stopped : ¬ Running w'
  acked : w'.proc.exporterAckedBlock = w.proc.exporterAckedBlock
  forked : w'.proc.forkedAtBlock = w.proc.forkedAtBlock

/-- The reader is continued, paused or stopped. -/
inductive Next (w w' : World Abi) : Prop
  | idle (h : Idle w w')
  | ended (h : Ended w w')

theorem Calm.refl (w : World Abi) : Calm w w :=
  ⟨rfl, rfl, rfl, fun h ↦ h, ⟨[], (List.append_nil _).symm, fun _ ho ↦ by cases ho⟩, fun h ↦ h⟩

theorem Idle.refl (w : World Abi) : Idle w w := ⟨.refl w, rfl, rfl, rfl, rfl⟩

/-- A change of members that have nothing to do with the block. -/
theorem Idle.proc {w : World Abi} {p : Proc Abi} (hpos : p.position = w.proc.position)
    (hcache : p.SameCache w.proc)
    (hrun : Running { w with proc := p } → Running w)
    (hacked : p.exporterAckedBlock = w.proc.exporterAckedBlock)
    (hforked : p.forkedAtBlock = w.proc.forkedAtBlock) : Idle w { w with proc := p } :=
  ⟨⟨rfl, rfl, hpos, hcache.cached, ⟨[], (List.append_nil _).symm, fun _ ho ↦ by cases ho⟩, hrun⟩,
    hacked, hforked, hcache⟩

/-- One more quiet observation. -/
theorem Idle.observe {w w' : World Abi} (h : Idle w w') {o : Observation Abi} (ho : o.Quiet) :
    Idle w { w' with log := w'.log ++ [o] } := by
  obtain ⟨l, hl, hq⟩ := h.log
  refine ⟨⟨h.options, h.db, h.position, h.cached, ⟨l ++ [o], ?_, fun o' ho' ↦ ?_⟩, h.running⟩,
    h.acked, h.forked, h.cache⟩
  · simp only [hl, List.append_assoc]
  · rcases List.mem_append.mp ho' with ho' | ho'
    · exact hq o' ho'
    · rwa [List.mem_singleton.mp ho']

theorem Calm.trans {w₁ w₂ w₃ : World Abi} (h : Calm w₁ w₂) (h' : Calm w₂ w₃) : Calm w₁ w₃ := by
  obtain ⟨l, hl, hq⟩ := h.log
  obtain ⟨l', hl', hq'⟩ := h'.log
  refine ⟨h'.options.trans h.options, h'.db.trans h.db, h'.position.trans h.position,
    fun hc ↦ h'.cached (h.cached hc), ⟨l ++ l', by rw [hl', hl, List.append_assoc], ?_⟩,
    fun hr ↦ h.running (h'.running hr)⟩
  intro o ho
  rcases List.mem_append.mp ho with ho | ho
  · exact hq o ho
  · exact hq' o ho

theorem Idle.trans {w₁ w₂ w₃ : World Abi} (h : Idle w₁ w₂) (h' : Idle w₂ w₃) : Idle w₁ w₃ :=
  ⟨h.toCalm.trans h'.toCalm, h'.acked.trans h.acked, h'.forked.trans h.forked,
    h'.cache.1.trans h.cache.1, h'.cache.2.trans h.cache.2⟩

/-! ## The reader -/

/-- The world after the last commit of a process. -/
def World.ended (w : World Abi) : World Abi :=
  { w with
    proc := { w.proc with aborting := true, continuation := .closed }
    db := w.db.commit (commitRev w.options w.proc)
    log := w.log ++ [.committed (commitRev w.options w.proc)] }

/-- The world while the reader pauses. -/
def World.paused (w : World Abi) : World Abi :=
  { w with
    proc := { w.proc with
      pauseTimeMsec := nextPauseTime w.proc.pauseTimeMsec, continuation := .paused }
    log := w.log ++ [.published (.receiverPause
      { head := w.proc.head, acknowledged := w.proc.exporterAckedBlock })] }

/-- The world when the reader is not paused. -/
def World.continued (w : World Abi) : World Abi :=
  { w with
    proc := { w.proc with
      pauseTimeMsec := 0, continuation := if w.proc.aborting then .closed else .reading } }

theorem checkPause_run (queueSize : Nat) (w : World Abi) :
    checkPause queueSize w =
      if mustPause w.options w.proc queueSize then
        if reachedEnd w.options w.proc then .ok false w.ended else .ok false w.paused
      else .ok true w := by
  change (if mustPause w.options w.proc queueSize then _ else _ : Receiver Abi Bool) w = _
  split_ifs <;> rfl

/-- The world after `continue_read`. -/
def World.readOn (queueSize : Nat) (w : World Abi) : World Abi :=
  if mustPause w.options w.proc queueSize then
    if reachedEnd w.options w.proc then w.ended else w.paused
  else w.continued

theorem continueRead_readOn (queueSize : Nat) (w : World Abi) :
    continueRead queueSize w = .ok () (w.readOn queueSize) := by
  change EStateM.bind (checkPause queueSize) _ w = _
  rw [EStateM.bind, checkPause_run, World.readOn]
  split_ifs <;> rfl

/-- `continue_read` returns, whatever `check_pause` decides. -/
theorem continueRead_run (queueSize : Nat) {w : World Abi} (hrun : Running w) :
    ∃ w', continueRead queueSize w = .ok () w' ∧ Next w w' := by
  refine ⟨_, continueRead_readOn queueSize w, ?_⟩
  rw [World.readOn]
  split_ifs with hpause hend
  · exact .ended ⟨hrun, hend, rfl, rfl, rfl, ⟨rfl, rfl⟩, rfl, fun h ↦ h.1 rfl, rfl, rfl⟩
  · have hproc : Idle w { w with proc := { w.proc with
        pauseTimeMsec := nextPauseTime w.proc.pauseTimeMsec, continuation := .paused } } :=
      Idle.proc rfl ⟨rfl, rfl⟩ (fun _ ↦ hrun) rfl rfl
    exact .idle (hproc.observe trivial)
  · exact .idle (Idle.proc rfl ⟨rfl, rfl⟩ (fun _ ↦ hrun) rfl rfl)

/-- The reader has stopped, with an exception or in an endless loop. -/
structure Stopped (e : Abort) (w w' : World Abi) : Prop where
  idle : Idle w w'
  stopped : ¬ Running w'
  hung : (∀ what, e ≠ .exception what) → w'.proc.continuation = .hung

/-- An error closes the reader, or leaves it in its loop. -/
theorem catchAndClose_error {m : Receiver Abi Unit} {w w₁ : World Abi} {e : Abort}
    (hm : m w = .error e w₁) (hrun : Running w₁) : Stopped e w₁ (catchAndClose m w) := by
  rw [catchAndClose, hm]
  cases e with
  | exception what =>
      exact ⟨Idle.proc rfl ⟨rfl, rfl⟩ (fun _ ↦ hrun) rfl rfl, fun h ↦ h.1 rfl,
        fun h ↦ absurd rfl (h what)⟩
  | hang =>
      exact ⟨Idle.proc rfl ⟨rfl, rfl⟩ (fun _ ↦ hrun) rfl rfl, fun h ↦ h.2 rfl, fun _ ↦ rfl⟩
  | undefinedBehaviour =>
      exact ⟨Idle.proc rfl ⟨rfl, rfl⟩ (fun _ ↦ hrun) rfl rfl, fun h ↦ h.2 rfl, fun _ ↦ rfl⟩

/-- The first message of the stream is answered as the mode says. -/
theorem receiveAbi_ready (queueSize : Nat) (w : World Abi) : receiveAbi queueSize w =
    (if w.options.interactiveMode then (processInteractiveReqs >>= fun _ ↦ continueRead queueSize)
    else (requestBlocks >>= fun _ ↦ continueRead queueSize) : Receiver Abi Unit)
      { w with proc := { w.proc with receiverReady := true } } := rfl

/-- The world in which the blocks above the head have been asked for. -/
def World.asking (w : World Abi) : World Abi :=
  { w with
    proc := { w.proc with receiverReady := true }
    log := w.log ++ [.requested
      (blocksRequest { w with proc := { w.proc with receiverReady := true } })] }

/-- The first message of the stream asks for the blocks above the head. -/
theorem receiveAbi_asking (queueSize : Nat) {w : World Abi}
    (hscan : w.options.interactiveMode = false) :
    receiveAbi queueSize w = .ok () (w.asking.readOn queueSize) := by
  rw [receiveAbi_ready, hscan, if_neg Bool.false_ne_true]
  exact continueRead_readOn queueSize w.asking

theorem receiveAbi_run (queueSize : Nat) {w : World Abi} (hrun : Running w)
    (hscan : w.options.interactiveMode = false) :
    ∃ w₁ w', receiveAbi queueSize w = .ok () w' ∧ Idle w w₁ ∧ Next w₁ w' := by
  have hready : Idle w { w with proc := { w.proc with receiverReady := true } } :=
    Idle.proc rfl ⟨rfl, rfl⟩ (fun h ↦ h) rfl rfl
  obtain ⟨w', hw', hnext⟩ := continueRead_run queueSize (w := w.asking) hrun
  rw [continueRead_readOn] at hw'
  exact ⟨w.asking, w', (receiveAbi_asking queueSize hscan).trans hw', hready.observe trivial, hnext⟩

/-! ## Acknowledgements, timers and the decoder -/

/-- `ack_block` on the members of the process. -/
def Proc.ackedBy (n : Nat) (p : Proc Abi) : Proc Abi :=
  if 0 < p.forkedAtBlock then
    if p.forkedAtBlock - 1 < n then p
    else if n = p.forkedAtBlock - 1 then { p with forkedAtBlock := 0, exporterAckedBlock := n }
    else { p with exporterAckedBlock := n }
  else if n < p.exporterAckedBlock then { p with aborting := true }
  else { p with exporterAckedBlock := n }

theorem ackBlock_run (n : Nat) (w : World Abi) :
    ackBlock n w = .ok () { w with proc := w.proc.ackedBy n } := by
  change (if 0 < w.proc.forkedAtBlock then _ else _ : Receiver Abi Unit) w = _
  rw [Proc.ackedBy]
  split_ifs <;> rfl

theorem Proc.ackedBy_position (n : Nat) (p : Proc Abi) : (p.ackedBy n).position = p.position := by
  rw [Proc.ackedBy]
  split_ifs <;> rfl

/-- An acknowledgement changes nothing but the members that count acknowledgements. -/
theorem calm_ackedBy (n : Nat) (w : World Abi) : Calm w { w with proc := w.proc.ackedBy n } := by
  have hcont : (w.proc.ackedBy n).continuation = w.proc.continuation := by
    rw [Proc.ackedBy]
    split_ifs <;> rfl
  have hcache : (w.proc.ackedBy n).contractAbiCtxt = w.proc.contractAbiCtxt ∧
      (w.proc.ackedBy n).contractAbiImported = w.proc.contractAbiImported := by
    rw [Proc.ackedBy]
    split_ifs <;> exact ⟨rfl, rfl⟩
  refine ⟨rfl, rfl, w.proc.ackedBy_position n, fun h ↦ ?_, ⟨[], (List.append_nil _).symm,
    fun _ ho ↦ by cases ho⟩, fun h ↦ ?_⟩
  · rwa [Proc.Cached, hcache.1, hcache.2]
  · rwa [Running, hcont] at h

/-- An ABI was loaded for the decoder. -/
def World.decoded (w : World Abi) (account : Name) : World Abi :=
  { w with
    proc := w.proc.load lib account (w.lookupAbi account)
    log := w.log ++ w.readyLog lib account }

/-- The decoder only fills the cache. -/
theorem calm_decoded (account : Name) (w : World Abi) : Calm w (w.decoded lib account) := by
  have hcore := w.proc.load_core lib account (w.lookupAbi account)
  refine ⟨rfl, rfl, Proc.member_eq hcore Proc.position fun _ ↦ rfl, fun h ↦ h.load lib account _,
    ⟨w.readyLog lib account, rfl, fun o ho ↦ ?_⟩, fun h ↦ ?_⟩
  · rcases World.mem_readyLog ho with rfl | rfl <;> trivial
  · have hcont : (w.decoded lib account).proc.continuation = w.proc.continuation :=
      Proc.member_eq hcore Proc.continuation fun _ ↦ rfl
    rwa [Running, hcont] at h

/-- Whether `check_stale_head` takes the receiver for stale. -/
def Proc.stale (p : Proc Abi) : Prop :=
  p.staleCheckLastHead = p.head ∧ p.pauseTimeMsec = 0 ∧ 0 < p.receivedBlocks

instance (p : Proc Abi) : Decidable p.stale := inferInstanceAs (Decidable (_ ∧ _))

/-- `check_stale_head` on the members of the process. -/
def Proc.staleChecked (p : Proc Abi) : Proc Abi :=
  if p.stale then { p with aborting := true } else { p with staleCheckLastHead := p.head }

theorem checkStaleHead_run (w : World Abi) :
    checkStaleHead w = .ok () { w with proc := w.proc.staleChecked } := by
  change (if w.proc.stale then _ else _ : Receiver Abi Unit) w = _
  rw [Proc.staleChecked]
  split_ifs <;> rfl

theorem idle_checkStaleHead (w : World Abi) :
    ∃ w', checkStaleHead w = .ok () w' ∧ Idle w w' := by
  refine ⟨_, checkStaleHead_run w, ?_⟩
  rw [Proc.staleChecked]
  split_ifs
  · exact Idle.proc rfl ⟨rfl, rfl⟩ (fun h ↦ h) rfl rfl
  · exact Idle.proc rfl ⟨rfl, rfl⟩ (fun h ↦ h) rfl rfl

/-! ## Start -/

/-- The position of a process that starts on given tables. -/
def startPosition (o : Options) (t : Tables) : StateObject :=
  t.state.getD { head := o.startBlockNum - 1, headId := 0, irreversible := 0, irreversibleId := 0 }

/-- The explicit fork events of a process that starts on a database. -/
def startForks (o : Options) (db : Undo Tables) : List (Observation Abi) :=
  let p := startPosition o db.undoAll.current
  (if db.undoAll.current.state = none then
    [.published (.fork { blockNum := p.head + 1, depth := 0, forkReason := .resync,
                         lastIrreversible := 0 })]
  else []) ++
  (if 0 < db.stack.length then
    [.published (.fork { blockNum := p.head + 1, depth := db.stack.length, forkReason := .restart,
                         lastIrreversible := p.irreversible })]
  else [])

theorem mem_startForks {o : Options} {db : Undo Tables} {obs : Observation Abi}
    (h : obs ∈ startForks o db) : ∃ e : ForkEvent, obs = .published (.fork e) := by
  rw [startForks, List.mem_append] at h
  rcases h with h | h
  all_goals
    split_ifs at h
    · exact ⟨_, List.mem_singleton.mp h⟩
    · cases h

/-- A process has loaded its state.  Unless its end block is reached already, it runs. -/
structure Loaded (o : Options) (w w' : World Abi) : Prop where
  options : w'.options = o
  db : w'.db = w.db.undoAll
  position : w'.proc.position = startPosition o w.db.undoAll.current
  cache : w'.proc.SameCache w'.proc.cleared
  log : w'.log = w.log ++ startForks o w.db
  acked : w'.proc.exporterAckedBlock = if o.exporterWillAck then w'.proc.head else 0
  forked : w'.proc.forkedAtBlock =
    if w.db.undoAll.current.state = none ∨ 0 < w.db.stack.length then w'.proc.head + 1 else 0

/-- A process was refused because it names a start block for a database that has one. -/
structure Rejected (o : Options) (w w' : World Abi) : Prop where
  start : 0 < o.startBlockNum
  state : w.db.undoAll.current.state ≠ none
  options : w'.options = o
  db : w'.db = w.db.undoAll
  position : w'.proc.position = startPosition o w.db.undoAll.current
  cache : w'.proc.SameCache w'.proc.cleared
  log : w'.log = w.log
  acked : w'.proc.exporterAckedBlock = 0
  forked : w'.proc.forkedAtBlock = 0
  stopped : ¬ Running w'

/-- How the start of a process ends. -/
inductive Started (o : Options) (w w' : World Abi) : Prop
  | loaded (h : Loaded o w w')
  | rejected (h : Rejected o w w')

/-- The process with its position loaded. -/
def Proc.at (p : Proc Abi) (s : StateObject) : Proc Abi :=
  { p with
    head := s.head, headId := s.headId, irreversible := s.irreversible,
    irreversibleId := s.irreversibleId }

theorem loadHead_some {w : World Abi} {s : StateObject} (hs : w.db.current.state = some s) :
    loadHead w = (if 0 < w.options.startBlockNum then
      throw (.exception "start-block can only be specified for initial startup")
    else pure () : Receiver Abi Unit) { w with proc := w.proc.at s } := by
  rw [loadHead, bind_run (get_run w), hs]
  exact bind_run rfl

/-- An explicit fork event, and what the process waits for after it. -/
def World.forkedAbove (w : World Abi) (depth : Nat) (reason : ForkReason) (irreversible : Nat) :
    World Abi :=
  { w with
    proc := { w.proc with forkedAtBlock := w.proc.head + 1 }
    log := w.log ++ [.published (.fork
      { blockNum := w.proc.head + 1, depth := depth, forkReason := reason,
        lastIrreversible := irreversible })] }

theorem loadHead_none {w : World Abi} (hs : w.db.current.state = none) (hh : w.proc.head = 0) :
    loadHead w = .ok () (World.forkedAbove
      { w with proc := { w.proc with head := w.options.startBlockNum - 1 } } 0 .resync 0) := by
  rw [loadHead, bind_run (get_run w), hs]
  change (if 0 < w.options.startBlockNum then _ else _ : Receiver Abi Unit) w = _
  by_cases hstart : 0 < w.options.startBlockNum
  · rw [if_pos hstart]
    exact bind_run rfl
  · have hzero : w.options.startBlockNum - 1 = w.proc.head := by omega
    rw [if_neg hstart, hzero]
    rfl

theorem announceRestart_run (depth : Nat) (w : World Abi) :
    announceRestart depth w = .ok () (if 0 < depth then
      w.forkedAbove depth .restart w.proc.irreversible else w) := by
  change (if 0 < depth then _ else _ : Receiver Abi Unit) w = _
  split_ifs <;> rfl

/-- The head counts as acknowledged at the start. -/
def Proc.ackedHead (o : Options) (p : Proc Abi) : Proc Abi :=
  if o.exporterWillAck then { p with exporterAckedBlock := p.head } else p

theorem finishLoadState_run {o : Options} {w : World Abi} (ho : w.options = o) :
    finishLoadState w =
      if w.proc.endBlockNum ≤ w.proc.head then
        .error (.exception "Head is already at or past end block number")
          { w with proc := w.proc.ackedHead o }
      else .ok () { w with proc := (w.proc.ackedHead o).cleared } := by
  subst ho
  change (if w.options.exporterWillAck then _ else _ : Receiver Abi Unit) w = _
  rw [Proc.ackedHead]
  by_cases hack : w.options.exporterWillAck = true
  · rw [if_pos hack, if_pos hack]
    refine (bind_run rfl).trans ?_
    split_ifs <;> rfl
  · rw [if_neg hack, if_neg hack]
    split_ifs <;> rfl

/-- A process on a database with its revisions undone, with its position loaded. -/
def positionedWorld (o : Options) (w : World Abi) : World Abi :=
  { options := o
    proc := ({ endBlockNum := o.endBlockNum } : Proc Abi).at
      (startPosition o w.db.undoAll.current)
    db := w.db.undoAll
    log := w.log }

/-- The world of a process that has published its explicit fork events, before the end of
`load_state`. -/
def loadedWorld (o : Options) (w : World Abi) : World Abi :=
  let w₁ := if w.db.undoAll.current.state = none then
    (positionedWorld o w).forkedAbove 0 .resync 0 else positionedWorld o w
  if 0 < w.db.stack.length then
    w₁.forkedAbove w.db.stack.length .restart w₁.proc.irreversible else w₁

/-- Unless it is refused, a process publishes its explicit fork events. -/
theorem loadState_run {o : Options} {w : World Abi}
    (h : w.db.undoAll.current.state = none ∨ o.startBlockNum = 0) :
    loadState (bootWorld o w.db w.log) = finishLoadState (loadedWorld o w) := by
  have hhead : loadHead { bootWorld o w.db w.log with db := w.db.undoAll } =
      .ok () (if w.db.undoAll.current.state = none then
        (positionedWorld o w).forkedAbove 0 .resync 0 else positionedWorld o w) := by
    cases hs : w.db.undoAll.current.state with
    | none =>
        rw [loadHead_none hs rfl, if_pos rfl, positionedWorld, startPosition, hs]
        rfl
    | some s =>
        have hstart : o.startBlockNum = 0 := h.resolve_left (by simp [hs])
        have hpos : (bootWorld o w.db w.log).options.startBlockNum = 0 := hstart
        rw [loadHead_some hs, hpos, if_neg (by simp), if_neg (by simp), positionedWorld,
          startPosition, hs]
        rfl
  exact (bind_run rfl).trans ((bind_run hhead).trans (bind_run (announceRestart_run _ _)))

theorem loadedWorld_spec (o : Options) (w : World Abi) :
    (loadedWorld o w).options = o ∧ (loadedWorld o w).db = w.db.undoAll ∧
      (loadedWorld o w).proc.position = startPosition o w.db.undoAll.current ∧
      (loadedWorld o w).proc.SameCache (loadedWorld o w).proc.cleared ∧
      (loadedWorld o w).log = w.log ++ startForks o w.db ∧
      ((loadedWorld o w).proc.forkedAtBlock =
        if w.db.undoAll.current.state = none ∨ 0 < w.db.stack.length then
          (startPosition o w.db.undoAll.current).head + 1 else 0) ∧
      (loadedWorld o w).proc.exporterAckedBlock = 0 := by
  by_cases hs : w.db.undoAll.current.state = none <;> by_cases hd : 0 < w.db.stack.length <;>
    simp [loadedWorld, startForks, hs, hd, World.forkedAbove, positionedWorld, Proc.at,
      Proc.position, Proc.SameCache, Proc.cleared]

/-- A world that differs from the loaded one only where the end of `load_state` changes it. -/
theorem loaded_of_loadedWorld {o : Options} {w : World Abi} {p : Proc Abi}
    (hpos : p.position = (loadedWorld o w).proc.position) (hcache : p.SameCache p.cleared)
    (hacked : p.exporterAckedBlock = if o.exporterWillAck then p.head else 0)
    (hforked : p.forkedAtBlock = (loadedWorld o w).proc.forkedAtBlock) :
    Loaded o w { loadedWorld o w with proc := p } := by
  obtain ⟨h₁, h₂, h₃, -, h₄, h₅, -⟩ := loadedWorld_spec o w
  have hhead : p.head = (startPosition o w.db.undoAll.current).head :=
    congrArg StateObject.head (hpos.trans h₃)
  refine ⟨h₁, h₂, hpos.trans h₃, hcache, h₄, hacked, ?_⟩
  change p.forkedAtBlock = if _ then p.head + 1 else 0
  rw [hforked, h₅, hhead]

theorem Proc.ackedHead_spec (o : Options) (p : Proc Abi) :
    (p.ackedHead o).position = p.position ∧ (p.ackedHead o).forkedAtBlock = p.forkedAtBlock ∧
      (p.ackedHead o).SameCache p ∧
      (p.ackedHead o).exporterAckedBlock =
        if o.exporterWillAck then (p.ackedHead o).head else p.exporterAckedBlock := by
  rw [Proc.ackedHead]
  split_ifs
  · exact ⟨rfl, rfl, ⟨rfl, rfl⟩, rfl⟩
  · exact ⟨rfl, rfl, ⟨rfl, rfl⟩, rfl⟩

/-- The state is loaded in scan mode only. -/
theorem startReceiver_run (o : Options) (db : Undo Tables) (log : List (Observation Abi)) :
    startReceiver (bootWorld o db log) =
      (if !o.interactiveMode then (loadState >>= fun _ ↦
        modifyProc fun p ↦ { p with staleCheckLastHead := p.head })
      else modifyProc fun p ↦ { p with staleCheckLastHead := p.head } : Receiver Abi Unit)
        (bootWorld o db log) := rfl

/-- How the start of a process ends. -/
theorem start_cases {o : Options} (hscan : o.interactiveMode = false) (w : World Abi) :
    Started o w (exec lib w (.start o)) := by
  have hstart := startReceiver_run o w.db w.log
  rw [hscan, Bool.not_false, if_pos rfl] at hstart
  change Started o w (catchAndClose startReceiver (bootWorld o w.db w.log))
  rw [catchAndClose, hstart]
  by_cases hok : w.db.undoAll.current.state = none ∨ o.startBlockNum = 0
  · obtain ⟨hopt, -, -, hempty, -, -, hzero⟩ := loadedWorld_spec o w
    obtain ⟨hpos, hforked, hsame, hacked⟩ := (loadedWorld o w).proc.ackedHead_spec o
    rw [hzero] at hacked
    have hcache : ((loadedWorld o w).proc.ackedHead o).SameCache
        ((loadedWorld o w).proc.ackedHead o).cleared :=
      ⟨hsame.1.trans hempty.1, hsame.2.trans hempty.2⟩
    have hfinish := finishLoadState_run hopt
    by_cases hend : (loadedWorld o w).proc.endBlockNum ≤ (loadedWorld o w).proc.head
    · rw [if_pos hend] at hfinish
      rw [bind_run_error ((loadState_run hok).trans hfinish)]
      exact .loaded (loaded_of_loadedWorld
        (p := { (loadedWorld o w).proc.ackedHead o with aborting := true, continuation := .closed })
        hpos hcache hacked hforked)
    · rw [if_neg hend] at hfinish
      rw [bind_run ((loadState_run hok).trans hfinish)]
      exact .loaded (loaded_of_loadedWorld
        (p := { ((loadedWorld o w).proc.ackedHead o).cleared with
          staleCheckLastHead := ((loadedWorld o w).proc.ackedHead o).head })
        hpos ⟨rfl, rfl⟩ hacked hforked)
  · push Not at hok
    obtain ⟨s, hs⟩ := Option.ne_none_iff_exists'.mp hok.1
    have hlt : 0 < o.startBlockNum := Nat.pos_of_ne_zero hok.2
    have hload : loadState (bootWorld o w.db w.log) = .error
        (.exception "start-block can only be specified for initial startup")
        (positionedWorld o w) := by
      refine (bind_run rfl).trans (bind_run_error ?_)
      have hpos : 0 < (bootWorld o w.db w.log).options.startBlockNum := hlt
      rw [loadHead_some hs, if_pos hpos, positionedWorld, startPosition, hs]
      rfl
    rw [bind_run_error hload]
    exact .rejected ⟨hlt, hok.1, rfl, rfl, rfl, ⟨rfl, rfl⟩, rfl, rfl, rfl, fun h ↦ h.1 rfl⟩

/-! ## Blocks -/

/-- A result was counted. -/
def World.counted (w : World Abi) : World Abi :=
  { w with proc := { w.proc with receivedBlocks := w.proc.receivedBlocks + 1 } }

theorem receiveResult_noBlock {result : GetBlocksResult} (hnone : result.thisBlock = none)
    (w : World Abi) : receiveResult lib (.ok result) w = .ok true w := by
  have hbin : fromBin (.ok result) w = .ok result w := rfl
  rw [receiveResult, bind_run hbin, hnone]
  rfl

/-- A message without a block, and one that cannot be unpacked. -/
theorem receiveMessage_noBlock {result : GetBlocksResult} (hnone : result.thisBlock = none)
    (queueSize : Nat) (w : World Abi) :
    receiveMessage lib (.ok result) queueSize w = .ok () (w.readOn queueSize) :=
  (bind_run (receiveResult_noBlock lib hnone w)).trans (continueRead_readOn queueSize w)

theorem receiveMessage_error (what : String) (queueSize : Nat) (w : World Abi) :
    receiveMessage lib (.error what) queueSize w = .error (.exception what) w :=
  bind_run_error (bind_run_error rfl)

/-- The three steps of `receive_result` on a result with a block. -/
theorem receiveResult_block {block : BlockPosition} {result : GetBlocksResult}
    (hblock : result.thisBlock = some block) (w : World Abi) :
    receiveResult lib (.ok result) w =
      (acceptPosition block result >>= fun _ ↦ processBlock lib block result >>= fun _ ↦
        get >>= fun w ↦ pure !w.proc.aborting : Receiver Abi Bool) w.counted := by
  have hbin : fromBin (.ok result) w = .ok result w := rfl
  rw [receiveResult, bind_run hbin, hblock]
  rfl

/-- How `receive_result` ends on a result with a block. -/
inductive ReceiveResult (block : BlockPosition) (result : GetBlocksResult) (w : World Abi) :
    EStateM.Result Abort (World Abi) Bool → Prop
  /-- The position was refused. -/
  | refused {e : Abort} {w₁ : World Abi} (haccept : Accept block result w.counted (.error e w₁)) :
    ReceiveResult block result w (.error e w₁)
  /-- The block was not completed. -/
  | broken {e : Abort} {w₁ w₂ : World Abi} (haccept : Accept block result w.counted (.ok () w₁))
      (hprocess : ProcessBlock lib block result w₁ (.error e w₂)) :
    ReceiveResult block result w (.error e w₂)
  /-- The block was completed. -/
  | completed {w₁ w₂ : World Abi} (haccept : Accept block result w.counted (.ok () w₁))
      (hprocess : ProcessBlock lib block result w₁ (.ok () w₂)) :
    ReceiveResult block result w (.ok (!w₂.proc.aborting) w₂)

/-- A result with a block was received. -/
inductive Received (block : BlockPosition) (result : GetBlocksResult) (w w' : World Abi) : Prop
  /-- The position was refused. -/
  | refused {e : Abort} {w₁ : World Abi}
      (haccept : Accept block result w.counted (.error e w₁)) (hstop : Stopped e w₁ w')
      (hresult : receiveResult lib (.ok result) w = .error e w₁)
  /-- The block was not completed. -/
  | broken {e : Abort} {w₁ w₂ : World Abi}
      (haccept : Accept block result w.counted (.ok () w₁))
      (hprocess : ProcessBlock lib block result w₁ (.error e w₂)) (hstop : Stopped e w₂ w')
      (hresult : receiveResult lib (.ok result) w = .error e w₂)
  /-- The block was completed. -/
  | completed {w₁ w₂ w₃ : World Abi}
      (haccept : Accept block result w.counted (.ok () w₁))
      (hprocess : ProcessBlock lib block result w₁ (.ok () w₂)) (hidle : Idle w₂ w₃)
      (hnext : Next w₃ w')
      (hresult : receiveResult lib (.ok result) w = .ok (!w₂.proc.aborting) w₂)

/-- The block that an input delivers to the reader, if any. -/
def delivered (w : World Abi) : Input → Option (BlockPosition × GetBlocksResult)
  | .receive (.ok result) _ =>
    if w.proc.continuation = .reading then result.thisBlock.map (·, result) else none
  | _ => none

theorem delivered_receive {w : World Abi} {result : GetBlocksResult} {block : BlockPosition}
    (queueSize : Nat) (hblock : result.thisBlock = some block)
    (hread : w.proc.continuation = .reading) :
    delivered w (.receive (.ok result) queueSize) = some (block, result) := by
  rw [delivered, if_pos hread, hblock]
  rfl

/-- Only a message with a result delivers a block. -/
theorem delivered_eq_some {w : World Abi} {i : Input} {d : BlockPosition × GetBlocksResult}
    (h : delivered w i = some d) :
    ∃ queueSize, i = .receive (.ok d.2) queueSize ∧ d.2.thisBlock = some d.1 ∧
      w.proc.continuation = .reading := by
  cases i with
  | receive bin queueSize =>
      cases bin with
      | error what => cases h
      | ok result =>
          rw [delivered] at h
          split_ifs at h with hread
          obtain ⟨block, hblock, rfl⟩ := Option.map_eq_some_iff.mp h
          exact ⟨queueSize, rfl, hblock, hread⟩
  | start _ | ready _ | timer _ | ack _ | slowdown _ | stale | decode _ | request _ | scanner _ =>
      cases h

/-- What an input does to a world in scan mode. -/
inductive Exec (w : World Abi) : Input → World Abi → Prop
  | idle {i : Input} {w' : World Abi} (h : Idle w w') (hnone : delivered w i = none) :
    Exec w i w'
  | acked {n : Nat} {w' : World Abi} (hack : w.options.exporterWillAck = true)
      (h : w' = { w with proc := w.proc.ackedBy n }) : Exec w (.ack n) w'
  | decoded {account : Name} {w' : World Abi} (h : w' = w.decoded lib account) :
    Exec w (.decode account) w'
  | ended {i : Input} {w₁ w' : World Abi} (hidle : Idle w w₁) (h : Ended w₁ w')
      (hnone : delivered w i = none) : Exec w i w'
  | started {o : Options} {w' : World Abi} (h : Started o w w') : Exec w (.start o) w'
  | received {block : BlockPosition} {result : GetBlocksResult} {queueSize : Nat} {w' : World Abi}
      (hblock : result.thisBlock = some block) (hread : w.proc.continuation = .reading)
      (h : Received lib block result w w') : Exec w (.receive (.ok result) queueSize) w'

/-- The reader goes on after a block, or it was told to stop. -/
theorem receiveMessage_completed {result : GetBlocksResult} (queueSize : Nat) {w w₂ : World Abi}
    (hrun : Running w₂)
    (hresult : receiveResult lib (.ok result) w = .ok (!w₂.proc.aborting) w₂) :
    ∃ w₃ w', receiveMessage lib (.ok result) queueSize w = .ok () w' ∧ Idle w₂ w₃ ∧ Next w₃ w' := by
  have hmessage : receiveMessage lib (.ok result) queueSize w =
      (if !w₂.proc.aborting then continueRead queueSize
        else modifyProc fun p ↦ { p with continuation := .closed } : Receiver Abi Unit) w₂ :=
    bind_run hresult
  rw [hmessage]
  split_ifs
  · obtain ⟨w', hw', hnext⟩ := continueRead_run queueSize hrun
    exact ⟨w₂, w', hw', .refl w₂, hnext⟩
  · refine ⟨_, _, rfl, .refl w₂, .idle ?_⟩
    exact Idle.proc rfl ⟨rfl, rfl⟩ (fun _ ↦ hrun) rfl rfl

/-- The reader goes on running while the core of the process is left alone. -/
theorem running_of_core {w w' : World Abi} (h : w'.proc.core = w.proc.core) :
    Running w' ↔ Running w := by
  have hcont := Proc.member_eq h Proc.continuation fun _ ↦ rfl
  rw [Running, Running, hcont]

variable {lib} in
/-- What processing a block leaves alone. -/
theorem ProcessBlock.frame {block : BlockPosition} {result : GetBlocksResult} {w : World Abi}
    {r : EStateM.Result Abort (World Abi) Unit} (h : ProcessBlock lib block result w r)
    (hc : w.proc.Cached) :
    Ends
      (fun _ w' ↦ w'.options = w.options ∧ w'.proc.core = w.proc.core ∧ w'.proc.Cached)
      (fun _ w' ↦ w'.options = w.options ∧ w'.proc.core = w.proc.core ∧ w'.proc.Cached) r := by
  cases h with
  | unreadable => exact ⟨rfl, rfl, hc⟩
  | failed _ _ hw => exact ⟨hw.1.options, hw.1.core, hw.1.cached⟩
  | untraced _ _ _ hstored hw =>
      exact ⟨hw.1.options.trans hstored.options, hw.1.core.trans hstored.core, hw.1.cached⟩
  | completed _ _ _ hstored hw =>
      exact ⟨hw.1.options.trans hstored.options, hw.1.core.trans hstored.core, hw.1.cached⟩

/-- What `Accept` says about the reader, the options and the cache. -/
theorem Accept.frame {block : BlockPosition} {result : GetBlocksResult} {w : World Abi}
    {r : EStateM.Result Abort (World Abi) Unit} (h : Accept block result w r)
    (hc : w.proc.Cached) :
    Ends
      (fun _ w' ↦ w'.options = w.options ∧ w'.proc.continuation = w.proc.continuation ∧
        w'.proc.Cached ∧ AtBlock block result w')
      (fun _ w' ↦ w'.options = w.options ∧ w'.proc.continuation = w.proc.continuation ∧
        w'.proc.Cached ∧ w'.proc.position = w.proc.position ∧ w'.log = w.log) r := by
  cases h with
  | unmoved => exact ⟨rfl, rfl, hc, rfl, rfl⟩
  | refused => exact ⟨rfl, rfl, hc, rfl, rfl⟩
  | endless => exact ⟨rfl, rfl, w.proc.cached_init, rfl, rfl⟩
  | bottom => exact ⟨rfl, rfl, w.proc.cached_init, rfl, rfl⟩
  | forked => exact ⟨rfl, rfl, w.proc.cached_init, rfl⟩
  | extended => exact ⟨rfl, rfl, hc, rfl⟩
  | unchecked => exact ⟨rfl, rfl, hc, rfl⟩

theorem receiveResult_cases {block : BlockPosition} {result : GetBlocksResult} {w : World Abi}
    (hscan : w.options.interactiveMode = false) (hc : w.proc.Cached)
    (hblock : result.thisBlock = some block) :
    ReceiveResult lib block result w (receiveResult lib (.ok result) w) := by
  have haccept := acceptPosition_cases block result (w := w.counted) hscan
  have hframe := haccept.frame hc
  rw [receiveResult_block lib hblock]
  cases hr : acceptPosition block result w.counted with
  | error e w₁ =>
      rw [hr] at haccept
      rw [bind_run_error hr]
      exact .refused haccept
  | ok u w₁ =>
      rw [hr] at haccept hframe
      obtain ⟨hopt, hcont, hc₁, hat⟩ := hframe
      have hprocess := processBlock_cases lib (hopt ▸ hscan) hat hc₁
      rw [bind_run hr]
      cases hp : processBlock lib block result w₁ with
      | error e w₂ =>
          rw [hp] at hprocess
          rw [bind_run_error hp]
          exact .broken haccept hprocess
      | ok u w₂ =>
          rw [hp] at hprocess
          rw [bind_run hp]
          exact .completed haccept hprocess

theorem receive_cases {block : BlockPosition} {result : GetBlocksResult} (queueSize : Nat)
    {w : World Abi} (hscan : w.options.interactiveMode = false) (hc : w.proc.Cached)
    (hblock : result.thisBlock = some block) (hread : w.proc.continuation = .reading) :
    Received lib block result w (exec lib w (.receive (.ok result) queueSize)) := by
  have hrun : ∀ {w' : World Abi}, w'.proc.continuation = w.proc.continuation → Running w' := by
    intro w' h
    exact (running_iff (h.trans hread)).mpr (by decide)
  have hcases := receiveResult_cases lib hscan hc hblock
  rw [exec, handle, if_pos hread]
  cases hr : receiveResult lib (.ok result) w with
  | error e w₂ =>
      rw [hr] at hcases
      have hmessage : receiveMessage lib (.ok result) queueSize w = .error e w₂ :=
        bind_run_error hr
      cases hcases with
      | refused haccept =>
          have hframe := haccept.frame hc
          exact .refused haccept (catchAndClose_error hmessage (hrun hframe.2.1)) hr
      | broken haccept hprocess =>
          have hframe := haccept.frame hc
          have hcore := (hprocess.frame hframe.2.2.1).2.1
          exact .broken haccept hprocess
            (catchAndClose_error hmessage ((running_of_core hcore).mpr (hrun hframe.2.1))) hr
  | ok goOn w₂ =>
      rw [hr] at hcases
      cases hcases with
      | completed haccept hprocess =>
          have hframe := haccept.frame hc
          have hcore := (hprocess.frame hframe.2.2.1).2.1
          obtain ⟨w₃, w', hmessage, hidle, hnext⟩ := receiveMessage_completed lib queueSize
            ((running_of_core hcore).mpr (hrun hframe.2.1)) hr
          rw [catchAndClose, hmessage]
          exact .completed haccept hprocess hidle hnext hr

/-- A handler that returns after something quiet. -/
theorem handleAny_idle {m : Receiver Abi Unit} {w : World Abi}
    (h : ∃ w', m w = .ok () w' ∧ Idle w w') : Idle w (handleAny m w) := by
  obtain ⟨w', hw', hidle⟩ := h
  rw [handleAny]
  split_ifs
  · exact .refl w
  · rwa [catchAndClose, hw']

/-- A handler of the reader that delivers no block. -/
theorem handle_cases {c : Continuation} {m : Receiver Abi Unit} {w : World Abi} {i : Input}
    (hnone : delivered w i = none) (hc : c ≠ .closed ∧ c ≠ .hung)
    (h : Running w → ∃ w₁ w', m w = .ok () w' ∧ Idle w w₁ ∧ Next w₁ w') :
    Exec lib w i (handle c m w) := by
  rw [handle]
  split_ifs with hcont
  · have hrun : Running w := by
      rwa [Running, hcont]
    obtain ⟨w₁, w', hm, hidle, hnext⟩ := h hrun
    rw [catchAndClose, hm]
    cases hnext with
    | idle h => exact .idle (hidle.trans h) hnone
    | ended h => exact .ended hidle h hnone
  · exact .idle (.refl w) hnone

/-- A process that hangs does nothing any more. -/
theorem exec_hung {w : World Abi} {i : Input} (hscan : w.options.interactiveMode = false)
    (hstart : ∀ o, i ≠ .start o) (hhung : w.proc.continuation = .hung) : exec lib w i = w := by
  cases i with
  | start o => exact absurd rfl (hstart o)
  | ready _ | receive _ _ | timer _ => rw [exec, handle, hhung, if_neg nofun]
  | ack n =>
      rw [exec, handleAny, if_pos hhung]
      split_ifs <;> rfl
  | slowdown _ | stale | decode _ => rw [exec, handleAny, if_pos hhung]
  | request req => rw [exec, hscan, if_neg nofun]
  | scanner tables => rw [exec, hscan, if_neg nofun]

/-- Every input in scan mode does one of the things listed. -/
theorem exec_cases {w : World Abi} {i : Input} (hscan : w.options.interactiveMode = false)
    (hstart : ∀ o, i = .start o → o.interactiveMode = false) (hc : w.proc.Cached) :
    Exec lib w i (exec lib w i) := by
  cases i with
  | start o => exact .started (start_cases lib (hstart o rfl) w)
  | ready queueSize =>
      exact handle_cases lib rfl (by decide) fun hrun ↦ receiveAbi_run queueSize hrun hscan
  | timer queueSize =>
      refine handle_cases lib rfl (by decide) fun hrun ↦ ?_
      obtain ⟨w', hw', hnext⟩ := continueRead_run queueSize hrun
      exact ⟨w, w', hw', .refl w, hnext⟩
  | ack n =>
      by_cases hack : w.options.exporterWillAck = true
      · rw [exec, if_pos hack, handleAny]
        split_ifs
        · exact .idle (.refl w) rfl
        · rw [catchAndClose, ackBlock_run]
          exact .acked hack rfl
      · rw [exec, if_neg hack]
        exact .idle (.refl w) rfl
  | slowdown pause =>
      refine .idle (handleAny_idle ⟨_, rfl, ?_⟩) rfl
      exact Idle.proc rfl ⟨rfl, rfl⟩ (fun h ↦ h) rfl rfl
  | stale => exact .idle (handleAny_idle (idle_checkStaleHead w)) rfl
  | decode account =>
      rw [exec, handleAny]
      split_ifs
      · exact .idle (.refl w) rfl
      · rw [catchAndClose, bind_run (getContractAbiReady_run lib account hc)]
        exact .decoded rfl
  | request req =>
      rw [exec, hscan]
      exact .idle (.refl w) rfl
  | scanner tables =>
      rw [exec, hscan]
      exact .idle (.refl w) rfl
  | receive bin queueSize =>
      by_cases hread : w.proc.continuation = .reading
      swap
      · rw [exec, handle, if_neg hread]
        refine .idle (.refl w) ?_
        cases bin with
        | error what => rfl
        | ok result => rw [delivered, if_neg hread]
      cases bin with
      | error what =>
          have hrun : Running w := (running_iff hread).mpr (by decide)
          rw [exec, handle, if_pos hread]
          exact .idle (catchAndClose_error (receiveMessage_error lib what queueSize w) hrun).1 rfl
      | ok result =>
          cases hblock : result.thisBlock with
          | none =>
              have hnone : delivered w (.receive (.ok result) queueSize) = none := by
                rw [delivered, if_pos hread, hblock]
                rfl
              refine handle_cases lib hnone (by decide) fun hrun ↦ ?_
              obtain ⟨w', hw', hnext⟩ := continueRead_run queueSize hrun
              rw [continueRead_readOn] at hw'
              exact ⟨w, w', (receiveMessage_noBlock lib hblock queueSize w).trans hw',
                .refl w, hnext⟩
          | some block =>
              exact .received hblock hread (receive_cases lib queueSize hscan hc hblock hread)

end Chronicle
