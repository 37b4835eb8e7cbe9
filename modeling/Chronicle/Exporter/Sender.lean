import Chronicle.Logic.Run
import Mathlib.Algebra.Group.Nat.Defs
import Mathlib.Tactic.SplitIfs

/-!
# The websocket sender

`async_send_events` either writes the next message or waits on a timer, and the end of the write
or of the wait calls it again; a message that is pushed cancels the wait.  So exactly one
continuation is pending at any time, and messages are written in the order in which they were
pushed.
-/

namespace Chronicle

/-! ## Messages -/

/-- What is exported. -/
inductive ExportType where
  | fork | blockStarted | block | txTrace | abiUpd | abiRem | abiErr | tblRow | permission
  | permissionLink | accMetadata | rcvrPause | blockCompleted | encoderErr
deriving DecidableEq, Repr

namespace ExportType

/-- The type in a JSON message. -/
def name : ExportType → String
  | fork => "FORK"
  | blockStarted => "BLOCK_STARTED"
  | block => "BLOCK"
  | txTrace => "TX_TRACE"
  | abiUpd => "ABI_UPD"
  | abiRem => "ABI_REM"
  | abiErr => "ABI_ERR"
  | tblRow => "TBL_ROW"
  | permission => "PERMISSION"
  | permissionLink => "PERMISSION_LINK"
  | accMetadata => "ACC_METADATA"
  | rcvrPause => "RCVR_PAUSE"
  | blockCompleted => "BLOCK_COMPLETED"
  | encoderErr => "ENCODER_ERR"

/-- The type in a binary header. -/
def msgtype : ExportType → UInt32
  | fork => 1001
  | block => 1002
  | txTrace => 1003
  | abiUpd => 1004
  | abiRem => 1005
  | abiErr => 1006
  | tblRow => 1007
  | encoderErr => 1008
  | rcvrPause => 1009
  | blockCompleted => 1010
  | permission => 1011
  | permissionLink => 1012
  | accMetadata => 1013
  | blockStarted => 1014

end ExportType

abbrev Msgbuf := List UInt8

/-- The memory of an `int32_t`. -/
def int32Bytes (n : UInt32) : Msgbuf :=
  [n.toUInt8, (n >>> 8).toUInt8, (n >>> 16).toUInt8, (n >>> 24).toUInt8]

/-- The message of `on_event_json`. -/
def onEventJson (msgtype : String) (event : String) : Msgbuf :=
  ("\x7b\"msgtype\":\"" ++ msgtype ++ "\",\"data\":" ++ event ++ "\x7d").toUTF8.toList

/-- The message of `on_event_bin`. -/
def onEventBin (msgtype msgopts : UInt32) (event : String) : Msgbuf :=
  int32Bytes msgtype ++ int32Bytes msgopts ++ event.toUTF8.toList

/-- The options of the exporter. -/
structure SenderOptions where
  useBinHeaders : Bool := false
  queueHwm : Nat := 10000

/-- The product is one of `uint32_t`. -/
def SenderOptions.queueLwm (o : SenderOptions) : Nat := o.queueHwm * 3 % 2 ^ 32 / 4

/-- The message that is pushed for an event. -/
def SenderOptions.message (o : SenderOptions) (e : ExportType × String) : Msgbuf :=
  if o.useBinHeaders then onEventBin e.1.msgtype 0 e.2 else onEventJson e.1.name e.2

/-! ## The sender -/

/-- The members of `exp_ws_plugin_impl` that have to do with sending, and what the event loop
holds for them. -/
structure Sender where
  asyncQueue : List Msgbuf := []
  asyncMsg : Option Msgbuf := none
  pauseTimeMsec : Nat := 0
  /-- What the receiver was told last. -/
  slowdown : Bool := false
  /-- Waits on the timer. -/
  waits : Nat := 0
  /-- Handlers of waits that have expired or were cancelled. -/
  fired : Nat := 0
  /-- What is being written. -/
  writes : List Msgbuf := []
  written : List Msgbuf := []
  /-- A write has failed. -/
  failed : Bool := false

namespace Sender

/-- The waits on the timer end, and their handlers are queued. -/
def cancelTimer (s : Sender) : Sender := { s with waits := 0, fired := s.fired + s.waits }

/-- The next length of the pause. -/
def nextPause (msec : Nat) : Nat :=
  if msec = 0 then 5 else if msec < 256 then msec * 2 else msec

/-- What the receiver is told at a length of the queue. -/
def slowdownAt (o : SenderOptions) (size : Nat) (slowdown : Bool) : Bool :=
  if o.queueHwm ≤ size then true else if size < o.queueLwm then false else slowdown

/-- `async_send_events` -/
def asyncSendEvents (o : SenderOptions) (s : Sender) : Sender :=
  match s.asyncQueue with
  | [] =>
    -- a new expiry time ends the waits that there are
    let s := cancelTimer { s with pauseTimeMsec := nextPause s.pauseTimeMsec }
    { s with waits := s.waits + 1 }
  | msg :: queue =>
    { s with
      pauseTimeMsec := 0
      slowdown := slowdownAt o (queue.length + 1) s.slowdown
      asyncMsg := some msg
      asyncQueue := queue
      writes := s.writes ++ [msg] }

/-- `push_msg` -/
def pushMsg (buf : Msgbuf) (s : Sender) : Sender :=
  let s := { s with asyncQueue := s.asyncQueue ++ [buf] }
  if 0 < s.pauseTimeMsec then s.cancelTimer else s

/-- What can happen to a sender. -/
inductive Step where
  /-- An event arrives. -/
  | event (e : ExportType × String)
  /-- The timer expires. -/
  | expire
  /-- The handler of a wait runs. -/
  | timer
  /-- A write is complete. -/
  | wrote
  /-- A write has failed. -/
  | writeError
deriving DecidableEq

/-- Whether something can happen. -/
def Enabled (s : Sender) : Step → Prop
  | .event _ => True
  | .expire => 0 < s.waits
  | .timer => 0 < s.fired
  | .wrote | .writeError => s.writes ≠ []

instance (s : Sender) : (i : Step) → Decidable (s.Enabled i)
  | .event _ => .isTrue trivial
  | .expire => inferInstanceAs (Decidable (0 < s.waits))
  | .timer => inferInstanceAs (Decidable (0 < s.fired))
  | .wrote | .writeError => inferInstanceAs (Decidable (s.writes ≠ []))

/-- What happens. -/
def exec (o : SenderOptions) (s : Sender) : Step → Sender
  | .event e => s.pushMsg (o.message e)
  | .expire => s.cancelTimer
  | .timer => asyncSendEvents o { s with fired := s.fired - 1 }
  | .wrote =>
    asyncSendEvents o { s with writes := s.writes.tail, written := s.written ++ s.writes.take 1 }
  | .writeError => { s with writes := s.writes.tail, failed := true }

/-- The messages that a list of steps pushes. -/
def pushed (o : SenderOptions) (steps : List Step) : List Msgbuf :=
  steps.filterMap fun
    | .event e => some (o.message e)
    | _ => none

/-- `start` has connected, with some messages in the queue. -/
def start (o : SenderOptions) (queue : List Msgbuf) : Sender :=
  asyncSendEvents o { asyncQueue := queue }

/-! ## The invariant -/

/-- Exactly one continuation is pending: a wait, the handler of a wait, or a write. -/
structure Pending (s : Sender) (pushed : List Msgbuf) : Prop where
  one : s.waits + s.fired + s.writes.length = 1
  /-- The message that is being written is kept. -/
  buffer : ∀ m ∈ s.writes, s.asyncMsg = some m
  /-- While messages are queued nobody waits. -/
  awake : s.asyncQueue ≠ [] → s.waits = 0
  pause : 0 < s.waits → 0 < s.pauseTimeMsec
  /-- Messages are written in order, each once. -/
  order : s.written ++ s.writes ++ s.asyncQueue = pushed

theorem nextPause_pos (msec : Nat) : 0 < nextPause msec := by
  rw [nextPause]
  split_ifs <;> omega

variable {o : SenderOptions} {s : Sender} {l : List Msgbuf}

/-- The sender waits while nothing is queued. -/
theorem asyncSendEvents_nil (hq : s.asyncQueue = []) :
    asyncSendEvents o s = { s with
      pauseTimeMsec := nextPause s.pauseTimeMsec, waits := 1, fired := s.fired + s.waits } := by
  rw [asyncSendEvents, hq]
  rfl

/-- The sender writes the first message. -/
theorem asyncSendEvents_cons {msg : Msgbuf} {queue : List Msgbuf}
    (hq : s.asyncQueue = msg :: queue) :
    asyncSendEvents o s = { s with
      pauseTimeMsec := 0
      slowdown := slowdownAt o (queue.length + 1) s.slowdown
      asyncMsg := some msg
      asyncQueue := queue
      writes := s.writes ++ [msg] } := by
  rw [asyncSendEvents, hq]

/-- The one continuation that there was has ended, and the next one begins. -/
theorem Pending.asyncSendEvents (hwaits : s.waits = 0) (hfired : s.fired = 0)
    (hwrites : s.writes = []) (horder : s.written ++ s.asyncQueue = l) :
    Pending (asyncSendEvents o s) l := by
  cases hq : s.asyncQueue with
  | nil =>
      rw [asyncSendEvents_nil hq]
      refine ⟨?_, ?_, fun h ↦ absurd hq h, fun _ ↦ nextPause_pos _, ?_⟩
      · change 1 + (s.fired + s.waits) + s.writes.length = 1
        rw [hwaits, hfired, hwrites]
        rfl
      · change ∀ m ∈ s.writes, _
        rw [hwrites]
        exact nofun
      · change s.written ++ s.writes ++ s.asyncQueue = l
        rw [hwrites, List.append_nil]
        exact horder
  | cons msg queue =>
      rw [asyncSendEvents_cons hq]
      refine ⟨?_, fun m hm ↦ ?_, fun _ ↦ hwaits, fun h ↦ absurd hwaits (Nat.ne_of_gt h), ?_⟩
      · change s.waits + s.fired + (s.writes ++ [msg]).length = 1
        rw [hwaits, hfired, hwrites]
        rfl
      · have hm : m ∈ s.writes ++ [msg] := hm
        rw [hwrites] at hm
        rw [List.mem_singleton.mp hm]
      · change s.written ++ (s.writes ++ [msg]) ++ queue = l
        rw [hwrites, ← horder, hq, List.append_assoc]
        rfl

theorem Pending.pushMsg (h : Pending s l) (buf : Msgbuf) :
    Pending (s.pushMsg buf) (l ++ [buf]) := by
  have horder : s.written ++ s.writes ++ (s.asyncQueue ++ [buf]) = l ++ [buf] := by
    rw [← List.append_assoc, h.order]
  have hone := h.one
  rw [Sender.pushMsg]
  split_ifs with hpause
  · refine ⟨?_, h.buffer, fun _ ↦ rfl, nofun, horder⟩
    change 0 + (s.fired + s.waits) + s.writes.length = 1
    omega
  · have hpause : ¬ 0 < s.pauseTimeMsec := hpause
    have hwaits : s.waits = 0 := by
      by_contra hne
      exact hpause (h.pause (Nat.pos_of_ne_zero hne))
    exact ⟨hone, h.buffer, fun _ ↦ hwaits, h.pause, horder⟩

/-- One step, unless it is a write that fails. -/
theorem Pending.exec {i : Step} (h : Pending s l) (henabled : s.Enabled i)
    (hi : i ≠ .writeError) : Pending (s.exec o i) (l ++ pushed o [i]) := by
  have hone := h.one
  cases i with
  | event e => exact h.pushMsg (o.message e)
  | expire =>
      have henabled : 0 < s.waits := henabled
      refine ⟨?_, h.buffer, fun _ ↦ rfl, nofun, h.order.trans (List.append_nil _).symm⟩
      change 0 + (s.fired + s.waits) + s.writes.length = 1
      omega
  | timer =>
      have henabled : 0 < s.fired := henabled
      have hwrites : s.writes = [] := List.eq_nil_of_length_eq_zero (by omega)
      have horder := h.order
      rw [hwrites, List.append_nil] at horder
      refine Pending.asyncSendEvents (s := { s with fired := s.fired - 1 }) ?_ ?_ hwrites
        (horder.trans (List.append_nil _).symm)
      · change s.waits = 0
        omega
      · change s.fired - 1 = 0
        omega
  | wrote =>
      have henabled : s.writes ≠ [] := henabled
      obtain ⟨m, ws, hwrites⟩ := List.exists_cons_of_ne_nil henabled
      rw [hwrites, List.length_cons] at hone
      obtain rfl : ws = [] := List.eq_nil_of_length_eq_zero (by omega)
      refine Pending.asyncSendEvents
        (s := { s with
          writes := s.writes.tail
          written := s.written ++ s.writes.take 1 }) ?_ ?_ ?_ ?_
      · change s.waits = 0
        omega
      · change s.fired = 0
        omega
      · change s.writes.tail = []
        rw [hwrites]
        rfl
      · change s.written ++ s.writes.take 1 ++ s.asyncQueue = l ++ []
        rw [List.append_nil, ← h.order, hwrites]
        rfl
  | writeError => exact absurd rfl hi

theorem pending_start (o : SenderOptions) (queue : List Msgbuf) : Pending (start o queue) queue :=
  Pending.asyncSendEvents rfl rfl rfl rfl

/-- Whatever ends next, a queued message is sent, and it is the first one. -/
theorem Pending.sends {msg : Msgbuf} {queue : List Msgbuf} (h : Pending s l)
    (hq : s.asyncQueue = msg :: queue) {i : Step} (henabled : s.Enabled i)
    (hevent : ∀ e, i ≠ .event e) (hi : i ≠ .writeError) :
    (s.exec o i).writes = [msg] ∧ (s.exec o i).asyncQueue = queue := by
  have hone := h.one
  have hwaits := h.awake (by rw [hq]; exact List.cons_ne_nil _ _)
  cases i with
  | event e => exact absurd rfl (hevent e)
  | expire => exact absurd hwaits (Nat.ne_of_gt henabled)
  | timer =>
      have henabled : 0 < s.fired := henabled
      have hwrites : s.writes = [] := List.eq_nil_of_length_eq_zero (by omega)
      rw [Sender.exec, asyncSendEvents_cons (s := { s with fired := s.fired - 1 }) hq]
      exact ⟨congrArg (· ++ [msg]) hwrites, rfl⟩
  | wrote =>
      have henabled : s.writes ≠ [] := henabled
      obtain ⟨m, ws, hwrites⟩ := List.exists_cons_of_ne_nil henabled
      rw [hwrites, List.length_cons] at hone
      obtain rfl : ws = [] := List.eq_nil_of_length_eq_zero (by omega)
      rw [Sender.exec, asyncSendEvents_cons
        (s := { s with writes := s.writes.tail, written := s.written ++ s.writes.take 1 }) hq]
      refine ⟨?_, rfl⟩
      change s.writes.tail ++ [msg] = [msg]
      rw [hwrites]
      rfl
  | writeError => exact absurd rfl hi

/-- **Until a write fails, exactly one continuation is pending, and it is followed by the write of
the first queued message; messages are written in the order in which they were pushed.** -/
theorem one_continuation (o : SenderOptions) (queue : List Msgbuf) (steps : List Step)
    (hsteps : Run.Guarded (exec o) (fun s i ↦ s.Enabled i ∧ i ≠ .writeError) (start o queue)
      steps) :
    let s := steps.foldl (exec o) (start o queue)
    Pending s (queue ++ pushed o steps) ∧
      ∀ msg rest, s.asyncQueue = msg :: rest → ∀ i, s.Enabled i → (∀ e, i ≠ .event e) →
        i ≠ .writeError → (s.exec o i).writes = [msg] ∧ (s.exec o i).asyncQueue = rest := by
  intro s
  have hpending : Pending s (queue ++ pushed o steps) := by
    have hrun : ∀ (steps : List Step) (s : Sender) (l : List Msgbuf),
        Run.Guarded (exec o) (fun s i ↦ s.Enabled i ∧ i ≠ .writeError) s steps → Pending s l →
        Pending (steps.foldl (exec o) s) (l ++ pushed o steps) := by
      intro steps
      induction steps with
      | nil =>
          intro s l _ h
          rwa [pushed, List.filterMap_nil, List.append_nil]
      | cons i steps ih =>
          intro s l hg h
          have hnext := ih _ _ hg.2 (h.exec (o := o) hg.1.1 hg.1.2)
          rwa [List.append_assoc, pushed, pushed, ← List.filterMap_append] at hnext
    exact hrun steps _ _ hsteps (pending_start o queue)
  exact ⟨hpending, fun msg rest hq i henabled hevent hi ↦ hpending.sends hq henabled hevent hi⟩

/-- Two events while the sender waits, and one while it writes. -/
def threeEvents : List Step :=
  [.event (.fork, "1"), .event (.block, "2"), .timer, .event (.blockCompleted, "3"), .wrote, .wrote,
    .wrote, .expire]

theorem one_continuation_three :
    let s := threeEvents.foldl (exec {}) (start {} [])
    s.written ++ s.writes ++ s.asyncQueue = pushed {} threeEvents := by
  have hsteps : Run.Guarded (exec {}) (fun s i ↦ s.Enabled i ∧ i ≠ .writeError) (start {} [])
      threeEvents := by
    decide +kernel
  exact (one_continuation {} [] threeEvents hsteps).1.order

end Sender

end Chronicle
