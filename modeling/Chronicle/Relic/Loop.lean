import Chronicle.Exporter.Framing
import Chronicle.Relic.Required

/-!
# The loop of the Relic exporter

`async_send_events` handles all the messages that are queued, one after another, and then waits
on a timer, whose handler calls it again; a message that is pushed cancels the wait.  An exception
ends it without a new wait.

So a block is acknowledged only when everything that the messages before require is stored
(`AllStored`), and nothing is done after a statement that has failed.
-/

namespace Chronicle.Relic

/-- What has been done. -/
abbrev Trace := List (Program.Done Query Rows Nat)

/-- The members of `exp_relic_plugin_impl`, and what the event loop and the database hold for
them. -/
structure Exporter where
  asyncQueue : List Msgbuf := []
  pauseTimeMsec : Nat := 0
  /-- What the receiver was told last. -/
  slowdown : Bool := false
  members : Members := {}
  /-- Waits on the timer. -/
  waits : Nat := 0
  /-- Handlers of waits that have expired or were cancelled. -/
  fired : Nat := 0
  /-- `abort_receiver` was called. -/
  aborted : Bool := false
  /-- What the database answers from now on; nothing for a statement that fails. -/
  answers : Nat → Option Rows
  trace : Trace := []

namespace Exporter

/-- The waits on the timer end, and their handlers are queued. -/
def cancelTimer (s : Exporter) : Exporter := { s with waits := 0, fired := s.fired + s.waits }

variable (ext : Externals) (o : SenderOptions)

/-- `async_send_events` with some messages in the queue; it calls itself after each. -/
def drain : List Msgbuf → Exporter → Exporter
  | [], s =>
    let s := cancelTimer { s with
      asyncQueue := [], pauseTimeMsec := Sender.nextPause s.pauseTimeMsec }
    { s with waits := s.waits + 1 }
  | msg :: queue, s =>
    let out := (handle ext msg s.members).run s.answers
    let s := { s with
      pauseTimeMsec := 0
      slowdown := Sender.slowdownAt o (queue.length + 1) s.slowdown
      asyncQueue := queue
      answers := out.answers
      trace := s.trace ++ out.trace }
    match out.result with
    | some m => drain queue { s with members := m }
    -- the exception is caught, and nothing calls `async_send_events` again
    | none => { s with aborted := true }

/-- `async_send_events` -/
def asyncSendEvents (s : Exporter) : Exporter := drain ext o s.asyncQueue s

/-- `push_msg` -/
def pushMsg (buf : Msgbuf) (s : Exporter) : Exporter :=
  let s := { s with asyncQueue := s.asyncQueue ++ [buf] }
  if 0 < s.pauseTimeMsec then s.cancelTimer else s

/-- What can happen to the exporter. -/
inductive Step where
  | push (buf : Msgbuf)
  /-- The timer expires. -/
  | expire
  /-- The handler of a wait runs, if there is one. -/
  | timer

/-- What happens. -/
def exec (s : Exporter) : Step → Exporter
  | .push buf => s.pushMsg buf
  | .expire => s.cancelTimer
  | .timer => if 0 < s.fired then asyncSendEvents ext o { s with fired := s.fired - 1 } else s

/-- The exporter is started, with some messages in the queue. -/
def start (answers : Nat → Option Rows) (queue : List Msgbuf) : Exporter :=
  asyncSendEvents ext o { asyncQueue := queue, answers := answers }

/-- The messages that are pushed. -/
def pushed (steps : List Step) : List Msgbuf :=
  steps.filterMap fun
    | .push buf => some buf
    | _ => none

/-! ## Messages that are handled -/

/-- Some messages are handled completely, one after another, with some answers: what is done, the
answers that are left, and the members. -/
inductive Handled (answers : Nat → Option Rows) :
    List Msgbuf → Trace → (Nat → Option Rows) → Members → Prop where
  | nil : Handled answers [] [] answers {}
  | snoc {msgs : List Msgbuf} {trace : Trace} {left : Nat → Option Rows} {m m' : Members}
      (msg : Msgbuf) (h : Handled answers msgs trace left m)
      (hmsg : ((handle ext msg m).run left).result = some m') :
      Handled answers (msgs ++ [msg]) (trace ++ ((handle ext msg m).run left).trace)
        ((handle ext msg m).run left).answers m'

/-- No statement of a message that was handled completely has failed. -/
theorem Handled.not_failed {answers left : Nat → Option Rows} {msgs : List Msgbuf} {trace : Trace}
    {m : Members} (h : Handled ext answers msgs trace left m) (q : Query) : .failed q ∉ trace := by
  induction h with
  | nil => exact List.not_mem_nil
  | snoc msg h hmsg ih =>
      intro hq
      rcases List.mem_append.mp hq with hq | hq
      · exact ih hq
      · obtain ⟨pre, post, hsplit⟩ := List.append_of_mem hq
        rw [(Program.failed_last _ hsplit).2] at hmsg
        cases hmsg

/-- The statements that have succeeded, with their results. -/
def issued (trace : Trace) : List Issued :=
  (Program.answered trace).map fun d ↦ (d.1.statement, d.2)

theorem issued_append (l₁ l₂ : Trace) : issued (l₁ ++ l₂) = issued l₁ ++ issued l₂ := by
  rw [issued, Program.answered_append, List.map_append]
  rfl

/-- What messages require is stored when they are handled completely. -/
theorem Handled.allStored {answers left : Nat → Option Rows} {msgs : List Msgbuf} {trace : Trace}
    {m : Members} (h : Handled ext answers msgs trace left m) :
    AllStored ext msgs (issued trace) m := by
  induction h with
  | nil => exact .nil
  | snoc msg h hmsg ih =>
      rw [issued_append]
      exact ih.snoc ((handle_stores ext msg _).run hmsg)

/-- What was done before block `k` was acknowledged: all that the messages before require was
issued, and then all that the message that acknowledges it requires, and no statement has
failed. -/
structure Stored (msgs : List Msgbuf) (pre : Trace) (k : Nat) : Prop where
  required : ∃ earlier msg later done m own m', msgs = earlier ++ msg :: later ∧
    AllStored ext earlier done m ∧ MessageStored ext msg m own m' ∧ Acknowledges ext msg k ∧
    issued pre = done ++ own
  succeeded : ∀ q, .failed q ∉ pre

/-- An acknowledgement among what is done with a message after others. -/
theorem Handled.stored_last {answers left : Nat → Option Rows} {earlier later : List Msgbuf}
    {trace own rest : Trace} {m : Members} {msg : Msgbuf} {k : Nat}
    (h : Handled ext answers earlier trace left m)
    (hmsg : ((handle ext msg m).run left).trace = own ++ .told k :: rest) :
    Stored ext (earlier ++ msg :: later) (trace ++ own) k := by
  -- the acknowledgement is the last thing that is done, so the handling has returned
  obtain ⟨rfl, hsome⟩ := (handle_tellsLast ext msg m).run hmsg
  obtain ⟨m', hm'⟩ := Option.isSome_iff_exists.mp hsome
  have hown : issued own = issued ((handle ext msg m).run left).trace := by
    rw [hmsg, issued_append]
    exact (List.append_nil _).symm
  have hack : Acknowledges ext msg k :=
    handle_acknowledges ext (hmsg ▸ List.mem_append_right own List.mem_cons_self)
  refine ⟨⟨earlier, msg, later, issued trace, m, issued own, m', rfl, h.allStored,
    hown ▸ (handle_stores ext msg m).run hm', hack, issued_append _ _⟩, fun q hq ↦ ?_⟩
  rcases List.mem_append.mp hq with hq | hq
  · exact h.not_failed ext q hq
  · obtain ⟨pre, post, rfl⟩ := List.append_of_mem hq
    rw [List.append_assoc] at hmsg
    exact absurd (Program.failed_last _ hmsg).1
      (List.append_ne_nil_of_right_ne_nil _ (List.cons_ne_nil _ _))

theorem Stored.mono {msgs : List Msgbuf} {pre : Trace} {k : Nat} (h : Stored ext msgs pre k)
    (later : List Msgbuf) : Stored ext (msgs ++ later) pre k := by
  obtain ⟨earlier, msg, rest, done, m, own, m', rfl, hstored⟩ := h.required
  refine ⟨⟨earlier, msg, rest ++ later, done, m, own, m', ?_, hstored⟩, h.succeeded⟩
  rw [List.append_assoc]
  rfl

/-- Where something in one of two lists stands. -/
theorem split_append {α : Type} {x : α} {l₁ l₂ pre post : List α}
    (h : l₁ ++ l₂ = pre ++ x :: post) :
    (∃ post₁, l₁ = pre ++ x :: post₁) ∨ ∃ own, pre = l₁ ++ own ∧ l₂ = own ++ x :: post := by
  rcases List.append_eq_append_iff.mp h with ⟨own, hpre, hl₂⟩ | ⟨rest, hl₁, hpost⟩
  · exact .inr ⟨own, hpre, hl₂⟩
  · cases rest with
    | nil => exact .inr ⟨[], by rw [List.append_nil, hl₁, List.append_nil], hpost.symm⟩
    | cons y rest =>
        obtain rfl := (List.cons.inj hpost).1
        exact .inl ⟨rest, hl₁⟩

/-- An acknowledgement among what was done with messages that were handled completely. -/
theorem Handled.stored {answers left : Nat → Option Rows} {msgs : List Msgbuf} {trace : Trace}
    {m : Members} (h : Handled ext answers msgs trace left m) {pre post : Trace} {k : Nat}
    (hack : trace = pre ++ .told k :: post) : Stored ext msgs pre k := by
  induction h generalizing pre post with
  | nil => exact absurd hack.symm (List.append_ne_nil_of_right_ne_nil _ (List.cons_ne_nil _ _))
  | snoc msg h hmsg ih =>
      rcases split_append hack with ⟨post₁, htrace⟩ | ⟨own, rfl, hown⟩
      · exact (ih htrace).mono ext [msg]
      · exact h.stored_last ext hown

/-! ## The invariant -/

/-- Either all that was taken from the queue is handled, and one continuation is pending; or the
message that was taken last was not handled to its end, and none is. -/
inductive Sound (answers : Nat → Option Rows) (msgs : List Msgbuf) (s : Exporter) : Prop where
  | running (earlier : List Msgbuf) (h : Handled ext answers earlier s.trace s.answers s.members)
      (order : msgs = earlier ++ s.asyncQueue) (one : s.waits + s.fired = 1)
  | ended (earlier : List Msgbuf) (msg : Msgbuf) (trace : Trace) (left : Nat → Option Rows)
      (m : Members) (h : Handled ext answers earlier trace left m)
      (hmsg : ((handle ext msg m).run left).result = none)
      (htrace : s.trace = trace ++ ((handle ext msg m).run left).trace)
      (order : msgs = earlier ++ msg :: s.asyncQueue) (none : s.waits = 0 ∧ s.fired = 0)
      (aborted : s.aborted = true)

section Invariant

variable {ext o} {answers : Nat → Option Rows} {msgs : List Msgbuf} {s : Exporter}

/-- The messages of the queue are handled. -/
theorem sound_drain {queue earlier : List Msgbuf}
    (h : Handled ext answers earlier s.trace s.answers s.members) (horder : msgs = earlier ++ queue)
    (hwaits : s.waits = 0) (hfired : s.fired = 0) :
    Sound ext answers msgs (drain ext o queue s) := by
  induction queue generalizing s earlier with
  | nil =>
      refine .running earlier h horder ?_
      change 0 + 1 + (s.fired + s.waits) = 1
      rw [hwaits, hfired]
  | cons msg queue ih =>
      rw [drain]
      cases hout : ((handle ext msg s.members).run s.answers).result with
      | some m =>
          refine ih (h.snoc msg hout) ?_ hwaits hfired
          rw [horder, List.append_assoc]
          rfl
      | none =>
          exact .ended earlier msg s.trace s.answers s.members h hout rfl horder
            ⟨hwaits, hfired⟩ rfl

theorem sound_start (queue : List Msgbuf) : Sound ext answers queue (start ext o answers queue) :=
  sound_drain .nil rfl rfl rfl

theorem Sound.pushMsg (h : Sound ext answers msgs s) (buf : Msgbuf) :
    Sound ext answers (msgs ++ [buf]) (s.pushMsg buf) := by
  rw [Exporter.pushMsg]
  cases h with
  | running earlier h horder hone =>
      have horder : msgs ++ [buf] = earlier ++ (s.asyncQueue ++ [buf]) := by
        rw [horder, List.append_assoc]
      dsimp only
      split_ifs
      · refine .running earlier h horder ?_
        change 0 + (s.fired + s.waits) = 1
        omega
      · exact .running earlier h horder hone
  | ended earlier msg trace left m h hmsg htrace horder hnone haborted =>
      have horder : msgs ++ [buf] = earlier ++ msg :: (s.asyncQueue ++ [buf]) := by
        rw [horder, List.append_assoc]
        rfl
      dsimp only
      split_ifs
      · refine .ended earlier msg trace left m h hmsg htrace horder ⟨rfl, ?_⟩ haborted
        change s.fired + s.waits = 0
        omega
      · exact .ended earlier msg trace left m h hmsg htrace horder hnone haborted

/-- One step. -/
theorem Sound.exec (h : Sound ext answers msgs s) (i : Step) :
    Sound ext answers (msgs ++ pushed [i]) (s.exec ext o i) := by
  cases i with
  | push buf => exact h.pushMsg buf
  | expire =>
      rw [pushed, List.filterMap_cons_none rfl, List.filterMap_nil, List.append_nil]
      cases h with
      | running earlier h horder hone =>
          refine .running earlier h horder ?_
          change 0 + (s.fired + s.waits) = 1
          omega
      | ended earlier msg trace left m h hmsg htrace horder hnone haborted =>
          refine .ended earlier msg trace left m h hmsg htrace horder ⟨rfl, ?_⟩ haborted
          change s.fired + s.waits = 0
          omega
  | timer =>
      rw [pushed, List.filterMap_cons_none rfl, List.filterMap_nil, List.append_nil, Exporter.exec]
      split_ifs with hfired
      · cases h with
        | running earlier h horder hone =>
            refine sound_drain h horder ?_ ?_
            · change s.waits = 0
              omega
            · change s.fired - 1 = 0
              omega
        | ended earlier msg trace left m h hmsg htrace horder hnone haborted =>
            exact absurd hnone.2 (Nat.ne_of_gt hfired)
      · exact h

/-- A run. -/
theorem Sound.run (h : Sound ext answers msgs s) (steps : List Step) :
    Sound ext answers (msgs ++ pushed steps) (steps.foldl (Exporter.exec ext o) s) := by
  induction steps generalizing s msgs with
  | nil => rwa [pushed, List.filterMap_nil, List.append_nil]
  | cons i steps ih =>
      have hnext := ih (h.exec (o := o) i)
      rwa [List.append_assoc, pushed, pushed, ← List.filterMap_append] at hnext

/-- A block that was acknowledged is stored. -/
theorem Sound.stored (h : Sound ext answers msgs s) {pre post : Trace} {k : Nat}
    (hack : s.trace = pre ++ .told k :: post) : Stored ext msgs pre k := by
  cases h with
  | running earlier h horder hone =>
      rw [horder]
      exact (h.stored ext hack).mono ext s.asyncQueue
  | ended earlier msg trace left m h hmsg htrace horder hnone haborted =>
      rw [horder]
      rw [htrace] at hack
      rcases split_append hack with ⟨post₁, htrace⟩ | ⟨own, rfl, hown⟩
      · exact (h.stored ext htrace).mono ext (msg :: s.asyncQueue)
      · exact h.stored_last ext hown

/-- Nothing is pending after a statement that has failed, and it was the last thing that was
done. -/
theorem Sound.failed (h : Sound ext answers msgs s) {q : Query} (hq : .failed q ∈ s.trace) :
    s.aborted = true ∧ s.waits = 0 ∧ s.fired = 0 ∧ s.trace.getLast? = some (.failed q) := by
  cases h with
  | running earlier h horder hone => exact absurd hq (h.not_failed ext q)
  | ended earlier msg trace left m h hmsg htrace horder hnone haborted =>
      refine ⟨haborted, hnone.1, hnone.2, ?_⟩
      rw [htrace] at hq ⊢
      rcases List.mem_append.mp hq with hq | hq
      · exact absurd hq (h.not_failed ext q)
      · obtain ⟨pre, post, hsplit⟩ := List.append_of_mem hq
        obtain rfl := (Program.failed_last _ hsplit).1
        rw [hsplit, ← List.append_assoc, List.getLast?_concat]

end Invariant

end Exporter

end Chronicle.Relic
