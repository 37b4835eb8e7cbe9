import Chronicle.Relic.Loop

/-!
# The slowdown request

An exporter asks the receiver for a slowdown when its queue has grown to `queue_hwm`, and takes
that back when it is shorter than `queue_lwm`, each time before it takes a message.  The last
message is taken from a queue of length one, so the request is only taken back in time if
`queue_lwm` is at least two.
-/

namespace Chronicle

variable {o : SenderOptions}

/-! ## The marks -/

/-- With a queue of length one the receiver is told to go on. -/
theorem Sender.slowdownAt_one (hhwm : 2 ≤ o.queueHwm) (hlwm : 2 ≤ o.queueLwm) (slowdown : Bool) :
    slowdownAt o 1 slowdown = false := by
  rw [slowdownAt, if_neg (by omega), if_pos (by omega)]

/-- A request is never taken back if `queue_lwm` is at most one. -/
theorem Sender.slowdownAt_of_low (hlwm : o.queueLwm ≤ 1) {size : Nat} (hsize : 0 < size) :
    slowdownAt o size true = true := by
  rw [slowdownAt]
  split_ifs with hhwm hlow
  · rfl
  · omega
  · rfl

theorem Sender.slowdownAt_hwm (slowdown : Bool) : slowdownAt o o.queueHwm slowdown = true :=
  if_pos le_rfl

/-- When the lower mark is at least two, so is the upper one. -/
theorem SenderOptions.marks_iff :
    8 ≤ o.queueHwm * 3 % 2 ^ 32 ↔ 2 ≤ o.queueHwm ∧ 2 ≤ o.queueLwm := by
  have hle : o.queueHwm * 3 % 2 ^ 32 ≤ o.queueHwm * 3 := Nat.mod_le _ _
  rw [queueLwm]
  omega

/-! ## The websocket exporter -/

namespace Sender

variable {s : Sender}

/-- At most one continuation is pending, and nothing is asked for by a sender that waits or has
nothing queued. -/
structure Released (s : Sender) : Prop where
  one : s.waits + s.fired + s.writes.length ≤ 1
  empty : s.asyncQueue = [] → s.slowdown = false
  waiting : 0 < s.waits → s.slowdown = false

theorem Released.asyncSendEvents (hhwm : 2 ≤ o.queueHwm) (hlwm : 2 ≤ o.queueLwm)
    (hnone : s.waits + s.fired + s.writes.length = 0)
    (hempty : s.asyncQueue = [] → s.slowdown = false) : Released (asyncSendEvents o s) := by
  cases hq : s.asyncQueue with
  | nil =>
      rw [asyncSendEvents_nil hq]
      refine ⟨?_, fun _ ↦ hempty hq, fun _ ↦ hempty hq⟩
      change 1 + (s.fired + s.waits) + s.writes.length ≤ 1
      omega
  | cons msg queue =>
      rw [asyncSendEvents_cons hq]
      refine ⟨?_, fun hnil ↦ ?_, fun hwaits ↦ ?_⟩
      · change s.waits + s.fired + (s.writes ++ [msg]).length ≤ 1
        rw [List.length_append, List.length_singleton]
        omega
      · have hnil : queue = [] := hnil
        subst hnil
        exact slowdownAt_one hhwm hlwm s.slowdown
      · have hwaits : 0 < s.waits := hwaits
        omega

theorem Released.pushMsg (h : Released s) (buf : Msgbuf) : Released (s.pushMsg buf) := by
  have hone := h.one
  have hne : s.asyncQueue ++ [buf] = [] → s.slowdown = false := fun hnil ↦
    absurd hnil (List.append_ne_nil_of_right_ne_nil _ (List.cons_ne_nil _ _))
  rw [Sender.pushMsg]
  split_ifs
  · refine ⟨?_, hne, fun hwaits ↦ absurd hwaits (Nat.lt_irrefl 0)⟩
    change 0 + (s.fired + s.waits) + s.writes.length ≤ 1
    omega
  · exact ⟨hone, hne, h.waiting⟩

theorem Released.exec (hhwm : 2 ≤ o.queueHwm) (hlwm : 2 ≤ o.queueLwm) {i : Step}
    (h : Released s) (henabled : s.Enabled i) : Released (s.exec o i) := by
  have hone := h.one
  cases i with
  | event e => exact h.pushMsg (o.message e)
  | expire =>
      refine ⟨?_, h.empty, fun hwaits ↦ absurd hwaits (Nat.lt_irrefl 0)⟩
      change 0 + (s.fired + s.waits) + s.writes.length ≤ 1
      omega
  | timer =>
      have henabled : 0 < s.fired := henabled
      refine Released.asyncSendEvents (s := { s with fired := s.fired - 1 }) hhwm hlwm ?_ h.empty
      change s.waits + (s.fired - 1) + s.writes.length = 0
      omega
  | wrote =>
      have henabled : s.writes ≠ [] := henabled
      have hlength := List.length_pos_of_ne_nil henabled
      refine Released.asyncSendEvents
        (s := { s with writes := s.writes.tail, written := s.written ++ s.writes.take 1 })
        hhwm hlwm ?_ h.empty
      change s.waits + s.fired + s.writes.tail.length = 0
      rw [List.length_tail]
      omega
  | writeError =>
      refine ⟨?_, h.empty, h.waiting⟩
      change s.waits + s.fired + s.writes.tail.length ≤ 1
      rw [List.length_tail]
      omega

theorem released_start (hhwm : 2 ≤ o.queueHwm) (hlwm : 2 ≤ o.queueLwm) (queue : List Msgbuf) :
    Released (start o queue) :=
  Released.asyncSendEvents hhwm hlwm rfl fun _ ↦ rfl

/-- Once asked for, a slowdown is not taken back while the rest of the queue is written. -/
theorem slowed_of_low (hlwm : o.queueLwm ≤ 1) {queue : List Msgbuf} (hq : s.asyncQueue = queue)
    (hwrites : s.writes.length = 1) (hslow : s.slowdown = true) :
    let steps := List.replicate (queue.length + 1) Step.wrote
    Run.Guarded (exec o) Enabled s steps ∧ 0 < (steps.foldl (exec o) s).waits ∧
      (steps.foldl (exec o) s).slowdown = true := by
  have henabled : s.Enabled .wrote := List.ne_nil_of_length_pos (by omega)
  induction queue generalizing s with
  | nil =>
      have hexec : s.exec o .wrote = _ := asyncSendEvents_nil
        (s := { s with writes := s.writes.tail, written := s.written ++ s.writes.take 1 }) hq
      refine ⟨⟨henabled, trivial⟩, ?_, ?_⟩
      · change 0 < (s.exec o .wrote).waits
        rw [hexec]
        exact Nat.one_pos
      · change (s.exec o .wrote).slowdown = true
        rw [hexec]
        exact hslow
  | cons msg queue ih =>
      have hexec : s.exec o .wrote = _ := asyncSendEvents_cons
        (s := { s with writes := s.writes.tail, written := s.written ++ s.writes.take 1 }) hq
      have hlength : (s.exec o .wrote).writes.length = 1 := by
        rw [hexec]
        change (s.writes.tail ++ [msg]).length = 1
        rw [List.length_append, List.length_tail, hwrites]
        rfl
      have hslow' : (s.exec o .wrote).slowdown = true := by
        rw [hexec]
        change slowdownAt o (queue.length + 1) s.slowdown = true
        rw [hslow]
        exact slowdownAt_of_low hlwm (Nat.succ_pos _)
      have hqueue : (s.exec o .wrote).asyncQueue = queue := by
        rw [hexec]
      obtain ⟨hguard, hrest⟩ := ih hqueue hlength hslow'
        (List.ne_nil_of_length_pos (by omega))
      exact ⟨⟨henabled, hguard⟩, hrest⟩

/-- A slowdown is asked for when the first of `queue_hwm` messages is taken. -/
theorem slowed_start {n : Nat} (hn : o.queueHwm = n + 1) (msg : Msgbuf) :
    (start o (List.replicate (n + 1) msg)).asyncQueue = List.replicate n msg ∧
      (start o (List.replicate (n + 1) msg)).writes.length = 1 ∧
      (start o (List.replicate (n + 1) msg)).slowdown = true := by
  have hstart : start o (List.replicate (n + 1) msg) = _ := asyncSendEvents_cons
    (s := { asyncQueue := List.replicate (n + 1) msg }) List.replicate_succ
  rw [hstart]
  refine ⟨rfl, rfl, ?_⟩
  change slowdownAt o ((List.replicate n msg).length + 1) false = true
  rw [List.length_replicate, ← hn]
  exact slowdownAt_hwm false

end Sender

/-! ## The Relic exporter -/

namespace Relic.Exporter

open Sender (slowdownAt)

variable {ext : Externals} {s : Exporter}

/-- At most one continuation is pending, and nothing is asked for by an exporter that waits or
has nothing queued. -/
structure Released (s : Exporter) : Prop where
  one : s.waits + s.fired ≤ 1
  empty : s.asyncQueue = [] → s.slowdown = false
  waiting : 0 < s.waits → s.slowdown = false

theorem Released.drain (hhwm : 2 ≤ o.queueHwm) (hlwm : 2 ≤ o.queueLwm) {queue : List Msgbuf}
    (hnone : s.waits + s.fired = 0) (hempty : queue = [] → s.slowdown = false) :
    Released (drain ext o queue s) := by
  induction queue generalizing s with
  | nil =>
      refine ⟨?_, fun _ ↦ hempty rfl, fun _ ↦ hempty rfl⟩
      change 0 + 1 + (s.fired + s.waits) ≤ 1
      omega
  | cons msg queue ih =>
      have hlast : queue = [] → slowdownAt o (queue.length + 1) s.slowdown = false := by
        rintro rfl
        exact Sender.slowdownAt_one hhwm hlwm s.slowdown
      rw [Exporter.drain]
      cases ((handle ext msg s.members).run s.answers).result with
      | some m => exact ih hnone hlast
      | none =>
          refine ⟨?_, hlast, fun hwaits ↦ ?_⟩
          · change s.waits + s.fired ≤ 1
            omega
          · have hwaits : 0 < s.waits := hwaits
            omega

theorem Released.exec (hhwm : 2 ≤ o.queueHwm) (hlwm : 2 ≤ o.queueLwm) (h : Released s)
    (i : Step) : Released (exec ext o s i) := by
  have hone := h.one
  cases i with
  | push buf =>
      have hne : s.asyncQueue ++ [buf] = [] → s.slowdown = false := fun hnil ↦
        absurd hnil (List.append_ne_nil_of_right_ne_nil _ (List.cons_ne_nil _ _))
      change Released (s.pushMsg buf)
      rw [Exporter.pushMsg]
      split_ifs
      · refine ⟨?_, hne, fun hwaits ↦ absurd hwaits (Nat.lt_irrefl 0)⟩
        change 0 + (s.fired + s.waits) ≤ 1
        omega
      · exact ⟨hone, hne, h.waiting⟩
  | expire =>
      refine ⟨?_, h.empty, fun hwaits ↦ absurd hwaits (Nat.lt_irrefl 0)⟩
      change 0 + (s.fired + s.waits) ≤ 1
      omega
  | timer =>
      rw [Exporter.exec]
      split_ifs with hfired
      · refine Released.drain (s := { s with fired := s.fired - 1 }) hhwm hlwm ?_ h.empty
        change s.waits + (s.fired - 1) = 0
        omega
      · exact h

theorem released_start (hhwm : 2 ≤ o.queueHwm) (hlwm : 2 ≤ o.queueLwm)
    (answers : Nat → Option Rows) (queue : List Msgbuf) : Released (start ext o answers queue) :=
  Released.drain hhwm hlwm rfl fun _ ↦ rfl

end Relic.Exporter

/-! ## Both -/

/-- An exporter that waits for messages has not left the receiver slowed down: neither the
websocket exporter nor the Relic exporter, in any run. -/
structure SenderOptions.ReleasesSlowdown (o : SenderOptions) : Prop where
  websocket : ∀ (queue : List Msgbuf) (steps : List Sender.Step),
    Run.Guarded (Sender.exec o) Sender.Enabled (Sender.start o queue) steps →
    0 < (steps.foldl (Sender.exec o) (Sender.start o queue)).waits →
      (steps.foldl (Sender.exec o) (Sender.start o queue)).slowdown = false
  relic : ∀ (ext : Externals) (answers : Nat → Option Relic.Rows) (queue : List Msgbuf)
    (steps : List Relic.Exporter.Step),
    0 < (steps.foldl (Relic.Exporter.exec ext o) (Relic.Exporter.start ext o answers queue)).waits →
      (steps.foldl (Relic.Exporter.exec ext o)
        (Relic.Exporter.start ext o answers queue)).slowdown = false

/-- **The slowdown request is always released exactly if three quarters of the maximum queue
size, as computed, are at least two messages.** -/
theorem slowdown_released_iff (o : SenderOptions) (hpos : 0 < o.queueHwm) :
    o.ReleasesSlowdown ↔ 8 ≤ o.queueHwm * 3 % 2 ^ 32 := by
  rw [SenderOptions.marks_iff]
  constructor
  · intro h
    by_contra hlow
    have hlwm : o.queueLwm ≤ 1 := by
      rw [SenderOptions.queueLwm] at hlow ⊢
      omega
    obtain ⟨n, hn⟩ := Nat.exists_eq_succ_of_ne_zero (Nat.ne_of_gt hpos)
    obtain ⟨hqueue, hwrites, hslow⟩ := Sender.slowed_start hn []
    obtain ⟨hguard, hwaits, hend⟩ := Sender.slowed_of_low hlwm hqueue hwrites hslow
    have hreleased := h.websocket _ _ hguard hwaits
    rw [hend] at hreleased
    cases hreleased
  · rintro ⟨hhwm, hlwm⟩
    refine ⟨fun queue steps hguard ↦ ?_, fun ext answers queue steps ↦ ?_⟩
    · have hreleased := hguard.invariant (I := Sender.Released)
        (fun s i hs hi ↦ hs.exec hhwm hlwm hi) (Sender.released_start hhwm hlwm queue)
      exact hreleased.waiting
    · have hreleased : ∀ (steps : List Relic.Exporter.Step) (s : Relic.Exporter),
          s.Released → (steps.foldl (Relic.Exporter.exec ext o) s).Released := by
        intro steps
        induction steps with
        | nil => exact fun s hs ↦ hs
        | cons i steps ih => exact fun s hs ↦ ih _ (hs.exec hhwm hlwm i)
      exact (hreleased steps _ (Relic.Exporter.released_start hhwm hlwm answers queue)).waiting

/-- The default. -/
theorem slowdown_released_default : ({} : SenderOptions).ReleasesSlowdown :=
  (slowdown_released_iff {} (by decide)).mpr (by decide)

/-- With a maximum of one message the receiver is left slowed down after the first one. -/
theorem slowed_down_after_one :
    ∃ o : SenderOptions, 0 < o.queueHwm ∧ o.queueHwm < 2 ^ 32 ∧ ¬ o.ReleasesSlowdown := by
  refine ⟨{ queueHwm := 1 }, by decide, by decide, fun h ↦ ?_⟩
  have hreleased := h.websocket [[]] [.wrote] (by decide) (by decide)
  exact absurd hreleased (by decide)

end Chronicle
