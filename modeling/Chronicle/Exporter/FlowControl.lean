import Chronicle.Consumer.Link

/-!
# Flow control with the Relic exporter

The exporter calls `ack_block` from within the handling of a message, so no acknowledgement is
ever on its way back.  Once it has handled everything, the block below the head is
acknowledged, and never the head.
-/

namespace Chronicle

open Store Effect

variable {Abi : Type} (lib : Abieos Abi)

/-- What happens to a receiver with the Relic exporter. -/
inductive RelicInput where
  /-- Something happens to the receiver. -/
  | receiver (i : Input)
  /-- `async_send_events` handles the next message. -/
  | send

/-- The acknowledgement of a message arrives at once. -/
def Link.relicStep (s : Link Abi) : RelicInput → Link Abi
  | .receiver i => s.step lib (.receiver i)
  | .send => (s.step lib .consume).step lib .deliver

/-- The receiver reads the block above its head, or a block that replaces one it has. -/
def Link.RelicFollows (s : Link Abi) : RelicInput → Prop
  | .receiver i => s.Follows (.receiver i)
  | .send => True

instance (s : Link Abi) : (i : RelicInput) → Decidable (s.RelicFollows i)
  | .receiver i => inferInstanceAs (Decidable (s.Follows (.receiver i)))
  | .send => .isTrue trivial

/-- The next message does not make `ack_block` abort the receiver: if no fork is awaited, what
it acknowledges is not lower than what was acknowledged. -/
def Link.NotLower (s : Link Abi) : RelicInput → Prop
  | .receiver _ => True
  | .send => ∀ e ∈ s.events.head?, ∀ n ∈ e.ack?,
      s.world.proc.forkedAtBlock = 0 → s.world.proc.exporterAckedBlock ≤ n

instance (s : Link Abi) : (i : RelicInput) → Decidable (s.NotLower i)
  | .receiver _ => .isTrue trivial
  | .send => inferInstanceAs (Decidable (∀ e ∈ s.events.head?, ∀ n ∈ e.ack?,
      s.world.proc.forkedAtBlock = 0 → s.world.proc.exporterAckedBlock ≤ n))

/-! ## The invariant -/

/-- Nothing is on its way back, and the acknowledgements of what is queued catch up with the
head. -/
structure Link.Caught (o : Options) (s : Link Abi) : Prop where
  linked : s.Linked o
  acks : s.acks = []
  onTrack : o.exporterWillAck = true → Running s.world → s.handshake.OnTrack

section Steps

variable {s : Link Abi} {o : Options}

/-- One step of the link. -/
theorem Link.Linked.onTrack {i : LinkInput} (h : s.Linked o) (hwill : o.exporterWillAck = true)
    (hfollows : s.Follows i) (htrack : Running s.world → s.handshake.OnTrack)
    (haccepts : i = .deliver → ∀ n ∈ s.acks.head?, s.handshake.Accepts n)
    (hrun : Running (s.step lib i).world) : (s.step lib i).handshake.OnTrack := by
  obtain ⟨hrun₀, hmoves⟩ := h.moves lib hwill hfollows hrun
  have htrack := htrack hrun₀
  cases hmoves with
  | same hs => exact hs ▸ htrack
  | advanced hs => exact hs ▸ htrack.advance
  | rewound hpos _ hs => exact hs ▸ Handshake.OnTrack.rewind s.handshake hpos
  | @answered n ns hi hacks hs =>
      have hunderway : s.handshake.underway = n :: (ns ++ s.events.filterMap Event.ack?) := by
        rw [Link.handshake, hacks]
        rfl
      rw [hs]
      exact htrack.answer hunderway (haccepts hi n (by rw [hacks]; rfl))

/-- What is left when a message was handled. -/
theorem Link.consume_acks (hacks : s.acks = []) {n : Nat}
    (hn : n ∈ (s.step lib .consume).acks.head?) :
    (s.step lib .consume).acks = [n] ∧ ∃ e ∈ s.events.head?, n ∈ e.ack? := by
  rw [Link.step] at hn ⊢
  cases hevents : s.events with
  | nil =>
      rw [hevents] at hn
      simp only [hacks] at hn
      cases hn
  | cons e es =>
      rw [hevents] at hn
      simp only [hacks, List.nil_append] at hn ⊢
      cases hack : e.ack? with
      | none =>
          rw [hack] at hn
          cases hn
      | some k =>
          rw [hack] at hn
          obtain rfl : k = n := Option.some.inj hn
          exact ⟨rfl, e, rfl, hack⟩

theorem Link.deliver_acks (s : Link Abi) : (s.step lib .deliver).acks = s.acks.tail := by
  rw [Link.step]
  cases hacks : s.acks with
  | nil => exact hacks
  | cons n ns => rfl

/-- One step of the receiver with its exporter. -/
theorem Link.Caught.step {i : RelicInput} (h : s.Caught o) (hfollows : s.RelicFollows i)
    (hlower : s.NotLower i) : (s.relicStep lib i).Caught o := by
  cases i with
  | receiver i =>
      have hfollows : s.Follows (.receiver i) := hfollows
      exact ⟨h.linked.step lib hfollows, h.acks, fun hwill hrun ↦
        h.linked.onTrack lib hwill hfollows (h.onTrack hwill) nofun hrun⟩
  | send =>
      have hconsume : (s.step lib .consume).Linked o := h.linked.step lib (i := .consume) trivial
      have hworld : (s.step lib .consume).world = s.world := by
        rw [Link.step]
        cases s.events <;> rfl
      refine ⟨hconsume.step lib (i := .deliver) trivial, ?_, fun hwill hrun ↦ ?_⟩
      · refine (Link.deliver_acks lib _).trans ?_
        cases hacks : (s.step lib .consume).acks with
        | nil => rfl
        | cons n ns =>
            obtain ⟨hone, -⟩ := Link.consume_acks lib h.acks (n := n) (by rw [hacks]; rfl)
            exact (List.cons.inj (hacks.symm.trans hone)).2
      · refine hconsume.onTrack lib (i := .deliver) hwill trivial (fun hrun₀ ↦ ?_)
          (fun _ n hn ↦ ?_) hrun
        · rw [handshake_consume]
          exact h.onTrack hwill (hworld ▸ hrun₀)
        · obtain ⟨-, e, he, hack⟩ := Link.consume_acks lib h.acks hn
          rw [handshake_consume]
          exact hlower e he n hack

theorem Link.caught_start (hscan : o.interactiveMode = false) (db : Undo Tables) :
    (Link.start lib o db).Caught o :=
  ⟨Link.linked_start lib hscan db, rfl,
    fun hwill hrun ↦ (inStep_start lib hscan hwill hrun).onTrack⟩

/-- When all messages are handled, everything but the last block of this process is
acknowledged. -/
theorem Link.Caught.idle (h : s.Caught o) (hwill : o.exporterWillAck = true)
    (hrun : Running s.world) (hevents : s.events = []) :
    s.world.proc.forkedAtBlock = 0 ∧ s.world.proc.head =
      s.world.proc.exporterAckedBlock + if s.handled.any Event.completes then 1 else 0 := by
  have hidle := (h.onTrack hwill hrun).caught_up (by rw [Link.handshake, h.acks, hevents]; rfl)
  refine ⟨hidle.1, hidle.2.trans ?_⟩
  simp only [Link.handshake, hevents, List.append_nil]

end Steps

/-- A run of the receiver with its exporter, in which no acknowledgement aborts the receiver. -/
theorem Link.caught_run {o : Options} (hscan : o.interactiveMode = false) (db : Undo Tables)
    {inputs : List RelicInput}
    (hrun : Run.Guarded (Link.relicStep lib) (fun s i ↦ s.RelicFollows i ∧ s.NotLower i)
      (Link.start lib o db) inputs) :
    (inputs.foldl (Link.relicStep lib) (Link.start lib o db)).Caught o :=
  hrun.invariant (fun _ _ hs hg ↦ hs.step lib hg.1 hg.2) (Link.caught_start lib hscan db)

theorem any_completes_eq_false {es : List Event} :
    es.any Event.completes = false ↔ ∀ b, .blockCompleted b ∉ es := by
  rw [List.any_eq_false]
  constructor
  · exact fun h b hb ↦ h _ hb rfl
  · intro h e he hc
    cases e with
    | blockCompleted b => exact h b he
    | _ => cases hc

/-! ## Reading on -/

/-- **While no acknowledgement aborts the receiver, an exporter that has handled everything lets
the receiver read on exactly if it may be two blocks behind, or no block was completed.** -/
theorem relic_reads_on_iff (o : Options) (hwill : o.exporterWillAck = true)
    (hmax : 0 < o.exporterMaxUnconfirmed) (db : Undo Tables) (inputs : List RelicInput)
    (hrun : Run.Guarded (Link.relicStep lib) (fun s i ↦ s.RelicFollows i ∧ s.NotLower i)
      (Link.start lib o db) inputs) :
    let s := inputs.foldl (Link.relicStep lib) (Link.start lib o db)
    Running s.world → s.events = [] →
      (waitsForAck s.world.options s.world.proc = false ↔
        2 ≤ o.exporterMaxUnconfirmed ∨ ∀ b, .blockCompleted b ∉ s.handled) := by
  intro s hrunning hevents
  have hcaught : s.Caught o := Link.caught_run lib (o.ack_scan hwill).1 db hrun
  obtain ⟨hforked, hhead⟩ := hcaught.idle hwill hrunning hevents
  have hsub : Uint32.sub s.world.proc.head s.world.proc.exporterAckedBlock =
      if s.handled.any Event.completes then 1 else 0 := by
    rw [Uint32.sub, if_pos (by omega)]
    omega
  rw [waitsForAck, hcaught.linked.options, hwill, hforked, hsub, ← any_completes_eq_false]
  cases s.handled.any Event.completes with
  | false => simp [Nat.pos_iff_ne_zero.mp hmax]
  | true => simp only [lt_irrefl, decide_false, Bool.false_or, Bool.true_and, if_true,
      decide_eq_false_iff_not, not_le, Nat.lt_iff_add_one_le, Bool.true_eq_false, or_false]

/-- An empty database. -/
def emptyDb : Undo Tables := ⟨0, ∅, []⟩

/-- A process that is always a block behind, with a block that is replaced. -/
def replacedInputs : List RelicInput :=
  [.send, .receiver (.ready 0), .receiver (.result (bareResult ⟨1, 1⟩ 0 0)), .send,
    .receiver (.result (bareResult ⟨2, 2⟩ 1 0)), .send, .send, .receiver (.timer 0),
    .receiver (.result (bareResult ⟨2, 3⟩ 1 0)), .send, .send, .send]

set_option maxRecDepth 10000 in
theorem relic_reads_on_iff_two :
    let s := replacedInputs.foldl (Link.relicStep .lenient)
      (Link.start .lenient { exporterWillAck := true, exporterMaxUnconfirmed := 2 } emptyDb)
    waitsForAck s.world.options s.world.proc = false := by
  intro s
  have hrun : Run.Guarded (Link.relicStep .lenient) (fun s i ↦ s.RelicFollows i ∧ s.NotLower i)
      (Link.start .lenient { exporterWillAck := true, exporterMaxUnconfirmed := 2 } emptyDb)
      replacedInputs := by
    decide +kernel
  have hrunning : Running s.world := by decide +kernel
  have hevents : s.events.length = 0 := by decide +kernel
  exact (relic_reads_on_iff .lenient { exporterWillAck := true, exporterMaxUnconfirmed := 2 } rfl
    (by decide) emptyDb replacedInputs hrun hrunning
    (List.eq_nil_of_length_eq_zero hevents)).mpr (.inl le_rfl)

/-! ## Waiting for ever -/

/-- The reader is paused, and neither a timer nor the exporter can change that. -/
structure HeldUp (w : World Abi) : Prop where
  scanning : Scanning w
  paused : w.proc.continuation = .paused
  pause : 0 < w.proc.pauseTimeMsec
  waits : waitsForAck w.options w.proc = true ∨ w.proc.head = Uint32.pred w.proc.endBlockNum
  notEnded : reachedEnd w.options w.proc = false

/-- The members that decide whether the reader goes on. -/
def Proc.flow (p : Proc Abi) : Nat × Nat × Nat × Nat × Nat :=
  (p.head, p.irreversible, p.endBlockNum, p.exporterAckedBlock, p.forkedAtBlock)

/-- A change of other members. -/
theorem HeldUp.proc {w : World Abi} (h : HeldUp w) {p : Proc Abi} (hflow : p.flow = w.proc.flow)
    (hcont : p.continuation = .paused) (hpause : 0 < p.pauseTimeMsec) (hc : p.Cached)
    {log : List (Observation Abi)} : HeldUp { w with proc := p, log := log } := by
  simp only [Proc.flow, Prod.mk.injEq] at hflow
  obtain ⟨hhead, hirr, hend, hacked, hforked⟩ := hflow
  refine ⟨⟨h.scanning.mode, hc⟩, hcont, hpause, ?_, ?_⟩
  · have hwaits := h.waits
    rwa [waitsForAck, ← hhead, ← hend, ← hacked, ← hforked] at hwaits
  · have hnot := h.notEnded
    rwa [reachedEnd, ← hhead, ← hirr, ← hend, ← hacked] at hnot

theorem HeldUp.mustPause {w : World Abi} (h : HeldUp w) (queueSize : Nat) :
    mustPause w.options w.proc queueSize = true := by
  rw [Chronicle.mustPause, h.scanning.mode]
  rcases h.waits with hw | hw <;> simp [hw]

/-- What is held up stays so, whatever happens to the receiver, and publishes only pauses. -/
theorem HeldUp.exec {w : World Abi} (h : HeldUp w) {i : Input} (hturn : i.InTurn) :
    HeldUp (exec lib w i) ∧ (Chronicle.exec lib w i).proc.flow = w.proc.flow ∧
      ∃ es, published (Chronicle.exec lib w i).log = published w.log ++ es ∧ ∀ e ∈ es, e.Still := by
  have hsame : ∀ {w' : World Abi}, w' = w → HeldUp w' ∧ w'.proc.flow = w.proc.flow ∧
      ∃ es, published w'.log = published w.log ++ es ∧ ∀ e ∈ es, e.Still := by
    rintro _ rfl
    exact ⟨h, rfl, [], (List.append_nil _).symm, List.forall_mem_nil _⟩
  have hrun : Running w := (running_iff h.paused).mpr (by decide)
  have hany : ∀ {m : Receiver Abi Unit} {p : Proc Abi}, m w = .ok () { w with proc := p } →
      p.flow = w.proc.flow → p.continuation = w.proc.continuation →
      p.pauseTimeMsec = w.proc.pauseTimeMsec → p.SameCache w.proc →
      HeldUp (handleAny m w) ∧ (handleAny m w).proc.flow = w.proc.flow ∧
        ∃ es, published (handleAny m w).log = published w.log ++ es ∧ ∀ e ∈ es, e.Still := by
    intro m p hm hflow hcont hpause hcache
    rw [handleAny, if_neg hrun.2, catchAndClose, hm]
    exact ⟨h.proc hflow (hcont.trans h.paused) (hpause ▸ h.pause) (hcache.cached h.scanning.cached),
      hflow, [], (List.append_nil _).symm, List.forall_mem_nil _⟩
  cases i with
  | start _ | ack _ => exact hturn.elim
  | ready _ | receive _ _ =>
      refine hsame ?_
      rw [Chronicle.exec, handle, h.paused, if_neg (by decide)]
  | timer queueSize =>
      have hexec : Chronicle.exec lib w (.timer queueSize) = w.paused := by
        rw [Chronicle.exec, handle, if_pos h.paused, catchAndClose, continueRead_readOn,
          World.readOn, if_pos (h.mustPause queueSize), h.notEnded, if_neg Bool.false_ne_true]
      rw [hexec]
      refine ⟨h.proc (p := w.paused.proc) rfl rfl ?_ h.scanning.cached, rfl, [_],
        published_append _ _, fun e he ↦ ?_⟩
      · change 0 < nextPauseTime w.proc.pauseTimeMsec
        rw [nextPauseTime]
        split_ifs <;> omega
      · rw [List.mem_singleton.mp he]
        trivial
  | slowdown pause => exact hany rfl rfl rfl rfl ⟨rfl, rfl⟩
  | stale =>
      refine hany (p := { w.proc with staleCheckLastHead := w.proc.head }) ?_ rfl rfl rfl ⟨rfl, rfl⟩
      change (if _ ∧ _ then _ else _ : Receiver Abi Unit) w = _
      rw [if_neg fun hc ↦ absurd hc.2.1 (Nat.pos_iff_ne_zero.mp h.pause)]
      rfl
  | decode account =>
      have hcore := w.proc.load_core lib account (w.lookupAbi account)
      obtain ⟨es, hes, hstill⟩ := (calm_decoded lib account w).publishes
      have hdecode : Chronicle.exec lib w (.decode account) = w.decoded lib account := by
        rw [Chronicle.exec, handleAny, if_neg hrun.2, catchAndClose,
          bind_run (getContractAbiReady_run lib account h.scanning.cached)]
        rfl
      rw [hdecode]
      refine ⟨h.proc (Proc.member_eq hcore Proc.flow fun _ ↦ rfl)
        ((Proc.member_eq hcore Proc.continuation fun _ ↦ rfl).trans h.paused) ?_
        (h.scanning.cached.load lib _ _), Proc.member_eq hcore Proc.flow fun _ ↦ rfl,
        es, hes, hstill⟩
      rw [Proc.member_eq hcore Proc.pauseTimeMsec fun _ ↦ rfl]
      exact h.pause
  | request _ | scanner _ =>
      refine hsame ?_
      rw [Chronicle.exec, h.scanning.mode, if_neg Bool.false_ne_true]

/-- The exporter has nothing to acknowledge. -/
structure Link.HeldUp (s : Link Abi) : Prop where
  world : Chronicle.HeldUp s.world
  acks : s.acks = []
  events : ∀ e ∈ s.events, e.ack? = none

theorem Link.HeldUp.step {s : Link Abi} (h : s.HeldUp) {i : RelicInput}
    (hfollows : s.RelicFollows i) :
    (s.relicStep lib i).HeldUp ∧ (s.relicStep lib i).world.proc.flow = s.world.proc.flow := by
  cases i with
  | receiver i =>
      obtain ⟨hheld, hflow, es, hes, hstill⟩ := h.world.exec lib hfollows.1
      refine ⟨⟨hheld, h.acks, fun e he ↦ ?_⟩, hflow⟩
      have hnew : newEvents s.world (exec lib s.world i) = es := newEvents_eq hes
      rcases List.mem_append.mp he with he | he
      · exact h.events e he
      · rw [hnew] at he
        exact (hstill e he).silent.1
  | send =>
      cases hevents : s.events with
      | nil =>
          have hstep : s.relicStep lib .send = s := by
            rw [Link.relicStep, Link.step, Link.step, hevents]
            simp only [h.acks]
          rw [hstep]
          exact ⟨h, rfl⟩
      | cons e es =>
          have hnone : e.ack? = none := h.events e (by rw [hevents]; exact List.mem_cons_self)
          have hstep : s.relicStep lib .send =
              { s with events := es, handled := s.handled ++ [e] } := by
            rw [Link.relicStep, Link.step, Link.step, hevents]
            simp only [h.acks, hnone, Option.toList_none, List.append_nil]
          rw [hstep]
          refine ⟨⟨h.world, h.acks, fun x hx ↦ h.events x ?_⟩, rfl⟩
          rw [hevents]
          exact List.mem_cons_of_mem _ hx

/-- A receiver that is held up while the exporter has nothing to acknowledge never reads
again. -/
theorem Link.HeldUp.run {s : Link Abi} (h : s.HeldUp) {inputs : List RelicInput}
    (hrun : Run.Guarded (Link.relicStep lib) Link.RelicFollows s inputs) :
    (inputs.foldl (Link.relicStep lib) s).HeldUp ∧
      (inputs.foldl (Link.relicStep lib) s).world.proc.flow = s.world.proc.flow := by
  refine hrun.invariant (I := fun s' ↦ s'.HeldUp ∧ s'.world.proc.flow = s.world.proc.flow)
    (fun s' i hs hg ↦ ?_) ⟨h, rfl⟩
  obtain ⟨hheld, hflow⟩ := hs.1.step lib hg
  exact ⟨hheld, hflow.trans hs.2⟩

/-- So it waits for ever, if nothing is underway. -/
theorem Link.Caught.waits {s : Link Abi} {o : Options} (h : s.Caught o) (hevents : s.events = [])
    (hpaused : s.world.proc.continuation = .paused) (hpause : 0 < s.world.proc.pauseTimeMsec)
    (hwaits : waitsForAck s.world.options s.world.proc = true ∨
      s.world.proc.head = Uint32.pred s.world.proc.endBlockNum)
    (hend : reachedEnd s.world.options s.world.proc = false) {more : List RelicInput}
    (hmore : Run.Guarded (Link.relicStep lib) Link.RelicFollows s more) :
    (more.foldl (Link.relicStep lib) s).world.proc.continuation = .paused ∧
      (more.foldl (Link.relicStep lib) s).world.proc.flow = s.world.proc.flow := by
  have hheld : s.HeldUp :=
    ⟨⟨h.linked.scanning, hpaused, hpause, hwaits, hend⟩, h.acks, by rw [hevents]; nofun⟩
  obtain ⟨hheld', hflow⟩ := hheld.run lib hmore
  exact ⟨hheld'.world.paused, hflow⟩

/-- One block, and everything is handled. -/
def oneBlockInputs : List RelicInput :=
  [.send, .receiver (.ready 0), .receiver (.result (bareResult ⟨1, 1⟩ 0 0)), .send, .send]

set_option maxRecDepth 10000 in
/-- With a limit of one block the receiver waits for an acknowledgement that never comes. -/
theorem held_up_after_one :
    ∃ o : Options, o.exporterWillAck = true ∧ 0 < o.exporterMaxUnconfirmed ∧
      ∃ inputs : List RelicInput,
        Run.Guarded (Link.relicStep .lenient) Link.RelicFollows (Link.start .lenient o emptyDb)
          inputs ∧
        let s := inputs.foldl (Link.relicStep .lenient) (Link.start .lenient o emptyDb)
        Running s.world ∧ s.events = [] ∧
          s.world.proc.head ≠ Uint32.pred s.world.proc.endBlockNum ∧
          waitsForAck s.world.options s.world.proc = true ∧
          ∀ more, Run.Guarded (Link.relicStep .lenient) Link.RelicFollows s more →
            (more.foldl (Link.relicStep .lenient) s).world.proc.continuation = .paused ∧
              (more.foldl (Link.relicStep .lenient) s).world.proc.flow = s.world.proc.flow := by
  refine ⟨{ exporterWillAck := true, exporterMaxUnconfirmed := 1 }, rfl, by decide, oneBlockInputs,
    by decide +kernel, ?_⟩
  intro s
  have hrun : Run.Guarded (Link.relicStep .lenient) (fun s i ↦ s.RelicFollows i ∧ s.NotLower i)
      (Link.start .lenient { exporterWillAck := true, exporterMaxUnconfirmed := 1 } emptyDb)
      oneBlockInputs := by
    decide +kernel
  have hcaught : s.Caught { exporterWillAck := true, exporterMaxUnconfirmed := 1 } :=
    Link.caught_run .lenient rfl emptyDb hrun
  have hevents : s.events = [] := List.eq_nil_of_length_eq_zero (by decide +kernel)
  have hwaits : waitsForAck s.world.options s.world.proc = true := by decide +kernel
  refine ⟨by decide +kernel, hevents, by decide +kernel, hwaits, fun more hmore ↦ ?_⟩
  exact hcaught.waits .lenient hevents (by decide +kernel) (by decide +kernel) (.inl hwaits)
    (by decide +kernel) hmore

/-! ## The end block -/

/-- The world in which an input runs `check_pause`, if it does. -/
def World.checked (w : World Abi) : Input → Option (World Abi)
  | .ready _ =>
    if w.proc.continuation = .handshake then
      some { w with
        proc := { w.proc with receiverReady := true }
        log := w.log ++ [.requested
          (blocksRequest { w with proc := { w.proc with receiverReady := true } })] }
    else none
  | .timer _ => if w.proc.continuation = .paused then some w else none
  | .receive bin _ =>
    if w.proc.continuation = .reading then
      match receiveResult lib bin w with
      | .ok true w₁ => some w₁
      | _ => none
    else none
  | _ => none

section Steps

variable {w w₁ : World Abi} {i : Input}

/-- The rest of the input is the check and what follows from it. -/
theorem exec_of_checked (hscan : w.options.interactiveMode = false)
    (h : w.checked lib i = some w₁) :
    ∃ queueSize, exec lib w i = catchAndClose (continueRead queueSize) w₁ := by
  cases i with
  | ready queueSize =>
      rw [World.checked] at h
      split_ifs at h with hcont
      obtain rfl := Option.some.inj h
      refine ⟨queueSize, ?_⟩
      rw [exec, handle, if_pos hcont, catchAndClose, receiveAbi_asking queueSize hscan,
        catchAndClose, continueRead_readOn]
      rfl
  | timer queueSize =>
      rw [World.checked] at h
      split_ifs at h with hcont
      obtain rfl := Option.some.inj h
      exact ⟨queueSize, if_pos hcont⟩
  | receive bin queueSize =>
      rw [World.checked] at h
      split_ifs at h with hcont
      refine ⟨queueSize, ?_⟩
      cases hr : receiveResult lib bin w with
      | error e w₂ =>
          rw [hr] at h
          cases h
      | ok goOn w₂ =>
          rw [hr] at h
          cases goOn with
          | false => cases h
          | true =>
              obtain rfl := Option.some.inj h
              have hmessage : receiveMessage lib bin queueSize w = continueRead queueSize w₂ :=
                bind_run hr
              rw [exec, handle, if_pos hcont, catchAndClose, hmessage]
              rfl
  | _ => cases h

/-- A result that was received leaves the options and the reader alone, and everything if there
is no block in it. -/
theorem receiveResult_frame (hscan : Scanning w) {bin : Parsed GetBlocksResult} {goOn : Bool}
    (hr : receiveResult lib bin w = .ok goOn w₁) :
    w₁.options = w.options ∧ w₁.proc.continuation = w.proc.continuation ∧
      ((∀ result, bin = .ok result → result.thisBlock = none) → w₁ = w) := by
  cases bin with
  | error what =>
      have hfail : receiveResult lib (.error what) w = .error (.exception what) w :=
        bind_run_error rfl
      rw [hfail] at hr
      cases hr
  | ok result =>
      cases hblock : result.thisBlock with
      | none =>
          rw [receiveResult_noBlock lib hblock] at hr
          cases hr
          exact ⟨rfl, rfl, fun _ ↦ rfl⟩
      | some block =>
          have hcases := receiveResult_cases lib hscan.mode hscan.cached hblock
          rw [hr] at hcases
          cases hcases with
          | completed haccept hprocess =>
              obtain ⟨hopt, hcont, hc, -⟩ := haccept.frame hscan.cached
              obtain ⟨hopt', hcore, -⟩ := hprocess.frame hc
              refine ⟨hopt'.trans hopt, ?_, fun hnone ↦ ?_⟩
              · exact (Proc.member_eq hcore Proc.continuation fun _ ↦ rfl).trans hcont
              · exact absurd (hblock.symm.trans (hnone result rfl)) nofun

/-- The check is made by a process that runs, and where it was if the input brings no block. -/
theorem running_of_checked (hscan : Scanning w) (h : w.checked lib i = some w₁) :
    Running w ∧ Running w₁ ∧ w₁.options = w.options ∧
      (delivered w i = none → w₁.proc.flow = w.proc.flow) := by
  have hrun : ∀ {c : Continuation}, w.proc.continuation = c → c ≠ .closed ∧ c ≠ .hung →
      w₁.proc.continuation = w.proc.continuation → Running w ∧ Running w₁ := by
    rintro c rfl hc hsame
    exact ⟨hc, by rwa [Running, hsame]⟩
  cases i with
  | ready queueSize =>
      rw [World.checked] at h
      split_ifs at h with hcont
      obtain rfl := Option.some.inj h
      obtain ⟨h₀, h₁⟩ := hrun hcont (by decide) rfl
      exact ⟨h₀, h₁, rfl, fun _ ↦ rfl⟩
  | timer queueSize =>
      rw [World.checked] at h
      split_ifs at h with hcont
      obtain rfl := Option.some.inj h
      obtain ⟨h₀, h₁⟩ := hrun hcont (by decide) rfl
      exact ⟨h₀, h₁, rfl, fun _ ↦ rfl⟩
  | receive bin queueSize =>
      rw [World.checked] at h
      split_ifs at h with hcont
      cases hr : receiveResult lib bin w with
      | error e w₂ =>
          rw [hr] at h
          cases h
      | ok goOn w₂ =>
          rw [hr] at h
          cases goOn with
          | false => cases h
          | true =>
              obtain rfl := Option.some.inj h
              obtain ⟨hopt, hsame, hnone⟩ := receiveResult_frame lib hscan hr
              obtain ⟨h₀, h₁⟩ := hrun hcont (by decide) hsame
              refine ⟨h₀, h₁, hopt, fun hd ↦ ?_⟩
              rw [hnone ?_]
              rintro result rfl
              rw [delivered, if_pos hcont] at hd
              exact Option.map_eq_none_iff.mp hd
  | _ => cases h

/-- What is checked at the last block stops the receiver exactly if that is the end. -/
theorem ended_iff (hscan : Scanning w) (h : w.checked lib i = some w₁)
    (hhead : w₁.proc.head = Uint32.pred w₁.proc.endBlockNum) :
    Ended w₁ (exec lib w i) ↔ reachedEnd w₁.options w₁.proc = true := by
  constructor
  · exact fun hended ↦ hended.reached
  · intro hend
    obtain ⟨queueSize, hexec⟩ := exec_of_checked lib hscan.mode h
    obtain ⟨-, hrun, hopt, -⟩ := running_of_checked lib hscan h
    have hpause : mustPause w₁.options w₁.proc queueSize = true := by
      rw [mustPause, hopt, hscan.mode, hhead]
      simp
    rw [hexec, catchAndClose, continueRead_readOn, World.readOn, if_pos hpause, if_pos hend]
    exact ⟨hrun, hend, rfl, rfl, rfl, ⟨rfl, rfl⟩, rfl, fun h ↦ h.1 rfl, rfl, rfl⟩

end Steps

/-- **The check at the block before the end block stops the receiver exactly if that block is
irreversible and there is no exporter that acknowledges, or no block was completed.** -/
theorem stops_at_end_iff (o : Options) (hscan : o.interactiveMode = false) (db : Undo Tables)
    (inputs : List RelicInput)
    (hrun : Run.Guarded (Link.relicStep lib) (fun s i ↦ s.RelicFollows i ∧ s.NotLower i)
      (Link.start lib o db) inputs) :
    let s := inputs.foldl (Link.relicStep lib) (Link.start lib o db)
    ∀ i w, s.world.checked lib i = some w → w.proc.head = Uint32.pred w.proc.endBlockNum →
      (o.exporterWillAck = true → s.events = [] ∧ delivered s.world i = none) →
        (Ended w (s.relicStep lib (.receiver i)).world ↔ w.proc.head ≤ w.proc.irreversible ∧
          (o.exporterWillAck = false ∨ ∀ b, .blockCompleted b ∉ s.handled)) := by
  intro s i w hchecked hhead hidle
  have hcaught : s.Caught o := Link.caught_run lib hscan db hrun
  have hscanning := hcaught.linked.scanning
  obtain ⟨hrunning, -, hopt, hsame⟩ := running_of_checked lib hscanning hchecked
  change Ended w (exec lib s.world i) ↔ _
  rw [ended_iff lib hscanning hchecked hhead, reachedEnd, ← hhead, decide_eq_true rfl,
    Bool.true_and, Bool.and_eq_true, decide_eq_true_eq, Bool.or_eq_true, Bool.not_eq_true',
    decide_eq_true_eq, hopt, hcaught.linked.options]
  refine and_congr_right fun _ ↦ ?_
  cases hwill : o.exporterWillAck with
  | false => exact iff_of_true (.inl rfl) (.inl rfl)
  | true =>
      obtain ⟨hevents, hnone⟩ := hidle hwill
      have hflow := hsame hnone
      simp only [Proc.flow, Prod.mk.injEq] at hflow
      have hhead := (hcaught.idle hwill hrunning hevents).2
      rw [hflow.1, hflow.2.2.2.1, ← any_completes_eq_false]
      refine or_congr_right ?_
      cases hany : s.handled.any Event.completes with
      | false =>
          rw [hany, if_neg Bool.false_ne_true] at hhead
          exact iff_of_true hhead.symm rfl
      | true =>
          rw [hany, if_pos rfl] at hhead
          exact iff_of_false (by omega) nofun

/-- The first of two blocks, for nobody who acknowledges. -/
def firstBlockInputs : List RelicInput :=
  [.receiver (.ready 0), .receiver (.result (bareResult ⟨1, 1⟩ 0 0))]

set_option maxRecDepth 10000 in
theorem stops_at_end_iff_irreversible :
    let s := firstBlockInputs.foldl (Link.relicStep .lenient)
      (Link.start .lenient { endBlockNum := 3 } emptyDb)
    ∃ w, s.world.checked .lenient (.result (bareResult ⟨2, 2⟩ 1 2)) = some w ∧
      Ended w (s.relicStep .lenient (.receiver (.result (bareResult ⟨2, 2⟩ 1 2)))).world := by
  intro s
  have hrun : Run.Guarded (Link.relicStep .lenient) (fun s i ↦ s.RelicFollows i ∧ s.NotLower i)
      (Link.start .lenient { endBlockNum := 3 } emptyDb) firstBlockInputs := by
    decide +kernel
  have hsome : (s.world.checked .lenient (.result (bareResult ⟨2, 2⟩ 1 2))).isSome = true := by
    decide +kernel
  obtain ⟨w, hw⟩ := Option.isSome_iff_exists.mp hsome
  have hflow : w.proc.flow = (2, 2, 3, 0, 1) := by
    have h : (s.world.checked .lenient (.result (bareResult ⟨2, 2⟩ 1 2))).map (·.proc.flow) =
        some (2, 2, 3, 0, 1) := by
      decide +kernel
    rw [hw] at h
    exact Option.some.inj h
  simp only [Proc.flow, Prod.mk.injEq] at hflow
  refine ⟨w, hw, (stops_at_end_iff .lenient { endBlockNum := 3 } rfl emptyDb firstBlockInputs hrun
    _ w hw ?_ nofun).mpr ⟨?_, .inl rfl⟩⟩
  · rw [hflow.1, hflow.2.2.1]
    rfl
  · rw [hflow.1, hflow.2.1]

/-- The only block, which is irreversible, and everything is handled. -/
def lastBlockInputs : List RelicInput :=
  [.send, .receiver (.ready 0), .receiver (.result (bareResult ⟨1, 1⟩ 0 1)), .send, .send]

set_option maxRecDepth 10000 in
/-- The receiver waits at its end for the acknowledgement of the last block, which never
comes. -/
theorem held_up_at_end :
    ∃ o : Options, ∃ inputs : List RelicInput,
      Run.Guarded (Link.relicStep .lenient) Link.RelicFollows (Link.start .lenient o emptyDb)
        inputs ∧
      let s := inputs.foldl (Link.relicStep .lenient) (Link.start .lenient o emptyDb)
      o.exporterWillAck = true ∧ Running s.world ∧ s.events = [] ∧
        s.world.proc.head = Uint32.pred s.world.proc.endBlockNum ∧
        s.world.proc.head ≤ s.world.proc.irreversible ∧
        ∀ more, Run.Guarded (Link.relicStep .lenient) Link.RelicFollows s more →
          (more.foldl (Link.relicStep .lenient) s).world.proc.continuation = .paused ∧
            (more.foldl (Link.relicStep .lenient) s).world.proc.flow = s.world.proc.flow := by
  refine ⟨{ exporterWillAck := true, endBlockNum := 2 }, lastBlockInputs, by decide +kernel, ?_⟩
  intro s
  have hrun : Run.Guarded (Link.relicStep .lenient) (fun s i ↦ s.RelicFollows i ∧ s.NotLower i)
      (Link.start .lenient { exporterWillAck := true, endBlockNum := 2 } emptyDb)
      lastBlockInputs := by
    decide +kernel
  have hcaught : s.Caught { exporterWillAck := true, endBlockNum := 2 } :=
    Link.caught_run .lenient rfl emptyDb hrun
  have hevents : s.events = [] := List.eq_nil_of_length_eq_zero (by decide +kernel)
  have hhead : s.world.proc.head = Uint32.pred s.world.proc.endBlockNum := by decide +kernel
  refine ⟨rfl, by decide +kernel, hevents, hhead, by decide +kernel, fun more hmore ↦ ?_⟩
  exact hcaught.waits .lenient hevents (by decide +kernel) (by decide +kernel) (.inr hhead)
    (by decide +kernel) hmore

end Chronicle
