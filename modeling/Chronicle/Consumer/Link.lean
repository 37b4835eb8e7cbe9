import Chronicle.Consumer.Stream
import Chronicle.Scan.AckRange
import Chronicle.Scan.Export
import Chronicle.Logic.Handshake

/-!
# The receiver and a consumer that acknowledges

Events go to the consumer, and acknowledgements come back, in order and after any time.  The
consumer acknowledges a block with the number below it when the block is completed, and also
when a fork replaces it.  What is underway in both directions is a `Handshake`.
-/

namespace Chronicle

open Store Effect

variable {Abi : Type} (lib : Abieos Abi)

/-! ## The consumer -/

/-- What the consumer acknowledges when it has handled an event. -/
def Event.ack? : Event → Option Nat
  | .fork e => some (Uint32.pred e.blockNum)
  | .blockCompleted e => some (Uint32.pred e.blockNum)
  | _ => none

/-- Whether an event completes a block. -/
def Event.completes : Event → Bool
  | .blockCompleted _ => true
  | _ => false

theorem Event.Still.silent {e : Event} (h : e.Still) : e.ack? = none ∧ e.completes = false := by
  cases e with
  | receiverPause _ => exact ⟨rfl, rfl⟩
  | _ => cases h

theorem Event.Inside.silent {e : Event} {b : Nat} (h : e.Inside b) :
    e.ack? = none ∧ e.completes = false := by
  cases e with
  | fork _ | receiverPause _ | blockCompleted _ => cases h
  | _ => exact ⟨rfl, rfl⟩

/-! ## The two channels -/

/-- A receiver and a consumer. -/
structure Link (Abi : Type) where
  world : World Abi
  /-- The events on their way to the consumer. -/
  events : List Event := []
  /-- The acknowledgements on their way back. -/
  acks : List Nat := []
  /-- What the consumer has handled. -/
  handled : List Event := []

/-- What can happen next. -/
inductive LinkInput where
  /-- Something happens to the receiver. -/
  | receiver (i : Input)
  /-- The consumer handles the next event. -/
  | consume
  /-- The next acknowledgement arrives. -/
  | deliver

/-- What happens to a link. -/
def Link.step (s : Link Abi) : LinkInput → Link Abi
  | .receiver i =>
    { s with
      world := exec lib s.world i
      events := s.events ++ newEvents s.world (exec lib s.world i) }
  | .consume =>
    match s.events with
    | [] => s
    | e :: es =>
      { s with events := es, acks := s.acks ++ e.ack?.toList, handled := s.handled ++ [e] }
  | .deliver =>
    match s.acks with
    | [] => s
    | n :: ns => { s with world := exec lib s.world (.ack n), acks := ns }

/-- A process has started on a database. -/
def Link.start (o : Options) (db : Undo Tables) : Link Abi :=
  Link.step lib { world := { newWorld with db := db } } (.receiver (.start o))

/-- An input of the running process that is no acknowledgement: those come from the consumer. -/
def Input.InTurn : Input → Prop
  | .start _ | .ack _ => False
  | _ => True

instance : (i : Input) → Decidable i.InTurn
  | .start _ | .ack _ => .isFalse not_false
  | .ready _ | .receive _ _ | .timer _ | .slowdown _ | .stale | .decode _ | .request _
  | .scanner _ => .isTrue trivial

theorem Input.InTurn.noStart {i : Input} (h : i.InTurn) : i.NoStart := by
  cases i with
  | start _ => exact h.elim
  | _ => trivial

/-- The receiver reads the block above its head, or a block that replaces one it has. -/
def Link.Follows (s : Link Abi) : LinkInput → Prop
  | .receiver i => i.InTurn ∧ FollowsHead 0 s.world i
  | _ => True

instance (s : Link Abi) : (i : LinkInput) → Decidable (s.Follows i)
  | .receiver i => inferInstanceAs (Decidable (i.InTurn ∧ FollowsHead 0 s.world i))
  | .consume | .deliver => .isTrue trivial

/-! ## What the consumer sees of an input -/

/-- The events of a process that runs on. -/
inductive Shows (w w' : World Abi) : List Event → Prop
  /-- Nothing but pauses. -/
  | still {es : List Event} (hes : ∀ e ∈ es, e.Still) (hhead : w'.proc.head = w.proc.head)
      (h : SameAcks w.proc w'.proc) : Shows w w' es
  /-- The block above the head. -/
  | next {es rest : List Event} {e : BlockFinished} (hes : ∀ x ∈ es, x.Inside e.blockNum)
      (hrest : ∀ x ∈ rest, x.Still) (hnum : e.blockNum = w.proc.head + 1)
      (hhead : w'.proc.head = e.blockNum) (h : SameAcks w.proc w'.proc) :
    Shows w w' (es ++ .blockCompleted e :: rest)
  /-- A fork, and the first block after it. -/
  | fork {es rest : List Event} {e : BlockFinished} {f : ForkEvent}
      (hreason : f.forkReason = .network) (hfork : f.blockNum = e.blockNum)
      (hes : ∀ x ∈ es, x.Inside e.blockNum) (hrest : ∀ x ∈ rest, x.Still)
      (hpos : 0 < e.blockNum) (hle : e.blockNum ≤ w.proc.head)
      (hhead : w'.proc.head = e.blockNum) (h : ClippedAt e.blockNum w.options w.proc w'.proc) :
    Shows w w' (.fork f :: es ++ .blockCompleted e :: rest)

section Steps

variable {w w₁ w' : World Abi} {block : BlockPosition} {result : GetBlocksResult}

/-- Pauses show nothing. -/
theorem Shows.then_still {es : List Event} (h : Shows w w₁ es) {rest : List Event}
    (hrest : ∀ e ∈ rest, e.Still) (hhead : w'.proc.head = w₁.proc.head)
    (hacks : SameAcks w₁.proc w'.proc) : Shows w w' (es ++ rest) := by
  have hmore : ∀ {l : List Event}, (∀ e ∈ l, e.Still) → ∀ e ∈ l ++ rest, e.Still := by
    intro l hl e he
    rcases List.mem_append.mp he with he | he
    · exact hl e he
    · exact hrest e he
  cases h with
  | still hes hhead₁ h => exact .still (hmore hes) (hhead.trans hhead₁) (h.trans hacks)
  | next hes hrest₁ hnum hhead₁ h =>
      rw [List.append_assoc]
      exact .next hes (hmore hrest₁) hnum (hhead.trans hhead₁) (h.trans hacks)
  | fork hreason hfork hes hrest₁ hpos hle hhead₁ h =>
      rw [List.append_assoc]
      exact .fork hreason hfork hes (hmore hrest₁) hpos hle (hhead.trans hhead₁)
        ⟨hacks.1.trans h.1, hacks.2.trans h.2⟩

theorem Shows.of_counted {es : List Event} (h : Shows w.counted w' es) : Shows w w' es := by
  cases h with
  | still hes hhead h => exact .still hes hhead h
  | next hes hrest hnum hhead h => exact .next hes hrest hnum hhead h
  | fork hreason hfork hes hrest hpos hle hhead h =>
      exact .fork hreason hfork hes hrest hpos hle hhead h

variable {lib} in
/-- What a completed block shows. -/
theorem shows_completed {w₂ : World Abi} (hc : w.proc.Cached)
    (haccept : Accept block result w (.ok () w₁))
    (hprocess : ProcessBlock lib block result w₁ (.ok () w₂))
    (hfollows : block.blockNum = w.proc.head + 1 ∨
      (result.lastIrreversible.blockNum < block.blockNum ∧ block.blockNum ≤ w.proc.head)) :
    ∃ es, published w₂.log = published w.log ++ es ∧ Shows w w₂ es ∧
      w₂.proc.head = block.blockNum := by
  obtain ⟨-, -, hc₁, hat⟩ := haccept.frame hc
  obtain ⟨es, e, hes, hin, hnum, -⟩ := hprocess.publishes
  obtain ⟨hhead, hacks⟩ := sameAcks_of_core (hprocess.frame hc₁).2.1
  have hblock : w₁.proc.head = block.blockNum := congrArg StateObject.head hat
  have hnum' : e.blockNum = block.blockNum := hnum.trans hblock
  have hpub := haccept.publishes
  rw [hes, hpub, List.append_assoc]
  refine ⟨_, rfl, ?_, hhead.trans hblock⟩
  rw [hnum.symm] at hin hhead
  have hnext : ∀ {w₁ : World Abi}, w₁.proc.head = e.blockNum → SameAcks w.proc w₁.proc →
      SameAcks w₁.proc w₂.proc → block.blockNum = w.proc.head + 1 →
      Shows w w₂ (es ++ [.blockCompleted e]) := by
    intro w₁ _ h h' heq
    exact .next hin nofun (hnum'.trans heq) hhead (h.trans h')
  cases haccept with
  | forked hopen hle _ _ =>
      have habove := hopen.above
      have hclip := clippedAt_forked w.options (b := block.blockNum) (by omega) w.proc
      rw [forkEvents, if_pos ⟨habove, hle⟩]
      exact .fork rfl hnum'.symm hin nofun (by omega) (by omega) hhead
        (hnum'.symm ▸ ⟨hacks.1.trans hclip.1, hacks.2.trans hclip.2⟩)
  | extended hopen habove _ =>
      rw [forkEvents, if_neg fun h ↦ absurd h.2 (not_le.mpr habove)]
      exact hnext hnum.symm ⟨rfl, rfl⟩ hacks (by omega)
  | unchecked _ _ hbelow =>
      rw [forkEvents, if_neg fun h ↦ absurd h.1 (not_lt.mpr hbelow)]
      exact hnext hnum.symm ⟨rfl, rfl⟩ hacks (by omega)

/-- A fork is announced with the number of the new head. -/
theorem Shows.fork_mem {es : List Event} (h : Shows w w' es) {f : ForkEvent} (hf : .fork f ∈ es) :
    f.blockNum = w'.proc.head ∧ f.forkReason = .network := by
  have hinside : ∀ {b : Nat} {l : List Event}, (∀ x ∈ l, x.Inside b) → .fork f ∉ l :=
    fun hl hmem ↦ hl _ hmem
  have hstill : ∀ {l : List Event}, (∀ x ∈ l, x.Still) → .fork f ∉ l := fun hl hmem ↦ hl _ hmem
  cases h with
  | still hes _ _ => exact absurd hf (hstill hes)
  | next hes hrest _ _ _ =>
      rcases List.mem_append.mp hf with hf | hf
      · exact absurd hf (hinside hes)
      · rcases List.mem_cons.mp hf with hf | hf
        · cases hf
        · exact absurd hf (hstill hrest)
  | fork hreason hfork hes hrest _ _ hhead _ =>
      rcases List.mem_append.mp hf with hf | hf
      · rcases List.mem_cons.mp hf with hf | hf
        · obtain rfl := Event.fork.inj hf
          exact ⟨hfork.trans hhead.symm, hreason⟩
        · exact absurd hf (hinside hes)
      · rcases List.mem_cons.mp hf with hf | hf
        · cases hf
        · exact absurd hf (hstill hrest)

/-- What is shown of an input with a block in it. -/
structure ShownBy (w : World Abi) (i : Input) (w' : World Abi) (es : List Event) : Prop where
  log : published w'.log = published w.log ++ es
  shows : Shows w w' es
  fork : ∀ f, .fork f ∈ es → ∃ d ∈ delivered w i, d.1.blockNum = f.blockNum

theorem shownBy_still {i : Input} {es : List Event}
    (hlog : published w'.log = published w.log ++ es) (hes : ∀ e ∈ es, e.Still)
    (hacks : w'.proc.head = w.proc.head ∧ SameAcks w.proc w'.proc) : ShownBy w i w' es :=
  ⟨hlog, .still hes hacks.1 hacks.2, fun _ hf ↦ (hes _ hf).elim⟩

/-- A process that still runs has gone on. -/
theorem Next.idle_of_running (h : Next w w') (hrun : Running w') : Idle w w' := by
  cases h with
  | idle h => exact h
  | ended h => exact absurd hrun h.stopped

/-- What a running process shows of an input. -/
theorem exec_shows {i : Input} (hscan : Scanning w) (hturn : i.InTurn)
    (hfollows : FollowsHead 0 w i) (hrun : Running (exec lib w i)) :
    Running w ∧ ∃ es, ShownBy w i (exec lib w i) es := by
  cases hscan.exec_cases lib hturn.noStart.scanInput with
  | idle hidle =>
      obtain ⟨es, hes, hstill⟩ := hidle.toCalm.publishes
      exact ⟨hidle.running hrun, es, shownBy_still hes hstill hidle.acks⟩
  | acked => exact hturn.elim
  | @decoded account _ hw =>
      have hcalm := calm_decoded lib account w
      obtain ⟨es, hes, hstill⟩ := hcalm.publishes
      rw [hw] at hrun ⊢
      exact ⟨hcalm.running hrun, es, shownBy_still hes hstill
        (sameAcks_of_core (w.proc.load_core lib account (w.lookupAbi account)))⟩
  | ended _ hend => exact absurd hrun hend.stopped
  | started => exact hturn.elim
  | @received block result queueSize _ hblock hread hr =>
      have hd := delivered_receive queueSize hblock hread
      refine ⟨running_of_reading hread, ?_⟩
      cases hr with
      | refused _ hstop => exact absurd hrun hstop.stopped
      | broken _ _ hstop => exact absurd hrun hstop.stopped
      | completed haccept hprocess hidle hnext =>
          obtain ⟨es, hes, hshows, hhead⟩ := shows_completed (w := w.counted) hscan.cached haccept
            hprocess ((hfollows _ hd).imp_right fun h ↦ ⟨h.1, h.2.1⟩)
          have hidle' := hidle.trans (hnext.idle_of_running hrun)
          obtain ⟨rest, hrest, hstill⟩ := hidle'.toCalm.publishes
          have hshown := hshows.of_counted.then_still hstill hidle'.acks.1 hidle'.acks.2
          refine ⟨es ++ rest, by rw [hrest, hes, List.append_assoc]; rfl, hshown, fun f hf ↦ ?_⟩
          refine ⟨_, hd, ?_⟩
          rw [(hshown.fork_mem hf).1, hidle'.acks.1, hhead]

end Steps

/-! ## The handshake of a link -/

/-- What a link is as a handshake. -/
def Link.handshake (s : Link Abi) : Handshake :=
  { head := s.world.proc.head, acked := s.world.proc.exporterAckedBlock,
    awaited := s.world.proc.forkedAtBlock,
    underway := s.acks ++ s.events.filterMap Event.ack?,
    lag := if (s.handled ++ s.events).any Event.completes then 1 else 0 }

/-- Events that are not acknowledged and complete no block. -/
theorem silent_of_forall {es : List Event} (h : ∀ e ∈ es, e.ack? = none ∧ e.completes = false) :
    es.filterMap Event.ack? = [] ∧ es.any Event.completes = false :=
  ⟨List.filterMap_eq_nil_iff.mpr fun e he ↦ (h e he).1,
    List.any_eq_false.mpr fun e he ↦ by rw [(h e he).2]; exact Bool.false_ne_true⟩

section Steps

variable {s : Link Abi} {w' : World Abi} {es : List Event}

/-- What events do to the handshake. -/
theorem handshake_of_shows (hwill : s.world.options.exporterWillAck = true)
    (h : Shows s.world w' es) :
    let s' := { s with world := w', events := s.events ++ es }
    s'.handshake = s.handshake ∨ s'.handshake = s.handshake.advance ∨
      ∃ b, 0 < b ∧ b ≤ s.world.proc.head ∧ s'.handshake = s.handshake.rewind b ∧
        ∃ f, .fork f ∈ es ∧ f.blockNum = b := by
  intro s'
  cases h with
  | still hes hhead hacks =>
      obtain ⟨hnone, hany⟩ := silent_of_forall fun e he ↦ (hes e he).silent
      refine .inl ?_
      simp only [s', Link.handshake, hhead, hacks.1, hacks.2, List.filterMap_append, hnone,
        List.append_nil, List.any_append, hany, Bool.or_false]
  | @next es rest e hes hrest hnum hhead hacks =>
      obtain ⟨hnone, hany⟩ := silent_of_forall fun x hx ↦ (hes x hx).silent
      obtain ⟨hnone', -⟩ := silent_of_forall fun x hx ↦ (hrest x hx).silent
      have hack : (Event.blockCompleted e).ack? = some s.world.proc.head := by
        rw [Event.ack?, Uint32.pred_of_pos (by omega), hnum, Nat.add_sub_cancel]
      refine .inr (.inl ?_)
      simp only [s', Link.handshake, Handshake.advance, hhead, hnum, hacks.1, hacks.2,
        List.filterMap_append, List.filterMap_cons, hnone, hnone', hack, List.nil_append,
        List.any_append, List.any_cons, Event.completes, Bool.true_or, Bool.or_true, if_true,
        List.append_assoc]
  | @fork es rest e f _ hfork hes hrest hpos hle hhead hclip =>
      obtain ⟨hnone, hany⟩ := silent_of_forall fun x hx ↦ (hes x hx).silent
      obtain ⟨hnone', -⟩ := silent_of_forall fun x hx ↦ (hrest x hx).silent
      have hpred : Uint32.pred e.blockNum = e.blockNum - 1 := Uint32.pred_of_pos hpos
      have hacked := hclip.1
      rw [hwill, if_pos rfl] at hacked
      refine .inr (.inr ⟨e.blockNum, hpos, hle, ?_, f, List.mem_cons_self, hfork⟩)
      simp only [s', Link.handshake, Handshake.rewind, hhead, hacked, hclip.2,
        List.filterMap_append, List.filterMap_cons, List.cons_append, Event.ack?, hfork, hpred,
        hnone, hnone', List.nil_append, List.any_append, List.any_cons, Event.completes,
        Bool.true_or, Bool.or_true, if_true, List.append_assoc]

/-- What the consumer does to the handshake: nothing. -/
theorem handshake_consume (s : Link Abi) : (s.step lib .consume).handshake = s.handshake := by
  rw [Link.step]
  cases hevents : s.events with
  | nil => rfl
  | cons e es =>
      simp only [Link.handshake, hevents, List.append_assoc, List.cons_append, List.nil_append]
      rw [List.filterMap_cons]
      cases e.ack? <;> rfl

/-- What an acknowledgement does to the receiver. -/
theorem exec_ack {w : World Abi} (hwill : w.options.exporterWillAck = true) (hrun : Running w)
    (n : Nat) : exec lib w (.ack n) = { w with proc := w.proc.ackedBy n } := by
  rw [exec, if_pos hwill, handleAny, if_neg hrun.2, catchAndClose, ackBlock_run]

/-- What an acknowledgement does to the handshake. -/
theorem handshake_deliver (hwill : s.world.options.exporterWillAck = true)
    (hrun : Running s.world) {n : Nat} {ns : List Nat} (hacks : s.acks = n :: ns) :
    (s.step lib .deliver).handshake =
      { s.handshake.answer n with underway := ns ++ s.events.filterMap Event.ack? } := by
  rw [Link.step, hacks]
  simp only [exec_ack lib hwill hrun, Link.handshake, Handshake.answer, Proc.ackedBy]
  split_ifs <;> rfl

/-- An input replaces block `b`. -/
def Link.Rewinds (s : Link Abi) (b : Nat) : LinkInput → Prop
  | .receiver i => b ≤ s.world.proc.head ∧ ∃ d ∈ delivered s.world i, d.1.blockNum = b
  | _ => False

/-- What a step of a link does to its handshake. -/
inductive Link.Moves (s : Link Abi) (i : LinkInput) (s' : Link Abi) : Prop
  | same (h : s'.handshake = s.handshake)
  | advanced (h : s'.handshake = s.handshake.advance)
  | rewound {b : Nat} (hpos : 0 < b) (hi : s.Rewinds b i)
      (h : s'.handshake = s.handshake.rewind b)
  | answered {n : Nat} {ns : List Nat} (hi : i = .deliver) (hacks : s.acks = n :: ns)
      (h : s'.handshake =
        { s.handshake.answer n with underway := ns ++ s.events.filterMap Event.ack? })

/-- The world of a link that has started. -/
structure Link.Linked (o : Options) (s : Link Abi) : Prop where
  options : s.world.options = o
  scanning : Scanning s.world

/-- An input of a link, in scan mode. -/
theorem Link.Linked.step {o : Options} {i : LinkInput} (h : s.Linked o) (hfollows : s.Follows i) :
    (s.step lib i).Linked o := by
  cases i with
  | receiver i =>
      have hscan : ScanInput i := hfollows.1.noStart.scanInput
      refine ⟨(exec_options lib h.scanning hscan).trans ?_, h.scanning.exec lib hscan⟩
      cases i with
      | start o => exact hfollows.1.elim
      | _ => exact h.options
  | consume =>
      rw [Link.step]
      cases s.events <;> exact ⟨h.options, h.scanning⟩
  | deliver =>
      rw [Link.step]
      cases s.acks with
      | nil => exact h
      | cons n ns =>
          have hscan : ScanInput (.ack n) := trivial
          exact ⟨(exec_options lib h.scanning hscan).trans h.options, h.scanning.exec lib hscan⟩

/-- A link whose receiver still runs has made one of the moves. -/
theorem Link.Linked.moves {o : Options} {i : LinkInput} (h : s.Linked o)
    (hwill : o.exporterWillAck = true) (hfollows : s.Follows i)
    (hrun : Running (s.step lib i).world) : Running s.world ∧ s.Moves i (s.step lib i) := by
  have hwill : s.world.options.exporterWillAck = true := h.options ▸ hwill
  cases i with
  | receiver i =>
      obtain ⟨hrun₀, es, hlog, hshows, hfork⟩ :=
        exec_shows lib h.scanning hfollows.1 hfollows.2 hrun
      have hstep : s.step lib (.receiver i) =
          { s with world := exec lib s.world i, events := s.events ++ es } := by
        rw [Link.step, newEvents_eq hlog]
      refine ⟨hrun₀, ?_⟩
      rw [hstep]
      rcases handshake_of_shows hwill hshows with hsame | hadv | ⟨b, hpos, hle, hrew, f, hf, hb⟩
      · exact .same hsame
      · exact .advanced hadv
      · obtain ⟨d, hd, hdb⟩ := hfork f hf
        exact .rewound hpos ⟨hle, d, hd, hdb.trans hb⟩ hrew
  | consume =>
      have hworld : (s.step lib .consume).world = s.world := by
        rw [Link.step]
        cases s.events <;> rfl
      exact ⟨hworld ▸ hrun, .same (handshake_consume lib s)⟩
  | deliver =>
      cases hacks : s.acks with
      | nil =>
          have hstep : s.step lib .deliver = s := by rw [Link.step, hacks]
          rw [hstep] at hrun ⊢
          exact ⟨hrun, .same rfl⟩
      | cons n ns =>
          have hworld : (s.step lib .deliver).world = exec lib s.world (.ack n) := by
            rw [Link.step, hacks]
          have hrun₀ : Running s.world := by
            have hexec := h.scanning.exec_cases lib (i := .ack n) trivial
            rw [← hworld] at hexec
            cases hexec with
            | idle hidle => exact hidle.running hrun
            | acked _ hw => exact (calm_ackedBy n s.world).running (hw ▸ hrun)
            | ended _ hend => exact absurd hrun hend.stopped
          exact ⟨hrun₀, .answered rfl hacks (handshake_deliver lib hwill hrun₀ hacks)⟩

end Steps

/-! ## The start -/

section Start

variable {o : Options} {db : Undo Tables}

theorem Link.linked_start (hscan : o.interactiveMode = false) (db : Undo Tables) :
    (Link.start lib o db).Linked o := by
  have hnew : Scanning (newWorld : World Abi) := scanning_newWorld
  have h₀ : Scanning ({ newWorld with db := db } : World Abi) := ⟨hnew.mode, hnew.cached⟩
  exact ⟨exec_options lib (i := .start o) h₀ hscan, h₀.exec lib (i := .start o) hscan⟩

/-- A process that runs after its start has loaded its state. -/
theorem Link.loaded_start (hscan : o.interactiveMode = false)
    (hrun : Running (Link.start lib o db).world) :
    Loaded o { newWorld with db := db } (Link.start lib o db).world ∧
      (Link.start lib o db).events = published (startForks o db : List (Observation Abi)) := by
  cases start_cases lib hscan ({ newWorld with db := db } : World Abi) with
  | loaded h =>
      refine ⟨h, newEvents_eq ?_⟩
      rw [h.log, published_append]
  | rejected h => exact absurd hrun h.stopped

/-- The fork above the head is awaited if it was announced. -/
theorem Link.forked_start (hscan : o.interactiveMode = false)
    (hrun : Running (Link.start lib o db).world) :
    (Link.start lib o db).world.proc.forkedAtBlock =
      if (Link.start lib o db).events = [] then 0
      else (Link.start lib o db).world.proc.head + 1 := by
  obtain ⟨hloaded, hevents⟩ := Link.loaded_start lib hscan hrun
  rw [hloaded.forked, hevents]
  by_cases hforked : db.undoAll.current.state = none ∨ 0 < db.stack.length
  · have hne : published (startForks o db : List (Observation Abi)) ≠ [] := by
      intro hnil
      obtain ⟨hstate, hstack⟩ := (published_startForks Abi o db).2 hnil
      rcases hforked with h | h
      · exact hstate h
      · rw [hstack] at h
        cases h
    rw [if_neg hne]
    exact if_pos hforked
  · have hnil : published (startForks o db : List (Observation Abi)) = [] := by
      push Not at hforked
      rw [startForks, if_neg hforked.1, if_neg (by simpa using hforked.2)]
      rfl
    rw [if_pos hnil]
    exact if_neg hforked

/-- The head counts as acknowledged at the start. -/
theorem inStep_start (hscan : o.interactiveMode = false) (hwill : o.exporterWillAck = true)
    (hrun : Running (Link.start lib o db).world) : (Link.start lib o db).handshake.InStep := by
  obtain ⟨hloaded, hevents⟩ := Link.loaded_start lib hscan hrun
  set s := Link.start lib o db with hs
  have hhead : s.world.proc.head = (startPosition o db.undoAll.current).head :=
    congrArg StateObject.head hloaded.position
  have hforks := (published_startForks Abi o db).1
  have hforked := Link.forked_start lib hscan hrun
  rw [← hs] at hforked
  rw [← hevents] at hforks
  have hacks : ∀ n ∈ s.events.filterMap Event.ack?, n = s.world.proc.head := by
    intro n hn
    obtain ⟨e, he, hn⟩ := List.mem_filterMap.mp hn
    obtain ⟨f, rfl, hf⟩ := hforks e he
    rw [Event.ack?, hf, Uint32.pred_of_pos (by omega), Nat.add_sub_cancel] at hn
    exact (Option.some.inj hn).symm.trans hhead.symm
  have hlag : s.handshake.lag = 0 := by
    have hany : s.events.any Event.completes = false := by
      refine List.any_eq_false.mpr fun e he ↦ ?_
      obtain ⟨f, rfl, -⟩ := hforks e he
      exact Bool.false_ne_true
    change (if ([] ++ s.events).any Event.completes then 1 else 0) = 0
    rw [List.nil_append, hany]
    rfl
  have hacked : s.handshake.acked = s.world.proc.head := by
    have h := hloaded.acked
    rwa [hwill, if_pos rfl] at h
  have hunderway : s.handshake.underway = s.events.filterMap Event.ack? := rfl
  cases he : s.events.filterMap Event.ack? with
  | nil =>
      have hnil : s.events = [] := by
        refine List.eq_nil_iff_forall_not_mem.mpr fun e hmem ↦ ?_
        obtain ⟨f, rfl, -⟩ := hforks e hmem
        exact absurd (List.filterMap_eq_nil_iff.mp he _ hmem) nofun
      refine .settled (hforked.trans (if_pos hnil)) ?_
      rw [hlag, hacked, hunderway, he]
      exact ⟨rfl, Nat.zero_le 1⟩
  | cons n ns =>
      rw [he] at hacks
      obtain rfl := hacks n List.mem_cons_self
      refine @Handshake.InStep.coming _ [] ns s.world.proc.head (hunderway.trans he) ?_ ?_
        nofun hacked.le
      · refine hforked.trans (if_neg fun hnil ↦ ?_)
        rw [hnil] at he
        cases he
      · rw [hlag]
        exact Handshake.Climbs.const fun k hk ↦ hacks k (List.mem_cons_of_mem _ hk)

end Start

end Chronicle
