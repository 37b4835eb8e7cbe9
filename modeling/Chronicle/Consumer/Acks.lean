import Chronicle.Consumer.Link

/-!
# Acknowledgements and forks

An acknowledgement says nothing about the fork it belongs to.  One for the block below a fork
that was sent before the fork was announced is taken for the answer to the announcement
(`stale_ack_credited`).  If a block is only replaced when no acknowledgement of the block below
it is underway, then acknowledgements are credited as they should be.
-/

namespace Chronicle

open Store Effect

variable {Abi : Type} (lib : Abieos Abi)

/-! ## The chain of the consumer -/

/-- The highest block that the consumer has after an event. -/
def Event.reached (h : Nat) : Event → Nat
  | .blockCompleted e => e.blockNum
  | .fork e => min h (e.blockNum - 1)
  | _ => h

/-- The highest block that a fork leaves of those up to `h`. -/
def Event.left (h : Nat) : Event → Nat
  | .fork e => min h (e.blockNum - 1)
  | _ => h

/-- The highest block that the consumer has.  What the receiver started with counts as
handled. -/
def Link.consumed (first : Nat) (s : Link Abi) : Nat := s.handled.foldl Event.reached first

/-- The highest block of the chain of the receiver that the consumer has: forks that it has not
handled yet go below what it has. -/
def Link.shared (first : Nat) (s : Link Abi) : Nat := s.events.foldl Event.left (s.consumed first)

/-- An event continues a chain that ends in block `h`. -/
def Event.Continues (h : Nat) : Event → Prop
  | .blockCompleted e => e.blockNum = h + 1
  | .fork e => 0 < e.blockNum ∧ e.blockNum ≤ h + 1
  | _ => True

/-- Events that lead from block `h` to block `h'`. -/
def Leads (h' : Nat) : Nat → List Event → Prop
  | h, [] => h = h'
  | h, e :: es => e.Continues h ∧ Leads h' (e.reached h) es

theorem Leads.append {h h' h'' : Nat} {es es' : List Event} (hes : Leads h' h es)
    (hes' : Leads h'' h' es') : Leads h'' h (es ++ es') := by
  induction es generalizing h with
  | nil =>
      obtain rfl : h = h' := hes
      exact hes'
  | cons e es ih => exact ⟨hes.1, ih hes.2⟩

theorem leads_silent {h : Nat} {es : List Event} (hes : ∀ e ∈ es, e.ack? = none) :
    Leads h h es := by
  induction es with
  | nil => rfl
  | cons e es ih =>
      have he := hes e List.mem_cons_self
      have hrest := ih fun x hx ↦ hes x (List.mem_cons_of_mem _ hx)
      cases e with
      | fork _ | blockCompleted _ => cases he
      | _ => exact ⟨trivial, hrest⟩

theorem Leads.fork_pos {h h' : Nat} {es : List Event} (hes : Leads h' h es) {f : ForkEvent}
    (hf : .fork f ∈ es) : 0 < f.blockNum := by
  induction es generalizing h with
  | nil => cases hf
  | cons e es ih =>
      rcases List.mem_cons.mp hf with rfl | hf
      · exact hes.1.1
      · exact ih hes.2 hf

/-- What the consumer acknowledges it has. -/
theorem Event.Continues.ack_le {h k : Nat} {e : Event} (he : e.Continues h) (hk : e.ack? = some k) :
    k ≤ e.reached h := by
  cases e with
  | fork f =>
      obtain ⟨hpos, hle⟩ := he
      rw [ack?, Uint32.pred_of_pos hpos] at hk
      have hk := Option.some.inj hk
      rw [reached]
      omega
  | blockCompleted b =>
      have he : b.blockNum = h + 1 := he
      rw [ack?, Uint32.pred_of_pos (by omega)] at hk
      have hk := Option.some.inj hk
      rw [reached]
      omega
  | _ => cases hk

/-- What an event shows leads from the old head to the new one. -/
theorem Shows.leads {w w' : World Abi} {es : List Event} (h : Shows w w' es) :
    Leads w'.proc.head w.proc.head es := by
  cases h with
  | still hes hhead _ =>
      rw [hhead]
      exact leads_silent fun e he ↦ (hes e he).silent.1
  | next hes hrest hnum hhead _ =>
      refine (leads_silent fun e he ↦ (hes e he).silent.1).append ⟨hnum, ?_⟩
      rw [hhead]
      exact leads_silent fun e he ↦ (hrest e he).silent.1
  | @fork es rest e f _ hfork hes hrest hpos hle hhead _ =>
      have hbelow : min w.proc.head (f.blockNum - 1) + 1 = e.blockNum := by omega
      refine ⟨⟨by omega, by omega⟩, ?_⟩
      refine (leads_silent fun x hx ↦ (hes x hx).silent.1).append ⟨hbelow.symm, ?_⟩
      rw [hhead]
      exact leads_silent fun x hx ↦ (hrest x hx).silent.1

/-! ## The announced fork -/

/-- A fork that was found in the stream. -/
def Event.Network : Event → Prop
  | .fork f => f.forkReason = .network
  | _ => False

/-- Where the announcement of the fork is whose answer the receiver waits for. -/
inductive Link.Announced (s : Link Abi) : Prop
  /-- Nothing is awaited, and no fork is on its way. -/
  | answered (hawaited : s.world.proc.forkedAtBlock = 0) (hnone : ∀ e ∈ s.events, ¬ e.Network)
  /-- The consumer has handled it. -/
  | handled {f : ForkEvent} (hawaited : s.world.proc.forkedAtBlock = f.blockNum)
      (hf : .fork f ∈ s.handled) (hnone : ∀ e ∈ s.events, ¬ e.Network)
  /-- It is on its way, and no acknowledgement before it could be taken for its answer. -/
  | queued {es es' : List Event} {f : ForkEvent} (hevents : s.events = es ++ .fork f :: es')
      (hawaited : s.world.proc.forkedAtBlock = f.blockNum) (hpos : 0 < f.blockNum)
      (hnone : ∀ e ∈ es', ¬ e.Network)
      (hacks : f.blockNum - 1 ∉ s.acks ++ es.filterMap Event.ack?)

/-- Acknowledgements are credited as they should be. -/
structure Link.Credited (first : Nat) (s : Link Abi) : Prop where
  inStep : s.handshake.InStep
  leads : Leads s.world.proc.head (s.consumed first) s.events
  acked : s.world.proc.exporterAckedBlock ≤ s.consumed first
  last : ∀ k ∈ s.acks.getLast?, k ≤ s.consumed first
  announced : s.Announced

/-- A block is replaced only when no acknowledgement of the block below it is underway. -/
def Link.Prompt (s : Link Abi) : LinkInput → Prop
  | .receiver i => ∀ d ∈ delivered s.world i, d.1.blockNum ≤ s.world.proc.head →
      d.1.blockNum - 1 ∉ s.handshake.underway
  | _ => True

instance (s : Link Abi) : (i : LinkInput) → Decidable (s.Prompt i)
  | .receiver i => inferInstanceAs (Decidable (∀ d ∈ delivered s.world i,
      d.1.blockNum ≤ s.world.proc.head → d.1.blockNum - 1 ∉ s.handshake.underway))
  | .consume | .deliver => .isTrue trivial

section Steps

variable {s : Link Abi} {o : Options} {first : Nat}

/-- What is shown without a network fork does not touch the announced fork. -/
theorem Link.Announced.shows {w' : World Abi} {es : List Event} (h : s.Announced)
    (hforked : w'.proc.forkedAtBlock = s.world.proc.forkedAtBlock)
    (hes : ∀ e ∈ es, ¬ e.Network) :
    Link.Announced { s with world := w', events := s.events ++ es } := by
  have hnone : ∀ {l : List Event}, (∀ e ∈ l, ¬ e.Network) → ∀ e ∈ l ++ es, ¬ e.Network := by
    intro l hl e he
    rcases List.mem_append.mp he with he | he
    · exact hl e he
    · exact hes e he
  cases h with
  | answered hawaited hno => exact .answered (hforked.trans hawaited) (hnone hno)
  | handled hawaited hf hno => exact .handled (hforked.trans hawaited) hf (hnone hno)
  | @queued l l' f hevents hawaited hpos hno hacks =>
      refine @queued _ _ l (l' ++ es) f ?_ (hforked.trans hawaited) hpos (hnone hno) hacks
      change s.events ++ es = _
      rw [hevents, List.append_assoc]
      rfl

/-- A block that is received. -/
theorem Link.Credited.receiver {i : Input} (h : s.Credited first) (hlinked : s.Linked o)
    (hwill : o.exporterWillAck = true) (hprompt : s.Prompt (.receiver i)) {es : List Event}
    (hshown : ShownBy s.world i (exec lib s.world i) es) :
    Link.Credited first { s with world := exec lib s.world i, events := s.events ++ es } := by
  have hwill : s.world.options.exporterWillAck = true := hlinked.options ▸ hwill
  have hleads := h.leads.append hshown.shows.leads
  have hquiet : ∀ {b : Nat} {l rest : List Event} {e : BlockFinished},
      (∀ x ∈ l, x.Inside b) → (∀ x ∈ rest, x.Still) →
      ∀ x ∈ l ++ .blockCompleted e :: rest, ¬ x.Network := by
    intro b l rest e hl hrest x hx hnet
    cases x with
    | fork f =>
        rcases List.mem_append.mp hx with hx | hx
        · exact hl _ hx
        · rcases List.mem_cons.mp hx with hx | hx
          · cases hx
          · exact hrest _ hx
    | _ => exact hnet
  have hstep : Handshake.InStep (Link.handshake
      { s with world := exec lib s.world i, events := s.events ++ es }) := by
    rcases handshake_of_shows hwill hshown.shows with hs | hs | ⟨b, hpos, hle, hs, f, hf, hb⟩
    · exact hs ▸ h.inStep
    · exact hs ▸ h.inStep.advance
    · obtain ⟨d, hd, hdb⟩ := hshown.fork f hf
      have hnone := hprompt d hd (by omega)
      rw [hdb, hb] at hnone
      exact hs ▸ h.inStep.rewind hpos hle hnone
  have hsame : SameAcks s.world.proc (exec lib s.world i).proc → (∀ e ∈ es, ¬ e.Network) →
      Link.Credited first { s with world := exec lib s.world i, events := s.events ++ es } :=
    fun hacks hes ↦
      ⟨hstep, hleads, hacks.1 ▸ h.acked, h.last, h.announced.shows hacks.2 hes⟩
  have hshows := hshown.shows
  cases hshows with
  | still hes _ hacks =>
      refine hsame hacks fun e he hnet ↦ ?_
      cases e with
      | receiverPause _ => exact hnet
      | _ => exact hes _ he
  | next hes hrest _ _ hacks => exact hsame hacks (hquiet hes hrest)
  | @fork l rest e f _ hfork hes hrest hpos hle hhead hclip =>
      have hacked : (exec lib s.world i).proc.exporterAckedBlock ≤
        s.world.proc.exporterAckedBlock := by
        rw [hclip.1, hwill, if_pos rfl]
        exact min_le_left _ _
      refine ⟨hstep, hleads, hacked.trans h.acked, h.last, ?_⟩
      refine @Link.Announced.queued _ _ s.events (l ++ .blockCompleted e :: rest) f rfl
        (hclip.2.trans hfork.symm) (by omega) (hquiet hes hrest) ?_
      obtain ⟨d, hd, hdb⟩ := hshown.fork f List.mem_cons_self
      have hnone := hprompt d hd (by omega)
      rwa [hdb] at hnone

/-- The announced fork after the consumer has handled an event. -/
theorem Link.Announced.consume {e : Event} {es : List Event} (h : s.Announced)
    (hevents : s.events = e :: es) :
    Link.Announced
      { s with events := es, acks := s.acks ++ e.ack?.toList, handled := s.handled ++ [e] } := by
  have htail : (∀ x ∈ s.events, ¬ x.Network) → ∀ x ∈ es, ¬ x.Network :=
    fun hno x hx ↦ hno x (by rw [hevents]; exact List.mem_cons_of_mem _ hx)
  cases h with
  | answered hawaited hno => exact .answered hawaited (htail hno)
  | handled hawaited hf hno => exact .handled hawaited (List.mem_append_left _ hf) (htail hno)
  | @queued l l' f hqueue hawaited hpos hno hacks =>
      rw [hevents] at hqueue
      cases l with
      | nil =>
          obtain ⟨rfl, rfl⟩ := List.cons.inj hqueue
          exact .handled hawaited (List.mem_append_right _ (List.mem_singleton.mpr rfl)) hno
      | cons x l =>
          obtain ⟨rfl, rfl⟩ := List.cons.inj hqueue
          refine @queued _ _ l _ _ rfl hawaited hpos hno ?_
          rw [List.filterMap_cons] at hacks
          cases hack : e.ack? with
          | none =>
              rw [hack] at hacks
              simpa using hacks
          | some k =>
              rw [hack] at hacks
              simpa using hacks

/-- The consumer handles an event. -/
theorem Link.Credited.consume (h : s.Credited first) :
    (s.step lib .consume).Credited first := by
  have hhandshake := handshake_consume lib s
  cases hevents : s.events with
  | nil =>
      have hstep : s.step lib .consume = s := by rw [Link.step, hevents]
      rw [hstep]
      exact h
  | cons e es =>
      have hstep : s.step lib .consume =
          { s with
            events := es
            acks := s.acks ++ e.ack?.toList
            handled := s.handled ++ [e] } := by
        rw [Link.step, hevents]
      have hleads := h.leads
      rw [hevents] at hleads
      obtain ⟨hcont, hleads⟩ := hleads
      have hconsumed : (s.step lib .consume).consumed first = e.reached (s.consumed first) := by
        rw [hstep, Link.consumed, List.foldl_append]
        rfl
      have hunderway : ∀ {k : Nat}, e.ack? = some k → k ∈ s.handshake.underway := by
        intro k hk
        refine List.mem_append_right _ ?_
        rw [hevents, List.filterMap_cons_some hk]
        exact List.mem_cons_self
      have hkeeps : e.ack? = none → e.reached (s.consumed first) = s.consumed first := by
        intro hnone
        cases e with
        | fork _ | blockCompleted _ => cases hnone
        | _ => rfl
      refine ⟨hhandshake ▸ h.inStep, ?_, ?_, ?_, ?_⟩
      · rw [hconsumed, hstep]
        exact hleads
      · rw [hconsumed]
        have hacked : (s.step lib .consume).world = s.world := by rw [hstep]
        rw [hacked]
        cases hack : e.ack? with
        | none =>
            rw [hkeeps hack]
            exact h.acked
        | some k => exact (h.inStep.acked_le (hunderway hack)).trans (hcont.ack_le hack)
      · rw [hconsumed, hstep]
        intro k hk
        cases hack : e.ack? with
        | none =>
            simp only [hack, Option.toList_none, List.append_nil] at hk
            rw [hkeeps hack]
            exact h.last k hk
        | some n =>
            simp only [hack, Option.toList_some, List.getLast?_append, List.getLast?_singleton,
              Option.some_or] at hk
            obtain rfl : n = k := Option.some.inj hk
            exact hcont.ack_le hack
      · rw [hstep]
        exact h.announced.consume hevents

/-- What the arrival of an acknowledgement means. -/
structure Link.Answers (s s' : Link Abi) : Prop where
  /-- The receiver is not told to abort. -/
  accepted : s'.world.proc.aborting = s.world.proc.aborting
  /-- What was awaited is answered only when the consumer has handled the fork. -/
  answered : 0 < s.world.proc.forkedAtBlock → s'.world.proc.forkedAtBlock = 0 →
    (∃ f, .fork f ∈ s.handled ∧ f.blockNum = s.world.proc.forkedAtBlock) ∧
      ∀ e ∈ s.events, ¬ e.Network

/-- The announced fork after an acknowledgement has arrived. -/
theorem Link.Announced.deliver {n : Nat} {ns : List Nat} {w' : World Abi} (h : s.Announced)
    (hacks : s.acks = n :: ns)
    (hforked : w'.proc.forkedAtBlock = s.world.proc.forkedAtBlock ∨
      w'.proc.forkedAtBlock = 0 ∧ s.world.proc.forkedAtBlock ≤ n + 1 ∧
        (s.world.proc.forkedAtBlock = 0 ∨ s.world.proc.forkedAtBlock = n + 1)) :
    Link.Announced { s with world := w', acks := ns } ∧
      (0 < s.world.proc.forkedAtBlock → w'.proc.forkedAtBlock = 0 →
        (∃ f, .fork f ∈ s.handled ∧ f.blockNum = s.world.proc.forkedAtBlock) ∧
          ∀ e ∈ s.events, ¬ e.Network) := by
  cases h with
  | answered hawaited hno =>
      refine ⟨.answered ?_ hno, fun hpos ↦ by omega⟩
      rcases hforked with hsame | ⟨hzero, -⟩
      · exact hsame.trans hawaited
      · exact hzero
  | @handled f hawaited hf hno =>
      refine ⟨?_, fun _ _ ↦ ⟨⟨f, hf, hawaited.symm⟩, hno⟩⟩
      rcases hforked with hsame | ⟨hzero, -⟩
      · exact .handled (hsame.trans hawaited) hf hno
      · exact .answered hzero hno
  | @queued l l' f hqueue hawaited hpos hno hnone =>
      rw [hacks] at hnone
      have hne : n ≠ f.blockNum - 1 := fun hn ↦ hnone (hn ▸ List.mem_cons_self)
      rcases hforked with hsame | ⟨-, -, hzero⟩
      · refine ⟨.queued hqueue (hsame.trans hawaited) hpos hno fun hmem ↦ hnone ?_,
          fun _ hz ↦ by omega⟩
        exact List.mem_cons_of_mem _ hmem
      · omega

/-- An acknowledgement arrives. -/
theorem Link.Credited.deliver (h : s.Credited first) (hlinked : s.Linked o)
    (hwill : o.exporterWillAck = true) (hrun : Running s.world) {n : Nat} {ns : List Nat}
    (hacks : s.acks = n :: ns) :
    (s.step lib .deliver).Credited first ∧ Link.Answers s (s.step lib .deliver) := by
  have hwill : s.world.options.exporterWillAck = true := hlinked.options ▸ hwill
  have hhandshake := handshake_deliver lib hwill hrun hacks
  have hunderway : s.handshake.underway = n :: (ns ++ s.events.filterMap Event.ack?) := by
    rw [Link.handshake, hacks]
    rfl
  have hstep : s.step lib .deliver =
      { s with world := { s.world with proc := s.world.proc.ackedBy n }, acks := ns } := by
    rw [Link.step, hacks]
    simp only [exec_ack lib hwill hrun]
  obtain ⟨hinStep, hanswer⟩ := h.inStep.answer hunderway
  rw [← hhandshake] at hinStep
  rw [hstep] at hhandshake hinStep ⊢
  have hawaited : (s.world.proc.ackedBy n).forkedAtBlock = (s.handshake.answer n).awaited :=
    congrArg Handshake.awaited hhandshake
  have hacked : (s.world.proc.ackedBy n).exporterAckedBlock = (s.handshake.answer n).acked :=
    congrArg Handshake.acked hhandshake
  have hlast : ∀ k ∈ ns.getLast?, k ≤ s.consumed first := by
    intro k hk
    refine h.last k ?_
    rw [hacks, List.getLast?_cons, hk]
    rfl
  have hlow : s.handshake.awaited = 0 ∨ s.handshake.awaited = n + 1 → n ≤ s.consumed first := by
    intro htaken
    cases hl : ns.getLast? with
    | none =>
        refine h.last n ?_
        rw [hacks, List.getLast?_cons, hl]
        rfl
    | some k =>
        have hk : k ∈ ns := List.mem_of_getLast? hl
        exact (h.inStep.le_of_taken hunderway htaken (List.mem_append_left _ hk)).trans (hlast k hl)
  have hforked : (s.world.proc.ackedBy n).forkedAtBlock = s.world.proc.forkedAtBlock ∨
      (s.world.proc.ackedBy n).forkedAtBlock = 0 ∧ s.world.proc.forkedAtBlock ≤ n + 1 ∧
        (s.world.proc.forkedAtBlock = 0 ∨ s.world.proc.forkedAtBlock = n + 1) := by
    rcases hanswer with ⟨heq, htaken⟩ | ⟨heq, -, -⟩
    · have htaken : s.world.proc.forkedAtBlock = 0 ∨ s.world.proc.forkedAtBlock = n + 1 := htaken
      exact .inr ⟨hawaited.trans (by rw [heq]), by omega, htaken⟩
    · exact .inl (hawaited.trans (by rw [heq]; rfl))
  obtain ⟨hannounced, hanswered⟩ := @Link.Announced.deliver _ s n ns
    { s.world with proc := s.world.proc.ackedBy n } h.announced hacks hforked
  refine ⟨⟨hinStep, ?_, ?_, hlast, hannounced⟩, ?_, hanswered⟩
  · have hhead : (s.world.proc.ackedBy n).head = s.world.proc.head :=
      congrArg StateObject.head (s.world.proc.ackedBy_position n)
    exact hhead ▸ h.leads
  · refine hacked.trans_le ?_
    rcases hanswer with ⟨heq, htaken⟩ | ⟨heq, -, -⟩
    · rw [heq]
      exact hlow htaken
    · rw [heq]
      exact h.acked
  · have haccepts : s.world.proc.forkedAtBlock = 0 → s.world.proc.exporterAckedBlock ≤ n :=
      h.inStep.accepts hunderway
    simp only [Proc.ackedBy]
    split_ifs with hpos hlt heq hlower
    · rfl
    · rfl
    · rfl
    · exact absurd (haccepts (by omega)) (not_le.mpr hlower)
    · rfl

/-- One step of a link. -/
theorem Link.Credited.step {i : LinkInput} (h : Running s.world → s.Credited first)
    (hlinked : s.Linked o) (hwill : o.exporterWillAck = true) (hfollows : s.Follows i)
    (hprompt : s.Prompt i) (hrun : Running (s.step lib i).world) :
    (s.step lib i).Credited first := by
  obtain ⟨hrun₀, -⟩ := hlinked.moves lib hwill hfollows hrun
  have h := h hrun₀
  cases i with
  | receiver i =>
      obtain ⟨-, es, hshown⟩ := exec_shows lib hlinked.scanning hfollows.1 hfollows.2 hrun
      rw [Link.step, newEvents_eq hshown.log]
      exact h.receiver lib hlinked hwill hprompt hshown
  | consume => exact h.consume lib
  | deliver =>
      cases hacks : s.acks with
      | nil =>
          have hstep : s.step lib .deliver = s := by rw [Link.step, hacks]
          rw [hstep]
          exact h
      | cons n ns => exact (h.deliver lib hlinked hwill hrun₀ hacks).1

end Steps

/-! ## Runs -/

/-- No fork of the stream is announced at the start. -/
theorem startForks_not_network {Abi : Type} {o : Options} {db : Undo Tables} {e : Event}
    (h : e ∈ published (startForks o db : List (Observation Abi))) : ¬ e.Network := by
  rw [startForks, published_append] at h
  rcases List.mem_append.mp h with h | h
  all_goals
    split_ifs at h
    · rw [List.mem_singleton.mp h]
      intro hnetwork
      cases hnetwork
    · cases h

theorem Link.credited_start {o : Options} (hscan : o.interactiveMode = false)
    (hwill : o.exporterWillAck = true) {db : Undo Tables}
    (hrun : Running (Link.start lib o db).world) :
    (Link.start lib o db).Credited (Link.start lib o db).world.proc.head := by
  have hinStep := inStep_start lib hscan hwill hrun
  obtain ⟨hloaded, hevents⟩ := Link.loaded_start lib hscan hrun
  obtain ⟨hforks, hempty⟩ := published_startForks Abi o db
  have hhead : (Link.start lib o db).world.proc.head = (startPosition o db.undoAll.current).head :=
    congrArg StateObject.head hloaded.position
  have hacked := hloaded.acked
  rw [hwill, if_pos rfl] at hacked
  rw [← hhead] at hforks
  set first := (Link.start lib o db).world.proc.head with hfirst
  have hleads : ∀ es : List Event, (∀ e ∈ es, ∃ f : ForkEvent, e = .fork f ∧
      f.blockNum = first + 1) → Leads first first es := by
    intro es
    induction es with
    | nil => exact fun _ ↦ rfl
    | cons e es ih =>
        intro hes
        obtain ⟨f, rfl, hf⟩ := hes e List.mem_cons_self
        have hreached : (Event.fork f).reached first = first := by
          rw [Event.reached, hf, Nat.add_sub_cancel, min_self]
        refine ⟨⟨by omega, hf.le⟩, ?_⟩
        rw [hreached]
        exact ih fun x hx ↦ hes x (List.mem_cons_of_mem _ hx)
  refine ⟨hinStep, hleads _ (hevents ▸ hforks), hacked.le, nofun, ?_⟩
  have hforked := hloaded.forked
  cases hes : (Link.start lib o db).events with
  | nil =>
      obtain ⟨hstate, hstack⟩ := hempty (hevents.symm.trans hes)
      refine .answered (hforked.trans (if_neg ?_)) (by rw [hes]; nofun)
      rintro (h | h)
      · exact hstate h
      · rw [hstack] at h
        cases h
  | cons e es =>
      have hmem : ∀ x ∈ e :: es, x ∈ published (startForks o db : List (Observation Abi)) :=
        fun x hx ↦ by rwa [← hevents, hes]
      obtain ⟨f, rfl, hf⟩ := hforks e (hmem e List.mem_cons_self)
      refine @Link.Announced.queued _ _ [] es f hes ?_ (by omega)
        (fun x hx ↦ startForks_not_network (hmem x (List.mem_cons_of_mem _ hx)))
        (by simp [Link.start, Link.step])
      rw [hf]
      refine hforked.trans (if_pos ?_)
      by_contra hno
      push Not at hno
      have hnil : published (startForks o db : List (Observation Abi)) = [] := by
        rw [startForks, if_neg hno.1, if_neg (by simpa using hno.2)]
        rfl
      rw [hevents, hnil] at hes
      cases hes

/-- What was acknowledged is not above what the consumer has of the chain of the receiver. -/
theorem Link.Credited.acked_le_shared {s : Link Abi} {first : Nat} (h : s.Credited first) :
    s.world.proc.exporterAckedBlock ≤ s.shared first := by
  have hle : ∀ (es : List Event) (k : Nat), s.world.proc.exporterAckedBlock ≤ k →
      (∀ f, .fork f ∈ es → s.world.proc.exporterAckedBlock ≤ f.blockNum - 1) →
      s.world.proc.exporterAckedBlock ≤ es.foldl Event.left k := by
    intro es
    induction es with
    | nil => exact fun k hk _ ↦ hk
    | cons e es ih =>
        intro k hk hes
        refine ih _ ?_ fun f hf ↦ hes f (List.mem_cons_of_mem _ hf)
        cases e with
        | fork f => exact le_min hk (hes f List.mem_cons_self)
        | _ => exact hk
  refine hle s.events _ h.acked fun f hf ↦ h.inStep.acked_le ?_
  refine List.mem_append_right _ (List.mem_filterMap.mpr ⟨_, hf, ?_⟩)
  rw [Event.ack?, Uint32.pred_of_pos (h.leads.fork_pos hf)]

/-- **If a block is only replaced when no acknowledgement of the block below it is underway, no
acknowledgement is credited to the wrong fork.** -/
theorem acks_credited (o : Options) (hwill : o.exporterWillAck = true) (db : Undo Tables)
    (inputs : List LinkInput)
    (hrun : Run.Guarded (Link.step lib) (fun s i ↦ s.Follows i ∧ s.Prompt i)
      (Link.start lib o db) inputs) :
    let s := inputs.foldl (Link.step lib) (Link.start lib o db)
    Running s.world →
      Link.Answers s (s.step lib .deliver) ∧
        s.world.proc.exporterAckedBlock ≤ s.shared (Link.start lib o db).world.proc.head := by
  intro s hrunning
  have hscan := (o.ack_scan hwill).1
  have hinv : s.Linked o ∧
      (Running s.world → s.Credited (Link.start lib o db).world.proc.head) :=
    hrun.invariant (I := fun s ↦ s.Linked o ∧
        (Running s.world → s.Credited (Link.start lib o db).world.proc.head))
      (fun s i hs hg ↦ ⟨hs.1.step lib hg.1, Link.Credited.step lib hs.2 hs.1 hwill hg.1 hg.2⟩)
      ⟨Link.linked_start lib hscan db, Link.credited_start lib hscan hwill⟩
  have hcredited := hinv.2 hrunning
  refine ⟨?_, hcredited.acked_le_shared⟩
  cases hacks : s.acks with
  | nil =>
      have hstep : s.step lib .deliver = s := by rw [Link.step, hacks]
      rw [hstep]
      exact ⟨rfl, fun hpos hzero ↦ by omega⟩
  | cons n ns => exact (hcredited.deliver lib hinv.1 hwill hrunning hacks).2

/-- Three blocks; the consumer has handled the first one. -/
def threeBlocks : List LinkInput :=
  [.consume, .deliver, .receiver (.ready 0), .receiver (.result (bareResult ⟨1, 1⟩ 0 0)), .consume,
    .receiver (.result (bareResult ⟨2, 2⟩ 1 0)), .receiver (.result (bareResult ⟨3, 3⟩ 2 0))]

/-- The last block is replaced when the second one was acknowledged. -/
def promptFork : List LinkInput :=
  threeBlocks ++ [.consume, .consume, .deliver, .deliver, .deliver,
    .receiver (.result (bareResult ⟨3, 4⟩ 2 0)), .consume]

set_option maxRecDepth 10000 in
theorem acks_credited_prompt :
    let s := promptFork.foldl (Link.step .lenient)
      (Link.start .lenient { exporterWillAck := true } ⟨0, ∅, []⟩)
    Link.Answers s (s.step .lenient .deliver) := by
  intro s
  have hrun : Run.Guarded (Link.step .lenient) (fun s i ↦ s.Follows i ∧ s.Prompt i)
      (Link.start .lenient { exporterWillAck := true } ⟨0, ∅, []⟩) promptFork := by
    decide +kernel
  have hrunning : Running s.world := by decide +kernel
  exact (acks_credited .lenient { exporterWillAck := true } rfl ⟨0, ∅, []⟩
    promptFork hrun hrunning).1

/-- The second block is replaced before the consumer has handled it. -/
def staleFork : List LinkInput :=
  threeBlocks ++ [.deliver, .receiver (.result (bareResult ⟨2, 4⟩ 1 0)), .consume]

set_option maxRecDepth 10000 in
/-- The acknowledgement of the old block 2 is taken for the answer to the fork.  The one of the
old block 3 is then credited to the new chain, and the answer to the fork aborts the
receiver. -/
theorem stale_ack_credited :
    ∃ o : Options, ∃ inputs : List LinkInput, o.exporterWillAck = true ∧
      Run.Guarded (Link.step .lenient) Link.Follows (Link.start .lenient o ⟨0, ∅, []⟩) inputs ∧
      let s := inputs.foldl (Link.step .lenient) (Link.start .lenient o ⟨0, ∅, []⟩)
      let s₁ := s.step .lenient .deliver
      let s₂ := (s₁.step .lenient .consume).step .lenient .deliver
      let s₃ := (s₂.step .lenient .consume).step .lenient .deliver
      s.world.proc.forkedAtBlock = 2 ∧ s₁.world.proc.forkedAtBlock = 0 ∧
        (∃ f ∈ s.events, f.ack? = some 1 ∧ f.completes = false) ∧
        s₂.shared 0 < s₂.world.proc.exporterAckedBlock ∧
        s₂.world.proc.aborting = false ∧ s₃.world.proc.aborting = true :=
  ⟨{ exporterWillAck := true }, staleFork, rfl, by decide +kernel, by decide +kernel⟩

end Chronicle
