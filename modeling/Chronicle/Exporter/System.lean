import Chronicle.Exporter.Pipeline
import Chronicle.Exporter.FlowControl
import Chronicle.Block.Published
import Chronicle.Interactive.StaleHead

/-!
# The receiver, the decoder and the Relic exporter

The event loop of the application runs the handlers of the three plugins in turn.  What the
receiver publishes waits for the decoder, what the decoder publishes waits for the exporter, and
what is pushed waits for the timer of the exporter, while the receiver reads on.  The exporter
calls back: it asks for a slowdown, and acknowledges blocks.

The system refines the link of the receiver and the consumer that acknowledges at once
(`system_refines_link`).
-/

namespace Chronicle

open Decoder (AbiDecoder Detail Libraries onEvent)
open Store

/-! ## The calls of the exporter -/

/-- What `async_send_events` asks for, if anything, before it takes one of some messages. -/
def Sender.slowdownCall (o : SenderOptions) (size : Nat) : Option Bool :=
  if o.queueHwm ≤ size then some true else if size < o.queueLwm then some false else none

namespace Relic.Exporter

/-- The calls of the exporter to the receiver. -/
inductive Call where
  | slowdown (pause : Bool)
  | ackBlock (blockNum : Nat)
  | abortReceiver

/-- What a call does to the receiver. -/
def Call.run {Abi : Type} (lib : Abieos Abi) (w : World Abi) : Call → World Abi
  | .slowdown pause => Chronicle.exec lib w (.slowdown pause)
  | .ackBlock blockNum => Chronicle.exec lib w (.ack blockNum)
  | .abortReceiver => handleAny Chronicle.abortReceiver w

/-- The calls of `async_send_events` with some messages in the queue. -/
def calls (ext : Externals) (o : SenderOptions) :
    List Msgbuf → Members → (Nat → Option Rows) → List Call
  | [], _, _ => []
  | msg :: queue, m, answers =>
    let out := (handle ext msg m).run answers
    (Sender.slowdownCall o (queue.length + 1)).toList.map .slowdown ++
      (Program.told out.trace).map .ackBlock ++
      match out.result with
      | some m => calls ext o queue m out.answers
      | none => [.abortReceiver]

end Relic.Exporter

/-! ## The system -/

/-- The receiver, the decoder and an exporter, and what the event loop holds for them. -/
structure Plugins (Abi σ ε : Type) where
  world : World Abi
  /-- The events on their way to the decoder. -/
  events : List Event
  /-- The texts on their way to the exporter. -/
  outputs : List (ExportType × Bytes) := []
  /-- What `abieos` depends on besides its contexts. -/
  abieos : σ
  exporter : ε

/-- The plugins with the Relic exporter. -/
abbrev System (Abi σ : Type) := Plugins Abi σ Relic.Exporter

/-- The handler that runs next. -/
inductive SystemInput where
  /-- Something happens to the receiver. -/
  | receiver (i : Input)
  /-- The decoder handles the next event. -/
  | decode (d : Detail)
  /-- The exporter is given the next text. -/
  | push
  /-- The timer of the exporter expires. -/
  | expire
  /-- The handler of a wait on that timer runs, if there is one. -/
  | timer

section Step

variable {Abi σ : Type} (lib : Abieos Abi) (libs : Libraries)
  (dec : AbieosContext Abi → AbiDecoder σ) (ext : Externals) (o : SenderOptions)

/-- What is left for the decoder when the receiver has changed. -/
def Plugins.advance {ε : Type} (s : Plugins Abi σ ε) (w : World Abi) (events : List Event) :
    Plugins Abi σ ε :=
  { s with world := w, events := events ++ newEvents s.world w }

/-- The decoder handles an event. -/
def Plugins.decode {ε : Type} (s : Plugins Abi σ ε) (d : Detail) (e : Event) (es : List Event) :
    Plugins Abi σ ε :=
  let (outputs, w, abieos) := onEvent libs (Decoder.receiverDecoder lib dec) d (s.world, s.abieos) e
  { s.advance w es with outputs := s.outputs ++ outputs, abieos }

namespace System

/-- The exporter is given a text.  Nothing is modelled for one that ends within its buffer. -/
def push (s : System Abi σ) (p : ExportType × Bytes) (ps : List (ExportType × Bytes)) :
    System Abi σ :=
  { s with
    outputs := ps
    exporter := (o.pushed (p.1, ofUtf8Bytes p.2)).elim s.exporter s.exporter.pushMsg }

/-- The handler of the timer. -/
def send (s : System Abi σ) : System Abi σ :=
  { s with
    world := (Relic.Exporter.calls ext o s.exporter.asyncQueue s.exporter.members
      s.exporter.answers).foldl (Relic.Exporter.Call.run lib) s.world
    exporter := s.exporter.exec ext o .timer }

/-- A handler runs. -/
def turn (s : System Abi σ) : SystemInput → System Abi σ
  | .receiver i => s.advance (exec lib s.world i) s.events
  | .decode d =>
    match s.events with
    | [] => s
    | e :: es => s.decode lib libs dec d e es
  | .push =>
    match s.outputs with
    | [] => s
    | p :: ps => s.push o p ps
  | .expire => { s with exporter := s.exporter.exec ext o .expire }
  | .timer => if 0 < s.exporter.fired then s.send lib ext o else s

/-- No handler runs any more when one of them hangs. -/
def step (s : System Abi σ) (i : SystemInput) : System Abi σ :=
  if s.world.proc.continuation = .hung then s else s.turn lib libs dec ext o i

/-- The exporter is started, and then the receiver on a database. -/
def start (o' : Options) (db : Undo Tables) (abieos : σ) (answers : Nat → Option Relic.Rows) :
    System Abi σ :=
  let w : World Abi := { newWorld with db := db }
  { world := exec lib w (.start o'), events := newEvents w (exec lib w (.start o')), abieos,
    exporter := .start ext o answers [] }

/-- The receiver reads the block above its head, or a block that replaces one it has, and what the
decoder writes is legible. -/
def Follows (holds : Bytes → Prop) (s : System Abi σ) : SystemInput → Prop
  | .receiver i => i.InTurn ∧ FollowsHead 0 s.world i
  | .decode d => ∀ e ∈ s.events.head?, (∀ n ∈ Decoder.blockNum? e, n < 2 ^ 32) ∧
      ∀ p ∈ (onEvent libs (Decoder.receiverDecoder lib dec) d (s.world, s.abieos) e).1,
        Legible holds p.2
  | .push | .expire | .timer => True

end System

end Step

/-! ## What the decoder does to the receiver -/

section Decoded

variable {Abi σ : Type} {lib : Abieos Abi} {w w' : World Abi}

theorem cached_decoded (hc : w.proc.Cached) (account : Name) :
    (w.decoded lib account).proc.Cached :=
  hc.load lib account (w.lookupAbi account)

theorem continuation_decoded (account : Name) :
    (w.decoded lib account).proc.continuation = w.proc.continuation :=
  Proc.member_eq (w.proc.load_core lib account (w.lookupAbi account)) Proc.continuation
    fun _ ↦ rfl

theorem published_decoded (account : Name) :
    published (w.decoded lib account).log = published w.log := by
  change published (w.log ++ w.readyLog lib account) = _
  rw [published_append, published_readyLog, List.append_nil]

variable (lib) in
theorem exec_decode (hc : w.proc.Cached) (hne : w.proc.continuation ≠ .hung) (account : Name) :
    exec lib w (.decode account) = w.decoded lib account := by
  rw [exec, handleAny, if_neg hne, catchAndClose,
    Effect.bind_run (getContractAbiReady_run lib account hc)]
  rfl

/-- Some ABIs were loaded. -/
def Consulted (lib : Abieos Abi) (s s' : World Abi × σ) : Prop :=
  s.1.proc.Cached → ∃ accounts : List Name, s'.1 = accounts.foldl (World.decoded lib) s.1

theorem cached_consulted (hc : w.proc.Cached) (accounts : List Name) :
    (accounts.foldl (World.decoded lib) w).proc.Cached := by
  induction accounts generalizing w with
  | nil => exact hc
  | cons account accounts ih => exact ih (cached_decoded hc account)

instance : Std.Refl (@Consulted Abi σ lib) where
  refl _ _ := ⟨[], rfl⟩

instance : IsTrans (World Abi × σ) (Consulted lib) where
  trans s s' s'' h h' hc := by
    obtain ⟨accounts, hs'⟩ := h hc
    obtain ⟨more, hs''⟩ := h' (hs' ▸ cached_consulted hc accounts)
    exact ⟨accounts ++ more, by rw [hs'', hs', List.foldl_append]⟩

theorem published_consulted (accounts : List Name) :
    published (accounts.foldl (World.decoded lib) w).log = published w.log := by
  induction accounts generalizing w with
  | nil => rfl
  | cons account accounts ih => exact ih.trans (published_decoded account)

/-- A decoding loads the ABI of its account. -/
theorem decode_consulted (libs : Libraries) (dec : AbieosContext Abi → AbiDecoder σ)
    (p : Decoder.Payload) (s : World Abi × σ) :
    Consulted lib s ((Decoder.receiverDecoder lib dec).decode libs p s).2 := by
  intro hc
  refine ⟨[p.account], ?_⟩
  have hready : Decoder.getContractAbiCtxt lib p.account s.1 =
      .ok (s.1.decoded lib p.account).proc.contractAbiCtxt (s.1.decoded lib p.account) := by
    rw [Decoder.getContractAbiCtxt, Effect.bind_run (getContractAbiReady_run lib p.account hc)]
    rfl
  have hload : ((Decoder.receiverDecoder lib dec).getContractAbiCtxt p.account s).1 =
      s.1.decoded lib p.account := by
    simp only [Decoder.receiverDecoder, hready]
  refine Eq.trans ?_ hload
  rw [AbiDecoder.decode]
  cases p.kind <;> rfl

variable (lib) in
/-- The decoder loads ABIs, and nothing is published. -/
theorem Plugins.decode_spec {ε : Type} (s : Plugins Abi σ ε) (libs : Libraries)
    (dec : AbieosContext Abi → AbiDecoder σ) (hc : s.world.proc.Cached) (d : Detail) (e : Event)
    (es : List Event) : ∃ accounts : List Name,
      (s.decode lib libs dec d e es).world = accounts.foldl (World.decoded lib) s.world ∧
        (s.decode lib libs dec d e es).events = es := by
  obtain ⟨accounts, haccounts⟩ := Decoder.onEvent_moves (R := Consulted lib)
    (decode_consulted libs dec) d (s.world, s.abieos) e hc
  have hworld : (s.decode lib libs dec d e es).world =
      accounts.foldl (World.decoded lib) s.world := haccounts
  refine ⟨accounts, hworld, ?_⟩
  have hnew : newEvents s.world (s.decode lib libs dec d e es).world = [] := by
    refine newEvents_eq ?_
    rw [hworld, List.append_nil]
    exact published_consulted accounts
  change es ++ newEvents s.world (s.decode lib libs dec d e es).world = es
  rw [hnew, List.append_nil]

end Decoded

/-! ## The link -/

section Links

variable {Abi : Type} {lib : Abieos Abi} {o : Options} {l : Link Abi} {w : World Abi}
  {pending : List Nat} {es : List Event}

/-- A link whose consumer has to acknowledge some blocks before it comes to the last events. -/
structure Link.Owes (o : Options) (l : Link Abi) (w : World Abi) (pending : List Nat)
    (es : List Event) : Prop where
  linked : l.Linked o
  world : l.world = w
  acks : l.acks = []
  events : ∃ exported, l.events = exported ++ es ∧ exported.filterMap Event.ack? = pending

/-- The consumer comes to another event. -/
theorem Link.Owes.next {e : Event} (h : l.Owes o w pending (e :: es)) :
    l.Owes o w (pending ++ e.ack?.toList) es := by
  obtain ⟨exported, hevents, hpending⟩ := h.events
  refine ⟨h.linked, h.world, h.acks, exported ++ [e], ?_, ?_⟩
  · rw [hevents, List.append_assoc]
    rfl
  · rw [List.filterMap_append, hpending, List.append_right_inj]
    cases hack : e.ack? with
    | none => exact List.filterMap_cons_none hack
    | some n => exact List.filterMap_cons_some hack

variable (lib) in
/-- Something happens to the receiver. -/
theorem Link.Owes.receiver (h : l.Owes o w pending es) {i : Input} (hturn : i.InTurn)
    (hfollows : FollowsHead 0 w i) : l.RelicFollows (.receiver i) ∧
      (l.relicStep lib (.receiver i)).Owes o (exec lib w i) pending
        (es ++ newEvents w (exec lib w i)) := by
  obtain ⟨exported, hevents, hpending⟩ := h.events
  obtain rfl := h.world
  have hfollows : l.Follows (.receiver i) := ⟨hturn, hfollows⟩
  refine ⟨hfollows, h.linked.step lib hfollows, rfl, h.acks, exported, ?_, hpending⟩
  rw [← List.append_assoc, ← hevents]
  rfl

variable (lib) in
/-- The consumer handles an event, and what it acknowledges arrives at once. -/
theorem Link.send_cons {e : Event} {rest : List Event} (hlinked : l.Linked o) (hacks : l.acks = [])
    (hevents : l.events = e :: rest) :
    let l' := l.relicStep lib .send
    l'.Linked o ∧ l'.acks = [] ∧ l'.events = rest ∧
      l'.world = e.ack?.elim l.world fun n ↦ exec lib l.world (.ack n) := by
  intro l'
  have hconsume : l.step lib .consume =
      { l with events := rest, acks := e.ack?.toList, handled := l.handled ++ [e] } := by
    rw [Link.step, hevents, hacks]
    rfl
  have hlinked' : l'.Linked o :=
    (hlinked.step lib (i := .consume) trivial).step lib (i := .deliver) trivial
  refine ⟨hlinked', ?_⟩
  change ((l.step lib .consume).step lib .deliver).acks = [] ∧
    ((l.step lib .consume).step lib .deliver).events = rest ∧
      ((l.step lib .consume).step lib .deliver).world = _
  rw [hconsume, Link.step]
  cases e.ack? <;> exact ⟨rfl, rfl, rfl⟩

/-- A link gets to where it owes something. -/
def Link.Reaches (lib : Abieos Abi) (o : Options) (l : Link Abi) (w : World Abi)
    (pending : List Nat) (es : List Event) : Prop :=
  ∃ bs, Run.Guarded (Link.relicStep lib) Link.RelicFollows l bs ∧
    (bs.foldl (Link.relicStep lib) l).Owes o w pending es

theorem Link.Owes.reaches (h : l.Owes o w pending es) : l.Reaches lib o w pending es :=
  ⟨[], trivial, h⟩

/-- It goes on from there. -/
theorem Link.Reaches.bind {w' : World Abi} {pending' : List Nat} {es' : List Event}
    (h : l.Reaches lib o w pending es)
    (hnext : ∀ l' : Link Abi, l'.Owes o w pending es → l'.Reaches lib o w' pending' es') :
    l.Reaches lib o w' pending' es' := by
  obtain ⟨bs, hbs, howes⟩ := h
  obtain ⟨cs, hcs, howes'⟩ := hnext _ howes
  refine ⟨bs ++ cs, Run.Guarded.append.mpr ⟨hbs, hcs⟩, ?_⟩
  rwa [List.foldl_append]

/-- Something happens to the receiver that publishes nothing. -/
theorem Link.Owes.silent (h : l.Owes o w pending es) {i : Input} (hturn : i.InTurn)
    (hnone : delivered w i = none) (hlog : published (exec lib w i).log = published w.log) :
    l.Reaches lib o (exec lib w i) pending es := by
  have hfollows : FollowsHead 0 w i := by
    intro d hd
    rw [hnone] at hd
    cases hd
  obtain ⟨hguard, howes⟩ := h.receiver lib hturn hfollows
  have hnew : newEvents w (exec lib w i) = [] := newEvents_eq (by rw [hlog, List.append_nil])
  rw [hnew, List.append_nil] at howes
  exact ⟨[.receiver i], ⟨hguard, trivial⟩, howes⟩

/-- The exporter asks for a slowdown, or takes it back. -/
theorem Link.Owes.slowdown (h : l.Owes o w pending es) (pause : Bool) :
    l.Reaches lib o (exec lib w (.slowdown pause)) pending es := by
  refine h.silent trivial rfl ?_
  rw [exec, handleAny]
  split_ifs <;> rfl

/-- The decoder asks for the ABIs of some accounts. -/
theorem Link.Owes.decoded (h : l.Owes o w pending es) (hne : w.proc.continuation ≠ .hung)
    (accounts : List Name) : l.Reaches lib o (accounts.foldl (World.decoded lib) w) pending es := by
  induction accounts generalizing l w with
  | nil => exact h.reaches
  | cons account accounts ih =>
      have hc : w.proc.Cached := h.world ▸ h.linked.scanning.cached
      have hexec := exec_decode lib hc hne account
      have hreaches : l.Reaches lib o (w.decoded lib account) pending es := by
        rw [← hexec]
        exact h.silent trivial rfl (hexec ▸ published_decoded account)
      refine hreaches.bind fun l' howes ↦ ih howes ?_
      rwa [continuation_decoded]

/-- A block is acknowledged: the consumer goes on to the event that this was owed for. -/
theorem Link.Owes.ack {n : Nat} (h : l.Owes o w (n :: pending) es) :
    l.Reaches lib o (exec lib w (.ack n)) pending es := by
  obtain ⟨exported, hevents, hpending⟩ := h.events
  obtain rfl := h.world
  have hacks := h.acks
  have hlinked := h.linked
  clear h
  induction exported generalizing l with
  | nil => cases hpending
  | cons e exported ih =>
      obtain ⟨hlinked', hacks', hevents', hworld⟩ := Link.send_cons lib hlinked hacks
        hevents
      cases hack : e.ack? with
      | none =>
          rw [List.filterMap_cons_none hack] at hpending
          rw [hack] at hworld
          obtain ⟨bs, hbs, howes⟩ := ih hevents' hpending hacks' hlinked'
          rw [hworld] at howes
          exact ⟨.send :: bs, ⟨trivial, hbs⟩, howes⟩
      | some k =>
          rw [List.filterMap_cons_some hack] at hpending
          obtain ⟨rfl, hrest⟩ := List.cons.inj hpending
          rw [hack] at hworld
          exact ⟨[.send], ⟨trivial, trivial⟩, hlinked', hworld, hacks', exported, hevents', hrest⟩

theorem Link.Owes.acknowledge {ns : List Nat} (h : l.Owes o w (ns ++ pending) es) :
    l.Reaches lib o ((ns.map Relic.Exporter.Call.ackBlock).foldl (Relic.Exporter.Call.run lib) w)
      pending es := by
  induction ns generalizing l w with
  | nil => exact h.reaches
  | cons n ns ih => exact (Link.Owes.ack h).bind fun l' howes ↦ ih howes

end Links

/-! ## The exporter -/

namespace Relic.Exporter

variable {ext : Externals} {o : SenderOptions}

/-- What `async_send_events` leaves behind, if there was no exception. -/
theorem drained {queue : List Msgbuf} {s : Exporter} (h : (drain ext o queue s).aborted = false) :
    s.aborted = false ∧ (drain ext o queue s).asyncQueue = [] := by
  induction queue generalizing s with
  | nil => exact ⟨h, rfl⟩
  | cons msg queue ih =>
      rw [drain] at h ⊢
      cases hout : ((handle ext msg s.members).run s.answers).result with
      | some m =>
          simp only [hout] at h ⊢
          exact ih h
      | none =>
          simp only [hout] at h
          cases h

/-- The calls of `async_send_events` are matched by a link that owes what is acknowledged for the
messages. -/
theorem owes_calls {Abi : Type} {lib : Abieos Abi} {o' : Options} {l : Link Abi} {w : World Abi}
    {pending : List Nat} {es : List Event} {queue : List Msgbuf} {s : Exporter}
    (h : (drain ext o queue s).aborted = false)
    (howes : l.Owes o' w (queue.flatMap (messageAcks ext) ++ pending) es) :
    l.Reaches lib o' ((calls ext o queue s.members s.answers).foldl (Call.run lib) w) pending
      es := by
  induction queue generalizing s l w with
  | nil => exact howes.reaches
  | cons msg queue ih =>
      rw [drain] at h
      rw [calls]
      cases hout : ((handle ext msg s.members).run s.answers).result with
      | none =>
          simp only [hout] at h
          cases h
      | some m =>
          simp only [hout] at h
          have htold := (handle_tells ext msg s.members).told_run s.answers |>.2
            (Option.isSome_of_eq_some hout)
          rw [List.flatMap_cons, List.append_assoc] at howes
          have hslow : l.Reaches lib o' (((Sender.slowdownCall o (queue.length + 1)).toList.map
              Call.slowdown).foldl (Call.run lib) w)
              (messageAcks ext msg ++ (queue.flatMap (messageAcks ext) ++ pending)) es := by
            cases Sender.slowdownCall o (queue.length + 1) with
            | none => exact howes.reaches
            | some pause => exact howes.slowdown pause
          simp only [List.foldl_append, htold]
          exact (hslow.bind fun l' howes' ↦ howes'.acknowledge).bind fun l' howes' ↦ ih h howes'

end Relic.Exporter

/-! ## The refinement -/

section Refinement

variable {Abi σ : Type} {lib : Abieos Abi} {libs : Libraries}
  {dec : AbieosContext Abi → AbiDecoder σ} {ext : Externals} {o : SenderOptions}
  {holds : Bytes → Prop} {o' : Options}

/-- The acknowledgements for a text. -/
def outputAcks (ext : Externals) (o : SenderOptions) (p : ExportType × Bytes) : List Nat :=
  (o.pushed (p.1, ofUtf8Bytes p.2)).elim [] (Relic.messageAcks ext)

variable (ext) in
/-- Some texts that are pushed. -/
theorem pushedFor_of_forall {outputs : List (ExportType × Bytes)}
    (h : ∀ p ∈ outputs, ∃ msg, o.pushed (p.1, ofUtf8Bytes p.2) = some msg) :
    ∃ msgs, PushedFor o outputs msgs ∧
      outputs.flatMap (outputAcks ext o) = msgs.flatMap (Relic.messageAcks ext) := by
  induction outputs with
  | nil => exact ⟨[], rfl, rfl⟩
  | cons p outputs ih =>
      obtain ⟨msg, hmsg⟩ := h p List.mem_cons_self
      obtain ⟨msgs, hmsgs, hacks⟩ := ih fun q hq ↦ h q (List.mem_cons_of_mem _ hq)
      refine ⟨msg :: msgs, ?_, ?_⟩
      · rw [PushedFor, List.map_cons, List.map_cons, hmsg, hmsgs]
      · rw [List.flatMap_cons, List.flatMap_cons, hacks, outputAcks, hmsg, Option.elim_some]

/-- A legible text that denotes an object is pushed. -/
theorem exists_pushed (hext : ParsesJson ext holds) (hbin : o.useBinHeaders = false)
    (type : ExportType) {n? : Option Nat} {text : Bytes} (htells : Decoder.TellsBlock holds n? text)
    (hlegible : Legible holds text) : ∃ msg, o.pushed (type, ofUtf8Bytes text) = some msg := by
  obtain ⟨ms, hdenotes, -⟩ := htells
  obtain ⟨str, rfl⟩ := hlegible.chars
  obtain ⟨data, hdata⟩ := hlegible.data _ hdenotes
  obtain ⟨members, rfl, -⟩ := isObject_of_tree hdata
  obtain ⟨msg, hpushed, -⟩ := readBack_onEventJson hext (hdata ▸ hdenotes) rfl type
  refine ⟨msg, ?_⟩
  rwa [ofUtf8Bytes_utf8Bytes, SenderOptions.pushed, hbin, if_neg Bool.false_ne_true]

/-- What is acknowledged for the texts of an event. -/
theorem acks_outputs {τ : Type} {dec : AbiDecoder τ} (hlib : libs.Documented holds)
    (hdec : dec.YieldsJson holds) (hext : ParsesJson ext holds) (hbin : o.useBinHeaders = false)
    (e : Event) (d : Detail) (x : τ) (hlt : ∀ n ∈ Decoder.blockNum? e, n < 2 ^ 32)
    (hlegible : ∀ p ∈ (onEvent libs dec d x e).1, Legible holds p.2) :
    (onEvent libs dec d x e).1.flatMap (outputAcks ext o) = e.ack?.toList := by
  have houtputs := Decoder.onEvent_outputs hlib hdec e d x
  have hsome : ∀ p ∈ (onEvent libs dec d x e).1,
      ∃ msg, o.pushed (p.1, ofUtf8Bytes p.2) = some msg := by
    intro p hp
    have hlegible := hlegible p hp
    cases htype : Decoder.exportType? e with
    | none =>
        rw [houtputs.unhandled htype] at hp
        cases hp
    | some type =>
        obtain ⟨text, reports, hout, htells, hreports⟩ := houtputs.written type htype
        rw [hout] at hp
        rcases List.mem_cons.mp hp with rfl | hp
        · exact exists_pushed hext hbin type htells hlegible
        · exact exists_pushed hext hbin p.1 (hreports p hp).2 hlegible
  obtain ⟨msgs, hmsgs, hacks⟩ := pushedFor_of_forall ext hsome
  rw [hacks]
  exact acks_onEvent hlib hdec hext hbin e d x hlt hlegible hmsgs

namespace System

variable {s : System Abi σ} {l : Link Abi}

/-- The blocks that will be acknowledged for what is decoded. -/
def pending (ext : Externals) (o : SenderOptions) (s : System Abi σ) : List Nat :=
  s.exporter.asyncQueue.flatMap (Relic.messageAcks ext) ++ s.outputs.flatMap (outputAcks ext o)

/-- While the exporter has not given up, the link owes what the system will acknowledge. -/
def Refines (ext : Externals) (o : SenderOptions) (o' : Options) (s : System Abi σ)
    (l : Link Abi) : Prop :=
  s.exporter.aborted = false → l.Owes o' s.world (s.pending ext o) s.events

theorem push_exporter (s : System Abi σ) (p : ExportType × Bytes)
    (ps : List (ExportType × Bytes)) : (s.push o p ps).exporter.aborted = s.exporter.aborted ∧
      (s.push o p ps).exporter.asyncQueue =
        s.exporter.asyncQueue ++ (o.pushed (p.1, ofUtf8Bytes p.2)).toList := by
  rw [push]
  cases o.pushed (p.1, ofUtf8Bytes p.2) with
  | none => exact ⟨rfl, (List.append_nil _).symm⟩
  | some buf =>
      change (s.exporter.pushMsg buf).aborted = _ ∧ (s.exporter.pushMsg buf).asyncQueue = _
      rw [Relic.Exporter.pushMsg]
      split_ifs <;> exact ⟨rfl, rfl⟩

theorem exporter_timer (hfired : 0 < s.exporter.fired) : s.exporter.exec ext o .timer =
    Relic.Exporter.drain ext o s.exporter.asyncQueue
      { s.exporter with fired := s.exporter.fired - 1 } := if_pos hfired

/-- The exporter does not take back that it has given up. -/
theorem aborted_turn {i : SystemInput}
    (h : (s.turn lib libs dec ext o i).exporter.aborted = false) : s.exporter.aborted = false := by
  cases i with
  | receiver i => exact h
  | expire => exact h
  | decode d =>
      rw [turn] at h
      cases hevents : s.events with
      | nil => rwa [hevents] at h
      | cons e es =>
          rw [hevents] at h
          exact h
  | push =>
      rw [turn] at h
      cases houtputs : s.outputs with
      | nil => rwa [houtputs] at h
      | cons p ps =>
          rw [houtputs] at h
          exact (push_exporter s p ps).1 ▸ h
  | timer =>
      rw [turn] at h
      split_ifs at h with hfired
      · have h : (s.exporter.exec ext o .timer).aborted = false := h
        rw [exporter_timer hfired] at h
        exact (Relic.Exporter.drained h).1
      · exact h

/-- What is pushed was owed before. -/
theorem pending_push {p : ExportType × Bytes} {ps : List (ExportType × Bytes)}
    (houtputs : s.outputs = p :: ps) : (s.push o p ps).pending ext o = s.pending ext o := by
  rw [pending, pending, houtputs, (push_exporter s p ps).2, List.flatMap_append, List.flatMap_cons,
    outputAcks, List.append_assoc]
  cases o.pushed (p.1, ofUtf8Bytes p.2) with
  | none => rfl
  | some buf => rw [Option.toList_some, List.flatMap_singleton]; rfl

/-- The handler of the timer is matched by the link. -/
theorem owes_send (howes : l.Owes o' s.world (s.pending ext o) s.events)
    (hfired : 0 < s.exporter.fired) (hrun : (s.send lib ext o).exporter.aborted = false) :
    l.Reaches lib o' (s.send lib ext o).world ((s.send lib ext o).pending ext o) s.events := by
  have hrun : (s.exporter.exec ext o .timer).aborted = false := hrun
  rw [exporter_timer hfired] at hrun
  have hempty : (s.send lib ext o).exporter.asyncQueue = [] := by
    change (s.exporter.exec ext o .timer).asyncQueue = []
    rw [exporter_timer hfired]
    exact (Relic.Exporter.drained hrun).2
  rw [pending, hempty]
  exact Relic.Exporter.owes_calls (s := { s.exporter with fired := s.exporter.fired - 1 }) hrun howes

/-- So is a handler of the decoder. -/
theorem owes_decode (hlib : libs.Documented holds) (hdec : ∀ ctxt, (dec ctxt).YieldsJson holds)
    (hext : ParsesJson ext holds) (hbin : o.useBinHeaders = false) {d : Detail} {e : Event}
    {es : List Event} (howes : l.Owes o' s.world (s.pending ext o) (e :: es))
    (hne : s.world.proc.continuation ≠ .hung) (hlt : ∀ n ∈ Decoder.blockNum? e, n < 2 ^ 32)
    (hlegible : ∀ p ∈ (onEvent libs (Decoder.receiverDecoder lib dec) d (s.world, s.abieos) e).1,
      Legible holds p.2) :
    let s' : System Abi σ := s.decode lib libs dec d e es
    l.Reaches lib o' s'.world (s'.pending ext o) s'.events := by
  intro s'
  have hacks := acks_outputs (o := o) hlib (Decoder.receiverDecoder_yieldsJson lib hdec) hext hbin e
    d (s.world, s.abieos) hlt hlegible
  have hc : s.world.proc.Cached := howes.world ▸ howes.linked.scanning.cached
  obtain ⟨accounts, hworld, hevents⟩ := s.decode_spec lib libs dec hc d e es
  have hpending : s'.pending ext o = s.pending ext o ++ e.ack?.toList := by
    rw [pending, pending, ← hacks, List.append_assoc, ← List.flatMap_append]
    rfl
  rw [hworld, hpending, hevents]
  exact howes.next.decoded hne accounts

/-- A handler that runs is matched by the link. -/
theorem owes_turn (hlib : libs.Documented holds) (hdec : ∀ ctxt, (dec ctxt).YieldsJson holds)
    (hext : ParsesJson ext holds) (hbin : o.useBinHeaders = false) {i : SystemInput}
    (howes : l.Owes o' s.world (s.pending ext o) s.events)
    (hne : s.world.proc.continuation ≠ .hung) (hfollows : s.Follows lib libs dec holds i)
    (hrun : (s.turn lib libs dec ext o i).exporter.aborted = false) :
    let s' := s.turn lib libs dec ext o i
    l.Reaches lib o' s'.world (s'.pending ext o) s'.events := by
  intro s'
  cases i with
  | receiver i =>
      obtain ⟨hguard, hnext⟩ := howes.receiver lib hfollows.1 hfollows.2
      exact ⟨[.receiver i], ⟨hguard, trivial⟩, hnext⟩
  | expire => exact howes.reaches
  | push =>
      cases houtputs : s.outputs with
      | nil =>
          have hsame : s' = s := by simp only [s', turn, houtputs]
          exact hsame ▸ howes.reaches
      | cons p ps =>
          have hpush : s' = s.push o p ps := by simp only [s', turn, houtputs]
          rw [hpush, pending_push houtputs]
          exact howes.reaches
  | timer =>
      by_cases hfired : 0 < s.exporter.fired
      · have hsend : s.turn lib libs dec ext o .timer = s.send lib ext o := if_pos hfired
        rw [hsend] at hrun
        rw [show s' = s.send lib ext o from hsend]
        exact owes_send howes hfired hrun
      · have hsame : s' = s := if_neg hfired
        exact hsame ▸ howes.reaches
  | decode d =>
      cases hevents : s.events with
      | nil =>
          have hsame : s' = s := by simp only [s', turn, hevents]
          exact hsame ▸ howes.reaches
      | cons e es =>
          obtain ⟨hlt, hlegible⟩ := hfollows e (by rw [hevents]; rfl)
          have hdecode : s' = s.decode lib libs dec d e es := by simp only [s', turn, hevents]
          rw [hdecode]
          exact owes_decode hlib hdec hext hbin (hevents ▸ howes) hne hlt hlegible

/-- A step of the system. -/
theorem Refines.step (hlib : libs.Documented holds) (hdec : ∀ ctxt, (dec ctxt).YieldsJson holds)
    (hext : ParsesJson ext holds) (hbin : o.useBinHeaders = false) {i : SystemInput}
    (h : s.Refines ext o o' l) (hfollows : s.Follows lib libs dec holds i) :
    ∃ bs, Run.Guarded (Link.relicStep lib) Link.RelicFollows l bs ∧
      (s.step lib libs dec ext o i).Refines ext o o' (bs.foldl (Link.relicStep lib) l) := by
  by_cases hhung : s.world.proc.continuation = .hung
  · have hstep : s.step lib libs dec ext o i = s := if_pos hhung
    exact ⟨[], trivial, hstep.symm ▸ h⟩
  · have hstep : s.step lib libs dec ext o i = s.turn lib libs dec ext o i := if_neg hhung
    rw [hstep]
    cases hrun : (s.turn lib libs dec ext o i).exporter.aborted with
    | true => exact ⟨[], trivial, fun hnot ↦ absurd (hrun.symm.trans hnot) Bool.true_eq_false.mp⟩
    | false =>
        obtain ⟨bs, hbs, howes⟩ :=
          owes_turn hlib hdec hext hbin (h (aborted_turn hrun)) hhung hfollows hrun
        exact ⟨bs, hbs, fun _ ↦ howes⟩

/-- The start of the system. -/
theorem refines_start (hscan : o'.interactiveMode = false) (db : Undo Tables) (abieos : σ)
    (answers : Nat → Option Relic.Rows) :
    (start lib ext o o' db abieos answers).Refines ext o o' (Link.start lib o' db) :=
  fun _ ↦ ⟨Link.linked_start lib hscan db, rfl, rfl, [], rfl, rfl⟩

end System

end Refinement

section Runs

variable {Abi σ : Type} {lib : Abieos Abi} {libs : Libraries}
  {dec : AbieosContext Abi → AbiDecoder σ} {ext : Externals} {o : SenderOptions}
  {holds : Bytes → Prop} {o' : Options}

/-- **In whichever order the handlers of the receiver, the decoder and the exporter run: while the
exporter has not given up, there is a run of the link that has taken the receiver to the same
state, and in which the consumer has still to acknowledge what the system has.** -/
theorem system_refines_link (hlib : libs.Documented holds)
    (hdec : ∀ ctxt, (dec ctxt).YieldsJson holds) (hext : ParsesJson ext holds)
    (hbin : o.useBinHeaders = false) (hscan : o'.interactiveMode = false) (db : Undo Tables)
    (abieos : σ) (answers : Nat → Option Relic.Rows) (inputs : List SystemInput)
    (hrun : Run.Guarded (System.step lib libs dec ext o) (System.Follows lib libs dec holds)
      (System.start lib ext o o' db abieos answers) inputs) :
    let s := inputs.foldl (System.step lib libs dec ext o)
      (System.start lib ext o o' db abieos answers)
    s.exporter.aborted = false →
      ∃ bs, Run.Guarded (Link.relicStep lib) Link.RelicFollows (Link.start lib o' db) bs ∧
        (bs.foldl (Link.relicStep lib) (Link.start lib o' db)).Owes o' s.world (s.pending ext o)
          s.events := by
  intro s hnot
  obtain ⟨bs, hbs, hrefines⟩ := hrun.simulate
    (fun _ _ _ h hi ↦ System.Refines.step hlib hdec hext hbin h hi)
    (System.refines_start hscan db abieos answers)
  exact ⟨bs, hbs, hrefines hnot⟩

end Runs

/-! ## A block -/

/-- The plugins with the libraries of the examples. -/
def exampleStep : System Unit Unit → SystemInput → System Unit Unit :=
  System.step Decoder.exampleAbieos Decoder.exampleLibraries (fun _ ↦ Decoder.exampleDecoder)
    readerExternals {}

def exampleStart : System Unit Unit :=
  System.start Decoder.exampleAbieos readerExternals {}
    { exporterWillAck := true, exporterMaxUnconfirmed := 2 } emptyDb () fun _ ↦ some [["1"]]

/-- A text is pushed without making a string of it. -/
def exampleFast (s : System Unit Unit) : SystemInput → System Unit Unit
  | .push =>
    if s.world.proc.continuation = .hung then s
    else match s.outputs with
      | [] => s
      | p :: ps =>
        { s with
          outputs := ps
          exporter := (SenderOptions.pushedBytes {} p).elim s.exporter s.exporter.pushMsg }
  | i => exampleStep s i

/-- The decoder writes ASCII. -/
def ExampleFollows (s : System Unit Unit) : SystemInput → Prop
  | .receiver i => i.InTurn ∧ FollowsHead 0 s.world i
  | .decode d => ∀ e ∈ s.events.head?, (∀ n ∈ Decoder.blockNum? e, n < 2 ^ 32) ∧
      ∀ p ∈ (onEvent Decoder.exampleLibraries (Decoder.receiverDecoder Decoder.exampleAbieos fun _ ↦
        Decoder.exampleDecoder) d (s.world, s.abieos) e).1, legibleText p.2 = true
  | .push => ∀ p ∈ s.outputs.head?, isAscii p.2 = true
  | .expire | .timer => True

instance (s : System Unit Unit) : (i : SystemInput) → Decidable (ExampleFollows s i)
  | .receiver i => inferInstanceAs (Decidable (i.InTurn ∧ FollowsHead 0 s.world i))
  | .decode _ | .push => inferInstanceAs (Decidable (∀ _ ∈ _, _))
  | .expire | .timer => .isTrue trivial

theorem ExampleFollows.step_eq {s : System Unit Unit} {i : SystemInput} (h : ExampleFollows s i) :
    exampleStep s i = exampleFast s i := by
  cases i with
  | push =>
      rw [exampleFast, exampleStep, System.step]
      refine if_congr Iff.rfl rfl ?_
      rw [System.turn]
      cases houtputs : s.outputs with
      | nil => rfl
      | cons p ps =>
          have hascii : isAscii p.2 = true := h p (by rw [houtputs]; rfl)
          change s.push {} p ps = _
          rw [System.push, pushed_ofUtf8Bytes {} hascii]
  | _ => rfl

theorem ExampleFollows.follows {s : System Unit Unit} {i : SystemInput} (h : ExampleFollows s i) :
    s.Follows Decoder.exampleAbieos Decoder.exampleLibraries (fun _ ↦ Decoder.exampleDecoder)
      (fun _ ↦ True) i := by
  cases i with
  | decode d =>
      intro e he
      obtain ⟨hlt, htexts⟩ := h e he
      exact ⟨hlt, fun p hp ↦ legible_of_legibleText (htexts p hp)⟩
  | push => trivial
  | _ => exact h

/-- A block with a transaction. -/
def transferResult : GetBlocksResult :=
  { bareResult ⟨1, 1⟩ 0 0 with block := some (.ok {}), traces := some [.ok ⟨1, []⟩] }

/-- The explicit fork is handled, and then the block. -/
def exampleInputs : List SystemInput :=
  [.decode {}, .push, .timer, .receiver (.ready 0), .receiver (.result transferResult),
    .decode {}, .decode {}, .push, .push, .expire, .decode { fields := transferTrace }, .timer,
    .decode {}, .push, .push, .push, .expire, .timer]

set_option maxRecDepth 10000 in
theorem exampleFast_guarded :
    Run.Guarded exampleFast ExampleFollows exampleStart exampleInputs := by
  decide +kernel

/-- What is left after the example. -/
def exampleEnd : System Unit Unit := exampleInputs.foldl exampleStep exampleStart

theorem exampleInputs_guarded :
    Run.Guarded exampleStep (fun s i ↦ s.Follows Decoder.exampleAbieos Decoder.exampleLibraries
      (fun _ ↦ Decoder.exampleDecoder) (fun _ ↦ True) i) exampleStart exampleInputs ∧
      exampleEnd = exampleInputs.foldl exampleFast exampleStart :=
  exampleFast_guarded.congr fun _ _ h ↦ ⟨h.step_eq, h.follows⟩

set_option maxRecDepth 10000 in
theorem exampleEnd_facts : exampleEnd.exporter.aborted = false ∧
    exampleEnd.world.proc.head = 1 ∧ exampleEnd.world.proc.continuation = .reading ∧
    exampleEnd.world.proc.aborting = false ∧ exampleEnd.events.isEmpty ∧
    exampleEnd.outputs.isEmpty ∧ exampleEnd.exporter.asyncQueue.isEmpty := by
  rw [exampleInputs_guarded.2]
  decide +kernel

/-- The link comes to the block, too. -/
theorem system_refines_link_block :
    ∃ bs, Run.Guarded (Link.relicStep Decoder.exampleAbieos) Link.RelicFollows
      (Link.start Decoder.exampleAbieos { exporterWillAck := true, exporterMaxUnconfirmed := 2 }
        emptyDb) bs ∧
      (bs.foldl (Link.relicStep Decoder.exampleAbieos) (Link.start Decoder.exampleAbieos
        { exporterWillAck := true, exporterMaxUnconfirmed := 2 } emptyDb)).world.proc.head = 1 := by
  obtain ⟨bs, hbs, howes⟩ := system_refines_link Decoder.exampleLibraries_documented
    (fun _ ↦ Decoder.exampleDecoder_yieldsJson) readerExternals_parsesJson rfl rfl emptyDb ()
    (fun _ ↦ some [["1"]]) exampleInputs exampleInputs_guarded.1 exampleEnd_facts.1
  exact ⟨bs, hbs, howes.world ▸ exampleEnd_facts.2.1⟩

/-! ## Nothing is left to acknowledge -/

section Alive

variable {Abi : Type} {lib : Abieos Abi} {o : Options} {l : Link Abi} {w : World Abi}

/-- The reader has not stopped, and nobody has called `abort_receiver`. -/
def Alive (w : World Abi) : Prop := Running w ∧ w.proc.aborting = false

/-- `abort_receiver` is not taken back. -/
theorem not_aborting_exec {i : Input} (hscan : Scanning w) (hno : i.NoStart)
    (h : (exec lib w i).proc.aborting = false) : w.proc.aborting = false := by
  refine Bool.eq_false_iff.mpr fun habort ↦ Bool.eq_false_iff.mp h ?_
  by_cases hstale : i = .stale
  · subst hstale
    rw [exec, handleAny]
    split_ifs
    · exact habort
    · rw [catchAndClose, checkStaleHead_run, Proc.staleChecked]
      split_ifs
      · rfl
      · exact habort
  · exact (watches_exec lib (.inl hscan) hno hstale).aborting habort

/-- A process that is alive after an acknowledgement was alive before, and has accepted it. -/
theorem alive_ack {n : Nat} (hscan : Scanning w) (hwill : w.options.exporterWillAck = true)
    (h : Alive (exec lib w (.ack n))) :
    Alive w ∧ exec lib w (.ack n) = { w with proc := w.proc.ackedBy n } ∧
      (w.proc.forkedAtBlock = 0 → w.proc.exporterAckedBlock ≤ n) := by
  have hbefore := not_aborting_exec (i := .ack n) hscan trivial h.2
  have hrun : Running w := by
    have hafter := h.1
    rw [exec, if_pos hwill, handleAny] at hafter
    split_ifs at hafter
    · exact hafter
    · rw [catchAndClose, ackBlock_run] at hafter
      exact (calm_ackedBy n w).running hafter
  have hexec := exec_ack lib hwill hrun n
  rw [hexec] at h
  have habort : (w.proc.ackedBy n).aborting = false := h.2
  refine ⟨⟨hrun, hbefore⟩, hexec, fun hforked ↦ ?_⟩
  by_contra hlower
  rw [Proc.ackedBy, if_neg (by omega), if_pos (by omega)] at habort
  cases habort

/-- A receiver that may be two blocks ahead, and is one block ahead, does not wait. -/
theorem not_waitsForAck {p : Proc Abi} (hforked : p.forkedAtBlock = 0)
    (hacked : p.exporterAckedBlock ≤ p.head) (hhead : p.head ≤ p.exporterAckedBlock + 1)
    (hmax : 2 ≤ o.exporterMaxUnconfirmed) : waitsForAck o p = false := by
  have hsub : Uint32.sub p.head p.exporterAckedBlock ≤ 1 := by
    rw [Uint32.sub, if_pos hacked]
    omega
  have hless : ¬ o.exporterMaxUnconfirmed ≤ Uint32.sub p.head p.exporterAckedBlock := by omega
  rw [waitsForAck, hforked, decide_eq_false hless, Bool.or_false]
  exact Bool.and_false _

variable (lib) in
/-- A message changes nothing if there is none, and the acknowledgement arrives at once. -/
theorem Link.send_of_acks (hlinked : l.Linked o) (hacks : l.acks = []) :
    let l' := l.relicStep lib .send
    l'.Linked o ∧ l'.acks = [] ∧ l'.world =
      (l.events.head?.bind Event.ack?).elim l.world fun n ↦ exec lib l.world (.ack n) := by
  intro l'
  cases hevents : l.events with
  | nil =>
      have hsame : l' = l := by
        change (l.step lib .consume).step lib .deliver = l
        simp only [Link.step, hevents, hacks]
      rw [hsame]
      exact ⟨hlinked, hacks, rfl⟩
  | cons e rest =>
      obtain ⟨hlinked', hacks', -, hworld⟩ := Link.send_cons lib hlinked hacks hevents
      exact ⟨hlinked', hacks', hworld⟩

variable (lib) in
theorem Link.linked_step {b : RelicInput} (hlinked : l.Linked o) (hacks : l.acks = [])
    (hfollows : l.RelicFollows b) :
    (l.relicStep lib b).Linked o ∧ (l.relicStep lib b).acks = [] := by
  cases b with
  | receiver i =>
      have hfollows : l.Follows (.receiver i) := hfollows
      exact ⟨hlinked.step lib hfollows, hacks⟩
  | send =>
      obtain ⟨hlinked', hacks', -⟩ := Link.send_of_acks lib hlinked hacks
      exact ⟨hlinked', hacks'⟩

/-- A link that is alive after a step was alive before, and the acknowledgement was not too low. -/
theorem Link.alive_step {b : RelicInput} (hlinked : l.Linked o) (hwill : o.exporterWillAck = true)
    (hacks : l.acks = []) (hfollows : l.RelicFollows b) (h : Alive (l.relicStep lib b).world) :
    Alive l.world ∧ l.NotLower b := by
  cases b with
  | receiver i =>
      have hfollows : l.Follows (.receiver i) := hfollows
      obtain ⟨hrun, -⟩ := hlinked.moves lib hwill hfollows h.1
      exact ⟨⟨hrun, not_aborting_exec hlinked.scanning hfollows.1.noStart h.2⟩, trivial⟩
  | send =>
      obtain ⟨-, -, hworld⟩ := Link.send_of_acks lib hlinked hacks
      rw [hworld] at h
      have hwill : l.world.options.exporterWillAck = true := hlinked.options ▸ hwill
      cases hack : l.events.head?.bind Event.ack? with
      | none =>
          rw [hack] at h
          refine ⟨h, fun e he n hn ↦ ?_⟩
          rw [he, Option.bind_some, hn] at hack
          cases hack
      | some n =>
          rw [hack, Option.elim_some] at h
          obtain ⟨halive, -, haccepts⟩ := alive_ack hlinked.scanning hwill h
          refine ⟨halive, fun e he k hk ↦ ?_⟩
          rw [he, Option.bind_some, hk] at hack
          obtain rfl := Option.some.inj hack
          exact haccepts

/-- No acknowledgement was too low in a run after which the link is alive. -/
theorem Link.alive_run {bs : List RelicInput} (hlinked : l.Linked o)
    (hwill : o.exporterWillAck = true) (hacks : l.acks = [])
    (hrun : Run.Guarded (Link.relicStep lib) Link.RelicFollows l bs)
    (h : Alive (bs.foldl (Link.relicStep lib) l).world) : Alive l.world ∧
      Run.Guarded (Link.relicStep lib) (fun l b ↦ l.RelicFollows b ∧ l.NotLower b) l bs := by
  induction bs generalizing l with
  | nil => exact ⟨h, trivial⟩
  | cons b bs ih =>
      obtain ⟨hlinked', hacks'⟩ := Link.linked_step lib hlinked hacks hrun.1
      obtain ⟨halive, hrest⟩ := ih hlinked' hacks' hrun.2 h
      obtain ⟨hbefore, hlower⟩ := Link.alive_step hlinked hwill hacks hrun.1 halive
      exact ⟨hbefore, ⟨hrun.1, hlower⟩, hrest⟩

end Alive

section Idle

variable {Abi σ : Type} {lib : Abieos Abi} {libs : Libraries}
  {dec : AbieosContext Abi → AbiDecoder σ} {ext : Externals} {o : SenderOptions}
  {holds : Bytes → Prop} {o' : Options}

/-- Nothing is on its way between the plugins. -/
structure System.Idle (s : System Abi σ) : Prop where
  events : s.events = []
  outputs : s.outputs = []
  asyncQueue : s.exporter.asyncQueue = []

/-- **In whichever order the handlers run, with forks at any time: when everything that was
published is handled, and neither side has given up, the last fork was answered and all blocks
but maybe the last one are acknowledged, so a receiver that may be two blocks ahead reads on.** -/
theorem system_caught_up (hlib : libs.Documented holds)
    (hdec : ∀ ctxt, (dec ctxt).YieldsJson holds) (hext : ParsesJson ext holds)
    (hbin : o.useBinHeaders = false) (hwill : o'.exporterWillAck = true) (db : Undo Tables)
    (abieos : σ) (answers : Nat → Option Relic.Rows) (inputs : List SystemInput)
    (hrun : Run.Guarded (System.step lib libs dec ext o) (System.Follows lib libs dec holds)
      (System.start lib ext o o' db abieos answers) inputs) :
    let s := inputs.foldl (System.step lib libs dec ext o)
      (System.start lib ext o o' db abieos answers)
    s.exporter.aborted = false → Alive s.world → s.Idle →
      s.world.proc.forkedAtBlock = 0 ∧ s.world.proc.exporterAckedBlock ≤ s.world.proc.head ∧
        s.world.proc.head ≤ s.world.proc.exporterAckedBlock + 1 ∧
        (2 ≤ o'.exporterMaxUnconfirmed → waitsForAck s.world.options s.world.proc = false) := by
  intro s hnot halive hidle
  have hscan := (o'.ack_scan hwill).1
  obtain ⟨bs, hbs, hrefines⟩ := hrun.simulate
    (fun _ _ _ h hi ↦ System.Refines.step hlib hdec hext hbin h hi)
    (System.refines_start hscan db abieos answers)
  have howes := hrefines hnot
  set l := bs.foldl (Link.relicStep lib) (Link.start lib o' db) with hl
  have hworld : l.world = s.world := howes.world
  have hlower := (Link.alive_run (Link.linked_start lib hscan db) hwill rfl hbs
    (hl ▸ hworld ▸ halive)).2
  have hcaught : l.Caught o' := Link.caught_run lib hscan db hlower
  have hunderway : l.handshake.underway = [] := by
    obtain ⟨exported, hevents, hpending⟩ := howes.events
    rw [System.pending, hidle.asyncQueue, hidle.outputs] at hpending
    rw [hidle.events, List.append_nil] at hevents
    rw [Link.handshake, howes.acks, hevents, hpending]
    rfl
  obtain ⟨hawaited, hhead⟩ :=
    (hcaught.onTrack hwill (hworld ▸ halive.1)).caught_up hunderway
  have hforked : s.world.proc.forkedAtBlock = 0 := hworld ▸ hawaited
  have hlag : l.handshake.lag ≤ 1 := by
    change (if _ then 1 else 0) ≤ 1
    split_ifs <;> decide
  have hhead : s.world.proc.head = s.world.proc.exporterAckedBlock + l.handshake.lag :=
    hworld ▸ hhead
  refine ⟨hforked, by omega, by omega, fun hmax ↦ ?_⟩
  have hoptions : s.world.options = o' := hworld ▸ hcaught.linked.options
  rw [hoptions]
  exact not_waitsForAck hforked (by omega) (by omega) hmax

end Idle

/-- The block was received and not acknowledged, and the receiver does not wait. -/
theorem system_caught_up_block :
    exampleEnd.world.proc.head = 1 ∧ exampleEnd.world.proc.forkedAtBlock = 0 ∧
      waitsForAck exampleEnd.world.options exampleEnd.world.proc = false := by
  obtain ⟨hnot, hhead, hreading, habort, hevents, houtputs, hqueue⟩ := exampleEnd_facts
  have halive : Alive exampleEnd.world := ⟨(running_iff hreading).mpr (by decide), habort⟩
  have hidle : exampleEnd.Idle := ⟨List.isEmpty_iff.mp hevents, List.isEmpty_iff.mp houtputs,
    List.isEmpty_iff.mp hqueue⟩
  have hall := system_caught_up Decoder.exampleLibraries_documented
    (fun _ ↦ Decoder.exampleDecoder_yieldsJson) readerExternals_parsesJson rfl rfl emptyDb ()
    (fun _ ↦ some [["1"]]) exampleInputs exampleInputs_guarded.1
  generalize hend : List.foldl _ _ exampleInputs = s at hall
  obtain rfl : exampleEnd = s := hend
  obtain ⟨hforked, -, -, hwaits⟩ := hall hnot halive hidle
  exact ⟨hhead, hforked, hwaits le_rfl⟩

end Chronicle
