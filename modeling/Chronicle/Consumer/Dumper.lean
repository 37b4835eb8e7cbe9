import Chronicle.Logic.Batched
import Chronicle.Exporter.System
import Chronicle.Exporter.TextProtocol

/-!
# The consumer that acknowledges in batches

`chronicle-ws-dumper.pl` remembers the last block that was completed or forked, and acknowledges
the number below it: after as many blocks as it was told to take together, and whenever the
receiver pauses.  Events reach it in the order in which they were published, and its
acknowledgements go back as text.

It never keeps the receiver waiting: when the receiver pauses and everything has arrived, the
last fork is answered, and all blocks but maybe the last one are acknowledged
(`dumper_lets_read_on`).  The one exception is a pause before the first block or fork: `sprintf`
then writes -1, which the exporter does not take for a number of a block.
-/

namespace Chronicle

open Store Effect

variable {Abi : Type} (lib : Abieos Abi)

/-! ## The consumer -/

/-- `$last_ack` and `$last_block` -/
structure Dumper where
  lastAck : Nat := 0
  lastBlock : Nat := 0

namespace Dumper

/-- `send_ack` -/
def sendAck (d : Dumper) : Dumper × List Int :=
  ({ d with lastAck := d.lastBlock }, [(d.lastBlock : Int) - 1])

/-- The handler of a message: what is sent for it, where `ack` blocks are taken together. -/
def binary (ack : Int) (d : Dumper) : Event → Dumper × List Int
  | .fork f => ({ d with lastBlock := f.blockNum }, [])
  | .blockCompleted b =>
    let d := { d with lastBlock := b.blockNum }
    if ack ≤ (d.lastBlock : Int) - d.lastAck then d.sendAck else (d, [])
  | .receiverPause _ => d.sendAck
  | _ => (d, [])

/-- What is sent for events, one after another. -/
def run (ack : Int) : Dumper → List Event → Dumper × List Int
  | d, [] => (d, [])
  | d, e :: es => ((run ack (d.binary ack e).1 es).1,
      (d.binary ack e).2 ++ (run ack (d.binary ack e).1 es).2)

variable {ack : Int} {d : Dumper}

theorem run_append (es es' : List Event) : d.run ack (es ++ es') =
    (((d.run ack es).1.run ack es').1, (d.run ack es).2 ++ ((d.run ack es).1.run ack es').2) := by
  induction es generalizing d with
  | nil => rfl
  | cons e es ih => rw [List.cons_append, run, ih, run, List.append_assoc]

/-- Nothing is sent for forks, and the last one is remembered. -/
theorem run_forks {b : Nat} {es : List Event}
    (hes : ∀ e ∈ es, ∃ f : ForkEvent, e = .fork f ∧ f.blockNum = b) :
    (d.run ack es).2 = [] ∧ (d.run ack es).1.lastBlock = if es = [] then d.lastBlock else b := by
  induction es generalizing d with
  | nil => exact ⟨rfl, rfl⟩
  | cons e es ih =>
      obtain ⟨f, rfl, hf⟩ := hes _ List.mem_cons_self
      obtain ⟨hnone, hlast⟩ := @ih { d with lastBlock := f.blockNum }
        fun x hx ↦ hes x (List.mem_cons_of_mem _ hx)
      rw [run, binary, List.nil_append, if_neg (List.cons_ne_nil _ _)]
      refine ⟨hnone, hlast.trans ?_⟩
      rw [hf]
      exact ite_self b

theorem run_inside {b : Nat} {es : List Event} (hes : ∀ e ∈ es, e.Inside b) :
    d.run ack es = (d, []) := by
  induction es with
  | nil => rfl
  | cons e es ih =>
      have hone : d.binary ack e = (d, []) := by
        have he := hes e List.mem_cons_self
        cases e with
        | fork _ | receiverPause _ | blockCompleted _ => cases he
        | _ => rfl
      rw [run, hone, ih fun x hx ↦ hes x (List.mem_cons_of_mem _ hx)]
      rfl

/-- No number below -1 is sent. -/
theorem neg_one_le_of_sent {e : Event} {n : Int} (hn : n ∈ (d.binary ack e).2) : -1 ≤ n := by
  have hsent : ∀ {d : Dumper}, n ∈ d.sendAck.2 → -1 ≤ n := by
    intro d hn
    rw [List.mem_singleton.mp hn]
    omega
  cases e with
  | blockCompleted b =>
      rw [binary] at hn
      split_ifs at hn
      · exact hsent hn
      · cases hn
  | receiverPause p => exact hsent hn
  | _ => cases hn

end Dumper

/-! ## The text of an acknowledgement -/

/-- `sprintf("%d", …)` -/
def ackText (n : Int) : Msgbuf := utf8Bytes (toString n)

/-- The characters of the digits of a number. -/
theorem text_digits (n : Nat) : text (utf8Bytes (toString n)) = (toString n).toList := by
  rw [utf8Bytes_toString, text, JsonText.ascii, List.map_map]
  have hback : ∀ c ∈ (toString n).toList,
      ((fun b : UInt8 ↦ Char.ofNat b.toNat) ∘ Char.toUInt8) c = id c := by
    intro c hc
    have hle : c.toNat ≤ 57 := (Char.isDigit_iff_toNat.mp (isDigit_toString n c hc)).2
    change Char.ofNat (c.toNat % 2 ^ 8) = c
    rw [Nat.mod_eq_of_lt (hle.trans_lt (by decide)), Char.ofNat_toNat]
  exact (List.map_congr_left hback).trans (List.map_id _)

theorem readAck_ackText {n : Int} {k : Nat} (hn : -1 ≤ n) (h : readAck (ackText n) = .ok k) :
    (k : Int) = n := by
  rcases hn.lt_or_eq with hlt | rfl
  · obtain ⟨m, rfl⟩ := Int.eq_ofNat_of_zero_le (show 0 ≤ n by omega)
    have htext : text (ackText (m : Int)) = (toString m).toList := text_digits m
    have hstoul : Relic.stoul (toString m) = some k := by
      rw [readAck, htext, readNumber, String.ofList_toList] at h
      cases hs : Relic.stoul (toString m) with
      | none =>
          rw [hs] at h
          cases h
      | some j =>
          rw [hs] at h
          change (if _ then _ else _) = _ at h
          split_ifs at h
          exact congrArg some (Except.ok.inj h)
    by_cases hlarge : m < 2 ^ 64
    · rw [Relic.stoul_toString hlarge] at hstoul
      rw [Option.some.inj hstoul]
    · rw [Relic.stoul, Relic.signedPart_toString] at hstoul
      dsimp only at hstoul
      rw [if_pos (not_lt.mp hlarge)] at hstoul
      cases hstoul
  · have hbad : (readAck (ackText (-1))).isOk = false := by decide +kernel
    rw [h] at hbad
    cases hbad

/-! ## The receiver and the consumer -/

/-- The receiver as a sender, with a consumer that has handled all of its events. -/
def sender (w : World Abi) (d : Dumper) (told : Bool) (underway : List Int) : Batched :=
  { head := w.proc.head, acked := w.proc.exporterAckedBlock, awaited := w.proc.forkedAtBlock,
    underway := underway, last := d.lastBlock - 1, told := told }

/-- A receiver and the consumer. -/
structure DumperLink (Abi : Type) where
  world : World Abi
  /-- The events on their way to the consumer. -/
  events : List Event
  dumper : Dumper := {}
  /-- The acknowledgements on their way back. -/
  acks : List Msgbuf := []
  /-- The exporter has read an acknowledgement that is none. -/
  thrown : Bool := false

namespace DumperLink

/-- What happens to a link. -/
def step (ack : Int) (s : DumperLink Abi) : LinkInput → DumperLink Abi
  | .receiver i =>
    { s with
      world := exec lib s.world i
      events := s.events ++ newEvents s.world (exec lib s.world i) }
  | .consume =>
    match s.events with
    | [] => s
    | e :: es =>
      { s with
        events := es
        dumper := (s.dumper.binary ack e).1
        acks := s.acks ++ (s.dumper.binary ack e).2.map ackText }
  | .deliver =>
    match s.acks with
    | [] => s
    | data :: rest =>
      match readAck data with
      | .ok n => { s with world := exec lib s.world (.ack n), acks := rest }
      | .error _ => { s with acks := rest, thrown := true }

/-- A process has started on a database. -/
def start (o : Options) (db : Undo Tables) : DumperLink Abi :=
  { world := (Link.start lib o db).world, events := (Link.start lib o db).events }

/-- The receiver reads the block above its head, or a block that replaces one it has. -/
def Follows (s : DumperLink Abi) : LinkInput → Prop
  | .receiver i => i.InTurn ∧ FollowsHead 0 s.world i
  | .consume | .deliver => True

/-- What a link is as a sender whose numbers are answered in batches, with some numbers on their
way back. -/
def batched (ack : Int) (s : DumperLink Abi) (ns : List Int) : Batched :=
  sender s.world (s.dumper.run ack s.events).1 (s.world.proc.continuation = .paused)
    (ns ++ (s.dumper.run ack s.events).2)

/-- The acknowledgements will do while the link is alive. -/
structure Answered (ack : Int) (s : DumperLink Abi) (ns : List Int) : Prop where
  sound : (s.batched ack ns).Sound
  reading : s.world.proc.continuation = .reading → s.world.proc.forkedAtBlock = 0
  handshake : s.world.proc.continuation = .handshake → (s.batched ack ns).underway = []

/-- What is kept while a link runs. -/
structure InHand (ack : Int) (o : Options) (s : DumperLink Abi) (ns : List Int) : Prop where
  options : s.world.options = o
  scanning : Scanning s.world
  acks : s.acks = ns.map ackText
  numbers : ∀ n ∈ ns, -1 ≤ n
  answered : s.thrown = false → Alive s.world → Answered ack s ns

end DumperLink

/-! ## Inputs of the receiver -/

section Inputs

variable {w w₁ w' : World Abi}

/-- Where the reader goes on, and where that brings the head and the acknowledgements. -/
structure Checks (w : World Abi) (w₁ : World Abi) (es : List Event) : Prop where
  log : published w₁.log = published w.log ++ es
  shows : Shows w w₁ es
  continuation : w₁.proc.continuation = w.proc.continuation
  options : w₁.options = w.options
  block : es ≠ [] → w.proc.continuation = .reading

/-- An input that shows nothing. -/
theorem Checks.still (hlog : published w₁.log = published w.log)
    (hflow : w₁.proc.flow = w.proc.flow)
    (hcont : w₁.proc.continuation = w.proc.continuation) (hopt : w₁.options = w.options) :
    Checks w w₁ [] := by
  simp only [Proc.flow, Prod.mk.injEq] at hflow
  obtain ⟨hhead, -, -, hacks⟩ := hflow
  exact ⟨by rw [hlog, List.append_nil], .still (List.forall_mem_nil _) hhead hacks, hcont, hopt,
    fun h ↦ absurd rfl h⟩

/-- An error stops the reader. -/
theorem not_running_of_error {m : Receiver Abi Unit} {e : Abort} (hm : m w = .error e w₁) :
    ¬ Running (catchAndClose m w) := by
  intro hrun
  rw [catchAndClose, hm] at hrun
  cases e with
  | exception what => exact hrun.1 rfl
  | hang => exact hrun.2 rfl
  | undefinedBehaviour => exact hrun.2 rfl

/-- A message that does not stop the reader brings it to the check. -/
theorem receive_checks {bin : Parsed GetBlocksResult} {queueSize : Nat} (hscan : Scanning w)
    (hread : w.proc.continuation = .reading)
    (hfollows : FollowsHead 0 w (.receive bin queueSize))
    (hrun : Running (exec lib w (.receive bin queueSize))) :
    ∃ w₁ es, Checks w w₁ es ∧ exec lib w (.receive bin queueSize) = w₁.readOn queueSize := by
  have hexec : exec lib w (.receive bin queueSize) =
      catchAndClose (receiveMessage lib bin queueSize) w := by
    rw [exec, handle, if_pos hread]
  rw [hexec] at hrun ⊢
  cases bin with
  | error what =>
      exact absurd hrun (not_running_of_error (receiveMessage_error lib what queueSize w))
  | ok result =>
      cases hblock : result.thisBlock with
      | none =>
          refine ⟨w, [], .still rfl rfl rfl rfl, ?_⟩
          rw [catchAndClose, receiveMessage_noBlock lib hblock]
      | some block =>
          have hcases := receiveResult_cases lib hscan.mode hscan.cached hblock
          cases hr : receiveResult lib (.ok result) w with
          | error e w₂ =>
              have hmessage : receiveMessage lib (.ok result) queueSize w = .error e w₂ :=
                bind_run_error hr
              exact absurd hrun (not_running_of_error hmessage)
          | ok goOn w₂ =>
              have hmessage : receiveMessage lib (.ok result) queueSize w =
                  (if goOn then continueRead queueSize
                    else modifyProc fun p ↦ { p with continuation := .closed } :
                      Receiver Abi Unit) w₂ := bind_run hr
              rw [catchAndClose, hmessage] at hrun ⊢
              rw [hr] at hcases
              cases hcases with
              | completed haccept hprocess =>
                  cases habort : w₂.proc.aborting with
                  | true =>
                      rw [habort] at hrun
                      exact absurd rfl hrun.1
                  | false =>
                      obtain ⟨hopt, hcont, -⟩ := receiveResult_frame lib hscan hr
                      have hd := delivered_receive queueSize hblock hread
                      obtain ⟨es, hlog, hshows, -⟩ := shows_completed (w := w.counted)
                        hscan.cached haccept hprocess
                        ((hfollows _ hd).imp_right fun h ↦ ⟨h.1, h.2.1⟩)
                      refine ⟨w₂, es, ⟨hlog, hshows.of_counted, hcont, hopt, fun _ ↦ hread⟩, ?_⟩
                      rw [Bool.not_false, if_pos rfl, continueRead_readOn]

/-- What an input does to the reader: nothing, or it comes to the check that decides whether it
goes on. -/
theorem exec_checks {i : Input} (hscan : Scanning w) (hturn : i.InTurn)
    (hfollows : FollowsHead 0 w i) (hrun : Running (exec lib w i)) :
    (published (exec lib w i).log = published w.log ∧ (exec lib w i).proc.flow = w.proc.flow ∧
      (exec lib w i).proc.continuation = w.proc.continuation) ∨
    ∃ w₁ es queueSize, Checks w w₁ es ∧ exec lib w i = w₁.readOn queueSize := by
  have hsame : ∀ {w' : World Abi}, w' = w → published w'.log = published w.log ∧
      w'.proc.flow = w.proc.flow ∧ w'.proc.continuation = w.proc.continuation := by
    rintro _ rfl
    exact ⟨rfl, rfl, rfl⟩
  cases i with
  | start _ | ack _ => exact hturn.elim
  | ready queueSize =>
      by_cases hcont : w.proc.continuation = .handshake
      · have hpublished : published w.asking.log = published w.log :=
          (published_append _ _).trans (List.append_nil _)
        refine .inr ⟨w.asking, [], queueSize, .still hpublished rfl rfl rfl, ?_⟩
        rw [exec, handle, if_pos hcont, catchAndClose, receiveAbi_asking queueSize hscan.mode]
      · exact .inl (hsame (by rw [exec, handle, if_neg hcont]))
  | timer queueSize =>
      by_cases hcont : w.proc.continuation = .paused
      · refine .inr ⟨w, [], queueSize, .still rfl rfl rfl rfl, ?_⟩
        rw [exec, handle, if_pos hcont, catchAndClose, continueRead_readOn]
      · exact .inl (hsame (by rw [exec, handle, if_neg hcont]))
  | slowdown pause =>
      refine .inl ?_
      rw [exec, handleAny]
      split_ifs
      · exact ⟨rfl, rfl, rfl⟩
      · exact ⟨rfl, rfl, rfl⟩
  | stale =>
      refine .inl ?_
      rw [exec, handleAny]
      split_ifs
      · exact ⟨rfl, rfl, rfl⟩
      · rw [catchAndClose, checkStaleHead_run, Proc.staleChecked]
        split_ifs <;> exact ⟨rfl, rfl, rfl⟩
  | decode account =>
      refine .inl ?_
      by_cases hhung : w.proc.continuation = .hung
      · exact hsame (by rw [exec, handleAny, if_pos hhung])
      · rw [exec_decode lib hscan.cached hhung]
        have hcore := w.proc.load_core lib account (w.lookupAbi account)
        exact ⟨published_decoded account, Proc.member_eq hcore Proc.flow fun _ ↦ rfl,
          continuation_decoded account⟩
  | request _ | scanner _ =>
      exact .inl (hsame (by rw [exec, hscan.mode, if_neg Bool.false_ne_true]))
  | receive bin queueSize =>
      by_cases hread : w.proc.continuation = .reading
      · obtain ⟨w₁, es, hchecks, hexec⟩ := receive_checks lib hscan hread hfollows hrun
        exact .inr ⟨w₁, es, queueSize, hchecks, hexec⟩
      · exact .inl (hsame (by rw [exec, handle, if_neg hread]))

end Inputs

/-! ## What the events of an input are answered with -/

section Sound

variable {w w₁ : World Abi} {d : Dumper} {told : Bool} {l : List Int} {ack : Int}
  {es : List Event}

theorem sound_still (hes : ∀ e ∈ es, e.Still) (h : (sender w d false l).Sound) :
    (sender w (d.run ack es).1 false (l ++ (d.run ack es).2)).Sound := by
  induction es generalizing d l with
  | nil =>
      rw [Dumper.run, List.append_nil]
      exact h
  | cons e es ih =>
      cases e with
      | receiverPause p =>
          have hpaused : (sender w d.sendAck.1 false (l ++ d.sendAck.2)).Sound := h.pause.untold
          rw [Dumper.run, ← List.append_assoc]
          exact ih (fun x hx ↦ hes x (List.mem_cons_of_mem _ hx)) hpaused
      | _ => exact (hes _ List.mem_cons_self).elim

theorem Dumper.binary_blockCompleted (ack : Int) (d : Dumper) (e : BlockFinished) :
    ∃ answered : Bool, (d.binary ack (.blockCompleted e)).1.lastBlock = e.blockNum ∧
      (d.binary ack (.blockCompleted e)).2 =
        if answered then [(e.blockNum : Int) - 1] else [] := by
  by_cases hack : ack ≤ (e.blockNum : Int) - d.lastAck
  · refine ⟨true, ?_⟩
    rw [Dumper.binary, if_pos hack]
    exact ⟨rfl, rfl⟩
  · refine ⟨false, ?_⟩
    rw [Dumper.binary, if_neg hack]
    exact ⟨rfl, rfl⟩

theorem sound_completed {e : BlockFinished} {inside rest : List Event}
    (hinside : ∀ x ∈ inside, x.Inside e.blockNum) (hrest : ∀ x ∈ rest, x.Still)
    (h : ∀ (d' : Dumper) (answered : Bool), d'.lastBlock = e.blockNum →
      (sender w d' false (l ++ if answered then [(e.blockNum : Int) - 1] else [])).Sound) :
    (sender w (d.run ack (inside ++ .blockCompleted e :: rest)).1 false
      (l ++ (d.run ack (inside ++ .blockCompleted e :: rest)).2)).Sound := by
  obtain ⟨answered, hlast, hsent⟩ := Dumper.binary_blockCompleted ack d e
  rw [Dumper.run_append, Dumper.run_inside hinside, List.nil_append, Dumper.run, hsent,
    ← List.append_assoc]
  exact sound_still hrest (h _ answered hlast)

/-- What the reader shows is answered soundly. -/
theorem sound_shows (ack : Int) (hwill : w.options.exporterWillAck = true)
    (hread : es ≠ [] → w.proc.forkedAtBlock = 0) (hshows : Shows w w₁ es)
    (h : (sender w d told l).Sound) :
    (sender w₁ (d.run ack es).1 false (l ++ (d.run ack es).2)).Sound := by
  cases hshows with
  | still hes hhead hacks =>
      have hsame : (sender w₁ d false l).Sound := by
        rw [sender, hhead, hacks.1, hacks.2]
        exact h.untold
      exact sound_still hes hsame
  | @next inside rest e hinside hrest hnum hhead hacks =>
      have hzero : w.proc.forkedAtBlock = 0 := hread (by simp)
      refine sound_completed hinside hrest fun d' answered hlast ↦ ?_
      have hadvance : Batched.Sound _ := h.advance hzero answered
      have hcast : (e.blockNum : Int) - 1 = w.proc.head := by omega
      rw [sender, hhead, hacks.1, hacks.2, hlast, hcast, hnum]
      exact hadvance
  | @fork inside rest e f _ hfork hinside hrest hpos hle hhead hclip =>
      have hacked := hclip.1
      rw [hwill, if_pos rfl] at hacked
      rw [List.cons_append, Dumper.run, Dumper.binary, List.nil_append]
      refine sound_completed hinside hrest fun d' answered hlast ↦ ?_
      have hrewind := Batched.Sound.rewind (sender w d told l) hpos answered
      rw [sender, hhead, hacked, hclip.2, hlast]
      exact hrewind

/-- What the check adds to that, if the reader has not stopped. -/
theorem sound_readOn (ack : Int) {queueSize : Nat} (hwill : w.options.exporterWillAck = true)
    (halive : Alive (w.readOn queueSize)) (h : (sender w d false l).Sound) :
    ∃ more, published (w.readOn queueSize).log = published w.log ++ more ∧
      (sender (w.readOn queueSize) (d.run ack more).1
        ((w.readOn queueSize).proc.continuation = .paused) (l ++ (d.run ack more).2)).Sound ∧
      ((w.readOn queueSize).proc.continuation = .reading →
        (w.readOn queueSize).proc.forkedAtBlock = 0) ∧
      (w.readOn queueSize).proc.continuation ≠ .handshake := by
  rw [World.readOn] at halive ⊢
  split_ifs at halive ⊢ with hpause hend
  · exact absurd rfl halive.1.1
  · refine ⟨[.receiverPause
      { head := w.proc.head, acknowledged := w.proc.exporterAckedBlock }],
      ?_, ?_, fun hc ↦ ?_, fun hc ↦ ?_⟩
    · exact published_append _ _
    · exact h.pause
    · cases hc
    · cases hc
  · have habort : w.proc.aborting = false := halive.2
    have hcont : w.continued.proc.continuation = .reading := by
      rw [World.continued, habort]
      rfl
    have hzero : w.proc.forkedAtBlock = 0 := by
      rw [mustPause, waitsForAck, hwill] at hpause
      by_contra hne
      refine hpause ?_
      rw [decide_eq_true (Nat.pos_of_ne_zero hne)]
      simp
    refine ⟨[], (List.append_nil _).symm, ?_, fun _ ↦ hzero, ?_⟩
    · rw [hcont, Dumper.run, List.append_nil]
      exact h
    · rw [hcont]
      decide

end Sound

/-! ## Steps -/

/-- What an acknowledgement does to the sender. -/
theorem sender_ackedBy (w : World Abi) (d : Dumper) (told : Bool) (l l' : List Int) (n : Nat) :
    sender { w with proc := w.proc.ackedBy n } d told l' =
      { (sender w d told l).answer n with underway := l' } := by
  rw [sender, Batched.answer, Proc.ackedBy]
  change _ = { if 0 < w.proc.forkedAtBlock then
      if w.proc.forkedAtBlock - 1 < n then sender w d told l
      else if n = w.proc.forkedAtBlock - 1 then
        { sender w d told l with awaited := 0, acked := n }
      else { sender w d told l with acked := n }
    else if n < w.proc.exporterAckedBlock then sender w d told l
    else { sender w d told l with acked := n } with underway := l' }
  split_ifs <;> rfl

namespace DumperLink

section Steps

variable {s : DumperLink Abi} {ns : List Int} {ack : Int} {o : Options}

/-- Something happens to the receiver. -/
theorem InHand.receiver {i : Input} (h : s.InHand ack o ns) (hwill : o.exporterWillAck = true)
    (hturn : i.InTurn) (hfollows : FollowsHead 0 s.world i) :
    (s.step lib ack (.receiver i)).InHand ack o ns := by
  have hscan : ScanInput i := hturn.noStart.scanInput
  refine ⟨(exec_options lib h.scanning hscan).trans ?_, h.scanning.exec lib hscan, h.acks,
    h.numbers, fun hthrown halive ↦ ?_⟩
  · cases i with
    | start o => exact hturn.elim
    | _ => exact h.options
  have halive : Alive (exec lib s.world i) := halive
  obtain ⟨hrun, -⟩ := exec_shows lib h.scanning hturn hfollows halive.1
  have hbefore : Alive s.world :=
    ⟨hrun, not_aborting_exec h.scanning hturn.noStart halive.2⟩
  obtain ⟨hsound, hreading, hhandshake⟩ := h.answered hthrown hbefore
  rcases exec_checks lib h.scanning hturn hfollows halive.1 with
    ⟨hlog, hflow, hcont⟩ | ⟨w₁, es, queueSize, hchecks, hexec⟩
  · have hevents : newEvents s.world (exec lib s.world i) = [] :=
      newEvents_eq (by rw [hlog, List.append_nil])
    simp only [Proc.flow, Prod.mk.injEq] at hflow
    obtain ⟨hhead, -, -, hacked, hforked⟩ := hflow
    have hsame : (s.step lib ack (.receiver i)).batched ack ns = s.batched ack ns := by
      simp only [step, batched, sender, hevents, List.append_nil, hhead, hacked, hforked, hcont]
    refine ⟨hsame ▸ hsound, fun hc ↦ hforked.trans (hreading (hcont.symm.trans hc)), fun hc ↦ ?_⟩
    rw [hsame]
    exact hhandshake (hcont.symm.trans hc)
  · have hwill₀ : s.world.options.exporterWillAck = true := h.options ▸ hwill
    have hwill₁ : w₁.options.exporterWillAck = true := hchecks.options ▸ hwill₀
    have hshown := sound_shows ack hwill₀ (fun hne ↦ hreading (hchecks.block hne))
      hchecks.shows hsound
    obtain ⟨more, hmore, hsound', hreading', hne⟩ :=
      sound_readOn ack hwill₁ (hexec ▸ halive) hshown
    have hevents : newEvents s.world (exec lib s.world i) = es ++ more := by
      refine newEvents_eq ?_
      rw [hexec, hmore, hchecks.log, List.append_assoc]
    rw [← hexec] at hsound' hreading' hne
    refine ⟨?_, hreading', fun hc ↦ absurd hc hne⟩
    simp only [step, batched, hevents, Dumper.run_append, List.append_assoc] at hsound' ⊢
    exact hsound'

/-- The consumer handles the next event. -/
theorem InHand.consume (h : s.InHand ack o ns) :
    ∃ ns', (s.step lib ack .consume).InHand ack o ns' := by
  rw [step]
  cases hevents : s.events with
  | nil => exact ⟨ns, h⟩
  | cons e es =>
      refine ⟨ns ++ (s.dumper.binary ack e).2, h.options, h.scanning, ?_, fun n hn ↦ ?_,
        fun hthrown halive ↦ ?_⟩
      · rw [List.map_append, ← h.acks]
      · rcases List.mem_append.mp hn with hn | hn
        · exact h.numbers n hn
        · exact Dumper.neg_one_le_of_sent hn
      · obtain ⟨hsound, hreading, hhandshake⟩ := h.answered hthrown halive
        simp only [batched, hevents, Dumper.run] at hsound hhandshake
        refine ⟨?_, hreading, fun hc ↦ ?_⟩
        · simp only [batched, List.append_assoc]
          exact hsound
        · simp only [batched, List.append_assoc]
          exact hhandshake hc

/-- The next acknowledgement arrives. -/
theorem InHand.deliver (h : s.InHand ack o ns) (hwill : o.exporterWillAck = true) :
    ∃ ns', (s.step lib ack .deliver).InHand ack o ns' := by
  cases ns with
  | nil =>
      rw [step, h.acks]
      exact ⟨[], h⟩
  | cons n ns =>
      refine ⟨ns, ?_⟩
      have hacks : s.acks = ackText n :: ns.map ackText := h.acks
      have hnumbers : ∀ k ∈ ns, -1 ≤ k := fun k hk ↦ h.numbers k (List.mem_cons_of_mem _ hk)
      cases hread : readAck (ackText n) with
      | error what =>
          have hstep : s.step lib ack .deliver =
              { s with acks := ns.map ackText, thrown := true } := by
            rw [step, hacks]
            simp only [hread]
          rw [hstep]
          exact ⟨h.options, h.scanning, rfl, hnumbers, fun hthrown ↦ Bool.noConfusion hthrown⟩
      | ok k =>
          have hstep : s.step lib ack .deliver =
              { s with world := exec lib s.world (.ack k), acks := ns.map ackText } := by
            rw [step, hacks]
            simp only [hread]
          have hk : (k : Int) = n := readAck_ackText (h.numbers n List.mem_cons_self) hread
          have hscan : ScanInput (.ack k) := trivial
          rw [hstep]
          refine ⟨(exec_options lib h.scanning hscan).trans h.options, h.scanning.exec lib hscan,
            rfl, hnumbers, fun hthrown halive ↦ ?_⟩
          have hwill : s.world.options.exporterWillAck = true := h.options ▸ hwill
          obtain ⟨hbefore, hworld, haccepts⟩ := alive_ack h.scanning hwill halive
          obtain ⟨hsound, hreading, hhandshake⟩ := h.answered hthrown hbefore
          have hunderway : (s.batched ack (n :: ns)).underway =
              (k : Int) :: (ns ++ (s.dumper.run ack s.events).2) := by rw [hk]; rfl
          have hnone : s.world.proc.forkedAtBlock = 0 ∨
              (s.batched ack (n :: ns)).told = true := by
            cases hcont : s.world.proc.continuation with
            | handshake => rw [hhandshake hcont] at hunderway; cases hunderway
            | reading => exact .inl (hreading hcont)
            | paused => exact .inr (decide_eq_true hcont)
            | closed => exact absurd hcont hbefore.1.1
            | hung => exact absurd hcont hbefore.1.2
          have hanswer := hsound.answer hunderway haccepts hnone
          have hcont : (s.world.proc.ackedBy k).continuation = s.world.proc.continuation := by
            rw [Proc.ackedBy]
            split_ifs <;> rfl
          have hsame : ({ s with world := exec lib s.world (.ack k), acks := ns.map ackText }
              : DumperLink Abi).batched ack ns =
              { (s.batched ack (n :: ns)).answer k with
                underway := ns ++ (s.dumper.run ack s.events).2 } := by
            rw [batched, hworld]
            simp only [hcont]
            exact sender_ackedBy s.world _ _ _ _ k
          refine ⟨hsame ▸ hanswer, fun hc ↦ ?_, fun hc ↦ ?_⟩
          · rw [hworld] at hc ⊢
            have hzero := hreading (hcont.symm.trans hc)
            change (s.world.proc.ackedBy k).forkedAtBlock = 0
            rw [Proc.ackedBy, if_neg (by omega)]
            split_ifs <;> exact hzero
          · rw [hworld] at hc
            rw [hhandshake (hcont.symm.trans hc)] at hunderway
            cases hunderway

/-- A step of a link. -/
theorem InHand.step {i : LinkInput} (h : s.InHand ack o ns) (hwill : o.exporterWillAck = true)
    (hfollows : s.Follows i) : ∃ ns', (s.step lib ack i).InHand ack o ns' := by
  cases i with
  | receiver i => exact ⟨ns, h.receiver lib hwill hfollows.1 hfollows.2⟩
  | consume => exact h.consume lib
  | deliver => exact h.deliver lib hwill

end Steps

/-! ## The start -/

/-- A process that runs after its start waits for the first message of the stream. -/
theorem handshake_of_start {o : Options} (hscan : o.interactiveMode = false) {w : World Abi}
    (hrun : Running (exec lib w (.start o))) :
    (exec lib w (.start o)).proc.continuation = .handshake := by
  have hstart := startReceiver_run o w.db w.log
  rw [hscan, Bool.not_false, if_pos rfl] at hstart
  change Running (catchAndClose startReceiver (bootWorld o w.db w.log)) at hrun
  change (catchAndClose startReceiver (bootWorld o w.db w.log)).proc.continuation = _
  rw [catchAndClose, hstart] at hrun ⊢
  by_cases hok : w.db.undoAll.current.state = none ∨ o.startBlockNum = 0
  · have hcont : (loadedWorld o w).proc.continuation = .handshake := by
      rw [loadedWorld]
      split_ifs <;> rfl
    have hfinish := finishLoadState_run (loadedWorld_spec o w).1
    by_cases hend : (loadedWorld o w).proc.endBlockNum ≤ (loadedWorld o w).proc.head
    · rw [if_pos hend] at hfinish
      rw [bind_run_error ((loadState_run hok).trans hfinish)] at hrun
      exact absurd rfl hrun.1
    · rw [if_neg hend] at hfinish
      rw [bind_run ((loadState_run hok).trans hfinish)]
      change ((loadedWorld o w).proc.ackedHead o).continuation = _
      rw [Proc.ackedHead]
      split_ifs <;> exact hcont
  · push Not at hok
    obtain ⟨s, hs⟩ := Option.ne_none_iff_exists'.mp hok.1
    have hpos : 0 < (bootWorld o w.db w.log : World Abi).options.startBlockNum :=
      Nat.pos_of_ne_zero hok.2
    have hload := loadHead_some (w := { bootWorld o w.db w.log with db := w.db.undoAll }) hs
    rw [if_pos hpos] at hload
    obtain ⟨what, w', hstopped⟩ : ∃ what w',
        loadState (bootWorld o w.db w.log) = .error (.exception what) w' :=
      ⟨_, _, (bind_run rfl).trans (bind_run_error hload)⟩
    rw [bind_run_error hstopped] at hrun
    exact absurd rfl hrun.1

/-- A link that has started. -/
theorem inHand_start {o : Options} (hscan : o.interactiveMode = false)
    (hwill : o.exporterWillAck = true) (ack : Int) (db : Undo Tables) :
    (start lib o db).InHand ack o [] := by
  obtain ⟨hoptions, hscanning⟩ := Link.linked_start lib (o := o) hscan db
  refine ⟨hoptions, hscanning, rfl, List.forall_mem_nil _, fun _ halive ↦ ?_⟩
  have hrun : Running (Link.start lib o db).world := halive.1
  obtain ⟨hloaded, hevents⟩ := Link.loaded_start lib hscan hrun
  have hcont : (start lib o db).world.proc.continuation = .handshake :=
    handshake_of_start lib hscan hrun
  have hhead : (start lib o db).world.proc.head = (startPosition o db.undoAll.current).head :=
    congrArg StateObject.head hloaded.position
  have hacked : (start lib o db).world.proc.exporterAckedBlock =
      (start lib o db).world.proc.head := by
    have h := hloaded.acked
    rwa [hwill, if_pos rfl] at h
  have hforked : (start lib o db).world.proc.forkedAtBlock =
      if (start lib o db).events = [] then 0 else (start lib o db).world.proc.head + 1 :=
    Link.forked_start lib hscan hrun
  have hforks := (published_startForks Abi o db).1
  rw [← hevents] at hforks
  have hsent := @Dumper.run_forks ack {} _ _ hforks
  have hunderway : ((start lib o db).batched ack []).underway = [] := hsent.1
  refine ⟨?_, fun hc ↦ absurd (hcont.symm.trans hc) (by decide), fun _ ↦ hunderway⟩
  have htold : ((start lib o db).batched ack []).told = false := by
    change decide (_ = _) = false
    rw [hcont]
    rfl
  cases hstarted : (start lib o db).events with
  | nil =>
      have hzero : (start lib o db).world.proc.forkedAtBlock = 0 := hforked.trans (if_pos hstarted)
      refine .fresh htold hunderway hzero ?_ hacked.symm
      change (((({} : Dumper).run ack (start lib o db).events).1.lastBlock : Nat) : Int) - 1 < 0
      rw [hstarted]
      exact neg_one_lt_zero
  | cons e es =>
      have hne : (start lib o db).events ≠ [] := hstarted ▸ List.cons_ne_nil e es
      have hlast : ((start lib o db).batched ack []).last = (start lib o db).world.proc.head := by
        change (((({} : Dumper).run ack (start lib o db).events).1.lastBlock : Nat) : Int) - 1 = _
        have hnum := hsent.2.trans (if_neg hne)
        change ((({} : Dumper).run ack (start lib o db).events).1.lastBlock : Nat) = _ at hnum
        rw [hnum, hhead]
        omega
      rw [if_neg hne] at hforked
      have hpos : 0 < (start lib o db).world.proc.forkedAtBlock := by omega
      have hawaited : ((start lib o db).world.proc.forkedAtBlock : Int) =
          ((start lib o db).batched ack []).last + 1 := by omega
      exact .awaiting htold hpos hawaited (.inl hlast)

end DumperLink

/-- **A consumer that acknowledges in batches never keeps the receiver waiting: when it pauses
and everything has arrived, the last fork is answered, and all blocks but maybe the last one are
acknowledged.** -/
theorem dumper_lets_read_on (ack : Int) {o : Options} (hwill : o.exporterWillAck = true)
    (db : Undo Tables) (inputs : List LinkInput)
    (hrun : Run.Guarded (DumperLink.step lib ack) DumperLink.Follows (DumperLink.start lib o db)
      inputs) :
    let s := inputs.foldl (DumperLink.step lib ack) (DumperLink.start lib o db)
    s.thrown = false → Alive s.world → s.events = [] → s.acks = [] →
    s.world.proc.continuation = .paused →
      s.world.proc.forkedAtBlock = 0 ∧ s.world.proc.exporterAckedBlock ≤ s.world.proc.head ∧
      s.world.proc.head ≤ s.world.proc.exporterAckedBlock + 1 ∧
      (2 ≤ o.exporterMaxUnconfirmed → waitsForAck s.world.options s.world.proc = false) := by
  intro s hthrown halive hevents hacks hpaused
  obtain ⟨ns, hkept⟩ : ∃ ns, s.InHand ack o ns := by
    refine hrun.invariant (I := fun s ↦ ∃ ns, s.InHand ack o ns) ?_
      ⟨[], DumperLink.inHand_start lib (o.ack_scan hwill).1 hwill ack db⟩
    rintro s i ⟨ns, h⟩ hfollows
    exact h.step lib hwill hfollows
  obtain rfl : ns = [] := List.map_eq_nil_iff.mp (hkept.acks.symm.trans hacks)
  obtain ⟨hsound, -, -⟩ := hkept.answered hthrown halive
  have hnone : (s.batched ack []).underway = [] := by
    rw [DumperLink.batched, hevents]
    rfl
  obtain ⟨hforked, hhead⟩ := hsound.caught_up hnone (decide_eq_true hpaused)
  have hforked : s.world.proc.forkedAtBlock = 0 := hforked
  have hhead : s.world.proc.head = s.world.proc.exporterAckedBlock ∨
      s.world.proc.head = s.world.proc.exporterAckedBlock + 1 := hhead
  refine ⟨hforked, by omega, by omega, fun hmax ↦ ?_⟩
  rw [hkept.options]
  exact not_waitsForAck hforked (by omega) (by omega) hmax

/-- Two blocks, of which the consumer would take a hundred together. -/
def dumperInputs : List LinkInput :=
  [.receiver (.ready 0)] ++ List.replicate 2 .consume ++ [.deliver, .receiver (.timer 0),
    .receiver (.receive (.ok (bareResult ⟨1, 1⟩ 0 0)) 0),
    .receiver (.receive (.ok (bareResult ⟨2, 2⟩ 1 0)) 0)] ++ List.replicate 8 .consume ++ [.deliver]

/-- The link after that. -/
def dumperEnd : DumperLink Unit :=
  dumperInputs.foldl (DumperLink.step .lenient 100) (DumperLink.start .lenient
    { exporterWillAck := true, exporterMaxUnconfirmed := 2 } emptyDb)

instance (s : DumperLink Unit) : (i : LinkInput) → Decidable (s.Follows i)
  | .receiver i => inferInstanceAs (Decidable (i.InTurn ∧ FollowsHead 0 s.world i))
  | .consume | .deliver => .isTrue trivial

set_option maxRecDepth 10000 in
theorem dumper_lets_read_on_two : dumperEnd.world.proc.head = 2 ∧
    waitsForAck dumperEnd.world.options dumperEnd.world.proc = false := by
  have hrun : Run.Guarded (DumperLink.step .lenient 100) DumperLink.Follows
      (DumperLink.start .lenient { exporterWillAck := true, exporterMaxUnconfirmed := 2 } emptyDb)
      dumperInputs := by
    decide +kernel
  have hend : dumperEnd.thrown = false ∧
      (Running dumperEnd.world ∧ dumperEnd.world.proc.aborting = false) ∧
      dumperEnd.events.length = 0 ∧ dumperEnd.acks.length = 0 ∧
      dumperEnd.world.proc.continuation = .paused ∧ dumperEnd.world.proc.head = 2 := by
    decide +kernel
  obtain ⟨hthrown, halive, hevents, hacks, hpaused, hhead⟩ := hend
  have hall := dumper_lets_read_on .lenient 100 rfl emptyDb dumperInputs hrun hthrown halive
    (List.eq_nil_of_length_eq_zero hevents) (List.eq_nil_of_length_eq_zero hacks) hpaused
  exact ⟨hhead, hall.2.2.2 le_rfl⟩

end Chronicle
