import Chronicle.Consumer.Republish
import Chronicle.Exporter.System

/-!
# The receiver, the decoder and the websocket exporter

The websocket exporter puts each text of the decoder into a message, and writes one message
after another to its consumer.  The messages are in JSON, or have a binary header; the consumer
finds in them what was put into them.

So the consumer is told the events that the receiver has published, in order and each once, until
the connection fails, in whichever order the handlers of the plugins run (`ws_delivers`).
-/

namespace Chronicle

open JsonText (Denotes)
open Decoder (AbiDecoder Detail Libraries TellsBlock Outputs onEvent exportType? blockNum?)
open Store Effect

/-! ## What the consumer reads -/

/-- How a message says what is in it. -/
inductive Label where
  | number (msgtype msgopts : Nat)
  | name (msgtype : String)
deriving DecidableEq

/-- The label of a message. -/
def SenderOptions.label (o : SenderOptions) (type : ExportType) : Label :=
  if o.useBinHeaders then .number type.msgtype.toNat 0 else .name type.name

theorem ExportType.name_injective : Function.Injective ExportType.name := by
  intro a b h
  cases a <;> cases b <;> first | rfl | exact absurd h (by decide)

theorem ExportType.msgtype_injective : Function.Injective ExportType.msgtype := by
  intro a b h
  cases a <;> cases b <;> first | rfl | exact absurd h (by decide)

/-- The label tells the type. -/
theorem SenderOptions.label_injective (o : SenderOptions) : Function.Injective o.label := by
  intro a b h
  rw [label, label] at h
  split_ifs at h with hbin
  · exact ExportType.msgtype_injective (UInt32.toNat_inj.mp (Label.number.inj h).1)
  · exact ExportType.name_injective (Label.name.inj h)

/-- A number of 32 bits in little-endian order, and what comes after it. -/
def unpackV : Msgbuf → Option (Nat × Msgbuf)
  | b₀ :: b₁ :: b₂ :: b₃ :: rest =>
    some (b₀.toNat + 2 ^ 8 * b₁.toNat + 2 ^ 16 * b₂.toNat + 2 ^ 24 * b₃.toNat, rest)
  | _ => none

/-- What the consumer finds in a message, where `decode` reads a text as JSON. -/
def readMessage (decode : Msgbuf → Option Json) (binaryHdr : Bool) (msg : Msgbuf) :
    Option (Label × Json) :=
  if binaryHdr then do
    let (msgtype, msg) ← unpackV msg
    let (opts, js) ← unpackV msg
    let data ← decode js
    return (.number msgtype opts, data)
  else do
    let data ← decode msg
    match data.get "msgtype" with
    | .string type => return (.name type, data.get "data")
    | _ => none

/-- A text is decoded to the value that it denotes. -/
def DecodesJson (decode : Msgbuf → Option Json) (holds : Bytes → Prop) : Prop :=
  ∀ s (v : Json), Denotes holds s v.tree → decode s = some v

/-- A number is unpacked as it was stored. -/
theorem unpackV_int32Bytes (n : UInt32) (rest : Msgbuf) :
    unpackV (int32Bytes n ++ rest) = some (n.toNat, rest) := by
  have hlt := n.toNat_lt
  refine congrArg (fun k ↦ some (k, rest)) ?_
  simp only [UInt32.toNat_toUInt8, UInt32.toNat_shiftRight, Nat.shiftRight_eq_div_pow]
  change n.toNat % 256 + 2 ^ 8 * (n.toNat / 2 ^ 8 % 256) + 2 ^ 16 * (n.toNat / 2 ^ 16 % 256) +
    2 ^ 24 * (n.toNat / 2 ^ 24 % 256) = n.toNat
  omega

/-- A text without null characters is copied as a whole. -/
theorem copyBuffer_eq_self {buffer : Msgbuf} (h : (0 : UInt8) ∉ buffer) :
    copyBuffer buffer = some buffer := by
  have hall : ∀ b ∈ buffer, decide (b ≠ 0) = true :=
    fun b hb ↦ decide_eq_true fun h0 ↦ h (h0 ▸ hb)
  rw [copyBuffer, List.takeWhile_eq_self_iff.mpr hall]
  exact if_neg (lt_irrefl _)

section Messages

variable {decode : Msgbuf → Option Json} {holds : Bytes → Prop} {o : SenderOptions} {text : Bytes}

/-- The consumer finds the type and the data of an event in its message. -/
theorem readMessage_pushed (hdecode : DecodesJson decode holds) (type : ExportType)
    {n? : Option Nat} (htells : TellsBlock holds n? text) (hlegible : Legible holds text) :
    ∃ msg data, o.pushed (type, ofUtf8Bytes text) = some msg ∧
      readMessage decode o.useBinHeaders msg = some (o.label type, data) ∧ data.isObject = true ∧
      ∀ n ∈ n?, data.get "block_num" = .string (toString n) := by
  obtain ⟨ms, hdenotes, hhead⟩ := htells
  obtain ⟨str, rfl⟩ := hlegible.chars
  obtain ⟨data, hdata⟩ := hlegible.data _ hdenotes
  obtain ⟨members, rfl, hmembers⟩ := isObject_of_tree hdata
  rw [← hdata] at hdenotes
  have hblock : ∀ n ∈ n?, (Json.object members).get "block_num" = .string (toString n) :=
    fun n hn ↦ get_blockNum (hmembers.symm ▸ hhead n hn)
  rw [ofUtf8Bytes_utf8Bytes, SenderOptions.pushed, SenderOptions.label]
  cases o.useBinHeaders with
  | true =>
      refine ⟨_, _, if_pos rfl, ?_, rfl, hblock⟩
      have hjs : decode str.toUTF8.toList = some (.object members) := hdecode _ _ hdenotes
      rw [readMessage, if_pos rfl, if_pos rfl, onEventBin, List.append_assoc,
        unpackV_int32Bytes, Option.bind_eq_bind, Option.bind_some]
      dsimp only
      rw [unpackV_int32Bytes, Option.bind_some]
      dsimp only
      rw [hjs]
      rfl
  | false =>
      have hmsg := denotes_onEventJson type hdenotes
      have hcopy := copyBuffer_eq_self fun h0 ↦ hmsg.ne_zero h0
      refine ⟨_, _, (if_neg Bool.false_ne_true).trans hcopy, ?_, rfl, hblock⟩
      rw [readMessage, if_neg Bool.false_ne_true, if_neg Bool.false_ne_true, hdecode _ _ hmsg]
      rfl

end Messages

/-! ## What the texts tell -/

/-- Whether an event is exported. -/
def Event.exported (e : Event) : Bool := (exportType? e).isSome

theorem Event.not_exported {e : Event} (h : exportType? e = none) : ¬ e.exported = true := by
  rw [Event.exported, h]
  exact Bool.false_ne_true

/-- Texts that the decoder has written for some events, one after another. -/
inductive TextsOf (holds : Bytes → Prop) : List Event → List (ExportType × Bytes) → Prop
  | nil : TextsOf holds [] []
  | unhandled {e : Event} {es : List Event} {texts : List (ExportType × Bytes)}
      (htype : exportType? e = none) (hrest : TextsOf holds es texts) :
    TextsOf holds (e :: es) texts
  | text {e : Event} {type : ExportType} {text : Bytes} {es : List Event}
      {texts : List (ExportType × Bytes)} (htype : exportType? e = some type)
      (htells : TellsBlock holds (blockNum? e) text) (hlegible : Legible holds text)
      (hrest : TextsOf holds es texts) : TextsOf holds (e :: es) ((type, text) :: texts)
  /-- A report of errors. -/
  | report {text : Bytes} {es : List Event} {texts : List (ExportType × Bytes)}
      (htells : TellsBlock holds none text) (hlegible : Legible holds text)
      (hrest : TextsOf holds es texts) : TextsOf holds es ((.encoderErr, text) :: texts)

namespace TextsOf

variable {holds : Bytes → Prop} {es es' : List Event} {texts texts' : List (ExportType × Bytes)}

theorem append (h : TextsOf holds es texts) (h' : TextsOf holds es' texts') :
    TextsOf holds (es ++ es') (texts ++ texts') := by
  induction h with
  | nil => exact h'
  | unhandled htype _ ih => exact .unhandled htype ih
  | text htype htells hlegible _ ih => exact .text htype htells hlegible ih
  | report htells hlegible _ ih => exact .report htells hlegible ih

/-- The first texts tell the first events. -/
theorem split (h : TextsOf holds es (texts ++ texts')) :
    ∃ es₁ es₂, es = es₁ ++ es₂ ∧ TextsOf holds es₁ texts ∧ TextsOf holds es₂ texts' := by
  generalize hall : texts ++ texts' = all at h
  induction h generalizing texts with
  | nil =>
      obtain ⟨rfl, rfl⟩ := List.append_eq_nil_iff.mp hall
      exact ⟨[], [], rfl, .nil, .nil⟩
  | unhandled htype _ ih =>
      obtain ⟨es₁, es₂, rfl, h₁, h₂⟩ := ih hall
      exact ⟨_ :: es₁, es₂, rfl, .unhandled htype h₁, h₂⟩
  | text htype htells hlegible hrest ih =>
      cases texts with
      | nil =>
          obtain rfl : texts' = _ := hall
          exact ⟨[], _, rfl, .nil, .text htype htells hlegible hrest⟩
      | cons p texts =>
          obtain ⟨rfl, htail⟩ := List.cons.inj hall
          obtain ⟨es₁, es₂, rfl, h₁, h₂⟩ := ih htail
          exact ⟨_ :: es₁, es₂, rfl, .text htype htells hlegible h₁, h₂⟩
  | report htells hlegible hrest ih =>
      cases texts with
      | nil =>
          obtain rfl : texts' = _ := hall
          exact ⟨[], _, rfl, .nil, .report htells hlegible hrest⟩
      | cons p texts =>
          obtain ⟨rfl, htail⟩ := List.cons.inj hall
          obtain ⟨es₁, es₂, rfl, h₁, h₂⟩ := ih htail
          exact ⟨es₁, es₂, rfl, .report htells hlegible h₁, h₂⟩

theorem of_reports {reports : List (ExportType × Bytes)}
    (hreports : ∀ p ∈ reports, p.1 = .encoderErr ∧ TellsBlock holds none p.2)
    (hlegible : ∀ p ∈ reports, Legible holds p.2) : TextsOf holds [] reports := by
  induction reports with
  | nil => exact .nil
  | cons p reports ih =>
      obtain ⟨htype, htells⟩ := hreports p List.mem_cons_self
      have hrest := ih (fun q hq ↦ hreports q (List.mem_cons_of_mem _ hq))
        fun q hq ↦ hlegible q (List.mem_cons_of_mem _ hq)
      have hp : p = (.encoderErr, p.2) := Prod.ext htype rfl
      rw [hp]
      exact .report htells (hlegible p List.mem_cons_self) hrest

/-- What the decoder writes for an event. -/
theorem of_outputs {e : Event} (h : Outputs holds e texts)
    (hlegible : ∀ p ∈ texts, Legible holds p.2) : TextsOf holds [e] texts := by
  cases htype : exportType? e with
  | none =>
      rw [h.unhandled htype]
      exact .unhandled htype .nil
  | some type =>
      obtain ⟨text, reports, rfl, htells, hreports⟩ := h.written type htype
      exact .text htype htells (hlegible _ List.mem_cons_self)
        (of_reports hreports fun p hp ↦ hlegible p (List.mem_cons_of_mem _ hp))

/-- Without texts no event was exported. -/
theorem exported_nil (h : TextsOf holds es []) : es.filter Event.exported = [] := by
  generalize hall : ([] : List (ExportType × Bytes)) = all at h
  induction h with
  | nil => rfl
  | unhandled htype _ ih =>
      exact (List.filter_cons_of_neg (Event.not_exported htype)).trans (ih hall)
  | text => cases hall
  | report => cases hall

theorem head {p : ExportType × Bytes} (h : TextsOf holds es (p :: texts)) :
    ∃ n? : Option Nat, TellsBlock holds n? p.2 ∧ Legible holds p.2 := by
  generalize hall : p :: texts = all at h
  induction h with
  | nil => cases hall
  | unhandled _ _ ih => exact ih hall
  | text _ htells hlegible _ _ =>
      obtain ⟨rfl, -⟩ := List.cons.inj hall
      exact ⟨_, htells, hlegible⟩
  | report htells hlegible _ _ =>
      obtain ⟨rfl, -⟩ := List.cons.inj hall
      exact ⟨_, htells, hlegible⟩

end TextsOf

/-- A message shows an event: its type, and the number of its block. -/
def Event.ReadAs (e : Event) (p : ExportType × Json) : Prop :=
  exportType? e = some p.1 ∧ p.2.isObject = true ∧
    ∀ n ∈ blockNum? e, p.2.get "block_num" = .string (toString n)

/-- What the consumer has received but for reports of errors. -/
def shown (received : List (ExportType × Json)) : List (ExportType × Json) :=
  received.filter fun p ↦ p.1 ≠ .encoderErr

theorem exportType?_ne_encoderErr {e : Event} {type : ExportType}
    (h : exportType? e = some type) : type ≠ .encoderErr := by
  rintro rfl
  cases e <;> cases h

/-- What the consumer finds tells what it has received. -/
theorem SenderOptions.received_unique (o : SenderOptions)
    {received received' : List (ExportType × Json)}
    (h : received.map (fun p ↦ some (o.label p.1, p.2)) =
      received'.map (fun p ↦ some (o.label p.1, p.2))) : received = received' := by
  refine List.map_injective_iff.mpr (fun p q hpq ↦ ?_) h
  obtain ⟨hlabel, hdata⟩ := Prod.mk.inj (Option.some.inj hpq)
  exact Prod.ext (o.label_injective hlabel) hdata

/-- The messages of the texts show the events. -/
theorem TextsOf.received {decode : Msgbuf → Option Json} {holds : Bytes → Prop}
    {o : SenderOptions} {es : List Event} {texts : List (ExportType × Bytes)}
    (hdecode : DecodesJson decode holds) (h : TextsOf holds es texts) {msgs : List Msgbuf}
    (hmsgs : PushedFor o texts msgs) : ∃ received : List (ExportType × Json),
      msgs.map (readMessage decode o.useBinHeaders) =
        received.map (fun p ↦ some (o.label p.1, p.2)) ∧
      List.Forall₂ Event.ReadAs (es.filter Event.exported) (shown received) := by
  induction h generalizing msgs with
  | nil =>
      obtain rfl : msgs = [] := List.map_eq_nil_iff.mp hmsgs
      exact ⟨[], rfl, .nil⟩
  | @unhandled e es texts htype _ ih =>
      obtain ⟨received, hread, hshown⟩ := ih hmsgs
      rw [List.filter_cons_of_neg (Event.not_exported htype)]
      exact ⟨received, hread, hshown⟩
  | @text e type text es texts htype htells hlegible _ ih =>
      obtain ⟨msg, data, hpushed, hfound, hobject, hblock⟩ :=
        readMessage_pushed (o := o) hdecode type htells hlegible
      cases msgs with
      | nil => cases hmsgs
      | cons msg' msgs =>
          obtain ⟨hmsg, hmsgs⟩ := List.cons.inj hmsgs
          obtain rfl : msg' = msg := Option.some.inj (hmsg.trans hpushed)
          obtain ⟨received, hread, hshown⟩ := ih hmsgs
          have hexported : e.exported = true := by
            rw [Event.exported, htype]
            rfl
          have hkept : shown ((type, data) :: received) = (type, data) :: shown received :=
            List.filter_cons_of_pos (decide_eq_true (exportType?_ne_encoderErr htype))
          refine ⟨(type, data) :: received, ?_, ?_⟩
          · rw [List.map_cons, List.map_cons, hfound, hread]
          · rw [List.filter_cons_of_pos hexported, hkept]
            exact .cons ⟨htype, hobject, hblock⟩ hshown
  | @report text es texts htells hlegible _ ih =>
      obtain ⟨msg, data, hpushed, hfound, -, -⟩ :=
        readMessage_pushed (o := o) hdecode .encoderErr htells hlegible
      cases msgs with
      | nil => cases hmsgs
      | cons msg' msgs =>
          obtain ⟨hmsg, hmsgs⟩ := List.cons.inj hmsgs
          obtain rfl : msg' = msg := Option.some.inj (hmsg.trans hpushed)
          obtain ⟨received, hread, hshown⟩ := ih hmsgs
          refine ⟨(.encoderErr, data) :: received, ?_, hshown⟩
          rw [List.map_cons, List.map_cons, hfound, hread]

theorem PushedFor.split {o : SenderOptions} {texts : List (ExportType × Bytes)}
    {msgs rest : List Msgbuf} (h : PushedFor o texts (msgs ++ rest)) :
    ∃ done left, texts = done ++ left ∧ PushedFor o done msgs ∧ PushedFor o left rest := by
  rw [PushedFor, List.map_append] at h
  obtain ⟨done, left, htexts, hdone, hleft⟩ := List.map_eq_append_iff.mp h.symm
  exact ⟨done, left, htexts, hdone.symm, hleft.symm⟩

/-! ## The sender -/

namespace Sender

variable {o : SenderOptions} {s : Sender} {msgs : List Msgbuf}

/-- The handlers that ask for a slowdown, or take it back, before they take the next message. -/
def calls (o : SenderOptions) (s : Sender) : Step → List Bool
  | .timer | .wrote =>
    if s.asyncQueue = [] then [] else (slowdownCall o s.asyncQueue.length).toList
  | _ => []

/-- A sender of some messages: it goes on until a write fails. -/
structure Sends (s : Sender) (msgs : List Msgbuf) : Prop where
  pending : s.failed = false → Pending s msgs
  ended : s.failed = true → s.waits = 0 ∧ s.fired = 0 ∧ s.writes = []
  written : s.written <+: msgs

theorem Pending.written_prefix (h : Pending s msgs) : s.written <+: msgs := by
  rw [← h.order, List.append_assoc]
  exact List.prefix_append _ _

theorem Pending.sends_of_not (h : Pending s msgs) (hfailed : s.failed = false) : s.Sends msgs :=
  ⟨fun _ ↦ h, fun htrue ↦ absurd (hfailed.symm.trans htrue) Bool.false_ne_true, h.written_prefix⟩

theorem failed_asyncSendEvents (o : SenderOptions) (s : Sender) :
    (asyncSendEvents o s).failed = s.failed := by
  rw [asyncSendEvents]
  cases s.asyncQueue <;> rfl

theorem failed_pushMsg (buf : Msgbuf) (s : Sender) : (s.pushMsg buf).failed = s.failed := by
  rw [Sender.pushMsg]
  split_ifs <;> rfl

theorem Sends.pushMsg (h : s.Sends msgs) (buf : Msgbuf) :
    (s.pushMsg buf).Sends (msgs ++ [buf]) := by
  cases hfailed : s.failed with
  | false =>
      exact ((h.pending hfailed).pushMsg buf).sends_of_not ((failed_pushMsg buf s).trans hfailed)
  | true =>
      obtain ⟨hwaits, hfired, hwrites⟩ := h.ended hfailed
      have hwritten : s.written <+: msgs ++ [buf] := h.written.trans (List.prefix_append _ _)
      refine ⟨fun hfalse ↦ ?_, fun _ ↦ ?_, ?_⟩
      · rw [failed_pushMsg, hfailed] at hfalse
        cases hfalse
      · rw [Sender.pushMsg]
        split_ifs
        · exact ⟨rfl, by change s.fired + s.waits = 0; omega, hwrites⟩
        · exact ⟨hwaits, hfired, hwrites⟩
      · rw [Sender.pushMsg]
        split_ifs <;> exact hwritten

/-- A handler runs that brings no message. -/
theorem Sends.exec (h : s.Sends msgs) {i : Step} (henabled : s.Enabled i)
    (hevent : ∀ e, i ≠ .event e) : (s.exec o i).Sends msgs := by
  cases hfailed : s.failed with
  | true =>
      -- no handler is left
      obtain ⟨hwaits, hfired, hwrites⟩ := h.ended hfailed
      cases i with
      | event e => exact absurd rfl (hevent e)
      | expire => exact absurd hwaits (Nat.ne_of_gt henabled)
      | timer => exact absurd hfired (Nat.ne_of_gt henabled)
      | wrote | writeError => exact absurd hwrites henabled
  | false =>
      have hpending := h.pending hfailed
      by_cases hi : i = .writeError
      · subst hi
        have henabled : s.writes ≠ [] := henabled
        have hone := hpending.one
        obtain ⟨msg, rest, hwrites⟩ := List.exists_cons_of_ne_nil henabled
        rw [hwrites, List.length_cons] at hone
        refine ⟨nofun, fun _ ↦ ⟨?_, ?_, ?_⟩, hpending.written_prefix⟩
        · change s.waits = 0
          omega
        · change s.fired = 0
          omega
        · change s.writes.tail = []
          rw [hwrites]
          exact List.eq_nil_of_length_eq_zero (by rw [List.tail_cons]; omega)
      · have hnext := hpending.exec (o := o) henabled hi
        have hnone : pushed o [i] = [] := by
          cases i with
          | event e => exact absurd rfl (hevent e)
          | _ => rfl
        rw [hnone, List.append_nil] at hnext
        refine hnext.sends_of_not ?_
        cases i with
        | event e => exact absurd rfl (hevent e)
        | expire => exact hfailed
        | timer | wrote => exact (failed_asyncSendEvents o _).trans hfailed
        | writeError => exact absurd rfl hi

end Sender

/-! ## What is published stays -/

section Published

variable {Abi : Type} (lib : Abieos Abi) {w w' : World Abi}

theorem Scanning.extends_exec {i : Input} (h : Scanning w) (hno : i.NoStart) :
    Extends w (Chronicle.exec lib w i) := by
  have hcalm : ∀ {w' : World Abi}, Calm w w' → Extends w w' := fun hc ↦
    let ⟨es, hes, _⟩ := hc.publishes
    ⟨es, hes⟩
  cases h.exec_cases lib hno.scanInput with
  | idle hidle => exact hcalm hidle.toCalm
  | acked _ hw => exact hcalm (hw ▸ calm_ackedBy _ w)
  | decoded hw => exact hcalm (hw ▸ calm_decoded lib _ w)
  | ended hidle hend => exact (hcalm hidle.toCalm).trans ⟨[], by
      rw [hend.publishes, List.append_nil]⟩
  | started => exact hno.elim
  | received _ _ hr =>
      rcases hr.publishes lib h.cached with ⟨es, hes, -⟩ | ⟨es, hes, -⟩
      · exact ⟨es, hes⟩
      · exact ⟨_, hes⟩

theorem Undisturbed.extends (h : Undisturbed w w') : Extends w w' := by
  obtain ⟨l, hl, -⟩ := h.log
  exact ⟨published l, by rw [hl, published_append]⟩

theorem World.served_extends (w : World Abi) : Extends w w.served := by
  rw [World.served]
  split_ifs
  · cases w.proc.interactiveReqQueue with
    | nil => exact .refl w
    | cons req queue => exact ⟨[], published_append _ _⟩
  · exact .refl w

theorem World.answered_extends (b : Nat) (w : World Abi) : Extends w (w.answered b) := by
  rw [World.answered]
  split_ifs
  · exact World.served_extends { w with proc := _ }
  · exact .refl w

theorem Interactive.extends_exec {i : Input} (h : Interactive w) (hno : i.NoStart) :
    Extends w (Chronicle.exec lib w i) := by
  have hprocess : ∀ (d : BlockPosition × GetBlocksResult) (w₁ : World Abi), Interactive w₁ →
      Ends (fun _ ↦ Extends w₁) (fun _ ↦ Extends w₁) (processBlock lib d.1 d.2 w₁) := by
    intro d w₁ h₁
    refine (processBlock_interactive lib d.1 d.2 h₁).mono ?_ ?_
    · rintro _ _ ⟨w₂, hw₂, rfl⟩
      obtain ⟨es, hes, -⟩ := hw₂.publishes
      exact Extends.trans ⟨es, hes⟩ ⟨_, published_append _ _⟩
    · intro _ w₂ hw₂
      obtain ⟨es, hes, -⟩ := hw₂.publishes
      exact ⟨es, hes⟩
  have hat : ∀ d : BlockPosition × GetBlocksResult, Extends w (w.counted.atResult d.1 d.2) :=
    fun d ↦ World.answered_extends d.1.blockNum w.counted
  cases serves_exec lib h hno.ne_start with
  | undisturbed hu => exact hu.extends
  | changed hi hw => exact hw ▸ .refl w
  | decoded hi hw => exact hw ▸ ⟨[], by rw [published_decoded, List.append_nil]⟩
  | ready _ _ _ hu =>
      have hserved := World.served_extends
        { w with proc := { w.proc with receiverReady := true } }
      exact Extends.trans hserved hu.extends
  | accepted hi hreq hw => exact hw ▸ World.served_extends { w with proc := _ }
  | @completed d w₂ _ hd hrun hu =>
      have hends := hprocess d _ (h.atResult d.1 d.2)
      rw [hrun] at hends
      exact ((hat d).trans hends).trans hu.extends
  | @broken d e w₂ _ hd hrun hu =>
      have hends := hprocess d _ (h.atResult d.1 d.2)
      rw [hrun] at hends
      exact ((hat d).trans hends).trans hu.extends

/-- Nothing that was published is taken back. -/
theorem Working.extends_exec {i : Input} (h : Working w) (hno : i.NoStart) :
    Extends w (Chronicle.exec lib w i) := by
  rcases h with h | h
  · exact h.extends_exec lib hno
  · exact h.extends_exec lib hno

theorem Working.decoded (h : Working w) (hne : w.proc.continuation ≠ .hung)
    (accounts : List Name) : Working (accounts.foldl (World.decoded lib) w) := by
  induction accounts generalizing w with
  | nil => exact h
  | cons account accounts ih =>
      have hexec := exec_decode lib h.cached hne account
      refine ih (hexec ▸ h.exec lib (i := .decode account) trivial) ?_
      rwa [continuation_decoded]

/-- `abort_receiver` sets a flag. -/
theorem Working.abort (h : Working w) : Working (handleAny abortReceiver w) ∧
    Extends w (handleAny abortReceiver w) := by
  rw [handleAny]
  split_ifs
  · exact ⟨h, .refl w⟩
  · change Working { w with proc := { w.proc with aborting := true } } ∧
      Extends w { w with proc := { w.proc with aborting := true } }
    refine ⟨?_, .refl w⟩
    rcases h with h | h
    · exact .inl ⟨h.mode, h.cached⟩
    · exact .inr ⟨h.mode, h.cached⟩

end Published

/-! ## The system -/

/-- The plugins with the websocket exporter. -/
abbrev WsSystem (Abi σ : Type) := Plugins Abi σ Sender

/-- The handler that runs next. -/
inductive WsInput where
  /-- Something happens to the receiver, maybe by a message of the consumer. -/
  | receiver (i : Input)
  /-- The connection was closed, and `abort_receiver` is called. -/
  | abort
  /-- The decoder handles the next event. -/
  | decode (d : Detail)
  /-- The exporter is given the next text. -/
  | push
  /-- A handler of the exporter. -/
  | sender (i : Sender.Step)

section Step

variable {Abi σ : Type} (lib : Abieos Abi) (libs : Libraries)
  (dec : AbieosContext Abi → AbiDecoder σ) (o : SenderOptions)

namespace WsSystem

/-- The exporter is given a text.  Nothing is modelled for one that ends within its buffer. -/
def push (s : WsSystem Abi σ) (p : ExportType × Bytes) (ps : List (ExportType × Bytes)) :
    WsSystem Abi σ :=
  { s with
    outputs := ps
    exporter := (o.pushed (p.1, ofUtf8Bytes p.2)).elim s.exporter s.exporter.pushMsg }

/-- The calls of `slowdown_receiver`. -/
def callSlowdown (w : World Abi) (calls : List Bool) : World Abi :=
  calls.foldl (fun w pause ↦ exec lib w (.slowdown pause)) w

/-- A handler runs. -/
def turn (s : WsSystem Abi σ) : WsInput → WsSystem Abi σ
  | .receiver i => s.advance (exec lib s.world i) s.events
  | .abort => s.advance (handleAny abortReceiver s.world) s.events
  | .decode d =>
    match s.events with
    | [] => s
    | e :: es => s.decode lib libs dec d e es
  | .push =>
    match s.outputs with
    | [] => s
    | p :: ps => push o s p ps
  | .sender i =>
    { s.advance (callSlowdown lib s.world (s.exporter.calls o i)) s.events with
      exporter := s.exporter.exec o i }

/-- No handler runs any more when one of them hangs. -/
def step (s : WsSystem Abi σ) (i : WsInput) : WsSystem Abi σ :=
  if s.world.proc.continuation = .hung then s else turn lib libs dec o s i

/-- The exporter is started, and then the receiver on a database. -/
def start (o' : Options) (db : Undo Tables) (abieos : σ) : WsSystem Abi σ :=
  let w : World Abi := { newWorld with db := db }
  { world := exec lib w (.start o'), events := newEvents w (exec lib w (.start o')), abieos,
    exporter := .start o [] }

/-- The receiver goes on in its mode, what the decoder writes is legible, and the handlers of the
exporter are those that are due. -/
def Follows (holds : Bytes → Prop) (s : WsSystem Abi σ) : WsInput → Prop
  | .receiver i => i.NoStart
  | .decode d => ∀ e ∈ s.events.head?,
      ∀ p ∈ (onEvent libs (Decoder.receiverDecoder lib dec) d (s.world, s.abieos) e).1,
        Legible holds p.2
  | .sender i => s.exporter.Enabled i ∧ ∀ e, i ≠ .event e
  | .abort | .push => True

/-- Everything was written, and no write has failed. -/
structure Idle (s : WsSystem Abi σ) : Prop where
  events : s.events = []
  outputs : s.outputs = []
  asyncQueue : s.exporter.asyncQueue = []
  writes : s.exporter.writes = []
  failed : s.exporter.failed = false

end WsSystem

end Step

section Forwarding

variable {Abi σ : Type} {lib : Abieos Abi} {libs : Libraries}
  {dec : AbieosContext Abi → AbiDecoder σ} {o : SenderOptions} {holds : Bytes → Prop}

namespace WsSystem

variable {s : WsSystem Abi σ} {texts : List (ExportType × Bytes)} {msgs : List Msgbuf}

/-- The texts that were pushed, and those that are on their way to the exporter, are those of the
events that the decoder has handled. -/
structure Forwards (holds : Bytes → Prop) (o : SenderOptions) (s : WsSystem Abi σ)
    (texts : List (ExportType × Bytes)) (msgs : List Msgbuf) : Prop where
  working : Working s.world
  told : ∃ es, published s.world.log = es ++ s.events ∧ TextsOf holds es (texts ++ s.outputs)
  pushed : PushedFor o texts msgs
  sends : s.exporter.Sends msgs

/-- The receiver has gone on. -/
theorem Forwards.advance (h : Forwards holds o s texts msgs) {w : World Abi}
    (hw : Working w ∧ Extends s.world w) : Forwards holds o (s.advance w s.events) texts msgs := by
  obtain ⟨es, hes, htexts⟩ := h.told
  obtain ⟨new, hnew⟩ := hw.2
  refine ⟨hw.1, ⟨es, ?_, htexts⟩, h.pushed, h.sends⟩
  change published w.log = es ++ (s.events ++ newEvents s.world w)
  rw [newEvents_eq hnew, hnew, hes, List.append_assoc]

variable (lib) in
theorem extends_callSlowdown {w : World Abi} (h : Working w) (calls : List Bool) :
    Working (callSlowdown lib w calls) ∧ Extends w (callSlowdown lib w calls) := by
  induction calls generalizing w with
  | nil => exact ⟨h, .refl w⟩
  | cons pause calls ih =>
      obtain ⟨hlast, hrest⟩ := ih (h.exec lib (i := .slowdown pause) trivial)
      exact ⟨hlast, (h.extends_exec lib (i := .slowdown pause) trivial).trans hrest⟩

theorem Forwards.decode (hlib : libs.Documented holds) (hdec : ∀ ctxt, (dec ctxt).YieldsJson holds)
    (h : Forwards holds o s texts msgs) {d : Detail} {e : Event} {rest : List Event}
    (hevents : s.events = e :: rest) (hne : s.world.proc.continuation ≠ .hung)
    (hlegible : ∀ p ∈ (onEvent libs (Decoder.receiverDecoder lib dec) d (s.world, s.abieos) e).1,
      Legible holds p.2) : Forwards holds o (s.decode lib libs dec d e rest) texts msgs := by
  obtain ⟨es, hes, htexts⟩ := h.told
  obtain ⟨accounts, hworld, hrest⟩ := s.decode_spec lib libs dec h.working.cached d e rest
  have hone := TextsOf.of_outputs
    (Decoder.onEvent_outputs hlib (Decoder.receiverDecoder_yieldsJson lib hdec) e d
      (s.world, s.abieos)) hlegible
  refine ⟨hworld ▸ h.working.decoded lib hne accounts, ⟨es ++ [e], ?_, ?_⟩, h.pushed, h.sends⟩
  · rw [hworld, published_consulted, hrest, hes, hevents, List.append_assoc]
    rfl
  · change TextsOf holds (es ++ [e]) (texts ++ (s.outputs ++ _))
    rw [← List.append_assoc]
    exact htexts.append hone

theorem Forwards.push {decode : Msgbuf → Option Json} (hdecode : DecodesJson decode holds)
    (h : Forwards holds o s texts msgs) {p : ExportType × Bytes} {ps : List (ExportType × Bytes)}
    (houtputs : s.outputs = p :: ps) :
    ∃ msg, Forwards holds o (WsSystem.push o s p ps) (texts ++ [p]) (msgs ++ [msg]) := by
  obtain ⟨es, hes, htexts⟩ := h.told
  rw [houtputs] at htexts
  obtain ⟨_, es₂, -, -, hrest⟩ := htexts.split
  obtain ⟨n?, htells, hlegible⟩ := hrest.head
  obtain ⟨msg, -, hmsg, -⟩ := readMessage_pushed (o := o) hdecode p.1 htells hlegible
  have hexporter : (WsSystem.push o s p ps).exporter = s.exporter.pushMsg msg := by
    rw [WsSystem.push, hmsg]
    rfl
  refine ⟨msg, h.working, ⟨es, hes, ?_⟩, ?_, hexporter ▸ h.sends.pushMsg msg⟩
  · rw [List.append_assoc]
    exact htexts
  · rw [PushedFor, List.map_append, List.map_append, h.pushed, List.map_singleton,
      List.map_singleton, hmsg]

/-- A step of the system. -/
theorem Forwards.step {decode : Msgbuf → Option Json} (hlib : libs.Documented holds)
    (hdec : ∀ ctxt, (dec ctxt).YieldsJson holds) (hdecode : DecodesJson decode holds)
    (h : Forwards holds o s texts msgs) {i : WsInput}
    (hfollows : Follows lib libs dec holds s i) :
    ∃ texts' msgs', Forwards holds o (step lib libs dec o s i) texts' msgs' := by
  by_cases hhung : s.world.proc.continuation = .hung
  · rw [WsSystem.step, if_pos hhung]
    exact ⟨texts, msgs, h⟩
  rw [WsSystem.step, if_neg hhung]
  cases i with
  | receiver i =>
      exact ⟨texts, msgs, h.advance ⟨h.working.exec lib hfollows,
        h.working.extends_exec lib hfollows⟩⟩
  | abort => exact ⟨texts, msgs, h.advance h.working.abort⟩
  | decode d =>
      rw [turn]
      cases hevents : s.events with
      | nil => exact ⟨texts, msgs, h⟩
      | cons e rest =>
          exact ⟨texts, msgs, h.decode hlib hdec hevents hhung
            (hfollows e (by rw [hevents]; rfl))⟩
  | push =>
      rw [turn]
      cases houtputs : s.outputs with
      | nil => exact ⟨texts, msgs, h⟩
      | cons p ps =>
          obtain ⟨msg, hnext⟩ := h.push hdecode houtputs
          exact ⟨_, _, hnext⟩
  | sender i =>
      have hnext := h.advance (extends_callSlowdown lib h.working (s.exporter.calls o i))
      exact ⟨texts, msgs, hnext.working, hnext.told, hnext.pushed,
        hnext.sends.exec hfollows.1 hfollows.2⟩

variable (lib o) in
theorem forwards_start (holds : Bytes → Prop) (o' : Options) (db : Undo Tables) (abieos : σ) :
    Forwards holds o (start lib o o' db abieos) [] [] := by
  have hworking : Working (exec lib { newWorld with db := db } (.start o')) := by
    cases hmode : o'.interactiveMode with
    | false => exact .inl (follows_start lib hmode _).2
    | true =>
        rw [exec_start_interactive lib hmode]
        exact .inr (interactive_bootWorld hmode db [])
  have hlog : published (exec lib { newWorld with db := db } (.start o')).log =
      published ({ newWorld with db := db } : World Abi).log ++
        published (exec lib { newWorld with db := db } (.start o')).log := rfl
  exact ⟨hworking, ⟨[], (newEvents_eq hlog).symm, .nil⟩, rfl,
    (Sender.pending_start o []).sends_of_not rfl⟩

end WsSystem

/-- **In whichever order the handlers of the receiver, the decoder and the websocket exporter run,
whatever the consumer asks for, in both modes, with binary headers or without: the consumer finds
in each message the type and the data of one text, and but for reports of errors these are those
of the first events that were published, in order and each once; and of all of them when
everything was written.** -/
theorem ws_delivers {decode : Msgbuf → Option Json} (hlib : libs.Documented holds)
    (hdec : ∀ ctxt, (dec ctxt).YieldsJson holds) (hdecode : DecodesJson decode holds)
    (o' : Options) (db : Undo Tables) (abieos : σ) (inputs : List WsInput)
    (hrun : Run.Guarded (WsSystem.step lib libs dec o) (WsSystem.Follows lib libs dec holds)
      (WsSystem.start lib o o' db abieos) inputs) :
    let s := inputs.foldl (WsSystem.step lib libs dec o) (WsSystem.start lib o o' db abieos)
    ∃! received : List (ExportType × Json),
      s.exporter.written.map (readMessage decode o.useBinHeaders) =
        received.map (fun p ↦ some (o.label p.1, p.2)) ∧
      ∃ es, es <+: (published s.world.log).filter Event.exported ∧
        List.Forall₂ Event.ReadAs es (shown received) ∧
        (WsSystem.Idle s → es = (published s.world.log).filter Event.exported) := by
  intro s
  obtain ⟨texts, msgs, h⟩ : ∃ texts msgs, WsSystem.Forwards holds o s texts msgs :=
    hrun.invariant (I := fun s ↦ ∃ texts msgs, WsSystem.Forwards holds o s texts msgs)
      (fun _ _ ⟨_, _, hs⟩ hi ↦ hs.step hlib hdec hdecode hi)
      ⟨[], [], WsSystem.forwards_start lib o holds o' db abieos⟩
  obtain ⟨es, hes, htexts⟩ := h.told
  -- what was written belongs to the first texts, and these to the first events
  obtain ⟨rest, hmsgs⟩ := h.sends.written
  obtain ⟨done, left, rfl, hdone, hleft⟩ := PushedFor.split (hmsgs.symm ▸ h.pushed)
  rw [List.append_assoc] at htexts
  obtain ⟨es₁, es₂, rfl, htold, hleft'⟩ := htexts.split
  obtain ⟨received, hread, hshown⟩ := htold.received hdecode hdone
  refine ⟨received, ⟨hread, _, ?_, hshown, fun hidle ↦ ?_⟩, fun received' h' ↦
    o.received_unique (h'.1.symm.trans hread)⟩
  · rw [hes, List.append_assoc, List.filter_append]
    exact List.prefix_append _ _
  · have horder := (h.sends.pending hidle.failed).order
    rw [hidle.writes, hidle.asyncQueue, List.append_nil, List.append_nil, ← hmsgs] at horder
    obtain rfl : rest = [] := List.append_right_eq_self.mp horder.symm
    obtain rfl : left = [] := List.map_eq_nil_iff.mp hleft.symm
    rw [hidle.outputs] at hleft'
    rw [hes, hidle.events, List.append_nil, List.filter_append, hleft'.exported_nil,
      List.append_nil]

end Forwarding

/-! ## A block behind binary headers -/

/-- The reader of JSON texts. -/
def readJson (text : Msgbuf) : Option Json := (JsonText.parse text).map treeValue

theorem readJson_decodes : DecodesJson readJson fun _ ↦ True := by
  intro s v h
  rw [readJson, JsonText.parse_eq h, Option.map_some, treeValue_tree]

/-- The plugins with the libraries of the examples. -/
def wsStep : WsSystem Unit Unit → WsInput → WsSystem Unit Unit :=
  WsSystem.step Decoder.exampleAbieos Decoder.exampleLibraries (fun _ ↦ Decoder.exampleDecoder)
    { useBinHeaders := true }

def wsStart : WsSystem Unit Unit :=
  WsSystem.start Decoder.exampleAbieos { useBinHeaders := true } { exporterWillAck := true }
    emptyDb ()

/-- A text is pushed without making a string of it. -/
def wsFast (s : WsSystem Unit Unit) : WsInput → WsSystem Unit Unit
  | .push =>
    if s.world.proc.continuation = .hung then s
    else match s.outputs with
      | [] => s
      | p :: ps =>
        { s with
          outputs := ps
          exporter := (SenderOptions.pushedBytes { useBinHeaders := true } p).elim s.exporter
            s.exporter.pushMsg }
  | i => wsStep s i

/-- The decoder writes ASCII. -/
def WsFollows (s : WsSystem Unit Unit) : WsInput → Prop
  | .receiver i => i.NoStart
  | .decode d => ∀ e ∈ s.events.head?,
      ∀ p ∈ (onEvent Decoder.exampleLibraries (Decoder.receiverDecoder Decoder.exampleAbieos fun _ ↦
        Decoder.exampleDecoder) d (s.world, s.abieos) e).1, legibleText p.2 = true
  | .sender i => s.exporter.Enabled i ∧ ∀ e, i ≠ .event e
  | .push => ∀ p ∈ s.outputs.head?, isAscii p.2 = true
  | .abort => True

/-- Whether a step brings a message. -/
def Sender.Step.isEvent : Sender.Step → Bool
  | .event _ => true
  | _ => false

theorem Sender.Step.isEvent_eq_false {i : Sender.Step} :
    i.isEvent = false ↔ ∀ e, i ≠ .event e := by
  cases i with
  | event e => exact iff_of_false Bool.noConfusion fun h ↦ h e rfl
  | _ => exact iff_of_true rfl nofun

instance (i : Sender.Step) : Decidable (∀ e, i ≠ .event e) :=
  decidable_of_iff (i.isEvent = false) Sender.Step.isEvent_eq_false

instance (s : WsSystem Unit Unit) : (i : WsInput) → Decidable (WsFollows s i)
  | .receiver i => inferInstanceAs (Decidable i.NoStart)
  | .decode _ | .push => inferInstanceAs (Decidable (∀ _ ∈ _, _))
  | .sender i => inferInstanceAs (Decidable (s.exporter.Enabled i ∧ ∀ e, i ≠ .event e))
  | .abort => .isTrue trivial

theorem WsFollows.step_eq {s : WsSystem Unit Unit} {i : WsInput} (h : WsFollows s i) :
    wsStep s i = wsFast s i := by
  cases i with
  | push =>
      rw [wsFast, wsStep, WsSystem.step]
      refine if_congr Iff.rfl rfl ?_
      rw [WsSystem.turn]
      cases houtputs : s.outputs with
      | nil => rfl
      | cons p ps =>
          have hascii : isAscii p.2 = true := h p (by rw [houtputs]; rfl)
          change WsSystem.push { useBinHeaders := true } s p ps = _
          rw [WsSystem.push, pushed_ofUtf8Bytes { useBinHeaders := true } hascii]
  | _ => rfl

theorem WsFollows.follows {s : WsSystem Unit Unit} {i : WsInput} (h : WsFollows s i) :
    WsSystem.Follows Decoder.exampleAbieos Decoder.exampleLibraries (fun _ ↦ Decoder.exampleDecoder)
      (fun _ ↦ True) s i := by
  cases i with
  | decode d => exact fun e he p hp ↦ legible_of_legibleText (h e he p hp)
  | push => trivial
  | _ => exact h

/-- The explicit fork event is written and acknowledged, and then a block is written. -/
def wsInputs : List WsInput :=
  [.decode {}, .push, .sender .timer, .sender .wrote, .receiver (.ack 0), .receiver (.ready 0),
    .receiver (.result transferResult), .decode {}, .decode {}, .push, .push, .sender .timer,
    .decode { fields := transferTrace }, .sender .wrote, .decode {}, .push, .push, .push,
    .sender .wrote, .sender .wrote, .sender .wrote, .sender .wrote]

def wsEnd : WsSystem Unit Unit := wsInputs.foldl wsStep wsStart

set_option maxRecDepth 10000 in
theorem wsFast_guarded : Run.Guarded wsFast WsFollows wsStart wsInputs := by decide +kernel

theorem wsInputs_guarded :
    Run.Guarded wsStep (WsSystem.Follows Decoder.exampleAbieos Decoder.exampleLibraries
      (fun _ ↦ Decoder.exampleDecoder) fun _ ↦ True) wsStart wsInputs ∧
      wsEnd = wsInputs.foldl wsFast wsStart :=
  wsFast_guarded.congr fun _ _ h ↦ ⟨h.step_eq, h.follows⟩

/-- What is written for the fork and the block. -/
def wsTypes : List ExportType := [.fork, .blockStarted, .block, .txTrace, .blockCompleted]

set_option maxRecDepth 10000 in
theorem wsEnd_facts : wsEnd.events.isEmpty ∧ wsEnd.outputs.isEmpty ∧
    wsEnd.exporter.asyncQueue.isEmpty ∧ wsEnd.exporter.writes.isEmpty ∧
    wsEnd.exporter.failed = false ∧
    ((published wsEnd.world.log).filter Event.exported).map (fun e ↦ (exportType? e, blockNum? e)) =
      wsTypes.map fun type ↦ (some type, some 1) := by
  rw [wsInputs_guarded.2]
  decide +kernel

/-- What is shown of events of one block. -/
theorem shown_of_block {es : List Event} {ps : List (ExportType × Json)}
    (h : List.Forall₂ Event.ReadAs es ps) {types : List ExportType} {n : Nat}
    (hes : es.map (fun e ↦ (exportType? e, blockNum? e)) =
      types.map fun type ↦ (some type, some n)) :
    ps.map Prod.fst = types ∧ ∀ p ∈ ps, p.2.get "block_num" = .string (toString n) := by
  induction h generalizing types with
  | nil =>
      obtain rfl : types = [] := List.map_eq_nil_iff.mp hes.symm
      exact ⟨rfl, fun _ hp ↦ absurd hp List.not_mem_nil⟩
  | cons hread _ ih =>
      cases types with
      | nil => cases hes
      | cons type types =>
          obtain ⟨hhead, htail⟩ := List.cons.inj hes
          obtain ⟨htype, hblock⟩ := Prod.mk.inj hhead
          obtain ⟨htypes, hblocks⟩ := ih htail
          refine ⟨?_, List.forall_mem_cons.mpr ⟨hread.2.2 n hblock, hblocks⟩⟩
          rw [List.map_cons, htypes, Option.some.inj (hread.1.symm.trans htype)]

theorem ws_delivers_block : ∃ received : List (ExportType × Json),
    wsEnd.exporter.written.map (readMessage readJson true) =
      received.map (fun p ↦ some (SenderOptions.label { useBinHeaders := true } p.1, p.2)) ∧
    (shown received).map Prod.fst = wsTypes ∧
    ∀ p ∈ shown received, p.2.get "block_num" = .string "1" := by
  obtain ⟨hevents, houtputs, hqueue, hwrites, hfailed, hall⟩ := wsEnd_facts
  have hidle : WsSystem.Idle wsEnd := ⟨List.isEmpty_iff.mp hevents, List.isEmpty_iff.mp houtputs,
    List.isEmpty_iff.mp hqueue, List.isEmpty_iff.mp hwrites, hfailed⟩
  have hdelivers := ws_delivers Decoder.exampleLibraries_documented
    (fun _ ↦ Decoder.exampleDecoder_yieldsJson) readJson_decodes { exporterWillAck := true } emptyDb
    () wsInputs (o := { useBinHeaders := true }) wsInputs_guarded.1
  generalize hend : List.foldl _ _ wsInputs = s at hdelivers
  obtain rfl : wsEnd = s := hend
  obtain ⟨received, ⟨hread, es, -, hshown, heq⟩, -⟩ := hdelivers
  exact ⟨received, hread, shown_of_block hshown (heq hidle ▸ hall)⟩

end Chronicle
