import Chronicle.Consumer.Link
import Chronicle.Decoder.Events
import Chronicle.Exporter.Framing
import Chronicle.Relic.Acks
import Chronicle.Relic.Loop

/-!
# From the events to the acknowledgements

The events of the receiver are written as JSON by the decoder, put into messages by the Relic
exporter, and handled one after another; what the exporter acknowledges is read from the text of
a member of the message.  This is what the consumer of the link between the receiver and its
exporter is a model of: the acknowledgements are those of the events (`relic_acks_events`).
-/

namespace Chronicle

open JsonText (Tree Denotes ascii)
open Decoder (Libraries AbiDecoder Detail TellsBlock Outputs onEvent onEvents blockNumMember)

/-! ## What a message is acknowledged with -/

namespace Relic

variable (ext : Externals)

/-- What is acknowledged for a message that is handled completely. -/
def messageAcks (msg : Msgbuf) : List Nat :=
  match decodeMessage ext msg with
  | none => []
  | some (msgtype, data) =>
    if (data.get "block_num").isString then
      (stoul (getString (data.get "block_num"))).elim [] fun n ↦ acksOf msgtype (n % 2 ^ 32)
    else []

theorem handle_tells (msg : Msgbuf) (m : Members) :
    (handle ext msg m).TellsJust (messageAcks ext msg) := by
  rw [handle_eq, messageAcks]
  cases decodeMessage ext msg with
  | none => exact rfl
  | some found =>
      obtain ⟨msgtype, data⟩ := found
      by_cases hnum : (data.get "block_num").isString = true
      · simp only [if_pos hnum]
        cases stoul (getString (data.get "block_num")) with
        | none => trivial
        | some n => exact handleEvent_tells ext m _ _ msgtype _
      · simp only [if_neg hnum]
        exact rfl

namespace Exporter

variable {ext} {answers left : Nat → Option Rows} {msgs : List Msgbuf} {trace : Trace} {m : Members}
  {s : Exporter}

/-- What was told by messages that were handled completely. -/
theorem Handled.told (h : Handled ext answers msgs trace left m) :
    Program.told trace = msgs.flatMap (messageAcks ext) := by
  induction h with
  | nil => rfl
  | snoc msg _ hmsg ih =>
      have hlast := (handle_tells ext msg _).told_run _ |>.2 (Option.isSome_of_eq_some hmsg)
      rw [Program.told_append, ih, hlast, List.flatMap_append, List.flatMap_singleton]

/-- At any time the acknowledgements are the first of those for the messages, and they are all of
them when there is nothing left to do. -/
theorem Sound.told (h : Sound ext answers msgs s) :
    Program.told s.trace <+: msgs.flatMap (messageAcks ext) ∧
      (s.asyncQueue = [] → s.aborted = false →
        Program.told s.trace = msgs.flatMap (messageAcks ext)) := by
  cases h with
  | running earlier h horder hone =>
      rw [horder, List.flatMap_append, h.told]
      refine ⟨List.prefix_append _ _, fun hempty _ ↦ ?_⟩
      rw [hempty, List.flatMap_nil, List.append_nil]
  | ended earlier msg trace left m h hmsg htrace horder hnone haborted =>
      refine ⟨?_, fun _ hrun ↦ absurd (haborted.symm.trans hrun) Bool.true_eq_false.mp⟩
      have hown := ((handle_tells ext msg m).told_run left).1
      rw [htrace, horder, Program.told_append, h.told, List.flatMap_append, List.flatMap_cons,
        List.prefix_append_right_inj]
      exact hown.trans (List.prefix_append _ _)

end Exporter

end Relic

/-! ## The message of an event -/

/-- A text of characters, and so is every string that it denotes. -/
structure Legible (holds : Bytes → Prop) (text : Bytes) : Prop where
  chars : ∃ s : String, utf8Bytes s = text
  data : ∀ t, Denotes holds text t → ∃ data : Json, data.tree = t

/-- The text is read, and is legible. -/
def legibleText (text : Bytes) : Bool :=
  isAscii text && (JsonText.parse text).all legibleTree

theorem legible_of_legibleText {holds : Bytes → Prop} {text : Bytes}
    (h : legibleText text = true) : Legible holds text := by
  obtain ⟨hchars, htree⟩ := Bool.and_eq_true_iff.mp h
  refine ⟨⟨ofUtf8Bytes text, utf8Bytes_ofUtf8Bytes hchars⟩, fun t ht ↦ ⟨treeValue t, ?_⟩⟩
  rw [JsonText.parse_eq ht] at htree
  exact tree_treeValue t htree

/-- The bytes of digits. -/
theorem utf8Encode_digits {l : List Char} (h : ∀ c ∈ l, c.isDigit) :
    l.utf8Encode.data.toList = l.map Char.toUInt8 :=
  utf8Encode_ascii fun c hc ↦ (Char.isDigit_iff_toNat.mp (h c hc)).2.trans (by decide)

theorem isDigit_toString (n : Nat) : ∀ c ∈ (toString n).toList, c.isDigit := by
  have hlist : (toString n).toList = Nat.toDigits 10 n := Nat.toList_repr
  rw [hlist]
  exact fun c hc ↦ Nat.isDigit_of_mem_toDigits (by decide) (by decide) hc

theorem utf8Bytes_toString (n : Nat) : utf8Bytes (toString n) = ascii (toString n) := by
  have hbytes := utf8Encode_digits (isDigit_toString n)
  rw [utf8Bytes_eq, ascii, ← hbytes, ← String.toByteArray_ofList, String.ofList_toList]

section Messages

variable {ext : Externals} {holds : Bytes → Prop} {text : Bytes}

theorem isObject_of_tree {data : Json} {ms : List (List UInt8 × Tree)}
    (h : data.tree = .object ms) : ∃ members, data = .object members ∧ treeMembers members = ms := by
  cases data with
  | object members => exact ⟨members, rfl, Tree.object.inj h⟩
  | _ => cases h

/-- The number of a block is read from the member that it was written to. -/
theorem get_blockNum {members : List (String × Json)} {n : Nat}
    (h : (treeMembers members).head? = some (blockNumMember n)) :
    (Json.object members).get "block_num" = .string (toString n) := by
  cases members with
  | nil => cases h
  | cons member members =>
      obtain ⟨k, v⟩ := member
      obtain ⟨hk, hv⟩ := Prod.mk.inj (Option.some.inj h)
      have hkey : k = "block_num" := by
        rw [← ofUtf8Bytes_utf8Bytes k, hk]
        decide +kernel
      have hval : v = .string (toString n) := by
        rw [← treeValue_tree v, hv, treeValue, ← utf8Bytes_toString, ofUtf8Bytes_utf8Bytes]
      subst hkey hval
      rfl

/-- The types of the events that are acknowledged. -/
def ExportType.Acked (type : ExportType) : Prop := type = .fork ∨ type = .blockCompleted

instance (type : ExportType) : Decidable type.Acked := inferInstanceAs (Decidable (_ ∨ _))

/-- The acknowledgements for the text of an event. -/
def ExportType.acks (type : ExportType) (n? : Option Nat) : List Nat :=
  if type.Acked then (n?.map Uint32.pred).toList else []

theorem acksOf_name (type : ExportType) (n : Nat) :
    Relic.acksOf type.name n = type.acks (some n) := by
  have hsub : Uint32.sub n 1 = Uint32.pred n := by
    rw [Uint32.sub, Uint32.pred, Uint32.max]
    split_ifs <;> omega
  rw [Relic.acksOf, ExportType.acks, hsub]
  refine if_congr ?_ rfl rfl
  cases type <;> decide

theorem ExportType.acks_of_not {type : ExportType} (h : ¬ type.Acked) (n? : Option Nat) :
    type.acks n? = [] := if_neg h

/-- What is acknowledged for the message of a text. -/
theorem messageAcks_pushed (hext : ParsesJson ext holds) {o : SenderOptions}
    (hbin : o.useBinHeaders = false) (type : ExportType) {n? : Option Nat}
    (htells : TellsBlock holds n? text) (hlegible : Legible holds text)
    (hlt : ∀ n ∈ n?, n < 2 ^ 32) (hsome : type.Acked → n?.isSome) {msg : Msgbuf}
    (hmsg : o.pushed (type, ofUtf8Bytes text) = some msg) :
    Relic.messageAcks ext msg = type.acks n? := by
  obtain ⟨ms, hdenotes, hhead⟩ := htells
  obtain ⟨str, rfl⟩ := hlegible.chars
  obtain ⟨data, hdata⟩ := hlegible.data _ hdenotes
  obtain ⟨members, rfl, hmembers⟩ := isObject_of_tree hdata
  rw [ofUtf8Bytes_utf8Bytes, SenderOptions.pushed, hbin, if_neg Bool.false_ne_true] at hmsg
  obtain ⟨msg', hpushed, hdecode⟩ := readBack_onEventJson hext (hdata ▸ hdenotes) rfl type
  obtain rfl := Option.some.inj (hpushed.symm.trans hmsg)
  rw [Relic.messageAcks, hdecode]
  cases n? with
  | none =>
      have hnot : ¬ type.Acked := fun hacked ↦ Bool.false_ne_true (hsome hacked)
      rw [ExportType.acks_of_not hnot]
      change (if _ then _ else _) = _
      split_ifs
      · cases Relic.stoul _ with
        | none => rfl
        | some n => exact (acksOf_name type _).trans (ExportType.acks_of_not hnot _)
      · rfl
  | some n =>
      have hn := hlt n rfl
      have hget := get_blockNum (hmembers.symm ▸ hhead n rfl)
      change (if ((Json.object members).get "block_num").isString = true then _ else _) = _
      have hstring : (Json.string (toString n)).isString = true := rfl
      rw [hget, if_pos hstring, Relic.getString, Relic.cString_toString,
        Relic.stoul_toString (hn.trans (by decide)), Option.elim_some, Nat.mod_eq_of_lt hn,
        acksOf_name]

end Messages

/-! ## The messages of events -/

/-- What the consumer of the link acknowledges is what the texts of an event are acknowledged
with. -/
theorem Event.ack?_toList (e : Event) : e.ack?.toList =
    (Decoder.exportType? e).elim [] fun type ↦ type.acks (Decoder.blockNum? e) := by
  cases e <;> rfl

section Events

variable {σ : Type} {lib : Libraries} {dec : AbiDecoder σ} {ext : Externals}
  {holds : Bytes → Prop} {o : SenderOptions}

/-- The messages that are pushed for texts. -/
def PushedFor (o : SenderOptions) (outputs : List (ExportType × Bytes)) (msgs : List Msgbuf) :
    Prop := msgs.map some = outputs.map fun p ↦ o.pushed (p.1, ofUtf8Bytes p.2)

/-- The messages of legible texts. -/
theorem pushedFor_bytes {outputs : List (ExportType × Bytes)} (h : ∀ p ∈ outputs,
    legibleText p.2 = true ∧ (o.pushedBytes p).isSome = true) :
    PushedFor o outputs (outputs.filterMap o.pushedBytes) := by
  induction outputs with
  | nil => rfl
  | cons p outputs ih =>
      obtain ⟨hp, hrest⟩ := List.forall_mem_cons.mp h
      obtain ⟨msg, hmsg⟩ := Option.isSome_iff_exists.mp hp.2
      have hascii : isAscii p.2 = true := (Bool.and_eq_true_iff.mp hp.1).1
      rw [PushedFor, List.filterMap_cons_some hmsg, List.map_cons, List.map_cons,
        pushed_ofUtf8Bytes o hascii, hmsg, ih hrest]

theorem PushedFor.append {outputs outputs' : List (ExportType × Bytes)} {msgs : List Msgbuf}
    (h : PushedFor o (outputs ++ outputs') msgs) :
    ∃ msgs₁ msgs₂, msgs = msgs₁ ++ msgs₂ ∧ PushedFor o outputs msgs₁ ∧
      PushedFor o outputs' msgs₂ := by
  rw [PushedFor, List.map_append] at h
  exact List.map_eq_append_iff.mp h

/-- Reports of errors are not acknowledged. -/
theorem acks_reports (hext : ParsesJson ext holds) (hbin : o.useBinHeaders = false)
    {reports : List (ExportType × Bytes)}
    (hreports : ∀ p ∈ reports, p.1 = .encoderErr ∧ TellsBlock holds none p.2)
    (hlegible : ∀ p ∈ reports, Legible holds p.2) {msgs : List Msgbuf}
    (hmsgs : PushedFor o reports msgs) : msgs.flatMap (Relic.messageAcks ext) = [] := by
  refine List.flatMap_eq_nil_iff.mpr fun msg hmsg ↦ ?_
  have hmem : some msg ∈ msgs.map some := List.mem_map_of_mem hmsg
  rw [hmsgs] at hmem
  obtain ⟨⟨type, text⟩, hp, hpushed⟩ := List.mem_map.mp hmem
  obtain ⟨rfl, htells⟩ := hreports _ hp
  exact messageAcks_pushed hext hbin .encoderErr htells (hlegible _ hp)
    (fun n hn ↦ absurd hn (Option.not_mem_none n)) (fun hacked ↦ absurd hacked (by decide)) hpushed

/-- What is acknowledged for the messages of an event. -/
theorem acks_onEvent (hlib : lib.Documented holds) (hdec : dec.YieldsJson holds)
    (hext : ParsesJson ext holds) (hbin : o.useBinHeaders = false) (e : Event) (d : Detail) (s : σ)
    (hlt : ∀ n ∈ Decoder.blockNum? e, n < 2 ^ 32)
    (hlegible : ∀ p ∈ (onEvent lib dec d s e).1, Legible holds p.2) {msgs : List Msgbuf}
    (hmsgs : PushedFor o (onEvent lib dec d s e).1 msgs) :
    msgs.flatMap (Relic.messageAcks ext) = e.ack?.toList := by
  have houtputs := Decoder.onEvent_outputs hlib hdec e d s
  rw [Event.ack?_toList]
  cases htype : Decoder.exportType? e with
  | none =>
      rw [houtputs.unhandled htype] at hmsgs
      obtain rfl := List.map_eq_nil_iff.mp hmsgs
      rfl
  | some type =>
      obtain ⟨text, reports, hout, htells, hreports⟩ := houtputs.written type htype
      rw [hout] at hmsgs hlegible
      have hsome : type.Acked → (Decoder.blockNum? e).isSome := by
        rintro (rfl | rfl) <;> cases e <;> first | rfl | cases htype
      obtain ⟨msg, rest, rfl, hmsg, hrest⟩ := List.map_eq_cons_iff.mp hmsgs
      rw [List.flatMap_cons, messageAcks_pushed hext hbin type htells
        (hlegible _ List.mem_cons_self) hlt hsome hmsg.symm,
        acks_reports hext hbin hreports (fun p hp ↦ hlegible p (List.mem_cons_of_mem _ hp)) hrest,
        List.append_nil]
      rfl

/-- What is acknowledged for the messages of events. -/
theorem acks_onEvents (hlib : lib.Documented holds) (hdec : dec.YieldsJson holds)
    (hext : ParsesJson ext holds) (hbin : o.useBinHeaders = false) (es : List (Event × Detail))
    (s : σ) (hlt : ∀ e ∈ es, ∀ n ∈ Decoder.blockNum? e.1, n < 2 ^ 32)
    (hlegible : ∀ p ∈ (onEvents lib dec es s).1, Legible holds p.2) {msgs : List Msgbuf}
    (hmsgs : PushedFor o (onEvents lib dec es s).1 msgs) :
    msgs.flatMap (Relic.messageAcks ext) = (es.map Prod.fst).filterMap Event.ack? := by
  induction es generalizing s msgs with
  | nil =>
      obtain rfl := List.map_eq_nil_iff.mp hmsgs
      rfl
  | cons ed es ih =>
      obtain ⟨e, d⟩ := ed
      obtain ⟨msgs₁, msgs₂, rfl, hfirst, hrest⟩ := PushedFor.append hmsgs
      have hlegible' := List.forall_mem_append.mp hlegible
      rw [List.flatMap_append,
        acks_onEvent hlib hdec hext hbin e d s (hlt _ List.mem_cons_self) hlegible'.1 hfirst,
        ih _ (fun e he ↦ hlt e (List.mem_cons_of_mem _ he)) hlegible'.2 hrest, List.map_cons]
      cases hack : e.ack? with
      | none => rw [List.filterMap_cons_none hack, Option.toList_none, List.nil_append]
      | some k => rw [List.filterMap_cons_some hack, Option.toList_some, List.singleton_append]

end Events

/-- **Whatever the receiver publishes, and whenever the messages come and the timer runs: at any
time the Relic exporter has acknowledged the first of the blocks that the consumer of the link
acknowledges for the events, in the same order, and all of them when its queue is empty and it has
not given up.** -/
theorem relic_acks_events {σ : Type} {lib : Libraries} {dec : AbiDecoder σ} {ext : Externals}
    {holds : Bytes → Prop} (hlib : lib.Documented holds) (hdec : dec.YieldsJson holds)
    (hext : ParsesJson ext holds) {o : SenderOptions} (hbin : o.useBinHeaders = false)
    (es : List (Event × Detail)) (hlt : ∀ e ∈ es, ∀ n ∈ Decoder.blockNum? e.1, n < 2 ^ 32) (s : σ)
    (hlegible : ∀ p ∈ (onEvents lib dec es s).1, Legible holds p.2)
    (answers : Nat → Option Relic.Rows) (steps : List Relic.Exporter.Step)
    (hsteps : PushedFor o (onEvents lib dec es s).1 (Relic.Exporter.pushed steps)) :
    let x := steps.foldl (Relic.Exporter.exec ext o) (Relic.Exporter.start ext o answers [])
    let acks := (es.map Prod.fst).filterMap Event.ack?
    Program.told x.trace <+: acks ∧
      (x.asyncQueue = [] → x.aborted = false → Program.told x.trace = acks) := by
  intro x acks
  have hsound : Relic.Exporter.Sound ext answers ([] ++ Relic.Exporter.pushed steps) x :=
    (Relic.Exporter.sound_start []).run steps
  have hacks : (Relic.Exporter.pushed steps).flatMap (Relic.messageAcks ext) = acks :=
    acks_onEvents hlib hdec hext hbin es s hlt hlegible hsteps
  have htold := hsound.told
  rw [List.nil_append, hacks] at htold
  exact htold

/-! ## A block that replaces another -/

/-- The memo of a transfer, packed. -/
def packedMemo : Bytes := [2, 104, 105]

/-- The trace of a transaction whose second action cannot be decoded. -/
def transferTrace : List (Bytes × Decoder.Native) :=
  [(ascii "id", .leaf (.checksum256 (List.replicate 32 0))),
    (ascii "status", .leaf (.transactionStatus 0)),
    (ascii "action_traces", .vector [.variant (.object
        [(ascii "action_ordinal", .leaf (.integer 1)),
          (ascii "creator_action_ordinal", .leaf (.integer 0)),
          (ascii "act", Decoder.exampleAction Decoder.tokenName ⟨packedMemo, by decide⟩)]),
      .variant (.object
        [(ascii "act", Decoder.exampleAction Decoder.aliceName Decoder.unknownData)])])]

/-- A fork, and the events of the block. -/
def forkedBlock : List (Event × Detail) :=
  [(.fork ⟨5, 1, .network, 3⟩, {}), (.blockStarted ⟨5, 2, 0, 3⟩, {}),
    (.block ⟨5, 2, 3, {}⟩, { fields := [(ascii "schedule_version", .leaf (.integer 1))] }),
    (.transactionTrace ⟨5, 0, ⟨0, []⟩⟩, { fields := transferTrace }),
    (.blockCompleted ⟨5, 2, 0, 1, 0, 0, 0, 1, 3⟩, {})]

/-- What the decoder writes for them. -/
def forkedOutputs : List (ExportType × Bytes) :=
  (onEvents Decoder.exampleLibraries Decoder.exampleDecoder forkedBlock ()).1

/-- All messages come, and then the handler of the timer runs. -/
def forkedSteps : List Relic.Exporter.Step :=
  (forkedOutputs.filterMap (SenderOptions.pushedBytes {})).map .push ++ [.timer]

set_option maxRecDepth 10000 in
theorem forkedOutputs_legible : ∀ p ∈ forkedOutputs,
    legibleText p.2 = true ∧ (SenderOptions.pushedBytes {} p).isSome = true := by
  decide +kernel

set_option maxRecDepth 10000 in
theorem forkedSteps_facts :
    let x := forkedSteps.foldl (Relic.Exporter.exec readerExternals {})
      (Relic.Exporter.start readerExternals {} (fun _ ↦ some [["1"]]) [])
    x.asyncQueue.isEmpty = true ∧ x.aborted = false ∧
      (Relic.statements (Relic.Exporter.issued x.trace)).map (·.fn) =
        ["rbfork", "insblocks", "instransactions"] := by
  decide +kernel

theorem relic_acks_events_block :
    let x := forkedSteps.foldl (Relic.Exporter.exec readerExternals {})
      (Relic.Exporter.start readerExternals {} (fun _ ↦ some [["1"]]) [])
    Program.told x.trace = [4, 4] ∧
      (Relic.statements (Relic.Exporter.issued x.trace)).map (·.fn) =
        ["rbfork", "insblocks", "instransactions"] := by
  obtain ⟨hempty, hnot, hissued⟩ := forkedSteps_facts
  refine ⟨?_, hissued⟩
  have hpushed : Relic.Exporter.pushed forkedSteps =
      forkedOutputs.filterMap (SenderOptions.pushedBytes {}) := by
    rw [forkedSteps, Relic.Exporter.pushed, List.filterMap_append, List.filterMap_map]
    exact (List.append_nil _).trans List.filterMap_some
  exact (relic_acks_events Decoder.exampleLibraries_documented Decoder.exampleDecoder_yieldsJson
    readerExternals_parsesJson rfl forkedBlock (by decide) ()
    (fun p hp ↦ legible_of_legibleText (forkedOutputs_legible p hp).1) (fun _ ↦ some [["1"]])
    forkedSteps (hpushed ▸ pushedFor_bytes forkedOutputs_legible)).2 (List.isEmpty_iff.mp hempty)
    hnot

end Chronicle
