import Chronicle.Interactive.Requests
import Chronicle.Consumer.Acks
import Chronicle.Consumer.Republish
import Chronicle.Scan.Revisions
import Mathlib.Data.List.MinMax

/-!
# Interactive requests and the irreversible block

A process in interactive mode shares the database of a process in scan mode.  `on_block_req`
bounds a request by the head of that database, not by its irreversible block.  So a request is
safe if it ends at most one above the irreversible block (its end is exclusive), and then none of
its blocks is ever replaced, as long as the irreversible block of the state history does not go
back.
-/

namespace Chronicle

open Store Effect

variable {Abi : Type} (lib : Abieos Abi)

/-! ## Two processes -/

/-- The irreversible block of the state object. -/
def Tables.irreversible (t : Tables) : Nat := (t.state.map StateObject.irreversible).getD 0

/-- What matters of a run of the two processes. -/
inductive Happening where
  /-- A request was accepted, at the given irreversible block of the database. -/
  | accepted (req : InteractiveRequest) (irreversible : Nat)
  /-- The blocks from this one on were replaced. -/
  | forked (blockNum : Nat)
deriving DecidableEq

/-- A scanner and a process in interactive mode that reads its database. -/
structure Shared (Abi : Type) where
  scanner : World Abi
  reader : World Abi
  /-- The highest irreversible block so far, in the database or in the stream. -/
  streamed : Nat
  history : List Happening := []

/-- Either process gets an input. -/
inductive SharedInput where
  | scanner (i : Input)
  | reader (i : Input)

/-- The blocks from which on the state history has replaced others. -/
def networkForks (es : List Event) : List Nat :=
  es.filterMap fun
    | .fork f => if f.forkReason = .network then some f.blockNum else none
    | _ => none

/-- The irreversible block that a message tells, if any. -/
def Input.irreversible : Input → Nat
  | .receive (.ok result) _ => result.lastIrreversible.blockNum
  | _ => 0

/-- What an input does to the two processes.  The reader sees every change of the database. -/
def Shared.step (s : Shared Abi) : SharedInput → Shared Abi
  | .scanner i =>
    let scanner := exec lib s.scanner i
    { scanner, reader := exec lib s.reader (.scanner scanner.db.current)
      streamed := max s.streamed i.irreversible
      history := s.history ++ (networkForks (newEvents s.scanner scanner)).map .forked }
  | .reader i =>
    { s with
      reader := exec lib s.reader i
      history := s.history ++ (acceptedRequest s.reader i).toList.map
        (.accepted · s.scanner.db.current.irreversible) }

/-- A process in interactive mode starts on a database, which no scanner has opened yet. -/
def Shared.start (o : Options) (db : Undo Tables) : Shared Abi :=
  { scanner := { newWorld with db := db }, reader := (Session.start lib o db).world
    streamed := ((db.current :: db.stack).map Tables.irreversible).foldr max 0 }

/-- Scanners run in scan mode, readers in interactive mode. -/
def SharedInput.InMode : SharedInput → Prop
  | .scanner i => ScanInput i
  | .reader (.start o) => o.interactiveMode = true
  | .reader (.scanner _) => False
  | .reader _ => True

instance : (i : SharedInput) → Decidable i.InMode
  | .scanner i => inferInstanceAs (Decidable (ScanInput i))
  | .reader (.start o) => inferInstanceAs (Decidable (o.interactiveMode = true))
  | .reader (.scanner _) => .isFalse not_false
  | .reader (.ready _) | .reader (.receive _ _) | .reader (.timer _) | .reader (.ack _)
  | .reader (.slowdown _) | .reader .stale | .reader (.decode _) | .reader (.request _) =>
    .isTrue trivial

/-- The irreversible block of the state history does not go back. -/
def Shared.Irrevocable (s : Shared Abi) : SharedInput → Prop
  | .scanner (.receive (.ok result) _) => s.streamed ≤ result.lastIrreversible.blockNum
  | _ => True

/-- A request that is not refused ends at most one above the irreversible block, unless it is
empty. -/
def Shared.BelowIrreversible (s : Shared Abi) : SharedInput → Prop
  | .reader (.request req) => acceptsRequest s.scanner.db.current req = true →
    req.blockNumStart < req.blockNumEnd →
      req.blockNumEnd ≤ s.scanner.db.current.irreversible + 1
  | _ => True

instance (s : Shared Abi) : (i : SharedInput) → Decidable (s.Irrevocable i)
  | .scanner (.receive (.ok result) _) =>
    inferInstanceAs (Decidable (s.streamed ≤ result.lastIrreversible.blockNum))
  | .scanner (.receive (.error _) _) | .scanner (.start _) | .scanner (.ready _)
  | .scanner (.timer _) | .scanner (.ack _) | .scanner (.slowdown _) | .scanner .stale
  | .scanner (.decode _) | .scanner (.request _) | .scanner (.scanner _) | .reader _ =>
    .isTrue trivial

instance (s : Shared Abi) : (i : SharedInput) → Decidable (s.BelowIrreversible i)
  | .reader (.request _) => inferInstanceAs (Decidable (_ → _ → _))
  | .reader (.receive _ _) | .reader (.start _) | .reader (.ready _) | .reader (.timer _)
  | .reader (.ack _) | .reader (.slowdown _) | .reader .stale | .reader (.decode _)
  | .reader (.scanner _) | .scanner _ => .isTrue trivial

/-! ## Network forks -/

section Scanner

variable {w : World Abi} {i : Input}

theorem networkForks_append (es es' : List Event) :
    networkForks (es ++ es') = networkForks es ++ networkForks es' := List.filterMap_append

theorem networkForks_eq_nil {es : List Event} (h : ∀ e ∈ es, ¬ e.Network) :
    networkForks es = [] := by
  refine List.filterMap_eq_nil_iff.mpr fun e he ↦ ?_
  cases e with
  | fork f => exact if_neg (h _ he)
  | _ => rfl

theorem Event.Still.not_network {e : Event} (h : e.Still) : ¬ e.Network := by
  cases e with
  | fork _ => cases h
  | _ => exact not_false

theorem Event.Beside.not_network {e : Event} {b : Nat} (h : e.Beside b) : ¬ e.Network := by
  cases e with
  | fork f => exact absurd rfl (h.1 f)
  | _ => exact not_false

theorem networkForks_forkEvents (block : BlockPosition) (result : GetBlocksResult)
    (w : World Abi) : ∀ f ∈ networkForks (forkEvents block result w),
      f = block.blockNum ∧ result.lastIrreversible.blockNum < block.blockNum := by
  intro f hf
  rw [forkEvents] at hf
  split_ifs at hf with habove
  · exact ⟨List.mem_singleton.mp hf, habove.1⟩
  · cases hf

/-- A fork that the state history makes is above the irreversible block of its message. -/
theorem exists_of_mem_networkForks (hscan : Scanning w) (hi : ScanInput i) {f : Nat}
    (hf : f ∈ networkForks (newEvents w (exec lib w i))) :
    ∃ result queueSize, i = .receive (.ok result) queueSize ∧
      result.lastIrreversible.blockNum < f := by
  have hother : ∀ {es}, published (exec lib w i).log = published w.log ++ es →
      ∃ e ∈ es, e.Network := by
    intro es hes
    by_contra hnone
    rw [newEvents_eq hes, networkForks_eq_nil fun e he hn ↦ hnone ⟨e, he, hn⟩] at hf
    cases hf
  have hstill : ¬ ∃ es, published (exec lib w i).log = published w.log ++ es ∧
      ∀ e ∈ es, e.Still := by
    rintro ⟨es, hes, hstill⟩
    obtain ⟨e, he, hn⟩ := hother hes
    exact (hstill e he).not_network hn
  cases hscan.exec_cases lib hi with
  | idle hidle => exact absurd hidle.toCalm.publishes hstill
  | acked _ hw => exact absurd (hw ▸ calm_ackedBy _ w : Calm w _).publishes hstill
  | decoded hw => exact absurd (hw ▸ calm_decoded lib _ w : Calm w _).publishes hstill
  | ended hidle hend =>
      obtain ⟨es, hes, hin⟩ := hidle.toCalm.publishes
      exact absurd ⟨es, hend.publishes.trans hes, hin⟩ hstill
  | @started o _ hs =>
      cases hs with
      | loaded hl =>
          obtain ⟨e, he, hn⟩ := hother (by rw [hl.log, published_append])
          exact absurd hn (startForks_not_network he)
      | rejected hr => exact absurd ⟨[], by rw [hr.log, List.append_nil], nofun⟩ hstill
  | @received block result queueSize _ hblock hread hr =>
      rcases hr.publishes lib hscan.cached with hes | ⟨es, hes, hin⟩
      · exact absurd hes hstill
      · rw [newEvents_eq hes, networkForks_append,
          networkForks_eq_nil fun e he ↦ (hin e he).not_network, List.append_nil] at hf
        obtain ⟨rfl, habove⟩ := networkForks_forkEvents block result w f hf
        exact ⟨result, queueSize, rfl, habove⟩

/-- Whatever the scanner does, its database knows no irreversible block but those from before and
that of the message. -/
theorem irreversible_at?_le (hscan : Scanning w) (hi : ScanInput i) {n : Nat}
    (hn : ∀ r t, w.db.at? r = some t → t.irreversible ≤ n) {r : Nat} {t : Tables}
    (ht : (exec lib w i).db.at? r = some t) : t.irreversible ≤ max n i.irreversible := by
  cases exec_at? lib hscan hi ht with
  | kept hat => exact (hn _ _ hat).trans (le_max_left ..)
  | @block d r t hd hat hbelow =>
      obtain ⟨queueSize, rfl, -, -⟩ := delivered_eq_some hd
      exact le_max_right ..

end Scanner

/-! ## Requests -/

/-- No block of a request is above `n` exactly if the request ends at most one above it. -/
theorem InteractiveRequest.blocks_le_iff {req : InteractiveRequest} {n : Nat} :
    (∀ b ∈ req.blocks, b ≤ n) ↔
      (req.blockNumStart < req.blockNumEnd → req.blockNumEnd ≤ n + 1) := by
  rw [blocks]
  constructor
  · intro h hlt
    have hlast := h (req.blockNumEnd - 1) (List.mem_range'_1.mpr (by omega))
    omega
  · intro h b hb
    have hb := List.mem_range'_1.mp hb
    have hend := h (by omega)
    omega

/-- A process in interactive mode takes the requests that it accepts, in order. -/
theorem orders_exec {w : World Abi} {i : Input} (h : Interactive w) (hstart : ∀ o, i ≠ .start o) :
    (exec lib w i).desk.orders = w.desk.orders ++ (acceptedRequest w i).toList := by
  have hnone : ∀ {w' : World Abi}, w'.desk.orders = w.desk.orders →
      acceptedRequest w i = none →
      w'.desk.orders = w.desk.orders ++ (acceptedRequest w i).toList := by
    intro w' hw' hreq
    rw [hw', hreq]
    exact (List.append_nil _).symm
  have hblock : ∀ {d : BlockPosition × GetBlocksResult} {w₂ w' : World Abi},
      taken w i = some d → w₂.desk = (w.answered d.1.blockNum).desk → Undisturbed w₂ w' →
      w'.desk.orders = w.desk.orders ++ (acceptedRequest w i).toList := by
    intro d w₂ w' hd hdesk hu
    refine hnone ?_ ?_
    · rw [hu.desk.1, hdesk, World.desk_answered, Desk.orders_arrive]
    · cases i with
      | receive m q => rfl
      | _ => exact absurd (hd.symm.trans rfl) nofun
  cases serves_exec lib h hstart with
  | undisturbed hu htaken hreq _ => exact hnone (congrArg Desk.orders hu.desk.1) hreq
  | changed hi hw =>
      obtain rfl := hi
      exact hnone (by rw [hw]; rfl) rfl
  | decoded hi hw =>
      obtain rfl := hi
      exact hnone (by rw [hw, (w.desk_decoded lib _).1]) rfl
  | ready _ _ hreq hu =>
      refine hnone ?_ hreq
      rw [hu.desk.1, World.desk_served]
      exact Desk.orders_openDesk w.desk
  | accepted hi hreq hw =>
      obtain rfl := hi
      rw [hreq, hw, World.queued, World.desk_served]
      exact Desk.orders_take _ w.desk
  | @completed d w₂ w' hd hprocess hu =>
      exact hblock hd (desk_processBlock lib h d hprocess).1 hu
  | @broken d e w₂ w' hd hprocess hu =>
      exact hblock hd (desk_processBlock lib h d hprocess).1 hu

theorem acceptedRequest_eq_some {w : World Abi} {i : Input} {req : InteractiveRequest}
    (h : acceptedRequest w i = some req) :
    i = .request req ∧ acceptsRequest w.db.current req = true := by
  cases i with
  | request req' =>
      rw [acceptedRequest] at h
      split_ifs at h with haccepts
      obtain rfl := Option.some.inj h
      exact ⟨rfl, haccepts.2⟩
  | _ => cases h

theorem current_served (w : World Abi) : w.served.db = w.db := by
  rw [World.served]
  split_ifs
  · cases w.proc.interactiveReqQueue <;> rfl
  · rfl

/-- A process in interactive mode changes no table itself. -/
theorem exec_interactive_current {w : World Abi} {i : Input} (h : Interactive w)
    (hstart : ∀ o, i ≠ .start o) (hscanner : ∀ t, i ≠ .scanner t) :
    (exec lib w i).db.current = w.db.current := by
  have hat : ∀ d : BlockPosition × GetBlocksResult,
      (w.counted.atResult d.1 d.2).db.current = w.db.current := by
    intro d
    change (w.counted.answered d.1.blockNum).db.current = _
    rw [World.answered]
    split_ifs
    · rw [current_served]
      rfl
    · rfl
  cases serves_exec lib h hstart with
  | undisturbed hu _ _ _ => exact hu.current
  | changed hi _ => exact absurd hi (hscanner _)
  | decoded _ hw => rw [hw, World.decoded]
  | ready _ _ _ hu => rw [hu.current, current_served]
  | accepted _ _ hw => rw [hw, World.queued, current_served]
  | @completed d w₂ w' _ hprocess hu =>
      have hends := processBlock_current lib d.1 d.2 (h.atResult d.1 d.2)
      rw [hprocess] at hends
      exact hu.current.trans (Eq.trans hends (hat d))
  | @broken d e w₂ w' _ hprocess hu =>
      have hends := processBlock_current lib d.1 d.2 (h.atResult d.1 d.2)
      rw [hprocess] at hends
      exact hu.current.trans (Eq.trans hends (hat d))

/-! ## Runs of the two processes -/

/-- Whether what happens later leaves the blocks of a request alone. -/
def Happening.Spares : Happening → Happening → Prop
  | .accepted req _, .forked f => ∀ b ∈ req.blocks, b < f
  | _, _ => True

/-- The requests are below the irreversible block, and stay below it. -/
structure Shared.Safe (s : Shared Abi) : Prop where
  scanning : Scanning s.scanner
  interactive : Interactive s.reader
  seen : s.reader.db.current = s.scanner.db.current
  streamed : ∀ r t, s.scanner.db.at? r = some t → t.irreversible ≤ s.streamed
  orders : ∀ req ∈ s.reader.desk.orders, ∃ n, .accepted req n ∈ s.history
  past : ∀ req n, .accepted req n ∈ s.history → n ≤ s.streamed
  below : ∀ req n, .accepted req n ∈ s.history → ∀ b ∈ req.blocks, b ≤ n
  spared : s.history.Pairwise Happening.Spares

namespace Shared.Safe

variable {s : Shared Abi}

/-- The scanner adds no requests, and its forks are above those that there are. -/
theorem scanner (h : s.Safe) {i : Input} (hi : ScanInput i)
    (hirr : s.Irrevocable (.scanner i)) : (s.step lib (.scanner i)).Safe := by
  have hmem : ∀ {req n}, .accepted req n ∈ (s.step lib (.scanner i)).history →
      .accepted req n ∈ s.history := by
    intro req n hreq
    refine (List.mem_append.mp hreq).resolve_right fun hfork ↦ ?_
    obtain ⟨f, -, hf⟩ := List.mem_map.mp hfork
    cases hf
  have hread : (s.step lib (.scanner i)).reader =
      { s.reader with db := { s.reader.db with current := (exec lib s.scanner i).db.current } } :=
    if_pos h.interactive.mode
  constructor
  · exact h.scanning.exec lib hi
  · rw [hread]
    exact ⟨h.interactive.mode, h.interactive.cached⟩
  · rw [hread]
    rfl
  · exact fun r t ht ↦ irreversible_at?_le lib h.scanning hi h.streamed ht
  · rw [hread]
    intro req hreq
    obtain ⟨n, hn⟩ := h.orders req hreq
    exact ⟨n, List.mem_append_left _ hn⟩
  · exact fun req n hreq ↦ (h.past req n (hmem hreq)).trans (le_max_left ..)
  · exact fun req n hreq ↦ h.below req n (hmem hreq)
  · refine List.pairwise_append.mpr ⟨h.spared, ?_, ?_⟩
    · exact List.pairwise_map.mpr (List.pairwise_of_forall fun _ _ ↦ trivial)
    · rintro (⟨req, n⟩ | f) hx y hy
      · obtain ⟨f, hf, rfl⟩ := List.mem_map.mp hy
        obtain ⟨result, queueSize, rfl, hlt⟩ := exists_of_mem_networkForks lib h.scanning hi hf
        intro b hb
        calc b ≤ n := h.below req n hx b hb
          _ ≤ s.streamed := h.past req n hx
          _ ≤ result.lastIrreversible.blockNum := hirr
          _ < f := hlt
      · trivial

/-- A reader that starts again has only what was sent before. -/
theorem restart (h : s.Safe) {o : Options} (hmode : o.interactiveMode = true) :
    (s.step lib (.reader (.start o))).Safe := by
  have hread : (s.step lib (.reader (.start o))).reader =
      bootWorld o s.reader.db s.reader.log := exec_start_interactive lib hmode s.reader
  have hhistory : (s.step lib (.reader (.start o))).history = s.history := List.append_nil _
  constructor
  · exact h.scanning
  · rw [hread]
    exact interactive_bootWorld hmode _ _
  · rw [hread]
    exact h.seen
  · exact h.streamed
  · rw [hread, hhistory]
    intro req hreq
    have hsent : req ∈ s.reader.desk.sent ++ [] := hreq
    rw [List.append_nil] at hsent
    exact h.orders req (List.mem_append_left _ hsent)
  · exact hhistory ▸ h.past
  · exact hhistory ▸ h.below
  · exact hhistory ▸ h.spared

/-- The reader accepts only requests below the irreversible block that it sees. -/
theorem reader (h : s.Safe) {i : Input} (hstart : ∀ o, i ≠ .start o)
    (hscanner : ∀ t, i ≠ .scanner t) (hbelow : s.BelowIrreversible (.reader i)) :
    (s.step lib (.reader i)).Safe := by
  have hinteractive := h.interactive.exec lib hstart
  have hmem : ∀ {x}, x ∈ (s.step lib (.reader i)).history → x ∈ s.history ∨
      ∃ req, acceptedRequest s.reader i = some req ∧
        x = .accepted req s.scanner.db.current.irreversible := by
    intro x hx
    refine (List.mem_append.mp hx).imp id fun hnew ↦ ?_
    obtain ⟨req, hreq, rfl⟩ := List.mem_map.mp hnew
    exact ⟨req, Option.mem_toList.mp hreq, rfl⟩
  constructor
  · exact h.scanning
  · exact hinteractive
  · exact (exec_interactive_current lib h.interactive hstart hscanner).trans h.seen
  · exact h.streamed
  · intro req hreq
    change req ∈ (exec lib s.reader i).desk.orders at hreq
    rw [orders_exec lib h.interactive hstart] at hreq
    rcases List.mem_append.mp hreq with hreq | hreq
    · obtain ⟨n, hn⟩ := h.orders req hreq
      exact ⟨n, List.mem_append_left _ hn⟩
    · exact ⟨_, List.mem_append_right _ (List.mem_map.mpr ⟨req, hreq, rfl⟩)⟩
  · intro req n hreq
    rcases hmem hreq with hreq | ⟨req', -, heq⟩
    · exact h.past req n hreq
    · cases heq
      exact h.streamed _ _ s.scanner.db.at?_revision
  · intro req n hreq
    rcases hmem hreq with hreq | ⟨req', haccepted, heq⟩
    · exact h.below req n hreq
    · cases heq
      obtain ⟨rfl, haccepts⟩ := acceptedRequest_eq_some haccepted
      exact InteractiveRequest.blocks_le_iff.mpr (hbelow (h.seen ▸ haccepts))
  · refine List.pairwise_append.mpr ⟨h.spared, ?_, ?_⟩
    · exact List.pairwise_map.mpr (List.pairwise_of_forall fun _ _ ↦ trivial)
    · intro x _ y hy
      obtain ⟨req, -, rfl⟩ := List.mem_map.mp hy
      cases x <;> trivial

/-- One input of either process. -/
theorem step (h : s.Safe) {i : SharedInput} (hi : i.InMode) (hirr : s.Irrevocable i)
    (hbelow : s.BelowIrreversible i) : (s.step lib i).Safe := by
  cases i with
  | scanner i => exact h.scanner lib hi hirr
  | reader i =>
      by_cases hstart : ∃ o, i = .start o
      · obtain ⟨o, rfl⟩ := hstart
        exact h.restart lib hi
      · refine h.reader lib (fun o ho ↦ hstart ⟨o, ho⟩) ?_ hbelow
        rintro t rfl
        exact hi

end Shared.Safe

/-- Before any scanner has started. -/
theorem Shared.safe_start {o : Options} (hmode : o.interactiveMode = true) (db : Undo Tables) :
    (Shared.start lib o db).Safe := by
  have hread : (Shared.start lib o db).reader = bootWorld o db [] :=
    exec_start_interactive lib hmode _
  constructor
  · exact ⟨rfl, scanning_newWorld.cached⟩
  · rw [hread]
    exact interactive_bootWorld hmode _ _
  · rw [hread]
    rfl
  · intro r t ht
    exact List.le_max_of_le' 0 (List.mem_map_of_mem (Undo.mem_of_at? ht)) le_rfl
  · rw [hread]
    exact List.forall_mem_nil _
  · exact fun _ _ h ↦ absurd h List.not_mem_nil
  · exact fun _ _ h ↦ absurd h List.not_mem_nil
  · exact List.Pairwise.nil

/-- **In every run of a scanner and of processes in interactive mode on its database, in which
every request that is not refused ends at most one above the irreversible block: all the blocks
that are requested from the state history are at most the irreversible block at the time when the
request was accepted, and no fork after that replaces one of them.** -/
theorem requests_irreversible (o : Options) (hmode : o.interactiveMode = true) (db : Undo Tables)
    (inputs : List SharedInput)
    (hrun : Run.Guarded (Shared.step lib)
      (fun s i ↦ i.InMode ∧ s.Irrevocable i ∧ s.BelowIrreversible i)
      (Shared.start lib o db) inputs) :
    let s := inputs.foldl (Shared.step lib) (Shared.start lib o db)
    (∀ req ∈ requests s.reader.log, ∃ n, .accepted req n ∈ s.history) ∧
      (∀ req n, .accepted req n ∈ s.history → ∀ b ∈ req.blocks, b ≤ n) ∧
      ∀ before req n after, s.history = before ++ .accepted req n :: after →
        ∀ f, .forked f ∈ after → ∀ b ∈ req.blocks, b < f := by
  intro s
  have hsafe : s.Safe := hrun.invariant
    (fun s i hs hg ↦ hs.step lib hg.1 hg.2.1 hg.2.2) (Shared.safe_start lib hmode db)
  refine ⟨fun req hreq ↦ hsafe.orders req (List.mem_append_left _ hreq), hsafe.below, ?_⟩
  intro before req n after hsplit f hf b hb
  have hspared := hsafe.spared
  rw [hsplit] at hspared
  have hafter := (List.pairwise_cons.mp (List.pairwise_append.mp hspared).2.1).1
  exact hafter (.forked f) hf b hb

/-- A scanner gets three blocks with the given irreversible block, then a process in interactive
mode gets a request, and then the blocks from a number on are replaced. -/
def requestThenFork (irreversible : Nat) (req : InteractiveRequest) (b : Nat) : List SharedInput :=
  [.scanner (.start {}), .scanner (.ready 0), .scanner (.result (bareResult ⟨1, 1⟩ 0 0)),
    .scanner (.result (bareResult ⟨2, 2⟩ 1 0)),
    .scanner (.result (bareResult ⟨3, 3⟩ 2 irreversible)), .reader (.ready 0),
    .reader (.request req), .scanner (.result (bareResult ⟨b, 9⟩ (b - 1) irreversible))]

set_option maxRecDepth 10000 in
theorem requests_irreversible_two :
    let s := (requestThenFork 2 ⟨1, 3⟩ 3).foldl (Shared.step .lenient)
      (Shared.start .lenient { interactiveMode := true } ⟨0, ∅, []⟩)
    s.history = [.accepted ⟨1, 3⟩ 2, .forked 3] ∧ ∀ b ∈ InteractiveRequest.blocks ⟨1, 3⟩,
      b < 3 := by
  intro s
  have hsafe := requests_irreversible .lenient { interactiveMode := true } rfl ⟨0, ∅, []⟩
    (requestThenFork 2 ⟨1, 3⟩ 3) (by decide +kernel)
  have hhistory : s.history = [.accepted ⟨1, 3⟩ 2, .forked 3] := by decide +kernel
  exact ⟨hhistory, hsafe.2.2 [] ⟨1, 3⟩ 2 [.forked 3] hhistory 3 List.mem_cons_self⟩

set_option maxRecDepth 10000 in
/-- Block 2 is requested while no block is irreversible, and replaced afterwards. -/
theorem requested_block_forked :
    let s := (requestThenFork 0 ⟨2, 3⟩ 2).foldl (Shared.step .lenient)
      (Shared.start .lenient { interactiveMode := true } ⟨0, ∅, []⟩)
    requests s.reader.log = [⟨2, 3⟩] ∧ s.history = [.accepted ⟨2, 3⟩ 0, .forked 2] ∧
      2 ∈ InteractiveRequest.blocks ⟨2, 3⟩ ∧ ¬ 2 ≤ 0 := by
  decide +kernel

end Chronicle
