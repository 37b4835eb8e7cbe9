import Chronicle.Interactive.Step
import Chronicle.Scan.Export
import Chronicle.Logic.Desk
import Chronicle.Logic.Run

/-!
# Requests are answered one at a time

The request queue of the receiver is a `Desk`: a request makes the state history send its
blocks, and the last one of them makes way for the next request.  So requests are sent in the
order in which they were accepted, each once, and only when all the blocks of the request
before have come.
-/

namespace Chronicle

open Store Effect

variable {Abi : Type} (lib : Abieos Abi)

/-- The request that `async_read_interactive_reqs` reads: the block `start`, or the blocks
from `start` up to `stop`. -/
def readRequest (start : Nat) (stop : Option Nat) : Except String InteractiveRequest :=
  let blockNumStart := start % 2 ^ 32
  let blockNumEnd :=
    match stop with
    | none => (blockNumStart + 1) % 2 ^ 32
    | some stop => stop % 2 ^ 32
  if blockNumEnd ≤ blockNumStart then
    .error "End block in interactive request not higher than start block"
  else .ok { blockNumStart, blockNumEnd }

/-- What gets to the receiver are the requests that are not empty. -/
theorem exists_readRequest {req : InteractiveRequest} :
    (∃ start stop, readRequest start stop = .ok req) ↔
      req.blockNumStart < req.blockNumEnd ∧ req.blockNumEnd < 2 ^ 32 := by
  constructor
  · rintro ⟨start, stop, h⟩
    simp only [readRequest] at h
    split_ifs at h with hle
    · obtain rfl := Except.ok.inj h
      refine ⟨not_le.mp hle, ?_⟩
      cases stop with
      | none => exact Nat.mod_lt _ (by norm_num)
      | some stop => exact Nat.mod_lt _ (by norm_num)
  · rintro ⟨hlt, hend⟩
    refine ⟨req.blockNumStart, some req.blockNumEnd, ?_⟩
    simp only [readRequest, Nat.mod_eq_of_lt hend, Nat.mod_eq_of_lt (hlt.trans hend)]
    rw [if_neg (not_le.mpr hlt)]

/-- The blocks that are asked for. -/
def InteractiveRequest.blocks (req : InteractiveRequest) : List Nat :=
  List.range' req.blockNumStart (req.blockNumEnd - req.blockNumStart)

theorem InteractiveRequest.blocks_ne_nil {req : InteractiveRequest}
    (h : req.blockNumStart < req.blockNumEnd) : req.blocks ≠ [] := by
  rw [blocks, ne_eq, List.range'_eq_nil_iff]
  omega

/-- A block completes a request exactly if it is the one below its end. -/
theorem InteractiveRequest.blocks_last {req : InteractiveRequest} {b : Nat}
    {done rest : List Nat} (h : req.blocks = done ++ b :: rest) :
    b = Uint32.pred req.blockNumEnd ↔ rest = [] := by
  have hlen := congrArg List.length h
  rw [blocks, List.length_range', List.length_append, List.length_cons] at hlen
  have hb : b = req.blockNumStart + done.length := by
    have hget : req.blocks[done.length]? = some b := by
      rw [h, List.getElem?_append_right le_rfl, Nat.sub_self]
      rfl
    rw [blocks, List.getElem?_range' (by omega)] at hget
    have := Option.some.inj hget
    omega
  rw [Uint32.pred_of_pos (by omega), ← List.length_eq_zero_iff]
  omega

/-! ## The receiver as a desk -/

/-- The requests of a record, in order. -/
def requests (log : List (Observation Abi)) : List InteractiveRequest :=
  log.filterMap fun
    | .requested r => some ⟨r.startBlockNum, r.endBlockNum⟩
    | _ => none

@[simp] theorem requests_append (l₁ l₂ : List (Observation Abi)) :
    requests (l₁ ++ l₂) = requests l₁ ++ requests l₂ := List.filterMap_append

theorem requests_eq_nil {l : List (Observation Abi)} (h : ∀ r, Observation.requested r ∉ l) :
    requests l = [] := by
  refine List.filterMap_eq_nil_iff.mpr fun o ho ↦ ?_
  cases o with
  | requested r => exact absurd ho (h r)
  | _ => rfl

/-- The request queue of a world. -/
def World.desk (w : World Abi) : Desk InteractiveRequest :=
  { ready := w.proc.receiverReady, pending := w.proc.interactiveReqPending,
    queue := w.proc.interactiveReqQueue, sent := requests w.log }

/-- The end block is that of the request that was sent last. -/
def StopsAtLast (w : World Abi) : Prop :=
  ∀ rs r, requests w.log = rs ++ [r] → w.proc.endBlockNum = r.blockNumEnd

theorem World.desk_served (w : World Abi) : w.served.desk = w.desk.serve := by
  rw [World.served, Desk.serve]
  by_cases h : (w.proc.receiverReady && !w.proc.interactiveReqPending) = true
  · rw [if_pos h]
    refine Eq.trans ?_ (if_pos h).symm
    simp only [World.desk]
    cases hq : w.proc.interactiveReqQueue with
    | nil => simp only [hq]
    | cons req queue =>
        simp only [requests_append]
        rfl
  · rw [if_neg h]
    exact (if_neg h).symm

theorem StopsAtLast.served {w : World Abi} (h : StopsAtLast w) : StopsAtLast w.served := by
  rw [World.served]
  split_ifs
  · cases w.proc.interactiveReqQueue with
    | nil => exact h
    | cons req queue =>
        intro rs r hr
        rw [requests_append] at hr
        obtain ⟨-, hr⟩ := List.append_inj' hr rfl
        have hr : (⟨req.blockNumStart, req.blockNumEnd⟩ : InteractiveRequest) = r :=
          (List.cons.inj hr).1
        rw [← hr]
  · exact h

section Steps

variable {w w' : World Abi}

theorem Undisturbed.desk (h : Undisturbed w w') :
    w'.desk = w.desk ∧ (StopsAtLast w → StopsAtLast w') := by
  obtain ⟨l, hl, hs⟩ := h.log
  have hreq : Chronicle.requests w'.log = Chronicle.requests w.log := by
    rw [hl, requests_append, requests_eq_nil fun r hr ↦ hs _ hr, List.append_nil]
  obtain ⟨hqueue, hpending, hend, hready⟩ : w'.proc.interactiveReqQueue = _ ∧
      w'.proc.interactiveReqPending = _ ∧ w'.proc.endBlockNum = _ ∧ w'.proc.receiverReady = _ := by
    have hreqs := h.requests
    simp only [Proc.requests, Prod.mk.injEq] at hreqs
    exact hreqs
  refine ⟨by rw [World.desk, hqueue, hpending, hready, hreq]; rfl, fun hstop rs r hr ↦ ?_⟩
  rw [hend]
  exact hstop rs r (hreq.symm.trans hr)

theorem Within.desk (h : Within w w') :
    w'.desk = w.desk ∧ (StopsAtLast w → StopsAtLast w') := by
  obtain ⟨l, hl, hin⟩ := h.log
  have hreq : requests w'.log = requests w.log := by
    rw [hl, requests_append, requests_eq_nil fun r hr ↦ hin _ hr, List.append_nil]
  refine ⟨?_, fun hstop rs r hr ↦ ?_⟩
  · rw [World.desk, hreq, h.member Proc.receiverReady fun _ ↦ rfl,
      h.member Proc.interactiveReqPending fun _ ↦ rfl,
      h.member Proc.interactiveReqQueue fun _ ↦ rfl]
    rfl
  · rw [h.member Proc.endBlockNum fun _ ↦ rfl]
    exact hstop rs r (hreq.symm.trans hr)

/-- A block arrives at the desk. -/
theorem World.desk_answered (b : Nat) (w : World Abi) :
    (w.answered b).desk = w.desk.arrive (decide (b = Uint32.pred w.proc.endBlockNum)) := by
  rw [World.answered, Desk.arrive]
  by_cases hb : b = Uint32.pred w.proc.endBlockNum
  · rw [if_pos hb, if_pos (decide_eq_true hb), World.desk_served]
    rfl
  · rw [if_neg hb, if_neg (by simpa using hb)]

theorem StopsAtLast.answered (h : StopsAtLast w) (b : Nat) : StopsAtLast (w.answered b) := by
  rw [World.answered]
  split_ifs
  · exact StopsAtLast.served h
  · exact h

/-- Whatever comes of a block, it has arrived at the desk. -/
theorem desk_processBlock (h : Interactive w) (d : BlockPosition × GetBlocksResult)
    {r : EStateM.Result Abort (World Abi) Unit}
    (hprocess : processBlock lib d.1 d.2 (w.counted.atResult d.1 d.2) = r) :
    Ends
      (fun _ w' ↦ w'.desk = (w.answered d.1.blockNum).desk ∧ (StopsAtLast w → StopsAtLast w'))
      (fun _ w' ↦ w'.desk = (w.answered d.1.blockNum).desk ∧
        (StopsAtLast w → StopsAtLast w')) r := by
  have hat : (w.counted.atResult d.1 d.2).desk = (w.answered d.1.blockNum).desk ∧
      (StopsAtLast w → StopsAtLast (w.counted.atResult d.1 d.2)) := by
    refine ⟨?_, fun hstop ↦ StopsAtLast.answered (w := w.counted) hstop d.1.blockNum⟩
    rw [World.desk_answered]
    exact World.desk_answered d.1.blockNum w.counted
  have hends := processBlock_interactive lib d.1 d.2 (h.atResult d.1 d.2)
  rw [hprocess] at hends
  cases r with
  | ok u w' =>
      obtain ⟨w₁, hw, rfl⟩ := hends
      have hdesk := hw.desk
      refine ⟨?_, fun hstop rs r hr ↦ ?_⟩
      · rw [← hat.1, ← hdesk.1, World.desk, requests_append]
        exact congrArg _ (List.append_nil _)
      · rw [requests_append] at hr
        exact hdesk.2 (hat.2 hstop) rs r ((List.append_nil _).symm.trans hr)
  | error e w' =>
      have hw : Within _ w' := hends
      exact ⟨hw.desk.1.trans hat.1, fun hstop ↦ hw.desk.2 (hat.2 hstop)⟩

/-- The decoder has nothing to do with requests. -/
theorem World.desk_decoded (w : World Abi) (account : Name) :
    (w.decoded lib account).desk = w.desk ∧
      (StopsAtLast w → StopsAtLast (w.decoded lib account)) := by
  have hcore := w.proc.load_core lib account (w.lookupAbi account)
  have hreq : requests (w.decoded lib account).log = requests w.log := by
    have hready : requests (w.readyLog lib account) = [] := by
      refine requests_eq_nil fun r hr ↦ ?_
      rcases World.mem_readyLog hr with h | h <;> exact absurd h nofun
    rw [World.decoded, requests_append, hready, List.append_nil]
  refine ⟨?_, fun hstop rs r hr ↦ ?_⟩
  · rw [World.desk, hreq]
    simp only [World.decoded, Proc.member_eq hcore Proc.receiverReady fun _ ↦ rfl,
      Proc.member_eq hcore Proc.interactiveReqPending fun _ ↦ rfl,
      Proc.member_eq hcore Proc.interactiveReqQueue fun _ ↦ rfl]
    rfl
  · refine (Proc.member_eq hcore Proc.endBlockNum fun _ ↦ rfl).trans ?_
    exact hstop rs r (hreq.symm.trans hr)

end Steps

/-! ## Sessions -/

/-- A process in interactive mode, with the requests that were accepted and the blocks that
were received. -/
structure Session (Abi : Type) where
  world : World Abi
  accepted : List InteractiveRequest := []
  received : List Nat := []

/-- What an input does to a session. -/
def Session.step (s : Session Abi) (i : Input) : Session Abi :=
  { world := exec lib s.world i
    accepted := s.accepted ++ (acceptedRequest s.world i).toList
    received := s.received ++ ((taken s.world i).map (·.1.blockNum)).toList }

/-- The session after a process was started on a database. -/
def Session.start (o : Options) (db : Undo Tables) : Session Abi :=
  { world := exec lib { newWorld with db := db } (.start o) }

/-- The state history answers the requests that were sent, in order, with their blocks in
ascending order. -/
def AnswersRequests (s : Session Abi) (i : Input) : Prop :=
  ∀ b ∈ (taken s.world i).map (·.1.blockNum),
    s.received ++ [b] <+: (requests s.world.log).flatMap InteractiveRequest.blocks

instance (s : Session Abi) (i : Input) : Decidable (AnswersRequests s i) :=
  inferInstanceAs (Decidable (∀ _ ∈ _, _))

/-- A request was read by the exporter. -/
def Input.RequestRead : Input → Prop
  | .request req => ∃ start stop, readRequest start stop = .ok req
  | _ => True

instance : (i : Input) → Decidable i.RequestRead
  | .request _ => decidable_of_iff _ exists_readRequest.symm
  | .start _ | .ready _ | .receive _ _ | .timer _ | .ack _ | .slowdown _ | .stale | .decode _
  | .scanner _ => .isTrue trivial

/-- The requests of a session are served one at a time. -/
structure Session.Orderly (s : Session Abi) : Prop where
  mode : Interactive s.world
  stop : StopsAtLast s.world
  served : s.world.desk.Served InteractiveRequest.blocks s.accepted s.received

namespace Session.Orderly

variable {s : Session Abi} {i : Input}

/-- An input that neither brings an accepted request nor a block. -/
theorem step_idle (h : Session.Orderly s) (hstart : ∀ o, i ≠ .start o)
    (hreq : acceptedRequest s.world i = none) (htaken : taken s.world i = none)
    (hdesk : (exec lib s.world i).desk = s.world.desk ∨
      (exec lib s.world i).desk = s.world.desk.openDesk)
    (hstop : StopsAtLast (exec lib s.world i)) : Session.Orderly (s.step lib i) := by
  have haccepted : (s.step lib i).accepted = s.accepted := by
    rw [Session.step, hreq]
    exact List.append_nil _
  have hreceived : (s.step lib i).received = s.received := by
    rw [Session.step, htaken]
    exact List.append_nil _
  refine ⟨h.mode.exec lib hstart, hstop, ?_⟩
  rw [haccepted, hreceived]
  rcases hdesk with hdesk | hdesk
  · exact hdesk ▸ h.served
  · exact hdesk ▸ h.served.openDesk

/-- An input that brings a block. -/
theorem step_block (h : Session.Orderly s) (hstart : ∀ o, i ≠ .start o)
    (hanswers : AnswersRequests s i) {d : BlockPosition × GetBlocksResult}
    (hd : taken s.world i = some d)
    (hdesk : (exec lib s.world i).desk = (s.world.answered d.1.blockNum).desk ∧
      (StopsAtLast s.world → StopsAtLast (exec lib s.world i))) :
    Session.Orderly (s.step lib i) := by
  have hreq : acceptedRequest s.world i = none := by
    cases i with
    | receive m q => rfl
    | _ => exact absurd (hd.symm.trans rfl) nofun
  have haccepted : (s.step lib i).accepted = s.accepted := by
    rw [Session.step, hreq]
    exact List.append_nil _
  have hreceived : (s.step lib i).received = s.received ++ [d.1.blockNum] := by
    rw [Session.step, hd]
    rfl
  have hb := hanswers d.1.blockNum (by rw [hd]; rfl)
  obtain ⟨rs, r, done, rest, hsent, hitems, harrived, hpending⟩ := h.served.next hb
  refine ⟨h.mode.exec lib hstart, hdesk.2 h.stop, ?_⟩
  rw [haccepted, hreceived]
  change (exec lib s.world i).desk.Served _ _ _
  rw [hdesk.1, World.desk_answered, h.stop rs r hsent]
  exact h.served.arrive hsent hitems harrived hpending
    (decide_eq_true_iff.trans (InteractiveRequest.blocks_last hitems))

/-- An input that brings a request. -/
theorem step_request (h : Session.Orderly s) {req : InteractiveRequest}
    (hread : Input.RequestRead (.request req))
    (hreq : acceptedRequest s.world (.request req) = some req)
    (hw : exec lib s.world (.request req) = s.world.queued req) :
    Session.Orderly (s.step lib (.request req)) := by
  have haccepted : (s.step lib (.request req)).accepted = s.accepted ++ [req] := by
    rw [Session.step, hreq]
    rfl
  have hreceived : (s.step lib (.request req)).received = s.received :=
    List.append_nil _
  have hmode : Interactive (exec lib s.world (.request req)) :=
    h.mode.exec lib fun o ho ↦ absurd ho nofun
  refine ⟨hmode, ?_, ?_⟩
  · change StopsAtLast (exec lib s.world (.request req))
    rw [hw]
    exact StopsAtLast.served h.stop
  · rw [haccepted, hreceived]
    change (exec lib s.world (.request req)).desk.Served _ _ _
    rw [hw, World.queued, World.desk_served]
    exact h.served.take (InteractiveRequest.blocks_ne_nil (exists_readRequest.mp hread).1)

/-- One input. -/
theorem step (h : Session.Orderly s) (hstart : ∀ o, i ≠ .start o) (hread : i.RequestRead)
    (hanswers : AnswersRequests s i) : Session.Orderly (s.step lib i) := by
  cases serves_exec lib h.mode hstart with
  | undisturbed hu htaken hreq _ =>
      exact h.step_idle lib hstart hreq htaken (.inl hu.desk.1) (hu.desk.2 h.stop)
  | changed hi hw =>
      obtain rfl := hi
      exact h.step_idle lib hstart rfl rfl (.inl (by rw [hw]; rfl)) (by rw [hw]; exact h.stop)
  | decoded hi hw =>
      obtain rfl := hi
      obtain ⟨hdesk, hstop⟩ := s.world.desk_decoded lib _
      exact h.step_idle lib hstart rfl rfl (.inl (hw ▸ hdesk)) (hw ▸ hstop h.stop)
  | ready _ htaken hreq hu =>
      refine h.step_idle lib hstart hreq htaken (.inr ?_) (hu.desk.2 (StopsAtLast.served h.stop))
      rw [hu.desk.1, World.desk_served]
      rfl
  | accepted hi hreq hw =>
      obtain rfl := hi
      exact h.step_request lib hread hreq hw
  | @completed d w₂ w' hd hprocess hu =>
      obtain ⟨hdesk, hstop⟩ := desk_processBlock lib h.mode d hprocess
      exact h.step_block lib hstart hanswers hd
        ⟨hu.desk.1.trans hdesk, fun hs ↦ hu.desk.2 (hstop hs)⟩
  | @broken d e w₂ w' hd hprocess hu =>
      obtain ⟨hdesk, hstop⟩ := desk_processBlock lib h.mode d hprocess
      exact h.step_block lib hstart hanswers hd
        ⟨hu.desk.1.trans hdesk, fun hs ↦ hu.desk.2 (hstop hs)⟩

/-- Before anything has happened. -/
theorem start {o : Options} (hmode : o.interactiveMode = true) (db : Undo Tables) :
    Session.Orderly (Session.start lib o db) := by
  have hstart : exec lib { newWorld with db := db } (.start o) = bootWorld o db [] :=
    exec_start_interactive lib hmode _
  have hlog : requests (Session.start lib o db).world.log = [] := by
    rw [Session.start, hstart]
    rfl
  refine ⟨?_, fun rs r hr ↦ absurd (hlog.symm.trans hr) (by simp), ?_⟩
  · rw [Session.start, hstart]
    exact interactive_bootWorld hmode db []
  · rw [Session.start, hstart]
    exact Desk.served_new

end Session.Orderly

/-- **Requests are sent in the order in which they were accepted, each once with its own start
and end, and one is sent only when all the blocks of the requests before it have come.** -/
theorem requests_served_in_order (o : Options) (hmode : o.interactiveMode = true)
    (db : Undo Tables) (inputs : List Input)
    (hrun : Run.Guarded (Session.step lib)
      (fun s i ↦ i.NoStart ∧ i.RequestRead ∧ AnswersRequests s i)
      (Session.start lib o db) inputs) :
    let s := inputs.foldl (Session.step lib) (Session.start lib o db)
    requests s.world.log ++ s.world.proc.interactiveReqQueue = s.accepted ∧
      (∀ rs r, requests s.world.log = rs ++ [r] →
        rs.flatMap InteractiveRequest.blocks <+: s.received) ∧
      (s.world.proc.interactiveReqPending = true ↔
        s.received ≠ (requests s.world.log).flatMap InteractiveRequest.blocks) ∧
      (s.world.proc.receiverReady = true →
        s.received = (requests s.world.log).flatMap InteractiveRequest.blocks →
        requests s.world.log = s.accepted) := by
  intro s
  have horderly : s.Orderly :=
    hrun.invariant (fun s i hs hg ↦ hs.step lib hg.1.ne_start hg.2.1 hg.2.2) (.start lib hmode db)
  have hserved := horderly.served
  refine ⟨hserved.order, fun rs r hr ↦ hserved.before hr, hserved.pending_iff, ?_⟩
  intro hready hreceived
  exact hserved.complete hready hreceived

/-! ## Overlapping requests -/

/-- A database whose head is block 9. -/
def databaseAtNine : Undo Tables := ⟨9, { (∅ : Tables) with state := some ⟨9, 9, 9, 9⟩ }, []⟩

/-- A result for a request. -/
def requestedResult (blockNum : Nat) : Input :=
  .result (bareResult ⟨blockNum, blockNum⟩ (blockNum - 1) 9)

/-- Two requests that overlap before the stream is ready, another one while they are served,
and one that is refused. -/
def overlappingRequests : List Input :=
  [.request ⟨3, 5⟩, .request ⟨4, 6⟩, .ready 0, requestedResult 3, requestedResult 4,
    requestedResult 4, .request ⟨3, 4⟩, .request ⟨8, 12⟩, requestedResult 5, requestedResult 3]

set_option maxRecDepth 10000 in
theorem requests_served_in_order_overlapping :
    let s := overlappingRequests.foldl (Session.step .lenient)
      (Session.start .lenient { interactiveMode := true } databaseAtNine)
    s.received = [3, 4, 4, 5, 3] ∧ s.accepted = [⟨3, 5⟩, ⟨4, 6⟩, ⟨3, 4⟩] ∧
      requests s.world.log = s.accepted := by
  intro s
  have hrun : Run.Guarded (Session.step .lenient)
      (fun s i ↦ i.NoStart ∧ i.RequestRead ∧ AnswersRequests s i)
      (Session.start .lenient { interactiveMode := true } databaseAtNine)
      overlappingRequests := by
    decide +kernel
  have hserved := requests_served_in_order .lenient { interactiveMode := true } rfl databaseAtNine
    overlappingRequests hrun
  have hreceived : s.received = [3, 4, 4, 5, 3] := by decide +kernel
  have hsent : (requests s.world.log).flatMap InteractiveRequest.blocks = [3, 4, 4, 5, 3] := by
    decide +kernel
  exact ⟨hreceived, by decide +kernel,
    hserved.2.2.2 (by decide +kernel) (hreceived.trans hsent.symm)⟩

end Chronicle
