import Chronicle.Interactive.BlockAbis

/-!
# The stale check

`check_stale_head` takes it for silence that the head has the number that it had at the check
before.  But a block that replaces another, or a request for the same blocks, brings the head
back to that number although results have come.
-/

namespace Chronicle

open Store Effect

variable {Abi : Type} {lib : Abieos Abi}

/-! ## What the check looks at -/

/-- The members that only `check_stale_head` and `receive_result` count with. -/
def Proc.watched (p : Proc Abi) : Nat × Nat × Bool :=
  (p.staleCheckLastHead, p.receivedBlocks, p.aborting)

theorem Accept.watched {block : BlockPosition} {result : GetBlocksResult} {w : World Abi}
    {r : EStateM.Result Abort (World Abi) Unit} (h : Accept block result w r) :
    Ends (fun _ w' ↦ w'.proc.watched = w.proc.watched)
      (fun _ w' ↦ w'.proc.watched = w.proc.watched) r := by
  cases h <;> rfl

section Steps

variable {w w' : World Abi}

theorem World.served_watched (w : World Abi) : w.served.proc.watched = w.proc.watched := by
  rw [World.served]
  split_ifs
  · cases w.proc.interactiveReqQueue <;> rfl
  · rfl

theorem World.answered_watched (b : Nat) (w : World Abi) :
    (w.answered b).proc.watched = w.proc.watched := by
  rw [World.answered]
  split_ifs
  · exact World.served_watched _
  · rfl

theorem watched_of_core (h : w'.proc.core = w.proc.core) : w'.proc.watched = w.proc.watched :=
  Proc.member_eq h Proc.watched fun _ ↦ rfl

/-- A world in scan mode or in interactive mode. -/
def Working (w : World Abi) : Prop := Scanning w ∨ Interactive w

theorem Working.cached (h : Working w) : w.proc.Cached := by
  rcases h with h | h
  · exact h.cached
  · exact h.cached

variable (lib) in
theorem Working.exec {i : Input} (h : Working w) (hno : i.NoStart) : Working (exec lib w i) := by
  rcases h with h | h
  · exact .inl (h.exec lib hno.scanInput)
  · exact .inr (h.exec lib hno.ne_start)

/-- However `receive_result` ends on a result with a block, it has counted it, and has neither
made a check nor aborted the receiver. -/
theorem receiveResult_watched (h : Working w) {block : BlockPosition} {result : GetBlocksResult}
    (hblock : result.thisBlock = some block) :
    Ends (fun _ w' ↦ w'.proc.watched = w.counted.proc.watched)
      (fun _ w' ↦ w'.proc.watched = w.counted.proc.watched) (receiveResult lib (.ok result) w) := by
  rcases h with h | h
  · have hcases := receiveResult_cases lib h.mode h.cached hblock
    generalize receiveResult lib (.ok result) w = r at hcases
    cases hcases with
    | refused haccept => exact haccept.watched
    | broken haccept hprocess =>
        exact (watched_of_core (hprocess.frame (haccept.frame h.cached).2.2.1).2.1).trans
          haccept.watched
    | completed haccept hprocess =>
        exact (watched_of_core (hprocess.frame (haccept.frame h.cached).2.2.1).2.1).trans
          haccept.watched
  · have hat : (w.counted.atResult block result).proc.watched = w.counted.proc.watched :=
      World.answered_watched block.blockNum w.counted
    rw [receiveResult_interactive lib h.mode hblock]
    split_ifs
    · rfl
    · refine Ends.bind (@processBlock_interactive Abi lib block result _ (h.atResult block result))
        ?_ fun _ _ hw ↦ (watched_of_core hw.core).trans hat
      rintro _ _ ⟨w₁, hw₁, rfl⟩
      exact (watched_of_core hw₁.core).trans hat

/-- What an input other than the check does to what the check looks at: `n` results were
counted. -/
structure Watches (w : World Abi) (n : Nat) (w' : World Abi) : Prop where
  last : w'.proc.staleCheckLastHead = w.proc.staleCheckLastHead
  count : w'.proc.receivedBlocks = w.proc.receivedBlocks + n
  aborting : w.proc.aborting = true → w'.proc.aborting = true

theorem Watches.refl (w : World Abi) : Watches w 0 w := ⟨rfl, rfl, fun h ↦ h⟩

theorem Watches.of_watched (h : w'.proc.watched = w.proc.watched) : Watches w 0 w' := by
  rw [Proc.watched, Proc.watched, Prod.mk.injEq, Prod.mk.injEq] at h
  exact ⟨h.1, h.2.1, fun habort ↦ h.2.2.trans habort⟩

theorem Watches.of_counted (h : w'.proc.watched = w.counted.proc.watched) : Watches w 1 w' := by
  rw [Proc.watched, Proc.watched, Prod.mk.injEq, Prod.mk.injEq] at h
  exact ⟨h.1, h.2.1, fun habort ↦ h.2.2.trans habort⟩

/-- The reader goes on, pauses or stops. -/
theorem Watches.readOn {n : Nat} (h : Watches w n w') (queueSize : Nat) :
    Watches w n (w'.readOn queueSize) := by
  rw [World.readOn]
  split_ifs
  · exact ⟨h.last, h.count, fun _ ↦ rfl⟩
  · exact ⟨h.last, h.count, h.aborting⟩
  · exact ⟨h.last, h.count, h.aborting⟩

theorem Watches.catchAndClose {m : Receiver Abi Unit} {n : Nat}
    (h : Ends (fun _ ↦ Watches w n) (fun _ ↦ Watches w n) (m w)) :
    Watches w n (catchAndClose m w) := by
  rw [Chronicle.catchAndClose]
  cases hm : m w with
  | ok u w₁ =>
      rw [hm] at h
      exact h
  | error e w₁ =>
      rw [hm] at h
      have h : Watches w n w₁ := h
      cases e with
      | exception what => exact ⟨h.last, h.count, fun _ ↦ rfl⟩
      | hang => exact ⟨h.last, h.count, h.aborting⟩
      | undefinedBehaviour => exact ⟨h.last, h.count, h.aborting⟩

/-- A result with a block. -/
theorem watches_receive (h : Working w) {block : BlockPosition} {result : GetBlocksResult}
    (hblock : result.thisBlock = some block) (queueSize : Nat) :
    Ends (fun _ ↦ Watches w 1) (fun _ ↦ Watches w 1)
      (receiveMessage lib (.ok result) queueSize w) := by
  refine (receiveResult_watched h hblock).bind ?_ fun _ _ hw ↦ .of_counted hw
  intro goOn w₁ hw₁
  cases goOn with
  | true =>
      change Ends _ _ (continueRead queueSize w₁)
      rw [continueRead_readOn]
      exact (Watches.of_counted hw₁).readOn queueSize
  | false => exact ⟨(Watches.of_counted hw₁).last, (Watches.of_counted hw₁).count,
      (Watches.of_counted hw₁).aborting⟩

variable (lib) in
/-- An input other than the check counts the result that it delivers. -/
theorem watches_exec {i : Input} (h : Working w) (hno : i.NoStart) (hstale : i ≠ .stale) :
    Watches w (delivered w i).toList.length (exec lib w i) := by
  cases i with
  | start o => exact hno.elim
  | stale => exact absurd rfl hstale
  | ready queueSize =>
      rw [exec, handle]
      split_ifs
      · refine Watches.catchAndClose ?_
        cases hmode : w.options.interactiveMode with
        | true =>
            rw [receiveAbi_served queueSize hmode]
            have hserved : Watches w 0 (World.served
                { w with proc := { w.proc with receiverReady := true } }) :=
              .of_watched (World.served_watched _)
            exact hserved.readOn queueSize
        | false =>
            rw [receiveAbi_asking queueSize hmode]
            have hasking : Watches w 0 w.asking := .of_watched rfl
            exact hasking.readOn queueSize
      · exact .refl w
  | timer queueSize =>
      rw [exec, handle]
      split_ifs
      · refine Watches.catchAndClose ?_
        rw [continueRead_readOn]
        exact (Watches.refl w).readOn queueSize
      · exact .refl w
  | ack n =>
      rw [exec, handleAny]
      split_ifs
      · exact .refl w
      · refine Watches.catchAndClose ?_
        rw [ackBlock_run]
        change Watches w 0 { w with proc := w.proc.ackedBy n }
        rw [Proc.ackedBy]
        split_ifs <;> exact ⟨rfl, rfl, fun habort ↦ by first | rfl | exact habort⟩
      · exact .refl w
  | slowdown pause =>
      rw [exec, handleAny]
      split_ifs
      · exact .refl w
      · exact .of_watched rfl
  | decode account =>
      rw [exec, handleAny]
      split_ifs
      · exact .refl w
      · refine Watches.catchAndClose ?_
        rw [bind_run (getContractAbiReady_run lib account h.cached)]
        exact .of_watched (watched_of_core (w.proc.load_core lib account (w.lookupAbi account)))
  | request req =>
      rw [exec, handleAny]
      split_ifs
      · exact .refl w
      · refine Watches.catchAndClose ?_
        rw [onBlockReq_run]
        change Watches w 0 (if _ then _ else _ : World Abi)
        split_ifs
        · exact .of_watched (World.served_watched { w with
            proc := { w.proc with interactiveReqQueue := w.proc.interactiveReqQueue ++ [req] } })
        · exact .refl w
      · exact .refl w
  | scanner tables =>
      rw [exec]
      split_ifs
      · exact .of_watched rfl
      · exact .refl w
  | receive bin queueSize =>
      rw [exec, handle]
      split_ifs with hread
      · refine Watches.catchAndClose ?_
        cases bin with
        | error what =>
            rw [receiveMessage_error]
            exact .refl w
        | ok result =>
            cases hblock : result.thisBlock with
            | none =>
                rw [receiveMessage_noBlock lib hblock, delivered, if_pos hread, hblock]
                exact (Watches.refl w).readOn queueSize
            | some block =>
                rw [delivered_receive queueSize hblock hread]
                exact watches_receive h hblock queueSize
      · cases bin with
        | error what => exact .refl w
        | ok result =>
            rw [delivered, if_neg hread]
            exact .refl w

end Steps

/-- A receiver that is aborted already is not changed by a check that finds it stale. -/
theorem Proc.stale_aborting {p : Proc Abi} (habort : p.aborting = true)
    (hlast : p.staleCheckLastHead = p.head) :
    { p with aborting := true } = { p with staleCheckLastHead := p.head } := by
  calc { p with aborting := true }
      = { p with aborting := p.aborting } :=
        congrArg (fun b ↦ { p with aborting := b }) habort.symm
    _ = { p with staleCheckLastHead := p.staleCheckLastHead } := rfl
    _ = { p with staleCheckLastHead := p.head } :=
        congrArg (fun n ↦ { p with staleCheckLastHead := n }) hlast

/-! ## Runs -/

/-- A receiver under the stale check, with the head at the check before, or at the start, and the
number of results with a block that were received since. -/
structure Watch (Abi : Type) where
  world : World Abi
  checkedHead : Nat
  received : Nat := 0

/-- Whether an input is a check of a process that does not hang. -/
def World.checksHead (w : World Abi) : Input → Bool
  | .stale => w.proc.continuation ≠ .hung
  | _ => false

namespace Watch

variable {s : Watch Abi} {i : Input}

variable (lib) in
/-- What an input does to a receiver under the stale check. -/
def step (s : Watch Abi) (i : Input) : Watch Abi :=
  if s.world.checksHead i then
    { world := exec lib s.world i, checkedHead := s.world.proc.head }
  else
    { world := exec lib s.world i
      checkedHead := s.checkedHead
      received := s.received + (delivered s.world i).toList.length }

variable (lib) in
/-- A process that was started on a database. -/
def start (o : Options) (db : Undo Tables) : Watch Abi :=
  { world := startedOn lib o db, checkedHead := (startedOn lib o db).proc.head }

variable (lib) in
/-- If a result was received since the check before, a check only takes note of the head, and
the timer is started again. -/
def Rearms (s : Watch Abi) (i : Input) : Prop :=
  s.world.checksHead i = true → 0 < s.received →
    exec lib s.world i = { s.world with
      proc := { s.world.proc with staleCheckLastHead := s.world.proc.head } }

/-- If a result was received since the check before, the head is not where it was then, or the
reader pauses; or the receiver is aborted anyway. -/
def HeadMoved (s : Watch Abi) (i : Input) : Prop :=
  s.world.checksHead i = true → 0 < s.received →
    s.world.proc.aborting = true ∨ s.world.proc.head ≠ s.checkedHead ∨
      0 < s.world.proc.pauseTimeMsec

instance (s : Watch Abi) (i : Input) : Decidable (s.HeadMoved i) :=
  inferInstanceAs (Decidable (_ → _ → _))

/-- The receiver remembers the head of the check before, unless it is aborted, and it has counted
the results. -/
structure Faithful (s : Watch Abi) : Prop where
  working : Working s.world
  last : s.world.proc.aborting = true ∨ s.world.proc.staleCheckLastHead = s.checkedHead
  received : s.received ≤ s.world.proc.receivedBlocks

theorem exec_stale (h : s.world.checksHead .stale = true) :
    exec lib s.world .stale = { s.world with proc := s.world.proc.staleChecked } := by
  have hhung : s.world.proc.continuation ≠ .hung := of_decide_eq_true h
  rw [exec, handleAny, if_neg hhung, catchAndClose, checkStaleHead_run]

theorem checksHead_iff {w : World Abi} :
    w.checksHead i = true ↔ i = .stale ∧ w.proc.continuation ≠ .hung := by
  cases i with
  | stale => exact decide_eq_true_iff.trans (and_iff_right rfl).symm
  | _ => exact iff_of_false Bool.false_ne_true fun h ↦ by cases h.1

theorem Faithful.step (h : s.Faithful) (hno : i.NoStart) : (s.step lib i).Faithful := by
  rw [Watch.step]
  split_ifs with hcheck
  · obtain ⟨rfl, -⟩ := checksHead_iff.mp hcheck
    refine ⟨h.working.exec lib hno, ?_, Nat.zero_le _⟩
    change (exec lib s.world .stale).proc.aborting = true ∨
      (exec lib s.world .stale).proc.staleCheckLastHead = s.world.proc.head
    rw [exec_stale hcheck, Proc.staleChecked]
    split_ifs
    · exact .inl rfl
    · exact .inr rfl
  · by_cases hstale : i = .stale
    · subst hstale
      have hhung : s.world.proc.continuation = .hung := by
        by_contra hhung
        exact hcheck (checksHead_iff.mpr ⟨rfl, hhung⟩)
      have hexec : exec lib s.world .stale = s.world := by
        rw [exec, handleAny, if_pos hhung]
      rw [hexec]
      exact ⟨h.working, h.last, h.received⟩
    · have hw := watches_exec lib h.working hno hstale
      refine ⟨h.working.exec lib hno, ?_, ?_⟩
      · rcases h.last with habort | hlast
        · exact .inl (hw.aborting habort)
        · exact .inr (hw.last.trans hlast)
      · change s.received + _ ≤ (exec lib s.world i).proc.receivedBlocks
        rw [hw.count]
        exact Nat.add_le_add_right h.received _

/-- **After a result was received, a check starts the timer again exactly if the head is not where
it was at the check before, or the reader pauses, or the receiver is aborted anyway.** -/
theorem Faithful.rearms_iff (h : s.Faithful) : s.Rearms lib i ↔ s.HeadMoved i := by
  refine forall_congr' fun hcheck ↦ forall_congr' fun hpos ↦ ?_
  obtain ⟨rfl, -⟩ := checksHead_iff.mp hcheck
  have hcount : 0 < s.world.proc.receivedBlocks := hpos.trans_le h.received
  rw [exec_stale hcheck, Proc.staleChecked]
  by_cases hstale : s.world.proc.stale
  · rw [if_pos hstale]
    obtain ⟨hlast, hpause, -⟩ := hstale
    constructor
    · intro heq
      have habort := congrArg (fun w : World Abi ↦ w.proc.aborting) heq
      exact .inl habort.symm
    · rintro (habort | hmoved | hpaused)
      · exact congrArg (fun p ↦ { s.world with proc := p }) (Proc.stale_aborting habort hlast)
      · rcases h.last with habort | hsame
        · exact congrArg (fun p ↦ { s.world with proc := p }) (Proc.stale_aborting habort hlast)
        · exact absurd (hlast.symm.trans hsame) hmoved
      · exact absurd hpause (Nat.pos_iff_ne_zero.mp hpaused)
  · rw [if_neg hstale]
    refine iff_of_true rfl ?_
    rcases h.last with habort | hsame
    · exact .inl habort
    · by_cases hmoved : s.world.proc.head = s.checkedHead
      · refine .inr (.inr (Nat.pos_of_ne_zero fun hpause ↦ hstale ⟨?_, hpause, hcount⟩))
        exact hsame.trans hmoved.symm
      · exact .inr (.inl hmoved)

theorem loadState_ends (o : Options) (w : World Abi) :
    Ends (fun _ _ ↦ True) (fun e _ ↦ ∃ what, e = .exception what)
      (loadState (bootWorld o w.db w.log)) := by
  by_cases hok : w.db.undoAll.current.state = none ∨ o.startBlockNum = 0
  · rw [loadState_run hok, finishLoadState_run (loadedWorld_spec o w).1]
    split_ifs
    · exact ⟨_, rfl⟩
    · trivial
  · push Not at hok
    obtain ⟨s, hs⟩ := Option.ne_none_iff_exists'.mp hok.1
    have hpos : 0 < (bootWorld o w.db w.log).options.startBlockNum := Nat.pos_of_ne_zero hok.2
    have hhead : loadHead { bootWorld o w.db w.log with db := w.db.undoAll } =
        .error (.exception "start-block can only be specified for initial startup")
          { bootWorld o w.db w.log with
            db := w.db.undoAll, proc := (bootWorld o w.db w.log).proc.at s } := by
      rw [loadHead_some hs, if_pos hpos]
      rfl
    exact Ends.bind_ok (a := w.db.stack.length) rfl (bind_run_error hhead ▸ ⟨_, rfl⟩)

/-- A process takes note of its head, unless it does not get that far. -/
theorem start_last (o : Options) (w : World Abi) :
    (exec lib w (.start o)).proc.aborting = true ∨
      (exec lib w (.start o)).proc.staleCheckLastHead = (exec lib w (.start o)).proc.head := by
  rw [exec, catchAndClose, startReceiver_run]
  split_ifs
  · have hends := loadState_ends o w
    cases hload : loadState (bootWorld o w.db w.log) with
    | ok u w' =>
        rw [bind_run hload]
        exact .inr rfl
    | error e w' =>
        rw [hload] at hends
        obtain ⟨what, rfl⟩ := hends
        rw [bind_run_error hload]
        exact .inl rfl
  · exact .inr rfl

variable (lib) in
theorem faithful_start (o : Options) (db : Undo Tables) : (start lib o db).Faithful := by
  refine ⟨?_, start_last o _, Nat.zero_le _⟩
  cases hmode : o.interactiveMode with
  | false => exact .inl (follows_start lib hmode _).2
  | true =>
      change Working (startedOn lib o db)
      rw [interactive_startedOn hmode]
      exact .inr (interactive_bootWorld hmode db [])

end Watch

theorem guarded_rearms_iff {s : Watch Abi} {inputs : List Input} (h : s.Faithful)
    (hno : ∀ i ∈ inputs, i.NoStart) :
    Run.Guarded (Watch.step lib) (Watch.Rearms lib) s inputs ↔
      Run.Guarded (Watch.step lib) Watch.HeadMoved s inputs := by
  induction inputs generalizing s with
  | nil => exact Iff.rfl
  | cons i inputs ih =>
      rw [Run.Guarded, Run.Guarded, h.rearms_iff]
      exact and_congr_right fun _ ↦
        ih (h.step (hno i List.mem_cons_self)) fun i' hi' ↦ hno i' (List.mem_cons_of_mem _ hi')

/-- **In every run of a process, in either mode: every check after a result was received starts
the timer again exactly if, at each of them, the head is not where it was at the check before, or
the reader pauses, or the receiver is aborted anyway.** -/
theorem stale_after_silence_iff (o : Options) (db : Undo Tables) (inputs : List Input)
    (hno : ∀ i ∈ inputs, i.NoStart) :
    Run.Guarded (Watch.step lib) (Watch.Rearms lib) (Watch.start lib o db) inputs ↔
      Run.Guarded (Watch.step lib) Watch.HeadMoved (Watch.start lib o db) inputs :=
  guarded_rearms_iff (Watch.faithful_start lib o db) hno

/-- A block between two checks. -/
def checkedBlocks : List Input :=
  [.ready 0, .result (bareResult ⟨1, 1⟩ 0 0), .stale, .result (bareResult ⟨2, 2⟩ 1 0), .stale]

set_option maxRecDepth 10000 in
theorem stale_after_silence_next :
    Run.Guarded (Watch.step .lenient) (Watch.Rearms .lenient)
      (Watch.start .lenient {} ⟨0, ∅, []⟩) checkedBlocks :=
  (stale_after_silence_iff {} ⟨0, ∅, []⟩ checkedBlocks (by decide)).mpr (by decide +kernel)

set_option maxRecDepth 10000 in
/-- Between two checks the block at the head is replaced, and the receiver is aborted. -/
theorem stale_after_replaced :
    ∃ (o : Options) (db : Undo Tables) (inputs : List Input), (∀ i ∈ inputs, i.NoStart) ∧
      ¬Run.Guarded (Watch.step .lenient) (Watch.Rearms .lenient)
        (Watch.start .lenient o db) inputs := by
  refine ⟨{}, ⟨0, ∅, []⟩, [.ready 0, .result (bareResult ⟨1, 1⟩ 0 0),
    .result (bareResult ⟨2, 2⟩ 1 0), .stale, .result (bareResult ⟨2, 3⟩ 1 0), .stale],
    by decide, fun h ↦ ?_⟩
  have hrearms := h.2.2.2.2.2.1 (by decide +kernel) (by decide +kernel)
  have haborting := congrArg (fun w ↦ w.proc.aborting) hrearms
  exact absurd haborting (by decide +kernel)

end Chronicle
