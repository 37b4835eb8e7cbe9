import Chronicle.Interactive.BlockAbis

/-!
# Backpressure in interactive mode

`check_pause` was written for scan mode, where the end block is an option: at an irreversible
end block the receiver commits and stops.  In interactive mode the end block is that of the
request that is answered, and the same branch is taken whenever the reader is held back at an
irreversible block that ends a request.
-/

namespace Chronicle

open Store Effect

variable {Abi : Type} {lib : Abieos Abi}

/-! ## When the reader is checked -/

/-- A block gets past the check of the irreversible block, and all of it can be unpacked. -/
def World.processes (lib : Abieos Abi) (w : World Abi) (block : BlockPosition)
    (result : GetBlocksResult) : Bool :=
  decide (w.proc.irreversible ≤ result.lastIrreversible.blockNum) &&
    match processBlock lib block result (w.counted.atResult block result) with
    | .ok _ _ => true
    | .error _ _ => false

/-- The world in which `check_pause` is called because of an input, if it is, before the data of
its block; and the size of the priority queue. -/
def World.checks (lib : Abieos Abi) (w : World Abi) : Input → Option (World Abi × Nat)
  | .ready queueSize =>
    if w.proc.continuation = .handshake then
      some (World.served { w with proc := { w.proc with receiverReady := true } }, queueSize)
    else none
  | .timer queueSize => if w.proc.continuation = .paused then some (w, queueSize) else none
  | .receive (.ok result) queueSize =>
    if w.proc.continuation = .reading then
      match result.thisBlock with
      | none => some (w, queueSize)
      | some block =>
        if !w.proc.aborting && w.processes lib block result then
          some (w.counted.atResult block result, queueSize)
        else none
    else none
  | _ => none

/-- The exporter has asked for a slowdown, or the priority queue is too long. -/
def World.heldBack (w : World Abi) (queueSize : Nat) : Bool :=
  w.proc.slowdownRequested || w.options.maxQueueSize < queueSize

/-- The head is the block before the end block, and irreversible. -/
def World.atEnd (w : World Abi) : Bool :=
  w.proc.head = Uint32.pred w.proc.endBlockNum && w.proc.head ≤ w.proc.irreversible

/-- Whenever the reader is held back, it is not at an irreversible block that ends a
request. -/
def NotHeldAtEnd (lib : Abieos Abi) (w : World Abi) (i : Input) : Prop :=
  ∀ c ∈ w.checks lib i, c.1.heldBack c.2 = true → c.1.atEnd = false

instance (w : World Abi) (i : Input) : Decidable (NotHeldAtEnd lib w i) :=
  inferInstanceAs (Decidable (∀ _ ∈ _, _))

/-- Nothing is committed, and the reader is continued or paused: it is not `check_pause` that
aborts the receiver. -/
structure ReadsOn (lib : Abieos Abi) (w : World Abi) (i : Input) : Prop where
  committed : committed (exec lib w i).log = committed w.log
  reader : (w.checks lib i).isSome → (exec lib w i).proc.aborting = w.proc.aborting ∧
    ((exec lib w i).proc.continuation = .paused ∨
      (exec lib w i).proc.continuation = if w.proc.aborting then .closed else .reading)

/-! ## One input -/

theorem Within.committed {w w' : World Abi} (h : Within w w') :
    committed w'.log = committed w.log := by
  obtain ⟨l, hl, hin⟩ := h.log
  rw [hl, committed_append, committed_eq_nil fun r hr ↦ hin _ hr, List.append_nil]

section Steps

variable {w w₁ : World Abi} {i : Input} {queueSize : Nat}

theorem World.served_kept (w : World Abi) :
    w.served.options = w.options ∧ w.served.proc.aborting = w.proc.aborting ∧
      w.served.proc.slowdownRequested = w.proc.slowdownRequested ∧
      committed w.served.log = committed w.log := by
  rw [World.served]
  split_ifs
  · cases w.proc.interactiveReqQueue with
    | nil => exact ⟨rfl, rfl, rfl, rfl⟩
    | cons req queue =>
        exact ⟨rfl, rfl, rfl, (committed_append _ _).trans (List.append_nil _)⟩
  · exact ⟨rfl, rfl, rfl, rfl⟩

theorem World.atResult_kept (block : BlockPosition) (result : GetBlocksResult) (w : World Abi) :
    (w.counted.atResult block result).options = w.options ∧
      (w.counted.atResult block result).proc.aborting = w.proc.aborting ∧
      committed (w.counted.atResult block result).log = committed w.log := by
  change (w.counted.answered block.blockNum).options = w.options ∧
    (w.counted.answered block.blockNum).proc.aborting = w.proc.aborting ∧
    Chronicle.committed (w.counted.answered block.blockNum).log = Chronicle.committed w.log
  rw [World.answered]
  split_ifs
  · obtain ⟨hopt, habort, -, hlog⟩ := World.served_kept
      { w.counted with proc := { w.counted.proc with interactiveReqPending := false } }
    exact ⟨hopt, habort, hlog⟩
  · exact ⟨rfl, rfl, rfl⟩

/-- What the reader has to do with in interactive mode. -/
theorem mustPause_interactive (hmode : w.options.interactiveMode = true) :
    mustPause w.options w.proc queueSize = w.heldBack queueSize := by
  rw [mustPause, waitsForAck, Options.exporterWillAck_eq_false hmode, hmode, World.heldBack,
    Bool.false_and, Bool.or_false, Bool.not_true, Bool.false_and, Bool.or_false]

theorem reachedEnd_interactive (hmode : w.options.interactiveMode = true) :
    reachedEnd w.options w.proc = w.atEnd := by
  rw [reachedEnd, Options.exporterWillAck_eq_false hmode, World.atEnd, Bool.not_false,
    Bool.true_or, Bool.and_true]

/-- What `check_pause` decides on a block it decides after the data of the block. -/
theorem processBlock_readOn (h : Interactive w) {block : BlockPosition} {result : GetBlocksResult}
    {w₂ : World Abi} (hprocess :
      processBlock lib block result (w.counted.atResult block result) = .ok () w₂) :
    w₂.options = w.options ∧ w₂.proc.core = (w.counted.atResult block result).proc.core ∧
      committed w₂.log = committed w.log := by
  have hends := @processBlock_interactive Abi lib block result _ (h.atResult block result)
  rw [hprocess] at hends
  obtain ⟨w', hw', rfl⟩ := hends
  obtain ⟨hopt, -, hlog⟩ := World.atResult_kept block result w
  refine ⟨hw'.options.trans hopt, hw'.core, ?_⟩
  exact (committed_append _ _).trans ((List.append_nil _).trans (hw'.committed.trans hlog))

/-- If `check_pause` is called, the rest of the input is what it decides. -/
theorem exec_of_checks (h : Interactive w) (hc : w.checks lib i = some (w₁, queueSize)) :
    ∃ w₂ : World Abi, exec lib w i = w₂.readOn queueSize ∧ w₂.options = w.options ∧
      w₂.proc.core = w₁.proc.core ∧ w₁.options = w.options ∧
      w₁.proc.aborting = w.proc.aborting ∧ committed w₂.log = committed w.log := by
  cases i with
  | ready q =>
      rw [World.checks] at hc
      split_ifs at hc with hcont
      obtain ⟨rfl, rfl⟩ := Prod.mk.inj (Option.some.inj hc)
      obtain ⟨hopt, habort, -, hlog⟩ :=
        World.served_kept { w with proc := { w.proc with receiverReady := true } }
      refine ⟨_, ?_, hopt, rfl, hopt, habort, hlog⟩
      rw [exec, handle, if_pos hcont, catchAndClose, receiveAbi_served q h.mode]
  | timer q =>
      rw [World.checks] at hc
      split_ifs at hc with hcont
      obtain ⟨rfl, rfl⟩ := Prod.mk.inj (Option.some.inj hc)
      refine ⟨w, ?_, rfl, rfl, rfl, rfl, rfl⟩
      rw [exec, handle, if_pos hcont, catchAndClose, continueRead_readOn]
  | receive bin q =>
      cases bin with
      | error what => cases hc
      | ok result =>
          rw [World.checks] at hc
          split_ifs at hc with hcont
          rw [exec, handle, if_pos hcont, catchAndClose]
          cases hblock : result.thisBlock with
          | none =>
              rw [hblock] at hc
              obtain ⟨rfl, rfl⟩ := Prod.mk.inj (Option.some.inj hc)
              refine ⟨w, ?_, rfl, rfl, rfl, rfl, rfl⟩
              rw [receiveMessage_noBlock lib hblock]
          | some block =>
              rw [hblock] at hc
              simp only at hc
              split_ifs at hc with hgo
              obtain ⟨rfl, rfl⟩ := Prod.mk.inj (Option.some.inj hc)
              obtain ⟨hopt, habort, -⟩ := World.atResult_kept block result w
              rw [Bool.and_eq_true, Bool.not_eq_true', World.processes, Bool.and_eq_true,
                decide_eq_true_eq] at hgo
              obtain ⟨habort₀, hirr, hok⟩ := hgo
              cases hprocess : processBlock lib block result (w.counted.atResult block result) with
              | error e w₂ =>
                  rw [hprocess] at hok
                  cases hok
              | ok u w₂ =>
                  obtain ⟨hopt₂, hcore₂, hlog₂⟩ := processBlock_readOn h hprocess
                  have habort₂ : w₂.proc.aborting = false :=
                    (Proc.member_eq hcore₂ Proc.aborting fun _ ↦ rfl).trans
                      (habort.trans habort₀)
                  have hgo : receiveResult lib (.ok result) w = .ok (!w₂.proc.aborting) w₂ := by
                    rw [receiveResult_interactive lib h.mode hblock, if_neg (not_lt.mpr hirr)]
                    exact bind_run hprocess
                  have hmessage : receiveMessage lib (.ok result) q w = continueRead q w₂ := by
                    refine (bind_run hgo).trans ?_
                    rw [habort₂]
                    rfl
                  refine ⟨w₂, ?_, hopt₂, hcore₂, hopt, habort, hlog₂⟩
                  rw [hmessage, continueRead_readOn]
  | _ => cases hc

/-- What an exception leaves in the record. -/
theorem committed_catchAndClose {m : Receiver Abi Unit} {e : Abort} {w' : World Abi}
    (hm : m w = .error e w') : committed (catchAndClose m w).log = committed w'.log := by
  rw [catchAndClose, hm]
  cases e <;> rfl

/-- A block after which `check_pause` is not called commits nothing. -/
theorem committed_unchecked (h : Interactive w) {block : BlockPosition}
    {result : GetBlocksResult} (hblock : result.thisBlock = some block)
    (hgo : (!w.proc.aborting && w.processes lib block result) = false) :
    committed (catchAndClose (receiveMessage lib (.ok result) queueSize) w).log =
      committed w.log := by
  have hresult := receiveResult_interactive lib h.mode hblock
  by_cases hirr : result.lastIrreversible.blockNum < w.proc.irreversible
  · rw [if_pos hirr] at hresult
    have hmessage : receiveMessage lib (.ok result) queueSize w = .error _ w.counted :=
      bind_run_error hresult
    exact (committed_catchAndClose hmessage).trans rfl
  rw [if_neg hirr] at hresult
  cases hprocess : processBlock lib block result (w.counted.atResult block result) with
  | error e w₂ =>
      have hw₂ := @processBlock_interactive Abi lib block result _ (h.atResult block result)
      rw [hprocess] at hw₂
      have hw₂ : Within (w.counted.atResult block result) w₂ := hw₂
      have hmessage : receiveMessage lib (.ok result) queueSize w = .error e w₂ :=
        bind_run_error (hresult.trans (bind_run_error hprocess))
      exact (committed_catchAndClose hmessage).trans
        (hw₂.committed.trans (World.atResult_kept block result w).2.2)
  | ok u w₂ =>
      obtain ⟨-, hcore₂, hlog₂⟩ := processBlock_readOn h hprocess
      have habort₂ : w₂.proc.aborting = w.proc.aborting :=
        (Proc.member_eq hcore₂ Proc.aborting fun _ ↦ rfl).trans
          (World.atResult_kept block result w).2.1
      have habort : w.proc.aborting = true := by
        rw [World.processes, hprocess, decide_eq_true (not_lt.mp hirr), Bool.true_and,
          Bool.and_true, Bool.not_eq_false'] at hgo
        exact hgo
      have hmessage : receiveMessage lib (.ok result) queueSize w =
          .ok () { w₂ with proc := { w₂.proc with continuation := .closed } } := by
        refine (bind_run (hresult.trans (bind_run hprocess))).trans ?_
        rw [habort₂, habort]
        rfl
      rw [catchAndClose, hmessage]
      exact hlog₂

/-- Otherwise nothing is committed. -/
theorem committed_exec_of_checks_none (h : Interactive w) (hstart : ∀ o, i ≠ .start o)
    (hc : w.checks lib i = none) : committed (exec lib w i).log = committed w.log := by
  cases i with
  | start o => exact absurd rfl (hstart o)
  | ready q =>
      rw [World.checks] at hc
      split_ifs at hc with hcont
      rw [exec, handle, if_neg hcont]
  | timer q =>
      rw [World.checks] at hc
      split_ifs at hc with hcont
      rw [exec, handle, if_neg hcont]
  | ack n =>
      rw [exec, handleAny, catchAndClose, ackBlock_run]
      split_ifs <;> rfl
  | slowdown pause =>
      rw [exec, handleAny]
      split_ifs <;> rfl
  | stale =>
      rw [exec, handleAny, catchAndClose, checkStaleHead_run]
      split_ifs <;> rfl
  | decode account =>
      rw [exec, handleAny]
      split_ifs
      · rfl
      · rw [catchAndClose, bind_run (getContractAbiReady_run lib account h.cached)]
        have hready : Chronicle.committed (w.readyLog lib account) = [] := by
          refine committed_eq_nil fun r hr ↦ ?_
          rcases World.mem_readyLog hr with hr | hr <;> cases hr
        change Chronicle.committed (w.log ++ w.readyLog lib account) = _
        rw [committed_append, hready, List.append_nil]
  | request req =>
      rw [exec, if_pos h.mode, handleAny]
      split_ifs
      · rfl
      · rw [catchAndClose, onBlockReq_run]
        change Chronicle.committed (if _ then _ else _ : World Abi).log = _
        split_ifs
        · exact (World.served_kept { w with proc := { w.proc with
            interactiveReqQueue := w.proc.interactiveReqQueue ++ [req] } }).2.2.2
        · rfl
  | scanner tables =>
      rw [exec]
      split_ifs <;> rfl
  | receive bin q =>
      rw [exec, handle]
      split_ifs with hcont
      · cases bin with
        | error what => exact committed_catchAndClose (receiveMessage_error lib what q w)
        | ok result =>
            rw [World.checks, if_pos hcont] at hc
            cases hblock : result.thisBlock with
            | none =>
                rw [hblock] at hc
                cases hc
            | some block =>
                rw [hblock] at hc
                refine committed_unchecked h hblock ?_
                by_contra hgo
                simp only [if_pos (Bool.not_eq_false _ ▸ hgo : (_ && _) = true)] at hc
                cases hc
      · rfl

/-- **An input leaves the reader to read on or to pause, and commits nothing, exactly if the
reader is not held back at an irreversible block that ends a request.** -/
theorem readsOn_iff (h : Interactive w) (hstart : ∀ o, i ≠ .start o) :
    ReadsOn lib w i ↔ NotHeldAtEnd lib w i := by
  cases hc : w.checks lib i with
  | none =>
      refine iff_of_true ⟨committed_exec_of_checks_none h hstart hc, fun hsome ↦ ?_⟩ fun c hmem ↦ ?_
      · rw [hc] at hsome
        cases hsome
      · rw [hc] at hmem
        cases hmem
  | some c =>
      obtain ⟨w₁, queueSize⟩ := c
      obtain ⟨w₂, hexec, hopt₂, hcore, hopt₁, habort₁, hlog₂⟩ := exec_of_checks h hc
      have hmember : ∀ {α : Type} (f : Proc Abi → α), (∀ p : Proc Abi, f p = f p.core) →
          f w₂.proc = f w₁.proc := fun f hf ↦ Proc.member_eq hcore f hf
      have habort₂ : w₂.proc.aborting = w.proc.aborting :=
        (hmember Proc.aborting fun _ ↦ rfl).trans habort₁
      have hheld : mustPause w₂.options w₂.proc queueSize = w₁.heldBack queueSize := by
        rw [mustPause_interactive (hopt₂ ▸ h.mode), World.heldBack, World.heldBack,
          hmember Proc.slowdownRequested fun _ ↦ rfl, hopt₂, hopt₁]
      have hend : reachedEnd w₂.options w₂.proc = w₁.atEnd := by
        rw [reachedEnd_interactive (hopt₂ ▸ h.mode), World.atEnd, World.atEnd,
          hmember Proc.head fun _ ↦ rfl, hmember Proc.endBlockNum fun _ ↦ rfl,
          hmember Proc.irreversible fun _ ↦ rfl]
      have hguard : NotHeldAtEnd lib w i ↔ (w₁.heldBack queueSize = true → w₁.atEnd = false) := by
        rw [NotHeldAtEnd, hc]
        exact ⟨fun hall ↦ hall _ rfl, fun hone c hmem ↦ Option.some.inj hmem ▸ hone⟩
      rw [hguard]
      rw [World.readOn, hheld, hend] at hexec
      constructor
      · intro hreads hback
        by_contra hatEnd
        rw [if_pos hback, if_pos (Bool.not_eq_false _ ▸ hatEnd)] at hexec
        have hcommitted := hreads.committed
        rw [hexec] at hcommitted
        have happend : Chronicle.committed w₂.ended.log =
            Chronicle.committed w₂.log ++ [commitRev w₂.options w₂.proc] := committed_append _ _
        rw [happend, hlog₂] at hcommitted
        exact absurd (List.append_right_eq_self.mp hcommitted) (List.cons_ne_nil _ _)
      · intro hnot
        cases hback : w₁.heldBack queueSize with
        | true =>
            rw [if_pos hback, hnot hback, if_neg Bool.false_ne_true] at hexec
            refine ⟨?_, fun _ ↦ ⟨?_, .inl ?_⟩⟩
            · rw [hexec]
              exact (committed_append _ _).trans ((List.append_nil _).trans hlog₂)
            · rw [hexec]
              exact habort₂
            · rw [hexec]
              rfl
        | false =>
            rw [hback, if_neg Bool.false_ne_true] at hexec
            refine ⟨?_, fun _ ↦ ⟨?_, .inr ?_⟩⟩
            · rw [hexec]
              exact hlog₂
            · rw [hexec]
              exact habort₂
            · rw [hexec, ← habort₂]
              rfl

end Steps

/-! ## Runs -/

theorem guarded_readsOn_iff {w : World Abi} {inputs : List Input} (h : Interactive w)
    (hno : ∀ i ∈ inputs, i.NoStart) :
    Run.Guarded (exec lib) (ReadsOn lib) w inputs ↔
      Run.Guarded (exec lib) (NotHeldAtEnd lib) w inputs := by
  induction inputs generalizing w with
  | nil => exact Iff.rfl
  | cons i inputs ih =>
      have hstart := Input.NoStart.ne_start (hno i List.mem_cons_self)
      rw [Run.Guarded, Run.Guarded, readsOn_iff h hstart]
      exact and_congr_right fun _ ↦
        ih (h.exec lib hstart) fun i' hi' ↦ hno i' (List.mem_cons_of_mem _ hi')

/-- **In every run of a process in interactive mode: `check_pause` never stops the receiver
exactly if the reader is never held back at an irreversible block that ends a request.** -/
theorem session_not_ended_iff (o : Options) (hmode : o.interactiveMode = true) (db : Undo Tables)
    (inputs : List Input) (hno : ∀ i ∈ inputs, i.NoStart) :
    Run.Guarded (exec lib) (ReadsOn lib) (startedOn lib o db) inputs ↔
      Run.Guarded (exec lib) (NotHeldAtEnd lib) (startedOn lib o db) inputs := by
  rw [interactive_startedOn hmode]
  exact guarded_readsOn_iff (interactive_bootWorld hmode db []) hno

/-- The exporter is slow while block 1 of two comes. -/
def slowRange : List Input :=
  [.request ⟨1, 3⟩, .ready 0, .slowdown true, requestedResult 1, .slowdown false, .timer 0,
    requestedResult 2]

set_option maxRecDepth 10000 in
theorem session_not_ended_slow :
    Run.Guarded (exec .tagged) (ReadsOn .tagged)
      (startedOn .tagged { interactiveMode := true } (twoRevisions [] [])) slowRange :=
  (session_not_ended_iff { interactiveMode := true } rfl (twoRevisions [] []) slowRange
    (by decide)).mpr (by decide)

/-- The exporter is slow while the only block comes, and the receiver stops. -/
theorem session_ended_after_one :
    ∃ (o : Options) (db : Undo Tables) (inputs : List Input), o.interactiveMode = true ∧
      (∀ i ∈ inputs, i.NoStart) ∧
      ¬Run.Guarded (exec .tagged) (ReadsOn .tagged) (startedOn .tagged o db) inputs := by
  refine ⟨{ interactiveMode := true }, twoRevisions [] [],
    [.request ⟨1, 2⟩, .ready 0, .slowdown true, requestedResult 1], rfl, by decide, fun h ↦ ?_⟩
  exact absurd h.2.2.2.1.committed (by decide)

end Chronicle
