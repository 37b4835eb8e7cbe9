import Chronicle.Block.Published
import Chronicle.Consumer.Stream
import Chronicle.Scan.AbiCache
import Chronicle.Scan.Export

/-!
# What a process tells

What a process in scan mode publishes is a function of its options, of the database that it
starts on and of the results that it receives.  `Reporter` computes the events from these alone:
it has no exporter, no timers and no cache of ABIs.  Whatever happens between the results, a
process publishes what the reporter makes of them, in the same order, and pauses besides.
-/

namespace Chronicle

open Store Effect

variable {Abi : Type} (lib : Abieos Abi)

/-! ## The reporter -/

/-- The position, the tables, and the heading of the last block that came with one. -/
structure Reporter where
  scanner : Scanner
  heading : Heading

namespace Reporter

/-- The reporter after a result. -/
def next (r : Reporter) (d : BlockPosition × GetBlocksResult) : Reporter :=
  { scanner := r.scanner.scan lib d, heading := d.2.remembered r.heading }

/-- The events of a result: a fork, if it replaces blocks, and those of the block. -/
def report (o : Options) (r : Reporter) (d : BlockPosition × GetBlocksResult) : List Event :=
  (if d.2.lastIrreversible.blockNum < d.1.blockNum ∧ d.1.blockNum ≤ r.scanner.position.head then
    [networkFork d.1.blockNum d.2.lastIrreversible.blockNum r.scanner.position.head]
  else []) ++
    blockEvents lib o (stateOf d.1 d.2) (d.2.remembered r.heading)
      (r.scanner.placed d).current.contractAbi d.2

/-- The reporter that a process starts with. -/
def start (o : Options) (db : Undo Tables) : Reporter :=
  { scanner := Scanner.start o db, heading := ⟨{}, 0⟩ }

end Reporter

/-- The events at the start of a process, unless it is refused. -/
def startEvents (o : Options) (db : Undo Tables) : List Event :=
  if db.undoAll.current.state = none ∨ o.startBlockNum = 0 then
    published (startForks o db : List (Observation Unit)) else []

/-- Not a pause. -/
def Event.telling : Event → Bool
  | .receiverPause _ => false
  | _ => true

/-- The events of a record, without the pauses. -/
def told (log : List (Observation Abi)) : List Event := (published log).filter Event.telling

/-! ## Records -/

section Records

variable {lib} {w w' : World Abi}

theorem told_append (l l' : List (Observation Abi)) : told (l ++ l') = told l ++ told l' := by
  rw [told, published_append, List.filter_append]
  rfl

/-- Pauses are not told. -/
theorem told_of_still {es : List Event} (h : published w'.log = published w.log ++ es)
    (hes : ∀ e ∈ es, e.Still) : told w'.log = told w.log := by
  have hnone : es.filter Event.telling = [] := by
    refine List.filter_eq_nil_iff.mpr fun e he ↦ ?_
    have hstill := hes e he
    cases e with
    | receiverPause _ => exact Bool.false_ne_true
    | _ => exact hstill.elim
  rw [told, h, List.filter_append, hnone, List.append_nil]
  rfl

theorem Calm.told_eq (h : Calm w w') : told w'.log = told w.log := by
  obtain ⟨es, hes, hstill⟩ := h.publishes
  exact told_of_still hes hstill

theorem Ended.told_eq (h : Ended w w') : told w'.log = told w.log :=
  congrArg (List.filter Event.telling) h.publishes

theorem Next.told_eq (h : Next w w') : told w'.log = told w.log := by
  cases h with
  | idle hidle => exact hidle.toCalm.told_eq
  | ended hend => exact hend.told_eq

theorem told_of_telling {es : List Event} (h : published w'.log = published w.log ++ es)
    (hes : ∀ e ∈ es, e.telling) : told w'.log = told w.log ++ es := by
  rw [told, h, List.filter_append, List.filter_eq_self.mpr hes]
  rfl

end Records

/-! ## The heading -/

section Headings

variable {w w' : World Abi} {own : Heading}

theorem heading_catchAndClose {m : Receiver Abi Unit}
    (h : Ends (fun _ w' ↦ w'.proc.heading = own) (fun _ w' ↦ w'.proc.heading = own) (m w)) :
    (catchAndClose m w).proc.heading = own := by
  rw [catchAndClose]
  cases hm : m w with
  | ok _ w' =>
      rw [hm] at h
      exact h
  | error e w' =>
      rw [hm] at h
      cases e <;> exact h

theorem heading_handle {c : Continuation} {m : Receiver Abi Unit} (hw : w.proc.heading = own)
    (h : Ends (fun _ w' ↦ w'.proc.heading = own) (fun _ w' ↦ w'.proc.heading = own) (m w)) :
    (handle c m w).proc.heading = own := by
  rw [handle]
  split_ifs
  · exact heading_catchAndClose h
  · exact hw

theorem heading_handleAny {m : Receiver Abi Unit} (hw : w.proc.heading = own)
    (h : Ends (fun _ w' ↦ w'.proc.heading = own) (fun _ w' ↦ w'.proc.heading = own) (m w)) :
    (handleAny m w).proc.heading = own := by
  rw [handleAny]
  split_ifs
  · exact hw
  · exact heading_catchAndClose h

theorem World.heading_readOn (queueSize : Nat) (w : World Abi) :
    (w.readOn queueSize).proc.heading = w.proc.heading := by
  rw [World.readOn]
  split_ifs <;> rfl

/-- Only a block changes the heading. -/
theorem heading_exec {i : Input} (hscan : Scanning w) (hi : i.NoStart)
    (hnone : delivered w i = none) : (exec lib w i).proc.heading = w.proc.heading := by
  cases i with
  | start o => exact hi.elim
  | ready queueSize =>
      refine heading_handle rfl ?_
      rw [receiveAbi_asking queueSize hscan.mode]
      exact w.asking.heading_readOn queueSize
  | timer queueSize =>
      refine heading_handle rfl ?_
      rw [continueRead_readOn]
      exact w.heading_readOn queueSize
  | ack n =>
      rw [exec]
      split_ifs
      · refine heading_handleAny rfl ?_
        rw [ackBlock_run, Proc.ackedBy]
        split_ifs <;> rfl
      · rfl
  | slowdown pause => exact heading_handleAny rfl rfl
  | stale =>
      refine heading_handleAny rfl ?_
      rw [checkStaleHead_run, Proc.staleChecked]
      split_ifs <;> rfl
  | decode account =>
      refine heading_handleAny rfl ?_
      rw [bind_run (getContractAbiReady_run lib account hscan.cached), Proc.load]
      split_ifs
      · rfl
      · cases w.lookupAbi account <;> rfl
  | request req =>
      rw [exec, hscan.mode]
      rfl
  | scanner tables =>
      rw [exec, hscan.mode]
      rfl
  | receive bin queueSize =>
      by_cases hread : w.proc.continuation = .reading
      · cases bin with
        | error what =>
            refine heading_handle rfl ?_
            rw [receiveMessage_error]
            rfl
        | ok result =>
            rw [delivered, if_pos hread, Option.map_eq_none_iff] at hnone
            refine heading_handle rfl ?_
            rw [receiveMessage_noBlock lib hnone]
            exact w.heading_readOn queueSize
      · rw [exec, handle, if_neg hread]

/-- A result that is processed has its position accepted and its block completed. -/
theorem processed_receive {block : BlockPosition} {result : GetBlocksResult} {queueSize : Nat}
    (hblock : result.thisBlock = some block) (hread : w.proc.continuation = .reading)
    (hp : Processed lib w (.receive (.ok result) queueSize)) :
    ∃ w₁ w₂, acceptPosition block result w.counted = .ok () w₁ ∧
      processBlock lib block result w₁ = .ok () w₂ ∧
      (exec lib w (.receive (.ok result) queueSize)).proc.heading = w₂.proc.heading := by
  have hok := hp _ (delivered_receive queueSize hblock hread)
  have hresult := receiveResult_block lib hblock w
  cases ha : acceptPosition block result w.counted with
  | error e w₁ =>
      rw [hresult, bind_run_error ha] at hok
      exact False.elim hok
  | ok _ w₁ =>
      rw [bind_run ha] at hresult
      cases hb : processBlock lib block result w₁ with
      | error e w₂ =>
          rw [hresult, bind_run_error hb] at hok
          exact False.elim hok
      | ok _ w₂ =>
          rw [bind_run hb] at hresult
          refine ⟨w₁, w₂, rfl, hb, ?_⟩
          rw [exec, handle, if_pos hread]
          refine heading_catchAndClose ?_
          rw [receiveMessage, bind_run hresult]
          by_cases habort : w₂.proc.aborting = true
          · rw [habort]
            rfl
          · rw [Bool.eq_false_iff.mpr habort]
            change Ends _ _ (continueRead queueSize w₂)
            rw [continueRead_readOn]
            exact w₂.heading_readOn queueSize

end Headings

/-! ## A process follows the reporter -/

/-- The process is where the reporter is. -/
structure Reports (o : Options) (w : World Abi) (r : Reporter) : Prop where
  scanning : Scanning w
  options : w.options = o
  decodable : AbisDecodeDb lib w.db
  coherent : CoherentWorld lib w
  follows : Follows w r.scanner
  heading : w.proc.heading = r.heading

section Steps

variable {lib} {o : Options} {w w₁ w₂ : World Abi} {r : Reporter} {block : BlockPosition}
  {result : GetBlocksResult}

/-- The events of a block are no pauses. -/
theorem telling_blockEvents {s : StateObject} {own : Heading} {abis : Table Name Bytes} {e : Event}
    (h : e ∈ blockEvents lib o s own abis result) : e.telling := by
  obtain ⟨es, heq, hin⟩ := blockEvents_eq lib o s own abis result
  rw [heq] at h
  rcases List.mem_append.mp h with h | h
  · have hinside := hin e h
    cases e with
    | receiverPause _ => exact hinside.elim
    | _ => rfl
  · rw [List.mem_singleton.mp h]
    rfl

/-- An accepted block is put on the tables that the reporter puts it on. -/
theorem Reports.placed (h : Reports lib o w r) (haccept : Accept block result w.counted (.ok () w₁)) :
    w₁.db.current = (r.scanner.placed (block, result)).current := by
  have hfollows : Follows w.counted r.scanner := ⟨h.follows.position, h.follows.db⟩
  exact (haccept.placed_scanner hfollows).current

/-- A block that is completed is told as the reporter has it. -/
theorem Reports.completed (h : Reports lib o w r)
    (ha : acceptPosition block result w.counted = .ok () w₁)
    (hb : processBlock lib block result w₁ = .ok () w₂) :
    told w₂.log = told w.log ++ r.report lib o (block, result) ∧
      w₂.proc.heading = result.remembered r.heading := by
  have haccept : Accept block result w.counted (.ok () w₁) :=
    ha ▸ acceptPosition_cases block result (w := w.counted) h.scanning.mode
  have hframe := haccept.frame h.scanning.cached
  obtain ⟨hopt, -, -, hat⟩ := hframe
  have hopt : w₁.options = o := hopt.trans h.options
  have hscan : w₁.options.interactiveMode = false := by
    rw [hopt, ← h.options]
    exact h.scanning.mode
  have hcounted : CoherentWorld lib w.counted := h.coherent.congr ⟨rfl, rfl⟩ rfl
  have hcoh : CoherentWorld lib w₁ := haccept.coherent hcounted h.decodable
  obtain ⟨hpub, hhead⟩ := processBlock_published hscan hat hcoh hb
  have hown : w₁.proc.heading = r.heading := (acceptPosition_headed ha).1.stamp.trans h.heading
  have hpos : w.proc.head = r.scanner.position.head :=
    congrArg StateObject.head h.follows.position
  refine ⟨?_, hown ▸ hhead⟩
  have hforks : told w₁.log = told w.log ++ forkEvents block result w.counted := by
    refine told_of_telling haccept.publishes fun e he ↦ ?_
    obtain ⟨f, rfl, -⟩ := mem_forkEvents he
    rfl
  have hevents : told w₂.log = told w₁.log ++ _ :=
    told_of_telling hpub fun _ ↦ telling_blockEvents
  rw [hevents, hforks, hopt, hown, h.placed haccept, Reporter.report, ← hpos, List.append_assoc]
  rfl

/-- Every input of a process tells what its results tell. -/
theorem Reports.exec {i : Input} (h : Reports lib o w r) (hi : i.NoStart)
    (hp : Processed lib w i) :
    Reports lib o (Chronicle.exec lib w i) ((delivered w i).toList.foldl (Reporter.next lib) r) ∧
      told (Chronicle.exec lib w i).log = told w.log ++
        emits (Reporter.next lib) (Reporter.report lib o) r (delivered w i).toList := by
  have hscanning := h.scanning.exec lib hi.scanInput
  have hrows := h.decodable.exec lib h.scanning hi.scanInput
  have hcoh := h.coherent.exec lib h.scanning h.decodable hi.scanInput hp
  have hfollows := h.follows.exec lib h.scanning hi hp
  have hsilent : delivered w i = none → (Chronicle.exec lib w i).options = o →
      told (Chronicle.exec lib w i).log = told w.log →
      Reports lib o (Chronicle.exec lib w i) ((delivered w i).toList.foldl (Reporter.next lib) r) ∧
        told (Chronicle.exec lib w i).log = told w.log ++
          emits (Reporter.next lib) (Reporter.report lib o) r (delivered w i).toList := by
    intro hnone hopt htold
    have hhead := heading_exec lib h.scanning hi hnone
    rw [hnone] at hfollows ⊢
    exact ⟨⟨hscanning, hopt, hrows, hcoh, hfollows, hhead.trans h.heading⟩,
      htold.trans (List.append_nil _).symm⟩
  cases h.scanning.exec_cases lib hi.scanInput with
  | idle hidle hnone =>
      exact hsilent hnone (hidle.options.trans h.options) hidle.toCalm.told_eq
  | acked _ hw =>
      have hcalm : Calm w _ := hw ▸ calm_ackedBy _ w
      exact hsilent rfl (hcalm.options.trans h.options) hcalm.told_eq
  | decoded hw =>
      have hcalm : Calm w _ := hw ▸ calm_decoded lib _ w
      exact hsilent rfl (hcalm.options.trans h.options) hcalm.told_eq
  | ended hidle hend hnone =>
      exact hsilent hnone (hend.options.trans (hidle.options.trans h.options))
        (hend.told_eq.trans hidle.toCalm.told_eq)
  | started hs => exact hi.elim
  | @received block result queueSize _ hblock hread hr =>
      have hd := delivered_receive queueSize hblock hread
      obtain ⟨w₁, w₂, ha, hb, hheading⟩ := processed_receive lib hblock hread hp
      obtain ⟨htold, hhead⟩ := h.completed ha hb
      have hresult : receiveResult lib (.ok result) w = .ok (!w₂.proc.aborting) w₂ := by
        rw [receiveResult_block lib hblock, bind_run ha, bind_run hb]
        rfl
      rw [hd] at hfollows ⊢
      cases hr with
      | refused _ _ hfail => exact absurd (hfail.symm.trans hresult) nofun
      | broken _ _ _ hfail => exact absurd (hfail.symm.trans hresult) nofun
      | completed haccept hprocess hidle hnext hok =>
          obtain ⟨-, rfl⟩ := EStateM.Result.ok.inj (hok.symm.trans hresult)
          have hframe := haccept.frame h.scanning.cached
          have hopt := (hprocess.frame hframe.2.2.1).1.trans (hframe.1.trans h.options)
          have hopt' := hidle.options.trans hopt
          have hnextopt : (Chronicle.exec lib w (.receive (.ok result) queueSize)).options = o := by
            cases hnext with
            | idle h => exact h.options.trans hopt'
            | ended h => exact h.options.trans hopt'
          refine ⟨⟨hscanning, hnextopt, hrows, hcoh, hfollows, hheading.trans hhead⟩, ?_⟩
          rw [hnext.told_eq, hidle.toCalm.told_eq, htold]
          exact (congrArg (told w.log ++ ·) (List.append_nil _)).symm

end Steps

/-- A run tells what the results that it delivers tell. -/
theorem Reports.run {o : Options} {w : World Abi} {r : Reporter} (h : Reports lib o w r)
    {inputs : List Input}
    (hrun : Run.Guarded (Chronicle.exec lib) (fun w i ↦ i.NoStart ∧ Processed lib w i) w inputs) :
    told (Chronicle.run lib w inputs).log = told w.log ++
      emits (Reporter.next lib) (Reporter.report lib o) r (deliveries lib w inputs) := by
  induction inputs generalizing w r with
  | nil => exact (List.append_nil _).symm
  | cons i inputs ih =>
      obtain ⟨⟨hi, hp⟩, hrest⟩ := hrun
      obtain ⟨h', htold⟩ := h.exec hi hp
      rw [deliveries, emits_append, ← List.append_assoc, ← htold]
      exact ih h' hrest

/-- Unless it is refused, a process leaves the loaded world at its start. -/
theorem start_loaded {o : Options} (ho : o.interactiveMode = false) {w : World Abi}
    (hok : w.db.undoAll.current.state = none ∨ o.startBlockNum = 0) :
    ∃ p : Proc Abi, exec lib w (.start o) = { loadedWorld o w with proc := p } ∧
      p.heading = ⟨{}, 0⟩ := by
  have hstart := startReceiver_run o w.db w.log
  rw [ho, Bool.not_false, if_pos rfl] at hstart
  have hloaded : (loadedWorld o w).proc.heading = ⟨{}, 0⟩ := by
    by_cases hs : w.db.undoAll.current.state = none <;> by_cases hd : 0 < w.db.stack.length <;>
      simp [loadedWorld, hs, hd, World.forkedAbove, positionedWorld, Proc.at, Proc.heading]
  have hacked : ((loadedWorld o w).proc.ackedHead o).heading = ⟨{}, 0⟩ := by
    rw [Proc.ackedHead]
    split_ifs
    · exact hloaded
    · exact hloaded
  have hfinish := (loadState_run hok).trans (finishLoadState_run (loadedWorld_spec o w).1)
  change ∃ p, catchAndClose startReceiver (bootWorld o w.db w.log) = _ ∧ _
  rw [catchAndClose, hstart]
  split_ifs at hfinish
  · rw [bind_run_error hfinish]
    exact ⟨_, rfl, hacked⟩
  · rw [bind_run hfinish]
    exact ⟨_, rfl, hacked⟩

/-- A process that is refused has published nothing. -/
theorem start_refused {o : Options} (ho : o.interactiveMode = false) {w : World Abi}
    (hno : ¬ (w.db.undoAll.current.state = none ∨ o.startBlockNum = 0)) :
    ∃ p : Proc Abi, exec lib w (.start o) = { positionedWorld o w with proc := p } ∧
      p.heading = ⟨{}, 0⟩ := by
  have hstart := startReceiver_run o w.db w.log
  rw [ho, Bool.not_false, if_pos rfl] at hstart
  push Not at hno
  obtain ⟨s, hs⟩ := Option.ne_none_iff_exists'.mp hno.1
  have hlt : 0 < (bootWorld o w.db w.log : World Abi).options.startBlockNum :=
    Nat.pos_of_ne_zero hno.2
  have hload : loadState (bootWorld o w.db w.log) = .error
      (.exception "start-block can only be specified for initial startup")
      (positionedWorld o w) := by
    refine (bind_run rfl).trans (bind_run_error ?_)
    rw [loadHead_some hs, if_pos hlt, positionedWorld, startPosition, hs]
    rfl
  change ∃ p, catchAndClose startReceiver (bootWorld o w.db w.log) = _ ∧ _
  rw [catchAndClose, hstart, bind_run_error hload]
  exact ⟨_, rfl, rfl⟩

/-- The explicit forks are the same for every library. -/
theorem told_startForks (o : Options) (db : Undo Tables) :
    told (startForks o db : List (Observation Abi)) =
      published (startForks o db : List (Observation Unit)) := by
  rw [told, startForks, startForks, published_append, published_append]
  split_ifs <;> rfl

/-- A process that starts is where the reporter starts, and has told its explicit forks. -/
theorem reports_start {o : Options} (ho : o.interactiveMode = false) {w : World Abi}
    (hscan : Scanning w) (hrows : AbisDecodeDb lib w.db) :
    Reports lib o (exec lib w (.start o)) (Reporter.start o w.db) ∧
      told (exec lib w (.start o)).log = told w.log ++ startEvents o w.db := by
  obtain ⟨hfollows, hscanning⟩ := follows_start lib ho w
  have hrows' := hrows.exec lib (i := .start o) hscan ho
  have hcoh := (start_cases lib ho w).coherent hrows'
  rw [startEvents]
  by_cases hok : w.db.undoAll.current.state = none ∨ o.startBlockNum = 0
  · obtain ⟨p, hw, hheading⟩ := start_loaded lib ho hok
    obtain ⟨hopt, -, -, -, hlog, -⟩ := loadedWorld_spec o w
    rw [if_pos hok]
    rw [hw] at hfollows hscanning hrows' hcoh ⊢
    refine ⟨⟨hscanning, hopt, hrows', hcoh, hfollows, hheading⟩, ?_⟩
    change told (loadedWorld o w).log = _
    rw [hlog, told_append, told_startForks]
  · obtain ⟨p, hw, hheading⟩ := start_refused lib ho hok
    rw [if_neg hok, List.append_nil]
    rw [hw] at hfollows hscanning hrows' hcoh ⊢
    exact ⟨⟨hscanning, rfl, hrows', hcoh, hfollows, hheading⟩, rfl⟩

/-- After any run in scan mode the current ABIs of every revision can be decoded. -/
theorem decodable_run {inputs : List Input}
    (hrun : Run.Guarded (exec lib) (fun _ i ↦ ScanInput i) newWorld inputs) :
    Scanning (run lib newWorld inputs) ∧ AbisDecodeDb lib (run lib newWorld inputs).db := by
  refine hrun.invariant (I := fun w ↦ Scanning w ∧ AbisDecodeDb lib w.db)
    (fun w i h hi ↦ ⟨h.1.exec lib hi, h.2.exec lib h.1 hi⟩) ⟨scanning_newWorld, ?_⟩
  exact fun r t ht ↦ (Undo.at?_mk_nil ht).2 ▸ nofun

/-- **After any run in scan mode a process is started, and processes every result that it
receives.  It publishes its explicit forks, and then what the reporter makes of its results, each
event once and in this order.**  Nothing else has a part in it but for the pauses: neither the
acknowledgements, the timers and the queue of the exporter, nor what the decoder asks for, nor the
cache of ABIs. -/
theorem told_events (before after : List Input) {o : Options} (ho : o.interactiveMode = false)
    (hbefore : Run.Guarded (exec lib) (fun _ i ↦ ScanInput i) newWorld before)
    {w : World Abi} (hw : w = run lib newWorld before)
    (hafter : Run.Guarded (exec lib) (fun w i ↦ i.NoStart ∧ Processed lib w i)
      (exec lib w (.start o)) after) :
    told (run lib w (.start o :: after)).log = told w.log ++ startEvents o w.db ++
      emits (Reporter.next lib) (Reporter.report lib o) (Reporter.start o w.db)
        (deliveries lib (exec lib w (.start o)) after) := by
  obtain ⟨hscan, hrows⟩ : Scanning w ∧ AbisDecodeDb lib w.db := hw ▸ decodable_run lib hbefore
  obtain ⟨hreports, hstart⟩ := reports_start lib ho hscan hrows
  rw [← hstart]
  exact hreports.run lib hafter

/-- A block sets an ABI, the next has rows of contracts, and is replaced. -/
def toldInputs : List Input :=
  [.ready 0, .ack 0, .timer 0, .result (abiResult ⟨1, 1⟩ 0 0 [⟨7, [1]⟩]), .decode 7, .ack 1,
    .slowdown true,
    .result { bareResult ⟨2, 2⟩ 1 1 with
      deltas := some [.ok (.contractRow
        [⟨true, .ok (), .ok ⟨7, 0, []⟩⟩, ⟨false, .ok (), .ok ⟨8, 0, []⟩⟩])] },
    .slowdown false, .timer 0, .result (bareResult ⟨2, 3⟩ 1 1)]

set_option maxRecDepth 10000 in
/-- The reporter makes of the results what the process tells: an explicit fork, a block with an
ABI, a block with a row and an error, and a fork with the block that replaces it. -/
theorem told_events_replaced :
    ∃ es, told (run .tagged newWorld (.start { exporterWillAck := true } :: toldInputs)).log = es ∧
      es.map Event.block? = [none, some 1, some 1, some 2, some 2, some 2, none, some 2] := by
  have ho : ({ exporterWillAck := true } : Options).interactiveMode = false := rfl
  have hafter : Run.Guarded (exec .tagged) (fun w i ↦ i.NoStart ∧ Processed .tagged w i)
      (exec .tagged newWorld (.start { exporterWillAck := true })) toldInputs := by
    decide +kernel
  refine ⟨_, told_events .tagged [] toldInputs ho trivial rfl hafter, ?_⟩
  decide +kernel

end Chronicle
