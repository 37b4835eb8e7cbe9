import Chronicle.Scan.Ordered

/-!
# The state database without the exporter

What a process in scan mode writes to the state database is a function of the results it
receives.  `Scanner` computes the tables from the positions and the deltas of the results
alone: it has no options, no channels, no exporter and no cache of ABIs, and it never commits.
A process follows it as long as it receives results without an exception, whatever else
happens to it; so two processes with the same results end with the same tables.
-/

namespace Chronicle

open Store Effect

variable {Abi : Type} (lib : Abieos Abi)

/-! ## The scanner -/

/-- The position, and the tables of the revisions since the start. -/
structure Scanner where
  position : StateObject
  db : Undo Tables

namespace Scanner

/-- The revision that a block is put on. -/
def placed (s : Scanner) (d : BlockPosition × GetBlocksResult) : Undo Tables :=
  let pred := Uint32.pred d.1.blockNum
  let db := if s.db.revision < pred then ⟨pred, s.db.current, []⟩ else s.db
  if d.2.lastIrreversible.blockNum < d.1.blockNum ∧ d.1.blockNum ≤ s.position.head then
    (db.rollback d.1.blockNum).getD db
  else db

/-- The scanner after a result. -/
def scan (s : Scanner) (d : BlockPosition × GetBlocksResult) : Scanner :=
  { position := stateOf d.1 d.2
    db := (s.placed d).startUndoSession.modify (blockEffect lib d.1 d.2) }

/-- The scanner that a process starts with. -/
def start (o : Options) (db : Undo Tables) : Scanner :=
  { position := startPosition o db.undoAll.current, db := db.undoAll }

end Scanner

/-- The part of a result that the state database depends on. -/
def scanPart (d : BlockPosition × GetBlocksResult) : BlockPosition × GetBlocksResult :=
  (d.1, { d.2 with block := none, traces := none })

/-! ## A process follows the scanner -/

/-- The process is where the scanner is. -/
structure Follows (w : World Abi) (s : Scanner) : Prop where
  position : w.proc.position = s.position
  db : w.db.PartOf s.db

section Steps

variable {block : BlockPosition} {result : GetBlocksResult} {w w₁ w' : World Abi} {s : Scanner}

theorem Follows.calm (h : Follows w s) (hc : Calm w w') : Follows w' s :=
  ⟨hc.position.trans h.position, hc.db ▸ h.db⟩

theorem Follows.ended (h : Follows w s) (hend : Ended w w') : Follows w' s :=
  ⟨hend.position.trans h.position, hend.db ▸ h.db.commit _⟩

theorem Follows.next (h : Follows w s) (hnext : Next w w') : Follows w' s := by
  cases hnext with
  | idle hidle => exact h.calm hidle.toCalm
  | ended hend => exact h.ended hend

/-- Raising the revision. -/
theorem Follows.raised (h : Follows w s) {b : Nat} {db : Undo Tables}
    (hraised : raisedDb b w.db = some db) :
    db.PartOf (if s.db.revision < Uint32.pred b then ⟨Uint32.pred b, s.db.current, []⟩
      else s.db) := by
  have hrev := h.db.revision
  rcases raisedDb_eq_some hraised with ⟨hle, rfl⟩ | ⟨hlt, -, rfl⟩
  · rw [if_neg (by omega)]
    exact h.db
  · rw [if_pos (by omega)]
    exact h.db.renumbered _

/-- An accepted block is put on the revision that the scanner puts it on. -/
theorem Accept.placed_scanner (haccept : Accept block result w (.ok () w₁)) (h : Follows w s) :
    w₁.db.PartOf (s.placed (block, result)) := by
  have hhead : w.proc.head = s.position.head := congrArg StateObject.head h.position
  rw [Scanner.placed]
  cases haccept with
  | forked hopen hle hroll _ =>
      rw [if_pos ⟨hopen.above, hhead ▸ hle⟩]
      obtain ⟨db', hroll', hpart⟩ := (h.raised hopen.raised).rollback hroll
      rw [hroll']
      exact hpart
  | extended hopen habove _ =>
      rw [if_neg fun hc ↦ absurd (hhead ▸ hc.2) (not_le.mpr habove)]
      exact h.raised hopen.raised
  | unchecked _ hraised hbelow =>
      rw [if_neg fun hc ↦ absurd hc.1 (not_lt.mpr hbelow)]
      exact h.raised hraised

variable {lib}

/-- A completed block is what the scanner makes of its result. -/
theorem ProcessBlock.follows (hprocess : ProcessBlock lib block result w (.ok () w'))
    (hat : AtBlock block result w) (hdb : w.db.PartOf (s.placed (block, result))) :
    Follows w' (s.scan lib (block, result)) := by
  cases hprocess with
  | completed _ _ _ hstored hw =>
      refine ⟨?_, ?_⟩
      · have hcore := hw.1.core.trans hstored.core
        exact (Proc.member_eq hcore Proc.position fun _ ↦ rfl).trans hat
      · rw [hw.2, hstored.db]
        exact (hdb.session _).commit _

end Steps

/-- An input of a process that is running already. -/
def Input.NoStart : Input → Prop
  | .start _ => False
  | _ => True

instance : (i : Input) → Decidable i.NoStart
  | .start _ => .isFalse not_false
  | .ready _ | .receive _ _ | .timer _ | .ack _ | .slowdown _ | .stale | .decode _ | .request _
  | .scanner _ => .isTrue trivial

theorem Input.NoStart.ne_start {i : Input} (h : i.NoStart) (o : Options) : i ≠ .start o := by
  rintro rfl
  exact h

theorem Input.NoStart.scanInput {i : Input} (h : i.NoStart) : ScanInput i := by
  cases i with
  | start o => exact h.elim
  | _ => trivial

/-- The results that a run delivers. -/
def deliveries : World Abi → List Input → List (BlockPosition × GetBlocksResult)
  | _, [] => []
  | w, i :: inputs => (delivered w i).toList ++ deliveries (exec lib w i) inputs

/-- An input moves the scanner as far as it delivers a result. -/
theorem Follows.exec {w : World Abi} {s : Scanner} {i : Input} (h : Follows w s)
    (hscan : Scanning w) (hi : i.NoStart) (hprocessed : Processed lib w i) :
    Follows (exec lib w i) ((delivered w i).toList.foldl (Scanner.scan lib) s) := by
  have hsame : ∀ {w' : World Abi}, delivered w i = none → Follows w' s →
      Follows w' ((delivered w i).toList.foldl (Scanner.scan lib) s) := by
    intro w' hnone h'
    rw [hnone]
    exact h'
  cases hscan.exec_cases lib hi.scanInput with
  | idle hidle hnone => exact hsame hnone (h.calm hidle.toCalm)
  | acked _ hw => exact hsame rfl (hw ▸ h.calm (calm_ackedBy _ w))
  | decoded hw => exact hsame rfl (hw ▸ h.calm (calm_decoded lib _ w))
  | ended hidle hend hnone => exact hsame hnone ((h.calm hidle.toCalm).ended hend)
  | started => exact hi.elim
  | @received block result queueSize _ hblock hread hr =>
      have hd := delivered_receive queueSize hblock hread
      have hok := hprocessed _ hd
      rw [hd]
      cases hr with
      | refused _ _ hresult =>
          rw [hresult] at hok
          exact False.elim hok
      | broken _ _ _ hresult =>
          rw [hresult] at hok
          exact False.elim hok
      | completed haccept hprocess hidle hnext =>
          have h₀ : Follows w.counted s := ⟨h.position, h.db⟩
          have hat := (haccept.frame hscan.cached).2.2.2
          have hfollows := hprocess.follows hat (haccept.placed_scanner h₀)
          exact (hfollows.calm hidle.toCalm).next hnext

/-- A run takes a process to where the scanner gets by its results. -/
theorem Follows.run {w : World Abi} {s : Scanner} (h : Follows w s) (hscan : Scanning w)
    {inputs : List Input}
    (hrun : Run.Guarded (Chronicle.exec lib) (fun w i ↦ i.NoStart ∧ Processed lib w i) w inputs) :
    Follows (Chronicle.run lib w inputs)
      ((deliveries lib w inputs).foldl (Scanner.scan lib) s) := by
  induction inputs generalizing w s with
  | nil => exact h
  | cons i inputs ih =>
      obtain ⟨⟨hi, hprocessed⟩, hrest⟩ := hrun
      rw [deliveries, List.foldl_append]
      exact ih (h.exec lib hscan hi hprocessed) (hscan.exec lib hi.scanInput) hrest

/-- A process starts where the scanner does. -/
theorem follows_start {o : Options} (hscan : o.interactiveMode = false) (w : World Abi) :
    Follows (exec lib w (.start o)) (Scanner.start o w.db) ∧ Scanning (exec lib w (.start o)) := by
  cases start_cases lib hscan w with
  | loaded hl =>
      refine ⟨⟨hl.position, hl.db ▸ Undo.PartOf.refl _⟩, ?_, ?_⟩
      · rw [hl.options]
        exact hscan
      · exact hl.cache.cached (Proc.cached_init _)
  | rejected hr =>
      refine ⟨⟨hr.position, hr.db ▸ Undo.PartOf.refl _⟩, ?_, ?_⟩
      · rw [hr.options]
        exact hscan
      · exact hr.cache.cached (Proc.cached_init _)

/-- Two processes in scan mode with the same start block are started on the same database.
Their options may differ in everything else, and so may their timers, pauses, acknowledgements
and decoders.  If both receive the same positions and deltas without an exception, their
tables are the same. -/
theorem tables_independent_of_export (w : World Abi) {o o' : Options}
    (hscan : o.interactiveMode = false) (hscan' : o'.interactiveMode = false)
    (hstart : o.startBlockNum = o'.startBlockNum) {inputs inputs' : List Input}
    (hrun : Run.Guarded (exec lib) (fun w i ↦ i.NoStart ∧ Processed lib w i)
      (exec lib w (.start o)) inputs)
    (hrun' : Run.Guarded (exec lib) (fun w i ↦ i.NoStart ∧ Processed lib w i)
      (exec lib w (.start o')) inputs')
    (hsame : (deliveries lib (exec lib w (.start o)) inputs).map scanPart =
      (deliveries lib (exec lib w (.start o')) inputs').map scanPart) :
    (run lib w (.start o :: inputs)).db.current =
      (run lib w (.start o' :: inputs')).db.current := by
  obtain ⟨hfollows, hscanning⟩ := follows_start lib hscan w
  obtain ⟨hfollows', hscanning'⟩ := follows_start lib hscan' w
  have hfirst : Scanner.start o w.db = Scanner.start o' w.db := by
    rw [Scanner.start, Scanner.start, startPosition, startPosition, hstart]
  have hparts : ∀ (ds : List (BlockPosition × GetBlocksResult)) (s : Scanner),
      (ds.map scanPart).foldl (Scanner.scan lib) s = ds.foldl (Scanner.scan lib) s := by
    intro ds s
    rw [List.foldl_map]
    rfl
  have hend := (hfollows.run lib hscanning hrun).db.current
  have hend' := (hfollows'.run lib hscanning' hrun').db.current
  rw [← hparts] at hend hend'
  rw [hfirst, hsame] at hend
  exact hend.trans hend'.symm

/-- A result with a block and traces, as it is sent to a process that exports. -/
def exportedResult : GetBlocksResult :=
  { abiResult ⟨2, 2⟩ 1 1 [⟨7, [1, 1]⟩] with block := some (.ok {}), traces := some [] }

/-- An exporter that acknowledges what it gets. -/
def acknowledgedInputs : List Input :=
  [.ready 0, .ack 0, .timer 0, .result (abiResult ⟨1, 1⟩ 0 0 [⟨7, [1]⟩]), .decode 7, .ack 1,
    .result exportedResult]

/-- The same positions and deltas, for a process that exports nothing. -/
def unexportedInputs : List Input :=
  [.ready 0, .result (abiResult ⟨1, 1⟩ 0 0 [⟨7, [1]⟩]),
    .result (abiResult ⟨2, 2⟩ 1 1 [⟨7, [1, 1]⟩])]

set_option maxRecDepth 10000 in
theorem tables_independent_of_export_two :
    (run .tagged newWorld (.start { exporterWillAck := true } :: acknowledgedInputs)).db.current =
      (run .tagged newWorld (.start { noexportMode := true } :: unexportedInputs)).db.current := by
  have hrun : Run.Guarded (exec .tagged) (fun w i ↦ i.NoStart ∧ Processed .tagged w i)
      (exec .tagged newWorld (.start { exporterWillAck := true })) acknowledgedInputs := by
    decide +kernel
  have hrun' : Run.Guarded (exec .tagged) (fun w i ↦ i.NoStart ∧ Processed .tagged w i)
      (exec .tagged newWorld (.start { noexportMode := true })) unexportedInputs := by
    decide +kernel
  have hparts : (deliveries .tagged (exec .tagged newWorld (.start { exporterWillAck := true }))
      acknowledgedInputs).map scanPart =
        [(⟨1, 1⟩, abiResult ⟨1, 1⟩ 0 0 [⟨7, [1]⟩]),
          (⟨2, 2⟩, abiResult ⟨2, 2⟩ 1 1 [⟨7, [1, 1]⟩])] := by
    rfl
  have hparts' : (deliveries .tagged (exec .tagged newWorld (.start { noexportMode := true }))
      unexportedInputs).map scanPart =
        [(⟨1, 1⟩, abiResult ⟨1, 1⟩ 0 0 [⟨7, [1]⟩]),
          (⟨2, 2⟩, abiResult ⟨2, 2⟩ 1 1 [⟨7, [1, 1]⟩])] := by
    rfl
  have hscan : ({ exporterWillAck := true } : Options).interactiveMode = false := rfl
  have hscan' : ({ noexportMode := true } : Options).interactiveMode = false := rfl
  exact tables_independent_of_export .tagged newWorld hscan hscan' rfl hrun hrun'
    (hparts.trans hparts'.symm)

end Chronicle
