import Chronicle.Scan.Ordered

/-!
# Revisions are blocks

In a run where moreover no process starts on a database whose revision is off its head, the
number of a revision is the number of the block it was saved by, and the tables of the
revision are those that were kept when that block was processed last (`afterBlock`).
-/

namespace Chronicle

open Store Effect

variable {Abi : Type} (lib : Abieos Abi)

/-! ## The record of kept revisions -/

/-- The tables as they were right after block `n` was processed last. -/
def afterBlock (log : List (Observation Abi)) (n : Nat) : Option Tables :=
  (pushed log).reverse.find? fun t ↦ t.state.map StateObject.head = some n

/-- A record without revisions. -/
theorem pushed_eq_nil {l : List (Observation Abi)} (h : ∀ t, Observation.pushed t ∉ l) :
    pushed l = [] := by
  refine List.filterMap_eq_nil_iff.mpr fun o ho ↦ ?_
  cases o with
  | pushed t => exact absurd ho (h t)
  | _ => rfl

theorem pushed_inside {h : Nat} {l : List (Observation Abi)} (hl : ∀ o ∈ l, o.Inside h) :
    pushed l = [] := pushed_eq_nil fun _ ho ↦ hl _ ho

theorem pushed_quiet {l : List (Observation Abi)} (hl : ∀ o ∈ l, o.Quiet) : pushed l = [] :=
  pushed_eq_nil fun _ ho ↦ hl _ ho

theorem afterBlock_congr {l l' : List (Observation Abi)} (h : pushed l = pushed l') (n : Nat) :
    afterBlock l n = afterBlock l' n := by rw [afterBlock, afterBlock, h]

/-- A new revision is the one that counts for its own block. -/
theorem afterBlock_append {l l' : List (Observation Abi)} {t : Tables} {s : StateObject}
    (h : pushed l' = pushed l ++ [t]) (hs : t.state = some s) (n : Nat) :
    afterBlock l' n = if s.head = n then some t else afterBlock l n := by
  rw [afterBlock, h, List.reverse_append, List.reverse_singleton, List.singleton_append,
    List.find?_cons, hs, Option.map_some]
  by_cases hn : s.head = n
  · rw [if_pos hn, hn, decide_eq_true rfl]
  · rw [if_neg hn, decide_eq_false (fun h ↦ hn (Option.some.inj h))]
    rfl

/-! ## The invariant -/

/-- The revisions are in order, numbered by their blocks, and as recorded. -/
structure SoundDb (log : List (Observation Abi)) (db : Undo Tables) : Prop extends
    OrderedDb db where
  aligned : ∀ r t, db.at? r = some t → db.base < r → ∀ s, t.state = some s → s.head = r
  recorded : ∀ r t, db.at? r = some t → ∀ s, t.state = some s → afterBlock log s.head = some t

/-- The database of a running process is at its head; before the first block it may be
below it. -/
structure Sound (w : World Abi) : Prop where
  db : SoundDb w.log w.db
  position : Running w → ∀ s, w.db.current.state = some s → s = w.proc.position
  fresh : Running w → w.db.current.state = none → w.db.stack = [] ∧ w.db.revision ≤ w.proc.head
  revision : Running w → w.db.current.state ≠ none → w.db.revision = w.proc.head

/-- When a process starts, the oldest revision is the one of its state object, or not
above the start block if there is none. -/
def StartsAligned (w : World Abi) : Input → Prop
  | .start o =>
    match w.db.undoAll.current.state with
    | some s => s.head = w.db.base
    | none => w.db.base ≤ o.startBlockNum - 1
  | _ => True

instance (w : World Abi) : (i : Input) → Decidable (StartsAligned w i)
  | .start o =>
    match h : w.db.undoAll.current.state with
    | some s => decidable_of_iff (s.head = w.db.base) (by rw [StartsAligned, h])
    | none => decidable_of_iff (w.db.base ≤ o.startBlockNum - 1) (by rw [StartsAligned, h])
  | .ready _ | .receive _ _ | .timer _ | .ack _ | .slowdown _ | .stale | .decode _ | .request _
  | .scanner _ => .isTrue trivial

namespace SoundDb

variable {log log' : List (Observation Abi)} {db db' : Undo Tables}

/-- A narrower database. -/
theorem of_at? (h : SoundDb log db) (hb : db.base ≤ db'.base)
    (hat : ∀ r t, db'.at? r = some t → db.at? r = some t) : SoundDb log db' :=
  { h.toOrderedDb.of_at? hb hat with
    aligned := fun r t ht hlt ↦ h.aligned r t (hat r t ht) (hb.trans_lt hlt)
    recorded := fun r t ht ↦ h.recorded r t (hat r t ht) }

theorem commit (h : SoundDb log db) (c : Nat) : SoundDb log (db.commit c) :=
  h.of_at? (le_max_left ..) fun _ _ ht ↦ Undo.at?_commit_eq_some ht

theorem undoAll (h : SoundDb log db) : SoundDb log db.undoAll :=
  h.of_at? le_rfl fun _ _ ht ↦ Undo.at?_undoAll ht

theorem rollback (h : SoundDb log db) {n : Nat} (hroll : db.rollback n = some db') :
    SoundDb log db' := by
  obtain ⟨hb, -, -, hat⟩ := Undo.rollback_spec hroll
  refine h.of_at? hb.ge fun r t ht ↦ ?_
  rw [← hat r (Undo.le_revision_of_at? ht)]
  exact ht

theorem raised (h : SoundDb log db) {b : Nat} (hr : raisedDb b db = some db') :
    SoundDb log db' := by
  refine { h.toOrderedDb.raised hr with aligned := ?_, recorded := ?_ }
  all_goals
    rcases raisedDb_eq_some hr with ⟨-, rfl⟩ | ⟨-, -, rfl⟩
  · exact h.aligned
  · exact fun r t ht hb ↦ absurd (Undo.at?_mk_nil ht).1.le (not_le.mpr hb)
  · exact h.recorded
  · intro r t ht
    obtain ⟨rfl, rfl⟩ := Undo.at?_mk_nil ht
    exact h.recorded _ _ db.at?_revision

theorem congr (h : SoundDb log db) (hlog : pushed log' = pushed log) : SoundDb log' db :=
  { h.toOrderedDb with
    aligned := h.aligned
    recorded := fun r t ht s hs ↦ (afterBlock_congr hlog _).trans (h.recorded r t ht s hs) }

/-- The revision of a new block. -/
theorem session (h : SoundDb log db) {f : Tables → Tables} {s : StateObject}
    (hf : (f db.current).Settled (db.revision + 1)) (hs : (f db.current).state = some s)
    (hhead : s.head = db.revision + 1) (hlog : pushed log' = pushed log ++ [f db.current]) :
    SoundDb log' (db.startUndoSession.modify f) := by
  have hord := h.toOrderedDb.session hf (by simp [hs])
  refine { hord with aligned := fun r t ht hb s' hs' ↦ ?_, recorded := fun r t ht s' hs' ↦ ?_ }
  · rcases Undo.at?_session_eq_some ht with ⟨-, ht⟩ | ⟨rfl, rfl⟩
    · exact h.aligned r t ht hb s' hs'
    · rw [hs] at hs'
      exact Option.some.inj hs' ▸ hhead
  · rcases Undo.at?_session_eq_some ht with ⟨hle, ht⟩ | ⟨rfl, rfl⟩
    · have hle' := ((h.settled r t ht).dated s' hs').1
      rw [afterBlock_append hlog hs, if_neg (by omega)]
      exact h.recorded r t ht s' hs'
    · rw [hs] at hs'
      rw [afterBlock_append hlog hs, if_pos (congrArg StateObject.head (Option.some.inj hs'))]

end SoundDb

/-! ## Steps -/

section Steps

variable {block : BlockPosition} {result : GetBlocksResult} {w w₁ w' : World Abi}

/-- A world whose position was accepted, before the block is stored: the database is at the
block below. -/
structure SoundlyPlaced (block : BlockPosition) (w : World Abi) : Prop where
  db : SoundDb w.log w.db
  revision : w.db.revision + 1 = block.blockNum
  below : ∀ s, w.db.current.state = some s → s.head < block.blockNum

theorem Sound.revision_le (h : Sound w) (hrun : Running w) : w.db.revision ≤ w.proc.head := by
  cases hs : w.db.current.state with
  | none => exact (h.fresh hrun hs).2
  | some s => exact (h.revision hrun (by simp [hs])).le

/-- Any accepted block is placed right above what the database holds. -/
theorem Accept.soundlyPlaced (h : Accept block result w (.ok () w₁)) (hs : Sound w)
    (hrun : Running w)
    (hre : block.blockNum ≤ w.proc.head →
      result.lastIrreversible.blockNum < block.blockNum) : SoundlyPlaced block w₁ := by
  have hplaced := h.placed hs.db.toOrderedDb (hs.position hrun) hre
  have hle := hs.revision_le hrun
  have hext : ∀ {db}, raisedDb block.blockNum w.db = some db → w.proc.head < block.blockNum →
      db.revision + 1 = block.blockNum := by
    intro db hraised hlt
    rcases raisedDb_eq_some hraised with ⟨hpred, rfl⟩ | ⟨hpred, -, rfl⟩
    · rw [Uint32.pred_of_pos (by omega)] at hpred
      omega
    · rw [Uint32.pred_of_pos (by omega)]
      simp only [Undo.revision_mk_nil]
      omega
  cases h with
  | forked hopen _ hroll _ =>
      have hpred := pred_le_raisedDb hopen.raised
      have habove := hopen.above
      rw [Uint32.pred_of_pos (by omega)] at hpred
      obtain ⟨-, hrev, -, -⟩ := Undo.rollback_spec hroll
      refine ⟨((hs.db.raised hopen.raised).rollback hroll).congr (by simp; rfl), ?_,
        hplaced.below⟩
      simp only
      omega
  | extended hopen habove _ =>
      exact ⟨hs.db.raised hopen.raised, hext hopen.raised habove, hplaced.below⟩
  | unchecked _ hraised hbelow =>
      refine ⟨hs.db.raised hraised, hext hraised ?_, hplaced.below⟩
      by_contra hnot
      exact absurd (hre (by omega)) (by omega)

/-- A refused block leaves the revisions as recorded. -/
theorem Accept.soundDb {e : Abort} (h : Accept block result w (.error e w₁))
    (hs : SoundDb w.log w.db) : SoundDb w₁.log w₁.db := by
  cases h with
  | unmoved => exact hs
  | refused hopen _ _ => exact hs.raised hopen.raised
  | endless hopen _ _ => exact (hs.raised hopen.raised).undoAll
  | bottom hopen _ hroll _ => exact (hs.raised hopen.raised).rollback hroll

variable {lib}

/-- What is kept in the record of a stored block. -/
theorem Stored.pushed (hs : Stored lib block result w w') :
    pushed w'.log = pushed w.log ++ [blockEffect lib block result w.db.current] := by
  obtain ⟨l, hl, hlog⟩ := hs.log
  rw [hlog, pushed_append, pushed_append, pushed_inside hl, List.append_nil]
  rfl

theorem Within.pushed (h : Within w w') : Chronicle.pushed w'.log = Chronicle.pushed w.log := by
  obtain ⟨l, hl, hin⟩ := h.log
  rw [hl, pushed_append, pushed_inside hin, List.append_nil]

theorem Calm.pushed (h : Calm w w') : Chronicle.pushed w'.log = Chronicle.pushed w.log := by
  obtain ⟨l, hl, hq⟩ := h.log
  rw [hl, pushed_append, pushed_quiet hq, List.append_nil]

/-- The revision of a stored block, before the commit. -/
theorem SoundlyPlaced.session (h : SoundlyPlaced block w) (hs : Stored lib block result w w') :
    SoundDb w'.log (w.db.startUndoSession.modify (blockEffect lib block result)) := by
  have hsettled : (blockEffect lib block result w.db.current).Settled (w.db.revision + 1) :=
    blockEffect_settled lib (h.db.settled _ _ w.db.at?_revision) h.below h.revision.ge
  exact h.db.session hsettled rfl h.revision.symm hs.pushed

/-- A stored block is the current revision, with its own number. -/
theorem SoundlyPlaced.stored (h : SoundlyPlaced block w) (hat : AtBlock block result w)
    (hs : Stored lib block result w w') :
    SoundDb w'.log w'.db ∧ w'.db.current.state = some w'.proc.position ∧
      w'.db.revision = block.blockNum := by
  have hpos : w'.proc.position = stateOf block result :=
    (Proc.member_eq hs.core Proc.position fun _ ↦ rfl).trans hat
  rw [hs.db, hpos]
  refine ⟨(h.session hs).commit _, rfl, ?_⟩
  rw [Undo.revision_commit, Undo.revision_modify, Undo.revision_startUndoSession, h.revision]

theorem Sound.calm (h : Sound w) (hc : Calm w w') : Sound w' := by
  have hhead : w'.proc.head = w.proc.head := congrArg StateObject.head hc.position
  refine ⟨hc.db ▸ h.db.congr hc.pushed, fun hrun s hs ↦ ?_, fun hrun hs ↦ ?_, fun hrun hs ↦ ?_⟩
  · rw [hc.db] at hs
    exact (h.position (hc.running hrun) s hs).trans hc.position.symm
  · rw [hc.db] at hs ⊢
    exact hhead ▸ h.fresh (hc.running hrun) hs
  · rw [hc.db] at hs ⊢
    exact hhead ▸ h.revision (hc.running hrun) hs

/-- A process that has stopped need not be at its head. -/
theorem SoundDb.stopped (h : SoundDb w.log w.db) (hstop : ¬ Running w) : Sound w :=
  ⟨h, fun hrun ↦ absurd hrun hstop, fun hrun ↦ absurd hrun hstop, fun hrun ↦ absurd hrun hstop⟩

theorem SoundDb.calm (h : SoundDb w.log w.db) (hc : Calm w w') : SoundDb w'.log w'.db :=
  hc.db ▸ h.congr hc.pushed

theorem Sound.ended (h : Sound w) (hend : Ended w w') : Sound w' := by
  refine SoundDb.stopped (hend.db ▸ (h.db.commit _).congr ?_) hend.stopped
  rw [hend.log, pushed_append]
  exact List.append_nil _

theorem Sound.next (h : Sound w) (hnext : Next w w') : Sound w' := by
  cases hnext with
  | idle hidle => exact h.calm hidle.toCalm
  | ended hend => exact h.ended hend

theorem Sound.started {o : Options} (h : Sound w) (hs : Started o w w')
    (halign : StartsAligned w (.start o)) : Sound w' := by
  rw [StartsAligned] at halign
  cases hs with
  | loaded hl =>
      have hdb : SoundDb w'.log w'.db := by
        rw [hl.db, hl.log]
        refine h.db.undoAll.congr ?_
        rw [pushed_append, pushed_eq_nil (fun t ht ↦ (mem_startForks ht).elim nofun),
          List.append_nil]
      have hhead : w'.proc.head = (startPosition o w.db.undoAll.current).head :=
        congrArg StateObject.head hl.position
      refine ⟨hdb, fun _ s hs ↦ ?_, fun _ hs ↦ ?_, fun _ hs ↦ ?_⟩
      all_goals rw [hl.db] at hs
      · rw [hl.position, startPosition, hs]
        rfl
      · rw [hs] at halign
        rw [hl.db, hhead, startPosition, hs]
        exact ⟨rfl, halign⟩
      · obtain ⟨s, hs⟩ := Option.ne_none_iff_exists'.mp hs
        rw [hs] at halign
        rw [hl.db, hhead, startPosition, hs]
        exact halign.symm
  | rejected hr =>
      refine SoundDb.stopped ?_ hr.stopped
      rw [hr.db, hr.log]
      exact h.db.undoAll

/-- What is known when the block was not completed. -/
theorem ProcessBlock.soundDb_error {e : Abort} (hplaced : SoundlyPlaced block w)
    (hat : AtBlock block result w) (h : ProcessBlock lib block result w (.error e w₁)) :
    SoundDb w₁.log w₁.db := by
  cases h with
  | unreadable => exact hplaced.db
  | failed _ _ hw => exact hw.2 ▸ hplaced.db.congr hw.1.pushed
  | untraced _ _ _ hstored hw =>
      exact hw.2 ▸ (hplaced.stored hat hstored).1.congr hw.1.pushed

/-- What is known when the block was completed. -/
theorem ProcessBlock.sound_ok (hplaced : SoundlyPlaced block w) (hat : AtBlock block result w)
    (h : ProcessBlock lib block result w (.ok () w₁)) :
    Sound w₁ ∧ w₁.db.revision = block.blockNum ∧
      w₁.db.current.state = some (stateOf block result) := by
  cases h with
  | @completed w₂ w _ _ _ hstored hw =>
      obtain ⟨hdb, hpos, hrev⟩ := hplaced.stored hat hstored
      have hcore : w.proc.core = _ := hw.1.core.trans hstored.core
      have hpos' : w.proc.position = stateOf block result :=
        (Proc.member_eq hcore Proc.position fun _ ↦ rfl).trans hat
      have hcur : w.db.current.state = some w.proc.position := by
        rw [hw.2, hpos]
        exact congrArg some (hw.1.member Proc.position fun _ ↦ rfl).symm
      have hrev' : w.db.revision = block.blockNum := hw.2 ▸ hrev
      refine ⟨⟨?_, fun _ s hs ↦ ?_, fun _ hs ↦ ?_, fun _ _ ↦ ?_⟩, hrev', hpos' ▸ hcur⟩
      · exact hw.2 ▸ hdb.congr (by rw [pushed_append, hw.1.pushed]; exact List.append_nil _)
      · exact (Option.some.inj (hcur.symm.trans hs)).symm
      · rw [hcur] at hs
        cases hs
      · exact hrev'.trans (congrArg StateObject.head hpos').symm

end Steps

/-- Every input keeps the revisions numbered by their blocks. -/
theorem Sound.exec {w : World Abi} {i : Input} (hscan : Scanning w) (h : Sound w)
    (hi : ScanInput i) (hre : ResentAbove w i) (halign : StartsAligned w i) :
    Sound (exec lib w i) := by
  cases hscan.exec_cases lib hi with
  | idle hidle => exact h.calm hidle.toCalm
  | acked _ hw => exact hw ▸ h.calm (calm_ackedBy _ w)
  | decoded hw => exact hw ▸ h.calm (calm_decoded lib _ w)
  | ended hidle hend => exact (h.calm hidle.toCalm).ended hend
  | started hs => exact h.started hs halign
  | received hblock hread hr =>
      have hre' := hre _ (delivered_receive _ hblock hread)
      have hrun : Running w := running_of_reading hread
      have hsc : Scanning w.counted := ⟨hscan.mode, hscan.cached⟩
      have hs : Sound w.counted := ⟨h.db, h.position, h.fresh, h.revision⟩
      cases hr with
      | refused haccept hstop =>
          exact ((haccept.soundDb h.db).calm hstop.1.toCalm).stopped hstop.2
      | broken haccept hprocess hstop =>
          have hplaced := haccept.soundlyPlaced hs hrun hre'
          have hat := (haccept.frame hsc.cached).2.2.2
          exact ((hprocess.soundDb_error hplaced hat).calm hstop.1.toCalm).stopped hstop.2
      | completed haccept hprocess hidle hnext =>
          have hplaced := haccept.soundlyPlaced hs hrun hre'
          have hat := (haccept.frame hsc.cached).2.2.2
          exact ((hprocess.sound_ok hplaced hat).1.calm hidle.toCalm).next hnext

/-! ## Numbers -/

/-- Blocks are numbered from one. -/
def Numbered (log : List (Observation Abi)) : Prop :=
  ∀ t ∈ pushed log, ∀ s, t.state = some s → 0 < s.head

section Numbers

variable {block : BlockPosition} {result : GetBlocksResult} {w w₁ w' : World Abi}

theorem Numbered.congr {log log' : List (Observation Abi)} (h : Numbered log)
    (hlog : pushed log' = pushed log) : Numbered log' := by rwa [Numbered, hlog]

/-- Revision zero has no state object. -/
theorem SoundDb.pos {log : List (Observation Abi)} {db : Undo Tables} (h : SoundDb log db)
    (hn : Numbered log) {r : Nat} {t : Tables} (hat : db.at? r = some t) {s : StateObject}
    (hs : t.state = some s) : 0 < s.head ∧ 0 < r := by
  have hmem := List.mem_of_find?_eq_some (h.recorded r t hat s hs)
  have hpos := hn t (List.mem_reverse.mp hmem) s hs
  exact ⟨hpos, hpos.trans_le ((h.settled r t hat).dated s hs).1⟩

/-- No revision is kept before the block is processed. -/
theorem Accept.pushed (haccept : Accept block result w (.ok () w₁)) :
    Chronicle.pushed w₁.log = Chronicle.pushed w.log := by
  cases haccept with
  | forked =>
      change Chronicle.pushed (w.log ++ _) = _
      rw [pushed_append]
      exact List.append_nil _
  | extended => rfl
  | unchecked => rfl

/-- Revisions go on being numbered from one. -/
theorem Stored.numbered (hs : Stored lib block result w w') (h : Numbered w.log)
    (hpos : 0 < block.blockNum) : Numbered w'.log := by
  intro t ht s hts
  rw [hs.pushed] at ht
  rcases List.mem_append.mp ht with ht | ht
  · exact h t ht s hts
  · rw [List.mem_singleton.mp ht] at hts
    exact Option.some.inj hts ▸ hpos

/-- What is kept of a block that is processed. -/
theorem ProcessBlock.pushed {r : EStateM.Result Abort (World Abi) Unit}
    (h : ProcessBlock lib block result w r) :
    Ends (fun _ w' ↦ Chronicle.pushed w'.log =
        Chronicle.pushed w.log ++ [blockEffect lib block result w.db.current])
      (fun _ w' ↦ Chronicle.pushed w'.log = Chronicle.pushed w.log ∨ Chronicle.pushed w'.log =
        Chronicle.pushed w.log ++ [blockEffect lib block result w.db.current]) r := by
  cases h with
  | unreadable => exact .inl rfl
  | failed _ _ hw => exact .inl hw.1.pushed
  | untraced _ _ _ hstored hw => exact .inr (hw.1.pushed.trans hstored.pushed)
  | completed _ _ _ hstored hw =>
      refine Eq.trans ?_ (hw.1.pushed.trans hstored.pushed)
      rw [pushed_append]
      exact List.append_nil _

theorem Ended.pushed (h : Ended w w') : Chronicle.pushed w'.log = Chronicle.pushed w.log := by
  rw [h.log, pushed_append]
  exact List.append_nil _

theorem Next.pushed (h : Next w w') : Chronicle.pushed w'.log = Chronicle.pushed w.log := by
  cases h with
  | idle hidle => exact hidle.toCalm.pushed
  | ended hend => exact hend.pushed

theorem Started.pushed {o : Options} (h : Started o w w') :
    Chronicle.pushed w'.log = Chronicle.pushed w.log := by
  cases h with
  | loaded hl =>
      rw [hl.log, pushed_append, pushed_eq_nil fun t ht ↦ (mem_startForks ht).elim nofun,
        List.append_nil]
  | rejected hr => rw [hr.log]

end Numbers

/-- An input keeps no revision, or that of the block it delivers. -/
inductive ExecPushed (w : World Abi) (i : Input) (w' : World Abi) : Prop
  | same (h : pushed w'.log = pushed w.log)
  | block {d : BlockPosition × GetBlocksResult} {w₁ : World Abi} (hd : delivered w i = some d)
      (haccept : Accept d.1 d.2 w.counted (.ok () w₁))
      (h : pushed w'.log = pushed w.log ++ [blockEffect lib d.1 d.2 w₁.db.current])

theorem exec_pushed {w : World Abi} {i : Input} (hscan : Scanning w) (hi : ScanInput i) :
    ExecPushed lib w i (exec lib w i) := by
  cases hscan.exec_cases lib hi with
  | idle hidle => exact .same hidle.toCalm.pushed
  | acked _ hw => exact .same (hw ▸ (calm_ackedBy _ w).pushed)
  | decoded hw => exact .same (hw ▸ (calm_decoded lib _ w).pushed)
  | ended hidle hend => exact .same (hend.pushed.trans hidle.toCalm.pushed)
  | started hs => exact .same hs.pushed
  | @received block result queueSize _ hblock hread hr =>
      have hd := delivered_receive queueSize hblock hread
      cases hr with
      | refused haccept hstop =>
          have hlog := (haccept.frame hscan.cached).2.2.2.2
          exact .same (hstop.idle.toCalm.pushed.trans (congrArg pushed hlog))
      | broken haccept hprocess hstop =>
          have hcalm := hstop.idle.toCalm.pushed
          rcases hprocess.pushed with hp | hp
          · exact .same (hcalm.trans (hp.trans haccept.pushed))
          · exact .block hd haccept (hcalm.trans (hp.trans (by rw [haccept.pushed]; rfl)))
      | completed haccept hprocess hidle hnext =>
          have hp : pushed _ = _ := hprocess.pushed
          refine .block hd haccept ((hnext.pushed.trans hidle.toCalm.pushed).trans (hp.trans ?_))
          rw [haccept.pushed]
          rfl

/-- Every input keeps blocks numbered from one. -/
theorem Numbered.exec {w : World Abi} {i : Input} (h : Numbered w.log) (hscan : Scanning w)
    (hs : Sound w) (hi : ScanInput i) (hre : ResentAbove w i) :
    Numbered (exec lib w i).log := by
  cases exec_pushed lib hscan hi with
  | same hp => exact h.congr hp
  | block hd haccept hp =>
      obtain ⟨queueSize, rfl, -, hread⟩ := delivered_eq_some hd
      have h₀ : Sound w.counted := ⟨hs.db, hs.position, hs.fresh, hs.revision⟩
      have hplaced := haccept.soundlyPlaced h₀ (running_of_reading hread) (hre _ hd)
      have hrev := hplaced.revision
      intro t ht s hts
      rw [hp] at ht
      rcases List.mem_append.mp ht with ht | ht
      · exact h t ht s hts
      · rw [List.mem_singleton.mp ht] at hts
        obtain rfl : stateOf _ _ = s := Option.some.inj hts
        exact hrev.symm.trans_gt (Nat.succ_pos _)

theorem sound_newWorld : Sound (newWorld : World Abi) := by
  refine SoundDb.stopped ?_ fun h ↦ absurd rfl h.1
  refine { ordered_newWorld.db with
    aligned := fun r t ht hlt ↦ ?_
    recorded := fun r t ht s hs ↦ ?_ }
  all_goals
    have hat : r = 0 ∧ t = ∅ := Undo.at?_mk_nil ht
  · exact absurd hat.1.le (not_le.mpr hlt)
  · rw [hat.2] at hs
    cases hs

end Chronicle
