import Chronicle.Scan.Resent

/-!
# Restart

What a process finds that starts after another one has stopped, at any point of any run.
The stream is assumed to deliver the block above the head, or one that replaces a block
that was processed; and the exporter acknowledges.

The oldest revision is then the highest block that was ever committed, as long as no
commit goes beyond the block it follows (`AckedInReach`): a commit that does is cut off at
that block, and the process after it starts lower.
-/

namespace Chronicle

open Store Effect

variable {Abi : Type} (lib : Abieos Abi)

/-! ## The environment -/

/-- Every process has an exporter that acknowledges; one that finds no state object starts
above `first`. -/
def AckedStart (first : Nat) (w : World Abi) : Input → Prop
  | .start o => o.exporterWillAck = true ∧
    (w.db.undoAll.current.state = none → o.startBlockNum - 1 = first)
  | _ => True

/-- The exporter acknowledges blocks whose completion, or the fork above which, was
published. -/
def AckReceived (w : World Abi) : Input → Prop
  | .ack n => (published w.log).any fun
    | .blockCompleted e => e.blockNum = n
    | .fork e => e.blockNum = n + 1
    | _ => false
  | _ => True

/-- What is committed with a block does not go beyond it. -/
def AckedInReach (w : World Abi) (i : Input) : Prop :=
  ∀ d ∈ delivered w i,
    min d.2.lastIrreversible.blockNum w.proc.exporterAckedBlock ≤ d.1.blockNum

instance (w : World Abi) (i : Input) : Decidable (AckedInReach w i) :=
  inferInstanceAs (Decidable (∀ _ ∈ _, _))

instance (first : Nat) (w : World Abi) : (i : Input) → Decidable (AckedStart first w i)
  | .start o => inferInstanceAs (Decidable
      (o.exporterWillAck = true ∧
        (w.db.undoAll.current.state = none → o.startBlockNum - 1 = first)))
  | .ready _ | .receive _ _ | .timer _ | .ack _ | .slowdown _ | .stale | .decode _ | .request _
  | .scanner _ => .isTrue trivial

instance (w : World Abi) : (i : Input) → Decidable (AckReceived w i)
  | .ack _ => inferInstanceAs (Decidable (_ = true))
  | .ready _ | .receive _ _ | .timer _ | .start _ | .slowdown _ | .stale | .decode _ | .request _
  | .scanner _ => .isTrue trivial

/-! ## The restart point -/

/-- The largest revision that was ever committed, or the head before the first block. -/
def restartPoint (first : Nat) (log : List (Observation Abi)) : Nat :=
  (committed log).foldl max first

theorem restartPoint_append (first : Nat) (l₁ l₂ : List (Observation Abi)) :
    restartPoint first (l₁ ++ l₂) = (committed l₂).foldl max (restartPoint first l₁) := by
  rw [restartPoint, committed_append, List.foldl_append, restartPoint]

theorem le_foldl_max (l : List Nat) (n : Nat) : n ≤ l.foldl max n := by
  induction l generalizing n with
  | nil => exact le_rfl
  | cons m l ih => exact (le_max_left n m).trans (ih (max n m))

theorem le_restartPoint (first : Nat) (log : List (Observation Abi)) :
    first ≤ restartPoint first log := le_foldl_max _ first

/-- A part of the record that holds no commit. -/
theorem restartPoint_congr {first : Nat} {log l : List (Observation Abi)}
    (h : ∀ n, Observation.committed n ∉ l) :
    restartPoint first (log ++ l) = restartPoint first log := by
  rw [restartPoint_append, committed_eq_nil h]
  rfl

/-- The oldest revision of a database, as it is known between two steps. -/
structure KeptDb (first : Nat) (log : List (Observation Abi)) (db : Undo Tables) : Prop where
  /-- It is the one of its state object, -/
  aligned : ∀ t, db.at? db.base = some t → ∀ s, t.state = some s → s.head = db.base
  /-- or there is none yet. -/
  bottom : ∀ t, db.at? db.base = some t → t.state = none → db.base ≤ first
  /-- It is the restart point, unless the revision was never moved up to the first block. -/
  point : db.base = restartPoint first log ∨
    (db.base < first ∧ restartPoint first log = first ∧ db.stack = [] ∧
      db.current.state = none)
  above : ∀ t ∈ pushed log, ∀ s, t.state = some s → first < s.head

namespace KeptDb

variable {first : Nat} {log log' : List (Observation Abi)} {db db' : Undo Tables}

theorem congr (h : KeptDb first log db) {l : List (Observation Abi)}
    (hc : ∀ n, Observation.committed n ∉ l) (hp : ∀ t, Observation.pushed t ∉ l) :
    KeptDb first (log ++ l) db := by
  refine ⟨h.aligned, h.bottom, ?_, ?_⟩
  · rw [restartPoint_congr hc]
    exact h.point
  · rw [pushed_append, pushed_eq_nil hp, List.append_nil]
    exact h.above

theorem undoAll (h : KeptDb first log db) : KeptDb first log db.undoAll := by
  refine ⟨fun t ht ↦ h.aligned t (Undo.at?_undoAll ht), fun t ht ↦ h.bottom t (Undo.at?_undoAll ht),
    h.point.imp_right fun hp ↦ ⟨hp.1, hp.2.1, rfl, ?_⟩, h.above⟩
  have hbase := db.at?_base
  have hrev : db.base = db.revision := by rw [Undo.revision, hp.2.2.1]; rfl
  rw [hrev, Undo.at?_revision] at hbase
  rw [← Option.some.inj hbase]
  exact hp.2.2.2

theorem rollback (h : KeptDb first log db) {n : Nat} (hroll : db.rollback n = some db') :
    KeptDb first log db' := by
  obtain ⟨hb, hrev, hlt, hat⟩ := Undo.rollback_spec hroll
  have hat' : ∀ t, db'.at? db'.base = some t → db.at? db.base = some t := fun t ht ↦ by
    rw [← hb, ← hat _ db'.base_le_revision, ht]
  refine ⟨fun t ht ↦ hb ▸ h.aligned t (hat' t ht), fun t ht ↦ hb ▸ h.bottom t (hat' t ht), ?_,
    h.above⟩
  rcases h.point with hp | ⟨hlt', hpoint, hnil, hs⟩
  · exact .inl (hb.trans hp)
  · have hsame : db' = db := by
      have hr : db.revision < n := by
        rw [Undo.revision, hnil]
        simpa using hlt
      exact Option.some.inj (hroll.symm.trans (Undo.rollback_of_revision_lt hr))
    subst hsame
    exact .inr ⟨hlt', hpoint, hnil, hs⟩

/-- A commit within reach. -/
theorem commit (h : KeptDb first log db) (hs : SoundDb log' db) {c : Nat} (hc : c ≤ db.revision)
    (hpoint : db.base = restartPoint first log) :
    KeptDb first (log ++ [.committed c]) (db.commit c) := by
  have hbase : (db.commit c).base = max db.base c := by
    rw [Undo.base_commit, min_eq_left hc]
  have hat : ∀ t, (db.commit c).at? (db.commit c).base = some t →
      db.at? (max db.base c) = some t := fun t ht ↦ hbase ▸ Undo.at?_commit_eq_some ht
  refine ⟨fun t ht s hts ↦ ?_, fun t ht hts ↦ ?_, .inl ?_, ?_⟩
  · have ht' := hat t ht
    rcases Nat.lt_or_ge db.base c with hlt | hle
    · exact hbase ▸ hs.aligned _ _ ht' (by omega) s hts
    · rw [max_eq_left hle] at ht' hbase
      exact hbase ▸ h.aligned t ht' s hts
  · have ht' := hat t ht
    rcases Nat.lt_or_ge db.base c with hlt | hle
    · exact absurd hts (hs.stated _ _ ht' (by omega))
    · rw [max_eq_left hle] at ht' hbase
      exact hbase ▸ h.bottom t ht' hts
  · rw [hbase, hpoint, restartPoint_append]
    rfl
  · rw [pushed_append]
    simpa [pushed] using h.above

/-- A new revision. -/
theorem session (h : KeptDb first log db) {f : Tables → Tables}
    (hf : ∀ s, (f db.current).state = some s → first < s.head)
    (hpoint : db.base = restartPoint first log) :
    KeptDb first (log ++ [.pushed (f db.current)]) (db.startUndoSession.modify f) := by
  have hat : ∀ t, (db.startUndoSession.modify f).at? db.base = some t →
      db.at? db.base = some t := fun t ht ↦ by
    rwa [Undo.at?_session f db.base_le_revision] at ht
  refine ⟨fun t ht ↦ h.aligned t (hat t ht), fun t ht ↦ h.bottom t (hat t ht), .inl ?_, ?_⟩
  · rw [restartPoint_congr (by simp)]
    exact hpoint
  · intro t ht
    rw [pushed_append] at ht
    rcases List.mem_append.mp ht with ht | ht
    · exact h.above t ht
    · rw [show t = f db.current by simpa [pushed] using ht]
      exact hf

end KeptDb

/-! ## Steps -/

/-- What is known between two steps, as long as no commit goes beyond its block. -/
structure Kept (first : Nat) (w : World Abi) : Prop where
  scanning : Scanning w
  sound : Sound w
  db : KeptDb first w.log w.db
  fresh : Running w → w.db.current.state = none → w.proc.head = first
  acks : Running w → w.options.exporterWillAck = true

/-- A world whose position was accepted, before the block is stored. -/
structure KeptPlaced (first : Nat) (block : BlockPosition) (w : World Abi) : Prop where
  db : KeptDb first w.log w.db
  point : w.db.base = restartPoint first w.log
  above : first < block.blockNum
  reach : commitRev w.options w.proc ≤ block.blockNum

theorem commitRev_le (o : Options) (p : Proc Abi) : commitRev o p ≤ p.irreversible := by
  rw [commitRev]
  split_ifs with h
  · rw [Bool.and_eq_true, decide_eq_true_eq] at h
    exact h.2.le
  · exact le_rfl

theorem commitRev_eq_min {o : Options} (ho : o.exporterWillAck = true) (p : Proc Abi) :
    commitRev o p = min p.irreversible p.exporterAckedBlock := by
  rw [commitRev, ho, Bool.true_and]
  by_cases h : p.exporterAckedBlock < p.irreversible
  · rw [if_pos (decide_eq_true h), min_eq_right h.le]
  · rw [if_neg (by simpa using h), min_eq_left (not_lt.mp h)]

section Steps

variable {first : Nat} {block : BlockPosition} {result : GetBlocksResult} {w w₁ w' : World Abi}

/-- A block that follows the stream is above `first`, and where it goes in, the oldest
revision is the restart point. -/
theorem Kept.raised (h : Kept first w) (hrun : Running w) {b : Nat} {db : Undo Tables}
    (hr : raisedDb b w.db = some db)
    (hb : b = w.proc.head + 1 ∨ (b ≤ w.proc.head ∧ first < b)) :
    KeptDb first w.log db ∧ db.base = restartPoint first w.log ∧ first < b := by
  cases hs : w.db.current.state with
  | none =>
      have hhead := h.fresh hrun hs
      obtain rfl : b = first + 1 := by omega
      have hnil := (h.sound.fresh hrun hs).1
      have hpred : Uint32.pred (first + 1) = first := Uint32.pred_of_pos (Nat.succ_pos first)
      have hfirst : restartPoint first w.log = first := by
        rcases h.db.point with hp | ⟨-, hp, -, -⟩
        · refine le_antisymm ?_ (le_restartPoint first w.log)
          exact hp ▸ h.db.bottom _ w.db.at?_base (by rwa [Undo.undoAll_of_stack_nil hnil])
        · exact hp
      rcases raisedDb_eq_some hr with ⟨hle, rfl⟩ | ⟨-, -, rfl⟩
      · rw [hpred, Undo.revision_of_stack_nil hnil] at hle
        have hbottom : w.db.base ≤ first :=
          h.db.bottom _ w.db.at?_base (by rwa [Undo.undoAll_of_stack_nil hnil])
        exact ⟨h.db, (le_antisymm hbottom hle).trans hfirst.symm, first.lt_succ_self⟩
      · rw [hpred, hfirst]
        refine ⟨⟨fun t ht s hts ↦ ?_, fun t ht _ ↦ le_rfl, .inl hfirst.symm, h.db.above⟩, rfl,
          first.lt_succ_self⟩
        rw [(Undo.at?_mk_nil ht).2, hs] at hts
        cases hts
  | some s =>
      have hrev : w.db.revision = w.proc.head := h.sound.revision hrun (by simp [hs])
      have hlt : first < w.proc.head := by
        have hrec := h.sound.db.recorded _ _ w.db.at?_revision s hs
        have habove := h.db.above _ (List.mem_reverse.mp (List.mem_of_find?_eq_some hrec)) s hs
        rwa [h.sound.position hrun s hs] at habove
      obtain rfl : db = w.db := by
        rcases raisedDb_eq_some hr with ⟨-, h⟩ | ⟨hlt, -, -⟩
        · exact h
        · rw [Uint32.pred_of_pos (by omega)] at hlt
          omega
      refine ⟨h.db, ?_, by omega⟩
      rcases h.db.point with hp | ⟨-, -, -, hnone⟩
      · exact hp
      · rw [hs] at hnone
        cases hnone

/-- An accepted block is where the oldest revision is the restart point. -/
theorem Accept.keptPlaced (haccept : Accept block result w (.ok () w₁)) (h : Kept first w)
    (hrun : Running w)
    (hb : block.blockNum = w.proc.head + 1 ∨
      (result.lastIrreversible.blockNum < block.blockNum ∧ block.blockNum ≤ w.proc.head ∧
        first < block.blockNum))
    (hreach : min result.lastIrreversible.blockNum w.proc.exporterAckedBlock ≤ block.blockNum) :
    KeptPlaced first block w₁ := by
  have hb' := hb.imp_right And.right
  have hcommit : ∀ db : Undo Tables, commitRev w.options (w.proc.moved block result) ≤
      block.blockNum := fun _ ↦ (commitRev_eq_min (h.acks hrun) _).trans_le hreach
  cases haccept with
  | @forked db db' hopen _ hroll _ =>
      obtain ⟨hdb, hpoint, habove⟩ := h.raised hrun hopen.raised hb'
      refine ⟨(hdb.rollback hroll).congr (by simp) (by simp), ?_, habove, ?_⟩
      · rw [restartPoint_congr (by simp)]
        exact (Undo.rollback_spec hroll).1.trans hpoint
      · exact (commitRev_le _ _).trans hopen.above.le
  | extended hopen _ _ =>
      obtain ⟨hdb, hpoint, habove⟩ := h.raised hrun hopen.raised hb'
      exact ⟨hdb, hpoint, habove, hcommit w.db⟩
  | unchecked _ hraised _ =>
      obtain ⟨hdb, hpoint, habove⟩ := h.raised hrun hraised hb'
      exact ⟨hdb, hpoint, habove, hcommit w.db⟩

/-- A refused block leaves the oldest revision known. -/
theorem Accept.keptDb {e : Abort} (haccept : Accept block result w (.error e w₁))
    (h : Kept first w) (hrun : Running w)
    (hb : block.blockNum = w.proc.head + 1 ∨
      (block.blockNum ≤ w.proc.head ∧ first < block.blockNum)) : KeptDb first w₁.log w₁.db := by
  cases haccept with
  | unmoved => exact h.db
  | refused hopen _ _ => exact (h.raised hrun hopen.raised hb).1
  | endless hopen _ _ => exact (h.raised hrun hopen.raised hb).1.undoAll
  | bottom hopen _ hroll _ => exact (h.raised hrun hopen.raised hb).1.rollback hroll

variable {lib}

/-- A stored block is committed within reach. -/
theorem KeptPlaced.stored (h : KeptPlaced first block w) (hplaced : SoundlyPlaced block w)
    (hs : Stored lib block result w w') :
    KeptDb first w'.log w'.db := by
  obtain ⟨l, hl, hlog⟩ := hs.log
  have hrev : (w.db.startUndoSession.modify (blockEffect lib block result)).revision =
      block.blockNum := by
    rw [Undo.revision_modify, Undo.revision_startUndoSession, hplaced.revision]
  have hpoint : w.db.base = restartPoint first (w.log ++ l) := by
    rw [restartPoint_congr fun n hn ↦ hl _ hn]
    exact h.point
  have hsession := (h.db.congr (fun n hn ↦ hl _ hn) fun t ht ↦ hl _ ht).session
    (f := blockEffect lib block result) (fun s hs ↦ Option.some.inj hs ▸ h.above) hpoint
  have hcommit := hsession.commit (hplaced.session hs) (hrev ▸ h.reach) (by
    rw [restartPoint_congr (by simp)]
    exact hpoint)
  rw [hs.db, hlog]
  simpa using hcommit

theorem KeptDb.beside (h : KeptDb first w.log w.db) (hw : Beside w w') :
    KeptDb first w'.log w'.db := by
  obtain ⟨l, hl, hin⟩ := hw.1.log
  rw [hl, hw.2]
  exact h.congr (fun n hn ↦ hin _ hn) fun t ht ↦ hin _ ht

/-- However a block ends, the oldest revision is known. -/
theorem ProcessBlock.keptDb {r : EStateM.Result Abort (World Abi) Unit}
    (hprocess : ProcessBlock lib block result w r) (h : KeptPlaced first block w)
    (hplaced : SoundlyPlaced block w) :
    Ends (fun _ w' ↦ KeptDb first w'.log w'.db) (fun _ w' ↦ KeptDb first w'.log w'.db) r := by
  cases hprocess with
  | unreadable => exact h.db
  | failed _ _ hw => exact h.db.beside hw
  | untraced _ _ _ hstored hw => exact (h.stored hplaced hstored).beside hw
  | completed _ _ _ hstored hw =>
      exact ((h.stored hplaced hstored).beside hw).congr (by simp) (by simp)

/-- A process that has stopped keeps what is known of its database. -/
theorem KeptDb.kept (h : KeptDb first w.log w.db) (hscan : Scanning w) (hs : Sound w)
    (hstop : ¬ Running w) : Kept first w :=
  ⟨hscan, hs, h, fun hrun ↦ absurd hrun hstop, fun hrun ↦ absurd hrun hstop⟩

theorem KeptDb.calm (h : KeptDb first w.log w.db) (hc : Calm w w') : KeptDb first w'.log w'.db := by
  obtain ⟨l, hl, hq⟩ := hc.log
  rw [hl, hc.db]
  exact h.congr (fun n hn ↦ hq _ hn) fun t ht ↦ hq _ ht

theorem Kept.calm (h : Kept first w) (hc : Calm w w') : Kept first w' := by
  refine ⟨h.scanning.calm hc, h.sound.calm hc, h.db.calm hc, fun hrun hs ↦ ?_, fun hrun ↦ ?_⟩
  · rw [hc.db] at hs
    exact (congrArg StateObject.head hc.position).trans (h.fresh (hc.running hrun) hs)
  · rw [hc.options]
    exact h.acks (hc.running hrun)

/-- At the end block everything is acknowledged, so that the head is committed. -/
theorem commitRev_of_reachedEnd (hack : w.options.exporterWillAck = true)
    (hend : reachedEnd w.options w.proc = true) : commitRev w.options w.proc = w.proc.head := by
  rw [reachedEnd, hack, Bool.and_eq_true, Bool.and_eq_true] at hend
  obtain ⟨⟨-, hirr⟩, hacked⟩ := hend
  have hacked : w.proc.exporterAckedBlock = w.proc.head := by simpa using hacked
  rw [commitRev_eq_min hack, hacked, min_eq_right (of_decide_eq_true hirr)]

theorem Kept.ended (h : Kept first w) (hend : Ended w w') : Kept first w' := by
  have hrun := hend.running
  refine KeptDb.kept ?_ (h.scanning.ended hend) (h.sound.ended hend) hend.stopped
  have hcommit := commitRev_of_reachedEnd (h.acks hrun) hend.reached
  rw [hend.db, hend.log, hcommit]
  cases hs : w.db.current.state with
  | none =>
      rw [Undo.commit_of_stack_nil (h.sound.fresh hrun hs).1, h.fresh hrun hs]
      have hsame : restartPoint first (w.log ++ [.committed first]) = restartPoint first w.log := by
        rw [restartPoint_append]
        exact max_eq_left (le_restartPoint first w.log)
      refine ⟨h.db.aligned, h.db.bottom, hsame.symm ▸ h.db.point, ?_⟩
      rw [pushed_append]
      simpa [pushed] using h.db.above
  | some s =>
      have hrev := h.sound.revision hrun (by simp [hs])
      refine h.db.commit h.sound.db hrev.ge (h.db.point.resolve_right fun hp ↦ ?_)
      rw [hs] at hp
      cases hp.2.2.2

theorem Kept.next (h : Kept first w) (hnext : Next w w') : Kept first w' := by
  cases hnext with
  | idle hidle => exact h.calm hidle.toCalm
  | ended hend => exact h.ended hend

/-- What is known of the database is enough to start. -/
theorem KeptDb.startsAligned {o : Options} (h : KeptDb first w.log w.db)
    (ho : AckedStart first w (.start o)) : StartsAligned w (.start o) := by
  rw [StartsAligned]
  cases hs : w.db.undoAll.current.state with
  | none =>
      have hfirst : o.startBlockNum - 1 = first := ho.2 hs
      exact hfirst.symm ▸ h.bottom _ w.db.at?_base hs
  | some s => exact h.aligned _ w.db.at?_base s hs

/-- Where a process starts. -/
theorem KeptDb.startPosition {o : Options} (h : KeptDb first w.log w.db)
    (ho : AckedStart first w (.start o)) :
    (startPosition o w.db.undoAll.current).head = restartPoint first w.log := by
  cases hs : w.db.undoAll.current.state with
  | none =>
      have hfirst : o.startBlockNum - 1 = first := ho.2 hs
      rw [Chronicle.startPosition, hs]
      refine hfirst.trans (le_antisymm (le_restartPoint first w.log) ?_)
      rcases h.point with hp | ⟨-, hp, -, -⟩
      · exact hp ▸ h.bottom _ w.db.at?_base hs
      · exact hp.le
  | some s =>
      rw [Chronicle.startPosition, hs]
      refine (h.aligned _ w.db.at?_base s hs).trans (h.point.resolve_right fun hp ↦ ?_)
      rw [Undo.undoAll_of_stack_nil hp.2.2.1, hp.2.2.2] at hs
      cases hs

theorem Started.kept {o : Options} (hs : Started o w w') (h : Kept first w)
    (ho : AckedStart first w (.start o)) (hscan : Scanning w') :
    Kept first w' := by
  have hsound := h.sound.started hs (h.db.startsAligned ho)
  cases hs with
  | loaded hl =>
      refine ⟨hscan, hsound, ?_, fun _ hstate ↦ ?_, fun _ ↦ ?_⟩
      · rw [hl.db, hl.log]
        exact h.db.undoAll.congr (fun n hn ↦ (mem_startForks hn).elim nofun)
          fun t ht ↦ (mem_startForks ht).elim nofun
      · rw [hl.db] at hstate
        have hhead : w'.proc.head = _ := congrArg StateObject.head hl.position
        rw [hhead, startPosition, hstate]
        exact ho.2 hstate
      · rw [hl.options]
        exact ho.1
  | rejected hr =>
      refine KeptDb.kept ?_ hscan hsound hr.stopped
      rw [hr.db, hr.log]
      exact h.db.undoAll

end Steps

/-- Every input that the environment may send keeps what is known of the oldest revision. -/
theorem Kept.exec {first : Nat} {w : World Abi} {i : Input} (h : Kept first w)
    (hi : ScanInput i) (hstart : AckedStart first w i) (hfollow : FollowsHead first w i)
    (hreach : AckedInReach w i) : Kept first (exec lib w i) := by
  have hscan := h.scanning.exec lib hi
  cases h.scanning.exec_cases lib hi with
  | idle hidle => exact h.calm hidle.toCalm
  | acked _ hw => exact hw ▸ h.calm (calm_ackedBy _ w)
  | decoded hw => exact hw ▸ h.calm (calm_decoded lib _ w)
  | ended hidle hend => exact (h.calm hidle.toCalm).ended hend
  | started hs => exact hs.kept h hstart hscan
  | @received block result queueSize _ hblock hread hr =>
      have hd := delivered_receive queueSize hblock hread
      have hb := hfollow _ hd
      have hrun : Running w := running_of_reading hread
      have hsound : Sound w.counted := ⟨h.sound.db, h.sound.position, h.sound.fresh,
        h.sound.revision⟩
      have h₀ : Kept first w.counted :=
        ⟨⟨h.scanning.mode, h.scanning.cached⟩, hsound, h.db, h.fresh, h.acks⟩
      cases hr with
      | refused haccept hstop =>
          have hdb := haccept.keptDb h₀ hrun (hb.imp_right And.right)
          have hsound₁ := (haccept.soundDb hsound.db).calm hstop.1.toCalm
          exact (hdb.calm hstop.1.toCalm).kept hscan (hsound₁.stopped hstop.2) hstop.2
      | broken haccept hprocess hstop =>
          have hplaced := haccept.soundlyPlaced hsound hrun (hfollow.resentAbove _ hd)
          have hat := (haccept.frame h.scanning.cached).2.2.2
          have hdb : KeptDb first _ _ :=
            hprocess.keptDb (haccept.keptPlaced h₀ hrun hb (hreach _ hd)) hplaced
          have hsound₂ := (hprocess.soundDb_error hplaced hat).calm hstop.1.toCalm
          exact (hdb.calm hstop.1.toCalm).kept hscan (hsound₂.stopped hstop.2) hstop.2
      | completed haccept hprocess hidle hnext =>
          have hplaced := haccept.soundlyPlaced hsound hrun (hfollow.resentAbove _ hd)
          obtain ⟨hopt, -, hc, hat⟩ := haccept.frame h.scanning.cached
          have hdb : KeptDb first _ _ :=
            hprocess.keptDb (haccept.keptPlaced h₀ hrun hb (hreach _ hd)) hplaced
          obtain ⟨hsound₂, -, hstate⟩ := hprocess.sound_ok hplaced hat
          have hscan₁ : Scanning _ := h₀.scanning.accept haccept
          have hscan₂ : Scanning _ := hscan₁.process hprocess
          have hopt₂ := (hprocess.frame hc).1.trans hopt
          refine Kept.next (Kept.calm ⟨hscan₂, hsound₂, hdb, fun _ hnone ↦ ?_, fun _ ↦ ?_⟩
            hidle.toCalm) hnext
          · rw [hstate] at hnone
            cases hnone
          · exact (congrArg Options.exporterWillAck hopt₂).trans (h.acks hrun)

theorem kept_newWorld (first : Nat) : Kept first (newWorld : World Abi) := by
  refine KeptDb.kept ?_ scanning_newWorld sound_newWorld fun h ↦ absurd rfl h.1
  have hat : ∀ t, (newWorld : World Abi).db.at? 0 = some t → t = ∅ :=
    fun t ht ↦ (Undo.at?_mk_nil ht).2
  refine ⟨fun t ht s hs ↦ ?_, fun _ _ _ ↦ first.zero_le, ?_, fun t ht ↦ (by cases ht)⟩
  · rw [hat t ht] at hs
    cases hs
  · rcases Nat.eq_zero_or_pos first with rfl | hpos
    · exact .inl rfl
    · exact .inr ⟨hpos, rfl, rfl, rfl⟩

/-- What a process finds when it starts: the database as it was right after the restart
point was processed, or empty if that is the head before the first block. -/
structure Restarted (first : Nat) (w w' : World Abi) : Prop where
  head : w'.proc.head = restartPoint first w.log
  tables : w'.db.current = (afterBlock w.log (restartPoint first w.log)).getD ∅
  uncommitted : w'.db.stack = []

/-- A process starts at the restart point, wherever the one before has stopped. -/
theorem Kept.restarted {first : Nat} {w : World Abi} {o : Options} (h : Kept first w)
    (hi : o.interactiveMode = false) (ho : AckedStart first w (.start o)) :
    Restarted first w (Chronicle.exec lib w (.start o)) := by
  have hdb : w.db.undoAll.current =
      (afterBlock w.log (restartPoint first w.log)).getD ∅ := by
    have hpoint := h.db.startPosition ho
    cases hs : w.db.undoAll.current.state with
    | none =>
        rw [startPosition, hs] at hpoint
        have hfirst : first = restartPoint first w.log := (ho.2 hs).symm.trans hpoint
        have hnone : afterBlock w.log (restartPoint first w.log) = none := by
          refine List.find?_eq_none.mpr fun t ht heq ↦ ?_
          obtain ⟨s, hts, hhead⟩ := Option.map_eq_some_iff.mp (of_decide_eq_true heq)
          have hlt := h.db.above t (List.mem_reverse.mp ht) s hts
          omega
        rw [hnone]
        exact (h.sound.db.settled _ _ w.db.at?_base).empty hs
    | some s =>
        rw [startPosition, hs] at hpoint
        rw [← hpoint]
        exact (congrArg (Option.getD · ∅) (h.sound.db.recorded _ _ w.db.at?_base s hs)).symm
  cases start_cases lib hi w with
  | loaded hl =>
      exact ⟨(congrArg StateObject.head hl.position).trans (h.db.startPosition ho),
        (congrArg Undo.current hl.db).trans hdb, congrArg Undo.stack hl.db⟩
  | rejected hr =>
      exact ⟨(congrArg StateObject.head hr.position).trans (h.db.startPosition ho),
        (congrArg Undo.current hr.db).trans hdb, congrArg Undo.stack hr.db⟩

/-- In every run with an exporter that acknowledges, on a stream that follows the head, in
which nothing is committed beyond the block it is committed with: a process that starts at
any point finds the database as it was after the largest revision that was committed. -/
theorem restart_at_largest_commit (first : Nat) (inputs : List Input)
    (hrun : Run.Guarded (exec lib)
      (fun w i ↦ (ScanInput i ∧ AckedStart first w i ∧ FollowsHead first w i) ∧ AckedInReach w i)
      newWorld inputs)
    {o : Options} (hmode : o.interactiveMode = false)
    (hstart : AckedStart first (run lib newWorld inputs) (.start o)) :
    Restarted first (run lib newWorld inputs) (exec lib (run lib newWorld inputs) (.start o)) := by
  have hkept : Kept first (run lib newWorld inputs) :=
    hrun.invariant (I := Kept first) (fun w i h hi ↦ h.exec lib hi.1.1 hi.1.2.1 hi.1.2.2 hi.2)
      (kept_newWorld first)
  exact hkept.restarted lib hmode hstart

/-- Four blocks of a process with an exporter that acknowledges. -/
def fourBlocks : List Input :=
  [.start { exporterWillAck := true }, .ack 0, .ready 0, .result (bareResult ⟨1, 1⟩ 0 0),
    .result (bareResult ⟨2, 2⟩ 1 0), .result (bareResult ⟨3, 3⟩ 2 0),
    .result (bareResult ⟨4, 4⟩ 3 0)]

set_option maxRecDepth 10000 in
/-- After a fork at the second block, the next process starts at what was acknowledged of
the new chain. -/
theorem restart_after_fork :
    let w := run .lenient newWorld (fourBlocks ++ [.result (bareResult ⟨2, 7⟩ 1 1), .ack 1,
      .timer 0, .ack 2, .result (bareResult ⟨3, 8⟩ 7 9)])
    Restarted 0 w (exec .lenient w (.start { exporterWillAck := true })) ∧
      restartPoint 0 w.log = 2 := by
  refine ⟨restart_at_largest_commit .lenient 0 _ (by decide) rfl (by decide), by decide⟩

set_option maxRecDepth 10000 in
/-- The consumer acknowledges the first block after the fork at the second was published,
but before it has seen that fork.  The receiver takes this for the answer, and goes on to
believe the acknowledgements of the abandoned blocks.  It commits block 4 with block 3. -/
theorem restart_below_commit :
    ∃ (first : Nat) (inputs : List Input) (o : Options),
      Run.Guarded (exec .lenient)
        (fun w i ↦ (ScanInput i ∧ AckedStart first w i ∧ FollowsHead first w i) ∧ AckReceived w i)
        newWorld inputs ∧
      o.interactiveMode = false ∧ AckedStart first (run .lenient newWorld inputs) (.start o) ∧
      ¬ Restarted first (run .lenient newWorld inputs)
        (exec .lenient (run .lenient newWorld inputs) (.start o)) := by
  refine ⟨0, fourBlocks ++ [.result (bareResult ⟨2, 7⟩ 1 1), .ack 1, .timer 0, .ack 2, .ack 3,
    .ack 4, .result (bareResult ⟨3, 8⟩ 7 9)], { exporterWillAck := true }, by decide, rfl,
    by decide, fun h ↦ ?_⟩
  exact absurd h.head (by decide)

end Chronicle
