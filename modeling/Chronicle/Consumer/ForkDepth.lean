import Chronicle.Consumer.Republish
import Chronicle.Scan.Rollback

/-!
# What fork events say about the rollback

A fork event names the block above the one that the database was rolled back to, and how many
revisions were undone for that.  At a restart the receiver counts them.  For a fork in the
stream it takes the distance between the head and the new block, which counts the block at the
head but not the one that is replaced.
-/

namespace Chronicle

open Store Effect

variable {Abi : Type} {lib : Abieos Abi}

/-! ## Descriptions -/

/-- The database that an input rolls back to, and the options of the process. -/
def World.rolledBack (w : World Abi) : Input → Option (Options × Undo Tables)
  | .start o => some (o, w.db.undoAll)
  | .receive (.ok result) _ => do
    let block ← result.thisBlock
    let raised ← raisedDb block.blockNum w.db
    let db ← raised.rollback block.blockNum
    return (w.options, db)
  | _ => none

/-- A fork event describes a rollback: its block is the one above the head of the database that
was rolled back to, and its depth is the number of revisions that were undone. -/
structure ForkEvent.Describes (f : ForkEvent) (o : Options) (db db' : Undo Tables) : Prop where
  head : f.blockNum = (startPosition o db'.current).head + 1
  depth : f.depth + db'.stack.length = db.stack.length

/-- The forks that an input announces, other than those of a new database, describe its
rollback. -/
def ForksDescribe (lib : Abieos Abi) (w : World Abi) (i : Input) : Prop :=
  ∀ f, .fork f ∈ newEvents w (exec lib w i) → f.forkReason ≠ .resync →
    ∃ o db', w.rolledBack i = some (o, db') ∧ f.Describes o w.db db'

/-! ## When a result makes the receiver roll back -/

/-- The block of a result is reversible and not above the head, and there is a revision below
it. -/
structure TakesBack (w : World Abi) (block : BlockPosition) (result : GetBlocksResult) :
    Prop where
  irreversible : w.proc.irreversible ≤ result.lastIrreversible.blockNum
  above : result.lastIrreversible.blockNum < block.blockNum
  head : block.blockNum ≤ w.proc.head
  base : w.db.base < block.blockNum
  first : 1 < block.blockNum
  raised : w.db.revision + 1 < block.blockNum → w.db.stack.length = 0

instance (w : World Abi) (block : BlockPosition) (result : GetBlocksResult) :
    Decidable (TakesBack w block result) :=
  decidable_of_iff
    (w.proc.irreversible ≤ result.lastIrreversible.blockNum ∧
      result.lastIrreversible.blockNum < block.blockNum ∧ block.blockNum ≤ w.proc.head ∧
      w.db.base < block.blockNum ∧ 1 < block.blockNum ∧
      (w.db.revision + 1 < block.blockNum → w.db.stack.length = 0))
    ⟨fun ⟨h₁, h₂, h₃, h₄, h₅, h₆⟩ ↦ ⟨h₁, h₂, h₃, h₄, h₅, h₆⟩,
      fun h ↦ ⟨h.irreversible, h.above, h.head, h.base, h.first, h.raised⟩⟩

/-- The tables at the revision below a block, or those that are renumbered to it. -/
def World.tablesBelow (w : World Abi) (b : Nat) : Tables :=
  (w.db.at? (b - 1)).getD w.db.current

/-- The revision is one below the head, or below the head at the block itself; and the head of
the revision below the block is the block before. -/
structure ForkFits (w : World Abi) (b : Nat) : Prop where
  depth : w.db.revision + 1 = w.proc.head ∨ (b = w.proc.head ∧ w.db.revision < w.proc.head)
  head : b = (startPosition w.options (w.tablesBelow b)).head + 1

instance (w : World Abi) (b : Nat) : Decidable (ForkFits w b) :=
  decidable_of_iff
    ((w.db.revision + 1 = w.proc.head ∨ (b = w.proc.head ∧ w.db.revision < w.proc.head)) ∧
      b = (startPosition w.options (w.tablesBelow b)).head + 1)
    ⟨fun h ↦ ⟨h.1, h.2⟩, fun h ↦ ⟨h.depth, h.head⟩⟩

/-- Whenever a result makes the receiver roll back, its fork fits. -/
def NetworkForksFit (w : World Abi) (i : Input) : Prop :=
  ∀ d ∈ delivered w i, TakesBack w d.1 d.2 → ForkFits w d.1.blockNum

instance (w : World Abi) (i : Input) : Decidable (NetworkForksFit w i) :=
  inferInstanceAs (Decidable (∀ _ ∈ _, _))

section Steps

variable {w w₁ : World Abi} {block : BlockPosition} {result : GetBlocksResult}

/-- What is left after a rollback, and when the distance to the head is what was undone. -/
theorem TakesBack.rollback (h : TakesBack w block result) : ∃ db db',
    raisedDb block.blockNum w.db = some db ∧ db.rollback block.blockNum = some db' ∧
      db'.revision ≠ 0 ∧ db'.current = w.tablesBelow block.blockNum ∧
      (w.proc.head - block.blockNum + db'.stack.length = w.db.stack.length ↔
        w.db.revision + 1 = w.proc.head ∨
          (block.blockNum = w.proc.head ∧ w.db.revision < w.proc.head)) := by
  obtain ⟨-, -, hhead, hbase, hfirst, hraised⟩ := h
  have hpred : Uint32.pred block.blockNum = block.blockNum - 1 := Uint32.pred_of_pos (by omega)
  have hlength : w.db.revision = w.db.base + w.db.stack.length := rfl
  by_cases hlow : w.db.revision < block.blockNum - 1
  · -- the database is renumbered, and nothing is undone
    have hnil : w.db.stack = [] := List.eq_nil_of_length_eq_zero (hraised (by omega))
    have hdb : raisedDb block.blockNum w.db =
        some ⟨block.blockNum - 1, w.db.current, []⟩ := by
      rw [raisedDb, hpred, if_pos hlow, Undo.setRevision, if_pos ⟨hnil, hlow.le⟩, hnil]
    have hlt : (⟨block.blockNum - 1, w.db.current, []⟩ : Undo Tables).revision <
      block.blockNum := by
      rw [Undo.revision_mk_nil]
      omega
    have hroll := Undo.rollback_of_revision_lt hlt
    have hat : w.db.at? (block.blockNum - 1) = none := if_neg (by omega)
    refine ⟨_, _, hdb, hroll, by rw [Undo.revision_mk_nil]; omega, ?_, ?_⟩
    · rw [World.tablesBelow, hat, Option.getD_none]
    · rw [hnil, List.length_nil]
      omega
  · have hdb : raisedDb block.blockNum w.db = some w.db := by
      rw [raisedDb, hpred, if_neg hlow]
    obtain ⟨db', hroll⟩ := Option.isSome_iff_exists.mp (Undo.rollback_isSome hbase)
    obtain ⟨hbase', hrev, -, hat⟩ := Undo.rollback_spec hroll
    have hlength' : db'.revision = db'.base + db'.stack.length := rfl
    have hrev' : db'.revision = block.blockNum - 1 := by omega
    refine ⟨w.db, db', hdb, hroll, by omega, ?_, ?_⟩
    · rw [World.tablesBelow, ← hrev', Undo.rollback_current hroll, Option.getD_some]
    · omega

/-- A position that makes the receiver roll back is not refused. -/
theorem TakesBack.not_refused (h : TakesBack w block result) {e : Abort}
    (haccept : Accept block result w.counted (.error e w₁)) : False := by
  obtain ⟨db, db', hdb, hroll, hrev, -, -⟩ := h.rollback
  cases haccept with
  | unmoved hwhy => exact absurd (hdb.symm.trans (hwhy h.irreversible)) (Option.some_ne_none _)
  | refused hopen habove _ => exact absurd h.head (not_le.mpr habove)
  | endless hopen _ hroll₁ =>
      obtain rfl := Option.some.inj (hdb.symm.trans hopen.raised)
      exact absurd (hroll.symm.trans hroll₁) (Option.some_ne_none _)
  | bottom hopen _ hroll₁ hzero =>
      obtain rfl := Option.some.inj (hdb.symm.trans hopen.raised)
      obtain rfl := Option.some.inj (hroll.symm.trans hroll₁)
      exact hrev hzero

/-- A fork that was announced made the receiver roll back. -/
theorem takesBack_of_forked {db db' : Undo Tables} (hopen : Open block result w db)
    (hhead : block.blockNum ≤ w.proc.head) (hroll : db.rollback block.blockNum = some db')
    (hzero : db'.revision ≠ 0) : TakesBack w block result := by
  have habove := hopen.above
  have hpred : Uint32.pred block.blockNum = block.blockNum - 1 := Uint32.pred_of_pos (by omega)
  obtain ⟨hbase', hrev, hlt, -⟩ := Undo.rollback_spec hroll
  refine ⟨hopen.irreversible, habove, hhead, ?_, by omega, fun hlow ↦ ?_⟩
  · exact (base_lt_of_raisedDb (by omega) hopen.raised).mp hlt
  · rcases raisedDb_eq_some hopen.raised with ⟨hle, -⟩ | ⟨-, hnil, -⟩
    · omega
    · rw [hnil]
      rfl

/-- What the rollback for a fork in the stream is described by. -/
theorem describes_networkFork_iff (h : TakesBack w block result) (queueSize : Nat)
    (hblock : result.thisBlock = some block) {f : ForkEvent}
    (hf : .fork f = networkFork block.blockNum result.lastIrreversible.blockNum w.proc.head) :
    (∃ o db', w.rolledBack (.receive (.ok result) queueSize) = some (o, db') ∧
      f.Describes o w.db db') ↔ ForkFits w block.blockNum := by
  obtain ⟨db, db', hdb, hroll, -, hcur, hdepth⟩ := h.rollback
  obtain rfl := Event.fork.inj hf
  have hrolled : w.rolledBack (.receive (.ok result) queueSize) = some (w.options, db') := by
    rw [World.rolledBack, hblock]
    simp only [Option.bind_eq_bind, Option.bind_some, hdb, hroll]
    rfl
  rw [hrolled]
  constructor
  · rintro ⟨o, db₁, heq, hdescribes⟩
    obtain ⟨rfl, rfl⟩ := Prod.mk.inj (Option.some.inj heq)
    exact ⟨hdepth.mp hdescribes.depth, hcur ▸ hdescribes.head⟩
  · intro hfits
    refine ⟨_, _, rfl, ⟨?_, hdepth.mpr hfits.depth⟩⟩
    rw [hcur]
    exact hfits.head

/-- A block of the stream. -/
theorem forksDescribe_receive_iff (hscan : Scanning w) (queueSize : Nat)
    (hblock : result.thisBlock = some block) (hread : w.proc.continuation = .reading) :
    ForksDescribe lib w (.receive (.ok result) queueSize) ↔
      (TakesBack w block result → ForkFits w block.blockNum) := by
  have hr := receive_cases lib queueSize hscan.mode hscan.cached hblock hread
  rcases hr.publishes_accepted lib hscan.cached with
    ⟨e, w₁, es, haccept, hes, hstill⟩ | ⟨w₁, es, haccept, hes, hbeside⟩
  · refine iff_of_true (fun f hf ↦ ?_) fun htakes ↦ (htakes.not_refused haccept).elim
    rw [newEvents_eq hes] at hf
    exact absurd (hstill _ hf) not_false
  have hmem : ∀ f, .fork f ∈ newEvents w (exec lib w (.receive (.ok result) queueSize)) ↔
      .fork f ∈ forkEvents block result w := by
    intro f
    rw [newEvents_eq hes, List.mem_append]
    exact or_iff_left fun hf ↦ (hbeside _ hf).1 f rfl
  constructor
  · intro hdescribe htakes
    have hfork : networkFork block.blockNum result.lastIrreversible.blockNum w.proc.head ∈
        forkEvents block result w := by
      rw [forkEvents, if_pos ⟨htakes.above, htakes.head⟩]
      exact List.mem_singleton_self _
    exact (describes_networkFork_iff htakes queueSize hblock rfl).mp
      (hdescribe _ ((hmem _).mpr hfork) (fun hreason ↦ by cases hreason))
  · intro hfits f hf hreason
    have hf := (hmem f).mp hf
    rw [forkEvents] at hf
    split_ifs at hf with hfork
    · have htakes : TakesBack w block result := by
        cases haccept with
        | forked hopen hhead hroll hzero =>
            have h := takesBack_of_forked (w := w.counted) hopen hhead hroll hzero
            exact ⟨h.irreversible, h.above, h.head, h.base, h.first, h.raised⟩
        | extended _ habove _ => exact absurd hfork.2 (not_le.mpr habove)
        | unchecked _ _ hbelow => exact absurd hfork.1 (not_lt.mpr hbelow)
      exact (describes_networkFork_iff htakes queueSize hblock (List.mem_singleton.mp hf)).mpr
        (hfits htakes)
    · cases hf

/-- At a restart the receiver counts the revisions that it undoes. -/
theorem forksDescribe_start {o : Options} (hscan : o.interactiveMode = false) (w : World Abi) :
    ForksDescribe lib w (.start o) := by
  intro f hf hreason
  refine ⟨o, w.db.undoAll, rfl, ?_⟩
  cases start_cases lib hscan w with
  | rejected hr =>
      have hpublished : published (exec lib w (.start o)).log = published w.log ++ [] := by
        rw [hr.log, List.append_nil]
      rw [newEvents_eq hpublished] at hf
      cases hf
  | loaded hl =>
      rw [newEvents_eq (by rw [hl.log, published_append]), startForks, published_append] at hf
      rcases List.mem_append.mp hf with hf | hf
      · split_ifs at hf
        · obtain rfl := Event.fork.inj (List.mem_singleton.mp hf)
          exact absurd rfl hreason
        · cases hf
      · split_ifs at hf
        · obtain rfl := Event.fork.inj (List.mem_singleton.mp hf)
          exact ⟨rfl, rfl⟩
        · cases hf

/-- **The forks that an input announces describe its rollback exactly if, where it is a block of
the stream that makes the receiver roll back, the fork fits.** -/
theorem forksDescribe_iff {i : Input} (hscan : Scanning w) (hi : ScanInput i) :
    ForksDescribe lib w i ↔ NetworkForksFit w i := by
  have hquiet : (∃ es, published (exec lib w i).log = published w.log ++ es ∧
      ∀ e ∈ es, e.Still) → delivered w i = none →
      (ForksDescribe lib w i ↔ NetworkForksFit w i) := by
    rintro ⟨es, hes, hstill⟩ hnone
    refine iff_of_true (fun f hf ↦ ?_) fun d hd ↦ ?_
    · rw [newEvents_eq hes] at hf
      exact absurd (hstill _ hf) not_false
    · rw [hnone] at hd
      cases hd
  have hexec := hscan.exec_cases lib hi
  generalize hw' : exec lib w i = w' at hexec
  rw [hw'] at hquiet
  cases hexec with
  | idle hidle hnone => exact hquiet hidle.toCalm.publishes hnone
  | acked _ hw => exact hquiet (hw ▸ calm_ackedBy _ w : Calm w _).publishes rfl
  | decoded hw => exact hquiet (hw ▸ calm_decoded lib _ w : Calm w _).publishes rfl
  | ended hidle hend hnone =>
      obtain ⟨es, hes, hstill⟩ := hidle.toCalm.publishes
      exact hquiet ⟨es, hend.publishes.trans hes, hstill⟩ hnone
  | @started o _ hs =>
      exact iff_of_true (forksDescribe_start hi w) fun d hd ↦ by cases hd
  | @received block result queueSize _ hblock hread hr =>
      rw [forksDescribe_receive_iff hscan queueSize hblock hread, NetworkForksFit,
        delivered_receive queueSize hblock hread]
      exact ⟨fun h d hd ↦ Option.some.inj hd ▸ h, fun h ↦ h _ rfl⟩

/-! ## Databases at the head -/

/-- In a database that is at the head, one revision more is undone than the fork event says. -/
theorem Sound.undone_networkFork (h : Sound w) (hrun : Running w)
    (hstate : w.db.current.state ≠ none) (htakes : TakesBack w block result) :
    ∃ db', w.db.rollback block.blockNum = some db' ∧
      w.proc.head - block.blockNum + 1 + db'.stack.length = w.db.stack.length := by
  have hrev := h.revision hrun hstate
  have hhead := htakes.head
  have hfirst := htakes.first
  have hlength : w.db.revision = w.db.base + w.db.stack.length := rfl
  obtain ⟨db', hroll⟩ := Option.isSome_iff_exists.mp (Undo.rollback_isSome htakes.base)
  obtain ⟨hbase', hrev', hlt, -⟩ := Undo.rollback_spec hroll
  have hlength' : db'.revision = db'.base + db'.stack.length := rfl
  exact ⟨db', hroll, by omega⟩

/-- So no fork in its stream fits. -/
theorem Sound.not_forkFits (h : Sound w) (hrun : Running w)
    (hstate : w.db.current.state ≠ none) (b : Nat) : ¬ForkFits w b := by
  have hrev := h.revision hrun hstate
  intro hfits
  rcases hfits.depth with hdepth | ⟨-, hdepth⟩
  · omega
  · omega

end Steps

/-! ## Runs -/

theorem guarded_forksDescribe_iff {w : World Abi} {inputs : List Input} (h : Scanning w)
    (hscan : ∀ i ∈ inputs, ScanInput i) :
    Run.Guarded (exec lib) (ForksDescribe lib) w inputs ↔
      Run.Guarded (exec lib) NetworkForksFit w inputs := by
  induction inputs generalizing w with
  | nil => exact Iff.rfl
  | cons i inputs ih =>
      have hi := hscan i List.mem_cons_self
      rw [Run.Guarded, Run.Guarded, forksDescribe_iff h hi]
      exact and_congr_right fun _ ↦
        ih (h.exec lib hi) fun i' hi' ↦ hscan i' (List.mem_cons_of_mem _ hi')

/-- **In every run in scan mode: the forks that are announced, at restarts and in the stream,
describe what was rolled back exactly if every fork in the stream fits.** -/
theorem forks_describe_rollback_iff (inputs : List Input) (hscan : ∀ i ∈ inputs, ScanInput i) :
    Run.Guarded (exec lib) (ForksDescribe lib) newWorld inputs ↔
      Run.Guarded (exec lib) NetworkForksFit newWorld inputs :=
  guarded_forksDescribe_iff scanning_newWorld hscan

/-- Two blocks, and a restart with both still reversible. -/
def restartedAboveTwo : List Input :=
  [.start {}, .ready 0, .result (bareResult ⟨1, 1⟩ 0 0), .result (bareResult ⟨2, 2⟩ 1 0),
    .start {}]

set_option maxRecDepth 10000 in
theorem forks_describe_rollback_restarted :
    Run.Guarded (exec .lenient) (ForksDescribe .lenient) newWorld restartedAboveTwo :=
  (forks_describe_rollback_iff restartedAboveTwo (by decide)).mpr (by decide)

set_option maxRecDepth 10000 in
/-- Two blocks, and the second one is replaced: one revision is undone, and the depth is zero. -/
theorem fork_depth_zero :
    ∃ inputs : List Input, (∀ i ∈ inputs, ScanInput i) ∧
      ¬Run.Guarded (exec .lenient) (ForksDescribe .lenient) newWorld inputs := by
  refine ⟨[.start {}, .ready 0, .result (bareResult ⟨1, 1⟩ 0 0), .result (bareResult ⟨2, 2⟩ 1 0),
    .result (bareResult ⟨2, 3⟩ 1 0)], by decide, fun h ↦ ?_⟩
  rw [guarded_forksDescribe_iff scanning_newWorld (by decide)] at h
  exact absurd h (by decide)

end Chronicle
