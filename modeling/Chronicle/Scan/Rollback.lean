import Chronicle.Scan.Ordered

/-!
# The rollback loop

A block that is not above the head makes the receiver undo revisions until it is at the block
below.  The loop asks for the revision only, and `undo` without a revision to undo leaves it as it
is: so the loop ends exactly if the oldest revision is below the block.  The check for an empty
stack comes after the loop, and is never made when the stack is what is missing.
-/

namespace Chronicle

open Store Effect

variable {Abi : Type} (lib : Abieos Abi)

/-- The position of a block is accepted with the database at the block below, or refused: before
anything was undone, or at revision zero. -/
def RollsBack (block : BlockPosition) (result : GetBlocksResult) (w : World Abi) : Prop :=
  Ends (fun _ w' ↦ w'.db.revision + 1 = block.blockNum)
    (fun e w' ↦ (w' = w ∧ ∃ what, e = .exception what) ∨
      (w'.db.revision = 0 ∧
        e = .exception "Cannot rollback, no undo stack at revision 0"))
    (acceptPosition block result w)

variable {block : BlockPosition} {result : GetBlocksResult} {w : World Abi}

/-- Raising the revision never moves the oldest one to the block. -/
theorem base_lt_of_raisedDb {db : Undo Tables} (hpos : 0 < block.blockNum)
    (hraised : raisedDb block.blockNum w.db = some db) :
    db.base < block.blockNum ↔ w.db.base < block.blockNum := by
  rcases raisedDb_eq_some hraised with ⟨-, rfl⟩ | ⟨hlt, -, rfl⟩
  · rfl
  · rw [Uint32.pred_of_pos hpos] at hlt
    have hbase := w.db.base_le_revision
    refine iff_of_true ?_ (by omega)
    change Uint32.pred block.blockNum < block.blockNum
    rw [Uint32.pred_of_pos hpos]
    omega

/-- What is left of the check for a block that is not above the head. -/
theorem acceptPosition_fork (hscan : w.options.interactiveMode = false)
    (habove : result.lastIrreversible.blockNum < block.blockNum)
    (hhead : block.blockNum ≤ w.proc.head)
    (hirr : w.proc.irreversible ≤ result.lastIrreversible.blockNum) :
    acceptPosition block result w = match raisedDb block.blockNum w.db with
      | none =>
        .error (.exception "cannot set revision while there is an existing undo stack") w
      | some db => (handleFork block.blockNum result.lastIrreversible.blockNum >>=
          fun _ ↦ moveHead block result : Receiver Abi Unit) { w with db := db } := by
  have hrun : acceptPosition block result w =
      (checkPosition block.blockNum result >>= fun _ ↦ moveHead block result) w := by
    change (if result.lastIrreversible.blockNum < w.proc.irreversible then
      (throw _ >>= _ : Receiver Abi Unit) else _) w = _
    rw [if_neg (not_lt.mpr hirr), hscan]
    rfl
  rw [hrun]
  cases hraised : raisedDb block.blockNum w.db with
  | none =>
      refine bind_run_error ?_
      change (raiseRevision block.blockNum >>= _ : Receiver Abi Unit) w = _
      refine bind_run_error ?_
      rw [raiseRevision_run, hraised]
  | some db =>
      have hcheck : checkPosition block.blockNum result w =
          handleFork block.blockNum result.lastIrreversible.blockNum { w with db := db } := by
        rw [checkPosition_run hraised hirr, if_pos habove, if_pos hhead]
      change EStateM.bind _ _ w = EStateM.bind _ _ _
      rw [EStateM.bind, EStateM.bind, hcheck]

/-- The loop ends as it should exactly if the oldest revision is below the block, unless the result
is refused before. -/
theorem rollsBack_iff (hscan : w.options.interactiveMode = false)
    (habove : result.lastIrreversible.blockNum < block.blockNum)
    (hhead : block.blockNum ≤ w.proc.head) :
    RollsBack block result w ↔
      w.db.base < block.blockNum ∨ result.lastIrreversible.blockNum < w.proc.irreversible := by
  have hpos : 0 < block.blockNum := by omega
  rw [RollsBack]
  by_cases hirr : w.proc.irreversible ≤ result.lastIrreversible.blockNum
  swap
  · refine iff_of_true ?_ (.inr (not_le.mp hirr))
    have hrun : acceptPosition block result w = .error (.exception
        "Irreversible block in state history is lower than the one last seen") w := by
      change (if result.lastIrreversible.blockNum < w.proc.irreversible then
        (throw _ >>= _ : Receiver Abi Unit) else _) w = _
      rw [if_pos (not_le.mp hirr)]
      rfl
    rw [hrun]
    exact .inl ⟨rfl, _, rfl⟩
  rw [acceptPosition_fork hscan habove hhead hirr, or_iff_left (not_lt.mpr hirr)]
  cases hraised : raisedDb block.blockNum w.db with
  | none =>
      -- only a revision above the oldest one is in the way
      refine iff_of_true (.inl ⟨rfl, _, rfl⟩) ?_
      rw [raisedDb] at hraised
      split_ifs at hraised with hlt
      · rw [Uint32.pred_of_pos hpos] at hlt
        have hbase := w.db.base_le_revision
        omega
  | some db =>
      rw [← base_lt_of_raisedDb hpos hraised]
      have hpred := pred_le_raisedDb hraised
      rw [Uint32.pred_of_pos hpos] at hpred
      change Ends _ _ (EStateM.bind _ _ _) ↔ _
      rw [EStateM.bind, handleFork_run]
      cases hroll : db.rollback block.blockNum with
      | none =>
          refine iff_of_false ?_ (not_lt.mpr (Undo.rollback_eq_none_iff.mp hroll))
          rintro (⟨-, what, he⟩ | ⟨-, he⟩) <;> cases he
      | some db' =>
          obtain ⟨-, hrev, hbase, -⟩ := Undo.rollback_spec hroll
          refine iff_of_true ?_ hbase
          simp only
          split_ifs with hzero
          · exact .inr ⟨hzero, rfl⟩
          · change db'.revision + 1 = block.blockNum
            omega

/-- **Whatever database a run in scan mode has begun with, and however it has gone: the rollback
for the next block ends as it should exactly if the oldest revision is below that block, unless
the result is refused before.** -/
theorem rollback_ends_iff (db : Undo Tables) (inputs : List Input)
    (hrun : ∀ i ∈ inputs, ScanInput i) (block : BlockPosition) (result : GetBlocksResult)
    (habove : result.lastIrreversible.blockNum < block.blockNum)
    (hhead : block.blockNum ≤ (run lib { newWorld with db := db } inputs).proc.head) :
    RollsBack block result (run lib { newWorld with db := db } inputs).counted ↔
      (run lib { newWorld with db := db } inputs).db.base < block.blockNum ∨
        result.lastIrreversible.blockNum <
          (run lib { newWorld with db := db } inputs).proc.irreversible := by
  have hscan : Scanning (run lib { newWorld with db := db } inputs) := by
    have hstart : Scanning ({ newWorld with db := db } : World Abi) :=
      ⟨rfl, scanning_newWorld.cached⟩
    generalize ({ newWorld with db := db } : World Abi) = w at hstart
    clear habove hhead
    induction inputs generalizing w with
    | nil => exact hstart
    | cons i inputs ih =>
        obtain ⟨hi, hrest⟩ := List.forall_mem_cons.mp hrun
        exact ih hrest _ (hstart.exec lib hi)
  exact rollsBack_iff (w := World.counted _) hscan.mode habove hhead

/-- Blocks 5 and 6 of a process that was told to start at block 5. -/
def startedAtFive : List Input :=
  [.start { startBlockNum := 5 }, .ready 0, .result (bareResult ⟨5, 5⟩ 4 0),
    .result (bareResult ⟨6, 6⟩ 5 0)]

set_option maxRecDepth 10000 in
theorem rollback_ends_at_six :
    RollsBack ⟨6, 7⟩ (bareResult ⟨6, 7⟩ 5 0)
        (run .lenient { newWorld with db := ⟨0, ∅, []⟩ } startedAtFive).counted ↔
      (run .lenient { newWorld with db := ⟨0, ∅, []⟩ } startedAtFive).db.base < 6 ∨
        0 < (run .lenient { newWorld with db := ⟨0, ∅, []⟩ } startedAtFive).proc.irreversible :=
  rollback_ends_iff .lenient _ startedAtFive (by decide) ⟨6, 7⟩ _ (by decide) (by decide)

set_option maxRecDepth 10000 in
/-- A fork below the block that the process was told to start at: the receiver hangs. -/
theorem rollback_hangs :
    let w := run .lenient newWorld startedAtFive
    w.proc.head = 6 ∧ w.proc.irreversible = 0 ∧
      (∃ w', acceptPosition ⟨4, 4⟩ (bareResult ⟨4, 4⟩ 3 0) w.counted = .error .hang w') ∧
      ¬ RollsBack ⟨4, 4⟩ (bareResult ⟨4, 4⟩ 3 0) w.counted ∧
      (exec .lenient w (.result (bareResult ⟨4, 4⟩ 3 0))).proc.continuation = .hung := by
  refine ⟨rfl, rfl, ⟨_, rfl⟩, ?_, rfl⟩
  rintro (⟨-, what, he⟩ | ⟨-, he⟩) <;> cases he

end Chronicle
