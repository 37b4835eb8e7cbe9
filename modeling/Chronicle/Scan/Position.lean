import Chronicle.Block.Process

/-!
# The position of a result in scan mode

`acceptPosition` decides where a result goes.  `Accept` lists the ways in which it ends:
the block extends what there is, replaces a part of it after a rollback, or goes in
without a check because its own result calls it irreversible; and three refusals, of which
the last two have undone revisions already.
-/

namespace Chronicle

open Store Effect

variable {Abi : Type}

/-! ## Runs of the parts -/

/-- The database with its revision just below block `b`, if it can be moved there. -/
def raisedDb (b : Nat) (db : Undo Tables) : Option (Undo Tables) :=
  if db.revision < Uint32.pred b then db.setRevision (Uint32.pred b) else some db

theorem raiseRevision_run (b : Nat) (w : World Abi) :
    raiseRevision b w = match raisedDb b w.db with
      | some db => .ok () { w with db := db }
      | none =>
        .error (.exception "cannot set revision while there is an existing undo stack") w := by
  have hrun : raiseRevision b w =
      (if w.db.revision < Uint32.pred b then
        match w.db.setRevision (Uint32.pred b) with
        | some db => set { w with db := db }
        | none => throw (.exception "cannot set revision while there is an existing undo stack")
      else pure () : Receiver Abi Unit) w := rfl
  rw [hrun, raisedDb]
  split_ifs with h
  · cases w.db.setRevision (Uint32.pred b) <;> rfl
  · rfl

/-- The process after the rollback for a fork. -/
def Proc.forked (o : Options) (b : Nat) (p : Proc Abi) : Proc Abi :=
  { p.cleared with
    exporterAckedBlock :=
      if o.exporterWillAck && Uint32.pred b < p.exporterAckedBlock then Uint32.pred b
      else p.exporterAckedBlock
    forkedAtBlock := b }

/-- The process with the block of a result as its head. -/
def Proc.moved (block : BlockPosition) (result : GetBlocksResult) (p : Proc Abi) : Proc Abi :=
  { p with
    head := block.blockNum
    headId := block.blockId
    irreversible := result.lastIrreversible.blockNum
    irreversibleId := result.lastIrreversible.blockId }

/-- The event for a fork found in the stream. -/
def networkFork (b lastIrreversible head : Nat) : Event :=
  .fork { blockNum := b, depth := head - b, forkReason := .network, lastIrreversible }

theorem handleFork_run (b lastIrreversible : Nat) (w : World Abi) :
    handleFork b lastIrreversible w = match w.db.rollback b with
      | none => .error .hang { w with proc := w.proc.cleared, db := w.db.undoAll }
      | some db =>
        if db.revision = 0 then
          .error (.exception "Cannot rollback, no undo stack at revision 0")
            { w with proc := w.proc.cleared, db := db }
        else .ok ()
          { w with
            proc := w.proc.forked w.options b
            db := db
            log := w.log ++ [.published (networkFork b lastIrreversible w.proc.head)] } := by
  have hroll : rollbackDb b { w with proc := w.proc.cleared } = match w.db.rollback b with
      | none => .error .hang { w with proc := w.proc.cleared, db := w.db.undoAll }
      | some db =>
        if db.revision = 0 then
          .error (.exception "Cannot rollback, no undo stack at revision 0")
            { w with proc := w.proc.cleared, db := db }
        else .ok () { w with proc := w.proc.cleared, db := db } := by
    rw [rollbackDb, bind_run (get_run _)]
    dsimp only
    cases w.db.rollback b with
    | none => rfl
    | some db => by_cases hz : db.revision = 0 <;> simp only [hz, if_true, if_false] <;> rfl
  change EStateM.bind (rollbackDb b) _ { w with proc := w.proc.cleared } = _
  rw [EStateM.bind, hroll]
  cases w.db.rollback b with
  | none => rfl
  | some db =>
      simp only
      split_ifs <;> rfl

/-! ## The ways in which it ends -/

/-- The checks that a block above the irreversible one passes before its place is looked
at. -/
structure Open (block : BlockPosition) (result : GetBlocksResult) (w : World Abi)
    (db : Undo Tables) : Prop where
  irreversible : w.proc.irreversible ≤ result.lastIrreversible.blockNum
  raised : raisedDb block.blockNum w.db = some db
  above : result.lastIrreversible.blockNum < block.blockNum

/-- Whether a block above the head has to follow it, and does not. -/
def Detached (result : GetBlocksResult) (w : World Abi) : Prop :=
  0 < w.proc.head ∧ w.options.startBlockNum < w.proc.head ∧ ¬ extendsHead w.proc result

/-- How the check of a position ends. -/
inductive Accept (block : BlockPosition) (result : GetBlocksResult) (w : World Abi) :
    EStateM.Result Abort (World Abi) Unit → Prop
  /-- Refused before anything was done: the irreversible block goes down, or the revision
  cannot be raised to the block below. -/
  | unmoved {what : String}
      (hwhy : w.proc.irreversible ≤ result.lastIrreversible.blockNum →
        raisedDb block.blockNum w.db = none) :
    Accept block result w (.error (.exception what) w)
  /-- Refused with the revision moved: the block does not follow the head. -/
  | refused {what : String} {db : Undo Tables} (hopen : Open block result w db)
      (habove : w.proc.head < block.blockNum) (hd : Detached result w) :
    Accept block result w (.error (.exception what) { w with db := db })
  /-- There is no state to roll back to: the loop does not end. -/
  | endless {db : Undo Tables} (hopen : Open block result w db)
      (hhead : block.blockNum ≤ w.proc.head) (hroll : db.rollback block.blockNum = none) :
    Accept block result w (.error .hang { w with proc := w.proc.cleared, db := db.undoAll })
  /-- The rollback ends at revision zero. -/
  | bottom {what : String} {db db' : Undo Tables} (hopen : Open block result w db)
      (hhead : block.blockNum ≤ w.proc.head) (hroll : db.rollback block.blockNum = some db')
      (hzero : db'.revision = 0) :
    Accept block result w
      (.error (.exception what) { w with proc := w.proc.cleared, db := db' })
  /-- A fork: the revisions from the block on were undone. -/
  | forked {db db' : Undo Tables} (hopen : Open block result w db)
      (hhead : block.blockNum ≤ w.proc.head) (hroll : db.rollback block.blockNum = some db')
      (hzero : db'.revision ≠ 0) :
    Accept block result w (.ok ()
      { w with
        proc := (w.proc.forked w.options block.blockNum).moved block result
        db := db'
        log := w.log ++ [.published
          (networkFork block.blockNum result.lastIrreversible.blockNum w.proc.head)] })
  /-- The block is above the head and follows it, as far as that is checked. -/
  | extended {db : Undo Tables} (hopen : Open block result w db)
      (habove : w.proc.head < block.blockNum) (hd : ¬ Detached result w) :
    Accept block result w (.ok () { w with proc := w.proc.moved block result, db := db })
  /-- A block that is irreversible by its own result is not checked at all. -/
  | unchecked {db : Undo Tables}
      (hirr : w.proc.irreversible ≤ result.lastIrreversible.blockNum)
      (hraised : raisedDb block.blockNum w.db = some db)
      (hbelow : block.blockNum ≤ result.lastIrreversible.blockNum) :
    Accept block result w (.ok () { w with proc := w.proc.moved block result, db := db })

/-- The part of the check after the revision was raised. -/
theorem checkPosition_run {b : Nat} {result : GetBlocksResult} {w : World Abi} {db : Undo Tables}
    (hraised : raisedDb b w.db = some db)
    (hirr : w.proc.irreversible ≤ result.lastIrreversible.blockNum) :
    checkPosition b result w =
      (if result.lastIrreversible.blockNum < b then
        if b ≤ w.proc.head then handleFork b result.lastIrreversible.blockNum
        else if 0 < w.proc.head ∧ w.options.startBlockNum < w.proc.head ∧
            ¬ extendsHead w.proc result then
          throw (.exception "prev_block does not match")
        else pure ()
      else pure () : Receiver Abi Unit) { w with db := db } := by
  change EStateM.bind (raiseRevision b) _ w = _
  rw [EStateM.bind, raiseRevision_run, hraised]
  change (if result.lastIrreversible.blockNum < b then _ else _ : Receiver Abi Unit) _ = _
  by_cases habove : result.lastIrreversible.blockNum < b
  · rw [if_pos habove, if_pos habove]
    change (if b < w.proc.irreversible then _ else _ : Receiver Abi Unit) _ = _
    rw [if_neg (by omega)]
  · rw [if_neg habove, if_neg habove]

theorem acceptPosition_cases (block : BlockPosition) (result : GetBlocksResult) {w : World Abi}
    (hscan : w.options.interactiveMode = false) :
    Accept block result w (acceptPosition block result w) := by
  by_cases hirr : w.proc.irreversible ≤ result.lastIrreversible.blockNum
  swap
  · have hrun : acceptPosition block result w = .error (.exception
        "Irreversible block in state history is lower than the one last seen") w := by
      change (if result.lastIrreversible.blockNum < w.proc.irreversible then
        (throw _ >>= _ : Receiver Abi Unit) else _) w = _
      rw [if_pos (not_le.mp hirr)]
      rfl
    rw [hrun]
    exact .unmoved fun h ↦ absurd h hirr
  have hrun : acceptPosition block result w =
      (checkPosition block.blockNum result >>= fun _ ↦ moveHead block result) w := by
    change (if result.lastIrreversible.blockNum < w.proc.irreversible then
      (throw _ >>= _ : Receiver Abi Unit) else _) w = _
    rw [if_neg (not_lt.mpr hirr)]
    rw [hscan]
    rfl
  rw [hrun]
  cases hraised : raisedDb block.blockNum w.db with
  | none =>
      have hcheck : checkPosition block.blockNum result w = .error (.exception
          "cannot set revision while there is an existing undo stack") w := by
        change EStateM.bind (raiseRevision block.blockNum) _ w = _
        rw [EStateM.bind, raiseRevision_run, hraised]
      change Accept block result w (EStateM.bind _ _ w)
      rw [EStateM.bind, hcheck]
      exact .unmoved fun _ ↦ hraised
  | some db =>
      change Accept block result w (EStateM.bind _ _ w)
      rw [EStateM.bind, checkPosition_run hraised hirr]
      split_ifs with habove hhead hd
      · have hopen : Open block result w db := ⟨hirr, hraised, habove⟩
        rw [handleFork_run]
        cases hroll : db.rollback block.blockNum with
        | none => exact .endless hopen hhead hroll
        | some db' =>
            simp only
            split_ifs with hzero
            · exact .bottom hopen hhead hroll hzero
            · exact .forked hopen hhead hroll hzero
      · exact .refused ⟨hirr, hraised, habove⟩ (not_le.mp hhead) hd
      · exact .extended ⟨hirr, hraised, habove⟩ (not_le.mp hhead) hd
      · exact .unchecked hirr hraised (not_lt.mp habove)

end Chronicle
