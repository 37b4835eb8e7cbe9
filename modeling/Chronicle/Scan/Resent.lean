import Chronicle.Scan.Sound

/-!
# Blocks that are sent again

A block that is not above the head replaces what is in the database from its number on, if
it is above the irreversible block of its own result.  Otherwise `receive_result` checks
nothing: it keeps the revisions it should undo, announces no fork, and leaves the revision
off the head (`resent_irreversible_unchecked`).
-/

namespace Chronicle

open Store Effect

variable {Abi : Type} (lib : Abieos Abi)

/-- The tables after the block below `b`, as far as the database goes back: those of the
last block that was processed, or empty tables if there was none. -/
inductive StateBelow (w : World Abi) (b : Nat) : Tables → Prop
  | initial (h : ∀ r t, r < b → w.db.at? r = some t → t = ∅) : StateBelow w b ∅
  | block {t : Tables} {s : StateObject} (hat : w.db.at? (b - 1) = some t)
      (hs : t.state = some s) (hrec : afterBlock w.log s.head = some t) (hle : s.head ≤ b - 1)
      (hlast : w.db.base < b - 1 → s.head = b - 1) : StateBelow w b t

/-- A block has replaced everything from its own number on. -/
structure Replaced (block : BlockPosition) (result : GetBlocksResult) (w w' : World Abi) :
    Prop where
  /-- The database was rolled back before the block was applied. -/
  rolledBack : ∃ t, StateBelow w block.blockNum t ∧
    w'.db.current = blockEffect lib block result t
  /-- The fork was announced before anything else. -/
  announced : ∃ l, w'.log = w.log ++ .published
    (networkFork block.blockNum result.lastIrreversible.blockNum w.proc.head) :: l
  revision : w'.db.revision = block.blockNum
  persisted : w'.db.current.state.map StateObject.head = some block.blockNum

section Steps

variable {block : BlockPosition} {result : GetBlocksResult} {w w₁ w' : World Abi}

/-- The state that a fork is rolled back to. -/
theorem Sound.stateBelow (h : Sound w) (hrun : Running w) {db db' : Undo Tables}
    (hraised : raisedDb block.blockNum w.db = some db) (hhead : block.blockNum ≤ w.proc.head)
    (hpos : 0 < block.blockNum) (hroll : db.rollback block.blockNum = some db') :
    StateBelow w block.blockNum db'.current := by
  obtain ⟨hbase, hrev, hlt, hat⟩ := Undo.rollback_spec hroll
  have hpred := pred_le_raisedDb hraised
  rw [Uint32.pred_of_pos hpos] at hpred
  have hrev' : db'.revision = block.blockNum - 1 := by omega
  cases hs : w.db.current.state with
  | none =>
      have hnil := (h.fresh hrun hs).1
      have hcur : w.db.current = ∅ := (h.db.settled _ _ w.db.at?_revision).empty hs
      have hdb : ∀ r t, w.db.at? r = some t → t = ∅ := fun r t ht ↦
        (Undo.at?_of_stack_nil hnil ht).2.trans hcur
      have hcur' : db'.current = ∅ := by
        have hat' := Undo.rollback_current hroll
        rcases raisedDb_eq_some hraised with ⟨-, rfl⟩ | ⟨-, -, rfl⟩
        · exact hdb _ _ hat'
        · exact (Undo.at?_mk_nil hat').2.trans hcur
      rw [hcur']
      exact .initial fun r t _ ht ↦ hdb r t ht
  | some s =>
      have hwrev : w.db.revision = w.proc.head := h.revision hrun (by simp [hs])
      obtain rfl : db = w.db := by
        rcases raisedDb_eq_some hraised with ⟨-, h⟩ | ⟨hlt, -, -⟩
        · exact h
        · rw [Uint32.pred_of_pos hpos] at hlt
          omega
      have hat' : w.db.at? (block.blockNum - 1) = some db'.current :=
        hrev' ▸ Undo.rollback_current hroll
      cases hs' : db'.current.state with
      | none =>
          have hempty := (h.db.settled _ _ hat').empty hs'
          have hbot : block.blockNum - 1 = w.db.base := by
            by_contra hne
            have hle := Undo.base_le_of_at? hat'
            exact h.db.stated _ _ hat' (by omega) hs'
          rw [hempty] at hat' ⊢
          refine .initial fun r t hr ht ↦ ?_
          obtain rfl : r = block.blockNum - 1 := by
            have hle := Undo.base_le_of_at? ht
            omega
          exact Option.some.inj (ht.symm.trans hat')
      | some s' =>
          exact .block hat' hs' (h.db.recorded _ _ hat' s' hs')
            ((h.db.settled _ _ hat').dated s' hs').1 fun hb ↦ h.db.aligned _ _ hat' hb s' hs'

variable {lib} in
/-- A completed block is what the database holds on top of what it held before. -/
theorem ProcessBlock.completed_db (h : ProcessBlock lib block result w (.ok () w')) :
    w'.db.current = blockEffect lib block result w.db.current ∧ w.log <+: w'.log := by
  cases h with
  | completed _ _ _ hstored hw =>
      obtain ⟨l, -, hl⟩ := hstored.log
      obtain ⟨l', hl', -⟩ := hw.1.log
      refine ⟨?_, ?_⟩
      · rw [hw.2, hstored.db]
        rfl
      · simp only [hl', hl, List.append_assoc]
        exact List.prefix_append ..

variable {lib} in
/-- Nothing of a block is a fork. -/
theorem ProcessBlock.no_fork (h : ProcessBlock lib block result w (.ok () w')) {e : ForkEvent}
    {l : List (Observation Abi)} (hl : w'.log = w.log ++ .published (.fork e) :: l) : False := by
  cases h with
  | completed _ _ _ hstored hw =>
      obtain ⟨l₁, hin, hl₁⟩ := hstored.log
      obtain ⟨l₂, hl₂, -⟩ := hw.1.log
      simp only [hl₂, hl₁, List.append_assoc, List.append_cancel_left_eq] at hl
      cases l₁ with
      | nil => cases hl
      | cons o l₁ =>
          obtain rfl : o = .published (.fork e) := (List.cons.inj hl).1
          exact hin _ List.mem_cons_self

end Steps

/-- In a run where a block that is not above the head is always above the irreversible
block of its own result, and where no process starts on a database that is off its head:
a further block that is not above the head, and accepted, replaces what is there from its
number on exactly if it is above its irreversible block, too; and unless it is the first to
be neither, the revision is the head after every accepted block. -/
theorem resent_block_replaces (inputs : List Input)
    (hrun : Run.Guarded (exec lib)
      (fun w i ↦ ScanInput i ∧ ResentAbove w i ∧ StartsAligned w i) newWorld inputs)
    {w w' : World Abi} (hw : w = run lib newWorld inputs)
    (hread : w.proc.continuation = .reading) {result : GetBlocksResult} {block : BlockPosition}
    (hblock : result.thisBlock = some block) {goOn : Bool}
    (hok : receiveResult lib (.ok result) w = .ok goOn w') :
    (block.blockNum ≤ w.proc.head → (Replaced lib block result w w' ↔
        result.lastIrreversible.blockNum < block.blockNum)) ∧
      ((block.blockNum ≤ w.proc.head → result.lastIrreversible.blockNum < block.blockNum) →
        w'.db.revision = w'.proc.head) := by
  have hinv : Scanning w ∧ Sound w := by
    rw [hw]
    refine hrun.invariant (I := fun w ↦ Scanning w ∧ Sound w) ?_
      ⟨scanning_newWorld, sound_newWorld⟩
    exact fun w i h hi ↦ ⟨h.1.exec lib hi.1, h.2.exec lib h.1 hi.1 hi.2.1 hi.2.2⟩
  obtain ⟨hscan, hsound⟩ := hinv
  have hreader := running_of_reading hread
  have hcases := receiveResult_cases lib hscan.mode hscan.cached hblock
  rw [hok] at hcases
  cases hcases with
  | @completed w₁ _ haccept hprocess =>
      have hcounted : Sound w.counted :=
        ⟨hsound.db, hsound.position, hsound.fresh, hsound.revision⟩
      have hframe := haccept.frame hscan.cached
      have hhead : w'.proc.head = block.blockNum :=
        (Proc.member_eq (hprocess.frame hframe.2.2.1).2.1 Proc.head fun _ ↦ rfl).trans
          (congrArg StateObject.head hframe.2.2.2)
      have hsound' : (block.blockNum ≤ w.proc.head →
          result.lastIrreversible.blockNum < block.blockNum) → _ := fun habove ↦
        (hprocess.sound_ok (haccept.soundlyPlaced hcounted hreader habove) hframe.2.2.2).2
      refine ⟨fun hle ↦ ⟨fun hrep ↦ ?_, fun hlt ↦ ?_⟩, fun habove ↦
        (hsound' habove).1.trans hhead.symm⟩
      · by_contra hnot
        cases haccept with
        | forked hopen => exact hnot hopen.above
        | extended hopen => exact hnot hopen.above
        | unchecked =>
            obtain ⟨l, hl⟩ := hrep.announced
            exact hprocess.no_fork hl
      · obtain ⟨hrev, hstate⟩ := hsound' fun _ ↦ hlt
        obtain ⟨hcur, l, hl⟩ := hprocess.completed_db
        rw [eq_comm] at hl
        cases haccept with
        | forked hopen _ hroll _ =>
            refine ⟨⟨_, ?_, hcur⟩, ⟨l, ?_⟩, hrev, by rw [hstate]; rfl⟩
            · exact hsound.stateBelow hreader hopen.raised hle (by omega) hroll
            · simp only [hl, List.append_assoc]
              rfl
        | extended _ hgt _ => exact absurd hle (not_le.mpr hgt)
        | unchecked _ _ hbelow => exact absurd hlt (not_lt.mpr hbelow)

/-- Two blocks of a new database. -/
def twoBlocks : List Input :=
  [.start {}, .ready 0, .result (bareResult ⟨1, 1⟩ 0 0), .result (bareResult ⟨2, 2⟩ 1 0)]

set_option maxRecDepth 10000 in
/-- The second block is replaced while it is still reversible. -/
theorem resent_second_replaces :
    ∃ w', receiveResult .lenient (.ok (bareResult ⟨2, 7⟩ 1 1)) (run .lenient newWorld twoBlocks) =
        .ok true w' ∧
      Replaced .lenient ⟨2, 7⟩ (bareResult ⟨2, 7⟩ 1 1) (run .lenient newWorld twoBlocks) w' ∧
      w'.db.revision = w'.proc.head := by
  have hblock : (bareResult ⟨2, 7⟩ 1 1).thisBlock = some ⟨2, 7⟩ := rfl
  have h := resent_block_replaces .lenient twoBlocks (by decide) rfl (by decide) hblock rfl
  exact ⟨_, rfl, (h.1 (by decide)).mpr (by decide), h.2 (by decide)⟩

set_option maxRecDepth 10000 in
/-- On a node that has seen the second block become irreversible, the block does not replace
anything: it becomes a third revision, and no fork is announced. -/
theorem resent_irreversible_unchecked :
    ∃ (result : GetBlocksResult) (block : BlockPosition) (w w' : World Unit) (goOn : Bool),
      w = run .lenient newWorld twoBlocks ∧ w.proc.continuation = .reading ∧
      result.thisBlock = some block ∧ block.blockNum ≤ w.proc.head ∧
      receiveResult .lenient (.ok result) w = .ok goOn w' ∧
      ¬ Replaced .lenient block result w w' ∧ w'.db.revision ≠ w'.proc.head := by
  refine ⟨bareResult ⟨2, 7⟩ 1 2, ⟨2, 7⟩, _, _, true, rfl, by decide, rfl, by decide, rfl, ?_, ?_⟩
  · exact fun h ↦ absurd h.revision (by decide)
  · decide

end Chronicle
