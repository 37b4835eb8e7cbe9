import Chronicle.Store.Moves
import Chronicle.Scan.ReceivedBlocks
import Chronicle.Interactive.BlockAbis
import Chronicle.Snapshot.RoundTrip

/-!
# What is committed is final

A revision extends another one if its head is not below and it says the same about the
blocks up to the head of the other (`Tables.Extends`).  Every input moves the database along
this relation (`Ordered.exec_moves`), so the revisions of a database are in order, and what
is committed once is never changed: not by forks, restarts, crashes or later blocks
(`committed_final`).
-/

namespace Chronicle

open Store Effect

variable {Abi : Type} (lib : Abieos Abi)

/-! ## Tables that say the same about old blocks -/

namespace Tables

/-- The second tables are ahead of the first, and say the same about the blocks up to the
head of the first; of the ids of those blocks some may have been dropped. -/
structure ExtendsAt (t t' : Tables) (s : StateObject) : Prop where
  ahead : ∃ s', t'.state = some s' ∧ s.head ≤ s'.head
  history : ∀ account k, k ≤ s.head →
    t'.contractAbiHistory.find? (toLex (account, k)) =
      t.contractAbiHistory.find? (toLex (account, k))
  received : ∀ k ≤ s.head, ∀ id, t'.receivedBlocks.find? k = some id →
    t.receivedBlocks.find? k = some id

/-- Tables without a state object are extended by any others. -/
def Extends (t t' : Tables) : Prop := ∀ s, t.state = some s → ExtendsAt t t' s

instance : Std.Refl Extends where
  refl _ s hs := ⟨⟨s, hs, le_rfl⟩, fun _ _ _ ↦ rfl, fun _ _ _ h ↦ h⟩

instance : IsTrans Tables Extends where
  trans t t' t'' h h' s hs := by
    obtain ⟨⟨s', hs', hle⟩, hhist, hrec⟩ := h s hs
    obtain ⟨⟨s'', hs'', hle'⟩, hhist', hrec'⟩ := h' s' hs'
    refine ⟨⟨s'', hs'', hle.trans hle'⟩, fun a k hk ↦ ?_, fun k hk id hid ↦ ?_⟩
    · rw [hhist' a k (hk.trans hle), hhist a k hk]
    · exact hrec k hk id (hrec' k (hk.trans hle) id hid)

variable {t t' : Tables} {s : StateObject}

/-- The same ABIs are in force at the old blocks. -/
theorem ExtendsAt.revisionAt (h : t.ExtendsAt t' s) {account n : Nat} (hn : n ≤ s.head)
    (data : Bytes) :
    RevisionAt t'.contractAbiHistory account n data ↔
      RevisionAt t.contractAbiHistory account n data := by
  refine exists_congr fun k ↦ and_congr_right fun hk ↦ ?_
  rw [h.history account k (hk.trans hn)]
  refine and_congr_right fun _ ↦ forall_congr' fun k' ↦ imp_congr_right fun _ ↦
    imp_congr_right fun hk' ↦ ?_
  rw [h.history account k' (hk'.trans hn)]

/-- Where there is an ABI in force, the lookup finds it. -/
theorem abiAt_of_revisionAt {account n : Nat} {data : Bytes}
    (h : RevisionAt t.contractAbiHistory account n data) :
    t.abiAt lib account n = lib.convert data := by
  obtain ⟨row, hrow, -, rfl⟩ := h.lowerBoundRev
  rw [abiAt, hrow]
  rfl

/-! ## A block -/

theorem find?_writeHistory_of_ne {h k : Nat} (hk : k ≠ h) (a account : Name) (data : Bytes)
    (t : Tables) :
    (t.writeHistory h a data).contractAbiHistory.find? (toLex (account, k)) =
      t.contractAbiHistory.find? (toLex (account, k)) :=
  Table.find?_insert_of_ne _ _ fun heq ↦ hk (Prod.mk.inj (toLex_inj.mp heq)).2

/-- Setting an ABI writes no row of another block. -/
theorem find?_setAbi_of_ne {h k : Nat} (hk : k ≠ h) (acc : AccountV0) (account : Name)
    (t : Tables) :
    (t.setAbi lib h acc).contractAbiHistory.find? (toLex (account, k)) =
      t.contractAbiHistory.find? (toLex (account, k)) := by
  rw [setAbi]
  split_ifs
  · rw [clearAbi]
    split_ifs
    · exact find?_writeHistory_of_ne hk ..
    · rfl
  · rw [saveAbi, find?_writeHistory_of_ne hk]
    split_ifs <;> rfl

theorem find?_setAbis_of_ne {h k : Nat} (hk : k ≠ h) (accounts : List AccountV0) (account : Name)
    (t : Tables) :
    (t.setAbis lib h accounts).contractAbiHistory.find? (toLex (account, k)) =
      t.contractAbiHistory.find? (toLex (account, k)) := by
  induction accounts generalizing t with
  | nil => rfl
  | cons acc accounts ih => rw [setAbis_cons, ih, find?_setAbi_of_ne lib hk]

/-- A block extends tables whose head is below it. -/
theorem extends_blockEffect {block : BlockPosition} {result : GetBlocksResult}
    (hbelow : ∀ s, t.state = some s → s.head < block.blockNum) :
    t.Extends (blockEffect lib block result t) := by
  intro s hs
  have hlt := hbelow s hs
  refine ⟨⟨stateOf block result, rfl, hlt.le⟩, fun a k hk ↦ ?_, fun k hk id hid ↦ ?_⟩
  · refine (find?_setAbis_of_ne lib (by omega) result.accounts a _).trans ?_
    rw [(addReceived_frame block _ t).2]
  · have hrec := (setAbis_frame lib block.blockNum result.accounts
      (t.addReceived block result.lastIrreversible.blockNum)).2
    change (setAbis lib _ _ _).receivedBlocks.find? k = some id at hid
    rw [hrec, find?_addReceived] at hid
    split_ifs at hid with _ _ heq
    · omega
    · exact hid
    · exact hid

end Tables

/-! ## One input -/

section Steps

variable {block : BlockPosition} {result : GetBlocksResult} {w w₁ w' : World Abi}

theorem moves_raisedDb {b : Nat} {db db' : Undo Tables} (h : raisedDb b db = some db') :
    db.Moves Tables.Extends db' := by
  rw [raisedDb] at h
  split_ifs at h
  · exact Undo.Moves.refl.setRevision h
  · exact Option.some.inj h ▸ .refl

/-- The check of a position moves the database. -/
theorem Accept.moves {r : EStateM.Result Abort (World Abi) Unit} (h : Accept block result w r) :
    Ends (fun _ w' ↦ w.db.Moves Tables.Extends w'.db)
      (fun _ w' ↦ w.db.Moves Tables.Extends w'.db) r := by
  cases h with
  | unmoved => exact .refl
  | refused hopen _ _ => exact moves_raisedDb hopen.raised
  | endless hopen _ _ => exact (moves_raisedDb hopen.raised).undoAll
  | bottom hopen _ hroll _ => exact (moves_raisedDb hopen.raised).rollback hroll
  | forked hopen _ hroll _ => exact (moves_raisedDb hopen.raised).rollback hroll
  | extended hopen _ _ => exact moves_raisedDb hopen.raised
  | unchecked _ hraised _ => exact moves_raisedDb hraised

variable {lib} in
/-- Storing a block above the head moves the database. -/
theorem Placed.moves (h : Placed block w) (hs : Stored lib block result w w') :
    w.db.Moves Tables.Extends w'.db := by
  rw [hs.db]
  exact (Undo.Moves.refl.session (Tables.extends_blockEffect lib h.below)).commit _

variable {lib} in
theorem ProcessBlock.moves {r : EStateM.Result Abort (World Abi) Unit} (hplaced : Placed block w)
    (h : ProcessBlock lib block result w r) :
    Ends (fun _ w' ↦ w.db.Moves Tables.Extends w'.db)
      (fun _ w' ↦ w.db.Moves Tables.Extends w'.db) r := by
  cases h with
  | unreadable => exact .refl
  | failed _ _ hw =>
      change w.db.Moves _ _
      exact hw.2 ▸ .refl
  | untraced _ _ _ hstored hw =>
      change w.db.Moves _ _
      exact hw.2 ▸ hplaced.moves hstored
  | completed _ _ _ hstored hw =>
      have hmoves := hplaced.moves hstored
      rw [← hw.2] at hmoves
      exact hmoves

theorem Next.moves (h : Next w w') : w.db.Moves Tables.Extends w'.db := by
  cases h with
  | idle hidle => exact hidle.db ▸ .refl
  | ended hend => exact hend.db ▸ Undo.Moves.refl.commit _

end Steps

/-- Every input moves the database along the extension of tables. -/
theorem Ordered.exec_moves {w : World Abi} {i : Input} (hscan : Scanning w) (h : Ordered w)
    (hi : ScanInput i) (hre : ResentAbove w i) :
    w.db.Moves Tables.Extends (Chronicle.exec lib w i).db := by
  cases hscan.exec_cases lib hi with
  | idle hidle => exact hidle.db ▸ .refl
  | acked _ hw => exact hw ▸ .refl
  | decoded hw => exact hw ▸ .refl
  | ended hidle hend => exact hend.db ▸ hidle.db ▸ Undo.Moves.refl.commit _
  | started hs =>
      cases hs with
      | loaded hl => exact hl.db ▸ Undo.Moves.refl.undoAll
      | rejected hr => exact hr.db ▸ Undo.Moves.refl.undoAll
  | received hblock hread hr =>
      have hre' := hre _ (delivered_receive _ hblock hread)
      cases hr with
      | refused haccept hstop => exact hstop.1.db ▸ haccept.moves
      | broken haccept hprocess hstop =>
          obtain ⟨hplaced, -, -⟩ := Accept.placed_counted hscan h hread hre' haccept
          exact hstop.1.db ▸ Undo.Moves.trans haccept.moves (hprocess.moves hplaced)
      | completed haccept hprocess hidle hnext =>
          obtain ⟨hplaced, -, -⟩ := Accept.placed_counted hscan h hread hre' haccept
          have hblock := Undo.Moves.trans haccept.moves (hprocess.moves hplaced)
          exact hblock.trans (hidle.db ▸ hnext.moves)

/-! ## Runs -/

/-- What is known of a database whose revisions are in order. -/
structure Layered (w : World Abi) : Prop where
  scanning : Scanning w
  ordered : Ordered w
  ascending : w.db.Ascending Tables.Extends

/-- A guarded input keeps the revisions in order. -/
theorem Layered.exec {w : World Abi} {i : Input} (h : Layered w)
    (hi : ScanInput i ∧ ResentAbove w i) : Layered (Chronicle.exec lib w i) :=
  ⟨h.scanning.exec lib hi.1, h.ordered.exec lib h.scanning hi.1 hi.2,
    (h.ordered.exec_moves lib h.scanning hi.1 hi.2).ascending h.ascending⟩

theorem layered_newWorld : Layered (newWorld : World Abi) :=
  ⟨scanning_newWorld, ordered_newWorld, Undo.ascending_mk_nil 0 ∅⟩

/-- **Once a block is committed, no input of any later run changes what the database says about
the blocks up to it: no revision goes back below it, the ABIs in force at those blocks stay the
same, and so do the ids that are still kept.  So a process in interactive mode decodes these
blocks with the same ABIs ever after.** -/
theorem committed_final {before after : List Input} {w : World Abi}
    (hbefore : Run.Guarded (exec lib) (fun w i ↦ ScanInput i ∧ ResentAbove w i) newWorld before)
    (hw : w = run lib newWorld before)
    (hafter : Run.Guarded (exec lib) (fun w i ↦ ScanInput i ∧ ResentAbove w i) w after)
    {entry : StateObject} (hs : w.db.undoAll.current.state = some entry) {r : Nat} {t : Tables}
    (ht : (run lib w after).db.at? r = some t) :
    (∃ s, t.state = some s ∧ entry.head ≤ s.head) ∧
    (∀ account n data, n ≤ entry.head →
      (RevisionAt t.contractAbiHistory account n data ↔
        RevisionAt w.db.current.contractAbiHistory account n data)) ∧
    (∀ account n data, n ≤ entry.head →
      RevisionAt w.db.current.contractAbiHistory account n data →
      t.abiAt lib account n = w.db.current.abiAt lib account n) ∧
    ∀ k ≤ entry.head, ∀ id, t.receivedBlocks.find? k = some id →
      w.db.undoAll.current.receivedBlocks.find? k = some id := by
  have hlayer : Layered w := hw ▸ hbefore.invariant (I := Layered) (fun _ _ ↦ Layered.exec lib)
    layered_newWorld
  have hlater : Layered (run lib w after) ∧
      (run lib w after).db.Above Tables.Extends w.db.undoAll.current :=
    hafter.invariant (I := fun w' ↦ Layered w' ∧
        w'.db.Above Tables.Extends w.db.undoAll.current)
      (fun _ _ h hi ↦ ⟨h.1.exec lib hi,
        (h.1.ordered.exec_moves lib h.1.scanning hi.1 hi.2).above h.2⟩)
      ⟨hlayer, hlayer.ascending.above⟩
  have hlast := hlater.2 r t ht entry hs
  have hnow := hlayer.ascending.above _ _ w.db.at?_revision entry hs
  have hsame : ∀ account n data, n ≤ entry.head →
      (RevisionAt t.contractAbiHistory account n data ↔
        RevisionAt w.db.current.contractAbiHistory account n data) := fun account n data hn ↦
    (hlast.revisionAt hn data).trans (hnow.revisionAt hn data).symm
  refine ⟨hlast.ahead, hsame, fun account n data hn hrev ↦ ?_, hlast.received⟩
  rw [Tables.abiAt_of_revisionAt lib hrev,
    Tables.abiAt_of_revisionAt lib ((hsame account n data hn).mpr hrev)]

/-- An ABI was replaced, and the blocks up to the second are committed. -/
def beforeFork : List Input :=
  committedAbis [1, 7] [1, 8] ++ [.result (abiResult ⟨3, 3⟩ 2 2 [⟨5, [1, 9]⟩])]

/-- The third block is replaced, by one that removes the ABI, and a process starts. -/
def afterFork : List Input :=
  [.result (abiResult ⟨3, 4⟩ 2 2 [⟨5, []⟩]), .start {}, .ready 0]

set_option maxRecDepth 10000 in
theorem committed_final_fork :
    (run .tagged (run .tagged newWorld beforeFork) afterFork).db.current.abiAt .tagged 5 2 =
      some [1, 8] := by
  have hbefore : Run.Guarded (exec .tagged) (fun w i ↦ ScanInput i ∧ ResentAbove w i) newWorld
      beforeFork := by decide +kernel
  have hafter : Run.Guarded (exec .tagged) (fun w i ↦ ScanInput i ∧ ResentAbove w i)
      (run .tagged newWorld beforeFork) afterFork := by decide +kernel
  have hs : (run .tagged newWorld beforeFork).db.undoAll.current.state =
      some ⟨2, 2, 2, 0⟩ := by decide +kernel
  have hrev : RevisionAt (run .tagged newWorld beforeFork).db.current.contractAbiHistory 5 2
      [1, 8] := ⟨2, le_rfl, by decide +kernel, fun k hlt hle ↦ by omega⟩
  rw [(committed_final .tagged hbefore rfl hafter hs (Undo.at?_revision _)).2.2.1 5 2 _ le_rfl
    hrev, Tables.abiAt_of_revisionAt .tagged hrev]
  rfl

end Chronicle
