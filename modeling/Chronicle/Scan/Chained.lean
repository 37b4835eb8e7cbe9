import Chronicle.Scan.Resent

/-!
# Which blocks are checked against the block below

`receive_result` compares the previous block of a result with the head only when the block
is above the head, and the head above the start block.  A block that forks off, and the first
one after the start block, are taken as they come, even though the receiver holds the block
below them (`forked_off_unchained`).
-/

namespace Chronicle

open Store Effect

variable {Abi : Type} (lib : Abieos Abi)

/-- The database retains block `n` under the given id. -/
def RetainedAs (db : Undo Tables) (n : Nat) (id : Checksum256) : Prop :=
  ∃ r t s, db.at? r = some t ∧ t.state = some s ∧ s.head = n ∧ s.headId = id

/-- The result is linked to the block below it, if that is retained. -/
def Chained (db : Undo Tables) (block : BlockPosition) (result : GetBlocksResult) : Prop :=
  ∀ id, RetainedAs db (block.blockNum - 1) id →
    result.prevBlock.map BlockPosition.blockId = some id

/-- A result with block `b` above its own irreversible block is only accepted if it is linked
to the block below it. -/
def ChecksChain (w : World Abi) (b : Nat) : Prop :=
  ∀ (result : GetBlocksResult) (block : BlockPosition) (goOn : Bool) (w' : World Abi),
    result.thisBlock = some block → block.blockNum = b →
    result.lastIrreversible.blockNum < b → receiveResult lib (.ok result) w = .ok goOn w' →
    Chained w.db block result

section Steps

variable {block : BlockPosition} {result : GetBlocksResult} {w w₁ : World Abi}

/-- The block that is retained as the head is the head. -/
theorem Sound.retained_head (h : Sound w) (hrun : Running w) {id : Checksum256}
    (hret : RetainedAs w.db w.proc.head id) : id = w.proc.headId := by
  obtain ⟨r, t, s, hat, hs, hhead, rfl⟩ := hret
  have hle := Undo.le_revision_of_at? hat
  have hsr := ((h.db.settled r t hat).dated s hs).1
  have hstate : w.db.current.state ≠ none := by
    intro hnone
    obtain ⟨hnil, -⟩ := h.fresh hrun hnone
    rw [(Undo.at?_of_stack_nil hnil hat).2, hnone] at hs
    cases hs
  have hrev := h.revision hrun hstate
  obtain rfl : r = w.db.revision := by omega
  rw [Undo.at?_revision] at hat
  rw [← Option.some.inj hat] at hs
  exact congrArg StateObject.headId (h.position hrun s hs)

/-- What is retained is not above the head. -/
theorem Sound.retained_le (h : Sound w) (hrun : Running w) {n : Nat} {id : Checksum256}
    (hret : RetainedAs w.db n id) : n ≤ w.proc.head := by
  obtain ⟨r, t, s, hat, hs, rfl, -⟩ := hret
  exact ((h.db.settled r t hat).dated s hs).1.trans
    ((Undo.le_revision_of_at? hat).trans (h.revision_le hrun))

/-- An accepted block above the irreversible one is above the last one that was seen, and
above the revision that a rollback ends at. -/
theorem Accept.above (haccept : Accept block result w (.ok () w₁))
    (habove : result.lastIrreversible.blockNum < block.blockNum) :
    w.proc.irreversible < block.blockNum ∧
      (block.blockNum ≤ w.proc.head → 1 < block.blockNum ∧
        ∃ db, raisedDb block.blockNum w.db = some db ∧ db.base < block.blockNum) := by
  cases haccept with
  | forked hopen _ hroll hzero =>
      obtain ⟨-, hrev, hlt, -⟩ := Undo.rollback_spec hroll
      exact ⟨hopen.irreversible.trans_lt habove, fun _ ↦ ⟨by omega, _, hopen.raised, hlt⟩⟩
  | extended hopen hhead _ =>
      exact ⟨hopen.irreversible.trans_lt habove, fun hle ↦ absurd hle (not_le.mpr hhead)⟩
  | unchecked _ _ hbelow => exact absurd habove (not_lt.mpr hbelow)

/-- A block above the head is linked, if the head is checked. -/
theorem Accept.chained (haccept : Accept block result w (.ok () w₁)) (h : Sound w)
    (hrun : Running w) (habove : result.lastIrreversible.blockNum < block.blockNum)
    (hone : 0 < w.proc.head) (hhead : w.proc.head < block.blockNum)
    (hstart : w.options.startBlockNum < w.proc.head) : Chained w.db block result := by
  intro id hret
  cases haccept with
  | forked _ hle => exact absurd hle (not_le.mpr hhead)
  | unchecked _ _ hbelow => exact absurd habove (not_lt.mpr hbelow)
  | extended _ _ hattached =>
      have hle := h.retained_le hrun hret
      have hnum : block.blockNum - 1 = w.proc.head := by omega
      rw [hnum] at hret
      rw [h.retained_head hrun hret]
      by_contra hnot
      exact hattached ⟨hone, hstart, hnot⟩

/-- If only blocks above a checked head can be accepted, they are linked. -/
theorem Accept.chained_of (haccept : Accept block result w (.ok () w₁)) (h : Sound w)
    (hrun : Running w) (hn : Numbered w.log)
    (habove : result.lastIrreversible.blockNum < block.blockNum)
    (hchecked : (∃ id, RetainedAs w.db (block.blockNum - 1) id) →
      w.proc.irreversible < block.blockNum → 1 < block.blockNum → w.db.base < block.blockNum →
      w.proc.head < block.blockNum ∧ w.options.startBlockNum < w.proc.head) :
    Chained w.db block result := by
  intro id hret
  obtain ⟨hirr, hfork⟩ := haccept.above habove
  have hle := h.retained_le hrun hret
  obtain ⟨r, t, s, hat, hs, hnum, hid⟩ := hret
  have hpos := (h.db.pos hn hat hs).1
  have hbase : w.db.base < block.blockNum := by
    rcases Nat.lt_or_ge w.proc.head block.blockNum with hlt | hge
    · have hbr := w.db.base_le_revision
      have hrev := h.revision_le hrun
      omega
    · obtain ⟨-, db, hraised, hlt⟩ := hfork hge
      have hsr := ((h.db.settled r t hat).dated s hs).1
      have hrr := Undo.le_revision_of_at? hat
      rcases raisedDb_eq_some hraised with ⟨-, rfl⟩ | ⟨hpred, -, -⟩
      · exact hlt
      · rw [Uint32.pred_of_pos (by omega)] at hpred
        omega
  obtain ⟨hhead, hstart⟩ := hchecked ⟨id, r, t, s, hat, hs, hnum, hid⟩ hirr (by omega) hbase
  exact haccept.chained h hrun habove (by omega) hhead hstart id ⟨r, t, s, hat, hs, hnum, hid⟩

/-- No revision has to be raised for a block on top of one that is retained. -/
theorem Sound.raised_of_retained (h : Sound w) {b : Nat} {id : Checksum256}
    (hret : RetainedAs w.db (b - 1) id) (hpos : 0 < b) : raisedDb b w.db = some w.db := by
  obtain ⟨r, t, s, hat, hs, hnum, -⟩ := hret
  have hle := ((h.db.settled r t hat).dated s hs).1.trans (Undo.le_revision_of_at? hat)
  rw [raisedDb, Uint32.pred_of_pos hpos, if_neg (by omega)]

variable {lib}

/-- A result without any parts is completed once its position is accepted. -/
theorem ProcessBlock.bare_ok {prevId : Checksum256} {irreversible : Nat} {e : Abort}
    {w' : World Abi} (hplaced : SoundlyPlaced block w)
    (h : ProcessBlock lib block (bareResult block prevId irreversible) w (.error e w')) :
    False := by
  have hread : (bareResult block prevId irreversible).ReadableBlock := fun _ hbin ↦ by cases hbin
  have hdeltas : (bareResult block prevId irreversible).ReadableDeltas w.options :=
    fun _ hbin ↦ by cases hbin
  have htraces : (bareResult block prevId irreversible).ReadableTraces w.options :=
    fun _ hbin ↦ by cases hbin
  have hfree := (hplaced.db.settled _ _ w.db.at?_revision).free hplaced.below irreversible
  cases h with
  | unreadable hbad => exact hbad hread
  | failed _ hbad _ => exact hbad ⟨hfree, hdeltas⟩
  | untraced _ _ hbad _ _ => exact hbad htraces

/-- Where nothing is checked, any block on top of a retained one has its position accepted. -/
theorem Sound.accept_unchecked {e : Abort} (h : Sound w) {id : Checksum256}
    (hret : RetainedAs w.db (block.blockNum - 1) id) (hone : 1 < block.blockNum)
    (hbase : w.db.base < block.blockNum)
    (hirr : w.proc.irreversible ≤ result.lastIrreversible.blockNum)
    (hskip : w.proc.head < block.blockNum → w.proc.head ≤ w.options.startBlockNum)
    (haccept : Accept block result w (.error e w₁)) : False := by
  have hraised := h.raised_of_retained hret (by omega)
  cases haccept with
  | unmoved hwhy => exact absurd (hraised.symm.trans (hwhy hirr)) nofun
  | refused _ habove hd => exact absurd (hskip habove) (not_le.mpr hd.2.1)
  | endless hopen _ hroll =>
      obtain rfl := Option.some.inj (hopen.raised.symm.trans hraised)
      have hsome := Undo.rollback_isSome hbase
      rw [hroll] at hsome
      cases hsome
  | bottom hopen _ hroll hzero =>
      have hpred := pred_le_raisedDb hopen.raised
      rw [Uint32.pred_of_pos (by omega)] at hpred
      obtain ⟨-, hrev, -, -⟩ := Undo.rollback_spec hroll
      omega

/-- So a result without any parts is accepted there, whatever it links to. -/
theorem Sound.accepts_unchecked (h : Sound w) (hscan : Scanning w)
    (hread : w.proc.continuation = .reading) {b : Nat} {id : Checksum256} (prevId : Checksum256)
    (hret : RetainedAs w.db (b - 1) id) (hirr : w.proc.irreversible < b) (hone : 1 < b)
    (hbase : w.db.base < b) (hskip : w.proc.head < b → w.proc.head ≤ w.options.startBlockNum) :
    ∃ goOn w', receiveResult lib (.ok (bareResult ⟨b, 0⟩ prevId w.proc.irreversible)) w =
      .ok goOn w' := by
  have hcases := receiveResult_cases lib hscan.mode hscan.cached
    (show (bareResult ⟨b, 0⟩ prevId w.proc.irreversible).thisBlock = some ⟨b, 0⟩ from rfl)
  have h₀ : Sound w.counted := ⟨h.db, h.position, h.fresh, h.revision⟩
  cases hr : receiveResult lib (.ok (bareResult ⟨b, 0⟩ prevId w.proc.irreversible)) w with
  | ok goOn w' => exact ⟨goOn, w', rfl⟩
  | error e w' =>
      rw [hr] at hcases
      cases hcases with
      | refused haccept =>
          have hret₀ : RetainedAs w.counted.db ((⟨b, 0⟩ : BlockPosition).blockNum - 1) id := hret
          exact (h₀.accept_unchecked hret₀ hone hbase le_rfl hskip haccept).elim
      | broken haccept hprocess =>
          have hplaced := haccept.soundlyPlaced h₀ (running_of_reading hread) fun _ ↦ hirr
          exact (hprocess.bare_ok hplaced).elim

end Steps

/-- In every run in which blocks that are sent again are reversible, and no process starts on
a database that is off its head: a further block above the irreversible one is checked
against the block below it, if that is retained, exactly if it is above the head and the head
is above the start block, or if no such block can be accepted at all. -/
theorem checksChain_iff (inputs : List Input)
    (hrun : Run.Guarded (exec lib)
      (fun w i ↦ ScanInput i ∧ ResentAbove w i ∧ StartsAligned w i) newWorld inputs)
    (hread : (run lib newWorld inputs).proc.continuation = .reading) (b : Nat) :
    let w := run lib newWorld inputs
    ChecksChain lib w b ↔
      ((∃ id, RetainedAs w.db (b - 1) id) → w.proc.irreversible < b → 1 < b → w.db.base < b →
        w.proc.head < b ∧ w.options.startBlockNum < w.proc.head) := by
  intro w
  have hinv : Scanning w ∧ Sound w ∧ Numbered w.log :=
    hrun.invariant (I := fun w ↦ Scanning w ∧ Sound w ∧ Numbered w.log)
      (fun w i h hi ↦ ⟨h.1.exec lib hi.1, h.2.1.exec lib h.1 hi.1 hi.2.1 hi.2.2,
        h.2.2.exec lib h.1 h.2.1 hi.1 hi.2.1⟩)
      ⟨scanning_newWorld, sound_newWorld, fun t ht ↦ by cases ht⟩
  obtain ⟨hscan, hsound, hnumbered⟩ := hinv
  constructor
  · rintro hchecks ⟨id, hret⟩ hirr hone hbase
    by_contra hnot
    have hskip : w.proc.head < b → w.proc.head ≤ w.options.startBlockNum := by
      intro hlt
      by_contra hstart
      exact hnot ⟨hlt, not_le.mp hstart⟩
    obtain ⟨goOn, w', hok⟩ : ∃ goOn w', receiveResult lib
        (.ok (bareResult ⟨b, 0⟩ (id + 1) w.proc.irreversible)) w = .ok goOn w' :=
      hsound.accepts_unchecked hscan hread (id + 1) hret hirr hone hbase hskip
    have hlinked := hchecks _ ⟨b, 0⟩ goOn w' rfl rfl hirr hok id hret
    have hbad : id + 1 = id := Option.some.inj hlinked
    simp at hbad
  · rintro hchecked result block goOn w' hblock rfl habove hok
    have hcases := receiveResult_cases lib hscan.mode hscan.cached hblock
    rw [hok] at hcases
    cases hcases with
    | completed haccept hprocess =>
        have h₀ : Sound w.counted :=
          ⟨hsound.db, hsound.position, hsound.fresh, hsound.revision⟩
        exact haccept.chained_of h₀ (running_of_reading hread) hnumbered habove hchecked

set_option maxRecDepth 10000 in
/-- After two blocks, the third is checked. -/
theorem checksChain_third :
    ChecksChain .lenient (run .lenient newWorld twoBlocks) 3 :=
  (checksChain_iff .lenient twoBlocks (by decide) (by decide) 3).mpr fun _ _ _ _ ↦ by decide

set_option maxRecDepth 10000 in
/-- A second block that forks off is accepted although it does not link to the first one,
which the receiver holds. -/
theorem forked_off_unchained :
    ∃ (inputs : List Input) (result : GetBlocksResult) (block : BlockPosition)
      (w' : World Unit),
      Run.Guarded (exec .lenient) (fun w i ↦ ScanInput i ∧ FollowsHead 0 w i ∧ StartsAligned w i)
        newWorld (inputs ++ [.result result]) ∧
      let w := run .lenient newWorld inputs
      result.thisBlock = some block ∧ result.lastIrreversible.blockNum < block.blockNum ∧
        receiveResult .lenient (.ok result) w = .ok true w' ∧
        ∃ id, RetainedAs w.db (block.blockNum - 1) id ∧
          result.prevBlock.map BlockPosition.blockId ≠ some id := by
  refine ⟨twoBlocks, bareResult ⟨2, 7⟩ 9 0, ⟨2, 7⟩, _, by decide, rfl, by decide, rfl, 1, ?_,
    by decide⟩
  exact ⟨1, _, _, rfl, rfl, rfl, rfl⟩

end Chronicle
