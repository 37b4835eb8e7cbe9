import Chronicle.Scan.Sound
import Chronicle.Scan.Revisions

/-!
# The list of received blocks

`received_blocks` keeps the id of every processed block above the irreversible one, and of no
block that was forked off.  What was processed on the current fork is read off the record
(`idOnFork`); that the rows of every revision agree with it is an invariant of the runs in
which a database without a state object is never taken up below its revision.
-/

namespace Chronicle

open Store Effect

variable {Abi : Type} (lib : Abieos Abi)

/-! ## The current fork -/

/-- Forget the blocks from `b` on. -/
def dropFrom (b : Nat) (ids : Nat → Option Checksum256) : Nat → Option Checksum256 :=
  fun n ↦ if n < b then ids n else none

/-- What an observation says about the ids of processed blocks: a kept revision is a
processed block, a fork drops the blocks from its number on, and a scan from scratch drops
all of them. -/
def forkStep (ids : Nat → Option Checksum256) : Observation Abi → Nat → Option Checksum256
  | .pushed t =>
    match t.state with
    | some s => Function.update ids s.head (some s.headId)
    | none => ids
  | .published (.fork e) => if e.forkReason = .resync then fun _ ↦ none else dropFrom e.blockNum ids
  | _ => ids

/-- The id of block `n` as it was processed on the current fork. -/
def idOnFork (log : List (Observation Abi)) : Nat → Option Checksum256 :=
  log.foldl forkStep fun _ ↦ none

/-- A block was processed, neither forked off nor undone. -/
def OnFork (w : World Abi) (n : Nat) (id : Checksum256) : Prop :=
  idOnFork w.log n = some id ∧ ∃ s, w.db.current.state = some s ∧ n ≤ s.head

@[simp] theorem idOnFork_append (l₁ l₂ : List (Observation Abi)) :
    idOnFork (l₁ ++ l₂) = l₂.foldl forkStep (idOnFork l₁) := List.foldl_append

/-- An observation that is neither a revision nor a fork. -/
def Observation.Forkless : Observation Abi → Prop
  | .pushed _ | .published (.fork _) => False
  | _ => True

theorem foldl_forkless {l : List (Observation Abi)} (hl : ∀ o ∈ l, o.Forkless)
    (ids : Nat → Option Checksum256) : l.foldl forkStep ids = ids := by
  induction l generalizing ids with
  | nil => rfl
  | cons o l ih =>
      have ho : forkStep ids o = ids := by
        have hless := hl o List.mem_cons_self
        cases o with
        | pushed t => exact hless.elim
        | published e =>
            cases e with
            | fork e => exact hless.elim
            | _ => rfl
        | _ => rfl
      rw [List.foldl_cons, ho]
      exact ih (fun o ho ↦ hl o (List.mem_cons_of_mem _ ho)) ids

theorem Observation.Quiet.forkless {o : Observation Abi} (h : o.Quiet) : o.Forkless := by
  cases o with
  | published e =>
      cases e with
      | fork e => exact h.elim
      | _ => trivial
  | pushed t => exact h.elim
  | _ => trivial

theorem Observation.Inside.forkless {o : Observation Abi} {b : Nat} (h : o.Inside b) :
    o.Forkless := by
  cases o with
  | published e =>
      cases e with
      | fork e => exact h.elim
      | _ => trivial
  | pushed t => exact h.elim
  | _ => trivial

theorem dropFrom_eq_some {b n : Nat} {ids : Nat → Option Checksum256} {id : Checksum256} :
    dropFrom b ids n = some id ↔ n < b ∧ ids n = some id := by
  rw [dropFrom]
  split_ifs with h <;> simp [h]

theorem dropFrom_eq_none {b n : Nat} {ids : Nat → Option Checksum256} (h : ids n = none) :
    dropFrom b ids n = none := by
  rw [dropFrom, h, ite_self]

/-! ## The invariant -/

/-- The rows of every revision are the processed blocks above its irreversible one, and
maybe some below it; the oldest revision is numbered by its head. -/
structure ListedDb (ids : Nat → Option Checksum256) (db : Undo Tables) : Prop where
  listed : ∀ r t, db.at? r = some t → ∀ k id, t.receivedBlocks.find? k = some id →
    ids k = some id
  complete : ∀ r t, db.at? r = some t → ∀ s, t.state = some s → ∀ n id, ids n = some id →
    s.irreversible < n → n ≤ s.head → t.receivedBlocks.find? n = some id
  base : ∀ t s, db.at? db.base = some t → t.state = some s → s.head = db.base
  initial : ∀ t, db.at? db.base = some t → t.state = none → ∀ n ≤ db.base, ids n = none

/-- No revision is ahead of a head and its irreversible block. -/
def NotAhead (db : Undo Tables) (head irreversible : Nat) : Prop :=
  ∀ r t s, db.at? r = some t → t.state = some s → s.head ≤ head ∧ s.irreversible ≤ irreversible

/-- The list of received blocks agrees with the record, in every revision. -/
structure Listed (w : World Abi) : Prop where
  db : ListedDb (idOnFork w.log) w.db
  fresh : Running w → w.db.current.state = none → ∀ n, idOnFork w.log n = none
  position : NotAhead w.db w.proc.head w.proc.irreversible

namespace ListedDb

variable {ids : Nat → Option Checksum256} {db db' : Undo Tables}

/-- Where nothing was processed, tables without rows are enough. -/
theorem of_empty (h : ∀ n, ids n = none) (b : Nat) : ListedDb ids ⟨b, ∅, []⟩ := by
  have hat : ∀ {r t}, (Undo.mk b (∅ : Tables) []).at? r = some t → t = ∅ :=
    fun ht ↦ (Undo.at?_mk_nil ht).2
  refine ⟨fun r t ht k id hk ↦ ?_, fun r t ht s hs ↦ ?_, fun t s ht hs ↦ ?_, fun _ _ _ n _ ↦ h n⟩
  all_goals obtain rfl := hat ht
  · cases hk
  · cases hs
  · cases hs

/-- A narrower database with the same oldest revision. -/
theorem of_at? (h : ListedDb ids db) (hb : db'.base = db.base)
    (hat : ∀ r t, db'.at? r = some t → db.at? r = some t) : ListedDb ids db' := by
  refine ⟨fun r t ht ↦ h.listed r t (hat r t ht), fun r t ht ↦ h.complete r t (hat r t ht),
    fun t s ht ↦ ?_, fun t ht ↦ ?_⟩
  · rw [hb] at ht ⊢
    exact h.base t s (hat _ _ ht)
  · rw [hb] at ht ⊢
    exact h.initial t (hat _ _ ht)

theorem undoAll (h : ListedDb ids db) : ListedDb ids db.undoAll :=
  h.of_at? rfl fun _ _ ht ↦ Undo.at?_undoAll ht

theorem rollback (h : ListedDb ids db) {n : Nat} (hroll : db.rollback n = some db') :
    ListedDb ids db' := by
  obtain ⟨hb, -, -, hat⟩ := Undo.rollback_spec hroll
  refine h.of_at? hb fun r t ht ↦ ?_
  rw [← hat r (Undo.le_revision_of_at? ht)]
  exact ht

/-- A commit moves the oldest revision to one that is numbered by its block. -/
theorem commit {log : List (Observation Abi)} (h : ListedDb ids db) (hs : SoundDb log db)
    (c : Nat) : ListedDb ids (db.commit c) := by
  rcases (le_max_left .. : db.base ≤ (db.commit c).base).eq_or_lt with heq | hlt
  · exact h.of_at? heq.symm fun _ _ ht ↦ Undo.at?_commit_eq_some ht
  refine ⟨fun r t ht ↦ h.listed r t (Undo.at?_commit_eq_some ht),
    fun r t ht ↦ h.complete r t (Undo.at?_commit_eq_some ht), fun t s ht hstate ↦ ?_,
    fun t ht hstate ↦ ?_⟩
  · exact hs.aligned _ t (Undo.at?_commit_eq_some ht) hlt s hstate
  · exact absurd hstate (hs.stated _ t (Undo.at?_commit_eq_some ht) hlt)

/-- Blocks above every revision may be forgotten. -/
theorem drop (h : ListedDb ids db) (hord : OrderedDb db) {b : Nat}
    (hb : ∀ r t s, db.at? r = some t → t.state = some s → s.head < b) :
    ListedDb (dropFrom b ids) db := by
  refine ⟨fun r t ht k id hk ↦ ?_, fun r t ht s hs n id hn ↦ ?_, h.base,
    fun t ht hs n hn ↦ dropFrom_eq_none (h.initial t ht hs n hn)⟩
  · refine dropFrom_eq_some.mpr ⟨?_, h.listed r t ht k id hk⟩
    cases hs : t.state with
    | none =>
        rw [(hord.settled r t ht).empty hs] at hk
        cases hk
    | some s =>
        exact (((hord.settled r t ht).dated s hs).2.received k id hk).trans_lt (hb r t s ht hs)
  · exact h.complete r t ht s hs n id (dropFrom_eq_some.mp hn).2

end ListedDb

theorem NotAhead.of_at? {db db' : Undo Tables} {head irreversible : Nat}
    (h : NotAhead db head irreversible)
    (hat : ∀ r t, db'.at? r = some t → ∃ r', db.at? r' = some t) :
    NotAhead db' head irreversible := by
  intro r t s ht
  obtain ⟨r', ht'⟩ := hat r t ht
  exact h r' t s ht'

/-! ## Steps -/

/-- The row of a number in the list after a block. -/
theorem Tables.find?_addReceived (t : Tables) (block : BlockPosition) (irreversible k : Nat) :
    (t.addReceived block irreversible).receivedBlocks.find? k =
      if irreversible < block.blockNum then
        if irreversible ≤ k then
          if k = block.blockNum then some block.blockId else t.receivedBlocks.find? k
        else none
      else t.receivedBlocks.find? k := by
  rw [Tables.addReceived]
  by_cases hlt : irreversible < block.blockNum
  · rw [if_pos hlt, if_pos hlt, Table.find?_filter, Table.find?_insert]
    refine Option.ext fun id ↦ ?_
    by_cases hk : irreversible ≤ k
    · simp [hk]
    · simp [hk]
  · rw [if_neg hlt, if_neg hlt]

section Steps

variable {block : BlockPosition} {result : GetBlocksResult} {w w₁ w' : World Abi}

/-- A world whose position was accepted, before the block is stored: the list is that of the
block below. -/
structure ListedBelow (block : BlockPosition) (result : GetBlocksResult) (w : World Abi) :
    Prop where
  db : ListedDb (idOnFork w.log) w.db
  fresh : w.db.current.state = none → ∀ n, idOnFork w.log n = none
  linked : ∀ s, w.db.current.state = some s → s.head + 1 = block.blockNum
  position : ∀ r t s, w.db.at? r = some t → t.state = some s →
    s.head < block.blockNum ∧ s.irreversible ≤ result.lastIrreversible.blockNum

/-- The current tables are those of the block that the revision is named after. -/
theorem ListedDb.head_eq {ids : Nat → Option Checksum256} {log : List (Observation Abi)}
    {db : Undo Tables} (h : ListedDb ids db) (hs : SoundDb log db) {s : StateObject}
    (hstate : db.current.state = some s) : s.head = db.revision := by
  rcases db.base_le_revision.eq_or_lt with heq | hlt
  · have hat := db.at?_revision
    rw [← heq] at hat ⊢
    exact h.base _ s hat hstate
  · exact hs.aligned _ _ db.at?_revision hlt s hstate

/-- Raising the revision only matters while nothing was processed. -/
theorem Listed.raised (h : Listed w) (hs : Sound w) (hrun : Running w) {b : Nat}
    {db : Undo Tables} (hb : b ≤ w.proc.head + 1) (hpos : 0 < b)
    (hraised : raisedDb b w.db = some db) : ListedDb (idOnFork w.log) db := by
  rcases raisedDb_eq_some hraised with ⟨-, rfl⟩ | ⟨hlt, -, rfl⟩
  · exact h.db
  · rw [Uint32.pred_of_pos hpos] at hlt
    have hnone : w.db.current.state = none := by
      by_contra hsome
      have hrev := hs.revision hrun hsome
      omega
    have hempty := (hs.db.settled _ _ w.db.at?_revision).empty hnone
    rw [hempty]
    exact .of_empty (h.fresh hrun hnone) _

/-- An accepted block finds the list of the block below it. -/
theorem Accept.listedBelow (haccept : Accept block result w (.ok () w₁)) (h : Listed w)
    (hs : Sound w) (hrun : Running w)
    (hfollow : block.blockNum = w.proc.head + 1 ∨
      (result.lastIrreversible.blockNum < block.blockNum ∧ block.blockNum ≤ w.proc.head)) :
    ListedBelow block result w₁ := by
  have hre : block.blockNum ≤ w.proc.head → result.lastIrreversible.blockNum < block.blockNum := by
    intro hle
    rcases hfollow with hnext | habove
    · omega
    · exact habove.1
  have hplaced := haccept.soundlyPlaced hs hrun hre
  have hposition : ∀ {db}, raisedDb block.blockNum w.db = some db →
      NotAhead db w.proc.head w.proc.irreversible := fun hraised ↦
    h.position.of_at? fun _ _ ht ↦ at?_raisedDb hraised ht
  have hstraight : ∀ {db}, raisedDb block.blockNum w.db = some db → w.proc.head < block.blockNum →
      w.proc.irreversible ≤ result.lastIrreversible.blockNum →
      ListedDb (idOnFork w.log) db ∧
        (db.current.state = none → ∀ n, idOnFork w.log n = none) ∧
        ∀ r t s, db.at? r = some t → t.state = some s →
          s.head < block.blockNum ∧ s.irreversible ≤ result.lastIrreversible.blockNum := by
    intro db hraised hlt hirr
    refine ⟨h.raised hs hrun (by omega) (by omega) hraised, fun hnone ↦ ?_, fun r t s ht hst ↦ ?_⟩
    · rw [raisedDb_current hraised] at hnone
      exact h.fresh hrun hnone
    · have hpos := hposition hraised r t s ht hst
      exact ⟨hpos.1.trans_lt hlt, hpos.2.trans hirr⟩
  cases haccept with
  | @forked db db' hopen hhead hroll hzero =>
      have habove := hopen.above
      have hord := hplaced.db.toOrderedDb
      obtain ⟨hbase, hrev, -, -⟩ := Undo.rollback_spec hroll
      have hraised := h.raised hs hrun (by omega) (by omega) hopen.raised
      have hbelow : ∀ r t s, db'.at? r = some t → t.state = some s →
          s.head < block.blockNum := by
        intro r t s ht hst
        have hle := ((hord.settled r t ht).dated s hst).1
        have hle' := Undo.le_revision_of_at? ht
        omega
      have hids : idOnFork (w.log ++ [.published (networkFork block.blockNum
          result.lastIrreversible.blockNum w.proc.head)]) =
          dropFrom block.blockNum (idOnFork w.log) := by
        rw [idOnFork_append]
        rfl
      have hdb := (hraised.rollback hroll).drop hord hbelow
      refine ⟨hids ▸ hdb, fun hnone n ↦ ?_, fun s hst ↦ ?_, fun r t s ht hst ↦ ?_⟩
      · -- Without a state object the rollback has ended at the oldest revision.
        rw [hids]
        have hbot : db'.revision = db'.base := by
          by_contra hne
          have hle := db'.base_le_revision
          exact hord.stated _ _ db'.at?_revision (by dsimp only; omega) hnone
        have hat := db'.at?_revision
        rw [hbot] at hat
        rw [dropFrom]
        split_ifs with hn
        · exact (hraised.rollback hroll).initial _ hat hnone n
            (by have := hplaced.revision; dsimp only at this; omega)
        · rfl
      · have hhead := hdb.head_eq hplaced.db hst
        have := hplaced.revision
        dsimp only at this
        omega
      · refine ⟨hbelow r t s ht hst, ?_⟩
        obtain ⟨r', ht'⟩ := at?_rollback hopen.raised hroll ht
        exact (h.position r' t s ht' hst).2.trans hopen.irreversible
  | extended hopen habove _ =>
      obtain ⟨hdb, hfresh, hpos⟩ := hstraight hopen.raised habove hopen.irreversible
      refine ⟨hdb, hfresh, fun s hst ↦ ?_, hpos⟩
      rw [hdb.head_eq hplaced.db hst]
      exact hplaced.revision
  | unchecked hirr hraised hbelow =>
      obtain ⟨hdb, hfresh, hpos⟩ := hstraight hraised (by omega) hirr
      refine ⟨hdb, hfresh, fun s hst ↦ ?_, hpos⟩
      rw [hdb.head_eq hplaced.db hst]
      exact hplaced.revision

variable {lib}

/-- The ids after a block was stored. -/
theorem Stored.idOnFork (hs : Stored lib block result w w') :
    idOnFork w'.log = Function.update (idOnFork w.log) block.blockNum (some block.blockId) := by
  obtain ⟨l, hl, hlog⟩ := hs.log
  rw [hlog, idOnFork_append, idOnFork_append,
    foldl_forkless (fun o ho ↦ (hl o ho).forkless)]
  rfl

/-- The list after a block was stored. -/
theorem ListedBelow.stored (h : ListedBelow block result w) (hplaced : SoundlyPlaced block w)
    (hs : Stored lib block result w w') : ListedDb (Chronicle.idOnFork w'.log) w'.db := by
  have hrev := hplaced.revision
  have hbase := w.db.base_le_revision
  have hat : (w.db.startUndoSession.modify (blockEffect lib block result)).at? w.db.base =
      w.db.at? w.db.base := Undo.at?_session _ hbase
  rw [hs.db]
  refine ListedDb.commit ?_ (hplaced.session hs) _
  rw [hs.idOnFork]
  refine ⟨fun r t ht k id hk ↦ ?_, fun r t ht s hst n id hn hirr hle ↦ ?_,
    fun t s ht hst ↦ h.db.base t s (hat ▸ ht) hst, fun t ht hst n hn ↦ ?_⟩
  · rcases Undo.at?_session_eq_some ht with ⟨-, ht⟩ | ⟨-, rfl⟩
    · have hne : k ≠ block.blockNum := by
        cases hst : t.state with
        | none =>
            rw [(hplaced.db.settled r t ht).empty hst] at hk
            cases hk
        | some s =>
            have hle := ((hplaced.db.settled r t ht).dated s hst).2.received k id hk
            have hlt := (h.position r t s ht hst).1
            omega
      rw [Function.update_of_ne hne]
      exact h.db.listed r t ht k id hk
    · rw [blockEffect_receivedBlocks, Tables.find?_addReceived] at hk
      have hcur : ∀ id, w.db.current.receivedBlocks.find? k = some id → k ≠ block.blockNum ∧
          Chronicle.idOnFork w.log k = some id := by
        intro id hk
        refine ⟨?_, h.db.listed _ _ w.db.at?_revision k id hk⟩
        rintro rfl
        have hset := hplaced.db.settled _ _ w.db.at?_revision
        cases hst : w.db.current.state with
        | none =>
            rw [hset.empty hst] at hk
            cases hk
        | some s =>
            have hle := (hset.dated s hst).2.received _ id hk
            have hlt := h.linked s hst
            omega
      split_ifs at hk with h₁ h₂ h₃
      · rw [h₃, Function.update_self, ← hk]
      · obtain ⟨hne, hid⟩ := hcur id hk
        rw [Function.update_of_ne hne, hid]
      · obtain ⟨hne, hid⟩ := hcur id hk
        rw [Function.update_of_ne hne, hid]
  · rcases Undo.at?_session_eq_some ht with ⟨-, ht⟩ | ⟨-, rfl⟩
    · have hlt := (h.position r t s ht hst).1
      rw [Function.update_of_ne (by omega)] at hn
      exact h.db.complete r t ht s hst n id hn hirr hle
    · obtain rfl : stateOf block result = s := Option.some.inj hst
      rw [blockEffect_receivedBlocks, Tables.find?_addReceived]
      simp only [stateOf] at hirr hle
      rw [if_pos (hirr.trans_le hle), if_pos hirr.le]
      by_cases hne : n = block.blockNum
      · rw [hne, Function.update_self] at hn
        rw [if_pos hne, hn]
      · rw [Function.update_of_ne hne] at hn
        rw [if_neg hne]
        cases hst' : w.db.current.state with
        | none =>
            rw [h.fresh hst' n] at hn
            cases hn
        | some s =>
            have hlink := h.linked s hst'
            have hirr' := (h.position _ _ s w.db.at?_revision hst').2
            exact h.db.complete _ _ w.db.at?_revision s hst' n id hn (by omega) (by omega)
  · have hn : n ≤ w.db.base := hn
    rw [Function.update_of_ne (by omega)]
    exact h.db.initial t (hat ▸ ht) hst n hn

theorem Listed.calm (h : Listed w) (hc : Calm w w') : Listed w' := by
  obtain ⟨l, hl, hq⟩ := hc.log
  have hids : idOnFork w'.log = idOnFork w.log := by
    rw [hl, idOnFork_append, foldl_forkless fun o ho ↦ (hq o ho).forkless]
  have hhead : w'.proc.head = w.proc.head := congrArg StateObject.head hc.position
  have hirr : w'.proc.irreversible = w.proc.irreversible :=
    congrArg StateObject.irreversible hc.position
  refine ⟨?_, fun hrun hnone ↦ ?_, ?_⟩
  · rw [hids, hc.db]
    exact h.db
  · rw [hids]
    exact h.fresh (hc.running hrun) (hc.db ▸ hnone)
  · rw [hc.db, hhead, hirr]
    exact h.position

theorem Listed.ended (h : Listed w) (hs : Sound w) (hend : Ended w w') : Listed w' := by
  have hids : idOnFork w'.log = idOnFork w.log := by
    rw [hend.log, idOnFork_append]
    rfl
  have hhead : w'.proc.head = w.proc.head := congrArg StateObject.head hend.position
  have hirr : w'.proc.irreversible = w.proc.irreversible :=
    congrArg StateObject.irreversible hend.position
  refine ⟨?_, fun hrun ↦ absurd hrun hend.stopped, ?_⟩
  · rw [hids, hend.db]
    exact h.db.commit hs.db _
  · rw [hend.db, hhead, hirr]
    exact h.position.of_at? fun r _ ht ↦ ⟨r, Undo.at?_commit_eq_some ht⟩

theorem Listed.next (h : Listed w) (hs : Sound w) (hnext : Next w w') : Listed w' := by
  cases hnext with
  | idle hidle => exact h.calm hidle.toCalm
  | ended hend => exact h.ended hs hend

/-- The single revision that a process starts on is at its position. -/
theorem notAhead_startPosition (o : Options) (db : Undo Tables) :
    NotAhead db.undoAll (startPosition o db.undoAll.current).head
      (startPosition o db.undoAll.current).irreversible := by
  intro r t s ht hs
  obtain rfl : t = db.undoAll.current := (Undo.at?_mk_nil ht).2
  rw [startPosition, hs]
  exact ⟨le_rfl, le_rfl⟩

/-- A process that scans from scratch forgets all blocks; one that goes on forgets those that
it has undone. -/
theorem idOnFork_startForks (o : Options) (db : Undo Tables) (log : List (Observation Abi)) :
    (db.undoAll.current.state = none → ∀ n, idOnFork (log ++ startForks o db) n = none) ∧
      ∀ s, db.undoAll.current.state = some s →
        idOnFork (log ++ startForks o db) = idOnFork log ∨
          idOnFork (log ++ startForks o db) = dropFrom (s.head + 1) (idOnFork log) := by
  rw [idOnFork_append, startForks]
  refine ⟨fun hnone n ↦ ?_, fun s hs ↦ ?_⟩
  · rw [if_pos hnone]
    split_ifs
    · exact dropFrom_eq_none rfl
    · rfl
  · rw [if_neg (by simp [hs]), startPosition, hs]
    split_ifs
    · exact .inr rfl
    · exact .inl rfl

theorem Listed.started {o : Options} (h : Listed w) (hsound : Sound w) (hs : Started o w w') :
    Listed w' := by
  have hord := hsound.db.undoAll.toOrderedDb
  cases hs with
  | rejected hr =>
      have hhead : w'.proc.head = _ := congrArg StateObject.head hr.position
      have hirr : w'.proc.irreversible = _ := congrArg StateObject.irreversible hr.position
      refine ⟨?_, fun hrun ↦ absurd hrun hr.stopped, ?_⟩
      · rw [hr.log, hr.db]
        exact h.db.undoAll
      · rw [hr.db, hhead, hirr]
        exact notAhead_startPosition o w.db
  | loaded hl =>
      have hhead : w'.proc.head = _ := congrArg StateObject.head hl.position
      have hirr : w'.proc.irreversible = _ := congrArg StateObject.irreversible hl.position
      obtain ⟨hscratch, hgoOn⟩ := idOnFork_startForks o w.db w.log
      have hposition := notAhead_startPosition o w.db
      rw [← hhead, ← hirr] at hposition
      refine ⟨?_, fun _ hnone n ↦ ?_, hl.db ▸ hposition⟩
      · rw [hl.log, hl.db]
        cases hst : w.db.undoAll.current.state with
        | none =>
            have hempty := (hord.settled _ _ (Undo.at?_revision _)).empty hst
            have hdb : w.db.undoAll = ⟨w.db.base, ∅, []⟩ := by
              rw [← hempty]
              rfl
            rw [hdb]
            exact .of_empty (hscratch hst) _
        | some s =>
            rcases hgoOn s hst with hids | hids
            · exact hids ▸ h.db.undoAll
            · rw [hids]
              refine h.db.undoAll.drop hord fun r t s' ht hs' ↦ ?_
              obtain ⟨-, rfl⟩ := Undo.at?_mk_nil ht
              have heq : s = s' := Option.some.inj (hst.symm.trans hs')
              exact heq ▸ Nat.lt_succ_self _
      · rw [hl.db] at hnone
        rw [hl.log]
        exact hscratch hnone n

/-- Events and decoded ABIs do not matter. -/
theorem Within.idOnFork (h : Within w w') :
    Chronicle.idOnFork w'.log = Chronicle.idOnFork w.log := by
  obtain ⟨l, hl, hin⟩ := h.log
  rw [hl, idOnFork_append, foldl_forkless fun o ho ↦ (hin o ho).forkless]

/-- However a block ends whose position was accepted, the list agrees with the record. -/
theorem ProcessBlock.listedDb {r : EStateM.Result Abort (World Abi) Unit}
    (h : ProcessBlock lib block result w r) (hb : ListedBelow block result w)
    (hplaced : SoundlyPlaced block w) :
    Ends (fun _ w' ↦ ListedDb (Chronicle.idOnFork w'.log) w'.db)
      (fun _ w' ↦ ListedDb (Chronicle.idOnFork w'.log) w'.db) r := by
  cases h with
  | unreadable => exact hb.db
  | failed _ _ hw =>
      change ListedDb _ _
      rw [hw.2, hw.1.idOnFork]
      exact hb.db
  | untraced _ _ _ hstored hw =>
      change ListedDb _ _
      rw [hw.2, hw.1.idOnFork]
      exact hb.stored hplaced hstored
  | completed _ _ _ hstored hw =>
      change ListedDb (Chronicle.idOnFork (_ ++ _)) _
      rw [hw.2, idOnFork_append, hw.1.idOnFork]
      exact hb.stored hplaced hstored

/-- No revision is ahead of a block whose position was accepted, however it ends. -/
theorem ProcessBlock.notAhead {r : EStateM.Result Abort (World Abi) Unit}
    (h : ProcessBlock lib block result w r) (hb : ListedBelow block result w) :
    Ends (fun _ w' ↦ NotAhead w'.db block.blockNum result.lastIrreversible.blockNum)
      (fun _ w' ↦ NotAhead w'.db block.blockNum result.lastIrreversible.blockNum) r := by
  have hold : ∀ r t s, w.db.at? r = some t ∨ t = blockEffect lib block result w.db.current →
      t.state = some s → s.head ≤ block.blockNum ∧
        s.irreversible ≤ result.lastIrreversible.blockNum := by
    rintro r t s (ht | rfl) hs
    · exact ⟨(hb.position r t s ht hs).1.le, (hb.position r t s ht hs).2⟩
    · obtain rfl : stateOf block result = s := Option.some.inj hs
      exact ⟨le_rfl, le_rfl⟩
  exact h.at?.mono (fun _ _ hat r t s ht ↦ hold r t s (hat r t ht))
    fun _ _ hat r t s ht ↦ hold r t s (hat r t ht)

/-- A block that was not completed. -/
theorem Listed.stopped {b i : Nat} (hdb : ListedDb (idOnFork w.log) w.db)
    (hpos : NotAhead w.db b i) (hhead : w'.proc.head = b) (hirr : w'.proc.irreversible = i)
    (hc : Calm w w') (hstop : ¬ Running w') : Listed w' := by
  obtain ⟨l, hl, hq⟩ := hc.log
  refine ⟨?_, fun hrun ↦ absurd hrun hstop, ?_⟩
  · rw [hl, idOnFork_append, foldl_forkless fun o ho ↦ (hq o ho).forkless, hc.db]
    exact hdb
  · rw [hc.db, hhead, hirr]
    exact hpos

/-- A refused block leaves the list as it was recorded. -/
theorem Accept.listed_error {e : Abort} (haccept : Accept block result w (.error e w₁))
    (h : Listed w) (hs : Sound w) (hrun : Running w)
    (hfollow : block.blockNum = w.proc.head + 1 ∨
      (result.lastIrreversible.blockNum < block.blockNum ∧ block.blockNum ≤ w.proc.head)) :
    ListedDb (Chronicle.idOnFork w₁.log) w₁.db := by
  have hraised : ∀ {db}, raisedDb block.blockNum w.db = some db →
      ListedDb (Chronicle.idOnFork w.log) db := fun hr ↦ h.raised hs hrun (by omega) (by omega) hr
  cases haccept with
  | unmoved => exact h.db
  | refused hopen _ _ => exact hraised hopen.raised
  | endless hopen _ _ => exact (hraised hopen.raised).undoAll
  | bottom hopen _ hroll _ => exact (hraised hopen.raised).rollback hroll

end Steps

/-- A process that finds no state object starts above the revision that the database was left
at. -/
def StartsAbove (w : World Abi) : Input → Prop
  | .start o => w.db.undoAll.current.state = none → w.db.base ≤ o.startBlockNum - 1
  | _ => True

instance (w : World Abi) : (i : Input) → Decidable (StartsAbove w i)
  | .start o => inferInstanceAs (Decidable (w.db.undoAll.current.state = none →
      w.db.base ≤ o.startBlockNum - 1))
  | .ready _ | .receive _ _ | .timer _ | .ack _ | .slowdown _ | .stale | .decode _ | .request _
  | .scanner _ => .isTrue trivial

/-- A database with a state object always was left at its head. -/
theorem Listed.startsAligned {w : World Abi} (h : Listed w) {i : Input} (hi : StartsAbove w i) :
    StartsAligned w i := by
  cases i with
  | start o =>
      rw [StartsAligned]
      cases hs : w.db.undoAll.current.state with
      | some s => exact h.db.base _ s w.db.at?_base hs
      | none => exact hi hs
  | _ => trivial

/-- Every input keeps the list as recorded. -/
theorem Listed.exec {w : World Abi} {i : Input} (h : Listed w) (hscan : Scanning w)
    (hs : Sound w) (hi : ScanInput i) (hfollow : FollowsHead 0 w i) :
    Listed (exec lib w i) := by
  cases hscan.exec_cases lib hi with
  | idle hidle => exact h.calm hidle.toCalm
  | acked _ hw => exact hw ▸ h.calm (calm_ackedBy _ w)
  | decoded hw => exact hw ▸ h.calm (calm_decoded lib _ w)
  | ended hidle hend => exact (h.calm hidle.toCalm).ended (hs.calm hidle.toCalm) hend
  | started hstarted => exact h.started hs hstarted
  | @received block result queueSize _ hblock hread hr =>
      have hd := delivered_receive queueSize hblock hread
      have hb : block.blockNum = w.proc.head + 1 ∨
          (result.lastIrreversible.blockNum < block.blockNum ∧ block.blockNum ≤ w.proc.head) :=
        (hfollow _ hd).imp_right fun hb ↦ ⟨hb.1, hb.2.1⟩
      have hre := hfollow.resentAbove _ hd
      have hrun : Running w := running_of_reading hread
      have hs₀ : Sound w.counted := ⟨hs.db, hs.position, hs.fresh, hs.revision⟩
      have h₀ : Listed w.counted := ⟨h.db, h.fresh, h.position⟩
      cases hr with
      | refused haccept hstop =>
          have hpos : _ ∧ _ := (haccept.frame hscan.cached).2.2.2
          have hkept : ∀ r t, _ → _ := haccept.kept
          have hpos' := hstop.idle.position.trans hpos.1
          exact Listed.stopped (haccept.listed_error h₀ hs₀ hrun hb) (h.position.of_at? hkept)
            (congrArg StateObject.head hpos') (congrArg StateObject.irreversible hpos')
            hstop.idle.toCalm hstop.stopped
      | broken haccept hprocess hstop =>
          have hplaced := haccept.soundlyPlaced hs₀ hrun hre
          have hbelow := haccept.listedBelow h₀ hs₀ hrun hb
          obtain ⟨-, -, hc, hat⟩ := haccept.frame hscan.cached
          have hcore := (hprocess.frame hc).2.1
          have hpos := hstop.idle.position.trans
            ((Proc.member_eq hcore Proc.position fun _ ↦ rfl).trans hat)
          exact Listed.stopped (hprocess.listedDb hbelow hplaced) (hprocess.notAhead hbelow)
            (congrArg StateObject.head hpos) (congrArg StateObject.irreversible hpos)
            hstop.idle.toCalm hstop.stopped
      | @completed w₁ w₂ w₃ haccept hprocess hidle hnext =>
          have hplaced := haccept.soundlyPlaced hs₀ hrun hre
          have hbelow := haccept.listedBelow h₀ hs₀ hrun hb
          obtain ⟨-, -, hc, hat⟩ := haccept.frame hscan.cached
          have hcore := (hprocess.frame hc).2.1
          have hpos : w₂.proc.position = _ :=
            (Proc.member_eq hcore Proc.position fun _ ↦ rfl).trans hat
          obtain ⟨hsound, -, hstate⟩ := hprocess.sound_ok hplaced hat
          have hlisted : Listed w₂ := by
            refine ⟨hprocess.listedDb hbelow hplaced, fun _ hnone ↦ ?_, ?_⟩
            · rw [hstate] at hnone
              cases hnone
            · have hhead : w₂.proc.head = _ := congrArg StateObject.head hpos
              have hirr : w₂.proc.irreversible = _ := congrArg StateObject.irreversible hpos
              rw [hhead, hirr]
              exact hprocess.notAhead hbelow
          exact (hlisted.calm hidle.toCalm).next (hsound.calm hidle.toCalm) hnext

theorem listed_newWorld : Listed (newWorld : World Abi) :=
  ⟨.of_empty (fun _ ↦ rfl) 0, fun h ↦ absurd rfl h.1, fun r t s ht hs ↦ by
    obtain ⟨-, rfl⟩ := Undo.at?_mk_nil ht
    cases hs⟩

/-! ## Runs -/

/-- The list of received blocks is as it should be. -/
structure ListsReceived (w : World Abi) : Prop where
  below : ∀ k id, w.db.current.receivedBlocks.find? k = some id → k ≤ w.proc.head
  complete : ∀ n id, OnFork w n id → w.proc.irreversible < n →
    n ≤ w.proc.head ∧ w.db.current.receivedBlocks.find? n = some id
  positions : ((havePositions w.proc w.db.current).Pairwise fun p q ↦ p.blockNum < q.blockNum) ∧
    ∀ p ∈ havePositions w.proc w.db.current, OnFork w p.blockNum p.blockId

/-- Adding a delivered block to the list neither meets a row of its number nor runs past the
end of the list, and it removes the rows below the irreversible block. -/
def AddsReceived (w : World Abi) (i : Input) : Prop :=
  ∀ d ∈ delivered w i, ∀ w₁ w₂, acceptPosition d.1 d.2 w.counted = .ok () w₁ →
    receiveBlockPart d.2 w₁ = .ok () w₂ →
    addReceivedBlock d.1 { w₂ with db := w₂.db.startUndoSession } = .ok () { w₂ with
      db := w₂.db.startUndoSession.modify
        (Tables.addReceived d.1 d.2.lastIrreversible.blockNum) }

/-- The rows of the current tables are processed blocks of the current fork. -/
theorem Listed.row {w : World Abi} (h : Listed w) (hs : Sound w) {k : Nat} {id : Checksum256}
    (hk : w.db.current.receivedBlocks.find? k = some id) : OnFork w k id := by
  refine ⟨h.db.listed _ _ w.db.at?_revision k id hk, ?_⟩
  have hset := hs.db.settled _ _ w.db.at?_revision
  cases hst : w.db.current.state with
  | none =>
      rw [hset.empty hst] at hk
      cases hk
  | some s => exact ⟨s, rfl, (hset.dated s hst).2.received k id hk⟩

theorem Listed.lists {w : World Abi} (h : Listed w) (hs : Sound w) : ListsReceived w := by
  have hbelow : ∀ k id, OnFork w k id → k ≤ w.proc.head := by
    rintro k id ⟨-, s, hst, hle⟩
    exact hle.trans (h.position _ _ s w.db.at?_revision hst).1
  refine ⟨fun k id hk ↦ hbelow k id (h.row hs hk), fun n id hn hirr ↦ ⟨hbelow n id hn, ?_⟩, ?_, ?_⟩
  · obtain ⟨hids, s, hst, hle⟩ := hn
    have hpos := (h.position _ _ s w.db.at?_revision hst).2
    exact h.db.complete _ _ w.db.at?_revision s hst n id hids (hpos.trans_lt hirr) hle
  · rw [havePositions, List.pairwise_map]
    have hsorted := w.db.current.receivedBlocks.sorted
    exact (hsorted.sublist (List.dropWhile_sublist _)).sublist (List.takeWhile_sublist _)
  · intro p hp
    rw [havePositions] at hp
    obtain ⟨row, hrow, rfl⟩ := List.mem_map.mp hp
    have hmem := (List.dropWhile_sublist _).mem ((List.takeWhile_sublist _).mem hrow)
    exact h.row hs (Table.mem_rows.mp hmem)

/-- `truncateReceivedBlocks`, when its loop ends at a row. -/
theorem truncateReceivedBlocks_run {w : World Abi} {rows : Table Nat Checksum256}
    (h : truncateRows w.proc.irreversible w.db.current.receivedBlocks.rows
      w.db.current.receivedBlocks = some rows) :
    truncateReceivedBlocks w =
      .ok () { w with db := w.db.modify fun t ↦ { t with receivedBlocks := rows } } := by
  rw [truncateReceivedBlocks, bind_run (get_run w), h]
  rfl

/-- A block whose number is free is added to the list. -/
theorem addReceivedBlock_run {block : BlockPosition} {w : World Abi}
    (hfree : w.db.current.Free block w.proc.irreversible) :
    addReceivedBlock block w =
      .ok () { w with db := w.db.modify (Tables.addReceived block w.proc.irreversible) } := by
  change (if w.proc.irreversible < block.blockNum then
    (createReceivedBlock block >>= fun _ ↦ truncateReceivedBlocks) else pure () :
      Receiver Abi Unit) w = _
  by_cases hlt : w.proc.irreversible < block.blockNum
  · have hcreate : createReceivedBlock block w = .ok () { w with db := w.db.modify fun t ↦
        { t with receivedBlocks := t.receivedBlocks.insert block.blockNum block.blockId } } := by
      change (if (w.db.current.receivedBlocks.find? block.blockNum).isSome then _ else _ :
        Receiver Abi Unit) w = _
      rw [hfree hlt]
      rfl
    have htruncate := truncateRows_rows hlt.le
      (t := w.db.current.receivedBlocks.insert block.blockNum block.blockId) (by simp)
    have hadd : w.db.modify (Tables.addReceived block w.proc.irreversible) =
        w.db.modify fun t ↦ { t with
          receivedBlocks := (t.receivedBlocks.insert block.blockNum block.blockId).filter
            fun k _ ↦ w.proc.irreversible ≤ k } :=
      congrArg (fun t ↦ { w.db with current := t }) (if_pos hlt)
    rw [if_pos hlt, bind_run hcreate, truncateReceivedBlocks_run htruncate, hadd]
    rfl
  · have hadd : w.db.modify (Tables.addReceived block w.proc.irreversible) = w.db :=
      congrArg (fun t ↦ { w.db with current := t }) (if_neg hlt)
    rw [if_neg hlt, hadd]
    rfl

/-- The number of an accepted block is free. -/
theorem Sound.addsReceived {w : World Abi} (h : Sound w) (hscan : Scanning w) {i : Input}
    (hre : ResentAbove w i) : AddsReceived w i := by
  intro d hd w₁ w₂ haccept hpart
  obtain ⟨queueSize, rfl, -, hread⟩ := delivered_eq_some hd
  have h₀ : Sound w.counted := ⟨h.db, h.position, h.fresh, h.revision⟩
  have hcases := acceptPosition_cases d.1 d.2 (w := w.counted) hscan.mode
  rw [haccept] at hcases
  obtain ⟨-, -, hc, hat⟩ : _ ∧ _ ∧ _ ∧ _ := hcases.frame hscan.cached
  have hplaced := hcases.soundlyPlaced h₀ (running_of_reading hread) (hre _ hd)
  have hann : Announced w₁ w₂ := ((receiveBlockPart_triple d.2).ok (Announced.refl hc) hpart).1
  have hdb : w₂.db = w₁.db := hann.1.2
  have hirr : w₂.proc.irreversible = d.2.lastIrreversible.blockNum :=
    (hann.1.1.member Proc.irreversible fun _ ↦ rfl).trans (congrArg StateObject.irreversible hat)
  have hfree : w₂.db.startUndoSession.current.Free d.1 w₂.proc.irreversible := by
    rw [Undo.current_startUndoSession, hdb]
    exact (hplaced.db.settled _ _ w₁.db.at?_revision).free hplaced.below _
  have hrun : addReceivedBlock d.1 { w₂ with db := w₂.db.startUndoSession } = .ok () { w₂ with
      db := w₂.db.startUndoSession.modify (Tables.addReceived d.1 w₂.proc.irreversible) } :=
    addReceivedBlock_run hfree
  rwa [hirr] at hrun

/-- In every run in which the stream goes on from the head or goes back to a reversible
block, and a process that finds no state object starts above the revision that the database
was left at: the list of received blocks is as it should be, and so is the way the next block
is added to it. -/
theorem received_blocks_listed (inputs : List Input)
    (hrun : Run.Guarded (exec lib)
      (fun w i ↦ ScanInput i ∧ FollowsHead 0 w i ∧ StartsAbove w i) newWorld inputs) :
    ListsReceived (run lib newWorld inputs) ∧
      ∀ i, FollowsHead 0 (run lib newWorld inputs) i →
        AddsReceived (run lib newWorld inputs) i := by
  have hinv : Scanning (run lib newWorld inputs) ∧ Sound (run lib newWorld inputs) ∧
      Listed (run lib newWorld inputs) :=
    hrun.invariant (I := fun w ↦ Scanning w ∧ Sound w ∧ Listed w)
      (fun w i h hi ↦ ⟨h.1.exec lib hi.1,
        h.2.1.exec lib h.1 hi.1 hi.2.1.resentAbove (h.2.2.startsAligned hi.2.2),
        h.2.2.exec lib h.1 h.2.1 hi.1 hi.2.1⟩)
      ⟨scanning_newWorld, sound_newWorld, listed_newWorld⟩
  obtain ⟨hscan, hsound, hlisted⟩ := hinv
  exact ⟨hlisted.lists hsound, fun i hi ↦ hsound.addsReceived hscan hi.resentAbove⟩

/-- A process is told to start at block 5, and cannot unpack its deltas; the next one starts
at block 1. -/
def startedBelow : List Input :=
  [.start { startBlockNum := 5 }, .ready 0,
    .result { bareResult ⟨5, 5⟩ 4 0 with deltas := some [.error "unexpected end of stream"] },
    .start { startBlockNum := 1 }, .ready 0, .result (bareResult ⟨1, 1⟩ 0 0),
    .result (bareResult ⟨2, 2⟩ 1 0), .result (bareResult ⟨3, 3⟩ 2 0),
    .result (bareResult ⟨4, 4⟩ 3 0), .result (bareResult ⟨5, 5⟩ 4 0),
    .result (bareResult ⟨6, 6⟩ 5 0)]

/-- A run with a fork, a restart, and blocks that become irreversible. -/
def forkedAndRestarted : List Input :=
  [.start {}, .ready 0, .result (bareResult ⟨1, 1⟩ 0 0), .result (bareResult ⟨2, 2⟩ 1 0),
    .result (bareResult ⟨2, 7⟩ 1 1), .start {}, .ready 0, .result (bareResult ⟨2, 8⟩ 1 1)]

set_option maxRecDepth 10000 in
theorem received_blocks_listed_restarted :
    ListsReceived (run .lenient newWorld forkedAndRestarted) ∧
      ∀ i, FollowsHead 0 (run .lenient newWorld forkedAndRestarted) i →
        AddsReceived (run .lenient newWorld forkedAndRestarted) i :=
  received_blocks_listed .lenient forkedAndRestarted (by decide)

set_option maxRecDepth 10000 in
/-- The first process raises the revision to 4, and leaves it there: block 1 becomes revision
5, and block 6 revision 10.  A fork at block 6 undoes all revisions from 6 on, and with them
blocks 2 to 5: they are not in the list any more. -/
theorem undone_below_fork :
    let w := run .lenient newWorld (startedBelow ++ [.result (bareResult ⟨6, 7⟩ 5 0)])
    Run.Guarded (exec .lenient) (fun w i ↦ ScanInput i ∧ FollowsHead 0 w i) newWorld
        (startedBelow ++ [.result (bareResult ⟨6, 7⟩ 5 0)]) ∧
      OnFork w 3 3 ∧ w.proc.irreversible < 3 ∧ 3 ≤ w.proc.head ∧
      w.db.current.receivedBlocks.find? 3 = none := by
  refine ⟨by decide, ⟨by decide, ⟨6, 7, 0, 0⟩, by decide, by decide⟩, by decide, by decide,
    by decide⟩

end Chronicle
