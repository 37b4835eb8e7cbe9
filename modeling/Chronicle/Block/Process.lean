import Chronicle.Block.Cache

/-!
# Processing a block in scan mode

`processBlock` on a world whose head is the block already: `ProcessBlock` lists the four
ways in which it ends, with the database and the record of each.  A failure before the
undo session is pushed leaves the database as it was; a failure after it leaves the block
in the database.
-/

namespace Chronicle

open Store Effect

variable {Abi : Type} (lib : Abieos Abi)

/-! ## The undo session -/

/-- The number of the block is free in the list of received ones. -/
def Tables.Free (t : Tables) (block : BlockPosition) (irreversible : Nat) : Prop :=
  irreversible < block.blockNum → t.receivedBlocks.find? block.blockNum = none

/-- The loop that truncates the list is a filter, if there is a row it does not remove. -/
theorem truncateRows_rows {irreversible : Nat} {t : Table Nat Checksum256} {k : Nat}
    (hk : irreversible ≤ k) (hin : (t.find? k).isSome) :
    truncateRows irreversible t.rows t = some (t.filter fun k _ ↦ irreversible ≤ k) := by
  obtain ⟨rows, sorted⟩ := t
  obtain ⟨id, hid⟩ := Option.isSome_iff_exists.mp hin
  have hmem : (k, id) ∈ rows := Table.mem_rows.mpr hid
  clear hin hid
  induction rows with
  | nil => cases hmem
  | cons row rest ih =>
      obtain ⟨hhd, htl⟩ := List.pairwise_cons.mp sorted
      rw [truncateRows]
      split_ifs with hlt
      · have hne : ∀ r ∈ rest, r.1 ≠ row.1 := fun r hr ↦ (hhd r hr).ne'
        have hrest : (k, id) ∈ rest := by
          rcases List.mem_cons.mp hmem with rfl | h
          · exact absurd hlt (not_lt.mpr hk)
          · exact h
        have herase : Table.erase ⟨row :: rest, sorted⟩ row.1 = ⟨rest, htl⟩ := by
          refine (Table.mk.injEq ..).mpr ?_
          simp only [List.filter_cons, ne_eq, not_true_eq_false, decide_false, Bool.false_eq_true,
            if_false]
          exact List.filter_eq_self.mpr fun r hr ↦ by simpa using hne r hr
        rw [herase, ih htl hrest]
        refine congrArg some ((Table.mk.injEq ..).mpr ?_)
        rw [List.filter_cons_of_neg (by simpa using hlt)]
      · refine congrArg some ((Table.mk.injEq ..).mpr (List.filter_eq_self.mpr ?_).symm)
        intro r hr
        rcases List.mem_cons.mp hr with rfl | hr
        · simpa using hlt
        · simpa using (not_lt.mp hlt).trans (hhd r hr).le

section Session

variable {w₀ : World Abi} {t : Tables}

/-- `create` on the list of received blocks: its key is unique. -/
theorem reads_createReceivedBlock (block : BlockPosition) :
    Reads (CoherentAt lib w₀) t (createReceivedBlock block)
      { t with receivedBlocks := t.receivedBlocks.insert block.blockNum block.blockId }
      (t.receivedBlocks.find? block.blockNum = none) := by
  refine Reads.get_bind fun w hw ↦ ?_
  rw [hw.1.2]
  have hthrow : ∀ what, Reads (CoherentAt lib w₀) t (throw (.exception what)) t False :=
    fun _ ↦ Reads.throw
  have hnew : Reads (CoherentAt lib w₀) t
      (modifyTables fun t ↦
        { t with receivedBlocks := t.receivedBlocks.insert block.blockNum block.blockId })
      { t with receivedBlocks := t.receivedBlocks.insert block.blockNum block.blockId } True :=
    Reads.returns (returns_modifyTables_coherent lib rfl)
  exact (Reads.ite_bind (hthrow _) hnew).iff (by simp)

/-- The list is truncated while it still holds the new block. -/
theorem returns_truncateReceivedBlocks {k : Nat} (hk : w₀.proc.irreversible ≤ k)
    (hin : (t.receivedBlocks.find? k).isSome) :
    Returns (CoherentAt lib w₀ t) truncateReceivedBlocks
      (CoherentAt lib w₀ { t with
        receivedBlocks := t.receivedBlocks.filter fun k _ ↦ w₀.proc.irreversible ≤ k }) := by
  refine Returns.get_bind fun w hw w' hw' ↦ ?_
  subst hw'
  have hirr : w'.proc.irreversible = w₀.proc.irreversible :=
    hw.1.1.member Proc.irreversible fun _ ↦ rfl
  rw [hw.1.2, hirr, truncateRows_rows hk hin]
  exact returns_modifyTables_coherent lib (f := fun t' ↦ { t' with
    receivedBlocks := t.receivedBlocks.filter fun k _ ↦ w₀.proc.irreversible ≤ k }) rfl w' hw

/-- A new block enters the list, unless its number is taken. -/
theorem reads_addReceivedBlock (block : BlockPosition) :
    Reads (CoherentAt lib w₀) t (addReceivedBlock block)
      (t.addReceived block w₀.proc.irreversible) (t.Free block w₀.proc.irreversible) := by
  refine Reads.get_bind fun w hw ↦ ?_
  have hirr : w.proc.irreversible = w₀.proc.irreversible :=
    hw.1.1.member Proc.irreversible fun _ ↦ rfl
  rw [hirr, Tables.addReceived, Tables.Free]
  split_ifs with hlt
  · refine ((reads_createReceivedBlock lib block).bind (Reads.returns ?_)).iff (by simp [hlt])
    exact returns_truncateReceivedBlocks lib hlt.le (by simp)
  · exact Reads.pure.iff (by simp [hlt])

/-- `receive_deltas` in scan mode. -/
theorem reads_receiveDeltasPart (hscan : w₀.options.interactiveMode = false)
    (result : GetBlocksResult) :
    Reads (CoherentAt lib w₀) t (receiveDeltasPart lib result)
      (t.setAbis lib w₀.proc.head result.accounts) (result.ReadableDeltas w₀.options) := by
  rw [receiveDeltasPart, GetBlocksResult.accounts, GetBlocksResult.ReadableDeltas]
  cases result.deltas with
  | none => exact Reads.pure.iff (by simp)
  | some bin =>
      have hdeltas := (coherentRule lib w₀).reads_receiveDeltas bin t
      rw [appliedAccounts, hscan] at hdeltas
      exact hdeltas.iff (by simp)

/-- The state object that a process saves. -/
def Proc.position (p : Proc Abi) : StateObject :=
  { head := p.head, headId := p.headId, irreversible := p.irreversible,
    irreversibleId := p.irreversibleId }

theorem returns_saveState :
    Returns (CoherentAt lib w₀ t) saveState
      (CoherentAt lib w₀ { t with state := some w₀.proc.position }) := by
  refine Returns.get_bind fun w hw w' hw' ↦ ?_
  subst hw'
  have hpos : w'.proc.position = w₀.proc.position := hw.1.1.member Proc.position fun _ ↦ rfl
  rw [← hpos]
  exact returns_modifyTables_coherent lib
    (f := fun t ↦ { t with state := some w'.proc.position }) rfl w' hw

/-- The head of the process is the block of a result. -/
def AtBlock (block : BlockPosition) (result : GetBlocksResult) (w : World Abi) : Prop :=
  w.proc.position = stateOf block result

/-- The changes of a block inside the undo session. -/
theorem reads_session {block : BlockPosition} {result : GetBlocksResult}
    (hscan : w₀.options.interactiveMode = false) (hat : AtBlock block result w₀) :
    Reads (CoherentAt lib w₀) t
      (do
        addReceivedBlock block
        receiveDeltasPart lib result
        saveState)
      (blockEffect lib block result t)
      (t.Free block result.lastIrreversible.blockNum ∧ result.ReadableDeltas w₀.options) := by
  have hirr : w₀.proc.irreversible = result.lastIrreversible.blockNum :=
    congrArg StateObject.irreversible hat
  have hhead : w₀.proc.head = block.blockNum := congrArg StateObject.head hat
  have hadd : Reads (CoherentAt lib w₀) t _ _ _ := reads_addReceivedBlock lib block
  rw [hirr] at hadd
  have hdeltas := reads_receiveDeltasPart lib (t := t.addReceived block
    result.lastIrreversible.blockNum) hscan result
  rw [hhead] at hdeltas
  have hsave : Reads (CoherentAt lib w₀) _ _ _ _ := Reads.returns (returns_saveState lib
    (t := (t.addReceived block result.lastIrreversible.blockNum).setAbis lib block.blockNum
      result.accounts))
  rw [hat] at hsave
  exact (hadd.bind (hdeltas.bind hsave)).iff (by simp)

end Session

/-- The database and the record after a block was stored. -/
structure Stored (block : BlockPosition) (result : GetBlocksResult) (w₀ w : World Abi) :
    Prop where
  options : w.options = w₀.options
  core : w.proc.core = w₀.proc.core
  cached : w.proc.Cached
  coherent : Coherent lib w₀.proc w₀.db.current → Coherent lib w.proc w.db.current
  db : w.db = (w₀.db.startUndoSession.modify (blockEffect lib block result)).commit
    (commitRev w₀.options w₀.proc)
  log : ∃ l, (∀ o ∈ l, o.Inside w₀.proc.head) ∧ w.log = w₀.log ++ l ++
    [.pushed (blockEffect lib block result w₀.db.current),
      .committed (commitRev w₀.options w₀.proc)]

/-- A block can be stored: its number is free, and its deltas can be unpacked. -/
def Storable (o : Options) (block : BlockPosition) (result : GetBlocksResult) (t : Tables) :
    Prop :=
  t.Free block result.lastIrreversible.blockNum ∧ result.ReadableDeltas o

/-- An undo session is kept when the program inside returns, and undone when it throws. -/
theorem withUndoSession_ends {m : Receiver Abi Unit} {w : World Abi} {Q : Unit → World Abi → Prop}
    {E : Abort → World Abi → Prop} (h : Ends Q E (m { w with db := w.db.startUndoSession })) :
    Ends (fun _ w' ↦ ∃ w₁, Q () w₁ ∧ w' = { w₁ with log := w₁.log ++ [.pushed w₁.db.current] })
      (fun e w' ↦ ∃ w₁, E e w₁ ∧ w' = { w₁ with db := w₁.db.undo }) (withUndoSession m w) := by
  rw [withUndoSession]
  cases hm : m { w with db := w.db.startUndoSession } with
  | ok _ w₁ =>
      rw [hm] at h
      exact ⟨w₁, h, rfl⟩
  | error e w₁ =>
      rw [hm] at h
      exact ⟨w₁, h, rfl⟩

/-- Nothing but the tables of a world within a block may differ from those at its start. -/
theorem WithinAt.db_eq {w₀ w : World Abi} {t : Tables} (h : WithinAt w₀ t w) :
    w.db = { w₀.db with current := t } := by
  obtain ⟨hin, rfl⟩ := h
  exact (Undo.mk.injEq ..).mpr ⟨hin.base, rfl, hin.stack⟩

/-- Within a block, with the database as it was. -/
def Beside (w₀ w : World Abi) : Prop := Within w₀ w ∧ w.db = w₀.db

/-- Within a block, with the database and the cache as they were: only events were
published. -/
def Announced (w₀ w : World Abi) : Prop := Beside w₀ w ∧ w.proc.SameCache w₀.proc

theorem Announced.refl {w : World Abi} (h : w.proc.Cached) : Announced w w :=
  ⟨⟨Within.refl h, rfl⟩, rfl, rfl⟩

/-- What storing a block leaves when it returns and when it throws. -/
theorem storeBlock_ends {block : BlockPosition} {result : GetBlocksResult} {w₀ w : World Abi}
    (hscan : w₀.options.interactiveMode = false) (hat : AtBlock block result w₀)
    (hann : Announced w₀ w) :
    Ends (fun _ w' ↦ Stored lib block result w₀ w' ∧
        Storable w₀.options block result w₀.db.current)
      (fun e w' ↦ (∃ what, e = .exception what) ∧ Beside w₀ w' ∧
        ¬ Storable w₀.options block result w₀.db.current)
      (storeBlock lib block result w) := by
  obtain ⟨⟨hw, hdb⟩, hcache⟩ := hann
  have hat' : AtBlock block result { w with db := w.db.startUndoSession } :=
    (hw.member Proc.position fun _ ↦ rfl).trans hat
  have hscan' : ({ w with db := w.db.startUndoSession } : World Abi).options.interactiveMode =
      false := hscan ▸ congrArg Options.interactiveMode hw.options
  have hsession := withUndoSession_ends <| reads_session lib (t := w₀.db.current) hscan' hat'
    { w with db := w.db.startUndoSession }
    ⟨⟨Within.refl hw.cached, (congrArg Undo.current hdb :)⟩, fun _ h ↦ hdb ▸ h⟩
  obtain ⟨l, hl, hlin⟩ := hw.log
  refine hsession.bind ?_ ?_
  · rintro _ _ ⟨w₁, ⟨⟨hin, hcoh⟩, hfree, hread⟩, rfl⟩
    obtain ⟨l', hl', hlin'⟩ := hin.1.log
    have hopt : w₁.options = w₀.options := hin.1.options.trans hw.options
    have hcore : w₁.proc.core = w₀.proc.core := hin.1.core.trans hw.core
    have hrev : commitRev w₁.options w₁.proc = commitRev w₀.options w₀.proc := by
      rw [hopt]
      exact (hin.1.member (commitRev _) fun _ ↦ rfl).trans (hw.member (commitRev _) fun _ ↦ rfl)
    refine ⟨⟨hopt, hcore, hin.1.cached, fun h ↦ ?_, ?_, l ++ l', ?_, ?_⟩, hfree,
      hw.options ▸ hread⟩
    · have hcur := hcoh hscan' ((h.congr hcache (by rw [hdb])) : Coherent lib w.proc w.db.current)
      rw [← hin.2] at hcur
      exact hcur
    · change w₁.db.commit (commitRev w₁.options w₁.proc) = _
      rw [hrev, hin.db_eq, hdb]
      rfl
    · intro o ho
      rcases List.mem_append.mp ho with ho | ho
      · exact hlin o ho
      · exact hw.head ▸ hlin' o ho
    · change (w₁.log ++ [.pushed w₁.db.current]) ++ [.committed (commitRev w₁.options w₁.proc)] = _
      rw [hrev, hin.2, hl', hl]
      simp
  · rintro e _ ⟨w₁, ⟨⟨what, rfl⟩, ⟨t, hin, -⟩, hfail⟩, rfl⟩
    obtain ⟨l', hl', hlin'⟩ := hin.1.log
    have hundo : w₁.db.undo = w₀.db := by
      rw [hin.db_eq, hdb]
      rfl
    refine ⟨⟨what, rfl⟩, ⟨?_, hundo⟩, fun hs ↦ hfail ⟨hs.1, hw.options ▸ hs.2⟩⟩
    refine hw.trans ⟨hin.1.options, hin.1.core, ?_, ?_, hin.1.cached, l', hl', hlin'⟩
    · exact congrArg Undo.base (hundo.trans hdb.symm)
    · exact congrArg Undo.stack (hundo.trans hdb.symm)

/-! ## The whole block -/

section Parts

variable {w₀ : World Abi}

theorem Reads.announced {m : Receiver Abi Unit} {R : Prop}
    (h : Reads (AnnouncedAt w₀) w₀.db.current m w₀.db.current R) :
    Triple (Announced w₀) m (fun _ w ↦ Announced w₀ w ∧ R)
      (fun e w ↦ (∃ what, e = .exception what) ∧ Announced w₀ w ∧ ¬ R) := by
  have hdb : ∀ {t w}, AnnouncedAt w₀ t w → Announced w₀ w := by
    rintro _ w ⟨rfl, hw, hcache⟩
    exact ⟨⟨hw.1, hw.db_eq⟩, hcache⟩
  refine Triple.mono h (fun w hw ↦ ⟨rfl, ⟨hw.1.1, congrArg Undo.current hw.1.2⟩, hw.2⟩)
    (fun _ w hw ↦ ⟨hdb hw.1, hw.2⟩) fun _ w hw ↦ ⟨hw.1, ?_, hw.2.2⟩
  obtain ⟨t, ht⟩ := hw.2.1
  exact hdb ht

theorem receiveBlockPart_triple (result : GetBlocksResult) :
    Triple (Announced w₀) (receiveBlockPart result)
      (fun _ w ↦ Announced w₀ w ∧ result.ReadableBlock)
      (fun e w ↦ (∃ what, e = .exception what) ∧ Announced w₀ w ∧ ¬ result.ReadableBlock) := by
  refine Reads.announced ?_
  rw [receiveBlockPart, GetBlocksResult.ReadableBlock]
  cases result.block with
  | none => exact Reads.pure.iff (by simp)
  | some bin => exact ((announcedRule w₀).reads_receiveBlock bin _).iff (by simp)

theorem receiveTracesPart_triple (result : GetBlocksResult) :
    Triple (Announced w₀) (receiveTracesPart result)
      (fun _ w ↦ Announced w₀ w ∧ result.ReadableTraces w₀.options)
      (fun e w ↦ (∃ what, e = .exception what) ∧ Announced w₀ w ∧
        ¬ result.ReadableTraces w₀.options) := by
  refine Reads.announced ?_
  rw [receiveTracesPart, GetBlocksResult.ReadableTraces]
  cases result.traces with
  | none => exact Reads.pure.iff (by simp)
  | some bin => exact ((announcedRule w₀).reads_receiveTraces bin _).iff (by simp)

end Parts

/-- A block that cannot be unpacked stops the receiver before it publishes anything. -/
theorem receiveBlockPart_unreadable {result : GetBlocksResult} (h : ¬ result.ReadableBlock)
    (w : World Abi) : ∃ what, receiveBlockPart result w = .error (.exception what) w := by
  rw [GetBlocksResult.ReadableBlock] at h
  push Not at h
  obtain ⟨bin, hbin, hbad⟩ := h
  rw [receiveBlockPart, hbin]
  cases bin with
  | error what => exact ⟨what, rfl⟩
  | ok block => exact absurd rfl hbad

/-- The ways in which a block ends that the head of the receiver was moved to. -/
inductive ProcessBlock (block : BlockPosition) (result : GetBlocksResult) (w₀ : World Abi) :
    EStateM.Result Abort (World Abi) Unit → Prop
  /-- The block cannot be unpacked, and nothing has happened yet. -/
  | unreadable {what : String} (hread : ¬ result.ReadableBlock) :
    ProcessBlock block result w₀ (.error (.exception what) w₀)
  /-- The deltas cannot be unpacked, or the block was there already. -/
  | failed {what : String} {w : World Abi} (hread : result.ReadableBlock)
      (hstore : ¬ Storable w₀.options block result w₀.db.current) (hw : Beside w₀ w) :
    ProcessBlock block result w₀ (.error (.exception what) w)
  /-- The traces cannot be unpacked; the block is in the database. -/
  | untraced {what : String} {w₁ w : World Abi} (hread : result.ReadableBlock)
      (hstore : Storable w₀.options block result w₀.db.current)
      (htraces : ¬ result.ReadableTraces w₀.options) (hstored : Stored lib block result w₀ w₁)
      (hw : Beside w₁ w) (hcache : w.proc.SameCache w₁.proc) :
    ProcessBlock block result w₀ (.error (.exception what) w)
  /-- The block is completed. -/
  | completed {w₁ w : World Abi} (hread : result.ReadableBlock)
      (hstore : Storable w₀.options block result w₀.db.current)
      (htraces : result.ReadableTraces w₀.options) (hstored : Stored lib block result w₀ w₁)
      (hw : Beside w₁ w) (hcache : w.proc.SameCache w₁.proc) :
    ProcessBlock block result w₀
      (.ok () { w with log := w.log ++ [.published (.blockCompleted (blockFinished w.proc))] })

theorem processBlock_cases {block : BlockPosition} {result : GetBlocksResult} {w₀ : World Abi}
    (hscan : w₀.options.interactiveMode = false) (hat : AtBlock block result w₀)
    (hc : w₀.proc.Cached) :
    ProcessBlock lib block result w₀ (processBlock lib block result w₀) := by
  by_cases hread : result.ReadableBlock
  swap
  · obtain ⟨what, hwhat⟩ := receiveBlockPart_unreadable hread w₀
    have hrun : processBlock lib block result w₀ = .error (.exception what) w₀ := by
      change EStateM.bind (receiveBlockPart result) _ w₀ = _
      rw [EStateM.bind, hwhat]
    rw [hrun]
    exact .unreadable hread
  have hblock := receiveBlockPart_triple result w₀ (Announced.refl hc)
  refine Ends.elim (Ends.bind_ok (a := w₀) rfl (hblock.bind ?_ ?_))
  swap
  · rintro _ _ ⟨-, -, hbad⟩
    exact absurd hread hbad
  rintro _ w ⟨hw, -⟩
  rw [hscan]
  refine (storeBlock_ends lib hscan hat hw).bind ?_ ?_
  swap
  · rintro _ w' ⟨⟨what, rfl⟩, hw', hbad⟩
    exact .failed hread hbad hw'
  rintro _ w₁ ⟨hstored, hstore⟩
  have htraces := receiveTracesPart_triple result w₁ (Announced.refl hstored.cached)
  rw [hstored.options] at htraces
  refine htraces.bind ?_ ?_
  · rintro _ w' ⟨hw', htr⟩
    exact .completed hread hstore htr hstored hw'.1 hw'.2
  · rintro _ w' ⟨⟨what, rfl⟩, hw', htr⟩
    exact .untraced hread hstore htr hstored hw'.1 hw'.2

end Chronicle
