import Chronicle.Snapshot.Restore
import Chronicle.Scan.Revisions
import Chronicle.Interactive.Lookup

/-!
# Saving and restoring

A written file is whole: restored into an empty database it gives back the state object,
the received blocks, the ABIs and their history, except for the empty rows of the history,
which are not written (`readSnapshot_written`).

An empty row marks the removal of an ABI.  A lookup that ended at one goes on to the next
row that is not empty, so the history is not preserved where such a row exists
(`snapshot_round_trip_iff`).
-/

namespace Chronicle

open Store Effect
open scoped List

variable {Abi : Type} (lib : Abieos Abi)

/-! ## Databases and their objects -/

namespace StoredTables

variable {t t' : StoredTables}

theorem mem_objects_state {entry : StateObject} : .state entry ∈ t.objects ↔ entry ∈ t.states := by
  simp [objects]

theorem mem_objects_receivedBlock {n : Nat} {id : Checksum256} :
    .receivedBlock n id ∈ t.objects ↔ t.receivedBlocks.find? n = some id := by
  rw [← Table.mem_rows]
  simp [objects]

theorem mem_objects_contractAbi {a : Name} {abi : Bytes} :
    .contractAbi a abi ∈ t.objects ↔ t.contractAbi.find? a = some abi := by
  rw [← Table.mem_rows]
  simp [objects]

theorem mem_objects_contractAbiHistory {a : Name} {n : Nat} {abi : Bytes} :
    .contractAbiHistory a n abi ∈ t.objects ↔
      t.contractAbiHistory.find? (toLex (a, n)) = some abi := by
  rw [← Table.mem_rows]
  simp [objects]

/-- A database is known from its objects, if there is only one state object. -/
theorem eq_of_objects_perm {entry : StateObject} (ht : t.states = [entry])
    (h : t'.objects ~ t.objects) : t' = t := by
  have hstates : t'.states = t.states := by
    have hlen : t'.states.length = 1 := by
      rw [← countP_isState, h.countP_eq, countP_isState, ht]
      rfl
    obtain ⟨entry', ht'⟩ := List.length_eq_one_iff.mp hlen
    have hmem : entry' ∈ t.states := by
      rw [← mem_objects_state, ← h.mem_iff, mem_objects_state, ht']
      exact List.mem_singleton_self _
    rw [ht, List.mem_singleton] at hmem
    rw [ht, ht', hmem]
  have hreceived : t'.receivedBlocks = t.receivedBlocks := by
    refine Table.ext_find? fun n ↦ Option.ext fun id ↦ ?_
    rw [← mem_objects_receivedBlock, h.mem_iff, mem_objects_receivedBlock]
  have habi : t'.contractAbi = t.contractAbi := by
    refine Table.ext_find? fun a ↦ Option.ext fun abi ↦ ?_
    rw [← mem_objects_contractAbi, h.mem_iff, mem_objects_contractAbi]
  have hhistory : t'.contractAbiHistory = t.contractAbiHistory := by
    refine Table.ext_find? fun k ↦ Option.ext fun abi ↦ ?_
    obtain ⟨a, n⟩ := k
    exact mem_objects_contractAbiHistory.symm.trans (h.mem_iff.trans mem_objects_contractAbiHistory)
  cases t
  cases t'
  exact (StoredTables.mk.injEq ..).mpr ⟨hstates, hreceived, habi, hhistory⟩

/-- The rows of a table have different keys. -/
theorem nodup_map_key {κ α β : Type} [LinearOrder κ] (t : Table κ α) {f : κ → β}
    (hf : Function.Injective f) : (t.rows.map fun r ↦ f r.1).Nodup := by
  refine List.pairwise_map.mpr (t.sorted.imp fun hlt heq ↦ ?_)
  exact absurd (hf heq) (ne_of_lt hlt)

theorem keys_eq (t : StoredTables) : t.objects.filterMap PortableObject.key? =
    t.receivedBlocks.rows.map (fun r ↦ .block r.1) ++ t.contractAbi.rows.map (fun r ↦ .abi r.1) ++
      t.contractAbiHistory.rows.map fun r ↦ .revision (ofLex r.1).1 (ofLex r.1).2 := by
  have hstates : t.states.filterMap (PortableObject.key? ∘ .state) = [] :=
    List.filterMap_eq_nil_iff.mpr fun _ _ ↦ rfl
  have hmap : ∀ {κ α : Type} {f : κ × α → PortableObject} {g : κ × α → ObjectKey}
      (l : List (κ × α)), (∀ r, (f r).key? = some (g r)) →
        l.filterMap (PortableObject.key? ∘ f) = l.map g := fun l hf ↦ by
    rw [← List.filterMap_eq_map]
    exact List.filterMap_congr fun r _ ↦ hf r
  simp only [objects, List.filterMap_append, List.filterMap_map, hstates, List.nil_append]
  rw [hmap _ fun _ ↦ rfl, hmap _ fun _ ↦ rfl, hmap _ fun _ ↦ rfl]

/-- No two objects of a database have the same key. -/
theorem keys_nodup (t : StoredTables) : (t.objects.filterMap PortableObject.key?).Nodup := by
  have hrevision : Function.Injective fun k : Name ×ₗ Nat ↦
      ObjectKey.revision (ofLex k).1 (ofLex k).2 := fun k k' h ↦ by
    obtain ⟨ha, hn⟩ := ObjectKey.revision.inj h
    exact ofLex_inj.mp (Prod.ext ha hn)
  rw [keys_eq, List.nodup_append, List.nodup_append]
  refine ⟨⟨nodup_map_key _ fun _ _ ↦ ObjectKey.block.inj,
    nodup_map_key _ fun _ _ ↦ ObjectKey.abi.inj, ?_⟩, nodup_map_key _ hrevision, ?_⟩
  · intro k hk k' hk' heq
    obtain ⟨r, -, rfl⟩ := List.mem_map.mp hk
    obtain ⟨r', -, rfl⟩ := List.mem_map.mp hk'
    cases heq
  · intro k hk k' hk' heq
    obtain ⟨r', -, rfl⟩ := List.mem_map.mp hk'
    rcases List.mem_append.mp hk with hk | hk
    · obtain ⟨r, -, rfl⟩ := List.mem_map.mp hk
      cases heq
    · obtain ⟨r, -, rfl⟩ := List.mem_map.mp hk
      cases heq

end StoredTables

/-! ## What is written -/

/-- The rows that `write_snapshot` writes of tables with a state object. -/
def writtenTables (t : Tables) (entry : StateObject) : StoredTables where
  states := [entry]
  receivedBlocks := t.receivedBlocks
  contractAbi := t.contractAbi.filter fun _ abi ↦ 0 < abi.length
  contractAbiHistory := t.contractAbiHistory.filter fun _ abi ↦ 0 < abi.length

/-- The file that `write_snapshot` writes of tables with a state object. -/
def writtenFile (versionString endOfFile : String) (t : Tables) (entry : StateObject) :
    SnapshotFile where
  magicNumber := PortableState.magicNumber
  version := .ok ⟨PortableState.currentVersion, versionString⟩
  rows := (writtenTables t entry).objects.map (fun o ↦ .ok (.object o)) ++
    [.ok (.streamEnd PortableState.magicNumber)]
  endOfFile

theorem writeSnapshot_eq {w : World Abi} {entry : StateObject}
    (hs : w.db.undoAll.current.state = some entry) (versionString endOfFile : String) :
    writeSnapshot versionString endOfFile w =
      .ok (writtenFile versionString endOfFile w.db.undoAll.current entry)
        { w with db := w.db.undoAll } := by
  have hrevert : revertUncommittedRevisions w =
      .ok w.db.stack.length { w with db := w.db.undoAll } := rfl
  have hget : (get : Receiver Abi (World Abi)) { w with db := w.db.undoAll } =
      .ok { w with db := w.db.undoAll } { w with db := w.db.undoAll } := rfl
  rw [writeSnapshot, bind_run hrevert, bind_run hget]
  simp only [hs]
  rfl

theorem streamObjects_written (l : List PortableObject) (rest : List (Parsed PortableRow))
    (magicNumber : Nat) :
    streamObjects
      (l.map (fun o ↦ .ok (.object o)) ++ .ok (.streamEnd magicNumber) :: rest) = l := by
  induction l with
  | nil => rfl
  | cons o l ih => exact congrArg (o :: ·) ih

theorem streamEnds_written (l : List PortableObject) (rest : List (Parsed PortableRow)) :
    StreamEnds (l.map (fun o ↦ .ok (.object o)) ++
      .ok (.streamEnd PortableState.magicNumber) :: rest) := by
  induction l with
  | nil => exact rfl
  | cons o l ih => exact ih

/-- A written file gives back the rows that were written. -/
theorem readSnapshot_written (versionString endOfFile : String) (t : Tables)
    (entry : StateObject) :
    readSnapshot (writtenFile versionString endOfFile t entry) ∅ =
      .ok () (writtenTables t entry) := by
  have hadm : Admitted (writtenFile versionString endOfFile t entry) ∅ :=
    ⟨rfl, ⟨_, rfl, le_rfl, le_rfl⟩, rfl⟩
  have hstream : streamObjects (writtenFile versionString endOfFile t entry).rows =
      (writtenTables t entry).objects := streamObjects_written ..
  have hcreated : (storedObjects.createAll (writtenTables t entry).objects ∅).1 = true :=
    storedObjects.createAll_fst_iff.mpr
      ⟨StoredTables.keys_nodup _, fun _ _ hin ↦ absurd hin List.not_mem_nil⟩
  have hread := readRows_result endOfFile (writtenFile versionString endOfFile t entry).rows ∅
  rw [readSnapshot_of_admitted hadm]
  change readRows endOfFile _ _ = _
  rw [hstream] at hread
  cases hr : readRows endOfFile (writtenFile versionString endOfFile t entry).rows ∅ with
  | error what db' =>
      rw [hr] at hread
      exact absurd ⟨hcreated, streamEnds_written ..⟩ hread.1
  | ok _ db' =>
      rw [hr] at hread
      have hperm := storedObjects.contents_createAll hcreated
      rw [← hread.2] at hperm
      rw [StoredTables.eq_of_objects_perm rfl
        (hperm.trans (.of_eq (List.append_nil _)) : db'.objects ~ _)]

/-! ## Answers -/

/-- The ABI that a lookup in the history selects for an account at block `h`; an empty row
stands for none. -/
def historicAbi (t : Tables) (account h : Nat) : Option Bytes :=
  ((lowerBoundRev t.contractAbiHistory account h).map Prod.snd).filter (· ≠ [])

/-- A database answers all questions in the way given tables do. -/
structure SameAnswers (t : Tables) (db : StoredTables) : Prop where
  state : db.states = t.state.toList
  receivedBlocks : db.receivedBlocks = t.receivedBlocks
  currentAbi : ∀ account, db.contractAbi.find? account = t.contractAbi.find? account
  history : ∀ entry, t.state = some entry → ∀ account, ∀ h ≤ entry.head,
    historicAbi db.tables account h = historicAbi t account h

/-- A snapshot of a database can be written, and restored into an empty one that then gives
the same answers. -/
def RoundTrips (versionString endOfFile : String) (w : World Abi) : Prop :=
  match writeSnapshot versionString endOfFile w with
  | .error _ _ => False
  | .ok file w' =>
    match readSnapshot file ∅ with
    | .error _ _ => False
    | .ok _ db => SameAnswers w'.db.current db

/-- No lookup of a block up to the head ends at an empty row with a row behind it that is
not empty. -/
def NoAbiBehindRemoval (t : Tables) (head : Nat) : Prop :=
  ∀ account, ∀ h ≤ head, ∀ row, lowerBoundRev t.contractAbiHistory account h = some row →
    row.2 = [] → ∀ row' ∈ t.contractAbiHistory.rows, revLE row row' → row'.2 = []

section History

variable {history : Table (Name ×ₗ Nat) Bytes} {account h : Nat}

/-- The rows from the one that a lookup ends at are those from its key. -/
theorem revLE_iff_of_lowerBoundRev {row row' : (Name ×ₗ Nat) × Bytes}
    (hrow : lowerBoundRev history account h = some row) (hmem : row' ∈ history.rows) :
    revLE (toLex (account, h), []) row' ↔ revLE row row' := by
  obtain ⟨-, hle, hleast⟩ := lowerBoundRev_spec hrow
  exact ⟨hleast row' hmem, fun h' ↦ IsTrans.trans _ _ _ hle h'⟩

/-- Rows with one place in the order of the index have one key. -/
theorem eq_of_revLE {x y : (Name ×ₗ Nat) × Bytes} (hxy : revLE x y) (hyx : revLE y x) :
    x.1 = y.1 := by
  refine ofLex_inj.mp (Prod.ext ?_ ?_)
  · rcases hxy with hlt | ⟨heq, -⟩
    · rcases hyx with hlt' | ⟨heq', -⟩
      · exact absurd hlt (lt_asymm hlt')
      · exact heq'.symm
    · exact heq
  · rcases hxy with hlt | ⟨heq, hle⟩
    · rcases hyx with hlt' | ⟨heq', -⟩
      · exact absurd hlt (lt_asymm hlt')
      · exact absurd heq'.symm (ne_of_lt hlt)
    · rcases hyx with hlt' | ⟨-, hle'⟩
      · exact absurd heq.symm (ne_of_lt hlt')
      · exact le_antisymm hle' hle

theorem lowerBoundRev_eq_none_iff : lowerBoundRev history account h = none ↔
    ∀ row ∈ history.rows, ¬revLE (toLex (account, h), []) row := by
  rw [lowerBoundRev_eq_none]
  exact ⟨fun hnone row hmem ↦ hnone _ _ row.2 (Table.mem_rows.mp hmem),
    fun hnone a k data hrow ↦ hnone _ (Table.mem_rows.mpr hrow)⟩

theorem mem_rows_filter {row : (Name ×ₗ Nat) × Bytes} :
    row ∈ (history.filter fun _ abi ↦ 0 < abi.length).rows ↔ row ∈ history.rows ∧ row.2 ≠ [] := by
  rw [Table.filter, List.mem_filter, decide_eq_true_iff, List.length_pos_iff]

/-- A row that is not empty is found without the empty ones as well. -/
theorem lowerBoundRev_filter {row : (Name ×ₗ Nat) × Bytes}
    (hrow : lowerBoundRev history account h = some row) (hne : row.2 ≠ []) :
    lowerBoundRev (history.filter fun _ abi ↦ 0 < abi.length) account h = some row := by
  obtain ⟨hmem, hle, hleast⟩ := lowerBoundRev_spec hrow
  have hmem' := mem_rows_filter.mpr ⟨hmem, hne⟩
  cases hf : lowerBoundRev (history.filter fun _ abi ↦ 0 < abi.length) account h with
  | none => exact absurd hle (lowerBoundRev_eq_none_iff.mp hf row hmem')
  | some row' =>
      obtain ⟨hin, hle', hleast'⟩ := lowerBoundRev_spec hf
      have hin' := (mem_rows_filter.mp hin).1
      have hkey : row.1 = row'.1 := eq_of_revLE (hleast row' hin' hle') (hleast' row hmem' hle)
      have hdata : row'.2 = row.2 := by
        have hfind := Table.mem_rows.mp hin'
        rw [← hkey, Table.mem_rows.mp hmem] at hfind
        exact (Option.some.inj hfind).symm
      rw [Prod.ext hkey.symm hdata]

/-- Without its empty rows, the history gives the same answer exactly if behind the row that
the lookup ends at, if it is empty, there are only empty ones. -/
theorem lookup_filter_iff :
    ((lowerBoundRev (history.filter fun _ abi ↦ 0 < abi.length) account h).map
        Prod.snd).filter (· ≠ []) =
      ((lowerBoundRev history account h).map Prod.snd).filter (· ≠ []) ↔
    ∀ row, lowerBoundRev history account h = some row → row.2 = [] →
      ∀ row' ∈ history.rows, revLE row row' → row'.2 = [] := by
  cases hf : lowerBoundRev history account h with
  | none =>
      have hf' : lowerBoundRev (history.filter fun _ abi ↦ 0 < abi.length) account h = none :=
        lowerBoundRev_eq_none_iff.mpr fun row hmem ↦
          lowerBoundRev_eq_none_iff.mp hf row (mem_rows_filter.mp hmem).1
      rw [hf']
      exact iff_of_true rfl fun _ h ↦ nomatch h
  | some row =>
      by_cases hempty : row.2 = []
      · have hnone : ((some row).map Prod.snd).filter (· ≠ []) = none := by simp [hempty]
        have hbehind : (∀ row₁, some row = some row₁ → row₁.2 = [] →
            ∀ row' ∈ history.rows, revLE row₁ row' → row'.2 = []) ↔
            ∀ row' ∈ history.rows, revLE row row' → row'.2 = [] :=
          ⟨fun hall ↦ hall row rfl hempty, fun hall row₁ h₁ _ ↦ Option.some.inj h₁ ▸ hall⟩
        rw [hnone, hbehind]
        cases hf' : lowerBoundRev (history.filter fun _ abi ↦ 0 < abi.length) account h with
        | none =>
            refine iff_of_true rfl fun row' hmem hle ↦ ?_
            by_contra hne
            exact lowerBoundRev_eq_none_iff.mp hf' row' (mem_rows_filter.mpr ⟨hmem, hne⟩)
              ((revLE_iff_of_lowerBoundRev hf hmem).mpr hle)
        | some row' =>
            obtain ⟨hin, hle, -⟩ := lowerBoundRev_spec hf'
            obtain ⟨hmem, hne⟩ := mem_rows_filter.mp hin
            refine iff_of_false ?_ fun hall ↦
              hne (hall row' hmem ((revLE_iff_of_lowerBoundRev hf hmem).mp hle))
            simp [hne]
      · rw [lowerBoundRev_filter hf hempty]
        exact iff_of_true rfl fun row' h' he ↦ absurd (Option.some.inj h' ▸ he) hempty

end History

/-! ## Written databases -/

/-- No current ABI is empty. -/
def NoEmptyAbi (t : Tables) : Prop := ∀ account, t.contractAbi.find? account ≠ some []

/-- A snapshot gives the same answers exactly if no lookup of a block up to the head ends at
the mark of a removal with an ABI behind it. -/
theorem roundTrips_iff {w : World Abi} {entry : StateObject}
    (hs : w.db.undoAll.current.state = some entry) (habi : NoEmptyAbi w.db.undoAll.current)
    (versionString endOfFile : String) :
    RoundTrips versionString endOfFile w ↔
      NoAbiBehindRemoval w.db.undoAll.current entry.head := by
  rw [RoundTrips, writeSnapshot_eq hs]
  dsimp only
  rw [readSnapshot_written]
  constructor
  · intro hsame account h hle
    exact lookup_filter_iff.mp (hsame.history entry hs account h hle)
  · intro hno
    refine ⟨?_, rfl, fun account ↦ ?_, fun entry' hs' account h hle ↦ ?_⟩
    · rw [hs]
      rfl
    · change (Table.filter _ _).find? account = _
      rw [Table.find?_filter]
      cases hf : w.db.undoAll.current.contractAbi.find? account with
      | none => rfl
      | some abi =>
          have hne : abi ≠ [] := fun hnil ↦ habi account (hnil ▸ hf)
          simp [List.length_pos_iff, hne]
    · obtain rfl : entry = entry' := Option.some.inj (hs.symm.trans hs')
      exact lookup_filter_iff.mpr (hno account h hle)

/-! ## Runs -/

variable {lib} in
theorem NoEmptyAbi.setAbi {t : Tables} (ht : NoEmptyAbi t) (h : Nat) (acc : AccountV0) :
    NoEmptyAbi (t.setAbi lib h acc) := by
  intro account
  rw [Tables.setAbi]
  split_ifs with hempty
  · rw [Tables.clearAbi]
    split_ifs
    · change (t.contractAbi.erase acc.name).find? account ≠ some []
      rw [Table.find?_erase]
      split_ifs
      · exact (Option.some_ne_none _).symm
      · exact ht account
    · exact ht account
  · rw [Tables.saveAbi]
    split_ifs
    · change (t.contractAbi.insert acc.name acc.abi).find? account ≠ some []
      rw [Table.find?_insert]
      split_ifs
      · exact fun heq ↦ hempty (Option.some.inj heq)
      · exact ht account
    · exact ht account

variable {lib} in
theorem NoEmptyAbi.setAbis {t : Tables} (ht : NoEmptyAbi t) (h : Nat)
    (accounts : List AccountV0) : NoEmptyAbi (t.setAbis lib h accounts) := by
  induction accounts generalizing t with
  | nil => exact ht
  | cons acc accounts ih => exact ih (ht.setAbi h acc)

/-- Scan mode never stores an empty current ABI. -/
theorem NoEmptyAbi.exec {w : World Abi} {i : Input}
    (h : ∀ r t, w.db.at? r = some t → NoEmptyAbi t) (hscan : Scanning w) (hi : ScanInput i) :
    ∀ r t, (Chronicle.exec lib w i).db.at? r = some t → NoEmptyAbi t := by
  intro r t ht
  cases exec_at? lib hscan hi ht with
  | kept hat => exact h _ _ hat
  | @block d r t hd hat hbelow =>
      have hframe := Tables.addReceived_frame d.1 d.2.lastIrreversible.blockNum t
      have hadd : NoEmptyAbi (t.addReceived d.1 d.2.lastIrreversible.blockNum) := by
        rw [NoEmptyAbi, hframe.1]
        exact h _ _ hat
      exact hadd.setAbis d.1.blockNum d.2.accounts

/-- The tables that are written have no empty current ABI. -/
theorem noEmptyAbi_committed {inputs : List Input}
    (hrun : Run.Guarded (exec lib) (fun _ i ↦ ScanInput i) newWorld inputs) :
    NoEmptyAbi (run lib newWorld inputs).db.undoAll.current := by
  have hinv := hrun.invariant
    (I := fun w ↦ Scanning w ∧ ∀ r t, w.db.at? r = some t → NoEmptyAbi t)
    (fun w i h hi ↦ ⟨h.1.exec lib hi, NoEmptyAbi.exec lib h.2 h.1 hi⟩)
    ⟨scanning_newWorld, fun r t ht account ↦ by
      rw [(Undo.at?_mk_nil ht).2]
      exact (Option.some_ne_none _).symm⟩
  exact hinv.2 _ _ (Undo.at?_base _)

variable {lib} in
/-- After every run of scan mode that has left a committed state: the snapshot can be written
and restored, and gives the same answers exactly if no lookup of a block up to the head ends at
the mark of a removal with an ABI behind it. -/
theorem snapshot_round_trip_iff {inputs : List Input}
    (hrun : Run.Guarded (exec lib) (fun _ i ↦ ScanInput i) newWorld inputs)
    {w : World Abi} (hw : w = run lib newWorld inputs) {entry : StateObject}
    (hs : w.db.undoAll.current.state = some entry) (versionString endOfFile : String) :
    RoundTrips versionString endOfFile w ↔
      NoAbiBehindRemoval w.db.undoAll.current entry.head := by
  subst hw
  exact roundTrips_iff hs (noEmptyAbi_committed lib hrun) versionString endOfFile

/-- An account sets an ABI in block 1, and other bytes in block 2, both irreversible. -/
def committedAbis (first second : Bytes) : List Input :=
  [.start {}, .ready 0, .result (abiResult ⟨1, 1⟩ 0 1 [⟨5, first⟩]),
    .result (abiResult ⟨2, 2⟩ 1 2 [⟨5, second⟩])]

set_option maxRecDepth 10000 in
/-- The ABI was replaced: the restored database gives the same answers. -/
theorem snapshot_round_trip_replaced :
    RoundTrips "" "" (run .tagged newWorld (committedAbis [1, 7] [1, 8])) := by
  have hrun : Run.Guarded (exec .tagged) (fun _ i ↦ ScanInput i) newWorld
      (committedAbis [1, 7] [1, 8]) := by decide
  have hs : (run .tagged newWorld (committedAbis [1, 7] [1, 8])).db.undoAll.current.state =
      some ⟨2, 2, 2, 0⟩ := by decide
  have hkept : ∀ row ∈ (run .tagged newWorld
      (committedAbis [1, 7] [1, 8])).db.undoAll.current.contractAbiHistory.rows, row.2 ≠ [] := by
    decide
  refine (snapshot_round_trip_iff hrun rfl hs "" "").mpr fun account h _ row hrow hempty ↦ ?_
  exact absurd hempty (hkept row (lowerBoundRev_spec hrow).1)

set_option maxRecDepth 10000 in
/-- The ABI was removed: the restored database has it again. -/
theorem snapshot_restores_removed_abi :
    ∃ (inputs : List Input) (w : World Bytes) (entry : StateObject),
      Run.Guarded (exec .tagged) (fun _ i ↦ ScanInput i) newWorld inputs ∧
      w = run .tagged newWorld inputs ∧ w.db.undoAll.current.state = some entry ∧
      ¬RoundTrips "" "" w := by
  have hrun : Run.Guarded (exec .tagged) (fun _ i ↦ ScanInput i) newWorld
      (committedAbis [1, 7] []) := by decide
  have hs : (run .tagged newWorld (committedAbis [1, 7] [])).db.undoAll.current.state =
      some ⟨2, 2, 2, 0⟩ := by decide
  refine ⟨committedAbis [1, 7] [], _, ⟨2, 2, 2, 0⟩, hrun, rfl, hs, fun h ↦ ?_⟩
  have hno := (roundTrips_iff hs (noEmptyAbi_committed .tagged hrun) "" "").mp h
  have hgone : ([1, 7] : Bytes) = [] := hno 5 2 le_rfl (toLex (5, 2), []) (by decide) rfl
    (toLex (5, 1), [1, 7]) (by decide) (.inr ⟨rfl, by decide⟩)
  cases hgone

end Chronicle
