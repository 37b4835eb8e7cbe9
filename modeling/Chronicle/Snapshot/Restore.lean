import Chronicle.Model.Snapshot
import Chronicle.Store.Loader
import Chronicle.Logic.Effect

/-!
# Restoring a snapshot

`read_snapshot` creates the rows of a file in the database as it reads them, in no undo
session.  The database is a `RowStore` of its objects (`storedObjects`), and reading the
rows is loading the objects in front of the end marker into it (`readRows_result`): if
something fails on the way, the objects created before stay.

Hence a restore is all or nothing exactly if it is refused before the first row, if
already the first row fails, or if the file is whole and the database without any row
(`restores_all_or_nothing_iff`).
-/

namespace Chronicle

open Store Effect
open scoped List

/-! ## The objects of a database -/

/-- The keys that are unique in their index. -/
inductive ObjectKey where
  | block (blockIndex : Nat)
  | abi (account : Name)
  | revision (account : Name) (blockIndex : Nat)
deriving DecidableEq

/-- The key of an object; there can be any number of state objects. -/
def PortableObject.key? : PortableObject → Option ObjectKey
  | .state _ => none
  | .receivedBlock blockIndex _ => some (.block blockIndex)
  | .contractAbi account _ => some (.abi account)
  | .contractAbiHistory account blockIndex _ => some (.revision account blockIndex)

def PortableObject.isState : PortableObject → Bool
  | .state _ => true
  | _ => false

namespace StoredTables

/-- All objects of a database. -/
def objects (t : StoredTables) : List PortableObject :=
  t.states.map .state ++ t.receivedBlocks.rows.map (fun r ↦ .receivedBlock r.1 r.2) ++
    t.contractAbi.rows.map (fun r ↦ .contractAbi r.1 r.2) ++
    t.contractAbiHistory.rows.map fun r ↦ .contractAbiHistory (ofLex r.1).1 (ofLex r.1).2 r.2

/-- The index of the key has a row for it. -/
def Has (t : StoredTables) : ObjectKey → Prop
  | .block blockIndex => (t.receivedBlocks.find? blockIndex).isSome
  | .abi account => (t.contractAbi.find? account).isSome
  | .revision account blockIndex =>
    (t.contractAbiHistory.find? (toLex (account, blockIndex))).isSome

theorem mem_keys {t : StoredTables} {k : ObjectKey} :
    k ∈ t.objects.filterMap PortableObject.key? ↔ t.Has k := by
  cases k with
  | block n =>
      rw [Has, ← Table.exists_mem_rows]
      simp [objects, PortableObject.key?]
  | abi a =>
      rw [Has, ← Table.exists_mem_rows]
      simp [objects, PortableObject.key?]
  | revision a n =>
      rw [Has, ← Table.exists_mem_rows]
      simp [objects, PortableObject.key?]

theorem create_eq_none {t : StoredTables} {o : PortableObject} :
    t.create o = none ↔ ∃ k, o.key? = some k ∧ t.Has k := by
  cases o <;> simp [create, PortableObject.key?, Has, Table.create_eq_none]

/-- A row that is added to one of several lists is added to all of them together. -/
theorem perm_append_cons {α : Type} {x : α} {b b' : List α} (a c : List α) (h : b' ~ x :: b) :
    a ++ b' ++ c ~ x :: (a ++ b ++ c) :=
  ((h.append_left a).trans List.perm_middle).append_right c

theorem objects_create {t t' : StoredTables} {o : PortableObject} (h : t.create o = some t') :
    t'.objects ~ o :: t.objects := by
  unfold objects
  cases o with
  | state entry =>
      obtain rfl := Option.some.inj h
      have hs : (t.states ++ [entry]).map PortableObject.state ~
          .state entry :: t.states.map .state := by
        rw [List.map_append]
        exact List.perm_append_singleton ..
      exact ((hs.append_right _).append_right _).append_right _
  | receivedBlock n id =>
      obtain ⟨rows, hrows, rfl⟩ := Option.map_eq_some_iff.mp h
      exact (perm_append_cons _ _ ((Table.rows_create hrows).map _)).append_right _
  | contractAbi a abi =>
      obtain ⟨rows, hrows, rfl⟩ := Option.map_eq_some_iff.mp h
      exact perm_append_cons _ _ ((Table.rows_create hrows).map _)
  | contractAbiHistory a n abi =>
      obtain ⟨rows, hrows, rfl⟩ := Option.map_eq_some_iff.mp h
      exact (((Table.rows_create hrows).map _).append_left _).trans List.perm_middle

end StoredTables

/-- The database as a store of objects. -/
def storedObjects : RowStore PortableObject ObjectKey StoredTables where
  key? := PortableObject.key?
  contents := StoredTables.objects
  create o t := t.create o
  create_eq_none := by
    intro o t
    rw [StoredTables.create_eq_none]
    exact exists_congr fun k ↦ and_congr_right fun _ ↦ StoredTables.mem_keys.symm
  contents_create := StoredTables.objects_create

/-! ## The rows of a file -/

/-- The objects in front of the first row that is not one. -/
def streamObjects : List (Parsed PortableRow) → List PortableObject
  | .ok (.object o) :: rest => o :: streamObjects rest
  | _ => []

/-- The first row that is not an object is the end marker. -/
def StreamEnds : List (Parsed PortableRow) → Prop
  | .ok (.object _) :: rest => StreamEnds rest
  | .ok (.streamEnd magicNumber) :: _ => magicNumber = PortableState.magicNumber
  | _ => False

theorem createObject_none {o : PortableObject} {db : StoredTables} (h : db.create o = none) :
    createObject o db =
      .error "could not insert object, most likely a uniqueness constraint was violated" db := by
  have hget : (get : SnapshotReader StoredTables) db = .ok db db := rfl
  rw [createObject, bind_run hget, h]
  rfl

theorem createObject_some {o : PortableObject} {db t : StoredTables} (h : db.create o = some t) :
    createObject o db = .ok () t := by
  have hget : (get : SnapshotReader StoredTables) db = .ok db db := rfl
  rw [createObject, bind_run hget, h]
  rfl

theorem readRows_object (endOfFile : String) (o : PortableObject)
    (rest : List (Parsed PortableRow)) (db : StoredTables) :
    readRows endOfFile (.ok (.object o) :: rest) db =
      match db.create o with
      | none =>
        .error "could not insert object, most likely a uniqueness constraint was violated" db
      | some t => readRows endOfFile rest t := by
  have hunpack : unpack (.ok (PortableRow.object o)) db = .ok (.object o) db := rfl
  rw [readRows, bind_run hunpack]
  cases h : db.create o with
  | none => exact bind_run_error (bind_run_error (createObject_none h))
  | some t =>
      have hrow : readRow (.object o) db = .ok false t := bind_run (createObject_some h)
      exact bind_run hrow

/-- The rows are read as the objects in front of the first other row are created; they are
read without an exception if all can be created and the end marker follows. -/
theorem readRows_result (endOfFile : String) (rows : List (Parsed PortableRow))
    (db : StoredTables) :
    let created := storedObjects.createAll (streamObjects rows) db
    match readRows endOfFile rows db with
    | .ok _ db' => (created.1 = true ∧ StreamEnds rows) ∧ db' = created.2
    | .error _ db' => ¬(created.1 = true ∧ StreamEnds rows) ∧ db' = created.2 := by
  induction rows generalizing db with
  | nil => exact ⟨fun h ↦ h.2, rfl⟩
  | cons row rest ih =>
      match row with
      | .error what => exact ⟨fun h ↦ h.2, rfl⟩
      | .ok (.streamEnd magicNumber) =>
          by_cases h : magicNumber = PortableState.magicNumber
          · rw [h]
            exact ⟨⟨rfl, rfl⟩, rfl⟩
          · have hread : readRows endOfFile (.ok (.streamEnd magicNumber) :: rest) db =
                .error "Invalid magic number at rthe end of the stream. Aborting" db := by
              change EStateM.bind (if _ then _ else _) _ db = _
              rw [if_neg h]
              rfl
            rw [hread]
            exact ⟨fun hg ↦ h hg.2, rfl⟩
      | .ok (.object o) =>
          rw [readRows_object, streamObjects, RowStore.createAll]
          have hcreate : storedObjects.create o db = db.create o := rfl
          rw [hcreate]
          cases db.create o with
          | none => exact ⟨fun h ↦ Bool.false_ne_true h.1, rfl⟩
          | some t => exact ih t

/-! ## All or nothing -/

/-- What is asked of a restore: after an exception the database is as before, and otherwise
it holds one state object, and the objects of the stream and no others. -/
def RestoresAllOrNothing (file : SnapshotFile) (db : StoredTables) : Prop :=
  match readSnapshot file db with
  | .ok _ db' => db'.states.length = 1 ∧ db'.objects ~ streamObjects file.rows
  | .error _ db' => db' = db

/-- A file that is read up to its rows. -/
structure Admitted (file : SnapshotFile) (db : StoredTables) : Prop where
  magicNumber : file.magicNumber = PortableState.magicNumber
  version : ∃ v, file.version = .ok v ∧ PortableState.minVersionSupported ≤ v.formatVersion ∧
    v.formatVersion ≤ PortableState.maxVersionSupported
  states : db.states = []

/-- Already the first row fails. -/
def FailsAtOnce (db : StoredTables) : List (Parsed PortableRow) → Prop
  | .ok (.object o) :: _ => ∃ k, o.key? = some k ∧ db.Has k
  | .ok (.streamEnd magicNumber) :: _ => magicNumber ≠ PortableState.magicNumber
  | _ => True

/-- A whole stream, for a database that is empty. -/
structure Whole (rows : List (Parsed PortableRow)) (db : StoredTables) : Prop where
  ends : StreamEnds rows
  oneState : (streamObjects rows).countP PortableObject.isState = 1
  keys : ((streamObjects rows).filterMap PortableObject.key?).Nodup
  empty : db.objects = []

theorem countP_isState (t : StoredTables) :
    t.objects.countP PortableObject.isState = t.states.length := by
  have hblock : PortableObject.isState ∘ (fun r : Nat × Checksum256 ↦ .receivedBlock r.1 r.2) =
      fun _ ↦ false := rfl
  have habi : PortableObject.isState ∘ (fun r : Name × Bytes ↦ .contractAbi r.1 r.2) =
      fun _ ↦ false := rfl
  have hrevision : PortableObject.isState ∘ (fun r : (Name ×ₗ Nat) × Bytes ↦
      .contractAbiHistory (ofLex r.1).1 (ofLex r.1).2 r.2) = fun _ ↦ false := rfl
  have hstate : PortableObject.isState ∘ PortableObject.state = fun _ ↦ true := rfl
  simp only [StoredTables.objects, List.countP_append, List.countP_map, hblock, habi, hrevision,
    hstate, List.countP_true, List.countP_false, Function.const_apply, Nat.add_zero]

theorem readSnapshot_eq (file : SnapshotFile) (db : StoredTables) :
    readSnapshot file db =
      if file.magicNumber ≠ PortableState.magicNumber then
        .error "Invalid snapshot file: wrong magic number" db
      else match file.version with
        | .error what => .error what db
        | .ok v =>
          if v.formatVersion < PortableState.minVersionSupported ∨
              PortableState.maxVersionSupported < v.formatVersion then
            .error "Unsupported snapshot format version" db
          else if db.states ≠ [] then
            .error "The chronicle database contains a valid state. Aborting" db
          else readRows file.endOfFile file.rows db := by
  unfold readSnapshot
  by_cases hmagic : file.magicNumber ≠ PortableState.magicNumber
  · rw [if_pos hmagic, if_pos hmagic]
    rfl
  rw [if_neg hmagic, if_neg hmagic]
  cases file.version with
  | error what => rfl
  | ok v =>
      have hunpack : unpack (.ok v) db = .ok v db := rfl
      have hget : (get : SnapshotReader StoredTables) db = .ok db db := rfl
      dsimp only
      rw [bind_run hunpack]
      by_cases hversion : v.formatVersion < PortableState.minVersionSupported ∨
          PortableState.maxVersionSupported < v.formatVersion
      · rw [if_pos hversion, if_pos hversion]
        rfl
      · rw [if_neg hversion, if_neg hversion, bind_run hget]
        by_cases hstates : db.states ≠ []
        · rw [if_pos hstates, if_pos hstates]
          rfl
        · rw [if_neg hstates, if_neg hstates]

/-- A file that is not admitted is refused, and the database stays as it is. -/
theorem readSnapshot_of_not_admitted {file : SnapshotFile} {db : StoredTables}
    (h : ¬Admitted file db) : ∃ what, readSnapshot file db = .error what db := by
  rw [readSnapshot_eq]
  by_cases hmagic : file.magicNumber ≠ PortableState.magicNumber
  · rw [if_pos hmagic]
    exact ⟨_, rfl⟩
  rw [if_neg hmagic]
  cases hversion : file.version with
  | error what => exact ⟨what, rfl⟩
  | ok v =>
      dsimp only
      split_ifs with hbounds hstates
      · exact ⟨_, rfl⟩
      · exact ⟨_, rfl⟩
      · rw [not_or, not_lt, not_lt] at hbounds
        exact absurd ⟨not_not.mp hmagic, ⟨v, hversion, hbounds⟩, not_not.mp hstates⟩ h

theorem readSnapshot_of_admitted {file : SnapshotFile} {db : StoredTables}
    (h : Admitted file db) : readSnapshot file db = readRows file.endOfFile file.rows db := by
  obtain ⟨v, hv, hmin, hmax⟩ := h.version
  rw [readSnapshot_eq, if_neg (not_not_intro h.magicNumber), hv]
  dsimp only
  rw [if_neg (not_or.mpr ⟨not_lt.mpr hmin, not_lt.mpr hmax⟩), if_neg (not_not_intro h.states)]

/-- A stream is whole exactly if reading it into an empty database gives one state. -/
theorem whole_iff {rows : List (Parsed PortableRow)} {db : StoredTables} :
    Whole rows db ↔ (storedObjects.Fresh (streamObjects rows) db ∧ StreamEnds rows) ∧
      (streamObjects rows).countP PortableObject.isState = 1 ∧ db.objects = [] := by
  constructor
  · rintro ⟨hends, hone, hkeys, hempty⟩
    refine ⟨⟨⟨hkeys, fun k _ hin ↦ ?_⟩, hends⟩, hone, hempty⟩
    have hnone : storedObjects.keys (storedObjects.contents db) = [] := by
      rw [show storedObjects.contents db = [] from hempty]
      rfl
    rw [hnone] at hin
    exact List.not_mem_nil hin
  · rintro ⟨⟨hfresh, hends⟩, hone, hempty⟩
    exact ⟨hends, hone, hfresh.1, hempty⟩

/-- Nothing fails at once in a stream that can be read. -/
theorem not_failsAtOnce {rows : List (Parsed PortableRow)} {db : StoredTables}
    (hf : storedObjects.Fresh (streamObjects rows) db) (he : StreamEnds rows) :
    ¬FailsAtOnce db rows := by
  match rows, hf, he with
  | .ok (.streamEnd _) :: _, _, he => exact fun h ↦ h he
  | .ok (.object o) :: rest, hf, _ =>
      rintro ⟨k, hk, hhas⟩
      refine hf.2 k ?_ (StoredTables.mem_keys.mpr hhas)
      rw [streamObjects, storedObjects.keys_cons_some _ hk]
      exact List.mem_cons_self

/-- A stream that cannot be read leaves the database as it is if it fails at once. -/
theorem failsAtOnce_iff {rows : List (Parsed PortableRow)} {db : StoredTables}
    (h : ¬((storedObjects.createAll (streamObjects rows) db).1 = true ∧ StreamEnds rows)) :
    FailsAtOnce db rows ↔ (storedObjects.createAll (streamObjects rows) db).2 = db := by
  rw [storedObjects.createAll_unchanged_iff]
  match rows, h with
  | [], _ => exact iff_of_true trivial fun _ ho ↦ nomatch ho
  | .error _ :: _, _ => exact iff_of_true trivial fun _ ho ↦ nomatch ho
  | .ok (.streamEnd _) :: _, h => 
      exact iff_of_true (fun he ↦ h ⟨rfl, he⟩) fun _ ho ↦ nomatch ho
  | .ok (.object o) :: rest, _ =>
      rw [FailsAtOnce, ← StoredTables.create_eq_none, streamObjects, List.head?_cons]
      exact ⟨fun hnone o' ho ↦ by cases ho; exact hnone, fun hall ↦ hall o rfl⟩

/-- A restore is all or nothing exactly if the file is refused, already its first row fails,
or it is whole and the database empty. -/
theorem restores_all_or_nothing_iff (file : SnapshotFile) (db : StoredTables) :
    RestoresAllOrNothing file db ↔
      (Admitted file db → FailsAtOnce db file.rows ∨ Whole file.rows db) := by
  by_cases hadm : Admitted file db
  · have hresult := readRows_result file.endOfFile file.rows db
    rw [RestoresAllOrNothing, readSnapshot_of_admitted hadm, whole_iff,
      ← storedObjects.createAll_fst_iff, forall_prop_of_true hadm]
    cases hread : readRows file.endOfFile file.rows db with
    | error what db' =>
        rw [hread] at hresult
        obtain ⟨hnot, rfl⟩ := hresult
        exact (failsAtOnce_iff hnot).symm.trans (or_iff_left fun hw ↦ hnot hw.1).symm
    | ok _ db' =>
        rw [hread] at hresult
        obtain ⟨hgood, rfl⟩ := hresult
        have hfresh := storedObjects.createAll_fst_iff.mp hgood.1
        have hperm : (storedObjects.createAll (streamObjects file.rows) db).2.objects ~
            streamObjects file.rows ++ db.objects := storedObjects.contents_createAll hgood.1
        rw [or_iff_right (not_failsAtOnce hfresh hgood.2), and_iff_right hgood]
        have hcount : (storedObjects.createAll (streamObjects file.rows) db).2.states.length =
            (streamObjects file.rows).countP PortableObject.isState := by
          rw [← countP_isState, hperm.countP_eq, List.countP_append, countP_isState db,
            hadm.states]
          rfl
        change _ = 1 ∧ _ ↔ _
        rw [hcount]
        refine and_congr_right fun _ ↦ ⟨fun hall ↦ ?_, fun hempty ↦ ?_⟩
        · have hlen := (hperm.symm.trans hall).length_eq
          rw [List.length_append] at hlen
          exact List.eq_nil_of_length_eq_zero (Nat.left_eq_add.mp hlen.symm)
        · refine hperm.trans ?_
          rw [hempty, List.append_nil]
  · obtain ⟨what, hread⟩ := readSnapshot_of_not_admitted hadm
    rw [RestoresAllOrNothing, hread]
    exact iff_of_true rfl fun h ↦ absurd h hadm

/-! ## A truncated file -/

/-- A file that ends after its state object. -/
def truncatedFile : SnapshotFile where
  magicNumber := PortableState.magicNumber
  version := .ok ⟨PortableState.currentVersion, ""⟩
  rows := [.ok (.object (.state ⟨10, 10, 7, 7⟩))]
  endOfFile := "read past the end"

/-- The state object of a truncated file stays in an empty database. -/
theorem truncated_state_stays : ¬∀ file db, RestoresAllOrNothing file db := by
  intro h
  have hstates : ([⟨10, 10, 7, 7⟩] : List StateObject) = [] :=
    congrArg StoredTables.states (h truncatedFile ∅)
  cases hstates

/-- After such a failure every further restore is refused. -/
theorem readSnapshot_of_state {file : SnapshotFile} {db : StoredTables} (h : db.states ≠ []) :
    ∃ what, readSnapshot file db = .error what db :=
  readSnapshot_of_not_admitted fun hadm ↦ h hadm.states

end Chronicle
