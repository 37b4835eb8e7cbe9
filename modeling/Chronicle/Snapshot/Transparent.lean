import Chronicle.Consumer.Collected
import Chronicle.Snapshot.RoundTrip

/-!
# Scanning after a restore

A process that starts on a database restored from a snapshot tells of its results just what the
process tells that goes on with the original database.  The tables of the two stay the same but
for rows in the history of ABIs: the rows that mark the removal of an ABI are not in the snapshot.
-/

namespace Chronicle

open Store Effect

variable {Abi : Type} (lib : Abieos Abi)

/-! ## What is told, from the retained results -/

/-- What is retained after one more result. -/
def retain (ds : List Delivery) (d : Delivery) : List Delivery :=
  ds.filter (·.1.blockNum < d.1.blockNum) ++ [d]

/-- The retained results and the last heading after a result. -/
def chainNext (c : List Delivery × Heading) (d : Delivery) : List Delivery × Heading :=
  (retain c.1 d, d.2.remembered c.2)

/-- The events of a result, given the retained ones, for a process that started with the ABIs and
at the position. -/
def chainReport (o : Options) (abis : Table Name Bytes) (s : StateObject)
    (c : List Delivery × Heading) (d : Delivery) : List Event :=
  let head := (lastPosition s c.1).head
  (if d.2.lastIrreversible.blockNum < d.1.blockNum ∧ d.1.blockNum ≤ head then
    [networkFork d.1.blockNum d.2.lastIrreversible.blockNum head]
  else []) ++
    blockEvents lib o (stateOf d.1 d.2) (d.2.remembered c.2)
      ((c.1.filter (·.1.blockNum < d.1.blockNum)).foldl
        (fun abis d ↦ applyAbis lib abis d.2.accounts) abis) d.2

section Runs

variable {lib} {o : Options} {t : Tables} {s : StateObject} {w : World Abi} {ds : List Delivery}
  {r : Reporter} {inputs : List Input}

theorem retaining_exec (w : World Abi) (ds : List Delivery) (i : Input) :
    Retaining.exec lib ⟨w, ds⟩ i = ⟨exec lib w i, (delivered w i).toList.foldl retain ds⟩ := by
  rw [Retaining.exec]
  cases delivered w i <;> rfl

/-- A process tells, and makes of its tables, what the retained results determine. -/
theorem Retains.tells (h : Retains lib o t s ⟨w, ds⟩) (hreports : Reports lib o w r)
    (hrun : Run.Guarded (Chronicle.exec lib)
      (fun w i ↦ Steady i ∧ FollowsHead s.head w i ∧ Processed lib w i) w inputs) :
    told (run lib w inputs).log = told w.log ++
        emits chainNext (chainReport lib o t.contractAbi s) (ds, r.heading)
          (deliveries lib w inputs) ∧
      (run lib w inputs).db.current = effects lib t ((deliveries lib w inputs).foldl retain ds) := by
  induction inputs generalizing w ds r with
  | nil => exact ⟨(List.append_nil _).symm, h.db.current⟩
  | cons i inputs ih =>
      obtain ⟨⟨hi, hfollow, hp⟩, hrest⟩ := hrun
      have h' := h.exec lib hi hfollow hp
      obtain ⟨hreports', htold⟩ := hreports.exec hi.noStart hp
      rw [retaining_exec] at h'
      obtain ⟨hevents, htables⟩ := ih h' hreports' hrest
      rw [deliveries, emits_append, List.foldl_append]
      refine ⟨?_, htables⟩
      change told (run lib (Chronicle.exec lib w i) inputs).log = _
      rw [hevents, htold]
      cases hd : delivered w i with
      | none => rw [Option.toList_none, emits, emits, List.append_nil]; rfl
      | some d =>
          obtain ⟨hpos, hcur⟩ := placed_retained h hreports hd hfollow hp
          have hsame : r.report lib o d = chainReport lib o t.contractAbi s (ds, r.heading) d := by
            have hhead : r.scanner.position = lastPosition s ds :=
              hreports.follows.position.symm.trans hpos
            rw [Reporter.report, chainReport, hhead, hcur, effects_contractAbi]
          rw [List.append_assoc]
          change _ ++ ((r.report lib o d ++ []) ++ _) = _ ++ ((_ ++ []) ++ _)
          rw [hsame]
          rfl

end Runs

/-! ## Tables -/

/-- Tables that differ only in rows of the history that mark a removal, and that the second
lack. -/
structure Tables.SameBut (t t' : Tables) : Prop where
  state : t'.state = t.state
  receivedBlocks : t'.receivedBlocks = t.receivedBlocks
  contractAbi : t'.contractAbi = t.contractAbi
  history : ∀ k, t'.contractAbiHistory.find? k = t.contractAbiHistory.find? k ∨
    (t'.contractAbiHistory.find? k = none ∧ t.contractAbiHistory.find? k = some [])

namespace Tables.SameBut

variable {lib} {t t' : Tables}

theorem writeHistory (h : SameBut t t') (n : Nat) (account : Name) (data : Bytes) :
    SameBut (t.writeHistory n account data) (t'.writeHistory n account data) := by
  refine ⟨h.state, h.receivedBlocks, h.contractAbi, fun k ↦ ?_⟩
  change (Table.insert _ _ _).find? k = (Table.insert _ _ _).find? k ∨ _
  rw [Table.find?_insert, Table.find?_insert]
  split_ifs with hk
  · exact .inl rfl
  · change _ ∨ ((Table.insert _ _ _).find? k = none ∧ (Table.insert _ _ _).find? k = some [])
    rw [Table.find?_insert, Table.find?_insert, if_neg hk, if_neg hk]
    exact h.history k

theorem withAbis (h : SameBut t t') {abis abis' : Table Name Bytes} (habis : abis' = abis) :
    SameBut { t with contractAbi := abis } { t' with contractAbi := abis' } :=
  ⟨h.state, h.receivedBlocks, habis, h.history⟩

theorem setAbi (h : SameBut t t') (n : Nat) (acc : AccountV0) :
    SameBut (t.setAbi lib n acc) (t'.setAbi lib n acc) := by
  rw [Tables.setAbi, Tables.setAbi]
  split_ifs
  · rw [Tables.clearAbi, Tables.clearAbi, h.contractAbi]
    split_ifs
    · exact (h.withAbis rfl).writeHistory _ _ _
    · exact h
  · rw [Tables.saveAbi, Tables.saveAbi]
    split_ifs
    · exact (h.withAbis (congrArg (Table.insert · _ _) h.contractAbi)).writeHistory _ _ _
    · exact h.writeHistory _ _ _

theorem setAbis (h : SameBut t t') (n : Nat) (accounts : List AccountV0) :
    SameBut (t.setAbis lib n accounts) (t'.setAbis lib n accounts) := by
  induction accounts generalizing t t' with
  | nil => exact h
  | cons acc accounts ih => exact ih (h.setAbi n acc)

theorem addReceived (h : SameBut t t') (block : BlockPosition) (irreversible : Nat) :
    SameBut (t.addReceived block irreversible) (t'.addReceived block irreversible) := by
  rw [Tables.addReceived, Tables.addReceived]
  split_ifs
  · refine ⟨h.state, ?_, h.contractAbi, h.history⟩
    rw [h.receivedBlocks]
  · exact h

/-- A block makes the same difference to both. -/
theorem blockEffect (h : SameBut t t') (d : Delivery) :
    SameBut (blockEffect lib d.1 d.2 t) (blockEffect lib d.1 d.2 t') := by
  have hset : SameBut (Tables.setAbis lib d.1.blockNum d.2.accounts _) _ :=
    (h.addReceived d.1 d.2.lastIrreversible.blockNum).setAbis d.1.blockNum d.2.accounts
  exact ⟨rfl, hset.receivedBlocks, hset.contractAbi, hset.history⟩

theorem effects (h : SameBut t t') (ds : List Delivery) :
    SameBut (effects lib t ds) (effects lib t' ds) := by
  induction ds generalizing t t' with
  | nil => exact h
  | cons d ds ih => exact ih (h.blockEffect d)

end Tables.SameBut

/-- The tables of a written snapshot. -/
theorem sameBut_written {t : Tables} {entry : StateObject} (hs : t.state = some entry)
    (habi : NoEmptyAbi t) : t.SameBut (writtenTables t entry).tables := by
  refine ⟨hs.symm, rfl, Table.ext_find? fun account ↦ ?_, fun k ↦ ?_⟩
  · change (Table.filter _ _).find? account = _
    rw [Table.find?_filter]
    cases hf : t.contractAbi.find? account with
    | none => rfl
    | some abi =>
        have hne : abi ≠ [] := fun hnil ↦ habi account (hnil ▸ hf)
        simp [List.length_pos_iff, hne]
  · change (Table.filter _ _).find? k = _ ∨ ((Table.filter _ _).find? k = none ∧ _)
    rw [Table.find?_filter]
    cases hf : t.contractAbiHistory.find? k with
    | none => exact .inl rfl
    | some abi =>
        by_cases hnil : abi = []
        · exact .inr ⟨by simp [hnil], congrArg some hnil⟩
        · exact .inl (by simp [List.length_pos_iff, hnil])

/-! ## The two processes -/

/-- A database that a snapshot was restored into. -/
def restoredDb (db : StoredTables) : Undo Tables := ⟨0, db.tables, []⟩

/-- A process that starts, as the retained results have it. -/
theorem tells_start {o : Options} (ho : o.interactiveMode = false) {w : World Abi}
    (hscan : Scanning w) (hrows : AbisDecodeDb lib w.db) {entry : StateObject}
    (hs : w.db.undoAll.current.state = some entry) (hbase : w.db.base ≤ entry.head)
    {inputs : List Input}
    (hrun : Run.Guarded (exec lib)
      (fun w i ↦ Steady i ∧ FollowsHead entry.head w i ∧ Processed lib w i)
      (exec lib w (.start o)) inputs) :
    told (run lib w (.start o :: inputs)).log = told w.log ++ startEvents o w.db ++
        emits chainNext (chainReport lib o w.db.undoAll.current.contractAbi entry) ([], ⟨{}, 0⟩)
          (deliveries lib (exec lib w (.start o)) inputs) ∧
      (run lib w (.start o :: inputs)).db.current = effects lib w.db.undoAll.current
        ((deliveries lib (exec lib w (.start o)) inputs).foldl retain []) := by
  have hpos : startPosition o w.db.undoAll.current = entry := by rw [startPosition, hs]; rfl
  have hretains := ((start_cases lib ho w).retains lib ho (hpos.symm ▸ hbase)).1
  obtain ⟨hreports, htold⟩ := reports_start lib ho hscan hrows
  rw [hpos] at hretains
  rw [← htold]
  exact hretains.tells hreports hrun

/-- **After any run in scan mode, a snapshot of the database is written and restored.  A process
on the original database and one on the restored database, with the same options, follow the
stream and process the same results, with forks as they come.  Then the process on the restored
database tells just the events of the results, which the other one tells, too, after its explicit
forks; and the tables that they make are the same, but for marks of removals in the history.** -/
theorem restored_tells_same (before : List Input) {o : Options} (ho : o.interactiveMode = false)
    (hbefore : Run.Guarded (exec lib) (fun _ i ↦ ScanInput i) newWorld before)
    {w₀ w₁ : World Abi} (hw₀ : w₀ = run lib newWorld before) {entry : StateObject}
    (hs : w₀.db.undoAll.current.state = some entry) (hbase : w₀.db.base ≤ entry.head)
    {versionString endOfFile : String} {file : SnapshotFile} {w' : World Abi}
    (hfile : writeSnapshot versionString endOfFile w₀ = .ok file w')
    {db : StoredTables} (hread : readSnapshot file ∅ = .ok () db)
    (hw₁ : w₁ = { newWorld with db := restoredDb db }) {inputs inputs' : List Input}
    (hrun : Run.Guarded (exec lib)
      (fun w i ↦ Steady i ∧ FollowsHead entry.head w i ∧ Processed lib w i)
      (exec lib w₀ (.start o)) inputs)
    (hrun' : Run.Guarded (exec lib)
      (fun w i ↦ Steady i ∧ FollowsHead entry.head w i ∧ Processed lib w i)
      (exec lib w₁ (.start o)) inputs')
    (hsame : deliveries lib (exec lib w₀ (.start o)) inputs =
      deliveries lib (exec lib w₁ (.start o)) inputs') :
    told (run lib w₀ (.start o :: inputs)).log = told w₀.log ++ startEvents o w₀.db ++
      told (run lib w₁ (.start o :: inputs')).log ∧
    (run lib w₀ (.start o :: inputs)).db.current.SameBut
      (run lib w₁ (.start o :: inputs')).db.current := by
  have hmark := noEmptyAbi_committed lib hbefore
  obtain ⟨hscan, hrows⟩ : Scanning w₀ ∧ AbisDecodeDb lib w₀.db := hw₀ ▸ decodable_run lib hbefore
  rw [← hw₀] at hmark
  -- the restored tables
  have hdb : db = writtenTables w₀.db.undoAll.current entry := by
    rw [writeSnapshot_eq hs] at hfile
    obtain ⟨rfl, -⟩ := EStateM.Result.ok.inj hfile
    rw [readSnapshot_written] at hread
    exact (EStateM.Result.ok.inj hread).2.symm
  have hbut : w₀.db.undoAll.current.SameBut db.tables := hdb ▸ sameBut_written hs hmark
  have hcurrent : w₁.db.undoAll.current = db.tables := by
    rw [hw₁]
    rfl
  have hscan₁ : Scanning w₁ := by
    rw [hw₁]
    exact ⟨rfl, scanning_newWorld.cached⟩
  have hrows₁ : AbisDecodeDb lib w₁.db := by
    intro r t ht
    rw [hw₁] at ht
    rw [(Undo.at?_mk_nil ht).2, AbisDecode, hbut.contractAbi]
    exact hrows _ _ w₀.db.at?_base
  have hs₁ : w₁.db.undoAll.current.state = some entry := by rw [hcurrent, hbut.state, hs]
  have hbase₁ : w₁.db.base ≤ entry.head := by
    rw [hw₁]
    exact Nat.zero_le _
  obtain ⟨htold, htables⟩ := tells_start lib ho hscan hrows hs hbase hrun
  obtain ⟨htold', htables'⟩ := tells_start lib ho hscan₁ hrows₁ hs₁ hbase₁ hrun'
  refine ⟨?_, ?_⟩
  · have hnone : startEvents o w₁.db = [] := by
      have hstack : w₁.db.stack.length = 0 := by rw [hw₁]; rfl
      simp [startEvents, startForks, hs₁, hstack, published]
    have hnew : told w₁.log = [] := by rw [hw₁]; rfl
    rw [htold, htold', hnone, hnew, hcurrent, hbut.contractAbi, hsame]
    rfl
  · rw [htables, htables', hcurrent, hsame]
    exact hbut.effects _

/-- An ABI was set and removed, and one more block was received that is not committed. -/
def beforeSnapshot : List Input :=
  committedAbis [1, 7] [] ++ [.result (abiResult ⟨3, 3⟩ 2 2 [⟨6, [1, 9]⟩])]

/-- The next block has a row of the contract whose ABI was removed, and is replaced. -/
def afterSnapshot : List Input :=
  [.ready 0, .result { bareResult ⟨3, 3⟩ 2 2 with
      deltas := some [.ok (.contractRow [⟨true, .ok (), .ok ⟨5, 0, []⟩⟩])] },
    .result (bareResult ⟨3, 4⟩ 2 2)]

/-- The restored database, before a process is started on it. -/
def restoredWorld : World Bytes :=
  { newWorld with db := restoredDb (writtenTables
      (run .tagged newWorld beforeSnapshot).db.undoAll.current ⟨2, 2, 2, 0⟩) }

set_option maxRecDepth 10000 in
theorem restored_tells_same_replaced :
    told (run .tagged (run .tagged newWorld beforeSnapshot) (.start {} :: afterSnapshot)).log =
      told (run .tagged newWorld beforeSnapshot).log ++
        startEvents {} (run .tagged newWorld beforeSnapshot).db ++
        told (run .tagged restoredWorld (.start {} :: afterSnapshot)).log := by
  have hbefore : Run.Guarded (exec .tagged) (fun _ i ↦ ScanInput i) newWorld beforeSnapshot := by
    decide
  have hs : (run .tagged newWorld beforeSnapshot).db.undoAll.current.state =
      some ⟨2, 2, 2, 0⟩ := by decide
  have hbase : (run .tagged newWorld beforeSnapshot).db.base ≤ 2 := by decide
  have hrun : Run.Guarded (exec .tagged)
      (fun w i ↦ Steady i ∧ FollowsHead 2 w i ∧ Processed .tagged w i)
      (exec .tagged (run .tagged newWorld beforeSnapshot) (.start {})) afterSnapshot := by
    decide +kernel
  have hrun' : Run.Guarded (exec .tagged)
      (fun w i ↦ Steady i ∧ FollowsHead 2 w i ∧ Processed .tagged w i)
      (exec .tagged restoredWorld (.start {})) afterSnapshot := by
    decide +kernel
  exact (restored_tells_same .tagged beforeSnapshot rfl hbefore rfl hs hbase
    (writeSnapshot_eq hs "" "") (readSnapshot_written "" "" _ _) rfl hrun hrun' (by rfl)).1

end Chronicle
