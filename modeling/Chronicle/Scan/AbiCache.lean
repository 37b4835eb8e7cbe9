import Chronicle.Scan.Revisions

/-!
# The cache of decoded ABIs over whole runs

The cache of a process is coherent with the table of current ABIs as long as every block
that the process receives is processed: a rollback throws it away, and so does an ABI that
is set or removed.  Blocks of earlier processes may have failed; what such a failure leaves
in the cache is lost with its process.
-/

namespace Chronicle

open Store Effect

variable {Abi : Type} (lib : Abieos Abi)

/-! ## The table of current ABIs -/

/-- The current ABIs of every revision can be decoded. -/
def AbisDecodeDb (db : Undo Tables) : Prop := ∀ r t, db.at? r = some t → AbisDecode lib t

variable {lib} in
theorem AbisDecode.blockEffect {t : Tables} (h : AbisDecode lib t) (block : BlockPosition)
    (result : GetBlocksResult) : AbisDecode lib (blockEffect lib block result t) := by
  have hset : ∀ (accounts : List AccountV0) {t : Tables}, AbisDecode lib t →
      AbisDecode lib (t.setAbis lib block.blockNum accounts) := by
    intro accounts
    induction accounts with
    | nil => exact fun h ↦ h
    | cons acc accounts ih => exact fun h ↦ ih (h.setAbi block.blockNum acc)
  refine hset result.accounts ?_
  rw [AbisDecode, (Tables.addReceived_frame ..).1]
  exact h

theorem AbisDecodeDb.exec {w : World Abi} {i : Input} (h : AbisDecodeDb lib w.db)
    (hscan : Scanning w) (hi : ScanInput i) : AbisDecodeDb lib (Chronicle.exec lib w i).db := by
  intro r t ht
  cases exec_at? lib hscan hi ht with
  | kept hat => exact h _ _ hat
  | block _ hat _ => exact (h _ _ hat).blockEffect _ _

/-! ## Steps -/

section Steps

variable {block : BlockPosition} {result : GetBlocksResult} {w w₁ w' : World Abi} {lib}

/-- The cache of a world is coherent with its current tables. -/
def CoherentWorld (lib : Abieos Abi) (w : World Abi) : Prop := Coherent lib w.proc w.db.current

theorem CoherentWorld.congr (h : CoherentWorld lib w) (hp : w'.proc.SameCache w.proc)
    (ht : w'.db.current = w.db.current) : CoherentWorld lib w' :=
  Coherent.congr h hp (congrArg Tables.contractAbi ht)

theorem CoherentWorld.idle (h : CoherentWorld lib w) (hidle : Idle w w') : CoherentWorld lib w' :=
  h.congr hidle.cache (congrArg Undo.current hidle.db)

theorem CoherentWorld.ended (h : CoherentWorld lib w) (hend : Ended w w') :
    CoherentWorld lib w' := h.congr hend.cache ((congrArg Undo.current hend.db :) : _ = _)

theorem CoherentWorld.next (h : CoherentWorld lib w) (hnext : Next w w') :
    CoherentWorld lib w' := by
  cases hnext with
  | idle hidle => exact h.idle hidle
  | ended hend => exact h.ended hend

theorem Proc.ackedBy_cache (n : Nat) (p : Proc Abi) : (p.ackedBy n).SameCache p := by
  rw [Proc.ackedBy]
  split_ifs <;> exact ⟨rfl, rfl⟩

theorem CoherentWorld.decoded (h : CoherentWorld lib w)
    (hscan : w.options.interactiveMode = false) (account : Name) :
    CoherentWorld lib (w.decoded lib account) := by
  have hlookup : w.lookupAbi account = w.db.current.contractAbi.find? account := by
    rw [World.lookupAbi, hscan]
    rfl
  rw [CoherentWorld, World.decoded, hlookup]
  exact Coherent.load h account

/-- The cache of a process is empty when it starts. -/
theorem Started.coherent {o : Options} (hs : Started o w w') (h : AbisDecodeDb lib w'.db) :
    CoherentWorld lib w' := by
  have hrows := h _ _ w'.db.at?_revision
  cases hs with
  | loaded hl => exact coherent_of_empty hl.cache.1 hl.cache.2 hrows
  | rejected hr => exact coherent_of_empty hr.cache.1 hr.cache.2 hrows

/-- A rollback throws the cache away; otherwise the current tables stay. -/
theorem Accept.coherent (haccept : Accept block result w (.ok () w₁)) (h : CoherentWorld lib w)
    (hrows : AbisDecodeDb lib w.db) : CoherentWorld lib w₁ := by
  cases haccept with
  | forked hopen _ hroll _ =>
      obtain ⟨r, hr⟩ := at?_rollback hopen.raised hroll (Undo.at?_revision _)
      exact coherent_of_empty rfl rfl (hrows _ _ hr)
  | extended hopen _ _ => exact h.congr ⟨rfl, rfl⟩ (raisedDb_current hopen.raised)
  | unchecked _ hraised _ => exact h.congr ⟨rfl, rfl⟩ (raisedDb_current hraised)

theorem ProcessBlock.coherent (hprocess : ProcessBlock lib block result w (.ok () w'))
    (h : CoherentWorld lib w) : CoherentWorld lib w' := by
  cases hprocess with
  | completed _ _ _ hstored hw hcache =>
      have hafter : CoherentWorld lib _ := hstored.coherent h
      exact hafter.congr hcache (congrArg Undo.current hw.2)

end Steps

/-- Every input but a block that fails keeps the cache coherent. -/
theorem CoherentWorld.exec {w : World Abi} {i : Input} (h : CoherentWorld lib w)
    (hscan : Scanning w) (hrows : AbisDecodeDb lib w.db) (hi : ScanInput i)
    (hp : Processed lib w i) : CoherentWorld lib (Chronicle.exec lib w i) := by
  have hrows' := hrows.exec lib hscan hi
  cases hscan.exec_cases lib hi with
  | idle hidle => exact h.idle hidle
  | acked _ hw => exact hw ▸ h.congr (w.proc.ackedBy_cache _) rfl
  | decoded hw => exact hw ▸ h.decoded hscan.mode _
  | ended hidle hend => exact (h.idle hidle).ended hend
  | started hs => exact hs.coherent hrows'
  | @received block result queueSize _ hblock hread hr =>
      have hok := hp _ (delivered_receive queueSize hblock hread)
      cases hr with
      | refused _ _ hresult =>
          rw [hresult] at hok
          exact False.elim hok
      | broken _ _ _ hresult =>
          rw [hresult] at hok
          exact False.elim hok
      | completed haccept hprocess hidle hnext =>
          have hcounted : CoherentWorld lib w.counted := h.congr ⟨rfl, rfl⟩ rfl
          have h₁ : CoherentWorld lib _ := haccept.coherent hcounted hrows
          exact ((hprocess.coherent h₁).idle hidle).next hnext

/-! ## The record -/

/-- No ABI was given to the library for an account of the context. -/
def NeverPresent (log : List (Observation Abi)) : Prop :=
  ∀ account, Observation.setAbiBin account true ∉ log

section Record

variable {block : BlockPosition} {result : GetBlocksResult} {w w₁ w' : World Abi}
  {l l' : List (Observation Abi)} {lib}

theorem NeverPresent.append (h : NeverPresent l) (h' : NeverPresent l') : NeverPresent (l ++ l') :=
  fun account hmem ↦ (List.mem_append.mp hmem).elim (h account) (h' account)

theorem neverPresent_inside {n : Nat} (h : ∀ o ∈ l, o.Inside n) : NeverPresent l :=
  fun _ hmem ↦ Bool.noConfusion (h _ hmem)

theorem neverPresent_quiet (h : ∀ o ∈ l, o.Quiet) : NeverPresent l :=
  fun _ hmem ↦ Bool.noConfusion (h _ hmem)

theorem NeverPresent.calm (h : NeverPresent w.log) (hc : Calm w w') : NeverPresent w'.log := by
  obtain ⟨l, hl, hq⟩ := hc.log
  exact hl ▸ h.append (neverPresent_quiet hq)

theorem NeverPresent.within (h : NeverPresent w.log) (hw : Within w w') : NeverPresent w'.log := by
  obtain ⟨l, hl, hin⟩ := hw.log
  exact hl ▸ h.append (neverPresent_inside hin)

theorem NeverPresent.ended (h : NeverPresent w.log) (hend : Ended w w') : NeverPresent w'.log :=
  hend.log ▸ h.append (by simp [NeverPresent])

theorem NeverPresent.next (h : NeverPresent w.log) (hnext : Next w w') : NeverPresent w'.log := by
  cases hnext with
  | idle hidle => exact h.calm hidle.toCalm
  | ended hend => exact h.ended hend

theorem NeverPresent.started {o : Options} (h : NeverPresent w.log) (hs : Started o w w') :
    NeverPresent w'.log := by
  cases hs with
  | loaded hl => exact hl.log ▸ h.append fun _ hmem ↦ (mem_startForks hmem).elim nofun
  | rejected hr => exact hr.log ▸ h

theorem NeverPresent.stored (h : NeverPresent w.log) (hs : Stored lib block result w w') :
    NeverPresent w'.log := by
  obtain ⟨l, hl, hlog⟩ := hs.log
  exact hlog ▸ (h.append (neverPresent_inside hl)).append (by simp [NeverPresent])

theorem NeverPresent.accept {r : EStateM.Result Abort (World Abi) Unit}
    (h : NeverPresent w.log) (haccept : Accept block result w r) :
    Ends (fun _ w' ↦ NeverPresent w'.log) (fun _ w' ↦ NeverPresent w'.log) r := by
  cases haccept with
  | forked => exact h.append (by simp [NeverPresent])
  | unmoved | refused | endless | bottom | extended | unchecked => exact h

theorem NeverPresent.process {r : EStateM.Result Abort (World Abi) Unit}
    (h : NeverPresent w.log) (hprocess : ProcessBlock lib block result w r) :
    Ends (fun _ w' ↦ NeverPresent w'.log) (fun _ w' ↦ NeverPresent w'.log) r := by
  cases hprocess with
  | unreadable => exact h
  | failed _ _ hw => exact h.within hw.1
  | untraced _ _ _ hstored hw => exact (h.stored hstored).within hw.1
  | completed _ _ _ hstored hw =>
      exact ((h.stored hstored).within hw.1).append (by simp [NeverPresent])

end Record

/-- No input gives an ABI to the library for an account of the context. -/
theorem NeverPresent.exec {w : World Abi} {i : Input} (h : NeverPresent w.log)
    (hscan : Scanning w) (hi : ScanInput i) : NeverPresent (Chronicle.exec lib w i).log := by
  cases hscan.exec_cases lib hi with
  | idle hidle => exact h.calm hidle.toCalm
  | acked _ hw => exact hw ▸ h.calm (calm_ackedBy _ w)
  | decoded hw => exact hw ▸ h.calm (calm_decoded lib _ w)
  | ended hidle hend => exact (h.calm hidle.toCalm).ended hend
  | started hs => exact h.started hs
  | received _ _ hr =>
      have h₀ : NeverPresent w.counted.log := h
      cases hr with
      | refused haccept hstop =>
          exact NeverPresent.calm (h₀.accept haccept) hstop.1.toCalm
      | broken haccept hprocess hstop =>
          have h₁ : NeverPresent (World.log _) := h₀.accept haccept
          exact NeverPresent.calm (h₁.process hprocess) hstop.1.toCalm
      | completed haccept hprocess hidle hnext =>
          have h₁ : NeverPresent (World.log _) := h₀.accept haccept
          exact (NeverPresent.calm (h₁.process hprocess) hidle.toCalm).next hnext

/-- In every state of a process that has processed all the blocks it received, whatever
happened before it was started: the accounts imported into the cache are those of the
context, each has a current ABI, and the context holds what that ABI decodes to.  No ABI was
ever given to the library for an account of the context. -/
theorem abi_cache_coherent (before after : List Input) (o : Options)
    (hbefore : Run.Guarded (exec lib) (fun _ i ↦ ScanInput i) newWorld before)
    (ho : o.interactiveMode = false)
    (hafter : Run.Guarded (exec lib) (fun w i ↦ ScanInput i ∧ Processed lib w i)
      (run lib newWorld (before ++ [.start o])) after)
    {w : World Abi} (hw : w = run lib newWorld (before ++ .start o :: after)) :
    CoherentWorld lib w ∧ NeverPresent w.log := by
  have hinv : ∀ w : World Abi, Scanning w ∧ AbisDecodeDb lib w.db ∧ NeverPresent w.log →
      ∀ i, ScanInput i → Scanning (exec lib w i) ∧ AbisDecodeDb lib (exec lib w i).db ∧
        NeverPresent (exec lib w i).log := fun w h i hi ↦
    ⟨h.1.exec lib hi, h.2.1.exec lib h.1 hi, h.2.2.exec lib h.1 hi⟩
  have h₀ : Scanning (run lib newWorld before) ∧ AbisDecodeDb lib (run lib newWorld before).db ∧
      NeverPresent (run lib newWorld before).log := by
    refine hbefore.invariant (I := fun w ↦ Scanning w ∧ AbisDecodeDb lib w.db ∧
      NeverPresent w.log) (fun w i h hi ↦ hinv w h i hi) ⟨scanning_newWorld, ?_, nofun⟩
    exact fun r t ht ↦ (Undo.at?_mk_nil ht).2 ▸ nofun
  have h₁ := hinv _ h₀ (.start o) ho
  have hcoh : CoherentWorld lib (exec lib (run lib newWorld before) (.start o)) :=
    (start_cases lib ho _).coherent h₁.2.1
  have hrun : run lib newWorld (before ++ [.start o]) =
      exec lib (run lib newWorld before) (.start o) := by
    rw [run, List.foldl_append]
    rfl
  rw [hrun] at hafter
  have hsplit : w = after.foldl (exec lib) (exec lib (run lib newWorld before) (.start o)) := by
    rw [hw, run, List.foldl_append]
    rfl
  have hall := hafter.invariant (I := fun w ↦ (Scanning w ∧ AbisDecodeDb lib w.db ∧
    NeverPresent w.log) ∧ CoherentWorld lib w)
    (fun w i h hi ↦ ⟨hinv w h.1 i hi.1, h.2.exec lib h.1.1 h.1.2.1 hi.1 hi.2⟩) ⟨h₁, hcoh⟩
  rw [← hsplit] at hall
  exact ⟨hall.2, hall.1.2.2⟩

set_option maxRecDepth 10000 in
/-- A block fails after it has set an ABI; the next process sets and reads another one. -/
theorem abi_cache_coherent_after_failure :
    CoherentWorld .tagged (run .tagged newWorld
      ([.start {}, .ready 0, .result { abiResult ⟨1, 1⟩ 0 0 [⟨5, [1, 7]⟩] with
          traces := some [.error "trace"] }] ++
        .start {} :: [.ready 0, .result (abiResult ⟨1, 1⟩ 0 0 [⟨5, [1, 8]⟩]), .decode 5])) :=
  (abi_cache_coherent .tagged _ _ {} (by decide) rfl (by decide) rfl).1

end Chronicle
