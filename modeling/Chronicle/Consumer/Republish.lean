import Chronicle.Consumer.Stream
import Chronicle.Scan.Restart

/-!
# Blocks that are published again

A consumer that has seen events of a block sees a fork at or below it before it sees events
of that number again, in the same process or in a later one.

A process that starts announces a fork only when it has undone a revision, so it must not
forget a block that was published but is in no revision (`republished_without_fork`).  There
is none if the deltas of a block can be unpacked whenever there is nothing to undo below it
(`StoredIfPublished`).
-/

namespace Chronicle

open Store Effect

variable {Abi : Type} (lib : Abieos Abi)

/-! ## Live blocks -/

/-- An event of block `b` was published, and no fork at or below it since. -/
def Live (es : List Event) (b : Nat) : Prop :=
  ∃ es₁ e es₂, es = es₁ ++ e :: es₂ ∧ e.block? = some b ∧ ∀ f, .fork f ∈ es₂ → b < f.blockNum

theorem Live.append_cases {es es' : List Event} {b : Nat} (h : Live (es ++ es') b) :
    Live es' b ∨ (Live es b ∧ ∀ f, .fork f ∈ es' → b < f.blockNum) := by
  obtain ⟨es₁, e, es₂, heq, he, hf⟩ := h
  rcases List.append_eq_append_iff.mp heq with ⟨l, -, hl⟩ | ⟨l, hl, hl'⟩
  · exact .inl ⟨l, e, es₂, hl, he, hf⟩
  · cases l with
    | nil => exact .inl ⟨[], e, es₂, hl'.symm, he, hf⟩
    | cons x l =>
        obtain ⟨rfl, rfl⟩ := List.cons.inj hl'
        exact .inr ⟨⟨es₁, e, l, hl, he, fun f h ↦ hf f (List.mem_append_left _ h)⟩,
          fun f h ↦ hf f (List.mem_append_right _ h)⟩

/-- Among events that belong to one block no other is live. -/
theorem Live.eq_of_beside {es : List Event} {b h : Nat} (hlive : Live es b)
    (hes : ∀ e ∈ es, e.Beside h) : b = h := by
  obtain ⟨es₁, e, es₂, rfl, he, -⟩ := hlive
  exact (hes e (by simp)).2 b he

/-- Events without a block make nothing live. -/
theorem Live.of_append {es es' : List Event} {b : Nat} (h : Live (es ++ es') b)
    (hes : ∀ e ∈ es', e.block? = none) : Live es b := by
  rcases h.append_cases with ⟨es₁, e, es₂, rfl, he, -⟩ | ⟨h, -⟩
  · rw [hes e (by simp)] at he
    cases he
  · exact h

theorem Event.Still.block?_eq_none {e : Event} (h : e.Still) : e.block? = none := by
  cases e with
  | receiverPause _ => rfl
  | _ => cases h

theorem mem_forkEvents_block? {block : BlockPosition} {result : GetBlocksResult} {w : World Abi}
    {e : Event} (h : e ∈ forkEvents block result w) : e.block? = none := by
  obtain ⟨f, rfl, -⟩ := mem_forkEvents h
  rfl

/-! ## The environment -/

/-- The database that a block goes to: as it is, or after the rollback for a fork. -/
def storedOn (b : Nat) (w : World Abi) : Undo Tables :=
  if b ≤ w.proc.head then (w.db.rollback b).getD w.db else w.db

/-- A block that is published goes to a database with something to undo, or without a state
object, or its deltas can be unpacked. -/
def StoredIfPublished (w : World Abi) (i : Input) : Prop :=
  ∀ d ∈ delivered w i, (storedOn d.1.blockNum w).stack = [] →
    (storedOn d.1.blockNum w).current.state ≠ none → d.2.ReadableBlock →
      d.2.ReadableDeltas w.options

/-- A process starts after the one before has ended, and names no start block for a database
that has a state object. -/
def SuccessfulStart (w : World Abi) : Input → Prop
  | .start o => w.proc.continuation ≠ .hung ∧
    (w.db.undoAll.current.state = none ∨ o.startBlockNum = 0)
  | _ => True

instance (result : GetBlocksResult) : Decidable result.ReadableBlock :=
  match h : result.block with
  | none => .isTrue fun _ hbin ↦ by rw [h] at hbin; cases hbin
  | some bin => decidable_of_iff (bin.isOk = true)
      ⟨fun hok _ hbin ↦ Option.some.inj (h.symm.trans hbin) ▸ hok, fun hall ↦ hall bin h⟩

instance (o : Options) : (delta : TableDelta) → Decidable (delta.Readable o)
  | .account rows => inferInstanceAs (Decidable (o.interactiveMode = false →
      ∀ row ∈ rows, row.variant.isOk ∧ (row.present = true → row.data.isOk)))
  | .contractRow rows | .permission rows | .permissionLink rows | .accountMetadata rows =>
    inferInstanceAs (Decidable (_ = true → ∀ row ∈ rows, row.variant.isOk ∧ row.data.isOk))
  | .other _ => .isTrue trivial

instance (o : Options) : (bin : Parsed TableDelta) → Decidable (ReadableDelta o bin)
  | .error _ => .isFalse nofun
  | .ok delta => decidable_of_iff (delta.Readable o)
      ⟨fun h ↦ ⟨delta, rfl, h⟩, fun ⟨_, heq, h⟩ ↦ Except.ok.inj heq ▸ h⟩

instance (o : Options) (result : GetBlocksResult) : Decidable (result.ReadableDeltas o) :=
  match h : result.deltas with
  | none => .isTrue fun _ hbin ↦ by rw [h] at hbin; cases hbin
  | some bin => decidable_of_iff (∀ delta ∈ bin, ReadableDelta o delta)
      ⟨fun hok _ hbin ↦ Option.some.inj (h.symm.trans hbin) ▸ hok, fun hall ↦ hall bin h⟩

instance (w : World Abi) (i : Input) : Decidable (StoredIfPublished w i) :=
  inferInstanceAs (Decidable (∀ _ ∈ _, _))

instance (w : World Abi) : (i : Input) → Decidable (SuccessfulStart w i)
  | .start _ => inferInstanceAs (Decidable (_ ∧ _))
  | .ready _ | .receive _ _ | .timer _ | .ack _ | .slowdown _ | .stale | .decode _ | .request _
  | .scanner _ => .isTrue trivial

/-! ## The invariant -/

/-- What is live up to the oldest revision is counted by its state object. -/
def CoversBase (es : List Event) (db : Undo Tables) : Prop :=
  ∀ t, db.at? db.base = some t → ∀ s, t.state = some s →
    ∀ b, Live es b → b ≤ db.base → b ≤ s.head

/-- If there is nothing to undo, all that is live is counted by the state object. -/
def CoversTop (es : List Event) (db : Undo Tables) : Prop :=
  db.stack = [] → ∀ s, db.current.state = some s → ∀ b, Live es b → b ≤ s.head

/-- A block that is not above what a process has at hand is not live, unless a fork is going
to be announced. -/
structure Unrepeated (w : World Abi) : Prop where
  scanning : Scanning w
  sound : Sound w
  numbered : Numbered w.log
  head : Running w → ∀ b, Live (published w.log) b → b ≤ w.proc.head
  base : CoversBase (published w.log) w.db
  top : w.proc.continuation ≠ .hung → CoversTop (published w.log) w.db

/-- A world whose position was accepted, before the block is processed. -/
structure UnrepeatedPlaced (block : BlockPosition) (w : World Abi) : Prop where
  base : CoversBase (published w.log) w.db
  below : ∀ b, Live (published w.log) b → b < block.blockNum

section Databases

variable {es es' : List Event} {log : List (Observation Abi)} {db db' : Undo Tables}

theorem CoversBase.of_live (h : CoversBase es db)
    (hl : ∀ b, Live es' b → b ≤ db.base → Live es b) : CoversBase es' db :=
  fun t ht s hs b hb hle ↦ h t ht s hs b (hl b hb hle) hle

theorem CoversTop.of_live (h : CoversTop es db) (hl : ∀ b, Live es' b → Live es b) :
    CoversTop es' db := fun hnil s hs b hb ↦ h hnil s hs b (hl b hb)

theorem CoversTop.raised (h : CoversTop es db) {n : Nat} (hr : raisedDb n db = some db') :
    CoversTop es db' := by
  rcases raisedDb_eq_some hr with ⟨-, rfl⟩ | ⟨-, hnil, rfl⟩
  · exact h
  · exact fun _ ↦ h hnil

theorem CoversBase.raised (h : CoversBase es db) (htop : CoversTop es db) {n : Nat}
    (hr : raisedDb n db = some db') : CoversBase es db' := by
  rcases raisedDb_eq_some hr with ⟨-, rfl⟩ | ⟨-, hnil, rfl⟩
  · exact h
  · intro t ht s hs b hb _
    rw [(Undo.at?_mk_nil ht).2] at hs
    exact htop hnil s hs b hb

theorem CoversBase.rollback (h : CoversBase es db) {n : Nat} (hroll : db.rollback n = some db') :
    CoversBase es db' := by
  obtain ⟨hb, -, -, hat⟩ := Undo.rollback_spec hroll
  intro t ht
  rw [hat _ db'.base_le_revision] at ht
  rw [hb] at ht ⊢
  exact h t ht

theorem CoversBase.undoAll (h : CoversBase es db) : CoversBase es db.undoAll :=
  fun t ht ↦ h t (Undo.at?_undoAll ht)

theorem CoversBase.session (h : CoversBase es db) (f : Tables → Tables) :
    CoversBase es (db.startUndoSession.modify f) := fun t ht ↦
  h t ((Undo.at?_session f db.base_le_revision).symm.trans ht)

/-- A revision above the oldest one has its own number. -/
theorem CoversBase.commit (h : CoversBase es db) (hs : SoundDb log db) (c : Nat) :
    CoversBase es (db.commit c) := by
  intro t ht s hts b hb hle
  have hat := Undo.at?_commit_eq_some ht
  rcases Nat.lt_or_ge db.base (db.commit c).base with hlt | hge
  · exact hle.trans (hs.aligned _ t hat hlt s hts).ge
  · have hbase : (db.commit c).base = db.base := le_antisymm hge (le_max_left ..)
    rw [hbase] at hat hle
    exact h t hat s hts b hb hle

end Databases

/-! ## Steps -/

section Steps

variable {block : BlockPosition} {result : GetBlocksResult} {w w₁ w' : World Abi}

/-- A process that has stopped. -/
theorem Unrepeated.stopped (hscan : Scanning w) (hs : Sound w) (hn : Numbered w.log)
    (hbase : CoversBase (published w.log) w.db)
    (htop : w.proc.continuation ≠ .hung → CoversTop (published w.log) w.db)
    (hstop : ¬ Running w) : Unrepeated w :=
  ⟨hscan, hs, hn, fun hrun ↦ absurd hrun hstop, hbase, htop⟩

/-- Nothing becomes live without a block. -/
theorem Calm.live (h : Calm w w') {b : Nat} (hb : Live (published w'.log) b) :
    Live (published w.log) b := by
  obtain ⟨es, hes, hstill⟩ := h.publishes
  rw [hes] at hb
  exact hb.of_append fun e he ↦ (hstill e he).block?_eq_none

theorem Unrepeated.calm (h : Unrepeated w) (hc : Calm w w')
    (hne : w.proc.continuation ≠ .hung) : Unrepeated w' := by
  refine ⟨h.scanning.calm hc, h.sound.calm hc, h.numbered.congr hc.pushed, fun hrun b hb ↦ ?_, ?_,
    fun _ ↦ ?_⟩
  · rw [show w'.proc.head = w.proc.head from congrArg StateObject.head hc.position]
    exact h.head (hc.running hrun) b (hc.live hb)
  · rw [hc.db]
    exact h.base.of_live fun b hb _ ↦ hc.live hb
  · rw [hc.db]
    exact (h.top hne).of_live fun b hb ↦ hc.live hb

/-- What is live while the process runs is counted by its state object. -/
theorem Unrepeated.coversTop (h : Unrepeated w) (hrun : Running w) :
    CoversTop (published w.log) w.db := h.top hrun.2

theorem Unrepeated.ended (h : Unrepeated w) (hend : Ended w w') : Unrepeated w' := by
  have hpub := hend.publishes
  refine Unrepeated.stopped (h.scanning.ended hend) (h.sound.ended hend)
    (h.numbered.congr hend.pushed) ?_ (fun _ _ s hs b hb ↦ ?_) hend.stopped
  · rw [hpub, hend.db]
    exact h.base.commit h.sound.db _
  · rw [hend.db] at hs
    rw [hpub] at hb
    rw [h.sound.position hend.running s hs]
    exact h.head hend.running b hb

/-- A fork above the head takes back all that is live above it. -/
theorem Unrepeated.started {o : Options} (h : Unrepeated w) (hs : Started o w w')
    (hscan : Scanning w') (halign : StartsAligned w (.start o))
    (hsuccess : SuccessfulStart w (.start o)) : Unrepeated w' := by
  have hsound := h.sound.started hs halign
  obtain ⟨hhung, hstart⟩ := hsuccess
  cases hs with
  | rejected hr =>
      exact absurd hstart (not_or.mpr ⟨hr.state, by have := hr.start; omega⟩)
  | loaded hl =>
      have hhead : w'.proc.head = (startPosition o w.db.undoAll.current).head :=
        congrArg StateObject.head hl.position
      obtain ⟨hforks, hnone⟩ := published_startForks Abi o w.db
      have hpub : published w'.log = published w.log ++
          published (startForks o w.db : List (Observation Abi)) := by
        rw [hl.log, published_append]
      have hlive : ∀ b, Live (published w'.log) b →
          Live (published w.log) b ∧ b ≤ w'.proc.head := by
        intro b hb
        rw [hpub] at hb
        rcases hb.append_cases with ⟨es₁, e, es₂, heq, he, -⟩ | ⟨hb, hbelow⟩
        · obtain ⟨f, rfl, -⟩ := hforks e (by rw [heq]; simp)
          cases he
        refine ⟨hb, ?_⟩
        cases hes : published (startForks o w.db : List (Observation Abi)) with
        | cons e es =>
            obtain ⟨f, rfl, hf⟩ := hforks e (by rw [hes]; simp)
            have hlt := hbelow f (by rw [hes]; simp)
            omega
        | nil =>
            obtain ⟨hstate, hnil⟩ := hnone hes
            obtain ⟨s, hs⟩ := Option.ne_none_iff_exists'.mp hstate
            rw [hhead, startPosition, hs]
            rw [Undo.undoAll_of_stack_nil hnil] at hs
            exact h.top hhung hnil s hs b hb
      refine ⟨hscan, hsound, h.numbered.congr (Started.loaded hl).pushed,
        fun _ b hb ↦ (hlive b hb).2, ?_, fun _ _ s hs b hb ↦ ?_⟩
      · rw [hl.db]
        exact h.base.undoAll.of_live fun b hb _ ↦ (hlive b hb).1
      · have hle := (hlive b hb).2
        rw [hl.db] at hs
        rwa [hhead, startPosition, hs] at hle

/-- Above the head nothing is live, and a fork takes back what is live from its block on. -/
theorem Accept.unrepeatedPlaced (haccept : Accept block result w (.ok () w₁)) (h : Unrepeated w)
    (hrun : Running w)
    (hre : block.blockNum ≤ w.proc.head → result.lastIrreversible.blockNum < block.blockNum) :
    UnrepeatedPlaced block w₁ := by
  have htop := h.coversTop hrun
  cases haccept with
  | @forked db db' hopen _ hroll _ =>
      have hlive : ∀ b, Live (published w.log ++ [networkFork block.blockNum
          result.lastIrreversible.blockNum w.proc.head]) b →
          Live (published w.log) b ∧ b < block.blockNum := by
        intro b hb
        refine ⟨hb.of_append (by simp [networkFork, Event.block?]), ?_⟩
        rcases hb.append_cases with ⟨es₁, e, es₂, heq, he, -⟩ | ⟨-, hlt⟩
        · have hmem : e ∈ [networkFork block.blockNum result.lastIrreversible.blockNum
              w.proc.head] := by
            rw [heq]
            simp
          rw [List.mem_singleton.mp hmem] at he
          cases he
        · exact hlt _ (List.mem_singleton_self _)
      have hpub : published (w.log ++ [.published (networkFork block.blockNum
          result.lastIrreversible.blockNum w.proc.head)]) = published w.log ++ [networkFork
            block.blockNum result.lastIrreversible.blockNum w.proc.head] := by
        rw [published_append]
        rfl
      refine ⟨?_, fun b hb ↦ ?_⟩
      · simp only [hpub]
        exact ((h.base.raised htop hopen.raised).rollback hroll).of_live
          fun b hb _ ↦ (hlive b hb).1
      · simp only [hpub] at hb
        exact (hlive b hb).2
  | extended hopen habove _ =>
      exact ⟨h.base.raised htop hopen.raised, fun b hb ↦ (h.head hrun b hb).trans_lt habove⟩
  | unchecked _ hraised hbelow =>
      refine ⟨h.base.raised htop hraised, fun b hb ↦ (h.head hrun b hb).trans_lt ?_⟩
      by_contra hnot
      exact absurd (hre (by omega)) (by omega)

/-- A refused block was not published. -/
theorem Accept.covers_error {e : Abort} (haccept : Accept block result w (.error e w₁))
    (h : Unrepeated w) (hrun : Running w) :
    CoversBase (published w₁.log) w₁.db ∧
      ((∃ what, e = .exception what) → CoversTop (published w₁.log) w₁.db) := by
  have htop := h.coversTop hrun
  have hsound := haccept.soundDb h.sound.db
  cases haccept with
  | unmoved => exact ⟨h.base, fun _ ↦ htop⟩
  | refused hopen _ _ => exact ⟨h.base.raised htop hopen.raised, fun _ ↦ htop.raised hopen.raised⟩
  | endless hopen _ _ =>
      exact ⟨(h.base.raised htop hopen.raised).undoAll, fun ⟨_, he⟩ ↦ by cases he⟩
  | bottom hopen _ hroll hzero =>
      refine ⟨(h.base.raised htop hopen.raised).rollback hroll, fun _ _ s hs ↦ ?_⟩
      have hpos := (hsound.pos h.numbered (Undo.at?_revision _) hs).2
      exact absurd hzero hpos.ne'

variable {lib}

/-- The database that a block is placed on, as far as its deltas matter. -/
theorem Accept.readableDeltas (haccept : Accept block result w (.ok () w₁)) (hs : Sound w)
    (hrun : Running w)
    (hsafe : (storedOn block.blockNum w).stack = [] →
      (storedOn block.blockNum w).current.state ≠ none → result.ReadableBlock →
        result.ReadableDeltas w.options)
    (hnil : w₁.db.stack = []) (hstate : w₁.db.current.state ≠ none)
    (hread : result.ReadableBlock)
    (hre : block.blockNum ≤ w.proc.head → result.lastIrreversible.blockNum < block.blockNum) :
    result.ReadableDeltas w.options := by
  have hraised : ∀ {db}, raisedDb block.blockNum w.db = some db → w.proc.head < block.blockNum →
      db.stack = [] → db.current.state ≠ none → result.ReadableDeltas w.options := by
    intro db hr habove hnil hstate
    rw [storedOn, if_neg (not_le.mpr habove)] at hsafe
    rcases raisedDb_eq_some hr with ⟨-, rfl⟩ | ⟨-, hnil', rfl⟩
    · exact hsafe hnil hstate hread
    · exact hsafe hnil' hstate hread
  cases haccept with
  | @forked db db' hopen hhead hroll _ =>
      rw [storedOn, if_pos hhead] at hsafe
      have hsame : db = w.db := by
        rcases raisedDb_eq_some hopen.raised with ⟨-, rfl⟩ | ⟨hlt, hnil', rfl⟩
        · rfl
        · -- the revision is raised only while there is no state object
          have hpos := hopen.above
          rw [Uint32.pred_of_pos (by omega)] at hlt
          have hnone : w.db.current.state = none := by
            by_contra hne
            have hrev := hs.revision hrun hne
            omega
          have hcur := (Undo.at?_mk_nil (Undo.rollback_current hroll)).2
          rw [hcur] at hstate
          exact absurd hnone hstate
      rw [hsame] at hroll
      rw [hroll] at hsafe
      exact hsafe hnil hstate hread
  | extended hopen habove _ => exact hraised hopen.raised habove hnil hstate
  | unchecked _ hr hbelow =>
      refine hraised hr ?_ hnil hstate
      by_contra hnot
      exact absurd (hre (by omega)) (by omega)

/-- Only the block itself becomes live. -/
theorem ProcessBlock.live {r : EStateM.Result Abort (World Abi) Unit}
    (hprocess : ProcessBlock lib block result w r) :
    Ends (fun _ w' ↦ ∀ b, Live (published w'.log) b → b = w.proc.head ∨ Live (published w.log) b)
      (fun _ w' ↦ ∀ b, Live (published w'.log) b → b = w.proc.head ∨ Live (published w.log) b)
      r := by
  have key : ∀ w' : World Abi, (∃ es, published w'.log = published w.log ++ es ∧
      ∀ e ∈ es, e.Beside w.proc.head) →
      ∀ b, Live (published w'.log) b → b = w.proc.head ∨ Live (published w.log) b := by
    rintro w' ⟨es, hes, hin⟩ b hb
    rw [hes] at hb
    rcases hb.append_cases with hb | ⟨hb, -⟩
    · exact .inl (hb.eq_of_beside hin)
    · exact .inr hb
  exact hprocess.publishes_beside.mono (fun _ w' ↦ key w') fun _ w' ↦ key w'

/-- What is known of a world that has processed a block, as far as it came. -/
structure Counted (block : BlockPosition) (w : World Abi) : Prop where
  numbered : Numbered w.log
  base : CoversBase (published w.log) w.db
  top : CoversTop (published w.log) w.db
  live : ∀ b, Live (published w.log) b → b ≤ block.blockNum

/-- A block that goes into the database is counted by its state object. -/
theorem UnrepeatedPlaced.stored (h : UnrepeatedPlaced block w) (hplaced : SoundlyPlaced block w)
    (hn : Numbered w.log) (hs : Stored lib block result w w₁) (hdb : w'.db = w₁.db)
    (hlog : pushed w'.log = pushed w₁.log)
    (hlive : ∀ b, Live (published w'.log) b → b = block.blockNum ∨ Live (published w.log) b) :
    Counted block w' := by
  have hle : ∀ b, Live (published w'.log) b → b ≤ block.blockNum := by
    intro b hb
    rcases hlive b hb with rfl | hb
    · exact le_rfl
    · exact (h.below b hb).le
  have hrev := hplaced.revision
  refine ⟨(hs.numbered lib hn (by omega)).congr hlog, ?_, fun _ s hst b hb ↦ ?_, hle⟩
  · rw [hdb, hs.db]
    refine CoversBase.commit (CoversBase.session (h.base.of_live fun b hb hbase ↦ ?_) _)
      (hplaced.session hs) _
    rcases hlive b hb with rfl | hb
    · have hbr := w.db.base_le_revision
      omega
    · exact hb
  · rw [hdb, hs.db] at hst
    obtain rfl : stateOf block result = s := Option.some.inj hst
    exact hle b hb

/-- However the processing of a block ends, what is live is counted. -/
theorem ProcessBlock.counted {r : EStateM.Result Abort (World Abi) Unit}
    (hprocess : ProcessBlock lib block result w r) (h : UnrepeatedPlaced block w)
    (hplaced : SoundlyPlaced block w) (hat : AtBlock block result w) (hn : Numbered w.log)
    (hdeltas : w.db.stack = [] → w.db.current.state ≠ none → result.ReadableBlock →
      result.ReadableDeltas w.options) :
    Ends (fun _ w' ↦ Counted block w') (fun _ w' ↦ Counted block w') r := by
  have hhead : w.proc.head = block.blockNum := congrArg StateObject.head hat
  have hlive := hprocess.live
  rw [hhead] at hlive
  have hrev := hplaced.revision
  cases hprocess with
  | unreadable =>
      refine ⟨hn, h.base, fun hnil s hs b hb ↦ ?_, fun b hb ↦ (h.below b hb).le⟩
      have hbase := Undo.revision_of_stack_nil hnil
      have hlt := h.below b hb
      exact h.base _ (hbase ▸ w.db.at?_revision) s hs b hb (by omega)
  | @failed _ w' hread hstore hw =>
      refine ⟨hn.congr hw.1.pushed, ?_, fun hnil s hs ↦ ?_, fun b hb ↦ ?_⟩
      · rw [hw.2]
        refine h.base.of_live fun b hb hbase ↦ ?_
        rcases hlive b hb with rfl | hb
        · have hbr := w.db.base_le_revision
          omega
        · exact hb
      · rw [hw.2] at hnil hs
        have hfree := (hplaced.db.settled _ _ w.db.at?_revision).free hplaced.below
          result.lastIrreversible.blockNum
        exact absurd ⟨hfree, hdeltas hnil (by simp [hs]) hread⟩ hstore
      · rcases hlive b hb with rfl | hb
        · exact le_rfl
        · exact (h.below b hb).le
  | untraced _ _ _ hstored hw => exact h.stored hplaced hn hstored hw.2 hw.1.pushed hlive
  | completed _ _ _ hstored hw =>
      refine h.stored hplaced hn hstored hw.2 ?_ hlive
      rw [pushed_append, hw.1.pushed]
      exact List.append_nil _

/-- However a block with an accepted position ends, what is live is counted. -/
theorem Unrepeated.processed (h : Unrepeated w) (hrun : Running w)
    (hre : block.blockNum ≤ w.proc.head → result.lastIrreversible.blockNum < block.blockNum)
    (hsafe : (storedOn block.blockNum w).stack = [] →
      (storedOn block.blockNum w).current.state ≠ none → result.ReadableBlock →
        result.ReadableDeltas w.options)
    (haccept : Accept block result w (.ok () w₁)) {r : EStateM.Result Abort (World Abi) Unit}
    (hprocess : ProcessBlock lib block result w₁ r) :
    Ends (fun _ w' ↦ Counted block w') (fun _ w' ↦ Counted block w') r := by
  obtain ⟨hopt, -, -, hat⟩ := haccept.frame h.scanning.cached
  refine hprocess.counted (haccept.unrepeatedPlaced h hrun hre)
    (haccept.soundlyPlaced h.sound hrun hre) hat (h.numbered.congr haccept.pushed) ?_
  intro hnil hstate hread
  rw [hopt]
  exact haccept.readableDeltas h.sound hrun hsafe hnil hstate hread hre

/-- Between two blocks, what is live is counted by the head. -/
theorem Counted.unrepeated (h : Counted block w) (hscan : Scanning w) (hs : Sound w)
    (hhead : w.proc.head = block.blockNum) : Unrepeated w :=
  ⟨hscan, hs, h.numbered, fun _ b hb ↦ hhead ▸ h.live b hb, h.base, fun _ ↦ h.top⟩

end Steps

/-- Every input keeps live blocks counted. -/
theorem Unrepeated.exec {w : World Abi} {i : Input} (h : Unrepeated w) (hi : ScanInput i)
    (hre : ResentAbove w i) (halign : StartsAligned w i) (hstore : StoredIfPublished w i)
    (hsuccess : SuccessfulStart w i) : Unrepeated (exec lib w i) := by
  have hscan := h.scanning.exec lib hi
  have hsound := h.sound.exec lib h.scanning hi hre halign
  have hcases := h.scanning.exec_cases lib hi
  by_cases hhung : w.proc.continuation = .hung
  · by_cases hs : ∃ o, i = .start o
    · obtain ⟨o, rfl⟩ := hs
      exact absurd hhung hsuccess.1
    · rw [exec_hung lib h.scanning.mode (fun o ho ↦ hs ⟨o, ho⟩) hhung]
      exact h
  cases hcases with
  | idle hidle => exact h.calm hidle.toCalm hhung
  | acked _ hw => exact hw ▸ h.calm (calm_ackedBy _ w) hhung
  | decoded hw => exact hw ▸ h.calm (calm_decoded lib _ w) hhung
  | ended hidle hend => exact (h.calm hidle.toCalm hhung).ended hend
  | started hs => exact h.started hs hscan halign hsuccess
  | @received block result queueSize _ hblock hread hr =>
      have hd := delivered_receive queueSize hblock hread
      have hrun : Running w := running_of_reading hread
      have hs₀ : Sound w.counted :=
        ⟨h.sound.db, h.sound.position, h.sound.fresh, h.sound.revision⟩
      have h₀ : Unrepeated w.counted :=
        ⟨⟨h.scanning.mode, h.scanning.cached⟩, hs₀, h.numbered, h.head, h.base, h.top⟩
      cases hr with
      | refused haccept hstop =>
          obtain ⟨hbase, htop⟩ := haccept.covers_error h₀ hrun
          have hlog := (haccept.frame h.scanning.cached).2.2.2.2
          have hcalm := hstop.1.toCalm
          refine Unrepeated.stopped hscan hsound (h.numbered.congr ?_) ?_ (fun hne ↦ ?_) hstop.2
          · rw [hcalm.pushed, hlog]
            rfl
          · rw [hcalm.db]
            exact hbase.of_live fun b hb _ ↦ hcalm.live hb
          · rw [hcalm.db]
            refine (htop ?_).of_live fun b hb ↦ hcalm.live hb
            by_contra hnone
            exact hne (hstop.hung fun what he ↦ hnone ⟨what, he⟩)
      | broken haccept hprocess hstop =>
          have hcount : Counted block _ :=
            h₀.processed hrun (hre _ hd) (hstore _ hd) haccept hprocess
          have hcalm := hstop.1.toCalm
          refine Unrepeated.stopped hscan hsound (hcount.numbered.congr hcalm.pushed) ?_
            (fun _ ↦ ?_) hstop.2
          · rw [hcalm.db]
            exact hcount.base.of_live fun b hb _ ↦ hcalm.live hb
          · rw [hcalm.db]
            exact hcount.top.of_live fun b hb ↦ hcalm.live hb
      | @completed w₁ w₂ w₃ haccept hprocess hidle hnext =>
          have hcount : Counted block w₂ :=
            h₀.processed hrun (hre _ hd) (hstore _ hd) haccept hprocess
          obtain ⟨-, hcont, hc, hat⟩ := haccept.frame h.scanning.cached
          have hscan₂ : Scanning w₂ := (h₀.scanning.accept haccept : Scanning _).process hprocess
          have hs₂ := (hprocess.sound_ok (haccept.soundlyPlaced hs₀ hrun (hre _ hd)) hat).1
          have hcore := (hprocess.frame hc).2.1
          have hhead : w₂.proc.head = block.blockNum :=
            (Proc.member_eq hcore Proc.head fun _ ↦ rfl).trans (congrArg StateObject.head hat)
          have hrun₂ : Running w₂ := (running_of_core hcore).mpr <| by
            rw [Running, hcont]
            exact hrun
          have h₂ := hcount.unrepeated hscan₂ hs₂ hhead
          cases hnext with
          | idle hidle' => exact h₂.calm (hidle.trans hidle').toCalm hrun₂.2
          | ended hend => exact (h₂.calm hidle.toCalm hrun₂.2).ended hend

theorem unrepeated_newWorld : Unrepeated (newWorld : World Abi) := by
  have hlive : ∀ b, ¬ Live (published (newWorld : World Abi).log) b := by
    rintro b ⟨es₁, e, es₂, heq, -⟩
    cases es₁ <;> cases heq
  exact ⟨scanning_newWorld, sound_newWorld, fun t ht ↦ (by cases ht),
    fun _ b hb ↦ absurd hb (hlive b),
    fun _ _ _ _ b hb ↦ absurd hb (hlive b), fun _ _ _ _ b hb ↦ absurd hb (hlive b)⟩

/-! ## Events that are published again -/

section Again

variable {w w' : World Abi} {es₁ es₂ : List Event} {e : Event} {b : Nat}

/-- An event of a block is none of those that belong to no block. -/
theorem mem_of_published {es : List Event} (hes : published w'.log = published w.log ++ es)
    (hpub : published w'.log = published w.log ++ (es₁ ++ e :: es₂)) : e ∈ es := by
  rw [List.append_cancel_left (hes.symm.trans hpub)]
  simp

/-- What a received block publishes, once its position was accepted. -/
theorem Received.publishes_accepted {block : BlockPosition} {result : GetBlocksResult}
    (hc : w.proc.Cached) (h : Received lib block result w w') :
    (∃ e w₁ es, Accept block result w.counted (.error e w₁) ∧
        published w'.log = published w.log ++ es ∧ ∀ e ∈ es, e.Still) ∨
      ∃ w₁ es, Accept block result w.counted (.ok () w₁) ∧
        published w'.log = published w.log ++ (forkEvents block result w ++ es) ∧
        ∀ e ∈ es, e.Beside block.blockNum := by
  have hblock : ∀ {w₁ w₂ : World Abi} {r},
      Accept block result w.counted (.ok () w₁) → ProcessBlock lib block result w₁ r →
      (∃ es, published w₂.log = published w₁.log ++ es ∧ ∀ e ∈ es, e.Beside w₁.proc.head) →
      ∃ es, published w₂.log = published w.log ++ (forkEvents block result w ++ es) ∧
        ∀ e ∈ es, e.Beside block.blockNum := by
    rintro w₁ w₂ r haccept - ⟨es, hes, hin⟩
    have hpub : published w₁.log = published w.log ++ forkEvents block result w :=
      haccept.publishes
    have hhead : w₁.proc.head = block.blockNum :=
      congrArg StateObject.head (haccept.frame hc).2.2.2
    exact ⟨es, by rw [hes, hpub, List.append_assoc], fun e he ↦ hhead ▸ hin e he⟩
  have hstill : ∀ {w₂ : World Abi}, (∃ es, published w₂.log =
      published w.log ++ (forkEvents block result w ++ es) ∧ ∀ e ∈ es, e.Beside block.blockNum) →
      (∃ es, published w'.log = published w₂.log ++ es ∧ ∀ e ∈ es, e.Still) →
      ∃ es, published w'.log = published w.log ++ (forkEvents block result w ++ es) ∧
        ∀ e ∈ es, e.Beside block.blockNum := by
    rintro w₂ ⟨es, hes, hin⟩ ⟨es', hes', hin'⟩
    refine ⟨es ++ es', by rw [hes', hes]; simp only [List.append_assoc], fun e he ↦ ?_⟩
    rcases List.mem_append.mp he with he | he
    · exact hin e he
    · exact (hin' e he).beside _
  cases h with
  | refused haccept hstop =>
      obtain ⟨es, hes, hin⟩ := hstop.1.toCalm.publishes
      have hpub : published _ = published w.log := haccept.publishes
      exact .inl ⟨_, _, es, haccept, by rw [hes, hpub], hin⟩
  | @broken _ w₁ _ haccept hprocess hstop =>
      exact .inr ⟨w₁, (hstill (hblock haccept hprocess hprocess.publishes_beside)
        hstop.1.toCalm.publishes).imp fun _ h ↦ ⟨haccept, h⟩⟩
  | @completed w₁ _ _ haccept hprocess hidle hnext =>
      obtain ⟨es, hes, hin⟩ := hidle.toCalm.publishes
      obtain ⟨es', hes', hin'⟩ := hnext.publishes
      refine .inr ⟨w₁, (hstill (hblock haccept hprocess hprocess.publishes_beside)
        ⟨es ++ es', by rw [hes', hes, List.append_assoc], fun e he ↦ ?_⟩).imp
          fun _ h ↦ ⟨haccept, h⟩⟩
      rcases List.mem_append.mp he with he | he
      · exact hin e he
      · exact hin' e he

/-- What a received block publishes. -/
theorem Received.publishes {block : BlockPosition} {result : GetBlocksResult}
    (hc : w.proc.Cached) (h : Received lib block result w w') :
    (∃ es, published w'.log = published w.log ++ es ∧ ∀ e ∈ es, e.Still) ∨
      ∃ es, published w'.log = published w.log ++ (forkEvents block result w ++ es) ∧
        ∀ e ∈ es, e.Beside block.blockNum := by
  rcases h.publishes_accepted lib hc with ⟨e, w₁, es, -, hes⟩ | ⟨w₁, es, -, hes⟩
  · exact .inl ⟨es, hes⟩
  · exact .inr ⟨es, hes⟩

/-- Before an event of a live block a fork at or below it is published. -/
theorem Unrepeated.announced {i : Input} (h : Unrepeated w) (hi : ScanInput i)
    (hre : ResentAbove w i) (hlive : Live (published w.log) b) (he : e.block? = some b)
    (hpub : published (Chronicle.exec lib w i).log = published w.log ++ (es₁ ++ e :: es₂)) :
    ∃ f : ForkEvent, .fork f ∈ es₁ ∧ f.blockNum ≤ b := by
  -- nothing but a received block publishes events of a block
  have hother : ∀ {es}, published (Chronicle.exec lib w i).log = published w.log ++ es →
      (∀ e ∈ es, e.block? = none) → ∃ f : ForkEvent, .fork f ∈ es₁ ∧ f.blockNum ≤ b := by
    intro es hes hnone
    have hbad := hnone e (mem_of_published hes hpub)
    rw [he] at hbad
    cases hbad
  have hcalm : Calm w (Chronicle.exec lib w i) →
      ∃ f : ForkEvent, .fork f ∈ es₁ ∧ f.blockNum ≤ b := by
    intro hc
    obtain ⟨es, hes, hstill⟩ := hc.publishes
    exact hother hes fun e he ↦ (hstill e he).block?_eq_none
  cases h.scanning.exec_cases lib hi with
  | idle hidle => exact hcalm hidle.toCalm
  | acked _ hw => exact hcalm (hw ▸ calm_ackedBy _ w)
  | decoded hw => exact hcalm (hw ▸ calm_decoded lib _ w)
  | ended hidle hend =>
      obtain ⟨es, hes, hstill⟩ := hidle.toCalm.publishes
      exact hother (hend.publishes.trans hes) fun e he ↦ (hstill e he).block?_eq_none
  | @started o _ hs =>
      cases hs with
      | loaded hl =>
          refine hother (by rw [hl.log, published_append]) fun e he ↦ ?_
          obtain ⟨f, rfl, -⟩ := (published_startForks Abi o w.db).1 e he
          rfl
      | rejected hr =>
          have hsame : published (Chronicle.exec lib w (.start o)).log = published w.log ++ [] := by
            rw [hr.log, List.append_nil]
          exact hother hsame nofun
  | @received block result queueSize _ hblock hread hr =>
      rcases hr.publishes lib h.scanning.cached with ⟨es, hes, hstill⟩ | ⟨es, hes, hin⟩
      · exact hother hes fun e he ↦ (hstill e he).block?_eq_none
      have hmem := mem_of_published hes hpub
      have hnot : e ∉ forkEvents block result w := fun hf ↦ by
        rw [mem_forkEvents_block? hf] at he
        cases he
      obtain rfl : b = block.blockNum :=
        (hin e ((List.mem_append.mp hmem).resolve_left hnot)).2 b he
      have hle := h.head (running_of_reading hread) _ hlive
      have hlt := hre _ (delivered_receive queueSize hblock hread) hle
      have hfork : forkEvents block result w = [networkFork block.blockNum
          result.lastIrreversible.blockNum w.proc.head] := if_pos ⟨hlt, hle⟩
      have heq := List.append_cancel_left (hes.symm.trans hpub)
      rw [hfork, List.singleton_append] at heq
      cases es₁ with
      | nil =>
          rw [List.nil_append] at heq
          obtain ⟨rfl, -⟩ := List.cons.inj heq
          cases he
      | cons x es₁ =>
          obtain ⟨rfl, -⟩ := List.cons.inj heq
          exact ⟨_, List.mem_cons_self, le_rfl⟩

end Again

/-- In every run in which a block that was published goes into the database, or can be
undone, or is announced with the first block of all, and in which blocks that are sent again
are reversible and processes start at the oldest revision: an event of a block that was
published before by another input is published after a fork at or below the block. -/
theorem published_again_after_fork (inputs : List Input) (i : Input)
    (hrun : Run.Guarded (exec lib)
      (fun w i ↦ (ScanInput i ∧ SuccessfulStart w i) ∧
        ResentAbove w i ∧ StartsAligned w i ∧ StoredIfPublished w i)
      newWorld (inputs ++ [i]))
    {es₀ es₁ es₂ es₃ : List Event} {e₀ e : Event} {b : Nat}
    (hfirst : published (run lib newWorld inputs).log = es₀ ++ e₀ :: es₁)
    (he₀ : e₀.block? = some b)
    (hagain : published (run lib newWorld (inputs ++ [i])).log =
      (es₀ ++ e₀ :: es₁) ++ (es₂ ++ e :: es₃))
    (he : e.block? = some b) :
    ∃ f : ForkEvent, .fork f ∈ es₁ ++ es₂ ∧ f.blockNum ≤ b := by
  obtain ⟨hinputs, hi⟩ := Run.Guarded.append.mp hrun
  have hinv : Unrepeated (run lib newWorld inputs) :=
    hinputs.invariant (I := Unrepeated)
      (fun w i h hi ↦ h.exec lib hi.1.1 hi.2.1 hi.2.2.1 hi.2.2.2 hi.1.2) unrepeated_newWorld
  by_cases hbefore : ∃ f : ForkEvent, .fork f ∈ es₁ ∧ f.blockNum ≤ b
  · obtain ⟨f, hf, hle⟩ := hbefore
    exact ⟨f, List.mem_append_left _ hf, hle⟩
  push Not at hbefore
  have hlive : Live (published (run lib newWorld inputs).log) b :=
    ⟨es₀, e₀, es₁, hfirst, he₀, hbefore⟩
  rw [← hfirst, run, List.foldl_append] at hagain
  obtain ⟨f, hf, hle⟩ := hinv.announced lib hi.1.1.1 hi.1.2.1 hlive he hagain
  exact ⟨f, List.mem_append_right _ hf, hle⟩

/-- A result with a block that has a body. -/
def blockResult (block : BlockPosition) (prevId : Checksum256) (lastIrreversible : Nat)
    (deltas : Option (List (Parsed TableDelta))) : GetBlocksResult :=
  { bareResult block prevId lastIrreversible with
    block := some (.ok {}), deltas := deltas }

/-- Two blocks, of which the first is acknowledged and committed, and a restart. -/
def committedFirst : List Input :=
  [.start { exporterWillAck := true }, .ready 0, .ack 0, .timer 0,
    .result (blockResult ⟨1, 1⟩ 0 0 none), .ack 1, .result (blockResult ⟨2, 2⟩ 1 1 none),
    .start { exporterWillAck := true }, .ready 0, .ack 1, .timer 0]

/-- The events of a block with an empty body. -/
def startedEvent (block : BlockPosition) (lastIrreversible : Nat) : Event :=
  .blockStarted
    { blockNum := block.blockNum, blockId := block.blockId, blockTimestamp := 0, lastIrreversible }

@[inherit_doc startedEvent]
def bodyEvent (block : BlockPosition) (lastIrreversible : Nat) : Event :=
  .block { blockNum := block.blockNum, blockId := block.blockId, lastIrreversible, block := {} }

@[inherit_doc startedEvent]
def completedEvent (block : BlockPosition) (lastIrreversible : Nat) : Event :=
  .blockCompleted (blockFinished
    ({ head := block.blockNum, headId := block.blockId, irreversible := lastIrreversible } :
      Proc Unit))

/-- The events of `committedFirst` before the second block, -/
def firstEvents : List Event :=
  [.fork { blockNum := 1, depth := 0, forkReason := .resync, lastIrreversible := 0 },
    .receiverPause { head := 0, acknowledged := 0 }, startedEvent ⟨1, 1⟩ 0, bodyEvent ⟨1, 1⟩ 0,
    completedEvent ⟨1, 1⟩ 0, startedEvent ⟨2, 2⟩ 1]

/-- and those after its body. -/
def restartEvents : List Event :=
  [completedEvent ⟨2, 2⟩ 1,
    .fork { blockNum := 2, depth := 1, forkReason := .restart, lastIrreversible := 0 },
    .receiverPause { head := 1, acknowledged := 1 }]

set_option maxRecDepth 10000 in
theorem published_committedFirst : published (run .lenient newWorld committedFirst).log =
    firstEvents ++ bodyEvent ⟨2, 2⟩ 1 :: restartEvents := rfl

set_option maxRecDepth 10000 in
/-- The process that has undone the second block announces a fork at it before it publishes
the block again. -/
theorem published_again_second :
    ∃ f : ForkEvent, .fork f ∈ restartEvents ++ [startedEvent ⟨2, 2⟩ 1] ∧ f.blockNum ≤ 2 := by
  have hagain : published (run .lenient newWorld
      (committedFirst ++ [.result (blockResult ⟨2, 2⟩ 1 1 none)])).log =
        (firstEvents ++ bodyEvent ⟨2, 2⟩ 1 :: restartEvents) ++
          ([startedEvent ⟨2, 2⟩ 1] ++ bodyEvent ⟨2, 2⟩ 1 :: [completedEvent ⟨2, 2⟩ 1]) := rfl
  exact published_again_after_fork .lenient committedFirst _ (by decide) published_committedFirst
    rfl hagain rfl

/-- The deltas of the second block cannot be unpacked when it comes again. -/
def brokenSecond : List Input := committedFirst ++
  [.result (blockResult ⟨2, 2⟩ 1 1 (some [.error "unexpected end of stream"])),
    .start { exporterWillAck := true }, .ready 0]

set_option maxRecDepth 10000 in
/-- The process that starts after the first block was committed undoes the second one and
announces that.  Its deltas cannot be unpacked now, after the block itself was published
again; and the next process has nothing to undo, and announces nothing. -/
theorem republished_without_fork :
    ∃ (inputs : List Input) (i : Input) (es₀ es₁ es₂ es₃ : List Event) (e₀ e : Event) (b : Nat),
      Run.Guarded (exec .lenient)
        (fun w i ↦ (ScanInput i ∧ SuccessfulStart w i) ∧ AckedStart 0 w i ∧ AckReceived w i ∧
          FollowsHead 0 w i)
        newWorld (inputs ++ [i]) ∧
      published (run .lenient newWorld inputs).log = es₀ ++ e₀ :: es₁ ∧ e₀.block? = some b ∧
      published (run .lenient newWorld (inputs ++ [i])).log =
        (es₀ ++ e₀ :: es₁) ++ (es₂ ++ e :: es₃) ∧ e.block? = some b ∧
      ¬ ∃ f : ForkEvent, .fork f ∈ es₁ ++ es₂ ∧ f.blockNum ≤ b := by
  refine ⟨brokenSecond, .result (blockResult ⟨2, 2⟩ 1 1 none),
    firstEvents ++ bodyEvent ⟨2, 2⟩ 1 :: restartEvents ++ [startedEvent ⟨2, 2⟩ 1], [], [],
    [bodyEvent ⟨2, 2⟩ 1, completedEvent ⟨2, 2⟩ 1], bodyEvent ⟨2, 2⟩ 1, startedEvent ⟨2, 2⟩ 1, 2,
    by decide, rfl, rfl, rfl, rfl, ?_⟩
  rintro ⟨f, hf, -⟩
  cases hf

end Chronicle
