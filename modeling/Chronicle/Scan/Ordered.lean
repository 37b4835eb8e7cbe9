import Chronicle.Scan.Step
import Chronicle.Logic.Run

/-!
# What every revision holds

In every run of scan mode where a re-sent block is above the irreversible one of its own
result, no table of a revision holds anything dated after the head of its state object,
and that head is not above the revision; a revision without a state object is empty.
-/

namespace Chronicle

open Store Effect

variable {Abi : Type} (lib : Abieos Abi)

/-! ## Runs in scan mode -/

/-- Processes are only started in scan mode. -/
def ScanInput : Input → Prop
  | .start o => o.interactiveMode = false
  | _ => True

instance : (i : Input) → Decidable (ScanInput i)
  | .start o => inferInstanceAs (Decidable (o.interactiveMode = false))
  | .ready _ | .receive _ _ | .timer _ | .ack _ | .slowdown _ | .stale | .decode _ | .request _
  | .scanner _ => .isTrue trivial

/-- A block that is not above the head is above the irreversible block of its result. -/
def ResentAbove (w : World Abi) (i : Input) : Prop :=
  ∀ d ∈ delivered w i, d.1.blockNum ≤ w.proc.head →
    d.2.lastIrreversible.blockNum < d.1.blockNum

instance (w : World Abi) (i : Input) : Decidable (ResentAbove w i) :=
  inferInstanceAs (Decidable (∀ _ ∈ _, _))

/-- The stream delivers the block above the head, or it goes back to a reversible block
above `first`, the head before the first block. -/
def FollowsHead (first : Nat) (w : World Abi) (i : Input) : Prop :=
  ∀ d ∈ delivered w i, d.1.blockNum = w.proc.head + 1 ∨
    (d.2.lastIrreversible.blockNum < d.1.blockNum ∧ d.1.blockNum ≤ w.proc.head ∧
      first < d.1.blockNum)

instance (first : Nat) (w : World Abi) (i : Input) : Decidable (FollowsHead first w i) :=
  inferInstanceAs (Decidable (∀ _ ∈ _, _))

theorem FollowsHead.resentAbove {first : Nat} {w : World Abi} {i : Input}
    (h : FollowsHead first w i) : ResentAbove w i := by
  intro d hd hle
  rcases h d hd with hnext | ⟨habove, -, -⟩
  · omega
  · exact habove

/-- The block that an input delivers is processed without an exception. -/
def Processed (w : World Abi) (i : Input) : Prop :=
  ∀ d ∈ delivered w i,
    Ends (fun _ _ ↦ True) (fun _ _ ↦ False) (receiveResult lib (.ok d.2) w)

instance (w : World Abi) (i : Input) : Decidable (Processed lib w i) :=
  have : ∀ r : EStateM.Result Abort (World Abi) Bool,
      Decidable (Ends (fun _ _ ↦ True) (fun _ _ ↦ False) r)
    | .ok _ _ => .isTrue trivial
    | .error _ _ => .isFalse not_false
  inferInstanceAs (Decidable (∀ _ ∈ _, _))

/-- A world in scan mode: the options say so, and the cache knows what it holds. -/
structure Scanning (w : World Abi) : Prop where
  mode : w.options.interactiveMode = false
  cached : w.proc.Cached

/-- Every input in scan mode does one of the things listed. -/
theorem Scanning.exec_cases {w : World Abi} {i : Input} (h : Scanning w) (hi : ScanInput i) :
    Exec lib w i (exec lib w i) := by
  refine Chronicle.exec_cases lib h.mode ?_ h.cached
  rintro o rfl
  exact hi

theorem Scanning.calm {w w' : World Abi} (h : Scanning w) (hcalm : Calm w w') : Scanning w' :=
  ⟨hcalm.options ▸ h.mode, hcalm.cached h.cached⟩

theorem Scanning.ended {w w' : World Abi} (h : Scanning w) (hend : Ended w w') : Scanning w' :=
  ⟨hend.options ▸ h.mode, hend.cache.cached h.cached⟩

theorem Scanning.next {w w' : World Abi} (h : Scanning w) (hnext : Next w w') : Scanning w' := by
  cases hnext with
  | idle hidle => exact h.calm hidle.toCalm
  | ended hend => exact h.ended hend

theorem Scanning.accept {block : BlockPosition} {result : GetBlocksResult} {w : World Abi}
    {r : EStateM.Result Abort (World Abi) Unit} (h : Scanning w)
    (haccept : Accept block result w r) :
    Ends (fun _ ↦ Scanning) (fun _ ↦ Scanning) r :=
  (haccept.frame h.cached).mono (fun _ _ hf ↦ ⟨hf.1 ▸ h.mode, hf.2.2.1⟩)
    fun _ _ hf ↦ ⟨hf.1 ▸ h.mode, hf.2.2.1⟩

variable {lib} in
theorem Scanning.process {block : BlockPosition} {result : GetBlocksResult} {w : World Abi}
    {r : EStateM.Result Abort (World Abi) Unit} (h : Scanning w)
    (hprocess : ProcessBlock lib block result w r) :
    Ends (fun _ ↦ Scanning) (fun _ ↦ Scanning) r :=
  (hprocess.frame h.cached).mono (fun _ _ hf ↦ ⟨hf.1 ▸ h.mode, hf.2.2⟩)
    fun _ _ hf ↦ ⟨hf.1 ▸ h.mode, hf.2.2⟩

/-- Scan mode is never left, and the cache goes on knowing what it holds. -/
theorem Scanning.exec {w : World Abi} {i : Input} (h : Scanning w) (hi : ScanInput i) :
    Scanning (exec lib w i) := by
  cases h.exec_cases lib hi with
  | idle hidle => exact h.calm hidle.toCalm
  | acked _ hw => exact hw ▸ h.calm (calm_ackedBy _ w)
  | decoded hw => exact hw ▸ h.calm (calm_decoded lib _ w)
  | ended hidle hend => exact (h.calm hidle.toCalm).ended hend
  | started hs =>
      cases hs with
      | loaded hl =>
          exact ⟨(congrArg Options.interactiveMode hl.options).trans hi,
            hl.cache.cached (Proc.cached_init _)⟩
      | rejected hr =>
          exact ⟨(congrArg Options.interactiveMode hr.options).trans hi,
            hr.cache.cached (Proc.cached_init _)⟩
  | received _ _ hr =>
      have h₀ : Scanning w.counted := ⟨h.mode, h.cached⟩
      cases hr with
      | refused haccept hstop => exact (h₀.accept haccept : Scanning _).calm hstop.1.toCalm
      | broken haccept hprocess hstop =>
          have h₁ : Scanning _ := h₀.accept haccept
          exact (h₁.process hprocess : Scanning _).calm hstop.1.toCalm
      | completed haccept hprocess hidle hnext =>
          have h₁ : Scanning _ := h₀.accept haccept
          have h₂ : Scanning _ := h₁.process hprocess
          exact (h₂.calm hidle.toCalm).next hnext

theorem scanning_newWorld : Scanning (newWorld : World Abi) :=
  ⟨rfl, fun _ h ↦ by simp [newWorld] at h⟩

/-! ## Dates -/

namespace Tables

/-- No row is dated after block `h`. -/
structure Dated (t : Tables) (h : Nat) : Prop where
  received : ∀ k id, t.receivedBlocks.find? k = some id → k ≤ h
  history : ∀ a k data, t.contractAbiHistory.find? (toLex (a, k)) = some data → k ≤ h

theorem dated_empty (h : Nat) : (∅ : Tables).Dated h :=
  ⟨fun _ _ h ↦ (by cases h), fun _ _ _ h ↦ (by cases h)⟩

theorem Dated.mono {t : Tables} {h h' : Nat} (ht : t.Dated h) (hle : h ≤ h') : t.Dated h' :=
  ⟨fun k id hk ↦ (ht.received k id hk).trans hle, fun a k x hk ↦ (ht.history a k x hk).trans hle⟩

theorem Dated.writeHistory {t : Tables} {h : Nat} (ht : t.Dated h) (account : Name)
    (data : Bytes) : (t.writeHistory h account data).Dated h := by
  refine ⟨ht.received, fun a k x hk ↦ ?_⟩
  rw [Tables.writeHistory, Table.find?_insert] at hk
  split_ifs at hk with heq
  · exact (Prod.mk.inj (toLex_inj.mp heq)).2.le
  · exact ht.history a k x hk

theorem Dated.setAbi {t : Tables} {h : Nat} (ht : t.Dated h) (acc : AccountV0) :
    (t.setAbi lib h acc).Dated h := by
  rw [Tables.setAbi]
  split_ifs
  · rw [clearAbi]
    split_ifs
    · have herase : ({ t with contractAbi := t.contractAbi.erase acc.name } : Tables).Dated h :=
        ⟨ht.received, ht.history⟩
      exact herase.writeHistory acc.name []
    · exact ht
  · rw [saveAbi]
    split_ifs
    · have hinsert : ({ t with contractAbi := t.contractAbi.insert acc.name acc.abi } :
          Tables).Dated h := ⟨ht.received, ht.history⟩
      exact hinsert.writeHistory acc.name acc.abi
    · exact ht.writeHistory acc.name acc.abi

theorem Dated.setAbis {t : Tables} {h : Nat} (ht : t.Dated h) (accounts : List AccountV0) :
    (t.setAbis lib h accounts).Dated h := by
  induction accounts generalizing t with
  | nil => exact ht
  | cons acc accounts ih => exact ih (ht.setAbi lib acc)

theorem Dated.addReceived {t : Tables} {block : BlockPosition} (ht : t.Dated block.blockNum)
    (irreversible : Nat) : (t.addReceived block irreversible).Dated block.blockNum := by
  rw [Tables.addReceived]
  split_ifs
  · refine ⟨fun k id hk ↦ ?_, ht.history⟩
    rw [Table.find?_filter, Option.filter_eq_some_iff, Table.find?_insert] at hk
    split_ifs at hk with heq
    · exact heq.le
    · exact ht.received k id hk.1
  · exact ht

/-- What a revision holds: nothing if there is no state object, and otherwise nothing that
is dated after its head. -/
structure Settled (t : Tables) (r : Nat) : Prop where
  empty : t.state = none → t = ∅
  dated : ∀ s, t.state = some s → s.head ≤ r ∧ t.Dated s.head

theorem settled_empty (r : Nat) : (∅ : Tables).Settled r :=
  ⟨fun _ ↦ rfl, fun _ h ↦ by cases h⟩

theorem Settled.mono {t : Tables} {r r' : Nat} (h : t.Settled r) (hle : r ≤ r') : t.Settled r' :=
  ⟨h.empty, fun s hs ↦ ⟨(h.dated s hs).1.trans hle, (h.dated s hs).2⟩⟩

end Tables

/-- A block is dated by its own number. -/
theorem blockEffect_settled {block : BlockPosition} {result : GetBlocksResult} {t : Tables}
    {r : Nat} (ht : t.Settled r) (hlt : ∀ s, t.state = some s → s.head < block.blockNum)
    {r' : Nat} (hr : block.blockNum ≤ r') :
    (blockEffect lib block result t).Settled r' := by
  have hdated : t.Dated block.blockNum := by
    cases hs : t.state with
    | none => exact ht.empty hs ▸ Tables.dated_empty _
    | some s => exact (ht.dated s hs).2.mono (hlt s hs).le
  have hafter := (hdated.addReceived result.lastIrreversible.blockNum).setAbis lib result.accounts
  refine ⟨fun h ↦ (by cases h), fun s hs ↦ ?_⟩
  obtain rfl : stateOf block result = s := Option.some.inj hs
  exact ⟨hr, hafter.received, hafter.history⟩

/-- In a settled revision below a block its number is free. -/
theorem Tables.Settled.free {t : Tables} {r : Nat} {block : BlockPosition} (ht : t.Settled r)
    (hlt : ∀ s, t.state = some s → s.head < block.blockNum) (irreversible : Nat) :
    t.Free block irreversible := by
  intro _
  cases hf : t.receivedBlocks.find? block.blockNum with
  | none => rfl
  | some id =>
      cases hs : t.state with
      | none =>
          rw [ht.empty hs] at hf
          cases hf
      | some s =>
          have hle := (ht.dated s hs).2.received _ _ hf
          have hlt := hlt s hs
          omega

/-! ## Revisions -/

/-- Every revision is settled, and all but the oldest have a state object. -/
structure OrderedDb (db : Undo Tables) : Prop where
  settled : ∀ r t, db.at? r = some t → t.Settled r
  stated : ∀ r t, db.at? r = some t → db.base < r → t.state ≠ none

/-- How `raisedDb` moves the revision. -/
theorem raisedDb_eq_some {b : Nat} {db db' : Undo Tables} (h : raisedDb b db = some db') :
    (Uint32.pred b ≤ db.revision ∧ db' = db) ∨
      (db.revision < Uint32.pred b ∧ db.stack = [] ∧ db' = ⟨Uint32.pred b, db.current, []⟩) := by
  rw [raisedDb] at h
  split_ifs at h with hlt
  · obtain ⟨hs, -, rfl⟩ := Undo.setRevision_eq_some h
    exact .inr ⟨hlt, hs, rfl⟩
  · exact .inl ⟨not_lt.mp hlt, (Option.some.inj h).symm⟩

theorem raisedDb_current {b : Nat} {db db' : Undo Tables} (h : raisedDb b db = some db') :
    db'.current = db.current := by
  rcases raisedDb_eq_some h with ⟨-, rfl⟩ | ⟨-, -, rfl⟩ <;> rfl

theorem pred_le_raisedDb {b : Nat} {db db' : Undo Tables} (h : raisedDb b db = some db') :
    Uint32.pred b ≤ db'.revision := by
  rcases raisedDb_eq_some h with ⟨hle, rfl⟩ | ⟨-, -, rfl⟩
  · exact hle
  · exact le_rfl

namespace OrderedDb

variable {db db' : Undo Tables}

/-- The state as of a revision of a narrower database. -/
theorem of_at? (h : OrderedDb db) (hb : db.base ≤ db'.base)
    (hat : ∀ r t, db'.at? r = some t → db.at? r = some t) : OrderedDb db' :=
  ⟨fun r t ht ↦ h.settled r t (hat r t ht),
    fun r t ht hlt ↦ h.stated r t (hat r t ht) (hb.trans_lt hlt)⟩

theorem commit (h : OrderedDb db) (c : Nat) : OrderedDb (db.commit c) :=
  h.of_at? (le_max_left ..) fun _ _ ht ↦ Undo.at?_commit_eq_some ht

theorem undoAll (h : OrderedDb db) : OrderedDb db.undoAll :=
  h.of_at? le_rfl fun _ _ ht ↦ Undo.at?_undoAll ht

theorem rollback (h : OrderedDb db) {n : Nat} (hroll : db.rollback n = some db') :
    OrderedDb db' := by
  obtain ⟨hb, -, -, hat⟩ := Undo.rollback_spec hroll
  refine h.of_at? hb.ge fun r t ht ↦ ?_
  rw [← hat r (Undo.le_revision_of_at? ht)]
  exact ht

theorem raised (h : OrderedDb db) {b : Nat} (hr : raisedDb b db = some db') : OrderedDb db' := by
  rcases raisedDb_eq_some hr with ⟨-, rfl⟩ | ⟨hlt, -, rfl⟩
  · exact h
  · refine ⟨fun r t ht ↦ ?_, fun r t ht hb ↦ ?_⟩
    · obtain ⟨rfl, rfl⟩ := Undo.at?_mk_nil ht
      exact (h.settled _ _ db.at?_revision).mono hlt.le
    · exact absurd (Undo.at?_mk_nil ht).1.le (not_le.mpr hb)

/-- One more revision. -/
theorem session (h : OrderedDb db) {f : Tables → Tables}
    (hf : (f db.current).Settled (db.revision + 1)) (hs : (f db.current).state ≠ none) :
    OrderedDb (db.startUndoSession.modify f) := by
  refine ⟨fun r t ht ↦ ?_, fun r t ht hb ↦ ?_⟩
  · rcases Undo.at?_session_eq_some ht with ⟨-, ht⟩ | ⟨rfl, rfl⟩
    · exact h.settled r t ht
    · exact hf
  · rcases Undo.at?_session_eq_some ht with ⟨-, ht⟩ | ⟨rfl, rfl⟩
    · exact h.stated r t ht hb
    · exact hs

end OrderedDb

/-! ## The invariant -/

/-- The revisions are in order, and a running process is where its state object says. -/
structure Ordered (w : World Abi) : Prop where
  db : OrderedDb w.db
  position : Running w → ∀ s, w.db.current.state = some s → s = w.proc.position

/-- A world whose position was accepted, before the block is stored. -/
structure Placed (block : BlockPosition) (w : World Abi) : Prop where
  ordered : OrderedDb w.db
  reach : block.blockNum ≤ w.db.revision + 1
  below : ∀ s, w.db.current.state = some s → s.head < block.blockNum

section Steps

variable {block : BlockPosition} {result : GetBlocksResult} {w w₁ w' : World Abi}

/-- An accepted block that is above the head or above the irreversible block is placed above
what the database holds. -/
theorem Accept.placed (h : Accept block result w (.ok () w₁)) (hord : OrderedDb w.db)
    (hpos : ∀ s, w.db.current.state = some s → s = w.proc.position)
    (hre : block.blockNum ≤ w.proc.head →
      result.lastIrreversible.blockNum < block.blockNum) : Placed block w₁ := by
  have hext : ∀ {db}, raisedDb block.blockNum w.db = some db → w.proc.head < block.blockNum →
      OrderedDb db ∧ block.blockNum ≤ db.revision + 1 ∧
        ∀ s, db.current.state = some s → s.head < block.blockNum := by
    intro db hraised hlt
    have hpred := pred_le_raisedDb hraised
    rw [Uint32.pred_of_pos (by omega)] at hpred
    refine ⟨hord.raised hraised, by omega, fun s hs ↦ ?_⟩
    rw [raisedDb_current hraised] at hs
    exact hpos s hs ▸ hlt
  cases h with
  | forked hopen _ hroll _ =>
      have hpred := pred_le_raisedDb hopen.raised
      have habove := hopen.above
      rw [Uint32.pred_of_pos (by omega)] at hpred
      obtain ⟨-, hrev, -, -⟩ := Undo.rollback_spec hroll
      have hroll' := (hord.raised hopen.raised).rollback hroll
      refine ⟨hroll', by simp only; omega, fun s hs ↦ ?_⟩
      have hle := ((hroll'.settled _ _ (Undo.at?_revision _)).dated s hs).1
      omega
  | extended hopen habove _ =>
      obtain ⟨h₁, h₂, h₃⟩ := hext hopen.raised habove
      exact ⟨h₁, h₂, h₃⟩
  | unchecked _ hraised hbelow =>
      have habove : w.proc.head < block.blockNum := by
        by_contra hle
        exact absurd (hre (by omega)) (by omega)
      obtain ⟨h₁, h₂, h₃⟩ := hext hraised habove
      exact ⟨h₁, h₂, h₃⟩

/-- A refused block leaves the revisions in order. -/
theorem Accept.orderedDb {e : Abort} (h : Accept block result w (.error e w₁))
    (hord : OrderedDb w.db) : OrderedDb w₁.db := by
  cases h with
  | unmoved => exact hord
  | refused hopen _ _ => exact hord.raised hopen.raised
  | endless hopen _ _ => exact (hord.raised hopen.raised).undoAll
  | bottom hopen _ hroll _ => exact (hord.raised hopen.raised).rollback hroll

variable {lib} in
/-- A stored block leaves the revisions in order, with its own position on top. -/
theorem Placed.stored (h : Placed block w) (hat : AtBlock block result w)
    (hs : Stored lib block result w w') :
    OrderedDb w'.db ∧ w'.db.current.state = some w'.proc.position := by
  have hsettled : (blockEffect lib block result w.db.current).Settled (w.db.revision + 1) :=
    blockEffect_settled lib (h.ordered.settled _ _ w.db.at?_revision) h.below h.reach
  have hpos : w'.proc.position = stateOf block result :=
    (Proc.member_eq hs.core Proc.position fun _ ↦ rfl).trans hat
  rw [hs.db, hpos]
  exact ⟨(h.ordered.session hsettled (by simp)).commit _, rfl⟩

theorem Ordered.calm (h : Ordered w) (hc : Calm w w') : Ordered w' := by
  refine ⟨hc.db ▸ h.db, fun hrun s hs ↦ ?_⟩
  rw [hc.db] at hs
  rw [hc.position]
  exact h.position (hc.running hrun) s hs

/-- A process that has stopped need not know its position. -/
theorem OrderedDb.stopped (h : OrderedDb w.db) (hc : Calm w w') (hstop : ¬ Running w') :
    Ordered w' := ⟨hc.db ▸ h, fun hrun ↦ absurd hrun hstop⟩

theorem Ordered.ended (h : Ordered w) (hend : Ended w w') : Ordered w' :=
  ⟨hend.db ▸ h.db.commit _, fun hrun ↦ absurd hrun hend.stopped⟩

theorem Ordered.next (h : Ordered w) (hnext : Next w w') : Ordered w' := by
  cases hnext with
  | idle hidle => exact h.calm hidle.toCalm
  | ended hend => exact h.ended hend

theorem Ordered.started {o : Options} (h : Ordered w) (hs : Started o w w') : Ordered w' := by
  cases hs with
  | loaded hl =>
      refine ⟨hl.db ▸ h.db.undoAll, fun _ s hs ↦ ?_⟩
      rw [hl.db] at hs
      rw [hl.position, startPosition, hs]
      rfl
  | rejected hr => exact ⟨hr.db ▸ h.db.undoAll, fun hrun ↦ absurd hrun hr.stopped⟩

theorem running_of_reading (hread : w.proc.continuation = .reading) : Running w := by
  exact (running_iff hread).mpr (by decide)

variable {lib} in
/-- What is known when the position of a result was accepted. -/
theorem Accept.placed_counted (hscan : Scanning w) (h : Ordered w)
    (hread : w.proc.continuation = .reading)
    (hre : block.blockNum ≤ w.proc.head → result.lastIrreversible.blockNum < block.blockNum)
    (haccept : Accept block result w.counted (.ok () w₁)) :
    Placed block w₁ ∧ Scanning w₁ ∧ AtBlock block result w₁ := by
  have h₀ : Scanning w.counted := ⟨hscan.mode, hscan.cached⟩
  exact ⟨haccept.placed h.db (h.position (running_of_reading hread)) hre, h₀.accept haccept,
    (haccept.frame h₀.cached).2.2.2⟩

variable {lib} in
/-- What is known when the block was not completed. -/
theorem ProcessBlock.orderedDb_error {e : Abort} (hplaced : Placed block w)
    (hat : AtBlock block result w) (h : ProcessBlock lib block result w (.error e w₁)) :
    OrderedDb w₁.db := by
  cases h with
  | unreadable => exact hplaced.ordered
  | failed _ _ hw => exact hw.2 ▸ hplaced.ordered
  | untraced _ _ _ hstored hw => exact hw.2 ▸ (hplaced.stored hat hstored).1

variable {lib} in
/-- What is known when the block was completed. -/
theorem ProcessBlock.ordered_ok (hplaced : Placed block w) (hat : AtBlock block result w)
    (h : ProcessBlock lib block result w (.ok () w₁)) : Ordered w₁ := by
  cases h with
  | completed _ _ _ hstored hw =>
      obtain ⟨hord, hpos⟩ := hplaced.stored hat hstored
      refine ⟨hw.2 ▸ hord, fun _ s hs ↦ ?_⟩
      have hsame := hw.1.member Proc.position fun _ ↦ rfl
      change _ = some s at hs
      rw [hw.2, hpos] at hs
      exact (Option.some.inj hs).symm.trans hsame.symm

end Steps

/-- Every input keeps the revisions in order, provided that a block that is sent again is
above the irreversible one. -/
theorem Ordered.exec {w : World Abi} {i : Input} (hscan : Scanning w) (h : Ordered w)
    (hi : ScanInput i) (hre : ResentAbove w i) : Ordered (exec lib w i) := by
  cases hscan.exec_cases lib hi with
  | idle hidle => exact h.calm hidle.toCalm
  | acked _ hw => exact hw ▸ h.calm (calm_ackedBy _ w)
  | decoded hw => exact hw ▸ h.calm (calm_decoded lib _ w)
  | ended hidle hend => exact (h.calm hidle.toCalm).ended hend
  | started hs => exact h.started hs
  | received hblock hread hr =>
      have hre' := hre _ (delivered_receive _ hblock hread)
      cases hr with
      | refused haccept hstop =>
          exact (haccept.orderedDb h.db).stopped hstop.1.toCalm hstop.2
      | broken haccept hprocess hstop =>
          obtain ⟨hplaced, -, hat⟩ := Accept.placed_counted hscan h hread hre' haccept
          exact (hprocess.orderedDb_error hplaced hat).stopped hstop.1.toCalm hstop.2
      | completed haccept hprocess hidle hnext =>
          obtain ⟨hplaced, -, hat⟩ := Accept.placed_counted hscan h hread hre' haccept
          exact ((hprocess.ordered_ok hplaced hat).calm hidle.toCalm).next hnext

theorem ordered_newWorld : Ordered (newWorld : World Abi) := by
  have hat : ∀ r t, (newWorld : World Abi).db.at? r = some t → r = 0 ∧ t = ∅ :=
    fun _ _ ht ↦ Undo.at?_mk_nil ht
  refine ⟨⟨fun r t ht ↦ ?_, fun r t ht hlt ↦ ?_⟩, fun h ↦ absurd rfl h.1⟩
  · obtain ⟨rfl, rfl⟩ := hat r t ht
    exact Tables.settled_empty 0
  · exact absurd (hat r t ht).1.le (not_le.mpr hlt)

end Chronicle
