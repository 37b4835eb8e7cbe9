import Chronicle.Scan.Ordered

/-!
# The tables of the next database

Whatever an input does, the tables of every revision that is left were there before, or
they are what the delivered block makes of tables that were there before.  So whatever
holds of empty tables and is kept by a block holds of every revision in every run.
-/

namespace Chronicle

open Store Effect

variable {Abi : Type} (lib : Abieos Abi)

/-- Where the tables of a revision come from after one input. -/
inductive NextTables (w : World Abi) (i : Input) : Tables → Prop
  /-- They were there before. -/
  | kept {r : Nat} {t : Tables} (hat : w.db.at? r = some t) : NextTables w i t
  /-- They are those after the delivered block. -/
  | block {d : BlockPosition × GetBlocksResult} {r : Nat} {t : Tables} (hd : d ∈ delivered w i)
      (hat : w.db.at? r = some t)
      (hbelow : Ordered w → (d.1.blockNum ≤ w.proc.head →
        d.2.lastIrreversible.blockNum < d.1.blockNum) →
        ∀ s, t.state = some s → s.head < d.1.blockNum) :
    NextTables w i (blockEffect lib d.1 d.2 t)

section Steps

variable {block : BlockPosition} {result : GetBlocksResult} {w w₁ w' : World Abi}

/-- The tables of a revision after the revision was raised. -/
theorem at?_raisedDb {b r : Nat} {db db' : Undo Tables} {t : Tables}
    (hr : raisedDb b db = some db') (h : db'.at? r = some t) : ∃ r', db.at? r' = some t := by
  rcases raisedDb_eq_some hr with ⟨-, rfl⟩ | ⟨-, -, rfl⟩
  · exact ⟨r, h⟩
  · obtain ⟨-, rfl⟩ := Undo.at?_mk_nil h
    exact ⟨db.revision, db.at?_revision⟩

/-- The tables of a revision after a rollback. -/
theorem at?_rollback {b n r : Nat} {db db₁ db' : Undo Tables} {t : Tables}
    (hr : raisedDb b db = some db₁) (hroll : db₁.rollback n = some db')
    (h : db'.at? r = some t) : ∃ r', db.at? r' = some t := by
  refine at?_raisedDb (r := r) hr ?_
  rw [← (Undo.rollback_spec hroll).2.2.2 r (Undo.le_revision_of_at? h)]
  exact h

/-- The check of a position adds no tables. -/
theorem Accept.kept {r : EStateM.Result Abort (World Abi) Unit} (h : Accept block result w r) :
    Ends (fun _ w' ↦ ∀ r t, w'.db.at? r = some t → ∃ r', w.db.at? r' = some t)
      (fun _ w' ↦ ∀ r t, w'.db.at? r = some t → ∃ r', w.db.at? r' = some t) r := by
  cases h with
  | unmoved => exact fun r _ ht ↦ ⟨r, ht⟩
  | refused hopen _ _ => exact fun _ _ ht ↦ at?_raisedDb hopen.raised ht
  | endless hopen _ _ => exact fun _ _ ht ↦ at?_raisedDb hopen.raised (Undo.at?_undoAll ht)
  | bottom hopen _ hroll _ => exact fun _ _ ht ↦ at?_rollback hopen.raised hroll ht
  | forked hopen _ hroll _ => exact fun _ _ ht ↦ at?_rollback hopen.raised hroll ht
  | extended hopen _ _ => exact fun _ _ ht ↦ at?_raisedDb hopen.raised ht
  | unchecked _ hraised _ => exact fun _ _ ht ↦ at?_raisedDb hraised ht

variable {lib}

/-- Storing a block adds its own tables. -/
theorem Stored.at? (h : Stored lib block result w w') {r : Nat} {t : Tables}
    (ht : w'.db.at? r = some t) :
    w.db.at? r = some t ∨ t = blockEffect lib block result w.db.current := by
  rw [h.db] at ht
  rcases Undo.at?_session_eq_some (Undo.at?_commit_eq_some ht) with ⟨-, ht⟩ | ⟨-, rfl⟩
  · exact .inl ht
  · exact .inr rfl

/-- However a block ends, it adds at most its own tables. -/
theorem ProcessBlock.at? {r : EStateM.Result Abort (World Abi) Unit}
    (h : ProcessBlock lib block result w r) :
    Ends
      (fun _ w' ↦ ∀ r t, w'.db.at? r = some t →
        w.db.at? r = some t ∨ t = blockEffect lib block result w.db.current)
      (fun _ w' ↦ ∀ r t, w'.db.at? r = some t →
        w.db.at? r = some t ∨ t = blockEffect lib block result w.db.current) r := by
  cases h with
  | unreadable => exact fun _ _ ht ↦ .inl ht
  | failed _ _ hw => exact fun _ _ ht ↦ .inl (hw.2 ▸ ht)
  | untraced _ _ _ hstored hw => exact fun _ _ ht ↦ hstored.at? (hw.2 ▸ ht)
  | completed _ _ _ hstored hw => exact fun _ _ ht ↦ hstored.at? (hw.2 ▸ ht)

theorem Next.at? (h : Next w w') {r : Nat} {t : Tables} (ht : w'.db.at? r = some t) :
    w.db.at? r = some t := by
  cases h with
  | idle hidle => exact hidle.db ▸ ht
  | ended hend =>
      rw [hend.db] at ht
      exact Undo.at?_commit_eq_some ht

theorem Started.at? {o : Options} (h : Started o w w') {r : Nat} {t : Tables}
    (ht : w'.db.at? r = some t) : w.db.at? r = some t := by
  cases h with
  | loaded hl =>
      rw [hl.db] at ht
      exact Undo.at?_undoAll ht
  | rejected hr =>
      rw [hr.db] at ht
      exact Undo.at?_undoAll ht

/-- Tables after a block whose position was accepted. -/
theorem Accept.nextTables {i : Input} (haccept : Accept block result w.counted (.ok () w₁))
    (hscan : Scanning w) (hread : w.proc.continuation = .reading)
    (hd : (block, result) ∈ delivered w i) {r : Nat} {t : Tables}
    (ht : w₁.db.at? r = some t ∨ t = blockEffect lib block result w₁.db.current) :
    NextTables lib w i t := by
  rcases ht with ht | rfl
  · obtain ⟨r', hr'⟩ := haccept.kept _ _ ht
    exact .kept hr'
  · obtain ⟨r', hr'⟩ := haccept.kept _ _ w₁.db.at?_revision
    exact .block hd hr' fun hord hre ↦
      (Accept.placed_counted hscan hord hread hre haccept).1.below

end Steps

/-- The tables of every revision after an input. -/
theorem exec_at? {w : World Abi} {i : Input} (hscan : Scanning w) (hi : ScanInput i) {r : Nat}
    {t : Tables} (h : (exec lib w i).db.at? r = some t) : NextTables lib w i t := by
  cases hscan.exec_cases lib hi with
  | idle hidle => exact .kept (hidle.db ▸ h)
  | acked _ hw => exact .kept (w := w) (r := r) (by rwa [hw] at h)
  | decoded hw => exact .kept (w := w) (r := r) (by rwa [hw] at h)
  | ended hidle hend => exact .kept (hidle.db ▸ (Next.ended hend).at? h)
  | started hs => exact .kept (hs.at? h)
  | @received block result queueSize _ hblock hread hr =>
      have hd := delivered_receive queueSize hblock hread
      cases hr with
      | refused haccept hstop =>
          rw [hstop.1.db] at h
          obtain ⟨r', hr'⟩ := haccept.kept _ _ h
          exact .kept hr'
      | broken haccept hprocess hstop =>
          rw [hstop.1.db] at h
          exact haccept.nextTables hscan hread hd (hprocess.at? _ _ h)
      | completed haccept hprocess hidle hnext =>
          exact haccept.nextTables hscan hread hd (hprocess.at? _ _ (hidle.db ▸ hnext.at? h))

end Chronicle
