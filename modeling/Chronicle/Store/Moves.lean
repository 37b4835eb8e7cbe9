import Chronicle.Store.Undo

/-!
# What the operations can do to a store with an undo stack

`Moves R db db'` says that `db'` is made from `db` by the operations, where the states that
sessions leave behind are related to the ones they were opened on by `R`.  For a preorder
`R` the revisions of a store stay in order (`Moves.ascending`), and what is below the oldest
revision stays below every revision there will ever be (`Moves.above`): undoing never goes
below what was committed.
-/

universe u

namespace Store.Undo

variable {σ : Type u} {R : σ → σ → Prop} {db db' db'' : Undo σ}

/-- The second store is made from the first one, with sessions that go along `R`. -/
inductive Moves (R : σ → σ → Prop) (db : Undo σ) : Undo σ → Prop
  | refl : Moves R db db
  | commit {db' : Undo σ} (h : Moves R db db') (c : Nat) : Moves R db (db'.commit c)
  | undoAll {db' : Undo σ} (h : Moves R db db') : Moves R db db'.undoAll
  | rollback {db' db'' : Undo σ} {n : Nat} (h : Moves R db db')
      (hroll : db'.rollback n = some db'') : Moves R db db''
  | setRevision {db' db'' : Undo σ} {r : Nat} (h : Moves R db db')
      (hset : db'.setRevision r = some db'') : Moves R db db''
  | session {db' : Undo σ} {f : σ → σ} (h : Moves R db db')
      (hf : R db'.current (f db'.current)) : Moves R db (db'.startUndoSession.modify f)

theorem Moves.trans (h : Moves R db db') (h' : Moves R db' db'') : Moves R db db'' := by
  induction h' with
  | refl => exact h
  | commit _ c ih => exact ih.commit c
  | undoAll _ ih => exact ih.undoAll
  | rollback _ hroll ih => exact ih.rollback hroll
  | setRevision _ hset ih => exact ih.setRevision hset
  | session _ hf ih => exact ih.session hf

/-- No revision is behind an older one. -/
def Ascending (R : σ → σ → Prop) (db : Undo σ) : Prop :=
  ∀ r r' s s', db.at? r = some s → db.at? r' = some s' → r ≤ r' → R s s'

/-- Every revision is ahead of a state. -/
def Above (R : σ → σ → Prop) (s : σ) (db : Undo σ) : Prop :=
  ∀ r t, db.at? r = some t → R s t

/-- Every revision is ahead of the oldest one. -/
theorem Ascending.above (h : Ascending R db) : Above R db.undoAll.current db :=
  fun r t ht ↦ h _ r _ t db.at?_base ht (base_le_of_at? ht)

theorem ascending_mk_nil [Std.Refl R] (b : Nat) (s : σ) : Ascending R (⟨b, s, []⟩ : Undo σ) := by
  intro r r' t t' ht ht' _
  rw [(at?_mk_nil ht).2, (at?_mk_nil ht').2]
  exact refl s

/-- The states of a store that was rolled back were there before. -/
theorem at?_of_rollback {n r : Nat} {s : σ} (hroll : db.rollback n = some db')
    (h : db'.at? r = some s) : db.at? r = some s := by
  rw [← (rollback_spec hroll).2.2.2 r (le_revision_of_at? h)]
  exact h

/-- The operations keep the revisions in order. -/
theorem Moves.ascending [Std.Refl R] [IsTrans σ R] (h : Moves R db db')
    (hasc : Ascending R db) : Ascending R db' := by
  induction h with
  | refl => exact hasc
  | commit _ c ih =>
      exact fun r r' s s' hs hs' ↦ ih r r' s s' (at?_commit_eq_some hs) (at?_commit_eq_some hs')
  | undoAll _ ih => exact fun r r' s s' hs hs' ↦ ih r r' s s' (at?_undoAll hs) (at?_undoAll hs')
  | rollback _ hroll ih =>
      exact fun r r' s s' hs hs' ↦ ih r r' s s' (at?_of_rollback hroll hs)
        (at?_of_rollback hroll hs')
  | setRevision _ hset _ =>
      obtain ⟨-, -, rfl⟩ := setRevision_eq_some hset
      exact ascending_mk_nil _ _
  | @session db₁ f _ hf ih =>
      intro r r' s s' hs hs' hle
      rcases at?_session_eq_some hs with ⟨hr, hs⟩ | ⟨rfl, rfl⟩ <;>
        rcases at?_session_eq_some hs' with ⟨hr', hs'⟩ | ⟨rfl, rfl⟩
      · exact ih r r' s s' hs hs' hle
      · exact IsTrans.trans _ _ _ (ih r _ s _ hs db₁.at?_revision hr) hf
      · omega
      · exact Std.Refl.refl _

/-- What is behind every revision stays behind every revision. -/
theorem Moves.above [IsTrans σ R] (h : Moves R db db') {s : σ} (habove : Above R s db) :
    Above R s db' := by
  induction h with
  | refl => exact habove
  | commit _ c ih => exact fun r t ht ↦ ih r t (at?_commit_eq_some ht)
  | undoAll _ ih => exact fun r t ht ↦ ih r t (at?_undoAll ht)
  | rollback _ hroll ih => exact fun r t ht ↦ ih r t (at?_of_rollback hroll ht)
  | setRevision _ hset ih =>
      obtain ⟨-, -, rfl⟩ := setRevision_eq_some hset
      intro r t ht
      rw [(at?_mk_nil ht).2]
      exact ih _ _ (at?_revision _)
  | @session db₁ f _ hf ih =>
      intro r t ht
      rcases at?_session_eq_some ht with ⟨-, ht⟩ | ⟨-, rfl⟩
      · exact ih r t ht
      · exact IsTrans.trans _ _ _ (ih _ _ db₁.at?_revision) hf

end Store.Undo
