import Mathlib.Order.Basic
import Mathlib.Data.List.Basic
import Mathlib.Tactic.Linarith

/-!
# A store with an undo stack

An `Undo σ` is a value of type `σ` together with the values it had before each
of its latest revisions.  The revision number is not stored but computed from
the number of the oldest state that can still be reached (`base`) and the
height of the stack, so a revision that disagrees with the stack cannot be
built.

`at? r` is the state as of revision `r`, for every revision between `base` and
`revision`.  All the operations are characterised by what they do to `at?`:
undoing and committing only narrow the range of revisions, and a new session
only extends it.
-/

universe u

namespace Store

/-- A current state and the states to fall back to, newest first. -/
structure Undo (σ : Type u) where
  /-- The revision of the oldest state that can be reached by undoing. -/
  base : Nat
  current : σ
  stack : List σ

namespace Undo

variable {σ : Type u}

/-- The number of the current revision. -/
def revision (db : Undo σ) : Nat := db.base + db.stack.length

/-- The state as of a revision that the stack still reaches. -/
def at? (db : Undo σ) (r : Nat) : Option σ :=
  if r ≤ db.revision then (db.current :: db.stack)[db.revision - r]? else none

/-! ## Operations -/

/-- Open a session: from here on there is one more revision to undo. -/
def startUndoSession (db : Undo σ) : Undo σ := { db with stack := db.current :: db.stack }

/-- Restore the state before the current revision; nothing happens on an empty stack. -/
def undo (db : Undo σ) : Undo σ :=
  match db.stack with
  | [] => db
  | s :: rest => { db with current := s, stack := rest }

/-- Forget how to undo the revisions up to `r`. -/
def commit (db : Undo σ) (r : Nat) : Undo σ :=
  { db with
    base := max db.base (min r db.revision)
    stack := db.stack.take (db.revision - r) }

/-- Move the revision number without touching the state: only without an undo stack,
and never backwards. -/
def setRevision (db : Undo σ) (r : Nat) : Option (Undo σ) :=
  if db.stack = [] ∧ db.revision ≤ r then some { db with base := r } else none

/-- Change the current state. -/
def modify (f : σ → σ) (db : Undo σ) : Undo σ := { db with current := f db.current }

/-- Undo as long as the revision is `n` or more.  `none` stands for the loop that never
ends because there is nothing left to undo. -/
def rollbackFrom (n base : Nat) (current : σ) : List σ → Option (Undo σ)
  | [] => if base < n then some ⟨base, current, []⟩ else none
  | s :: rest =>
    if base + (rest.length + 1) < n then some ⟨base, current, s :: rest⟩
    else rollbackFrom n base s rest

@[inherit_doc rollbackFrom]
def rollback (db : Undo σ) (n : Nat) : Option (Undo σ) :=
  rollbackFrom n db.base db.current db.stack

/-- The oldest state, with all the revisions above it undone. -/
def oldest (current : σ) : List σ → σ
  | [] => current
  | s :: rest => oldest s rest

/-- Undo as long as there is something to undo. -/
def undoAll (db : Undo σ) : Undo σ := ⟨db.base, oldest db.current db.stack, []⟩

/-! ## Revisions -/

@[simp] theorem base_le_revision (db : Undo σ) : db.base ≤ db.revision := Nat.le_add_right ..

@[simp] theorem revision_mk_nil (b : Nat) (s : σ) : (Undo.mk b s []).revision = b := rfl

@[simp] theorem revision_startUndoSession (db : Undo σ) :
    db.startUndoSession.revision = db.revision + 1 := rfl

@[simp] theorem base_startUndoSession (db : Undo σ) : db.startUndoSession.base = db.base := rfl

@[simp] theorem current_startUndoSession (db : Undo σ) :
    db.startUndoSession.current = db.current := rfl

@[simp] theorem undo_startUndoSession (db : Undo σ) : db.startUndoSession.undo = db := rfl

@[simp] theorem revision_modify (f : σ → σ) (db : Undo σ) :
    (db.modify f).revision = db.revision := rfl

@[simp] theorem base_modify (f : σ → σ) (db : Undo σ) : (db.modify f).base = db.base := rfl

@[simp] theorem stack_modify (f : σ → σ) (db : Undo σ) : (db.modify f).stack = db.stack := rfl

@[simp] theorem current_modify (f : σ → σ) (db : Undo σ) :
    (db.modify f).current = f db.current := rfl

/-- A session whose changes are dropped leaves the store as it was. -/
@[simp] theorem undo_modify_startUndoSession (f : σ → σ) (db : Undo σ) :
    (db.startUndoSession.modify f).undo = db := rfl

@[simp] theorem revision_commit (db : Undo σ) (r : Nat) : (db.commit r).revision = db.revision := by
  simp only [commit, revision, List.length_take]
  omega

@[simp] theorem current_commit (db : Undo σ) (r : Nat) : (db.commit r).current = db.current := rfl

theorem base_commit (db : Undo σ) (r : Nat) :
    (db.commit r).base = max db.base (min r db.revision) := rfl

theorem setRevision_eq_some {db db' : Undo σ} {r : Nat} (h : db.setRevision r = some db') :
    db.stack = [] ∧ db.revision ≤ r ∧ db' = ⟨r, db.current, []⟩ := by
  obtain ⟨base, current, stack⟩ := db
  simp only [setRevision] at h
  split_ifs at h with hc
  obtain ⟨rfl, hle⟩ := hc
  exact ⟨rfl, hle, (Option.some.inj h).symm⟩

/-! ## States by revision -/

@[simp] theorem at?_revision (db : Undo σ) : db.at? db.revision = some db.current := by
  simp [at?]

/-- Exactly the revisions from `base` to `revision` have a state. -/
theorem at?_isSome {db : Undo σ} {r : Nat} :
    (db.at? r).isSome ↔ db.base ≤ r ∧ r ≤ db.revision := by
  simp only [at?]
  split_ifs with h
  · rw [Option.isSome_iff_exists]
    simp only [revision] at *
    constructor
    · rintro ⟨s, hs⟩
      have hlt := (List.getElem?_eq_some_iff.mp hs).1
      rw [List.length_cons] at hlt
      omega
    · intro hr
      exact ⟨_, List.getElem?_eq_getElem (by rw [List.length_cons]; omega)⟩
  · simp only [Option.isSome_none, Bool.false_eq_true, false_iff]
    omega

theorem mem_of_at? {db : Undo σ} {r : Nat} {s : σ} (h : db.at? r = some s) :
    s ∈ db.current :: db.stack := by
  rw [at?] at h
  split_ifs at h
  exact List.mem_of_getElem? h

theorem base_le_of_at? {db : Undo σ} {r : Nat} {s : σ} (h : db.at? r = some s) :
    db.base ≤ r := (at?_isSome.mp (by rw [h]; rfl)).1

theorem le_revision_of_at? {db : Undo σ} {r : Nat} {s : σ} (h : db.at? r = some s) :
    r ≤ db.revision := (at?_isSome.mp (by rw [h]; rfl)).2

/-- Below a fresh session the states are those of the store it was opened on. -/
theorem at?_session {db : Undo σ} (f : σ → σ) {r : Nat} (h : r ≤ db.revision) :
    (db.startUndoSession.modify f).at? r = db.at? r := by
  have hr : db.revision + 1 - r = (db.revision - r) + 1 := by omega
  simp only [at?, revision_modify, revision_startUndoSession, if_pos h, if_pos
    (Nat.le_succ_of_le h),
    hr, List.getElem?_cons_succ]
  rfl

/-- The top of a session that was kept. -/
@[simp] theorem at?_session_top (db : Undo σ) (f : σ → σ) :
    (db.startUndoSession.modify f).at? (db.revision + 1) = some (f db.current) := by
  have h := at?_revision (db.startUndoSession.modify f)
  simpa using h

/-- A state of a session that was kept is its own, or one from below. -/
theorem at?_session_eq_some {db : Undo σ} {f : σ → σ} {r : Nat} {s : σ}
    (h : (db.startUndoSession.modify f).at? r = some s) :
    (r ≤ db.revision ∧ db.at? r = some s) ∨ (r = db.revision + 1 ∧ s = f db.current) := by
  have hr : r ≤ db.revision + 1 := le_revision_of_at? h
  rcases Nat.lt_or_ge db.revision r with hlt | hle
  · obtain rfl : r = db.revision + 1 := by omega
    rw [at?_session_top] at h
    exact .inr ⟨rfl, (Option.some.inj h).symm⟩
  · exact .inl ⟨hle, at?_session f hle ▸ h⟩

/-- Committing keeps the states it does not forget. -/
theorem at?_commit {db : Undo σ} {c r : Nat} (h : (db.commit c).base ≤ r) :
    (db.commit c).at? r = db.at? r := by
  simp only [at?, revision_commit]
  split_ifs with hr
  · cases hk : db.revision - r with
    | zero => rfl
    | succ k =>
        have hlt : k < db.revision - c := by
          rw [base_commit] at h
          omega
        simp only [List.getElem?_cons_succ, commit, List.getElem?_take_of_lt hlt]
  · rfl

theorem at?_commit_eq_some {db : Undo σ} {c r : Nat} {s : σ}
    (h : (db.commit c).at? r = some s) : db.at? r = some s := by
  rw [← at?_commit (base_le_of_at? h)]
  exact h

theorem at?_undo {db : Undo σ} {r : Nat} (h : r ≤ db.undo.revision) :
    db.undo.at? r = db.at? r := by
  obtain ⟨base, current, stack⟩ := db
  cases stack with
  | nil => rfl
  | cons s rest =>
      have h' : r ≤ base + rest.length := h
      have hr : base + (rest.length + 1) - r = (base + rest.length - r) + 1 := by omega
      have hle : r ≤ (Undo.mk base current (s :: rest)).revision := by
        simp only [revision, List.length_cons]
        omega
      rw [at?, at?, if_pos h, if_pos hle]
      change (s :: rest)[base + rest.length - r]? =
        (current :: s :: rest)[base + (rest.length + 1) - r]?
      rw [hr, List.getElem?_cons_succ]

/-! ## The rollback loop -/

/-- A rollback that ends stops at the first revision below `n`, without having moved the
oldest state, and the states it has left are unchanged. -/
theorem rollback_spec {db db' : Undo σ} {n : Nat} (h : db.rollback n = some db') :
    db'.base = db.base ∧ db'.revision = min db.revision (n - 1) ∧ db.base < n ∧
      ∀ r, r ≤ db'.revision → db'.at? r = db.at? r := by
  obtain ⟨base, current, stack⟩ := db
  simp only [rollback] at h
  induction stack generalizing current with
  | nil =>
      simp only [rollbackFrom] at h
      split_ifs at h with hlt
      cases h
      refine ⟨rfl, ?_, hlt, fun _ _ ↦ rfl⟩
      simp only [revision, List.length_nil]
      omega
  | cons s rest ih =>
      simp only [rollbackFrom] at h
      split_ifs at h with hlt
      · cases h
        refine ⟨rfl, ?_, by simp only; omega, fun _ _ ↦ rfl⟩
        simp only [revision, List.length_cons]
        omega
      · obtain ⟨hb, hrev, hn, hat⟩ := ih s h
        refine ⟨hb, ?_, hn, fun r hr ↦ ?_⟩
        · simp only [revision, List.length_cons] at hrev hlt ⊢
          omega
        · rw [hat r hr]
          have hle : r ≤ (undo ⟨base, current, s :: rest⟩).revision := by
            simp only [undo, revision] at hrev hr ⊢
            omega
          exact at?_undo hle

/-- The loop ends whenever there is a state below `n`. -/
theorem rollback_isSome {db : Undo σ} {n : Nat} (h : db.base < n) : (db.rollback n).isSome := by
  obtain ⟨base, current, stack⟩ := db
  simp only [rollback]
  induction stack generalizing current with
  | nil => simp only [rollbackFrom, if_pos h, Option.isSome_some]
  | cons s rest ih =>
      simp only [rollbackFrom]
      split_ifs
      · rfl
      · exact ih s h

/-- The loop does not end if the oldest state is not below `n`. -/
theorem rollback_eq_none_iff {db : Undo σ} {n : Nat} : db.rollback n = none ↔ n ≤ db.base := by
  constructor
  · intro h
    by_contra hlt
    have hsome := rollback_isSome (not_le.mp hlt)
    rw [h] at hsome
    cases hsome
  · intro hle
    cases h : db.rollback n with
    | none => rfl
    | some db' => exact absurd (rollback_spec h).2.2.1 (not_lt.mpr hle)

/-- Nothing is undone when the revision is below `n` already. -/
theorem rollback_of_revision_lt {db : Undo σ} {n : Nat} (h : db.revision < n) :
    db.rollback n = some db := by
  obtain ⟨base, current, stack⟩ := db
  cases stack with
  | nil => exact if_pos h
  | cons s rest => exact if_pos h

/-- After a rollback the current state is the one as of the revision it stops at. -/
theorem rollback_current {db db' : Undo σ} {n : Nat} (h : db.rollback n = some db') :
    db.at? db'.revision = some db'.current := by
  rw [← (rollback_spec h).2.2.2 _ le_rfl, at?_revision]

/-! ## Undoing everything -/

@[simp] theorem base_undoAll (db : Undo σ) : db.undoAll.base = db.base := rfl

@[simp] theorem revision_undoAll (db : Undo σ) : db.undoAll.revision = db.base := rfl

@[simp] theorem stack_undoAll (db : Undo σ) : db.undoAll.stack = [] := rfl

/-- Undoing everything ends at the oldest state. -/
theorem at?_base (db : Undo σ) : db.at? db.base = some db.undoAll.current := by
  obtain ⟨base, current, stack⟩ := db
  induction stack generalizing current with
  | nil => simp [at?, revision, undoAll, oldest]
  | cons s rest ih =>
      have hundo : (undo ⟨base, current, s :: rest⟩).at? base =
          (Undo.mk base current (s :: rest)).at? base := at?_undo (by simp [undo, revision])
      exact hundo.symm.trans (ih s)

theorem at?_undoAll {db : Undo σ} {r : Nat} {s : σ} (h : db.undoAll.at? r = some s) :
    db.at? r = some s := by
  have hr : r = db.base := by
    have h₁ := base_le_of_at? h
    have h₂ := le_revision_of_at? h
    simp only [base_undoAll, revision_undoAll] at h₁ h₂
    omega
  subst hr
  have ht := at?_revision db.undoAll
  rw [revision_undoAll] at ht
  rw [at?_base, ← ht, h]

theorem revision_of_stack_nil {db : Undo σ} (hs : db.stack = []) : db.revision = db.base := by
  rw [revision, hs, List.length_nil, Nat.add_zero]

theorem undoAll_of_stack_nil {db : Undo σ} (hs : db.stack = []) : db.undoAll = db := by
  obtain ⟨base, current, stack⟩ := db
  obtain rfl : stack = [] := hs
  rfl

theorem commit_of_stack_nil {db : Undo σ} (hs : db.stack = []) (r : Nat) : db.commit r = db := by
  obtain ⟨base, current, stack⟩ := db
  obtain rfl : stack = [] := hs
  simp [commit, revision]

/-- A store without undo stack has a single state. -/
theorem at?_of_stack_nil {db : Undo σ} {r : Nat} {s : σ} (hs : db.stack = [])
    (h : db.at? r = some s) : r = db.base ∧ s = db.current := by
  have hrev := revision_of_stack_nil hs
  have h₁ := base_le_of_at? h
  have h₂ := le_revision_of_at? h
  obtain rfl : r = db.revision := by omega
  rw [at?_revision] at h
  exact ⟨hrev, (Option.some.inj h).symm⟩

/-- The states of a store whose revision was moved are its single state, renumbered. -/
theorem at?_mk_nil {b r : Nat} {s t : σ} (h : (Undo.mk b s []).at? r = some t) :
    r = b ∧ t = s := at?_of_stack_nil rfl h

/-! ## Stores that reach less far back -/

/-- The first store is at the same revision as the second, with the same states as far as it
reaches back. -/
structure PartOf (db db' : Undo σ) : Prop where
  revision : db.revision = db'.revision
  states : ∀ r s, db.at? r = some s → db'.at? r = some s

namespace PartOf

variable {db db' : Undo σ}

theorem refl (db : Undo σ) : PartOf db db := ⟨rfl, fun _ _ h ↦ h⟩

theorem current (h : PartOf db db') : db.current = db'.current := by
  have hat := h.states _ _ db.at?_revision
  rw [h.revision, at?_revision] at hat
  exact (Option.some.inj hat).symm

theorem base_le (h : PartOf db db') : db'.base ≤ db.base :=
  base_le_of_at? (h.states _ _ db.at?_base)

theorem commit (h : PartOf db db') (c : Nat) : PartOf (db.commit c) db' :=
  ⟨(revision_commit db c).trans h.revision, fun r s hs ↦ h.states r s (at?_commit_eq_some hs)⟩

/-- Both stores are renumbered, without the states below. -/
theorem renumbered (h : PartOf db db') (b : Nat) :
    PartOf (⟨b, db.current, []⟩ : Undo σ) ⟨b, db'.current, []⟩ := by
  rw [h.current]
  exact refl _

theorem session (h : PartOf db db') (f : σ → σ) :
    PartOf (db.startUndoSession.modify f) (db'.startUndoSession.modify f) := by
  refine ⟨congrArg (· + 1) h.revision, fun r s hs ↦ ?_⟩
  rcases at?_session_eq_some hs with ⟨hle, hs⟩ | ⟨rfl, rfl⟩
  · rw [at?_session f (h.revision ▸ hle)]
    exact h.states r s hs
  · rw [h.revision, h.current]
    exact at?_session_top db' f

/-- Where the first store can be rolled back, so can the second. -/
theorem rollback (h : PartOf db db') {n : Nat} {db₁ : Undo σ} (hroll : db.rollback n = some db₁) :
    ∃ db₁', db'.rollback n = some db₁' ∧ PartOf db₁ db₁' := by
  obtain ⟨-, hrev, hlt, hat⟩ := rollback_spec hroll
  obtain ⟨db₁', hroll'⟩ := Option.isSome_iff_exists.mp (rollback_isSome (h.base_le.trans_lt hlt))
  obtain ⟨-, hrev', -, hat'⟩ := rollback_spec hroll'
  have heq : db₁.revision = db₁'.revision := by rw [hrev, hrev', h.revision]
  refine ⟨db₁', hroll', heq, fun r s hs ↦ ?_⟩
  have hle := le_revision_of_at? hs
  rw [hat' r (heq ▸ hle)]
  exact h.states r s (hat r hle ▸ hs)

end PartOf

end Undo

end Store
