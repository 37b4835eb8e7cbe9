import Mathlib.Data.List.Basic

/-!
# Runs whose steps meet a guard

A deterministic machine is a step function, and a run is a list of inputs.  A guard
restricts an input by the state it meets.  An invariant that a guarded step keeps holds
after every guarded run (`Guarded.invariant`), and at every point of it
(`Guarded.append`).  A run is matched by a run of another machine if its steps are
(`Guarded.simulate`).
-/

universe u v

namespace Run

variable {σ : Type u} {α : Type v} {step : σ → α → σ} {guard : σ → α → Prop}

/-- Every input of a run meets the guard in the state that it comes to. -/
def Guarded (step : σ → α → σ) (guard : σ → α → Prop) : σ → List α → Prop
  | _, [] => True
  | s, a :: as => guard s a ∧ Guarded step guard (step s a) as

instance Guarded.decidable [∀ s a, Decidable (guard s a)] :
    (s : σ) → (as : List α) → Decidable (Guarded step guard s as)
  | _, [] => .isTrue trivial
  | s, a :: as => @instDecidableAnd _ _ _ (Guarded.decidable (step s a) as)

/-- The two parts of a run. -/
theorem Guarded.append {s : σ} {as bs : List α} :
    Guarded step guard s (as ++ bs) ↔
      Guarded step guard s as ∧ Guarded step guard (as.foldl step s) bs := by
  induction as generalizing s with
  | nil => simp [Guarded]
  | cons a as ih => simp only [List.cons_append, Guarded, ih, List.foldl_cons, and_assoc]

theorem Guarded.mono {guard' : σ → α → Prop} (hguard : ∀ s a, guard s a → guard' s a) {s : σ}
    {as : List α} (h : Guarded step guard s as) : Guarded step guard' s as := by
  induction as generalizing s with
  | nil => trivial
  | cons a as ih => exact ⟨hguard s a h.1, ih h.2⟩

/-- What every guarded step keeps is kept by a guarded run. -/
theorem Guarded.invariant {I : σ → Prop} (hstep : ∀ s a, I s → guard s a → I (step s a))
    {s : σ} {as : List α} (h : Guarded step guard s as) (hs : I s) : I (as.foldl step s) := by
  induction as generalizing s with
  | nil => exact hs
  | cons a as ih => exact ih h.2 (hstep s a hs h.1)

/-- If every guarded step of one machine is matched by a guarded run of another, then so is every
guarded run. -/
theorem Guarded.simulate {τ : Type*} {β : Type*} {step' : τ → β → τ} {guard' : τ → β → Prop}
    {R : σ → τ → Prop}
    (hstep : ∀ s a t, R s t → guard s a →
      ∃ bs, Guarded step' guard' t bs ∧ R (step s a) (bs.foldl step' t))
    {s : σ} {as : List α} {t : τ} (h : Guarded step guard s as) (hR : R s t) :
    ∃ bs, Guarded step' guard' t bs ∧ R (as.foldl step s) (bs.foldl step' t) := by
  induction as generalizing s t with
  | nil => exact ⟨[], trivial, hR⟩
  | cons a as ih =>
      obtain ⟨bs, hbs, hnext⟩ := hstep s a t hR h.1
      obtain ⟨cs, hcs, hend⟩ := ih h.2 hnext
      refine ⟨bs ++ cs, Guarded.append.mpr ⟨hbs, hcs⟩, ?_⟩
      rwa [List.foldl_append]

/-- Another step function that makes the same steps in a guarded run makes the same run. -/
theorem Guarded.congr {step' : σ → α → σ} {guard' : σ → α → Prop}
    (hstep : ∀ s a, guard s a → step' s a = step s a ∧ guard' s a) {s : σ} {as : List α}
    (h : Guarded step guard s as) :
    Guarded step' guard' s as ∧ as.foldl step' s = as.foldl step s := by
  induction as generalizing s with
  | nil => exact ⟨trivial, rfl⟩
  | cons a as ih =>
      obtain ⟨hsame, hguard⟩ := hstep s a h.1
      rw [Guarded, List.foldl_cons, List.foldl_cons, hsame]
      obtain ⟨hrest, hend⟩ := ih h.2
      exact ⟨⟨hguard, hrest⟩, hend⟩

end Run
