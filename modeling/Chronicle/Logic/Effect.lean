import Mathlib.Order.Basic
import Mathlib.Data.List.Basic

/-!
# Post-conditions of programs with state and exceptions

A program of `EStateM ε σ` ends with a value or with an exception, and in both
cases with a state.  `Triple P m Q E` says how it ends from the states in `P`:
as `Q` says when it returns, and as `E` says when it throws.  `Keeps I m` is the
special case of an invariant, which an exception does not break either.

The rules follow the way programs are built.  Reading the state has a rule of
its own (`Keeps.get_bind`), since what was read is known to satisfy the
invariant.
-/

universe u

namespace Effect

variable {ε σ α β : Type u}

/-- How a run ends: with a value, or with an exception. -/
def Ends (Q : α → σ → Prop) (E : ε → σ → Prop) : EStateM.Result ε σ α → Prop
  | .ok a s => Q a s
  | .error e s => E e s

/-- From every state in `P` the program ends as `Q` and `E` say. -/
def Triple (P : σ → Prop) (m : EStateM ε σ α) (Q : α → σ → Prop) (E : ε → σ → Prop) : Prop :=
  ∀ s, P s → Ends Q E (m s)

/-- The program keeps an invariant, however it ends. -/
def Keeps (I : σ → Prop) (m : EStateM ε σ α) : Prop := Triple I m (fun _ ↦ I) (fun _ ↦ I)

variable {P P' I : σ → Prop} {Q Q' : α → σ → Prop} {E E' : ε → σ → Prop}

theorem Ends.mono {r : EStateM.Result ε σ α} (h : Ends Q E r)
    (hQ : ∀ a s, Q a s → Q' a s) (hE : ∀ e s, E e s → E' e s) : Ends Q' E' r := by
  cases r with
  | ok a s => exact hQ a s h
  | error e s => exact hE e s h

theorem Ends.and {r : EStateM.Result ε σ α} (h : Ends Q E r) (h' : Ends Q' E' r) :
    Ends (fun a s ↦ Q a s ∧ Q' a s) (fun e s ↦ E e s ∧ E' e s) r := by
  cases r with
  | ok a s => exact ⟨h, h'⟩
  | error e s => exact ⟨h, h'⟩

/-- A predicate on the ways to end, by value and by exception. -/
theorem Ends.elim {P : EStateM.Result ε σ α → Prop} {r : EStateM.Result ε σ α}
    (h : Ends (fun a s ↦ P (.ok a s)) (fun e s ↦ P (.error e s)) r) : P r := by
  cases r with
  | ok a s => exact h
  | error e s => exact h

theorem Ends.bind {m : EStateM ε σ α} {f : α → EStateM ε σ β} {R : β → σ → Prop} {s : σ}
    (hm : Ends Q E (m s)) (hf : ∀ a s', Q a s' → Ends R E' (f a s'))
    (hE : ∀ e s', E e s' → E' e s') : Ends R E' ((m >>= f) s) := by
  change Ends R E' (EStateM.bind m f s)
  rw [EStateM.bind]
  cases hr : m s with
  | ok a s' =>
      rw [hr] at hm
      exact hf a s' hm
  | error e s' =>
      rw [hr] at hm
      exact hE e s' hm

/-- The rest of a program whose first part returns. -/
theorem bind_run {m : EStateM ε σ α} {f : α → EStateM ε σ β} {s s' : σ} {a : α}
    (hm : m s = .ok a s') : (m >>= f) s = f a s' := by
  change EStateM.bind m f s = f a s'
  rw [EStateM.bind, hm]

theorem get_run (s : σ) : (get : EStateM ε σ σ) s = .ok s s := rfl

/-- An exception ends the whole program. -/
theorem bind_run_error {m : EStateM ε σ α} {f : α → EStateM ε σ β} {s s' : σ} {e : ε}
    (hm : m s = .error e s') : (m >>= f) s = .error e s' := by
  change EStateM.bind m f s = .error e s'
  rw [EStateM.bind, hm]

/-- The two parts of a program that returns. -/
theorem bind_eq_ok {m : EStateM ε σ α} {f : α → EStateM ε σ β} {s s' : σ} {b : β}
    (h : (m >>= f) s = .ok b s') : ∃ a s₁, m s = .ok a s₁ ∧ f a s₁ = .ok b s' := by
  cases hm : m s with
  | ok a s₁ => exact ⟨a, s₁, rfl, (bind_run hm).symm.trans h⟩
  | error e s₁ => exact absurd ((bind_run_error hm).symm.trans h) nofun

/-- A program whose first part was run already. -/
theorem Ends.bind_ok {m : EStateM ε σ α} {f : α → EStateM ε σ β} {R : β → σ → Prop} {s s' : σ}
    {a : α} (hm : m s = .ok a s') (hf : Ends R E (f a s')) : Ends R E ((m >>= f) s) := by
  rwa [bind_run hm]

/-- A computation that may fail gives a result if both of its parts do. -/
theorem except_bind_eq_ok {x : Except ε α} {f : α → Except ε β} {b : β} :
    (x >>= f) = .ok b ↔ ∃ a, x = .ok a ∧ f a = .ok b := by
  cases x with
  | error e => exact iff_of_false (fun h ↦ by cases h) fun ⟨a, ha, _⟩ ↦ by cases ha
  | ok a =>
      constructor
      · intro h
        exact ⟨a, rfl, h⟩
      · rintro ⟨a', ha, h⟩
        obtain rfl := Except.ok.inj ha
        exact h

/-! ## Reading a triple off -/

theorem Triple.ok {m : EStateM ε σ α} (h : Triple P m Q E) {s s' : σ} {a : α} (hs : P s)
    (hm : m s = .ok a s') : Q a s' := by
  have hend := h s hs
  rwa [hm] at hend

theorem Keeps.ok {m : EStateM ε σ α} (h : Keeps I m) {s s' : σ} {a : α} (hs : I s)
    (hm : m s = .ok a s') : I s' := Triple.ok h hs hm

/-! ## Rules -/

theorem Triple.mono {m : EStateM ε σ α} (h : Triple P m Q E) (hP : ∀ s, P' s → P s)
    (hQ : ∀ a s, Q a s → Q' a s) (hE : ∀ e s, E e s → E' e s) : Triple P' m Q' E' :=
  fun s hs ↦ (h s (hP s hs)).mono hQ hE

theorem Triple.pure {a : α} (h : ∀ s, P s → Q a s) : Triple P (pure a : EStateM ε σ α) Q E := h

theorem Triple.bind {m : EStateM ε σ α} {f : α → EStateM ε σ β} {R : β → σ → Prop}
    (hm : Triple P m Q E) (hf : ∀ a, Triple (Q a) (f a) R E) : Triple P (m >>= f) R E := by
  intro s hs
  exact (hm s hs).bind hf fun _ _ h ↦ h

/-- What was read is the state itself. -/
theorem Triple.get_bind {f : σ → EStateM ε σ β} {R : β → σ → Prop}
    (h : ∀ s, P s → Ends R E (f s s)) : Triple P (get >>= f) R E := h

theorem Triple.throw_bind {e : ε} {f : α → EStateM ε σ β} {R : β → σ → Prop}
    (h : ∀ s, P s → E e s) : Triple P (MonadExcept.throw e >>= f) R E := h

theorem Triple.ite {c : Prop} [Decidable c] {m n : EStateM ε σ α} (hm : c → Triple P m Q E)
    (hn : ¬ c → Triple P n Q E) : Triple P (if c then m else n) Q E := by
  by_cases hc : c
  · rw [if_pos hc]
    exact hm hc
  · rw [if_neg hc]
    exact hn hc

/-- A loop over a list, with a precondition that speaks about the part that was done. -/
theorem Triple.forM {f : α → EStateM ε σ PUnit} {P : List α → σ → Prop} {l : List α}
    (hf : ∀ d x, d ++ [x] <+: l → Triple (P d) (f x) (fun _ ↦ P (d ++ [x])) E) :
    Triple (P []) (l.forM f) (fun _ ↦ P l) E := by
  have key : ∀ (rest done : List α), done ++ rest = l →
      Triple (P done) (rest.forM f) (fun _ ↦ P l) E := by
    intro rest
    induction rest with
    | nil =>
        intro done hdone
        rw [List.append_nil] at hdone
        subst hdone
        exact Triple.pure fun _ h ↦ h
    | cons x rest ih =>
        intro done hdone
        have hsplit : (done ++ [x]) ++ rest = l := by simpa using hdone
        exact (hf done x ⟨rest, hsplit⟩).bind fun _ ↦ ih (done ++ [x]) hsplit
  exact key l [] rfl

theorem Keeps.pure {a : α} : Keeps I (pure a : EStateM ε σ α) := fun _ h ↦ h

theorem Keeps.throw {e : ε} : Keeps I (throw e : EStateM ε σ α) := fun _ h ↦ h

theorem Keeps.bind {m : EStateM ε σ α} {f : α → EStateM ε σ β} (hm : Keeps I m)
    (hf : ∀ a, Keeps I (f a)) : Keeps I (m >>= f) := Triple.bind hm hf

/-- What was read satisfies the invariant. -/
theorem Keeps.get_bind {f : σ → EStateM ε σ β} (hf : ∀ s, I s → Keeps I (f s)) :
    Keeps I (get >>= f) := Triple.get_bind fun s hs ↦ hf s hs s hs

theorem Keeps.modify {f : σ → σ} (h : ∀ s, I s → I (f s)) :
    Keeps I (modify f : EStateM ε σ PUnit) := h

theorem Keeps.ite {c : Prop} [Decidable c] {m n : EStateM ε σ α} (hm : c → Keeps I m)
    (hn : ¬ c → Keeps I n) : Keeps I (if c then m else n) := Triple.ite hm hn

theorem Keeps.forM {f : α → EStateM ε σ PUnit} {l : List α} (hf : ∀ x, Keeps I (f x)) :
    Keeps I (l.forM f) := Triple.forM (P := fun _ ↦ I) fun _ x _ ↦ hf x

end Effect
