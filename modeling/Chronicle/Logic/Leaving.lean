import Chronicle.Logic.Telling

/-!
# What a program leaves

When a program returns it leaves the questions that were answered on the way, with their answers,
and a result.  `p.Leaves R` says that all that it can leave is in `R`, and the rules for it follow
the program, so a specification `R` can be stated without the program (`Leaves.run`).

`TellsLast` is about a program that returns as soon as it has told something.
-/

universe u v w x y

namespace Program

variable {Q : Type u} {A : Type v} {E : Type w} {α β : Type x}

/-- The questions that were answered in a run, with their answers. -/
def answered (trace : List (Done Q A E)) : List (Q × A) :=
  trace.filterMap fun
    | .answered q r => some (q, r)
    | .failed _ | .told _ => none

@[simp] theorem answered_append (l₁ l₂ : List (Done Q A E)) :
    answered (l₁ ++ l₂) = answered l₁ ++ answered l₂ :=
  List.filterMap_append

/-- Wherever the program returns, what was answered on the way and the result are in `R`. -/
def Leaves (R : List (Q × A) → α → Prop) : Program Q A E α → Prop
  | .pure a => R [] a
  | .ask q k => ∀ r, Leaves (fun done a ↦ R ((q, r) :: done) a) (k r)
  | .tell _ k => Leaves R k
  | .throw => True

section Leaves

variable {p : Program Q A E α} {f : α → Program Q A E β} {R R' : List (Q × A) → α → Prop}
  {S : List (Q × A) → β → Prop} {answers : Nat → Option A} {a : α}

@[simp]
theorem leaves_pure : (Pure.pure a : Program Q A E α).Leaves R ↔ R [] a := Iff.rfl

theorem leaves_bind :
    (p >>= f).Leaves S ↔ p.Leaves fun done a ↦ (f a).Leaves fun done' b ↦ S (done ++ done') b := by
  change (p.bind f).Leaves S ↔ _
  induction p generalizing S with
  | pure a => exact Iff.rfl
  | ask q k ih => exact forall_congr' fun r ↦ ih r
  | tell e k ih => exact ih
  | throw => exact Iff.rfl

theorem Leaves.mono (h : p.Leaves R) (hR : ∀ done a, R done a → R' done a) : p.Leaves R' := by
  induction p generalizing R R' with
  | pure a => exact hR [] a h
  | ask q k ih => exact fun r ↦ ih r (h r) fun done a ↦ hR ((q, r) :: done) a
  | tell e k ih => exact ih h hR
  | throw => trivial

/-- The rule for two programs, one after another. -/
theorem Leaves.bind (hp : p.Leaves R)
    (hf : ∀ done a, R done a → (f a).Leaves fun done' b ↦ S (done ++ done') b) :
    (p >>= f).Leaves S := leaves_bind.mpr (hp.mono hf)

theorem Leaves.ite {p' : Program Q A E α} {c : Prop} [Decidable c] (h : c → p.Leaves R)
    (h' : ¬ c → p'.Leaves R) : (if c then p else p').Leaves R := by
  split_ifs with hc
  · exact h hc
  · exact h' hc

/-- A run that ends leaves what it has to. -/
theorem Leaves.run (h : p.Leaves R) (ha : (p.run answers).result = some a) :
    R (answered (p.run answers).trace) a := by
  induction p generalizing R answers with
  | pure b =>
      obtain rfl := Option.some.inj ha
      exact h
  | ask q k ih =>
      cases hr : answers 0 with
      | none =>
          rw [run_ask_none hr] at ha
          cases ha
      | some r =>
          rw [run_ask_some hr] at ha ⊢
          exact ih r (h r) ha
  | tell e k ih => exact ih h ha
  | throw => cases ha

end Leaves

/-! ## Telling something at the end -/

/-- The program returns as soon as it has told something. -/
def TellsLast : Program Q A E α → Prop
  | .pure _ => True
  | .ask _ k => ∀ r, TellsLast (k r)
  | .tell _ k => ∃ a, k = .pure a
  | .throw => True

section TellsLast

variable {p : Program Q A E α} {f : α → Program Q A E β} {answers : Nat → Option A}

theorem TellsJust.tellsLast (h : p.TellsJust []) : p.TellsLast := by
  induction p with
  | pure a | throw => trivial
  | ask q k ih => exact fun r ↦ ih r (h r)
  | tell e k ih =>
      obtain ⟨l, hl, -⟩ := h
      cases hl

/-- The first of two programs tells nothing. -/
theorem TellsLast.silent_bind (hp : p.TellsJust []) (hf : ∀ a, (f a).TellsLast) :
    (p >>= f).TellsLast := by
  change (p.bind f).TellsLast
  induction p with
  | pure a => exact hf a
  | ask q k ih => exact fun r ↦ ih r (hp r)
  | tell e k ih =>
      obtain ⟨l, hl, -⟩ := hp
      cases hl
  | throw => trivial

/-- The second of two programs does nothing. -/
theorem TellsLast.map (hp : p.TellsLast) (g : α → β) :
    (p >>= fun a ↦ Pure.pure (g a)).TellsLast := by
  change (p.bind fun a ↦ .pure (g a)).TellsLast
  induction p with
  | pure a | throw => trivial
  | ask q k ih => exact fun r ↦ ih r (hp r)
  | tell e k ih =>
      obtain ⟨a, rfl⟩ := hp
      exact ⟨g a, rfl⟩

/-- Nothing comes after what was told, and the program has returned. -/
theorem TellsLast.run (h : p.TellsLast) {own rest : List (Done Q A E)} {e : E}
    (htrace : (p.run answers).trace = own ++ .told e :: rest) :
    rest = [] ∧ (p.run answers).result.isSome := by
  induction p generalizing answers own with
  | pure a | throw =>
      exact absurd htrace.symm (List.append_ne_nil_of_right_ne_nil _ (List.cons_ne_nil _ _))
  | ask q k ih =>
      cases hr : answers 0 with
      | none =>
          rw [run_ask_none hr] at htrace
          rcases List.singleton_eq_append_iff.mp htrace with ⟨-, h⟩ | ⟨-, h⟩
          · cases h
          · cases h
      | some r =>
          rw [run_ask_some hr] at htrace ⊢
          cases own with
          | nil => cases (List.cons.inj htrace).1
          | cons d own => exact ih r (h r) (List.cons.inj htrace).2
  | tell e' k ih =>
      obtain ⟨a, rfl⟩ := h
      cases own with
      | nil => exact ⟨(List.cons.inj htrace).2.symm, rfl⟩
      | cons d own =>
          exact absurd (List.cons.inj htrace).2.symm
            (List.append_ne_nil_of_right_ne_nil _ (List.cons_ne_nil _ _))

end TellsLast

end Program
