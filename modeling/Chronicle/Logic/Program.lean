import Mathlib.Data.List.Basic

/-!
# Programs that ask

A program asks questions one at a time and goes on with the answers; a question that is not
answered ends it, as an exception does.  It may also tell something, which needs no answer.

What a program can ask is a property of the program alone (`Every`), and it is what it asks for
some answers (`every_iff`).
-/

universe u v w x

/-- A program with questions `Q`, answers `A`, and `E` to tell. -/
inductive Program (Q : Type u) (A : Type v) (E : Type w) (α : Type x) where
  | pure (a : α)
  | ask (q : Q) (k : A → Program Q A E α)
  | tell (e : E) (k : Program Q A E α)
  | throw

namespace Program

variable {Q : Type u} {A : Type v} {E : Type w} {α β : Type x}

protected def bind : Program Q A E α → (α → Program Q A E β) → Program Q A E β
  | .pure a, f => f a
  | .ask q k, f => .ask q fun r ↦ (k r).bind f
  | .tell e k, f => .tell e (k.bind f)
  | .throw, _ => .throw

instance : Monad (Program Q A E) where
  pure := .pure
  bind := .bind

/-! ## Running a program -/

/-- What has happened while a program ran. -/
inductive Done (Q : Type u) (A : Type v) (E : Type w) where
  | answered (q : Q) (r : A)
  | failed (q : Q)
  | told (e : E)

/-- The question that was asked. -/
def Done.question? : Done Q A E → Option Q
  | answered q _ | failed q => some q
  | told _ => none

/-- The end of a run. -/
structure Outcome (Q : Type u) (A : Type v) (E : Type w) (α : Type x) where
  trace : List (Done Q A E)
  /-- The answers to the questions that come next. -/
  answers : Nat → Option A
  /-- Nothing, if the program was ended by a question or by an exception. -/
  result : Option α

/-- Run a program; `answers` are the answers to its questions, in order. -/
def run : Program Q A E α → (Nat → Option A) → Outcome Q A E α
  | .pure a, answers => ⟨[], answers, some a⟩
  | .ask q k, answers =>
    match answers 0 with
    | none => ⟨[.failed q], fun i ↦ answers (i + 1), none⟩
    | some r =>
      let rest := run (k r) fun i ↦ answers (i + 1)
      ⟨.answered q r :: rest.trace, rest.answers, rest.result⟩
  | .tell e k, answers =>
    let rest := run k answers
    ⟨.told e :: rest.trace, rest.answers, rest.result⟩
  | .throw, answers => ⟨[], answers, none⟩

section Run

variable {q : Q} {k : A → Program Q A E α} {answers : Nat → Option A}

theorem run_ask_none (h : answers 0 = none) :
    run (.ask q k) answers = ⟨[.failed q], fun i ↦ answers (i + 1), none⟩ := by
  rw [run, h]

theorem run_ask_some {r : A} (h : answers 0 = some r) :
    run (.ask q k) answers =
      { run (k r) (fun i ↦ answers (i + 1)) with
        trace := .answered q r :: (run (k r) fun i ↦ answers (i + 1)).trace } := by
  rw [run, h]

/-- A question that is not answered is the last thing that happens. -/
theorem failed_last (p : Program Q A E α) {answers : Nat → Option A} {pre post : List (Done Q A E)}
    (h : (p.run answers).trace = pre ++ .failed q :: post) :
    post = [] ∧ (p.run answers).result = none := by
  induction p generalizing answers pre with
  | pure a | throw =>
      exact absurd h.symm (List.append_ne_nil_of_right_ne_nil _ (List.cons_ne_nil _ _))
  | ask q' k ih =>
      cases hr : answers 0 with
      | none =>
          rw [run_ask_none hr] at h ⊢
          cases pre with
          | nil => exact ⟨(List.cons.inj h).2.symm, rfl⟩
          | cons d pre =>
              exact absurd (List.cons.inj h).2.symm
                (List.append_ne_nil_of_right_ne_nil _ (List.cons_ne_nil _ _))
      | some r =>
          rw [run_ask_some hr] at h ⊢
          cases pre with
          | nil => cases (List.cons.inj h).1
          | cons d pre => exact ih r (List.cons.inj h).2
  | tell e k ih =>
      cases pre with
      | nil => cases (List.cons.inj h).1
      | cons d pre => exact ih (List.cons.inj h).2

end Run

/-! ## What a program can ask -/

/-- Every question that the program can ask is in `P`. -/
def Every (P : Q → Prop) : Program Q A E α → Prop
  | .pure _ => True
  | .ask q k => P q ∧ ∀ r, Every P (k r)
  | .tell _ k => Every P k
  | .throw => True

/-- The program can return `a`. -/
def Can (a : α) : Program Q A E α → Prop
  | .pure b => b = a
  | .ask _ k => ∃ r, Can a (k r)
  | .tell _ k => Can a k
  | .throw => False

section Every

variable {P : Q → Prop} {p : Program Q A E α} {f : α → Program Q A E β} {a : α} {b : β}

@[simp]
theorem every_pure : (Pure.pure a : Program Q A E α).Every P ↔ True := Iff.rfl

@[simp]
theorem every_throw : (throw : Program Q A E α).Every P ↔ True := Iff.rfl

@[simp]
theorem every_ask {q : Q} {k : A → Program Q A E α} :
    (ask q k).Every P ↔ P q ∧ ∀ r, (k r).Every P := Iff.rfl

@[simp]
theorem every_tell {e : E} : (tell e p).Every P ↔ p.Every P := Iff.rfl

@[simp]
theorem can_pure {a' : α} : (Pure.pure a : Program Q A E α).Can a' ↔ a = a' := Iff.rfl

@[simp]
theorem can_throw : (throw : Program Q A E α).Can a ↔ False := Iff.rfl

@[simp]
theorem can_ask {q : Q} {k : A → Program Q A E α} : (ask q k).Can a ↔ ∃ r, (k r).Can a := Iff.rfl

@[simp]
theorem can_tell {e : E} : (tell e p).Can a ↔ p.Can a := Iff.rfl

@[simp]
theorem every_bind : (p >>= f).Every P ↔ p.Every P ∧ ∀ a, p.Can a → (f a).Every P := by
  change (p.bind f).Every P ↔ _
  induction p with
  | pure a => simp [Program.bind, Every, Can]
  | ask q k ih =>
      simp only [Program.bind, Every, Can, ih, forall_and, forall_exists_index, and_assoc]
      rw [forall_comm]
  | tell e k ih => exact ih
  | throw => simp [Program.bind, Every, Can]

@[simp]
theorem can_bind : (p >>= f).Can b ↔ ∃ a, p.Can a ∧ (f a).Can b := by
  change (p.bind f).Can b ↔ _
  induction p with
  | pure a => simp [Program.bind, Can]
  | ask q k ih =>
      simp only [Program.bind, Can, ih]
      constructor
      · rintro ⟨r, a, ha, hb⟩
        exact ⟨a, ⟨r, ha⟩, hb⟩
      · rintro ⟨a, ⟨r, ha⟩, hb⟩
        exact ⟨r, a, ha, hb⟩
  | tell e k ih => exact ih
  | throw => simp [Program.bind, Can]

theorem Every.mono {P' : Q → Prop} (h : p.Every P) (hP : ∀ q, P q → P' q) : p.Every P' := by
  induction p with
  | pure a | throw => trivial
  | ask q k ih => exact ⟨hP q h.1, fun r ↦ ih r (h.2 r)⟩
  | tell e k ih => exact ih h

/-- What one of two programs can ask. -/
theorem Every.ite {p' : Program Q A E α} {c : Prop} [Decidable c] (h : p.Every P)
    (h' : p'.Every P) : (if c then p else p').Every P := by
  split_ifs
  · exact h
  · exact h'

/-- What one of two programs can return. -/
theorem Can.ite {p' : Program Q A E α} {c : Prop} [Decidable c] (h : p.Can a) (h' : p'.Can a) :
    (if c then p else p').Can a := by
  split_ifs
  · exact h
  · exact h'

/-- What a program can ask is what it asks for some answers. -/
theorem every_iff : p.Every P ↔
    ∀ (answers : Nat → Option A), ∀ d ∈ (p.run answers).trace, ∀ q ∈ d.question?, P q := by
  constructor
  · intro h
    induction p with
    | pure a | throw => exact fun _ d hd ↦ absurd hd List.not_mem_nil
    | ask q k ih =>
        intro answers d hd q' hq'
        cases hr : answers 0 with
        | none =>
            rw [run_ask_none hr] at hd
            obtain rfl := List.mem_singleton.mp hd
            exact Option.some.inj hq' ▸ h.1
        | some r =>
            rw [run_ask_some hr] at hd
            rcases List.mem_cons.mp hd with rfl | hd
            · exact Option.some.inj hq' ▸ h.1
            · exact ih r (h.2 r) _ d hd q' hq'
    | tell e k ih =>
        intro answers d hd q' hq'
        rcases List.mem_cons.mp hd with rfl | hd
        · cases hq'
        · exact ih h _ d hd q' hq'
  · intro h
    induction p with
    | pure a | throw => trivial
    | ask q k ih =>
        refine ⟨?_, fun r ↦ ih r fun answers d hd ↦ ?_⟩
        · exact h (fun _ ↦ none) (.failed q) (List.mem_singleton_self _) q rfl
        · -- the first answer is `r`, and then come the others
          refine h (fun i ↦ i.casesOn (some r) answers) d ?_
          exact List.mem_cons_of_mem _ hd
    | tell e k ih => exact ih fun answers d hd ↦ h answers d (List.mem_cons_of_mem _ hd)

end Every

/-! ## One program after another -/

section Bind

variable {p : Program Q A E α} {f : α → Program Q A E β} {answers : Nat → Option A} {a : α}

/-- If the first program does not return, it is all that runs. -/
theorem run_bind_none (h : (p.run answers).result = none) :
    (p >>= f).run answers = ⟨(p.run answers).trace, (p.run answers).answers, none⟩ := by
  change (p.bind f).run answers = _
  induction p generalizing answers with
  | pure a => cases h
  | ask q k ih =>
      cases hr : answers 0 with
      | none => rw [Program.bind, run_ask_none hr, run_ask_none hr]
      | some r =>
          rw [run_ask_some hr] at h
          rw [Program.bind, run_ask_some hr, run_ask_some hr, ih r h]
  | tell e k ih =>
      rw [Program.bind, run, run, ih h]
  | throw => rfl

/-- If it returns, the second goes on with the answers that are left. -/
theorem run_bind_some (h : (p.run answers).result = some a) :
    (p >>= f).run answers =
      { (f a).run (p.run answers).answers with
        trace := (p.run answers).trace ++ ((f a).run (p.run answers).answers).trace } := by
  change (p.bind f).run answers = _
  induction p generalizing answers with
  | pure b =>
      obtain rfl := Option.some.inj h
      rfl
  | ask q k ih =>
      cases hr : answers 0 with
      | none =>
          rw [run_ask_none hr] at h
          cases h
      | some r =>
          rw [run_ask_some hr] at h
          rw [Program.bind, run_ask_some hr, run_ask_some hr, ih r h]
          rfl
  | tell e k ih =>
      rw [Program.bind, run, run, ih h]
      rfl
  | throw => cases h

/-- Only the given answers are received. -/
theorem answer_of_answered {P : A → Prop} (h : ∀ i, ∀ r ∈ answers i, P r) {q : Q} {r : A}
    (hr : .answered q r ∈ (p.run answers).trace) : P r := by
  induction p generalizing answers with
  | pure a | throw => exact absurd hr List.not_mem_nil
  | ask q' k ih =>
      cases hfirst : answers 0 with
      | none =>
          rw [run_ask_none hfirst] at hr
          cases List.mem_singleton.mp hr
      | some r' =>
          rw [run_ask_some hfirst] at hr
          rcases List.mem_cons.mp hr with heq | hr
          · cases heq
            exact h 0 r hfirst
          · exact ih r' (fun i ↦ h (i + 1)) hr
  | tell e k ih =>
      rcases List.mem_cons.mp hr with heq | hr
      · cases heq
      · exact ih h hr

/-- What is returned can be returned. -/
theorem can_of_result (h : (p.run answers).result = some a) : p.Can a := by
  induction p generalizing answers with
  | pure b => exact Option.some.inj h
  | ask q k ih =>
      cases hr : answers 0 with
      | none =>
          rw [run_ask_none hr] at h
          cases h
      | some r =>
          rw [run_ask_some hr] at h
          exact ⟨r, ih r h⟩
  | tell e k ih => exact ih h
  | throw => cases h

end Bind

/-! ## Programs that return -/

/-- The program returns if all its questions are answered. -/
def Total : Program Q A E α → Prop
  | .pure _ => True
  | .ask _ k => ∀ r, Total (k r)
  | .tell _ k => Total k
  | .throw => False

section Total

variable {p : Program Q A E α} {f : α → Program Q A E β} {answers : Nat → Option A}

theorem Total.bind (hp : p.Total) (hf : ∀ a, (f a).Total) : (p >>= f).Total := by
  change (p.bind f).Total
  induction p with
  | pure a => exact hf a
  | ask q k ih => exact fun r ↦ ih r (hp r)
  | tell e k ih => exact ih hp
  | throw => exact hp.elim

theorem Total.result (h : p.Total) (hanswers : ∀ i, (answers i).isSome) :
    ∃ a, (p.run answers).result = some a := by
  induction p generalizing answers with
  | pure a => exact ⟨a, rfl⟩
  | ask q k ih =>
      obtain ⟨r, hr⟩ := Option.isSome_iff_exists.mp (hanswers 0)
      rw [run_ask_some hr]
      exact ih r (h r) fun i ↦ hanswers (i + 1)
  | tell e k ih => exact ih h hanswers
  | throw => exact h.elim

/-- The answers that are left. -/
theorem answers_isSome (p : Program Q A E α) (hanswers : ∀ i, (answers i).isSome) (i : Nat) :
    ((p.run answers).answers i).isSome := by
  induction p generalizing answers with
  | pure a | throw => exact hanswers i
  | ask q k ih =>
      obtain ⟨r, hr⟩ := Option.isSome_iff_exists.mp (hanswers 0)
      rw [run_ask_some hr]
      exact ih r fun i ↦ hanswers (i + 1)
  | tell e k ih => exact ih hanswers

/-- A question is asked in a run. -/
def Asked (P : Q → Prop) (trace : List (Done Q A E)) : Prop := ∃ d ∈ trace, ∃ q ∈ d.question?, P q

variable {P : Q → Prop}

theorem asked_append {l₁ l₂ : List (Done Q A E)} :
    Asked P (l₁ ++ l₂) ↔ Asked P l₁ ∨ Asked P l₂ := by
  simp only [Asked, List.mem_append, or_and_right, exists_or]

theorem asked_ask {q : Q} {k : A → Program Q A E α} {r : A} (hr : answers 0 = some r) :
    Asked P ((ask q k).run answers).trace ↔
      P q ∨ Asked P ((k r).run fun i ↦ answers (i + 1)).trace := by
  rw [run_ask_some hr]
  simp only [Asked, Done.question?, List.mem_cons, or_and_right, exists_or, exists_eq_left,
    Option.mem_some_iff, exists_eq_left']

/-- A program that never asks does not ask in a run. -/
theorem Every.not_asked (h : p.Every fun q ↦ ¬ P q) : ¬ Asked P (p.run answers).trace := by
  rintro ⟨d, hd, q, hq, hP⟩
  exact every_iff.mp h answers d hd q hq hP

end Total

/-! ## What comes before -/

/-- Everything that happens is in `P`, after what has happened before it. -/
def Ordered (P : List (Done Q A E) → Done Q A E → Prop) :
    List (Done Q A E) → List (Done Q A E) → Prop
  | _, [] => True
  | before, d :: rest => P before d ∧ Ordered P (before ++ [d]) rest

section Ordered

variable {P : List (Done Q A E) → Done Q A E → Prop} {before : List (Done Q A E)}

theorem ordered_append {l₁ l₂ : List (Done Q A E)} :
    Ordered P before (l₁ ++ l₂) ↔ Ordered P before l₁ ∧ Ordered P (before ++ l₁) l₂ := by
  induction l₁ generalizing before with
  | nil =>
      rw [List.append_nil]
      exact (true_and _).symm.to_iff
  | cons d l₁ ih =>
      rw [List.cons_append, Ordered, Ordered, ih, and_assoc, List.append_assoc]
      rfl

/-- The first of two programs is in `P`. -/
theorem Ordered.of_bind {p : Program Q A E α} {f : α → Program Q A E β}
    {answers : Nat → Option A} (h : Ordered P before ((p >>= f).run answers).trace) :
    Ordered P before (p.run answers).trace := by
  cases ha : (p.run answers).result with
  | none =>
      rw [run_bind_none ha] at h
      exact h
  | some a =>
      rw [run_bind_some ha] at h
      exact (ordered_append.mp h).1

/-- What is in `P` whatever comes before it. -/
theorem ordered_of_mem {l : List (Done Q A E)} (h : ∀ more, ∀ d ∈ l, P (before ++ more) d) :
    Ordered P before l := by
  induction l generalizing before with
  | nil => trivial
  | cons d l ih =>
      constructor
      · have hd := h [] d List.mem_cons_self
        rwa [List.append_nil] at hd
      · refine ih fun more d' hd' ↦ ?_
        rw [List.append_assoc]
        exact h _ d' (List.mem_cons_of_mem _ hd')

end Ordered

/-! ## Other questions -/

/-- Ask other questions, and go on with the answers. -/
def mapQuestions (g : Q → Q) : Program Q A E α → Program Q A E α
  | .pure a => .pure a
  | .ask q k => .ask (g q) fun r ↦ mapQuestions g (k r)
  | .tell e k => .tell e (mapQuestions g k)
  | .throw => .throw

section MapQuestions

variable {g : Q → Q}

theorem mapQuestions_bind (p : Program Q A E α) (f : α → Program Q A E β) :
    (p >>= f).mapQuestions g = p.mapQuestions g >>= fun a ↦ (f a).mapQuestions g := by
  change (p.bind f).mapQuestions g = (p.mapQuestions g).bind fun a ↦ (f a).mapQuestions g
  induction p with
  | pure a | throw => rfl
  | ask q k ih => exact congrArg (Program.ask (g q)) (funext ih)
  | tell e k ih => exact congrArg (Program.tell e) ih

/-- The questions that stay the same. -/
theorem mapQuestions_eq_self {p : Program Q A E α} (h : p.Every fun q ↦ g q = q) :
    p.mapQuestions g = p := by
  induction p with
  | pure a | throw => rfl
  | ask q k ih =>
      rw [mapQuestions, h.1]
      exact congrArg (Program.ask q) (funext fun r ↦ ih r (h.2 r))
  | tell e k ih => exact congrArg (Program.tell e) (ih h)

end MapQuestions

end Program
