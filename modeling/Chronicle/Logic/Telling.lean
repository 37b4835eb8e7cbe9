import Chronicle.Logic.Program
import Mathlib.Tactic.SplitIfs

/-!
# What a program tells

A program tells just `l` if it has told `l` whenever it returns (`TellsJust`).  So it tells the
beginning of `l` however its questions are answered, and all of `l` if it returns (`told_run`).

What a program can tell is a property of the program alone (`EveryTold`), and it is what it tells
for some answers (`everyTold_iff`).  A program may also take notes of what it does, which are left
out again by `quiet`.
-/

universe u v w x y

namespace Program

variable {Q : Type u} {A : Type v} {E : Type w} {α β : Type x}

/-- What was told in a run, in order. -/
def told (trace : List (Done Q A E)) : List E :=
  trace.filterMap fun
    | .told e => some e
    | .answered _ _ | .failed _ => none

@[simp] theorem told_append (l₁ l₂ : List (Done Q A E)) : told (l₁ ++ l₂) = told l₁ ++ told l₂ :=
  List.filterMap_append

/-- Wherever the program returns, it has told just `l`. -/
def TellsJust : Program Q A E α → List E → Prop
  | .pure _, l => l = []
  | .ask _ k, l => ∀ r, TellsJust (k r) l
  | .tell e k, l => ∃ l', l = e :: l' ∧ TellsJust k l'
  | .throw, _ => True

variable {p : Program Q A E α} {f : α → Program Q A E β} {l l' : List E}

@[simp]
theorem tellsJust_pure {a : α} : (Pure.pure a : Program Q A E α).TellsJust l ↔ l = [] := Iff.rfl

@[simp]
theorem tellsJust_throw : (throw : Program Q A E α).TellsJust l ↔ True := Iff.rfl

theorem TellsJust.bind (hp : p.TellsJust l) (hf : ∀ a, (f a).TellsJust l') :
    (p >>= f).TellsJust (l ++ l') := by
  change (p.bind f).TellsJust (l ++ l')
  induction p generalizing l with
  | pure a =>
      obtain rfl : l = [] := hp
      exact hf a
  | ask q k ih => exact fun r ↦ ih r (hp r)
  | tell e k ih =>
      obtain ⟨l₁, rfl, hk⟩ := hp
      exact ⟨l₁ ++ l', rfl, ih hk⟩
  | throw => trivial

/-- Two programs one after another tell nothing if neither does. -/
theorem TellsJust.silent_bind (hp : p.TellsJust []) (hf : ∀ a, (f a).TellsJust []) :
    (p >>= f).TellsJust [] := hp.bind hf

/-- The second program is only run with what the first one can return. -/
@[simp]
theorem silent_bind_iff :
    (p >>= f).TellsJust [] ↔ p.TellsJust [] ∧ ∀ a, p.Can a → (f a).TellsJust [] := by
  change (p.bind f).TellsJust [] ↔ _
  induction p with
  | pure a => simp [Program.bind, TellsJust, Can]
  | ask q k ih =>
      simp only [Program.bind, TellsJust, Can, ih, forall_and, forall_exists_index]
      exact and_congr_right fun _ ↦ forall_comm
  | tell e k ih => simp [Program.bind, TellsJust]
  | throw => simp [Program.bind, TellsJust, Can]

/-- What one of two programs tells. -/
theorem TellsJust.ite {p' : Program Q A E α} {c : Prop} [Decidable c] (h : p.TellsJust l)
    (h' : p'.TellsJust l) : (if c then p else p').TellsJust l := by
  split_ifs
  · exact h
  · exact h'

/-- The beginning of `l` is told in every run, and all of it if the program returns. -/
theorem TellsJust.told_run (h : p.TellsJust l) (answers : Nat → Option A) :
    told (p.run answers).trace <+: l ∧
      ((p.run answers).result.isSome → told (p.run answers).trace = l) := by
  induction p generalizing l answers with
  | pure a => exact ⟨List.nil_prefix, fun _ ↦ (show l = [] from h).symm⟩
  | ask q k ih =>
      cases hr : answers 0 with
      | none =>
          rw [run_ask_none hr]
          exact ⟨List.nil_prefix, fun hsome ↦ by cases hsome⟩
      | some r =>
          rw [run_ask_some hr]
          exact ih r (h r) _
  | tell e k ih =>
      obtain ⟨l', rfl, hk⟩ := h
      obtain ⟨hfirst, hall⟩ := ih hk answers
      refine ⟨List.cons_prefix_cons.mpr ⟨rfl, hfirst⟩, fun hsome ↦ ?_⟩
      exact congrArg (e :: ·) (hall hsome)
  | throw => exact ⟨List.nil_prefix, fun hsome ↦ by cases hsome⟩

/-! ## All that is told -/

/-- Everything that the program can tell is in `P`. -/
def EveryTold (P : E → Prop) : Program Q A E α → Prop
  | .pure _ => True
  | .ask _ k => ∀ r, EveryTold P (k r)
  | .tell e k => P e ∧ EveryTold P k
  | .throw => True

section EveryTold

variable {P : E → Prop}

@[simp]
theorem everyTold_bind :
    (p >>= f).EveryTold P ↔ p.EveryTold P ∧ ∀ a, p.Can a → (f a).EveryTold P := by
  change (p.bind f).EveryTold P ↔ _
  induction p with
  | pure a => simp [Program.bind, EveryTold, Can]
  | ask q k ih =>
      simp only [Program.bind, EveryTold, Can, ih, forall_and, forall_exists_index]
      exact and_congr_right fun _ ↦ forall_comm
  | tell e k ih => simp only [Program.bind, EveryTold, Can, ih, and_assoc]
  | throw => simp [Program.bind, EveryTold, Can]

theorem everyTold_ite {p' : Program Q A E α} {c : Prop} [Decidable c] :
    (if c then p else p').EveryTold P ↔ (c → p.EveryTold P) ∧ (¬ c → p'.EveryTold P) := by
  split_ifs with hc
  · exact ⟨fun h ↦ ⟨fun _ ↦ h, fun h' ↦ absurd hc h'⟩, fun h ↦ h.1 hc⟩
  · exact ⟨fun h ↦ ⟨fun h' ↦ absurd h' hc, fun _ ↦ h⟩, fun h ↦ h.2 hc⟩

/-- What a program can tell is what it tells for some answers. -/
theorem everyTold_iff : p.EveryTold P ↔
    ∀ answers : Nat → Option A, ∀ e, .told e ∈ (p.run answers).trace → P e := by
  constructor
  · intro h
    induction p with
    | pure a | throw => exact fun _ e he ↦ absurd he List.not_mem_nil
    | ask q k ih =>
        intro answers e he
        cases hr : answers 0 with
        | none =>
            rw [run_ask_none hr] at he
            cases List.mem_singleton.mp he
        | some r =>
            rw [run_ask_some hr] at he
            rcases List.mem_cons.mp he with heq | he
            · cases heq
            · exact ih r (h r) _ e he
    | tell e k ih =>
        intro answers e' he
        rcases List.mem_cons.mp he with heq | he
        · exact Done.told.inj heq ▸ h.1
        · exact ih h.2 answers e' he
  · intro h
    induction p with
    | pure a | throw => trivial
    | ask q k ih =>
        intro r
        refine ih r fun answers e he ↦ ?_
        -- the first answer is `r`, and then come the others
        refine h (fun i ↦ i.casesOn (some r) answers) e ?_
        exact List.mem_cons_of_mem _ he
    | tell e k ih =>
        refine ⟨h (fun _ ↦ none) e List.mem_cons_self, ih fun answers e' he ↦ ?_⟩
        exact h answers e' (List.mem_cons_of_mem _ he)

end EveryTold

/-! ## Notes -/

section Notes

variable {F : Type y}

/-- Leave out the notes. -/
def quiet : Program Q A (E ⊕ F) α → Program Q A E α
  | .pure a => .pure a
  | .ask q k => .ask q fun r ↦ quiet (k r)
  | .tell (.inl e) k => .tell e (quiet k)
  | .tell (.inr _) k => quiet k
  | .throw => .throw

variable (F) in
/-- A program that takes no notes. -/
def unnoted : Program Q A E α → Program Q A (E ⊕ F) α
  | .pure a => .pure a
  | .ask q k => .ask q fun r ↦ unnoted (k r)
  | .tell e k => .tell (.inl e) (unnoted k)
  | .throw => .throw

@[simp]
theorem quiet_unnoted : (p.unnoted F).quiet = p := by
  induction p with
  | pure a | throw => rfl
  | ask q k ih => exact congrArg (ask q) (funext ih)
  | tell e k ih => exact congrArg (tell e) ih

@[simp]
theorem quiet_bind {p : Program Q A (E ⊕ F) α} {f : α → Program Q A (E ⊕ F) β} :
    (p >>= f).quiet = p.quiet >>= fun a ↦ (f a).quiet := by
  change (p.bind f).quiet = p.quiet.bind fun a ↦ (f a).quiet
  induction p with
  | pure a | throw => rfl
  | ask q k ih => exact congrArg (ask q) (funext ih)
  | tell e k ih =>
      cases e with
      | inl e => exact congrArg (tell e) ih
      | inr note => exact ih

@[simp]
theorem can_unnoted {a : α} : (p.unnoted F).Can a ↔ p.Can a := by
  induction p with
  | pure b | throw => exact Iff.rfl
  | ask q k ih => exact exists_congr ih
  | tell e k ih => exact ih

/-- All notes are in `P`. -/
def EveryNoted (P : F → Prop) (p : Program Q A (E ⊕ F) α) : Prop :=
  p.EveryTold (Sum.elim (fun _ ↦ True) P)

section EveryNoted

variable {P : F → Prop} {n : Program Q A (E ⊕ F) α} {g : α → Program Q A (E ⊕ F) β}

@[simp]
theorem everyNoted_pure {a : α} : (Pure.pure a : Program Q A (E ⊕ F) α).EveryNoted P ↔ True :=
  Iff.rfl

@[simp]
theorem everyNoted_bind :
    (n >>= g).EveryNoted P ↔ n.EveryNoted P ∧ ∀ a, n.Can a → (g a).EveryNoted P := everyTold_bind

theorem everyNoted_ite {n' : Program Q A (E ⊕ F) α} {c : Prop} [Decidable c] :
    (if c then n else n').EveryNoted P ↔ (c → n.EveryNoted P) ∧ (¬ c → n'.EveryNoted P) :=
  everyTold_ite

@[simp]
theorem everyNoted_unnoted : (p.unnoted F).EveryNoted P ↔ True := by
  refine iff_true_intro ?_
  induction p with
  | pure a | throw => trivial
  | ask q k ih => exact ih
  | tell e k ih => exact ⟨trivial, ih⟩

theorem everyNoted_iff : n.EveryNoted P ↔
    ∀ answers : Nat → Option A, ∀ note, .told (.inr note) ∈ (n.run answers).trace → P note := by
  refine everyTold_iff.trans (forall_congr' fun answers ↦ ⟨fun h note hnote ↦ h _ hnote, ?_⟩)
  rintro h (e | note) he
  · trivial
  · exact h note he

end EveryNoted

end Notes

end Program
