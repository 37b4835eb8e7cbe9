import Chronicle.Logic.Chain
import Chronicle.Logic.Effect

/-!
# Output of a loop that threads a state

A loop goes through a list, and each round adds to the output, depending on a state that the
rounds before have changed.  `emits` is the output of the whole loop, and the rule for `forM`
gives it from what one round does.
-/

namespace Effect

variable {σ τ α β ε S : Type}

/-- The output of the elements of a list, one after the other. -/
def emits (next : σ → α → σ) (out : σ → α → List β) : σ → List α → List β
  | _, [] => []
  | s, a :: as => out s a ++ emits next out (next s a) as

section Emits

variable {next : σ → α → σ} {out : σ → α → List β}

theorem emits_append (s : σ) (as bs : List α) :
    emits next out s (as ++ bs) = emits next out s as ++ emits next out (as.foldl next s) bs := by
  induction as generalizing s with
  | nil => rfl
  | cons a as ih =>
      rw [List.cons_append, emits, ih, ← List.append_assoc]
      rfl

/-- A loop whose rounds leave the state alone. -/
theorem emits_const {out : σ → α → List β} (s : σ) (as : List α) :
    emits (fun s _ ↦ s) out s as = as.flatMap (out s) := by
  induction as with
  | nil => rfl
  | cons a as ih => rw [emits, ih, List.flatMap_cons]

/-- A loop that passes over some of the elements. -/
theorem foldl_elim {γ : Type} (f : α → Option γ) (next : σ → γ → σ) (s : σ) (as : List α) :
    as.foldl (fun s a ↦ (f a).elim s (next s)) s = (as.filterMap f).foldl next s := by
  induction as generalizing s with
  | nil => rfl
  | cons a as ih =>
      rw [List.foldl_cons, ih]
      cases h : f a with
      | none =>
          rw [List.filterMap_cons_none h]
          rfl
      | some c =>
          rw [List.filterMap_cons_some h]
          rfl

theorem emits_elim {γ : Type} (f : α → Option γ) (next : σ → γ → σ) (out : σ → γ → List β) (s : σ)
    (as : List α) :
    emits (fun s a ↦ (f a).elim s (next s)) (fun s a ↦ (f a).elim [] (out s)) s as =
      emits next out s (as.filterMap f) := by
  induction as generalizing s with
  | nil => rfl
  | cons a as ih =>
      rw [emits, ih]
      cases h : f a with
      | none =>
          rw [List.filterMap_cons_none h]
          rfl
      | some c =>
          rw [List.filterMap_cons_some h]
          rfl

/-- Every output belongs to a round, in the state that the rounds before it have left. -/
theorem mem_emits {s : σ} {as : List α} {b : β} (h : b ∈ emits next out s as) :
    ∃ before a after, as = before ++ a :: after ∧ b ∈ out (before.foldl next s) a := by
  induction as generalizing s with
  | nil => cases h
  | cons a as ih =>
      rcases List.mem_append.mp h with h | h
      · exact ⟨[], a, as, rfl, h⟩
      · obtain ⟨before, a', after, rfl, hout⟩ := ih h
        exact ⟨a :: before, a', after, rfl, hout⟩

/-- A loop that puts out one numbered entry for each element: the entries below a number are those
of the elements below it. -/
theorem cut_emits {num : α → Nat} {entry : σ → α → β} (f : Nat) {s : σ} {as : List α}
    (h : as.Pairwise fun a b ↦ num a < num b) :
    Chain.cut f (emits next (fun s a ↦ [(num a, entry s a)]) s as) =
      emits next (fun s a ↦ [(num a, entry s a)]) s (as.filter (num · < f)) := by
  induction as generalizing s with
  | nil => rfl
  | cons a as ih =>
      obtain ⟨ha, hrest⟩ := List.pairwise_cons.mp h
      by_cases hlt : num a < f
      · have hhead : Chain.cut f [(num a, entry s a)] = [(num a, entry s a)] :=
          Chain.cut_eq_self fun p hp ↦ by rwa [List.mem_singleton.mp hp]
        have hfilter : (a :: as).filter (num · < f) = a :: as.filter (num · < f) :=
          List.filter_cons_of_pos (decide_eq_true hlt)
        rw [hfilter, emits, emits, Chain.cut, List.filter_append]
        exact congrArg₂ (· ++ ·) hhead (ih hrest)
      · -- the elements behind the first one are above the number as well
        have hnone : (a :: as).filter (num · < f) = [] := by
          refine List.filter_eq_nil_iff.mpr fun b hb ↦ ?_
          rw [decide_eq_true_iff]
          rcases List.mem_cons.mp hb with rfl | hb
          · exact hlt
          · exact fun h ↦ hlt ((ha b hb).trans h)
        rw [hnone]
        refine Chain.cut_eq_nil fun p hp ↦ ?_
        obtain ⟨before, b, after, heq, hout⟩ := mem_emits hp
        rw [List.mem_singleton.mp hout]
        have hb : b ∈ a :: as := heq ▸ List.mem_append_right _ List.mem_cons_self
        rcases List.mem_cons.mp hb with rfl | hb
        · exact not_lt.mp hlt
        · exact (not_lt.mp hlt).trans (ha b hb).le

/-- The output of a loop, from what one round does. -/
theorem Triple.forM_emits {I : σ → List β → S → Prop} {E : ε → S → Prop}
    {f : α → EStateM ε S PUnit}
    (hf : ∀ s es a, Triple (I s es) (f a) (fun _ ↦ I (next s a) (es ++ out s a)) E)
    (s : σ) (es : List β) (l : List α) :
    Triple (I s es) (l.forM f) (fun _ ↦ I (l.foldl next s) (es ++ emits next out s l)) E := by
  induction l generalizing s es with
  | nil =>
      refine Triple.pure fun w hw ↦ ?_
      rw [emits, List.append_nil]
      exact hw
  | cons a l ih =>
      refine Triple.bind (hf s es a) fun _ ↦ ?_
      rw [emits, ← List.append_assoc]
      exact ih (next s a) (es ++ out s a)

end Emits

end Effect
