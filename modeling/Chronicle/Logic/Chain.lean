import Mathlib.Data.List.Chain

/-!
# Lists of numbered entries

A list whose entries have consecutive numbers.  It can be cut at a number, which leaves the
entries below it, and continued with the next number.
-/

universe u

namespace Chain

variable {α : Type u} {l : List (Nat × α)} {f : Nat}

/-- Every entry has the number after the one before it. -/
def Consecutive (l : List (Nat × α)) : Prop := l.IsChain fun p q ↦ q.1 = p.1 + 1

/-- Drop the entries from number `f` on. -/
def cut (f : Nat) (l : List (Nat × α)) : List (Nat × α) := l.filter fun p ↦ p.1 < f

/-- The entries that a cut drops. -/
def dropped (f : Nat) (l : List (Nat × α)) : List (Nat × α) := l.filter fun p ↦ ¬ p.1 < f

@[simp] theorem mem_cut {p : Nat × α} : p ∈ cut f l ↔ p ∈ l ∧ p.1 < f := by
  rw [cut, List.mem_filter, decide_eq_true_iff]

theorem cut_eq_self (h : ∀ p ∈ l, p.1 < f) : cut f l = l :=
  List.filter_eq_self.mpr fun p hp ↦ decide_eq_true (h p hp)

theorem cut_eq_nil (h : ∀ p ∈ l, f ≤ p.1) : cut f l = [] :=
  List.filter_eq_nil_iff.mpr fun p hp ↦ by
    rw [decide_eq_true_iff]
    exact (h p hp).not_gt

namespace Consecutive

theorem nil : Consecutive ([] : List (Nat × α)) := List.IsChain.nil

theorem sorted (h : Consecutive l) : l.Pairwise fun p q ↦ p.1 < q.1 := by
  have hlt : (l.map Prod.fst).IsChain fun m n ↦ m < n := by
    refine (List.isChain_map Prod.fst).mpr (List.IsChain.imp (fun p q hpq ↦ ?_) h)
    rw [hpq]
    exact Nat.lt_succ_self _
  exact List.pairwise_map.mp hlt.pairwise

/-- The entries below a number come first. -/
theorem cut_append_dropped (h : Consecutive l) (f : Nat) : cut f l ++ dropped f l = l := by
  have hsorted := h.sorted
  clear h
  induction l with
  | nil => rfl
  | cons p l ih =>
      obtain ⟨hp, hl⟩ := List.pairwise_cons.mp hsorted
      by_cases hlt : p.1 < f
      · have hcut : cut f (p :: l) = p :: cut f l := List.filter_cons_of_pos (decide_eq_true hlt)
        have hdrop : dropped f (p :: l) = dropped f l :=
          List.filter_cons_of_neg (by rw [decide_eq_true_iff]; exact not_not_intro hlt)
        rw [hcut, hdrop, List.cons_append, ih hl]
      · -- everything behind the first entry is dropped as well
        have hall : ∀ q ∈ p :: l, f ≤ q.1 := by
          intro q hq
          rcases List.mem_cons.mp hq with rfl | hq
          · exact not_lt.mp hlt
          · exact (not_lt.mp hlt).trans (hp q hq).le
        rw [cut_eq_nil hall, List.nil_append]
        exact List.filter_eq_self.mpr fun q hq ↦ decide_eq_true (hall q hq).not_gt

theorem cut (h : Consecutive l) (f : Nat) : Consecutive (cut f l) := by
  have happend : Consecutive (Chain.cut f l ++ dropped f l) := by
    rwa [h.cut_append_dropped]
  exact List.IsChain.left_of_append happend

/-- One more entry, with the next number. -/
theorem concat (h : Consecutive l) {p : Nat × α} (hlast : ∀ q ∈ l.getLast?, p.1 = q.1 + 1) :
    Consecutive (l ++ [p]) := by
  refine List.IsChain.append h (List.isChain_singleton p) fun q hq p' hp' ↦ ?_
  cases hp'
  exact hlast q hq

/-- A list that goes on at or above `f` has a last entry below `f` only right below it. -/
theorem last_of_cut (h : Consecutive l) {q : Nat × α} (hq : q ∈ l) (hf : f ≤ q.1) :
    ∀ p ∈ (Chain.cut f l).getLast?, f = p.1 + 1 := by
  intro p hp
  have happend : Consecutive (Chain.cut f l ++ dropped f l) := by
    rwa [h.cut_append_dropped]
  obtain ⟨-, -, hnext⟩ := List.isChain_append.mp happend
  have hmem : q ∈ dropped f l := List.mem_filter.mpr ⟨hq, decide_eq_true hf.not_gt⟩
  obtain ⟨y, rest, hy⟩ := List.exists_cons_of_ne_nil (List.ne_nil_of_mem hmem)
  have hsucc : y.1 = p.1 + 1 := hnext p hp y (by rw [hy]; rfl)
  have habove : ¬ y.1 < f := by
    have hin : y ∈ dropped f l := hy ▸ List.mem_cons_self
    exact of_decide_eq_true (List.mem_filter.mp hin).2
  have hbelow := (mem_cut.mp (List.mem_of_getLast? hp)).2
  omega

/-- The entry with the greatest number is the last one. -/
theorem getLast?_eq (h : Consecutive l) {q : Nat × α} (hq : q ∈ l) (hmax : ∀ p ∈ l, p.1 ≤ q.1) :
    l.getLast? = some q := by
  rcases List.eq_nil_or_concat l with rfl | ⟨l', p, rfl⟩
  · cases hq
  · rw [List.concat_eq_append] at h hq hmax ⊢
    obtain ⟨-, -, hlt⟩ := List.pairwise_append.mp h.sorted
    rw [List.getLast?_concat]
    rcases List.mem_append.mp hq with hq' | hq'
    · have hle := hmax p (List.mem_append_right _ List.mem_cons_self)
      have := hlt q hq' p List.mem_cons_self
      omega
    · rw [List.mem_singleton.mp hq']

/-- After a cut right above an entry it is the last one. -/
theorem getLast?_cut (h : Consecutive l) {q : Nat × α} (hq : q ∈ l) :
    (Chain.cut (q.1 + 1) l).getLast? = some q :=
  (h.cut _).getLast?_eq (mem_cut.mpr ⟨hq, Nat.lt_succ_self _⟩) fun _ hp ↦
    Nat.le_of_lt_succ (mem_cut.mp hp).2

/-- The last entry has the greatest number. -/
theorem le_getLast (h : Consecutive l) {p q : Nat × α} (hp : p ∈ l) (hq : l.getLast? = some q) :
    p.1 ≤ q.1 := by
  obtain ⟨l', rfl⟩ := List.getLast?_eq_some_iff.mp hq
  obtain ⟨-, -, hlt⟩ := List.pairwise_append.mp h.sorted
  rcases List.mem_append.mp hp with hp | hp
  · exact (hlt p hp q List.mem_cons_self).le
  · rw [List.mem_singleton.mp hp]

end Consecutive

end Chain
