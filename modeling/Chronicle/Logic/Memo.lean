import Mathlib.Data.List.Basic
import Mathlib.Logic.Function.Basic

/-!
# Memos

A memo keeps what was found for a key, and gives it as the answer from then on, until it is
emptied.  What a lookup would give may change meanwhile.

The answers are fresh exactly if any two uses of a key between which the memo is not emptied
agree, unless the first one finds nothing (`forall_fresh_iff`).
-/

namespace Memo

universe u v w

variable {κ : Type u} {β : Type v} {γ : Type w}

/-- What happens to a memo. -/
inductive Event (κ : Type u) (β : Type v) (γ : Type w) where
  | reset
  /-- It is used for a key, where a lookup gives `fresh` now, and the answer is `got`. -/
  | use (key : κ) (fresh : Option β) (got : γ)

/-- A use of a memo, after some resets. -/
structure Use (κ : Type u) (β : Type v) (γ : Type w) where
  resets : Nat
  key : κ
  fresh : Option β
  got : γ

/-- The uses of a memo that was emptied `n` times. -/
def uses (n : Nat) : List (Event κ β γ) → List (Use κ β γ)
  | [] => []
  | .reset :: es => uses (n + 1) es
  | .use key fresh got :: es => ⟨n, key, fresh, got⟩ :: uses n es

variable [DecidableEq κ]

/-- What a memo holds after an event. -/
def step (memo : κ → Option β) : Event κ β γ → κ → Option β
  | .reset => fun _ ↦ none
  | .use key fresh _ => Function.update memo key ((memo key).or fresh)

variable (value : Option β → γ)

/-- The answer is what the memo holds, or what is looked up if it holds nothing. -/
def Answered (memo : κ → Option β) : Event κ β γ → Prop
  | .reset => True
  | .use key fresh got => got = value ((memo key).or fresh)

/-- All answers come from the memo in this way. -/
def Answers (memo : κ → Option β) : List (Event κ β γ) → Prop
  | [] => True
  | e :: es => Answered value memo e ∧ Answers (step memo e) es

omit [DecidableEq κ] in
/-- The answer is what a lookup gives. -/
def Fresh (u : Use κ β γ) : Prop := u.got = value u.fresh

omit [DecidableEq κ] in
/-- If two uses look for the same key, with no reset between them, and the first one finds
something, then they find the same. -/
def Agree (u v : Use κ β γ) : Prop :=
  u.resets = v.resets → u.key = v.key → u.fresh ≠ none → value u.fresh = value v.fresh

section Answers

variable {value} {memo : κ → Option β} {es es' : List (Event κ β γ)} {us : List (Use κ β γ)}
  {n : Nat}

theorem answers_append : Answers value memo (es ++ es') ↔
    Answers value memo es ∧ Answers value (es.foldl step memo) es' := by
  induction es generalizing memo with
  | nil => exact (and_iff_right trivial).symm
  | cons e es ih => rw [List.cons_append, Answers, Answers, ih, and_assoc, List.foldl_cons]

variable (value) in
/-- After some uses with fresh answers: what a memo, emptied `n` times, holds for a key was found
at one of them, and all of them that have found something agree with it. -/
structure Recalls (us : List (Use κ β γ)) (n : Nat) (memo : κ → Option β) : Prop where
  past : ∀ u ∈ us, u.resets ≤ n
  nothing : ∀ u ∈ us, u.resets = n → memo u.key = none → u.fresh = none
  found : ∀ key b, memo key = some b → ∃ u ∈ us, u.resets = n ∧ u.key = key ∧ u.fresh = some b
  agree : ∀ u ∈ us, u.resets = n → u.fresh ≠ none → ∀ b, memo u.key = some b →
    value u.fresh = value (some b)

namespace Recalls

omit [DecidableEq κ] in
theorem nil : Recalls value ([] : List (Use κ β γ)) n fun _ ↦ none where
  past _ hu := absurd hu List.not_mem_nil
  nothing _ hu := absurd hu List.not_mem_nil
  found _ _ hb := by cases hb
  agree _ hu := absurd hu List.not_mem_nil

omit [DecidableEq κ] in
theorem reset (h : Recalls value us n memo) : Recalls value us (n + 1) fun _ ↦ none where
  past u hu := Nat.le_succ_of_le (h.past u hu)
  nothing u hu hn _ := absurd (h.past u hu) (by omega)
  found _ _ hb := by cases hb
  agree u hu hn := absurd (h.past u hu) (by omega)

/-- One more use with a fresh answer. -/
theorem use (h : Recalls value us n memo) {key : κ} {fresh : Option β} (got : γ)
    (hfresh : value ((memo key).or fresh) = value fresh) :
    Recalls value (us ++ [⟨n, key, fresh, got⟩]) n
      (Function.update memo key ((memo key).or fresh)) := by
  have hnone : (memo key).or fresh = none ↔ memo key = none ∧ fresh = none := Option.or_eq_none_iff
  constructor
  · intro u hu
    rcases List.mem_append.mp hu with hu | hu
    · exact h.past u hu
    · exact Nat.le_of_eq (congrArg Use.resets (List.mem_singleton.mp hu))
  · intro u hu hn hmemo
    rcases List.mem_append.mp hu with hu | hu
    · refine h.nothing u hu hn ?_
      by_cases hkey : u.key = key
      · rw [hkey, Function.update_self] at hmemo
        exact hkey ▸ (hnone.mp hmemo).1
      · rwa [Function.update_of_ne hkey] at hmemo
    · rw [List.mem_singleton.mp hu] at hmemo ⊢
      rw [Function.update_self] at hmemo
      exact (hnone.mp hmemo).2
  · intro key' b hb
    by_cases hkey : key' = key
    · subst hkey
      rw [Function.update_self] at hb
      cases hmemo : memo key' with
      | some b' =>
          rw [hmemo, Option.some_or] at hb
          obtain ⟨u, hu, hspec⟩ := h.found key' b (hmemo.trans hb)
          exact ⟨u, List.mem_append_left _ hu, hspec⟩
      | none =>
          rw [hmemo, Option.none_or] at hb
          exact ⟨_, List.mem_append_right _ (List.mem_singleton_self _), rfl, rfl, hb⟩
    · rw [Function.update_of_ne hkey] at hb
      obtain ⟨u, hu, hspec⟩ := h.found key' b hb
      exact ⟨u, List.mem_append_left _ hu, hspec⟩
  · intro u hu hn hfound b hb
    rcases List.mem_append.mp hu with hu | hu
    · by_cases hkey : u.key = key
      · rw [hkey, Function.update_self] at hb
        cases hmemo : memo key with
        | some b' =>
            rw [hmemo, Option.some_or] at hb
            exact h.agree u hu hn hfound b (hkey ▸ hmemo.trans hb)
        | none => exact absurd (h.nothing u hu hn (hkey ▸ hmemo)) hfound
      · rw [Function.update_of_ne hkey] at hb
        exact h.agree u hu hn hfound b hb
    · rw [List.mem_singleton.mp hu, Function.update_self] at hb
      rw [List.mem_singleton.mp hu, ← hb]
      exact hfresh.symm

omit [DecidableEq κ] in
/-- An answer is fresh exactly if the use agrees with those before. -/
theorem fresh_iff (h : Recalls value us n memo) (key : κ) (fresh : Option β) (got : γ) :
    value ((memo key).or fresh) = value fresh ↔
      ∀ u ∈ us, Agree value u ⟨n, key, fresh, got⟩ := by
  cases hmemo : memo key with
  | none =>
      refine iff_of_true (by rw [Option.none_or]) fun u hu hn hkey hfound ↦ ?_
      have hkey : u.key = key := hkey
      exact absurd (h.nothing u hu hn (hkey ▸ hmemo)) hfound
  | some b =>
      rw [Option.some_or]
      constructor
      · intro hvalue u hu hn hkey hfound
        have hkey : u.key = key := hkey
        exact (h.agree u hu hn hfound b (hkey ▸ hmemo)).trans hvalue
      · intro hall
        obtain ⟨u, hu, hn, hkey, hfound⟩ := h.found key b hmemo
        rw [← hfound]
        exact hall u hu hn hkey (hfound ▸ Option.some_ne_none b)

/-- The answers after some uses that agree. -/
theorem fresh_iff_pairwise (h : Recalls value us n memo) (hus : us.Pairwise (Agree value))
    (hes : Answers value memo es) :
    (∀ u ∈ uses n es, Fresh value u) ↔ (us ++ uses n es).Pairwise (Agree value) := by
  induction es generalizing us n memo with
  | nil =>
      rw [uses, List.append_nil]
      exact iff_of_true (fun _ hu ↦ absurd hu List.not_mem_nil) hus
  | cons e es ih =>
      obtain ⟨hanswer, hes⟩ := hes
      cases e with
      | reset => exact ih h.reset hus hes
      | use key fresh got =>
          have hgot : got = value ((memo key).or fresh) := hanswer
          have hsplit : us ++ uses n (.use key fresh got :: es) =
              (us ++ [⟨n, key, fresh, got⟩]) ++ uses n es := by
            rw [List.append_assoc]
            rfl
          rw [hsplit, uses, List.forall_mem_cons, Fresh, hgot]
          by_cases hfresh : value ((memo key).or fresh) = value fresh
          · have hpair : List.Pairwise (Agree value) (us ++ [⟨n, key, fresh, got⟩]) := by
              refine List.pairwise_append.mpr
                ⟨hus, List.pairwise_singleton _ _, fun u hu v hv ↦ ?_⟩
              rw [List.mem_singleton.mp hv]
              exact (h.fresh_iff key fresh got).mp hfresh u hu
            rw [and_iff_right hfresh, ← hgot]
            exact ih (h.use got hfresh) hpair hes
          · refine iff_of_false (fun h' ↦ hfresh h'.1) fun hpair ↦ hfresh ?_
            have hlast := (List.pairwise_append.mp (List.pairwise_append.mp hpair).1).2.2
            exact (h.fresh_iff key fresh _).mpr fun u hu ↦
              hlast u hu _ (List.mem_singleton_self _)

end Recalls

/-- **The answers of a memo that is empty at first are fresh exactly if its uses agree.** -/
theorem forall_fresh_iff (h : Answers value (fun _ ↦ none) es) :
    (∀ u ∈ uses 0 es, Fresh value u) ↔ (uses 0 es).Pairwise (Agree value) :=
  Recalls.nil.fresh_iff_pairwise .nil h

end Answers

end Memo
