import Mathlib.Data.List.Basic
import Mathlib.Order.Lattice

/-!
# Answers in batches

A sender numbers what it sends.  The other side remembers the last number that it has seen, and
answers with it: always when it is told of a pause, and otherwise whenever it likes.  When the
sender goes back to a lower number it waits for the answer to that number, and ignores higher
ones until then.

What is underway never falls below the number that is answered next, but for old answers before
it (`Batched.Sound`).  So when the sender pauses and nothing is underway any more, its last number
is answered (`Sound.caught_up`).
-/

/-- A sender at `head`, and the answers that are underway to it. -/
structure Batched where
  head : Nat
  acked : Nat
  /-- The number that the sender has gone back to, until it is answered, or 0. -/
  awaited : Nat
  underway : List Int
  /-- What an answer to all that was sent will be. -/
  last : Int
  /-- A pause was told after the last number. -/
  told : Bool

namespace Batched

/-- The next number is sent, which may be answered at once. -/
def advance (answered : Bool) (s : Batched) : Batched :=
  { s with head := s.head + 1, last := s.head, told := false,
           underway := s.underway ++ if answered then [(s.head : Int)] else [] }

/-- The sender goes back, and sends the number, which may be answered at once. -/
def rewind (b : Nat) (answered : Bool) (s : Batched) : Batched :=
  { head := b, acked := min s.acked (b - 1), awaited := b, last := b - 1, told := false,
    underway := s.underway ++ if answered then [(b : Int) - 1] else [] }

/-- A pause is told, and answered. -/
def pause (s : Batched) : Batched :=
  { s with told := true, underway := s.underway ++ [s.last] }

/-- An answer arrives. -/
def answer (n : Nat) (s : Batched) : Batched :=
  if 0 < s.awaited then
    if s.awaited - 1 < n then s
    else if n = s.awaited - 1 then { s with awaited := 0, acked := n }
    else { s with acked := n }
  else if n < s.acked then s
  else { s with acked := n }

/-- Whether an answer is taken at all. -/
def Accepts (n : Nat) (s : Batched) : Prop := s.awaited = 0 → s.acked ≤ n

/-! ## Answers that rise -/

/-- Answers that rise from `m` and stay below `last`; they reach it if it was told. -/
def Rises (told : Bool) (last m : Int) : List Int → Prop
  | [] => m ≤ last ∧ (told = true → m = last)
  | n :: ns => m ≤ n ∧ Rises told last n ns

namespace Rises

variable {told : Bool} {last last' m : Int} {ns : List Int}

theorem append (h : Rises told last m ns) (hle : last ≤ last') (told' : Bool) :
    Rises told' last' m (ns ++ [last']) := by
  induction ns generalizing m with
  | nil => exact ⟨h.1.trans hle, le_rfl, fun _ ↦ rfl⟩
  | cons n ns ih => exact ⟨h.1, ih h.2⟩

theorem untold (h : Rises told last m ns) (hle : last ≤ last') : Rises false last' m ns := by
  induction ns generalizing m with
  | nil => exact ⟨h.1.trans hle, nofun⟩
  | cons n ns ih => exact ⟨h.1, ih h.2⟩

/-- The next number may be answered. -/
theorem advance (h : Rises told last m ns) (hle : last ≤ last') (answered : Bool) :
    Rises false last' m (ns ++ if answered then [last'] else []) := by
  cases answered with
  | true => exact h.append hle false
  | false =>
      rw [if_neg Bool.false_ne_true, List.append_nil]
      exact h.untold hle

end Rises

/-- The answers that are underway will do. -/
inductive Sound (s : Batched) : Prop
  /-- There is one that is no number. -/
  | doomed {n : Int} (hn : n ∈ s.underway) (hneg : n < 0)
  /-- Nothing was sent yet. -/
  | fresh (htold : s.told = false) (hunderway : s.underway = []) (hawaited : s.awaited = 0)
      (hlast : s.last < 0) (hhead : s.head = s.acked)
  /-- They go on from the last one that was taken. -/
  | settled (hawaited : s.awaited = 0) (hhead : s.last = s.head ∨ s.last + 1 = s.head)
      (h : Rises s.told s.last s.acked s.underway)
  /-- The one that is awaited is underway, or was taken for an old one. -/
  | coming {stale rest : List Int} {m : Int} (hunderway : s.underway = stale ++ m :: rest)
      (hawaited : s.awaited = 0 ∨ (s.awaited : Int) = m + 1)
      (hhead : s.last = s.head ∨ s.last + 1 = s.head) (h : Rises s.told s.last m rest)
  /-- The one that is awaited comes with the next pause. -/
  | awaiting (htold : s.told = false) (hpos : 0 < s.awaited)
      (hawaited : (s.awaited : Int) = s.last + 1)
      (hhead : s.last = s.head ∨ s.last + 1 = s.head)

namespace Sound

variable {s : Batched}

theorem pause (h : Sound s) : Sound s.pause := by
  cases h with
  | doomed hn hneg => exact .doomed (List.mem_append_left _ hn) hneg
  | fresh _ _ _ hlast _ => exact .doomed (List.mem_append_right _ List.mem_cons_self) hlast
  | settled hawaited hhead h => exact .settled hawaited hhead (h.append le_rfl true)
  | @coming stale rest m hunderway hawaited hhead h =>
      refine @coming _ stale (rest ++ [s.last]) m ?_ hawaited hhead (h.append le_rfl true)
      rw [Batched.pause, hunderway, List.append_assoc]
      rfl
  | awaiting _ _ hawaited hhead =>
      exact @coming s.pause s.underway [] s.last rfl (.inr hawaited) hhead ⟨le_rfl, fun _ ↦ rfl⟩

/-- A pause that was told is forgotten when the sender goes on. -/
theorem untold (h : Sound s) : Sound { s with told := false } := by
  cases h with
  | doomed hn hneg => exact .doomed hn hneg
  | fresh _ hunderway hawaited hlast hhead => exact .fresh rfl hunderway hawaited hlast hhead
  | settled hawaited hhead h => exact .settled hawaited hhead (h.untold le_rfl)
  | coming hunderway hawaited hhead h => exact .coming hunderway hawaited hhead (h.untold le_rfl)
  | awaiting _ hpos hawaited hhead => exact .awaiting rfl hpos hawaited hhead

theorem advance (h : Sound s) (hawaited : s.awaited = 0) (answered : Bool) :
    Sound (s.advance answered) := by
  have hhead : (s.advance answered).last + 1 = (s.advance answered).head := rfl
  cases h with
  | doomed hn hneg => exact .doomed (List.mem_append_left _ hn) hneg
  | fresh _ hunderway _ _ hacked =>
      refine .settled hawaited (.inr hhead) ?_
      have hrises : Rises false (s.acked : Int) s.acked [] := ⟨le_rfl, nofun⟩
      change Rises false s.head s.acked (s.underway ++ _)
      rw [hunderway, hacked]
      exact hrises.advance le_rfl answered
  | settled _ hle h =>
      have hle : s.last ≤ (s.head : Int) := by omega
      exact .settled hawaited (.inr hhead) (h.advance hle answered)
  | @coming stale rest m hunderway _ hle h =>
      have hle : s.last ≤ (s.head : Int) := by omega
      refine @coming _ stale _ m ?_ (.inl hawaited) (.inr hhead) (h.advance hle answered)
      rw [Batched.advance, hunderway, List.append_assoc]
      rfl
  | awaiting _ hpos => omega

theorem rewind (s : Batched) {b : Nat} (hb : 0 < b) (answered : Bool) :
    Sound (s.rewind b answered) := by
  refine .awaiting rfl hb ?_ (.inr ?_)
  · change (b : Int) = (b : Int) - 1 + 1
    omega
  · change (b : Int) - 1 + 1 = b
    omega

/-- An answer that is accepted, unless it comes before the awaited one is underway. -/
theorem answer {n : Nat} {ns : List Int} (h : Sound s) (hs : s.underway = (n : Int) :: ns)
    (haccepts : s.Accepts n) (hnone : s.awaited = 0 ∨ s.told = true) :
    Sound { s.answer n with underway := ns } := by
  have hkeep : (s.answer n).head = s.head ∧ (s.answer n).last = s.last ∧
      (s.answer n).told = s.told := by
    rw [Batched.answer]
    split_ifs <;> exact ⟨rfl, rfl, rfl⟩
  cases h with
  | @doomed k hk hneg =>
      rw [hs] at hk
      have hne : k ≠ (n : Int) := by omega
      exact .doomed ((List.mem_cons.mp hk).resolve_left hne) hneg
  | fresh _ hunderway => rw [hs] at hunderway; cases hunderway
  | awaiting htold hpos =>
      rcases hnone with hzero | htrue
      · omega
      · rw [htold] at htrue
        cases htrue
  | settled hawaited hhead h =>
      rw [hs] at h
      have hle := haccepts hawaited
      rw [Batched.answer, if_neg (by omega), if_neg (by omega)]
      exact .settled hawaited hhead h.2
  | @coming stale rest m hunderway hawaited hhead h =>
      rw [hs] at hunderway
      cases stale with
      | nil =>
          obtain ⟨rfl, rfl⟩ := List.cons.inj hunderway
          rw [Batched.answer]
          rcases hawaited with hzero | hm
          · have hle := haccepts hzero
            rw [if_neg (by omega), if_neg (by omega)]
            exact .settled hzero hhead h
          · rw [if_pos (by omega), if_neg (by omega), if_pos (by omega)]
            exact .settled rfl hhead h
      | cons k stale =>
          obtain ⟨rfl, rfl⟩ := List.cons.inj hunderway
          rw [Batched.answer]
          split_ifs
          · exact .coming rfl hawaited hhead h
          · exact .coming rfl (.inl rfl) hhead h
          · exact .coming rfl hawaited hhead h
          · exact .coming rfl hawaited hhead h
          · exact .coming rfl hawaited hhead h

/-- When the sender pauses and nothing is underway, the last answer was taken. -/
theorem caught_up (h : Sound s) (hs : s.underway = []) (htold : s.told = true) :
    s.awaited = 0 ∧ (s.head = s.acked ∨ s.head = s.acked + 1) := by
  cases h with
  | doomed hn => rw [hs] at hn; cases hn
  | fresh hfalse => rw [htold] at hfalse; cases hfalse
  | awaiting hfalse => rw [htold] at hfalse; cases hfalse
  | coming hunderway => exact absurd (hunderway.symm.trans hs) (by simp)
  | settled hawaited hhead h =>
      rw [hs] at h
      have hlast := h.2 htold
      exact ⟨hawaited, by omega⟩

end Sound

end Batched
