import Mathlib.Data.List.Basic
import Mathlib.Order.Lattice

/-!
# Acknowledgements that run behind

A sender numbers what it sends, and a receiver answers each number `n + 1` with `n`, in order.
When the sender goes back to a lower number it waits for the answer to that number, and
ignores higher ones until then.

What is underway ends in a stretch that climbs to the last number sent (`OnTrack`).  So when
nothing is underway any more, the answers have caught up: all but the last number are
acknowledged.

An answer says nothing about the question, so an old one that happens to be awaited is taken
for the new one.  If the sender never goes back to a number whose answer is underway, that does
not happen (`InStep`).
-/

/-- A sender at `head`, and the answers that are underway to it. -/
structure Handshake where
  head : Nat
  acked : Nat
  /-- The number that the sender has gone back to, until it is answered, or 0. -/
  awaited : Nat
  underway : List Nat
  /-- How far the last answer runs behind: 1 as soon as anything was sent. -/
  lag : Nat

namespace Handshake

/-- The next number is sent. -/
def advance (s : Handshake) : Handshake :=
  { s with head := s.head + 1, underway := s.underway ++ [s.head], lag := 1 }

/-- The sender goes back, announces it, and sends the number. -/
def rewind (b : Nat) (s : Handshake) : Handshake :=
  { head := b, acked := min s.acked (b - 1), awaited := b,
    underway := s.underway ++ [b - 1, b - 1], lag := 1 }

/-- Whether an answer is taken at all. -/
def Accepts (n : Nat) (s : Handshake) : Prop := s.awaited = 0 → s.acked ≤ n

/-- An answer arrives. -/
def answer (n : Nat) (s : Handshake) : Handshake :=
  if 0 < s.awaited then
    if s.awaited - 1 < n then s
    else if n = s.awaited - 1 then { s with awaited := 0, acked := n }
    else { s with acked := n }
  else if n < s.acked then s
  else { s with acked := n }

/-! ## The last stretch -/

/-- A stretch of answers climbs from `m` up to `h`, but for a lag, and leaves nothing out. -/
def Climbs (lag m h : Nat) : List Nat → Prop
  | [] => h = m + lag ∧ lag ≤ 1
  | n :: ns => (m ≤ n ∧ n ≤ m + 1) ∧ Climbs lag n h ns

namespace Climbs

variable {lag m h : Nat} {ns : List Nat}

theorem advance (hc : Climbs lag m h ns) : Climbs 1 m (h + 1) (ns ++ [h]) := by
  induction ns generalizing m with
  | nil =>
      obtain ⟨hh, hlag⟩ := hc
      exact ⟨⟨by omega, by omega⟩, rfl, le_rfl⟩
  | cons n ns ih => exact ⟨hc.1, ih hc.2⟩

/-- A stretch that stays where it is. -/
theorem const {ns : List Nat} (hns : ∀ n ∈ ns, n = h) : Climbs 0 h h ns := by
  induction ns with
  | nil => exact ⟨rfl, Nat.zero_le 1⟩
  | cons n ns ih =>
      obtain rfl := hns n List.mem_cons_self
      exact ⟨⟨le_rfl, Nat.le_succ n⟩, ih fun k hk ↦ hns k (List.mem_cons_of_mem _ hk)⟩

theorem le_of_mem (hc : Climbs lag m h ns) {n : Nat} (hn : n ∈ ns) : m ≤ n := by
  induction ns generalizing m with
  | nil => cases hn
  | cons k ns ih =>
      rcases List.mem_cons.mp hn with rfl | hn
      · exact hc.1.1
      · exact hc.1.1.trans (ih hc.2 hn)

/-- A number that is left out lies below the stretch. -/
theorem lt_of_notMem (hc : Climbs lag m h ns) {n : Nat} (hn : n < h) (hm : n ≠ m)
    (hns : n ∉ ns) : n < m := by
  induction ns generalizing m with
  | nil =>
      obtain ⟨hh, hlag⟩ := hc
      omega
  | cons k ns ih =>
      have hk : n < k := ih hc.2 (List.ne_of_not_mem_cons hns) (List.not_mem_of_not_mem_cons hns)
      have hle := hc.1.2
      omega

end Climbs

/-- The answers that are underway catch up with the sender, or will do so with the answer to
the number that it has gone back to. -/
inductive OnTrack (s : Handshake) : Prop
  | settled (hawaited : s.awaited = 0) (h : Climbs s.lag s.acked s.head s.underway)
  | coming {stale rest : List Nat} {m : Nat} (hunderway : s.underway = stale ++ m :: rest)
      (hawaited : s.awaited = 0 ∨ s.awaited = m + 1) (h : Climbs s.lag m s.head rest)

namespace OnTrack

variable {s : Handshake}

theorem advance (h : OnTrack s) : OnTrack s.advance := by
  cases h with
  | settled hawaited hc => exact .settled hawaited hc.advance
  | @coming stale rest m hunderway hawaited hc =>
      refine @coming _ stale (rest ++ [s.head]) _ ?_ hawaited hc.advance
      rw [Handshake.advance, hunderway, List.append_assoc]
      rfl

/-- Going back begins a stretch of its own, whatever was underway. -/
theorem rewind (s : Handshake) {b : Nat} (hb : 0 < b) : OnTrack (s.rewind b) := by
  refine @coming _ s.underway [b - 1] (b - 1) rfl (.inr ?_) ?_
  · change b = b - 1 + 1
    omega
  · change (b - 1 ≤ b - 1 ∧ b - 1 ≤ b - 1 + 1) ∧ b = b - 1 + 1 ∧ 1 ≤ 1
    omega

/-- An answer that is accepted. -/
theorem answer {n : Nat} {ns : List Nat} (h : OnTrack s) (hs : s.underway = n :: ns)
    (haccepts : s.Accepts n) : OnTrack { s.answer n with underway := ns } := by
  cases h with
  | settled hawaited hc =>
      rw [hs] at hc
      have haccepts := haccepts hawaited
      rw [Handshake.answer, if_neg (by omega), if_neg (by omega)]
      exact .settled hawaited hc.2
  | @coming stale rest m hunderway hawaited hc =>
      rw [hs] at hunderway
      cases stale with
      | nil =>
          obtain ⟨rfl, rfl⟩ := List.cons.inj hunderway
          rw [Handshake.answer]
          rcases hawaited with hzero | hm
          · have haccepts := haccepts hzero
            rw [if_neg (by omega), if_neg (by omega)]
            exact .settled hzero hc
          · rw [if_pos (by omega), if_neg (by omega), if_pos (by omega)]
            exact .settled rfl hc
      | cons k stale =>
          obtain ⟨rfl, rfl⟩ := List.cons.inj hunderway
          rw [Handshake.answer]
          split_ifs
          · exact .coming rfl hawaited hc
          · exact .coming rfl (.inl rfl) hc
          · exact .coming rfl hawaited hc
          · exact .coming rfl hawaited hc
          · exact .coming rfl hawaited hc

/-- When nothing is underway, the answers have caught up. -/
theorem caught_up (h : OnTrack s) (hs : s.underway = []) :
    s.awaited = 0 ∧ s.head = s.acked + s.lag := by
  cases h with
  | settled hawaited hc =>
      rw [hs] at hc
      exact ⟨hawaited, hc.1⟩
  | @coming stale rest m hunderway hawaited hc =>
      rw [hs] at hunderway
      exact absurd hunderway.symm (by simp)

end OnTrack

/-! ## No old answers -/

/-- Only the answer to the last number that the sender has gone back to is taken for it. -/
inductive InStep (s : Handshake) : Prop
  | settled (hawaited : s.awaited = 0) (h : Climbs s.lag s.acked s.head s.underway)
  | coming {stale rest : List Nat} {m : Nat} (hunderway : s.underway = stale ++ m :: rest)
      (hawaited : s.awaited = m + 1) (h : Climbs s.lag m s.head rest)
      (hstale : ∀ n ∈ stale, m < n) (hacked : s.acked ≤ m)

namespace InStep

variable {s : Handshake}

theorem advance (h : InStep s) : InStep s.advance := by
  cases h with
  | settled hawaited hc => exact .settled hawaited hc.advance
  | @coming stale rest m hunderway hawaited hc hstale hacked =>
      refine @coming _ stale (rest ++ [s.head]) _ ?_ hawaited hc.advance hstale hacked
      rw [Handshake.advance, hunderway, List.append_assoc]
      rfl

/-- All that is underway lies above a number that the sender goes back to and whose answer is
not underway. -/
theorem lt_of_notMem (h : InStep s) {b : Nat} (hb : 0 < b) (hle : b ≤ s.head)
    (hnone : b - 1 ∉ s.underway) {n : Nat} (hn : n ∈ s.underway) : b - 1 < n := by
  cases h with
  | settled hawaited hc =>
      have hge := hc.le_of_mem hn
      have hne : n ≠ b - 1 := fun h ↦ hnone (h ▸ hn)
      by_cases hacked : b - 1 = s.acked
      · omega
      · have hlt := hc.lt_of_notMem (n := b - 1) (by omega) hacked hnone
        omega
  | @coming stale rest m hunderway hawaited hc hstale hacked =>
      rw [hunderway] at hn hnone
      have hm : b - 1 < m := by
        refine hc.lt_of_notMem (by omega) (fun h ↦ hnone ?_) fun h ↦ hnone ?_
        · exact List.mem_append_right _ (h ▸ List.mem_cons_self)
        · exact List.mem_append_right _ (List.mem_cons_of_mem _ h)
      rcases List.mem_append.mp hn with hn | hn
      · exact hm.trans (hstale n hn)
      · rcases List.mem_cons.mp hn with rfl | hn
        · exact hm
        · exact hm.trans_le (hc.le_of_mem hn)

/-- Going back to a number whose answer is not underway. -/
theorem rewind (h : InStep s) {b : Nat} (hb : 0 < b) (hle : b ≤ s.head)
    (hnone : b - 1 ∉ s.underway) : InStep (s.rewind b) := by
  refine @coming _ s.underway [b - 1] (b - 1) rfl ?_ ?_
    (fun n hn ↦ h.lt_of_notMem hb hle hnone hn) (min_le_right _ _)
  · change b = b - 1 + 1
    omega
  · change (b - 1 ≤ b - 1 ∧ b - 1 ≤ b - 1 + 1) ∧ b = b - 1 + 1 ∧ 1 ≤ 1
    omega

/-- Every answer is accepted. -/
theorem accepts (h : InStep s) {n : Nat} {ns : List Nat} (hs : s.underway = n :: ns) :
    s.Accepts n := by
  intro hzero
  cases h with
  | settled hawaited hc =>
      rw [hs] at hc
      exact hc.1.1
  | coming _ hawaited => omega

/-- Nothing that is underway is lower than what was acknowledged. -/
theorem acked_le (h : InStep s) {n : Nat} (hn : n ∈ s.underway) : s.acked ≤ n := by
  cases h with
  | settled _ hc => exact hc.le_of_mem hn
  | coming hunderway _ hc hstale hacked =>
      rw [hunderway] at hn
      rcases List.mem_append.mp hn with hn | hn
      · exact hacked.trans (hstale n hn).le
      · rcases List.mem_cons.mp hn with rfl | hn
        · exact hacked
        · exact hacked.trans (hc.le_of_mem hn)

/-- Nothing that is underway is lower than an answer that is taken. -/
theorem le_of_taken (h : InStep s) {n : Nat} {ns : List Nat} (hs : s.underway = n :: ns)
    (htaken : s.awaited = 0 ∨ s.awaited = n + 1) {k : Nat} (hk : k ∈ ns) : n ≤ k := by
  cases h with
  | settled _ hc =>
      rw [hs] at hc
      exact hc.2.le_of_mem hk
  | @coming stale rest m hunderway hawaited hc hstale _ =>
      obtain rfl : m = n := by omega
      have hk : k ∈ stale ++ m :: rest := by
        rw [← hunderway, hs]
        exact List.mem_cons_of_mem _ hk
      rcases List.mem_append.mp hk with hk | hk
      · exact (hstale k hk).le
      · rcases List.mem_cons.mp hk with rfl | hk
        · exact le_rfl
        · exact hc.le_of_mem hk

/-- What an answer does: it is taken, and nothing is awaited after it; or it is ignored. -/
theorem answer {n : Nat} {ns : List Nat} (h : InStep s) (hs : s.underway = n :: ns) :
    InStep { s.answer n with underway := ns } ∧
      (s.answer n = { s with awaited := 0, acked := n } ∧ (s.awaited = 0 ∨ s.awaited = n + 1) ∨
        s.answer n = s ∧ s.awaited ≤ n ∧ s.awaited ≠ 0) := by
  cases h with
  | settled hawaited hc =>
      rw [hs] at hc
      have hle := hc.1.1
      have htaken : s.answer n = { s with awaited := 0, acked := n } := by
        rw [Handshake.answer, if_neg (by omega), if_neg (by omega), ← hawaited]
      rw [htaken]
      exact ⟨.settled rfl hc.2, .inl ⟨rfl, .inl hawaited⟩⟩
  | @coming stale rest m hunderway hawaited hc hstale hacked =>
      rw [hs] at hunderway
      cases stale with
      | nil =>
          obtain ⟨rfl, rfl⟩ := List.cons.inj hunderway
          have htaken : s.answer n = { s with awaited := 0, acked := n } := by
            rw [Handshake.answer, if_pos (by omega), if_neg (by omega), if_pos (by omega)]
          rw [htaken]
          exact ⟨.settled rfl hc, .inl ⟨rfl, .inr hawaited⟩⟩
      | cons k stale =>
          obtain ⟨rfl, rfl⟩ := List.cons.inj hunderway
          have hlt : m < n := hstale n List.mem_cons_self
          have hignored : s.answer n = s := by
            rw [Handshake.answer, if_pos (by omega), if_pos (by omega)]
          rw [hignored]
          refine ⟨.coming rfl hawaited hc (fun x hx ↦ hstale x (List.mem_cons_of_mem _ hx)) hacked,
            .inr ⟨rfl, by omega, by omega⟩⟩

theorem onTrack (h : InStep s) : OnTrack s := by
  cases h with
  | settled hawaited hc => exact .settled hawaited hc
  | coming hunderway hawaited hc _ _ => exact .coming hunderway (.inr hawaited) hc

end InStep

end Handshake
