import Mathlib.Data.List.Basic
import Mathlib.Data.List.Flatten

/-!
# Orders served one at a time

A desk takes orders, and sends them out one at a time.  The answer to an order is a list of
items; its last item makes way for the next order.  Before the desk is opened it only collects
orders.

If the items arrive as the answers to the orders that were sent, in order, then the orders are
sent in the order in which they were taken, and one is sent only when the items of all the
orders before it have arrived (`Served`).
-/

universe u v

/-- The orders that wait, and those that were sent. -/
structure Desk (ρ : Type u) where
  ready : Bool
  /-- The answer to the order sent last is not complete. -/
  pending : Bool
  queue : List ρ
  sent : List ρ

namespace Desk

variable {ρ : Type u} {β : Type v}

/-- Send the next order, if nothing is pending. -/
def serve (s : Desk ρ) : Desk ρ :=
  if s.ready && !s.pending then
    match s.queue with
    | [] => s
    | r :: queue => { s with pending := true, queue := queue, sent := s.sent ++ [r] }
  else s

/-- The desk is opened. -/
def openDesk (s : Desk ρ) : Desk ρ := serve { s with ready := true }

/-- An order is taken. -/
def take (r : ρ) (s : Desk ρ) : Desk ρ := serve { s with queue := s.queue ++ [r] }

/-- An item has arrived; `isLast` is whether it completes the answer to the order sent last. -/
def arrive (isLast : Bool) (s : Desk ρ) : Desk ρ :=
  if isLast then serve { s with pending := false } else s

/-- All the orders that were taken, in order. -/
def orders (s : Desk ρ) : List ρ := s.sent ++ s.queue

@[simp] theorem orders_serve (s : Desk ρ) : s.serve.orders = s.orders := by
  rw [serve]
  split_ifs
  · cases hq : s.queue with
    | nil => rfl
    | cons r queue =>
        rw [orders, orders, hq, List.append_assoc]
        rfl
  · rfl

@[simp] theorem orders_openDesk (s : Desk ρ) : s.openDesk.orders = s.orders := orders_serve _

@[simp] theorem orders_take (r : ρ) (s : Desk ρ) : (s.take r).orders = s.orders ++ [r] :=
  (orders_serve _).trans (List.append_assoc ..).symm

@[simp] theorem orders_arrive (isLast : Bool) (s : Desk ρ) :
    (s.arrive isLast).orders = s.orders := by
  rw [arrive]
  split_ifs
  · exact orders_serve _
  · rfl

/-- What was sent is what was taken, without what still waits, and the items that have arrived
are those of all the orders sent but the last, and some of the last. -/
structure Served (items : ρ → List β) (s : Desk ρ) (taken : List ρ) (arrived : List β) :
    Prop where
  order : s.sent ++ s.queue = taken
  nonempty : ∀ r ∈ taken, items r ≠ []
  closed : s.ready = false → s.sent = []
  idle : s.ready = true → s.pending = false → s.queue = []
  none : s.sent = [] → arrived = [] ∧ s.pending = false
  last : ∀ rs r, s.sent = rs ++ [r] → ∃ done rest, items r = done ++ rest ∧
    arrived = rs.flatMap items ++ done ∧ (s.pending = true ↔ rest ≠ [])

variable {items : ρ → List β} {s : Desk ρ} {taken : List ρ} {arrived : List β}

/-- A desk where nothing was sent or everything sent is answered. -/
structure Free (items : ρ → List β) (s : Desk ρ) (taken : List ρ) (arrived : List β) : Prop where
  order : s.sent ++ s.queue = taken
  nonempty : ∀ r ∈ taken, items r ≠ []
  ready : s.ready = true
  pending : s.pending = false
  arrived : arrived = s.sent.flatMap items

/-- The next order is sent when the desk is free. -/
theorem Free.serve (h : Free items s taken arrived) : Served items s.serve taken arrived := by
  have hserve : s.serve = match s.queue with
      | [] => s
      | r :: queue => { s with pending := true, queue := queue, sent := s.sent ++ [r] } := by
    rw [Desk.serve, h.ready, h.pending]
    rfl
  have horder := h.order
  rw [hserve]
  cases hq : s.queue with
  | nil =>
      refine ⟨horder, h.nonempty, fun hc ↦ absurd (hc.symm.trans h.ready) nofun, fun _ _ ↦ hq,
        fun hs ↦ ⟨?_, h.pending⟩, fun rs r hs ↦ ⟨items r, [], (List.append_nil _).symm, ?_, ?_⟩⟩
      · rw [h.arrived, hs, List.flatMap_nil]
      · rw [h.arrived, hs, List.flatMap_append, List.flatMap_singleton]
      · simp [h.pending]
  | cons r queue =>
      refine ⟨?_, h.nonempty, fun hc ↦ absurd (hc.symm.trans h.ready) nofun,
        fun _ hp ↦ absurd hp nofun,
        fun hs ↦ absurd hs (by simp), fun rs r' hs ↦ ⟨[], items r', rfl, ?_, ?_⟩⟩
      · rw [← horder, hq]
        simp
      · obtain ⟨rfl, -⟩ := List.append_inj' hs rfl
        rw [h.arrived, List.append_nil]
      · have hmem : r' ∈ taken := by
          obtain ⟨-, hr⟩ := List.append_inj' hs rfl
          obtain rfl := (List.cons.inj hr).1
          rw [← horder, hq]
          simp
        exact iff_of_true rfl (h.nonempty r' hmem)

/-- A desk that is not open, or that waits for an answer, sends nothing. -/
theorem serve_of_busy (h : s.ready = false ∨ s.pending = true) : s.serve = s := by
  rw [serve]
  rcases h with h | h <;> simp [h]

namespace Served

/-- An answered desk is free. -/
theorem free (h : Served items s taken arrived) (hready : s.ready = true)
    (hpending : s.pending = false) : Free items s taken arrived := by
  refine ⟨h.order, h.nonempty, hready, hpending, ?_⟩
  rcases List.eq_nil_or_concat' s.sent with hs | ⟨rs, r, hs⟩
  · rw [(h.none hs).1, hs, List.flatMap_nil]
  · obtain ⟨done, rest, hitems, harrived, hiff⟩ := h.last rs r hs
    have hrest : rest = [] := by
      by_contra hne
      exact absurd (hpending.symm.trans (hiff.mpr hne)) nofun
    rw [harrived, hs, List.flatMap_append, List.flatMap_singleton, hitems, hrest, List.append_nil]

/-- Opening the desk. -/
theorem openDesk (h : Served items s taken arrived) :
    Served items s.openDesk taken arrived := by
  rw [Desk.openDesk]
  by_cases hp : s.pending = true
  · rw [serve_of_busy (s := { s with ready := true }) (.inr hp)]
    exact ⟨h.order, h.nonempty, nofun, fun _ hn ↦ absurd (hn.symm.trans hp) nofun,
      h.none, h.last⟩
  · have hp : s.pending = false := eq_false_of_ne_true hp
    refine Free.serve ⟨h.order, h.nonempty, rfl, hp, ?_⟩
    cases hr : s.ready with
    | true => exact (h.free hr hp).arrived
    | false =>
        have hs := h.closed hr
        exact (h.none hs).1.trans (by rw [hs, List.flatMap_nil])

/-- Taking an order. -/
theorem take (h : Served items s taken arrived) {r : ρ} (hr : items r ≠ []) :
    Served items (s.take r) (taken ++ [r]) arrived := by
  have horder : s.sent ++ (s.queue ++ [r]) = taken ++ [r] := by rw [← List.append_assoc, h.order]
  have hnonempty : ∀ r' ∈ taken ++ [r], items r' ≠ [] := by
    intro r' hmem
    rcases List.mem_append.mp hmem with hmem | hmem
    · exact h.nonempty r' hmem
    · rwa [List.mem_singleton.mp hmem]
  rw [Desk.take]
  by_cases hbusy : s.ready = false ∨ s.pending = true
  · rw [serve_of_busy (s := { s with queue := s.queue ++ [r] }) hbusy]
    refine ⟨horder, hnonempty, h.closed, fun hready hpending ↦ ?_, h.none, h.last⟩
    rcases hbusy with hc | hp
    · exact absurd (hc.symm.trans hready) nofun
    · exact absurd (hpending.symm.trans hp) nofun
  · push Not at hbusy
    have hready : s.ready = true := eq_true_of_ne_false hbusy.1
    have hpending : s.pending = false := eq_false_of_ne_true hbusy.2
    exact Free.serve ⟨horder, hnonempty, hready, hpending, (h.free hready hpending).arrived⟩

/-- The next item of the answers belongs to the order that was sent last. -/
theorem next (h : Served items s taken arrived) {b : β}
    (hb : arrived ++ [b] <+: s.sent.flatMap items) :
    ∃ rs r done rest, s.sent = rs ++ [r] ∧ items r = done ++ b :: rest ∧
      arrived = rs.flatMap items ++ done ∧ s.pending = true := by
  rcases List.eq_nil_or_concat' s.sent with hs | ⟨rs, r, hs⟩
  · rw [hs, List.flatMap_nil] at hb
    exact absurd (List.prefix_nil.mp hb) (by simp)
  · obtain ⟨done, rest, hitems, harrived, hiff⟩ := h.last rs r hs
    rw [hs, List.flatMap_append, List.flatMap_singleton, harrived, hitems, List.append_assoc,
      List.prefix_append_right_inj, List.prefix_append_right_inj] at hb
    obtain ⟨rest', rfl⟩ := hb
    exact ⟨rs, r, done, rest', hs, hitems, harrived, hiff.mpr (by simp)⟩

/-- An item arrives. -/
theorem arrive (h : Served items s taken arrived) {rs : List ρ} {r : ρ} {b : β}
    {done rest : List β} (hs : s.sent = rs ++ [r]) (hitems : items r = done ++ b :: rest)
    (harrived : arrived = rs.flatMap items ++ done) (hpending : s.pending = true)
    {isLast : Bool} (hlast : isLast = true ↔ rest = []) :
    Served items (s.arrive isLast) taken (arrived ++ [b]) := by
  rw [Desk.arrive]
  split_ifs with hl
  · obtain rfl := hlast.mp hl
    refine Free.serve ⟨h.order, h.nonempty, ?_, rfl, ?_⟩
    · by_contra hc
      have hnil := h.closed (eq_false_of_ne_true hc)
      rw [hs] at hnil
      simp at hnil
    · rw [hs, List.flatMap_append, List.flatMap_singleton, hitems, harrived, List.append_assoc]
  · refine ⟨h.order, h.nonempty, h.closed, fun _ hp ↦ absurd (hp.symm.trans hpending) nofun,
      fun hn ↦ by simp [hs] at hn, fun rs' r' hs' ↦ ?_⟩
    obtain ⟨rfl, hr⟩ := List.append_inj' (hs.symm.trans hs') rfl
    obtain rfl := (List.cons.inj hr).1
    refine ⟨done ++ [b], rest, by rw [hitems, List.append_assoc]; rfl, ?_, ?_⟩
    · rw [harrived, List.append_assoc]
    · exact iff_of_true hpending fun hrest ↦ hl (hlast.mpr hrest)

/-! ## What this means -/

/-- The items of all the orders but the last one sent have arrived. -/
theorem before (h : Served items s taken arrived) {rs : List ρ} {r : ρ}
    (hs : s.sent = rs ++ [r]) : rs.flatMap items <+: arrived := by
  obtain ⟨done, -, -, harrived, -⟩ := h.last rs r hs
  exact ⟨done, harrived.symm⟩

/-- Something is pending exactly while there are items to come. -/
theorem pending_iff (h : Served items s taken arrived) :
    s.pending = true ↔ arrived ≠ s.sent.flatMap items := by
  rcases List.eq_nil_or_concat' s.sent with hs | ⟨rs, r, hs⟩
  · obtain ⟨harrived, hpending⟩ := h.none hs
    simp [hs, harrived, hpending]
  · obtain ⟨done, rest, hitems, harrived, hiff⟩ := h.last rs r hs
    rw [hiff, harrived, hs, List.flatMap_append, List.flatMap_singleton, hitems]
    simp

/-- When everything that was sent is answered, everything that was taken was sent. -/
theorem complete (h : Served items s taken arrived) (hready : s.ready = true)
    (harrived : arrived = s.sent.flatMap items) : s.sent = taken := by
  have hpending : s.pending = false := by
    by_contra hp
    exact h.pending_iff.mp (eq_true_of_ne_false hp) harrived
  rw [← h.order, h.idle hready hpending, List.append_nil]

end Served

/-- A desk that is not open yet, without orders. -/
theorem served_new : Served items ⟨false, false, [], []⟩ [] [] :=
  ⟨rfl, nofun, fun _ ↦ rfl, nofun, fun _ ↦ ⟨rfl, rfl⟩, fun _ _ h ↦ absurd h (by simp)⟩

end Desk
