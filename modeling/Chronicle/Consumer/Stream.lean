import Chronicle.Scan.Sound

/-!
# What an input publishes

The events that a consumer of the receiver sees of one input: nothing but pauses, the fork
events of a process that starts, or those of one block, after a fork event if the block
replaces another one.
-/

namespace Chronicle

open Store Effect

variable {Abi : Type}

/-- An event that is no fork, and belongs to no other block than `h`. -/
def Event.Beside (h : Nat) (e : Event) : Prop :=
  (∀ f, e ≠ .fork f) ∧ ∀ b, e.block? = some b → b = h

/-- An event about a pause of the receiver. -/
def Event.Still : Event → Prop
  | .receiverPause _ => True
  | _ => False

theorem Event.Still.beside {e : Event} (h : e.Still) (b : Nat) : e.Beside b := by
  cases e with
  | receiverPause _ => exact ⟨nofun, nofun⟩
  | _ => cases h

theorem Event.Inside.beside {e : Event} {h : Nat} (he : e.Inside h) : e.Beside h := by
  cases e with
  | fork _ | receiverPause _ | blockCompleted _ => cases he
  | blockTableDelta _ => exact ⟨nofun, nofun⟩
  | _ => exact ⟨nofun, fun b hb ↦ Option.some.inj (hb.symm.trans he)⟩

theorem Event.beside_blockCompleted {e : BlockFinished} {h : Nat} (he : e.blockNum = h) :
    (Event.blockCompleted e).Beside h := ⟨nofun, fun _ hb ↦ (Option.some.inj hb).symm.trans he⟩

/-! ## Parts of the record -/

theorem mem_published {l : List (Observation Abi)} {e : Event} :
    e ∈ published l ↔ .published e ∈ l := by
  rw [published, List.mem_filterMap]
  constructor
  · rintro ⟨o, ho, he⟩
    cases o with
    | published e' => exact Option.some.inj he ▸ ho
    | _ => cases he
  · exact fun h ↦ ⟨_, h, rfl⟩

theorem published_inside {h : Nat} {l : List (Observation Abi)} (hl : ∀ o ∈ l, o.Inside h) :
    ∀ e ∈ published l, e.Inside h := fun _ he ↦ hl _ (mem_published.mp he)

theorem published_quiet {l : List (Observation Abi)} (hl : ∀ o ∈ l, o.Quiet) :
    ∀ e ∈ published l, e.Still := by
  intro e he
  have hquiet := hl _ (mem_published.mp he)
  cases e with
  | receiverPause _ => trivial
  | _ => cases hquiet

section Parts

variable {w w' : World Abi}

theorem Calm.publishes (h : Calm w w') : ∃ es, published w'.log =
    published w.log ++ es ∧ ∀ e ∈ es, e.Still := by
  obtain ⟨l, hl, hq⟩ := h.log
  exact ⟨published l, by rw [hl, published_append], published_quiet hq⟩

theorem Within.publishes (h : Within w w') : ∃ es, published w'.log =
    published w.log ++ es ∧ ∀ e ∈ es, e.Inside w.proc.head := by
  obtain ⟨l, hl, hin⟩ := h.log
  exact ⟨published l, by rw [hl, published_append], published_inside hin⟩

theorem Ended.publishes (h : Ended w w') :
    published w'.log = published w.log := by
  rw [h.log, published_append]
  exact List.append_nil _

/-- The reader publishes nothing but pauses when it goes on. -/
theorem Next.publishes (h : Next w w') : ∃ es, published w'.log =
    published w.log ++ es ∧ ∀ e ∈ es, e.Still := by
  cases h with
  | idle hidle => exact hidle.toCalm.publishes
  | ended hend => exact ⟨[], by rw [hend.publishes, List.append_nil], nofun⟩

/-! ## A block -/

/-- What is published when the position of a result was accepted. -/
def forkEvents (block : BlockPosition) (result : GetBlocksResult) (w : World Abi) : List Event :=
  if result.lastIrreversible.blockNum < block.blockNum ∧ block.blockNum ≤ w.proc.head then
    [networkFork block.blockNum result.lastIrreversible.blockNum w.proc.head]
  else []

theorem mem_forkEvents {block : BlockPosition} {result : GetBlocksResult} {e : Event}
    (h : e ∈ forkEvents block result w) :
    ∃ f : ForkEvent, e = .fork f ∧ f.blockNum = block.blockNum := by
  rw [forkEvents] at h
  split_ifs at h
  · exact ⟨_, List.mem_singleton.mp h, rfl⟩
  · cases h

theorem Accept.publishes {block : BlockPosition} {result : GetBlocksResult}
    {r : EStateM.Result Abort (World Abi) Unit} (h : Accept block result w r) :
    Ends
      (fun _ w' ↦ published w'.log =
        published w.log ++ forkEvents block result w)
      (fun _ w' ↦ published w'.log = published w.log) r := by
  cases h with
  | unmoved => exact rfl
  | refused => exact rfl
  | endless => exact rfl
  | bottom => exact rfl
  | forked hopen hhead _ _ =>
      change published (w.log ++ _) = _
      rw [published_append, forkEvents, if_pos ⟨hopen.above, hhead⟩]
      rfl
  | extended _ habove _ =>
      rw [forkEvents, if_neg fun h ↦ absurd h.2 (by omega)]
      exact (List.append_nil _).symm
  | unchecked _ _ hbelow =>
      rw [forkEvents, if_neg fun h ↦ absurd h.1 (by omega)]
      exact (List.append_nil _).symm

variable {lib : Abieos Abi} {block : BlockPosition} {result : GetBlocksResult}

theorem Stored.publishes (h : Stored lib block result w w') : ∃ es,
    published w'.log = published w.log ++ es ∧
      ∀ e ∈ es, e.Inside w.proc.head := by
  obtain ⟨l, hl, hlog⟩ := h.log
  refine ⟨published l, ?_, published_inside hl⟩
  rw [hlog, published_append, published_append]
  exact List.append_nil _

/-- A stored block with something published after it. -/
theorem Stored.publishes_beside {w₁ : World Abi} (h : Stored lib block result w w₁)
    (hw : Beside w₁ w') : ∃ es, published w'.log = published w.log ++ es ∧
      ∀ e ∈ es, e.Inside w.proc.head := by
  obtain ⟨es₁, h₁, hin₁⟩ := h.publishes
  obtain ⟨es₂, h₂, hin₂⟩ := hw.1.publishes
  have hhead : w₁.proc.head = w.proc.head := Proc.member_eq h.core Proc.head fun _ ↦ rfl
  refine ⟨es₁ ++ es₂, by rw [h₂, h₁, List.append_assoc], fun e he ↦ ?_⟩
  rcases List.mem_append.mp he with he | he
  · exact hin₁ e he
  · exact hhead ▸ hin₂ e he

/-- What is published of a block: its own events, and at last that it is completed. -/
theorem ProcessBlock.publishes {r : EStateM.Result Abort (World Abi) Unit}
    (h : ProcessBlock lib block result w r) :
    Ends
      (fun _ w' ↦ ∃ es e, published w'.log =
          published w.log ++ (es ++ [.blockCompleted e]) ∧
        (∀ e ∈ es, e.Inside w.proc.head) ∧ e.blockNum = w.proc.head ∧ e.blockId = w.proc.headId)
      (fun _ w' ↦ ∃ es, published w'.log = published w.log ++ es ∧
        ∀ e ∈ es, e.Inside w.proc.head) r := by
  cases h with
  | unreadable => exact ⟨[], (List.append_nil _).symm, nofun⟩
  | failed _ _ hw => exact hw.1.publishes
  | untraced _ _ _ hstored hw => exact hstored.publishes_beside hw
  | @completed _ w' _ _ _ hstored hw =>
      obtain ⟨es, hes, hin⟩ := hstored.publishes_beside hw
      have hcore := hw.1.core.trans hstored.core
      refine ⟨es, blockFinished w'.proc, ?_, hin, Proc.member_eq hcore Proc.head fun _ ↦ rfl,
        Proc.member_eq hcore Proc.headId fun _ ↦ rfl⟩
      change published (w'.log ++ _) = _
      rw [published_append, hes, List.append_assoc]
      rfl

/-- All of it belongs to the block. -/
theorem ProcessBlock.publishes_beside {r : EStateM.Result Abort (World Abi) Unit}
    (h : ProcessBlock lib block result w r) :
    Ends
      (fun _ w' ↦ ∃ es, published w'.log = published w.log ++ es ∧
        ∀ e ∈ es, e.Beside w.proc.head)
      (fun _ w' ↦ ∃ es, published w'.log = published w.log ++ es ∧
        ∀ e ∈ es, e.Beside w.proc.head) r := by
  refine h.publishes.mono ?_ ?_
  · rintro _ w' ⟨es, e, hes, hin, hnum, -⟩
    refine ⟨_, hes, fun x hx ↦ ?_⟩
    rcases List.mem_append.mp hx with hx | hx
    · exact (hin x hx).beside
    · rw [List.mem_singleton.mp hx]
      exact Event.beside_blockCompleted hnum
  · rintro _ w' ⟨es, hes, hin⟩
    exact ⟨es, hes, fun x hx ↦ (hin x hx).beside⟩

end Parts

/-! ## Start -/

/-- A process that starts announces a fork above its head, if it has no state object or has
undone a revision. -/
theorem published_startForks (Abi : Type) (o : Options) (db : Undo Tables) :
    (∀ e ∈ published (startForks o db : List (Observation Abi)), ∃ f : ForkEvent, e = .fork f ∧
      f.blockNum = (startPosition o db.undoAll.current).head + 1) ∧
    (published (startForks o db : List (Observation Abi)) = [] →
      db.undoAll.current.state ≠ none ∧ db.stack = []) := by
  rw [startForks, published_append]
  refine ⟨fun e he ↦ ?_, fun h ↦ ?_⟩
  · rcases List.mem_append.mp he with he | he
    all_goals
      split_ifs at he
      · exact ⟨_, List.mem_singleton.mp he, rfl⟩
      · cases he
  · obtain ⟨h₁, h₂⟩ := List.append_eq_nil_iff.mp h
    refine ⟨fun hs ↦ ?_, ?_⟩
    · rw [if_pos hs] at h₁
      cases h₁
    · split_ifs at h₂ with hd
      · cases h₂
      · exact List.eq_nil_of_length_eq_zero (by omega)

end Chronicle
