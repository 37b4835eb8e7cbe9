import Chronicle.Consumer.Republish
import Chronicle.Scan.Revisions
import Chronicle.Logic.Chain

/-!
# The chain of a consumer

A consumer that notes every completed block, and at a fork drops the blocks from its number
on, has the chain of the receiver: consecutive blocks up to its head, and among them every
block that a revision of the database knows of.

The fork event of a process that finds no state object only names its start block.  So the
chain is that of the receiver as long as such a process starts below all blocks that the
consumer has (`StartsBelowChain`).
-/

namespace Chronicle

open Store Effect

variable {Abi : Type} (lib : Abieos Abi)

/-! ## The list of the consumer -/

/-- What the consumer does with its list when it handles an event. -/
def keepBlock (chain : List (Nat × Checksum256)) : Event → List (Nat × Checksum256)
  | .blockCompleted e => chain ++ [(e.blockNum, e.blockId)]
  | .fork e => Chain.cut e.blockNum chain
  | _ => chain

/-- The list of a consumer that has handled all that was published. -/
def World.chain (w : World Abi) : List (Nat × Checksum256) := (published w.log).foldl keepBlock []

theorem World.chain_of_published {w w' : World Abi} {es : List Event}
    (h : published w'.log = published w.log ++ es) : w'.chain = es.foldl keepBlock w.chain := by
  rw [World.chain, World.chain, h, List.foldl_append]

theorem Event.Still.keepBlock {e : Event} (h : e.Still) (chain : List (Nat × Checksum256)) :
    Chronicle.keepBlock chain e = chain := by
  cases e with
  | receiverPause _ => rfl
  | _ => cases h

theorem Event.Inside.keepBlock {e : Event} {b : Nat} (h : e.Inside b)
    (chain : List (Nat × Checksum256)) : Chronicle.keepBlock chain e = chain := by
  cases e with
  | fork _ | receiverPause _ | blockCompleted _ => cases h
  | _ => rfl

/-- Events that leave the list alone. -/
theorem foldl_keepBlock_of_kept {es : List Event}
    (h : ∀ e ∈ es, ∀ chain, keepBlock chain e = chain) (chain : List (Nat × Checksum256)) :
    es.foldl keepBlock chain = chain := by
  induction es generalizing chain with
  | nil => rfl
  | cons e es ih =>
      rw [List.foldl_cons, h e List.mem_cons_self]
      exact ih (fun e he ↦ h e (List.mem_cons_of_mem _ he)) chain

/-- One fork event or several at the same number; none is as good if there is nothing to
drop. -/
theorem foldl_keepBlock_of_forks {es : List Event} {n : Nat} {chain : List (Nat × Checksum256)}
    (hes : ∀ e ∈ es, ∃ f : ForkEvent, e = .fork f ∧ f.blockNum = n)
    (hnil : es = [] → Chain.cut n chain = chain) :
    es.foldl keepBlock chain = Chain.cut n chain := by
  induction es generalizing chain with
  | nil => exact (hnil rfl).symm
  | cons e es ih =>
      obtain ⟨f, rfl, rfl⟩ := hes e List.mem_cons_self
      have hcut : Chain.cut f.blockNum (Chain.cut f.blockNum chain) = Chain.cut f.blockNum chain :=
        Chain.cut_eq_self fun p hp ↦ (Chain.mem_cut.mp hp).2
      have hrest : es.foldl keepBlock (Chain.cut f.blockNum chain) =
          Chain.cut f.blockNum (Chain.cut f.blockNum chain) :=
        ih (fun e he ↦ hes e (List.mem_cons_of_mem _ he)) fun _ ↦ hcut
      rw [hcut] at hrest
      exact hrest

section Parts

variable {block : BlockPosition} {result : GetBlocksResult} {w w' : World Abi}

theorem Calm.chain (h : Calm w w') : w'.chain = w.chain := by
  obtain ⟨es, hes, hstill⟩ := h.publishes
  rw [World.chain_of_published hes]
  exact foldl_keepBlock_of_kept (fun e he ↦ (hstill e he).keepBlock) _

theorem Ended.chain (h : Ended w w') : w'.chain = w.chain := by
  rw [World.chain, World.chain, h.publishes]

/-- What is on the list when the position of a result was accepted. -/
theorem Accept.chain (h : Accept block result w (.ok () w')) :
    w'.chain = if result.lastIrreversible.blockNum < block.blockNum ∧ block.blockNum ≤ w.proc.head
      then Chain.cut block.blockNum w.chain else w.chain := by
  have hpub : published w'.log = published w.log ++ forkEvents block result w := h.publishes
  rw [World.chain_of_published hpub, forkEvents]
  split_ifs <;> rfl

theorem Accept.chain_error {e : Abort} (h : Accept block result w (.error e w')) :
    w'.chain = w.chain := by
  have hpub : published w'.log = published w.log := h.publishes
  rw [World.chain, World.chain, hpub]

variable {lib} in
/-- A completed block is put on the list. -/
theorem ProcessBlock.chain (h : ProcessBlock lib block result w (.ok () w')) :
    w'.chain = w.chain ++ [(w.proc.head, w.proc.headId)] := by
  obtain ⟨es, e, hes, hin, hnum, hid⟩ := h.publishes
  rw [World.chain_of_published hes, List.foldl_append,
    foldl_keepBlock_of_kept fun e he ↦ (hin e he).keepBlock, ← hnum, ← hid]
  rfl

end Parts

/-! ## The invariant -/

/-- The blocks that tables know of are on a list. -/
structure Tables.OnChain (t : Tables) (chain : List (Nat × Checksum256)) : Prop where
  head : ∀ s, t.state = some s → (s.head, s.headId) ∈ chain
  rows : ∀ k id, t.receivedBlocks.find? k = some id → (k, id) ∈ chain

namespace Tables.OnChain

variable {t : Tables} {chain chain' : List (Nat × Checksum256)}

theorem empty (chain : List (Nat × Checksum256)) : (∅ : Tables).OnChain chain :=
  ⟨fun _ h ↦ (by cases h), fun _ _ h ↦ (by cases h)⟩

theorem mono (h : t.OnChain chain) (hsub : chain ⊆ chain') : t.OnChain chain' :=
  ⟨fun s hs ↦ hsub (h.head s hs), fun k id hk ↦ hsub (h.rows k id hk)⟩

/-- The blocks of a revision below a fork stay on the list. -/
theorem cut (h : t.OnChain chain) {r f : Nat} (hset : t.Settled r)
    (hf : ∀ s, t.state = some s → s.head < f) : t.OnChain (Chain.cut f chain) := by
  refine ⟨fun s hs ↦ Chain.mem_cut.mpr ⟨h.head s hs, hf s hs⟩, fun k id hk ↦ ?_⟩
  refine Chain.mem_cut.mpr ⟨h.rows k id hk, ?_⟩
  cases hs : t.state with
  | none =>
      rw [hset.empty hs] at hk
      cases hk
  | some s => exact ((hset.dated s hs).2.received k id hk).trans_lt (hf s hs)

/-- A block that is stored is the only one that has to be put on the list. -/
theorem block (h : t.OnChain chain) (block : BlockPosition) (result : GetBlocksResult) :
    (blockEffect lib block result t).OnChain (chain ++ [(block.blockNum, block.blockId)]) := by
  have hlast : (block.blockNum, block.blockId) ∈ chain ++ [(block.blockNum, block.blockId)] :=
    List.mem_append_right _ List.mem_cons_self
  refine ⟨fun s hs ↦ ?_, fun k id hk ↦ ?_⟩
  · obtain rfl : stateOf block result = s := Option.some.inj hs
    exact hlast
  rw [blockEffect_receivedBlocks, Tables.addReceived] at hk
  split_ifs at hk
  · rw [Table.find?_filter, Option.filter_eq_some_iff, Table.find?_insert] at hk
    obtain ⟨hfind, -⟩ := hk
    split_ifs at hfind with heq
    · rw [heq, ← Option.some.inj hfind]
      exact hlast
    · exact List.mem_append_left _ (h.rows k id hfind)
  · exact List.mem_append_left _ (h.rows k id hk)

end Tables.OnChain

/-- The list of the consumer is the chain of the receiver. -/
structure Mirrored (w : World Abi) : Prop where
  consecutive : Chain.Consecutive w.chain
  last : ∀ p ∈ w.chain.getLast?, p = (w.proc.head, w.proc.headId)
  tables : ∀ r t, w.db.at? r = some t → t.OnChain w.chain
  state : w.proc.continuation ≠ .hung → ∀ s, w.db.current.state = some s →
    w.chain.getLast? = some (s.head, s.headId)
  fresh : w.proc.continuation ≠ .hung → w.db.current.state = none → w.chain = []

/-- The list before a block is processed: it ends right below the block. -/
structure MirroredBelow (block : BlockPosition) (w : World Abi) : Prop where
  consecutive : Chain.Consecutive w.chain
  last : ∀ p ∈ w.chain.getLast?, block.blockNum = p.1 + 1
  tables : ∀ r t, w.db.at? r = some t → t.OnChain w.chain

/-! ## Steps -/

/-- No exception leaves `receive_result` at the block that an input delivers. -/
def Unbroken (w : World Abi) (i : Input) : Prop :=
  ∀ d ∈ delivered w i, ∀ what w',
    receiveResult lib (.ok d.2) w ≠ .error (.exception what) w'

instance (w : World Abi) (i : Input) : Decidable (Unbroken lib w i) :=
  have : ∀ r : EStateM.Result Abort (World Abi) Bool,
      Decidable (∀ what w', r ≠ .error (.exception what) w')
    | .ok _ _ | .error .hang _ | .error .undefinedBehaviour _ =>
      .isTrue fun _ _ h ↦ by cases h
    | .error (.exception what) w' => .isFalse fun h ↦ h what w' rfl
  inferInstanceAs (Decidable (∀ _ ∈ _, _))

/-- A process that finds no state object starts below all blocks of the consumer. -/
def StartsBelowChain (w : World Abi) : Input → Prop
  | .start o => w.db.undoAll.current.state = none → ∀ p ∈ w.chain, o.startBlockNum - 1 < p.1
  | _ => True

instance (w : World Abi) : (i : Input) → Decidable (StartsBelowChain w i)
  | .start o => inferInstanceAs (Decidable (w.db.undoAll.current.state = none →
      ∀ p ∈ w.chain, o.startBlockNum - 1 < p.1))
  | .ready _ | .receive _ _ | .timer _ | .ack _ | .slowdown _ | .stale | .decode _ | .request _
  | .scanner _ => .isTrue trivial

section Steps

variable {block : BlockPosition} {result : GetBlocksResult} {w w₁ w' : World Abi}

theorem Mirrored.calm (h : Mirrored w) (hc : Calm w w') (hne : w.proc.continuation ≠ .hung) :
    Mirrored w' := by
  have hhead : w'.proc.head = w.proc.head := congrArg StateObject.head hc.position
  have hid : w'.proc.headId = w.proc.headId := congrArg StateObject.headId hc.position
  have hchain := hc.chain
  refine ⟨?_, ?_, ?_, fun _ ↦ ?_, fun _ ↦ ?_⟩
  · rw [hchain]
    exact h.consecutive
  · rw [hchain, hhead, hid]
    exact h.last
  · rw [hchain, hc.db]
    exact h.tables
  · rw [hchain, hc.db]
    exact h.state hne
  · rw [hchain, hc.db]
    exact h.fresh hne

theorem Mirrored.ended (h : Mirrored w) (hend : Ended w w') : Mirrored w' := by
  have hhead : w'.proc.head = w.proc.head := congrArg StateObject.head hend.position
  have hid : w'.proc.headId = w.proc.headId := congrArg StateObject.headId hend.position
  have hchain := hend.chain
  have hne := hend.running.2
  refine ⟨?_, ?_, fun r t ht ↦ ?_, fun _ ↦ ?_, fun _ ↦ ?_⟩
  · rw [hchain]
    exact h.consecutive
  · rw [hchain, hhead, hid]
    exact h.last
  · rw [hend.db] at ht
    rw [hchain]
    exact h.tables r t (Undo.at?_commit_eq_some ht)
  · rw [hchain, hend.db]
    exact h.state hne
  · rw [hchain, hend.db]
    exact h.fresh hne

/-- A process that starts drops what it does not know of. -/
theorem Mirrored.loaded {o : Options} (h : Mirrored w) (hord : OrderedDb w.db)
    (hne : w.proc.continuation ≠ .hung) (hbelow : StartsBelowChain w (.start o))
    (hl : Loaded o w w') : Mirrored w' := by
  obtain ⟨hforks, hnone⟩ := published_startForks Abi o w.db
  have hpub : published w'.log = published w.log ++
      published (startForks o w.db : List (Observation Abi)) := by
    rw [hl.log, published_append]
  have hchain := World.chain_of_published hpub
  have hbase : ∀ r t, w'.db.at? r = some t → t = w.db.undoAll.current := by
    intro r t ht
    rw [hl.db] at ht
    exact (Undo.at?_of_stack_nil (Undo.stack_undoAll w.db) ht).2
  have hset := hord.settled _ _ w.db.at?_base
  cases hs : w.db.undoAll.current.state with
  | none =>
      -- nothing is kept: neither in the database nor on the list
      have hhead : (startPosition o w.db.undoAll.current).head = o.startBlockNum - 1 := by
        rw [startPosition, hs]
        rfl
      have hempty : w'.chain = [] := by
        rw [hchain, foldl_keepBlock_of_forks hforks fun hnil ↦ absurd hs (hnone hnil).1, hhead]
        exact Chain.cut_eq_nil fun p hp ↦ hbelow hs p hp
      refine ⟨?_, ?_, fun r t ht ↦ ?_, fun _ s hs' ↦ ?_, fun _ _ ↦ hempty⟩
      · rw [hempty]
        exact .nil
      · rw [hempty]
        intro p hp
        cases hp
      · rw [hbase r t ht, hset.empty hs]
        exact .empty _
      · rw [hl.db, hs] at hs'
        cases hs'
  | some s =>
      have hhead : (startPosition o w.db.undoAll.current).head = s.head := by
        rw [startPosition, hs]
        rfl
      have hmem : (s.head, s.headId) ∈ w.chain := (h.tables _ _ w.db.at?_base).head s hs
      have hcut : w'.chain = Chain.cut (s.head + 1) w.chain := by
        rw [hchain, ← hhead]
        refine foldl_keepBlock_of_forks hforks fun hnil ↦ Chain.cut_eq_self fun p hp ↦ ?_
        -- without a fork event there was nothing to undo
        have hundo : w.db.undoAll = w.db := Undo.undoAll_of_stack_nil (hnone hnil).2
        rw [hundo] at hs hhead ⊢
        rw [hhead]
        exact Nat.lt_succ_of_le (h.consecutive.le_getLast hp (h.state hne s hs))
      have hlast : w'.chain.getLast? = some (s.head, s.headId) := by
        rw [hcut]
        exact h.consecutive.getLast?_cut hmem
      refine ⟨?_, fun p hp ↦ ?_, fun r t ht ↦ ?_, fun _ s' hs' ↦ ?_, fun _ hs' ↦ ?_⟩
      · rw [hcut]
        exact h.consecutive.cut _
      · have hpos : w'.proc.position = s := by
          rw [hl.position, startPosition, hs]
          rfl
        rw [hlast] at hp
        cases hp
        rw [← hpos]
        rfl
      · rw [hbase r t ht, hcut]
        refine (h.tables _ _ w.db.at?_base).cut hset fun s' hs' ↦ ?_
        rw [Option.some.inj (hs'.symm.trans hs)]
        exact Nat.lt_succ_self _
      · rw [hl.db, hs] at hs'
        rw [hlast, Option.some.inj hs']
      · rw [hl.db, hs] at hs'
        cases hs'

/-- A result that is accepted finds the list up to the block below it. -/
theorem Accept.mirroredBelow (haccept : Accept block result w (.ok () w₁)) (h : Mirrored w)
    (hord : OrderedDb w.db)
    (hfollow : block.blockNum = w.proc.head + 1 ∨
      (result.lastIrreversible.blockNum < block.blockNum ∧ block.blockNum ≤ w.proc.head)) :
    MirroredBelow block w₁ := by
  have hchain := haccept.chain
  have hkept : ∀ r t, w₁.db.at? r = some t → t.OnChain w.chain := by
    intro r t ht
    obtain ⟨r', ht'⟩ := haccept.kept r t ht
    exact h.tables r' t ht'
  have hnext : ¬ block.blockNum ≤ w.proc.head → MirroredBelow block w₁ := by
    intro hnot
    rw [if_neg fun hfork ↦ hnot hfork.2] at hchain
    refine ⟨hchain ▸ h.consecutive, ?_, hchain ▸ hkept⟩
    rw [hchain]
    intro p hp
    rw [h.last p hp]
    exact hfollow.resolve_right fun hfork ↦ hnot hfork.2
  cases haccept with
  | @forked db db' hopen hhead hroll _ =>
      rw [if_pos ⟨hopen.above, hhead⟩] at hchain
      refine ⟨hchain ▸ h.consecutive.cut _, ?_, fun r t ht ↦ ?_⟩
      · rw [hchain]
        cases hend : w.chain.getLast? with
        | none =>
            rw [List.getLast?_eq_none_iff.mp hend]
            intro p hp
            cases hp
        | some q =>
            refine h.consecutive.last_of_cut (List.mem_of_getLast? hend) ?_
            rw [h.last q hend]
            exact hhead
      · rw [hchain]
        have hset := ((hord.raised hopen.raised).rollback hroll).settled r t ht
        refine (hkept r t ht).cut hset fun s hs ↦ ?_
        -- what is left are revisions below the block
        obtain ⟨-, hrev, hpos, -⟩ := Undo.rollback_spec hroll
        have hle : r ≤ db'.revision := Undo.le_revision_of_at? ht
        have hdated := (hset.dated s hs).1
        omega
  | extended _ habove _ => exact hnext (not_le.mpr habove)
  | unchecked _ _ hbelow =>
      refine hnext fun hhead ↦ ?_
      rcases hfollow with heq | hfork
      · omega
      · exact absurd hfork.1 (not_lt.mpr hbelow)

variable {lib} in
/-- The list when a block was completed. -/
theorem MirroredBelow.completed (h : MirroredBelow block w) (hplaced : Placed block w)
    (hat : AtBlock block result w) (hprocess : ProcessBlock lib block result w (.ok () w')) :
    Mirrored w' := by
  have hhead : w.proc.head = block.blockNum := congrArg StateObject.head hat
  have hid : w.proc.headId = block.blockId := congrArg StateObject.headId hat
  have hchain : w'.chain = w.chain ++ [(block.blockNum, block.blockId)] := by
    rw [hprocess.chain, hhead, hid]
  have hlast : w'.chain.getLast? = some (block.blockNum, block.blockId) := by
    rw [hchain, List.getLast?_concat]
  have hstate : w'.db.current.state = some (stateOf block result) ∧
      w'.proc.position = stateOf block result := by
    cases hprocess with
    | completed _ _ _ hstored hw =>
        have hpos := (hplaced.stored hat hstored).2
        have hcore := hw.1.core.trans hstored.core
        have hat' := (Proc.member_eq hstored.core Proc.position fun _ ↦ rfl).trans hat
        refine ⟨?_, (Proc.member_eq hcore Proc.position fun _ ↦ rfl).trans hat⟩
        rw [← hat', ← hpos, ← hw.2]
  refine ⟨?_, fun p hp ↦ ?_, fun r t ht ↦ ?_, fun _ s hs ↦ ?_, fun _ hs ↦ ?_⟩
  · rw [hchain]
    exact h.consecutive.concat h.last
  · rw [hlast] at hp
    cases hp
    have hhead' : w'.proc.head = block.blockNum := congrArg StateObject.head hstate.2
    have hid' : w'.proc.headId = block.blockId := congrArg StateObject.headId hstate.2
    rw [hhead', hid']
  · rw [hchain]
    rcases hprocess.at? r t ht with ht | rfl
    · exact (h.tables r t ht).mono (List.subset_append_left _ _)
    · exact (h.tables _ _ w.db.at?_revision).block lib block result
  · rw [hlast, ← Option.some.inj (hstate.1.symm.trans hs)]
    rfl
  · rw [hstate.1] at hs
    cases hs

/-- The list of a receiver that hangs in its rollback is as it was. -/
theorem Mirrored.hung {e : Abort} (h : Mirrored w) (haccept : Accept block result w (.error e w₁))
    (hcalm : Calm w₁ w') (hhung : w'.proc.continuation = .hung)
    (hpos : w₁.proc.position = w.proc.position) : Mirrored w' := by
  have hchain := hcalm.chain.trans haccept.chain_error
  have hpos' := hcalm.position.trans hpos
  have hhead : w'.proc.head = w.proc.head := congrArg StateObject.head hpos'
  have hid : w'.proc.headId = w.proc.headId := congrArg StateObject.headId hpos'
  refine ⟨?_, ?_, fun r t ht ↦ ?_, fun hne ↦ absurd hhung hne, fun hne ↦ absurd hhung hne⟩
  · rw [hchain]
    exact h.consecutive
  · rw [hchain, hhead, hid]
    exact h.last
  · rw [hcalm.db] at ht
    obtain ⟨r', ht'⟩ := haccept.kept r t ht
    rw [hchain]
    exact h.tables r' t ht'

end Steps

/-- Every input keeps the list the chain of the receiver. -/
theorem Mirrored.exec {w : World Abi} {i : Input} (h : Mirrored w) (hscan : Scanning w)
    (hord : Ordered w) (hi : ScanInput i) (hfollow : FollowsHead 0 w i)
    (hunbroken : Unbroken lib w i) (hstart : SuccessfulStart w i)
    (hbelow : StartsBelowChain w i) : Mirrored (exec lib w i) := by
  by_cases hhung : w.proc.continuation = .hung
  · have hnot : ∀ o, i ≠ .start o := by
      rintro o rfl
      exact hstart.1 hhung
    rwa [exec_hung lib hscan.mode hnot hhung]
  cases hscan.exec_cases lib hi with
  | idle hidle => exact h.calm hidle.toCalm hhung
  | acked _ hw => exact hw ▸ h.calm (calm_ackedBy _ w) hhung
  | decoded hw => exact hw ▸ h.calm (calm_decoded lib _ w) hhung
  | ended hidle hend => exact (h.calm hidle.toCalm hhung).ended hend
  | started hs =>
      cases hs with
      | loaded hl => exact h.loaded hord.db hhung hbelow hl
      | rejected hr =>
          exact absurd hstart.2 (not_or.mpr ⟨hr.state, by have := hr.start; omega⟩)
  | @received block result queueSize _ hblock hread hr =>
      have hd := delivered_receive queueSize hblock hread
      have hb : block.blockNum = w.proc.head + 1 ∨
          (result.lastIrreversible.blockNum < block.blockNum ∧ block.blockNum ≤ w.proc.head) :=
        (hfollow _ hd).imp_right fun hb ↦ ⟨hb.1, hb.2.1⟩
      have h₀ : Mirrored w.counted := ⟨h.consecutive, h.last, h.tables, h.state, h.fresh⟩
      cases hr with
      | refused haccept hstop hresult =>
          have hpos := (haccept.frame hscan.cached).2.2.2.1
          exact h₀.hung haccept hstop.idle.toCalm
            (hstop.hung fun what he ↦ hunbroken _ hd what _ (he ▸ hresult)) hpos
      | broken haccept hprocess hstop hresult =>
          cases hprocess with
          | unreadable => exact absurd hresult (hunbroken _ hd _ _)
          | failed => exact absurd hresult (hunbroken _ hd _ _)
          | untraced => exact absurd hresult (hunbroken _ hd _ _)
      | @completed w₁ w₂ w₃ haccept hprocess hidle hnext =>
          obtain ⟨hplaced, -, hat⟩ :=
            Accept.placed_counted hscan hord hread (hfollow.resentAbove _ hd) haccept
          have hbelow₁ : MirroredBelow block w₁ := haccept.mirroredBelow h₀ hord.db hb
          have h₂ := hbelow₁.completed hplaced hat hprocess
          have hrun₂ : w₂.proc.continuation ≠ .hung := by
            obtain ⟨-, hcont, hc, -⟩ := haccept.frame hscan.cached
            have hcore := (hprocess.frame hc).2.1
            have hreading : w₂.proc.continuation = .reading :=
              (Proc.member_eq hcore Proc.continuation fun _ ↦ rfl).trans (hcont.trans hread)
            exact ((running_iff hreading).mpr (by decide)).2
          cases hnext with
          | idle hidle' => exact h₂.calm (hidle.trans hidle').toCalm hrun₂
          | ended hend => exact (h₂.calm hidle.toCalm hrun₂).ended hend

theorem mirrored_newWorld : Mirrored (newWorld : World Abi) := by
  refine ⟨.nil, fun p hp ↦ (by cases hp), fun r t ht ↦ ?_, fun _ s hs ↦ (by cases hs),
    fun _ _ ↦ rfl⟩
  obtain ⟨-, rfl⟩ := Undo.at?_mk_nil ht
  exact .empty _

/-! ## Runs -/

/-- The list of a consumer that has handled all events is the chain of the receiver: the
numbers are consecutive, the last block is the head, the list is empty only if the database
is, and it has the blocks of all revisions. -/
structure MirrorsChain (w : World Abi) : Prop where
  consecutive : Chain.Consecutive w.chain
  last : ∀ p ∈ w.chain.getLast?, p = (w.proc.head, w.proc.headId)
  empty : w.chain = [] → w.db.current = ∅
  agrees : ∀ r t, w.db.at? r = some t → t.OnChain w.chain

theorem Mirrored.mirrors {w : World Abi} (h : Mirrored w) (hord : OrderedDb w.db) :
    MirrorsChain w := by
  refine ⟨h.consecutive, h.last, fun hnil ↦ ?_, h.tables⟩
  refine (hord.settled _ _ w.db.at?_revision).empty ?_
  by_contra hsome
  obtain ⟨s, hs⟩ := Option.ne_none_iff_exists'.mp hsome
  have hmem := (h.tables _ _ w.db.at?_revision).head s hs
  rw [hnil] at hmem
  cases hmem

/-- In every run without exceptions, with any restarts, in which the stream goes on from the
head or goes back to a reversible block, and a process that finds no state object starts below
all blocks of the consumer: the list of the consumer is the chain of the receiver. -/
theorem chain_mirrored (inputs : List Input)
    (hrun : Run.Guarded (exec lib)
      (fun w i ↦ (ScanInput i ∧ FollowsHead 0 w i) ∧ Unbroken lib w i ∧ SuccessfulStart w i ∧
        StartsBelowChain w i) newWorld inputs) :
    MirrorsChain (run lib newWorld inputs) := by
  have hinv : Scanning (run lib newWorld inputs) ∧ Ordered (run lib newWorld inputs) ∧
      Mirrored (run lib newWorld inputs) :=
    hrun.invariant (I := fun w ↦ Scanning w ∧ Ordered w ∧ Mirrored w)
      (fun w i h hi ↦ ⟨h.1.exec lib hi.1.1,
        h.2.1.exec lib h.1 hi.1.1 hi.1.2.resentAbove,
        h.2.2.exec lib h.1 h.2.1 hi.1.1 hi.1.2 hi.2.1 hi.2.2.1 hi.2.2.2⟩)
      ⟨scanning_newWorld, ordered_newWorld, mirrored_newWorld⟩
  exact hinv.2.2.mirrors hinv.2.1.db

/-- A restart from scratch, a fork, and a restart after the first block is committed. -/
def restartedTwice : List Input :=
  [.start {}, .ready 0, .result (bareResult ⟨1, 1⟩ 0 0),
    .start {}, .ready 0, .result (bareResult ⟨1, 6⟩ 0 0), .result (bareResult ⟨2, 2⟩ 6 0),
    .result (bareResult ⟨2, 7⟩ 6 1), .start {}, .ready 0, .result (bareResult ⟨2, 8⟩ 6 1)]

set_option maxRecDepth 10000 in
theorem chain_mirrored_restarted : MirrorsChain (run .lenient newWorld restartedTwice) :=
  chain_mirrored .lenient restartedTwice (by decide)

set_option maxRecDepth 10000 in
/-- A process stops before its block is committed, and the next one is told to start far above
it: the consumer still has the block. -/
theorem chain_kept_below_start :
    ∃ inputs : List Input,
      Run.Guarded (exec .lenient)
        (fun w i ↦ (ScanInput i ∧ FollowsHead 0 w i) ∧ Unbroken .lenient w i ∧ SuccessfulStart w i)
        newWorld inputs ∧
      ¬ MirrorsChain (run .lenient newWorld inputs) := by
  refine ⟨[.start {}, .ready 0, .result (bareResult ⟨1, 1⟩ 0 0), .start { startBlockNum := 100 }],
    by decide, fun h ↦ ?_⟩
  have hlast := h.last (1, 1) (by decide)
  exact absurd hlast (by decide)

end Chronicle
