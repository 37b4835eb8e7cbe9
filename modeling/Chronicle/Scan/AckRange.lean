import Chronicle.Scan.Ordered

/-!
# The range of the acknowledged block

`exporter_acked_block` is written when a process starts, when a fork is found, and by
`ack_block`.  It stays between its last value and the head as long as the exporter does: an
acknowledgement above the head is taken at its word, and while one is awaited after a fork,
so is one below what was acknowledged (`acked_above_head`).
-/

namespace Chronicle

open Store Effect

variable {Abi : Type} (lib : Abieos Abi)

/-- The acknowledgements that `ack_block` handles as it should: up to the head; or, while
the one below a fork is awaited, not below what was acknowledged, or ignored. -/
def AckInRange (w : World Abi) : Input → Prop
  | .ack n =>
    if w.proc.forkedAtBlock = 0 then n ≤ w.proc.head
    else w.proc.exporterAckedBlock ≤ n ∨ w.proc.forkedAtBlock ≤ n
  | _ => True

instance (w : World Abi) : (i : Input) → Decidable (AckInRange w i)
  | .ack n => inferInstanceAs (Decidable (if w.proc.forkedAtBlock = 0 then n ≤ w.proc.head
      else w.proc.exporterAckedBlock ≤ n ∨ w.proc.forkedAtBlock ≤ n))
  | .start _ | .ready _ | .receive _ _ | .timer _ | .slowdown _ | .stale | .decode _ | .request _
  | .scanner _ => .isTrue trivial

/-- What was acknowledged is not above the head, and no fork is awaited above the block that
comes next. -/
structure AckedWithin (w : World Abi) : Prop where
  acked : w.proc.exporterAckedBlock ≤ w.proc.head
  forked : w.proc.forkedAtBlock ≤ w.proc.head + 1
  silent : w.options.exporterWillAck = false → w.proc.exporterAckedBlock = 0

/-! ## Steps -/

section Steps

variable {block : BlockPosition} {result : GetBlocksResult} {w w' : World Abi}

/-- The members that count acknowledgements after a fork at block `b`. -/
def ClippedAt (b : Nat) (o : Options) (p p' : Proc Abi) : Prop :=
  p'.exporterAckedBlock =
      (if o.exporterWillAck then min p.exporterAckedBlock (b - 1) else p.exporterAckedBlock) ∧
    p'.forkedAtBlock = b

/-- Two states of a process that agree on what they know of acknowledgements. -/
def SameAcks (p p' : Proc Abi) : Prop :=
  p'.exporterAckedBlock = p.exporterAckedBlock ∧ p'.forkedAtBlock = p.forkedAtBlock

/-- What a block does to the head and to the acknowledgements. -/
inductive BlockAcks (block : BlockPosition) (result : GetBlocksResult) (w w' : World Abi) : Prop
  /-- Its position was refused. -/
  | stayed (hhead : w'.proc.head = w.proc.head) (h : SameAcks w.proc w'.proc)
  /-- It is the new head. -/
  | moved (hhead : w'.proc.head = block.blockNum) (h : SameAcks w.proc w'.proc)
      (hle : block.blockNum ≤ w.proc.head → block.blockNum ≤ result.lastIrreversible.blockNum)
  /-- It is the new head after a fork. -/
  | forked (hhead : w'.proc.head = block.blockNum)
      (habove : result.lastIrreversible.blockNum < block.blockNum)
      (hle : block.blockNum ≤ w.proc.head)
      (h : ClippedAt block.blockNum w.options w.proc w'.proc)

theorem SameAcks.trans {p₁ p₂ p₃ : Proc Abi} (h : SameAcks p₁ p₂) (h' : SameAcks p₂ p₃) :
    SameAcks p₁ p₃ := ⟨h'.1.trans h.1, h'.2.trans h.2⟩

/-- What comes after it leaves head and acknowledgements alone. -/
theorem BlockAcks.trans {w₁ : World Abi} (h : BlockAcks block result w w₁)
    (hsame : w'.proc.head = w₁.proc.head ∧ SameAcks w₁.proc w'.proc) :
    BlockAcks block result w w' := by
  obtain ⟨hhead', hacks⟩ := hsame
  cases h with
  | stayed hhead h => exact .stayed (hhead'.trans hhead) (h.trans hacks)
  | moved hhead h hle => exact .moved (hhead'.trans hhead) (h.trans hacks) hle
  | forked hhead habove hle h =>
      exact .forked (hhead'.trans hhead) habove hle ⟨hacks.1.trans h.1, hacks.2.trans h.2⟩

/-- A fork clips what was acknowledged to the block below it. -/
theorem clippedAt_forked (o : Options) {b : Nat} (hb : 0 < b) (p : Proc Abi) :
    ClippedAt b o p (p.forked o b) := by
  refine ⟨?_, rfl⟩
  change (if o.exporterWillAck && decide (Uint32.pred b < p.exporterAckedBlock)
    then Uint32.pred b else p.exporterAckedBlock) = _
  rw [Uint32.pred_of_pos hb]
  cases o.exporterWillAck with
  | false => rfl
  | true =>
      by_cases hlt : b - 1 < p.exporterAckedBlock
      · rw [decide_eq_true hlt]
        exact (min_eq_right hlt.le).symm
      · rw [decide_eq_false hlt]
        exact (min_eq_left (not_lt.mp hlt)).symm

/-- What the check of a position does to the acknowledgements. -/
theorem Accept.acks {r : EStateM.Result Abort (World Abi) Unit} (h : Accept block result w r) :
    Ends (fun _ w' ↦ BlockAcks block result w w') (fun _ w' ↦ BlockAcks block result w w') r := by
  cases h with
  | unmoved => exact .stayed rfl ⟨rfl, rfl⟩
  | refused => exact .stayed rfl ⟨rfl, rfl⟩
  | endless => exact .stayed rfl ⟨rfl, rfl⟩
  | bottom => exact .stayed rfl ⟨rfl, rfl⟩
  | forked hopen hhead _ _ =>
      have hpos := hopen.above
      exact .forked rfl hopen.above hhead (clippedAt_forked w.options (by omega) w.proc)
  | extended _ habove _ =>
      exact .moved rfl ⟨rfl, rfl⟩ fun hle ↦ absurd habove (not_lt.mpr hle)
  | unchecked _ _ hbelow => exact .moved rfl ⟨rfl, rfl⟩ fun _ ↦ hbelow

/-- The members that a block does not touch. -/
theorem sameAcks_of_core {p p' : Proc Abi} (h : p'.core = p.core) :
    p'.head = p.head ∧ SameAcks p p' :=
  ⟨Proc.member_eq h Proc.head fun _ ↦ rfl, Proc.member_eq h Proc.exporterAckedBlock fun _ ↦ rfl,
    Proc.member_eq h Proc.forkedAtBlock fun _ ↦ rfl⟩

theorem Idle.acks (h : Idle w w') : w'.proc.head = w.proc.head ∧ SameAcks w.proc w'.proc :=
  ⟨congrArg StateObject.head h.position, h.acked, h.forked⟩

theorem Ended.acks (h : Ended w w') : w'.proc.head = w.proc.head ∧ SameAcks w.proc w'.proc :=
  ⟨congrArg StateObject.head h.position, h.acked, h.forked⟩

theorem Next.acks (h : Next w w') : w'.proc.head = w.proc.head ∧ SameAcks w.proc w'.proc := by
  cases h with
  | idle h => exact h.acks
  | ended h => exact h.acks

/-- What a received block does to the acknowledgements. -/
theorem Received.acks (hc : w.proc.Cached) (h : Received lib block result w w') :
    BlockAcks block result w w' := by
  have hcounted : ∀ {w₁ : World Abi}, BlockAcks block result w.counted w₁ →
      BlockAcks block result w w₁ := by
    intro w₁ h
    cases h with
    | stayed hhead h => exact .stayed hhead h
    | moved hhead h hle => exact .moved hhead h hle
    | forked hhead habove hle h => exact .forked hhead habove hle h
  cases h with
  | refused haccept hstop => exact (hcounted haccept.acks).trans hstop.idle.acks
  | broken haccept hprocess hstop =>
      have hcore := (hprocess.frame (haccept.frame hc).2.2.1).2.1
      exact ((hcounted haccept.acks).trans (sameAcks_of_core hcore)).trans hstop.idle.acks
  | completed haccept hprocess hidle hnext =>
      have hcore := (hprocess.frame (haccept.frame hc).2.2.1).2.1
      exact (((hcounted haccept.acks).trans (sameAcks_of_core hcore)).trans hidle.acks).trans
        hnext.acks

end Steps

/-- What an input does to the head and the acknowledgements. -/
inductive ExecAcks (w : World Abi) : Input → World Abi → Prop
  /-- Nothing. -/
  | same {i : Input} {w' : World Abi} (hopt : w'.options = w.options)
      (hhead : w'.proc.head = w.proc.head) (h : SameAcks w.proc w'.proc) : ExecAcks w i w'
  /-- An acknowledgement is taken. -/
  | acked {n : Nat} {w' : World Abi} (hwill : w.options.exporterWillAck = true)
      (h : w' = { w with proc := w.proc.ackedBy n }) : ExecAcks w (.ack n) w'
  /-- A process starts: its head counts as acknowledged, if the exporter acknowledges. -/
  | started {o : Options} {w' : World Abi}
      (hacked : w'.proc.exporterAckedBlock = if o.exporterWillAck then w'.proc.head else 0)
      (hforked : w'.proc.forkedAtBlock = 0 ∨ w'.proc.forkedAtBlock = w'.proc.head + 1) :
    ExecAcks w (.start o) w'
  /-- A process is refused. -/
  | rejected {o : Options} {w' : World Abi} (hacked : w'.proc.exporterAckedBlock = 0)
      (hforked : w'.proc.forkedAtBlock = 0) : ExecAcks w (.start o) w'
  /-- A block was received. -/
  | received {d : BlockPosition × GetBlocksResult} {i : Input} {w' : World Abi}
      (hd : delivered w i = some d) (h : BlockAcks d.1 d.2 w w') : ExecAcks w i w'

theorem execAcks {w : World Abi} {i : Input} (hscan : Scanning w) (hi : ScanInput i) :
    ExecAcks w i (exec lib w i) := by
  cases hscan.exec_cases lib hi with
  | idle hidle => exact .same hidle.options hidle.acks.1 hidle.acks.2
  | acked hwill hw => exact .acked hwill hw
  | decoded hw =>
      rw [hw]
      exact .same rfl (sameAcks_of_core (w.proc.load_core lib _ _)).1
        (sameAcks_of_core (w.proc.load_core lib _ _)).2
  | ended hidle hend =>
      exact .same (hend.options.trans hidle.options) (hend.acks.1.trans hidle.acks.1)
        (hidle.acks.2.trans hend.acks.2)
  | @started o _ hs =>
      cases hs with
      | loaded hl =>
          refine .started hl.acked ?_
          rw [hl.forked]
          split_ifs
          · exact .inr rfl
          · exact .inl rfl
      | rejected hr => exact .rejected hr.acked hr.forked
  | received hblock hread hr =>
      exact .received (delivered_receive _ hblock hread) (hr.acks lib hscan.cached)

/-- The options of the process that runs after an input. -/
def optionsAfter (w : World Abi) : Input → Options
  | .start o => o
  | _ => w.options

theorem exec_options {w : World Abi} {i : Input} (hscan : Scanning w) (hi : ScanInput i) :
    (exec lib w i).options = optionsAfter w i := by
  have hnext : ∀ {w₁ w₂ : World Abi}, Next w₁ w₂ → w₂.options = w₁.options := by
    intro w₁ w₂ h
    cases h with
    | idle h => exact h.options
    | ended h => exact h.options
  by_cases hs : ∃ o, i = .start o
  · obtain ⟨o, rfl⟩ := hs
    cases start_cases lib hi w with
    | loaded h => exact h.options
    | rejected h => exact h.options
  have hsame : (exec lib w i).options = w.options := by
    cases hscan.exec_cases lib hi with
    | idle hidle => exact hidle.options
    | acked _ hw => rw [hw]
    | decoded hw => rw [hw]; rfl
    | ended hidle hend => exact hend.options.trans hidle.options
    | started => exact absurd ⟨_, rfl⟩ hs
    | received hblock hread hr =>
        cases hr with
        | refused haccept hstop =>
            exact hstop.idle.options.trans (haccept.frame hscan.cached).1
        | broken haccept hprocess hstop =>
            obtain ⟨hopt, -, hc, -⟩ := haccept.frame hscan.cached
            exact hstop.idle.options.trans ((hprocess.frame hc).1.trans hopt)
        | completed haccept hprocess hidle hnext' =>
            obtain ⟨hopt, -, hc, -⟩ := haccept.frame hscan.cached
            exact (hnext hnext').trans (hidle.options.trans ((hprocess.frame hc).1.trans hopt))
  cases i with
  | start o => exact absurd ⟨o, rfl⟩ hs
  | _ => exact hsame

/-! ## The invariant -/

/-- What is acknowledged after an acknowledgement. -/
theorem Proc.ackedBy_acked (n : Nat) (p : Proc Abi) :
    (p.ackedBy n).exporterAckedBlock =
      if (if 0 < p.forkedAtBlock then p.forkedAtBlock - 1 < n else n < p.exporterAckedBlock)
      then p.exporterAckedBlock else n := by
  rw [Proc.ackedBy]
  split_ifs <;> rfl

/-- An acknowledgement in range leaves what was acknowledged in range. -/
theorem AckedWithin.ackedBy {w : World Abi} {n : Nat} (h : AckedWithin w)
    (hwill : w.options.exporterWillAck = true) (hn : AckInRange w (.ack n)) :
    AckedWithin { w with proc := w.proc.ackedBy n } := by
  have hacked := h.acked
  have hforked := h.forked
  have hsilent : ∀ p : Proc Abi, w.options.exporterWillAck = false → p.exporterAckedBlock = 0 :=
    fun _ hnot ↦ absurd (hwill.symm.trans hnot) nofun
  rw [AckInRange] at hn
  rw [Proc.ackedBy]
  split_ifs with hfork hlt heq hlow
  · exact h
  · exact ⟨by dsimp only; omega, Nat.zero_le _, hsilent _⟩
  · exact ⟨by dsimp only; omega, hforked, hsilent _⟩
  · exact ⟨hacked, hforked, hsilent _⟩
  · rw [if_pos (by omega)] at hn
    exact ⟨hn, hforked, hsilent _⟩

/-- What was acknowledged stays in range when neither head, acknowledgements nor options
change. -/
theorem AckedWithin.same {w w' : World Abi} (h : AckedWithin w) (hopt : w'.options = w.options)
    (hhead : w'.proc.head = w.proc.head) (hsame : SameAcks w.proc w'.proc) : AckedWithin w' := by
  refine ⟨?_, ?_, fun hnot ↦ ?_⟩
  · rw [hhead, hsame.1]
    exact h.acked
  · rw [hhead, hsame.2]
    exact h.forked
  · rw [hsame.1]
    exact h.silent (hopt ▸ hnot)

/-- A block keeps what was acknowledged in range. -/
theorem AckedWithin.block {block : BlockPosition} {result : GetBlocksResult} {w w' : World Abi}
    (h : AckedWithin w) (hopt : w'.options = w.options) (hblock : BlockAcks block result w w')
    (hre : block.blockNum ≤ w.proc.head → result.lastIrreversible.blockNum < block.blockNum) :
    AckedWithin w' := by
  have hacked := h.acked
  have hforked := h.forked
  cases hblock with
  | stayed hhead hsame => exact h.same hopt hhead hsame
  | moved hhead hsame hle =>
      have hlt : w.proc.head < block.blockNum := by
        by_contra hnot
        exact absurd (hle (not_lt.mp hnot)) (not_le.mpr (hre (not_lt.mp hnot)))
      refine ⟨by rw [hhead, hsame.1]; omega, by rw [hhead, hsame.2]; omega, fun hnot ↦ ?_⟩
      rw [hsame.1]
      exact h.silent (hopt ▸ hnot)
  | forked hhead habove hle hclip =>
      have hzero : w.options.exporterWillAck = false → w'.proc.exporterAckedBlock = 0 := by
        intro hnot
        rw [hclip.1, hnot]
        exact h.silent hnot
      refine ⟨?_, by rw [hhead, hclip.2]; omega, fun hnot ↦ hzero (hopt ▸ hnot)⟩
      cases hwill : w.options.exporterWillAck with
      | false => exact (hzero hwill).trans_le (Nat.zero_le _)
      | true =>
          rw [hhead, hclip.1, hwill, if_pos rfl]
          omega

/-- Every input keeps what was acknowledged in range, if acknowledgements are, and if a block
that is sent again is reversible. -/
theorem AckedWithin.exec {w : World Abi} {i : Input} (h : AckedWithin w)
    (hscan : Scanning w) (hi : ScanInput i) (hre : ResentAbove w i) (hack : AckInRange w i) :
    AckedWithin (exec lib w i) := by
  have hopt := exec_options lib hscan hi
  cases execAcks lib hscan hi with
  | same hopt hhead hsame => exact h.same hopt hhead hsame
  | acked hwill hw =>
      rw [hw]
      exact h.ackedBy hwill hack
  | @started o _ hacked hforked =>
      refine ⟨?_, by omega, fun hnot ↦ ?_⟩
      · rw [hacked]
        split_ifs
        · exact le_rfl
        · exact Nat.zero_le _
      · rw [hopt] at hnot
        have hnot : o.exporterWillAck = false := hnot
        rw [hacked, hnot]
        rfl
  | rejected hacked hforked => exact ⟨by omega, by omega, fun _ ↦ hacked⟩
  | received hd hblock =>
      obtain ⟨queueSize, rfl, -, -⟩ := delivered_eq_some hd
      exact h.block hopt hblock (hre _ hd)

theorem ackedWithin_newWorld : AckedWithin (newWorld : World Abi) :=
  ⟨le_rfl, Nat.zero_le _, fun _ ↦ rfl⟩

/-! ## Runs -/

/-- What an input does to the acknowledged block. -/
structure AckKept (w : World Abi) (i : Input) (w' : World Abi) : Prop where
  /-- The difference that `check_pause` computes does not wrap. -/
  within : w.proc.exporterAckedBlock ≤ w.proc.head ∧
    Uint32.sub w.proc.head w.proc.exporterAckedBlock =
      w.proc.head - w.proc.exporterAckedBlock
  /-- Within a process the value goes down only when a fork clips it. -/
  monotone : (∀ o, i ≠ .start o) →
    w.proc.exporterAckedBlock ≤ w'.proc.exporterAckedBlock ∨
      ∃ d, delivered w i = some d ∧ d.2.lastIrreversible.blockNum < d.1.blockNum ∧
        d.1.blockNum ≤ w.proc.head ∧
        w'.proc.exporterAckedBlock = min w.proc.exporterAckedBlock (d.1.blockNum - 1)
  /-- An acknowledgement out of range is refused. -/
  refused : ∀ n, i = .ack n → n < w.proc.exporterAckedBlock ∨ w.proc.head < n →
    w'.proc.exporterAckedBlock = w.proc.exporterAckedBlock

theorem AckedWithin.kept {w : World Abi} {i : Input} (h : AckedWithin w) (hscan : Scanning w)
    (hi : ScanInput i) (hack : AckInRange w i) : AckKept w i (Chronicle.exec lib w i) := by
  have hsame : ∀ {w' : World Abi}, SameAcks w.proc w'.proc →
      w.proc.exporterAckedBlock ≤ w'.proc.exporterAckedBlock := fun hs ↦ hs.1.ge
  refine ⟨⟨h.acked, if_pos h.acked⟩, fun hstart ↦ ?_, ?_⟩
  · cases execAcks lib hscan hi with
    | same _ _ hs => exact .inl (hsame hs)
    | @acked n _ _ hw =>
        refine .inl ?_
        rw [hw]
        rw [AckInRange] at hack
        simp only [Proc.ackedBy_acked]
        split_ifs at hack ⊢ <;> omega
    | started => exact absurd rfl (hstart _)
    | rejected => exact absurd rfl (hstart _)
    | @received d _ _ hd hblock =>
        cases hblock with
        | stayed _ hs => exact .inl (hsame hs)
        | moved _ hs _ => exact .inl (hsame hs)
        | forked _ habove hle hclip =>
            rcases Bool.eq_false_or_eq_true w.options.exporterWillAck with hwill | hwill
            · refine .inr ⟨d, hd, habove, hle, ?_⟩
              rw [hclip.1, hwill]
              rfl
            · exact .inl ((h.silent hwill).trans_le (Nat.zero_le _))
  · rintro n rfl hn
    have hforked := h.forked
    cases execAcks lib hscan hi with
    | same _ _ hs => exact hs.1
    | acked _ hw =>
        rw [AckInRange] at hack
        rw [hw]
        simp only [Proc.ackedBy_acked]
        split_ifs at hack ⊢ <;> omega
    | received hd => cases hd

/-- In every run in which no acknowledgement is above the head, or below what was
acknowledged while a fork is answered, and in which blocks that are sent again are
reversible, the acknowledged block stays between its last value and the head. -/
theorem acked_within_range (inputs : List Input) (i : Input)
    (hrun : Run.Guarded (exec lib)
      (fun w i ↦ ScanInput i ∧ ResentAbove w i ∧ AckInRange w i) newWorld (inputs ++ [i])) :
    AckKept (run lib newWorld inputs) i (run lib newWorld (inputs ++ [i])) := by
  obtain ⟨hinputs, hi⟩ := Run.Guarded.append.mp hrun
  have hinv : Scanning (run lib newWorld inputs) ∧ AckedWithin (run lib newWorld inputs) :=
    hinputs.invariant (I := fun w ↦ Scanning w ∧ AckedWithin w)
      (fun w i h hi ↦ ⟨h.1.exec lib hi.1, h.2.exec lib h.1 hi.1 hi.2.1 hi.2.2⟩)
      ⟨scanning_newWorld, ackedWithin_newWorld⟩
  have hstep : run lib newWorld (inputs ++ [i]) = exec lib (run lib newWorld inputs) i :=
    List.foldl_append
  rw [hstep]
  exact hinv.2.kept lib hinv.1 hi.1.1 hi.1.2.2

/-- A process with an exporter that acknowledges, and one block. -/
def oneBlock : List Input :=
  [.start { exporterWillAck := true }, .ready 0, .ack 0, .timer 0,
    .result (bareResult ⟨1, 1⟩ 0 0)]

set_option maxRecDepth 10000 in
/-- The acknowledgement of the block itself is in range. -/
theorem acked_within_range_one :
    AckKept (run .lenient newWorld oneBlock) (.ack 1)
      (run .lenient newWorld (oneBlock ++ [.ack 1])) :=
  acked_within_range .lenient oneBlock (.ack 1) (by decide)

set_option maxRecDepth 10000 in
/-- The acknowledgement of a block that was never sent is taken, and the receiver waits for
four billion blocks to be acknowledged. -/
theorem acked_above_head :
    ∃ inputs : List Input, ∃ n : Nat, n ≤ Uint32.max ∧
      Run.Guarded (exec .lenient) (fun w i ↦ ScanInput i ∧ FollowsHead 0 w i) newWorld
        (inputs ++ [.ack n]) ∧
      let w := run .lenient newWorld inputs
      let w' := run .lenient newWorld (inputs ++ [.ack n])
      w.proc.head < n ∧ w'.proc.exporterAckedBlock ≠ w.proc.exporterAckedBlock ∧
        w'.proc.head < w'.proc.exporterAckedBlock ∧
        Uint32.sub w'.proc.head w'.proc.exporterAckedBlock = Uint32.max ∧
        waitsForAck w'.options w'.proc = true :=
  ⟨oneBlock, 2, by decide, by decide, by decide⟩

end Chronicle
