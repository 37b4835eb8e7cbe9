import Chronicle.Scan.Told
import Chronicle.Scan.Retained

/-!
# What a consumer keeps

A consumer that collects the events of each block, and at a fork throws away the blocks from its
number on, keeps just the events of the results that the receiver retains, as if there had been no
other results.  What it keeps depends neither on the blocks that were replaced, nor on the time
and the depth of the forks, nor on the pauses.
-/

namespace Chronicle

open Store Effect

variable {Abi : Type} (lib : Abieos Abi)

/-! ## The consumer -/

/-- Completed blocks with their events, and the events since the last of them. -/
structure Collected where
  blocks : List (Nat × List Event) := []
  pending : List Event := []

/-- What the consumer does with an event. -/
def Collected.take (k : Collected) : Event → Collected
  | .receiverPause _ => k
  | .fork e => { blocks := Chain.cut e.blockNum k.blocks }
  | .blockCompleted e =>
    { blocks := k.blocks ++ [(e.blockNum, k.pending ++ [.blockCompleted e])] }
  | e => { k with pending := k.pending ++ [e] }

/-- The events of blocks, from those of the results one after the other. -/
def chainEvents (o : Options) (abis : Table Name Bytes) (ds : List Delivery) :
    List (Nat × List Event) :=
  emits (fun abis d ↦ applyAbis lib abis d.2.accounts)
    (fun abis d ↦ [(d.1.blockNum,
      blockEvents lib o (stateOf d.1 d.2) (d.2.remembered ⟨{}, 0⟩) abis d.2)]) abis ds

/-- Every result that is delivered comes with its block, as the receiver asks for it. -/
def Informed (w : World Abi) (i : Input) : Prop :=
  ∀ d ∈ delivered w i, d.2.block.isSome

instance (w : World Abi) (i : Input) : Decidable (Informed w i) :=
  inferInstanceAs (Decidable (∀ _ ∈ _, _))

section Consumer

variable {k : Collected} {es : List Event}

/-- Pauses leave the consumer alone. -/
theorem foldl_take_told (es : List Event) (k : Collected) :
    (es.filter Event.telling).foldl Collected.take k = es.foldl Collected.take k := by
  induction es generalizing k with
  | nil => rfl
  | cons e es ih =>
      cases e with
      | receiverPause _ => exact ih k
      | _ => exact ih _

/-- Events of a block are collected. -/
theorem foldl_take_inside {b : Nat} (h : ∀ e ∈ es, e.Inside b) (k : Collected) :
    es.foldl Collected.take k = { k with pending := k.pending ++ es } := by
  induction es generalizing k with
  | nil => rw [List.append_nil]; rfl
  | cons e es ih =>
      have he := h e List.mem_cons_self
      have hstep : k.take e = { k with pending := k.pending ++ [e] } := by
        cases e with
        | fork _ | receiverPause _ | blockCompleted _ => exact he.elim
        | _ => rfl
      rw [List.foldl_cons, hstep, ih fun e he ↦ h e (List.mem_cons_of_mem _ he)]
      rw [List.append_assoc, List.singleton_append]

/-- A whole block, if none was begun. -/
theorem foldl_take_block {b : Nat} {e : BlockFinished} (h : ∀ e ∈ es, e.Inside b)
    (he : e.blockNum = b) (blocks : List (Nat × List Event)) :
    (es ++ [Event.blockCompleted e]).foldl Collected.take ⟨blocks, []⟩ =
      ⟨blocks ++ [(b, es ++ [Event.blockCompleted e])], []⟩ := by
  rw [List.foldl_append, foldl_take_inside h, ← he]
  rfl

end Consumer

/-! ## The retained results -/

section Retained

variable {lib} {o : Options} {t : Tables} {s : StateObject} {ds : List Delivery} {d : Delivery}
  {abis : Table Name Bytes}

/-- The current ABIs after results depend on those before them only. -/
theorem effects_contractAbi (t : Tables) (ds : List Delivery) :
    (effects lib t ds).contractAbi =
      ds.foldl (fun abis d ↦ applyAbis lib abis d.2.accounts) t.contractAbi := by
  induction ds generalizing t with
  | nil => rfl
  | cons d ds ih =>
      change (effects lib (blockEffect lib d.1 d.2 t) ds).contractAbi = _
      rw [ih, blockEffect_contractAbi]
      rfl

/-- Results that fit are above the position, with ascending numbers. -/
theorem Fit.sorted (h : Fit lib o t s ds) :
    ds.Pairwise (fun d e ↦ d.1.blockNum < e.1.blockNum) ∧ ∀ d ∈ ds, s.head < d.1.blockNum := by
  induction ds generalizing t s with
  | nil => exact ⟨List.Pairwise.nil, nofun⟩
  | cons d ds ih =>
      obtain ⟨hsorted, habove⟩ := ih h.2
      have hnext := h.1.next
      refine ⟨List.pairwise_cons.mpr ⟨habove, hsorted⟩, fun e he ↦ ?_⟩
      rcases List.mem_cons.mp he with rfl | he
      · omega
      · have hlt : d.1.blockNum < e.1.blockNum := habove e he
        omega

/-- A cut leaves the blocks of the results below it. -/
theorem cut_chainEvents (h : Fit lib o t s ds) (f : Nat) :
    Chain.cut f (chainEvents lib o abis ds) =
      chainEvents lib o abis (ds.filter (·.1.blockNum < f)) := cut_emits f h.sorted.1

/-- One more result. -/
theorem chainEvents_concat (ds : List Delivery) (d : Delivery) :
    chainEvents lib o abis (ds ++ [d]) = chainEvents lib o abis ds ++ [(d.1.blockNum,
      blockEvents lib o (stateOf d.1 d.2) (d.2.remembered ⟨{}, 0⟩)
        (ds.foldl (fun abis d ↦ applyAbis lib abis d.2.accounts) abis) d.2)] :=
  emits_append abis ds [d]

end Retained

/-! ## Runs -/

/-- What a consumer keeps that has handled all that was published. -/
def World.collected (w : World Abi) : Collected := (published w.log).foldl Collected.take {}

theorem World.collected_of_told {w w' : World Abi} {es : List Event}
    (h : told w'.log = told w.log ++ es) : w'.collected = es.foldl Collected.take w.collected := by
  rw [World.collected, World.collected, ← foldl_take_told, ← foldl_take_told (published w.log),
    ← List.foldl_append]
  exact congrArg (List.foldl Collected.take {}) h

/-- A process that started on given tables, and a consumer that had some blocks before. -/
structure Collecting (o : Options) (t : Tables) (s : StateObject) (before : List (Nat × List Event))
    (p : Retaining Abi) (r : Reporter) : Prop where
  retains : Retains lib o t s p
  reports : Reports lib o p.world r
  collected : p.world.collected = ⟨before ++ chainEvents lib o t.contractAbi p.blocks, []⟩

section Steps

variable {lib} {o : Options} {t : Tables} {s : StateObject} {before : List (Nat × List Event)}
  {w : World Abi} {ds : List Delivery} {r : Reporter} {d : Delivery} {i : Input}

/-- A result changes what is kept as it changes what is retained. -/
theorem Collecting.report (h : Collecting lib o t s before ⟨w, ds⟩ r)
    (hbefore : ∀ g ∈ before, g.1 ≤ s.head) (hpos : w.proc.position = lastPosition s ds)
    (hfollow : d.1.blockNum = w.proc.head + 1 ∨ (d.2.lastIrreversible.blockNum < d.1.blockNum ∧
      d.1.blockNum ≤ w.proc.head ∧ s.head < d.1.blockNum))
    (habis : (r.scanner.placed d).current =
      effects lib t (ds.filter (·.1.blockNum < d.1.blockNum)))
    (hown : d.2.remembered r.heading = d.2.remembered ⟨{}, 0⟩) :
    (r.report lib o d).foldl Collected.take ⟨before ++ chainEvents lib o t.contractAbi ds, []⟩ =
      ⟨before ++ chainEvents lib o t.contractAbi
        (ds.filter (·.1.blockNum < d.1.blockNum) ++ [d]), []⟩ := by
  have hfit : Fit lib o t s ds := h.retains.fit
  have hhead : r.scanner.position.head = w.proc.head :=
    (congrArg StateObject.head h.reports.follows.position).symm
  have hlast : w.proc.head = s.head + ds.length :=
    (congrArg StateObject.head hpos).trans hfit.head
  have hcut : (if d.2.lastIrreversible.blockNum < d.1.blockNum ∧
        d.1.blockNum ≤ r.scanner.position.head then
      [networkFork d.1.blockNum d.2.lastIrreversible.blockNum r.scanner.position.head]
    else []).foldl Collected.take ⟨before ++ chainEvents lib o t.contractAbi ds, []⟩ =
      ⟨before ++ chainEvents lib o t.contractAbi (ds.filter (·.1.blockNum < d.1.blockNum)),
        []⟩ := by
    rw [hhead]
    rcases hfollow with hnext | ⟨hopen, hle, habove⟩
    · have hall : ds.filter (·.1.blockNum < d.1.blockNum) = ds := by
        rw [hfit.filter_lt, List.take_of_length_le (by omega)]
      rw [if_neg (by omega), hall]
      rfl
    · rw [if_pos ⟨hopen, hle⟩]
      have hold : Chain.cut d.1.blockNum before = before :=
        Chain.cut_eq_self fun g hg ↦ (hbefore g hg).trans_lt habove
      change Collected.mk (Chain.cut d.1.blockNum (before ++ chainEvents lib o t.contractAbi ds)) [] = _
      rw [Chain.cut, List.filter_append]
      exact congrArg (Collected.mk · []) (congrArg₂ (· ++ ·) hold (cut_chainEvents hfit _))
  obtain ⟨es, hes, hin⟩ := blockEvents_eq lib o (stateOf d.1 d.2) (d.2.remembered ⟨{}, 0⟩)
    (ds.filter (·.1.blockNum < d.1.blockNum) |>.foldl
      (fun abis d ↦ applyAbis lib abis d.2.accounts) t.contractAbi) d.2
  rw [finishedEvent] at hes
  rw [Reporter.report, List.foldl_append, hcut, hown, habis, effects_contractAbi, hes,
    foldl_take_block hin rfl, chainEvents_concat, hes, List.append_assoc]
  rfl

theorem Steady.noStart (h : Steady i) : i.NoStart := by
  cases i with
  | start o => exact h.elim
  | _ => trivial

/-- The heading of a block that comes with its result. -/
theorem remembered_of_block {result : GetBlocksResult}
    (hread : result.ReadableBlock) (hblock : result.block.isSome) (own own' : Heading) :
    result.remembered own = result.remembered own' := by
  obtain ⟨bin, hbin⟩ := Option.isSome_iff_exists.mp hblock
  have hok := hread bin hbin
  rw [GetBlocksResult.remembered, GetBlocksResult.remembered, hbin]
  cases bin with
  | error what => exact absurd hok Bool.false_ne_true
  | ok block => rfl

/-- A result that is processed is put on what is retained below it. -/
theorem placed_retained (h : Retains lib o t s ⟨w, ds⟩) (hreports : Reports lib o w r)
    (hd : delivered w i = some d) (hfollow : FollowsHead s.head w i) (hp : Processed lib w i) :
    w.proc.position = lastPosition s ds ∧
      (r.scanner.placed d).current = effects lib t (ds.filter (·.1.blockNum < d.1.blockNum)) := by
  obtain ⟨queueSize, rfl, hblock, hread⟩ := delivered_eq_some hd
  obtain ⟨w₁, w₂, ha, -, -⟩ := processed_receive lib hblock hread hp
  have haccept : Accept d.1 d.2 w.counted (.ok () w₁) :=
    ha ▸ acceptPosition_cases d.1 d.2 (w := w.counted) hreports.scanning.mode
  have hpos := h.position (running_of_reading hread)
  have hholds := (h.accept (d := d) hpos haccept (hfollow _ hd)).1
  exact ⟨hpos, (hreports.placed haccept).symm.trans hholds.current⟩

/-- Every input of a process that follows the stream keeps what is known of the consumer. -/
theorem Collecting.exec {p : Retaining Abi} (h : Collecting lib o t s before p r)
    (hbefore : ∀ g ∈ before, g.1 ≤ s.head) (hi : Steady i) (hfollow : FollowsHead s.head p.world i)
    (hp : Processed lib p.world i) (hinformed : Informed p.world i) :
    ∃ r', Collecting lib o t s before (p.exec lib i) r' := by
  obtain ⟨w, ds⟩ := p
  have hretains := h.retains.exec lib hi hfollow hp
  obtain ⟨hreports, htold⟩ := h.reports.exec hi.noStart hp
  refine ⟨_, hretains, hreports, ?_⟩
  change (Chronicle.exec lib w i).collected = _
  rw [World.collected_of_told htold, h.collected]
  rw [Retaining.exec] at hretains ⊢
  cases hd : delivered w i with
  | none => rfl
  | some d =>
      obtain ⟨hpos, hcur⟩ := placed_retained h.retains h.reports hd hfollow hp
      rw [hd] at hretains
      have hfits := (fit_append.mp hretains.fit).2.1
      change (r.report lib o d ++ []).foldl Collected.take _ = _
      rw [List.append_nil]
      exact h.report hbefore hpos (hfollow _ hd) hcur
        (remembered_of_block hfits.readable (hinformed _ hd) _ _)

end Steps

/-- **A process in scan mode follows a stream and processes all of it, with forks of any depth at
any time.  A consumer that had nothing above the head when the process started keeps what it had,
and besides it just the events of the retained results, each from the ABIs that those below it
have left.** -/
theorem collected_events (before : List Input) {o : Options} (ho : o.interactiveMode = false)
    (hbefore : Run.Guarded (exec lib) (fun _ i ↦ ScanInput i) newWorld before)
    {w₀ w₁ : World Abi} (hw₀ : w₀ = run lib newWorld before) (hw₁ : w₁ = exec lib w₀ (.start o))
    (hbase : w₀.db.base ≤ w₁.proc.head) (hpending : w₁.collected.pending = [])
    (hbelow : ∀ g ∈ w₁.collected.blocks, g.1 ≤ w₁.proc.head) (inputs : List Input)
    (hrun : Run.Guarded (Retaining.exec lib)
      (fun p i ↦ Steady i ∧ FollowsHead w₁.proc.head p.world i ∧ Processed lib p.world i ∧
        Informed p.world i) ⟨w₁, []⟩ inputs)
    {p : Retaining Abi} (hp : p = inputs.foldl (Retaining.exec lib) ⟨w₁, []⟩) :
    p.world.collected = ⟨w₁.collected.blocks ++ chainEvents lib o w₁.db.current.contractAbi p.blocks, []⟩ := by
  obtain ⟨hscan, hrows⟩ : Scanning w₀ ∧ AbisDecodeDb lib w₀.db :=
    hw₀ ▸ decodable_run lib hbefore
  subst hw₁
  have hstart := start_cases lib ho w₀
  have hdb : (exec lib w₀ (.start o)).db = w₀.db.undoAll := by
    cases hstart with
    | loaded hl => exact hl.db
    | rejected hr => exact hr.db
  have hposition : (exec lib w₀ (.start o)).proc.position =
      startPosition o w₀.db.undoAll.current := by
    cases hstart with
    | loaded hl => exact hl.position
    | rejected hr => exact hr.position
  have hhead : (exec lib w₀ (.start o)).proc.head =
      (startPosition o w₀.db.undoAll.current).head := congrArg StateObject.head hposition
  rw [hhead] at hbase hbelow hrun
  rw [hdb]
  have hfirst : Collecting lib o w₀.db.undoAll.current (startPosition o w₀.db.undoAll.current)
      (exec lib w₀ (.start o)).collected.blocks ⟨exec lib w₀ (.start o), []⟩
      (Reporter.start o w₀.db) := by
    refine ⟨(hstart.retains lib ho hbase).1, (reports_start lib ho hscan hrows).1, ?_⟩
    rw [← hpending]
    change _ = Collected.mk (_ ++ []) _
    rw [List.append_nil]
  have hall := hrun.invariant
    (I := fun p ↦ ∃ r, Collecting lib o w₀.db.undoAll.current
      (startPosition o w₀.db.undoAll.current) (exec lib w₀ (.start o)).collected.blocks p r)
    (fun p i h hi ↦ h.elim fun r h ↦ h.exec hbelow hi.1 hi.2.1 hi.2.2.1 hi.2.2.2) ⟨_, hfirst⟩
  rw [← hp] at hall
  obtain ⟨r, hkeeping⟩ := hall
  exact hkeeping.collected

/-- The second of two blocks is replaced, and the third comes after the new one. -/
def collectedInputs : List Input :=
  [.ready 0, .result { abiResult ⟨1, 1⟩ 0 0 [⟨7, [1]⟩] with block := some (.ok {}) },
    .slowdown true, .result { abiResult ⟨2, 2⟩ 1 0 [⟨7, []⟩] with block := some (.ok {}) },
    .slowdown false, .timer 0, .result { bareResult ⟨2, 3⟩ 1 0 with block := some (.ok {}) },
    .result { abiResult ⟨3, 4⟩ 3 1 [⟨7, []⟩] with block := some (.ok {}) }]

set_option maxRecDepth 10000 in
/-- The ABI that the replaced block had removed is there again, and is removed by the third. -/
theorem collected_events_replaced :
    let p : Retaining Bytes :=
      collectedInputs.foldl (Retaining.exec .tagged) ⟨exec .tagged newWorld (.start {}), []⟩
    p.world.collected = ⟨chainEvents .tagged {} ∅ p.blocks, []⟩ ∧
      p.blocks.map (·.1) = [⟨1, 1⟩, ⟨2, 3⟩, ⟨3, 4⟩] := by
  have hrun : Run.Guarded (Retaining.exec .tagged)
      (fun p i ↦ Steady i ∧ FollowsHead 0 p.world i ∧ Processed .tagged p.world i ∧
        Informed p.world i) ⟨exec .tagged newWorld (.start {}), []⟩ collectedInputs := by
    decide +kernel
  have hnone : (exec .tagged newWorld (.start {})).collected = {} := rfl
  have hbelow : ∀ g ∈ (exec .tagged newWorld (.start {})).collected.blocks, g.1 ≤ 0 := by
    rw [hnone]
    nofun
  exact ⟨collected_events .tagged [] rfl trivial rfl rfl (by decide) rfl hbelow collectedInputs hrun rfl,
    by decide +kernel⟩

end Chronicle
