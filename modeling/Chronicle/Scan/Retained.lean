import Chronicle.Scan.Ordered

/-!
# Retained blocks

A fork takes back what the replaced blocks did.  After a run with forks the tables are those
that the retained results make one after the other; and a receiver that is given just the
retained results makes them, too, if it accepts each.  It is the check of the previous
block that may refuse one: the branch for forks does not have it
(`retained_not_linked`).
-/

namespace Chronicle

open Store Effect

variable {Abi : Type} (lib : Abieos Abi)

/-- A result, with the position of its block. -/
abbrev Delivery := BlockPosition × GetBlocksResult

/-! ## Results one after the other -/

/-- The tables after results, given those before them. -/
def effects (t : Tables) (ds : List Delivery) : Tables :=
  ds.foldl (fun t d ↦ blockEffect lib d.1 d.2 t) t

/-- The position after results. -/
def lastPosition (s : StateObject) (ds : List Delivery) : StateObject :=
  ds.foldl (fun _ d ↦ stateOf d.1 d.2) s

/-- A result for the block above a position that can be processed on given tables. -/
structure Fits (o : Options) (t : Tables) (s : StateObject) (d : Delivery) : Prop where
  block : d.2.thisBlock = some d.1
  next : d.1.blockNum = s.head + 1
  irreversible : s.irreversible ≤ d.2.lastIrreversible.blockNum
  readable : d.2.ReadableBlock
  storable : Storable o d.1 d.2 t
  traces : d.2.ReadableTraces o

/-- Results that fit one after the other. -/
def Fit (o : Options) : Tables → StateObject → List Delivery → Prop
  | _, _, [] => True
  | t, s, d :: ds => Fits o t s d ∧ Fit o (blockEffect lib d.1 d.2 t) (stateOf d.1 d.2) ds

section Results

variable {lib} {o : Options} {t : Tables} {s : StateObject} {ds ds' : List Delivery} {d : Delivery}

theorem effects_append : effects lib t (ds ++ ds') = effects lib (effects lib t ds) ds' :=
  List.foldl_append

theorem lastPosition_append : lastPosition s (ds ++ ds') = lastPosition (lastPosition s ds) ds' :=
  List.foldl_append

theorem fit_append : Fit lib o t s (ds ++ ds') ↔
    Fit lib o t s ds ∧ Fit lib o (effects lib t ds) (lastPosition s ds) ds' := by
  induction ds generalizing t s with
  | nil => simp [Fit, effects, lastPosition]
  | cons d ds ih =>
      rw [List.cons_append, Fit, Fit, ih, and_assoc]
      rfl

theorem Fit.take (h : Fit lib o t s ds) (n : Nat) : Fit lib o t s (ds.take n) := by
  rw [← List.take_append_drop n ds] at h
  exact (fit_append.mp h).1

/-- The blocks are numbered without gaps. -/
theorem Fit.head (h : Fit lib o t s ds) : (lastPosition s ds).head = s.head + ds.length := by
  induction ds generalizing t s with
  | nil => rfl
  | cons d ds ih =>
      have hrest := ih h.2
      have hnext := h.1.next
      rw [List.length_cons]
      change (lastPosition (stateOf d.1 d.2) ds).head = _
      rw [hrest]
      change d.1.blockNum + _ = _
      omega

/-- The irreversible block does not go down. -/
theorem Fit.irreversible_le (h : Fit lib o t s ds) :
    s.irreversible ≤ (lastPosition s ds).irreversible := by
  induction ds generalizing t s with
  | nil => exact le_rfl
  | cons d ds ih => exact h.1.irreversible.trans (ih h.2)

theorem Fit.irreversible_take_le (h : Fit lib o t s ds) (n : Nat) :
    (lastPosition s (ds.take n)).irreversible ≤ (lastPosition s ds).irreversible := by
  rw [← List.take_append_drop n ds] at h
  have hrest := (fit_append.mp h).2.irreversible_le
  rwa [← lastPosition_append, List.take_append_drop] at hrest

/-- The blocks below a number come first. -/
theorem Fit.filter_lt (h : Fit lib o t s ds) (b : Nat) :
    ds.filter (·.1.blockNum < b) = ds.take (b - 1 - s.head) := by
  induction ds generalizing t s with
  | nil => rw [List.filter_nil, List.take_nil]
  | cons d ds ih =>
      have hnext := h.1.next
      have hrest : ds.filter (·.1.blockNum < b) = ds.take (b - 1 - d.1.blockNum) := ih h.2
      by_cases hlt : d.1.blockNum < b
      · have hsub : b - 1 - s.head = (b - 1 - d.1.blockNum) + 1 := by omega
        rw [List.filter_cons_of_pos (by simpa using hlt), hrest, hsub, List.take_succ_cons]
      · have hsub : b - 1 - s.head = 0 := by omega
        have hsub' : b - 1 - d.1.blockNum = 0 := by omega
        rw [List.filter_cons_of_neg (by simpa using hlt), hrest, hsub, hsub', List.take_zero,
          List.take_zero]

end Results

/-! ## The database -/

/-- The revisions of a database that holds results, each processed on the one before it,
from given tables at block `h` on. -/
structure HoldsFrom (t : Tables) (h : Nat) (ds : List Delivery) (db : Undo Tables) : Prop where
  revision : db.revision = h + ds.length
  base : h ≤ db.base
  revisions : ∀ r t', db.at? r = some t' → t' = effects lib t (ds.take (r - h))

/-- A database that holds results, or that no result has been stored in yet. -/
def Holds (t : Tables) (h : Nat) (ds : List Delivery) (db : Undo Tables) : Prop :=
  HoldsFrom lib t h ds db ∨ (ds = [] ∧ db.stack = [] ∧ db.revision ≤ h ∧ db.current = t)

section Database

variable {lib} {t : Tables} {h : Nat} {ds : List Delivery} {d : Delivery} {db db' : Undo Tables}

theorem HoldsFrom.current (hdb : HoldsFrom lib t h ds db) : db.current = effects lib t ds := by
  have hcur := hdb.revisions _ _ db.at?_revision
  rwa [hdb.revision, Nat.add_sub_cancel_left, List.take_length] at hcur

theorem Holds.current (hdb : Holds lib t h ds db) : db.current = effects lib t ds := by
  rcases hdb with hdb | ⟨rfl, -, -, hcur⟩
  · exact hdb.current
  · exact hcur

theorem HoldsFrom.commit (hdb : HoldsFrom lib t h ds db) (c : Nat) :
    HoldsFrom lib t h ds (db.commit c) :=
  ⟨(db.revision_commit c).trans hdb.revision, hdb.base.trans (le_max_left ..),
    fun r t' ht ↦ hdb.revisions r t' (Undo.at?_commit_eq_some ht)⟩

theorem Holds.commit (hdb : Holds lib t h ds db) (c : Nat) : Holds lib t h ds (db.commit c) := by
  rcases hdb with hdb | hfresh
  · exact .inl (hdb.commit c)
  · rw [Undo.commit_of_stack_nil hfresh.2.1]
    exact .inr hfresh

/-- The revision is raised to the block below the next one. -/
theorem Holds.raised (hdb : Holds lib t h ds db) {b : Nat} (hr : raisedDb b db = some db')
    (hb : b = h + ds.length + 1) : HoldsFrom lib t h ds db' := by
  subst hb
  have hpred : Uint32.pred (h + ds.length + 1) = h + ds.length :=
    Uint32.pred_of_pos (Nat.succ_pos _)
  rcases hdb with hdb | ⟨rfl, hnil, hrev, hcur⟩
  · rcases raisedDb_eq_some hr with ⟨-, rfl⟩ | ⟨hlt, -, -⟩
    · exact hdb
    · rw [hpred, hdb.revision] at hlt
      exact absurd hlt (lt_irrefl _)
  · rw [List.length_nil, Nat.add_zero] at hpred hr
    have hbase := Undo.revision_of_stack_nil hnil
    rcases raisedDb_eq_some hr with ⟨hle, rfl⟩ | ⟨-, -, rfl⟩
    · refine ⟨by rw [List.length_nil]; omega, by omega, fun r t' ht ↦ ?_⟩
      rw [(Undo.at?_of_stack_nil hnil ht).2, hcur, List.take_nil]
      rfl
    · refine ⟨hpred, hpred.ge, fun r t' ht ↦ ?_⟩
      rw [(Undo.at?_mk_nil ht).2, hcur, List.take_nil]
      rfl

/-- A rollback leaves the results below the block. -/
theorem Holds.rollback (hdb : Holds lib t h ds db) {b : Nat} {db₁ : Undo Tables}
    (hr : raisedDb b db = some db₁) (hroll : db₁.rollback b = some db') (hlt : h < b)
    (hle : b ≤ h + ds.length) : HoldsFrom lib t h (ds.take (b - 1 - h)) db' := by
  obtain ⟨hbase, hrev, -, hat⟩ := Undo.rollback_spec hroll
  rcases hdb with hdb | ⟨rfl, -, -, -⟩
  · have hdbrev := hdb.revision
    obtain rfl : db₁ = db := by
      rcases raisedDb_eq_some hr with ⟨-, h⟩ | ⟨hlt, -, -⟩
      · exact h
      · rw [Uint32.pred_of_pos (by omega)] at hlt
        omega
    refine ⟨?_, hbase ▸ hdb.base, fun r t' ht ↦ ?_⟩
    · rw [hrev, List.length_take]
      omega
    · have hle' := Undo.le_revision_of_at? ht
      rw [List.take_take, min_eq_left (by omega)]
      exact hdb.revisions r t' (hat r hle' ▸ ht)
  · rw [List.length_nil] at hle
    omega

/-- One more result is stored. -/
theorem HoldsFrom.session (hdb : HoldsFrom lib t h ds db) (d : Delivery) :
    HoldsFrom lib t h (ds ++ [d]) (db.startUndoSession.modify (blockEffect lib d.1 d.2)) := by
  refine ⟨?_, hdb.base, fun r t' ht ↦ ?_⟩
  · rw [Undo.revision_modify, Undo.revision_startUndoSession, hdb.revision, List.length_append]
    rfl
  · rcases Undo.at?_session_eq_some ht with ⟨hle, ht⟩ | ⟨rfl, rfl⟩
    · rw [hdb.revision] at hle
      rw [List.take_append_of_le_length (by omega)]
      exact hdb.revisions r t' ht
    · have hlen : h + ds.length + 1 - h = (ds ++ [d]).length := by simp; omega
      rw [hdb.revision, hlen, List.take_length, effects_append, ← hdb.current]
      rfl

end Database

/-! ## Runs -/

/-- A receiver, and the results that it retains. -/
structure Retaining (Abi : Type) where
  world : World Abi
  blocks : List Delivery

/-- The result of a block replaces those of its number and above. -/
def Retaining.exec (p : Retaining Abi) (i : Input) : Retaining Abi :=
  { world := Chronicle.exec lib p.world i
    blocks := match delivered p.world i with
      | none => p.blocks
      | some d => p.blocks.filter (·.1.blockNum < d.1.blockNum) ++ [d] }

/-- The process is not restarted. -/
def Steady : Input → Prop
  | .start _ => False
  | _ => True

instance : (i : Input) → Decidable (Steady i)
  | .start _ => .isFalse not_false
  | .ready _ | .receive _ _ | .timer _ | .ack _ | .slowdown _ | .stale | .decode _ | .request _
  | .scanner _ => .isTrue trivial

theorem Steady.scanInput {i : Input} (h : Steady i) : ScanInput i := by
  cases i with
  | start o => exact h.elim
  | _ => trivial

/-- What is known of a process that has started on tables `t` at position `s`. -/
structure Retains (o : Options) (t : Tables) (s : StateObject) (p : Retaining Abi) : Prop where
  scanning : Scanning p.world
  options : p.world.options = o
  fit : Fit lib o t s p.blocks
  position : Running p.world → p.world.proc.position = lastPosition s p.blocks
  db : Holds lib t s.head p.blocks p.world.db

section Steps

variable {lib} {o : Options} {t : Tables} {s : StateObject} {d : Delivery}
  {w w₁ w' : World Abi} {ds : List Delivery}

theorem Retains.calm (h : Retains lib o t s ⟨w, ds⟩) (hc : Calm w w') :
    Retains lib o t s ⟨w', ds⟩ where
  scanning := h.scanning.calm hc
  options := hc.options.trans h.options
  fit := h.fit
  position hrun := hc.position.trans (h.position (hc.running hrun))
  db := show Holds lib t s.head ds w'.db from hc.db ▸ h.db

theorem Retains.ended (h : Retains lib o t s ⟨w, ds⟩) (hend : Ended w w') :
    Retains lib o t s ⟨w', ds⟩ where
  scanning := h.scanning.ended hend
  options := hend.options.trans h.options
  fit := h.fit
  position hrun := absurd hrun hend.stopped
  db := show Holds lib t s.head ds w'.db from hend.db ▸ h.db.commit _

theorem Retains.next (h : Retains lib o t s ⟨w, ds⟩) (hnext : Next w w') :
    Retains lib o t s ⟨w', ds⟩ := by
  cases hnext with
  | idle hidle => exact h.calm hidle.toCalm
  | ended hend => exact h.ended hend

/-- A process whose next block was accepted holds what is retained below the block. -/
theorem Retains.accept (h : Retains lib o t s ⟨w, ds⟩)
    (hpos : w.proc.position = lastPosition s ds)
    (haccept : Accept d.1 d.2 w.counted (.ok () w₁))
    (hb : d.1.blockNum = w.proc.head + 1 ∨ (d.2.lastIrreversible.blockNum < d.1.blockNum ∧
      d.1.blockNum ≤ w.proc.head ∧ s.head < d.1.blockNum)) :
    HoldsFrom lib t s.head (ds.filter (·.1.blockNum < d.1.blockNum)) w₁.db ∧
      (lastPosition s (ds.filter (·.1.blockNum < d.1.blockNum))).head + 1 = d.1.blockNum ∧
      (lastPosition s (ds.filter (·.1.blockNum < d.1.blockNum))).irreversible ≤
        d.2.lastIrreversible.blockNum := by
  have hfit : Fit lib o t s ds := h.fit
  have hdb : Holds lib t s.head ds w.db := h.db
  have hhead : w.proc.head = s.head + ds.length := (congrArg StateObject.head hpos).trans hfit.head
  have hirr : (lastPosition s ds).irreversible = w.proc.irreversible :=
    (congrArg StateObject.irreversible hpos).symm
  have hext : ∀ {db}, raisedDb d.1.blockNum w.db = some db →
      w.proc.irreversible ≤ d.2.lastIrreversible.blockNum → d.1.blockNum = w.proc.head + 1 →
      HoldsFrom lib t s.head (ds.filter (·.1.blockNum < d.1.blockNum)) db ∧
        (lastPosition s (ds.filter (·.1.blockNum < d.1.blockNum))).head + 1 = d.1.blockNum ∧
        (lastPosition s (ds.filter (·.1.blockNum < d.1.blockNum))).irreversible ≤
          d.2.lastIrreversible.blockNum := by
    intro db hraised hle hnext
    have hall : ds.filter (·.1.blockNum < d.1.blockNum) = ds := by
      rw [hfit.filter_lt, List.take_of_length_le (by omega)]
    rw [hall, hfit.head]
    exact ⟨hdb.raised hraised (by omega), by omega, hirr.trans_le hle⟩
  cases haccept with
  | forked hopen hle hroll _ =>
      change d.1.blockNum ≤ w.proc.head at hle
      obtain ⟨-, -, hlt⟩ := hb.resolve_left (by omega)
      rw [hfit.filter_lt]
      refine ⟨hdb.rollback hopen.raised hroll hlt (by omega), ?_, ?_⟩
      · rw [(hfit.take _).head, List.length_take]
        omega
      · exact (hfit.irreversible_take_le _).trans (hirr.trans_le hopen.irreversible)
  | extended hopen habove _ =>
      change w.proc.head < d.1.blockNum at habove
      exact hext hopen.raised hopen.irreversible (by omega)
  | unchecked hle hraised hbelow => exact hext hraised hle (by omega)

/-- A processed block is retained. -/
theorem ProcessBlock.retains (hprocess : ProcessBlock lib d.1 d.2 w₁ (.ok () w'))
    (hopt : w₁.options = o) (hat : AtBlock d.1 d.2 w₁) (hc : w₁.proc.Cached)
    (hscan : o.interactiveMode = false) (hfit : Fit lib o t s ds)
    (hdb : HoldsFrom lib t s.head ds w₁.db)
    (hblock : d.2.thisBlock = some d.1) (hnext : (lastPosition s ds).head + 1 = d.1.blockNum)
    (hirr : (lastPosition s ds).irreversible ≤ d.2.lastIrreversible.blockNum) :
    Retains lib o t s ⟨w', ds ++ [d]⟩ ∧ w'.proc.position = lastPosition s (ds ++ [d]) := by
  have hframe := hprocess.frame hc
  have hscan' : Scanning w' := ⟨hframe.1 ▸ hopt ▸ hscan, hframe.2.2⟩
  have hpos : w'.proc.position = lastPosition s (ds ++ [d]) := by
    rw [lastPosition_append]
    exact (Proc.member_eq hframe.2.1 Proc.position fun _ ↦ rfl).trans hat
  cases hprocess with
  | completed hread hstore htraces hstored hw =>
      rw [hopt] at hstore htraces
      rw [hdb.current] at hstore
      refine ⟨⟨hscan', hframe.1.trans hopt, fit_append.mpr ⟨hfit, ?_, trivial⟩, fun _ ↦ hpos,
        .inl ?_⟩, hpos⟩
      · exact ⟨hblock, hnext.symm, hirr, hread, hstore, htraces⟩
      · change HoldsFrom lib t s.head (ds ++ [d]) (World.db _)
        rw [hw.2, hstored.db]
        exact (hdb.session d).commit _

theorem Fit.filter (h : Fit lib o t s ds) (b : Nat) :
    Fit lib o t s (ds.filter (·.1.blockNum < b)) := by
  rw [h.filter_lt]
  exact h.take _

end Steps

/-- Every input of a steady process that follows the stream keeps what is known of it. -/
theorem Retains.exec {o : Options} {t : Tables} {s : StateObject} {p : Retaining Abi} {i : Input}
    (h : Retains lib o t s p) (hi : Steady i) (hfollow : FollowsHead s.head p.world i)
    (hp : Processed lib p.world i) : Retains lib o t s (p.exec lib i) := by
  obtain ⟨w, ds⟩ := p
  rw [Retaining.exec]
  cases h.scanning.exec_cases lib hi.scanInput with
  | idle hidle hnone =>
      rw [hnone]
      exact h.calm hidle.toCalm
  | acked _ hw => exact hw ▸ h.calm (calm_ackedBy _ w)
  | decoded hw => exact hw ▸ h.calm (calm_decoded lib _ w)
  | ended hidle hend hnone =>
      rw [hnone]
      exact (h.calm hidle.toCalm).ended hend
  | started hs => exact hi.elim
  | @received block result queueSize _ hblock hread hr =>
      have hd := delivered_receive queueSize hblock hread
      have hok := hp _ hd
      rw [hd]
      cases hr with
      | refused _ _ hresult =>
          rw [hresult] at hok
          exact False.elim hok
      | broken _ _ _ hresult =>
          rw [hresult] at hok
          exact False.elim hok
      | completed haccept hprocess hidle hnext =>
          have hpos := h.position (running_of_reading hread)
          obtain ⟨hdb, hhead, hirr⟩ := h.accept (d := (block, result)) hpos haccept (hfollow _ hd)
          have hframe := haccept.frame h.scanning.cached
          obtain ⟨hretains, -⟩ := hprocess.retains (d := (block, result)) (hframe.1.trans h.options)
            hframe.2.2.2 hframe.2.2.1 (h.options ▸ h.scanning.mode) (h.fit.filter block.blockNum)
            hdb hblock hhead hirr
          exact (hretains.calm hidle.toCalm).next hnext

/-! ## The straight run -/

/-- Results are received one after the other, whatever the reader does in between. -/
def replay (ds : List Delivery) : Receiver Abi Unit :=
  ds.forM fun d ↦ do
    let _ ← receiveResult lib (.ok d.2)

/-- The check of the previous block lets a result for the block above a position through. -/
def LinkedTo (o : Options) (s : StateObject) (d : Delivery) : Prop :=
  d.2.lastIrreversible.blockNum < d.1.blockNum → 0 < s.head → o.startBlockNum < s.head →
    d.2.prevBlock.map BlockPosition.blockId = some s.headId

instance (o : Options) (s : StateObject) (d : Delivery) : Decidable (LinkedTo o s d) :=
  inferInstanceAs (Decidable (_ → _))

/-- Each result has the block of the one before it as its previous block, as far as that is
checked. -/
def Linked (o : Options) : StateObject → List Delivery → Prop
  | _, [] => True
  | s, d :: ds => LinkedTo o s d ∧ Linked o (stateOf d.1 d.2) ds

instance Linked.decidable (o : Options) :
    (s : StateObject) → (ds : List Delivery) → Decidable (Linked o s ds)
  | _, [] => .isTrue trivial
  | _, d :: ds => @instDecidableAnd _ _ _ (Linked.decidable o (stateOf d.1 d.2) ds)

section Replay

variable {lib} {o : Options} {t : Tables} {s : StateObject} {d : Delivery} {ds done : List Delivery}
  {w w₁ : World Abi}

theorem replay_cons (d : Delivery) (ds : List Delivery) (w : World Abi) :
    replay lib (d :: ds) w = match receiveResult lib (.ok d.2) w with
      | .ok _ w' => replay lib ds w'
      | .error e w' => .error e w' := by
  change ((receiveResult lib (.ok d.2) >>= fun _ ↦ pure ()) >>= fun _ ↦ replay lib ds) w = _
  cases hr : receiveResult lib (.ok d.2) w with
  | ok _ w' => exact bind_run (bind_run hr)
  | error e w' => exact bind_run_error (bind_run_error hr)

/-- The revision can always be raised to the block below the next one. -/
theorem Holds.raisedDb_ne_none {h : Nat} {db : Undo Tables} (hdb : Holds lib t h ds db) {b : Nat}
    (hb : b = h + ds.length + 1) : raisedDb b db ≠ none := by
  subst hb
  have hpred : Uint32.pred (h + ds.length + 1) = h + ds.length :=
    Uint32.pred_of_pos (Nat.succ_pos _)
  rw [raisedDb, hpred]
  split_ifs with hlt
  · rcases hdb with hdb | ⟨rfl, hnil, hrev, -⟩
    · rw [hdb.revision] at hlt
      exact absurd hlt (lt_irrefl _)
    · rw [Undo.setRevision, if_pos ⟨hnil, hlt.le⟩]
      simp
  · simp

/-- A block above the head is not checked, or linked to it, if it was accepted. -/
theorem Accept.linkedTo (haccept : Accept d.1 d.2 w.counted (.ok () w₁))
    (hopt : w.options = o) (hpos : w.proc.position = s) (hnext : d.1.blockNum = s.head + 1) :
    LinkedTo o s d := by
  subst hpos hopt
  intro hlt hzero hstart
  cases haccept with
  | forked _ hle =>
      change d.1.blockNum ≤ w.proc.head at hle
      change d.1.blockNum = w.proc.head + 1 at hnext
      omega
  | extended _ _ hd => exact not_not.mp fun hne ↦ hd ⟨hzero, hstart, hne⟩
  | unchecked _ _ hbelow => exact absurd hlt (not_lt.mpr hbelow)

/-- A block above the head is only refused if it is not linked to it. -/
theorem Accept.not_linkedTo {e : Abort} (haccept : Accept d.1 d.2 w.counted (.error e w₁))
    (hopt : w.options = o) (hpos : w.proc.position = s) (hnext : d.1.blockNum = s.head + 1)
    (hirr : s.irreversible ≤ d.2.lastIrreversible.blockNum)
    (hraised : raisedDb d.1.blockNum w.db ≠ none) : ¬ LinkedTo o s d := by
  subst hpos hopt
  change d.1.blockNum = w.proc.head + 1 at hnext
  cases haccept with
  | unmoved hwhy => exact absurd (hwhy hirr) hraised
  | refused hopen _ hd => exact fun h ↦ hd.2.2 (h hopen.above hd.1 hd.2.1)
  | endless _ hle =>
      change d.1.blockNum ≤ w.proc.head at hle
      omega
  | bottom _ hle =>
      change d.1.blockNum ≤ w.proc.head at hle
      omega

/-- Results that fit do not fail once their position was accepted. -/
theorem ProcessBlock.fits {e : Abort} {w' : World Abi}
    (hprocess : ProcessBlock lib d.1 d.2 w (.error e w')) (hopt : w.options = o)
    (hcur : w.db.current = t) (hfits : Fits o t s d) : False := by
  subst hopt hcur
  cases hprocess with
  | unreadable hread => exact hread hfits.readable
  | failed _ hstore => exact hstore hfits.storable
  | untraced _ _ htraces => exact htraces hfits.traces

/-- A process that holds some results and is given results that fit makes the same tables of
them, if it accepts them; and it accepts them if each is linked to the one before. -/
theorem replay_iff (h : Retains lib o t s ⟨w, done⟩)
    (hpos : w.proc.position = lastPosition s done) (hfit : Fit lib o t s (done ++ ds)) :
    (∃ w', replay lib ds w = .ok () w' ∧ w'.db.current = effects lib t (done ++ ds)) ↔
      Linked o (lastPosition s done) ds := by
  induction ds generalizing done w with
  | nil =>
      refine iff_of_true ⟨w, rfl, ?_⟩ trivial
      rw [List.append_nil]
      exact h.db.current
  | cons d ds ih =>
      have hfits : Fits o (effects lib t done) (lastPosition s done) d := (fit_append.mp hfit).2.1
      have hnext : d.1.blockNum = s.head + done.length + 1 := h.fit.head ▸ hfits.next
      have hraised := h.db.raisedDb_ne_none hnext
      have hcases := receiveResult_cases lib h.scanning.mode h.scanning.cached hfits.block
      have hhead : w.proc.head = (lastPosition s done).head := congrArg StateObject.head hpos
      have haccepted : ∀ {w₁}, Accept d.1 d.2 w.counted (.ok () w₁) →
          HoldsFrom lib t s.head done w₁.db ∧ w₁.options = o := by
        intro w₁ haccept
        have hdb := (h.accept hpos haccept (.inl (hhead ▸ hfits.next))).1
        have hfit' : Fit lib o t s done := h.fit
        rw [hfit'.filter_lt, List.take_of_length_le (by omega)] at hdb
        exact ⟨hdb, (haccept.frame h.scanning.cached).1.trans h.options⟩
      rw [replay_cons]
      cases hr : receiveResult lib (.ok d.2) w with
      | error e w' =>
          rw [hr] at hcases
          have hfail : ¬ LinkedTo o (lastPosition s done) d := by
            cases hcases with
            | refused haccept =>
                exact haccept.not_linkedTo h.options hpos hfits.next hfits.irreversible hraised
            | broken haccept hprocess =>
                obtain ⟨hdb, hopt⟩ := haccepted haccept
                exact (hprocess.fits hopt hdb.current hfits).elim
          refine iff_of_false ?_ fun hl ↦ hfail hl.1
          rintro ⟨w', hw', -⟩
          cases hw'
      | ok goOn w' =>
          rw [hr] at hcases
          cases hcases with
          | completed haccept hprocess =>
              have hframe := haccept.frame h.scanning.cached
              obtain ⟨hdb, hopt⟩ := haccepted haccept
              obtain ⟨hretains, hpos'⟩ := hprocess.retains hopt hframe.2.2.2 hframe.2.2.1
                (h.options ▸ h.scanning.mode) h.fit hdb hfits.block hfits.next.symm
                hfits.irreversible
              have hlinked := haccept.linkedTo h.options hpos hfits.next
              have hrest := ih hretains hpos' (by rwa [List.append_assoc])
              rw [List.append_assoc, lastPosition_append] at hrest
              exact hrest.trans ⟨fun hl ↦ ⟨hlinked, hl⟩, And.right⟩

end Replay

/-- A process that has just started holds no result yet. -/
theorem Started.retains {o : Options} {w w' : World Abi} (hs : Started o w w')
    (hmode : o.interactiveMode = false)
    (hbase : w.db.base ≤ (startPosition o w.db.undoAll.current).head) :
    Retains lib o w.db.undoAll.current (startPosition o w.db.undoAll.current) ⟨w', []⟩ ∧
      w'.proc.position = startPosition o w.db.undoAll.current := by
  have hdb : Holds lib w.db.undoAll.current (startPosition o w.db.undoAll.current).head []
      w.db.undoAll := .inr ⟨rfl, rfl, hbase, rfl⟩
  cases hs with
  | loaded hl =>
      exact ⟨⟨⟨hl.options ▸ hmode, hl.cache.cached (Proc.cached_init _)⟩, hl.options, trivial,
        fun _ ↦ hl.position, hl.db ▸ hdb⟩, hl.position⟩
  | rejected hr =>
      exact ⟨⟨⟨hr.options ▸ hmode, hr.cache.cached (Proc.cached_init _)⟩, hr.options, trivial,
        fun _ ↦ hr.position, hr.db ▸ hdb⟩, hr.position⟩

/-- A process starts on a database whose oldest revision is not above its head, and then
processes, without an exception, a stream that follows the head.  Starting from the same
state with just the retained results gives the same tables if and only if each of them
has the one before it as its previous block, as far as that is checked. -/
theorem forks_transparent {o : Options} (hmode : o.interactiveMode = false) {w₀ w₁ : World Abi}
    (hbase : w₀.db.base ≤ (startPosition o w₀.db.undoAll.current).head)
    (hw₁ : w₁ = exec lib w₀ (.start o)) (inputs : List Input)
    (hrun : Run.Guarded (Retaining.exec lib)
      (fun p i ↦ Steady i ∧ FollowsHead w₁.proc.head p.world i ∧ Processed lib p.world i)
      ⟨w₁, []⟩ inputs)
    {p : Retaining Abi} (hp : p = inputs.foldl (Retaining.exec lib) ⟨w₁, []⟩) :
    (∃ w', replay lib p.blocks w₁ = .ok () w' ∧ w'.db.current = p.world.db.current) ↔
      Linked o w₁.proc.position p.blocks := by
  subst hw₁
  obtain ⟨hstart, hpos⟩ := (start_cases lib hmode w₀).retains lib hmode hbase
  have hhead : (exec lib w₀ (.start o)).proc.head =
      (startPosition o w₀.db.undoAll.current).head := congrArg StateObject.head hpos
  rw [hhead] at hrun
  have hretains := hrun.invariant
    (I := Retains lib o w₀.db.undoAll.current (startPosition o w₀.db.undoAll.current))
    (fun p i h hi ↦ h.exec lib hi.1 hi.2.1 hi.2.2) hstart
  rw [← hp] at hretains
  rw [hretains.db.current, hpos]
  exact replay_iff hstart hpos hretains.fit

/-- The second block of two is replaced by one on top of a given block. -/
def forkedOnto (prevId : Checksum256) : List Input :=
  [.ready 0, .result (bareResult ⟨1, 1⟩ 0 0), .result (bareResult ⟨2, 2⟩ 1 0),
    .result (bareResult ⟨2, 7⟩ prevId 1), .result (bareResult ⟨3, 3⟩ 7 1)]

set_option maxRecDepth 10000 in
/-- The new second block is on top of the first. -/
theorem forked_onto_first :
    let p : Retaining Unit :=
      (forkedOnto 1).foldl (Retaining.exec .lenient) ⟨exec .lenient newWorld (.start {}), []⟩
    ∃ w', replay .lenient p.blocks (exec .lenient newWorld (.start {})) = .ok () w' ∧
      w'.db.current = p.world.db.current :=
  (forks_transparent .lenient rfl (by decide) rfl (forkedOnto 1) (by decide) rfl).mpr (by decide)

set_option maxRecDepth 10000 in
/-- The new second block is on top of a block that was never seen: the fork is accepted, and
the straight run refuses it. -/
theorem retained_not_linked :
    ∃ (o : Options) (w₀ w₁ : World Unit) (inputs : List Input) (p : Retaining Unit),
      o.interactiveMode = false ∧ w₀ = newWorld ∧ w₁ = exec .lenient w₀ (.start o) ∧
      Run.Guarded (Retaining.exec .lenient)
        (fun p i ↦ Steady i ∧ FollowsHead w₁.proc.head p.world i ∧ Processed .lenient p.world i)
        ⟨w₁, []⟩ inputs ∧
      p = inputs.foldl (Retaining.exec .lenient) ⟨w₁, []⟩ ∧
      ¬ ∃ w', replay .lenient p.blocks w₁ = .ok () w' ∧ w'.db.current = p.world.db.current := by
  refine ⟨{}, newWorld, _, forkedOnto 9, _, rfl, rfl, rfl, by decide, rfl, ?_⟩
  rintro ⟨w', hw', -⟩
  have herr : Ends (fun _ _ ↦ False) (fun _ _ ↦ True)
      (replay .lenient (List.foldl (Retaining.exec .lenient)
        ⟨exec .lenient newWorld (.start {}), []⟩ (forkedOnto 9)).blocks
        (exec .lenient newWorld (.start {}))) := trivial
  rw [hw'] at herr
  exact herr

end Chronicle
