import Chronicle.Block.Effect
import Chronicle.Logic.Effect

/-!
# The filters on transaction traces

A trace is exported unless it has an action of the blacklist, if there are no filters or one of
them matches an action (`Selects`).  `receive_traces` walks over the actions and stops at the first
one that decides anything, so a match hides a blacklisted action after it: it exports the traces
that it should exactly if no match stands before the first action of the blacklist
(`BlacklistFirst`).
-/

namespace Chronicle

open Effect

variable {Abi : Type}

/-! ## What should be exported -/

namespace Options

/-- An action of the blacklist. -/
def Blacklists (o : Options) (at' : ActionTrace) : Prop :=
  o.doTraceBlacklist = true ∧ (at'.act.account, at'.act.name) ∈ o.blacklistActions

/-- The receiver of an action is in the enabled filter. -/
def MatchesReceiver (o : Options) (at' : ActionTrace) : Prop :=
  o.enableRcvrFilter = true ∧ at'.receiver ∈ o.rcvrFilter

/-- An actor of an action is in the enabled filter. -/
def MatchesAuthorizer (o : Options) (at' : ActionTrace) : Prop :=
  o.enableAuthFilter = true ∧ ∃ actor ∈ at'.act.authorization, actor ∈ o.authFilter

/-- A filter matches an action. -/
def Matches (o : Options) (at' : ActionTrace) : Prop :=
  o.MatchesReceiver at' ∨ o.MatchesAuthorizer at'

instance (o : Options) : DecidablePred o.Blacklists := fun _ ↦ inferInstanceAs (Decidable (_ ∧ _))

instance (o : Options) : DecidablePred o.MatchesReceiver := fun _ ↦
  inferInstanceAs (Decidable (_ ∧ _))

instance (o : Options) : DecidablePred o.MatchesAuthorizer := fun _ ↦
  inferInstanceAs (Decidable (_ ∧ _))

instance (o : Options) : DecidablePred o.Matches := fun _ ↦ inferInstanceAs (Decidable (_ ∨ _))

/-- A trace that should be exported, whatever the order of its actions. -/
def Selects (o : Options) (trace : TransactionTrace) : Prop :=
  (∀ at' ∈ trace.actionTraces, ¬ o.Blacklists at') ∧
    ((o.enableRcvrFilter = false ∧ o.enableAuthFilter = false) ∨
      (∃ at' ∈ trace.actionTraces, o.MatchesReceiver at') ∨
      ∃ at' ∈ trace.actionTraces, o.MatchesAuthorizer at')

instance (o : Options) : DecidablePred o.Selects := fun _ ↦ inferInstanceAs (Decidable (_ ∧ _))

/-- No filter matches an action before the first one of the blacklist, if there is one. -/
def BlacklistFirst (o : Options) (trace : TransactionTrace) : Prop :=
  ∀ before at' rest, trace.actionTraces = before ++ at' :: rest → o.Blacklists at' →
    (∀ x ∈ before, ¬ o.Blacklists x) → ∀ x ∈ before, ¬ o.Matches x

end Options

section Walk

variable (o : Options) (at' : ActionTrace) (rest : List ActionTrace)

/-- The walk over the actions ends at the first one that decides. -/
theorem matchActionTraces_cons : matchActionTraces o (at' :: rest) =
    if o.Blacklists at' then .blacklist
    else if o.MatchesReceiver at' then .rcvrFilter
    else if o.MatchesAuthorizer at' then .authFilter
    else matchActionTraces o rest := by
  rw [matchActionTraces]
  refine if_congr ?_ rfl (if_congr ?_ rfl (if_congr ?_ rfl rfl))
  · rw [Bool.and_eq_true, List.contains_iff_mem]
    rfl
  · rw [Bool.and_eq_true, List.contains_iff_mem]
    rfl
  · simp only [Bool.and_eq_true, List.any_eq_true, List.contains_iff_mem]
    rfl

variable {o} {l : List ActionTrace}

/-- The walk ends at a blacklisted action exactly if no match stands before the first one. -/
theorem matchActionTraces_eq_blacklist : matchActionTraces o l = .blacklist ↔
    ∃ before at' rest, l = before ++ at' :: rest ∧ o.Blacklists at' ∧
      ∀ x ∈ before, ¬ o.Matches x := by
  induction l with
  | nil =>
      refine iff_of_false nofun ?_
      rintro ⟨before, at', rest, heq, -⟩
      cases before <;> cases heq
  | cons a l ih =>
      have hcons : (∃ before at' rest, a :: l = before ++ at' :: rest ∧ o.Blacklists at' ∧
          ∀ x ∈ before, ¬ o.Matches x) ↔ o.Blacklists a ∨ (¬ o.Matches a ∧
            ∃ before at' rest, l = before ++ at' :: rest ∧ o.Blacklists at' ∧
              ∀ x ∈ before, ¬ o.Matches x) := by
        constructor
        · rintro ⟨before, at', rest, heq, hb, hnone⟩
          cases before with
          | nil => exact .inl ((List.cons.inj heq).1 ▸ hb)
          | cons x before =>
              obtain ⟨rfl, rfl⟩ := List.cons.inj heq
              exact .inr ⟨hnone a List.mem_cons_self, before, at', rest, rfl, hb,
                fun y hy ↦ hnone y (List.mem_cons_of_mem _ hy)⟩
        · rintro (hb | ⟨ha, before, at', rest, rfl, hb, hnone⟩)
          · exact ⟨[], a, l, rfl, hb, nofun⟩
          · exact ⟨a :: before, at', rest, rfl, hb, List.forall_mem_cons.mpr ⟨ha, hnone⟩⟩
      rw [hcons, ← ih, matchActionTraces_cons, Options.Matches]
      split_ifs with hb hr ha
      · exact iff_of_true rfl (.inl hb)
      · exact iff_of_false nofun fun h ↦ h.elim hb fun h ↦ h.1 (.inl hr)
      · exact iff_of_false nofun fun h ↦ h.elim hb fun h ↦ h.1 (.inr ha)
      · exact ⟨fun h ↦ .inr ⟨not_or.mpr ⟨hr, ha⟩, h⟩, fun h ↦ h.elim (absurd · hb) And.right⟩

/-- The walk comes to the end exactly if nothing decides. -/
theorem matchActionTraces_eq_none : matchActionTraces o l = .none ↔
    ∀ x ∈ l, ¬ o.Blacklists x ∧ ¬ o.Matches x := by
  induction l with
  | nil => exact iff_of_true rfl nofun
  | cons a l ih =>
      rw [List.forall_mem_cons, ← ih, matchActionTraces_cons, Options.Matches]
      split_ifs with hb hr ha
      · exact iff_of_false nofun fun h ↦ h.1.1 hb
      · exact iff_of_false nofun fun h ↦ h.1.2 (.inl hr)
      · exact iff_of_false nofun fun h ↦ h.1.2 (.inr ha)
      · exact ⟨fun h ↦ ⟨⟨hb, not_or.mpr ⟨hr, ha⟩⟩, h⟩, And.right⟩

end Walk

/-! ## What is exported -/

namespace Options

variable {o : Options} {trace : TransactionTrace}

theorem doTraceFilter_eq_false : doTraceFilter o = false ↔
    o.enableRcvrFilter = false ∧ o.enableAuthFilter = false := Bool.or_eq_false_iff

/-- Without a blacklisted action, a trace is selected if there is no filter or one matches. -/
theorem selects_iff : o.Selects trace ↔ (∀ at' ∈ trace.actionTraces, ¬ o.Blacklists at') ∧
    (doTraceFilter o = false ∨ ∃ at' ∈ trace.actionTraces, o.Matches at') := by
  rw [Selects, doTraceFilter_eq_false]
  refine and_congr_right fun _ ↦ or_congr_right ?_
  rw [← exists_or]
  exact exists_congr fun at' ↦ and_or_left.symm

end Options

section Take

variable {o : Options} {trace : TransactionTrace}

/-- The walk is not made if there is nothing to look for. -/
theorem match_of_idle (hfilter : doTraceFilter o = false) (hblacklist : o.doTraceBlacklist = false)
    (l : List ActionTrace) : matchActionTraces o l = .none := by
  obtain ⟨hrcvr, hauth⟩ := Options.doTraceFilter_eq_false.mp hfilter
  refine matchActionTraces_eq_none.mpr fun x _ ↦ ⟨fun h ↦ ?_, ?_⟩
  · exact absurd (h.1.symm.trans hblacklist) nofun
  · rintro (h | h)
    · exact absurd (h.1.symm.trans hrcvr) nofun
    · exact absurd (h.1.symm.trans hauth) nofun

/-- A walk that ends at a match of a filter has met it. -/
theorem exists_of_match {l : List ActionTrace} :
    (matchActionTraces o l = .rcvrFilter → ∃ at' ∈ l, o.MatchesReceiver at') ∧
      (matchActionTraces o l = .authFilter → ∃ at' ∈ l, o.MatchesAuthorizer at') := by
  induction l with
  | nil => exact ⟨nofun, nofun⟩
  | cons a l ih =>
      rw [matchActionTraces_cons]
      split_ifs with hb hr ha
      · exact ⟨nofun, nofun⟩
      · exact ⟨fun _ ↦ ⟨a, List.mem_cons_self, hr⟩, nofun⟩
      · exact ⟨nofun, fun _ ↦ ⟨a, List.mem_cons_self, ha⟩⟩
      · refine ⟨fun h ↦ ?_, fun h ↦ ?_⟩
        · obtain ⟨x, hx, hm⟩ := ih.1 h
          exact ⟨x, List.mem_cons_of_mem _ hx, hm⟩
        · obtain ⟨x, hx, hm⟩ := ih.2 h
          exact ⟨x, List.mem_cons_of_mem _ hx, hm⟩

/-- A trace is exported if the walk does not end at the blacklist, and there is no filter or one
that matches. -/
theorem takeTrace_iff : takeTrace o trace = true ↔
    matchActionTraces o trace.actionTraces ≠ .blacklist ∧
      (doTraceFilter o = false ∨ ∃ at' ∈ trace.actionTraces, o.Matches at') := by
  have hwalk : (if doTraceFilter o || o.doTraceBlacklist then
      matchActionTraces o trace.actionTraces else .none) =
        matchActionTraces o trace.actionTraces := by
    split_ifs with h
    · rfl
    · obtain ⟨hfilter, hblacklist⟩ := Bool.or_eq_false_iff.mp (Bool.eq_false_iff.mpr h)
      exact (match_of_idle hfilter hblacklist _).symm
  have htake : takeTrace o trace = (matchActionTraces o trace.actionTraces ≠ .blacklist &&
      (!doTraceFilter o ||
        (o.enableRcvrFilter && matchActionTraces o trace.actionTraces = .rcvrFilter) ||
        (o.enableAuthFilter && matchActionTraces o trace.actionTraces = .authFilter))) := by
    rw [takeTrace, hwalk]
  rw [htake, Bool.and_eq_true, decide_eq_true_iff]
  refine and_congr_right fun hne ↦ ?_
  cases hm : matchActionTraces o trace.actionTraces with
  | blacklist => exact absurd hm hne
  | none =>
      have hnone : ¬ ∃ at' ∈ trace.actionTraces, o.Matches at' := by
        rintro ⟨at', hat, hmatch⟩
        exact (matchActionTraces_eq_none.mp hm at' hat).2 hmatch
      simp [hnone]
  | rcvrFilter =>
      obtain ⟨at', hat, hmatch⟩ := exists_of_match.1 hm
      exact iff_of_true (by simp [hmatch.1]) (.inr ⟨at', hat, .inl hmatch⟩)
  | authFilter =>
      obtain ⟨at', hat, hmatch⟩ := exists_of_match.2 hm
      exact iff_of_true (by simp [hmatch.1]) (.inr ⟨at', hat, .inr hmatch⟩)

/-- A match before the first blacklisted action is what keeps the walk from it. -/
theorem blacklistFirst_iff : o.BlacklistFirst trace ↔
    (matchActionTraces o trace.actionTraces = .blacklist ∨
      ∀ at' ∈ trace.actionTraces, ¬ o.Blacklists at') := by
  rw [matchActionTraces_eq_blacklist]
  constructor
  · intro h
    by_cases hex : ∃ at' ∈ trace.actionTraces, o.Blacklists at'
    · obtain ⟨at', hfind⟩ := Option.isSome_iff_exists.mp
        (List.find?_isSome (p := fun x ↦ decide (o.Blacklists x)) |>.mpr
          (hex.imp fun at' hat ↦ ⟨hat.1, decide_eq_true hat.2⟩))
      obtain ⟨hb, before, rest, heq, hnone⟩ := List.find?_eq_some_iff_append.mp hfind
      have hb := of_decide_eq_true hb
      have hnone : ∀ x ∈ before, ¬ o.Blacklists x := fun x hx ↦ by simpa using hnone x hx
      exact .inl ⟨before, at', rest, heq, hb, h before at' rest heq hb hnone⟩
    · exact .inr fun at' hat hb ↦ hex ⟨at', hat, hb⟩
  · rintro (⟨before, at', rest, heq, hb, hmatch⟩ | hnone)
    · intro before' at'' rest' heq' hb' hnone
      -- a walk that has met no match is not yet at the second of two first places
      have hle : before'.length ≤ before.length := by
        by_contra hlt
        have hmem : at' ∈ before' := by
          have hget : (before' ++ at'' :: rest')[before.length]? = some at' := by
            rw [← heq', heq]
            simp
          rw [List.getElem?_append_left (by omega)] at hget
          exact List.mem_of_getElem? hget
        exact hnone at' hmem hb
      intro x hx
      have hpre : before' <+: before := by
        have hpre₁ : before' <+: trace.actionTraces := ⟨_, heq'.symm⟩
        have hpre₂ : before <+: trace.actionTraces := ⟨_, heq.symm⟩
        exact List.prefix_of_prefix_length_le hpre₁ hpre₂ hle
      exact hmatch x (hpre.subset hx)
    · exact fun before at' rest heq hb ↦ absurd hb (hnone at' (by rw [heq]; simp))

/-- A trace is exported when it should be, exactly if no match hides a blacklisted action. -/
theorem takeTrace_selects_iff : (takeTrace o trace = true ↔ o.Selects trace) ↔
    o.BlacklistFirst trace := by
  rw [takeTrace_iff, Options.selects_iff, blacklistFirst_iff]
  by_cases hwalk : matchActionTraces o trace.actionTraces = .blacklist
  · obtain ⟨before, at', rest, heq, hb, -⟩ := matchActionTraces_eq_blacklist.mp hwalk
    refine iff_of_true (iff_of_false (fun h ↦ h.1 hwalk) fun h ↦ ?_) (.inl hwalk)
    exact h.1 at' (by rw [heq]; simp) hb
  · have hmatch : ∀ at' ∈ trace.actionTraces, o.Blacklists at' →
        ∃ x ∈ trace.actionTraces, o.Matches x := by
      intro at' hat hb
      by_contra hnone
      obtain ⟨before, rest, heq⟩ := List.append_of_mem hat
      refine hwalk (matchActionTraces_eq_blacklist.mpr
        ⟨before, at', rest, heq, hb, fun x hx hm ↦ ?_⟩)
      exact hnone ⟨x, by rw [heq]; exact List.mem_append_left _ hx, hm⟩
    constructor
    · intro h
      refine .inr fun at' hat hb ↦ ?_
      exact (h.mp ⟨hwalk, .inr (hmatch at' hat hb)⟩).1 at' hat hb
    · rintro (h | h)
      · exact absurd h hwalk
      · exact and_congr_left fun _ ↦ iff_of_true hwalk h

end Take

/-! ## `receive_traces` -/

/-- The event for a trace. -/
def traceEvent (p : Proc Abi) (trace : TransactionTrace) : Event :=
  .transactionTrace
    { blockNum := p.head, blockTimestamp := p.blockHeader.timestamp, trace }

theorem receiveTrace_run (w : World Abi) (trace : TransactionTrace) :
    receiveTrace (.ok trace) w = .ok () (if takeTrace w.options trace then
      { w with log := w.log ++ [.published (traceEvent w.proc trace)] } else w) := by
  change (if takeTrace w.options trace then _ else _ : Receiver Abi Unit) w = _
  split_ifs <;> rfl

/-- The traces that are taken are published in order, and nothing else happens. -/
theorem receiveTraces_run (w : World Abi) (traces : List TransactionTrace) :
    receiveTraces (traces.map Except.ok) w = .ok () { w with
      log := w.log ++ (if w.options.subscribers.transactionTraces then
        (traces.filter (takeTrace w.options)).map fun trace ↦ .published (traceEvent w.proc trace)
      else []) } := by
  have hloop : ∀ w : World Abi, (traces.map Except.ok).forM receiveTrace w = .ok () { w with
      log := w.log ++ (traces.filter (takeTrace w.options)).map
        fun trace ↦ .published (traceEvent w.proc trace) } := by
    induction traces with
    | nil =>
        intro w
        change EStateM.Result.ok () w = .ok () { w with log := w.log ++ [] }
        rw [List.append_nil]
    | cons trace traces ih =>
        intro w
        refine (bind_run (receiveTrace_run w trace)).trans ((ih _).trans ?_)
        split_ifs with htake
        · rw [List.filter_cons_of_pos htake, List.map_cons, List.append_assoc]
          rfl
        · rw [List.filter_cons_of_neg htake]
  change (if w.options.subscribers.transactionTraces then _ else _ : Receiver Abi Unit) w = _
  split_ifs with hsub
  · exact hloop w
  · rw [List.append_nil]
    rfl

/-- **`receive_traces` publishes the traces that should be exported, and only those, exactly if in
each of them no filter matches an action before the first one of the blacklist.** -/
theorem traces_selected_iff (w : World Abi) (traces : List TransactionTrace) :
    (∃ w', receiveTraces (traces.map Except.ok) w = .ok () w' ∧ published w'.log =
        published w.log ++ (if w.options.subscribers.transactionTraces then
          (traces.filter fun trace ↦ w.options.Selects trace).map (traceEvent w.proc) else [])) ↔
      (w.options.subscribers.transactionTraces = true →
        ∀ trace ∈ traces, w.options.BlacklistFirst trace) := by
  have hpub : ∀ l : List TransactionTrace, published
      (l.map fun trace ↦ (.published (traceEvent w.proc trace) : Observation Abi)) =
        l.map (traceEvent w.proc) := by
    intro l
    rw [published, List.filterMap_map]
    exact congrFun List.filterMap_eq_map l
  have hinj : Function.Injective (traceEvent w.proc) := by
    intro trace trace' h
    exact congrArg TraceEvent.trace (Event.transactionTrace.inj h)
  have hrun : (∃ w', receiveTraces (traces.map Except.ok) w = .ok () w' ∧ published w'.log =
      published w.log ++ (if w.options.subscribers.transactionTraces then
        (traces.filter fun trace ↦ w.options.Selects trace).map (traceEvent w.proc) else [])) ↔
      (w.options.subscribers.transactionTraces = true →
        traces.filter (takeTrace w.options) = traces.filter fun trace ↦
          w.options.Selects trace) := by
    rw [receiveTraces_run]
    constructor
    · rintro ⟨w', heq, hlog⟩ hsub
      obtain rfl := (EStateM.Result.ok.inj heq).2
      rw [if_pos hsub, published_append, if_pos hsub, hpub, List.append_cancel_left_eq] at hlog
      exact List.map_injective_iff.mpr hinj hlog
    · intro h
      refine ⟨_, rfl, ?_⟩
      rw [published_append]
      split_ifs with hsub
      · rw [hpub, h hsub]
      · rfl
  rw [hrun]
  refine imp_congr_right fun _ ↦
    ⟨fun h trace htrace ↦ ?_, fun h ↦ List.filter_congr fun trace ht ↦ ?_⟩
  · refine takeTrace_selects_iff.mp ⟨fun htake ↦ ?_, fun hselects ↦ ?_⟩
    · have hmem : trace ∈ traces.filter (takeTrace w.options) := List.mem_filter.mpr ⟨htrace, htake⟩
      rw [h] at hmem
      exact of_decide_eq_true (List.mem_filter.mp hmem).2
    · have hmem : trace ∈ traces.filter fun trace ↦ w.options.Selects trace :=
        List.mem_filter.mpr ⟨htrace, decide_eq_true hselects⟩
      rw [← h] at hmem
      exact (List.mem_filter.mp hmem).2
  · have hiff := takeTrace_selects_iff.mpr (h trace ht)
    rw [Bool.eq_iff_iff, hiff, decide_eq_true_iff]

/-- An action that a filter lets through, and a blacklisted one after it. -/
def hiddenTrace : TransactionTrace :=
  { id := 0, actionTraces := [.v1 1 ⟨1, 1, []⟩, .v1 5 ⟨2, 3, []⟩] }

/-- A receiver in the filter hides the blacklisted action after it, and the trace is exported. -/
theorem hidden_trace_published :
    let o : Options := { enableRcvrFilter := true, rcvrFilter := [1], doTraceBlacklist := true,
                         blacklistActions := [(2, 3)] }
    (∃ at' ∈ hiddenTrace.actionTraces, o.Blacklists at') ∧ ¬ o.Selects hiddenTrace ∧
      ∃ w' : World Unit, receiveTraces [.ok hiddenTrace] { options := o } = .ok () w' ∧
        published w'.log = [traceEvent ({} : Proc Unit) hiddenTrace] := by
  refine ⟨by decide, by decide, _, rfl, rfl⟩

end Chronicle
