import Chronicle.Relic.TransactionIds
import Chronicle.Relic.RawValues

/-!
# Handles that are burnt at the end of a block

The rows of a block that are removed and its own actions are kept until the block is completed;
then, if something has expired in it, its removed handles are burnt, unless an action has burnt
them itself.  A handle is also meant to be left alone if one of its addresses is unknown to the
database; but the addresses are looked for in the message that completes the block.
-/

namespace Chronicle.Relic

variable (ext : Externals)

/-! ## The messages of a block -/

/-- A message as `on_event_json` writes it. -/
def eventDocument (msgtype : String) (data : Json) : Json :=
  .object [("msgtype", .string msgtype), ("data", data)]

@[simp]
theorem eventDocument_data (msgtype : String) (data : Json) :
    (eventDocument msgtype data).get "data" = data := rfl

/-- The row of a handle that was removed. -/
def RemovedHandle (data : Json) : Prop :=
  getjsonstring ext unknownTimestamp (data.get "added") disallowEmptyValues = "false" ∧
    getjsonstring ext unknownTimestamp ((data.get "kvo").get "table") disallowEmptyValues =
      "fiohandles"

instance (data : Json) : Decidable (RemovedHandle ext data) := inferInstanceAs (Decidable (_ ∧ _))

/-- The handle of a row. -/
def rowHandle (data : Json) : String := member ext ((data.get "kvo").get "value") "name"

/-- The addresses of a row. -/
def rowAddresses (data : Json) : List Json :=
  ((((data.get "kvo").get "value").get "addresses").getArray).filter Json.isObject

/-- A message that the exporter keeps something of. -/
inductive BlockEvent where
  | row (data : Json)
  | trace (data : Json)

namespace BlockEvent

def data : BlockEvent → Json
  | row data | trace data => data

def msgtype : BlockEvent → String
  | row _ => "TBL_ROW"
  | trace _ => "TX_TRACE"

/-- The rows of handles that were removed. -/
def removedHandles : BlockEvent → List Json
  | row data => if RemovedHandle ext data then [data] else []
  | trace _ => []

/-- The actions that the transaction asks for itself. -/
def ownActions : BlockEvent → List Action
  | row _ => []
  | trace data =>
    (readActions ext ((data.get "trace").get "action_traces").getArray).filter (·.IsOwn)

end BlockEvent

/-- The messages of a block, one after another. -/
def blockEvents (bnums : String) (bnum : Nat) : Members → List BlockEvent → Prog Members
  | m, [] => pure m
  | m, e :: rest => do
    let m ← handleEvent ext m (eventDocument e.msgtype e.data) e.msgtype bnums bnum
    blockEvents bnums bnum m rest

/-! ## What is kept of a block -/

/-- What is kept of the handles that were removed and of the actions. -/
structure Kept (rows : List Json) (actions : List Action) (m m' : Members) : Prop where
  handlejsons : m'.handlejsons = m.handlejsons ++ rows.map fun data ↦ cString (ext.write data)
  burnaddresses : m'.burnaddresses = m.burnaddresses ++
    (actions.filter (·.actionname = "burnaddress")).map (·.data ext "fio_address")
  burnexpiredthisblock : m'.burnexpiredthisblock = true ↔
    m.burnexpiredthisblock = true ∨ ∃ a ∈ actions, a.actionname = "burnexpired"

variable {ext}

theorem Kept.refl (m : Members) : Kept ext [] [] m m :=
  ⟨(List.append_nil _).symm, (List.append_nil _).symm, by simp⟩

theorem Kept.trans {rows₁ rows₂ : List Json} {actions₁ actions₂ : List Action}
    {m m' m'' : Members} (h₁ : Kept ext rows₁ actions₁ m m') (h₂ : Kept ext rows₂ actions₂ m' m'') :
    Kept ext (rows₁ ++ rows₂) (actions₁ ++ actions₂) m m'' := by
  constructor
  · rw [h₂.handlejsons, h₁.handlejsons, List.map_append, List.append_assoc]
  · rw [h₂.burnaddresses, h₁.burnaddresses, List.filter_append, List.map_append,
      List.append_assoc]
  · rw [h₂.burnexpiredthisblock, h₁.burnexpiredthisblock, or_assoc]
    simp only [List.mem_append, or_and_right, exists_or]

variable (ext)

theorem remember_kept (t : Transaction) (a : Action) (n : Int) (m : Members) :
    Kept ext [] [a] m (remember ext t a n m) := by
  rw [remember]
  split_ifs with hexpired hburn
  · refine ⟨(List.append_nil _).symm, ?_, ?_⟩
    · simp [hexpired]
    · simp [hexpired]
  · refine ⟨(List.append_nil _).symm, ?_, ?_⟩
    · simp [hburn]
    · simp [hburn]
  · refine ⟨(List.append_nil _).symm, ?_, ?_⟩
    · simp [hburn]
    · simp [hexpired]

theorem actionTrace_kept {t : Transaction} {a : Action} {n : Int} {m : Members}
    {r : Int × Members} (h : (actionTrace ext t a n m).Can r) :
    Kept ext [] ([a].filter (·.IsOwn)) m r.2 := by
  obtain ⟨r', hr', h⟩ := Program.can_bind.mp h
  obtain ⟨-, -, h⟩ := Program.can_bind.mp h
  obtain rfl := Program.can_pure.mp h
  rw [rowTrace] at hr'
  split_ifs at hr' with hown
  · have hfilter : [a].filter (·.IsOwn) = [a] := by simp [hown]
    rw [ownTrace_eq] at hr'
    rw [hfilter]
    obtain ⟨res, hr'⟩ := hr'
    obtain ⟨-, -, hr'⟩ := Program.can_bind.mp hr'
    obtain rfl := Program.can_pure.mp hr'
    exact remember_kept ext t a _ m
  · have hfilter : [a].filter (·.IsOwn) = [] := by simp [hown]
    rw [hfilter]
    obtain ⟨-, -, hr'⟩ := Program.can_bind.mp hr'
    obtain rfl := Program.can_pure.mp hr'
    exact .refl m

/-- What is kept of a transaction. -/
theorem actionTraces_kept {t : Transaction} {n : Int} {m m' : Members} {l : List Json}
    (h : (actionTraces ext t n m l).Can m') :
    Kept ext [] ((readActions ext l).filter (·.IsOwn)) m m' := by
  induction l generalizing n m with
  | nil =>
      obtain rfl := Program.can_pure.mp h
      exact .refl m
  | cons object l ih =>
      rw [actionTraces] at h
      split_ifs at h with hobject
      · rw [readActions_cons_of_isObject ext hobject]
        obtain ⟨r, hr, h⟩ := Program.can_bind.mp h
        have hkept := (actionTrace_kept ext hr).trans (ih h)
        rwa [List.nil_append, ← List.filter_append] at hkept
      · rw [readActions_cons_of_not_isObject ext hobject]
        exact ih h

/-- A row that was removed is an object, and its text is kept. -/
theorem RemovedHandle.text {ext : Externals} {data : Json} (h : RemovedHandle ext data) :
    getjsonstring ext unknownString data disallowEmptyValues = cString (ext.write data) := by
  cases data with
  | object members => rfl
  | _ => exact absurd (show "" = "false" from h.1) (by decide)

/-- What is kept of a row. -/
theorem tblRow_kept (m : Members) (data : Json) :
    Kept ext (BlockEvent.removedHandles ext (.row data)) [] m
      (tblRow ext m (eventDocument "TBL_ROW" data)) := by
  rw [tblRow, eventDocument_data, BlockEvent.removedHandles]
  by_cases hremoved : RemovedHandle ext data
  · have hdomain : getjsonstring ext unknownTimestamp ((data.get "kvo").get "table")
        disallowEmptyValues ≠ "domains" := hremoved.2 ▸ by decide
    have htext := hremoved.text
    rw [if_pos hremoved]
    obtain ⟨hadded, htable⟩ := hremoved
    rw [if_neg fun h ↦ hdomain h.2, if_pos ⟨hadded, htable⟩]
    refine ⟨?_, (List.append_nil _).symm, by simp⟩
    exact congrArg (fun datavs ↦ m.handlejsons ++ [datavs]) htext
  · rw [if_neg hremoved]
    rw [RemovedHandle] at hremoved
    rw [if_neg hremoved]
    split_ifs
    · exact ⟨(List.append_nil _).symm, (List.append_nil _).symm, by simp⟩
    · exact .refl m

/-- What is kept of the messages of a block. -/
theorem blockEvents_kept {bnums : String} {bnum : Nat} {m m' : Members} {events : List BlockEvent}
    (h : (blockEvents ext bnums bnum m events).Can m') :
    Kept ext (events.flatMap (·.removedHandles ext)) (events.flatMap (·.ownActions ext)) m m' := by
  induction events generalizing m with
  | nil =>
      obtain rfl := Program.can_pure.mp h
      exact .refl m
  | cons e events ih =>
      obtain ⟨m₁, hm₁, h⟩ := Program.can_bind.mp h
      rw [List.flatMap_cons, List.flatMap_cons]
      refine Kept.trans ?_ (ih h)
      cases e with
      | row data =>
          obtain rfl := Program.can_pure.mp hm₁
          exact tblRow_kept ext m data
      | trace data => exact actionTraces_kept ext hm₁

/-! ## The end of a block -/

/-- A handle is burnt. -/
def Burns (bnums h : String) (q : Query) : Prop := q.statement = updhandleburnt bnums h

theorem not_burns {bnums h uniqueident : String} {statement : Statement}
    (hfn : statement.fn ≠ "updhandleburnt") : ¬ Burns bnums h ⟨uniqueident, statement⟩ := by
  rintro rfl
  exact hfn rfl

theorem updhandleburnt_inj {bnums h h' : String} :
    updhandleburnt bnums h = updhandleburnt bnums h' ↔ h = h' := by
  refine ⟨fun heq ↦ ?_, fun heq ↦ heq ▸ rfl⟩
  have hfields := congrArg Statement.fields heq
  exact Field.quoted.inj (List.cons.inj (List.cons.inj hfields).2).1

section Steps

variable {uniqueident : String} {statement : Statement} {c : Prop} [Decidable c] {p : Prog Unit}

theorem total_perform : (perform uniqueident statement).Total := fun _ ↦ trivial

theorem total_onlyIf (hp : p.Total) : (onlyIf c p).Total := by
  rw [onlyIf]
  split_ifs
  · exact hp
  · trivial

end Steps

section Burn

variable (m : Members) (bnums : String)

/-- What is done with a domain or a handle that was burnt. -/
theorem total_burn {ident activityIdent : String} {update activity : Statement} :
    (do
      let res ← exec ident update
      onlyIf (firstNumber res 0 = 1) (perform activityIdent activity)).Total :=
  fun _ ↦ total_onlyIf total_perform

theorem burnDomains_total (l : List String) : (burnDomains ext m bnums l).Total := by
  induction l with
  | nil => trivial
  | cons datastr l ih => exact (total_onlyIf total_burn).bind fun _ ↦ ih

/-- What is done for domains. -/
theorem burnDomains_every (l : List String) : (burnDomains ext m bnums l).Every fun q ↦
    q.statement.fn = "upddomainburnt" ∨ q.statement.fn = "insdomainactivities" := by
  induction l with
  | nil => trivial
  | cons datastr l ih =>
      refine Program.every_bind.mpr ⟨every_onlyIf.mpr fun _ ↦ ?_, fun _ _ ↦ ih⟩
      refine Program.every_bind.mpr ⟨every_exec.mpr (.inl rfl), fun _ _ ↦ ?_⟩
      exact every_onlyIf.mpr fun _ ↦ every_perform.mpr (.inr rfl)

/-- What is done with one handle that was removed, if no addresses are found. -/
def burnHandle (datastr : String) : Prog Unit :=
  onlyIf ((keptRow ext datastr).1 ∉ m.burnaddresses ∧ bnums = (keptRow ext datastr).2) do
    let res ← exec "burnhandle" (updhandleburnt bnums (keptRow ext datastr).1)
    onlyIf (firstNumber res 0 = 1) (perform "burnhandleactivity" (inshandleactivities bnums
      (keptRow ext datastr).1 "auto_burn" m.burnexpiredtimestamp m.burnexpiredtrid))

/-- The message that completes a block has no addresses. -/
theorem burnHandles_cons (completed : Json) (datastr : String) (l : List String) :
    burnHandles ext m (eventDocument "BLOCK_COMPLETED" completed) bnums (datastr :: l) =
      (burnHandle ext m bnums datastr >>= fun _ ↦
        burnHandles ext m (eventDocument "BLOCK_COMPLETED" completed) bnums l) := by
  rfl

theorem burnHandle_total (datastr : String) : (burnHandle ext m bnums datastr).Total :=
  total_onlyIf total_burn

theorem burnHandle_burns {answers : Nat → Option Rows} (hanswers : ∀ i, (answers i).isSome)
    (h datastr : String) :
    Program.Asked (Burns bnums h) ((burnHandle ext m bnums datastr).run answers).trace ↔
      (keptRow ext datastr).1 = h ∧ h ∉ m.burnaddresses ∧ bnums = (keptRow ext datastr).2 := by
  rw [burnHandle]
  by_cases hkept : (keptRow ext datastr).1 ∉ m.burnaddresses ∧ bnums = (keptRow ext datastr).2
  · rw [onlyIf, if_pos hkept]
    obtain ⟨res, hres⟩ := Option.isSome_iff_exists.mp (hanswers 0)
    have hnext : (onlyIf (firstNumber res 0 = 1) (perform "burnhandleactivity" (inshandleactivities
        bnums (keptRow ext datastr).1 "auto_burn" m.burnexpiredtimestamp m.burnexpiredtrid))).Every
        fun q ↦ ¬ Burns bnums h q := by
      refine every_onlyIf.mpr fun _ ↦ every_perform.mpr (not_burns ?_)
      exact (by decide : "inshandleactivities" ≠ "updhandleburnt")
    refine (Program.asked_ask hres).trans ((or_iff_left hnext.not_asked).trans ?_)
    refine updhandleburnt_inj.trans ⟨?_, fun h ↦ h.1⟩
    rintro rfl
    exact ⟨rfl, hkept⟩
  · rw [onlyIf, if_neg hkept]
    refine iff_of_false ?_ ?_
    · rintro ⟨d, hd, -⟩
      exact absurd hd List.not_mem_nil
    · rintro ⟨rfl, hburn⟩
      exact hkept hburn

theorem burnHandles_total (completed : Json) (l : List String) :
    (burnHandles ext m (eventDocument "BLOCK_COMPLETED" completed) bnums l).Total := by
  induction l with
  | nil => trivial
  | cons datastr l ih =>
      rw [burnHandles_cons]
      exact (burnHandle_total ext m bnums datastr).bind fun _ ↦ ih

/-- What is done for handles. -/
theorem burnHandles_every (completed : Json) (l : List String) :
    (burnHandles ext m (eventDocument "BLOCK_COMPLETED" completed) bnums l).Every fun q ↦
      q.statement.fn = "updhandleburnt" ∨ q.statement.fn = "inshandleactivities" := by
  induction l with
  | nil => trivial
  | cons datastr l ih =>
      rw [burnHandles_cons]
      refine Program.every_bind.mpr ⟨every_onlyIf.mpr fun _ ↦ ?_, fun _ _ ↦ ih⟩
      refine Program.every_bind.mpr ⟨every_exec.mpr (.inl rfl), fun _ _ ↦ ?_⟩
      exact every_onlyIf.mpr fun _ ↦ every_perform.mpr (.inr rfl)

/-- The handles that are burnt, whatever addresses they had. -/
theorem burnHandles_burns (completed : Json) (l : List String) {answers : Nat → Option Rows}
    (hanswers : ∀ i, (answers i).isSome) (h : String) :
    Program.Asked (Burns bnums h)
        ((burnHandles ext m (eventDocument "BLOCK_COMPLETED" completed) bnums l).run answers).trace ↔
      ∃ datastr ∈ l, (keptRow ext datastr).1 = h ∧ h ∉ m.burnaddresses ∧
        bnums = (keptRow ext datastr).2 := by
  induction l generalizing answers with
  | nil =>
      refine iff_of_false ?_ ?_
      · rintro ⟨d, hd, -⟩
        exact absurd hd List.not_mem_nil
      · rintro ⟨datastr, hmem, -⟩
        exact absurd hmem List.not_mem_nil
  | cons datastr l ih =>
      obtain ⟨u, hu⟩ := (burnHandle_total ext m bnums datastr).result hanswers
      rw [burnHandles_cons, Program.run_bind_some hu, Program.asked_append,
        burnHandle_burns ext m bnums hanswers, ih (Program.answers_isSome _ hanswers)]
      exact (List.exists_mem_cons_iff (fun datastr ↦ (keptRow ext datastr).1 = h ∧
        h ∉ m.burnaddresses ∧ bnums = (keptRow ext datastr).2) datastr l).symm

/-- What the end of a block does: it burns handles if something has expired, and clears what was
kept. -/
theorem blockCompleted_burns (completed : Json) (bnum : Nat) {answers : Nat → Option Rows}
    (hanswers : ∀ i, (answers i).isSome) :
    ((blockCompleted ext m (eventDocument "BLOCK_COMPLETED" completed) bnums bnum).run
        answers).result = some {} ∧
    ∀ h, Program.Asked (Burns bnums h) ((blockCompleted ext m
        (eventDocument "BLOCK_COMPLETED" completed) bnums bnum).run answers).trace ↔
      m.burnexpiredthisblock = true ∧ ∃ datastr ∈ m.handlejsons, (keptRow ext datastr).1 = h ∧
        h ∉ m.burnaddresses ∧ bnums = (keptRow ext datastr).2 := by
  have hdomains := burnDomains_total ext m bnums m.domainjsons
  have hhandles := burnHandles_total ext m bnums completed m.handlejsons
  obtain ⟨u, hu⟩ := (total_onlyIf (c := m.burnexpiredthisblock = true)
    (hdomains.bind fun _ ↦ hhandles)).result hanswers
  rw [blockCompleted, Program.run_bind_some hu]
  refine ⟨rfl, fun h ↦ ?_⟩
  have hack : (ackBlock (Uint32.sub bnum 1) >>= fun _ ↦ (pure {} : Prog Members)).Every
      fun q ↦ ¬ Burns bnums h q := trivial
  refine Program.asked_append.trans ((or_iff_left hack.not_asked).trans ?_)
  rw [onlyIf]
  split_ifs with hexpired
  · obtain ⟨v, hv⟩ := hdomains.result hanswers
    rw [Program.run_bind_some hv]
    refine Program.asked_append.trans ?_
    refine (or_iff_right (Program.Every.not_asked ?_)).trans ?_
    · refine (burnDomains_every ext m bnums _).mono fun q hq hburns ↦ ?_
      rw [hburns] at hq
      exact hq.elim (by decide : "updhandleburnt" ≠ "upddomainburnt")
        (by decide : "updhandleburnt" ≠ "insdomainactivities")
    refine (burnHandles_burns ext m bnums completed _
      (Program.answers_isSome _ hanswers) h).trans ?_
    exact (and_iff_right hexpired).symm
  · refine iff_of_false ?_ fun h ↦ hexpired h.1
    rintro ⟨d, hd, -⟩
    exact absurd hd List.not_mem_nil

/-- No addresses are looked for. -/
theorem blockCompleted_asks_no_addresses (completed : Json) (bnum : Nat)
    (answers : Nat → Option Rows) :
    ¬ Program.Asked (fun q ↦ q.statement.fn = "existspubaddress") ((blockCompleted ext m
      (eventDocument "BLOCK_COMPLETED" completed) bnums bnum).run answers).trace := by
  apply Program.Every.not_asked
  refine Program.every_bind.mpr ⟨every_onlyIf.mpr fun _ ↦ ?_, fun _ _ ↦ trivial⟩
  refine Program.every_bind.mpr ⟨?_, fun _ _ ↦ ?_⟩
  · refine (burnDomains_every ext m bnums _).mono fun q hq hfn ↦ ?_
    rw [hfn] at hq
    exact absurd hq (by decide)
  · refine (burnHandles_every ext m bnums completed _).mono fun q hq hfn ↦ ?_
    rw [hfn] at hq
    exact absurd hq (by decide)

end Burn

/-! ## The decision -/

/-- Something has expired in the block. -/
def HasBurnexpired (events : List BlockEvent) : Prop :=
  ∃ e ∈ events, ∃ a ∈ e.ownActions ext, a.actionname = "burnexpired"

/-- A handle was burnt by an action of the block. -/
def BurntByAction (events : List BlockEvent) (h : String) : Prop :=
  ∃ e ∈ events, ∃ a ∈ e.ownActions ext, a.actionname = "burnaddress" ∧ a.data ext "fio_address" = h

/-- The database has an address of a handle. -/
def Reported (db : Statement → Rows) (h : String) (address : Json) : Prop :=
  firstNumber (db (existspubaddress h
    (getjsonstring ext unknownString (address.get "chain_code") disallowEmptyValues)
    (getjsonstring ext unknownString (address.get "token_code") disallowEmptyValues)
    (getjsonstring ext unknownString (address.get "public_address") disallowEmptyValues))) 0 ≠ 0

/-- A row of a handle was removed in the block. -/
def RemovedIn (events : List BlockEvent) (h : String) (data : Json) : Prop :=
  .row data ∈ events ∧ RemovedHandle ext data ∧ rowHandle ext data = h

/-- The handle is to be burnt at the end of the block. -/
def ToBurn (db : Statement → Rows) (events : List BlockEvent) (h : String) : Prop :=
  HasBurnexpired ext events ∧ ¬ BurntByAction ext events h ∧
    ∃ data, RemovedIn ext events h data ∧ ∀ address ∈ rowAddresses data, Reported ext db h address

section Rows

variable {bnums : String} {bnum : Nat} {events : List BlockEvent} {m : Members}

theorem BlockEvent.mem_removedHandles {e : BlockEvent} {data : Json} :
    data ∈ e.removedHandles ext ↔ e = .row data ∧ RemovedHandle ext data := by
  cases e with
  | row data' =>
      rw [removedHandles]
      split_ifs with hremoved
      · refine List.mem_singleton.trans ⟨?_, fun h ↦ (BlockEvent.row.inj h.1).symm⟩
        rintro rfl
        exact ⟨rfl, hremoved⟩
      · refine iff_of_false List.not_mem_nil ?_
        rintro ⟨heq, h⟩
        exact hremoved (BlockEvent.row.inj heq ▸ h)
  | trace data' =>
      refine iff_of_false List.not_mem_nil ?_
      rintro ⟨heq, -⟩
      cases heq

/-- The text of a row gives the row again. -/
theorem keptRow_text {data : Json} (hdata : parseText ext (cString (ext.write data)) = data)
    (hblock : ∃ s, data.get "block_num" = .string s ∧ cString s = bnums) :
    keptRow ext (cString (ext.write data)) = (rowHandle ext data, bnums) := by
  obtain ⟨s, hs, hbnums⟩ := hblock
  rw [keptRow, hdata]
  refine Prod.ext rfl ?_
  change member ext data "block_num" = bnums
  rw [member, hs]
  exact hbnums

theorem burnexpired_kept (hm : (blockEvents ext bnums bnum {} events).Can m) :
    m.burnexpiredthisblock = true ↔ HasBurnexpired ext events := by
  rw [(blockEvents_kept ext hm).burnexpiredthisblock, HasBurnexpired]
  simp only [List.mem_flatMap, Bool.false_eq_true, false_or]
  constructor
  · rintro ⟨a, ⟨e, he, ha⟩, hname⟩
    exact ⟨e, he, a, ha, hname⟩
  · rintro ⟨e, he, a, ha, hname⟩
    exact ⟨a, ⟨e, he, ha⟩, hname⟩

theorem burnaddress_kept (hm : (blockEvents ext bnums bnum {} events).Can m) (h : String) :
    h ∈ m.burnaddresses ↔ BurntByAction ext events h := by
  rw [(blockEvents_kept ext hm).burnaddresses, BurntByAction]
  simp only [List.nil_append, List.mem_map, List.mem_filter, List.mem_flatMap, decide_eq_true_eq]
  constructor
  · rintro ⟨a, ⟨⟨e, he, ha⟩, hname⟩, hhandle⟩
    exact ⟨e, he, a, ha, hname, hhandle⟩
  · rintro ⟨e, he, a, ha, hname, hhandle⟩
    exact ⟨a, ⟨⟨e, he, ha⟩, hname⟩, hhandle⟩

/-- The handles that are considered, by what was received in the block. -/
theorem exists_kept_iff
    (hblock : ∀ e ∈ events, ∃ s, e.data.get "block_num" = .string s ∧ cString s = bnums)
    (hwrite : ∀ data, .row data ∈ events → parseText ext (cString (ext.write data)) = data)
    (hm : (blockEvents ext bnums bnum {} events).Can m) (h : String) :
    (m.burnexpiredthisblock = true ∧ ∃ datastr ∈ m.handlejsons, (keptRow ext datastr).1 = h ∧
        h ∉ m.burnaddresses ∧ bnums = (keptRow ext datastr).2) ↔
      HasBurnexpired ext events ∧ ¬ BurntByAction ext events h ∧
        ∃ data, RemovedIn ext events h data := by
  have hread := fun data (hdata : .row data ∈ events) ↦
    keptRow_text ext (hwrite data hdata) (hblock (.row data) hdata)
  rw [burnexpired_kept ext hm, burnaddress_kept ext hm, (blockEvents_kept ext hm).handlejsons]
  refine and_congr_right fun _ ↦ ?_
  constructor
  · rintro ⟨datastr, hmem, hhandle, hnot, -⟩
    obtain ⟨data, hdata, rfl⟩ := List.mem_map.mp hmem
    obtain ⟨e, he, hdata⟩ := List.mem_flatMap.mp hdata
    obtain ⟨rfl, hremoved⟩ := (BlockEvent.mem_removedHandles ext).mp hdata
    rw [hread data he] at hhandle
    exact ⟨hnot, data, he, hremoved, hhandle⟩
  · rintro ⟨hnot, data, hdata, hremoved, hhandle⟩
    have hmem := List.mem_flatMap.mpr
      ⟨_, hdata, (BlockEvent.mem_removedHandles ext).mpr ⟨rfl, hremoved⟩⟩
    refine ⟨_, List.mem_map.mpr ⟨data, hmem, rfl⟩, ?_⟩
    rw [hread data hdata]
    exact ⟨hhandle, hnot, rfl⟩

end Rows

/-- **At the end of a block exactly those handles are burnt that are to be burnt, if and only if
every handle with a removed row that is considered has one whose addresses the database all has.
The addresses are never asked for, and what was kept of the block is cleared.** -/
theorem auto_burn_iff (bnums : String) (bnum : Nat) (events : List BlockEvent) (completed : Json)
    (m : Members) (answers : Nat → Option Rows) (db : Statement → Rows)
    (hblock : ∀ e ∈ events, ∃ s, e.data.get "block_num" = .string s ∧ cString s = bnums)
    (hwrite : ∀ data, .row data ∈ events → parseText ext (cString (ext.write data)) = data)
    (hm : (blockEvents ext bnums bnum {} events).Can m)
    (hanswers : ∀ i, (answers i).isSome) :
    let out := (blockCompleted ext m (eventDocument "BLOCK_COMPLETED" completed) bnums bnum).run
      answers
    out.result = some {} ∧
    ¬ Program.Asked (fun q ↦ q.statement.fn = "existspubaddress") out.trace ∧
    ((∀ h, Program.Asked (Burns bnums h) out.trace ↔ ToBurn ext db events h) ↔
      ∀ h, HasBurnexpired ext events → ¬ BurntByAction ext events h →
        (∃ data, RemovedIn ext events h data) →
          ∃ data, RemovedIn ext events h data ∧
            ∀ address ∈ rowAddresses data, Reported ext db h address) := by
  intro out
  obtain ⟨hresult, hburns⟩ := blockCompleted_burns ext m bnums completed bnum hanswers
  refine ⟨hresult, blockCompleted_asks_no_addresses ext m bnums completed bnum answers, ?_⟩
  have hasked := fun h ↦ (hburns h).trans (exists_kept_iff ext hblock hwrite hm h)
  constructor
  · intro hclaim h hexpired haction hrow
    exact ((hclaim h).mp ((hasked h).mpr ⟨hexpired, haction, hrow⟩)).2.2
  · intro hcondition h
    refine (hasked h).trans ⟨?_, ?_⟩
    · rintro ⟨hexpired, haction, hrow⟩
      exact ⟨hexpired, haction, hcondition h hexpired haction hrow⟩
    · rintro ⟨hexpired, haction, data, hrow, -⟩
      exact ⟨hexpired, haction, data, hrow⟩

/-- The row of a handle with one address. -/
def aliceRow : Json :=
  .object [("block_num", .string "100"), ("block_timestamp", .string "2024-01-01T00:00:00.000"),
    ("added", .string "false"), ("kvo", .object [("code", .string "fio.address"),
      ("scope", .string "fio.address"), ("table", .string "fiohandles"),
      ("primary_key", .string "7"), ("payer", .string "alice"), ("value", .object [
        ("id", .string "7"), ("name", .string "alice@fio"), ("addresses", .array [.object [
          ("token_code", .string "BTC"), ("chain_code", .string "BTC"),
          ("public_address", .string "1abc")]])])])]

/-- Its text, piece by piece. -/
def alicePieces : List String :=
  ["\x7b\"block_num\":\"100\",", "\"block_timestamp\":", "\"2024-01-01T00:00:00.000\",",
    "\"added\":\"false\",", "\"kvo\":\x7b\"code\":", "\"fio.address\",",
    "\"scope\":\"fio.address\",", "\"table\":\"fiohandles\",", "\"primary_key\":\"7\",",
    "\"payer\":\"alice\",", "\"value\":\x7b\"id\":\"7\",", "\"name\":\"alice@fio\",",
    "\"addresses\":[", "\x7b\"token_code\":\"BTC\",", "\"chain_code\":\"BTC\",",
    "\"public_address\":", "\"1abc\"\x7d]\x7d\x7d\x7d"]

/-- Its text. -/
def aliceText : String := String.ofList (alicePieces.flatMap String.toList)

/-- Libraries that know this row. -/
def aliceExternals : Externals where
  parse text := if text = aliceText.toUTF8.toList then aliceRow else .null
  write
    | .object _ => aliceText
    | .number text => text
    | _ => ""
  pqEscapeLiteral s := some (String.ofList (Sql.quoted (Sql.escaped s.toList)))
  shortenKey _ := 0

/-- A block in which handles expire, and this one is removed. -/
def aliceBlock : List BlockEvent :=
  [.trace ((transactionDocument "executed" [traceObject "1" "0" "fio.address" "fio.address"
    "burnexpired" (.string "00")]).get "data"), .row aliceRow]

/-- What is kept of the block. -/
def aliceMembers : Members :=
  (((blockEvents aliceExternals "100" 100 {} aliceBlock).run fun _ ↦ some [["1"]]).result).getD {}

set_option maxRecDepth 10000 in
theorem aliceMembers_can :
    (blockEvents aliceExternals "100" 100 {} aliceBlock).Can aliceMembers := by
  have hsome : ((blockEvents aliceExternals "100" 100 {} aliceBlock).run
      fun _ ↦ some [["1"]]).result.isSome := by decide +kernel
  obtain ⟨m, hm⟩ := Option.isSome_iff_exists.mp hsome
  have hmembers : aliceMembers = m := by rw [aliceMembers, hm, Option.getD_some]
  rw [hmembers]
  exact Program.can_of_result hm

theorem aliceBlock_number : ∀ e ∈ aliceBlock,
    ∃ s, e.data.get "block_num" = .string s ∧ cString s = "100" := by
  intro e he
  rcases List.mem_cons.mp he with rfl | he
  · exact ⟨"100", rfl, by decide⟩
  · obtain rfl := List.mem_singleton.mp he
    exact ⟨"100", rfl, by decide⟩

/-- The row is read. -/
theorem aliceExternals_parse : parseText aliceExternals aliceText = aliceRow := if_pos rfl

/-- The text has no null characters. -/
theorem aliceText_eq : cString aliceText = aliceText := by
  apply cString_eq_self
  rw [aliceText, String.toList_ofList, List.all_flatMap]
  decide +kernel

theorem aliceBlock_text : ∀ data, .row data ∈ aliceBlock →
    parseText aliceExternals (cString (aliceExternals.write data)) = data := by
  intro data hdata
  have hdata : data = aliceRow := by
    rcases List.mem_cons.mp hdata with h | h
    · cases h
    · exact BlockEvent.row.inj (List.mem_singleton.mp h)
  have hwrite : aliceExternals.write aliceRow = aliceText := rfl
  rw [hdata, hwrite, aliceText_eq]
  exact aliceExternals_parse

/-- The end of a block in which the database has the address of the handle. -/
theorem auto_burn_alice :
    ((blockCompleted aliceExternals aliceMembers (eventDocument "BLOCK_COMPLETED" (.object
      [("block_num", .string "100")])) "100" 100).run fun _ ↦ some [["1"]]).result = some {} :=
  (auto_burn_iff aliceExternals "100" 100 aliceBlock (.object [("block_num", .string "100")])
    aliceMembers (fun _ ↦ some [["1"]]) (fun _ ↦ [["1"]]) aliceBlock_number aliceBlock_text
    aliceMembers_can fun _ ↦ rfl).1

set_option maxRecDepth 10000 in
/-- A handle is burnt though the database does not have its address. -/
theorem handle_burnt_without_address :
    Program.Asked (Burns "100" "alice@fio") ((blockCompleted aliceExternals aliceMembers
      (eventDocument "BLOCK_COMPLETED" (.object [("block_num", .string "100")])) "100" 100).run
        fun _ ↦ some [["0"]]).trace ∧
    ¬ ToBurn aliceExternals (fun _ ↦ [["0"]]) aliceBlock "alice@fio" := by
  have hrow : RemovedIn aliceExternals aliceBlock "alice@fio" aliceRow :=
    ⟨List.mem_cons_of_mem _ List.mem_cons_self, by decide +kernel, by decide +kernel⟩
  constructor
  · refine ((blockCompleted_burns aliceExternals aliceMembers "100" _ 100 fun _ ↦ rfl).2 _).mpr ?_
    refine (exists_kept_iff aliceExternals aliceBlock_number aliceBlock_text
      aliceMembers_can _).mpr ⟨?_, ?_, aliceRow, hrow⟩
    · rw [HasBurnexpired]
      decide +kernel
    · rw [BurntByAction]
      decide +kernel
  · rintro ⟨-, -, data, ⟨hdata, -⟩, haddresses⟩
    have hdata : data = aliceRow := by
      rcases List.mem_cons.mp hdata with h | h
      · cases h
      · exact BlockEvent.row.inj (List.mem_singleton.mp h)
    rw [hdata] at haddresses
    refine haddresses _ List.mem_cons_self ?_
    exact (by decide : firstNumber [["0"]] 0 = 0)

end Chronicle.Relic
