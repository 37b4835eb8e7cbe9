import Chronicle.Block.Tagged
import Chronicle.Block.Traces
import Chronicle.Logic.Emit

/-!
# The events of a block

What the receiver publishes for a block in scan mode, as a function of the options, the position
and the heading of the block, its result, and the current ABIs before it (`blockEvents`).  The
function knows neither the cache of decoded ABIs nor the database, and no event of it depends on
what the exporter does.  A block that is completed publishes exactly these events, in this order
(`processBlock_published`).
-/

namespace Chronicle

open Store Effect

variable {Abi : Type} (lib : Abieos Abi)

/-! ## Current ABIs -/

/-- The current ABIs after an account was created or updated. -/
def applyAbi (abis : Table Name Bytes) (acc : AccountV0) : Table Name Bytes :=
  if acc.abi = [] then
    if (abis.find? acc.name).isSome then abis.erase acc.name else abis
  else if (lib.convert acc.abi).isSome then abis.insert acc.name acc.abi
  else abis

/-- The current ABIs after accounts were created or updated one after the other. -/
def applyAbis (abis : Table Name Bytes) (accounts : List AccountV0) : Table Name Bytes :=
  accounts.foldl (applyAbi lib) abis

theorem setAbi_contractAbi (h : Nat) (acc : AccountV0) (t : Tables) :
    (t.setAbi lib h acc).contractAbi = applyAbi lib t.contractAbi acc := by
  rw [Tables.setAbi, applyAbi]
  split_ifs with hempty hrow hvalid
  · rw [Tables.clearAbi, if_pos hrow]
    rfl
  · rw [Tables.clearAbi, if_neg hrow]
  · rw [Tables.saveAbi, if_pos hvalid]
    rfl
  · rw [Tables.saveAbi, if_neg hvalid]
    rfl

theorem setAbis_contractAbi (h : Nat) (accounts : List AccountV0) (t : Tables) :
    (t.setAbis lib h accounts).contractAbi = applyAbis lib t.contractAbi accounts := by
  induction accounts generalizing t with
  | nil => rfl
  | cons acc accounts ih =>
      rw [Tables.setAbis_cons, ih, setAbi_contractAbi]
      rfl

theorem blockEffect_contractAbi (block : BlockPosition) (result : GetBlocksResult) (t : Tables) :
    (blockEffect lib block result t).contractAbi =
      applyAbis lib t.contractAbi result.accounts := by
  change ((t.addReceived block result.lastIrreversible.blockNum).setAbis lib block.blockNum
    result.accounts).contractAbi = _
  rw [setAbis_contractAbi, (Tables.addReceived_frame ..).1]

/-! ## The events of the parts -/

/-- The events of the part with the block, at a position. -/
def blockPartEvents (o : Options) (s : StateObject) : Option (Parsed SignedBlock) → List Event
  | some (.ok block) =>
    (if o.subscribers.blockStarted then
      [.blockStarted
        { blockNum := s.head, blockId := s.headId, blockTimestamp := block.timestamp,
          lastIrreversible := s.irreversible }] else []) ++
    (if !o.skipBlockEvents then
      [.block
        { blockNum := s.head, blockId := s.headId, lastIrreversible := s.irreversible, block }]
      else [])
  | _ => []

section Deltas

variable (o : Options) (b : Nat) (ts : BlockTimestamp)

/-- The events of bytes that were set for an account. -/
def savedAbiEvents (account : Name) (data : Bytes) : List Event :=
  if (lib.convert data).isSome then
    if o.subscribers.abiUpdates then
      match lib.fromBin data with
      | .error what => [.abiError { blockNum := b, blockTimestamp := ts, account, error := what }]
      | .ok _ => [.abiUpdate { blockNum := b, blockTimestamp := ts, account, binary := data }]
    else []
  else [.abiError { blockNum := b, blockTimestamp := ts, account, error := lib.getError data }]

/-- The events of an account that is created or updated. -/
def accountEvents (abis : Table Name Bytes) (acc : AccountV0) : List Event :=
  if acc.abi = [] then
    if (abis.find? acc.name).isSome then
      [.abiRemoval { blockNum := b, blockTimestamp := ts, account := acc.name }] else []
  else savedAbiEvents lib o b ts acc.name acc.abi

/-- The event of a row of a contract, which is there if the contract has an ABI. -/
def contractRowEvents (abis : Table Name Bytes) (row : Row ContractRowV0) : List Event :=
  row.data.toOption.toList.flatMap fun kvo ↦
    if takeTableRow o kvo.code then
      [if (abis.find? kvo.code).isSome then
        .tableRowUpdate { blockNum := b, blockTimestamp := ts, added := row.present, kvo }
      else
        .abiError { blockNum := b, blockTimestamp := ts, account := kvo.code,
                    error := "cannot decode table delta because of missing ABI" }]
    else []

/-- The event of a row with account information. -/
def accountInfoEvents (channel : AccountInfoUpdate → Event) (withAdded : Bool)
    (row : Row Bytes) : List Event :=
  row.data.toOption.toList.map fun data ↦
    channel { blockNum := b, blockTimestamp := ts, added := !withAdded || row.present, data }

/-- The events of the rows of a delta. -/
def tableRowsEvents (abis : Table Name Bytes) : TableDelta → List Event
  | .account rows =>
    emits (applyAbi lib) (accountEvents lib o b ts) abis (rows.filterMap accountOf)
  | .contractRow rows =>
    if exportsContractRows o then rows.flatMap (contractRowEvents o b ts abis) else []
  | .permission rows =>
    if exportsAccountInfo o o.subscribers.permissionUpdates then
      rows.flatMap (accountInfoEvents b ts .permissionUpdate true) else []
  | .permissionLink rows =>
    if exportsAccountInfo o o.subscribers.permissionLinkUpdates then
      rows.flatMap (accountInfoEvents b ts .permissionLinkUpdate true) else []
  | .accountMetadata rows =>
    if exportsAccountInfo o o.subscribers.accountMetadataUpdates then
      rows.flatMap (accountInfoEvents b ts .accountMetadataUpdate false) else []
  | .other _ => []

/-- The events of a delta. -/
def tableDeltaEvents (abis : Table Name Bytes) (delta : TableDelta) : List Event :=
  tableRowsEvents lib o b ts abis delta ++
    if o.subscribers.blockTableDeltas then
      [.blockTableDelta { blockNum := 0, blockTimestamp := ts, tableDelta := delta }] else []

/-- The events of deltas, each with the ABIs that those before it have left. -/
def deltasEvents (abis : Table Name Bytes) (deltas : List (Parsed TableDelta)) : List Event :=
  emits (fun abis delta ↦ applyAbis lib abis delta.accounts) (tableDeltaEvents lib o b ts) abis
    (deltas.filterMap Except.toOption)

/-- The events of traces. -/
def tracesEvents (traces : List (Parsed TransactionTrace)) : List Event :=
  if o.subscribers.transactionTraces then
    ((traces.filterMap Except.toOption).filter (takeTrace o)).map fun trace ↦
      .transactionTrace { blockNum := b, blockTimestamp := ts, trace }
  else []

end Deltas

/-- The event that completes a block. -/
def finishedEvent (s : StateObject) (own : Heading) : Event :=
  .blockCompleted
    { blockNum := s.head, blockId := s.headId, lastIrreversible := s.irreversible,
      blockTimestamp := own.header.timestamp, producer := own.header.producer,
      previous := own.header.previous, transactionMroot := own.header.transactionMroot,
      actionMroot := own.header.actionMroot, trxCount := own.trxCount }

/-- The events of a block, given the ABIs before it. -/
def blockEvents (o : Options) (s : StateObject) (own : Heading) (abis : Table Name Bytes)
    (result : GetBlocksResult) : List Event :=
  blockPartEvents o s result.block ++
    deltasEvents lib o s.head own.header.timestamp abis (result.deltas.getD []) ++
    tracesEvents o s.head own.header.timestamp (result.traces.getD []) ++
    [finishedEvent s own]

section Inside

variable {lib} {o : Options} {b : Nat} {ts : BlockTimestamp} {abis : Table Name Bytes} {e : Event}

theorem inside_accountEvents {acc : AccountV0} (h : e ∈ accountEvents lib o b ts abis acc) :
    e.Inside b := by
  rw [accountEvents, savedAbiEvents] at h
  split_ifs at h
  · rw [List.mem_singleton.mp h]
    rfl
  · cases h
  · cases hbin : lib.fromBin acc.abi with
    | error what =>
        rw [hbin] at h
        rw [List.mem_singleton.mp h]
        rfl
    | ok _ =>
        rw [hbin] at h
        rw [List.mem_singleton.mp h]
        rfl
  · cases h
  · rw [List.mem_singleton.mp h]
    rfl

theorem inside_contractRowEvents {row : Row ContractRowV0}
    (h : e ∈ contractRowEvents o b ts abis row) : e.Inside b := by
  obtain ⟨kvo, -, h⟩ := List.mem_flatMap.mp h
  split_ifs at h
  · rw [List.mem_singleton.mp h]
    rfl
  · rw [List.mem_singleton.mp h]
    rfl
  · cases h

theorem inside_accountInfoEvents {channel : AccountInfoUpdate → Event}
    (hc : ∀ u : AccountInfoUpdate, u.blockNum = b → (channel u).Inside b) {withAdded : Bool}
    {row : Row Bytes} (h : e ∈ accountInfoEvents b ts channel withAdded row) : e.Inside b := by
  obtain ⟨data, -, rfl⟩ := List.mem_map.mp h
  exact hc _ rfl

theorem inside_tableRowsEvents {delta : TableDelta}
    (h : e ∈ tableRowsEvents lib o b ts abis delta) : e.Inside b := by
  have hinfo : ∀ {exported : Bool} (channel : AccountInfoUpdate → Event) {withAdded : Bool}
      {rows : List (Row Bytes)},
      (∀ u : AccountInfoUpdate, u.blockNum = b → (channel u).Inside b) →
      (e ∈ if exported then rows.flatMap (accountInfoEvents b ts channel withAdded) else []) →
      e.Inside b := by
    intro exported channel withAdded rows hc h
    split_ifs at h
    · obtain ⟨row, -, h⟩ := List.mem_flatMap.mp h
      exact inside_accountInfoEvents hc h
    · cases h
  cases delta with
  | account rows =>
      obtain ⟨_, acc, _, -, h⟩ := mem_emits h
      exact inside_accountEvents h
  | contractRow rows =>
      rw [tableRowsEvents] at h
      split_ifs at h
      · obtain ⟨row, -, h⟩ := List.mem_flatMap.mp h
        exact inside_contractRowEvents h
      · cases h
  | permission rows => exact hinfo .permissionUpdate (fun _ hu ↦ congrArg some hu) h
  | permissionLink rows => exact hinfo .permissionLinkUpdate (fun _ hu ↦ congrArg some hu) h
  | accountMetadata rows => exact hinfo .accountMetadataUpdate (fun _ hu ↦ congrArg some hu) h
  | other name => cases h

theorem inside_deltasEvents {deltas : List (Parsed TableDelta)}
    (h : e ∈ deltasEvents lib o b ts abis deltas) : e.Inside b := by
  obtain ⟨_, delta, _, -, h⟩ := mem_emits h
  rcases List.mem_append.mp h with h | h
  · exact inside_tableRowsEvents h
  · split_ifs at h
    · rw [List.mem_singleton.mp h]
      trivial
    · cases h

theorem inside_blockPartEvents {s : StateObject} {block : Option (Parsed SignedBlock)}
    (h : e ∈ blockPartEvents o s block) : e.Inside s.head := by
  rcases block with _ | _ | block
  · cases h
  · cases h
  · rcases List.mem_append.mp h with h | h
    all_goals
      split_ifs at h
      · rw [List.mem_singleton.mp h]
        rfl
      · cases h

theorem inside_tracesEvents {traces : List (Parsed TransactionTrace)}
    (h : e ∈ tracesEvents o b ts traces) : e.Inside b := by
  rw [tracesEvents] at h
  split_ifs at h
  · obtain ⟨trace, -, rfl⟩ := List.mem_map.mp h
    rfl
  · cases h

/-- A block is completed once, by its last event, and has no fork and no pause in it. -/
theorem blockEvents_eq (lib : Abieos Abi) (o : Options) (s : StateObject) (own : Heading)
    (abis : Table Name Bytes) (result : GetBlocksResult) :
    ∃ es, blockEvents lib o s own abis result = es ++ [finishedEvent s own] ∧
      ∀ e ∈ es, e.Inside s.head := by
  refine ⟨_, rfl, fun e he ↦ ?_⟩
  rcases List.mem_append.mp he with he | he
  · rcases List.mem_append.mp he with he | he
    · exact inside_blockPartEvents he
    · exact inside_deltasEvents he
  · exact inside_tracesEvents he

end Inside

/-! ## The programs -/

theorem clearContractAbi_run (account : Name) (w : World Abi) :
    clearContractAbi account w = .ok ()
      { w with
        proc := w.proc.drop account
        db := w.db.modify (Tables.clearAbi w.proc.head account)
        log := w.log ++
          if (w.db.current.contractAbi.find? account).isSome then
            [.published (.abiRemoval
              { blockNum := w.proc.head, blockTimestamp := w.proc.blockHeader.timestamp,
                account })]
          else [] } := by
  have hrun : clearContractAbi account w =
      (if account ∈ w.proc.contractAbiImported then
        initContractAbiCtxt >>= fun _ ↦
          (if (w.db.current.contractAbi.find? account).isSome then _ else pure () :
            Receiver Abi Unit)
      else
        (if (w.db.current.contractAbi.find? account).isSome then _ else pure () :
          Receiver Abi Unit)) w := rfl
  rw [hrun, Proc.drop, Undo.modify, Tables.clearAbi]
  split_ifs
  · rfl
  · simp only [List.append_nil]
    rfl
  · rfl
  · simp only [List.append_nil]
    rfl

/-- The `try` block of `save_contract_abi` publishes one event at most. -/
theorem tryContractAbi_published {account : Name} (data : Bytes) {w : World Abi}
    (hnone : w.proc.contractAbiCtxt.find? account = none) :
    Ends (fun _ w' ↦ published w'.log = published w.log ++
        savedAbiEvents lib w.options w.proc.head w.proc.blockHeader.timestamp account data)
      (fun _ _ ↦ True) (tryContractAbi lib account data w) := by
  refine Ends.bind_ok (abieosSetAbiBin_run lib hnone) ?_
  rw [savedAbiEvents]
  cases lib.convert data with
  | none =>
      change published (w.log ++ [.setAbiBin account false] ++ [.published _]) = _
      rw [published_append, published_append]
      simp [published]
  | some abi =>
      refine Ends.bind_ok rfl (Ends.bind_ok rfl ?_)
      change Ends _ _ ((if w.options.subscribers.abiUpdates then
        match lib.fromBin data with
        | .error what => publishAbiError account what
        | .ok _ => publish (.abiUpdate _)
      else pure () : Receiver Abi Unit) _)
      rw [Option.isSome_some, if_pos rfl]
      split_ifs
      · cases lib.fromBin data with
        | error what =>
            change published (w.log ++ [.setAbiBin account false] ++ [.published _]) = _
            rw [published_append, published_append]
            simp [published]
        | ok _ =>
            change published (w.log ++ [.setAbiBin account false] ++ [.published _]) = _
            rw [published_append, published_append]
            simp [published]
      · change published (w.log ++ [.setAbiBin account false]) = _
        rw [published_append]
        simp [published]

theorem saveContractAbi_published (account : Name) (data : Bytes) {w : World Abi}
    (hc : w.proc.Cached) :
    Ends (fun _ w' ↦ published w'.log = published w.log ++
        savedAbiEvents lib w.options w.proc.head w.proc.blockHeader.timestamp account data)
      (fun _ _ ↦ True) (saveContractAbi lib account data w) := by
  have hrest : ∀ w₁ : World Abi, w₁.options = w.options → w₁.proc.head = w.proc.head →
      w₁.proc.blockHeader = w.proc.blockHeader → w₁.log = w.log →
      w₁.proc.contractAbiCtxt.find? account = none →
      Ends (fun _ w' ↦ published w'.log = published w.log ++
          savedAbiEvents lib w.options w.proc.head w.proc.blockHeader.timestamp account data)
        (fun _ _ ↦ True)
        ((tryContractAbi lib account data >>= fun _ ↦ saveContractAbiHistory account data) w₁) := by
    intro w₁ ho hh hb hl hnone
    refine (tryContractAbi_published lib data hnone).bind (fun _ w₂ hw₂ ↦ ?_)
      fun _ _ h ↦ h
    rw [ho, hh, hb, hl] at hw₂
    exact hw₂
  change Ends _ _ ((if account ∈ w.proc.contractAbiImported then
    initContractAbiCtxt >>= fun _ ↦
      (tryContractAbi lib account data >>= fun _ ↦ saveContractAbiHistory account data)
    else tryContractAbi lib account data >>= fun _ ↦ saveContractAbiHistory account data :
      Receiver Abi Unit) w)
  split_ifs with himp
  · exact hrest { w with proc := w.proc.cleared } rfl rfl rfl rfl (Table.find?_empty account)
  · exact hrest w rfl rfl rfl rfl (hc.find?_eq_none himp)

/-- Nothing is published when an ABI is loaded. -/
theorem published_readyLog (w : World Abi) (account : Name) :
    published (w.readyLog lib account) = [] := by
  rw [World.readyLog]
  split_ifs <;> rfl

/-! ## Within a block -/

/-- While a block is processed: the current ABIs, and the events so far. -/
structure Showing (w₀ : World Abi) (abis : Table Name Bytes) (es : List Event) (w : World Abi) :
    Prop where
  coherent : CoherentAt lib w₀ w.db.current w
  abis : w.db.current.contractAbi = abis
  marked : Marked True w₀ w
  log : published w.log = published w₀.log ++ es

section Programs

variable {w₀ w : World Abi} {abis abis' : Table Name Bytes} {es : List Event} {lib}

theorem Showing.options (h : Showing lib w₀ abis es w) : w.options = w₀.options := h.marked.options

/-- The position and the heading of the block. -/
theorem Showing.tag (h : Showing lib w₀ abis es w) : w.proc.head = w₀.proc.head ∧
    w.proc.blockHeader.timestamp = w₀.proc.blockHeader.timestamp := h.marked.tag

theorem Showing.cached (h : Showing lib w₀ abis es w) : w.proc.Cached := h.coherent.1.1.cached

/-- A program that is known to read its data and to keep the heading, from what it publishes. -/
theorem shows_of_reads {m : Receiver Abi Unit} {new : List Event}
    (hreads : ∀ t : Tables, t.contractAbi = abis →
      ∃ t' R, Reads (CoherentAt lib w₀) t m t' R ∧ t'.contractAbi = abis')
    (hkeeps : Keeps (Marked True w₀) m)
    (hnew : ∀ w, Showing lib w₀ abis es w →
      Ends (fun _ w' ↦ published w'.log = published w.log ++ new) (fun _ _ ↦ True) (m w)) :
    Triple (Showing lib w₀ abis es) m (fun _ ↦ Showing lib w₀ abis' (es ++ new))
      fun _ _ ↦ True := by
  intro w hw
  obtain ⟨t', R, hreads, ht'⟩ := hreads _ hw.abis
  have hends := ((hreads w hw.coherent).and (hkeeps w hw.marked)).and (hnew w hw)
  refine hends.mono (fun _ w' h ↦ ?_) fun _ _ _ ↦ trivial
  obtain ⟨⟨⟨hcoh, -⟩, hmarked⟩, hlog⟩ := h
  have hcur : w'.db.current = t' := hcoh.1.2
  refine ⟨by rw [hcur]; exact hcoh, by rw [hcur, ht'], hmarked, ?_⟩
  rw [hlog, hw.log, List.append_assoc]

/-- A row of the `account` table. -/
theorem shows_receiveAccountRow (hscan : w₀.options.interactiveMode = false)
    (row : Row AccountV0) :
    Triple (Showing lib w₀ abis es) (receiveAccountRow lib row)
      (fun _ ↦ Showing lib w₀ ((accountOf row).elim abis (applyAbi lib abis))
        (es ++ (accountOf row).elim [] (accountEvents lib w₀.options w₀.proc.head
          w₀.proc.blockHeader.timestamp abis))) fun _ _ ↦ True := by
  refine shows_of_reads (fun t ht ↦ ?_) (keeps_receiveAccountRow lib row) fun w hw ↦ ?_
  · refine ⟨_, _, (coherentRule lib w₀).reads_receiveAccountRow hscan row t, ?_⟩
    rw [setAbis_contractAbi, ht]
    cases accountOf row <;> rfl
  · obtain ⟨hhead, hts⟩ := hw.tag
    have hopt := hw.options
    cases hvariant : row.variant with
    | error what =>
        rw [receiveAccountRow, hvariant]
        trivial
    | ok _ =>
        rw [receiveAccountRow, hvariant]
        change Ends _ _ ((if row.present then
          (fromBin row.data >>= fun acc ↦
            if acc.abi = [] then clearContractAbi acc.name
            else saveContractAbi lib acc.name acc.abi)
          else pure () : Receiver Abi Unit) w)
        split_ifs with hpresent
        · cases hdata : row.data with
          | error what => trivial
          | ok acc =>
              have hof : accountOf row = some acc := by
                rw [accountOf, hpresent, hdata]
                rfl
              rw [hof, Option.elim_some, accountEvents]
              change Ends _ _ ((if acc.abi = [] then clearContractAbi acc.name
                else saveContractAbi lib acc.name acc.abi : Receiver Abi Unit) w)
              split_ifs with hempty hrow
              · rw [clearContractAbi_run, hw.abis, if_pos hrow, hhead, hts]
                exact published_append _ _
              · rw [clearContractAbi_run, hw.abis, if_neg hrow]
                exact published_append _ _
              · have hsave := saveContractAbi_published lib acc.name acc.abi hw.cached
                rwa [hopt, hhead, hts] at hsave
        · have hof : accountOf row = none := by rw [accountOf, if_neg hpresent]
          rw [hof]
          exact (List.append_nil _).symm

/-- A contract is ready to be decoded exactly if it has a current ABI. -/
theorem Showing.ready (hw : Showing lib w₀ abis es w)
    (hscan : w₀.options.interactiveMode = false) (hcoh : Coherent lib w₀.proc w₀.db.current)
    (account : Name) :
    (decide (account ∈ w.proc.contractAbiImported) || (w.lookupAbi account).isSome) =
      (abis.find? account).isSome := by
  have hc : Coherent lib w.proc w.db.current := hw.coherent.2 hscan hcoh
  have hlookup : w.lookupAbi account = abis.find? account := by
    rw [World.lookupAbi, hw.options, hscan, ← hw.abis]
    rfl
  rw [hlookup]
  by_cases himp : account ∈ w.proc.contractAbiImported
  · obtain ⟨abi, habi⟩ := Option.isSome_iff_exists.mp ((hc.imported account).mp himp)
    obtain ⟨data, hdata, -⟩ := hc.decoded account abi habi
    rw [← hw.abis, hdata]
    simp
  · simp [himp]

/-- A row of the `contract_row` table. -/
theorem shows_receiveContractRow (hscan : w₀.options.interactiveMode = false)
    (hcoh : Coherent lib w₀.proc w₀.db.current) (row : Row ContractRowV0) :
    Triple (Showing lib w₀ abis es) (receiveContractRow lib row)
      (fun _ ↦ Showing lib w₀ abis
        (es ++ contractRowEvents w₀.options w₀.proc.head w₀.proc.blockHeader.timestamp abis row))
      fun _ _ ↦ True := by
  refine shows_of_reads (fun t ht ↦
      ⟨t, _, (coherentRule lib w₀).reads_receiveContractRow row t, ht⟩)
    (keeps_receiveContractRow lib row) fun w hw ↦ ?_
  obtain ⟨hhead, hts⟩ := hw.tag
  cases hvariant : row.variant with
  | error what =>
      rw [receiveContractRow, hvariant]
      trivial
  | ok _ =>
      cases hdata : row.data with
      | error what =>
          rw [receiveContractRow, hvariant, hdata]
          trivial
      | ok kvo =>
          rw [receiveContractRow, hvariant, hdata, contractRowEvents, hdata]
          change Ends _ _ ((if takeTableRow w.options kvo.code then
            (getContractAbiReady lib kvo.code >>= fun ready ↦ if ready then _ else _)
            else pure () : Receiver Abi Unit) w)
          rw [hw.options]
          have hready := hw.ready hscan hcoh kvo.code
          simp only [Except.toOption, Option.toList_some, List.flatMap_cons, List.flatMap_nil,
            List.append_nil]
          split_ifs with htake hfound
          · refine Ends.bind_ok (getContractAbiReady_run lib kvo.code hw.cached) ?_
            rw [hready, hfound]
            change published (w.log ++ w.readyLog lib kvo.code ++ [.published _]) = _
            rw [published_append, published_append, published_readyLog, List.append_nil, hhead, hts]
            rfl
          · refine Ends.bind_ok (getContractAbiReady_run lib kvo.code hw.cached) ?_
            rw [hready, Bool.eq_false_iff.mpr hfound]
            change published (w.log ++ w.readyLog lib kvo.code ++ [.published _]) = _
            rw [published_append, published_append, published_readyLog, List.append_nil, hhead, hts]
            rfl
          · exact (List.append_nil _).symm

/-- A row of a table with account information. -/
theorem shows_receiveAccountInfoRow {channel : AccountInfoUpdate → Event}
    (hc : ∀ e : AccountInfoUpdate, e.blockNum = w₀.proc.head →
      (channel e).Inside w₀.proc.head ∧ (e.blockTimestamp = w₀.proc.blockHeader.timestamp →
        (channel e).Stamped True w₀.proc.head w₀.proc.heading))
    (withAdded : Bool) (row : Row Bytes) :
    Triple (Showing lib w₀ abis es) (receiveAccountInfoRow channel withAdded row)
      (fun _ ↦ Showing lib w₀ abis
        (es ++ accountInfoEvents w₀.proc.head w₀.proc.blockHeader.timestamp channel withAdded row))
      fun _ _ ↦ True := by
  refine shows_of_reads (fun t ht ↦
      ⟨t, _, (coherentRule lib w₀).reads_receiveAccountInfoRow (fun e he ↦ (hc e he).1) withAdded
        row t, ht⟩)
    (keeps_receiveAccountInfoRow (fun e hb ht ↦ (hc e hb).2 ht) withAdded row) fun w hw ↦ ?_
  obtain ⟨hhead, hts⟩ := hw.tag
  cases hvariant : row.variant with
  | error what =>
      rw [receiveAccountInfoRow, hvariant]
      trivial
  | ok _ =>
      cases hdata : row.data with
      | error what =>
          rw [receiveAccountInfoRow, hvariant, hdata]
          trivial
      | ok data =>
          rw [receiveAccountInfoRow, hvariant, hdata, accountInfoEvents, hdata]
          change published (w.log ++ [.published _]) = _
          rw [published_append, hhead, hts]
          rfl

/-- The rows of a table, if they are exported. -/
theorem shows_rows {α : Type} {f : α → Receiver Abi Unit} {out : α → List Event}
    (hf : ∀ es row, Triple (Showing lib w₀ abis es) (f row)
      (fun _ ↦ Showing lib w₀ abis (es ++ out row)) fun _ _ ↦ True)
    (exported : Bool) (rows : List α) :
    Triple (Showing lib w₀ abis es) (if exported then rows.forM f else pure ())
      (fun _ ↦ Showing lib w₀ abis (es ++ if exported then rows.flatMap out else []))
      fun _ _ ↦ True := by
  cases exported with
  | false =>
      refine Triple.pure fun w hw ↦ ?_
      rw [if_neg Bool.false_ne_true, List.append_nil]
      exact hw
  | true =>
      have hloop := @Triple.forM_emits _ _ _ _ _ (fun _ _ ↦ ()) (fun _ ↦ out)
        (fun _ ↦ Showing lib w₀ abis) _ _ (fun _ es row ↦ hf es row) () es rows
      rw [emits_const] at hloop
      exact hloop

/-- The rows of a delta, by table. -/
theorem shows_receiveTableRows (hscan : w₀.options.interactiveMode = false)
    (hcoh : Coherent lib w₀.proc w₀.db.current) (delta : TableDelta) :
    Triple (Showing lib w₀ abis es) (receiveTableRows lib delta)
      (fun _ ↦ Showing lib w₀ (applyAbis lib abis delta.accounts)
        (es ++ tableRowsEvents lib w₀.options w₀.proc.head w₀.proc.blockHeader.timestamp abis
          delta)) fun _ _ ↦ True := by
  refine Triple.get_bind fun w hw ↦ ?_
  rw [hw.options]
  cases delta with
  | account rows =>
      have hloop := Triple.forM_emits (I := Showing lib w₀)
        (fun _ _ row ↦ shows_receiveAccountRow hscan row) abis es rows
      rw [foldl_elim, emits_elim] at hloop
      rw [hscan]
      exact hloop w hw
  | contractRow rows =>
      exact shows_rows (fun _ row ↦ shows_receiveContractRow hscan hcoh row) _ rows w hw
  | permission rows =>
      refine shows_rows (fun _ row ↦ shows_receiveAccountInfoRow (fun e hb ↦ ?_) _ row) _ rows w hw
      exact ⟨congrArg some hb, fun ht ↦ ⟨hb, ht⟩⟩
  | permissionLink rows =>
      refine shows_rows (fun _ row ↦ shows_receiveAccountInfoRow (fun e hb ↦ ?_) _ row) _ rows w hw
      exact ⟨congrArg some hb, fun ht ↦ ⟨hb, ht⟩⟩
  | accountMetadata rows =>
      refine shows_rows (fun _ row ↦ shows_receiveAccountInfoRow (fun e hb ↦ ?_) _ row) _ rows w hw
      exact ⟨congrArg some hb, fun ht ↦ ⟨hb, ht⟩⟩
  | other name =>
      rw [tableRowsEvents, List.append_nil]
      exact hw

/-- One delta, if it can be unpacked. -/
theorem shows_receiveTableDelta (hscan : w₀.options.interactiveMode = false)
    (hcoh : Coherent lib w₀.proc w₀.db.current) (bin : Parsed TableDelta) :
    Triple (Showing lib w₀ abis es) (receiveTableDelta lib bin)
      (fun _ ↦ Showing lib w₀
        (bin.toOption.elim abis fun delta ↦ applyAbis lib abis delta.accounts)
        (es ++ bin.toOption.elim [] (tableDeltaEvents lib w₀.options w₀.proc.head
          w₀.proc.blockHeader.timestamp abis))) fun _ _ ↦ True := by
  refine Triple.get_bind fun w hw ↦ ?_
  cases bin with
  | error what => trivial
  | ok delta =>
      have hts := hw.tag.2
      have hopt := hw.options
      have hrows := shows_receiveTableRows hscan hcoh delta w hw
      refine Ends.bind_ok rfl (hrows.bind (fun _ w' hw' ↦ ?_) fun _ _ _ ↦ trivial)
      rw [Except.toOption, Option.elim_some, Option.elim_some, tableDeltaEvents, ← List.append_assoc,
        hts, hopt]
      split_ifs
      · refine ⟨⟨hw'.coherent.1.publish ?_, hw'.coherent.2⟩, hw'.abis,
          keeps_publish ?_ w' hw'.marked, ?_⟩
        · trivial
        · exact ⟨trivial, rfl, rfl⟩
        · change published (w'.log ++ [.published _]) = _
          rw [published_append, hw'.log, List.append_assoc]
          rfl
      · rw [List.append_nil]
        exact hw'

/-- `receive_deltas`, or nothing if there are no deltas. -/
theorem shows_receiveDeltasPart (hscan : w₀.options.interactiveMode = false)
    (hcoh : Coherent lib w₀.proc w₀.db.current) (result : GetBlocksResult) :
    Triple (Showing lib w₀ abis es) (receiveDeltasPart lib result)
      (fun _ w ↦ published w.log = published w₀.log ++ (es ++ deltasEvents lib w₀.options
        w₀.proc.head w₀.proc.blockHeader.timestamp abis (result.deltas.getD [])))
      fun _ _ ↦ True := by
  rw [receiveDeltasPart]
  cases result.deltas with
  | none =>
      refine Triple.pure fun w hw ↦ ?_
      change _ = published w₀.log ++ (es ++ [])
      rw [hw.log, List.append_nil]
  | some bin =>
      have hloop := Triple.forM_emits (I := Showing lib w₀)
        (fun _ _ bin ↦ shows_receiveTableDelta hscan hcoh bin) abis es bin
      rw [emits_elim] at hloop
      exact hloop.mono (fun _ h ↦ h) (fun _ _ h ↦ h.log) fun _ _ h ↦ h

end Programs

/-! ## The whole block -/

section Block

variable {w w' : World Abi} {block : BlockPosition} {result : GetBlocksResult} {lib}

/-- The part of the block only publishes, and remembers the heading. -/
theorem receiveBlockPart_published (h : receiveBlockPart result w = .ok () w') :
    w' = { w with
      proc := { w.proc with
        blockHeader := (result.remembered w.proc.heading).header
        trxCount := (result.remembered w.proc.heading).trxCount }
      log := w.log ++ (blockPartEvents w.options w.proc.position result.block).map .published } := by
  rw [receiveBlockPart] at h
  rw [GetBlocksResult.remembered]
  cases hblock : result.block with
  | none =>
      rw [hblock] at h
      cases h
      simp [blockPartEvents, Proc.heading]
  | some bin =>
      rw [hblock] at h
      cases bin with
      | error what => cases h
      | ok block =>
          have hrun : receiveBlock (.ok block) w =
              (if w.options.subscribers.blockStarted then
                publish (.blockStarted
                  { blockNum := w.proc.head, blockId := w.proc.headId,
                    blockTimestamp := block.timestamp, lastIrreversible := w.proc.irreversible }) >>=
                  fun _ ↦ (if !w.options.skipBlockEvents then
                    publish (.block
                      { blockNum := w.proc.head, blockId := w.proc.headId,
                        lastIrreversible := w.proc.irreversible, block }) else pure ())
              else (if !w.options.skipBlockEvents then
                publish (.block
                  { blockNum := w.proc.head, blockId := w.proc.headId,
                    lastIrreversible := w.proc.irreversible, block }) else pure ()) :
                Receiver Abi Unit)
              { w with proc := { w.proc with
                blockHeader := block.toBlockHeader, trxCount := block.transactions } } := rfl
          have h := hrun.symm.trans h
          rw [blockPartEvents]
          split_ifs at h ⊢ with hstarted hevent hevent
          · cases h
            simp [Proc.position]
          · cases h
            simp [Proc.position]
          · cases h
            simp [Proc.position]
          · cases h
            simp

/-- Nothing is published while the block enters the list of received ones. -/
theorem addReceivedBlock_silent (h : addReceivedBlock block w = .ok () w') :
    w'.options = w.options ∧ w'.proc = w.proc ∧ w'.log = w.log := by
  have hmodify : ∀ f : Tables → Tables,
      Keeps (fun w' ↦ w'.options = w.options ∧ w'.proc = w.proc ∧ w'.log = w.log)
        (modifyTables f) := fun _ _ hw ↦ hw
  refine Keeps.ok (I := fun w' : World Abi ↦ w'.options = w.options ∧ w'.proc = w.proc ∧
    w'.log = w.log) (Keeps.get_bind fun w₁ _ ↦ Keeps.ite (fun _ ↦ ?_) fun _ ↦ Keeps.pure)
    ⟨rfl, rfl, rfl⟩ h
  refine Keeps.bind (Keeps.get_bind fun w₂ _ ↦ Keeps.ite (fun _ ↦ ?_) fun _ ↦ hmodify _) fun _ ↦
    Keeps.get_bind fun w₂ _ ↦ ?_
  · exact Keeps.throw.bind fun _ ↦ hmodify _
  · cases truncateRows w₂.proc.irreversible w₂.db.current.receivedBlocks.rows
        w₂.db.current.receivedBlocks with
    | none => exact Keeps.throw
    | some truncated => exact hmodify _

/-- A block that is stored publishes the events of its deltas. -/
theorem storeBlock_published (hscan : w.options.interactiveMode = false)
    (hcoh : Coherent lib w.proc w.db.current) (h : storeBlock lib block result w = .ok () w') :
    published w'.log = published w.log ++ deltasEvents lib w.options w.proc.head
      w.proc.blockHeader.timestamp w.db.current.contractAbi (result.deltas.getD []) := by
  obtain ⟨_, w₁, hsession, hcommit⟩ := bind_eq_ok h
  have hcommitted : published w'.log = published w₁.log := by
    obtain ⟨-, rfl⟩ := EStateM.Result.ok.inj hcommit
    exact (published_append _ _).trans (List.append_nil _)
  obtain ⟨w₂, hm, hpushed⟩ : ∃ w₂, (do
      addReceivedBlock block
      receiveDeltasPart lib result
      saveState) { w with db := w.db.startUndoSession } = .ok () w₂ ∧
        published w₁.log = published w₂.log := by
    rw [withUndoSession] at hsession
    split at hsession
    · next w₂ hm =>
        obtain ⟨-, rfl⟩ := EStateM.Result.ok.inj hsession
        exact ⟨w₂, hm, (published_append _ _).trans (List.append_nil _)⟩
    · cases hsession
  obtain ⟨_, w₃, hadd, hrest⟩ := bind_eq_ok hm
  obtain ⟨_, w₄, hdeltas, hsave⟩ := bind_eq_ok hrest
  have hsaved : published w₂.log = published w₄.log := by
    obtain ⟨-, rfl⟩ := EStateM.Result.ok.inj hsave
    rfl
  -- the deltas begin with the ABIs that were there before the block
  obtain ⟨hopt, hproc, hlog⟩ := addReceivedBlock_silent hadd
  have hopt : w₃.options = w.options := hopt
  have hproc : w₃.proc = w.proc := hproc
  have habis : w₃.db.current.contractAbi = w.db.current.contractAbi := by
    have hat : CoherentAt lib { w with db := w.db.startUndoSession } w.db.current
        { w with db := w.db.startUndoSession } :=
      ⟨⟨Within.refl hcoh.cached, rfl⟩, fun _ h ↦ h⟩
    have hends := reads_addReceivedBlock lib block _ hat
    rw [hadd] at hends
    rw [hends.1.1.2, (Tables.addReceived_frame ..).1]
  have hcoh₃ : Coherent lib w₃.proc w₃.db.current := by
    rw [hproc]
    exact hcoh.congr ⟨rfl, rfl⟩ habis
  have hfirst : Showing lib w₃ w₃.db.current.contractAbi [] w₃ :=
    ⟨⟨⟨Within.refl hcoh₃.cached, rfl⟩, fun _ h ↦ h⟩, rfl, Emits.refl _, (List.append_nil _).symm⟩
  have hshown := shows_receiveDeltasPart (hopt ▸ hscan) hcoh₃ result w₃ hfirst
  rw [hdeltas] at hshown
  have hshown : published w₄.log = _ := hshown
  rw [hcommitted, hpushed, hsaved, hshown, hopt, hproc, habis, hlog, List.nil_append]

/-- What can be unpacked is all there is. -/
theorem map_ok_toOption {α : Type} {bin : List (Parsed α)} (h : ∀ x ∈ bin, x.isOk) :
    (bin.filterMap Except.toOption).map Except.ok = bin := by
  induction bin with
  | nil => rfl
  | cons x bin ih =>
      have hrest := ih fun y hy ↦ h y (List.mem_cons_of_mem _ hy)
      cases x with
      | error what => exact absurd (h _ List.mem_cons_self) Bool.false_ne_true
      | ok a => exact congrArg (Except.ok a :: ·) hrest

/-- The traces that are selected are published. -/
theorem receiveTracesPart_published (hc : w.proc.Cached)
    (h : receiveTracesPart result w = .ok () w') :
    w'.proc = w.proc ∧ published w'.log = published w.log ++
      tracesEvents w.options w.proc.head w.proc.blockHeader.timestamp
        (result.traces.getD []) := by
  have hread := receiveTracesPart_triple result w (Announced.refl hc)
  rw [h] at hread
  have hread : result.ReadableTraces w.options := hread.2
  rw [receiveTracesPart] at h
  cases htraces : result.traces with
  | none =>
      rw [htraces] at h
      obtain ⟨-, rfl⟩ := EStateM.Result.ok.inj h
      rw [tracesEvents, Option.getD_none, List.filterMap_nil, List.filter_nil, List.map_nil,
        ite_self, List.append_nil]
      exact ⟨rfl, rfl⟩
  | some bin =>
      rw [htraces] at h
      rw [Option.getD_some, tracesEvents]
      by_cases hsub : w.options.subscribers.transactionTraces = true
      · have h : receiveTraces bin w = .ok () w' := h
        rw [← map_ok_toOption (hread bin htraces hsub), receiveTraces_run, if_pos hsub] at h
        obtain ⟨-, rfl⟩ := EStateM.Result.ok.inj h
        refine ⟨rfl, ?_⟩
        rw [published_append, if_pos hsub]
        refine congrArg _ ?_
        rw [published, List.filterMap_map]
        exact congrFun List.filterMap_eq_map _
      · rw [if_neg hsub, List.append_nil]
        change (if w.options.subscribers.transactionTraces then bin.forM receiveTrace
          else pure () : Receiver Abi Unit) w = _ at h
        rw [if_neg hsub] at h
        obtain ⟨-, rfl⟩ := EStateM.Result.ok.inj h
        exact ⟨rfl, rfl⟩

/-- A block that is completed in scan mode publishes its events, exactly and in order. -/
theorem processBlock_published (hscan : w.options.interactiveMode = false)
    (hat : AtBlock block result w) (hcoh : Coherent lib w.proc w.db.current)
    (h : processBlock lib block result w = .ok () w') :
    published w'.log = published w.log ++
        blockEvents lib w.options (stateOf block result) (result.remembered w.proc.heading)
          w.db.current.contractAbi result ∧
      w'.proc.heading = result.remembered w.proc.heading := by
  change (receiveBlockPart result >>= fun _ ↦ _ : Receiver Abi Unit) w = _ at h
  obtain ⟨_, w₁, hblock, hrest⟩ := bind_eq_ok h
  rw [hscan] at hrest
  obtain ⟨_, w₂, hstore, hrest⟩ := bind_eq_ok hrest
  obtain ⟨_, w₃, htraces, hfinish⟩ := bind_eq_ok hrest
  -- the part of the block
  have hpart := receiveBlockPart_published hblock
  have hopt₁ : w₁.options = w.options := by rw [hpart]
  have hpos₁ : w₁.proc.position = stateOf block result := by
    rw [hpart]
    exact hat
  have hown₁ : w₁.proc.heading = result.remembered w.proc.heading := by rw [hpart]; rfl
  have hcoh₁ : Coherent lib w₁.proc w₁.db.current := by
    rw [hpart]
    exact hcoh.congr ⟨rfl, rfl⟩ rfl
  have hlog₁ : published w₁.log = published w.log ++
      blockPartEvents w.options (stateOf block result) result.block := by
    rw [hpart, published_append, hat]
    refine congrArg _ ?_
    rw [published, List.filterMap_map]
    exact List.filterMap_some
  have hdb₁ : w₁.db = w.db := by rw [hpart]
  -- the state changing activities
  have hscan₁ : w₁.options.interactiveMode = false := hopt₁ ▸ hscan
  have hlog₂ := storeBlock_published hscan₁ hcoh₁ hstore
  have hstored := storeBlock_ends lib hscan₁ hpos₁ (Announced.refl hcoh₁.cached)
  have hmarked : Marked True w₁ w₂ :=
    Keeps.ok (keeps_storeBlock lib block fun _ ↦ trivial) (Emits.refl _) hstore
  rw [hstore] at hstored
  have hstored := hstored.1
  have hpos₂ : w₂.proc.position = stateOf block result :=
    (Proc.member_eq hstored.core Proc.position fun _ ↦ rfl).trans hpos₁
  have hown₂ : w₂.proc.heading = result.remembered w.proc.heading := hmarked.heading.trans hown₁
  -- the traces, and the last event
  obtain ⟨hproc₃, hlog₃⟩ := receiveTracesPart_published hstored.cached htraces
  obtain ⟨-, rfl⟩ := EStateM.Result.ok.inj hfinish
  refine ⟨?_, (congrArg Proc.heading hproc₃).trans hown₂⟩
  have hhead₁ : w₁.proc.head = (stateOf block result).head := congrArg StateObject.head hpos₁
  have hts₁ : w₁.proc.blockHeader.timestamp =
      (result.remembered w.proc.heading).header.timestamp :=
    congrArg (fun own ↦ own.header.timestamp) hown₁
  have hts₂ : w₂.proc.blockHeader.timestamp =
      (result.remembered w.proc.heading).header.timestamp :=
    congrArg (fun own ↦ own.header.timestamp) hown₂
  have hhead₂ : w₂.proc.head = (stateOf block result).head := congrArg StateObject.head hpos₂
  have hlast : Event.blockCompleted (blockFinished w₃.proc) =
      finishedEvent (stateOf block result) (result.remembered w.proc.heading) := by
    rw [hproc₃, ← hpos₂, ← hown₂]
    rfl
  change published (w₃.log ++ [.published (.blockCompleted (blockFinished w₃.proc))]) = _
  rw [published_append, hlog₃, hlog₂, hlog₁, hstored.options, hopt₁, hts₁, hts₂, hhead₁, hhead₂,
    hdb₁, blockEvents]
  change _ ++ [Event.blockCompleted (blockFinished w₃.proc)] = _
  rw [hlast]
  simp only [List.append_assoc]

end Block

end Chronicle
