import Chronicle.Exporter.Framing
import Chronicle.Logic.Telling
import Chronicle.Relic.Carried
import Chronicle.Relic.TransactionIds

/-!
# Lookups in the messages

The assertions of rapidjson are off, so a member that is looked up in a value that is not an object,
or an iteration over one that is not an array, reads what is not there.

`lookHandle` is `handle` with notes of all lookups and iterations for a transaction, in the order
of the source.  What a branch does with the data of an action is done with the members that were
looked up, and without the notes it is what `handle` does (`quiet_lookHandle`).  Whether the
lookups are allowed is decided by the shapes of the receipts, of the responses and of the data of
the actions (`lookups_ok_iff`).
-/

namespace Chronicle.Relic

variable (ext : Externals)

/-- A use of a value of a message. -/
inductive Access where
  /-- `operator[]` -/
  | member (v : Json) (name : String)
  /-- `GetArray` -/
  | elements (v : Json)

/-- What the value has to be. -/
def Access.Ok : Access → Prop
  | member v _ => v.isObject
  | elements v => v.isArray

/-- A program of the exporter, with notes of its lookups. -/
abbrev Looking := Program Query Rows (Nat ⊕ Access)

/-- A program whose lookups are not noted. -/
abbrev unlooked {α : Type} (p : Prog α) : Looking α := p.unnoted Access

/-! ## Looking up -/

/-- `HasMember` -/
def hasMember (v : Json) (name : String) : Bool :=
  match v with
  | .object members => members.any (·.1 == name)
  | _ => false

/-- `operator[]` -/
def look (v : Json) (name : String) : Looking Json :=
  .tell (.inr (.member v name)) (.pure (v.get name))

/-- `GetArray` -/
def lookElements (v : Json) : Looking (List Json) :=
  .tell (.inr (.elements v)) (.pure v.getArray)

/-- Some members of a value, in turn. -/
def lookMembers (v : Json) : List String → Looking (List (String × Json))
  | [] => pure []
  | name :: names => do
    let value ← look v name
    let rest ← lookMembers v names
    pure ((name, value) :: rest)

/-- A value of which some members were looked up, and nothing else is known. -/
def view (v : Json) (names : List String) : Looking Json := do
  let members ← lookMembers v names
  pure (.object members)

/-- What is done with the elements of an array that are objects, when some of their members were
looked up. -/
def lookEach (v : Json) (names : List String) (f : Json → Prog Unit) : Looking Unit := do
  let elements ← lookElements v
  forM elements fun element ↦ do
    if element.isObject then do
      let element ← view element names
      unlooked (f element)
    else pure ()

section Looking

variable {v : Json} {name : String} {names : List String}

/-- The members of a value that were looked up. -/
def viewed (v : Json) (names : List String) : Json :=
  .object (names.map fun name ↦ (name, v.get name))

theorem get_viewed (h : name ∈ names) : (viewed v names).get name = v.get name := by
  rw [viewed, Json.get]
  induction names with
  | nil => exact absurd h List.not_mem_nil
  | cons first names ih =>
      rw [List.map_cons, List.find?_cons]
      by_cases hfirst : first = name
      · subst hfirst
        simp
      · rw [beq_eq_false_iff_ne.mpr hfirst]
        exact ih ((List.mem_cons.mp h).resolve_left fun h ↦ hfirst h.symm)

@[simp]
theorem can_look {w : Json} : (look v name).Can w ↔ v.get name = w := Iff.rfl

@[simp]
theorem looksOk_look : (look v name).EveryNoted Access.Ok ↔ v.isObject :=
  iff_of_eq (and_true _)

@[simp]
theorem quiet_look : (look v name).quiet = pure (v.get name) := rfl

@[simp]
theorem looksOk_lookElements : (lookElements v).EveryNoted Access.Ok ↔ v.isArray :=
  iff_of_eq (and_true _)

@[simp]
theorem quiet_lookElements : (lookElements v).quiet = pure v.getArray := rfl

@[simp]
theorem can_lookMembers {l : List (String × Json)} :
    (lookMembers v names).Can l ↔ names.map (fun name ↦ (name, v.get name)) = l := by
  induction names generalizing l with
  | nil => exact Iff.rfl
  | cons name names ih => simp [lookMembers, ih]

@[simp]
theorem looksOk_lookMembers :
    (lookMembers v names).EveryNoted Access.Ok ↔ (names ≠ [] → v.isObject) := by
  induction names with
  | nil => exact iff_of_true trivial fun h ↦ absurd rfl h
  | cons name names ih =>
      simp only [lookMembers, Program.everyNoted_bind, looksOk_look, Program.everyNoted_pure]
      exact ⟨fun h _ ↦ h.1, fun h ↦ ⟨h (List.cons_ne_nil _ _), fun _ _ ↦
        ⟨ih.mpr fun _ ↦ h (List.cons_ne_nil _ _), fun _ _ ↦ trivial⟩⟩⟩

@[simp]
theorem quiet_lookMembers :
    (lookMembers v names).quiet = pure (names.map fun name ↦ (name, v.get name)) := by
  induction names with
  | nil => rfl
  | cons name names ih =>
      rw [lookMembers, Program.quiet_bind, quiet_look]
      change (lookMembers v names >>= fun rest ↦ pure ((name, v.get name) :: rest)).quiet = _
      rw [Program.quiet_bind, ih]
      rfl

@[simp]
theorem can_view {w : Json} : (view v names).Can w ↔ viewed v names = w := by
  simp [view, viewed]

@[simp]
theorem looksOk_view : (view v names).EveryNoted Access.Ok ↔ (names ≠ [] → v.isObject) := by
  simp [view]

@[simp]
theorem quiet_view : (view v names).quiet = pure (viewed v names) := by
  rw [view, Program.quiet_bind, quiet_lookMembers]
  rfl

variable {α : Type} {next : Json → Looking α} {nextElements : List Json → Looking α} {x : α}

theorem quiet_look_bind : (look v name >>= next).quiet = (next (v.get name)).quiet := rfl

theorem can_look_bind : (look v name >>= next).Can x ↔ (next (v.get name)).Can x := Iff.rfl

theorem looksOk_look_bind : (look v name >>= next).EveryNoted Access.Ok ↔
    v.isObject ∧ (next (v.get name)).EveryNoted Access.Ok := Iff.rfl

theorem looksOk_lookElements_bind : (lookElements v >>= nextElements).EveryNoted Access.Ok ↔
    v.isArray ∧ (nextElements v.getArray).EveryNoted Access.Ok := Iff.rfl

variable {f : Json → Prog Unit}

/-- The elements are checked, the array is not. -/
theorem looksOk_lookEach : (lookEach v names f).EveryNoted Access.Ok ↔ v.isArray := by
  rw [lookEach, Program.everyNoted_bind, looksOk_lookElements]
  refine and_iff_left fun l hl ↦ ?_
  clear hl
  induction l with
  | nil => trivial
  | cons element l ih =>
      rw [List.forM_cons, Program.everyNoted_bind, Program.everyNoted_ite]
      refine ⟨⟨fun hobject ↦ ?_, fun _ ↦ trivial⟩, fun _ _ ↦ ih⟩
      simp [hobject]

theorem can_lookEach (hf : ∀ element, (f element).Can ()) : (lookEach v names f).Can () := by
  refine Program.can_bind.mpr ⟨_, rfl, ?_⟩
  induction v.getArray with
  | nil => rfl
  | cons element l ih =>
      rw [List.forM_cons]
      refine Program.can_bind.mpr ⟨(), ?_, ih⟩
      split_ifs
      · exact Program.can_bind.mpr ⟨_, can_view.mpr rfl, Program.can_unnoted.mpr (hf _)⟩
      · rfl

/-- Nothing but the members that were looked up is used. -/
theorem quiet_lookEach (hf : ∀ element, f (viewed element names) = f element) :
    (lookEach v names f).quiet =
      forEach (fun element ↦ onlyIf element.isObject (f element)) v.getArray := by
  rw [lookEach, Program.quiet_bind, quiet_lookElements]
  change Program.quiet (forM _ _) = _
  induction v.getArray with
  | nil => rfl
  | cons element l ih =>
      rw [List.forM_cons, forEach, Program.quiet_bind, ih, onlyIf]
      refine congrArg (· >>= _) ?_
      split_ifs
      · rw [Program.quiet_bind, quiet_view]
        change (unlooked _).quiet = _
        rw [Program.quiet_unnoted, hf]
      · rfl

end Looking

/-! ## What is looked up for an action -/

/-- Members that are looked up for an action that a transaction asks for itself. -/
structure Reads where
  /-- Of its data. -/
  data : List String := []
  /-- Of its response. -/
  response : List String := []

/-- What is looked up for the actions with a name; the arrays of `addnft`, `remnft`, `addaddress`
and `remaddress` come later. -/
def relatedReads : List (String × Reads) :=
  [("trnsfiopubky", { data := ["actor", "payee_public_key", "amount"] }),
    ("trnsloctoks", { data := ["actor", "payee_public_key", "amount"] }),
    ("regdomain", { data := ["fio_domain", "actor", "owner_fio_public_key"]
                    response := ["expiration"] }),
    ("regdomadd", { data := ["fio_address", "actor", "owner_fio_public_key"]
                    response := ["expiration", "expiration"] }),
    ("renewdomain", { data := ["fio_domain"], response := ["expiration"] }),
    ("xferdomain", { data := ["fio_domain", "new_owner_fio_public_key", "actor"] }),
    ("setdomainpub", { data := ["fio_domain", "is_public"] }),
    ("wrapdomain", { data := ["fio_domain"] }),
    ("xferescrow", { data := ["fio_domain", "public_key"] }),
    ("updcryptkey", { data := ["fio_address", "encrypt_public_key"] }),
    ("burnexpired", {}),
    ("burnaddress", { data := ["fio_address", "encrypt_public_key"] }),
    ("newfundsreq", { data := ["actor", "payer_fio_address", "payee_fio_address", "content"]
                      response := ["fio_request_id"] }),
    ("recordobt", { data := ["actor", "payer_fio_address", "payee_fio_address", "content",
                      "fio_request_id"] }),
    ("cancelfndreq", { data := ["fio_request_id"] }),
    ("rejectfndreq", { data := ["fio_request_id"] }),
    ("regaddress", { data := ["fio_address", "actor", "owner_fio_public_key"]
                     response := ["expiration"] }),
    ("renewaddress", { data := ["fio_address"], response := ["expiration"] }),
    ("addbundles", { data := ["fio_address", "bundle_sets"] }),
    ("addnft", { data := ["fio_address", "fio_address"] }),
    ("remnft", { data := ["fio_address"] }),
    ("remallnfts", { data := ["fio_address"] }),
    ("xferaddress", { data := ["fio_address", "new_owner_fio_public_key", "actor"] }),
    ("remalladdr", { data := ["fio_address"] }),
    ("addaddress", { data := ["fio_address"] }),
    ("remaddress", { data := ["fio_address"] }),
    ("wraptokens", {}),
    ("stakefio", { data := ["actor", "amount"] }),
    ("unstakefio", { data := ["actor", "amount"] }),
    ("retire", { data := ["actor", "memo", "quantity"] }),
    ("fipxlviii", {})]

/-- The members of a token that `addnft` looks up. -/
def addedNftReads : List String :=
  ["chain_code", "contract_address", "token_id", "url", "hash", "metadata"]

/-- The members of a token that `remnft` looks up. -/
def removedNftReads : List String := ["chain_code", "contract_address", "token_id"]

/-- The members of an address that `addaddress` and `remaddress` look up. -/
def addressReads : List String := ["chain_code", "token_code", "public_address"]

namespace Action

variable (a : Action)

def reads : Reads := ((relatedReads.find? fun r ↦ r.1 = a.actionname).map (·.2)).getD {}

/-- Members of the data that are looked up for tokens. -/
def tokenReads : List String :=
  if a.actionname = "transfer" ∧ a.receiveraccount = "fio.token" then
    ["from", "to", "memo", "quantity"]
  else if a.actionname = "issue" ∧ a.receiveraccount = "fio.token" then ["memo", "quantity"]
  else if a.actionname = "bind2eosio" then ["account", "client_key"]
  else []

/-- An action of which nothing is known but what was looked up in its data and response. -/
def viewed (reads : Reads) : Action :=
  { a with
    actdata := Relic.viewed a.actdata reads.data
    respdoc := Relic.viewed a.respdoc reads.response }

/-- Look something up in the data and the response. -/
def view (reads : Reads) : Looking Action := do
  let actdata ← Relic.view a.actdata reads.data
  let respdoc ← Relic.view a.respdoc reads.response
  pure { a with actdata := actdata, respdoc := respdoc }

end Action

section Actions

variable (t : Transaction) (a : Action) (fktransactionid : Int)

/-- The statements for an action that a transaction asks for itself, when `found` was looked up in
it.  Arrays are looked up when their turn comes. -/
def lookRelated (found : Action) : Looking Unit :=
  if a.actionname = "addnft" then do
    unlooked (handleActivity ext t found fktransactionid "addnft" "add_nft")
    let dvtrace ← look a.actdata "nfts"
    lookEach dvtrace addedNftReads fun nftdata ↦ perform "addnftinsupnftsigs"
      (addnftStatement ext t.bnums (found.data ext "fio_address") nftdata)
  else if a.actionname = "remnft" then do
    unlooked (handleActivity ext t found fktransactionid "remnft" "rem_nft")
    let dvtrace ← look a.actdata "nfts"
    lookEach dvtrace removedNftReads fun nftdata ↦ perform "remnftdelnftsig"
      (remnftStatement ext (found.data ext "fio_address") nftdata)
  else if a.actionname = "addaddress" then do
    let dvtrace ← look a.actdata "public_addresses"
    lookEach dvtrace addressReads
      (addPubaddress ext t fktransactionid (found.data ext "fio_address"))
  else if a.actionname = "remaddress" then do
    let dvtrace ← look a.actdata "public_addresses"
    lookEach dvtrace addressReads
      (remPubaddress ext t fktransactionid (found.data ext "fio_address"))
  else unlooked (related ext t found fktransactionid)

/-- `tokens` -/
def lookTokens : Looking Unit := do
  let found ← a.view { data := a.tokenReads }
  unlooked (tokens ext t found fktransactionid)

/-- `ownTrace` -/
def lookOwnTrace (m : Members) : Looking (Int × Members) := do
  let res ← unlooked (exec "instransactions" (instransactions t.bnums t.blocktimestamp t.trid
    a.contractaccount a.actionaccount a.actionname a.tpid a.feeamount a.requestdata a.response
    t.status))
  let fktransactionid := firstNumber res fktransactionid
  let found ← a.view a.reads
  lookRelated ext t a fktransactionid found
  pure (fktransactionid, remember ext t found fktransactionid m)

/-- `rowTrace` -/
def lookRowTrace (m : Members) : Looking (Int × Members) :=
  if a.IsOwn then lookOwnTrace ext t a fktransactionid m
  else unlooked (innerTrace t a fktransactionid m)

/-- `actionTrace` -/
def lookActionTrace (m : Members) : Looking (Int × Members) := do
  let r ← lookRowTrace ext t a fktransactionid m
  lookTokens ext t a r.1
  pure r

end Actions

/-- `readAction` -/
def lookAction (object : Json) : Looking Action := do
  let actionordinal := getjsonstring ext unknownNumberNull (← look object "action_ordinal")
    disallowEmptyValues
  let creatoractionordinal := getjsonstring ext unknownNumberNull
    (← look object "creator_action_ordinal") disallowEmptyValues
  let response := getjsonstring ext unknownString (← look (← look object "receipt") "response")
    allowEmptyValues
  let receiveraccount := getjsonstring ext unknownString (← look object "receiver")
    disallowEmptyValues
  let contractaccount := getjsonstring ext unknownString (← look (← look object "act") "account")
    disallowEmptyValues
  let actionname := getjsonstring ext unknownString (← look (← look object "act") "name")
    disallowEmptyValues
  let actdata ← look (← look object "act") "data"
  let respdoc := parseText ext response
  let feeamount := getjsonstring ext unknownNumber0 (← look respdoc "fee_collected")
    allowEmptyValues
  let arrayauth ← look (← look object "act") "authorization"
  let firstauth := arrayauth.first?.getD object
  let actionaccount := getjsonstring ext unknownString (← look firstauth "actor")
    disallowEmptyValues
  let tpid ← if actdata.isObject then do
      pure (getjsonstring ext unknownString (← look actdata "tpid") allowEmptyValues)
    else pure ""
  let requestdata := getjsonstring ext unknownString actdata allowEmptyValues
  -- `maxfee`, which is not used
  let _ ← look firstauth "actor"
  pure
    { actionordinal := actionordinal
      creatoractionordinal := creatoractionordinal
      response := response
      receiveraccount := receiveraccount
      contractaccount := contractaccount
      actionname := actionname
      actdata := actdata
      respdoc := respdoc
      feeamount := feeamount
      actionaccount := actionaccount
      tpid := tpid
      requestdata := requestdata }

/-- `actionTraces` -/
def lookActionTraces (t : Transaction) : Int → Members → List Json → Looking Members
  | _, m, [] => pure m
  | fktransactionid, m, object :: rest =>
    if object.isObject then do
      let a ← lookAction ext object
      let (fktransactionid, m) ← lookActionTrace ext t a fktransactionid m
      lookActionTraces t fktransactionid m rest
    else lookActionTraces t fktransactionid m rest

/-- `txTrace` -/
def lookTxTrace (m : Members) (document : Json) (bnums : String) : Looking Members := do
  let blocktimestamp := getjsonstring ext unknownTimestamp
    (← look (← look document "data") "block_timestamp") disallowEmptyValues
  let trid := getjsonstring ext unknownString
    (← look (← look (← look document "data") "trace") "id") disallowEmptyValues
  let status := getjsonstring ext unknownString
    (← look (← look (← look document "data") "trace") "status") disallowEmptyValues
  let dvtrace ← look (← look (← look document "data") "trace") "action_traces"
  let objects ← lookElements dvtrace
  lookActionTraces ext
    { bnums := bnums, blocktimestamp := blocktimestamp, trid := trid, status := status } (-1) m
    objects

/-- A member that is only looked up if there is one. -/
def lookIf (v : Json) (name : String) : Looking Json :=
  if hasMember v name then look v name else pure .null

/-- `handle`, with notes of the lookups for a transaction. -/
def lookHandle (msg : Msgbuf) (m : Members) : Looking Members := do
  let document := ext.parse msg
  let msgtype ← lookIf document "msgtype"
  let data ← if msgtype.isString then lookIf document "data" else pure .null
  if data.isObject then do
    let msgtype := getString (← look document "msgtype")
    let dataj ← look document "data"
    let blocknum ← lookIf dataj "block_num"
    if blocknum.isString then do
      match stoul (getString (← look (← look document "data") "block_num")) with
      | none => .throw
      | some n => do
        let bnums := getString (← look (← look document "data") "block_num")
        if msgtype = "TX_TRACE" then lookTxTrace ext m document bnums
        else unlooked (handleEvent ext m document msgtype bnums (n % 2 ^ 32))
    else pure m
  else pure m

/-! ## Without the notes -/

/-- A member that there is not reads as null. -/
theorem get_of_not_hasMember {v : Json} {name : String} (h : ¬ hasMember v name) :
    v.get name = .null := by
  cases v with
  | object members =>
      have hnone : members.find? (·.1 == name) = none :=
        List.find?_eq_none.mpr fun member hmember hname ↦
          h (List.any_eq_true.mpr ⟨member, hmember, hname⟩)
      rw [Json.get, hnone]
      rfl
  | _ => rfl

@[simp]
theorem quiet_lookIf (v : Json) (name : String) : (lookIf v name).quiet = pure (v.get name) := by
  rw [lookIf]
  split_ifs with h
  · rfl
  · rw [get_of_not_hasMember h]
    rfl

namespace Action

variable {ext} {a : Action} {reads : Reads} {name : String}

@[simp]
theorem can_view {b : Action} : (a.view reads).Can b ↔ a.viewed reads = b := by
  simp [view, viewed]

@[simp]
theorem looksOk_view : (a.view reads).EveryNoted Access.Ok ↔
    (reads.data ≠ [] → a.actdata.isObject) ∧ (reads.response ≠ [] → a.respdoc.isObject) := by
  simp [view]

@[simp]
theorem quiet_view : (a.view reads).quiet = pure (a.viewed reads) := by
  rw [view, Program.quiet_bind, Relic.quiet_view]
  change (Relic.view a.respdoc reads.response >>= fun respdoc ↦ pure _).quiet = _
  rw [Program.quiet_bind, Relic.quiet_view]
  rfl

@[simp]
theorem actionname_viewed : (a.viewed reads).actionname = a.actionname := rfl

@[simp]
theorem actdata_viewed (h : name ∈ reads.data) :
    (a.viewed reads).actdata.get name = a.actdata.get name := get_viewed h

@[simp]
theorem respdoc_viewed (h : name ∈ reads.response) :
    (a.viewed reads).respdoc.get name = a.respdoc.get name := get_viewed h

@[simp]
theorem data_viewed (h : name ∈ reads.data) : (a.viewed reads).data ext name = a.data ext name := by
  rw [data, member, actdata_viewed h]
  rfl

@[simp]
theorem nonemptyData_viewed (h : name ∈ reads.data) :
    (a.viewed reads).nonemptyData ext name = a.nonemptyData ext name := by
  rw [nonemptyData, actdata_viewed h]
  rfl

@[simp]
theorem expiration_viewed (h : "expiration" ∈ reads.response) :
    (a.viewed reads).expiration ext = a.expiration ext := by
  rw [expiration, respdoc_viewed h]
  rfl

variable (ext) (t : Transaction) (n : Int)

/-- What was looked up is all that is used of the data and the response of an action. -/
theorem related_viewed
    (hplain : a.actionname ∉ ["addnft", "remnft", "addaddress", "remaddress"]) :
    related ext t (a.viewed a.reads) n = related ext t a n := by
  rw [related, related]
  refine ite_congr rfl (fun h ↦ ?_) fun _ ↦ ?_
  · rcases h with h | h <;> simp (disch := rw [Action.reads, h]; decide) [trnsfiopubky, h]
  refine ite_congr rfl (fun h ↦ ?_) fun _ ↦ ?_
  · rcases h with h | h <;> simp (disch := rw [Action.reads, h]; decide) [regdomain, h]
  refine ite_congr rfl (fun h ↦ ?_) fun _ ↦ ?_
  · simp (disch := rw [Action.reads, h]; decide) [renewdomain]
  refine ite_congr rfl (fun h ↦ ?_) fun _ ↦ ?_
  · simp (disch := rw [Action.reads, h]; decide) [xferdomain]
  refine ite_congr rfl (fun h ↦ ?_) fun _ ↦ ?_
  · simp (disch := rw [Action.reads, h]; decide) [setdomainpub]
  refine ite_congr rfl (fun h ↦ ?_) fun _ ↦ ?_
  · simp (disch := rw [Action.reads, h]; decide) [wrapdomain]
  refine ite_congr rfl (fun h ↦ ?_) fun _ ↦ ?_
  · simp (disch := rw [Action.reads, h]; decide) [xferescrow]
  refine ite_congr rfl (fun h ↦ ?_) fun _ ↦ ?_
  · simp (disch := rw [Action.reads, h]; decide) [updcryptkey]
  refine ite_congr rfl (fun _ ↦ rfl) fun _ ↦ ?_
  refine ite_congr rfl (fun h ↦ ?_) fun _ ↦ ?_
  · simp (disch := rw [Action.reads, h]; decide) [burnaddress]
  refine ite_congr rfl (fun h ↦ ?_) fun _ ↦ ?_
  · simp (disch := rw [Action.reads, h]; decide) [newfundsreq]
  refine ite_congr rfl (fun h ↦ ?_) fun _ ↦ ?_
  · simp (disch := rw [Action.reads, h]; decide) [recordobt]
  refine ite_congr rfl (fun h ↦ ?_) fun _ ↦ ?_
  · simp (disch := rw [Action.reads, h]; decide) [cancelfndreq, endRequest]
  refine ite_congr rfl (fun h ↦ ?_) fun _ ↦ ?_
  · simp (disch := rw [Action.reads, h]; decide) [rejectfndreq, endRequest]
  refine ite_congr rfl (fun h ↦ ?_) fun _ ↦ ?_
  · simp (disch := rw [Action.reads, h]; decide) [regaddress]
  refine ite_congr rfl (fun h ↦ ?_) fun _ ↦ ?_
  · simp (disch := rw [Action.reads, h]; decide) [renewaddress, handleActivity]
  refine ite_congr rfl (fun h ↦ ?_) fun _ ↦ ?_
  · simp (disch := rw [Action.reads, h]; decide) [addbundles, handleActivity]
  refine ite_congr rfl (fun h ↦ absurd (h ▸ hplain) (by decide)) fun _ ↦ ?_
  refine ite_congr rfl (fun h ↦ absurd (h ▸ hplain) (by decide)) fun _ ↦ ?_
  refine ite_congr rfl (fun h ↦ ?_) fun _ ↦ ?_
  · simp (disch := rw [Action.reads, h]; decide) [remallnfts]
  refine ite_congr rfl (fun h ↦ ?_) fun _ ↦ ?_
  · simp (disch := rw [Action.reads, h]; decide) [xferaddress]
  refine ite_congr rfl (fun h ↦ ?_) fun _ ↦ ?_
  · simp (disch := rw [Action.reads, h]; decide) [remalladdr]
  refine ite_congr rfl (fun h ↦ absurd (h ▸ hplain) (by decide)) fun _ ↦ ?_
  refine ite_congr rfl (fun h ↦ absurd (h ▸ hplain) (by decide)) fun _ ↦ ?_
  refine ite_congr rfl (fun _ ↦ rfl) fun _ ↦ ?_
  refine ite_congr rfl (fun h ↦ ?_) fun _ ↦ ?_
  · simp (disch := rw [Action.reads, h]; decide) [stakefio]
  refine ite_congr rfl (fun h ↦ ?_) fun _ ↦ ?_
  · simp (disch := rw [Action.reads, h]; decide) [unstakefio]
  refine ite_congr rfl (fun h ↦ ?_) fun _ ↦ ?_
  · simp (disch := rw [Action.reads, h]; decide) [retire]
  rfl

/-- What was looked up is all that is used for tokens. -/
theorem tokens_viewed :
    tokens ext t (a.viewed { data := a.tokenReads }) n = tokens ext t a n := by
  rw [tokens, tokens]
  refine ite_congr rfl (fun h ↦ ?_) fun hn ↦ ?_
  · simp (disch := rw [Action.tokenReads, if_pos h]; decide) [transfer]
  refine ite_congr rfl (fun h ↦ ?_) fun hn' ↦ ?_
  · simp (disch := rw [Action.tokenReads, if_neg hn, if_pos h]; decide) [issue]
  refine ite_congr rfl (fun h ↦ ?_) fun _ ↦ rfl
  simp (disch := rw [Action.tokenReads, if_neg hn, if_neg hn', if_pos h]; decide) [bind2eosio]

theorem remember_viewed (m : Members) :
    remember ext t (a.viewed a.reads) n m = remember ext t a n m := by
  rw [remember, remember]
  refine ite_congr rfl (fun _ ↦ rfl) fun _ ↦ ?_
  refine ite_congr rfl (fun h ↦ ?_) fun _ ↦ rfl
  simp (disch := rw [Action.reads, h]; decide)

end Action

variable (t : Transaction) (a : Action) (n : Int)

/-- The elements of the arrays of an action are used as they were looked up. -/
theorem element_viewed {element : Json} {name : String} {names : List String} (h : name ∈ names) :
    member ext (viewed element names) name = member ext element name := by
  rw [member, get_viewed h, member]

/-- The handle of an action whose branch looks it up. -/
theorem data_handle (h : a.actionname ∈ ["addnft", "remnft", "addaddress", "remaddress"]) :
    (a.viewed a.reads).data ext "fio_address" = a.data ext "fio_address" := by
  refine Action.data_viewed ?_
  rw [Action.reads]
  revert h
  generalize a.actionname = name
  revert name
  decide

theorem quiet_lookRelated :
    (lookRelated ext t a n (a.viewed a.reads)).quiet = related ext t a n := by
  rw [lookRelated]
  split_ifs with haddnft hremnft haddaddress hremaddress
  · have hrelated : related ext t a n = addnft ext t a n := by simp [related, haddnft]
    rw [Program.quiet_bind, Program.quiet_unnoted, handleActivity,
      data_handle ext a (by simp [haddnft]), hrelated]
    refine congrArg (_ >>= ·) (funext fun _ ↦ ?_)
    refine quiet_lookEach fun nftdata ↦ ?_
    simp (disch := decide) [element_viewed]
  · have hrelated : related ext t a n = remnft ext t a n := by simp [related, hremnft]
    rw [Program.quiet_bind, Program.quiet_unnoted, handleActivity,
      data_handle ext a (by simp [hremnft]), hrelated]
    refine congrArg (_ >>= ·) (funext fun _ ↦ ?_)
    refine quiet_lookEach fun nftdata ↦ ?_
    simp (disch := decide) [element_viewed]
  · have hrelated : related ext t a n = addaddress ext t a n := by simp [related, haddaddress]
    rw [data_handle ext a (by simp [haddaddress]), hrelated]
    refine quiet_lookEach fun addressdata ↦ ?_
    simp (disch := decide) [addPubaddress, element_viewed]
  · have hrelated : related ext t a n = remaddress ext t a n := by simp [related, hremaddress]
    rw [data_handle ext a (by simp [hremaddress]), hrelated]
    refine quiet_lookEach fun addressdata ↦ ?_
    simp (disch := decide) [remPubaddress, element_viewed]
  · rw [Program.quiet_unnoted]
    refine Action.related_viewed ext t n ?_
    simp [*]

theorem quiet_lookTokens : (lookTokens ext t a n).quiet = tokens ext t a n := by
  rw [lookTokens, Program.quiet_bind, Action.quiet_view]
  change (unlooked (tokens ext t (a.viewed { data := a.tokenReads }) n)).quiet = _
  rw [Program.quiet_unnoted, Action.tokens_viewed]

theorem quiet_lookRowTrace (m : Members) :
    (lookRowTrace ext t a n m).quiet = rowTrace ext t a n m := by
  rw [lookRowTrace, rowTrace]
  split_ifs
  · rw [lookOwnTrace, ownTrace, Program.quiet_bind, Program.quiet_unnoted]
    refine congrArg (_ >>= ·) (funext fun res ↦ ?_)
    rw [Program.quiet_bind, Action.quiet_view]
    change (lookRelated ext t a _ (a.viewed a.reads) >>= fun _ ↦ pure _).quiet = _
    rw [Program.quiet_bind, quiet_lookRelated, Action.remember_viewed]
    rfl
  · exact Program.quiet_unnoted

theorem quiet_lookActionTrace (m : Members) :
    (lookActionTrace ext t a n m).quiet = actionTrace ext t a n m := by
  rw [lookActionTrace, actionTrace, Program.quiet_bind, quiet_lookRowTrace]
  refine congrArg (_ >>= ·) (funext fun r ↦ ?_)
  rw [Program.quiet_bind, quiet_lookTokens]
  rfl

section Quiet

theorem quiet_lookAction (object : Json) :
    (lookAction ext object).quiet = pure (readAction ext object) := by
  simp only [lookAction, quiet_look_bind]
  by_cases hdata : ((object.get "act").get "data").isObject
  · simp only [if_pos hdata, readAction]
    rfl
  · simp only [if_neg hdata, readAction]
    rfl

theorem quiet_lookActionTraces (t : Transaction) (n : Int) (m : Members) (objects : List Json) :
    (lookActionTraces ext t n m objects).quiet = actionTraces ext t n m objects := by
  induction objects generalizing n m with
  | nil => rfl
  | cons object objects ih =>
      rw [lookActionTraces, actionTraces]
      split_ifs
      swap
      · exact ih n m
      rw [Program.quiet_bind, quiet_lookAction]
      change (lookActionTrace ext t (readAction ext object) n m >>= fun r ↦
        lookActionTraces ext t r.1 r.2 objects).quiet = _
      rw [Program.quiet_bind, quiet_lookActionTrace]
      exact congrArg (_ >>= ·) (funext fun r ↦ ih r.1 r.2)

theorem quiet_lookTxTrace (m : Members) (document : Json) (bnums : String) :
    (lookTxTrace ext m document bnums).quiet = txTrace ext m document bnums :=
  quiet_lookActionTraces ext (readTransaction ext document bnums) (-1) m _

theorem quiet_lookIf_bind {α : Type} {v : Json} {name : String} {f : Json → Looking α} :
    (lookIf v name >>= f).quiet = (f (v.get name)).quiet := by
  rw [Program.quiet_bind, quiet_lookIf]
  rfl

/-- **Without its notes `lookHandle` is `handle`.** -/
theorem quiet_lookHandle (msg : Msgbuf) (m : Members) :
    (lookHandle ext msg m).quiet = handle ext msg m := by
  rw [lookHandle, handle]
  dsimp only
  rw [quiet_lookIf_bind]
  by_cases hmsgtype : ((ext.parse msg).get "msgtype").isString
  swap
  · rw [if_neg hmsgtype, if_neg fun h ↦ hmsgtype h.1]
    rfl
  rw [if_pos hmsgtype, quiet_lookIf_bind]
  by_cases hdata : ((ext.parse msg).get "data").isObject
  swap
  · rw [if_neg hdata, if_neg fun h ↦ hdata h.2.1]
    rfl
  rw [if_pos hdata, quiet_look_bind, quiet_look_bind, quiet_lookIf_bind]
  by_cases hblocknum : (((ext.parse msg).get "data").get "block_num").isString
  swap
  · rw [if_neg hblocknum, if_neg fun h ↦ hblocknum h.2.2]
    rfl
  rw [if_pos hblocknum, if_pos ⟨hmsgtype, hdata, hblocknum⟩, quiet_look_bind, quiet_look_bind]
  cases stoul (getString (((ext.parse msg).get "data").get "block_num")) with
  | none => rfl
  | some n =>
      dsimp only
      rw [quiet_look_bind, quiet_look_bind]
      split_ifs with htrace
      · rw [quiet_lookTxTrace, handleEvent, htrace]
        rfl
      · exact Program.quiet_unnoted

end Quiet

/-! ## Programs that can be carried out -/

section Can

variable (t : Transaction) (a : Action) (n : Int)

theorem ownerAndPubkey_bind_can {getIdent insIdent pubkeyt actoraccount : String}
    {next : String × String → Prog Unit} (hnext : ∀ r, (next r).Can ()) :
    (ownerAndPubkey ext t getIdent insIdent pubkeyt actoraccount >>= next).Can () := by
  refine Program.can_bind.mpr ⟨if pubkeyt = unknownString then (actoraccount, "")
    else (keyToAccount ext pubkeyt, pubkeyt), ?_, hnext _⟩
  rw [ownerAndPubkey_can]
  split_ifs <;> rfl

/-- The statements for an action that a transaction asks for itself. -/
theorem related_can : (related ext t a n).Can () := by
  rw [related]
  refine Program.Can.ite (by simp [trnsfiopubky]) ?_
  refine Program.Can.ite (ownerAndPubkey_bind_can ext t fun _ ↦ by simp) ?_
  refine Program.Can.ite (by simp [renewdomain]) ?_
  refine Program.Can.ite ?_ ?_
  · refine Program.can_bind.mpr ⟨if a.data ext "new_owner_fio_public_key" = unknownString then
      a.data ext "actor" else keyToAccount ext (a.data ext "new_owner_fio_public_key"), ?_, by simp⟩
    rw [xferdomainOwner]
    split_ifs
    · exact Program.can_bind.mpr ⟨[], by simp, rfl⟩
    · simp
  refine Program.Can.ite (by simp [setdomainpub]) ?_
  refine Program.Can.ite (by simp [wrapdomain]) ?_
  refine Program.Can.ite (by simp [xferescrow]) ?_
  refine Program.Can.ite (by simp [updcryptkey]) ?_
  refine Program.Can.ite rfl ?_
  refine Program.Can.ite (by simp [burnaddress]) ?_
  refine Program.Can.ite (by simp [newfundsreq]) ?_
  refine Program.Can.ite (by simp [recordobt]) ?_
  refine Program.Can.ite (by simp [cancelfndreq, endRequest]) ?_
  refine Program.Can.ite (by simp [rejectfndreq, endRequest]) ?_
  refine Program.Can.ite (ownerAndPubkey_bind_can ext t fun _ ↦ by simp) ?_
  refine Program.Can.ite (by simp [renewaddress, handleActivity]) ?_
  refine Program.Can.ite (by simp [addbundles, handleActivity]) ?_
  refine Program.Can.ite (by simp [addnft, can_forEach]) ?_
  refine Program.Can.ite (by simp [remnft, can_forEach]) ?_
  refine Program.Can.ite (by simp [remallnfts]) ?_
  refine Program.Can.ite (ownerAndPubkey_bind_can ext t fun _ ↦ by simp) ?_
  refine Program.Can.ite (by simp [remalladdr]) ?_
  refine Program.Can.ite (by simp [addaddress, can_forEach, addPubaddress]) ?_
  refine Program.Can.ite (by simp [remaddress, can_forEach, remPubaddress]) ?_
  refine Program.Can.ite rfl ?_
  refine Program.Can.ite (by simp [stakefio]) ?_
  refine Program.Can.ite (by simp [unstakefio]) ?_
  refine Program.Can.ite (by simp [retire]) ?_
  exact Program.Can.ite ((can_forEach (fun _ ↦ by simp [fip48Transfer]) _).mpr trivial) rfl

/-- The statements for an action of any kind. -/
theorem tokens_can : (tokens ext t a n).Can () := by
  rw [tokens]
  refine Program.Can.ite (by simp [transfer]) ?_
  refine Program.Can.ite (by simp [issue]) ?_
  exact Program.Can.ite (by simp [bind2eosio]) rfl

theorem lookRelated_can (found : Action) : (lookRelated ext t a n found).Can () := by
  rw [lookRelated]
  refine Program.Can.ite ?_ ?_
  · exact Program.can_bind.mpr ⟨(), by simp [handleActivity], can_lookEach fun _ ↦ by simp⟩
  refine Program.Can.ite ?_ ?_
  · exact Program.can_bind.mpr ⟨(), by simp [handleActivity], can_lookEach fun _ ↦ by simp⟩
  refine Program.Can.ite ?_ ?_
  · exact can_look_bind.mpr (can_lookEach fun _ ↦ by simp [addPubaddress])
  refine Program.Can.ite ?_ ?_
  · exact can_look_bind.mpr (can_lookEach fun _ ↦ by simp [remPubaddress])
  exact Program.can_unnoted.mpr (related_can ext t found n)

theorem lookRowTrace_can (m : Members) : ∃ r, (lookRowTrace ext t a n m).Can r := by
  by_cases hown : a.IsOwn
  · refine ⟨(firstNumber [] n, remember ext t (a.viewed a.reads) (firstNumber [] n) m), ?_⟩
    rw [lookRowTrace, if_pos hown]
    refine Program.can_bind.mpr ⟨[], Program.can_unnoted.mpr ((can_exec _).mpr trivial), ?_⟩
    refine Program.can_bind.mpr ⟨_, Action.can_view.mpr rfl, ?_⟩
    exact Program.can_bind.mpr ⟨(), lookRelated_can ext t a _ _, rfl⟩
  · refine ⟨(n, m), ?_⟩
    rw [lookRowTrace, if_neg hown, Program.can_unnoted, innerTrace_can]

theorem lookActionTrace_can (m : Members) : ∃ r, (lookActionTrace ext t a n m).Can r := by
  obtain ⟨r, hr⟩ := lookRowTrace_can ext t a n m
  refine ⟨r, Program.can_bind.mpr ⟨r, hr, Program.can_bind.mpr ⟨(), ?_, rfl⟩⟩⟩
  exact Program.can_bind.mpr
    ⟨_, Action.can_view.mpr rfl, Program.can_unnoted.mpr (tokens_can ext t _ _)⟩

end Can

/-! ## Shapes -/

/-- The actions whose data is looked into. -/
def lookedInto : List String :=
  ["trnsfiopubky", "trnsloctoks", "regdomain", "regdomadd", "renewdomain", "xferdomain",
    "setdomainpub", "wrapdomain", "xferescrow", "updcryptkey", "burnaddress", "newfundsreq",
    "recordobt", "cancelfndreq", "rejectfndreq", "regaddress", "renewaddress", "addbundles",
    "addnft", "remnft", "remallnfts", "xferaddress", "remalladdr", "addaddress", "remaddress",
    "stakefio", "unstakefio", "retire"]

/-- What the decoder emits for a transaction: objects for structures, arrays for vectors and a
string with the number of the block.  A receipt may be null, the data of an action is what its ABI
makes of it, or a string. -/
structure Emitted (document : Json) : Prop where
  isObject : document.isObject
  msgtype : document.get "msgtype" = .string "TX_TRACE"
  data : (document.get "data").isObject
  blockNum : ∃ n, (document.get "data").get "block_num" = .string (toString (n : Nat)) ∧ n < 2 ^ 32
  trace : ((document.get "data").get "trace").isObject
  traces : (((document.get "data").get "trace").get "action_traces").isArray
  act : ∀ object ∈ (((document.get "data").get "trace").get "action_traces").getArray,
    (object.get "act").isObject
  authorization : ∀ object ∈ (((document.get "data").get "trace").get "action_traces").getArray,
    ∀ v ∈ ((object.get "act").get "authorization").getArray, v.isObject

/-- The response and the data of an action have the shapes that are relied on. -/
structure Action.Shaped (a : Action) : Prop where
  response : a.respdoc.isObject
  data : a.IsOwn ∧ a.actionname ∈ lookedInto ∨ a.IsToken → a.actdata.isObject
  nfts : a.IsOwn → a.actionname ∈ ["addnft", "remnft"] → (a.actdata.get "nfts").isArray
  addresses : a.IsOwn → a.actionname ∈ ["addaddress", "remaddress"] →
    (a.actdata.get "public_addresses").isArray

section Shapes

variable (t : Transaction) (a : Action) (n : Int)

theorem Action.reads_data_ne_nil : a.reads.data ≠ [] ↔ a.actionname ∈ lookedInto := by
  have hrows : ∀ r ∈ relatedReads, r.2.data ≠ [] ↔ r.1 ∈ lookedInto := by decide
  have hnames : ∀ name ∈ lookedInto, (relatedReads.find? fun r ↦ r.1 = name).isSome := by decide
  rw [reads]
  cases hfind : relatedReads.find? fun r ↦ r.1 = a.actionname with
  | none =>
      refine iff_of_false (fun h ↦ h rfl) fun hname ↦ ?_
      have hsome := hnames _ hname
      rw [hfind] at hsome
      cases hsome
  | some r =>
      have hname : r.1 = a.actionname := by simpa using List.find?_some hfind
      rw [← hname]
      exact hrows r (List.mem_of_find?_eq_some hfind)

theorem Action.tokenReads_ne_nil : a.tokenReads ≠ [] ↔ a.IsToken := by
  rw [tokenReads, IsToken]
  split_ifs with htransfer hissue hbind
  · exact iff_of_true (List.cons_ne_nil _ _) (.inl htransfer)
  · exact iff_of_true (List.cons_ne_nil _ _) (.inr (.inl hissue))
  · exact iff_of_true (List.cons_ne_nil _ _) (.inr (.inr hbind))
  · exact iff_of_false (fun h ↦ h rfl) (not_or.mpr ⟨htransfer, not_or.mpr ⟨hissue, hbind⟩⟩)

theorem looksOk_lookRelated (found : Action) :
    (lookRelated ext t a n found).EveryNoted Access.Ok ↔
      (a.actionname ∈ ["addnft", "remnft"] →
        a.actdata.isObject ∧ (a.actdata.get "nfts").isArray) ∧
      (a.actionname ∈ ["addaddress", "remaddress"] →
        a.actdata.isObject ∧ (a.actdata.get "public_addresses").isArray) := by
  rw [lookRelated]
  split_ifs with haddnft hremnft haddaddress hremaddress
  · simp [haddnft, looksOk_lookEach, handleActivity]
  · simp [hremnft, looksOk_lookEach, handleActivity]
  · simp [haddaddress, looksOk_lookEach]
  · simp [hremaddress, looksOk_lookEach]
  · simp [*]

theorem looksOk_lookTokens :
    (lookTokens ext t a n).EveryNoted Access.Ok ↔ (a.IsToken → a.actdata.isObject) := by
  rw [← Action.tokenReads_ne_nil]
  simp [lookTokens]

/-- The lookups for an action that a transaction asks for itself. -/
theorem looksOk_lookOwnTrace (m : Members) (hresponse : a.respdoc.isObject) :
    (lookOwnTrace ext t a n m).EveryNoted Access.Ok ↔
      (a.actionname ∈ lookedInto → a.actdata.isObject) ∧
      (a.actionname ∈ ["addnft", "remnft"] →
        a.actdata.isObject ∧ (a.actdata.get "nfts").isArray) ∧
      (a.actionname ∈ ["addaddress", "remaddress"] →
        a.actdata.isObject ∧ (a.actdata.get "public_addresses").isArray) := by
  have hview : (a.view a.reads).EveryNoted Access.Ok ↔
      (a.actionname ∈ lookedInto → a.actdata.isObject) := by
    rw [Action.looksOk_view, Action.reads_data_ne_nil]
    exact and_iff_left fun _ ↦ hresponse
  rw [lookOwnTrace, Program.everyNoted_bind, ← hview]
  constructor
  · rintro ⟨-, h⟩
    obtain ⟨hdata, hrest⟩ := Program.everyNoted_bind.mp
      (h [] (Program.can_unnoted.mpr ((can_exec _).mpr trivial)))
    have hrelated := hrest _ (Action.can_view.mpr rfl)
    exact ⟨hdata, (looksOk_lookRelated ext t a _ _).mp (Program.everyNoted_bind.mp hrelated).1⟩
  · rintro ⟨hdata, hrelated⟩
    refine ⟨Program.everyNoted_unnoted.mpr trivial, fun res _ ↦ ?_⟩
    refine Program.everyNoted_bind.mpr ⟨hdata, fun found _ ↦ ?_⟩
    exact Program.everyNoted_bind.mpr
      ⟨(looksOk_lookRelated ext t a _ found).mpr hrelated, fun _ _ ↦ trivial⟩

/-- The lookups for one action, after it was read. -/
theorem looksOk_lookActionTrace (m : Members) (hresponse : a.respdoc.isObject) :
    (lookActionTrace ext t a n m).EveryNoted Access.Ok ↔ a.Shaped := by
  have hrow : (lookRowTrace ext t a n m).EveryNoted Access.Ok ↔
      (a.IsOwn → (lookOwnTrace ext t a n m).EveryNoted Access.Ok) := by
    rw [lookRowTrace]
    split_ifs with hown
    · exact (imp_iff_right hown).symm
    · exact iff_of_true (Program.everyNoted_unnoted.mpr trivial) fun h ↦ absurd h hown
  have htrace : (lookActionTrace ext t a n m).EveryNoted Access.Ok ↔
      (lookRowTrace ext t a n m).EveryNoted Access.Ok ∧ (a.IsToken → a.actdata.isObject) := by
    rw [lookActionTrace, Program.everyNoted_bind]
    refine and_congr_right fun _ ↦ ?_
    simp only [Program.everyNoted_bind, looksOk_lookTokens, Program.everyNoted_pure, implies_true,
      and_true]
    obtain ⟨r, hr⟩ := lookRowTrace_can ext t a n m
    exact ⟨fun h ↦ h r hr, fun h _ _ ↦ h⟩
  rw [htrace, hrow, looksOk_lookOwnTrace ext t a n m hresponse]
  constructor
  · rintro ⟨hown, htokens⟩
    refine ⟨hresponse, ?_, fun h hname ↦ ((hown h).2.1 hname).2,
      fun h hname ↦ ((hown h).2.2 hname).2⟩
    rintro (⟨h, hname⟩ | h)
    · exact (hown h).1 hname
    · exact htokens h
  · intro h
    have hdata := fun hown : a.IsOwn ↦ fun hname ↦ h.data (.inl ⟨hown, hname⟩)
    have hnfts : ∀ name ∈ ["addnft", "remnft"], name ∈ lookedInto := by decide
    have haddresses : ∀ name ∈ ["addaddress", "remaddress"], name ∈ lookedInto := by decide
    refine ⟨fun hown ↦ ⟨hdata hown, fun hname ↦ ?_, fun hname ↦ ?_⟩,
      fun htoken ↦ h.data (.inr htoken)⟩
    · exact ⟨hdata hown (hnfts _ hname), h.nfts hown hname⟩
    · exact ⟨hdata hown (haddresses _ hname), h.addresses hown hname⟩

/-- The lookups for the trace of an action. -/
theorem looksOk_lookAction_bind {object : Json} {next : Action → Looking Members}
    (hobject : object.isObject) (hact : (object.get "act").isObject)
    (hauth : ∀ v ∈ ((object.get "act").get "authorization").getArray, v.isObject) :
    (lookAction ext object >>= next).EveryNoted Access.Ok ↔
      (object.get "receipt").isObject ∧ (readAction ext object).respdoc.isObject ∧
        (next (readAction ext object)).EveryNoted Access.Ok := by
  have hfirstauth : ((((object.get "act").get "authorization").first?).getD object).isObject := by
    cases hauthorization : (object.get "act").get "authorization" with
    | array elements =>
        cases elements with
        | nil => exact hobject
        | cons v elements =>
            rw [hauthorization] at hauth
            exact hauth v List.mem_cons_self
    | _ => exact hobject
  have hcan : ∀ a, (lookAction ext object).Can a ↔ readAction ext object = a := by
    intro a
    simp only [lookAction, can_look_bind, readAction]
    by_cases hdata : ((object.get "act").get "data").isObject
    · simp only [if_pos hdata]
      exact Iff.rfl
    · simp only [if_neg hdata]
      exact Iff.rfl
  have hlooks : (lookAction ext object).EveryNoted Access.Ok ↔
      (object.get "receipt").isObject ∧ (readAction ext object).respdoc.isObject := by
    simp only [lookAction, looksOk_look_bind, hobject, hact, hfirstauth, true_and]
    refine and_congr_right fun _ ↦ and_iff_left ?_
    by_cases hdata : ((object.get "act").get "data").isObject
    · simp only [if_pos hdata]
      exact ⟨hdata, hfirstauth, trivial⟩
    · simp only [if_neg hdata]
      exact ⟨hfirstauth, trivial⟩
  rw [Program.everyNoted_bind, hlooks, and_assoc]
  simp only [hcan, forall_eq']

/-- The lookups for all actions. -/
theorem looksOk_lookActionTraces (m : Members) (objects : List Json)
    (hact : ∀ object ∈ objects, (object.get "act").isObject)
    (hauth : ∀ object ∈ objects, ∀ v ∈ ((object.get "act").get "authorization").getArray,
      v.isObject) :
    (lookActionTraces ext t n m objects).EveryNoted Access.Ok ↔
      ∀ object ∈ objects.filter Json.isObject,
        (object.get "receipt").isObject ∧ (readAction ext object).Shaped := by
  induction objects generalizing n m with
  | nil => exact iff_of_true trivial fun _ h ↦ absurd h List.not_mem_nil
  | cons object objects ih =>
      have ih := fun n m ↦ ih n m (fun o ho ↦ hact o (List.mem_cons_of_mem _ ho))
        fun o ho ↦ hauth o (List.mem_cons_of_mem _ ho)
      rw [lookActionTraces]
      split_ifs with hobject
      · rw [List.filter_cons_of_pos hobject, List.forall_mem_cons,
          looksOk_lookAction_bind ext hobject (hact object List.mem_cons_self)
            (hauth object List.mem_cons_self), and_assoc]
        refine and_congr_right fun _ ↦ ?_
        constructor
        · rintro ⟨hresponse, h⟩
          obtain ⟨htrace, hrest⟩ := Program.everyNoted_bind.mp h
          obtain ⟨r, hr⟩ := lookActionTrace_can ext t (readAction ext object) n m
          exact ⟨(looksOk_lookActionTrace ext t _ n m hresponse).mp htrace,
            (ih r.1 r.2).mp (hrest r hr)⟩
        · rintro ⟨hshaped, hrest⟩
          refine ⟨hshaped.response, Program.everyNoted_bind.mpr ⟨?_, fun r _ ↦ ?_⟩⟩
          · exact (looksOk_lookActionTrace ext t _ n m hshaped.response).mpr hshaped
          · exact (ih r.1 r.2).mpr hrest
      · rw [List.filter_cons_of_neg hobject]
        exact ih n m

end Shapes

/-! ## Messages -/

/-- A member that is not null is looked up. -/
theorem lookIf_of_ne_null {v : Json} {name : String} (h : v.get name ≠ .null) :
    lookIf v name = look v name := by
  refine if_pos ?_
  by_contra hnone
  exact h (get_of_not_hasMember hnone)

theorem looksOk_lookTxTrace {document : Json} (h : Emitted document) (m : Members)
    (bnums : String) :
    (lookTxTrace ext m document bnums).EveryNoted Access.Ok ↔
      ∀ object ∈ ((((document.get "data").get "trace").get "action_traces").getArray.filter
        Json.isObject), (object.get "receipt").isObject ∧ (readAction ext object).Shaped := by
  simp only [lookTxTrace, looksOk_look_bind, looksOk_lookElements_bind, h.isObject, h.data, h.trace,
    h.traces, true_and]
  exact looksOk_lookActionTraces ext (readTransaction ext document bnums) (-1) m _ h.act
    h.authorization

theorem looksOk_lookHandle {msg : Msgbuf} (h : Emitted (ext.parse msg)) (m : Members) :
    (lookHandle ext msg m).EveryNoted Access.Ok ↔
      ∀ object ∈ (((((ext.parse msg).get "data").get "trace").get "action_traces").getArray.filter
        Json.isObject), (object.get "receipt").isObject ∧ (readAction ext object).Shaped := by
  obtain ⟨n, hn, hlt⟩ := h.blockNum
  have hstoul : stoul (getString (((ext.parse msg).get "data").get "block_num")) = some n := by
    rw [hn, getString, cString_toString, stoul_toString (hlt.trans (by decide))]
  have htype : getString ((ext.parse msg).get "msgtype") = "TX_TRACE" := by
    rw [h.msgtype]
    exact cString_eq_self (by decide +kernel)
  have hmsgtype : ((ext.parse msg).get "msgtype").isString := h.msgtype ▸ rfl
  have hblocknum : (((ext.parse msg).get "data").get "block_num").isString := hn ▸ rfl
  have hne : ∀ {v : Json}, v.isString ∨ v.isObject → v ≠ .null := by
    rintro v (hv | hv) rfl <;> cases hv
  rw [← looksOk_lookTxTrace ext h m (getString (((ext.parse msg).get "data").get "block_num"))]
  simp only [lookHandle, lookIf_of_ne_null (hne (.inl hmsgtype)),
    lookIf_of_ne_null (hne (.inr h.data)), lookIf_of_ne_null (hne (.inl hblocknum)),
    looksOk_look_bind, hmsgtype, h.data, hblocknum, h.isObject, if_true, true_and, hstoul, htype]

/-- **For a message that the decoder can emit, whatever the database answers, members are looked up
in objects and iterations are over arrays exactly if every action has a receipt that is an object
and a response that is the text of one, the data of an action is an object where it is looked
into, and the tokens and addresses that are added or removed are arrays.** -/
theorem lookups_ok_iff {msg : Msgbuf} (h : Emitted (ext.parse msg)) :
    (∀ (m : Members) (answers : Nat → Option Rows) (access : Access),
      .told (.inr access) ∈ ((lookHandle ext msg m).run answers).trace → access.Ok) ↔
      ∀ object ∈ (((((ext.parse msg).get "data").get "trace").get "action_traces").getArray.filter
        Json.isObject), (object.get "receipt").isObject ∧ (readAction ext object).Shaped := by
  constructor
  · intro hall
    exact (looksOk_lookHandle ext h {}).mp (Program.everyNoted_iff.mpr (hall {}))
  · intro hall m
    exact Program.everyNoted_iff.mp ((looksOk_lookHandle ext h m).mpr hall)

/-- The registration of a handle with some data. -/
def regaddressTrace (data : Json) : Json :=
  .object [("action_ordinal", .string "1"), ("creator_action_ordinal", .string "0"),
    ("receipt", .object [("response", .string "\x7b\x7d")]), ("receiver", .string "fio.address"),
    ("act", .object [("account", .string "fio.address"), ("name", .string "regaddress"),
      ("authorization", .array [.object [("actor", .string "alice"),
        ("permission", .string "active")]]), ("data", data)])]

/-- Its message. -/
def regaddressDocument (data : Json) : Json :=
  transactionDocument "executed" [regaddressTrace data]

theorem regaddressDocument_emitted (data : Json) : Emitted (regaddressDocument data) := by
  refine ⟨rfl, rfl, rfl, ⟨100, rfl, by decide⟩, rfl, rfl, fun object hobject ↦ ?_,
    fun object hobject v hv ↦ ?_⟩
  · obtain rfl := List.mem_singleton.mp hobject
    rfl
  · obtain rfl := List.mem_singleton.mp hobject
    obtain rfl := List.mem_singleton.mp hv
    rfl

theorem regaddressTrace_response (data : Json) :
    (readAction readerExternals (regaddressTrace data)).respdoc = .object [] := by
  have htext : cString "\x7b\x7d" = "\x7b\x7d" := cString_eq_self (by decide +kernel)
  have hdoc : utf8Bytes "\x7b\x7d" = (Json.object []).doc.text := by decide +kernel
  change readerExternals.parse (utf8Bytes (cString "\x7b\x7d")) = .object []
  rw [htext, hdoc]
  exact readerExternals_parse_doc rfl rfl

/-- The data of the registration. -/
def regaddressData : Json :=
  .object [("fio_address", .string "alice@fio"), ("owner_fio_public_key", .string ""),
    ("actor", .string "alice")]

/-- The data was decoded. -/
theorem lookups_ok_decoded :
    let msg := (regaddressDocument regaddressData).doc.text
    Emitted (readerExternals.parse msg) ∧
      ∀ (m : Members) (answers : Nat → Option Rows) (access : Access),
        .told (.inr access) ∈ ((lookHandle readerExternals msg m).run answers).trace →
          access.Ok := by
  intro msg
  have hparse : readerExternals.parse msg = regaddressDocument regaddressData :=
    readerExternals_parse_doc rfl rfl
  have hemitted : Emitted (readerExternals.parse msg) :=
    hparse ▸ regaddressDocument_emitted regaddressData
  refine ⟨hemitted, (lookups_ok_iff readerExternals hemitted).mpr ?_⟩
  rw [hparse]
  intro object hobject
  obtain rfl := List.mem_singleton.mp (List.mem_filter.mp hobject).1
  have hname : (readAction readerExternals (regaddressTrace regaddressData)).actionname =
      "regaddress" := (by decide +kernel : cString "regaddress" = "regaddress")
  refine ⟨rfl, ?_, fun _ ↦ rfl, fun _ h ↦ ?_, fun _ h ↦ ?_⟩
  · rw [regaddressTrace_response]
    rfl
  · rw [hname] at h
    exact absurd h (by decide)
  · rw [hname] at h
    exact absurd h (by decide)

/-- The data was not decoded, and is a string of digits. -/
theorem hex_data_looked_into :
    let msg := (regaddressDocument (.string "00")).doc.text
    Emitted (readerExternals.parse msg) ∧
      ¬ ∀ (m : Members) (answers : Nat → Option Rows) (access : Access),
        .told (.inr access) ∈ ((lookHandle readerExternals msg m).run answers).trace →
          access.Ok := by
  intro msg
  have hparse : readerExternals.parse msg = regaddressDocument (.string "00") :=
    readerExternals_parse_doc rfl rfl
  have hemitted : Emitted (readerExternals.parse msg) :=
    hparse ▸ regaddressDocument_emitted (.string "00")
  refine ⟨hemitted, fun hall ↦ ?_⟩
  have hshaped := (looksOk_lookHandle readerExternals hemitted {}).mp
    (Program.everyNoted_iff.mpr (hall {}))
  rw [hparse] at hshaped
  have hdata := (hshaped (regaddressTrace (.string "00")) (List.mem_singleton_self _)).2.data
    (.inl ⟨by decide +kernel, by decide +kernel⟩)
  exact absurd hdata Bool.false_ne_true

end Chronicle.Relic
