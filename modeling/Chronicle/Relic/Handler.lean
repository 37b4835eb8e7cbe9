import Chronicle.Relic.Statements
import Chronicle.Model.Objects

/-!
# Messages of the Relic exporter

What `async_send_events` does with one message.  It is a program that asks the database: every
`PQexec` is followed by a check, and a statement that has failed ends in `terminalerror`, which
throws.  An exception is caught at the end of `async_send_events`, so it ends the handling of
all messages.

libpq notices a lost connection only in a statement that fails, and such a statement has thrown;
so the branches that look for one with `PQstatus` are left out.
-/

namespace Chronicle.Relic

/-- The rows of a result. -/
abbrev Rows := List (List String)

/-- `PQgetvalue`; nothing for a null pointer, when there is no such row or column. -/
def pqGetvalue (res : Rows) (row column : Nat) : Option String :=
  (res[row]?).bind (·[column]?)

/-- The number in the first column of the first row. -/
def firstNumber (res : Rows) (defaultv : Int) : Int :=
  match pqGetvalue res 0 0 with
  | none => defaultv
  | some v => atoi v

/-- A statement, and how its failure is logged. -/
structure Query where
  uniqueident : String
  statement : Statement

/-- The handling of a message asks for the results of statements, and acknowledges blocks. -/
abbrev Prog := Program Query Rows Nat

/-- `PQexec` and the check of its result. -/
def exec (uniqueident : String) (statement : Statement) : Prog Rows :=
  .ask ⟨uniqueident, statement⟩ .pure

/-- A statement whose result is only checked. -/
def perform (uniqueident : String) (statement : Statement) : Prog Unit :=
  .ask ⟨uniqueident, statement⟩ fun _ ↦ .pure ()

/-- `terminalerror` for a result that does not suit. -/
def terminalerror {α : Type} : Prog α := .throw

/-- Something that is done in one case only. -/
def onlyIf (c : Prop) [Decidable c] (p : Prog Unit) : Prog Unit := if c then p else pure ()

/-- Something that is done with each element in turn. -/
def forEach {α : Type} (f : α → Prog Unit) : List α → Prog Unit
  | [] => pure ()
  | x :: rest => do
    f x
    forEach f rest

/-- `ack_block` -/
def ackBlock (bnum : Nat) : Prog Unit := .tell bnum (.pure ())

section Steps

variable {P : Query → Prop} {uniqueident : String} {statement : Statement} {c : Prop} [Decidable c]
  {p : Prog Unit} {u : Unit}

@[simp]
theorem every_exec : (exec uniqueident statement).Every P ↔ P ⟨uniqueident, statement⟩ :=
  and_iff_left fun _ ↦ trivial

@[simp]
theorem can_exec (res : Rows) : (exec uniqueident statement).Can res ↔ True :=
  iff_true_intro ⟨res, rfl⟩

@[simp]
theorem every_perform : (perform uniqueident statement).Every P ↔ P ⟨uniqueident, statement⟩ :=
  and_iff_left fun _ ↦ trivial

@[simp]
theorem can_perform : (perform uniqueident statement).Can u ↔ True := iff_true_intro ⟨[], rfl⟩

@[simp]
theorem every_ackBlock (bnum : Nat) : (ackBlock bnum).Every P ↔ True := Iff.rfl

@[simp]
theorem can_ackBlock (bnum : Nat) : (ackBlock bnum).Can u ↔ True := iff_true_intro rfl

@[simp]
theorem every_onlyIf : (onlyIf c p).Every P ↔ (c → p.Every P) := by
  rw [onlyIf]
  split_ifs with hc
  · exact ⟨fun h _ ↦ h, fun h ↦ h hc⟩
  · exact iff_of_true trivial fun h ↦ absurd h hc

@[simp]
theorem can_onlyIf : (onlyIf c p).Can u ↔ (c → p.Can u) := by
  rw [onlyIf]
  split_ifs with hc
  · exact ⟨fun h _ ↦ h, fun h ↦ h hc⟩
  · exact iff_of_true rfl fun h ↦ absurd h hc

theorem can_forEach {α : Type} {f : α → Prog Unit} (hf : ∀ x, (f x).Can ()) (l : List α) :
    (forEach f l).Can u ↔ True := by
  refine iff_true_intro ?_
  induction l with
  | nil => exact rfl
  | cons x l ih => exact Program.can_bind.mpr ⟨(), hf x, ih⟩

theorem every_forEach {α : Type} {f : α → Prog Unit} (hf : ∀ x, (f x).Can ()) (l : List α) :
    (forEach f l).Every P ↔ ∀ x ∈ l, (f x).Every P := by
  induction l with
  | nil => exact iff_of_true trivial fun _ h ↦ absurd h List.not_mem_nil
  | cons x l ih =>
      rw [forEach, Program.every_bind, List.forall_mem_cons, ← ih]
      exact and_congr_right fun _ ↦ ⟨fun h ↦ h () (hf x), fun h _ _ ↦ h⟩

end Steps

/-- The members of `exp_relic_plugin_impl` that are kept from message to message. -/
structure Members where
  domainjsons : List String := []
  handlejsons : List String := []
  burnaddresses : List String := []
  burnexpiredthisblock : Bool := false
  burnexpiredtrid : Nat := 0
  burnexpiredtimestamp : String := ""

variable (ext : Externals)

/-! ## The end of a block -/

/-- The domains that may have been burnt. -/
def burnDomains (m : Members) (bnums : String) : List String → Prog Unit
  | [] => pure ()
  | datastr :: rest => do
    let object := parseText ext datastr
    let domname := getjsonstring ext unknownString (((object.get "kvo").get "value").get "name")
      allowEmptyValues
    let domainbnum := getjsonstring ext unknownString (object.get "block_num") allowEmptyValues
    onlyIf (bnums = domainbnum) do
      let res ← exec "burndomain" (upddomainburnt domname)
      onlyIf (firstNumber res 0 = 1) (perform "burndomainactivity"
        (insdomainactivities bnums domname "auto_burn" m.burnexpiredtimestamp m.burnexpiredtrid))
    burnDomains m bnums rest

/-- Whether a handle is to be burnt: the database has all these addresses. -/
def makeHandleBurnt (handle : String) : List Json → Prog Bool
  | [] => pure true
  | object :: rest =>
    if object.isObject then do
      let tokencode := getjsonstring ext unknownString (object.get "token_code") disallowEmptyValues
      let chaincode := getjsonstring ext unknownString (object.get "chain_code") disallowEmptyValues
      let publicaddress := getjsonstring ext unknownString (object.get "public_address")
        disallowEmptyValues
      let res ← exec "burndomainpubaddrexists"
        (existspubaddress handle chaincode tokencode publicaddress)
      if firstNumber res 0 = 0 then pure false else makeHandleBurnt handle rest
    else makeHandleBurnt handle rest

/-- The handles that may have been burnt.  Their addresses are looked for in the message that
ends the block. -/
def burnHandles (m : Members) (document : Json) (bnums : String) : List String → Prog Unit
  | [] => pure ()
  | datastr :: rest => do
    let object := parseText ext datastr
    let handle := getjsonstring ext unknownString (((object.get "kvo").get "value").get "name")
      allowEmptyValues
    let handlebnum := getjsonstring ext unknownString (object.get "block_num") allowEmptyValues
    onlyIf (handle ∉ m.burnaddresses ∧ bnums = handlebnum) do
      let dvaddresses := ((document.get "kvo").get "value").get "addresses"
      let makehandleburnt ← makeHandleBurnt ext handle dvaddresses.getArray
      onlyIf makehandleburnt do
        let res ← exec "burnhandle" (updhandleburnt bnums handle)
        onlyIf (firstNumber res 0 = 1) (perform "burnhandleactivity"
          (inshandleactivities bnums handle "auto_burn" m.burnexpiredtimestamp m.burnexpiredtrid))
    burnHandles m document bnums rest

/-- `BLOCK_COMPLETED` -/
def blockCompleted (m : Members) (document : Json) (bnums : String) (bnum : Nat) :
    Prog Members := do
  onlyIf m.burnexpiredthisblock do
    burnDomains ext m bnums m.domainjsons
    burnHandles ext m document bnums m.handlejsons
  ackBlock (Uint32.sub bnum 1)
  pure {}

/-! ## Blocks -/

/-- `BLOCK` -/
def block (document : Json) (bnums : String) : Prog Unit :=
  let data := document.get "data"
  let btimestamp := getjsonstring ext unknownTimestamp ((data.get "block").get "timestamp")
    disallowEmptyValues
  let bproducer := getjsonstring ext unknownString ((data.get "block").get "producer")
    disallowEmptyValues
  let bschedv := getjsonstring ext unknownString ((data.get "block").get "schedule_version")
    disallowEmptyValues
  let bid := getjsonstring ext unknownString (data.get "block_id") disallowEmptyValues
  perform "insblock" (insblocks bnums btimestamp bid bproducer bschedv)

/-- `FORK` -/
def fork (bnums : String) (bnum : Nat) : Prog Unit := do
  perform "fork" (rbfork bnums)
  ackBlock (Uint32.sub bnum 1)

/-! ## Rows -/

/-- `TBL_ROW` -/
def tblRow (m : Members) (document : Json) : Members :=
  let data := document.get "data"
  let dataadded := getjsonstring ext unknownTimestamp (data.get "added") disallowEmptyValues
  let kvotable := getjsonstring ext unknownTimestamp ((data.get "kvo").get "table")
    disallowEmptyValues
  let datavs := getjsonstring ext unknownString data disallowEmptyValues
  if dataadded = "false" ∧ kvotable = "domains" then
    { m with domainjsons := m.domainjsons ++ [datavs] }
  else if dataadded = "false" ∧ kvotable = "fiohandles" then
    { m with handlejsons := m.handlejsons ++ [datavs] }
  else m

/-! ## Transactions -/

/-- What the actions of a transaction have in common. -/
structure Transaction where
  bnums : String
  blocktimestamp : String
  trid : String
  status : String

/-- What is read from an action. -/
structure Action where
  actionordinal : String
  creatoractionordinal : String
  response : String
  receiveraccount : String
  contractaccount : String
  actionname : String
  actdata : Json
  respdoc : Json
  feeamount : String
  actionaccount : String
  tpid : String
  requestdata : String

/-- The number in an ordinal. -/
def ordinal (s : String) : Int := if s = unknownNumberNull then -1 else atoi s

def readAction (object : Json) : Action :=
  let response := getjsonstring ext unknownString ((object.get "receipt").get "response")
    allowEmptyValues
  let actdata := (object.get "act").get "data"
  let respdoc := parseText ext response
  -- the first authorization is moved over `object`, which is not read again
  let firstauth := (((object.get "act").get "authorization").first?).getD object
  { actionordinal := getjsonstring ext unknownNumberNull (object.get "action_ordinal")
      disallowEmptyValues
    creatoractionordinal := getjsonstring ext unknownNumberNull
      (object.get "creator_action_ordinal") disallowEmptyValues
    response := response
    receiveraccount := getjsonstring ext unknownString (object.get "receiver") disallowEmptyValues
    contractaccount := getjsonstring ext unknownString ((object.get "act").get "account")
      disallowEmptyValues
    actionname := getjsonstring ext unknownString ((object.get "act").get "name")
      disallowEmptyValues
    actdata := actdata
    respdoc := respdoc
    feeamount := getjsonstring ext unknownNumber0 (respdoc.get "fee_collected") allowEmptyValues
    actionaccount := getjsonstring ext unknownString (firstauth.get "actor") disallowEmptyValues
    tpid := if actdata.isObject then
        getjsonstring ext unknownString (actdata.get "tpid") allowEmptyValues
      else ""
    requestdata := getjsonstring ext unknownString actdata allowEmptyValues }

namespace Action

/-- A string of the data of an action. -/
def data (a : Action) (name : String) : String :=
  member ext a.actdata name

/-- A string of the data of an action, which is not taken if it is empty. -/
def nonemptyData (a : Action) (name : String) : String :=
  getjsonstring ext unknownString (a.actdata.get name) disallowEmptyValues

/-- The `expiration` of a response. -/
def expiration (a : Action) : String :=
  getjsonstring ext unknownTimestamp (a.respdoc.get "expiration") allowEmptyValues

end Action

/-- The part of a handle after the first `@`. -/
def domainOf (handle : String) : String :=
  String.ofList (handle.toList.dropWhile (· != '@')).tail

section Actions

variable (t : Transaction) (a : Action) (fktransactionid : Int)

/-- `trnsfiopubky` and `trnsloctoks` -/
def trnsfiopubky : Prog Unit :=
  let payeeacct := keyToAccount ext (a.data ext "payee_public_key")
  let trnstype := if a.actionname = "trnsloctoks" then "transfer_locked" else "transfer"
  perform "locktokentransfer" (instokentransfers t.bnums t.blocktimestamp fktransactionid
    (a.data ext "actor") payeeacct (a.data ext "amount") trnstype (.constant ""))

/-- The owner of what an action registers or transfers, and its key: if the action does not name
a key, those of the account that has acted. -/
def ownerAndPubkey (getIdent insIdent : String) (pubkeyt actoraccount : String) :
    Prog (String × String) :=
  if pubkeyt = unknownString then do
    let res ← exec getIdent (getaccountpubkeyandid actoraccount)
    if 1 < res.length then terminalerror
    else
      match pqGetvalue res 0 1 with
      -- a string cannot be made from a null pointer
      | none => .throw
      | some pubkeyt => pure (actoraccount, pubkeyt)
  else do
    perform insIdent (insupdaccounts t.bnums (keyToAccount ext pubkeyt) t.blocktimestamp pubkeyt
      "false")
    pure (keyToAccount ext pubkeyt, pubkeyt)

/-- `regdomain` and `regdomadd` -/
def regdomain : Prog Unit := do
  let handle := if a.actionname = "regdomain" then "" else a.data ext "fio_address"
  let domainname :=
    if a.actionname = "regdomain" then a.data ext "fio_domain" else domainOf handle
  let actoraccount := a.data ext "actor"
  let expirationtimestamp := a.expiration ext
  let (owneracct, pubkey) ← ownerAndPubkey ext t "regdomaingetaccountinf"
    "regdomaininsupdaccounts" (a.data ext "owner_fio_public_key") actoraccount
  perform "regdomain" (insdomains t.bnums domainname owneracct "false" expirationtimestamp "active")
  perform "regdomainactivity" (insdomainactivities t.bnums domainname "register" t.blocktimestamp
    fktransactionid)
  onlyIf (a.actionname = "regdomadd") do
    perform "regdomadd" (insupdhandles t.bnums domainname handle owneracct pubkey "false"
      expirationtimestamp "active")
    perform "regdomaddhandleact" (inshandleactivities t.bnums handle "register" t.blocktimestamp
      fktransactionid)
    perform "regdomaddinspubaddr" (insupdpubaddresses t.bnums handle (.constant "FIO")
      (.constant "FIO") pubkey)
  onlyIf (actoraccount ≠ owneracct)
    (perform "regdomaddaccountactivity" (insaccountactivities t.bnums owneracct fktransactionid
      "receiver"))

/-- `renewdomain` -/
def renewdomain : Prog Unit := do
  let domainname := a.data ext "fio_domain"
  let expirationtimestamp :=
    normalizeContractExpirationTimestamp (a.expiration ext) a.actionname
  perform "renewdomain" (upddomainexp domainname expirationtimestamp)
  perform "renewdomainactivity" (insdomainactivities t.bnums domainname "renew" t.blocktimestamp
    fktransactionid)

/-- The new owner in `xferdomain`, which does not read the key that it asks for. -/
def xferdomainOwner (pubkeyt actoraccount : String) : Prog String :=
  if pubkeyt = unknownString then do
    let res ← exec "xferaddressgetaccountinf" (getaccountpubkeyandid actoraccount)
    if 1 < res.length then terminalerror else pure actoraccount
  else do
    perform "xferaddressinsupdaccounts" (insupdaccounts t.bnums (keyToAccount ext pubkeyt)
      t.blocktimestamp pubkeyt "false")
    pure (keyToAccount ext pubkeyt)

/-- `xferdomain` -/
def xferdomain : Prog Unit := do
  let domainname := a.data ext "fio_domain"
  let owneracct ← xferdomainOwner ext t (a.data ext "new_owner_fio_public_key")
    (a.data ext "actor")
  perform "xferdomain" (upddomainowner domainname owneracct)
  perform "xferdomainactivity" (insdomainactivities t.bnums domainname "transfer" t.blocktimestamp
    fktransactionid)
  perform "xferdomainaccountactivity" (insaccountactivities t.bnums owneracct fktransactionid
    "receiver")

/-- `setdomainpub` -/
def setdomainpub : Prog Unit := do
  let domainname := a.data ext "fio_domain"
  let publicstr := a.data ext "is_public"
  let activitytype := if publicstr = "0" then "non-public" else "public"
  perform "setdomainpub" (upddomainispublic domainname publicstr)
  perform "setdomainpubdomainactivity" (insdomainactivities t.bnums domainname activitytype
    t.blocktimestamp fktransactionid)

/-- `wrapdomain` -/
def wrapdomain : Prog Unit := do
  let domainname := a.data ext "fio_domain"
  let acctstr := "fio.oracle"
  perform "wrapdomain" (upddomainowner domainname acctstr)
  perform "wrapdomainactivity" (insdomainactivities t.bnums domainname "wrap" t.blocktimestamp
    fktransactionid)
  perform "wrapdomainaccountactivity" (insaccountactivities t.bnums acctstr fktransactionid
    "receiver")

/-- `xferescrow` -/
def xferescrow : Prog Unit := do
  let domainname := a.data ext "fio_domain"
  let owneracct := keyToAccount ext (a.data ext "public_key")
  let oracleacct := "fio.oracle"
  perform "xferescrow" (upddomainowner domainname owneracct)
  perform "xferescrowdomainactivity" (insdomainactivities t.bnums domainname "unwrap"
    t.blocktimestamp fktransactionid)
  perform "xferescrowowneraccountactivity" (insaccountactivities t.bnums owneracct fktransactionid
    "receiver")
  perform "xferescroworacleaccountactivity" (insaccountactivities t.bnums oracleacct
    fktransactionid "sender")

/-- `updcryptkey` -/
def updcryptkey : Prog Unit := do
  let handle := a.data ext "fio_address"
  perform "updcryptkey" (updhandlessetencryptkey t.bnums handle (a.data ext "encrypt_public_key"))
  perform "updcryptkeyhandleactivity" (inshandleactivities t.bnums handle "upd_encryptkey"
    t.blocktimestamp fktransactionid)

/-- `burnaddress` -/
def burnaddress : Prog Unit := do
  let handle := a.data ext "fio_address"
  perform "burnaddress" (updhandleburnt t.bnums handle)
  perform "burnaddresshandleactivity" (inshandleactivities t.bnums handle "self_burn"
    t.blocktimestamp fktransactionid)
  perform "burnaddressdelpubaddresses" (delpubaddresses handle)
  perform "burnaddressdelnftsigs" (delnftsignatures handle)

/-- `newfundsreq` -/
def newfundsreq : Prog Unit := do
  let payerhandle := a.data ext "payer_fio_address"
  let payeehandle := a.data ext "payee_fio_address"
  let fiochainrequestid := getjsonstring ext unknownNumberNull (a.respdoc.get "fio_request_id")
    allowEmptyValues
  perform "newfundsreq" (inshandleactivities t.bnums payeehandle "new_request" t.blocktimestamp
    fktransactionid)
  perform "newfundsreqinsaccountacthandle" (insaccountactivitieshandle t.bnums payerhandle
    fktransactionid)
  perform "newfundsreqinfiorequests" (insfiorequests t.bnums t.blocktimestamp fktransactionid
    fiochainrequestid payerhandle payeehandle (a.data ext "content") "pending")

/-- `recordobt` -/
def recordobt : Prog Unit := do
  let payerhandle := a.data ext "payer_fio_address"
  let payeehandle := a.data ext "payee_fio_address"
  let fiochainrequestid := getjsonstring ext "NULL" (a.actdata.get "fio_request_id")
    disallowEmptyValues
  perform "recordobt" (inshandleactivities t.bnums payerhandle "record_obt" t.blocktimestamp
    fktransactionid)
  perform "recordobtaccountacthandle" (insaccountactivitieshandle t.bnums payeehandle
    fktransactionid)
  perform "recordobtfiodatas" (insfiodatas t.bnums t.blocktimestamp fktransactionid
    fiochainrequestid payerhandle payeehandle (a.data ext "content") "sent_to_blockchain")
  perform "recordobtfioreqstatus" (updfiorequestsstatus fiochainrequestid "sent_to_blockchain")

/-- The end of a request. -/
def endRequest (activityIdent statusIdent activity status : String) : Prog Unit := do
  let fiochainrequestid := a.data ext "fio_request_id"
  perform activityIdent (inshandleactivitiesfiorequest t.bnums activity t.blocktimestamp
    fktransactionid fiochainrequestid)
  perform statusIdent (updfiorequestsstatus fiochainrequestid status)

/-- `cancelfndreq` -/
def cancelfndreq : Prog Unit :=
  endRequest ext t a fktransactionid "cancelfndreqhandleact" "cancelfundreqfioreqstatus"
    "cancel_request" "cancelled"

/-- `rejectfndreq` -/
def rejectfndreq : Prog Unit :=
  endRequest ext t a fktransactionid "rejectfndreqhandleact" "rejectfundreqfioreqstatus"
    "reject_request" "rejected"

/-- `regaddress` -/
def regaddress : Prog Unit := do
  let handle := a.data ext "fio_address"
  let actoraccount := a.data ext "actor"
  let (owneracct, pubkey) ← ownerAndPubkey ext t "regaddressgetpubkey" "regaddressinsupdaccounts"
    (a.data ext "owner_fio_public_key") actoraccount
  perform "regaddress" (insupdhandles t.bnums (domainOf handle) handle owneracct pubkey "false"
    (a.expiration ext) "active")
  perform "regaddresshandleact" (inshandleactivities t.bnums handle "register" t.blocktimestamp
    fktransactionid)
  onlyIf (actoraccount ≠ owneracct)
    (perform "regaddressaccountact" (insaccountactivities t.bnums owneracct fktransactionid
      "receiver"))
  perform "regaddressinspubaddr" (insupdpubaddresses t.bnums handle (.constant "FIO")
    (.constant "FIO") pubkey)

/-- An action that is only noted for a handle. -/
def handleActivity (ident activity : String) : Prog Unit :=
  perform ident (inshandleactivities t.bnums (a.data ext "fio_address") activity t.blocktimestamp
    fktransactionid)

/-- `renewaddress` -/
def renewaddress : Prog Unit :=
  handleActivity ext t a fktransactionid "renewaddrhandleact" "renew"

/-- `addbundles` -/
def addbundles : Prog Unit :=
  handleActivity ext t a fktransactionid "addbundleshandleact" "add_bundles"

/-- The statement of `addnft` for one token. -/
@[simp]
def addnftStatement (bnums handle : String) (nftdata : Json) : Statement :=
  insupdnftsignatures bnums handle (member ext nftdata "chain_code")
    (member ext nftdata "contract_address") (member ext nftdata "token_id")
    (member ext nftdata "url") (member ext nftdata "hash") (member ext nftdata "metadata")

/-- The statement of `remnft` for one token. -/
@[simp]
def remnftStatement (handle : String) (nftdata : Json) : Statement :=
  delnftsignature handle (member ext nftdata "chain_code") (member ext nftdata "contract_address")
    (member ext nftdata "token_id")

/-- `addnft` -/
def addnft : Prog Unit := do
  let handle := a.data ext "fio_address"
  perform "addnft" (inshandleactivities t.bnums handle "add_nft" t.blocktimestamp fktransactionid)
  forEach (fun nftdata ↦ onlyIf nftdata.isObject
    (perform "addnftinsupnftsigs" (addnftStatement ext t.bnums handle nftdata)))
    (a.actdata.get "nfts").getArray

/-- `remnft` -/
def remnft : Prog Unit := do
  let handle := a.data ext "fio_address"
  perform "remnft" (inshandleactivities t.bnums handle "rem_nft" t.blocktimestamp fktransactionid)
  forEach (fun nftdata ↦ onlyIf nftdata.isObject
    (perform "remnftdelnftsig" (remnftStatement ext handle nftdata)))
    (a.actdata.get "nfts").getArray

/-- `remallnfts` -/
def remallnfts : Prog Unit := do
  let handle := a.data ext "fio_address"
  perform "remallnfts" (inshandleactivities t.bnums handle "rem_all_nft" t.blocktimestamp
    fktransactionid)
  perform "remallnftsdelnftsigs" (delnftsignatures handle)

/-- `xferaddress` -/
def xferaddress : Prog Unit := do
  let handle := a.data ext "fio_address"
  let (owneracct, pubkey) ← ownerAndPubkey ext t "xferaddressgetaccountinf"
    "xferaddressinsupdaccounts" (a.data ext "new_owner_fio_public_key") (a.data ext "actor")
  perform "xferaddress" (updhandlesxferowner t.bnums handle owneracct pubkey "false")
  perform "xferaddresshandleact" (inshandleactivities t.bnums handle "transfer" t.blocktimestamp
    fktransactionid)
  perform "xferaddressaccountact" (insaccountactivities t.bnums owneracct fktransactionid
    "receiver")
  perform "xferaddressdelpubaddrs" (delpubaddresses handle)
  perform "xferaddressinspubaddrs" (insupdpubaddresses t.bnums handle (.constant "FIO")
    (.constant "FIO") pubkey)
  perform "xferaddressdelnftsigs" (delnftsignatures handle)

/-- `remalladdr` -/
def remalladdr : Prog Unit := do
  let handle := a.data ext "fio_address"
  perform "remalladdr" (inshandleactivities t.bnums handle "rem_all_pubadd" t.blocktimestamp
    fktransactionid)
  perform "remalladdrclearpubaddrs" (clearpubaddresses handle)

/-- The statement of `addaddress` for one address. -/
@[simp]
def addaddressStatement (bnums handle : String) (addressdata : Json) : Statement :=
  insupdpubaddresses bnums handle (.quoted (member ext addressdata "chain_code"))
    (.quoted (member ext addressdata "token_code")) (member ext addressdata "public_address")

/-- The statement of `remaddress` for one address. -/
@[simp]
def remaddressStatement (handle : String) (addressdata : Json) : Statement :=
  delpubaddress handle (member ext addressdata "chain_code") (member ext addressdata "token_code")
    (member ext addressdata "public_address")

/-- One address of `addaddress`. -/
def addPubaddress (handle : String) (addressdata : Json) : Prog Unit := do
  let chaincode := member ext addressdata "chain_code"
  let tokencode := member ext addressdata "token_code"
  let pubaddress := member ext addressdata "public_address"
  perform "addaddress" (inshandleactivities t.bnums handle "add_pubadd" t.blocktimestamp
    fktransactionid)
  perform "addaddressinspubaddr" (addaddressStatement ext t.bnums handle addressdata)
  onlyIf (chaincode = "FIO" ∧ (tokencode = "FIO" ∨ tokencode = "*"))
    (perform "addaddressupdcryptkey" (updhandlesencryptkey t.bnums handle pubaddress))

/-- `addaddress` -/
def addaddress : Prog Unit :=
  forEach (fun addressdata ↦ onlyIf addressdata.isObject
    (addPubaddress ext t fktransactionid (a.data ext "fio_address") addressdata))
    (a.actdata.get "public_addresses").getArray

/-- One address of `remaddress`. -/
def remPubaddress (handle : String) (addressdata : Json) : Prog Unit := do
  perform "remaddress" (inshandleactivities t.bnums handle "rem_pubadd" t.blocktimestamp
    fktransactionid)
  perform "remaddressdelpubaddr" (remaddressStatement ext handle addressdata)

/-- `remaddress` -/
def remaddress : Prog Unit :=
  forEach (fun addressdata ↦ onlyIf addressdata.isObject
    (remPubaddress ext t fktransactionid (a.data ext "fio_address") addressdata))
    (a.actdata.get "public_addresses").getArray

/-- `stakefio` -/
def stakefio : Prog Unit :=
  perform "stkefio" (instokenstakings t.bnums fktransactionid (a.data ext "actor")
    (a.nonemptyData ext "amount"))

/-- `unstakefio` -/
def unstakefio : Prog Unit :=
  perform "unstakefio" (instokenstakings t.bnums fktransactionid (a.data ext "actor")
    ("-" ++ a.nonemptyData ext "amount"))

/-- `retire` -/
def retire : Prog Unit :=
  perform "retire" (instokentransfers t.bnums t.blocktimestamp fktransactionid
    (a.data ext "actor") "fio.token" (a.nonemptyData ext "quantity") "retire"
    (.escaped (a.data ext "memo")))

/-- The accounts of `fipxlviii`, and what is taken from each. -/
def fip48Transfers : List (String × String) :=
  [("xkezj1ocwe4r", "9999960000000000"), ("mck32myftiau", "10000000000000000"),
    ("hjvwdy5p4zvs", "7000000000000000"), ("2mskjvkhj334", "5500000000000000"),
    ("oadme4v54cly", "2500000000000000"), ("jsniuyaaeblr", "1999999400000000"),
    ("nadppzyxtxjx", "1500000000000000"), ("zvt11xu5czlk", "1000000000000"),
    ("dioxleem5hmr", "1000000000000"), ("iud1tjwtt2ey", "1000000000000"),
    ("xgyg22tfizja", "1000000000000"), ("4urqjmtfvmjj", "1000000000000"),
    ("deq54dxuyquh", "1000000000000")]

/-- One transfer of `fipxlviii`. -/
def fip48Transfer (transfer : String × String) : Prog Unit := do
  let payeeaccount := "pkfbwyi2qzii"
  perform "fipxlviii_transfer" (instokentransfers t.bnums t.blocktimestamp fktransactionid
    transfer.1 payeeaccount transfer.2 "transfer" (.escaped "FIP-48"))
  perform "fipxlviii_sender_activity" (insaccountactivities t.bnums transfer.1 fktransactionid
    "sender")
  perform "fipxlviii_receiver_activity" (insaccountactivities t.bnums payeeaccount fktransactionid
    "receiver")

/-- `fipxlviii` -/
def fipxlviii : Prog Unit := forEach (fip48Transfer t fktransactionid) fip48Transfers

/-- The statements for an action that a transaction asks for itself. -/
def related : Prog Unit :=
  if a.actionname = "trnsfiopubky" ∨ a.actionname = "trnsloctoks" then
    trnsfiopubky ext t a fktransactionid
  else if a.actionname = "regdomain" ∨ a.actionname = "regdomadd" then
    regdomain ext t a fktransactionid
  else if a.actionname = "renewdomain" then renewdomain ext t a fktransactionid
  else if a.actionname = "xferdomain" then xferdomain ext t a fktransactionid
  else if a.actionname = "setdomainpub" then setdomainpub ext t a fktransactionid
  else if a.actionname = "wrapdomain" then wrapdomain ext t a fktransactionid
  else if a.actionname = "xferescrow" then xferescrow ext t a fktransactionid
  else if a.actionname = "updcryptkey" then updcryptkey ext t a fktransactionid
  else if a.actionname = "burnexpired" then pure ()
  else if a.actionname = "burnaddress" then burnaddress ext t a fktransactionid
  else if a.actionname = "newfundsreq" then newfundsreq ext t a fktransactionid
  else if a.actionname = "recordobt" then recordobt ext t a fktransactionid
  else if a.actionname = "cancelfndreq" then cancelfndreq ext t a fktransactionid
  else if a.actionname = "rejectfndreq" then rejectfndreq ext t a fktransactionid
  else if a.actionname = "regaddress" then regaddress ext t a fktransactionid
  else if a.actionname = "renewaddress" then renewaddress ext t a fktransactionid
  else if a.actionname = "addbundles" then addbundles ext t a fktransactionid
  else if a.actionname = "addnft" then addnft ext t a fktransactionid
  else if a.actionname = "remnft" then remnft ext t a fktransactionid
  else if a.actionname = "remallnfts" then remallnfts ext t a fktransactionid
  else if a.actionname = "xferaddress" then xferaddress ext t a fktransactionid
  else if a.actionname = "remalladdr" then remalladdr ext t a fktransactionid
  else if a.actionname = "addaddress" then addaddress ext t a fktransactionid
  else if a.actionname = "remaddress" then remaddress ext t a fktransactionid
  -- the source goes on with the next action; what it skips is for other names
  else if a.actionname = "wraptokens" then pure ()
  else if a.actionname = "stakefio" then stakefio ext t a fktransactionid
  else if a.actionname = "unstakefio" then unstakefio ext t a fktransactionid
  else if a.actionname = "retire" then retire ext t a fktransactionid
  else if a.actionname = "fipxlviii" ∧ a.contractaccount = "fio.token" then
    fipxlviii t fktransactionid
  else pure ()

/-- What such an action leaves for the end of the block. -/
def remember (m : Members) : Members :=
  if a.actionname = "burnexpired" then
    { m with
      burnexpiredthisblock := true
      burnexpiredtimestamp := t.blocktimestamp
      burnexpiredtrid := (fktransactionid % 2 ^ 64).toNat }
  else if a.actionname = "burnaddress" then
    { m with burnaddresses := m.burnaddresses ++ [a.data ext "fio_address"] }
  else m

/-! ## Tokens -/

/-- A text contains another. -/
def contains (s sub : String) : Bool := s.toList.tails.any fun l ↦ sub.toList.isPrefixOf l

/-- The texts in the memos of the chain's own transfers. -/
def memoTypes : List (String × String) :=
  [("FIO fee", "blockchain_fee"), ("Paying TPID from treasury", "tpid_reward"),
    ("Paying Staking Rewards", "staking_reward"), ("Paying producer from treasury", "bp_reward"),
    ("Paying foundation from treasury", "foundation_reward"),
    ("Token Wrapping Oracle Fee", "oracle_fee"), ("Token Unwrapping", "unwrap"),
    ("Token Wrapping", "wrap")]

/-- The type of a transfer. -/
def transferType (memo : String) : String :=
  ((memoTypes.find? fun type ↦ contains memo type.1).map (·.2)).getD "transfer"

/-- A text without the first `sub` in it. -/
def eraseFirst (sub : List Char) : List Char → List Char
  | [] => []
  | c :: s => if sub.isPrefixOf (c :: s) then (c :: s).drop sub.length else c :: eraseFirst sub s

/-- An amount without its point and unit. -/
def sufAmount (quantity : String) : String :=
  String.ofList (eraseFirst " FIO".toList (quantity.toList.filter (· != '.')))

/-- `transfer` -/
def transfer : Prog Unit :=
  let memo := a.nonemptyData ext "memo"
  perform "instokentransfer" (instokentransfers t.bnums t.blocktimestamp fktransactionid
    (a.nonemptyData ext "from") (a.nonemptyData ext "to")
    (sufAmount (a.nonemptyData ext "quantity")) (transferType memo) (.escaped memo))

/-- `issue` -/
def issue : Prog Unit :=
  perform "issue" (instokentransfers t.bnums t.blocktimestamp fktransactionid "fio.token" "eosio"
    (sufAmount (a.nonemptyData ext "quantity")) "token_mint"
    (.escaped (a.nonemptyData ext "memo")))

/-- `bind2eosio` -/
def bind2eosio : Prog Unit := do
  let accountnm := a.data ext "account"
  perform "bind2eosio" (insupdaccounts t.bnums accountnm t.blocktimestamp
    (a.data ext "client_key") "true")
  perform "bind2eosioaccountact" (insaccountactivities t.bnums accountnm fktransactionid "receiver")

/-- The statements for an action of any kind. -/
def tokens : Prog Unit :=
  if a.actionname = "transfer" ∧ a.receiveraccount = "fio.token" then
    transfer ext t a fktransactionid
  else if a.actionname = "issue" ∧ a.receiveraccount = "fio.token" then
    issue ext t a fktransactionid
  else if a.actionname = "bind2eosio" then bind2eosio ext t a fktransactionid
  else pure ()

/-- A transaction asks for this action itself. -/
def Action.IsOwn (a : Action) : Prop :=
  ordinal a.creatoractionordinal = 0 ∧ a.actionname ≠ "onblock" ∧ a.actionname ≠ "nonce"

instance (a : Action) : Decidable a.IsOwn :=
  inferInstanceAs (Decidable (_ ∧ _ ∧ _))

/-- An action that a transaction asks for itself; the result is the row of the transaction, and
what is kept. -/
def ownTrace (m : Members) : Prog (Int × Members) := do
  let res ← exec "instransactions" (instransactions t.bnums t.blocktimestamp t.trid
    a.contractaccount a.actionaccount a.actionname a.tpid a.feeamount a.requestdata a.response
    t.status)
  let fktransactionid := firstNumber res fktransactionid
  related ext t a fktransactionid
  pure (fktransactionid, remember ext t a fktransactionid m)

/-- Another action, which is noted if the transaction has a row. -/
def innerTrace (m : Members) : Prog (Int × Members) := do
  onlyIf (1 < ordinal a.actionordinal ∧ -1 < fktransactionid)
    (perform "instraces" (instraces t.bnums t.blocktimestamp fktransactionid a.actionaccount
      a.receiveraccount a.actionordinal a.actionname a.requestdata))
  pure (fktransactionid, m)

def rowTrace (m : Members) : Prog (Int × Members) :=
  if a.IsOwn then ownTrace ext t a fktransactionid m else innerTrace t a fktransactionid m

/-- One action of a transaction. -/
def actionTrace (m : Members) : Prog (Int × Members) := do
  let r ← rowTrace ext t a fktransactionid m
  tokens ext t a r.1
  pure r

end Actions

/-- The actions of a transaction. -/
def actionTraces (t : Transaction) : Int → Members → List Json → Prog Members
  | _, m, [] => pure m
  | fktransactionid, m, object :: rest =>
    if object.isObject then do
      let (fktransactionid, m) ← actionTrace ext t (readAction ext object) fktransactionid m
      actionTraces t fktransactionid m rest
    else actionTraces t fktransactionid m rest

/-- What a transaction's message says about all its actions. -/
def readTransaction (document : Json) (bnums : String) : Transaction :=
  let data := document.get "data"
  { bnums := bnums
    blocktimestamp := getjsonstring ext unknownTimestamp (data.get "block_timestamp")
      disallowEmptyValues
    trid := getjsonstring ext unknownString ((data.get "trace").get "id") disallowEmptyValues
    status := getjsonstring ext unknownString ((data.get "trace").get "status")
      disallowEmptyValues }

/-- `TX_TRACE` -/
def txTrace (m : Members) (document : Json) (bnums : String) : Prog Members :=
  actionTraces ext (readTransaction ext document bnums) (-1) m
    (((document.get "data").get "trace").get "action_traces").getArray

/-! ## Messages -/

/-- The text of a string, up to its first null character. -/
def getString : Json → String
  | .string s => cString s
  | _ => ""

/-- What is done with a message that has a block number. -/
def handleEvent (m : Members) (document : Json) (msgtype bnums : String) (bnum : Nat) :
    Prog Members :=
  if msgtype = "BLOCK_COMPLETED" then blockCompleted ext m document bnums bnum
  else if msgtype = "BLOCK" then do
    block ext document bnums
    pure m
  else if msgtype = "TX_TRACE" then txTrace ext m document bnums
  else if msgtype = "TBL_ROW" then pure (tblRow ext m document)
  else if msgtype = "FORK" then do
    fork bnums bnum
    pure m
  else pure m

/-- What is done with a message. -/
def handle (msg : Msgbuf) (m : Members) : Prog Members :=
  let document := ext.parse msg
  let data := document.get "data"
  if (document.get "msgtype").isString ∧ data.isObject ∧ (data.get "block_num").isString then
    let bnums := getString (data.get "block_num")
    match stoul bnums with
    | none => .throw
    | some n => handleEvent ext m document (getString (document.get "msgtype")) bnums (n % 2 ^ 32)
  else pure m

end Chronicle.Relic
