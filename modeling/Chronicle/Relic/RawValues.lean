import Chronicle.Relic.Handler

/-!
# Values that are written as they are

The values of a message that a statement can take over without escaping them, and without them
being words of the source, computed numbers or account names.  They are read off the message and
what the exporter keeps; which of them end up in a statement depends on what the database answers,
and here are all that may.
-/

namespace Chronicle.Relic

variable (ext : Externals)

/-- All these values are read back. -/
def AllSafe (l : List Field) : Prop := ∀ f ∈ l, f.Safe

instance (l : List Field) : Decidable (AllSafe l) := inferInstanceAs (Decidable (∀ f ∈ l, f.Safe))

@[simp]
theorem allSafe_nil : AllSafe [] ↔ True := iff_true_intro fun _ h ↦ absurd h List.not_mem_nil

@[simp]
theorem allSafe_cons {f : Field} {l : List Field} : AllSafe (f :: l) ↔ f.Safe ∧ AllSafe l :=
  List.forall_mem_cons

@[simp]
theorem allSafe_append {l₁ l₂ : List Field} : AllSafe (l₁ ++ l₂) ↔ AllSafe l₁ ∧ AllSafe l₂ :=
  List.forall_mem_append

@[simp]
theorem allSafe_flatMap {α : Type} {l : List α} {f : α → List Field} :
    AllSafe (l.flatMap f) ↔ ∀ x ∈ l, AllSafe (f x) := by
  constructor
  · exact fun h x hx g hg ↦ h g (List.mem_flatMap.mpr ⟨x, hx, hg⟩)
  · intro h g hg
    obtain ⟨x, hx, hg⟩ := List.mem_flatMap.mp hg
    exact h x hx g hg

/-! ## Blocks -/

/-- Of a block. -/
def blockValues (document : Json) (bnums : String) : List Field :=
  let data := document.get "data"
  [.number bnums,
    .quoted (getjsonstring ext unknownTimestamp ((data.get "block").get "timestamp")
      disallowEmptyValues),
    .quoted (getjsonstring ext unknownString (data.get "block_id") disallowEmptyValues),
    .quoted (getjsonstring ext unknownString ((data.get "block").get "producer")
      disallowEmptyValues),
    .quoted (getjsonstring ext unknownString ((data.get "block").get "schedule_version")
      disallowEmptyValues)]

/-- The name and the block number of a row that was kept. -/
def keptRow (datastr : String) : String × String :=
  let object := parseText ext datastr
  (member ext ((object.get "kvo").get "value") "name", member ext object "block_num")

/-- Of the domains that may have been burnt in a block. -/
def burnDomainValues (m : Members) (bnums : String) : List Field :=
  m.domainjsons.flatMap fun datastr ↦
    let (domname, domainbnum) := keptRow ext datastr
    if bnums = domainbnum then
      [.quoted domname, .number bnums, .quoted m.burnexpiredtimestamp]
    else []

/-- Of the addresses in the message that ends a block. -/
def addressValues (handle : String) (document : Json) : List Field :=
  (((document.get "kvo").get "value").get "addresses").getArray.flatMap fun object ↦
    if object.isObject then
      [.quoted handle,
        .quoted (getjsonstring ext unknownString (object.get "chain_code") disallowEmptyValues),
        .quoted (getjsonstring ext unknownString (object.get "token_code") disallowEmptyValues),
        .quoted (getjsonstring ext unknownString (object.get "public_address")
          disallowEmptyValues)]
    else []

/-- Of the handles that may have been burnt in a block. -/
def burnHandleValues (m : Members) (document : Json) (bnums : String) : List Field :=
  m.handlejsons.flatMap fun datastr ↦
    let (handle, handlebnum) := keptRow ext datastr
    if handle ∉ m.burnaddresses ∧ bnums = handlebnum then
      addressValues ext handle document ++
        [.number bnums, .quoted handle, .quoted m.burnexpiredtimestamp]
    else []

/-- Of the end of a block. -/
def blockCompletedValues (m : Members) (document : Json) (bnums : String) : List Field :=
  if m.burnexpiredthisblock then
    burnDomainValues ext m bnums ++ burnHandleValues ext m document bnums
  else []

/-! ## Transactions -/

section Actions

variable (t : Transaction) (a : Action)

/-- The account that has acted, where its key is asked for. -/
def actorWithoutKey (key : String) : List Field :=
  if a.data ext key = unknownString then [.quoted (a.data ext "actor")] else []

/-- Of `regdomain` and `regdomadd`. -/
def regdomainValues : List Field :=
  let handle := if a.actionname = "regdomain" then "" else a.data ext "fio_address"
  let domainname :=
    if a.actionname = "regdomain" then a.data ext "fio_domain" else domainOf handle
  actorWithoutKey ext a "owner_fio_public_key" ++
    [.quoted domainname, .quoted (a.expiration ext)] ++
    if a.actionname = "regdomadd" then [.quoted handle] else []

/-- Of a token, or an address. -/
def memberValues (array : String) (names : List String) : List Field :=
  (a.actdata.get array).getArray.flatMap fun object ↦
    if object.isObject then
      .quoted (a.data ext "fio_address") :: names.map fun name ↦ .quoted (member ext object name)
    else []

/-- Of an action that a transaction asks for itself. -/
def relatedValues : List Field :=
  if a.actionname = "trnsfiopubky" ∨ a.actionname = "trnsloctoks" then
    [.quoted (a.data ext "actor"), .number (a.data ext "amount")]
  else if a.actionname = "regdomain" ∨ a.actionname = "regdomadd" then regdomainValues ext a
  else if a.actionname = "renewdomain" then
    [.quoted (a.data ext "fio_domain"),
      .quoted (normalizeContractExpirationTimestamp (a.expiration ext) a.actionname)]
  else if a.actionname = "xferdomain" then
    actorWithoutKey ext a "new_owner_fio_public_key" ++ [.quoted (a.data ext "fio_domain")]
  else if a.actionname = "setdomainpub" then
    [.quoted (a.data ext "fio_domain"), .quoted (a.data ext "is_public")]
  else if a.actionname = "wrapdomain" then [.quoted (a.data ext "fio_domain")]
  else if a.actionname = "xferescrow" then [.quoted (a.data ext "fio_domain")]
  else if a.actionname = "updcryptkey" then
    [.quoted (a.data ext "fio_address"), .quoted (a.data ext "encrypt_public_key")]
  else if a.actionname = "burnexpired" then []
  else if a.actionname = "burnaddress" then [.quoted (a.data ext "fio_address")]
  else if a.actionname = "newfundsreq" then
    [.quoted (a.data ext "payer_fio_address"), .quoted (a.data ext "payee_fio_address"),
      .number (getjsonstring ext unknownNumberNull (a.respdoc.get "fio_request_id")
        allowEmptyValues)]
  else if a.actionname = "recordobt" then
    [.quoted (a.data ext "payer_fio_address"), .quoted (a.data ext "payee_fio_address"),
      .number (getjsonstring ext "NULL" (a.actdata.get "fio_request_id") disallowEmptyValues)]
  else if a.actionname = "cancelfndreq" then [.number (a.data ext "fio_request_id")]
  else if a.actionname = "rejectfndreq" then [.number (a.data ext "fio_request_id")]
  else if a.actionname = "regaddress" then
    actorWithoutKey ext a "owner_fio_public_key" ++
      [.quoted (domainOf (a.data ext "fio_address")), .quoted (a.data ext "fio_address"),
        .quoted (a.expiration ext)]
  else if a.actionname = "renewaddress" then [.quoted (a.data ext "fio_address")]
  else if a.actionname = "addbundles" then [.quoted (a.data ext "fio_address")]
  else if a.actionname = "addnft" then
    .quoted (a.data ext "fio_address") :: memberValues ext a "nfts" ["chain_code"]
  else if a.actionname = "remnft" then
    .quoted (a.data ext "fio_address") ::
      memberValues ext a "nfts" ["chain_code", "contract_address", "token_id"]
  else if a.actionname = "remallnfts" then [.quoted (a.data ext "fio_address")]
  else if a.actionname = "xferaddress" then
    actorWithoutKey ext a "new_owner_fio_public_key" ++ [.quoted (a.data ext "fio_address")]
  else if a.actionname = "remalladdr" then [.quoted (a.data ext "fio_address")]
  else if a.actionname = "addaddress" then
    memberValues ext a "public_addresses" ["chain_code", "token_code"]
  else if a.actionname = "remaddress" then
    memberValues ext a "public_addresses" ["chain_code", "token_code", "public_address"]
  else if a.actionname = "wraptokens" then []
  else if a.actionname = "stakefio" then
    [.quoted (a.data ext "actor"), .quoted (a.nonemptyData ext "amount")]
  else if a.actionname = "unstakefio" then
    [.quoted (a.data ext "actor"), .quoted ("-" ++ a.nonemptyData ext "amount")]
  else if a.actionname = "retire" then
    [.quoted (a.data ext "actor"), .number (a.nonemptyData ext "quantity")]
  else []

/-- Of an action that a transaction asks for itself, in all. -/
def ownValues : List Field :=
  [.number t.bnums, .quoted t.blocktimestamp, .quoted t.trid, .quoted a.contractaccount,
    .quoted a.actionaccount, .quoted a.actionname, .quoted a.tpid, .number a.feeamount,
    .quoted a.response, .quoted t.status] ++ relatedValues ext a

/-- Of an action that another one asks for. -/
def innerValues : List Field :=
  [.number t.bnums, .quoted a.actionaccount, .quoted a.receiveraccount, .number a.actionordinal,
    .quoted a.actionname, .quoted t.blocktimestamp]

/-- Of an action; `entered` is whether the transaction may have a row. -/
def actionValues (entered : Bool) : List Field :=
  if a.IsOwn then ownValues ext t a
  else if 1 < ordinal a.actionordinal ∧ entered then innerValues t a else []

/-- Of an action of any kind. -/
def tokenValues : List Field :=
  if a.actionname = "transfer" ∧ a.receiveraccount = "fio.token" then
    [.number t.bnums, .quoted (a.nonemptyData ext "from"), .quoted (a.nonemptyData ext "to"),
      .number (sufAmount (a.nonemptyData ext "quantity")), .quoted t.blocktimestamp]
  else if a.actionname = "issue" ∧ a.receiveraccount = "fio.token" then
    [.number t.bnums, .number (sufAmount (a.nonemptyData ext "quantity")),
      .quoted t.blocktimestamp]
  else if a.actionname = "bind2eosio" then
    [.number t.bnums, .quoted (a.data ext "account"), .quoted t.blocktimestamp]
  else []

end Actions

/-- Of the actions of a transaction; `entered` is whether the transaction may have a row. -/
def traceValues (t : Transaction) : Bool → List Json → List Field
  | _, [] => []
  | entered, object :: rest =>
    if object.isObject then
      let a := readAction ext object
      actionValues ext t a entered ++ tokenValues ext t a ++
        traceValues t (entered || a.IsOwn) rest
    else traceValues t entered rest

/-- Of a message that has a block number. -/
def eventValues (m : Members) (document : Json) (msgtype bnums : String) : List Field :=
  if msgtype = "BLOCK_COMPLETED" then blockCompletedValues ext m document bnums
  else if msgtype = "BLOCK" then blockValues ext document bnums
  else if msgtype = "TX_TRACE" then
    traceValues ext (readTransaction ext document bnums) false
      (((document.get "data").get "trace").get "action_traces").getArray
  else if msgtype = "TBL_ROW" then []
  else if msgtype = "FORK" then [.number bnums]
  else []

/-- Of a message. -/
def rawValues (msg : Msgbuf) (m : Members) : List Field :=
  let document := ext.parse msg
  let data := document.get "data"
  if (document.get "msgtype").isString ∧ data.isObject ∧ (data.get "block_num").isString then
    let bnums := getString (data.get "block_num")
    match stoul bnums with
    | none => []
    | some _ => eventValues ext m document (getString (document.get "msgtype")) bnums
  else []

end Chronicle.Relic
