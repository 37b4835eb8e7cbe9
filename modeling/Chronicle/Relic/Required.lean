import Chronicle.Logic.Leaving
import Chronicle.Relic.Acks

/-!
# The statements that a message requires

What has to be in the database when a message is stored, said without the program that handles
it: `MessageStored` relates a message, what is kept from the messages before it, the statements
that have succeeded with their results, and what is kept afterwards.  A message that does not
parse, or has no type, data or block number, requires nothing, and so does an element of
`action_traces` that is not an object.

`handle_stored` says that `handle` does just this whenever it returns.
-/

namespace Chronicle.Relic

variable (ext : Externals)

/-- A statement that has succeeded, and its result. -/
abbrev Issued := Statement × Rows

/-- The statements. -/
def statements (done : List Issued) : List Statement := done.map Prod.fst

/-! ## Actions -/

section Actions

variable (t : Transaction) (a : Action) (fktransactionid : Int)

/-- The key of the account that is to own what the action is about, if there is to be one. -/
def Action.ownerKey : Option String :=
  match a.actionname with
  | "regdomain" | "regdomadd" | "regaddress" => some (a.data ext "owner_fio_public_key")
  | "xferdomain" | "xferaddress" => some (a.data ext "new_owner_fio_public_key")
  | _ => none

/-- The account of the key is added; without a key, the account that has acted is looked up. -/
def ownerStatement (pubkeyt : String) : Statement :=
  if pubkeyt = unknownString then getaccountpubkeyandid (a.data ext "actor")
  else insupdaccounts t.bnums (keyToAccount ext pubkeyt) t.blocktimestamp pubkeyt "false"

/-- The account that is to own it. -/
def ownerAccount (pubkeyt : String) : String :=
  if pubkeyt = unknownString then a.data ext "actor" else keyToAccount ext pubkeyt

/-- Its key, which may have been looked up. -/
def ownerPubkey (pubkeyt : String) (res : Rows) : String :=
  if pubkeyt = unknownString then (pqGetvalue res 0 1).getD "" else pubkeyt

/-- The statements for an action of a name that a transaction asks for itself, when the owner is
known. -/
def relatedStatements (name owneracct pubkey : String) : List Statement :=
  let actor := a.data ext "actor"
  let handle := a.data ext "fio_address"
  let domainname := a.data ext "fio_domain"
  let payer := a.data ext "payer_fio_address"
  let payee := a.data ext "payee_fio_address"
  let transfer := instokentransfers t.bnums t.blocktimestamp fktransactionid
  let account acct := insaccountactivities t.bnums acct fktransactionid
  let handleActivity handle activity :=
    inshandleactivities t.bnums handle activity t.blocktimestamp fktransactionid
  let domainActivity domainname activity :=
    insdomainactivities t.bnums domainname activity t.blocktimestamp fktransactionid
  let request activity id :=
    inshandleactivitiesfiorequest t.bnums activity t.blocktimestamp fktransactionid id
  let fioAddress :=
    insupdpubaddresses t.bnums handle (.constant "FIO") (.constant "FIO") pubkey
  let elements list := (a.actdata.get list).getArray.filter (·.isObject)
  match name with
  | "trnsfiopubky" =>
    [transfer actor (keyToAccount ext (a.data ext "payee_public_key")) (a.data ext "amount")
      "transfer" (.constant "")]
  | "trnsloctoks" =>
    [transfer actor (keyToAccount ext (a.data ext "payee_public_key")) (a.data ext "amount")
      "transfer_locked" (.constant "")]
  | "regdomain" =>
    [insdomains t.bnums domainname owneracct "false" (a.expiration ext) "active",
      domainActivity domainname "register"] ++
    if actor ≠ owneracct then [account owneracct "receiver"] else []
  | "regdomadd" =>
    [insdomains t.bnums (domainOf handle) owneracct "false" (a.expiration ext) "active",
      domainActivity (domainOf handle) "register",
      insupdhandles t.bnums (domainOf handle) handle owneracct pubkey "false" (a.expiration ext)
        "active",
      handleActivity handle "register", fioAddress] ++
    if actor ≠ owneracct then [account owneracct "receiver"] else []
  | "renewdomain" =>
    [upddomainexp domainname
        (normalizeContractExpirationTimestamp (a.expiration ext) "renewdomain"),
      domainActivity domainname "renew"]
  | "xferdomain" =>
    [upddomainowner domainname owneracct, domainActivity domainname "transfer",
      account owneracct "receiver"]
  | "setdomainpub" =>
    [upddomainispublic domainname (a.data ext "is_public"),
      domainActivity domainname (if a.data ext "is_public" = "0" then "non-public" else "public")]
  | "wrapdomain" =>
    [upddomainowner domainname "fio.oracle", domainActivity domainname "wrap",
      account "fio.oracle" "receiver"]
  | "xferescrow" =>
    [upddomainowner domainname (keyToAccount ext (a.data ext "public_key")),
      domainActivity domainname "unwrap",
      account (keyToAccount ext (a.data ext "public_key")) "receiver",
      account "fio.oracle" "sender"]
  | "updcryptkey" =>
    [updhandlessetencryptkey t.bnums handle (a.data ext "encrypt_public_key"),
      handleActivity handle "upd_encryptkey"]
  | "burnaddress" =>
    [updhandleburnt t.bnums handle, handleActivity handle "self_burn", delpubaddresses handle,
      delnftsignatures handle]
  | "newfundsreq" =>
    [handleActivity payee "new_request",
      insaccountactivitieshandle t.bnums payer fktransactionid,
      insfiorequests t.bnums t.blocktimestamp fktransactionid
        (getjsonstring ext unknownNumberNull (a.respdoc.get "fio_request_id") allowEmptyValues)
        payer payee (a.data ext "content") "pending"]
  | "recordobt" =>
    let id := getjsonstring ext "NULL" (a.actdata.get "fio_request_id") disallowEmptyValues
    [handleActivity payer "record_obt", insaccountactivitieshandle t.bnums payee fktransactionid,
      insfiodatas t.bnums t.blocktimestamp fktransactionid id payer payee (a.data ext "content")
        "sent_to_blockchain",
      updfiorequestsstatus id "sent_to_blockchain"]
  | "cancelfndreq" =>
    [request "cancel_request" (a.data ext "fio_request_id"),
      updfiorequestsstatus (a.data ext "fio_request_id") "cancelled"]
  | "rejectfndreq" =>
    [request "reject_request" (a.data ext "fio_request_id"),
      updfiorequestsstatus (a.data ext "fio_request_id") "rejected"]
  | "regaddress" =>
    [insupdhandles t.bnums (domainOf handle) handle owneracct pubkey "false" (a.expiration ext)
        "active",
      handleActivity handle "register"] ++
    (if actor ≠ owneracct then [account owneracct "receiver"] else []) ++ [fioAddress]
  | "renewaddress" => [handleActivity handle "renew"]
  | "addbundles" => [handleActivity handle "add_bundles"]
  | "addnft" =>
    handleActivity handle "add_nft" ::
      (elements "nfts").map (addnftStatement ext t.bnums handle)
  | "remnft" =>
    handleActivity handle "rem_nft" :: (elements "nfts").map (remnftStatement ext handle)
  | "remallnfts" => [handleActivity handle "rem_all_nft", delnftsignatures handle]
  | "xferaddress" =>
    [updhandlesxferowner t.bnums handle owneracct pubkey "false",
      handleActivity handle "transfer", account owneracct "receiver", delpubaddresses handle,
      fioAddress, delnftsignatures handle]
  | "remalladdr" => [handleActivity handle "rem_all_pubadd", clearpubaddresses handle]
  | "addaddress" =>
    (elements "public_addresses").flatMap fun address ↦
      [handleActivity handle "add_pubadd", addaddressStatement ext t.bnums handle address] ++
      if member ext address "chain_code" = "FIO" ∧ (member ext address "token_code" = "FIO" ∨
          member ext address "token_code" = "*") then
        [updhandlesencryptkey t.bnums handle (member ext address "public_address")]
      else []
  | "remaddress" =>
    (elements "public_addresses").flatMap fun address ↦
      [handleActivity handle "rem_pubadd", remaddressStatement ext handle address]
  | "stakefio" =>
    [instokenstakings t.bnums fktransactionid actor (a.nonemptyData ext "amount")]
  | "unstakefio" =>
    [instokenstakings t.bnums fktransactionid actor ("-" ++ a.nonemptyData ext "amount")]
  | "retire" =>
    [transfer actor "fio.token" (a.nonemptyData ext "quantity") "retire"
      (.escaped (a.data ext "memo"))]
  | "fipxlviii" =>
    if a.contractaccount = "fio.token" then
      fip48Transfers.flatMap fun payment ↦
        [transfer payment.1 "pkfbwyi2qzii" payment.2 "transfer" (.escaped "FIP-48"),
          account payment.1 "sender", account "pkfbwyi2qzii" "receiver"]
    else []
  | _ => []

/-- All statements for such an action after the row of its transaction: first the owner is found,
if there is to be one. -/
def RelatedStored (done : List Issued) : Prop :=
  match a.ownerKey ext with
  | none => statements done = relatedStatements ext t a fktransactionid a.actionname "" ""
  | some pubkeyt => ∃ res rest, done = (ownerStatement ext t a pubkeyt, res) :: rest ∧
      statements rest = relatedStatements ext t a fktransactionid a.actionname
        (ownerAccount ext a pubkeyt) (ownerPubkey pubkeyt res)

/-- The statements for an action of any kind. -/
def tokenStatements : List Statement :=
  if a.actionname = "transfer" ∧ a.receiveraccount = "fio.token" then
    [instokentransfers t.bnums t.blocktimestamp fktransactionid (a.nonemptyData ext "from")
      (a.nonemptyData ext "to") (sufAmount (a.nonemptyData ext "quantity"))
      (transferType (a.nonemptyData ext "memo")) (.escaped (a.nonemptyData ext "memo"))]
  else if a.actionname = "issue" ∧ a.receiveraccount = "fio.token" then
    [instokentransfers t.bnums t.blocktimestamp fktransactionid "fio.token" "eosio"
      (sufAmount (a.nonemptyData ext "quantity")) "token_mint"
      (.escaped (a.nonemptyData ext "memo"))]
  else if a.actionname = "bind2eosio" then
    [insupdaccounts t.bnums (a.data ext "account") t.blocktimestamp (a.data ext "client_key")
        "true",
      insaccountactivities t.bnums (a.data ext "account") fktransactionid "receiver"]
  else []

/-- The row of an action that a transaction asks for itself. -/
def transactionStatement : Statement :=
  instransactions t.bnums t.blocktimestamp t.trid a.contractaccount a.actionaccount a.actionname
    a.tpid a.feeamount a.requestdata a.response t.status

/-- The row of another action, if the transaction has one. -/
def traceStatements : List Statement :=
  if 1 < ordinal a.actionordinal ∧ -1 < fktransactionid then
    [instraces t.bnums t.blocktimestamp fktransactionid a.actionaccount a.receiveraccount
      a.actionordinal a.actionname a.requestdata]
  else []

end Actions

/-- The actions of a transaction whose row is `fktransactionid`, or -1 if it has none yet. -/
inductive ActionsStored (t : Transaction) :
    Int → Members → List Json → List Issued → Members → Prop where
  | nil {fktransactionid : Int} {m : Members} : ActionsStored t fktransactionid m [] [] m
  | skipped {fktransactionid : Int} {m m' : Members} {object : Json} {objects : List Json}
      {done : List Issued} (hobject : object.isObject = false)
      (hrest : ActionsStored t fktransactionid m objects done m') :
      ActionsStored t fktransactionid m (object :: objects) done m'
  | own {fktransactionid : Int} {m m' : Members} {object : Json} {objects : List Json}
      {related tokens done : List Issued} (res : Rows) (hobject : object.isObject = true)
      (hown : (readAction ext object).IsOwn)
      (hrelated : RelatedStored ext t (readAction ext object) (firstNumber res fktransactionid)
        related)
      (htokens : statements tokens =
        tokenStatements ext t (readAction ext object) (firstNumber res fktransactionid))
      (hrest : ActionsStored t (firstNumber res fktransactionid)
        (remember ext t (readAction ext object) (firstNumber res fktransactionid) m) objects done
        m') :
      ActionsStored t fktransactionid m (object :: objects)
        ((transactionStatement t (readAction ext object), res) :: related ++ tokens ++ done) m'
  | inner {fktransactionid : Int} {m m' : Members} {object : Json} {objects : List Json}
      {own done : List Issued} (hobject : object.isObject = true)
      (hinner : ¬ (readAction ext object).IsOwn)
      (hown : statements own = traceStatements t (readAction ext object) fktransactionid ++
        tokenStatements ext t (readAction ext object) fktransactionid)
      (hrest : ActionsStored t fktransactionid m objects done m') :
      ActionsStored t fktransactionid m (object :: objects) (own ++ done) m'

/-! ## The end of a block -/

/-- The name in a row, and the block of the row. -/
def rowName (object : Json) : String :=
  getjsonstring ext unknownString (((object.get "kvo").get "value").get "name") allowEmptyValues

def rowBlock (object : Json) : String :=
  getjsonstring ext unknownString (object.get "block_num") allowEmptyValues

/-- Something is stored for each element in turn. -/
inductive EachStored {α : Type} (P : α → List Issued → Prop) : List α → List Issued → Prop where
  | nil : EachStored P [] []
  | cons {x : α} {l : List α} {own done : List Issued} (hx : P x own) (hl : EachStored P l done) :
      EachStored P (x :: l) (own ++ done)

section Burnt

variable (m : Members) (bnums : String)

/-- A domain whose row was removed in this block is burnt, and if there was such a domain, this is
noted. -/
inductive DomainStored (object : Json) : List Issued → Prop where
  | elsewhere (h : bnums ≠ rowBlock ext object) : DomainStored object []
  | missing (h : bnums = rowBlock ext object) (res : Rows) (hres : firstNumber res 0 ≠ 1) :
      DomainStored object [(upddomainburnt (rowName ext object), res)]
  | burnt (h : bnums = rowBlock ext object) (res res' : Rows) (hres : firstNumber res 0 = 1) :
      DomainStored object [(upddomainburnt (rowName ext object), res),
        (insdomainactivities bnums (rowName ext object) "auto_burn" m.burnexpiredtimestamp
          m.burnexpiredtrid, res')]

/-- Addresses of a handle are looked for up to the first that is missing. -/
inductive AddressesStored (handle : String) : List Json → List Issued → Bool → Prop where
  | nil : AddressesStored handle [] [] true
  | skipped {object : Json} {objects : List Json} {done : List Issued} {found : Bool}
      (hobject : object.isObject = false) (hrest : AddressesStored handle objects done found) :
      AddressesStored handle (object :: objects) done found
  | missing {object : Json} {objects : List Json} (hobject : object.isObject = true) (res : Rows)
      (hres : firstNumber res 0 = 0) :
      AddressesStored handle (object :: objects) [(existspubaddress handle
        (getjsonstring ext unknownString (object.get "chain_code") disallowEmptyValues)
        (getjsonstring ext unknownString (object.get "token_code") disallowEmptyValues)
        (getjsonstring ext unknownString (object.get "public_address") disallowEmptyValues), res)]
        false
  | found {object : Json} {objects : List Json} {done : List Issued} {found : Bool}
      (hobject : object.isObject = true) (res : Rows) (hres : firstNumber res 0 ≠ 0)
      (hrest : AddressesStored handle objects done found) :
      AddressesStored handle (object :: objects) ((existspubaddress handle
        (getjsonstring ext unknownString (object.get "chain_code") disallowEmptyValues)
        (getjsonstring ext unknownString (object.get "token_code") disallowEmptyValues)
        (getjsonstring ext unknownString (object.get "public_address") disallowEmptyValues), res)
        :: done) found

/-- A handle whose row was removed in this block is burnt if it was not burnt by an action and the
addresses are there; and if there was such a handle, this is noted. -/
inductive HandleStored (addresses : List Json) (object : Json) : List Issued → Prop where
  | elsewhere (h : ¬ (rowName ext object ∉ m.burnaddresses ∧ bnums = rowBlock ext object)) :
      HandleStored addresses object []
  | kept (h : rowName ext object ∉ m.burnaddresses ∧ bnums = rowBlock ext object)
      {looked : List Issued}
      (haddresses : AddressesStored ext (rowName ext object) addresses looked false) :
      HandleStored addresses object looked
  | missing (h : rowName ext object ∉ m.burnaddresses ∧ bnums = rowBlock ext object)
      {looked : List Issued}
      (haddresses : AddressesStored ext (rowName ext object) addresses looked true) (res : Rows)
      (hres : firstNumber res 0 ≠ 1) :
      HandleStored addresses object (looked ++ [(updhandleburnt bnums (rowName ext object), res)])
  | burnt (h : rowName ext object ∉ m.burnaddresses ∧ bnums = rowBlock ext object)
      {looked : List Issued}
      (haddresses : AddressesStored ext (rowName ext object) addresses looked true)
      (res res' : Rows) (hres : firstNumber res 0 = 1) :
      HandleStored addresses object (looked ++ [(updhandleburnt bnums (rowName ext object), res),
        (inshandleactivities bnums (rowName ext object) "auto_burn" m.burnexpiredtimestamp
          m.burnexpiredtrid, res')])

end Burnt

/-! ## Messages -/

/-- The type and the block number of a message can be read. -/
def Readable (document : Json) : Prop :=
  (document.get "msgtype").isString ∧ (document.get "data").isObject ∧
    ((document.get "data").get "block_num").isString

/-- The statement of `BLOCK`. -/
def blockStatement (document : Json) (bnums : String) : Statement :=
  insblocks bnums
    (getjsonstring ext unknownTimestamp (((document.get "data").get "block").get "timestamp")
      disallowEmptyValues)
    (getjsonstring ext unknownString ((document.get "data").get "block_id") disallowEmptyValues)
    (getjsonstring ext unknownString (((document.get "data").get "block").get "producer")
      disallowEmptyValues)
    (getjsonstring ext unknownString
      (((document.get "data").get "block").get "schedule_version") disallowEmptyValues)

/-- The addresses of handles, which are looked for in the message that ends the block. -/
def completedAddresses (document : Json) : List Json :=
  (((document.get "kvo").get "value").get "addresses").getArray

/-- What is stored for a message that can be read. -/
inductive EventStored (document : Json) (bnums : String) (m : Members) :
    String → List Issued → Members → Prop where
  | block (res : Rows) :
      EventStored document bnums m "BLOCK" [(blockStatement ext document bnums, res)] m
  | fork (res : Rows) : EventStored document bnums m "FORK" [(rbfork bnums, res)] m
  | txTrace {done : List Issued} {m' : Members}
      (hactions : ActionsStored ext (readTransaction ext document bnums) (-1) m
        (((document.get "data").get "trace").get "action_traces").getArray done m') :
      EventStored document bnums m "TX_TRACE" done m'
  | tblRow : EventStored document bnums m "TBL_ROW" [] (tblRow ext m document)
  | unburnt (hburn : m.burnexpiredthisblock = false) :
      EventStored document bnums m "BLOCK_COMPLETED" [] {}
  | burnt (hburn : m.burnexpiredthisblock = true) {domains handles : List Issued}
      (hdomains : EachStored (DomainStored ext m bnums) (m.domainjsons.map (parseText ext))
        domains)
      (hhandles : EachStored (HandleStored ext m bnums (completedAddresses document))
        (m.handlejsons.map (parseText ext)) handles) :
      EventStored document bnums m "BLOCK_COMPLETED" (domains ++ handles) {}
  | other {msgtype : String}
      (h : msgtype ∉ ["BLOCK", "FORK", "TX_TRACE", "TBL_ROW", "BLOCK_COMPLETED"]) :
      EventStored document bnums m msgtype [] m

/-- What is stored for a message. -/
inductive MessageStored (msg : Msgbuf) (m : Members) : List Issued → Members → Prop where
  /-- Nothing is stored for a message that does not parse, or lacks one of the parts. -/
  | skipped (h : ¬ Readable (ext.parse msg)) : MessageStored msg m [] m
  | event (h : Readable (ext.parse msg)) {done : List Issued} {m' : Members}
      (hevent : EventStored ext (ext.parse msg)
        (getString (((ext.parse msg).get "data").get "block_num")) m
        (getString ((ext.parse msg).get "msgtype")) done m') :
      MessageStored msg m done m'

/-- A message acknowledges block `k`: it ends the next block, or is a fork at it. -/
structure Acknowledges (msg : Msgbuf) (k : Nat) : Prop where
  readable : Readable (ext.parse msg)
  type : getString ((ext.parse msg).get "msgtype") ∈ ["BLOCK_COMPLETED", "FORK"]
  number : ∃ n, stoul (getString (((ext.parse msg).get "data").get "block_num")) = some n ∧
    k = Uint32.sub (n % 2 ^ 32) 1

/-- Some messages are stored, one after another. -/
inductive AllStored : List Msgbuf → List Issued → Members → Prop where
  | nil : AllStored [] [] {}
  | snoc {msgs : List Msgbuf} {done own : List Issued} {m m' : Members} {msg : Msgbuf}
      (h : AllStored msgs done m) (hmsg : MessageStored ext msg m own m') :
      AllStored (msgs ++ [msg]) (done ++ own) m'

/-! ## What a program stores -/

/-- Wherever the program returns, the statements that have succeeded and the result are in `R`. -/
def Stores {α : Type} (p : Prog α) (R : List Issued → α → Prop) : Prop :=
  p.Leaves fun done a ↦ R (done.map fun d ↦ (d.1.statement, d.2)) a

/-- Wherever the program returns, it has issued these statements. -/
def Issues (p : Prog Unit) (l : List Statement) : Prop := Stores p fun done _ ↦ statements done = l

section Stores

variable {α β : Type} {p : Prog α} {f : α → Prog β} {R R' : List Issued → α → Prop}
  {S : List Issued → β → Prop} {c : Prop} [Decidable c]

theorem stores_bind :
    Stores (p >>= f) S ↔ Stores p fun done a ↦ Stores (f a) fun done' b ↦ S (done ++ done') b := by
  simp only [Stores, Program.leaves_bind, List.map_append]

theorem Stores.mono (h : Stores p R) (hR : ∀ done a, R done a → R' done a) : Stores p R' :=
  Program.Leaves.mono h fun _ ↦ hR _

theorem Stores.bind (hp : Stores p R)
    (hf : ∀ done a, R done a → Stores (f a) fun done' b ↦ S (done ++ done') b) :
    Stores (p >>= f) S := stores_bind.mpr (hp.mono hf)

theorem Stores.ite {p' : Prog α} (h : c → Stores p R) (h' : ¬ c → Stores p' R) :
    Stores (if c then p else p') R := Program.Leaves.ite h h'

theorem stores_pure {a : α} (h : R [] a) : Stores (pure a) R := Program.leaves_pure.mpr h

theorem stores_exec {uniqueident : String} {statement : Statement}
    {R : List Issued → Rows → Prop} (h : ∀ res, R [(statement, res)] res) :
    Stores (exec uniqueident statement) R := h

theorem stores_perform {uniqueident : String} {statement : Statement}
    {R : List Issued → Unit → Prop} (h : ∀ res, R [(statement, res)] ()) :
    Stores (perform uniqueident statement) R := h

theorem Stores.onlyIf {p : Prog Unit} {R : List Issued → Unit → Prop} (h : c → Stores p R)
    (h' : ¬ c → R [] ()) : Stores (onlyIf c p) R := Stores.ite h h'

end Stores

section Issues

variable {p : Prog Unit} {f : Unit → Prog Unit} {uniqueident : String} {statement : Statement}
  {l l' : List Statement} {c : Prop} [Decidable c]

theorem issues_nil : Issues (pure ()) [] := rfl

theorem Issues.of_eq (h : Issues p l) (hl : l = l') : Issues p l' := hl ▸ h

theorem issues_perform : Issues (perform uniqueident statement) [statement] := fun _ ↦ rfl

theorem Issues.bind (hp : Issues p l) (hf : Issues (f ()) l') : Issues (p >>= f) (l ++ l') := by
  refine Stores.bind hp fun done _ hdone ↦ Stores.mono hf fun done' _ hdone' ↦ ?_
  rw [statements, List.map_append]
  exact congrArg₂ _ hdone hdone'

theorem Issues.perform_bind (h : Issues (f ()) l) :
    Issues (perform uniqueident statement >>= f) (statement :: l) :=
  issues_perform.bind h

theorem Issues.onlyIf (h : Issues p l) : Issues (onlyIf c p) (if c then l else []) :=
  Stores.onlyIf (fun hc ↦ by rwa [if_pos hc]) fun hc ↦ by
    rw [if_neg hc]
    rfl

theorem Issues.forEach {α : Type} {f : α → Prog Unit} {g : α → List Statement}
    (h : ∀ x, Issues (f x) (g x)) (l : List α) : Issues (forEach f l) (l.flatMap g) := by
  induction l with
  | nil => exact issues_nil
  | cons x l ih => exact (h x).bind ih

/-- Something is issued for the objects in a list. -/
theorem Issues.forEach_object {f : Json → Prog Unit} {g : Json → List Statement}
    (h : ∀ x, Issues (f x) (g x)) (l : List Json) :
    Issues (Relic.forEach (fun x ↦ Relic.onlyIf (x.isObject = true) (f x)) l)
      ((l.filter (·.isObject)).flatMap g) := by
  induction l with
  | nil => exact issues_nil
  | cons x l ih =>
      rw [List.filter_cons]
      refine Stores.mono ((Issues.onlyIf (h x)).bind ih) fun done _ hdone ↦ hdone.trans ?_
      split_ifs <;> rfl

end Issues

/-! ## Actions are stored -/

section Actions

variable {ext} {t : Transaction} {a : Action} {n : Int}

/-- An action that has nothing to do with an owner. -/
theorem Issues.related {p : Prog Unit} (hkey : a.ownerKey ext = none)
    (h : Issues p (relatedStatements ext t a n a.actionname "" "")) :
    Stores p fun done _ ↦ RelatedStored ext t a n done :=
  Stores.mono h fun done _ hdone ↦ by rwa [RelatedStored, hkey]

/-- An action that gives something to the owner, who is found first. -/
theorem Stores.related {β : Type} {p : Prog β} {f : β → Prog Unit} {pubkeyt : String}
    (hkey : a.ownerKey ext = some pubkeyt)
    (hp : Stores p fun done r ↦ ∃ res, done = [(ownerStatement ext t a pubkeyt, res)] ∧
      Issues (f r) (relatedStatements ext t a n a.actionname (ownerAccount ext a pubkeyt)
        (ownerPubkey pubkeyt res))) :
    Stores (p >>= f) fun done _ ↦ RelatedStored ext t a n done := by
  refine hp.bind fun done r ⟨res, hdone, hf⟩ ↦ Stores.mono hf fun rest _ hrest ↦ ?_
  rw [RelatedStored, hkey, hdone]
  exact ⟨res, rest, rfl, hrest⟩

theorem ownerAndPubkey_stores (getIdent insIdent pubkeyt : String) :
    Stores (ownerAndPubkey ext t getIdent insIdent pubkeyt (a.data ext "actor")) fun done r ↦
      ∃ res, done = [(ownerStatement ext t a pubkeyt, res)] ∧
        r = (ownerAccount ext a pubkeyt, ownerPubkey pubkeyt res) := by
  rw [ownerAndPubkey]
  refine Stores.ite (fun hempty ↦ ?_) fun hkey ↦ ?_
  · rw [ownerStatement, ownerAccount, if_pos hempty, if_pos hempty]
    simp only [ownerPubkey, if_pos hempty]
    intro res
    refine Program.Leaves.ite (fun _ ↦ trivial) fun _ ↦ ?_
    cases hvalue : pqGetvalue res 0 1 with
    | none => trivial
    | some pubkeyt => exact ⟨res, rfl, by rw [hvalue, Option.getD_some]⟩
  · rw [ownerStatement, ownerAccount, if_neg hkey, if_neg hkey]
    simp only [ownerPubkey, if_neg hkey]
    exact fun res ↦ ⟨res, rfl, rfl⟩

theorem xferdomainOwner_stores (pubkeyt : String) :
    Stores (xferdomainOwner ext t pubkeyt (a.data ext "actor")) fun done r ↦
      ∃ res, done = [(ownerStatement ext t a pubkeyt, res)] ∧
        r = ownerAccount ext a pubkeyt := by
  rw [xferdomainOwner, ownerStatement, ownerAccount]
  refine Stores.ite (fun hempty ↦ ?_) fun hkey ↦ ?_
  · rw [if_pos hempty, if_pos hempty]
    intro res
    exact Program.Leaves.ite (fun _ ↦ trivial) fun _ ↦ ⟨res, rfl, rfl⟩
  · rw [if_neg hkey, if_neg hkey]
    exact fun res ↦ ⟨res, rfl, rfl⟩

/-- An action that reads the key of the owner. -/
theorem owner_related {getIdent insIdent pubkeyt : String} {f : String × String → Prog Unit}
    (hkey : a.ownerKey ext = some pubkeyt)
    (hf : ∀ res, Issues (f (ownerAccount ext a pubkeyt, ownerPubkey pubkeyt res))
      (relatedStatements ext t a n a.actionname (ownerAccount ext a pubkeyt)
        (ownerPubkey pubkeyt res))) :
    Stores (ownerAndPubkey ext t getIdent insIdent pubkeyt (a.data ext "actor") >>= f)
      fun done _ ↦ RelatedStored ext t a n done :=
  Stores.related hkey ((ownerAndPubkey_stores getIdent insIdent pubkeyt).mono
    fun _ _ ⟨res, hdone, hr⟩ ↦ ⟨res, hdone, hr ▸ hf res⟩)

theorem trnsfiopubky_issues (h : a.actionname = "trnsfiopubky" ∨ a.actionname = "trnsloctoks") :
    Issues (trnsfiopubky ext t a n) (relatedStatements ext t a n a.actionname "" "") := by
  rcases h with h | h
  · rw [trnsfiopubky, h]
    exact issues_perform
  · rw [trnsfiopubky, h]
    exact issues_perform

theorem regdomain_related (h : a.actionname = "regdomain" ∨ a.actionname = "regdomadd") :
    Stores (regdomain ext t a n) fun done _ ↦ RelatedStored ext t a n done := by
  rcases h with h | h
  · refine owner_related (by simp only [Action.ownerKey, h]) fun res ↦ ?_
    rw [h]
    exact .perform_bind (.perform_bind (.bind issues_nil (.onlyIf issues_perform)))
  · refine owner_related (by simp only [Action.ownerKey, h]) fun res ↦ ?_
    rw [h]
    refine .perform_bind (.perform_bind (.bind ?_ (.onlyIf issues_perform)))
    exact .perform_bind (.perform_bind issues_perform)

theorem xferdomain_related (h : a.actionname = "xferdomain") :
    Stores (xferdomain ext t a n) fun done _ ↦ RelatedStored ext t a n done := by
  refine Stores.related (by simp only [Action.ownerKey, h])
    ((xferdomainOwner_stores _).mono fun _ _ ⟨res, hdone, hr⟩ ↦ ⟨res, hdone, ?_⟩)
  rw [h, hr]
  exact .perform_bind (.perform_bind issues_perform)

theorem regaddress_related (h : a.actionname = "regaddress") :
    Stores (regaddress ext t a n) fun done _ ↦ RelatedStored ext t a n done := by
  refine owner_related (by simp only [Action.ownerKey, h]) fun res ↦ ?_
  rw [h]
  exact .perform_bind (.perform_bind (.bind (.onlyIf issues_perform) issues_perform))

theorem xferaddress_related (h : a.actionname = "xferaddress") :
    Stores (xferaddress ext t a n) fun done _ ↦ RelatedStored ext t a n done := by
  refine owner_related (by simp only [Action.ownerKey, h]) fun res ↦ ?_
  rw [h]
  exact .perform_bind (.perform_bind (.perform_bind (.perform_bind (.perform_bind
    issues_perform))))

theorem renewdomain_issues (h : a.actionname = "renewdomain") :
    Issues (renewdomain ext t a n) (relatedStatements ext t a n a.actionname "" "") := by
  rw [renewdomain, h]
  exact .perform_bind issues_perform

theorem setdomainpub_issues (h : a.actionname = "setdomainpub") :
    Issues (setdomainpub ext t a n) (relatedStatements ext t a n a.actionname "" "") := by
  rw [h]
  exact .perform_bind issues_perform

theorem wrapdomain_issues (h : a.actionname = "wrapdomain") :
    Issues (wrapdomain ext t a n) (relatedStatements ext t a n a.actionname "" "") := by
  rw [h]
  exact .perform_bind (.perform_bind issues_perform)

theorem xferescrow_issues (h : a.actionname = "xferescrow") :
    Issues (xferescrow ext t a n) (relatedStatements ext t a n a.actionname "" "") := by
  rw [h]
  exact .perform_bind (.perform_bind (.perform_bind issues_perform))

theorem updcryptkey_issues (h : a.actionname = "updcryptkey") :
    Issues (updcryptkey ext t a n) (relatedStatements ext t a n a.actionname "" "") := by
  rw [h]
  exact .perform_bind issues_perform

theorem burnaddress_issues (h : a.actionname = "burnaddress") :
    Issues (burnaddress ext t a n) (relatedStatements ext t a n a.actionname "" "") := by
  rw [h]
  exact .perform_bind (.perform_bind (.perform_bind issues_perform))

theorem newfundsreq_issues (h : a.actionname = "newfundsreq") :
    Issues (newfundsreq ext t a n) (relatedStatements ext t a n a.actionname "" "") := by
  rw [h]
  exact .perform_bind (.perform_bind issues_perform)

theorem recordobt_issues (h : a.actionname = "recordobt") :
    Issues (recordobt ext t a n) (relatedStatements ext t a n a.actionname "" "") := by
  rw [h]
  exact .perform_bind (.perform_bind (.perform_bind issues_perform))

theorem cancelfndreq_issues (h : a.actionname = "cancelfndreq") :
    Issues (cancelfndreq ext t a n) (relatedStatements ext t a n a.actionname "" "") := by
  rw [h]
  exact .perform_bind issues_perform

theorem rejectfndreq_issues (h : a.actionname = "rejectfndreq") :
    Issues (rejectfndreq ext t a n) (relatedStatements ext t a n a.actionname "" "") := by
  rw [h]
  exact .perform_bind issues_perform

theorem renewaddress_issues (h : a.actionname = "renewaddress") :
    Issues (renewaddress ext t a n) (relatedStatements ext t a n a.actionname "" "") := by
  rw [h]
  exact issues_perform

theorem addbundles_issues (h : a.actionname = "addbundles") :
    Issues (addbundles ext t a n) (relatedStatements ext t a n a.actionname "" "") := by
  rw [h]
  exact issues_perform

theorem remallnfts_issues (h : a.actionname = "remallnfts") :
    Issues (remallnfts ext t a n) (relatedStatements ext t a n a.actionname "" "") := by
  rw [h]
  exact .perform_bind issues_perform

theorem remalladdr_issues (h : a.actionname = "remalladdr") :
    Issues (remalladdr ext t a n) (relatedStatements ext t a n a.actionname "" "") := by
  rw [h]
  exact .perform_bind issues_perform

theorem stakefio_issues (h : a.actionname = "stakefio") :
    Issues (stakefio ext t a n) (relatedStatements ext t a n a.actionname "" "") := by
  rw [h]
  exact issues_perform

theorem unstakefio_issues (h : a.actionname = "unstakefio") :
    Issues (unstakefio ext t a n) (relatedStatements ext t a n a.actionname "" "") := by
  rw [h]
  exact issues_perform

theorem retire_issues (h : a.actionname = "retire") :
    Issues (retire ext t a n) (relatedStatements ext t a n a.actionname "" "") := by
  rw [h]
  exact issues_perform

theorem addnft_issues (h : a.actionname = "addnft") :
    Issues (addnft ext t a n) (relatedStatements ext t a n a.actionname "" "") := by
  rw [h]
  exact .perform_bind (.of_eq (.forEach_object (fun _ ↦ issues_perform) _)
    List.map_eq_flatMap.symm)

theorem remnft_issues (h : a.actionname = "remnft") :
    Issues (remnft ext t a n) (relatedStatements ext t a n a.actionname "" "") := by
  rw [h]
  exact .perform_bind (.of_eq (.forEach_object (fun _ ↦ issues_perform) _)
    List.map_eq_flatMap.symm)

theorem addaddress_issues (h : a.actionname = "addaddress") :
    Issues (addaddress ext t a n) (relatedStatements ext t a n a.actionname "" "") := by
  rw [h]
  exact .forEach_object (fun _ ↦ .perform_bind (.perform_bind (.onlyIf issues_perform))) _

theorem remaddress_issues (h : a.actionname = "remaddress") :
    Issues (remaddress ext t a n) (relatedStatements ext t a n a.actionname "" "") := by
  rw [h]
  exact .forEach_object (fun _ ↦ .perform_bind issues_perform) _

theorem fipxlviii_issues (h : a.actionname = "fipxlviii" ∧ a.contractaccount = "fio.token") :
    Issues (fipxlviii t n) (relatedStatements ext t a n a.actionname "" "") := by
  rw [h.1]
  refine .of_eq (.forEach (fun _ ↦ ?_) _) (if_pos h.2).symm
  exact .perform_bind (.perform_bind issues_perform)

/-- An action of a name that is handled without an owner. -/
theorem Issues.named {p : Prog Unit} {name : String} (h : a.actionname = name)
    (hkey : name ∉ ["regdomain", "regdomadd", "regaddress", "xferdomain", "xferaddress"])
    (hp : Issues p (relatedStatements ext t a n a.actionname "" "")) :
    Stores p fun done _ ↦ RelatedStored ext t a n done := by
  refine hp.related ?_
  rw [Action.ownerKey]
  split <;> simp_all

/-- An action of another name requires nothing. -/
theorem relatedStored_nil (hkey : a.ownerKey ext = none)
    (h : relatedStatements ext t a n a.actionname "" "" = []) : RelatedStored ext t a n [] := by
  rw [RelatedStored, hkey]
  exact h.symm

variable (ext t a n) in
/-- The statements for an action that a transaction asks for itself. -/
theorem related_stores :
    Stores (related ext t a n) fun done _ ↦ RelatedStored ext t a n done := by
  rw [related]
  refine Stores.ite (fun h ↦ ?_) fun h₁ ↦ ?_
  · rcases h with h | h
    · exact Issues.named h (by decide) (trnsfiopubky_issues (.inl h))
    · exact Issues.named h (by decide) (trnsfiopubky_issues (.inr h))
  refine Stores.ite regdomain_related fun h₂ ↦ ?_
  refine Stores.ite (fun h ↦ Issues.named h (by decide) (renewdomain_issues h)) fun h₃ ↦ ?_
  refine Stores.ite xferdomain_related fun h₄ ↦ ?_
  refine Stores.ite (fun h ↦ Issues.named h (by decide) (setdomainpub_issues h)) fun h₅ ↦ ?_
  refine Stores.ite (fun h ↦ Issues.named h (by decide) (wrapdomain_issues h)) fun h₆ ↦ ?_
  refine Stores.ite (fun h ↦ Issues.named h (by decide) (xferescrow_issues h)) fun h₇ ↦ ?_
  refine Stores.ite (fun h ↦ Issues.named h (by decide) (updcryptkey_issues h)) fun h₈ ↦ ?_
  refine Stores.ite (fun h ↦ Issues.named h (by decide) (by rw [h]; rfl)) fun h₉ ↦ ?_
  refine Stores.ite (fun h ↦ Issues.named h (by decide) (burnaddress_issues h)) fun h₁₀ ↦ ?_
  refine Stores.ite (fun h ↦ Issues.named h (by decide) (newfundsreq_issues h)) fun h₁₁ ↦ ?_
  refine Stores.ite (fun h ↦ Issues.named h (by decide) (recordobt_issues h)) fun h₁₂ ↦ ?_
  refine Stores.ite (fun h ↦ Issues.named h (by decide) (cancelfndreq_issues h)) fun h₁₃ ↦ ?_
  refine Stores.ite (fun h ↦ Issues.named h (by decide) (rejectfndreq_issues h)) fun h₁₄ ↦ ?_
  refine Stores.ite regaddress_related fun h₁₅ ↦ ?_
  refine Stores.ite (fun h ↦ Issues.named h (by decide) (renewaddress_issues h)) fun h₁₆ ↦ ?_
  refine Stores.ite (fun h ↦ Issues.named h (by decide) (addbundles_issues h)) fun h₁₇ ↦ ?_
  refine Stores.ite (fun h ↦ Issues.named h (by decide) (addnft_issues h)) fun h₁₈ ↦ ?_
  refine Stores.ite (fun h ↦ Issues.named h (by decide) (remnft_issues h)) fun h₁₉ ↦ ?_
  refine Stores.ite (fun h ↦ Issues.named h (by decide) (remallnfts_issues h)) fun h₂₀ ↦ ?_
  refine Stores.ite xferaddress_related fun h₂₁ ↦ ?_
  refine Stores.ite (fun h ↦ Issues.named h (by decide) (remalladdr_issues h)) fun h₂₂ ↦ ?_
  refine Stores.ite (fun h ↦ Issues.named h (by decide) (addaddress_issues h)) fun h₂₃ ↦ ?_
  refine Stores.ite (fun h ↦ Issues.named h (by decide) (remaddress_issues h)) fun h₂₄ ↦ ?_
  refine Stores.ite (fun h ↦ Issues.named h (by decide) (by rw [h]; rfl)) fun h₂₅ ↦ ?_
  refine Stores.ite (fun h ↦ Issues.named h (by decide) (stakefio_issues h)) fun h₂₆ ↦ ?_
  refine Stores.ite (fun h ↦ Issues.named h (by decide) (unstakefio_issues h)) fun h₂₇ ↦ ?_
  refine Stores.ite (fun h ↦ Issues.named h (by decide) (retire_issues h)) fun h₂₈ ↦ ?_
  refine Stores.ite (fun h ↦ Issues.named h.1 (by decide) (fipxlviii_issues h)) fun h₂₉ ↦ ?_
  -- no other name is handled
  obtain ⟨h₁, h₁'⟩ := not_or.mp h₁
  obtain ⟨h₂, h₂'⟩ := not_or.mp h₂
  refine relatedStored_nil ?_ ?_
  · unfold Action.ownerKey
    split <;> first | contradiction | rfl
  · unfold relatedStatements
    split <;> first | contradiction | rfl | exact if_neg fun hc ↦ h₂₉ ⟨‹_›, hc⟩

variable (ext t a n) in
theorem tokens_issues : Issues (tokens ext t a n) (tokenStatements ext t a n) := by
  rw [tokens, tokenStatements]
  split_ifs
  · exact issues_perform
  · exact issues_perform
  · exact .perform_bind issues_perform
  · exact issues_nil

theorem innerTrace_stores (m : Members) :
    Stores (innerTrace t a n m) fun done r ↦
      statements done = traceStatements t a n ∧ r = (n, m) := by
  have hinner : Issues (onlyIf (1 < ordinal a.actionordinal ∧ -1 < n) (perform "instraces"
      (instraces t.bnums t.blocktimestamp n a.actionaccount a.receiveraccount a.actionordinal
        a.actionname a.requestdata))) (traceStatements t a n) := .onlyIf issues_perform
  refine Stores.bind hinner fun done _ hdone ↦ stores_pure ?_
  rw [List.append_nil]
  exact ⟨hdone, rfl⟩

theorem ownTrace_stores (m : Members) :
    Stores (ownTrace ext t a n m) fun done r ↦
      ∃ res related, done = (transactionStatement t a, res) :: related ∧
        RelatedStored ext t a (firstNumber res n) related ∧
        r = (firstNumber res n, remember ext t a (firstNumber res n) m) := by
  refine stores_bind.mpr (stores_exec fun res ↦ ?_)
  refine (related_stores ext t a (firstNumber res n)).bind fun related _ hrelated ↦ stores_pure ?_
  rw [List.append_nil]
  exact ⟨res, related, rfl, hrelated, rfl⟩

end Actions

/-- The actions of a transaction are stored. -/
theorem actionTraces_stores (t : Transaction) (n : Int) (m : Members) (objects : List Json) :
    Stores (actionTraces ext t n m objects) fun done m' ↦
      ActionsStored ext t n m objects done m' := by
  induction objects generalizing n m with
  | nil => exact .nil
  | cons object objects ih =>
      refine Stores.ite (fun hobject ↦ ?_) fun hobject ↦ ?_
      · rw [actionTrace, rowTrace]
        by_cases hown : (readAction ext object).IsOwn
        · rw [if_pos hown]
          refine stores_bind.mpr ((ownTrace_stores m).bind fun own r hstored ↦ ?_)
          obtain ⟨res, related, rfl, hrelated, rfl⟩ := hstored
          refine Stores.bind (tokens_issues ext t (readAction ext object) _)
            fun tokens _ htokens ↦ stores_pure ?_
          refine Stores.mono (ih _ _) fun done m' hrest ↦ ?_
          rw [List.append_nil]
          exact .own res hobject hown hrelated htokens hrest
        · rw [if_neg hown]
          refine stores_bind.mpr ((innerTrace_stores m).bind fun own r hstored ↦ ?_)
          obtain ⟨hdone, rfl⟩ := hstored
          refine Stores.bind (tokens_issues ext t (readAction ext object) _)
            fun tokens _ htokens ↦ stores_pure ?_
          refine Stores.mono (ih _ _) fun done m' hrest ↦ ?_
          rw [List.append_nil]
          refine .inner hobject hown ?_ hrest
          rw [statements, List.map_append]
          exact congrArg₂ _ hdone htokens
      · exact Stores.mono (ih n m) fun done m' hrest ↦
          .skipped (Bool.eq_false_iff.mpr hobject) hrest

/-! ## The end of a block is stored -/

section Burnt

variable (m : Members) (bnums : String)

theorem burnDomains_stores (l : List String) :
    Stores (burnDomains ext m bnums l) fun done _ ↦
      EachStored (DomainStored ext m bnums) (l.map (parseText ext)) done := by
  induction l with
  | nil => exact .nil
  | cons datastr l ih =>
      have hdomain : Stores (onlyIf (bnums = rowBlock ext (parseText ext datastr)) do
          let res ← exec "burndomain" (upddomainburnt (rowName ext (parseText ext datastr)))
          onlyIf (firstNumber res 0 = 1) (perform "burndomainactivity" (insdomainactivities bnums
            (rowName ext (parseText ext datastr)) "auto_burn" m.burnexpiredtimestamp
            m.burnexpiredtrid)))
          fun done _ ↦ DomainStored ext m bnums (parseText ext datastr) done := by
        refine Stores.onlyIf (fun hblock ↦ ?_) fun hblock ↦ .elsewhere hblock
        refine stores_bind.mpr (stores_exec fun res ↦ Stores.onlyIf (fun hres ↦ ?_) fun hres ↦ ?_)
        · exact stores_perform fun res' ↦ .burnt hblock res res' hres
        · exact .missing hblock res hres
      exact hdomain.bind fun own _ hown ↦ Stores.mono ih fun done _ hdone ↦ .cons hown hdone

theorem makeHandleBurnt_stores (handle : String) (objects : List Json) :
    Stores (makeHandleBurnt ext handle objects) fun done found ↦
      AddressesStored ext handle objects done found := by
  induction objects with
  | nil => exact .nil
  | cons object objects ih =>
      refine Stores.ite (fun hobject ↦ ?_) fun hobject ↦ ?_
      · refine stores_bind.mpr (stores_exec fun res ↦ Stores.ite (fun hres ↦ ?_) fun hres ↦ ?_)
        · exact .missing hobject res hres
        · exact Stores.mono ih fun done found hrest ↦ .found hobject res hres hrest
      · exact Stores.mono ih fun done found hrest ↦
          .skipped (Bool.eq_false_iff.mpr hobject) hrest

theorem burnHandles_stores (document : Json) (l : List String) :
    Stores (burnHandles ext m document bnums l) fun done _ ↦
      EachStored (HandleStored ext m bnums (completedAddresses document))
        (l.map (parseText ext)) done := by
  induction l with
  | nil => exact .nil
  | cons datastr l ih =>
      refine Stores.bind (Stores.onlyIf (fun hburn ↦ ?_) fun hburn ↦ .elsewhere hburn)
        fun own _ hown ↦ Stores.mono ih fun done _ hdone ↦ .cons hown hdone
      refine (makeHandleBurnt_stores ext (rowName ext (parseText ext datastr)) _).bind
        fun looked found haddresses ↦ Stores.onlyIf (fun hfound ↦ ?_) fun hfound ↦ ?_
      · obtain rfl : found = true := hfound
        refine stores_bind.mpr (stores_exec fun res ↦ Stores.onlyIf (fun hres ↦ ?_) fun hres ↦ ?_)
        · exact stores_perform fun res' ↦ .burnt hburn haddresses res res' hres
        · exact .missing hburn haddresses res hres
      · obtain rfl := Bool.eq_false_iff.mpr hfound
        rw [List.append_nil]
        exact .kept hburn haddresses

theorem blockCompleted_stores (document : Json) (bnum : Nat) :
    Stores (blockCompleted ext m document bnums bnum) fun done m' ↦
      EventStored ext document bnums m "BLOCK_COMPLETED" done m' := by
  refine Stores.bind (R := fun done _ ↦ EventStored ext document bnums m "BLOCK_COMPLETED" done {})
    (Stores.onlyIf (fun hburn ↦ ?_) fun hburn ↦ .unburnt (Bool.eq_false_iff.mpr hburn))
    fun done _ hdone ↦ ?_
  · exact (burnDomains_stores ext m bnums _).bind fun domains _ hdomains ↦
      Stores.mono (burnHandles_stores ext m bnums document _) fun handles _ hhandles ↦
        .burnt hburn hdomains hhandles
  · rw [← List.append_nil done] at hdone
    exact hdone

theorem handleEvent_stores (document : Json) (msgtype : String) (bnum : Nat) :
    Stores (handleEvent ext m document msgtype bnums bnum) fun done m' ↦
      EventStored ext document bnums m msgtype done m' := by
  rw [handleEvent]
  refine Stores.ite (fun h ↦ h ▸ blockCompleted_stores ext m bnums document bnum) fun h₁ ↦ ?_
  refine Stores.ite (fun h ↦ h ▸ fun res ↦ .block res) fun h₂ ↦ ?_
  refine Stores.ite (fun h ↦ h ▸ Stores.mono (actionTraces_stores ext _ _ _ _) fun _ _ ↦ .txTrace)
    fun h₃ ↦ ?_
  refine Stores.ite (fun h ↦ h ▸ .tblRow) fun h₄ ↦ ?_
  refine Stores.ite (fun h ↦ h ▸ fun res ↦ .fork res) fun h₅ ↦ .other ?_
  simp only [List.mem_cons, List.not_mem_nil, or_false, not_or]
  exact ⟨h₂, h₅, h₃, h₄, h₁⟩

end Burnt

/-- **What a message requires is stored whenever its handling returns.** -/
theorem handle_stores (msg : Msgbuf) (m : Members) :
    Stores (handle ext msg m) fun done m' ↦ MessageStored ext msg m done m' := by
  rw [handle]
  refine Stores.ite (fun hread ↦ ?_) fun hread ↦ .skipped hread
  dsimp only
  cases stoul (getString (((ext.parse msg).get "data").get "block_num")) with
  | none => trivial
  | some n =>
      exact Stores.mono (handleEvent_stores ext m _ _ _ _) fun done m' hevent ↦ .event hread hevent

/-! ## What is acknowledged -/

/-- Nothing is done for a message after it has acknowledged a block. -/
theorem handle_tellsLast (msg : Msgbuf) (m : Members) : (handle ext msg m).TellsLast := by
  have hevent (document : Json) (msgtype bnums : String) (bnum : Nat) :
      (handleEvent ext m document msgtype bnums bnum).TellsLast := by
    rw [handleEvent]
    split_ifs
    · refine .silent_bind (silent_onlyIf.mpr fun _ ↦ ?_) fun _ ↦ ⟨{}, rfl⟩
      exact (burnDomains_silent ext m bnums _).silent_bind fun _ ↦
        burnHandles_silent ext m bnums document _
    · have hblock : (block ext document bnums).TellsJust [] := silent_perform.mpr trivial
      apply Program.TellsJust.tellsLast
      exact hblock.silent_bind fun _ ↦ rfl
    · exact (actionTraces_silent ext _ _ _ _).tellsLast
    · trivial
    · have hfork : (fork bnums bnum).TellsLast :=
        Program.TellsLast.silent_bind (silent_perform.mpr trivial) fun _ ↦ ⟨(), rfl⟩
      exact hfork.map fun _ ↦ m
    · trivial
  rw [handle]
  dsimp only
  split_ifs
  · cases stoul (getString (((ext.parse msg).get "data").get "block_num")) with
    | none => trivial
    | some n => exact hevent _ _ _ _
  · trivial

theorem handle_acknowledges {msg : Msgbuf} {m : Members} {answers : Nat → Option Rows} {k : Nat}
    (h : .told k ∈ ((handle ext msg m).run answers).trace) : Acknowledges ext msg k := by
  have hk : k ∈ Program.told ((handle ext msg m).run answers).trace :=
    List.mem_filterMap.mpr ⟨_, h, rfl⟩
  rw [handle] at hk
  dsimp only at hk
  split_ifs at hk with hread
  · cases hnumber : stoul (getString (((ext.parse msg).get "data").get "block_num")) with
    | none =>
        rw [hnumber] at hk
        cases hk
    | some n =>
        rw [hnumber] at hk
        have hacks := ((handleEvent_tells ext m _ _ _ _).told_run answers).1.subset hk
        rw [acksOf] at hacks
        split_ifs at hacks with htype
        · refine ⟨hread, ?_, n, hnumber, List.mem_singleton.mp hacks⟩
          rcases htype with htype | htype
          · exact htype ▸ List.mem_cons_self
          · exact htype ▸ List.mem_cons_of_mem _ List.mem_cons_self
        · cases hacks
  · cases hk

end Chronicle.Relic
