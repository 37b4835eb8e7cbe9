import Chronicle.Logic.Program
import Chronicle.Relic.Values

/-!
# The statements of the Relic exporter

Each statement calls one SQL function.  `Statement.text` is the text that the source joins
together; `Statement.call` is the call that it is meant to be.
-/

namespace Chronicle.Relic

/-- A value in a statement. -/
inductive Field where
  /-- Written as it is. -/
  | number (v : String)
  /-- Written as it is between quotes. -/
  | quoted (v : String)
  /-- Written by `escapesqlstring`. -/
  | escaped (v : String)
deriving DecidableEq

/-- A word of the source itself. -/
def Field.constant (s : String) : Field := .quoted s

/-- A number that the exporter has computed. -/
def Field.int (n : Int) : Field := .number (toString n)

namespace Field

variable (ext : Externals)

def text : Field → Sql.Text
  | number v => v.toList
  | quoted v => '\'' :: (v.toList ++ ['\''])
  | escaped v => escapesqlstring ext v

/-- The argument that the value is meant to be. -/
def arg : Field → Sql.Arg
  | number v => .number v.toList
  | quoted v => .quoted v.toList
  | escaped v => .literal v.toList

/-- The value is read back: it is a number or `NULL`, or has no quotes, or is escaped. -/
def Safe (f : Field) : Prop := f.arg.Safe

instance (f : Field) : Decidable f.Safe := inferInstanceAs (Decidable f.arg.Safe)

@[simp]
theorem safe_escaped (v : String) : (escaped v).Safe ↔ True := Iff.rfl

/-- A word of the source has no quotes. -/
@[simp]
theorem safe_constant {s : String} (h : '\'' ∉ s.toList) : (constant s).Safe ↔ True :=
  iff_true_intro h

theorem isNumber_repr (n : Nat) : Sql.isNumber n.repr.toList := by
  rw [Nat.toList_repr]
  exact Sql.isNumber_of_digits Nat.toDigits_ne_nil
    fun c hc ↦ Nat.isDigit_of_mem_toDigits (by decide) (by decide) hc

/-- A computed number is read back. -/
@[simp]
theorem safe_int (n : Int) : (int n).Safe ↔ True := by
  refine iff_true_intro ?_
  cases n with
  | ofNat n => exact .inr (.inl (isNumber_repr n))
  | negSucc n =>
      have htext : (toString (Int.negSucc n)).toList = '-' :: (n + 1).repr.toList :=
        String.toList_append
      change (Sql.Arg.number (toString (Int.negSucc n)).toList).Safe
      rw [htext]
      exact .inr (.inr ⟨_, rfl, rfl, isNumber_repr (n + 1)⟩)

end Field

/-- A statement: a call of an SQL function, or the rows that it returns. -/
structure Statement where
  rows : Bool
  fn : String
  fields : List Field
  isIdent_fn : Sql.isIdent fn.toList

/-- `SELECT fn(…);` -/
def call (fn : String) (fields : List Field) (h : Sql.isIdent fn.toList := by decide) : Statement :=
  ⟨false, fn, fields, h⟩

/-- `SELECT * FROM fn(…);` -/
def callRows (fn : String) (fields : List Field) (h : Sql.isIdent fn.toList := by decide) :
    Statement :=
  ⟨true, fn, fields, h⟩

namespace Statement

variable (ext : Externals)

/-- The text that is passed to `PQexec`. -/
def text (st : Statement) : Sql.Text :=
  (if st.rows then "SELECT * FROM ".toList else "SELECT ".toList) ++ (st.fn.toList ++ '(' ::
    (List.intercalate [','] (st.fields.map (Field.text ext)) ++ ");".toList))

/-- The call that the statement is meant to be. -/
def call (st : Statement) : Sql.Call :=
  ⟨st.rows, st.fn.toList, st.fields.map Field.arg, st.isIdent_fn⟩

/-- Every value of the statement is read back. -/
def Safe (st : Statement) : Prop := ∀ f ∈ st.fields, f.Safe

instance (st : Statement) : Decidable st.Safe :=
  inferInstanceAs (Decidable (∀ f ∈ st.fields, f.Safe))

@[simp]
theorem safe_call {fn : String} {fields : List Field} {h : Sql.isIdent fn.toList} :
    (Relic.call fn fields h).Safe ↔ ∀ f ∈ fields, f.Safe := Iff.rfl

@[simp]
theorem safe_callRows {fn : String} {fields : List Field} {h : Sql.isIdent fn.toList} :
    (callRows fn fields h).Safe ↔ ∀ f ∈ fields, f.Safe := Iff.rfl

variable {ext}

theorem Field_text_eq (hext : EscapesLiterals ext) (f : Field) : f.text ext = f.arg.text := by
  cases f with
  | number v | quoted v => rfl
  | escaped v => exact hext.escapesqlstring ext v

theorem intercalate_eq (hext : EscapesLiterals ext) (fields : List Field) :
    List.intercalate [','] (fields.map (Field.text ext)) = Sql.argsText (fields.map Field.arg) := by
  induction fields with
  | nil => rfl
  | cons f fields ih =>
      cases fields with
      | nil =>
          refine (List.append_nil _).trans ?_
          exact Field_text_eq hext f
      | cons g fields =>
          change f.text ext ++ ([','] ++ List.intercalate [',']
            ((g :: fields).map (Field.text ext))) =
            f.arg.text ++ ',' :: Sql.argsText ((g :: fields).map Field.arg)
          rw [ih, Field_text_eq hext f]
          rfl

/-- The text is that of the call. -/
theorem text_eq (hext : EscapesLiterals ext) (st : Statement) : st.text ext = st.call.text := by
  rw [text, intercalate_eq hext, Sql.Call.text, Sql.Call.head]
  rfl

/-- A statement is read back exactly if its values are. -/
theorem lex_text_iff (hext : EscapesLiterals ext) (st : Statement) :
    Sql.lex .between (st.text ext) = some st.call.tokens ↔ st.Safe := by
  rw [text_eq hext, Sql.Call.lex_text_iff]
  exact List.forall_mem_map

end Statement

/-! ## The functions that are called -/

section Functions

variable (bnums domainname handle owneracct activity timestamp : String) (fktransactionid : Int)

@[simp]
def insblocks (btimestamp bid bproducer bschedv : String) : Statement :=
  call "insblocks" [.number bnums, .quoted btimestamp, .quoted bid, .quoted bproducer, .quoted bschedv]

@[simp]
def rbfork : Statement := call "rbfork" [.number bnums]

@[simp]
def instransactions (blocktimestamp trid contractaccount actionaccount actionname tpid feeamount
    requestdata response status : String) : Statement :=
  call "instransactions" [.number bnums, .quoted blocktimestamp, .quoted trid,
    .quoted contractaccount, .quoted actionaccount, .quoted actionname, .quoted tpid,
    .number feeamount, .escaped requestdata, .quoted response, .quoted status]

@[simp]
def instraces (actionaccount receiveraccount actionordinal actionname requestdata : String) :
    Statement :=
  call "instraces" [.int fktransactionid, .number bnums, .quoted actionaccount,
    .quoted receiveraccount, .number actionordinal, .quoted actionname, .escaped requestdata,
    .quoted timestamp]

@[simp]
def instokentransfers (payeracct payeeacct sufamount trnstype : String) (memo : Field) :
    Statement :=
  call "instokentransfers" [.int fktransactionid, .number bnums, .quoted payeracct,
    .quoted payeeacct, .number sufamount, .constant trnstype, memo, .quoted timestamp]

@[simp]
def instokenstakings (stakingacct sufamount : String) : Statement :=
  call "instokenstakings" [.int fktransactionid, .number bnums, .quoted stakingacct,
    .quoted sufamount]

@[simp]
def getaccountpubkeyandid (actoraccount : String) : Statement :=
  callRows "getaccountpubkeyandid" [.quoted actoraccount]

@[simp]
def insupdaccounts (pubkey isbound : String) : Statement :=
  call "insupdaccounts" [.number bnums, .quoted owneracct, .escaped pubkey, .quoted timestamp,
    .constant isbound]

@[simp]
def insaccountactivities (role : String) : Statement :=
  call "insaccountactivities" [.int fktransactionid, .number bnums, .quoted owneracct,
    .constant role]

@[simp]
def insaccountactivitieshandle : Statement :=
  call "insaccountactivitieshandle" [.int fktransactionid, .number bnums, .quoted handle,
    .constant "receiver"]

@[simp]
def insdomains (ispublic expirationtimestamp domainstatus : String) : Statement :=
  call "insdomains" [.number bnums, .quoted domainname, .quoted owneracct, .constant ispublic,
    .quoted expirationtimestamp, .constant domainstatus]

@[simp]
def insdomainactivities : Statement :=
  call "insdomainactivities" [.int fktransactionid, .number bnums, .quoted domainname,
    .constant activity, .quoted timestamp]

@[simp]
def upddomainburnt : Statement := call "upddomainburnt" [.quoted domainname]

@[simp]
def upddomainexp (expirationtimestamp : String) : Statement :=
  call "upddomainexp" [.quoted domainname, .quoted expirationtimestamp]

@[simp]
def upddomainowner : Statement := call "upddomainowner" [.quoted domainname, .quoted owneracct]

@[simp]
def upddomainispublic (publicstr : String) : Statement :=
  call "upddomainispublic" [.quoted domainname, .quoted publicstr]

@[simp]
def insupdhandles (pubkey encryptkeyisset expirationtimestamp handlestatus : String) : Statement :=
  call "insupdhandles" [.number bnums, .quoted domainname, .quoted owneracct, .quoted handle,
    .escaped pubkey, .constant encryptkeyisset, .quoted expirationtimestamp, .constant handlestatus]

@[simp]
def inshandleactivities : Statement :=
  call "inshandleactivities" [.int fktransactionid, .number bnums, .quoted handle,
    .constant activity, .quoted timestamp]

@[simp]
def inshandleactivitiesfiorequest (fiochainrequestid : String) : Statement :=
  call "inshandleactivitiesfiorequest" [.int fktransactionid, .number bnums,
    .number fiochainrequestid, .constant activity, .quoted timestamp]

@[simp]
def updhandleburnt : Statement := call "updhandleburnt" [.number bnums, .quoted handle]

@[simp]
def updhandlessetencryptkey (pubkey : String) : Statement :=
  call "updhandlessetencryptkey" [.number bnums, .quoted handle, .quoted pubkey]

@[simp]
def updhandlesencryptkey (pubaddress : String) : Statement :=
  call "updhandlesencryptkey" [.number bnums, .quoted handle, .escaped pubaddress]

@[simp]
def updhandlesxferowner (pubkey encryptkeyisset : String) : Statement :=
  call "updhandlesxferowner" [.number bnums, .quoted handle, .quoted owneracct, .escaped pubkey,
    .constant encryptkeyisset]

@[simp]
def existspubaddress (chaincode tokencode publicaddress : String) : Statement :=
  call "existspubaddress" [.quoted handle, .quoted chaincode, .quoted tokencode,
    .quoted publicaddress]

@[simp]
def insupdpubaddresses (chaincode tokencode : Field) (pubaddress : String) : Statement :=
  call "insupdpubaddresses" [.number bnums, .quoted handle, chaincode, tokencode,
    .escaped pubaddress]

@[simp]
def delpubaddress (chaincode tokencode pubaddress : String) : Statement :=
  call "delpubaddress" [.quoted handle, .quoted chaincode, .quoted tokencode, .quoted pubaddress]

@[simp]
def delpubaddresses : Statement := call "delpubaddresses" [.quoted handle]

@[simp]
def clearpubaddresses : Statement := call "clearpubaddresses" [.quoted handle]

@[simp]
def insupdnftsignatures (chaincode contractaddress tokenid url hash metadata : String) :
    Statement :=
  call "insupdnftsignatures" [.number bnums, .quoted handle, .quoted chaincode,
    .escaped contractaddress, .escaped tokenid, .escaped url, .escaped hash, .escaped metadata]

@[simp]
def delnftsignature (chaincode contractaddress tokenid : String) : Statement :=
  call "delnftsignature" [.quoted handle, .quoted chaincode, .quoted contractaddress,
    .quoted tokenid]

@[simp]
def delnftsignatures : Statement := call "delnftsignatures" [.quoted handle]

@[simp]
def insfiorequests (fiochainrequestid payerhandle payeehandle content status : String) :
    Statement :=
  call "insfiorequests" [.int fktransactionid, .number bnums, .number fiochainrequestid,
    .quoted payerhandle, .quoted payeehandle, .escaped content, .constant status, .quoted timestamp]

@[simp]
def insfiodatas (fiochainrequestid payerhandle payeehandle content status : String) : Statement :=
  call "insfiodatas" [.int fktransactionid, .number bnums, .number fiochainrequestid,
    .quoted payerhandle, .quoted payeehandle, .escaped content, .constant status, .quoted timestamp]

@[simp]
def updfiorequestsstatus (fiochainrequestid status : String) : Statement :=
  call "updfiorequestsstatus" [.number fiochainrequestid, .constant status]

end Functions

end Chronicle.Relic
