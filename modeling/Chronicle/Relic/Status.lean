import Chronicle.Relic.TransactionIds

/-!
# The status of a transaction

The status of a transaction is read once, and it is a value of `instransactions`; nothing that is
done for the actions depends on it.  A transaction that has failed is handled as one that was
executed.
-/

namespace Chronicle.Relic

variable (ext : Externals)

/-- The same statement, with another status if it makes the row of a transaction. -/
def withStatus (status : String) (q : Query) : Query :=
  if q.statement.fn = "instransactions" then
    { q with statement :=
      { q.statement with fields := q.statement.fields.dropLast ++ [.quoted status] } }
  else q

section Actions

variable (t : Transaction) (a : Action) (n : Int) (m : Members) (status : String)

/-- Other statements have no status. -/
theorem mapQuestions_of_usesId {α : Type} {p : Prog α} (h : p.Every (UsesId n)) :
    p.mapQuestions (withStatus status) = p :=
  Program.mapQuestions_eq_self (h.mono fun _ hq ↦ if_neg hq.1)

theorem ownTrace_status : ownTrace ext { t with status := status } a n m =
    (ownTrace ext t a n m).mapQuestions (withStatus status) := by
  rw [ownTrace_eq, ownTrace_eq]
  have hq : withStatus status (rowQuery t a) = rowQuery { t with status := status } a := rfl
  rw [Program.mapQuestions, hq]
  refine congrArg (Program.ask _) (funext fun res ↦ ?_)
  have hrelated := mapQuestions_of_usesId _ status (related_usesId ext t a (firstNumber res n))
  rw [Program.mapQuestions_bind, hrelated]
  rfl

theorem actionTrace_status : actionTrace ext { t with status := status } a n m =
    (actionTrace ext t a n m).mapQuestions (withStatus status) := by
  have hrow : rowTrace ext { t with status := status } a n m =
      (rowTrace ext t a n m).mapQuestions (withStatus status) := by
    rw [rowTrace, rowTrace]
    split_ifs
    · exact ownTrace_status ext t a n m status
    · exact (mapQuestions_of_usesId n status (innerTrace_usesId t a n m)).symm
  rw [actionTrace, actionTrace, Program.mapQuestions_bind, hrow]
  refine congrArg (Program.bind _) (funext fun r ↦ ?_)
  have htokens := mapQuestions_of_usesId _ status (tokens_usesId ext t a r.1)
  rw [Program.mapQuestions_bind, htokens]
  rfl

/-- What is done for the actions of a transaction with another status. -/
theorem actionTraces_status (l : List Json) :
    actionTraces ext { t with status := status } n m l =
      (actionTraces ext t n m l).mapQuestions (withStatus status) := by
  induction l generalizing n m with
  | nil => rfl
  | cons object l ih =>
      rw [actionTraces, actionTraces]
      split_ifs
      · rw [actionTrace_status, Program.mapQuestions_bind]
        exact congrArg (Program.bind _) (funext fun r ↦ ih r.1 r.2)
      · exact ih n m

end Actions

/-! ## Actions that are only recorded -/

/-- The names of the actions that something is done for if a transaction asks for them itself. -/
def relatedNames : List String :=
  ["trnsfiopubky", "trnsloctoks", "regdomain", "regdomadd", "renewdomain", "xferdomain",
    "setdomainpub", "wrapdomain", "xferescrow", "updcryptkey", "burnexpired", "burnaddress",
    "newfundsreq", "recordobt", "cancelfndreq", "rejectfndreq", "regaddress", "renewaddress",
    "addbundles", "addnft", "remnft", "remallnfts", "xferaddress", "remalladdr", "addaddress",
    "remaddress", "stakefio", "unstakefio", "retire"]

/-- Something is done for the action, besides recording it. -/
def Action.IsRelated (a : Action) : Prop :=
  a.IsOwn ∧ (a.actionname ∈ relatedNames ∨
    a.actionname = "fipxlviii" ∧ a.contractaccount = "fio.token") ∨ a.IsToken

instance (a : Action) : Decidable a.IsRelated := inferInstanceAs (Decidable (_ ∧ _ ∨ _))

/-- A statement that records a transaction or a trace. -/
def Records (q : Query) : Prop :=
  q.statement.fn = "instransactions" ∨ q.statement.fn = "instraces"

section Recorded

variable (t : Transaction) (a : Action) (n : Int) (m : Members)

theorem related_recorded (hname : a.actionname ∉ relatedNames)
    (hfip : ¬ (a.actionname = "fipxlviii" ∧ a.contractaccount = "fio.token")) :
    related ext t a n = pure () ∧ remember ext t a n m = m := by
  simp only [relatedNames, List.mem_cons, List.not_mem_nil, or_false, not_or] at hname
  constructor
  · simp [related, hname, hfip]
  · simp [remember, hname]

/-- An action that is only recorded. -/
theorem actionTrace_recorded (h : ¬ a.IsRelated) :
    (actionTrace ext t a n m).Every Records ∧ ∀ r, (actionTrace ext t a n m).Can r → r.2 = m := by
  obtain ⟨hown, htoken⟩ := not_or.mp h
  have hrow : (rowTrace ext t a n m).Every Records ∧
      ∀ r, (rowTrace ext t a n m).Can r → r.2 = m := by
    rw [rowTrace]
    split_ifs with hisOwn
    · obtain ⟨hname, hfip⟩ := not_or.mp (not_and.mp hown hisOwn)
      have hnone := fun fk ↦ related_recorded ext t a fk m hname hfip
      rw [ownTrace_eq]
      constructor
      · refine ⟨.inl rfl, fun res ↦ ?_⟩
        dsimp only
        rw [(hnone _).1]
        trivial
      · rintro r ⟨res, hr⟩
        obtain ⟨-, -, hr⟩ := Program.can_bind.mp hr
        obtain rfl := Program.can_pure.mp hr
        exact (hnone _).2
    · constructor
      · refine Program.every_bind.mpr ⟨every_onlyIf.mpr fun _ ↦ ?_, fun _ _ ↦ ?_⟩
        · exact every_perform.mpr (.inr rfl)
        · exact Program.every_pure.mpr trivial
      · intro r hr
        obtain ⟨-, -, hr⟩ := Program.can_bind.mp hr
        exact congrArg Prod.snd (Program.can_pure.mp hr).symm
  rw [actionTrace]
  constructor
  · refine Program.every_bind.mpr ⟨hrow.1, fun r _ ↦ ?_⟩
    rw [tokens_of_not_isToken ext t a r.1 htoken]
    trivial
  · intro r hr
    obtain ⟨r', hr', hr⟩ := Program.can_bind.mp hr
    obtain ⟨-, -, hr⟩ := Program.can_bind.mp hr
    obtain rfl := Program.can_pure.mp hr
    exact hrow.2 r' hr'

/-- Actions that are only recorded leave what is kept as it is. -/
theorem actionTraces_recorded (l : List Json) (h : ∀ a ∈ readActions ext l, ¬ a.IsRelated) :
    (actionTraces ext t n m l).Every Records ∧ ∀ m', (actionTraces ext t n m l).Can m' →
      m' = m := by
  induction l generalizing n with
  | nil => exact ⟨trivial, fun m' h ↦ h.symm⟩
  | cons object l ih =>
      rw [actionTraces]
      split_ifs with hobject
      · rw [readActions_cons_of_isObject ext hobject] at h
        obtain ⟨hfirst, hrest⟩ := List.forall_mem_cons.mp h
        obtain ⟨hevery, hcan⟩ := actionTrace_recorded ext t _ n m hfirst
        constructor
        · refine Program.every_bind.mpr ⟨hevery, ?_⟩
          rintro ⟨n', m'⟩ hr
          obtain rfl := hcan _ hr
          exact (ih n' hrest).1
        · intro m' hm'
          obtain ⟨⟨n', m''⟩, hr, hrestm⟩ := Program.can_bind.mp hm'
          obtain rfl : m'' = m := hcan _ hr
          exact (ih n' hrest).2 m' hrestm
      · rw [readActions_cons_of_not_isObject ext hobject] at h
        exact ih n h

end Recorded

/-- **The status of a transaction is only recorded.  Two messages that differ in it lead to the
same statements with the same answers, but for the status in `instransactions`, and they leave the
same lists and flags.  If nothing is done for any action of a message besides recording it, the
transaction and its traces are all that is recorded, and the lists and flags stay as they are.** -/
theorem status_recorded (m : Members) (document document' : Json) (bnums : String)
    (hts : (document'.get "data").get "block_timestamp" =
      (document.get "data").get "block_timestamp")
    (hid : ((document'.get "data").get "trace").get "id" =
      ((document.get "data").get "trace").get "id")
    (htraces : ((document'.get "data").get "trace").get "action_traces" =
      ((document.get "data").get "trace").get "action_traces") :
    txTrace ext m document' bnums = (txTrace ext m document bnums).mapQuestions
        (withStatus (readTransaction ext document' bnums).status) ∧
      ((∀ a ∈ readActions ext
          (((document.get "data").get "trace").get "action_traces").getArray, ¬ a.IsRelated) →
        (txTrace ext m document bnums).Every Records ∧
          ∀ m', (txTrace ext m document bnums).Can m' → m' = m) := by
  constructor
  · rw [txTrace, txTrace, ← actionTraces_status, htraces]
    refine congrArg (fun t ↦ actionTraces ext t (-1) m _) ?_
    rw [readTransaction, readTransaction, hts, hid]
  · exact actionTraces_recorded ext _ (-1) m _

/-- A vote, of which nothing more is recorded. -/
def voteDocument (status : String) : Json :=
  transactionDocument status [traceObject "1" "0" "eosio" "eosio" "voteproxy" (.string "00")]

set_option maxRecDepth 10000 in
theorem status_recorded_vote :
    txTrace (dataExternals "") {} (voteDocument "executed") "100" =
      (txTrace (dataExternals "") {} (voteDocument "hard_fail") "100").mapQuestions
        (withStatus "executed") ∧
    (txTrace (dataExternals "") {} (voteDocument "hard_fail") "100").Every Records ∧
      ∀ m', (txTrace (dataExternals "") {} (voteDocument "hard_fail") "100").Can m' → m' = {} := by
  have hrecorded := status_recorded (dataExternals "") {} (voteDocument "hard_fail")
    (voteDocument "executed") "100" rfl rfl rfl
  refine ⟨hrecorded.1, hrecorded.2 ?_⟩
  decide +kernel

/-- The registration of a domain in a transaction that has failed. -/
def regdomainDocument : Json :=
  transactionDocument "soft_fail" [traceObject "1" "0" "fio.address" "fio.address" "regdomain"
    (.object [("fio_domain", .string "alice"), ("owner_fio_public_key", .string ""),
      ("max_fee", .number "0"), ("actor", .string "alice"), ("tpid", .string "")])]

/-- Libraries that know this message. -/
def regdomainExternals : Externals :=
  dataExternals ("\x7b\"fio_domain\":\"alice\",\"owner_fio_public_key\":\"\",\"max_fe" ++
    "e\":0,\"actor\":\"alice\",\"tpid\":\"\"\x7d")

set_option maxRecDepth 10000 in
/-- A domain that was not registered is inserted, though the transaction has failed. -/
theorem failed_regdomain_inserted :
    (readTransaction regdomainExternals regdomainDocument "100").status = "soft_fail" ∧
    ∃ d ∈ ((txTrace regdomainExternals {} regdomainDocument "100").run
      fun _ ↦ some [["1", "FIO5abc"]]).trace,
      ∃ q, d.question? = some q ∧ q.statement.fn = "insdomains" := by
  refine ⟨by decide +kernel, ?_⟩
  have hany : (((txTrace regdomainExternals {} regdomainDocument "100").run
      fun _ ↦ some [["1", "FIO5abc"]]).trace.any fun d ↦ d.question?.any fun q ↦
        q.statement.fn = "insdomains") = true := by
    decide +kernel
  obtain ⟨d, hd, hq⟩ := List.any_eq_true.mp hany
  obtain ⟨q, hq, hfn⟩ := (Option.any_eq_true _ _).mp hq
  exact ⟨d, hd, q, hq, of_decide_eq_true hfn⟩

end Chronicle.Relic
