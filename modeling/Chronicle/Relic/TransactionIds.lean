import Chronicle.Relic.Handler

/-!
# The row of a transaction

Many statements of a transaction name its row by the number that `instransactions` returned.  The
number is read once for each action that a transaction asks for itself, and `-1` stands for it
before; whether a statement checks that there is a number differs from statement to statement.
-/

namespace Chronicle.Relic

variable (ext : Externals)

/-- The functions whose first argument is the row of a transaction. -/
def transactionFns : List String :=
  ["instraces", "instokentransfers", "instokenstakings", "insaccountactivities",
    "insaccountactivitieshandle", "insdomainactivities", "inshandleactivities",
    "inshandleactivitiesfiorequest", "insfiorequests", "insfiodatas"]

/-- A statement of a transaction whose row is `n`. -/
def UsesId (n : Int) (q : Query) : Prop :=
  q.statement.fn ≠ "instransactions" ∧
    (q.statement.fn ∈ transactionFns → q.statement.fields.head? = some (.int n))

/-- A statement that names the row. -/
theorem usesId_taken {n : Int} {uniqueident fn : String} {fields : List Field}
    {h : Sql.isIdent fn.toList} (hfn : fn ≠ "instransactions") :
    UsesId n ⟨uniqueident, call fn (.int n :: fields) h⟩ ↔ True :=
  iff_true_intro ⟨hfn, fun _ ↦ rfl⟩

/-- A statement that does not take one. -/
theorem usesId_other {n : Int} {uniqueident fn : String} {fields : List Field}
    {h : Sql.isIdent fn.toList} (hfn : fn ∉ "instransactions" :: transactionFns) :
    UsesId n ⟨uniqueident, call fn fields h⟩ ↔ True := by
  obtain ⟨hfn, hother⟩ := not_or.mp (List.mem_cons.not.mp hfn)
  exact iff_true_intro ⟨hfn, fun h ↦ absurd h hother⟩

theorem usesId_getaccountpubkeyandid (n : Int) (uniqueident actoraccount : String) :
    UsesId n ⟨uniqueident, getaccountpubkeyandid actoraccount⟩ := by
  have hfn : "getaccountpubkeyandid" ∉ "instransactions" :: transactionFns := by decide
  obtain ⟨hfn, hother⟩ := not_or.mp (List.mem_cons.not.mp hfn)
  exact ⟨hfn, fun h ↦ absurd h hother⟩

/-! ## The statements of one action -/

section Actions

variable (t : Transaction) (a : Action) (n : Int)

theorem ownerAndPubkey_usesId (getIdent insIdent pubkeyt actoraccount : String) :
    (ownerAndPubkey ext t getIdent insIdent pubkeyt actoraccount).Every (UsesId n) := by
  rw [ownerAndPubkey]
  split_ifs
  · refine Program.every_bind.mpr ⟨every_exec.mpr (usesId_getaccountpubkeyandid n _ _), ?_⟩
    intro res _
    split_ifs
    · trivial
    · cases pqGetvalue res 0 1 <;> trivial
  · simp (disch := decide) [usesId_other]

theorem regdomain_usesId : (regdomain ext t a n).Every (UsesId n) := by
  refine Program.every_bind.mpr ⟨ownerAndPubkey_usesId ext t n _ _ _ _, fun r _ ↦ ?_⟩
  simp (disch := decide) [usesId_taken, usesId_other]

theorem xferdomain_usesId : (xferdomain ext t a n).Every (UsesId n) := by
  refine Program.every_bind.mpr ⟨?_, fun owneracct _ ↦ ?_⟩
  · rw [xferdomainOwner]
    split_ifs
    · refine Program.every_bind.mpr ⟨every_exec.mpr (usesId_getaccountpubkeyandid n _ _), ?_⟩
      intro res _
      split_ifs <;> trivial
    · simp (disch := decide) [usesId_other]
  · simp (disch := decide) [usesId_taken, usesId_other]

theorem regaddress_usesId : (regaddress ext t a n).Every (UsesId n) := by
  refine Program.every_bind.mpr ⟨ownerAndPubkey_usesId ext t n _ _ _ _, fun r _ ↦ ?_⟩
  simp (disch := decide) [usesId_taken, usesId_other]

theorem xferaddress_usesId : (xferaddress ext t a n).Every (UsesId n) := by
  refine Program.every_bind.mpr ⟨ownerAndPubkey_usesId ext t n _ _ _ _, fun r _ ↦ ?_⟩
  simp (disch := decide) [usesId_taken, usesId_other]

/-- The statements of one element after another. -/
theorem forEach_usesId {α : Type} {f : α → Prog Unit} (hf : ∀ x, (f x).Every (UsesId n))
    (l : List α) : (forEach f l).Every (UsesId n) := by
  induction l with
  | nil => trivial
  | cons x l ih => exact Program.every_bind.mpr ⟨hf x, fun _ _ ↦ ih⟩

/-- What is done with the elements of an array. -/
theorem elements_usesId {f : Json → Prog Unit} (hf : ∀ v, (f v).Every (UsesId n)) (v : Json) :
    (forEach (fun element ↦ onlyIf element.isObject (f element)) v.getArray).Every (UsesId n) :=
  forEach_usesId n (fun element ↦ every_onlyIf.mpr fun _ ↦ hf element) _

theorem addnft_usesId : (addnft ext t a n).Every (UsesId n) := by
  refine Program.every_bind.mpr ⟨?_, fun _ _ ↦ elements_usesId n (fun nftdata ↦ ?_) _⟩
  · simp (disch := decide) [usesId_taken]
  · simp (disch := decide) [usesId_other]

theorem remnft_usesId : (remnft ext t a n).Every (UsesId n) := by
  refine Program.every_bind.mpr ⟨?_, fun _ _ ↦ elements_usesId n (fun nftdata ↦ ?_) _⟩
  · simp (disch := decide) [usesId_taken]
  · simp (disch := decide) [usesId_other]

theorem addaddress_usesId : (addaddress ext t a n).Every (UsesId n) := by
  refine elements_usesId n (fun addressdata ↦ ?_) _
  simp (disch := decide) [addPubaddress, usesId_taken, usesId_other]

theorem remaddress_usesId : (remaddress ext t a n).Every (UsesId n) := by
  refine elements_usesId n (fun addressdata ↦ ?_) _
  simp (disch := decide) [remPubaddress, usesId_taken, usesId_other]

theorem fipxlviii_usesId : (fipxlviii t n).Every (UsesId n) := by
  refine forEach_usesId n (fun transfer ↦ ?_) _
  simp (disch := decide) [fip48Transfer, usesId_taken]

/-- What is done for an action that a transaction asks for itself names the row that was just
read. -/
theorem related_usesId : (related ext t a n).Every (UsesId n) := by
  rw [related]
  refine Program.Every.ite (by simp (disch := decide) [trnsfiopubky, usesId_taken]) ?_
  refine Program.Every.ite (regdomain_usesId ext t a n) ?_
  refine Program.Every.ite (by simp (disch := decide) [renewdomain, usesId_taken, usesId_other]) ?_
  refine Program.Every.ite (xferdomain_usesId ext t a n) ?_
  refine Program.Every.ite (by simp (disch := decide) [setdomainpub, usesId_taken, usesId_other]) ?_
  refine Program.Every.ite (by simp (disch := decide) [wrapdomain, usesId_taken, usesId_other]) ?_
  refine Program.Every.ite (by simp (disch := decide) [xferescrow, usesId_taken, usesId_other]) ?_
  refine Program.Every.ite (by simp (disch := decide) [updcryptkey, usesId_taken, usesId_other]) ?_
  refine Program.Every.ite trivial ?_
  refine Program.Every.ite (by simp (disch := decide) [burnaddress, usesId_taken, usesId_other]) ?_
  refine Program.Every.ite (by simp (disch := decide) [newfundsreq, usesId_taken]) ?_
  refine Program.Every.ite (by simp (disch := decide) [recordobt, usesId_taken, usesId_other]) ?_
  refine Program.Every.ite (by simp (disch := decide) [cancelfndreq, endRequest, usesId_taken,
    usesId_other]) ?_
  refine Program.Every.ite (by simp (disch := decide) [rejectfndreq, endRequest, usesId_taken,
    usesId_other]) ?_
  refine Program.Every.ite (regaddress_usesId ext t a n) ?_
  refine Program.Every.ite (by simp (disch := decide) [renewaddress, handleActivity,
    usesId_taken]) ?_
  refine Program.Every.ite (by simp (disch := decide) [addbundles, handleActivity, usesId_taken]) ?_
  refine Program.Every.ite (addnft_usesId ext t a n) ?_
  refine Program.Every.ite (remnft_usesId ext t a n) ?_
  refine Program.Every.ite (by simp (disch := decide) [remallnfts, usesId_taken, usesId_other]) ?_
  refine Program.Every.ite (xferaddress_usesId ext t a n) ?_
  refine Program.Every.ite (by simp (disch := decide) [remalladdr, usesId_taken, usesId_other]) ?_
  refine Program.Every.ite (addaddress_usesId ext t a n) ?_
  refine Program.Every.ite (remaddress_usesId ext t a n) ?_
  refine Program.Every.ite trivial ?_
  refine Program.Every.ite (by simp (disch := decide) [stakefio, usesId_taken]) ?_
  refine Program.Every.ite (by simp (disch := decide) [unstakefio, usesId_taken]) ?_
  refine Program.Every.ite (by simp (disch := decide) [retire, usesId_taken]) ?_
  exact Program.Every.ite (fipxlviii_usesId t n) trivial

theorem tokens_usesId : (tokens ext t a n).Every (UsesId n) := by
  rw [tokens]
  split_ifs
  · simp (disch := decide) [transfer, usesId_taken]
  · simp (disch := decide) [issue, usesId_taken]
  · simp (disch := decide) [bind2eosio, usesId_taken, usesId_other]
  · trivial

theorem innerTrace_usesId (m : Members) : (innerTrace t a n m).Every (UsesId n) := by
  refine Program.every_bind.mpr
    ⟨every_onlyIf.mpr fun _ ↦ ?_, fun _ _ ↦ Program.every_pure.mpr trivial⟩
  simp (disch := decide) [usesId_taken]

end Actions

/-! ## The rows that were returned -/

/-- What happens while a message is handled. -/
abbrev Happening := Program.Done Query Rows Nat

/-- `instransactions` has returned `n`. -/
def Returned (before : List Happening) (n : Nat) : Prop :=
  ∃ q r, .answered q r ∈ before ∧ q.statement.fn = "instransactions" ∧
    pqGetvalue r 0 0 = some (toString n)

/-- If a statement names a row, then one that was returned before. -/
def NamesReturned (before : List Happening) (d : Happening) : Prop :=
  ∀ q ∈ d.question?, q.statement.fn ∈ transactionFns →
    ∃ n : Nat, Returned before n ∧ q.statement.fields.head? = some (.int n)

/-- `instransactions` returns the number of a row, and it is read as an `int`. -/
def ReturnsNumbers (trace : List Happening) : Prop :=
  ∀ q r, .answered q r ∈ trace → q.statement.fn = "instransactions" →
    ∃ n : Nat, n < 2 ^ 31 ∧ pqGetvalue r 0 0 = some (toString n)

/-- The row that a transaction has. -/
def RowOf (before : List Happening) (fktransactionid : Int) : Prop :=
  ∃ n : Nat, fktransactionid = n ∧ Returned before n

theorem Returned.append {before : List Happening} {n : Nat} (h : Returned before n)
    (more : List Happening) : Returned (before ++ more) n := by
  obtain ⟨q, r, hmem, hfn, hn⟩ := h
  exact ⟨q, r, List.mem_append_left _ hmem, hfn, hn⟩

theorem RowOf.append {before : List Happening} {n : Int} (h : RowOf before n)
    (more : List Happening) : RowOf (before ++ more) n := by
  obtain ⟨k, hk, h⟩ := h
  exact ⟨k, hk, h.append more⟩

theorem ReturnsNumbers.mono {l₁ l₂ : List Happening} (h : ReturnsNumbers l₂) (hl : l₁ ⊆ l₂) :
    ReturnsNumbers l₁ := fun q r hmem ↦ h q r (hl hmem)

/-- Statements that name the row of a transaction, after it was returned. -/
theorem RowOf.names {α : Type} {p : Prog α} {before : List Happening} {n : Int}
    (h : RowOf before n) (hp : p.Every (UsesId n)) (answers : Nat → Option Rows) :
    Program.Ordered NamesReturned before (p.run answers).trace := by
  obtain ⟨k, rfl, h⟩ := h
  refine Program.ordered_of_mem fun more d hd q hq hfn ↦ ?_
  exact ⟨k, h.append more, (Program.every_iff.mp hp answers d hd q hq).2 hfn⟩

/-- `instransactions` itself names no row. -/
theorem namesReturned_instransactions {before : List Happening} {d : Happening} {q : Query}
    (hd : d.question? = some q) (hfn : q.statement.fn = "instransactions") :
    NamesReturned before d := by
  intro q' hq' htaken
  obtain rfl := Option.some.inj (hd.symm.trans hq')
  rw [hfn] at htaken
  exact absurd htaken (by decide)

/-- The number that is read is the one that was returned. -/
theorem firstNumber_returned {res : Rows} {n : Nat} (h : pqGetvalue res 0 0 = some (toString n))
    (hn : n < 2 ^ 31) (defaultv : Int) : firstNumber res defaultv = n := by
  rw [firstNumber, h]
  exact atoi_toString hn

/-! ## One action after another -/

/-- An action whose tokens are noted. -/
def Action.IsToken (a : Action) : Prop :=
  a.actionname = "transfer" ∧ a.receiveraccount = "fio.token" ∨
    a.actionname = "issue" ∧ a.receiveraccount = "fio.token" ∨ a.actionname = "bind2eosio"

instance (a : Action) : Decidable a.IsToken := inferInstanceAs (Decidable (_ ∨ _ ∨ _))

/-- No tokens are noted before an action that the transaction asks for itself. -/
def OwnFirst : List Action → Prop
  | [] => True
  | a :: rest => a.IsOwn ∨ ¬ a.IsToken ∧ OwnFirst rest

instance instDecidableOwnFirst : (l : List Action) → Decidable (OwnFirst l)
  | [] => .isTrue trivial
  | a :: rest =>
    have := instDecidableOwnFirst rest
    inferInstanceAs (Decidable (a.IsOwn ∨ ¬ a.IsToken ∧ OwnFirst rest))

/-- The actions that are read from a list of traces. -/
def readActions (l : List Json) : List Action := (l.filter Json.isObject).map (readAction ext)

section Read

variable {object : Json} {l : List Json}

theorem readActions_cons_of_isObject (h : object.isObject) :
    readActions ext (object :: l) = readAction ext object :: readActions ext l := by
  rw [readActions, List.filter_cons_of_pos h, List.map_cons, readActions]

theorem readActions_cons_of_not_isObject (h : ¬ object.isObject) :
    readActions ext (object :: l) = readActions ext l := by
  rw [readActions, List.filter_cons_of_neg h, readActions]

end Read

section Actions

variable (t : Transaction) (a : Action) (n : Int) (m : Members) {before : List Happening}
  {answers : Nat → Option Rows}

theorem tokens_of_not_isToken (h : ¬ a.IsToken) : tokens ext t a n = pure () := by
  obtain ⟨htransfer, h⟩ := not_or.mp h
  obtain ⟨hissue, hbind⟩ := not_or.mp h
  rw [tokens, if_neg htransfer, if_neg hissue, if_neg hbind]

/-- The statement that makes the row of a transaction. -/
def rowQuery : Query :=
  ⟨"instransactions", instransactions t.bnums t.blocktimestamp t.trid a.contractaccount
    a.actionaccount a.actionname a.tpid a.feeamount a.requestdata a.response t.status⟩

theorem ownTrace_eq : ownTrace ext t a n m = .ask (rowQuery t a) fun res ↦
    (related ext t a (firstNumber res n) >>= fun _ ↦
      pure (firstNumber res n, remember ext t a (firstNumber res n) m)) := rfl

/-- An action that the transaction asks for itself reads the row. -/
theorem ownTrace_names (h : ReturnsNumbers ((ownTrace ext t a n m).run answers).trace) :
    Program.Ordered NamesReturned before ((ownTrace ext t a n m).run answers).trace ∧
      ∀ r, ((ownTrace ext t a n m).run answers).result = some r →
        RowOf (before ++ ((ownTrace ext t a n m).run answers).trace) r.1 := by
  rw [ownTrace_eq] at h ⊢
  have hfn : (rowQuery t a).statement.fn = "instransactions" := rfl
  cases hres : answers 0 with
  | none =>
      rw [Program.run_ask_none hres]
      refine ⟨⟨namesReturned_instransactions rfl hfn, trivial⟩, fun r hr ↦ ?_⟩
      cases hr
  | some res =>
      rw [Program.run_ask_some hres] at h ⊢
      obtain ⟨k, hk, hvalue⟩ := h _ res List.mem_cons_self hfn
      rw [firstNumber_returned hvalue hk]
      have hrow : RowOf (before ++ [.answered (rowQuery t a) res]) k :=
        ⟨k, rfl, _, res, List.mem_append_right _ (List.mem_singleton_self _), hfn, hvalue⟩
      constructor
      · refine ⟨namesReturned_instransactions rfl hfn, hrow.names ?_ _⟩
        exact Program.every_bind.mpr ⟨related_usesId ext t a k, fun _ _ ↦ trivial⟩
      · intro r hr
        obtain ⟨-, -, hr⟩ := Program.can_bind.mp (Program.can_of_result hr)
        obtain rfl := Program.can_pure.mp hr
        rw [List.append_cons]
        exact hrow.append _

/-- What is noted before the transaction has a row, or with it. -/
theorem rowTrace_names (hn : n = -1 ∨ RowOf before n)
    (h : ReturnsNumbers ((rowTrace ext t a n m).run answers).trace) :
    Program.Ordered NamesReturned before ((rowTrace ext t a n m).run answers).trace ∧
      ∀ r, ((rowTrace ext t a n m).run answers).result = some r →
        if a.IsOwn then RowOf (before ++ ((rowTrace ext t a n m).run answers).trace) r.1
        else r.1 = n := by
  rw [rowTrace] at h ⊢
  split_ifs at h ⊢ with hown
  · exact ownTrace_names ext t a n m h
  · constructor
    · rcases hn with rfl | hrow
      · -- the number is checked here
        have hnone : ¬ (1 < ordinal a.actionordinal ∧ (-1 : Int) < -1) :=
          fun h ↦ absurd h.2 (by decide)
        rw [innerTrace, onlyIf, if_neg hnone]
        trivial
      · exact hrow.names (innerTrace_usesId t a n m) _
    · intro r hr
      obtain ⟨-, -, hr⟩ := Program.can_bind.mp (Program.can_of_result hr)
      exact congrArg Prod.fst (Program.can_pure.mp hr).symm

/-- One action. -/
theorem actionTrace_names (hn : n = -1 ∧ (a.IsOwn ∨ ¬ a.IsToken) ∨ RowOf before n)
    (h : ReturnsNumbers ((actionTrace ext t a n m).run answers).trace) :
    Program.Ordered NamesReturned before ((actionTrace ext t a n m).run answers).trace ∧
      ∀ r, ((actionTrace ext t a n m).run answers).result = some r →
        ¬ a.IsOwn ∧ n = -1 ∧ r.1 = -1 ∨
          RowOf (before ++ ((actionTrace ext t a n m).run answers).trace) r.1 := by
  have hn' : n = -1 ∨ RowOf before n := hn.imp_left And.left
  rw [actionTrace] at h ⊢
  cases hr : ((rowTrace ext t a n m).run answers).result with
  | none =>
      rw [Program.run_bind_none hr] at h ⊢
      refine ⟨(rowTrace_names ext t a n m hn' h).1, fun r hr ↦ ?_⟩
      cases hr
  | some r =>
      rw [Program.run_bind_some hr] at h ⊢
      obtain ⟨hordered, hresult⟩ := rowTrace_names ext t a n m hn'
        (h.mono (List.subset_append_left _ _))
      have hresult := hresult r hr
      have hafter : ¬ a.IsToken ∧ ¬ a.IsOwn ∧ n = -1 ∧ r.1 = -1 ∨
          RowOf (before ++ ((rowTrace ext t a n m).run answers).trace) r.1 := by
        split_ifs at hresult with hown
        · exact .inr hresult
        · rw [hresult]
          exact hn.imp (fun h ↦ ⟨h.2.resolve_left hown, hown, h.1, h.1⟩) fun h ↦ h.append _
      constructor
      · refine Program.ordered_append.mpr ⟨hordered, ?_⟩
        rcases hafter with ⟨htoken, -⟩ | hrow
        · rw [tokens_of_not_isToken ext t a r.1 htoken]
          trivial
        · refine hrow.names (Program.every_bind.mpr ⟨tokens_usesId ext t a r.1, fun _ _ ↦ ?_⟩) _
          exact Program.every_pure.mpr trivial
      · intro r' hr'
        obtain ⟨-, -, hr'⟩ := Program.can_bind.mp (Program.can_of_result hr')
        obtain rfl := Program.can_pure.mp hr'
        refine hafter.imp And.right fun hrow ↦ ?_
        rw [← List.append_assoc]
        exact hrow.append _

/-- If a transaction has a row before its first tokens, all its statements name rows that were
returned before. -/
theorem actionTraces_names (l : List Json)
    (hn : n = -1 ∧ OwnFirst (readActions ext l) ∨ RowOf before n)
    (h : ReturnsNumbers ((actionTraces ext t n m l).run answers).trace) :
    Program.Ordered NamesReturned before ((actionTraces ext t n m l).run answers).trace := by
  induction l generalizing n m before answers with
  | nil => trivial
  | cons object l ih =>
      rw [actionTraces] at h ⊢
      split_ifs at h ⊢ with hobject
      · rw [readActions_cons_of_isObject ext hobject] at hn
        have hfirst : n = -1 ∧ ((readAction ext object).IsOwn ∨ ¬ (readAction ext object).IsToken) ∨
            RowOf before n := hn.imp_left fun h ↦ ⟨h.1, h.2.imp_right And.left⟩
        cases hr : ((actionTrace ext t (readAction ext object) n m).run answers).result with
        | none =>
            rw [Program.run_bind_none hr] at h ⊢
            exact (actionTrace_names ext t _ n m hfirst h).1
        | some r =>
            rw [Program.run_bind_some hr] at h ⊢
            obtain ⟨hordered, hresult⟩ := actionTrace_names ext t _ n m hfirst
              (h.mono (List.subset_append_left _ _))
            refine Program.ordered_append.mpr ⟨hordered, ?_⟩
            refine ih r.1 r.2 ?_ (h.mono (List.subset_append_right _ _))
            refine (hresult r hr).imp_left ?_
            rintro ⟨hown, rfl, hnone⟩
            refine ⟨hnone, ?_⟩
            rcases hn with hn | ⟨k, hk, -⟩
            · exact (hn.2.resolve_left hown).2
            · exact absurd hk (by omega)
      · rw [readActions_cons_of_not_isObject ext hobject] at hn
        exact ih n m hn h

/-- A statement with `-1` names no row. -/
theorem not_namesReturned {d : Happening} {q : Query} (hd : d.question? = some q)
    (hfn : q.statement.fn ∈ transactionFns) (hq : q.statement.fields.head? = some (.int (-1))) :
    ¬ NamesReturned before d := by
  intro h
  obtain ⟨k, -, hk⟩ := h q hd hfn
  have htext : toString (-1 : Int) = toString k :=
    Field.number.inj (Option.some.inj (hq.symm.trans hk))
  have hsigned : signedPart (toString (-1 : Int)) = some (true, 1) := by decide
  rw [htext, signedPart_toString] at hsigned
  cases hsigned

/-- Before there is a row, other actions leave nothing. -/
theorem actionTrace_none (hown : ¬ a.IsOwn) :
    actionTrace ext t a (-1) m = (tokens ext t a (-1) >>= fun _ ↦ pure (-1, m)) := by
  have hnone : ¬ (1 < ordinal a.actionordinal ∧ (-1 : Int) < -1) := fun h ↦ absurd h.2 (by decide)
  rw [actionTrace, rowTrace, if_neg hown, innerTrace, onlyIf, if_neg hnone]
  rfl

/-- Tokens that are noted before there is a row name none. -/
theorem tokens_none (h : a.IsToken) {r : Rows} :
    ¬ Program.Ordered NamesReturned before ((tokens ext t a (-1)).run fun _ ↦ some r).trace := by
  rw [tokens]
  split_ifs with htransfer hissue hbind
  · exact fun h ↦ not_namesReturned rfl (by decide : "instokentransfers" ∈ transactionFns) rfl h.1
  · exact fun h ↦ not_namesReturned rfl (by decide : "instokentransfers" ∈ transactionFns) rfl h.1
  · exact fun h ↦
      not_namesReturned rfl (by decide : "insaccountactivities" ∈ transactionFns) rfl h.2.1
  · exact absurd h (not_or.mpr ⟨htransfer, not_or.mpr ⟨hissue, hbind⟩⟩)

/-- If tokens come first, some statement names a row that there is not. -/
theorem actionTraces_none (l : List Json) (h : ¬ OwnFirst (readActions ext l)) :
    ¬ Program.Ordered NamesReturned before
      ((actionTraces ext t (-1) m l).run fun _ ↦ some [["1"]]).trace := by
  induction l with
  | nil => exact absurd trivial h
  | cons object l ih =>
      rw [actionTraces]
      split_ifs with hobject
      · rw [readActions_cons_of_isObject ext hobject] at h
        obtain ⟨hown, h⟩ := not_or.mp h
        rw [actionTrace_none ext t _ m hown]
        by_cases htoken : (readAction ext object).IsToken
        · exact fun hordered ↦ tokens_none ext t _ htoken hordered.of_bind.of_bind
        · rw [tokens_of_not_isToken ext t _ _ htoken]
          exact ih fun hl ↦ h ⟨htoken, hl⟩
      · rw [readActions_cons_of_not_isObject ext hobject] at h
        exact ih h

end Actions

/-! ## Transactions -/

/-- **Whatever `instransactions` returns, every statement of a message that takes the row of a
transaction takes one that was returned before for the same message, exactly if the transaction
asks itself for an action before the first `transfer`, `issue` or `bind2eosio` whose tokens are
noted, or for that one.** -/
theorem transaction_rows_iff (m : Members) (document : Json) (bnums : String) :
    (∀ answers, ReturnsNumbers ((txTrace ext m document bnums).run answers).trace →
      Program.Ordered NamesReturned [] ((txTrace ext m document bnums).run answers).trace) ↔
    OwnFirst (readActions ext (((document.get "data").get "trace").get "action_traces").getArray) := by
  constructor
  · intro h
    by_contra hfirst
    refine actionTraces_none ext _ m _ hfirst (h _ fun q r hr _ ↦ ⟨1, by decide, ?_⟩)
    -- every answer is a row with this number
    rw [Program.answer_of_answered (P := (· = [["1"]])) (fun _ _ h ↦ (Option.some.inj h).symm) hr]
    rfl
  · exact fun h answers hnumbers ↦ actionTraces_names ext _ (-1) m _ (.inl ⟨rfl, h⟩) hnumbers

/-- A trace of one action. -/
def traceObject (ordinal creator receiver account name : String) (data : Json) : Json :=
  .object [("action_ordinal", .number ordinal), ("creator_action_ordinal", .number creator),
    ("receipt", .object [("response", .string "")]), ("receiver", .string receiver),
    ("act", .object [("account", .string account), ("name", .string name),
      ("authorization", .array [.object [("actor", .string account),
        ("permission", .string "active")]]), ("data", data)])]

/-- A message with the traces of a transaction. -/
def transactionDocument (status : String) (traces : List Json) : Json :=
  .object [("msgtype", .string "TX_TRACE"), ("data", .object [("block_num", .string "100"),
    ("block_timestamp", .string "2024-01-01T00:00:00.000"), ("trace", .object [
      ("id", .string "ab12"), ("status", .string status), ("action_traces", .array traces)])])]

/-- The action of a block, and a transfer that it leads to. -/
def onblockDocument : Json :=
  transactionDocument "executed" [traceObject "1" "0" "eosio" "eosio" "onblock" (.string "00"),
    traceObject "2" "1" "fio.token" "fio.token" "transfer" (.object [("from", .string "eosio"),
      ("to", .string "fio.treasury"), ("quantity", .string "1.000000000 FIO"),
      ("memo", .string "Paying producer from treasury")])]

/-- Libraries that know the text of the data of an action. -/
def dataExternals (data : String) : Externals where
  parse _ := .null
  write
    | .object _ => data
    | .number text => text
    | _ => ""
  pqEscapeLiteral s := some (String.ofList (Sql.quoted (Sql.escaped s.toList)))
  shortenKey _ := 0

/-- Libraries that know this message. -/
def onblockExternals : Externals :=
  dataExternals ("\x7b\"from\":\"eosio\",\"to\":\"fio.treasury\",\"quantity\":\"1.0" ++
    "00000000 FIO\",\"memo\":\"Paying producer from treasury\"\x7d")

set_option maxRecDepth 10000 in
/-- The tokens of an action that the chain itself asks for are noted for the row `-1`. -/
theorem onblock_transfer_without_row :
    ReturnsNumbers ((txTrace onblockExternals {} onblockDocument "100").run
      fun _ ↦ some [["1"]]).trace ∧
    (∃ d ∈ ((txTrace onblockExternals {} onblockDocument "100").run fun _ ↦ some [["1"]]).trace,
      ∃ q, d.question? = some q ∧ q.statement.fn = "instokentransfers" ∧
        q.statement.fields.head? = some (.int (-1))) ∧
    ¬ Program.Ordered NamesReturned []
      ((txTrace onblockExternals {} onblockDocument "100").run fun _ ↦ some [["1"]]).trace := by
  refine ⟨fun q r hr _ ↦ ⟨1, by decide, ?_⟩, ?_, ?_⟩
  · rw [Program.answer_of_answered (P := (· = [["1"]])) (fun _ _ h ↦ (Option.some.inj h).symm) hr]
    rfl
  · have hany : (((txTrace onblockExternals {} onblockDocument "100").run
        fun _ ↦ some [["1"]]).trace.any fun d ↦ d.question?.any fun q ↦
          q.statement.fn = "instokentransfers" ∧ q.statement.fields.head? = some (.int (-1))) =
        true := by
      decide +kernel
    obtain ⟨d, hd, hq⟩ := List.any_eq_true.mp hany
    obtain ⟨q, hq, htransfer⟩ := (Option.any_eq_true _ _).mp hq
    exact ⟨d, hd, q, hq, of_decide_eq_true htransfer⟩
  · refine actionTraces_none _ _ _ _ ?_
    decide +kernel

end Chronicle.Relic
