import Chronicle.Relic.RawValues

/-!
# What the statements carry

Every statement that a message can lead to is read back as the call that it is meant to be
exactly if the values of the message that are written as they are can be read back.  What the
database may answer decides which statements there are, so the two sides are compared action by
action, over all answers.
-/

namespace Chronicle.Relic

variable (ext : Externals)

/-- The statement of a query is read back. -/
def Carries (q : Query) : Prop := q.statement.Safe

@[simp]
theorem carries_mk (uniqueident : String) (statement : Statement) :
    Carries ⟨uniqueident, statement⟩ ↔ statement.Safe := Iff.rfl

/-- The name of an account has no quotes. -/
@[simp]
theorem safe_account (pubkey : String) : (Field.quoted (keyToAccount ext pubkey)).Safe ↔ True :=
  iff_true_intro (keyToAccount_no_quote ext pubkey)

/-! The accounts that the source names. -/

@[simp]
theorem safe_oracle : (Field.quoted "fio.oracle").Safe ↔ True := iff_true_intro (by decide)

@[simp]
theorem safe_token : (Field.quoted "fio.token").Safe ↔ True := iff_true_intro (by decide)

/-! ## Programs and their values -/

/-- A program that can be carried out, and whose statements are read back exactly if some values
are. -/
structure Carried (p : Prog Unit) (l : List Field) : Prop where
  can : p.Can ()
  every : p.Every Carries ↔ AllSafe l

theorem carried_pure : Carried (pure ()) [] := ⟨rfl, iff_of_true trivial (allSafe_nil.mpr trivial)⟩

theorem carried_perform {uniqueident : String} {statement : Statement} {l : List Field}
    (h : statement.Safe ↔ AllSafe l) : Carried (perform uniqueident statement) l :=
  ⟨can_perform.mpr trivial, every_perform.trans h⟩

/-- A program goes on with a result that has a property if what came before it is read back. -/
theorem carried_bind {α : Type} {first : Prog α} {next : α → Prog Unit} {l₁ l₂ : List Field}
    {R : α → Prop} (hcan : ∃ r, first.Can r) (hfirst : first.Every Carries ↔ AllSafe l₁)
    (hresult : AllSafe l₁ → ∀ r, first.Can r → R r) (hcans : ∀ r, (next r).Can ())
    (hnext : ∀ r, R r → ((next r).Every Carries ↔ AllSafe l₂)) :
    Carried (first >>= next) (l₁ ++ l₂) := by
  obtain ⟨r, hr⟩ := hcan
  refine ⟨Program.can_bind.mpr ⟨r, hr, hcans r⟩, ?_⟩
  rw [Program.every_bind, hfirst, allSafe_append]
  refine and_congr_right fun hl₁ ↦ ?_
  have hresult := hresult hl₁
  exact ⟨fun h ↦ (hnext r (hresult r hr)).mp (h r hr), fun h r hr ↦ (hnext r (hresult r hr)).mpr h⟩

/-- One program after another. -/
theorem Carried.andThen {p q : Prog Unit} {l₁ l₂ : List Field} (hp : Carried p l₁)
    (hq : Carried q l₂) : Carried (p >>= fun _ ↦ q) (l₁ ++ l₂) :=
  carried_bind (R := fun _ ↦ True) ⟨(), hp.can⟩ hp.every (fun _ _ _ ↦ trivial) (fun _ ↦ hq.can)
    fun _ _ ↦ hq.every

theorem carried_ite {p q : Prog Unit} {l₁ l₂ : List Field} {c : Prop} [Decidable c]
    (hp : Carried p l₁) (hq : Carried q l₂) :
    Carried (if c then p else q) (if c then l₁ else l₂) := by
  split_ifs
  · exact hp
  · exact hq

theorem Carried.onlyIf {p : Prog Unit} {l : List Field} {c : Prop} [Decidable c]
    (hp : Carried p l) : Carried (onlyIf c p) (if c then l else []) :=
  carried_ite hp carried_pure

/-- The elements of a list, one after another. -/
theorem carried_forEach {α : Type} {f : α → Prog Unit} {l : α → List Field}
    (hf : ∀ x, Carried (f x) (l x)) (xs : List α) : Carried (forEach f xs) (xs.flatMap l) := by
  induction xs with
  | nil => exact carried_pure
  | cons x xs ih => exact (hf x).andThen ih

/-! ## Actions that a transaction asks for -/

section Actions

variable (t : Transaction) (a : Action) (fktransactionid : Int)

theorem ownerAndPubkey_can (getIdent insIdent pubkeyt actoraccount : String) (r : String × String) :
    (ownerAndPubkey ext t getIdent insIdent pubkeyt actoraccount).Can r ↔
      if pubkeyt = unknownString then r.1 = actoraccount
      else r = (keyToAccount ext pubkeyt, pubkeyt) := by
  rw [ownerAndPubkey]
  split_ifs with hkey
  · rw [Program.can_bind]
    constructor
    · rintro ⟨res, -, hr⟩
      split_ifs at hr
      · exact hr.elim
      · cases hvalue : pqGetvalue res 0 1 with
        | none =>
            rw [hvalue] at hr
            exact hr.elim
        | some key =>
            rw [hvalue] at hr
            exact congrArg Prod.fst (Program.can_pure.mp hr).symm
    · intro hr
      -- a row with this key
      refine ⟨[["", r.2]], ⟨_, rfl⟩, ?_⟩
      have hone : ¬ 1 < [["", r.2]].length := Nat.lt_irrefl 1
      rw [if_neg hone]
      exact Prod.ext hr.symm rfl
  · rw [Program.can_bind]
    simp only [can_perform, true_and, exists_const, Program.can_pure]
    exact eq_comm

variable (hb : (Field.number t.bnums).Safe) (ht : (Field.quoted t.blocktimestamp).Safe)

include hb ht

theorem ownerAndPubkey_every (getIdent insIdent key : String) :
    (ownerAndPubkey ext t getIdent insIdent (a.data ext key) (a.data ext "actor")).Every Carries ↔
      AllSafe (actorWithoutKey ext a key) := by
  rw [ownerAndPubkey, actorWithoutKey]
  split_ifs with hkey
  · rw [Program.every_bind, every_exec, carries_mk]
    simp only [getaccountpubkeyandid, Statement.safe_callRows, List.forall_mem_singleton,
      allSafe_cons, allSafe_nil, and_true, and_iff_left_iff_imp]
    intro _ res _
    split_ifs
    · exact trivial
    · cases pqGetvalue res 0 1 <;> exact trivial
  · simp (disch := decide) [hb, ht]

/-- What is done for the owner of something.  The name of the owner has no quotes if that of the
account that has acted has none where it is taken over. -/
theorem carried_owner {getIdent insIdent key : String} {next : String × String → Prog Unit}
    {l : List Field} (hcan : ∀ r, (next r).Can ())
    (hnext : ∀ r, (Field.quoted r.1).Safe → ((next r).Every Carries ↔ AllSafe l)) :
    Carried (ownerAndPubkey ext t getIdent insIdent (a.data ext key) (a.data ext "actor") >>= next)
      (actorWithoutKey ext a key ++ l) := by
  refine carried_bind ?_ (ownerAndPubkey_every ext t a hb ht getIdent insIdent key) ?_ hcan hnext
  · refine ⟨if a.data ext key = unknownString then (a.data ext "actor", "")
      else (keyToAccount ext (a.data ext key), a.data ext key), ?_⟩
    rw [ownerAndPubkey_can]
    split_ifs <;> rfl
  · intro hactor r hr
    rw [ownerAndPubkey_can] at hr
    rw [actorWithoutKey] at hactor
    split_ifs at hr hactor
    · rw [hr]
      exact (allSafe_cons.mp hactor).1
    · rw [hr]
      exact (safe_account ext _).mpr trivial

theorem trnsfiopubky_carried : Carried (trnsfiopubky ext t a fktransactionid)
    [.quoted (a.data ext "actor"), .number (a.data ext "amount")] := by
  apply carried_perform
  split_ifs <;> simp (disch := decide) [hb, ht]

theorem regdomain_carried :
    Carried (regdomain ext t a fktransactionid) (regdomainValues ext a) := by
  rw [regdomainValues, List.append_assoc]
  apply carried_owner ext t a hb ht
  · rintro ⟨owneracct, pubkey⟩
    simp
  · rintro ⟨owneracct, pubkey⟩ howner
    have howner : (Field.quoted owneracct).Safe := howner
    generalize (if a.actionname = "regdomain" then "" else a.data ext "fio_address") = handle
    generalize (if a.actionname = "regdomain" then a.data ext "fio_domain" else domainOf handle) =
      domainname
    by_cases hregdomadd : a.actionname = "regdomadd"
    · rw [if_pos hregdomadd]
      simp (disch := decide) [hb, ht, howner, hregdomadd]
      grind
    · rw [if_neg hregdomadd]
      simp (disch := decide) [hb, ht, howner, hregdomadd]
      grind

theorem renewdomain_carried : Carried (renewdomain ext t a fktransactionid)
    [.quoted (a.data ext "fio_domain"),
      .quoted (normalizeContractExpirationTimestamp (a.expiration ext) a.actionname)] := by
  constructor
  · simp [renewdomain]
  · simp (disch := decide) [renewdomain, hb, ht]
    grind

theorem xferdomain_carried : Carried (xferdomain ext t a fktransactionid)
    (actorWithoutKey ext a "new_owner_fio_public_key" ++ [.quoted (a.data ext "fio_domain")]) := by
  refine carried_bind (R := fun owneracct ↦ (Field.quoted owneracct).Safe) ?_ ?_ ?_ ?_ ?_
  · rw [xferdomainOwner]
    split_ifs
    · exact ⟨a.data ext "actor", Program.can_bind.mpr ⟨[], by simp, rfl⟩⟩
    · exact ⟨keyToAccount ext (a.data ext "new_owner_fio_public_key"), by simp⟩
  · rw [xferdomainOwner, actorWithoutKey]
    split_ifs
    · rw [Program.every_bind, every_exec, carries_mk]
      simp only [getaccountpubkeyandid, Statement.safe_callRows, List.forall_mem_singleton,
        allSafe_cons, allSafe_nil, and_true, and_iff_left_iff_imp]
      intro _ res _
      split_ifs <;> exact trivial
    · simp (disch := decide) [hb, ht]
  · intro hactor owneracct howner
    rw [xferdomainOwner] at howner
    rw [actorWithoutKey] at hactor
    split_ifs at howner hactor
    · obtain ⟨res, -, howner⟩ := Program.can_bind.mp howner
      split_ifs at howner
      · exact howner.elim
      · exact Program.can_pure.mp howner ▸ (allSafe_cons.mp hactor).1
    · obtain ⟨-, -, howner⟩ := Program.can_bind.mp howner
      exact Program.can_pure.mp howner ▸ (safe_account ext _).mpr trivial
  · intro owneracct
    simp
  · intro owneracct howner
    simp (disch := decide) [hb, ht, howner]

theorem setdomainpub_carried : Carried (setdomainpub ext t a fktransactionid)
    [.quoted (a.data ext "fio_domain"), .quoted (a.data ext "is_public")] := by
  constructor
  · simp [setdomainpub]
  · rw [setdomainpub]
    split_ifs <;> simp (disch := decide) [hb, ht] <;> grind

theorem wrapdomain_carried : Carried (wrapdomain ext t a fktransactionid)
    [.quoted (a.data ext "fio_domain")] := by
  constructor
  · simp [wrapdomain]
  · simp (disch := decide) [wrapdomain, hb, ht]

theorem xferescrow_carried : Carried (xferescrow ext t a fktransactionid)
    [.quoted (a.data ext "fio_domain")] := by
  constructor
  · simp [xferescrow]
  · simp (disch := decide) [xferescrow, hb, ht]

theorem updcryptkey_carried : Carried (updcryptkey ext t a fktransactionid)
    [.quoted (a.data ext "fio_address"), .quoted (a.data ext "encrypt_public_key")] := by
  constructor
  · simp [updcryptkey]
  · simp (disch := decide) [updcryptkey, hb, ht]
    grind

theorem burnaddress_carried : Carried (burnaddress ext t a fktransactionid)
    [.quoted (a.data ext "fio_address")] := by
  constructor
  · simp [burnaddress]
  · simp (disch := decide) [burnaddress, hb, ht]

theorem newfundsreq_carried : Carried (newfundsreq ext t a fktransactionid)
    [.quoted (a.data ext "payer_fio_address"), .quoted (a.data ext "payee_fio_address"),
      .number (getjsonstring ext unknownNumberNull (a.respdoc.get "fio_request_id")
        allowEmptyValues)] := by
  constructor
  · simp [newfundsreq]
  · simp (disch := decide) [newfundsreq, hb, ht]
    grind

theorem recordobt_carried : Carried (recordobt ext t a fktransactionid)
    [.quoted (a.data ext "payer_fio_address"), .quoted (a.data ext "payee_fio_address"),
      .number (getjsonstring ext "NULL" (a.actdata.get "fio_request_id") disallowEmptyValues)] := by
  constructor
  · simp [recordobt]
  · simp (disch := decide) [recordobt, hb, ht]
    grind

/-- The end of a request. -/
theorem endRequest_carried {activityIdent statusIdent activity status : String}
    (hactivity : '\'' ∉ activity.toList) (hstatus : '\'' ∉ status.toList) :
    Carried (endRequest ext t a fktransactionid activityIdent statusIdent activity status)
      [.number (a.data ext "fio_request_id")] := by
  constructor
  · simp [endRequest]
  · simp [endRequest, hb, ht, hactivity, hstatus]

theorem regaddress_carried : Carried (regaddress ext t a fktransactionid)
    (actorWithoutKey ext a "owner_fio_public_key" ++
      [.quoted (domainOf (a.data ext "fio_address")), .quoted (a.data ext "fio_address"),
        .quoted (a.expiration ext)]) := by
  apply carried_owner ext t a hb ht
  · rintro ⟨owneracct, pubkey⟩
    simp
  · rintro ⟨owneracct, pubkey⟩ howner
    have howner : (Field.quoted owneracct).Safe := howner
    simp (disch := decide) [hb, ht, howner]
    grind

/-- An action that is only noted for a handle. -/
theorem handleActivity_carried {ident activity : String} (hactivity : '\'' ∉ activity.toList) :
    Carried (handleActivity ext t a fktransactionid ident activity)
      [.quoted (a.data ext "fio_address")] := by
  apply carried_perform
  simp [hb, ht, hactivity]

theorem addnft_carried : Carried (addnft ext t a fktransactionid)
    (.quoted (a.data ext "fio_address") :: memberValues ext a "nfts" ["chain_code"]) := by
  have hactivity : Carried (handleActivity ext t a fktransactionid "addnft" "add_nft") _ :=
    handleActivity_carried ext t a fktransactionid hb ht (by decide)
  refine hactivity.andThen (carried_forEach (fun nftdata ↦ Carried.onlyIf (carried_perform ?_)) _)
  simp [hb]

theorem remnft_carried : Carried (remnft ext t a fktransactionid)
    (.quoted (a.data ext "fio_address") ::
      memberValues ext a "nfts" ["chain_code", "contract_address", "token_id"]) := by
  have hactivity : Carried (handleActivity ext t a fktransactionid "remnft" "rem_nft") _ :=
    handleActivity_carried ext t a fktransactionid hb ht (by decide)
  refine hactivity.andThen (carried_forEach (fun nftdata ↦ Carried.onlyIf (carried_perform ?_)) _)
  simp

theorem remallnfts_carried : Carried (remallnfts ext t a fktransactionid)
    [.quoted (a.data ext "fio_address")] := by
  constructor
  · simp [remallnfts]
  · simp (disch := decide) [remallnfts, hb, ht]

theorem xferaddress_carried : Carried (xferaddress ext t a fktransactionid)
    (actorWithoutKey ext a "new_owner_fio_public_key" ++ [.quoted (a.data ext "fio_address")]) := by
  apply carried_owner ext t a hb ht
  · rintro ⟨owneracct, pubkey⟩
    simp
  · rintro ⟨owneracct, pubkey⟩ howner
    have howner : (Field.quoted owneracct).Safe := howner
    simp (disch := decide) [hb, ht, howner]

theorem remalladdr_carried : Carried (remalladdr ext t a fktransactionid)
    [.quoted (a.data ext "fio_address")] := by
  constructor
  · simp [remalladdr]
  · simp (disch := decide) [remalladdr, hb, ht]

theorem addaddress_carried : Carried (addaddress ext t a fktransactionid)
    (memberValues ext a "public_addresses" ["chain_code", "token_code"]) := by
  refine carried_forEach (fun addressdata ↦ Carried.onlyIf ?_) _
  constructor
  · simp [addPubaddress]
  · simp (disch := decide) [addPubaddress, hb, ht]
    grind

theorem remaddress_carried : Carried (remaddress ext t a fktransactionid)
    (memberValues ext a "public_addresses" ["chain_code", "token_code", "public_address"]) := by
  refine carried_forEach (fun addressdata ↦ Carried.onlyIf ?_) _
  constructor
  · simp [remPubaddress]
  · simp (disch := decide) [remPubaddress, hb, ht]

theorem fipxlviii_carried : Carried (fipxlviii t fktransactionid) [] := by
  have htable : ∀ transfer ∈ fip48Transfers,
      (Field.quoted transfer.1).Safe ∧ (Field.number transfer.2).Safe := by decide
  have hpayee : (Field.quoted "pkfbwyi2qzii").Safe := by decide
  have hcan : ∀ transfer, (fip48Transfer t fktransactionid transfer).Can () := by
    intro transfer
    simp [fip48Transfer]
  refine ⟨(can_forEach hcan _).mpr trivial, iff_of_true ?_ (allSafe_nil.mpr trivial)⟩
  refine (every_forEach hcan _).mpr fun transfer htransfer ↦ ?_
  obtain ⟨hpayer, hamount⟩ := htable transfer htransfer
  simp (disch := decide) [fip48Transfer, hb, ht, hpayer, hamount, hpayee]

/-- The statements for an action that a transaction asks for itself. -/
theorem related_carried :
    Carried (related ext t a fktransactionid) (relatedValues ext a) := by
  rw [related, relatedValues]
  refine carried_ite (trnsfiopubky_carried ext t a fktransactionid hb ht) ?_
  refine carried_ite (regdomain_carried ext t a fktransactionid hb ht) ?_
  refine carried_ite (renewdomain_carried ext t a fktransactionid hb ht) ?_
  refine carried_ite (xferdomain_carried ext t a fktransactionid hb ht) ?_
  refine carried_ite (setdomainpub_carried ext t a fktransactionid hb ht) ?_
  refine carried_ite (wrapdomain_carried ext t a fktransactionid hb ht) ?_
  refine carried_ite (xferescrow_carried ext t a fktransactionid hb ht) ?_
  refine carried_ite (updcryptkey_carried ext t a fktransactionid hb ht) ?_
  refine carried_ite carried_pure ?_
  refine carried_ite (burnaddress_carried ext t a fktransactionid hb ht) ?_
  refine carried_ite (newfundsreq_carried ext t a fktransactionid hb ht) ?_
  refine carried_ite (recordobt_carried ext t a fktransactionid hb ht) ?_
  refine carried_ite (endRequest_carried ext t a fktransactionid hb ht (by decide) (by decide)) ?_
  refine carried_ite (endRequest_carried ext t a fktransactionid hb ht (by decide) (by decide)) ?_
  refine carried_ite (regaddress_carried ext t a fktransactionid hb ht) ?_
  refine carried_ite (handleActivity_carried ext t a fktransactionid hb ht (by decide)) ?_
  refine carried_ite (handleActivity_carried ext t a fktransactionid hb ht (by decide)) ?_
  refine carried_ite (addnft_carried ext t a fktransactionid hb ht) ?_
  refine carried_ite (remnft_carried ext t a fktransactionid hb ht) ?_
  refine carried_ite (remallnfts_carried ext t a fktransactionid hb ht) ?_
  refine carried_ite (xferaddress_carried ext t a fktransactionid hb ht) ?_
  refine carried_ite (remalladdr_carried ext t a fktransactionid hb ht) ?_
  refine carried_ite (addaddress_carried ext t a fktransactionid hb ht) ?_
  refine carried_ite (remaddress_carried ext t a fktransactionid hb ht) ?_
  refine carried_ite carried_pure ?_
  refine carried_ite (carried_perform (by simp [hb])) ?_
  refine carried_ite (carried_perform (by simp [hb])) ?_
  refine carried_ite (carried_perform (by simp (disch := decide) [hb, ht])) ?_
  split_ifs
  · exact fipxlviii_carried t fktransactionid hb ht
  · exact carried_pure

omit hb ht in
/-- The statements for an action of any kind. -/
theorem tokens_carried : Carried (tokens ext t a fktransactionid) (tokenValues ext t a) := by
  have htype : ∀ memo, (Field.constant (transferType memo)).Safe := by
    intro memo
    have htable : ∀ type ∈ memoTypes, (Field.constant type.2).Safe := by decide
    rw [transferType]
    cases hfind : memoTypes.find? fun type ↦ contains memo type.1 with
    | none => exact (by decide : (Field.constant "transfer").Safe)
    | some type => exact htable type (List.mem_of_find?_eq_some hfind)
  rw [tokens, tokenValues]
  split_ifs
  · apply carried_perform
    simp [htype]
  · have heosio : (Field.quoted "eosio").Safe := by decide
    apply carried_perform
    simp (disch := decide) [heosio]
  · constructor
    · simp [bind2eosio]
    · simp (disch := decide) [bind2eosio]
      grind
  · exact carried_pure

end Actions

/-! ## Transactions -/

section Transactions

variable (t : Transaction) (a : Action) (fktransactionid : Int) (m : Members)

/-- What is left after an action that a transaction asks for itself. -/
theorem ownTrace_can (hb : (Field.number t.bnums).Safe) (ht : (Field.quoted t.blocktimestamp).Safe)
    (r : Int × Members) : (ownTrace ext t a fktransactionid m).Can r ↔
      ∃ res, r = (firstNumber res fktransactionid,
        remember ext t a (firstNumber res fktransactionid) m) := by
  rw [ownTrace, Program.can_bind]
  constructor
  · rintro ⟨res, -, hr⟩
    obtain ⟨-, -, hr⟩ := Program.can_bind.mp hr
    exact ⟨res, (Program.can_pure.mp hr).symm⟩
  · rintro ⟨res, rfl⟩
    refine ⟨res, (can_exec res).mpr trivial, Program.can_bind.mpr ⟨(), ?_, rfl⟩⟩
    exact (related_carried ext t a _ hb ht).can

theorem innerTrace_can (r : Int × Members) :
    (innerTrace t a fktransactionid m).Can r ↔ r = (fktransactionid, m) := by
  rw [innerTrace, Program.can_bind]
  simp only [can_onlyIf, can_perform, implies_true, true_and, exists_const]
  exact eq_comm

theorem ownTrace_every :
    (ownTrace ext t a fktransactionid m).Every Carries ↔ AllSafe (ownValues ext t a) := by
  have hown : (instransactions t.bnums t.blocktimestamp t.trid a.contractaccount a.actionaccount
      a.actionname a.tpid a.feeamount a.requestdata a.response t.status).Safe ↔
      AllSafe [.number t.bnums, .quoted t.blocktimestamp, .quoted t.trid, .quoted a.contractaccount,
        .quoted a.actionaccount, .quoted a.actionname, .quoted a.tpid, .number a.feeamount,
        .quoted a.response, .quoted t.status] := by
    simp
  rw [ownTrace, Program.every_bind, every_exec, carries_mk, hown, ownValues, allSafe_append]
  refine and_congr_right fun h ↦ ?_
  have hb := (allSafe_cons.mp h).1
  have ht := (allSafe_cons.mp (allSafe_cons.mp h).2).1
  have hrelated := fun fk ↦ (related_carried ext t a fk hb ht).every
  constructor
  · exact fun h ↦ (hrelated _).mp (Program.every_bind.mp (h [] ((can_exec _).mpr trivial))).1
  · exact fun h res _ ↦ Program.every_bind.mpr ⟨(hrelated _).mpr h, fun _ _ ↦ trivial⟩

theorem innerTrace_every : (innerTrace t a fktransactionid m).Every Carries ↔
    AllSafe
      (if 1 < ordinal a.actionordinal ∧ -1 < fktransactionid then innerValues t a else []) := by
  rw [innerTrace, Program.every_bind, every_onlyIf, every_perform, carries_mk]
  split_ifs with h
  · simp [h, innerValues]
  · simp [h]

/-- The row of a transaction, and what is kept, after an action. -/
def RowAfter (r : Int × Members) : Prop :=
  if a.IsOwn then ∃ res, r = (firstNumber res fktransactionid,
    remember ext t a (firstNumber res fktransactionid) m)
  else r = (fktransactionid, m)

theorem rowAfter_some : ∃ r, RowAfter ext t a fktransactionid m r := by
  rw [funext fun r ↦ RowAfter.eq_1 ext t a fktransactionid m r]
  split_ifs
  · exact ⟨_, [], rfl⟩
  · exact ⟨_, rfl⟩

theorem rowTrace_every : (rowTrace ext t a fktransactionid m).Every Carries ↔
    AllSafe (actionValues ext t a (-1 < fktransactionid)) := by
  rw [rowTrace, actionValues]
  split_ifs with hown hrow
  · exact ownTrace_every ext t a fktransactionid m
  · rw [innerTrace_every, if_pos ⟨hrow.1, of_decide_eq_true hrow.2⟩]
  · rw [innerTrace_every, if_neg fun h ↦ hrow ⟨h.1, decide_eq_true h.2⟩]

theorem rowTrace_can (h : AllSafe (actionValues ext t a (-1 < fktransactionid)))
    (r : Int × Members) :
    (rowTrace ext t a fktransactionid m).Can r ↔ RowAfter ext t a fktransactionid m r := by
  rw [rowTrace, RowAfter]
  rw [actionValues] at h
  split_ifs at h ⊢
  · rw [ownValues, allSafe_append] at h
    have hb := (allSafe_cons.mp h.1).1
    have ht := (allSafe_cons.mp (allSafe_cons.mp h.1).2).1
    exact ownTrace_can ext t a fktransactionid m hb ht r
  · exact innerTrace_can t a fktransactionid m r
  · exact innerTrace_can t a fktransactionid m r

/-- What one action leads to, and what it leaves. -/
theorem actionTrace_every {Q : Int × Members → Prop} {next : Int × Members → Prog Members}
    (hnext : ∀ r, (next r).Every Carries ↔ Q r) :
    (actionTrace ext t a fktransactionid m >>= next).Every Carries ↔
      AllSafe (actionValues ext t a (-1 < fktransactionid)) ∧ AllSafe (tokenValues ext t a) ∧
        ∀ r, RowAfter ext t a fktransactionid m r → Q r := by
  have htokens := fun fk ↦ tokens_carried ext t a fk
  rw [Program.every_bind, actionTrace, Program.every_bind, rowTrace_every, and_assoc]
  refine and_congr_right fun hvalues ↦ ?_
  have hcan := rowTrace_can ext t a fktransactionid m hvalues
  have hdone : ∀ r, (rowTrace ext t a fktransactionid m >>= fun r ↦ do
      tokens ext t a r.1
      pure r).Can r ↔ RowAfter ext t a fktransactionid m r := by
    intro r
    rw [Program.can_bind]
    constructor
    · rintro ⟨r', hr', hr⟩
      obtain ⟨-, -, hr⟩ := Program.can_bind.mp hr
      exact Program.can_pure.mp hr ▸ (hcan r').mp hr'
    · exact fun hr ↦ ⟨r, (hcan r).mpr hr, Program.can_bind.mpr ⟨(), (htokens _).can, rfl⟩⟩
  refine and_congr ?_ (forall_congr' fun r ↦ ?_)
  · obtain ⟨r, hr⟩ := rowAfter_some ext t a fktransactionid m
    constructor
    · exact fun h ↦ (htokens _).every.mp (Program.every_bind.mp (h r ((hcan r).mpr hr))).1
    · exact fun h r _ ↦ Program.every_bind.mpr ⟨(htokens _).every.mpr h, fun _ _ ↦ trivial⟩
  · rw [hdone, hnext]

omit a fktransactionid m in
/-- If the transaction may have a row, no fewer values are written. -/
theorem AllSafe.of_entered {l : List Json} {entered : Bool}
    (h : AllSafe (traceValues ext t true l)) : AllSafe (traceValues ext t entered l) := by
  cases entered with
  | true => exact h
  | false =>
      induction l with
      | nil => exact h
      | cons object l ih =>
          rw [traceValues] at h ⊢
          split_ifs at h ⊢
          · dsimp only at h ⊢
            rw [allSafe_append, allSafe_append, actionValues] at h ⊢
            rw [Bool.true_or] at h
            obtain ⟨⟨haction, htokens⟩, hrest⟩ := h
            refine ⟨⟨?_, htokens⟩, ?_⟩
            · by_cases hown : (readAction ext object).IsOwn
              · rw [if_pos hown] at haction ⊢
                exact haction
              · rw [if_neg hown, if_neg fun h ↦ absurd h.2 Bool.false_ne_true]
                exact allSafe_nil.mpr trivial
            · rw [Bool.false_or]
              cases decide (readAction ext object).IsOwn with
              | true => exact hrest
              | false => exact ih hrest
          · exact ih h

omit a fktransactionid m in
/-- What a transaction leads to. -/
theorem actionTraces_every (l : List Json) (fktransactionid : Int) (m : Members) :
    (actionTraces ext t fktransactionid m l).Every Carries ↔
      AllSafe (traceValues ext t (-1 < fktransactionid) l) := by
  induction l generalizing fktransactionid m with
  | nil => exact iff_of_true trivial (allSafe_nil.mpr trivial)
  | cons object l ih =>
      rw [actionTraces, traceValues]
      split_ifs
      · refine (actionTrace_every ext t _ fktransactionid m fun r ↦ ih r.1 r.2).trans ?_
        dsimp only
        rw [allSafe_append, allSafe_append, and_assoc]
        refine and_congr_right fun _ ↦ and_congr_right fun _ ↦ ?_
        simp only [RowAfter]
        split_ifs with hown
        · rw [decide_eq_true hown, Bool.or_true]
          constructor
          · -- the database may answer with a row
            intro h
            have hzero : firstNumber [["0"]] fktransactionid = 0 := (by decide : atoi "0" = 0)
            have h := h _ ⟨[["0"]], rfl⟩
            rw [hzero] at h
            exact h
          · exact fun h r _ ↦ h.of_entered ext t
        · rw [decide_eq_false hown, Bool.or_false]
          exact forall_eq
      · exact ih fktransactionid m

end Transactions

/-! ## The end of a block -/

theorem makeHandleBurnt_can (handle : String) (l : List Json) :
    (makeHandleBurnt ext handle l).Can true := by
  induction l with
  | nil => exact rfl
  | cons object l ih =>
      rw [makeHandleBurnt]
      split_ifs
      · refine Program.can_bind.mpr ⟨[["1"]], (can_exec _).mpr trivial, ?_⟩
        have hone : firstNumber [["1"]] 0 = 1 := by decide
        rw [hone]
        exact ih
      · exact ih

theorem makeHandleBurnt_every (handle : String) (document : Json) :
    (makeHandleBurnt ext handle
      (((document.get "kvo").get "value").get "addresses").getArray).Every Carries ↔
      AllSafe (addressValues ext handle document) := by
  rw [addressValues]
  induction (((document.get "kvo").get "value").get "addresses").getArray with
  | nil => exact iff_of_true trivial (allSafe_nil.mpr trivial)
  | cons object l ih =>
      rw [makeHandleBurnt, List.flatMap_cons, allSafe_append, ← ih]
      split_ifs
      · rw [Program.every_bind, every_exec, carries_mk]
        refine and_congr (by simp) ?_
        constructor
        · intro h
          have hone : firstNumber [["1"]] 0 = 1 := by decide
          have h := h [["1"]] ((can_exec _).mpr trivial)
          rw [hone] at h
          exact h
        · intro h res _
          split_ifs
          · exact trivial
          · exact h
      · simp

section Burn

variable (m : Members) (bnums : String)

/-- What is done with a domain or a handle that was burnt: it is updated, and that is noted if
there was one. -/
theorem burn_carried (ident activityIdent : String) {update activity : Statement} {l : List Field}
    (h : update.Safe ∧ activity.Safe ↔ AllSafe l) :
    Carried (do
      let res ← exec ident update
      onlyIf (firstNumber res 0 = 1) (perform activityIdent activity)) l := by
  have hone : firstNumber [["1"]] 0 = 1 := by decide
  refine ⟨Program.can_bind.mpr ⟨[], (can_exec _).mpr trivial, by simp⟩, ?_⟩
  rw [Program.every_bind, every_exec, carries_mk, ← h]
  refine and_congr_right fun _ ↦ ?_
  constructor
  · exact fun h ↦ every_perform.mp (every_onlyIf.mp (h [["1"]] ((can_exec _).mpr trivial)) hone)
  · exact fun h res _ ↦ every_onlyIf.mpr fun _ ↦ every_perform.mpr h

theorem burnDomains_carried :
    Carried (burnDomains ext m bnums m.domainjsons) (burnDomainValues ext m bnums) := by
  rw [burnDomainValues]
  induction m.domainjsons with
  | nil => exact carried_pure
  | cons datastr l ih =>
      rw [burnDomains, List.flatMap_cons]
      refine Carried.andThen (Carried.onlyIf (burn_carried _ _ ?_)) ih
      simp (disch := decide)
      tauto

theorem burnHandles_carried (document : Json) :
    Carried (burnHandles ext m document bnums m.handlejsons)
      (burnHandleValues ext m document bnums) := by
  rw [burnHandleValues]
  induction m.handlejsons with
  | nil => exact carried_pure
  | cons datastr l ih =>
      rw [burnHandles, List.flatMap_cons]
      refine Carried.andThen (Carried.onlyIf ?_) ih
      have hsafe : (updhandleburnt bnums (keptRow ext datastr).1).Safe ∧
          (inshandleactivities bnums (keptRow ext datastr).1 "auto_burn" m.burnexpiredtimestamp
            m.burnexpiredtrid).Safe ↔ AllSafe [.number bnums, .quoted (keptRow ext datastr).1,
              .quoted m.burnexpiredtimestamp] := by
        simp (disch := decide)
        grind
      have hburn := burn_carried "burnhandle" "burnhandleactivity" hsafe
      have hmake := makeHandleBurnt_can ext (keptRow ext datastr).1
        (((document.get "kvo").get "value").get "addresses").getArray
      constructor
      · exact Program.can_bind.mpr ⟨true, hmake, can_onlyIf.mpr fun _ ↦ hburn.can⟩
      · refine Program.every_bind.trans (Iff.trans ?_ allSafe_append.symm)
        refine and_congr (makeHandleBurnt_every ext _ document) ?_
        constructor
        · exact fun h ↦ hburn.every.mp (every_onlyIf.mp (h true hmake) rfl)
        · exact fun h _ _ ↦ every_onlyIf.mpr fun _ ↦ hburn.every.mpr h

end Burn

/-! ## Messages -/

theorem blockCompleted_every (m : Members) (document : Json) (bnums : String) (bnum : Nat) :
    (blockCompleted ext m document bnums bnum).Every Carries ↔
      AllSafe (blockCompletedValues ext m document bnums) := by
  have hburn := (burnDomains_carried ext m bnums).andThen (burnHandles_carried ext m bnums document)
  have hburn := hburn.onlyIf (c := m.burnexpiredthisblock = true)
  refine Program.every_bind.trans ((and_iff_left ?_).trans hburn.every)
  exact fun _ _ ↦ Program.every_bind.mpr ⟨trivial, fun _ _ ↦ trivial⟩

theorem handleEvent_every (m : Members) (document : Json) (msgtype bnums : String) (bnum : Nat) :
    (handleEvent ext m document msgtype bnums bnum).Every Carries ↔
      AllSafe (eventValues ext m document msgtype bnums) := by
  rw [handleEvent, eventValues]
  split_ifs
  · exact blockCompleted_every ext m document bnums bnum
  · rw [Program.every_bind, block, every_perform, carries_mk]
    simp [blockValues]
  · exact actionTraces_every ext _ _ (-1) m
  · exact iff_of_true trivial (allSafe_nil.mpr trivial)
  · rw [Program.every_bind, fork]
    simp
  · exact iff_of_true trivial (allSafe_nil.mpr trivial)

/-- What a message leads to. -/
theorem handle_every (msg : Msgbuf) (m : Members) :
    (handle ext msg m).Every Carries ↔ AllSafe (rawValues ext msg m) := by
  have hnil : AllSafe [] := allSafe_nil.mpr trivial
  rw [handle, rawValues]
  dsimp only
  split_ifs
  · cases stoul (getString (((ext.parse msg).get "data").get "block_num")) with
    | none => exact iff_of_true trivial hnil
    | some n => exact handleEvent_every ext m _ _ _ _
  · exact iff_of_true trivial hnil

/-- **Whatever the database answers, every statement of a message is read back as one call whose
literals denote the values that were read for them, exactly if every value of the message that is
written as it is between quotes has no quotes, and every one without quotes is a number or
`NULL`.  The values that `addnft` and `addaddress` store are those that `remnft` and `remaddress`
look for.** -/
theorem statements_carry_values_iff (hext : EscapesLiterals ext) :
    (∀ (msg : Msgbuf) (m : Members),
      (∀ answers, ∀ d ∈ ((handle ext msg m).run answers).trace, ∀ q ∈ d.question?,
        Sql.lex .between (q.statement.text ext) = some q.statement.call.tokens) ↔
      ∀ f ∈ rawValues ext msg m, f.Safe) ∧
    (∀ bnums handle nftdata, (remnftStatement ext handle nftdata).call.strings =
      (addnftStatement ext bnums handle nftdata).call.strings.take 4) ∧
    ∀ bnums handle addressdata, (remaddressStatement ext handle addressdata).call.strings =
      (addaddressStatement ext bnums handle addressdata).call.strings := by
  refine ⟨fun msg m ↦ ?_, fun bnums handle nftdata ↦ ?_, fun bnums handle addressdata ↦ ?_⟩
  · rw [← AllSafe, ← handle_every ext msg m, Program.every_iff]
    refine forall_congr' fun answers ↦ forall₂_congr fun d _ ↦ forall₂_congr fun q _ ↦ ?_
    exact Statement.lex_text_iff hext q.statement
  · rw [Sql.Call.strings_eq, Sql.Call.strings_eq]
    rfl
  · rw [Sql.Call.strings_eq, Sql.Call.strings_eq]
    rfl

/-- What `PQescapeLiteral` returns. -/
def escapeLiteral (s : String) : String :=
  String.ofList (if '\\' ∈ s.toList then Sql.literal s.toList
    else Sql.quoted (Sql.escaped s.toList))

/-- The data of a `remnft`. -/
def remnftData (tokenid : String) : String :=
  "\x7b\"fio_address\":\"alice@fio\",\"nfts\":[\x7b\"chain_code\":\"ETH\",\"cont" ++
    "ract_address\":\"0x1\",\"token_id\":\"" ++ tokenid ++
    "\"\x7d],\"max_fee\":0,\"actor\":\"alice\",\"tpid\":\"\"\x7d"

/-- A message with it. -/
def remnftText (tokenid : String) : String :=
  "\x7b\"msgtype\":\"TX_TRACE\",\"data\":\x7b\"block_num\":\"100\",\"block_times" ++
    "tamp\":\"2024-01-01T00:00:00.000\",\"trace\":\x7b\"id\":\"ab12\",\"status\":\"" ++
    "executed\",\"action_traces\":[\x7b\"action_ordinal\":1,\"creator_action_ordin" ++
    "al\":0,\"receipt\":\x7b\"response\":\"\x7b\\\"status\\\":\\\"OK\\\",\\\"fee_c" ++
    "ollected\\\":100000000\x7d\"\x7d,\"receiver\":\"fio.address\",\"act\":\x7b\"a" ++
    "ccount\":\"fio.address\",\"name\":\"remnft\",\"authorization\":[\x7b\"actor\"" ++
    ":\"alice\",\"permission\":\"active\"\x7d],\"data\":" ++ remnftData tokenid ++ "\x7d\x7d]\x7d\x7d\x7d"

def remnftResponse : String := "\x7b\"status\":\"OK\",\"fee_collected\":100000000\x7d"

/-- The value of the message. -/
def remnftDocument (tokenid : String) : Json :=
  .object [("msgtype", .string "TX_TRACE"), ("data", .object [("block_num", .string "100"),
    ("block_timestamp", .string "2024-01-01T00:00:00.000"), ("trace", .object [
      ("id", .string "ab12"), ("status", .string "executed"), ("action_traces", .array [.object [
        ("action_ordinal", .number "1"), ("creator_action_ordinal", .number "0"),
        ("receipt", .object [("response", .string remnftResponse)]),
        ("receiver", .string "fio.address"), ("act", .object [("account", .string "fio.address"),
          ("name", .string "remnft"), ("authorization", .array [.object [
            ("actor", .string "alice"), ("permission", .string "active")]]),
          ("data", .object [("fio_address", .string "alice@fio"), ("nfts", .array [.object [
            ("chain_code", .string "ETH"), ("contract_address", .string "0x1"),
            ("token_id", .string tokenid)]]), ("max_fee", .number "0"),
            ("actor", .string "alice"), ("tpid", .string "")])])]])])])]

/-- Libraries that know this message. -/
def remnftExternals (tokenid : String) : Externals where
  parse text :=
    if text = remnftResponse.toUTF8.toList then
      .object [("status", .string "OK"), ("fee_collected", .number "100000000")]
    else if text = (remnftText tokenid).toUTF8.toList then remnftDocument tokenid
    else .null
  write
    | .object _ => remnftData tokenid
    | .number text => text
    | _ => ""
  pqEscapeLiteral s := some (escapeLiteral s)
  shortenKey _ := 0

theorem remnftExternals_escapes (tokenid : String) : EscapesLiterals (remnftExternals tokenid) := by
  intro s
  refine ⟨escapeLiteral s, rfl, ?_⟩
  rw [escapeLiteral, String.toList_ofList]
  split_ifs with h
  · exact .inr rfl
  · exact .inl ⟨h, rfl⟩

/-- The message is read. -/
theorem remnftExternals_parse (tokenid : String)
    (h : (remnftText tokenid).toUTF8.toList ≠ remnftResponse.toUTF8.toList) :
    (remnftExternals tokenid).parse (remnftText tokenid).toUTF8.toList = remnftDocument tokenid :=
  (if_neg h).trans (if_pos rfl)

set_option maxRecDepth 10000 in
theorem statements_carry_values_remnft : EscapesLiterals (remnftExternals "7") ∧ ∀ answers,
    ∀ d ∈ ((handle (remnftExternals "7") (remnftText "7").toUTF8.toList {}).run answers).trace,
      ∀ q ∈ d.question?, Sql.lex .between (q.statement.text (remnftExternals "7")) =
        some q.statement.call.tokens := by
  refine ⟨remnftExternals_escapes "7", ?_⟩
  have hparse := remnftExternals_parse "7" (by decide +kernel)
  have hsafe : ∀ f ∈ rawValues (remnftExternals "7") (remnftText "7").toUTF8.toList {}, f.Safe := by
    rw [rawValues, hparse]
    decide +kernel
  exact ((statements_carry_values_iff _ (remnftExternals_escapes "7")).1 _ _).mpr hsafe

set_option maxRecDepth 10000 in
/-- A quote in the identifier of a token that is removed ends a literal. -/
theorem quote_ends_literal : EscapesLiterals (remnftExternals "it's") ∧
    ∃ d ∈ ((handle (remnftExternals "it's") (remnftText "it's").toUTF8.toList {}).run
      fun _ ↦ some [["1"]]).trace, ∃ q, d.question? = some q ∧
        Sql.lex .between (q.statement.text (remnftExternals "it's")) ≠
          some q.statement.call.tokens := by
  refine ⟨remnftExternals_escapes "it's", ?_⟩
  have hparse := remnftExternals_parse "it's" (by decide +kernel)
  have hlast : (((handle (remnftExternals "it's") (remnftText "it's").toUTF8.toList {}).run
      fun _ ↦ some [["1"]]).trace.any fun d ↦ d.question?.any fun q ↦ !q.statement.Safe) = true := by
    rw [handle, hparse]
    decide +kernel
  obtain ⟨d, hd, hq⟩ := List.any_eq_true.mp hlast
  obtain ⟨q, hq, hunsafe⟩ := (Option.any_eq_true _ _).mp hq
  refine ⟨d, hd, q, hq, fun hlex ↦ ?_⟩
  have hsafe := (Statement.lex_text_iff (remnftExternals_escapes "it's") q.statement).mp hlex
  rw [decide_eq_true hsafe] at hunsafe
  exact absurd hunsafe Bool.false_ne_true

end Chronicle.Relic
