import Chronicle.Logic.Telling
import Chronicle.Relic.Handler

/-!
# What the Relic exporter acknowledges

Only the ends of blocks and forks are acknowledged, and each of them after everything that is
done for it: no action of a transaction and no row calls `ack_block`.
-/

namespace Chronicle.Relic

variable (ext : Externals)

/-! ## Statements -/

section Steps

variable {uniqueident : String} {statement : Statement} {c : Prop} [Decidable c] {p : Prog Unit}

@[simp]
theorem silent_exec : (exec uniqueident statement).TellsJust [] ↔ True :=
  iff_true_intro fun _ ↦ rfl

@[simp]
theorem silent_perform : (perform uniqueident statement).TellsJust [] ↔ True :=
  iff_true_intro fun _ ↦ rfl

@[simp]
theorem silent_onlyIf : (onlyIf c p).TellsJust [] ↔ (c → p.TellsJust []) := by
  rw [onlyIf]
  split_ifs with hc
  · exact ⟨fun h _ ↦ h, fun h ↦ h hc⟩
  · exact iff_of_true rfl fun h ↦ absurd h hc

theorem silent_forEach {α : Type} {f : α → Prog Unit} (hf : ∀ x, (f x).TellsJust [])
    (l : List α) : (forEach f l).TellsJust [] := by
  induction l with
  | nil => exact rfl
  | cons x l ih => exact (hf x).silent_bind fun _ ↦ ih

theorem ackBlock_tells (bnum : Nat) : (ackBlock bnum).TellsJust [bnum] := ⟨[], rfl, rfl⟩

end Steps

/-! ## Actions -/

section Actions

variable (t : Transaction) (a : Action) (n : Int)

theorem ownerAndPubkey_silent (getIdent insIdent pubkeyt actoraccount : String) :
    (ownerAndPubkey ext t getIdent insIdent pubkeyt actoraccount).TellsJust [] := by
  rw [ownerAndPubkey]
  refine Program.TellsJust.ite ?_ (by simp)
  intro res
  change (if _ then _ else _ : Prog _).TellsJust []
  refine Program.TellsJust.ite trivial ?_
  cases pqGetvalue res 0 1 with
  | none => trivial
  | some pubkeyt => exact rfl

theorem xferdomainOwner_silent (pubkeyt actoraccount : String) :
    (xferdomainOwner ext t pubkeyt actoraccount).TellsJust [] := by
  rw [xferdomainOwner]
  refine Program.TellsJust.ite ?_ (by simp)
  intro res
  exact Program.TellsJust.ite trivial rfl

theorem regdomain_silent : (regdomain ext t a n).TellsJust [] :=
  (ownerAndPubkey_silent ext t _ _ _ _).silent_bind fun _ ↦ by simp

theorem xferdomain_silent : (xferdomain ext t a n).TellsJust [] :=
  (xferdomainOwner_silent ext t _ _).silent_bind fun _ ↦ by simp

theorem regaddress_silent : (regaddress ext t a n).TellsJust [] :=
  (ownerAndPubkey_silent ext t _ _ _ _).silent_bind fun _ ↦ by simp

theorem xferaddress_silent : (xferaddress ext t a n).TellsJust [] :=
  (ownerAndPubkey_silent ext t _ _ _ _).silent_bind fun _ ↦ by simp

theorem addnft_silent : (addnft ext t a n).TellsJust [] := by
  rw [addnft, Program.silent_bind_iff]
  exact ⟨silent_perform.mpr trivial, fun _ _ ↦ silent_forEach (fun _ ↦ by simp) _⟩

theorem remnft_silent : (remnft ext t a n).TellsJust [] := by
  rw [remnft, Program.silent_bind_iff]
  exact ⟨silent_perform.mpr trivial, fun _ _ ↦ silent_forEach (fun _ ↦ by simp) _⟩

/-- The statements for an action that a transaction asks for itself. -/
theorem related_silent : (related ext t a n).TellsJust [] := by
  rw [related]
  refine Program.TellsJust.ite (by simp [trnsfiopubky]) ?_
  refine Program.TellsJust.ite (regdomain_silent ext t a n) ?_
  refine Program.TellsJust.ite (by simp [renewdomain]) ?_
  refine Program.TellsJust.ite (xferdomain_silent ext t a n) ?_
  refine Program.TellsJust.ite (by simp [setdomainpub]) ?_
  refine Program.TellsJust.ite (by simp [wrapdomain]) ?_
  refine Program.TellsJust.ite (by simp [xferescrow]) ?_
  refine Program.TellsJust.ite (by simp [updcryptkey]) ?_
  refine Program.TellsJust.ite rfl ?_
  refine Program.TellsJust.ite (by simp [burnaddress]) ?_
  refine Program.TellsJust.ite (by simp [newfundsreq]) ?_
  refine Program.TellsJust.ite (by simp [recordobt]) ?_
  refine Program.TellsJust.ite (by simp [cancelfndreq, endRequest]) ?_
  refine Program.TellsJust.ite (by simp [rejectfndreq, endRequest]) ?_
  refine Program.TellsJust.ite (regaddress_silent ext t a n) ?_
  refine Program.TellsJust.ite (by simp [renewaddress, handleActivity]) ?_
  refine Program.TellsJust.ite (by simp [addbundles, handleActivity]) ?_
  refine Program.TellsJust.ite (addnft_silent ext t a n) ?_
  refine Program.TellsJust.ite (remnft_silent ext t a n) ?_
  refine Program.TellsJust.ite (by simp [remallnfts]) ?_
  refine Program.TellsJust.ite (xferaddress_silent ext t a n) ?_
  refine Program.TellsJust.ite (by simp [remalladdr]) ?_
  refine Program.TellsJust.ite (silent_forEach (fun _ ↦ by simp [addPubaddress]) _) ?_
  refine Program.TellsJust.ite (silent_forEach (fun _ ↦ by simp [remPubaddress]) _) ?_
  refine Program.TellsJust.ite rfl ?_
  refine Program.TellsJust.ite (by simp [stakefio]) ?_
  refine Program.TellsJust.ite (by simp [unstakefio]) ?_
  refine Program.TellsJust.ite (by simp [retire]) ?_
  exact Program.TellsJust.ite (silent_forEach (fun _ ↦ by simp [fip48Transfer]) _) rfl

/-- The statements for an action of any kind. -/
theorem tokens_silent : (tokens ext t a n).TellsJust [] := by
  rw [tokens]
  refine Program.TellsJust.ite (by simp [transfer]) ?_
  refine Program.TellsJust.ite (by simp [issue]) ?_
  exact Program.TellsJust.ite (by simp [bind2eosio]) rfl

theorem rowTrace_silent (m : Members) : (rowTrace ext t a n m).TellsJust [] := by
  rw [rowTrace]
  refine Program.TellsJust.ite ?_ (by simp [innerTrace])
  exact (silent_exec.mpr trivial).silent_bind fun _ ↦
    (related_silent ext t a _).silent_bind fun _ ↦ rfl

theorem actionTrace_silent (m : Members) : (actionTrace ext t a n m).TellsJust [] :=
  (rowTrace_silent ext t a n m).silent_bind fun _ ↦
    (tokens_silent ext t a _).silent_bind fun _ ↦ rfl

end Actions

theorem actionTraces_silent (t : Transaction) (n : Int) (m : Members) (objects : List Json) :
    (actionTraces ext t n m objects).TellsJust [] := by
  induction objects generalizing n m with
  | nil => exact rfl
  | cons object objects ih =>
      refine Program.TellsJust.ite ?_ (ih n m)
      exact (actionTrace_silent ext t _ n m).silent_bind fun _ ↦ ih _ _

/-! ## The end of a block -/

section Blocks

variable (m : Members) (bnums : String)

theorem burnDomains_silent (l : List String) : (burnDomains ext m bnums l).TellsJust [] := by
  induction l with
  | nil => exact rfl
  | cons datastr l ih =>
      refine Program.TellsJust.silent_bind ?_ fun _ ↦ ih
      simp

theorem makeHandleBurnt_silent (handle : String) (objects : List Json) :
    (makeHandleBurnt ext handle objects).TellsJust [] := by
  induction objects with
  | nil => exact rfl
  | cons object objects ih =>
      refine Program.TellsJust.ite ?_ ih
      exact (silent_exec.mpr trivial).silent_bind fun _ ↦ Program.TellsJust.ite rfl ih

theorem burnHandles_silent (document : Json) (l : List String) :
    (burnHandles ext m document bnums l).TellsJust [] := by
  induction l with
  | nil => exact rfl
  | cons datastr l ih =>
      refine Program.TellsJust.silent_bind (silent_onlyIf.mpr fun _ ↦ ?_) fun _ ↦ ih
      exact (makeHandleBurnt_silent ext _ _).silent_bind fun _ ↦ by simp

theorem blockCompleted_tells (document : Json) (bnum : Nat) :
    (blockCompleted ext m document bnums bnum).TellsJust [Uint32.sub bnum 1] := by
  refine Program.TellsJust.bind (l := []) (silent_onlyIf.mpr fun _ ↦ ?_) fun _ ↦
    (ackBlock_tells _).bind fun _ ↦ rfl
  exact (burnDomains_silent ext m bnums _).silent_bind fun _ ↦
    burnHandles_silent ext m bnums document _

theorem fork_tells (bnum : Nat) : (fork bnums bnum).TellsJust [Uint32.sub bnum 1] :=
  Program.TellsJust.bind (l := []) (silent_perform.mpr trivial) fun _ ↦ ackBlock_tells _

/-- What is acknowledged for a message of a type. -/
def acksOf (msgtype : String) (bnum : Nat) : List Nat :=
  if msgtype = "BLOCK_COMPLETED" ∨ msgtype = "FORK" then [Uint32.sub bnum 1] else []

theorem handleEvent_tells (document : Json) (msgtype : String) (bnum : Nat) :
    (handleEvent ext m document msgtype bnums bnum).TellsJust (acksOf msgtype bnum) := by
  rw [handleEvent, acksOf]
  by_cases hcompleted : msgtype = "BLOCK_COMPLETED"
  · rw [if_pos hcompleted, if_pos (.inl hcompleted)]
    exact blockCompleted_tells ext m bnums document bnum
  by_cases hfork : msgtype = "FORK"
  · subst hfork
    rw [if_neg (by decide), if_neg (by decide), if_neg (by decide), if_neg (by decide), if_pos rfl,
      if_pos (.inr rfl)]
    exact (fork_tells bnums bnum).bind fun _ ↦ rfl
  rw [if_neg hcompleted, if_neg (not_or.mpr ⟨hcompleted, hfork⟩), if_neg hfork]
  refine Program.TellsJust.ite ?_ (Program.TellsJust.ite ?_ (Program.TellsJust.ite rfl rfl))
  · exact (silent_perform.mpr trivial).silent_bind fun _ ↦ rfl
  · exact actionTraces_silent ext _ _ _ _

end Blocks

end Chronicle.Relic
