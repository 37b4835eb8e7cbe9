import Chronicle.Block.Effect
import Chronicle.Logic.Effect

/-!
# A rule for the parts of a block

What `receive_block`, `receive_deltas` and `receive_traces` do is the same for every
invariant: they publish events of the block, set ABIs one by one, and ask for ABIs to
decode with; and they throw exactly when a part that they unpack cannot be unpacked.

`BlockRule` lists what an invariant has to withstand for that.  It is indexed by the
tables, so that the same rule also computes the effect of the block on them.
-/

namespace Chronicle

open Store Effect

variable {Abi : Type} (lib : Abieos Abi)

/-! ## Events of a block -/

/-- The block that an event belongs to.  Deltas as a whole carry no block number. -/
def Event.block? : Event → Option Nat
  | .blockStarted e => some e.blockNum
  | .block e => some e.blockNum
  | .transactionTrace e => some e.blockNum
  | .abiUpdate e => some e.blockNum
  | .abiRemoval e => some e.blockNum
  | .abiError e => some e.blockNum
  | .tableRowUpdate e => some e.blockNum
  | .permissionUpdate e => some e.blockNum
  | .permissionLinkUpdate e => some e.blockNum
  | .accountMetadataUpdate e => some e.blockNum
  | .blockCompleted e => some e.blockNum
  | .blockTableDelta _ | .fork _ | .receiverPause _ => none

/-- An event that is published while block `h` is processed, before it is completed. -/
def Event.Inside (h : Nat) : Event → Prop
  | .fork _ | .receiverPause _ | .blockCompleted _ => False
  | .blockTableDelta _ => True
  | e => e.block? = some h

/-! ## Programs that only fail to read -/

/-- The program returns. -/
def Returns {α : Type} (P : World Abi → Prop) (m : Receiver Abi α) (Q : World Abi → Prop) : Prop :=
  Triple P m (fun _ ↦ Q) (fun _ _ ↦ False)

theorem Returns.bind {α β : Type} {P Q R : World Abi → Prop} {m : Receiver Abi α}
    {n : α → Receiver Abi β} (hm : Returns P m Q) (hn : ∀ a, Returns Q (n a) R) :
    Returns P (m >>= n) R := Triple.bind hm hn

theorem Returns.get_bind {β : Type} {P R : World Abi → Prop} {n : World Abi → Receiver Abi β}
    (hn : ∀ w, P w → Returns (fun w' ↦ w' = w) (n w) R) : Returns P (get >>= n) R :=
  Triple.get_bind fun w hw ↦ hn w hw w rfl

theorem Returns.mono {α : Type} {P P' Q Q' : World Abi → Prop} {m : Receiver Abi α}
    (h : Returns P m Q) (hP : ∀ w, P' w → P w) (hQ : ∀ w, Q w → Q' w) : Returns P' m Q' :=
  Triple.mono h hP (fun _ ↦ hQ) fun _ _ h ↦ h

/-- A conditional statement with more statements after it. -/
theorem Returns.ite_bind {β : Type} {c : Prop} [Decidable c] {P Q R : World Abi → Prop}
    {m : Receiver Abi Unit} {n : Unit → Receiver Abi β} (hm : c → Returns P m Q)
    (hc : ¬ c → ∀ w, P w → Q w) (hn : Returns Q (n ()) R) :
    Returns P (if c then m >>= n else n ()) R := by
  by_cases h : c
  · rw [if_pos h]
    exact (hm h).bind fun _ ↦ hn
  · rw [if_neg h]
    exact hn.mono (hc h) fun _ h ↦ h

/-- The program takes the tables from `t` to `t'`.  It returns exactly when `R`, and
otherwise throws an exception. -/
def Reads (I : Tables → World Abi → Prop) (t : Tables) (m : Receiver Abi Unit) (t' : Tables)
    (R : Prop) : Prop :=
  Triple (I t) m (fun _ w ↦ I t' w ∧ R)
    (fun e w ↦ (∃ what, e = .exception what) ∧ (∃ t, I t w) ∧ ¬ R)

namespace Reads

variable {I : Tables → World Abi → Prop} {t t' t'' : Tables} {R R' : Prop}

theorem iff {m : Receiver Abi Unit} (h : Reads I t m t' R) (hR : R ↔ R') : Reads I t m t' R' := by
  rwa [← propext hR]

theorem pure : Reads I t (Pure.pure ()) t True := fun _ h ↦ ⟨h, trivial⟩

theorem throw {what : String} : Reads I t (MonadExcept.throw (.exception what)) t' False :=
  fun _ h ↦ ⟨⟨what, rfl⟩, ⟨t, h⟩, not_false⟩

theorem returns {m : Receiver Abi Unit} (h : Returns (I t) m (I t')) : Reads I t m t' True :=
  Triple.mono h (fun _ h ↦ h) (fun _ _ h ↦ ⟨h, trivial⟩) fun _ _ h ↦ h.elim

theorem bind {m : Receiver Abi Unit} {n : Unit → Receiver Abi Unit} (hm : Reads I t m t' R)
    (hn : Reads I t' (n ()) t'' R') : Reads I t (m >>= n) t'' (R ∧ R') := by
  have hm' : Triple (I t) m (fun _ w ↦ I t' w ∧ R)
      (fun e w ↦ (∃ what, e = .exception what) ∧ (∃ t, I t w) ∧ ¬ (R ∧ R')) :=
    Triple.mono hm (fun _ h ↦ h) (fun _ _ h ↦ h) fun _ _ h ↦
      ⟨h.1, h.2.1, fun hR ↦ h.2.2 hR.1⟩
  refine Triple.bind hm' fun _ w hw ↦ (hn w hw.1).mono (fun _ _ h ↦ ⟨h.1, hw.2, h.2⟩) ?_
  exact fun _ _ h ↦ ⟨h.1, h.2.1, fun hR ↦ h.2.2 hR.2⟩

/-- A program followed by one that reads. -/
theorem returns_bind {α : Type} {m : Receiver Abi α} {n : α → Receiver Abi Unit}
    (hm : Returns (I t) m (I t')) (hn : ∀ a, Reads I t' (n a) t'' R) :
    Reads I t (m >>= n) t'' R :=
  Triple.bind (Triple.mono hm (fun _ h ↦ h) (fun _ _ h ↦ h) fun _ _ h ↦ h.elim) fun a ↦ hn a

theorem get_bind {n : World Abi → Receiver Abi Unit}
    (h : ∀ w, I t w → Reads I t (n w) t' R) : Reads I t (get >>= n) t' R :=
  Triple.get_bind fun w hw ↦ h w hw w hw

theorem ite {c : Prop} [Decidable c] {m : Receiver Abi Unit} (h : Reads I t m t R) :
    Reads I t (if c then m else Pure.pure ()) t (c → R) := by
  by_cases hc : c
  · rw [if_pos hc]
    exact h.iff ⟨fun hR _ ↦ hR, fun hR ↦ hR hc⟩
  · rw [if_neg hc]
    exact pure.iff ⟨fun _ h ↦ absurd h hc, fun _ ↦ trivial⟩

/-- A conditional statement with more statements after it. -/
theorem ite_bind {c : Prop} [Decidable c] {m : Receiver Abi Unit} {n : Unit → Receiver Abi Unit}
    (hm : Reads I t m t R) (hn : Reads I t (n ()) t' R') :
    Reads I t (if c then m >>= n else n ()) t' ((c → R) ∧ R') := by
  by_cases hc : c
  · rw [if_pos hc]
    exact (hm.bind hn).iff (by simp [hc])
  · rw [if_neg hc]
    exact hn.iff (by simp [hc])

/-- Unpacking, with more statements after it. -/
theorem fromBin_bind {α : Type} {bin : Parsed α} {n : α → Receiver Abi Unit}
    (h : ∀ a, bin = .ok a → Reads I t (n a) t' R) :
    Reads I t (fromBin bin >>= n) t' (bin.isOk ∧ R) := by
  cases bin with
  | error what => exact throw.iff (by simp [Except.isOk, Except.toBool])
  | ok a => exact (h a rfl).iff (by simp [Except.isOk, Except.toBool])

/-- A loop composes the effects of its steps. -/
theorem forM {α : Type} {f : α → Receiver Abi Unit} {g : α → Tables → Tables} {R : α → Prop}
    (hf : ∀ t x, Reads I t (f x) (g x t) (R x)) (t : Tables) (l : List α) :
    Reads I t (l.forM f) (l.foldl (fun t x ↦ g x t) t) (∀ x ∈ l, R x) := by
  induction l generalizing t with
  | nil => exact pure.iff (by simp)
  | cons x l ih => exact ((hf t x).bind (ih (g x t))).iff (by simp)

/-- A loop over rows that leaves the tables alone. -/
theorem rows {α : Type} {f : Row α → Receiver Abi Unit} {c : Bool}
    (hf : ∀ t row, Reads I t (f row) t row.Readable) (rows : List (Row α)) (t : Tables) :
    Reads I t (if c then rows.forM f else Pure.pure ()) t
      (c = true → ∀ row ∈ rows, row.Readable) := by
  have hloop := forM (g := fun _ t ↦ t) hf t rows
  rw [List.foldl_fixed] at hloop
  exact hloop.ite

end Reads

/-! ## The rule -/

/-- An invariant that withstands the events of block `h`, indexed by the tables. -/
structure EventRule (o : Options) (h : Nat) (I : Tables → World Abi → Prop) : Prop where
  options : ∀ {t w}, I t w → w.options = o
  head : ∀ {t w}, I t w → w.proc.head = h
  publish : ∀ {t w} {e : Event}, I t w → e.Inside h →
    I t { w with log := w.log ++ [.published e] }
  header : ∀ {t w} (header : BlockHeader) (trxCount : Nat), I t w →
    I t { w with proc := { w.proc with blockHeader := header, trxCount := trxCount } }

/-- An invariant that all the parts of block `h` keep, indexed by the tables. -/
structure BlockRule (o : Options) (h : Nat) (I : Tables → World Abi → Prop) : Prop
    extends EventRule o h I where
  set : o.interactiveMode = false → ∀ (acc : AccountV0) (t : Tables),
    Returns (I t)
      (if acc.abi = [] then clearContractAbi acc.name else saveContractAbi lib acc.name acc.abi)
      (I (t.setAbi lib h acc))
  ready : ∀ (account : Name) (t : Tables),
    Returns (I t) (getContractAbiReady lib account) (I t)

namespace EventRule

variable {o : Options} {h : Nat} {I : Tables → World Abi → Prop} (rule : EventRule o h I)
include rule

theorem reads_publish {e : Event} (he : e.Inside h) (t : Tables) :
    Reads I t (Chronicle.publish e) t True :=
  Reads.returns fun _ hw ↦ rule.publish hw he

/-- `receive_block` throws exactly when the block cannot be unpacked. -/
theorem reads_receiveBlock (bin : Parsed SignedBlock) (t : Tables) :
    Reads I t (receiveBlock bin) t bin.isOk := by
  have hblock : Reads I t (receiveBlock bin) t (bin.isOk ∧ True ∧ True) := by
    refine Reads.fromBin_bind fun block _ ↦ ?_
    have hheader : Returns (I t)
        (modifyProc fun p ↦
          { p with blockHeader := block.toBlockHeader, trxCount := block.transactions }) (I t) :=
      fun w hw ↦ rule.header block.toBlockHeader block.transactions hw
    refine Reads.returns_bind hheader fun _ ↦ ?_
    refine Reads.get_bind fun w hw ↦ ?_
    have hh : some w.proc.head = some h := congrArg some (rule.head hw)
    refine Reads.iff (Reads.ite_bind (rule.reads_publish ?_ t)
      (Reads.ite (rule.reads_publish ?_ t))) (by simp)
    · exact hh
    · exact hh
  exact hblock.iff (by simp)

theorem reads_receiveTrace (bin : Parsed TransactionTrace) (t : Tables) :
    Reads I t (receiveTrace bin) t bin.isOk := by
  have htrace : Reads I t (receiveTrace bin) t (bin.isOk ∧ True) := by
    refine Reads.fromBin_bind fun trace _ ↦ Reads.get_bind fun w hw ↦ ?_
    refine (Reads.ite (rule.reads_publish ?_ t)).iff (by simp)
    exact congrArg some (rule.head hw)
  exact htrace.iff (by simp)

/-- `receive_traces` throws exactly when it has to unpack a trace that cannot be unpacked. -/
theorem reads_receiveTraces (bin : List (Parsed TransactionTrace)) (t : Tables) :
    Reads I t (receiveTraces bin) t
      (o.subscribers.transactionTraces = true → ∀ trace ∈ bin, trace.isOk) := by
  refine Reads.get_bind fun w hw ↦ ?_
  have hloop := Reads.forM (g := fun _ t ↦ t) (fun t bin ↦ rule.reads_receiveTrace bin t) t bin
  rw [List.foldl_fixed] at hloop
  rw [← rule.options hw]
  exact hloop.ite

end EventRule

/-! ## Deltas -/

variable {lib}

namespace BlockRule

variable {o : Options} {h : Nat} {I : Tables → World Abi → Prop} (rule : BlockRule lib o h I)
include rule

/-- A row of the `account` table sets an ABI or removes it. -/
theorem reads_receiveAccountRow (hscan : o.interactiveMode = false) (row : Row AccountV0)
    (t : Tables) :
    Reads I t (receiveAccountRow lib row) (t.setAbis lib h (accountOf row).toList)
      (row.variant.isOk ∧ (row.present = true → row.data.isOk)) := by
  refine Reads.fromBin_bind fun _ _ ↦ ?_
  cases hp : row.present with
  | false =>
      rw [accountOf, hp]
      exact Reads.pure.iff (by simp)
  | true =>
      refine Reads.iff (Reads.fromBin_bind (R := True) fun acc hacc ↦ ?_) (by simp)
      have hof : accountOf row = some acc := by
        rw [accountOf, hp, hacc]
        rfl
      rw [hof]
      exact Reads.returns (rule.set hscan acc t)

/-- A row of the `contract_row` table is decoded with the ABI of its contract. -/
theorem reads_receiveContractRow (row : Row ContractRowV0) (t : Tables) :
    Reads I t (receiveContractRow lib row) t row.Readable := by
  have hrow : Reads I t (receiveContractRow lib row) t
      (row.variant.isOk ∧ row.data.isOk ∧ True) := by
    refine Reads.fromBin_bind fun _ _ ↦ Reads.fromBin_bind fun kvo _ ↦ ?_
    refine Reads.get_bind fun w hw ↦ ?_
    have hh : some w.proc.head = some h := congrArg some (rule.head hw)
    refine (Reads.ite (R := True) (Reads.returns_bind (rule.ready kvo.code t) ?_)).iff (by simp)
    intro ready
    cases ready with
    | true =>
        refine rule.reads_publish ?_ t
        exact hh
    | false =>
        refine rule.reads_publish ?_ t
        exact hh
  exact hrow.iff (by simp [Row.Readable])

/-- A row of a table with account information. -/
theorem reads_receiveAccountInfoRow {channel : AccountInfoUpdate → Event}
    (hc : ∀ e : AccountInfoUpdate, e.blockNum = h → (channel e).Inside h) (withAdded : Bool)
    (row : Row Bytes) (t : Tables) :
    Reads I t (receiveAccountInfoRow channel withAdded row) t row.Readable := by
  have hrow : Reads I t (receiveAccountInfoRow channel withAdded row) t
      (row.variant.isOk ∧ row.data.isOk ∧ True) := by
    refine Reads.fromBin_bind fun _ _ ↦ Reads.fromBin_bind fun data _ ↦ ?_
    exact Reads.get_bind fun w hw ↦ rule.reads_publish (hc _ (rule.head hw)) t
  exact hrow.iff (by simp [Row.Readable])

end BlockRule

/-- The accounts that are set in a mode. -/
def appliedAccounts (o : Options) (accounts : List AccountV0) : List AccountV0 :=
  if o.interactiveMode then [] else accounts

/-- Setting the ABIs of one list after the other. -/
theorem foldl_setAbis {α : Type} (f : α → List AccountV0) (h : Nat) (l : List α) (t : Tables) :
    l.foldl (fun t x ↦ t.setAbis lib h (f x)) t = t.setAbis lib h (l.flatMap f) := by
  induction l generalizing t with
  | nil => rfl
  | cons x l ih => rw [List.foldl_cons, ih, List.flatMap_cons, Tables.setAbis_append]

/-- The accounts of the deltas that can be unpacked. -/
theorem flatMap_accounts (bin : List (Parsed TableDelta)) :
    bin.flatMap (fun bin ↦ bin.toOption.elim [] TableDelta.accounts) =
      (bin.filterMap Except.toOption).flatMap TableDelta.accounts := by
  induction bin with
  | nil => rfl
  | cons d bin ih =>
      cases d with
      | error what => exact ih
      | ok delta => exact congrArg (delta.accounts ++ ·) ih

namespace BlockRule

variable {o : Options} {h : Nat} {I : Tables → World Abi → Prop} (rule : BlockRule lib o h I)
include rule

/-- The rows of a delta, by table: only those of the `account` table have an effect. -/
theorem reads_receiveTableRows (delta : TableDelta) (t : Tables) :
    Reads I t (receiveTableRows lib delta) (t.setAbis lib h (appliedAccounts o delta.accounts))
      (delta.Readable o) := by
  refine Reads.get_bind fun w hw ↦ ?_
  rw [rule.options hw]
  have hnone : t.setAbis lib h (appliedAccounts o []) = t := by
    rw [appliedAccounts, ite_self]
    rfl
  cases delta with
  | account rows =>
      change Reads I t (if !o.interactiveMode then rows.forM (receiveAccountRow lib) else pure ())
        (t.setAbis lib h (appliedAccounts o (rows.filterMap accountOf))) _
      cases hmode : o.interactiveMode with
      | true =>
          rw [appliedAccounts, hmode]
          exact Reads.pure.iff ⟨fun _ hscan ↦ by simp [hmode] at hscan, fun _ ↦ trivial⟩
      | false =>
          have hloop := Reads.forM (fun t row ↦ rule.reads_receiveAccountRow hmode row t) t rows
          rw [foldl_setAbis, ← List.filterMap_eq_flatMap_toList] at hloop
          rw [appliedAccounts, hmode]
          exact hloop.iff ⟨fun hR _ ↦ hR, fun hR ↦ hR hmode⟩
  | contractRow rows =>
      change Reads I t _ (t.setAbis lib h (appliedAccounts o [])) _
      rw [hnone]
      exact Reads.rows (fun t row ↦ rule.reads_receiveContractRow row t) rows t
  | permission rows =>
      change Reads I t _ (t.setAbis lib h (appliedAccounts o [])) _
      rw [hnone]
      refine Reads.rows (fun t row ↦ rule.reads_receiveAccountInfoRow ?_ _ row t) rows t
      exact fun e he ↦ congrArg some he
  | permissionLink rows =>
      change Reads I t _ (t.setAbis lib h (appliedAccounts o [])) _
      rw [hnone]
      refine Reads.rows (fun t row ↦ rule.reads_receiveAccountInfoRow ?_ _ row t) rows t
      exact fun e he ↦ congrArg some he
  | accountMetadata rows =>
      change Reads I t _ (t.setAbis lib h (appliedAccounts o [])) _
      rw [hnone]
      refine Reads.rows (fun t row ↦ rule.reads_receiveAccountInfoRow ?_ _ row t) rows t
      exact fun e he ↦ congrArg some he
  | other name =>
      change Reads I t _ (t.setAbis lib h (appliedAccounts o [])) _
      rw [hnone]
      exact Reads.pure

/-- One delta; nothing comes of one that cannot be unpacked. -/
theorem reads_receiveTableDelta (bin : Parsed TableDelta) (t : Tables) :
    Reads I t (receiveTableDelta lib bin)
      (t.setAbis lib h (appliedAccounts o (bin.toOption.elim [] TableDelta.accounts)))
      (ReadableDelta o bin) := by
  refine Reads.get_bind fun w hw ↦ ?_
  have hdelta : Reads I t
      (do
        let delta ← fromBin bin
        receiveTableRows lib delta
        if w.options.subscribers.blockTableDeltas then
          Chronicle.publish (.blockTableDelta
            { blockNum := 0, blockTimestamp := w.proc.blockHeader.timestamp,
              tableDelta := delta }))
      (t.setAbis lib h (appliedAccounts o (bin.toOption.elim [] TableDelta.accounts)))
      (bin.isOk ∧ ReadableDelta o bin) := by
    refine Reads.fromBin_bind fun delta hdelta ↦ ?_
    subst hdelta
    refine Reads.iff ((rule.reads_receiveTableRows delta t).bind
      (Reads.ite (rule.reads_publish ?_ _))) (by simp [ReadableDelta])
    exact trivial
  refine hdelta.iff ⟨fun hR ↦ hR.2, fun hR ↦ ⟨?_, hR⟩⟩
  obtain ⟨delta, rfl, -⟩ := hR
  rfl

/-- `receive_deltas` sets the ABIs of the deltas, and throws exactly when it has to unpack
something that cannot be unpacked. -/
theorem reads_receiveDeltas (bin : List (Parsed TableDelta)) (t : Tables) :
    Reads I t (receiveDeltas lib bin)
      (t.setAbis lib h
        (appliedAccounts o ((bin.filterMap Except.toOption).flatMap TableDelta.accounts)))
      (∀ delta ∈ bin, ReadableDelta o delta) := by
  have hloop := Reads.forM (fun t bin ↦ rule.reads_receiveTableDelta bin t) t bin
  rw [foldl_setAbis] at hloop
  have happ : bin.flatMap (fun bin ↦
        appliedAccounts o (bin.toOption.elim [] TableDelta.accounts)) =
      appliedAccounts o ((bin.filterMap Except.toOption).flatMap TableDelta.accounts) := by
    cases hmode : o.interactiveMode with
    | true => simp [appliedAccounts, hmode]
    | false =>
        simp only [appliedAccounts, hmode, Bool.false_eq_true, if_false]
        exact flatMap_accounts bin
  rwa [happ] at hloop

end BlockRule

end Chronicle
