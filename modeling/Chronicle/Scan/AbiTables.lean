import Chronicle.Block.History
import Chronicle.Scan.Revisions

/-!
# Current ABIs and their history

Setting and removing an ABI writes both tables of ABIs, so that the current one is the
newest of the history.  The exception are bytes that the library rejects: they go to the
history alone (`abi_tables_disagree`).
-/

namespace Chronicle

open Store Effect

variable {Abi : Type} (lib : Abieos Abi)

/-- The current ABI of an account is the newest one of its history, unless that is the mark
of a removal. -/
def AbisAgree (t : Tables) (h : Nat) : Prop :=
  ∀ account data, t.contractAbi.find? account = some data ↔
    data ≠ [] ∧ RevisionAt t.contractAbiHistory account h data

/-- Bytes that the library can decode, or none at all. -/
def ValidAbi (data : Bytes) : Prop := data = [] ∨ (lib.convert data).isSome

instance (data : Bytes) : Decidable (ValidAbi lib data) := inferInstanceAs (Decidable (_ ∨ _))

/-- A delivered block only sets ABIs that the library can decode. -/
def ValidAbis (w : World Abi) (i : Input) : Prop :=
  ∀ d ∈ delivered w i, ∀ acc ∈ d.2.accounts, ValidAbi lib acc.abi

instance (w : World Abi) (i : Input) : Decidable (ValidAbis lib w i) :=
  inferInstanceAs (Decidable (∀ _ ∈ _, ∀ _ ∈ _, _))

/-- Every ABI of the history can be decoded, except the marks of removals. -/
def ValidHistory (t : Tables) : Prop :=
  ∀ key data, t.contractAbiHistory.find? key = some data → ValidAbi lib data

/-! ## One block -/

section Block

variable {t : Tables} {h h' : Nat}

/-- Nothing changes in the blocks after the last row. -/
theorem AbisAgree.mono (ha : AbisAgree t h) (ht : t.Dated h) (hle : h ≤ h') : AbisAgree t h' := by
  intro account data
  rw [revisionAt_congr hle fun k hlt _ ↦ ?_]
  · exact ha account data
  · cases hf : t.contractAbiHistory.find? (toLex (account, k)) with
    | none => rfl
    | some data => exact absurd hlt (not_lt.mpr (ht.history account k data hf))

/-- Both tables agree after a row of the history was written at block `h`, if the current
ABIs have changed accordingly. -/
theorem AbisAgree.writeHistory {t' : Tables} (ha : AbisAgree t h)
    (hhist : t'.contractAbiHistory = t.contractAbiHistory) {a : Name} {new : Bytes}
    (hcur : ∀ account data, t'.contractAbi.find? account = some data ↔
      if account = a then data ≠ [] ∧ data = new else t.contractAbi.find? account = some data) :
    AbisAgree (t'.writeHistory h a new) h := by
  intro account data
  rw [Tables.writeHistory, hhist, revisionAt_insert]
  refine (hcur account data).trans ?_
  by_cases hacc : account = a
  · rw [if_pos hacc, if_pos hacc]
  · rw [if_neg hacc, if_neg hacc]
    exact ha account data

variable {lib}

/-- Setting a valid ABI, and removing one, keeps the two tables together. -/
theorem AbisAgree.setAbi (ha : AbisAgree t h) {acc : AccountV0} (hv : ValidAbi lib acc.abi) :
    AbisAgree (t.setAbi lib h acc) h := by
  rw [Tables.setAbi]
  split_ifs with hempty
  · rw [Tables.clearAbi]
    split_ifs with hsome
    · refine ha.writeHistory ?_ fun account data ↦ ?_
      · rfl
      · rw [Table.find?_erase]
        split_ifs
        · simp
        · rfl
    · exact ha
  · rw [Tables.saveAbi, if_pos (hv.resolve_left hempty)]
    refine ha.writeHistory ?_ fun account data ↦ ?_
    · rfl
    · rw [Table.find?_insert]
      split_ifs
      · rw [Option.some.injEq]
        exact ⟨fun heq ↦ ⟨heq ▸ hempty, heq.symm⟩, fun heq ↦ heq.2.symm⟩
      · rfl

theorem AbisAgree.setAbis (ha : AbisAgree t h) {accounts : List AccountV0}
    (hv : ∀ acc ∈ accounts, ValidAbi lib acc.abi) : AbisAgree (t.setAbis lib h accounts) h := by
  induction accounts generalizing t with
  | nil => exact ha
  | cons acc accounts ih =>
      exact ih (ha.setAbi (hv acc List.mem_cons_self)) fun a h ↦ hv a (List.mem_cons_of_mem _ h)

theorem ValidHistory.writeHistory {t' : Tables} (ht : ValidHistory lib t)
    (hhist : t'.contractAbiHistory = t.contractAbiHistory) (a : Name) {new : Bytes}
    (hv : ValidAbi lib new) : ValidHistory lib (t'.writeHistory h a new) := by
  intro key data hf
  rw [Tables.writeHistory, hhist, Table.find?_insert] at hf
  split_ifs at hf with hkey
  · exact Option.some.inj hf ▸ hv
  · exact ht key data hf

theorem ValidHistory.setAbi (ht : ValidHistory lib t) {acc : AccountV0}
    (hv : ValidAbi lib acc.abi) : ValidHistory lib (t.setAbi lib h acc) := by
  rw [Tables.setAbi]
  split_ifs
  · rw [Tables.clearAbi]
    split_ifs
    · refine ht.writeHistory ?_ acc.name (.inl rfl)
      rfl
    · exact ht
  · rw [Tables.saveAbi]
    refine ht.writeHistory ?_ acc.name hv
    split_ifs <;> rfl

theorem ValidHistory.setAbis (ht : ValidHistory lib t) {accounts : List AccountV0}
    (hv : ∀ acc ∈ accounts, ValidAbi lib acc.abi) :
    ValidHistory lib (t.setAbis lib h accounts) := by
  induction accounts generalizing t with
  | nil => exact ht
  | cons acc accounts ih =>
      exact ih (ht.setAbi (hv acc List.mem_cons_self)) fun a h ↦ hv a (List.mem_cons_of_mem _ h)

end Block

/-! ## Runs -/

/-- What is known of the ABIs of a revision. -/
structure AbisKnown (t : Tables) : Prop where
  agree : ∀ s, t.state = some s → AbisAgree t s.head
  valid : ValidHistory lib t

theorem abisAgree_empty (h : Nat) : AbisAgree ∅ h :=
  fun _ _ ↦ ⟨fun hf ↦ (by cases hf), fun hf ↦ by obtain ⟨-, k, -, hf, -⟩ := hf; cases hf⟩

theorem abisKnown_empty : AbisKnown lib ∅ :=
  ⟨fun _ hs ↦ (by cases hs), fun _ _ hf ↦ by cases hf⟩

variable {lib} in
/-- A block that only sets valid ABIs keeps the tables together. -/
theorem AbisKnown.blockEffect {t : Tables} {r : Nat} {block : BlockPosition}
    {result : GetBlocksResult} (ht : AbisKnown lib t) (hsettled : t.Settled r)
    (hbelow : ∀ s, t.state = some s → s.head < block.blockNum)
    (hv : ∀ acc ∈ result.accounts, ValidAbi lib acc.abi) :
    AbisKnown lib (blockEffect lib block result t) := by
  have hagree : AbisAgree t block.blockNum := by
    cases hs : t.state with
    | none => exact hsettled.empty hs ▸ abisAgree_empty _
    | some s => exact (ht.agree s hs).mono (hsettled.dated s hs).2 (hbelow s hs).le
  obtain ⟨hcur, hhist⟩ := Tables.addReceived_frame block result.lastIrreversible.blockNum t
  have hagree' : AbisAgree (t.addReceived block result.lastIrreversible.blockNum)
      block.blockNum := by
    rw [AbisAgree, hcur, hhist]
    exact hagree
  have hvalid' : ValidHistory lib (t.addReceived block result.lastIrreversible.blockNum) := by
    rw [ValidHistory, hhist]
    exact ht.valid
  refine ⟨fun s hs ↦ ?_, hvalid'.setAbis hv⟩
  obtain rfl : stateOf block result = s := Option.some.inj hs
  exact hagree'.setAbis hv

/-- The ABIs of every revision are known. -/
def AbisKnownDb (db : Undo Tables) : Prop := ∀ r t, db.at? r = some t → AbisKnown lib t

/-- Every input keeps the tables of ABIs together, unless it sets an ABI without a meaning. -/
theorem AbisKnownDb.exec {w : World Abi} {i : Input} (h : AbisKnownDb lib w.db)
    (hscan : Scanning w) (hord : Ordered w) (hi : ScanInput i) (hre : ResentAbove w i)
    (hv : ValidAbis lib w i) : AbisKnownDb lib (Chronicle.exec lib w i).db := by
  intro r t ht
  cases exec_at? lib hscan hi ht with
  | kept hat => exact h _ _ hat
  | block hd hat hbelow =>
      exact (h _ _ hat).blockEffect (hord.db.settled _ _ hat) (hbelow hord (hre _ hd)) (hv _ hd)

/-- An interactive process that reads given tables at block `h`. -/
structure ReadsAt (t : Tables) (h : Nat) (w : World Abi) : Prop where
  mode : w.options.interactiveMode = true
  tables : w.db.current = t
  head : w.proc.head = h

variable {lib} in
/-- Interactive mode loads the current ABI of an account exactly if its lookup does not end
at an ABI of another account. -/
theorem AbisAgree.freshAbi_iff {w w' : World Abi} {h : Nat} (ha : AbisAgree w.db.current h)
    (hv : ValidHistory lib w.db.current) (hnil : lib.convert [] = none)
    (hscan : w.options.interactiveMode = false) (hread : ReadsAt w.db.current h w')
    (account : Name) :
    w'.freshAbi lib account = w.freshAbi lib account ↔
      ∀ row, lowerBoundRev w.db.current.contractAbiHistory account h = some row →
        (ofLex row.1).1 = account ∨ row.2 = [] := by
  have hcur : w.lookupAbi account = w.db.current.contractAbi.find? account := by
    rw [World.lookupAbi, hscan]
    rfl
  have hrev : w'.lookupAbi account =
      (lowerBoundRev w.db.current.contractAbiHistory account h).map Prod.snd := by
    rw [World.lookupAbi, hread.mode, hread.tables, hread.head]
    rfl
  rw [World.freshAbi, World.freshAbi, hcur, hrev]
  cases hlow : lowerBoundRev w.db.current.contractAbiHistory account h with
  | none =>
      refine iff_of_true ?_ fun _ h ↦ by cases h
      cases hf : w.db.current.contractAbi.find? account with
      | none => rfl
      | some data =>
          obtain ⟨row, hrow, -⟩ := ((ha account data).mp hf).2.lowerBoundRev
          rw [hlow] at hrow
          cases hrow
  | some row =>
      by_cases hacc : (ofLex row.1).1 = account
      · refine iff_of_true ?_ fun row' h' ↦ .inl (Option.some.inj h' ▸ hacc)
        have hat := lowerBoundRev_revisionAt hlow hacc
        by_cases hdata : row.2 = []
        · have hnone : w.db.current.contractAbi.find? account = none := by
            refine Option.eq_none_iff_forall_ne_some.mpr fun data hf ↦ ?_
            obtain ⟨hne, hat'⟩ := (ha account data).mp hf
            exact hne ((hat'.unique hat).trans hdata)
          simp [hnone, hdata, hnil]
        · rw [(ha account row.2).mpr ⟨hdata, hat⟩]
          rfl
      · have hnone : w.db.current.contractAbi.find? account = none := by
          refine Option.eq_none_iff_forall_ne_some.mpr fun data hf ↦ ?_
          obtain ⟨row', hrow', hacc', -⟩ := ((ha account data).mp hf).2.lowerBoundRev
          obtain rfl : row = row' := Option.some.inj (hlow.symm.trans hrow')
          exact hacc hacc'
        have hvalid := hv row.1 row.2 (Table.mem_rows.mp (lowerBoundRev_spec hlow).1)
        rw [hnone]
        constructor
        · intro heq row' hrow'
          obtain rfl : row = row' := Option.some.inj hrow'
          refine .inr (hvalid.resolve_right fun hsome ↦ ?_)
          rw [show lib.convert row.2 = none from heq] at hsome
          cases hsome
        · intro hown
          have hdata := (hown row rfl).resolve_left hacc
          change lib.convert row.2 = none
          rw [hdata, hnil]

/-- Block `h` is the head: that of the process while it runs, or the one in the database. -/
def AtHead (w : World Abi) (h : Nat) : Prop :=
  (Running w ∧ w.proc.head = h) ∨ ∀ s, w.db.current.state = some s → s.head = h

/-- In every run in which only valid ABIs are set, and in which a block that is sent again
is above its irreversible block: the current ABIs are the newest of the history at the head,
and interactive mode at the head loads them, unless its lookup ends at another account. -/
theorem abi_tables_agree (inputs : List Input)
    (hrun : Run.Guarded (exec lib)
      (fun w i ↦ ScanInput i ∧ ResentAbove w i ∧ ValidAbis lib w i) newWorld inputs)
    {w : World Abi} (hw : w = run lib newWorld inputs) {h : Nat} (hh : AtHead w h) :
    AbisAgree w.db.current h ∧
      (lib.convert [] = none → ∀ w' : World Abi, ReadsAt w.db.current h w' → ∀ account,
        (w'.freshAbi lib account = w.freshAbi lib account ↔
          ∀ row, lowerBoundRev w.db.current.contractAbiHistory account h = some row →
            (ofLex row.1).1 = account ∨ row.2 = [])) := by
  have hinv : Scanning w ∧ Ordered w ∧ AbisKnownDb lib w.db := by
    rw [hw]
    refine hrun.invariant (I := fun w ↦ Scanning w ∧ Ordered w ∧ AbisKnownDb lib w.db) ?_
      ⟨scanning_newWorld, ordered_newWorld, fun r t ht ↦ ?_⟩
    · exact fun w i h hi ↦ ⟨h.1.exec lib hi.1, h.2.1.exec lib h.1 hi.1 hi.2.1,
        h.2.2.exec lib h.1 h.2.1 hi.1 hi.2.1 hi.2.2⟩
    · exact (Undo.at?_mk_nil ht).2 ▸ abisKnown_empty lib
  obtain ⟨hscan, hord, hknown⟩ := hinv
  have hcur := hknown _ _ w.db.at?_revision
  have hagree : AbisAgree w.db.current h := by
    cases hs : w.db.current.state with
    | none =>
        rw [(hord.db.settled _ _ w.db.at?_revision).empty hs]
        exact abisAgree_empty h
    | some s =>
        have hhead : s.head = h := by
          rcases hh with ⟨hrun, rfl⟩ | hh
          · rw [hord.position hrun s hs]
            rfl
          · exact hh s hs
        exact hhead ▸ hcur.agree s hs
  exact ⟨hagree, fun hnil w' hread account ↦
    hagree.freshAbi_iff hcur.valid hnil hscan.mode hread account⟩

/-- An account that changes its ABI. -/
def twoAbis (first second : Bytes) : List Input :=
  [.start {}, .ready 0, .result (abiResult ⟨1, 1⟩ 0 0 [⟨5, first⟩]),
    .result (abiResult ⟨2, 2⟩ 1 0 [⟨5, second⟩])]

set_option maxRecDepth 10000 in
/-- Two valid ABIs. -/
theorem abi_tables_agree_two :
    AbisAgree (run .tagged newWorld (twoAbis [1, 7] [1, 8])).db.current 2 :=
  (abi_tables_agree .tagged (twoAbis [1, 7] [1, 8]) (by decide) rfl
    (.inl (by decide))).1

set_option maxRecDepth 10000 in
/-- The second ABI is rejected: the first one stays current, but the history has replaced
it. -/
theorem abi_tables_disagree :
    ∃ (inputs : List Input) (w : World Bytes),
      Run.Guarded (exec .tagged) (fun w i ↦ ScanInput i ∧ ResentAbove w i) newWorld inputs ∧
      w = run .tagged newWorld inputs ∧ Running w ∧ ¬ AbisAgree w.db.current w.proc.head := by
  refine ⟨twoAbis [1, 7] [2, 8], _, by decide, rfl, by decide, fun h ↦ ?_⟩
  have hcur : RevisionAt _ 5 2 [1, 7] := ((h 5 [1, 7]).mp (by decide)).2
  have hnew : RevisionAt
      (run .tagged newWorld (twoAbis [1, 7] [2, 8])).db.current.contractAbiHistory 5 2 [2, 8] :=
    ⟨2, le_rfl, by decide, fun k hlt hle ↦ by omega⟩
  exact absurd (hcur.unique hnew) (by decide)

end Chronicle
