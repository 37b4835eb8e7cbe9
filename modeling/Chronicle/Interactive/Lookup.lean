import Chronicle.Interactive.Step
import Chronicle.Block.History

/-!
# ABIs for interactive requests

In interactive mode an account that is not in the cache is decoded with its newest ABI up to the
block, if it has one and that is not the marker of a removal (`LoadsExactly`).
`get_contract_abi_ready` looks only at the first row from there on in the order of the index, and
takes it whatever its account is and whatever it holds.
-/

namespace Chronicle

open Store

variable {Abi : Type} (lib : Abieos Abi)

/-- No row of the history comes at or after the key in the order of the index. -/
def NothingFrom (history : Table (Name ×ₗ Nat) Bytes) (account h : Nat) : Prop :=
  ∀ a k data, history.find? (toLex (a, k)) = some data → ¬ (account < a ∨ (account = a ∧ k ≤ h))

/-- `get_contract_abi_ready` loads the newest ABI of an account up to the head if there is one,
and otherwise nothing. -/
structure LoadsExactly (w : World Abi) (account : Name) : Prop where
  found : ∀ data, RevisionAt w.db.current.contractAbiHistory account w.proc.head data → data ≠ [] →
    ∃ w', getContractAbiReady lib account w = .ok true w' ∧ w'.proc =
      w.proc.withAbi lib account data
  missing : (∀ data, RevisionAt w.db.current.contractAbiHistory account w.proc.head data →
      data = []) →
    ∃ w', getContractAbiReady lib account w = .ok false w' ∧ w'.proc = w.proc

section Lookups

variable {history : Table (Name ×ₗ Nat) Bytes} {account h : Nat}

theorem lowerBoundRev_eq_none :
    lowerBoundRev history account h = none ↔ NothingFrom history account h := by
  rw [lowerBoundRev, List.find?_eq_none]
  constructor
  · intro hnone a k data hrow hle
    have hmem := (List.mem_insertionSort revLE).mpr (Table.mem_rows.mpr hrow)
    exact hnone _ hmem (decide_eq_true hle)
  · rintro hnone ⟨⟨a, k⟩, data⟩ hmem hle
    have hrow := Table.mem_rows.mp ((List.mem_insertionSort revLE).mp hmem)
    exact hnone a k data hrow (of_decide_eq_true hle)

theorem RevisionAt.not_nothingFrom {data : Bytes} (hd : RevisionAt history account h data) :
    ¬ NothingFrom history account h := by
  obtain ⟨k, hk, hrow, -⟩ := hd
  exact fun hnone ↦ hnone account k data hrow (.inr ⟨rfl, hk⟩)

end Lookups

/-- **The lookup is exact for an account that is not in the cache exactly if the account has an ABI
at the head, or no row of any account comes at or after the place where its row would be.** -/
theorem loads_exactly_iff {w : World Abi} (hw : Interactive w) {account : Name}
    (hnew : account ∉ w.proc.contractAbiImported) :
    LoadsExactly lib w account ↔
      (∃ data, RevisionAt w.db.current.contractAbiHistory account w.proc.head data ∧ data ≠ []) ∨
        NothingFrom w.db.current.contractAbiHistory account w.proc.head := by
  have hrun := getContractAbiReady_run lib account hw.cached
  have hlookup : w.lookupAbi account =
      (lowerBoundRev w.db.current.contractAbiHistory account w.proc.head).map Prod.snd :=
    if_pos hw.mode
  rw [decide_eq_false hnew, Bool.false_or, hlookup, Proc.load, if_neg hnew] at hrun
  constructor
  · intro hloads
    cases hbound : lowerBoundRev w.db.current.contractAbiHistory account w.proc.head with
    | none => exact .inr (lowerBoundRev_eq_none.mp hbound)
    | some row =>
        rw [hbound] at hrun
        by_contra hnot
        obtain ⟨w', hready, -⟩ := hloads.missing fun data hd ↦ by
          by_contra hne
          exact hnot (.inl ⟨data, hd, hne⟩)
        cases hrun.symm.trans hready
  · rintro (⟨data, hd, hne⟩ | hnone)
    · obtain ⟨row, hbound, -, hdata⟩ := hd.lowerBoundRev
      rw [hbound] at hrun
      refine ⟨fun data' hd' _ ↦ ⟨_, hrun, ?_⟩, fun hempty ↦ absurd (hempty data hd) hne⟩
      rw [hd'.unique hd, ← hdata]
      rfl
    · rw [lowerBoundRev_eq_none.mpr hnone] at hrun
      exact ⟨fun data hd ↦ absurd hnone hd.not_nothingFrom, fun _ ↦ ⟨_, hrun, rfl⟩⟩

/-- A process in interactive mode at block 5, with one row in the history. -/
def oneRevision (account : Name) (data : Bytes) : World Bytes :=
  { options := { interactiveMode := true }
    proc := { head := 5 }
    db := ⟨0, Tables.writeHistory 2 account data ∅, []⟩ }

theorem interactive_oneRevision (account : Name) (data : Bytes) :
    Interactive (oneRevision account data) :=
  ⟨rfl, fun a ha ↦ absurd ha (by simp [oneRevision])⟩

theorem loads_exactly_first :
    LoadsExactly .tagged (oneRevision 7 [1, 4]) 7 ↔
      (∃ data, RevisionAt (oneRevision 7 [1, 4]).db.current.contractAbiHistory 7 5 data ∧
        data ≠ []) ∨ NothingFrom (oneRevision 7 [1, 4]).db.current.contractAbiHistory 7 5 :=
  loads_exactly_iff .tagged (interactive_oneRevision 7 [1, 4]) (by decide)

/-- Account 3 has no row. -/
theorem no_revision_of_next {data : Bytes} :
    ¬ RevisionAt (oneRevision 7 [1, 4]).db.current.contractAbiHistory 3 5 data := by
  rintro ⟨k, -, hrow, -⟩
  have hne : (toLex ((3 : Name), k) : Name ×ₗ Nat) ≠ toLex (7, 2) := fun heq ↦
    absurd (Prod.mk.inj (toLex_inj.mp heq)).1 (by decide)
  change (Table.insert ∅ (toLex (7, 2)) [1, 4]).find? (toLex (3, k)) = some data at hrow
  rw [Table.find?_insert_of_ne _ _ hne] at hrow
  cases hrow

/-- The ABI of account 7 is loaded for account 3, which has none; and a marker of a removal is
loaded like an ABI. -/
theorem loads_next_account :
    (∃ w', getContractAbiReady .tagged 3 (oneRevision 7 [1, 4]) = .ok true w' ∧
        w'.proc.contractAbiCtxt.find? 3 = some [1, 4]) ∧
      (∀ data, ¬ RevisionAt (oneRevision 7 [1, 4]).db.current.contractAbiHistory 3 5 data) ∧
      ¬ LoadsExactly .tagged (oneRevision 7 [1, 4]) 3 ∧
      ∃ w', getContractAbiReady .tagged 7 (oneRevision 7 []) = .ok true w' := by
  refine ⟨⟨_, rfl, by decide⟩, fun _ ↦ no_revision_of_next, fun hloads ↦ ?_, _, rfl⟩
  obtain ⟨w', hready, -⟩ := hloads.missing fun _ hd ↦ absurd hd no_revision_of_next
  have htrue : ∃ w'', getContractAbiReady .tagged 3 (oneRevision 7 [1, 4]) = .ok true w'' :=
    ⟨_, rfl⟩
  obtain ⟨w'', h⟩ := htrue
  cases h.symm.trans hready

end Chronicle
