import Chronicle.Block.Frame

/-!
# Lookups in the history of ABIs

`lower_bound` on the index `by_name_and_block_rev` finds the newest ABI of an account that
is not newer than a block, if there is one (`RevisionAt`).  If there is none, it goes on to
the next account, and `get_contract_abi_ready` does not notice.
-/

namespace Chronicle

open Store

variable {Abi : Type} (lib : Abieos Abi)

/-! ## Searching a sorted list -/

/-- The first match in a sorted list is the least match. -/
theorem rel_of_find? {α : Type} {r : α → α → Prop} (hr : ∀ x, r x x) {p : α → Bool} {l : List α}
    {x : α} (hl : l.Pairwise r) (h : l.find? p = some x) {y : α} (hy : y ∈ l) (hp : p y = true) :
    r x y := by
  obtain ⟨-, as, bs, rfl, has⟩ := List.find?_eq_some_iff_append.mp h
  rcases List.mem_append.mp hy with hy | hy
  · exact absurd hp (by simpa using has y hy)
  · rcases List.mem_cons.mp hy with rfl | hy
    · exact hr y
    · exact (List.pairwise_cons.mp (List.pairwise_append.mp hl).2.1).1 y hy

theorem revLE_refl (x : (Name ×ₗ Nat) × Bytes) : revLE x x := .inr ⟨rfl, le_rfl⟩

instance : Std.Total revLE where
  total x y := by
    rcases lt_trichotomy (ofLex x.1).1 (ofLex y.1).1 with h | h | h
    · exact .inl (.inl h)
    · exact (le_total (ofLex y.1).2 (ofLex x.1).2).imp (.inr ⟨h, ·⟩) (.inr ⟨h.symm, ·⟩)
    · exact .inr (.inl h)

instance : IsTrans _ revLE where
  trans x y z hxy hyz := by
    rcases hxy with hxy | ⟨hxy, hxy'⟩ <;> rcases hyz with hyz | ⟨hyz, hyz'⟩
    · exact .inl (hxy.trans hyz)
    · exact .inl (hyz ▸ hxy)
    · exact .inl (hxy ▸ hyz)
    · exact .inr ⟨hxy.trans hyz, hyz'.trans hxy'⟩

/-! ## The newest ABI of an account -/

/-- The newest ABI of an account that is not newer than block `h`. -/
def RevisionAt (history : Table (Name ×ₗ Nat) Bytes) (account h : Nat) (data : Bytes) : Prop :=
  ∃ k ≤ h, history.find? (toLex (account, k)) = some data ∧
    ∀ k', k < k' → k' ≤ h → history.find? (toLex (account, k')) = none

variable {history : Table (Name ×ₗ Nat) Bytes} {account h : Nat} {data : Bytes}

theorem RevisionAt.unique {data' : Bytes} (hd : RevisionAt history account h data)
    (hd' : RevisionAt history account h data') : data = data' := by
  obtain ⟨k, hk, hrow, hnew⟩ := hd
  obtain ⟨k', hk', hrow', hnew'⟩ := hd'
  rcases lt_trichotomy k k' with hlt | rfl | hlt
  · rw [hnew k' hlt hk'] at hrow'
    cases hrow'
  · exact Option.some.inj (hrow.symm.trans hrow')
  · rw [hnew' k hlt hk] at hrow
    cases hrow

/-- Later blocks without a row do not matter. -/
theorem revisionAt_congr {h' : Nat} (hle : h ≤ h')
    (hnone : ∀ k, h < k → k ≤ h' → history.find? (toLex (account, k)) = none) :
    RevisionAt history account h' data ↔ RevisionAt history account h data := by
  constructor
  · rintro ⟨k, hk, hrow, hnew⟩
    refine ⟨k, ?_, hrow, fun k' hlt hk' ↦ hnew k' hlt (hk'.trans hle)⟩
    by_contra hlt
    rw [hnone k (not_le.mp hlt) hk] at hrow
    cases hrow
  · rintro ⟨k, hk, hrow, hnew⟩
    refine ⟨k, hk.trans hle, hrow, fun k' hlt hk' ↦ ?_⟩
    rcases le_or_gt k' h with hle' | hgt
    · exact hnew k' hlt hle'
    · exact hnone k' hgt hk'

/-- A row written at block `h` itself is the newest. -/
theorem revisionAt_insert {a : Name} {new : Bytes} :
    RevisionAt (history.insert (toLex (a, h)) new) account h data ↔
      if account = a then data = new else RevisionAt history account h data := by
  have hother : ∀ k, (account ≠ a ∨ k ≠ h) →
      (history.insert (toLex (a, h)) new).find? (toLex (account, k)) =
        history.find? (toLex (account, k)) := fun k hk ↦
    Table.find?_insert_of_ne _ _ fun heq ↦ by
      have hp := Prod.mk.inj (toLex_inj.mp heq)
      exact hk.elim (· hp.1) (· hp.2)
  split_ifs with ha
  · subst ha
    constructor
    · rintro ⟨k, hk, hrow, hnew⟩
      obtain rfl : k = h := by
        by_contra hne
        have hself := hnew h (by omega) le_rfl
        simp at hself
      simpa [eq_comm] using hrow
    · rintro rfl
      exact ⟨h, le_rfl, Table.find?_insert_self .., fun k' hlt hle ↦ by omega⟩
  · refine exists_congr fun k ↦ and_congr_right fun _ ↦ ?_
    rw [hother k (.inl ha)]
    exact and_congr_right fun _ ↦ forall_congr' fun k' ↦ by rw [hother k' (.inl ha)]

/-! ## `lower_bound` -/

/-- The row that `lower_bound` stops at is the first one that is not before the key. -/
theorem lowerBoundRev_spec {row : (Name ×ₗ Nat) × Bytes}
    (hrow : lowerBoundRev history account h = some row) :
    row ∈ history.rows ∧ revLE (toLex (account, h), []) row ∧
      ∀ row' ∈ history.rows, revLE (toLex (account, h), []) row' → revLE row row' := by
  rw [lowerBoundRev] at hrow
  refine ⟨(List.mem_insertionSort revLE).mp (List.mem_of_find?_eq_some hrow),
    by simpa using List.find?_some hrow, fun row' hmem hle ↦ ?_⟩
  exact rel_of_find? revLE_refl (List.pairwise_insertionSort revLE _) hrow
    ((List.mem_insertionSort revLE).mpr hmem) (decide_eq_true hle)

/-- The row that `lower_bound` stops at, if it is one of the account. -/
theorem lowerBoundRev_revisionAt {row : (Name ×ₗ Nat) × Bytes}
    (hrow : lowerBoundRev history account h = some row) (ha : (ofLex row.1).1 = account) :
    RevisionAt history account h row.2 := by
  obtain ⟨hmem, hle, hleast⟩ := lowerBoundRev_spec hrow
  obtain ⟨key, data⟩ := row
  obtain ⟨a, k⟩ := key
  obtain rfl : a = account := ha
  have hk : k ≤ h := hle.elim (absurd · (lt_irrefl _)) And.right
  refine ⟨k, hk, Table.mem_rows.mp hmem, fun k' hlt hk' ↦ ?_⟩
  cases hf : history.find? (toLex (a, k')) with
  | none => rfl
  | some data' =>
      have hge := hleast _ (Table.mem_rows.mpr hf) (.inr ⟨rfl, hk'⟩)
      rcases hge with hlt' | ⟨-, hle'⟩
      · exact absurd hlt' (lt_irrefl _)
      · exact absurd hlt (not_lt.mpr hle')

/-- An account with a row that is not too new is not passed over. -/
theorem RevisionAt.lowerBoundRev (hd : RevisionAt history account h data) :
    ∃ row, lowerBoundRev history account h = some row ∧ (ofLex row.1).1 = account ∧
      row.2 = data := by
  obtain ⟨k, hk, hrow, hnew⟩ := hd
  have hmem := Table.mem_rows.mpr hrow
  have hle : revLE (toLex (account, h), []) (toLex (account, k), data) := .inr ⟨rfl, hk⟩
  cases hf : Chronicle.lowerBoundRev history account h with
  | none =>
      have hbefore := List.find?_eq_none.mp hf _ ((List.mem_insertionSort revLE).mpr hmem)
      exact absurd (decide_eq_true hle) hbefore
  | some row =>
      obtain ⟨-, hge, hleast⟩ := lowerBoundRev_spec hf
      have ha : (ofLex row.1).1 = account := by
        rcases hge with hlt | ⟨heq, -⟩
        · rcases hleast _ hmem hle with hlt' | ⟨heq, -⟩
          · exact absurd (hlt.trans hlt') (lt_irrefl _)
          · exact heq
        · exact heq.symm
      exact ⟨row, rfl, ha, (lowerBoundRev_revisionAt hf ha).unique ⟨k, hk, hrow, hnew⟩⟩

/-! ## Fresh lookups -/

/-- The ABI that `get_contract_abi_ready` loads for an account that is not in the cache. -/
def World.freshAbi (w : World Abi) (account : Name) : Option Abi :=
  (w.lookupAbi account).bind lib.convert

/-- What the context holds for an account after it was loaded. -/
theorem Proc.find?_load {p : Proc Abi} (hc : p.Cached) {a : Name}
    (ha : a ∉ p.contractAbiImported) (found : Option Bytes) :
    (p.load lib a found).contractAbiCtxt.find? a = found.bind lib.convert := by
  rw [Proc.load, if_neg ha]
  cases found with
  | none => exact hc.find?_eq_none ha
  | some data => exact (lib.find?_addAbi (hc.find?_eq_none ha) data a).trans (if_pos rfl)

end Chronicle
