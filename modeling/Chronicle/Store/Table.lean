import Mathlib.Order.Basic
import Mathlib.Data.List.Basic
import Mathlib.Data.List.Pairwise
import Mathlib.Data.Prod.Lex

/-!
# Tables with a unique ordered key

A `Table κ α` is what an ordered unique index of a multi-index container holds:
rows listed in strictly ascending key order, so that no two rows share a key.
The order is a field of the structure, hence two tables with the same lookups
are the same table (`Table.ext_find?`).

Nothing here depends on what the rows are for.
-/

universe u v

namespace Store

/-- Rows in strictly ascending key order. -/
structure Table (κ : Type u) (α : Type v) [LinearOrder κ] where
  /-- The rows, in the order in which the index is walked. -/
  rows : List (κ × α)
  sorted : rows.Pairwise fun r s ↦ r.1 < s.1

namespace Table

variable {κ : Type u} {α : Type v} [LinearOrder κ]

/-! ## Sorted row lists -/

/-- Put a row at its place, replacing the row that has its key. -/
def insertRow (k : κ) (a : α) : List (κ × α) → List (κ × α)
  | [] => [(k, a)]
  | (k', a') :: rest =>
    if k < k' then (k, a) :: (k', a') :: rest
    else if k = k' then (k, a) :: rest
    else (k', a') :: insertRow k a rest

theorem mem_insertRow {k : κ} {a : α} {r : κ × α} {l : List (κ × α)}
    (h : r ∈ insertRow k a l) : r = (k, a) ∨ r ∈ l := by
  induction l with
  | nil => exact .inl (by simpa [insertRow] using h)
  | cons hd tl ih =>
      obtain ⟨k', a'⟩ := hd
      rw [insertRow] at h
      split_ifs at h with h₁ h₂
      · simpa using h
      · rcases List.mem_cons.mp h with h | h
        · exact .inl h
        · exact .inr (List.mem_cons_of_mem _ h)
      · rcases List.mem_cons.mp h with h | h
        · exact .inr (h ▸ List.mem_cons_self)
        · exact (ih h).imp_right (List.mem_cons_of_mem _)

theorem insertRow_sorted {k : κ} {a : α} {l : List (κ × α)}
    (h : l.Pairwise fun r s ↦ r.1 < s.1) :
    (insertRow k a l).Pairwise fun r s ↦ r.1 < s.1 := by
  induction l with
  | nil => simp [insertRow]
  | cons hd tl ih =>
      obtain ⟨k', a'⟩ := hd
      obtain ⟨hhd, htl⟩ := List.pairwise_cons.mp h
      rw [insertRow]
      split_ifs with h₁ h₂
      · refine List.pairwise_cons.mpr ⟨fun r hr ↦ ?_, h⟩
        rcases List.mem_cons.mp hr with rfl | hr
        · exact h₁
        · exact h₁.trans (hhd r hr)
      · subst h₂
        exact List.pairwise_cons.mpr ⟨hhd, htl⟩
      · refine List.pairwise_cons.mpr ⟨fun r hr ↦ ?_, ih htl⟩
        rcases mem_insertRow hr with rfl | hr
        · exact lt_of_le_of_ne (not_lt.mp h₁) (Ne.symm h₂)
        · exact hhd r hr

/-- A row with a new key is put between the others. -/
theorem insertRow_perm {k : κ} (a : α) {l : List (κ × α)} (h : ∀ r ∈ l, r.1 ≠ k) :
    (insertRow k a l).Perm ((k, a) :: l) := by
  induction l with
  | nil => exact .refl _
  | cons hd tl ih =>
      obtain ⟨k', a'⟩ := hd
      have hne : k ≠ k' := Ne.symm (h _ List.mem_cons_self)
      rw [insertRow, if_neg hne]
      split_ifs
      · exact .refl _
      · exact ((ih fun r hr ↦ h r (List.mem_cons_of_mem _ hr)).cons _).trans (.swap ..)

/-- The value of the first row with key `k`. -/
def lookupRow (k : κ) : List (κ × α) → Option α
  | [] => none
  | (k', a) :: rest => if k = k' then some a else lookupRow k rest

theorem lookupRow_insertRow (k k' : κ) (a : α) (l : List (κ × α)) :
    lookupRow k' (insertRow k a l) = if k' = k then some a else lookupRow k' l := by
  induction l with
  | nil => rfl
  | cons hd tl ih =>
      obtain ⟨k₂, a₂⟩ := hd
      rw [insertRow]
      by_cases h₁ : k < k₂
      · simp only [if_pos h₁, lookupRow]
      · rw [if_neg h₁]
        by_cases h₂ : k = k₂
        · subst h₂
          by_cases h₃ : k' = k <;> simp [lookupRow, h₃]
        · rw [if_neg h₂, lookupRow, lookupRow, ih]
          by_cases h₃ : k' = k₂
          · simp [h₃, Ne.symm h₂]
          · simp [h₃]

theorem lookupRow_eq_some_of_mem {l : List (κ × α)} (h : l.Pairwise fun r s ↦ r.1 < s.1)
    {k : κ} {a : α} (hm : (k, a) ∈ l) : lookupRow k l = some a := by
  induction l with
  | nil => cases hm
  | cons hd tl ih =>
      obtain ⟨k', a'⟩ := hd
      obtain ⟨hhd, htl⟩ := List.pairwise_cons.mp h
      rcases List.mem_cons.mp hm with hm | hm
      · cases hm
        simp [lookupRow]
      · have hlt : k' < k := hhd _ hm
        simp [lookupRow, ne_of_gt hlt, ih htl hm]

theorem mem_of_lookupRow_eq_some {l : List (κ × α)} {k : κ} {a : α}
    (h : lookupRow k l = some a) : (k, a) ∈ l := by
  induction l with
  | nil => cases h
  | cons hd tl ih =>
      obtain ⟨k', a'⟩ := hd
      rw [lookupRow] at h
      split_ifs at h with hk
      · cases h
        subst hk
        exact List.mem_cons_self
      · exact List.mem_cons_of_mem _ (ih h)

/-! ## Tables -/

/-- The table without rows. -/
def empty : Table κ α := ⟨[], .nil⟩

instance : EmptyCollection (Table κ α) := ⟨empty⟩

instance : Inhabited (Table κ α) := ⟨empty⟩

/-- The value of the row with key `k`. -/
def find? (t : Table κ α) (k : κ) : Option α := lookupRow k t.rows

/-- Write the row with key `k`, whether or not there is one already. -/
def insert (t : Table κ α) (k : κ) (a : α) : Table κ α :=
  ⟨insertRow k a t.rows, insertRow_sorted t.sorted⟩

/-- Write a row, unless there is one with its key already. -/
def create (t : Table κ α) (k : κ) (a : α) : Option (Table κ α) :=
  if (t.find? k).isSome then none else some (t.insert k a)

/-- The rows that satisfy a predicate. -/
def filter (t : Table κ α) (p : κ → α → Bool) : Table κ α :=
  ⟨t.rows.filter fun r ↦ p r.1 r.2, t.sorted.filter _⟩

/-- Remove the row with key `k`. -/
def erase (t : Table κ α) (k : κ) : Table κ α := t.filter fun k' _ ↦ k' ≠ k

/-- A row is listed exactly when its key is looked up to its value. -/
theorem mem_rows {t : Table κ α} {k : κ} {a : α} :
    (k, a) ∈ t.rows ↔ t.find? k = some a :=
  ⟨lookupRow_eq_some_of_mem t.sorted, mem_of_lookupRow_eq_some⟩

theorem exists_mem_rows {t : Table κ α} {k : κ} :
    (∃ r ∈ t.rows, r.1 = k) ↔ (t.find? k).isSome := by
  rw [Option.isSome_iff_exists]
  constructor
  · rintro ⟨r, hr, rfl⟩
    exact ⟨r.2, mem_rows.mp hr⟩
  · rintro ⟨a, ha⟩
    exact ⟨(k, a), mem_rows.mpr ha, rfl⟩

/-- A table is determined by its lookups. -/
theorem ext_find? {s t : Table κ α} (h : ∀ k, s.find? k = t.find? k) : s = t := by
  have hmem : ∀ r, r ∈ s.rows ↔ r ∈ t.rows := fun r ↦ by
    rw [← Prod.mk.eta (p := r), mem_rows, mem_rows, h]
  have hnodup : ∀ {l : List (κ × α)}, (l.Pairwise fun r s ↦ r.1 < s.1) → l.Nodup :=
    fun hl ↦ hl.imp fun hlt heq ↦ absurd (congrArg Prod.fst heq) (ne_of_lt hlt)
  have hperm : s.rows.Perm t.rows :=
    (List.perm_ext_iff_of_nodup (hnodup s.sorted) (hnodup t.sorted)).mpr hmem
  have hrows : s.rows = t.rows :=
    List.Perm.eq_of_pairwise (fun _ _ _ _ hab hba ↦ absurd hab (lt_asymm hba))
      s.sorted t.sorted hperm
  cases s
  cases t
  exact (Table.mk.injEq ..).mpr hrows

theorem create_eq_none {t : Table κ α} {k : κ} {a : α} :
    t.create k a = none ↔ (t.find? k).isSome := by
  unfold create
  split_ifs with h
  · exact iff_of_true rfl h
  · exact iff_of_false (nomatch ·) h

/-- A row that is created is added to those of before. -/
theorem rows_create {t t' : Table κ α} {k : κ} {a : α} (h : t.create k a = some t') :
    t'.rows.Perm ((k, a) :: t.rows) := by
  unfold create at h
  split_ifs at h with hk
  obtain rfl := Option.some.inj h
  refine insertRow_perm a fun r hr heq ↦ hk ?_
  subst heq
  rw [mem_rows.mp hr]
  rfl

@[simp] theorem find?_empty (k : κ) : (∅ : Table κ α).find? k = none := rfl

@[simp] theorem rows_empty : (∅ : Table κ α).rows = [] := rfl

theorem find?_insert (t : Table κ α) (k k' : κ) (a : α) :
    (t.insert k a).find? k' = if k' = k then some a else t.find? k' :=
  lookupRow_insertRow k k' a t.rows

@[simp] theorem find?_insert_self (t : Table κ α) (k : κ) (a : α) :
    (t.insert k a).find? k = some a := by simp [find?_insert]

theorem find?_insert_of_ne (t : Table κ α) {k k' : κ} (a : α) (h : k' ≠ k) :
    (t.insert k a).find? k' = t.find? k' := by simp [find?_insert, h]

theorem find?_filter (t : Table κ α) (p : κ → α → Bool) (k : κ) :
    (t.filter p).find? k = (t.find? k).filter (p k) := by
  refine Option.ext fun a ↦ ?_
  rw [Option.filter_eq_some_iff, ← mem_rows, ← mem_rows]
  exact List.mem_filter

theorem find?_erase (t : Table κ α) (k k' : κ) :
    (t.erase k).find? k' = if k' = k then none else t.find? k' := by
  rw [erase, find?_filter]
  by_cases h : k' = k
  · simp [h]
  · cases t.find? k' <;> simp [h]

@[simp] theorem find?_erase_self (t : Table κ α) (k : κ) : (t.erase k).find? k = none := by
  simp [find?_erase]

theorem find?_erase_of_ne (t : Table κ α) {k k' : κ} (h : k' ≠ k) :
    (t.erase k).find? k' = t.find? k' := by simp [find?_erase, h]

/-- Writing rows one by one into a table: the last row of a key is the one kept. -/
def insertAll (t : Table κ α) (l : List (κ × α)) : Table κ α :=
  l.foldl (fun t r ↦ t.insert r.1 r.2) t

end Table

end Store
