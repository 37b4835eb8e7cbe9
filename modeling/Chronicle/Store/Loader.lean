import Chronicle.Store.Table
import Mathlib.Data.List.Perm.Basic
import Mathlib.Data.List.Nodup

/-!
# Filling a store row by row

A `RowStore` is a store into which rows are created one at a time.  Some rows have a key,
and no two rows of a store share one: creating a row whose key is taken fails.

A list of rows is loaded by creating them in order until one cannot be created
(`createAll`).  Nothing is undone when that happens.  The results here say when all rows
are created (`createAll_fst_iff`), what the store then holds (`contents_createAll`), and
when an attempt that failed has left the store as it was (`createAll_unchanged_iff`).

Nothing here depends on what the rows are for.
-/

open scoped List

universe u v w

namespace Store

/-- A store whose rows are created one at a time. -/
structure RowStore (ρ : Type u) (κ : Type v) (σ : Type w) where
  /-- The key of a row, if rows of its kind have one. -/
  key? : ρ → Option κ
  /-- The rows of a store. -/
  contents : σ → List ρ
  /-- Create a row, unless its key is taken. -/
  create : ρ → σ → Option σ
  create_eq_none {r : ρ} {s : σ} :
    create r s = none ↔ ∃ k, key? r = some k ∧ k ∈ (contents s).filterMap key?
  contents_create {r : ρ} {s s' : σ} :
    create r s = some s' → contents s' ~ r :: contents s

namespace RowStore

variable {ρ : Type u} {κ : Type v} {σ : Type w} (S : RowStore ρ κ σ)

/-- The keys of a list of rows. -/
def keys (rows : List ρ) : List κ := rows.filterMap S.key?

/-- Create rows in order, up to the first that cannot be created: whether there was none,
and the store that is left. -/
def createAll : List ρ → σ → Bool × σ
  | [], s => (true, s)
  | r :: rows, s =>
    match S.create r s with
    | none => (false, s)
    | some s' => createAll rows s'

/-- No two of the rows share a key, and none has a key that the store has already. -/
def Fresh (rows : List ρ) (s : σ) : Prop :=
  (S.keys rows).Nodup ∧ ∀ k ∈ S.keys rows, k ∉ S.keys (S.contents s)

/-! ## One row -/

theorem keys_cons_none {r : ρ} (rows : List ρ) (h : S.key? r = none) :
    S.keys (r :: rows) = S.keys rows := List.filterMap_cons_none h

theorem keys_cons_some {r : ρ} {k : κ} (rows : List ρ) (h : S.key? r = some k) :
    S.keys (r :: rows) = k :: S.keys rows := List.filterMap_cons_some h

theorem keys_create {r : ρ} {s s' : σ} (h : S.create r s = some s') :
    S.keys (S.contents s') ~ S.keys (r :: S.contents s) :=
  (S.contents_create h).filterMap S.key?

/-- A row that can be created is one that no key stands against. -/
theorem create_isSome_iff {r : ρ} {s : σ} :
    (S.create r s).isSome ↔ ∀ k, S.key? r = some k → k ∉ S.keys (S.contents s) := by
  rw [← not_iff_not, Bool.not_eq_true, Option.isSome_eq_false_iff, Option.isNone_iff_eq_none,
    S.create_eq_none]
  push Not
  rfl

/-- What the first row leaves of the condition on the others. -/
theorem fresh_cons {r : ρ} {rows : List ρ} {s s' : σ} (h : S.create r s = some s') :
    S.Fresh (r :: rows) s ↔ S.Fresh rows s' := by
  have hmem : ∀ k, k ∈ S.keys (S.contents s') ↔ k ∈ S.keys (r :: S.contents s) :=
    fun k ↦ (S.keys_create h).mem_iff
  unfold Fresh
  cases hk : S.key? r with
  | none =>
      rw [S.keys_cons_none _ hk] at hmem
      simp only [S.keys_cons_none _ hk, hmem]
  | some k =>
      have hfree : k ∉ S.keys (S.contents s) :=
        S.create_isSome_iff.mp (by rw [h]; rfl) k hk
      rw [S.keys_cons_some _ hk] at hmem
      simp only [S.keys_cons_some _ hk, hmem, List.nodup_cons, List.mem_cons, not_or]
      constructor
      · rintro ⟨⟨hnot, hnodup⟩, hold⟩
        refine ⟨hnodup, fun k' hk' ↦ ⟨?_, hold k' (.inr hk')⟩⟩
        rintro rfl
        exact hnot hk'
      · rintro ⟨hnodup, hold⟩
        refine ⟨⟨fun hin ↦ (hold k hin).1 rfl, hnodup⟩, ?_⟩
        rintro k' (rfl | hk')
        · exact hfree
        · exact (hold k' hk').2

/-! ## All rows -/

/-- All rows are created exactly if no key stands against it. -/
theorem createAll_fst_iff {rows : List ρ} {s : σ} :
    (S.createAll rows s).1 = true ↔ S.Fresh rows s := by
  induction rows generalizing s with
  | nil => exact iff_of_true rfl ⟨.nil, fun _ hk ↦ absurd hk List.not_mem_nil⟩
  | cons r rows ih =>
      rw [createAll]
      cases h : S.create r s with
      | none =>
          obtain ⟨k, hk, hin⟩ := S.create_eq_none.mp h
          refine iff_of_false Bool.false_ne_true fun hf ↦ hf.2 k ?_ hin
          rw [S.keys_cons_some _ hk]
          exact List.mem_cons_self
      | some s' => exact ih.trans (S.fresh_cons h).symm

/-- Once all rows are created, they are there beside those of before. -/
theorem contents_createAll {rows : List ρ} {s : σ} (h : (S.createAll rows s).1 = true) :
    S.contents (S.createAll rows s).2 ~ rows ++ S.contents s := by
  induction rows generalizing s with
  | nil => exact .refl _
  | cons r rows ih =>
      rw [createAll] at h ⊢
      cases hc : S.create r s with
      | none => rw [hc] at h; cases h
      | some s' =>
          rw [hc] at h
          calc S.contents (S.createAll rows s').2
              _ ~ rows ++ S.contents s' := ih h
              _ ~ rows ++ r :: S.contents s := (S.contents_create hc).append_left rows
              _ ~ r :: rows ++ S.contents s := List.perm_middle

/-- Rows are only ever added. -/
theorem length_le_createAll (rows : List ρ) (s : σ) :
    (S.contents s).length ≤ (S.contents (S.createAll rows s).2).length := by
  induction rows generalizing s with
  | nil => exact le_rfl
  | cons r rows ih =>
      rw [createAll]
      cases hc : S.create r s with
      | none => exact le_rfl
      | some s' =>
          have hlen : (S.contents s').length = (S.contents s).length + 1 :=
            (S.contents_create hc).length_eq
          calc (S.contents s).length
              _ ≤ (S.contents s').length := by rw [hlen]; exact Nat.le_succ _
              _ ≤ (S.contents (S.createAll rows s').2).length := ih s'

/-- The store is as it was exactly if not even the first row was created. -/
theorem createAll_unchanged_iff {rows : List ρ} {s : σ} :
    (S.createAll rows s).2 = s ↔ ∀ r ∈ rows.head?, S.create r s = none := by
  cases rows with
  | nil => exact iff_of_true rfl fun _ hr ↦ nomatch hr
  | cons r rows =>
      rw [createAll, List.head?_cons]
      cases hc : S.create r s with
      | none => exact iff_of_true rfl fun r' hr ↦ by cases hr; exact hc
      | some s' =>
          have hlen : (S.contents s').length = (S.contents s).length + 1 :=
            (S.contents_create hc).length_eq
          refine iff_of_false (fun heq ↦ ?_) fun hall ↦ nomatch hc.symm.trans (hall r rfl)
          have hle := S.length_le_createAll rows s'
          rw [show (S.createAll rows s').2 = s from heq, hlen] at hle
          exact absurd hle (Nat.not_succ_le_self _)

end RowStore

end Store
