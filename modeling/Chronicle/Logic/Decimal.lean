import Mathlib.Data.Nat.Digits.Defs

/-!
# Decimal fields

A number below a power of ten is written in a field of that width, with zeros before it, and a
field of digits is read as a number.  The two are inverse to each other, so a record of such
fields and the marks between them is determined by its numbers.
-/

namespace Decimal

/-- The number that some digits are read as. -/
def read (cs : List Char) : Nat := Nat.ofDigitChars 10 cs 0

/-- A number with zeros before it, up to a width. -/
def write (width n : Nat) : List Char :=
  List.replicate (width - (Nat.toDigits 10 n).length) '0' ++ Nat.toDigits 10 n

theorem read_write (width n : Nat) : read (write width n) = n := by
  rw [read, write, Nat.ofDigitChars_append, Nat.ofDigitChars_replicate_zero, Nat.mul_zero]
  exact Nat.ofDigitChars_ten_toDigits

theorem write_isDigit {width n : Nat} : ∀ c ∈ write width n, c.isDigit := by
  intro c hc
  rcases List.mem_append.mp hc with hc | hc
  · rw [List.eq_of_mem_replicate hc]
    rfl
  · exact Nat.isDigit_of_mem_toDigits (by decide) (by decide) hc

/-- A field is as wide as it should be, if the number fits. -/
theorem length_write {width n : Nat} (hw : 0 < width) (h : n < 10 ^ width) :
    (write width n).length = width := by
  rw [write, List.length_append, List.length_replicate]
  exact Nat.sub_add_cancel ((Nat.length_toDigits_le_iff (by decide) hw).mpr h)

/-- The digit that a character stands for. -/
def digit (c : Char) : Nat := c.toNat - '0'.toNat

theorem digit_lt {c : Char} (h : c.isDigit) : digit c < 10 :=
  Nat.sub_lt_left_of_lt_add (Char.isDigit_iff_toNat.mp h).1
    (Nat.lt_succ_of_le (Char.isDigit_iff_toNat.mp h).2)

theorem digitChar_digit {c : Char} (h : c.isDigit) : Nat.digitChar (digit c) = c := by
  apply Char.toNat_inj.mp
  rw [Nat.toNat_digitChar_of_lt_ten (digit_lt h)]
  exact Nat.add_sub_cancel' (Char.isDigit_iff_toNat.mp h).1

theorem read_eq_ofDigits (cs : List Char) : read cs = Nat.ofDigits 10 (cs.map digit).reverse := by
  rw [read, Nat.ofDigitChars_eq_foldl, Nat.ofDigits_eq_foldr, List.foldr_reverse, List.foldl_map]
  refine congrArg (fun f ↦ List.foldl f 0 cs) ?_
  funext n c
  exact Nat.add_comm _ _

theorem map_digit_lt {cs : List Char} (h : ∀ c ∈ cs, c.isDigit) :
    ∀ d ∈ (cs.map digit).reverse, d < 10 := by
  intro d hd
  obtain ⟨c, hc, rfl⟩ := List.mem_map.mp (List.mem_reverse.mp hd)
  exact digit_lt (h c hc)

theorem map_digitChar_map_digit {cs : List Char} (h : ∀ c ∈ cs, c.isDigit) :
    (cs.map digit).map Nat.digitChar = cs := by
  rw [List.map_map]
  exact (List.map_congr_left fun c hc ↦ digitChar_digit (h c hc)).trans (List.map_id cs)

theorem read_lt {cs : List Char} (h : ∀ c ∈ cs, c.isDigit) : read cs < 10 ^ cs.length := by
  have hlt := Nat.ofDigits_lt_base_pow_length (by decide : 1 < 10) (map_digit_lt h)
  rwa [List.length_reverse, List.length_map, ← read_eq_ofDigits] at hlt

/-- Digits are determined by how many they are and what they are read as. -/
theorem read_inj {cs ds : List Char} (hcs : ∀ c ∈ cs, c.isDigit) (hds : ∀ c ∈ ds, c.isDigit)
    (hlength : cs.length = ds.length) (h : read cs = read ds) : cs = ds := by
  have hmap : (cs.map digit).reverse = (ds.map digit).reverse := by
    refine Nat.ofDigits_inj_of_len_eq (by decide : 1 < 10) ?_ (map_digit_lt hcs)
      (map_digit_lt hds) ?_
    · simp only [List.length_reverse, List.length_map]
      exact hlength
    · rw [← read_eq_ofDigits, ← read_eq_ofDigits]
      exact h
  rw [← map_digitChar_map_digit hcs, List.reverse_inj.mp hmap, map_digitChar_map_digit hds]

/-- A field is written back as it was read. -/
theorem write_read {cs : List Char} (hcs : ∀ c ∈ cs, c.isDigit) (hne : cs ≠ []) :
    write cs.length (read cs) = cs := by
  refine read_inj write_isDigit hcs ?_ (read_write _ _)
  exact length_write (List.length_pos_iff.mpr hne) (read_lt hcs)

/-! ## Records -/

section Records

variable {cs : List Char} {pos width : Nat}

/-- The characters of a field. -/
def field (cs : List Char) (pos width : Nat) : List Char := (cs.drop pos).take width

theorem field_append : field cs pos width ++ cs.drop (pos + width) = cs.drop pos := by
  rw [← List.drop_drop]
  exact List.take_append_drop _ _

theorem mark_cons {c : Char} (h : cs[pos]? = some c) : c :: cs.drop (pos + 1) = cs.drop pos := by
  obtain ⟨hpos, rfl⟩ := List.getElem?_eq_some_iff.mp h
  exact (List.drop_eq_getElem_cons hpos).symm

theorem field_digits (h : ∀ i < width, (cs[pos + i]?).any Char.isDigit) :
    (field cs pos width).length = width ∧ ∀ c ∈ field cs pos width, c.isDigit := by
  have hget (i : Nat) (hi : i < width) : (field cs pos width)[i]? = cs[pos + i]? := by
    rw [field, List.getElem?_take_of_lt hi, List.getElem?_drop]
  have hlength : (field cs pos width).length = width := by
    refine Nat.le_antisymm (List.length_take_le _ _) (Nat.le_of_not_lt fun hlt ↦ ?_)
    have hsome := h _ hlt
    rw [← hget _ hlt, List.getElem?_eq_none (Nat.le_refl _)] at hsome
    cases hsome
  refine ⟨hlength, ?_⟩
  intro c hc
  obtain ⟨i, hi, rfl⟩ := List.getElem_of_mem hc
  have hdigit := h i (hlength ▸ hi)
  rwa [← hget i (hlength ▸ hi), List.getElem?_eq_getElem hi] at hdigit

/-- A field of digits is read as a number that fits into it, and is written back as it was. -/
theorem read_field (hw : 0 < width) (h : ∀ i < width, (cs[pos + i]?).any Char.isDigit) :
    read (field cs pos width) < 10 ^ width ∧
      write width (read (field cs pos width)) = field cs pos width := by
  obtain ⟨hlength, hdigits⟩ := field_digits h
  have hne : field cs pos width ≠ [] := List.ne_nil_of_length_pos (hlength.symm ▸ hw)
  have hlt := read_lt hdigits
  have hwrite := write_read hdigits hne
  rw [hlength] at hlt hwrite
  exact ⟨hlt, hwrite⟩

end Records

end Decimal
