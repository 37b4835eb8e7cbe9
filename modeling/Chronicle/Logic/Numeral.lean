import Mathlib.Data.Nat.Digits.Lemmas

/-!
# Numerals

A number is written with its digits in some base, lowest first, with at least one digit.  It is
multiplied in place, in one pass over the digits: each digit is multiplied, the lowest digit of
the sum with the carry stays, and the rest is the carry for the next digit; what is left at the
end is appended.
-/

namespace Numeral

variable {b m : Nat}

/-- The numeral of a number. -/
def write (b n : Nat) : List Nat := if n = 0 then [0] else Nat.digits b n

/-- A pass over digits: what becomes of them, and the carry that is left. -/
def pass (b m : Nat) : Nat → List Nat → List Nat × Nat
  | carry, [] => ([], carry)
  | carry, d :: ds =>
    let sum := carry + d * m
    let (ds, carry) := pass b m (sum / b) ds
    (sum % b :: ds, carry)

/-- The sums that a pass computes. -/
def sums (b m : Nat) : Nat → List Nat → List Nat
  | _, [] => []
  | carry, d :: ds =>
    let sum := carry + d * m
    sum :: sums b m (sum / b) ds

/-- What a pass leaves, with the carry appended. -/
def multiplied (b m carry : Nat) (ds : List Nat) : List Nat :=
  (pass b m carry ds).1 ++ Nat.digits b (pass b m carry ds).2

/-! ## Numerals -/

theorem write_of_ne_zero {n : Nat} (h : n ≠ 0) : write b n = Nat.digits b n := if_neg h

theorem ofDigits_write (b n : Nat) : Nat.ofDigits b (write b n) = n := by
  rw [write]
  split_ifs with h
  · rw [Nat.ofDigits_singleton, h]
  · exact Nat.ofDigits_digits b n

theorem write_ne_nil (b n : Nat) : write b n ≠ [] := by
  rw [write]
  split_ifs with h
  · exact List.cons_ne_nil _ _
  · exact Nat.digits_ne_nil_iff_ne_zero.mpr h

theorem write_lt (hb : 1 < b) {n d : Nat} (h : d ∈ write b n) : d < b := by
  rw [write] at h
  split_ifs at h
  · rw [List.mem_singleton.mp h]
    exact Nat.zero_lt_of_lt hb
  · exact Nat.digits_lt_base hb h

/-- The digits of a numeral are those of its number, if the highest one is not zero. -/
theorem eq_write (hb : 1 < b) {ds : List Nat} {n : Nat} (hvalue : Nat.ofDigits b ds = n)
    (hlt : ∀ d ∈ ds, d < b) (hne : n ≠ 0) (hlast : ∀ h : ds ≠ [], ds.getLast h ≠ 0) :
    ds = write b n := by
  rw [write_of_ne_zero hne, ← hvalue, Nat.digits_ofDigits b hb ds hlt hlast]

theorem length_write_mono {n n' : Nat} (h : n ≤ n') :
    (write b n).length ≤ (write b n').length := by
  by_cases hn : n = 0
  · rw [hn, write, if_pos rfl]
    exact List.length_pos_of_ne_nil (write_ne_nil b n')
  · rw [write_of_ne_zero hn, write_of_ne_zero (by omega)]
    exact Nat.le_length_digits_le b n n' h

/-- A number below the base times another has at most one digit more. -/
theorem length_write_le (hb : 1 < b) {n n' : Nat} (h : n' < b * (n + 1)) :
    (write b n').length ≤ (write b n).length + 1 := by
  have hpos : 0 < (write b n).length := List.length_pos_of_ne_nil (write_ne_nil b n)
  by_cases hn' : n' = 0
  · rw [hn', write, if_pos rfl]
    exact Nat.le_add_left _ _
  · rw [write_of_ne_zero hn', Nat.digits_length_le_iff hb, pow_succ']
    refine h.trans_le (Nat.mul_le_mul_left b ?_)
    by_cases hn : n = 0
    · rw [hn]
      exact Nat.one_le_pow _ _ (Nat.zero_lt_of_lt hb)
    · rw [write_of_ne_zero hn]
      exact Nat.lt_base_pow_length_digits hb

/-! ## A pass -/

theorem length_pass (carry : Nat) (ds : List Nat) :
    (pass b m carry ds).1.length = ds.length := by
  induction ds generalizing carry with
  | nil => rfl
  | cons d ds ih => exact congrArg Nat.succ (ih _)

/-- A pass multiplies the number and adds the first carry. -/
theorem ofDigits_pass (carry : Nat) (ds : List Nat) :
    Nat.ofDigits b (pass b m carry ds).1 + b ^ ds.length * (pass b m carry ds).2 =
      carry + m * Nat.ofDigits b ds := by
  induction ds generalizing carry with
  | nil =>
      change Nat.ofDigits b [] + b ^ 0 * carry = _
      rw [Nat.ofDigits_nil, pow_zero, Nat.one_mul, Nat.zero_add, Nat.mul_zero, Nat.add_zero]
  | cons d ds ih =>
      have hsum := Nat.mod_add_div (carry + d * m) b
      calc Nat.ofDigits b (pass b m carry (d :: ds)).1 +
            b ^ (ds.length + 1) * (pass b m carry (d :: ds)).2
          = (carry + d * m) % b + b * (Nat.ofDigits b (pass b m ((carry + d * m) / b) ds).1 +
              b ^ ds.length * (pass b m ((carry + d * m) / b) ds).2) := by
            change Nat.ofDigits b ((carry + d * m) % b :: _) + _ * (pass b m _ ds).2 = _
            rw [Nat.ofDigits_cons, pow_succ']
            ring
        _ = carry + d * m + b * (m * Nat.ofDigits b ds) := by
            rw [ih, Nat.mul_add, ← Nat.add_assoc, hsum]
        _ = carry + m * Nat.ofDigits b (d :: ds) := by
            rw [Nat.ofDigits_cons]
            ring

theorem pass_lt (hb : 1 < b) {carry : Nat} {ds : List Nat} :
    ∀ d ∈ (pass b m carry ds).1, d < b := by
  induction ds generalizing carry with
  | nil => exact fun d hd ↦ absurd hd List.not_mem_nil
  | cons d ds ih =>
      intro d' hd'
      rcases List.mem_cons.mp hd' with rfl | hd'
      · exact Nat.mod_lt _ (Nat.zero_lt_of_lt hb)
      · exact ih d' hd'

/-- A carry below the factor stays below it. -/
theorem sum_div_lt (hb : 0 < b) {carry d : Nat} (hcarry : carry < m) (hd : d < b) :
    (carry + d * m) / b < m := by
  rw [Nat.div_lt_iff_lt_mul hb]
  calc carry + d * m < m + d * m := Nat.add_lt_add_right hcarry _
    _ = (d + 1) * m := by ring
    _ ≤ b * m := Nat.mul_le_mul_right m hd
    _ = m * b := Nat.mul_comm b m

/-- So no sum gets as large as the base times the factor. -/
theorem sums_lt {carry : Nat} (hcarry : carry < m) {ds : List Nat}
    (hds : ∀ d ∈ ds, d < b) : ∀ s ∈ sums b m carry ds, s < b * m := by
  induction ds generalizing carry with
  | nil => exact fun s hs ↦ absurd hs List.not_mem_nil
  | cons d ds ih =>
      intro s hs
      have hd := hds d List.mem_cons_self
      have hlt := sum_div_lt (Nat.zero_lt_of_lt hd) hcarry hd
      rcases List.mem_cons.mp hs with rfl | hs
      · rw [Nat.mul_comm b m]
        exact (Nat.div_lt_iff_lt_mul (Nat.zero_lt_of_lt hd)).mp hlt
      · exact ih hlt (fun d hd ↦ hds d (List.mem_cons_of_mem _ hd)) s hs

/-! ## Multiplication -/

theorem ofDigits_multiplied (carry : Nat) (ds : List Nat) :
    Nat.ofDigits b (multiplied b m carry ds) = carry + m * Nat.ofDigits b ds := by
  rw [multiplied, Nat.ofDigits_append, Nat.ofDigits_digits, length_pass, ofDigits_pass]

theorem multiplied_lt (hb : 1 < b) {carry : Nat} {ds : List Nat} :
    ∀ d ∈ multiplied b m carry ds, d < b := by
  intro d hd
  rcases List.mem_append.mp hd with hd | hd
  · exact pass_lt hb d hd
  · exact Nat.digits_lt_base hb hd

/-- Digits of a number that needs all of them end with one that is not zero. -/
theorem getLast_ne_zero (hb : 1 < b) {ds : List Nat} (hne : ds ≠ []) (hlt : ∀ d ∈ ds, d < b)
    (hle : b ^ (ds.length - 1) ≤ Nat.ofDigits b ds) : ds.getLast hne ≠ 0 := by
  intro hzero
  have hsplit := List.dropLast_append_getLast hne
  rw [hzero] at hsplit
  have hinit : Nat.ofDigits b ds = Nat.ofDigits b ds.dropLast := by
    rw [← hsplit, Nat.ofDigits_append_zero, List.dropLast_concat]
  have hbound := Nat.ofDigits_lt_base_pow_length hb
    fun d hd ↦ hlt d (List.dropLast_subset ds hd)
  rw [List.length_dropLast, ← hinit] at hbound
  exact absurd hle (not_le.mpr hbound)

/-- If a number does not get smaller, a pass over its numeral gives a numeral, whatever the sum at
the lowest digit is. -/
theorem write_eq_multiplied (hb : 1 < b) {n n' sum d : Nat} {ds : List Nat}
    (hn : write b n = d :: ds) (hn' : n' = sum + b * (m * Nat.ofDigits b ds)) (hle : n ≤ n') :
    sum % b :: multiplied b m (sum / b) ds = write b n' := by
  have hvalue : Nat.ofDigits b (sum % b :: multiplied b m (sum / b) ds) = n' := by
    rw [Nat.ofDigits_cons, ofDigits_multiplied, Nat.mul_add, ← Nat.add_assoc, Nat.mod_add_div, hn']
  have hlt : ∀ d ∈ sum % b :: multiplied b m (sum / b) ds, d < b := by
    intro d hd
    rcases List.mem_cons.mp hd with rfl | hd
    · exact Nat.mod_lt _ (Nat.zero_lt_of_lt hb)
    · exact multiplied_lt hb d hd
  by_cases hzero : n' = 0
  · -- all is zero: one digit, and no carry
    have hn0 : n = 0 := Nat.le_zero.mp (hzero ▸ hle)
    rw [hn0, write, if_pos rfl] at hn
    obtain ⟨-, rfl⟩ := List.cons.inj hn
    have hsum : sum = 0 := by omega
    rw [hzero, hsum, write, if_pos rfl, Nat.zero_mod, Nat.zero_div]
    exact congrArg (List.cons 0) (Nat.digits_zero b)
  · refine eq_write hb hvalue hlt hzero fun hne ↦ ?_
    by_cases hcarry : (pass b m (sum / b) ds).2 = 0
    · refine getLast_ne_zero hb hne hlt ?_
      have hlength : (sum % b :: multiplied b m (sum / b) ds).length = (write b n).length := by
        rw [hn, List.length_cons, List.length_cons, multiplied, hcarry, Nat.digits_zero,
          List.append_nil, length_pass]
      rw [hvalue, hlength]
      by_cases hn0 : n = 0
      · rw [hn0, write, if_pos rfl]
        exact Nat.one_le_iff_ne_zero.mpr hzero
      · rw [write_of_ne_zero hn0]
        refine le_trans ?_ hle
        have hlast := Nat.base_pow_length_digits_le b n hb hn0
        have hlen : 0 < (Nat.digits b n).length :=
          List.length_pos_of_ne_nil (Nat.digits_ne_nil_iff_ne_zero.mpr hn0)
        obtain ⟨k, hk⟩ := Nat.exists_eq_succ_of_ne_zero hlen.ne'
        rw [hk, pow_succ'] at hlast
        rw [hk]
        exact Nat.le_of_mul_le_mul_left hlast (Nat.zero_lt_of_lt hb)
    · have hdigits := Nat.digits_ne_nil_iff_ne_zero (b := b).mpr hcarry
      have hrest : multiplied b m (sum / b) ds ≠ [] :=
        List.append_ne_nil_of_right_ne_nil _ hdigits
      have hlast : (sum % b :: multiplied b m (sum / b) ds).getLast hne =
          (Nat.digits b (pass b m (sum / b) ds).2).getLast hdigits := by
        rw [List.getLast_cons hrest]
        exact List.getLast_append_of_ne_nil _ hdigits
      rw [hlast]
      exact Nat.getLast_digit_ne_zero b hcarry

end Numeral
