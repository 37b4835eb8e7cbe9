import Mathlib.Data.List.TakeWhile
import Mathlib.Data.List.GetD
import Chronicle.Logic.Effect
import Chronicle.Logic.Numeral

/-!
# Base 58

`DecodeBase58` of `keyops.hpp`.  Strings are lists of bytes, and a buffer is the list of the
bytes that were written to it, of which there may be only so many.  What the language leaves
undefined is a fault.
-/

namespace Chronicle

namespace KeyOps

open Effect

/-- What must not happen. -/
inductive Fault
  /-- An index of a table is too large. -/
  | table
  /-- A byte is written behind the end of a buffer. -/
  | buffer
  /-- A byte is read that nothing was written to. -/
  | unwritten
  deriving DecidableEq, Repr

/-- `ALPHABET` -/
def ALPHABET : List Char :=
  "123456789ABCDEFGHJKLMNPQRSTUVWXYZabcdefghijkmnopqrstuvwxyz".toList

/-- `ALPHABET_MAP` -/
def ALPHABET_MAP : List Int :=
  [-1, -1, -1, -1, -1, -1, -1, -1, -1, -1, -1, -1, -1, -1, -1, -1,
   -1, -1, -1, -1, -1, -1, -1, -1, -1, -1, -1, -1, -1, -1, -1, -1,
   -1, -1, -1, -1, -1, -1, -1, -1, -1, -1, -1, -1, -1, -1, -1, -1,
   -1, 0, 1, 2, 3, 4, 5, 6, 7, 8, -1, -1, -1, -1, -1, -1,
   -1, 9, 10, 11, 12, 13, 14, 15, 16, -1, 17, 18, 19, 20, 21, -1,
   22, 23, 24, 25, 26, 27, 28, 29, 30, 31, 32, -1, -1, -1, -1, -1,
   -1, 33, 34, 35, 36, 37, 38, 39, 40, 41, 42, 43, -1, 44, 45, 46,
   47, 48, 49, 50, 51, 52, 53, 54, 55, 56, 57, -1, -1, -1, -1, -1]

/-- An entry of `ALPHABET_MAP`, as an `unsigned int`. -/
def alphabetMap (c : UInt8) : Except Fault UInt32 :=
  match ALPHABET_MAP[c.toNat]? with
  | none => .error .table
  | some v => .ok (.ofInt v)

/-- The bytes of the result times 58, and the carry that is left. -/
def multiply : UInt32 → List UInt8 → List UInt8 × UInt32
  | carry, [] => ([], carry)
  | carry, b :: result =>
    let carry := carry + b.toUInt32 * 58
    let (result, last) := multiply (carry >>> 8) result
    ((carry &&& 0xff).toUInt8 :: result, last)

variable (size : Nat)

/-- A byte is written behind the others, into a buffer of `size` bytes. -/
def push (result : List UInt8) (b : UInt8) : Except Fault (List UInt8) :=
  if result.length < size then .ok (result ++ [b]) else .error .buffer

theorem lowByte_toNat (carry : UInt32) : ((carry &&& 0xff).toUInt8).toNat = carry.toNat % 256 := by
  rw [UInt32.toNat_toUInt8, UInt32.toNat_and]
  change (carry.toNat &&& 2 ^ 8 - 1) % 2 ^ 8 = _
  rw [Nat.and_two_pow_sub_one_eq_mod, Nat.mod_mod]

theorem shift_toNat (carry : UInt32) : (carry >>> 8).toNat = carry.toNat / 256 := by
  rw [UInt32.toNat_shiftRight]
  exact Nat.shiftRight_eq_div_pow _ _

/-- The bytes of the carry are written behind the others. -/
def pushCarry (result : List UInt8) (carry : UInt32) : Except Fault (List UInt8) :=
  if carry = 0 then .ok result
  else do
    let result ← push size result (carry &&& 0xff).toUInt8
    pushCarry result (carry >>> 8)
termination_by carry.toNat
decreasing_by
  rw [shift_toNat]
  have hpos : 0 < carry.toNat := by
    refine Nat.pos_of_ne_zero fun h ↦ ?_
    exact absurd (UInt32.toNat.inj h) (by assumption)
  exact Nat.div_lt_self hpos (by decide)

/-- A character of the string. -/
def readChar (result : List UInt8) (c : UInt8) : Except Fault (List UInt8) := do
  let carry ← alphabetMap c
  let (result, carry) := multiply carry result
  pushCarry size result carry

/-- The exchange of two bytes. -/
def swap (result : List UInt8) (i j : Nat) : List UInt8 :=
  (result.set i (result.getD j 0)).set j (result.getD i 0)

/-- The last `k` bytes, from the last one down, change places with those at the other end. -/
def exchange (result : List UInt8) (k : Nat) : List UInt8 :=
  let resultlen := result.length
  (List.range k).foldl (fun result n ↦
    let i := resultlen - 1 - n
    swap result i (resultlen - i - 1)) result

/-- The bytes down to the middle change places. -/
def reverseInPlace (result : List UInt8) : List UInt8 :=
  let resultlen := result.length
  let z := resultlen / 2 + resultlen % 2
  exchange result (resultlen - z)

/-- `DecodeBase58` of the bytes of `str`, with a buffer of `size` bytes: the length of the result,
and the bytes that were written. -/
def decodeBase58 (str : List UInt8) : Except Fault (Nat × List UInt8) := do
  let result ← push size [] 0
  let result ← str.foldlM (readChar size) result
  let result ← (str.takeWhile (· = '1'.toUInt8)).foldlM (fun result _ ↦ push size result 0) result
  let result := reverseInPlace result
  return (result.length, result)

/-! ## Bytes and digits -/

section Bytes

variable {size} {result r : List UInt8}

/-- The bytes of a number, lowest first. -/
def bytes (n : Nat) : List UInt8 := (Numeral.write 256 n).map UInt8.ofNat

theorem map_toNat_ofNat {ds : List Nat} (h : ∀ d ∈ ds, d < 256) :
    (ds.map UInt8.ofNat).map UInt8.toNat = ds := by
  rw [List.map_map]
  refine (List.map_congr_left fun d hd ↦ ?_).trans (List.map_id ds)
  exact UInt8.toNat_ofNat_of_lt' (h d hd)

theorem map_ofNat_toNat (r : List UInt8) : (r.map UInt8.toNat).map UInt8.ofNat = r := by
  rw [List.map_map]
  refine (List.map_congr_left fun b _ ↦ ?_).trans (List.map_id r)
  exact UInt8.ofNat_toNat

theorem map_toNat_bytes (n : Nat) : (bytes n).map UInt8.toNat = Numeral.write 256 n :=
  map_toNat_ofNat fun _ hd ↦ Numeral.write_lt (by decide) hd

theorem eq_bytes {n : Nat} (h : r.map UInt8.toNat = Numeral.write 256 n) : r = bytes n := by
  rw [bytes, ← h, map_ofNat_toNat]

theorem length_bytes (n : Nat) : (bytes n).length = (Numeral.write 256 n).length :=
  List.length_map ..

/-- Without an overflow the sums are those of numbers. -/
theorem multiply_pass {carry : UInt32} (h : carry.toNat < 2 ^ 24) (r : List UInt8) :
    ((multiply carry r).1.map UInt8.toNat, (multiply carry r).2.toNat) =
      Numeral.pass 256 58 carry.toNat (r.map UInt8.toNat) := by
  induction r generalizing carry with
  | nil => rfl
  | cons b r ih =>
      have hb := b.toNat_lt
      have hsum : (carry + b.toUInt32 * 58).toNat = carry.toNat + b.toNat * 58 := by
        rw [UInt32.toNat_add, UInt32.toNat_mul, UInt8.toNat_toUInt32]
        change (carry.toNat + b.toNat * 58 % 2 ^ 32) % 2 ^ 32 = _
        omega
      have hrest : ((carry + b.toUInt32 * 58) >>> 8).toNat < 2 ^ 24 := by
        rw [shift_toNat, hsum]
        omega
      have ih := ih hrest
      rw [shift_toNat, hsum] at ih
      rw [multiply, List.map_cons, lowByte_toNat, hsum]
      change _ = ((carry.toNat + b.toNat * 58) % 256 :: (Numeral.pass 256 58 _ _).1,
        (Numeral.pass 256 58 _ _).2)
      rw [← ih]

theorem push_eq_ok {b : UInt8} :
    push size result b = .ok r ↔ result.length + 1 ≤ size ∧ r = result ++ [b] := by
  rw [push]
  split_ifs with h
  · exact ⟨fun hr ↦ ⟨h, (Except.ok.inj hr).symm⟩, fun hr ↦ congrArg _ hr.2.symm⟩
  · exact iff_of_false (fun hr ↦ by cases hr) fun hr ↦ h hr.1

/-- The carry is written if there is room for it. -/
theorem pushCarry_eq_ok {carry : UInt32} (hsize : result.length ≤ size) :
    pushCarry size result carry = .ok r ↔
      result.length + (Nat.digits 256 carry.toNat).length ≤ size ∧
        r.map UInt8.toNat = result.map UInt8.toNat ++ Nat.digits 256 carry.toNat := by
  fun_induction pushCarry size result carry with
  | case1 result =>
      rw [UInt32.toNat_zero, Nat.digits_zero, List.append_nil, Except.ok.injEq]
      refine ⟨fun h ↦ ⟨hsize, congrArg _ h.symm⟩, fun h ↦ ?_⟩
      rw [← map_ofNat_toNat r, h.2, map_ofNat_toNat]
  | case2 result carry hne ih =>
      have hcarry : carry.toNat ≠ 0 := fun h ↦ hne (UInt32.toNat.inj h)
      rw [except_bind_eq_ok, Nat.digits_of_two_le_of_pos (by decide) (Nat.pos_of_ne_zero hcarry),
        ← shift_toNat, List.length_cons]
      constructor
      · rintro ⟨pushed, hpush, hrest⟩
        obtain ⟨hlt, rfl⟩ := push_eq_ok.mp hpush
        have hpushed : (result ++ [(carry &&& 0xff).toUInt8]).length ≤ size := by
          rw [List.length_append]
          exact hlt
        obtain ⟨hlength, hr⟩ := (ih _ hpushed).mp hrest
        rw [List.length_append, List.length_singleton] at hlength
        refine ⟨by omega, ?_⟩
        rw [hr, List.map_append, List.append_assoc, List.map_singleton, lowByte_toNat]
        rfl
      · rintro ⟨hlength, hr⟩
        have hpushed : (result ++ [(carry &&& 0xff).toUInt8]).length ≤ size := by
          rw [List.length_append, List.length_singleton]
          omega
        refine ⟨_, push_eq_ok.mpr ⟨by omega, rfl⟩, (ih _ hpushed).mpr ⟨?_, ?_⟩⟩
        · rw [List.length_append, List.length_singleton]
          omega
        · rw [hr, List.map_append, List.append_assoc, List.map_singleton, lowByte_toNat]
          rfl

theorem length_multiply (carry : UInt32) (r : List UInt8) :
    (multiply carry r).1.length = r.length := by
  induction r generalizing carry with
  | nil => rfl
  | cons b r ih => exact congrArg Nat.succ (ih _)

end Bytes

/-! ## The number of a string -/

/-- The number of a string, if `n` is that of the characters before the last one.  A character
outside the alphabet counts as -1, but as 2 ^ 32 - 1 if the lowest byte so far is zero. -/
def appendChar (n : Nat) (c : UInt8) : Nat :=
  match ALPHABET_MAP[c.toNat]? with
  | none => n
  | some (.ofNat d) => 58 * n + d
  | some (.negSucc _) => if n % 256 = 0 then 58 * n + (2 ^ 32 - 1) else 58 * n - 1

/-- The number of a string. -/
def stringNumber (str : List UInt8) : Nat := str.foldl appendChar 0

/-- What `multiply` begins with at the lowest byte. -/
def firstSum (carry b : Nat) : Nat := if carry < 58 ∨ b = 0 then carry + b * 58 else b * 58 - 1

/-- The table has digits below 58, and -1. -/
theorem alphabetMap_eq_ok {c : UInt8} {carry : UInt32} (h : alphabetMap c = .ok carry) :
    (∃ d < 58, ALPHABET_MAP[c.toNat]? = some (.ofNat d) ∧ carry.toNat = d) ∨
      (ALPHABET_MAP[c.toNat]? = some (-1) ∧ carry.toNat = 2 ^ 32 - 1) := by
  rw [alphabetMap] at h
  cases hv : ALPHABET_MAP[c.toNat]? with
  | none =>
      rw [hv] at h
      cases h
  | some v =>
      rw [hv] at h
      obtain rfl := Except.ok.inj h
      have htable : ∀ v ∈ ALPHABET_MAP, v = -1 ∨ 0 ≤ v ∧ v < 58 := by
        decide +kernel
      rcases htable v (List.mem_of_getElem? hv) with rfl | ⟨hle, hlt⟩
      · exact .inr ⟨rfl, rfl⟩
      · obtain ⟨d, rfl⟩ := Int.eq_ofNat_of_zero_le hle
        have hd : d < 58 := by omega
        refine .inl ⟨d, hd, rfl, ?_⟩
        have hmod : ((d : Int) % 2 ^ 32).toNat = d := by omega
        rw [UInt32.ofInt, hmod]
        exact UInt32.toNat_ofNat_of_lt' (hd.trans (by decide))

theorem exists_alphabetMap {c : UInt8} : (∃ carry, alphabetMap c = .ok carry) ↔ c.toNat < 128 := by
  have hlength : ALPHABET_MAP.length = 128 := rfl
  rw [alphabetMap]
  cases hv : ALPHABET_MAP[c.toNat]? with
  | none =>
      have hge := List.getElem?_eq_none_iff.mp hv
      exact iff_of_false (fun ⟨_, h⟩ ↦ by cases h) (by omega)
  | some v =>
      have hlt := (List.getElem?_eq_some_iff.mp hv).1
      exact iff_of_true ⟨_, rfl⟩ (by omega)

section Characters

variable {size} {r : List UInt8} {n : Nat} {c : UInt8} {carry : UInt32}

theorem appendChar_eq (h : alphabetMap c = .ok carry) {b q : Nat} (hb : b < 256) :
    appendChar (b + 256 * q) c = firstSum carry.toNat b + 256 * (58 * q) := by
  rcases alphabetMap_eq_ok h with ⟨d, hd, hv, hcarry⟩ | ⟨hv, hcarry⟩
  · have hfirst : firstSum carry.toNat b = d + b * 58 := by
      rw [hcarry]
      exact if_pos (.inl hd)
    rw [appendChar, hv, hfirst]
    change 58 * (b + 256 * q) + d = _
    omega
  · have hmod : (b + 256 * q) % 256 = b := by omega
    rw [appendChar, hv, firstSum, hcarry]
    change (if (b + 256 * q) % 256 = 0 then _ else _) = _
    rw [hmod]
    split_ifs <;> omega

theorem le_appendChar (h : alphabetMap c = .ok carry) (n : Nat) : n ≤ appendChar n c := by
  have hn := Nat.mod_add_div n 256
  have happend := appendChar_eq h (q := n / 256) (Nat.mod_lt n (by decide : 0 < 256))
  rw [hn] at happend
  rw [happend, firstSum]
  split_ifs <;> omega

/-- The bytes of a number times 58, and the carry that is written behind them, are those of the
number with one character more. -/
theorem multiply_bytes (h : alphabetMap c = .ok carry) (n : Nat) :
    (multiply carry (bytes n)).1.map UInt8.toNat ++
        Nat.digits 256 (multiply carry (bytes n)).2.toNat =
      Numeral.write 256 (appendChar n c) := by
  obtain ⟨d, ds, hds⟩ := List.exists_cons_of_ne_nil (Numeral.write_ne_nil 256 n)
  have hd : d < 256 := Numeral.write_lt (by decide) (hds ▸ List.mem_cons_self)
  have hrest : ∀ d ∈ ds, d < 256 := fun d hd ↦
    Numeral.write_lt (n := n) (by decide) (hds ▸ List.mem_cons_of_mem _ hd)
  have hvalue : n = d + 256 * Nat.ofDigits 256 ds := by
    rw [← Nat.ofDigits_cons, ← hds, Numeral.ofDigits_write]
  have happend : appendChar n c =
      firstSum carry.toNat d + 256 * (58 * Nat.ofDigits 256 ds) := by
    rw [hvalue]
    exact appendChar_eq h hd
  have hbytes : bytes n = .ofNat d :: ds.map UInt8.ofNat := by
    rw [bytes, hds, List.map_cons]
  have hsum : (carry + (UInt8.ofNat d).toUInt32 * 58).toNat = firstSum carry.toNat d := by
    rw [UInt32.toNat_add, UInt32.toNat_mul, UInt8.toNat_toUInt32, UInt8.toNat_ofNat_of_lt' hd]
    change (carry.toNat + d * 58 % 2 ^ 32) % 2 ^ 32 = _
    rw [firstSum]
    rcases alphabetMap_eq_ok h with ⟨v, hv, -, hcarry⟩ | ⟨-, hcarry⟩
    · rw [hcarry, if_pos (.inl hv)]
      omega
    · rw [hcarry]
      split_ifs <;> omega
  have hsmall : ((carry + (UInt8.ofNat d).toUInt32 * 58) >>> 8).toNat < 2 ^ 24 := by
    have hlt := UInt32.toNat_lt (carry + (UInt8.ofNat d).toUInt32 * 58)
    rw [shift_toNat]
    omega
  have hpass := multiply_pass hsmall (ds.map UInt8.ofNat)
  rw [shift_toNat, hsum, map_toNat_ofNat hrest] at hpass
  obtain ⟨hfirst, hcarry⟩ := Prod.mk.inj hpass
  rw [← Numeral.write_eq_multiplied (by decide) hds happend (le_appendChar h n), hbytes, multiply,
    List.map_cons, lowByte_toNat, hsum, List.cons_append, hfirst, hcarry]
  rfl

/-- A character is read if it is in the table, and there is room for the result. -/
theorem readChar_eq_ok (hsize : (bytes n).length ≤ size) :
    readChar size (bytes n) c = .ok r ↔
      c.toNat < 128 ∧ (bytes (appendChar n c)).length ≤ size ∧ r = bytes (appendChar n c) := by
  rw [readChar, except_bind_eq_ok]
  have hread : ∀ carry, alphabetMap c = .ok carry →
      (pushCarry size (multiply carry (bytes n)).1 (multiply carry (bytes n)).2 = .ok r ↔
        (bytes (appendChar n c)).length ≤ size ∧ r = bytes (appendChar n c)) := by
    intro carry hcarry
    have hlength := length_multiply carry (bytes n)
    have hmultiply := multiply_bytes hcarry n
    have hlength' := congrArg List.length hmultiply
    rw [List.length_append, List.length_map] at hlength'
    rw [pushCarry_eq_ok (by omega), hmultiply, length_bytes, hlength']
    refine and_congr_right fun _ ↦ ⟨eq_bytes, fun h ↦ ?_⟩
    rw [h, map_toNat_bytes]
  constructor
  · rintro ⟨carry, hcarry, h⟩
    exact ⟨exists_alphabetMap.mp ⟨carry, hcarry⟩, (hread carry hcarry).mp h⟩
  · rintro ⟨hlt, h⟩
    obtain ⟨carry, hcarry⟩ := exists_alphabetMap.mpr hlt
    exact ⟨carry, hcarry, (hread carry hcarry).mpr h⟩

end Characters

/-! ## The result -/

section Result

variable {size} {result r : List UInt8} {n : Nat} {str : List UInt8}

theorem le_appendChar_any (n : Nat) (c : UInt8) : n ≤ appendChar n c := by
  by_cases h : ∃ carry, alphabetMap c = .ok carry
  · obtain ⟨carry, h⟩ := h
    exact le_appendChar h n
  · rw [appendChar]
    cases hv : ALPHABET_MAP[c.toNat]? with
    | none => exact le_rfl
    | some v => exact absurd ⟨.ofInt v, by rw [alphabetMap, hv]⟩ h

theorem le_foldl_appendChar (str : List UInt8) (n : Nat) : n ≤ str.foldl appendChar n := by
  induction str generalizing n with
  | nil => exact le_rfl
  | cons c str ih => exact (le_appendChar_any n c).trans (ih _)

theorem length_bytes_mono {n' : Nat} (h : n ≤ n') : (bytes n).length ≤ (bytes n').length := by
  rw [length_bytes, length_bytes]
  exact Numeral.length_write_mono h

/-- The loop over the characters. -/
theorem readChars_eq_ok (hsize : (bytes n).length ≤ size) :
    str.foldlM (readChar size) (bytes n) = .ok r ↔
      (∀ c ∈ str, c.toNat < 128) ∧ (bytes (str.foldl appendChar n)).length ≤ size ∧
        r = bytes (str.foldl appendChar n) := by
  induction str generalizing n with
  | nil =>
      change Except.ok (bytes n) = .ok r ↔ _
      rw [Except.ok.injEq]
      exact ⟨fun h ↦ ⟨fun c hc ↦ absurd hc List.not_mem_nil, hsize, h.symm⟩, fun h ↦ h.2.2.symm⟩
  | cons c str ih =>
      rw [List.foldlM_cons, except_bind_eq_ok, List.forall_mem_cons, List.foldl_cons]
      constructor
      · rintro ⟨next, hnext, hrest⟩
        obtain ⟨hc, hle, rfl⟩ := (readChar_eq_ok hsize).mp hnext
        obtain ⟨hstr, h⟩ := (ih hle).mp hrest
        exact ⟨⟨hc, hstr⟩, h⟩
      · rintro ⟨⟨hc, hstr⟩, hle, h⟩
        have hle' := (length_bytes_mono (le_foldl_appendChar str (appendChar n c))).trans hle
        exact ⟨_, (readChar_eq_ok hsize).mpr ⟨hc, hle', rfl⟩, (ih hle').mpr ⟨hstr, hle, h⟩⟩

/-- The loop over the leading ones. -/
theorem pushZeros_eq_ok {ones : List UInt8} (hsize : result.length ≤ size) :
    ones.foldlM (fun result _ ↦ push size result 0) result = .ok r ↔
      result.length + ones.length ≤ size ∧ r = result ++ List.replicate ones.length 0 := by
  induction ones generalizing result with
  | nil =>
      change Except.ok result = .ok r ↔ _
      rw [Except.ok.injEq, List.length_nil, List.replicate_zero, List.append_nil]
      exact ⟨fun h ↦ ⟨hsize, h.symm⟩, fun h ↦ h.2.symm⟩
  | cons c ones ih =>
      have hlength : (result ++ [0]).length = result.length + 1 := List.length_append
      have happend : result ++ [0] ++ List.replicate ones.length 0 =
          result ++ List.replicate (ones.length + 1) 0 := by
        rw [List.append_assoc, List.replicate_succ]
        rfl
      rw [List.foldlM_cons, except_bind_eq_ok, List.length_cons, ← happend]
      constructor
      · rintro ⟨next, hnext, hrest⟩
        obtain ⟨hle, rfl⟩ := push_eq_ok.mp hnext
        obtain ⟨hle', h⟩ := (ih (by omega)).mp hrest
        exact ⟨by omega, h⟩
      · rintro ⟨hle, h⟩
        exact ⟨_, push_eq_ok.mpr ⟨by omega, rfl⟩, (ih (by omega)).mpr ⟨by omega, h⟩⟩

theorem getElem?_swap {i j : Nat} (hi : i < r.length) (hj : j < r.length) (p : Nat) :
    (swap r i j)[p]? = if p = j then r[i]? else if p = i then r[j]? else r[p]? := by
  rw [swap, List.getElem?_set, List.getElem?_set, List.length_set, if_pos hi, if_pos hj,
    List.getD_eq_getElem r 0 hi, List.getD_eq_getElem r 0 hj, List.getElem?_eq_getElem hi,
    List.getElem?_eq_getElem hj]
  simp only [eq_comm]

theorem length_swap (r : List UInt8) (i j : Nat) : (swap r i j).length = r.length := by
  rw [swap, List.length_set, List.length_set]

theorem exchange_succ (r : List UInt8) {k : Nat} (hk : k < r.length) :
    exchange r (k + 1) = swap (exchange r k) (r.length - 1 - k) k := by
  have hopposite : r.length - (r.length - 1 - k) - 1 = k := by omega
  rw [exchange, List.range_succ, List.foldl_append]
  change swap (exchange r k) (r.length - 1 - k) (r.length - (r.length - 1 - k) - 1) = _
  rw [hopposite]

theorem length_exchange (r : List UInt8) {k : Nat} (hk : k ≤ r.length) :
    (exchange r k).length = r.length := by
  induction k with
  | zero => rfl
  | succ k ih => rw [exchange_succ r hk, length_swap, ih (by omega)]

/-- After some exchanges as many bytes at both ends are those of the other end. -/
theorem getElem?_exchange (r : List UInt8) {k : Nat} (hk : k + k ≤ r.length) {p : Nat}
    (hp : p < r.length) :
    (exchange r k)[p]? = if p < k ∨ r.length - k ≤ p then r[r.length - 1 - p]? else r[p]? := by
  induction k generalizing p with
  | zero =>
      rw [if_neg (by omega)]
      rfl
  | succ k ih =>
      have hlength := length_exchange r (k := k) (by omega)
      have hlow := ih (by omega) (p := k) (by omega)
      have hhigh := ih (by omega) (p := r.length - 1 - k) (by omega)
      rw [if_neg (by omega)] at hlow hhigh
      rw [exchange_succ r (by omega), getElem?_swap (by omega) (by omega), hlow, hhigh,
        ih (by omega) hp]
      by_cases hpk : p = k
      · rw [if_pos hpk, if_pos (by omega), hpk]
      · by_cases hpk' : p = r.length - 1 - k
        · rw [if_neg hpk, if_pos hpk', if_pos (by omega), hpk']
          exact congrArg (fun i ↦ r[i]?) (by omega)
        · rw [if_neg hpk, if_neg hpk']
          exact if_congr (by omega) rfl rfl

/-- The exchanges reverse the result, whether its length is even or odd. -/
theorem reverseInPlace_eq (r : List UInt8) : reverseInPlace r = r.reverse := by
  have hhalf : r.length - (r.length / 2 + r.length % 2) = r.length / 2 := by omega
  have hlength := length_exchange r (k := r.length / 2) (by omega)
  change exchange r (r.length - (r.length / 2 + r.length % 2)) = _
  rw [hhalf]
  refine List.ext_getElem? fun p ↦ ?_
  by_cases hp : p < r.length
  · rw [getElem?_exchange r (by omega) hp, List.getElem?_reverse hp]
    split_ifs with hends
    · rfl
    · exact congrArg (fun i ↦ r[i]?) (by omega)
  · have hle : r.length ≤ p := not_lt.mp hp
    rw [List.getElem?_eq_none (hlength.trans_le hle),
      List.getElem?_eq_none (List.length_reverse.trans_le hle)]

/-- The leading ones of a string. -/
def leadingOnes (str : List UInt8) : Nat := (str.takeWhile (· = '1'.toUInt8)).length

/-- The bytes of a string: a zero for each leading one, and those of its number, highest first. -/
def keyBytes (str : List UInt8) : List UInt8 :=
  List.replicate (leadingOnes str) 0 ++ (bytes (stringNumber str)).reverse

theorem length_keyBytes (str : List UInt8) :
    (keyBytes str).length = leadingOnes str + (bytes (stringNumber str)).length := by
  rw [keyBytes, List.length_append, List.length_replicate, List.length_reverse]

/-- A string is decoded if its characters are in the table, and there is room for its bytes. -/
theorem decodeBase58_eq_ok {d : Nat × List UInt8} :
    decodeBase58 size str = .ok d ↔
      (∀ c ∈ str, c.toNat < 128) ∧ (keyBytes str).length ≤ size ∧
        d = ((keyBytes str).length, keyBytes str) := by
  have hpos : ∀ n, 1 ≤ (bytes n).length := fun n ↦ by
    rw [length_bytes]
    exact List.length_pos_of_ne_nil (Numeral.write_ne_nil 256 n)
  have hreverse : reverseInPlace
      (bytes (stringNumber str) ++ List.replicate (leadingOnes str) 0) = keyBytes str := by
    rw [reverseInPlace_eq, List.reverse_append, List.reverse_replicate, keyBytes]
  have hzero : [] ++ [0] = bytes 0 := rfl
  rw [decodeBase58, except_bind_eq_ok, length_keyBytes]
  constructor
  · rintro ⟨first, hfirst, h⟩
    obtain ⟨hsize, rfl⟩ := push_eq_ok.mp hfirst
    obtain ⟨read, hread, h⟩ := except_bind_eq_ok.mp h
    rw [hzero] at hread
    obtain ⟨hstr, hle, rfl⟩ := (readChars_eq_ok hsize).mp hread
    obtain ⟨result, hresult, h⟩ := except_bind_eq_ok.mp h
    obtain ⟨hle', rfl⟩ := (pushZeros_eq_ok hle).mp hresult
    refine ⟨hstr, by rw [Nat.add_comm]; exact hle', ?_⟩
    rw [← Except.ok.inj h, ← length_keyBytes, ← hreverse]
    rfl
  · rintro ⟨hstr, hle, rfl⟩
    have hsize := hpos (stringNumber str)
    refine ⟨bytes 0, push_eq_ok.mpr ⟨by change 1 ≤ size; omega, hzero⟩, ?_⟩
    have hread : str.foldlM (readChar size) (bytes 0) = .ok (bytes (stringNumber str)) :=
      (readChars_eq_ok (by change 1 ≤ size; omega)).mpr
        ⟨hstr, by change (bytes (stringNumber str)).length ≤ size; omega, rfl⟩
    refine except_bind_eq_ok.mpr ⟨_, hread, ?_⟩
    refine except_bind_eq_ok.mpr
      ⟨_, (pushZeros_eq_ok (by omega)).mpr ⟨by rw [Nat.add_comm]; exact hle, rfl⟩, ?_⟩
    rw [← length_keyBytes, ← hreverse]
    rfl

end Result

/-! ## Strings over the alphabet -/

/-- The digit of a character of the alphabet. -/
def digit58 (c : UInt8) : Nat := ALPHABET.idxOf (Char.ofNat c.toNat)

/-- The number that a string over the alphabet denotes. -/
def base58Value (str : List UInt8) : Nat := Nat.ofDigits 58 (str.map digit58).reverse

section Alphabet

variable {str : List UInt8} {c : UInt8}

theorem toNat_ofNat_toNat (c : UInt8) : (Char.ofNat c.toNat).toNat = c.toNat := by
  have hvalid : c.toNat.isValidChar := .inl (c.toNat_lt.trans (by decide))
  rw [Char.ofNat, dif_pos hvalid]
  rfl

/-- `ALPHABET_MAP` is the inverse of `ALPHABET`. -/
theorem alphabetMap_of_mem (h : Char.ofNat c.toNat ∈ ALPHABET) :
    ALPHABET_MAP[c.toNat]? = some (.ofNat (digit58 c)) ∧ digit58 c < 58 := by
  have htable : ∀ p ∈ ALPHABET.zipIdx, ALPHABET_MAP[p.1.toNat]? = some (.ofNat p.2) := by
    decide +kernel
  have hlt := List.idxOf_lt_length_of_mem h
  have hentry := htable (Char.ofNat c.toNat, digit58 c)
    (List.mem_zipIdx_iff_getElem?.mpr (List.getElem?_idxOf h))
  rw [toNat_ofNat_toNat] at hentry
  exact ⟨hentry, hlt⟩

theorem digit58_ne_zero (h : Char.ofNat c.toNat ∈ ALPHABET) (hc : c ≠ '1'.toUInt8) :
    digit58 c ≠ 0 := by
  intro hzero
  have hchar : ALPHABET[0]? = some (Char.ofNat c.toNat) := hzero ▸ List.getElem?_idxOf h
  have hone : Char.ofNat c.toNat = '1' := (Option.some.inj hchar).symm
  have hnat := toNat_ofNat_toNat c
  rw [hone] at hnat
  exact hc (UInt8.toNat.inj hnat.symm)

theorem appendChar_of_mem (h : Char.ofNat c.toNat ∈ ALPHABET) (n : Nat) :
    appendChar n c = 58 * n + digit58 c := by
  rw [appendChar, (alphabetMap_of_mem h).1]

theorem stringNumber_eq (h : ∀ c ∈ str, Char.ofNat c.toNat ∈ ALPHABET) :
    stringNumber str = base58Value str := by
  have hfold : ∀ n, str.foldl appendChar n = str.foldl (fun n c ↦ digit58 c + 58 * n) n := by
    induction str with
    | nil => exact fun n ↦ rfl
    | cons c str ih =>
        intro n
        rw [List.forall_mem_cons] at h
        rw [List.foldl_cons, List.foldl_cons, appendChar_of_mem h.1, Nat.add_comm]
        exact ih h.2 _
  rw [stringNumber, hfold, base58Value, Nat.ofDigits_eq_foldr, List.foldr_reverse, List.foldl_map]
  rfl

theorem stringNumber_ne_zero (h : ∀ c ∈ str, Char.ofNat c.toNat ∈ ALPHABET)
    (hne : ∃ c ∈ str, c ≠ '1'.toUInt8) : stringNumber str ≠ 0 := by
  obtain ⟨c, hc, hne⟩ := hne
  obtain ⟨p, q, rfl⟩ := List.append_of_mem hc
  have hdigit := digit58_ne_zero (h c hc) hne
  have hle := le_foldl_appendChar q (appendChar (p.foldl appendChar 0) c)
  rw [appendChar_of_mem (h c hc)] at hle
  rw [stringNumber, List.foldl_append, List.foldl_cons, appendChar_of_mem (h c hc)]
  omega

/-- One character of a string over the alphabet: no sum overflows, and there is at most one byte
more. -/
theorem readChar_of_mem {size : Nat} {p q : List UInt8}
    (h : ∀ d ∈ p ++ c :: q, Char.ofNat d.toNat ∈ ALPHABET)
    (hsize : (bytes (stringNumber (p ++ c :: q))).length ≤ size) :
    ∃ carry before after, alphabetMap c = .ok carry ∧
      p.foldlM (readChar size) [0] = .ok before ∧ readChar size before c = .ok after ∧
      (∀ s ∈ Numeral.sums 256 58 carry.toNat (before.map UInt8.toNat), s < 2 ^ 32) ∧
      after.length ≤ before.length + 1 := by
  have hlt : ∀ d ∈ p ++ c :: q, d.toNat < 128 := fun d hd ↦
    (List.getElem?_eq_some_iff.mp (alphabetMap_of_mem (h d hd)).1).1
  have hmem := h c (List.mem_append_right p List.mem_cons_self)
  obtain ⟨hentry, hdigit⟩ := alphabetMap_of_mem hmem
  obtain ⟨carry, hcarry⟩ :=
    exists_alphabetMap.mpr (hlt c (List.mem_append_right p List.mem_cons_self))
  have hvalue : carry.toNat = digit58 c := by
    rcases alphabetMap_eq_ok hcarry with ⟨d, -, hd, hcarry⟩ | ⟨hd, -⟩
    · rw [hcarry]
      exact Int.ofNat.inj (Option.some.inj (hd.symm.trans hentry))
    · cases hd.symm.trans hentry
  have hwhole : stringNumber (p ++ c :: q) =
      q.foldl appendChar (appendChar (p.foldl appendChar 0) c) := List.foldl_append
  rw [hwhole] at hsize
  have hnext := (length_bytes_mono (le_foldl_appendChar q _)).trans hsize
  have hbefore := (length_bytes_mono (le_appendChar_any _ c)).trans hnext
  have hfirst := (length_bytes_mono (le_foldl_appendChar p 0)).trans hbefore
  refine ⟨carry, bytes (p.foldl appendChar 0), bytes (appendChar (p.foldl appendChar 0) c), hcarry,
    (readChars_eq_ok (n := 0) hfirst).mpr
      ⟨fun c hc ↦ hlt c (List.mem_append_left _ hc), hbefore, rfl⟩,
    (readChar_eq_ok hbefore).mpr
      ⟨hlt c (List.mem_append_right p List.mem_cons_self), hnext, rfl⟩, ?_, ?_⟩
  · intro s hs
    rw [map_toNat_bytes, hvalue] at hs
    have hbound := Numeral.sums_lt hdigit (fun _ hd ↦ Numeral.write_lt (by decide) hd) s hs
    exact hbound.trans (by decide)
  · rw [length_bytes, length_bytes, appendChar_of_mem hmem]
    exact Numeral.length_write_le (by decide) (by omega)

/-- **A string over the alphabet that does not consist of ones is decoded to a zero byte for each
leading one and the bytes of the number that it denotes, highest first; none of the sums
overflows, and each character makes the result at most one byte longer.** -/
theorem decodeBase58_correct (h : ∀ c ∈ str, Char.ofNat c.toNat ∈ ALPHABET)
    (hne : ∃ c ∈ str, c ≠ '1'.toUInt8) {size : Nat}
    (hsize : leadingOnes str + (Nat.digits 256 (base58Value str)).length ≤ size) :
    let result := List.replicate (leadingOnes str) 0 ++
      ((Nat.digits 256 (base58Value str)).map UInt8.ofNat).reverse
    decodeBase58 size str = .ok (result.length, result) ∧
      ∀ p c q, str = p ++ c :: q → ∃ carry before after, alphabetMap c = .ok carry ∧
        p.foldlM (readChar size) [0] = .ok before ∧ readChar size before c = .ok after ∧
        (∀ s ∈ Numeral.sums 256 58 carry.toNat (before.map UInt8.toNat), s < 2 ^ 32) ∧
        after.length ≤ before.length + 1 := by
  intro result
  have hdigits : Numeral.write 256 (stringNumber str) = Nat.digits 256 (base58Value str) := by
    rw [Numeral.write_of_ne_zero (stringNumber_ne_zero h hne), stringNumber_eq h]
  have hresult : keyBytes str = result := by
    rw [keyBytes, bytes, hdigits]
  have hlength : (bytes (stringNumber str)).length =
      (Nat.digits 256 (base58Value str)).length := by
    rw [length_bytes, hdigits]
  constructor
  · rw [← hresult]
    refine decodeBase58_eq_ok.mpr ⟨fun c hc ↦ ?_, ?_, rfl⟩
    · exact (List.getElem?_eq_some_iff.mp (alphabetMap_of_mem (h c hc)).1).1
    · rw [length_keyBytes, hlength]
      exact hsize
  · rintro p c q rfl
    exact readChar_of_mem (q := q) h (by omega)

/-- The string `11zz` denotes 13 * 256 + 35. -/
theorem decodeBase58_correct_ones :
    decodeBase58 37 ("11zz".toList.map Char.toUInt8) = .ok (4, [0, 0, 13, 35]) := by
  have hvalue : base58Value ("11zz".toList.map Char.toUInt8) = 3363 := by decide +kernel
  have hdigits : Nat.digits 256 3363 = [35, 13] := by decide +kernel
  have halphabet : ∀ c ∈ "11zz".toList.map Char.toUInt8, Char.ofNat c.toNat ∈ ALPHABET := by
    decide +kernel
  have hsize : leadingOnes ("11zz".toList.map Char.toUInt8) +
      (Nat.digits 256 (base58Value ("11zz".toList.map Char.toUInt8))).length ≤ 37 := by
    rw [hvalue, hdigits]
    decide +kernel
  have hdecode := (decodeBase58_correct halphabet (by decide +kernel) hsize).1
  rw [hvalue, hdigits] at hdecode
  exact hdecode

end Alphabet

end KeyOps

end Chronicle
