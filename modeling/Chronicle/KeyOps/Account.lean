import Mathlib.Tactic.Ring.RingNF
import Chronicle.KeyOps.Base58
import Chronicle.Relic.Values

/-!
# Account names of keys

`shorten_key` and `key_to_account`.  A key is shortened to a name by skipping the bytes whose low
five bits are zero: the others give twelve groups of five bits, and the low four bits of one more
byte are the rest of the name.
-/

namespace Chronicle

namespace KeyOps

open Effect

/-- Where the bits go that come after `len` groups. -/
def shuffle (len : Nat) : Nat := if len = 12 then 0 else 5 * (12 - len) - 1

/-- The bits of a byte that are taken after `len` groups. -/
def trimMask (len : Nat) : UInt8 := if len = 12 then 0x0f else 0x1f

/-- The loop of `shorten_key`, before the bytes that are left. -/
def shortenLoop (res : UInt64) (len : Nat) : List UInt8 → Except Fault UInt64
  | [] => if len ≤ 12 then .error .unwritten else .ok res
  | b :: key =>
    if len ≤ 12 then
      let trimmedChar := (b &&& trimMask len).toUInt64
      if trimmedChar = 0 then shortenLoop res len key
      else shortenLoop (res ||| trimmedChar <<< (shuffle len).toUInt64) (len + 1) key
    else .ok res

/-- `shorten_key` ignores the head of a key.  Its assertion is off. -/
def shortenKey (key : List UInt8) : Except Fault UInt64 := shortenLoop 0 0 (key.drop 1)

/-- `key_to_account` of the bytes of a key. -/
def bytesToAccount (key : List UInt8) : Except Fault String := do
  let res ← shortenKey key
  return String.ofList ((Relic.nameToString res).take 12)

/-- The characters that `DecodeBase58` is called with, whose length is an `int`. -/
def keyString (pubkey : List UInt8) : List UInt8 :=
  let pubWif := pubkey.drop 3
  pubWif.take ((pubWif.length : Int).bmod (2 ^ 32)).toNat

/-- `key_to_account` -/
def keyToAccount (pubkey : List UInt8) : Except Fault String := do
  let (_, pubKeyBytes) ← decodeBase58 37 (keyString pubkey)
  bytesToAccount pubKeyBytes

/-! ## The groups of a key -/

/-- The groups that are selected, if there are `len` before. -/
def groups (len : Nat) : List UInt8 → List UInt8
  | [] => []
  | b :: key =>
    if len ≤ 12 then
      if b &&& trimMask len = 0 then groups len key
      else (b &&& trimMask len) :: groups (len + 1) key
    else []

/-- The number of bits of a group. -/
def groupBits (len : Nat) : Nat := if len = 12 then 4 else 5

/-- The low five bits of the bytes, without those that are zero. -/
def fiveBits (key : List UInt8) : List UInt8 := (key.map (· &&& 0x1f)).filter (· ≠ 0)

/-- The groups lie in the name side by side. -/
theorem shuffle_eq {len : Nat} (h : len ≤ 12) :
    shuffle len = 64 - 5 * (len + 1) ∧ shuffle len + groupBits len = 64 - 5 * len := by
  rw [shuffle, groupBits]
  split_ifs <;> omega

theorem trimmed_lt (b : UInt8) (len : Nat) : (b &&& trimMask len).toNat < 2 ^ groupBits len := by
  rw [UInt8.toNat_and, trimMask, groupBits]
  split_ifs
  · exact Nat.and_lt_two_pow _ (by decide)
  · exact Nat.and_lt_two_pow _ (by decide)

section Groups

variable {res r : UInt64} {len : Nat} {key : List UInt8}

/-- Less than what divides a number does not change the bits above. -/
theorem div_add_of_dvd {a x m k : Nat} (hdvd : 2 ^ m ∣ a) (hx : x < 2 ^ m) (hk : m ≤ k) :
    (a + x) / 2 ^ k = a / 2 ^ k := by
  obtain ⟨c, rfl⟩ := hdvd
  have hpow : 2 ^ k = 2 ^ m * 2 ^ (k - m) := by
    rw [← pow_add, Nat.add_sub_cancel' hk]
  have hpos : 0 < 2 ^ m := Nat.two_pow_pos m
  rw [hpow, ← Nat.div_div_eq_div_mul, ← Nat.div_div_eq_div_mul, Nat.mul_add_div hpos,
    Nat.div_eq_of_lt hx, Nat.add_zero, Nat.mul_div_cancel_left c hpos]

/-- A group is added below the others. -/
theorem or_group {t : UInt8} (hlen : len ≤ 12) (ht : t.toNat < 2 ^ groupBits len)
    (hdvd : 2 ^ (64 - 5 * len) ∣ res.toNat) :
    (res ||| t.toUInt64 <<< (shuffle len).toUInt64).toNat =
      res.toNat + t.toNat * 2 ^ shuffle len := by
  obtain ⟨hshuffle, htop⟩ := shuffle_eq hlen
  have hlow : t.toNat * 2 ^ shuffle len < 2 ^ (64 - 5 * len) := by
    rw [← htop, pow_add, Nat.mul_comm (2 ^ shuffle len)]
    exact Nat.mul_lt_mul_of_pos_right ht (Nat.two_pow_pos _)
  have hbound : t.toNat * 2 ^ shuffle len < 2 ^ 64 :=
    hlow.trans_le (Nat.pow_le_pow_right (by decide) (Nat.sub_le _ _))
  have hshift : (t.toUInt64 <<< (shuffle len).toUInt64).toNat = t.toNat * 2 ^ shuffle len := by
    have hsmall : (shuffle len).toUInt64.toNat % 64 = shuffle len := by
      rw [UInt64.toNat_ofNat_of_lt' (by change shuffle len < 2 ^ 64; omega)]
      omega
    rw [UInt64.toNat_shiftLeft, hsmall, UInt8.toNat_toUInt64, Nat.shiftLeft_eq,
      Nat.mod_eq_of_lt hbound]
  obtain ⟨c, hc⟩ := hdvd
  rw [UInt64.toNat_or, hshift, hc, ← Nat.two_pow_add_eq_or_of_lt hlow]

variable (res key) in
/-- A byte without a group is skipped. -/
theorem shortenLoop_zero {b : UInt8} (hlen : len ≤ 12) (hzero : b &&& trimMask len = 0) :
    shortenLoop res len (b :: key) = shortenLoop res len key ∧
      groups len (b :: key) = groups len key := by
  constructor
  · rw [shortenLoop, if_pos hlen, hzero]
    exact if_pos rfl
  · rw [groups, if_pos hlen, if_pos hzero]

variable (res key) in
theorem shortenLoop_group {b : UInt8} (hlen : len ≤ 12) (hne : b &&& trimMask len ≠ 0) :
    shortenLoop res len (b :: key) =
        shortenLoop (res ||| (b &&& trimMask len).toUInt64 <<< (shuffle len).toUInt64)
          (len + 1) key ∧
      groups len (b :: key) = (b &&& trimMask len) :: groups (len + 1) key := by
  have hne' : (b &&& trimMask len).toUInt64 ≠ 0 := by
    intro h
    refine hne (UInt8.toNat.inj ?_)
    rw [← UInt8.toNat_toUInt64, h]
    rfl
  constructor
  · rw [shortenLoop, if_pos hlen]
    exact if_neg hne'
  · rw [groups, if_pos hlen, if_neg hne]

variable (res key) in
/-- After the last group nothing is read. -/
theorem shortenLoop_done : shortenLoop res 13 key = .ok res ∧ groups 13 key = [] := by
  cases key with
  | nil => exact ⟨rfl, rfl⟩
  | cons b key => exact ⟨rfl, rfl⟩

/-- What the loop adds to the groups that were packed before. -/
theorem shortenLoop_groups (hlen : len ≤ 13) (hdvd : 2 ^ (64 - 5 * len) ∣ res.toNat)
    (h : shortenLoop res len key = .ok r) :
    len + (groups len key).length = 13 ∧
      (∀ k, 64 - 5 * len ≤ k → r.toNat / 2 ^ k = res.toNat / 2 ^ k) ∧
      ∀ i g, (groups len key)[i]? = some g →
        r.toNat / 2 ^ shuffle (len + i) % 2 ^ groupBits (len + i) = g.toNat := by
  induction key generalizing res len with
  | nil =>
      rw [shortenLoop] at h
      split_ifs at h with hle
      obtain rfl := Except.ok.inj h
      obtain rfl : len = 13 := by omega
      exact ⟨rfl, fun k _ ↦ rfl, fun i g hg ↦ by cases hg⟩
  | cons b key ih =>
      rcases Nat.lt_or_eq_of_le hlen with hlt | rfl
      · have hle : len ≤ 12 := Nat.le_of_lt_succ hlt
        by_cases hzero : b &&& trimMask len = 0
        · obtain ⟨hloop, hgroups⟩ := shortenLoop_zero res key hle hzero
          rw [hgroups]
          exact ih hlen hdvd (hloop ▸ h)
        · obtain ⟨hloop, hgroups⟩ := shortenLoop_group res key hle hzero
          obtain ⟨hshuffle, htop⟩ := shuffle_eq hle
          have hgroup := trimmed_lt b len
          have hor := or_group hle hgroup hdvd
          have hlow : (b &&& trimMask len).toNat * 2 ^ shuffle len < 2 ^ (64 - 5 * len) := by
            rw [← htop, pow_add, Nat.mul_comm (2 ^ shuffle len)]
            exact Nat.mul_lt_mul_of_pos_right hgroup (Nat.two_pow_pos _)
          have hdvd' : 2 ^ shuffle len ∣ res.toNat :=
            (Nat.pow_dvd_pow 2 (by omega)).trans hdvd
          rw [hloop] at h
          obtain ⟨hlength, hhigh, hget⟩ := ih hlt
            (by rw [hor, ← hshuffle]; exact Nat.dvd_add hdvd' (Nat.dvd_mul_left _ _)) h
          rw [hgroups]
          refine ⟨?_, fun k hk ↦ ?_, fun i g hg ↦ ?_⟩
          · have hlength : len + 1 + (groups (len + 1) key).length = 13 := hlength
            rw [List.length_cons]
            omega
          · rw [hhigh k (by omega), hor, div_add_of_dvd hdvd hlow hk]
          · cases i with
            | zero =>
                obtain rfl := Option.some.inj hg
                obtain ⟨c, hc⟩ := hdvd
                rw [Nat.add_zero, hhigh _ hshuffle.ge, hor, hc, ← htop, pow_add, Nat.mul_assoc,
                  Nat.mul_comm (b &&& trimMask len).toNat, ← Nat.mul_add,
                  Nat.mul_div_cancel_left _ (Nat.two_pow_pos _), Nat.mul_add_mod,
                  Nat.mod_eq_of_lt hgroup]
            | succ i =>
                have hindex : len + (i + 1) = len + 1 + i := by omega
                rw [hindex]
                exact hget i g hg
      · obtain ⟨hloop, hgroups⟩ := shortenLoop_done res (b :: key)
        rw [hloop] at h
        obtain rfl := Except.ok.inj h
        rw [hgroups]
        exact ⟨rfl, fun k _ ↦ rfl, fun i g hg ↦ by cases hg⟩

/-- The first groups are five bits each. -/
theorem groups_take (hlen : len ≤ 12) :
    (groups len key).take (12 - len) = (fiveBits key).take (12 - len) := by
  induction key generalizing len with
  | nil => rfl
  | cons b key ih =>
      by_cases hlast : len = 12
      · rw [hlast, Nat.sub_self, List.take_zero, List.take_zero]
      · have hmask : trimMask len = 0x1f := if_neg hlast
        by_cases hzero : b &&& 0x1f = 0
        · rw [(shortenLoop_zero 0 key hlen (hmask ▸ hzero)).2, ih hlen]
          refine congrArg _ (Eq.symm ?_)
          rw [fiveBits, List.map_cons, List.filter_cons_of_neg (by simpa using hzero)]
          rfl
        · have hfive : fiveBits (b :: key) = (b &&& 0x1f) :: fiveBits key := by
            rw [fiveBits, List.map_cons, List.filter_cons_of_pos (by simpa using hzero)]
            rfl
          have hsub : 12 - len = 12 - (len + 1) + 1 := by omega
          rw [(shortenLoop_group 0 key hlen (hmask ▸ hzero)).2, hfive, hmask, hsub,
            List.take_succ_cons, List.take_succ_cons, ih (by omega)]

theorem groups_ne_zero {g : UInt8} (h : g ∈ groups len key) : g ≠ 0 := by
  induction key generalizing len with
  | nil => cases h
  | cons b key ih =>
      rw [groups] at h
      split_ifs at h with hle hzero
      · exact ih h
      · rcases List.mem_cons.mp h with rfl | h
        · exact hzero
        · exact ih h
      · cases h

end Groups

/-! ## Names -/

/-- The symbol of five bits. -/
def symbol (b : UInt8) : Char := Relic.nameCharmap.getD b.toNat '.'

section Names

variable {key key' : List UInt8} {res : UInt64}

theorem symbol_ne_dot {n : Nat} (hlt : n < 32) (hne : n ≠ 0) :
    Relic.nameCharmap.getD n '.' ≠ '.' := by
  have htable : ∀ n < 32, n ≠ 0 → Relic.nameCharmap.getD n '.' ≠ '.' := by decide +kernel
  exact htable n hlt hne

theorem fiveBits_spec {g : UInt8} (h : g ∈ fiveBits key) : g.toNat < 32 ∧ g.toNat ≠ 0 := by
  rw [fiveBits, List.mem_filter] at h
  obtain ⟨b, -, rfl⟩ := List.mem_map.mp h.1
  refine ⟨trimmed_lt b 0, fun hzero ↦ ?_⟩
  have hne : b &&& 0x1f ≠ 0 := by simpa using h.2
  exact hne (UInt8.toNat.inj hzero)

/-- The bits are read back from the symbols. -/
theorem map_idxOf_symbol {gs : List UInt8} (h : ∀ g ∈ gs, g.toNat < 32) :
    (gs.map symbol).map (fun c ↦ UInt8.ofNat (Relic.nameCharmap.idxOf c)) = gs := by
  have htable : ∀ n < 32, Relic.nameCharmap.idxOf (Relic.nameCharmap.getD n '.') = n := by
    decide +kernel
  rw [List.map_map]
  refine (List.map_congr_left fun g hg ↦ ?_).trans (List.map_id gs)
  change UInt8.ofNat (Relic.nameCharmap.idxOf (Relic.nameCharmap.getD g.toNat '.')) = g
  rw [htable g.toNat (h g hg), UInt8.ofNat_toNat]

/-- The groups of a shortened key. -/
structure Packed (key : List UInt8) (res : UInt64) : Prop where
  /-- There are thirteen of them. -/
  count : (groups 0 (key.drop 1)).length = 13
  /-- Every bit belongs to exactly one of them. -/
  cover : ∀ p < 64, ∃! len, len < 13 ∧ shuffle len ≤ p ∧ p < shuffle len + groupBits len
  /-- Its bits are those of the group. -/
  bits : ∀ len g, (groups 0 (key.drop 1))[len]? = some g →
    res.toNat / 2 ^ shuffle len % 2 ^ groupBits len = g.toNat

theorem shuffle_cover (p : Nat) (hp : p < 64) :
    ∃! len, len < 13 ∧ shuffle len ≤ p ∧ p < shuffle len + groupBits len := by
  have hiff : ∀ len, (len < 13 ∧ shuffle len ≤ p ∧ p < shuffle len + groupBits len) ↔
      len = (63 - p) / 5 := by
    intro len
    constructor
    · rintro ⟨hlen, hle, hlt⟩
      obtain ⟨hshuffle, htop⟩ := shuffle_eq (Nat.le_of_lt_succ hlen)
      omega
    · rintro rfl
      have hlen : (63 - p) / 5 ≤ 12 := by omega
      obtain ⟨hshuffle, htop⟩ := shuffle_eq hlen
      omega
  exact ⟨(63 - p) / 5, (hiff _).mpr rfl, fun len h ↦ (hiff len).mp h⟩

theorem packed_of_shortenKey (h : shortenKey key = .ok res) : Packed key res := by
  obtain ⟨hcount, -, hbits⟩ := shortenLoop_groups (by decide) (Nat.dvd_zero _) h
  refine ⟨by omega, shuffle_cover, fun len g hg ↦ ?_⟩
  have hbits := hbits len g hg
  rw [Nat.zero_add] at hbits
  exact hbits

/-- The first twelve groups are the low five bits that are not zero. -/
theorem Packed.groups (h : Packed key res) :
    (groups 0 (key.drop 1)).take 12 = (fiveBits (key.drop 1)).take 12 ∧
      ((fiveBits (key.drop 1)).take 12).length = 12 := by
  have htake : (KeyOps.groups 0 (key.drop 1)).take 12 = (fiveBits (key.drop 1)).take 12 :=
    groups_take (Nat.zero_le _)
  refine ⟨htake, ?_⟩
  rw [← htake, List.length_take, h.count]
  rfl

/-- They are the characters of the name, whose last symbol is not a dot. -/
theorem Packed.name (h : Packed key res) :
    (Relic.nameToString res).take 12 = ((fiveBits (key.drop 1)).take 12).map symbol := by
  have hcount := h.count
  have hchars : (List.range 12).map
      (fun i ↦ Relic.nameCharmap.getD (res.toNat / 2 ^ (59 - 5 * i) % 32) '.') =
        ((fiveBits (key.drop 1)).take 12).map symbol := by
    rw [← h.groups.1]
    refine List.ext_getElem? fun i ↦ ?_
    rw [List.getElem?_map, List.getElem?_map]
    by_cases hi : i < 12
    · obtain ⟨g, hg⟩ : ∃ g, (KeyOps.groups 0 (key.drop 1))[i]? = some g :=
        ⟨_, List.getElem?_eq_getElem (by omega)⟩
      have hbits := h.bits i g hg
      have hshuffle : shuffle i = 59 - 5 * i := by
        have hshuffle := (shuffle_eq (show i ≤ 12 by omega)).1
        omega
      have hfive : groupBits i = 5 := if_neg (by omega)
      rw [hshuffle, hfive] at hbits
      rw [List.getElem?_range hi, List.getElem?_take_of_lt hi, hg]
      exact congrArg (fun n ↦ some (Relic.nameCharmap.getD n '.')) hbits
    · rw [List.getElem?_eq_none (by rw [List.length_range]; omega),
        List.getElem?_eq_none (by rw [List.length_take]; omega)]
      rfl
  have hlast : Relic.nameCharmap.getD (res.toNat % 16) '.' ≠ '.' := by
    obtain ⟨g, hg⟩ : ∃ g, (KeyOps.groups 0 (key.drop 1))[12]? = some g :=
      ⟨_, List.getElem?_eq_getElem (by omega)⟩
    have hbits : res.toNat / 1 % 16 = g.toNat := h.bits 12 g hg
    have hne : g ≠ 0 := groups_ne_zero (List.mem_of_getElem? hg)
    refine symbol_ne_dot (by omega) fun hzero ↦ hne (UInt8.toNat.inj ?_)
    rw [← hbits, Nat.div_one, hzero]
    rfl
  have hlength : (((fiveBits (key.drop 1)).take 12).map symbol).length = 12 := by
    rw [List.length_map, h.groups.2]
  rw [Relic.nameToString, hchars, List.reverse_append, List.reverse_singleton,
    List.singleton_append, List.dropWhile_cons_of_neg (by simpa using hlast), List.reverse_cons,
    List.reverse_reverse, List.take_left' hlength]

/-- **The groups that are selected from a key lie in disjoint ranges of bits that cover the
name; the account has twelve characters, which are the symbols of the first twelve groups of
five bits that are not zero, so none of them is a dot, and two keys have the same account if and
only if these groups are the same.** -/
theorem account_of_key (h : shortenKey key = .ok res) :
    Packed key res ∧ ∃ account, bytesToAccount key = .ok account ∧
      (∀ pubkey n, decodeBase58 37 (keyString pubkey) = .ok (n, key) →
        keyToAccount pubkey = .ok account) ∧
      account.toList = ((fiveBits (key.drop 1)).take 12).map symbol ∧
      account.toList.length = 12 ∧ '.' ∉ account.toList ∧
      ∀ key' account', bytesToAccount key' = .ok account' →
        (account = account' ↔
          (fiveBits (key.drop 1)).take 12 = (fiveBits (key'.drop 1)).take 12) := by
  have hpacked := packed_of_shortenKey h
  have haccount : ∀ {key : List UInt8} {res : UInt64}, shortenKey key = .ok res →
      bytesToAccount key = .ok (.ofList (((fiveBits (key.drop 1)).take 12).map symbol)) := by
    intro key res h
    rw [← (packed_of_shortenKey h).name]
    exact except_bind_eq_ok.mpr ⟨res, h, rfl⟩
  refine ⟨hpacked, _, haccount h, fun pubkey n hdecode ↦ ?_, String.toList_ofList, ?_, ?_, ?_⟩
  · exact except_bind_eq_ok.mpr ⟨(n, key), hdecode, haccount h⟩
  · rw [String.toList_ofList, List.length_map, hpacked.groups.2]
  · rw [String.toList_ofList]
    intro hdot
    obtain ⟨g, hg, hsymbol⟩ := List.mem_map.mp hdot
    obtain ⟨hlt, hne⟩ := fiveBits_spec (List.mem_of_mem_take hg)
    exact symbol_ne_dot hlt hne hsymbol
  · intro key' account' h'
    obtain ⟨res', hres', -⟩ := except_bind_eq_ok.mp h'
    obtain rfl := Except.ok.inj ((haccount hres').symm.trans h')
    constructor
    · intro hsame
      have hsame := congrArg String.toList hsame
      rw [String.toList_ofList, String.toList_ofList] at hsame
      rw [← map_idxOf_symbol fun g hg ↦ (fiveBits_spec (List.mem_of_mem_take hg)).1, hsame,
        map_idxOf_symbol fun g hg ↦ (fiveBits_spec (List.mem_of_mem_take hg)).1]
    · intro hsame
      rw [hsame]

/-- A key whose bytes are the numbers from 0 to 13. -/
theorem account_of_key_ascending :
    ∃ account, bytesToAccount [0, 1, 2, 3, 4, 5, 6, 7, 8, 9, 10, 11, 12, 13] = .ok account ∧
      account.toList = "12345abcdefg".toList := by
  obtain ⟨res, hres⟩ :
      ∃ res, shortenKey [0, 1, 2, 3, 4, 5, 6, 7, 8, 9, 10, 11, 12, 13] = .ok res := ⟨_, rfl⟩
  obtain ⟨-, account, haccount, -, hchars, -⟩ := account_of_key hres
  refine ⟨account, haccount, hchars.trans ?_⟩
  decide +kernel

end Names

/-! ## Bounds -/

/-- There are `n` bytes with five bits that are not zero, and after them one with four bits. -/
def LongEnough (n : Nat) (key : List UInt8) : Prop :=
  ∃ before b after, key = before ++ b :: after ∧ n ≤ (fiveBits before).length ∧ b &&& 0x0f ≠ 0

/-- The derivation of a key: the characters are in the table, there is room for a zero byte for
each leading one and the bytes of the number, and these bytes are long enough. -/
structure InBounds (pubkey : List UInt8) : Prop where
  table : ∀ c ∈ keyString pubkey, c.toNat < 128
  buffer : leadingOnes (keyString pubkey) +
    (Numeral.write 256 (stringNumber (keyString pubkey))).length ≤ 37
  long : LongEnough 12 ((keyBytes (keyString pubkey)).drop 1)

section Bounds

variable {res : UInt64} {len n : Nat} {key : List UInt8}

theorem longEnough_cons {b : UInt8} :
    LongEnough n (b :: key) ↔
      (n = 0 ∧ b &&& 0x0f ≠ 0) ∨ LongEnough (if b &&& 0x1f = 0 then n else n - 1) key := by
  have hfive : ∀ before : List UInt8, (fiveBits (b :: before)).length =
      (if b &&& 0x1f = 0 then 0 else 1) + (fiveBits before).length := by
    intro before
    rw [fiveBits, List.map_cons, List.filter_cons, fiveBits]
    by_cases hzero : b &&& 0x1f = 0
    · rw [if_pos hzero, if_neg (by simpa using hzero), Nat.zero_add]
    · rw [if_neg hzero, if_pos (by simpa using hzero), List.length_cons, Nat.add_comm]
  constructor
  · rintro ⟨before, b', after, hkey, hle, hb'⟩
    cases before with
    | nil =>
        obtain ⟨rfl, rfl⟩ := List.cons.inj hkey
        exact .inl ⟨Nat.le_zero.mp hle, hb'⟩
    | cons b'' before =>
        obtain ⟨rfl, rfl⟩ := List.cons.inj hkey
        refine .inr ⟨before, b', after, rfl, ?_, hb'⟩
        rw [hfive] at hle
        split_ifs at hle ⊢ <;> omega
  · rintro (⟨rfl, hb⟩ | ⟨before, b', after, rfl, hle, hb'⟩)
    · exact ⟨[], b, key, rfl, Nat.zero_le _, hb⟩
    · refine ⟨b :: before, b', after, rfl, ?_, hb'⟩
      rw [hfive]
      split_ifs at hle ⊢ <;> omega

variable (res) in
/-- The loop ends, without a byte that was not written, if the bytes are long enough. -/
theorem exists_shortenLoop (hlen : len ≤ 12) :
    (∃ r, shortenLoop res len key = .ok r) ↔ LongEnough (12 - len) key := by
  induction key generalizing res len with
  | nil =>
      rw [shortenLoop, if_pos hlen]
      refine iff_of_false (fun ⟨r, h⟩ ↦ by cases h) ?_
      rintro ⟨before, b, after, hkey, -⟩
      exact List.cons_ne_nil _ _ (List.append_eq_nil_iff.mp hkey.symm).2
  | cons b key ih =>
      rw [longEnough_cons]
      by_cases hlast : len = 12
      · -- the last group
        obtain rfl := hlast
        have hsub : (if b &&& 0x1f = 0 then 12 - 12 else 12 - 12 - 1) = 12 - 12 := ite_self _
        rw [hsub]
        by_cases hzero : b &&& 0x0f = 0
        · rw [(shortenLoop_zero res key hlen hzero).1, ih res hlen]
          exact ⟨.inr, fun h ↦ h.resolve_left fun h ↦ h.2 hzero⟩
        · rw [(shortenLoop_group res key hlen hzero).1]
          exact iff_of_true ⟨_, (shortenLoop_done _ key).1⟩ (.inl ⟨rfl, hzero⟩)
      · have hmask : trimMask len = 0x1f := if_neg hlast
        have hfirst : ¬ (12 - len = 0 ∧ b &&& 0x0f ≠ 0) := fun h ↦ by omega
        rw [or_iff_right hfirst]
        by_cases hzero : b &&& 0x1f = 0
        · rw [(shortenLoop_zero res key hlen (hmask ▸ hzero)).1, if_pos hzero]
          exact ih res hlen
        · rw [(shortenLoop_group res key hlen (hmask ▸ hzero)).1, if_neg hzero, Nat.sub_sub]
          exact ih _ (by omega)

theorem exists_bytesToAccount :
    (∃ account, bytesToAccount key = .ok account) ↔ LongEnough 12 (key.drop 1) := by
  rw [← exists_shortenLoop 0 (Nat.zero_le 12)]
  constructor
  · rintro ⟨account, h⟩
    obtain ⟨r, hr, -⟩ := except_bind_eq_ok.mp h
    exact ⟨r, hr⟩
  · rintro ⟨r, hr⟩
    exact ⟨_, except_bind_eq_ok.mpr ⟨r, hr, rfl⟩⟩

/-- **A key is derived without an index that is too large, a byte behind the buffer or a byte
that was not written, if and only if it is in bounds.** -/
theorem keyToAccount_in_bounds_iff (pubkey : List UInt8) :
    (∃ account, keyToAccount pubkey = .ok account) ↔ InBounds pubkey := by
  constructor
  · rintro ⟨account, h⟩
    obtain ⟨d, hd, h⟩ := except_bind_eq_ok.mp h
    obtain ⟨htable, hbuffer, rfl⟩ := decodeBase58_eq_ok.mp hd
    rw [length_keyBytes, length_bytes] at hbuffer
    exact ⟨htable, hbuffer, exists_bytesToAccount.mp ⟨account, h⟩⟩
  · rintro ⟨htable, hbuffer, hlong⟩
    obtain ⟨account, h⟩ := exists_bytesToAccount.mpr hlong
    rw [← length_bytes, ← length_keyBytes] at hbuffer
    exact ⟨account, except_bind_eq_ok.mpr
      ⟨_, decodeBase58_eq_ok.mpr ⟨htable, hbuffer, rfl⟩, h⟩⟩

/-- Of an empty key a byte is read that nothing was written to; a character above 127 is not in
the table; forty ones do not fit into the buffer. -/
theorem keyToAccount_faults :
    keyToAccount [] = .error .unwritten ∧
      keyToAccount [70, 73, 79, 195] = .error .table ∧
      ¬ ∃ account, keyToAccount (List.replicate 40 49) = .ok account := by
  refine ⟨rfl, rfl, ?_⟩
  rintro ⟨account, h⟩
  obtain ⟨d, hd, -⟩ := except_bind_eq_ok.mp h
  have hbuffer := (decodeBase58_eq_ok.mp hd).2.1
  revert hbuffer
  decide +kernel

end Bounds

end KeyOps

end Chronicle
