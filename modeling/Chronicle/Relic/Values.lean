import Mathlib.Algebra.Group.Int.Defs
import Mathlib.Algebra.Group.Nat.Defs
import Mathlib.Data.List.TakeWhile
import Chronicle.Logic.Decimal
import Chronicle.Logic.Sql
import Chronicle.Exporter.Sender

/-!
# Values of the Relic exporter

What the exporter reads from a message: strings of JSON values, numbers in strings, time stamps
and account names.  Where the source relies on rapidjson and libpq, the model takes them as
parameters.
-/

namespace Chronicle

/-- A JSON value; a number is kept as it is written. -/
inductive Json where
  | null
  | bool (b : Bool)
  | number (text : String)
  | string (s : String)
  | array (elements : List Json)
  | object (members : List (String × Json))

namespace Json

def isObject : Json → Bool
  | object _ => true
  | _ => false

def isArray : Json → Bool
  | array _ => true
  | _ => false

def isString : Json → Bool
  | string _ => true
  | _ => false

/-- `operator[]`; the assertions of rapidjson are off, and what is missing reads as null. -/
def get (v : Json) (name : String) : Json :=
  match v with
  | object members => ((members.find? (·.1 == name)).map (·.2)).getD null
  | _ => null

/-- `GetArray` -/
def getArray : Json → List Json
  | array elements => elements
  | _ => []

/-- The first element of an array that is not empty. -/
def first? : Json → Option Json
  | array (v :: _) => some v
  | _ => none

end Json

/-- What the exporter uses of other libraries. -/
structure Externals where
  /-- `Document::Parse`; null if there is an error. -/
  parse : Msgbuf → Json
  /-- A value written by a `Writer`. -/
  write : Json → String
  /-- `PQescapeLiteral` -/
  pqEscapeLiteral : String → Option String
  /-- `DecodeBase58` and `shorten_key` on a public key without its prefix.  Of a short key they
  read memory that nothing was written to. -/
  shortenKey : String → UInt64

namespace Relic

def unknownTimestamp : String := ""
def unknownString : String := ""
def unknownNumberNull : String := "NULL"
def unknownNumber0 : String := "0"
def allowEmptyValues : Bool := true
def disallowEmptyValues : Bool := false

/-- A text up to its first null character. -/
def cString (s : String) : String := String.ofList (s.toList.takeWhile (· != '\x00'))

theorem cString_eq_self {s : String} (h : s.toList.all (· != '\x00')) : cString s = s := by
  rw [cString, List.takeWhile_eq_self_iff.mpr (List.all_eq_true.mp h), String.ofList_toList]

variable (ext : Externals)

/-- `Document::Parse` of a text. -/
def parseText (s : String) : Json := ext.parse s.toUTF8.toList

/-- `getjsonstring` -/
def getjsonstring (defaultv : String) (v : Json) (allowempty : Bool) : String :=
  match v with
  | .null | .bool _ | .array _ => defaultv
  | .string s =>
    let tv := cString s
    if allowempty then tv else if tv ≠ "" then tv else defaultv
  | .object _ | .number _ => cString (ext.write v)

/-- A member of a value, which may be empty. -/
def member (v : Json) (name : String) : String :=
  getjsonstring ext unknownString (v.get name) allowEmptyValues

/-- `escapesqlstring` -/
def escapesqlstring (input : String) : Sql.Text :=
  match ext.pqEscapeLiteral input with
  | none => []
  | some escaped =>
    if escaped.toList.head? = some '\'' then ' ' :: 'E' :: escaped.toList else escaped.toList

/-- What `PQescapeLiteral` is documented to return: a literal between quotes in which quotes are
written twice, or, if there are backslashes, one with escapes and a space before it. -/
def EscapesLiterals : Prop :=
  ∀ s : String, ∃ t, ext.pqEscapeLiteral s = some t ∧
    ('\\' ∉ s.toList ∧ t.toList = Sql.quoted (Sql.escaped s.toList) ∨
      t.toList = Sql.literal s.toList)

/-- With the `E` that is put before it, each is a literal with escapes. -/
theorem EscapesLiterals.escapesqlstring (h : EscapesLiterals ext) (s : String) :
    Relic.escapesqlstring ext s = Sql.literal s.toList := by
  obtain ⟨t, ht, h⟩ := h s
  rw [Relic.escapesqlstring, ht]
  dsimp only
  rcases h with ⟨-, h⟩ | h
  · rw [h]
    rfl
  · rw [h]
    rfl

/-! ## Numbers in strings -/

/-- `isspace` -/
def isspace (c : Char) : Bool :=
  c = ' ' || c = '\t' || c = '\n' || c = '\x0b' || c = '\x0c' || c = '\r'

/-- The value of some digits. -/
def digitsValue (digits : List Char) : Nat :=
  digits.foldl (fun n c ↦ n * 10 + (c.toNat - '0'.toNat)) 0

/-- The digits of a number after its sign. -/
def unsignedPart (s : List Char) : Option Nat :=
  match s.takeWhile Char.isDigit with
  | [] => none
  | digits => some (digitsValue digits)

/-- The sign and the digits that a text begins with, after spaces. -/
def signedPart (s : String) : Option (Bool × Nat) :=
  match s.toList.dropWhile isspace with
  | '-' :: s => (unsignedPart s).map (true, ·)
  | '+' :: s => (unsignedPart s).map (false, ·)
  | s => (unsignedPart s).map (false, ·)

/-- `std::stoul`, which throws if there is no number or if it is too large. -/
def stoul (s : String) : Option Nat :=
  match signedPart s with
  | none => none
  | some (negative, n) =>
    if 2 ^ 64 ≤ n then none else some (if negative then (2 ^ 64 - n) % 2 ^ 64 else n)

/-- `atoi`, which cuts a `long` down to an `int`. -/
def atoi (s : String) : Int :=
  match signedPart s with
  | none => 0
  | some (negative, n) =>
    let long : Int := if negative then max (-n) (-2 ^ 63) else min n (2 ^ 63 - 1)
    long.bmod (2 ^ 32)

/-- A digit is neither a space nor a sign. -/
theorem not_space_of_isDigit {c : Char} (h : c.isDigit) : ¬ isspace c ∧ c ≠ '-' ∧ c ≠ '+' := by
  have hne : ∀ d : Char, ¬ d.isDigit → c ≠ d := fun d hd hc ↦ hd (hc ▸ h)
  refine ⟨?_, hne '-' (by decide), hne '+' (by decide)⟩
  simp [isspace, hne ' ' (by decide), hne '\t' (by decide), hne '\n' (by decide),
    hne '\x0b' (by decide), hne '\x0c' (by decide), hne '\r' (by decide)]

theorem digitsValue_eq_read (cs : List Char) : digitsValue cs = Decimal.read cs := by
  rw [digitsValue, Decimal.read, Nat.ofDigitChars_eq_foldl]
  refine congrArg (fun f ↦ List.foldl f 0 cs) ?_
  funext n c
  rw [Nat.mul_comm]

theorem digitsValue_toDigits (n : Nat) : digitsValue (Nat.toDigits 10 n) = n :=
  (digitsValue_eq_read _).trans Nat.ofDigitChars_ten_toDigits

/-- Digits are read to the end. -/
theorem signedPart_of_digits {s : List Char} (hne : s ≠ []) (hdigits : ∀ c ∈ s, c.isDigit) :
    signedPart (String.ofList s) = some (false, digitsValue s) := by
  have hpart : unsignedPart s = some (digitsValue s) := by
    rw [unsignedPart, List.takeWhile_eq_self_iff.mpr hdigits]
    cases s with
    | nil => exact absurd rfl hne
    | cons c s => rfl
  rw [signedPart, String.toList_ofList]
  cases s with
  | nil => exact absurd rfl hne
  | cons c s =>
      obtain ⟨hspace, hminus, hplus⟩ := not_space_of_isDigit (hdigits c List.mem_cons_self)
      rw [List.dropWhile_cons_of_neg hspace]
      split
      · next h => exact absurd (List.cons.inj h).1 hminus
      · next h => exact absurd (List.cons.inj h).1 hplus
      · rw [hpart]
        rfl

/-- A number is read from its digits. -/
theorem signedPart_toString (n : Nat) : signedPart (toString n) = some (false, n) := by
  have hdigits : ∀ c ∈ Nat.toDigits 10 n, c.isDigit := fun c hc ↦
    Nat.isDigit_of_mem_toDigits (by decide) (by decide) hc
  have hlist : (toString n).toList = Nat.toDigits 10 n := Nat.toList_repr
  rw [← String.ofList_toList (s := toString n), hlist,
    signedPart_of_digits Nat.toDigits_ne_nil hdigits, digitsValue_toDigits]

/-- `std::stoul` reads a number that an `unsigned long` can hold. -/
theorem stoul_toString {n : Nat} (h : n < 2 ^ 64) : stoul (toString n) = some n := by
  rw [stoul, signedPart_toString]
  exact if_neg (Nat.not_le.mpr h)

theorem cString_toString (n : Nat) : cString (toString n) = toString n := by
  refine cString_eq_self (List.all_eq_true.mpr fun c hc ↦ bne_iff_ne.mpr ?_)
  have hlist : (toString n).toList = Nat.toDigits 10 n := Nat.toList_repr
  rintro rfl
  exact absurd (Nat.isDigit_of_mem_toDigits (by decide) (by decide) (hlist ▸ hc)) (by decide)

/-- `atoi` reads a number that an `int` can hold. -/
theorem atoi_toString {n : Nat} (h : n < 2 ^ 31) : atoi (toString n) = n := by
  rw [atoi, signedPart_toString]
  dsimp only
  rw [if_neg Bool.false_ne_true, Int.bmod_def]
  omega

/-! ## Time stamps -/

def isLeapYear (year : Nat) : Bool :=
  (year % 4 == 0 && year % 100 != 0) || year % 400 == 0

def daysInMonth (year month : Nat) : Nat :=
  if month < 1 ∨ 12 < month then 0
  else if month = 2 ∧ isLeapYear year then 29
  else [31, 28, 31, 30, 31, 30, 31, 31, 30, 31, 30, 31].getD (month - 1) 0

structure IsoTimestamp where
  year : Nat
  month : Nat
  day : Nat
  hour : Nat
  minute : Nat
  second : Nat

/-- `parse_iso_timestamp` -/
def parseIsoTimestamp (ts : String) : Option IsoTimestamp :=
  let cs := ts.toList
  let number (pos count : Nat) : Nat := digitsValue ((cs.drop pos).take count)
  if cs.length ≠ 19 ∨ cs[4]? ≠ some '-' ∨ cs[7]? ≠ some '-' ∨ cs[10]? ≠ some 'T' ∨
      cs[13]? ≠ some ':' ∨ cs[16]? ≠ some ':' then none
  else if (List.range 19).all fun i ↦ i ∈ [4, 7, 10, 13, 16] || (cs[i]?).any Char.isDigit then
    some ⟨number 0 4, number 5 2, number 8 2, number 11 2, number 14 2, number 17 2⟩
  else none

/-- A number with zeros before it. -/
def zeroPadded (width n : Nat) : List Char :=
  let digits := (toString n).toList
  List.replicate (width - digits.length) '0' ++ digits

/-- `normalize_contract_expiration_timestamp`; the transaction id is only logged. -/
def normalizeContractExpirationTimestamp (expirationtimestamp actionname : String) : String :=
  match parseIsoTimestamp expirationtimestamp with
  | none => expirationtimestamp
  | some t =>
    let maxDay := daysInMonth t.year t.month
    if 0 < maxDay ∧ 1 ≤ t.day ∧ t.day ≤ maxDay ∧ t.hour ≤ 23 ∧ t.minute ≤ 59 ∧ t.second ≤ 59 then
      expirationtimestamp
    else if actionname = "renewdomain" ∧ t.month = 2 ∧ t.day = 29 ∧ !isLeapYear t.year ∧
        isLeapYear (t.year + 1) then
      -- `snprintf` into twenty characters
      String.ofList ((zeroPadded 4 (t.year + 1) ++ '-' :: zeroPadded 2 t.month ++ '-' ::
        zeroPadded 2 t.day ++ 'T' :: zeroPadded 2 t.hour ++ ':' :: zeroPadded 2 t.minute ++ ':' ::
        zeroPadded 2 t.second).take 19)
    else expirationtimestamp

/-! ## Account names -/

def nameCharmap : List Char := ".12345abcdefghijklmnopqrstuvwxyz".toList

/-- `name::to_string` -/
def nameToString (value : UInt64) : List Char :=
  let n := value.toNat
  let chars := (List.range 12).map (fun i ↦ nameCharmap.getD (n / 2 ^ (59 - 5 * i) % 32) '.') ++
    [nameCharmap.getD (n % 16) '.']
  (chars.reverse.dropWhile (· == '.')).reverse

/-- `key_to_account` -/
def keyToAccount (pubkey : String) : String :=
  String.ofList ((nameToString (ext.shortenKey (pubkey.drop 3).toString)).take 12)

theorem nameCharmap_getD (i : Nat) : nameCharmap.getD i '.' ≠ '\'' := by
  have hnone : '\'' ∉ nameCharmap := by decide
  rw [List.getD_eq_getElem?_getD]
  cases hi : nameCharmap[i]? with
  | none => decide
  | some c => exact fun hc ↦ hnone (hc ▸ List.mem_of_getElem? hi)

/-- A name has no quotes. -/
theorem keyToAccount_no_quote (pubkey : String) : '\'' ∉ (keyToAccount ext pubkey).toList := by
  rw [keyToAccount, String.toList_ofList]
  intro h
  have h := List.mem_of_mem_take h
  rw [nameToString, List.mem_reverse] at h
  have h := List.mem_reverse.mp ((List.dropWhile_sublist _).subset h)
  rcases List.mem_append.mp h with h | h
  · obtain ⟨i, -, hi⟩ := List.mem_map.mp h
    exact nameCharmap_getD _ hi
  · exact nameCharmap_getD _ (List.mem_singleton.mp h).symm

end Relic

end Chronicle
