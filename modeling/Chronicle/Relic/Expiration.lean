import Mathlib.Data.List.Basic
import Chronicle.Logic.Calendar
import Chronicle.Relic.Values

/-!
# Expirations

A time stamp is accepted if it is the text of six numbers that fit into their fields; they need
not be a moment of the calendar.  The repair looks at the date but not at the time of day, and
writes into a buffer that has no room for the year after the last one of four digits.
-/

namespace Chronicle

namespace Relic

variable {ts actionname : String} {t : IsoTimestamp}

theorem zeroPadded_eq_write (width n : Nat) : zeroPadded width n = Decimal.write width n := by
  have hlist : (toString n).toList = Nat.toDigits 10 n := Nat.toList_repr
  rw [zeroPadded, Decimal.write, hlist]

namespace IsoTimestamp

/-- The numbers with the marks between them, as `snprintf` writes them. -/
def text (t : IsoTimestamp) : List Char :=
  zeroPadded 4 t.year ++ '-' :: zeroPadded 2 t.month ++ '-' :: zeroPadded 2 t.day ++ 'T' ::
    zeroPadded 2 t.hour ++ ':' :: zeroPadded 2 t.minute ++ ':' :: zeroPadded 2 t.second

/-- Each number fits into its field. -/
structure Fits (t : IsoTimestamp) : Prop where
  year : t.year < 10 ^ 4
  month : t.month < 10 ^ 2
  day : t.day < 10 ^ 2
  hour : t.hour < 10 ^ 2
  minute : t.minute < 10 ^ 2
  second : t.second < 10 ^ 2

end IsoTimestamp

/-! ## Accepted texts -/

/-- An accepted text is written back from its numbers. -/
theorem text_of_parse (h : parseIsoTimestamp ts = some t) : t.Fits ∧ t.text = ts.toList := by
  simp only [parseIsoTimestamp, digitsValue_eq_read] at h
  split_ifs at h with hmarks hdigits
  obtain ⟨hlength, h4, h7, h10, h13, h16⟩ := by
    simpa only [not_or, Decidable.not_not] using hmarks
  -- What is not at the place of a mark is a digit.
  have hfield (pos width : Nat)
      (hpos : ∀ i < width, pos + i < 19 ∧ pos + i ∉ [4, 7, 10, 13, 16]) :
      ∀ i < width, (ts.toList[pos + i]?).any Char.isDigit := by
    intro i hi
    have hor := List.all_eq_true.mp hdigits (pos + i) (List.mem_range.mpr (hpos i hi).1)
    refine (Bool.or_eq_true_iff.mp hor).resolve_left fun hmem ↦ ?_
    exact (hpos i hi).2 (of_decide_eq_true hmem)
  obtain ⟨hyear, wyear⟩ := Decimal.read_field (by decide) (hfield 0 4 (by decide))
  obtain ⟨hmonth, wmonth⟩ := Decimal.read_field (by decide) (hfield 5 2 (by decide))
  obtain ⟨hday, wday⟩ := Decimal.read_field (by decide) (hfield 8 2 (by decide))
  obtain ⟨hhour, whour⟩ := Decimal.read_field (by decide) (hfield 11 2 (by decide))
  obtain ⟨hminute, wminute⟩ := Decimal.read_field (by decide) (hfield 14 2 (by decide))
  obtain ⟨hsecond, wsecond⟩ := Decimal.read_field (by decide) (hfield 17 2 (by decide))
  let number (pos width : Nat) : Nat := Decimal.read (Decimal.field ts.toList pos width)
  obtain rfl : ⟨number 0 4, number 5 2, number 8 2, number 11 2, number 14 2, number 17 2⟩ = t :=
    Option.some.inj h
  refine ⟨⟨hyear, hmonth, hday, hhour, hminute, hsecond⟩, ?_⟩
  have hend : Decimal.field ts.toList 17 2 = ts.toList.drop 17 := by
    refine List.take_of_length_le ?_
    rw [List.length_drop, hlength]
  simp only [IsoTimestamp.text, zeroPadded_eq_write, List.append_assoc, List.cons_append, number]
  rw [wyear, wmonth, wday, whour, wminute, wsecond]
  -- The rest of the text from each position, from the last field on.
  rw [hend, Decimal.mark_cons h16, Decimal.field_append, Decimal.mark_cons h13,
    Decimal.field_append, Decimal.mark_cons h10, Decimal.field_append, Decimal.mark_cons h7,
    Decimal.field_append, Decimal.mark_cons h4, Decimal.field_append]
  rfl

/-- The characters of a number that fits into its field. -/
theorem zeroPadded_fits {width n : Nat} (hw : 0 < width) (hn : n < 10 ^ width) :
    (zeroPadded width n).length = width ∧ (∀ c ∈ zeroPadded width n, c.isDigit) ∧
      digitsValue (zeroPadded width n) = n := by
  rw [zeroPadded_eq_write, digitsValue_eq_read]
  exact ⟨Decimal.length_write hw hn, Decimal.write_isDigit, Decimal.read_write width n⟩

theorem zeroPadded_two {n : Nat} (h : n < 10 ^ 2) : ∃ a b, zeroPadded 2 n = [a, b] ∧
    (a.isDigit ∧ b.isDigit) ∧ digitsValue [a, b] = n := by
  obtain ⟨hlength, hdigits, hvalue⟩ := zeroPadded_fits (by decide) h
  obtain ⟨a, b, heq⟩ := List.length_eq_two.mp hlength
  rw [heq] at hdigits hvalue
  exact ⟨a, b, heq, by simpa using hdigits, hvalue⟩

theorem zeroPadded_four {n : Nat} (h : n < 10 ^ 4) : ∃ a b c d, zeroPadded 4 n = [a, b, c, d] ∧
    (a.isDigit ∧ b.isDigit ∧ c.isDigit ∧ d.isDigit) ∧ digitsValue [a, b, c, d] = n := by
  obtain ⟨hlength, hdigits, hvalue⟩ := zeroPadded_fits (by decide) h
  obtain ⟨a, b, c, d, heq⟩ := List.length_eq_four.mp hlength
  rw [heq] at hdigits hvalue
  exact ⟨a, b, c, d, heq, by simpa using hdigits, hvalue⟩

/-- Numbers that fit are accepted. -/
theorem parse_text (h : t.Fits) : parseIsoTimestamp (String.ofList t.text) = some t := by
  obtain ⟨y₁, y₂, y₃, y₄, hyear, hyears, vyear⟩ := zeroPadded_four h.year
  obtain ⟨m₁, m₂, hmonth, hmonths, vmonth⟩ := zeroPadded_two h.month
  obtain ⟨d₁, d₂, hday, hdays, vday⟩ := zeroPadded_two h.day
  obtain ⟨h₁, h₂, hhour, hhours, vhour⟩ := zeroPadded_two h.hour
  obtain ⟨n₁, n₂, hminute, hminutes, vminute⟩ := zeroPadded_two h.minute
  obtain ⟨s₁, s₂, hsecond, hseconds, vsecond⟩ := zeroPadded_two h.second
  rw [parseIsoTimestamp, IsoTimestamp.text, String.toList_ofList, hyear, hmonth, hday, hhour,
    hminute, hsecond]
  simp [List.range, List.range.loop, hyears, hmonths, hdays, hhours, hminutes, hseconds, vyear,
    vmonth, vday, vhour, vminute, vsecond]

/-- What is accepted: the texts of numbers that fit. -/
theorem parseIsoTimestamp_eq_some :
    parseIsoTimestamp ts = some t ↔ t.Fits ∧ ts = String.ofList t.text := by
  constructor
  · intro h
    obtain ⟨hfits, htext⟩ := text_of_parse h
    exact ⟨hfits, by rw [htext, String.ofList_toList]⟩
  · rintro ⟨hfits, rfl⟩
    exact parse_text hfits

theorem length_text (h : t.Fits) : t.text.length = 19 := by
  simp only [IsoTimestamp.text, List.length_append, List.length_cons,
    (zeroPadded_fits (by decide) h.year).1, (zeroPadded_fits (by decide) h.month).1,
    (zeroPadded_fits (by decide) h.day).1, (zeroPadded_fits (by decide) h.hour).1,
    (zeroPadded_fits (by decide) h.minute).1, (zeroPadded_fits (by decide) h.second).1]

/-- The year of an accepted text ends before the first mark. -/
theorem mark_of_parse (h : parseIsoTimestamp ts = some t) : ts.toList[4]? = some '-' := by
  obtain ⟨hfits, rfl⟩ := parseIsoTimestamp_eq_some.mp h
  obtain ⟨y₁, y₂, y₃, y₄, hyear, -, -⟩ := zeroPadded_four hfits.year
  rw [IsoTimestamp.text, String.toList_ofList, hyear]
  rfl

/-! ## Moments -/

theorem isLeapYear_iff {year : Nat} : isLeapYear year ↔ Calendar.Leap year := by
  simp only [isLeapYear, Calendar.Leap, Bool.or_eq_true, Bool.and_eq_true, beq_iff_eq, bne_iff_ne]
  omega

theorem daysInMonth_eq (year month : Nat) :
    daysInMonth year month = Calendar.monthLength year month := by
  match month with
  | 2 =>
      rw [daysInMonth, if_neg (by decide), Calendar.monthLength]
      exact if_congr ⟨fun h ↦ isLeapYear_iff.mp h.2, fun h ↦ ⟨rfl, isLeapYear_iff.mpr h⟩⟩ rfl rfl
  | 0 | 1 | 3 | 4 | 5 | 6 | 7 | 8 | 9 | 10 | 11 | 12 => rfl
  | k + 13 => exact if_pos (Or.inr (Nat.le_add_left 13 k))

namespace IsoTimestamp

/-- The numbers of a moment. -/
def ofMoment (m : Calendar.Moment) : IsoTimestamp :=
  ⟨m.year, m.month, m.day, m.hour, m.minute, m.second⟩

/-- They are a date of the calendar and a time of day. -/
def Valid (t : IsoTimestamp) : Prop := ∃ m, ofMoment m = t

def nextYear (t : IsoTimestamp) : IsoTimestamp := { t with year := t.year + 1 }

end IsoTimestamp

/-- The test for a valid date is the one of the calendar. -/
theorem valid_iff : t.Valid ↔ 0 < daysInMonth t.year t.month ∧ 1 ≤ t.day ∧
    t.day ≤ daysInMonth t.year t.month ∧ t.hour ≤ 23 ∧ t.minute ≤ 59 ∧ t.second ≤ 59 := by
  rw [daysInMonth_eq]
  constructor
  · rintro ⟨m, rfl⟩
    exact ⟨Nat.lt_of_lt_of_le m.day_pos m.day_le, m.day_pos, m.day_le,
      Nat.le_of_lt_succ m.hour_lt, Nat.le_of_lt_succ m.minute_lt, Nat.le_of_lt_succ m.second_lt⟩
  · rintro ⟨-, hpos, hle, hhour, hminute, hsecond⟩
    exact ⟨⟨t.year, t.month, t.day, t.hour, t.minute, t.second, hpos, hle,
      Nat.lt_succ_of_le hhour, Nat.lt_succ_of_le hminute, Nat.lt_succ_of_le hsecond⟩, rfl⟩

/-- The moments of the years with four digits have accepted texts. -/
theorem fits_ofMoment {m : Calendar.Moment} (h : m.year < 10 ^ 4) :
    (IsoTimestamp.ofMoment m).Fits := by
  have hday := m.day_le.trans (Calendar.monthLength_le m.year m.month)
  have hmonth := Calendar.month_le (Nat.lt_of_lt_of_le m.day_pos m.day_le)
  exact ⟨h, hmonth.trans_lt (by decide), hday.trans_lt (by decide), m.hour_lt.trans (by decide),
    m.minute_lt.trans (by decide), m.second_lt.trans (by decide)⟩

theorem IsoTimestamp.Fits.nextYear (h : t.Fits) (hyear : t.year < 9999) : t.nextYear.Fits :=
  ⟨Nat.succ_lt_succ hyear, h.month, h.day, h.hour, h.minute, h.second⟩

/-- One year on, the text after the year is the same. -/
theorem drop_nextYear (h : t.Fits) (hnext : t.nextYear.Fits) :
    t.nextYear.text.drop 4 = t.text.drop 4 := by
  obtain ⟨y₁, y₂, y₃, y₄, hyear, -, -⟩ := zeroPadded_four h.year
  obtain ⟨z₁, z₂, z₃, z₄, hyear', -, -⟩ := zeroPadded_four hnext.year
  rw [IsoTimestamp.text, IsoTimestamp.text, hyear, hyear']
  rfl

/-! ## The repair -/

/-- A leap day in the year before a leap year, from `renewdomain`. -/
def Repairs (actionname : String) (t : IsoTimestamp) : Prop :=
  actionname = "renewdomain" ∧ t.month = 2 ∧ t.day = 29 ∧ ¬ Calendar.Leap t.year ∧
    Calendar.Leap (t.year + 1)

instance : Decidable (Repairs actionname t) := inferInstanceAs (Decidable (_ ∧ _))

/-- The day of a repair is not in the calendar. -/
theorem Repairs.not_valid (h : Repairs actionname t) : ¬ t.Valid := by
  rintro ⟨m, rfl⟩
  obtain ⟨-, hmonth, hday, hleap, -⟩ := h
  have hle := m.day_le
  rw [show m.day = 29 from hday, show m.month = 2 from hmonth] at hle
  exact hleap (Calendar.leapDay_le.mp hle)

/-- But the one a year later is, if the time of day is one. -/
theorem Repairs.valid_nextYear (h : Repairs actionname t) (hhour : t.hour < 24)
    (hminute : t.minute < 60) (hsecond : t.second < 60) : t.nextYear.Valid := by
  obtain ⟨-, hmonth, hday, -, hnext⟩ := h
  refine ⟨Calendar.Moment.leapDay hnext hhour hminute hsecond, ?_⟩
  rw [IsoTimestamp.nextYear, IsoTimestamp.mk.injEq]
  exact ⟨rfl, hmonth.symm, hday.symm, rfl, rfl, rfl⟩

theorem normalize_none (h : parseIsoTimestamp ts = none) :
    normalizeContractExpirationTimestamp ts actionname = ts := by
  rw [normalizeContractExpirationTimestamp, h]

theorem normalize_of_not_repairs (h : parseIsoTimestamp ts = some t)
    (hrepairs : ¬ Repairs actionname t) :
    normalizeContractExpirationTimestamp ts actionname = ts := by
  rw [normalizeContractExpirationTimestamp, h]
  dsimp only
  split_ifs with hvalid hrepair
  · rfl
  · obtain ⟨haction, hmonth, hday, hleap, hnext⟩ := hrepair
    refine absurd ⟨haction, hmonth, hday, fun h ↦ ?_, isLeapYear_iff.mp hnext⟩ hrepairs
    rw [isLeapYear_iff.mpr h] at hleap
    exact Bool.false_ne_true hleap
  · rfl

/-- A repair writes the next year, as far as there is room. -/
theorem normalize_of_repairs (h : parseIsoTimestamp ts = some t) (hrepairs : Repairs actionname t) :
    normalizeContractExpirationTimestamp ts actionname =
      String.ofList (t.nextYear.text.take 19) := by
  obtain ⟨haction, hmonth, hday, hleap, hnext⟩ := id hrepairs
  have hleap : (!isLeapYear t.year) = true := by
    rw [Bool.not_eq_true']
    exact Bool.eq_false_iff.mpr fun h ↦ hleap (isLeapYear_iff.mp h)
  rw [normalizeContractExpirationTimestamp, h]
  dsimp only
  rw [if_neg fun hvalid ↦ hrepairs.not_valid (valid_iff.mpr hvalid),
    if_pos ⟨haction, hmonth, hday, hleap, isLeapYear_iff.mpr hnext⟩]
  rfl

theorem normalize_valid (h : parseIsoTimestamp ts = some t) (hvalid : t.Valid) :
    normalizeContractExpirationTimestamp ts actionname = ts :=
  normalize_of_not_repairs h fun hrepairs ↦ hrepairs.not_valid hvalid

/-- The text of a moment stays. -/
theorem normalize_moment {m : Calendar.Moment} (h : m.year < 10 ^ 4) :
    normalizeContractExpirationTimestamp (String.ofList (IsoTimestamp.ofMoment m).text)
      actionname = String.ofList (IsoTimestamp.ofMoment m).text :=
  normalize_valid (parse_text (fits_ofMoment h)) ⟨m, rfl⟩

/-- After year 9999 the last digit is lost, and the text is not accepted. -/
theorem parse_take_of_year (h : t.year = 10000) :
    parseIsoTimestamp (String.ofList (t.text.take 19)) = none := by
  cases hparse : parseIsoTimestamp (String.ofList (t.text.take 19)) with
  | none => rfl
  | some t' =>
      have hmark := mark_of_parse hparse
      rw [String.toList_ofList, List.getElem?_take_of_lt (by decide), IsoTimestamp.text, h] at hmark
      rw [show zeroPadded 4 10000 = ['1', '0', '0', '0', '0'] by decide] at hmark
      exact absurd (Option.some.inj hmark) (by decide)

section Repair

variable (h : parseIsoTimestamp ts = some t) (hrepairs : Repairs actionname t)
include h hrepairs

/-- Before year 9999 there is room for the text of the next year. -/
theorem normalize_of_fits (hnext : t.nextYear.Fits) :
    normalizeContractExpirationTimestamp ts actionname = String.ofList t.nextYear.text ∧
      parseIsoTimestamp (normalizeContractExpirationTimestamp ts actionname) =
        some t.nextYear := by
  have hout : normalizeContractExpirationTimestamp ts actionname =
      String.ofList t.nextYear.text := by
    rw [normalize_of_repairs h hrepairs, List.take_of_length_le (Nat.le_of_eq (length_text hnext))]
  exact ⟨hout, by rw [hout, parse_text hnext]⟩

theorem normalize_of_last_year (hyear : 9999 ≤ t.year) :
    parseIsoTimestamp (normalizeContractExpirationTimestamp ts actionname) = none := by
  rw [normalize_of_repairs h hrepairs]
  exact parse_take_of_year
    (Nat.le_antisymm (text_of_parse h).1.year (Nat.succ_le_succ hyear))

end Repair

/-- Nothing changes a second time: the year of a repaired text is a leap year. -/
theorem normalize_idempotent (ts actionname : String) :
    normalizeContractExpirationTimestamp (normalizeContractExpirationTimestamp ts actionname)
      actionname = normalizeContractExpirationTimestamp ts actionname := by
  cases h : parseIsoTimestamp ts with
  | none => rw [normalize_none h, normalize_none h]
  | some t =>
      by_cases hrepairs : Repairs actionname t
      · by_cases hyear : t.year < 9999
        · have hnext := (text_of_parse h).1.nextYear hyear
          exact normalize_of_not_repairs (normalize_of_fits h hrepairs hnext).2
            fun hagain ↦ hagain.2.2.2.1 hrepairs.2.2.2.2
        · exact normalize_none (normalize_of_last_year h hrepairs (Nat.le_of_not_lt hyear))
      · rw [normalize_of_not_repairs h hrepairs, normalize_of_not_repairs h hrepairs]

/-- What is promised for a text: it stays, or it is a leap day of `renewdomain` and becomes the
text of a moment, one year on; a moment stays; and nothing changes a second time. -/
structure RepairSound (ts actionname : String) : Prop where
  outcome : normalizeContractExpirationTimestamp ts actionname = ts ∨
    actionname = "renewdomain" ∧
      (normalizeContractExpirationTimestamp ts actionname).length = 19 ∧
      ∃ t, parseIsoTimestamp ts = some t ∧ t.nextYear.Valid ∧
        parseIsoTimestamp (normalizeContractExpirationTimestamp ts actionname) =
          some t.nextYear ∧
        (normalizeContractExpirationTimestamp ts actionname).toList.drop 4 = ts.toList.drop 4
  valid_kept : ∀ t, parseIsoTimestamp ts = some t → t.Valid →
    normalizeContractExpirationTimestamp ts actionname = ts
  idempotent :
    normalizeContractExpirationTimestamp (normalizeContractExpirationTimestamp ts actionname)
      actionname = normalizeContractExpirationTimestamp ts actionname

theorem RepairSound.of_unchanged (h : normalizeContractExpirationTimestamp ts actionname = ts) :
    RepairSound ts actionname :=
  ⟨Or.inl h, fun _ _ _ ↦ h, normalize_idempotent ts actionname⟩

section Repair

variable (h : parseIsoTimestamp ts = some t) (hrepairs : Repairs actionname t)
include h hrepairs

theorem year_of_sound (hsound : RepairSound ts actionname) : t.year < 9999 := by
  refine Nat.lt_of_not_le fun hge ↦ ?_
  have hnone := normalize_of_last_year h hrepairs hge
  rcases hsound.outcome with heq | ⟨-, -, t', -, -, hparse, -⟩
  · rw [heq, h] at hnone
    cases hnone
  · rw [hnone] at hparse
    cases hparse

theorem valid_of_sound (hnext : t.nextYear.Fits) (hsound : RepairSound ts actionname) :
    t.nextYear.Valid := by
  rcases hsound.outcome with heq | ⟨-, -, t', ht', hvalid, -, -⟩
  · -- A repair never leaves the text as it was.
    have hparse := (normalize_of_fits h hrepairs hnext).2
    rw [heq, h] at hparse
    exact absurd (congrArg IsoTimestamp.year (Option.some.inj hparse))
      (Nat.ne_of_lt t.year.lt_succ_self)
  · rw [h] at ht'
    rwa [Option.some.inj ht']

theorem sound_of_valid (hnext : t.nextYear.Fits) (hvalid : t.nextYear.Valid) :
    RepairSound ts actionname := by
  obtain ⟨hfits, htext⟩ := text_of_parse h
  obtain ⟨hout, hparse⟩ := normalize_of_fits h hrepairs hnext
  refine ⟨Or.inr ⟨hrepairs.1, ?_, t, h, hvalid, hparse, ?_⟩, fun t' ↦ normalize_valid,
    normalize_idempotent ts actionname⟩
  · rw [hout, String.length_ofList]
    exact length_text hnext
  · rw [hout, String.toList_ofList, ← htext]
    exact drop_nextYear hfits hnext

end Repair

/-- **What is promised holds of a text, exactly if it is none that is repaired, or its year is
before 9999 and its time of day is one.** -/
theorem repairSound_iff (ts actionname : String) :
    RepairSound ts actionname ↔
      ∀ t, parseIsoTimestamp ts = some t → Repairs actionname t →
        t.year < 9999 ∧ t.hour < 24 ∧ t.minute < 60 ∧ t.second < 60 := by
  constructor
  · intro hsound t h hrepairs
    have hyear := year_of_sound h hrepairs hsound
    have hnext := (text_of_parse h).1.nextYear hyear
    obtain ⟨m, hm⟩ := valid_of_sound h hrepairs hnext hsound
    have hhour : m.hour = t.hour := congrArg IsoTimestamp.hour hm
    have hminute : m.minute = t.minute := congrArg IsoTimestamp.minute hm
    have hsecond : m.second = t.second := congrArg IsoTimestamp.second hm
    exact ⟨hyear, hhour ▸ m.hour_lt, hminute ▸ m.minute_lt, hsecond ▸ m.second_lt⟩
  · intro hcond
    cases h : parseIsoTimestamp ts with
    | none => exact RepairSound.of_unchanged (normalize_none h)
    | some t =>
        by_cases hrepairs : Repairs actionname t
        · obtain ⟨hyear, hhour, hminute, hsecond⟩ := hcond t h hrepairs
          have hnext := (text_of_parse h).1.nextYear hyear
          exact sound_of_valid h hrepairs hnext (hrepairs.valid_nextYear hhour hminute hsecond)
        · exact RepairSound.of_unchanged (normalize_of_not_repairs h hrepairs)

/-- The hour of the first text is not looked at; the second one has no room for a fifth digit. -/
theorem repair_not_sound : ¬ RepairSound "2023-02-29T25:00:00" "renewdomain" ∧
    ¬ RepairSound "9999-02-29T00:00:00" "renewdomain" := by
  have hhour : parseIsoTimestamp "2023-02-29T25:00:00" = some ⟨2023, 2, 29, 25, 0, 0⟩ := rfl
  have hyear : parseIsoTimestamp "9999-02-29T00:00:00" = some ⟨9999, 2, 29, 0, 0, 0⟩ := rfl
  constructor
  · intro hsound
    have hnext := (text_of_parse hhour).1.nextYear (by decide)
    obtain ⟨m, hm⟩ := valid_of_sound hhour (by decide) hnext hsound
    have heq : m.hour = 25 := congrArg IsoTimestamp.hour hm
    exact absurd (heq ▸ m.hour_lt) (by decide)
  · intro hsound
    exact absurd (year_of_sound hyear (by decide) hsound) (by decide)

end Relic

end Chronicle
