import Mathlib.Tactic.Push
import Chronicle.Interactive.Requests
import Chronicle.Relic.Values

/-!
# What the consumer sends

The consumer answers with decimal numbers as text: acknowledgements in scanning mode, blocks or
ranges of blocks in interactive mode.  The exporter reads them with `std::stoul`, which looks at
the beginning of a text only, and stores the ends of a range in 32 bits.
-/

namespace Chronicle

open Relic Effect

/-! ## The readers -/

/-- The characters of a message. -/
def text (data : Msgbuf) : List Char := data.map fun b ↦ Char.ofNat b.toNat

/-- `std::stoul`, with its exception. -/
def readNumber (s : List Char) : Except String Nat :=
  match stoul (String.ofList s) with
  | none => .error "stoul"
  | some n => .ok n

/-- The parts of a request before and after the first minus, if there is one. -/
def splitRequest (s : List Char) : List Char × Option (List Char) :=
  match s.dropWhile (· ≠ '-') with
  | [] => (s, none)
  | _ :: stop => (s.takeWhile (· ≠ '-'), some stop)

/-- `async_read_interactive_reqs`, up to what is published. -/
def readInteractiveReq (data : Msgbuf) : Except String InteractiveRequest := do
  let (start, stop) := splitRequest (text data)
  let start ← readNumber start
  match stop with
  | none => readRequest start none
  | some stop => readRequest start (some (← readNumber stop))

/-- `async_read_acks`, up to the call of `ack_block`. -/
def readAck (data : Msgbuf) : Except String Nat := do
  let ack ← readNumber (text data)
  if Uint32.max < ack then
    .error "Consumer acknowledged block number higher than UINT32_MAX"
  else .ok ack

/-! ## What the messages mean -/

/-- A decimal number in text notation. -/
structure Decimal (s : List Char) (n : Nat) : Prop where
  ne_nil : s ≠ []
  digits : ∀ c ∈ s, c.isDigit
  value : digitsValue s = n

/-- A text that asks for blocks: one block, or a range. -/
inductive Asks : List Char → InteractiveRequest → Prop
  | block {s : List Char} {n : Nat} (h : Decimal s n) (hlt : n < Uint32.max) : Asks s ⟨n, n + 1⟩
  | range {start stop : List Char} {n m : Nat} (hstart : Decimal start n) (hstop : Decimal stop m)
      (hlt : n < m) (hle : m ≤ Uint32.max) : Asks (start ++ '-' :: stop) ⟨n, m⟩

/-- A request is published exactly if the message asks for it. -/
def ReadsRequest (data : Msgbuf) : Prop :=
  ∀ req, readInteractiveReq data = .ok req ↔ Asks (text data) req

/-- An acknowledgement is passed on exactly if the message is its number. -/
def ReadsAck (data : Msgbuf) : Prop :=
  ∀ n, readAck data = .ok n ↔ Decimal (text data) n ∧ n ≤ Uint32.max

/-! ## When they are read as they are meant -/

/-- A decimal number of 32 bits. -/
def Plain (s : List Char) : Prop := ∃ n, Decimal s n ∧ n ≤ Uint32.max

/-- The numbers of a request, cut down to 32 bits, are not in order, or there is no number. -/
def NoRange (s : List Char) : Prop :=
  ∀ start, stoul (String.ofList (splitRequest s).1) = some start →
    match (splitRequest s).2 with
    | none => start % 2 ^ 32 = Uint32.max
    | some part => ∀ stop, stoul (String.ofList part) = some stop →
        stop % 2 ^ 32 ≤ start % 2 ^ 32

/-- The parts of a request are decimal numbers of 32 bits, or they give no range of blocks. -/
def PlainRequest (s : List Char) : Prop :=
  (Plain (splitRequest s).1 ∧ ∀ part ∈ (splitRequest s).2, Plain part) ∨ NoRange s

/-- An acknowledgement is a decimal number, or there is no number of 32 bits at its beginning. -/
def PlainAck (s : List Char) : Prop :=
  (∃ n, Decimal s n) ∨ ∀ n, stoul (String.ofList s) = some n → Uint32.max < n

/-! ## Numbers -/

section Numbers

variable {s : List Char} {n : Nat}

theorem Decimal.unique {m : Nat} (h : Decimal s n) (h' : Decimal s m) : n = m :=
  h.value.symm.trans h'.value

theorem Decimal.no_minus (h : Decimal s n) : ∀ c ∈ s, c ≠ '-' := fun c hc ↦
  (not_space_of_isDigit (h.digits c hc)).2.1

/-- A number that is not too large is read as it is. -/
theorem Decimal.stoul (h : Decimal s n) (hlt : n < 2 ^ 64) :
    Relic.stoul (String.ofList s) = some n := by
  rw [Relic.stoul, signedPart_of_digits h.ne_nil h.digits, h.value]
  exact if_neg (not_le.mpr hlt)

/-- What is read of a number is the number. -/
theorem Decimal.eq_of_stoul (h : Decimal s n) {m : Nat}
    (hm : Relic.stoul (String.ofList s) = some m) : m = n := by
  by_cases hlt : n < 2 ^ 64
  · exact (Option.some.inj ((h.stoul hlt).symm.trans hm)).symm
  · rw [Relic.stoul, signedPart_of_digits h.ne_nil h.digits, h.value] at hm
    dsimp only at hm
    rw [if_pos (not_lt.mp hlt)] at hm
    cases hm

theorem readNumber_eq_ok : readNumber s = .ok n ↔ Relic.stoul (String.ofList s) = some n := by
  rw [readNumber]
  cases Relic.stoul (String.ofList s) with
  | none => exact iff_of_false (fun h ↦ by cases h) (fun h ↦ by cases h)
  | some m =>
      exact ⟨fun h ↦ congrArg some (Except.ok.inj h), fun h ↦ congrArg _ (Option.some.inj h)⟩

end Numbers

/-! ## Requests -/

section Requests

variable {s : List Char} {req : InteractiveRequest}

/-- The split is at the first minus. -/
theorem splitRequest_eq_none {a : List Char} (h : splitRequest s = (a, none)) :
    a = s ∧ ∀ c ∈ s, c ≠ '-' := by
  rw [splitRequest] at h
  split at h
  · next hdrop =>
      obtain ⟨rfl, -⟩ := Prod.mk.inj h
      refine ⟨rfl, fun c hc ↦ ?_⟩
      have hall := List.dropWhile_eq_nil_iff.mp hdrop c hc
      simpa using hall
  · cases (Prod.mk.inj h).2

theorem splitRequest_eq_some {a b : List Char} (h : splitRequest s = (a, some b)) :
    s = a ++ '-' :: b ∧ ∀ c ∈ a, c ≠ '-' := by
  rw [splitRequest] at h
  split at h
  · cases (Prod.mk.inj h).2
  · next c stop hdrop =>
      obtain ⟨rfl, hb⟩ := Prod.mk.inj h
      obtain rfl := Option.some.inj hb
      have hc : c = '-' := by
        have hhead := List.head?_dropWhile_not (fun c : Char ↦ decide (c ≠ '-')) s
        rw [hdrop] at hhead
        simpa using hhead
      refine ⟨?_, fun c hc ↦ ?_⟩
      · have happend :=
          List.takeWhile_append_dropWhile (p := fun c : Char ↦ decide (c ≠ '-')) (l := s)
        rw [hdrop, hc] at happend
        exact happend.symm
      · simpa using List.mem_takeWhile_imp hc

theorem splitRequest_append {a b : List Char} (ha : ∀ c ∈ a, c ≠ '-') :
    splitRequest (a ++ '-' :: b) = (a, some b) := by
  have ha : ∀ c ∈ a, decide (c ≠ '-') = true := fun c hc ↦ decide_eq_true (ha c hc)
  have hdrop : (a ++ '-' :: b).dropWhile (· ≠ '-') = '-' :: b := by
    rw [List.dropWhile_append_of_pos ha]
    rfl
  have htake : (a ++ '-' :: b).takeWhile (· ≠ '-') = a := by
    rw [List.takeWhile_append_of_pos ha]
    exact List.append_nil a
  rw [splitRequest, hdrop, htake]

theorem splitRequest_of_no_minus (h : ∀ c ∈ s, c ≠ '-') : splitRequest s = (s, none) := by
  have hdrop : s.dropWhile (· ≠ '-') = [] :=
    List.dropWhile_eq_nil_iff.mpr fun c hc ↦ decide_eq_true (h c hc)
  rw [splitRequest, hdrop]

/-- Without a minus the message asks for one block. -/
theorem asks_block {a : List Char} (h : splitRequest s = (a, none)) :
    Asks s req ↔ ∃ n, Decimal a n ∧ n < Uint32.max ∧ req = ⟨n, n + 1⟩ := by
  obtain ⟨rfl, hno⟩ := splitRequest_eq_none h
  constructor
  · intro hasks
    cases hasks with
    | block hn hlt => exact ⟨_, hn, hlt, rfl⟩
    | range hstart hstop hlt hle =>
        exact absurd rfl (hno '-' (List.mem_append_right _ List.mem_cons_self))
  · rintro ⟨n, hn, hlt, rfl⟩
    exact .block hn hlt

/-- With a minus it asks for a range. -/
theorem asks_range {a b : List Char} (h : splitRequest s = (a, some b)) :
    Asks s req ↔
      ∃ n m, Decimal a n ∧ Decimal b m ∧ n < m ∧ m ≤ Uint32.max ∧ req = ⟨n, m⟩ := by
  constructor
  · intro hasks
    cases hasks with
    | block hn hlt =>
        rw [splitRequest_of_no_minus hn.no_minus] at h
        cases (Prod.mk.inj h).2
    | range hstart hstop hlt hle =>
        rw [splitRequest_append hstart.no_minus] at h
        obtain ⟨rfl, hb⟩ := Prod.mk.inj h
        obtain rfl := Option.some.inj hb
        exact ⟨_, _, hstart, hstop, hlt, hle, rfl⟩
  · rintro ⟨n, m, hstart, hstop, hlt, hle, rfl⟩
    obtain ⟨rfl, -⟩ := splitRequest_eq_some h
    exact .range hstart hstop hlt hle

/-- The end of a single block is one above it, unless this is too large. -/
theorem readRequest_block {start : Nat} :
    readRequest start none = .ok req ↔
      start % 2 ^ 32 ≠ Uint32.max ∧ req = ⟨start % 2 ^ 32, start % 2 ^ 32 + 1⟩ := by
  have hlt : start % 2 ^ 32 < 2 ^ 32 := Nat.mod_lt _ (by norm_num)
  rw [readRequest]
  by_cases hmax : start % 2 ^ 32 = Uint32.max
  · rw [if_pos (by rw [hmax]; decide)]
    exact iff_of_false (fun h ↦ by cases h) fun h ↦ h.1 hmax
  · have hnext : (start % 2 ^ 32 + 1) % 2 ^ 32 = start % 2 ^ 32 + 1 := by
      rw [Uint32.max] at hmax
      omega
    rw [hnext, if_neg (by omega)]
    exact ⟨fun h ↦ ⟨hmax, (Except.ok.inj h).symm⟩, fun h ↦ congrArg _ h.2.symm⟩

theorem readRequest_range {start stop : Nat} :
    readRequest start (some stop) = .ok req ↔
      start % 2 ^ 32 < stop % 2 ^ 32 ∧ req = ⟨start % 2 ^ 32, stop % 2 ^ 32⟩ := by
  rw [readRequest]
  by_cases hle : stop % 2 ^ 32 ≤ start % 2 ^ 32
  · rw [if_pos hle]
    exact iff_of_false (fun h ↦ by cases h) fun h ↦ absurd h.1 (not_lt.mpr hle)
  · rw [if_neg hle]
    exact ⟨fun h ↦ ⟨not_le.mp hle, (Except.ok.inj h).symm⟩, fun h ↦ congrArg _ h.2.symm⟩

variable {data : Msgbuf}

theorem readInteractiveReq_block {a : List Char} (h : splitRequest (text data) = (a, none)) :
    readInteractiveReq data = .ok req ↔
      ∃ start, stoul (String.ofList a) = some start ∧ start % 2 ^ 32 ≠ Uint32.max ∧
        req = ⟨start % 2 ^ 32, start % 2 ^ 32 + 1⟩ := by
  rw [readInteractiveReq, h]
  rw [except_bind_eq_ok]
  refine exists_congr fun start ↦ ?_
  rw [readNumber_eq_ok, readRequest_block]

theorem readInteractiveReq_range {a b : List Char} (h : splitRequest (text data) = (a, some b)) :
    readInteractiveReq data = .ok req ↔
      ∃ start stop, stoul (String.ofList a) = some start ∧ stoul (String.ofList b) = some stop ∧
        start % 2 ^ 32 < stop % 2 ^ 32 ∧ req = ⟨start % 2 ^ 32, stop % 2 ^ 32⟩ := by
  rw [readInteractiveReq, h]
  rw [except_bind_eq_ok]
  refine exists_congr fun start ↦ ?_
  rw [readNumber_eq_ok, except_bind_eq_ok, ← exists_and_left]
  refine exists_congr fun stop ↦ ?_
  rw [readNumber_eq_ok, readRequest_range]

end Requests

/-! ## The results -/

/-- A part of a request that is a decimal number is read as it is. -/
theorem Plain.stoul {s : List Char} (h : Plain s) :
    ∃ n, Decimal s n ∧ n ≤ Uint32.max ∧ n % 2 ^ 32 = n ∧
      Relic.stoul (String.ofList s) = some n := by
  obtain ⟨n, hn, hle⟩ := h
  have hlt : n < 2 ^ 32 := by
    rw [Uint32.max] at hle
    omega
  exact ⟨n, hn, hle, Nat.mod_eq_of_lt hlt, hn.stoul (hlt.trans (by norm_num))⟩

/-- A message without a minus. -/
theorem readsRequest_block {data : Msgbuf} {a : List Char}
    (h : splitRequest (text data) = (a, none)) :
    ReadsRequest data ↔ Plain a ∨
      ∀ start, stoul (String.ofList a) = some start → start % 2 ^ 32 = Uint32.max := by
  rw [ReadsRequest]
  simp only [readInteractiveReq_block h, asks_block h]
  constructor
  · intro hreads
    by_cases hno : ∀ start, stoul (String.ofList a) = some start → start % 2 ^ 32 = Uint32.max
    · exact .inr hno
    · obtain ⟨start, hno⟩ := not_forall.mp hno
      obtain ⟨hstart, hne⟩ := Classical.not_imp.mp hno
      obtain ⟨n, hn, hlt, -⟩ := (hreads _).mp ⟨start, hstart, hne, rfl⟩
      exact .inl ⟨n, hn, hlt.le⟩
  · rintro (hplain | hno) req
    · obtain ⟨n, hn, hle, hmod, hstoul⟩ := hplain.stoul
      constructor
      · rintro ⟨start, hstart, hne, hreq⟩
        obtain rfl := hn.eq_of_stoul hstart
        rw [hmod] at hne hreq
        exact ⟨start, hn, lt_of_le_of_ne hle hne, hreq⟩
      · rintro ⟨m, hm, hlt, hreq⟩
        obtain rfl := hn.unique hm
        refine ⟨n, hstoul, ?_, ?_⟩
        · rw [hmod]
          exact hlt.ne
        · rw [hmod]
          exact hreq
    · constructor
      · rintro ⟨start, hstart, hne, -⟩
        exact absurd (hno start hstart) hne
      · rintro ⟨n, hn, hlt, -⟩
        obtain ⟨m, hm, -, hmod, hstoul⟩ := Plain.stoul ⟨n, hn, hlt.le⟩
        obtain rfl := hn.unique hm
        exact absurd (hmod.symm.trans (hno n hstoul)) hlt.ne

/-- A message with a minus. -/
theorem readsRequest_range {data : Msgbuf} {a b : List Char}
    (h : splitRequest (text data) = (a, some b)) :
    ReadsRequest data ↔ (Plain a ∧ Plain b) ∨
      ∀ start, stoul (String.ofList a) = some start →
        ∀ stop, stoul (String.ofList b) = some stop → stop % 2 ^ 32 ≤ start % 2 ^ 32 := by
  rw [ReadsRequest]
  simp only [readInteractiveReq_range h, asks_range h]
  constructor
  · intro hreads
    by_cases hno : ∀ start, stoul (String.ofList a) = some start →
        ∀ stop, stoul (String.ofList b) = some stop → stop % 2 ^ 32 ≤ start % 2 ^ 32
    · exact .inr hno
    · push Not at hno
      obtain ⟨start, hstart, stop, hstop, hlt⟩ := hno
      obtain ⟨n, m, hn, hm, hnm, hle, -⟩ := (hreads _).mp ⟨start, stop, hstart, hstop, hlt, rfl⟩
      exact .inl ⟨⟨n, hn, hnm.le.trans hle⟩, ⟨m, hm, hle⟩⟩
  · rintro (⟨hplain, hplain'⟩ | hno) req
    · obtain ⟨n, hn, -, hmod, hstoul⟩ := hplain.stoul
      obtain ⟨m, hm, hle, hmod', hstoul'⟩ := hplain'.stoul
      constructor
      · rintro ⟨start, stop, hstart, hstop, hlt, hreq⟩
        obtain rfl := hn.eq_of_stoul hstart
        obtain rfl := hm.eq_of_stoul hstop
        rw [hmod, hmod'] at hlt hreq
        exact ⟨start, stop, hn, hm, hlt, hle, hreq⟩
      · rintro ⟨n', m', hn', hm', hlt, -, hreq⟩
        obtain rfl := hn.unique hn'
        obtain rfl := hm.unique hm'
        refine ⟨n, m, hstoul, hstoul', ?_, ?_⟩
        · rw [hmod, hmod']
          exact hlt
        · rw [hmod, hmod']
          exact hreq
    · constructor
      · rintro ⟨start, stop, hstart, hstop, hlt, -⟩
        exact absurd (hno start hstart stop hstop) (not_le.mpr hlt)
      · rintro ⟨n, m, hn, hm, hlt, hle, -⟩
        obtain ⟨n', hn', -, hmod, hstoul⟩ := Plain.stoul ⟨n, hn, hlt.le.trans hle⟩
        obtain ⟨m', hm', -, hmod', hstoul'⟩ := Plain.stoul ⟨m, hm, hle⟩
        obtain rfl := hn.unique hn'
        obtain rfl := hm.unique hm'
        have hno := hno n hstoul m hstoul'
        rw [hmod, hmod'] at hno
        exact absurd hno (not_le.mpr hlt)

theorem readsRequest_iff (data : Msgbuf) : ReadsRequest data ↔ PlainRequest (text data) := by
  rw [PlainRequest, NoRange]
  rcases h : splitRequest (text data) with ⟨a, _ | b⟩
  · rw [readsRequest_block h]
    simp only [Option.mem_def, reduceCtorEq, false_implies, implies_true, and_true]
  · rw [readsRequest_range h]
    simp only [Option.mem_some_iff, forall_eq']

theorem readAck_eq_ok {data : Msgbuf} {n : Nat} :
    readAck data = .ok n ↔ stoul (String.ofList (text data)) = some n ∧ n ≤ Uint32.max := by
  rw [readAck, except_bind_eq_ok]
  constructor
  · rintro ⟨ack, hack, h⟩
    rw [readNumber_eq_ok] at hack
    split_ifs at h with hlt
    obtain rfl := Except.ok.inj h
    exact ⟨hack, not_lt.mp hlt⟩
  · rintro ⟨hn, hle⟩
    exact ⟨n, readNumber_eq_ok.mpr hn, if_neg (not_lt.mpr hle)⟩

theorem readsAck_iff (data : Msgbuf) : ReadsAck data ↔ PlainAck (text data) := by
  rw [ReadsAck, PlainAck]
  simp only [readAck_eq_ok]
  constructor
  · intro hreads
    by_cases hno : ∀ n, stoul (String.ofList (text data)) = some n → Uint32.max < n
    · exact .inr hno
    · push Not at hno
      obtain ⟨n, hn, hle⟩ := hno
      exact .inl ⟨n, ((hreads n).mp ⟨hn, hle⟩).1⟩
  · rintro (⟨m, hm⟩ | hno) n
    · constructor
      · rintro ⟨hn, hle⟩
        obtain rfl := hm.eq_of_stoul hn
        exact ⟨hm, hle⟩
      · rintro ⟨hn, hle⟩
        obtain ⟨m, hm, -, -, hstoul⟩ := Plain.stoul ⟨n, hn, hle⟩
        obtain rfl := hn.unique hm
        exact ⟨hstoul, hle⟩
    · constructor
      · rintro ⟨hn, hle⟩
        exact absurd (hno n hn) (not_lt.mpr hle)
      · rintro ⟨hn, hle⟩
        obtain ⟨m, hm, -, -, hstoul⟩ := Plain.stoul ⟨n, hn, hle⟩
        obtain rfl := hn.unique hm
        exact absurd (hno n hstoul) (not_lt.mpr hle)

/-- **A request is published for what its text says, and for nothing else, if and only if its
parts are decimal numbers of 32 bits, or what `std::stoul` finds in them, cut down to 32 bits,
is not in order; an acknowledgement is passed on for its number, and for nothing else, if and
only if it is a decimal number, or it does not begin with one that has 32 bits.** -/
theorem text_protocol_iff (data : Msgbuf) :
    (ReadsRequest data ↔ PlainRequest (text data)) ∧ (ReadsAck data ↔ PlainAck (text data)) :=
  ⟨readsRequest_iff data, readsAck_iff data⟩

/-- The message `5--3` asks for nothing, and is read as a request for nearly all blocks; the
message `5x` is read as an acknowledgement of block 5. -/
theorem text_protocol_lenient :
    ¬ ReadsRequest [53, 45, 45, 51] ∧ ¬ ReadsAck [53, 120] := by
  constructor
  · intro hreads
    have htext : text [53, 45, 45, 51] = ['5'] ++ '-' :: ['-', '3'] := rfl
    have hsplit := splitRequest_append (a := ['5']) (b := ['-', '3'])
      (List.forall_mem_singleton.mpr (by decide))
    rw [← htext] at hsplit
    have hread : readInteractiveReq [53, 45, 45, 51] =
        .ok ⟨5, 4294967293⟩ := by decide +kernel
    obtain ⟨n, m, -, hm, -⟩ := (asks_range hsplit).mp ((hreads _).mp hread)
    exact hm.no_minus '-' List.mem_cons_self rfl
  · intro hreads
    have htext : text [53, 120] = ['5', 'x'] := rfl
    have hread : readAck [53, 120] = .ok 5 := by decide +kernel
    obtain ⟨hn, -⟩ := (hreads _).mp hread
    rw [htext] at hn
    exact absurd (hn.digits 'x' (by decide)) (by decide)

end Chronicle
