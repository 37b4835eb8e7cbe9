import Mathlib.Data.List.Basic
import Mathlib.Tactic.SplitIfs

/-!
# The text of an SQL call

A call is written by joining the texts of its arguments.  An argument may be put between quotes
as it is, or without quotes, or as an escaped literal.  The text is read back as the call
exactly if no argument that is put between quotes contains a quote, and every one without
quotes is a number or `NULL` (`Call.lex_text_iff`).

The lexer is the part of that of PostgreSQL that the calls come near: identifiers, numbers,
literals with and without escapes, comments, and single characters.
-/

namespace Sql

abbrev Text := List Char

inductive Token where
  | ident (w : Text)
  | number (w : Text)
  | str (v : Text)
  | sym (c : Char)
deriving DecidableEq, Repr

/-- What a literal denotes. -/
def Token.string? : Token → Option Text
  | str v => some v
  | _ => none

/-! ## Identifiers and numbers -/

def isSpace (c : Char) : Bool := c = ' ' || c = '\t' || c = '\n' || c = '\r' || c = '\x0c'

def isIdentStart (c : Char) : Bool := c.isAlpha || c = '_' || '\x7f' < c

def isIdentCont (c : Char) : Bool := isIdentStart c || c.isDigit || c = '$'

def isIdent : Text → Bool
  | [] => false
  | c :: w => isIdentStart c && w.all isIdentCont

/-- How far a number has been read. -/
inductive Phase where
  | whole | fraction | exponent | sign | power
deriving DecidableEq, Repr

/-- The next character of a number. -/
def Phase.next (p : Phase) (c : Char) : Option Phase :=
  match p with
  | whole =>
    if c.isDigit then some whole else if c = '.' then some fraction
    else if c = 'e' || c = 'E' then some exponent else none
  | fraction =>
    if c.isDigit then some fraction else if c = 'e' || c = 'E' then some exponent else none
  | exponent => if c.isDigit then some power else if c = '+' || c = '-' then some sign else none
  | sign | power => if c.isDigit then some power else none

/-- A number may end here. -/
def Phase.ends : Phase → Bool
  | whole | fraction | power => true
  | exponent | sign => false

def isNumber : Text → Bool
  | [] => false
  | c :: w => c.isDigit && ((w.foldlM Phase.next .whole).any Phase.ends)

theorem foldlM_digits {w : Text} (hw : ∀ c ∈ w, c.isDigit) :
    w.foldlM Phase.next .whole = some .whole := by
  induction w with
  | nil => rfl
  | cons c w ih =>
      have hnext : Phase.next .whole c = some .whole := by
        rw [Phase.next, if_pos (hw c List.mem_cons_self)]
      rw [List.foldlM_cons, hnext]
      exact ih fun d hd ↦ hw d (List.mem_cons_of_mem _ hd)

/-- Digits are a number. -/
theorem isNumber_of_digits {w : Text} (hne : w ≠ []) (hw : ∀ c ∈ w, c.isDigit) : isNumber w := by
  cases w with
  | nil => exact absurd rfl hne
  | cons c w =>
      rw [isNumber, hw c List.mem_cons_self,
        foldlM_digits fun d hd ↦ hw d (List.mem_cons_of_mem _ hd)]
      rfl

/-! ## The lexer -/

/-- What is being read. -/
inductive Mode where
  | between
  | ident (w : Text)
  | number (p : Phase) (w : Text)
  /-- Inside a literal; `e` is whether it has escapes. -/
  | literal (e : Bool) (v : Text)
  /-- After a quote inside a literal. -/
  | quote (e : Bool) (v : Text)
  /-- After a backslash inside a literal. -/
  | backslash (v : Text)
  | minus
  | lineComment
  | slash
  /-- Inside a comment, after `last`. -/
  | comment (depth : Nat) (last : Char)
  | bad
deriving DecidableEq, Repr

/-- The character that a backslash and `c` stand for, other than by its code. -/
def unescape (c : Char) : Option Char :=
  if c = 'b' then some '\x08' else if c = 'f' then some '\x0c' else if c = 'n' then some '\n'
  else if c = 'r' then some '\r' else if c = 't' then some '\t'
  else if c.isDigit || c = 'x' || c = 'u' || c = 'U' then none else some c

/-- The first character of a token. -/
def start (c : Char) : List Token × Mode :=
  if isSpace c then ([], .between)
  else if isIdentStart c then ([], .ident [c])
  else if c.isDigit then ([], .number .whole [c])
  else if c = '\'' then ([], .literal false [])
  else if c = '-' then ([], .minus)
  else if c = '/' then ([], .slash)
  else ([.sym c], .between)

/-- A token has ended before `c`. -/
def after (t : Token) (c : Char) : List Token × Mode := (t :: (start c).1, (start c).2)

def next : Mode → Char → List Token × Mode
  | .between, c => start c
  | .ident w, c =>
    if isIdentCont c then ([], .ident (w ++ [c]))
    else if c = '\'' && (w = ['E'] || w = ['e']) then ([], .literal true [])
    else after (.ident w) c
  | .number p w, c =>
    match p.next c with
    | some p' => ([], .number p' (w ++ [c]))
    | none => if p.ends && !isIdentStart c then after (.number w) c else ([], .bad)
  | .literal e v, c =>
    if c = '\'' then ([], .quote e v)
    else if e && c = '\\' then ([], .backslash v)
    else ([], .literal e (v ++ [c]))
  | .quote e v, c => if c = '\'' then ([], .literal e (v ++ ['\''])) else after (.str v) c
  | .backslash v, c =>
    match unescape c with
    | some d => ([], .literal true (v ++ [d]))
    | none => ([], .bad)
  | .minus, c => if c = '-' then ([], .lineComment) else after (.sym '-') c
  | .lineComment, c => if c = '\n' || c = '\r' then ([], .between) else ([], .lineComment)
  | .slash, c => if c = '*' then ([], .comment 0 ' ') else after (.sym '/') c
  | .comment n last, c =>
    if last = '*' && c = '/' then
      match n with
      | 0 => ([], .between)
      | n + 1 => ([], .comment n ' ')
    else if last = '/' && c = '*' then ([], .comment (n + 1) ' ')
    else ([], .comment n c)
  | .bad, _ => ([], .bad)

/-- The text ends. -/
def finish : Mode → Option (List Token)
  | .between | .lineComment => some []
  | .ident w => some [.ident w]
  | .number p w => if p.ends then some [.number w] else none
  | .quote _ v => some [.str v]
  | .minus => some [.sym '-']
  | .slash => some [.sym '/']
  | .literal .. | .backslash _ | .comment .. | .bad => none

/-- The tokens of a text. -/
def lex (m : Mode) : Text → Option (List Token)
  | [] => finish m
  | c :: cs => (lex (next m c).2 cs).map ((next m c).1 ++ ·)

/-! ## Numbers that were read are numbers -/

/-- The number that is being read begins as one. -/
def Mode.Reading : Mode → Prop
  | .number p w => ∃ c v, w = c :: v ∧ c.isDigit ∧ v.foldlM Phase.next .whole = some p
  | _ => True

theorem start_reading (c : Char) : (start c).2.Reading ∧ ∀ w, .number w ∉ (start c).1 := by
  rw [start]
  split_ifs with hspace hident hdigit
  · exact ⟨trivial, fun _ ↦ List.not_mem_nil⟩
  · exact ⟨trivial, fun _ ↦ List.not_mem_nil⟩
  · exact ⟨⟨c, [], rfl, hdigit, rfl⟩, fun _ ↦ List.not_mem_nil⟩
  · exact ⟨trivial, fun _ ↦ List.not_mem_nil⟩
  · exact ⟨trivial, fun _ ↦ List.not_mem_nil⟩
  · exact ⟨trivial, fun _ ↦ List.not_mem_nil⟩
  · exact ⟨trivial, fun w hw ↦ Token.noConfusion (List.mem_singleton.mp hw)⟩

theorem after_reading {t : Token} (ht : ∀ w, t ≠ .number w) (c : Char) :
    (after t c).2.Reading ∧ ∀ w, .number w ∈ (after t c).1 → isNumber w := by
  refine ⟨(start_reading c).1, fun w hw ↦ ?_⟩
  rcases List.mem_cons.mp hw with h | h
  · exact absurd h.symm (ht w)
  · exact absurd h ((start_reading c).2 w)

theorem next_reading {m : Mode} (hm : m.Reading) (c : Char) :
    (next m c).2.Reading ∧ ∀ w, .number w ∈ (next m c).1 → isNumber w := by
  have hnil : ∀ w, .number w ∈ ([] : List Token) → isNumber w := fun _ h ↦ absurd h List.not_mem_nil
  cases m with
  | between =>
      exact ⟨(start_reading c).1, fun w hw ↦ absurd hw ((start_reading c).2 w)⟩
  | ident w =>
      rw [next]
      split_ifs
      · exact ⟨trivial, hnil⟩
      · exact ⟨trivial, hnil⟩
      · exact after_reading (by intro _ h; cases h) c
  | number p w =>
      obtain ⟨d, v, rfl, hd, hv⟩ := hm
      rw [next]
      cases hp : p.next c with
      | some p' =>
          refine ⟨⟨d, v ++ [c], rfl, hd, ?_⟩, hnil⟩
          rw [List.foldlM_append, hv]
          exact (bind_pure _).trans hp
      | none =>
          dsimp only
          split_ifs with hends
          · refine ⟨(start_reading c).1, fun w hw ↦ ?_⟩
            rcases List.mem_cons.mp hw with h | h
            · obtain rfl := Token.number.inj h
              have hends := ((Bool.and_eq_true _ _).mp hends).1
              rw [isNumber, hd, hv]
              exact hends
            · exact absurd h ((start_reading c).2 w)
          · exact ⟨trivial, hnil⟩
  | literal e v =>
      rw [next]
      split_ifs <;> exact ⟨trivial, hnil⟩
  | quote e v =>
      rw [next]
      split_ifs
      · exact ⟨trivial, hnil⟩
      · exact after_reading (by intro _ h; cases h) c
  | backslash v =>
      rw [next]
      cases unescape c <;> exact ⟨trivial, hnil⟩
  | minus =>
      rw [next]
      split_ifs
      · exact ⟨trivial, hnil⟩
      · exact after_reading (by intro _ h; cases h) c
  | lineComment =>
      rw [next]
      split_ifs <;> exact ⟨trivial, hnil⟩
  | slash =>
      rw [next]
      split_ifs
      · exact ⟨trivial, hnil⟩
      · exact after_reading (by intro _ h; cases h) c
  | comment n last =>
      rw [next.eq_def]
      dsimp only
      split_ifs
      · cases n <;> exact ⟨trivial, hnil⟩
      · exact ⟨trivial, hnil⟩
      · exact ⟨trivial, hnil⟩
  | bad => exact ⟨trivial, hnil⟩

/-- Every number in a text is one. -/
theorem isNumber_of_lex {m : Mode} (hm : m.Reading) {cs : Text} {ts : List Token}
    (h : lex m cs = some ts) {w : Text} (hw : .number w ∈ ts) : isNumber w := by
  induction cs generalizing m ts with
  | nil =>
      cases m with
      | number p v =>
          obtain ⟨d, u, rfl, hd, hu⟩ := hm
          have h : (if p.ends then some [Token.number (d :: u)] else none) = some ts := h
          split_ifs at h with hends
          · obtain rfl := Option.some.inj h
            obtain rfl := Token.number.inj (List.mem_singleton.mp hw)
            rw [isNumber, hd, hu]
            exact hends
      | between | ident _ | quote _ _ | minus | lineComment | slash =>
          obtain rfl := Option.some.inj h
          simp at hw
      | literal _ _ | backslash _ | comment _ _ | bad => cases h
  | cons c cs ih =>
      obtain ⟨hm', hout⟩ := next_reading hm c
      obtain ⟨ts', hts', rfl⟩ := Option.map_eq_some_iff.mp h
      rcases List.mem_append.mp hw with hw | hw
      · exact hout w hw
      · exact ih hm' hts' hw

/-! ## Reading an identifier or a number -/

theorem lex_cons {m : Mode} {c : Char} {cs : Text} :
    lex m (c :: cs) = (lex (next m c).2 cs).map ((next m c).1 ++ ·) := rfl

/-- A step that ends no token. -/
theorem lex_cons_of_nil {m m' : Mode} {c : Char} {cs : Text} (h : next m c = ([], m')) :
    lex m (c :: cs) = lex m' cs := by
  rw [lex_cons, h]
  cases lex m' cs <;> rfl

/-- A token ends, and the next character is read as the first one of a token. -/
theorem lex_cons_of_after {m : Mode} {t : Token} {c : Char} {cs : Text} (h : next m c = after t c) :
    lex m (c :: cs) = (lex .between (c :: cs)).map (t :: ·) := by
  rw [lex_cons, lex_cons, h, after, Option.map_map]
  rfl

/-- The characters that end an argument. -/
structure Ends (c : Char) : Prop where
  cont : isIdentCont c = false
  quote : c ≠ '\''
  next : ∀ p : Phase, p.next c = none
  start : Sql.start c = ([.sym c], .between)

theorem ends_comma : Ends ',' := by
  refine ⟨by decide, by decide, fun p ↦ ?_, by decide⟩
  cases p <;> decide

theorem ends_close : Ends ')' := by
  refine ⟨by decide, by decide, fun p ↦ ?_, by decide⟩
  cases p <;> decide

theorem ends_open : Ends '(' := by
  refine ⟨by decide, by decide, fun p ↦ ?_, by decide⟩
  cases p <;> decide

section Ends

variable {c : Char} {s : Text}

theorem Ends.identStart (h : Ends c) : isIdentStart c = false := by
  have hcont := h.cont
  rw [isIdentCont] at hcont
  exact (Bool.or_eq_false_iff.mp (Bool.or_eq_false_iff.mp hcont).1).1

theorem Ends.lex (h : Ends c) :
    Sql.lex .between (c :: s) = (Sql.lex .between s).map (.sym c :: ·) := by
  rw [lex_cons, Sql.next, h.start]
  rfl

theorem lex_ident_rest (hcont : isIdentCont c = false) (hquote : c ≠ '\'') {w v : Text}
    (hv : v.all isIdentCont) :
    lex (.ident w) (v ++ c :: s) = (lex .between (c :: s)).map (.ident (w ++ v) :: ·) := by
  induction v generalizing w with
  | nil =>
      have hquote : (decide (c = '\'') && (decide (w = ['E']) || decide (w = ['e']))) = false := by
        rw [decide_eq_false hquote, Bool.false_and]
      have hnext : next (.ident w) c = after (.ident w) c := by
        rw [next, hcont, if_neg Bool.false_ne_true, hquote, if_neg Bool.false_ne_true]
      rw [List.nil_append, List.append_nil, lex_cons_of_after hnext]
  | cons d v ih =>
      obtain ⟨hd, hv⟩ := (Bool.and_eq_true _ _).mp hv
      have hnext : next (.ident w) d = ([], .ident (w ++ [d])) := by rw [next, if_pos hd]
      rw [List.cons_append, lex_cons_of_nil hnext, ih hv, List.append_assoc]
      rfl

/-- An identifier is read. -/
theorem lex_ident (hcont : isIdentCont c = false) (hquote : c ≠ '\'') {w : Text} (hw : isIdent w) :
    lex .between (w ++ c :: s) = (lex .between (c :: s)).map (.ident w :: ·) := by
  cases w with
  | nil => cases hw
  | cons d v =>
      obtain ⟨hd, hv⟩ := (Bool.and_eq_true _ _).mp hw
      have hspace : isSpace d = false := by
        by_contra hspace
        rw [Bool.not_eq_false, isSpace] at hspace
        simp only [Bool.or_eq_true, decide_eq_true_eq] at hspace
        rcases hspace with (((rfl | rfl) | rfl) | rfl) | rfl <;> exact absurd hd (by decide)
      have hnext : next .between d = ([], .ident [d]) := by
        rw [next, Sql.start, hspace, if_neg Bool.false_ne_true, if_pos hd]
      rw [List.cons_append, lex_cons_of_nil hnext, lex_ident_rest hcont hquote hv]
      rfl

theorem lex_number_rest (h : Ends c) {p p' : Phase} {w v : Text}
    (hv : v.foldlM Phase.next p = some p') (hends : p'.ends) :
    lex (.number p w) (v ++ c :: s) =
      (lex .between s).map ([.number (w ++ v), .sym c] ++ ·) := by
  induction v generalizing p w with
  | nil =>
      obtain rfl := Option.some.inj hv
      have hnext : next (.number p w) c = after (.number w) c := by
        rw [next, h.next, hends, h.identStart]
        rfl
      rw [List.nil_append, List.append_nil, lex_cons_of_after hnext, h.lex, Option.map_map]
      rfl
  | cons d v ih =>
      obtain ⟨q, hq, hv⟩ := Option.bind_eq_some_iff.mp hv
      have hnext : next (.number p w) d = ([], .number q (w ++ [d])) := by rw [next, hq]
      rw [List.cons_append, lex_cons_of_nil hnext, ih hv, List.append_assoc]
      rfl

theorem start_digit {d : Char} (hd : d.isDigit) : Sql.start d = ([], .number .whole [d]) := by
  have hval : 48 ≤ d.toNat ∧ d.toNat ≤ 57 := by
    simpa [Char.isDigit, UInt32.le_iff_toNat_le] using hd
  have hspace : isSpace d = false := by
    by_contra hspace
    rw [Bool.not_eq_false, isSpace] at hspace
    simp only [Bool.or_eq_true, decide_eq_true_eq] at hspace
    rcases hspace with (((rfl | rfl) | rfl) | rfl) | rfl <;> exact absurd hd (by decide)
  have hident : isIdentStart d = false := by
    by_contra hident
    have halpha : d.isAlpha =
        (decide (d.val ≥ 'A'.val ∧ d.val ≤ 'Z'.val) || (d.val ≥ 'a'.val && d.val ≤ 'z'.val)) := rfl
    rw [Bool.not_eq_false, isIdentStart, halpha] at hident
    simp only [Bool.or_eq_true, decide_eq_true_eq, Bool.and_eq_true, UInt32.le_iff_toNat_le,
      Char.lt_def, UInt32.lt_iff_toNat_lt] at hident
    rcases hident with (hident | rfl) | hident
    · simp at hident
      omega
    · exact absurd hd (by decide)
    · simp at hident
      omega
  rw [Sql.start, hspace, hident, if_neg Bool.false_ne_true, if_neg Bool.false_ne_true, if_pos hd]

/-- A number is read. -/
theorem lex_number (h : Ends c) {w : Text} (hw : isNumber w) :
    lex .between (w ++ c :: s) = (lex .between s).map ([.number w, .sym c] ++ ·) := by
  cases w with
  | nil => cases hw
  | cons d v =>
      obtain ⟨hd, hv⟩ := (Bool.and_eq_true _ _).mp hw
      obtain ⟨p, hp, hends⟩ := (Option.any_eq_true _ _).mp hv
      have hnext : next .between d = ([], .number .whole [d]) := start_digit hd
      rw [List.cons_append, lex_cons_of_nil hnext, lex_number_rest h hp hends]
      rfl

end Ends

/-! ## Literals -/

/-- A text between quotes. -/
def quoted (v : Text) : Text := '\'' :: (v ++ ['\''])

/-- Quotes and backslashes are written twice. -/
def escaped : Text → Text
  | [] => []
  | c :: v => if c = '\'' || c = '\\' then c :: c :: escaped v else c :: escaped v

/-- A literal with escapes. -/
def literal (v : Text) : Text := ' ' :: 'E' :: quoted (escaped v)

section Literal

variable {c : Char} {s : Text}

theorem next_literal {e : Bool} {u : Text} {d : Char} (hd : d ≠ '\'') (he : e = true → d ≠ '\\') :
    next (.literal e u) d = ([], .literal e (u ++ [d])) := by
  have hescape : (e && decide (d = '\\')) = false := by
    cases e with
    | false => rfl
    | true => exact decide_eq_false (he rfl)
  rw [next, if_neg hd, hescape, if_neg Bool.false_ne_true]

theorem next_literal_quote {e : Bool} {u : Text} :
    next (.literal e u) '\'' = ([], .quote e u) := rfl

theorem next_quote {e : Bool} {u : Text} (hc : c ≠ '\'') :
    next (.quote e u) c = after (.str u) c := by
  rw [next, if_neg hc]

/-- The end of a literal. -/
theorem lex_quote (h : Ends c) {e : Bool} {u : Text} :
    lex (.literal e u) ('\'' :: c :: s) = (lex .between s).map ([.str u, .sym c] ++ ·) := by
  rw [lex_cons_of_nil next_literal_quote, lex_cons_of_after (next_quote h.quote), h.lex,
    Option.map_map]
  rfl

theorem lex_escaped (h : Ends c) {u v : Text} :
    lex (.literal true u) (escaped v ++ '\'' :: c :: s) =
      (lex .between s).map ([.str (u ++ v), .sym c] ++ ·) := by
  induction v generalizing u with
  | nil =>
      rw [List.append_nil]
      exact lex_quote h
  | cons d v ih =>
      have hu : u ++ d :: v = (u ++ [d]) ++ v := by rw [List.append_assoc]; rfl
      rw [hu, escaped]
      split_ifs with hd
      · simp only [Bool.or_eq_true, decide_eq_true_eq] at hd
        rcases hd with rfl | rfl
        · have hsecond : next (.quote true u) '\'' = ([], .literal true (u ++ ['\''])) := rfl
          rw [List.cons_append, List.cons_append, lex_cons_of_nil next_literal_quote,
            lex_cons_of_nil hsecond]
          exact ih
        · have hfirst : next (.literal true u) '\\' = ([], .backslash u) := rfl
          have hsecond : next (.backslash u) '\\' = ([], .literal true (u ++ ['\\'])) := rfl
          rw [List.cons_append, List.cons_append, lex_cons_of_nil hfirst, lex_cons_of_nil hsecond]
          exact ih
      · simp only [Bool.or_eq_true, decide_eq_true_eq, not_or] at hd
        rw [List.cons_append, lex_cons_of_nil (next_literal hd.1 fun _ ↦ hd.2)]
        exact ih

/-- An escaped literal denotes its text. -/
theorem lex_literal (h : Ends c) (v : Text) :
    lex .between (literal v ++ c :: s) = (lex .between s).map ([.str v, .sym c] ++ ·) := by
  have hstart : lex .between (literal v ++ c :: s) =
      lex (.literal true []) (escaped v ++ '\'' :: c :: s) := by
    rw [literal, quoted, List.cons_append, List.cons_append, List.cons_append, List.append_assoc]
    have hspace : next .between ' ' = ([], .between) := rfl
    have hletter : next .between 'E' = ([], .ident ['E']) := rfl
    have hquote : next (.ident ['E']) '\'' = ([], .literal true []) := rfl
    rw [lex_cons_of_nil hspace, lex_cons_of_nil hletter, lex_cons_of_nil hquote]
    rfl
  rw [hstart, lex_escaped h, List.nil_append]

theorem lex_quoted_rest (h : Ends c) {u v : Text} (hv : '\'' ∉ v) :
    lex (.literal false u) (v ++ '\'' :: c :: s) =
      (lex .between s).map ([.str (u ++ v), .sym c] ++ ·) := by
  induction v generalizing u with
  | nil =>
      rw [List.append_nil]
      exact lex_quote h
  | cons d v ih =>
      obtain ⟨hd, hv⟩ := not_or.mp (mt List.mem_cons.mpr hv)
      have hu : u ++ d :: v = (u ++ [d]) ++ v := by rw [List.append_assoc]; rfl
      rw [hu, List.cons_append, lex_cons_of_nil (next_literal (Ne.symm hd)
        fun he ↦ absurd he Bool.false_ne_true)]
      exact ih hv

/-- A text without quotes may be put between quotes. -/
theorem lex_quoted (h : Ends c) {v : Text} (hv : '\'' ∉ v) :
    lex .between (quoted v ++ c :: s) = (lex .between s).map ([.str v, .sym c] ++ ·) := by
  have hstart : lex .between (quoted v ++ c :: s) =
      lex (.literal false []) (v ++ '\'' :: c :: s) := by
    rw [quoted, List.cons_append, List.append_assoc]
    have hquote : next .between '\'' = ([], .literal false []) := rfl
    rw [lex_cons_of_nil hquote]
    rfl
  rw [hstart, lex_quoted_rest h hv, List.nil_append]

/-- What has been read of the literal that is being read begins with `u`. -/
def Mode.Within (u : Text) : Mode → Prop
  | .literal _ v | .quote _ v | .backslash v => u <+: v
  | _ => False

theorem lex_bad (cs : Text) : lex .bad cs = none := by
  induction cs with
  | nil => rfl
  | cons c cs ih =>
      have hnext : next .bad c = ([], .bad) := rfl
      rw [lex_cons_of_nil hnext, ih]

/-- A literal that is being read is the next token. -/
theorem str_of_lex {u : Text} {m : Mode} (hm : m.Within u) {cs : Text} {ts : List Token}
    (hts : lex m cs = some ts) : ∃ v rest, ts = .str (u ++ v) :: rest := by
  have hdone : ∀ {v : Text} {rest : List Token}, u <+: v →
      ∃ v' rest', (.str v :: rest : List Token) = .str (u ++ v') :: rest' := by
    rintro _ rest ⟨v, rfl⟩
    exact ⟨v, rest, rfl⟩
  induction cs generalizing m ts with
  | nil =>
      cases m with
      | quote e v =>
          obtain rfl := Option.some.inj hts
          exact hdone hm
      | literal _ _ | backslash _ => cases hts
      | _ => exact hm.elim
  | cons c cs ih =>
      cases m with
      | literal e v =>
          by_cases hc : c = '\''
          · subst hc
            exact ih (m := .quote e v) hm ((lex_cons_of_nil next_literal_quote).symm.trans hts)
          · by_cases he : (e && decide (c = '\\')) = true
            · have hnext : next (.literal e v) c = ([], .backslash v) := by
                rw [next, if_neg hc, if_pos he]
              exact ih (m := .backslash v) hm ((lex_cons_of_nil hnext).symm.trans hts)
            · have hnext : next (.literal e v) c = ([], .literal e (v ++ [c])) := by
                rw [next, if_neg hc, if_neg he]
              exact ih (m := .literal e (v ++ [c])) (hm.trans (List.prefix_append v [c]))
                ((lex_cons_of_nil hnext).symm.trans hts)
      | quote e v =>
          by_cases hc : c = '\''
          · have hnext : next (.quote e v) c = ([], .literal e (v ++ ['\''])) := by
              rw [next, if_pos hc]
            exact ih (m := .literal e (v ++ ['\''])) (hm.trans (List.prefix_append v _))
              ((lex_cons_of_nil hnext).symm.trans hts)
          · rw [lex_cons_of_after (next_quote hc)] at hts
            obtain ⟨ts', -, rfl⟩ := Option.map_eq_some_iff.mp hts
            exact hdone hm
      | backslash v =>
          cases hd : unescape c with
          | none =>
              have hnext : next (.backslash v) c = ([], .bad) := by rw [next, hd]
              rw [lex_cons_of_nil hnext, lex_bad] at hts
              cases hts
          | some d =>
              have hnext : next (.backslash v) c = ([], .literal true (v ++ [d])) := by
                rw [next, hd]
              exact ih (m := .literal true (v ++ [d])) (hm.trans (List.prefix_append v _))
                ((lex_cons_of_nil hnext).symm.trans hts)
      | _ => exact hm.elim

/-- A text that is read back between quotes contains none: every quote in it ends the literal,
or two of them are read as one, and `n` are missing from then on. -/
theorem no_quote_of_lex_rest (h : Ends c) {n : Nat} {u w : Text} {ts : List Token}
    (hts : lex (.literal false u) (w ++ '\'' :: c :: s) =
      some (.str (u ++ (List.replicate n '\'' ++ w)) :: ts)) : n = 0 ∧ '\'' ∉ w := by
  induction hlen : w.length using Nat.strongRecOn generalizing n u w with
  | ind k ih =>
      cases w with
      | nil =>
          rw [List.nil_append, lex_quote h] at hts
          obtain ⟨ts', -, heq⟩ := Option.map_eq_some_iff.mp hts
          have hlength := congrArg List.length (Token.str.inj (List.cons.inj heq).1)
          simp only [List.append_nil, List.length_append, List.length_replicate] at hlength
          exact ⟨by omega, List.not_mem_nil⟩
      | cons d w =>
          rw [List.length_cons] at hlen
          by_cases hd : d = '\''
          · subst hd
            rw [List.cons_append, lex_cons_of_nil next_literal_quote] at hts
            have hsecond : next (.quote false u) '\'' = ([], .literal false (u ++ ['\''])) := rfl
            cases w with
            | nil =>
                -- the quote that should end the literal is read as the second of two
                rw [List.nil_append, lex_cons_of_nil hsecond,
                  lex_cons_of_nil (next_literal h.quote fun he ↦
                    absurd he Bool.false_ne_true)] at hts
                have hwithin : (Mode.literal false (u ++ ['\''] ++ [c])).Within
                  (u ++ ['\''] ++ [c]) :=
                  List.prefix_rfl
                obtain ⟨v, rest, heq⟩ := str_of_lex hwithin hts
                have hv := Token.str.inj (List.cons.inj heq).1
                rw [List.append_assoc, List.append_assoc, List.append_cancel_left_eq,
                  ← List.replicate_succ'] at hv
                cases n with
                | zero => cases hv
                | succ n => exact absurd (List.cons.inj (List.cons.inj hv).2).1.symm h.quote
            | cons d w =>
                rw [List.length_cons] at hlen
                by_cases hd : d = '\''
                · subst hd
                  have hw : List.replicate n '\'' ++ '\'' :: '\'' :: w =
                      '\'' :: (List.replicate (n + 1) '\'' ++ w) := by
                    rw [← List.cons_append, ← List.replicate_succ, List.replicate_succ',
                      List.replicate_succ', List.append_assoc, List.append_assoc]
                    rfl
                  have hu : u ++ (List.replicate n '\'' ++ '\'' :: '\'' :: w) =
                      (u ++ ['\'']) ++ (List.replicate (n + 1) '\'' ++ w) := by
                    rw [hw, List.append_assoc]
                    rfl
                  rw [List.cons_append, lex_cons_of_nil hsecond, hu] at hts
                  exact absurd (ih _ (by omega) hts rfl).1 (Nat.succ_ne_zero n)
                · rw [List.cons_append, lex_cons_of_after (next_quote hd)] at hts
                  obtain ⟨ts', -, heq⟩ := Option.map_eq_some_iff.mp hts
                  have hlength := congrArg List.length (Token.str.inj (List.cons.inj heq).1)
                  simp only [List.length_append, List.length_replicate, List.length_cons] at hlength
                  omega
          · rw [List.cons_append, lex_cons_of_nil
              (next_literal hd fun he ↦ absurd he Bool.false_ne_true)] at hts
            cases n with
            | zero =>
                have hu : u ++ (List.replicate 0 '\'' ++ d :: w) =
                    (u ++ [d]) ++ (List.replicate 0 '\'' ++ w) := by
                  rw [List.append_assoc]
                  rfl
                rw [hu] at hts
                obtain ⟨-, hw⟩ := ih _ (by omega) hts rfl
                exact ⟨rfl, mt List.mem_cons.mp (not_or.mpr ⟨Ne.symm hd, hw⟩)⟩
            | succ n =>
                have hwithin : (Mode.literal false (u ++ [d])).Within (u ++ [d]) := List.prefix_rfl
                obtain ⟨v, rest, heq⟩ := str_of_lex hwithin hts
                have hv := Token.str.inj (List.cons.inj heq).1
                rw [List.append_assoc, List.append_cancel_left_eq] at hv
                exact absurd (List.cons.inj hv).1.symm hd

end Literal

/-! ## Arguments -/

/-- An argument of a call, and how it is written. -/
inductive Arg where
  /-- Without quotes. -/
  | number (v : Text)
  /-- Between quotes, as it is. -/
  | quoted (v : Text)
  /-- As an escaped literal. -/
  | literal (v : Text)
deriving DecidableEq, Repr

def null : Text := ['N', 'U', 'L', 'L']

namespace Arg

def text : Arg → Text
  | number v => v
  | quoted v => Sql.quoted v
  | literal v => Sql.literal v

/-- What the argument is meant to be read as. -/
def tokens : Arg → List Token
  | number v =>
    if v = null then [.ident v] else
      match v with
      | '-' :: w => [.sym '-', .number w]
      | v => [.number v]
  | quoted v | literal v => [.str v]

/-- What the argument denotes, if it is a literal. -/
def string? : Arg → Option Text
  | number _ => none
  | quoted v | literal v => some v

/-- The argument is a value of its kind. -/
def Safe : Arg → Prop
  | number v => v = null ∨ isNumber v ∨ ∃ w ∈ v.tail?, v.head? = some '-' ∧ isNumber w
  | quoted v => '\'' ∉ v
  | literal _ => True

instance : (a : Arg) → Decidable a.Safe
  | number v =>
    inferInstanceAs (Decidable (v = null ∨ isNumber v ∨ ∃ w ∈ v.tail?, v.head? = some '-' ∧
      isNumber w))
  | quoted v => inferInstanceAs (Decidable ('\'' ∉ v))
  | literal _ => .isTrue trivial

@[simp]
theorem safe_literal (v : Text) : (literal v).Safe ↔ True := Iff.rfl

end Arg

theorem tokens_number {v : Text} (hnull : v ≠ null) (hminus : v.head? ≠ some '-') :
    (Arg.number v).tokens = [.number v] := by
  rw [Arg.tokens, if_neg hnull]
  rintro w rfl
  exact hminus rfl

theorem tokens_minus (w : Text) : (Arg.number ('-' :: w)).tokens = [.sym '-', .number w] := rfl

theorem isNumber_head {w : Text} (hw : isNumber w) : ∃ d v, w = d :: v ∧ d.isDigit := by
  cases w with
  | nil => cases hw
  | cons d v => exact ⟨d, v, rfl, ((Bool.and_eq_true _ _).mp hw).1⟩

section Args

variable {c : Char} {s : Text} {ts : List Token}

/-- A value is read back. -/
theorem Arg.Safe.lex {a : Arg} (ha : a.Safe) (h : Ends c) :
    Sql.lex .between (a.text ++ c :: s) =
      (Sql.lex .between s).map (a.tokens ++ .sym c :: ·) := by
  cases a with
  | number v =>
      rcases ha with rfl | hv | ⟨w, hw, hminus, hnumber⟩
      · rw [Arg.text, lex_ident h.cont h.quote rfl, h.lex, Option.map_map]
        rfl
      · obtain ⟨d, u, rfl, hd⟩ := isNumber_head hv
        have hnull : d :: u ≠ null := by
          intro heq
          rw [(List.cons.inj heq).1] at hd
          exact absurd hd (by decide)
        have hhead : (d :: u).head? ≠ some '-' := by
          intro heq
          rw [Option.some.inj heq] at hd
          exact absurd hd (by decide)
        rw [tokens_number hnull hhead]
        exact lex_number h hv
      · cases v with
        | nil => cases hminus
        | cons m v =>
            obtain rfl := Option.some.inj hminus
            obtain rfl := Option.some.inj hw
            obtain ⟨d, u, rfl, hd⟩ := isNumber_head hnumber
            have hne : d ≠ '-' := by
              rintro rfl
              exact absurd hd (by decide)
            have hsym : next .between '-' = ([], .minus) := rfl
            have hafter : next .minus d = after (.sym '-') d := by rw [next, if_neg hne]
            rw [tokens_minus, Arg.text, List.cons_append, lex_cons_of_nil hsym,
              List.cons_append, lex_cons_of_after hafter]
            refine (congrArg (Option.map _) (lex_number h hnumber)).trans ?_
            rw [Option.map_map]
            rfl
  | quoted v => exact lex_quoted h ha
  | literal v => exact lex_literal h v

/-- Only a value is read back. -/
theorem Arg.safe_of_lex {a : Arg} (h : Ends c)
    (hlex : Sql.lex .between (a.text ++ c :: s) = some (a.tokens ++ ts)) : a.Safe := by
  cases a with
  | number v =>
      by_cases hnull : v = null
      · exact .inl hnull
      · by_cases hminus : v.head? = some '-'
        · cases v with
          | nil => cases hminus
          | cons m v =>
              obtain rfl := Option.some.inj hminus
              refine .inr (.inr ⟨v, rfl, rfl, ?_⟩)
              refine isNumber_of_lex (m := .between) trivial hlex ?_
              rw [tokens_minus]
              exact List.mem_cons_of_mem _ List.mem_cons_self
        · refine .inr (.inl (isNumber_of_lex (m := .between) trivial hlex ?_))
          rw [tokens_number hnull hminus]
          exact List.mem_cons_self
  | quoted v =>
      have hquote : next .between '\'' = ([], .literal false []) := rfl
      rw [Arg.text, Sql.quoted, List.cons_append, List.append_assoc, lex_cons_of_nil hquote] at hlex
      exact (no_quote_of_lex_rest h (n := 0) hlex).2
  | literal v => trivial

/-- An argument and what follows it. -/
theorem Arg.lex_iff {a : Arg} (h : Ends c) :
    Sql.lex .between (a.text ++ c :: s) = some (a.tokens ++ .sym c :: ts) ↔
      a.Safe ∧ Sql.lex .between s = some ts := by
  constructor
  · intro hlex
    have ha := Arg.safe_of_lex h hlex
    rw [ha.lex h] at hlex
    obtain ⟨ts', hts', heq⟩ := Option.map_eq_some_iff.mp hlex
    rw [List.append_cancel_left_eq, List.cons.injEq] at heq
    exact ⟨ha, heq.2 ▸ hts'⟩
  · rintro ⟨ha, hs⟩
    rw [ha.lex h, hs]
    rfl

/-- The arguments, separated by commas. -/
def argsText : List Arg → Text
  | [] => []
  | [a] => a.text
  | a :: b :: l => a.text ++ ',' :: argsText (b :: l)

def argsTokens : List Arg → List Token
  | [] => []
  | [a] => a.tokens
  | a :: b :: l => a.tokens ++ .sym ',' :: argsTokens (b :: l)

theorem lex_args_iff (args : List Arg) :
    lex .between (argsText args ++ ')' :: s) = some (argsTokens args ++ .sym ')' :: ts) ↔
      (∀ a ∈ args, a.Safe) ∧ lex .between s = some ts := by
  induction args using argsText.induct with
  | case1 =>
      rw [argsText, argsTokens, List.nil_append, List.nil_append, ends_close.lex]
      constructor
      · intro h
        obtain ⟨ts', hts', heq⟩ := Option.map_eq_some_iff.mp h
        exact ⟨fun a ha ↦ absurd ha List.not_mem_nil, (List.cons.inj heq).2 ▸ hts'⟩
      · rintro ⟨-, hs⟩
        rw [hs]
        rfl
  | case2 a =>
      rw [argsText, argsTokens, Arg.lex_iff ends_close, List.forall_mem_singleton]
  | case3 a b l ih =>
      rw [argsText, argsTokens, List.append_assoc, List.append_assoc, List.cons_append,
        List.cons_append, Arg.lex_iff ends_comma, ih, List.forall_mem_cons (a := a), and_assoc]

end Args

/-! ## Calls -/

/-- A call of a function, or the rows that it returns. -/
structure Call where
  /-- `SELECT * FROM` the call. -/
  rows : Bool := false
  fn : Text
  args : List Arg
  isIdent_fn : isIdent fn

namespace Call

def select : Text := ['S', 'E', 'L', 'E', 'C', 'T']
def «from» : Text := ['F', 'R', 'O', 'M']

/-- What comes before the name of the function. -/
def head (q : Call) : Text :=
  if q.rows then select ++ [' ', '*', ' '] ++ «from» ++ [' '] else select ++ [' ']

def text (q : Call) : Text := q.head ++ (q.fn ++ '(' :: (argsText q.args ++ [')', ';']))

/-- What the text is meant to be read as. -/
def tokens (q : Call) : List Token :=
  (if q.rows then [.ident select, .sym '*', .ident «from»] else [.ident select]) ++
    [.ident q.fn, .sym '('] ++ argsTokens q.args ++ [.sym ')', .sym ';']

/-- What the arguments that are written as literals denote. -/
def strings (q : Call) : List Text := q.tokens.filterMap Token.string?

theorem filterMap_tokens (a : Arg) : a.tokens.filterMap Token.string? = a.string?.toList := by
  cases a with
  | number v =>
      rw [Arg.tokens.eq_def]
      dsimp only
      split_ifs
      · rfl
      · split <;> rfl
  | quoted v | literal v => rfl

/-- The literals of a call are its arguments but the numbers. -/
theorem strings_eq (q : Call) : q.strings = q.args.filterMap Arg.string? := by
  have hargs : ∀ args, (argsTokens args).filterMap Token.string? = args.filterMap Arg.string? := by
    intro args
    induction args using argsText.induct with
    | case1 => rfl
    | case2 a =>
        rw [argsTokens, filterMap_tokens]
        cases ha : a.string? with
        | none => rw [List.filterMap_cons_none ha]; rfl
        | some v => rw [List.filterMap_cons_some ha]; rfl
    | case3 a b l ih =>
        rw [argsTokens, List.filterMap_append, filterMap_tokens, List.filterMap_cons_none rfl, ih]
        cases ha : a.string? with
        | none => rw [List.filterMap_cons_none ha]; rfl
        | some v => rw [List.filterMap_cons_some ha]; rfl
  rw [strings, tokens, List.filterMap_append, List.filterMap_append, List.filterMap_append, hargs]
  split_ifs
  · exact List.append_nil _
  · exact List.append_nil _

theorem lex_space (s : Text) : lex .between (' ' :: s) = lex .between s := by
  have hspace : next .between ' ' = ([], .between) := rfl
  exact lex_cons_of_nil hspace

theorem lex_word {w : Text} (hw : isIdent w) (s : Text) :
    lex .between (w ++ ' ' :: s) = (lex .between s).map (.ident w :: ·) := by
  rw [lex_ident (by decide) (by decide) hw, lex_space]

theorem lex_head (q : Call) (s : Text) :
    lex .between (q.head ++ s) = (lex .between s).map
      ((if q.rows then [.ident select, .sym '*', .ident «from»] else [.ident select]) ++ ·) := by
  rw [head]
  split_ifs
  · have hstar : next .between '*' = ([.sym '*'], .between) := rfl
    rw [List.append_assoc, List.append_assoc, List.append_assoc]
    refine (lex_word rfl _).trans ?_
    change ((lex .between ('*' :: ' ' :: («from» ++ ' ' :: s))).map _) = _
    rw [lex_cons, hstar, lex_space, lex_word rfl, Option.map_map, Option.map_map]
    rfl
  · rw [List.append_assoc]
    exact lex_word rfl s

/-- **The text of a call is read back as the call exactly if its arguments are values of their
kinds.** -/
theorem lex_text_iff (q : Call) : lex .between q.text = some q.tokens ↔ ∀ a ∈ q.args, a.Safe := by
  have hend : lex .between [';'] = some [.sym ';'] := rfl
  have hargs : lex .between (argsText q.args ++ [')', ';']) =
      some (argsTokens q.args ++ [.sym ')', .sym ';']) ↔
        (∀ a ∈ q.args, a.Safe) ∧ lex .between [';'] = some [.sym ';'] := lex_args_iff q.args
  rw [text, lex_head, lex_ident (by decide) (by decide) q.isIdent_fn, ends_open.lex, tokens]
  constructor
  · intro h
    obtain ⟨ts₁, hfn, heq⟩ := Option.map_eq_some_iff.mp h
    obtain ⟨ts₂, hopen, rfl⟩ := Option.map_eq_some_iff.mp hfn
    obtain ⟨ts₃, hrest, rfl⟩ := Option.map_eq_some_iff.mp hopen
    rw [List.append_assoc, List.append_assoc, List.append_cancel_left_eq] at heq
    have hts : ts₃ = argsTokens q.args ++ [.sym ')', .sym ';'] :=
      (List.cons.inj (List.cons.inj heq).2).2
    exact (hargs.mp (hts ▸ hrest)).1
  · intro h
    rw [hargs.mpr ⟨h, hend⟩, List.append_assoc, List.append_assoc]
    rfl

end Call

end Sql
