import Chronicle.Logic.JsonText

/-!
# Writers of JSON texts

A writer is told of a document by calls: its values, and where its arrays and objects begin and
end.  What is asked of a writer is stated over whole documents, parts of which may be texts that
were written elsewhere.  A writer that keeps a stack of levels does what is asked.
-/

namespace JsonText

/-! ## Documents and their calls -/

/-- What a writer is told. -/
inductive Call where
  | null
  | string (bytes : List UInt8)
  | raw (text : List UInt8)
  | key (bytes : List UInt8)
  | startArray
  | endArray
  | startObject
  | endObject
deriving DecidableEq

/-- A document. -/
inductive Doc where
  | null
  | string (bytes : List UInt8)
  | raw (text : List UInt8)
  | array (elements : List Doc)
  | object (members : List (List UInt8 × Doc))

namespace Doc

mutual

/-- The calls for a document: each key is followed by those for one value. -/
def calls : Doc → List Call
  | null => [.null]
  | string bytes => [.string bytes]
  | raw text => [.raw text]
  | array ds => .startArray :: (elementCalls ds ++ [.endArray])
  | object ms => .startObject :: (memberCalls ms ++ [.endObject])

def elementCalls : List Doc → List Call
  | [] => []
  | d :: ds => d.calls ++ elementCalls ds

def memberCalls : List (List UInt8 × Doc) → List Call
  | [] => []
  | (k, d) :: ms => .key k :: (d.calls ++ memberCalls ms)

end

mutual

/-- The texts that were written elsewhere, in order. -/
def raws : Doc → List (List UInt8)
  | null | string _ => []
  | raw text => [text]
  | array ds => elementRaws ds
  | object ms => memberRaws ms

def elementRaws : List Doc → List (List UInt8)
  | [] => []
  | d :: ds => d.raws ++ elementRaws ds

def memberRaws : List (List UInt8 × Doc) → List (List UInt8)
  | [] => []
  | (_, d) :: ms => d.raws ++ memberRaws ms

end

mutual

/-- What a document denotes. -/
def tree : Doc → Tree
  | null => .null
  | string bytes => .string bytes
  | raw text => (parse text).getD .null
  | array ds => .array (elementTrees ds)
  | object ms => .object (memberTrees ms)

def elementTrees : List Doc → List Tree
  | [] => []
  | d :: ds => d.tree :: elementTrees ds

def memberTrees : List (List UInt8 × Doc) → List (List UInt8 × Tree)
  | [] => []
  | (k, d) :: ms => (k, d.tree) :: memberTrees ms

end

/-- The texts from elsewhere denote something. -/
def Sound (holds : List UInt8 → Prop) (d : Doc) : Prop := ∀ s ∈ d.raws, ∃ t, Denotes holds s t

end Doc

/-- What is asked of a writer: a text that denotes the document. -/
def Writes (holds : List UInt8 → Prop) (write : List Call → List UInt8) : Prop :=
  ∀ d : Doc, d.Sound holds → Denotes holds (write d.calls) d.tree

/-! ## Strings -/

/-- The bytes that have a short escape, with the byte that is written for them. -/
def shortEscapes : List (UInt8 × UInt8) :=
  [(quote, quote), (backslash, backslash), (8, 98), (9, 116), (10, 110), (12, 102), (13, 114)]

/-- A hexadecimal digit, in upper case. -/
def upperHex (n : Nat) : UInt8 := ((ascii "0123456789ABCDEF")[n]?).getD 0

def escapeByte (b : UInt8) : List UInt8 :=
  match shortEscapes.find? (·.1 = b) with
  | some p => [backslash, p.2]
  | none =>
    if 32 ≤ b then [b]
    else [backslash, 117, 48, 48, upperHex (b.toNat / 16), upperHex (b.toNat % 16)]

def quoted (s : List UInt8) : List UInt8 := quote :: (s.flatMap escapeByte ++ [quote])

theorem control_escape : ∀ n < 32,
    hex4 48 48 (upperHex (n / 16)) (upperHex (n % 16)) = some n ∧ isSurrogate n = false ∧
      utf8 n = [UInt8.ofNat n] := by
  decide +kernel

theorem Chars.escapeByte (b : UInt8) {s v : List UInt8} (h : Chars s v) :
    Chars (escapeByte b ++ s) (b :: v) := by
  rw [JsonText.escapeByte]
  split
  case h_1 p hfind =>
      have hinverse : shortEscapes.all fun q ↦ unescape q.2 = some q.1 := by decide
      have hb : p.1 = b := by simpa using List.find?_some hfind
      have hp := of_decide_eq_true
        (List.all_eq_true.mp hinverse p (List.mem_of_find?_eq_some hfind))
      exact .escape (hb ▸ hp) h
  case h_2 hfind =>
      have hnone := List.find?_eq_none.mp hfind
      by_cases hle : 32 ≤ b
      · rw [if_pos hle]
        refine .plain ⟨hle, ?_, ?_⟩ h
        · rintro rfl
          exact hnone (quote, quote) (by decide) (by decide)
        · rintro rfl
          exact hnone (backslash, backslash) (by decide) (by decide)
      · rw [if_neg hle]
        have hlt : b.toNat < 32 := UInt8.lt_iff_toNat_lt.mp (UInt8.not_le.mp hle)
        obtain ⟨hhex, hscalar, hutf⟩ := control_escape b.toNat hlt
        have hchars := Chars.unicode hhex hscalar h
        rwa [hutf, UInt8.ofNat_toNat] at hchars

/-- A string is quoted as one that stands for its bytes. -/
theorem Chars.escape_all (s : List UInt8) : Chars (s.flatMap JsonText.escapeByte) s := by
  induction s with
  | nil => exact .nil
  | cons b s ih => exact ih.escapeByte b

/-! ## A writer with levels -/

/-- An array or an object that has begun, and how many values and keys it has. -/
structure Level where
  inArray : Bool
  valueCount : Nat

structure Writer where
  buffer : List UInt8 := []
  levels : List Level := []

/-- What is written before a value or a key. -/
def separator : List Level → List UInt8
  | [] => []
  | l :: _ =>
    if l.valueCount = 0 then []
    else if l.inArray || l.valueCount % 2 = 0 then [comma]
    else [colon]

def counted : List Level → List Level
  | [] => []
  | l :: ls => { l with valueCount := l.valueCount + 1 } :: ls

namespace Writer

/-- Write a whole value or key. -/
def value (w : Writer) (s : List UInt8) : Writer :=
  { buffer := w.buffer ++ (separator w.levels ++ s), levels := counted w.levels }

/-- Begin an array or an object. -/
def start (w : Writer) (inArray : Bool) (mark : UInt8) : Writer :=
  { buffer := w.buffer ++ (separator w.levels ++ [mark]),
    levels := ⟨inArray, 0⟩ :: counted w.levels }

def finish (w : Writer) (mark : UInt8) : Writer :=
  { buffer := w.buffer ++ [mark], levels := w.levels.tail }

def step (w : Writer) : Call → Writer
  | .null => w.value (ascii "null")
  | .string bytes | .key bytes => w.value (quoted bytes)
  | .raw text => w.value text
  | .startArray => w.start true openBracket
  | .endArray => w.finish closeBracket
  | .startObject => w.start false openBrace
  | .endObject => w.finish closeBrace

def run (w : Writer) (cs : List Call) : Writer := cs.foldl step w

theorem run_append (w : Writer) (cs cs' : List Call) :
    w.run (cs ++ cs') = (w.run cs).run cs' := List.foldl_append

theorem run_cons (w : Writer) (c : Call) (cs : List Call) :
    w.run (c :: cs) = (w.step c).run cs := rfl

end Writer

/-- The text that the writer makes of calls. -/
def writeCalls (cs : List Call) : List UInt8 := (Writer.run {} cs).buffer

namespace Doc

mutual

/-- The text of a document. -/
def text : Doc → List UInt8
  | null => ascii "null"
  | string bytes => quoted bytes
  | raw text => text
  | array ds => openBracket :: (elementsText false ds ++ [closeBracket])
  | object ms => openBrace :: (membersText false ms ++ [closeBrace])

/-- Elements, which may come after others. -/
def elementsText : Bool → List Doc → List UInt8
  | _, [] => []
  | more, d :: ds => (if more then [comma] else []) ++ (d.text ++ elementsText true ds)

def membersText : Bool → List (List UInt8 × Doc) → List UInt8
  | _, [] => []
  | more, (k, d) :: ms =>
    (if more then [comma] else []) ++ (quoted k ++ colon :: (d.text ++ membersText true ms))

end

/-! ## What the writer writes -/

mutual

theorem run_calls : (d : Doc) → (w : Writer) → w.run d.calls = w.value d.text
  | null, _ | string _, _ | raw _, _ => rfl
  | array ds, w => by
      rw [calls, Writer.run_cons, Writer.run_append, Writer.step, Writer.start, run_elements ds]
      simp only [Writer.run, List.foldl_cons, List.foldl_nil, Writer.step, Writer.finish,
        Writer.value, text, List.tail_cons, List.append_assoc, List.cons_append,
        List.nil_append, ne_eq, not_true_eq_false, decide_false]
  | object ms, w => by
      rw [calls, Writer.run_cons, Writer.run_append, Writer.step, Writer.start,
        run_members ms _ 0]
      simp only [Writer.run, List.foldl_cons, List.foldl_nil, Writer.step, Writer.finish,
        Writer.value, text, List.tail_cons, List.append_assoc, List.cons_append,
        List.nil_append, ne_eq, not_true_eq_false, decide_false]

theorem run_elements : (ds : List Doc) → (buffer : List UInt8) → (n : Nat) → (ls : List Level) →
    Writer.run ⟨buffer, ⟨true, n⟩ :: ls⟩ (elementCalls ds) =
      ⟨buffer ++ elementsText (n ≠ 0) ds, ⟨true, n + ds.length⟩ :: ls⟩
  | [], buffer, n, ls => by
      rw [elementsText, List.append_nil]
      rfl
  | d :: ds, buffer, n, ls => by
      have hseparator : separator (⟨true, n⟩ :: ls) = if decide (n ≠ 0) then [comma] else [] := by
        by_cases hn : n = 0 <;> simp [separator, hn]
      rw [elementCalls, Writer.run_append, run_calls d, Writer.value, hseparator, counted,
        run_elements ds, elementsText, List.length_cons]
      simp only [List.append_assoc, ne_eq, Nat.add_one_ne_zero, not_false_eq_true, decide_true,
        Nat.add_assoc, Nat.add_comm 1]

theorem run_members : (ms : List (List UInt8 × Doc)) → (buffer : List UInt8) → (n : Nat) →
    (ls : List Level) →
    Writer.run ⟨buffer, ⟨false, 2 * n⟩ :: ls⟩ (memberCalls ms) =
      ⟨buffer ++ membersText (n ≠ 0) ms, ⟨false, 2 * (n + ms.length)⟩ :: ls⟩
  | [], buffer, n, ls => by
      rw [membersText, List.append_nil]
      rfl
  | (k, d) :: ms, buffer, n, ls => by
      have hseparator : separator (⟨false, 2 * n⟩ :: ls) =
          if decide (n ≠ 0) then [comma] else [] := by
        cases n <;> simp [separator, Nat.mul_add]
      have hcolon : separator (⟨false, 2 * n + 1⟩ :: ls) = [colon] := by simp [separator]
      have hcount : 2 * n + 1 + 1 = 2 * (n + 1) := by omega
      rw [memberCalls, Writer.run_cons, Writer.run_append, run_calls d, Writer.step,
        Writer.value, Writer.value, hseparator, counted, hcolon, counted, hcount, run_members ms,
        membersText, List.length_cons]
      simp only [List.append_assoc, ne_eq, Nat.add_one_ne_zero, not_false_eq_true, decide_true,
        Nat.add_assoc, Nat.add_comm 1, List.cons_append, List.nil_append]

end

/-! ## What the text denotes -/

section Sound

variable {holds : List UInt8 → Prop}

mutual

theorem text_denotes : (d : Doc) → (∀ s ∈ d.raws, ∃ t, Denotes holds s t) →
    Denotes holds d.text d.tree
  | null, _ => .of_derives .null
  | string bytes, _ => .of_derives (.string (.escape_all bytes))
  | raw text, hraws => by
      obtain ⟨t, ht⟩ := hraws text List.mem_cons_self
      rw [tree, parse_eq ht]
      exact ht
  | array [], _ => .of_derives (.array (.noElements .nil))
  | array (d :: ds), hraws => by
      rw [raws, elementRaws, List.forall_mem_append] at hraws
      exact .of_derives (.array (elements_derive ds hraws.2 (text_denotes d hraws.1)))
  | object [], _ => .of_derives (.object (.noMembers .nil))
  | object ((k, d) :: ms), hraws => by
      rw [raws, memberRaws, List.forall_mem_append] at hraws
      exact .of_derives (.object (members_derive ms hraws.2 k (text_denotes d hraws.1)))

theorem elements_derive {s : List UInt8} {t : Tree} : (ds : List Doc) →
    (∀ s ∈ elementRaws ds, ∃ t, Denotes holds s t) → Denotes holds s t →
    Derives holds (s ++ elementsText true ds) (.elements (t :: elementTrees ds))
  | [], _, ⟨ws, s', ws', hs, hws, h, hws'⟩ => by
      rw [hs, elementsText, List.append_nil]
      exact .element hws h hws'
  | d :: ds, hraws, ⟨ws, s', ws', hs, hws, h, hws'⟩ => by
      rw [elementRaws, List.forall_mem_append] at hraws
      have hrest := elements_derive ds hraws.2 (text_denotes d hraws.1)
      have hall := Derives.elements hws h hws' (List.cons_ne_nil _ _) hrest
      rw [hs, elementsText, if_pos rfl, List.append_assoc, List.append_assoc, List.singleton_append]
      exact hall

theorem members_derive {s : List UInt8} {t : Tree} : (ms : List (List UInt8 × Doc)) →
    (∀ s ∈ memberRaws ms, ∃ t, Denotes holds s t) → (k : List UInt8) → Denotes holds s t →
    Derives holds (quoted k ++ colon :: (s ++ membersText true ms))
      (.members ((k, t) :: memberTrees ms))
  | [], _, k, ⟨ws, s', ws', hs, hws, h, hws'⟩ => by
      have hall := Derives.member .nil (.escape_all k) .nil hws h hws'
      rw [hs, membersText, List.append_nil, memberTrees]
      simpa only [quoted, List.cons_append, List.append_assoc, List.singleton_append,
        List.nil_append] using hall
  | (k', d) :: ms, hraws, k, ⟨ws, s', ws', hs, hws, h, hws'⟩ => by
      rw [memberRaws, List.forall_mem_append] at hraws
      have hrest := members_derive ms hraws.2 k' (text_denotes d hraws.1)
      have hall := Derives.members .nil (.escape_all k) .nil hws h hws'
        (List.cons_ne_nil _ _) hrest
      rw [hs, membersText, if_pos rfl, memberTrees]
      simpa only [quoted, List.cons_append, List.append_assoc, List.singleton_append,
        List.nil_append] using hall

end

end Sound

end Doc

/-- **The writer with levels does what is asked of a writer.** -/
theorem writes_writeCalls (holds : List UInt8 → Prop) : Writes holds writeCalls := by
  intro d hd
  have hbuffer : writeCalls d.calls = d.text := by
    rw [writeCalls, d.run_calls]
    rfl
  rw [hbuffer]
  exact d.text_denotes hd

end JsonText
