import Chronicle.Logic.JsonWriter
import Chronicle.Relic.Handler

/-!
# Messages of the Relic exporter are read back

An event is put into a message by `on_event_json` or by `on_event_bin`, as the options say, and
the message is read by `async_send_events`, which parses all of it as JSON.
-/

namespace Chronicle

open JsonText (Tree Denotes Derives Chars)

/-! ## Strings and their bytes -/

/-- The bytes of a string. -/
def utf8Bytes (s : String) : List UInt8 := s.toUTF8.toList

/-- The loop of `ByteArray.toList` puts the bytes from an index on behind those that it has. -/
theorem toListLoop_eq (a : ByteArray) (i : Nat) (r : List UInt8) :
    ByteArray.toList.loop a i r = r.reverse ++ a.data.toList.drop i := by
  fun_induction ByteArray.toList.loop a i r with
  | case1 i r hlt ih =>
      have hi : i < a.data.toList.length := hlt
      have hbyte : a.get! i = a.data.toList[i] := by
        cases a with
        | mk data => exact getElem!_pos data i hlt
      rw [ih, hbyte, List.drop_eq_getElem_cons hi, List.reverse_cons, List.append_assoc,
        List.singleton_append]
  | case2 i r hge =>
      have hi : a.data.toList.length ≤ i := not_lt.mp hge
      rw [List.drop_eq_nil_of_le hi, List.append_nil]

theorem utf8Bytes_eq (s : String) : utf8Bytes s = s.toByteArray.data.toList :=
  toListLoop_eq s.toByteArray 0 []

theorem utf8Bytes_append (s t : String) : utf8Bytes (s ++ t) = utf8Bytes s ++ utf8Bytes t := by
  rw [utf8Bytes_eq, utf8Bytes_eq, utf8Bytes_eq, String.toByteArray_append,
    ByteArray.toList_data_append]

/-- A string is read back from its bytes. -/
def ofUtf8Bytes (s : List UInt8) : String := (String.fromUTF8? ⟨s.toArray⟩).getD ""

theorem ofUtf8Bytes_utf8Bytes (s : String) : ofUtf8Bytes (utf8Bytes s) = s := by
  have hbytes : (⟨(utf8Bytes s).toArray⟩ : ByteArray) = s.toByteArray := by
    rw [utf8Bytes_eq, Array.toArray_toList]
  rw [ofUtf8Bytes, hbytes, String.fromUTF8?, dif_pos s.isValidUTF8]
  rfl

mutual

/-- A value as what a text denotes. -/
def Json.tree : Json → Tree
  | .null => .null
  | .bool b => .bool b
  | .number text => .number (utf8Bytes text)
  | .string s => .string (utf8Bytes s)
  | .array vs => .array (treeElements vs)
  | .object ms => .object (treeMembers ms)

def treeElements : List Json → List Tree
  | [] => []
  | v :: vs => v.tree :: treeElements vs

def treeMembers : List (String × Json) → List (List UInt8 × Tree)
  | [] => []
  | (k, v) :: ms => (utf8Bytes k, v.tree) :: treeMembers ms

end

mutual

/-- The value that a text denotes; strings whose bytes are not those of any characters are
empty. -/
def treeValue : Tree → Json
  | .null => .null
  | .bool b => .bool b
  | .number text => .number (ofUtf8Bytes text)
  | .string bytes => .string (ofUtf8Bytes bytes)
  | .array ts => .array (elementValues ts)
  | .object ms => .object (memberValues ms)

def elementValues : List Tree → List Json
  | [] => []
  | t :: ts => treeValue t :: elementValues ts

def memberValues : List (List UInt8 × Tree) → List (String × Json)
  | [] => []
  | (k, t) :: ms => (ofUtf8Bytes k, treeValue t) :: memberValues ms

end

mutual

theorem treeValue_tree : (v : Json) → treeValue v.tree = v
  | .null => rfl
  | .bool _ => rfl
  | .number text => congrArg Json.number (ofUtf8Bytes_utf8Bytes text)
  | .string s => congrArg Json.string (ofUtf8Bytes_utf8Bytes s)
  | .array vs => congrArg Json.array (elementValues_treeElements vs)
  | .object ms => congrArg Json.object (memberValues_treeMembers ms)

theorem elementValues_treeElements : (vs : List Json) → elementValues (treeElements vs) = vs
  | [] => rfl
  | v :: vs => by
      rw [treeElements, elementValues, treeValue_tree v, elementValues_treeElements vs]

theorem memberValues_treeMembers : (ms : List (String × Json)) →
    memberValues (treeMembers ms) = ms
  | [] => rfl
  | (k, v) :: ms => by
      rw [treeMembers, memberValues, ofUtf8Bytes_utf8Bytes, treeValue_tree v,
        memberValues_treeMembers ms]

end

/-- Bytes of ASCII characters. -/
def isAscii (bytes : List UInt8) : Bool := bytes.all (· < 128)

theorem utf8Encode_ascii {l : List Char} (h : ∀ c ∈ l, c.toNat ≤ 127) :
    l.utf8Encode.data.toList = l.map Char.toUInt8 := by
  induction l with
  | nil => rfl
  | cons c l ih =>
      have hsize : c.utf8Size = 1 :=
        Char.utf8Size_eq_one_iff.mpr (UInt32.le_iff_toNat_le.mpr (h c List.mem_cons_self))
      rw [List.utf8Encode_cons, List.utf8Encode_singleton, ByteArray.toList_data_append,
        ih fun c hc ↦ h c (List.mem_cons_of_mem _ hc), String.utf8EncodeChar_eq_singleton hsize]
      rfl

/-- They are the bytes of their characters. -/
theorem utf8Bytes_ofUtf8Bytes {bytes : List UInt8} (h : isAscii bytes = true) :
    utf8Bytes (ofUtf8Bytes bytes) = bytes := by
  have hbytes : utf8Bytes (String.ofList (bytes.map Char.ofUInt8)) = bytes := by
    rw [utf8Bytes_eq, String.toByteArray_ofList, utf8Encode_ascii, List.map_map]
    · exact List.map_id'' (fun b ↦ UInt8.toUInt8_toUInt32 b) bytes
    · intro c hc
      obtain ⟨b, hb, rfl⟩ := List.mem_map.mp hc
      have hlt := UInt8.lt_iff_toNat_lt.mp (of_decide_eq_true (List.all_eq_true.mp h b hb))
      exact Nat.le_of_lt_succ hlt
  rw [← hbytes, ofUtf8Bytes_utf8Bytes]

mutual

/-- All strings are of ASCII characters. -/
def legibleTree : Tree → Bool
  | .null | .bool _ => true
  | .number text => isAscii text
  | .string bytes => isAscii bytes
  | .array ts => legibleElements ts
  | .object ms => legibleMembers ms

def legibleElements : List Tree → Bool
  | [] => true
  | t :: ts => legibleTree t && legibleElements ts

def legibleMembers : List (List UInt8 × Tree) → Bool
  | [] => true
  | (k, t) :: ms => isAscii k && legibleTree t && legibleMembers ms

end

mutual

theorem tree_treeValue : (t : Tree) → legibleTree t = true → (treeValue t).tree = t
  | .null, _ => rfl
  | .bool _, _ => rfl
  | .number _, h => congrArg Tree.number (utf8Bytes_ofUtf8Bytes h)
  | .string _, h => congrArg Tree.string (utf8Bytes_ofUtf8Bytes h)
  | .array ts, h => congrArg Tree.array (treeElements_elementValues ts h)
  | .object ms, h => congrArg Tree.object (treeMembers_memberValues ms h)

theorem treeElements_elementValues : (ts : List Tree) → legibleElements ts = true →
    treeElements (elementValues ts) = ts
  | [], _ => rfl
  | t :: ts, h => by
      obtain ⟨ht, hts⟩ := Bool.and_eq_true_iff.mp h
      rw [elementValues, treeElements, tree_treeValue t ht, treeElements_elementValues ts hts]

theorem treeMembers_memberValues : (ms : List (List UInt8 × Tree)) → legibleMembers ms = true →
    treeMembers (memberValues ms) = ms
  | [], _ => rfl
  | (k, t) :: ms, h => by
      obtain ⟨hkt, hms⟩ := Bool.and_eq_true_iff.mp h
      obtain ⟨hk, ht⟩ := Bool.and_eq_true_iff.mp hkt
      rw [memberValues, treeMembers, tree_treeValue t ht, treeMembers_memberValues ms hms,
        utf8Bytes_ofUtf8Bytes hk]

end

mutual

/-- A value as a document that is written; numbers are written as they are. -/
def Json.doc : Json → JsonText.Doc
  | .null => .null
  | .bool b => .raw (utf8Bytes (toString b))
  | .number text => .raw (utf8Bytes text)
  | .string s => .string (utf8Bytes s)
  | .array vs => .array (elementDocs vs)
  | .object ms => .object (memberDocs ms)

def elementDocs : List Json → List JsonText.Doc
  | [] => []
  | v :: vs => v.doc :: elementDocs vs

def memberDocs : List (String × Json) → List (List UInt8 × JsonText.Doc)
  | [] => []
  | (k, v) :: ms => (utf8Bytes k, v.doc) :: memberDocs ms

end

/-! ## Messages -/

/-- The copy of a writer's buffer that `on_event_json` makes: the text of a string that ends at
the first null character, of which as many bytes are taken as the buffer has.  There must be as
many. -/
def copyBuffer (buffer : Msgbuf) : Option Msgbuf :=
  let msg := buffer.takeWhile (· ≠ 0)
  if msg.length < buffer.length then none else some msg

/-- What is pushed for an event. -/
def SenderOptions.pushed (o : SenderOptions) (e : ExportType × String) : Option Msgbuf :=
  if o.useBinHeaders then some (onEventBin e.1.msgtype 0 e.2)
  else copyBuffer (onEventJson e.1.name e.2)

/-- What is pushed for an event whose text is given by its bytes. -/
def SenderOptions.pushedBytes (o : SenderOptions) (e : ExportType × List UInt8) : Option Msgbuf :=
  if o.useBinHeaders then some (int32Bytes e.1.msgtype ++ int32Bytes 0 ++ e.2)
  else copyBuffer
    (utf8Bytes ("\x7b\"msgtype\":\"" ++ e.1.name ++ "\",\"data\":") ++ e.2 ++ utf8Bytes "\x7d")

theorem pushed_ofUtf8Bytes (o : SenderOptions) {e : ExportType × List UInt8}
    (h : isAscii e.2 = true) : o.pushed (e.1, ofUtf8Bytes e.2) = o.pushedBytes e := by
  have hjson : onEventJson e.1.name (ofUtf8Bytes e.2) =
      utf8Bytes ("\x7b\"msgtype\":\"" ++ e.1.name ++ "\",\"data\":") ++ e.2 ++
        utf8Bytes "\x7d" := by
    change utf8Bytes _ = _
    rw [utf8Bytes_append, utf8Bytes_append, utf8Bytes_ofUtf8Bytes h]
  have hbin : onEventBin e.1.msgtype 0 (ofUtf8Bytes e.2) =
      int32Bytes e.1.msgtype ++ int32Bytes 0 ++ e.2 :=
    congrArg (int32Bytes e.1.msgtype ++ int32Bytes 0 ++ ·) (utf8Bytes_ofUtf8Bytes h)
  rw [SenderOptions.pushed, SenderOptions.pushedBytes, hjson, hbin]

namespace Relic

/-- The type and the data of a message, if `async_send_events` finds them in it. -/
def decodeMessage (ext : Externals) (msg : Msgbuf) : Option (String × Json) :=
  let document := ext.parse msg
  let data := document.get "data"
  if (document.get "msgtype").isString ∧ data.isObject then
    some (getString (document.get "msgtype"), data)
  else none

/-- A message without them is dropped, and of one with them this is what is handled. -/
theorem handle_eq (ext : Externals) (msg : Msgbuf) (m : Members) :
    handle ext msg m = match decodeMessage ext msg with
      | none => pure m
      | some (msgtype, data) =>
        if (data.get "block_num").isString then
          match stoul (getString (data.get "block_num")) with
          | none => .throw
          | some n => handleEvent ext m (ext.parse msg) msgtype (getString (data.get "block_num"))
              (n % 2 ^ 32)
        else pure m := by
  rw [handle, decodeMessage]
  by_cases hmember : ((ext.parse msg).get "msgtype").isString ∧
      ((ext.parse msg).get "data").isObject
  · rw [if_pos hmember]
    by_cases hnum : (((ext.parse msg).get "data").get "block_num").isString
    · exact (if_pos ⟨hmember.1, hmember.2, hnum⟩).trans (if_pos hnum).symm
    · exact (if_neg fun hall ↦ hnum hall.2.2).trans (if_neg hnum).symm
  · rw [if_neg hmember]
    exact if_neg fun hall ↦ hmember ⟨hall.1, hall.2.1⟩

end Relic

/-- What rapidjson is documented to do, for the numbers that it can hold: a text is parsed to the
value that it denotes; a text is in error that begins, after a byte that is not ASCII, with a
control character. -/
structure ParsesJson (ext : Externals) (holds : List UInt8 → Prop) : Prop where
  value : ∀ s (v : Json), Denotes holds s v.tree → ext.parse s = v
  error : ∀ b c rest, 128 ≤ b → c < 9 → ext.parse (b :: c :: rest) = .null

/-- An event is read back as it was pushed. -/
def ReadBack (ext : Externals) (pushed : Option Msgbuf) (e : ExportType) (data : Json) : Prop :=
  ∃ msg, pushed = some msg ∧ Relic.decodeMessage ext msg = some (e.name, data)

section Messages

variable {ext : Externals} {holds : List UInt8 → Prop} {text : String} {data : Json}

/-- The names of types are written without escapes. -/
theorem ExportType.name_plain (e : ExportType) :
    Chars (utf8Bytes e.name) (utf8Bytes e.name) ∧ Relic.cString e.name = e.name := by
  constructor
  · refine Chars.of_plain ?_
    cases e <;> decide +kernel
  · refine Relic.cString_eq_self ?_
    cases e <;> decide +kernel

/-- A message in JSON denotes an object with the type and the data of the event. -/
theorem denotes_onEventJson (e : ExportType) (h : Denotes holds (utf8Bytes text) data.tree) :
    Denotes holds (onEventJson e.name text)
      (Json.object [("msgtype", .string e.name), ("data", data)]).tree := by
  obtain ⟨ws, s, ws', htext, hws, hs, hws'⟩ := h
  have hmsgtype : Chars (utf8Bytes "msgtype") (utf8Bytes "msgtype") :=
    .of_plain (by decide +kernel)
  have hdata : Chars (utf8Bytes "data") (utf8Bytes "data") := .of_plain (by decide +kernel)
  have hname : Derives holds (JsonText.quote :: (utf8Bytes e.name ++ [JsonText.quote]))
      (.value (.string (utf8Bytes e.name))) := .string e.name_plain.1
  have hmembers := Derives.members .nil hmsgtype .nil .nil hname .nil (List.cons_ne_nil _ _)
    (.member .nil hdata .nil hws hs hws')
  refine ⟨[], _, [], ?_, .nil, .object hmembers, .nil⟩
  -- the three pieces that the writer puts around the name and the data
  have hopen : utf8Bytes "\x7b\"msgtype\":\"" = JsonText.openBrace :: JsonText.quote ::
      (utf8Bytes "msgtype" ++ [JsonText.quote, JsonText.colon, JsonText.quote]) := by
    decide +kernel
  have hmiddle : utf8Bytes "\",\"data\":" = JsonText.quote :: JsonText.comma ::
      JsonText.quote :: (utf8Bytes "data" ++ [JsonText.quote, JsonText.colon]) := by
    decide +kernel
  have hclose : utf8Bytes "\x7d" = [JsonText.closeBrace] := by decide +kernel
  change utf8Bytes ("\x7b\"msgtype\":\"" ++ e.name ++ "\",\"data\":" ++ text ++ "\x7d") = _
  rw [utf8Bytes_append, utf8Bytes_append, utf8Bytes_append, utf8Bytes_append, htext, hopen, hmiddle,
    hclose]
  simp only [List.append_assoc, List.cons_append, List.nil_append, List.append_nil]

/-- In JSON an event is read back. -/
theorem readBack_onEventJson (hext : ParsesJson ext holds)
    (htext : Denotes holds (utf8Bytes text) data.tree) (hobject : data.isObject = true)
    (e : ExportType) : ReadBack ext (copyBuffer (onEventJson e.name text)) e data := by
  have hmsg := denotes_onEventJson e htext
  -- a text without null characters is copied as a whole
  have hcopy : copyBuffer (onEventJson e.name text) = some (onEventJson e.name text) := by
    have hzero : ∀ b ∈ onEventJson e.name text, decide (b ≠ 0) = true := by
      intro b hb
      exact decide_eq_true fun h0 ↦ hmsg.ne_zero (h0 ▸ hb)
    rw [copyBuffer, List.takeWhile_eq_self_iff.mpr hzero]
    exact if_neg (lt_irrefl _)
  refine ⟨_, hcopy, ?_⟩
  rw [Relic.decodeMessage, hext.value _ _ hmsg]
  refine (if_pos ⟨rfl, hobject⟩).trans ?_
  exact congrArg (fun name ↦ some (name, data)) e.name_plain.2

/-- A binary header is no JSON, so that nothing is found in a message that has one. -/
theorem decodeMessage_onEventBin (hext : ParsesJson ext holds) (e : ExportType) (msgopts : UInt32)
    (s : String) : Relic.decodeMessage ext (onEventBin e.msgtype msgopts s) = none := by
  have hheader : ∃ b, int32Bytes e.msgtype = [b, 3, 0, 0] ∧ 128 ≤ b := by
    cases e <;> exact ⟨_, rfl, by decide⟩
  obtain ⟨b, hbytes, hb⟩ := hheader
  have hparse : ext.parse (onEventBin e.msgtype msgopts s) = .null := by
    rw [onEventBin, hbytes]
    exact hext.error b 3 _ hb (by decide)
  rw [Relic.decodeMessage, hparse]
  exact if_neg fun hall ↦ Bool.false_ne_true hall.1

/-- **An event is read back from its message exactly when messages have no binary headers.**  With
them every event is dropped. -/
theorem framing_undone_iff (hext : ParsesJson ext holds)
    (htext : Denotes holds (utf8Bytes text) data.tree) (hobject : data.isObject = true)
    (o : SenderOptions) (e : ExportType) :
    ReadBack ext (o.pushed (e, text)) e data ↔ o.useBinHeaders = false := by
  rw [SenderOptions.pushed]
  cases o.useBinHeaders with
  | false =>
      rw [if_neg Bool.false_ne_true]
      exact iff_of_true (readBack_onEventJson hext htext hobject e) rfl
  | true =>
      rw [if_pos rfl]
      refine iff_of_false ?_ Bool.noConfusion
      rintro ⟨msg, hpushed, hdecode⟩
      obtain rfl := Option.some.inj hpushed
      rw [decodeMessage_onEventBin hext e 0 text] at hdecode
      cases hdecode

/-- With binary headers the exporter does nothing with any event. -/
theorem handle_onEventBin (hext : ParsesJson ext holds) (e : ExportType) (msgopts : UInt32)
    (s : String) (m : Relic.Members) :
    Relic.handle ext (onEventBin e.msgtype msgopts s) m = pure m :=
  (Relic.handle_eq ext _ m).trans (by rw [decodeMessage_onEventBin hext e msgopts s])

end Messages

/-! ## A fork, in both ways -/

/-- Libraries that parse what the reader of JSON texts reads. -/
def readerExternals : Externals where
  parse msg := (JsonText.parse msg).elim .null treeValue
  write v := ofUtf8Bytes v.doc.text
  pqEscapeLiteral s := some (String.ofList (Sql.quoted (Sql.escaped s.toList)))
  shortenKey _ := 0

theorem readerExternals_parsesJson : ParsesJson readerExternals fun _ ↦ True where
  value s v h := by
    change (JsonText.parse s).elim .null treeValue = v
    rw [JsonText.parse_eq h]
    exact treeValue_tree v
  error b c rest hb _ := by
    change (JsonText.parse (b :: c :: rest)).elim .null treeValue = .null
    rw [JsonText.parse_eq_none_of_le hb]
    rfl

/-- They parse what is written without numbers and truth values. -/
theorem readerExternals_parse_doc {v : Json} (htree : v.doc.tree = v.tree)
    (hraws : v.doc.raws = []) : readerExternals.parse v.doc.text = v := by
  refine readerExternals_parsesJson.value _ v (htree ▸ v.doc.text_denotes fun s hs ↦ ?_)
  rw [hraws] at hs
  cases hs

def forkText : String :=
  "\x7b\"block_num\":\"5\",\"depth\":\"1\",\"fork_reason\":\"network\"," ++
    "\"last_irreversible\":\"3\"\x7d"

def forkMembers : List (String × String) :=
  [("block_num", "5"), ("depth", "1"), ("fork_reason", "network"), ("last_irreversible", "3")]

def forkData : Json := .object (forkMembers.map fun m ↦ (m.1, .string m.2))

theorem forkText_denotes : Denotes (fun _ ↦ True) (utf8Bytes forkText) forkData.tree := by
  let d : JsonText.Doc :=
    .object (forkMembers.map fun m ↦ (utf8Bytes m.1, .string (utf8Bytes m.2)))
  have htext : utf8Bytes forkText = d.text := by decide +kernel
  rw [htext]
  exact d.text_denotes fun s hs ↦ absurd hs List.not_mem_nil

theorem framing_undone_iff_fork :
    ReadBack readerExternals (SenderOptions.pushed {} (.fork, forkText)) .fork forkData :=
  (framing_undone_iff readerExternals_parsesJson forkText_denotes rfl {} .fork).mpr rfl

theorem framing_lost : ¬ ∀ (o : SenderOptions) (e : ExportType),
    ReadBack readerExternals (o.pushed (e, forkText)) e forkData := by
  intro hall
  obtain ⟨msg, hpushed, hdecode⟩ := hall { useBinHeaders := true } .fork
  obtain rfl := Option.some.inj hpushed
  rw [decodeMessage_onEventBin readerExternals_parsesJson .fork 0 forkText] at hdecode
  cases hdecode

end Chronicle
