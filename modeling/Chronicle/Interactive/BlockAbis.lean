import Chronicle.Interactive.Requests
import Chronicle.Block.History
import Chronicle.Logic.Memo

/-!
# The block whose ABIs are used

An account is decoded with the ABI in the cache, or with the one of the head if it is not
in the cache: the cache is a memo (`Remembers`).  It is only reset when a request is sent.  So an
ABI of one block of a range is used for the next ones, and as the next request is sent when
the last block of the one before arrives, an ABI of that block is used for the first block
of the next request.

`decodes_own_block_iff` says when this makes no difference: whenever an account is decoded
again and no request was sent meanwhile, its ABI has to be the same.
-/

namespace Chronicle

open Store Effect

variable {Abi : Type} (lib : Abieos Abi)

/-! ## Lookups -/

/-- What `get_contract_abi_ready` finds in the history for an account at block `h`. -/
def Tables.rowAt (t : Tables) (account h : Nat) : Option Bytes :=
  (lowerBoundRev t.contractAbiHistory account h).map Prod.snd

/-- The ABI of an account at block `h`, as `get_contract_abi_ready` finds it in the history. -/
def Tables.abiAt (t : Tables) (account h : Nat) : Option Abi :=
  ((lowerBoundRev t.contractAbiHistory account h).map Prod.snd).bind lib.convert

theorem Interactive.lookupAbi {w : World Abi} (h : Interactive w) (account : Name) :
    w.lookupAbi account = w.db.current.rowAt account w.proc.head := if_pos h.mode

/-! ## Decodings -/

/-- An account was decoded, for a row, an action or the decoder. -/
structure Decoding (Abi : Type) where
  /-- How many requests were sent before. -/
  requests : Nat
  account : Name
  /-- The head. -/
  block : Nat
  /-- The tables at that time. -/
  tables : Tables
  /-- What the context held for the account. -/
  abi : Option Abi

/-- The decodings in a record, after some requests. -/
def decodingsFrom (n : Nat) : List (Tables × Observation Abi) → List (Decoding Abi)
  | [] => []
  | (_, .requested _) :: os => decodingsFrom (n + 1) os
  | (t, .abiReady account head abi) :: os => ⟨n, account, head, t, abi⟩ :: decodingsFrom n os
  | _ :: os => decodingsFrom n os

/-- What a run adds to the record, with the tables. -/
def observed (w : World Abi) : List Input → List (Tables × Observation Abi)
  | [] => []
  | i :: inputs =>
    ((exec lib w i).log.drop w.log.length).map (Prod.mk w.db.current) ++
      observed (exec lib w i) inputs

/-- The decodings of a run. -/
def decodings (w : World Abi) (inputs : List Input) : List (Decoding Abi) :=
  decodingsFrom 0 (observed lib w inputs)

/-- The ABI that a lookup gives for the block. -/
def Decoding.own (d : Decoding Abi) : Option Abi := d.tables.abiAt lib d.account d.block

/-- If an account is decoded again and no request was sent meanwhile, its ABI is the same, unless
there was nothing in the history the first time. -/
def Decoding.Agree (d d' : Decoding Abi) : Prop :=
  d.requests = d'.requests → d.account = d'.account → d.tables.rowAt d.account d.block ≠ none →
    d.own lib = d'.own lib

instance [DecidableEq Abi] (d d' : Decoding Abi) : Decidable (d.Agree lib d') :=
  inferInstanceAs (Decidable (_ → _ → _ → _))

/-! ## The cache as a memo -/

/-- What an observation is to the cache. -/
def memoEvent : Tables × Observation Abi → Option (Memo.Event Name Bytes (Option Abi))
  | (_, .requested _) => some .reset
  | (t, .abiReady account head abi) => some (.use account (t.rowAt account head) abi)
  | _ => none

/-- The observations that concern the cache, with the tables fixed. -/
def memoEvents (t : Tables) (l : List (Observation Abi)) :
    List (Memo.Event Name Bytes (Option Abi)) :=
  (l.map (Prod.mk t)).filterMap memoEvent

/-- A decoding as a use of the cache. -/
def Decoding.use (d : Decoding Abi) : Memo.Use Name Bytes (Option Abi) :=
  ⟨d.requests, d.account, d.tables.rowAt d.account d.block, d.abi⟩

theorem decodingsFrom_uses (n : Nat) (os : List (Tables × Observation Abi)) :
    (decodingsFrom n os).map Decoding.use = Memo.uses n (os.filterMap memoEvent) := by
  induction os generalizing n with
  | nil => rfl
  | cons o os ih =>
      obtain ⟨t, o⟩ := o
      cases o with
      | requested r => exact ih (n + 1)
      | abiReady account head abi => exact congrArg (List.cons _) (ih n)
      | published e => exact ih n
      | pushed tables => exact ih n
      | committed revision => exact ih n
      | setAbiBin account present => exact ih n

/-- The cache holds what the memo does, decoded. -/
structure Remembers (p : Proc Abi) (memo : Name → Option Bytes) : Prop where
  imported : ∀ account, account ∈ p.contractAbiImported ↔ (memo account).isSome
  ctxt : ∀ account, p.contractAbiCtxt.find? account = (memo account).bind lib.convert

/-- From one world to another the cache answers as a memo does, with lookups in the tables `t`. -/
def Tracks (t : Tables) (w w' : World Abi) : Prop :=
  ∃ l, w'.log = w.log ++ l ∧ ∀ memo, Remembers lib w.proc memo →
    Memo.Answers (·.bind lib.convert) memo (memoEvents t l) ∧
      Remembers lib w'.proc ((memoEvents t l).foldl Memo.step memo)

variable {lib}

theorem memoEvents_append (t : Tables) (l l' : List (Observation Abi)) :
    memoEvents t (l ++ l') = memoEvents t l ++ memoEvents t l' := by
  rw [memoEvents, List.map_append, List.filterMap_append]
  rfl

theorem memoEvents_eq_nil {t : Tables} {l : List (Observation Abi)}
    (h : ∀ o ∈ l, memoEvent (t, o) = none) : memoEvents t l = [] := by
  refine List.filterMap_eq_nil_iff.mpr fun o ho ↦ ?_
  obtain ⟨o', ho', rfl⟩ := List.mem_map.mp ho
  exact h o' ho'

theorem Observation.Silent.memoEvent {o : Observation Abi} (h : o.Silent) (t : Tables) :
    memoEvent (t, o) = none := by
  cases o with
  | requested r => exact h.elim
  | abiReady account head abi => exact h.elim
  | _ => rfl

theorem remembers_empty {p : Proc Abi} (himported : p.contractAbiImported = ∅)
    (hctxt : p.contractAbiCtxt = ∅) : Remembers lib p fun _ ↦ none where
  imported account := by
    rw [himported]
    exact iff_of_false (Finset.notMem_empty account) Bool.false_ne_true
  ctxt account := by
    rw [hctxt]
    exact Table.find?_empty account

theorem Remembers.congr {p p' : Proc Abi} {memo : Name → Option Bytes} (h : Remembers lib p memo)
    (hcache : p'.SameCache p) : Remembers lib p' memo where
  imported account := hcache.2 ▸ h.imported account
  ctxt account := hcache.1 ▸ h.ctxt account

/-- Loading an ABI is a use of the memo. -/
theorem Remembers.loaded {p : Proc Abi} {memo : Name → Option Bytes} (h : Remembers lib p memo)
    (hc : p.Cached) (account : Name) (found : Option Bytes) :
    Remembers lib (p.load lib account found)
      (Function.update memo account ((memo account).or found)) := by
  by_cases himp : account ∈ p.contractAbiImported
  · -- the memo knows the account, and is used as it is
    have hmemo : (memo account).or found = memo account :=
      Option.or_of_isSome ((h.imported account).mp himp)
    rw [hmemo, Function.update_eq_self, Proc.load, if_pos himp]
    exact h
  have hmemo : memo account = none :=
    Option.not_isSome_iff_eq_none.mp fun hsome ↦ himp ((h.imported account).mpr hsome)
  rw [hmemo, Option.none_or, Proc.load, if_neg himp]
  cases found with
  | none =>
      have hself : Function.update memo account none = memo := by
        rw [← hmemo, Function.update_eq_self]
      rw [hself]
      exact h
  | some data =>
      refine ⟨fun a ↦ ?_, fun a ↦ ?_⟩
      · refine Finset.mem_insert.trans ?_
        by_cases ha : a = account
        · rw [ha, Function.update_self]
          exact iff_of_true (.inl rfl) rfl
        · rw [Function.update_of_ne ha]
          exact (or_iff_right ha).trans (h.imported a)
      · refine (lib.find?_addAbi (hc.find?_eq_none himp) data a).trans ?_
        by_cases ha : a = account
        · rw [ha, if_pos rfl, Function.update_self]
          rfl
        · rw [if_neg ha, Function.update_of_ne ha]
          exact h.ctxt a

/-! ## Parts of a step -/

namespace Tracks

variable {t : Tables} {w w₁ w' : World Abi}

theorem silent {l : List (Observation Abi)} (hlog : w'.log = w.log ++ l)
    (hl : ∀ o ∈ l, memoEvent (t, o) = none) (hcache : w'.proc.SameCache w.proc) :
    Tracks lib t w w' := by
  refine ⟨l, hlog, fun memo hk ↦ ?_⟩
  rw [memoEvents_eq_nil hl]
  exact ⟨trivial, hk.congr hcache⟩

theorem proc (hlog : w'.log = w.log) (hcache : w'.proc.SameCache w.proc) :
    Tracks lib t w w' :=
  silent (hlog.trans (List.append_nil _).symm) (fun _ h ↦ absurd h List.not_mem_nil) hcache

theorem trans (h : Tracks lib t w w₁) (h' : Tracks lib t w₁ w') : Tracks lib t w w' := by
  obtain ⟨l, hl, hmemo⟩ := h
  obtain ⟨l', hl', hmemo'⟩ := h'
  refine ⟨l ++ l', by rw [hl', hl, List.append_assoc], fun memo hk ↦ ?_⟩
  obtain ⟨hanswers, hk₁⟩ := hmemo memo hk
  obtain ⟨hanswers', hk'⟩ := hmemo' _ hk₁
  rw [memoEvents_append, Memo.answers_append, List.foldl_append]
  exact ⟨⟨hanswers, hanswers'⟩, hk'⟩

theorem undisturbed (h : Undisturbed w w') : Tracks lib t w w' := by
  obtain ⟨l, hl, hsilent⟩ := h.log
  exact silent hl (fun o ho ↦ (hsilent o ho).memoEvent t) h.cache

/-- Sending a request empties the cache. -/
theorem served (w : World Abi) : Tracks lib t w w.served := by
  rw [World.served]
  split_ifs
  · cases w.proc.interactiveReqQueue with
    | nil => exact proc rfl ⟨rfl, rfl⟩
    | cons req queue => exact ⟨[_], rfl, fun memo _ ↦ ⟨⟨trivial, trivial⟩, remembers_empty rfl rfl⟩⟩
  · exact proc rfl ⟨rfl, rfl⟩

/-- The last block of a request makes way for the next one. -/
theorem atResult (block : BlockPosition) (result : GetBlocksResult) (w : World Abi) :
    Tracks lib t w (w.counted.atResult block result) := by
  have hanswered : Tracks lib t w (w.counted.answered block.blockNum) := by
    rw [World.answered]
    split_ifs
    · refine .trans ?_ (served _)
      exact proc rfl ⟨rfl, rfl⟩
    · exact proc rfl ⟨rfl, rfl⟩
  exact hanswered.trans (proc rfl ⟨rfl, rfl⟩)

/-- An account is decoded with what is in the cache, or else with what is found. -/
theorem decoded (h : Interactive w) (account : Name) :
    Tracks lib w.db.current w (w.decoded lib account) := by
  refine ⟨w.readyLog lib account, rfl, fun memo hk ↦ ?_⟩
  have hevents : memoEvents w.db.current (w.readyLog lib account) =
      [.use account (w.lookupAbi account)
        ((w.decoded lib account).proc.contractAbiCtxt.find? account)] := by
    rw [World.readyLog, memoEvents_append, memoEvents_eq_nil]
    · exact congrArg (fun found ↦ [Memo.Event.use account found
        ((w.decoded lib account).proc.contractAbiCtxt.find? account)]) (h.lookupAbi account).symm
    · intro o ho
      split_ifs at ho
      · rw [List.mem_singleton.mp ho]
        rfl
      · cases ho
  have hk' : Remembers lib (w.decoded lib account).proc _ :=
    hk.loaded h.cached account (w.lookupAbi account)
  rw [hevents]
  refine ⟨⟨?_, trivial⟩, hk'⟩
  rw [Memo.Answered, hk'.ctxt account, Function.update_self]

end Tracks

/-! ## One block -/

variable (lib) in
/-- The invariant of all parts of a block. -/
theorem tracksRule {w₀ : World Abi} (hmode : w₀.options.interactiveMode = true) :
    BlockRule lib w₀.options w₀.proc.head fun t w ↦
      UnwrittenAt w₀ t w ∧ Tracks lib w₀.db.current w₀ w where
  options h := h.1.2.1.options
  head h := h.1.2.1.head
  publish h he := ⟨(unwrittenRule lib hmode).publish h.1 he,
    h.2.trans (.silent rfl (fun o ho ↦ by rw [List.mem_singleton.mp ho]; rfl) ⟨rfl, rfl⟩)⟩
  header header trxCount h := ⟨(unwrittenRule lib hmode).header header trxCount h.1,
    h.2.trans (.proc rfl ⟨rfl, rfl⟩)⟩
  set hscan := absurd (hscan.symm.trans hmode) Bool.false_ne_true
  ready account t w h := by
    have hw : Interactive w := ⟨h.1.2.1.options ▸ hmode, h.1.2.1.cached⟩
    have hkeeps := (unwrittenRule lib hmode).ready account t w h.1
    rw [getContractAbiReady_run lib account h.1.2.1.cached] at hkeeps ⊢
    have hcurrent : w.db.current = w₀.db.current := h.1.2.2.trans h.1.1
    exact ⟨hkeeps, h.2.trans (hcurrent ▸ .decoded hw account)⟩

/-- A block, from the end of the request before it on. -/
theorem tracks_block {block : BlockPosition} {result : GetBlocksResult} {w w' : World Abi}
    (h : Interactive w) {r : EStateM.Result Abort (World Abi) Unit}
    (hr : processBlock lib block result (w.counted.atResult block result) = r)
    (hu : Ends (fun _ w₂ ↦ Undisturbed w₂ w') (fun _ w₂ ↦ Undisturbed w₂ w') r) :
    Tracks lib w.db.current w w' := by
  have hat := h.atResult block result
  have hcurrent : (w.counted.atResult block result).db.current = w.db.current := by
    change (w.counted.answered block.blockNum).db.current = _
    rw [World.answered]
    split_ifs
    · rw [World.served]
      split_ifs
      · cases w.counted.proc.interactiveReqQueue <;> rfl
      · rfl
    · rfl
  have hends := (tracksRule lib hat.mode).processBlock_interactive hat.mode block result
    (t := (w.counted.atResult block result).db.current)
    ⟨⟨rfl, .refl hat.cached, rfl⟩, .proc rfl ⟨rfl, rfl⟩⟩
  rw [hr, hcurrent] at hends
  refine (Tracks.atResult block result w).trans ?_
  cases r with
  | error e w₂ =>
      obtain ⟨t, -, htracks⟩ := hends
      exact htracks.trans (.undisturbed hu)
  | ok _ w₂ =>
      obtain ⟨w₁, ⟨-, htracks⟩, rfl⟩ := hends
      refine (htracks.trans ?_).trans (.undisturbed hu)
      exact .silent rfl (fun o ho ↦ by rw [List.mem_singleton.mp ho]; rfl) ⟨rfl, rfl⟩

/-! ## One input -/

variable (lib) in
/-- **Whatever comes in, the cache answers as a memo does.** -/
theorem tracks_exec {w : World Abi} {i : Input} (h : Interactive w)
    (hstart : ∀ o, i ≠ .start o) : Tracks lib w.db.current w (exec lib w i) := by
  cases serves_exec lib h hstart with
  | undisturbed hu _ _ _ => exact .undisturbed hu
  | changed _ hw =>
      rw [hw]
      exact .proc rfl ⟨rfl, rfl⟩
  | decoded _ hw =>
      rw [hw]
      exact .decoded h _
  | ready _ _ _ hu =>
      refine .trans ?_ (.undisturbed hu)
      refine .trans ?_ (.served _)
      exact .proc rfl ⟨rfl, rfl⟩
  | accepted _ _ hw =>
      rw [hw]
      refine .trans ?_ (.served _)
      exact .proc rfl ⟨rfl, rfl⟩
  | completed _ hprocess hu => exact tracks_block h hprocess hu
  | broken _ hprocess hu => exact tracks_block h hprocess hu

/-! ## Runs -/

variable (lib) in
theorem answers_observed {w : World Abi} {inputs : List Input} (h : Interactive w)
    (hno : ∀ i ∈ inputs, i.NoStart) {memo : Name → Option Bytes} (hk : Remembers lib w.proc memo) :
    Memo.Answers (·.bind lib.convert) memo ((observed lib w inputs).filterMap memoEvent) := by
  induction inputs generalizing w memo with
  | nil => trivial
  | cons i inputs ih =>
      have hstart := Input.NoStart.ne_start (hno i List.mem_cons_self)
      obtain ⟨l, hl, htracks⟩ := tracks_exec lib h hstart
      obtain ⟨hanswers, hk'⟩ := htracks memo hk
      rw [observed, hl, List.drop_left, List.filterMap_append, Memo.answers_append]
      exact ⟨hanswers, ih (h.exec lib hstart) (fun j hj ↦ hno j (List.mem_cons_of_mem _ hj)) hk'⟩

variable (lib) in
/-- A process on a database. -/
def startedOn (o : Options) (db : Undo Tables) : World Abi :=
  exec lib { newWorld with db := db } (.start o)

theorem interactive_startedOn {o : Options} (hmode : o.interactiveMode = true)
    (db : Undo Tables) : startedOn lib o db = bootWorld o db [] :=
  exec_start_interactive lib hmode _

/-- **In every run of a process in interactive mode: every account is decoded with the ABI that a
lookup gives for it at the block at the head, exactly if any two decodings of an account between
which no request is sent have the same ABI in the history, unless there is none for the first.** -/
theorem decodes_own_block_iff (o : Options) (hmode : o.interactiveMode = true) (db : Undo Tables)
    (inputs : List Input) (hno : ∀ i ∈ inputs, i.NoStart) :
    (∀ d ∈ decodings lib (startedOn lib o db) inputs, d.abi = d.own lib) ↔
      (decodings lib (startedOn lib o db) inputs).Pairwise (Decoding.Agree lib) := by
  rw [interactive_startedOn hmode]
  have hanswers := answers_observed lib (interactive_bootWorld hmode db []) hno
    (remembers_empty rfl rfl)
  have hfresh := Memo.forall_fresh_iff hanswers
  rw [← decodingsFrom_uses, List.forall_mem_map, List.pairwise_map] at hfresh
  exact hfresh

/-! ## A range of two blocks -/

/-- A database at block 9, with ABIs of account 5 from block 1 and from block 2 on. -/
def twoRevisions (first second : Bytes) : Undo Tables :=
  ⟨9, { (∅ : Tables) with
    state := some ⟨9, 9, 9, 9⟩
    contractAbiHistory := ((∅ : Table (Name ×ₗ Nat) Bytes).insert (toLex (5, 1)) first).insert
      (toLex (5, 2)) second }, []⟩

/-- A request for blocks 1 and 2, with account 5 in both. -/
def twoBlockRange : List Input :=
  [.request ⟨1, 3⟩, .ready 0, requestedResult 1, .decode 5, requestedResult 2, .decode 5]

/-- A request for block 1, and then one for blocks 2 and 3, with account 5 in all of them. -/
def twoRequests : List Input :=
  [.request ⟨1, 2⟩, .ready 0, requestedResult 1, .decode 5, .request ⟨2, 4⟩, requestedResult 2,
    .decode 5, requestedResult 3, .decode 5, .decode 5]

set_option maxRecDepth 10000 in
/-- The second request is sent after block 1 was decoded, and blocks 2 and 3 have the same ABI. -/
theorem decodes_own_block_requests :
    let ds := decodings .tagged
      (startedOn .tagged { interactiveMode := true } (twoRevisions [1, 7] [1, 8])) twoRequests
    ds.map (fun d ↦ (d.block, d.abi)) =
        [(1, some [1, 7]), (2, some [1, 8]), (3, some [1, 8]), (3, some [1, 8])] ∧
      ∀ d ∈ ds, d.abi = d.own .tagged :=
  ⟨by decide, (decodes_own_block_iff { interactiveMode := true } rfl (twoRevisions [1, 7] [1, 8])
    twoRequests (by decide)).mpr (by decide)⟩

/-- Block 2 is decoded with the ABI of block 1. -/
theorem decodes_block_before :
    ∃ (o : Options) (db : Undo Tables) (inputs : List Input), o.interactiveMode = true ∧
      (∀ i ∈ inputs, i.NoStart) ∧
      ¬∀ d ∈ decodings .tagged (startedOn .tagged o db) inputs, d.abi = d.own .tagged :=
  ⟨{ interactiveMode := true }, twoRevisions [1, 7] [1, 8], twoBlockRange, rfl, by decide,
    by decide⟩

end Chronicle
