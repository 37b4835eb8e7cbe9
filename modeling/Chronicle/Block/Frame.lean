import Chronicle.Block.Rule

/-!
# The frame of a block

While a block is processed only the tables and the decoder change, apart from the record
of what is published; and an ABI is only ever given to the library for an account that
the context does not know.  `Within` says so, and it is an invariant for `BlockRule`.
-/

namespace Chronicle

open Store Effect

variable {Abi : Type} (lib : Abieos Abi)

/-! ## The cache of decoded ABIs -/

/-- Every account of the context is recorded as imported.  The converse fails after an
ABI in the database could not be decoded. -/
def Proc.Cached (p : Proc Abi) : Prop :=
  ∀ account, (p.contractAbiCtxt.find? account).isSome → account ∈ p.contractAbiImported

theorem Proc.Cached.find?_eq_none {p : Proc Abi} (h : p.Cached) {account : Name}
    (ha : account ∉ p.contractAbiImported) : p.contractAbiCtxt.find? account = none := by
  cases hf : p.contractAbiCtxt.find? account with
  | none => rfl
  | some abi => exact absurd (h account (by rw [hf]; rfl)) ha

/-- The context after valid or invalid bytes for an account it does not know. -/
def Abieos.addAbi (ctxt : AbieosContext Abi) (account : Name) (data : Bytes) :
    AbieosContext Abi :=
  match lib.convert data with
  | some abi => ctxt.insert account abi
  | none => ctxt

theorem Abieos.find?_addAbi {ctxt : AbieosContext Abi} {account : Name}
    (h : ctxt.find? account = none) (data : Bytes) (a : Name) :
    (lib.addAbi ctxt account data).find? a =
      if a = account then lib.convert data else ctxt.find? a := by
  rw [Abieos.addAbi]
  cases hc : lib.convert data with
  | none => split_ifs with ha <;> simp [ha, h]
  | some abi => rw [Table.find?_insert]

/-- An account that the context does not know is given its ABI. -/
theorem abieosSetAbiBin_run {w : World Abi} {account : Name} {data : Bytes}
    (h : w.proc.contractAbiCtxt.find? account = none) :
    abieosSetAbiBin lib account data w =
      .ok (lib.convert data).isSome
        { w with
          proc := { w.proc with
            contractAbiCtxt := lib.addAbi w.proc.contractAbiCtxt account data }
          log := w.log ++ [.setAbiBin account false] } := by
  have hset : lib.setAbiBin w.proc.contractAbiCtxt account data =
      ((lib.convert data).isSome, lib.addAbi w.proc.contractAbiCtxt account data) := by
    rw [Abieos.setAbiBin, Abieos.addAbi]
    cases lib.convert data <;> simp [h]
  have hrun : abieosSetAbiBin lib account data w =
      .ok (lib.setAbiBin w.proc.contractAbiCtxt account data).1
        { w with
          proc := { w.proc with
            contractAbiCtxt := (lib.setAbiBin w.proc.contractAbiCtxt account data).2 }
          log := w.log ++ [.setAbiBin account
            (w.proc.contractAbiCtxt.find? account).isSome] } := rfl
  rw [hrun, hset, h]
  rfl

/-- Recording the account makes up for what was added. -/
theorem Proc.Cached.add {p : Proc Abi} (h : p.Cached) (account : Name) (data : Bytes) :
    ({ p with
      contractAbiCtxt := lib.addAbi p.contractAbiCtxt account data
      contractAbiImported := insert account p.contractAbiImported } : Proc Abi).Cached := by
  intro a ha
  refine Finset.mem_insert.mpr ?_
  by_cases hne : a = account
  · exact .inl hne
  · refine .inr (h a ?_)
    rw [Abieos.addAbi] at ha
    cases hc : lib.convert data with
    | none => simpa only [hc] using ha
    | some abi => simpa only [hc, Table.find?_insert_of_ne _ _ hne] using ha

/-- The process with a new context. -/
def Proc.cleared (p : Proc Abi) : Proc Abi :=
  { p with contractAbiCtxt := ∅, contractAbiImported := ∅ }

theorem Proc.cached_init (p : Proc Abi) : p.cleared.Cached := fun _ h ↦ by
  simp [Proc.cleared] at h

/-- The cache is the same in two states of a process. -/
def Proc.SameCache (p q : Proc Abi) : Prop :=
  p.contractAbiCtxt = q.contractAbiCtxt ∧ p.contractAbiImported = q.contractAbiImported

theorem Proc.SameCache.cached {p q : Proc Abi} (h : p.SameCache q) (hc : q.Cached) : p.Cached := by
  rwa [Proc.Cached, h.1, h.2]

/-! ## Loading an ABI -/

/-- The members of the receiver that no part of a block changes. -/
def Proc.core (p : Proc Abi) : Proc Abi :=
  { p with blockHeader := {}, trxCount := 0, contractAbiCtxt := ∅, contractAbiImported := ∅ }

/-- Members that belong to the core agree when the cores do. -/
theorem Proc.member_eq {α : Type} {p q : Proc Abi} (h : p.core = q.core) (f : Proc Abi → α)
    (hf : ∀ p : Proc Abi, f p = f p.core) : f p = f q := by
  rw [hf, h, ← hf]

/-- The bytes that `get_contract_abi_ready` finds in the database. -/
def World.lookupAbi (w : World Abi) (account : Name) : Option Bytes :=
  if w.options.interactiveMode then
    (lowerBoundRev w.db.current.contractAbiHistory account w.proc.head).map Prod.snd
  else w.db.current.contractAbi.find? account

/-- The cache after the bytes of an account were given to the library. -/
def Proc.withAbi (p : Proc Abi) (account : Name) (data : Bytes) : Proc Abi :=
  { p with
    contractAbiCtxt := lib.addAbi p.contractAbiCtxt account data
    contractAbiImported := insert account p.contractAbiImported }

/-- The cache after what was found for an account. -/
def Proc.load (p : Proc Abi) (account : Name) (found : Option Bytes) : Proc Abi :=
  if account ∈ p.contractAbiImported then p else found.elim p (p.withAbi lib account)

theorem Proc.load_core (p : Proc Abi) (account : Name) (found : Option Bytes) :
    (p.load lib account found).core = p.core := by
  rw [Proc.load]
  split_ifs
  · rfl
  · cases found <;> rfl

theorem Proc.Cached.load {p : Proc Abi} (h : p.Cached) (account : Name) (found : Option Bytes) :
    (p.load lib account found).Cached := by
  rw [Proc.load]
  split_ifs
  · exact h
  · cases found with
    | none => exact h
    | some data => exact h.add lib account data

/-- What `get_contract_abi_ready` leaves in the record. -/
def World.readyLog (w : World Abi) (account : Name) : List (Observation Abi) :=
  (if account ∉ w.proc.contractAbiImported ∧ (w.lookupAbi account).isSome then
    [.setAbiBin account false] else []) ++
  [.abiReady account w.proc.head
    ((w.proc.load lib account (w.lookupAbi account)).contractAbiCtxt.find? account)]

variable {lib} in
theorem World.mem_readyLog {w : World Abi} {account : Name} {o : Observation Abi}
    (h : o ∈ w.readyLog lib account) :
    o = .setAbiBin account false ∨ o = .abiReady account w.proc.head
      ((w.proc.load lib account (w.lookupAbi account)).contractAbiCtxt.find? account) := by
  rw [World.readyLog] at h
  split_ifs at h
  · simpa using h
  · exact .inr (by simpa using h)

/-- An ABI that was found is given to the library, which does not know the account. -/
theorem importContractAbi_run {w : World Abi} {account : Name} {data : Bytes}
    (h : w.proc.contractAbiCtxt.find? account = none) :
    importContractAbi lib account data w =
      .ok true { w with
        proc := w.proc.withAbi lib account data
        log := w.log ++ [.setAbiBin account false] } :=
  bind_run (abieosSetAbiBin_run lib h)

theorem loadContractAbi_run (account : Name) {w : World Abi} (hc : w.proc.Cached) :
    loadContractAbi lib account w =
      .ok (decide (account ∈ w.proc.contractAbiImported) || (w.lookupAbi account).isSome)
        { w with
          proc := w.proc.load lib account (w.lookupAbi account)
          log := w.log ++ (if account ∉ w.proc.contractAbiImported ∧
            (w.lookupAbi account).isSome then [.setAbiBin account false] else []) } := by
  have hfound : ∀ found : Option Bytes, account ∉ w.proc.contractAbiImported →
      (found.elim (pure false) (importContractAbi lib account) : Receiver Abi Bool) w =
        .ok found.isSome { w with
          proc := w.proc.load lib account found
          log := w.log ++ (if account ∉ w.proc.contractAbiImported ∧ found.isSome then
            [.setAbiBin account false] else []) } := by
    intro found himp
    rw [Proc.load, if_neg himp]
    cases found with
    | none =>
        rw [if_neg (by simp), List.append_nil]
        rfl
    | some data =>
        rw [if_pos ⟨himp, rfl⟩]
        exact importContractAbi_run lib (hc.find?_eq_none himp)
  by_cases himp : account ∈ w.proc.contractAbiImported
  · have hrun : loadContractAbi lib account w = .ok true w := by
      change (if account ∈ w.proc.contractAbiImported then _ else _ : Receiver Abi Bool) w = _
      rw [if_pos himp]
      rfl
    rw [hrun, Proc.load, if_pos himp, if_neg fun h ↦ h.1 himp, List.append_nil]
    simp [himp]
  · have hrun : loadContractAbi lib account w = ((w.lookupAbi account).elim (pure false)
        (importContractAbi lib account) : Receiver Abi Bool) w := by
      change (if account ∈ w.proc.contractAbiImported then _ else
        if w.options.interactiveMode then _ else _ : Receiver Abi Bool) w = _
      rw [if_neg himp, World.lookupAbi]
      split_ifs
      · cases lowerBoundRev w.db.current.contractAbiHistory account w.proc.head <;> rfl
      · cases w.db.current.contractAbi.find? account <;> rfl
    rw [hrun, hfound _ himp]
    simp [himp]

/-- `get_contract_abi_ready` looks only for accounts that were not imported yet. -/
theorem getContractAbiReady_run (account : Name) {w : World Abi} (hc : w.proc.Cached) :
    getContractAbiReady lib account w =
      .ok (decide (account ∈ w.proc.contractAbiImported) || (w.lookupAbi account).isSome)
        { w with
          proc := w.proc.load lib account (w.lookupAbi account)
          log := w.log ++ w.readyLog lib account } := by
  have hhead : (w.proc.load lib account (w.lookupAbi account)).head = w.proc.head :=
    Proc.member_eq (w.proc.load_core lib account _) Proc.head fun _ ↦ rfl
  refine (bind_run (loadContractAbi_run lib account hc)).trans ?_
  rw [World.readyLog, ← List.append_assoc, ← hhead]
  rfl

/-! ## The frame -/

/-- What the receiver does while block `h` is processed. -/
def Observation.Inside (h : Nat) : Observation Abi → Prop
  | .published e => e.Inside h
  | .setAbiBin _ present => present = false
  | .abiReady _ head _ => head = h
  | _ => False

/-- The world `w` is reached from `w₀` while a block is processed. -/
structure Within (w₀ w : World Abi) : Prop where
  options : w.options = w₀.options
  core : w.proc.core = w₀.proc.core
  base : w.db.base = w₀.db.base
  stack : w.db.stack = w₀.db.stack
  cached : w.proc.Cached
  log : ∃ l, w.log = w₀.log ++ l ∧ ∀ o ∈ l, o.Inside w₀.proc.head

namespace Within

variable {w₀ w : World Abi}

theorem refl (h : w.proc.Cached) : Within w w :=
  ⟨rfl, rfl, rfl, rfl, h, [], (List.append_nil _).symm, fun _ ho ↦ by cases ho⟩

/-- Any member that is not touched. -/
theorem member {α : Type} (h : Within w₀ w) (f : Proc Abi → α)
    (hf : ∀ p : Proc Abi, f p = f p.core) : f w.proc = f w₀.proc := Proc.member_eq h.core f hf

theorem head (h : Within w₀ w) : w.proc.head = w₀.proc.head := h.member Proc.head fun _ ↦ rfl

/-- One more observation. -/
theorem observe (h : Within w₀ w) {o : Observation Abi} (ho : o.Inside w₀.proc.head) :
    Within w₀ { w with log := w.log ++ [o] } := by
  obtain ⟨l, hl, hin⟩ := h.log
  refine ⟨h.options, h.core, h.base, h.stack, h.cached, l ++ [o], ?_, fun o' ho' ↦ ?_⟩
  · simp only [hl, List.append_assoc]
  · rcases List.mem_append.mp ho' with ho' | ho'
    · exact hin o' ho'
    · rwa [List.mem_singleton.mp ho']

/-- A change of the decoder and of the tables. -/
theorem change (h : Within w₀ w) {p : Proc Abi} (hp : p.core = w.proc.core) (hc : p.Cached)
    (f : Tables → Tables) : Within w₀ { w with proc := p, db := w.db.modify f } :=
  ⟨h.options, hp.trans h.core, h.base, h.stack, hc, h.log⟩

theorem trans {w₁ : World Abi} (h : Within w₀ w₁) (h' : Within w₁ w) : Within w₀ w := by
  obtain ⟨l, hl, hin⟩ := h.log
  obtain ⟨l', hl', hin'⟩ := h'.log
  refine ⟨h'.options.trans h.options, h'.core.trans h.core, h'.base.trans h.base,
    h'.stack.trans h.stack, h'.cached, l ++ l', ?_, fun o ho ↦ ?_⟩
  · rw [hl', hl, List.append_assoc]
  · rcases List.mem_append.mp ho with ho | ho
    · exact hin o ho
    · rw [← h.head]
      exact hin' o ho

end Within

/-- Within a block, with the given tables. -/
def WithinAt (w₀ : World Abi) (t : Tables) (w : World Abi) : Prop :=
  Within w₀ w ∧ w.db.current = t

namespace WithinAt

variable {w₀ w : World Abi} {t : Tables}

theorem publish (h : WithinAt w₀ t w) {e : Event} (he : e.Inside w₀.proc.head) :
    WithinAt w₀ t { w with log := w.log ++ [.published e] } :=
  ⟨h.1.observe he, h.2⟩

/-- A change of the decoder and of the tables. -/
theorem change (h : WithinAt w₀ t w) {p : Proc Abi} (hp : p.core = w.proc.core) (hc : p.Cached)
    (f : Tables → Tables) : WithinAt w₀ (f t) { w with proc := p, db := w.db.modify f } :=
  ⟨h.1.change hp hc f, congrArg f h.2⟩

end WithinAt

section Steps

variable {w₀ : World Abi} {t : Tables}

theorem returns_publish {e : Event} (he : e.Inside w₀.proc.head) :
    Returns (WithinAt w₀ t) (publish e) (WithinAt w₀ t) := fun _ hw ↦ hw.publish he

theorem returns_modifyTables (f : Tables → Tables) :
    Returns (WithinAt w₀ t) (modifyTables f) (WithinAt w₀ (f t)) :=
  fun _ hw ↦ hw.change rfl hw.1.cached f

theorem returns_initContractAbiCtxt :
    Returns (WithinAt w₀ t) initContractAbiCtxt
      fun w ↦ WithinAt w₀ t w ∧ w.proc.contractAbiCtxt = ∅ :=
  fun w hw ↦ ⟨hw.change (by rfl) w.proc.cached_init id, rfl⟩

theorem returns_saveContractAbiHistory (account : Name) (data : Bytes) :
    Returns (WithinAt w₀ t) (saveContractAbiHistory account data)
      (WithinAt w₀ (t.writeHistory w₀.proc.head account data)) := by
  refine Returns.get_bind fun w hw w' hw' ↦ ?_
  subst hw'
  rw [← hw.1.head]
  exact returns_modifyTables _ w' hw

/-- `clear_contract_abi` -/
theorem returns_clearContractAbi (account : Name) :
    Returns (WithinAt w₀ t) (clearContractAbi account)
      (WithinAt w₀ (t.clearAbi w₀.proc.head account)) := by
  refine Returns.get_bind fun w hw ↦ ?_
  have hh : w.proc.head = w₀.proc.head := hw.1.head
  refine Returns.ite_bind (Q := WithinAt w₀ t) (fun _ w' hw' ↦ ?_) (fun _ w' hw' ↦ hw' ▸ hw) ?_
  · subst hw'
    exact (returns_initContractAbiCtxt w' hw).mono (fun _ _ h ↦ h.1) fun _ _ h ↦ h
  · rw [Tables.clearAbi, hw.2]
    split_ifs
    · refine (returns_modifyTables _).bind fun _ ↦ (returns_publish ?_).bind fun _ ↦
        returns_saveContractAbiHistory account []
      exact congrArg some hh
    · exact fun _ h ↦ h

theorem returns_publishAbiError (account : Name) (what : String) :
    Returns (WithinAt w₀ t) (publishAbiError account what) (WithinAt w₀ t) := by
  refine Returns.get_bind fun w hw w' hw' ↦ ?_
  subst hw'
  refine returns_publish ?_ w' hw
  exact congrArg some hw.1.head

/-- Whatever comes of the `abi_def`, at most one event is published. -/
theorem returns_publishAbiUpdate (account : Name) (data : Bytes) :
    Returns (WithinAt w₀ t) (publishAbiUpdate lib account data) (WithinAt w₀ t) := by
  refine Returns.get_bind fun w hw w' hw' ↦ ?_
  subst hw'
  split_ifs
  · cases lib.fromBin data with
    | error what => exact returns_publishAbiError account what w' hw
    | ok _ =>
        refine returns_publish ?_ w' hw
        exact congrArg some hw.1.head
  · exact hw

/-- The `try` block of `save_contract_abi` for an account that the context does not know. -/
theorem returns_tryContractAbi (account : Name) (data : Bytes) :
    Returns
      (fun w ↦ WithinAt w₀ t w ∧ w.proc.contractAbiCtxt.find? account = none)
      (tryContractAbi lib account data)
      (WithinAt w₀
        (if (lib.convert data).isSome then
          { t with contractAbi := t.contractAbi.insert account data }
        else t)) := by
  intro w hw
  refine Ends.bind_ok (abieosSetAbiBin_run lib hw.2) ?_
  have hobs : (Observation.setAbiBin account false : Observation Abi).Inside w₀.proc.head := rfl
  cases hc : lib.convert data with
  | none =>
      refine returns_publishAbiError account (lib.getError data) _ ?_
      have hadd : lib.addAbi w.proc.contractAbiCtxt account data = w.proc.contractAbiCtxt := by
        rw [Abieos.addAbi, hc]
      rw [hadd]
      exact ⟨hw.1.1.observe hobs, hw.1.2⟩
  | some abi =>
      refine Ends.bind_ok rfl (Ends.bind_ok rfl (returns_publishAbiUpdate lib account data _ ?_))
      have hw' : WithinAt w₀ t { w with log := w.log ++ [.setAbiBin account false] } :=
        ⟨hw.1.1.observe hobs, hw.1.2⟩
      exact hw'.change (by rfl) (hw.1.1.cached.add lib account data)
        fun t ↦ { t with contractAbi := t.contractAbi.insert account data }

/-- `save_contract_abi` -/
theorem returns_saveContractAbi (account : Name) (data : Bytes) :
    Returns (WithinAt w₀ t) (saveContractAbi lib account data)
      (WithinAt w₀ (t.saveAbi lib w₀.proc.head account data)) := by
  refine Returns.get_bind fun w hw ↦ ?_
  refine Returns.ite_bind
    (Q := fun w ↦ WithinAt w₀ t w ∧ w.proc.contractAbiCtxt.find? account = none) ?_ ?_ ?_
  · intro _ w' hw'
    subst hw'
    refine (returns_initContractAbiCtxt w' hw).mono (fun _ w hc ↦ ⟨hc.1, ?_⟩) fun _ _ h ↦ h
    rw [hc.2, Table.find?_empty]
  · rintro hna w' rfl
    exact ⟨hw, hw.1.cached.find?_eq_none hna⟩
  · exact (returns_tryContractAbi lib account data).bind fun _ ↦
      returns_saveContractAbiHistory account data

/-- `get_contract_abi_ready` leaves the tables alone. -/
theorem returns_getContractAbiReady (account : Name) :
    Returns (WithinAt w₀ t) (getContractAbiReady lib account) (WithinAt w₀ t) := by
  intro w hw
  rw [getContractAbiReady_run lib account hw.1.cached]
  have hload : WithinAt w₀ t { w with proc := w.proc.load lib account (w.lookupAbi account) } :=
    hw.change (w.proc.load_core lib account _) (hw.1.cached.load lib account _) id
  obtain ⟨l, hl, hin⟩ := hw.1.log
  refine ⟨⟨hload.1.options, hload.1.core, hload.1.base, hload.1.stack, hload.1.cached,
    l ++ w.readyLog lib account, ?_, fun o ho ↦ ?_⟩, hload.2⟩
  · rw [← List.append_assoc, ← hl]
  · rcases List.mem_append.mp ho with ho | ho
    · exact hin o ho
    · rcases w.mem_readyLog ho with rfl | rfl
      · rfl
      · exact hw.1.head

end Steps

/-- Within a block, with the tables and the cache as they were. -/
def AnnouncedAt (w₀ : World Abi) (t : Tables) (w : World Abi) : Prop :=
  t = w₀.db.current ∧ WithinAt w₀ t w ∧ w.proc.SameCache w₀.proc

/-- The parts that only publish leave the tables and the cache alone. -/
theorem announcedRule (w₀ : World Abi) :
    EventRule w₀.options w₀.proc.head (AnnouncedAt w₀) where
  options h := h.2.1.1.options
  head h := h.2.1.1.head
  publish h he := ⟨h.1, h.2.1.publish he, h.2.2⟩
  header _ _ h :=
    ⟨h.1, ⟨⟨h.2.1.1.options, h.2.1.1.core, h.2.1.1.base, h.2.1.1.stack, h.2.1.1.cached,
      h.2.1.1.log⟩, h.2.1.2⟩, h.2.2⟩

/-- The frame is kept by all the parts of a block. -/
theorem withinRule (w₀ : World Abi) :
    BlockRule lib w₀.options w₀.proc.head (WithinAt w₀) where
  options h := h.1.options
  head h := h.1.head
  publish h he := h.publish he
  header _ _ h := ⟨⟨h.1.options, h.1.core, h.1.base, h.1.stack, h.1.cached, h.1.log⟩, h.2⟩
  set _ acc t := by
    rw [Tables.setAbi]
    split_ifs
    · exact returns_clearContractAbi acc.name
    · exact returns_saveContractAbi lib acc.name acc.abi
  ready account _ := returns_getContractAbiReady lib account

end Chronicle
