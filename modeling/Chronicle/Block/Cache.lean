import Chronicle.Block.Frame

/-!
# The cache of decoded ABIs in scan mode

The receiver keeps the decoded ABIs of some accounts.  The cache is coherent with the table
of current ABIs (`Coherent`) while a block is processed: before the row of an account
changes, the whole cache is thrown away if it knows the account.
-/

namespace Chronicle

open Store Effect

variable {Abi : Type} (lib : Abieos Abi)

/-- Every current ABI can be decoded. -/
def AbisDecode (t : Tables) : Prop :=
  ∀ a data, t.contractAbi.find? a = some data → (lib.convert data).isSome

/-- The imported accounts are those of the context, and each has its current ABI there;
every current ABI can be decoded. -/
structure Coherent (p : Proc Abi) (t : Tables) : Prop where
  imported : ∀ a, a ∈ p.contractAbiImported ↔ (p.contractAbiCtxt.find? a).isSome
  decoded : ∀ a abi, p.contractAbiCtxt.find? a = some abi →
    ∃ data, t.contractAbi.find? a = some data ∧ lib.convert data = some abi
  rows : AbisDecode lib t

/-! ## Programs that change the cache -/

/-- The cache before the ABI of an account changes. -/
def Proc.drop (p : Proc Abi) (account : Name) : Proc Abi :=
  if account ∈ p.contractAbiImported then p.cleared else p

theorem Proc.Cached.drop {p : Proc Abi} (h : p.Cached) (account : Name) :
    (p.drop account).contractAbiCtxt.find? account = none := by
  rw [Proc.drop]
  split_ifs with himp
  · exact Table.find?_empty account
  · exact h.find?_eq_none himp

/-- A program that leaves the process alone. -/
def KeepsProc (m : Receiver Abi Unit) : Prop :=
  ∀ p, Returns (fun w ↦ w.proc = p) m fun w ↦ w.proc = p

theorem keepsProc_publishAbiError (account : Name) (what : String) :
    KeepsProc (publishAbiError account what : Receiver Abi Unit) := fun _ _ h ↦ h

theorem keepsProc_publishAbiUpdate (account : Name) (data : Bytes) :
    KeepsProc (publishAbiUpdate lib account data) := by
  refine fun p ↦ Returns.get_bind fun w hw w' hw' ↦ ?_
  subst hw'
  split_ifs
  · cases lib.fromBin data with
    | error what => exact keepsProc_publishAbiError account what p w' hw
    | ok _ => exact hw
  · exact hw

theorem keepsProc_saveContractAbiHistory (account : Name) (data : Bytes) :
    KeepsProc (saveContractAbiHistory account data : Receiver Abi Unit) := fun _ _ h ↦ h

/-- The first statement of both functions that change an ABI. -/
theorem returns_dropAbi {p : Proc Abi} (account : Name) {n : World Abi → Unit → Receiver Abi Unit}
    {Q : World Abi → Prop} (hn : ∀ w, Returns (fun w ↦ w.proc = p.drop account) (n w ()) Q) :
    Returns (fun w ↦ w.proc = p)
      (get >>= fun w ↦ if account ∈ w.proc.contractAbiImported then
        initContractAbiCtxt >>= n w else n w ()) Q := by
  refine Returns.get_bind fun w hw ↦ ?_
  subst hw
  refine Returns.ite_bind (Q := fun w' ↦ w'.proc = w.proc.drop account) (fun himp w' hw' ↦ ?_)
    (fun himp w' hw' ↦ ?_) (hn w)
  · subst hw'
    change w'.proc.cleared = _
    rw [Proc.drop, if_pos himp]
  · rw [hw', Proc.drop, if_neg himp]

theorem returns_clearContractAbi_proc (account : Name) (p : Proc Abi) :
    Returns (fun w ↦ w.proc = p) (clearContractAbi account) fun w ↦ w.proc = p.drop account := by
  refine returns_dropAbi account fun w ↦ ?_
  split_ifs
  · exact fun _ h ↦ h
  · exact fun _ h ↦ h

/-- The cache after bytes of an account were saved. -/
def Proc.saveAbi (p : Proc Abi) (account : Name) (data : Bytes) : Proc Abi :=
  if (lib.convert data).isSome then (p.drop account).withAbi lib account data
  else p.drop account

theorem returns_saveContractAbi_proc (account : Name) (data : Bytes) {p : Proc Abi}
    (hc : p.Cached) :
    Returns (fun w ↦ w.proc = p) (saveContractAbi lib account data)
      fun w ↦ w.proc = p.saveAbi lib account data := by
  refine returns_dropAbi account fun w ↦ ?_
  refine Returns.bind (Q := fun w ↦ w.proc = p.saveAbi lib account data) ?_ fun _ ↦
    keepsProc_saveContractAbiHistory account data _
  intro w' hw'
  refine Ends.bind_ok (abieosSetAbiBin_run lib (by rw [hw']; exact hc.drop account)) ?_
  rw [Proc.saveAbi]
  cases hdata : lib.convert data with
  | none =>
      have hadd : lib.addAbi w'.proc.contractAbiCtxt account data = w'.proc.contractAbiCtxt := by
        rw [Abieos.addAbi, hdata]
      refine keepsProc_publishAbiError account (lib.getError data) _ _ ?_
      change ({ w'.proc with
        contractAbiCtxt := lib.addAbi w'.proc.contractAbiCtxt account data } : Proc Abi) = _
      rw [hadd, if_neg (by simp)]
      exact hw'
  | some abi =>
      refine Ends.bind_ok rfl (Ends.bind_ok rfl ?_)
      refine keepsProc_publishAbiUpdate lib account data _ _ ?_
      change w'.proc.withAbi lib account data = _
      rw [Option.isSome_some, if_pos rfl, hw']

/-! ## Coherence -/

section Coherence

variable {lib} {p p' : Proc Abi} {t t' : Tables} {account : Name} {data : Bytes}

theorem coherent_of_empty (hctxt : p.contractAbiCtxt = ∅) (himp : p.contractAbiImported = ∅)
    (hrows : AbisDecode lib t) : Coherent lib p t :=
  ⟨fun a ↦ by simp [hctxt, himp], fun a abi h ↦ (by simp [hctxt] at h), hrows⟩

theorem Coherent.congr (h : Coherent lib p t) (hp : p'.SameCache p)
    (ht : t'.contractAbi = t.contractAbi) : Coherent lib p' t' := by
  refine ⟨?_, ?_, ?_⟩
  · rw [hp.1, hp.2]
    exact h.imported
  · rw [hp.1, ht]
    exact h.decoded
  · rw [AbisDecode, ht]
    exact h.rows

theorem Coherent.cached (h : Coherent lib p t) : p.Cached := fun a ha ↦ (h.imported a).mpr ha

/-- The cache is dropped if it knows the account, and otherwise the row of the account does
not matter. -/
theorem Coherent.drop (h : Coherent lib p t)
    (hother : ∀ a, a ≠ account → t'.contractAbi.find? a = t.contractAbi.find? a)
    (hrow : ∀ data, t'.contractAbi.find? account = some data → (lib.convert data).isSome) :
    Coherent lib (p.drop account) t' := by
  have hrows : AbisDecode lib t' := by
    intro a data hf
    by_cases ha : a = account
    · exact hrow data (ha ▸ hf)
    · exact h.rows a data (hother a ha ▸ hf)
  rw [Proc.drop]
  split_ifs with himp
  · exact coherent_of_empty rfl rfl hrows
  · refine ⟨h.imported, fun a abi hf ↦ ?_, hrows⟩
    have hne : a ≠ account := by
      rintro rfl
      exact himp ((h.imported a).mpr (by rw [hf]; rfl))
    rw [hother a hne]
    exact h.decoded a abi hf

/-- The row of an account that the cache does not know is loaded. -/
theorem Coherent.withAbi (h : Coherent lib p t)
    (hnone : p.contractAbiCtxt.find? account = none)
    (hrow : t.contractAbi.find? account = some data) :
      Coherent lib (p.withAbi lib account data) t := by
  have hfind : ∀ a, (p.withAbi lib account data).contractAbiCtxt.find? a =
      if a = account then lib.convert data else p.contractAbiCtxt.find? a :=
    lib.find?_addAbi hnone data
  refine ⟨fun a ↦ ?_, fun a abi hf ↦ ?_, h.rows⟩
  · rw [hfind a, Proc.withAbi, Finset.mem_insert]
    split_ifs with ha
    · exact iff_of_true (.inl ha) (h.rows account data hrow)
    · exact (or_iff_right ha).trans (h.imported a)
  · rw [hfind a] at hf
    split_ifs at hf with ha
    · exact ⟨data, ha ▸ hrow, hf⟩
    · exact h.decoded a abi hf

theorem Coherent.load (h : Coherent lib p t) (account : Name) :
    Coherent lib (p.load lib account (t.contractAbi.find? account)) t := by
  rw [Proc.load]
  split_ifs with himp
  · exact h
  · cases hf : t.contractAbi.find? account with
    | none => exact h
    | some data => exact h.withAbi (h.cached.find?_eq_none himp) hf

theorem Coherent.clearAbi (h : Coherent lib p t) (n : Nat) (account : Name) :
    Coherent lib (p.drop account) (t.clearAbi n account) := by
  rw [Tables.clearAbi]
  split_ifs
  · refine h.drop (fun a ha ↦ Table.find?_erase_of_ne _ ha) fun data hf ↦ ?_
    rw [Tables.writeHistory, Table.find?_erase_self] at hf
    cases hf
  · exact h.drop (fun _ _ ↦ rfl) (h.rows account)

theorem Coherent.saveAbi (h : Coherent lib p t) (n : Nat) (account : Name) (data : Bytes) :
    Coherent lib (p.saveAbi lib account data) (t.saveAbi lib n account data) := by
  rw [Proc.saveAbi, Tables.saveAbi]
  split_ifs with hdata
  · have hdrop : Coherent lib (p.drop account)
        (({ t with contractAbi := t.contractAbi.insert account data } : Tables).writeHistory n
          account data) := by
      refine h.drop (fun a ha ↦ Table.find?_insert_of_ne _ _ ha) fun data' hf ↦ ?_
      rw [Tables.writeHistory, Table.find?_insert_self] at hf
      exact Option.some.inj hf ▸ hdata
    exact hdrop.withAbi (h.cached.drop account) (Table.find?_insert_self ..)
  · exact h.drop (fun _ _ ↦ rfl) (h.rows account)

theorem AbisDecode.setAbi (h : AbisDecode lib t) (n : Nat) (acc : AccountV0) :
    AbisDecode lib (t.setAbi lib n acc) := by
  have hempty : Coherent lib {} t := coherent_of_empty rfl rfl h
  rw [Tables.setAbi]
  split_ifs
  · exact (hempty.clearAbi n acc.name).rows
  · exact (hempty.saveAbi n acc.name acc.abi).rows

end Coherence

/-! ## The rule -/

/-- The frame of a block, with a cache that is coherent if it was at the start. -/
def CoherentAt (w₀ : World Abi) (t : Tables) (w : World Abi) : Prop :=
  WithinAt w₀ t w ∧ (w₀.options.interactiveMode = false →
    Coherent lib w₀.proc w₀.db.current → Coherent lib w.proc t)

/-- A change of the tables that leaves the current ABIs alone. -/
theorem returns_modifyTables_coherent {w₀ : World Abi} {t : Tables} {f : Tables → Tables}
    (hf : (f t).contractAbi = t.contractAbi) :
    Returns (CoherentAt lib w₀ t) (modifyTables f) (CoherentAt lib w₀ (f t)) := fun w hw ↦
  ⟨returns_modifyTables f w hw.1, fun hscan h ↦ (hw.2 hscan h).congr ⟨rfl, rfl⟩ hf⟩

/-- Coherence is kept by all the parts of a block. -/
theorem coherentRule (w₀ : World Abi) :
    BlockRule lib w₀.options w₀.proc.head (CoherentAt lib w₀) where
  options h := (withinRule lib w₀).options h.1
  head h := (withinRule lib w₀).head h.1
  publish h he := ⟨(withinRule lib w₀).publish h.1 he, h.2⟩
  header header n h := ⟨(withinRule lib w₀).header header n h.1, fun hscan hw ↦
    (h.2 hscan hw).congr ⟨rfl, rfl⟩ rfl⟩
  set hscan acc t := by
    intro w hw
    have hset := (withinRule lib w₀).set hscan acc t w hw.1
    rw [Tables.setAbi] at hset ⊢
    split_ifs at hset ⊢ with hempty
    · have hproc := returns_clearContractAbi_proc acc.name w.proc w rfl
      refine (hset.and hproc).mono (fun _ w' h ↦ ⟨h.1, fun hscan hw₀ ↦ ?_⟩) fun _ _ h ↦ h.1
      rw [h.2]
      exact (hw.2 hscan hw₀).clearAbi _ acc.name
    · have hproc := returns_saveContractAbi_proc lib acc.name acc.abi hw.1.1.cached w rfl
      refine (hset.and hproc).mono (fun _ w' h ↦ ⟨h.1, fun hscan hw₀ ↦ ?_⟩) fun _ _ h ↦ h.1
      rw [h.2]
      exact (hw.2 hscan hw₀).saveAbi _ acc.name acc.abi
  ready account t := by
    intro w hw
    have hready := (withinRule lib w₀).ready account t w hw.1
    rw [getContractAbiReady_run lib account hw.1.1.cached] at hready ⊢
    refine ⟨hready, fun hscan hw₀ ↦ ?_⟩
    have hlookup : w.lookupAbi account = t.contractAbi.find? account := by
      rw [World.lookupAbi, hw.1.1.options, hscan, ← hw.1.2]
      rfl
    rw [hlookup]
    exact (hw.2 hscan hw₀).load account

end Chronicle
