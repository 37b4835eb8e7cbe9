import Chronicle.Model.Process

/-!
# What a block does to the tables

The effect of a block on the four tables as functions on tables, without process, cache
or channels, and the parts of a result that have to be readable for the block to be
processed.  That the receiver computes these functions is proved in `Block.Rule` and
`Block.Process`; everything about whole runs is then about them.
-/

namespace Chronicle

open Store

variable {Abi : Type} (lib : Abieos Abi)

/-! ## Contract ABIs -/

namespace Tables

/-- Write the history row of an account at a block. -/
def writeHistory (h : Nat) (account : Name) (data : Bytes) (t : Tables) : Tables :=
  { t with contractAbiHistory := t.contractAbiHistory.insert (toLex (account, h)) data }

/-- The ABI of an account is removed at block `h`. -/
def clearAbi (h : Nat) (account : Name) (t : Tables) : Tables :=
  if (t.contractAbi.find? account).isSome then
    writeHistory h account [] { t with contractAbi := t.contractAbi.erase account }
  else t

/-- The ABI of an account is set at block `h`: bytes without a meaning only go to the
history. -/
def saveAbi (h : Nat) (account : Name) (data : Bytes) (t : Tables) : Tables :=
  writeHistory h account data
    (if (lib.convert data).isSome then
      { t with contractAbi := t.contractAbi.insert account data }
    else t)

/-- An account is created or updated at block `h`. -/
def setAbi (h : Nat) (acc : AccountV0) (t : Tables) : Tables :=
  if acc.abi = [] then clearAbi h acc.name t else saveAbi lib h acc.name acc.abi t

end Tables

/-- The account that a row of the `account` table sets, if any. -/
def accountOf (row : Row AccountV0) : Option AccountV0 :=
  if row.present then row.data.toOption else none

/-- The accounts that a delta sets, in order. -/
def TableDelta.accounts : TableDelta → List AccountV0
  | .account rows => rows.filterMap accountOf
  | _ => []

/-- The accounts that a result sets, in order. -/
def GetBlocksResult.accounts (result : GetBlocksResult) : List AccountV0 :=
  ((result.deltas.getD []).filterMap Except.toOption).flatMap TableDelta.accounts

namespace Tables

/-- Accounts are created or updated one after the other at block `h`. -/
def setAbis (h : Nat) (accounts : List AccountV0) (t : Tables) : Tables :=
  accounts.foldl (fun t acc ↦ setAbi lib h acc t) t

/-! ## Received blocks -/

/-- A new block above the irreversible one enters the list of received blocks, and the
blocks below the irreversible one leave it. -/
def addReceived (block : BlockPosition) (irreversible : Nat) (t : Tables) : Tables :=
  if irreversible < block.blockNum then
    { t with
      receivedBlocks :=
        (t.receivedBlocks.insert block.blockNum block.blockId).filter fun k _ ↦
          irreversible ≤ k }
  else t

end Tables

/-- The state object that a result leaves. -/
def stateOf (block : BlockPosition) (result : GetBlocksResult) : StateObject :=
  { head := block.blockNum, headId := block.blockId,
    irreversible := result.lastIrreversible.blockNum,
    irreversibleId := result.lastIrreversible.blockId }

/-- The tables after a block, given those before it. -/
def blockEffect (block : BlockPosition) (result : GetBlocksResult) (t : Tables) : Tables :=
  { (t.addReceived block result.lastIrreversible.blockNum).setAbis lib block.blockNum
      result.accounts with
    state := some (stateOf block result) }

namespace Tables

@[simp] theorem setAbis_nil (h : Nat) (t : Tables) : t.setAbis lib h [] = t := rfl

@[simp] theorem setAbis_cons (h : Nat) (acc : AccountV0) (accounts : List AccountV0)
    (t : Tables) :
    t.setAbis lib h (acc :: accounts) = (t.setAbi lib h acc).setAbis lib h accounts := rfl

theorem setAbis_append (h : Nat) (l₁ l₂ : List AccountV0) (t : Tables) :
    t.setAbis lib h (l₁ ++ l₂) = (t.setAbis lib h l₁).setAbis lib h l₂ := List.foldl_append

@[simp] theorem setAbis_singleton (h : Nat) (acc : AccountV0) (t : Tables) :
    t.setAbis lib h [acc] = t.setAbi lib h acc := rfl

/-- Setting an ABI touches neither the state object nor the list of received blocks. -/
theorem setAbi_frame (h : Nat) (acc : AccountV0) (t : Tables) :
    (t.setAbi lib h acc).state = t.state ∧
      (t.setAbi lib h acc).receivedBlocks = t.receivedBlocks := by
  rw [setAbi]
  split_ifs
  · rw [clearAbi]
    split_ifs <;> exact ⟨rfl, rfl⟩
  · rw [saveAbi]
    split_ifs <;> exact ⟨rfl, rfl⟩

theorem setAbis_frame (h : Nat) (accounts : List AccountV0) (t : Tables) :
    (t.setAbis lib h accounts).state = t.state ∧
      (t.setAbis lib h accounts).receivedBlocks = t.receivedBlocks := by
  induction accounts generalizing t with
  | nil => exact ⟨rfl, rfl⟩
  | cons acc accounts ih =>
      obtain ⟨hs, hr⟩ := setAbi_frame lib h acc t
      obtain ⟨hs', hr'⟩ := ih (t.setAbi lib h acc)
      exact ⟨hs'.trans hs, hr'.trans hr⟩

theorem addReceived_frame (block : BlockPosition) (irreversible : Nat) (t : Tables) :
    (t.addReceived block irreversible).contractAbi = t.contractAbi ∧
      (t.addReceived block irreversible).contractAbiHistory = t.contractAbiHistory := by
  rw [addReceived]
  split_ifs <;> exact ⟨rfl, rfl⟩

end Tables

@[simp] theorem blockEffect_state (block : BlockPosition) (result : GetBlocksResult)
    (t : Tables) : (blockEffect lib block result t).state = some (stateOf block result) := rfl

theorem blockEffect_receivedBlocks (block : BlockPosition) (result : GetBlocksResult)
    (t : Tables) :
    (blockEffect lib block result t).receivedBlocks =
      (t.addReceived block result.lastIrreversible.blockNum).receivedBlocks :=
  (Tables.setAbis_frame lib _ _ _).2

/-! ## What has to be readable -/

/-- Whether a row can be unpacked. -/
def Row.Readable {α : Type} (row : Row α) : Prop := row.variant.isOk ∧ row.data.isOk

/-- The rows of a delta that the receiver unpacks can be unpacked. -/
def TableDelta.Readable (o : Options) : TableDelta → Prop
  | .account rows =>
    o.interactiveMode = false →
      ∀ row ∈ rows, row.variant.isOk ∧ (row.present = true → row.data.isOk)
  | .contractRow rows => exportsContractRows o → ∀ row ∈ rows, row.Readable
  | .permission rows =>
    exportsAccountInfo o o.subscribers.permissionUpdates → ∀ row ∈ rows, row.Readable
  | .permissionLink rows =>
    exportsAccountInfo o o.subscribers.permissionLinkUpdates → ∀ row ∈ rows, row.Readable
  | .accountMetadata rows =>
    exportsAccountInfo o o.subscribers.accountMetadataUpdates → ∀ row ∈ rows, row.Readable
  | .other _ => True

/-- A delta of a result can be unpacked, with the rows that the receiver unpacks. -/
def ReadableDelta (o : Options) (bin : Parsed TableDelta) : Prop :=
  ∃ delta, bin = .ok delta ∧ delta.Readable o

namespace GetBlocksResult

/-- The block of a result can be unpacked, if there is one. -/
def ReadableBlock (result : GetBlocksResult) : Prop :=
  ∀ bin, result.block = some bin → bin.isOk

/-- The deltas of a result can be unpacked, if there are any. -/
def ReadableDeltas (o : Options) (result : GetBlocksResult) : Prop :=
  ∀ bin, result.deltas = some bin → ∀ delta ∈ bin, ReadableDelta o delta

/-- The traces of a result can be unpacked, if there are any and somebody listens. -/
def ReadableTraces (o : Options) (result : GetBlocksResult) : Prop :=
  ∀ bin, result.traces = some bin → o.subscribers.transactionTraces = true →
    ∀ trace ∈ bin, trace.isOk

end GetBlocksResult

end Chronicle
