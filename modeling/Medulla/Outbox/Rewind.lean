import Medulla.Outbox.Cursor

/-! # Rewinding a consumer

A rewind re-delivers everything from its target on, in bounded steps. Its first step moves both
cursors to the target's predecessor and leaves a control row that fences the other delivery
operations; each further step deletes one page of delivery rows, and the last one takes the control
row away. -/

namespace Medulla.Outbox.Rewind

open Library.Checked Types.Batch Types.Records Mutation.State Outbox.Index Rows

inductive OutboxRewindTarget
  | start
  | at (position : OutboxPosition)

structure OutboxRewindOutcome where
  complete : Bool
  deleted : ℕ

def OutboxRewindTarget.position : OutboxRewindTarget → Option OutboxPosition
  | .start => none
  | .at p => some p

/-! ### The first step -/

def targetPredecessor (topic : String) (identity : MutationScopeIdentity)
    (target : OutboxRewindTarget) (l : Ledger) : Except String (Option OutboxPosition) :=
  match target with
  | .start => .ok none
  | .at p => do
    mapError ("CORRUPT_OUTBOX_REWIND: " ++ ·) (validatePosition topic identity p l)
    predecessorInWrite topic p l

def rewindWatermark (identity : MutationScopeIdentity) (consumer : String)
    (predecessor : Option OutboxPosition) (nowMs : ℕ) (l : Ledger) : Except String Ledger := do
  let claimCursor ← readClaimCursor consumer l
  let moved : OutboxClaimCursor :=
    { claimCursor with resolvedThrough := predecessor, ackedThrough := predecessor }
  match predecessor with
  | some p =>
    let record ← readOutboxRow p l
    let cursor ← buildCursor consumer record nowMs
    require (cursor.identity = identity)
      "outbox delivery row is not stamped with this scope identity"
    return writeClaimCursor consumer moved { l with cursors := l.cursors.insert consumer cursor }
  | none => return writeClaimCursor consumer moved { l with cursors := l.cursors.remove consumer }

/-- Start a rewind: roll the watermark back, zero the in-flight counter, write the control row. -/
def prepareRewind (identity : MutationScopeIdentity) (consumer : String)
    (target : OutboxRewindTarget) (nowMs : ℕ) (l : Ledger) : Except String Ledger := do
  let topic ← subscribedTopic consumer l
  let predecessor ← targetPredecessor topic identity target l
  let l ← rewindWatermark identity consumer predecessor nowMs l
  let state ← readConsumerState consumer l
  let l := writeConsumerState consumer { state with inflight := 0 } l
  return { l with
    rewindCursors := l.rewindCursors.insert consumer ⟨target.position, predecessor⟩ }

/-! ### The delete walk -/

/-- Delete the delivery rows of a page, whatever their state, and count them. -/
def deleteDeliveries (consumer : String) : List OutboxPosition → ℕ → Ledger → ℕ × Ledger
  | [], deleted, l => (deleted, l)
  | p :: ps, deleted, l =>
    if (deliveryAt l consumer p).isSome then
      deleteDeliveries consumer ps (deleted + 1) (removeDelivery consumer p.row l)
    else deleteDeliveries consumer ps deleted l

def deleteStep (identity : MutationScopeIdentity) (consumer : String) (cursor : RewindCursor)
    (l : Ledger) : Except String (OutboxRewindOutcome × Ledger) := do
  let topic ← subscribedTopic consumer l
  let page ← scanValidatedPage topic identity cursor.position maxClaimScanRows l
  let (deleted, l) := deleteDeliveries consumer page.entries 0 l
  if page.truncated then
    return (⟨false, deleted⟩, { l with
      rewindCursors := l.rewindCursors.insert consumer ⟨cursor.target, page.entries.getLast?⟩ })
  else
    return (⟨true, deleted⟩, { l with rewindCursors := l.rewindCursors.remove consumer })

def rewind (identity : MutationScopeIdentity) (consumer : String) (target : OutboxRewindTarget)
    (nowMs : ℕ) (l : Ledger) : Except String (OutboxRewindOutcome × Ledger) := do
  validateConsumer consumer
  ensureNotGraftFenced l
  match l.rewindCursors.get consumer with
  | some cursor => deleteStep identity consumer cursor l
  | none =>
    let l ← prepareRewind identity consumer target nowMs l
    return (⟨false, 0⟩, l)

end Medulla.Outbox.Rewind
