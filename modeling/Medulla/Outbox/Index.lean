import Medulla.Mutation.State

/-! # The commit-ordered topic index

The index over a scope's outbox rows, keyed by topic and position, and the bounded backfill that
indexes rows written before the index existed. A position's sequence is the scope version its batch
produced, so within a topic the index is commit order. -/

namespace Medulla.Outbox.Index

open Library.Checked Types.Batch Types.Records Mutation.State

variable {identity : MutationScopeIdentity}

/-- Greatest text key component of a range scan. -/
def maxTextSentinel : String := String.singleton (Char.ofNat 0x10FFFF)

/-- How many index rows one claim, ack or backfill may examine. -/
def maxClaimScanRows : ℕ := 8192

/-! ### Writing the index -/

def sequenceInWrite (record : MutationOutboxRecord) : Except String ℕ := do
  let sequence ← okOr record.commitSequence
    "CORRUPT_OUTBOX_SEQUENCE: outbox row has no commit sequence"
  require (record.committedVersion.target.all (· = sequence) = true)
    "CORRUPT_OUTBOX_SEQUENCE: version and commit sequence disagree"
  return sequence

def positionAt (record : MutationOutboxRecord) (sequence : ℕ) : OutboxPosition :=
  ⟨sequence, record.createdAtMs, record.batchId, record.ordinal⟩

def insertIndexRow (record : MutationOutboxRecord) (sequence : ℕ) (l : Ledger) : Ledger :=
  { l with topicIndex := l.topicIndex.insert ⟨record.intent.topic, positionAt record sequence⟩ () }

def indexOutboxRow (record : MutationOutboxRecord) (l : Ledger) : Except String Ledger := do
  let sequence ← sequenceInWrite record
  return insertIndexRow record sequence l

/-! ### Backfill state -/

/-- Whether the scope has an outbox row in the scanned primary range. -/
def hasOutboxRows (l : Ledger) : Bool := l.outbox.rows.any fun r => r.1 ≤ ⟨maxTextSentinel, u32Max⟩

def sequenceForBackfill (record : MutationOutboxRecord) : Except String ℕ := do
  let sequence ← okOr record.commitSequence
    "CORRUPT_OUTBOX_BACKFILL: outbox row has no reconstructable commit sequence"
  require (record.committedVersion.target.all (· = sequence) = true)
    "CORRUPT_OUTBOX_BACKFILL: version and commit sequence disagree"
  return sequence

def validateBackfillState (identity : MutationScopeIdentity) (state : IndexBackfillState)
    (l : Ledger) : Except String Unit :=
  match state.cursor with
  | none => .ok ()
  | some key => do
    let record ← okOr (l.outbox.get key)
      "CORRUPT_OUTBOX_BACKFILL: cursor names a missing primary row"
    require (record.identity = identity ∧ record.batchId = key.batchId ∧
        record.ordinal = key.ordinal)
      "CORRUPT_OUTBOX_BACKFILL: cursor does not match its primary row"
    mapError ("CORRUPT_OUTBOX_BACKFILL: " ++ ·) record.validate
    let _ ← sequenceForBackfill record
    return ()

/-- The backfill state in force; a scope without the row is complete only while it is empty. -/
def readBackfillState (identity : MutationScopeIdentity) (l : Ledger) :
    Except String IndexBackfillState :=
  match l.backfill with
  | none => .ok ⟨none, !hasOutboxRows l⟩
  | some state => do
    validateBackfillState identity state l
    return state

def backfillPending (identity : MutationScopeIdentity) (l : Ledger) : Except String Bool := do
  let state ← readBackfillState identity l
  return !state.complete

/-- Mark a scope written only by the current commit path as index-ready. -/
def markIndexReady (identity : MutationScopeIdentity) (l : Ledger) : Except String Ledger :=
  match l.backfill with
  | none =>
    if hasOutboxRows l then .ok l
    else .ok { l with backfill := some ⟨none, true⟩ }
  | some state => do
    validateBackfillState identity state l
    if state.complete then return { l with backfill := some ⟨none, true⟩ }
    else return l

/-! ### Scans -/

/-- One bounded scan, and whether it stopped early. -/
structure IndexPage where
  entries : List OutboxPosition
  truncated : Bool

def topicPositions (l : Ledger) (topic : String) : List OutboxPosition :=
  l.topicIndex.rows.filterMap fun r => if r.1.topic = topic then some r.1.position else none

def positionsAfter (l : Ledger) (topic : String) (after : Option OutboxPosition) :
    List OutboxPosition :=
  (topicPositions l topic).filter fun p => after.all (· < p)

def scanInWrite (topic : String) (after : Option OutboxPosition) (limit : ℕ) (l : Ledger) :
    IndexPage :=
  ⟨(positionsAfter l topic after).take limit, limit < (positionsAfter l topic after).length⟩

def positionExists (l : Ledger) (topic : String) (position : OutboxPosition) : Bool :=
  (l.topicIndex.get ⟨topic, position⟩).isSome

/-- The index entry right before a position, which must itself be indexed. -/
def predecessorInWrite (topic : String) (position : OutboxPosition) (l : Ledger) :
    Except String (Option OutboxPosition) := do
  require (positionExists l topic position = true)
    "CORRUPT_OUTBOX_INDEX: rewind target is absent from the topic index"
  return ((topicPositions l topic).filter (· < position)).getLast?

/-- The facts an index position claims about its primary row. -/
def validatePositionRecord (record : MutationOutboxRecord) (topic : String)
    (identity : MutationScopeIdentity) (position : OutboxPosition) : Except String Unit := do
  require (record.identity = identity)
    "outbox delivery row is not stamped with this scope identity"
  mapError ("CORRUPT_OUTBOX_INDEX: " ++ ·) record.validate
  let sequence ← okOr record.commitSequence
    "CORRUPT_OUTBOX_SEQUENCE: primary row has no commit sequence"
  require (record.batchId = position.batchId ∧ record.ordinal = position.ordinal ∧
      record.intent.topic = topic ∧ record.createdAtMs = position.createdAtMs ∧
      sequence = position.sequence ∧
      record.committedVersion.target.all (· = sequence) = true)
    "CORRUPT_OUTBOX_INDEX: position does not match its primary row"

def validatePosition (topic : String) (identity : MutationScopeIdentity)
    (position : OutboxPosition) (l : Ledger) : Except String Unit := do
  let record ← okOr (l.outbox.get position.row)
    "CORRUPT_OUTBOX_INDEX: position names a missing primary outbox row"
  validatePositionRecord record topic identity position
  require (positionExists l topic position = true)
    "CORRUPT_OUTBOX_INDEX: position is absent from the topic index"

def positionForRecord (topic : String) (record : MutationOutboxRecord) (l : Ledger) :
    Except String (Option OutboxPosition) := do
  let sequence ← sequenceInWrite record
  return if positionExists l topic (positionAt record sequence) then
    some (positionAt record sequence) else none

def validatePositions (topic : String) (identity : MutationScopeIdentity) (l : Ledger) :
    List OutboxPosition → Except String Unit
  | [] => .ok ()
  | p :: ps => do
    mapError ("CORRUPT_OUTBOX_INDEX: " ++ ·) (validatePosition topic identity p l)
    validatePositions topic identity l ps

/-- A bounded page whose every entry names a live primary row. -/
def scanValidatedPage (topic : String) (identity : MutationScopeIdentity)
    (after : Option OutboxPosition) (limit : ℕ) (l : Ledger) : Except String IndexPage := do
  validatePositions topic identity l (scanInWrite topic after limit l).entries
  return scanInWrite topic after limit l

/-! ### Backfill -/

structure OutboxBackfillOutcome where
  indexed : ℕ
  examined : ℕ
  complete : Bool

def backfillRow (identity : MutationScopeIdentity) (key : OutboxKey) (record : MutationOutboxRecord)
    (l : Ledger) : Except String (Bool × Ledger) := do
  mapError ("CORRUPT_OUTBOX_BACKFILL: " ++ ·) record.validate
  require (record.batchId = key.batchId ∧ record.ordinal = key.ordinal)
    "CORRUPT_OUTBOX_BACKFILL: primary key does not match outbox record"
  require (record.identity = identity)
    "CORRUPT_OUTBOX_BACKFILL: outbox delivery row is not stamped with this scope identity"
  let sequence ← sequenceForBackfill record
  if positionExists l record.intent.topic (positionAt record sequence) then return (false, l)
  else return (true, insertIndexRow record sequence l)

def backfillRows (identity : MutationScopeIdentity) :
    List (OutboxKey × MutationOutboxRecord) → ℕ → Option OutboxKey → Ledger →
      Except String (ℕ × Option OutboxKey × Ledger)
  | [], indexed, last, l => .ok (indexed, last, l)
  | (key, record) :: rest, indexed, _, l => do
    let (fresh, l) ← backfillRow identity key record l
    backfillRows identity rest (if fresh then indexed + 1 else indexed) (some key) l

def backfillRemaining (state : IndexBackfillState) (l : Ledger) :
    List (OutboxKey × MutationOutboxRecord) :=
  l.outbox.rows.filter fun r => state.cursor.all (· < r.1) && (r.1 ≤ ⟨maxTextSentinel, u32Max⟩)

def backfillPage (identity : MutationScopeIdentity) (l : Ledger) :
    Except String (OutboxBackfillOutcome × Ledger) := do
  let state ← readBackfillState identity l
  let rows := backfillRemaining state l
  let page := rows.take maxClaimScanRows
  let (indexed, last, l) ← backfillRows identity page 0 state.cursor l
  let complete := rows.length ≤ maxClaimScanRows
  return (⟨indexed, page.length, complete⟩, { l with backfill := some ⟨last, complete⟩ })

theorem backfillRow_frame {key : OutboxKey} {record : MutationOutboxRecord} {fresh : Bool}
    {l l' : Ledger} (h : backfillRow identity key record l = .ok (fresh, l')) :
    l' = { l with topicIndex := l'.topicIndex } := by
  unfold backfillRow at h
  simp only [bind_eq_ok] at h
  obtain ⟨_, -, _, -, _, -, sequence, -, h⟩ := h
  split_ifs at h
  · rw [← (Prod.mk.inj (pure_eq_ok.mp h)).2]
  · rw [← (Prod.mk.inj (pure_eq_ok.mp h)).2]
    rfl

theorem backfillRows_frame :
    ∀ {rows : List (OutboxKey × MutationOutboxRecord)} {n : ℕ} {last : Option OutboxKey}
      {l l' : Ledger} {r : ℕ × Option OutboxKey},
      backfillRows identity rows n last l = .ok (r.1, r.2, l') →
        l' = { l with topicIndex := l'.topicIndex }
  | [], _, _, l, l', _, h => by
    obtain ⟨-, h⟩ := Prod.mk.inj (Except.ok.inj h)
    rw [(Prod.mk.inj h).2]
  | (key, record) :: rest, n, last, l, l', r, h => by
    obtain ⟨⟨fresh, l₁⟩, h1, h2⟩ := unbind h
    have hrest := backfillRows_frame (r := r) h2
    have hrow := backfillRow_frame h1
    rw [hrest, hrow]

theorem backfillPage_frame {outcome : OutboxBackfillOutcome} {l l' : Ledger}
    (h : backfillPage identity l = .ok (outcome, l')) :
    l' = { l with topicIndex := l'.topicIndex, backfill := l'.backfill } := by
  unfold backfillPage at h
  simp only [bind_eq_ok] at h
  obtain ⟨state, -, ⟨n, last, l₁⟩, h1, h⟩ := h
  rw [← (Prod.mk.inj (pure_eq_ok.mp h)).2]
  have hrows := backfillRows_frame (r := (n, last)) h1
  rw [hrows]

end Medulla.Outbox.Index
