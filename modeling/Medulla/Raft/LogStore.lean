import Medulla.Library.OrderedTable
import Medulla.Library.Transaction
import Mathlib.Order.Nat

/-! # The log store of a Raft group

The log of a group is a table of entries by index beside a metadata row with the last purged log id. A
running store keeps that id in memory as well and answers from there. An append, a truncation and each
of the two writes of a purge are durable writes of their own, and a restart may come between any two of
them: it loses what is in memory and reads the metadata row again. -/

namespace Medulla.Raft.LogStore

open Library Library.Checked Library.OrderedTable

/-! ### Entries -/

structure LogId where
  term : ℕ
  index : ℕ
  deriving DecidableEq

structure Entry (α : Type) where
  logId : LogId
  payload : α

def maxRaftLogBatchEntries : ℕ := 100000

def maxRaftLogEntryBytes : ℕ := 256 * 1024 * 1024 - 1024 * 1024

def maxRaftSnapshotBytes : ℕ := maxRaftLogEntryBytes

def maxRaftLogReadBytes : ℕ := 1024 * 1024 * 1024

/-- The encoding of entries: how many bytes it takes, and whether it is well formed within the item
limits. -/
structure Codec (α : Type) where
  bytes : Entry α → ℕ
  bounded : Entry α → Bool

section
variable {α : Type}

/-! ### States -/

/-- What survives a restart: the entries and the purge mark. -/
structure Disk (α : Type) where
  log : Table ℕ (Entry α)
  purged : Option LogId

/-- The disk with the purge mark held in memory. -/
structure Store (α : Type) where
  disk : Disk α
  lastPurgedLogId : Option LogId

def reopen (disk : Disk α) : Store α := ⟨disk, disk.purged⟩

def Store.fresh : Store α := reopen ⟨.empty, none⟩

/-! ### Reads -/

inductive Bound
  | included (index : ℕ)
  | excluded (index : ℕ)
  | unbounded

structure Range where
  start : Bound
  stop : Bound

def inclusiveBounds (range : Range) : ℕ × ℕ :=
  let lo := match range.start with
    | .included i => i
    | .excluded i => saturatingAdd u64Max i 1
    | .unbounded => 0
  let hi := match range.stop with
    | .included i => i
    | .excluded i => i - 1
    | .unbounded => u64Max
  (lo, hi)

def totalBytes (codec : Codec α) (entries : List (Entry α)) : ℕ := (entries.map codec.bytes).sum

/-- The entries with an index in a closed interval, in index order. -/
def rowsBetween (log : Table ℕ (Entry α)) (lo hi : ℕ) : List (Entry α) :=
  (log.rows.filter fun row => lo ≤ row.1 && row.1 ≤ hi).map Prod.snd

/-- The entries between two indices, within the read budget. -/
def raftLogRead (codec : Codec α) (log : Table ℕ (Entry α)) (lo hi : ℕ) :
    Except String (List (Entry α)) := do
  let entries := rowsBetween log lo hi
  rejectIf (maxRaftLogBatchEntries < entries.length ∨ maxRaftLogReadBytes < totalBytes codec entries)
    "raft log read exceeds resource limits"
  return entries

/-- **The entries of a range.** -/
def tryGetLogEntries (codec : Codec α) (range : Range) (s : Store α) :
    Except String (List (Entry α)) := do
  let (lo, hi) := inclusiveBounds range
  if hi < lo then return []
  let blobs ← raftLogRead codec s.disk.log lo hi
  rejectIf (maxRaftLogBatchEntries < blobs.length ∨ maxRaftSnapshotBytes < totalBytes codec blobs)
    "raft log read exceeds resource limits"
  return blobs

structure LogState where
  lastPurgedLogId : Option LogId
  lastLogId : Option LogId
  deriving DecidableEq

/-- **The ends of the log**: the id of the last stored entry, or else the last purged one. -/
def getLogState (s : Store α) : LogState :=
  let lastEntry := s.disk.log.rows.getLast?
  ⟨s.lastPurgedLogId, match lastEntry with
    | none => s.lastPurgedLogId
    | some row => some row.2.logId⟩

/-! ### Writes -/

def encodeBatch (codec : Codec α) : List (Entry α) → ℕ → ℕ → Except String Unit
  | [], _, _ => .ok ()
  | entry :: rest, length, bytes => do
    rejectIf (maxRaftLogBatchEntries ≤ length) "raft log batch exceeds resource limits"
    rejectIf (codec.bounded entry = false ∨ maxRaftLogEntryBytes < codec.bytes entry)
      "raft value is invalid or exceeds resource limits"
    rejectIf (maxRaftSnapshotBytes < bytes + codec.bytes entry)
      "raft log batch exceeds resource limits"
    encodeBatch codec rest (length + 1) (bytes + codec.bytes entry)

def putEntries : List (Entry α) → Table ℕ (Entry α) → Table ℕ (Entry α)
  | [], log => log
  | entry :: rest, log => putEntries rest (log.insert entry.logId.index entry)

/-- Writes the entries of a batch that encodes. -/
def append (codec : Codec α) (entries : List (Entry α)) (s : Store α) : Except String (Store α) := do
  encodeBatch codec entries 0 0
  return { s with disk := { s.disk with log := putEntries entries s.disk.log } }

def truncateFrom : Option LogId → ℕ
  | some id => (id.index + 1) % 2 ^ 64
  | none => 0

def raftLogDeleteFrom (start : ℕ) (log : Table ℕ (Entry α)) : Table ℕ (Entry α) :=
  log.filter fun index _ => index < start

/-- Drops every entry after a log id. -/
def truncateAfter (last : Option LogId) (s : Store α) : Store α :=
  { s with disk := { s.disk with log := raftLogDeleteFrom (truncateFrom last) s.disk.log } }

def raftLogPurgeUpto (upto : ℕ) (log : Table ℕ (Entry α)) : Table ℕ (Entry α) :=
  log.filter fun index _ => upto < index

/-- The id that is kept in memory: it only moves to a later index. -/
def notePurged (id : LogId) : Option LogId → Option LogId
  | none => some id
  | some last => if last.index < id.index then some id else some last

/-- The first durable write of a purge: the metadata row. -/
def recordPurge (id : LogId) (s : Store α) : Store α :=
  { disk := { s.disk with purged := some id }, lastPurgedLogId := notePurged id s.lastPurgedLogId }

/-- **Purge the log** up to an id: the id in memory, the metadata row, then the entries. -/
def purge (id : LogId) (s : Store α) : Store α :=
  let s := recordPurge id s
  { s with disk := { s.disk with log := raftLogPurgeUpto id.index s.disk.log } }

/-! ### Runs -/

/-- What happens to a store. An interrupted purge has written its metadata row when the restart
comes. -/
inductive Event (α : Type)
  | append (entries : List (Entry α))
  | truncateAfter (last : Option LogId)
  | purge (id : LogId)
  | interruptedPurge (id : LogId)
  | restart

def step (codec : Codec α) (s : Store α) : Event α → Store α
  | .append entries =>
    match append codec entries s with
    | .ok s' => s'
    | .error _ => s
  | .truncateAfter last => truncateAfter last s
  | .purge id => purge id s
  | .interruptedPurge id => reopen (recordPurge id s).disk
  | .restart => reopen s.disk

def run (codec : Codec α) : Store α → List (Event α) → Store α := Transaction.run (step codec)

end

end Medulla.Raft.LogStore
