import Medulla.Placement.Partition
import Mathlib.Order.Nat

/-! # The placement catalog

The catalog is a control graph with one node per placement row, one per move journal, and the counter
that routing epochs are taken from. It changes only by committed commands (`PlacementCatalog.apply`):
a row is added or removed as it is, a compare-and-set takes effect only on the row it expects. -/

namespace Medulla.Placement.Catalog

open Library.Checked Library.OrderedTable Placement.Partition

variable {e : PlacementEntry} {n : ℕ} {entries : List PlacementEntry}

/-! ### Commands -/

/-- The placement rows, the move journals and the epoch counter. -/
structure PlacementCatalog where
  entries : Table PartitionKey Owner
  journals : Table String PartitionMoveJournal
  epochCounter : Option ℕ

variable {c : PlacementCatalog}

def PlacementCatalog.fresh : PlacementCatalog := ⟨.empty, .empty, none⟩

/-- The writes of the control graph that are committed. -/
inductive Command
  | entryMethod (entry : PlacementEntry)
  | removeMethod (key : PartitionKey)
  | entryCasMethod (expected updated : PlacementEntry)
  | epochSeedMethod (epoch : ℕ)
  | epochCasMethod (expected allocated : ℕ)
  | moveJournalMethod (journal : PartitionMoveJournal)

/-- **Apply a committed command**, and whether it took effect. -/
def PlacementCatalog.apply (c : PlacementCatalog) : Command → PlacementCatalog × Bool
  | .entryMethod entry => ({ c with entries := c.entries.insert entry.key entry.toOwner }, true)
  | .removeMethod key => ({ c with entries := c.entries.remove key }, true)
  | .entryCasMethod expected updated =>
    if c.entries.get expected.key = some expected.toOwner then
      ({ c with entries := c.entries.insert expected.key updated.toOwner }, true)
    else (c, false)
  | .epochSeedMethod epoch =>
    if c.epochCounter = none then ({ c with epochCounter := some epoch }, true) else (c, false)
  | .epochCasMethod expected allocated =>
    if c.epochCounter = some expected then ({ c with epochCounter := some allocated }, true)
    else (c, false)
  | .moveJournalMethod journal =>
    ({ c with journals := c.journals.insert journal.moveId journal }, true)

theorem apply_entryCas {u : PlacementEntry} (h : c.entries.get e.key = some e.toOwner) :
    c.apply (.entryCasMethod e u) =
      ({ c with entries := c.entries.insert e.key u.toOwner }, true) := if_pos h

theorem apply_entryCas_stale {u : PlacementEntry} (h : c.entries.get e.key ≠ some e.toOwner) :
    c.apply (.entryCasMethod e u) = (c, false) := if_neg h

theorem apply_epochSeed (h : c.epochCounter = none) :
    c.apply (.epochSeedMethod n) = ({ c with epochCounter := some n }, true) := if_pos h

theorem apply_epochSeed_present (h : c.epochCounter ≠ none) :
    c.apply (.epochSeedMethod n) = (c, false) := if_neg h

theorem apply_epochCas {m : ℕ} (h : c.epochCounter = some m) :
    c.apply (.epochCasMethod m n) = ({ c with epochCounter := some n }, true) := if_pos h

theorem apply_epochCas_stale {m : ℕ} (h : c.epochCounter ≠ some m) :
    c.apply (.epochCasMethod m n) = (c, false) := if_neg h

/-! ### Reads -/

/-- Most bytes of the name of a tenant whose rows are read. -/
def maxTenantBytes : ℕ := 4096

/-- A tenant name that a row is read under. -/
def validTenant (tenant : String) : Bool := tenant ≠ "" && tenant.utf8ByteSize ≤ maxTenantBytes

/-- The rows that are read: those with a bounded tenant and a range in order. -/
def scannedEntry (entry : PlacementEntry) : Bool :=
  validTenant entry.key.tenant && entry.key.rangeStart ≤ entry.key.rangeEnd

def PlacementCatalog.scanAllEntries (c : PlacementCatalog) : List PlacementEntry :=
  (c.entries.rows.map fun r => ⟨r.2, r.1⟩).filter scannedEntry

def PlacementCatalog.tenantEntries (c : PlacementCatalog) (tenant : String) : List PlacementEntry :=
  c.scanAllEntries.filter fun entry => entry.key.tenant = tenant

section
variable {tenant : String}

theorem mem_scanAllEntries :
    e ∈ c.scanAllEntries ↔ c.entries.get e.key = some e.toOwner ∧ scannedEntry e := by
  unfold PlacementCatalog.scanAllEntries
  rw [List.mem_filter, List.mem_map, ← Table.mem_rows]
  constructor
  · rintro ⟨⟨r, hr, rfl⟩, hs⟩
    exact ⟨hr, hs⟩
  · rintro ⟨hr, hs⟩
    exact ⟨⟨_, hr, rfl⟩, hs⟩

theorem mem_tenantEntries : e ∈ c.tenantEntries tenant ↔
      c.entries.get e.key = some e.toOwner ∧ scannedEntry e ∧ e.key.tenant = tenant := by
  unfold PlacementCatalog.tenantEntries
  rw [List.mem_filter, mem_scanAllEntries, decide_eq_true_iff, and_assoc]

theorem tenantEntries_pairwise_ne (c : PlacementCatalog) (tenant : String) :
    (c.tenantEntries tenant).Pairwise fun a b => a.key ≠ b.key := by
  refine List.Pairwise.filter _ (List.Pairwise.filter _ ?_)
  rw [List.pairwise_map]
  exact c.entries.sorted.imp fun h => h.ne

end

def PlacementCatalog.maxEpoch (c : PlacementCatalog) : ℕ :=
  c.scanAllEntries.foldr (fun entry highest => max entry.epoch highest) 0

theorem le_foldr_max : ∀ {entries : List PlacementEntry}, e ∈ entries →
      e.epoch ≤ entries.foldr (fun entry highest => max entry.epoch highest) 0
  | _ :: _, .head _ => le_max_left _ _
  | _ :: _, .tail _ h => le_trans (le_foldr_max h) (le_max_right _ _)

theorem epoch_le_maxEpoch (h : e ∈ c.scanAllEntries) : e.epoch ≤ c.maxEpoch := le_foldr_max h

def PlacementCatalog.partitionEntry (c : PlacementCatalog) (tenant : String) (range : ℕ × ℕ) :
    Option PlacementEntry :=
  (c.tenantEntries tenant).find? fun entry =>
    entry.key.rangeStart = range.1 && entry.key.rangeEnd = range.2

theorem partitionEntry_eq_some {tenant : String} {range : ℕ × ℕ}
    (h : c.partitionEntry tenant range = some e) :
    e ∈ c.tenantEntries tenant ∧ e.key = ⟨tenant, range.1, range.2⟩ := by
  have hmem := List.mem_of_find?_eq_some h
  have hrange := List.find?_some h
  rw [Bool.and_eq_true, decide_eq_true_iff, decide_eq_true_iff] at hrange
  refine ⟨hmem, ?_⟩
  rw [← (mem_tenantEntries.mp hmem).2.2, ← hrange.1, ← hrange.2]

/-- Where a key is served, and by which epoch. -/
structure PlacementRoute where
  group : ℕ
  epoch : ℕ
  placed : Bool
  deriving DecidableEq

def PlacementRoute.catalog (group epoch : ℕ) : PlacementRoute := ⟨group, epoch, true⟩

def PlacementRoute.unplaced (group : ℕ) : PlacementRoute := ⟨group, 0, false⟩

/-- The stable hash of a sub-key: 64-bit FNV-1a. -/
def fnv1a (s : String) : ℕ :=
  (s.toList.flatMap String.utf8EncodeChar).foldl
    (fun h b => ((h ^^^ b.toNat) * 0x100000001b3) % 2 ^ 64) 0xcbf29ce484222325

/-- The first row that contains a hash. -/
def routeEntries (entries : List PlacementEntry) (h unplacedGroup : ℕ) : PlacementRoute :=
  match entries.find? fun entry => entry.key.contains h with
  | some entry => .catalog entry.group entry.epoch
  | none => .unplaced unplacedGroup

/-- **The route of a tenant's sub-key.** -/
def PlacementCatalog.route (c : PlacementCatalog) (tenant subKey : String) (unplacedGroup : ℕ) :
    PlacementRoute :=
  routeEntries (c.tenantEntries tenant) (fnv1a subKey) unplacedGroup

theorem routeEntries_placed {h g : ℕ} (hp : (routeEntries entries h g).placed = true) :
    ∃ e ∈ entries, e.key.contains h ∧ routeEntries entries h g = .catalog e.group e.epoch := by
  unfold routeEntries at hp ⊢
  cases hf : entries.find? (fun entry => entry.key.contains h) with
  | none =>
    rw [hf] at hp
    cases hp
  | some e =>
    have hc := List.find?_some hf
    exact ⟨e, List.mem_of_find?_eq_some hf, hc, rfl⟩

theorem routeEntries_placed_of_mem {h g : ℕ} (he : e ∈ entries) (hc : e.key.contains h) :
    (routeEntries entries h g).placed = true := by
  unfold routeEntries
  cases hf : entries.find? (fun entry => entry.key.contains h) with
  | none => exact absurd hc (List.find?_eq_none.mp hf e he)
  | some e' => rfl

theorem routeEntries_placed_eq {h g : ℕ} (hp : (routeEntries entries h g).placed = true) (g' : ℕ) :
    routeEntries entries h g' = routeEntries entries h g := by
  unfold routeEntries at hp ⊢
  cases hf : entries.find? (fun entry => entry.key.contains h) with
  | none =>
    rw [hf] at hp
    cases hp
  | some e => rfl

theorem fnv1a_le (s : String) : fnv1a s ≤ u64Max := by
  have hfold : ∀ (bytes : List UInt8) (h : ℕ), h ≤ u64Max →
      bytes.foldl (fun h b => ((h ^^^ b.toNat) * 0x100000001b3) % 2 ^ 64) h ≤ u64Max := by
    intro bytes
    induction bytes with
    | nil => exact fun h hh => hh
    | cons b bytes ih =>
      intro h _
      refine ih _ ?_
      exact Nat.le_of_lt_succ
        (Nat.mod_lt ((h ^^^ b.toNat) * 0x100000001b3) (show 0 < 2 ^ 64 by decide))
  exact hfold _ _ (by decide)

def defaultGroup : ℕ := 0

/-- The route to send a caller to that presents an older epoch. -/
def PlacementCatalog.redirectIfStale (c : PlacementCatalog) (tenant subKey : String)
    (clientEpoch : ℕ) : Option PlacementRoute :=
  let route := c.route tenant subKey defaultGroup
  if route.placed = true ∧ clientEpoch < route.epoch then some route else none

/-! ### Epochs -/

/-- A reserved epoch, with the counter it expects. -/
structure EpochAllocation where
  expected : ℕ
  floor : ℕ
  allocated : ℕ
  seedIfAbsent : Bool

/-- No epoch at or below this is given out again. -/
def PlacementCatalog.epochFloor (c : PlacementCatalog) : ℕ :=
  max (c.epochCounter.getD c.maxEpoch) c.maxEpoch

/-- The next epoch to reserve. -/
def PlacementCatalog.nextEpoch (c : PlacementCatalog) : Except String EpochAllocation := do
  let allocated ← okOr (checkedAdd u64Max c.epochFloor 1) "placement epoch counter exhausted"
  pure
    { expected := c.epochCounter.getD c.epochFloor
      floor := c.epochFloor
      allocated := allocated
      seedIfAbsent := c.epochCounter.isNone }

theorem nextEpoch_eq_ok {a : EpochAllocation} (h : c.nextEpoch = .ok a) :
    a.floor = c.epochFloor ∧ a.allocated = c.epochFloor + 1 ∧ c.epochFloor + 1 ≤ u64Max ∧
      a.expected = c.epochCounter.getD c.epochFloor ∧ a.seedIfAbsent = c.epochCounter.isNone := by
  obtain ⟨n, hn, ha⟩ := unbind h
  obtain ⟨rfl, hle⟩ := checkedAdd_eq_some.mp (okOr_eq_ok.mp hn)
  obtain rfl := pure_eq_ok.mp ha
  exact ⟨rfl, rfl, hle, rfl, rfl⟩

theorem epochCounter_le_floor (c : PlacementCatalog) : c.epochCounter.getD 0 ≤ c.epochFloor := by
  unfold PlacementCatalog.epochFloor
  cases c.epochCounter with
  | none => exact Nat.zero_le _
  | some n => exact le_max_left _ _

theorem epoch_le_floor (h : e ∈ c.scanAllEntries) :
    e.epoch ≤ c.epochFloor := le_trans (epoch_le_maxEpoch h) (le_max_right _ _)

/-- The commands that reserve an epoch: seed the counter, lift it to the floor, take the next value. -/
def reserveSteps (a : EpochAllocation) : List Command :=
  (if a.seedIfAbsent then [.epochSeedMethod a.floor] else []) ++
    (if a.expected ≠ a.floor then [.epochCasMethod a.expected a.floor] else []) ++
      [.epochCasMethod a.floor a.allocated]

/-! ### Plans -/

/-- A plan: the row commands, the epoch they publish, and whether each must take effect. -/
structure PendingWrite where
  methods : List Command
  epoch : ℕ
  epochAllocation : Option EpochAllocation
  requireSuccess : Bool

/-- Places a whole tenant on one group. -/
def PlacementCatalog.planAssign (c : PlacementCatalog) (tenant : String) (group : ℕ) :
    Except String PendingWrite := do
  let allocation ← c.nextEpoch
  pure
    { methods := ((c.tenantEntries tenant).map fun entry => .removeMethod entry.key) ++
        [.entryMethod ⟨⟨group, allocation.allocated, .active⟩, .whole tenant⟩]
      epoch := allocation.allocated
      epochAllocation := some allocation
      requireSuccess := false }

/-- Merging a tenant's partitions is assigning its whole range. -/
def PlacementCatalog.planMerge (c : PlacementCatalog) (tenant : String) (group : ℕ) :
    Except String PendingWrite := c.planAssign tenant group

/-- The range that a split cuts: that of the covering row, or the whole of a tenant without rows. -/
def splitRange (tenant : String) (point : ℕ) (entries : List PlacementEntry) :
    Option PlacementEntry → Except String (ℕ × ℕ)
  | some entry => .ok (entry.key.rangeStart, entry.key.rangeEnd)
  | none =>
    if entries.isEmpty then .ok (0, u64Max)
    else .error s!"split point {point} is not the interior of any of tenant '{tenant}''s existing partitions"

/-- Splits the range that contains a point. -/
def PlacementCatalog.planSplit (c : PlacementCatalog) (tenant : String)
    (point groupA groupB : ℕ) : Except String PendingWrite := do
  let allocation ← c.nextEpoch
  let entries := c.tenantEntries tenant
  let covering := entries.find? fun entry =>
    entry.key.contains point && point > entry.key.rangeStart
  let (oldStart, oldEnd) ← splitRange tenant point entries covering
  rejectIf (¬ (point > oldStart ∧ point ≤ oldEnd))
    s!"split point {point} is not inside range [{oldStart}, {oldEnd}] for tenant '{tenant}'"
  pure
    { methods := (covering.toList.map fun entry => .removeMethod entry.key) ++
        [.entryMethod ⟨⟨groupA, allocation.allocated, .active⟩, ⟨tenant, oldStart, point - 1⟩⟩,
          .entryMethod ⟨⟨groupB, allocation.allocated, .active⟩, ⟨tenant, point, oldEnd⟩⟩]
      epoch := allocation.allocated
      epochAllocation := some allocation
      requireSuccess := false }

def startMoveWrite (entry : PlacementEntry) (target : ℕ) : Except String PendingWrite :=
  match entry.state with
  | .active =>
    if entry.group = target then .error "partition move target already owns the partition"
    else .ok ⟨[.entryCasMethod entry { entry with state := .moving target }], entry.epoch, none, true⟩
  | .moving activeTarget =>
    if activeTarget = target then .ok ⟨[], entry.epoch, none, false⟩
    else .error "partition already has a move to another target"

/-- Marks a partition as moving. -/
def PlacementCatalog.planStartMove (c : PlacementCatalog) (tenant : String) (range : ℕ × ℕ)
    (target : ℕ) : Except String PendingWrite := do
  let entry ← okOr (c.partitionEntry tenant range)
    s!"no placement entry for tenant '{tenant}' range {range} — assign/split it first"
  startMoveWrite entry target

/-- Routes a moving partition to its target under a new epoch. -/
def PlacementCatalog.planFenceCutover (c : PlacementCatalog) (tenant : String) (range : ℕ × ℕ)
    (target : ℕ) : Except String PendingWrite := do
  let allocation ← c.nextEpoch
  let entry ← okOr (c.partitionEntry tenant range)
    s!"no placement entry for tenant '{tenant}' range {range} to cut over"
  rejectIf (entry.state ≠ .moving target) "partition is not moving to the requested target"
  pure
    { methods := [.entryCasMethod entry ⟨⟨target, allocation.allocated, .active⟩, entry.key⟩]
      epoch := allocation.allocated
      epochAllocation := some allocation
      requireSuccess := true }

/-- Routes a moving partition back to its source. -/
def PlacementCatalog.planAbortMove (c : PlacementCatalog) (tenant : String) (range : ℕ × ℕ)
    (source target originalEpoch : ℕ) : Except String PendingWrite := do
  let entry ← okOr (c.partitionEntry tenant range) "partition move no longer has a placement entry"
  rejectIf (entry.group ≠ source ∨ entry.epoch ≠ originalEpoch ∨ entry.state ≠ .moving target)
    "partition move passed its rollback fence"
  pure
    { methods := [.entryCasMethod entry { entry with state := .active }]
      epoch := entry.epoch
      epochAllocation := none
      requireSuccess := true }

end Medulla.Placement.Catalog
