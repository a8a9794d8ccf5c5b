import Medulla.Outbox.Rewind

/-! # One consumer on its topic, as a state machine

What the delivery protocol does to one consumer, without the tables it is stored in: the indexed
positions of its topic, its delivery rows, its in-flight counter, how far its stream is resolved,
and the control rows of a rewind and of the pruning. -/

namespace Medulla.Outbox.Machine

open Library.Checked Types.Records Rows Claim Cursor
open Library.OrderedTable (Table)

variable {p : OutboxPosition} {cursor : Option OutboxPosition} {q : OutboxPosition}

/-! ### Positions -/

def Passed (cursor : Option OutboxPosition) (p : OutboxPosition) : Prop := cursor.any (p ≤ ·) = true

instance (cursor : Option OutboxPosition) (p : OutboxPosition) : Decidable (Passed cursor p) :=
  inferInstanceAs (Decidable (_ = true))

theorem passed_some : Passed (some q) p ↔ p ≤ q := by
  simp [Passed]

theorem not_passed_none : ¬ Passed none p := by
  simp [Passed]

theorem not_passed_iff : ¬ Passed cursor p ↔ cursor.all (· < p) = true := by
  cases cursor <;> simp [Passed]

theorem Passed.mono (h : Passed cursor q) (hpq : p ≤ q) : Passed cursor p := by
  cases cursor with
  | none => exact absurd h not_passed_none
  | some r => exact passed_some.mpr (le_trans hpq (passed_some.mp h))

theorem Passed.extend (h : Passed cursor q) (hp : ¬ Passed cursor p) :
    Passed (some p) q := by
  cases cursor with
  | none => exact absurd h not_passed_none
  | some r =>
    rw [passed_some, not_le] at hp
    exact passed_some.mpr (le_trans (passed_some.mp h) hp.le)

/-! ### The state of a consumer -/

/-- Where one consumer stands on its topic. -/
@[ext]
structure View where
  index : Set OutboxPosition
  rows : Table OutboxKey OutboxDelivery
  inflight : ℕ
  resolvedThrough : Option OutboxPosition
  rewinding : Option RewindCursor
  pruning : Option PruneCursor

namespace View

def put (v : View) (d : OutboxDelivery) : View :=
  { v with rows := v.rows.insert d.position.row d }

def held (v : View) : ℕ := v.rows.count fun _ d => d.held

def ResolvedAt (v : View) (p : OutboxPosition) : Prop :=
  ∃ d, v.rows.get p.row = some d ∧ d.resolved = true

/-- Every unresolved position before this one lies before the resolved prefix already. -/
def Clear (v : View) (p : OutboxPosition) : Prop :=
  ∀ q ∈ v.index, q < p → ¬ Passed v.resolvedThrough q → v.ResolvedAt q

/-- Every position before this one beyond the resolved prefix has a delivery row. -/
def Filled (v : View) (p : OutboxPosition) : Prop :=
  ∀ q ∈ v.index, q < p → ¬ Passed v.resolvedThrough q → (v.rows.get q.row).isSome = true

/-- No row beyond the resolved prefix lies behind a gap. -/
def NoGap (v : View) : Prop :=
  ∀ p ∈ v.index, ¬ Passed v.resolvedThrough p → (v.rows.get p.row).isSome = true → v.Filled p

end View

def RowInjective (index : Set OutboxPosition) : Prop :=
  ∀ p ∈ index, ∀ q ∈ index, p.row = q.row → p = q

/-! ### Moves -/

/-- What an observer of a consumer sees: a lease with the row it replaced, an event finished with, or
the start of a rewind. -/
inductive Event
  | leased (previous : Option OutboxDelivery) (delivery : OutboxDelivery)
  | settled (position : OutboxPosition)
  | delivered (position : OutboxPosition)
  | rewound (start : View) (target : Option OutboxPosition)

/-- An event as a caller sees it. -/
inductive Notice
  | leased (row : OutboxKey) (epoch leaseUntilMs : ℕ)
  | settled (position : OutboxPosition)
  | rewound (target : Option OutboxPosition)

def Event.notice : Event → Notice
  | .leased _ d => .leased d.position.row d.leaseEpoch d.leaseUntilMs
  | .settled p => .settled p
  | .delivered p => .settled p
  | .rewound _ target => .rewound target

def deliveredIn (es : List Event) : List OutboxPosition :=
  es.filterMap fun
    | .delivered p => some p
    | _ => none

theorem deliveredIn_append (es fs : List Event) :
    deliveredIn (es ++ fs) = deliveredIn es ++ deliveredIn fs :=
  List.filterMap_append

/-- The row a lease replaces is free: absent, or unresolved without a lease. -/
def Free (current : Option OutboxDelivery) : Prop :=
  ∀ d, current = some d → d.resolved = false ∧ d.leaseUntilMs = 0

structure Leases (consumer : String) (p : OutboxPosition) (current : Option OutboxDelivery)
    (d : OutboxDelivery) : Prop where
  consumer : d.consumer = consumer
  position : d.position = p
  epoch : d.leaseEpoch = saturatingAdd u64Max ((current.map OutboxDelivery.leaseEpoch).getD 0) 1
  timed : d.leaseUntilMs ≠ 0
  undelivered : d.deliveredAtMs = none
  alive : d.deadLetteredAtMs = none

inductive Move (consumer : String) (clock : ℕ) : View → List Event → View → Prop
  | grow {v : View} (index : Set OutboxPosition) (kept : v.index ⊆ index)
      (later : ∀ p ∈ index, p ∉ v.index → ∀ q ∈ v.index, q < p) (injective : RowInjective index) :
      Move consumer clock v [] { v with index := index }
  | zero {v : View} (d : OutboxDelivery) (row : v.rows.get d.position.row = some d)
      (held : d.held = true) (counted : 1 ≤ v.inflight) :
      Move consumer clock v []
        { v.put { d with leaseUntilMs := 0 } with inflight := v.inflight - 1 }
  | lease {v : View} (p : OutboxPosition) (d : OutboxDelivery) (steady : v.rewinding = none)
      (indexed : p ∈ v.index) (ahead : ¬ Passed v.resolvedThrough p) (filled : v.Filled p)
      (free : Free (v.rows.get p.row)) (room : v.inflight < outboxQueueCapacity)
      (leases : Leases consumer p (v.rows.get p.row) d) :
      Move consumer clock v [.leased (v.rows.get p.row) d]
        { v.put d with inflight := v.inflight + 1 }
  | deadLetter {v : View} (d : OutboxDelivery) (nowMs : ℕ) (steady : v.rewinding = none)
      (row : v.rows.get d.position.row = some d) (free : d.resolved = false ∧ d.leaseUntilMs = 0)
      (exhausted : maxDeliveryAttempts ≤ d.attempt) :
      Move consumer clock v [.settled d.position] (v.put { d with deadLetteredAtMs := some nowMs })
  | ack {v : View} (d : OutboxDelivery) (nowMs : ℕ) (time : clock ≤ nowMs)
      (steady : v.rewinding = none) (row : v.rows.get d.position.row = some d)
      (unresolved : d.resolved = false) (valid : nowMs < d.leaseUntilMs)
      (ahead : ¬ Passed v.resolvedThrough d.position) (clear : v.Clear d.position)
      (counted : 1 ≤ v.inflight) :
      Move consumer clock v [.delivered d.position]
        { v.put { d with deliveredAtMs := some nowMs } with
          resolvedThrough := some d.position
          inflight := v.inflight - 1 }
  | reject {v : View} (d : OutboxDelivery) (nowMs : ℕ) (time : clock ≤ nowMs)
      (steady : v.rewinding = none) (row : v.rows.get d.position.row = some d)
      (unresolved : d.resolved = false) (valid : nowMs < d.leaseUntilMs)
      (counted : 1 ≤ v.inflight) :
      Move consumer clock v [.settled d.position]
        { v.put (rejected d nowMs) with inflight := v.inflight - 1 }
  | supersede {v : View} (p : OutboxPosition) (nowMs : ℕ) (steady : v.rewinding = none)
      (indexed : p ∈ v.index) (ahead : ¬ Passed v.resolvedThrough p) (clear : v.Clear p)
      (free : Free (v.rows.get p.row)) :
      Move consumer clock v [.delivered p]
        { v.put (superseded consumer p nowMs) with resolvedThrough := some p }
  | extend {v : View} (p : OutboxPosition) (steady : v.rewinding = none) (indexed : p ∈ v.index)
      (ahead : ¬ Passed v.resolvedThrough p) (clear : v.Clear p) (resolved : v.ResolvedAt p) :
      Move consumer clock v [] { v with resolvedThrough := some p }
  | prune {v : View} (rows : Table OutboxKey OutboxDelivery) (steady : v.rewinding = none)
      (gone : ∀ k, rows.get k = v.rows.get k ∨ rows.get k = none ∧
        ∃ d, v.rows.get k = some d ∧ d.delivered = true ∧ Passed v.resolvedThrough d.position) :
      Move consumer clock v [] { v with rows := rows }
  | notePrune {v : View} (cursor : PruneCursor) (complete : cursor.complete = cursor.boundary.isSome)
      (position : ∀ p, cursor.position = some p → p ∈ v.index)
      (boundary : ∀ p, cursor.boundary = some p → p ∈ v.index) :
      Move consumer clock v [] { v with pruning := some cursor }
  | rewind {v : View} (target predecessor : Option OutboxPosition) (steady : v.rewinding = none)
      (indexed : ∀ p, predecessor = some p → p ∈ v.index)
      (splits : ∀ p ∈ v.index, (Passed predecessor p ↔ target.any (p < ·) = true)) :
      Move consumer clock v [.rewound v target]
        { v with
          inflight := 0
          resolvedThrough := predecessor
          rewinding := some ⟨target, predecessor⟩ }
  | sweep {v : View} (cursor : RewindCursor) (rows : Table OutboxKey OutboxDelivery)
      (next : OutboxPosition) (walking : v.rewinding = some cursor) (indexed : next ∈ v.index)
      (ahead : ¬ Passed cursor.position next)
      (gone : ∀ p ∈ v.index, ¬ Passed cursor.position p → p ≤ next → rows.get p.row = none)
      (kept : ∀ k, rows.get k = v.rows.get k ∨
        rows.get k = none ∧ ∃ p ∈ v.index, p.row = k ∧ ¬ Passed cursor.position p) :
      Move consumer clock v []
        { v with rows := rows, rewinding := some ⟨cursor.target, some next⟩ }
  | finishSweep {v : View} (cursor : RewindCursor) (rows : Table OutboxKey OutboxDelivery)
      (walking : v.rewinding = some cursor)
      (gone : ∀ p ∈ v.index, ¬ Passed cursor.position p → rows.get p.row = none)
      (kept : ∀ k, rows.get k = v.rows.get k ∨
        rows.get k = none ∧ ∃ p ∈ v.index, p.row = k ∧ ¬ Passed cursor.position p) :
      Move consumer clock v [] { v with rows := rows, rewinding := none }

/-- A sequence of moves, with everything an observer sees. -/
inductive Steps (consumer : String) (clock : ℕ) : View → List Event → View → Prop
  | refl (v : View) : Steps consumer clock v [] v
  | tail {v v' v'' : View} {es fs : List Event} (init : Steps consumer clock v es v')
      (last : Move consumer clock v' fs v'') : Steps consumer clock v (es ++ fs) v''

section
variable {consumer : String} {clock : ℕ} {v v' v'' : View} {es fs : List Event}

theorem Steps.single (h : Move consumer clock v es v') : Steps consumer clock v es v' := by
  simpa using Steps.tail (Steps.refl v) h

theorem Steps.trans (h : Steps consumer clock v es v') (h' : Steps consumer clock v' fs v'') :
    Steps consumer clock v (es ++ fs) v'' := by
  induction h' with
  | refl => simpa using h
  | tail _ last ih => simpa using Steps.tail ih last

end

end Medulla.Outbox.Machine
