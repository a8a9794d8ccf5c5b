import Medulla.Library.Durable
import Medulla.Library.OrderedTable

/-! # The durable records of cross-shard transactions

A cross-shard transaction leaves its trace in two tables of the coordinator's store: the slices its
participants have prepared, by transaction and group, and one decision by transaction. What the
participants' Raft groups have applied is the log of effects: an operation carries a child id made of
its graph, its transaction and its place in the slice, and one whose id is in the log has no second
effect. -/

namespace Medulla.CrossShard.Records

open Library.Durable Library.OrderedTable

/-! ### Transactions -/

abbrev GroupId := ℕ

/-- One graph's part of a transaction: the operations staged for it and the placement it was built
against. -/
structure GraphSlice (μ : Type) where
  graphName : String
  graphFname : String
  methods : List μ
  placementEpoch : ℕ
  fencingToken : Option GroupId

/-- A transaction with the slices of its graphs. -/
structure CrossShardTxn (μ : Type) where
  txnId : String
  slices : List (GraphSlice μ)

inductive TxnOutcome
  | committed
  | aborted
  deriving DecidableEq

/-- The authority a replicated operation is applied under. -/
structure Child where
  graph : String
  txnId : String
  ordinal : ℕ
  deriving DecidableEq

/-! ### Decisions -/

/-- A decision row: a protocol that started and has not decided, kept for the parent, or an outcome
that is kept for the parent or not. -/
inductive Decision
  | pending
  | terminal (commit retained : Bool)

def Decision.outcome : Decision → Option Bool
  | .pending => none
  | .terminal commit _ => some commit

/-- The row is kept until the parent is terminal. -/
def Decision.retained : Decision → Bool
  | .pending => true
  | .terminal _ retained => retained

/-- Merge a requested decision into the row: an outcome never changes, and is kept for the parent if
either asks for it. -/
def mergeCoordinatorDecision (current : Option Decision) (requested : Decision) :
    Except String Decision :=
  match current, requested with
  | none, requested => .ok requested
  | some .pending, .pending => .ok .pending
  | some .pending, .terminal commit _ => .ok (.terminal commit true)
  | some (.terminal _ _), .pending => .error "cross-shard decision conflicts with durable outcome"
  | some (.terminal commit retained), .terminal commit' retained' =>
    if commit = commit' then .ok (.terminal commit (retained || retained'))
    else .error "cross-shard decision conflicts with durable outcome"

/-! ### The store -/

structure Store (μ : Type) where
  /-- Prepared slices, by transaction and group. -/
  prepares : Table String (Table GroupId (List (GraphSlice μ)))
  decisions : Table String Decision
  /-- Results of the committed parent batches; `none` if it is not a truth value. -/
  parents : Table String (Option Bool)
  /-- Operations that took effect, in order. -/
  effects : List (Child × μ)

variable {μ : Type}

namespace Store

/-- What a transaction has prepared, by group. -/
def preparesOf (s : Store μ) (t : String) : Table GroupId (List (GraphSlice μ)) :=
  (s.prepares.get t).getD Table.empty

def withPrepares (s : Store μ) (t : String) (rows : Table GroupId (List (GraphSlice μ))) :
    Store μ :=
  { s with prepares := s.prepares.insert t rows }

/-- The outcome recorded for a transaction. -/
def decisionGet (s : Store μ) (t : String) : Option Bool := (s.decisions.get t).bind Decision.outcome

/-- The decision row of a transaction is kept for its parent. -/
def decisionRetainGet (s : Store μ) (t : String) : Bool := (s.decisions.get t).any Decision.retained

/-- Apply an operation, unless one with its child id took effect before. -/
def applyRequest (s : Store μ) (req : Child × μ) : Store μ :=
  if s.effects.any fun e => e.1 = req.1 then s else { s with effects := s.effects ++ [req] }

@[simp]
theorem preparesOf_withPrepares (s : Store μ) (t t' : String)
    (rows : Table GroupId (List (GraphSlice μ))) :
    (s.withPrepares t rows).preparesOf t' = if t' = t then rows else s.preparesOf t' := by
  unfold preparesOf withPrepares
  rw [Table.get_insert]
  split_ifs <;> rfl

theorem mem_effects_applyRequest {s : Store μ} {req e : Child × μ} :
    e ∈ (s.applyRequest req).effects →
      e ∈ s.effects ∨ e = req ∧ ∀ e' ∈ s.effects, e'.1 ≠ req.1 := by
  unfold applyRequest
  split_ifs with h
  · exact Or.inl
  · intro he
    rcases List.mem_append.mp he with he | he
    · exact Or.inl he
    · refine Or.inr ⟨List.mem_singleton.mp he, fun e' he' heq => h ?_⟩
      exact List.any_eq_true.mpr ⟨e', he', by simpa using heq⟩

theorem effects_subset_applyRequest (s : Store μ) (req : Child × μ) :
    s.effects ⊆ (s.applyRequest req).effects := by
  unfold applyRequest
  split_ifs
  · exact List.Subset.refl _
  · exact List.subset_append_left _ _

end Store

/-! ### Writes -/

def xshardPreparePut (t : String) (g : GroupId) (slices : List (GraphSlice μ)) :
    Prog (Store μ) Unit :=
  write fun s => .ok (s.withPrepares t ((s.preparesOf t).insert g slices))

def xshardPrepareClear (t : String) (g : GroupId) : Prog (Store μ) Unit :=
  write fun s => .ok (s.withPrepares t ((s.preparesOf t).remove g))

/-- Records a decision, merged with the stored one. -/
def putDecision (t : String) (requested : Decision) : Prog (Store μ) Unit :=
  write fun s => do
    let merged ← mergeCoordinatorDecision (s.decisions.get t) requested
    return { s with decisions := s.decisions.insert t merged }

def xshardDecisionPut (t : String) (commit : Bool) : Prog (Store μ) Unit :=
  putDecision t (.terminal commit false)

def xshardRecoverableDecisionPut (t : String) (commit : Bool) : Prog (Store μ) Unit :=
  putDecision t (.terminal commit true)

/-- Record that a protocol kept for the parent has started. -/
def xshardRecoverablePendingPut (t : String) : Prog (Store μ) Unit := putDecision t .pending

def xshardDecisionClear (t : String) : Prog (Store μ) Unit :=
  write fun s => .ok { s with decisions := s.decisions.remove t }

end Medulla.CrossShard.Records
