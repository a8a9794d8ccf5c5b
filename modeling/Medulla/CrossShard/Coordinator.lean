import Medulla.CrossShard.Records
import Mathlib.Algebra.GroupWithZero.Nat
import Mathlib.Data.List.Dedup
import Mathlib.Data.List.Sort

/-! # The two-phase-commit coordinator

Prepare every writing participant, decide, apply; and recovery, which resolves what a crash left
from the durable records alone. Everything the coordinator asks of its surroundings (where graphs
route to, which groups run, whether a slice is still valid, which replies arrive, in which order the
concurrent prepares reach the disk) is an environment, a new one for every call. -/

namespace Medulla.CrossShard.Coordinator

open Library.Durable Records

variable {μ : Type}

/-! ### The surroundings of a call -/

/-- A graph's current placement. -/
structure PlacementRoute where
  group : GroupId
  epoch : ℕ
  placed : Bool
  fencingToken : GroupId

inductive Reply
  | done
  | refused
  | lost

structure Env (μ : Type) where
  /-- The group a graph routes to. -/
  groupOf : String → GroupId
  /-- The groups that run here when participants are asked. -/
  running : GroupId → Bool
  routeGraph : String → PlacementRoute
  /-- The endpoints of a slice's edges are live, or inserted by its sibling slices. -/
  edgeEndpointsAreLive : GraphSlice μ → List (GraphSlice μ) → Bool
  /-- The encoded record of some slices is within bounds. -/
  encodes : List (GraphSlice μ) → Bool
  prepareReply : GroupId → Reply
  /-- The order in which the prepares reach the disk. -/
  order : List (GroupId × List (GraphSlice μ)) → List (GroupId × List (GraphSlice μ))
  order_perm : ∀ l, (order l).Perm l
  /-- The groups that run here when the decision is applied. -/
  runningAtCommit : GroupId → Bool
  /-- Seal an operation for replication. -/
  command : μ → Except String Unit
  writeReply : Child → Reply

/-! ### Participants -/

def participants (env : Env μ) (txn : CrossShardTxn μ) : List (GroupId × List (GraphSlice μ)) :=
  let groups := (txn.slices.map fun slice => env.groupOf slice.graphName).dedup.insertionSort (· ≤ ·)
  groups.map fun g => (g, txn.slices.filter fun slice => env.groupOf slice.graphName = g)

def readsOnly (participant : GroupId × List (GraphSlice μ)) : Bool :=
  participant.2.all fun slice => slice.methods.isEmpty

def sliceFenceIsCurrent (g : GroupId) (epoch : ℕ) (fence : Option GroupId)
    (current : PlacementRoute) : Bool :=
  if epoch = 0 then true
  else
    let currentFence := if current.placed then some current.fencingToken else none
    current.group = g && current.epoch = epoch && currentFence = fence

def slicesFenceIsCurrent (env : Env μ) (g : GroupId) (slices : List (GraphSlice μ)) : Bool :=
  slices.all fun slice => sliceFenceIsCurrent g slice.placementEpoch slice.fencingToken
    (env.routeGraph slice.graphName)

def validateSlices (env : Env μ) (slices : List (GraphSlice μ)) : Bool :=
  slices.all fun slice => env.edgeEndpointsAreLive slice slices

def validateReadOnlyParticipant (env : Env μ) (g : GroupId) (slices : List (GraphSlice μ)) : Bool :=
  env.running g && slicesFenceIsCurrent env g slices && validateSlices env slices

def maxPreparedSlices : ℕ := 100000

def maxPreparedMethods : ℕ := 1000000

def maxPreparedGraphNameBytes : ℕ := 4096

/-- The slices exceed what a participant prepares. -/
def preparedSlicesExceedLimits (slices : List (GraphSlice μ)) : Bool :=
  maxPreparedSlices < slices.length ||
    (slices.any fun slice =>
      slice.graphName.isEmpty || maxPreparedGraphNameBytes < slice.graphName.utf8ByteSize ||
      slice.graphFname.isEmpty || maxPreparedGraphNameBytes < slice.graphFname.utf8ByteSize) ||
    maxPreparedMethods < (slices.map fun slice => slice.methods.length).sum

/-! ### Prepare -/

/-- A participant's vote, or its failure. -/
abbrev Vote := Except String Bool

def Vote.isYes : Vote → Bool
  | .ok true => true
  | _ => false

/-- A participant checks its slices and prepares them. -/
def prepareParticipant (env : Env μ) (t : String) (g : GroupId) (slices : List (GraphSlice μ)) :
    Prog (Store μ) Vote :=
  if !env.running g then pure (.ok false)
  else if !slicesFenceIsCurrent env g slices then pure (.ok false)
  else if !validateSlices env slices then pure (.ok false)
  else if preparedSlicesExceedLimits slices || !env.encodes slices then
    pure (.error "cross-shard prepare exceeds limits")
  else
    match env.prepareReply g with
    | .refused => pure (.error "redb writer thread is gone")
    | .lost => do
      xshardPreparePut t g slices
      return .error "redb writer dropped xshard_prepare_put completion"
    | .done => do
      xshardPreparePut t g slices
      return .ok true

/-- Asks every participant for its vote. -/
def runPreparePhase (env : Env μ) (t : String) (writing : List (GroupId × List (GraphSlice μ))) :
    Prog (Store μ) (Bool × List GroupId) := do
  let votes ← collect (env.order writing) fun p => do
    let vote ← prepareParticipant env t p.1 p.2
    return (p.1, vote)
  let yes := votes.filter fun v => v.2.isYes
  return (votes.all fun v => v.2.isYes, (writing.map Prod.fst).filter fun g => g ∈ yes.map Prod.fst)

/-! ### Apply -/

/-- The replicated operations of a slice, each under its own child id. -/
def requestsFrom (command : μ → Except String Unit) (graph t : String) :
    ℕ → List μ → Except String (List (Child × μ))
  | _, [] => .ok []
  | ordinal, m :: ms => do
    command m
    let rest ← requestsFrom command graph t (ordinal + 1) ms
    return (⟨graph, t, ordinal⟩, m) :: rest

def toRequests (env : Env μ) (t : String) (slice : GraphSlice μ) :
    Except String (List (Child × μ)) :=
  requestsFrom env.command slice.graphName t 0 slice.methods

/-- Sends one write to its group. -/
def clientWrite (env : Env μ) (req : Child × μ) : Prog (Store μ) Unit :=
  match env.writeReply req.1 with
  | .refused => fail "client write refused"
  | .lost => do
    write fun s => .ok (s.applyRequest req)
    fail "client write reply lost"
  | .done => write fun s => .ok (s.applyRequest req)

/-- Writes the slice of one graph. -/
def applySlice (env : Env μ) (t : String) (slice : GraphSlice μ) : Prog (Store μ) Unit := do
  let requests ← read fun _ => toRequests env t slice
  forEach requests (clientWrite env)

/-- Writes the slices of one group and clears what it prepared. -/
def applyParticipant (env : Env μ) (t : String) (p : GroupId × List (GraphSlice μ)) :
    Prog (Store μ) Unit :=
  if !env.runningAtCommit p.1 then
    fail ("xshard " ++ t ++ ": participant group " ++ toString p.1 ++ " gone at commit")
  else do
    forEach p.2 (applySlice env t)
    xshardPrepareClear t p.1

/-- Writes all slices of a committed transaction. -/
def applyCommit (env : Env μ) (t : String) (ps : List (GroupId × List (GraphSlice μ)))
    (clearDecision : Bool) : Prog (Store μ) Unit := do
  forEach ps (applyParticipant env t)
  onlyIf clearDecision (xshardDecisionClear t)

/-- Clear every prepared participant's record; then the decision, unless it is kept. -/
def applyAbort (t : String) (gs : List GroupId) (clearDecision : Bool) : Prog (Store μ) Unit := do
  forEach gs (xshardPrepareClear t)
  onlyIf clearDecision (xshardDecisionClear t)

/-! ### Commit -/

/-- Makes the outcome durable. -/
def recordDecision (t : String) (commit retain : Bool) : Prog (Store μ) Unit :=
  if retain then xshardRecoverableDecisionPut t commit else xshardDecisionPut t commit

/-- Prepares, decides and applies a transaction that writes. -/
def commitWriting (env : Env μ) (t : String) (writing : List (GroupId × List (GraphSlice μ)))
    (retain : Bool) : Prog (Store μ) TxnOutcome := do
  let (allYes, prepared) ← runPreparePhase env t writing
  let commit := allYes && prepared.length = writing.length
  recordDecision t commit retain
  if commit then do
    applyCommit env t writing (!retain)
    return .committed
  else do
    applyAbort t prepared (!retain)
    return .aborted

/-- The protocol after its start marker: read-only participants are validated and released. -/
def commitParticipants (env : Env μ) (t : String) (ps : List (GroupId × List (GraphSlice μ)))
    (retain : Bool) : Prog (Store μ) TxnOutcome :=
  let writing := ps.filter fun p => !readsOnly p
  let readOnly := ps.filter readsOnly
  if readOnly.any fun p => !validateReadOnlyParticipant env p.1 p.2 then do
    onlyIf retain (xshardRecoverableDecisionPut t false)
    return .aborted
  else if writing.isEmpty then do
    onlyIf retain (xshardRecoverableDecisionPut t true)
    return .committed
  else commitWriting env t writing retain

/-- Two-phase commit; with `retain`, a start marker comes before every vote and the decision is
kept. -/
def commitCrossShardInner (env : Env μ) (txn : CrossShardTxn μ) (retain : Bool) :
    Prog (Store μ) TxnOutcome :=
  let ps := participants env txn
  if ps.length < 2 then
    fail ("commit_cross_shard called for a " ++ toString ps.length ++
      "-group txn (use the single-group path)")
  else do
    onlyIf retain (xshardRecoverablePendingPut txn.txnId)
    commitParticipants env txn.txnId ps retain

/-- Commits a transaction over several groups. -/
def commitCrossShard (env : Env μ) (txn : CrossShardTxn μ) : Prog (Store μ) TxnOutcome :=
  commitCrossShardInner env txn false

/-- Abort what an earlier attempt left without a decision, and keep that outcome. -/
def presumeAbort (t : String) (gs : List GroupId) : Prog (Store μ) TxnOutcome := do
  xshardRecoverableDecisionPut t false
  applyAbort t gs false
  return .aborted

/-- Commit for a parent: finish or abort what an earlier attempt left, else run the protocol. -/
def commitCrossShardRecoverable (env : Env μ) (txn : CrossShardTxn μ) :
    Prog (Store μ) TxnOutcome := do
  let prepared ← read fun s => .ok (s.preparesOf txn.txnId).rows
  let decision ← read fun s => .ok (s.decisionGet txn.txnId)
  match decision with
  | some true => do
    applyCommit env txn.txnId prepared false
    return .committed
  | some false => do
    applyAbort txn.txnId (prepared.map Prod.fst) false
    return .aborted
  | none => do
    let started ← read fun s => .ok (s.decisionRetainGet txn.txnId)
    if started || !prepared.isEmpty then presumeAbort txn.txnId (prepared.map Prod.fst)
    else commitCrossShardInner env txn true

/-- Collect a kept decision once the parent is terminal. -/
def clearRecoverableDecision (t : String) : Prog (Store μ) Unit := xshardDecisionClear t

/-! ### Recovery -/

def preparesByTxn (s : Store μ) : List (String × List (GroupId × List (GraphSlice μ))) :=
  (s.prepares.rows.map fun r => (r.1, r.2.rows)).filter fun r => !r.2.isEmpty

/-- Finishes a prepared transaction by its decision, or aborts it. -/
def resolveInDoubt (env : Env μ) (r : String × List (GroupId × List (GraphSlice μ))) :
    Prog (Store μ) Unit := do
  let retain ← read fun s => .ok (s.decisionRetainGet r.1)
  let decision ← read fun s => .ok (s.decisionGet r.1)
  match decision with
  | some true => applyCommit env r.1 r.2 (!retain)
  | some false => applyAbort r.1 (r.2.map Prod.fst) (!retain)
  | none => do
    onlyIf retain (xshardRecoverableDecisionPut r.1 false)
    applyAbort r.1 (r.2.map Prod.fst) (!retain)

def collectDecision (r : String × Decision) : Prog (Store μ) Unit :=
  if !r.2.retained then pure ()
  else do
    let parent ← read fun s => .ok (s.parents.get r.1)
    match parent with
    | none => pure ()
    | some none => fail "transaction parent has the wrong result type"
    | some (some result) =>
      if r.2.outcome ≠ some result then
        fail "transaction parent and retained 2PC decision disagree"
      else xshardDecisionClear r.1

/-- What a node does at start-up. -/
def recoverInDoubt (env : Env μ) : Prog (Store μ) ℕ := do
  let inDoubt ← read fun s => .ok (preparesByTxn s)
  forEach inDoubt (resolveInDoubt env)
  let decisions ← read fun s => .ok s.decisions.rows
  forEach decisions collectDecision
  return inDoubt.length

/-! ### Calls -/

/-- What happens to the store from outside: the coordinator's entry points, and a parent that
becomes terminal. -/
inductive Call (μ : Type)
  | commit (env : Env μ) (txn : CrossShardTxn μ)
  | commitRecoverable (env : Env μ) (txn : CrossShardTxn μ)
  | recover (env : Env μ)
  | clearDecision (t : String)
  | parentCommitted (t : String) (result : Option Bool)

def Call.program : Call μ → Prog (Store μ) (Option TxnOutcome)
  | .commit env txn => do
    let outcome ← commitCrossShard env txn
    return some outcome
  | .commitRecoverable env txn => do
    let outcome ← commitCrossShardRecoverable env txn
    return some outcome
  | .recover env => do
    let _ ← recoverInDoubt env
    return none
  | .clearDecision t => do
    clearRecoverableDecision t
    return none
  | .parentCommitted t result => do
    write fun s => .ok { s with parents := s.parents.insert t result }
    return none

end Medulla.CrossShard.Coordinator
