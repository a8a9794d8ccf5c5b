import Medulla.Library.Transaction
import Medulla.WorkItem.Claim
import Medulla.WorkItem.Lifecycle
import Medulla.WorkItem.Submit

/-! # Runs of the native operations

A call runs in one transaction: it changes the graph as a whole, or it is refused and changes nothing. -/

namespace Medulla.WorkItem.Machine

open Library Rows Submit Claim Lifecycle

/-! ### Calls -/

/-- The calls on WorkItems. -/
inductive Call
  | submit (request : SubmitWorkItemRequest) (scope : Scope)
  | submitBatch (request : SubmitWorkItemsRequest) (scope : Scope)
  | claim (request : ClaimWorkItemRequest)
  | renew (request : RenewRequest)
  | commit (request : CommitRequest)
  | cancel (request : CancelRequest)
  | defer (request : DeferRequest)

/-- What a call answers. -/
inductive Result
  | submitted (results : List Submitted)
  | claimed (result : Claimed)
  | renewed (status : RenewStatus)
  | committed (result : Committed)
  | cancelled (status : CancelStatus)
  | deferred (status : DeferStatus)
  | refused (message : String)
  deriving DecidableEq

def Call.now : Call → ℕ
  | .submit _ scope => scope.now
  | .submitBatch _ scope => scope.now
  | .claim request => request.now
  | .renew request => request.now
  | .commit request => request.now
  | .cancel request => request.now
  | .defer request => request.now

/-- One call, which may fail. -/
def apply (H : Digests) (g : Graph) : Call → Except String (Graph × Result)
  | .submit request scope => do
    let (g, result) ← submitWorkItem H request scope g
    return (g, .submitted [result])
  | .submitBatch request scope => do
    let (g, results) ← submitWorkItems H request scope g
    return (g, .submitted results)
  | .claim request => do
    let (g, result) ← claimWorkItem request g
    return (g, .claimed result)
  | .renew request => do
    let (g, status) ← renewWorkItemLease request g
    return (g, .renewed status)
  | .commit request => do
    let (g, result) ← commitWorkItemResult request g
    return (g, .committed result)
  | .cancel request => do
    let (g, status) ← cancelWorkItem request g
    return (g, .cancelled status)
  | .defer request => do
    let (g, status) ← deferWorkItem request g
    return (g, .deferred status)

/-- One call; a failed one leaves the graph unchanged. -/
def call (H : Digests) (g : Graph) (c : Call) : Graph × Result :=
  match apply H g c with
  | .ok (g, result) => (g, result)
  | .error message => (g, .refused message)

def step (H : Digests) (g : Graph) (c : Call) : Graph := (call H g c).1

def run (H : Digests) : Graph → List Call → Graph := Transaction.run (step H)

/-! ### What a run granted -/

/-- What happens to the lease of an item. -/
inductive Event
  | granted (lease : Lease)
  | ended

def claimEvent (id : String) (result : Claimed) : Option Event :=
  match result.grant with
  | some grant =>
    if grant.workItemId = id then some (.granted grant.lease)
    else if id ∈ result.retired then some .ended else none
  | none => if id ∈ result.retired then some .ended else none

def CommitStatus.ends : CommitStatus → Bool
  | .succeeded => true
  | .failed => true
  | .cancelled => true
  | .deadLetter => true
  | .retryScheduled => true
  | _ => false

/-- What a call did to the lease of an item: claims grant and retire, a retry, a terminal commit, a
cancellation and a deferral end it, and nothing else touches it. -/
def event (id : String) : Call → Result → Option Event
  | .claim _, .claimed result => claimEvent id result
  | .commit request, .committed result =>
    if request.fence.workItemId = id ∧ CommitStatus.ends result.status = true then some .ended
    else none
  | .cancel request, .cancelled status =>
    if request.workItemId = id ∧ status = .cancelled then some .ended else none
  | .defer request, .deferred status =>
    if request.fence.workItemId = id ∧ status = .deferred then some .ended else none
  | _, _ => none

/-- What happens to the lease of an item in a run. -/
def events (H : Digests) (id : String) : Graph → List Call → List Event
  | _, [] => []
  | g, c :: cs => (event id c (call H g c).2).toList ++ events H id (step H g c) cs

/-- The tokens granted, in order. -/
def tokens (es : List Event) : List ℕ :=
  es.filterMap fun
    | .granted lease => some lease.token
    | .ended => none

def Event.lease : Event → Option Lease
  | .granted lease => some lease
  | .ended => none

/-- The last grant, if nothing has ended it since; `held` is the lease from before the events. -/
def standing (held : Option Lease) (es : List Event) : Option Lease :=
  es.foldl (fun _ e => e.lease) held

/-- The lease a call presents for an item. -/
def presented (id : String) : Call → Option Lease
  | .renew request => if request.fence.workItemId = id then some request.fence.lease else none
  | .commit request => if request.fence.workItemId = id then some request.fence.lease else none
  | .defer request => if request.fence.workItemId = id then some request.fence.lease else none
  | _ => none

end Medulla.WorkItem.Machine
