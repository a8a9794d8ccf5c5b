import Medulla.Resource.Lifecycle
import Medulla.WorkItem.Machine

/-! # Runs of the resource operations

Resource operations and native WorkItem operations in any order on one graph. A failed operation is
rolled back. `rewrite` stands for any other writer of the node rows: it leaves the ledger alone and
puts an arbitrary graph in the place of the old one. -/

namespace Medulla.Resource.Machine

open Library WorkItem.Rows WorkItem.Submit Requests Extension Admission
open Lifecycle

inductive Op
  | updateHost (request : HostUpdateRequest)
  | lifecycle (mode : Mode) (request : ReservationRequest)
  | workItem (call : WorkItem.Machine.Call)
  | rewrite (items : Graph)

/-- What the operations take from outside: the digests of submissions and the codecs of metadata. -/
structure Context where
  digests : Digests
  codecs : Codecs

/-- Run a lifecycle call; a failed one changes nothing and answers nothing. -/
def lifecycleCall (ctx : Context) (mode : Mode) (request : ReservationRequest) (l : Ledger) :
    Ledger × Option ReservationResult :=
  match applyResourceReservationLifecycle ctx.codecs mode request l with
  | .ok (l', result) => (l', some result)
  | .error _ => (l, none)

def step (ctx : Context) (l : Ledger) : Op → Ledger
  | .updateHost request =>
    match applyUpdateResourceHost request l with
    | .ok (l', _) => l'
    | .error _ => l
  | .lifecycle mode request => (lifecycleCall ctx mode request l).1
  | .workItem call => { l with items := WorkItem.Machine.step ctx.digests l.items call }
  | .rewrite items => { l with items := items }

def run (ctx : Context) : Ledger → List Op → Ledger := Transaction.run (step ctx)

def acceptedAttempt (ctx : Context) (l : Ledger) : Op → Option (String × ℕ)
  | .lifecycle .reserve request =>
    if (lifecycleCall ctx .reserve request l).2.any (fun result => result.decision = .accepted) then
      some (request.workItemId, request.attempt)
    else none
  | _ => none

/-- The attempts that a run got reservations accepted for, in order. -/
def acceptedAttempts (ctx : Context) : Ledger → List Op → List (String × ℕ)
  | _, [] => []
  | l, op :: ops => (acceptedAttempt ctx l op).toList ++ acceptedAttempts ctx (step ctx l op) ops

end Medulla.Resource.Machine
