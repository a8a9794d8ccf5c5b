import Medulla.Graph.Slots
import Medulla.Index.Changes
import Medulla.Library.Transaction
import Mathlib.Data.Prod.Lex

/-! # Graph transactions

The writes of a graph, under the topology lock. A node has a slot of the topology and one property image; an
edge is an edge of the topology and one blob in the list of its endpoint pair, so parallel edges of a pair
share a list. A typed edge keeps its relation type in its blob. -/

namespace Medulla.Graph.Txn

open Library.OrderedTable Resource.Extension Slots
open Index.Changes (Codec casImage)

/-- The topology with the property images of nodes and endpoint pairs. -/
structure GraphState (Blob : Type) where
  topo : Topology
  nodeProperties : Table String Blob
  edgeProperties : Table (String ×ₗ String) (List Blob)

variable {Blob : Type}

def GraphState.new : GraphState Blob := ⟨Topology.empty, Table.empty, Table.empty⟩

def GraphState.blobs (g : GraphState Blob) (a b : String) : List Blob :=
  (g.edgeProperties.get (toLex (a, b))).getD []

def GraphState.setBlobs (g : GraphState Blob) (a b : String) (blobs : List Blob) : GraphState Blob :=
  { g with edgeProperties := g.edgeProperties.insert (toLex (a, b)) blobs }

/-! ### Nodes -/

/-- Adds a node or overwrites its properties. -/
def addNode (g : GraphState Blob) (nodeId : String) (propertiesMsgpack : Blob) : GraphState Blob :=
  { g with
    topo := g.topo.addNode nodeId
    nodeProperties := g.nodeProperties.insert nodeId propertiesMsgpack }

def dropPairs (pairs : List (String × String)) (t : Table (String ×ₗ String) (List Blob)) :
    Table (String ×ₗ String) (List Blob) :=
  pairs.foldl (fun t p => t.remove (toLex p)) t

/-- Drops a node with its edges and their properties. -/
def removeNode (g : GraphState Blob) (nodeId : String) : GraphState Blob :=
  match g.topo.nodeMap.get nodeId with
  | none => g
  | some idx =>
    { topo := g.topo.removeNode nodeId
      nodeProperties := g.nodeProperties.remove nodeId
      edgeProperties := dropPairs (g.topo.incident idx) g.edgeProperties }

def selectedNodes (g : GraphState Blob) (nodeIds : List String) : List (String × ℕ) :=
  nodeIds.dedup.filterMap fun nodeId => (g.topo.nodeMap.get nodeId).map fun idx => (nodeId, idx)

def evictNode (g : GraphState Blob) (nodeId : String) : GraphState Blob :=
  { g with topo := g.topo.removeNode nodeId, nodeProperties := g.nodeProperties.remove nodeId }

/-- Drops the selected nodes from memory with what touches them. -/
def evictResidentNodes (g : GraphState Blob) (nodeIds : List String) : GraphState Blob :=
  let selected := selectedNodes g nodeIds
  let incident := selected.flatMap fun s => g.topo.incident s.2
  let g := selected.foldl (fun g s => evictNode g s.1) g
  { g with edgeProperties := dropPairs incident g.edgeProperties }

/-- Merges fields into a node when the conditions hold. -/
def compareAndSetFields (codec : Codec Blob) (g : GraphState Blob) (nodeId : String)
    (conditions updates : Fields) : GraphState Blob × Bool :=
  match (g.nodeProperties.get nodeId).bind (casImage codec conditions updates) with
  | some reenc => ({ g with nodeProperties := g.nodeProperties.insert nodeId reenc }, true)
  | none => (g, false)

/-! ### Edges -/

def edgeEndpointNotFound (role id : String) : String :=
  "INVALID_ARGUMENT: " ++ role ++ " node '" ++ id ++ "' not found in this graph. Edges cannot span " ++
  "graphs — each graph has its own independent node namespace, so " ++
  "`add_edge` only ever looks up '" ++ id ++ "' within the one graph this " ++
  "call is targeting. If '" ++ id ++ "' exists, it is either a typo/stale id " ++
  "or it belongs to a DIFFERENT graph than the one you're writing to; " ++
  "add both edge endpoints to the same graph, or use a cross-graph " ++
  "query/reference instead of a native edge."

/-- Adds an edge between stored nodes. -/
def addEdge (g : GraphState Blob) (sourceId targetId : String) (propertiesMsgpack : Blob) :
    Except String (GraphState Blob) :=
  match hs : g.topo.nodeMap.get sourceId with
  | none => .error (edgeEndpointNotFound "Source" sourceId)
  | some sourceIdx =>
    match ht : g.topo.nodeMap.get targetId with
    | none => .error (edgeEndpointNotFound "Target" targetId)
    | some targetIdx =>
      let topo := g.topo.addEdge sourceIdx targetIdx (g.topo.occupied hs) (g.topo.occupied ht)
      .ok ({ g with topo := topo }.setBlobs sourceId targetId
        (g.blobs sourceId targetId ++ [propertiesMsgpack]))

def defaultRelationType : String := "related_to"

/-- The relation type of an edge: the first text among its relation fields. -/
def blobRelationType (codec : Codec Blob) (blob : Blob) : String :=
  (((codec.decodePropertyValue blob).bind Json.asObject).bind fun obj =>
    ["relationship", "type", "label"].findSome? fun key => (lookupRow key obj).bind Json.asStr).getD
      defaultRelationType

def overwriteFirst (codec : Codec Blob) (relationType : String) (reenc : Blob) : List Blob → List Blob
  | [] => []
  | blob :: rest =>
    if blobRelationType codec blob = relationType then reenc :: rest
    else blob :: overwriteFirst codec relationType reenc rest

def typedBlob (codec : Codec Blob) (relationType : String) (propertiesMsgpack : Blob) :
    Except String Blob :=
  match ((codec.decodePropertyValue propertiesMsgpack).getD (.object [])).asObject with
  | none => .error "INVALID_ARGUMENT: typed edge properties must be an object"
  | some obj =>
    match codec.toVecNamed (.object (insertRow "relationship" (.text relationType) obj)) with
    | none => .error "INTERNAL: failed to encode typed edge properties"
    | some reenc => .ok reenc

/-- Adds an edge, or overwrites the first of this relation. -/
def addTypedEdge (codec : Codec Blob) (g : GraphState Blob) (sourceId targetId relationType : String)
    (propertiesMsgpack : Blob) : Except String (GraphState Blob) :=
  match typedBlob codec relationType propertiesMsgpack with
  | .error e => .error e
  | .ok reenc =>
    if (g.blobs sourceId targetId).any fun blob => blobRelationType codec blob = relationType then
      .ok (g.setBlobs sourceId targetId
        (overwriteFirst codec relationType reenc (g.blobs sourceId targetId)))
    else addEdge g sourceId targetId reenc

/-- Drops the edges of one relation between two nodes. -/
def removeTypedEdge (codec : Codec Blob) (g : GraphState Blob) (sourceId targetId relationType : String) :
    GraphState Blob :=
  match g.edgeProperties.get (toLex (sourceId, targetId)) with
  | none => g
  | some blobs =>
    g.setBlobs sourceId targetId (blobs.filter fun blob => blobRelationType codec blob ≠ relationType)

def removeEdge (g : GraphState Blob) (sourceId targetId : String) : GraphState Blob :=
  match g.topo.nodeMap.get sourceId, g.topo.nodeMap.get targetId with
  | some srcIdx, some tgtIdx =>
    { g with
      topo := g.topo.removeEdgesConnecting srcIdx tgtIdx
      edgeProperties := g.edgeProperties.remove (toLex (sourceId, targetId)) }
  | _, _ => g

/-- The windows of an edge are closed: it left the record, or it ended no later than the given time. -/
def alreadyClosed (obj : Fields) (invalidAt : ℕ) : Bool :=
  ((lookupRow "tx_to" obj).bind Json.asU64).isSome ||
    ((lookupRow "valid_until" obj).bind Json.asU64).any fun vu => vu ≤ invalidAt

def closedBlob (codec : Codec Blob) (relationship : String) (invalidAt txNow : ℕ) (blob : Blob) :
    Option Blob :=
  ((codec.decodePropertyValue blob).bind Json.asObject).bind fun obj =>
    if (lookupRow "relationship" obj).bind Json.asStr = some relationship ∧
        alreadyClosed obj invalidAt = false then
      codec.toVecNamed (.object
        (insertRow "tx_to" (.unsigned txNow) (insertRow "valid_until" (.unsigned invalidAt) obj)))
    else none

/-- Closes the edges of a relation at a time. -/
def invalidateEdge (codec : Codec Blob) (g : GraphState Blob) (sourceId targetId relationship : String)
    (invalidAt txNow : ℕ) : GraphState Blob × ℕ :=
  match g.edgeProperties.get (toLex (sourceId, targetId)) with
  | none => (g, 0)
  | some blobs =>
    let close := closedBlob codec relationship invalidAt txNow
    (g.setBlobs sourceId targetId (blobs.map fun blob => (close blob).getD blob),
      blobs.countP fun blob => (close blob).isSome)

structure PriorEdge where
  source : String
  target : String
  relationship : String
  validAt : ℕ
  txNow : ℕ

/-- Closes a prior edge and adds its successor. -/
def supersedeEdge (codec : Codec Blob) (g : GraphState Blob) (newSource newTarget : String)
    (newPropertiesMsgpack : Blob) (prior : PriorEdge) : Except String (GraphState Blob) :=
  if (g.topo.nodeMap.get newSource).isNone then .error (edgeEndpointNotFound "Source" newSource)
  else if (g.topo.nodeMap.get newTarget).isNone then .error (edgeEndpointNotFound "Target" newTarget)
  else
    let closed := invalidateEdge codec g prior.source prior.target prior.relationship prior.validAt
      prior.txNow
    if closed.2 = 0 then .error "INVALID_ARGUMENT: prior edge is missing or already closed"
    else addEdge closed.1 newSource newTarget newPropertiesMsgpack

/-! ### Runs -/

/-- A write of a graph transaction. -/
inductive Op (Blob : Type)
  | addNode (nodeId : String) (propertiesMsgpack : Blob)
  | removeNode (nodeId : String)
  | evictResidentNodes (nodeIds : List String)
  | addEdge (sourceId targetId : String) (propertiesMsgpack : Blob)
  | addTypedEdge (sourceId targetId relationType : String) (propertiesMsgpack : Blob)
  | removeEdge (sourceId targetId : String)
  | removeTypedEdge (sourceId targetId relationType : String)
  | invalidateEdge (sourceId targetId relationship : String) (invalidAt txNow : ℕ)
  | supersedeEdge (newSource newTarget : String) (newPropertiesMsgpack : Blob) (prior : PriorEdge)
  | compareAndSetFields (nodeId : String) (conditions updates : Fields)

def settled (g : GraphState Blob) : Except String (GraphState Blob) → GraphState Blob
  | .ok g' => g'
  | .error _ => g

/-- One graph call; a refused one changes nothing. -/
def step (codec : Codec Blob) (g : GraphState Blob) : Op Blob → GraphState Blob
  | .addNode nodeId blob => addNode g nodeId blob
  | .removeNode nodeId => removeNode g nodeId
  | .evictResidentNodes nodeIds => evictResidentNodes g nodeIds
  | .addEdge sourceId targetId blob => settled g (addEdge g sourceId targetId blob)
  | .addTypedEdge sourceId targetId relationType blob =>
    settled g (addTypedEdge codec g sourceId targetId relationType blob)
  | .removeEdge sourceId targetId => removeEdge g sourceId targetId
  | .removeTypedEdge sourceId targetId relationType =>
    removeTypedEdge codec g sourceId targetId relationType
  | .invalidateEdge sourceId targetId relationship invalidAt txNow =>
    (invalidateEdge codec g sourceId targetId relationship invalidAt txNow).1
  | .supersedeEdge newSource newTarget blob prior =>
    -- The endpoints are checked before the prior edge is closed, so the successor is never refused.
    settled g (supersedeEdge codec g newSource newTarget blob prior)
  | .compareAndSetFields nodeId conditions updates =>
    (compareAndSetFields codec g nodeId conditions updates).1

end Medulla.Graph.Txn
