import Medulla.Resource.Extension
import Medulla.Library.OrderedSet

/-! # A coalesced batch and its change set

The write coalescer applies a batch of node writes under one lock, in order, and writes down what it
did: the added, removed and updated nodes, each in a list of its own, the image an add overwrote and
the image a removal deleted. The indexes are then maintained from that change set alone. A property
image is stored encoded; the codec is the caller's, and an image that does not decode is a node
without labels and properties. Edges are written by the same batches; of them only their number is
kept. -/

namespace Medulla.Index.Changes

open Library.OrderedTable Library.OrderedSet Resource.Extension

mutual

def sameJson : Json → Json → Bool
  | .null, .null => true
  | .bool a, .bool b => a == b
  | .unsigned a, .unsigned b => a == b
  | .number a, .number b => a == b
  | .text a, .text b => a == b
  | .array xs, .array ys => sameValues xs ys
  | .object xs, .object ys => sameFields xs ys
  | _, _ => false

def sameValues : List Json → List Json → Bool
  | [], [] => true
  | x :: xs, y :: ys => sameJson x y && sameValues xs ys
  | _, _ => false

def sameFields : List (String × Json) → List (String × Json) → Bool
  | [], [] => true
  | x :: xs, y :: ys => sameField x y && sameFields xs ys
  | _, _ => false

def sameField : String × Json → String × Json → Bool
  | (k, x), (l, y) => k == l && sameJson x y

end

instance : BEq Json := ⟨sameJson⟩

mutual

theorem sameJson_iff : ∀ {x y : Json}, sameJson x y = true ↔ x = y
  | .null, y => by cases y <;> simp [sameJson]
  | .bool _, y => by cases y <;> simp [sameJson]
  | .unsigned _, y => by cases y <;> simp [sameJson]
  | .number _, y => by cases y <;> simp [sameJson]
  | .text _, y => by cases y <;> simp [sameJson]
  | .array xs, y => by cases y <;> simp [sameJson, @sameValues_iff xs]
  | .object xs, y => by cases y <;> simp [sameJson, @sameFields_iff xs]

theorem sameValues_iff : ∀ {xs ys : List Json}, sameValues xs ys = true ↔ xs = ys
  | [], ys => by cases ys <;> simp [sameValues]
  | x :: xs, ys => by cases ys <;> simp [sameValues, @sameJson_iff x, @sameValues_iff xs]

theorem sameFields_iff : ∀ {xs ys : List (String × Json)}, sameFields xs ys = true ↔ xs = ys
  | [], ys => by cases ys <;> simp [sameFields]
  | x :: xs, ys => by cases ys <;> simp [sameFields, @sameField_iff x, @sameFields_iff xs]

theorem sameField_iff : ∀ {x y : String × Json}, sameField x y = true ↔ x = y
  | (_, x), (_, y) => by simp [sameField, @sameJson_iff x]

end

instance : LawfulBEq Json where
  eq_of_beq := sameJson_iff.mp
  rfl := sameJson_iff.mpr rfl

/-! ### Property images -/

structure Codec (Blob : Type) where
  decodePropertyValue : Blob → Option Json
  toVecNamed : Json → Option Blob
  noBytes : Blob

def plainCodec : Codec Json := ⟨some, some, .null⟩

/-- The value of a field; a value that is not an object has none. -/
def get (val : Json) (key : String) : Option Json := val.asObject.bind (lookupRow key)

def nodeLabelKeys : List String := ["type", "node_type", "label"]

def labelsOf (val : Json) : List String :=
  nodeLabelKeys.filterMap (fun key => (get val key).bind Json.asStr) ++
    (((get val "labels").bind Json.asArray).getD []).filterMap Json.asStr

def propertyValueKey : Json → Option String
  | .text s => some s
  | .bool b => some (if b then "true" else "false")
  | .unsigned n => some (toString n)
  | .number text => some text
  | _ => none

/-! ### The graph -/

/-- The nodes of the topology and their property images, for the same ids. -/
structure Graph (Blob : Type) where
  nodeMap : KeySet String
  nodeProperties : Table String Blob
  aligned : ∀ id, has nodeMap id = (nodeProperties.get id).isSome

variable {Blob : Type}

namespace Graph

def empty : Graph Blob := ⟨Table.empty, Table.empty, fun _ => rfl⟩

def addNode (g : Graph Blob) (nodeId : String) (propertiesMsgpack : Blob) : Graph Blob where
  nodeMap := add g.nodeMap nodeId
  nodeProperties := g.nodeProperties.insert nodeId propertiesMsgpack
  aligned id := by
    rw [Bool.eq_iff_iff, has_add, Table.get_insert, g.aligned id]
    by_cases h : id = nodeId
    · simp [h]
    · simp [h]

def removeNode (g : Graph Blob) (nodeId : String) : Graph Blob :=
  if has g.nodeMap nodeId then
    { nodeMap := g.nodeMap.remove nodeId
      nodeProperties := g.nodeProperties.remove nodeId
      aligned := fun id => by
        rw [Bool.eq_iff_iff, has_remove, Table.get_remove, g.aligned id]
        by_cases h : id = nodeId
        · simp [h]
        · simp [h] }
  else g

def setProperties (g : Graph Blob) (nodeId : String) (image : Blob)
    (h : (g.nodeProperties.get nodeId).isSome) : Graph Blob where
  nodeMap := g.nodeMap
  nodeProperties := g.nodeProperties.insert nodeId image
  aligned id := by
    rw [g.aligned id, Table.get_insert]
    by_cases hid : id = nodeId
    · rw [hid, h, if_pos rfl, Option.isSome_some]
    · rw [if_neg hid]

end Graph

/-- Every condition holds of the current fields; a missing field reads as null. -/
def conditionsHold (obj conditions : Fields) : Bool :=
  conditions.all fun c => (lookupRow c.1 obj).getD .null == c.2

def mergeUpdates (obj updates : Fields) : Fields :=
  updates.foldl (fun obj u => insertRow u.1 u.2 obj) obj

/-- The object a compare-and-set would merge its updates into: the image decodes to an object that
meets the conditions. -/
def casObject (codec : Codec Blob) (conditions : Fields) (image : Blob) : Option Fields :=
  ((codec.decodePropertyValue image).bind Json.asObject).filter (conditionsHold · conditions)

/-- The image a compare-and-set writes, if it wins. -/
def casImage (codec : Codec Blob) (conditions updates : Fields) (image : Blob) : Option Blob :=
  (casObject codec conditions image).bind fun obj =>
    codec.toVecNamed (.object (mergeUpdates obj updates))

def compareAndSetFields (codec : Codec Blob) (g : Graph Blob) (nodeId : String)
    (conditions updates : Fields) : Option (Graph Blob) :=
  match hg : g.nodeProperties.get nodeId with
  | none => none
  | some image =>
    (casImage codec conditions updates image).map fun reenc =>
      g.setProperties nodeId reenc (by rw [hg]; rfl)

/-! ### Change sets -/

structure NodeChange (Blob : Type) where
  id : String
  propertiesMsgpack : Option Blob
  changedFields : Option (List String)

structure ChangeSet (Blob : Type) where
  addedNodes : List (NodeChange Blob)
  updatedNodes : List (NodeChange Blob)
  removedNodes : List String
  addedEdges : List (String × String)
  removedEdges : List (String × String)
  removedNodeProps : Table String Blob
  replacedNodeProps : Table String Blob

namespace ChangeSet

def new : ChangeSet Blob := ⟨[], [], [], [], [], Table.empty, Table.empty⟩

def isEmpty (c : ChangeSet Blob) : Bool :=
  c.addedNodes.isEmpty && c.updatedNodes.isEmpty && c.removedNodes.isEmpty && c.addedEdges.isEmpty &&
    c.removedEdges.isEmpty

def hasNodeChanges (c : ChangeSet Blob) : Bool :=
  !c.addedNodes.isEmpty || !c.updatedNodes.isEmpty || !c.removedNodes.isEmpty

def len (c : ChangeSet Blob) : ℕ :=
  c.addedNodes.length + c.updatedNodes.length + c.removedNodes.length + c.addedEdges.length +
    c.removedEdges.length

/-- Keep the first image of the batch that an add of the node overwrites. -/
def recordReplacedNode (c : ChangeSet Blob) (id : String) (prior : Blob) : ChangeSet Blob :=
  match c.replacedNodeProps.get id with
  | some _ => c
  | none => { c with replacedNodeProps := c.replacedNodeProps.insert id prior }

def recordAddNode (c : ChangeSet Blob) (nc : NodeChange Blob) : ChangeSet Blob :=
  { c with addedNodes := c.addedNodes ++ [nc] }

def recordUpdateNode (c : ChangeSet Blob) (nc : NodeChange Blob) : ChangeSet Blob :=
  { c with updatedNodes := c.updatedNodes ++ [nc] }

def recordRemoveNode (c : ChangeSet Blob) (id : String) : ChangeSet Blob :=
  { c with removedNodes := c.removedNodes ++ [id] }

def recordRemoveNodeCaptured (c : ChangeSet Blob) (id : String) (image : Blob) : ChangeSet Blob :=
  { c with
    removedNodeProps := c.removedNodeProps.insert id image
    removedNodes := c.removedNodes ++ [id] }

def recordAddEdge (c : ChangeSet Blob) (source target : String) : ChangeSet Blob :=
  { c with addedEdges := c.addedEdges ++ [(source, target)] }

def recordRemoveEdge (c : ChangeSet Blob) (source target : String) : ChangeSet Blob :=
  { c with removedEdges := c.removedEdges ++ [(source, target)] }

end ChangeSet

/-! ### Batches -/

inductive WriteOp (Blob : Type)
  | addNode (nodeId : String) (propertiesMsgpack : Blob)
  | removeNode (nodeId : String)
  | addEdge (sourceId targetId : String)
  | removeEdge (sourceId targetId : String)
  | compareAndSet (nodeId : String) (conditions updates : Fields)

abbrev Progress (Blob : Type) := Graph Blob × ChangeSet Blob

/-- `record_replaced_image`: capture what an add of the node is about to overwrite. -/
def recordReplacedImage (g : Graph Blob) (c : ChangeSet Blob) (nodeId : String) : ChangeSet Blob :=
  match g.nodeProperties.get nodeId with
  | some prior => c.recordReplacedNode nodeId prior
  | none => c

variable (codec : Codec Blob) (captureContent : Bool)

def applyAddNode (p : Progress Blob) (nodeId : String) (propertiesMsgpack : Blob) : Progress Blob :=
  let nc := ⟨nodeId, if captureContent then some propertiesMsgpack else none, none⟩
  (p.1.addNode nodeId propertiesMsgpack, recordReplacedImage p.1 (p.2.recordAddNode nc) nodeId)

def applyRemoveNode (p : Progress Blob) (nodeId : String) : Progress Blob :=
  (p.1.removeNode nodeId, match p.1.nodeProperties.get nodeId with
    | some props => p.2.recordRemoveNodeCaptured nodeId props
    | none => p.2.recordRemoveNode nodeId)

def applyAddEdge (p : Progress Blob) (sourceId targetId : String) : Progress Blob :=
  (p.1,
    if has p.1.nodeMap sourceId && has p.1.nodeMap targetId then p.2.recordAddEdge sourceId targetId
    else p.2)

def applyRemoveEdge (p : Progress Blob) (sourceId targetId : String) : Progress Blob :=
  (p.1, p.2.recordRemoveEdge sourceId targetId)

def applyCompareAndSet (p : Progress Blob) (nodeId : String) (conditions updates : Fields) :
    Progress Blob :=
  match compareAndSetFields codec p.1 nodeId conditions updates with
  | some g =>
    let blob := (codec.toVecNamed (.object updates)).getD codec.noBytes
    (g, p.2.recordUpdateNode
      ⟨nodeId, if captureContent then some blob else none, some (updates.map Prod.fst)⟩)
  | none => p

def applyOp (p : Progress Blob) : WriteOp Blob → Progress Blob
  | .addNode nodeId propertiesMsgpack => applyAddNode captureContent p nodeId propertiesMsgpack
  | .removeNode nodeId => applyRemoveNode p nodeId
  | .addEdge sourceId targetId => applyAddEdge p sourceId targetId
  | .removeEdge sourceId targetId => applyRemoveEdge p sourceId targetId
  | .compareAndSet nodeId conditions updates =>
    applyCompareAndSet codec captureContent p nodeId conditions updates

def applyOps (g : Graph Blob) (batch : List (WriteOp Blob)) : Progress Blob :=
  batch.foldl (applyOp codec captureContent) (g, ChangeSet.new)

end Medulla.Index.Changes
