import Medulla.Index.Changes
import Medulla.Library.Postings
import Medulla.Library.Transaction

/-! # The lazy node indexes

Three caches are derived from the nodes: the label index, the property index and the sorted node ids.
Each is built by the first query that needs it. -/

namespace Medulla.Index.Caches

open Library.OrderedTable Library.OrderedSet Library.Postings Resource.Extension Changes

abbrev PropertyIndex := Table String (Index String String)

/-- The version each cache is current at. -/
structure IndexStamps where
  label : ℕ
  nodeId : ℕ
  property : ℕ

/-- A graph with its lazy indexes; a cold index is `none`. -/
structure GraphCore (Blob : Type) where
  graph : Graph Blob
  labelIndex : Option (Index String String)
  nodeIdIndex : Option (KeySet String)
  propertyIndex : Option PropertyIndex
  indexStamps : IndexStamps
  version : ℕ

variable {Blob : Type}

/-- A graph without indexes. -/
def GraphCore.cold (g : Graph Blob) (version : ℕ) : GraphCore Blob :=
  ⟨g, none, none, none, ⟨0, 0, 0⟩, version⟩

namespace GraphCore

/-! ### Stamps -/

def stampLabel (core : GraphCore Blob) (targetVersion : ℕ) : GraphCore Blob :=
  { core with indexStamps := { core.indexStamps with label := targetVersion } }

def stampNodeId (core : GraphCore Blob) (targetVersion : ℕ) : GraphCore Blob :=
  { core with indexStamps := { core.indexStamps with nodeId := targetVersion } }

def stampProperty (core : GraphCore Blob) (targetVersion : ℕ) : GraphCore Blob :=
  { core with indexStamps := { core.indexStamps with property := targetVersion } }

/-! ### The label index -/

/-- Files a node under its labels. -/
def labelIndexAdd (core : GraphCore Blob) (id : String) (val : Json) (targetVersion : ℕ) :
    GraphCore Blob :=
  match core.labelIndex with
  | none => core
  | some index =>
    { core with labelIndex := some ((labelsOf val).foldl (file id) index) }.stampLabel targetVersion

/-- Take an id out of the postings of its captured labels, or out of all when nothing was captured. -/
def labelIndexRemove (core : GraphCore Blob) (id : String) (val : Option Json) (targetVersion : ℕ) :
    GraphCore Blob :=
  match core.labelIndex with
  | none => core
  | some index =>
    { core with
      labelIndex := some (match val with
        | some val => (labelsOf val).foldl (unfile id) index
        | none => sweep id index) }.stampLabel targetVersion

def labelIndexRefile (core : GraphCore Blob) (id : String) (current : Option Json)
    (targetVersion : ℕ) : GraphCore Blob :=
  match core.labelIndex with
  | none => core
  | some index =>
    { core with
      labelIndex := some (match current with
        | some val => (labelsOf val).foldl (file id) (sweep id index)
        | none => sweep id index) }.stampLabel targetVersion

/-! ### The property index -/

def valueKey (val : Json) (key : String) : Option String := (Changes.get val key).bind propertyValueKey

/-- Files a node under its indexed values. -/
def propertyIndexAdd (core : GraphCore Blob) (id : String) (val : Json) (targetVersion : ℕ) :
    GraphCore Blob :=
  match core.propertyIndex with
  | none => core
  | some index =>
    { core with
      propertyIndex := some (index.mapEntries fun key byValue => match valueKey val key with
        | some vk => file id byValue vk
        | none => byValue) }.stampProperty targetVersion

/-- Take an id out of the posting of its captured value, key by key; a key without a captured value
is swept. -/
def propertyIndexRemove (core : GraphCore Blob) (id : String) (val : Option Json)
    (targetVersion : ℕ) : GraphCore Blob :=
  match core.propertyIndex with
  | none => core
  | some index =>
    { core with
      propertyIndex := some (index.mapEntries fun key byValue =>
        match val.bind (valueKey · key) with
        | some vk => unfile id byValue vk
        | none => sweep id byValue) }.stampProperty targetVersion

def refileField (id : String) (current : Option Json) (field : String) (byValue : Index String String) :
    Index String String :=
  match current.bind (valueKey · field) with
  | some vk => file id (sweep id byValue) vk
  | none => sweep id byValue

def refileIndexed (id : String) (current : Option Json) (index : PropertyIndex) (field : String) :
    PropertyIndex :=
  match index.get field with
  | some byValue => index.insert field (refileField id current field byValue)
  | none => index

/-- Files a node again under its changed fields. -/
def refileFields (id : String) (current : Option Json) (changedFields : List String)
    (index : PropertyIndex) : PropertyIndex :=
  changedFields.foldl (refileIndexed id current) index

def propertyIndexRefile (core : GraphCore Blob) (id : String) (changedFields : List String)
    (current : Option Json) (targetVersion : ℕ) : GraphCore Blob :=
  match core.propertyIndex with
  | none => core
  | some index =>
    let core := { core with propertyIndex := some (refileFields id current changedFields index) }
    -- Only a field that is indexed counts as touched.
    if changedFields.any fun field => (index.get field).isSome then core.stampProperty targetVersion
    else core

/-! ### The node ids -/

/-- Keeps the index of ids in step with a change. -/
def maintainNodeIdIndex (core : GraphCore Blob) (change : ChangeSet Blob) (targetVersion : ℕ) :
    GraphCore Blob :=
  if change.addedNodes.isEmpty && change.removedNodes.isEmpty then core
  else
    match core.nodeIdIndex with
    | none => core
    | some ids =>
      let ids := change.addedNodes.foldl (fun ids nc => add ids nc.id) ids
      let ids := change.removedNodes.foldl (fun ids id => ids.remove id) ids
      { core with nodeIdIndex := some ids }.stampNodeId targetVersion

/-! ### One change -/

variable (codec : Codec Blob)

/-- The current image of a node, or the captured one when that is gone or does not decode. -/
def nodePropsValue (core : GraphCore Blob) (id : String) (fallback : Option Blob) : Option Json :=
  ((core.graph.nodeProperties.get id).bind codec.decodePropertyValue).or
    (fallback.bind codec.decodePropertyValue)

/-- Takes a replaced node out of the indexes. -/
def unfileReplacedNode (core : GraphCore Blob) (id : String) (prior : Json) (targetVersion : ℕ) :
    GraphCore Blob :=
  (core.labelIndexRemove id (some prior) targetVersion).propertyIndexRemove id (some prior)
    targetVersion

def fileAddedNode (core : GraphCore Blob) (nc : NodeChange Blob) (val : Option Json)
    (targetVersion : ℕ) : GraphCore Blob :=
  match val with
  | some val =>
    (core.labelIndexAdd nc.id val targetVersion).propertyIndexAdd nc.id val targetVersion
  | none => { core with labelIndex := none, propertyIndex := none }

/-- An add that overwrote a node first takes it out of the postings of the replaced image. -/
def fileAddedUpsert (core : GraphCore Blob) (change : ChangeSet Blob) (nc : NodeChange Blob)
    (targetVersion : ℕ) : GraphCore Blob :=
  let val := core.nodePropsValue codec nc.id nc.propertiesMsgpack
  let core :=
    match (change.replacedNodeProps.get nc.id).bind codec.decodePropertyValue with
    | some prior => core.unfileReplacedNode nc.id prior targetVersion
    | none => core
  core.fileAddedNode nc val targetVersion

def unfileRemovedNode (core : GraphCore Blob) (id : String) (captured : Option Json)
    (targetVersion : ℕ) : GraphCore Blob :=
  (core.labelIndexRemove id captured targetVersion).propertyIndexRemove id captured targetVersion

def changesLabelFields (fields : List String) : Bool :=
  fields.any fun f => f = "type" || f = "node_type" || f = "label" || f = "labels"

/-- Files an updated node again. -/
def refileUpdatedNode (core : GraphCore Blob) (nc : NodeChange Blob) (fields : List String)
    (current : Option Json) (targetVersion : ℕ) : GraphCore Blob :=
  let core :=
    if changesLabelFields fields then core.labelIndexRefile nc.id current targetVersion else core
  core.propertyIndexRefile nc.id fields current targetVersion

/-- Gives up the indexes of labels and values. -/
def dropNodeDerivedCaches (core : GraphCore Blob) : GraphCore Blob :=
  { core with labelIndex := none, propertyIndex := none }

def maintainUpdate (core : GraphCore Blob) (nc : NodeChange Blob) (targetVersion : ℕ) :
    GraphCore Blob :=
  match nc.changedFields with
  | none => core.dropNodeDerivedCaches
  | some fields =>
    core.refileUpdatedNode nc fields (core.nodePropsValue codec nc.id none) targetVersion

/-! ### A batch -/

def maintainAdds (core : GraphCore Blob) (change : ChangeSet Blob) (targetVersion : ℕ) :
    GraphCore Blob :=
  change.addedNodes.foldl (fun core nc => core.fileAddedUpsert codec change nc targetVersion) core

def maintainRemoves (core : GraphCore Blob) (change : ChangeSet Blob) (targetVersion : ℕ) :
    GraphCore Blob :=
  change.removedNodes.foldl (fun core id =>
    core.unfileRemovedNode id ((change.removedNodeProps.get id).bind codec.decodePropertyValue)
      targetVersion) core

def maintainUpdates (core : GraphCore Blob) (change : ChangeSet Blob) (targetVersion : ℕ) :
    GraphCore Blob :=
  change.updatedNodes.foldl (fun core nc => core.maintainUpdate codec nc targetVersion) core

/-- Keeps the indexes in step with a batch. -/
def invalidateIndexesForChange (core : GraphCore Blob) (change : ChangeSet Blob)
    (targetVersion : ℕ) : GraphCore Blob :=
  let core := if change.hasNodeChanges then core.maintainNodeIdIndex change targetVersion else core
  let core := core.maintainAdds codec change targetVersion
  let core := core.maintainRemoves codec change targetVersion
  core.maintainUpdates codec change targetVersion

def saturatingAdd (a b : ℕ) : ℕ := min (a + b) (2 ^ 64 - 1)

/-- Writes a batch and maintains the indexes. -/
def applyBatch (captureContent : Bool) (core : GraphCore Blob) (batch : List (WriteOp Blob)) :
    GraphCore Blob :=
  let p := applyOps codec captureContent core.graph batch
  let core := { core with graph := p.1 }
  if p.2.isEmpty then core
  else core.invalidateIndexesForChange codec p.2 (saturatingAdd core.version p.2.len)

/-! ### Building and dropping -/

/-- Drops an index older than the graph. -/
def dropIfStale {α : Type} (cache : Option α) (stamp newVersion : ℕ) : Option α :=
  if stamp < newVersion then none else cache

/-- A committed write advances the version and retires the caches it did not maintain. -/
def markDirty (core : GraphCore Blob) : GraphCore Blob :=
  let newVersion := (core.version + 1) % 2 ^ 64
  { core with
    version := newVersion
    labelIndex := dropIfStale core.labelIndex core.indexStamps.label newVersion
    nodeIdIndex := dropIfStale core.nodeIdIndex core.indexStamps.nodeId newVersion
    propertyIndex := dropIfStale core.propertyIndex core.indexStamps.property newVersion }

/-- The index of labels, from all nodes. -/
def buildLabelIndex (g : Graph Blob) : Index String String :=
  g.nodeProperties.rows.foldl (fun index r => match codec.decodePropertyValue r.2 with
    | some val => (labelsOf val).foldl (file r.1) index
    | none => index) Table.empty

def buildPropertyValueMap (g : Graph Blob) (key : String) : Index String String :=
  g.nodeProperties.rows.foldl (fun index r =>
    match (codec.decodePropertyValue r.2).bind (valueKey · key) with
    | some vk => file r.1 index vk
    | none => index) Table.empty

def buildNodeIds (g : Graph Blob) : KeySet String := g.nodeMap

/-- Builds the index of labels if there is none. -/
def warmLabelIndex (core : GraphCore Blob) : GraphCore Blob :=
  match core.labelIndex with
  | some _ => core
  | none =>
    { core with labelIndex := some (buildLabelIndex codec core.graph) }.stampLabel core.version

def warmNodeIdIndex (core : GraphCore Blob) : GraphCore Blob :=
  match core.nodeIdIndex with
  | some _ => core
  | none => { core with nodeIdIndex := some (buildNodeIds core.graph) }.stampNodeId core.version

/-- The bound on indexed property keys, and the keys indexed on the first build. -/
structure PropertyLimits where
  maxIndexedProperties : ℕ
  seedIndexedProperties : List String

variable (limits : PropertyLimits)

def indexKey (g : Graph Blob) (index : PropertyIndex) (key : String) : PropertyIndex :=
  if limits.maxIndexedProperties ≤ index.rows.length then index
  else
    match index.get key with
    | some _ => index
    | none => index.insert key (buildPropertyValueMap codec g key)

def ensureKeyIndexed (g : Graph Blob) (index : PropertyIndex) (key : String) : PropertyIndex :=
  let index :=
    if index.rows.isEmpty then limits.seedIndexedProperties.foldl (indexKey codec limits g) index
    else index
  indexKey codec limits g index key

/-- Builds the index of one property if there is none. -/
def warmPropertyIndex (core : GraphCore Blob) (key : String) : GraphCore Blob :=
  match core.propertyIndex.bind fun index => index.get key with
  | some _ => core
  | none =>
    let index := ensureKeyIndexed codec limits core.graph (core.propertyIndex.getD Table.empty) key
    { core with propertyIndex := some index }.stampProperty
      (max core.indexStamps.property core.version)

/-! ### Runs -/

/-- What can happen to a graph: a batch, the mark of a committed write, or a query that warms an
index. -/
inductive Event (Blob : Type)
  | batch (captureContent : Bool) (ops : List (WriteOp Blob))
  | markDirty
  | queryLabel
  | queryUnlabeled
  | queryProperty (key : String)

def step (core : GraphCore Blob) : Event Blob → GraphCore Blob
  | .batch captureContent ops => core.applyBatch codec captureContent ops
  | .markDirty => core.markDirty
  | .queryLabel => core.warmLabelIndex codec
  | .queryUnlabeled => core.warmNodeIdIndex
  | .queryProperty key => core.warmPropertyIndex codec limits key

end GraphCore

end Medulla.Index.Caches
