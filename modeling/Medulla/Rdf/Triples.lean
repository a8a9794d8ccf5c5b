import Medulla.Graph.Agreement
import Medulla.Rdf.Terms

/-! # Triples written one at a time

A literal triple is a cell of its subject's property object, at the key of its predicate; a second
literal of the same predicate goes to a reserved object of overflow lists. A resource triple is an
edge whose blob holds the predicate as its relationship; a type is also folded into the subject's
`type` property. -/

namespace Medulla.Rdf.Triples

open Library.OrderedTable Resource.Extension Terms Graph.Txn
open Index.Changes (Codec)

/-! ### Vocabulary -/

def namedGraphMarker : String := "NamedGraph"

/-- The reserved property key of second and later literals. -/
def rdfMultiValueKey : String := "__rdf_multivalue_literals"

def rdfType : String := "http://www.w3.org/1999/02/22-rdf-syntax-ns#type"

def tboxSchemaPredicates : List String :=
  ["http://www.w3.org/2000/01/rdf-schema#subClassOf",
    "http://www.w3.org/2000/01/rdf-schema#subPropertyOf",
    "http://www.w3.org/2000/01/rdf-schema#domain",
    "http://www.w3.org/2000/01/rdf-schema#range",
    "http://www.w3.org/2002/07/owl#equivalentClass",
    "http://www.w3.org/2002/07/owl#equivalentProperty",
    "http://www.w3.org/2002/07/owl#disjointWith",
    "http://www.w3.org/2002/07/owl#propertyDisjointWith",
    "http://www.w3.org/2002/07/owl#inverseOf",
    "http://www.w3.org/2002/07/owl#onProperty",
    "http://www.w3.org/2002/07/owl#someValuesFrom",
    "http://www.w3.org/2002/07/owl#allValuesFrom",
    "http://www.w3.org/2002/07/owl#hasValue",
    "http://www.w3.org/2002/07/owl#intersectionOf",
    "http://www.w3.org/2002/07/owl#unionOf"]

def tboxTypeObjects : List String :=
  ["http://www.w3.org/2002/07/owl#Class", "http://www.w3.org/2000/01/rdf-schema#Class",
    "http://www.w3.org/2002/07/owl#ObjectProperty",
    "http://www.w3.org/2002/07/owl#DatatypeProperty",
    "http://www.w3.org/2002/07/owl#AnnotationProperty",
    "http://www.w3.org/1999/02/22-rdf-syntax-ns#Property",
    "http://www.w3.org/2002/07/owl#Restriction",
    "http://www.w3.org/2002/07/owl#Ontology"]

/-! ### The graph core -/

structure GraphCore (Blob : Type) where
  graph : GraphState Blob
  schemaRefs : Table String ℕ

variable {Blob : Type}

namespace GraphCore

def new : GraphCore Blob := ⟨GraphState.new, Table.empty⟩

def addNode (core : GraphCore Blob) (nodeId : String) (propertiesMsgpack : Blob) : GraphCore Blob :=
  { core with graph := Graph.Txn.addNode core.graph nodeId propertiesMsgpack }

def removeNode (core : GraphCore Blob) (nodeId : String) : GraphCore Blob :=
  { core with graph := Graph.Txn.removeNode core.graph nodeId }

def hasNode (core : GraphCore Blob) (nodeId : String) : Bool := (core.graph.topo.nodeMap.get nodeId).isSome

/-- Record one more live schema triple that names an id. -/
def markSchemaRef (core : GraphCore Blob) (id : String) : GraphCore Blob :=
  { core with schemaRefs := core.schemaRefs.insert id ((core.schemaRefs.get id).getD 0 + 1) }

/-- Release one live schema triple that names an id, down to none. -/
def unmarkSchemaRef (core : GraphCore Blob) (id : String) : GraphCore Blob :=
  match core.schemaRefs.get id with
  | none => core
  | some count => { core with schemaRefs := core.schemaRefs.insert id (count - 1) }

/-- A node is schema while a live schema triple names it. -/
def isSchemaNode (core : GraphCore Blob) (id : String) : Bool :=
  (core.schemaRefs.get id).any fun count => 0 < count

end GraphCore

def decodeEdgeRelationship (codec : Codec Blob) (blob : Blob) : Option String :=
  ((codec.decodePropertyValue blob).bind Json.asObject).bind fun properties =>
    (lookupRow "relationship" properties).bind Json.asStr

/-! ### Node objects -/

def readNodeObj (codec : Codec Blob) (core : GraphCore Blob) (id : String) : Fields :=
  (((core.graph.nodeProperties.get id).bind codec.decodePropertyValue).bind Json.asObject).getD []

def writeNodeObj (codec : Codec Blob) (core : GraphCore Blob) (id : String) (map : Fields) :
    GraphCore Blob :=
  core.addNode id ((codec.toVecNamed (.object map)).getD codec.noBytes)

def ensureNode (codec : Codec Blob) (core : GraphCore Blob) (id : String) : GraphCore Blob :=
  if core.hasNode id then core else writeNodeObj codec core id []

/-- The overflow object of a node, absent read as empty; `none` when something else stands there. -/
def overflowObject (map : Fields) : Option Fields :=
  match lookupRow rdfMultiValueKey map with
  | none => some []
  | some extras => extras.asObject

/-- The overflow list of a predicate, absent read as empty; `none` when something else stands there. -/
def overflowList (extras : Fields) (key : String) : Option (List Json) :=
  match lookupRow key extras with
  | none => some []
  | some values => values.asArray

def overflowCells (map : Fields) (key : String) : Option (Fields × List Json) := do
  let extras ← overflowObject map
  let values ← overflowList extras key
  some (extras, values)

def setOverflow (map extras : Fields) (key : String) (values : List Json) : Fields :=
  insertRow rdfMultiValueKey (.object (insertRow key (.array values) extras)) map

def mergedProperty (map : Fields) (key : String) (cell : Json) : Option Fields :=
  if lookupRow key map == some cell then none
  else if (lookupRow key map).isSome then
    match overflowCells map key with
    | none => none
    | some (extras, values) =>
      if values.contains cell then none else some (setOverflow map extras key (values ++ [cell]))
  else some (insertRow key cell map)

def writeIfChanged (codec : Codec Blob) (core : GraphCore Blob) (id : String) :
    Option Fields → GraphCore Blob × Bool
  | some map => (writeNodeObj codec core id map, true)
  | none => (core, false)

def mergeProperty (codec : Codec Blob) (core : GraphCore Blob) (id key : String) (cell : Json) :
    GraphCore Blob × Bool :=
  writeIfChanged codec core id (mergedProperty (readNodeObj codec core id) key cell)

def storedOverflow (map : Fields) (key : String) : Option (Fields × List Json) := do
  let extras ← (lookupRow rdfMultiValueKey map).bind Json.asObject
  let values ← (lookupRow key extras).bind Json.asArray
  some (extras, values)

def pruneEmptyMultivalue (map : Fields) (predicate : String) : Fields :=
  match (lookupRow rdfMultiValueKey map).bind Json.asObject with
  | none => map
  | some extras =>
    let kept :=
      if ((lookupRow predicate extras).bind Json.asArray).any List.isEmpty then removeRow predicate extras
      else extras
    if kept.isEmpty then removeRow rdfMultiValueKey map
    else insertRow rdfMultiValueKey (.object kept) map

/-- The object without a literal of a lexical value: the first overflow cell takes the place of a removed
primary one. -/
def deletedProperty (map : Fields) (key value : String) : Option Fields :=
  if ((lookupRow key map).bind cellLexical) = some value then
    some (pruneEmptyMultivalue
      (match storedOverflow map key with
      | some (extras, promoted :: values) => insertRow key promoted (setOverflow map extras key values)
      | _ => removeRow key map) key)
  else
    match storedOverflow map key with
    | none => none
    | some (extras, values) =>
      (values.findIdx? fun cell => cellLexical cell = some value).map fun position =>
        pruneEmptyMultivalue (setOverflow map extras key (values.eraseIdx position)) key

/-- Remove a literal whose lexical value matches. -/
def deleteProperty (codec : Codec Blob) (core : GraphCore Blob) (id key value : String) :
    GraphCore Blob × Bool :=
  writeIfChanged codec core id (deletedProperty (readNodeObj codec core id) key value)

def setTypeProperty (codec : Codec Blob) (core : GraphCore Blob) (id typeIri : String) :
    GraphCore Blob × Bool :=
  let map := readNodeObj codec core id
  writeIfChanged codec core id
    (if lookupRow "type" map == some (.text typeIri) then none
    else some (insertRow "type" (.text typeIri) map))

def clearTypeProperty (codec : Codec Blob) (core : GraphCore Blob) (id typeIri : String) :
    GraphCore Blob × Bool :=
  let map := readNodeObj codec core id
  writeIfChanged codec core id
    (if (lookupRow "type" map).bind Json.asStr = some typeIri then some (removeRow "type" map) else none)

/-! ### Edges -/

def edgeObject (p : String) : Json := .object [("relationship", .text p)]

/-- Add a typed edge unless one already exists; whether it was added. -/
def addEdgeIfAbsent (codec : Codec Blob) (core : GraphCore Blob) (s o p : String) :
    GraphCore Blob × Except String Bool :=
  if (core.graph.blobs s o).any fun blob => decodeEdgeRelationship codec blob = some p then
    (core, .ok false)
  else
    match codec.toVecNamed (edgeObject p) with
    | none => (core, .error "encode edge")
    | some blob =>
      match addEdge core.graph s o blob with
      | .error e => (core, .error e)
      | .ok graph => ({ core with graph := graph }, .ok true)

/-- The blobs that survive the removal of the first edge of a relationship, if there is one. -/
def survivors (codec : Codec Blob) (p : String) : List Blob → Option (List Blob)
  | [] => none
  | blob :: rest =>
    if decodeEdgeRelationship codec blob = some p then some rest
    else (survivors codec p rest).map (blob :: ·)

/-- Remove the one edge of a relationship: every edge of the pair goes, and the survivors come back. -/
def removeTypedEdge (codec : Codec Blob) (core : GraphCore Blob) (s o p : String) :
    GraphCore Blob × Bool :=
  match survivors codec p (core.graph.blobs s o) with
  | none => (core, false)
  | some blobs =>
    ({ core with
        graph := blobs.foldl (fun g blob => settled g (addEdge g s o blob)) (removeEdge core.graph s o) },
      true)

/-! ### Triples -/

/-- An object as the writers take it. -/
inductive ObjTerm
  | literal (lit : Literal)
  | resource (id : String)

def objFromTerm : Term → ObjTerm
  | .literal lit => .literal lit
  | .namedNode iri => .resource (iriId iri)
  | .blankNode label => .resource (blankId label)

def declaresSchema (o : String) : Bool := (stripAngles o).any tboxTypeObjects.contains

/-- The ends of a resource triple that it makes schema: subject, object. -/
def schemaEnds (p o : String) : Bool × Bool :=
  if p = rdfType then (declaresSchema o, false)
  else if tboxSchemaPredicates.contains p then (true, true)
  else (false, false)

def classifySchemaTriple (codec : Codec Blob) (core : GraphCore Blob) (s p o : String) :
    GraphCore Blob × Bool × (Bool × Bool) :=
  if p = rdfType then
    match stripAngles o with
    | none => (core, false, schemaEnds p o)
    | some iri =>
      let (core, changed) := setTypeProperty codec core s iri
      (core, changed, schemaEnds p o)
  else (core, false, schemaEnds p o)

def markEnds (core : GraphCore Blob) (s o : String) (ends : Bool × Bool) : GraphCore Blob :=
  let core := if ends.1 then core.markSchemaRef s else core
  if ends.2 then core.markSchemaRef o else core

def unmarkEnds (core : GraphCore Blob) (s o : String) (ends : Bool × Bool) : GraphCore Blob :=
  let core := if ends.1 then core.unmarkSchemaRef s else core
  if ends.2 then core.unmarkSchemaRef o else core

def insertResourceTriple (codec : Codec Blob) (core : GraphCore Blob) (s p o : String) :
    GraphCore Blob × Except String Bool :=
  let core := ensureNode codec (ensureNode codec core s) o
  let (core, changed, ends) := classifySchemaTriple codec core s p o
  match addEdgeIfAbsent codec core s o p with
  | (core, .error e) => (core, .error e)
  | (core, .ok false) => (core, .ok changed)
  | (core, .ok true) => (markEnds core s o ends, .ok true)

def insertTriple (codec : Codec Blob) (core : GraphCore Blob) (s p : String) :
    ObjTerm → GraphCore Blob × Except String Bool
  | .literal lit =>
    let (core, changed) := mergeProperty codec (ensureNode codec core s) s p (literalToCell lit)
    (core, .ok changed)
  | .resource o => insertResourceTriple codec core s p o

def deleteResourceTriple (codec : Codec Blob) (core : GraphCore Blob) (s p o : String) :
    GraphCore Blob × Bool :=
  let (core, edgeRemoved) := removeTypedEdge codec core s o p
  let (core, cleared) :=
    match (if p = rdfType then stripAngles o else none) with
    | some iri => clearTypeProperty codec core s iri
    | none => (core, false)
  (if edgeRemoved then unmarkEnds core s o (schemaEnds p o) else core, edgeRemoved || cleared)

def deleteTriple (codec : Codec Blob) (core : GraphCore Blob) (s p : String) :
    ObjTerm → GraphCore Blob × Bool
  | .literal lit => deleteProperty codec core s p lit.value
  | .resource o => deleteResourceTriple codec core s p o

/-- Insert triples in order, up to the first error; the number of them that added something. -/
def insertTriples (codec : Codec Blob) (core : GraphCore Blob) (inserted : ℕ) :
    List Triple → GraphCore Blob × Except String ℕ
  | [] => (core, .ok inserted)
  | t :: ts =>
    match insertTriple codec core (subjectId t.subject) t.predicate (objFromTerm t.object) with
    | (core, .error e) => (core, .error e)
    | (core, .ok changed) => insertTriples codec core (inserted + changed.toNat) ts

def removeTriples (codec : Codec Blob) (core : GraphCore Blob) (removed : ℕ) :
    List Triple → GraphCore Blob × ℕ
  | [] => (core, removed)
  | t :: ts =>
    let (core, changed) := deleteTriple codec core (subjectId t.subject) t.predicate (objFromTerm t.object)
    removeTriples codec core (removed + changed.toNat) ts

end Medulla.Rdf.Triples
