import Medulla.Rdf.Triples

/-! # Bulk loading and export

Loading lowers a whole list of triples to rows first, and then writes the rows in one transaction:
node objects under their ids, edges in triple order, one schema reference for each occurrence of a
schema triple. A second literal of a subject and predicate is set aside and merged into the overflow
object after the last triple. -/

namespace Medulla.Rdf.Lowering

open Library.OrderedTable Resource.Extension Terms Triples Graph.Txn
open Index.Changes (Codec)

variable {Blob : Type}

/-! ### Lowering -/

structure LoweredAccum where
  nodeProps : Table String Fields
  edges : List (String × String × String)
  multivalue : List (String × String × Json)
  schemaRefs : List String

def LoweredAccum.empty : LoweredAccum := ⟨Table.empty, [], [], []⟩

def orDefault (nodeProps : Table String Fields) (id : String) : Table String Fields :=
  match nodeProps.get id with
  | some _ => nodeProps
  | none => nodeProps.insert id []

/-- The ids a resource triple names as schema, each as often as it does. -/
def schemaIds (s p o : String) : List String :=
  (if (schemaEnds p o).1 then [s] else []) ++ if (schemaEnds p o).2 then [o] else []

def foldType (properties : Fields) (p : String) : Term → Fields
  | .namedNode nodeType =>
    if p = rdfType ∧ lookupRow "type" properties = none then insertRow "type" (.text nodeType) properties
    else properties
  | _ => properties

def lowerOneTriple (accum : LoweredAccum) (t : Triple) : Except String LoweredAccum :=
  let subject := subjectId t.subject
  match t.object with
  | .literal lit =>
    let nodeProps := orDefault accum.nodeProps subject
    let properties := (nodeProps.get subject).getD []
    if (lookupRow t.predicate properties).isSome then
      .ok { accum with
        nodeProps := nodeProps
        multivalue := accum.multivalue ++ [(subject, t.predicate, literalToCell lit)] }
    else
      .ok { accum with
        nodeProps := nodeProps.insert subject (insertRow t.predicate (literalToCell lit) properties) }
  | object =>
    match termNodeId object with
    | none => .error "RDF resource object has no canonical node id"
    | some objectId =>
      let nodeProps := orDefault (orDefault accum.nodeProps subject) objectId
      .ok { accum with
        nodeProps := nodeProps.insert subject (foldType ((nodeProps.get subject).getD []) t.predicate object)
        edges := accum.edges ++ [(subject, t.predicate, objectId)]
        schemaRefs := accum.schemaRefs ++ schemaIds subject t.predicate objectId }

def lowerAll (accum : LoweredAccum) : List Triple → Except String LoweredAccum
  | [] => .ok accum
  | t :: ts => do
    let accum ← lowerOneTriple accum t
    lowerAll accum ts

def mergeMultivalueCell (nodeProps : Table String Fields) (subject predicate : String) (cell : Json) :
    Except String (Table String Fields) :=
  let properties := (nodeProps.get subject).getD []
  match overflowObject properties with
  | none => .error ("reserved RDF multivalue cell on " ++ subject ++ " is not an object")
  | some extras =>
    match overflowList extras predicate with
    | none => .error ("RDF multivalue predicate " ++ predicate ++ " is not an array")
    | some values => .ok (nodeProps.insert subject (setOverflow properties extras predicate (values ++ [cell])))

/-- Merge every cell that was set aside, in triple order. -/
def mergeMultivalueCells (nodeProps : Table String Fields) :
    List (String × String × Json) → Except String (Table String Fields)
  | [] => .ok nodeProps
  | (subject, predicate, cell) :: cells => do
    let nodeProps ← mergeMultivalueCell nodeProps subject predicate cell
    mergeMultivalueCells nodeProps cells

structure LoweredTripleGraph (Blob : Type) where
  nodes : List (String × Blob)
  edges : List (String × String × Blob)
  triples : ℕ
  multivalue : ℕ
  schemaRefs : List String

def encodeLoweredNodes (codec : Codec Blob) : List (String × Fields) → Except String (List (String × Blob))
  | [] => .ok []
  | (id, properties) :: rows =>
    match codec.toVecNamed (.object properties) with
    | none => .error ("encode RDF node " ++ id)
    | some blob => do
      let rest ← encodeLoweredNodes codec rows
      .ok ((id, blob) :: rest)

def encodeLoweredEdges (codec : Codec Blob) :
    List (String × String × String) → Except String (List (String × String × Blob))
  | [] => .ok []
  | (source, predicate, target) :: rows =>
    match codec.toVecNamed (edgeObject predicate) with
    | none => .error "encode RDF edge"
    | some blob => do
      let rest ← encodeLoweredEdges codec rows
      .ok ((source, target, blob) :: rest)

def lowerTriples (codec : Codec Blob) (triples : List Triple) : Except String (LoweredTripleGraph Blob) := do
  let accum ← lowerAll .empty triples
  let nodeProps ← mergeMultivalueCells accum.nodeProps accum.multivalue
  let nodes ← encodeLoweredNodes codec nodeProps.rows
  let edges ← encodeLoweredEdges codec accum.edges
  .ok ⟨nodes, edges, triples.length, accum.multivalue.length, accum.schemaRefs⟩

/-! ### Loading -/

/-- Interned texts and their handles. -/
structure IriStore where
  fwd : Table String ℕ
  rev : List String

def IriStore.default : IriStore := ⟨Table.empty, []⟩

def IriStore.intern (iris : IriStore) (iri : String) : IriStore :=
  match iris.fwd.get iri with
  | some _ => iris
  | none => ⟨iris.fwd.insert iri iris.rev.length, iris.rev ++ [iri]⟩

def internRows (iris : IriStore) (lowered : LoweredTripleGraph Blob) : IriStore :=
  let iris := lowered.nodes.foldl (fun iris row => iris.intern row.1) iris
  lowered.edges.foldl (fun iris row => (iris.intern row.1).intern row.2.1) iris

/-- Write edges in order, up to the first that is refused. -/
def addEdges (g : GraphState Blob) :
    List (String × String × Blob) → GraphState Blob × Except String Unit
  | [] => (g, .ok ())
  | (source, target, blob) :: rows =>
    match addEdge g source target blob with
    | .error e => (g, .error e)
    | .ok g => addEdges g rows

/-- The triples read and the cells set aside. -/
structure LoadReport where
  triples : ℕ
  multivalue : ℕ

def writeRows (core : GraphCore Blob) (lowered : LoweredTripleGraph Blob) :
    GraphCore Blob × Except String LoadReport :=
  let graph := lowered.nodes.foldl (fun g row => addNode g row.1 row.2) core.graph
  match addEdges graph lowered.edges with
  | (graph, .error e) => ({ core with graph := graph }, .error e)
  | (graph, .ok ()) =>
    (lowered.schemaRefs.foldl GraphCore.markSchemaRef { core with graph := graph },
      .ok ⟨lowered.triples, lowered.multivalue⟩)

def loadTriples (codec : Codec Blob) (core : GraphCore Blob) (iris : IriStore) (triples : List Triple) :
    (GraphCore Blob × IriStore) × Except String LoadReport :=
  match lowerTriples codec triples with
  | .error e => ((core, iris), .error e)
  | .ok lowered =>
    let (core, report) := writeRows core lowered
    ((core, internRows iris lowered), report)

/-! ### Export -/

/-- Run an exporter over rows and join what it gives. -/
def collect {α β : Type} (f : α → Except String (List β)) : List α → Except String (List β)
  | [] => .ok []
  | x :: xs => do
    let out ← f x
    let rest ← collect f xs
    .ok (out ++ rest)

def exportPair (ox : Oxrdf) (codec : Codec Blob) (pair : (String ×ₗ String) × List Blob) :
    Except String (List Triple) :=
  collect (fun blob =>
    match decodeEdgeRelationship codec blob with
    | none => .error "edge missing relationship"
    | some relationship => do
      let t ← makeTriple ox (ofLex pair.1).1 relationship (ofLex pair.1).2
      .ok [t]) pair.2

def exportEdgeTriples (ox : Oxrdf) (codec : Codec Blob) (core : GraphCore Blob) :
    Except String (List Triple) :=
  collect (exportPair ox codec) core.graph.edgeProperties.rows

def exportCell (ox : Oxrdf) (id : String) (predicate : Except String String) (cell : Json) :
    Except String (List Triple) :=
  match cellToLiteral ox cell with
  | none => .ok []
  | some lit => do
    let subj ← parseSubject ox id
    let pred ← predicate
    .ok [⟨subj, pred, .literal lit⟩]

def exportMultivalueCell (ox : Oxrdf) (id : String) (cell : Json) : Except String (List Triple) :=
  match cell.asObject with
  | none => .ok []
  | some byPredicate =>
    collect (fun (predicate, values) => do
      let pred ← parsePredicate ox "bad pred iri" predicate
      collect (exportCell ox id (.ok pred)) (values.asArray.getD [])) byPredicate

/-- The triples of one property: the folded type and the marker's name have none of their own. -/
def exportNodeCell (ox : Oxrdf) (id : String) (property : String × Json) : Except String (List Triple) :=
  if property.1 = rdfMultiValueKey then exportMultivalueCell ox id property.2
  else if property.1 = "type" ∨ property.1 = "graph_name" then .ok []
  else exportCell ox id (parsePredicate ox "bad pred iri" property.1) property.2

/-- The text that starts the id of a marker node. -/
def namedGraphStart : String := "__named_graph__:"

def exportNodeTriples (ox : Oxrdf) (codec : Codec Blob) (node : String × Blob) :
    Except String (List Triple) :=
  if namedGraphStart.toList.isPrefixOf node.1.toList then .ok []
  else
    match ((codec.decodePropertyValue node.2).getD (.object [])).asObject with
    | none => .ok []
    | some obj =>
      if (lookupRow "type" obj).bind Json.asStr = some namedGraphMarker then .ok []
      else collect (exportNodeCell ox node.1) obj

def exportTriples (ox : Oxrdf) (codec : Codec Blob) (core : GraphCore Blob) :
    Except String (List Triple) := do
  let edges ← exportEdgeTriples ox codec core
  let nodes ← collect (exportNodeTriples ox codec) core.graph.nodeProperties.rows
  .ok (edges ++ nodes)

end Medulla.Rdf.Lowering
