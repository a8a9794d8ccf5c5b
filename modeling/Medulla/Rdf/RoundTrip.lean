import Medulla.Rdf.Cells
import Medulla.Rdf.SchemaRefs

/-! # RDF data survives loading

A graph holds a resource triple when an edge of its ends has its predicate as relationship, and a
literal triple when the property object of its subject holds the literal.

* one triple: `RdfGraph.insertTriple`; a list: `loadTriples_ok`;
* the result: `triples_survive`. -/

namespace Medulla.Rdf.RoundTrip

open Library.OrderedTable Resource.Extension Terms Triples Lowering Cells Graph.Txn
open Graph.Agreement
open SchemaRefs (EncodesEdges graph_markAll isSome_insert isSome_orDefault isSome_orDefault_self)
open Index.Changes (Codec plainCodec)

variable {Blob : Type} {codec : Codec Blob} {ox : Oxrdf} {core : GraphCore Blob} {t : Triple}
  {o id other : String} {map : Fields} {subject : NamedOrBlankNode} {core' : GraphCore Blob}
  {P : Triple → Prop} {lit : Literal}

/-- Stored bytes read back as the value they were written from. -/
def RoundTrips (codec : Codec Blob) : Prop :=
  ∀ v, ∃ blob, codec.toVecNamed v = some blob ∧ codec.decodePropertyValue blob = some v

theorem RoundTrips.edge (h : RoundTrips codec) (p : String) :
    ∃ blob, codec.toVecNamed (edgeObject p) = some blob ∧ decodeEdgeRelationship codec blob = some p := by
  obtain ⟨blob, hencode, hdecode⟩ := h (edgeObject p)
  refine ⟨blob, hencode, ?_⟩
  rw [decodeEdgeRelationship, hdecode]
  simp [edgeObject, Json.asObject, lookupRow, Json.asStr]

theorem RoundTrips.encodesEdges (h : RoundTrips codec) : EncodesEdges codec := by
  intro p blob hblob q _
  obtain ⟨blob', hencode, hdecode⟩ := h.edge p
  obtain rfl := Option.some.inj (hencode.symm.trans hblob)
  rw [hdecode, Option.some.injEq, eq_comm]

/-! ### Graphs of triples -/

structure RdfGraph (ox : Oxrdf) (codec : Codec Blob) (g : GraphState Blob) : Prop where
  agrees : Agrees g
  nodes : ∀ id blob, g.nodeProperties.get id = some blob →
    (∃ subject, GoodSubject ox subject ∧ id = subjectId subject) ∧
      ∃ map, codec.decodePropertyValue blob = some (.object map) ∧ CellMap ox map
  edges : ∀ s o, ∀ blob ∈ g.blobs s o, ∃ t, GoodTriple ox t ∧ subjectId t.subject = s ∧
    termNodeId t.object = some o ∧ decodeEdgeRelationship codec blob = some t.predicate

def Holds (codec : Codec Blob) (core : GraphCore Blob) (t : Triple) : Prop :=
  (∃ lit, t.object = .literal lit ∧ Held (readNodeObj codec core (subjectId t.subject)) t.predicate lit) ∨
    ∃ o, termNodeId t.object = some o ∧
      ∃ blob ∈ core.graph.blobs (subjectId t.subject) o, decodeEdgeRelationship codec blob = some t.predicate

theorem rdfGraph_new : RdfGraph ox codec (GraphCore.new : GraphCore Blob).graph :=
  ⟨agrees_new, fun _ _ h => (by cases h), fun _ _ _ h => absurd h List.not_mem_nil⟩

theorem not_holds_new : ¬Holds codec (GraphCore.new : GraphCore Blob) t := by
  rintro (⟨lit, -, hheld⟩ | ⟨o, -, blob, hblob, -⟩)
  · exact not_held_nil hheld
  · cases hblob

theorem RdfGraph.readNodeObj (h : RdfGraph ox codec core.graph) (id : String) :
    CellMap ox (readNodeObj codec core id) := by
  unfold Triples.readNodeObj
  cases hget : core.graph.nodeProperties.get id with
  | none => exact cellMap_nil
  | some blob =>
    obtain ⟨-, map, hdecode, hmap⟩ := h.nodes id blob hget
    simp only [Option.bind_some, hdecode]
    exact hmap

/-! ### Export -/

theorem parseObject_ok : ∀ {object : Term} {o : String}, GoodTerm ox object → termNodeId object = some o →
    parseObject ox o = .ok object
  | .namedNode iri, _, h, hid => by
    obtain rfl := Option.some.inj hid
    simp [parseObject, GoodIri.valid h]
  | .blankNode label, _, h, hid => by
    obtain rfl := Option.some.inj hid
    have hvalid : ox.validBlankNode label = true := h
    simp [parseObject, hvalid]

theorem makeTriple_ok (h : GoodTriple ox t) (hid : termNodeId t.object = some o) :
    makeTriple ox (subjectId t.subject) t.predicate o = .ok t := by
  unfold makeTriple
  rw [parseSubject_subjectId h.subject, parsePredicate_ok h.predicate, parseObject_ok h.object hid]
  rfl

theorem RdfGraph.exportPair {g : GraphState Blob} (h : RdfGraph ox codec g)
    {pair : (String ×ₗ String) × List Blob} (hmem : pair ∈ g.edgeProperties.rows) :
    ∃ out, exportPair ox codec pair = .ok out ∧ ∀ t, t ∈ out ↔ ∃ blob ∈ pair.2, GoodTriple ox t ∧
      subjectId t.subject = (ofLex pair.1).1 ∧ termNodeId t.object = some (ofLex pair.1).2 ∧
      decodeEdgeRelationship codec blob = some t.predicate := by
  refine collect_ok fun blob hblob => ?_
  have hstored : blob ∈ g.blobs (ofLex pair.1).1 (ofLex pair.1).2 := by
    have hget : g.edgeProperties.get pair.1 = some pair.2 := Table.mem_rows.mp hmem
    rw [GraphState.blobs]
    simpa [hget] using hblob
  obtain ⟨t, hgood, hs, ho, hp⟩ := h.edges _ _ blob hstored
  have hmake := makeTriple_ok hgood ho
  rw [hs] at hmake
  refine ⟨[t], ?_, fun u => ?_⟩
  · rw [hp]
    dsimp only
    rw [hmake]
    rfl
  · rw [List.mem_singleton]
    constructor
    · rintro rfl
      exact ⟨hgood, hs, ho, hp⟩
    · rintro ⟨-, hs', ho', hp'⟩
      have hsubject := subjectId_inj (hs'.trans hs.symm)
      have hobject := termNodeId_inj ho' ho
      cases u
      simp_all

theorem namedGraphStart_subjectId : ∀ subject : NamedOrBlankNode,
    namedGraphStart.toList.isPrefixOf (subjectId subject).toList = false
  | .namedNode iri => by simp [namedGraphStart, subjectId, iriId, List.isPrefixOf]
  | .blankNode label => by simp [namedGraphStart, subjectId, blankId, List.isPrefixOf]

theorem RdfGraph.exportNodeTriples (h : RdfGraph ox codec core.graph) {node : String × Blob}
    (hmem : node ∈ core.graph.nodeProperties.rows) :
    ∃ out, exportNodeTriples ox codec node = .ok out ∧ ∀ t, t ∈ out ↔
      ∃ p lit, GoodIri ox p ∧ GoodLiteral ox lit ∧ Held (Triples.readNodeObj codec core node.1) p lit ∧
        t.predicate = p ∧ t.object = .literal lit ∧ subjectId t.subject = node.1 ∧
          GoodSubject ox t.subject := by
  obtain ⟨id, blob⟩ := node
  have hget : core.graph.nodeProperties.get id = some blob := Table.mem_rows.mp hmem
  obtain ⟨⟨subject, hsubject, rfl⟩, map, hdecode, hmap⟩ := h.nodes id blob hget
  have hread : Triples.readNodeObj codec core (subjectId subject) = map := by
    simp [Triples.readNodeObj, hget, hdecode, Json.asObject]
  have htype : ¬(lookupRow "type" map).bind Json.asStr = some namedGraphMarker := by
    intro hmarker
    obtain ⟨v, hlookup, hstr⟩ := Option.bind_eq_some_iff.mp hmarker
    rcases hmap.rows _ _ hlookup with ⟨-, iri, rfl, hne⟩ | ⟨heq, -⟩ | ⟨hiri, -⟩
    · exact hne (Option.some.inj hstr)
    · exact absurd heq (by decide)
    · exact hiri.absolute.ne_type rfl
  obtain ⟨out, hout, hiff⟩ := hmap.exported hsubject
  refine ⟨out, ?_, fun t => ?_⟩
  · unfold Lowering.exportNodeTriples
    rw [namedGraphStart_subjectId, hdecode]
    simp only [Option.getD_some, Json.asObject]
    rw [if_neg htype]
    exact hout
  · rw [hiff, hread]
    constructor
    · rintro ⟨p, lit, hp, hlit, hheld, rfl⟩
      exact ⟨p, lit, hp, hlit, hheld, rfl, rfl, rfl, hsubject⟩
    · rintro ⟨p, lit, hp, hlit, hheld, hpred, hobj, hs, -⟩
      have hsame := subjectId_inj hs
      cases t
      simp_all

/-- **Export gives the triples held.** -/
theorem RdfGraph.exported (h : RdfGraph ox codec core.graph) :
    ∃ out, exportTriples ox codec core = .ok out ∧
      ∀ t, t ∈ out ↔ GoodTriple ox t ∧ Holds codec core t := by
  obtain ⟨edges, hedges, hedge⟩ := collect_ok fun pair hpair => h.exportPair hpair
  obtain ⟨nodes, hnodes, hnode⟩ := collect_ok fun node hnode => h.exportNodeTriples hnode
  refine ⟨edges ++ nodes, ?_, fun t => ?_⟩
  · unfold exportTriples exportEdgeTriples
    rw [hedges, hnodes]
    rfl
  · rw [List.mem_append, hedge, hnode]
    constructor
    · rintro (⟨pair, hpair, blob, hblob, hgood, hs, ho, hp⟩ |
        ⟨node, hmem, p, lit, hp, hlit, hheld, rfl, hobj, hs, hsubject⟩)
      · refine ⟨hgood, Or.inr ⟨_, ho, blob, ?_, hp⟩⟩
        have hget : core.graph.edgeProperties.get pair.1 = some pair.2 := Table.mem_rows.mp hpair
        rw [hs, GraphState.blobs]
        simpa [hget] using hblob
      · refine ⟨⟨hsubject, hp, ?_⟩, Or.inl ⟨lit, hobj, ?_⟩⟩
        · rw [hobj]
          exact hlit
        · rw [hs]
          exact hheld
    · rintro ⟨hgood, ⟨lit, hobj, hheld⟩ | ⟨o, ho, blob, hblob, hp⟩⟩
      · refine Or.inr ?_
        have hlit := hgood.literal hobj
        cases hget : core.graph.nodeProperties.get (subjectId t.subject) with
        | none =>
          rw [Triples.readNodeObj, hget] at hheld
          exact absurd hheld not_held_nil
        | some blob =>
          exact ⟨(subjectId t.subject, blob), Table.mem_rows.mpr hget, t.predicate, lit, hgood.predicate, hlit,
            hheld, rfl, hobj, rfl, hgood.subject⟩
      · refine Or.inl ?_
        cases hget : core.graph.edgeProperties.get (toLex (subjectId t.subject, o)) with
        | none =>
          rw [GraphState.blobs, hget] at hblob
          cases hblob
        | some blobs =>
          rw [GraphState.blobs, hget] at hblob
          exact ⟨(toLex (subjectId t.subject, o), blobs), Table.mem_rows.mpr hget, blob, hblob, hgood, rfl, ho,
            hp⟩

/-! ### Writing a node -/

theorem readNodeObj_writeNodeObj (hcodec : RoundTrips codec) :
    readNodeObj codec (writeNodeObj codec core id map) other =
      if other = id then map else readNodeObj codec core other := by
  obtain ⟨blob, hencode, hdecode⟩ := hcodec (.object map)
  have hget : (writeNodeObj codec core id map).graph.nodeProperties =
      core.graph.nodeProperties.insert id blob := by
    rw [writeNodeObj, hencode]
    rfl
  unfold readNodeObj
  rw [hget, Table.get_insert]
  by_cases h : other = id
  · rw [if_pos h, if_pos h, Option.bind_some, hdecode]
    rfl
  · rw [if_neg h, if_neg h]

theorem RdfGraph.writeNodeObj (hcodec : RoundTrips codec) (h : RdfGraph ox codec core.graph)
    (hsubject : GoodSubject ox subject) (hmap : CellMap ox map) :
    RdfGraph ox codec (writeNodeObj codec core (subjectId subject) map).graph := by
  obtain ⟨blob, hencode, hdecode⟩ := hcodec (.object map)
  have hwrite : Triples.writeNodeObj codec core (subjectId subject) map =
      core.addNode (subjectId subject) blob := by
    rw [Triples.writeNodeObj, hencode]
    rfl
  rw [hwrite]
  refine ⟨h.agrees.addNode _ blob, fun id stored hget => ?_, h.edges⟩
  have hget' : (core.graph.nodeProperties.insert (subjectId subject) blob).get id = some stored := hget
  rw [Table.get_insert] at hget'
  split_ifs at hget' with heq
  · obtain rfl := Option.some.inj hget'
    exact ⟨⟨subject, hsubject, heq⟩, map, hdecode, hmap⟩
  · exact h.nodes id stored hget'

/-- What a write leaves: the graph is one of triples, and the given triples are held besides those held
before. -/
structure Adds (ox : Oxrdf) (codec : Codec Blob) (core core' : GraphCore Blob) (P : Triple → Prop) : Prop where
  graph : RdfGraph ox codec core'.graph
  holds : ∀ u, GoodTriple ox u → (Holds codec core' u ↔ Holds codec core u ∨ P u)

theorem Adds.trans {core'' : GraphCore Blob} {Q : Triple → Prop} (h : Adds ox codec core core' P)
    (h' : Adds ox codec core' core'' Q) : Adds ox codec core core'' fun u => P u ∨ Q u :=
  ⟨h'.graph, fun u hu => by rw [h'.holds u hu, h.holds u hu, or_assoc]⟩

theorem Adds.congr {Q : Triple → Prop} (h : Adds ox codec core core' P) (hiff : ∀ u, P u ↔ Q u) :
    Adds ox codec core core' Q :=
  ⟨h.graph, fun u hu => by rw [h.holds u hu, hiff]⟩

theorem RdfGraph.adds_nothing (h : RdfGraph ox codec core.graph)
    (hP : ∀ u, GoodTriple ox u → P u → Holds codec core u) : Adds ox codec core core P :=
  ⟨h, fun u hu => ⟨Or.inl, fun hor => hor.elim id (hP u hu)⟩⟩

theorem RdfGraph.adds_writeNodeObj (hcodec : RoundTrips codec) (h : RdfGraph ox codec core.graph)
    (hsubject : GoodSubject ox subject) (hmap : CellMap ox map) {Q : String → Literal → Prop}
    (hheld : ∀ p lit, GoodIri ox p → GoodLiteral ox lit →
      (Held map p lit ↔ Held (Triples.readNodeObj codec core (subjectId subject)) p lit ∨ Q p lit)) :
    Adds ox codec core (Triples.writeNodeObj codec core (subjectId subject) map) fun u =>
      u.subject = subject ∧ ∃ lit, u.object = .literal lit ∧ Q u.predicate lit := by
  refine ⟨h.writeNodeObj hcodec hsubject hmap, fun u hu => ?_⟩
  unfold Holds
  rw [readNodeObj_writeNodeObj hcodec]
  by_cases hs : u.subject = subject
  · rw [hs]
    cases hobject : u.object with
    | literal lit =>
      have hlit := hu.literal hobject
      have hone := hheld u.predicate lit hu.predicate hlit
      simp only [termNodeId, reduceCtorEq, false_and, exists_false, or_false, true_and,
        Term.literal.injEq, exists_eq_left']
      exact hone
    | namedNode iri =>
      simp only [reduceCtorEq, false_and, exists_false, and_false, or_false]
      rfl
    | blankNode label =>
      simp only [reduceCtorEq, false_and, exists_false, and_false, or_false]
      rfl
  · have hne : subjectId u.subject ≠ subjectId subject := fun heq => hs (subjectId_inj heq)
    rw [if_neg hne]
    simp only [hs, false_and, or_false]
    rfl

theorem RdfGraph.hasNode_iff (h : RdfGraph ox codec core.graph) :
    core.hasNode id = (core.graph.nodeProperties.get id).isSome := h.agrees.nodes id

theorem RdfGraph.ensureNode (hcodec : RoundTrips codec) (h : RdfGraph ox codec core.graph)
    (hsubject : GoodSubject ox subject) :
    Adds ox codec core (ensureNode codec core (subjectId subject)) fun _ => False := by
  unfold Triples.ensureNode
  split_ifs with hhas
  · exact h.adds_nothing fun _ _ hfalse => hfalse.elim
  · have hnone : core.graph.nodeProperties.get (subjectId subject) = none := by
      rw [h.hasNode_iff] at hhas
      simpa using hhas
    have hread : Triples.readNodeObj codec core (subjectId subject) = [] := by
      rw [Triples.readNodeObj, hnone]
      rfl
    refine (h.adds_writeNodeObj hcodec hsubject cellMap_nil (Q := fun _ _ => False) ?_).congr ?_
    · intro p lit _ _
      rw [hread, or_false]
    · intro u
      simp

theorem hasNode_writeNodeObj :
    (writeNodeObj codec core id map).hasNode other = true ↔ other = id ∨ core.hasNode other = true :=
  Graph.Slots.Topology.isSome_addNode

theorem hasNode_ensureNode :
    (ensureNode codec core id).hasNode other = true ↔ other = id ∨ core.hasNode other = true := by
  unfold ensureNode
  split_ifs with h
  · constructor
    · exact Or.inr
    · rintro (rfl | hother)
      · exact h
      · exact hother
  · exact hasNode_writeNodeObj

/-! ### Inserting -/

theorem RdfGraph.mergeProperty (hcodec : RoundTrips codec) (h : RdfGraph ox codec core.graph)
    (ht : GoodTriple ox t) (hobject : t.object = .literal lit) :
    Adds ox codec core (mergeProperty codec core (subjectId t.subject) t.predicate (literalToCell lit)).1
      fun u => u = t := by
  have hlit := ht.literal hobject
  have hread := h.readNodeObj (subjectId t.subject)
  obtain ⟨hmap, hheld⟩ := hread.mergedProperty ht.predicate hlit
  have hsame : ∀ u : Triple, (u.subject = t.subject ∧ ∃ other, u.object = .literal other ∧
      (u.predicate = t.predicate ∧ other = lit)) ↔ u = t := by
    intro u
    constructor
    · rintro ⟨hs, other, ho, hp, rfl⟩
      cases u
      cases t
      simp_all
    · rintro rfl
      exact ⟨rfl, lit, hobject, rfl, rfl⟩
  unfold Triples.mergeProperty
  cases hmerged : Triples.mergedProperty (Triples.readNodeObj codec core (subjectId t.subject)) t.predicate
      (literalToCell lit) with
  | none =>
    rw [hmerged] at hheld
    refine h.adds_nothing fun u _ hu => Or.inl ⟨lit, ?_, ?_⟩
    · rw [hu]
      exact hobject
    · rw [hu]
      exact (hheld t.predicate lit ht.predicate hlit).mpr (Or.inr ⟨rfl, rfl⟩)
  | some map =>
    rw [hmerged] at hmap hheld
    exact (h.adds_writeNodeObj hcodec ht.subject hmap hheld).congr hsame

theorem resource_subject : ∀ {object : Term} {o : String}, GoodTerm ox object → termNodeId object = some o →
    ∃ subject, GoodSubject ox subject ∧ o = subjectId subject
  | .namedNode iri, _, h, hid => ⟨.namedNode iri, h, (Option.some.inj hid).symm⟩
  | .blankNode label, _, h, hid => ⟨.blankNode label, h, (Option.some.inj hid).symm⟩

theorem RdfGraph.setTypeProperty (hcodec : RoundTrips codec) (h : RdfGraph ox codec core.graph)
    (hsubject : GoodSubject ox subject) {iri : String} (hiri : GoodIri ox iri) :
    Adds ox codec core (setTypeProperty codec core (subjectId subject) iri).1 fun _ => False := by
  unfold Triples.setTypeProperty
  dsimp only
  split_ifs
  · exact h.adds_nothing fun _ _ hfalse => hfalse.elim
  · have hread := h.readNodeObj (subjectId subject)
    refine (h.adds_writeNodeObj hcodec hsubject (hread.insertType hiri.absolute.ne_marker)
      (Q := fun _ _ => False) ?_).congr ?_
    · intro p lit hp _
      rw [held_insertType hp.absolute, or_false]
    · intro u
      simp

theorem hasNode_writeIfChanged : ∀ {map : Option Fields}, core.hasNode other = true →
    (writeIfChanged codec core id map).1.hasNode other = true
  | some _, h => hasNode_writeNodeObj.mpr (Or.inr h)
  | none, h => h

theorem RdfGraph.classifySchemaTriple (hcodec : RoundTrips codec) (h : RdfGraph ox codec core.graph)
    (ht : GoodTriple ox t) (ho : termNodeId t.object = some o) :
    Adds ox codec core (classifySchemaTriple codec core (subjectId t.subject) t.predicate o).1
      fun _ => False := by
  have hnothing : Adds ox codec core core fun _ => False := h.adds_nothing fun _ _ hfalse => hfalse.elim
  unfold Triples.classifySchemaTriple
  split_ifs
  · cases hobject : t.object with
    | literal lit =>
      rw [hobject] at ho
      cases ho
    | namedNode iri =>
      rw [hobject] at ho
      obtain rfl := Option.some.inj ho
      rw [stripAngles_iriId]
      have hiri : GoodIri ox iri := by
        have hterm := ht.object
        rw [hobject] at hterm
        exact hterm
      exact h.setTypeProperty hcodec ht.subject hiri
    | blankNode label =>
      rw [hobject] at ho
      obtain rfl := Option.some.inj ho
      rw [stripAngles_blankId]
      exact hnothing
  · exact hnothing

theorem hasNode_classifySchemaTriple {s p : String} (h : core.hasNode id = true) :
    (classifySchemaTriple codec core s p o).1.hasNode id = true := by
  unfold classifySchemaTriple
  split
  · split
    · exact h
    · exact hasNode_writeIfChanged h
  · exact h

theorem RdfGraph.addEdge (h : RdfGraph ox codec core.graph) (ht : GoodTriple ox t)
    (ho : termNodeId t.object = some o) {blob : Blob} {g : GraphState Blob}
    (hp : decodeEdgeRelationship codec blob = some t.predicate)
    (hadd : addEdge core.graph (subjectId t.subject) o blob = .ok g) :
    Adds ox codec core { core with graph := g } fun u => u = t := by
  obtain ⟨hedges, -, hprops⟩ := addEdge_eq hadd
  have hblobs : ∀ a b, g.blobs a b = if a = subjectId t.subject ∧ b = o then
      core.graph.blobs (subjectId t.subject) o ++ [blob] else core.graph.blobs a b := by
    intro a b
    rw [← blobs_setBlobs, GraphState.blobs, hedges, ← GraphState.blobs]
  have hmem : ∀ a b other, other ∈ g.blobs a b ↔ other ∈ core.graph.blobs a b ∨
      (a = subjectId t.subject ∧ b = o ∧ other = blob) := by
    intro a b other
    rw [hblobs a b]
    split_ifs with heq
    · rw [heq.1, heq.2]
      simp
    · constructor
      · exact Or.inl
      · rintro (hold | ⟨ha, hb, -⟩)
        · exact hold
        · exact absurd ⟨ha, hb⟩ heq
  refine ⟨⟨h.agrees.addEdge hadd, fun id stored hget => ?_, fun a b other hother => ?_⟩, fun u hu => ?_⟩
  · rw [hprops] at hget
    exact h.nodes id stored hget
  · rcases (hmem a b other).mp hother with hold | ⟨rfl, rfl, rfl⟩
    · exact h.edges a b other hold
    · exact ⟨t, ht, rfl, ho, hp⟩
  · have hread : ∀ id, Triples.readNodeObj codec { core with graph := g } id =
        Triples.readNodeObj codec core id := fun id => by
      unfold Triples.readNodeObj
      rw [hprops]
    unfold Holds
    rw [hread, or_assoc]
    refine or_congr_right ⟨?_, ?_⟩
    · rintro ⟨o', ho', other, hother, hp'⟩
      rcases (hmem _ _ _).mp hother with hold | ⟨hs, rfl, rfl⟩
      · exact Or.inl ⟨o', ho', other, hold, hp'⟩
      · refine Or.inr ?_
        have hsubject := subjectId_inj hs
        have hobject := termNodeId_inj ho' ho
        cases u
        simp_all
    · rintro (⟨o', ho', other, hother, hp'⟩ | rfl)
      · exact ⟨o', ho', other, (hmem _ _ _).mpr (Or.inl hother), hp'⟩
      · exact ⟨o, ho, blob, (hmem _ _ _).mpr (Or.inr ⟨rfl, rfl, rfl⟩), hp⟩

theorem Adds.of_graph_eq {core'' : GraphCore Blob} (h : Adds ox codec core core' P)
    (heq : core''.graph = core'.graph) : Adds ox codec core core'' P := by
  refine ⟨by rw [heq]; exact h.graph, fun u hu => ?_⟩
  have hsame : Holds codec core'' u ↔ Holds codec core' u := by
    unfold Holds Triples.readNodeObj
    rw [heq]
  rw [hsame, h.holds u hu]

section
variable (hcodec : RoundTrips codec) (h : RdfGraph ox codec core.graph) (ht : GoodTriple ox t)
include hcodec h ht

theorem RdfGraph.insertResourceTriple (ho : termNodeId t.object = some o) : ∃ core' changed,
      insertResourceTriple codec core (subjectId t.subject) t.predicate o = (core', .ok changed) ∧
      Adds ox codec core core' fun u => u = t := by
  obtain ⟨object, hobject, hid⟩ := resource_subject ht.object ho
  have hsubject := h.ensureNode hcodec ht.subject
  have hboth := hsubject.trans (hsubject.graph.ensureNode hcodec hobject)
  rw [← hid] at hboth
  have hready := hboth.trans (hboth.graph.classifySchemaTriple hcodec ht ho)
  have hs : (Triples.classifySchemaTriple codec
      (Triples.ensureNode codec (Triples.ensureNode codec core (subjectId t.subject)) o)
      (subjectId t.subject) t.predicate o).1.hasNode (subjectId t.subject) = true :=
    hasNode_classifySchemaTriple
      (hasNode_ensureNode.mpr (Or.inr (hasNode_ensureNode.mpr (Or.inl rfl))))
  have ht' : (Triples.classifySchemaTriple codec
      (Triples.ensureNode codec (Triples.ensureNode codec core (subjectId t.subject)) o)
      (subjectId t.subject) t.predicate o).1.hasNode o = true :=
    hasNode_classifySchemaTriple (hasNode_ensureNode.mpr (Or.inl rfl))
  unfold Triples.insertResourceTriple
  dsimp only
  generalize Triples.classifySchemaTriple codec
    (Triples.ensureNode codec (Triples.ensureNode codec core (subjectId t.subject)) o)
    (subjectId t.subject) t.predicate o = classified at hready hs ht'
  unfold addEdgeIfAbsent
  split_ifs with hexists
  · have hthere : Adds ox codec classified.1 classified.1 fun u => u = t := by
      refine hready.graph.adds_nothing ?_
      rintro u - rfl
      obtain ⟨blob, hblob, hp⟩ := List.any_eq_true.mp hexists
      exact Or.inr ⟨o, ho, blob, hblob, of_decide_eq_true hp⟩
    refine ⟨_, _, rfl, (hready.trans hthere).congr ?_⟩
    simp
  · obtain ⟨blob, hencode, hp⟩ := hcodec.edge t.predicate
    rw [hencode]
    obtain ⟨g, hadd⟩ := addEdge_ok blob hs ht'
    dsimp only
    rw [hadd]
    refine ⟨_, _, rfl, ((hready.trans (hready.graph.addEdge ht ho hp hadd)).of_graph_eq ?_).congr ?_⟩
    · unfold markEnds
      cases classified.2.2.1 <;> cases classified.2.2.2 <;> rfl
    · intro u
      simp

/-- **Inserting a triple adds that triple.** -/
theorem RdfGraph.insertTriple : ∃ core' changed,
      insertTriple codec core (subjectId t.subject) t.predicate (objFromTerm t.object) = (core', .ok changed) ∧
      Adds ox codec core core' fun u => u = t := by
  cases hobject : t.object with
  | literal lit =>
    have hsubject := h.ensureNode hcodec ht.subject
    refine ⟨_, _, rfl, (hsubject.trans (hsubject.graph.mergeProperty hcodec ht hobject)).congr ?_⟩
    simp
  | namedNode iri => exact h.insertResourceTriple hcodec ht (by rw [hobject]; rfl)
  | blankNode label => exact h.insertResourceTriple hcodec ht (by rw [hobject]; rfl)

end

theorem RdfGraph.insertTriples (hcodec : RoundTrips codec) : ∀ {ts : List Triple} {core : GraphCore Blob}
    (inserted : ℕ), RdfGraph ox codec core.graph → (∀ t ∈ ts, GoodTriple ox t) →
    ∃ core' count, insertTriples codec core inserted ts = (core', .ok count) ∧
      Adds ox codec core core' fun u => u ∈ ts
  | [], core, inserted, h, _ =>
    ⟨core, inserted, rfl, h.adds_nothing fun _ _ hmem => absurd hmem List.not_mem_nil⟩
  | t :: ts, core, inserted, h, hts => by
    obtain ⟨mid, changed, hone, hadds⟩ := h.insertTriple hcodec (hts t (.head _))
    obtain ⟨core', count, hrest, hadds'⟩ := RdfGraph.insertTriples hcodec (inserted + changed.toNat)
      hadds.graph fun u hu => hts u (.tail _ hu)
    refine ⟨core', count, ?_, (hadds.trans hadds').congr fun u => List.mem_cons.symm⟩
    unfold Triples.insertTriples
    rw [hone]
    exact hrest

/-! ### Lowering -/

def GoodObjects (ox : Oxrdf) (nodeProps : Table String Fields) : Prop :=
  ∀ id map, nodeProps.get id = some map →
    (∃ subject, GoodSubject ox subject ∧ id = subjectId subject) ∧ CellMap ox map

structure GoodAccum (ox : Oxrdf) (accum : LoweredAccum) : Prop where
  nodes : GoodObjects ox accum.nodeProps
  cells : ∀ c ∈ accum.multivalue, GoodIri ox c.2.1 ∧ GoodCell ox c.2.2 ∧ (accum.nodeProps.get c.1).isSome
  edges : ∀ e ∈ accum.edges, ∃ t, GoodTriple ox t ∧ subjectId t.subject = e.1 ∧ t.predicate = e.2.1 ∧
    termNodeId t.object = some e.2.2

def objectAt (nodeProps : Table String Fields) (id : String) : Fields := (nodeProps.get id).getD []

def HoldsLowered (nodeProps : Table String Fields) (cells : List (String × String × Json))
    (edges : List (String × String × String)) (t : Triple) : Prop :=
  (∃ lit, t.object = .literal lit ∧ (Held (objectAt nodeProps (subjectId t.subject)) t.predicate lit ∨
    (subjectId t.subject, t.predicate, literalToCell lit) ∈ cells)) ∨
  ∃ o, termNodeId t.object = some o ∧ (subjectId t.subject, t.predicate, o) ∈ edges

section
variable {t : Table String Fields}

theorem objectAt_orDefault : objectAt (orDefault t id) other = objectAt t other := by
  unfold orDefault objectAt
  split
  · rfl
  · rename_i hnone
    rw [Table.get_insert]
    split_ifs with heq
    · rw [heq, hnone]
      rfl
    · rfl

theorem objectAt_insert :
    objectAt (t.insert id map) other = if other = id then map else objectAt t other := by
  unfold objectAt
  rw [Table.get_insert]
  split_ifs <;> rfl

theorem GoodObjects.objectAt (h : GoodObjects ox t) (id : String) : CellMap ox (objectAt t id) := by
  unfold RoundTrip.objectAt
  cases hget : t.get id with
  | none => exact cellMap_nil
  | some map => exact (h id map hget).2

theorem GoodObjects.insert (h : GoodObjects ox t)
    (hsubject : GoodSubject ox subject) (hmap : CellMap ox map) :
    GoodObjects ox (t.insert (subjectId subject) map) := by
  intro id stored hget
  rw [Table.get_insert] at hget
  split_ifs at hget with heq
  · obtain rfl := Option.some.inj hget
    exact ⟨⟨subject, hsubject, heq⟩, hmap⟩
  · exact h id stored hget

theorem GoodObjects.orDefault (h : GoodObjects ox t)
    (hsubject : GoodSubject ox subject) : GoodObjects ox (orDefault t (subjectId subject)) := by
  unfold Lowering.orDefault
  split
  · exact h
  · exact h.insert hsubject cellMap_nil

end

def LoweredAccum.Holds (accum : LoweredAccum) (t : Triple) : Prop :=
  HoldsLowered accum.nodeProps accum.multivalue accum.edges t

theorem holdsLowered_literal {props props' : Table String Fields}
    {cells cells' : List (String × String × Json)} {edges : List (String × String × String)}
    (hobject : t.object = .literal lit)
    (hiff : ∀ subject p other, GoodIri ox p → GoodLiteral ox other →
      ((Held (objectAt props' (subjectId subject)) p other ∨
          (subjectId subject, p, literalToCell other) ∈ cells') ↔
        (Held (objectAt props (subjectId subject)) p other ∨
          (subjectId subject, p, literalToCell other) ∈ cells) ∨
          (subject = t.subject ∧ p = t.predicate ∧ other = lit))) {u : Triple}
    (hu : GoodTriple ox u) :
    HoldsLowered props' cells' edges u ↔ HoldsLowered props cells edges u ∨ u = t := by
  unfold HoldsLowered
  cases hu' : u.object with
  | literal other =>
    have hsame : (u.subject = t.subject ∧ u.predicate = t.predicate ∧ other = lit) ↔ u = t := by
      constructor
      · rintro ⟨hs, hp, rfl⟩
        cases u
        cases t
        simp_all
      · rintro rfl
        exact ⟨rfl, rfl, Term.literal.inj (hu'.symm.trans hobject)⟩
    simp only [Term.literal.injEq, exists_eq_left', termNodeId, reduceCtorEq, false_and, exists_false, or_false]
    rw [hiff _ _ _ hu.predicate (hu.literal hu'), hsame]
  | namedNode iri =>
    have hne : u ≠ t := fun heq => by rw [heq, hobject] at hu'; cases hu'
    simp only [reduceCtorEq, false_and, hne, or_false]
  | blankNode label =>
    have hne : u ≠ t := fun heq => by rw [heq, hobject] at hu'; cases hu'
    simp only [reduceCtorEq, false_and, hne, or_false]

section
variable {accum : LoweredAccum} (h : GoodAccum ox accum) (ht : GoodTriple ox t)
include h ht

theorem GoodAccum.lowerLiteral (hobject : t.object = .literal lit) :
    ∃ accum', lowerOneTriple accum t = .ok accum' ∧ GoodAccum ox accum' ∧
      ∀ u, GoodTriple ox u → (LoweredAccum.Holds accum' u ↔ LoweredAccum.Holds accum u ∨ u = t) := by
  have hlit := ht.literal hobject
  have hnodes := h.nodes.orDefault ht.subject
  have hat : (((orDefault accum.nodeProps (subjectId t.subject)).get (subjectId t.subject)).getD []) =
      objectAt accum.nodeProps (subjectId t.subject) := objectAt_orDefault
  unfold lowerOneTriple
  dsimp only
  rw [hobject, hat]
  split_ifs with hfound
  · refine ⟨_, rfl, ⟨hnodes, ?_, h.edges⟩, fun u hu => holdsLowered_literal hobject ?_ hu⟩
    · intro c hc
      rcases List.mem_append.mp hc with hc | hc
      · obtain ⟨hp, hcell, hsome⟩ := h.cells c hc
        exact ⟨hp, hcell, isSome_orDefault hsome⟩
      · obtain rfl := List.mem_singleton.mp hc
        exact ⟨ht.predicate, ⟨lit, hlit, rfl⟩, isSome_orDefault_self _ _⟩
    · intro subject p other _ hother
      have hcell : literalToCell other = literalToCell lit ↔ other = lit :=
        ⟨literalToCell_inj hother hlit, congrArg _⟩
      have hid : subjectId subject = subjectId t.subject ↔ subject = t.subject :=
        ⟨subjectId_inj, congrArg _⟩
      rw [objectAt_orDefault]
      simp only [List.mem_append, List.mem_singleton, Prod.mk.injEq, hcell, hid, or_assoc]
  · have hfree : lookupRow t.predicate (objectAt accum.nodeProps (subjectId t.subject)) = none := by
      simpa using hfound
    have hmap := h.nodes.objectAt (subjectId t.subject)
    refine ⟨_, rfl, ⟨hnodes.insert ht.subject (hmap.insertCell ht.predicate hlit), ?_, h.edges⟩,
      fun u hu => holdsLowered_literal hobject ?_ hu⟩
    · intro c hc
      obtain ⟨hp, hcell, hsome⟩ := h.cells c hc
      exact ⟨hp, hcell, isSome_insert (isSome_orDefault hsome)⟩
    · intro subject p other _ hother
      rw [objectAt_insert, objectAt_orDefault]
      by_cases hs : subject = t.subject
      · rw [hs, if_pos rfl, held_insertCell ht.predicate hlit hother hfree, or_right_comm]
        simp
      · rw [if_neg fun heq => hs (subjectId_inj heq)]
        simp [hs]

theorem GoodAccum.lowerResource (ho : termNodeId t.object = some o) :
    ∃ accum', lowerOneTriple accum t = .ok accum' ∧ GoodAccum ox accum' ∧
      ∀ u, GoodTriple ox u → (LoweredAccum.Holds accum' u ↔ LoweredAccum.Holds accum u ∨ u = t) := by
  obtain ⟨object, hobject, rfl⟩ := resource_subject ht.object ho
  have hnodes := (h.nodes.orDefault ht.subject).orDefault hobject
  have hat : ((orDefault (orDefault accum.nodeProps (subjectId t.subject)) (subjectId object)).get
      (subjectId t.subject)).getD [] = objectAt accum.nodeProps (subjectId t.subject) :=
    objectAt_orDefault.trans objectAt_orDefault
  have hmap := (h.nodes.objectAt (subjectId t.subject)).foldType (p := t.predicate) ht.object
  have hlower : lowerOneTriple accum t = .ok { accum with
      nodeProps := (orDefault (orDefault accum.nodeProps (subjectId t.subject)) (subjectId object)).insert
        (subjectId t.subject) (foldType (objectAt accum.nodeProps (subjectId t.subject)) t.predicate t.object)
      edges := accum.edges ++ [(subjectId t.subject, t.predicate, subjectId object)]
      schemaRefs := accum.schemaRefs ++ schemaIds (subjectId t.subject) t.predicate (subjectId object) } := by
    unfold lowerOneTriple
    split
    · rename_i hlit
      rw [hlit] at ho
      cases ho
    · rw [ho]
      dsimp only
      rw [hat]
  refine ⟨_, hlower, ⟨hnodes.insert ht.subject hmap, ?_, ?_⟩, fun u hu => ?_⟩
  · intro c hc
    obtain ⟨hp, hcell, hsome⟩ := h.cells c hc
    exact ⟨hp, hcell, isSome_insert (isSome_orDefault (isSome_orDefault hsome))⟩
  · intro e he
    rcases List.mem_append.mp he with he | he
    · exact h.edges e he
    · obtain rfl := List.mem_singleton.mp he
      exact ⟨t, ht, rfl, rfl, ho⟩
  · have hheld : ∀ lit, Held (objectAt ((orDefault (orDefault accum.nodeProps (subjectId t.subject))
        (subjectId object)).insert (subjectId t.subject)
        (foldType (objectAt accum.nodeProps (subjectId t.subject)) t.predicate t.object)) (subjectId u.subject))
        u.predicate lit ↔ Held (objectAt accum.nodeProps (subjectId u.subject)) u.predicate lit := by
      intro lit
      rw [objectAt_insert]
      split_ifs with hs
      · rw [held_foldType hu.predicate.absolute, hs]
      · rw [objectAt_orDefault, objectAt_orDefault]
    unfold LoweredAccum.Holds HoldsLowered
    simp only [hheld]
    rw [or_assoc]
    refine or_congr_right ⟨?_, ?_⟩
    · rintro ⟨o', ho', hmem⟩
      rcases List.mem_append.mp hmem with hmem | hmem
      · exact Or.inl ⟨o', ho', hmem⟩
      · refine Or.inr ?_
        simp only [List.mem_singleton, Prod.mk.injEq] at hmem
        obtain ⟨hs, hp, rfl⟩ := hmem
        have hsubject := subjectId_inj hs
        have hsame := termNodeId_inj ho' ho
        cases u
        simp_all
    · rintro (⟨o', ho', hmem⟩ | rfl)
      · exact ⟨o', ho', List.mem_append_left _ hmem⟩
      · exact ⟨_, ho, List.mem_append_right _ (List.mem_singleton.mpr rfl)⟩

end

theorem GoodAccum.lowerAll : ∀ {ts : List Triple} {accum : LoweredAccum}, GoodAccum ox accum →
    (∀ t ∈ ts, GoodTriple ox t) → ∃ accum', lowerAll accum ts = .ok accum' ∧ GoodAccum ox accum' ∧
      ∀ u, GoodTriple ox u → (LoweredAccum.Holds accum' u ↔ LoweredAccum.Holds accum u ∨ u ∈ ts)
  | [], accum, h, _ => ⟨accum, rfl, h, fun u _ => by simp⟩
  | t :: ts, accum, h, hts => by
    have ht := hts t (.head _)
    obtain ⟨mid, hone, hmid, hholds⟩ : ∃ accum', lowerOneTriple accum t = .ok accum' ∧ GoodAccum ox accum' ∧
        ∀ u, GoodTriple ox u → (LoweredAccum.Holds accum' u ↔ LoweredAccum.Holds accum u ∨ u = t) := by
      cases hobject : t.object with
      | literal lit => exact h.lowerLiteral ht hobject
      | namedNode iri => exact h.lowerResource ht (by rw [hobject]; rfl)
      | blankNode label => exact h.lowerResource ht (by rw [hobject]; rfl)
    obtain ⟨accum', hrest, hgood, hall⟩ := hmid.lowerAll fun u hu => hts u (.tail _ hu)
    refine ⟨accum', ?_, hgood, fun u hu => ?_⟩
    · unfold Lowering.lowerAll
      rw [hone]
      exact hrest
    · rw [hall u hu, hholds u hu, or_assoc, List.mem_cons]

/-! ### Merging the cells set aside -/

theorem GoodObjects.mergeMultivalueCells : ∀ {cells : List (String × String × Json)}
    {props : Table String Fields}, GoodObjects ox props →
    (∀ c ∈ cells, GoodIri ox c.2.1 ∧ GoodCell ox c.2.2 ∧ (props.get c.1).isSome) →
    ∃ props', mergeMultivalueCells props cells = .ok props' ∧ GoodObjects ox props' ∧
      (∀ id, (props.get id).isSome → (props'.get id).isSome) ∧
      ∀ edges u, GoodTriple ox u → (HoldsLowered props' [] edges u ↔ HoldsLowered props cells edges u)
  | [], props, h, _ => ⟨props, rfl, h, fun _ => id, fun _ _ _ => Iff.rfl⟩
  | (s, p, cell) :: cells, props, h, hcells => by
    obtain ⟨hp, ⟨lit, hlit, hcell⟩, hsome⟩ := hcells (s, p, cell) (.head _)
    dsimp only at hp hcell hsome
    subst hcell
    obtain ⟨stored, hget⟩ := Option.isSome_iff_exists.mp hsome
    obtain ⟨⟨subject, hsubject, rfl⟩, -⟩ := h s stored hget
    obtain ⟨extras, values, hobject, hlist, hmap, hheld, -⟩ :=
      (h.objectAt (subjectId subject)).append hp hlit
    have hone : mergeMultivalueCell props (subjectId subject) p (literalToCell lit) =
        .ok (props.insert (subjectId subject) (setOverflow (RoundTrip.objectAt props (subjectId subject)) extras p
          (values ++ [literalToCell lit]))) := by
      unfold mergeMultivalueCell
      dsimp only
      rw [← RoundTrip.objectAt, hobject]
      dsimp only
      rw [hlist]
    obtain ⟨props', hmerge, hgood, hkeep, hholds⟩ := GoodObjects.mergeMultivalueCells
      (h.insert hsubject hmap) fun c hc => by
        obtain ⟨hp', hcell', hsome'⟩ := hcells c (.tail _ hc)
        exact ⟨hp', hcell', isSome_insert hsome'⟩
    refine ⟨props', ?_, hgood, fun id hid => hkeep id (isSome_insert hid), fun edges u hu => ?_⟩
    · unfold Lowering.mergeMultivalueCells
      rw [hone]
      exact hmerge
    · rw [hholds edges u hu]
      -- Both sides have one literal more than what the objects and the other cells hold.
      have hwritten : HoldsLowered (props.insert (subjectId subject)
          (setOverflow (RoundTrip.objectAt props (subjectId subject)) extras p (values ++ [literalToCell lit])))
          cells edges u ↔ HoldsLowered props cells edges u ∨ u = ⟨subject, p, .literal lit⟩ := by
        refine holdsLowered_literal rfl (fun other q l hq hl => ?_) hu
        rw [objectAt_insert]
        by_cases hs : other = subject
        · rw [hs, if_pos rfl, hheld q l hq hl, or_right_comm]
          simp
        · rw [if_neg fun heq => hs (subjectId_inj heq)]
          simp [hs]
      have haside : HoldsLowered props ((subjectId subject, p, literalToCell lit) :: cells) edges u ↔
          HoldsLowered props cells edges u ∨ u = ⟨subject, p, .literal lit⟩ := by
        refine holdsLowered_literal rfl (fun other q l hq hl => ?_) hu
        have hcell : literalToCell l = literalToCell lit ↔ l = lit := ⟨literalToCell_inj hl hlit, congrArg _⟩
        have hid : subjectId other = subjectId subject ↔ other = subject := ⟨subjectId_inj, congrArg _⟩
        simp only [List.mem_cons, Prod.mk.injEq, hcell, hid]
        rw [or_left_comm, or_comm]
      rw [hwritten, haside]

/-! ### Writing the rows -/

theorem encodeLoweredNodes_ok (hcodec : RoundTrips codec) : ∀ rows : List (String × Fields), ∃ nodes,
    encodeLoweredNodes codec rows = .ok nodes ∧ (∀ id blob, (id, blob) ∈ nodes →
        ∃ map, (id, map) ∈ rows ∧ codec.decodePropertyValue blob = some (.object map)) ∧
      ∀ id map, (id, map) ∈ rows →
        ∃ blob, (id, blob) ∈ nodes ∧ codec.decodePropertyValue blob = some (.object map)
  | [] => ⟨[], rfl, fun _ _ h => absurd h List.not_mem_nil, fun _ _ h => absurd h List.not_mem_nil⟩
  | (id, map) :: rows => by
    obtain ⟨blob, hencode, hdecode⟩ := hcodec (.object map)
    obtain ⟨nodes, hnodes, hback, hforth⟩ := encodeLoweredNodes_ok hcodec rows
    refine ⟨(id, blob) :: nodes, ?_, fun id' blob' hmem => ?_, fun id' map' hmem => ?_⟩
    · unfold encodeLoweredNodes
      rw [hencode, hnodes]
      rfl
    · rcases List.mem_cons.mp hmem with heq | hmem
      · cases heq
        exact ⟨map, .head _, hdecode⟩
      · obtain ⟨map', hrow, hread⟩ := hback id' blob' hmem
        exact ⟨map', .tail _ hrow, hread⟩
    · rcases List.mem_cons.mp hmem with heq | hmem
      · cases heq
        exact ⟨blob, .head _, hdecode⟩
      · obtain ⟨blob', hnode, hread⟩ := hforth id' map' hmem
        exact ⟨blob', .tail _ hnode, hread⟩

theorem encodeLoweredEdges_ok (hcodec : RoundTrips codec) : ∀ edges : List (String × String × String), ∃ rows,
    encodeLoweredEdges codec edges = .ok rows ∧
      (∀ s o blob, (s, o, blob) ∈ rows → ∃ p, decodeEdgeRelationship codec blob = some p) ∧
      ∀ s p o, (s, p, o) ∈ edges ↔
        ∃ blob, (s, o, blob) ∈ rows ∧ decodeEdgeRelationship codec blob = some p
  | [] => ⟨[], rfl, fun _ _ _ h => absurd h List.not_mem_nil, by simp⟩
  | (s, p, o) :: edges => by
    obtain ⟨blob, hencode, hp⟩ := hcodec.edge p
    obtain ⟨rows, hrows, hrelated, hiff⟩ := encodeLoweredEdges_ok hcodec edges
    refine ⟨(s, o, blob) :: rows, ?_, fun s' o' blob' hmem => ?_, fun s' p' o' => ?_⟩
    · unfold encodeLoweredEdges
      rw [hencode, hrows]
      rfl
    · rcases List.mem_cons.mp hmem with heq | hmem
      · cases heq
        exact ⟨p, hp⟩
      · exact hrelated s' o' blob' hmem
    · rw [List.mem_cons, hiff]
      constructor
      · rintro (heq | ⟨blob', hmem, hp'⟩)
        · cases heq
          exact ⟨blob, .head _, hp⟩
        · exact ⟨blob', .tail _ hmem, hp'⟩
      · rintro ⟨blob', hmem, hp'⟩
        rcases List.mem_cons.mp hmem with heq | hmem
        · cases heq
          rw [hp] at hp'
          cases hp'
          exact Or.inl rfl
        · exact Or.inr ⟨blob', hmem, hp'⟩

theorem nodeProperties_addNodes : ∀ {nodes : List (String × Blob)} {g : GraphState Blob},
    (nodes.foldl (fun g row => addNode g row.1 row.2) g).nodeProperties =
      nodes.foldl (fun t row => t.insert row.1 row.2) g.nodeProperties
  | [], _ => rfl
  | row :: nodes, g => by
    rw [List.foldl_cons, nodeProperties_addNodes]
    rfl

theorem blobs_addEdges : ∀ {rows : List (String × String × Blob)} {g g' : GraphState Blob},
    addEdges g rows = (g', .ok ()) → g'.nodeProperties = g.nodeProperties ∧
      ∀ s o blob, blob ∈ g'.blobs s o ↔ blob ∈ g.blobs s o ∨ (s, o, blob) ∈ rows
  | [], g, g', h => by
    cases h
    exact ⟨rfl, by simp⟩
  | (s, o, blob) :: rows, g, g', h => by
    unfold addEdges at h
    split at h
    · cases h
    · rename_i mid hadd
      obtain ⟨hedges, -, hprops⟩ := addEdge_eq hadd
      obtain ⟨hprops', hmem⟩ := blobs_addEdges h
      refine ⟨hprops'.trans hprops, fun s' o' blob' => ?_⟩
      have hone : mid.blobs s' o' = if s' = s ∧ o' = o then g.blobs s o ++ [blob] else g.blobs s' o' := by
        rw [← blobs_setBlobs, GraphState.blobs, hedges, ← GraphState.blobs]
      rw [hmem, hone, List.mem_cons, Prod.mk.injEq, Prod.mk.injEq]
      split_ifs with heq
      · rw [heq.1, heq.2]
        simp [or_assoc]
      · rw [not_and] at heq
        constructor
        · rintro (hold | hrow)
          · exact Or.inl hold
          · exact Or.inr (Or.inr hrow)
        · rintro (hold | ⟨hs, ho, -⟩ | hrow)
          · exact Or.inl hold
          · exact absurd ho (heq hs)
          · exact Or.inr hrow

structure Encoded (codec : Codec Blob) (props : Table String Fields) (edges : List (String × String × String))
    (nodes : List (String × Blob)) (rows : List (String × String × Blob)) : Prop where
  back : ∀ id blob, (id, blob) ∈ nodes →
    ∃ map, (id, map) ∈ props.rows ∧ codec.decodePropertyValue blob = some (.object map)
  forth : ∀ id map, (id, map) ∈ props.rows →
    ∃ blob, (id, blob) ∈ nodes ∧ codec.decodePropertyValue blob = some (.object map)
  related : ∀ s o blob, (s, o, blob) ∈ rows → ∃ p, decodeEdgeRelationship codec blob = some p
  edges : ∀ s p o, (s, p, o) ∈ edges ↔
    ∃ blob, (s, o, blob) ∈ rows ∧ decodeEdgeRelationship codec blob = some p

theorem written_holds {props : Table String Fields} (hobjects : GoodObjects ox props)
    {edges : List (String × String × String)}
    (htriples : ∀ e ∈ edges, ∃ t, GoodTriple ox t ∧ subjectId t.subject = e.1 ∧ t.predicate = e.2.1 ∧
      termNodeId t.object = some e.2.2) {nodes : List (String × Blob)} {rows : List (String × String × Blob)}
    (hencoded : Encoded codec props edges nodes rows) (hagrees : Agrees core.graph)
    (hget : ∀ id blob, core.graph.nodeProperties.get id = some blob ↔ (id, blob) ∈ nodes)
    (hblobs : ∀ s o blob, blob ∈ core.graph.blobs s o ↔ (s, o, blob) ∈ rows) :
    RdfGraph ox codec core.graph ∧ ∀ u, Holds codec core u ↔ HoldsLowered props [] edges u := by
  have hread : ∀ id, readNodeObj codec core id = objectAt props id := by
    intro id
    unfold readNodeObj objectAt
    cases hprops : props.get id with
    | none =>
      cases hstored : core.graph.nodeProperties.get id with
      | none => rfl
      | some blob =>
        obtain ⟨map, hmem, -⟩ := hencoded.back id blob ((hget id blob).mp hstored)
        rw [Table.mem_rows.mp hmem] at hprops
        cases hprops
    | some map =>
      obtain ⟨blob, hmem, hdecode⟩ := hencoded.forth id map (Table.mem_rows.mpr hprops)
      rw [(hget id blob).mpr hmem, Option.bind_some, hdecode]
      rfl
  refine ⟨⟨hagrees, fun id blob hstored => ?_, fun s o blob hblob => ?_⟩, fun u => ?_⟩
  · obtain ⟨map, hmem, hdecode⟩ := hencoded.back id blob ((hget id blob).mp hstored)
    obtain ⟨hterm, hmap⟩ := hobjects id map (Table.mem_rows.mp hmem)
    exact ⟨hterm, map, hdecode, hmap⟩
  · have hrow := (hblobs s o blob).mp hblob
    obtain ⟨p, hp⟩ := hencoded.related s o blob hrow
    obtain ⟨t, ht, hs, hpred, ho⟩ := htriples (s, p, o) ((hencoded.edges s p o).mpr ⟨blob, hrow, hp⟩)
    exact ⟨t, ht, hs, ho, by rw [hp, hpred]⟩
  · unfold Holds HoldsLowered
    simp only [hread, hblobs, hencoded.edges, List.not_mem_nil, or_false]

theorem lowerTriples_ok (hcodec : RoundTrips codec) {ts : List Triple} (hts : ∀ t ∈ ts, GoodTriple ox t) :
    ∃ accum props nodes rows, lowerTriples codec ts =
        .ok ⟨nodes, rows, ts.length, accum.multivalue.length, accum.schemaRefs⟩ ∧
      lowerAll .empty ts = .ok accum ∧ GoodAccum ox accum ∧
      mergeMultivalueCells accum.nodeProps accum.multivalue = .ok props ∧ GoodObjects ox props ∧
      encodeLoweredNodes codec props.rows = .ok nodes ∧ encodeLoweredEdges codec accum.edges = .ok rows ∧
      Encoded codec props accum.edges nodes rows ∧
      ∀ u, GoodTriple ox u → (HoldsLowered props [] accum.edges u ↔ u ∈ ts) := by
  have hempty : GoodAccum ox LoweredAccum.empty :=
    ⟨fun _ _ h => (by cases h), fun _ h => absurd h List.not_mem_nil, fun _ h => absurd h List.not_mem_nil⟩
  obtain ⟨accum, haccum, hgood, hlowered⟩ := hempty.lowerAll hts
  obtain ⟨props, hprops, hobjects, -, hmerged⟩ := hgood.nodes.mergeMultivalueCells hgood.cells
  obtain ⟨nodes, hnodes, hback, hforth⟩ := encodeLoweredNodes_ok hcodec props.rows
  obtain ⟨rows, hrows, hrelated, hedges⟩ := encodeLoweredEdges_ok hcodec accum.edges
  refine ⟨accum, props, nodes, rows, ?_, haccum, hgood, hprops, hobjects, hnodes, hrows,
    ⟨hback, hforth, hrelated, hedges⟩, fun u hu => ?_⟩
  · unfold lowerTriples
    rw [haccum]
    change (mergeMultivalueCells accum.nodeProps accum.multivalue).bind _ = _
    rw [hprops]
    change (encodeLoweredNodes codec props.rows).bind _ = _
    rw [hnodes]
    rw [hrows]
    rfl
  · have hnothing : ¬LoweredAccum.Holds LoweredAccum.empty u := by
      rintro (⟨lit, -, hheld | hcell⟩ | ⟨o, -, hedge⟩)
      · exact not_held_nil hheld
      · exact absurd hcell List.not_mem_nil
      · exact absurd hedge List.not_mem_nil
    rw [hmerged accum.edges u hu]
    refine (hlowered u hu).trans ?_
    simp only [hnothing, false_or]

/-- **Loading into an empty graph makes it hold just the listed triples.** -/
theorem loadTriples_ok (hcodec : RoundTrips codec) (iris : IriStore) {ts : List Triple}
    (hts : ∀ t ∈ ts, GoodTriple ox t) : ∃ core iris' report,
      loadTriples codec GraphCore.new iris ts = ((core, iris'), .ok report) ∧
      RdfGraph ox codec core.graph ∧ ∀ u, GoodTriple ox u → (Holds codec core u ↔ u ∈ ts) := by
  obtain ⟨accum, props, nodes, rows, hlower, haccum, hgood, hprops, hobjects, hnodes, hrows, hencoded,
    hholds⟩ := lowerTriples_ok hcodec hts
  have hids : nodes.map Prod.fst = props.rows.map Prod.fst := SchemaRefs.ids_encodeLoweredNodes hnodes
  have hnodup : (nodes.map Prod.fst).Nodup := by
    rw [hids]
    exact List.pairwise_map.mpr (props.sorted.imp fun hlt => ne_of_lt hlt)
  obtain ⟨hagrees, hnone, hpresent⟩ := SchemaRefs.addNodes nodes (g := GraphState.new) agrees_new
  have hgathered : SchemaRefs.Gathered LoweredAccum.empty := ⟨fun e he => absurd he List.not_mem_nil, rfl⟩
  have hrow : ∀ id, (accum.nodeProps.get id).isSome → id ∈ nodes.map Prod.fst := by
    intro id hid
    obtain ⟨map, hget⟩ := Option.isSome_iff_exists.mp (SchemaRefs.isSome_mergeMultivalueCells hprops hid)
    rw [hids]
    exact List.mem_map.mpr ⟨(id, map), Table.mem_rows.mpr hget, rfl⟩
  obtain ⟨g, hadd, hagrees', -⟩ := SchemaRefs.addEdges_ok hcodec.encodesEdges hrows hagrees fun e he =>
    ⟨hpresent _ (Or.inl (hrow _ ((hgathered.lowerAll haccum).ends e he).1)),
      hpresent _ (Or.inl (hrow _ ((hgathered.lowerAll haccum).ends e he).2))⟩
  obtain ⟨hstored, hblobs⟩ := blobs_addEdges hadd
  have hload : loadTriples codec GraphCore.new iris ts =
      ((accum.schemaRefs.foldl GraphCore.markSchemaRef ⟨g, Table.empty⟩,
        internRows iris ⟨nodes, rows, ts.length, accum.multivalue.length, accum.schemaRefs⟩),
        .ok ⟨ts.length, accum.multivalue.length⟩) := by
    have hwrite : writeRows GraphCore.new
        ⟨nodes, rows, ts.length, accum.multivalue.length, accum.schemaRefs⟩ =
        (accum.schemaRefs.foldl GraphCore.markSchemaRef ⟨g, Table.empty⟩,
          .ok ⟨ts.length, accum.multivalue.length⟩) := by
      unfold writeRows
      dsimp only
      rw [show (GraphCore.new : GraphCore Blob).graph = GraphState.new from rfl, hadd]
      rfl
    unfold loadTriples
    rw [hlower]
    dsimp only
    rw [hwrite]
  have hgraph :
      (accum.schemaRefs.foldl GraphCore.markSchemaRef (⟨g, Table.empty⟩ : GraphCore Blob)).graph = g :=
    graph_markAll
  refine ⟨_, _, _, hload, ?_⟩
  have hwritten := @written_holds Blob codec ox
    (accum.schemaRefs.foldl GraphCore.markSchemaRef ⟨g, Table.empty⟩)
    props hobjects accum.edges hgood.edges nodes rows hencoded (by rw [hgraph]; exact hagrees')
    (fun id blob => by
      rw [hgraph, hstored, nodeProperties_addNodes, Table.get_foldl_insert hnodup]
      simp [GraphState.new])
    (fun s o blob => by
      rw [hgraph, hblobs, GraphState.blobs, hnone]
      simp [GraphState.new])
  exact ⟨hwritten.1, fun u hu => (hwritten.2 u).trans (hholds u hu)⟩

/-! ### The round trip -/

def insertEach (codec : Codec Blob) (core : GraphCore Blob) : List Triple → Except String (GraphCore Blob)
  | [] => .ok core
  | t :: ts =>
    match insertTriples codec core 0 [t] with
    | (_, .error e) => .error e
    | (core, .ok _) => insertEach codec core ts

theorem RdfGraph.insertEach (hcodec : RoundTrips codec) : ∀ {ts : List Triple} {core : GraphCore Blob},
    RdfGraph ox codec core.graph → (∀ t ∈ ts, GoodTriple ox t) →
    ∃ core', insertEach codec core ts = .ok core' ∧ Adds ox codec core core' fun u => u ∈ ts
  | [], core, h, _ => ⟨core, rfl, h.adds_nothing fun _ _ hmem => absurd hmem List.not_mem_nil⟩
  | t :: ts, core, h, hts => by
    obtain ⟨mid, count, hone, hadds⟩ := @RdfGraph.insertTriples Blob codec ox hcodec [t] core 0 h fun u hu => by
      rw [List.mem_singleton.mp hu]
      exact hts t (.head _)
    obtain ⟨core', hrest, hadds'⟩ := RdfGraph.insertEach hcodec hadds.graph
      fun u hu => hts u (.tail _ hu)
    refine ⟨core', ?_, (hadds.trans hadds').congr fun u => ?_⟩
    · unfold RoundTrip.insertEach
      rw [hone]
      exact hrest
    · rw [List.mem_singleton, List.mem_cons]

/-- **RDF data survives loading.** A list of triples loaded into an empty graph, or inserted there in any
order, is exported as the same set of triples. -/
theorem triples_survive (ox : Oxrdf) (codec : Codec Blob) (hcodec : RoundTrips codec) (iris : IriStore)
    (ts : List Triple) (hts : ∀ t ∈ ts, GoodTriple ox t) :
    (∃ core iris' report out, loadTriples codec GraphCore.new iris ts = ((core, iris'), .ok report) ∧
      exportTriples ox codec core = .ok out ∧ ∀ t, t ∈ out ↔ t ∈ ts) ∧
    ∀ us, us.Perm ts → ∃ core out, insertEach codec GraphCore.new us = .ok core ∧
      exportTriples ox codec core = .ok out ∧ ∀ t, t ∈ out ↔ t ∈ ts := by
  constructor
  · obtain ⟨core, iris', report, hload, hgraph, hholds⟩ := loadTriples_ok hcodec iris hts
    obtain ⟨out, hout, hmem⟩ := hgraph.exported
    refine ⟨core, iris', report, out, hload, hout, fun t => ?_⟩
    rw [hmem]
    constructor
    · rintro ⟨ht, hheld⟩
      exact (hholds t ht).mp hheld
    · intro ht
      exact ⟨hts t ht, (hholds t (hts t ht)).mpr ht⟩
  · intro us hperm
    obtain ⟨core, hinsert, hadds⟩ := rdfGraph_new.insertEach hcodec fun t ht => hts t (hperm.mem_iff.mp ht)
    obtain ⟨out, hout, hmem⟩ := hadds.graph.exported
    refine ⟨core, out, hinsert, hout, fun t => ?_⟩
    rw [hmem]
    constructor
    · rintro ⟨ht, hheld⟩
      rcases (hadds.holds t ht).mp hheld with hnew | hmem
      · exact absurd hnew not_holds_new
      · exact hperm.mem_iff.mp hmem
    · intro ht
      exact ⟨hts t ht, (hadds.holds t (hts t ht)).mpr (Or.inr (hperm.mem_iff.mpr ht))⟩

/-- Constructors that accept every text with a scheme, every blank label, and every tag as it is. -/
def permissive : Oxrdf := ⟨fun iri => iri.toList.contains ':', fun _ => true, some⟩

/-- Two names, one of them tagged and given twice, an age, and two types. -/
def alice : List Triple :=
  [⟨.namedNode "http://example.org/alice", "http://example.org/name", .literal (.simple "Alice")⟩,
    ⟨.namedNode "http://example.org/alice", "http://example.org/name", .literal (.languageTagged "Alice" "en")⟩,
    ⟨.namedNode "http://example.org/alice", "http://example.org/name", .literal (.languageTagged "Alice" "en")⟩,
    ⟨.namedNode "http://example.org/alice", "http://example.org/age",
      .literal (.typed "30" "http://www.w3.org/2001/XMLSchema#integer")⟩,
    ⟨.namedNode "http://example.org/alice", rdfType, .namedNode "http://example.org/Person"⟩,
    ⟨.namedNode "http://example.org/alice", rdfType, .blankNode "b"⟩]

theorem goodIri_permissive {iri : String} (h : iri.toList.contains ':' = true) : GoodIri permissive iri :=
  ⟨h, by simpa [Absolute] using h⟩

theorem alice_good : ∀ t ∈ alice, GoodTriple permissive t := by
  have hiri : ∀ iri ∈ ["http://example.org/alice", "http://example.org/name", "http://example.org/age", rdfType,
      "http://example.org/Person"], GoodIri permissive iri := by
    intro iri hmem
    refine goodIri_permissive ?_
    revert iri
    decide +kernel
  have hstring : permissive.validIri xsdString = true := by decide +kernel
  have hinteger : permissive.validIri "http://www.w3.org/2001/XMLSchema#integer" = true ∧
      "http://www.w3.org/2001/XMLSchema#integer" ≠ xsdString := by decide +kernel
  simp only [alice, List.forall_mem_cons, List.not_mem_nil, false_imp_iff, implies_true, and_true]
  refine ⟨⟨hiri _ (by simp), hiri _ (by simp), hstring⟩, ⟨hiri _ (by simp), hiri _ (by simp), rfl⟩,
    ⟨hiri _ (by simp), hiri _ (by simp), rfl⟩, ⟨hiri _ (by simp), hiri _ (by simp), hinteger⟩,
    ⟨hiri _ (by simp), hiri _ (by simp), hiri _ (by simp)⟩, ⟨hiri _ (by simp), hiri _ (by simp), rfl⟩⟩

theorem triples_survive_alice : (∀ t ∈ alice, GoodTriple permissive t) ∧ (∃ core iris' report out,
      loadTriples plainCodec GraphCore.new .default alice = ((core, iris'), .ok report) ∧
      exportTriples permissive plainCodec core = .ok out ∧ ∀ t, t ∈ out ↔ t ∈ alice) ∧
    ∃ core out, insertEach plainCodec GraphCore.new alice.reverse = .ok core ∧
      exportTriples permissive plainCodec core = .ok out ∧ ∀ t, t ∈ out ↔ t ∈ alice := by
  have hsurvive := triples_survive permissive plainCodec (fun v => ⟨v, rfl, rfl⟩) .default alice alice_good
  exact ⟨alice_good, hsurvive.1, hsurvive.2 _ alice.reverse_perm⟩

end Medulla.Rdf.RoundTrip
