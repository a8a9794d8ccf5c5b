import Medulla.Library.Tally
import Medulla.Rdf.Lowering

/-! # Schema references count schema edges

The count of an id is the number of times the stored schema edges name it: an edge of a schema predicate
names both its ends, a type edge to a schema type names its subject.

* the invariant: `Counted`;
* every run: `schema_nodes_live`. -/

namespace Medulla.Rdf.SchemaRefs

open Library.Checked Library.OrderedTable Library.Tally Library.Transaction Resource.Extension
open Terms Triples Lowering Graph.Txn Graph.Agreement
open Index.Changes (Codec plainCodec)

variable {Blob : Type} {codec : Codec Blob} {core : GraphCore Blob} {id o s : String} {blob : Blob}
  {pair : String ×ₗ String} {blobs : List Blob} {g : GraphState Blob} {p : String}

/-- The stored bytes of an edge object read back as a schema predicate just when the edge has it. -/
def EncodesEdges (codec : Codec Blob) : Prop :=
  ∀ p blob, codec.toVecNamed (edgeObject p) = some blob → ∀ q, q ∈ tboxSchemaPredicates ∨ q = rdfType →
    (decodeEdgeRelationship codec blob = some q ↔ q = p)

/-! ### What a triple names -/

theorem stripAngles_eq_some {iri : String} : stripAngles id = some iri ↔ id = iriId iri := by
  constructor
  · intro h
    unfold stripAngles at h
    split at h
    · rename_i rest hlist
      split_ifs at h with hlast
      obtain rfl := Option.some.inj h
      have hrest : rest.dropLast ++ ['>'] = rest := List.dropLast_append_getLast? '>' hlast
      rw [← String.toList_inj, hlist]
      simp [iriId, hrest]
    · cases h
  · rintro rfl
    exact stripAngles_iriId iri

theorem declaresSchema_iff : declaresSchema o = true ↔ ∃ iri ∈ tboxTypeObjects, o = iriId iri := by
  unfold declaresSchema
  rw [Option.any_eq_true]
  constructor
  · rintro ⟨iri, hiri, hmem⟩
    exact ⟨iri, by simpa using hmem, stripAngles_eq_some.mp hiri⟩
  · rintro ⟨iri, hmem, rfl⟩
    exact ⟨iri, stripAngles_iriId iri, by simpa using hmem⟩

theorem mem_schemaIds : id ∈ schemaIds s p o ↔
    (p ∈ tboxSchemaPredicates ∧ (id = s ∨ id = o)) ∨
      (p = rdfType ∧ id = s ∧ ∃ iri ∈ tboxTypeObjects, o = iriId iri) := by
  have htype : rdfType ∉ tboxSchemaPredicates := by decide +kernel
  rw [← declaresSchema_iff]
  unfold schemaIds schemaEnds
  by_cases hp : p = rdfType
  · subst hp
    simp [htype, and_comm]
  · by_cases hschema : p ∈ tboxSchemaPredicates
    · simp [hp, hschema]
    · simp [hp, hschema]

/-! ### References of the stored edges -/

def edgeRefs (codec : Codec Blob) (id : String) (pair : String ×ₗ String) (blob : Blob) : ℕ :=
  match decodeEdgeRelationship codec blob with
  | none => 0
  | some p => (schemaIds (ofLex pair).1 p (ofLex pair).2).count id

theorem schemaIds_of_other (hp : ¬(p ∈ tboxSchemaPredicates ∨ p = rdfType)) : schemaIds s p o = [] := by
  rw [not_or] at hp
  simp [schemaIds, schemaEnds, hp.1, hp.2]

theorem edgeRefs_encoded (hcodec : EncodesEdges codec)
    (hblob : codec.toVecNamed (edgeObject p) = some blob) (id : String) :
    edgeRefs codec id (toLex (s, o)) blob = (schemaIds s p o).count id := by
  have hreads := hcodec p blob hblob
  unfold edgeRefs
  by_cases hp : p ∈ tboxSchemaPredicates ∨ p = rdfType
  · rw [(hreads p hp).mpr rfl]
    rfl
  · rw [schemaIds_of_other hp, List.count_nil]
    split
    · rfl
    · rename_i q hq
      rw [schemaIds_of_other fun hschema => hp ((hreads q hschema).mp hq ▸ hschema), List.count_nil]

/-- How often the edges of an endpoint pair name an id as schema. -/
def pairRefs (codec : Codec Blob) (id : String) (pair : String ×ₗ String) (blobs : List Blob) : ℕ :=
  (blobs.map (edgeRefs codec id pair)).sum

/-- How often the stored edges name an id as schema. -/
def liveRefs (codec : Codec Blob) (g : GraphState Blob) (id : String) : ℕ :=
  total (pairRefs codec id) g.edgeProperties

def NamedBySchema (codec : Codec Blob) (g : GraphState Blob) (id : String) : Prop :=
  ∃ s o, ∃ blob ∈ g.blobs s o, ∃ p, decodeEdgeRelationship codec blob = some p ∧
    ((p ∈ tboxSchemaPredicates ∧ (id = s ∨ id = o)) ∨
      (p = rdfType ∧ id = s ∧ ∃ iri ∈ tboxTypeObjects, o = iriId iri))

theorem edgeRefs_pos : 0 < edgeRefs codec id (toLex (s, o)) blob ↔
    ∃ p, decodeEdgeRelationship codec blob = some p ∧ id ∈ schemaIds s p o := by
  unfold edgeRefs
  split
  · rename_i hnone
    simp [hnone]
  · rename_i p hp
    simp [hp]

theorem pairRefs_pos :
    0 < pairRefs codec id pair blobs ↔ ∃ blob ∈ blobs, 0 < edgeRefs codec id pair blob := by
  unfold pairRefs
  rw [List.sum_pos_iff_exists_pos_nat]
  simp

theorem liveRefs_pos : 0 < liveRefs codec g id ↔ NamedBySchema codec g id := by
  unfold liveRefs NamedBySchema
  rw [total_pos]
  constructor
  · rintro ⟨pair, blobs, hget, hpos⟩
    obtain ⟨blob, hblob, hrefs⟩ := pairRefs_pos.mp hpos
    obtain ⟨p, hp, hmem⟩ := edgeRefs_pos (s := (ofLex pair).1) (o := (ofLex pair).2).mp hrefs
    refine ⟨(ofLex pair).1, (ofLex pair).2, blob, ?_, p, hp, mem_schemaIds.mp hmem⟩
    rw [GraphState.blobs]
    simpa [hget] using hblob
  · rintro ⟨s, o, blob, hblob, p, hp, hnames⟩
    have hrefs := edgeRefs_pos.mpr ⟨p, hp, mem_schemaIds.mpr hnames⟩
    cases hget : g.edgeProperties.get (toLex (s, o)) with
    | none =>
      rw [GraphState.blobs, hget] at hblob
      cases hblob
    | some blobs =>
      rw [GraphState.blobs, hget] at hblob
      exact ⟨_, blobs, hget, pairRefs_pos.mpr ⟨blob, hblob, hrefs⟩⟩

/-! ### Writing edges -/

theorem pairRefs_nil : pairRefs codec id pair ([] : List Blob) = 0 := rfl

theorem pairRefs_append {xs ys : List Blob} :
    pairRefs codec id pair (xs ++ ys) = pairRefs codec id pair xs + pairRefs codec id pair ys := by
  rw [pairRefs, List.map_append, List.sum_append, ← pairRefs, ← pairRefs]

theorem liveRefs_setBlobs :
    pairRefs codec id (toLex (s, o)) (g.blobs s o) + liveRefs codec (g.setBlobs s o blobs) id =
      pairRefs codec id (toLex (s, o)) blobs + liveRefs codec g id :=
  total_insert_getD pairRefs_nil

theorem liveRefs_addEdge (codec : Codec Blob) (id : String) {g' : GraphState Blob}
    (h : addEdge g s o blob = .ok g') :
    liveRefs codec g' id = liveRefs codec g id + edgeRefs codec id (toLex (s, o)) blob := by
  have hset := @liveRefs_setBlobs Blob codec id o s (g.blobs s o ++ [blob]) g
  rw [pairRefs_append] at hset
  have hone : pairRefs codec id (toLex (s, o)) [blob] = edgeRefs codec id (toLex (s, o)) blob := by
    simp [pairRefs]
  unfold liveRefs at hset ⊢
  rw [(addEdge_eq h).1]
  omega

/-! ### Marks -/

def schemaCount (core : GraphCore Blob) (id : String) : ℕ := (core.schemaRefs.get id).getD 0

theorem isSchemaNode_iff : core.isSchemaNode id = true ↔ 0 < schemaCount core id := by
  unfold GraphCore.isSchemaNode schemaCount
  cases core.schemaRefs.get id with
  | none => simp
  | some count => simp

theorem schemaCount_mark {x : String} :
    schemaCount (core.markSchemaRef x) id = schemaCount core id + [x].count id := by
  unfold schemaCount GraphCore.markSchemaRef
  rw [Table.get_insert]
  by_cases h : id = x
  · simp [h]
  · have hne : ¬x = id := fun heq => h heq.symm
    simp [h, hne]

theorem schemaCount_unmark {x : String} :
    schemaCount (core.unmarkSchemaRef x) id = schemaCount core id - [x].count id := by
  unfold schemaCount GraphCore.unmarkSchemaRef
  split
  · rename_i hnone
    by_cases h : id = x
    · simp [h, hnone]
    · have hne : ¬x = id := fun heq => h heq.symm
      simp [hne]
  · rename_i count hcount
    rw [Table.get_insert]
    by_cases h : id = x
    · simp [h, hcount]
    · have hne : ¬x = id := fun heq => h heq.symm
      simp [h, hne]

theorem schemaCount_markAll : ∀ {ids : List String} {core : GraphCore Blob},
    schemaCount (ids.foldl GraphCore.markSchemaRef core) id = schemaCount core id + ids.count id
  | [], core => by simp
  | x :: ids, core => by
    have hcons : ([x] ++ ids).count id = [x].count id + ids.count id := List.count_append
    rw [List.singleton_append] at hcons
    rw [List.foldl_cons, schemaCount_markAll, schemaCount_mark, hcons, Nat.add_assoc]

theorem markEnds_eq :
    markEnds core s o (schemaEnds p o) = (schemaIds s p o).foldl GraphCore.markSchemaRef core := by
  unfold markEnds schemaIds
  cases (schemaEnds p o).1 <;> cases (schemaEnds p o).2 <;> rfl

theorem schemaCount_unmarkEnds :
    schemaCount (unmarkEnds core s o (schemaEnds p o)) id =
      schemaCount core id - (schemaIds s p o).count id := by
  unfold unmarkEnds schemaIds
  cases (schemaEnds p o).1 <;> cases (schemaEnds p o).2 <;>
    simp [schemaCount_unmark, Nat.sub_sub, List.count_cons, Nat.add_comm]

theorem graph_markAll : ∀ {ids : List String} {core : GraphCore Blob},
    (ids.foldl GraphCore.markSchemaRef core).graph = core.graph
  | [], _ => rfl
  | x :: ids, core => by
    rw [List.foldl_cons, graph_markAll]
    rfl

theorem graph_unmarkSchemaRef : (core.unmarkSchemaRef id).graph = core.graph := by
  unfold GraphCore.unmarkSchemaRef
  split <;> rfl

theorem graph_unmarkEnds {ends : Bool × Bool} : (unmarkEnds core s o ends).graph = core.graph := by
  unfold unmarkEnds
  cases ends.1 <;> cases ends.2 <;> simp [graph_unmarkSchemaRef]

/-! ### The invariant -/

/-- **The recorded references are the references of the stored edges.** -/
structure Counted (codec : Codec Blob) (core : GraphCore Blob) : Prop where
  agrees : Agrees core.graph
  counted : ∀ id, schemaCount core id = liveRefs codec core.graph id

theorem counted_new : Counted codec (GraphCore.new : GraphCore Blob) := ⟨agrees_new, fun _ => rfl⟩

section
variable (h : Counted codec core)
include h

theorem Counted.isSchemaNode_iff :
    core.isSchemaNode id = true ↔ NamedBySchema codec core.graph id := by
  rw [SchemaRefs.isSchemaNode_iff, h.counted, liveRefs_pos]

/-! ### Node writes -/

theorem Counted.addNode (id : String) (blob : Blob) : Counted codec (core.addNode id blob) :=
  ⟨h.agrees.addNode id blob, h.counted⟩

theorem Counted.writeNodeObj (id : String) (map : Fields) :
    Counted codec (writeNodeObj codec core id map) :=
  h.addNode id _

theorem Counted.ensureNode (id : String) : Counted codec (ensureNode codec core id) := by
  unfold Triples.ensureNode
  split
  · exact h
  · exact h.writeNodeObj id []

theorem Counted.writeIfChanged (id : String) :
    ∀ map : Option Fields, Counted codec (writeIfChanged codec core id map).1
  | some map => h.writeNodeObj id map
  | none => h

theorem Counted.classifySchemaTriple (s p o : String) :
    Counted codec (classifySchemaTriple codec core s p o).1 := by
  unfold Triples.classifySchemaTriple
  split
  · split
    · exact h
    · exact h.writeIfChanged s _
  · exact h

end

theorem ends_classifySchemaTriple (s p o : String) :
    (classifySchemaTriple codec core s p o).2.2 = schemaEnds p o := by
  unfold Triples.classifySchemaTriple
  split
  · split <;> rfl
  · rfl

/-! ### Inserting -/

theorem Counted.addEdge (h : Counted codec core)
    (hrefs : ∀ id, edgeRefs codec id (toLex (s, o)) blob = (schemaIds s p o).count id)
    (hadd : addEdge core.graph s o blob = .ok g) :
    Counted codec (markEnds { core with graph := g } s o (schemaEnds p o)) := by
  rw [markEnds_eq]
  refine ⟨?_, fun id => ?_⟩
  · rw [graph_markAll]
    exact h.agrees.addEdge hadd
  · rw [schemaCount_markAll, graph_markAll, liveRefs_addEdge codec id hadd, hrefs, ← h.counted id]
    rfl

theorem Counted.insertResourceTriple (hcodec : EncodesEdges codec) (h : Counted codec core) (s p o : String) :
    Counted codec (insertResourceTriple codec core s p o).1 := by
  have hready := ((h.ensureNode s).ensureNode o).classifySchemaTriple s p o
  have hends := @ends_classifySchemaTriple Blob codec
  unfold Triples.insertResourceTriple
  dsimp only
  rw [hends]
  generalize (Triples.classifySchemaTriple codec
    (Triples.ensureNode codec (Triples.ensureNode codec core s) o) s p o) = classified at hready
  unfold addEdgeIfAbsent
  split_ifs
  · exact hready
  · cases hblob : codec.toVecNamed (edgeObject p) with
    | none => exact hready
    | some blob =>
      dsimp only
      cases hadd : Graph.Txn.addEdge classified.1.graph s o blob with
      | error e => exact hready
      | ok g => exact hready.addEdge (edgeRefs_encoded hcodec hblob) hadd

theorem Counted.insertTriple (hcodec : EncodesEdges codec) (h : Counted codec core) (s p : String) :
    ∀ obj : ObjTerm, Counted codec (insertTriple codec core s p obj).1
  | .literal _ => (h.ensureNode s).writeIfChanged s _
  | .resource o => h.insertResourceTriple hcodec s p o

theorem Counted.insertTriples (hcodec : EncodesEdges codec) : ∀ {ts : List Triple} {core : GraphCore Blob}
    {inserted : ℕ}, Counted codec core → Counted codec (insertTriples codec core inserted ts).1
  | [], _, _, h => h
  | t :: ts, core, inserted, h => by
    have hone := h.insertTriple hcodec (subjectId t.subject) t.predicate (objFromTerm t.object)
    unfold Triples.insertTriples
    split
    · rename_i heq
      rw [heq] at hone
      exact hone
    · rename_i heq
      rw [heq] at hone
      exact Counted.insertTriples hcodec hone

/-! ### Deleting -/

theorem pairRefs_survivors (id s o : String) : ∀ {blobs rest : List Blob},
    survivors codec p blobs = some rest → pairRefs codec id (toLex (s, o)) blobs =
        (schemaIds s p o).count id + pairRefs codec id (toLex (s, o)) rest
  | [], _, h => by cases h
  | blob :: blobs, rest, h => by
    have hcons : ∀ xs : List Blob, pairRefs codec id (toLex (s, o)) (blob :: xs) =
        edgeRefs codec id (toLex (s, o)) blob + pairRefs codec id (toLex (s, o)) xs := fun xs => by
      rw [pairRefs, List.map_cons, List.sum_cons, ← pairRefs]
    unfold survivors at h
    split_ifs at h with hp
    · obtain rfl := Option.some.inj h
      rw [hcons, edgeRefs, hp]
      rfl
    · obtain ⟨rest', hrest, rfl⟩ := Option.map_eq_some_iff.mp h
      rw [hcons, hcons, pairRefs_survivors id s o hrest]
      omega

theorem addAll (codec : Codec Blob) : ∀ (blobs : List Blob) {g : GraphState Blob}, Agrees g →
    (g.topo.nodeMap.get s).isSome → (g.topo.nodeMap.get o).isSome →
    Agrees (blobs.foldl (fun g blob => settled g (addEdge g s o blob)) g) ∧
      ∀ id, liveRefs codec (blobs.foldl (fun g blob => settled g (addEdge g s o blob)) g) id =
        liveRefs codec g id + pairRefs codec id (toLex (s, o)) blobs
  | [], g, h, _, _ => ⟨h, fun _ => rfl⟩
  | blob :: blobs, g, h, hs, ho => by
    obtain ⟨g', hadd⟩ := addEdge_ok blob hs ho
    have hmap := (addEdge_eq hadd).2.1
    obtain ⟨hagrees, hrefs⟩ := addAll codec blobs (h.addEdge hadd) (by rw [hmap]; exact hs)
      (by rw [hmap]; exact ho)
    rw [List.foldl_cons, hadd]
    refine ⟨hagrees, fun id => ?_⟩
    have hone := liveRefs_addEdge codec id hadd
    have hrest : liveRefs codec (blobs.foldl (fun g blob => settled g (addEdge g s o blob)) g') id = _ :=
      hrefs id
    rw [settled, hrest, pairRefs, pairRefs, List.map_cons, List.sum_cons]
    omega

theorem Counted.removeTypedEdge (h : Counted codec core) (s p o : String) :
    (removeTypedEdge codec core s o p).1.schemaRefs = core.schemaRefs ∧
    Agrees (removeTypedEdge codec core s o p).1.graph ∧
    ∀ id, liveRefs codec core.graph id = liveRefs codec (removeTypedEdge codec core s o p).1.graph id +
      if (removeTypedEdge codec core s o p).2 then (schemaIds s p o).count id else 0 := by
  unfold Triples.removeTypedEdge
  split
  · exact ⟨rfl, h.agrees, fun _ => rfl⟩
  · rename_i rest hrest
    have hblobs : core.graph.blobs s o ≠ [] := by
      intro hnil
      rw [hnil] at hrest
      cases hrest
    obtain ⟨hs, ho⟩ := h.agrees.endpoints s o hblobs
    obtain ⟨i, hi⟩ := Option.isSome_iff_exists.mp hs
    obtain ⟨j, hj⟩ := Option.isSome_iff_exists.mp ho
    have hremove : (removeEdge core.graph s o).topo.nodeMap = core.graph.topo.nodeMap ∧
        (removeEdge core.graph s o).edgeProperties = core.graph.edgeProperties.remove (toLex (s, o)) := by
      unfold removeEdge
      rw [hi, hj]
      exact ⟨rfl, rfl⟩
    obtain ⟨hagrees, hrefs⟩ := addAll codec rest (h.agrees.removeEdge s o)
      (by rw [hremove.1]; exact hs) (by rw [hremove.1]; exact ho)
    refine ⟨rfl, hagrees, fun id => ?_⟩
    have hgone : pairRefs codec id (toLex (s, o)) (core.graph.blobs s o) +
        liveRefs codec (removeEdge core.graph s o) id = liveRefs codec core.graph id := by
      unfold liveRefs
      rw [hremove.2]
      exact total_remove_getD pairRefs_nil
    have hsurvive := pairRefs_survivors id s o hrest
    have hback := hrefs id
    dsimp only
    rw [if_pos rfl]
    omega

theorem Counted.deleteResourceTriple (h : Counted codec core) (s p o : String) :
    Counted codec (deleteResourceTriple codec core s p o).1 := by
  obtain ⟨hmarks, hagrees, hrefs⟩ := h.removeTypedEdge s p o
  have hcount : ∀ id, schemaCount (Triples.removeTypedEdge codec core s o p).1 id = schemaCount core id := by
    intro id
    rw [schemaCount, hmarks, ← schemaCount]
  unfold Triples.deleteResourceTriple
  generalize Triples.removeTypedEdge codec core s o p = removed at hagrees hrefs hcount
  -- Clearing the type property writes a node, so it keeps the agreement, the marks and the edges.
  have hcleared : ∀ cleared : GraphCore Blob × Bool,
      (cleared.1 = removed.1 ∨ ∃ map, cleared.1 = Triples.writeNodeObj codec removed.1 s map) →
      Counted codec (if removed.2 = true then unmarkEnds cleared.1 s o (schemaEnds p o) else cleared.1) := by
    intro cleared hcase
    have hsame : Agrees cleared.1.graph ∧ cleared.1.schemaRefs = removed.1.schemaRefs ∧
        cleared.1.graph.edgeProperties = removed.1.graph.edgeProperties := by
      rcases hcase with heq | ⟨map, heq⟩
      · rw [heq]
        exact ⟨hagrees, rfl, rfl⟩
      · rw [heq]
        exact ⟨hagrees.addNode s _, rfl, rfl⟩
    have hcount' : ∀ id, schemaCount cleared.1 id = schemaCount core id := fun id => by
      rw [schemaCount, hsame.2.1, ← schemaCount, hcount id]
    have hlive : ∀ id, liveRefs codec cleared.1.graph id = liveRefs codec removed.1.graph id := fun id => by
      rw [liveRefs, hsame.2.2, ← liveRefs]
    split_ifs with hremoved
    · refine ⟨?_, fun id => ?_⟩
      · rw [graph_unmarkEnds]
        exact hsame.1
      · have hid := hrefs id
        rw [if_pos hremoved] at hid
        rw [schemaCount_unmarkEnds, graph_unmarkEnds, hcount' id, hlive id, h.counted id, hid,
          Nat.add_sub_cancel]
    · refine ⟨hsame.1, fun id => ?_⟩
      have hid := hrefs id
      rw [if_neg hremoved, Nat.add_zero] at hid
      rw [hcount' id, hlive id, h.counted id, hid]
  refine hcleared _ ?_
  split
  · unfold clearTypeProperty
    dsimp only
    split_ifs
    · exact Or.inr ⟨_, rfl⟩
    · exact Or.inl rfl
  · exact Or.inl rfl

theorem Counted.deleteTriple (h : Counted codec core) (s p : String) :
    ∀ obj : ObjTerm, Counted codec (deleteTriple codec core s p obj).1
  | .literal _ => h.writeIfChanged s _
  | .resource o => h.deleteResourceTriple s p o

theorem Counted.removeTriples : ∀ {ts : List Triple} {core : GraphCore Blob} {removed : ℕ},
    Counted codec core → Counted codec (removeTriples codec core removed ts).1
  | [], _, _, h => h
  | t :: _, _, _, h =>
    (h.deleteTriple (subjectId t.subject) t.predicate (objFromTerm t.object)).removeTriples

/-! ### Loading -/

structure Gathered (accum : LoweredAccum) : Prop where
  ends : ∀ e ∈ accum.edges, (accum.nodeProps.get e.1).isSome ∧ (accum.nodeProps.get e.2.2).isSome
  refs : accum.schemaRefs = accum.edges.flatMap fun e => schemaIds e.1 e.2.1 e.2.2

theorem isSome_insert {t : Table String Fields} {k : String} {v : Fields} (h : (t.get id).isSome) :
    ((t.insert k v).get id).isSome := by
  rw [Table.get_insert]
  split_ifs
  · rfl
  · exact h

theorem isSome_orDefault {t : Table String Fields} {k : String} (h : (t.get id).isSome) :
    ((orDefault t k).get id).isSome := by
  unfold orDefault
  split
  · exact h
  · exact isSome_insert h

theorem isSome_orDefault_self (t : Table String Fields) (k : String) : ((orDefault t k).get k).isSome := by
  unfold orDefault
  split
  · rename_i hsome
    rw [hsome]
    rfl
  · rw [Table.get_insert_self]
    rfl

theorem Gathered.lowerOneTriple {accum accum' : LoweredAccum} (h : Gathered accum) {t : Triple}
    (hlower : lowerOneTriple accum t = .ok accum') : Gathered accum' := by
  unfold Lowering.lowerOneTriple at hlower
  dsimp only at hlower
  split at hlower
  · split_ifs at hlower
    · cases hlower
      refine ⟨fun e he => ?_, h.refs⟩
      exact ⟨isSome_orDefault (h.ends e he).1, isSome_orDefault (h.ends e he).2⟩
    · cases hlower
      refine ⟨fun e he => ?_, h.refs⟩
      exact ⟨isSome_insert (isSome_orDefault (h.ends e he).1),
        isSome_insert (isSome_orDefault (h.ends e he).2)⟩
  · split at hlower
    · cases hlower
    · rename_i objectId hid
      cases hlower
      refine ⟨fun e he => ?_, ?_⟩
      · rcases List.mem_append.mp he with he | he
        · exact ⟨isSome_insert (isSome_orDefault (isSome_orDefault (h.ends e he).1)),
            isSome_insert (isSome_orDefault (isSome_orDefault (h.ends e he).2))⟩
        · obtain rfl := List.mem_singleton.mp he
          exact ⟨isSome_insert (isSome_orDefault (isSome_orDefault_self _ _)),
            isSome_insert (isSome_orDefault_self _ _)⟩
      · dsimp only
        rw [List.flatMap_append, ← h.refs, List.flatMap_singleton]

theorem Gathered.lowerAll : ∀ {ts : List Triple} {accum accum' : LoweredAccum}, Gathered accum →
    lowerAll accum ts = .ok accum' → Gathered accum'
  | [], _, _, h, hlower => by
    cases hlower
    exact h
  | t :: ts, _, _, h, hlower => by
    obtain ⟨mid, hone, hrest⟩ := unbind hlower
    exact (h.lowerOneTriple hone).lowerAll hrest

theorem isSome_mergeMultivalueCells : ∀ {cells : List (String × String × Json)}
    {t t' : Table String Fields}, mergeMultivalueCells t cells = .ok t' → (t.get id).isSome →
      (t'.get id).isSome
  | [], _, _, hmerge, h => by
    cases hmerge
    exact h
  | (subject, predicate, cell) :: cells, t, t', hmerge, h => by
    obtain ⟨mid, hone, hrest⟩ := unbind hmerge
    refine isSome_mergeMultivalueCells hrest ?_
    unfold mergeMultivalueCell at hone
    dsimp only at hone
    split at hone
    · cases hone
    · split at hone
      · cases hone
      · cases hone
        exact isSome_insert h

theorem ids_encodeLoweredNodes : ∀ {rows : List (String × Fields)} {nodes : List (String × Blob)},
    encodeLoweredNodes codec rows = .ok nodes → nodes.map Prod.fst = rows.map Prod.fst
  | [], _, h => by
    cases h
    rfl
  | (id, properties) :: rows, nodes, h => by
    unfold encodeLoweredNodes at h
    split at h
    · cases h
    · obtain ⟨rest, hrest, hnodes⟩ := unbind h
      cases hnodes
      rw [List.map_cons, List.map_cons, ids_encodeLoweredNodes hrest]

theorem addNodes : ∀ (nodes : List (String × Blob)) {g : GraphState Blob}, Agrees g →
    Agrees (nodes.foldl (fun g row => addNode g row.1 row.2) g) ∧
      (nodes.foldl (fun g row => addNode g row.1 row.2) g).edgeProperties = g.edgeProperties ∧
      ∀ id, (id ∈ nodes.map Prod.fst ∨ (g.topo.nodeMap.get id).isSome) →
        ((nodes.foldl (fun g row => addNode g row.1 row.2) g).topo.nodeMap.get id).isSome
  | [], g, h => ⟨h, rfl, fun id hid => hid.resolve_left (List.not_mem_nil)⟩
  | row :: nodes, g, h => by
    obtain ⟨hagrees, hedges, hnodes⟩ := addNodes nodes (h.addNode row.1 row.2)
    refine ⟨hagrees, hedges, fun id hid => hnodes id ?_⟩
    rw [List.map_cons, List.mem_cons] at hid
    have hiff : ((addNode g row.1 row.2).topo.nodeMap.get id).isSome = true ↔
        id = row.1 ∨ (g.topo.nodeMap.get id).isSome = true := Graph.Slots.Topology.isSome_addNode
    rcases hid with (hid | hid) | hid
    · exact Or.inr (hiff.mpr (Or.inl hid))
    · exact Or.inl hid
    · exact Or.inr (hiff.mpr (Or.inr hid))

theorem addEdges_ok (hcodec : EncodesEdges codec) : ∀ {edges : List (String × String × String)}
    {rows : List (String × String × Blob)} {g : GraphState Blob},
    encodeLoweredEdges codec edges = .ok rows → Agrees g →
    (∀ e ∈ edges, (g.topo.nodeMap.get e.1).isSome ∧ (g.topo.nodeMap.get e.2.2).isSome) →
    ∃ g', addEdges g rows = (g', .ok ()) ∧ Agrees g' ∧ ∀ id, liveRefs codec g' id =
        liveRefs codec g id + (edges.flatMap fun e => schemaIds e.1 e.2.1 e.2.2).count id
  | [], _, g, hencode, h, _ => by
    cases hencode
    exact ⟨g, rfl, h, fun _ => rfl⟩
  | (s, p, o) :: edges, rows, g, hencode, h, hends => by
    unfold encodeLoweredEdges at hencode
    split at hencode
    · cases hencode
    rename_i blob hblob
    obtain ⟨rest, hrest, hrows⟩ := unbind hencode
    cases hrows
    obtain ⟨hs, ho⟩ : (g.topo.nodeMap.get s).isSome ∧ (g.topo.nodeMap.get o).isSome :=
      hends (s, p, o) (.head _)
    obtain ⟨g₁, hadd⟩ := addEdge_ok blob hs ho
    have hmap := (addEdge_eq hadd).2.1
    obtain ⟨g', hedges, hagrees, hrefs⟩ := addEdges_ok hcodec hrest (h.addEdge hadd) fun e he => by
      rw [hmap]
      exact hends e (.tail _ he)
    refine ⟨g', ?_, hagrees, fun id => ?_⟩
    · unfold addEdges
      rw [hadd]
      exact hedges
    · have hone := liveRefs_addEdge codec id hadd
      have hedge := edgeRefs_encoded (s := s) (o := o) hcodec hblob id
      rw [hrefs id, hone, hedge, List.flatMap_cons, List.count_append, Nat.add_assoc]

theorem Counted.loadTriples (hcodec : EncodesEdges codec) (h : Counted codec core) (iris : IriStore)
    (ts : List Triple) : Counted codec (loadTriples codec core iris ts).1.1 := by
  unfold Lowering.loadTriples
  split
  · exact h
  · rename_i lowered hlowered
    obtain ⟨accum, haccum, hlowered⟩ := unbind hlowered
    obtain ⟨nodeProps, hmerge, hlowered⟩ := unbind hlowered
    obtain ⟨nodes, hnodes, hlowered⟩ := unbind hlowered
    obtain ⟨edges, hedges, hlowered⟩ := unbind hlowered
    cases hlowered
    have hempty : Gathered LoweredAccum.empty := ⟨fun e he => absurd he List.not_mem_nil, rfl⟩
    have hgathered := hempty.lowerAll haccum
    obtain ⟨hagrees, hprops, hpresent⟩ := addNodes nodes h.agrees
    have hrow : ∀ id, (accum.nodeProps.get id).isSome → id ∈ nodes.map Prod.fst := by
      intro id hid
      obtain ⟨properties, hget⟩ := Option.isSome_iff_exists.mp (isSome_mergeMultivalueCells hmerge hid)
      rw [ids_encodeLoweredNodes hnodes]
      exact List.mem_map.mpr ⟨(id, properties), Table.mem_rows.mpr hget, rfl⟩
    obtain ⟨g', hadd, hagrees', hrefs⟩ := addEdges_ok hcodec hedges hagrees fun e he =>
      ⟨hpresent _ (Or.inl (hrow _ (hgathered.ends e he).1)),
        hpresent _ (Or.inl (hrow _ (hgathered.ends e he).2))⟩
    unfold writeRows
    dsimp only
    rw [hadd]
    refine ⟨?_, fun id => ?_⟩
    · dsimp only
      rw [graph_markAll]
      exact hagrees'
    · dsimp only
      rw [schemaCount_markAll, graph_markAll, hrefs id, hgathered.refs]
      congr 1
      rw [liveRefs, hprops]
      exact h.counted id

/-! ### Removing a node -/

def SchemaEdge (codec : Codec Blob) (o : String) (blob : Blob) : Prop :=
  ∃ p, decodeEdgeRelationship codec blob = some p ∧
    (p ∈ tboxSchemaPredicates ∨ (p = rdfType ∧ ∃ iri ∈ tboxTypeObjects, o = iriId iri))

theorem pairRefs_eq_zero (h : ∀ blob ∈ blobs, ¬SchemaEdge codec o blob) :
    pairRefs codec id (toLex (s, o)) blobs = 0 := by
  by_contra hne
  obtain ⟨blob, hblob, hrefs⟩ := pairRefs_pos.mp (Nat.pos_of_ne_zero hne)
  obtain ⟨p, hp, hmem⟩ := edgeRefs_pos.mp hrefs
  refine h blob hblob ⟨p, hp, ?_⟩
  rcases mem_schemaIds.mp hmem with ⟨hschema, -⟩ | ⟨htype, -, hobject⟩
  · exact Or.inl hschema
  · exact Or.inr ⟨htype, hobject⟩

theorem total_dropPairs : ∀ {pairs : List (String × String)}
    {t : Table (String ×ₗ String) (List Blob)},
    (∀ pair ∈ pairs, pairRefs codec id (toLex pair) ((t.get (toLex pair)).getD []) = 0) →
      total (pairRefs codec id) (dropPairs pairs t) = total (pairRefs codec id) t
  | [], _, _ => rfl
  | pair :: pairs, t, h => by
    have hone : pairRefs codec id (toLex pair) ((t.get (toLex pair)).getD []) +
        total (pairRefs codec id) (t.remove (toLex pair)) = total (pairRefs codec id) t :=
      total_remove_getD pairRefs_nil
    rw [h pair List.mem_cons_self, Nat.zero_add] at hone
    rw [dropPairs, List.foldl_cons, ← dropPairs, total_dropPairs, hone]
    intro other hother
    rw [Table.get_remove]
    split_ifs
    · rfl
    · exact h other (.tail _ hother)

theorem Counted.removeNode (h : Counted codec core) {nodeId : String}
    (hkeeps : ∀ s o, s = nodeId ∨ o = nodeId → ∀ blob ∈ core.graph.blobs s o, ¬SchemaEdge codec o blob) :
    Counted codec (core.removeNode nodeId) := by
  refine ⟨h.agrees.removeNode nodeId, fun id => ?_⟩
  change schemaCount core id = liveRefs codec (Graph.Txn.removeNode core.graph nodeId) id
  rw [h.counted id]
  unfold Graph.Txn.removeNode
  split
  · rfl
  · rename_i idx hidx
    refine (total_dropPairs fun pair hpair => ?_).symm
    have hend := ((Graph.Slots.Topology.mem_incident (a := pair.1) (b := pair.2) hidx).mp hpair).2
    exact pairRefs_eq_zero (hkeeps pair.1 pair.2 hend)

/-! ### Runs -/

/-- A write of a graph core. -/
inductive Event (Blob : Type)
  | insertTriples (ts : List Triple)
  | removeTriples (ts : List Triple)
  | loadTriples (iris : IriStore) (ts : List Triple)
  | addNode (nodeId : String) (propertiesMsgpack : Blob)
  | removeNode (nodeId : String)

def step (codec : Codec Blob) (core : GraphCore Blob) : Event Blob → GraphCore Blob
  | .insertTriples ts => (insertTriples codec core 0 ts).1
  | .removeTriples ts => (removeTriples codec core 0 ts).1
  | .loadTriples iris ts => (loadTriples codec core iris ts).1.1
  | .addNode nodeId blob => core.addNode nodeId blob
  | .removeNode nodeId => core.removeNode nodeId

def KeepsSchemaEdges (codec : Codec Blob) (core : GraphCore Blob) : Event Blob → Prop
  | .removeNode nodeId =>
    ∀ s o, s = nodeId ∨ o = nodeId → ∀ blob ∈ core.graph.blobs s o, ¬SchemaEdge codec o blob
  | _ => True

theorem Counted.step (hcodec : EncodesEdges codec) (h : Counted codec core) : ∀ {event : Event Blob},
    KeepsSchemaEdges codec core event → Counted codec (step codec core event)
  | .insertTriples _, _ => h.insertTriples hcodec
  | .removeTriples _, _ => h.removeTriples
  | .loadTriples iris ts, _ => h.loadTriples hcodec iris ts
  | .addNode nodeId blob, _ => h.addNode nodeId blob
  | .removeNode _, hkeeps => h.removeNode hkeeps

/-- **Only live schema is schema.** After every run of triple and node writes in which no node is removed
while a schema edge stands at it, a node is schema just when a stored edge makes it schema. -/
theorem schema_nodes_live (codec : Codec Blob) (hcodec : EncodesEdges codec) (events : List (Event Blob))
    (hkeeps : Along (step codec) (KeepsSchemaEdges codec) GraphCore.new events) (id : String) :
    (run (step codec) GraphCore.new events).isSchemaNode id = true ↔
      NamedBySchema codec (run (step codec) GraphCore.new events).graph id := by
  have hcounted : Counted codec (run (step codec) GraphCore.new events) :=
    run_invariant_along (fun _ _ hevent h => h.step hcodec hevent) events _ hkeeps counted_new
  exact hcounted.isSchemaNode_iff

def subClassAxiom : Triple :=
  ⟨.namedNode "http://example.org/A", "http://www.w3.org/2000/01/rdf-schema#subClassOf",
    .namedNode "http://example.org/B"⟩

theorem plainCodec_encodesEdges : EncodesEdges plainCodec := by
  intro p blob hblob q _
  obtain rfl := Option.some.inj hblob
  simp [decodeEdgeRelationship, edgeObject, plainCodec, Json.asObject, lookupRow, Json.asStr, eq_comm]

def reloadedAxiom : List (Event Json) :=
  [.addNode "n" (.object []), .removeNode "n", .insertTriples [subClassAxiom],
    .loadTriples .default [subClassAxiom, subClassAxiom], .removeTriples [subClassAxiom]]

theorem schema_nodes_live_reloaded :
    Along (step plainCodec) (KeepsSchemaEdges plainCodec) GraphCore.new reloadedAxiom ∧
      ((run (step plainCodec) GraphCore.new reloadedAxiom).isSchemaNode "<http://example.org/A>" = true ↔
        NamedBySchema plainCodec (run (step plainCodec) GraphCore.new reloadedAxiom).graph
          "<http://example.org/A>") := by
  have halong : Along (step plainCodec) (KeepsSchemaEdges plainCodec) GraphCore.new reloadedAxiom := by
    refine ⟨trivial, ?_, trivial, trivial, trivial, trivial⟩
    intro s o _ blob hblob
    cases hblob
  exact ⟨halong, schema_nodes_live plainCodec plainCodec_encodesEdges reloadedAxiom halong _⟩

def removedClass : List (Event Json) :=
  [.insertTriples [subClassAxiom], .removeNode "<http://example.org/A>"]

theorem removed_class_stays_schema :
    ¬((run (step plainCodec) GraphCore.new removedClass).isSchemaNode "<http://example.org/A>" = true ↔
      NamedBySchema plainCodec (run (step plainCodec) GraphCore.new removedClass).graph
        "<http://example.org/A>") := by
  have hschema : (run (step plainCodec) GraphCore.new removedClass).isSchemaNode
      "<http://example.org/A>" = true := by
    decide +kernel
  have hrows : (run (step plainCodec) GraphCore.new removedClass).graph.edgeProperties.rows.length = 0 := by
    decide +kernel
  intro hiff
  obtain ⟨s, o, blob, hblob, -⟩ := hiff.mp hschema
  rw [GraphState.blobs, Table.get, List.length_eq_zero_iff.mp hrows] at hblob
  cases hblob

end Medulla.Rdf.SchemaRefs
