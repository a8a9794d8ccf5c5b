import Medulla.Graph.Txn

/-! # Topology and properties agree

The ids with a slot are the ids with an image, and each endpoint pair has as many blobs as edges. Every write
keeps this but one: `removeTypedEdge` drops blobs and leaves their edges in the topology, so it keeps the
agreement just when there is no blob for it to drop.

* every run: `topology_agrees_iff`. -/

namespace Medulla.Graph.Agreement

open Library.OrderedTable Library.Transaction Resource.Extension Slots Txn
open Index.Changes (Codec plainCodec)

variable {Blob : Type} {blob : Blob} {g' : GraphState Blob} {relationType : String}
  {sourceId targetId : String}

/-- **The topology and the properties agree.** -/
structure Agrees (g : GraphState Blob) : Prop where
  nodes : ∀ id, (g.topo.nodeMap.get id).isSome = (g.nodeProperties.get id).isSome
  counts : ∀ a b, g.topo.edgeCount a b = (g.blobs a b).length
  endpoints : ∀ a b, g.blobs a b ≠ [] →
    (g.topo.nodeMap.get a).isSome = true ∧ (g.topo.nodeMap.get b).isSome = true

variable {g : GraphState Blob} {codec : Codec Blob}

theorem Agrees.of_counts
    (nodes : ∀ id, (g.topo.nodeMap.get id).isSome = (g.nodeProperties.get id).isSome)
    (counts : ∀ a b, g.topo.edgeCount a b = (g.blobs a b).length) : Agrees g := by
  refine ⟨nodes, counts, fun a b hblobs => ?_⟩
  have hpos : 0 < g.topo.edgeCount a b := by
    rw [counts a b]
    exact List.length_pos_iff.mpr hblobs
  unfold Topology.edgeCount at hpos
  split at hpos
  · rename_i i j hi hj
    rw [hi, hj]
    exact ⟨rfl, rfl⟩
  · cases hpos

theorem agrees_new : Agrees (GraphState.new : GraphState Blob) :=
  Agrees.of_counts (fun _ => rfl) fun _ _ => rfl

/-! ### Blobs of a pair -/

theorem blobs_setBlobs {s t a b : String} {blobs : List Blob} :
    (g.setBlobs s t blobs).blobs a b = if a = s ∧ b = t then blobs else g.blobs a b := by
  unfold GraphState.blobs GraphState.setBlobs
  rw [Table.get_insert]
  by_cases h : a = s ∧ b = t
  · rw [if_pos h, if_pos (by rw [h.1, h.2]), Option.getD_some]
  · rw [if_neg h, if_neg]
    intro heq
    exact h (Prod.mk.inj (toLex.injective heq))

theorem get_dropPairs {a b : String} : ∀ {pairs : List (String × String)}
    {t : Table (String ×ₗ String) (List Blob)}, ((dropPairs pairs t).get (toLex (a, b))).getD [] =
      if (a, b) ∈ pairs then [] else (t.get (toLex (a, b))).getD []
  | [], t => by simp [dropPairs]
  | p :: pairs, t => by
    rw [dropPairs, List.foldl_cons, ← dropPairs, get_dropPairs, Table.get_remove]
    by_cases hp : (a, b) = p
    · simp [hp]
    · have hlex : ¬toLex (a, b) = toLex p := fun heq => hp (toLex.injective heq)
      simp [hp]

theorem Agrees.setBlobs (h : Agrees g) {s t : String} {blobs : List Blob}
    (hlength : blobs.length = (g.blobs s t).length) : Agrees (g.setBlobs s t blobs) := by
  refine Agrees.of_counts h.nodes fun a b => ?_
  rw [blobs_setBlobs]
  split
  · rename_i heq
    rw [hlength, heq.1, heq.2]
    exact h.counts s t
  · exact h.counts a b

/-! ### Nodes -/

theorem Agrees.addNode (h : Agrees g) (nodeId : String) (blob : Blob) :
    Agrees (addNode g nodeId blob) := by
  refine Agrees.of_counts (fun id => ?_) fun a b => ?_
  · have hnode := h.nodes id
    change ((g.topo.addNode nodeId).nodeMap.get id).isSome =
      ((g.nodeProperties.insert nodeId blob).get id).isSome
    rw [Bool.eq_iff_iff, Topology.isSome_addNode, Table.get_insert, hnode]
    by_cases hid : id = nodeId
    · simp [hid]
    · simp [hid]
  · exact Topology.edgeCount_addNode.trans (h.counts a b)

theorem Agrees.removeNode (h : Agrees g) (nodeId : String) : Agrees (removeNode g nodeId) := by
  unfold Txn.removeNode
  split
  · exact h
  · rename_i idx hidx
    refine Agrees.of_counts (fun id => ?_) fun a b => ?_
    · dsimp only
      rw [Topology.nodeMap_removeNode, Table.get_remove]
      split
      · rfl
      · exact h.nodes id
    · dsimp only
      rw [Topology.edgeCount_removeNode, GraphState.blobs]
      rw [get_dropPairs]
      have hmem := Topology.mem_incident (a := a) (b := b) hidx
      have hcount := h.counts a b
      by_cases hor : a = nodeId ∨ b = nodeId
      · rw [if_pos hor]
        by_cases hin : (a, b) ∈ g.topo.incident idx
        · rw [if_pos hin]
          rfl
        · rw [if_neg hin]
          have hzero : g.topo.edgeCount a b = 0 := by
            by_contra hne
            exact hin (hmem.mpr ⟨Nat.pos_of_ne_zero hne, hor⟩)
          rw [← hzero]
          exact hcount
      · rw [if_neg hor, if_neg fun hin => hor (hmem.mp hin).2]
        exact hcount

/-! ### Eviction -/

theorem foldl_evictNode : ∀ (selected : List (String × ℕ)) (g : GraphState Blob),
    (∀ a, (selected.foldl (fun g s => evictNode g s.1) g).topo.nodeMap.get a =
        if a ∈ selected.map Prod.fst then none else g.topo.nodeMap.get a) ∧
      (∀ a, (selected.foldl (fun g s => evictNode g s.1) g).nodeProperties.get a =
        if a ∈ selected.map Prod.fst then none else g.nodeProperties.get a) ∧
      (∀ a b, (selected.foldl (fun g s => evictNode g s.1) g).topo.edgeCount a b =
        if a ∈ selected.map Prod.fst ∨ b ∈ selected.map Prod.fst then 0 else g.topo.edgeCount a b) ∧
      (selected.foldl (fun g s => evictNode g s.1) g).edgeProperties = g.edgeProperties
  | [], g => by simp
  | s :: selected, g => by
    obtain ⟨hmap, hprops, hcount, hedges⟩ := foldl_evictNode selected (evictNode g s.1)
    rw [List.foldl_cons]
    refine ⟨fun a => ?_, fun a => ?_, fun a b => ?_, hedges⟩
    · have hone : (evictNode g s.1).topo.nodeMap.get a = if a = s.1 then none else g.topo.nodeMap.get a :=
        Topology.nodeMap_removeNode
      rw [hmap, hone]
      by_cases h1 : a = s.1 <;> by_cases h2 : a ∈ selected.map Prod.fst <;> simp [h2]
    · have hone : (evictNode g s.1).nodeProperties.get a = if a = s.1 then none else g.nodeProperties.get a :=
        Table.get_remove ..
      rw [hprops, hone]
      by_cases h1 : a = s.1 <;> by_cases h2 : a ∈ selected.map Prod.fst <;> simp [h2]
    · have hone : (evictNode g s.1).topo.edgeCount a b =
          if a = s.1 ∨ b = s.1 then 0 else g.topo.edgeCount a b := Topology.edgeCount_removeNode
      rw [hcount, hone, List.map_cons]
      by_cases h1 : a = s.1 ∨ b = s.1
      · rw [if_pos h1, ite_self, if_pos]
        rcases h1 with rfl | rfl
        · exact Or.inl (.head _)
        · exact Or.inr (.head _)
      · have hiff : (a ∈ s.1 :: selected.map Prod.fst ∨ b ∈ s.1 :: selected.map Prod.fst) ↔
            (a ∈ selected.map Prod.fst ∨ b ∈ selected.map Prod.fst) := by
          rw [not_or] at h1
          simp [h1.1, h1.2]
        rw [if_neg h1]
        simp only [hiff]

theorem mem_selectedNodes {nodeIds : List String} {s : String × ℕ} (h : s ∈ selectedNodes g nodeIds) :
    g.topo.nodeMap.get s.1 = some s.2 := by
  obtain ⟨nodeId, -, hmap⟩ := List.mem_filterMap.mp h
  obtain ⟨idx, hidx, rfl⟩ := Option.map_eq_some_iff.mp hmap
  exact hidx

theorem Agrees.evictResidentNodes (h : Agrees g) (nodeIds : List String) :
    Agrees (evictResidentNodes g nodeIds) := by
  unfold Txn.evictResidentNodes
  obtain ⟨hmap, hprops, hcount, hedges⟩ := foldl_evictNode (selectedNodes g nodeIds) g
  refine Agrees.of_counts (fun id => ?_) fun a b => ?_
  · dsimp only
    rw [hmap, hprops]
    split
    · rfl
    · exact h.nodes id
  · dsimp only
    rw [hcount, GraphState.blobs]
    rw [get_dropPairs, hedges]
    have hpair := h.counts a b
    by_cases hin : (a, b) ∈ (selectedNodes g nodeIds).flatMap fun s => g.topo.incident s.2
    · obtain ⟨s, hs, hincident⟩ := List.mem_flatMap.mp hin
      have hor := ((Topology.mem_incident (mem_selectedNodes hs)).mp hincident).2
      have hname : s.1 ∈ (selectedNodes g nodeIds).map Prod.fst := List.mem_map_of_mem hs
      rw [if_pos hin, if_pos (hor.imp (fun heq => heq ▸ hname) fun heq => heq ▸ hname)]
      rfl
    · rw [if_neg hin]
      split
      · rename_i hor
        have hzero : g.topo.edgeCount a b = 0 := by
          by_contra hne
          refine hin (List.mem_flatMap.mpr ?_)
          rcases hor with ha | hb
          · obtain ⟨s, hs, rfl⟩ := List.mem_map.mp ha
            exact ⟨s, hs, (Topology.mem_incident (mem_selectedNodes hs)).mpr
              ⟨Nat.pos_of_ne_zero hne, Or.inl rfl⟩⟩
          · obtain ⟨s, hs, rfl⟩ := List.mem_map.mp hb
            exact ⟨s, hs, (Topology.mem_incident (mem_selectedNodes hs)).mpr
              ⟨Nat.pos_of_ne_zero hne, Or.inr rfl⟩⟩
        rw [← hzero]
        exact hpair
      · exact hpair

/-! ### Edges -/

theorem addEdge_eq {s o : String} (h : addEdge g s o blob = .ok g') :
    g'.edgeProperties = (g.setBlobs s o (g.blobs s o ++ [blob])).edgeProperties ∧
      g'.topo.nodeMap = g.topo.nodeMap ∧ g'.nodeProperties = g.nodeProperties := by
  unfold addEdge at h
  split at h
  · cases h
  · split at h
    · cases h
    · cases h
      exact ⟨rfl, rfl, rfl⟩

theorem addEdge_ok {s o : String} (blob : Blob) (hs : (g.topo.nodeMap.get s).isSome)
    (ho : (g.topo.nodeMap.get o).isSome) : ∃ g', addEdge g s o blob = .ok g' := by
  unfold addEdge
  split
  · rename_i hnone
    rw [hnone] at hs
    cases hs
  · split
    · rename_i hnone
      rw [hnone] at ho
      cases ho
    · exact ⟨_, rfl⟩

theorem Agrees.addEdge (h : Agrees g)
    (hadd : addEdge g sourceId targetId blob = .ok g') : Agrees g' := by
  unfold Txn.addEdge at hadd
  split at hadd
  · cases hadd
  · rename_i sourceIdx hs
    split at hadd
    · cases hadd
    · rename_i targetIdx ht
      cases hadd
      refine Agrees.of_counts h.nodes fun a b => ?_
      rw [blobs_setBlobs]
      refine (Topology.edgeCount_addEdge hs ht).trans ?_
      rw [h.counts a b]
      by_cases heq : a = sourceId ∧ b = targetId
      · rw [if_pos heq, if_pos heq, List.length_append, heq.1, heq.2]
        rfl
      · rw [if_neg heq, if_neg heq]
        rfl

theorem length_overwriteFirst {reenc : Blob} : ∀ blobs : List Blob,
    (overwriteFirst codec relationType reenc blobs).length = blobs.length
  | [] => rfl
  | blob :: rest => by
    unfold overwriteFirst
    split
    · rfl
    · rw [List.length_cons, length_overwriteFirst rest, List.length_cons]

section
variable (h : Agrees g)
include h

theorem Agrees.addTypedEdge
    (hadd : addTypedEdge codec g sourceId targetId relationType blob = .ok g') : Agrees g' := by
  unfold Txn.addTypedEdge at hadd
  split at hadd
  · cases hadd
  · split at hadd
    · cases hadd
      exact h.setBlobs (length_overwriteFirst _)
    · exact h.addEdge hadd

theorem Agrees.removeEdge (sourceId targetId : String) :
    Agrees (removeEdge g sourceId targetId) := by
  unfold Txn.removeEdge
  split
  · rename_i srcIdx tgtIdx hs ht
    refine Agrees.of_counts h.nodes fun a b => ?_
    refine (Topology.edgeCount_removeEdges hs ht).trans ?_
    unfold GraphState.blobs
    rw [Table.get_remove]
    by_cases heq : a = sourceId ∧ b = targetId
    · rw [if_pos heq, if_pos (by rw [heq.1, heq.2])]
      rfl
    · rw [if_neg heq, if_neg fun hlex => heq (Prod.mk.inj (toLex.injective hlex))]
      exact h.counts a b
  · exact h

theorem Agrees.invalidateEdge (sourceId targetId relationship : String)
    (invalidAt txNow : ℕ) :
    Agrees (invalidateEdge codec g sourceId targetId relationship invalidAt txNow).1 := by
  unfold Txn.invalidateEdge
  split
  · exact h
  · rename_i blobs hblobs
    refine h.setBlobs ?_
    rw [List.length_map, GraphState.blobs, hblobs, Option.getD_some]

theorem Agrees.supersedeEdge {newSource newTarget : String} {prior : PriorEdge}
    (hsupersede : supersedeEdge codec g newSource newTarget blob prior = .ok g') : Agrees g' := by
  unfold Txn.supersedeEdge at hsupersede
  split at hsupersede
  · cases hsupersede
  · split at hsupersede
    · cases hsupersede
    · dsimp only at hsupersede
      split at hsupersede
      · cases hsupersede
      · exact (h.invalidateEdge prior.source prior.target prior.relationship prior.validAt
          prior.txNow).addEdge hsupersede

theorem Agrees.compareAndSetFields (nodeId : String) (conditions updates : Fields) :
    Agrees (compareAndSetFields codec g nodeId conditions updates).1 := by
  unfold Txn.compareAndSetFields
  split
  · rename_i reenc hreenc
    obtain ⟨image, himage, -⟩ := Option.bind_eq_some_iff.mp hreenc
    refine Agrees.of_counts (fun id => ?_) h.counts
    rw [Table.get_insert]
    split
    · rename_i hid
      rw [h.nodes id, hid, himage]
      rfl
    · exact h.nodes id
  · exact h

theorem Agrees.settled {result : Except String (GraphState Blob)}
    (hok : ∀ g', result = .ok g' → Agrees g') : Agrees (settled g result) := by
  cases result with
  | ok g' => exact hok g' rfl
  | error e => exact h

/-! ### Runs -/

end

def RemovesNoBlob (codec : Codec Blob) (g : GraphState Blob) : Op Blob → Prop
  | .removeTypedEdge sourceId targetId relationType =>
      ∀ blob ∈ g.blobs sourceId targetId, blobRelationType codec blob ≠ relationType
  | _ => True

theorem blobs_removeTypedEdge :
    (removeTypedEdge codec g sourceId targetId relationType).blobs sourceId targetId =
      (g.blobs sourceId targetId).filter fun blob => blobRelationType codec blob ≠ relationType := by
  unfold removeTypedEdge
  split
  · rename_i hnone
    rw [GraphState.blobs, hnone]
    rfl
  · rename_i blobs hblobs
    rw [blobs_setBlobs, if_pos ⟨rfl, rfl⟩, GraphState.blobs, hblobs, Option.getD_some]

theorem Agrees.step (h : Agrees g) : ∀ {op : Op Blob}, RemovesNoBlob codec g op →
    Agrees (step codec g op)
  | .addNode nodeId blob, _ => h.addNode nodeId blob
  | .removeNode nodeId, _ => h.removeNode nodeId
  | .evictResidentNodes nodeIds, _ => h.evictResidentNodes nodeIds
  | .addEdge _ _ _, _ => h.settled fun _ hok => h.addEdge hok
  | .addTypedEdge _ _ _ _, _ => h.settled fun _ hok => h.addTypedEdge hok
  | .removeEdge sourceId targetId, _ => h.removeEdge sourceId targetId
  | .removeTypedEdge sourceId targetId relationType, hnone => by
    change Agrees (removeTypedEdge codec g sourceId targetId relationType)
    have hkept : (g.blobs sourceId targetId).filter
        (fun blob => blobRelationType codec blob ≠ relationType) = g.blobs sourceId targetId :=
      List.filter_eq_self.mpr fun blob hblob => decide_eq_true (hnone blob hblob)
    unfold removeTypedEdge
    split
    · exact h
    · rename_i blobs hblobs
      refine h.setBlobs ?_
      rw [← hkept, GraphState.blobs, hblobs, Option.getD_some]
  | .invalidateEdge sourceId targetId relationship invalidAt txNow, _ =>
    h.invalidateEdge sourceId targetId relationship invalidAt txNow
  | .supersedeEdge _ _ _ _, _ => h.settled fun _ hok => h.supersedeEdge hok
  | .compareAndSetFields nodeId conditions updates, _ =>
    h.compareAndSetFields nodeId conditions updates

theorem Agrees.removesNoBlob (h : Agrees g) : ∀ {op : Op Blob}, Agrees (Txn.step codec g op) →
    RemovesNoBlob codec g op
  | .removeTypedEdge sourceId targetId relationType, hafter => by
    intro blob hblob heq
    have hcount := hafter.counts sourceId targetId
    have htopo : (removeTypedEdge codec g sourceId targetId relationType).topo = g.topo := by
      unfold removeTypedEdge
      split <;> rfl
    change (removeTypedEdge codec g sourceId targetId relationType).topo.edgeCount _ _ =
      ((removeTypedEdge codec g sourceId targetId relationType).blobs _ _).length at hcount
    rw [htopo, h.counts, blobs_removeTypedEdge] at hcount
    exact of_decide_eq_true (List.length_filter_eq_length_iff.mp hcount.symm blob hblob) heq
  | .addNode _ _, _ => trivial
  | .removeNode _, _ => trivial
  | .evictResidentNodes _, _ => trivial
  | .addEdge _ _ _, _ => trivial
  | .addTypedEdge _ _ _ _, _ => trivial
  | .removeEdge _ _, _ => trivial
  | .invalidateEdge _ _ _ _ _, _ => trivial
  | .supersedeEdge _ _ _ _, _ => trivial
  | .compareAndSetFields _ _ _, _ => trivial

theorem agrees_along : ∀ {ops : List (Op Blob)} {g : GraphState Blob}, Agrees g →
    ((∀ pre, pre <+: ops → Agrees (run (Txn.step codec) g pre)) ↔
      Along (Txn.step codec) (RemovesNoBlob codec) g ops)
  | [], g, h => by
    refine iff_of_true (fun pre hpre => ?_) trivial
    rw [List.prefix_nil.mp hpre]
    exact h
  | op :: ops, g, h => by
    constructor
    · intro hall
      have hstep : Agrees (Txn.step codec g op) := hall [op] ⟨ops, rfl⟩
      refine ⟨h.removesNoBlob hstep, (agrees_along hstep).mp fun pre hpre => ?_⟩
      exact hall (op :: pre) (List.cons_prefix_cons.mpr ⟨rfl, hpre⟩)
    · rintro ⟨hop, halong⟩ pre hpre
      rcases List.prefix_cons_iff.mp hpre with rfl | ⟨pre', rfl, hpre'⟩
      · exact h
      · exact (agrees_along (h.step hop)).mpr halong pre' hpre'

/-- **Topology and properties agree at every state of a run just when no `removeTypedEdge` of it finds a
blob of its relation type.** -/
theorem topology_agrees_iff (codec : Codec Blob) (ops : List (Op Blob)) :
    (∀ pre, pre <+: ops → Agrees (run (Txn.step codec) GraphState.new pre)) ↔
      Along (Txn.step codec) (RemovesNoBlob codec) GraphState.new ops :=
  agrees_along agrees_new

def removedTypedEdge : List (Op Json) :=
  [.addNode "a" (.object []), .addNode "b" (.object []), .addTypedEdge "a" "b" "KNOWS" (.object []),
    .removeTypedEdge "a" "b" "KNOWS"]

theorem removed_typed_edge_disagrees :
    ¬Agrees (run (Txn.step plainCodec) GraphState.new removedTypedEdge) := by
  intro h
  have hcount := h.counts "a" "b"
  have htopo : (run (Txn.step plainCodec) GraphState.new removedTypedEdge).topo.edgeCount "a" "b" = 1 := by
    decide +kernel
  have hblobs : ((run (Txn.step plainCodec) GraphState.new removedTypedEdge).blobs "a" "b").length = 0 := by
    decide +kernel
  rw [htopo, hblobs] at hcount
  cases hcount

end Medulla.Graph.Agreement
