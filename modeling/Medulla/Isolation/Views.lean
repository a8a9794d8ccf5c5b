import Medulla.Graph.Slots
import Medulla.Isolation.Rows
import Mathlib.Data.Prod.Lex

/-! # Filtered views

A view is a snapshot of a graph with the decoded visibility of its rows. Filtering it for an agent
removes the nodes the agent may not see, from the node map, the topology, the properties and the edge
properties; the visibility index stays as it was.

* the result: `filtered_views_same_iff`. -/

namespace Medulla.Isolation.Views

open Library.OrderedTable Resource.Extension Graph.Slots Rows

variable {Blob : Type} {id : String}

structure GraphView (Blob : Type) where
  topo : Topology
  nodeProperties : Table String Blob
  edgeProperties : Table (String ×ₗ String) (List Blob)
  schemaNodeIds : List String
  visibilityIndex : Table String RowVisibility
  propertied : ∀ id, (nodeProperties.get id).isSome → (topo.nodeMap.get id).isSome
  endpoints : ∀ pair, (edgeProperties.get pair).isSome →
    (topo.nodeMap.get (ofLex pair).1).isSome ∧ (topo.nodeMap.get (ofLex pair).2).isSome

def visibilityOf (decode : Blob → Option Fields) (view : GraphView Blob) (id : String) : RowVisibility :=
  let visibility := ((view.visibilityIndex.get id).or
    ((view.nodeProperties.get id).map (rowVisibility decode))).getD .defaultPublic
  { visibility with schema := view.schemaNodeIds.contains id }

def canSeeNode (layer : IsolationLayer) (decode : Blob → Option Fields) (agentId : String)
    (view : GraphView Blob) (id : String) : Bool :=
  layer.canSeeRow agentId (visibilityOf decode view id)

def hiddenIds (layer : IsolationLayer) (decode : Blob → Option Fields) (agentId : String)
    (view : GraphView Blob) : List String :=
  (view.topo.nodeMap.rows.map Prod.fst).filter fun id => !canSeeNode layer decode agentId view id

def removeNodes (hidden : List String) (topo : Topology) : Topology := hidden.foldl Topology.removeNode topo

def removeRows (hidden : List String) (rows : Table String Blob) : Table String Blob :=
  hidden.foldl Table.remove rows

theorem nodeMap_removeNodes {a : String} : ∀ {hidden : List String} {topo : Topology},
    (removeNodes hidden topo).nodeMap.get a = if a ∈ hidden then none else topo.nodeMap.get a
  | [], topo => rfl
  | id :: hidden, topo => by
    rw [removeNodes, List.foldl_cons, ← removeNodes, nodeMap_removeNodes, Topology.nodeMap_removeNode]
    by_cases ha : a = id <;> by_cases hh : a ∈ hidden <;> simp [ha]

theorem get_removeRows {a : String} : ∀ {hidden : List String} {rows : Table String Blob},
    (removeRows hidden rows).get a = if a ∈ hidden then none else rows.get a
  | [], rows => rfl
  | id :: hidden, rows => by
    rw [removeRows, List.foldl_cons, ← removeRows, get_removeRows, Table.get_remove]
    by_cases ha : a = id <;> by_cases hh : a ∈ hidden <;> simp [ha]

def filterView (layer : IsolationLayer) (decode : Blob → Option Fields) (agentId : String)
    (view : GraphView Blob) : GraphView Blob :=
  let hidden := hiddenIds layer decode agentId view
  { view with
    topo := removeNodes hidden view.topo
    nodeProperties := removeRows hidden view.nodeProperties
    edgeProperties := view.edgeProperties.filter fun pair _ =>
      !hidden.contains (ofLex pair).1 && !hidden.contains (ofLex pair).2
    propertied := fun id h => by
      rw [get_removeRows] at h
      rw [nodeMap_removeNodes]
      split_ifs at h ⊢ with hid
      · cases h
      · exact view.propertied id h
    endpoints := fun pair h => by
      rw [Table.get_filter] at h
      cases hget : view.edgeProperties.get pair with
      | none =>
        rw [hget] at h
        cases h
      | some blobs =>
        rw [hget, Option.filter_some] at h
        have hends := view.endpoints pair (by rw [hget]; rfl)
        split_ifs at h with hkeep
        · simp only [Bool.and_eq_true, Bool.not_eq_true', List.contains_eq_mem,
            decide_eq_false_iff_not] at hkeep
          rw [nodeMap_removeNodes, nodeMap_removeNodes, if_neg hkeep.1, if_neg hkeep.2]
          exact hends
        · cases h }

/-! ### Edges by their ends -/

def endsOf (topo : Topology) (e : ℕ × ℕ) : Option (String × String) :=
  match topo.graph.weights.get e.1, topo.graph.weights.get e.2 with
  | some a, some b => some (a, b)
  | _, _ => none

def edgeEnds (topo : Topology) : List (String × String) := topo.graph.edges.filterMap (endsOf topo)

def slotsOf (topo : Topology) (ends : String × String) : Option (ℕ × ℕ) :=
  match topo.nodeMap.get ends.1, topo.nodeMap.get ends.2 with
  | some i, some j => some (i, j)
  | _, _ => none

theorem endsOf_edge {topo : Topology} {e : ℕ × ℕ} (he : e ∈ topo.graph.edges) :
    ∃ a b, endsOf topo e = some (a, b) ∧ topo.nodeMap.get a = some e.1 ∧ topo.nodeMap.get b = some e.2 := by
  obtain ⟨ha, hb⟩ := topo.graph.joined e he
  obtain ⟨a, ha⟩ := Option.isSome_iff_exists.mp ha
  obtain ⟨b, hb⟩ := Option.isSome_iff_exists.mp hb
  refine ⟨a, b, ?_, (topo.wired a e.1).mpr ha, (topo.wired b e.2).mpr hb⟩
  rw [endsOf, ha, hb]

theorem edges_eq (topo : Topology) : topo.graph.edges = (edgeEnds topo).filterMap (slotsOf topo) := by
  have hsome : ∀ e ∈ topo.graph.edges, (endsOf topo e).bind (slotsOf topo) = some e := by
    intro e he
    obtain ⟨a, b, hends, ha, hb⟩ := endsOf_edge he
    rw [hends, Option.bind_some, slotsOf, ha, hb]
  rw [edgeEnds, List.filterMap_filterMap, List.filterMap_congr hsome, List.filterMap_some]

theorem edgeEnds_removeNode (topo : Topology) (id : String) : edgeEnds (topo.removeNode id) =
    (edgeEnds topo).filter fun ends => ends.1 ≠ id ∧ ends.2 ≠ id := by
  rw [edgeEnds, edgeEnds, List.filter_filterMap]
  unfold Topology.removeNode
  split
  · rename_i hnone
    refine List.filterMap_congr fun e he => ?_
    obtain ⟨a, b, hends, ha, hb⟩ := endsOf_edge he
    have hane : a ≠ id := fun heq => by rw [heq, hnone] at ha; cases ha
    have hbne : b ≠ id := fun heq => by rw [heq, hnone] at hb; cases hb
    rw [hends, Option.filter_some, if_pos (by simp [hane, hbne])]
  · rename_i i hi
    change (topo.graph.edges.filter _).filterMap _ = _
    rw [List.filterMap_filter]
    refine List.filterMap_congr fun e he => ?_
    obtain ⟨a, b, hends, ha, hb⟩ := endsOf_edge he
    have hwa := (topo.wired a e.1).mp ha
    have hwb := (topo.wired b e.2).mp hb
    have haiff : e.1 = i ↔ a = id := by
      constructor
      · intro heq
        exact Topology.slot_injective (heq ▸ ha) hi
      · rintro rfl
        rw [ha] at hi
        exact Option.some.inj hi
    have hbiff : e.2 = i ↔ b = id := by
      constructor
      · intro heq
        exact Topology.slot_injective (heq ▸ hb) hi
      · rintro rfl
        rw [hb] at hi
        exact Option.some.inj hi
    rw [hends, Option.filter_some]
    simp only [ne_eq, haiff, hbiff]
    by_cases hkeep : ¬a = id ∧ ¬b = id
    · rw [if_pos (decide_eq_true hkeep), if_pos (decide_eq_true hkeep)]
      have hai : e.1 ≠ i := fun heq => hkeep.1 (haiff.mp heq)
      have hbi : e.2 ≠ i := fun heq => hkeep.2 (hbiff.mp heq)
      change (match (topo.graph.weights.remove i).get e.1, (topo.graph.weights.remove i).get e.2 with
        | some a, some b => some (a, b)
        | _, _ => none) = _
      rw [Table.get_remove_of_ne _ hai, Table.get_remove_of_ne _ hbi, hwa, hwb]
    · rw [if_neg (by simpa using hkeep), if_neg (by simpa using hkeep)]

theorem edgeEnds_removeNodes : ∀ {hidden : List String} {topo : Topology},
    edgeEnds (removeNodes hidden topo) =
      (edgeEnds topo).filter fun ends => ends.1 ∉ hidden ∧ ends.2 ∉ hidden
  | [], topo => by simp [removeNodes]
  | id :: hidden, topo => by
    rw [removeNodes, List.foldl_cons, ← removeNodes, edgeEnds_removeNodes, edgeEnds_removeNode,
      List.filter_filter]
    refine List.filter_congr fun ends _ => ?_
    simp only [List.mem_cons, not_or]
    rw [Bool.eq_iff_iff]
    simp only [Bool.and_eq_true, decide_eq_true_eq]
    tauto

/-! ### What an agent sees -/

def visible (layer : IsolationLayer) (decode : Blob → Option Fields) (agentId : String)
    (view : GraphView Blob) (id : String) : Bool :=
  (view.topo.nodeMap.get id).isSome && canSeeNode layer decode agentId view id

variable {layer : IsolationLayer} {decode : Blob → Option Fields} {agentId : String} {v w : GraphView Blob}

theorem mem_hiddenIds : id ∈ hiddenIds layer decode agentId v ↔
    (v.topo.nodeMap.get id).isSome = true ∧ visible layer decode agentId v id = false := by
  have hkeys : id ∈ v.topo.nodeMap.rows.map Prod.fst ↔ (v.topo.nodeMap.get id).isSome = true := by
    constructor
    · intro hmem
      obtain ⟨⟨key, i⟩, hrow, rfl⟩ := List.mem_map.mp hmem
      rw [Table.mem_rows.mp hrow]
      rfl
    · intro hsome
      obtain ⟨i, hi⟩ := Option.isSome_iff_exists.mp hsome
      exact List.mem_map.mpr ⟨(id, i), Table.mem_rows.mpr hi, rfl⟩
  rw [hiddenIds, List.mem_filter, hkeys]
  refine and_congr_right fun hsome => ?_
  rw [visible, hsome, Bool.true_and, Bool.not_eq_true']

theorem not_hidden_of_visible (h : visible layer decode agentId v id = true) :
    id ∉ hiddenIds layer decode agentId v := by
  intro hmem
  rw [(mem_hiddenIds.mp hmem).2] at h
  cases h

theorem hidden_of_not_visible (h : visible layer decode agentId v id = false)
    (hnode : (v.topo.nodeMap.get id).isSome = true) : id ∈ hiddenIds layer decode agentId v :=
  mem_hiddenIds.mpr ⟨hnode, h⟩

theorem nodeMap_filterView : (filterView layer decode agentId v).topo.nodeMap.get id =
    if visible layer decode agentId v id then v.topo.nodeMap.get id else none := by
  change (removeNodes (hiddenIds layer decode agentId v) v.topo).nodeMap.get id = _
  rw [nodeMap_removeNodes]
  cases hvisible : visible layer decode agentId v id with
  | true => rw [if_neg (not_hidden_of_visible hvisible), if_pos rfl]
  | false =>
    rw [if_neg Bool.false_ne_true]
    split_ifs with hmem
    · rfl
    · cases hnode : v.topo.nodeMap.get id with
      | none => rfl
      | some i => exact absurd (hidden_of_not_visible hvisible (by rw [hnode]; rfl)) hmem

theorem nodeProperties_filterView : (filterView layer decode agentId v).nodeProperties.get id =
    if visible layer decode agentId v id then v.nodeProperties.get id else none := by
  change (removeRows (hiddenIds layer decode agentId v) v.nodeProperties).get id = _
  rw [get_removeRows]
  cases hvisible : visible layer decode agentId v id with
  | true => rw [if_neg (not_hidden_of_visible hvisible), if_pos rfl]
  | false =>
    rw [if_neg Bool.false_ne_true]
    split_ifs with hmem
    · rfl
    · cases hrow : v.nodeProperties.get id with
      | none => rfl
      | some blob =>
        exact absurd (hidden_of_not_visible hvisible (v.propertied id (by rw [hrow]; rfl))) hmem

theorem edgeProperties_filterView {pair : String ×ₗ String} :
    (filterView layer decode agentId v).edgeProperties.get pair =
      if visible layer decode agentId v (ofLex pair).1 && visible layer decode agentId v (ofLex pair).2 then
        v.edgeProperties.get pair
      else none := by
  change (v.edgeProperties.filter _).get pair = _
  rw [Table.get_filter]
  cases hget : v.edgeProperties.get pair with
  | none => rw [Option.filter_none, ite_self]
  | some blobs =>
    have hends := v.endpoints pair (by rw [hget]; rfl)
    have hiff : ∀ id, (v.topo.nodeMap.get id).isSome = true →
        (!(hiddenIds layer decode agentId v).contains id) = visible layer decode agentId v id := by
      intro id hnode
      simp [mem_hiddenIds, hnode]
    rw [Option.filter_some, hiff _ hends.1, hiff _ hends.2]

theorem edgeEnds_filterView : edgeEnds (filterView layer decode agentId v).topo =
    (edgeEnds v.topo).filter fun ends =>
      visible layer decode agentId v ends.1 && visible layer decode agentId v ends.2 := by
  change edgeEnds (removeNodes (hiddenIds layer decode agentId v) v.topo) = _
  rw [edgeEnds_removeNodes]
  refine List.filter_congr fun ends hmem => ?_
  obtain ⟨e, he, hends⟩ := List.mem_filterMap.mp hmem
  obtain ⟨a, b, hends', ha, hb⟩ := endsOf_edge he
  obtain rfl : ends = (a, b) := Option.some.inj (hends.symm.trans hends')
  have hiff : ∀ id i, v.topo.nodeMap.get id = some i →
      (id ∉ hiddenIds layer decode agentId v ↔ visible layer decode agentId v id = true) := by
    intro id i hi
    simp [mem_hiddenIds, hi]
  simp [hiff a _ ha, hiff b _ hb]

/-- **Two views agree on what an agent may see:** on the rows and properties of the nodes it may see, on the
edges between them with their properties, and on which ids are schema. -/
structure AgreeOnVisible (layer : IsolationLayer) (decode : Blob → Option Fields) (agentId : String)
    (v w : GraphView Blob) : Prop where
  rows : ∀ id, visible layer decode agentId v id = true ∨ visible layer decode agentId w id = true →
    (v.topo.nodeMap.get id).isSome = (w.topo.nodeMap.get id).isSome ∧
      v.nodeProperties.get id = w.nodeProperties.get id ∧
      v.visibilityIndex.get id = w.visibilityIndex.get id
  edges : ((edgeEnds v.topo).filter fun ends =>
      visible layer decode agentId v ends.1 && visible layer decode agentId v ends.2) =
    (edgeEnds w.topo).filter fun ends =>
      visible layer decode agentId w ends.1 && visible layer decode agentId w ends.2
  edgeProperties : ∀ pair, visible layer decode agentId v (ofLex pair).1 = true →
    visible layer decode agentId v (ofLex pair).2 = true →
    v.edgeProperties.get pair = w.edgeProperties.get pair
  schema : ∀ id, v.schemaNodeIds.contains id = w.schemaNodeIds.contains id

theorem AgreeOnVisible.visible_eq (h : AgreeOnVisible layer decode agentId v w) (id : String) :
    visible layer decode agentId v id = visible layer decode agentId w id := by
  have hsame : visible layer decode agentId v id = true ∨ visible layer decode agentId w id = true →
      visible layer decode agentId v id = visible layer decode agentId w id := by
    intro hor
    obtain ⟨hnode, hprops, hindex⟩ := h.rows id hor
    rw [visible, visible, hnode, canSeeNode, canSeeNode, visibilityOf, visibilityOf, hprops, hindex,
      h.schema id]
  cases hv : visible layer decode agentId v id with
  | true => exact hv.symm.trans (hsame (Or.inl hv))
  | false =>
    cases hw : visible layer decode agentId w id with
    | true =>
      rw [hsame (Or.inr hw), hw] at hv
      cases hv
    | false => rfl

/-- The components of a view that its reader compares. -/
structure SameView (v w : GraphView Blob) : Prop where
  nodeMap : v.topo.nodeMap = w.topo.nodeMap
  nodeProperties : v.nodeProperties = w.nodeProperties
  edges : v.topo.graph.edges = w.topo.graph.edges
  edgeProperties : v.edgeProperties = w.edgeProperties
  visibilityIndex : v.visibilityIndex = w.visibilityIndex

theorem AgreeOnVisible.properties (h : AgreeOnVisible layer decode agentId v w) :
    (filterView layer decode agentId v).nodeProperties = (filterView layer decode agentId w).nodeProperties ∧
      (filterView layer decode agentId v).edgeProperties =
        (filterView layer decode agentId w).edgeProperties := by
  constructor
  · refine Table.ext_get fun id => ?_
    rw [nodeProperties_filterView, nodeProperties_filterView, ← h.visible_eq id]
    split_ifs with hv
    · exact (h.rows id (Or.inl hv)).2.1
    · rfl
  · refine Table.ext_get fun pair => ?_
    rw [edgeProperties_filterView, edgeProperties_filterView, ← h.visible_eq, ← h.visible_eq]
    split_ifs with hv
    · rw [Bool.and_eq_true] at hv
      exact h.edgeProperties pair hv.1 hv.2
    · rfl

/-- **Filtered views are the same just when nothing hidden shows in them**: the visible nodes have the
same slots in both, and the visibility indexes agree on every other id. -/
theorem filtered_views_same_iff (layer : IsolationLayer) (decode : Blob → Option Fields) (agentId : String)
    (v w : GraphView Blob) (h : AgreeOnVisible layer decode agentId v w) :
    SameView (filterView layer decode agentId v) (filterView layer decode agentId w) ↔
      (∀ id, visible layer decode agentId v id = true → v.topo.nodeMap.get id = w.topo.nodeMap.get id) ∧
      ∀ id, visible layer decode agentId v id = false →
        v.visibilityIndex.get id = w.visibilityIndex.get id := by
  constructor
  · intro hsame
    refine ⟨fun id hid => ?_, fun id _ => ?_⟩
    · have hget : (filterView layer decode agentId v).topo.nodeMap.get id =
          (filterView layer decode agentId w).topo.nodeMap.get id := by rw [hsame.nodeMap]
      rw [nodeMap_filterView, nodeMap_filterView, ← h.visible_eq id, if_pos hid, if_pos hid] at hget
      exact hget
    · exact congrArg (fun t => Table.get t id) hsame.visibilityIndex
  · rintro ⟨hslots, hindex⟩
    have hnodeMap : (filterView layer decode agentId v).topo.nodeMap =
        (filterView layer decode agentId w).topo.nodeMap := by
      refine Table.ext_get fun id => ?_
      rw [nodeMap_filterView, nodeMap_filterView, ← h.visible_eq id]
      split_ifs with hv
      · exact hslots id hv
      · rfl
    refine ⟨hnodeMap, h.properties.1, ?_, h.properties.2, ?_⟩
    · rw [edges_eq, edges_eq (filterView layer decode agentId w).topo, edgeEnds_filterView, edgeEnds_filterView,
        h.edges]
      refine List.filterMap_congr fun ends _ => ?_
      rw [slotsOf, slotsOf, hnodeMap]
    · refine Table.ext_get fun id => ?_
      cases hv : visible layer decode agentId v id with
      | true => exact (h.rows id (Or.inl hv)).2.2
      | false => exact hindex id hv

/-! ### Two rows -/

def GraphView.empty : GraphView Blob where
  topo := Topology.empty
  nodeProperties := Table.empty
  edgeProperties := Table.empty
  schemaNodeIds := []
  visibilityIndex := Table.empty
  propertied _ h := by cases h
  endpoints _ h := by cases h

def GraphView.withRow (decode : Blob → Option Fields) (view : GraphView Blob) (id : String) (blob : Blob) :
    GraphView Blob where
  topo := view.topo.addNode id
  nodeProperties := view.nodeProperties.insert id blob
  edgeProperties := view.edgeProperties
  schemaNodeIds := view.schemaNodeIds
  visibilityIndex := view.visibilityIndex.insert id (rowVisibility decode blob)
  propertied id' h := by
    rw [Table.get_insert] at h
    refine Topology.isSome_addNode.mpr ?_
    split_ifs at h with heq
    · exact Or.inl heq
    · exact Or.inr (view.propertied id' h)
  endpoints pair h := by
    obtain ⟨ha, hb⟩ := view.endpoints pair h
    exact ⟨Topology.isSome_addNode.mpr (Or.inr ha), Topology.isSome_addNode.mpr (Or.inr hb)⟩

/-- An agent without a special role. -/
def alone : IsolationLayer := ⟨Table.empty⟩

def aliceView : GraphView Fields := GraphView.empty.withRow some "mine" [("_owner", .text "alice")]

def bobView (salary : ℕ) : GraphView Fields :=
  aliceView.withRow some "secret"
    [("_owner", .text "bob"), ("_visibility", .text "private"), ("salary", .unsigned salary)]

theorem visible_bobView {salary : ℕ} (h : visible alone some "alice" (bobView salary) id = true) :
    id = "mine" := by
  rw [visible, Bool.and_eq_true] at h
  rcases Topology.isSome_addNode.mp h.1 with rfl | hnode
  · have hhidden : canSeeNode alone some "alice" (bobView salary) "secret" = false := rfl
    cases h.2
  · rcases Topology.isSome_addNode.mp hnode with rfl | hnone
    · rfl
    · cases hnone

theorem visible_aliceView (h : visible alone some "alice" aliceView id = true) : id = "mine" := by
  rw [visible, Bool.and_eq_true] at h
  rcases Topology.isSome_addNode.mp h.1 with rfl | hnone
  · rfl
  · cases hnone

theorem bob_agrees (a b : ℕ) : AgreeOnVisible alone some "alice" (bobView a) (bobView b) := by
  refine ⟨fun id hor => ?_, rfl, fun _ _ _ => rfl, fun _ => rfl⟩
  obtain rfl : id = "mine" := hor.elim visible_bobView visible_bobView
  exact ⟨rfl, rfl, rfl⟩

theorem filtered_views_same_iff_bob : AgreeOnVisible alone some "alice" (bobView 1) (bobView 2) ∧
      SameView (filterView alone some "alice" (bobView 1)) (filterView alone some "alice" (bobView 2)) :=
  ⟨bob_agrees 1 2, (filtered_views_same_iff alone some "alice" (bobView 1) (bobView 2) (bob_agrees 1 2)).mpr
    ⟨fun _ _ => rfl, fun _ _ => rfl⟩⟩

theorem hidden_row_shows : AgreeOnVisible alone some "alice" (bobView 1) aliceView ∧
      ¬SameView (filterView alone some "alice" (bobView 1)) (filterView alone some "alice" aliceView) := by
  refine ⟨⟨fun id hor => ?_, rfl, fun _ _ _ => rfl, fun _ => rfl⟩, fun hsame => ?_⟩
  · obtain rfl : id = "mine" := hor.elim visible_bobView visible_aliceView
    exact ⟨rfl, rfl, rfl⟩
  · have hget : (bobView 1).visibilityIndex.get "secret" = aliceView.visibilityIndex.get "secret" :=
      congrArg (fun t => Table.get t "secret") hsame.visibilityIndex
    have hbob : ((bobView 1).visibilityIndex.get "secret").isSome = true := by decide +kernel
    have halice : (aliceView.visibilityIndex.get "secret").isSome = false := by decide +kernel
    rw [hget] at hbob
    cases hbob

end Medulla.Isolation.Views
