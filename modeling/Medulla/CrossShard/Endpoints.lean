import Medulla.CrossShard.Coordinator

/-! # The endpoints of staged edges

A participant votes for its slices when the endpoints of their edges are live in the slice's graph, or
inserted by some slice; a graph that is not registered is not looked at. Commit applies the methods of
the slices in order, each to its own graph, and an edge needs both endpoints there when its turn
comes.

## Main results

- `endpoints_met_iff`: a vote for the slices keeps its word exactly when no edge leans on a removed
  node, on an insert of another graph or of a later method, or on a graph that is not registered. -/

namespace Medulla.CrossShard.Endpoints

open Library.OrderedTable Records

/-! ### The vote -/

/-- The methods a slice may stage, those that touch neither nodes nor edges as one kind. -/
inductive Method (β ω : Type)
  | addNode (nodeId : String) (properties : β)
  | removeNode (nodeId : String)
  | addEdge (sourceId targetId : String) (properties : β)
  | other (op : ω)

/-- The registered graphs with the properties of their nodes. -/
abbrev Registry (β : Type) := Table String (Table String β)

variable {β ω : Type}

/-- The method inserts the node. -/
def insertsNode (nodeId : String) : Method β ω → Bool
  | .addNode nid _ => nid = nodeId
  | _ => false

/-- Some slice inserts the node, whatever the slice's graph. -/
def sliceInsertsNode (slices : List (GraphSlice (Method β ω))) (nodeId : String) : Bool :=
  slices.any fun s => s.methods.any (insertsNode nodeId)

/-- What an endpoint has to be: live, or inserted by some slice. -/
def endpointIsLive (core : Table String β) (slices : List (GraphSlice (Method β ω)))
    (nodeId : String) : Bool :=
  !((core.get nodeId).isNone && !sliceInsertsNode slices nodeId)

/-- The check of one method: only edges are looked at. -/
def edgeEndpointsAreLive (core : Table String β) (slices : List (GraphSlice (Method β ω))) :
    Method β ω → Bool
  | .addEdge sourceId targetId _ =>
    endpointIsLive core slices sourceId && endpointIsLive core slices targetId
  | _ => true

/-- The check of one slice against its graph. -/
def sliceEdgeEndpointsAreLive (core : Table String β) (slice : GraphSlice (Method β ω))
    (slices : List (GraphSlice (Method β ω))) : Bool :=
  slice.methods.all (edgeEndpointsAreLive core slices)

/-- A slice of a graph that is not registered passes unseen. -/
def sliceIsValid (registry : Registry β) (slice : GraphSlice (Method β ω))
    (slices : List (GraphSlice (Method β ω))) : Bool :=
  match registry.get slice.graphName with
  | some core => sliceEdgeEndpointsAreLive core slice slices
  | none => true

/-- **The vote** of a participant for its slices. -/
def validateSlices (registry : Registry β) (slices : List (GraphSlice (Method β ω))) : Bool :=
  slices.all fun slice => sliceIsValid registry slice slices

/-! ### The application -/

/-- The methods of the slices in order, each with its graph. -/
def staged (slices : List (GraphSlice (Method β ω))) : List (String × Method β ω) :=
  slices.flatMap fun slice => slice.methods.map fun m => (slice.graphName, m)

/-- The nodes of a graph, none when it is not registered. -/
def nodesOf (registry : Registry β) (graph : String) : Table String β :=
  (registry.get graph).getD .empty

/-- The node is in the graph. -/
def present (registry : Registry β) (graph nodeId : String) : Bool :=
  ((nodesOf registry graph).get nodeId).isSome

/-- Apply one method to its graph, which is made when it is not there. -/
def applyMethod (registry : Registry β) : String × Method β ω → Registry β
  | (graph, .addNode nodeId properties) =>
    registry.insert graph ((nodesOf registry graph).insert nodeId properties)
  | (graph, .removeNode nodeId) => registry.insert graph ((nodesOf registry graph).remove nodeId)
  | (_, .addEdge _ _ _) | (_, .other _) => registry

/-- An edge has both endpoints in its graph. -/
def endpointsPresent (registry : Registry β) : String × Method β ω → Prop
  | (graph, .addEdge sourceId targetId _) =>
    present registry graph sourceId = true ∧ present registry graph targetId = true
  | _ => True

/-- Every edge finds its endpoints when its turn comes. -/
def EndpointsMet : Registry β → List (String × Method β ω) → Prop
  | _, [] => True
  | registry, op :: ops => endpointsPresent registry op ∧ EndpointsMet (applyMethod registry op) ops

/-! ### What the slices lean on -/

/-- What a method does to a node: insert it, remove it, or leave it. -/
def touch (nodeId : String) : Method β ω → Option Bool
  | .addNode nid _ => if nid = nodeId then some true else none
  | .removeNode nid => if nid = nodeId then some false else none
  | .addEdge _ _ _ | .other _ => none

/-- What a staged method does to a node of one graph. -/
def touchIn (graph nodeId : String) (op : String × Method β ω) : Option Bool :=
  if op.1 = graph then touch nodeId op.2 else none

/-- The last thing that methods do to a node of one graph, if any of them touches it. -/
def lastTouch (graph nodeId : String) (ops : List (String × Method β ω)) : Option Bool :=
  (ops.filterMap (touchIn graph nodeId)).getLast?

/-- An endpoint **leans on its own graph**: the last earlier method there that touches it inserts it,
or none touches it, the graph is registered and no insert had to stand in for a live node. -/
def LeansOnOwnGraph (registry : Registry β) (slices : List (GraphSlice (Method β ω)))
    (earlier : List (String × Method β ω)) (graph nodeId : String) : Prop :=
  match lastTouch graph nodeId earlier with
  | some inserted => inserted = true
  | none => ∃ core, registry.get graph = some core ∧
      (sliceInsertsNode slices nodeId = true → (core.get nodeId).isSome = true)

section
variable {registry : Registry β} {graph nodeId : String} {op : String × Method β ω}
  {slices : List (GraphSlice (Method β ω))} {core : Table String β}

theorem nodesOf_insert {g : String} {nodes : Table String β} :
    nodesOf (registry.insert g nodes) graph = if graph = g then nodes else nodesOf registry graph := by
  unfold nodesOf
  rw [Table.get_insert]
  by_cases h : graph = g
  · simp [h]
  · simp [h]

/-- **One method**: a node of its graph is there afterwards as the method says, every other one as
before. -/
theorem present_applyMethod : present (applyMethod registry op) graph nodeId =
    (touchIn graph nodeId op).getD (present registry graph nodeId) := by
  obtain ⟨g, m⟩ := op
  unfold applyMethod present touchIn
  cases m with
  | addNode n properties =>
    simp only [nodesOf_insert]
    by_cases hg : g = graph
    · subst hg
      rw [if_pos rfl, if_pos rfl, Table.get_insert]
      by_cases hn : n = nodeId
      · simp [touch, hn]
      · simp [touch, hn, Ne.symm hn]
    · simp [hg, Ne.symm hg]
  | removeNode n =>
    simp only [nodesOf_insert]
    by_cases hg : g = graph
    · subst hg
      rw [if_pos rfl, if_pos rfl, Table.get_remove]
      by_cases hn : n = nodeId
      · simp [touch, hn]
      · simp [touch, hn, Ne.symm hn]
    · simp [hg, Ne.symm hg]
  | addEdge s t properties => simp [touch]
  | other o => simp [touch]

theorem lastTouch_cons {ops : List (String × Method β ω)} :
    lastTouch graph nodeId (op :: ops) =
      (lastTouch graph nodeId ops).or (touchIn graph nodeId op) := by
  unfold lastTouch
  cases htouch : touchIn graph nodeId op with
  | none => rw [List.filterMap_cons_none htouch, Option.or_none]
  | some inserted =>
    rw [List.filterMap_cons_some htouch, List.getLast?_cons]
    cases (ops.filterMap (touchIn graph nodeId)).getLast? with
    | none => rfl
    | some last => rfl

/-- **After any methods** the last one that touches the node decides. -/
theorem present_foldl : ∀ {ops : List (String × Method β ω)} {registry : Registry β},
    present (ops.foldl applyMethod registry) graph nodeId =
      (lastTouch graph nodeId ops).getD (present registry graph nodeId)
  | [], registry => rfl
  | op :: ops, registry => by
    rw [List.foldl_cons, present_foldl, present_applyMethod, lastTouch_cons]
    cases lastTouch graph nodeId ops with
    | none => rfl
    | some last => rfl

theorem endpointsMet_iff : ∀ {ops : List (String × Method β ω)} {registry : Registry β},
    EndpointsMet registry ops ↔ ∀ earlier op later, ops = earlier ++ op :: later →
      endpointsPresent (earlier.foldl applyMethod registry) op
  | [], registry => by simp [EndpointsMet]
  | op :: ops, registry => by
    unfold EndpointsMet
    rw [endpointsMet_iff]
    constructor
    · rintro ⟨hop, hops⟩ earlier x later heq
      cases earlier with
      | nil =>
        obtain ⟨rfl, -⟩ := List.cons.inj heq
        exact hop
      | cons y earlier =>
        obtain ⟨rfl, hrest⟩ := List.cons.inj heq
        exact hops earlier x later hrest
    · intro h
      refine ⟨h [] op ops rfl, fun earlier x later heq => ?_⟩
      exact h (op :: earlier) x later (by rw [heq]; rfl)

/-! ### What the vote says -/

/-- **A vote for the slices** says of an edge in a registered graph that each endpoint is live there or
inserted by some slice. -/
theorem endpointIsLive_of_vote {slice : GraphSlice (Method β ω)} {s t : String} {properties : β}
    (h : validateSlices registry slices = true) (hslice : slice ∈ slices)
    (hget : registry.get slice.graphName = some core)
    (hedge : Method.addEdge s t properties ∈ slice.methods) :
    endpointIsLive core slices s = true ∧ endpointIsLive core slices t = true := by
  have hvalid : sliceIsValid registry slice slices = true := List.all_eq_true.mp h slice hslice
  unfold sliceIsValid at hvalid
  rw [hget] at hvalid
  have hlive := List.all_eq_true.mp hvalid _ hedge
  exact Bool.and_eq_true_iff.mp hlive

theorem mem_staged : op ∈ staged slices ↔
    ∃ slice ∈ slices, slice.graphName = op.1 ∧ op.2 ∈ slice.methods := by
  obtain ⟨g, m⟩ := op
  unfold staged
  simp only [List.mem_flatMap, List.mem_map, Prod.mk.injEq]
  constructor
  · rintro ⟨slice, hslice, m, hm, rfl, rfl⟩
    exact ⟨slice, hslice, rfl, hm⟩
  · rintro ⟨slice, hslice, rfl, hm⟩
    exact ⟨slice, hslice, m, hm, rfl, rfl⟩

/-- An endpoint that the vote has seen is there at its turn exactly when it leans on its own graph. -/
theorem present_iff_leans {earlier : List (String × Method β ω)}
    (hlive : ∀ core, registry.get graph = some core → endpointIsLive core slices nodeId = true) :
    present (earlier.foldl applyMethod registry) graph nodeId = true ↔
      LeansOnOwnGraph registry slices earlier graph nodeId := by
  rw [present_foldl]
  unfold LeansOnOwnGraph
  cases lastTouch graph nodeId earlier with
  | some inserted => rfl
  | none =>
    simp only [Option.getD_none, present, nodesOf]
    cases hget : registry.get graph with
    | none => simp
    | some core =>
      -- a node that no slice inserts was found live by the vote
      have hseen := hlive core hget
      unfold endpointIsLive at hseen
      cases hcore : core.get nodeId with
      | none => simp_all
      | some properties => simp [hcore]

end

/-- **When a vote for the slices keeps its word**: every edge finds its endpoints at its turn exactly
when each of them leans on the edge's own graph. -/
theorem endpoints_met_iff (registry : Registry β) (slices : List (GraphSlice (Method β ω)))
    (hvote : validateSlices registry slices = true) :
    EndpointsMet registry (staged slices) ↔
      ∀ earlier g s t properties later,
        staged slices = earlier ++ (g, .addEdge s t properties) :: later →
          LeansOnOwnGraph registry slices earlier g s ∧
            LeansOnOwnGraph registry slices earlier g t := by
  have hedge : ∀ earlier g s t properties later,
      staged slices = earlier ++ (g, .addEdge s t properties) :: later →
        (endpointsPresent (earlier.foldl applyMethod registry)
            (g, (.addEdge s t properties : Method β ω)) ↔
          LeansOnOwnGraph registry slices earlier g s ∧
            LeansOnOwnGraph registry slices earlier g t) := by
    intro earlier g s t properties later heq
    have hmem : (g, Method.addEdge s t properties) ∈ staged slices := by simp [heq]
    obtain ⟨slice, hslice, rfl, hmethod⟩ := mem_staged.mp hmem
    exact and_congr
      (present_iff_leans fun core hget => (endpointIsLive_of_vote hvote hslice hget hmethod).1)
      (present_iff_leans fun core hget => (endpointIsLive_of_vote hvote hslice hget hmethod).2)
  rw [endpointsMet_iff]
  constructor
  · intro h earlier g s t properties later heq
    exact (hedge earlier g s t properties later heq).mp (h earlier _ later heq)
  · intro h earlier op later heq
    obtain ⟨g, m⟩ := op
    cases m with
    | addEdge s t properties =>
      exact (hedge earlier g s t properties later heq).mpr (h earlier g s t properties later heq)
    | addNode n properties => trivial
    | removeNode n => trivial
    | other o => trivial

/-- A slice of one graph with its methods. -/
def sliceOf (graph : String) (methods : List (Method Unit Unit)) : GraphSlice (Method Unit Unit) :=
  ⟨graph, graph, methods, 0, none⟩

/-- One registered graph with one node. -/
def oneNode : Registry Unit := Table.empty.insert "g" (Table.empty.insert "a" ())

/-- An edge to a node that its own slice inserts before it, after a removal. -/
def insertedEdge : List (GraphSlice (Method Unit Unit)) :=
  [sliceOf "g" [.removeNode "b", .addNode "b" (), .addEdge "a" "b" ()], sliceOf "h" [.addNode "c" ()]]

/-- The vote for an edge whose endpoint its own slice inserts keeps its word. -/
theorem insertedEdge_met : validateSlices oneNode insertedEdge = true ∧
    EndpointsMet oneNode (staged insertedEdge) := by
  have hvote : validateSlices oneNode insertedEdge = true := by decide +kernel
  refine ⟨hvote, (endpoints_met_iff oneNode insertedEdge hvote).mpr ?_⟩
  intro earlier g s t properties later heq
  -- the only edge is the third method
  match earlier, heq with
  | [_, _], heq =>
    obtain ⟨rfl, rfl, ⟨rfl, rfl, rfl, rfl⟩, -⟩ := by simpa [staged, insertedEdge, sliceOf] using heq
    exact ⟨⟨_, rfl, fun _ => by decide +kernel⟩, rfl⟩
  | [], heq => simp [staged, insertedEdge, sliceOf] at heq
  | [_], heq => simp [staged, insertedEdge, sliceOf] at heq
  | [_, _, _], heq => simp [staged, insertedEdge, sliceOf] at heq
  | _ :: _ :: _ :: _ :: _, heq => simp [staged, insertedEdge, sliceOf] at heq

/-- An edge whose target is inserted in another graph only. -/
def crossGraphEdge : List (GraphSlice (Method Unit Unit)) :=
  [sliceOf "g" [.addEdge "a" "b" ()], sliceOf "h" [.addNode "b" ()]]

/-- **A vote for an edge whose target is inserted in another graph.** -/
theorem crossGraphEdge_voted :
    ¬ ∀ (registry : Registry Unit) (slices : List (GraphSlice (Method Unit Unit))),
      validateSlices registry slices = true → EndpointsMet registry (staged slices) := by
  intro h
  have hmet := h oneNode crossGraphEdge (by decide +kernel)
  have htarget : present oneNode "g" "b" = true := hmet.1.2
  exact absurd htarget (by decide +kernel)

end Medulla.CrossShard.Endpoints
