import Medulla.Library.OrderedTable
import Mathlib.Data.List.Nodup
import Mathlib.Order.Nat

/-! # The topology of a graph

The topology is a directed multigraph whose nodes are slots: a removed node leaves its slot vacant,
and the last vacated slot is taken first. The node map sends each node id to its slot, and the slot
holds the id. -/

namespace Medulla.Graph.Slots

open Library.OrderedTable

/-! ### Slots and edges -/

/-- A `StableDiGraph` over node ids: the occupied slots, the edges, the vacated slots and the first slot
never used. -/
structure StableGraph where
  weights : Table ℕ String
  edges : List (ℕ × ℕ)
  free : List ℕ
  bound : ℕ
  vacant : ∀ i, i ∈ free ∨ bound ≤ i → weights.get i = none
  below : ∀ i ∈ free, i < bound
  distinct : free.Nodup
  joined : ∀ e ∈ edges, (weights.get e.1).isSome ∧ (weights.get e.2).isSome

namespace StableGraph

def empty : StableGraph where
  weights := Table.empty
  edges := []
  free := []
  bound := 0
  vacant _ _ := rfl
  below _ h := absurd h List.not_mem_nil
  distinct := List.nodup_nil
  joined _ h := absurd h List.not_mem_nil

def nextSlot (g : StableGraph) : ℕ := g.free.headD g.bound

theorem nextSlot_vacant (g : StableGraph) : g.weights.get g.nextSlot = none := by
  refine g.vacant _ ?_
  unfold nextSlot
  cases hfree : g.free with
  | nil => exact Or.inr le_rfl
  | cons i rest => exact Or.inl (.head _)

theorem isSome_insert_of_isSome {t : Table ℕ String} {i j : ℕ} {w : String}
    (h : (t.get i).isSome = true) : ((t.insert j w).get i).isSome = true := by
  rw [Table.get_insert]
  split
  · rfl
  · exact h

def addNode (g : StableGraph) (weight : String) : StableGraph where
  weights := g.weights.insert g.nextSlot weight
  edges := g.edges
  free := g.free.tail
  bound := if g.free.isEmpty then g.bound + 1 else g.bound
  vacant i hi := by
    have hne : i ≠ g.nextSlot ∧ (i ∈ g.free ∨ g.bound ≤ i) := by
      have hdistinct := g.distinct
      have hbelow := g.below
      unfold nextSlot
      cases hfree : g.free with
      | nil =>
        rw [hfree] at hi
        simp only [List.tail_nil, List.not_mem_nil, List.isEmpty_nil, if_true, false_or] at hi
        simp only [List.headD_nil, List.not_mem_nil, false_or]
        omega
      | cons j rest =>
        rw [hfree] at hi hdistinct hbelow
        simp only [List.tail_cons, List.isEmpty_cons, Bool.false_eq_true, if_false] at hi
        simp only [List.headD_cons]
        have hj := hbelow j (.head _)
        rcases hi with hi | hi
        · exact ⟨fun heq => (List.nodup_cons.mp hdistinct).1 (heq ▸ hi),
            Or.inl (.tail _ hi)⟩
        · exact ⟨by omega, Or.inr hi⟩
    rw [Table.get_insert_of_ne _ _ hne.1]
    exact g.vacant i hne.2
  below i hi := by
    have hmem : i ∈ g.free := List.mem_of_mem_tail hi
    have hlt := g.below i hmem
    split
    · omega
    · exact hlt
  distinct := g.distinct.tail
  joined e he := ⟨isSome_insert_of_isSome (g.joined e he).1, isSome_insert_of_isSome (g.joined e he).2⟩

def removeNode (g : StableGraph) (i : ℕ) (h : (g.weights.get i).isSome = true) : StableGraph where
  weights := g.weights.remove i
  edges := g.edges.filter fun e => e.1 ≠ i ∧ e.2 ≠ i
  free := i :: g.free
  bound := g.bound
  vacant j hj := by
    rw [Table.get_remove]
    split
    · rfl
    · rename_i hne
      refine g.vacant j (hj.imp_left fun hmem => ?_)
      exact (List.mem_cons.mp hmem).resolve_left hne
  below j hj := by
    rcases List.mem_cons.mp hj with rfl | hj
    · by_contra hle
      rw [g.vacant j (Or.inr (not_lt.mp hle))] at h
      cases h
    · exact g.below j hj
  distinct := by
    refine List.nodup_cons.mpr ⟨fun hmem => ?_, g.distinct⟩
    rw [g.vacant i (Or.inl hmem)] at h
    cases h
  joined e he := by
    obtain ⟨hmem, hne⟩ := List.mem_filter.mp he
    have hne' := of_decide_eq_true hne
    rw [Table.get_remove_of_ne _ hne'.1, Table.get_remove_of_ne _ hne'.2]
    exact g.joined e hmem

def addEdge (g : StableGraph) (i j : ℕ) (hi : (g.weights.get i).isSome = true)
    (hj : (g.weights.get j).isSome = true) : StableGraph where
  weights := g.weights
  edges := g.edges ++ [(i, j)]
  free := g.free
  bound := g.bound
  vacant := g.vacant
  below := g.below
  distinct := g.distinct
  joined e he := by
    rcases List.mem_append.mp he with he | he
    · exact g.joined e he
    · rw [List.mem_singleton.mp he]
      exact ⟨hi, hj⟩

def removeEdgesConnecting (g : StableGraph) (i j : ℕ) : StableGraph where
  weights := g.weights
  edges := g.edges.filter fun e => e ≠ (i, j)
  free := g.free
  bound := g.bound
  vacant := g.vacant
  below := g.below
  distinct := g.distinct
  joined e he := g.joined e (List.mem_filter.mp he).1

end StableGraph

/-! ### The node map -/

structure Topology where
  graph : StableGraph
  nodeMap : Table String ℕ
  wired : ∀ id i, nodeMap.get id = some i ↔ graph.weights.get i = some id

namespace Topology

def empty : Topology := ⟨StableGraph.empty, Table.empty, fun _ _ => by simp [StableGraph.empty]⟩

theorem occupied (t : Topology) {id : String} {i : ℕ} (h : t.nodeMap.get id = some i) :
    (t.graph.weights.get i).isSome = true := by
  rw [(t.wired id i).mp h]
  rfl

def addNode (t : Topology) (id : String) : Topology :=
  match h : t.nodeMap.get id with
  | some _ => t
  | none =>
    { graph := t.graph.addNode id
      nodeMap := t.nodeMap.insert id t.graph.nextSlot
      wired := fun id' i => by
        have hvacant := t.graph.nextSlot_vacant
        change (t.nodeMap.insert id t.graph.nextSlot).get id' = some i ↔
          (t.graph.weights.insert t.graph.nextSlot id).get i = some id'
        rw [Table.get_insert, Table.get_insert]
        by_cases hid : id' = id <;> by_cases hi : i = t.graph.nextSlot
        · rw [if_pos hid, if_pos hi, hid, hi]
          exact iff_of_true rfl rfl
        · rw [if_pos hid, if_neg hi, hid, ← t.wired, h]
          exact iff_of_false (fun heq => hi (Option.some.inj heq).symm) (by simp)
        · rw [if_neg hid, if_pos hi, hi, t.wired, hvacant]
          exact iff_of_false (by simp) fun heq => hid (Option.some.inj heq).symm
        · rw [if_neg hid, if_neg hi]
          exact t.wired id' i }

def removeNode (t : Topology) (id : String) : Topology :=
  match h : t.nodeMap.get id with
  | none => t
  | some i =>
    { graph := t.graph.removeNode i (t.occupied h)
      nodeMap := t.nodeMap.remove id
      wired := fun id' j => by
        change (t.nodeMap.remove id).get id' = some j ↔ (t.graph.weights.remove i).get j = some id'
        rw [Table.get_remove, Table.get_remove]
        have hi := (t.wired id i).mp h
        by_cases hid : id' = id <;> by_cases hj : j = i
        · rw [if_pos hid, if_pos hj]
          exact iff_of_false (by simp) (by simp)
        · rw [if_pos hid, if_neg hj, ← t.wired, hid, h]
          exact iff_of_false (by simp) fun heq => hj (Option.some.inj heq).symm
        · rw [if_neg hid, if_pos hj, t.wired, hj, hi]
          exact iff_of_false (fun heq => hid (Option.some.inj heq).symm) (by simp)
        · rw [if_neg hid, if_neg hj]
          exact t.wired id' j }

def addEdge (t : Topology) (sourceIdx targetIdx : ℕ)
    (hs : (t.graph.weights.get sourceIdx).isSome = true)
    (ht : (t.graph.weights.get targetIdx).isSome = true) : Topology :=
  ⟨t.graph.addEdge sourceIdx targetIdx hs ht, t.nodeMap, t.wired⟩

def removeEdgesConnecting (t : Topology) (sourceIdx targetIdx : ℕ) : Topology :=
  ⟨t.graph.removeEdgesConnecting sourceIdx targetIdx, t.nodeMap, t.wired⟩

def edgeCount (t : Topology) (a b : String) : ℕ :=
  match t.nodeMap.get a, t.nodeMap.get b with
  | some i, some j => t.graph.edges.count (i, j)
  | _, _ => 0

def incident (t : Topology) (i : ℕ) : List (String × String) :=
  (t.graph.edges.filter fun e => e.1 = i ∨ e.2 = i).filterMap fun e =>
    match t.graph.weights.get e.1, t.graph.weights.get e.2 with
    | some a, some b => some (a, b)
    | _, _ => none

/-! ### Counting edges -/

section Counting

variable {t : Topology} {id a b : String} {i j : ℕ}

theorem edgeCount_eq (ha : t.nodeMap.get a = some i) (hb : t.nodeMap.get b = some j) :
    t.edgeCount a b = t.graph.edges.count (i, j) := by
  rw [edgeCount, ha, hb]

theorem edgeCount_of_source_none (ha : t.nodeMap.get a = none) : t.edgeCount a b = 0 := by
  rw [edgeCount, ha]

theorem edgeCount_of_target_none (hb : t.nodeMap.get b = none) : t.edgeCount a b = 0 := by
  rw [edgeCount, hb]
  cases t.nodeMap.get a <;> rfl

theorem slot_injective (ha : t.nodeMap.get a = some i) (hb : t.nodeMap.get b = some i) : a = b := by
  have hwa := (t.wired a i).mp ha
  rw [(t.wired b i).mp hb] at hwa
  exact (Option.some.inj hwa).symm

theorem count_eq_zero_of_vacant (g : StableGraph) (h : g.weights.get i = none ∨ g.weights.get j = none) :
    g.edges.count (i, j) = 0 := by
  refine List.count_eq_zero.mpr fun hmem => ?_
  obtain ⟨hi, hj⟩ := g.joined _ hmem
  rcases h with h | h
  · rw [h] at hi
    cases hi
  · rw [h] at hj
    cases hj

theorem addNode_of_none (h : t.nodeMap.get id = none) :
    (t.addNode id).nodeMap = t.nodeMap.insert id t.graph.nextSlot ∧
      (t.addNode id).graph.edges = t.graph.edges := by
  unfold addNode
  split
  · rename_i hsome
    rw [h] at hsome
    cases hsome
  · exact ⟨rfl, rfl⟩

theorem addNode_of_some (h : t.nodeMap.get id = some i) : t.addNode id = t := by
  unfold addNode
  split
  · rfl
  · rename_i hnone
    rw [h] at hnone
    cases hnone

theorem isSome_addNode : ((t.addNode id).nodeMap.get a).isSome = true ↔
    a = id ∨ (t.nodeMap.get a).isSome = true := by
  cases h : t.nodeMap.get id with
  | some i =>
    rw [addNode_of_some h]
    refine ⟨Or.inr, fun hor => hor.elim (fun ha => ?_) fun hsome => hsome⟩
    rw [ha, h]
    rfl
  | none =>
    rw [(addNode_of_none h).1, Table.get_insert]
    split <;> simp_all

theorem edgeCount_addNode : (t.addNode id).edgeCount a b = t.edgeCount a b := by
  cases h : t.nodeMap.get id with
  | some i => rw [addNode_of_some h]
  | none =>
    obtain ⟨hmap, hedges⟩ := addNode_of_none h
    have hvacant := t.graph.nextSlot_vacant
    by_cases ha : a = id
    · rw [edgeCount_of_source_none (t := t) (ha ▸ h), edgeCount, hmap, hedges, ha,
        Table.get_insert_self]
      split
      · rename_i hi _
        rw [← Option.some.inj hi]
        exact count_eq_zero_of_vacant _ (Or.inl hvacant)
      · rfl
    by_cases hb : b = id
    · rw [edgeCount_of_target_none (t := t) (hb ▸ h), edgeCount, hmap, hedges, hb,
        Table.get_insert_self]
      split
      · rename_i _ hj
        rw [← Option.some.inj hj]
        exact count_eq_zero_of_vacant _ (Or.inr hvacant)
      · rfl
    rw [edgeCount, hmap, hedges, Table.get_insert_of_ne _ _ ha, Table.get_insert_of_ne _ _ hb, edgeCount]

theorem nodeMap_removeNode : (t.removeNode id).nodeMap.get a =
    if a = id then none else t.nodeMap.get a := by
  unfold removeNode
  split
  · rename_i h
    split
    · rename_i ha
      rw [ha]
      exact h
    · rfl
  · exact Table.get_remove ..

theorem edgeCount_removeNode : (t.removeNode id).edgeCount a b =
    if a = id ∨ b = id then 0 else t.edgeCount a b := by
  have hmap : ∀ c, (t.removeNode id).nodeMap.get c = if c = id then none else t.nodeMap.get c :=
    fun c => nodeMap_removeNode
  by_cases ha : a = id
  · rw [if_pos (Or.inl ha)]
    exact edgeCount_of_source_none (by rw [hmap, if_pos ha])
  by_cases hb : b = id
  · rw [if_pos (Or.inr hb)]
    exact edgeCount_of_target_none (by rw [hmap, if_pos hb])
  rw [if_neg (by tauto)]
  unfold edgeCount
  rw [hmap, hmap, if_neg ha, if_neg hb]
  split
  · rename_i i j hi hj
    unfold removeNode
    split
    · rfl
    · rename_i k hk
      refine List.count_filter ?_
      have hik : i ≠ k := fun heq => ha (slot_injective hi (heq ▸ hk))
      have hjk : j ≠ k := fun heq => hb (slot_injective hj (heq ▸ hk))
      exact decide_eq_true ⟨hik, hjk⟩
  · rfl

section
variable {source target : String} (hs : t.nodeMap.get source = some i)
  (ht : t.nodeMap.get target = some j)
include hs ht

theorem edgeCount_addEdge : (t.addEdge i j (t.occupied hs) (t.occupied ht)).edgeCount a b =
      t.edgeCount a b + if a = source ∧ b = target then 1 else 0 := by
  unfold edgeCount
  change (match t.nodeMap.get a, t.nodeMap.get b with
    | some i', some j' => (t.graph.edges ++ [(i, j)]).count (i', j')
    | _, _ => 0) = _
  cases ha : t.nodeMap.get a with
  | none =>
    have hne : ¬(a = source ∧ b = target) := by
      rintro ⟨rfl, -⟩
      rw [ha] at hs
      cases hs
    rw [if_neg hne]
  | some i' =>
    cases hb : t.nodeMap.get b with
    | none =>
      have hne : ¬(a = source ∧ b = target) := by
        rintro ⟨-, rfl⟩
        rw [hb] at ht
        cases ht
      rw [if_neg hne]
    | some j' =>
      dsimp only
      rw [List.count_append, List.count_singleton]
      by_cases heq : a = source ∧ b = target
      · obtain ⟨rfl, rfl⟩ := heq
        rw [ha] at hs
        rw [hb] at ht
        cases hs
        cases ht
        simp
      · rw [if_neg heq, if_neg]
        intro hpair
        obtain ⟨hi, hj⟩ := Prod.mk.inj (eq_of_beq hpair)
        exact heq ⟨slot_injective ha (hi ▸ hs), slot_injective hb (hj ▸ ht)⟩

theorem edgeCount_removeEdges : (t.removeEdgesConnecting i j).edgeCount a b =
      if a = source ∧ b = target then 0 else t.edgeCount a b := by
  unfold edgeCount
  change (match t.nodeMap.get a, t.nodeMap.get b with
    | some i', some j' => (t.graph.edges.filter fun e => e ≠ (i, j)).count (i', j')
    | _, _ => 0) = _
  cases ha : t.nodeMap.get a with
  | none => rw [ite_self]
  | some i' =>
    cases hb : t.nodeMap.get b with
    | none => rw [ite_self]
    | some j' =>
      by_cases heq : a = source ∧ b = target
      · obtain ⟨rfl, rfl⟩ := heq
        rw [ha] at hs
        rw [hb] at ht
        cases hs
        cases ht
        rw [if_pos ⟨rfl, rfl⟩]
        exact List.count_eq_zero.mpr fun hmem => by simpa using (List.mem_filter.mp hmem).2
      · rw [if_neg heq]
        refine List.count_filter (decide_eq_true fun hpair => heq ?_)
        obtain ⟨hi, hj⟩ := Prod.mk.inj hpair
        exact ⟨slot_injective ha (hi ▸ hs), slot_injective hb (hj ▸ ht)⟩

end

theorem mem_incident (hid : t.nodeMap.get id = some i) :
    (a, b) ∈ t.incident i ↔ 0 < t.edgeCount a b ∧ (a = id ∨ b = id) := by
  unfold incident
  rw [List.mem_filterMap]
  constructor
  · rintro ⟨⟨k, l⟩, hmem, hpair⟩
    obtain ⟨hedge, hat⟩ := List.mem_filter.mp hmem
    split at hpair
    · rename_i c d hc hd
      obtain ⟨rfl, rfl⟩ := Prod.mk.inj (Option.some.inj hpair)
      have ha := (t.wired c k).mpr hc
      have hb := (t.wired d l).mpr hd
      refine ⟨?_, ?_⟩
      · rw [edgeCount_eq ha hb]
        exact List.count_pos_iff.mpr hedge
      · have hor : k = i ∨ l = i := of_decide_eq_true hat
        rcases hor with rfl | rfl
        · exact Or.inl (slot_injective ha hid)
        · exact Or.inr (slot_injective hb hid)
    · cases hpair
  · rintro ⟨hpos, hor⟩
    unfold edgeCount at hpos
    split at hpos
    · rename_i k l hk hl
      refine ⟨(k, l), List.mem_filter.mpr ⟨List.count_pos_iff.mp hpos, decide_eq_true ?_⟩, ?_⟩
      · refine hor.imp (fun heq => ?_) fun heq => ?_
        · rw [heq, hid] at hk
          exact (Option.some.inj hk).symm
        · rw [heq, hid] at hl
          exact (Option.some.inj hl).symm
      · dsimp only
        rw [(t.wired a k).mp hk, (t.wired b l).mp hl]
    · cases hpos

end Counting

end Topology

end Medulla.Graph.Slots
