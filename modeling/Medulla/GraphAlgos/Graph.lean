import Mathlib.Algebra.Order.Ring.Rat
import Mathlib.Data.List.Dedup
import Mathlib.Data.List.Sort
import Medulla.Library.OrderedTable

/-! # Adjacency graphs

A directed graph over dense indices, in the order of the sorted node ids. Parallel edges are summed, and
every node has its outgoing and its incoming edges sorted by index. Weights are exact rationals. -/

namespace Medulla.GraphAlgos.Graph

open Library.OrderedTable

variable {N : Type} [LinearOrder N]

/-- The storage of a graph; the map from ids to indices is left out. -/
structure AdjacencyGraph (N : Type) [LinearOrder N] where
  nodes : List N
  out : ℕ → Table ℕ ℚ
  inc : ℕ → Table ℕ ℚ
  sorted : nodes.Pairwise (· < ·)
  transposed : ∀ u v, (inc v).get u = (out u).get v
  inRange : ∀ u v, ((out u).get v).isSome → u < nodes.length ∧ v < nodes.length

/-! ### Construction -/

/-- `*entry(k).or_insert(0.0) += w`. -/
def addWeight (t : Table ℕ ℚ) (k : ℕ) (w : ℚ) : Table ℕ ℚ := t.insert k ((t.get k).getD 0 + w)

/-- An edge enters the map of its source. -/
def addEdge (u : ℕ) (t : Table ℕ ℚ) (e : ℕ × ℕ × ℚ) : Table ℕ ℚ :=
  if e.1 = u then addWeight t e.2.1 e.2.2 else t

theorem get_addEdge (u v : ℕ) (t : Table ℕ ℚ) (e : ℕ × ℕ × ℚ) : (addEdge u t e).get v =
    if e.1 = u ∧ e.2.1 = v then some ((t.get v).getD 0 + e.2.2) else t.get v := by
  unfold addEdge addWeight
  by_cases hu : e.1 = u
  · by_cases hv : e.2.1 = v
    · simp [hu, hv]
    · simp [hu, hv, Table.get_insert_of_ne _ _ (Ne.symm hv)]
  · simp [hu]

theorem get_foldl_swap {u v : ℕ} : ∀ (edges : List (ℕ × ℕ × ℚ)) {s t : Table ℕ ℚ}, s.get u = t.get v →
    ((edges.map fun e => (e.2.1, e.1, e.2.2)).foldl (addEdge v) s).get u =
      (edges.foldl (addEdge u) t).get v
  | [], _, _, h => h
  | e :: edges, s, t, h => by
    refine get_foldl_swap edges ?_
    rw [get_addEdge, get_addEdge, h]
    simp [and_comm]

theorem mem_of_get_foldl {u v : ℕ} : ∀ (edges : List (ℕ × ℕ × ℚ)) {t : Table ℕ ℚ},
    ((edges.foldl (addEdge u) t).get v).isSome → (t.get v).isSome ∨ ∃ w, (u, v, w) ∈ edges
  | [], _, h => Or.inl h
  | (a, b, w) :: edges, t, h => by
    rcases mem_of_get_foldl edges h with h | ⟨w', h⟩
    · rw [get_addEdge] at h
      split_ifs at h with hab
      · obtain ⟨rfl, rfl⟩ := hab
        exact Or.inr ⟨w, .head _⟩
      · exact Or.inl h
    · exact Or.inr ⟨w', .tail _ h⟩

/-- Every id that appears, as a source or as a neighbour. -/
def idsOf (rows : List (N × List (N × ℚ))) : List N :=
  ((rows.flatMap fun r => r.1 :: r.2.map (·.1)).mergeSort (· ≤ ·)).dedup

def edgesOf (ids : List N) (rows : List (N × List (N × ℚ))) : List (ℕ × ℕ × ℚ) :=
  rows.flatMap fun r => r.2.map fun e => (ids.idxOf r.1, ids.idxOf e.1, e.2)

theorem idxOf_lt {rows : List (N × List (N × ℚ))} {u v : ℕ} {w : ℚ}
    (h : (u, v, w) ∈ edgesOf (idsOf rows) rows) : u < (idsOf rows).length ∧ v < (idsOf rows).length := by
  obtain ⟨r, hr, h⟩ := List.mem_flatMap.mp h
  obtain ⟨e, he, h⟩ := List.mem_map.mp h
  cases h
  have hmem : ∀ x ∈ r.1 :: r.2.map (·.1), x ∈ idsOf rows := fun x hx =>
    List.mem_dedup.mpr ((List.mem_mergeSort).mpr (List.mem_flatMap.mpr ⟨r, hr, hx⟩))
  exact ⟨List.idxOf_lt_length_of_mem (hmem _ (.head _)),
    List.idxOf_lt_length_of_mem (hmem _ (.tail _ (List.mem_map_of_mem he)))⟩

theorem sorted_idsOf (rows : List (N × List (N × ℚ))) : (idsOf rows).Pairwise (· < ·) := by
  have hsorted := List.pairwise_mergeSort' (· ≤ ·) (rows.flatMap fun r => r.1 :: r.2.map (·.1))
  refine ((hsorted.sublist (List.dedup_sublist _)).and (List.nodup_dedup _)).imp ?_
  exact fun h => lt_of_le_of_ne h.1 h.2

def fromAdjacency (rows : List (N × List (N × ℚ))) : AdjacencyGraph N where
  nodes := idsOf rows
  out u := (edgesOf (idsOf rows) rows).foldl (addEdge u) .empty
  inc v := ((edgesOf (idsOf rows) rows).map fun e => (e.2.1, e.1, e.2.2)).foldl (addEdge v) .empty
  sorted := sorted_idsOf rows
  transposed _ _ := get_foldl_swap _ (by rfl)
  inRange u v h := by
    rcases mem_of_get_foldl _ h with h | ⟨w, h⟩
    · cases h
    · exact idxOf_lt h

/-! ### Views -/

namespace AdjacencyGraph

variable {g : AdjacencyGraph N} {u v : ℕ}

def nodeCount (g : AdjacencyGraph N) : ℕ := g.nodes.length

def undirectedNeighbors (g : AdjacencyGraph N) (idx : ℕ) : List ℕ :=
  ((((g.out idx).rows.map (·.1)).filter (· ≠ idx) ++
    ((g.inc idx).rows.map (·.1)).filter (· ≠ idx)).mergeSort (· ≤ ·)).dedup

/-- Two different nodes with an edge between them. -/
def Neighbours (g : AdjacencyGraph N) (u v : ℕ) : Prop :=
  v ≠ u ∧ (((g.out u).get v).isSome ∨ ((g.out v).get u).isSome)

theorem mem_undirectedNeighbors : v ∈ g.undirectedNeighbors u ↔ g.Neighbours u v := by
  have hrows : ∀ t : Table ℕ ℚ, v ∈ t.rows.map (·.1) ↔ (t.get v).isSome := fun t => by
    simp [Option.isSome_iff_exists, ← Table.mem_rows]
  unfold undirectedNeighbors Neighbours
  simp only [List.mem_dedup, List.mem_mergeSort, List.mem_append, List.mem_filter, hrows, g.transposed,
    decide_eq_true_eq]
  tauto

theorem nodup_undirectedNeighbors (g : AdjacencyGraph N) (u : ℕ) : (g.undirectedNeighbors u).Nodup :=
  List.nodup_dedup _

theorem Neighbours.symm (h : g.Neighbours u v) : g.Neighbours v u := ⟨h.1.symm, h.2.symm⟩

theorem Neighbours.lt (h : g.Neighbours u v) : v < g.nodeCount :=
  h.2.elim (fun h => (g.inRange _ _ h).2) fun h => (g.inRange _ _ h).1

end AdjacencyGraph

end Medulla.GraphAlgos.Graph
