import Mathlib.Algebra.Order.BigOperators.Group.Finset
import Mathlib.Data.Prod.Lex
import Medulla.GraphAlgos.Graph

/-! # Core numbers

Nodes are peeled from a heap by their degree among the nodes that are left; outdated entries are
skipped. The core number of a node is the largest `k` for which it belongs to a set whose members have
`k` neighbours each in the set.

* one turn: `Peeled.peel`; all turns: `peelAll_spec`;
* the result: `k_core_exact`. -/

namespace Medulla.GraphAlgos.KCore

open GraphAlgos.Graph GraphAlgos.Graph.AdjacencyGraph

variable {N : Type} [LinearOrder N] {g : AdjacencyGraph N}

/-! ### Peeling -/

/-- The degrees among the nodes that are left, and the heap of degrees and nodes, smallest first. -/
structure Peeling where
  curDegree : ℕ → ℕ
  removed : ℕ → Bool
  core : ℕ → ℕ
  heap : List (ℕ ×ₗ ℕ)
  kSoFar : ℕ

def start (g : AdjacencyGraph N) : Peeling where
  curDegree v := (g.undirectedNeighbors v).length
  removed _ := false
  core _ := 0
  heap := (List.range g.nodeCount).map fun v => toLex ((g.undirectedNeighbors v).length, v)
  kSoFar := 0

def decrement (s : Peeling) (nb : ℕ) : Peeling :=
  if s.removed nb then s
  else { s with
    curDegree := Function.update s.curDegree nb (s.curDegree nb - 1)
    heap := toLex (s.curDegree nb - 1, nb) :: s.heap }

/-- Handle an entry taken from the heap, skipping one that is stale. -/
def peel (g : AdjacencyGraph N) (s : Peeling) (d v : ℕ) : Peeling :=
  if s.removed v || decide (s.curDegree v < d) then s
  else (g.undirectedNeighbors v).foldl decrement { s with
    removed := Function.update s.removed v true
    core := Function.update s.core v (max s.kSoFar d)
    kSoFar := max s.kSoFar d }

def peelAll (g : AdjacencyGraph N) : ℕ → Peeling → Peeling
  | 0, s => s
  | fuel + 1, s =>
    match s.heap.min? with
    | none => s
    | some item =>
      peelAll g fuel (peel g { s with heap := s.heap.erase item } (ofLex item).1 (ofLex item).2)

/-- One turn for each node and for each decrement. -/
def fuel (g : AdjacencyGraph N) : ℕ :=
  g.nodeCount + ∑ v ∈ Finset.range g.nodeCount, (g.undirectedNeighbors v).length

def kCore (g : AdjacencyGraph N) : List (N × ℕ) :=
  g.nodes.zip ((List.range g.nodeCount).map (peelAll g (fuel g) (start g)).core)

structure Decremented (l : List ℕ) (s s' : Peeling) : Prop where
  removed : s'.removed = s.removed
  core : s'.core = s.core
  kSoFar : s'.kSoFar = s.kSoFar
  degree : ∀ w, s'.curDegree w =
    if w ∈ l ∧ s.removed w = false then s.curDegree w - 1 else s.curDegree w
  heap : ∀ d w, toLex (d, w) ∈ s'.heap ↔
    toLex (d, w) ∈ s.heap ∨ (w ∈ l ∧ s.removed w = false) ∧ d = s.curDegree w - 1
  length : s'.heap.length ≤ s.heap.length + l.length

theorem foldl_decrement : ∀ {l : List ℕ} (s : Peeling), l.Nodup →
    Decremented l s (l.foldl decrement s)
  | [], s, _ => ⟨rfl, rfl, rfl, by simp, by simp, le_rfl⟩
  | nb :: l, s, h => by
    obtain ⟨hnot, hl⟩ := List.nodup_cons.mp h
    have ih := foldl_decrement (decrement s nb) hl
    rw [List.foldl_cons]
    by_cases hremoved : s.removed nb = true
    · have hsame : decrement s nb = s := if_pos hremoved
      rw [hsame] at ih ⊢
      have hmem : ∀ w, w ∈ nb :: l ∧ s.removed w = false ↔ w ∈ l ∧ s.removed w = false := fun w => by
        by_cases hw : w = nb <;> simp [hw, hremoved]
      exact ⟨ih.removed, ih.core, ih.kSoFar, fun w => by simp only [hmem, ih.degree],
        fun d w => by rw [hmem, ih.heap], ih.length.trans (by simp)⟩
    · have hstep : decrement s nb = _ := if_neg hremoved
      rw [hstep] at ih ⊢
      refine ⟨ih.removed, ih.core, ih.kSoFar, fun w => ?_, fun d w => ?_, ?_⟩
      · rw [ih.degree]
        by_cases hw : w = nb
        · subst hw
          simp [hnot, hremoved]
        · simp [hw]
      · rw [ih.heap]
        by_cases hw : w = nb
        · subst hw
          simp [hnot, hremoved, or_comm]
        · simp [hw]
      · have hlength := ih.length
        simp only [List.length_cons] at hlength ⊢
        omega

/-! ### Cores -/

instance decidableNeighbours (g : AdjacencyGraph N) (u : ℕ) : DecidablePred (g.Neighbours u) := fun _ =>
  inferInstanceAs (Decidable (_ ∧ _))

/-- Every member has at least `k` neighbours in the set. -/
def IsCore (g : AdjacencyGraph N) (k : ℕ) (S : Finset ℕ) : Prop :=
  ∀ u ∈ S, k ≤ (S.filter (g.Neighbours u)).card

def left (g : AdjacencyGraph N) (s : Peeling) : Finset ℕ :=
  (Finset.range g.nodeCount).filter fun v => s.removed v = false

def degreeLeft (g : AdjacencyGraph N) (removed : ℕ → Bool) (v : ℕ) : ℕ :=
  ((g.undirectedNeighbors v).filter fun w => !removed w).length

theorem card_le_degreeLeft {S : Finset ℕ} {removed : ℕ → Bool} (h : ∀ w ∈ S, removed w = false)
    (v : ℕ) : (S.filter (g.Neighbours v)).card ≤ degreeLeft g removed v := by
  rw [degreeLeft, ← List.toFinset_card_of_nodup ((g.nodup_undirectedNeighbors v).filter _)]
  refine Finset.card_le_card fun w hw => ?_
  obtain ⟨hw, hnb⟩ := Finset.mem_filter.mp hw
  simp [mem_undirectedNeighbors, hnb, h w hw]

theorem degreeLeft_le_card (s : Peeling) (v : ℕ) :
    degreeLeft g s.removed v ≤ ((left g s).filter (g.Neighbours v)).card := by
  rw [degreeLeft, ← List.toFinset_card_of_nodup ((g.nodup_undirectedNeighbors v).filter _)]
  refine Finset.card_le_card fun w hw => ?_
  obtain ⟨hnb, hw⟩ := List.mem_filter.mp (List.mem_toFinset.mp hw)
  have hnb := mem_undirectedNeighbors.mp hnb
  simpa [left, hnb, hnb.lt] using hw

theorem degreeLeft_update {removed : ℕ → Bool} {v : ℕ} (hv : removed v = false) (w : ℕ) :
    degreeLeft g (Function.update removed v true) w =
      if v ∈ g.undirectedNeighbors w then degreeLeft g removed w - 1 else degreeLeft g removed w := by
  have hfilter : ((g.undirectedNeighbors w).filter fun x => !Function.update removed v true x) =
      ((g.undirectedNeighbors w).filter fun x => !removed x).erase v := by
    rw [((g.nodup_undirectedNeighbors w).filter _).erase_eq_filter, List.filter_filter]
    refine List.filter_congr fun x _ => ?_
    by_cases hx : x = v <;> simp [hx]
  rw [degreeLeft, hfilter, List.length_erase]
  simp [hv, degreeLeft]

/-- What holds between two turns. -/
structure Peeled (g : AdjacencyGraph N) (s : Peeling) : Prop where
  degree : ∀ v, s.removed v = false → s.curDegree v = degreeLeft g s.removed v
  entries : ∀ d v, toLex (d, v) ∈ s.heap → v < g.nodeCount ∧ (s.removed v = false → s.curDegree v ≤ d)
  queued : ∀ v < g.nodeCount, s.removed v = false → toLex (s.curDegree v, v) ∈ s.heap
  upper : ∀ k S, IsCore g k S → ∀ v ∈ S, s.removed v = true → k ≤ s.core v ∧ k ≤ s.kSoFar
  level : ∃ S ⊆ Finset.range g.nodeCount, left g s ⊆ S ∧ IsCore g s.kSoFar S
  lower : ∀ v, s.removed v = true → ∃ S ⊆ Finset.range g.nodeCount, v ∈ S ∧ IsCore g (s.core v) S

theorem peeled_start (g : AdjacencyGraph N) : Peeled g (start g) where
  degree v _ := by simp [degreeLeft, start]
  entries d v h := by
    obtain ⟨w, hw, h⟩ := List.mem_map.mp h
    cases h
    exact ⟨List.mem_range.mp hw, fun _ => le_rfl⟩
  queued v hv _ := List.mem_map.mpr ⟨v, List.mem_range.mpr hv, rfl⟩
  upper _ _ _ _ _ h := by cases h
  level := ⟨_, subset_rfl, Finset.filter_subset _ _, fun _ _ => Nat.zero_le _⟩
  lower _ h := by cases h

def Least (s : Peeling) (d v : ℕ) : Prop :=
  toLex (d, v) ∈ s.heap ∧ ∀ item ∈ s.heap, toLex (d, v) ≤ item

section
variable {s : Peeling} {d v : ℕ}

/-- A stale entry may go. -/
theorem Peeled.skip (h : Peeled g s) (hstale : s.removed v = true ∨ s.curDegree v < d) :
    Peeled g { s with heap := s.heap.erase (toLex (d, v)) } where
  degree := h.degree
  entries d' w hw := h.entries d' w (List.mem_of_mem_erase hw)
  queued w hw hleft := by
    refine (List.mem_erase_of_ne fun heq => ?_).mpr (h.queued w hw hleft)
    obtain ⟨hd, rfl⟩ := Prod.mk.inj (toLex.injective heq)
    rcases hstale with hstale | hstale
    · exact absurd hleft (by simp [hstale])
    · exact hstale.ne hd
  upper := h.upper
  level := h.level
  lower := h.lower

/-- The state in which the neighbours of a peeled node are decremented. -/
def taken (s : Peeling) (d v : ℕ) : Peeling where
  curDegree := s.curDegree
  removed := Function.update s.removed v true
  core := Function.update s.core v (max s.kSoFar d)
  heap := s.heap.erase (toLex (d, v))
  kSoFar := max s.kSoFar d

/-- A peeled node has the least degree of those left, so these are a core of its degree. -/
theorem Peeled.level_taken (h : Peeled g s) (hleast : Least s d v) :
    ∃ S ⊆ Finset.range g.nodeCount, left g s ⊆ S ∧ IsCore g (max s.kSoFar d) S := by
  rcases le_total d s.kSoFar with hd | hd
  · rw [max_eq_left hd]
    exact h.level
  · rw [max_eq_right hd]
    refine ⟨left g s, Finset.filter_subset _ _, subset_rfl, fun u hu => ?_⟩
    obtain ⟨hu, hleft⟩ := Finset.mem_filter.mp hu
    have hle := hleast.2 _ (h.queued u (Finset.mem_range.mp hu) hleft)
    calc d ≤ s.curDegree u := by
          rcases Prod.Lex.toLex_le_toLex.mp hle with hlt | heq
          · exact hlt.le
          · exact heq.1.le
      _ = degreeLeft g s.removed u := h.degree u hleft
      _ ≤ _ := degreeLeft_le_card s u

/-- A core with none of its members peeled is bounded by the degree of any member. -/
theorem Peeled.upper_taken (h : Peeled g s) (hd : d = s.curDegree v) (hv : s.removed v = false)
    {k : ℕ} {S : Finset ℕ} (hcore : IsCore g k S) (hmem : v ∈ S) : k ≤ max s.kSoFar d := by
  by_cases hold : ∃ w ∈ S, s.removed w = true
  · obtain ⟨w, hw, hremoved⟩ := hold
    exact le_max_of_le_left (h.upper k S hcore w hw hremoved).2
  · have hS : ∀ w ∈ S, s.removed w = false := fun w hw => by
      simpa using fun hr => hold ⟨w, hw, hr⟩
    refine le_max_of_le_right ((hcore v hmem).trans ?_)
    rw [hd, h.degree v hv]
    exact card_le_degreeLeft hS v

theorem Peeled.take (h : Peeled g s) (hleast : Least s d v) (hd : d = s.curDegree v)
    (hv : s.removed v = false) {s' : Peeling}
    (hs' : Decremented (g.undirectedNeighbors v) (taken s d v) s') : Peeled g s' := by
  have hremoved : ∀ w, s'.removed w = if w = v then true else s.removed w := fun w => by
    rw [hs'.removed]
    exact Function.update_apply _ _ _ _
  have hcore : ∀ w, s'.core w = if w = v then max s.kSoFar d else s.core w := fun w => by
    rw [hs'.core]
    exact Function.update_apply _ _ _ _
  have hleft : ∀ w, s'.removed w = false → w ≠ v ∧ s.removed w = false := fun w hw => by
    rw [hremoved] at hw
    split_ifs at hw with hne
    exact ⟨hne, hw⟩
  have hnb : ∀ w, s'.removed w = false → ((w ∈ g.undirectedNeighbors v ∧
      (taken s d v).removed w = false) ↔ w ∈ g.undirectedNeighbors v) := fun w hw =>
    and_iff_left (hs'.removed ▸ hw)
  obtain ⟨S, hrange, hS, hlevel⟩ := h.level_taken hleast
  have hvS : v ∈ S := hS (Finset.mem_filter.mpr
    ⟨Finset.mem_range.mpr (h.entries d v hleast.1).1, hv⟩)
  constructor
  · intro w hw
    have hsymm : v ∈ g.undirectedNeighbors w ↔ w ∈ g.undirectedNeighbors v := by
      rw [mem_undirectedNeighbors, mem_undirectedNeighbors]
      exact ⟨Neighbours.symm, Neighbours.symm⟩
    rw [hs'.degree, hs'.removed, if_congr (hnb w hw) rfl rfl]
    change _ = degreeLeft g (Function.update s.removed v true) w
    rw [degreeLeft_update hv, if_congr hsymm rfl rfl, ← h.degree w (hleft w hw).2]
    rfl
  · intro d' w hw
    rcases (hs'.heap d' w).mp hw with hw | ⟨hw, hd'⟩
    · obtain ⟨hlt, hle⟩ := h.entries d' w (List.mem_of_mem_erase hw)
      refine ⟨hlt, fun hr => (?_ : s'.curDegree w ≤ s.curDegree w).trans (hle (hleft w hr).2)⟩
      rw [hs'.degree]
      split_ifs
      · exact Nat.sub_le _ _
      · exact le_rfl
    · refine ⟨(mem_undirectedNeighbors.mp hw.1).lt, fun _ => ?_⟩
      rw [hs'.degree, if_pos hw, hd']
  · intro w hw hr
    rw [hs'.degree, hs'.heap]
    split_ifs with hmem
    · exact Or.inr ⟨hmem, rfl⟩
    · refine Or.inl ((List.mem_erase_of_ne fun heq => (hleft w hr).1 ?_).mpr
        (h.queued w hw (hleft w hr).2))
      exact congrArg (fun item => (ofLex item).2) heq
  · intro k T hT w hw hr
    rw [hcore, hs'.kSoFar]
    rw [hremoved] at hr
    split_ifs at hr ⊢ with hwv
    · subst hwv
      exact ⟨h.upper_taken hd hv hT hw, h.upper_taken hd hv hT hw⟩
    · obtain ⟨hle, hk⟩ := h.upper k T hT w hw hr
      exact ⟨hle, le_max_of_le_left hk⟩
  · refine ⟨S, hrange, fun w hw => hS ?_, hs'.kSoFar ▸ hlevel⟩
    obtain ⟨hw, hr⟩ := Finset.mem_filter.mp hw
    exact Finset.mem_filter.mpr ⟨hw, (hleft w hr).2⟩
  · intro w hr
    rw [hcore]
    rw [hremoved] at hr
    split_ifs at hr ⊢ with hwv
    · exact ⟨S, hrange, hwv ▸ hvS, hlevel⟩
    · exact h.lower w hr

end

/-! ### Runs -/

def turns (g : AdjacencyGraph N) (s : Peeling) : ℕ :=
  s.heap.length + ∑ v ∈ left g s, (g.undirectedNeighbors v).length

/-- **One turn** keeps the invariant and leaves fewer turns. -/
theorem Peeled.peel {s : Peeling} {d v : ℕ} (h : Peeled g s) (hleast : Least s d v) :
    Peeled g (peel g { s with heap := s.heap.erase (toLex (d, v)) } d v) ∧
      turns g (KCore.peel g { s with heap := s.heap.erase (toLex (d, v)) } d v) < turns g s := by
  have hlength : (s.heap.erase (toLex (d, v))).length + 1 = s.heap.length :=
    List.length_erase_add_one hleast.1
  unfold KCore.peel
  split_ifs with hstale
  · refine ⟨h.skip (by simpa using hstale), ?_⟩
    exact Nat.add_lt_add_right (by simp only; omega) _
  · obtain ⟨hv, hd⟩ : s.removed v = false ∧ d ≤ s.curDegree v := by simpa using hstale
    obtain ⟨hlt, hle⟩ := h.entries d v hleast.1
    have hs' := foldl_decrement (taken s d v) (g.nodup_undirectedNeighbors v)
    refine ⟨h.take hleast (le_antisymm hd (hle hv)) hv hs', ?_⟩
    change turns g ((g.undirectedNeighbors v).foldl decrement (taken s d v)) < _
    have hleft : left g ((g.undirectedNeighbors v).foldl decrement (taken s d v)) =
        (left g s).erase v := by
      ext w
      rw [left, Finset.mem_erase, Finset.mem_filter, left, hs'.removed]
      by_cases hw : w = v <;> simp [taken, hw]
    have hsum := Finset.add_sum_erase (left g s) (fun v => (g.undirectedNeighbors v).length)
      (Finset.mem_filter.mpr ⟨Finset.mem_range.mpr hlt, hv⟩)
    have hheap := hs'.length
    unfold turns
    rw [hleft]
    simp only [taken] at hheap hsum ⊢
    omega

/-- **Peeling ends** with every node removed. -/
theorem peelAll_spec : ∀ {n : ℕ} {s : Peeling}, Peeled g s → turns g s ≤ n →
    Peeled g (peelAll g n s) ∧ (peelAll g n s).heap = []
  | 0, s, h, hn => ⟨h, List.length_eq_zero_iff.mp (Nat.le_zero.mp (le_of_add_le_left hn))⟩
  | n + 1, s, h, hn => by
    unfold peelAll
    cases hmin : s.heap.min? with
    | none => exact ⟨h, List.min?_eq_none_iff.mp hmin⟩
    | some item =>
      obtain ⟨hpeeled, hturns⟩ := h.peel (d := (ofLex item).1) (v := (ofLex item).2)
        (List.min?_eq_some_iff.mp hmin)
      exact peelAll_spec hpeeled (Nat.le_of_lt_succ (hturns.trans_le hn))

/-- **Core numbers are exact**: each node has the largest `k` for which it belongs to a set whose members
have `k` neighbours each in the set. -/
theorem k_core_exact (g : AdjacencyGraph N) : (kCore g).map (·.1) = g.nodes ∧
    ∀ i < g.nodeCount, ∃ x c, (kCore g)[i]? = some (x, c) ∧ g.nodes[i]? = some x ∧
      IsGreatest {k | ∃ S ⊆ Finset.range g.nodeCount, i ∈ S ∧ IsCore g k S} c := by
  have hturns : turns g (start g) ≤ fuel g := by
    unfold turns fuel start
    simp [left]
  obtain ⟨h, hempty⟩ := peelAll_spec (peeled_start g) hturns
  unfold kCore
  refine ⟨List.map_fst_zip (by simp [nodeCount]), fun i hi => ?_⟩
  have hremoved : (peelAll g (fuel g) (start g)).removed i = true := by
    by_contra hr
    have hqueued := h.queued i hi (Bool.not_eq_true _ ▸ hr)
    rw [hempty] at hqueued
    cases hqueued
  refine ⟨g.nodes[i], (peelAll g (fuel g) (start g)).core i, ?_, List.getElem?_eq_getElem hi,
    h.lower i hremoved, fun k ⟨S, _, hi, hS⟩ => (h.upper k S hS i hi hremoved).1⟩
  rw [List.getElem?_zip_eq_some]
  simp [List.getElem?_eq_getElem hi, hi]

end Medulla.GraphAlgos.KCore
