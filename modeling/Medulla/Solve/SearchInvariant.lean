import Medulla.Solve.Recording

/-! # What the search keeps

At every node the trace recorded so far is one the verifier accepts, whether or not the recorder still
has it: the stack and the closed leaves of that trace cover every assignment.

* one node: `between_step`; a whole run: `between_runFrom`. -/

namespace Medulla.Solve.SearchInvariant

open Library.Checked Programme Verifier Propagate DualAscent
open BranchAndBound Coherence Evaluation Forcing AscentValue
open Recording
open ProofTree hiding Pending

variable {δ : Type} {model : Model δ} {dual : LagrangeDual} {node : Pending} {stack : List Pending}
  {var : VarId}

/-! ### The recorder -/

structure Recorded (model : Model δ) (nodes : List ProofNode) (w : Walker) (r : Recorder) :
    Prop where
  walk : walkFrom model 0 nodes (.start model.variableCount) = .ok w
  kept : r.overflowed = false → r.nodes = nodes
  rows : w.evidence.infeasibilityRows = nodes.flatMap nodeRows
  unbounded : r.minBound = none → w.evidence.boundLeaves = 0 ∧ w.evidence.minBound = none
  bounded : ∀ m, r.minBound = some m → |m| ≤ 2 ^ 126 ∧
    ∃ proven, w.evidence.minBound = some proven ∧ m ≤ proven

section recorder

variable {nodes : List ProofNode} {w w' : Walker} {r : Recorder}

theorem push_fields (r : Recorder) (node : ProofNode) :
    (r.push node).overflowed = r.overflowed ∧ (r.push node).minBound = r.minBound ∧
      (r.overflowed = false → (r.push node).nodes = r.nodes ++ [node]) := by
  unfold Recorder.push
  split_ifs with h
  · exact ⟨rfl, rfl, fun hnot => by rw [h] at hnot; cases hnot⟩
  · exact ⟨rfl, rfl, fun _ => rfl⟩

theorem leaf_fields (r : Recorder) (proof : LeafProof) : (r.leaf proof).minBound = r.minBound ∧
      ((r.leaf proof).overflowed = false →
        r.overflowed = false ∧ (r.leaf proof).nodes = r.nodes ++ [.leaf proof]) := by
  unfold Recorder.leaf
  dsimp only
  split_ifs with h
  · obtain ⟨hover, hmin, -⟩ := push_fields { r with
      leaves := saturatingAdd u32Max r.leaves 1, overflowed := true, nodes := [] } (.leaf proof)
    refine ⟨hmin, fun hnot => ?_⟩
    cases hnot
  · obtain ⟨hover, hmin, hnodes⟩ := push_fields { r with
      leaves := saturatingAdd u32Max r.leaves 1 } (.leaf proof)
    refine ⟨hmin, fun hnot => ?_⟩
    rw [hover] at hnot
    exact ⟨hnot, hnodes hnot⟩

section
variable (h : Recorded model nodes w r) (hopen : w.finished = false)
include h hopen

theorem Recorded.push {node : ProofNode}
    (hvisit : w.visit model nodes.length node = .ok w')
    (hrows : w'.evidence.infeasibilityRows = w.evidence.infeasibilityRows ++ nodeRows node)
    (hbounds : w'.evidence.minBound = w.evidence.minBound ∧
      w'.evidence.boundLeaves = w.evidence.boundLeaves) :
    Recorded model (nodes ++ [node]) w' (r.push node) := by
  obtain ⟨hover, hmin, hnodes⟩ := push_fields r node
  refine ⟨walkFrom_append h.walk hopen (by rwa [Nat.zero_add]), fun hnot => ?_, ?_, ?_, ?_⟩
  · rw [hover] at hnot
    rw [hnodes hnot, h.kept hnot]
  · rw [hrows, h.rows, List.flatMap_append, List.flatMap_singleton]
  · rw [hmin, hbounds.1, hbounds.2]
    exact h.unbounded
  · rw [hmin, hbounds.1]
    exact h.bounded

theorem Recorded.infeasibleLeaf
    (hvisit : w.visit model nodes.length (.leaf (.infeasible dual)) = .ok w')
    (hrows : w'.evidence.infeasibilityRows =
      w.evidence.infeasibilityRows ++ dual.entries.map DualEntry.row)
    (hbounds : w'.evidence.minBound = w.evidence.minBound ∧
      w'.evidence.boundLeaves = w.evidence.boundLeaves) :
    Recorded model (nodes ++ [.leaf (.infeasible dual)]) w' (r.leaf (.infeasible dual)) := by
  obtain ⟨hmin, hnodes⟩ := leaf_fields r (.infeasible dual)
  refine ⟨walkFrom_append h.walk hopen (by rwa [Nat.zero_add]), fun hnot => ?_, ?_, ?_, ?_⟩
  · obtain ⟨hold, heq⟩ := hnodes hnot
    rw [heq, h.kept hold]
  · rw [hrows, h.rows, List.flatMap_append, List.flatMap_singleton]
    rfl
  · rw [hmin, hbounds.1, hbounds.2]
    exact h.unbounded
  · rw [hmin, hbounds.1]
    exact h.bounded

theorem Recorded.boundLeaf
    {value bound : ℤ} (hvisit : w.visit model nodes.length (.leaf (.bound dual)) = .ok w')
    (hevidence : w'.evidence = w.evidence.addBound bound) (hle : value ≤ bound)
    (hmagnitude : |value| ≤ 2 ^ 126) :
    Recorded model (nodes ++ [.leaf (.bound dual)]) w' (r.boundLeaf dual value) := by
  obtain ⟨hmin, hnodes⟩ := leaf_fields
    { r with minBound := some (r.minBound.elim value fun current => min current value) } (.bound dual)
  refine ⟨walkFrom_append h.walk hopen (by rwa [Nat.zero_add]), fun hnot => ?_, ?_, ?_, ?_⟩
  · obtain ⟨hold, heq⟩ := hnodes hnot
    unfold Recorder.boundLeaf
    rw [heq]
    exact congrArg (· ++ [.leaf (.bound dual)]) (h.kept hold)
  · rw [hevidence, List.flatMap_append, ← h.rows]
    exact (List.append_nil _).symm
  · intro hnone
    unfold Recorder.boundLeaf at hnone
    rw [hmin] at hnone
    cases hnone
  · intro m hm
    unfold Recorder.boundLeaf at hm
    rw [hmin] at hm
    rw [hevidence]
    rcases hold : r.minBound with _ | current
    · obtain ⟨-, hnone⟩ := h.unbounded hold
      rw [hold] at hm
      cases hm
      refine ⟨hmagnitude, bound, ?_, hle⟩
      unfold Evidence.addBound
      rw [hnone]
      rfl
    · obtain ⟨hsmall, proven, hproven, hcurrent⟩ := h.bounded current hold
      rw [hold] at hm
      cases hm
      refine ⟨?_, min proven bound, ?_, min_le_min hcurrent hle⟩
      · change |min current value| ≤ 2 ^ 126
        rcases min_choice current value with heq | heq
        · rwa [heq]
        · rwa [heq]
      unfold Evidence.addBound
      rw [hproven]
      rfl

end

end recorder

/-! ### Pending nodes -/

structure Ready (model : Model δ) (root : NodeBound) (trail : Trail) (node : Pending) : Prop where
  depth : trail.length = node.trailLen
  free : ∀ var value, node.fix = some (var, value) →
    var < model.variableCount ∧ var ∉ trail.map Prod.fst
  settled : node.fix ≠ none → ∀ s, Coherent model s trail → ∀ row < model.rows.length,
    isExcluded model s row = false
  certified : ∀ path fixed, Tracks model.variableCount path fixed trail →
    Certifies model (node.parent.getD root).dual (node.parent.getD root).value path

def Stacked (model : Model δ) (root : NodeBound) : Trail → List Pending → Prop
  | _, [] => True
  | trail, node :: rest => Ready model root (trail.take node.trailLen) node ∧
    Stacked model root (trail.take node.trailLen) rest

section pending

variable {root : NodeBound} {trail : Trail}

theorem trailLen_le (h : Ready model root (trail.take node.trailLen) node) :
    node.trailLen ≤ trail.length := by
  have hdepth := h.depth
  rw [List.length_take] at hdepth
  omega

theorem Stacked.append (tail : Trail) : ∀ {stack : List Pending},
    Stacked model root trail stack → Stacked model root (trail ++ tail) stack
  | [], _ => trivial
  | node :: rest, h => by
    have hle := trailLen_le h.1
    rw [Stacked, List.take_append_of_le_length hle]
    exact h

theorem Stacked.of_take {len : ℕ} (h : Stacked model root (trail.take len) stack) :
    Stacked model root trail stack := by
  have hsplit := h.append (trail.drop len)
  rwa [List.take_append_drop] at hsplit

theorem free_iff {path : List (Option Bool)} {fixed : List VarId}
    (h : Tracks model.variableCount path fixed trail) :
    path[var]? = some none ↔ var < model.variableCount ∧ var ∉ trail.map Prod.fst := by
  constructor
  · intro hfree
    refine ⟨by rw [← h.length]; exact (List.getElem?_eq_some_iff.mp hfree).1, fun hmem => ?_⟩
    obtain ⟨p, hp, rfl⟩ := List.mem_map.mp hmem
    have hfixed := (h.values p.1 p.2).mpr hp
    rw [hfree] at hfixed
    cases hfixed
  · rintro ⟨hlt, hnot⟩
    have hin : var < path.length := by rw [h.length]; exact hlt
    rw [List.getElem?_eq_getElem hin]
    rcases hv : path[var] with _ | b
    · rfl
    · have hmem := (h.values var b).mp (by rw [List.getElem?_eq_getElem hin, hv])
      exact absurd (List.mem_map_of_mem (f := Prod.fst) hmem) hnot

end pending

/-! ### The invariant -/

def weight (model : Model δ) (stack : List Pending) : ℕ :=
  (stack.map fun node =>
    2 ^ (model.variableCount + 1 - (node.trailLen + node.fix.toList.length)) - 1).sum

/-- What holds of the search, apart from where its walk stands. -/
structure Sane (model : Model δ) (config : SolverConfigSpec) (s : Search) (trail : Trail)
    (nodes : List ProofNode) (w : Walker) : Prop where
  configured : s.config = config
  coherent : Coherent model s.state trail
  queued : Queued model.rows.length s.queue
  idle : s.queue.rows = []
  stacked : Stacked model s.root trail s.stack
  recorded : Recorded model nodes w s.recorder
  incumbent : ∀ best, s.incumbent = some best → IsIncumbent model best
  closed : s.exhausted = false → ∀ m, s.recorder.minBound = some m →
    ∃ best, s.incumbent = some best ∧ best.2 ≤ m
  spent : s.exhausted = true → s.nodesExpanded = config.nodeBudget ∧
    s.recorder.minBound.isSome = true ∧ config.nodeBudget + 1 < 2 ^ (model.variableCount + 1)
  counted : s.nodesExpanded ≤ config.nodeBudget
  rooms : s.nodesExpanded + weight model s.stack < 2 ^ (model.variableCount + 1)
  root : Certifies model s.root.dual s.root.value (List.replicate model.variableCount none)

/-- The search between two nodes: the walk stands at the top of the stack. -/
def Between (model : Model δ) (config : SolverConfigSpec) (s : Search) : Prop :=
  ∃ trail nodes w, Sane model config s trail nodes w ∧ Follows model trail w s.stack

section steps

variable {config : SolverConfigSpec} {s : Search} {trail : Trail} {nodes : List ProofNode}
  {w : Walker}

theorem evidence_closeFrom {evidence : Evidence} : ∀ (branches : List OpenBranch)
    (path : List (Option Bool)) (fixed : List VarId),
    (Walker.closeFrom path fixed evidence branches).evidence = evidence
  | [], _, _ => rfl
  | branch :: branches, path, fixed => by
    rw [Walker.closeFrom]
    split_ifs
    · exact evidence_closeFrom branches _ _
    · rfl

theorem follows_close (h : StandsAt model trail w stack) (evidence : Evidence) :
    Follows model trail ({ w with evidence := evidence } : Walker).close stack :=
  follows_closeFrom h.tracks h.branches h.waiting

section
variable (hlimits : Limits model) (h : Sane model config s trail nodes w)
include hlimits h

theorem between_boundLeaf {stands : Trail} (hstands : StandsAt model stands w s.stack)
    (htake : ∀ node ∈ s.stack.head?, stands.take node.trailLen = trail.take node.trailLen)
    {value : ℤ} (hcertifies : Certifies model dual value w.path)
    (incumbent : Option (List Bool × ℤ)) (exhausted : Bool)
    (hincumbent : ∀ best, incumbent = some best → IsIncumbent model best)
    (hclosed : exhausted = false → s.exhausted = false ∧ ∃ best, incumbent = some best ∧
      best.2 ≤ value ∧ ∀ old, s.incumbent = some old → best.2 ≤ old.2)
    (hspent : exhausted = true → s.nodesExpanded = config.nodeBudget ∧
      config.nodeBudget + 1 < 2 ^ (model.variableCount + 1)) :
    Between model config { s with
      recorder := s.recorder.boundLeaf dual value
      incumbent := incumbent
      exhausted := exhausted } := by
  have hvisit := visit_bound hlimits hcertifies.shaped
    (by rw [hstands.tracks.length] : w.path.length = model.variableCount) nodes.length
  have hevidence : (boundWalk model w dual).close.evidence =
      w.evidence.addBound (verifiedBound model dual w.path) := evidence_closeFrom _ _ _
  have hrecorded := h.recorded.boundLeaf hstands.unfinished hvisit hevidence hcertifies.le
    hcertifies.magnitude
  have hmin : (s.recorder.boundLeaf dual value).minBound =
      some (s.recorder.minBound.elim value fun current => min current value) :=
    (leaf_fields _ _).1
  refine ⟨trail, nodes ++ [.leaf (.bound dual)], (boundWalk model w dual).close,
    ⟨h.configured, h.coherent, h.queued, h.idle, h.stacked, hrecorded, hincumbent,
      fun hnot m hm => ?_, fun hout => ?_, h.counted, h.rooms, h.root⟩,
    (follows_close hstands _).of_take_eq htake⟩
  · obtain ⟨hold, best, hbest, hvalue, hless⟩ := hclosed hnot
    refine ⟨best, hbest, ?_⟩
    rw [hmin] at hm
    rcases hprev : s.recorder.minBound with _ | current
    · rw [hprev] at hm
      cases hm
      exact hvalue
    · rw [hprev] at hm
      cases hm
      obtain ⟨old, hinc, hle⟩ := h.closed hold current hprev
      exact le_min ((hless old hinc).trans hle) hvalue
  · obtain ⟨hexpanded, hshort⟩ := hspent hout
    rw [hmin]
    exact ⟨hexpanded, rfl, hshort⟩

theorem between_closeInfeasible
    (hstands : StandsAt model trail w s.stack) {row : RowId} (hlt : row < model.rows.length)
    (hexcluded : isExcluded model s.state row = true) :
    Between model config (s.closeInfeasible model row) := by
  have hpath : w.path = s.state.value := (Tracks.path_eq hstands.tracks h.coherent.tracks).1
  have hvisit := visit_infeasible hlimits h.coherent hpath hlt hexcluded nodes.length
  have hevidence : (infeasibleWalk w row).close.evidence = (infeasibleWalk w row).evidence :=
    evidence_closeFrom _ _ _
  have hrecorded := h.recorded.infeasibleLeaf hstands.unfinished hvisit
    (by rw [hevidence]; rfl) (by rw [hevidence]; exact ⟨rfl, rfl⟩)
  have hmin : (s.closeInfeasible model row).recorder.minBound = s.recorder.minBound :=
    (leaf_fields _ _).1
  refine ⟨trail, _, _, ⟨h.configured, h.coherent, h.queued, h.idle, h.stacked, hrecorded, h.incumbent,
    fun hnot m hm => ?_, fun hout => ?_, h.counted, h.rooms, h.root⟩, follows_close hstands _⟩
  · rw [hmin] at hm
    exact h.closed hnot m hm
  · rw [hmin]
    exact h.spent hout

theorem between_closeComplete
    (hstands : StandsAt model trail w s.stack) (hgoing : s.exhausted = false)
    (hsettled : ∀ row < model.rows.length, isExcluded model s.state row = false)
    (hchoose : choose model s.state = .complete) :
    Between model config (s.closeComplete model) := by
  have hpath : w.path = s.state.value := (Tracks.path_eq hstands.tracks h.coherent.tracks).1
  have hprop : Propagated model s.state s.queue trail := ⟨h.coherent, h.queued, h.idle, hsettled⟩
  have hcompletion := isIncumbent_completion hlimits.wellFormed hprop hchoose
  have hcertifies := certifies_completion hlimits h.coherent
  rw [← hpath] at hcertifies
  have hbetween := between_boundLeaf hlimits h hstands (fun _ _ => rfl) hcertifies
    (if s.improves (completion model s.state).2 then some (completion model s.state)
      else s.incumbent) s.exhausted ?_ ?_ ?_
  · exact hbetween
  · intro best hbest
    split_ifs at hbest
    · cases hbest
      exact hcompletion
    · exact h.incumbent best hbest
  · intro _
    refine ⟨hgoing, ?_⟩
    unfold Search.improves
    rcases hinc : s.incumbent with _ | ⟨old, value⟩
    · exact ⟨completion model s.state, rfl, le_refl _, fun _ hold => by cases hold⟩
    · dsimp only
      split_ifs with hless
      · rw [decide_eq_true_eq] at hless
        refine ⟨completion model s.state, rfl, le_refl _, fun o ho => ?_⟩
        cases ho
        exact le_of_lt hless
      · rw [decide_eq_true_eq, not_lt] at hless
        refine ⟨(old, value), rfl, hless, fun o ho => ?_⟩
        cases ho
        exact le_refl _
  · intro hout
    rw [hgoing] at hout
    cases hout

end

theorem weight_boundOrBranch (hcoherent : Coherent model s.state trail) (first : Bool)
    (hfree : s.state.value[var]? = some none) :
    weight model (s.boundOrBranch model var first).stack ≤ weight model s.stack +
      (2 ^ (model.variableCount + 1 - s.state.trail.length) - 2) := by
  have hle := Tracks.length_le (hcoherent.tracks.push hfree true)
  rw [List.length_append, List.length_singleton] at hle
  have hdouble : 2 ^ (model.variableCount + 1 - s.state.trail.length) =
      2 * 2 ^ (model.variableCount + 1 - (s.state.trail.length + 1)) := by
    rw [← pow_succ']
    congr 1
    omega
  unfold Search.boundOrBranch
  dsimp only
  split_ifs
  · exact Nat.le_add_right _ _
  · unfold weight
    simp only [List.map_cons, List.sum_cons, Option.toList_some, List.length_singleton]
    omega

theorem between_boundOrBranch (hlimits : Limits model) (h : Sane model config s trail nodes w)
    (hstands : StandsAt model trail w s.stack) (hgoing : s.exhausted = false)
    (hpos : 1 ≤ config.boundDenominator) (hbound : config.boundDenominator ≤ maxBoundDenominator)
    (hsettled : ∀ row < model.rows.length, isExcluded model s.state row = false) {first : Bool}
    (hchoose : choose model s.state = .branch var first)
    (hrooms : s.nodesExpanded + weight model s.stack +
      (2 ^ (model.variableCount + 1 - s.state.trail.length) - 2) < 2 ^ (model.variableCount + 1)) :
    Between model config (s.boundOrBranch model var first) := by
  have hpath : w.path = s.state.value := (Tracks.path_eq hstands.tracks h.coherent.tracks).1
  have hfixed : w.fixed = s.state.trail := (Tracks.path_eq hstands.tracks h.coherent.tracks).2
  have hcertifies := certifies_dualAscent hlimits h.coherent hpos hbound
  have hfree := free_of_choose hchoose
  unfold Search.boundOrBranch
  rw [h.configured]
  dsimp only
  split_ifs with hpruned
  · have hbetween := between_boundLeaf hlimits h hstands (fun _ _ => rfl) (hpath ▸ hcertifies)
      s.incumbent s.exhausted h.incumbent (fun _ => ⟨hgoing, ?_⟩) fun hout => ?_
    · rw [← h.configured] at hbetween ⊢
      exact hbetween
    · unfold Search.isPruned at hpruned
      rcases hinc : s.incumbent with _ | best
      · rw [hinc] at hpruned
        cases hpruned
      · rw [hinc] at hpruned
        refine ⟨best, rfl, of_decide_eq_true hpruned, fun old hold => ?_⟩
        cases hold
        exact le_refl _
    · rw [hgoing] at hout
      cases hout
  · have hfree' : w.path[var]? = some none := by rw [hpath]; exact hfree
    have hvisit := visit_branch model hfree' nodes.length first
    have hrecorded := h.recorded.push hstands.unfinished hvisit (List.append_nil _).symm ⟨rfl, rfl⟩
    have hmin := (push_fields s.recorder (.branch var first)).2.1
    have hlen : trail.length = s.state.trail.length := by
      rw [h.coherent.tracks.fixed, List.length_map]
    have htake : trail.take s.state.trail.length = trail := by
      rw [← hlen, List.take_length]
    have hready : ∀ value, Ready model s.root trail ⟨s.state.trail.length, some (var, value),
        some (dualAscent model s.state config.boundDenominator)⟩ := by
      intro value
      refine ⟨hlen, fun v b heq => ?_, fun _ s' hs' row hrow => ?_, fun path fixed htracks => ?_⟩
      · cases heq
        exact (free_iff h.coherent.tracks).mp hfree
      · have hspec : model.rows[row]? = some model.rows[row] := List.getElem?_eq_getElem hrow
        rw [isExcluded_eq hlimits.wellFormed hs' hspec,
          (Tracks.path_eq hs'.tracks h.coherent.tracks).1,
          ← isExcluded_eq hlimits.wellFormed h.coherent hspec]
        exact hsettled row hrow
      · rw [(Tracks.path_eq htracks h.coherent.tracks).1]
        exact hcertifies
    refine ⟨trail, _, _, ⟨rfl, h.coherent, h.queued, h.idle, ?_, hrecorded, h.incumbent,
      fun hnot m hm => h.closed hnot m (hmin ▸ hm), fun hout => ?_, h.counted, ?_, h.root⟩, ?_⟩
    · refine ⟨?_, ?_, ?_⟩
      · dsimp only
        rw [htake]
        exact hready first
      · dsimp only
        rw [htake, htake]
        exact hready (!first)
      · dsimp only
        rw [htake, htake]
        exact h.stacked
    · dsimp only at hout
      rw [hgoing] at hout
      cases hout
    · have hweight := weight_boundOrBranch h.coherent first hfree
      unfold Search.boundOrBranch at hweight
      rw [h.configured] at hweight
      rw [if_neg hpruned] at hweight
      dsimp only at hweight ⊢
      omega
    · dsimp only
      rw [Follows]
      have hentry : entryTrail trail ⟨s.state.trail.length, some (var, first),
          some (dualAscent model s.state config.boundDenominator)⟩ = trail ++ [(var, first)] := by
        unfold entryTrail
        rw [htake]
        rfl
      rw [hentry]
      have hcut : (trail ++ [(var, first)]).take w.fixed.length = trail := by
        rw [hfixed, ← hlen, List.take_left']
        rfl
      refine ⟨hstands.unfinished, hstands.tracks.push hfree' first, ⟨?_, ?_⟩, ?_⟩
      · dsimp only
        rw [hfixed, ← hlen]
        simp
      · dsimp only
        rw [hcut]
        exact hstands.branches
      · change Waiting (_ :: w.branches) _
        exact ⟨_, _, rfl, by dsimp only; rw [hfixed], rfl, hstands.waiting⟩

theorem between_closeOpen (hlimits : Limits model) (h : Sane model config s trail nodes w)
    (hready : Ready model s.root (trail.take node.trailLen) node)
    (hstacked : Stacked model s.root (trail.take node.trailLen) s.stack)
    (hstands : StandsAt model (entryTrail trail node) w s.stack)
    (hspent : config.nodeBudget ≤ s.nodesExpanded)
    (hrooms : s.nodesExpanded + 1 < 2 ^ (model.variableCount + 1)) :
    Between model config (s.closeOpen node) := by
  have hexpanded : s.nodesExpanded = config.nodeBudget := le_antisymm h.counted hspent
  have hundone := h.coherent.undoTo node.trailLen
  have hlen : w.path.length = model.variableCount := hstands.tracks.length
  have hextends : Extends (s.state.undoTo model node.trailLen).value w.path := by
    intro j b hj
    refine (hstands.tracks.values j b).mpr ?_
    exact List.mem_append_left _ ((hundone.tracks.values j b).mp hj)
  have hcertifies := (hready.certified _ _ hundone.tracks).below hundone.tracks.length hlen hextends
  refine between_boundLeaf hlimits h hstands (fun top htop => ?_) hcertifies s.incumbent true
    h.incumbent (fun hnot => by cases hnot) fun _ => ⟨hexpanded, by omega⟩
  cases hstack : s.stack with
  | nil =>
    rw [hstack] at htop
    cases htop
  | cons first rest =>
    rw [hstack] at htop hstacked
    cases htop
    have hle := trailLen_le hstacked.1
    unfold entryTrail
    rw [List.take_append_of_le_length hle, List.take_take]
    rw [List.length_take] at hle
    rw [min_eq_left (by omega)]

/-! ### Entering a node -/

theorem enter_spec (h : Sane model config s trail nodes w)
    (hready : Ready model s.root (trail.take node.trailLen) node) :
    Coherent model (s.enter model node).1 (entryTrail trail node) ∧
      Queued model.rows.length (s.enter model node).2 ∧
      SettledBut model ⟨(s.enter model node).1, (s.enter model node).2, []⟩ none := by
  have hundone := h.coherent.undoTo node.trailLen
  unfold Search.enter entryTrail
  rcases hfix : node.fix with _ | ⟨var, value⟩
  · rw [Option.toList_none, List.append_nil]
    exact ⟨hundone, h.queued.pushAll.1, settledBut_pushAll h.queued⟩
  · have hfree := (free_iff hundone.tracks).mpr (hready.free var value hfix)
    have hsettled := hready.settled (by rw [hfix]; simp) _ hundone
    have hprop : Propagated model (s.state.undoTo model node.trailLen) s.queue
        (trail.take node.trailLen) := ⟨hundone, h.queued, h.idle, hsettled⟩
    obtain ⟨hqueued, hbut⟩ := settledBut_fixAndQueue hprop hfree value
    exact ⟨hundone.fix hfree value, hqueued, hbut⟩

theorem recorded_forced : ∀ {forced : List Forcing} {trail : Trail}
    {nodes : List ProofNode} {w : Walker} {r : Recorder}, Recorded model nodes w r →
    StandsAt model trail w stack → AllAccepted model w.path forced →
    ∃ nodes' w', Recorded model nodes' w' (forced.foldl Recorder.forced r) ∧
      StandsAt model (trail ++ forcedTrail forced) w' stack
  | [], trail, nodes, w, r, h, hstands, _ => by
    refine ⟨nodes, w, h, ?_⟩
    unfold forcedTrail
    rw [List.map_nil, List.append_nil]
    exact hstands
  | f :: forced, trail, nodes, w, r, h, hstands, haccepted => by
    have hvisit := visit_forced haccepted.1 nodes.length
    have hpush := h.push hstands.unfinished hvisit rfl ⟨rfl, rfl⟩
    have hnext : StandsAt model (trail ++ [(f.var, f.value)]) (forcedWalk w f) stack :=
      ⟨hstands.unfinished, hstands.tracks.push haccepted.1.1 f.value, hstands.branches.append _,
        hstands.waiting⟩
    obtain ⟨nodes', w', hrecorded, hlast⟩ := recorded_forced hpush hnext haccepted.2
    refine ⟨nodes', w', hrecorded, ?_⟩
    unfold forcedTrail at hlast ⊢
    rw [List.map_cons, List.append_cons]
    exact hlast

theorem minBound_forced : ∀ (forced : List Forcing) (r : Recorder),
    (forced.foldl Recorder.forced r).minBound = r.minBound
  | [], _ => rfl
  | f :: forced, r => by
    rw [List.foldl_cons, minBound_forced forced]
    exact (push_fields r _).2.1

/-! ### One node -/

theorem weight_cons (node : Pending) (stack : List Pending) : weight model (node :: stack) =
      2 ^ (model.variableCount + 1 - (node.trailLen + node.fix.toList.length)) - 1 +
        weight model stack := by
  unfold weight
  rw [List.map_cons, List.sum_cons]

theorem depth_le (hcoherent : Coherent model s.state trail)
    (hready : Ready model s.root (trail.take node.trailLen) node) :
    node.trailLen + node.fix.toList.length ≤ model.variableCount := by
  have hundone := hcoherent.undoTo node.trailLen
  have hlen : (s.state.undoTo model node.trailLen).trail.length = node.trailLen := by
    rw [hundone.tracks.fixed, List.length_map, hready.depth]
  rcases hfix : node.fix with _ | ⟨var, value⟩
  · have hle := Tracks.length_le hundone.tracks
    rw [hlen] at hle
    simpa using hle
  · have hfree := (free_iff hundone.tracks).mpr (hready.free var value hfix)
    have hle := Tracks.length_le (hundone.tracks.push hfree value)
    rw [List.length_append, hlen] at hle
    simpa using hle

theorem between_expand (hlimits : Limits model) (hpos : 1 ≤ config.boundDenominator)
    (hbound : config.boundDenominator ≤ maxBoundDenominator) (h : Sane model config s trail nodes w)
    (hgoing : s.exhausted = false) (hready : Ready model s.root (trail.take node.trailLen) node)
    (hstacked : Stacked model s.root (trail.take node.trailLen) s.stack)
    (hstands : StandsAt model (entryTrail trail node) w s.stack)
    (hrooms : s.nodesExpanded + weight model s.stack +
      (2 ^ (model.variableCount + 1 - (node.trailLen + node.fix.toList.length)) - 2) <
        2 ^ (model.variableCount + 1)) :
    Between model config (s.expand model node) ∧
      weight model (s.expand model node).stack ≤ weight model s.stack +
        (2 ^ (model.variableCount + 1 - (node.trailLen + node.fix.toList.length)) - 2) := by
  obtain ⟨hcoherent, hqueued, hbut⟩ := enter_spec h hready
  have hwpath : w.path = (s.enter model node).1.value :=
    (Tracks.path_eq hstands.tracks hcoherent.tracks).1
  unfold Search.expand
  dsimp only
  rcases hp : propagate model (s.enter model node).1 (s.enter model node).2 with ⟨p, out⟩
  obtain ⟨hreached, hidle, hnone, hsome⟩ :=
    propagate_spec hlimits.wellFormed hlimits.distinct hcoherent hqueued hbut hp
  obtain ⟨nodes', w', hrecorded, hnext⟩ :=
    recorded_forced h.recorded hstands (hwpath ▸ hreached.accepted)
  have hmin := minBound_forced p.forced s.recorder
  have hsane : Sane model config { s with
      state := p.state
      queue := p.queue
      recorder := p.forced.foldl Recorder.forced s.recorder }
      (entryTrail trail node ++ forcedTrail p.forced) nodes' w' :=
    ⟨h.configured, hreached.coherent, hreached.queued, hidle, (hstacked.append _).append _, hrecorded,
      h.incumbent, fun hnot m hm => h.closed hnot m (hmin ▸ hm),
      fun hex => absurd hex (by simp [hgoing]), h.counted, h.rooms, h.root⟩
  rcases out with _ | row
  · rcases hchoose : choose model p.state with _ | ⟨var, first⟩
    · exact ⟨between_closeComplete hlimits hsane hnext hgoing (hnone rfl) hchoose,
        Nat.le_add_right _ _⟩
    · have hlen : node.trailLen + node.fix.toList.length ≤ p.state.trail.length := by
        rw [hreached.coherent.tracks.fixed, List.length_map, List.length_append]
        unfold entryTrail
        rw [List.length_append, hready.depth]
        omega
      have hmono : 2 ^ (model.variableCount + 1 - p.state.trail.length) ≤
          2 ^ (model.variableCount + 1 - (node.trailLen + node.fix.toList.length)) :=
        Nat.pow_le_pow_right (by omega) (by omega)
      refine ⟨between_boundOrBranch hlimits hsane hnext hgoing hpos hbound (hnone rfl) hchoose
        (by dsimp only; omega), ?_⟩
      have hweight := weight_boundOrBranch hsane.coherent first (free_of_choose hchoose)
      dsimp only at hweight
      exact hweight.trans (by omega)
  · obtain ⟨hlt, hexcluded⟩ := hsome row rfl
    exact ⟨between_closeInfeasible hlimits hsane hnext hlt hexcluded, Nat.le_add_right _ _⟩

/-- **One node**: the search stands between two nodes again. -/
theorem between_step (hlimits : Limits model) (hpos : 1 ≤ config.boundDenominator)
    (hbound : config.boundDenominator ≤ maxBoundDenominator) (h : Between model config s)
    {rest : List Pending} (hstack : s.stack = node :: rest) :
    Between model config ({ s with stack := rest }.step model node) ∧
      weight model ({ s with stack := rest }.step model node).stack < weight model s.stack := by
  obtain ⟨trail, nodes, w, hsane, hfollows⟩ := h
  obtain rfl := hsane.configured
  rw [hstack] at hfollows
  have hstacked := hsane.stacked
  rw [hstack] at hstacked
  obtain ⟨hready, hrest⟩ := hstacked
  have hrooms := hsane.rooms
  rw [hstack, weight_cons] at hrooms ⊢
  have hdepth := depth_le hsane.coherent hready
  have hpower : 2 ≤ 2 ^ (model.variableCount + 1 - (node.trailLen + node.fix.toList.length)) := by
    calc 2 = 2 ^ 1 := rfl
      _ ≤ _ := Nat.pow_le_pow_right (by omega) (by omega)
  unfold Search.step
  split_ifs with hspent
  · have hpopped : Sane model s.config { s with stack := rest } trail nodes w :=
      ⟨rfl, hsane.coherent, hsane.queued, hsane.idle, hrest.of_take, hsane.recorded,
        hsane.incumbent, hsane.closed, hsane.spent, hsane.counted, by dsimp only; omega, hsane.root⟩
    refine ⟨between_closeOpen hlimits hpopped hready hrest hfollows hspent ?_, ?_⟩
    · dsimp only
      omega
    · change weight model rest < _
      omega
  · dsimp only at hspent
    have hgoing : s.exhausted = false := by
      by_contra hex
      have := (hsane.spent (by simpa using hex)).1
      omega
    have hstarted : Sane model s.config
        { s with stack := rest, nodesExpanded := s.nodesExpanded + 1 } trail nodes w :=
      ⟨rfl, hsane.coherent, hsane.queued, hsane.idle, hrest.of_take, hsane.recorded,
        hsane.incumbent, hsane.closed, fun hex => absurd hex (by simp [hgoing]),
        by dsimp only; omega, by dsimp only; omega, hsane.root⟩
    obtain ⟨hbetween, hweight⟩ :=
      between_expand hlimits hpos hbound hstarted hgoing hready hrest hfollows (by dsimp only; omega)
    refine ⟨hbetween, lt_of_le_of_lt hweight ?_⟩
    dsimp only
    omega

/-! ### Whole runs -/

/-- **A whole run** ends with an empty stack, and keeps the invariant. -/
theorem between_runFrom (hlimits : Limits model) (hpos : 1 ≤ config.boundDenominator)
    (hbound : config.boundDenominator ≤ maxBoundDenominator) : ∀ {fuel : ℕ} {s : Search},
    Between model config s → weight model s.stack ≤ fuel →
    Between model config (s.runFrom model fuel) ∧ (s.runFrom model fuel).stack = []
  | 0, s, h, hfuel => by
    refine ⟨h, ?_⟩
    change s.stack = []
    rcases hstack : s.stack with _ | ⟨node, rest⟩
    · rfl
    · have hless := (between_step hlimits hpos hbound h hstack).2
      omega
  | fuel + 1, s, h, hfuel => by
    rw [Search.runFrom]
    rcases hstack : s.stack with _ | ⟨node, rest⟩
    · exact ⟨h, hstack⟩
    · obtain ⟨hbetween, hless⟩ := between_step hlimits hpos hbound h hstack
      exact between_runFrom hlimits hpos hbound hbetween (by omega)

theorem between_new (hlimits : Limits model) (hpos : 1 ≤ config.boundDenominator)
    (hbound : config.boundDenominator ≤ maxBoundDenominator) :
    Between model config (.new model config) := by
  have hcoherent := coherent_new hlimits.wellFormed
  have hroot := certifies_dualAscent hlimits hcoherent hpos hbound
  have hrecorded : Recorded model [] (.start model.variableCount)
      (.new config.maxCertificateLeaves) :=
    ⟨rfl, fun _ => rfl, rfl, fun _ => ⟨rfl, rfl⟩, fun m hm => by cases hm⟩
  have hready : Ready model (Search.new model config).root [] ⟨0, none, none⟩ := by
    refine ⟨rfl, fun _ _ heq => (by cases heq), fun hne => absurd rfl hne, fun path fixed h => ?_⟩
    rw [(Tracks.path_eq h (tracks_start _)).1]
    exact hroot
  have hweight : weight model [⟨0, none, none⟩] < 2 ^ (model.variableCount + 1) := by
    unfold weight
    simp
  refine ⟨[], [], .start model.variableCount, ⟨rfl, hcoherent, queued_new _, rfl, ⟨hready, trivial⟩,
    hrecorded, fun best hbest => isIncumbent_greedy hlimits.wellFormed hlimits.distinct hbest,
    fun _ m hm => (by cases hm), fun hex => (by cases hex), Nat.zero_le _, ?_, hroot⟩, ?_⟩
  · change 0 + weight model [⟨0, none, none⟩] < _
    omega
  · exact ⟨rfl, tracks_start _, trivial, rfl⟩

theorem finished_run (hlimits : Limits model) (hpos : 1 ≤ config.boundDenominator)
    (hbound : config.boundDenominator ≤ maxBoundDenominator) :
    ∃ trail nodes w, Sane model config ((Search.new model config).run model) trail nodes w ∧
      w.finished = true := by
  have hnew := between_new hlimits hpos hbound
  have hweight : weight model (Search.new model config).stack ≤ Search.rounds model := by
    obtain ⟨trail, nodes, w, hsane, -⟩ := hnew
    have hrooms := hsane.rooms
    unfold Search.rounds
    omega
  obtain ⟨⟨trail, nodes, w, hsane, hfollows⟩, hempty⟩ :=
    between_runFrom hlimits hpos hbound hnew hweight
  refine ⟨trail, nodes, w, hsane, ?_⟩
  rw [hempty] at hfollows
  exact hfollows

end steps

end Medulla.Solve.SearchInvariant
