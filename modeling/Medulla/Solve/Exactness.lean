import Medulla.Solve.SearchInvariant

/-! # The solver is exact, and its certificates verify

What the status says of optimality or infeasibility is true, and a budget that is large enough always
decides.

* the results: `solve_verifies`, `solve_exact`. -/

namespace Medulla.Solve.Exactness

open Library.Checked Programme Verifier Bounds Soundness
open BranchAndBound Evaluation Forcing Recording SearchInvariant
open ProofTree hiding Pending

variable {δ : Type} {model : Model δ} {x : List Bool} {best : List Bool × ℤ}
  {found : Evidence × Bool} {m : ℤ}

/-! ### Accepted configurations -/

theorem denominator_of_check {config : SolverConfigSpec} (h : config.check = .ok ()) :
    1 ≤ config.boundDenominator ∧ config.boundDenominator ≤ maxBoundDenominator := by
  obtain ⟨_, _, h⟩ := unbind h
  obtain ⟨_, _, h⟩ := unbind h
  obtain ⟨_, hdenominator, _⟩ := unbind h
  rw [rejectIf_eq_ok, not_not] at hdenominator
  exact hdenominator

/-! ### A finished search -/

/-- A search that has run: its trace, and what the verifier's walk found in it. -/
structure Finished (model : Model δ) (config : SolverConfigSpec) (s : Search)
    (nodes : List ProofNode) (evidence : Evidence) : Prop where
  configured : s.config = config
  walk : walk model nodes = .ok evidence
  kept : s.recorder.overflowed = false → s.recorder.nodes = nodes
  core : evidence.infeasibilityRows = coreRows nodes
  unbounded : s.recorder.minBound = none → evidence.boundLeaves = 0
  bounded : ∀ m, s.recorder.minBound = some m → |m| ≤ 2 ^ 126 ∧
    ∃ proven, evidence.minBound = some proven ∧ m ≤ proven
  incumbent : ∀ best, s.incumbent = some best → IsIncumbent model best
  closed : s.exhausted = false → ∀ m, s.recorder.minBound = some m →
    ∃ best, s.incumbent = some best ∧ best.2 ≤ m
  spent : s.exhausted = true → s.nodesExpanded = config.nodeBudget ∧
    s.recorder.minBound.isSome = true ∧ config.nodeBudget + 1 < 2 ^ (model.variableCount + 1)
  counted : s.nodesExpanded ≤ config.nodeBudget
  root : Certifies model s.root.dual s.root.value (List.replicate model.variableCount none)

theorem finished_of_check (hlimits : Limits model) {config : SolverConfigSpec}
    (h : config.check = .ok ()) :
    ∃ nodes evidence, Finished model config ((Search.new model config).run model) nodes evidence := by
  obtain ⟨hpos, hbound⟩ := denominator_of_check h
  obtain ⟨trail, nodes, w, hsane, hfinished⟩ := finished_run hlimits hpos hbound
  let evidence : Evidence := { w.evidence with
    infeasibilityRows := dedupAdjacent (w.evidence.infeasibilityRows.insertionSort (· ≤ ·)) }
  refine ⟨nodes, evidence, hsane.configured, bind_eq_ok.mpr ⟨w, hsane.recorded.walk, ?_⟩,
    hsane.recorded.kept, ?_, fun hnone => (hsane.recorded.unbounded hnone).1, hsane.recorded.bounded,
    hsane.incumbent, hsane.closed, hsane.spent, hsane.counted, hsane.root⟩
  · exact bind_eq_ok.mpr ⟨(), rejectIf_eq_ok.mpr (by simp [hfinished]), rfl⟩
  · unfold coreRows
    rw [← hsane.recorded.rows]

section finished

variable {config : SolverConfigSpec} {s : Search} {nodes : List ProofNode} {evidence : Evidence}

section
variable (hlimits : Limits model) (h : Finished model config s nodes evidence)
include hlimits h

theorem Finished.reaches (hx : Feasible model x) : ∃ m proven, s.recorder.minBound = some m ∧
      evidence.minBound = some proven ∧ m ≤ proven ∧ proven ≤ scalarValue model.weights x := by
  rcases walk_covers hlimits.wellFormed h.walk hx.1 with ⟨r, -, row, hrow, hviolated⟩ | ⟨hne, hle⟩
  · exact absurd (hx.2 row (List.mem_of_getElem? hrow)) hviolated
  · obtain ⟨proven, hproven, hbelow⟩ := hle hx.2
    rcases hmin : s.recorder.minBound with _ | m
    · exact absurd (h.unbounded hmin) hne
    · obtain ⟨-, proven', hproven', hm⟩ := h.bounded m hmin
      rw [hproven] at hproven'
      cases hproven'
      exact ⟨m, proven, rfl, hproven, hm, hbelow⟩

theorem Finished.optimal
    (hgoing : s.exhausted = false) (hbest : s.incumbent = some best) (hx : Feasible model x) :
    best.2 ≤ scalarValue model.weights x := by
  obtain ⟨m, proven, hmin, -, hm, hbelow⟩ := h.reaches hlimits hx
  obtain ⟨best', hbest', hle⟩ := h.closed hgoing m hmin
  rw [hbest] at hbest'
  cases hbest'
  omega

theorem Finished.infeasible
    (hgoing : s.exhausted = false) (hnone : s.incumbent = none) (x : List Bool) :
    ¬ Feasible model x := by
  intro hx
  obtain ⟨m, proven, hmin, -, -, -⟩ := h.reaches hlimits hx
  obtain ⟨best, hbest, -⟩ := h.closed hgoing m hmin
  rw [hnone] at hbest
  cases hbest

/-! ### The incumbent -/

end

theorem checkRows_of_satisfies {selected : List Bool} : ∀ {rows : List Row} {index : ℕ},
    (∀ row ∈ rows, Satisfies row selected) → checkRows selected index rows = .ok ()
  | [], _, _ => rfl
  | row :: rows, index, h => by
    have hrow : holds row.relation (leftHandSide row selected) row.rhs = true :=
      h row (.head _)
    rw [checkRows, if_pos hrow]
    exact checkRows_of_satisfies fun r hr => h r (.tail _ hr)

theorem Finished.certified (h : Finished model config s nodes evidence)
    (hbest : s.incumbent = some best) :
    ∃ objective, model.objectiveValue best.1 = some objective ∧ objective.scalar = best.2 ∧
      (s.finish model).incumbent = some ⟨best.1, objective⟩ := by
  obtain ⟨hfeasible, hvalue⟩ := h.incumbent best hbest
  have hobjective : model.objectiveValue best.1 = some ⟨model.spec.objective.map fun level =>
      levelValue level best.1, scalarValue model.weights best.1⟩ := if_pos hfeasible.1
  refine ⟨_, hobjective, hvalue.symm, ?_⟩
  unfold Search.finish
  rw [hbest]
  dsimp only [Option.bind_some]
  rw [hobjective]
  rfl

theorem Finished.incumbentValue (h : Finished model config s nodes evidence) :
    Verifier.incumbentValue model (s.finish model).incumbent = .ok (s.incumbent.map Prod.snd) := by
  rcases hbest : s.incumbent with _ | best
  · unfold Search.finish
    rw [hbest]
    rfl
  · obtain ⟨objective, hobjective, hscalar, hincumbent⟩ := h.certified hbest
    obtain ⟨hfeasible, -⟩ := h.incumbent best hbest
    rw [hincumbent]
    refine bind_eq_ok.mpr ⟨best.2, ?_, rfl⟩
    refine bind_eq_ok.mpr ⟨(), ?_, ?_⟩
    · unfold checkSelection
      rw [if_neg (not_not.mpr hfeasible.1)]
      exact checkRows_of_satisfies hfeasible.2
    · dsimp only
      rw [hobjective]
      dsimp only
      rw [if_pos rfl, hscalar]

/-! ### The evidence of the proof -/

structure Evident (model : Model δ) (s : Search) (found : Evidence × Bool) : Prop where
  tree : found.2 = s.recorder.intoTree.isSome
  supported : ∀ m, s.established.lowerBound = some m → |m| ≤ 2 ^ 126 ∧
    ∃ proven, found.1.minBound = some proven ∧ m ≤ proven

theorem Finished.proofEvidence (hlimits : Limits model) (h : Finished model config s nodes evidence) :
    ∃ found, Verifier.proofEvidence model (s.finish model).proof = .ok found ∧
      Evident model s found ∧ (s.recorder.overflowed = false → found.1 = evidence) := by
  cases hover : s.recorder.overflowed with
  | false =>
    have htree : s.recorder.intoTree = some nodes := by
      unfold Recorder.intoTree
      rw [hover, h.kept hover]
      rfl
    refine ⟨(evidence, true), ?_, ⟨by rw [htree]; rfl, fun m hm => ?_⟩, fun _ => rfl⟩
    · unfold Search.finish
      rw [htree]
      exact bind_eq_ok.mpr ⟨evidence, h.walk, rfl⟩
    · unfold Search.established at hm
      rw [htree] at hm
      exact h.bounded m hm
  | true =>
    have htree : s.recorder.intoTree = none := by
      unfold Recorder.intoTree
      rw [hover]
      rfl
    refine ⟨(Evidence.empty.addBound (verifiedBound model s.root.dual
      (List.replicate model.variableCount none)), false), ?_, ⟨by rw [htree]; rfl, fun m hm => ?_⟩,
      fun hnot => by cases hnot⟩
    · unfold Search.finish
      rw [htree]
      refine bind_eq_ok.mpr ⟨_, ?_, rfl⟩
      exact bind_eq_ok.mpr ⟨_, scaledLagrangian_evaluates hlimits h.root.shaped
        List.length_replicate .objective 0, rfl⟩
    · unfold Search.established at hm
      rw [htree] at hm
      cases hm
      exact ⟨h.root.magnitude, _, rfl, h.root.le⟩

/-! ### The verdict -/

theorem supportedBound_of_evident (hfound : Evident model s found)
    (hm : s.established.lowerBound = some m) (incumbent : Option ℤ) :
    supportedBound (some m) ⟨incumbent, found.1, found.2⟩ = .ok m := by
  obtain ⟨-, proven, hproven, hle⟩ := hfound.supported m hm
  refine bind_eq_ok.mpr ⟨m, rfl, ?_⟩
  refine bind_eq_ok.mpr ⟨proven, orReject_eq_ok.mpr hproven, ?_⟩
  exact bind_eq_ok.mpr ⟨(), requireStatus_eq_ok.mpr hle, rfl⟩

theorem optimal_of_le {found : Evidence} {tree : Bool} {best proven : ℤ}
    (hproven : found.minBound = some proven) (hle : best ≤ proven) :
    Verifier.optimal (some best) ⟨some best, found, tree⟩ = .ok (.provenOptimal best) := by
  refine bind_eq_ok.mpr ⟨best, rfl, ?_⟩
  refine bind_eq_ok.mpr ⟨proven, orReject_eq_ok.mpr hproven, ?_⟩
  refine bind_eq_ok.mpr ⟨(), requireStatus_eq_ok.mpr hle, ?_⟩
  exact bind_eq_ok.mpr ⟨(), requireStatus_eq_ok.mpr rfl, rfl⟩

theorem abs_scalarValue_le : ∀ (weights : List ℤ) (x : List Bool),
    |scalarValue weights x| ≤ mass weights
  | [], x => by simp [mass]
  | w :: weights, [] => by
    have h := mass_nonneg (w :: weights)
    simpa [scalarValue] using h
  | w :: weights, b :: x => by
    have ih := abs_scalarValue_le weights x
    have hadd := abs_add_le (if b then w else 0) (scalarValue weights x)
    have hfirst : |if b then w else 0| ≤ |w| := by
      cases b
      · simp
      · simp
    rw [scalarValue_cons, mass_cons]
    omega

theorem checkedI128_gap (hlimits : Limits model) (h : Finished model config s nodes evidence)
    (hbest : s.incumbent = some best) (hm : |m| ≤ 2 ^ 126) :
    checkedI128 (best.2 - m) = some (best.2 - m) := by
  refine checkedI128_of_abs ?_
  have hvalue := abs_scalarValue_le model.weights best.1
  rw [← (h.incumbent best hbest).2] at hvalue
  have hmass : mass model.weights ≤ 2 ^ 100 := hlimits.weights
  have hsub := abs_sub best.2 m
  linarith

theorem judge_exhaustedFeasible (hlimits : Limits model)
    (h : Finished model config s nodes evidence) (hfound : Evident model s found)
    (hspent : s.exhausted = true) (hbest : s.incumbent = some best)
    (hclassify : classify s.established = exhaustedFeasible best.2 s.established) :
    ∃ verdict, judge (s.finish model) ⟨some best.2, found.1, found.2⟩ = .ok verdict := by
  obtain ⟨hexpanded, -, -⟩ := h.spent hspent
  have hstatus : (s.finish model).status = (exhaustedFeasible best.2 s.established).1 :=
    congrArg Prod.fst hclassify
  have hlower : (s.finish model).lowerBound = (exhaustedFeasible best.2 s.established).2 :=
    congrArg Prod.snd hclassify
  have hnodes : (s.finish model).nodesExpanded = (s.finish model).config.nodeBudget := by
    change s.nodesExpanded = s.config.nodeBudget
    rw [h.configured, hexpanded]
  unfold exhaustedFeasible at hstatus hlower
  rcases hm : s.established.lowerBound with _ | m
  · rw [hm] at hstatus hlower
    refine ⟨.unresolved (some best.2) none, ?_⟩
    unfold judge
    rw [hstatus, hlower]
    refine bind_eq_ok.mpr ⟨(), requireStatus_eq_ok.mpr hnodes, ?_⟩
    exact bind_eq_ok.mpr ⟨none, rfl, bind_eq_ok.mpr ⟨(), rfl, rfl⟩⟩
  · rw [hm] at hstatus hlower
    dsimp only at hstatus hlower
    obtain ⟨hsmall, proven, hproven, hle⟩ := hfound.supported m hm
    have hsupported := supportedBound_of_evident hfound hm (some best.2)
    have hgap := checkedI128_gap hlimits h hbest hsmall
    unfold judge
    by_cases hzero : best.2 - m ≤ 0
    · rw [if_pos hzero] at hstatus hlower
      rw [hstatus, hlower]
      exact ⟨_, optimal_of_le hproven (by omega)⟩
    · rw [if_neg hzero] at hstatus hlower
      by_cases haccepted : best.2 - m ≤ s.established.acceptedGap
      · rw [if_pos haccepted] at hstatus hlower
        rw [hstatus]
        refine ⟨.provenGap best.2 m, bind_eq_ok.mpr ⟨(), requireStatus_eq_ok.mpr hnodes, ?_⟩⟩
        refine bind_eq_ok.mpr ⟨best.2, rfl, ?_⟩
        refine bind_eq_ok.mpr ⟨m, by rw [hlower]; exact hsupported, ?_⟩
        refine bind_eq_ok.mpr ⟨(), requireStatus_eq_ok.mpr ⟨not_le.mp hzero, hgap⟩, ?_⟩
        exact bind_eq_ok.mpr ⟨(), requireStatus_eq_ok.mpr haccepted, rfl⟩
      · rw [if_neg haccepted] at hstatus hlower
        rw [hstatus, hlower]
        refine ⟨.unresolved (some best.2) (some m),
          bind_eq_ok.mpr ⟨(), requireStatus_eq_ok.mpr hnodes, ?_⟩⟩
        refine bind_eq_ok.mpr ⟨some m, bind_eq_ok.mpr ⟨m, hsupported, rfl⟩, ?_⟩
        refine bind_eq_ok.mpr ⟨(), requireStatus_eq_ok.mpr ?_, rfl⟩
        rw [hgap]
        exact not_le.mp haccepted

theorem judge_exhausted (h : Finished model config s nodes evidence)
    (hfound : Evident model s found) (hspent : s.exhausted = true)
    (hclassify : classify s.established = (.budgetExhausted, s.established.lowerBound)) :
    ∃ verdict, judge (s.finish model) ⟨none, found.1, found.2⟩ = .ok verdict := by
  obtain ⟨hexpanded, -, -⟩ := h.spent hspent
  have hstatus : (s.finish model).status = .budgetExhausted := congrArg Prod.fst hclassify
  have hlower : (s.finish model).lowerBound = s.established.lowerBound :=
    congrArg Prod.snd hclassify
  have hnodes : (s.finish model).nodesExpanded = (s.finish model).config.nodeBudget := by
    change s.nodesExpanded = s.config.nodeBudget
    rw [h.configured, hexpanded]
  unfold judge
  rw [hstatus, hlower]
  rcases hm : s.established.lowerBound with _ | m
  · refine ⟨.unresolved none none, bind_eq_ok.mpr ⟨(), requireStatus_eq_ok.mpr hnodes, ?_⟩⟩
    exact bind_eq_ok.mpr ⟨none, rfl, bind_eq_ok.mpr ⟨(), rfl, rfl⟩⟩
  · refine ⟨.unresolved none (some m), bind_eq_ok.mpr ⟨(), requireStatus_eq_ok.mpr hnodes, ?_⟩⟩
    refine bind_eq_ok.mpr ⟨some m, bind_eq_ok.mpr ⟨m, supportedBound_of_evident hfound hm none, rfl⟩,
      ?_⟩
    exact bind_eq_ok.mpr ⟨(), rfl, rfl⟩

theorem judge_completedFeasible (hlimits : Limits model)
    (h : Finished model config s nodes evidence) (hfound : Evident model s found)
    (htree : s.recorder.overflowed = false → found.1 = evidence) (hgoing : s.exhausted = false)
    (hbest : s.incumbent = some best)
    (hclassify : classify s.established = completedFeasible best.2 s.established) :
    ∃ verdict, judge (s.finish model) ⟨some best.2, found.1, found.2⟩ = .ok verdict := by
  have hstatus : (s.finish model).status = (completedFeasible best.2 s.established).1 :=
    congrArg Prod.fst hclassify
  have hlower : (s.finish model).lowerBound = (completedFeasible best.2 s.established).2 :=
    congrArg Prod.snd hclassify
  unfold completedFeasible at hstatus hlower
  unfold judge
  by_cases hproved : s.established.treeCore.isSome = true ∨
      s.established.lowerBound.any (fun bound => decide (best.2 ≤ bound)) = true
  · rw [if_pos hproved] at hstatus hlower
    rw [hstatus, hlower]
    rcases hproved with hcore | hcloses
    · have hover : s.recorder.overflowed = false := by
        by_contra hnot
        unfold Search.established Recorder.intoTree at hcore
        dsimp only at hcore
        rw [if_pos (by simpa using hnot)] at hcore
        cases hcore
      obtain ⟨m, proven, hmin, hproven, hm, -⟩ := h.reaches hlimits (h.incumbent best hbest).1
      obtain ⟨best', hbest', hle⟩ := h.closed hgoing m hmin
      rw [hbest] at hbest'
      cases hbest'
      rw [htree hover]
      exact ⟨_, optimal_of_le hproven (by omega)⟩
    · obtain ⟨m, hm, hle⟩ := (Option.any_eq_true _ _).mp hcloses
      rw [decide_eq_true_eq] at hle
      obtain ⟨-, proven, hproven, hmle⟩ := hfound.supported m hm
      exact ⟨_, optimal_of_le hproven (by omega)⟩
  · rw [if_neg hproved] at hstatus hlower
    rw [not_or] at hproved
    have hroot : s.recorder.intoTree = none := by
      have hcore := hproved.1
      unfold Search.established at hcore
      simpa using hcore
    have hm : s.established.lowerBound = some s.root.value := by
      unfold Search.established
      rw [hroot, if_neg (by simp)]
    rw [hstatus, hlower, hm]
    refine ⟨.optimalityRequiresReplay best.2 s.root.value,
      bind_eq_ok.mpr ⟨(), requireStatus_eq_ok.mpr rfl, ?_⟩⟩
    refine bind_eq_ok.mpr ⟨(), requireStatus_eq_ok.mpr (by rw [hfound.tree, hroot]; rfl), ?_⟩
    refine bind_eq_ok.mpr ⟨best.2, rfl, ?_⟩
    refine bind_eq_ok.mpr ⟨s.root.value, supportedBound_of_evident hfound hm (some best.2), ?_⟩
    refine bind_eq_ok.mpr ⟨(), requireStatus_eq_ok.mpr ?_, rfl⟩
    have hless := hproved.2
    rw [hm, Option.any_some, decide_eq_true_eq] at hless
    omega

theorem judge_completedInfeasible (h : Finished model config s nodes evidence)
    (hfound : Evident model s found) (htree : s.recorder.overflowed = false → found.1 = evidence)
    (hgoing : s.exhausted = false) (hnone : s.incumbent = none)
    (hclassify : classify s.established = completedInfeasible s.established) :
    ∃ verdict, judge (s.finish model) ⟨none, found.1, found.2⟩ = .ok verdict := by
  have hstatus : (s.finish model).status = (completedInfeasible s.established).1 :=
    congrArg Prod.fst hclassify
  have hlower : (s.finish model).lowerBound = (completedInfeasible s.established).2 :=
    congrArg Prod.snd hclassify
  unfold completedInfeasible at hstatus hlower
  unfold judge
  cases hover : s.recorder.overflowed with
  | false =>
    have hkept : s.recorder.intoTree = some nodes := by
      unfold Recorder.intoTree
      rw [hover, h.kept hover]
      rfl
    have hcore : s.established.treeCore = some (coreRows nodes) := by
      unfold Search.established
      rw [hkept]
      rfl
    have hmin : s.recorder.minBound = none := by
      rcases hm : s.recorder.minBound with _ | m
      · rfl
      · obtain ⟨best, hbest, -⟩ := h.closed hgoing m hm
        rw [hnone] at hbest
        cases hbest
    rw [hcore] at hstatus hlower
    rw [hstatus, hlower, htree hover]
    refine ⟨.provenInfeasible (coreRows nodes), bind_eq_ok.mpr ⟨(),
      bind_eq_ok.mpr ⟨(), requireStatus_eq_ok.mpr rfl, requireStatus_eq_ok.mpr rfl⟩, ?_⟩⟩
    refine bind_eq_ok.mpr ⟨(), requireStatus_eq_ok.mpr (by rw [hfound.tree, hkept]; rfl), ?_⟩
    refine bind_eq_ok.mpr ⟨(), requireStatus_eq_ok.mpr (h.unbounded hmin), ?_⟩
    exact bind_eq_ok.mpr ⟨(), requireStatus_eq_ok.mpr h.core.symm, rfl⟩
  | true =>
    have hroot : s.recorder.intoTree = none := by
      unfold Recorder.intoTree
      rw [hover]
      rfl
    have hcore : s.established.treeCore = none := by
      unfold Search.established
      rw [hroot]
      rfl
    rw [hcore] at hstatus hlower
    rw [hstatus, hlower]
    refine ⟨.infeasibilityRequiresReplay, bind_eq_ok.mpr ⟨(), requireStatus_eq_ok.mpr rfl, ?_⟩⟩
    refine bind_eq_ok.mpr ⟨(), bind_eq_ok.mpr ⟨(), requireStatus_eq_ok.mpr rfl,
      requireStatus_eq_ok.mpr rfl⟩, ?_⟩
    exact bind_eq_ok.mpr ⟨(), requireStatus_eq_ok.mpr (by rw [hfound.tree, hroot]; rfl), rfl⟩

/-! ### The status by how the search ended -/

theorem classify_completedFeasible (hgoing : s.exhausted = false) (hbest : s.incumbent = some best) :
    classify s.established = completedFeasible best.2 s.established := by
  dsimp only [Search.established]
  rw [hbest, hgoing]
  rfl

theorem classify_completedInfeasible (hgoing : s.exhausted = false) (hnone : s.incumbent = none) :
    classify s.established = completedInfeasible s.established := by
  dsimp only [Search.established]
  rw [hnone, hgoing]
  rfl

theorem classify_exhaustedFeasible (hspent : s.exhausted = true) (hbest : s.incumbent = some best) :
    classify s.established = exhaustedFeasible best.2 s.established := by
  dsimp only [Search.established]
  rw [hbest, hspent]
  rfl

theorem classify_exhausted (hspent : s.exhausted = true) (hnone : s.incumbent = none) :
    classify s.established = (.budgetExhausted, s.established.lowerBound) := by
  dsimp only [Search.established]
  rw [hnone, hspent]
  rfl

theorem judge_finish (hlimits : Limits model) (h : Finished model config s nodes evidence)
    (hfound : Evident model s found) (htree : s.recorder.overflowed = false → found.1 = evidence) :
    ∃ verdict, judge (s.finish model) ⟨s.incumbent.map Prod.snd, found.1, found.2⟩ = .ok verdict := by
  cases hspent : s.exhausted with
  | false =>
    rcases hbest : s.incumbent with _ | best
    · exact judge_completedInfeasible h hfound htree hspent hbest
        (classify_completedInfeasible hspent hbest)
    · exact judge_completedFeasible hlimits h hfound htree hspent hbest
        (classify_completedFeasible hspent hbest)
  | true =>
    rcases hbest : s.incumbent with _ | best
    · exact judge_exhausted h hfound hspent (classify_exhausted hspent hbest)
    · exact judge_exhaustedFeasible hlimits h hfound hspent hbest
        (classify_exhaustedFeasible hspent hbest)

/-! ### What the status says -/

def SaysOptimal (status : SolveStatus) : Prop :=
  status = .optimal ∨ ∃ n, status = .optimalByDeterministicSearch n

def SaysInfeasible (status : SolveStatus) : Prop :=
  (∃ core, status = .infeasible core) ∨ ∃ n, status = .infeasibleByDeterministicSearch n

theorem saysOptimal_completedFeasible (best : ℤ) (e : Established) :
    SaysOptimal (completedFeasible best e).1 := by
  unfold completedFeasible
  split_ifs
  · exact .inl rfl
  · exact .inr ⟨_, rfl⟩

theorem saysInfeasible_completedInfeasible (e : Established) :
    SaysInfeasible (completedInfeasible e).1 := by
  unfold completedInfeasible
  split
  · exact .inl ⟨_, rfl⟩
  · exact .inr ⟨_, rfl⟩

theorem not_both {status : SolveStatus} (h : SaysOptimal status) : ¬ SaysInfeasible status := by
  rcases h with rfl | ⟨n, rfl⟩
  · rintro (⟨core, h⟩ | ⟨n, h⟩) <;> cases h
  · rintro (⟨core, h⟩ | ⟨m, h⟩) <;> cases h

theorem saysOptimal_exhaustedFeasible {best : ℤ} {e : Established}
    (h : SaysOptimal (exhaustedFeasible best e).1) : ∃ m, e.lowerBound = some m ∧ best ≤ m := by
  unfold exhaustedFeasible at h
  rcases hm : e.lowerBound with _ | m
  · rw [hm] at h
    rcases h with h | ⟨n, h⟩ <;> cases h
  · rw [hm] at h
    dsimp only at h
    by_cases hzero : best - m ≤ 0
    · exact ⟨m, rfl, by omega⟩
    · rw [if_neg hzero] at h
      rcases h with h | ⟨n, h⟩ <;> split_ifs at h

theorem not_saysInfeasible_exhaustedFeasible (best : ℤ) (e : Established) :
    ¬ SaysInfeasible (exhaustedFeasible best e).1 := by
  unfold exhaustedFeasible
  split
  · rintro (⟨core, h⟩ | ⟨n, h⟩) <;> cases h
  · split_ifs
    · exact not_both (.inl rfl)
    · rintro (⟨core, h⟩ | ⟨n, h⟩) <;> cases h
    · rintro (⟨core, h⟩ | ⟨n, h⟩) <;> cases h

section
variable (hlimits : Limits model) (h : Finished model config s nodes evidence)
include hlimits h

theorem Finished.lowerBound_le (hm : s.established.lowerBound = some m) (hx : Feasible model x) :
    m ≤ scalarValue model.weights x := by
  obtain ⟨found, hproof, hfound, -⟩ := h.proofEvidence hlimits
  obtain ⟨-, proven, hproven, hle⟩ := hfound.supported m hm
  have hbelow := boundsBelow_of_covered (proofEvidence_covers hlimits.wellFormed hproof)
  exact hle.trans (hbelow proven hproven x hx)

theorem Finished.exact_of_saysOptimal (hstatus : SaysOptimal (s.finish model).status) :
    ∃ best, s.incumbent = some best ∧
      ∀ x, Feasible model x → best.2 ≤ scalarValue model.weights x := by
  change SaysOptimal (classify s.established).1 at hstatus
  cases hspent : s.exhausted with
  | false =>
    rcases hbest : s.incumbent with _ | best
    · rw [classify_completedInfeasible hspent hbest] at hstatus
      exact absurd (saysInfeasible_completedInfeasible _) (not_both hstatus)
    · exact ⟨best, rfl, fun x hx => h.optimal hlimits hspent hbest hx⟩
  | true =>
    rcases hbest : s.incumbent with _ | best
    · rw [classify_exhausted hspent hbest] at hstatus
      rcases hstatus with hstatus | ⟨n, hstatus⟩ <;> cases hstatus
    · rw [classify_exhaustedFeasible hspent hbest] at hstatus
      obtain ⟨m, hm, hle⟩ := saysOptimal_exhaustedFeasible hstatus
      exact ⟨best, rfl, fun x hx => hle.trans (h.lowerBound_le hlimits hm hx)⟩

theorem Finished.exact_of_saysInfeasible (hstatus : SaysInfeasible (s.finish model).status)
    (x : List Bool) : ¬ Feasible model x := by
  change SaysInfeasible (classify s.established).1 at hstatus
  cases hspent : s.exhausted with
  | false =>
    rcases hbest : s.incumbent with _ | best
    · exact h.infeasible hlimits hspent hbest x
    · rw [classify_completedFeasible hspent hbest] at hstatus
      exact absurd hstatus (not_both (saysOptimal_completedFeasible _ _))
  | true =>
    rcases hbest : s.incumbent with _ | best
    · rw [classify_exhausted hspent hbest] at hstatus
      rcases hstatus with ⟨core, hstatus⟩ | ⟨n, hstatus⟩ <;> cases hstatus
    · rw [classify_exhaustedFeasible hspent hbest] at hstatus
      exact absurd hstatus (not_saysInfeasible_exhaustedFeasible _ _)

end

theorem Finished.decides (hgoing : s.exhausted = false) :
    SaysOptimal (s.finish model).status ∨ SaysInfeasible (s.finish model).status := by
  change SaysOptimal (classify s.established).1 ∨ SaysInfeasible (classify s.established).1
  rcases hbest : s.incumbent with _ | best
  · rw [classify_completedInfeasible hgoing hbest]
    exact .inr (saysInfeasible_completedInfeasible _)
  · rw [classify_completedFeasible hgoing hbest]
    exact .inl (saysOptimal_completedFeasible _ _)

end finished

/-! ### The main results -/

/-- **Every certificate of the solver verifies**, for every validated model and every accepted
configuration. -/
theorem solve_verifies [DecidableEq δ] {ofJson : ModelSpec → δ} {spec : ModelSpec}
    (hmodel : Model.tryFrom ofJson spec = .ok model) {config : SolverConfigSpec}
    (hconfig : config.check = .ok ()) :
    ∃ verdict, verify model (solve model config) = .ok verdict := by
  have hlimits := limits_tryFrom hmodel
  obtain ⟨nodes, evidence, h⟩ := finished_of_check hlimits hconfig
  obtain ⟨found, hproof, hfound, htree⟩ := h.proofEvidence hlimits
  obtain ⟨verdict, hverdict⟩ := judge_finish hlimits h hfound htree
  refine ⟨verdict, bind_eq_ok.mpr ⟨(), rejectIf_eq_ok.mpr (not_not.mpr rfl), ?_⟩⟩
  refine bind_eq_ok.mpr ⟨(), rejectIf_eq_ok.mpr (not_lt.mpr ?_), ?_⟩
  · exact h.counted.trans_eq (congrArg (fun c => c.nodeBudget) h.configured.symm)
  · refine bind_eq_ok.mpr ⟨_, h.incumbentValue, ?_⟩
    exact bind_eq_ok.mpr ⟨found, hproof, hverdict⟩

theorem solve_verifies_cover : Model.tryFrom id coverSpec = .ok coverModel ∧
      (⟨⟨1, 0⟩, 1, 1⟩ : SolverConfigSpec).check = .ok () ∧
      ∃ verdict, verify coverModel (solve coverModel ⟨⟨1, 0⟩, 1, 1⟩) = .ok verdict := by
  have hmodel : Model.tryFrom id coverSpec = .ok coverModel := by decide +kernel
  have hconfig : (⟨⟨1, 0⟩, 1, 1⟩ : SolverConfigSpec).check = .ok () := by decide +kernel
  exact ⟨hmodel, hconfig, solve_verifies hmodel hconfig⟩

/-- **The search is exact.** A reported optimum is feasible and least, a reported infeasibility is
real, and a budget of a complete tree over the variables always decides. -/
theorem solve_exact {ofJson : ModelSpec → δ} {spec : ModelSpec}
    (hmodel : Model.tryFrom ofJson spec = .ok model) {config : SolverConfigSpec}
    (hconfig : config.check = .ok ()) :
    (SaysOptimal (solve model config).status →
      ∃ incumbent, (solve model config).incumbent = some incumbent ∧
        Feasible model incumbent.selected ∧
        ∀ x, Feasible model x →
          scalarValue model.weights incumbent.selected ≤ scalarValue model.weights x) ∧
    (SaysInfeasible (solve model config).status → ∀ x, ¬ Feasible model x) ∧
    (2 ^ (model.variableCount + 1) - 1 ≤ config.nodeBudget →
      SaysOptimal (solve model config).status ∨ SaysInfeasible (solve model config).status) := by
  have hlimits := limits_tryFrom hmodel
  obtain ⟨nodes, evidence, h⟩ := finished_of_check hlimits hconfig
  refine ⟨fun hstatus => ?_, fun hstatus => h.exact_of_saysInfeasible hlimits hstatus,
    fun hbudget => ?_⟩
  · obtain ⟨best, hbest, hleast⟩ := h.exact_of_saysOptimal hlimits hstatus
    obtain ⟨objective, -, -, hincumbent⟩ := h.certified hbest
    obtain ⟨hfeasible, hvalue⟩ := h.incumbent best hbest
    refine ⟨_, hincumbent, hfeasible, fun x hx => ?_⟩
    rw [← hvalue]
    exact hleast x hx
  · refine Finished.decides ?_
    by_contra hspent
    rw [Bool.not_eq_false] at hspent
    obtain ⟨-, -, hroom⟩ := h.spent hspent
    omega

theorem solve_exact_cover : Model.tryFrom id coverSpec = .ok coverModel ∧
      (⟨⟨7, 0⟩, 64, 1⟩ : SolverConfigSpec).check = .ok () ∧
      (SaysOptimal (solve coverModel ⟨⟨7, 0⟩, 64, 1⟩).status ∨
        SaysInfeasible (solve coverModel ⟨⟨7, 0⟩, 64, 1⟩).status) := by
  have hmodel : Model.tryFrom id coverSpec = .ok coverModel := by decide +kernel
  have hconfig : (⟨⟨7, 0⟩, 64, 1⟩ : SolverConfigSpec).check = .ok () := by decide +kernel
  exact ⟨hmodel, hconfig, (solve_exact hmodel hconfig).2.2 (by decide)⟩

end Medulla.Solve.Exactness
