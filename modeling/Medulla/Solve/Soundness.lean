import Medulla.Solve.ProofTree

/-! # The verifier is sound

What an accepted certificate establishes about the model it was checked against, whoever made it.

* the result: `verify_sound`. -/

namespace Medulla.Solve.Soundness

open Library.Checked Programme Verifier Bounds ProofTree

/-! ### Validated models -/

section models

variable {vars : List VarId} {count : ℕ}

theorem forM_ok {α ε : Type} {f : α → Except ε Unit} : ∀ {l : List α},
    l.forM f = .ok () → ∀ a ∈ l, f a = .ok ()
  | [], _, _, ha => absurd ha List.not_mem_nil
  | b :: l, h, a, ha => by
    obtain ⟨_, hb, h⟩ := unbind h
    rcases List.mem_cons.mp ha with rfl | ha
    · exact hb
    · exact forM_ok h a ha

theorem checkVars_ok {location : Location} (h : checkVars location vars count = .ok ()) :
    ∀ var ∈ vars, var < count := by
  unfold checkVars at h
  rcases hfind : vars.find? fun var => count ≤ var with _ | bad
  · rw [List.find?_eq_none] at hfind
    intro var hvar
    simpa using hfind var hvar
  · rw [hfind] at h
    cases h

theorem inRange_ofTerms {terms : List Term} {relation : Relation} {rhs : ℤ}
    (h : ∀ var ∈ terms.map Term.var, var < count) :
    InRange count (.ofTerms terms relation rhs) := by
  intro term hterm
  refine h term.var (List.mem_map_of_mem ?_)
  exact (List.mem_insertionSort _).mp hterm

theorem inRange_unit {relation : Relation} {rhs : ℤ} (h : ∀ var ∈ vars, var < count) :
    InRange count (.unit vars relation rhs) := by
  refine inRange_ofTerms fun var hvar => ?_
  rw [List.map_map] at hvar
  obtain ⟨v, hv, rfl⟩ := List.mem_map.mp hvar
  exact h v hv

theorem checkGroup_ok {index : ℕ} {k : Option ℕ} (h : checkGroup index vars k count = .ok ()) :
    ∀ var ∈ vars, var < count := by
  obtain ⟨_, _, h⟩ := unbind h
  obtain ⟨_, hvars, _⟩ := unbind h
  exact checkVars_ok hvars

theorem inRange_implication {index : ℕ} {antecedent : VarId} {consequents : List VarId}
    (h : checkImplication index antecedent consequents count = .ok ()) :
    InRange count (lowerImplication antecedent consequents) := by
  obtain ⟨_, hgroup, h⟩ := unbind h
  obtain ⟨_, hante, _⟩ := unbind h
  refine inRange_ofTerms fun var hvar => ?_
  rw [List.map_append, List.map_map, List.mem_append] at hvar
  rcases hvar with hvar | hvar
  · obtain ⟨v, hv, rfl⟩ := List.mem_map.mp hvar
    exact checkGroup_ok hgroup v hv
  · rw [List.map_singleton, List.mem_singleton] at hvar
    rw [hvar]
    exact checkVars_ok hante antecedent (List.mem_singleton_self _)

theorem inRange_lower {index : ℕ} {constraint : ConstraintSpec}
    (h : checkConstraint index constraint count = .ok ()) :
    InRange count (lower constraint.body) := by
  obtain ⟨_, _, h⟩ := unbind h
  rcases hbody : constraint.body with ⟨terms, relation, rhs⟩ | ⟨a, c⟩ | ⟨a, cs⟩ | vars | ⟨vars, k⟩ |
    ⟨vars, k⟩ | ⟨var, value⟩ <;> rw [hbody] at h
  · obtain ⟨_, _, h⟩ := unbind h
    obtain ⟨_, hvars, _⟩ := unbind h
    exact inRange_ofTerms (checkVars_ok hvars)
  · exact inRange_implication h
  · exact inRange_implication h
  · exact inRange_unit (checkGroup_ok h)
  · exact inRange_unit (checkGroup_ok h)
  · exact inRange_unit (checkGroup_ok h)
  · exact inRange_unit (checkVars_ok h)

theorem length_addSublevel {multiplier : ℤ} : ∀ {sublevel : List (VarId × ℤ)}
    {acc out : List ℤ × ℤ}, addSublevel multiplier sublevel acc = .ok out →
    out.1.length = acc.1.length
  | [], _, _, h => by
    cases h
    rfl
  | (var, coefficient) :: rest, (weights, span), out, h => by
    obtain ⟨slot, _, h⟩ := unbind h
    obtain ⟨span', _, h⟩ := unbind h
    rw [length_addSublevel h]
    exact List.length_set

theorem length_addSublevels : ∀ {sublevels : List (List (VarId × ℤ))} {weights out : List ℤ}
    {multiplier : ℤ}, addSublevels sublevels (weights, multiplier) = .ok out →
    out.length = weights.length
  | [], _, _, _, h => by
    cases h
    rfl
  | sublevel :: rest, weights, out, multiplier, h => by
    obtain ⟨⟨weights', span⟩, hadd, h⟩ := unbind h
    obtain ⟨multiplier', _, h⟩ := unbind h
    rw [length_addSublevels h]
    exact length_addSublevel hadd

theorem length_scalarWeights {levels : List ObjectiveLevelSpec} {weights : List ℤ}
    (h : scalarWeights levels count = .ok weights) : weights.length = count := by
  obtain ⟨out, hadd, h⟩ := unbind h
  obtain ⟨_, _, h⟩ := unbind h
  cases h
  rw [length_addSublevels hadd, List.length_replicate]

variable {δ : Type}

theorem wellFormed_tryFrom {ofJson : ModelSpec → δ} {spec : ModelSpec} {model : Model δ}
    (h : Model.tryFrom ofJson spec = .ok model) : WellFormed model := by
  obtain ⟨_, hvalid, h⟩ := unbind h
  obtain ⟨weights, hweights, h⟩ := unbind h
  cases h
  refine ⟨length_scalarWeights hweights, fun row hrow => ?_⟩
  obtain ⟨constraint, hmem, rfl⟩ := List.mem_map.mp hrow
  obtain ⟨_, _, hvalid⟩ := unbind hvalid
  obtain ⟨_, _, hvalid⟩ := unbind hvalid
  obtain ⟨_, hconstraints, _⟩ := unbind hvalid
  obtain ⟨i, hi, hget⟩ := List.mem_iff_getElem.mp hmem
  have hidx : (constraint, i) ∈ spec.constraints.zipIdx := by
    rw [List.mk_mem_zipIdx_iff_getElem?, List.getElem?_eq_getElem hi, hget]
  exact inRange_lower (forM_ok hconstraints _ hidx)

end models

/-! ### Verdicts -/

section verdicts

variable {δ : Type} {model : Model δ} {claimed : Option ℤ} {verified : Verified}
  {verdict : Verdict} {certificate : Certificate δ}

def Feasible (model : Model δ) (x : List Bool) : Prop :=
  x.length = model.variableCount ∧ ∀ row ∈ model.rows, Satisfies row x

def verdictBound : Verdict → Option ℤ
  | .provenGap _ lowerBound => some lowerBound
  | .optimalityRequiresReplay _ lowerBound => some lowerBound
  | .unresolved _ lowerBound => lowerBound
  | _ => none

def BoundsBelow (model : Model δ) (e : Evidence) : Prop :=
  ∀ bound, e.minBound = some bound → ∀ x, Feasible model x → bound ≤ scalarValue model.weights x

theorem boundsBelow_of_covered {e : Evidence}
    (h : ∀ x : List Bool, x.length = model.variableCount → Covered model e x) :
    BoundsBelow model e := by
  intro bound hbound x hx
  rcases h x hx.1 with ⟨r, _, row, hrow, hviolated⟩ | ⟨-, hle⟩
  · exact absurd (hx.2 row (List.mem_of_getElem? hrow)) hviolated
  · obtain ⟨low, hlow, hle⟩ := hle hx.2
    rw [hbound] at hlow
    cases hlow
    exact hle

theorem proofEvidence_covers (hmodel : WellFormed model) {proof : BoundProof}
    {found : Evidence × Bool} (h : proofEvidence model proof = .ok found) :
    ∀ x : List Bool, x.length = model.variableCount → Covered model found.1 x := by
  intro x hx
  cases proof with
  | tree nodes =>
    obtain ⟨evidence, hwalk, h⟩ := unbind h
    cases h
    exact walk_covers hmodel hwalk hx
  | root dual =>
    obtain ⟨evidence, hroot, h⟩ := unbind h
    cases h
    exact root_covers hmodel hroot hx

theorem checkRows_ok {selected : List Bool} : ∀ {rows : List Row} {index : ℕ},
    checkRows selected index rows = .ok () → ∀ row ∈ rows, Satisfies row selected
  | [], _, _, _, hrow => absurd hrow List.not_mem_nil
  | first :: rows, index, h, row, hrow => by
    rw [checkRows] at h
    split_ifs at h with hholds
    rcases List.mem_cons.mp hrow with rfl | hrow
    · exact hholds
    · exact checkRows_ok h row hrow

theorem checkIncumbent_ok {claimed : Incumbent} {value : ℤ}
    (h : checkIncumbent model claimed = .ok value) :
    Feasible model claimed.selected ∧ scalarValue model.weights claimed.selected = value := by
  obtain ⟨_, hselection, h⟩ := unbind h
  unfold checkSelection at hselection
  split_ifs at hselection with hlen
  rw [not_not] at hlen
  refine ⟨⟨hlen, checkRows_ok hselection⟩, ?_⟩
  unfold Model.objectiveValue at h
  rw [if_pos hlen] at h
  dsimp only at h
  split_ifs at h
  exact Except.ok.inj h

theorem incumbentValue_ok {claimed : Option Incumbent} {found : Option ℤ}
    (h : incumbentValue model claimed = .ok found) {value : ℤ} (hfound : found = some value) :
    ∃ incumbent, claimed = some incumbent ∧ Feasible model incumbent.selected ∧
      scalarValue model.weights incumbent.selected = value := by
  cases claimed with
  | none =>
    cases h
    cases hfound
  | some incumbent =>
    obtain ⟨v, hv, h⟩ := unbind h
    cases h
    cases hfound
    exact ⟨incumbent, rfl, checkIncumbent_ok hv⟩

theorem requireStatus_eq_ok {c : Prop} [Decidable c] {defect : StatusDefect} {u : Unit} :
    requireStatus c defect = .ok u ↔ c := by
  unfold requireStatus
  split_ifs with h <;> simp [h]

theorem supportedBound_ok {bound : ℤ} (h : supportedBound claimed verified = .ok bound) :
    ∃ proven, verified.evidence.minBound = some proven ∧ bound ≤ proven := by
  obtain ⟨b, _, h⟩ := unbind h
  obtain ⟨proven, hproven, h⟩ := unbind h
  obtain ⟨_, hle, h⟩ := unbind h
  cases h
  rw [orReject_eq_ok] at hproven
  exact ⟨proven, hproven, requireStatus_eq_ok.mp hle⟩

inductive Justified (verified : Verified) : Verdict → Prop
  | optimal {best proven : ℤ} (incumbent : verified.incumbent = some best)
      (bound : verified.evidence.minBound = some proven) (le : best ≤ proven) :
      Justified verified (.provenOptimal best)
  | infeasible {core : List RowId} (leaves : verified.evidence.boundLeaves = 0)
      (rows : core = verified.evidence.infeasibilityRows) :
      Justified verified (.provenInfeasible core)
  | gap {best bound proven : ℤ} (min : verified.evidence.minBound = some proven)
      (le : bound ≤ proven) : Justified verified (.provenGap best bound)
  | replay {best bound proven : ℤ} (min : verified.evidence.minBound = some proven)
      (le : bound ≤ proven) : Justified verified (.optimalityRequiresReplay best bound)
  | infeasibilityReplay : Justified verified .infeasibilityRequiresReplay
  | unresolved {incumbent bound : Option ℤ}
      (le : ∀ b, bound = some b → ∃ proven, verified.evidence.minBound = some proven ∧ b ≤ proven) :
      Justified verified (.unresolved incumbent bound)

theorem justified_optimal (h : optimal claimed verified = .ok verdict) :
    Justified verified verdict := by
  obtain ⟨best, hbest, h⟩ := unbind h
  obtain ⟨proven, hproven, h⟩ := unbind h
  obtain ⟨_, hle, h⟩ := unbind h
  obtain ⟨_, _, h⟩ := unbind h
  cases h
  rw [orReject_eq_ok] at hbest hproven
  exact .optimal hbest hproven (requireStatus_eq_ok.mp hle)

theorem justified_optimalBySearch (h : optimalBySearch claimed verified = .ok verdict) :
    Justified verified verdict := by
  obtain ⟨_, _, h⟩ := unbind h
  obtain ⟨best, _, h⟩ := unbind h
  obtain ⟨bound, hbound, h⟩ := unbind h
  obtain ⟨_, _, h⟩ := unbind h
  cases h
  obtain ⟨proven, hproven, hle⟩ := supportedBound_ok hbound
  exact .replay hproven hle

theorem justified_withGap {gap : ℤ} (h : withGap certificate gap verified = .ok verdict) :
    Justified verified verdict := by
  obtain ⟨_, _, h⟩ := unbind h
  obtain ⟨best, _, h⟩ := unbind h
  obtain ⟨bound, hbound, h⟩ := unbind h
  obtain ⟨_, _, h⟩ := unbind h
  obtain ⟨_, _, h⟩ := unbind h
  cases h
  obtain ⟨proven, hproven, hle⟩ := supportedBound_ok hbound
  exact .gap hproven hle

theorem justified_infeasible {core : List RowId}
    (h : infeasible claimed core verified = .ok verdict) : Justified verified verdict := by
  obtain ⟨_, _, h⟩ := unbind h
  obtain ⟨_, _, h⟩ := unbind h
  obtain ⟨_, hleaves, h⟩ := unbind h
  obtain ⟨_, hcore, h⟩ := unbind h
  cases h
  exact .infeasible (requireStatus_eq_ok.mp hleaves) (requireStatus_eq_ok.mp hcore)

theorem justified_exhausted (h : exhausted certificate claimed verified = .ok verdict) :
    Justified verified verdict := by
  obtain ⟨_, _, h⟩ := unbind h
  obtain ⟨bound, hbound, h⟩ := unbind h
  obtain ⟨_, _, h⟩ := unbind h
  cases h
  refine .unresolved fun b hb => ?_
  cases claimed with
  | none =>
    cases hbound
    cases hb
  | some c =>
    obtain ⟨supported, hsupported, hbound⟩ := unbind hbound
    cases hbound
    cases hb
    exact supportedBound_ok hsupported

theorem judge_justified (h : judge certificate verified = .ok verdict) :
    Justified verified verdict := by
  unfold judge at h
  rcases hstatus : certificate.status with _ | n | gap | core | n | _ <;> rw [hstatus] at h
  · exact justified_optimal h
  · obtain ⟨_, _, h⟩ := unbind h
    exact justified_optimalBySearch h
  · exact justified_withGap h
  · exact justified_infeasible h
  · obtain ⟨_, _, h⟩ := unbind h
    obtain ⟨_, _, h⟩ := unbind h
    obtain ⟨_, _, h⟩ := unbind h
    cases h
    exact .infeasibilityReplay
  · exact justified_exhausted h

theorem verify_justified [DecidableEq δ] (hmodel : WellFormed model)
    (h : verify model certificate = .ok verdict) :
    ∃ verified : Verified, Justified verified verdict ∧
      incumbentValue model certificate.incumbent = .ok verified.incumbent ∧
      ∀ x : List Bool, x.length = model.variableCount → Covered model verified.evidence x := by
  obtain ⟨_, _, h⟩ := unbind h
  obtain ⟨_, _, h⟩ := unbind h
  obtain ⟨incumbent, hincumbent, h⟩ := unbind h
  obtain ⟨⟨evidence, tree⟩, hproof, h⟩ := unbind h
  exact ⟨⟨incumbent, evidence, tree⟩, judge_justified h, hincumbent,
    proofEvidence_covers hmodel hproof⟩

/-- **The certificate verifier is sound.** For every validated model and certificate: a proven optimum
is feasible and least, the rows of a proven infeasibility are satisfied together by no assignment, and
no feasible assignment has an objective below a lower bound of a verdict. -/
theorem verify_sound [DecidableEq δ] {ofJson : ModelSpec → δ} {spec : ModelSpec}
    (hmodel : Model.tryFrom ofJson spec = .ok model) (certificate : Certificate δ) :
    (∀ objective, verify model certificate = .ok (.provenOptimal objective) →
      ∃ incumbent, certificate.incumbent = some incumbent ∧ Feasible model incumbent.selected ∧
        scalarValue model.weights incumbent.selected = objective ∧
        ∀ x, Feasible model x → objective ≤ scalarValue model.weights x) ∧
    (∀ core, verify model certificate = .ok (.provenInfeasible core) →
      ∀ x : List Bool, x.length = model.variableCount →
        ∃ r ∈ core, ∃ row, model.rows[r]? = some row ∧ ¬ Satisfies row x) ∧
    (∀ verdict bound, verify model certificate = .ok verdict → verdictBound verdict = some bound →
      ∀ x, Feasible model x → bound ≤ scalarValue model.weights x) := by
  have hwf := wellFormed_tryFrom hmodel
  refine ⟨fun objective h => ?_, fun core h x hx => ?_, fun verdict bound h hbound x hx => ?_⟩
  · obtain ⟨verified, hjust, hincumbent, hcov⟩ := verify_justified hwf h
    cases hjust with
    | optimal hbest hproven hle =>
      obtain ⟨incumbent, hclaimed, hfeasible, hvalue⟩ := incumbentValue_ok hincumbent hbest
      refine ⟨incumbent, hclaimed, hfeasible, hvalue, fun x hx => ?_⟩
      exact hle.trans (boundsBelow_of_covered hcov _ hproven x hx)
  · obtain ⟨verified, hjust, -, hcov⟩ := verify_justified hwf h
    cases hjust with
    | infeasible hleaves hrows =>
      rcases hcov x hx with hviolated | ⟨hne, -⟩
      · rw [hrows]
        exact hviolated
      · exact absurd hleaves hne
  · obtain ⟨verified, hjust, -, hcov⟩ := verify_justified hwf h
    have hbelow := boundsBelow_of_covered hcov
    cases hjust with
    | optimal => cases hbound
    | infeasible => cases hbound
    | infeasibilityReplay => cases hbound
    | gap hmin hle =>
      cases hbound
      exact hle.trans (hbelow _ hmin x hx)
    | replay hmin hle =>
      cases hbound
      exact hle.trans (hbelow _ hmin x hx)
    | unresolved hle =>
      obtain ⟨proven, hproven, hle⟩ := hle bound hbound
      exact hle.trans (hbelow _ hproven x hx)

/-! ### An accepted certificate -/

/-- Choose at least one of two, at costs three and five. -/
def coverSpec : ModelSpec :=
  ⟨["cheap", "dear"], [⟨"cover", .atLeast [0, 1] 1⟩], [⟨"cost", [⟨0, .known 3⟩, ⟨1, .known 5⟩]⟩]⟩

def coverModel : Model ModelSpec :=
  ⟨coverSpec, [⟨[⟨0, 1⟩, ⟨1, 1⟩], .greaterEqual, 1⟩], [3, 5], coverSpec⟩

/-- Branch on the first variable; without it the second is forced by the row. -/
def coverCertificate : Certificate ModelSpec where
  modelDigest := coverSpec
  config := ⟨10, 0⟩
  status := .optimal
  incumbent := some ⟨[true, false], ⟨[⟨3, 0⟩], 3⟩⟩
  lowerBound := some 3
  proof := .tree [.branch 0 true, .leaf (.bound ⟨1, []⟩), .forced 1 true 0, .leaf (.bound ⟨1, []⟩)]
  nodesExpanded := 3

theorem verify_sound_cover : Model.tryFrom id coverSpec = .ok coverModel ∧
      verify coverModel coverCertificate = .ok (.provenOptimal 3) ∧
      ∀ x, Feasible coverModel x → 3 ≤ scalarValue coverModel.weights x := by
  have hmodel : Model.tryFrom id coverSpec = .ok coverModel := by decide +kernel
  have hverify : verify coverModel coverCertificate = .ok (.provenOptimal 3) := by decide +kernel
  obtain ⟨incumbent, -, -, -, hbest⟩ := (verify_sound hmodel coverCertificate).1 3 hverify
  exact ⟨hmodel, hverify, hbest⟩

end verdicts

end Medulla.Solve.Soundness
