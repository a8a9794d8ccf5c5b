import Medulla.Solve.AscentValue
import Medulla.Solve.BranchAndBound

/-! # The verifier walks the recorded tree

Each node the search records is one that the verifier accepts where its walk stands: a branch on a free
variable, a forcing that is justified, and a leaf whose dual is worth at least the value the recorder
remembers. -/

namespace Medulla.Solve.Recording

open Library.Checked Programme Verifier Bounds Propagate DualAscent
open BranchAndBound Coherence Evaluation Forcing AscentValue
open ProofTree hiding Pending

variable {δ : Type} {model : Model δ} {dual : LagrangeDual} {s : SearchState} {trail : Trail}
  {path : List (Option Bool)} {row : RowId} {w : Walker}

/-! ### Bounds the verifier confirms -/

def verifiedBound (model : Model δ) (dual : LagrangeDual) (path : List (Option Bool)) : ℤ :=
  integerBound (lagrangian model (baseCosts model dual.denominator .objective)
    (weighted dual.entries) path) dual.denominator

/-- A dual of the right shape that the verifier finds worth at least a value. -/
structure Certifies (model : Model δ) (dual : LagrangeDual) (value : ℤ)
    (path : List (Option Bool)) : Prop where
  shaped : Shaped model dual
  le : value ≤ verifiedBound model dual path
  magnitude : |value| ≤ 2 ^ 126

theorem abs_ceilDiv_le (a : ℤ) {d : ℤ} : |ceilDiv a d| ≤ |a| := by
  unfold ceilDiv
  rw [abs_neg, Int.abs_eq_natAbs, Int.abs_eq_natAbs, ← Int.natAbs_neg a]
  exact_mod_cast Int.natAbs_ediv_le_natAbs (-a) d

theorem certifies_verifiedBound (hlimits : Limits model) (hdual : Shaped model dual)
    (path : List (Option Bool)) : Certifies model dual (verifiedBound model dual path) path := by
  refine ⟨hdual, le_refl _, ?_⟩
  unfold verifiedBound
  rw [integerBound_eq_ceilDiv _ hdual.positive]
  exact (abs_ceilDiv_le _).trans (abs_lagrangian_le hlimits hdual path .objective)

theorem Certifies.below {value : ℤ} {above below : List (Option Bool)}
    (h : Certifies model dual value above) (habove : above.length = model.variableCount)
    (hbelow : below.length = model.variableCount) (hextends : Extends above below) :
    Certifies model dual value below := by
  refine ⟨h.shaped, h.le.trans ?_, h.magnitude⟩
  have hpos : (0 : ℤ) < dual.denominator := by exact_mod_cast h.shaped.positive
  unfold verifiedBound
  rw [integerBound_eq_ceilDiv _ h.shaped.positive, integerBound_eq_ceilDiv _ h.shaped.positive]
  exact ceilDiv_mono hpos (lagrangian_mono habove hbelow hextends)

theorem certifies_dualAscent (hlimits : Limits model) (hs : Coherent model s trail)
    {denominator : ℕ} (hpos : 1 ≤ denominator) (hbound : denominator ≤ maxBoundDenominator) :
    Certifies model (dualAscent model s denominator).dual (dualAscent model s denominator).value
      s.value := by
  obtain ⟨hden, hshaped, hvalue⟩ := dualAscent_spec hlimits hs hpos hbound
  have heq : (dualAscent model s denominator).value =
      verifiedBound model (dualAscent model s denominator).dual s.value := by
    unfold verifiedBound
    rw [integerBound_eq_ceilDiv _ hshaped.positive, hden, hvalue]
  rw [heq]
  exact certifies_verifiedBound hlimits hshaped s.value

theorem sum_zip_contribution : ∀ (costs : List ℤ) (path : List (Option Bool)),
    path.length = costs.length → ((costs.zip path).map fun c => contribution c.1 c.2).sum =
      ∑ j ∈ Finset.range costs.length, contribution (costs.getD j 0) (path.getD j none)
  | [], [], _ => rfl
  | [], _ :: _, h => by simp at h
  | _ :: _, [], h => by simp at h
  | cost :: costs, p :: path, h => by
    have ih := sum_zip_contribution costs path (by simpa using h)
    rw [List.zip_cons_cons, List.map_cons, List.sum_cons, ih, List.length_cons,
      Finset.sum_range_succ', add_comm]
    rfl

theorem certifies_completion (hlimits : Limits model) (hs : Coherent model s trail) :
    Certifies model ⟨1, []⟩ (completion model s).2 s.value := by
  have hshaped : Shaped model ⟨1, []⟩ :=
    ⟨Nat.one_pos, Nat.one_le_two_pow, List.isChain_nil, fun e he => absurd he List.not_mem_nil⟩
  obtain ⟨-, -, -, hsum⟩ := completion_spec hlimits.wellFormed hs
  have hlen : s.value.length = model.weights.length := by
    rw [hs.tracks.length, hlimits.weightCount]
  have hvalue : lagrangian model (baseCosts model ((1 : ℕ) : ℤ) .objective) (weighted []) s.value =
      (completion model s).2 := by
    rw [hsum, sum_zip_contribution _ _ hlen, hlimits.weightCount]
    unfold lagrangian rhsGain costLoss baseCosts weighted
    simp
  have heq : (completion model s).2 = verifiedBound model ⟨1, []⟩ s.value := by
    unfold verifiedBound
    rw [hvalue, integerBound_eq_ceilDiv _ Nat.one_pos]
    unfold ceilDiv
    simp
  rw [heq]
  exact certifies_verifiedBound hlimits hshaped s.value

theorem sum_contribution_low : ∀ {terms : List Term}, (∀ term ∈ terms, term.var < path.length) →
    (terms.map fun t => contribution t.coefficient (path.getD t.var none)).sum =
      (activityOf path terms).fixed + (activityOf path terms).freeNegative
  | [], _ => rfl
  | term :: terms, h => by
    have hlt := h term (.head _)
    have ih := sum_contribution_low fun t ht => h t (.tail _ ht)
    unfold activityOf at ih ⊢
    simp only [List.map_cons, List.sum_cons]
    rw [ih, List.getD_eq_getElem path none hlt]
    unfold fixedPart freePart
    rw [List.getElem?_eq_getElem hlt]
    rcases hp : path[term.var] with _ | _ | _
    · simp only [contribution, reduceCtorEq, Option.some.injEq, if_false, if_true]
      ring
    · simp [contribution]
    · simp only [contribution, reduceCtorEq, Option.some.injEq, if_false, if_true]
      ring

theorem sum_contribution_high : ∀ {terms : List Term}, (∀ term ∈ terms, term.var < path.length) →
    (terms.map fun t => contribution (-t.coefficient) (path.getD t.var none)).sum =
      -((activityOf path terms).fixed + (activityOf path terms).freePositive)
  | [], _ => rfl
  | term :: terms, h => by
    have hlt := h term (.head _)
    have ih := sum_contribution_high fun t ht => h t (.tail _ ht)
    have hneg : min (-term.coefficient) 0 = -max term.coefficient 0 := by omega
    unfold activityOf at ih ⊢
    simp only [List.map_cons, List.sum_cons]
    rw [ih, List.getD_eq_getElem path none hlt]
    unfold fixedPart freePart
    rw [List.getElem?_eq_getElem hlt]
    rcases hp : path[term.var] with _ | _ | _
    · simp only [contribution, reduceCtorEq, Option.some.injEq, if_false, if_true, hneg]
      ring
    · simp [contribution]
    · simp only [contribution, reduceCtorEq, Option.some.injEq, if_false, if_true]
      ring

theorem lagrangian_single (hlimits : Limits model) {spec : Row}
    (hspec : model.rows[row]? = some spec) (numerator : ℤ) (path : List (Option Bool)) :
    lagrangian model (baseCosts model 1 .feasibility) [(row, numerator)] path =
      numerator * spec.rhs + (spec.terms.map fun t =>
        contribution (-numerator * t.coefficient) (path.getD t.var none)).sum := by
  have hrow := hlimits.rows spec (List.mem_of_getElem? hspec)
  rw [← sum_contribution hrow]
  unfold lagrangian rhsGain costLoss
  simp only [List.map_cons, List.map_nil, List.sum_cons, List.sum_nil, add_zero, rowAt_eq hspec]
  congr 1
  refine Finset.sum_congr rfl fun j hj => ?_
  congr 1
  have hzero : (baseCosts model 1 .feasibility).getD j 0 = 0 := by
    change (List.replicate model.variableCount (0 : ℤ)).getD j 0 = 0
    rw [List.getD_eq_getElem?_getD, List.getElem?_replicate]
    split_ifs <;> rfl
  rw [hzero]
  ring

theorem lagrangian_pos_of_excluded (hlimits : Limits model) (hs : Coherent model s trail)
    (hlt : row < model.rows.length) (hexcluded : isExcluded model s row = true) :
    0 < lagrangian model (baseCosts model 1 .feasibility) [(row, Recorder.infeasibleNumerator
      (rowAt model row).relation (decide ((rowAt model row).rhs < (s.activity row).1)))] s.value := by
  have hspec : model.rows[row]? = some model.rows[row] := List.getElem?_eq_getElem hlt
  have hrange : ∀ term ∈ model.rows[row].terms, term.var < s.value.length := by
    rw [hs.tracks.length]
    exact (hlimits.rows _ (List.mem_of_getElem? hspec)).range
  have hlow := sum_contribution_low hrange
  have hhigh := sum_contribution_high hrange
  unfold isExcluded SearchState.activity at hexcluded
  unfold SearchState.activity
  rw [rowAt_eq hspec, activity_eq hs.cached hspec] at hexcluded ⊢
  rw [lagrangian_single hlimits hspec]
  unfold excludes at hexcluded
  unfold Recorder.infeasibleNumerator
  rcases hrel : model.rows[row].relation with _ | _ | _ <;> rw [hrel] at hexcluded <;>
    simp only [decide_eq_true_eq, Bool.or_eq_true] at hexcluded
  · simp only [neg_neg, one_mul, neg_mul]
    omega
  · simp only [one_mul, neg_mul]
    omega
  · by_cases hexceeds : model.rows[row].rhs < (activityOf s.value model.rows[row].terms).fixed +
        (activityOf s.value model.rows[row].terms).freeNegative
    · rw [decide_eq_true hexceeds]
      simp only [neg_neg, one_mul, neg_mul]
      omega
    · rw [decide_eq_false hexceeds]
      simp only [one_mul, neg_mul]
      omega

theorem signAllowed_infeasibleNumerator (relation : Relation) (exceeds : Bool) :
    signAllowed relation (Recorder.infeasibleNumerator relation exceeds) = true ∧
      (Recorder.infeasibleNumerator relation exceeds).natAbs ≤ maxMultiplier := by
  cases relation <;> cases exceeds <;> decide

/-! ### Visits -/

theorem Tracks.path_eq {n : ℕ} {path' : List (Option Bool)} {fixed fixed' : List VarId}
    (h : Tracks n path fixed trail) (h' : Tracks n path' fixed' trail) :
    path = path' ∧ fixed = fixed' := by
  refine ⟨List.ext_getElem? fun j => ?_, h.fixed.trans h'.fixed.symm⟩
  have hval : ∀ b, path[j]? = some (some b) ↔ path'[j]? = some (some b) :=
    fun b => (h.values j b).trans (h'.values j b).symm
  by_cases hj : j < n
  · have hj1 : j < path.length := by rw [h.length]; exact hj
    have hj2 : j < path'.length := by rw [h'.length]; exact hj
    rw [List.getElem?_eq_getElem hj1, List.getElem?_eq_getElem hj2] at hval ⊢
    rcases hp : path[j] with _ | b
    · rcases hp' : path'[j] with _ | b'
      · rfl
      · have := (hval b').mpr (by rw [hp'])
        rw [hp] at this
        cases this
    · have := (hval b).mp (by rw [hp])
      rw [this]
  · rw [List.getElem?_eq_none (by rw [h.length]; omega),
      List.getElem?_eq_none (by rw [h'.length]; omega)]

theorem walkFrom_append {node : ProofNode} {w' : Walker} : ∀ {nodes : List ProofNode} {index : ℕ}
    {start w : Walker}, walkFrom model index nodes start = .ok w → w.finished = false →
    w.visit model (index + nodes.length) node = .ok w' →
    walkFrom model index (nodes ++ [node]) start = .ok w'
  | [], index, start, w, h, hopen, hvisit => by
    cases h
    refine bind_eq_ok.mpr ⟨(), rejectIf_eq_ok.mpr (by simp [hopen]), ?_⟩
    exact bind_eq_ok.mpr ⟨w', hvisit, rfl⟩
  | first :: nodes, index, start, w, h, hopen, hvisit => by
    obtain ⟨_, hunfinished, h⟩ := unbind h
    obtain ⟨next, hnext, h⟩ := unbind h
    rw [List.length_cons, Nat.add_comm nodes.length 1, ← Nat.add_assoc] at hvisit
    refine bind_eq_ok.mpr ⟨(), hunfinished, ?_⟩
    exact bind_eq_ok.mpr ⟨next, hnext, walkFrom_append h hopen hvisit⟩

def assigned (w : Walker) (var : VarId) (value : Bool) : Walker :=
  { w with path := w.path.set var (some value), fixed := w.fixed ++ [var] }

theorem assign_of_free {var : VarId} (hfree : w.path[var]? = some none) (index : ℕ) (value : Bool) :
    w.assign index var value = .ok (assigned w var value) := by
  unfold Walker.assign
  rw [hfree]
  rfl

theorem visit_branch (model : Model δ) {var : VarId} (hfree : w.path[var]? = some none) (index : ℕ)
    (first : Bool) : w.visit model index (.branch var first) = .ok { assigned w var first with
      branches := ⟨var, !first, false, w.fixed.length⟩ :: w.branches } :=
  bind_eq_ok.mpr ⟨_, assign_of_free hfree index first, rfl⟩

def forcedWalk (w : Walker) (f : Forcing) : Walker :=
  { assigned w f.var f.value with evidence := { w.evidence with
      infeasibilityRows := w.evidence.infeasibilityRows ++ [f.row] } }

theorem visit_forced {f : Forcing} (h : Accepted model w.path f) (index : ℕ) :
    w.visit model index (.forced f.var f.value f.row) = .ok (forcedWalk w f) := by
  obtain ⟨hfree, spec, hspec, hsome, hrefuted⟩ := h
  refine bind_eq_ok.mpr ⟨spec, orReject_eq_ok.mpr hspec, ?_⟩
  refine bind_eq_ok.mpr ⟨_, assign_of_free hfree index _, ?_⟩
  refine bind_eq_ok.mpr ⟨(), rejectIf_eq_ok.mpr ?_, ?_⟩
  · rw [Bool.not_eq_false, Bool.and_eq_true]
    exact ⟨hsome, hrefuted⟩
  · unfold forcedWalk assigned
    rw [List.set_set]
    rfl

def boundWalk (model : Model δ) (w : Walker) (dual : LagrangeDual) : Walker :=
  { w with evidence := w.evidence.addBound (verifiedBound model dual w.path) }

theorem visit_bound (hlimits : Limits model) (hdual : Shaped model dual)
    (hpath : w.path.length = model.variableCount) (index : ℕ) :
    w.visit model index (.leaf (.bound dual)) = .ok (boundWalk model w dual).close := by
  refine bind_eq_ok.mpr ⟨boundWalk model w dual, ?_, rfl⟩
  exact bind_eq_ok.mpr ⟨_, scaledLagrangian_evaluates hlimits hdual hpath .objective index, rfl⟩

def infeasibleWalk (w : Walker) (row : RowId) : Walker :=
  { w with evidence := { w.evidence with
      infeasibilityRows := w.evidence.infeasibilityRows ++ [row] } }

theorem visit_infeasible (hlimits : Limits model) (hs : Coherent model s trail)
    (hpath : w.path = s.value) (hlt : row < model.rows.length)
    (hexcluded : isExcluded model s row = true) (index : ℕ) :
    w.visit model index (.leaf (.infeasible ⟨1, [⟨row, Recorder.infeasibleNumerator
      (rowAt model row).relation (decide ((rowAt model row).rhs < (s.activity row).1))⟩]⟩)) =
      .ok (infeasibleWalk w row).close := by
  have hspec : model.rows[row]? = some model.rows[row] := List.getElem?_eq_getElem hlt
  have hshaped : Shaped model ⟨1, [⟨row, Recorder.infeasibleNumerator (rowAt model row).relation
      (decide ((rowAt model row).rhs < (s.activity row).1))⟩]⟩ := by
    refine ⟨Nat.one_pos, Nat.one_le_two_pow, List.isChain_singleton _, fun e he => ?_⟩
    rw [List.mem_singleton.mp he, rowAt_eq hspec]
    exact ⟨_, hspec, signAllowed_infeasibleNumerator _ _⟩
  have hlen : w.path.length = model.variableCount := by rw [hpath, hs.tracks.length]
  refine bind_eq_ok.mpr ⟨infeasibleWalk w row, ?_, rfl⟩
  refine bind_eq_ok.mpr ⟨_, scaledLagrangian_evaluates hlimits hshaped hlen .feasibility index, ?_⟩
  refine bind_eq_ok.mpr ⟨(), rejectIf_eq_ok.mpr ?_, rfl⟩
  rw [not_le, hpath]
  exact lagrangian_pos_of_excluded hlimits hs hlt hexcluded

/-! ### The walk and the stack -/

def Waiting : List OpenBranch → List Pending → Prop
  | [], stack => stack = []
  | branch :: branches, stack =>
    if branch.startedSecond then Waiting branches stack
    else ∃ node rest, stack = node :: rest ∧ node.trailLen = branch.depth ∧
      node.fix = some (branch.var, branch.second) ∧ Waiting branches rest

def entryTrail (trail : Trail) (node : Pending) : Trail :=
  trail.take node.trailLen ++ node.fix.toList

structure StandsAt (model : Model δ) (trail : Trail) (w : Walker) (stack : List Pending) :
    Prop where
  unfinished : w.finished = false
  tracks : Tracks model.variableCount w.path w.fixed trail
  branches : Branches trail w.branches
  waiting : Waiting w.branches stack

def Follows (model : Model δ) (trail : Trail) (w : Walker) : List Pending → Prop
  | [] => w.finished = true
  | node :: rest => StandsAt model (entryTrail trail node) w rest

theorem Follows.of_take_eq {trail' : Trail} {stack : List Pending} (h : Follows model trail w stack)
    (htake : ∀ node ∈ stack.head?, trail.take node.trailLen = trail'.take node.trailLen) :
    Follows model trail' w stack := by
  cases stack with
  | nil => exact h
  | cons node rest =>
    have heq : entryTrail trail node = entryTrail trail' node := by
      unfold entryTrail
      rw [htake node rfl]
    rw [Follows] at h ⊢
    rw [← heq]
    exact h

theorem trailLen_lt_of_waiting : ∀ {branches : List OpenBranch} {trail : Trail} {node : Pending}
    {rest : List Pending}, Branches trail branches → Waiting branches (node :: rest) →
    node.trailLen < trail.length
  | [], _, _, _, _, h => by cases h
  | branch :: branches, trail, node, rest, hbranches, h => by
    have hdepth := depth_lt_of_branches hbranches
    unfold Waiting at h
    split_ifs at h
    · have hlt := trailLen_lt_of_waiting hbranches.2 h
      rw [List.length_take] at hlt
      omega
    · obtain ⟨node', rest', heq, hlen, -⟩ := h
      cases heq
      omega

theorem follows_closeFrom {evidence : Evidence} : ∀ {branches : List OpenBranch}
    {path : List (Option Bool)} {fixed : List VarId} {trail : Trail} {stack : List Pending},
    Tracks model.variableCount path fixed trail → Branches trail branches → Waiting branches stack →
    Follows model trail (Walker.closeFrom path fixed evidence branches) stack
  | [], _, _, _, stack, _, _, hwaiting => by
    unfold Waiting at hwaiting
    subst hwaiting
    rfl
  | branch :: branches, path, fixed, trail, stack, htracks, hbranches, hwaiting => by
    have hunwind := htracks.unwind branch.depth
    have hdepth := depth_lt_of_branches hbranches
    rw [Walker.closeFrom]
    dsimp only
    unfold Waiting at hwaiting
    split_ifs at hwaiting ⊢ with hstarted
    · refine (follows_closeFrom hunwind hbranches.2 hwaiting).of_take_eq fun node hnode => ?_
      cases stack with
      | nil => cases hnode
      | cons top rest =>
        cases hnode
        have hlt := trailLen_lt_of_waiting hbranches.2 hwaiting
        rw [List.length_take] at hlt
        rw [List.take_take, min_eq_left (by omega)]
    · obtain ⟨node, rest, rfl, hlen, hfix, hrest⟩ := hwaiting
      have hentry : entryTrail trail node =
          trail.take branch.depth ++ [(branch.var, branch.second)] := by
        unfold entryTrail
        rw [hlen, hfix]
        rfl
      have hcut : (trail.take branch.depth).length = branch.depth := by
        rw [List.length_take]
        exact min_eq_left (le_of_lt hdepth)
      have htake : (trail.take branch.depth ++ [(branch.var, branch.second)]).take branch.depth =
          trail.take branch.depth := by
        rw [List.take_append_of_le_length (le_of_eq hcut.symm), List.take_take, min_self]
      rw [Follows, hentry]
      refine ⟨rfl, hunwind.push (unwound_free htracks hbranches) branch.second, ⟨?_, ?_⟩, ?_⟩
      · rw [List.map_append, List.getElem?_append_right (by rw [List.length_map, hcut])]
        rw [List.length_map, hcut, Nat.sub_self]
        rfl
      · dsimp only
        rw [htake]
        exact hbranches.2
      · unfold Waiting
        exact hrest

end Medulla.Solve.Recording
