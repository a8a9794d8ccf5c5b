import Medulla.Solve.Bounds

/-! # The walk covers every assignment

Before the last leaf every assignment is on the current path, or waits in the second subtree of an open
branch, or is covered by what was verified so far: a row it violates is listed, or the bound is at most
its objective.

* one node: `sound_visit`; a whole walk: `sound_walkFrom`. -/

namespace Medulla.Solve.ProofTree

open Library.Checked Programme Verifier Bounds

variable {var : VarId} {value : Bool} {e evidence : Evidence} {x : List Bool} {index : ℕ}
  {path : List (Option Bool)}

/-! ### Trails -/

/-- The variables fixed on a path with their values, in order. -/
abbrev Trail := List (VarId × Bool)

variable {trail : Trail}

def Cell (trail : Trail) (x : List Bool) : Prop := ∀ p ∈ trail, x[p.1]? = some p.2

structure Tracks (n : ℕ) (path : List (Option Bool)) (fixed : List VarId) (trail : Trail) :
    Prop where
  length : path.length = n
  fixed : fixed = trail.map Prod.fst
  nodup : (trail.map Prod.fst).Nodup
  values : ∀ (j : ℕ) (b : Bool), path[j]? = some (some b) ↔ (j, b) ∈ trail

section trails

variable {n : ℕ} {fixed : List VarId}

theorem Cell.append_singleton :
    Cell (trail ++ [(var, value)]) x ↔ Cell trail x ∧ x[var]? = some value := by
  constructor
  · intro h
    exact ⟨fun p hp => h p (by simp [hp]), h (var, value) (by simp)⟩
  · rintro ⟨h, hvar⟩ p hp
    rcases List.mem_append.mp hp with hp | hp
    · exact h p hp
    · rw [List.mem_singleton.mp hp]
      exact hvar

theorem Cell.split (h : Cell trail x) (hvar : var < x.length) (value : Bool) :
    Cell (trail ++ [(var, value)]) x ∨ Cell (trail ++ [(var, !value)]) x := by
  rw [Cell.append_singleton, Cell.append_singleton, List.getElem?_eq_getElem hvar]
  rcases hx : x[var] with _ | _ <;> cases value <;> simp [h]

theorem Tracks.onPath (h : Tracks n path fixed trail) (hx : Cell trail x) : OnPath path x :=
  fun j b hj => hx (j, b) ((h.values j b).mp hj)

theorem tracks_start (n : ℕ) : Tracks n (List.replicate n none) [] [] := by
  refine ⟨List.length_replicate, rfl, List.nodup_nil, fun j b => ?_⟩
  rw [List.getElem?_replicate]
  constructor
  · intro h
    split_ifs at h
    cases h
  · intro h
    cases h

theorem Tracks.push (h : Tracks n path fixed trail) (hvar : path[var]? = some none) (value : Bool) :
    Tracks n (path.set var (some value)) (fixed ++ [var]) (trail ++ [(var, value)]) := by
  have hlt : var < path.length := (List.getElem?_eq_some_iff.mp hvar).1
  have hfree : var ∉ trail.map Prod.fst := by
    intro hmem
    obtain ⟨p, hp, rfl⟩ := List.mem_map.mp hmem
    have hfixed := (h.values p.1 p.2).mpr hp
    rw [hvar] at hfixed
    cases hfixed
  refine ⟨by rw [List.length_set, h.length], by rw [h.fixed, List.map_append]; rfl, ?_, ?_⟩
  · rw [List.map_append]
    refine List.Nodup.append h.nodup (List.nodup_singleton _) ?_
    exact List.disjoint_singleton.mpr hfree
  · intro j b
    rw [List.getElem?_set, List.mem_append, List.mem_singleton, Prod.mk.injEq]
    by_cases hj : var = j
    · subst hj
      rw [if_pos rfl, if_pos hlt]
      constructor
      · intro heq
        exact Or.inr ⟨rfl, by simpa using heq.symm⟩
      · rintro (hmem | ⟨-, rfl⟩)
        · exact absurd (List.mem_map_of_mem (f := Prod.fst) hmem) hfree
        · rfl
    · rw [if_neg hj, h.values]
      constructor
      · exact Or.inl
      · rintro (hmem | ⟨rfl, -⟩)
        · exact hmem
        · exact absurd rfl hj

theorem Tracks.reset (h : Tracks n path fixed (trail ++ [(var, value)])) (value' : Bool) :
    Tracks n (path.set var (some value')) fixed (trail ++ [(var, value')]) := by
  have hmem := (h.values var value).mpr (by simp)
  have hlt : var < path.length := (List.getElem?_eq_some_iff.mp hmem).1
  have hnodup := h.nodup
  rw [List.map_append] at hnodup
  have hfree : var ∉ trail.map Prod.fst :=
    List.disjoint_singleton.mp (List.disjoint_of_nodup_append hnodup)
  refine ⟨by rw [List.length_set, h.length], by rw [h.fixed]; simp, by simpa using h.nodup, ?_⟩
  intro j b
  have hold := h.values j b
  rw [List.mem_append, List.mem_singleton] at hold
  rw [List.getElem?_set, List.mem_append, List.mem_singleton, Prod.mk.injEq]
  by_cases hj : var = j
  · subst hj
    rw [if_pos rfl, if_pos hlt]
    constructor
    · intro heq
      exact Or.inr ⟨rfl, by simpa using heq.symm⟩
    · rintro (hm | ⟨-, rfl⟩)
      · exact absurd (List.mem_map_of_mem (f := Prod.fst) hm) hfree
      · rfl
  · rw [if_neg hj, hold]
    constructor
    · rintro (hm | ⟨rfl, -⟩)
      · exact Or.inl hm
      · exact absurd rfl hj
    · rintro (hm | ⟨rfl, -⟩)
      · exact Or.inl hm
      · exact absurd rfl hj

theorem getElem?_free : ∀ (vars : List VarId) (path : List (Option Bool)) (j : ℕ),
    (vars.foldl (fun path var => path.set var none) path)[j]? =
      if j ∈ vars then path[j]?.map fun _ => none else path[j]?
  | [], path, j => by simp
  | var :: vars, path, j => by
    rw [List.foldl_cons, getElem?_free vars, List.getElem?_set]
    by_cases hj : var = j
    · subst hj
      by_cases hlt : var < path.length
      · simp [hlt]
      · simp [hlt]
    · have hj' : j ≠ var := Ne.symm hj
      simp [hj, hj']

theorem length_free : ∀ (vars : List VarId) (path : List (Option Bool)),
    (vars.foldl (fun path var => path.set var none) path).length = path.length
  | [], _ => rfl
  | var :: vars, path => by rw [List.foldl_cons, length_free vars, List.length_set]

theorem Tracks.unwind (h : Tracks n path fixed trail) (depth : ℕ) :
    Tracks n (Walker.unwind path fixed depth).1 (Walker.unwind path fixed depth).2
      (trail.take depth) := by
  have hsplit : trail.map Prod.fst =
      (trail.take depth).map Prod.fst ++ (trail.drop depth).map Prod.fst := by
    rw [← List.map_append, List.take_append_drop]
  have hdisjoint : List.Disjoint ((trail.take depth).map Prod.fst)
      ((trail.drop depth).map Prod.fst) := by
    have hnodup := h.nodup
    rw [hsplit] at hnodup
    exact List.disjoint_of_nodup_append hnodup
  refine ⟨?_, ?_, ?_, fun j b => ?_⟩
  · exact (length_free _ _).trans h.length
  · change fixed.take depth = _
    rw [h.fixed, List.map_take]
  · rw [List.map_take]
    exact h.nodup.sublist (List.take_sublist _ _)
  · change ((fixed.drop depth).foldl (fun path var => path.set var none) path)[j]? = _ ↔ _
    rw [getElem?_free, h.fixed, ← List.map_drop]
    split_ifs with hj
    · constructor
      · intro heq
        rcases hp : path[j]? with _ | p
        · rw [hp] at heq
          cases heq
        · rw [hp] at heq
          cases heq
      · intro hmem
        exact absurd hj (hdisjoint (List.mem_map_of_mem (f := Prod.fst) hmem))
    · rw [h.values]
      constructor
      · intro hmem
        rw [← List.take_append_drop depth trail, List.mem_append] at hmem
        rcases hmem with hmem | hmem
        · exact hmem
        · exact absurd (List.mem_map_of_mem (f := Prod.fst) hmem) hj
      · exact fun hmem => List.mem_of_mem_take hmem

end trails

/-! ### Open branches -/

def Branches (trail : Trail) : List OpenBranch → Prop
  | [] => True
  | branch :: rest =>
    (trail.map Prod.fst)[branch.depth]? = some branch.var ∧ Branches (trail.take branch.depth) rest

/-- The assignments that wait in a second subtree. -/
def Pending (trail : Trail) : List OpenBranch → List Bool → Prop
  | [], _ => False
  | branch :: rest, x =>
    branch.startedSecond = false ∧ Cell (trail.take branch.depth ++ [(branch.var, branch.second)]) x ∨
      Pending (trail.take branch.depth) rest x

section branches

theorem depth_lt_of_branches {branch : OpenBranch} {rest : List OpenBranch}
    (h : Branches trail (branch :: rest)) : branch.depth < trail.length := by
  have hlt := (List.getElem?_eq_some_iff.mp h.1).1
  rwa [List.length_map] at hlt

theorem Branches.append (tail : Trail) : ∀ {branches : List OpenBranch},
    Branches trail branches → Branches (trail ++ tail) branches
  | [], _ => trivial
  | branch :: rest, h => by
    have hlt := depth_lt_of_branches h
    refine ⟨?_, ?_⟩
    · rw [List.map_append, List.getElem?_append_left (by rwa [List.length_map])]
      exact h.1
    · rw [List.take_append_of_le_length (le_of_lt hlt)]
      exact h.2

theorem pending_append (tail : Trail) : ∀ {branches : List OpenBranch},
    Branches trail branches → (Pending (trail ++ tail) branches x ↔ Pending trail branches x)
  | [], _ => Iff.rfl
  | branch :: rest, h => by
    have hlt := depth_lt_of_branches h
    rw [Pending, Pending, List.take_append_of_le_length (le_of_lt hlt)]

end branches

/-! ### Coverage -/

section coverage

variable {δ : Type} {model : Model δ}

/-- What the evidence so far says of an assignment: it violates a listed row, or the bound is at
most its objective if it satisfies every row. -/
def Covered (model : Model δ) (e : Evidence) (x : List Bool) : Prop :=
  (∃ r ∈ e.infeasibilityRows, ∃ row, model.rows[r]? = some row ∧ ¬ Satisfies row x) ∨
    e.boundLeaves ≠ 0 ∧ ((∀ row ∈ model.rows, Satisfies row x) →
      ∃ bound, e.minBound = some bound ∧ bound ≤ scalarValue model.weights x)

theorem Covered.addBound (h : Covered model e x) (bound : ℤ) :
    Covered model (e.addBound bound) x := by
  rcases h with h | ⟨-, h⟩
  · exact Or.inl h
  · refine Or.inr ⟨Nat.succ_ne_zero _, fun hall => ?_⟩
    obtain ⟨low, hlow, hle⟩ := h hall
    refine ⟨min low bound, ?_, (min_le_left low bound).trans hle⟩
    unfold Evidence.addBound
    rw [hlow]
    rfl

theorem Covered.addRows (h : Covered model e x) (rows : List RowId) :
    Covered model { e with infeasibilityRows := e.infeasibilityRows ++ rows } x := by
  rcases h with ⟨r, hr, h⟩ | h
  · exact Or.inl ⟨r, List.mem_append_left _ hr, h⟩
  · exact Or.inr h

theorem covered_addBound {bound : ℤ}
    (h : (∀ row ∈ model.rows, Satisfies row x) → bound ≤ scalarValue model.weights x) :
    Covered model (e.addBound bound) x := by
  refine Or.inr ⟨Nat.succ_ne_zero _, fun hall => ?_⟩
  unfold Evidence.addBound
  rcases e.minBound with _ | low
  · exact ⟨bound, rfl, h hall⟩
  · exact ⟨min low bound, rfl, (min_le_right low bound).trans (h hall)⟩

structure WellFormed (model : Model δ) : Prop where
  weights : model.weights.length = model.variableCount
  rows : ∀ row ∈ model.rows, InRange model.variableCount row

structure Walking (model : Model δ) (w : Walker) (trail : Trail) : Prop where
  tracks : Tracks model.variableCount w.path w.fixed trail
  branches : Branches trail w.branches
  covers : ∀ x : List Bool, x.length = model.variableCount →
    Covered model w.evidence x ∨ Cell trail x ∨ Pending trail w.branches x

/-- What holds of the walk: it goes on, or every assignment is covered. -/
def Sound (model : Model δ) (w : Walker) : Prop :=
  if w.finished then ∀ x : List Bool, x.length = model.variableCount → Covered model w.evidence x
  else ∃ trail, Walking model w trail

theorem walking_start (model : Model δ) : Walking model (.start model.variableCount) [] :=
  ⟨tracks_start _, trivial, fun _ _ => Or.inr (Or.inl fun _ hp => absurd hp List.not_mem_nil)⟩

/-! ### Nodes -/

theorem assign_ok {w assigned : Walker} (h : w.assign index var value = .ok assigned) :
    w.path[var]? = some none ∧
      assigned = { w with path := w.path.set var (some value), fixed := w.fixed ++ [var] } := by
  unfold Walker.assign at h
  rcases hp : w.path[var]? with _ | _ | b <;> rw [hp] at h
  · cases h
  · cases h
    exact ⟨rfl, rfl⟩
  · cases h

theorem var_lt {w : Walker} (h : Walking model w trail) (hvar : w.path[var]? = some none) :
    var < model.variableCount := by
  rw [← h.tracks.length]
  exact (List.getElem?_eq_some_iff.mp hvar).1

theorem Walking.branch {w assigned : Walker} (h : Walking model w trail) {first : Bool}
    (hok : w.assign index var first = .ok assigned) :
    Walking model
      { assigned with branches := ⟨var, !first, false, w.fixed.length⟩ :: assigned.branches }
      (trail ++ [(var, first)]) := by
  obtain ⟨hvar, rfl⟩ := assign_ok hok
  have hlen : w.fixed.length = trail.length := by rw [h.tracks.fixed, List.length_map]
  have htake : (trail ++ [(var, first)]).take w.fixed.length = trail := by
    rw [hlen, List.take_left']
    rfl
  refine ⟨h.tracks.push hvar first, ⟨?_, ?_⟩, fun x hx => ?_⟩
  · rw [hlen, List.map_append, List.getElem?_append_right (by rw [List.length_map])]
    simp
  · dsimp only
    rw [htake]
    exact h.branches
  · rcases h.covers x hx with hcov | hcell | hpending
    · exact Or.inl hcov
    · rcases hcell.split (by rw [hx]; exact var_lt h hvar) first with hfirst | hsecond
      · exact Or.inr (Or.inl hfirst)
      · refine Or.inr (Or.inr (Or.inl ⟨rfl, ?_⟩))
        rw [htake]
        exact hsecond
    · refine Or.inr (Or.inr (Or.inr ?_))
      rw [htake]
      exact hpending

theorem reach_bounds (hon : OnPath path x) (relation : Relation) (rhs : ℤ) :
    ∀ (terms : List Term) (reach : ℤ × ℤ),
    (terms.foldl (reachTerm path) reach).1 ≤ reach.1 + leftHandSide ⟨terms, relation, rhs⟩ x ∧
      reach.2 + leftHandSide ⟨terms, relation, rhs⟩ x ≤ (terms.foldl (reachTerm path) reach).2
  | [], reach => by simp [leftHandSide]
  | term :: terms, reach => by
    obtain ⟨h1, h2⟩ := reach_bounds hon relation rhs terms (reachTerm path reach term)
    rw [List.foldl_cons, leftHandSide_cons]
    have hstep : (reachTerm path reach term).1 ≤
          reach.1 + (if x.getD term.var false then term.coefficient else 0) ∧
        reach.2 + (if x.getD term.var false then term.coefficient else 0) ≤
          (reachTerm path reach term).2 := by
      unfold reachTerm
      rcases hp : path.getD term.var none with _ | b
      · dsimp only
        split_ifs <;> constructor <;> dsimp only <;> omega
      · have hpath : path[term.var]? = some (some b) := by
          rw [List.getD_eq_getElem?_getD] at hp
          rcases hq : path[term.var]? with _ | q
          · rw [hq] at hp
            cases hp
          · rw [hq] at hp
            rw [show q = some b from hp]
        have hx : x.getD term.var false = b := by
          rw [List.getD_eq_getElem?_getD, hon term.var b hpath]
          rfl
        rw [hx]
        cases b
        · simp
        · simp
    constructor <;> omega

theorem not_satisfies_of_unsatisfiable {row : Row} (h : unsatisfiable row path = true)
    (hon : OnPath path x) : ¬ Satisfies row x := by
  obtain ⟨h1, h2⟩ := reach_bounds hon row.relation row.rhs row.terms (0, 0)
  have hlhs : leftHandSide ⟨row.terms, row.relation, row.rhs⟩ x = leftHandSide row x := rfl
  unfold Satisfies holds
  unfold unsatisfiable at h
  rcases hrel : row.relation with _ | _ | _ <;> rw [hrel] at h <;>
    simp only [decide_eq_true_eq, Bool.or_eq_true] at h ⊢ <;> omega

theorem Walking.forced {w w' : Walker} (h : Walking model w trail) {row : RowId}
    (hok : w.forced model index var value row = .ok w') :
    Walking model w' (trail ++ [(var, value)]) := by
  obtain ⟨spec, hspec, hok⟩ := unbind hok
  obtain ⟨opposite, hassign, hok⟩ := unbind hok
  obtain ⟨_, hjust, hok⟩ := unbind hok
  cases hok
  rw [orReject_eq_ok] at hspec
  rw [rejectIf_eq_ok, Bool.not_eq_false, Bool.and_eq_true] at hjust
  obtain ⟨hvar, rfl⟩ := assign_ok hassign
  have hopposite := h.tracks.push hvar (!value)
  refine ⟨hopposite.reset value, h.branches.append _, fun x hx => ?_⟩
  rcases h.covers x hx with hcov | hcell | hpending
  · exact Or.inl (hcov.addRows [row])
  · rcases hcell.split (by rw [hx]; exact var_lt h hvar) value with hsame | hother
    · exact Or.inr (Or.inl hsame)
    · refine Or.inl (Or.inl ⟨row, List.mem_append_right _ (List.mem_singleton_self _), spec, hspec, ?_⟩)
      exact not_satisfies_of_unsatisfiable hjust.2 (hopposite.onPath hother)
  · exact Or.inr (Or.inr ((pending_append _ h.branches).mpr hpending))

theorem Walking.leaf (hmodel : WellFormed model) {w w' : Walker} (h : Walking model w trail)
    {proof : LeafProof} (hok : w.leaf model index proof = .ok w') :
    w' = { w with evidence := w'.evidence } ∧ ∀ x : List Bool, x.length = model.variableCount →
      Covered model w'.evidence x ∨ Pending trail w.branches x := by
  cases proof with
  | bound dual =>
    obtain ⟨scaled, hscaled, hok⟩ := unbind hok
    cases hok
    refine ⟨rfl, fun x hx => ?_⟩
    rcases h.covers x hx with hcov | hcell | hpending
    · exact Or.inl (hcov.addBound _)
    · refine Or.inl (covered_addBound fun hall => ?_)
      obtain ⟨hden, hle⟩ := scaledLagrangian_le hmodel.weights hmodel.rows hscaled hx h.tracks.length
        (h.tracks.onPath hcell) fun entry _ row hrow => hall row (List.mem_of_getElem? hrow)
      exact integerBound_le hden hle
    · exact Or.inr hpending
  | infeasible dual =>
    obtain ⟨scaled, hscaled, hok⟩ := unbind hok
    obtain ⟨_, hpos, hok⟩ := unbind hok
    cases hok
    rw [rejectIf_eq_ok] at hpos
    refine ⟨rfl, fun x hx => ?_⟩
    rcases h.covers x hx with hcov | hcell | hpending
    · exact Or.inl (hcov.addRows _)
    · refine Or.inl (Or.inl ?_)
      by_contra hnone
      -- were every row of the dual satisfied, its Lagrangian would be at most zero
      have hle := (scaledLagrangian_le hmodel.weights hmodel.rows hscaled hx h.tracks.length
        (h.tracks.onPath hcell) fun entry he row hrow => by
          by_contra hviolated
          refine hnone ⟨entry.row, List.mem_append_right _ ?_, row, hrow, hviolated⟩
          exact List.mem_map_of_mem he).2
      rw [targetValue] at hle
      omega
    · exact Or.inr hpending

theorem unwound_free {fixed : List VarId} {n : ℕ} {branch : OpenBranch} {rest : List OpenBranch}
    (htracks : Tracks n path fixed trail) (hbranches : Branches trail (branch :: rest)) :
    (Walker.unwind path fixed branch.depth).1[branch.var]? = some none := by
  have hunwind := htracks.unwind branch.depth
  have hvar : branch.var ∉ (trail.take branch.depth).map Prod.fst := by
    intro hmem
    rw [List.map_take] at hmem
    obtain ⟨i, hi, hget⟩ := List.mem_take_iff_getElem.mp hmem
    have hidx : (trail.map Prod.fst)[i]? = some branch.var := by
      rw [← hget]
      exact List.getElem?_eq_getElem _
    have heq := (List.getElem?_inj (lt_of_lt_of_le hi (min_le_right _ _)) htracks.nodup).mp
      (hidx.trans hbranches.1.symm)
    omega
  have hin : branch.var < n := by
    obtain ⟨p, hp, hpvar⟩ := List.mem_map.mp (List.mem_of_getElem? hbranches.1)
    have hget := (htracks.values p.1 p.2).mpr hp
    rw [← hpvar, ← htracks.length]
    exact (List.getElem?_eq_some_iff.mp hget).1
  rcases hget : (Walker.unwind path fixed branch.depth).1[branch.var]? with _ | _ | b
  · rw [List.getElem?_eq_none_iff, hunwind.length] at hget
    exact absurd hin (not_lt.mpr hget)
  · rfl
  · have hmem := (hunwind.values branch.var b).mp hget
    exact absurd (List.mem_map_of_mem (f := Prod.fst) hmem) hvar

theorem sound_closeFrom : ∀ {branches : List OpenBranch}
    {path : List (Option Bool)} {fixed : List VarId} {trail : Trail},
    Tracks model.variableCount path fixed trail → Branches trail branches →
    (∀ x : List Bool, x.length = model.variableCount →
      Covered model evidence x ∨ Pending trail branches x) →
    Sound model (Walker.closeFrom path fixed evidence branches)
  | [], _, _, _, _, _, hcov => by
    unfold Sound Walker.closeFrom
    rw [if_pos rfl]
    exact fun x hx => (hcov x hx).resolve_right id
  | branch :: rest, path, fixed, trail, htracks, hbranches, hcov => by
    have hunwind := htracks.unwind branch.depth
    rw [Walker.closeFrom]
    dsimp only
    split_ifs with hstarted
    · refine sound_closeFrom hunwind hbranches.2 fun x hx => ?_
      rcases hcov x hx with hcov | ⟨hfresh, -⟩ | hpending
      · exact Or.inl hcov
      · rw [hfresh] at hstarted
        cases hstarted
      · exact Or.inr hpending
    · have hlen : (trail.take branch.depth).length = branch.depth := by
        rw [List.length_take]
        exact min_eq_left (le_of_lt (depth_lt_of_branches hbranches))
      have htake : (trail.take branch.depth ++ [(branch.var, branch.second)]).take branch.depth =
          trail.take branch.depth := by
        rw [List.take_append_of_le_length (le_of_eq hlen.symm), List.take_take, min_self]
      refine ⟨_, hunwind.push (unwound_free htracks hbranches) branch.second, ⟨?_, ?_⟩,
        fun x hx => ?_⟩
      · rw [List.map_append, List.getElem?_append_right (by rw [List.length_map, hlen])]
        rw [List.length_map, hlen, Nat.sub_self]
        rfl
      · dsimp only
        rw [htake]
        exact hbranches.2
      · rcases hcov x hx with hcov | ⟨-, hcell⟩ | hpending
        · exact Or.inl hcov
        · exact Or.inr (Or.inl hcell)
        · refine Or.inr (Or.inr (Or.inr ?_))
          rw [htake]
          exact hpending

/-- **One node** keeps the walk sound. -/
theorem sound_visit (hmodel : WellFormed model) {w w' : Walker} (h : Walking model w trail)
    (hunfinished : w.finished = false) {node : ProofNode} (hok : w.visit model index node = .ok w') :
    Sound model w' := by
  cases node with
  | branch var first =>
    obtain ⟨assigned, hassign, hok⟩ := unbind hok
    cases hok
    have hwalking := h.branch hassign
    obtain ⟨-, rfl⟩ := assign_ok hassign
    unfold Sound
    rw [if_neg (by simpa using hunfinished)]
    exact ⟨_, hwalking⟩
  | forced var value row =>
    have hwalking := h.forced hok
    obtain ⟨spec, -, hok⟩ := unbind hok
    obtain ⟨opposite, hassign, hok⟩ := unbind hok
    obtain ⟨_, -, hok⟩ := unbind hok
    cases hok
    obtain ⟨-, rfl⟩ := assign_ok hassign
    unfold Sound
    rw [if_neg (by simpa using hunfinished)]
    exact ⟨_, hwalking⟩
  | leaf proof =>
    obtain ⟨closed, hleaf, hok⟩ := unbind hok
    cases hok
    obtain ⟨heq, hcov⟩ := h.leaf hmodel hleaf
    rw [heq]
    exact sound_closeFrom h.tracks h.branches hcov

/-- **A whole walk** that finishes covers every assignment. -/
theorem sound_walkFrom (hmodel : WellFormed model) : ∀ {nodes : List ProofNode} {index : ℕ}
    {w w' : Walker}, Sound model w → walkFrom model index nodes w = .ok w' → Sound model w'
  | [], _, _, _, h, hok => by
    cases hok
    exact h
  | node :: nodes, index, w, w', h, hok => by
    obtain ⟨_, hunfinished, hok⟩ := unbind hok
    obtain ⟨next, hvisit, hok⟩ := unbind hok
    rw [rejectIf_eq_ok, Bool.not_eq_true] at hunfinished
    unfold Sound at h
    rw [if_neg (by simp [hunfinished])] at h
    obtain ⟨trail, hwalking⟩ := h
    exact sound_walkFrom hmodel (sound_visit hmodel hwalking hunfinished hvisit) hok

theorem mem_dedupAdjacent {r : RowId} : ∀ {rows : List RowId}, r ∈ dedupAdjacent rows ↔ r ∈ rows
  | [] => Iff.rfl
  | [_] => Iff.rfl
  | a :: b :: rest => by
    rw [dedupAdjacent]
    split_ifs with hab
    · rw [mem_dedupAdjacent, hab]
      simp
    · rw [List.mem_cons, mem_dedupAdjacent, ← List.mem_cons]

theorem walk_covers (hmodel : WellFormed model) {nodes : List ProofNode}
    (h : walk model nodes = .ok evidence) (hx : x.length = model.variableCount) :
    Covered model evidence x := by
  obtain ⟨w, hwalk, h⟩ := unbind h
  obtain ⟨_, hfinished, h⟩ := unbind h
  cases h
  rw [rejectIf_eq_ok, Bool.not_eq_false] at hfinished
  have hstart : Sound model (.start model.variableCount) := by
    exact ⟨[], walking_start model⟩
  have hsound := sound_walkFrom hmodel hstart hwalk
  unfold Sound at hsound
  rw [if_pos hfinished] at hsound
  rcases hsound x hx with ⟨r, hr, hviolated⟩ | hbound
  · refine Or.inl ⟨r, ?_, hviolated⟩
    rw [mem_dedupAdjacent, List.mem_insertionSort]
    exact hr
  · exact Or.inr hbound

theorem root_covers (hmodel : WellFormed model) {dual : LagrangeDual}
    (h : root model dual = .ok evidence) (hx : x.length = model.variableCount) :
    Covered model evidence x := by
  obtain ⟨scaled, hscaled, h⟩ := unbind h
  cases h
  have hon : OnPath (List.replicate model.variableCount none) x :=
    (tracks_start _).onPath fun _ hp => absurd hp List.not_mem_nil
  refine covered_addBound fun hall => ?_
  obtain ⟨hden, hle⟩ := scaledLagrangian_le hmodel.weights hmodel.rows hscaled hx
    List.length_replicate hon fun entry _ row hrow => hall row (List.mem_of_getElem? hrow)
  exact integerBound_le hden hle

end coverage

end Medulla.Solve.ProofTree
