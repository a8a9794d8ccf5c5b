import Medulla.Solve.Soundness
import Medulla.Solve.Propagate

/-! # The caches equal their definitions

The activities of a coherent state are those of its values, so a row the search finds infeasible is one
the verifier finds unsatisfiable on the same path. -/

namespace Medulla.Solve.Coherence

open Programme Verifier Bounds ProofTree Propagate

variable {δ : Type} {model : Model δ} {value : List (Option Bool)} {var : VarId} {b : Bool}
  {s : SearchState} {trail : Trail} {row : RowId} {spec : Row} {term : Term}

/-! ### Activities -/

def fixedPart (value : List (Option Bool)) (term : Term) : ℤ :=
  if value[term.var]? = some (some true) then term.coefficient else 0

def freePart (value : List (Option Bool)) (f : ℤ → ℤ) (term : Term) : ℤ :=
  if value[term.var]? = some none then f term.coefficient else 0

def activityOf (value : List (Option Bool)) (terms : List Term) : Activity where
  fixed := (terms.map (fixedPart value)).sum
  freePositive := (terms.map (freePart value fun c => max c 0)).sum
  freeNegative := (terms.map (freePart value fun c => min c 0)).sum
  freeCount := (terms.map (freePart value fun _ => 1)).sum

def coefficients (terms : List Term) (var : VarId) : List ℤ :=
  (terms.filter fun term => term.var = var).map Term.coefficient

theorem foldl_move (value : Bool) (direction : ℤ) : ∀ (coefficients : List ℤ) (a : Activity),
    coefficients.foldl (fun a c => a.move c value direction) a =
      { fixed := a.fixed + if value then direction * coefficients.sum else 0
        freePositive := a.freePositive - direction * (coefficients.map fun c => max c 0).sum
        freeNegative := a.freeNegative - direction * (coefficients.map fun c => min c 0).sum
        freeCount := a.freeCount - direction * (coefficients.map fun _ => (1 : ℤ)).sum }
  | [], a => by simp
  | c :: coefficients, a => by
    rw [List.foldl_cons, foldl_move value direction coefficients]
    unfold Activity.move
    simp only [List.map_cons, List.sum_cons, Activity.mk.injEq]
    refine ⟨?_, by ring, by ring, by ring⟩
    cases value
    · simp
    · simp only [if_true]
      ring

theorem sum_fixedPart_set (hfree : value[var]? = some none) : ∀ terms : List Term,
    (terms.map (fixedPart (value.set var (some b)))).sum =
      (terms.map (fixedPart value)).sum + if b then (coefficients terms var).sum else 0
  | [] => by simp [coefficients]
  | term :: terms => by
    have hlt : var < value.length := (List.getElem?_eq_some_iff.mp hfree).1
    have ih := sum_fixedPart_set hfree terms
    unfold coefficients at ih ⊢
    rw [List.map_cons, List.sum_cons, List.map_cons, List.sum_cons, ih, List.filter_cons]
    unfold fixedPart
    by_cases hvar : term.var = var
    · rw [hvar, List.getElem?_set_self hlt, hfree]
      cases b <;> simp
      ring
    · rw [List.getElem?_set_ne (Ne.symm hvar)]
      simp only [hvar, decide_false, Bool.false_eq_true, if_false]
      ring

theorem sum_freePart_set (hfree : value[var]? = some none) (f : ℤ → ℤ) : ∀ terms : List Term,
    (terms.map (freePart (value.set var (some b)) f)).sum =
      (terms.map (freePart value f)).sum - ((coefficients terms var).map f).sum
  | [] => by simp [coefficients]
  | term :: terms => by
    have hlt : var < value.length := (List.getElem?_eq_some_iff.mp hfree).1
    have ih := sum_freePart_set hfree f terms
    unfold coefficients at ih ⊢
    rw [List.map_cons, List.sum_cons, List.map_cons, List.sum_cons, ih, List.filter_cons]
    unfold freePart
    by_cases hvar : term.var = var
    · rw [hvar, List.getElem?_set_self hlt, hfree]
      simp
    · rw [List.getElem?_set_ne (Ne.symm hvar)]
      simp only [hvar, decide_false, Bool.false_eq_true, if_false]
      ring

theorem activityOf_set (b : Bool) (hfree : value[var]? = some none) (terms : List Term) :
    activityOf (value.set var (some b)) terms =
      (coefficients terms var).foldl (fun a c => a.move c b 1) (activityOf value terms) := by
  rw [foldl_move]
  unfold activityOf
  rw [sum_fixedPart_set hfree, sum_freePart_set hfree, sum_freePart_set hfree,
    sum_freePart_set hfree]
  simp

theorem foldl_move_back (coefficients : List ℤ) (b : Bool) (a : Activity) :
    coefficients.foldl (fun a c => a.move c b (-1)) (coefficients.foldl (fun a c => a.move c b 1) a) =
      a := by
  rw [foldl_move, foldl_move]
  cases b <;> simp

theorem activityOf_free (hfixed : value[var]? = some (some b)) (terms : List Term) :
    activityOf (value.set var none) terms =
      (coefficients terms var).foldl (fun a c => a.move c b (-1)) (activityOf value terms) := by
  obtain ⟨hlt, hget⟩ := List.getElem?_eq_some_iff.mp hfixed
  have hfree : (value.set var none)[var]? = some none := List.getElem?_set_self hlt
  have hback : (value.set var none).set var (some b) = value := by
    rw [List.set_set, ← hget, List.set_getElem_self]
  have hset := activityOf_set b hfree terms
  rw [hback] at hset
  rw [hset, foldl_move_back]

/-! ### Columns -/

theorem filter_columns (var : VarId) (i : ℕ) : ∀ (rows : List Row) (k : ℕ),
    ((rows.zipIdx k).flatMap fun r =>
      (r.1.terms.filter fun term => term.var = var).map fun term => (r.2, term.coefficient)).filter
        (fun e => e.1 = i) =
      if k ≤ i then (coefficients (rows.getD (i - k) ⟨[], .equal, 0⟩).terms var).map fun c => (i, c)
      else []
  | [], k => by simp [coefficients]
  | row :: rows, k => by
    rw [List.zipIdx_cons, List.flatMap_cons, List.filter_append, filter_columns var i rows (k + 1)]
    rw [List.filter_map]
    by_cases hik : i = k
    · subst hik
      simp [coefficients]
    · have hki : ¬ k = i := fun h => hik h.symm
      by_cases hle : k ≤ i
      · obtain ⟨d, rfl⟩ : ∃ d, i = k + 1 + d := ⟨i - k - 1, by omega⟩
        have hsub : k + 1 + d - k = d + 1 := by omega
        have hle' : k + 1 ≤ k + 1 + d := Nat.le_add_right _ _
        rw [if_pos hle, hsub, Nat.add_sub_cancel_left]
        simp [hki]
      · have hle' : ¬ k + 1 ≤ i := by omega
        simp [hki, hle, hle']

theorem filter_column (var : VarId) (i : RowId) : (column model var).filter (fun e => e.1 = i) =
      (coefficients (rowAt model i).terms var).map fun c => (i, c) := by
  have h := filter_columns var i model.rows 0
  exact h

theorem getElem?_foldl_modify {α β : Type} (f : β → α → α) (i : ℕ) :
    ∀ (entries : List (ℕ × β)) (l : List α),
    (entries.foldl (fun l e => l.modify e.1 (f e.2)) l)[i]? =
      l[i]?.map fun a => (entries.filter fun e => e.1 = i).foldl (fun a e => f e.2 a) a
  | [], l => by simp
  | (j, b) :: entries, l => by
    rw [List.foldl_cons, getElem?_foldl_modify f i entries, List.getElem?_modify]
    by_cases hj : j = i
    · rcases hl : l[i]? with _ | a <;> simp [hj]
    · rcases hl : l[i]? with _ | a <;> simp [hj]

theorem shift_activities (var : VarId) (b : Bool) (direction : ℤ)
    (hs : s.activities = model.rows.map fun row => activityOf value row.terms) :
    (s.shift model var b direction).activities = model.rows.map fun row =>
      (coefficients row.terms var).foldl (fun a c => a.move c b direction)
        (activityOf value row.terms) := by
  refine List.ext_getElem? fun i => ?_
  unfold SearchState.shift
  rw [getElem?_foldl_modify (fun c a => Activity.move a c b direction), filter_column, hs,
    List.getElem?_map, List.getElem?_map]
  rcases hrow : model.rows[i]? with _ | row
  · rfl
  · have hat : rowAt model i = row := by
      rw [rowAt, List.getD_eq_getElem?_getD, hrow]
      rfl
    rw [hat]
    simp only [Option.map_some, List.foldl_map]

/-! ### Coherent states -/

def Cached (model : Model δ) (s : SearchState) : Prop :=
  s.activities = model.rows.map fun row => activityOf s.value row.terms

structure Coherent (model : Model δ) (s : SearchState) (trail : Trail) : Prop where
  tracks : Tracks model.variableCount s.value s.trail trail
  cached : Cached model s

theorem isFree_iff : s.isFree var = true ↔ s.value[var]? = some none := by
  simp [SearchState.isFree]

theorem activityOf_replicate {n : ℕ} : ∀ {terms : List Term}, (∀ term ∈ terms, term.var < n) →
    activityOf (List.replicate n none) terms = .ofTerms terms := by
  intro terms hterms
  have hfold : terms.foldl (fun a term => a.move term.coefficient false (-1)) Activity.none =
      (terms.map Term.coefficient).foldl (fun a c => a.move c false (-1)) .none := by
    rw [List.foldl_map]
  have hfixed : ∀ term ∈ terms, fixedPart (List.replicate n none) term = 0 := by
    intro term hterm
    simp [fixedPart, hterms term hterm]
  have hfree : ∀ (f : ℤ → ℤ), ∀ term ∈ terms,
      freePart (List.replicate n none) f term = f term.coefficient := by
    intro f term hterm
    simp [freePart, hterms term hterm]
  unfold Activity.ofTerms
  rw [hfold, foldl_move]
  unfold activityOf Activity.none
  rw [List.map_congr_left hfixed, List.map_congr_left (hfree _), List.map_congr_left (hfree _),
    List.map_congr_left (hfree _)]
  simp [Function.comp_def]

theorem coherent_new (hmodel : WellFormed model) : Coherent model (.new model) [] := by
  refine ⟨tracks_start _, ?_⟩
  refine List.map_congr_left fun row hrow => ?_
  exact (activityOf_replicate (hmodel.rows row hrow)).symm

theorem Coherent.fix (h : Coherent model s trail) (hfree : s.value[var]? = some none) (b : Bool) :
    Coherent model (s.fix model var b) (trail ++ [(var, b)]) := by
  refine ⟨h.tracks.push hfree b, ?_⟩
  have hshift := shift_activities (s := { s with
    value := s.value.set var (some b), trail := s.trail ++ [var] }) var b 1 h.cached
  refine hshift.trans ?_
  exact List.map_congr_left fun row _ => (activityOf_set b hfree row.terms).symm

theorem cached_release (h : Cached model s) (hfixed : s.value[var]? = some (some b)) :
    Cached model (s.release model var) := by
  have hb : decide (s.value.getD var none = some true) = b := by
    rw [List.getD_eq_getElem?_getD, hfixed]
    cases b <;> rfl
  have hshift := shift_activities (s := { s with value := s.value.set var none }) var b (-1) h
  unfold Cached SearchState.release
  rw [hb]
  refine hshift.trans ?_
  exact List.map_congr_left fun row _ => (activityOf_free hfixed row.terms).symm

theorem release_fields (s : SearchState) (var : VarId) :
    (s.release model var).value = s.value.set var none ∧ (s.release model var).trail = s.trail :=
  ⟨rfl, rfl⟩

theorem undo_trail : ∀ {last first : Trail} {s : SearchState}, Cached model s →
    Tracks model.variableCount s.value ((first ++ last).map Prod.fst) (first ++ last) →
    Cached model ((last.map Prod.fst).foldr (SearchState.release model) s) ∧
      ((last.map Prod.fst).foldr (SearchState.release model) s).trail = s.trail ∧
      Tracks model.variableCount ((last.map Prod.fst).foldr (SearchState.release model) s).value
        (first.map Prod.fst) first
  | [], first, s, hcached, htracks => by
    rw [List.append_nil] at htracks
    exact ⟨hcached, rfl, htracks⟩
  | (var, b) :: last, first, s, hcached, htracks => by
    rw [List.append_cons] at htracks
    obtain ⟨ihcached, ihtrail, ihtracks⟩ := undo_trail hcached htracks
    rw [List.map_cons, List.foldr_cons]
    have hfixed := (ihtracks.values var b).mpr (by simp)
    refine ⟨cached_release ihcached hfixed, ihtrail, ?_⟩
    rw [(release_fields _ _).1]
    have hunwind := ihtracks.unwind first.length
    have hpath : ∀ path : List (Option Bool),
        (Walker.unwind path ((first ++ [(var, b)]).map Prod.fst) first.length).1 =
          path.set var none := by
      simp [Walker.unwind]
    simpa [Walker.unwind] using hunwind

theorem Coherent.undoTo (h : Coherent model s trail) (len : ℕ) :
    Coherent model (s.undoTo model len) (trail.take len) := by
  have hsplit : trail.take len ++ trail.drop len = trail := List.take_append_drop _ _
  have htrail : s.trail.drop len = (trail.drop len).map Prod.fst := by
    rw [h.tracks.fixed, List.map_drop]
  have htracks : Tracks model.variableCount s.value
      ((trail.take len ++ trail.drop len).map Prod.fst) (trail.take len ++ trail.drop len) := by
    rw [hsplit, ← h.tracks.fixed]
    exact h.tracks
  obtain ⟨hcached, hkept, hvalue⟩ :=
    undo_trail (s := { s with trail := s.trail.take len }) h.cached htracks
  unfold SearchState.undoTo
  rw [htrail]
  refine ⟨?_, hcached⟩
  have hfixed : s.trail.take len = (trail.take len).map Prod.fst := by
    rw [h.tracks.fixed, List.map_take]
  rw [hkept]
  exact hfixed ▸ hvalue

/-! ### Rows at a node -/

theorem rowAt_eq (h : model.rows[row]? = some spec) : rowAt model row = spec := by
  rw [rowAt, List.getD_eq_getElem?_getD, h]
  rfl

theorem activity_eq (h : Cached model s) (hrow : model.rows[row]? = some spec) :
    s.activities.getD row .none = activityOf s.value spec.terms := by
  rw [List.getD_eq_getElem?_getD, h, List.getElem?_map, hrow]
  rfl

theorem reach_eq (path : List (Option Bool)) : ∀ (terms : List Term),
    (∀ term ∈ terms, term.var < path.length) → ∀ reach : ℤ × ℤ,
    terms.foldl (reachTerm path) reach =
      (reach.1 + ((activityOf path terms).fixed + (activityOf path terms).freeNegative),
        reach.2 + ((activityOf path terms).fixed + (activityOf path terms).freePositive))
  | [], _, reach => by simp [activityOf]
  | term :: terms, hterms, reach => by
    have hlt : term.var < path.length := hterms term (.head _)
    have ih := reach_eq path terms
      (fun t ht => hterms t (.tail _ ht)) (reachTerm path reach term)
    rw [List.foldl_cons, ih]
    unfold activityOf
    simp only [List.map_cons, List.sum_cons]
    unfold reachTerm fixedPart freePart
    rw [List.getD_eq_getElem?_getD, List.getElem?_eq_getElem hlt]
    rcases hp : path[term.var] with _ | _ | _
    · simp only [Option.getD_some, reduceCtorEq, Option.some.injEq, if_false]
      split_ifs with hneg
      · rw [min_eq_left (le_of_lt hneg), max_eq_right (le_of_lt hneg)]
        refine Prod.ext ?_ ?_ <;> (dsimp only; ring)
      · rw [min_eq_right (not_lt.mp hneg), max_eq_left (not_lt.mp hneg)]
        refine Prod.ext ?_ ?_ <;> (dsimp only; ring)
    · simp
    · refine Prod.ext ?_ ?_ <;> simp <;> ring

theorem unsatisfiable_eq {path : List (Option Bool)} (h : InRange path.length spec) :
    unsatisfiable spec path = excludes spec.relation spec.rhs
      ((activityOf path spec.terms).fixed + (activityOf path spec.terms).freeNegative)
      ((activityOf path spec.terms).fixed + (activityOf path spec.terms).freePositive) := by
  unfold unsatisfiable excludes
  rw [reach_eq path spec.terms h]
  rcases spec.relation with _ | _ | _
  · simp
  · simp
  · simp [Bool.or_comm]

theorem isExcluded_eq (hmodel : WellFormed model) (h : Coherent model s trail)
    (hrow : model.rows[row]? = some spec) :
    isExcluded model s row = unsatisfiable spec s.value := by
  have hrange : InRange s.value.length spec := by
    rw [h.tracks.length]
    exact hmodel.rows spec (List.mem_of_getElem? hrow)
  unfold isExcluded SearchState.activity
  rw [unsatisfiable_eq hrange, rowAt_eq hrow, activity_eq h.cached hrow]

/-- What is known of a row's terms: each variable appears once. -/
def Distinct (model : Model δ) : Prop := ∀ row ∈ model.rows, (row.terms.map Term.var).Nodup

theorem coefficients_eq {terms : List Term} (hnodup : (terms.map Term.var).Nodup)
    (hterm : term ∈ terms) : coefficients terms term.var = [term.coefficient] := by
  induction terms with
  | nil => cases hterm
  | cons first rest ih =>
    rw [List.map_cons, List.nodup_cons] at hnodup
    have hother : ∀ t ∈ rest, ¬ t.var = first.var := fun t ht heq =>
      hnodup.1 (heq ▸ List.mem_map_of_mem ht)
    unfold coefficients at ih ⊢
    rw [List.filter_cons]
    rcases List.mem_cons.mp hterm with rfl | hmem
    · rw [if_pos (by simp), List.filter_eq_nil_iff.mpr fun t ht => by simpa using hother t ht]
      rfl
    · rw [if_neg (by simpa using Ne.symm (hother term hmem))]
      exact ih hnodup.2 hmem

theorem coefficientOf_isSome (hterm : term ∈ spec.terms) :
    (spec.coefficientOf term.var).isSome = true := by
  unfold Row.coefficientOf
  rw [Option.isSome_map, List.find?_isSome]
  exact ⟨term, hterm, by simp⟩

theorem narrowed_eq {path : List (Option Bool)} (hnodup : (spec.terms.map Term.var).Nodup)
    (hterm : term ∈ spec.terms) (hfree : path[term.var]? = some none) (b : Bool) :
    narrowed ((activityOf path spec.terms).fixed + (activityOf path spec.terms).freeNegative,
        (activityOf path spec.terms).fixed + (activityOf path spec.terms).freePositive)
        term.coefficient b =
      ((activityOf (path.set term.var (some b)) spec.terms).fixed +
          (activityOf (path.set term.var (some b)) spec.terms).freeNegative,
        (activityOf (path.set term.var (some b)) spec.terms).fixed +
          (activityOf (path.set term.var (some b)) spec.terms).freePositive) := by
  rw [activityOf_set b hfree, coefficients_eq hnodup hterm]
  unfold narrowed
  simp only [List.foldl_cons, List.foldl_nil, Activity.move]
  refine Prod.ext ?_ ?_ <;> dsimp only <;> cases b <;> simp <;> ring

theorem unsatisfiable_of_forcedValue (hmodel : WellFormed model) (hdistinct : Distinct model)
    (h : Coherent model s trail) (hrow : model.rows[row]? = some spec) (hterm : term ∈ spec.terms)
    (hfree : s.value[term.var]? = some none) {value : Bool}
    (hforced : forcedValue spec.relation spec.rhs (s.activity row) term.coefficient = some value) :
    unsatisfiable spec (s.value.set term.var (some !value)) = true := by
  have hmem := List.mem_of_getElem? hrow
  have hexcl := List.find?_some hforced
  unfold SearchState.activity at hexcl
  rw [activity_eq h.cached hrow, narrowed_eq (hdistinct spec hmem) hterm hfree] at hexcl
  have hrange : InRange (s.value.set term.var (some !value)).length spec := by
    rw [List.length_set, h.tracks.length]
    exact hmodel.rows spec hmem
  rw [unsatisfiable_eq hrange]
  exact hexcl

/-! ### The queue -/

/-- The flags say which rows are queued, none twice. -/
structure Queued (n : ℕ) (q : RowQueue) : Prop where
  length : q.queued.length = n
  nodup : q.rows.Nodup
  flags : ∀ row, q.queued[row]? = some true ↔ row ∈ q.rows

section queue

variable {n : ℕ} {q : RowQueue}

theorem queued_new (n : ℕ) : Queued n (.new n) := by
  refine ⟨List.length_replicate, List.nodup_nil, fun row => ?_⟩
  simp [RowQueue.new, List.getElem?_replicate]

theorem Queued.lt (h : Queued n q) (hrow : row ∈ q.rows) : row < n := by
  rw [← h.length]
  exact (List.getElem?_eq_some_iff.mp ((h.flags row).mpr hrow)).1

theorem Queued.length_le (h : Queued n q) : q.rows.length ≤ n := by
  have hsub : q.rows ⊆ List.range n := fun row hrow => List.mem_range.mpr (h.lt hrow)
  have hle := (List.subperm_of_subset h.nodup hsub).length_le
  rwa [List.length_range] at hle

theorem Queued.push (h : Queued n q) (hrow : row < n) :
    Queued n (q.push row) ∧ ∀ r, r ∈ (q.push row).rows ↔ r = row ∨ r ∈ q.rows := by
  have hget : ∀ b, q.queued.getD row false = b → q.queued[row]? = some b := by
    intro b hb
    rw [List.getD_eq_getElem?_getD, List.getElem?_eq_getElem (by rw [h.length]; exact hrow)] at hb
    rw [List.getElem?_eq_getElem (by rw [h.length]; exact hrow)]
    exact congrArg some hb
  unfold RowQueue.push
  split_ifs with hflag
  · have hmem := (h.flags row).mp (hget true hflag)
    refine ⟨h, fun r => ⟨Or.inr, ?_⟩⟩
    rintro (rfl | hr)
    · exact hmem
    · exact hr
  · have hnot : row ∉ q.rows := by
      intro hmem
      have htrue := (h.flags row).mpr hmem
      rw [List.getD_eq_getElem?_getD, htrue] at hflag
      exact hflag rfl
    refine ⟨⟨by rw [List.length_set, h.length], List.nodup_cons.mpr ⟨hnot, h.nodup⟩, fun r => ?_⟩,
      fun r => List.mem_cons⟩
    rw [List.getElem?_set, List.mem_cons]
    by_cases hr : row = r
    · subst hr
      simp [h.length, hrow]
    · rw [if_neg hr, h.flags]
      constructor
      · exact Or.inr
      · rintro (rfl | hmem)
        · exact absurd rfl hr
        · exact hmem

theorem Queued.pushList : ∀ (rows : List RowId) {q : RowQueue}, Queued n q →
    (∀ row ∈ rows, row < n) → Queued n (rows.foldl RowQueue.push q) ∧
      ∀ r, r ∈ (rows.foldl RowQueue.push q).rows ↔ r ∈ rows ∨ r ∈ q.rows
  | [], q, h, _ => ⟨h, fun r => by simp⟩
  | row :: rows, q, h, hrows => by
    obtain ⟨hpush, hmem⟩ := h.push (hrows row (.head _))
    obtain ⟨hrest, hall⟩ := Queued.pushList rows hpush fun r hr => hrows r (.tail _ hr)
    refine ⟨hrest, fun r => ?_⟩
    rw [List.foldl_cons, hall, hmem, List.mem_cons]
    tauto

theorem Queued.pushAll (h : Queued n q) : Queued n q.pushAll ∧ ∀ r < n, r ∈ q.pushAll.rows := by
  obtain ⟨hqueued, hmem⟩ := Queued.pushList (List.range q.queued.length) h fun row hrow => by
    rw [← h.length]
    exact List.mem_range.mp hrow
  refine ⟨hqueued, fun r hr => (hmem r).mpr (Or.inl ?_)⟩
  rw [List.mem_range, h.length]
  exact hr

theorem Queued.pop (h : Queued n q) {rest : RowQueue} (hpop : q.pop = some (row, rest)) :
    Queued n rest ∧ q.rows = row :: rest.rows := by
  unfold RowQueue.pop at hpop
  rcases hrows : q.rows with _ | ⟨first, rows⟩
  · rw [hrows] at hpop
    cases hpop
  · rw [hrows] at hpop
    cases hpop
    have hnodup := h.nodup
    rw [hrows, List.nodup_cons] at hnodup
    have hlt : row < q.queued.length := by
      rw [h.length]
      exact h.lt (by rw [hrows]; exact .head _)
    refine ⟨⟨by rw [List.length_set, h.length], hnodup.2, fun r => ?_⟩, rfl⟩
    rw [List.getElem?_set]
    by_cases hr : row = r
    · subst hr
      simp [hnodup.1]
    · rw [if_neg hr, h.flags, hrows, List.mem_cons]
      constructor
      · rintro (rfl | hmem)
        · exact absurd rfl hr
        · exact hmem
      · exact Or.inr

theorem getElem?_clear : ∀ (rows : List RowId) (queued : List Bool) (r : RowId),
    (rows.foldl (fun queued row => queued.set row false) queued)[r]? =
      if r ∈ rows then queued[r]?.map fun _ => false else queued[r]?
  | [], queued, r => by simp
  | row :: rows, queued, r => by
    rw [List.foldl_cons, getElem?_clear rows, List.getElem?_set]
    by_cases hr : row = r
    · subst hr
      by_cases hlt : row < queued.length
      · simp [hlt]
      · simp [hlt]
    · have hr' : r ≠ row := Ne.symm hr
      simp [hr, hr']

theorem length_clear : ∀ (rows : List RowId) (queued : List Bool),
    (rows.foldl (fun queued row => queued.set row false) queued).length = queued.length
  | [], _ => rfl
  | row :: rows, queued => by rw [List.foldl_cons, length_clear rows, List.length_set]

theorem Queued.clear (h : Queued n q) : Queued n q.clear ∧ q.clear.rows = [] := by
  refine ⟨⟨(length_clear _ _).trans h.length, List.nodup_nil, fun r => ?_⟩, rfl⟩
  unfold RowQueue.clear
  rw [getElem?_clear]
  split_ifs with hr
  · rcases q.queued[r]? with _ | b <;> simp
  · rw [h.flags]
    simp [hr]

end queue

end Medulla.Solve.Coherence
