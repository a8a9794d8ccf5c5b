import Medulla.Solve.Verifier
import Mathlib.Tactic.Linarith
import Mathlib.Tactic.Ring

/-! # What a dual proves

Weak duality, for the arithmetic the verifier does: the scaled Lagrangian of a well-formed dual at a
path is at most the scaled objective of every assignment on the path that satisfies the rows of the
dual. -/

namespace Medulla.Solve.Bounds

open Library.Checked Programme Verifier

variable {x : List Bool} {node : ℕ}

/-! ### Assignments -/

def Satisfies (row : Row) (x : List Bool) : Prop :=
  holds row.relation (leftHandSide row x) row.rhs = true

/-- An assignment is on a path: it agrees with every fixed variable. -/
def OnPath (path : List (Option Bool)) (x : List Bool) : Prop :=
  ∀ (j : ℕ) (b : Bool), path[j]? = some (some b) → x[j]? = some b

theorem OnPath.tail {p : Option Bool} {path : List (Option Bool)} {b : Bool}
    (h : OnPath (p :: path) (b :: x)) : OnPath path x :=
  fun j c hj => by simpa using h (j + 1) c (by simpa using hj)

def InRange (n : ℕ) (row : Row) : Prop := ∀ term ∈ row.terms, term.var < n

/-! ### Linear parts -/

@[simp]
theorem scalarValue_nil (x : List Bool) : scalarValue [] x = 0 := rfl

@[simp]
theorem scalarValue_cons (c : ℤ) (costs : List ℤ) (b : Bool) (x : List Bool) :
    scalarValue (c :: costs) (b :: x) = (if b then c else 0) + scalarValue costs x := by
  unfold scalarValue
  cases b <;> simp

theorem scalarValue_set : ∀ (costs : List ℤ) {x : List Bool} {j : ℕ} (d : ℤ),
    costs.length = x.length → j < costs.length →
    scalarValue (costs.set j (costs.getD j 0 - d)) x =
      scalarValue costs x - if x.getD j false then d else 0
  | [], _, _, _, _, hj => absurd hj (Nat.not_lt_zero _)
  | c :: costs, b :: x, 0, d, _, _ => by
    cases b
    · simp
    · simp only [List.getD_cons_zero, List.set_cons_zero, scalarValue_cons, if_true]
      omega
  | c :: costs, b :: x, j + 1, d, hlen, hj => by
    have ih := scalarValue_set costs (x := x) (j := j) d (by simpa using hlen)
      (by simpa using hj)
    simp only [List.getD_cons_succ, List.set_cons_succ, scalarValue_cons]
    omega

theorem leftHandSide_cons (term : Term) (terms : List Term) (relation : Relation) (rhs : ℤ)
    (x : List Bool) :
    leftHandSide ⟨term :: terms, relation, rhs⟩ x =
      (if x.getD term.var false then term.coefficient else 0) +
        leftHandSide ⟨terms, relation, rhs⟩ x := by
  unfold leftHandSide
  rw [List.filter_cons]
  split_ifs
  · rw [List.map_cons, List.sum_cons]
  · rw [zero_add]

theorem subtractRow_value {multiplier : ℤ} (relation : Relation) (rhs : ℤ) :
    ∀ {terms : List Term} {costs reduced : List ℤ}, costs.length = x.length →
    (∀ term ∈ terms, term.var < costs.length) → subtractRow multiplier terms costs = some reduced →
    reduced.length = costs.length ∧ scalarValue reduced x =
      scalarValue costs x - multiplier * leftHandSide ⟨terms, relation, rhs⟩ x
  | [], costs, reduced, _, _, h => by
    cases h
    simp [leftHandSide]
  | term :: terms, costs, reduced, hlen, hvars, h => by
    obtain ⟨delta, hdelta, h⟩ := Option.bind_eq_some_iff.mp h
    obtain ⟨slot, hslot, h⟩ := Option.bind_eq_some_iff.mp h
    rw [← checkedI128_eq_some hslot, ← checkedI128_eq_some hdelta] at h
    obtain ⟨hlen', hvalue⟩ := subtractRow_value relation rhs
      (by rw [List.length_set]; exact hlen)
      (fun t ht => by rw [List.length_set]; exact hvars t (.tail _ ht)) h
    refine ⟨by rw [hlen', List.length_set], ?_⟩
    rw [hvalue, scalarValue_set _ _ hlen (hvars term List.mem_cons_self), leftHandSide_cons]
    split_ifs <;> ring

theorem multiplier_slack {row : Row} {multiplier : ℤ}
    (hsign : signAllowed row.relation multiplier = true) (hrow : Satisfies row x) :
    multiplier * row.rhs ≤ multiplier * leftHandSide row x := by
  unfold Satisfies holds at hrow
  unfold signAllowed at hsign
  rcases hrel : row.relation with _ | _ | _ <;> rw [hrel] at hrow hsign <;>
    simp only [decide_eq_true_eq] at hrow hsign
  · exact mul_le_mul_of_nonpos_left hrow (le_of_lt hsign)
  · exact mul_le_mul_of_nonneg_left hrow (le_of_lt hsign)
  · rw [hrow]

def entryRow (rows : List Row) (entry : DualEntry) : Row := rows.getD entry.row ⟨[], .equal, 0⟩

theorem applyEntries_value {rows : List Row} :
    ∀ {entries : List DualEntry} {costs reduced : List ℤ} {scaled total : ℤ},
    costs.length = x.length →
    (∀ entry ∈ entries, signAllowed (entryRow rows entry).relation entry.numerator = true ∧
      InRange x.length (entryRow rows entry) ∧ Satisfies (entryRow rows entry) x) →
    applyEntries rows entries (costs, scaled) = some (reduced, total) →
    reduced.length = costs.length ∧ total + scalarValue reduced x ≤ scaled + scalarValue costs x
  | [], costs, reduced, scaled, total, _, _, h => by
    cases h
    exact ⟨rfl, le_refl _⟩
  | entry :: entries, costs, reduced, scaled, total, hlen, hentries, h => by
    rw [applyEntries] at h
    obtain ⟨applied, happlied, h⟩ := Option.bind_eq_some_iff.mp h
    obtain ⟨scaled', hscaled, h⟩ := Option.bind_eq_some_iff.mp h
    obtain ⟨costs', hcosts, h⟩ := Option.bind_eq_some_iff.mp h
    obtain ⟨hsign, hrange, hrow⟩ := hentries entry (.head _)
    have hrange' : ∀ term ∈ (entryRow rows entry).terms, term.var < costs.length := by
      rw [hlen]
      exact hrange
    obtain ⟨hlen', hvalue⟩ := subtractRow_value (entryRow rows entry).relation
      (entryRow rows entry).rhs hlen hrange' hcosts
    obtain ⟨hlen'', hrest⟩ := applyEntries_value (by rw [hlen', hlen])
      (fun e he => hentries e (.tail _ he)) h
    refine ⟨by rw [hlen'', hlen'], ?_⟩
    have hslack := multiplier_slack hsign hrow
    have hscaled' : scaled + entry.numerator * (entryRow rows entry).rhs = scaled' := by
      rw [← checkedI128_eq_some hscaled, ← checkedI128_eq_some happlied]
      rfl
    linarith

theorem contributions_le : ∀ (costs : List ℤ) {path : List (Option Bool)} {x : List Bool},
    costs.length = x.length → path.length = x.length → OnPath path x →
    ((costs.zip path).map fun c => contribution c.1 c.2).sum ≤ scalarValue costs x
  | [], _, _, _, _, _ => by simp
  | _ :: _, [], [], hc, _, _ => by simp at hc
  | c :: costs, p :: path, b :: x, hc, hp, hon => by
    have ih := contributions_le costs (by simpa using hc) (by simpa using hp) hon.tail
    have hfirst : contribution c p ≤ if b then c else 0 := by
      rcases p with _ | q
      · cases b
        · exact min_le_right c 0
        · exact min_le_left c 0
      · have hq : b = q := by simpa using hon 0 q rfl
        subst hq
        cases b <;> exact le_refl _
    rw [scalarValue_cons]
    exact add_le_add hfirst ih

theorem foldlM_checked : ∀ {parts : List ℤ} {start total : ℤ},
    parts.foldlM (fun sum part => checkedI128 (sum + part)) start = some total →
    total = start + parts.sum
  | [], start, total, h => by
    cases h
    simp
  | part :: parts, start, total, h => by
    obtain ⟨sum, hsum, h⟩ := Option.bind_eq_some_iff.mp h
    rw [foldlM_checked h, ← checkedI128_eq_some hsum, List.sum_cons]
    ring

/-! ### Shapes -/

section shapes

variable {δ : Type} {model : Model δ}

theorem orReject_eq_ok {α : Type} {x : Option α} {e : VerifyError} {a : α} :
    orReject x e = .ok a ↔ x = some a := by
  cases x <;> simp [orReject]

theorem checkEntries_ok {rows : List Row} : ∀ {entries : List DualEntry},
    checkEntries rows node entries = .ok () → ∀ entry ∈ entries, ∃ row, rows[entry.row]? = some row ∧
      signAllowed row.relation entry.numerator = true
  | [], _, entry, he => absurd he List.not_mem_nil
  | first :: entries, h, entry, he => by
    obtain ⟨row, hrow, h⟩ := unbind h
    rw [orReject_eq_ok] at hrow
    obtain ⟨_, hbad, h⟩ := unbind h
    rw [rejectIf_eq_ok, not_or] at hbad
    rcases List.mem_cons.mp he with rfl | he
    · exact ⟨row, hrow, by simpa using hbad.1⟩
    · exact checkEntries_ok h entry he

theorem checkShape_ok {dual : LagrangeDual} (h : checkShape model dual node = .ok ()) :
    0 < dual.denominator ∧ ∀ entry ∈ dual.entries, ∃ row, model.rows[entry.row]? = some row ∧
      signAllowed row.relation entry.numerator = true := by
  obtain ⟨_, hden, h⟩ := unbind h
  obtain ⟨_, _, h⟩ := unbind h
  rw [rejectIf_eq_ok, not_or] at hden
  exact ⟨Nat.pos_of_ne_zero hden.1, checkEntries_ok h⟩

theorem initialCosts_objective {scale : ℤ} : ∀ {weights costs : List ℤ} {x : List Bool},
    weights.length = x.length →
    (weights.mapM fun weight => checkedI128 (weight * scale)) = some costs →
    costs.length = x.length ∧ scalarValue costs x = scale * scalarValue weights x
  | [], costs, x, hlen, h => by
    cases h
    exact ⟨hlen, by simp⟩
  | weight :: weights, costs, b :: x, hlen, h => by
    rw [List.mapM_cons] at h
    obtain ⟨cost, hcost, h⟩ := Option.bind_eq_some_iff.mp h
    obtain ⟨rest, hrest, h⟩ := Option.bind_eq_some_iff.mp h
    cases h
    obtain ⟨ihlen, ih⟩ := initialCosts_objective (by simpa using hlen) hrest
    refine ⟨by simp [ihlen], ?_⟩
    rw [scalarValue_cons, scalarValue_cons, ih, ← checkedI128_eq_some hcost]
    split_ifs <;> ring

theorem scalarValue_replicate_zero : ∀ (n : ℕ) (x : List Bool),
    scalarValue (List.replicate n 0) x = 0
  | 0, x => rfl
  | n + 1, [] => rfl
  | n + 1, b :: x => by
    rw [List.replicate_succ, scalarValue_cons, scalarValue_replicate_zero n x]
    simp

def targetValue (model : Model δ) : Target → List Bool → ℤ
  | .objective, x => scalarValue model.weights x
  | .feasibility, _ => 0

/-- **Weak duality.** The scaled Lagrangian of a dual is at most the scaled objective of every
assignment on the path that satisfies the dual's rows. -/
theorem scaledLagrangian_le (hweights : model.weights.length = model.variableCount)
    (hrange : ∀ row ∈ model.rows, InRange model.variableCount row) {dual : LagrangeDual}
    {path : List (Option Bool)} {target : Target} {scaled : ℤ}
    (h : scaledLagrangian model dual path target node = .ok scaled)
    (hx : x.length = model.variableCount) (hpath : path.length = model.variableCount)
    (hon : OnPath path x)
    (hrows : ∀ entry ∈ dual.entries, ∀ row, model.rows[entry.row]? = some row → Satisfies row x) :
    0 < dual.denominator ∧ scaled ≤ dual.denominator * targetValue model target x := by
  obtain ⟨_, hshape, h⟩ := unbind h
  obtain ⟨hden, hentries⟩ := checkShape_ok hshape
  rw [orReject_eq_ok] at h
  obtain ⟨costs, hcosts, h⟩ := Option.bind_eq_some_iff.mp h
  obtain ⟨⟨reduced, total⟩, happly, h⟩ := Option.bind_eq_some_iff.mp h
  have hstart : costs.length = x.length ∧
      scalarValue costs x = dual.denominator * targetValue model target x := by
    cases target with
    | objective => exact initialCosts_objective (by rw [hweights, hx]) hcosts
    | feasibility =>
      cases hcosts
      refine ⟨by rw [List.length_replicate, hx], ?_⟩
      rw [scalarValue_replicate_zero, targetValue, mul_zero]
  have hready : ∀ entry ∈ dual.entries,
      signAllowed (entryRow model.rows entry).relation entry.numerator = true ∧
      InRange x.length (entryRow model.rows entry) ∧ Satisfies (entryRow model.rows entry) x := by
    intro entry he
    obtain ⟨row, hrow, hsign⟩ := hentries entry he
    have heq : entryRow model.rows entry = row := by
      rw [entryRow, List.getD_eq_getElem?_getD, hrow]
      rfl
    rw [heq, hx]
    exact ⟨hsign, hrange row (List.mem_of_getElem? hrow), hrows entry he row hrow⟩
  obtain ⟨hlen, hvalue⟩ := applyEntries_value hstart.1 hready happly
  have hparts := contributions_le _ (by rw [hlen, hstart.1]) (by rw [hpath, hx]) hon
  rw [foldlM_checked h]
  refine ⟨hden, ?_⟩
  linarith

theorem integerBound_le {scaled value : ℤ} {denominator : ℕ} (hden : 0 < denominator)
    (h : scaled ≤ denominator * value) : integerBound scaled denominator ≤ value := by
  have hpos : (0 : ℤ) < denominator := by exact_mod_cast hden
  unfold integerBound
  split_ifs with hmod
  · exact Int.ediv_le_of_le_mul hpos (by rwa [mul_comm])
  · have hlt : scaled / denominator < value := by
      by_contra hge
      have heq : scaled / denominator = value := by
        refine le_antisymm ?_ (not_lt.mp hge)
        exact Int.ediv_le_of_le_mul hpos (by rwa [mul_comm])
      have hdecomp := Int.emod_add_mul_ediv scaled denominator
      have hnonneg := Int.emod_nonneg scaled (ne_of_gt hpos)
      rw [heq] at hdecomp
      have : scaled % denominator = 0 := by linarith
      exact hmod this
    omega

end shapes

end Medulla.Solve.Bounds
