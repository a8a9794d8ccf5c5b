import Medulla.WorkItem.Dependencies
import Mathlib.Data.Prod.Lex

/-! # Claims and priorities

A priority may be negative, and the claim reads it as an unsigned number: every priority up to zero is
read as zero, and among such items the queue order decides. A deadline is compared by its whole
milliseconds, so that creation and identity decide between two deadlines inside one millisecond.

## Main results

- `granted_least`: a claim grants the claimable item with the least key.
- `claims_respect_priority_iff`: when that item has the least priority and the earliest deadline. -/

namespace Medulla.WorkItem.Priority

open Library.Checked Library.OrderedTable Rows Claim ClaimEffects
open Submit Machine Dependencies

variable {request : ClaimWorkItemRequest} {g g' : Graph} {result : Claimed} {grant : Grant}

/-! ### Keys -/

/-- The deadline, an absent one counting as latest. -/
def deadlineOf (row : Row) : WithTop ℚ := row.deadline

/-- The order of items of one bucket: milliseconds of the deadline and of the creation, identity. -/
def queueKey (c : String × Row) : ℕ ×ₗ ℕ ×ₗ String :=
  toLex (candidateDeadline c.2, toLex (millis c.2.createdAt, c.1))

/-- The whole key: bucket first. -/
def claimKey (c : String × Row) : ℕ ×ₗ ℕ ×ₗ ℕ ×ₗ String := toLex (c.2.prioBucket.toNat, queueKey c)

theorem sortsBefore_iff {a b : String × Row} : sortsBefore a b = true ↔ claimKey a < claimKey b := by
  simp [sortsBefore, claimKey, queueKey, Prod.Lex.lt_iff]

/-- **An earlier deadline has no greater key**; an absent one has the greatest. -/
theorem candidateDeadline_mono {row row' : Row} (h : deadlineOf row ≤ deadlineOf row') :
    candidateDeadline row ≤ candidateDeadline row' := by
  unfold candidateDeadline
  unfold deadlineOf at h
  cases hrow : row.deadline with
  | none =>
    cases hrow' : row'.deadline with
    | none => exact le_rfl
    | some d' =>
      rw [hrow, hrow'] at h
      exact absurd (top_le_iff.mp h) (WithTop.coe_ne_top)
  | some d =>
    cases hrow' : row'.deadline with
    | none => exact Library.Doubles.toU64_le _
    | some d' =>
      rw [hrow, hrow'] at h
      refine Library.Doubles.toU64_nearest_mono ?_
      exact mul_le_mul_of_nonneg_right (WithTop.coe_le_coe.mp h) (by norm_num)

theorem selectCandidate_least : ∀ {candidates : List (String × Row)} {best : String × Row},
    selectCandidate candidates = some best → ∀ c ∈ candidates, claimKey best ≤ claimKey c
  | [], _, h => by cases h
  | candidate :: rest, best, h => by
    rw [selectCandidate] at h
    split at h
    · rename_i hnone
      obtain rfl := Option.some.inj h
      cases rest with
      | nil => simp
      | cons c cs =>
        rw [selectCandidate] at hnone
        split at hnone
        · cases hnone
        · split_ifs at hnone
    · rename_i least hleast
      have ih := selectCandidate_least hleast
      split_ifs at h with hbefore
      · obtain rfl := Option.some.inj h
        exact List.forall_mem_cons.mpr ⟨(sortsBefore_iff.mp hbefore).le, ih⟩
      · obtain rfl := Option.some.inj h
        rw [sortsBefore_iff, not_lt] at hbefore
        exact List.forall_mem_cons.mpr ⟨le_rfl, fun c hc => hbefore.trans (ih c hc)⟩

/-! ### What a claim grants -/

/-- The scan takes the row of the item for a candidate. -/
def Claimable (request : ClaimWorkItemRequest) (g : Graph) (c : String × Row) : Prop :=
  ∃ row, g.nodes.get c.1 = some (some row) ∧ classifyRow request c.1 row = .ok (.candidate c.2)

theorem Claimable.unique {c c' : String × Row} (h : Claimable request g c)
    (h' : Claimable request g c') (hid : c.1 = c'.1) : c = c' := by
  obtain ⟨row, hrow, hclass⟩ := h
  obtain ⟨row', hrow', hclass'⟩ := h'
  rw [hid, hrow'] at hrow
  obtain rfl := Option.some.inj (Option.some.inj hrow)
  rw [hid, hclass'] at hclass
  exact Prod.ext hid (RowOutcome.candidate.inj (Except.ok.inj hclass)).symm

theorem granted_least (h : claimWorkItem request g = .ok (g', result))
    (hgrant : result.grant = some grant) : ∃ c, c.1 = grant.workItemId ∧ Claimable request g c ∧
      ∀ c', Claimable request g c' → claimKey c ≤ claimKey c' := by
  obtain ⟨-, h⟩ := check_eq_ok.mp h
  obtain ⟨scan, hscan, h⟩ := unbind h
  have hmem : ∀ c, c ∈ scan.candidates ↔ Claimable request g c := fun c => mem_candidates hscan
  unfold claimFromScan at h
  split_ifs at h
  · obtain ⟨-, rfl⟩ := Prod.mk.inj (Except.ok.inj h)
    cases hgrant
  · split at h
    · obtain ⟨-, rfl⟩ := Prod.mk.inj (Except.ok.inj h)
      cases hgrant
    · rename_i id base hselected
      obtain ⟨epoch, -, h⟩ := unbind h
      obtain ⟨-, rfl⟩ := Prod.mk.inj (Except.ok.inj h)
      refine ⟨(id, base), by rw [← Option.some.inj hgrant], ?_, fun c' hc' => ?_⟩
      · exact (hmem _).mp (selectCandidate_mem hselected)
      · exact selectCandidate_least hselected c' ((hmem c').mpr hc')

/-- No claimable item has a smaller priority. -/
def LeastPriority (request : ClaimWorkItemRequest) (g : Graph) (c : String × Row) : Prop :=
  ∀ c', Claimable request g c' → c.2.prioBucket ≤ c'.2.prioBucket

/-- No claimable item of the same priority has an earlier deadline. -/
def EarliestDeadline (request : ClaimWorkItemRequest) (g : Graph) (c : String × Row) : Prop :=
  ∀ c', Claimable request g c' → c.2.prioBucket = c'.2.prioBucket → deadlineOf c.2 ≤ deadlineOf c'.2

/-- **The queue order makes up for what the keys confuse**: a claimable item of a priority up to zero
that is not the least one waits behind one of the least, and one of the least priority whose deadline
is the later of two inside one millisecond waits behind one with the earliest deadline. -/
structure QueuedByPriority (request : ClaimWorkItemRequest) (g : Graph) : Prop where
  buckets : ∀ c, Claimable request g c → c.2.prioBucket ≤ 0 →
    (∃ c', Claimable request g c' ∧ c'.2.prioBucket < c.2.prioBucket) →
      ∃ first, Claimable request g first ∧ LeastPriority request g first ∧ queueKey first < queueKey c
  milliseconds : ∀ c, Claimable request g c → LeastPriority request g c →
    (∃ c', Claimable request g c' ∧ c'.2.prioBucket = c.2.prioBucket ∧
      candidateDeadline c'.2 = candidateDeadline c.2 ∧ deadlineOf c'.2 < deadlineOf c.2) →
      ∃ first, Claimable request g first ∧ LeastPriority request g first ∧
        EarliestDeadline request g first ∧ queueKey first < queueKey c

section
variable {best : String × Row} (hbest : Claimable request g best)
  (hleast : ∀ c, Claimable request g c → claimKey best ≤ claimKey c)
include hbest hleast

theorem least_cases {c : String × Row} (hc : Claimable request g c) :
    best.2.prioBucket.toNat < c.2.prioBucket.toNat ∨
      best.2.prioBucket.toNat = c.2.prioBucket.toNat ∧ (best = c ∨ queueKey best < queueKey c) := by
  rcases Prod.Lex.le_iff.mp (hleast c hc) with hlt | ⟨heq, hle⟩
  · exact .inl hlt
  · refine .inr ⟨heq, ?_⟩
    rcases hle.lt_or_eq with hlt | hsame
    · exact .inr hlt
    · exact .inl (hbest.unique hc (congrArg (fun k => (ofLex (ofLex k).2).2) hsame))

theorem queued_of_respects (hprio : LeastPriority request g best)
    (hdeadline : EarliestDeadline request g best) : QueuedByPriority request g where
  buckets c hc hneg hlower := by
    obtain ⟨c', hc', hlower⟩ := hlower
    refine ⟨best, hbest, hprio, ?_⟩
    have hmin := hprio c' hc'
    rcases least_cases hbest hleast hc with hlt | ⟨-, rfl | hlt⟩
    · omega
    · omega
    · exact hlt
  milliseconds c hc hcprio hearlier := by
    obtain ⟨c', hc', hsame, -, hearlier⟩ := hearlier
    refine ⟨best, hbest, hprio, hdeadline, ?_⟩
    have hle := hprio c hc
    have hge := hcprio best hbest
    rcases least_cases hbest hleast hc with hlt | ⟨-, rfl | hlt⟩
    · omega
    · exact absurd hearlier (not_lt.mpr (hdeadline c' hc' hsame.symm))
    · exact hlt

theorem leastPriority_of_queued (hqueued : QueuedByPriority request g) :
    LeastPriority request g best := by
  intro c hc
  by_contra hlower
  rw [not_le] at hlower
  rcases lt_or_ge 0 best.2.prioBucket with hpos | hneg
  · rcases least_cases hbest hleast hc with hlt | ⟨heq, -⟩
    · omega
    · omega
  · obtain ⟨first, hfirst, hmin, hbefore⟩ := hqueued.buckets best hbest hneg ⟨c, hc, hlower⟩
    rcases least_cases hbest hleast hfirst with hlt | ⟨-, rfl | hlt⟩
    · have := hmin c hc
      omega
    · exact lt_irrefl _ hbefore
    · exact lt_asymm hbefore hlt

theorem earliestDeadline_of_queued (hqueued : QueuedByPriority request g) :
    EarliestDeadline request g best := by
  have hprio := leastPriority_of_queued hbest hleast hqueued
  intro c hc hsame
  by_contra hearlier
  rw [not_le] at hearlier
  -- the key of the granted item is least, so an earlier deadline has the same key
  have hkey : candidateDeadline c.2 = candidateDeadline best.2 := by
    refine le_antisymm (candidateDeadline_mono hearlier.le) ?_
    rcases least_cases hbest hleast hc with hlt | ⟨-, rfl | hlt⟩
    · rw [hsame] at hlt
      exact absurd hlt (lt_irrefl _)
    · exact le_rfl
    · exact (Prod.Lex.le_iff.mp hlt.le).elim le_of_lt fun h => h.1.le
  obtain ⟨first, hfirst, hmin, -, hbefore⟩ := hqueued.milliseconds best hbest hprio
    ⟨c, hc, hsame.symm, hkey, hearlier⟩
  have hle := hprio first hfirst
  have hge := hmin best hbest
  rcases least_cases hbest hleast hfirst with hlt | ⟨-, rfl | hlt⟩
  · omega
  · exact lt_irrefl _ hbefore
  · exact lt_asymm hbefore hlt

end

/-- **A claim respects the submitted priorities and deadlines exactly if the queue order makes up for
what the keys confuse.** -/
theorem claims_respect_priority_iff (h : claimWorkItem request g = .ok (g', result))
    (hgrant : result.grant = some grant) :
    (∃ c, c.1 = grant.workItemId ∧ Claimable request g c ∧ LeastPriority request g c ∧
      EarliestDeadline request g c) ↔ QueuedByPriority request g := by
  obtain ⟨best, hid, hbest, hleast⟩ := granted_least h hgrant
  constructor
  · rintro ⟨c, hid', hc, hprio, hdeadline⟩
    obtain rfl := hc.unique hbest (hid'.trans hid.symm)
    exact queued_of_respects hbest hleast hprio hdeadline
  · intro hqueued
    exact ⟨best, hid, hbest, leastPriority_of_queued hbest hleast hqueued,
      earliestDeadline_of_queued hbest hleast hqueued⟩

/-! ### Two items -/

/-- A submission with a priority and a deadline. -/
def submitPrioritized (id : String) (priority : ℤ) (deadline : Option ℚ) : Call :=
  match submitNamed id [] with
  | .submit request checks => .submit { request with priority := priority, deadline := deadline } checks
  | call => call

/-- A claim of the tenant without selectors. -/
def claimAny : ClaimWorkItemRequest := ⟨"t", none, none, none, none, "w", 2, 100, 5⟩

/-- One item with a priority, and one of priority zero with a deadline. -/
def twoItems (priority : ℤ) : Graph :=
  run plainDigests emptyGraph [submitPrioritized "a" priority none, submitPrioritized "b" 0 (some 9)]

/-- The candidates of a claim, and its grant. -/
def claimTwo (priority : ℤ) : Except String (List (String × Row) × Option Grant) := do
  let scan ← scanRows claimAny {} (twoItems priority).nodes.rows
  let claimed ← claimWorkItem claimAny (twoItems priority)
  return (scan.candidates, claimed.2.grant)

theorem claimTwo_spec {priority : ℤ} {p : List (String × Row) → String → Bool}
    (h : (claimTwo priority).toOption.any (fun r => r.2.any fun grant => p r.1 grant.workItemId) = true) :
    ∃ g' result grant, claimWorkItem claimAny (twoItems priority) = .ok (g', result) ∧
      result.grant = some grant ∧ ∃ candidates, p candidates grant.workItemId = true ∧
        ∀ c, c ∈ candidates ↔ Claimable claimAny (twoItems priority) c := by
  obtain ⟨r, hr, hany⟩ := exists_ok_of_any h
  obtain ⟨scan, hscan, hr⟩ := unbind hr
  obtain ⟨claimed, hclaim, hr⟩ := unbind hr
  obtain rfl := pure_eq_ok.mp hr
  obtain ⟨grant, hgrant, hp⟩ := (Option.any_eq_true _ _).mp hany
  exact ⟨claimed.1, claimed.2, grant, hclaim, hgrant, scan.candidates, hp, fun c =>
    mem_candidates hscan⟩

/-- With priorities one and zero the item of priority zero is granted. -/
theorem claims_respect_priority_zero : ∃ g' result grant,
    claimWorkItem claimAny (twoItems 1) = .ok (g', result) ∧ result.grant = some grant ∧
      ∃ c, c.1 = grant.workItemId ∧ Claimable claimAny (twoItems 1) c ∧
        LeastPriority claimAny (twoItems 1) c ∧ EarliestDeadline claimAny (twoItems 1) c := by
  obtain ⟨g', result, grant, hclaim, hgrant, candidates, hall, hmem⟩ := claimTwo_spec
    (p := fun candidates _ => candidates.all fun c => decide (0 ≤ c.2.prioBucket ∧
      c.1 = if c.2.prioBucket = 0 then "b" else "a"))
    (show (claimTwo 1).toOption.any _ = true by decide +kernel)
  refine ⟨g', result, grant, hclaim, hgrant, (claims_respect_priority_iff hclaim hgrant).mpr ?_⟩
  have hcase := fun c hc => of_decide_eq_true (List.all_eq_true.mp hall c ((hmem c).mpr hc))
  constructor
  · rintro c - hle ⟨c', hc', hlower⟩
    have hpos := (hcase c' hc').1
    omega
  · -- the two items have different priorities
    rintro c hc - ⟨c', hc', hsame, -, hearlier⟩
    have hid : c.1 = c'.1 := by rw [(hcase c hc).2, (hcase c' hc').2, hsame]
    rw [hc.unique hc' hid] at hearlier
    exact absurd hearlier (lt_irrefl _)

/-- **An item of negative priority is passed over.** -/
theorem negative_priority_passed_over : ∃ g' result grant,
    claimWorkItem claimAny (twoItems (-5)) = .ok (g', result) ∧ result.grant = some grant ∧
      ¬ ∃ c, c.1 = grant.workItemId ∧ Claimable claimAny (twoItems (-5)) c ∧
        LeastPriority claimAny (twoItems (-5)) c ∧ EarliestDeadline claimAny (twoItems (-5)) c := by
  obtain ⟨g', result, grant, hclaim, hgrant, candidates, hall, hmem⟩ := claimTwo_spec
    (p := fun candidates id => candidates.all (fun c => c.1 ≠ id || decide (c.2.prioBucket = 0)) &&
      candidates.any fun c => decide (c.2.prioBucket = -5))
    (show (claimTwo (-5)).toOption.any _ = true by decide +kernel)
  rw [Bool.and_eq_true, List.all_eq_true, List.any_eq_true] at hall
  obtain ⟨hzero, c', hc', hfive⟩ := hall
  refine ⟨g', result, grant, hclaim, hgrant, ?_⟩
  rintro ⟨c, hid, hc, hleast, -⟩
  have hprio := hzero c ((hmem c).mpr hc)
  have hle := hleast c' ((hmem c').mp hc')
  simp only [hid, ne_eq, not_true_eq_false, decide_false, Bool.false_or, decide_eq_true_eq] at hprio hfive
  omega

end Medulla.WorkItem.Priority
