import Medulla.WorkItem.Claim

/-! # What a claim does

The scan is described row by row: what was collected is what `classifyRow` says of the rows of the
table, so that no later proof looks at the order of the scan. -/

namespace Medulla.WorkItem.ClaimEffects

open Library.Checked Library.OrderedTable Rows Claim

/-! ### Fences -/

variable {request : ClaimWorkItemRequest}

theorem nextClaimEpoch_ok {row : Row} {epoch : ℕ} (h : row.nextClaimEpoch = .ok epoch) :
    epoch = max row.leaseEpoch row.fencingToken + 1 ∧ epoch ≤ u64Max := by
  unfold Row.nextClaimEpoch at h
  rw [okOr_eq_ok, checkedAdd_eq_some] at h
  omega

/-! ### One row -/

section
variable {request : ClaimWorkItemRequest} {id : String} {row row' : Row}

theorem select_ne_exhausted : select request row ≠ .exhausted row' := by
  unfold select
  split_ifs <;> simp

theorem select_eq_candidate (h : select request row = .candidate row') :
    row' = row ∧ row.status = .ready := by
  unfold select at h
  split_ifs at h with hexcluded
  cases h
  unfold isExcluded at hexcluded
  refine ⟨rfl, ?_⟩
  by_contra hne
  simp [hne] at hexcluded

/-- A row of the claim's tenant that the scan looks at past its lease. -/
structure Scanned (request : ClaimWorkItemRequest) (id : String) (row : Row) : Prop where
  workItem : row.isWorkItem = true
  tenant : row.tenant = request.tenantRef
  expired : row.status.isLive = true → row.leaseExpiresAt ≤ request.now

theorem classifyRow_inFlight : classifyRow request id row = .ok .inFlight ↔
    row.isWorkItem = true ∧ row.tenant = request.tenantRef ∧ row.status.isLive = true ∧
      request.now < row.leaseExpiresAt := by
  have hselect : ∀ r, select request r ≠ .inFlight := by
    intro r
    unfold select
    split_ifs <;> simp
  constructor
  · intro h
    unfold classifyRow at h
    split_ifs at h with hskip hlive hid hexpired
    · cases h
    · rw [not_or, Bool.not_eq_false, not_not] at hskip
      exact ⟨hskip.1, hskip.2, hlive⟩
    · cases h
    · obtain ⟨⟨retired, reclaimed⟩, -, h⟩ := unbind h
      rw [pure_eq_ok] at h
      split_ifs at h
      exact absurd h (hselect reclaimed)
    · exact absurd (Except.ok.inj h) (hselect row)
  · rintro ⟨hwork, htenant, hlive, hnow⟩
    unfold classifyRow
    rw [if_neg (by simp [hwork, htenant]), if_pos ⟨hlive, hnow⟩]

theorem classifyRow_ok {outcome : RowOutcome} (h : classifyRow request id row = .ok outcome) :
    outcome = .skip ∨ outcome = .inFlight ∨ (Scanned request id row ∧
      ((row.status.isLive = true ∧ ∃ retired reclaimed,
          reclaim row request.now = .ok (retired, reclaimed) ∧
          outcome = if retired then .exhausted reclaimed else select request reclaimed) ∨
        (row.status.isLive = false ∧ outcome = select request row))) := by
  unfold classifyRow at h
  split_ifs at h with hskip hlive hid hexpired
  · exact .inl (Except.ok.inj h).symm
  · exact .inr (.inl (Except.ok.inj h).symm)
  · exact .inl (Except.ok.inj h).symm
  · obtain ⟨⟨retired, reclaimed⟩, hreclaim, h⟩ := unbind h
    rw [pure_eq_ok] at h
    rw [not_or, Bool.not_eq_false, not_not] at hskip
    refine .inr (.inr ⟨⟨hskip.1, hskip.2, fun hl => ?_⟩, .inl ⟨hexpired, retired, reclaimed,
      hreclaim, h.symm⟩⟩)
    exact not_lt.mp fun hlt => hlive ⟨hl, hlt⟩
  · rw [not_or, Bool.not_eq_false, not_not] at hskip
    rw [Bool.not_eq_true] at hexpired
    refine .inr (.inr ⟨⟨hskip.1, hskip.2, fun hl => ?_⟩, .inr ⟨hexpired, (Except.ok.inj h).symm⟩⟩)
    rw [hexpired] at hl
    cases hl

theorem classifyRow_exhausted (h : classifyRow request id row = .ok (.exhausted row')) :
    Scanned request id row ∧ row.status.isLive = true ∧ row.attemptCeiling ≤ row.attempt ∧
      ∃ epoch, row.nextClaimEpoch = .ok epoch ∧
        row' = retireExhaustedLease row request.now epoch := by
  rcases classifyRow_ok h with h | h | ⟨hscanned, ⟨hlive, retired, reclaimed, hreclaim, h⟩ | ⟨-, h⟩⟩
  · cases h
  · cases h
  · obtain ⟨epoch, hepoch, hreclaim⟩ := unbind hreclaim
    split_ifs at hreclaim with hceiling
    · cases hreclaim
      cases h
      exact ⟨hscanned, hlive, hceiling, epoch, hepoch, rfl⟩
    · cases hreclaim
      exact absurd h.symm select_ne_exhausted
  · exact absurd h.symm select_ne_exhausted

theorem classifyRow_candidate (h : classifyRow request id row = .ok (.candidate row')) :
    Scanned request id row ∧ row'.status = .ready ∧
      ((row.status.isLive = true ∧ row.attempt < row.attemptCeiling ∧
          ∃ epoch, row.nextClaimEpoch = .ok epoch ∧ row' = reclaimExpiredLease row epoch) ∨
        (row.status.isLive = false ∧ row' = row)) := by
  rcases classifyRow_ok h with h | h | ⟨hscanned, ⟨hlive, retired, reclaimed, hreclaim, h⟩ | ⟨hl, h⟩⟩
  · cases h
  · cases h
  · obtain ⟨epoch, hepoch, hreclaim⟩ := unbind hreclaim
    split_ifs at hreclaim with hceiling
    · cases hreclaim
      cases h
    · cases hreclaim
      obtain ⟨rfl, hready⟩ := select_eq_candidate h.symm
      exact ⟨hscanned, hready, .inl ⟨hlive, not_le.mp hceiling, epoch, hepoch, rfl⟩⟩
  · obtain ⟨rfl, hready⟩ := select_eq_candidate h.symm
    exact ⟨hscanned, hready, .inr ⟨hl, rfl⟩⟩

end

/-! ### The scan -/

section
variable {request : ClaimWorkItemRequest}

structure Collects (request : ClaimWorkItemRequest) (rows : List (String × Option Row))
    (scan scan' : Scan) : Prop where
  total : ∀ id row, (id, some row) ∈ rows → ∃ outcome, classifyRow request id row = .ok outcome
  exhausted : ∀ id row', (id, row') ∈ scan'.exhausted ↔ (id, row') ∈ scan.exhausted ∨
    ∃ row, (id, some row) ∈ rows ∧ classifyRow request id row = .ok (.exhausted row')
  candidates : ∀ id row', (id, row') ∈ scan'.candidates ↔ (id, row') ∈ scan.candidates ∨
    ∃ row, (id, some row) ∈ rows ∧ classifyRow request id row = .ok (.candidate row')

theorem scanRows_collects : ∀ {rows : List (String × Option Row)} {scan scan' : Scan},
    scanRows request scan rows = .ok scan' → Collects request rows scan scan'
  | [], scan, scan', h => by
    cases h
    exact ⟨by simp, by simp, by simp⟩
  | (id, none) :: rest, scan, scan', h => by
    rw [scanRows] at h
    obtain ⟨htotal, hexhausted, hcandidates⟩ := scanRows_collects h
    exact ⟨by simpa using htotal, by simpa using hexhausted, by simpa using hcandidates⟩
  | (id, some row) :: rest, scan, scan', h => by
    obtain ⟨outcome, houtcome, h⟩ := unbind h
    obtain ⟨htotal, hexhausted, hcandidates⟩ := scanRows_collects h
    refine ⟨fun i r hr => ?_, fun i r => ?_, fun i r => ?_⟩
    · rcases List.mem_cons.mp hr with heq | hr
      · cases heq
        exact ⟨outcome, houtcome⟩
      · exact htotal i r hr
    · rw [hexhausted]
      cases outcome <;> simp [Scan.take] <;> grind
    · rw [hcandidates]
      cases outcome <;> simp [Scan.take] <;> grind

variable {g : Graph} {scan : Scan} {id : String} {row row' : Row}

section
variable (h : scanRows request {} g.nodes.rows = .ok scan)
include h

theorem collects_of_scan : Collects request g.nodes.rows {} scan := scanRows_collects h

theorem mem_exhausted : (id, row') ∈ scan.exhausted ↔ ∃ row, g.nodes.get id = some (some row) ∧
      classifyRow request id row = .ok (.exhausted row') := by
  rw [(collects_of_scan h).exhausted]
  simp [Table.mem_rows]

theorem mem_candidates : (id, row') ∈ scan.candidates ↔ ∃ row, g.nodes.get id = some (some row) ∧
      classifyRow request id row = .ok (.candidate row') := by
  rw [(collects_of_scan h).candidates]
  simp [Table.mem_rows]

end

theorem selectCandidate_mem : ∀ {candidates : List (String × Row)} {best : String × Row},
    selectCandidate candidates = some best → best ∈ candidates
  | [], _, h => by cases h
  | candidate :: rest, best, h => by
    rw [selectCandidate] at h
    split at h
    · cases h
      exact .head _
    · rename_i least hleast
      split_ifs at h
      · cases h
        exact .tail _ (selectCandidate_mem hleast)
      · cases h
        exact .head _

end

/-! ### The retired rows -/

theorem get_writeExhausted {id : String} : ∀ {exhausted : List (String × Row)} {g : Graph},
    ((∀ row, (id, row) ∉ exhausted) ∧ (writeExhausted exhausted g).nodes.get id = g.nodes.get id) ∨
      ∃ row, (id, row) ∈ exhausted ∧
        (writeExhausted exhausted g).nodes.get id = some (some row.revised)
  | [], g => .inl ⟨by simp, rfl⟩
  | (k, first) :: rest, g => by
    rw [writeExhausted]
    rcases @get_writeExhausted id rest (g.write k first) with ⟨hnone, hget⟩ | ⟨row, hrow, hget⟩
    · by_cases hk : id = k
      · subst hk
        refine .inr ⟨first, .head _, ?_⟩
        rw [hget, Graph.get_write_self]
      · refine .inl ⟨fun row hrow => ?_, ?_⟩
        · rcases List.mem_cons.mp hrow with heq | hrow
          · cases heq
            exact hk rfl
          · exact hnone row hrow
        · rw [hget, Graph.get_write_of_ne g first hk]
    · exact .inr ⟨row, .tail _ hrow, hget⟩

/-! ### The claim -/

structure Granted (request : ClaimWorkItemRequest) (row row' : Row) (lease : Lease) : Prop where
  scanned : row.isWorkItem = true ∧ row.tenant = request.tenantRef
  expired : row.status.isLive = true → row.leaseExpiresAt ≤ request.now
  waiting : row.status.isLive = true ∨ row.status = .ready
  above : max row.leaseEpoch row.fencingToken < lease.token
  bounded : lease.token ≤ u64Max
  fences : row'.fences = lease
  epoch : lease.epoch = lease.token
  owner : lease.owner = request.workerRef
  status : row'.status = .leased
  expiry : row'.leaseExpiresAt = request.now + request.leaseMs
  kept : row'.nodeType = row.nodeType ∧ row'.tenant = row.tenant ∧ row'.dependsOn = row.dependsOn ∧
    row'.depCount = row.depCount ∧ row'.downstreamIds = row.downstreamIds
  metadata : row'.metadata = row.metadata

structure Retired (request : ClaimWorkItemRequest) (row row' : Row) : Prop where
  scanned : row.isWorkItem = true ∧ row.tenant = request.tenantRef
  live : row.status.isLive = true
  expired : row.leaseExpiresAt ≤ request.now
  above : max row.leaseEpoch row.fencingToken < row'.fencingToken
  epoch : row'.leaseEpoch = row'.fencingToken
  status : row'.status = .deadLetter
  kept : row'.nodeType = row.nodeType ∧ row'.tenant = row.tenant ∧ row'.dependsOn = row.dependsOn ∧
    row'.depCount = row.depCount ∧ row'.downstreamIds = row.downstreamIds
  metadata : row'.metadata = row.metadata

theorem retired_of_classify {id : String} {row row' : Row}
    (h : classifyRow request id row = .ok (.exhausted row')) : Retired request row row'.revised := by
  obtain ⟨hscanned, hlive, -, epoch, hepoch, rfl⟩ := classifyRow_exhausted h
  obtain ⟨heq, -⟩ := nextClaimEpoch_ok hepoch
  refine ⟨⟨hscanned.workItem, hscanned.tenant⟩, hlive, hscanned.expired hlive, ?_, rfl, rfl,
    ⟨rfl, rfl, rfl, rfl, rfl⟩, rfl⟩
  change max row.leaseEpoch row.fencingToken < epoch
  omega

theorem granted_of_classify {id : String} {row base : Row}
    (h : classifyRow request id row = .ok (.candidate base)) {epoch : ℕ}
    (hepoch : base.nextClaimEpoch = .ok epoch) :
    Granted request row (grantLease base request.workerRef request.now
      (request.now + request.leaseMs) epoch).revised ⟨request.workerRef, epoch, epoch⟩ := by
  obtain ⟨hscanned, hready, hbase⟩ := classifyRow_candidate h
  obtain ⟨heq, hbounded⟩ := nextClaimEpoch_ok hepoch
  rcases hbase with ⟨hlive, -, first, hfirst, rfl⟩ | ⟨hnot, rfl⟩
  · obtain ⟨hfirst, -⟩ := nextClaimEpoch_ok hfirst
    refine ⟨⟨hscanned.workItem, hscanned.tenant⟩, hscanned.expired, .inl hlive, ?_, hbounded, rfl, rfl,
      rfl, rfl, rfl, ⟨rfl, rfl, rfl, rfl, rfl⟩, rfl⟩
    change max row.leaseEpoch row.fencingToken < epoch
    change epoch = max first first + 1 at heq
    omega
  · refine ⟨⟨hscanned.workItem, hscanned.tenant⟩, hscanned.expired, .inr hready, ?_, hbounded, rfl,
      rfl, rfl, rfl, rfl, ⟨rfl, rfl, rfl, rfl, rfl⟩, rfl⟩
    change max base.leaseEpoch base.fencingToken < epoch
    omega

inductive Ended (request : ClaimWorkItemRequest) (g : Graph) (scan : Scan) : Graph → Claimed → Prop
  | quota (h : request.maxTenantInFlight ≤ scan.inflight) :
      Ended request g scan (writeExhausted scan.exhausted g) (notClaimed .tenantQuota scan)
  | empty : Ended request g scan (writeExhausted scan.exhausted g) (notClaimed .empty scan)
  | granted {id : String} {base : Row} {epoch : ℕ} {result : Claimed}
      (room : scan.inflight < request.maxTenantInFlight) (mem : (id, base) ∈ scan.candidates)
      (fence : base.nextClaimEpoch = .ok epoch)
      (grant : ∃ expiry attempt ceiling,
        result.grant = some ⟨id, ⟨request.workerRef, epoch, epoch⟩, expiry, attempt, ceiling⟩)
      (retired : result.retired = scan.exhausted.map Prod.fst) :
      Ended request g scan ((writeExhausted scan.exhausted g).write id (grantLease base
        request.workerRef request.now (request.now + request.leaseMs) epoch)) result

theorem claimWorkItem_ok {g g' : Graph} {result : Claimed}
    (h : claimWorkItem request g = .ok (g', result)) :
    ∃ scan, scanRows request {} g.nodes.rows = .ok scan ∧ Ended request g scan g' result := by
  obtain ⟨_, _, h⟩ := unbind h
  obtain ⟨scan, hscan, h⟩ := unbind h
  refine ⟨scan, hscan, ?_⟩
  unfold claimFromScan at h
  split_ifs at h with hquota
  · cases h
    exact .quota hquota
  · split at h
    · cases h
      exact .empty
    · rename_i id base hselected
      obtain ⟨epoch, hepoch, h⟩ := unbind h
      cases h
      exact .granted (not_le.mp hquota) (selectCandidate_mem hselected) hepoch ⟨_, _, _, rfl⟩ rfl

end Medulla.WorkItem.ClaimEffects
