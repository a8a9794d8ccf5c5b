import Medulla.Library.Tally
import Medulla.Resource.Lifecycle

/-! # What the resource operations do

One inversion for each operation: a lifecycle call refuses and leaves every accounting table alone, or
it admits a new reservation past all gates, or it takes the charge of a reserved row back. -/

namespace Medulla.Resource.Effects

open Library.Checked Library.OrderedTable WorkItem.Rows Requests Extension
open Admission Lifecycle

variable {l : Ledger} {result : ReservationResult} {mode : Mode} {request : ReservationRequest}
  {codecs : Codecs} {row : Row} {decision : Decision} {host : DurableHost} {extension : Fields}

/-! ### Phases -/

theorem continueWith_ok {α : Type} {l' : Ledger} {phase : LifecycleStep α}
    {next : α → Except String (Ledger × ReservationResult)}
    (h : continueWith l phase next = .ok (l', result)) :
    (phase = .decided result ∧ l' = l) ∨ ∃ value, phase = .proceed value ∧
      next value = .ok (l', result) := by
  cases phase with
  | decided decided =>
    cases h
    exact .inl ⟨rfl, rfl⟩
  | proceed value => exact .inr ⟨value, rfl, h⟩

theorem ofOption_decided {found : Option ReservationResult}
    (h : LifecycleStep.ofOption found = .decided result) : found = some result := by
  cases found with
  | none => cases h
  | some decided =>
    cases h
    rfl

/-! ### Decisions that are no acceptance -/

def NeverAccepts (found : Option ReservationResult) : Prop :=
  ∀ result, found = some result → result.decision ≠ .accepted

theorem neverAccepts_none : NeverAccepts none := fun result h =>
  (Option.some_ne_none result h.symm).elim

theorem neverAccepts_some (h : result.decision ≠ .accepted) : NeverAccepts (some result) := by
  intro found hfound
  rw [← Option.some.inj hfound]
  exact h

theorem NeverAccepts.or {first second : Option ReservationResult} (h : NeverAccepts first)
    (h' : NeverAccepts second) : NeverAccepts (first.or second) := by
  cases first with
  | none => exact h'
  | some result => exact h

theorem neverAccepts_window (request : ReservationRequest) :
    NeverAccepts (resourceReserveWindowPrecheck request) := by
  unfold resourceReserveWindowPrecheck
  split_ifs
  · exact neverAccepts_some nofun
  · exact neverAccepts_some nofun
  · exact neverAccepts_none

theorem neverAccepts_mismatch (request : ReservationRequest) (stored : DurableReservation) :
    NeverAccepts (resourceStoredRowMismatch request stored) := by
  unfold resourceStoredRowMismatch
  split_ifs
  · exact neverAccepts_some nofun
  · exact neverAccepts_some nofun
  · exact neverAccepts_none

theorem neverAccepts_revision (mode : Mode) (request : ReservationRequest)
    (stored : DurableReservation) : NeverAccepts (revisionMismatch mode request stored) := by
  unfold revisionMismatch resourceLifecycleRevisionPrecheck
  split_ifs <;> first | exact neverAccepts_none | exact neverAccepts_some nofun

theorem neverAccepts_replay (l : Ledger) (request : ReservationRequest)
    (stored : DurableReservation) : NeverAccepts (terminalReplay l request stored) := by
  unfold terminalReplay
  split_ifs
  · exact neverAccepts_none
  · exact neverAccepts_some nofun

theorem neverAccepts_existing (l : Ledger) (mode : Mode) (request : ReservationRequest)
    (stored : DurableReservation) :
    NeverAccepts (resourceExistingReservationPrecheck l mode request stored) :=
  (neverAccepts_mismatch request stored).or
    ((neverAccepts_revision mode request stored).or (neverAccepts_replay l request stored))

theorem neverAccepts_release (l : Ledger) (mode : Mode) (request : ReservationRequest)
    (stored : DurableReservation) (row : Row) :
    NeverAccepts (releasePrecheck l mode request stored row) := by
  refine (neverAccepts_mismatch request stored).or (NeverAccepts.or ?_ ?_)
  · unfold releaseReplay
    split_ifs
    · exact neverAccepts_some nofun
    · exact neverAccepts_none
  · unfold resourceReclaimPolicyPrecheck
    split_ifs <;> first | exact neverAccepts_none | exact neverAccepts_some nofun

theorem resourceLifecyclePrecheck_ok {phase : LifecycleStep Unit}
    (h : resourceLifecyclePrecheck mode request l = .ok phase) :
    resourceValidateRequest request = .ok () ∧
      ∀ result, phase = .decided result → result.decision ≠ .accepted := by
  simp only [resourceLifecyclePrecheck, check_eq_ok, pure_eq_ok] at h
  obtain ⟨hvalid, -, rfl⟩ := h
  refine ⟨hvalid, fun result hresult => ?_⟩
  refine NeverAccepts.or ?_ ?_ result (ofOption_decided hresult)
  · split_ifs
    · exact neverAccepts_window request
    · exact neverAccepts_none
  · cases l.reservations.get request.reservationId with
    | none => exact neverAccepts_none
    | some stored => exact neverAccepts_existing l mode request stored

theorem resourceValidateWorkItem_error {allow : Bool}
    (h : resourceValidateWorkItem codecs row request allow = .error decision) :
    decision ≠ .accepted := by
  rintro rfl
  unfold resourceValidateWorkItem resourceValidateWorkItemOwnerAndExtension rejectIf at h
  split_ifs at h <;> try cases h
  · change ((resourceValidateExtension codecs row request).bind _) = _ at h
    unfold resourceValidateExtension at h
    split at h
    · cases h
    · split at h
      · cases h
      · split_ifs at h <;> cases h

theorem resourceLoadAndValidateWorkItem_ok {phase : LifecycleStep (Row × WorkItemFence)}
    (h : resourceLoadAndValidateWorkItem codecs l mode request = .ok phase) :
    (∃ result, phase = .decided result ∧ result.decision ≠ .accepted) ∨
      ∃ row fence, phase = .proceed (row, fence) ∧
        l.items.nodes.get request.workItemId = some (some row) ∧
        resourceValidateWorkItem codecs row request (mode = .reclaim) = .ok fence := by
  obtain ⟨found, hfound, h⟩ := unbind h
  cases found with
  | none =>
    cases h
    exact .inl ⟨_, rfl, nofun⟩
  | some row =>
    dsimp only at h
    split at h
    · rename_i fence hvalid
      cases h
      exact .inr ⟨row, fence, rfl, Graph.load_eq_some.mp hfound, hvalid⟩
    · rename_i decision hvalid
      cases h
      exact .inl ⟨_, rfl, resourceValidateWorkItem_error hvalid⟩

theorem resourceValidateWorkItemStatusAndExtension_ok {fence : WorkItemFence}
    {phase : LifecycleStep Fields}
    (h : resourceValidateWorkItemStatusAndExtension codecs mode request fence row = .ok phase) :
    (∃ result, phase = .decided result ∧ result.decision ≠ .accepted) ∨
      (statusRefused mode request fence row = false ∧ ∃ extension, phase = .proceed extension) := by
  unfold resourceValidateWorkItemStatusAndExtension at h
  split_ifs at h with hstatus
  · cases h
    exact .inl ⟨_, rfl, nofun⟩
  · obtain ⟨maps, -, h⟩ := unbind h
    obtain ⟨mismatch, -, h⟩ := unbind h
    rw [pure_eq_ok] at h
    cases mismatch with
    | true => exact .inl ⟨_, h.symm, nofun⟩
    | false => exact .inr ⟨Bool.eq_false_iff.mpr hstatus, _, h.symm⟩

/-! ### The outcome of a lifecycle call -/

structure Admitted (codecs : Codecs) (request : ReservationRequest) (host : DurableHost) (l : Ledger) :
    Prop where
  valid : resourceValidateRequest request = .ok ()
  item : ∃ row fence, l.items.nodes.get request.workItemId = some (some row) ∧
    resourceValidateWorkItem codecs row request false = .ok fence ∧
    statusRefused .reserve request fence row = false
  absent : l.reservations.get request.reservationId = none
  winner : l.attempts.get (toLex (request.workItemId, request.attempt)) = none
  found : l.hosts.get request.hostRef = some host
  affinity : ∀ key ∈ affinityKeys request.toTerms, readCount l.antiAffinity key = 0
  exclusive : ∀ key ∈ resourceExclusivityKeys request.toTerms, l.exclusivity.get key = none
  capacity : ∀ d, host.observed.get d + host.held.get d + request.requirement.get d ≤
    host.capacity.get d
  disk : host.diskUsedMib + host.held.diskMib + request.requirement.diskMib ≤ host.diskCapacityMib

/-- What was checked before the charge of a row was taken back. -/
structure Releasable (request : ReservationRequest) (stored : DurableReservation)
    (host : DurableHost) (l : Ledger) : Prop where
  found : l.reservations.get request.reservationId = some stored
  reserved : stored.record.state = .reserved
  terms : request.toTerms = stored.record.toTerms
  host : l.hosts.get stored.record.hostRef = some host

inductive Outcome (codecs : Codecs) (mode : Mode) (request : ReservationRequest) (l : Ledger) :
    Ledger → ReservationResult → Prop
  | refused {result : ReservationResult} (policies : Table String DiskPolicy)
      (decision : result.decision ≠ .accepted) :
      Outcome codecs mode request l { l with diskPolicies := policies } result
  | reserved {host : DurableHost} {l' : Ledger} {result : ReservationResult}
      (policies : Table String DiskPolicy) (call : mode = .reserve)
      (admitted : Admitted codecs request host l)
      (charge : resourceCommitReserveAdmission request host { l with diskPolicies := policies } =
        .ok (l', result)) : Outcome codecs mode request l l' result
  | released {stored : DurableReservation} {fence : WorkItemFence} {host : DurableHost} {l' : Ledger}
      {result : ReservationResult} (call : mode ≠ .reserve)
      (releasable : Releasable request stored host l)
      (charge : releaseCharge mode request stored fence host l = .ok (l', result)) :
      Outcome codecs mode request l l' result

section
variable {l' : Ledger}

theorem Outcome.same (decision : result.decision ≠ .accepted) :
    Outcome codecs mode request l l result := .refused l.diskPolicies decision

theorem fitsThree_iff {a b c bound : ℕ} :
    fitsThree a b c bound = true ↔ a + b + c ≤ bound ∧ a + b ≤ u64Max ∧ a + b + c ≤ u64Max := by
  unfold fitsThree
  constructor
  · intro h
    obtain ⟨sum, hsum, hle⟩ := (Option.any_eq_true _ _).mp h
    obtain ⟨first, hfirst, hsum⟩ := Option.bind_eq_some_iff.mp hsum
    rw [checkedAdd_eq_some] at hfirst hsum
    have := of_decide_eq_true hle
    omega
  · rintro ⟨h1, h2, h3⟩
    simp [checkedAdd, h1, h2, h3]

theorem capacity_of_sum {requirement : Amounts} (h : resourceCapacitySum host requirement = true)
    (d : Dimension) :
    host.observed.get d + host.held.get d + requirement.get d ≤ host.capacity.get d := by
  unfold resourceCapacitySum at h
  simp only [Bool.and_eq_true, fitsThree_iff] at h
  obtain ⟨⟨⟨hcpu, hmemory⟩, hdisk⟩, hslots⟩ := h
  cases d
  · exact hcpu.1
  · exact hmemory.1
  · exact hdisk.1
  · exact hslots.1

theorem resourceAdmitCheckIndexGates_none (h : resourceAdmitCheckIndexGates request host l = none) :
    (∀ key ∈ affinityKeys request.toTerms, readCount l.antiAffinity key = 0) ∧
      (∀ key ∈ resourceExclusivityKeys request.toTerms, l.exclusivity.get key = none) ∧
      ∀ d, host.observed.get d + host.held.get d + request.requirement.get d ≤ host.capacity.get d := by
  unfold resourceAdmitCheckIndexGates at h
  split_ifs at h with haffinity hlimit hexclusive hcapacity
  rw [Bool.not_eq_true, List.any_eq_false] at haffinity hexclusive
  refine ⟨fun key hkey => ?_, fun key hkey => ?_, capacity_of_sum (Bool.not_eq_false _ ▸ hcapacity)⟩
  · by_contra hne
    exact haffinity key hkey (decide_eq_true hne)
  · have hsome := hexclusive key hkey
    rw [Option.not_isSome_iff_eq_none] at hsome
    exact hsome

theorem disk_of_check {policy : Option DiskPolicy} {count : ℕ}
    (h : resourceAdmitCheckDisk request host policy count = none)
    (hpositive : 0 < request.requirement.diskMib) :
    host.diskUsedMib + host.held.diskMib + request.requirement.diskMib ≤ host.diskCapacityMib := by
  unfold resourceAdmitCheckDisk at h
  split_ifs at h with h1 h2 h3
  unfold availableDisk checkedSub at h3
  split_ifs at h3 with h4
  · simp only [Option.bind_some] at h3
    split_ifs at h3 with h5
    · simp only [Option.getD_some] at h3
      omega
    · simp only [Option.getD_none] at h3
      omega
  · simp only [Option.bind_none, Option.getD_none] at h3
    omega

theorem diskMib_pos (h : resourceValidateRequest request = .ok ()) :
    0 < request.requirement.diskMib := by
  simp only [resourceValidateRequest, resourceValidateRequestRequirement, check_eq_ok, rejectIf_eq_ok,
    resourceRequirementDimensionsInvalid, Bool.or_eq_true, decide_eq_true_eq] at h
  omega

theorem eligibility_ne_accepted
    (h : resourceAdmitCheckHostEligibility request host extension = .ok (some decision)) :
    decision ≠ .accepted := by
  unfold resourceAdmitCheckHostEligibility at h
  split_ifs at h with h1 h2 h3
  · cases h
    exact nofun
  · cases h
    exact h2
  · cases h
    exact nofun
  · obtain ⟨selected, -, h⟩ := unbind h
    rw [pure_eq_ok] at h
    split_ifs at h
    cases h
    exact nofun

theorem gates_ne_accepted (h : resourceAdmitCheckIndexGates request host l = some decision) :
    decision ≠ .accepted := by
  unfold resourceAdmitCheckIndexGates at h
  split_ifs at h <;> · cases h; exact nofun

theorem disk_ne_accepted {policy : Option DiskPolicy} {count : ℕ}
    (h : resourceAdmitCheckDisk request host policy count = some decision) :
    decision ≠ .accepted := by
  unfold resourceAdmitCheckDisk at h
  split_ifs at h <;> · cases h; exact nofun

theorem resourceAdmitApplyDiskPolicy_blocked {policies policies' : Table String DiskPolicy}
    (h : resourceAdmitApplyDiskPolicy request host policies = .ok (policies', some decision)) :
    decision ≠ .accepted := by
  obtain ⟨used, -, h⟩ := unbind h
  obtain ⟨predicted, -, h⟩ := unbind h
  rw [pure_eq_ok] at h
  split_ifs at h <;> cases h
  exact nofun

theorem admitToHost_outcome (hvalid : resourceValidateRequest request = .ok ())
    (hitem : ∃ row fence, l.items.nodes.get request.workItemId = some (some row) ∧
      resourceValidateWorkItem codecs row request false = .ok fence ∧
      statusRefused .reserve request fence row = false)
    (habsent : l.reservations.get request.reservationId = none)
    (hwinner : l.attempts.get (toLex (request.workItemId, request.attempt)) = none)
    (hhost : l.hosts.get request.hostRef = some host)
    (h : resourceAdmitToHost request extension host l = .ok (l', result)) :
    Outcome codecs .reserve request l l' result := by
  obtain ⟨policies, -, h⟩ := unbind h
  obtain ⟨eligibility, heligible, h⟩ := unbind h
  split at h
  · rename_i decision hdecision
    cases h
    refine .same ?_
    rcases Option.or_eq_some_iff.mp hdecision with rfl | ⟨-, hdecision⟩
    · exact eligibility_ne_accepted heligible
    · rcases Option.or_eq_some_iff.mp hdecision with hgates | ⟨-, hdisk⟩
      · exact gates_ne_accepted hgates
      · exact disk_ne_accepted hdisk
  · rename_i hnone
    obtain ⟨-, hnone⟩ := Option.or_eq_none_iff.mp hnone
    obtain ⟨hgates, hdisk⟩ := Option.or_eq_none_iff.mp hnone
    obtain ⟨haffinity, hexclusive, hcapacity⟩ := resourceAdmitCheckIndexGates_none hgates
    obtain ⟨⟨diskPolicies, blocked⟩, hpolicy, h⟩ := unbind h
    cases blocked with
    | some decision =>
      cases h
      exact .refused diskPolicies (resourceAdmitApplyDiskPolicy_blocked hpolicy)
    | none =>
      exact .reserved diskPolicies rfl ⟨hvalid, hitem, habsent, hwinner, hhost, haffinity, hexclusive,
        hcapacity, disk_of_check hdisk (diskMib_pos hvalid)⟩ h

theorem winner_of_proceed (habsent : l.reservations.get request.reservationId = none) {u : Unit}
    (h : resourceCheckAttemptWinnerConflict request l = .ok (.proceed u)) :
    l.attempts.get (toLex (request.workItemId, request.attempt)) = none := by
  unfold resourceCheckAttemptWinnerConflict at h
  split at h
  · rename_i hnone
    exact hnone
  · rename_i winner _
    obtain ⟨_, hpresent, h⟩ := unbind h
    rw [rejectIf_eq_ok] at hpresent
    rw [pure_eq_ok] at h
    split_ifs at h with hwinner
    rw [not_not] at hwinner
    rw [hwinner, habsent] at hpresent
    exact absurd rfl hpresent

theorem winner_ne_accepted
    (h : resourceCheckAttemptWinnerConflict request l = .ok (.decided result)) :
    result.decision ≠ .accepted := by
  unfold resourceCheckAttemptWinnerConflict at h
  split at h
  · cases h
  · obtain ⟨_, -, h⟩ := unbind h
    rw [pure_eq_ok] at h
    split_ifs at h
    cases h
    exact nofun

theorem commitLifecycle_outcome {fence : WorkItemFence}
    (hvalid : resourceValidateRequest request = .ok ())
    (hrow : l.items.nodes.get request.workItemId = some (some row))
    (hfence : resourceValidateWorkItem codecs row request (mode = .reclaim) = .ok fence)
    (hstatus : statusRefused mode request fence row = false)
    (h : commitLifecycle mode request row fence extension l = .ok (l', result)) :
    Outcome codecs mode request l l' result := by
  unfold commitLifecycle at h
  split at h
  · rename_i stored hstored
    unfold resourceCommitReleaseOrReclaim at h
    split at h
    · rename_i decided hdecided
      cases h
      exact .same (neverAccepts_release l mode request stored row result hdecided)
    · rename_i hnone
      obtain ⟨hmismatch, hnone⟩ := Option.or_eq_none_iff.mp hnone
      obtain ⟨hreplay, -⟩ := Option.or_eq_none_iff.mp hnone
      unfold resourceStoredRowMismatch at hmismatch
      split_ifs at hmismatch with htenant hmatch
      rw [Bool.not_eq_false, resourceRequestMatchesRecord_iff] at hmatch
      unfold releaseReplay at hreplay
      split_ifs at hreplay with hends
      rw [not_or, not_not] at hends
      split at h
      · cases h
        exact .same nofun
      · rename_i host hhost
        exact .released hends.2 ⟨hstored, hends.1, hmatch, hhost⟩ h
  · rename_i habsent
    split_ifs at h with hmode
    · subst hmode
      obtain ⟨winner, hwinner, h⟩ := unbind h
      rcases continueWith_ok h with ⟨rfl, rfl⟩ | ⟨u, rfl, h⟩
      · exact .same (winner_ne_accepted hwinner)
      · have hnone := winner_of_proceed habsent hwinner
        split at h
        · cases h
          exact .same nofun
        · rename_i host hhost
          exact admitToHost_outcome hvalid ⟨row, fence, hrow, hfence, hstatus⟩ habsent hnone hhost h
    · cases h
      exact .same nofun

/-- **What a lifecycle call does.** -/
theorem lifecycle_outcome
    (h : applyResourceReservationLifecycle codecs mode request l = .ok (l', result)) :
    Outcome codecs mode request l l' result := by
  obtain ⟨precheck, hprecheck, h⟩ := unbind h
  obtain ⟨hvalid, hdecided⟩ := resourceLifecyclePrecheck_ok hprecheck
  rcases continueWith_ok h with ⟨rfl, rfl⟩ | ⟨u, -, h⟩
  · exact .same (hdecided result rfl)
  obtain ⟨loaded, hloaded, h⟩ := unbind h
  rcases resourceLoadAndValidateWorkItem_ok hloaded with
    ⟨decided, rfl, hne⟩ | ⟨row, fence, rfl, hrow, hfence⟩
  · cases h
    exact .same hne
  obtain ⟨checked, hchecked, h⟩ := unbind h
  rcases resourceValidateWorkItemStatusAndExtension_ok hchecked with
    ⟨decided, rfl, hne⟩ | ⟨hstatus, extension, rfl⟩
  · cases h
    exact .same hne
  · exact commitLifecycle_outcome hvalid hrow hfence hstatus h

end

end Medulla.Resource.Effects
