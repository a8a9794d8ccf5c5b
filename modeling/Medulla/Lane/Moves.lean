import Medulla.Lane.Charges
import Medulla.Lane.Reachable

/-! # What the operations do to the lane tables

Every operation that changes the lane tables makes one move: it writes a policy, it keeps the charge of
a hold and rewrites its row, it charges the scopes of a hold and rewrites its row, it takes a hold that
is cleaned out of the indexes as well, or it puts a new hold in.

* each operation: `apply_moves`. -/

namespace Medulla.Lane.Moves

open Library.Checked WorkItem.Rows Resource.Extension Holds Quota Tables
open Lifecycle Machine Charges Reachable

variable {tenant id : String} {pair : DurablePolicy × DurablePolicy} {lanes lanes' : Lanes}
  {policy : Policy} {row : DurableHold} {hold : Hold} {revisions : Revisions} {revision : ℕ}
  {u : Unit} {request : ObserveRequest} {entry : Option String} {result : Reply}

/-! ### Rows of one hold -/

/-- Two versions of one hold. -/
structure SameHold (old new : Hold) : Prop where
  holdId : new.holdId = old.holdId
  scopeKey : ∀ s, Quota.scopeKey s new = Quota.scopeKey s old
  tenantRef : new.tenantRef = old.tenantRef
  lane : laneIndexKey new = laneIndexKey old
  branch : branchIndexKey new = branchIndexKey old
  worktree : worktreeKey new = worktreeKey old
  workItem : workItemIndexKey new.workItemId new.fence.attempt =
    workItemIndexKey old.workItemId old.fence.attempt

/-- A stored hold is replaced by a bounded one of the same identity. -/
structure Rewrites (lanes : Lanes) (id : String) (row row' : DurableHold) : Prop where
  found : lanes.holds.get id = some row
  same : SameHold row.hold row'.hold
  bounds : durableHoldBounds row' = .ok ()

/-- A rewrite that leaves the charge as it is. -/
structure KeepsCharge (old new : Hold) : Prop where
  charged : old.activeCountCharged = true
  charged' : new.activeCountCharged = true
  state : new.state = old.state ∨ new.state = .active
  predicted : new.predictedDiskBytes = old.predictedDiskBytes
  observed : new.observedDiskBytes = old.observedDiskBytes
  retained : new.retainedDiskBytes = old.retainedDiskBytes

def observeCharge (amount : ℕ) : Charge := { observed := some ⟨true, amount⟩ }

def cleanCharge (hold : Hold) : Charge := { retained := some ⟨false, hold.retainedDiskBytes⟩ }

def reserveCharge (predicted : ℕ) : Charge :=
  { active := some true, predicted := some ⟨true, predicted⟩ }

/-- A rewrite that changes the charge. -/
inductive Recharges : Charge → Hold → Hold → Prop
  | observe {old new : Hold} (amount : ℕ) (charged : old.activeCountCharged = true)
      (charged' : new.activeCountCharged = true) (state : new.state = old.state)
      (predicted : new.predictedDiskBytes = old.predictedDiskBytes)
      (observed : new.observedDiskBytes = old.observedDiskBytes + amount)
      (retained : new.retainedDiskBytes = old.retainedDiskBytes) :
      Recharges (observeCharge amount) old new
  | release {old new : Hold} (charged : old.activeCountCharged = true)
      (released : new.activeCountCharged = false) (state : new.state ≠ .cleaned)
      (retained : new.retainedDiskBytes = max old.predictedDiskBytes old.observedDiskBytes) :
      Recharges (releaseCharge old) old new

/-- A rewrite that cleans the hold. -/
structure Cleans (old new : Hold) : Prop where
  cleanable : isCleanable old.state = true
  charged : new.activeCountCharged = old.activeCountCharged
  state : new.state = .cleaned
  predicted : new.predictedDiskBytes = old.predictedDiskBytes
  observed : new.observedDiskBytes = old.observedDiskBytes
  retained : new.retainedDiskBytes = 0

/-- A newly reserved hold. -/
structure Opens (new : Hold) : Prop where
  charged : new.activeCountCharged = true
  state : new.state = .active
  observed : new.observedDiskBytes = 0
  retained : new.retainedDiskBytes = 0

/-! ### Moves -/

def Revisions.Bounded (revisions : Revisions) : Prop :=
  revisions.tenant ≤ maxCount ∧ revisions.global ≤ maxCount

/-- The counters a charge is made to, and the charge. -/
abbrev Made := (Scope → String) × Charge

def made (hold : Hold) (delta : Charge) : Made := (fun s => scopeKey s hold, delta)

def dropIndexes (hold : Hold) (lanes : Lanes) : Lanes :=
  { lanes with
    laneIndex := lanes.laneIndex.remove (laneIndexKey hold)
    branchIndex := lanes.branchIndex.remove (branchIndexKey hold)
    worktreeIndex := lanes.worktreeIndex.remove (worktreeKey hold)
    workItemIndex :=
      lanes.workItemIndex.remove (workItemIndexKey hold.workItemId hold.fence.attempt) }

def addIndexes (hold : Hold) (lanes : Lanes) : Lanes :=
  { lanes with
    laneIndex := lanes.laneIndex.insert (laneIndexKey hold) hold.holdId
    branchIndex := lanes.branchIndex.insert (branchIndexKey hold) hold.holdId
    worktreeIndex := lanes.worktreeIndex.insert (worktreeKey hold) hold.holdId
    workItemIndex := lanes.workItemIndex.insert (workItemIndexKey hold.workItemId hold.fence.attempt)
      hold.holdId
    tenantIndex := lanes.tenantIndex.insert (tenantIndexKey hold) hold.holdId }

def withRow (row : DurableHold) (meters : Meters) (lanes : Lanes) : Lanes :=
  { lanes with holds := lanes.holds.insert row.hold.holdId row, meters := meters }

/-- An index entry is free, or the hold's own. -/
def FreeFor (entry : Option String) (id : String) : Prop := entry = none ∨ entry = some id

/-- A hold may be added. -/
structure Admits (lanes : Lanes) (row : DurableHold) : Prop where
  fresh : lanes.holds.get row.hold.holdId = none
  bounds : durableHoldBounds row = .ok ()
  opens : Opens row.hold
  lane : FreeFor (lanes.laneIndex.get (laneIndexKey row.hold)) row.hold.holdId
  branch : FreeFor (lanes.branchIndex.get (branchIndexKey row.hold)) row.hold.holdId
  worktree : FreeFor (lanes.worktreeIndex.get (worktreeKey row.hold)) row.hold.holdId
  workItem : lanes.workItemIndex.get (workItemIndexKey row.hold.workItemId row.hold.fence.attempt) =
    none
  count : ∀ s, (counterOf lanes.meters.counters s row.hold).activeCount + 1 ≤ maxCount
  predicted : ∀ s, (counterOf lanes.meters.counters s row.hold).predictedDiskBytes +
    row.hold.predictedDiskBytes ≤ maxDiskBytes

/-- **A move of the lane tables**, with the counters it charged. -/
inductive Move (lanes : Lanes) : Option Made → Lanes → Prop
  | policies (policies : Policies) : Move lanes none { lanes with policies := policies }
  | keep {id : String} {row row' : DurableHold} (rewrites : Rewrites lanes id row row')
      (keeps : KeepsCharge row.hold row'.hold) : Move lanes none (withRow row' lanes.meters lanes)
  | charge {id : String} {row row' : DurableHold} {delta : Charge} {revisions : Revisions}
      {meters : Meters} (rewrites : Rewrites lanes id row row')
      (recharges : Recharges delta row.hold row'.hold) (bounded : Revisions.Bounded revisions)
      (charged : Charged row.hold.tenantRef row.hold delta revisions lanes.meters meters) :
      Move lanes (some (made row.hold delta)) (withRow row' meters lanes)
  | clean {id : String} {row row' : DurableHold} {revisions : Revisions} {meters : Meters}
      (rewrites : Rewrites lanes id row row') (cleans : Cleans row.hold row'.hold)
      (bounded : Revisions.Bounded revisions)
      (charged : Charged row.hold.tenantRef row.hold (cleanCharge row.hold) revisions lanes.meters
        meters) :
      Move lanes (some (made row.hold (cleanCharge row.hold)))
        (withRow row' meters (dropIndexes row.hold lanes))
  | reserve {row : DurableHold} {revisions : Revisions} {meters : Meters} (admits : Admits lanes row)
      (bounded : Revisions.Bounded revisions)
      (charged : Charged row.hold.tenantRef row.hold (reserveCharge row.hold.predictedDiskBytes)
        revisions lanes.meters meters) :
      Move lanes (some (made row.hold (reserveCharge row.hold.predictedDiskBytes)))
        (withRow row meters (addIndexes row.hold lanes))

theorem Move.stay (lanes : Lanes) : Move lanes none lanes := .policies lanes.policies

/-! ### Policies -/

theorem loadPolicy_bounded {policies : Policies} {row : DurablePolicy}
    (h : loadPolicy policies tenant = .ok (some row)) : durablePolicyBounds row = .ok () := by
  unfold loadPolicy at h
  split at h
  · cases h
  · obtain ⟨_, hbounds, h⟩ := unbind h
    cases h
    exact hbounds

theorem fenceCounter_le {n : ℕ} (h : fenceCounter n = true) : n ≤ maxCount := by
  unfold fenceCounter at h
  rw [Bool.and_eq_true, decide_eq_true_eq, decide_eq_true_eq] at h
  exact h.2

theorem policyRevision_le {row : DurablePolicy} (h : durablePolicyBounds row = .ok ()) :
    row.policyRevision ≤ maxCount := by
  unfold durablePolicyBounds at h
  rw [check_eq_ok, rejectIf_eq_ok, not_or, Bool.not_eq_false] at h
  exact fenceCounter_le h.2.1

theorem revisionsOf_bounded {policies : Policies} {shared : String}
    (h : loadPolicy policies tenant = .ok (some pair.1))
    (h' : loadPolicy policies shared = .ok (some pair.2)) : Revisions.Bounded (revisionsOf pair) :=
  ⟨policyRevision_le (loadPolicy_bounded h), policyRevision_le (loadPolicy_bounded h')⟩

theorem currentPolicies_ok (h : currentPolicies lanes tenant = .ok pair) :
    Revisions.Bounded (revisionsOf pair) := by
  obtain ⟨found, hfound, h⟩ := unbind h
  obtain ⟨policy, hpolicy, h⟩ := unbind h
  obtain ⟨found', hfound', h⟩ := unbind h
  obtain ⟨globalPolicy, hglobal, h⟩ := unbind h
  cases h
  rw [orElseRefuse_eq_ok] at hpolicy hglobal
  subst hpolicy
  subst hglobal
  exact revisionsOf_bounded (orFail_eq_ok.mp hfound) (orFail_eq_ok.mp hfound')

theorem limit_le_of_mem (h : policyValidate policy = .ok ()) (s : Scope) :
    policyLimit policy s .count ≤ maxCount ∧ policyLimit policy s .predicted ≤ maxDiskBytes := by
  unfold policyValidate at h
  simp only [check_eq_ok, rejectIf_eq_ok, not_or, Bool.not_eq_false, List.all_eq_true] at h
  obtain ⟨-, -, -, hcount, hbytes⟩ := h
  constructor
  · refine fenceCounter_le (hcount _ ?_)
    cases s <;> simp [PerScope.toList, policyLimit, PerScope.get]
  · have hmem := hbytes (policyLimit policy s .predicted) (by
      refine List.mem_append_left _ (List.mem_append_left _ ?_)
      cases s <;> simp [PerScope.toList, policyLimit, PerScope.get])
    rw [Bool.and_eq_true, decide_eq_true_eq, decide_eq_true_eq] at hmem
    exact hmem.2

/-! ### Rows that are rewritten -/

theorem holdEncode_ok (h : holdEncode row lanes = .ok lanes') : durableHoldBounds row = .ok () ∧
      lanes' = { lanes with holds := lanes.holds.insert row.hold.holdId row } := by
  obtain ⟨_, hbounds, h⟩ := unbind h
  cases h
  exact ⟨hbounds, rfl⟩

theorem sameHold_of_eq {old new : Hold} (h₁ : new.holdId = old.holdId) (h₂ : new.laneId = old.laneId)
    (h₃ : new.tenantRef = old.tenantRef) (h₄ : new.workItemId = old.workItemId)
    (h₅ : new.ownerId = old.ownerId) (h₆ : new.sessionId = old.sessionId)
    (h₇ : new.workspaceRef = old.workspaceRef) (h₈ : new.repositoryId = old.repositoryId)
    (h₉ : new.branch = old.branch) (h₁₀ : new.worktreeLocator = old.worktreeLocator)
    (h₁₁ : new.hostRef = old.hostRef) (h₁₂ : new.fence.attempt = old.fence.attempt) :
    SameHold old new := by
  refine ⟨h₁, fun s => ?_, h₃, ?_, ?_, ?_, ?_⟩
  · cases s <;> simp [Quota.scopeKey, scopeValue, h₃, h₅, h₆, h₇, h₈, h₁₁]
  · rw [laneIndexKey, laneIndexKey, h₃, h₂]
  · rw [branchIndexKey, branchIndexKey, branchKey, branchKey, h₃, h₈, h₉]
  · rw [worktreeKey, worktreeKey, h₁₁, h₇, h₁₀]
  · rw [h₄, h₁₂]

theorem Charged.congr {hold' : Hold} {delta : Charge} {meters meters' : Meters}
    (h : Charged tenant hold delta revisions meters meters')
    (hkeys : ∀ s, scopeKey s hold' = scopeKey s hold) :
    Charged tenant hold' delta revisions meters meters' := by
  have hcounter : ∀ counters s, counterOf counters s hold' = counterOf counters s hold := by
    intro counters s
    rw [counterOf, counterOf, hkeys]
  refine ⟨fun s => ?_, fun key hkey => h.rest key fun s => ?_, ?_⟩
  · rw [hcounter, hcounter]
    exact h.counter s
  · rw [← hkeys s]
    exact hkey s
  · rw [h.pressure]
    unfold pressureChanges
    simp only [hcounter, hkeys]

theorem active_of_gate {request : HoldRequest} {ended : Decision}
    (h : activeHoldGate request row revision ended = .ok u) :
    row.hold.activeCountCharged = true ∧ row.hold.tenantRef = request.tenantRef := by
  obtain ⟨_, hcorrelations, h⟩ := unbind h
  obtain ⟨_, hactive, h⟩ := unbind h
  rw [orRefuse_eq_ok] at hcorrelations hactive
  rw [rejectIf_eq_ok, Bool.not_eq_true] at hactive
  unfold holdNoLongerActive at hactive
  rw [Bool.or_eq_false_iff, Bool.not_eq_false'] at hactive
  obtain ⟨_, htenant, -⟩ := unbind hcorrelations
  exact ⟨hactive.2, not_not.mp (rejectIf_eq_ok.mp htenant)⟩

/-- **A hold that expires.** -/
theorem expire_moves {result : HoldResult} (hrow : lanes.holds.get id = some row)
    (hcharged : row.hold.activeCountCharged = true) (hrevisions : Revisions.Bounded revisions)
    (h : expire row revisions lanes = .ok (lanes', result)) :
    Move lanes (some (made row.hold (releaseCharge row.hold))) lanes' := by
  obtain ⟨⟨lanes₁, row₁⟩, hexpired, h⟩ := unbind h
  cases h
  obtain ⟨lanes₂, hcharge, hexpired⟩ := unbind (orFail_eq_ok.mp hexpired)
  obtain ⟨holdRevision, -, hexpired⟩ := unbind hexpired
  obtain ⟨lifecycleRevision, -, hexpired⟩ := unbind hexpired
  obtain ⟨lanes₃, hencode, hexpired⟩ := unbind hexpired
  cases hexpired
  obtain ⟨meters, rfl, hmeters⟩ := charge_ok hcharge
  obtain ⟨hbounds, rfl⟩ := holdEncode_ok hencode
  have hstate : HoldState.expired ≠ .cleaned := by decide
  refine Move.charge ⟨hrow, ?_, hbounds⟩ (.release hcharged rfl hstate rfl) hrevisions hmeters
  exact sameHold_of_eq rfl rfl rfl rfl rfl rfl rfl rfl rfl rfl rfl rfl

/-- **A hold that ends with its WorkItem.** -/
theorem transitionTerminalHold_moves {row' : DurableHold} {status : Status} {fence : Fence}
    {source : Option Fence} (hrow : lanes.holds.get id = some row)
    (hcharged : row.hold.activeCountCharged = true)
    (hattempt : fence.attempt = row.hold.fence.attempt) (hrevisions : Revisions.Bounded revisions)
    (h : transitionTerminalHold row status fence source revisions lanes = .ok (lanes', row')) :
    Move lanes (some (made row.hold (releaseCharge row.hold))) lanes' := by
  obtain ⟨_, -, h⟩ := unbind h
  obtain ⟨lanes₂, hcharge, h⟩ := unbind h
  obtain ⟨holdRevision, -, h⟩ := unbind h
  obtain ⟨lifecycleRevision, -, h⟩ := unbind h
  obtain ⟨lanes₃, hencode, h⟩ := unbind h
  cases h
  obtain ⟨meters, rfl, hmeters⟩ := charge_ok hcharge
  obtain ⟨hbounds, rfl⟩ := holdEncode_ok hencode
  have hstate : HoldState.cleanupPending ≠ .cleaned := by decide
  refine Move.charge ⟨hrow, ?_, hbounds⟩ (.release hcharged rfl hstate rfl) hrevisions hmeters
  exact sameHold_of_eq rfl rfl rfl rfl rfl rfl rfl rfl rfl rfl rfl hattempt

/-! ### What an operation may charge -/

def releases (row : DurableHold) : Made := made row.hold (releaseCharge row.hold)

def renewCharges (lanes : Lanes) (request : Tables.RenewRequest) : Option Made :=
  (lanes.holds.get request.holdId).bind fun row =>
    if row.hold.expiresAt ≤ request.now then some (releases row) else none

/-- What observing a hold may charge: its expiry, or the bytes beyond the last observation. -/
def observeCharges (lanes : Lanes) (request : ObserveRequest) : Option Made :=
  (lanes.holds.get request.holdId).bind fun row =>
    if row.hold.expiresAt ≤ request.now then some (releases row)
    else if row.hold.observedDiskBytes < request.observedDiskBytes then
      some (made row.hold (observeCharge (request.observedDiskBytes - row.hold.observedDiskBytes)))
    else none

def finishCharges (lanes : Lanes) (request : FinishRequest) : Option Made :=
  (lanes.holds.get request.holdId).bind fun row =>
    if row.hold.activeCountCharged then some (releases row) else none

def cleanupCharges (lanes : Lanes) (request : CleanupRequest) : Option Made :=
  (lanes.holds.get request.holdId).bind fun row =>
    if isCleanable row.hold.state then some (made row.hold (cleanCharge row.hold)) else none

def reserveCharges (request : ReserveRequest) : Option Made :=
  some (made (reservedHold request "" 0 0) (reserveCharge request.intent.predictedDiskBytes))

def endingCharges (lanes : Lanes) (id : String) (attempt : ℕ) : Option Made :=
  ((lanes.workItemIndex.get (workItemIndexKey id attempt)).bind lanes.holds.get).bind fun row =>
    if row.hold.activeCountCharged then some (releases row) else none

/-- The tables move, and charge nothing or what the operation may charge. -/
def MovesBy (charges : Option Made) (lanes lanes' : Lanes) : Prop :=
  Move lanes none lanes' ∨ ∃ m, charges = some m ∧ Move lanes (some m) lanes'

/-! ### Renew and observe -/

section
variable {world : World} {result : HoldResult}

theorem renewLiveHold_moves {request : Tables.RenewRequest} {globalPolicy : Policy}
    (hrow : lanes.holds.get id = some row) (hcharged : row.hold.activeCountCharged = true)
    (h : renewLiveHold world request row globalPolicy revisions lanes = .ok (lanes', result)) :
    Move lanes none lanes' := by
  obtain ⟨_, -, h⟩ := unbind h
  obtain ⟨_, -, h⟩ := unbind h
  obtain ⟨expiresAt, -, h⟩ := unbind h
  obtain ⟨holdRevision, -, h⟩ := unbind h
  obtain ⟨lifecycleRevision, -, h⟩ := unbind h
  obtain ⟨lanes₁, hencode, h⟩ := unbind h
  cases h
  obtain ⟨hbounds, rfl⟩ := holdEncode_ok (orFail_eq_ok.mp hencode)
  refine Move.keep ⟨hrow, ?_, hbounds⟩ ⟨hcharged, hcharged, .inr rfl, rfl, rfl, rfl⟩
  exact sameHold_of_eq rfl rfl rfl rfl rfl rfl rfl rfl rfl rfl rfl rfl

/-- **Renewing a hold.** -/
theorem applyRenew_moves {request : Tables.RenewRequest}
    (h : applyRenew world request lanes = .ok (lanes', result)) :
    MovesBy (renewCharges lanes request) lanes lanes' := by
  obtain ⟨_, -, h⟩ := unbind h
  obtain ⟨policies, hpolicies, h⟩ := unbind h
  obtain ⟨_, -, h⟩ := unbind h
  obtain ⟨row, hload, h⟩ := unbind h
  obtain ⟨_, hgate, h⟩ := unbind h
  have hrow := loadHold_ok hload
  obtain ⟨hcharged, -⟩ := active_of_gate hgate
  split_ifs at h with hexpired
  · refine .inr ⟨releases row, ?_, expire_moves hrow hcharged (currentPolicies_ok hpolicies) h⟩
    rw [renewCharges, hrow, Option.bind_some, if_pos hexpired]
  · exact .inl (renewLiveHold_moves hrow hcharged h)

theorem observation_grows (h : observationOrderingRefusal request row = .ok u) :
    row.hold.observedDiskBytes ≤ request.observedDiskBytes := by
  unfold observationOrderingRefusal at h
  split_ifs at h with hstale
  exact not_lt.mp fun hlt => hstale (.inr hlt)

theorem observeLiveHold_moves (hrow : lanes.holds.get id = some row)
    (hcharged : row.hold.activeCountCharged = true)
    (htenant : row.hold.tenantRef = request.tenantRef) (hrevisions : Revisions.Bounded revisions)
    (h : observeLiveHold world request row revisions lanes = .ok (lanes', result)) :
    (row.hold.observedDiskBytes = request.observedDiskBytes ∧ Move lanes none lanes') ∨
      (row.hold.observedDiskBytes < request.observedDiskBytes ∧ Move lanes (some (made row.hold
          (observeCharge (request.observedDiskBytes - row.hold.observedDiskBytes)))) lanes') := by
  obtain ⟨_, -, h⟩ := unbind h
  obtain ⟨_, hordering, h⟩ := unbind h
  obtain ⟨delta, hdelta, h⟩ := unbind h
  obtain ⟨holdRevision, -, h⟩ := unbind h
  obtain ⟨lanes₁, hcharge, h⟩ := unbind h
  obtain ⟨lanes₂, hencode, h⟩ := unbind h
  cases h
  have hle := observation_grows (orRefuse_eq_ok.mp hordering)
  obtain ⟨-, rfl⟩ := checkedSub_eq_some.mp (okOr_eq_ok.mp (orFail_eq_ok.mp hdelta))
  obtain ⟨hbounds, rfl⟩ := holdEncode_ok (orFail_eq_ok.mp hencode)
  have hsame : SameHold row.hold (observedRow row request holdRevision revisions.tenant).hold :=
    sameHold_of_eq rfl rfl rfl rfl rfl rfl rfl rfl rfl rfl rfl rfl
  have hcharge := orFail_eq_ok.mp hcharge
  unfold chargeObserved at hcharge
  split_ifs at hcharge with hpos
  · obtain ⟨meters, rfl, hmeters⟩ := charge_ok hcharge
    have hlt : row.hold.observedDiskBytes < request.observedDiskBytes := Nat.lt_of_sub_pos hpos
    refine .inr ⟨hlt, Move.charge ⟨hrow, hsame, hbounds⟩ ?_ hrevisions ?_⟩
    · exact .observe _ hcharged hcharged rfl rfl (Nat.add_sub_of_le hle).symm rfl
    · rw [htenant]
      exact Charged.congr hmeters fun s => (hsame.scopeKey s).symm
  · cases hcharge
    have heq : request.observedDiskBytes = row.hold.observedDiskBytes :=
      le_antisymm (Nat.sub_eq_zero_iff_le.mp (Nat.eq_zero_of_not_pos hpos)) hle
    refine .inl ⟨heq.symm, Move.keep ⟨hrow, hsame, hbounds⟩ ?_⟩
    exact ⟨hcharged, hcharged, .inl rfl, rfl, heq, rfl⟩

/-- **Observing a hold.** -/
theorem applyObserve_moves (h : applyObserve world request lanes = .ok (lanes', result)) :
    MovesBy (observeCharges lanes request) lanes lanes' := by
  obtain ⟨_, -, h⟩ := unbind h
  obtain ⟨policies, hpolicies, h⟩ := unbind h
  obtain ⟨row, hload, h⟩ := unbind h
  obtain ⟨_, hgate, h⟩ := unbind h
  have hrow := loadHold_ok hload
  obtain ⟨hcharged, htenant⟩ := active_of_gate hgate
  have hrevisions := currentPolicies_ok hpolicies
  split_ifs at h with hexpired
  · refine .inr ⟨releases row, ?_, expire_moves hrow hcharged hrevisions h⟩
    rw [observeCharges, hrow, Option.bind_some, if_pos hexpired]
  · rcases observeLiveHold_moves hrow hcharged htenant hrevisions h with ⟨-, hmove⟩ | ⟨hlt, hmove⟩
    · exact .inl hmove
    · refine .inr ⟨_, ?_, hmove⟩
      rw [observeCharges, hrow, Option.bind_some, if_neg hexpired, if_pos hlt]

/-! ### Finish -/

theorem attempt_of_correlations {request : Correlation}
    (h : holdCorrelationsMatch hold request = .ok u) :
    request.fence.attempt = hold.fence.attempt := by
  unfold holdCorrelationsMatch at h
  simp only [check_eq_ok, rejectIf_eq_ok, not_not] at h
  exact h.2.2.2.1.symm

section
variable {request : FinishRequest} {matched : FinishReplayMatches}

theorem finishTuples_charged (hcharged : row.hold.activeCountCharged = true)
    (h : finishTuples row request revision = .ok matched) :
    request.fence.attempt = row.hold.fence.attempt := by
  unfold finishTuples at h
  split at h
  · rename_i hcorrelations
    exact attempt_of_correlations hcorrelations
  · have hsource : finishSourceTupleMatches row request = false := by
      unfold finishSourceTupleMatches
      rw [hcharged]
      rfl
    rw [hsource] at h
    cases h

theorem finishRetainedReplay_refuses :
    finishRetainedReplay world request row matched revision ≠ .ok (lanes', result) := by
  intro h
  obtain ⟨_, -, h⟩ := unbind h
  obtain ⟨_, -, h⟩ := unbind h
  cases h

end

/-- **Finishing a hold.** -/
theorem applyFinish_moves {request : FinishRequest}
    (h : applyFinish world request lanes = .ok (lanes', result)) :
    MovesBy (finishCharges lanes request) lanes lanes' := by
  obtain ⟨_, -, h⟩ := unbind h
  obtain ⟨policies, hpolicies, h⟩ := unbind h
  obtain ⟨row, hload, h⟩ := unbind h
  obtain ⟨matched, hmatched, h⟩ := unbind h
  have hrow := loadHold_ok hload
  split_ifs at h with hcharged
  · obtain ⟨_, -, h⟩ := unbind h
    obtain ⟨_, -, h⟩ := unbind h
    obtain ⟨_, -, h⟩ := unbind h
    obtain ⟨_, -, h⟩ := unbind h
    obtain ⟨⟨lanes₁, row₁⟩, htransition, h⟩ := unbind h
    cases h
    refine .inr ⟨releases row, ?_, transitionTerminalHold_moves hrow hcharged
      (finishTuples_charged hcharged hmatched) (currentPolicies_ok hpolicies)
      (orFail_eq_ok.mp htransition)⟩
    rw [finishCharges, hrow, Option.bind_some, if_pos hcharged]
  · exact absurd h finishRetainedReplay_refuses

/-! ### Cleanup -/

theorem cleanupTombstoneReplay_refuses {request : CleanupRequest} :
    cleanupTombstoneReplay world request row revision ≠ .ok (lanes', result) := by
  intro h
  obtain ⟨_, -, h⟩ := unbind h
  obtain ⟨_, -, h⟩ := unbind h
  cases h

theorem removeIndexes_ok (h : removeIndexes hold lanes = .ok lanes') :
    lanes' = dropIndexes hold lanes := by
  obtain ⟨_, -, h⟩ := unbind h
  obtain ⟨_, -, h⟩ := unbind h
  obtain ⟨_, -, h⟩ := unbind h
  obtain ⟨_, -, h⟩ := unbind h
  obtain ⟨_, -, h⟩ := unbind h
  obtain ⟨_, -, h⟩ := unbind h
  cases h
  rfl

theorem cleanupLiveHold_moves {request : CleanupRequest} (hrow : lanes.holds.get id = some row)
    (hcleanable : isCleanable row.hold.state = true)
    (htenant : row.hold.tenantRef = request.tenantRef) (hrevisions : Revisions.Bounded revisions)
    (h : cleanupLiveHold world request row revisions lanes = .ok (lanes', result)) :
    Move lanes (some (made row.hold (cleanCharge row.hold))) lanes' := by
  obtain ⟨_, -, h⟩ := unbind h
  obtain ⟨lanes₁, hcharge, h⟩ := unbind h
  obtain ⟨lanes₂, hremove, h⟩ := unbind h
  obtain ⟨cleanupRevision, -, h⟩ := unbind h
  obtain ⟨holdRevision, -, h⟩ := unbind h
  obtain ⟨lifecycleRevision, -, h⟩ := unbind h
  obtain ⟨lanes₃, hencode, h⟩ := unbind h
  cases h
  obtain ⟨meters, rfl, hmeters⟩ := charge_ok (orFail_eq_ok.mp hcharge)
  obtain rfl := removeIndexes_ok (orFail_eq_ok.mp hremove)
  obtain ⟨hbounds, rfl⟩ := holdEncode_ok (orFail_eq_ok.mp hencode)
  refine Move.clean ⟨hrow, ?_, hbounds⟩ ⟨hcleanable, rfl, rfl, rfl, rfl, rfl⟩ hrevisions ?_
  · exact sameHold_of_eq rfl rfl rfl rfl rfl rfl rfl rfl rfl rfl rfl rfl
  · rw [htenant]
    exact hmeters

/-- **Cleaning a hold.** -/
theorem applyCleanup_moves {request : CleanupRequest}
    (h : applyCleanup world request lanes = .ok (lanes', result)) :
    MovesBy (cleanupCharges lanes request) lanes lanes' := by
  obtain ⟨_, -, h⟩ := unbind h
  obtain ⟨_, -, h⟩ := unbind h
  obtain ⟨policies, hpolicies, h⟩ := unbind h
  obtain ⟨row, hload, h⟩ := unbind h
  obtain ⟨_, htenant, h⟩ := unbind h
  obtain ⟨_, -, h⟩ := unbind h
  have hrow := loadHold_ok hload
  rw [orRefuse_eq_ok, rejectIf_eq_ok, not_not] at htenant
  split_ifs at h with hcleaned
  · exact absurd h cleanupTombstoneReplay_refuses
  · obtain ⟨_, hcleanable, h⟩ := unbind h
    obtain ⟨_, -, h⟩ := unbind h
    rw [orRefuse_eq_ok, rejectIf_eq_ok, Bool.not_eq_false] at hcleanable
    refine .inr ⟨_, ?_, cleanupLiveHold_moves hrow hcleanable htenant
      (currentPolicies_ok hpolicies) h⟩
    rw [cleanupCharges, hrow, Option.bind_some, if_pos hcleanable]

/-! ### Reserve -/

theorem reservePolicyGate_ok {request : ReserveRequest}
    (h : reservePolicyGate lanes request = .ok pair) :
    Revisions.Bounded (revisionsOf pair) ∧ policyValidate pair.1.policy = .ok () := by
  obtain ⟨tenant, htenant, h⟩ := unbind h
  obtain ⟨shared, hshared, h⟩ := unbind h
  obtain ⟨policy, hpolicy, h⟩ := unbind h
  obtain ⟨globalPolicy, hglobal, h⟩ := unbind h
  obtain ⟨_, -, h⟩ := unbind h
  cases h
  rw [orElseRefuse_eq_ok] at hpolicy hglobal
  subst hpolicy
  subst hglobal
  rw [orFail_eq_ok] at htenant hshared
  refine ⟨revisionsOf_bounded htenant hshared, ?_⟩
  have hbounds := loadPolicy_bounded htenant
  unfold durablePolicyBounds at hbounds
  rw [check_eq_ok, failing_eq_ok] at hbounds
  exact hbounds.1

theorem indexed_none {context : String} (h : indexed context entry = .ok none) : entry = none := by
  unfold indexed at h
  split at h
  · rfl
  · obtain ⟨_, -, h⟩ := unbind h
    cases h

theorem indexed_ok {context : String} {found : Option String}
    (h : indexed context entry = .ok found) : found = entry := by
  unfold indexed at h
  split at h
  · cases h
    rfl
  · obtain ⟨_, -, h⟩ := unbind h
    cases h
    rfl

theorem reserveIdentityGate_ok {request : ReserveRequest}
    (h : reserveIdentityGate lanes request id revision = .ok u) : lanes.holds.get id = none ∧
      lanes.workItemIndex.get (workItemIndexKey request.workItemId request.fence.attempt) = none := by
  obtain ⟨found, hfound, h⟩ := unbind h
  cases found with
  | some existing =>
    dsimp only at h
    split_ifs at h
  | none =>
    constructor
    · have hload := orFail_eq_ok.mp hfound
      unfold holdLoad at hload
      split at hload
      · assumption
      · obtain ⟨_, -, hload⟩ := unbind hload
        cases hload
    · obtain ⟨entry, hentry, h⟩ := unbind h
      cases entry with
      | none => exact indexed_none (orFail_eq_ok.mp hentry)
      | some existing =>
        dsimp only at h
        split at h
        · cases h
        · split_ifs at h

theorem exclusivePair_ok (h : exclusivePair lanes entry id = .ok u) : FreeFor entry id := by
  unfold exclusivePair at h
  split at h
  · exact .inl rfl
  · split_ifs at h with heq
    · exact .inr (congrArg some heq)
    · split at h <;> cases h

theorem reserveCounterCheck_ok {predicted : ℕ} :
    ∀ {rows : List ScopeCounter}, reserveCounterCheck policy predicted rows = .ok u → ∀ row ∈ rows,
      row.value.activeCount + 1 ≤ policyLimit policy row.scope .count ∧
        row.value.predictedDiskBytes + predicted ≤ policyLimit policy row.scope .predicted
  | [], _, row, hrow => nomatch hrow
  | first :: rest, h, row, hrow => by
    obtain ⟨_, hfirst, h⟩ := unbind h
    rcases List.mem_cons.mp hrow with rfl | hrow
    · rw [rejectIf_eq_ok] at hfirst
      simp only [not_or, not_lt] at hfirst
      exact ⟨hfirst.2.2.1, hfirst.2.2.2.1⟩
    · exact reserveCounterCheck_ok h row hrow

theorem reserveAdmissionGate_ok {loaded : List ScopeCounter}
    (h : reserveAdmissionGate lanes hold policy revisions = .ok loaded) :
    (FreeFor (lanes.laneIndex.get (laneIndexKey hold)) hold.holdId ∧
      FreeFor (lanes.branchIndex.get (branchIndexKey hold)) hold.holdId ∧
      FreeFor (lanes.worktreeIndex.get (worktreeKey hold)) hold.holdId) ∧
    loadScopeCounters lanes.meters.counters hold revisions = .ok loaded ∧
    ∀ s, (counterOf lanes.meters.counters s hold).activeCount + 1 ≤ policyLimit policy s .count ∧
      (counterOf lanes.meters.counters s hold).predictedDiskBytes + hold.predictedDiskBytes ≤
        policyLimit policy s .predicted := by
  obtain ⟨lane, hlane, h⟩ := unbind h
  obtain ⟨_, hlaneFree, h⟩ := unbind h
  obtain ⟨branch, hbranch, h⟩ := unbind h
  obtain ⟨_, hbranchFree, h⟩ := unbind h
  obtain ⟨worktree, hworktree, h⟩ := unbind h
  obtain ⟨_, hworktreeFree, h⟩ := unbind h
  obtain ⟨rows, hloaded, h⟩ := unbind h
  obtain ⟨_, hcheck, h⟩ := unbind h
  cases h
  rw [orFail_eq_ok] at hlane hbranch hworktree hloaded
  rw [orRefuse_eq_ok] at hlaneFree hbranchFree hworktreeFree hcheck
  obtain rfl := indexed_ok hlane
  obtain rfl := indexed_ok hbranch
  obtain rfl := indexed_ok hworktree
  refine ⟨⟨exclusivePair_ok hlaneFree, exclusivePair_ok hbranchFree, exclusivePair_ok hworktreeFree⟩,
    hloaded, fun s => ?_⟩
  obtain rfl := loadScopes_ok hloaded
  exact reserveCounterCheck_ok hcheck _ (List.mem_map.mpr ⟨s, mem_scopes s, rfl⟩)

theorem putIndexes_ok (h : putIndexes hold lanes = .ok lanes') :
    lanes' = addIndexes hold lanes := by
  obtain ⟨_, -, h⟩ := unbind h
  cases h
  rfl

/-- **Reserving a lane.** -/
theorem applyReserve_moves {request : ReserveRequest}
    (h : applyReserve world request lanes = .ok (lanes', result)) :
    MovesBy (reserveCharges request) lanes lanes' := by
  obtain ⟨_, -, h⟩ := unbind h
  obtain ⟨policies, hpolicies, h⟩ := unbind h
  obtain ⟨_, hidentity, h⟩ := unbind h
  obtain ⟨⟨item, intent⟩, -, h⟩ := unbind h
  obtain ⟨stored, -, h⟩ := unbind h
  obtain ⟨_, -, h⟩ := unbind h
  obtain ⟨expiresAt, -, h⟩ := unbind h
  obtain ⟨loaded, hadmission, h⟩ := unbind h
  obtain ⟨meters, hmeters, h⟩ := unbind h
  obtain ⟨lanes₁, hindexes, h⟩ := unbind h
  obtain ⟨lanes₂, hencode, h⟩ := unbind h
  cases h
  obtain ⟨hrevisions, hvalid⟩ := reservePolicyGate_ok hpolicies
  obtain ⟨hfresh, hattempt⟩ := reserveIdentityGate_ok hidentity
  obtain ⟨⟨hlane, hbranch, hworktree⟩, hloaded, hroom⟩ := reserveAdmissionGate_ok hadmission
  obtain rfl := putIndexes_ok (orFail_eq_ok.mp hindexes)
  obtain ⟨hbounds, rfl⟩ := holdEncode_ok (orFail_eq_ok.mp hencode)
  have hcharged := applyCounterDelta_ok hloaded (orFail_eq_ok.mp hmeters)
  refine .inr ⟨_, ?_, @Move.reserve lanes (reservedRow request _) _ _ ⟨hfresh, hbounds, ⟨rfl, rfl, rfl, rfl⟩,
    hlane, hbranch, hworktree, hattempt, fun s => ?_, fun s => ?_⟩ hrevisions hcharged⟩
  · unfold reserveCharges made
    refine congrArg some (Prod.ext (funext fun s => ?_) rfl)
    cases s <;> rfl
  · exact (hroom s).1.trans (limit_le_of_mem hvalid s).1
  · exact (hroom s).2.trans (limit_le_of_mem hvalid s).2

end

/-! ### Policies that change -/

/-- **Updating a policy** writes no other table. -/
theorem applyQuotaUpdate_moves {request : QuotaUpdateRequest} {result : QuotaResult}
    (h : applyQuotaUpdate request lanes = .ok (lanes', result)) : Move lanes none lanes' := by
  obtain ⟨policies, rfl⟩ := applyQuotaUpdate_ok h
  exact .policies policies

/-! ### WorkItems that end -/

theorem linkedHold_ok {attempt : ℕ} (h : linkedHold lanes id attempt = .ok (some row)) :
    ∃ holdId, lanes.workItemIndex.get (workItemIndexKey id attempt) = some holdId ∧
      lanes.holds.get holdId = some row ∧ row.hold.activeCountCharged = true := by
  unfold linkedHold at h
  split_ifs at h
  · cases h
  · obtain ⟨entry, hentry, h⟩ := unbind h
    obtain rfl := indexed_ok hentry
    split at h
    · cases h
    · rename_i holdId hindex
      obtain ⟨found, hfound, h⟩ := unbind h
      obtain ⟨stored, hstored, hreturn⟩ := unbind h
      rw [okOr_eq_ok] at hstored
      subst hstored
      cases hcharged : stored.hold.activeCountCharged with
      | false =>
        rw [hcharged] at hreturn
        cases hreturn
      | true =>
        rw [hcharged] at hreturn
        cases hreturn
        exact ⟨holdId, hindex, (holdLoad_eq_some hfound).1, hcharged⟩

/-- **A WorkItem that ends** releases the charge of its hold. -/
theorem transitionWorkItemTerminalHold_moves {codecs : Codecs} {before : Row} {ending : Ending}
    (h : transitionWorkItemTerminalHold codecs before id ending lanes = .ok lanes') :
    MovesBy (endingCharges lanes id before.attempt) lanes lanes' := by
  obtain ⟨found, hfound, h⟩ := unbind h
  cases found with
  | none =>
    cases h
    exact .inl (.stay _)
  | some row =>
    obtain ⟨holdId, hindex, hrow, hcharged⟩ := linkedHold_ok hfound
    obtain ⟨_, -, h⟩ := unbind h
    obtain ⟨_, hfence, h⟩ := unbind h
    obtain ⟨intent, -, h⟩ := unbind h
    obtain ⟨_, -, h⟩ := unbind h
    obtain ⟨status, -, h⟩ := unbind h
    obtain ⟨leaseEpoch, -, h⟩ := unbind h
    obtain ⟨fencingToken, -, h⟩ := unbind h
    obtain ⟨_, htuple, h⟩ := unbind h
    obtain ⟨tenant, htenant, h⟩ := unbind h
    obtain ⟨policy, hpolicy, h⟩ := unbind h
    obtain ⟨shared, hshared, h⟩ := unbind h
    obtain ⟨globalPolicy, hglobal, h⟩ := unbind h
    obtain ⟨⟨lanes₁, row₁⟩, htransition, h⟩ := unbind h
    cases h
    rw [okOr_eq_ok] at hpolicy hglobal
    subst hpolicy
    subst hglobal
    have hattempt : ending.fence.attempt = row.hold.fence.attempt := by
      have hbefore : row.hold.fence = rowFence before := by
        by_contra hother
        rw [rejectIf_eq_ok] at hfence
        refine hfence (.inr ?_)
        unfold workItemFenceMismatch
        simp [hother]
      have hnext : ending.fence.attempt = before.attempt := by
        by_contra hother
        rw [rejectIf_eq_ok] at htuple
        refine htuple ?_
        unfold terminalTupleInvalid
        simp [hother]
      rw [hnext, hbefore]
      rfl
    refine .inr ⟨releases row, ?_, transitionTerminalHold_moves hrow hcharged hattempt
      (@revisionsOf_bounded _ (policy, globalPolicy) _ _ htenant hshared) htransition⟩
    rw [endingCharges, hindex, Option.bind_some, hrow, Option.bind_some, if_pos hcharged]

/-! ### Operations on a graph -/

/-- The charge a lane operation makes. -/
def mutationCharges (lanes : Lanes) : Mutation → Option Made
  | .reserve request => reserveCharges request
  | .renew request => renewCharges lanes request
  | .observe request => observeCharges lanes request
  | .finish request => finishCharges lanes request
  | .cleanup request => cleanupCharges lanes request
  | .quotaUpdate _ => none

def rowCharges (items : Graph) (lanes : Lanes) (id : String) : Option Made :=
  match items.nodes.get id with
  | some (some row) => endingCharges lanes id row.attempt
  | _ => none

/-- **What an operation may charge**, by the state before it. -/
def chargesOf (s : State) : Op → Option Made
  | .lane now m => mutationCharges s.lanes (m.normalizeNow now)
  | .workItem (.commit request) => rowCharges s.ledger.items s.lanes request.fence.workItemId
  | .workItem (.cancel request) => rowCharges s.ledger.items s.lanes request.workItemId
  | _ => none

theorem settle_moves {ρ : Type} {reply : ρ → Reply} {gate : Gate ρ (Lanes × ρ)}
    {charges : Option Made}
    (hgate : ∀ answer, gate = .ok (lanes', answer) → MovesBy charges lanes lanes')
    (h : settle reply lanes gate = .ok (lanes', result)) : MovesBy charges lanes lanes' := by
  rcases settle_ok h with rfl | ⟨answer, hanswer⟩
  · exact .inl (.stay _)
  · exact hgate answer hanswer

theorem mutate_moves {world : World} {m : Mutation}
    (h : mutate world lanes m = .ok (lanes', result)) :
    MovesBy (mutationCharges lanes m) lanes lanes' := by
  cases m with
  | reserve request => exact settle_moves (fun _ => applyReserve_moves) h
  | renew request => exact settle_moves (fun _ => applyRenew_moves) h
  | observe request => exact settle_moves (fun _ => applyObserve_moves) h
  | finish request => exact settle_moves (fun _ => applyFinish_moves) h
  | cleanup request => exact settle_moves (fun _ => applyCleanup_moves) h
  | quotaUpdate request =>
    exact settle_moves (fun _ hupdate => .inl (applyQuotaUpdate_moves hupdate)) h

theorem commitDevelopmentLane_moves {ctx : Context} {now : ℕ} {m : Mutation} {s s' : State}
    (h : commitDevelopmentLane ctx now m s = .ok (s', result)) :
    MovesBy (chargesOf s (.lane now m)) s.lanes s'.lanes := by
  obtain ⟨_, -, h⟩ := unbind h
  obtain ⟨replay, -, h⟩ := unbind h
  split at h
  · cases h
    exact .inl (.stay _)
  · cases h
    exact .inl (.stay _)
  · obtain ⟨⟨lanes, answer⟩, hmutate, h⟩ := unbind h
    obtain ⟨invocations, -, h⟩ := unbind h
    cases h
    exact mutate_moves hmutate

theorem rowCharges_row {items : Graph} {row : Row} (h : items.nodes.get id = some (some row)) :
    rowCharges items lanes id = endingCharges lanes id row.attempt := by
  simp only [rowCharges, h]

theorem workItemLanes_moves {codecs : Codecs} {s : State} {call : WorkItem.Machine.Call}
    (h : workItemLanes codecs s.ledger.items s.lanes call = .ok lanes) :
    MovesBy (chargesOf s (.workItem call)) s.lanes lanes := by
  cases call with
  | commit request =>
    change commitLanes codecs s.ledger.items request s.lanes = .ok lanes at h
    change MovesBy (rowCharges s.ledger.items s.lanes request.fence.workItemId) s.lanes lanes
    unfold commitLanes at h
    split at h
    · rename_i row hrow
      rw [rowCharges_row hrow]
      split_ifs at h
      · exact transitionWorkItemTerminalHold_moves h
      · cases h
        exact .inl (.stay _)
    · cases h
      exact .inl (.stay _)
  | cancel request =>
    change cancelLanes codecs s.ledger.items request s.lanes = .ok lanes at h
    change MovesBy (rowCharges s.ledger.items s.lanes request.workItemId) s.lanes lanes
    unfold cancelLanes at h
    split at h
    · rename_i row hrow
      rw [rowCharges_row hrow]
      split_ifs at h
      · obtain ⟨fences, -, h⟩ := unbind h
        exact transitionWorkItemTerminalHold_moves h
      · cases h
        exact .inl (.stay _)
    · cases h
      exact .inl (.stay _)
  | _ =>
    cases h
    exact .inl (.stay _)

/-- **Every committed operation makes one move.** -/
theorem apply_moves {ctx : Context} {s s' : State} {op : Op} (h : Machine.apply ctx s op = .ok s') :
    MovesBy (chargesOf s op) s.lanes s'.lanes := by
  obtain ⟨written, hwritten, h⟩ := unbind h
  rw [(checked_ok h).1]
  cases op with
  | lane now m =>
    obtain ⟨⟨s₁, result⟩, hlane, hwritten⟩ := unbind hwritten
    cases hwritten
    exact commitDevelopmentLane_moves hlane
  | workItem call =>
    obtain ⟨⟨items, result⟩, -, hwritten⟩ := unbind hwritten
    obtain ⟨lanes, hlanes, hwritten⟩ := unbind hwritten
    cases hwritten
    exact workItemLanes_moves hlanes
  | casMetadata now request =>
    obtain ⟨items, -, hwritten⟩ := unbind hwritten
    cases hwritten
    exact .inl (.stay _)
  | updateHost request =>
    obtain ⟨⟨ledger, result⟩, -, hwritten⟩ := unbind hwritten
    cases hwritten
    exact .inl (.stay _)
  | resource mode request =>
    obtain ⟨⟨ledger, result⟩, -, hwritten⟩ := unbind hwritten
    cases hwritten
    exact .inl (.stay _)

theorem step_moves (ctx : Context) (s : State) (op : Op) :
    MovesBy (chargesOf s op) s.lanes (step ctx s op).lanes := by
  unfold Machine.step
  split
  · rename_i s' h
    exact apply_moves h
  · exact .inl (.stay _)

end Medulla.Lane.Moves
