import Medulla.Lane.Accounting
import Medulla.Resource.Reclaim

/-! # Counters within their bounds

A counter is written as it is and read through its bounds, so a counter that leaves them cannot be read
again, and nothing that charges its scope can commit.

* one move: `Bounded.move`;
* every run: `lane_counters_readable`. -/

namespace Medulla.Lane.CounterBounds

open Library Library.Checked WorkItem.Rows Resource.Requests Resource.Extension Holds
open Quota Tables Lifecycle Machine Charges Moves

variable {counters : Counters} {delta : Charge}

/-! ### Bounds -/

def metricBound : Metric → ℕ
  | .count => maxCount
  | _ => maxDiskBytes

/-- A counter within its native bounds. -/
structure InBounds (c : Counter) : Prop where
  metric : ∀ m, c.get m ≤ metricBound m
  revision : c.revision ≤ maxCount
  policyRevision : c.policyRevision ≤ maxCount
  globalPolicyRevision : c.globalPolicyRevision ≤ maxCount

theorem durableCounterBounds_ok {c : Counter} : durableCounterBounds c = .ok () ↔ InBounds c := by
  unfold durableCounterBounds
  rw [rejectIf_eq_ok]
  simp only [not_or, not_lt]
  constructor
  · rintro ⟨hcount, hpredicted, hobserved, hretained, hrevision, hpolicy, hglobal⟩
    refine ⟨fun m => ?_, hrevision, hpolicy, hglobal⟩
    cases m with
    | count => exact hcount
    | predicted => exact hpredicted
    | observed => exact hobserved
    | retained => exact hretained
  · rintro ⟨hmetric, hrevision, hpolicy, hglobal⟩
    exact ⟨hmetric .count, hmetric .predicted, hmetric .observed, hmetric .retained, hrevision, hpolicy,
      hglobal⟩

theorem inBounds_empty : InBounds {} := by
  refine ⟨fun m => ?_, Nat.zero_le _, Nat.zero_le _, Nat.zero_le _⟩
  cases m <;> exact Nat.zero_le _

def Bounded (counters : Counters) : Prop := ∀ key c, counters.get key = some c → InBounds c

theorem Bounded.counterOf (h : Bounded counters) (s : Scope) (hold : Hold) :
    InBounds (counterOf counters s hold) := by
  unfold Charges.counterOf
  cases hget : counters.get (scopeKey s hold) with
  | none => exact inBounds_empty
  | some c => exact h _ c hget

/-! ### Room -/

/-- How far a charge raises a counter. -/
def growth : Option Delta → ℕ
  | some ⟨true, amount⟩ => amount
  | _ => 0

theorem le_of_leads {delta : Option Delta} {a b bound : ℕ} (h : Leads delta a b)
    (hroom : a + growth delta ≤ bound) : b ≤ bound := by
  rcases delta with _ | ⟨increase, amount⟩
  · cases h
    exact hroom
  · cases increase
    · change a = b + amount at h
      omega
    · change b = a + amount at h
      change a + amount ≤ bound at hroom
      omega

/-- A charge leaves a counter within its bounds. -/
structure Fits (delta : Charge) (c : Counter) : Prop where
  metric : ∀ m, c.get m + growth (Charge.get delta m) ≤ metricBound m
  revision : c.revision < maxCount

theorem inBounds_of_charged {revisions : Revisions} {s : Scope} {old new : Counter}
    (hold : InBounds old) (hfits : Fits delta old) (hrevisions : Revisions.Bounded revisions)
    (h : ChargedCounter delta revisions s old new) : InBounds new := by
  refine ⟨fun m => le_of_leads (h.metric m) (hfits.metric m), ?_, ?_, ?_⟩
  · rw [h.revision]
    exact hfits.revision
  · rw [h.policyRevision]
    split_ifs
    · exact hold.policyRevision
    · exact hrevisions.1
  · rw [h.globalPolicyRevision]
    split_ifs
    · exact hrevisions.2
    · exact hold.globalPolicyRevision

/-- **A charge that fits** keeps every counter within its bounds. -/
theorem Bounded.charged {tenant : String} {hold : Hold} {revisions : Revisions}
    {meters meters' : Meters} (h : Bounded meters.counters)
    (hfits : ∀ s, Fits delta (Charges.counterOf meters.counters s hold))
    (hrevisions : Revisions.Bounded revisions)
    (hcharged : Charged tenant hold delta revisions meters meters') : Bounded meters'.counters := by
  intro key c hget
  by_cases hkey : ∃ s, key = scopeKey s hold
  · obtain ⟨s, rfl⟩ := hkey
    have hc : Charges.counterOf meters'.counters s hold = c := by
      rw [Charges.counterOf, hget]
      rfl
    rw [← hc]
    exact inBounds_of_charged (h.counterOf s hold) (hfits s) hrevisions (hcharged.counter s)
  · rw [hcharged.rest key fun s hs => hkey ⟨s, hs⟩] at hget
    exact h key c hget

/-- **The counters have room** for what they are charged: the observed and the retained bytes and one
more revision. -/
def HasRoom (counters : Counters) (m : Made) : Prop :=
  ∀ s ∈ scopes, ((counters.get (m.1 s)).getD {}).observedDiskBytes + growth m.2.observed ≤ maxDiskBytes ∧
    ((counters.get (m.1 s)).getD {}).retainedDiskBytes + growth m.2.retained ≤ maxDiskBytes ∧
    ((counters.get (m.1 s)).getD {}).revision < maxCount

instance (counters : Counters) (m : Made) : Decidable (HasRoom counters m) :=
  inferInstanceAs (Decidable (∀ s ∈ scopes, _))

theorem fits_of_room {hold : Hold} (hbounded : Bounded counters)
    (hroom : HasRoom counters (made hold delta))
    (hcount : growth (Charge.get delta .count) = 0 ∧ growth (Charge.get delta .predicted) = 0)
    (s : Scope) : Fits delta (Charges.counterOf counters s hold) := by
  obtain ⟨hobserved, hretained, hrevision⟩ := hroom s (mem_scopes s)
  have hold' := hbounded.counterOf s hold
  refine ⟨fun m => ?_, hrevision⟩
  cases m with
  | count =>
    rw [hcount.1]
    exact hold'.metric .count
  | predicted =>
    rw [hcount.2]
    exact hold'.metric .predicted
  | observed => exact hobserved
  | retained => exact hretained

theorem recharges_adds_no_hold {old new : Hold} (h : Recharges delta old new) :
    growth (Charge.get delta .count) = 0 ∧ growth (Charge.get delta .predicted) = 0 := by
  cases h with
  | observe => exact ⟨rfl, rfl⟩
  | release => exact ⟨rfl, rfl⟩

theorem fits_of_admits {lanes : Lanes} {row : DurableHold} (h : Admits lanes row)
    (hroom : HasRoom lanes.meters.counters
      (made row.hold (reserveCharge row.hold.predictedDiskBytes))) (s : Scope) :
    Fits (reserveCharge row.hold.predictedDiskBytes)
      (Charges.counterOf lanes.meters.counters s row.hold) := by
  obtain ⟨hobserved, hretained, hrevision⟩ := hroom s (mem_scopes s)
  refine ⟨fun m => ?_, hrevision⟩
  cases m with
  | count => exact h.count s
  | predicted => exact h.predicted s
  | observed => exact hobserved
  | retained => exact hretained

/-- **A move with room** keeps the counters within their bounds. -/
theorem Bounded.move {lanes lanes' : Lanes} {m : Option Made} (h : Bounded lanes.meters.counters)
    (hroom : ∀ made, m = some made → HasRoom lanes.meters.counters made) (hmove : Move lanes m lanes') :
    Bounded lanes'.meters.counters := by
  cases hmove with
  | policies policies => exact h
  | keep rewrites keeps => exact h
  | charge rewrites recharges bounded charged =>
    exact h.charged (fits_of_room h (hroom _ rfl) (recharges_adds_no_hold recharges)) bounded charged
  | clean rewrites cleans bounded charged =>
    exact h.charged (fits_of_room h (hroom _ rfl) ⟨rfl, rfl⟩) bounded charged
  | reserve admits bounded charged =>
    exact h.charged (fits_of_admits admits (hroom _ rfl)) bounded charged

/-! ### Runs -/

/-- Every charge of an operation fits. -/
def Room (s : State) (op : Op) : Prop := ∀ m ∈ chargesOf s op, HasRoom s.lanes.meters.counters m

instance (s : State) (op : Op) : Decidable (Room s op) :=
  match h : chargesOf s op with
  | none => .isTrue fun m hm => by rw [h] at hm; cases hm
  | some m => decidable_of_iff (HasRoom s.lanes.meters.counters m) (by
      unfold Room
      rw [h]
      simp)

theorem Bounded.step (ctx : Context) {s : State} {op : Op} (h : Bounded s.lanes.meters.counters)
    (hroom : Room s op) : Bounded (step ctx s op).lanes.meters.counters := by
  rcases step_moves ctx s op with hmove | ⟨m, hcharges, hmove⟩
  · exact h.move (fun m hm => by cases hm) hmove
  · refine h.move (fun m' hm' => ?_) hmove
    cases hm'
    exact hroom m hcharges

def counterRefusal : String := "stored development lane counter exceeds native bounds"

theorem loadCounter_not_refused (h : Bounded counters) (key : String) (scope : Scope)
    (revisions : Revisions) : loadCounter counters key scope revisions ≠ .error counterRefusal := by
  have hrevision : ∀ value, checkRevision scope value revisions ≠ .error counterRefusal := by
    intro value hrefused
    unfold checkRevision at hrefused
    split at hrefused
    all_goals
      unfold rejectIf at hrefused
      split_ifs at hrefused
      exact absurd (Except.error.inj hrefused) (by decide)
  have hcheck : ∀ value : Counter, (do checkRevision scope value revisions; return value) ≠
      (Except.error counterRefusal : Except String Counter) := by
    intro value hrefused
    cases hchecked : checkRevision scope value revisions with
    | ok u =>
      rw [hchecked] at hrefused
      cases hrefused
    | error message =>
      rw [hchecked] at hrefused
      exact hrevision value (hchecked.trans (congrArg Except.error (Except.error.inj hrefused)))
  unfold loadCounter
  cases hget : counters.get key with
  | none => exact hcheck {}
  | some value =>
    dsimp only
    rw [durableCounterBounds_ok.mpr (h key value hget)]
    exact hcheck value

theorem loadCounter_refused {key : String} {c : Counter} (hget : counters.get key = some c)
    (hrefused : durableCounterBounds c = .error counterRefusal) (scope : Scope)
    (revisions : Revisions) : loadCounter counters key scope revisions = .error counterRefusal := by
  unfold loadCounter
  rw [hget]
  dsimp only
  rw [hrefused]
  rfl

/-- **Lane counters stay readable** along every run whose charges have room: every stored counter passes
its bounds, and no read of a counter is refused for them. -/
theorem lane_counters_readable (ctx : Context) (ledger : Resource.Admission.Ledger)
    (invocations : Invocations) (ops : List Op)
    (h : Transaction.Along (step ctx) Room ⟨ledger, .fresh, invocations⟩ ops) :
    (∀ key c, (run ctx ⟨ledger, .fresh, invocations⟩ ops).lanes.meters.counters.get key = some c →
      durableCounterBounds c = .ok ()) ∧
    ∀ key scope revisions,
      loadCounter (run ctx ⟨ledger, .fresh, invocations⟩ ops).lanes.meters.counters key scope revisions ≠
        .error counterRefusal := by
  have hbounded : Bounded (run ctx ⟨ledger, .fresh, invocations⟩ ops).lanes.meters.counters :=
    Transaction.run_invariant_along (I := fun s : State => Bounded s.lanes.meters.counters)
      (fun _ _ hroom hs => hs.step ctx hroom) ops _ h fun _ _ hget => nomatch hget
  refine ⟨fun key c hget => durableCounterBounds_ok.mpr (hbounded key c hget), ?_⟩
  intro key scope revisions
  exact loadCounter_not_refused hbounded key scope revisions

/-! ### Two lanes -/

def zeroSha : String := "0000000000000000000000000000000000000000"

def laneIntent (n : String) : Intent :=
  { tenantRef := "t", requestId := "q" ++ n, laneId := "l" ++ n, repositoryId := "t", baseRef := "main"
    baseSha := zeroSha, branch := "b" ++ n, hostTargetKind := .localHost, hostTargetAlias := none
    hostRef := "h", resourceReservationId := "s" ++ n, workspaceRef := "x", worktreeLocator := "y" ++ n
    ownerId := "w", sessionId := "z", fairnessGroup := "t", quotaPolicyName := "p"
    quotaPolicyVersion := "1", predictedDiskBytes := 10, ttl := 500
    inputFingerprint := Reachable.zeroDigest }

/-- The same intent as the metadata of a row holds it. -/
def laneFields (n : String) : Fields :=
  [("schema_version", .text "1"), ("tenant_ref", .text "t"), ("request_id", .text ("q" ++ n)),
    ("lane_id", .text ("l" ++ n)), ("repository_id", .text "t"), ("base_ref", .text "main"),
    ("base_sha", .text zeroSha), ("branch", .text ("b" ++ n)), ("host_target_kind", .text "local"),
    ("host_target_alias", .null), ("host_ref", .text "h"),
    ("resource_reservation_id", .text ("s" ++ n)), ("workspace_ref", .text "x"),
    ("worktree_locator", .text ("y" ++ n)), ("owner_id", .text "w"), ("session_id", .text "z"),
    ("fairness_group", .text "t"), ("quota_policy_name", .text "p"),
    ("quota_policy_version", .text "1"), ("predicted_disk_bytes", .unsigned 10),
    ("ttl_ms", .unsigned 500), ("input_fingerprint", .text Reachable.zeroDigest)]

def laneItem (n : String) : Row :=
  { nodeType := "WorkItem", tenant := "t", kind := "lane.lifecycle", status := .leased, leaseOwner := "w"
    lastLeaseOwner := "w", leaseEpoch := 1, fencingToken := 1, leaseExpiresAt := 61000
    workItemFence := "1", attempt := 1, metadata := n }

def laneReservation (n : String) : DurableReservation :=
  { record := { Resource.Reclaim.itemTerms with
      workItemId := "i" ++ n, reservationId := "s" ++ n, branch := "b" ++ n
      inputFingerprint := Reachable.zeroDigest, capacitySnapshot := {}, hostRevision := 1
      selectedTarget := (.localHost, none, []), expectedLifecycleRevision := none, state := .reserved
      revision := 1, lifecycleRevision := 1, tombstone := false }
    held := {}, fairnessDebt := 0 }

def twoItems : Resource.Admission.Ledger :=
  { Resource.Admission.Ledger.fresh ⟨"g", .ofPairs [("i1", some (laneItem "1")),
        ("i2", some (laneItem "2"))], 0⟩ with
      reservations := .ofPairs [("s1", laneReservation "1"), ("s2", laneReservation "2")] }

/-- Sixty-four characters that say which of the two requests was digested. -/
def requestSha (s : String) : String :=
  if s.toList.getLast? = some '2' then
    "2222222222222222222222222222222222222222222222222222222222222222"
  else "1111111111111111111111111111111111111111111111111111111111111111"

def laneContext : Context :=
  ⟨⟨⟨fun _ => "", fun _ => ""⟩, ⟨fun n => .object [("repository_work_item",
    .object [("development_lane_intent", .object (laneFields n))])], fun _ => ""⟩⟩, requestSha,
    fun _ => Reachable.zeroDigest⟩

def laneAttempt (n : String) : Correlation := ⟨"t", "i" ++ n, "w", ⟨1, 1, 1, "1"⟩⟩

def reserveLane (n : String) : Op :=
  .lane 1001 (.reserve ⟨laneAttempt n, laneIntent n, "r" ++ n, 0⟩)

def observeLane (n : String) (bytes : ℕ) : Op :=
  .lane 1002 (.observe ⟨⟨laneAttempt n, "v1:" ++ requestSha n, 1, "o" ++ n, 0⟩, bytes, 1⟩)

def reserveOne : List Op :=
  [.lane 1000 (.quotaUpdate ⟨"t", Reachable.plainPolicy, 0, none, "k", 0⟩), reserveLane "1"]

def observeBoth : List Op :=
  reserveOne ++ [reserveLane "2", observeLane "1" maxDiskBytes, observeLane "2" maxDiskBytes]

def tenantKey : String := "tenant\x00t\x00t"

def lanesAfter (ops : List Op) : Lanes := (run laneContext ⟨twoItems, .fresh, .empty⟩ ops).lanes

/-- **Two observations are enough**: the counter of the tenant is past its bound, and every later read of
it is refused. -/
theorem observed_past_bound : ∃ c, (lanesAfter observeBoth).meters.counters.get tenantKey = some c ∧
      durableCounterBounds c ≠ .ok () ∧ ∀ revisions,
        loadCounter (lanesAfter observeBoth).meters.counters tenantKey .tenant revisions =
          .error counterRefusal := by
  have hvalue : ((lanesAfter observeBoth).meters.counters.get tenantKey).map
      Counter.observedDiskBytes = some (2 * maxDiskBytes) := by
    decide +kernel
  obtain ⟨c, hget, hbytes⟩ := Option.map_eq_some_iff.mp hvalue
  have hrefused : durableCounterBounds c = .error counterRefusal := by
    refine if_pos (.inr (.inr (.inl ?_)))
    rw [hbytes]
    decide
  refine ⟨c, hget, fun hbounds => ?_, loadCounter_refused hget hrefused .tenant⟩
  rw [hrefused] at hbounds
  cases hbounds

/-- A lane is reserved where there is room. -/
theorem lane_counters_readable_reserved :
    ∃ c, (run laneContext ⟨twoItems, .fresh, .empty⟩ reserveOne).lanes.meters.counters.get tenantKey =
      some c ∧ c.predictedDiskBytes = 10 ∧ durableCounterBounds c = .ok () := by
  have hvalue : ((run laneContext ⟨twoItems, .fresh, .empty⟩ reserveOne).lanes.meters.counters.get
      tenantKey).map Counter.predictedDiskBytes = some 10 := by
    decide +kernel
  have hroom : Transaction.Along (step laneContext) Room ⟨twoItems, .fresh, .empty⟩ reserveOne :=
    ⟨(fun m hm => nomatch hm), by decide +kernel, trivial⟩
  obtain ⟨c, hget, hbytes⟩ := Option.map_eq_some_iff.mp hvalue
  have hbounds := (lane_counters_readable laneContext twoItems .empty reserveOne hroom).1 tenantKey c
  exact ⟨c, hget, hbytes, hbounds hget⟩

end Medulla.Lane.CounterBounds
