import Medulla.Lane.Fences

/-! # Lanes of a graph that starts empty

A graph that starts empty never stores a hold: a reservation of a lane has to present the fence of a
claimed WorkItem as the fence of a resource reservation, and the two are never spelled alike.

* every run: `bare_run`, `lane_links_after_commit`. -/

namespace Medulla.Lane.Reachable

open Library Library.Checked Library.OrderedTable WorkItem.Rows Resource.Extension Holds
open Quota Links Tables Lifecycle Machine Fences

variable {lanes lanes' : Lanes} {id : String} {items : Graph} {world : World}
  {result : Reply} {m : Mutation} {codecs : Codecs} {ctx : Context} {s : State} {op : Op}
  {s' : State}

/-! ### What an operation on a hold needs -/

theorem loadHold_ok {revision : ℕ} {row : DurableHold} (h : loadHold lanes id revision = .ok row) :
    lanes.holds.get id = some row := by
  obtain ⟨found, hfound, h⟩ := unbind h
  rw [orElseRefuse_eq_ok] at h
  rw [orFail_eq_ok] at hfound
  subst h
  exact (holdLoad_eq_some hfound).1

section
variable {result : HoldResult}

theorem hold_of_renew {request : Tables.RenewRequest}
    (h : applyRenew world request lanes = .ok (lanes', result)) :
    ∃ row, lanes.holds.get request.holdId = some row := by
  obtain ⟨_, _, h⟩ := unbind h
  obtain ⟨_, _, h⟩ := unbind h
  obtain ⟨_, _, h⟩ := unbind h
  obtain ⟨row, hrow, -⟩ := unbind h
  exact ⟨row, loadHold_ok hrow⟩

theorem hold_of_observe {request : ObserveRequest}
    (h : applyObserve world request lanes = .ok (lanes', result)) :
    ∃ row, lanes.holds.get request.holdId = some row := by
  obtain ⟨_, _, h⟩ := unbind h
  obtain ⟨_, _, h⟩ := unbind h
  obtain ⟨row, hrow, -⟩ := unbind h
  exact ⟨row, loadHold_ok hrow⟩

theorem hold_of_finish {request : FinishRequest}
    (h : applyFinish world request lanes = .ok (lanes', result)) :
    ∃ row, lanes.holds.get request.holdId = some row := by
  obtain ⟨_, _, h⟩ := unbind h
  obtain ⟨_, _, h⟩ := unbind h
  obtain ⟨row, hrow, -⟩ := unbind h
  exact ⟨row, loadHold_ok hrow⟩

theorem hold_of_cleanup {request : CleanupRequest}
    (h : applyCleanup world request lanes = .ok (lanes', result)) :
    ∃ row, lanes.holds.get request.holdId = some row := by
  obtain ⟨_, _, h⟩ := unbind h
  obtain ⟨_, _, h⟩ := unbind h
  obtain ⟨_, _, h⟩ := unbind h
  obtain ⟨row, hrow, -⟩ := unbind h
  exact ⟨row, loadHold_ok hrow⟩

end

/-! ### What a reservation needs -/

theorem loadPresented_ok {presented : Presented} {kind : WorkItemKind} {requireTerminal : Bool}
    {now : ℕ} {row : Row} (h : loadPresented items presented kind requireTerminal now = .ok row) :
    items.nodes.get presented.workItemId = some (some row) ∧
      row.kind = workItemKindName kind ∧ rowFence row = presented.fence ∧
      presented.fence.workItemFence ≠ "" := by
  obtain ⟨found, hfound, h⟩ := unbind h
  obtain ⟨_, hidentity, h⟩ := unbind h
  obtain ⟨_, htuple, h⟩ := unbind h
  obtain ⟨_, _, h⟩ := unbind h
  obtain ⟨_, _, h⟩ := unbind h
  cases h
  have hget : items.nodes.get presented.workItemId = some (some row) := by
    unfold loadWorkItemProps at hfound
    split at hfound
    · cases hfound
    · cases hfound
    · rename_i stored hstored
      cases hfound
      exact hstored
  simp only [workItemIdentityDecision, check_eq_ok, rejectIf_eq_ok, not_not] at hidentity
  simp only [workItemTupleDecision, check_eq_ok, rejectIf_eq_ok, not_not] at htuple
  obtain ⟨hcomplete, hattempt, hepoch, htoken, hfence⟩ := htuple
  refine ⟨hget, hidentity.2.2, ?_, fun hempty => hcomplete (.inr (.inr (.inr hempty)))⟩
  unfold rowFence
  rw [hattempt, hepoch, htoken, hfence]

theorem fences_of_reserve {request : ReserveRequest} {result : HoldResult}
    (h : applyReserve world request lanes = .ok (lanes', result)) :
    ∃ item id stored, world.items.nodes.get request.workItemId = some (some item) ∧
      item.kind = workItemKindName .lifecycle ∧ world.reservations.get id = some stored ∧
      item.workItemFence = stored.record.fence ∧ item.workItemFence ≠ "" := by
  obtain ⟨_, _, h⟩ := unbind h
  obtain ⟨policies, _, h⟩ := unbind h
  obtain ⟨_, _, h⟩ := unbind h
  obtain ⟨⟨item, intent⟩, hloaded, h⟩ := unbind h
  obtain ⟨stored, hstored, h⟩ := unbind h
  obtain ⟨_, hmismatch, -⟩ := unbind h
  rw [orRefuse_eq_ok] at hloaded hmismatch
  rw [orElseRefuse_eq_ok] at hstored
  obtain ⟨row, hrow, hloaded⟩ := unbind hloaded
  obtain ⟨_, _, hloaded⟩ := unbind hloaded
  cases hloaded
  obtain ⟨hget, hkind, hfence, hne⟩ := loadPresented_ok hrow
  have hresource : stored.record.fence = request.fence.workItemFence := by
    by_contra hother
    unfold resourceReservationMismatch resourceFenceMismatch at hmismatch
    simp [hother] at hmismatch
  have hitem : item.workItemFence = request.fence.workItemFence := congrArg Fence.workItemFence hfence
  refine ⟨item, _, stored, hget, hkind, hstored, hitem.trans hresource.symm, ?_⟩
  rw [hitem]
  exact hne

/-- **No lane is reserved** while the two spellings are kept. -/
theorem not_reserved {request : ReserveRequest} {result : HoldResult}
    (hitems : ClaimedFences world.items)
    (hreservations : ∀ id stored, world.reservations.get id = some stored →
      stored.record.fence = toString stored.record.fencingToken) :
    applyReserve world request lanes ≠ .ok (lanes', result) := by
  intro h
  obtain ⟨item, id, stored, hitem, hkind, hstored, hfence, hne⟩ := fences_of_reserve h
  rw [hreservations id stored hstored] at hfence
  rcases hitems _ item hitem hkind with hempty | ⟨epoch, hclaim⟩
  · exact hne hempty
  · exact claimFence_ne_toString epoch _ (hclaim.symm.trans hfence)

/-! ### Tables without holds -/

/-- No hold is stored and no index has an entry. -/
structure NoHolds (lanes : Lanes) : Prop where
  holds : lanes.holds = .empty
  laneIndex : lanes.laneIndex = .empty
  branchIndex : lanes.branchIndex = .empty
  worktreeIndex : lanes.worktreeIndex = .empty
  workItemIndex : lanes.workItemIndex = .empty

theorem noHolds_fresh : NoHolds .fresh := ⟨rfl, rfl, rfl, rfl, rfl⟩

theorem NoHolds.get (h : NoHolds lanes) (id : String) : lanes.holds.get id = none := by
  rw [h.holds]
  rfl

theorem NoHolds.not_found (h : NoHolds lanes) : ¬ ∃ row, lanes.holds.get id = some row := by
  rintro ⟨row, hrow⟩
  rw [h.get] at hrow
  cases hrow

theorem NoHolds.of_quota {request : QuotaUpdateRequest} {result : QuotaResult}
    (hlanes : NoHolds lanes) (h : applyQuotaUpdate request lanes = .ok (lanes', result)) :
    NoHolds lanes' := by
  obtain ⟨policies, rfl⟩ := applyQuotaUpdate_ok h
  exact { hlanes with }

theorem settle_ok {ρ : Type} {reply : ρ → Reply} {gate : Gate ρ (Lanes × ρ)}
    (h : settle reply lanes gate = .ok (lanes', result)) :
    lanes' = lanes ∨ ∃ answer, gate = .ok (lanes', answer) := by
  unfold settle at h
  split at h
  · cases h
    exact .inr ⟨_, rfl⟩
  · cases h
    exact .inl rfl
  · cases h

theorem NoHolds.of_mutate (hlanes : NoHolds lanes) (hitems : ClaimedFences world.items)
    (hreservations : ∀ id stored, world.reservations.get id = some stored →
      stored.record.fence = toString stored.record.fencingToken)
    (h : mutate world lanes m = .ok (lanes', result)) : NoHolds lanes' := by
  cases m with
  | reserve request =>
    rcases settle_ok h with rfl | ⟨answer, hgate⟩
    · exact hlanes
    · exact absurd hgate (not_reserved hitems hreservations)
  | renew request =>
    rcases settle_ok h with rfl | ⟨answer, hgate⟩
    · exact hlanes
    · exact absurd (hold_of_renew hgate) hlanes.not_found
  | observe request =>
    rcases settle_ok h with rfl | ⟨answer, hgate⟩
    · exact hlanes
    · exact absurd (hold_of_observe hgate) hlanes.not_found
  | finish request =>
    rcases settle_ok h with rfl | ⟨answer, hgate⟩
    · exact hlanes
    · exact absurd (hold_of_finish hgate) hlanes.not_found
  | cleanup request =>
    rcases settle_ok h with rfl | ⟨answer, hgate⟩
    · exact hlanes
    · exact absurd (hold_of_cleanup hgate) hlanes.not_found
  | quotaUpdate request =>
    rcases settle_ok h with rfl | ⟨answer, hgate⟩
    · exact hlanes
    · exact hlanes.of_quota hgate

theorem NoHolds.transition {before : Row} {ending : Ending} (hlanes : NoHolds lanes)
    (h : transitionWorkItemTerminalHold codecs before id ending lanes = .ok lanes') :
    lanes' = lanes := by
  have hnone : linkedHold lanes id before.attempt = .ok none := by
    unfold linkedHold workItemIndexId
    rw [hlanes.workItemIndex]
    split_ifs <;> rfl
  unfold transitionWorkItemTerminalHold at h
  rw [hnone] at h
  cases h
  rfl

theorem NoHolds.of_workItem {call : WorkItem.Machine.Call} (hlanes : NoHolds lanes)
    (h : workItemLanes codecs items lanes call = .ok lanes') : NoHolds lanes' := by
  cases call with
  | commit request =>
    change commitLanes codecs items request lanes = .ok lanes' at h
    unfold commitLanes at h
    split at h
    · split_ifs at h
      · rw [hlanes.transition h]
        exact hlanes
      · cases h
        exact hlanes
    · cases h
      exact hlanes
  | cancel request =>
    change cancelLanes codecs items request lanes = .ok lanes' at h
    unfold cancelLanes at h
    split at h
    · split_ifs at h
      · obtain ⟨fences, -, h⟩ := unbind h
        rw [hlanes.transition h]
        exact hlanes
      · cases h
        exact hlanes
    · cases h
      exact hlanes
  | _ =>
    cases h
    exact hlanes

/-! ### Runs -/

/-- What holds of a graph that started empty. -/
structure Bare (s : State) : Prop where
  items : ClaimedFences s.ledger.items
  reservations : NumberedFences s.ledger
  lanes : NoHolds s.lanes

theorem bare_fresh (name : String) : Bare (State.fresh name) :=
  ⟨(fun _ _ h => nomatch h), (fun _ _ h => nomatch h), noHolds_fresh⟩

theorem Bare.commitLane {now : ℕ} (hs : Bare s)
    (h : commitDevelopmentLane ctx now m s = .ok (s', result)) : Bare s' := by
  obtain ⟨_, _, h⟩ := unbind h
  obtain ⟨replay, -, h⟩ := unbind h
  split at h
  · cases h
    exact hs
  · cases h
    exact hs
  · obtain ⟨⟨lanes, answer⟩, hmutate, h⟩ := unbind h
    obtain ⟨invocations, -, h⟩ := unbind h
    cases h
    refine ⟨hs.items, hs.reservations, ?_⟩
    exact @NoHolds.of_mutate _ _ (worldOf ctx s) _ _ hs.lanes hs.items hs.reservations hmutate

theorem Bare.writeRows (hs : Bare s) (h : Machine.writeRows ctx s op = .ok s') :
    Bare s' := by
  cases op with
  | lane now m =>
    obtain ⟨⟨s₁, result⟩, hlane, h⟩ := unbind h
    cases h
    exact hs.commitLane hlane
  | workItem call =>
    obtain ⟨⟨items, result⟩, happly, h⟩ := unbind h
    obtain ⟨lanes, hlanes, h⟩ := unbind h
    cases h
    exact ⟨claimedFences_workItem happly hs.items, hs.reservations, hs.lanes.of_workItem hlanes⟩
  | casMetadata now request =>
    obtain ⟨items, hitems, h⟩ := unbind h
    cases h
    exact ⟨claimedFences_metadata hitems hs.items, hs.reservations, hs.lanes⟩
  | updateHost request =>
    obtain ⟨⟨ledger, result⟩, hhost, h⟩ := unbind h
    cases h
    refine ⟨?_, numberedFences_host hhost hs.reservations, hs.lanes⟩
    rcases Resource.Accounting.applyUpdateResourceHost_ok hhost with rfl | ⟨-, rfl⟩
    · exact hs.items
    · exact hs.items
  | resource mode request =>
    obtain ⟨⟨ledger, result⟩, hlifecycle, h⟩ := unbind h
    cases h
    refine ⟨?_, numberedFences_lifecycle hlifecycle hs.reservations, hs.lanes⟩
    rw [items_of_lifecycle hlifecycle]
    exact hs.items

theorem checked_ok (h : checked ctx s op = .ok s') :
    s' = s ∧ ((∃ now m, op = .lane now m) ∨
      validateCurrentLaneLinks ctx.resource.codecs s.ledger.items s.lanes = .ok ()) := by
  cases op with
  | lane now m =>
    cases h
    exact ⟨rfl, .inl ⟨now, m, rfl⟩⟩
  | _ =>
    obtain ⟨_, hlinks, h⟩ := unbind h
    cases h
    exact ⟨rfl, .inr hlinks⟩

theorem Bare.apply (hs : Bare s) (h : Machine.apply ctx s op = .ok s') : Bare s' := by
  obtain ⟨written, hwritten, h⟩ := unbind h
  rw [(checked_ok h).1]
  exact hs.writeRows hwritten

theorem Bare.step (ctx : Context) (op : Op) (hs : Bare s) : Bare (Machine.step ctx s op) := by
  unfold Machine.step
  split
  · rename_i s' h
    exact hs.apply h
  · exact hs

/-- **A graph that starts empty never has a hold.** -/
theorem bare_run (ctx : Context) (name : String) (ops : List Op) :
    Bare (run ctx (State.fresh name) ops) :=
  Transaction.run_invariant (fun _ op h => h.step ctx op) ops _ (bare_fresh name)

/-! ### The link check after a run -/

theorem validateCurrentLaneLinks_ok : validateCurrentLaneLinks codecs items lanes = .ok () ↔
      text items.name = .ok () ∧ validateHoldLinks codecs items lanes.holds.rows = .ok () := by
  unfold validateCurrentLaneLinks
  rw [check_eq_ok, mapError_eq_ok, failing_eq_ok]

theorem NoHolds.links (h : NoHolds lanes) (codecs : Codecs) (items : Graph) :
    validateHoldLinks codecs items lanes.holds.rows = .ok () := by
  rw [h.holds]
  rfl

theorem name_of_commitLane {now : ℕ} (h : commitDevelopmentLane ctx now m s = .ok (s', result)) :
    text s'.ledger.items.name = .ok () := by
  obtain ⟨_, hbounds, h⟩ := unbind h
  rw [failing_eq_ok] at hbounds
  obtain ⟨_, hname, -⟩ := unbind hbounds
  obtain ⟨replay, -, h⟩ := unbind h
  split at h
  · cases h
    exact hname
  · cases h
    exact hname
  · obtain ⟨⟨lanes, answer⟩, -, h⟩ := unbind h
    obtain ⟨invocations, -, h⟩ := unbind h
    cases h
    exact hname

theorem name_of_apply (h : Machine.apply ctx s op = .ok s') :
    text s'.ledger.items.name = .ok () := by
  obtain ⟨written, hwritten, h⟩ := unbind h
  obtain ⟨rfl, ⟨now, m, rfl⟩ | hlinks⟩ := checked_ok h
  · obtain ⟨⟨s₁, result⟩, hlane, hwritten⟩ := unbind hwritten
    cases hwritten
    exact name_of_commitLane hlane
  · exact (validateCurrentLaneLinks_ok.mp hlinks).1

/-- **Lanes never block a graph that started empty.** After every operation that commits the link
check passes, and it passes for every later write that leaves the WorkItems alone. -/
theorem lane_links_after_commit (ctx : Context) (name : String) (ops : List Op) (op : Op) (s : State)
    (h : Machine.apply ctx (run ctx (State.fresh name) ops) op = .ok s) :
    validateCurrentLaneLinks ctx.resource.codecs s.ledger.items s.lanes = .ok () ∧
      ∀ items : Graph, items.name = s.ledger.items.name → SameWorkItems s.ledger.items items →
        validateCurrentLaneLinks ctx.resource.codecs items s.lanes = .ok () := by
  have hbare : Bare s := (bare_run ctx name ops).apply h
  have hname := name_of_apply h
  have hlinks := hbare.lanes.links ctx.resource.codecs s.ledger.items
  refine ⟨validateCurrentLaneLinks_ok.mpr ⟨hname, hlinks⟩, fun items hsame hitems => ?_⟩
  rw [validateCurrentLaneLinks_ok, hsame]
  exact ⟨hname, hitems.validateHoldLinks hlinks⟩

/-! ### A claimed item -/

def zeroDigest : String := "v1:0000000000000000000000000000000000000000000000000000000000000000"

/-- Nothing is read from the metadata of a row, and every digest is of zeros. -/
def plainContext : Context :=
  ⟨⟨⟨fun _ => "", fun _ => ""⟩, ⟨fun _ => .null, fun _ => ""⟩⟩, fun _ => "", fun _ => zeroDigest⟩

def plainPolicy : Policy :=
  { policyName := "p", policyVersion := "1", countLimit := .all 5, predictedLimit := .all 100
    observedLimit := .all 100, retainedLimit := .all 100, minTtl := 1, maxTtl := 1000
    maxObservationStaleness := 100, drainOnly := false }

def submitLifecycle : WorkItem.Machine.Call :=
  .submit
    { tenantId := "t", contextGraph := "g", idempotencyKey := "i"
      commandDigest := "0123456789abcdef0123456789abcdef0123456789abcdef0123456789abcdef"
      kind := "lane.lifecycle", policyDigest := "p", catalogDigest := "c", modelDigest := "m"
      inputRef := "", dependsOn := [], maxTenantInFlight := 0, maxAttempts := 1, priority := 0
      deadline := none, provenanceRefs := [], metadata := "", workItemId := some "i", runId := none
      conversation := none }
    ⟨1, none, {}⟩

def submittedRun : List Op :=
  [.lane 1 (.quotaUpdate ⟨"t", plainPolicy, 0, none, "k", 0⟩), .workItem submitLifecycle]

def claimLifecycle : Op := .workItem (.claim ⟨"t", some "i", none, none, none, "w", 2, 100, 5⟩)

theorem apply_eq_step (h : (Machine.apply ctx s op).isOk = true) :
    Machine.apply ctx s op = .ok (step ctx s op) := by
  unfold Machine.step
  cases happly : Machine.apply ctx s op with
  | ok s' => rfl
  | error message =>
    rw [happly] at h
    cases h

theorem lane_links_after_claim : validateCurrentLaneLinks plainContext.resource.codecs
      (step plainContext (run plainContext (State.fresh "g") submittedRun)
        claimLifecycle).ledger.items
      (step plainContext (run plainContext (State.fresh "g") submittedRun) claimLifecycle).lanes =
        .ok () := by
  have hcommits : (Machine.apply plainContext (run plainContext (State.fresh "g") submittedRun)
      claimLifecycle).isOk = true := by decide +kernel
  exact (lane_links_after_commit plainContext "g" submittedRun claimLifecycle _
    (apply_eq_step hcommits)).1

end Medulla.Lane.Reachable
