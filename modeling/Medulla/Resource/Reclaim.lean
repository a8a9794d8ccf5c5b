import Medulla.Resource.Accounting
import Medulla.WorkItem.Effects

/-! # When a reclaim returns capacity

A reclaim takes back what an expired reservation holds, if the WorkItem row lets it.

* every run: `reclaim_returns_iff`. -/

namespace Medulla.Resource.Reclaim

open Library Library.Checked Library.OrderedTable WorkItem.Rows Requests
open Extension Admission Lifecycle Effects Accounting
open Machine

variable {codecs : Codecs} {row : Row} {host : DurableHost}

/-! ### Rows behind reservations -/

/-- A resource operation or a native WorkItem operation. -/
def Native : Op → Prop
  | .rewrite _ => False
  | _ => True

structure Backs (codecs : Codecs) (terms : Terms) (row : Row) : Prop where
  workItem : row.isWorkItem = true
  tenant : row.tenant = terms.tenantRef
  fence : terms.fence = resourceExpectedFence terms.fencingToken
  extension : ∀ request : ReservationRequest, request.toTerms = terms →
    resourceValidateExtension codecs row request = .ok ()

def Backed (codecs : Codecs) (l : Ledger) : Prop :=
  ∀ id stored, l.reservations.get id = some stored → ∃ row,
    l.items.nodes.get stored.record.workItemId = some (some row) ∧
      Backs codecs stored.record.toTerms row

theorem resourceValidateExtension_congr {request request' : ReservationRequest}
    (h : request'.toTerms = request.toTerms) :
    resourceValidateExtension codecs row request' = resourceValidateExtension codecs row request := by
  obtain ⟨terms, key, now, revision⟩ := request
  cases h
  rfl

theorem Backs.of_kept {terms : Terms} {row' : Row} (h : Backs codecs terms row)
    (hkept : WorkItem.Effects.Kept row row') : Backs codecs terms row' := by
  refine ⟨(isWorkItem_of_nodeType hkept.nodeType).trans h.workItem, hkept.tenant.trans h.tenant, h.fence,
    fun request hterms => ?_⟩
  unfold resourceValidateExtension
  rw [hkept.metadata]
  exact h.extension request hterms

theorem backs_of_validate {request : ReservationRequest} {allow : Bool} {fence : WorkItemFence}
    (h : resourceValidateWorkItem codecs row request allow = .ok fence) :
    Backs codecs request.toTerms row := by
  obtain ⟨_, hitem, h⟩ := unbind h
  obtain ⟨_, -, h⟩ := unbind h
  obtain ⟨_, hfence, h⟩ := unbind h
  obtain ⟨_, howner, h⟩ := unbind h
  obtain ⟨_, -, hextension⟩ := unbind howner
  rw [rejectIf_eq_ok] at hitem hfence
  rw [not_or, not_not, not_not] at hitem
  rw [not_not] at hfence
  refine ⟨decide_eq_true hitem.1, hitem.2, hfence, fun request' hterms => ?_⟩
  rw [resourceValidateExtension_congr hterms]
  exact hextension

theorem backed_step (ctx : Context) {l : Ledger} {op : Op} (hnative : Native op)
    (hl : Backed ctx.codecs l) : Backed ctx.codecs (step ctx l op) := by
  cases op with
  | updateHost request =>
    unfold step
    dsimp only
    split
    · rename_i l' result h
      rcases applyUpdateResourceHost_ok h with rfl | ⟨-, rfl⟩ <;> exact hl
    · exact hl
  | lifecycle mode request =>
    unfold step lifecycleCall
    dsimp only
    split
    · rename_i l' result h
      cases lifecycle_outcome h with
      | refused policies => exact hl
      | reserved policies _ hadmitted hcommit =>
        have hcharges := charges_of_commit hcommit
        obtain ⟨debt, snapshot, hreservations⟩ := hcharges.stored
        intro id stored hstored
        rw [hcharges.items]
        rw [hreservations] at hstored
        rcases get_insert_cases hstored with ⟨rfl, rfl⟩ | ⟨-, hstored⟩
        · obtain ⟨row, fence, hrow, hfence, -⟩ := hadmitted.item
          exact ⟨row, hrow, backs_of_validate hfence⟩
        · exact hl id stored hstored
      | @released before fence _ _ _ _ hreleasable hcharge =>
        have hrefunds := refunds_of_charge hcharge
        obtain ⟨fence, debt, hreservations⟩ := hrefunds.row
        intro id stored hstored
        rw [hrefunds.items]
        rw [hreservations] at hstored
        rcases get_insert_cases hstored with ⟨rfl, rfl⟩ | ⟨-, hstored⟩
        · exact hl _ before hreleasable.found
        · exact hl id stored hstored
    · exact hl
  | workItem call =>
    intro id stored hstored
    obtain ⟨row, hrow, hbacks⟩ := hl id stored hstored
    obtain ⟨row', hrow', hkept⟩ := WorkItem.Effects.kept_step ctx.digests hrow hbacks.workItem
    exact ⟨row', hrow', hbacks.of_kept hkept⟩
  | rewrite items => exact hnative.elim

theorem backed_run (ctx : Context) (items : Graph) {ops : List Op}
    (hnative : ∀ op ∈ ops, Native op) : Backed ctx.codecs (run ctx (Ledger.fresh items) ops) := by
  refine Transaction.run_invariant_along (P := fun _ op => Native op)
    (fun _ _ hop hl => backed_step ctx hop hl) ops _ (Transaction.along_of_forall hnative) ?_
  intro id stored hstored
  cases hstored

/-! ### The gates of a reclaim -/

/-- The row lets a reclaim through: no lease is live, and a newer attempt was granted or the fences and
the holder are still the reservation's. -/
def Reclaimable (row : Row) (terms : Terms) (now : ℕ) : Prop :=
  ¬ (row.status.isLive = true ∧ now < row.leaseExpiresAt) ∧ (terms.attempt < row.attempt ∨
      (row.leaseEpoch = terms.leaseEpoch ∧ row.fencingToken = terms.fencingToken ∧
        leaseHolder row = terms.ownerId ∧
        (row.status.isLive = true ∨ row.status.isTerminal = true)))

structure Reclaims (l : Ledger) (id : String) (stored : DurableReservation)
    (request : ReservationRequest) : Prop where
  found : l.reservations.get id = some stored
  reserved : stored.record.state = .reserved
  terms : request.toTerms = stored.record.toTerms
  key : resourceText request.idempotencyKey "resource idempotency_key" = .ok ()
  revision : request.expectedLifecycleRevision = some stored.record.lifecycleRevision
  expired : stored.record.expiresAt ≤ request.now

section
variable {l : Ledger} {id : String} {stored : DurableReservation} {request : ReservationRequest}

theorem Reclaims.stored_row (hl : Accounted l) (h : Reclaims l id stored request) :
    l.reservations.get request.reservationId = some stored := by
  have hkey : request.reservationId = id := by
    rw [h.terms]
    exact hl.rowKey id stored h.found
  rw [hkey]
  exact h.found

theorem Reclaims.mismatch (h : Reclaims l id stored request) :
    resourceStoredRowMismatch request stored = none := by
  unfold resourceStoredRowMismatch
  rw [if_neg (not_not.mpr (by rw [h.terms])), if_neg]
  rw [Bool.not_eq_false]
  exact resourceRequestMatchesRecord_iff.mpr h.terms

theorem precheck_reclaim (hl : Accounted l) (h : Reclaims l id stored request) :
    resourceLifecyclePrecheck .reclaim request l = .ok (.proceed ()) := by
  obtain ⟨first, hfirst, hvalid⟩ := hl.valid id stored h.found
  have hvalid' := resourceValidateRequest_of_terms (h.terms.trans hfirst.symm) h.key hvalid
  have hwindow := hvalid'
  simp only [resourceValidateRequest, resourceValidateRequestWindow, check_eq_ok,
    rejectIf_eq_ok] at hwindow
  obtain ⟨-, -, -, -, hafter, hbounded⟩ := hwindow
  have hexisting : resourceExistingReservationPrecheck l .reclaim request stored = none := by
    unfold resourceExistingReservationPrecheck revisionMismatch resourceLifecycleRevisionPrecheck
      terminalReplay
    rw [h.mismatch, if_pos h.reserved, if_pos h.revision, if_pos h.reserved]
    rfl
  simp only [resourceLifecyclePrecheck, check_eq_ok, rejectIf_eq_ok, pure_eq_ok]
  refine ⟨hvalid', fun hc => hc.elim hafter hbounded, ?_⟩
  rw [h.stored_row hl]
  change LifecycleStep.ofOption (resourceExistingReservationPrecheck l .reclaim request stored) = _
  rw [hexisting]
  rfl

def FenceOpen (row : Row) (request : ReservationRequest) : Prop :=
  request.attempt < row.attempt ∨
    (isSuperseded row request = false ∧ leaseHolder row = request.ownerId)

def fenceOf (row : Row) (request : ReservationRequest) : WorkItemFence :=
  ⟨row.attempt, row.leaseEpoch, row.fencingToken, isSuperseded row request⟩

theorem isSuperseded_of_newer (h : request.attempt < row.attempt) :
    isSuperseded row request = true := by
  unfold isSuperseded
  rw [decide_eq_true h]
  rfl

section
variable (hbacks : Backs codecs request.toTerms row)
include hbacks

theorem validate_open (h : FenceOpen row request) :
    resourceValidateWorkItem codecs row request true = .ok (fenceOf row request) := by
  simp only [resourceValidateWorkItem, resourceValidateWorkItemOwnerAndExtension, check_eq_ok, rejectIf_eq_ok]
  refine ⟨?_, ?_, not_not.mpr hbacks.fence, ⟨?_, hbacks.extension request rfl⟩, rfl⟩
  · rw [not_or, not_not, not_not]
    exact ⟨of_decide_eq_true hbacks.workItem, hbacks.tenant⟩
  · rintro ⟨hsuperseded, hnot⟩
    rcases h with hnewer | ⟨hcurrent, -⟩
    · exact hnot ⟨trivial, hnewer⟩
    · rw [hcurrent] at hsuperseded
      cases hsuperseded
  · rintro ⟨hcurrent, howner⟩
    rcases h with hnewer | ⟨-, hholder⟩
    · rw [isSuperseded_of_newer hnewer] at hcurrent
      cases hcurrent
    · exact howner hholder

theorem validate_closed (h : ¬ FenceOpen row request) :
    resourceValidateWorkItem codecs row request true = .error .stale := by
  unfold FenceOpen at h
  rw [not_or] at h
  unfold resourceValidateWorkItem resourceValidateWorkItemOwnerAndExtension rejectIf
  rw [if_neg (by rw [not_or, not_not, not_not]; exact ⟨of_decide_eq_true hbacks.workItem, hbacks.tenant⟩)]
  by_cases hsuperseded : isSuperseded row request = true
  · rw [if_pos ⟨hsuperseded, fun hc => h.1 hc.2⟩]
    rfl
  · rw [if_neg fun hc => hsuperseded hc.1, if_neg (not_not.mpr hbacks.fence), if_pos]
    · rfl
    · rw [Bool.not_eq_true] at hsuperseded
      exact ⟨hsuperseded, fun howner => h.2 ⟨hsuperseded, howner⟩⟩

theorem metadata_of_backs :
    ∃ maps, resourceMetadataMaps (codecs.metadata row.metadata) = .ok maps := by
  have hextension := hbacks.extension request rfl
  unfold resourceValidateExtension at hextension
  split at hextension
  · cases hextension
  · rename_i repository extension hmaps
    exact ⟨_, hmaps⟩

end

theorem load_reclaim (hrow : l.items.nodes.get request.workItemId = some (some row)) :
    resourceLoadAndValidateWorkItem codecs l .reclaim request =
      match resourceValidateWorkItem codecs row request true with
      | .ok fence => .ok (.proceed (row, fence))
      | .error decision => .ok (.decided (refusal decision request)) := by
  unfold resourceLoadAndValidateWorkItem
  rw [Graph.load_eq_some.mpr hrow]
  rfl

theorem status_reclaim (hbacks : Backs codecs request.toTerms row) (fence : WorkItemFence) :
    ∃ extension, resourceValidateWorkItemStatusAndExtension codecs .reclaim request fence row =
      if statusRefused .reclaim request fence row then .ok (.decided (refusal .stale request))
      else .ok (.proceed extension) := by
  obtain ⟨⟨repository, extension⟩, hmaps⟩ := metadata_of_backs hbacks
  refine ⟨extension, ?_⟩
  unfold resourceValidateWorkItemStatusAndExtension
  rw [hmaps]
  rfl

theorem isSuperseded_eq_false : isSuperseded row request = false ↔
    row.attempt ≤ request.attempt ∧ row.leaseEpoch = request.leaseEpoch ∧
      row.fencingToken = request.fencingToken := by
  unfold isSuperseded
  simp [and_assoc]

theorem statusRefused_reclaim : statusRefused .reclaim request (fenceOf row request) row = true ↔
    isSuperseded row request = false ∧ row.status.isLive = false ∧ row.status.isTerminal = false := by
  unfold statusRefused fenceOf
  cases isSuperseded row request <;> cases row.status.isLive <;> cases row.status.isTerminal <;> simp

theorem reclaimable_iff : Reclaimable row request.toTerms request.now ↔
    FenceOpen row request ∧ statusRefused .reclaim request (fenceOf row request) row = false ∧
      ¬ (row.status.isLive = true ∧ request.now < row.leaseExpiresAt) := by
  rw [← Bool.not_eq_true, statusRefused_reclaim]
  constructor
  · rintro ⟨hlive, hnewer | ⟨hepoch, htoken, hholder, hstatus⟩⟩
    · refine ⟨.inl hnewer, fun hc => ?_, hlive⟩
      rw [isSuperseded_of_newer hnewer] at hc
      cases hc.1
    · by_cases hnewer : request.attempt < row.attempt
      · refine ⟨.inl hnewer, fun hc => ?_, hlive⟩
        rw [isSuperseded_of_newer hnewer] at hc
        cases hc.1
      · refine ⟨.inr ⟨isSuperseded_eq_false.mpr ⟨not_lt.mp hnewer, hepoch, htoken⟩, hholder⟩,
          fun hc => ?_, hlive⟩
        rcases hstatus with hstatus | hstatus
        · rw [hstatus] at hc
          cases hc.2.1
        · rw [hstatus] at hc
          cases hc.2.2
  · rintro ⟨hnewer | ⟨hcurrent, hholder⟩, hstatus, hlive⟩
    · exact ⟨hlive, .inl hnewer⟩
    · obtain ⟨-, hepoch, htoken⟩ := isSuperseded_eq_false.mp hcurrent
      refine ⟨hlive, .inr ⟨hepoch, htoken, hholder, ?_⟩⟩
      by_contra hnot
      rw [not_or, Bool.not_eq_true, Bool.not_eq_true] at hnot
      exact hstatus ⟨hcurrent, hnot⟩

/-! ### The charge -/

theorem releaseCharge_ok (hl : Accounted l) (h : Reclaims l id stored request)
    (hhost : l.hosts.get stored.record.hostRef = some host) (fence : WorkItemFence) :
    ∃ l' result, releaseCharge .reclaim request stored fence host l = .ok (l', result) := by
  have hheld : ∀ d, stored.held.get d ≤ host.held.get d := by
    intro d
    rw [hl.held _ _ hhost d, hl.amount id stored h.found h.reserved]
    refine le_trans (le_of_eq ?_) (le_charged h.found h.reserved)
    exact (if_pos rfl).symm
  have hconcurrency : 0 < readCount l.concurrency
      (resourceConcurrencyScopeKey request.concurrencyKey) := by
    rw [hl.concurrency, h.terms]
    refine lt_of_lt_of_le Nat.zero_lt_one (le_trans (le_of_eq ?_) (le_charged h.found h.reserved))
    exact (if_pos rfl).symm
  have haffinity : ∀ key, occurrences key (affinityKeys request.toTerms) ≤
      readCount l.antiAffinity key := by
    intro key
    rw [hl.antiAffinity, h.terms]
    exact le_charged (f := affinityOf key) h.found h.reserved
  obtain ⟨held, hheld⟩ := Amounts.checkedSubAll_of_le hheld
  obtain ⟨concurrency, hconcurrency⟩ := lower_of_pos "resource concurrency" hconcurrency
  obtain ⟨antiAffinity, haffinity⟩ := lowerAll_of_le "resource anti-affinity" haffinity
  exact ⟨_, _, bind_eq_ok.mpr ⟨held, hheld, bind_eq_ok.mpr ⟨concurrency, hconcurrency,
    bind_eq_ok.mpr ⟨antiAffinity, haffinity, rfl⟩⟩⟩⟩

theorem decision_of_release {mode : Mode} {fence : WorkItemFence} {l' : Ledger}
    {result : ReservationResult}
    (h : releaseCharge mode request stored fence host l = .ok (l', result)) :
    result.decision = .accepted := by
  obtain ⟨held, -, h⟩ := unbind h
  obtain ⟨concurrency, -, h⟩ := unbind h
  obtain ⟨antiAffinity, -, h⟩ := unbind h
  cases h
  rfl

theorem releasePrecheck_reclaim (h : Reclaims l id stored request) :
    releasePrecheck l .reclaim request stored row =
      if row.status.isLive = true ∧ request.now < row.leaseExpiresAt then
        some (resourceResultPayload .policy request (some stored.record) none stored.fairnessDebt [])
      else none := by
  unfold releasePrecheck releaseReplay resourceReclaimPolicyPrecheck
  rw [h.mismatch, if_neg fun hc => hc.elim (fun hne => hne h.reserved) nofun]
  have hexpired : ¬ request.now < stored.record.expiresAt := not_lt.mpr h.expired
  simp only [hexpired, false_or]
  rfl

/-! ### The reclaim -/

theorem reclaim_call (hl : Accounted l) (h : Reclaims l id stored request)
    (hrow : l.items.nodes.get request.workItemId = some (some row))
    (hbacks : Backs codecs request.toTerms row)
    (hhost : l.hosts.get stored.record.hostRef = some host) :
    (Reclaimable row request.toTerms request.now ∧
        applyResourceReservationLifecycle codecs .reclaim request l =
          releaseCharge .reclaim request stored (fenceOf row request) host l) ∨
      (¬ Reclaimable row request.toTerms request.now ∧ ∃ result,
        applyResourceReservationLifecycle codecs .reclaim request l = .ok (l, result) ∧
          result.decision ≠ .accepted) := by
  obtain ⟨extension, hstatus⟩ := status_reclaim hbacks (fenceOf row request)
  rw [reclaimable_iff]
  unfold applyResourceReservationLifecycle
  rw [precheck_reclaim hl h, load_reclaim hrow]
  by_cases hopen : FenceOpen row request
  · rw [validate_open hbacks hopen]
    change (_ ∧ (resourceValidateWorkItemStatusAndExtension codecs .reclaim request
      (fenceOf row request) row >>= _) = _) ∨ (_ ∧ ∃ result,
        (resourceValidateWorkItemStatusAndExtension codecs .reclaim request (fenceOf row request) row
          >>= _) = _ ∧ _)
    rw [hstatus]
    by_cases hrefused : statusRefused .reclaim request (fenceOf row request) row = true
    · rw [if_pos hrefused]
      refine .inr ⟨fun hc => ?_, _, rfl, nofun⟩
      rw [hc.2.1] at hrefused
      cases hrefused
    · rw [if_neg hrefused]
      unfold commitLifecycle resourceCommitReleaseOrReclaim
      rw [h.stored_row hl]
      dsimp only
      rw [releasePrecheck_reclaim h]
      by_cases hlive : row.status.isLive = true ∧ request.now < row.leaseExpiresAt
      · rw [if_pos hlive]
        exact .inr ⟨fun hc => hc.2.2 hlive, _, rfl, nofun⟩
      · rw [if_neg hlive, hhost]
        exact .inl ⟨⟨hopen, Bool.eq_false_iff.mpr hrefused, hlive⟩, rfl⟩
  · rw [validate_closed hbacks hopen]
    exact .inr ⟨fun hc => hopen hc.1, _, rfl, nofun⟩

end

def Returned (ctx : Context) (l : Ledger) (stored : DurableReservation) (host : DurableHost)
    (request : ReservationRequest) : Prop :=
  (∃ result, (lifecycleCall ctx .reclaim request l).2 = some result ∧ result.decision = .accepted) ∧
    ∃ freed, (lifecycleCall ctx .reclaim request l).1.hosts.get stored.record.hostRef = some freed ∧
      ∀ d, freed.held.get d + stored.held.get d = host.held.get d

/-- **When a reclaim returns capacity.** In every state reached a reservation that is still reserved has
its WorkItem row and its host, and after its window the reclaim with its own terms and revision is
accepted and gives back what it holds exactly if the row is reclaimable. -/
theorem reclaim_returns_iff (ctx : Context) (items : Graph) {ops : List Op}
    (hnative : ∀ op ∈ ops, Native op) {id : String} {stored : DurableReservation}
    {request : ReservationRequest}
    (h : Reclaims (run ctx (Ledger.fresh items) ops) id stored request) :
    ∃ row host,
      (run ctx (Ledger.fresh items) ops).items.nodes.get stored.record.workItemId = some (some row) ∧
      (run ctx (Ledger.fresh items) ops).hosts.get stored.record.hostRef = some host ∧
      (Returned ctx (run ctx (Ledger.fresh items) ops) stored host request ↔
        Reclaimable row stored.record.toTerms request.now) := by
  have hl := accounted_run ctx (accounted_fresh items) ops
  obtain ⟨row, hrow, hbacks⟩ := backed_run ctx items hnative id stored h.found
  obtain ⟨host, hhost⟩ := hl.onHost id stored h.found
  refine ⟨row, host, hrow, hhost, ?_⟩
  rw [← h.terms] at hrow hbacks ⊢
  generalize run ctx (Ledger.fresh items) ops = l at *
  rcases reclaim_call hl h hrow hbacks hhost with ⟨hreclaimable, hcall⟩ | ⟨hnot, result, hcall, hne⟩
  · obtain ⟨l', result, hcharge⟩ := releaseCharge_ok hl h hhost (fenceOf row request)
    have hanswer : lifecycleCall ctx .reclaim request l = (l', some result) := by
      rw [lifecycleCall, hcall, hcharge]
    refine ⟨fun _ => hreclaimable, fun _ => ⟨⟨result, ?_, decision_of_release hcharge⟩, ?_⟩⟩
    · rw [hanswer]
    · obtain ⟨held, hheld, hhosts⟩ := (refunds_of_charge hcharge).hosts
      refine ⟨host.withHeld held, ?_, hheld⟩
      rw [hanswer, hhosts, hl.hostKey _ _ hhost]
      exact Table.get_insert_self _ _ _
  · have hanswer : lifecycleCall ctx .reclaim request l = (l, some result) := by
      rw [lifecycleCall, hcall]
    refine ⟨fun hreturned => ?_, fun hreclaimable => absurd hreclaimable hnot⟩
    obtain ⟨⟨result', hresult', haccepted⟩, -⟩ := hreturned
    rw [hanswer] at hresult'
    cases hresult'
    exact absurd haccepted hne

/-! ### A reservation of one item -/

def zeros : String := "0000000000000000000000000000000000000000000000000000000000000000"

def hidden (value : String) : Json := .text (resourceB64Urlsafe value)

def profileFields : Fields :=
  [("schema_version", .text "1"),
    ("resolved_profile_authority", .text "repository_manager:resource_profile_registry:v1"),
    ("profile_name", hidden "t"), ("profile_version", hidden "1"), ("cpu_weight", .unsigned 2),
    ("memory_mib", .unsigned 1024), ("disk_mib", .unsigned 200), ("process_slots", .unsigned 1),
    ("host_labels", .array []), ("anti_affinity", .array []),
    ("preferred_target", .object [("kind", .text "local"), ("alias", .null),
      ("capability_labels", .array [])]),
    ("required_target", .null), ("repository_id", hidden "t"), ("concurrency_key", hidden "t"),
    ("concurrency_limit", .null), ("repository_exclusive", .bool false),
    ("branch_exclusive", .bool false), ("fairness_group", hidden "t"),
    ("fairness_cost", .unsigned 1), ("disk_policy_key", hidden "t"), ("branch", hidden "t"),
    ("target_kind", .text "local"), ("target_alias", .null),
    ("work_item_input_fingerprint", .text ("v1:" ++ zeros))]

def itemMetadata : Json :=
  .object [("repository_work_item", .object
    [("immutable_input_digest", .text zeros), ("tenant_id", hidden "t"),
      ("repository_id", hidden "t"), ("owner_id", hidden "w"), ("job_id", hidden "t"),
      ("target_kind", .text "local"), ("target_alias", .null), ("priority", .unsigned 0),
      ("resource_reservation", .object profileFields)])]

def itemContext : Context := ⟨⟨fun _ => "", fun _ => ""⟩, ⟨fun _ => itemMetadata, fun _ => zeros⟩⟩

def hostUpdate : HostUpdateRequest :=
  { tenantRef := "t", hostRef := "h", revision := 1, capacity := ⟨4, 4096, 1000, 4⟩
    observed := {}, heartbeatAt := 1000, heartbeatTtl := 1000, now := 1000, draining := false
    quarantined := false, labels := [], targetKind := .localHost, targetAlias := none
    diskUsedMib := 0, diskCapacityMib := 1000 }

def itemTerms : Terms :=
  { tenantRef := "t", workItemId := "i", ownerId := "w", fence := "1", leaseEpoch := 1
    fencingToken := 1, attempt := 1, reservationId := "s", inputFingerprint := "v1:" ++ zeros
    profileName := "t", profileVersion := "1", hostRef := "h", requirement := ⟨2, 1024, 200, 1⟩
    targetKind := .localHost, targetAlias := none, repositoryId := "t", branch := "t"
    concurrencyKey := "t", concurrencyLimit := none, repositoryExclusive := false
    branchExclusive := false, requiredLabels := [], antiAffinity := [], fairnessGroup := "t"
    fairnessCost := 1, diskLowWatermarkMib := none, diskHighWatermarkMib := none
    diskPolicyKey := "t", reservedAt := 1000, expiresAt := 61000, expectedHostRevision := none }

def reclaimRequest : ReservationRequest := ⟨itemTerms, "k", 61001, some 1⟩

def oneItem : Graph :=
  ⟨"g", Table.ofPairs [("i", some { nodeType := "WorkItem", tenant := "t", status := .ready })], 0⟩

def reserveItem : List Op :=
  [.updateHost hostUpdate, .workItem (.claim ⟨"t", none, none, none, none, "w", 1000, 60000, 5⟩),
    .lifecycle .reserve ⟨itemTerms, "k", 1000, none⟩]

def cancelItem : List Op := reserveItem ++ [.workItem (.cancel ⟨"t", "i", none, 61001, {}⟩)]

def summary (stored : DurableReservation) : RecordState × Terms × ℕ :=
  (stored.record.state, stored.record.toTerms, stored.record.lifecycleRevision)

theorem reclaims_item {l : Ledger}
    (h : (l.reservations.get "s").map summary = some (.reserved, itemTerms, 1)) :
    ∃ stored, Reclaims l "s" stored reclaimRequest ∧ stored.record.toTerms = itemTerms := by
  obtain ⟨stored, hstored, hsummary⟩ := Option.map_eq_some_iff.mp h
  obtain ⟨hstate, hrest⟩ := Prod.mk.inj hsummary
  obtain ⟨hterms, hrevision⟩ := Prod.mk.inj hrest
  refine ⟨stored, ⟨hstored, hstate, hterms.symm, by decide +kernel, ?_, ?_⟩, hterms⟩
  · rw [hrevision]
    rfl
  · rw [hterms]
    decide

theorem native_reserveItem : ∀ op ∈ reserveItem, Native op := by
  intro op hop
  simp only [reserveItem, List.mem_cons, List.not_mem_nil, or_false] at hop
  rcases hop with rfl | rfl | rfl <;> trivial

/-- After the lease has expired, the reservation of the item is reclaimed. -/
theorem reclaim_returns_expired :
    ∃ stored host, Reclaims (run itemContext (Ledger.fresh oneItem) reserveItem) "s" stored
        reclaimRequest ∧
      Returned itemContext (run itemContext (Ledger.fresh oneItem) reserveItem) stored host
        reclaimRequest := by
  obtain ⟨hsummary, hview⟩ :
      ((run itemContext (Ledger.fresh oneItem) reserveItem).reservations.get "s").map summary =
          some (.reserved, itemTerms, 1) ∧
        ((run itemContext (Ledger.fresh oneItem) reserveItem).items.nodes.get "i").join.map
          (fun row => (row.status, row.leaseExpiresAt, row.leaseEpoch, row.fencingToken,
            row.leaseOwner)) = some (.leased, 61000, 1, 1, "w") := by decide +kernel
  obtain ⟨stored, hreclaims, hterms⟩ := reclaims_item hsummary
  obtain ⟨row, host, hrow, -, hiff⟩ :=
    reclaim_returns_iff itemContext oneItem native_reserveItem hreclaims
  refine ⟨stored, host, hreclaims, hiff.mpr ?_⟩
  rw [hterms] at hrow ⊢
  rw [show itemTerms.workItemId = "i" from rfl] at hrow
  rw [hrow] at hview
  have hfields := Option.some.inj hview
  simp only [Prod.mk.injEq] at hfields
  obtain ⟨hstatus, hexpiry, hepoch, htoken, howner⟩ := hfields
  refine ⟨fun hc => ?_, .inr ⟨hepoch, htoken, ?_, .inl (by rw [hstatus]; rfl)⟩⟩
  · rw [hexpiry] at hc
    exact absurd hc.2 (by decide)
  · unfold leaseHolder
    rw [hstatus]
    exact howner

/-- The reservation of a cancelled item is past its window and its lease is over, and its reclaim is
refused as stale. -/
theorem reclaim_refused_after_cancel :
    ∃ stored row, Reclaims (run itemContext (Ledger.fresh oneItem) cancelItem) "s" stored
        reclaimRequest ∧
      (run itemContext (Ledger.fresh oneItem) cancelItem).items.nodes.get "i" = some (some row) ∧
      row.status = .cancelled ∧ row.leaseIsValid ⟨"w", 1, 1⟩ 61001 = false ∧
      ∀ host, ¬ Returned itemContext (run itemContext (Ledger.fresh oneItem) cancelItem) stored host
        reclaimRequest := by
  obtain ⟨hsummary, hview, hstale⟩ :
      ((run itemContext (Ledger.fresh oneItem) cancelItem).reservations.get "s").map summary =
          some (.reserved, itemTerms, 1) ∧
        ((run itemContext (Ledger.fresh oneItem) cancelItem).items.nodes.get "i").join.map
          (fun row => (row.status, row.leaseIsValid ⟨"w", 1, 1⟩ 61001)) = some (.cancelled, false) ∧
        (lifecycleCall itemContext .reclaim reclaimRequest
          (run itemContext (Ledger.fresh oneItem) cancelItem)).2.map ReservationResult.decision =
            some .stale := by decide +kernel
  obtain ⟨stored, hreclaims, -⟩ := reclaims_item hsummary
  obtain ⟨row, hjoin, hfields⟩ := Option.map_eq_some_iff.mp hview
  rw [Option.join_eq_some_iff] at hjoin
  obtain ⟨hstatus, hlease⟩ := Prod.mk.inj hfields
  refine ⟨stored, row, hreclaims, hjoin, hstatus, hlease, fun host hreturned => ?_⟩
  obtain ⟨⟨result, hresult, haccepted⟩, -⟩ := hreturned
  rw [hresult] at hstale
  rw [Option.map_some, haccepted] at hstale
  cases hstale

end Medulla.Resource.Reclaim
