import Medulla.Resource.Reclaim

/-! # When a disk policy reopens

A disk policy blocks at its high watermark and reopens at its low one. Without a low watermark nothing
reopens it: neither a later reservation nor a release clears the row.

* one step: `shut_step`; every run: `shut_run`;
* the result: `disk_refused_iff`. -/

namespace Medulla.Resource.Watermarks

open Library Library.Checked Library.OrderedTable WorkItem.Rows Requests Extension
open Admission Lifecycle Effects Accounting Machine
open Reclaim

variable {codecs : Codecs} {l l' : Ledger} {request : ReservationRequest} {host : DurableHost}
  {result : ReservationResult} {mode : Mode} {policies policies' : Table String DiskPolicy}
  {key : String} {blocked : Option Decision}

/-- The reservation passes every gate before the disk hysteresis of its host. -/
def ReachesPolicy (codecs : Codecs) (request : ReservationRequest) (host : DurableHost) (l : Ledger) :
    Prop :=
  ∃ row fence extension rows, resourceLifecyclePrecheck .reserve request l = .ok (.proceed ()) ∧
    resourceLoadAndValidateWorkItem codecs l .reserve request = .ok (.proceed (row, fence)) ∧
    resourceValidateWorkItemStatusAndExtension codecs .reserve request fence row =
      .ok (.proceed extension) ∧
    l.reservations.get request.reservationId = none ∧
    resourceCheckAttemptWinnerConflict request l = .ok (.proceed ()) ∧
    l.hosts.get request.hostRef = some host ∧
    resourceCollectDiskPolicyRows l request.hostRef = .ok rows ∧
    resourceAdmitCheckHostEligibility request host extension = .ok none ∧
    resourceAdmitCheckIndexGates request host l = none ∧
    resourceAdmitCheckDisk request host (l.diskPolicies.get (diskKey request.toTerms)) rows.length =
      none

def predictedUsed (request : ReservationRequest) (host : DurableHost) : ℕ :=
  host.diskUsedMib + host.held.diskMib + request.requirement.diskMib

/-- The reservation stays below the high watermark and does not pass the low one. -/
def WithinMarks (request : ReservationRequest) (host : DurableHost) : Prop :=
  (∀ high ∈ request.diskHighWatermarkMib, predictedUsed request host < high) ∧
    ∀ low ∈ request.diskLowWatermarkMib, predictedUsed request host ≤ low

/-- The policy is blocked, and no low watermark reopens it. -/
def Shut (policies : Table String DiskPolicy) (key : String) : Prop :=
  ∃ policy, policies.get key = some policy ∧ policy.blocked = true ∧ policy.lowWatermarkMib = none

/-- The reservation has no low watermark and reaches its high one. -/
def Crosses (request : ReservationRequest) (host : DurableHost) : Prop :=
  predictedUsed request host ≤ u64Max ∧ request.diskLowWatermarkMib = none ∧
    ∃ high ∈ request.diskHighWatermarkMib, high ≤ predictedUsed request host

/-- The operation is a reservation that passes every other gate and crosses the high watermark of
the policy. -/
def Latches (ctx : Context) (key : String) (l : Ledger) : Op → Prop
  | .lifecycle .reserve request => diskKey request.toTerms = key ∧
      ∃ host, ReachesPolicy ctx.codecs request host l ∧ Crosses request host
  | _ => False

/-- Some operation of the run latches the policy. -/
def Latched (ctx : Context) (key : String) : Ledger → List Op → Prop
  | _, [] => False
  | l, op :: ops => Latches ctx key l op ∨ Latched ctx key (step ctx l op) ops

def DiskRefused (ctx : Context) (request : ReservationRequest) (l : Ledger) : Prop :=
  ∃ result, (lifecycleCall ctx .reserve request l).2 = some result ∧ result.decision = .disk

/-! ### The hysteresis -/

def wasBlocked (request : ReservationRequest) (policies : Table String DiskPolicy) : Bool :=
  (policies.get (diskKey request.toTerms)).any DiskPolicy.blocked

def blocksNow (request : ReservationRequest) (host : DurableHost) (policies : Table String DiskPolicy) :
    Bool :=
  resourceDiskPolicyBlocked (wasBlocked request policies) (predictedUsed request host)
    request.diskLowWatermarkMib request.diskHighWatermarkMib

def putPolicy (request : ReservationRequest) (policies : Table String DiskPolicy) (blocked : Bool) :
    Table String DiskPolicy :=
  policies.insert (diskKey request.toTerms)
    (bumpedPolicy request (policies.get (diskKey request.toTerms)) blocked)

theorem applyDiskPolicy_eq (hfits : predictedUsed request host ≤ u64Max) :
    resourceAdmitApplyDiskPolicy request host policies =
      .ok (if blocksNow request host policies then (putPolicy request policies true, some .disk)
        else if (policies.get (diskKey request.toTerms)).all fun p => p.blocked ≠ false then
          (putPolicy request policies false, none)
        else (policies, none)) := by
  have hused : checkedAdd u64Max host.diskUsedMib host.held.diskMib =
      some (host.diskUsedMib + host.held.diskMib) :=
    checkedAdd_eq_some.mpr ⟨rfl, le_trans (Nat.le_add_right _ _) hfits⟩
  have hpredicted : checkedAdd u64Max (host.diskUsedMib + host.held.diskMib)
      request.requirement.diskMib = some (predictedUsed request host) :=
    checkedAdd_eq_some.mpr ⟨rfl, hfits⟩
  unfold resourceAdmitApplyDiskPolicy
  rw [hused]
  change (okOr (checkedAdd u64Max (host.diskUsedMib + host.held.diskMib)
    request.requirement.diskMib) _ >>= _) = _
  rw [hpredicted]
  change Except.ok (if blocksNow request host policies then (putPolicy request policies
      (blocksNow request host policies), some Decision.disk)
    else if (policies.get (diskKey request.toTerms)).all
        fun p => p.blocked ≠ blocksNow request host policies then
      (putPolicy request policies (blocksNow request host policies), none)
    else (policies, none)) = _
  cases blocksNow request host policies <;> rfl

theorem fits_of_apply (h : resourceAdmitApplyDiskPolicy request host policies = .ok (policies', blocked)) :
    predictedUsed request host ≤ u64Max := by
  obtain ⟨used, hused, h⟩ := unbind h
  obtain ⟨predicted, hpredicted, -⟩ := unbind h
  rw [okOr_eq_ok, checkedAdd_eq_some] at hused hpredicted
  unfold predictedUsed
  omega

theorem marks_of_check {count : ℕ} {found : Option DiskPolicy} {policy : DiskPolicy}
    (h : resourceAdmitCheckDisk request host found count = none) (hfound : found = some policy) :
    policy.lowWatermarkMib = request.diskLowWatermarkMib := by
  unfold resourceAdmitCheckDisk at h
  split_ifs at h with h1 h2 h3
  rw [hfound] at h2
  simp only [Option.any_some, Bool.or_eq_true, decide_eq_true_eq, not_or, not_not] at h2
  exact h2.1

theorem shut_insert {policy : DiskPolicy} {k : String} : Shut (policies.insert k policy) key ↔
    if key = k then policy.blocked = true ∧ policy.lowWatermarkMib = none else Shut policies key := by
  unfold Shut
  split_ifs with hkey
  · subst hkey
    rw [Table.get_insert_self]
    exact ⟨fun ⟨p, hp, h⟩ => Option.some.inj hp ▸ h, fun h => ⟨policy, rfl, h⟩⟩
  · rw [Table.get_insert_of_ne _ _ hkey]

theorem shut_iff {count : ℕ} (hcheck : resourceAdmitCheckDisk request host
      (policies.get (diskKey request.toTerms)) count = none) :
    Shut policies (diskKey request.toTerms) ↔
      wasBlocked request policies = true ∧ request.diskLowWatermarkMib = none := by
  unfold Shut wasBlocked
  cases hget : policies.get (diskKey request.toTerms) with
  | none => simp
  | some policy =>
    rw [← marks_of_check hcheck hget]
    exact ⟨fun ⟨p, hp, h⟩ => Option.some.inj hp ▸ h, fun h => ⟨policy, rfl, h⟩⟩

theorem blocksNow_of_no_low (hlow : request.diskLowWatermarkMib = none) :
    blocksNow request host policies = true ↔ wasBlocked request policies = true ∨
      ∃ high ∈ request.diskHighWatermarkMib, high ≤ predictedUsed request host := by
  unfold blocksNow resourceDiskPolicyBlocked
  rw [hlow]
  cases wasBlocked request policies <;> simp [Option.any_eq_true]

theorem blocksNow_of_within (hwithin : WithinMarks request host) :
    blocksNow request host policies = true ↔
      wasBlocked request policies = true ∧ request.diskLowWatermarkMib = none := by
  obtain ⟨hhigh, hlow⟩ := hwithin
  unfold blocksNow resourceDiskPolicyBlocked
  cases wasBlocked request policies with
  | false =>
    simp only [Bool.false_eq_true, if_false, false_and, iff_false, Option.any_eq_true,
      decide_eq_true_eq, not_exists, not_and, not_le]
    exact fun mark hmark => hhigh mark hmark
  | true =>
    cases hget : request.diskLowWatermarkMib with
    | none => simp
    | some low => simpa using hlow low hget

/-- **The hysteresis shuts a policy exactly when a reservation without a low watermark reaches the
high one, and opens no policy that is shut.** -/
theorem shut_apply {count : ℕ} (hcheck : resourceAdmitCheckDisk request host
      (policies.get (diskKey request.toTerms)) count = none)
    (h : resourceAdmitApplyDiskPolicy request host policies = .ok (policies', blocked)) :
    Shut policies' key ↔
      Shut policies key ∨ diskKey request.toTerms = key ∧ Crosses request host := by
  have hfits := fits_of_apply h
  rw [applyDiskPolicy_eq hfits] at h
  by_cases hkey : key = diskKey request.toTerms
  · subst hkey
    have hafter : Shut policies' (diskKey request.toTerms) ↔
        blocksNow request host policies = true ∧ request.diskLowWatermarkMib = none := by
      split_ifs at h with hblocks hwritten <;> cases h
      · rw [putPolicy, shut_insert, if_pos rfl, hblocks]
        rfl
      · rw [putPolicy, shut_insert, if_pos rfl]
        exact ⟨fun hc => absurd hc.1 Bool.false_ne_true, fun hc => absurd hc.1 hblocks⟩
      · rw [shut_iff hcheck]
        have hwas : ¬ wasBlocked request policies = true := by
          unfold wasBlocked
          cases hget : policies.get (diskKey request.toTerms) with
          | none => exact Bool.false_ne_true
          | some policy => simpa [hget] using hwritten
        exact ⟨fun hc => absurd hc.1 hwas, fun hc => absurd hc.1 hblocks⟩
    rw [hafter, shut_iff hcheck]
    constructor
    · rintro ⟨hblocks, hlow⟩
      rw [blocksNow_of_no_low hlow] at hblocks
      exact hblocks.imp (⟨·, hlow⟩) fun hhigh => ⟨rfl, hfits, hlow, hhigh⟩
    · rintro (⟨hwas, hlow⟩ | ⟨-, -, hlow, hhigh⟩)
      · exact ⟨(blocksNow_of_no_low hlow).mpr (.inl hwas), hlow⟩
      · exact ⟨(blocksNow_of_no_low hlow).mpr (.inr hhigh), hlow⟩
  · have hsame : Shut policies' key ↔ Shut policies key := by
      split_ifs at h <;> cases h
      · rw [putPolicy, shut_insert, if_neg hkey]
      · rw [putPolicy, shut_insert, if_neg hkey]
      · rfl
    rw [hsame, or_iff_left fun hc => hkey hc.1.symm]

theorem shut_reopen : Shut (reopenDiskPolicy request host policies) key ↔ Shut policies key := by
  unfold reopenDiskPolicy
  split
  · rfl
  · rename_i policy hget
    split_ifs with hmarks
    · rw [shut_insert]
      split_ifs with hkey
      · subst hkey
        refine ⟨fun hc => hc.1.elim, ?_⟩
        rintro ⟨p, hp, -, hlow⟩
        rw [hget] at hp
        cases hp
        rw [hlow] at hmarks
        exact absurd hmarks.2.2 (by simp)
      · rfl
    · rfl

/-! ### The calls -/

/-- What follows the hysteresis: a refusal, or the charge. -/
def afterPolicy (request : ReservationRequest) (host : DurableHost) (l : Ledger)
    (applied : Table String DiskPolicy × Option Decision) : Except String (Ledger × ReservationResult) :=
  match applied.2 with
  | some decision =>
    .ok ({ l with diskPolicies := applied.1 }, resourceAdmissionRefusal decision request host)
  | none => resourceCommitReserveAdmission request host { l with diskPolicies := applied.1 }

theorem apply_of_reaches (h : ReachesPolicy codecs request host l) :
    applyResourceReservationLifecycle codecs .reserve request l =
      resourceAdmitApplyDiskPolicy request host l.diskPolicies >>= afterPolicy request host l := by
  obtain ⟨row, fence, extension, rows, hprecheck, hload, hstatus, habsent, hwinner, hhost, hrows,
    heligible, hgates, hdisk⟩ := h
  have hreserve : resourceAdmitReserveHost request extension l =
      resourceAdmitToHost request extension host l := by
    unfold resourceAdmitReserveHost
    rw [hwinner, hhost]
    rfl
  unfold applyResourceReservationLifecycle
  rw [hprecheck]
  rw [hload]
  change (resourceValidateWorkItemStatusAndExtension codecs .reserve request fence row >>= _) = _
  rw [hstatus]
  change commitLifecycle .reserve request row fence extension l = _
  unfold commitLifecycle
  rw [habsent]
  rw [hreserve]
  unfold resourceAdmitToHost
  rw [hrows, heligible]
  simp only [bind, Except.bind, hgates, hdisk]
  rfl

/-- **What a lifecycle call does to the disk policies.** -/
theorem lifecycle_policies
    (h : applyResourceReservationLifecycle codecs mode request l = .ok (l', result)) :
    l'.diskPolicies = l.diskPolicies ∨
      (mode = .reserve ∧ ∃ host blocked, ReachesPolicy codecs request host l ∧
        resourceAdmitApplyDiskPolicy request host l.diskPolicies = .ok (l'.diskPolicies, blocked)) ∨
      (mode ≠ .reserve ∧ ∃ freed, l'.diskPolicies = reopenDiskPolicy request freed l.diskPolicies) := by
  obtain ⟨precheck, hprecheck, h⟩ := unbind h
  rcases continueWith_ok h with ⟨rfl, rfl⟩ | ⟨u, rfl, h⟩
  · exact .inl rfl
  obtain ⟨loaded, hloaded, h⟩ := unbind h
  rcases continueWith_ok h with ⟨rfl, rfl⟩ | ⟨⟨row, fence⟩, rfl, h⟩
  · exact .inl rfl
  obtain ⟨checked, hchecked, h⟩ := unbind h
  rcases continueWith_ok h with ⟨rfl, rfl⟩ | ⟨extension, rfl, h⟩
  · exact .inl rfl
  unfold commitLifecycle at h
  split at h
  · rename_i stored hstored
    unfold resourceCommitReleaseOrReclaim at h
    split at h
    · cases h
      exact .inl rfl
    rename_i hnone
    obtain ⟨-, hnone⟩ := Option.or_eq_none_iff.mp hnone
    obtain ⟨hreplay, -⟩ := Option.or_eq_none_iff.mp hnone
    unfold releaseReplay at hreplay
    split_ifs at hreplay with hends
    split at h
    · cases h
      exact .inl rfl
    obtain ⟨held, -, h⟩ := unbind h
    obtain ⟨concurrency, -, h⟩ := unbind h
    obtain ⟨antiAffinity, -, h⟩ := unbind h
    cases h
    exact .inr (.inr ⟨fun hc => hends (.inr hc), _, rfl⟩)
  rename_i habsent
  split_ifs at h with hmode
  · obtain ⟨winner, hwinner, hreserve⟩ := unbind h
    subst hmode
    rcases continueWith_ok hreserve with ⟨rfl, rfl⟩ | ⟨u, rfl, h⟩
    · exact .inl rfl
    split at h
    · cases h
      exact .inl rfl
    rename_i host hhost
    obtain ⟨rows, hrows, h⟩ := unbind h
    obtain ⟨eligibility, heligible, h⟩ := unbind h
    split at h
    · cases h
      exact .inl rfl
    rename_i hnone
    obtain ⟨heligibility, hrest⟩ := Option.or_eq_none_iff.mp hnone
    obtain ⟨hgates, hdisk⟩ := Option.or_eq_none_iff.mp hrest
    rw [heligibility] at heligible
    obtain ⟨⟨diskPolicies, blocked⟩, hpolicy, h⟩ := unbind h
    have hreaches : ReachesPolicy codecs request host l := ⟨row, fence, extension, rows, hprecheck,
      hloaded, hchecked, habsent, hwinner, hhost, hrows, heligible, hgates, hdisk⟩
    cases blocked with
    | some decision =>
      cases h
      exact .inr (.inl ⟨rfl, host, _, hreaches, hpolicy⟩)
    | none =>
      obtain ⟨debt, -, h⟩ := unbind h
      obtain ⟨held, -, h⟩ := unbind h
      obtain ⟨concurrency, -, h⟩ := unbind h
      obtain ⟨antiAffinity, -, h⟩ := unbind h
      cases h
      exact .inr (.inl ⟨rfl, host, _, hreaches, hpolicy⟩)
  · cases h
    exact .inl rfl

theorem ReachesPolicy.check (h : ReachesPolicy codecs request host l) : ∃ count,
    resourceAdmitCheckDisk request host (l.diskPolicies.get (diskKey request.toTerms)) count = none := by
  obtain ⟨-, -, -, rows, -, -, -, -, -, -, -, -, -, hdisk⟩ := h
  exact ⟨rows.length, hdisk⟩

theorem apply_of_blocksNow (h : ReachesPolicy codecs request host l)
    (hfits : predictedUsed request host ≤ u64Max)
    (hblocks : blocksNow request host l.diskPolicies = true) :
    applyResourceReservationLifecycle codecs .reserve request l =
      .ok ({ l with diskPolicies := putPolicy request l.diskPolicies true },
        resourceAdmissionRefusal .disk request host) := by
  rw [apply_of_reaches h, applyDiskPolicy_eq hfits, if_pos hblocks]
  rfl

variable (ctx : Context)

theorem diskRefused_iff (hreaches : ReachesPolicy ctx.codecs request host l)
    (hwithin : WithinMarks request host) :
    DiskRefused ctx request l ↔ predictedUsed request host ≤ u64Max ∧
      Shut l.diskPolicies (diskKey request.toTerms) := by
  obtain ⟨count, hcheck⟩ := hreaches.check
  rw [shut_iff hcheck, ← blocksNow_of_within hwithin]
  constructor
  · rintro ⟨result, hresult, hdisk⟩
    cases happly : applyResourceReservationLifecycle ctx.codecs .reserve request l with
    | error message =>
      rw [lifecycleCall, happly] at hresult
      cases hresult
    | ok answer =>
      rw [lifecycleCall, happly] at hresult
      cases hresult
      rw [apply_of_reaches hreaches] at happly
      obtain ⟨⟨policies, blocked⟩, hpolicy, happly⟩ := unbind happly
      have hfits := fits_of_apply hpolicy
      refine ⟨hfits, ?_⟩
      by_contra hopen
      rw [applyDiskPolicy_eq hfits, if_neg hopen] at hpolicy
      split_ifs at hpolicy <;>
      · cases hpolicy
        rw [decision_of_commit happly] at hdisk
        cases hdisk
  · rintro ⟨hfits, hblocks⟩
    exact ⟨_, by rw [lifecycleCall, apply_of_blocksNow hreaches hfits hblocks], rfl⟩

/-! ### The runs -/

theorem shut_of_latches {op : Op} (h : Latches ctx key l op) : Shut (step ctx l op).diskPolicies key := by
  unfold Latches at h
  split at h
  · rename_i request
    obtain ⟨rfl, host, hreaches, hfits, hlow, hhigh⟩ := h
    have happly := apply_of_blocksNow hreaches hfits ((blocksNow_of_no_low hlow).mpr (.inr hhigh))
    change Shut (lifecycleCall ctx .reserve request l).1.diskPolicies _
    rw [lifecycleCall, happly, putPolicy, shut_insert, if_pos rfl]
    exact ⟨rfl, hlow⟩
  · exact h.elim

theorem shut_lifecycle (mode : Mode) (request : ReservationRequest) (l : Ledger) :
    (Shut (lifecycleCall ctx mode request l).1.diskPolicies key ↔ Shut l.diskPolicies key) ∨
      (mode = .reserve ∧ ∃ host, ReachesPolicy ctx.codecs request host l ∧
        (Shut (lifecycleCall ctx mode request l).1.diskPolicies key ↔
          Shut l.diskPolicies key ∨ diskKey request.toTerms = key ∧ Crosses request host)) := by
  cases happly : applyResourceReservationLifecycle ctx.codecs mode request l with
  | error message =>
    rw [lifecycleCall, happly]
    exact .inl Iff.rfl
  | ok answer =>
    rw [lifecycleCall, happly]
    rcases lifecycle_policies happly with hsame | ⟨hmode, host, blocked, hreaches, hpolicy⟩ |
      ⟨-, freed, hfreed⟩
    · rw [hsame]
      exact .inl Iff.rfl
    · obtain ⟨count, hcheck⟩ := hreaches.check
      exact .inr ⟨hmode, host, hreaches, shut_apply hcheck hpolicy⟩
    · rw [hfreed]
      exact .inl shut_reopen

/-- **A policy is shut after a step exactly when it was shut before or the step latches it.** -/
theorem shut_step (l : Ledger) (op : Op) : Shut (step ctx l op).diskPolicies key ↔
    Shut l.diskPolicies key ∨ Latches ctx key l op := by
  cases op with
  | workItem call => exact (or_iff_left id).symm
  | rewrite items => exact (or_iff_left id).symm
  | updateHost request =>
    have hsame : (step ctx l (.updateHost request)).diskPolicies = l.diskPolicies := by
      simp only [step]
      split
      · rename_i hupdate
        rcases applyUpdateResourceHost_ok hupdate with rfl | ⟨-, rfl⟩ <;> rfl
      · rfl
    rw [hsame]
    exact (or_iff_left id).symm
  | lifecycle mode request =>
    rcases shut_lifecycle ctx mode request l with hsame | ⟨rfl, host, hreaches, hiff⟩
    · exact ⟨fun h => .inl (hsame.mp h), fun h => h.elim hsame.mpr (shut_of_latches ctx)⟩
    · refine ⟨fun h => ?_, fun h => h.elim (fun h => hiff.mpr (.inl h)) (shut_of_latches ctx)⟩
      exact (hiff.mp h).imp id fun ⟨hkey, hcrosses⟩ => ⟨hkey, host, hreaches, hcrosses⟩

theorem shut_run : ∀ (ops : List Op) (l : Ledger), Shut (run ctx l ops).diskPolicies key ↔
    Shut l.diskPolicies key ∨ Latched ctx key l ops
  | [], _ => (or_iff_left id).symm
  | op :: ops, l => (shut_run ops (step ctx l op)).trans (by rw [shut_step, or_assoc]; rfl)

/-- **When a reservation is refused for its disk.** After any run, a reservation that passes every other
gate, stays below its high watermark and does not pass its low one is refused with the disk decision
exactly when a reservation of the run without a low watermark reached the high one of the same policy,
and the sum is one of 64 bits. -/
theorem disk_refused_iff (items : Graph) (ops : List Op) {request : ReservationRequest}
    {host : DurableHost}
    (hreaches : ReachesPolicy ctx.codecs request host (run ctx (Ledger.fresh items) ops))
    (hwithin : WithinMarks request host) :
    DiskRefused ctx request (run ctx (Ledger.fresh items) ops) ↔
      request.diskLowWatermarkMib = none ∧ predictedUsed request host ≤ u64Max ∧
        Latched ctx (diskKey request.toTerms) (Ledger.fresh items) ops := by
  have hfresh : ¬ Shut (Ledger.fresh items).diskPolicies (diskKey request.toTerms) := by
    rintro ⟨policy, hpolicy, -⟩
    cases hpolicy
  obtain ⟨count, hcheck⟩ := hreaches.check
  rw [diskRefused_iff ctx hreaches hwithin, shut_run, or_iff_right hfresh]
  have hshut := (shut_run ctx ops (Ledger.fresh items)).trans (or_iff_right hfresh)
  exact ⟨fun h => ⟨((shut_iff hcheck).mp (hshut.mpr h.2)).2, h⟩, And.right⟩

/-! ### A policy that stays shut -/

/-- The metadata of an item whose disk policy has a high watermark and no low one. -/
def markedMetadata : Json :=
  .object [("repository_work_item", .object
    [("immutable_input_digest", .text zeros), ("tenant_id", hidden "t"),
      ("repository_id", hidden "t"), ("owner_id", hidden "w"), ("job_id", hidden "t"),
      ("target_kind", .text "local"), ("target_alias", .null), ("priority", .unsigned 0),
      ("resource_reservation",
        .object (("disk_high_watermark_mib", .unsigned 500) :: profileFields))])]

def markedContext : Context := ⟨itemContext.digests, ⟨fun _ => markedMetadata, fun _ => zeros⟩⟩

def markedRequest : ReservationRequest :=
  ⟨{ itemTerms with diskHighWatermarkMib := some 500 }, "k", 1000, none⟩

/-- The reservation is refused at the high watermark, and then the host is emptied. -/
def emptiedHost : List Op :=
  [.updateHost { hostUpdate with diskUsedMib := 400 },
    .workItem (.claim ⟨"t", none, none, none, none, "w", 1000, 60000, 5⟩),
    .lifecycle .reserve markedRequest, .updateHost { hostUpdate with revision := 2 }]

def emptied : Ledger := run markedContext (Ledger.fresh oneItem) emptiedHost

theorem marked_refused : ∃ host, ReachesPolicy markedContext.codecs markedRequest host emptied ∧
    WithinMarks markedRequest host ∧ DiskRefused markedContext markedRequest emptied := by
  obtain ⟨hrows, hhost, hdecision⟩ :
      ((lifecycleCall markedContext .reserve markedRequest emptied).1.diskPolicies.get
          (diskKey markedRequest.toTerms)).map DiskPolicy.revision ≠
        (emptied.diskPolicies.get (diskKey markedRequest.toTerms)).map DiskPolicy.revision ∧
      (emptied.hosts.get "h").map (predictedUsed markedRequest) = some 200 ∧
      (lifecycleCall markedContext .reserve markedRequest emptied).2.map
        ReservationResult.decision = some .disk := by decide +kernel
  cases happly : applyResourceReservationLifecycle markedContext.codecs .reserve markedRequest
      emptied with
  | error message =>
    rw [lifecycleCall, happly] at hdecision
    cases hdecision
  | ok answer =>
    rw [lifecycleCall, happly] at hrows
    rcases lifecycle_policies happly with hsame | ⟨-, host, blocked, hreaches, -⟩ | ⟨hmode, -⟩
    · exact absurd (by rw [hsame]) hrows
    · refine ⟨host, hreaches, ?_, Option.map_eq_some_iff.mp hdecision⟩
      obtain ⟨-, -, -, -, -, -, -, -, -, hfound, -⟩ := hreaches
      rw [show markedRequest.hostRef = "h" from rfl] at hfound
      rw [hfound] at hhost
      have hused := Option.some.inj hhost
      refine ⟨fun high hhigh => ?_, fun low hlow => absurd hlow (Option.not_mem_none low)⟩
      rw [hused]
      cases hhigh
      decide
    · exact absurd rfl hmode

/-- The refused reservation was latched out by itself. -/
theorem disk_refused_marked : ∃ host, ReachesPolicy markedContext.codecs markedRequest host emptied ∧
    WithinMarks markedRequest host ∧ predictedUsed markedRequest host ≤ u64Max ∧
      Latched markedContext (diskKey markedRequest.toTerms) (Ledger.fresh oneItem) emptiedHost := by
  obtain ⟨host, hreaches, hwithin, hrefused⟩ := marked_refused
  exact ⟨host, hreaches, hwithin,
    ((disk_refused_iff markedContext oneItem emptiedHost hreaches hwithin).mp hrefused).2⟩

/-- A policy does not always reopen: the emptied host is below the high watermark, there is no low one,
and the reservation is refused. -/
theorem disk_policy_stays_shut : ¬ ∀ (ctx : Context) (items : Graph) (ops : List Op)
    (request : ReservationRequest) (host : DurableHost),
    ReachesPolicy ctx.codecs request host (run ctx (Ledger.fresh items) ops) →
      WithinMarks request host → ¬ DiskRefused ctx request (run ctx (Ledger.fresh items) ops) := by
  intro h
  obtain ⟨host, hreaches, hwithin, hrefused⟩ := marked_refused
  exact h markedContext oneItem emptiedHost markedRequest host hreaches hwithin hrefused

end Medulla.Resource.Watermarks
