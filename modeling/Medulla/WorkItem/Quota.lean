import Medulla.WorkItem.Effects

/-! # The tenant's lease quota

A claim grants only when fewer than its limit of the tenant's leases expire after its clock. Renewals,
commits and deferrals accept a lease up to and including the instant at which it expires, so a lease
that expires exactly now is not counted by the claim and still accepted by the others.

* one call: `held_step`;
* every run: `quota_held`. -/

namespace Medulla.WorkItem.Quota

open Library Library.Checked Library.OrderedTable Rows Submit Claim
open Lifecycle Machine ClaimEffects Effects

variable {tenant id : String} {now L : ℕ} {row : Row} {g : Graph} {c : Call} {r : Result}
  {H : Digests} {request : ClaimWorkItemRequest} {node node' : Option (Option Row)}

/-! ### Counting leases -/

/-- A WorkItem of the tenant whose lease renew and commit accept at a moment. -/
def isHeld (tenant : String) (now : ℕ) (row : Row) : Bool :=
  row.isWorkItem && row.tenant = tenant && row.leaseIsValid row.fences now

def isInFlight (tenant : String) (now : ℕ) (row : Row) : Bool :=
  row.isWorkItem && row.tenant = tenant && row.status.isLive && now < row.leaseExpiresAt

/-- The tenant's leases that are accepted at a moment. -/
def held (g : Graph) (tenant : String) (now : ℕ) : ℕ :=
  g.nodes.count fun _ payload => payload.any (isHeld tenant now)

/-- The tenant's leases that a claim counts at a moment. -/
def inFlight (g : Graph) (tenant : String) (now : ℕ) : ℕ :=
  g.nodes.count fun _ payload => payload.any (isInFlight tenant now)

theorem isHeld_iff : isHeld tenant now row = true ↔
    row.isWorkItem = true ∧ row.tenant = tenant ∧ row.status.isLive = true ∧
      now ≤ row.leaseExpiresAt := by
  unfold isHeld
  rw [Bool.and_eq_true, Bool.and_eq_true, Row.leaseIsValid_iff, decide_eq_true_eq]
  unfold Row.lease?
  constructor
  · rintro ⟨⟨h1, h2⟩, h3, h4⟩
    split_ifs at h3 with hlive
    exact ⟨h1, h2, hlive, h4⟩
  · rintro ⟨h1, h2, h3, h4⟩
    exact ⟨⟨h1, h2⟩, if_pos h3, h4⟩

theorem isInFlight_iff : isInFlight tenant now row = true ↔
    row.isWorkItem = true ∧ row.tenant = tenant ∧ row.status.isLive = true ∧
      now < row.leaseExpiresAt := by
  unfold isInFlight
  simp [and_assoc]

theorem held_antitone (g : Graph) (tenant : String) {later : ℕ} (h : now ≤ later) :
    held g tenant later ≤ held g tenant now := by
  refine Table.count_le_of_get fun k payload hget hheld => ⟨payload, hget, ?_⟩
  obtain ⟨row, rfl, hrow⟩ := (Option.any_eq_true _ _).mp hheld
  refine (Option.any_eq_true _ _).mpr ⟨row, rfl, ?_⟩
  rw [isHeld_iff] at hrow ⊢
  exact ⟨hrow.1, hrow.2.1, hrow.2.2.1, h.trans hrow.2.2.2⟩

/-! ### What the scan counts -/

theorem inflight_take (scan : Scan) (id : String) (outcome : RowOutcome) :
    (scan.take id outcome).inflight =
      if outcome = .inFlight then min (scan.inflight + 1) u32Max else scan.inflight := by
  cases outcome <;> rfl

theorem inflight_scanRows : ∀ {rows : List (String × Option Row)} {scan scan' : Scan},
    scan.inflight ≤ u32Max → scanRows request scan rows = .ok scan' →
      scan'.inflight = min (scan.inflight + countRows (fun _ payload =>
        payload.any (isInFlight request.tenantRef request.now)) rows) u32Max
  | [], scan, scan', hbound, h => by
    cases h
    change scan.inflight = min (scan.inflight + 0) u32Max
    omega
  | (id, none) :: rest, scan, scan', hbound, h => by
    rw [scanRows] at h
    rw [inflight_scanRows hbound h]
    rfl
  | (id, some row) :: rest, scan, scan', hbound, h => by
    rw [scanRows] at h
    obtain ⟨outcome, houtcome, h⟩ := unbind h
    have hiff : outcome = .inFlight ↔ isInFlight request.tenantRef request.now row = true := by
      have hclass := @classifyRow_inFlight request id row
      rw [houtcome, Except.ok.injEq] at hclass
      rw [isInFlight_iff, hclass]
    have htake := inflight_take scan id outcome
    have hnext : (scan.take id outcome).inflight ≤ u32Max := by
      rw [htake]
      split_ifs
      · exact min_le_right _ _
      · exact hbound
    rw [inflight_scanRows hnext h, countRows_cons, htake]
    unfold weight
    simp only [Option.any_some]
    by_cases hflight : outcome = .inFlight
    · rw [if_pos hflight, if_pos (hiff.mp hflight)]
      omega
    · rw [if_neg hflight, if_neg fun hc => hflight (hiff.mpr hc)]
      rfl

theorem inflight_scan {scan : Scan} (h : scanRows request {} g.nodes.rows = .ok scan) :
    scan.inflight = min (inFlight g request.tenantRef request.now) u32Max := by
  rw [inflight_scanRows (Nat.zero_le _) h]
  rw [Nat.zero_add]
  rfl

/-! ### One call -/

/-- What a run of one tenant with the limit `L` requires of a call: every claim of the tenant uses the
limit and finds the quota not full of leases that expire exactly now, and no commit plants a leased
WorkItem of the tenant. -/
def Steady (tenant : String) (L : ℕ) (g : Graph) : Call → Prop
  | .claim request => request.tenantRef = tenant → request.maxTenantInFlight = L ∧
      (inFlight g tenant request.now < L → held g tenant request.now < L)
  | .commit request => ∀ id row, (id, some row) ∈ request.receipts.getD [] →
      isHeld tenant request.now row = false
  | _ => True

theorem isHeld_of_change {row' : Row} (h : Change id c r row row')
    (hgrant : ∀ lease, event id c r ≠ some (.granted lease))
    (hheld : isHeld tenant c.now row' = true) : isHeld tenant c.now row = true := by
  rw [isHeld_iff] at hheld ⊢
  obtain ⟨h1, h2, h3, h4⟩ := hheld
  cases h with
  | quiet hquiet _ =>
    refine ⟨?_, hquiet.tenant ▸ h2, hquiet.isLive ▸ h3, hquiet.expiry ▸ h4⟩
    unfold Row.isWorkItem at h1 ⊢
    rw [← hquiet.nodeType]
    exact h1
  | head _ _ idle _ =>
    rw [idle.notLive] at h3
    cases h3
  | granted _ _ happened => exact absurd happened (hgrant _)
  | retired _ hretired _ =>
    rw [hretired.status] at h3
    cases h3
  | renewed hcall _ valid hrow _ =>
    subst hcall
    unfold FenceKey.isValid at valid
    rw [Bool.and_eq_true, Row.leaseIsValid_iff] at valid
    obtain ⟨-, hlease, hexpiry⟩ := valid
    unfold Row.lease? at hlease
    split_ifs at hlease with hlive
    rw [hrow] at h1 h2
    exact ⟨h1, h2, hlive, hexpiry⟩
  | settled _ _ _ hfreed _ =>
    rw [hfreed.notLive] at h3
    cases h3
  | cancelled _ _ hfreed _ =>
    rw [hfreed.notLive] at h3
    cases h3
  | deferred _ _ _ hfreed _ =>
    rw [hfreed.notLive] at h3
    cases h3

theorem held_of_moves (hsteady : Steady tenant L g c)
    (h : Moves id c r node node') (hgrant : ∀ lease, event id c r ≠ some (.granted lease))
    {payload : Option Row} (hnode' : node' = some payload)
    (hheld : payload.any (isHeld tenant c.now) = true) :
    ∃ before, node = some before ∧ before.any (isHeld tenant c.now) = true := by
  obtain ⟨row', rfl, hrow'⟩ := (Option.any_eq_true _ _).mp hheld
  subst hnode'
  cases h with
  | @change row _ hchange => exact ⟨some row, rfl, isHeld_of_change hchange hgrant hrow'⟩
  | appears happears _ =>
    cases happears with
    | idle hidle =>
      rw [isHeld_iff, hidle.notLive] at hrow'
      cases hrow'.2.2.1
    | receipt hcall hmem =>
      subst hcall
      have hnot := hsteady id row' hmem
      exact absurd hrow' (Bool.eq_false_iff.mp hnot)

theorem held_step_le (hsteady : Steady tenant L g c)
    (hgrant : ∀ id lease, event id c (call H g c).2 ≠ some (.granted lease)) :
    held (step H g c) tenant c.now ≤ held g tenant c.now :=
  Table.count_le_of_get fun id _ hget hheld =>
    held_of_moves hsteady (moves_call H g c id) (hgrant id) hget hheld

theorem event_granted {lease : Lease} (h : event id c r = some (.granted lease)) :
    ∃ request result grant, c = .claim request ∧
      r = .claimed result ∧ result.grant = some grant ∧ grant.workItemId = id := by
  unfold event at h
  split at h
  · rename_i request result
    unfold claimEvent at h
    split at h
    · rename_i grant hgrant
      by_cases hid : grant.workItemId = id
      · exact ⟨request, result, grant, rfl, rfl, hgrant, hid⟩
      · rw [if_neg hid] at h
        split_ifs at h
        cases h
    · split_ifs at h
      cases h
  · split_ifs at h
    cases h
  · split_ifs at h
    cases h
  · split_ifs at h
    cases h
  · cases h

theorem validateClaim_limit (h : validateClaim request = .ok ()) :
    request.maxTenantInFlight ≤ 4096 := by
  unfold validateClaim at h
  rw [rejectIf_eq_ok] at h
  by_contra hlimit
  exact h (.inr (.inr (.inr fun hrange => hlimit hrange.2)))

theorem held_claimed (hsteady : Steady tenant L g (.claim request)) {result : Claimed}
    (hresult : (call H g (.claim request)).2 = .claimed result) {grant : Grant}
    (hgrant : result.grant = some grant) :
    held (step H g (.claim request)) tenant request.now ≤ held g tenant request.now + 1 := by
  refine Table.count_le_succ_of_get grant.workItemId fun id payload hid hget hheld => ?_
  refine held_of_moves hsteady (moves_call H g (.claim request) id) (fun lease hevent => ?_) hget
    hheld
  obtain ⟨_, _, other, _, hr, hother, rfl⟩ := event_granted hevent
  rw [hresult] at hr
  cases hr
  rw [hgrant] at hother
  cases hother
  exact hid rfl

theorem granted_of_event (h : Moves id c r node node')
    {lease : Lease} (hevent : event id c r = some (.granted lease)) :
    node = some none ∨ ∃ request row row', c = .claim request ∧ node' = some (some row') ∧
      Granted request row row' lease := by
  have hsilent : event id c r ≠ none := by rw [hevent]; exact nofun
  have hended : event id c r ≠ some .ended := by rw [hevent]; exact nofun
  cases h with
  | blank => exact .inl rfl
  | @change row row' hchange =>
    cases hchange with
    | granted hcall hgranted happened =>
      rw [hevent] at happened
      cases happened
      exact .inr ⟨_, row, row', hcall, rfl, hgranted⟩
    | quiet _ silent => exact absurd silent hsilent
    | head _ _ _ silent => exact absurd silent hsilent
    | renewed _ _ _ _ silent => exact absurd silent hsilent
    | retired _ _ happened => exact absurd happened hended
    | settled _ _ _ _ happened => exact absurd happened hended
    | cancelled _ _ _ happened => exact absurd happened hended
    | deferred _ _ _ _ happened => exact absurd happened hended
  | appears _ silent => exact absurd silent hsilent

theorem held_other (hsteady : Steady tenant L g (.claim request))
    (hother : request.tenantRef ≠ tenant) :
    held (step H g (.claim request)) tenant request.now ≤ held g tenant request.now := by
  refine Table.count_le_of_get fun id payload hget hheld => ?_
  have hmoves := moves_call H g (.claim request) id
  refine held_of_moves hsteady hmoves (fun lease hevent => ?_) hget hheld
  rcases granted_of_event hmoves hevent with hblank | ⟨_, row, row', hcall, hget', hgranted⟩
  · rw [hblank, hget] at hmoves
    cases hmoves
    cases hheld
  · cases hcall
    rw [hget] at hget'
    cases hget'
    have htenant : row'.tenant = tenant := (isHeld_iff.mp hheld).2.1
    exact hother (by rw [← hgranted.scanned.2, ← hgranted.kept.2.1, htenant])

theorem room_of_granted {result : Claimed}
    (hresult : (call H g (.claim request)).2 = .claimed result) {grant : Grant}
    (hgrant : result.grant = some grant) :
    inFlight g request.tenantRef request.now < request.maxTenantInFlight := by
  unfold call at hresult
  split at hresult
  · rename_i g' r happly
    obtain ⟨⟨g₁, result₁⟩, hclaim, happly⟩ := unbind happly
    cases happly
    cases hresult
    obtain ⟨_, hvalid, _⟩ := unbind hclaim
    have hlimit := validateClaim_limit hvalid
    obtain ⟨scan, hscan, hended⟩ := claimWorkItem_ok hclaim
    cases hended with
    | quota => cases hgrant
    | empty => cases hgrant
    | granted room =>
      rw [inflight_scan hscan] at room
      have hu32 : 4096 < u32Max := by decide
      omega
  · cases hresult

/-- **A steady call keeps the quota.** -/
theorem held_step (hsteady : Steady tenant L g c) (hheld : held g tenant c.now ≤ L) :
    held (step H g c) tenant c.now ≤ L := by
  by_cases hnone : ∀ id lease, event id c (call H g c).2 ≠ some (.granted lease)
  · exact (held_step_le hsteady hnone).trans hheld
  · simp only [not_forall, not_not] at hnone
    obtain ⟨id, lease, hevent⟩ := hnone
    obtain ⟨request, result, grant, rfl, hresult, hgrant, -⟩ := event_granted hevent
    by_cases htenant : request.tenantRef = tenant
    · obtain ⟨hlimit, hroom⟩ := hsteady htenant
      have hflight := room_of_granted hresult hgrant
      rw [htenant] at hflight
      have hafter := held_claimed hsteady hresult hgrant
      change held (step H g (.claim request)) tenant request.now ≤ L
      omega
    · exact (held_other hsteady htenant).trans hheld

/-! ### Runs -/

/-- The clocks of a run never go back, from a first moment on. -/
def Ordered (start : ℕ) (cs : List Call) : Prop := List.IsChain (· ≤ ·) (start :: cs.map Call.now)

def lastMoment (start : ℕ) (cs : List Call) : ℕ := ((cs.map Call.now).getLast?).getD start

/-- **The tenant's quota holds** at every moment of every run of steady calls whose clocks never go
back: at most `L` of its WorkItems hold a lease that a renewal or a commit would accept. -/
theorem quota_held (H : Digests) {tenant : String} {L : ℕ} : ∀ {cs : List Call} {g : Graph}
    {start : ℕ}, Ordered start cs → Transaction.Along (step H) (Steady tenant L) g cs →
      held g tenant start ≤ L → ∀ now, lastMoment start cs ≤ now → held (run H g cs) tenant now ≤ L
  | [], g, start, _, _, hheld, now, hnow => (held_antitone g tenant hnow).trans hheld
  | c :: cs, g, start, hordered, halong, hheld, now, hnow => by
    obtain ⟨hstart, hrest⟩ := List.isChain_cons_cons.mp hordered
    have hbefore : held g tenant c.now ≤ L := (held_antitone g tenant hstart).trans hheld
    refine quota_held H hrest halong.2 (held_step halong.1 hbefore) now ?_
    unfold lastMoment at hnow ⊢
    rw [List.map_cons, List.getLast?_cons] at hnow
    exact hnow

/-! ### A quota of one -/

def twoReady : Graph :=
  ⟨"g", Table.ofPairs [("a", some { nodeType := "WorkItem", tenant := "t", status := .ready }),
    ("b", some { nodeType := "WorkItem", tenant := "t", status := .ready })], 0⟩

/-- A claim of one item for ten milliseconds under a quota of one. -/
def claimAt (id : String) (now : ℕ) : Call := .claim ⟨"t", some id, none, none, none, "w", now, 10, 1⟩

/-- The second claim comes after the first lease has lapsed. -/
theorem quota_held_apart : Ordered 0 [claimAt "a" 2, claimAt "b" 13] ∧
      Transaction.Along (step plainDigests) (Steady "t" 1) twoReady [claimAt "a" 2, claimAt "b" 13] ∧
      held (run plainDigests twoReady [claimAt "a" 2, claimAt "b" 13]) "t" 13 ≤ 1 := by
  have hordered : Ordered 0 [claimAt "a" 2, claimAt "b" 13] := by
    unfold Ordered
    decide
  have halong : Transaction.Along (step plainDigests) (Steady "t" 1) twoReady
      [claimAt "a" 2, claimAt "b" 13] := by
    refine ⟨fun _ => ⟨rfl, fun _ => ?_⟩, fun _ => ⟨rfl, fun _ => ?_⟩, trivial⟩
    · decide +kernel
    · decide +kernel
  refine ⟨hordered, halong, ?_⟩
  exact quota_held plainDigests hordered halong (by decide +kernel) 13 (by decide +kernel)

/-- A claim at the very moment another lease expires is granted over the quota, and both leases are
accepted at that moment. -/
theorem quota_exceeded_at_expiry : Ordered 0 [claimAt "a" 2, claimAt "b" 12] ∧
      held twoReady "t" 0 ≤ 1 ∧
      ¬ held (run plainDigests twoReady [claimAt "a" 2, claimAt "b" 12]) "t" 12 ≤ 1 ∧
      (call plainDigests (run plainDigests twoReady [claimAt "a" 2, claimAt "b" 12])
        (.renew ⟨⟨"t", "a", ⟨"w", 1, 1⟩⟩, 12, 10⟩)).2 = .renewed .renewed ∧
      (call plainDigests (run plainDigests twoReady [claimAt "a" 2, claimAt "b" 12])
        (.renew ⟨⟨"t", "b", ⟨"w", 1, 1⟩⟩, 12, 10⟩)).2 = .renewed .renewed := by
  unfold Ordered
  decide

end Medulla.WorkItem.Quota
