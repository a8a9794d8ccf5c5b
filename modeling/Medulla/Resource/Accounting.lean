import Medulla.Resource.Effects
import Medulla.Resource.Machine

/-! # The accounting is exact

What every table says is computed from the reservations that are still reserved: a hold on a host is a
sum over them, a counter is a number of them, and a key has an owner among them.

* every run: `resource_accounting_exact`. -/

namespace Medulla.Resource.Accounting

open Library Library.Checked Library.OrderedTable Library.Tally WorkItem.Rows Requests
open Extension Admission Lifecycle Effects Machine

variable {name : String} {l : Ledger} {request : HostUpdateRequest} {host : DurableHost}
  {result : ReservationResult} {l' : Ledger}

/-! ### Counters -/

section
variable {K : Type} [LinearOrder K]

theorem readCount_putCount (t : Table K ℕ) (k j : K) (n : ℕ) :
    readCount (putCount t k n) j = if j = k then n else readCount t j := by
  unfold readCount putCount
  split_ifs with hn hj hj
  · rw [hj, Table.get_remove_self, hn]
    rfl
  · rw [Table.get_remove_of_ne t hj]
  · rw [hj, Table.get_insert_self]
    rfl
  · rw [Table.get_insert_of_ne t n hj]

theorem raise_ok {t t' : Table K ℕ} {k : K} (h : raise name t k = .ok t') (j : K) :
    readCount t' j = readCount t j + if j = k then 1 else 0 := by
  obtain ⟨next, hnext, h⟩ := unbind h
  cases h
  rw [okOr_eq_ok, checkedAdd_eq_some] at hnext
  rw [readCount_putCount, ← hnext.1]
  split_ifs with hj
  · rw [hj]
  · rfl

theorem lower_ok {t t' : Table K ℕ} {k : K} (h : lower name t k = .ok t') (j : K) :
    readCount t' j + (if j = k then 1 else 0) = readCount t j := by
  obtain ⟨next, hnext, h⟩ := unbind h
  cases h
  rw [okOr_eq_ok, checkedSub_eq_some] at hnext
  rw [readCount_putCount]
  split_ifs with hj
  · rw [hj]
    omega
  · rfl

theorem lower_of_pos (name : String) {t : Table K ℕ} {k : K} (h : 0 < readCount t k) :
    ∃ t', lower name t k = .ok t' := by
  refine ⟨putCount t k (readCount t k - 1), bind_eq_ok.mpr ⟨readCount t k - 1, ?_, rfl⟩⟩
  rw [okOr_eq_ok, checkedSub_eq_some]
  exact ⟨h, rfl⟩

def occurrences (key : K) : List K → ℕ
  | [] => 0
  | k :: rest => (if key = k then 1 else 0) + occurrences key rest

theorem raiseAll_ok : ∀ {keys : List K} {t t' : Table K ℕ},
    adjustAll (raise name) keys t = .ok t' → ∀ j, readCount t' j = readCount t j + occurrences j keys
  | [], _, _, h, j => by
    cases h
    rfl
  | k :: rest, t, t', h, j => by
    obtain ⟨mid, hmid, h⟩ := unbind h
    rw [raiseAll_ok h j, raise_ok hmid j, occurrences]
    omega

theorem lowerAll_ok : ∀ {keys : List K} {t t' : Table K ℕ},
    adjustAll (lower name) keys t = .ok t' → ∀ j, readCount t' j + occurrences j keys = readCount t j
  | [], _, _, h, j => by
    cases h
    rfl
  | k :: rest, t, t', h, j => by
    obtain ⟨mid, hmid, h⟩ := unbind h
    have hrest := lowerAll_ok h j
    have hfirst := lower_ok hmid j
    rw [occurrences]
    omega

theorem lowerAll_of_le (name : String) : ∀ {keys : List K} {t : Table K ℕ},
    (∀ j, occurrences j keys ≤ readCount t j) → ∃ t', adjustAll (lower name) keys t = .ok t'
  | [], t, _ => ⟨t, rfl⟩
  | k :: rest, t, h => by
    have hpos : 0 < readCount t k := by
      have hk := h k
      rw [occurrences, if_pos rfl] at hk
      omega
    obtain ⟨mid, hmid⟩ := lower_of_pos name hpos
    have hrest : ∀ j, occurrences j rest ≤ readCount mid j := by
      intro j
      have hj := h j
      have hlower := lower_ok hmid j
      rw [occurrences] at hj
      omega
    obtain ⟨t', ht'⟩ := lowerAll_of_le name hrest
    exact ⟨t', bind_eq_ok.mpr ⟨mid, hmid, ht'⟩⟩

end

/-! ### Keys -/

theorem get_takeKeys {id key : String} : ∀ {keys : List String} {t : Table String String},
    (takeKeys id keys t).get key = if key ∈ keys then some id else t.get key
  | [], t => by
    rfl
  | k :: rest, t => by
    rw [takeKeys, get_takeKeys]
    by_cases hrest : key ∈ rest
    · rw [if_pos hrest, if_pos (List.mem_cons_of_mem _ hrest)]
    · rw [if_neg hrest, Table.get_insert]
      by_cases hk : key = k
      · rw [if_pos hk, if_pos (hk ▸ List.mem_cons_self)]
      · rw [if_neg hk, if_neg fun hmem => (List.mem_cons.mp hmem).elim hk hrest]

theorem get_releaseKeys {id key : String} : ∀ {keys : List String} {t : Table String String},
    (releaseKeys id keys t).get key = if key ∈ keys ∧ t.get key = some id then none else t.get key
  | [], t => by
    rw [if_neg fun h => List.not_mem_nil h.1]
    rfl
  | k :: rest, t => by
    rw [releaseKeys, get_releaseKeys]
    by_cases hk : key = k
    · subst hk
      by_cases hown : t.get key = some id
      · rw [if_pos hown, Table.get_remove_self, ite_self]
        exact (if_pos ⟨.head _, hown⟩).symm
      · rw [if_neg hown, if_neg fun h => hown h.2, if_neg fun h => hown h.2]
    · have hget : (if t.get k = some id then t.remove k else t).get key = t.get key := by
        split_ifs
        · exact Table.get_remove_of_ne t hk
        · rfl
      simp only [hget, List.mem_cons, hk, false_or]

/-! ### What is reserved -/

/-- What a row counts for: its terms while it is reserved, nothing after. -/
def charge (f : Terms → ℕ) (stored : DurableReservation) : ℕ :=
  if stored.record.state = .reserved then f stored.record.toTerms else 0

def charged (reservations : Table String DurableReservation) (f : Terms → ℕ) : ℕ :=
  total (fun _ stored => charge f stored) reservations

section
variable {t : Table String DurableReservation} {id : String} {stored next : DurableReservation}
  {f : Terms → ℕ}

theorem charge_reserved (h : stored.record.state = .reserved) :
    charge f stored = f stored.record.toTerms := if_pos h

theorem charge_ended (h : stored.record.state ≠ .reserved) : charge f stored = 0 := if_neg h

theorem charged_insert (h : t.get id = none) (hnext : next.record.state = .reserved) :
    charged (t.insert id next) f = charged t f + f next.record.toTerms := by
  unfold charged
  rw [total_insert h, charge_reserved hnext]
  exact Nat.add_comm _ _

section
variable (h : t.get id = some stored) (hstored : stored.record.state = .reserved)
include h hstored

theorem charged_release (hnext : next.record.state ≠ .reserved) :
    charged (t.insert id next) f + f stored.record.toTerms = charged t f := by
  have hreplace := total_replace (f := fun _ row => charge f row) (w := next) h
  rw [charge_reserved hstored, charge_ended hnext] at hreplace
  unfold charged
  omega

theorem le_charged : f stored.record.toTerms ≤ charged t f := by
  have hremove := total_remove (f := fun _ row => charge f row) h
  rw [charge_reserved hstored] at hremove
  unfold charged
  omega

end

theorem charged_congr {g : Terms → ℕ} (h : ∀ id stored, t.get id = some stored →
    f stored.record.toTerms = g stored.record.toTerms) : charged t f = charged t g := by
  refine total_congr fun id stored hstored => ?_
  unfold charge
  rw [h id stored hstored]

theorem charged_eq_zero (h : ∀ id stored, t.get id = some stored →
    stored.record.state = .reserved → f stored.record.toTerms = 0) : charged t f = 0 := by
  refine List.sum_eq_zero fun n hn => ?_
  obtain ⟨⟨id, stored⟩, hrow, rfl⟩ := List.mem_map.mp hn
  by_cases hstored : stored.record.state = .reserved
  · exact (charge_reserved hstored).trans (h id stored (Table.mem_rows.mp hrow) hstored)
  · exact charge_ended hstored

end

/-! ### The invariant -/

def holdOn (host : String) (d : Dimension) (terms : Terms) : ℕ :=
  if terms.hostRef = host then terms.requirement.get d else 0

def concurrencyOf (key : String) (terms : Terms) : ℕ :=
  if resourceConcurrencyScopeKey terms.concurrencyKey = key then 1 else 0

def affinityOf (key : String ×ₗ String) (terms : Terms) : ℕ := occurrences key (affinityKeys terms)

structure Accounted (l : Ledger) : Prop where
  hostKey : ∀ k host, l.hosts.get k = some host → host.hostRef = k
  rowKey : ∀ id stored, l.reservations.get id = some stored → stored.record.reservationId = id
  valid : ∀ id stored, l.reservations.get id = some stored → ∃ request : ReservationRequest,
    request.toTerms = stored.record.toTerms ∧ resourceValidateRequest request = .ok ()
  amount : ∀ id stored, l.reservations.get id = some stored → stored.record.state = .reserved →
    stored.held = stored.record.requirement
  onHost : ∀ id stored, l.reservations.get id = some stored →
    ∃ host, l.hosts.get stored.record.hostRef = some host
  held : ∀ k host, l.hosts.get k = some host → ∀ d,
    host.held.get d = charged l.reservations (holdOn k d)
  capacity : ∀ k host, l.hosts.get k = some host → ∀ d,
    host.observed.get d + host.held.get d ≤ host.capacity.get d
  disk : ∀ k host, l.hosts.get k = some host →
    host.diskUsedMib + host.held.diskMib ≤ host.diskCapacityMib
  concurrency : ∀ key, readCount l.concurrency key = charged l.reservations (concurrencyOf key)
  antiAffinity : ∀ key, readCount l.antiAffinity key = charged l.reservations (affinityOf key)
  owner : ∀ key id, l.exclusivity.get key = some id ↔ ∃ stored,
    l.reservations.get id = some stored ∧ stored.record.state = .reserved ∧
      key ∈ resourceExclusivityKeys stored.record.toTerms
  attempt : ∀ id stored, l.reservations.get id = some stored →
    l.attempts.get (toLex (stored.record.workItemId, stored.record.attempt)) = some id

theorem Accounted.of_tables (h : Accounted l) (hhosts : l'.hosts = l.hosts)
    (hreservations : l'.reservations = l.reservations) (hattempts : l'.attempts = l.attempts)
    (hexclusivity : l'.exclusivity = l.exclusivity) (hconcurrency : l'.concurrency = l.concurrency)
    (haffinity : l'.antiAffinity = l.antiAffinity) : Accounted l' := by
  constructor
  · rw [hhosts]
    exact h.hostKey
  · rw [hreservations]
    exact h.rowKey
  · rw [hreservations]
    exact h.valid
  · rw [hreservations]
    exact h.amount
  · rw [hreservations, hhosts]
    exact h.onHost
  · rw [hreservations, hhosts]
    exact h.held
  · rw [hhosts]
    exact h.capacity
  · rw [hhosts]
    exact h.disk
  · rw [hreservations, hconcurrency]
    exact h.concurrency
  · rw [hreservations, haffinity]
    exact h.antiAffinity
  · rw [hreservations, hexclusivity]
    exact h.owner
  · rw [hreservations, hattempts]
    exact h.attempt

theorem accounted_fresh (items : Graph) : Accounted (Ledger.fresh items) where
  hostKey _ _ h := by cases h
  rowKey _ _ h := by cases h
  valid _ _ h := by cases h
  amount _ _ h := by cases h
  onHost _ _ h := by cases h
  held _ _ h := by cases h
  capacity _ _ h := by cases h
  disk _ _ h := by cases h
  concurrency _ := rfl
  antiAffinity _ := rfl
  owner _ _ := ⟨nofun, fun ⟨_, h, _⟩ => nomatch h⟩
  attempt _ _ h := by cases h

/-! ### Host updates -/

theorem fits_iff {a b bound : ℕ} : fits a b bound = true ↔ a + b ≤ bound ∧ a + b ≤ u64Max := by
  unfold fits
  constructor
  · intro h
    obtain ⟨sum, hsum, hle⟩ := (Option.any_eq_true _ _).mp h
    rw [checkedAdd_eq_some] at hsum
    have := of_decide_eq_true hle
    omega
  · rintro ⟨h1, h2⟩
    simp [checkedAdd, h1, h2]

/-- The telemetry of an accepted update leaves room for what is held. -/
def Covers (request : HostUpdateRequest) (held : Amounts) : Prop :=
  (∀ d, request.observed.get d + held.get d ≤ request.capacity.get d) ∧
    request.diskUsedMib + held.diskMib ≤ request.diskCapacityMib

theorem covers_of_fits (h : resourceHostUpdateExceedsCapacity request host = false) :
    Covers request host.held := by
  unfold resourceHostUpdateExceedsCapacity at h
  simp only [Bool.or_eq_false_iff, Bool.not_eq_false', fits_iff] at h
  obtain ⟨⟨⟨⟨hcpu, hmemory⟩, hdisk⟩, hused⟩, hslots⟩ := h
  refine ⟨fun d => ?_, hused.1⟩
  cases d
  · exact hcpu.1
  · exact hmemory.1
  · exact hdisk.1
  · exact hslots.1

theorem covers_of_valid (h : validateResourceHostUpdateRequest request = .ok ()) :
    Covers request {} := by
  simp only [validateResourceHostUpdateRequest, validateResourceHostUpdateTelemetryBounds,
    check_eq_ok, rejectIf_eq_ok, not_or, resourceHostDiskBoundsViolated,
    resourceHostObservedBoundsViolated, Bool.or_eq_true, decide_eq_true_eq] at h
  obtain ⟨-, -, -, -, ⟨⟨⟨hused, -⟩, -⟩, -⟩,
    ⟨⟨⟨⟨⟨⟨⟨hcpu, hmemory⟩, hdisk⟩, hslots⟩, -⟩, -⟩, -⟩, -⟩, -⟩ := h
  refine ⟨fun d => ?_, not_lt.mp hused⟩
  cases d
  · exact not_lt.mp hcpu
  · exact not_lt.mp hmemory
  · exact not_lt.mp hdisk
  · exact not_lt.mp hslots

def updatedHosts (request : HostUpdateRequest) (l : Ledger) : Table String DurableHost :=
  l.hosts.insert request.hostRef (buildResourceHostFromUpdate request (l.hosts.get request.hostRef))

theorem get_updatedHosts {k : String} (h : (updatedHosts request l).get k = some host) :
    (k = request.hostRef ∧
        host = buildResourceHostFromUpdate request (l.hosts.get request.hostRef)) ∨
      l.hosts.get k = some host := by
  unfold updatedHosts at h
  rw [Table.get_insert] at h
  split_ifs at h with heq
  · exact .inl ⟨heq, (Option.some.inj h).symm⟩
  · exact .inr h

theorem applyUpdateResourceHost_ok {result : HostUpdateResult}
    (h : applyUpdateResourceHost request l = .ok (l', result)) :
    l' = l ∨ (Covers request (((l.hosts.get request.hostRef).map DurableHost.held).getD {}) ∧
      l' = { l with hosts := updatedHosts request l }) := by
  obtain ⟨_, hvalid, h⟩ := unbind h
  obtain ⟨policies, -, h⟩ := unbind h
  dsimp only at h
  split at h
  · rename_i hnone
    cases h
    refine .inr ⟨?_, rfl⟩
    rw [hnone]
    exact covers_of_valid hvalid
  · rename_i host hhost
    split at h
    · cases h
      exact .inl rfl
    · rename_i hconflicts
      cases h
      refine .inr ⟨?_, rfl⟩
      unfold checkResourceHostUpdateConflicts at hconflicts
      split_ifs at hconflicts with h1 h2 h3
      rw [hhost]
      exact covers_of_fits (Bool.eq_false_iff.mpr h3)

theorem accounted_update {result : HostUpdateResult} (hl : Accounted l)
    (h : applyUpdateResourceHost request l = .ok (l', result)) : Accounted l' := by
  rcases applyUpdateResourceHost_ok h with rfl | ⟨⟨hcapacity, hdisk⟩, rfl⟩
  · exact hl
  refine { hl with
    hostKey := fun k host hk => ?_, onHost := fun id stored hstored => ?_
    held := fun k host hk d => ?_, capacity := fun k host hk d => ?_, disk := fun k host hk => ?_ }
  · rcases get_updatedHosts hk with ⟨rfl, rfl⟩ | hk
    · rfl
    · exact hl.hostKey k host hk
  · obtain ⟨host, hhost⟩ := hl.onHost id stored hstored
    by_cases heq : stored.record.hostRef = request.hostRef
    · rw [heq]
      exact ⟨_, Table.get_insert_self _ _ _⟩
    · exact ⟨host, (Table.get_insert_of_ne _ _ heq).trans hhost⟩
  · rcases get_updatedHosts hk with ⟨rfl, rfl⟩ | hk
    · change (((l.hosts.get request.hostRef).map DurableHost.held).getD {}).get d = _
      cases hcurrent : l.hosts.get request.hostRef with
      | some current => exact hl.held request.hostRef current hcurrent d
      | none =>
        refine ((charged_eq_zero fun id stored hstored _ => if_neg fun heq => ?_).trans ?_).symm
        · obtain ⟨host, hhost⟩ := hl.onHost id stored hstored
          rw [heq, hcurrent] at hhost
          cases hhost
        · cases d <;> rfl
    · exact hl.held k host hk d
  · rcases get_updatedHosts hk with ⟨rfl, rfl⟩ | hk
    · exact hcapacity d
    · exact hl.capacity k host hk d
  · rcases get_updatedHosts hk with ⟨rfl, rfl⟩ | hk
    · exact hdisk
    · exact hl.disk k host hk

/-! ### Rows that are written -/

theorem get_insert_cases {K V : Type} [LinearOrder K] {t : Table K V} {k key : K} {v w : V}
    (h : (t.insert k v).get key = some w) : (key = k ∧ w = v) ∨ (key ≠ k ∧ t.get key = some w) := by
  rw [Table.get_insert] at h
  split_ifs at h with heq
  · exact .inl ⟨heq, (Option.some.inj h).symm⟩
  · exact .inr ⟨heq, h⟩

structure Writes (id : String) (next : DurableReservation) (host : DurableHost) (held : Amounts)
    (l l' : Ledger) : Prop where
  rowKey : next.record.reservationId = id
  hostKey : next.record.hostRef = host.hostRef
  valid : ∃ request : ReservationRequest,
    request.toTerms = next.record.toTerms ∧ resourceValidateRequest request = .ok ()
  amount : next.record.state = .reserved → next.held = next.record.requirement
  found : l.hosts.get host.hostRef = some host
  capacity : ∀ d, host.observed.get d + held.get d ≤ host.capacity.get d
  disk : host.diskUsedMib + held.diskMib ≤ host.diskCapacityMib
  holds : ∀ d, held.get d = charged l'.reservations (holdOn host.hostRef d)
  others : ∀ k d, k ≠ host.hostRef →
    charged l'.reservations (holdOn k d) = charged l.reservations (holdOn k d)
  hosts : l'.hosts = l.hosts.insert host.hostRef (host.withHeld held)
  reservations : l'.reservations = l.reservations.insert id next

section
variable {id : String} {next : DurableReservation} {held : Amounts} {l' : Ledger}

theorem Writes.row (h : Writes id next host held l l') {key : String} {stored : DurableReservation}
    (hstored : l'.reservations.get key = some stored) :
    (key = id ∧ stored = next) ∨ (key ≠ id ∧ l.reservations.get key = some stored) := by
  rw [h.reservations] at hstored
  exact get_insert_cases hstored

theorem Writes.hostRow (h : Writes id next host held l l') {k : String} {row : DurableHost}
    (hrow : l'.hosts.get k = some row) :
    (k = host.hostRef ∧ row = host.withHeld held) ∨
      (k ≠ host.hostRef ∧ l.hosts.get k = some row) := by
  rw [h.hosts] at hrow
  exact get_insert_cases hrow

theorem Writes.accounted (hl : Accounted l) (h : Writes id next host held l l')
    (hconcurrency : ∀ key, readCount l'.concurrency key =
      charged l'.reservations (concurrencyOf key))
    (haffinity : ∀ key, readCount l'.antiAffinity key = charged l'.reservations (affinityOf key))
    (howner : ∀ key id, l'.exclusivity.get key = some id ↔ ∃ stored,
      l'.reservations.get id = some stored ∧ stored.record.state = .reserved ∧
        key ∈ resourceExclusivityKeys stored.record.toTerms)
    (hattempt : ∀ id stored, l'.reservations.get id = some stored →
      l'.attempts.get (toLex (stored.record.workItemId, stored.record.attempt)) = some id) :
    Accounted l' := by
  refine ⟨?_, ?_, ?_, ?_, ?_, ?_, ?_, ?_, hconcurrency, haffinity, howner, hattempt⟩
  · intro k row hrow
    rcases h.hostRow hrow with ⟨rfl, rfl⟩ | ⟨-, hrow⟩
    · rfl
    · exact hl.hostKey k row hrow
  · intro key stored hstored
    rcases h.row hstored with ⟨rfl, rfl⟩ | ⟨-, hstored⟩
    · exact h.rowKey
    · exact hl.rowKey key stored hstored
  · intro key stored hstored
    rcases h.row hstored with ⟨rfl, rfl⟩ | ⟨-, hstored⟩
    · exact h.valid
    · exact hl.valid key stored hstored
  · intro key stored hstored hreserved
    rcases h.row hstored with ⟨rfl, rfl⟩ | ⟨-, hstored⟩
    · exact h.amount hreserved
    · exact hl.amount key stored hstored hreserved
  · intro key stored hstored
    rw [h.hosts]
    by_cases heq : stored.record.hostRef = host.hostRef
    · rw [heq]
      exact ⟨_, Table.get_insert_self _ _ _⟩
    · rcases h.row hstored with ⟨rfl, rfl⟩ | ⟨-, hstored⟩
      · exact absurd h.hostKey heq
      · obtain ⟨row, hrow⟩ := hl.onHost key stored hstored
        exact ⟨row, (Table.get_insert_of_ne _ _ heq).trans hrow⟩
  · intro k row hrow d
    rcases h.hostRow hrow with ⟨rfl, rfl⟩ | ⟨hne, hrow⟩
    · exact h.holds d
    · rw [h.others k d hne]
      exact hl.held k row hrow d
  · intro k row hrow d
    rcases h.hostRow hrow with ⟨rfl, rfl⟩ | ⟨-, hrow⟩
    · exact h.capacity d
    · exact hl.capacity k row hrow d
  · intro k row hrow
    rcases h.hostRow hrow with ⟨rfl, rfl⟩ | ⟨-, hrow⟩
    · exact h.disk
    · exact hl.disk k row hrow

end

/-! ### Reservations -/

structure Charges (request : ReservationRequest) (host : DurableHost) (l l' : Ledger) : Prop where
  stored : ∃ debt snapshot, l'.reservations = l.reservations.insert request.reservationId
    ⟨resourceBuildRecord request snapshot, request.requirement, debt⟩
  hosts : ∃ held, (∀ d, held.get d = host.held.get d + request.requirement.get d) ∧
    l'.hosts = l.hosts.insert host.hostRef (host.withHeld held)
  attempts : l'.attempts =
    l.attempts.insert (toLex (request.workItemId, request.attempt)) request.reservationId
  exclusivity : l'.exclusivity =
    takeKeys request.reservationId (resourceExclusivityKeys request.toTerms) l.exclusivity
  concurrency : ∀ key, readCount l'.concurrency key =
    readCount l.concurrency key + concurrencyOf key request.toTerms
  antiAffinity : ∀ key, readCount l'.antiAffinity key =
    readCount l.antiAffinity key + affinityOf key request.toTerms
  items : l'.items = l.items

theorem charges_of_commit {request : ReservationRequest}
    (h : resourceCommitReserveAdmission request host l = .ok (l', result)) :
    Charges request host l l' := by
  obtain ⟨debt, -, h⟩ := unbind h
  obtain ⟨held, hheld, h⟩ := unbind h
  obtain ⟨concurrency, hconcurrency, h⟩ := unbind h
  obtain ⟨antiAffinity, haffinity, h⟩ := unbind h
  cases h
  refine ⟨⟨debt, _, rfl⟩, ⟨held, Amounts.checkedAddAll_eq_ok hheld, rfl⟩, rfl, rfl, fun key => ?_,
    fun key => raiseAll_ok haffinity key, rfl⟩
  refine (raise_ok hconcurrency key).trans ?_
  unfold concurrencyOf
  simp only [eq_comm]

section
variable {codecs : Codecs} {request : ReservationRequest} {l' : Ledger}

section
variable (hl : Accounted l) (hadmitted : Admitted codecs request host l)
  (hcharges : Charges request host l l')
include hl hadmitted hcharges

theorem owner_reserve (key id : String) :
    l'.exclusivity.get key = some id ↔ ∃ stored, l'.reservations.get id = some stored ∧
      stored.record.state = .reserved ∧
      key ∈ resourceExclusivityKeys stored.record.toTerms := by
  obtain ⟨debt, snapshot, hreservations⟩ := hcharges.stored
  rw [hcharges.exclusivity, get_takeKeys, hreservations]
  by_cases hmem : key ∈ resourceExclusivityKeys request.toTerms
  · rw [if_pos hmem]
    constructor
    · intro hid
      cases hid
      exact ⟨_, Table.get_insert_self _ _ _, rfl, hmem⟩
    · rintro ⟨stored, hstored, hreserved, hkeys⟩
      rcases get_insert_cases hstored with ⟨rfl, -⟩ | ⟨-, hstored⟩
      · rfl
      · have howned := (hl.owner key id).mpr ⟨stored, hstored, hreserved, hkeys⟩
        rw [hadmitted.exclusive key hmem] at howned
        cases howned
  · rw [if_neg hmem, hl.owner]
    constructor
    · rintro ⟨stored, hstored, hreserved, hkeys⟩
      refine ⟨stored, ?_, hreserved, hkeys⟩
      rw [Table.get_insert_of_ne]
      · exact hstored
      · rintro rfl
        rw [hadmitted.absent] at hstored
        cases hstored
    · rintro ⟨stored, hstored, hreserved, hkeys⟩
      rcases get_insert_cases hstored with ⟨rfl, rfl⟩ | ⟨-, hstored⟩
      · exact absurd hkeys hmem
      · exact ⟨stored, hstored, hreserved, hkeys⟩

theorem attempt_reserve (id : String) (stored : DurableReservation)
    (hstored : l'.reservations.get id = some stored) :
    l'.attempts.get (toLex (stored.record.workItemId, stored.record.attempt)) = some id := by
  obtain ⟨debt, snapshot, hreservations⟩ := hcharges.stored
  rw [hreservations] at hstored
  rw [hcharges.attempts]
  rcases get_insert_cases hstored with ⟨rfl, rfl⟩ | ⟨-, hstored⟩
  · exact Table.get_insert_self _ _ _
  · have hattempt := hl.attempt id stored hstored
    rw [Table.get_insert_of_ne]
    · exact hattempt
    · intro heq
      rw [heq, hadmitted.winner] at hattempt
      cases hattempt

theorem accounted_reserve : Accounted l' := by
  obtain ⟨debt, snapshot, hreservations⟩ := hcharges.stored
  obtain ⟨held, hheld, hhosts⟩ := hcharges.hosts
  have hkey : host.hostRef = request.hostRef := hl.hostKey _ _ hadmitted.found
  have hcharged : ∀ f, charged l'.reservations f = charged l.reservations f + f request.toTerms := by
    intro f
    rw [hreservations]
    exact charged_insert hadmitted.absent rfl
  have hwrites : Writes request.reservationId
      ⟨resourceBuildRecord request snapshot, request.requirement, debt⟩ host held l l' := by
    refine ⟨rfl, hkey.symm, ⟨request, rfl, hadmitted.valid⟩, fun _ => rfl, hkey ▸ hadmitted.found,
      fun d => ?_, ?_, fun d => ?_, fun k d hne => ?_, hhosts, hreservations⟩
    · have hcapacity := hadmitted.capacity d
      rw [hheld d]
      omega
    · have hdisk := hadmitted.disk
      have hsum := hheld .diskMib
      simp only [Amounts.get] at hsum
      omega
    · rw [hcharged, hheld d, hkey, ← hl.held _ _ hadmitted.found d]
      unfold holdOn
      rw [if_pos rfl]
    · rw [hcharged]
      unfold holdOn
      rw [if_neg fun heq => hne (heq.symm.trans hkey.symm)]
      rfl
  refine hwrites.accounted hl (fun key => ?_) (fun key => ?_) (owner_reserve hl hadmitted hcharges)
    (attempt_reserve hl hadmitted hcharges)
  · rw [hcharged, hcharges.concurrency, hl.concurrency]
  · rw [hcharged, hcharges.antiAffinity, hl.antiAffinity]

end

end

/-! ### Releases -/

structure Refunds (mode : Mode) (request : ReservationRequest) (stored : DurableReservation)
    (host : DurableHost) (l l' : Ledger) : Prop where
  row : ∃ fence debt, l'.reservations = l.reservations.insert stored.record.reservationId
    (resourceBuildReleasedRecord stored request mode fence debt)
  hosts : ∃ held, (∀ d, held.get d + stored.held.get d = host.held.get d) ∧
    l'.hosts = l.hosts.insert host.hostRef (host.withHeld held)
  attempts : l'.attempts = l.attempts
  exclusivity : l'.exclusivity =
    releaseKeys request.reservationId (resourceExclusivityKeys request.toTerms) l.exclusivity
  concurrency : ∀ key, readCount l'.concurrency key + concurrencyOf key request.toTerms =
    readCount l.concurrency key
  antiAffinity : ∀ key, readCount l'.antiAffinity key + affinityOf key request.toTerms =
    readCount l.antiAffinity key
  items : l'.items = l.items

theorem refunds_of_charge {mode : Mode} {request : ReservationRequest} {stored : DurableReservation}
    {fence : WorkItemFence}
    (h : releaseCharge mode request stored fence host l = .ok (l', result)) :
    Refunds mode request stored host l l' := by
  obtain ⟨held, hheld, h⟩ := unbind h
  obtain ⟨concurrency, hconcurrency, h⟩ := unbind h
  obtain ⟨antiAffinity, haffinity, h⟩ := unbind h
  cases h
  refine ⟨⟨fence, _, rfl⟩, ⟨held, Amounts.checkedSubAll_eq_ok hheld, rfl⟩, rfl, rfl, fun key => ?_,
    fun key => lowerAll_ok haffinity key, rfl⟩
  have hlower := lower_ok hconcurrency key
  unfold concurrencyOf
  simp only [eq_comm (a := resourceConcurrencyScopeKey request.concurrencyKey)]
  exact hlower

theorem endState_ne_reserved (mode : Mode) (fence : WorkItemFence) :
    endState mode fence ≠ .reserved := by
  unfold endState
  split_ifs <;> exact nofun

section
variable {mode : Mode} {request : ReservationRequest} {stored : DurableReservation} {l' : Ledger}

section
variable (hl : Accounted l) (hreleasable : Releasable request stored host l)
  (hrefunds : Refunds mode request stored host l l')
include hl hreleasable hrefunds

theorem owner_release (key id : String) :
    l'.exclusivity.get key = some id ↔ ∃ row, l'.reservations.get id = some row ∧
      row.record.state = .reserved ∧ key ∈ resourceExclusivityKeys row.record.toTerms := by
  obtain ⟨fence, debt, hreservations⟩ := hrefunds.row
  have hkey : stored.record.reservationId = request.reservationId := hl.rowKey _ _ hreleasable.found
  rw [hrefunds.exclusivity, get_releaseKeys, hreservations, hkey]
  constructor
  · intro hid
    split_ifs at hid with hreleased
    obtain ⟨row, hrow, hreserved, hkeys⟩ := (hl.owner key id).mp hid
    have hne : id ≠ request.reservationId := by
      rintro rfl
      rw [hreleasable.found] at hrow
      cases hrow
      rw [← hreleasable.terms] at hkeys
      exact hreleased ⟨hkeys, hid⟩
    exact ⟨row, (Table.get_insert_of_ne _ _ hne).trans hrow, hreserved, hkeys⟩
  · rintro ⟨row, hrow, hreserved, hkeys⟩
    rcases get_insert_cases hrow with ⟨-, rfl⟩ | ⟨hne, hrow⟩
    · exact absurd hreserved (endState_ne_reserved mode fence)
    · have howned := (hl.owner key id).mpr ⟨row, hrow, hreserved, hkeys⟩
      rw [if_neg]
      · exact howned
      · rintro ⟨-, hown⟩
        rw [howned] at hown
        exact hne (Option.some.inj hown)

theorem accounted_release : Accounted l' := by
  obtain ⟨fence, debt, hreservations⟩ := hrefunds.row
  obtain ⟨held, hheld, hhosts⟩ := hrefunds.hosts
  have hrowKey : stored.record.reservationId = request.reservationId :=
    hl.rowKey _ _ hreleasable.found
  have hkey : host.hostRef = stored.record.hostRef := hl.hostKey _ _ hreleasable.host
  have hfound : l.reservations.get stored.record.reservationId = some stored := by
    rw [hrowKey]
    exact hreleasable.found
  have hcharged : ∀ f, charged l'.reservations f + f request.toTerms = charged l.reservations f := by
    intro f
    rw [hreservations, hreleasable.terms]
    exact charged_release hfound hreleasable.reserved (endState_ne_reserved mode fence)
  have hamount : ∀ d, stored.held.get d = holdOn host.hostRef d request.toTerms := by
    intro d
    rw [hl.amount _ _ hreleasable.found hreleasable.reserved, hreleasable.terms]
    exact (if_pos hkey.symm).symm
  have hbefore : ∀ d, host.held.get d = charged l.reservations (holdOn host.hostRef d) := by
    intro d
    rw [hkey]
    exact hl.held _ _ hreleasable.host d
  have hwrites : Writes request.reservationId (resourceBuildReleasedRecord stored request mode fence
      debt) host held l l' := by
    refine ⟨hrowKey, hkey.symm, hl.valid _ stored hreleasable.found,
      fun hreserved => absurd hreserved (endState_ne_reserved mode fence), hkey ▸ hreleasable.host,
      fun d => ?_, ?_, fun d => ?_, fun k d hne => ?_, hhosts, hrowKey ▸ hreservations⟩
    · have hcapacity := hl.capacity _ _ hreleasable.host d
      have hsum := hheld d
      omega
    · have hdisk := hl.disk _ _ hreleasable.host
      have hsum := hheld .diskMib
      simp only [Amounts.get] at hsum
      omega
    · have hsum := hheld d
      have hless := hcharged (holdOn host.hostRef d)
      rw [hamount d, hbefore d] at hsum
      omega
    · have hsame := hcharged (holdOn k d)
      have hzero : holdOn k d request.toTerms = 0 := by
        rw [hreleasable.terms]
        exact if_neg fun heq => hne (heq.symm.trans hkey.symm)
      omega
  refine hwrites.accounted hl (fun key => ?_) (fun key => ?_)
    (owner_release hl hreleasable hrefunds) (fun id row hrow => ?_)
  · have hless := hcharged (concurrencyOf key)
    have hcount := hrefunds.concurrency key
    rw [hl.concurrency key] at hcount
    omega
  · have hless := hcharged (affinityOf key)
    have hcount := hrefunds.antiAffinity key
    rw [hl.antiAffinity key] at hcount
    omega
  · rw [hrefunds.attempts]
    rcases hwrites.row hrow with ⟨rfl, rfl⟩ | ⟨-, hrow⟩
    · exact hl.attempt _ stored hreleasable.found
    · exact hl.attempt id row hrow

end

end

/-! ### Runs -/

theorem accounted_step (ctx : Context) (op : Op) (hl : Accounted l) :
    Accounted (step ctx l op) := by
  cases op with
  | updateHost request =>
    unfold step
    dsimp only
    split
    · rename_i l' result h
      exact accounted_update hl h
    · exact hl
  | lifecycle mode request =>
    unfold step lifecycleCall
    dsimp only
    split
    · rename_i l' result h
      cases lifecycle_outcome h with
      | refused policies => exact hl.of_tables rfl rfl rfl rfl rfl rfl
      | reserved policies _ hadmitted hcommit =>
        have hcharges := charges_of_commit hcommit
        exact accounted_reserve hl hadmitted { hcharges with }
      | released _ hreleasable hcharge =>
        exact accounted_release hl hreleasable (refunds_of_charge hcharge)
    · exact hl
  | workItem call => exact hl.of_tables rfl rfl rfl rfl rfl rfl
  | rewrite items => exact hl.of_tables rfl rfl rfl rfl rfl rfl

theorem accounted_run (ctx : Context) (hl : Accounted l) (ops : List Op) :
    Accounted (run ctx l ops) :=
  Transaction.run_invariant (fun _ op h => accounted_step ctx op h) ops l hl

theorem decision_of_commit {request : ReservationRequest}
    (h : resourceCommitReserveAdmission request host l = .ok (l', result)) :
    result.decision = .accepted := by
  obtain ⟨debt, -, h⟩ := unbind h
  obtain ⟨held, -, h⟩ := unbind h
  obtain ⟨concurrency, -, h⟩ := unbind h
  obtain ⟨antiAffinity, -, h⟩ := unbind h
  cases h
  rfl

theorem acceptedAttempt_eq_none {ctx : Context} {mode : Mode} {request : ReservationRequest}
    (h : (lifecycleCall ctx mode request l).2.any
      (fun result => decide (result.decision = .accepted)) = false) :
    acceptedAttempt ctx l (.lifecycle mode request) = none := by
  cases mode with
  | reserve => exact if_neg (by rw [h]; exact Bool.false_ne_true)
  | release => rfl
  | reclaim => rfl

theorem attempts_step (ctx : Context) (l : Ledger) (op : Op) :
    ((step ctx l op).attempts = l.attempts ∧ acceptedAttempt ctx l op = none) ∨
      ∃ attempt id, acceptedAttempt ctx l op = some attempt ∧
        l.attempts.get (toLex attempt) = none ∧
        (step ctx l op).attempts = l.attempts.insert (toLex attempt) id := by
  cases op with
  | updateHost request =>
    refine .inl ⟨?_, rfl⟩
    unfold step
    dsimp only
    split
    · rename_i l' result h
      rcases applyUpdateResourceHost_ok h with rfl | ⟨-, rfl⟩ <;> rfl
    · rfl
  | lifecycle mode request =>
    cases happly : applyResourceReservationLifecycle ctx.codecs mode request l with
    | error message =>
      have hcall : lifecycleCall ctx mode request l = (l, none) := by
        rw [lifecycleCall, happly]
      refine .inl ⟨congrArg (fun r => r.1.attempts) hcall, ?_⟩
      exact acceptedAttempt_eq_none (by rw [hcall]; rfl)
    | ok outcome =>
      obtain ⟨l', result⟩ := outcome
      have hcall : lifecycleCall ctx mode request l = (l', some result) := by
        rw [lifecycleCall, happly]
      have hattempts : (step ctx l (.lifecycle mode request)).attempts = l'.attempts :=
        congrArg (fun r => r.1.attempts) hcall
      cases lifecycle_outcome happly with
      | refused policies hdecision =>
        refine .inl ⟨hattempts, acceptedAttempt_eq_none ?_⟩
        rw [hcall]
        exact decide_eq_false hdecision
      | reserved policies hmode hadmitted hcommit =>
        subst hmode
        refine .inr ⟨(request.workItemId, request.attempt), request.reservationId, ?_,
          hadmitted.winner, hattempts.trans (charges_of_commit hcommit).attempts⟩
        refine if_pos ?_
        rw [hcall]
        exact decide_eq_true (decision_of_commit hcommit)
      | released hmode _ hcharge =>
        refine .inl ⟨hattempts.trans (refunds_of_charge hcharge).attempts, ?_⟩
        cases mode with
        | reserve => exact absurd rfl hmode
        | release => rfl
        | reclaim => rfl
  | workItem call => exact .inl ⟨rfl, rfl⟩
  | rewrite items => exact .inl ⟨rfl, rfl⟩

theorem acceptedAttempts_fresh (ctx : Context) : ∀ (ops : List Op) (l : Ledger),
    (acceptedAttempts ctx l ops).Nodup ∧
      ∀ attempt ∈ acceptedAttempts ctx l ops, l.attempts.get (toLex attempt) = none
  | [], _ => ⟨List.nodup_nil, nofun⟩
  | op :: ops, l => by
    obtain ⟨hnodup, hfresh⟩ := acceptedAttempts_fresh ctx ops (step ctx l op)
    rw [acceptedAttempts]
    rcases attempts_step ctx l op with ⟨hsame, hnone⟩ | ⟨attempt, id, hsome, hwinner, hadded⟩
    · rw [hnone]
      rw [hsame] at hfresh
      exact ⟨hnodup, hfresh⟩
    · rw [hsome]
      rw [hadded] at hfresh
      refine ⟨List.nodup_cons.mpr ⟨fun hmem => ?_, hnodup⟩, fun other hother => ?_⟩
      · have hcontra := hfresh attempt hmem
        rw [Table.get_insert_self] at hcontra
        cases hcontra
      · rcases List.mem_cons.mp hother with rfl | hother
        · exact hwinner
        · by_cases heq : other = attempt
          · rw [heq]
            exact hwinner
          · have hget := hfresh other hother
            rwa [Table.get_insert_of_ne _ _ fun hcontra => heq (toLex.injective hcontra)] at hget

/-! ### Exactness -/

def heldOn (l : Ledger) (host : String) (d : Dimension) : ℕ :=
  total (fun _ stored => if stored.record.state = .reserved ∧ stored.record.hostRef = host then
    stored.held.get d else 0) l.reservations

def reservedWhere (l : Ledger) (p : Terms → Bool) : ℕ :=
  l.reservations.count fun _ stored => stored.record.state = .reserved && p stored.record.toTerms

structure Exact (l : Ledger) : Prop where
  held : ∀ k host, l.hosts.get k = some host → ∀ d, host.held.get d = heldOn l k d
  capacity : ∀ k host, l.hosts.get k = some host → ∀ d,
    host.observed.get d + host.held.get d ≤ host.capacity.get d
  disk : ∀ k host, l.hosts.get k = some host →
    host.diskUsedMib + host.held.diskMib ≤ host.diskCapacityMib
  concurrency : ∀ key, readCount l.concurrency key =
    reservedWhere l fun terms => resourceConcurrencyScopeKey terms.concurrencyKey = key
  antiAffinity : ∀ host tag, readCount l.antiAffinity (toLex (host, tag)) =
    reservedWhere l fun terms => terms.hostRef = host && tag ∈ terms.antiAffinity
  owner : ∀ key id, l.exclusivity.get key = some id ↔ ∃ stored,
    l.reservations.get id = some stored ∧ stored.record.state = .reserved ∧
      key ∈ resourceExclusivityKeys stored.record.toTerms
  exclusive : ∀ key id id' stored stored', l.reservations.get id = some stored →
    l.reservations.get id' = some stored' → stored.record.state = .reserved →
    stored'.record.state = .reserved → key ∈ resourceExclusivityKeys stored.record.toTerms →
    key ∈ resourceExclusivityKeys stored'.record.toTerms → id = id'
  attempt : ∀ id id' stored stored', l.reservations.get id = some stored →
    l.reservations.get id' = some stored' → stored.record.workItemId = stored'.record.workItemId →
    stored.record.attempt = stored'.record.attempt → id = id'

theorem occurrences_of_nodup {K : Type} [LinearOrder K] {key : K} : ∀ {keys : List K}, keys.Nodup →
    occurrences key keys = if key ∈ keys then 1 else 0
  | [], _ => (if_neg List.not_mem_nil).symm
  | k :: rest, h => by
    obtain ⟨hk, hrest⟩ := List.nodup_cons.mp h
    rw [occurrences, occurrences_of_nodup hrest]
    by_cases heq : key = k
    · subst heq
      rw [if_pos rfl, if_neg hk, if_pos List.mem_cons_self]
    · simp only [heq, List.mem_cons, false_or, if_false, Nat.zero_add]

theorem affinityOf_eq {terms : Terms} (h : terms.antiAffinity.Nodup) (host tag : String) :
    affinityOf (toLex (host, tag)) terms =
      if (terms.hostRef = host && tag ∈ terms.antiAffinity : Bool) then 1 else 0 := by
  have hnodup : (affinityKeys terms).Nodup := by
    refine h.map fun a b hab => ?_
    exact (Prod.mk.inj (toLex.injective hab)).2
  unfold affinityOf
  rw [occurrences_of_nodup hnodup]
  have hmem : toLex (host, tag) ∈ affinityKeys terms ↔
      terms.hostRef = host ∧ tag ∈ terms.antiAffinity := by
    unfold affinityKeys
    rw [List.mem_map]
    constructor
    · rintro ⟨tag', htag, heq⟩
      obtain ⟨rfl, rfl⟩ := Prod.mk.inj (toLex.injective heq)
      exact ⟨rfl, htag⟩
    · rintro ⟨rfl, htag⟩
      exact ⟨tag, htag, rfl⟩
  simp only [hmem, Bool.and_eq_true, decide_eq_true_eq]

theorem charged_indicator (l : Ledger) (p : Terms → Bool) :
    charged l.reservations (fun terms => if p terms then 1 else 0) = reservedWhere l p := by
  unfold charged reservedWhere
  rw [← total_indicator]
  refine total_congr fun id stored _ => ?_
  unfold charge
  by_cases hstored : stored.record.state = .reserved <;> simp [hstored]

theorem Accounted.exact (h : Accounted l) : Exact l where
  held k host hhost d := by
    rw [h.held k host hhost d]
    refine total_congr fun id stored hstored => ?_
    unfold charge holdOn
    by_cases hreserved : stored.record.state = .reserved
    · rw [if_pos hreserved, h.amount id stored hstored hreserved]
      simp only [hreserved, true_and]
    · rw [if_neg hreserved, if_neg fun hc => hreserved hc.1]
  capacity := h.capacity
  disk := h.disk
  concurrency key := by
    rw [h.concurrency key, ← charged_indicator]
    unfold concurrencyOf
    simp only [decide_eq_true_eq]
  antiAffinity host tag := by
    rw [h.antiAffinity, ← charged_indicator]
    refine charged_congr fun id stored hstored => ?_
    obtain ⟨request, hterms, hvalid⟩ := h.valid id stored hstored
    refine affinityOf_eq ?_ host tag
    rw [← hterms]
    exact antiAffinity_nodup hvalid
  owner := h.owner
  exclusive key id id' stored stored' hstored hstored' hreserved hreserved' hkey hkey' := by
    have hown := (h.owner key id).mpr ⟨stored, hstored, hreserved, hkey⟩
    have hown' := (h.owner key id').mpr ⟨stored', hstored', hreserved', hkey'⟩
    rw [hown] at hown'
    exact Option.some.inj hown'
  attempt id id' stored stored' hstored hstored' hitem hattempt := by
    have hwinner := h.attempt id stored hstored
    have hwinner' := h.attempt id' stored' hstored'
    rw [hitem, hattempt, hwinner'] at hwinner
    exact (Option.some.inj hwinner).symm

/-- **Resource accounting is exact** in every state that any run of host updates, reservations,
releases, reclaims, WorkItem operations and other writes of the node rows reaches, and no attempt of a
WorkItem is ever accepted twice. -/
theorem resource_accounting_exact (ctx : Context) (items : Graph) (ops : List Op) :
    Exact (run ctx (Ledger.fresh items) ops) ∧
      (acceptedAttempts ctx (Ledger.fresh items) ops).Nodup :=
  ⟨(accounted_run ctx (accounted_fresh items) ops).exact,
    (acceptedAttempts_fresh ctx ops (Ledger.fresh items)).1⟩

end Medulla.Resource.Accounting
