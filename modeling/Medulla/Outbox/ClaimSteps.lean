import Medulla.Outbox.Refinement

/-! # A claim refines the machine

`Pass` is what holds of the walk between two rows: it has moved the view of its consumer, every row
behind it is there, the rows ahead of it are as the walk found them, and it has leased no more than the
room it was given.

* a claim as moves: `claim_claims`. -/

namespace Medulla.Outbox.ClaimSteps

open Library.Checked Types.Batch Types.Records Mutation.State Outbox.Index Rows Claim
open Machine Views Refinement Frames
open Library.OrderedTable (Table)

variable {identity : MutationScopeIdentity} {consumer topic : String} {clock nowMs : ℕ}
  {budget : OutboxClaimBudget} {l l' : Ledger} {acked after : Option OutboxPosition}
  {ds : List OutboxDelivery} {q : OutboxPosition} {d : OutboxDelivery} {state : OutboxConsumerState}
  {current : Option OutboxDelivery} {u : Unit} {cursor : OutboxClaimCursor} {page : IndexPage}

/-! ### Reclaimed leases -/

def reclaimed (nowMs : ℕ) (d : OutboxDelivery) : OutboxDelivery :=
  if isExpired d nowMs then { d with leaseUntilMs := 0 } else d

theorem reclaimed_position (d : OutboxDelivery) : (reclaimed nowMs d).position = d.position := by
  unfold reclaimed
  split_ifs <;> rfl

theorem reclaimed_leaseEpoch (d : OutboxDelivery) :
    (reclaimed nowMs d).leaseEpoch = d.leaseEpoch := by
  unfold reclaimed
  split_ifs <;> rfl

theorem reclaimed_not_expired (d : OutboxDelivery) : isExpired (reclaimed nowMs d) nowMs = false := by
  unfold reclaimed
  split_ifs with h
  · simp [isExpired]
  · simpa using h

theorem zeroLeases_get : ∀ (ds : List OutboxDelivery) (l : Ledger),
      (∀ d ∈ ds, deliveryAt l consumer d.position = some d) →
      (ds.map fun d => d.position.row).Nodup → ∀ p : OutboxPosition,
      (∀ d, deliveryAt l consumer p = some d → d.position = p) →
      deliveryAt (zeroLeases consumer ds l) consumer p =
        (deliveryAt l consumer p).map fun d => if d ∈ ds then { d with leaseUntilMs := 0 } else d
  | [], l, _, _, p, _ => by simp [zeroLeases]
  | d :: ds, l, hrows, hnodup, p, hp => by
    rw [List.map_cons, List.nodup_cons] at hnodup
    have hd := hrows d (.head _)
    have hkept : ∀ e ∈ ds, deliveryAt (putDelivery consumer { d with leaseUntilMs := 0 } l)
        consumer e.position = some e := by
      intro e he
      rw [deliveryAt_putDelivery, if_neg, hrows e (List.mem_cons_of_mem _ he)]
      intro heq
      exact hnodup.1 (List.mem_map.mpr ⟨e, he, heq⟩)
    by_cases hrow : p.row = d.position.row
    · have hold : deliveryAt l consumer p = some d := by
        rw [← hd, deliveryAt, hrow]
        rfl
      have hnew : deliveryAt (putDelivery consumer { d with leaseUntilMs := 0 } l) consumer p =
          some { d with leaseUntilMs := 0 } := by
        rw [deliveryAt_putDelivery, if_pos hrow]
      have hposition := hp d hold
      rw [zeroLeases, zeroLeases_get ds _ hkept hnodup.2 p
        (fun e he => by rw [hnew] at he; rw [← Option.some.inj he]; exact hposition), hnew, hold]
      simp
    · have hsame : deliveryAt (putDelivery consumer { d with leaseUntilMs := 0 } l) consumer p =
          deliveryAt l consumer p := by
        rw [deliveryAt_putDelivery, if_neg hrow]
      rw [zeroLeases, zeroLeases_get ds _ hkept hnodup.2 p (by rw [hsame]; exact hp), hsame]
      cases he : deliveryAt l consumer p with
      | none => rfl
      | some e =>
        have hne : e ≠ d := by
          rintro rfl
          exact hrow (by rw [hp e he])
        simp [hne]

/-- **Reclaiming a page** zeroes exactly the expired leases of its rows. -/
theorem reclaimed_rows {ps : List OutboxPosition} (hinjective : RowInjective (indexOf l consumer))
    (hps : ∀ p ∈ ps, p ∈ indexOf l consumer) (hnodup : ps.Nodup)
    (h : expiredDeliveries consumer acked nowMs l ps = .ok ds) :
    ∀ p ∈ ps, deliveryAt (zeroLeases consumer ds l) consumer p =
        (deliveryAt l consumer p).map (reclaimed nowMs) ∧
      ∀ d, deliveryAt (zeroLeases consumer ds l) consumer p = some d →
        d.position = p ∧ isExpired d nowMs = false := by
  intro p hp
  obtain ⟨hsub, hall, hevery⟩ := expiredDeliveries_ok h
  have hget := zeroLeases_get ds l (fun d hd => (hall d hd).1)
    (rows_nodup hinjective hps hnodup hsub) p (fun d hd => (hevery p hp d hd).1)
  have heq : deliveryAt (zeroLeases consumer ds l) consumer p =
      (deliveryAt l consumer p).map (reclaimed nowMs) := by
    rw [hget]
    cases hd : deliveryAt l consumer p with
    | none => rfl
    | some d =>
      have hiff : d ∈ ds ↔ isExpired d nowMs = true :=
        ⟨fun hmem => (hall d hmem).2, (hevery p hp d hd).2⟩
      simp only [Option.map_some, reclaimed, hiff]
  refine ⟨heq, fun d hd => ?_⟩
  rw [heq] at hd
  obtain ⟨e, he, rfl⟩ := Option.map_eq_some_iff.mp hd
  exact ⟨by rw [reclaimed_position]; exact (hevery p hp e he).1, reclaimed_not_expired e⟩

/-! ### The walk over a page -/

structure Scanned (consumer topic : String) (nowMs : ℕ) (after : Option OutboxPosition) (l : Ledger)
    (entries : List OutboxPosition) : Prop where
  subscribed : l.consumers.get consumer = some topic
  steady : (view l consumer).rewinding = none
  cursor : (view l consumer).resolvedThrough = after
  page : entries = (positionsAfter l topic after).take maxClaimScanRows
  injective : RowInjective (indexOf l consumer)
  rows : ∀ p ∈ entries, ∀ d, deliveryAt l consumer p = some d →
    d.position = p ∧ isExpired d nowMs = false
  records : ∀ p ∈ entries, ∀ r, l.outbox.get p.row = some r → r.batchId = p.batchId ∧
    r.ordinal = p.ordinal

theorem Scanned.indexed {entries : List OutboxPosition}
    (h : Scanned consumer topic nowMs after l entries) :
    ∀ p ∈ entries, p ∈ indexOf l consumer ∧ ¬ Passed after p := by
  intro p hp
  rw [h.page] at hp
  obtain ⟨hexists, hahead⟩ := mem_positionsAfter.mp (List.mem_of_mem_take hp)
  exact ⟨(mem_indexOf h.subscribed).mpr hexists, hahead⟩

theorem Scanned.before {entries done rest : List OutboxPosition} {p : OutboxPosition}
    (h : Scanned consumer topic nowMs after l entries) (hentries : entries = done ++ p :: rest)
    (hq : q ∈ indexOf l consumer) (hlt : q < p) (hahead : ¬ Passed after q) : q ∈ done :=
  mem_before_of_lt positionsAfter_sorted (h.page.symm.trans hentries)
    (mem_positionsAfter.mpr ⟨(mem_indexOf h.subscribed).mp hq, hahead⟩) hlt

def leaseNotice (lease : MutationOutboxLease) : Notice :=
  .leased (leaseKey lease) lease.leaseEpoch lease.leaseUntilMs

/-- Where the walk stands after the rows of `done`. -/
structure Pass (consumer : String) (clock : ℕ) (l : Ledger) (inflight room : ℕ)
    (done rest : List OutboxPosition) (es : List Event) (s : Installing) : Prop where
  steps : Steps consumer clock { view l consumer with inflight := inflight } es
    { view s.ledger consumer with inflight := s.state.inflight }
  elsewhere : Elsewhere consumer l s.ledger
  frame : s.ledger = { l with deliveries := s.ledger.deliveries }
  pending : ∀ p ∈ rest, deliveryAt s.ledger consumer p = deliveryAt l consumer p
  filled : ∀ p ∈ done, (deliveryAt s.ledger consumer p).isSome = true
  resolved : ∀ q, s.resolvedThrough = some q →
    q ∈ done ∧ ∀ p ∈ done, p ≤ q → (view s.ledger consumer).ResolvedAt p
  intact : s.prefixIntact = true →
    s.claimed = [] ∧ ∀ p ∈ done, (view s.ledger consumer).ResolvedAt p
  room : s.state.inflight + room ≤ outboxQueueCapacity + s.claimed.length
  notices : es.map Event.notice = s.deadLettered.map .settled ++ s.claimed.map leaseNotice
  owners : ∀ lease ∈ s.claimed, lease.consumer = consumer
  undelivered : deliveredIn es = []
  leases : ∀ previous d, Event.leased previous d ∈ es →
    d.position ∈ done ∧ previous = deliveryAt l consumer d.position

section
variable {entries done rest : List OutboxPosition} {p : OutboxPosition} {inflight room : ℕ}
  {es fs : List Event} {s s' : Installing}

section
variable (h : Scanned consumer topic nowMs after l entries) (hentries : entries = done ++ p :: rest)
include h hentries

theorem Scanned.sorted : (∀ q ∈ done, q < p) ∧ ∀ q ∈ rest, p < q := by
  have hsorted : entries.Pairwise (· < ·) := by
    rw [h.page]
    exact positionsAfter_sorted.sublist (List.take_sublist _ _)
  rw [hentries] at hsorted
  obtain ⟨-, htail, hcross⟩ := List.pairwise_append.mp hsorted
  exact ⟨fun q hq => hcross q hq p (.head _), (List.pairwise_cons.mp htail).1⟩

theorem Scanned.row_ne (hq : q ∈ done ∨ q ∈ rest) : q.row ≠ p.row := by
  intro hrow
  obtain ⟨hdone, hrest⟩ := h.sorted hentries
  have hmem : ∀ x ∈ done ++ p :: rest, x ∈ indexOf l consumer :=
    fun x hx => (h.indexed x (by rw [hentries]; exact hx)).1
  have hp := hmem p (List.mem_append_right _ (.head _))
  rcases hq with hq | hq
  · have heq := h.injective q (hmem q (List.mem_append_left _ hq)) p hp hrow
    exact absurd heq (hdone q hq).ne
  · have hin := hmem q (List.mem_append_right _ (.tail _ hq))
    exact absurd (h.injective q hin p hp hrow) (hrest q hq).ne'

end

theorem Pass.skip (hscan : Scanned consumer topic nowMs after l entries)
    (hentries : entries = done ++ p :: rest)
    (h : Pass consumer clock l inflight room done (p :: rest) es s)
    (hp : (deliveryAt s.ledger consumer p).isSome = true) :
    Pass consumer clock l inflight room (done ++ [p]) rest es
      { s with prefixIntact := false } where
  steps := h.steps
  elsewhere := h.elsewhere
  frame := h.frame
  pending q hq := h.pending q (.tail _ hq)
  filled q hq := by
    rcases List.mem_append.mp hq with hq | hq
    · exact h.filled q hq
    · rw [List.mem_singleton.mp hq]
      exact hp
  resolved q hq := by
    obtain ⟨hin, hbefore⟩ := h.resolved q hq
    refine ⟨List.mem_append_left _ hin, fun x hx hle => ?_⟩
    rcases List.mem_append.mp hx with hx | hx
    · exact hbefore x hx hle
    · rw [List.mem_singleton.mp hx] at hle
      exact absurd hle (not_le.mpr ((hscan.sorted hentries).1 q hin))
  intact hfalse := by cases hfalse
  room := h.room
  notices := h.notices
  owners := h.owners
  undelivered := h.undelivered
  leases previous d he := ⟨List.mem_append_left _ (h.leases previous d he).1,
    (h.leases previous d he).2⟩

theorem Pass.extend (h : Pass consumer clock l inflight room done (p :: rest) es s)
    (hintact : s.prefixIntact = true) (hp : (view s.ledger consumer).ResolvedAt p) :
    Pass consumer clock l inflight room (done ++ [p]) rest es
      { s with resolvedThrough := some p } where
  steps := h.steps
  elsewhere := h.elsewhere
  frame := h.frame
  pending q hq := h.pending q (.tail _ hq)
  filled q hq := by
    rcases List.mem_append.mp hq with hq | hq
    · exact h.filled q hq
    · obtain ⟨d, hd, -⟩ := hp
      rw [List.mem_singleton.mp hq, ← view_get, hd]
      rfl
  resolved q hq := by
    obtain rfl := Option.some.inj hq
    refine ⟨List.mem_append_right _ (List.mem_singleton_self _), fun x hx _ => ?_⟩
    rcases List.mem_append.mp hx with hx | hx
    · exact (h.intact hintact).2 x hx
    · rw [List.mem_singleton.mp hx]
      exact hp
  intact _ := by
    refine ⟨(h.intact hintact).1, fun x hx => ?_⟩
    rcases List.mem_append.mp hx with hx | hx
    · exact (h.intact hintact).2 x hx
    · rw [List.mem_singleton.mp hx]
      exact hp
  room := h.room
  notices := h.notices
  owners := h.owners
  undelivered := h.undelivered
  leases previous d he := ⟨List.mem_append_left _ (h.leases previous d he).1,
    (h.leases previous d he).2⟩

theorem resolvedAt_putDelivery (hne : q.row ≠ d.position.row) :
    (view (putDelivery consumer d l) consumer).ResolvedAt q ↔ (view l consumer).ResolvedAt q := by
  unfold View.ResolvedAt
  rw [view_putDelivery, View.put, Table.get_insert_of_ne _ _ hne]

section
variable (hscan : Scanned consumer topic nowMs after l entries)
  (hentries : entries = done ++ p :: rest)
  (h : Pass consumer clock l inflight room done (p :: rest) es s)
include hscan hentries h

theorem Pass.bury (hintact : s.prefixIntact = true) (hd : deliveryAt s.ledger consumer p = some d)
    (hposition : d.position = p) (hfree : d.resolved = false ∧ d.leaseUntilMs = 0)
    (hattempt : maxDeliveryAttempts ≤ d.attempt) (hstate : state.inflight = s.state.inflight) :
    Pass consumer clock l inflight room (done ++ [p]) rest (es ++ [.settled p])
      { s with
        ledger := putDelivery consumer { d with deadLetteredAtMs := some nowMs } s.ledger
        state := state
        deadLettered := s.deadLettered ++ [p]
        resolvedThrough := some p } := by
  subst hposition
  have hne : ∀ q, q ∈ done ∨ q ∈ rest → q.row ≠ d.position.row :=
    fun q hq => hscan.row_ne hentries hq
  have hall : ∀ q ∈ done ++ [d.position], (view (putDelivery consumer
      { d with deadLetteredAtMs := some nowMs } s.ledger) consumer).ResolvedAt q := by
    intro q hq
    rcases List.mem_append.mp hq with hq | hq
    · refine (resolvedAt_putDelivery ?_).mpr ((h.intact hintact).2 q hq)
      exact hne q (Or.inl hq)
    · refine ⟨{ d with deadLetteredAtMs := some nowMs }, ?_, ?_⟩
      · rw [view_get, deliveryAt_putDelivery, if_pos (by rw [List.mem_singleton.mp hq])]
      · simp [OutboxDelivery.resolved, OutboxDelivery.deadLettered]
  have hsteady : (view s.ledger consumer).rewinding = none := by
    rw [h.frame]
    exact hscan.steady
  refine ⟨?_, h.elsewhere.trans (elsewhere_putDelivery _), ?_, ?_, ?_, ?_, ?_, ?_, ?_, ?_, ?_, ?_⟩
  · refine h.steps.tail ?_
    rw [view_putDelivery, hstate]
    refine .deadLetter (v := { view s.ledger consumer with inflight := s.state.inflight }) d nowMs
      hsteady ?_ hfree hattempt
    rw [← hd]
    exact view_get s.ledger consumer d.position
  · simp only [putDelivery]
    rw [h.frame]
  · intro q hq
    rw [deliveryAt_putDelivery, if_neg (hne q (Or.inr hq))]
    exact h.pending q (.tail _ hq)
  · intro q hq
    obtain ⟨e, he, -⟩ := hall q hq
    rw [← view_get, he]
    rfl
  · intro q hq
    obtain rfl := Option.some.inj hq
    exact ⟨List.mem_append_right _ (List.mem_singleton_self _), fun x hx _ => hall x hx⟩
  · intro _
    exact ⟨(h.intact hintact).1, hall⟩
  · rw [hstate]
    exact h.room
  · have hclaimed := (h.intact hintact).1
    have hnotices := h.notices
    simp [hclaimed, hnotices, Event.notice]
  · exact h.owners
  · rw [deliveredIn_append, h.undelivered]
    rfl
  · intro previous e he
    rcases List.mem_append.mp he with he | he
    · exact ⟨List.mem_append_left _ (h.leases previous e he).1, (h.leases previous e he).2⟩
    · cases List.mem_singleton.mp he

theorem Pass.lease (hroom : s.claimed.length < room) {lease : MutationOutboxLease}
    (hfree : Free (deliveryAt s.ledger consumer p))
    (hleases : Leases consumer p (deliveryAt s.ledger consumer p) d)
    (howner : lease.consumer = consumer)
    (hlease : leaseNotice lease = .leased p.row d.leaseEpoch d.leaseUntilMs) :
    Pass consumer clock l inflight room (done ++ [p]) rest
      (es ++ [.leased (deliveryAt s.ledger consumer p) d])
      { s with
        ledger := putDelivery consumer d s.ledger
        state := { s.state with inflight := s.state.inflight + 1 }
        claimed := s.claimed ++ [lease]
        prefixIntact := false } := by
  obtain rfl := hleases.position
  have hne : ∀ q, q ∈ done ∨ q ∈ rest → q.row ≠ d.position.row :=
    fun q hq => hscan.row_ne hentries hq
  have hin : d.position ∈ entries := by
    rw [hentries]
    exact List.mem_append_right _ (.head _)
  obtain ⟨hindexed, hahead⟩ := hscan.indexed d.position hin
  have hsame : view s.ledger consumer =
      { view l consumer with rows := (view s.ledger consumer).rows } := by
    conv_lhs => rw [h.frame]
    rfl
  refine ⟨?_, h.elsewhere.trans (elsewhere_putDelivery _), ?_, ?_, ?_, ?_, ?_, ?_, ?_, ?_, ?_, ?_⟩
  · refine h.steps.tail ?_
    have hindex : (view s.ledger consumer).index = indexOf l consumer := by
      rw [hsame]
      rfl
    have hcursor : (view s.ledger consumer).resolvedThrough = after := by
      rw [hsame]
      exact hscan.cursor
    have hbound := h.room
    rw [← view_get] at hfree hleases ⊢
    rw [view_putDelivery]
    refine .lease (v := { view s.ledger consumer with inflight := s.state.inflight }) d.position d
      (by rw [hsame]; exact hscan.steady) (by rw [hindex]; exact hindexed)
      (by rw [hcursor]; exact hahead) ?_ hfree (by simp only; omega) hleases
    intro q hq hlt hopen
    simp only [hindex, hcursor] at hq hopen
    rw [view_get]
    exact h.filled q (hscan.before hentries hq hlt hopen)
  · simp only [putDelivery]
    rw [h.frame]
  · intro q hq
    rw [deliveryAt_putDelivery, if_neg (hne q (Or.inr hq))]
    exact h.pending q (.tail _ hq)
  · intro q hq
    rcases List.mem_append.mp hq with hq | hq
    · rw [deliveryAt_putDelivery, if_neg (hne q (Or.inl hq))]
      exact h.filled q hq
    · rw [List.mem_singleton.mp hq, deliveryAt_putDelivery, if_pos rfl]
      rfl
  · intro q hq
    obtain ⟨hq', hbefore⟩ := h.resolved q hq
    refine ⟨List.mem_append_left _ hq', fun x hx hle => ?_⟩
    rcases List.mem_append.mp hx with hx | hx
    · exact (resolvedAt_putDelivery (hne x (Or.inl hx))).mpr (hbefore x hx hle)
    · rw [List.mem_singleton.mp hx] at hle
      exact absurd hle (not_le.mpr ((hscan.sorted hentries).1 q hq'))
  · intro hfalse
    cases hfalse
  · have hbound := h.room
    simp only [List.length_append, List.length_singleton]
    omega
  · simp [h.notices, Event.notice, hlease]
  · intro x hx
    rcases List.mem_append.mp hx with hx | hx
    · exact h.owners x hx
    · rw [List.mem_singleton.mp hx]
      exact howner
  · rw [deliveredIn_append, h.undelivered]
    rfl
  · intro previous e he
    rcases List.mem_append.mp he with he | he
    · exact ⟨List.mem_append_left _ (h.leases previous e he).1, (h.leases previous e he).2⟩
    · obtain ⟨rfl, rfl⟩ := Event.leased.inj (List.mem_singleton.mp he)
      exact ⟨List.mem_append_right _ (List.mem_singleton_self _), h.pending _ (.head _)⟩

end

theorem Pass.stop (h : Pass consumer clock l inflight room done rest es s) :
    Pass consumer clock l inflight room done rest es { s with prefixIntact := false } :=
  { h with intact := fun hfalse => by cases hfalse }

theorem leaseUntilMs_eq_zero (hexpired : isExpired d nowMs = false) (hresolved : d.resolved = false)
    (hleased : d.leasedAt nowMs = false) : d.leaseUntilMs = 0 := by
  simp only [isExpired, OutboxDelivery.leasedAt, hresolved, Bool.not_false, Bool.true_and,
    Bool.and_eq_false_iff, decide_eq_false_iff_not] at hexpired hleased
  omega

theorem nextLease_leases {isHead : Bool} :
    Leases consumer p current (nextLease current consumer p budget isHead) where
  consumer := rfl
  position := rfl
  epoch := rfl
  timed := by
    have htimed := budget.timed
    simp only [nextLease, saturatingAdd, u64Max]
    omega
  undelivered := rfl
  alive := rfl

theorem leaseRow_ok {isHead : Bool} (h : leaseRow consumer budget p current isHead false s = .ok s') :
    ∃ record, s.ledger.outbox.get p.row = some record ∧ s' = { s with
        ledger := putDelivery consumer (nextLease current consumer p budget isHead) s.ledger
        state := { s.state with inflight := s.state.inflight + 1 }
        claimed := s.claimed ++ [leaseOf record (nextLease current consumer p budget isHead)]
        prefixIntact := false } := by
  unfold leaseRow dropLease readOutboxRow at h
  simp only [bind_eq_ok, okOr_eq_ok, pure_eq_ok] at h
  obtain ⟨n, hn, record, ⟨record', hrecord, _, -, rfl⟩, m, hm, rfl⟩ := h
  obtain rfl := Except.ok.inj hn
  refine ⟨record', hrecord, ?_⟩
  rw [(checkedAdd_eq_some.mp hm).1]

theorem deadLetter_ok {dead : OutboxDelivery} (h : deadLetter current consumer p nowMs = some dead) :
    ∃ d, current = some d ∧ maxDeliveryAttempts ≤ d.attempt ∧ d.leasedAt nowMs = false ∧
      dead = { d with
        consumer := consumer
        position := p
        leaseUntilMs := 0
        deadLetteredAtMs := some nowMs } := by
  unfold deadLetter at h
  cases current with
  | none => cases h
  | some d =>
    simp only at h
    split_ifs at h with hlive
    obtain ⟨hattempt, hleased⟩ := not_or.mp hlive
    exact ⟨d, rfl, not_lt.mp hattempt, by simpa using hleased, (Option.some.inj h).symm⟩

theorem Scanned.not_expired (hscan : Scanned consumer topic budget.nowMs after l entries)
    (hp : p ∈ entries)
    (hunresolved : ¬ (deliveryAt l consumer p).any OutboxDelivery.resolved = true) :
    ((deliveryAt l consumer p).any fun d =>
      d.leaseUntilMs ≠ 0 && !d.leasedAt budget.nowMs) = false := by
  cases hd : deliveryAt l consumer p with
  | none => rfl
  | some d =>
    rw [hd] at hunresolved
    have hexpired := (hscan.rows p hp d hd).2
    cases hleased : d.leasedAt budget.nowMs with
    | true => simp [hleased]
    | false =>
      have huntil := leaseUntilMs_eq_zero hexpired (by simpa using hunresolved) hleased
      simp [huntil]

/-- **One row of the walk.** -/
theorem installRow_pass {r : RowStep} (hscan : Scanned consumer topic budget.nowMs after l entries)
    (hentries : entries = done ++ p :: rest)
    (hpass : Pass consumer clock l inflight room done (p :: rest) es s)
    (h : installRow consumer budget room acked p s = .ok r) :
    (∃ s', r = .stop s' ∧ Pass consumer clock l inflight room done (p :: rest) es s') ∨
    ∃ s' fs, r = .next s' ∧
      Pass consumer clock l inflight room (done ++ [p]) rest (es ++ fs) s' := by
  have hin : p ∈ entries := by
    rw [hentries]
    exact List.mem_append_right _ (.head _)
  have hcurrent := hpass.pending p (.head _)
  obtain ⟨_, hvalid, h⟩ := unbind h
  split at h
  · rename_i hresolved
    obtain ⟨d, hd, hdone⟩ := (Option.any_eq_true _ _).mp hresolved
    rw [← pure_eq_ok.mp h]
    refine Or.inr ⟨_, [], rfl, ?_⟩
    rw [List.append_nil]
    by_cases hintact : s.prefixIntact = true
    · rw [if_pos hintact]
      exact hpass.extend hintact ⟨d, by rw [view_get]; exact hd, hdone⟩
    · rw [if_neg hintact]
      have hskip := hpass.skip hscan hentries (by rw [hd]; rfl)
      rw [← Bool.not_eq_true _ |>.mp hintact] at hskip
      exact hskip
  · rename_i hunresolved
    rw [hcurrent] at h hunresolved hvalid
    rw [hscan.not_expired hin hunresolved] at h
    cases hdead : (if s.prefixIntact then deadLetter (deliveryAt l consumer p) consumer p
        budget.nowMs else none) with
    | some dead =>
      simp only [hdead, bind_eq_ok, pure_eq_ok] at h
      obtain ⟨state, hstate, rfl⟩ := h
      split_ifs at hdead with hintact
      obtain ⟨d, hd, hattempt, hleased, rfl⟩ := deadLetter_ok hdead
      rw [hd] at hunresolved
      have hopen : d.resolved = false := by simpa using hunresolved
      have huntil := leaseUntilMs_eq_zero (hscan.rows p hin d hd).2 hopen hleased
      obtain ⟨-, hinflight⟩ := recordDeadLetter_ok hstate
      have hwritten : { d with
          consumer := consumer
          position := p
          leaseUntilMs := 0
          deadLetteredAtMs := some budget.nowMs } =
          { d with deadLetteredAtMs := some budget.nowMs } := by
        simp only [hd, validateCurrent, validateExistingDelivery, validateDeliveryKey, bind_eq_ok,
          require_eq_ok] at hvalid
        obtain ⟨_, ⟨hconsumer, hposition⟩, -⟩ := hvalid
        rw [← hconsumer, ← hposition, ← huntil]
      have hposition := (hscan.rows p hin d hd).1
      refine Or.inr ⟨_, [.settled p], rfl, ?_⟩
      rw [hwritten]
      simp only [hposition]
      have hburied := hpass.bury hscan hentries hintact (by rw [hcurrent, hd]) hposition
        ⟨hopen, huntil⟩ hattempt hinflight
      simp only [hposition] at hburied
      exact hburied
    | none =>
      simp only [hdead] at h
      split_ifs at h with hroom hleased
      · exact Or.inl ⟨_, (pure_eq_ok.mp h).symm, hpass.stop⟩
      · obtain ⟨d, hd, -⟩ := (Option.any_eq_true _ _).mp hleased
        refine Or.inr ⟨_, [], (pure_eq_ok.mp h).symm, ?_⟩
        rw [List.append_nil]
        exact hpass.skip hscan hentries (by rw [hcurrent, hd]; rfl)
      · obtain ⟨s', hlease, h⟩ := unbind h
        obtain ⟨record, hrecord, rfl⟩ := leaseRow_ok hlease
        rw [← pure_eq_ok.mp h]
        rw [hpass.frame] at hrecord
        obtain ⟨hbatch, hordinal⟩ := hscan.records p hin record hrecord
        rw [← hcurrent]
        refine Or.inr ⟨_, [.leased (deliveryAt s.ledger consumer p)
          (nextLease (deliveryAt s.ledger consumer p) consumer p budget s.prefixIntact)], rfl, ?_⟩
        refine hpass.lease hscan hentries (not_le.mp hroom) ?_ nextLease_leases rfl ?_
        · intro d hd
          rw [hcurrent] at hd
          rw [hd] at hunresolved hleased
          have hopen : d.resolved = false := by simpa using hunresolved
          exact ⟨hopen, leaseUntilMs_eq_zero (hscan.rows p hin d hd).2 hopen (by simpa using hleased)⟩
        · simp [leaseNotice, leaseOf, leaseKey, hbatch, hordinal, OutboxPosition.row]

/-- **The whole walk.** -/
theorem installLeases_pass (hscan : Scanned consumer topic budget.nowMs after l entries) :
    ∀ (rest done : List OutboxPosition) (es : List Event) (s : Installing) {s' : Installing},
      entries = done ++ rest → Pass consumer clock l inflight room done rest es s →
      installLeases consumer budget room acked rest s = .ok s' →
      ∃ done' rest' fs, entries = done' ++ rest' ∧
        Pass consumer clock l inflight room done' rest' fs s'
  | [], done, es, s, s', hentries, hpass, h => by
    rw [← Except.ok.inj h]
    exact ⟨done, [], es, hentries, hpass⟩
  | p :: ps, done, es, s, s', hentries, hpass, h => by
    obtain ⟨r, hrow, h⟩ := unbind h
    rcases installRow_pass hscan hentries hpass hrow with ⟨s₁, rfl, hstop⟩ | ⟨s₁, fs, rfl, hnext⟩
    · rw [← pure_eq_ok.mp h]
      exact ⟨done, p :: ps, es, hentries, hstop⟩
    · exact installLeases_pass hscan ps (done ++ [p]) (es ++ fs) s₁ (by simp [hentries]) hnext h

theorem pass_start (hinflight : state.inflight = inflight)
    (hroom : inflight + room ≤ outboxQueueCapacity) :
    Pass consumer clock l inflight room [] entries [] ⟨l, state, [], [], none, true⟩ where
  steps := by
    rw [hinflight]
    exact .refl _
  elsewhere := .refl consumer l
  frame := rfl
  pending _ _ := rfl
  filled p hp := absurd hp List.not_mem_nil
  resolved q hq := by cases hq
  intact _ := ⟨rfl, fun p hp => absurd hp List.not_mem_nil⟩
  room := by
    rw [hinflight]
    exact hroom
  notices := rfl
  owners _ hlease := absurd hlease List.not_mem_nil
  undelivered := rfl
  leases _ _ he := absurd he List.not_mem_nil

end

/-! ### Pruning -/

section
variable {boundary : OutboxPosition}

theorem removeDeliveries_get : ∀ (ks : List OutboxKey) (l : Ledger) (k : OutboxKey),
      (view (removeDeliveries consumer ks l) consumer).rows.get k =
        if k ∈ ks then none else (view l consumer).rows.get k
  | [], l, k => by simp [removeDeliveries]
  | j :: ks, l, k => by
    have hremoved : (view (removeDelivery consumer j l) consumer).rows.get k =
        if k = j then none else (view l consumer).rows.get k := by
      change (deliveriesOf _ consumer).get k = if k = j then none else (deliveriesOf _ consumer).get k
      rw [deliveriesOf_get, deliveriesOf_get]
      simp [removeDelivery, Table.get_remove]
    rw [removeDeliveries, removeDeliveries_get ks]
    split_ifs <;> simp_all

theorem view_removeDeliveries (ks : List OutboxKey) :
    view (removeDeliveries consumer ks l) consumer =
      { view l consumer with rows := (view (removeDeliveries consumer ks l) consumer).rows } := by
  conv_lhs => rw [removeDeliveries_frame]
  rfl

theorem pruneScan_ok :
    ∀ {ps : List OutboxPosition} {last : Option OutboxPosition} {scan : PruneScan},
      pruneScan consumer acked boundary l ps last = .ok scan →
      (∀ k ∈ scan.stale, ∃ d, (view l consumer).rows.get k = some d ∧ d.delivered = true ∧
        d.position < boundary) ∧
      (scan.last = last ∨ ∃ p ∈ ps, scan.last = some p)
  | [], last, scan, h => by
    rw [← Except.ok.inj h]
    exact ⟨fun k hk => absurd hk List.not_mem_nil, Or.inl rfl⟩
  | p :: ps, last, scan, h => by
    unfold pruneScan at h
    split at h
    · rw [← Except.ok.inj h]
      exact ⟨fun k hk => absurd hk List.not_mem_nil, Or.inl rfl⟩
    · rename_i hbefore
      cases hd : deliveryAt l consumer p with
      | none =>
        simp only [hd] at h
        obtain ⟨hstale, hlast⟩ := pruneScan_ok h
        refine ⟨hstale, Or.inr ?_⟩
        rcases hlast with hlast | ⟨q, hq, hlast⟩
        · exact ⟨p, .head _, hlast⟩
        · exact ⟨q, .tail _ hq, hlast⟩
      | some d =>
        simp only [hd, validateExistingDelivery, validateDeliveryKey, bind_eq_ok, require_eq_ok,
          pure_eq_ok] at h
        obtain ⟨_, ⟨_, ⟨-, hposition⟩, -⟩, rest, hrest, h⟩ := h
        obtain ⟨hstale, hlast⟩ := pruneScan_ok hrest
        have hlast' : ∃ q ∈ p :: ps, rest.last = some q := by
          rcases hlast with hlast | ⟨q, hq, hlast⟩
          · exact ⟨p, .head _, hlast⟩
          · exact ⟨q, .tail _ hq, hlast⟩
        split_ifs at h with hdelivered
        · subst h
          refine ⟨fun k hk => ?_, Or.inr hlast'⟩
          rcases List.mem_cons.mp hk with rfl | hk
          · refine ⟨d, by rw [view_get]; exact hd, ?_, by rw [hposition]; exact not_le.mp hbefore⟩
            simp only [Bool.and_eq_true] at hdelivered
            exact hdelivered.1
          · exact hstale k hk
        · subst h
          exact ⟨hstale, Or.inr hlast'⟩

theorem readPruneCursor_ok {cursor : PruneCursor}
    (h : readPruneCursor identity topic consumer l = .ok cursor) :
    ∀ p, cursor.position = some p → positionExists l topic p = true := by
  unfold readPruneCursor at h
  intro p hp
  cases hc : l.pruneCursors.get consumer with
  | none =>
    simp only [hc] at h
    rw [← Except.ok.inj h] at hp
    cases hp
  | some stored =>
    simp only [hc, bind_eq_ok, pure_eq_ok] at h
    obtain ⟨_, -, _, -, _, hposition, _, -, rfl⟩ := h
    simp only [hp, forPosition, mapError_eq_ok] at hposition
    exact validatePosition_ok hposition

/-- **Pruning** behind a resolved prefix, whatever the counter is at. -/
theorem pruneResolved_steps {resolved : Option OutboxPosition} (n : ℕ)
    (hsteady : (view l consumer).rewinding = none)
    (hresolved : ∀ p, resolved = some p → p ∈ indexOf l consumer)
    (h : pruneResolved identity consumer acked resolved l = .ok l') :
    Steps consumer clock { view l consumer with inflight := n, resolvedThrough := resolved } []
        { view l' consumer with inflight := n, resolvedThrough := resolved } ∧
      Elsewhere consumer l l' := by
  cases resolved with
  | none =>
    rw [← Except.ok.inj h]
    exact ⟨.refl _, .refl consumer l⟩
  | some boundary =>
    simp only [pruneResolved, bind_eq_ok] at h
    obtain ⟨topic, htopic, cursor, hcursor, h⟩ := h
    split at h
    · rw [← pure_eq_ok.mp h]
      exact ⟨.refl _, .refl consumer l⟩
    · simp only [bind_eq_ok, pure_eq_ok] at h
      obtain ⟨page, hpage, scan, hscan, rfl⟩ := h
      have hconsumer := subscribedTopic_ok htopic
      obtain rfl := scanValidatedPage_ok hpage
      obtain ⟨hstale, hlast⟩ := pruneScan_ok hscan
      refine ⟨?_, (elsewhere_removeDeliveries _ _).trans (elsewhere_pruneCursors _)⟩
      have hpruned : Steps consumer clock
          { view l consumer with inflight := n, resolvedThrough := some boundary } []
          { view (removeDeliveries consumer scan.stale l) consumer with
            inflight := n, resolvedThrough := some boundary } := by
        rw [view_removeDeliveries]
        refine .single (.prune
          (v := { view l consumer with inflight := n, resolvedThrough := some boundary }) _ hsteady ?_)
        intro k
        rw [removeDeliveries_get]
        split_ifs with hk
        · obtain ⟨d, hd, hdelivered, hlt⟩ := hstale k hk
          exact Or.inr ⟨rfl, d, hd, hdelivered, passed_some.mpr hlt.le⟩
        · exact Or.inl rfl
      have hindex : (view (removeDeliveries consumer scan.stale l) consumer).index =
          indexOf l consumer := by
        rw [view_removeDeliveries]
        rfl
      have hnoted : ∀ {w : View}, Machine.Move consumer clock _ [] w →
          Steps consumer clock { view l consumer with inflight := n, resolvedThrough := some boundary }
            [] w := fun m => hpruned.trans (.single m)
      refine hnoted ?_
      rw [view_pruneCursors (l := removeDeliveries consumer scan.stale l)]
      refine .notePrune (v := { view (removeDeliveries consumer scan.stale l) consumer with
        inflight := n, resolvedThrough := some boundary }) _ ?_ ?_ ?_
      · simp only
        split_ifs with hcomplete
        · exact hcomplete
        · exact Bool.not_eq_true _ |>.mp hcomplete
      · intro p hp
        simp only [hindex]
        rcases hlast with hlast | ⟨q, hq, hlast⟩
        · simp only at hp
          rw [hlast] at hp
          exact (mem_indexOf hconsumer).mpr (readPruneCursor_ok hcursor p hp)
        · simp only at hp
          rw [hlast] at hp
          rw [← Option.some.inj hp]
          exact scanned_indexed hconsumer q hq
      · intro p hp
        simp only [hindex]
        split_ifs at hp
        exact hresolved p hp

end

/-! ### Claiming -/

theorem validatePositions_ok :
    ∀ {ps : List OutboxPosition}, validatePositions topic identity l ps = .ok u →
      ∀ p ∈ ps, ∃ u, validatePosition topic identity p l = .ok u
  | [], _, p, hp => absurd hp List.not_mem_nil
  | q :: ps, h, p, hp => by
    unfold validatePositions at h
    simp only [bind_eq_ok, mapError_eq_ok] at h
    obtain ⟨_, hq, hrest⟩ := h
    rcases List.mem_cons.mp hp with rfl | hp
    · exact ⟨_, hq⟩
    · exact validatePositions_ok hrest p hp

theorem validatePosition_record {p : OutboxPosition}
    (h : validatePosition topic identity p l = .ok u) :
    ∀ r, l.outbox.get p.row = some r → r.batchId = p.batchId ∧ r.ordinal = p.ordinal := by
  unfold validatePosition validatePositionRecord at h
  simp only [bind_eq_ok, okOr_eq_ok, require_eq_ok] at h
  obtain ⟨record, hrecord, _, ⟨_, -, _, -, _, -, hbatch, hordinal, -⟩, -⟩ := h
  intro r hr
  rw [hrecord] at hr
  rw [← Option.some.inj hr]
  exact ⟨hbatch, hordinal⟩

theorem fairnessCandidate_fresh {truncated : Bool} : ∀ {ps : List OutboxPosition},
      fairnessCandidate consumer acked truncated nowMs l ps = .ok .fresh →
      ∃ done rest, ps = done ++ rest ∧ (∀ p ∈ done, ∃ d, deliveryAt l consumer p = some d ∧
          (d.resolved = true ∨ d.leasedAt nowMs = true)) ∧
        (rest = [] ∨ ∃ p rest', rest = p :: rest' ∧ deliveryAt l consumer p = none)
  | [], _ => ⟨[], [], rfl, fun p hp => absurd hp List.not_mem_nil, Or.inl rfl⟩
  | p :: ps, h => by
    unfold fairnessCandidate at h
    cases hd : deliveryAt l consumer p with
    | none =>
      exact ⟨[], p :: ps, rfl, fun q hq => absurd hq List.not_mem_nil, Or.inr ⟨p, ps, rfl, hd⟩⟩
    | some d =>
      simp only [hd, bind_eq_ok] at h
      obtain ⟨_, -, h⟩ := h
      split_ifs at h with hskip
      · obtain ⟨done, rest, rfl, hdone, hrest⟩ := fairnessCandidate_fresh h
        refine ⟨p :: done, rest, rfl, fun q hq => ?_, hrest⟩
        rcases List.mem_cons.mp hq with rfl | hq
        · exact ⟨d, hd, by simpa using hskip⟩
        · exact hdone q hq
      · cases pure_eq_ok.mp h

/-- What a claim shows of itself: its dead letters, then its leases, each over the row it found. -/
structure Claims (consumer : String) (clock nowMs : ℕ) (outcome : OutboxClaimOutcome)
    (es : List Event) (l l' : Ledger) : Prop where
  delivers : Delivers consumer clock es l l'
  notices : es.map Event.notice =
    outcome.deadLettered.map .settled ++ outcome.claims.map leaseNotice
  owners : ∀ lease ∈ outcome.claims, lease.consumer = consumer
  undelivered : deliveredIn es = []
  leases : ∀ previous d, Event.leased previous d ∈ es →
    (view l consumer).rewinding = none ∧ d.position ∈ indexOf l consumer ∧
      ¬ Passed (view l consumer).resolvedThrough d.position ∧
      previous = (deliveryAt l consumer d.position).map (reclaimed nowMs)

theorem claims_deferral {reason : OutboxDeferral} (h : Delivers consumer clock [] l l') :
    Claims consumer clock nowMs (.deferral reason) [] l l' where
  delivers := h
  notices := rfl
  owners _ hlease := absurd hlease List.not_mem_nil
  undelivered := rfl
  leases _ _ he := absurd he List.not_mem_nil

theorem installPage_steps {room : ℕ} {outcome : OutboxClaimOutcome}
    (hscan : Scanned consumer topic budget.nowMs cursor.resolvedThrough l page.entries)
    (hcursor : ∀ p, cursor.resolvedThrough = some p → p ∈ indexOf l consumer)
    (hroom : state.inflight + room ≤ outboxQueueCapacity)
    (h : installPage identity consumer budget room cursor page state l = .ok (outcome, l')) :
    ∃ es, Steps consumer clock { view l consumer with inflight := state.inflight } es
        (view l' consumer) ∧ Elsewhere consumer l l' ∧
      es.map Event.notice = outcome.deadLettered.map .settled ++ outcome.claims.map leaseNotice ∧
      (∀ lease ∈ outcome.claims, lease.consumer = consumer) ∧ deliveredIn es = [] ∧
      ∀ previous d, Event.leased previous d ∈ es →
        d.position ∈ page.entries ∧ previous = deliveryAt l consumer d.position := by
  unfold installPage at h
  simp only [bind_eq_ok] at h
  obtain ⟨s, hinstall, l₁, hprune, h⟩ := h
  obtain ⟨rfl, rfl⟩ := Prod.mk.inj (pure_eq_ok.mp h)
  obtain ⟨done, rest, es, hentries, hpass⟩ : ∃ done rest es, page.entries = done ++ rest ∧
        Pass consumer clock l state.inflight room done rest es s :=
    installLeases_pass hscan page.entries [] [] _ rfl (pass_start rfl hroom) hinstall
  have hsame : view s.ledger consumer =
      { view l consumer with rows := (view s.ledger consumer).rows } := by
    conv_lhs => rw [hpass.frame]
    rfl
  have hindex : indexOf s.ledger consumer = indexOf l consumer := congrArg View.index hsame
  have hsteady : (view s.ledger consumer).rewinding = none := by
    rw [hsame]
    exact hscan.steady
  have hmem : ∀ p, p ∈ done → p ∈ indexOf l consumer ∧ ¬ Passed cursor.resolvedThrough p :=
    fun p hp => hscan.indexed p (by rw [hentries]; exact List.mem_append_left _ hp)
  have hresolved : ∀ p, s.resolvedThrough.or cursor.resolvedThrough = some p →
      p ∈ indexOf s.ledger consumer := by
    intro p hp
    rw [hindex]
    cases hq : s.resolvedThrough with
    | none =>
      rw [hq] at hp
      exact hcursor p hp
    | some q =>
      rw [hq] at hp
      rw [← Option.some.inj hp]
      exact (hmem q (hpass.resolved q hq).1).1
  obtain ⟨hpruned, helse⟩ : Steps consumer clock _ [] _ ∧ _ :=
    pruneResolved_steps s.state.inflight hsteady hresolved hprune
  have hextended : Steps consumer clock
      { view s.ledger consumer with inflight := s.state.inflight } []
      { view s.ledger consumer with
        inflight := s.state.inflight
        resolvedThrough := s.resolvedThrough.or cursor.resolvedThrough } := by
    have hat : (view s.ledger consumer).resolvedThrough = cursor.resolvedThrough := by
      rw [hsame]
      exact hscan.cursor
    cases hq : s.resolvedThrough with
    | none =>
      rw [← hat]
      exact .refl _
    | some q =>
      obtain ⟨hdone, hbefore⟩ := hpass.resolved q hq
      obtain ⟨hqindex, hqahead⟩ := hmem q hdone
      obtain ⟨before, behind, rfl⟩ := List.append_of_mem hdone
      have hsplit : page.entries = before ++ q :: (behind ++ rest) := by
        rw [hentries]
        simp
      refine .single (.extend (v := { view s.ledger consumer with inflight := s.state.inflight }) q
        hsteady ?_ ?_ ?_ (hbefore q hdone le_rfl))
      · change q ∈ indexOf s.ledger consumer
        rw [hindex]
        exact hqindex
      · simp only [hat]
        exact hqahead
      · intro x hx hlt hopen
        change x ∈ indexOf s.ledger consumer at hx
        rw [hindex] at hx
        simp only [hat] at hopen
        have hin : x ∈ before := hscan.before hsplit hx hlt hopen
        exact hbefore x (List.mem_append_left _ hin) hlt.le
  refine ⟨es, ?_, ?_, hpass.notices, hpass.owners, hpass.undelivered, fun previous d he => ?_⟩
  · have hfinal := (hpass.steps.trans hextended).trans hpruned
    rw [List.append_nil, List.append_nil] at hfinal
    rw [view_writeConsumerState, view_writeClaimCursor]
    exact hfinal
  · exact ((hpass.elsewhere.trans helse).trans (elsewhere_writeClaimCursor _)).trans
      (elsewhere_writeConsumerState _)
  · obtain ⟨hdone, hprevious⟩ := hpass.leases previous d he
    exact ⟨by rw [hentries]; exact List.mem_append_left _ hdone, hprevious⟩

theorem reclaimRoom_ok {gate : ClaimGate} {state' : OutboxConsumerState}
    (h : reclaimRoom consumer cursor page nowMs state l = .ok (gate, state', l')) :
    ∃ ds, expiredDeliveries consumer cursor.ackedThrough nowMs l page.entries = .ok ds ∧
      ds.length ≤ state.inflight ∧ state'.inflight = state.inflight - ds.length ∧
      ((gate = .room (outboxQueueCapacity - state'.inflight) ∧
          state'.inflight < outboxQueueCapacity ∧ l' = zeroLeases consumer ds l) ∨
        ∃ reason, gate = .deferred reason ∧ l' = if 0 < ds.length then
          writeConsumerState consumer state' (zeroLeases consumer ds l)
          else zeroLeases consumer ds l) := by
  unfold reclaimRoom at h
  simp only [bind_eq_ok, okOr_eq_ok, checkedSub_eq_some] at h
  obtain ⟨ds, hds, n, ⟨hle, rfl⟩, h⟩ := h
  split at h
  · rename_i hroom
    obtain ⟨rfl, hrest⟩ := Prod.mk.inj (pure_eq_ok.mp h)
    obtain ⟨rfl, rfl⟩ := Prod.mk.inj hrest
    exact ⟨ds, hds, hle, rfl, Or.inl ⟨rfl, by simp only; omega, rfl⟩⟩
  · obtain ⟨rfl, hrest⟩ := Prod.mk.inj (pure_eq_ok.mp h)
    obtain ⟨rfl, rfl⟩ := Prod.mk.inj hrest
    exact ⟨ds, hds, hle, rfl, Or.inr ⟨_, rfl, rfl⟩⟩

theorem decideClaimRoom_ok {allowance room n : ℕ} (hroom : 0 < room)
    (h : decideClaimRoom consumer cursor page budget allowance room l = .ok (.room n)) :
    n ≤ room := by
  unfold decideClaimRoom at h
  split_ifs at h
  · obtain rfl := ClaimGate.room.inj (Except.ok.inj h)
    exact Nat.min_le_right _ _
  · simp only [bind_eq_ok, pure_eq_ok] at h
    obtain ⟨candidate, -, h⟩ := h
    cases candidate with
    | none =>
      obtain rfl := ClaimGate.room.inj h
      exact Nat.zero_le _
    | fresh => cases h
    | retry =>
      obtain rfl := ClaimGate.room.inj h
      exact hroom

theorem decideClaimRoom_deferred {allowance room : ℕ} {reason : OutboxDeferral}
    (h : decideClaimRoom consumer cursor page budget allowance room l = .ok (.deferred reason)) :
    fairnessCandidate consumer cursor.ackedThrough page.truncated budget.nowMs l page.entries =
      .ok .fresh := by
  unfold decideClaimRoom at h
  split_ifs at h
  · cases Except.ok.inj h
  · simp only [bind_eq_ok] at h
    obtain ⟨candidate, hcandidate, h⟩ := h
    cases candidate with
    | none => cases h
    | fresh => exact hcandidate
    | retry => cases h

theorem validateClaimCursor_ok (h : validateClaimCursor topic identity cursor l = .ok u) :
    ∀ p, cursor.resolvedThrough = some p → positionExists l topic p = true := by
  obtain ⟨_, hresolved, -⟩ := unbind h
  intro p hp
  simp only [hp, forPosition, mapError_eq_ok] at hresolved
  exact validatePosition_ok hresolved

section
variable {outcome : OutboxClaimOutcome}

theorem nothing_reclaimed {truncated : Bool} (hinjective : RowInjective (indexOf l consumer))
    (hgap : (view l consumer).NoGap) (hconsumer : l.consumers.get consumer = some topic)
    (hafter : (view l consumer).resolvedThrough = after)
    (hds : expiredDeliveries consumer acked nowMs l
      (scanInWrite topic after maxClaimScanRows l).entries = .ok ds)
    (h : fairnessCandidate consumer acked truncated nowMs (zeroLeases consumer ds l)
      (scanInWrite topic after maxClaimScanRows l).entries = .ok .fresh) : ds = [] := by
  have hrows := reclaimed_rows hinjective (scanned_indexed hconsumer) scanned_nodup hds
  obtain ⟨hsub, hexpired, -⟩ := expiredDeliveries_ok hds
  obtain ⟨done, rest, hsplit, hdone, hrest⟩ := fairnessCandidate_fresh h
  refine List.eq_nil_iff_forall_not_mem.mpr fun d hd => ?_
  obtain ⟨hrow, hrun⟩ := hexpired d hd
  have hin : d.position ∈ (scanInWrite topic after maxClaimScanRows l).entries :=
    hsub.subset (List.mem_map_of_mem hd)
  have hnow : deliveryAt (zeroLeases consumer ds l) consumer d.position =
      some { d with leaseUntilMs := 0 } := by
    rw [(hrows d.position hin).1, hrow]
    simp [reclaimed, hrun]
  rw [hsplit] at hin
  rcases List.mem_append.mp hin with hin | hin
  · obtain ⟨e, he, hclosed⟩ := hdone d.position hin
    rw [hnow] at he
    obtain rfl := Option.some.inj he
    have hopen : d.resolved = false := by
      simp only [isExpired, Bool.and_eq_true, Bool.not_eq_true'] at hrun
      exact hrun.1.1
    rcases hclosed with hclosed | hclosed
    · exact absurd (hopen.symm.trans hclosed) Bool.false_ne_true
    · simp [OutboxDelivery.leasedAt] at hclosed
  · rcases hrest with rfl | ⟨q, rest', rfl, hq⟩
    · exact absurd hin List.not_mem_nil
    · rcases List.mem_cons.mp hin with heq | hin
      · rw [← heq, hnow] at hq
        cases hq
      · have hqin : q ∈ (scanInWrite topic after maxClaimScanRows l).entries := by
          rw [hsplit]
          exact List.mem_append_right _ (.head _)
        have hdin : d.position ∈ (scanInWrite topic after maxClaimScanRows l).entries := by
          rw [hsplit]
          exact List.mem_append_right _ (.tail _ hin)
        have hsorted : (scanInWrite topic after maxClaimScanRows l).entries.Pairwise (· < ·) :=
          positionsAfter_sorted.sublist (List.take_sublist _ _)
        rw [hsplit] at hsorted
        have hlt : q < d.position :=
          (List.pairwise_cons.mp (List.pairwise_append.mp hsorted).2.1).1 _ hin
        have hopen : ∀ p ∈ (scanInWrite topic after maxClaimScanRows l).entries,
            ¬ Passed (view l consumer).resolvedThrough p := by
          intro p hp
          rw [hafter]
          exact (mem_positionsAfter.mp (List.mem_of_mem_take hp)).2
        have hfilled := hgap d.position (scanned_indexed hconsumer _ hdin) (hopen _ hdin)
          (by rw [view_get, hrow]; rfl) q (scanned_indexed hconsumer _ hqin) hlt (hopen _ hqin)
        rw [(hrows q hqin).1] at hq
        rw [view_get, Option.map_eq_none_iff.mp hq] at hfilled
        cases hfilled

theorem view_zeroLeases (ds : List OutboxDelivery) : view (zeroLeases consumer ds l) consumer =
      { view l consumer with rows := (view (zeroLeases consumer ds l) consumer).rows } := by
  conv_lhs => rw [zeroLeases_frame]
  rfl

section
variable (hinjective : RowInjective (indexOf l consumer))
include hinjective

theorem reclaimed_steps (hconsumer : l.consumers.get consumer = some topic)
    (hds : expiredDeliveries consumer acked nowMs l
      (scanInWrite topic after maxClaimScanRows l).entries = .ok ds)
    (hcounted : ds.length ≤ (view l consumer).inflight) :
    Steps consumer clock (view l consumer) []
      { view (zeroLeases consumer ds l) consumer with
        inflight := (view l consumer).inflight - ds.length } := by
  obtain ⟨hsub, hexpired, -⟩ := expiredDeliveries_ok hds
  exact zeroLeases_steps ds l (view l consumer).inflight
    (fun d hd => ⟨(hexpired d hd).1, isExpired_held (hexpired d hd).2⟩)
    (rows_nodup hinjective (scanned_indexed hconsumer) scanned_nodup hsub) hcounted

theorem scanned_zeroed (hconsumer : l.consumers.get consumer = some topic)
    (hsteady : (view l consumer).rewinding = none)
    (hafter : (view l consumer).resolvedThrough = after)
    (hpositions : validatePositions topic identity l
      (scanInWrite topic after maxClaimScanRows l).entries = .ok u)
    (hds : expiredDeliveries consumer acked nowMs l
      (scanInWrite topic after maxClaimScanRows l).entries = .ok ds) :
    Scanned consumer topic nowMs after (zeroLeases consumer ds l)
      (scanInWrite topic after maxClaimScanRows l).entries := by
  have hrows := reclaimed_rows hinjective (scanned_indexed hconsumer) scanned_nodup hds
  refine ⟨?_, ?_, ?_, ?_, ?_, fun p hp => (hrows p hp).2, ?_⟩
  · rw [zeroLeases_frame]
    exact hconsumer
  · rw [view_zeroLeases]
    exact hsteady
  · rw [view_zeroLeases]
    exact hafter
  · rw [zeroLeases_frame]
    rfl
  · rw [show indexOf _ consumer = indexOf l consumer from congrArg View.index (view_zeroLeases ds)]
    exact hinjective
  · intro p hp
    obtain ⟨_, hp⟩ := validatePositions_ok hpositions p hp
    rw [zeroLeases_frame]
    exact validatePosition_record hp

/-- **A claim from a page** deals with it as the machine does. -/
theorem claimPage_claims
    (hgap : (view l consumer).NoGap) (hconsumer : l.consumers.get consumer = some topic)
    (hsteady : (view l consumer).rewinding = none)
    (hstate : (view l consumer).inflight = state.inflight)
    (h : claimPage identity topic consumer budget state l = .ok (outcome, l')) :
    ∃ es, Claims consumer clock budget.nowMs outcome es l l' := by
  unfold claimPage at h
  simp only [bind_eq_ok] at h
  obtain ⟨cursor, hcursor, _, hvalid, page, hpage, ⟨gate, state', l₁⟩, hreclaim, h⟩ := h
  have hscanned := hpage
  obtain ⟨_, hpositions, -⟩ := unbind hscanned
  obtain rfl := scanValidatedPage_ok hpage
  have hafter := (readClaimCursor_ok hcursor).2
  obtain ⟨ds, hds, hcounted, hinflight, hgate⟩ := reclaimRoom_ok hreclaim
  have hrows := reclaimed_rows hinjective (scanned_indexed hconsumer) scanned_nodup hds
  have hzeroed : Steps consumer clock (view l consumer) []
      { view (zeroLeases consumer ds l) consumer with inflight := state'.inflight } := by
    rw [hinflight, ← hstate]
    exact reclaimed_steps hinjective hconsumer hds (by rw [hstate]; exact hcounted)
  rcases hgate with ⟨rfl, hfree, rfl⟩ | ⟨reason, rfl, rfl⟩
  · simp only [bind_eq_ok] at h
    obtain ⟨gate, hdecide, h⟩ := h
    cases gate with
    | deferred reason =>
      obtain ⟨rfl, rfl⟩ := Prod.mk.inj (pure_eq_ok.mp h)
      obtain rfl := nothing_reclaimed hinjective hgap hconsumer hafter hds
        (decideClaimRoom_deferred hdecide)
      exact ⟨[], claims_deferral (Delivers.refl consumer clock l)⟩
    | room n =>
      have hroom := decideClaimRoom_ok (by omega) hdecide
      have hscan := scanned_zeroed hinjective hconsumer hsteady hafter hpositions hds
      have hboundary : ∀ p, cursor.resolvedThrough = some p →
          p ∈ indexOf (zeroLeases consumer ds l) consumer := by
        intro p hp
        rw [show indexOf _ consumer = indexOf l consumer from
          congrArg View.index (view_zeroLeases ds)]
        exact (mem_indexOf hconsumer).mpr (validateClaimCursor_ok hvalid p hp)
      obtain ⟨es, hsteps, helse, hnotices, howners, hundelivered, hleases⟩ :
          ∃ es, Steps consumer clock _ es (view l' consumer) ∧ _ :=
        installPage_steps hscan hboundary (by omega) h
      refine ⟨es, ⟨hzeroed.trans hsteps, (elsewhere_zeroLeases _ _).trans helse⟩, hnotices, howners,
        hundelivered, fun previous d he => ?_⟩
      obtain ⟨hin, hprevious⟩ := hleases previous d he
      refine ⟨hsteady, scanned_indexed hconsumer _ hin, ?_, ?_⟩
      · rw [hafter]
        exact (mem_positionsAfter.mp (List.mem_of_mem_take hin)).2
      · rw [hprevious, (hrows _ hin).1]
  · obtain ⟨rfl, rfl⟩ := Prod.mk.inj (pure_eq_ok.mp h)
    refine ⟨[], claims_deferral ⟨?_, ?_⟩⟩
    · split_ifs with hsome
      · rw [view_writeConsumerState]
        exact hzeroed
      · obtain rfl := List.length_eq_zero_iff.mp (Nat.eq_zero_of_not_pos hsome)
        exact .refl _
    · split_ifs
      · exact (elsewhere_zeroLeases _ _).trans (elsewhere_writeConsumerState _)
      · exact elsewhere_zeroLeases _ _

end

/-- **A claim** is a sequence of moves of its consumer. -/
theorem claim_claims {budget' : OutboxClaimBudget} (hinjective : RowInjective (indexOf l consumer))
    (hgap : (view l consumer).rewinding = none → (view l consumer).NoGap)
    (h : claim identity consumer budget l = .ok (outcome, budget', l')) :
    ∃ es, Claims consumer clock budget.nowMs outcome es l l' := by
  obtain ⟨reason, rfl, rfl⟩ | ⟨topic, state, htopic, hsteady, hstate, hclaim⟩ := claim_ok h
  · exact ⟨[], claims_deferral (Delivers.refl consumer clock _)⟩
  · exact claimPage_claims hinjective (hgap hsteady) (subscribedTopic_ok htopic) hsteady
      (readConsumerState_ok hstate).2.1 hclaim

end

end Medulla.Outbox.ClaimSteps
