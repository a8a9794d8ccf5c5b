import Medulla.Outbox.NoLoss

/-! # Acknowledgements come in order

A consumer that is never rewound resolves its topic from the front.

* one move: `acked_move`; every run: `acked_run`;
* the result: `acknowledged_in_order`. -/

namespace Medulla.Outbox.AckOrder

open Library.Checked Library.Transaction Types.Batch Types.Records Mutation.State Mutation.Commit
open Mutation.Kernel Mutation.Runs Mutation.RouteFence Outbox.Index Rows Claim
open Cursor Rewind Machine Views Refinement ClaimSteps
open Streams Outbox.Ordering Frames
open Library.OrderedTable (Table)

variable {cursor : OutboxClaimCursor} {budget : OutboxClaimBudget} {p : OutboxPosition}
  {acked : Option OutboxPosition} {receipt : MutationProjectionCursor}

/-! ### The invariant -/

def Done (ds : List OutboxPosition) (v : View) (p : OutboxPosition) : Prop :=
  v.ResolvedAt p ∨ v.rows.get p.row = none ∧ p ∈ ds

/-- What was delivered so far grows, lies behind the prefix, and accounts for every delivered row; the
prefix has only positions that are done with. -/
structure Acked (ds : List OutboxPosition) (v : View) : Prop where
  steady : v.rewinding = none
  increasing : ds.Pairwise (· < ·)
  behind : ∀ p ∈ ds, Passed v.resolvedThrough p
  delivered : ∀ k d, v.rows.get k = some d → d.delivered = true → d.position ∈ ds
  passed : ∀ p ∈ v.index, Passed v.resolvedThrough p → Done ds v p

section
variable {consumer : String} {clock : ℕ} {v v' : View} {es : List Event}
  {ds qs : List OutboxPosition} {d e : OutboxDelivery} {q : OutboxPosition}

theorem Acked.ahead (h : Acked ds v) (hin : d.position ∈ v.index)
    (hrow : v.rows.get d.position.row = some d) (hopen : d.resolved = false) :
    ¬ Passed v.resolvedThrough d.position := by
  intro hpassed
  rcases h.passed d.position hin hpassed with ⟨e, he, hresolved⟩ | ⟨hnone, -⟩
  · rw [hrow] at he
    rw [← Option.some.inj he, hopen] at hresolved
    cases hresolved
  · exact absurd (hnone.symm.trans hrow) (by simp)

section
variable (h : Acked ds v) (ho : Ordered consumer v) (n : ℕ)
include h ho n

theorem Acked.put (r : Option OutboxPosition)
    (hin : e.position ∈ v.index) (hsub : ∀ p ∈ ds, p ∈ qs) (hincreasing : qs.Pairwise (· < ·))
    (hbehind : ∀ p ∈ qs, Passed r p) (hdelivered : e.delivered = true → e.position ∈ qs)
    (hopen : e.resolved = true ∨ ¬ Passed r e.position)
    (hnew : ∀ p ∈ v.index, Passed r p → p ≠ e.position →
      Passed v.resolvedThrough p ∨ v.ResolvedAt p) :
    Acked qs { v.put e with inflight := n, resolvedThrough := r } := by
  refine ⟨h.steady, hincreasing, hbehind, fun k d hd hdone => ?_, fun p hp hpassed => ?_⟩
  · rw [put_get] at hd
    split_ifs at hd with hk
    · obtain rfl := Option.some.inj hd
      exact hdelivered hdone
    · exact hsub _ (h.delivered k d hd hdone)
  · unfold Done View.ResolvedAt
    rw [put_get]
    by_cases hk : p.row = e.position.row
    · have heq : p = e.position := ho.position_eq hp hin hk
      rw [if_pos hk]
      refine Or.inl ⟨e, rfl, hopen.resolve_right ?_⟩
      rw [← heq]
      exact fun hahead => hahead hpassed
    · rw [if_neg hk]
      have hne : p ≠ e.position := fun heq => hk (by rw [heq])
      rcases hnew p hp hpassed hne with hold | hresolved
      · exact (h.passed p hp hold).imp id fun hgone => ⟨hgone.1, hsub p hgone.2⟩
      · exact Or.inl hresolved

theorem Acked.rewrite
    (hin : e.position ∈ v.index) (hdelivered : e.delivered = true → e.position ∈ ds)
    (hopen : e.resolved = true ∨ ¬ Passed v.resolvedThrough e.position) :
    Acked ds { v.put e with inflight := n } :=
  h.put ho n v.resolvedThrough hin (fun _ hp => hp) h.increasing h.behind hdelivered hopen
    fun _ _ hpassed _ => Or.inl hpassed

theorem Acked.advance (hin : e.position ∈ v.index) (hresolved : e.resolved = true)
    (hahead : ¬ Passed v.resolvedThrough e.position) (hclear : v.Clear e.position) :
    Acked (ds ++ [e.position])
      { v.put e with inflight := n, resolvedThrough := some e.position } := by
  have hlt : ∀ p ∈ ds, p < e.position := by
    intro p hp
    by_contra hle
    exact hahead ((h.behind p hp).mono (not_lt.mp hle))
  refine h.put ho n _ hin (fun p hp => List.mem_append_left _ hp) ?_ ?_ ?_ (Or.inl hresolved) ?_
  · refine List.pairwise_append.mpr ⟨h.increasing, List.pairwise_singleton _ _, fun p hp q hq => ?_⟩
    rw [List.mem_singleton.mp hq]
    exact hlt p hp
  · intro p hp
    rcases List.mem_append.mp hp with hp | hp
    · exact passed_some.mpr (hlt p hp).le
    · rw [List.mem_singleton.mp hp]
      exact passed_some.mpr le_rfl
  · exact fun _ => List.mem_append_right _ (List.mem_singleton_self _)
  · intro p hp hpassed hne
    by_cases hold : Passed v.resolvedThrough p
    · exact Or.inl hold
    · exact Or.inr (hclear p hp (lt_of_le_of_ne (passed_some.mp hpassed) hne) hold)

end

/-- **Every move keeps acknowledgements in order** until a rewind starts. -/
theorem acked_move (m : Machine.Move consumer clock v es v') (ho : Ordered consumer v)
    (hes : ∀ start target, Event.rewound start target ∉ es) (h : Acked ds v) :
    Acked (ds ++ deliveredIn es) v' := by
  have hquiet : Acked ds v' → deliveredIn es = [] → Acked (ds ++ deliveredIn es) v' := by
    intro h' hnone
    rw [hnone, List.append_nil]
    exact h'
  cases m with
  | grow index kept later injective =>
    refine hquiet ⟨h.steady, h.increasing, h.behind, h.delivered, fun p hp hpassed => ?_⟩ rfl
    cases hr : v.resolvedThrough with
    | none => exact absurd (hr ▸ hpassed) not_passed_none
    | some r =>
      have hle : p ≤ r := by simpa [hr, passed_some] using hpassed
      have hin : p ∈ v.index := by
        by_contra hnew
        exact absurd (later p hp hnew r (ho.resolved r hr)) (not_lt.mpr hle)
      exact h.passed p hin hpassed
  | zero d row held counted =>
    have hin := (ho.rows _ d row).2.1
    simp only [OutboxDelivery.held, Bool.and_eq_true, Bool.not_eq_true'] at held
    have hahead : ¬ Passed v.resolvedThrough d.position := h.ahead hin row held.1
    exact hquiet (h.rewrite (e := { d with leaseUntilMs := 0 }) ho _ hin (h.delivered _ d row)
      (Or.inr hahead)) rfl
  | lease p d steady indexed ahead filled free room leases =>
    obtain rfl := leases.position
    refine hquiet (h.rewrite ho _ indexed ?_ (Or.inr ahead)) rfl
    intro hdone
    simp [OutboxDelivery.delivered, leases.undelivered] at hdone
  | deadLetter d nowMs steady row free exhausted =>
    refine hquiet (h.rewrite (e := { d with deadLetteredAtMs := some nowMs }) ho v.inflight
      (ho.rows _ d row).2.1 (h.delivered _ d row) (Or.inl ?_)) rfl
    simp [OutboxDelivery.resolved, OutboxDelivery.deadLettered]
  | ack d nowMs time steady row unresolved valid ahead clear counted =>
    exact h.advance (e := { d with deliveredAtMs := some nowMs }) ho _ (ho.rows _ d row).2.1 rfl ahead
      clear
  | reject d nowMs time steady row unresolved valid counted =>
    refine hquiet (h.rewrite (e := rejected d nowMs) ho _ (ho.rows _ d row).2.1
      (h.delivered _ d row) (Or.inl ?_)) rfl
    simp [rejected, OutboxDelivery.resolved, OutboxDelivery.deadLettered]
  | supersede p nowMs steady indexed ahead clear free =>
    exact h.advance (e := superseded consumer p nowMs) ho v.inflight indexed rfl ahead clear
  | extend p steady indexed ahead clear resolved =>
    refine hquiet ⟨h.steady, h.increasing, fun q hq => (h.behind q hq).extend ahead, h.delivered,
      fun q hq hpassed => ?_⟩ rfl
    by_cases hold : Passed v.resolvedThrough q
    · exact h.passed q hq hold
    · rcases (passed_some.mp hpassed).lt_or_eq with hlt | rfl
      · exact Or.inl (clear q hq hlt hold)
      · exact Or.inl resolved
  | prune rows steady gone =>
    refine hquiet ⟨h.steady, h.increasing, h.behind, fun k d hd hdone => ?_,
      fun p hp hpassed => ?_⟩ rfl
    · exact h.delivered k d (row_of_gone (gone k) hd) hdone
    · unfold Done View.ResolvedAt
      rcases gone p.row with hsame | ⟨hnone, d, hd, hdone, -⟩
      · simp only [hsame]
        exact h.passed p hp hpassed
      · obtain ⟨hk, hin, -⟩ := ho.rows _ d hd
        rw [ho.position_eq hp hin hk.symm] at hnone ⊢
        exact Or.inr ⟨hnone, h.delivered _ d hd hdone⟩
  | notePrune cursor complete position boundary =>
    exact hquiet ⟨h.steady, h.increasing, h.behind, h.delivered, h.passed⟩ rfl
  | rewind target predecessor steady indexed splits =>
    exact absurd (List.mem_singleton_self _) (hes _ _)
  | sweep cursor rows next walking indexed ahead gone kept =>
    exact absurd (h.steady.symm.trans walking) (by simp)
  | finishSweep cursor rows walking gone kept =>
    exact absurd (h.steady.symm.trans walking) (by simp)

theorem acked_steps (s : Steps consumer clock v es v') (ho : Ordered consumer v)
    (hes : ∀ start target, Event.rewound start target ∉ es) (h : Acked ds v) :
    Acked (ds ++ deliveredIn es) v' := by
  have hboth : Ordered consumer v' ∧ Acked (ds ++ deliveredIn es) v' := by
    induction s with
    | refl => exact ⟨ho, by simpa [deliveredIn] using h⟩
    | tail _ last ih =>
      obtain ⟨ho', h'⟩ := ih fun start target he => hes start target (List.mem_append_left _ he)
      refine ⟨ordered_move last ho', ?_⟩
      rw [deliveredIn_append, ← List.append_assoc]
      exact acked_move last ho' (fun start target he => hes start target
        (List.mem_append_right _ he)) h'
  exact hboth.2

end

/-! ### The acknowledged watermark -/

def ackedThroughOf (l : Ledger) (consumer : String) : Option OutboxPosition :=
  (l.claimCursors.get consumer).bind OutboxClaimCursor.ackedThrough

/-- The watermark moved to the last of some positions, if there are any. -/
def Marks (consumer : String) (ds : List OutboxPosition) (l l' : Ledger) : Prop :=
  ackedThroughOf l' consumer = ds.getLast?.or (ackedThroughOf l consumer)

section
variable {identity : MutationScopeIdentity} {owner : OwnedStoreHandle} {consumer other topic : String}
  {lease : MutationOutboxLease} {nowMs : ℕ} {l l' l'' : Ledger} {w w' : Write}
  {ds qs : List OutboxPosition}

theorem Marks.trans (h : Marks consumer ds l l') (h' : Marks consumer qs l' l'') :
    Marks consumer (ds ++ qs) l l'' := by
  unfold Marks at *
  rw [h', h, List.getLast?_append, Option.or_assoc]

theorem marks_of_eq (h : l'.claimCursors = l.claimCursors) : Marks consumer [] l l' := by
  unfold Marks ackedThroughOf
  rw [h]
  rfl

theorem marks_of_frame (h : frame l' = frame l) : Marks consumer [] l l' :=
  marks_of_eq (claimCursors_of_frame h)

theorem marks_of_side (h : side l' = side l) : Marks consumer [] l l' :=
  marks_of_eq (show (side l').claimCursors = (side l).claimCursors by rw [h])

theorem readClaimCursor_acked (h : readClaimCursor consumer l = .ok cursor) :
    ackedThroughOf l consumer = cursor.ackedThrough := by
  unfold readClaimCursor at h
  unfold ackedThroughOf
  cases hc : l.claimCursors.get consumer with
  | none =>
    simp only [hc] at h
    rw [← Except.ok.inj h]
    rfl
  | some stored =>
    simp only [hc, bind_eq_ok, pure_eq_ok] at h
    obtain ⟨_, -, rfl⟩ := h
    rfl

theorem marks_writeClaimCursor (hl : l'.claimCursors = l.claimCursors.insert other cursor)
    (hcursor : cursor.ackedThrough = ds.getLast?.or (ackedThroughOf l other)) :
    Marks consumer (if other = consumer then ds else []) l l' := by
  unfold Marks ackedThroughOf
  rw [hl]
  by_cases heq : other = consumer
  · subst heq
    rw [if_pos rfl, Table.get_insert_self]
    exact hcursor
  · rw [if_neg heq, Table.get_insert_of_ne _ _ (Ne.symm heq)]
    rfl

/-! ### Claims -/

/-- **A claim leaves every watermark.** -/
theorem claim_marks {budget' : OutboxClaimBudget} {outcome : OutboxClaimOutcome}
    (h : claim identity other budget l = .ok (outcome, budget', l')) : Marks consumer [] l l' := by
  obtain ⟨reason, -, rfl⟩ | ⟨topic, state, -, -, -, hclaim⟩ := claim_ok h
  · exact marks_of_eq rfl
  · unfold claimPage at hclaim
    simp only [bind_eq_ok] at hclaim
    obtain ⟨cursor, hcursor, _, -, page, -, ⟨gate, state', l₂⟩, hreclaim, hclaim⟩ := hclaim
    have hl₂ := claimCursors_of_frame (frame_reclaimRoom hreclaim)
    cases gate with
    | deferred reason =>
      exact marks_of_eq (by rw [← (Prod.mk.inj (pure_eq_ok.mp hclaim)).2]; exact hl₂)
    | room room =>
      simp only [bind_eq_ok] at hclaim
      obtain ⟨gate, -, hclaim⟩ := hclaim
      cases gate with
      | deferred reason =>
        exact marks_of_eq (by rw [← (Prod.mk.inj (pure_eq_ok.mp hclaim)).2]; exact hl₂)
      | room n =>
        unfold installPage at hclaim
        simp only [bind_eq_ok] at hclaim
        obtain ⟨s, hinstall, l₃, hprune, hclaim⟩ := hclaim
        have hl₃ : l₃.claimCursors = l.claimCursors := by
          rw [claimCursors_of_frame (frame_pruneResolved hprune),
            claimCursors_of_frame (frame_installLeases hinstall)]
          exact hl₂
        rw [← (Prod.mk.inj (pure_eq_ok.mp hclaim)).2]
        have hwritten : (writeConsumerState other (accrue s.state budget identity.tenant
            s.claimed.length) (writeClaimCursor other { cursor with
              resolvedThrough := s.resolvedThrough.or cursor.resolvedThrough } l₃)).claimCursors =
            l.claimCursors.insert other { cursor with
              resolvedThrough := s.resolvedThrough.or cursor.resolvedThrough } := by
          simp only [writeConsumerState, writeClaimCursor, hl₃]
        have hmarks : Marks consumer (if other = consumer then [] else []) l _ :=
          marks_writeClaimCursor hwritten (readClaimCursor_acked hcursor).symm
        rw [ite_self] at hmarks
        exact hmarks

/-! ### Acknowledgements and supersessions -/

theorem prepareAck_acked {d : OutboxDelivery} {cursor : MutationProjectionCursor}
    {claimCursor : OutboxClaimCursor}
    (h : prepareAck identity lease nowMs l = .ok (.advance d cursor claimCursor)) :
    claimCursor.ackedThrough = some d.position := by
  unfold prepareAck at h
  simp only [bind_eq_ok] at h
  obtain ⟨d', -, _, -, current, -, r, -, h⟩ := h
  cases r with
  | some replayed => simp at h
  | none =>
    simp only [bind_eq_ok] at h
    obtain ⟨claim, -, topic, -, _, -, _, -, _, -, _, -, _, -, _, -, rfl, -, rfl⟩ := h
    rfl

/-- **An acknowledgement moves the watermark of its consumer** to what it delivers. -/
theorem ack_marks {cursor : MutationProjectionCursor}
    (h : ack identity lease nowMs l = .ok (cursor, l')) :
    Marks consumer (if lease.consumer = consumer then ackSettles identity lease nowMs l else []) l
      l' := by
  obtain ⟨prepared, hprepare, h⟩ := unbind h
  cases prepared with
  | replayed replay =>
    rw [← (Prod.mk.inj (pure_eq_ok.mp h)).2]
    simp only [ackSettles, hprepare, ite_self]
    exact marks_of_eq rfl
  | advance d cursor' claimCursor =>
    simp only [bind_eq_ok, pure_eq_ok, Prod.mk.injEq] at h
    obtain ⟨l₁, hrecord, -, rfl⟩ := h
    have hwritten : l₁.claimCursors = l.claimCursors.insert lease.consumer claimCursor := by
      rw [claimCursors_of_frame (frame_recordDelivered hrecord)]
      rfl
    simp only [ackSettles, hprepare]
    refine marks_writeClaimCursor hwritten ?_
    rw [prepareAck_acked hprepare]
    rfl

theorem supersedeRow_marks {expected : MutationOutboxRecord} {claimCursor : OutboxClaimCursor}
    {previous : Option OutboxDelivery}
    (h : supersedeRow identity other expected p claimCursor previous nowMs l = .ok (receipt, l')) :
    Marks consumer (if other = consumer then [p] else []) l l' := by
  unfold supersedeRow recordSuperseded at h
  simp only [bind_eq_ok, pure_eq_ok] at h
  obtain ⟨_, -, _, -, _, -, l₁, ⟨state, -, _, -, _, -, rfl⟩, -, rfl⟩ := h
  have hcursor : (advanceClaimCursor claimCursor p).ackedThrough =
      [p].getLast?.or (ackedThroughOf l other) := rfl
  exact marks_writeClaimCursor rfl hcursor

/-- **A supersession moves the watermark of its consumer** to what it delivers. -/
theorem supersede_marks {expected : MutationOutboxRecord}
    (h : supersede identity other expected nowMs l = .ok (receipt, l')) :
    Marks consumer (if other = consumer then supersedeSettles other expected l else []) l l' := by
  unfold supersede at h
  simp only [bind_eq_ok] at h
  obtain ⟨_, -, _, -, pending, -, _, -, p, hp, _, -, l₁, hsubscribe, _, -, claimCursor, -, _, -,
    source, hsource, h⟩ := h
  have hstart : Marks consumer [] l l₁ := marks_of_frame (frame_subscribeIn hsubscribe)
  have hrow : deliveryAt l₁ other p = deliveryAt l other p := by
    unfold deliveryAt
    rw [deliveries_subscribeIn hsubscribe]
  simp only [supersedeSettles, hp]
  unfold readSourceDelivery at hsource
  cases hd : deliveryAt l₁ other p with
  | none =>
    simp only [hd] at hsource
    obtain rfl := Except.ok.inj hsource
    rw [← hrow, hd]
    exact hstart.trans (supersedeRow_marks h)
  | some d =>
    simp only [hd, bind_eq_ok, pure_eq_ok] at hsource
    obtain ⟨_, -, _, -, _, -, rfl⟩ := hsource
    rw [← hrow, hd]
    simp only at h
    split_ifs at h with hdead hdelivered
    · obtain ⟨_, -, h⟩ := unbind h
      rw [← (Prod.mk.inj (pure_eq_ok.mp h)).2, Option.any_some, if_pos hdelivered, ite_self]
      exact hstart
    · rw [Option.any_some, if_neg hdelivered]
      exact hstart.trans (supersedeRow_marks h)

/-! ### Other calls -/

theorem exec_marks {c : WriteCall} {u : Unit} (hpurge : callPurges c = false)
    (h : c.exec w = .ok u w') :
    Marks consumer (deliveredOfCall w.owner.identity consumer w.ledger c) w.ledger w'.ledger := by
  have hquiet : callDelivers c = false → Marks consumer [] w.ledger w'.ledger :=
    fun hdeliver => marks_of_side (exec_side hdeliver hpurge h)
  cases c with
  | ack lease nowMs =>
    simp only [WriteCall.exec] at h
    obtain ⟨cursor, l', hack, rfl⟩ := deliverIn_ok h
    exact ack_marks hack
  | reject lease nowMs =>
    simp only [WriteCall.exec] at h
    obtain ⟨_, l', hreject, rfl⟩ := deliverIn_ok h
    cases hr : reject w.owner.identity lease nowMs w.ledger with
    | error e => simp [hr, Except.map] at hreject
    | ok l₁ =>
      simp only [hr] at hreject
      obtain ⟨-, rfl⟩ := hreject
      exact marks_of_frame (frame_reject hr)
  | supersede other expected nowMs =>
    simp only [WriteCall.exec] at h
    obtain ⟨receipt, l', hsupersede, rfl⟩ := deliverIn_ok h
    exact supersede_marks hsupersede
  | purgeGeneration => cases hpurge
  | _ => exact hquiet rfl

theorem execCalls_marks :
    ∀ {calls : List WriteCall} {w : Write} {u : Unit}, (∀ c ∈ calls, callPurges c = false) →
      execCalls calls w = .ok u w' →
      Marks consumer (deliveredOfCalls consumer calls w) w.ledger w'.ledger
  | [], w, _, _, h => by
    obtain ⟨-, rfl⟩ := Txn.pure_ok.mp h
    exact marks_of_eq rfl
  | c :: cs, w, _, hpurge, h => by
    obtain ⟨_, w₁, h1, h2⟩ := Txn.bind_ok.mp h
    have hfirst : Marks consumer _ w.ledger w₁.ledger := exec_marks (hpurge c (.head _)) h1
    have hrest : Marks consumer _ w₁.ledger w'.ledger :=
      execCalls_marks (fun d hd => hpurge d (.tail _ hd)) h2
    simp only [deliveredOfCalls, h1]
    exact hfirst.trans hrest

def kernelRewinds : KernelCall → Bool
  | .rewind _ _ _ => true
  | _ => false

/-- **Every call but a rewind** moves the watermark of every consumer to what it delivers. -/
theorem step_marks {c : KernelCall} (hpurge : kernelPurges c = false)
    (hrewind : kernelRewinds c = false) :
    Marks consumer (deliveredOf owner consumer l c) l (step owner l c) := by
  cases c with
  | write calls finish =>
    simp only [deliveredOf, step, commitWrite]
    cases h : execWrite calls finish (Write.opened owner l) with
    | error e w => exact marks_of_eq rfl
    | ok commits w =>
      cases commits with
      | false => exact marks_of_eq rfl
      | true =>
        obtain ⟨_, w₁, h1, h2⟩ := Txn.bind_ok.mp h
        have hcalls : ∀ d ∈ calls, callPurges d = false :=
          fun d hd => by simpa using List.any_eq_false.mp hpurge d hd
        have hfirst : Marks consumer _ l w₁.ledger := execCalls_marks hcalls h1
        have hall := hfirst.trans (marks_of_side (end_side h2))
        rw [List.append_nil] at hall
        exact hall
  | sagaStep b preparedAtMs payload => exact marks_of_side sagaStep_side
  | sagaEnd b result committedAtMs => exact marks_of_side sagaEnd_side
  | subscribe other topic =>
    simp only [step]
    cases h : subscribeIn other topic l with
    | error e => exact marks_of_eq rfl
    | ok l' => exact marks_of_frame (frame_subscribeIn h)
  | claim other budget =>
    simp only [step]
    cases h : Outbox.Claim.claim owner.identity other budget l with
    | error e => exact marks_of_eq rfl
    | ok r => exact claim_marks h
  | ack lease nowMs =>
    simp only [deliveredOf, step]
    cases h : Outbox.Cursor.ack owner.identity lease nowMs l with
    | error e => exact marks_of_eq rfl
    | ok r => exact ack_marks h
  | reject lease nowMs =>
    simp only [step]
    cases h : Outbox.Cursor.reject owner.identity lease nowMs l with
    | error e => exact marks_of_eq rfl
    | ok l' => exact marks_of_frame (frame_reject h)
  | release lease =>
    simp only [step]
    cases h : release owner.identity lease l with
    | error e => exact marks_of_eq rfl
    | ok l' => exact marks_of_frame (frame_release h)
  | expire other nowMs =>
    simp only [step]
    cases h : expire owner.identity other nowMs l with
    | error e => exact marks_of_eq rfl
    | ok r => exact marks_of_frame (frame_expire h)
  | rewind other target nowMs => cases hrewind
  | backfillGate =>
    simp only [step]
    cases h : backfillGate owner.identity l with
    | error e => exact marks_of_eq rfl
    | ok l' =>
      unfold backfillGate at h
      simp only [bind_eq_ok, pure_eq_ok] at h
      obtain ⟨_, -, state, -, rfl⟩ := h
      split_ifs <;> rfl
  | backfillPage =>
    simp only [step]
    cases h : backfillIn owner.identity l with
    | error e => exact marks_of_eq rfl
    | ok r =>
      obtain ⟨_, -, hpage⟩ := unbind h
      refine marks_of_eq ?_
      simp only [settle]
      rw [backfillPage_frame hpage]

end

/-! ### Runs -/

/-- What the acknowledgements and supersessions of a run made durable for a consumer, in order. -/
def runDelivered (owner : OwnedStoreHandle) (consumer : String) :
    Ledger → List KernelCall → List OutboxPosition
  | _, [] => []
  | l, c :: cs => deliveredOf owner consumer l c ++ runDelivered owner consumer (step owner l c) cs

/-- An event of a topic is done with: its delivery row is resolved, or is gone and the event was
delivered. -/
def doneWith (l : Ledger) (consumer : String) (ds : List OutboxPosition) (p : OutboxPosition) : Bool :=
  match deliveryAt l consumer p with
  | some d => d.resolved
  | none => p ∈ ds

section
variable {owner : OwnedStoreHandle} {l : Ledger} {consumer topic : String}
  {ds : List OutboxPosition} {q : OutboxPosition}

theorem doneWith_iff : doneWith l consumer ds p = true ↔ Done ds (view l consumer) p := by
  unfold doneWith Done View.ResolvedAt
  rw [view_get]
  cases deliveryAt l consumer p with
  | none => simp
  | some d => simp

theorem not_rewound {c : KernelCall} {es : List Event} {clock : ℕ}
    (hserves : Serves consumer clock (noticesOf owner consumer l c) es l (step owner l c))
    (hrewind : kernelRewinds c = false) : ∀ start target, Event.rewound start target ∉ es := by
  intro start target he
  obtain ⟨-, t, nowMs, rfl, -⟩ := rewind_of_serves hserves he
  cases hrewind

/-- **A run without a rewind** keeps acknowledgements in order and the watermark at the last one. -/
theorem acked_run : ∀ (calls : List KernelCall) (l : Ledger) (ds : List OutboxPosition), Sound l →
      Acked ds (view l consumer) → ackedThroughOf l consumer = ds.getLast? →
      (∀ c ∈ calls, kernelPurges c = false ∧ kernelRewinds c = false) →
      Acked (ds ++ runDelivered owner consumer l calls) (view (runKernel owner l calls) consumer) ∧
        ackedThroughOf (runKernel owner l calls) consumer =
          (ds ++ runDelivered owner consumer l calls).getLast?
  | [], l, ds, _, h, hmark, _ => by
    rw [runDelivered, List.append_nil]
    exact ⟨h, hmark⟩
  | c :: cs, l, ds, hsound, h, hmark, hcalls => by
    obtain ⟨hpurge, hrewind⟩ := hcalls c (.head _)
    obtain ⟨es, hserves, hdelivered⟩ : ∃ es, Serves consumer 0 (noticesOf owner consumer l c) es l
        (step owner l c) ∧ deliveredIn es = deliveredOf owner consumer l c :=
      hsound.serves_delivered hpurge fun _ _ => Nat.zero_le _
    have hnext := acked_steps hserves.steps (hsound.ordered consumer)
      (not_rewound hserves hrewind) h
    rw [hdelivered] at hnext
    have hmoved : Marks consumer (deliveredOf owner consumer l c) l (step owner l c) :=
      step_marks hpurge hrewind
    unfold Marks at hmoved
    rw [hmark, ← List.getLast?_append] at hmoved
    rw [runDelivered, ← List.append_assoc]
    exact acked_run cs _ _ (hsound.after hpurge) hnext hmoved
      fun d hd => hcalls d (.tail _ hd)

theorem ack_refused {a : MutationOutboxLease} {nowMs : ℕ} (ho : Ordered a.consumer (view l a.consumer))
    (h : Acked ds (view l a.consumer)) (hp : p ∈ indexOf l a.consumer) (hrow : p.row = leaseKey a)
    (hq : q ∈ indexOf l a.consumer) (hlt : q < p) (hopen : ¬ Done ds (view l a.consumer) q) :
    ∃ e, Outbox.Cursor.ack owner.identity a nowMs l = .error e := by
  cases hack : Outbox.Cursor.ack owner.identity a nowMs l with
  | error e => exact ⟨e, rfl⟩
  | ok r =>
    exfalso
    have hahead : ¬ Passed (view l a.consumer).resolvedThrough q :=
      fun hpassed => hopen (h.passed q hq hpassed)
    obtain ⟨prepared, hprepare, -⟩ := unbind hack
    cases prepared with
    | advance d cursor claimCursor =>
      obtain ⟨hnamed, -, -, -, -, -, -, hclear, -⟩ := prepareAck_advance hprepare
      obtain rfl : p = d.position := ho.position_eq hp hnamed.indexed (hrow.trans hnamed.key.symm)
      exact hopen (Or.inl (hclear q hq hlt hahead))
    | replayed cursor =>
      -- a retry names a delivered row, and everything before that is behind the prefix
      unfold prepareAck at hprepare
      simp only [bind_eq_ok] at hprepare
      obtain ⟨d, hop, _, -, current, -, r, hresolve, hprepare⟩ := hprepare
      obtain ⟨hnamed, -⟩ := prepareDeliveryOp_ok hop
      obtain ⟨-, -, -, ⟨hdelivered, -⟩ | ⟨-, rfl, -⟩⟩ := resolveDelivered_ok hresolve
      · obtain rfl : p = d.position := ho.position_eq hp hnamed.indexed (hrow.trans hnamed.key.symm)
        have hin := h.delivered _ d hnamed.get hdelivered
        exact hahead ((h.behind _ hin).mono hlt.le)
      · simp only [bind_eq_ok] at hprepare
        obtain ⟨_, -, _, -, _, -, _, -, _, -, _, -, _, -, _, -, hfalse⟩ := hprepare
        cases hfalse

end

/-- **Acknowledgements come in order.** In every run without a rewind or a purge, and for every
consumer: its durable positions strictly increase; every indexed event before the acknowledged watermark
is resolved, or was delivered and pruned; and an acknowledgement over another one is refused and changes
nothing. -/
theorem acknowledged_in_order (owner : OwnedStoreHandle) (version : ℕ) (calls : List KernelCall)
    (consumer : String)
    (hcalls : ∀ c ∈ calls, kernelPurges c = false ∧ kernelRewinds c = false) :
    (runDelivered owner consumer (Ledger.bound version) calls).Pairwise (· < ·) ∧
    (∀ topic p q,
      (runKernel owner (Ledger.bound version) calls).consumers.get consumer = some topic →
      ackedThroughOf (runKernel owner (Ledger.bound version) calls) consumer = some p →
      positionExists (runKernel owner (Ledger.bound version) calls) topic q = true → q < p →
      doneWith (runKernel owner (Ledger.bound version) calls) consumer
        (runDelivered owner consumer (Ledger.bound version) calls) q = true) ∧
    ∀ topic p q (a : MutationOutboxLease) (nowMs : ℕ), a.consumer = consumer →
      (runKernel owner (Ledger.bound version) calls).consumers.get consumer = some topic →
      positionExists (runKernel owner (Ledger.bound version) calls) topic p = true →
      p.row = leaseKey a →
      positionExists (runKernel owner (Ledger.bound version) calls) topic q = true → q < p →
      doneWith (runKernel owner (Ledger.bound version) calls) consumer
        (runDelivered owner consumer (Ledger.bound version) calls) q = false →
      (∃ e, Outbox.Cursor.ack owner.identity a nowMs
        (runKernel owner (Ledger.bound version) calls) = .error e) ∧
      step owner (runKernel owner (Ledger.bound version) calls) (.ack a nowMs) =
        runKernel owner (Ledger.bound version) calls := by
  have hstart : Acked [] (view (Ledger.bound version) consumer) := by
    refine ⟨rfl, List.Pairwise.nil, fun p hp => absurd hp List.not_mem_nil, fun k d hd => ?_, ?_⟩
    · rw [show (view (Ledger.bound version) consumer).rows.get k = _ from
        deliveriesOf_get _ consumer k] at hd
      cases hd
    · rintro p ⟨topic, ht, -⟩
      cases ht
  obtain ⟨hacked, hmark⟩ : Acked ([] ++ runDelivered owner consumer (Ledger.bound version) calls) _ ∧
      _ := acked_run calls _ [] (sound_bound version) hstart rfl hcalls
  have hsound : Sound (runKernel owner (Ledger.bound version) calls) :=
    run_invariant_along (fun l c hc h => h.after hc) calls _
      (along_of_forall fun c hc => (hcalls c hc).1) (sound_bound version)
  refine ⟨hacked.increasing, fun topic p q htopic hp hq hlt => ?_,
    fun topic p q a nowMs ha htopic hp hrow hq hlt hopen => ?_⟩
  · rw [doneWith_iff]
    rw [hmark] at hp
    exact hacked.passed q ⟨topic, htopic, hq⟩
      ((hacked.behind p (List.mem_of_getLast? hp)).mono hlt.le)
  · subst ha
    obtain ⟨e, hack⟩ : ∃ e, Outbox.Cursor.ack owner.identity a nowMs _ = .error e :=
      ack_refused (hsound.ordered _) hacked ⟨topic, htopic, hp⟩ hrow ⟨topic, htopic, hq⟩ hlt
        fun hdone => absurd (hopen.symm.trans (doneWith_iff.mpr hdone)) (by simp)
    refine ⟨⟨e, hack⟩, ?_⟩
    simp only [step, hack, settle]

def secondLease : MutationOutboxLease :=
  ⟨outboxRecord sampleEvents (.graph 0 1) 1 (1, ⟨"topic", "second", [], []⟩), "reader", 1, 100, 0⟩

/-- The reader holds both events and acknowledges the second one first: it is refused. -/
theorem acknowledged_in_order_sample :
    (∀ c ∈ leasedRun, kernelPurges c = false ∧ kernelRewinds c = false) ∧
      ∃ e, Outbox.Cursor.ack sampleOwner.identity secondLease 1
        (runKernel sampleOwner (Ledger.bound 0) leasedRun) = .error e := by
  have hcalls : ∀ c ∈ leasedRun, kernelPurges c = false ∧ kernelRewinds c = false := by decide
  have hstate : (runKernel sampleOwner (Ledger.bound 0) leasedRun).consumers.get "reader" =
        some "topic" ∧
      positionExists (runKernel sampleOwner (Ledger.bound 0) leasedRun) "topic"
        (samplePosition 1) = true ∧
      positionExists (runKernel sampleOwner (Ledger.bound 0) leasedRun) "topic"
        (samplePosition 0) = true ∧
      doneWith (runKernel sampleOwner (Ledger.bound 0) leasedRun) "reader"
        (runDelivered sampleOwner "reader" (Ledger.bound 0) leasedRun) (samplePosition 0) = false := by
    decide +kernel
  exact ⟨hcalls, ((acknowledged_in_order sampleOwner 0 leasedRun "reader" hcalls).2.2 "topic"
    (samplePosition 1) (samplePosition 0) secondLease 1 rfl hstate.1 hstate.2.1 rfl hstate.2.2.1
    (by decide) hstate.2.2.2).1⟩

end Medulla.Outbox.AckOrder
