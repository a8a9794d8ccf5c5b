import Medulla.Outbox.ClaimSteps
import Medulla.Outbox.Publishing

/-! # Kernel calls as moves of every consumer

Every kernel call is, for every consumer, a sequence of moves of that consumer's view, and what an
observer sees of them is what the call reported. -/

namespace Medulla.Outbox.Streams

open Library.Checked Library.Transaction Types.Batch Types.Records Mutation.State Mutation.Replay
open Mutation.Commit Mutation.Saga Mutation.Kernel Mutation.Transitions Mutation.Runs Outbox.Index
open Rows Claim Cursor Rewind Machine Views
open Refinement ClaimSteps Publishing

variable {b : MutationBatch} {c : WriteCall} {finish : WriteEnd} {consumer : String} {l : Ledger}
  {n : Notice} {nowMs : ℕ}

/-! ### The delivery side -/

def side (l : Ledger) : Ledger :=
  { Ledger.bound 0 with
    consumers := l.consumers
    deliveries := l.deliveries
    cursors := l.cursors
    claimCursors := l.claimCursors
    expiryCursors := l.expiryCursors
    pruneCursors := l.pruneCursors
    rewindCursors := l.rewindCursors
    fairness := l.fairness }

section
variable {l' : Ledger} {w w' : Write} {owner : OwnedStoreHandle}

theorem view_of_side (h : side l' = side l) (consumer : String) :
    view l' consumer = { view l consumer with index := indexOf l' consumer } := by
  simp only [side, Ledger.mk.injEq] at h
  obtain ⟨-, -, -, -, -, -, -, -, hdeliveries, -, hclaim, -, hprune, hrewind, -, hfairness, -⟩ := h
  unfold view deliveriesOf
  rw [hdeliveries, hclaim, hprune, hrewind, hfairness]

theorem consumers_of_side (h : side l' = side l) : l'.consumers = l.consumers := by
  have hconsumers : (side l').consumers = (side l).consumers := by rw [h]
  exact hconsumers

theorem side_of_finishes {record : MutationBatchRecord} {replay : Option ReplayReceipt}
    (h : Finishes b record replay l l') : side l' = side l := by
  rw [h.frame]
  rfl

def callDelivers : WriteCall → Bool
  | .ack _ _ | .reject _ _ | .supersede _ _ _ => true
  | _ => false

/-- **A call that delivers nothing leaves the delivery side as it is.** -/
theorem exec_side {u : Unit} (hdeliver : callDelivers c = false) (hpurge : callPurges c = false)
    (h : c.exec w = .ok u w') : side w'.ledger = side w.ledger := by
  cases c with
  | begin b =>
    obtain ⟨_, _, h1, h⟩ := Txn.bind_ok.mp h
    obtain ⟨-, rfl⟩ := Txn.pure_ok.mp h
    rw [(guarded_of_admits (admits_of_beginInner h1)).2.1]
  | beginTopUp b =>
    obtain ⟨_, _, h1, h⟩ := Txn.bind_ok.mp h
    obtain ⟨-, rfl⟩ := Txn.pure_ok.mp h
    rw [(guarded_of_admits (admits_of_beginInner h1)).2.1]
  | beginWithReplayIdentity b operation nonce =>
    obtain ⟨_, _, h1, h⟩ := Txn.bind_ok.mp h
    obtain ⟨-, rfl⟩ := Txn.pure_ok.mp h
    rw [(guarded_of_admits (admits_of_beginWithReplayIdentity h1)).2.1]
  | ownerRows b =>
    simp only [WriteCall.exec, ownerRows, Txn.bind_ok, Txn.read_ok, Write.updateAdmission_ok] at h
    obtain ⟨_, _, ⟨-, rfl⟩, a, -, rfl⟩ := h
    rfl
  | purgeGeneration => cases hpurge
  | finishOwner =>
    simp only [WriteCall.exec, Txn.read_ok] at h
    obtain ⟨-, rfl⟩ := h
    rfl
  | dropOwner =>
    obtain ⟨a, -, rfl⟩ := h
    rfl
  | finish b result committedAtMs source =>
    obtain ⟨_, _, h1, h⟩ := Txn.bind_ok.mp h
    obtain ⟨-, rfl⟩ := Txn.pure_ok.mp h
    exact side_of_finishes (finishInner_ok h1).2.2.2.2.1
  | finishWithReplay b result committedAtMs source replay =>
    obtain ⟨_, _, h1, h⟩ := Txn.bind_ok.mp h
    obtain ⟨-, rfl⟩ := Txn.pure_ok.mp h
    exact side_of_finishes (finishInner_ok (finishWithReplay_ok h1)).2.2.2.2.1
  | recordReplay r =>
    obtain ⟨id, l, -, hrec, rfl⟩ := recordReplayIn_ok h
    rw [recordOperation_frame hrec]
    rfl
  | finalizeReplayReceipt r =>
    simp only [WriteCall.exec, finalizeReplayReceiptIn, Txn.bind_ok, Write.readLedger_ok,
      Write.modifyLedger_ok] at h
    obtain ⟨_, _, ⟨-, rfl⟩, rfl⟩ := h
    rfl
  | ack lease nowMs => cases hdeliver
  | reject lease nowMs => cases hdeliver
  | supersede consumer expected nowMs => cases hdeliver

theorem end_side {commits : Bool} (h : finish.exec w = .ok commits w') :
    side w'.ledger = side w.ledger := by
  cases finish with
  | commit b =>
    obtain ⟨_, w₁, hseal, h⟩ := Txn.bind_ok.mp h
    obtain ⟨-, rfl⟩ := Txn.pure_ok.mp h
    rcases (sealWrite_ok hseal).2 with rfl | ⟨e, record, last, -, -, -, rfl⟩
    · rfl
    · rfl
  | commitReplayReceipt =>
    obtain ⟨-, rfl⟩ := Txn.pure_ok.mp h
    rfl
  | abort =>
    obtain ⟨-, rfl⟩ := Txn.pure_ok.mp h
    rfl

theorem sagaStep_side {preparedAtMs : ℕ} {payload : Option (List UInt8)} :
    side (settle l (prepareSaga owner b preparedAtMs payload l)) = side l := by
  unfold prepareSaga
  cases h : prepareSagaIn b preparedAtMs payload (Write.opened owner l) with
  | error e w => rfl
  | ok r w =>
    obtain ⟨result, commits⟩ := r
    cases commits with
    | false => rfl
    | true =>
      rcases prepareSagaIn_ok h with h1 | h1 | ⟨e, -, -, h1⟩ | ⟨e, -, -, -, -, -, h1⟩
      · cases h1
      · simp only [h1]
        rfl
      · simp only [h1]
        rfl
      · simp only [h1]
        rfl

theorem sagaEnd_side {result : ResultMsgpack} {committedAtMs : ℕ} :
    side (settle l (commitSaga owner b result committedAtMs l)) = side l := by
  unfold commitSaga
  cases h : commitSagaIn b result committedAtMs (Write.opened owner l) with
  | error e w => rfl
  | ok r w =>
    obtain ⟨record, again⟩ := r
    rcases commitSagaIn_ok h with ⟨rfl, h1⟩ | ⟨rfl, -, -, -, -, l₁, hfin, h1⟩
    · simp only [h1]
      rfl
    · simp only [h1]
      have hside : side l₁ = side l := side_of_finishes hfin
      exact hside

end

/-! ### What a call reports -/

/-- What a delivery call inside a write reports about a consumer. -/
def noticesOfCall (identity : MutationScopeIdentity) (consumer : String) (l : Ledger) :
    WriteCall → List Notice
  | .ack lease nowMs =>
    if lease.consumer = consumer then (ackSettles identity lease nowMs l).map .settled else []
  | .reject lease nowMs =>
    if lease.consumer = consumer then (rejectSettles identity lease nowMs l).map .settled else []
  | .supersede other expected _ =>
    if other = consumer then (supersedeSettles other expected l).map .settled else []
  | _ => []

def noticesOfCalls (consumer : String) : List WriteCall → Write → List Notice
  | [], _ => []
  | c :: cs, w =>
    match c.exec w with
    | .ok _ w' => noticesOfCall w.owner.identity consumer w.ledger c ++ noticesOfCalls consumer cs w'
    | .error _ _ => []

def noticesOfWrite (owner : OwnedStoreHandle) (consumer : String) (l : Ledger)
    (calls : List WriteCall) (finish : WriteEnd) : List Notice :=
  match execWrite calls finish (Write.opened owner l) with
  | .ok true _ => noticesOfCalls consumer calls (Write.opened owner l)
  | _ => []

def noticesOfClaim (identity : MutationScopeIdentity) (consumer : String)
    (budget : OutboxClaimBudget) (l : Ledger) : List Notice :=
  match Outbox.Claim.claim identity consumer budget l with
  | .ok (outcome, _, _) => outcome.deadLettered.map .settled ++ outcome.claims.map leaseNotice
  | .error _ => []

def noticesOfRewind (identity : MutationScopeIdentity) (consumer : String)
    (target : OutboxRewindTarget) (nowMs : ℕ) (l : Ledger) : List Notice :=
  match Outbox.Rewind.rewind identity consumer target nowMs l with
  | .ok _ => match l.rewindCursors.get consumer with
    | some _ => []
    | none => [.rewound target.position]
  | .error _ => []

def noticesOf (owner : OwnedStoreHandle) (consumer : String) (l : Ledger) : KernelCall → List Notice
  | .write calls finish => noticesOfWrite owner consumer l calls finish
  | .claim other budget =>
    if other = consumer then noticesOfClaim owner.identity other budget l else []
  | .ack lease nowMs =>
    match Outbox.Cursor.ack owner.identity lease nowMs l with
    | .ok _ => noticesOfCall owner.identity consumer l (.ack lease nowMs)
    | .error _ => []
  | .reject lease nowMs =>
    match Outbox.Cursor.reject owner.identity lease nowMs l with
    | .ok _ => noticesOfCall owner.identity consumer l (.reject lease nowMs)
    | .error _ => []
  | .rewind other target nowMs =>
    if other = consumer then noticesOfRewind owner.identity other target nowMs l else []
  | _ => []

def deliveredOfCall (identity : MutationScopeIdentity) (consumer : String) (l : Ledger) :
    WriteCall → List OutboxPosition
  | .ack lease nowMs => if lease.consumer = consumer then ackSettles identity lease nowMs l else []
  | .supersede other expected _ =>
    if other = consumer then supersedeSettles other expected l else []
  | _ => []

def deliveredOfCalls (consumer : String) : List WriteCall → Write → List OutboxPosition
  | [], _ => []
  | c :: cs, w =>
    match c.exec w with
    | .ok _ w' =>
      deliveredOfCall w.owner.identity consumer w.ledger c ++ deliveredOfCalls consumer cs w'
    | .error _ _ => []

/-- What a kernel call delivers to a consumer: the positions its acknowledgements and supersessions
made durable. -/
def deliveredOf (owner : OwnedStoreHandle) (consumer : String) (l : Ledger) :
    KernelCall → List OutboxPosition
  | .write calls finish =>
    match execWrite calls finish (Write.opened owner l) with
    | .ok true _ => deliveredOfCalls consumer calls (Write.opened owner l)
    | _ => []
  | .ack lease nowMs =>
    match Outbox.Cursor.ack owner.identity lease nowMs l with
    | .ok _ => deliveredOfCall owner.identity consumer l (.ack lease nowMs)
    | .error _ => []
  | _ => []

theorem settled_of_mem_call {identity : MutationScopeIdentity}
    (h : n ∈ noticesOfCall identity consumer l c) : ∃ p, n = .settled p := by
  have hmap : ∀ (q : Prop) [Decidable q] (ps : List OutboxPosition),
      n ∈ (if q then ps.map Notice.settled else []) → ∃ p, n = .settled p := by
    intro q _ ps hn
    split_ifs at hn
    · obtain ⟨p, -, rfl⟩ := List.mem_map.mp hn
      exact ⟨p, rfl⟩
    · cases hn
  cases c with
  | ack lease nowMs => exact hmap _ _ h
  | reject lease nowMs => exact hmap _ _ h
  | supersede other expected nowMs => exact hmap _ _ h
  | _ => cases h

theorem settled_of_mem_calls :
    ∀ {calls : List WriteCall} {w : Write}, n ∈ noticesOfCalls consumer calls w →
      ∃ p, n = .settled p
  | [], _, h => by cases h
  | c :: cs, w, h => by
    unfold noticesOfCalls at h
    split at h
    · rcases List.mem_append.mp h with h | h
      · exact settled_of_mem_call h
      · exact settled_of_mem_calls h
    · cases h

theorem settled_of_mem_write {owner : OwnedStoreHandle} {calls : List WriteCall}
    (h : n ∈ noticesOfWrite owner consumer l calls finish) : ∃ p, n = .settled p := by
  unfold noticesOfWrite at h
  split at h
  · exact settled_of_mem_calls h
  · cases h

/-- **What a notice says about its call**: a lease comes from a claim, the start of a rewind from a
rewind of a steady consumer. -/
theorem call_of_notice {owner : OwnedStoreHandle} {c : KernelCall}
    (h : n ∈ noticesOf owner consumer l c) :
    (∃ p, n = .settled p) ∨ (∃ budget lease, c = .claim consumer budget ∧ n = leaseNotice lease) ∨
      ∃ target nowMs, c = .rewind consumer target nowMs ∧ n = .rewound target.position ∧
        l.rewindCursors.get consumer = none := by
  cases c with
  | write calls finish => exact Or.inl (settled_of_mem_write h)
  | ack lease nowMs =>
    simp only [noticesOf] at h
    split at h
    · exact Or.inl (settled_of_mem_call h)
    · cases h
  | reject lease nowMs =>
    simp only [noticesOf] at h
    split at h
    · exact Or.inl (settled_of_mem_call h)
    · cases h
  | claim other budget =>
    simp only [noticesOf] at h
    split_ifs at h with heq
    · subst heq
      unfold noticesOfClaim at h
      split at h
      · rcases List.mem_append.mp h with h | h
        · obtain ⟨p, -, rfl⟩ := List.mem_map.mp h
          exact Or.inl ⟨p, rfl⟩
        · obtain ⟨lease, -, rfl⟩ := List.mem_map.mp h
          exact Or.inr (Or.inl ⟨budget, lease, rfl, rfl⟩)
      · cases h
    · cases h
  | rewind other target nowMs =>
    simp only [noticesOf] at h
    split_ifs at h with heq
    · subst heq
      unfold noticesOfRewind at h
      split at h
      · split at h
        · cases h
        · rename_i hnone
          exact Or.inr (Or.inr ⟨target, nowMs, rfl, List.mem_singleton.mp h, hnone⟩)
      · cases h
    · cases h
  | _ => cases h

/-- The clock readings a delivery call inside a write presents. -/
def callTimes : WriteCall → List ℕ
  | .ack _ nowMs | .reject _ nowMs | .supersede _ _ nowMs => [nowMs]
  | _ => []

def kernelTimes : KernelCall → List ℕ
  | .write calls _ => calls.flatMap callTimes
  | .claim _ budget => [budget.nowMs]
  | .ack _ nowMs | .reject _ nowMs | .expire _ nowMs | .rewind _ _ nowMs => [nowMs]
  | _ => []

/-! ### Moves of a consumer -/

structure Serves (consumer : String) (clock : ℕ) (ns : List Notice) (es : List Event)
    (l l' : Ledger) : Prop where
  steps : Steps consumer clock (view l consumer) es (view l' consumer)
  notices : es.map Event.notice = ns
  leases : ∀ previous d, Event.leased previous d ∈ es →
    (view l consumer).rewinding = none ∧ d.position ∈ indexOf l consumer ∧
      ¬ Passed (view l consumer).resolvedThrough d.position ∧
      previous.map OutboxDelivery.leaseEpoch =
        (deliveryAt l consumer d.position).map OutboxDelivery.leaseEpoch
  starts : ∀ v target, Event.rewound v target ∈ es → v = view l consumer

section
variable {l' : Ledger} {w w' : Write} {owner : OwnedStoreHandle} {other : String} {clock : ℕ}
  {es : List Event}

theorem rewind_of_serves {c : KernelCall} {v : View} {p : Option OutboxPosition}
    (hserves : Serves consumer clock (noticesOf owner consumer l c) es l l')
    (he : Event.rewound v p ∈ es) :
    v = view l consumer ∧ ∃ target nowMs, c = .rewind consumer target nowMs ∧ p = target.position ∧
      l.rewindCursors.get consumer = none := by
  refine ⟨hserves.starts v p he, ?_⟩
  have hnotice : Notice.rewound p ∈ noticesOf owner consumer l c := by
    rw [← hserves.notices]
    exact List.mem_map.mpr ⟨_, he, rfl⟩
  rcases call_of_notice hnotice with ⟨q, hq⟩ | ⟨budget, lease, -, hl⟩ | ⟨t, nowMs, hc, hp, hnone⟩
  · cases hq
  · cases hl
  · exact ⟨t, nowMs, hc, Notice.rewound.inj hp, hnone⟩

theorem serves_quiet (h : Steps consumer clock (view l consumer) [] (view l' consumer)) :
    Serves consumer clock [] [] l l' where
  steps := h
  notices := rfl
  leases _ _ he := absurd he List.not_mem_nil
  starts _ _ he := absurd he List.not_mem_nil

/-- A sequence of moves that only finishes with positions, as it was reported. -/
structure Settles (consumer : String) (clock : ℕ) (ns : List Notice) (ds : List OutboxPosition)
    (es : List Event) (v v' : View) : Prop where
  steps : Steps consumer clock v es v'
  notices : es.map Event.notice = ns
  delivered : deliveredIn es = ds
  only : ∀ e ∈ es, ∃ p, e = .settled p ∨ e = .delivered p

theorem Settles.quiet {v v' : View} (h : Steps consumer clock v [] v') :
    Settles consumer clock [] [] [] v v' :=
  ⟨h, rfl, rfl, fun _ he => absurd he List.not_mem_nil⟩

theorem Settles.trans {v v' v'' : View} {ns ms : List Notice} {ds qs : List OutboxPosition}
    {fs : List Event} (h : Settles consumer clock ns ds es v v')
    (h' : Settles consumer clock ms qs fs v' v'') :
    Settles consumer clock (ns ++ ms) (ds ++ qs) (es ++ fs) v v'' where
  steps := h.steps.trans h'.steps
  notices := by rw [List.map_append, h.notices, h'.notices]
  delivered := by rw [deliveredIn_append, h.delivered, h'.delivered]
  only e he := (List.mem_append.mp he).elim (h.only e) (h'.only e)

theorem Settles.serves {ns : List Notice} {ds : List OutboxPosition}
    (h : Settles consumer clock ns ds es (view l consumer) (view l' consumer)) :
    Serves consumer clock ns es l l' ∧ deliveredIn es = ds := by
  refine ⟨⟨h.steps, h.notices, fun previous d he => ?_, fun v target he => ?_⟩, h.delivered⟩
  · obtain ⟨p, hp | hp⟩ := h.only _ he
    · cases hp
    · cases hp
  · obtain ⟨p, hp | hp⟩ := h.only _ he
    · cases hp
    · cases hp

theorem settles_of_delivers {ps ds : List OutboxPosition} {mark : OutboxPosition → Event}
    (hmark : ∀ p, mark p = .settled p ∨ mark p = .delivered p)
    (hds : deliveredIn (ps.map mark) = ds) (h : Delivers other clock (ps.map mark) l l') :
    ∃ es, Settles consumer clock (if other = consumer then ps.map Notice.settled else [])
      (if other = consumer then ds else []) es (view l consumer) (view l' consumer) := by
  by_cases heq : other = consumer
  · subst heq
    refine ⟨ps.map mark, h.steps, ?_, ?_, fun e he => ?_⟩
    · rw [if_pos rfl, List.map_map]
      refine List.map_congr_left fun p _ => ?_
      rcases hmark p with hp | hp
      · simp [hp, Event.notice]
      · simp [hp, Event.notice]
    · rw [if_pos rfl]
      exact hds
    · obtain ⟨p, -, rfl⟩ := List.mem_map.mp he
      exact ⟨p, hmark p⟩
  · refine ⟨[], ?_⟩
    rw [if_neg heq, if_neg heq]
    refine .quiet ?_
    rw [h.elsewhere consumer (Ne.symm heq)]
    exact .refl _

theorem deliveredIn_settled (ps : List OutboxPosition) : deliveredIn (ps.map .settled) = [] := by
  unfold deliveredIn
  rw [List.filterMap_map]
  exact List.filterMap_eq_nil_iff.mpr fun _ _ => rfl

theorem deliveredIn_delivered (ps : List OutboxPosition) :
    deliveredIn (ps.map .delivered) = ps := by
  unfold deliveredIn
  rw [List.filterMap_map]
  exact List.filterMap_some

theorem grows_of_moves {receipts : Bool} {cs : List Committed} (hl : Indexed l)
    (hmoves : Moves owner.identity false receipts l cs l') (hside : side l' = side l) :
    Steps consumer clock (view l consumer) [] (view l' consumer) := by
  obtain ⟨hl', hext⟩ := indexed_moves hmoves hl
  exact hext.grows hl hl' (consumers_of_side hside) (view_of_side hside consumer)

/-- **One call of a write**, for every consumer. -/
theorem exec_settles {u : Unit} (hw : w.owner = owner) (hguard : Guarded w) (hl : Indexed w.ledger)
    (hpurge : callPurges c = false) (htimes : ∀ t ∈ callTimes c, clock ≤ t)
    (h : c.exec w = .ok u w') :
    ∃ es, Settles consumer clock (noticesOfCall w.owner.identity consumer w.ledger c)
      (deliveredOfCall w.owner.identity consumer w.ledger c) es (view w.ledger consumer)
      (view w'.ledger consumer) := by
  have hquiet : callDelivers c = false → Steps consumer clock (view w.ledger consumer) []
      (view w'.ledger consumer) := by
    intro hdeliver
    have hadvances : Advances owner false true (finishedBy c).toList w w' :=
      exec_advances hw hguard (fun hp => absurd (hpurge.symm.trans hp) (by simp)) (fun _ => rfl) h
    exact grows_of_moves hl hadvances.moves (exec_side hdeliver hpurge h)
  cases c with
  | ack lease nowMs =>
    simp only [WriteCall.exec] at h
    obtain ⟨cursor, l', hack, rfl⟩ := deliverIn_ok h
    exact settles_of_delivers (fun _ => Or.inr rfl) (deliveredIn_delivered _)
      (ack_delivers (htimes nowMs (List.mem_singleton_self _)) hack)
  | reject lease nowMs =>
    simp only [WriteCall.exec] at h
    obtain ⟨_, l', hreject, rfl⟩ := deliverIn_ok h
    cases hr : reject w.owner.identity lease nowMs w.ledger with
    | error e => simp [hr, Except.map] at hreject
    | ok l₁ =>
      simp only [hr] at hreject
      obtain ⟨-, rfl⟩ := hreject
      obtain ⟨es, hes⟩ := settles_of_delivers (fun _ => Or.inl rfl) (deliveredIn_settled _)
        (reject_delivers (htimes nowMs (List.mem_singleton_self _)) hr)
      rw [ite_self] at hes
      exact ⟨es, hes⟩
  | supersede other expected nowMs =>
    simp only [WriteCall.exec] at h
    obtain ⟨receipt, l', hsupersede, rfl⟩ := deliverIn_ok h
    exact settles_of_delivers (fun _ => Or.inr rfl) (deliveredIn_delivered _)
      (supersede_delivers hl.injective hsupersede)
  | begin b => exact ⟨[], .quiet (hquiet rfl)⟩
  | beginTopUp b => exact ⟨[], .quiet (hquiet rfl)⟩
  | beginWithReplayIdentity b operation nonce => exact ⟨[], .quiet (hquiet rfl)⟩
  | ownerRows b => exact ⟨[], .quiet (hquiet rfl)⟩
  | purgeGeneration => cases hpurge
  | finishOwner => exact ⟨[], .quiet (hquiet rfl)⟩
  | dropOwner => exact ⟨[], .quiet (hquiet rfl)⟩
  | finish b result committedAtMs source => exact ⟨[], .quiet (hquiet rfl)⟩
  | finishWithReplay b result committedAtMs source replay => exact ⟨[], .quiet (hquiet rfl)⟩
  | recordReplay r => exact ⟨[], .quiet (hquiet rfl)⟩
  | finalizeReplayReceipt r => exact ⟨[], .quiet (hquiet rfl)⟩

/-- **The calls of a write**, for every consumer. -/
theorem execCalls_settles :
    ∀ {calls : List WriteCall} {w : Write} {u : Unit}, w.owner = owner → Guarded w →
      Indexed w.ledger → (∀ c ∈ calls, callPurges c = false) →
      (∀ c ∈ calls, ∀ t ∈ callTimes c, clock ≤ t) → execCalls calls w = .ok u w' →
      Indexed w'.ledger ∧ ∃ es, Settles consumer clock (noticesOfCalls consumer calls w)
        (deliveredOfCalls consumer calls w) es (view w.ledger consumer) (view w'.ledger consumer)
  | [], w, _, _, _, hl, _, _, h => by
    obtain ⟨-, rfl⟩ := Txn.pure_ok.mp h
    exact ⟨hl, [], .quiet (.refl _)⟩
  | c :: cs, w, _, hw, hguard, hl, hpurge, htimes, h => by
    obtain ⟨_, w₁, h1, h2⟩ := Txn.bind_ok.mp h
    have hp : callPurges c = false := hpurge c (.head _)
    have hadvances : Advances owner false true (finishedBy c).toList w w₁ :=
      exec_advances hw hguard (fun hc => absurd (hp.symm.trans hc) (by simp)) (fun _ => rfl) h1
    obtain ⟨es, hes⟩ : ∃ es, Settles consumer clock _ _ es _ _ :=
      exec_settles hw hguard hl hp (htimes c (.head _)) h1
    obtain ⟨hend, fs, hfs⟩ : _ ∧ ∃ fs, Settles consumer clock _ _ fs _ (view w'.ledger consumer) :=
      execCalls_settles (hadvances.owner.trans hw) hadvances.guarded
        (indexed_moves hadvances.moves hl).1 (fun d hd => hpurge d (.tail _ hd))
        (fun d hd => htimes d (.tail _ hd)) h2
    refine ⟨hend, es ++ fs, ?_⟩
    simp only [noticesOfCalls, deliveredOfCalls, h1]
    exact hes.trans hfs

/-- **A write**, for every consumer. -/
theorem write_serves {calls : List WriteCall} (hl : Indexed l)
    (hpurge : ∀ c ∈ calls, callPurges c = false)
    (htimes : ∀ c ∈ calls, ∀ t ∈ callTimes c, clock ≤ t) :
    ∃ es, Serves consumer clock (noticesOfWrite owner consumer l calls finish) es l
      (commitWrite owner calls finish l) ∧
      deliveredIn es = deliveredOf owner consumer l (.write calls finish) := by
  unfold noticesOfWrite commitWrite
  simp only [deliveredOf]
  cases h : execWrite calls finish (Write.opened owner l) with
  | error e w => exact ⟨[], serves_quiet (.refl _), rfl⟩
  | ok commits w =>
    cases commits with
    | false => exact ⟨[], serves_quiet (.refl _), rfl⟩
    | true =>
      obtain ⟨_, w₁, h1, h2⟩ := Txn.bind_ok.mp h
      obtain ⟨hmid, es, hes⟩ : _ ∧ ∃ es, Settles consumer clock _ _ es (view l consumer)
          (view w₁.ledger consumer) :=
        execCalls_settles rfl (guarded_opened l) hl hpurge htimes h1
      have hend : Moves owner.identity false true w₁.ledger [] w.ledger := end_moves h2
      have hall := hes.trans (.quiet (grows_of_moves hmid hend (end_side h2)))
      rw [List.append_nil, List.append_nil, List.append_nil] at hall
      exact ⟨es, hall.serves⟩

/-! ### Kernel calls -/

theorem serves_elsewhere (h : Elsewhere other l l') (hne : consumer ≠ other) :
    Serves consumer clock [] [] l l' := by
  refine serves_quiet ?_
  rw [h consumer hne]
  exact .refl _

theorem serves_of_delivers (h : Delivers other clock [] l l') : Serves consumer clock [] [] l l' := by
  by_cases heq : consumer = other
  · subst heq
    exact serves_quiet h.steps
  · exact serves_elsewhere h.elsewhere heq

theorem ack_serves {lease : MutationOutboxLease} (hclock : clock ≤ nowMs) :
    ∃ es, Serves consumer clock (noticesOf owner consumer l (.ack lease nowMs)) es l
      (step owner l (.ack lease nowMs)) ∧
      deliveredIn es = deliveredOf owner consumer l (.ack lease nowMs) := by
  simp only [noticesOf, deliveredOf, step]
  cases h : Outbox.Cursor.ack owner.identity lease nowMs l with
  | error e => exact ⟨[], serves_quiet (.refl _), rfl⟩
  | ok r =>
    obtain ⟨es, hes⟩ : ∃ es, Settles consumer clock _ _ es _ _ :=
      settles_of_delivers (fun _ => Or.inr rfl) (deliveredIn_delivered _) (ack_delivers hclock h)
    exact ⟨es, hes.serves⟩

theorem reject_serves {lease : MutationOutboxLease} (hclock : clock ≤ nowMs) :
    ∃ es, Serves consumer clock (noticesOf owner consumer l (.reject lease nowMs)) es l
      (step owner l (.reject lease nowMs)) ∧ deliveredIn es = [] := by
  simp only [noticesOf, step]
  cases h : Outbox.Cursor.reject owner.identity lease nowMs l with
  | error e => exact ⟨[], serves_quiet (.refl _), rfl⟩
  | ok l' =>
    obtain ⟨es, hes⟩ : ∃ es, Settles consumer clock _ _ es _ _ :=
      settles_of_delivers (fun _ => Or.inl rfl) (deliveredIn_settled _) (reject_delivers hclock h)
    rw [ite_self] at hes
    exact ⟨es, hes.serves⟩

theorem claim_serves {budget : OutboxClaimBudget} (hl : Indexed l)
    (hgap : (view l other).rewinding = none → (view l other).NoGap) :
    ∃ es, Serves consumer clock (noticesOf owner consumer l (.claim other budget)) es l
      (step owner l (.claim other budget)) ∧ deliveredIn es = [] := by
  simp only [noticesOf, noticesOfClaim, step]
  cases h : Outbox.Claim.claim owner.identity other budget l with
  | error e => exact ⟨[], by rw [ite_self]; exact serves_quiet (.refl _), rfl⟩
  | ok r =>
    obtain ⟨outcome, budget', l'⟩ := r
    obtain ⟨es, hclaims⟩ : ∃ es, Claims other clock budget.nowMs outcome es l l' :=
      claim_claims (hl.indexOf_injective other) hgap h
    by_cases heq : other = consumer
    · subst heq
      rw [if_pos rfl]
      refine ⟨es, ⟨hclaims.delivers.steps, hclaims.notices, fun previous d he => ?_,
        fun v target he => ?_⟩, hclaims.undelivered⟩
      · obtain ⟨hsteady, hin, hahead, hprevious⟩ := hclaims.leases previous d he
        refine ⟨hsteady, hin, hahead, ?_⟩
        rw [hprevious, Option.map_map]
        congr 1
        funext e
        exact reclaimed_leaseEpoch e
      · have hnotice : Notice.rewound target ∈ outcome.deadLettered.map Notice.settled ++
            outcome.claims.map leaseNotice := by
          rw [← hclaims.notices]
          exact List.mem_map.mpr ⟨_, he, rfl⟩
        rcases List.mem_append.mp hnotice with hn | hn
        · obtain ⟨_, -, hn⟩ := List.mem_map.mp hn
          cases hn
        · obtain ⟨_, -, hn⟩ := List.mem_map.mp hn
          cases hn
    · rw [if_neg heq]
      exact ⟨[], serves_elsewhere hclaims.delivers.elsewhere (Ne.symm heq), rfl⟩

theorem rewind_serves {target : OutboxRewindTarget} :
    ∃ es, Serves consumer clock (noticesOf owner consumer l (.rewind other target nowMs)) es l
      (step owner l (.rewind other target nowMs)) ∧ deliveredIn es = [] := by
  simp only [noticesOf, noticesOfRewind, step]
  cases h : Outbox.Rewind.rewind owner.identity other target nowMs l with
  | error e => exact ⟨[], by rw [ite_self]; exact serves_quiet (.refl _), rfl⟩
  | ok r =>
    obtain ⟨outcome, l'⟩ := r
    have hdelivers : Delivers other clock _ l l' := rewind_delivers h
    by_cases heq : other = consumer
    · subst heq
      rw [if_pos rfl]
      cases hcursor : l.rewindCursors.get other with
      | some cursor =>
        simp only [hcursor] at hdelivers
        exact ⟨[], serves_quiet hdelivers.steps, rfl⟩
      | none =>
        simp only [hcursor] at hdelivers
        refine ⟨_, ⟨hdelivers.steps, rfl, fun previous d he => ?_, fun v t he => ?_⟩, rfl⟩
        · cases List.mem_singleton.mp he
        · exact (Event.rewound.inj (List.mem_singleton.mp he)).1
    · rw [if_neg heq]
      exact ⟨[], serves_elsewhere hdelivers.elsewhere (Ne.symm heq), rfl⟩

/-- **Every kernel call moves every consumer as it reports.** -/
theorem step_serves {c : KernelCall} (hl : Indexed l)
    (hgap : ∀ other, (view l other).rewinding = none → (view l other).NoGap)
    (hpurge : kernelPurges c = false) (htimes : ∀ t ∈ kernelTimes c, clock ≤ t) :
    ∃ es, Serves consumer clock (noticesOf owner consumer l c) es l (step owner l c) ∧
      deliveredIn es = deliveredOf owner consumer l c := by
  have hmoves : Moves owner.identity false true l (committedBy owner l c) (step owner l c) :=
    step_moves (fun h => absurd (hpurge.symm.trans h) (by simp)) (fun _ => rfl)
  cases c with
  | write calls finish =>
    refine write_serves hl (fun d hd => ?_) fun d hd t ht => ?_
    · simpa using List.any_eq_false.mp hpurge d hd
    · exact htimes t (List.mem_flatMap.mpr ⟨d, hd, ht⟩)
  | sagaStep b preparedAtMs payload =>
    exact ⟨[], serves_quiet (grows_of_moves hl hmoves sagaStep_side), rfl⟩
  | sagaEnd b result committedAtMs =>
    exact ⟨[], serves_quiet (grows_of_moves hl hmoves sagaEnd_side), rfl⟩
  | subscribe other topic =>
    simp only [step]
    cases h : subscribeIn other topic l with
    | error e => exact ⟨[], serves_quiet (.refl _), rfl⟩
    | ok l' => exact ⟨[], serves_of_delivers (subscribe_delivers hl.injective h).1, rfl⟩
  | claim other budget => exact claim_serves hl (hgap other)
  | ack lease nowMs => exact ack_serves (htimes nowMs (List.mem_singleton_self _))
  | reject lease nowMs => exact reject_serves (htimes nowMs (List.mem_singleton_self _))
  | release lease =>
    simp only [step]
    cases h : release owner.identity lease l with
    | error e => exact ⟨[], serves_quiet (.refl _), rfl⟩
    | ok l' => exact ⟨[], serves_of_delivers (release_delivers h), rfl⟩
  | expire other nowMs =>
    simp only [step]
    cases h : expire owner.identity other nowMs l with
    | error e => exact ⟨[], serves_quiet (.refl _), rfl⟩
    | ok r => exact ⟨[], serves_of_delivers (expire_delivers (hl.indexOf_injective other) h), rfl⟩
  | rewind other target nowMs => exact rewind_serves
  | backfillGate =>
    refine ⟨[], serves_quiet (grows_of_moves hl hmoves ?_), rfl⟩
    simp only [step]
    cases h : backfillGate owner.identity l with
    | error e => rfl
    | ok l' =>
      unfold backfillGate at h
      simp only [bind_eq_ok, pure_eq_ok] at h
      obtain ⟨_, -, state, -, rfl⟩ := h
      split_ifs <;> rfl
  | backfillPage =>
    refine ⟨[], serves_quiet (grows_of_moves hl hmoves ?_), rfl⟩
    simp only [step]
    cases h : backfillIn owner.identity l with
    | error e => rfl
    | ok r =>
      obtain ⟨_, -, hpage⟩ := unbind h
      simp only [settle]
      rw [backfillPage_frame hpage]
      rfl

end

end Medulla.Outbox.Streams
