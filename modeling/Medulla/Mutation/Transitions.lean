import Medulla.Mutation.Saga

/-! # What admission, finish and seal can do

One inversion lemma per transition of the commit path.

* what each call can do: `finishInner_ok`, `sealWrite_ok`, `prepareSagaIn_ok`, `commitSagaIn_ok`. -/

namespace Medulla.Mutation.Transitions

open Library.Checked Library.Transaction Types.Batch Types.Records State Replay
open Commit Saga Outbox.Index

variable {w w' : Write} {b : MutationBatch} {l : Ledger} {u : Unit} {s : AdmissionState} {r : Begin}
  {id : String} {operation : OperationReplayIdentity} {nonce : Digest256} {e : OperationEnvelope}
  {record : MutationBatchRecord} {committed : CommittedVersion} {result : Option ResultMsgpack}
  {owner : Bool} {replay : Option ReplayReceipt} {committedAtMs : ℕ} {source : Option ℕ}
  {payload : Option (List UInt8)} {l' : Ledger} {identity : MutationScopeIdentity} {g t : Bool}

/-! ### Admission -/

structure Fresh (b : MutationBatch) (l : Ledger) : Prop where
  freeId : l.batches.get b.batchId = none
  expected : checkExpectation b l = .ok ()
  routed : rejectStaleFence b l = .ok ()

theorem Fresh.congr (h : Fresh b l) (hbatches : l'.batches = l.batches)
    (hversion : l'.version = l.version) (hfence : l'.fence = l.fence) : Fresh b l' := by
  refine ⟨by rw [hbatches]; exact h.freeId, ?_, ?_⟩
  · simpa only [checkExpectation, hversion] using h.expected
  · simpa only [rejectStaleFence, hfence] using h.routed

theorem Fresh.purged (h : Fresh b l) : Fresh b (Ledger.bound l.version) := ⟨rfl, h.expected, rfl⟩

theorem checkFreeBatchId_ok : checkFreeBatchId b l = .ok u ↔ l.batches.get b.batchId = none := by
  unfold checkFreeBatchId
  cases l.batches.get b.batchId with
  | none => simp
  | some record => by_cases h : record.batch.idempotencyKey ≠ b.idempotencyKey <;> simp [h]

theorem admitApplyBatch_ok {a : AdmissionState} (h : AdmissionState.admitApplyBatch b s = .ok a) :
    a = .applying b false := by
  cases s <;> simp [AdmissionState.admitApplyBatch] at h <;> exact h.symm

theorem admitFresh_ok : admitFresh b w = .ok r w' ↔
      Fresh b w.ledger ∧ r = .apply (sourceVersion b w.ledger) ∧
        ∃ a, AdmissionState.admitApplyBatch b w.admission = .ok a ∧
          w' = { w with admission := a } := by
  unfold admitFresh
  simp only [Txn.bind_ok, Write.readLedger_ok, Write.updateAdmission_ok, checkFreeBatchId_ok]
  constructor
  · rintro ⟨_, _, ⟨h1, rfl⟩, _, _, ⟨h2, rfl⟩, _, _, ⟨h3, rfl⟩, _, _, ⟨a, h4, rfl⟩, h5, rfl⟩
    exact ⟨⟨h1, h2, h3⟩, (Except.ok.inj h5).symm, a, h4, rfl⟩
  · rintro ⟨⟨h1, h2, h3⟩, rfl, a, h4, rfl⟩
    exact ⟨(), _, ⟨h1, rfl⟩, (), _, ⟨h2, rfl⟩, (), _, ⟨h3, rfl⟩, (), _, ⟨a, h4, rfl⟩, rfl, rfl⟩

theorem committedRecord_ok {r : MutationBatchRecord} :
    committedRecord id l = .ok r ↔ l.batches.get id = some r ∧ r.status = .committed := by
  unfold committedRecord
  simp only [bind_eq_ok, okOr_eq_ok, require_eq_ok, pure_eq_ok]
  constructor
  · rintro ⟨_, h1, -, h2, rfl⟩
    exact ⟨h1, h2⟩
  · rintro ⟨h1, h2⟩
    exact ⟨r, h1, (), h2, rfl⟩

theorem replayCommittedBatch_ok : replayCommittedBatch b id w = .ok r w' ↔
      ∃ record, w.ledger.batches.get id = some record ∧ record.status = .committed ∧
        r = .replay record ∧
        ∃ a, AdmissionState.rememberReplayedBatch b record w.admission = .ok a ∧
          w' = { w with admission := a } := by
  unfold replayCommittedBatch
  simp only [Txn.bind_ok, Write.readLedger_ok, Write.updateAdmission_ok, Txn.pure_ok,
    committedRecord_ok]
  constructor
  · rintro ⟨record, _, ⟨⟨h1, h2⟩, rfl⟩, -, _, ⟨a, h3, rfl⟩, rfl, rfl⟩
    exact ⟨record, h1, h2, rfl, a, h3, rfl⟩
  · rintro ⟨record, h1, h2, rfl, a, h3, rfl⟩
    exact ⟨record, w, ⟨⟨h1, h2⟩, rfl⟩, (), _, ⟨a, h3, rfl⟩, rfl, rfl⟩

theorem beginOperationWithIdentity_ok : beginOperationWithIdentity b operation nonce w = .ok r w' ↔
      (resolveReplayIn w.ledger operation nonce = .fresh ∧ admitFresh b w = .ok r w') ∨
        ∃ id, resolveReplayIn w.ledger operation nonce = .replayedResult (.batch id) ∧
          replayCommittedBatch b id w = .ok r w' := by
  unfold beginOperationWithIdentity
  simp only [Txn.bind_ok, Write.readLedger_ok]
  constructor
  · rintro ⟨res, _, ⟨h1, rfl⟩, h2⟩
    obtain rfl := Except.ok.inj h1
    cases hres : resolveReplayIn w.ledger operation nonce with
    | fresh => exact Or.inl ⟨rfl, by simpa [hres] using h2⟩
    | nonceRejected key => exact absurd (by simpa [hres] using h2) Txn.throw_ok
    | conflict recorded proposed => exact absurd (by simpa [hres] using h2) Txn.throw_ok
    | replayedResult recorded =>
      cases recorded with
      | batch id => exact Or.inr ⟨id, rfl, by simpa [hres] using h2⟩
      | receipt receipt => exact absurd (by simpa [hres] using h2) Txn.throw_ok
  · rintro (⟨h1, h2⟩ | ⟨id, h1, h2⟩)
    · exact ⟨_, w, ⟨rfl, rfl⟩, by simpa [h1] using h2⟩
    · exact ⟨_, w, ⟨rfl, rfl⟩, by simpa [h1] using h2⟩

theorem beginMaintenance_ok : beginMaintenance b w = .ok r w' ↔
      (w.ledger.maintenance.get b.idempotencyKey = none ∧ admitFresh b w = .ok r w') ∨
        ∃ id, w.ledger.maintenance.get b.idempotencyKey = some id ∧
          replayCommittedBatch b id w = .ok r w' := by
  unfold beginMaintenance
  simp only [Txn.bind_ok, Write.readLedger_ok]
  constructor
  · rintro ⟨claim, _, ⟨h1, rfl⟩, h2⟩
    obtain rfl := Except.ok.inj h1
    cases hclaim : w.ledger.maintenance.get b.idempotencyKey with
    | none => exact Or.inl ⟨rfl, by simpa [hclaim] using h2⟩
    | some id => exact Or.inr ⟨id, rfl, by simpa [hclaim] using h2⟩
  · rintro (⟨h1, h2⟩ | ⟨id, h1, h2⟩)
    · exact ⟨_, w, ⟨rfl, rfl⟩, by simpa [h1] using h2⟩
    · exact ⟨_, w, ⟨rfl, rfl⟩, by simpa [h1] using h2⟩

def KeyFree (b : MutationBatch) (l : Ledger) : Prop :=
  match b.envelope with
  | .operation e => resolveReplayIn l e.operationIdentity e.nonceReplayDigest = .fresh
  | .maintenance _ => l.maintenance.get b.idempotencyKey = none

def KeyNames (b : MutationBatch) (l : Ledger) (id : String) : Prop :=
  match b.envelope with
  | .operation e =>
    resolveReplayIn l e.operationIdentity e.nonceReplayDigest = .replayedResult (.batch id)
  | .maintenance _ => l.maintenance.get b.idempotencyKey = some id

/-- What a batch passes before admission looks at the ledger. -/
structure Proposable (owner : OwnedStoreHandle) (b : MutationBatch)
    (allowReservedGraft allowTopUp : Bool) : Prop where
  namespaced : allowReservedGraft = true ∨ isReservedGraftBatch b = false
  topUp : hasReservedTopUpKind b = allowTopUp ∧
    (allowTopUp = true → b.isRepositoryEnrichmentTopUp = true)
  budget : b.validateWriteBudget = .ok ()
  scope : b.identity = owner.identity

/-- **Admission**: a free key is admitted fresh, a used one replays the batch it names. -/
theorem beginInner_ok : beginInner b g t w = .ok r w' ↔ Proposable w.owner b g t ∧
        ((KeyFree b w.ledger ∧ admitFresh b w = .ok r w') ∨
          ∃ id, KeyNames b w.ledger id ∧ replayCommittedBatch b id w = .ok r w') := by
  unfold beginInner
  simp only [Txn.bind_ok, Txn.read_ok, Write.verifyScope_ok, require_eq_ok]
  have hkeys : (match b.envelope with
        | .operation e => beginOperation b e
        | .maintenance _ => beginMaintenance b) w = .ok r w' ↔
      (KeyFree b w.ledger ∧ admitFresh b w = .ok r w') ∨
        ∃ id, KeyNames b w.ledger id ∧ replayCommittedBatch b id w = .ok r w' := by
    unfold KeyFree KeyNames
    cases b.envelope with
    | operation e => exact beginOperationWithIdentity_ok
    | maintenance e => exact beginMaintenance_ok
  constructor
  · rintro ⟨_, _, ⟨h1, rfl⟩, _, _, ⟨h2, rfl⟩, _, _, ⟨h3, rfl⟩, _, _, ⟨h4, rfl⟩, h5⟩
    exact ⟨⟨h1, h2, h3, h4⟩, hkeys.mp h5⟩
  · rintro ⟨⟨h1, h2, h3, h4⟩, h5⟩
    exact ⟨(), w, ⟨h1, rfl⟩, (), w, ⟨h2, rfl⟩, (), w, ⟨h3, rfl⟩, (), w, ⟨h4, rfl⟩, hkeys.mpr h5⟩

def Replays (b : MutationBatch) (l : Ledger) (record : MutationBatchRecord) : Prop :=
  ∀ e, b.envelope = .operation e → ∃ row id,
    l.replayOperations.get e.idempotencyKey = some row ∧ row.recorded = .batch id ∧
      l.batches.get id = some record ∧ record.status = .committed

theorem replays_of_resolved (he : b.envelope = .operation e)
    (hkey : operation.idempotencyKey = e.idempotencyKey)
    (hres : resolveReplayIn l operation nonce = .replayedResult (.batch id))
    (hrecord : l.batches.get id = some record) (hstatus : record.status = .committed) :
    Replays b l record := by
  intro e' he'
  obtain rfl : e = e' := MutationEnvelope.operation.inj (he.symm.trans he')
  obtain ⟨-, row, hrow, -, hrecorded⟩ := resolveReplayIn_replayed.mp hres
  exact ⟨row, id, by rw [← hkey]; exact hrow, hrecorded, hrecord, hstatus⟩

theorem operation?_eq_some : b.envelope.operation? = some e ↔ b.envelope = .operation e := by
  cases b.envelope <;> simp [MutationEnvelope.operation?]

theorem beginWithReplayIdentity_ok (h : beginWithReplayIdentity b operation nonce w = .ok r w') :
    ∃ e, b.envelope = .operation e ∧ b.identity = w.owner.identity ∧
      operation.idempotencyKey = e.idempotencyKey ∧ nonce = e.nonceReplayDigest ∧
      ((resolveReplayIn w.ledger operation nonce = .fresh ∧ admitFresh b w = .ok r w') ∨
        ∃ id, resolveReplayIn w.ledger operation nonce = .replayedResult (.batch id) ∧
          replayCommittedBatch b id w = .ok r w') := by
  unfold beginWithReplayIdentity at h
  simp only [Txn.bind_ok, Txn.read_ok, Write.verifyScope_ok, okOr_eq_ok, require_eq_ok,
    operation?_eq_some] at h
  obtain ⟨_, _, ⟨-, rfl⟩, _, _, ⟨h1, rfl⟩, e, _, ⟨he, rfl⟩, _, _, ⟨hbound, rfl⟩, h2⟩ := h
  exact ⟨e, he, h1, hbound.1, hbound.2.2.2, beginOperationWithIdentity_ok.mp h2⟩

theorem beginInner_apply {v : Option ℕ}
    (h : beginInner b g t w = .ok (.apply v) w') :
    Proposable w.owner b g t ∧ KeyFree b w.ledger ∧ Fresh b w.ledger ∧
      v = sourceVersion b w.ledger ∧ w' = { w with admission := .applying b false } := by
  obtain ⟨hprop, ⟨hfree, h1⟩ | ⟨id, -, h1⟩⟩ := beginInner_ok.mp h
  · obtain ⟨hfresh, hv, a, ha, rfl⟩ := admitFresh_ok.mp h1
    obtain rfl := admitApplyBatch_ok ha
    exact ⟨hprop, hfree, hfresh, Begin.apply.inj hv, rfl⟩
  · obtain ⟨record, -, -, hr, -⟩ := replayCommittedBatch_ok.mp h1
    cases hr

theorem beginInner_replay (h : beginInner b g t w = .ok (.replay record) w') :
    Proposable w.owner b g t ∧
      ∃ id, KeyNames b w.ledger id ∧ replayCommittedBatch b id w = .ok (.replay record) w' := by
  obtain ⟨hprop, ⟨-, h1⟩ | h1⟩ := beginInner_ok.mp h
  · obtain ⟨-, hr, -⟩ := admitFresh_ok.mp h1
    cases hr
  · exact ⟨hprop, h1⟩

/-- **What an admission can do** to a write: open an application, or remember a committed record. -/
inductive Admits (b : MutationBatch) (w w' : Write) : Prop
  | apply (fresh : Fresh b w.ledger)
      (idle : AdmissionState.admitApplyBatch b w.admission = .ok (.applying b false))
      (eq : w' = { w with admission := .applying b false })
  | replay (record : MutationBatchRecord) (a : AdmissionState)
      (replays : Replays b w.ledger record)
      (remembered : AdmissionState.rememberReplayedBatch b record w.admission = .ok a)
      (eq : w' = { w with admission := a })

theorem admits_of_admitFresh (h : admitFresh b w = .ok r w') : Admits b w w' := by
  obtain ⟨h1, -, a, h2, rfl⟩ := admitFresh_ok.mp h
  obtain rfl := admitApplyBatch_ok h2
  exact .apply h1 h2 rfl

theorem admits_of_beginInner (h : beginInner b g t w = .ok r w') : Admits b w w' := by
  obtain ⟨-, ⟨-, h1⟩ | ⟨id, hnames, h1⟩⟩ := beginInner_ok.mp h
  · exact admits_of_admitFresh h1
  · obtain ⟨record, hrecord, hstatus, -, a, ha, rfl⟩ := replayCommittedBatch_ok.mp h1
    refine .replay record a ?_ ha rfl
    intro e he
    simp only [KeyNames, he] at hnames
    exact replays_of_resolved he rfl hnames hrecord hstatus e he

theorem admits_of_beginWithReplayIdentity
    (h : beginWithReplayIdentity b operation nonce w = .ok r w') : Admits b w w' := by
  obtain ⟨e, he, -, hkey, -, ⟨-, h1⟩ | ⟨id, hres, h1⟩⟩ := beginWithReplayIdentity_ok h
  · exact admits_of_admitFresh h1
  · obtain ⟨record, hrecord, hstatus, -, a, ha, rfl⟩ := replayCommittedBatch_ok.mp h1
    exact .replay record a (replays_of_resolved he hkey hres hrecord hstatus) ha rfl

/-! ### Finishing -/

def ReplayRow (b : MutationBatch) (replay : Option ReplayReceipt) (l l' : Ledger) : Prop :=
  match replay with
  | some r => recordOperation r.operation r.nonce (.receipt r.receipt) b.batchId l = .ok l'
  | none =>
    match b.envelope with
    | .operation e =>
      recordOperation e.operationIdentity e.nonceReplayDigest (.batch b.batchId) b.batchId l =
        .ok l'
    | .maintenance _ =>
      l' = { l with maintenance := l.maintenance.insert b.idempotencyKey b.batchId }

def putOutboxRow (l : Ledger) (r : MutationOutboxRecord) : Ledger :=
  insertIndexRow r (r.commitSequence.getD 0)
    { l with outbox := l.outbox.insert ⟨r.batchId, r.ordinal⟩ r }

def stampBatch (b : MutationBatch) (l : Ledger) : Ledger :=
  { l with
    classes := l.classes.insert b.batchId (if b.isMaintenance then .maintenance else .operation)
    version := l.version + 1
    fence := some ⟨b.placementEpoch, b.fencingToken.getD 0⟩ }

/-- Index readiness before the rows of a batch are added. -/
def Readied (identity : MutationScopeIdentity) (entries : List (ℕ × MutationOutboxIntent))
    (l l' : Ledger) : Prop :=
  if entries.isEmpty then l' = l else markIndexReady identity l = .ok l'

/-- **What a finish does** to the ledger it starts from. -/
structure Finishes (b : MutationBatch) (record : MutationBatchRecord)
    (replay : Option ReplayReceipt) (l l' : Ledger) : Prop where
  batch : record.batch = b
  committed : record.status = .committed
  valid : record.validateWriteBudget = .ok ()
  versioned : record.committedVersion.target.all (· = l.version + 1) = true
  bounded : l.version + 1 ≤ u64Max
  rows : ∃ l₁ l₂ entries,
    ReplayRow b replay { l with batches := l.batches.insert b.batchId record } l₁ ∧
    effectiveOutbox (b.outbox.any fun intent => isTerminalTopic intent.topic)
      record.resultMsgpack 0 b.outbox = .ok entries ∧
    Readied b.identity entries (stampBatch b l₁) l₂ ∧
    (∀ e ∈ entries, (outboxRecord b record.committedVersion (l.version + 1) e).validate = .ok ()) ∧
    l' = (entries.map (outboxRecord b record.committedVersion (l.version + 1))).foldl
      putOutboxRow l₂

theorem sequenceInWrite_ok {r : MutationOutboxRecord} {n : ℕ} (h : sequenceInWrite r = .ok n) :
    r.commitSequence = some n := by
  unfold sequenceInWrite at h
  simp only [bind_eq_ok, okOr_eq_ok, pure_eq_ok] at h
  obtain ⟨_, h1, -, -, rfl⟩ := h
  exact h1

theorem writeOutboxRow_ok {r : MutationOutboxRecord} (h : writeOutboxRow r w = .ok u w') :
    r.validate = .ok () ∧ w' = { w with ledger := putOutboxRow w.ledger r } := by
  unfold writeOutboxRow at h
  simp only [Txn.bind_ok, Txn.read_ok, Write.modifyLedger_ok, Write.updateLedger_ok] at h
  obtain ⟨_, _, ⟨h1, rfl⟩, _, _, rfl, l, h2, rfl⟩ := h
  unfold indexOutboxRow at h2
  simp only [bind_eq_ok, pure_eq_ok] at h2
  obtain ⟨n, h2, rfl⟩ := h2
  obtain ⟨_, h1, -⟩ := unbind h1
  refine ⟨h1, ?_⟩
  simp only [putOutboxRow, sequenceInWrite_ok h2, Option.getD_some]

theorem writeOutboxRows_ok :
    ∀ {rs : List MutationOutboxRecord} {w : Write} {u : Unit}, writeOutboxRows rs w = .ok u w' →
      (∀ r ∈ rs, r.validate = .ok ()) ∧ w' = { w with ledger := rs.foldl putOutboxRow w.ledger }
  | [], w, _, h => by
    obtain ⟨-, rfl⟩ := Txn.pure_ok.mp h
    exact ⟨fun r hr => absurd hr (List.not_mem_nil), rfl⟩
  | r :: rs, w, _, h => by
    obtain ⟨_, w₁, h1, h2⟩ := Txn.bind_ok.mp h
    obtain ⟨hr, rfl⟩ := writeOutboxRow_ok h1
    obtain ⟨hrs, rfl⟩ := writeOutboxRows_ok h2
    refine ⟨fun q hq => ?_, rfl⟩
    rcases List.mem_cons.mp hq with rfl | hq
    · exact hr
    · exact hrs q hq

theorem writeOutbox_ok (h : writeOutbox b committed result w = .ok u w') : ∃ l₂ entries,
      effectiveOutbox (b.outbox.any fun intent => isTerminalTopic intent.topic) result 0 b.outbox =
        .ok entries ∧
      Readied b.identity entries w.ledger l₂ ∧
      (∀ e ∈ entries, (outboxRecord b committed w.ledger.version e).validate = .ok ()) ∧
      w' = { w with ledger :=
        (entries.map (outboxRecord b committed w.ledger.version)).foldl putOutboxRow l₂ } := by
  unfold writeOutbox at h
  simp only [Txn.bind_ok, Txn.read_ok, Write.readLedger_ok] at h
  obtain ⟨entries, _, ⟨h1, rfl⟩, n, _, ⟨h2, rfl⟩, h3⟩ := h
  obtain rfl := Except.ok.inj h2
  have hfinish : ∀ {w₁ : Write} {u : Unit}, writeOutboxRows
      (entries.map (outboxRecord b committed w.ledger.version)) w₁ = .ok u w' →
      (∀ e ∈ entries, (outboxRecord b committed w.ledger.version e).validate = .ok ()) ∧
      w' = { w₁ with ledger :=
        (entries.map (outboxRecord b committed w.ledger.version)).foldl putOutboxRow w₁.ledger } := by
    intro w₁ u h
    obtain ⟨h1, h2⟩ := writeOutboxRows_ok h
    exact ⟨fun e he => h1 _ (List.mem_map_of_mem he), h2⟩
  cases hempty : entries.isEmpty with
  | true =>
    simp only [hempty] at h3
    obtain ⟨h4, rfl⟩ := hfinish h3
    exact ⟨w.ledger, entries, h1, by simp [Readied, hempty], h4, rfl⟩
  | false =>
    simp only [hempty] at h3
    obtain ⟨_, w₁, h4, h5⟩ := Txn.bind_ok.mp h3
    obtain ⟨l₂, hready, rfl⟩ := Write.updateLedger_ok.mp h4
    obtain ⟨h6, rfl⟩ := hfinish h5
    exact ⟨l₂, entries, h1, by simpa [Readied, hempty] using hready, h6, rfl⟩

theorem recordOperationIn_ok {recorded : RecordedOperation}
    (h : recordOperationIn operation nonce recorded w = .ok u w') :
    ∃ id l, w.admission.admittedBatchId = .ok id ∧
      recordOperation operation nonce recorded id w.ledger = .ok l ∧
      w' = { w with ledger := l } := by
  unfold recordOperationIn at h
  simp only [Txn.bind_ok, Txn.read_ok, Write.updateLedger_ok] at h
  obtain ⟨id, _, ⟨h1, rfl⟩, l, h2, rfl⟩ := h
  exact ⟨id, l, h1, h2, rfl⟩

theorem recordReplayIn_ok {receipt : MutationReceipt}
    (h : recordReplayIn operation nonce receipt w = .ok u w') :
    ∃ id l, w.admission.admittedBatchId = .ok id ∧
      recordOperation operation nonce (.receipt receipt) id w.ledger = .ok l ∧
      w' = { w with ledger := l } := by
  unfold recordReplayIn at h
  simp only [Txn.bind_ok, Txn.read_ok] at h
  obtain ⟨_, _, ⟨-, rfl⟩, _, _, ⟨-, rfl⟩, _, _, ⟨-, rfl⟩, _, _, ⟨-, rfl⟩, _, _, ⟨-, rfl⟩, h⟩ := h
  exact recordOperationIn_ok h

theorem admittedBatchId_applying (h : (AdmissionState.applying b owner).admittedBatchId = .ok id) :
    id = b.batchId := by
  unfold AdmissionState.admittedBatchId at h
  simp only [bind_eq_ok, pure_eq_ok] at h
  obtain ⟨_, h1, -, -, rfl⟩ := h
  rw [Except.ok.inj h1]

theorem persistReplayRow_ok (hw : w.admission = .applying b owner)
    (h : persistReplayRow b replay w = .ok u w') :
    ∃ l, ReplayRow b replay w.ledger l ∧ w' = { w with ledger := l } := by
  cases replay with
  | some r =>
    obtain ⟨id, l, hid, h1, rfl⟩ := recordReplayIn_ok h
    rw [hw] at hid
    obtain rfl := admittedBatchId_applying hid
    exact ⟨l, h1, rfl⟩
  | none =>
    change persistKeyRow b w = .ok u w' at h
    unfold persistKeyRow at h
    cases he : b.envelope with
    | operation e =>
      simp only [he] at h
      obtain ⟨id, l, hid, h1, rfl⟩ := recordOperationIn_ok h
      rw [hw] at hid
      obtain rfl := admittedBatchId_applying hid
      exact ⟨l, by simpa only [ReplayRow, he] using h1, rfl⟩
    | maintenance e =>
      simp only [he] at h
      refine ⟨_, ?_, Write.modifyLedger_ok.mp h⟩
      simp only [ReplayRow, he]

theorem validateFinish_ok {ledgerOnly : Bool} (h : s.validateFinish ledgerOnly b = .ok u) :
    ∃ owner, s = .applying b owner ∧ (ledgerOnly || owner) = true := by
  cases s with
  | applying admitted owner =>
    simp only [AdmissionState.validateFinish] at h
    by_cases h1 : admitted = b ∧ (ledgerOnly || owner) = true
    · exact ⟨owner, by rw [h1.1], h1.2⟩
    · rw [if_neg h1] at h
      cases h
  | idle => simp [AdmissionState.validateFinish] at h
  | finished f => simp [AdmissionState.validateFinish] at h
  | replayed r rec f => simp [AdmissionState.validateFinish] at h
  | poisoned => simp [AdmissionState.validateFinish] at h

theorem writeVersion_ok (h : writeVersion committed l = .ok l') :
    l.version + 1 ≤ u64Max ∧ committed.target.all (· = l.version + 1) = true ∧
      l' = { l with version := l.version + 1 } := by
  unfold writeVersion at h
  simp only [bind_eq_ok, okOr_eq_ok, checkedAdd_eq_some, require_eq_ok, pure_eq_ok] at h
  obtain ⟨_, ⟨rfl, h1⟩, -, h2, rfl⟩ := h
  exact ⟨h1, h2, rfl⟩

/-! ### Frames -/

theorem recordOperation_frame {recorded : RecordedOperation}
    (h : recordOperation operation nonce recorded id l = .ok l') :
    l' = { l with replayNonces := l'.replayNonces, replayOperations := l'.replayOperations } := by
  rcases recordOperation_cases h with ⟨-, -, -, rfl⟩ | ⟨-, -, rfl⟩ <;> rfl

theorem replayRow_frame (h : ReplayRow b replay l l') : l' = { l with
      maintenance := l'.maintenance
      replayNonces := l'.replayNonces
      replayOperations := l'.replayOperations } := by
  unfold ReplayRow at h
  cases replay with
  | some r => rw [recordOperation_frame h]
  | none =>
    cases he : b.envelope with
    | operation e =>
      simp only [he] at h
      rw [recordOperation_frame h]
    | maintenance e =>
      simp only [he] at h
      rw [h]

theorem markIndexReady_frame
    (h : markIndexReady identity l = .ok l') : l' = { l with backfill := l'.backfill } := by
  unfold markIndexReady at h
  cases hb : l.backfill with
  | none =>
    simp only [hb] at h
    split_ifs at h <;> rw [← Except.ok.inj h]
  | some state =>
    simp only [hb] at h
    obtain ⟨_, -, h⟩ := unbind h
    split_ifs at h <;> rw [← pure_eq_ok.mp h]

theorem readied_frame {entries : List (ℕ × MutationOutboxIntent)}
    (h : Readied identity entries l l') :
    l' = { l with backfill := l'.backfill } := by
  unfold Readied at h
  split_ifs at h
  · rw [h]
  · exact markIndexReady_frame h

theorem foldl_putOutboxRow_frame : ∀ (rs : List MutationOutboxRecord) (l : Ledger),
      rs.foldl putOutboxRow l = { l with
        outbox := (rs.foldl putOutboxRow l).outbox
        topicIndex := (rs.foldl putOutboxRow l).topicIndex }
  | [], _ => rfl
  | r :: rs, l => by
    rw [List.foldl_cons, foldl_putOutboxRow_frame rs (putOutboxRow l r)]
    rfl

/-- **The tables a finish touches**: the delivery side and the private payloads stay. -/
theorem Finishes.frame (h : Finishes b record replay l l') : l' = { l with
      batches := l.batches.insert b.batchId record
      maintenance := l'.maintenance
      version := l.version + 1
      fence := some ⟨b.placementEpoch, b.fencingToken.getD 0⟩
      outbox := l'.outbox
      topicIndex := l'.topicIndex
      backfill := l'.backfill
      replayNonces := l'.replayNonces
      replayOperations := l'.replayOperations
      classes := l.classes.insert b.batchId
        (if b.isMaintenance then .maintenance else .operation) } := by
  obtain ⟨l₁, l₂, entries, hrow, -, hready, -, hout⟩ := h.rows
  have h1 := replayRow_frame hrow
  have h2 := readied_frame hready
  have h3 := foldl_putOutboxRow_frame
    (entries.map (outboxRecord b record.committedVersion (l.version + 1))) l₂
  rw [← hout] at h3
  rw [h3, h2, stampBatch, h1]

theorem Finishes.keyRows (h : Finishes b record replay l l') :
    ∃ l₁, ReplayRow b replay { l with batches := l.batches.insert b.batchId record } l₁ ∧
      l'.replayOperations = l₁.replayOperations ∧ l'.replayNonces = l₁.replayNonces ∧
      l'.maintenance = l₁.maintenance := by
  obtain ⟨l₁, l₂, entries, hrow, -, hready, -, hout⟩ := h.rows
  have h2 := readied_frame hready
  have h3 := foldl_putOutboxRow_frame
    (entries.map (outboxRecord b record.committedVersion (l.version + 1))) l₂
  rw [← hout] at h3
  refine ⟨l₁, hrow, ?_, ?_, ?_⟩ <;> rw [h3, h2, stampBatch]

/-! ### The whole finish -/

/-- **Finishing** the admitted batch. -/
theorem finishInner_ok (h : finishInner b result committedAtMs source replay w = .ok record w') :
    b.identity = w.owner.identity ∧
      (∃ owner, w.admission = .applying b owner ∧ (w.owner.ledgerOnly || owner) = true) ∧
      committedVersion b.versionExpectation source = .ok record.committedVersion ∧
      record.resultMsgpack = result ∧
      Finishes b record replay w.ledger w'.ledger ∧
      w'.owner = w.owner ∧ w'.admission = .finished b := by
  unfold finishInner persistRecord writeClass at h
  simp only [Txn.bind_ok, Txn.read_ok, Txn.update_ok, Write.verifyScope_ok, Write.modifyLedger_ok,
    Write.updateLedger_ok] at h
  obtain ⟨_, _, ⟨hscope, rfl⟩, _, _, ⟨hvalid, rfl⟩, committed, _, ⟨hversion, rfl⟩, _, w₁,
    ⟨_, _, ⟨hrecord, rfl⟩, rfl⟩, _, w₂, hrow, _, _, rfl, _, _, ⟨l₄, hnext, rfl⟩, _, _, rfl, _, w₆,
    hout, _, _, hend, rfl, rfl⟩ := h
  obtain ⟨owner, hadm, howner⟩ := validateFinish_ok hvalid
  obtain ⟨l₁, hkey, rfl⟩ := persistReplayRow_ok (by exact hadm) hrow
  obtain ⟨hbound, htarget, rfl⟩ := writeVersion_ok hnext
  obtain ⟨l₂, entries, hentries, hready, hvalidRows, rfl⟩ := writeOutbox_ok hout
  have hsame : l₁.version = w.ledger.version := by
    rw [replayRow_frame hkey]
  simp only [hadm, AdmissionState.finishBatch, howner, and_self, if_true, Except.map,
    Except.ok.injEq] at hend
  subst hend
  refine ⟨hscope, ⟨owner, hadm, howner⟩, hversion, rfl, ?_, rfl, rfl⟩
  simp only [writeFence, hsame] at hbound htarget hready hvalidRows ⊢
  exact ⟨rfl, rfl, hrecord, htarget, hbound, l₁, l₂, entries, hkey, hentries,
    by simpa only [stampBatch, hsame] using hready, hvalidRows, rfl⟩

theorem finish_ok (h : finish b result committedAtMs source w = .ok record w') :
    b.identity = w.owner.identity ∧
      (∃ owner, w.admission = .applying b owner ∧ (w.owner.ledgerOnly || owner) = true) ∧
      committedVersion b.versionExpectation source = .ok record.committedVersion ∧
      record.resultMsgpack = result ∧
      Finishes b record none w.ledger w'.ledger ∧
      w'.owner = w.owner ∧ w'.admission = .finished b :=
  finishInner_ok h

theorem finishWithReplay_ok {replay : ReplayReceipt}
    (h : finishWithReplay b result committedAtMs source replay w = .ok record w') :
    finishInner b result committedAtMs source (some replay) w = .ok record w' := by
  unfold finishWithReplay at h
  simp only [Txn.bind_ok, Txn.read_ok] at h
  obtain ⟨_, _, ⟨-, rfl⟩, _, _, ⟨-, rfl⟩, h⟩ := h
  exact h

/-! ### Sealing -/

theorem validateFinalization_unused (h : validateFinalization operation nonce record l = .ok u) :
    l.replayNonces.get nonce = none := by
  unfold validateFinalization at h
  simp only [bind_eq_ok, require_eq_ok] at h
  obtain ⟨_, -, _, -, _, -, _, -, hnonce⟩ := h
  exact hnonce

theorem finalizeReplayIn_ok (h : finalizeReplayIn b record w = .ok u w') :
    ∃ e, b.envelope = .operation e ∧
      validateFinalization e.operationIdentity e.nonceReplayDigest record w.ledger = .ok () ∧
      w' = { w with ledger := consumeNonce e.nonceReplayDigest e.idempotencyKey w.ledger } := by
  unfold finalizeReplayIn at h
  cases he : b.envelope with
  | maintenance e =>
    simp only [he] at h
    exact absurd h Txn.throw_ok
  | operation e =>
    simp only [he, Txn.bind_ok, Txn.read_ok, Write.verifyScope_ok, Write.readLedger_ok,
      Write.modifyLedger_ok] at h
    obtain ⟨_, _, ⟨-, rfl⟩, _, _, ⟨-, rfl⟩, _, _, ⟨-, rfl⟩, _, _, ⟨-, rfl⟩, _, _, ⟨h1, rfl⟩,
      rfl⟩ := h
    exact ⟨e, rfl, h1, rfl⟩

theorem replayedRecord_some (h : s.replayedRecord b = .ok (some record)) :
    ∃ last, s = .replayed b record last := by
  cases s with
  | replayed existing r last =>
    simp only [AdmissionState.replayedRecord] at h
    split_ifs at h with h1 h2
    · obtain rfl := Option.some.inj (Except.ok.inj h)
      exact ⟨last, by rw [h1]⟩
    · simp at h
  | idle => simp [AdmissionState.replayedRecord] at h
  | applying admitted owner => simp [AdmissionState.replayedRecord] at h
  | finished f => simp [AdmissionState.replayedRecord] at h
  | poisoned => simp [AdmissionState.replayedRecord] at h

/-- **What a seal can do**: nothing, or consume the nonce of the operation it replays. -/
theorem sealWrite_ok (h : sealWrite b w = .ok u w') : w.admission.validateCommit b = .ok () ∧
      (w' = w ∨ ∃ e record last, b.envelope = .operation e ∧ w.admission = .replayed b record last ∧
        validateFinalization e.operationIdentity e.nonceReplayDigest record w.ledger = .ok () ∧
        w' = { w with ledger := consumeNonce e.nonceReplayDigest e.idempotencyKey w.ledger }) := by
  unfold sealWrite at h
  simp only [Txn.bind_ok, Txn.read_ok, Write.verifyScope_ok] at h
  obtain ⟨_, _, ⟨-, rfl⟩, _, _, ⟨h1, rfl⟩, record, _, ⟨h2, rfl⟩, h3⟩ := h
  refine ⟨h1, ?_⟩
  cases record with
  | none =>
    obtain ⟨-, rfl⟩ := Txn.pure_ok.mp h3
    exact Or.inl rfl
  | some record =>
    obtain ⟨last, hlast⟩ := replayedRecord_some h2
    split_ifs at h3
    · obtain ⟨-, rfl⟩ := Txn.pure_ok.mp h3
      exact Or.inl rfl
    · obtain ⟨e, he, hval, rfl⟩ := finalizeReplayIn_ok h3
      exact Or.inr ⟨e, record, last, he, hlast, hval, rfl⟩

/-! ### Sagas -/

theorem recordedSagaBatchId_ok {id : Option String} (h : recordedSagaBatchId b w = .ok id w') :
    w' = w ∧ ∃ e, b.envelope = .operation e ∧
      ((resolveReplayIn w.ledger e.operationIdentity e.nonceReplayDigest = .fresh ∧ id = none) ∨
        ∃ recorded, resolveReplayIn w.ledger e.operationIdentity e.nonceReplayDigest =
            .replayedResult recorded ∧ id = recorded.batchId) := by
  unfold recordedSagaBatchId sagaEnvelope at h
  simp only [Txn.bind_ok, Txn.read_ok, Write.readLedger_ok] at h
  obtain ⟨e, _, ⟨he, rfl⟩, res, _, ⟨hres, rfl⟩, h⟩ := h
  obtain rfl := Except.ok.inj hres
  have henv : b.envelope = .operation e := by
    cases hb : b.envelope with
    | operation e' => simpa [MutationEnvelope.operation?, hb] using he
    | maintenance e' => simp [MutationEnvelope.operation?, hb] at he
  cases hr : resolveReplayIn w.ledger e.operationIdentity e.nonceReplayDigest with
  | fresh =>
    simp only [hr] at h
    obtain ⟨rfl, rfl⟩ := Txn.pure_ok.mp h
    exact ⟨rfl, e, henv, Or.inl ⟨hr, rfl⟩⟩
  | replayedResult recorded =>
    simp only [hr] at h
    obtain ⟨rfl, rfl⟩ := Txn.pure_ok.mp h
    exact ⟨rfl, e, henv, Or.inr ⟨recorded, hr, rfl⟩⟩
  | nonceRejected key =>
    simp only [hr] at h
    exact absurd h Txn.throw_ok
  | conflict recorded proposed =>
    simp only [hr] at h
    exact absurd h Txn.throw_ok

theorem resumeExistingSaga_ok {r : SagaBegin} (h : resumeExistingSaga b payload id w = .ok r w') :
    w' = w ∧ ∃ record, w.ledger.batches.get id = some record ∧
      ((record.status = .prepared ∧ r = .resume record) ∨
        (record.status = .committed ∧ r = .committed record)) := by
  unfold resumeExistingSaga ensurePrivatePayload at h
  simp only [Txn.bind_ok, Txn.read_ok, Write.readLedger_ok, okOr_eq_ok] at h
  obtain ⟨record, _, ⟨h1, rfl⟩, _, _, ⟨-, rfl⟩, h⟩ := h
  cases hs : record.status with
  | prepared =>
    simp only [hs] at h
    obtain ⟨rfl, rfl⟩ := Txn.pure_ok.mp h
    exact ⟨rfl, record, h1, Or.inl ⟨hs, rfl⟩⟩
  | committed =>
    simp only [hs] at h
    obtain ⟨rfl, rfl⟩ := Txn.pure_ok.mp h
    exact ⟨rfl, record, h1, Or.inr ⟨hs, rfl⟩⟩
  | aborted =>
    simp only [hs] at h
    exact absurd h Txn.throw_ok

def preparedLedger (b : MutationBatch) (e : OperationEnvelope) (preparedAtMs : ℕ)
    (payload : Option (List UInt8)) (l : Ledger) : Ledger :=
  let l := { l with batches := l.batches.insert b.batchId ⟨b, .prepared, .none, none, preparedAtMs⟩ }
  let l := claimKey l e.operationIdentity e.nonceReplayDigest (.batch b.batchId) b.batchId
  { l with
    classes := l.classes.insert b.batchId (if b.isMaintenance then .maintenance else .operation)
    privatePayloads := payload.elim l.privatePayloads (l.privatePayloads.insert b.batchId ·) }

theorem persistPreparedSaga_ok {preparedAtMs : ℕ} (he : b.envelope = .operation e)
    (hadm : w.admission = .applying b owner)
    (hfree : w.ledger.replayOperations.get e.idempotencyKey = none)
    (h : persistPreparedSaga b preparedAtMs payload w = .ok u w') :
    (⟨b, .prepared, .none, none, preparedAtMs⟩ : MutationBatchRecord).validateWriteBudget = .ok () ∧
      w.ledger.replayNonces.get e.nonceReplayDigest = none ∧
      w' = { w with ledger := preparedLedger b e preparedAtMs payload w.ledger } := by
  unfold persistPreparedSaga persistRecord sagaEnvelope writeClass at h
  simp only [Txn.bind_ok, Txn.read_ok, Write.modifyLedger_ok, he, MutationEnvelope.operation?,
    okOr_eq_ok, Option.some.injEq] at h
  obtain ⟨_, w₁, ⟨_, _, ⟨hvalid, rfl⟩, rfl⟩, e', _, ⟨rfl, rfl⟩, _, w₂, hrec, _, _, rfl, h⟩ := h
  obtain ⟨id, l, hid, hrec', rfl⟩ := recordOperationIn_ok hrec
  obtain rfl : id = b.batchId := admittedBatchId_applying (by rw [← hadm]; exact hid)
  rcases recordOperation_cases hrec' with ⟨row, hrow, -, -⟩ | ⟨-, hnonce, rfl⟩
  · exact absurd (hfree.symm.trans hrow) (by simp)
  · refine ⟨hvalid, hnonce, ?_⟩
    cases payload with
    | none =>
      obtain ⟨-, rfl⟩ := Txn.pure_ok.mp h
      rfl
    | some sealed =>
      unfold persistPrivate at h
      simp only [Txn.bind_ok, Txn.read_ok, Write.modifyLedger_ok] at h
      obtain ⟨_, _, ⟨-, rfl⟩, rfl⟩ := h
      rfl

theorem sealed_replay {w₁ : Write} (h : replayCommittedBatch b id w = .ok r w₁)
    (hseal : sealWrite b w₁ = .ok u w') :
    w'.ledger = w.ledger ∨ ∃ e, b.envelope = .operation e ∧
      w.ledger.replayNonces.get e.nonceReplayDigest = none ∧
      w'.ledger = consumeNonce e.nonceReplayDigest e.idempotencyKey w.ledger := by
  obtain ⟨record, -, -, -, a, -, rfl⟩ := replayCommittedBatch_ok.mp h
  rcases (sealWrite_ok hseal).2 with rfl | ⟨e, record', last, he, -, hval, rfl⟩
  · exact Or.inl rfl
  · exact Or.inr ⟨e, he, validateFinalization_unused hval, rfl⟩

/-- **What a saga step can do**: nothing durable, consume one nonce, or store a prepared record. -/
theorem prepareSagaIn_ok {preparedAtMs : ℕ} {r : SagaBegin} {commits : Bool}
    (h : prepareSagaIn b preparedAtMs payload w = .ok (r, commits) w') :
    commits = false ∨ w'.ledger = w.ledger ∨ (∃ e, b.envelope = .operation e ∧
        w.ledger.replayNonces.get e.nonceReplayDigest = none ∧
        w'.ledger = consumeNonce e.nonceReplayDigest e.idempotencyKey w.ledger) ∨
      ∃ e, b.envelope = .operation e ∧ Proposable w.owner b false false ∧ Fresh b w.ledger ∧
        resolveReplayIn w.ledger e.operationIdentity e.nonceReplayDigest = .fresh ∧
        (⟨b, .prepared, .none, none, preparedAtMs⟩ : MutationBatchRecord).validateWriteBudget =
          .ok () ∧
        w'.ledger = preparedLedger b e preparedAtMs payload w.ledger := by
  unfold prepareSagaIn at h
  simp only [Txn.bind_ok, Txn.read_ok, Write.verifyScope_ok] at h
  obtain ⟨_, _, ⟨-, rfl⟩, _, _, ⟨-, rfl⟩, existing, _, hrec, h⟩ := h
  obtain ⟨rfl, e, he, -⟩ := recordedSagaBatchId_ok hrec
  cases existing with
  | some existingId =>
    simp only [Txn.bind_ok] at h
    obtain ⟨result, _, hres, h⟩ := h
    obtain ⟨rfl, record, -, ⟨-, rfl⟩ | ⟨-, rfl⟩⟩ := resumeExistingSaga_ok hres
    · obtain ⟨hr, -⟩ := Txn.pure_ok.mp h
      exact Or.inl (Prod.mk.inj hr).2.symm
    · simp only [Txn.bind_ok] at h
      obtain ⟨begun, w₁, hbegin, h⟩ := h
      cases begun with
      | apply v => exact absurd h Txn.throw_ok
      | replay replayed =>
        obtain ⟨_, w₂, hseal, h⟩ := Txn.bind_ok.mp h
        obtain ⟨-, rfl⟩ := Txn.pure_ok.mp h
        obtain ⟨-, id, -, hreplay⟩ := beginInner_replay hbegin
        exact Or.inr ((sealed_replay hreplay hseal).imp_right Or.inl)
  | none =>
    simp only [Txn.bind_ok] at h
    obtain ⟨begun, w₁, hbegin, h⟩ := h
    cases begun with
    | replay replayed =>
      obtain ⟨_, w₂, hseal, h⟩ := Txn.bind_ok.mp h
      obtain ⟨-, rfl⟩ := Txn.pure_ok.mp h
      obtain ⟨-, id, -, hreplay⟩ := beginInner_replay hbegin
      exact Or.inr ((sealed_replay hreplay hseal).imp_right Or.inl)
    | apply v =>
      obtain ⟨_, w₂, hpersist, h⟩ := Txn.bind_ok.mp h
      obtain ⟨-, rfl⟩ := Txn.pure_ok.mp h
      obtain ⟨hprop, hfree, hfresh, -, rfl⟩ := beginInner_apply hbegin
      simp only [KeyFree, he] at hfree
      obtain ⟨hvalid, -, rfl⟩ := persistPreparedSaga_ok he rfl
        (by exact (resolveReplayIn_fresh.mp hfree).2) hpersist
      exact Or.inr (Or.inr (Or.inr ⟨e, he, hprop, hfresh, hfree, hvalid, rfl⟩))

theorem checkExpectation_of_committedVersion
    (h : committedVersion b.versionExpectation (sourceVersion b l) = .ok committed) :
    checkExpectation b l = .ok () := by
  unfold checkExpectation
  unfold sourceVersion at h
  cases hv : b.versionExpectation with
  | unversioned => rfl
  | graph expected =>
    simp only [hv, committedVersion] at h
    split_ifs at h with h1
    simp [h1]
  | native expected =>
    simp only [hv, committedVersion] at h
    split_ifs at h with h1
    simp [h1]

/-- **What a saga commit can do**: drop the payload of a committed saga, or finish a prepared one. -/
theorem commitSagaIn_ok {result : ResultMsgpack} {again : Bool}
    (h : commitSagaIn b result committedAtMs w = .ok (record, again) w') :
    (again = true ∧ w'.ledger = removePrivate b.batchId w.ledger) ∨
      (again = false ∧ b.identity = w.owner.identity ∧ b.validateWriteBudget = .ok () ∧
        (∃ prior, w.ledger.batches.get b.batchId = some prior ∧ prior.status = .prepared) ∧
        checkExpectation b w.ledger = .ok () ∧
        ∃ l, Finishes b record none w.ledger l ∧ w'.ledger = removePrivate b.batchId l) := by
  unfold commitSagaIn at h
  simp only [Txn.bind_ok, Txn.read_ok, Write.verifyScope_ok, Write.readLedger_ok, okOr_eq_ok] at h
  obtain ⟨_, _, ⟨hvalid, rfl⟩, _, _, ⟨hscope, rfl⟩, prior, _, ⟨hprior, rfl⟩, h⟩ := h
  split_ifs at h with hstatus
  · simp only [Txn.bind_ok, Write.modifyLedger_ok] at h
    obtain ⟨_, _, rfl, h⟩ := h
    obtain ⟨hr, rfl⟩ := Txn.pure_ok.mp h
    exact Or.inl ⟨(Prod.mk.inj hr).2.symm, rfl⟩
  · simp only [Txn.bind_ok, Txn.read_ok, require_eq_ok, Write.updateAdmission_ok,
      Write.readLedger_ok, Write.modifyLedger_ok] at h
    obtain ⟨_, _, ⟨hprepared, rfl⟩, _, _, ⟨a, -, rfl⟩, source, _, ⟨hsource, rfl⟩, committed, w₁,
      hfinish, _, _, rfl, _, w₂, hseal, h⟩ := h
    obtain ⟨hr, rfl⟩ := Txn.pure_ok.mp h
    obtain ⟨rfl, rfl⟩ := Prod.mk.inj hr
    obtain ⟨-, -, hversion, -, hfin, -, hadm⟩ := finish_ok hfinish
    obtain rfl := Except.ok.inj hsource
    refine Or.inr ⟨rfl, hscope, hvalid, ⟨prior, hprior, hprepared⟩, ?_, w₁.ledger, hfin, ?_⟩
    · exact checkExpectation_of_committedVersion hversion
    · rcases (sealWrite_ok hseal).2 with rfl | ⟨e, r, last, -, hreplayed, -, -⟩
      · rfl
      · rw [hadm] at hreplayed
        cases hreplayed

end Medulla.Mutation.Transitions
