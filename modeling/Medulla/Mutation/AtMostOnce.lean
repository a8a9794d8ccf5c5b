import Medulla.Mutation.RouteFence

/-! # At-most-once application of an operation

The replay row of an operation is written with its record and never replaced, so the row of a committed
operation keeps naming that record. Generation purges and typed receipts are outside these runs.

* one move: `move_stores`;
* a retry: `begin_replays`, `seal_replays`, `begin_refused`;
* every run: `operation_applied_at_most_once`. -/

namespace Medulla.Mutation.AtMostOnce

open Library.Checked Library.Transaction Types.Batch Types.Records State Replay
open Commit Saga Kernel Transitions Runs
open RouteFence Outbox.Index Outbox.Frames
open Library.OrderedTable (Table)

variable {b : MutationBatch} {record : MutationBatchRecord} {l : Ledger} {es : List Committed}
  {u : Unit} {row : OperationReplayRow} {w : Write} {operation : OperationReplayIdentity}

/-! ### Replay rows -/

def RowNames (l : Ledger) (e : OperationEnvelope) (id : String) : Prop :=
  ∃ row, l.replayOperations.get e.idempotencyKey = some row ∧
    row.operationReplayDigest = e.operationReplayDigest ∧ row.recorded = .batch id

/-- What becomes of the replay rows: none is replaced, and a new one is stored under its own key. -/
structure RowsGrow (l l' : Ledger) : Prop where
  kept : ∀ key row, l.replayOperations.get key = some row → l'.replayOperations.get key = some row
  keyed : ∀ key row, l'.replayOperations.get key = some row →
    l.replayOperations.get key = some row ∨ row.idempotencyKey = key

section
variable {l' : Ledger} {e : OperationEnvelope} {id : String}

theorem rowsGrow_of_eq (h : l'.replayOperations = l.replayOperations) : RowsGrow l l' :=
  ⟨fun _ _ hrow => by rw [h]; exact hrow, fun _ _ hrow => by rw [h] at hrow; exact Or.inl hrow⟩

theorem RowNames.grow (h : RowNames l e id) (hgrow : RowsGrow l l') : RowNames l' e id := by
  obtain ⟨row, hrow, hdigest, hrecorded⟩ := h
  exact ⟨row, hgrow.kept _ _ hrow, hdigest, hrecorded⟩

theorem RowNames.unique {e' : OperationEnvelope} {id' : String} (h : RowNames l e id)
    (h' : RowNames l e' id') (hkey : e.idempotencyKey = e'.idempotencyKey) : id = id' := by
  obtain ⟨row, hrow, -, hrecorded⟩ := h
  obtain ⟨row', hrow', -, hrecorded'⟩ := h'
  rw [hkey, hrow'] at hrow
  obtain rfl := Option.some.inj hrow
  exact RecordedOperation.batch.inj (hrecorded.symm.trans hrecorded')

theorem claimKey_grow {nonce : Digest256}
    {recorded : RecordedOperation}
    (hfree : l.replayOperations.get operation.idempotencyKey = none) :
    RowsGrow l (claimKey l operation nonce recorded id) := by
  refine ⟨fun key row hrow => ?_, fun key row hrow => ?_⟩
  · have hne : key ≠ operation.idempotencyKey := by
      rintro rfl
      rw [hfree] at hrow
      cases hrow
    simpa only [claimKey, Table.get_insert_of_ne _ _ hne] using hrow
  · simp only [claimKey, Table.get_insert] at hrow
    split_ifs at hrow with hkey
    · rw [← Option.some.inj hrow]
      exact Or.inr hkey.symm
    · exact Or.inl hrow

theorem recordOperation_names
    (h : recordOperation e.operationIdentity e.nonceReplayDigest (.batch id) id l = .ok l') :
    RowNames l' e id ∧ RowsGrow l l' := by
  rcases recordOperation_cases h with ⟨row, hrow, hsame, rfl⟩ | ⟨hfree, -, rfl⟩
  · simp only [isSameSagaBatch, Bool.and_eq_true, decide_eq_true_eq] at hsame
    exact ⟨⟨row, hrow, hsame.1.1.1.2, hsame.2⟩, rowsGrow_of_eq rfl⟩
  · refine ⟨⟨_, Table.get_insert_self _ _ _, rfl, rfl⟩, claimKey_grow hfree⟩

end

/-! ### Stored records -/

structure Recorded (identity : MutationScopeIdentity) (l : Ledger) : Prop where
  stored : ∀ id r, l.batches.get id = some r →
    r.batch.batchId = id ∧ r.batch.identity = identity ∧ r.validateWriteBudget = .ok ()
  keyed : ∀ key row, l.replayOperations.get key = some row → row.idempotencyKey = key
  applied : ∀ id r e, IsCommitted l id r → r.batch.envelope = .operation e → RowNames l e id

structure Stores (identity : MutationScopeIdentity) (b : MutationBatch)
    (record : MutationBatchRecord) (l l' : Ledger) : Prop where
  batches : l'.batches = l.batches.insert b.batchId record
  batch : record.batch = b
  scope : b.identity = identity
  valid : record.validateWriteBudget = .ok ()
  vacant : ∀ r, ¬ IsCommitted l b.batchId r
  named : ∀ e, b.envelope = .operation e → RowNames l' e b.batchId
  grow : RowsGrow l l'

section
variable {identity : MutationScopeIdentity} {l' : Ledger} {fs : List Committed}

theorem Recorded.congr (h : Recorded identity l) (hbatches : l'.batches = l.batches)
    (hrows : l'.replayOperations = l.replayOperations) : Recorded identity l' := by
  refine ⟨by rw [hbatches]; exact h.stored, by rw [hrows]; exact h.keyed, ?_⟩
  intro id r e hr he
  have hold : IsCommitted l id r := ⟨by rw [← hbatches]; exact hr.1, hr.2⟩
  exact (h.applied id r e hold he).grow (rowsGrow_of_eq hrows)

theorem Recorded.store (h : Recorded identity l) (hs : Stores identity b record l l') :
    Recorded identity l' := by
  refine ⟨?_, ?_, ?_⟩
  · intro id r hr
    rw [hs.batches, Table.get_insert] at hr
    split_ifs at hr with hid
    · obtain rfl := Option.some.inj hr
      exact ⟨by rw [hs.batch, hid], by rw [hs.batch]; exact hs.scope, hs.valid⟩
    · exact h.stored id r hr
  · intro key row hrow
    rcases hs.grow.keyed key row hrow with hold | hkey
    · exact h.keyed key row hold
    · exact hkey
  · intro id r e ⟨hr, hstatus⟩ he
    rw [hs.batches, Table.get_insert] at hr
    split_ifs at hr with hid
    · obtain rfl := Option.some.inj hr
      rw [hs.batch] at he
      rw [hid]
      exact hs.named e he
    · exact (h.applied id r e ⟨hr, hstatus⟩ he).grow hs.grow

theorem stores_of_finishes (hscope : b.identity = identity)
    (hvacant : ∀ r, ¬ IsCommitted l b.batchId r) (hfin : Finishes b record none l l') :
    Stores identity b record l l' := by
  obtain ⟨l₁, hrow, hoperations, -, -⟩ := hfin.keyRows
  have hgrow : RowsGrow l l₁ ∧ ∀ e, b.envelope = .operation e → RowNames l₁ e b.batchId := by
    unfold ReplayRow at hrow
    cases he : b.envelope with
    | operation e =>
      simp only [he] at hrow
      obtain ⟨hnames, hgrow⟩ := recordOperation_names hrow
      refine ⟨⟨hgrow.kept, hgrow.keyed⟩, fun e' he' => ?_⟩
      obtain rfl := MutationEnvelope.operation.inj he'
      exact hnames
    | maintenance e =>
      simp only [he] at hrow
      refine ⟨rowsGrow_of_eq (by rw [hrow]), fun e' he' => ?_⟩
      cases he'
  refine ⟨by rw [hfin.frame], hfin.batch, hscope, hfin.valid, hvacant, ?_, ?_⟩
  · intro e he
    exact (hgrow.2 e he).grow (rowsGrow_of_eq hoperations)
  · refine ⟨?_, ?_⟩
    · rw [hoperations]
      exact hgrow.1.kept
    · rw [hoperations]
      exact hgrow.1.keyed

/-- **What a move does to records and replay rows**: nothing, or it stores the record of one batch. -/
theorem move_stores (m : Move identity false false l es l') :
    (es = [] ∧ l'.batches = l.batches ∧ l'.replayOperations = l.replayOperations) ∨
      ∃ b record, Stores identity b record l l' ∧
        (es = [] ∨ record.status = .committed ∧ ∃ saga, es = [⟨b, saga⟩]) := by
  have hvacant := fun c hc => (m.commits (c := c) hc).1
  cases m with
  | deliver _ same => exact Or.inl ⟨rfl, by rw [eq_of_core same], by rw [eq_of_core same]⟩
  | backfill _ page =>
    exact Or.inl ⟨rfl, by rw [backfillPage_frame page], by rw [backfillPage_frame page]⟩
  | reopen _ state => exact Or.inl ⟨rfl, rfl, rfl⟩
  | nonce nonce key _ => exact Or.inl ⟨rfl, rfl, rfl⟩
  | receipt operation nonce receipt id allowed _ => cases allowed
  | purge allowed _ => cases allowed
  | dropPayload id => exact Or.inl ⟨rfl, rfl, rfl⟩
  | prepare b e preparedAtMs payload envelope scope fresh free valid =>
    refine Or.inr ⟨b, _, ⟨rfl, rfl, scope, valid, ?_, ?_, ?_⟩, Or.inl rfl⟩
    · intro r hr
      rw [IsCommitted, fresh.freeId] at hr
      cases hr.1
    · intro e' he'
      obtain rfl := MutationEnvelope.operation.inj (envelope.symm.trans he')
      exact ⟨_, Table.get_insert_self _ _ _, rfl, rfl⟩
    · have hgrow : RowsGrow l (claimKey l e.operationIdentity e.nonceReplayDigest
          (.batch b.batchId) b.batchId) := claimKey_grow (resolveReplayIn_fresh.mp free).2
      exact ⟨hgrow.kept, hgrow.keyed⟩
  | finish b record replay allowed scope fresh finishes =>
    have hreplay : replay = none := by
      cases replay with
      | none => rfl
      | some r => cases allowed rfl
    subst hreplay
    exact Or.inr ⟨b, record, stores_of_finishes scope (hvacant _ (.head _)) finishes,
      Or.inr ⟨finishes.committed, false, rfl⟩⟩
  | sagaCommit b record prior scope _ _ _ finishes =>
    exact Or.inr ⟨b, record, stores_of_finishes scope (hvacant _ (.head _)) finishes,
      Or.inr ⟨finishes.committed, true, rfl⟩⟩

theorem move_grow (m : Move identity false false l es l') : RowsGrow l l' := by
  rcases move_stores m with ⟨-, -, hrows⟩ | ⟨b, record, hs, -⟩
  · exact rowsGrow_of_eq hrows
  · exact hs.grow

/-! ### Applied operations -/

def operationKey (c : Committed) : Option String :=
  c.batch.envelope.operation?.map OperationEnvelope.idempotencyKey

theorem operationKey_eq_some {c : Committed} {key : String} : operationKey c = some key ↔
      ∃ e, c.batch.envelope = .operation e ∧ e.idempotencyKey = key := by
  unfold operationKey
  rw [Option.map_eq_some_iff]
  exact exists_congr fun e => and_congr_left fun _ => operation?_eq_some

structure AppliedOnce (identity : MutationScopeIdentity) (es : List Committed) (l : Ledger) :
    Prop where
  recorded : Recorded identity l
  logged : ∀ c ∈ es, ∃ r, IsCommitted l c.batch.batchId r ∧ r.batch = c.batch
  distinct : (es.filterMap operationKey).Nodup

theorem AppliedOnce.unlogged {key : String} {saga : Bool} (h : AppliedOnce identity es l)
    (hs : Stores identity b record l l') (hb : operationKey ⟨b, saga⟩ = some key) :
    key ∉ es.filterMap operationKey := by
  intro hmem
  obtain ⟨c, hc, hckey⟩ := List.mem_filterMap.mp hmem
  obtain ⟨e, he, rfl⟩ := operationKey_eq_some.mp hb
  obtain ⟨e', he', hkey⟩ := operationKey_eq_some.mp hckey
  obtain ⟨r, hr, hrc⟩ := h.logged c hc
  have hold : RowNames l' e' c.batch.batchId :=
    (h.recorded.applied _ r e' hr (by rw [hrc]; exact he')).grow hs.grow
  have hid := (hs.named e he).unique hold hkey.symm
  exact hs.vacant r (by rw [hid]; exact hr)

theorem appliedOnce_move (m : Move identity false false l fs l') (h : AppliedOnce identity es l) :
    AppliedOnce identity (es ++ fs) l' := by
  have hkept : ∀ c ∈ es, ∃ r, IsCommitted l' c.batch.batchId r ∧ r.batch = c.batch := by
    intro c hc
    obtain ⟨r, hr, hrc⟩ := h.logged c hc
    exact ⟨r, m.keeps_committed hr, hrc⟩
  rcases move_stores m with ⟨rfl, hbatches, hrows⟩ | ⟨b, record, hs, rfl | ⟨hstatus, saga, rfl⟩⟩
  · rw [List.append_nil]
    exact ⟨h.recorded.congr hbatches hrows, hkept, h.distinct⟩
  · rw [List.append_nil]
    exact ⟨h.recorded.store hs, hkept, h.distinct⟩
  · refine ⟨h.recorded.store hs, fun c hc => ?_, ?_⟩
    · rcases List.mem_append.mp hc with hc | hc
      · exact hkept c hc
      · obtain rfl := List.mem_singleton.mp hc
        refine ⟨record, ⟨?_, hstatus⟩, hs.batch⟩
        rw [hs.batches]
        exact Table.get_insert_self _ _ _
    · rw [List.filterMap_append, List.nodup_append]
      refine ⟨h.distinct, ?_, ?_⟩
      · cases hkey : operationKey ⟨b, saga⟩ <;> simp [hkey]
      · rintro key hkey key' hkey' rfl
        obtain ⟨c, hc, hckey⟩ := List.mem_filterMap.mp hkey'
        obtain rfl := List.mem_singleton.mp hc
        exact h.unlogged hs hckey hkey

end

/-! ### Remembered replays -/

def Accepts : AdmissionState → Prop
  | .idle | .finished _ | .replayed _ _ _ => True
  | .applying _ _ | .poisoned => False

/-- The replay a write remembers is the committed record its key names. -/
def Remembers (w : Write) : Prop :=
  ∀ b r last, w.admission = .replayed b r last → Replays b w.ledger r

section
variable {owner : OwnedStoreHandle} {w' : Write} {r : MutationBatchRecord}
  {last : Option MutationBatch}

theorem replays_of_moves {identity : MutationScopeIdentity} {l' : Ledger}
    (h : Moves identity false false l es l') (hb : Replays b l r) : Replays b l' r := by
  induction h with
  | refl => exact hb
  | tail _ m ih =>
    intro e he
    obtain ⟨row, id, hrow, hrecorded, hr⟩ := ih e he
    exact ⟨row, id, (move_grow m).kept _ _ hrow, hrecorded, m.keeps_committed hr⟩

theorem remembered_cases {s a : AdmissionState}
    (h : AdmissionState.rememberReplayedBatch b record s = .ok a) :
    a = s ∨ ∃ last, a = .replayed b record last := by
  cases s with
  | idle => exact Or.inr ⟨none, (Except.ok.inj h).symm⟩
  | finished f => exact Or.inr ⟨some f, (Except.ok.inj h).symm⟩
  | applying admitted owner => simp [AdmissionState.rememberReplayedBatch] at h
  | poisoned => simp [AdmissionState.rememberReplayedBatch] at h
  | replayed existing known last =>
    simp only [AdmissionState.rememberReplayedBatch] at h
    split_ifs at h
    · exact Or.inl (Except.ok.inj h).symm
    · exact Or.inr ⟨last, (Except.ok.inj h).symm⟩

theorem remembers_of_admits {admitted : MutationBatch} (h : Admits admitted w w')
    (hw : Remembers w) : Remembers w' := by
  intro b r last hb
  cases h with
  | apply _ _ eq =>
    subst eq
    cases hb
  | replay record a replays remembered eq =>
    subst eq
    rcases remembered_cases remembered with rfl | ⟨last', rfl⟩
    · exact hw b r last hb
    · obtain ⟨rfl, rfl, -⟩ := AdmissionState.replayed.inj hb
      exact replays

theorem remembers_of_kept (hmoves : Moves owner.identity false false w.ledger es w'.ledger)
    (hkept : ∀ b r last, w'.admission = .replayed b r last → w.admission = .replayed b r last)
    (hw : Remembers w) : Remembers w' := by
  intro b r last hb
  exact replays_of_moves hmoves (hw b r last (hkept b r last hb))

theorem deliverIn_admission {α : Type}
    {f : MutationScopeIdentity → Ledger → Except String (α × Ledger)} (h : deliverIn f w = .ok u w') :
    w'.admission = w.admission := by
  unfold deliverIn at h
  simp only [Txn.bind_ok, Txn.read_ok, Txn.update_ok] at h
  obtain ⟨_, _, ⟨-, rfl⟩, h⟩ := h
  cases hr : f w.owner.identity w.ledger with
  | error e => simp [hr, Except.map] at h
  | ok r =>
    simp only [hr, Except.map, Except.ok.injEq] at h
    rw [← h]

theorem exec_remembers {c : WriteCall} (howner : w.owner = owner) (hguard : Guarded w)
    (hpurge : callPurges c = false) (hreceipt : callReceipts c = false) (h : c.exec w = .ok u w')
    (hw : Remembers w) : Remembers w' := by
  have hadv : Advances owner false false (finishedBy c).toList w w' :=
    exec_advances howner hguard (fun hc => by rw [hpurge] at hc; cases hc)
      (fun hc => by rw [hreceipt] at hc; cases hc) h
  cases c with
  | begin b =>
    obtain ⟨_, _, h1, h⟩ := Txn.bind_ok.mp h
    obtain ⟨-, rfl⟩ := Txn.pure_ok.mp h
    exact remembers_of_admits (admits_of_beginInner h1) hw
  | beginTopUp b =>
    obtain ⟨_, _, h1, h⟩ := Txn.bind_ok.mp h
    obtain ⟨-, rfl⟩ := Txn.pure_ok.mp h
    exact remembers_of_admits (admits_of_beginInner h1) hw
  | beginWithReplayIdentity b operation nonce =>
    obtain ⟨_, _, h1, h⟩ := Txn.bind_ok.mp h
    obtain ⟨-, rfl⟩ := Txn.pure_ok.mp h
    exact remembers_of_admits (admits_of_beginWithReplayIdentity h1) hw
  | ownerRows b =>
    simp only [WriteCall.exec, ownerRows, Txn.bind_ok, Txn.read_ok, Write.updateAdmission_ok] at h
    obtain ⟨_, _, ⟨-, rfl⟩, a, ha, rfl⟩ := h
    obtain ⟨-, rfl⟩ := openOwner_ok ha
    intro b r last hb
    cases hb
  | purgeGeneration => cases hpurge
  | finishOwner =>
    simp only [WriteCall.exec, Txn.read_ok] at h
    obtain ⟨-, rfl⟩ := h
    exact hw
  | dropOwner =>
    simp only [WriteCall.exec, Write.updateAdmission_ok] at h
    obtain ⟨a, ha, rfl⟩ := h
    intro b r last hb
    rw [← Except.ok.inj ha] at hb
    cases hb
  | finish b result committedAtMs source =>
    obtain ⟨_, _, h1, h⟩ := Txn.bind_ok.mp h
    obtain ⟨-, rfl⟩ := Txn.pure_ok.mp h
    obtain ⟨-, -, -, -, -, -, hdone⟩ := finish_ok h1
    intro b r last hb
    rw [hdone] at hb
    cases hb
  | finishWithReplay b result committedAtMs source replay => cases hreceipt
  | recordReplay r => cases hreceipt
  | finalizeReplayReceipt r =>
    simp only [WriteCall.exec, finalizeReplayReceiptIn, Txn.bind_ok, Write.readLedger_ok,
      Write.modifyLedger_ok] at h
    obtain ⟨_, _, ⟨-, rfl⟩, rfl⟩ := h
    exact remembers_of_kept hadv.moves (fun _ _ _ hb => hb) hw
  | ack lease nowMs =>
    simp only [WriteCall.exec] at h
    refine remembers_of_kept hadv.moves (fun _ _ _ hb => ?_) hw
    rw [← hb, deliverIn_admission h]
  | reject lease nowMs =>
    simp only [WriteCall.exec] at h
    refine remembers_of_kept hadv.moves (fun _ _ _ hb => ?_) hw
    rw [← hb, deliverIn_admission h]
  | supersede consumer expected nowMs =>
    simp only [WriteCall.exec] at h
    refine remembers_of_kept hadv.moves (fun _ _ _ hb => ?_) hw
    rw [← hb, deliverIn_admission h]

theorem execCalls_remembers :
    ∀ {calls : List WriteCall} {w : Write} {u : Unit}, w.owner = owner → Guarded w →
      calls.any callPurges = false → calls.any callReceipts = false →
      execCalls calls w = .ok u w' → Remembers w → Remembers w'
  | [], w, _, _, _, _, _, h, hw => by
    obtain ⟨-, rfl⟩ := Txn.pure_ok.mp h
    exact hw
  | c :: cs, w, _, howner, hguard, hp, hr, h, hw => by
    rw [List.any_cons, Bool.or_eq_false_iff] at hp hr
    obtain ⟨_, w₁, h1, h2⟩ := Txn.bind_ok.mp h
    have hadv : Advances owner false false (finishedBy c).toList w w₁ :=
      exec_advances howner hguard (fun hc => by rw [hp.1] at hc; cases hc)
        (fun hc => by rw [hr.1] at hc; cases hc) h1
    exact execCalls_remembers (hadv.owner.trans howner) hadv.guarded hp.2 hr.2 h2
      (exec_remembers howner hguard hp.1 hr.1 h1 hw)

end

/-! ### Attempts under a committed key -/

section
variable {owner : OwnedStoreHandle} {w' : Write} {e e' : OperationEnvelope}
  {r : MutationBatchRecord} {last : Option MutationBatch} {id : String}

theorem validateFinalization_of_row {nonce : Digest256}
    (hrow : l.replayOperations.get operation.idempotencyKey = some row)
    (hkey : row.idempotencyKey = operation.idempotencyKey)
    (hdigest : row.operationReplayDigest = operation.digest)
    (hnames : row.recorded.batchId = some r.batch.batchId)
    (hstored : l.batches.get r.batch.batchId = some r) (hnonce : l.replayNonces.get nonce = none) :
    validateFinalization operation nonce r l = .ok () := by
  unfold validateFinalization
  simp only [bind_eq_ok, okOr_eq_ok, require_eq_ok]
  exact ⟨row, hrow, (), ⟨hkey, hdigest, hnames⟩, r, hstored, (), rfl, hnonce⟩

theorem finalizeReplayIn_of_valid (he : b.envelope = .operation e)
    (hscope : b.identity = w.owner.identity) (hbudget : b.validateWriteBudget = .ok ())
    (hvalid : r.validateWriteBudget = .ok ())
    (hrecord : r.status = .committed ∧ r.batch.identity = b.identity)
    (hfinal : validateFinalization e.operationIdentity e.nonceReplayDigest r w.ledger = .ok ()) :
    finalizeReplayIn b r w = .ok ()
      { w with ledger := consumeNonce e.nonceReplayDigest e.idempotencyKey w.ledger } := by
  unfold finalizeReplayIn
  simp only [he, Txn.bind_ok, Txn.read_ok, Write.verifyScope_ok, Write.readLedger_ok, require_eq_ok]
  exact ⟨(), w, ⟨hscope, rfl⟩, (), w, ⟨hbudget, rfl⟩, (), w, ⟨hvalid, rfl⟩, (), w, ⟨hrecord, rfl⟩,
    (), w, ⟨hfinal, rfl⟩, rfl⟩

theorem sealWrite_of_replayed (hadm : w.admission = .replayed b r last)
    (hscope : b.identity = w.owner.identity) (he : b.envelope = .operation e)
    (hfinal : finalizeReplayIn b r w = .ok () w') : sealWrite b w = .ok () w' := by
  have hop : b.isMaintenance = false := by
    unfold MutationBatch.isMaintenance
    rw [he]
    rfl
  unfold sealWrite
  simp only [Txn.bind_ok, Txn.read_ok, Write.verifyScope_ok]
  refine ⟨(), w, ⟨hscope, rfl⟩, (), w, ⟨?_, rfl⟩, some r, w, ⟨?_, rfl⟩, ?_⟩
  · simp [hadm, AdmissionState.validateCommit]
  · simp [hadm, AdmissionState.replayedRecord]
  · simpa only [hop, Bool.false_eq_true, if_false] using hfinal

/-- **A retry of a committed operation replays its record.** -/
theorem begin_replays (hrec : Recorded w.owner.identity w.ledger) (hw : Remembers w)
    (hr : IsCommitted w.ledger id r) (he : r.batch.envelope = .operation e)
    (he' : b.envelope = .operation e') (hkey : e'.idempotencyKey = e.idempotencyKey)
    (hdigest : e'.operationReplayDigest = e.operationReplayDigest)
    (hnonce : w.ledger.replayNonces.get e'.nonceReplayDigest = none)
    (hprop : Proposable w.owner b false false) (hopen : Accepts w.admission) :
    ∃ last, begin b w = .ok (.replay r) { w with admission := .replayed b r last } := by
  obtain ⟨row, hrow, hrowDigest, hrecorded⟩ := hrec.applied id r e hr he
  have hnames : KeyNames b w.ledger id := by
    simp only [KeyNames, he']
    refine resolveReplayIn_replayed.mpr ⟨hnonce, row, ?_, hrowDigest.trans hdigest.symm, hrecorded⟩
    exact (congrArg w.ledger.replayOperations.get hkey).trans hrow
  -- a remembered replay of this batch is the one its key names
  have hknown : ∀ known last, w.admission = .replayed b known last → known = r := by
    intro known last hadm
    obtain ⟨row', id', hrow', hrecorded', hknown, -⟩ := hw b known last hadm e' he'
    rw [hkey, hrow] at hrow'
    rw [← Option.some.inj hrow', hrecorded] at hrecorded'
    rw [← RecordedOperation.batch.inj hrecorded', hr.1] at hknown
    exact (Option.some.inj hknown).symm
  have hremember : ∃ last, AdmissionState.rememberReplayedBatch b r w.admission =
      .ok (.replayed b r last) := by
    cases hadm : w.admission with
    | idle => exact ⟨none, rfl⟩
    | finished f => exact ⟨some f, rfl⟩
    | applying admitted owner =>
      rw [hadm] at hopen
      exact hopen.elim
    | poisoned =>
      rw [hadm] at hopen
      exact hopen.elim
    | replayed existing known last =>
      refine ⟨last, ?_⟩
      by_cases hexisting : existing = b
      · subst hexisting
        obtain rfl := hknown known last hadm
        simp [AdmissionState.rememberReplayedBatch]
      · simp [AdmissionState.rememberReplayedBatch, hexisting]
  obtain ⟨last, hlast⟩ := hremember
  refine ⟨last, beginInner_ok.mpr ⟨hprop, Or.inr ⟨id, hnames, ?_⟩⟩⟩
  exact replayCommittedBatch_ok.mpr ⟨r, hr.1, hr.2, rfl, _, hlast, rfl⟩

/-- **The commit of that replay consumes one nonce**, and changes nothing else. -/
theorem seal_replays (hrec : Recorded w.owner.identity w.ledger) (hr : IsCommitted w.ledger id r)
    (he : r.batch.envelope = .operation e) (he' : b.envelope = .operation e')
    (hkey : e'.idempotencyKey = e.idempotencyKey)
    (hdigest : e'.operationReplayDigest = e.operationReplayDigest)
    (hnonce : w.ledger.replayNonces.get e'.nonceReplayDigest = none)
    (hprop : Proposable w.owner b false false) (hadm : w.admission = .replayed b r last) :
    sealWrite b w = .ok ()
      { w with ledger := consumeNonce e'.nonceReplayDigest e'.idempotencyKey w.ledger } := by
  obtain ⟨row, hrow, hrowDigest, hrecorded⟩ := hrec.applied id r e hr he
  obtain ⟨hid, hscope, hvalid⟩ := hrec.stored id r hr.1
  refine sealWrite_of_replayed hadm hprop.scope he' ?_
  refine finalizeReplayIn_of_valid he' hprop.scope hprop.budget hvalid
    ⟨hr.2, hscope.trans hprop.scope.symm⟩ ?_
  have hrow' : w.ledger.replayOperations.get e'.idempotencyKey = some row := by rw [hkey, hrow]
  refine validateFinalization_of_row hrow' (hrec.keyed _ row hrow') ?_ ?_ ?_ hnonce
  · exact hrowDigest.trans hdigest.symm
  · rw [hrecorded, hid]
    rfl
  · rw [hid]
    exact hr.1

/-- **Another operation under a used key is refused** before anything is written. -/
theorem begin_refused (he' : b.envelope = .operation e')
    (hrow : w.ledger.replayOperations.get e'.idempotencyKey = some row)
    (hdigest : row.operationReplayDigest ≠ e'.operationReplayDigest) :
    ∃ message, begin b w = .error message w := by
  have hfresh : resolveReplayIn w.ledger e'.operationIdentity e'.nonceReplayDigest ≠ .fresh := by
    intro hres
    have hnone := (resolveReplayIn_fresh.mp hres).2
    exact absurd (hrow.symm.trans hnone) (by simp)
  have hreplayed : ∀ recorded, resolveReplayIn w.ledger e'.operationIdentity
      e'.nonceReplayDigest ≠ .replayedResult recorded := by
    intro recorded hres
    obtain ⟨-, row', hrow', hdigest', -⟩ := resolveReplayIn_replayed.mp hres
    rw [Option.some.inj (hrow.symm.trans hrow')] at hdigest
    exact hdigest hdigest'
  cases hbegin : begin b w with
  | ok begun w' =>
    obtain ⟨-, ⟨hfree, -⟩ | ⟨id, hnames, -⟩⟩ := beginInner_ok.mp hbegin
    · simp only [KeyFree, he'] at hfree
      exact absurd hfree hfresh
    · simp only [KeyNames, he'] at hnames
      exact absurd hnames (hreplayed _)
  | error message w' =>
    refine ⟨message, ?_⟩
    unfold begin beginInner beginOperation beginOperationWithIdentity at hbegin
    simp only [he', Txn.bind_error, Txn.read_error, Txn.read_ok, Write.verifyScope,
      Write.readLedger] at hbegin
    rcases hbegin with ⟨-, rfl⟩ | ⟨_, _, ⟨-, rfl⟩, ⟨-, rfl⟩ | ⟨_, _, ⟨-, rfl⟩, ⟨-, rfl⟩ |
      ⟨_, _, ⟨-, rfl⟩, ⟨-, rfl⟩ | ⟨_, _, ⟨-, rfl⟩, ⟨h, -⟩ | ⟨res, _, ⟨hres, rfl⟩, h⟩⟩⟩⟩⟩
    · rfl
    · rfl
    · rfl
    · rfl
    · cases h
    · obtain rfl := Except.ok.inj hres
      cases hresolved : resolveReplayIn w.ledger e'.operationIdentity e'.nonceReplayDigest with
      | fresh => exact absurd hresolved hfresh
      | replayedResult recorded => exact absurd hresolved (hreplayed recorded)
      | nonceRejected key =>
        simp only [hresolved] at h
        rw [(Txn.throw_error.mp h).2]
      | conflict recorded proposed =>
        simp only [hresolved] at h
        rw [(Txn.throw_error.mp h).2]

end

/-! ### Sagas and whole writes -/

section
variable {owner : OwnedStoreHandle} {e e' : OperationEnvelope} {r : MutationBatchRecord}
  {id : String}

theorem remembers_opened (owner : OwnedStoreHandle) (l : Ledger) :
    Remembers (Write.opened owner l) := by
  intro b r last hb
  cases hb

theorem recordedSagaBatchId_of_resolved (he' : b.envelope = .operation e')
    (hres : resolveReplayIn w.ledger e'.operationIdentity e'.nonceReplayDigest =
      .replayedResult (.batch id)) : recordedSagaBatchId b w = .ok (some id) w := by
  unfold recordedSagaBatchId sagaEnvelope
  simp only [Txn.bind_ok, Txn.read_ok, Write.readLedger_ok, okOr_eq_ok, operation?_eq_some]
  refine ⟨e', w, ⟨he', rfl⟩, _, w, ⟨rfl, rfl⟩, ?_⟩
  simp only [hres]
  exact Txn.pure_ok.mpr ⟨rfl, rfl⟩

theorem resumeExistingSaga_of_committed {payload : Option (List UInt8)}
    (hr : IsCommitted w.ledger id r) :
    resumeExistingSaga b payload id w = .ok (.committed r) w := by
  unfold resumeExistingSaga ensurePrivatePayload
  simp only [Txn.bind_ok, Txn.read_ok, Write.readLedger_ok, okOr_eq_ok]
  refine ⟨r, w, ⟨hr.1, rfl⟩, (), w, ⟨?_, rfl⟩, ?_⟩
  · simp [hr.2]
  · simp only [hr.2]
    exact Txn.pure_ok.mpr ⟨rfl, rfl⟩

theorem prepareSaga_replays (hrec : Recorded owner.identity l) (hr : IsCommitted l id r)
    (he : r.batch.envelope = .operation e) (he' : b.envelope = .operation e')
    (hkey : e'.idempotencyKey = e.idempotencyKey)
    (hdigest : e'.operationReplayDigest = e.operationReplayDigest)
    (hnonce : l.replayNonces.get e'.nonceReplayDigest = none)
    (hprop : Proposable owner b false false) (preparedAtMs : ℕ) (payload : Option (List UInt8)) :
    prepareSaga owner b preparedAtMs payload l =
      .ok (.committed r, consumeNonce e'.nonceReplayDigest e'.idempotencyKey l) := by
  obtain ⟨row, hrow, hrowDigest, hrecorded⟩ := hrec.applied id r e hr he
  obtain ⟨last, hbegin⟩ := begin_replays (w := Write.opened owner l) hrec (remembers_opened owner l)
    hr he he' hkey hdigest hnonce hprop trivial
  have hseal := seal_replays (w := { Write.opened owner l with admission := .replayed b r last })
    hrec hr he he' hkey hdigest hnonce hprop rfl
  have hresolved : resolveReplayIn l e'.operationIdentity e'.nonceReplayDigest =
      .replayedResult (.batch id) := by
    refine resolveReplayIn_replayed.mpr ⟨hnonce, row, ?_, hrowDigest.trans hdigest.symm, hrecorded⟩
    exact (congrArg l.replayOperations.get hkey).trans hrow
  have hprepare : prepareSagaIn b preparedAtMs payload (Write.opened owner l) =
      .ok (.committed r, true) { Write.opened owner l with
        ledger := consumeNonce e'.nonceReplayDigest e'.idempotencyKey l
        admission := .replayed b r last } := by
    unfold prepareSagaIn
    simp only [Txn.bind_ok, Txn.read_ok, Write.verifyScope_ok]
    refine ⟨(), _, ⟨hprop.budget, rfl⟩, (), _, ⟨hprop.scope, rfl⟩, some id, _,
      recordedSagaBatchId_of_resolved he' hresolved, ?_⟩
    refine Txn.bind_ok.mpr ⟨.committed r, _, resumeExistingSaga_of_committed hr, ?_⟩
    refine Txn.bind_ok.mpr ⟨.replay r, _, hbegin, ?_⟩
    exact Txn.bind_ok.mpr ⟨(), _, hseal, Txn.pure_ok.mpr ⟨rfl, rfl⟩⟩
  unfold prepareSaga
  rw [hprepare]

theorem prepareSaga_refused (he' : b.envelope = .operation e')
    (hrow : l.replayOperations.get e'.idempotencyKey = some row)
    (hdigest : row.operationReplayDigest ≠ e'.operationReplayDigest) (preparedAtMs : ℕ)
    (payload : Option (List UInt8)) :
    ∃ message, prepareSaga owner b preparedAtMs payload l = .error message := by
  unfold prepareSaga
  cases h : prepareSagaIn b preparedAtMs payload (Write.opened owner l) with
  | error message w => exact ⟨message, rfl⟩
  | ok result w =>
    unfold prepareSagaIn at h
    simp only [Txn.bind_ok, Txn.read_ok, Write.verifyScope_ok] at h
    obtain ⟨_, _, ⟨-, rfl⟩, _, _, ⟨-, rfl⟩, existing, _, hrec, -⟩ := h
    obtain ⟨-, e, he, ⟨hres, -⟩ | ⟨recorded, hres, -⟩⟩ := recordedSagaBatchId_ok hrec
    · obtain rfl := MutationEnvelope.operation.inj (he'.symm.trans he)
      have hnone := (resolveReplayIn_fresh.mp hres).2
      exact absurd (hrow.symm.trans hnone) (by simp)
    · obtain rfl := MutationEnvelope.operation.inj (he'.symm.trans he)
      obtain ⟨-, row', hrow', hdigest', -⟩ := resolveReplayIn_replayed.mp hres
      rw [Option.some.inj (hrow.symm.trans hrow')] at hdigest
      exact absurd hdigest' hdigest

theorem execCalls_append {w' : Write} :
    ∀ {cs ds : List WriteCall} {w : Write} {u : Unit}, execCalls (cs ++ ds) w = .ok u w' →
      ∃ w₁, execCalls cs w = .ok () w₁ ∧ execCalls ds w₁ = .ok u w'
  | [], _, w, _, h => ⟨w, rfl, h⟩
  | c :: cs, ds, w, _, h => by
    obtain ⟨_, w₁, h1, h2⟩ := Txn.bind_ok.mp h
    obtain ⟨w₂, h3, h4⟩ := execCalls_append h2
    exact ⟨w₂, Txn.bind_ok.mpr ⟨(), w₁, h1, h3⟩, h4⟩

theorem commitWrite_of_refused {calls rest : List WriteCall} {finish : WriteEnd} {message : String}
    (hcalls : execCalls calls (Write.opened owner l) = .ok () w)
    (hrefused : begin b w = .error message w) :
    commitWrite owner (calls ++ .begin b :: rest) finish l = l := by
  unfold commitWrite
  cases h : execWrite (calls ++ .begin b :: rest) finish (Write.opened owner l) with
  | error e w' => rfl
  | ok commits w' =>
    obtain ⟨_, w₁, h1, -⟩ := Txn.bind_ok.mp h
    obtain ⟨w₂, h2, h3⟩ := execCalls_append h1
    obtain rfl : w = w₂ := by
      rw [hcalls] at h2
      cases h2
      rfl
    obtain ⟨_, _, h4, -⟩ := Txn.bind_ok.mp h3
    obtain ⟨_, _, h5, -⟩ := Txn.bind_ok.mp h4
    rw [hrefused] at h5
    cases h5

end

/-! ### Runs -/

theorem appliedOnce_run {owner : OwnedStoreHandle} {v : ℕ} {calls : List KernelCall}
    (hpurge : ∀ c ∈ calls, kernelPurges c = false)
    (hreceipt : ∀ c ∈ calls, kernelReceipts c = false) :
    AppliedOnce owner.identity (runLog owner (Ledger.bound v) calls)
      (runKernel owner (Ledger.bound v) calls) := by
  have hmoves : Moves owner.identity false false (Ledger.bound v)
      (runLog owner (Ledger.bound v) calls) (runKernel owner (Ledger.bound v) calls) :=
    run_moves (fun c hc h => by rw [hpurge c hc] at h; cases h)
      (fun c hc h => by rw [hreceipt c hc] at h; cases h)
  have h0 : AppliedOnce owner.identity [] (Ledger.bound v) := by
    refine ⟨⟨?_, ?_, ?_⟩, ?_, List.nodup_nil⟩
    · intro id r hr
      cases hr
    · intro key row hrow
      cases hrow
    · intro id r e hr
      cases hr.1
    · intro c hc
      cases hc
  exact Moves.invariant appliedOnce_move hmoves h0

theorem appliedOnce_calls {owner : OwnedStoreHandle} {calls : List WriteCall}
    (h : AppliedOnce owner.identity es l) (hpurge : calls.any callPurges = false)
    (hreceipt : calls.any callReceipts = false)
    (hw : execCalls calls (Write.opened owner l) = .ok u w) :
    AppliedOnce owner.identity (es ++ finishedIn calls) w.ledger ∧ Remembers w ∧
      w.owner = owner := by
  have hadv : Advances owner false false (finishedIn calls) (Write.opened owner l) w :=
    execCalls_advances rfl (guarded_opened l) (fun hc => by rw [hpurge] at hc; cases hc)
      (fun hc => by rw [hreceipt] at hc; cases hc) hw
  exact ⟨Moves.invariant appliedOnce_move hadv.moves h,
    execCalls_remembers rfl (guarded_opened l) hpurge hreceipt hw (remembers_opened owner l),
    hadv.owner⟩

/-- **An operation is applied at most once.** After any run without purge and typed receipts, and any
calls of a further write: no operation key has committed twice; an attempt with the key and digest of a
committed record and an unused nonce is its replay and only consumes that nonce; and one with another
digest is refused and changes nothing. -/
theorem operation_applied_at_most_once (owner : OwnedStoreHandle) (initialVersion : ℕ)
    (before : List KernelCall) (calls : List WriteCall) (w : Write)
    (hpurge : ∀ c ∈ before, kernelPurges c = false)
    (hreceipt : ∀ c ∈ before, kernelReceipts c = false)
    (hpurges : calls.any callPurges = false) (hreceipts : calls.any callReceipts = false)
    (hw : execCalls calls
      (Write.opened owner (runKernel owner (Ledger.bound initialVersion) before)) = .ok () w) :
    ((runLog owner (Ledger.bound initialVersion) before ++ finishedIn calls).filterMap
      operationKey).Nodup ∧
    ∀ id r e, IsCommitted w.ledger id r → r.batch.envelope = .operation e →
      (∀ id' r' e', IsCommitted w.ledger id' r' → r'.batch.envelope = .operation e' →
        e'.idempotencyKey = e.idempotencyKey → id' = id ∧ r' = r) ∧
      ∀ b e', b.envelope = .operation e' → e'.idempotencyKey = e.idempotencyKey →
        (e'.operationReplayDigest = e.operationReplayDigest →
          w.ledger.replayNonces.get e'.nonceReplayDigest = none →
          Proposable owner b false false →
          (Accepts w.admission → ∃ w₁ w₂, begin b w = .ok (.replay r) w₁ ∧
            w₁.ledger = w.ledger ∧ sealWrite b w₁ = .ok () w₂ ∧
            w₂.ledger = consumeNonce e'.nonceReplayDigest e'.idempotencyKey w.ledger) ∧
          ∀ preparedAtMs payload, prepareSaga owner b preparedAtMs payload w.ledger =
            .ok (.committed r, consumeNonce e'.nonceReplayDigest e'.idempotencyKey w.ledger)) ∧
        (e'.operationReplayDigest ≠ e.operationReplayDigest →
          (∃ message, begin b w = .error message w) ∧
          (∀ rest finish, commitWrite owner (calls ++ .begin b :: rest) finish
            (runKernel owner (Ledger.bound initialVersion) before) =
              runKernel owner (Ledger.bound initialVersion) before) ∧
          ∀ preparedAtMs payload, ∃ message,
            prepareSaga owner b preparedAtMs payload w.ledger = .error message) := by
  have hrun : AppliedOnce owner.identity (runLog owner (Ledger.bound initialVersion) before)
      (runKernel owner (Ledger.bound initialVersion) before) := appliedOnce_run hpurge hreceipt
  obtain ⟨happlied, hremembers, rfl⟩ := appliedOnce_calls hrun hpurges hreceipts hw
  have hrec := happlied.recorded
  refine ⟨happlied.distinct, fun id r e hr he => ⟨?_, fun b e' he' hkey => ⟨?_, ?_⟩⟩⟩
  · intro id' r' e' hr' he' hkey
    obtain rfl := (hrec.applied id' r' e' hr' he').unique (hrec.applied id r e hr he) hkey
    exact ⟨rfl, Option.some.inj (hr'.1.symm.trans hr.1)⟩
  · intro hdigest hnonce hprop
    refine ⟨fun hopen => ?_, prepareSaga_replays hrec hr he he' hkey hdigest hnonce hprop⟩
    obtain ⟨last, hbegin⟩ := begin_replays hrec hremembers hr he he' hkey hdigest hnonce hprop hopen
    have hseal := seal_replays (w := { w with admission := .replayed b r last })
      hrec hr he he' hkey hdigest hnonce hprop rfl
    exact ⟨_, _, hbegin, rfl, hseal, rfl⟩
  · intro hdigest
    obtain ⟨row, hrow, hrowDigest, -⟩ := hrec.applied id r e hr he
    rw [← hkey] at hrow
    have hne : row.operationReplayDigest ≠ e'.operationReplayDigest := by
      rw [hrowDigest]
      exact hdigest.symm
    obtain ⟨message, hrefused⟩ := begin_refused he' hrow hne
    exact ⟨⟨message, hrefused⟩, fun rest finish => commitWrite_of_refused hw hrefused,
      prepareSaga_refused he' hrow hne⟩

def appliedRun : List KernelCall := [commitAlone (sampleOperation "op" "n1" 0 0 0 []) 0]

def appliedRecord : MutationBatchRecord :=
  ⟨sampleOperation "op" "n1" 0 0 0 [], .committed, .graph 0 1, none, 1⟩

theorem operation_applied_at_most_once_sample : ∃ w₁ w₂, begin (sampleOperation "op" "n2" 0 0 0 [])
        (Write.opened sampleOwner (runKernel sampleOwner (Ledger.bound 0) appliedRun)) =
          .ok (.replay appliedRecord) w₁ ∧
      sealWrite (sampleOperation "op" "n2" 0 0 0 []) w₁ = .ok () w₂ ∧
      w₂.ledger.version = 1 ∧ w₂.ledger.replayNonces.get "n2" = some "op" := by
  have hcommitted : IsCommitted (runKernel sampleOwner (Ledger.bound 0) appliedRun) "op"
      appliedRecord := ⟨by decide +kernel, rfl⟩
  have hprop : Proposable sampleOwner (sampleOperation "op" "n2" 0 0 0 []) false false :=
    ⟨by decide +kernel, by decide, by decide +kernel, rfl⟩
  obtain ⟨-, hretry⟩ := operation_applied_at_most_once sampleOwner 0 appliedRun [] _ (by decide)
    (by decide) rfl rfl rfl
  obtain ⟨-, hattempt⟩ := hretry "op" appliedRecord _ hcommitted rfl
  obtain ⟨hsame, -⟩ := hattempt (sampleOperation "op" "n2" 0 0 0 []) _ rfl rfl
  obtain ⟨w₁, w₂, hbegin, -, hseal, hledger⟩ := (hsame rfl (by decide +kernel) hprop).1 trivial
  refine ⟨w₁, w₂, hbegin, hseal, ?_, ?_⟩
  · rw [hledger]
    decide +kernel
  · rw [hledger]
    exact Table.get_insert_self _ _ _

end Medulla.Mutation.AtMostOnce
