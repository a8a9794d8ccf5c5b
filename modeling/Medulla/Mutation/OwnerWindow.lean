import Medulla.Mutation.RouteFence

/-! # Owner-row windows and their receipts

A caller holds an open write and calls it as it likes: it may go on after a call that failed, it may
finish or drop the owner gates it was handed, and it may admit and finish several batches. `Session`
is such a write together with what the caller has done to it.

* one call: `windowed_succeeded`, `windowed_failed`; every session: `windowed_session`;
* the result: `owner_rows_receipted`. -/

namespace Medulla.Mutation.OwnerWindow

open Library.Checked Library.Transaction Types.Batch Types.Records State Replay
open Commit Kernel Transitions Runs RouteFence
open Outbox.Index Outbox.Frames Outbox.Cursor
open Library.OrderedTable (Table)

variable {operation : OperationReplayIdentity} {nonce : Digest256} {recorded : RecordedOperation}
  {id e : String} {record : MutationBatchRecord} {l : Ledger} {w : Write} {b : MutationBatch}

/-! ### Sessions -/

structure Finish where
  batch : MutationBatch
  replay : Option ReplayReceipt

/-- One write and what its caller has done to it: the owner gates still held, the batches with an open
owner-row window, the batches finished since the last purge, how many were finished in all, and whether
a gate was dropped. -/
structure Session where
  write : Write
  gates : ℕ
  pending : List MutationBatch
  finished : List Finish
  finishes : ℕ
  dropped : Bool

namespace Session

def opened (owner : OwnedStoreHandle) (l : Ledger) : Session :=
  ⟨Write.opened owner l, 0, [], [], 0, false⟩

def finish (s : Session) (w : Write) (b : MutationBatch) (replay : Option ReplayReceipt) :
    Session :=
  { s with
    write := w
    pending := s.pending.filter (· ≠ b)
    finished := s.finished ++ [⟨b, replay⟩]
    finishes := s.finishes + 1 }

def succeeded (s : Session) (w : Write) : WriteCall → Session
  | .ownerRows b => { s with write := w, gates := s.gates + 1, pending := b :: s.pending }
  | .finishOwner => { s with write := w, gates := s.gates - 1 }
  | .dropOwner => { s with write := w, gates := s.gates - 1, dropped := true }
  | .finish b _ _ _ => s.finish w b none
  | .finishWithReplay b _ _ _ replay => s.finish w b (some replay)
  | .purgeGeneration => { s with write := w, finished := [] }
  | _ => { s with write := w }

def failed (s : Session) (w : Write) : WriteCall → Session
  | .finishOwner =>
    { s with write := { w with admission := .poisoned }, gates := s.gates - 1, dropped := true }
  | _ => { s with write := w }

def takesGate : WriteCall → Bool
  | .finishOwner | .dropOwner => true
  | _ => false

def call (s : Session) (c : WriteCall) : Session :=
  if takesGate c = true ∧ s.gates = 0 then s
  else
    match c.exec s.write with
    | .ok _ w => s.succeeded w c
    | .error _ w => s.failed w c

end Session

def session (owner : OwnedStoreHandle) (l : Ledger) (calls : List WriteCall) : Session :=
  run Session.call (Session.opened owner l) calls

/-! ### Receipts -/

def KeyRow (l : Ledger) (f : Finish) : Prop :=
  match f.replay with
  | some r => ∃ row, l.replayOperations.get r.operation.idempotencyKey = some row ∧
      row.batchId = f.batch.batchId ∧ row.recorded = .receipt r.receipt
  | none =>
    match f.batch.envelope with
    | .operation e => ∃ row, l.replayOperations.get e.idempotencyKey = some row ∧
        row.recorded = .batch f.batch.batchId
    | .maintenance _ => l.maintenance.get f.batch.idempotencyKey = some f.batch.batchId

structure HasReceipt (l : Ledger) (f : Finish) : Prop where
  record : ∃ r, IsCommitted l f.batch.batchId r ∧ r.batch = f.batch
  labelled : l.classes.get f.batch.batchId =
    some (if f.batch.isMaintenance then .maintenance else .operation)
  keyed : KeyRow l f

/-- **No owner row without a receipt**: every window opened in the session belongs to a batch that
was finished, its receipt and its version bump are in the ledger, and no gate was dropped. -/
structure Receipted (before : Ledger) (s : Session) (after : Ledger) : Prop where
  closed : s.pending = []
  kept : s.dropped = false
  receipts : ∀ f ∈ s.finished, HasReceipt after f
  version : before.version + s.finishes ≤ after.version

/-! ### What calls leave of the receipts -/

/-- A change of the ledger that leaves every receipt. -/
structure Keeps (l l' : Ledger) : Prop where
  batches : l'.batches = l.batches
  classes : l'.classes = l.classes
  maintenance : l'.maintenance = l.maintenance
  operations : ∀ k row, l.replayOperations.get k = some row → l'.replayOperations.get k = some row
  version : l'.version = l.version

/-- A change of the ledger that leaves every receipt but that of one batch. -/
structure Touches (b : MutationBatch) (l l' : Ledger) : Prop where
  batches : ∀ id, id ≠ b.batchId → l'.batches.get id = l.batches.get id
  classes : ∀ id, id ≠ b.batchId → l'.classes.get id = l.classes.get id
  maintenance : ∀ k, (b.isMaintenance = true → k ≠ b.idempotencyKey) →
    l'.maintenance.get k = l.maintenance.get k
  operations : ∀ k row, l.replayOperations.get k = some row → l'.replayOperations.get k = some row
  version : l.version ≤ l'.version

structure Apart (b : MutationBatch) (f : Finish) : Prop where
  batchId : f.batch.batchId ≠ b.batchId
  key : f.replay = none → f.batch.isMaintenance = true → b.isMaintenance = true →
    f.batch.idempotencyKey ≠ b.idempotencyKey

section
variable {l' l'' : Ledger} {f : Finish}

theorem Keeps.touches (h : Keeps l l') : Touches b l l' :=
  ⟨fun _ _ => by rw [h.batches], fun _ _ => by rw [h.classes], fun _ _ => by rw [h.maintenance],
    h.operations, h.version.ge⟩

theorem Keeps.refl (l : Ledger) : Keeps l l := ⟨rfl, rfl, rfl, fun _ _ h => h, rfl⟩

theorem Touches.refl (b : MutationBatch) (l : Ledger) : Touches b l l := (Keeps.refl l).touches

theorem Touches.trans (h : Touches b l l') (h' : Touches b l' l'') : Touches b l l'' :=
  ⟨fun id hid => (h'.batches id hid).trans (h.batches id hid),
    fun id hid => (h'.classes id hid).trans (h.classes id hid),
    fun k hk => (h'.maintenance k hk).trans (h.maintenance k hk),
    fun k row hrow => h'.operations k row (h.operations k row hrow), h.version.trans h'.version⟩

theorem keyRow_of_operations (hops : ∀ k row, l.replayOperations.get k = some row →
      l'.replayOperations.get k = some row)
    (hmaintenance : f.replay = none → f.batch.isMaintenance = true →
      l'.maintenance.get f.batch.idempotencyKey = l.maintenance.get f.batch.idempotencyKey)
    (h : KeyRow l f) : KeyRow l' f := by
  unfold KeyRow at h ⊢
  cases hreplay : f.replay with
  | some r =>
    simp only [hreplay] at h ⊢
    obtain ⟨row, hrow, hrest⟩ := h
    exact ⟨row, hops _ row hrow, hrest⟩
  | none =>
    simp only [hreplay] at h ⊢
    cases he : f.batch.envelope with
    | operation e =>
      simp only [he] at h ⊢
      obtain ⟨row, hrow, hrest⟩ := h
      exact ⟨row, hops _ row hrow, hrest⟩
    | maintenance e =>
      simp only [he] at h ⊢
      rw [hmaintenance hreplay
        (by simp [MutationBatch.isMaintenance, he, MutationEnvelope.isMaintenance])]
      exact h

theorem HasReceipt.touches (h : HasReceipt l f) (ht : Touches b l l') (ha : Apart b f) :
    HasReceipt l' f := by
  obtain ⟨r, hr, hbatch⟩ := h.record
  refine ⟨⟨r, ⟨?_, hr.2⟩, hbatch⟩, ?_, ?_⟩
  · rw [ht.batches _ ha.batchId]
    exact hr.1
  · rw [ht.classes _ ha.batchId]
    exact h.labelled
  · refine keyRow_of_operations ht.operations (fun hr hm => ht.maintenance _ fun hb => ?_) h.keyed
    exact ha.key hr hm hb

theorem HasReceipt.keeps (h : HasReceipt l f) (hk : Keeps l l') : HasReceipt l' f := by
  obtain ⟨r, hr, hbatch⟩ := h.record
  refine ⟨⟨r, ⟨by rw [hk.batches]; exact hr.1, hr.2⟩, hbatch⟩, ?_, ?_⟩
  · rw [hk.classes]
    exact h.labelled
  · exact keyRow_of_operations hk.operations (fun _ _ => by rw [hk.maintenance]) h.keyed

theorem operations_of_record (h : recordOperation operation nonce recorded id l = .ok l')
    (k : String) (row : OperationReplayRow) (hrow : l.replayOperations.get k = some row) :
    l'.replayOperations.get k = some row := by
  rcases recordOperation_cases h with ⟨-, -, -, rfl⟩ | ⟨hnone, -, rfl⟩
  · exact hrow
  · have hk : k ≠ operation.idempotencyKey := by
      rintro rfl
      exact absurd (hnone.symm.trans hrow) (by simp)
    rw [claimKey, Table.get_insert_of_ne _ _ hk]
    exact hrow

theorem keeps_of_record (h : recordOperation operation nonce recorded id l = .ok l') :
    Keeps l l' := by
  have hframe := recordOperation_frame h
  refine ⟨?_, ?_, ?_, operations_of_record h, ?_⟩ <;> rw [hframe]

theorem keeps_of_core (h : core l' = core l) : Keeps l l' := by
  have hframe := eq_of_core h
  refine ⟨?_, ?_, ?_, fun k row hrow => ?_, ?_⟩
  · rw [hframe]
  · rw [hframe]
  · rw [hframe]
  · rw [hframe]
    exact hrow
  · rw [hframe]

theorem keeps_consumeNonce (nonce : Digest256) (key : String) (l : Ledger) :
    Keeps l (consumeNonce nonce key l) := ⟨rfl, rfl, rfl, fun _ _ h => h, rfl⟩

end

/-! ### Failed calls -/

theorem failsIn_admitFresh : Txn.FailsIn Eq (admitFresh b) := by
  refine Txn.failsIn_read_bind fun _ => ?_
  refine Txn.failsIn_read_bind fun _ => ?_
  refine Txn.failsIn_read_bind fun _ => ?_
  refine Txn.failsIn_bind_total (Txn.failsIn_update _) fun _ w e w' h => ?_
  cases h

theorem failsIn_replayCommittedBatch (id : String) :
    Txn.FailsIn Eq (replayCommittedBatch b id) := by
  refine Txn.failsIn_read_bind fun _ => ?_
  exact Txn.failsIn_bind_total (Txn.failsIn_update _) fun _ => Txn.total_pure _

theorem failsIn_beginOperationWithIdentity (operation : OperationReplayIdentity)
    (nonce : Digest256) : Txn.FailsIn Eq (beginOperationWithIdentity b operation nonce) := by
  refine Txn.failsIn_read_bind fun resolution => ?_
  cases resolution with
  | fresh => exact failsIn_admitFresh
  | nonceRejected key => exact Txn.failsIn_throw _
  | conflict recorded proposed => exact Txn.failsIn_throw _
  | replayedResult recorded =>
    cases recorded with
    | batch id => exact failsIn_replayCommittedBatch id
    | receipt receipt => exact Txn.failsIn_throw _

theorem failsIn_beginMaintenance : Txn.FailsIn Eq (beginMaintenance b) := by
  refine Txn.failsIn_read_bind fun claim => ?_
  cases claim with
  | none => exact failsIn_admitFresh
  | some id => exact failsIn_replayCommittedBatch id

theorem failsIn_beginInner (g t : Bool) : Txn.FailsIn Eq (beginInner b g t) := by
  refine Txn.failsIn_read_bind fun _ => ?_
  refine Txn.failsIn_read_bind fun _ => ?_
  refine Txn.failsIn_read_bind fun _ => ?_
  refine Txn.failsIn_read_bind fun _ => ?_
  cases b.envelope with
  | operation e => exact failsIn_beginOperationWithIdentity _ _
  | maintenance e => exact failsIn_beginMaintenance

theorem failsIn_beginWithReplayIdentity (operation : OperationReplayIdentity) (nonce : Digest256) :
    Txn.FailsIn Eq (beginWithReplayIdentity b operation nonce) := by
  refine Txn.failsIn_read_bind fun _ => ?_
  refine Txn.failsIn_read_bind fun _ => ?_
  refine Txn.failsIn_read_bind fun _ => ?_
  refine Txn.failsIn_read_bind fun _ => ?_
  exact failsIn_beginOperationWithIdentity _ _

theorem failsIn_recordReplayIn (operation : OperationReplayIdentity) (nonce : Digest256)
    (receipt : MutationReceipt) : Txn.FailsIn Eq (recordReplayIn operation nonce receipt) := by
  refine Txn.failsIn_read_bind fun _ => ?_
  refine Txn.failsIn_read_bind fun _ => ?_
  refine Txn.failsIn_read_bind fun _ => ?_
  refine Txn.failsIn_read_bind fun _ => ?_
  refine Txn.failsIn_read_bind fun _ => ?_
  exact Txn.failsIn_read_bind fun _ => Txn.failsIn_update _

/-- **A failed call changes nothing**, finishes apart. -/
theorem failsIn_exec {c : WriteCall} (hc : finishedBy c = none) : Txn.FailsIn Eq c.exec := by
  cases c with
  | begin b => exact Txn.failsIn_bind_total (failsIn_beginInner _ _) fun _ => Txn.total_pure _
  | beginTopUp b => exact Txn.failsIn_bind_total (failsIn_beginInner _ _) fun _ => Txn.total_pure _
  | beginWithReplayIdentity b operation nonce =>
    exact Txn.failsIn_bind_total (failsIn_beginWithReplayIdentity _ _) fun _ => Txn.total_pure _
  | ownerRows b => exact Txn.failsIn_read_bind fun _ => Txn.failsIn_update _
  | purgeGeneration => exact Txn.failsIn_read_bind fun _ => Txn.failsIn_update _
  | finishOwner => exact Txn.failsIn_read (R := Eq) _
  | dropOwner =>
    simp only [WriteCall.exec]
    exact Txn.failsIn_update _
  | finish b result committedAtMs source => cases hc
  | finishWithReplay b result committedAtMs source replay => cases hc
  | recordReplay r => exact failsIn_recordReplayIn _ _ _
  | finalizeReplayReceipt r =>
    exact Txn.failsIn_read_bind fun _ => Txn.failsIn_of_total Txn.total_update
  | ack lease nowMs => exact Txn.failsIn_read_bind fun _ => Txn.failsIn_update _
  | reject lease nowMs => exact Txn.failsIn_read_bind fun _ => Txn.failsIn_update _
  | supersede consumer expected nowMs => exact Txn.failsIn_read_bind fun _ => Txn.failsIn_update _

/-- What an interrupted finish leaves: rows of its own batch, and the admission it found. -/
structure Attempts (b : MutationBatch) (w w' : Write) : Prop where
  owner : w'.owner = w.owner
  admission : w'.admission = w.admission
  ledger : Touches b w.ledger w'.ledger

instance : Std.Refl (Attempts b) := ⟨fun w => ⟨rfl, rfl, Touches.refl b w.ledger⟩⟩

instance : IsTrans Write (Attempts b) :=
  ⟨fun _ _ _ h h' => ⟨h'.owner.trans h.owner, h'.admission.trans h.admission,
    h.ledger.trans h'.ledger⟩⟩

theorem respects_updateLedger {f : Ledger → Except String Ledger}
    (h : ∀ l l', f l = .ok l' → Touches b l l') :
    Txn.Respects (Attempts b) (Write.updateLedger f) := by
  refine Txn.respects_update fun w w' hw => ?_
  cases hf : f w.ledger with
  | error e => simp [hf, Except.map] at hw
  | ok l =>
    simp only [hf, Except.map, Except.ok.injEq] at hw
    subst hw
    exact ⟨rfl, rfl, h _ _ hf⟩

theorem respects_modifyLedger {f : Ledger → Ledger} (h : ∀ l, Touches b l (f l)) :
    Txn.Respects (Attempts b) (Write.modifyLedger f) := by
  refine respects_updateLedger fun l l' hl => ?_
  rw [← Except.ok.inj hl]
  exact h l

theorem respects_recordOperationIn (operation : OperationReplayIdentity) (nonce : Digest256)
    (recorded : RecordedOperation) :
    Txn.Respects (Attempts b) (recordOperationIn operation nonce recorded) :=
  Txn.respects_read_bind fun _ => respects_updateLedger fun _ _ h => (keeps_of_record h).touches

theorem respects_recordReplayIn (operation : OperationReplayIdentity) (nonce : Digest256)
    (receipt : MutationReceipt) :
    Txn.Respects (Attempts b) (recordReplayIn operation nonce receipt) := by
  refine Txn.respects_read_bind fun _ => ?_
  refine Txn.respects_read_bind fun _ => ?_
  refine Txn.respects_read_bind fun _ => ?_
  refine Txn.respects_read_bind fun _ => ?_
  refine Txn.respects_read_bind fun _ => ?_
  exact respects_recordOperationIn _ _ _

theorem respects_persistReplayRow (replay : Option ReplayReceipt) :
    Txn.Respects (Attempts b) (persistReplayRow b replay) := by
  cases replay with
  | some r => exact respects_recordReplayIn _ _ _
  | none =>
    change Txn.Respects (Attempts b) (persistKeyRow b)
    unfold persistKeyRow
    cases he : b.envelope with
    | operation e => exact respects_recordOperationIn _ _ _
    | maintenance e =>
      refine respects_modifyLedger fun l => ⟨fun _ _ => rfl, fun _ _ => rfl, fun k hk => ?_,
        fun _ _ h => h, le_rfl⟩
      refine Table.get_insert_of_ne _ _ (hk ?_)
      simp [MutationBatch.isMaintenance, he, MutationEnvelope.isMaintenance]

theorem respects_persistRecord (h : record.batch = b) :
    Txn.Respects (Attempts b) (persistRecord record) := by
  refine Txn.respects_read_bind fun _ => ?_
  refine respects_modifyLedger fun l => ⟨fun id hid => ?_, fun _ _ => rfl, fun _ _ => rfl,
    fun _ _ h => h, le_rfl⟩
  rw [h]
  exact Table.get_insert_of_ne _ _ hid

theorem respects_writeClass : Txn.Respects (Attempts b) (writeClass b) :=
  respects_modifyLedger fun _ => ⟨fun _ _ => rfl, fun _ hid => Table.get_insert_of_ne _ _ hid,
    fun _ _ => rfl, fun _ _ h => h, le_rfl⟩

theorem touches_writeVersion {committed : CommittedVersion} {l' : Ledger}
    (h : writeVersion committed l = .ok l') : Touches b l l' := by
  obtain ⟨-, -, rfl⟩ := writeVersion_ok h
  exact ⟨fun _ _ => rfl, fun _ _ => rfl, fun _ _ => rfl, fun _ _ h => h, Nat.le_succ _⟩

theorem respects_writeOutboxRow (r : MutationOutboxRecord) :
    Txn.Respects (Attempts b) (writeOutboxRow r) := by
  refine Txn.respects_read_bind fun _ => ?_
  refine Txn.respects_bind ?_ fun _ => ?_
  · exact respects_modifyLedger fun _ =>
      ⟨fun _ _ => rfl, fun _ _ => rfl, fun _ _ => rfl, fun _ _ h => h, le_rfl⟩
  · refine respects_updateLedger fun l l' h => ?_
    unfold indexOutboxRow at h
    simp only [bind_eq_ok, pure_eq_ok] at h
    obtain ⟨n, -, rfl⟩ := h
    exact ⟨fun _ _ => rfl, fun _ _ => rfl, fun _ _ => rfl, fun _ _ h => h, le_rfl⟩

theorem respects_writeOutboxRows :
    ∀ rs : List MutationOutboxRecord, Txn.Respects (Attempts b) (writeOutboxRows rs)
  | [] => Txn.respects_pure ()
  | r :: rs => Txn.respects_bind (respects_writeOutboxRow r) fun _ => respects_writeOutboxRows rs

theorem respects_writeOutbox (committed : CommittedVersion) (result : Option ResultMsgpack) :
    Txn.Respects (Attempts b) (writeOutbox b committed result) := by
  refine Txn.respects_read_bind fun entries => ?_
  refine Txn.respects_read_bind fun sequence => ?_
  split
  · refine Txn.respects_bind ?_ fun _ => respects_writeOutboxRows _
    refine respects_updateLedger fun l l' h => ?_
    have hframe := markIndexReady_frame h
    refine ⟨fun _ _ => ?_, fun _ _ => ?_, fun _ _ => ?_, fun _ _ hrow => ?_, ?_⟩
    · rw [hframe]
    · rw [hframe]
    · rw [hframe]
    · rw [hframe]
      exact hrow
    · rw [hframe]
  · exact respects_writeOutboxRows _

/-- **A failed finish** leaves the write as it was, or it was the finish of the admitted batch and
only rows of that batch are left behind. -/
theorem finishInner_failed {result : Option ResultMsgpack} {committedAtMs : ℕ} {source : Option ℕ}
    {replay : Option ReplayReceipt} {w' : Write}
    (h : finishInner b result committedAtMs source replay w = .error e w') :
    w' = w ∨ (∃ o, w.admission = .applying b o) ∧ Attempts b w w' := by
  rcases Txn.bind_error.mp h with h | ⟨_, w₁, h1, h⟩
  · exact Or.inl (Txn.read_error.mp h).2.symm
  obtain ⟨-, rfl⟩ := Write.verifyScope_ok.mp h1
  rcases Txn.bind_error.mp h with h | ⟨_, w₂, h2, h⟩
  · exact Or.inl (Txn.read_error.mp h).2.symm
  obtain ⟨hvalid, rfl⟩ := Txn.read_ok.mp h2
  obtain ⟨o, hadm, -⟩ := validateFinish_ok hvalid
  refine Or.inr ⟨⟨o, hadm⟩, ?_⟩
  refine Txn.failsIn_read_bind (fun committed => ?_) w e w' h
  refine Txn.failsIn_bind (respects_persistRecord rfl) fun _ => ?_
  refine Txn.failsIn_bind (respects_persistReplayRow replay) fun _ => ?_
  refine Txn.failsIn_bind respects_writeClass fun _ => ?_
  refine Txn.failsIn_bind (respects_updateLedger fun _ _ => touches_writeVersion) fun _ => ?_
  refine Txn.failsIn_bind ?_ fun _ => ?_
  · exact respects_modifyLedger fun _ =>
      ⟨fun _ _ => rfl, fun _ _ => rfl, fun _ _ => rfl, fun _ _ h => h, le_rfl⟩
  refine Txn.failsIn_bind (respects_writeOutbox _ _) fun _ => ?_
  exact Txn.failsIn_bind_total (Txn.failsIn_update _) fun _ => Txn.total_pure _

theorem exec_finish_failed {c : WriteCall} {f : Committed} {w' : Write} (hc : finishedBy c = some f)
    (h : c.exec w = .error e w') :
    w' = w ∨ (∃ o, w.admission = .applying f.batch o) ∧ Attempts f.batch w w' := by
  have hlast : ∀ {x : Txn Write MutationBatchRecord}, (do let _ ← x) w = .error e w' →
      x w = .error e w' := by
    intro x hx
    rcases Txn.bind_error.mp hx with hx | ⟨_, _, -, hx⟩
    · exact hx
    · exact absurd hx (Txn.total_pure _ _ _ _)
  cases c with
  | finish b result committedAtMs source =>
    obtain rfl := Option.some.inj hc
    exact finishInner_failed (hlast h)
  | finishWithReplay b result committedAtMs source replay =>
    obtain rfl := Option.some.inj hc
    have hrest := hlast h
    rcases Txn.bind_error.mp hrest with h | ⟨_, _, h1, hrest⟩
    · exact Or.inl (Txn.read_error.mp h).2.symm
    obtain ⟨-, rfl⟩ := Txn.read_ok.mp h1
    rcases Txn.bind_error.mp hrest with h | ⟨_, _, h2, hrest⟩
    · exact Or.inl (Txn.read_error.mp h).2.symm
    obtain ⟨-, rfl⟩ := Txn.read_ok.mp h2
    exact finishInner_failed hrest
  | _ => cases hc

/-! ### A finish and its receipt -/

section
variable {replay : Option ReplayReceipt} {l' : Ledger}

theorem replayRow_touches (h : ReplayRow b replay l l') : Touches b l l' := by
  unfold ReplayRow at h
  cases replay with
  | some r => exact (keeps_of_record h).touches
  | none =>
    cases he : b.envelope with
    | operation e =>
      simp only [he] at h
      exact (keeps_of_record h).touches
    | maintenance e =>
      simp only [he] at h
      subst h
      refine ⟨fun _ _ => rfl, fun _ _ => rfl, fun k hk => ?_, fun _ _ h => h, le_rfl⟩
      refine Table.get_insert_of_ne _ _ (hk ?_)
      simp [MutationBatch.isMaintenance, he, MutationEnvelope.isMaintenance]

theorem finishes_touches (h : Finishes b record replay l l') : Touches b l l' := by
  obtain ⟨l₁, hrow, hops, -, hmaintenance⟩ := h.keyRows
  have hkey := replayRow_touches hrow
  have hframe := h.frame
  refine ⟨fun id hid => ?_, fun id hid => ?_, fun k hk => ?_, fun k row hk => ?_, ?_⟩
  · rw [hframe]
    exact Table.get_insert_of_ne _ _ hid
  · rw [hframe]
    exact Table.get_insert_of_ne _ _ hid
  · rw [hmaintenance]
    exact hkey.maintenance k hk
  · rw [hops]
    exact hkey.operations k row hk
  · rw [hframe]
    exact Nat.le_succ _

theorem recorded_of_record (h : recordOperation operation nonce recorded id l = .ok l') :
    ∃ row, l'.replayOperations.get operation.idempotencyKey = some row ∧
      row.recorded = recorded ∧ (recorded.batchId = none → row.batchId = id) := by
  rcases recordOperation_cases h with ⟨row, hrow, hsame, rfl⟩ | ⟨-, -, rfl⟩
  · simp only [isSameSagaBatch, Bool.and_eq_true, decide_eq_true_eq] at hsame
    refine ⟨row, hrow, hsame.2, fun hnone => ?_⟩
    simp [hnone] at hsame
  · exact ⟨_, Table.get_insert_self _ _ _, rfl, fun _ => rfl⟩

theorem keyRow_of_replayRow (h : ReplayRow b replay l l') : KeyRow l' ⟨b, replay⟩ := by
  unfold ReplayRow at h
  unfold KeyRow
  cases replay with
  | some r =>
    obtain ⟨row, hrow, hrecorded, hid⟩ := recorded_of_record h
    exact ⟨row, hrow, hid rfl, hrecorded⟩
  | none =>
    cases he : b.envelope with
    | operation e =>
      simp only [he] at h ⊢
      obtain ⟨row, hrow, hrecorded, -⟩ := recorded_of_record h
      exact ⟨row, hrow, hrecorded⟩
    | maintenance e =>
      simp only [he] at h ⊢
      subst h
      exact Table.get_insert_self _ _ _

/-- **A finish leaves the receipt of its batch.** -/
theorem finishes_receipt (h : Finishes b record replay l l') : HasReceipt l' ⟨b, replay⟩ := by
  obtain ⟨l₁, hrow, hops, -, hmaintenance⟩ := h.keyRows
  have hframe := h.frame
  refine ⟨⟨record, ⟨?_, h.committed⟩, h.batch⟩, ?_, ?_⟩
  · rw [hframe]
    exact Table.get_insert_self _ _ _
  · rw [hframe]
    exact Table.get_insert_self _ _ _
  · refine keyRow_of_operations (fun k row hk => ?_) (fun _ _ => by rw [hmaintenance])
      (keyRow_of_replayRow hrow)
    rw [hops]
    exact hk

end

/-! ### The invariant of a session -/

def WindowsAt (pending : List MutationBatch) : AdmissionState → Prop
  | .applying b true => pending = [b]
  | .poisoned => True
  | _ => pending = []

/-- **What holds after every call**: the admission state knows the one pending window and whether a gate
was dropped, and every finished batch has its receipt. -/
structure Windowed (before : Ledger) (s : Session) : Prop where
  windows : WindowsAt s.pending s.write.admission
  dropped : s.dropped = true ↔ s.write.admission = .poisoned
  receipts : ∀ f ∈ s.finished, HasReceipt s.write.ledger f
  version : before.version + s.finishes ≤ s.write.ledger.version
  apart : ∀ b o, s.write.admission = .applying b o → ∀ f ∈ s.finished, Apart b f

section
variable {before : Ledger} {s : Session} {a : AdmissionState}

theorem windowed_opened (owner : OwnedStoreHandle) (l : Ledger) :
    Windowed l (Session.opened owner l) := by
  refine ⟨rfl, ?_, fun f hf => ?_, le_rfl, fun b o h => ?_⟩
  · constructor
    · intro h
      cases h
    · intro h
      cases h
  · cases hf
  · cases h

section
variable (h : Windowed before s)
include h

theorem Windowed.kept (hadm : s.write.admission ≠ .poisoned) : s.dropped = false := by
  cases hdropped : s.dropped with
  | false => rfl
  | true => exact absurd (h.dropped.mp hdropped) hadm

theorem Windowed.admit (hwindows : WindowsAt s.pending a)
    (hlive : s.write.admission ≠ .poisoned) (ha : a ≠ .poisoned)
    (hapart : ∀ b o, a = .applying b o → ∀ f ∈ s.finished, Apart b f) :
    Windowed before { s with write := { s.write with admission := a } } := by
  refine ⟨hwindows, ?_, h.receipts, h.version, hapart⟩
  rw [h.kept hlive]
  exact ⟨fun hfalse => (by cases hfalse), fun hpoisoned => absurd hpoisoned ha⟩

theorem apart_of_free (hid : s.write.ledger.batches.get b.batchId = none)
    (hkey : b.isMaintenance = true → s.write.ledger.maintenance.get b.idempotencyKey = none)
    {f : Finish} (hf : f ∈ s.finished) : Apart b f := by
  have hreceipt := h.receipts f hf
  obtain ⟨r, hr, -⟩ := hreceipt.record
  refine ⟨fun heq => ?_, fun hreplay hm hb heq => ?_⟩
  · have hstored := hr.1
    rw [heq, hid] at hstored
    cases hstored
  · have hkeyed := hreceipt.keyed
    unfold KeyRow at hkeyed
    cases he : f.batch.envelope with
    | operation e => simp [MutationBatch.isMaintenance, he, MutationEnvelope.isMaintenance] at hm
    | maintenance e =>
      simp only [hreplay, he] at hkeyed
      rw [heq, hkey hb] at hkeyed
      cases hkeyed

theorem Windowed.apply (hid : s.write.ledger.batches.get b.batchId = none)
    (hkey : b.isMaintenance = true → s.write.ledger.maintenance.get b.idempotencyKey = none)
    (ha : AdmissionState.admitApplyBatch b s.write.admission = .ok a) :
    Windowed before { s with write := { s.write with admission := a } } := by
  obtain rfl := admitApplyBatch_ok ha
  have hwindows := h.windows
  refine h.admit ?_ ?_ (by simp) ?_
  · cases hadm : s.write.admission with
    | applying admitted o => simp [hadm, AdmissionState.admitApplyBatch] at ha
    | poisoned => simp [hadm, AdmissionState.admitApplyBatch] at ha
    | idle => simpa only [hadm, WindowsAt] using hwindows
    | finished f => simpa only [hadm, WindowsAt] using hwindows
    | replayed existing record last => simpa only [hadm, WindowsAt] using hwindows
  · intro hpoisoned
    simp [hpoisoned, AdmissionState.admitApplyBatch] at ha
  · intro b' o hb f hf
    obtain ⟨rfl, -⟩ := AdmissionState.applying.inj hb
    exact apart_of_free h hid hkey hf

theorem Windowed.replay
    (ha : AdmissionState.rememberReplayedBatch b record s.write.admission = .ok a) :
    Windowed before { s with write := { s.write with admission := a } } := by
  obtain ⟨record', last, rfl⟩ := rememberReplayedBatch_ok ha
  have hwindows := h.windows
  refine h.admit ?_ ?_ (by simp) ?_
  · cases hadm : s.write.admission with
    | applying admitted o => simp [hadm, AdmissionState.rememberReplayedBatch] at ha
    | poisoned => simp [hadm, AdmissionState.rememberReplayedBatch] at ha
    | idle => simpa only [hadm, WindowsAt] using hwindows
    | finished f => simpa only [hadm, WindowsAt] using hwindows
    | replayed existing record last => simpa only [hadm, WindowsAt] using hwindows
  · intro hpoisoned
    simp [hpoisoned, AdmissionState.rememberReplayedBatch] at ha
  · intro b' o hb
    cases hb

theorem Windowed.keeps (hk : Keeps s.write.ledger l) :
    Windowed before { s with write := { s.write with ledger := l } } :=
  ⟨h.windows, h.dropped, fun f hf => (h.receipts f hf).keeps hk, by
    simpa only [hk.version] using h.version, h.apart⟩

end

theorem Windowed.attempts {o : Bool} (h : Windowed before s)
    (hadm : s.write.admission = .applying b o) (ha : Attempts b s.write w) :
    Windowed before { s with write := w } := by
  refine ⟨?_, ?_, fun f hf => ?_, h.version.trans ha.ledger.version, fun b' o' hb => ?_⟩
  · simpa only [ha.admission] using h.windows
  · simpa only [ha.admission] using h.dropped
  · exact (h.receipts f hf).touches ha.ledger (h.apart b o hadm f hf)
  · exact h.apart b' o' (ha.admission ▸ hb)

theorem Windowed.finish {o : Bool} {replay : Option ReplayReceipt} (h : Windowed before s)
    (hadm : s.write.admission = .applying b o)
    (hfin : Finishes b record replay s.write.ledger w.ledger) (hw : w.admission = .finished b) :
    Windowed before (s.finish w b replay) := by
  have hwindows := h.windows
  rw [hadm] at hwindows
  refine ⟨?_, ?_, fun f hf => ?_, ?_, fun b' o' hb => ?_⟩
  · simp only [Session.finish, hw, WindowsAt]
    cases o with
    | false => simp only [WindowsAt] at hwindows; simp [hwindows]
    | true => simp only [WindowsAt] at hwindows; simp [hwindows]
  · simp only [Session.finish, hw]
    rw [h.kept (by simp [hadm])]
    exact ⟨fun hfalse => (by cases hfalse), fun hpoisoned => (by cases hpoisoned)⟩
  · rcases List.mem_append.mp hf with hf | hf
    · exact (h.receipts f hf).touches (finishes_touches hfin) (h.apart b o hadm f hf)
    · rw [List.mem_singleton.mp hf]
      exact finishes_receipt hfin
  · have hversion : w.ledger.version = s.write.ledger.version + 1 := by rw [hfin.frame]
    have hbefore := h.version
    simp only [Session.finish]
    omega
  · simp only [Session.finish, hw] at hb
    cases hb

theorem Windowed.drop {g : ℕ} (h : Windowed before s) : Windowed before { s with
      write := { s.write with admission := .poisoned }, gates := g, dropped := true } :=
  ⟨trivial, ⟨fun _ => rfl, fun _ => rfl⟩, h.receipts, h.version, fun _ _ hb => (by cases hb)⟩

end

/-! ### Calls and runs -/

section
variable {before : Ledger} {s : Session} {c : WriteCall}

theorem Windowed.beginInner {g t : Bool} {r : Begin} (h : Windowed before s)
    (hbegin : beginInner b g t s.write = .ok r w) : Windowed before { s with write := w } := by
  obtain ⟨-, ⟨hfree, h1⟩ | ⟨id, -, h1⟩⟩ := beginInner_ok.mp hbegin
  · obtain ⟨hfresh, -, a, ha, rfl⟩ := admitFresh_ok.mp h1
    refine h.apply hfresh.freeId (fun hm => ?_) ha
    unfold KeyFree at hfree
    cases he : b.envelope with
    | operation e => simp [MutationBatch.isMaintenance, he, MutationEnvelope.isMaintenance] at hm
    | maintenance e => simpa only [he] using hfree
  · obtain ⟨record, -, -, -, a, ha, rfl⟩ := replayCommittedBatch_ok.mp h1
    exact h.replay ha

theorem Windowed.beginWithReplayIdentity {r : Begin} (h : Windowed before s)
    (hbegin : beginWithReplayIdentity b operation nonce s.write = .ok r w) :
    Windowed before { s with write := w } := by
  obtain ⟨e, he, -, -, -, ⟨-, h1⟩ | ⟨id, -, h1⟩⟩ := beginWithReplayIdentity_ok hbegin
  · obtain ⟨hfresh, -, a, ha, rfl⟩ := admitFresh_ok.mp h1
    refine h.apply hfresh.freeId (fun hm => ?_) ha
    simp [MutationBatch.isMaintenance, he, MutationEnvelope.isMaintenance] at hm
  · obtain ⟨record, -, -, -, a, ha, rfl⟩ := replayCommittedBatch_ok.mp h1
    exact h.replay ha

theorem Windowed.openOwner {a : AdmissionState} {g : ℕ} (h : Windowed before s)
    (ha : AdmissionState.openOwner b s.write.admission = .ok a) :
    Windowed before { s with
      write := { s.write with admission := a }, gates := g, pending := b :: s.pending } := by
  obtain ⟨hadm, rfl⟩ := openOwner_ok ha
  have hwindows := h.windows
  rw [hadm] at hwindows
  refine ⟨?_, ?_, h.receipts, h.version, fun b' o hb => ?_⟩
  · change b :: s.pending = [b]
    rw [hwindows]
  · change s.dropped = true ↔ _
    rw [h.kept (by simp [hadm])]
    exact ⟨fun hfalse => (by cases hfalse), fun hpoisoned => (by cases hpoisoned)⟩
  · obtain ⟨rfl, -⟩ := AdmissionState.applying.inj hb
    exact h.apart b false hadm

section
variable (h : Windowed before s)
include h

theorem Windowed.purge (hpurge : purgeGeneration s.write = .ok () w) :
    Windowed before { s with write := w, finished := [] } := by
  simp only [purgeGeneration, Txn.bind_ok, Txn.read_ok, Txn.update_ok] at hpurge
  obtain ⟨_, _, ⟨-, rfl⟩, hpurge⟩ := hpurge
  cases hl : purgeScopeLedgerGeneration s.write.owner.identity s.write.ledger with
  | error e => simp [hl, Except.map] at hpurge
  | ok l =>
    simp only [hl, Except.map, Except.ok.injEq] at hpurge
    subst hpurge
    unfold purgeScopeLedgerGeneration at hl
    simp only [bind_eq_ok, pure_eq_ok] at hl
    obtain ⟨_, -, _, -, rfl⟩ := hl
    exact ⟨h.windows, h.dropped, fun f hf => (by cases hf), h.version,
      fun _ _ _ f hf => (by cases hf)⟩

/-- **One successful call** keeps the windows in step with the admission state. -/
theorem windowed_succeeded (hc : c.exec s.write = .ok () w) :
    Windowed before (s.succeeded w c) := by
  cases c with
  | begin b =>
    obtain ⟨_, _, h1, h2⟩ := Txn.bind_ok.mp hc
    obtain ⟨-, rfl⟩ := Txn.pure_ok.mp h2
    exact h.beginInner h1
  | beginTopUp b =>
    obtain ⟨_, _, h1, h2⟩ := Txn.bind_ok.mp hc
    obtain ⟨-, rfl⟩ := Txn.pure_ok.mp h2
    exact h.beginInner h1
  | beginWithReplayIdentity b operation nonce =>
    obtain ⟨_, _, h1, h2⟩ := Txn.bind_ok.mp hc
    obtain ⟨-, rfl⟩ := Txn.pure_ok.mp h2
    exact h.beginWithReplayIdentity h1
  | ownerRows b =>
    simp only [WriteCall.exec, ownerRows, Txn.bind_ok, Txn.read_ok, Write.updateAdmission_ok] at hc
    obtain ⟨_, _, ⟨-, rfl⟩, a, ha, rfl⟩ := hc
    exact h.openOwner ha
  | purgeGeneration => exact h.purge hc
  | finishOwner =>
    simp only [WriteCall.exec, Txn.read_ok] at hc
    obtain ⟨-, rfl⟩ := hc
    exact ⟨h.windows, h.dropped, h.receipts, h.version, h.apart⟩
  | dropOwner =>
    simp only [WriteCall.exec, Write.updateAdmission_ok] at hc
    obtain ⟨a, ha, rfl⟩ := hc
    obtain rfl := Except.ok.inj ha
    exact h.drop
  | finish b result committedAtMs source =>
    obtain ⟨_, _, h1, h2⟩ := Txn.bind_ok.mp hc
    obtain ⟨-, rfl⟩ := Txn.pure_ok.mp h2
    obtain ⟨-, ⟨o, hadm, -⟩, -, -, hfin, -, hdone⟩ := finishInner_ok h1
    exact h.finish hadm hfin hdone
  | finishWithReplay b result committedAtMs source replay =>
    obtain ⟨_, _, h1, h2⟩ := Txn.bind_ok.mp hc
    obtain ⟨-, rfl⟩ := Txn.pure_ok.mp h2
    obtain ⟨-, ⟨o, hadm, -⟩, -, -, hfin, -, hdone⟩ := finishInner_ok (finishWithReplay_ok h1)
    exact h.finish hadm hfin hdone
  | recordReplay r =>
    obtain ⟨id, l, -, hrec, rfl⟩ := recordReplayIn_ok hc
    exact h.keeps (keeps_of_record hrec)
  | finalizeReplayReceipt r =>
    simp only [WriteCall.exec, finalizeReplayReceiptIn, Txn.bind_ok, Write.readLedger_ok,
      Write.modifyLedger_ok] at hc
    obtain ⟨_, _, ⟨-, rfl⟩, rfl⟩ := hc
    exact h.keeps (keeps_consumeNonce _ _ _)
  | ack lease nowMs =>
    simp only [WriteCall.exec] at hc
    obtain ⟨a, l, hf, rfl⟩ := deliverIn_ok hc
    exact h.keeps (keeps_of_core (core_ack hf))
  | reject lease nowMs =>
    simp only [WriteCall.exec] at hc
    obtain ⟨a, l, hf, rfl⟩ := deliverIn_ok hc
    cases hrej : reject s.write.owner.identity lease nowMs s.write.ledger with
    | error e => simp [hrej, Except.map] at hf
    | ok l₁ =>
      simp only [hrej] at hf
      obtain ⟨-, rfl⟩ := hf
      exact h.keeps (keeps_of_core (core_of_frame (frame_reject hrej)))
  | supersede consumer expected nowMs =>
    simp only [WriteCall.exec] at hc
    obtain ⟨a, l, hf, rfl⟩ := deliverIn_ok hc
    exact h.keeps (keeps_of_core (core_supersede hf))

/-- **One failed call** keeps them in step, too. -/
theorem windowed_failed (hc : c.exec s.write = .error e w) : Windowed before (s.failed w c) := by
  cases hfin : finishedBy c with
  | some f =>
    have hfailed : s.failed w c = { s with write := w } := by
      cases c <;> first | rfl | cases hfin
    rw [hfailed]
    rcases exec_finish_failed hfin hc with rfl | ⟨⟨o, hadm⟩, hattempts⟩
    · exact h
    · exact h.attempts hadm hattempts
  | none =>
    obtain rfl : s.write = w := failsIn_exec hfin s.write e w hc
    cases c with
    | finishOwner => exact h.drop
    | _ => exact h

theorem windowed_call (c : WriteCall) : Windowed before (s.call c) := by
  unfold Session.call
  split_ifs with hgate
  · exact h
  · cases hc : c.exec s.write with
    | ok u w => exact windowed_succeeded h hc
    | error e w => exact windowed_failed h hc

end

/-- **Every session** keeps its windows in step with its admission state. -/
theorem windowed_session (owner : OwnedStoreHandle) (l : Ledger) (calls : List WriteCall) :
    Windowed l (session owner l calls) := by
  have hcall : ∀ s c, Windowed l s → Windowed l (Session.call s c) := fun _ c h => windowed_call h c
  exact run_invariant hcall calls _ (windowed_opened owner l)

end

/-! ### Ends -/

/-- No owner-row window is open and no gate was dropped, as the admission state sees it. -/
def Settled : AdmissionState → Prop
  | .poisoned => False
  | .applying _ owner => owner = false
  | _ => True

section
variable {before : Ledger} {s : Session}

theorem Windowed.receipted (h : Windowed before s) (hs : Settled s.write.admission)
    (hk : Keeps s.write.ledger l) : Receipted before s l := by
  refine ⟨?_, h.kept fun hpoisoned => ?_, fun f hf => (h.receipts f hf).keeps hk, ?_⟩
  · have hwindows := h.windows
    cases hadm : s.write.admission with
    | poisoned => simp [hadm, Settled] at hs
    | applying b o =>
      obtain rfl : o = false := by simpa only [hadm, Settled] using hs
      simpa only [hadm, WindowsAt] using hwindows
    | idle => simpa only [hadm, WindowsAt] using hwindows
    | finished f => simpa only [hadm, WindowsAt] using hwindows
    | replayed existing record last => simpa only [hadm, WindowsAt] using hwindows
  · simp [hpoisoned, Settled] at hs
  · rw [hk.version]
    exact h.version

theorem Windowed.settled (h : Windowed before s) (hr : Receipted before s l) :
    Settled s.write.admission := by
  have hwindows := h.windows
  cases hadm : s.write.admission with
  | poisoned =>
    have hdropped := h.dropped.mpr hadm
    rw [hr.kept] at hdropped
    cases hdropped
  | applying b o =>
    cases o with
    | false => rfl
    | true =>
      have hpending : s.pending = [b] := by simpa only [hadm, WindowsAt] using hwindows
      rw [hr.closed] at hpending
      cases hpending
  | idle => trivial
  | finished f => trivial
  | replayed existing record last => trivial

theorem settled_of_validateCommit {a : AdmissionState} (h : a.validateCommit b = .ok ()) :
    Settled a := by
  cases a with
  | applying admitted o => simp [AdmissionState.validateCommit] at h
  | poisoned => simp [AdmissionState.validateCommit] at h
  | idle => trivial
  | finished f => trivial
  | replayed existing record last => trivial

end

/-- **No owner row without a receipt, exactly when the end of the write asks the admission state**: if
and only if it does not end with `commitReplayReceipt` in a poisoned write or inside an open owner-row
window. -/
theorem owner_rows_receipted (owner : OwnedStoreHandle) (l : Ledger) (calls : List WriteCall)
    (finish : WriteEnd) :
    (∀ w, finish.exec (session owner l calls).write = .ok true w →
        Receipted l (session owner l calls) w.ledger) ↔
      (finish = .commitReplayReceipt → Settled (session owner l calls).write.admission) := by
  have hsession := windowed_session owner l calls
  constructor
  · rintro hcommits rfl
    exact hsession.settled (hcommits _ rfl)
  · intro hsettled w hw
    cases finish with
    | abort =>
      obtain ⟨hfalse, -⟩ := Txn.pure_ok.mp hw
      cases hfalse
    | commitReplayReceipt =>
      obtain ⟨-, rfl⟩ := Txn.pure_ok.mp hw
      exact hsession.receipted (hsettled rfl) (Keeps.refl _)
    | commit b =>
      obtain ⟨_, w₁, hseal, hw⟩ := Txn.bind_ok.mp hw
      obtain ⟨-, rfl⟩ := Txn.pure_ok.mp hw
      obtain ⟨hvalid, hledger⟩ := sealWrite_ok hseal
      refine hsession.receipted (settled_of_validateCommit hvalid) ?_
      rcases hledger with rfl | ⟨e, record, last, -, -, -, rfl⟩
      · exact Keeps.refl _
      · exact keeps_consumeNonce _ _ _

/-- A batch is admitted, its owner-row window is opened and closed, and it is never finished. -/
def unfinishedCalls : List WriteCall :=
  [.begin (sampleOperation "op" "n1" 0 0 0 []), .ownerRows (sampleOperation "op" "n1" 0 0 0 []),
    .finishOwner]

/-- `commitReplayReceipt` commits that write: its owner rows are durable, and there is neither a
record nor a version bump for them. -/
theorem owner_rows_committed_without_receipt :
    (session sampleOwner (Ledger.bound 0) unfinishedCalls).pending =
        [sampleOperation "op" "n1" 0 0 0 []] ∧
      (session sampleOwner (Ledger.bound 0) unfinishedCalls).gates = 0 ∧
      ∃ w, WriteEnd.commitReplayReceipt.exec
          (session sampleOwner (Ledger.bound 0) unfinishedCalls).write = .ok true w ∧
        w.ledger.batches.get "op" = none ∧ w.ledger.version = 0 ∧
        ¬ Receipted (Ledger.bound 0) (session sampleOwner (Ledger.bound 0) unfinishedCalls)
          w.ledger := by
  have hpending : (session sampleOwner (Ledger.bound 0) unfinishedCalls).pending =
      [sampleOperation "op" "n1" 0 0 0 []] := by decide +kernel
  refine ⟨hpending, by decide +kernel, _, rfl, by decide +kernel, by decide +kernel, fun h => ?_⟩
  have hclosed := h.closed
  rw [hpending] at hclosed
  cases hclosed

end Medulla.Mutation.OwnerWindow
