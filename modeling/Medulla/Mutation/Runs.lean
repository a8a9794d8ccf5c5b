import Medulla.Mutation.Kernel
import Medulla.Mutation.Transitions
import Medulla.Outbox.Frames

/-! # Runs of the kernel as moves of one ledger

Every kernel call is a sequence of moves of its scope's ledger (`step_moves`). -/

namespace Medulla.Mutation.Runs

open Library.Checked Library.Transaction Types.Batch Types.Records State Replay
open Commit Saga Kernel Transitions Outbox.Index Outbox.Rows
open Outbox.Claim Outbox.Cursor Outbox.Rewind Outbox.Frames
open Library.OrderedTable (Table)

variable {b : MutationBatch} {r : MutationBatchRecord} {u : Unit} {α : Type}

/-! ### Moves -/

structure Committed where
  batch : MutationBatch
  saga : Bool
  deriving DecidableEq

/-- One change of the ledger of a scope, with the batches it commits. -/
inductive Move (identity : MutationScopeIdentity) (purges receipts : Bool) :
    Ledger → List Committed → Ledger → Prop
  | deliver {l l' : Ledger} (unfenced : ensureNotGraftFenced l = .ok ())
      (same : core l' = core l) : Move identity purges receipts l [] l'
  | backfill {l l' : Ledger} {outcome : OutboxBackfillOutcome}
      (unfenced : ensureNotGraftFenced l = .ok ())
      (page : backfillPage identity l = .ok (outcome, l')) : Move identity purges receipts l [] l'
  | reopen {l : Ledger} (unfenced : ensureNotGraftFenced l = .ok ()) (state : IndexBackfillState)
      (closed : state = ⟨none, false⟩) :
      Move identity purges receipts l [] { l with backfill := some state }
  | nonce {l : Ledger} (nonce : Digest256) (key : String)
      (unused : l.replayNonces.get nonce = none) :
      Move identity purges receipts l [] (consumeNonce nonce key l)
  | receipt {l l' : Ledger} (operation : OperationReplayIdentity) (nonce : Digest256)
      (receipt : MutationReceipt) (id : String) (allowed : receipts = true)
      (recorded : recordOperation operation nonce (.receipt receipt) id l = .ok l') :
      Move identity purges receipts l [] l'
  | purge {l : Ledger} (allowed : purges = true) (unfenced : ensureNotGraftFenced l = .ok ()) :
      Move identity purges receipts l [] (Ledger.bound l.version)
  | prepare {l : Ledger} (b : MutationBatch) (e : OperationEnvelope) (preparedAtMs : ℕ)
      (payload : Option (List UInt8)) (envelope : b.envelope = .operation e)
      (scope : b.identity = identity) (fresh : Fresh b l)
      (free : resolveReplayIn l e.operationIdentity e.nonceReplayDigest = .fresh)
      (valid : (⟨b, .prepared, .none, none, preparedAtMs⟩ :
        MutationBatchRecord).validateWriteBudget = .ok ()) :
      Move identity purges receipts l [] (preparedLedger b e preparedAtMs payload l)
  | dropPayload {l : Ledger} (id : String) : Move identity purges receipts l [] (removePrivate id l)
  | finish {l l' : Ledger} (b : MutationBatch) (record : MutationBatchRecord)
      (replay : Option ReplayReceipt) (allowed : replay.isSome = true → receipts = true)
      (scope : b.identity = identity) (fresh : Fresh b l)
      (finishes : Finishes b record replay l l') :
      Move identity purges receipts l [⟨b, false⟩] l'
  | sagaCommit {l l' : Ledger} (b : MutationBatch) (record prior : MutationBatchRecord)
      (scope : b.identity = identity) (stored : l.batches.get b.batchId = some prior)
      (prepared : prior.status = .prepared) (expected : checkExpectation b l = .ok ())
      (finishes : Finishes b record none l l') :
      Move identity purges receipts l [⟨b, true⟩] l'

inductive Moves (identity : MutationScopeIdentity) (purges receipts : Bool) :
    Ledger → List Committed → Ledger → Prop
  | refl (l : Ledger) : Moves identity purges receipts l [] l
  | tail {l l' l'' : Ledger} {es fs : List Committed} (init : Moves identity purges receipts l es l')
      (last : Move identity purges receipts l' fs l'') :
      Moves identity purges receipts l (es ++ fs) l''

section
variable {identity : MutationScopeIdentity} {purges receipts : Bool} {l l' l'' : Ledger}
  {es fs : List Committed}

theorem Moves.single (h : Move identity purges receipts l es l') :
    Moves identity purges receipts l es l' := by
  simpa using Moves.tail (Moves.refl l) h

theorem Moves.trans (h : Moves identity purges receipts l es l')
    (h' : Moves identity purges receipts l' fs l'') :
    Moves identity purges receipts l (es ++ fs) l'' := by
  induction h' with
  | refl => simpa using h
  | tail _ last ih => simpa using Moves.tail ih last

/-- **An invariant of every move holds after every sequence of moves**; `P` may read the log. -/
theorem Moves.invariant {P : List Committed → Ledger → Prop}
    (hmove : ∀ {l l' : Ledger} {es fs : List Committed}, Move identity purges receipts l fs l' →
      P es l → P (es ++ fs) l')
    (h : Moves identity purges receipts l fs l') (h0 : P es l) : P (es ++ fs) l' := by
  induction h with
  | refl => simpa using h0
  | tail _ last ih => simpa using hmove last ih

end

/-! ### Committed records -/

def IsCommitted (l : Ledger) (id : String) (r : MutationBatchRecord) : Prop :=
  l.batches.get id = some r ∧ r.status = .committed

section
variable {identity : MutationScopeIdentity} {receipts : Bool} {l l' : Ledger}
  {es : List Committed}

theorem IsCommitted.insert_of_ne {record : MutationBatchRecord} {id : String}
    (h : IsCommitted l id r) (hb : l'.batches = l.batches.insert b.batchId record)
    (hne : id ≠ b.batchId) : IsCommitted l' id r := by
  refine ⟨?_, h.2⟩
  rw [hb, Table.get_insert_of_ne _ _ hne]
  exact h.1

/-- **A committed record is never replaced**, as long as the generation is not purged. -/
theorem Move.keeps_committed {id : String} (m : Move identity false receipts l es l')
    (h : IsCommitted l id r) : IsCommitted l' id r := by
  cases m with
  | deliver _ same => exact ⟨by rw [eq_of_core same]; exact h.1, h.2⟩
  | backfill _ page => exact ⟨by rw [backfillPage_frame page]; exact h.1, h.2⟩
  | reopen _ state => exact h
  | nonce nonce key _ => exact h
  | receipt operation nonce receipt id _ recorded =>
    exact ⟨by rw [recordOperation_frame recorded]; exact h.1, h.2⟩
  | purge allowed _ => cases allowed
  | prepare b e preparedAtMs payload _ _ fresh _ _ =>
    refine h.insert_of_ne rfl ?_
    rintro rfl
    rw [IsCommitted, fresh.freeId] at h
    cases h.1
  | dropPayload id => exact h
  | finish b record replay _ _ fresh finishes =>
    refine h.insert_of_ne (by rw [finishes.frame]) ?_
    rintro rfl
    rw [IsCommitted, fresh.freeId] at h
    cases h.1
  | sagaCommit b record prior _ stored prepared _ finishes =>
    refine h.insert_of_ne (by rw [finishes.frame]) ?_
    rintro rfl
    obtain ⟨h1, h2⟩ := h
    rw [stored] at h1
    rw [← Option.some.inj h1, prepared] at h2
    cases h2

theorem Move.commits {c : Committed} {purges : Bool} (m : Move identity purges receipts l es l')
    (hc : c ∈ es) :
    (∀ r, ¬ IsCommitted l c.batch.batchId r) ∧ ∃ r, IsCommitted l' c.batch.batchId r := by
  cases m with
  | finish b record replay _ _ fresh finishes =>
    obtain rfl := List.mem_singleton.mp hc
    refine ⟨fun r hr => ?_, record, ?_, finishes.committed⟩
    · rw [IsCommitted, fresh.freeId] at hr
      cases hr.1
    · rw [finishes.frame]
      exact Table.get_insert_self _ _ _
  | sagaCommit b record prior _ stored prepared _ finishes =>
    obtain rfl := List.mem_singleton.mp hc
    refine ⟨fun r hr => ?_, record, ?_, finishes.committed⟩
    · obtain ⟨h1, h2⟩ := hr
      rw [stored] at h1
      rw [← Option.some.inj h1, prepared] at h2
      cases h2
    · rw [finishes.frame]
      exact Table.get_insert_self _ _ _
  | deliver _ _ => cases hc
  | backfill _ _ => cases hc
  | reopen _ _ => cases hc
  | nonce _ _ _ => cases hc
  | receipt _ _ _ _ _ _ => cases hc
  | purge _ _ => cases hc
  | prepare _ _ _ _ _ _ _ _ _ => cases hc
  | dropPayload _ => cases hc

structure DistinctIds (es : List Committed) (l : Ledger) : Prop where
  stored : ∀ c ∈ es, ∃ r, IsCommitted l c.batch.batchId r
  distinct : (es.map fun c => c.batch.batchId).Nodup

theorem distinctIds_move {fs : List Committed} (m : Move identity false receipts l fs l')
    (h : DistinctIds es l) : DistinctIds (es ++ fs) l' := by
  refine ⟨fun c hc => ?_, ?_⟩
  · rcases List.mem_append.mp hc with hc | hc
    · obtain ⟨r, hr⟩ := h.stored c hc
      exact ⟨r, m.keeps_committed hr⟩
    · exact (m.commits hc).2
  · have hfs : (fs.map fun c => c.batch.batchId).Nodup := by
      cases m <;> simp
    rw [List.map_append, List.nodup_append]
    refine ⟨h.distinct, hfs, ?_⟩
    intro x hx y hy hxy
    obtain ⟨c, hc, rfl⟩ := List.mem_map.mp hx
    obtain ⟨d, hd, rfl⟩ := List.mem_map.mp hy
    obtain ⟨r, hr⟩ := h.stored c hc
    exact (m.commits hd).1 r (hxy ▸ hr)

end

/-! ### Calls on a write -/

def finishedBy : WriteCall → Option Committed
  | .finish b _ _ _ => some ⟨b, false⟩
  | .finishWithReplay b _ _ _ _ => some ⟨b, false⟩
  | _ => none

def callPurges : WriteCall → Bool
  | .purgeGeneration => true
  | _ => false

def callReceipts : WriteCall → Bool
  | .finishWithReplay _ _ _ _ _ | .recordReplay _ => true
  | _ => false

/-- An admitted batch is still fresh against the open ledger. -/
def Guarded (w : Write) : Prop := ∀ b owner, w.admission = .applying b owner → Fresh b w.ledger

theorem fresh_of_core {l l' : Ledger} (h : Fresh b l) (hcore : core l' = core l) : Fresh b l' := by
  rw [eq_of_core hcore]
  exact h.congr rfl rfl rfl

theorem rememberReplayedBatch_ok {s a : AdmissionState}
    (h : AdmissionState.rememberReplayedBatch b r s = .ok a) :
    ∃ record last, a = .replayed b record last := by
  cases s with
  | idle => exact ⟨r, none, (Except.ok.inj h).symm⟩
  | finished f => exact ⟨r, some f, (Except.ok.inj h).symm⟩
  | applying admitted owner => simp [AdmissionState.rememberReplayedBatch] at h
  | poisoned => simp [AdmissionState.rememberReplayedBatch] at h
  | replayed existing record last =>
    simp only [AdmissionState.rememberReplayedBatch] at h
    split_ifs at h with h1 h2
    · exact ⟨record, last, by rw [← h1]; exact (Except.ok.inj h).symm⟩
    · exact ⟨r, last, (Except.ok.inj h).symm⟩

theorem openOwner_ok {s a : AdmissionState} (h : AdmissionState.openOwner b s = .ok a) :
    s = .applying b false ∧ a = .applying b true := by
  cases s with
  | applying admitted owner =>
    simp only [AdmissionState.openOwner] at h
    split_ifs at h with h1
    obtain ⟨rfl, rfl⟩ := h1
    exact ⟨rfl, (Except.ok.inj h).symm⟩
  | idle => simp [AdmissionState.openOwner] at h
  | finished f => simp [AdmissionState.openOwner] at h
  | replayed existing record last => simp [AdmissionState.openOwner] at h
  | poisoned => simp [AdmissionState.openOwner] at h

theorem guarded_of_admits {w w' : Write} (h : Admits b w w') :
    Guarded w' ∧ w'.ledger = w.ledger ∧ w'.owner = w.owner := by
  cases h with
  | apply fresh _ eq =>
    subst eq
    refine ⟨?_, rfl, rfl⟩
    intro b' owner hb
    obtain ⟨rfl, -⟩ := AdmissionState.applying.inj hb
    exact fresh
  | replay record a _ remembered eq =>
    subst eq
    refine ⟨?_, rfl, rfl⟩
    intro b' owner hb
    obtain ⟨_, _, ha⟩ := rememberReplayedBatch_ok remembered
    rw [ha] at hb
    cases hb

/-- What one call does to a write: its ledger moves, and an admitted batch stays fresh. -/
structure Advances (owner : OwnedStoreHandle) (purges receipts : Bool) (es : List Committed)
    (w w' : Write) : Prop where
  guarded : Guarded w'
  moves : Moves owner.identity purges receipts w.ledger es w'.ledger
  owner : w'.owner = w.owner

section
variable {owner : OwnedStoreHandle} {purges receipts : Bool} {w w' : Write}

theorem advances_of_admits (h : Admits b w w') : Advances owner purges receipts [] w w' := by
  obtain ⟨hguard, hledger, howner⟩ := guarded_of_admits h
  exact ⟨hguard, by rw [hledger]; exact .refl _, howner⟩

theorem advances_of_admission {a : AdmissionState} (hguard : Guarded w)
    (ha : ∀ b o, a = .applying b o → ∃ o', w.admission = .applying b o') :
    Advances owner purges receipts [] w { w with admission := a } := by
  refine ⟨?_, .refl _, rfl⟩
  intro b o hb
  obtain ⟨o', ho'⟩ := ha b o hb
  exact hguard b o' ho'

theorem advances_of_finish {result : Option ResultMsgpack} {committedAtMs : ℕ} {source : Option ℕ}
    {replay : Option ReplayReceipt} {record : MutationBatchRecord} (hw : w.owner = owner)
    (hguard : Guarded w) (hreplay : replay.isSome = true → receipts = true)
    (h : finishInner b result committedAtMs source replay w = .ok record w') :
    Advances owner purges receipts [⟨b, false⟩] w w' := by
  obtain ⟨hscope, ⟨o, hadm, -⟩, -, -, hfin, howner, hdone⟩ := finishInner_ok h
  refine ⟨?_, .single (.finish b record replay hreplay (hw ▸ hscope) (hguard b o hadm) hfin), howner⟩
  intro b' o' hb'
  rw [hdone] at hb'
  cases hb'

theorem advances_of_receipt {operation : OperationReplayIdentity} {nonce : Digest256}
    {receipt : MutationReceipt} (hguard : Guarded w) (hallowed : receipts = true)
    (h : recordReplayIn operation nonce receipt w = .ok u w') :
    Advances owner purges receipts [] w w' := by
  obtain ⟨id, l, -, hrec, rfl⟩ := recordReplayIn_ok h
  refine ⟨?_, .single (.receipt operation nonce receipt id hallowed hrec), rfl⟩
  intro b o hb
  have hframe := recordOperation_frame hrec
  exact (hguard b o hb).congr (by rw [hframe]) (by rw [hframe]) (by rw [hframe])

section
variable {f : MutationScopeIdentity → Ledger → Except String (α × Ledger)}

theorem deliverIn_ok (h : deliverIn f w = .ok u w') :
    ∃ a l', f w.owner.identity w.ledger = .ok (a, l') ∧ w' = { w with ledger := l' } := by
  unfold deliverIn at h
  simp only [Txn.bind_ok, Txn.read_ok, Txn.update_ok] at h
  obtain ⟨_, _, ⟨-, rfl⟩, h⟩ := h
  cases hr : f w.owner.identity w.ledger with
  | error e => simp [hr, Except.map] at h
  | ok r =>
    simp only [hr, Except.map, Except.ok.injEq] at h
    exact ⟨r.1, r.2, rfl, h.symm⟩

theorem advances_of_deliverIn
    (hguard : Guarded w) (hf : ∀ {a l'}, f w.owner.identity w.ledger = .ok (a, l') →
      ensureNotGraftFenced w.ledger = .ok () ∧ core l' = core w.ledger)
    (h : deliverIn f w = .ok u w') : Advances owner purges receipts [] w w' := by
  obtain ⟨a, l', hr, rfl⟩ := deliverIn_ok h
  obtain ⟨hun, hcore⟩ := hf hr
  refine ⟨?_, .single (.deliver hun hcore), rfl⟩
  intro b o hb
  exact fresh_of_core (hguard b o hb) hcore

end

/-- **One call of a write** moves the ledger and keeps an admitted batch fresh. -/
theorem exec_advances {c : WriteCall} (hw : w.owner = owner) (hguard : Guarded w)
    (hp : callPurges c = true → purges = true) (hr : callReceipts c = true → receipts = true)
    (h : c.exec w = .ok u w') : Advances owner purges receipts (finishedBy c).toList w w' := by
  cases c with
  | begin b =>
    obtain ⟨_, _, h1, h⟩ := Txn.bind_ok.mp h
    obtain ⟨-, rfl⟩ := Txn.pure_ok.mp h
    exact advances_of_admits (admits_of_beginInner h1)
  | beginTopUp b =>
    obtain ⟨_, _, h1, h⟩ := Txn.bind_ok.mp h
    obtain ⟨-, rfl⟩ := Txn.pure_ok.mp h
    exact advances_of_admits (admits_of_beginInner h1)
  | beginWithReplayIdentity b operation nonce =>
    obtain ⟨_, _, h1, h⟩ := Txn.bind_ok.mp h
    obtain ⟨-, rfl⟩ := Txn.pure_ok.mp h
    exact advances_of_admits (admits_of_beginWithReplayIdentity h1)
  | ownerRows b =>
    simp only [WriteCall.exec, ownerRows, Txn.bind_ok, Txn.read_ok, Write.updateAdmission_ok] at h
    obtain ⟨_, _, ⟨-, rfl⟩, a, ha, rfl⟩ := h
    refine advances_of_admission hguard fun b' o hb => ?_
    obtain ⟨hadm, rfl⟩ := openOwner_ok ha
    obtain ⟨rfl, -⟩ := AdmissionState.applying.inj hb
    exact ⟨false, hadm⟩
  | purgeGeneration =>
    simp only [WriteCall.exec, purgeGeneration, Txn.bind_ok, Txn.read_ok, Txn.update_ok] at h
    obtain ⟨_, _, ⟨-, rfl⟩, h⟩ := h
    cases hpurge : purgeScopeLedgerGeneration w.owner.identity w.ledger with
    | error e => simp [hpurge, Except.map] at h
    | ok l =>
      simp only [hpurge, Except.map, Except.ok.injEq] at h
      subst h
      unfold purgeScopeLedgerGeneration at hpurge
      simp only [bind_eq_ok, pure_eq_ok] at hpurge
      obtain ⟨_, hun, _, -, rfl⟩ := hpurge
      refine ⟨?_, .single (.purge (hp rfl) hun), rfl⟩
      intro b o hb
      exact (hguard b o hb).purged
  | finishOwner =>
    simp only [WriteCall.exec, Txn.read_ok] at h
    obtain ⟨-, rfl⟩ := h
    exact ⟨hguard, .refl _, rfl⟩
  | dropOwner =>
    simp only [WriteCall.exec, Write.updateAdmission_ok] at h
    obtain ⟨a, ha, rfl⟩ := h
    refine advances_of_admission hguard fun b o hb => ?_
    rw [← Except.ok.inj ha] at hb
    cases hb
  | finish b result committedAtMs source =>
    obtain ⟨_, _, h1, h⟩ := Txn.bind_ok.mp h
    obtain ⟨-, rfl⟩ := Txn.pure_ok.mp h
    exact advances_of_finish hw hguard (by simp) h1
  | finishWithReplay b result committedAtMs source replay =>
    obtain ⟨_, _, h1, h⟩ := Txn.bind_ok.mp h
    obtain ⟨-, rfl⟩ := Txn.pure_ok.mp h
    exact advances_of_finish hw hguard (fun _ => hr rfl) (finishWithReplay_ok h1)
  | recordReplay r => exact advances_of_receipt hguard (hr rfl) h
  | finalizeReplayReceipt r =>
    simp only [WriteCall.exec, finalizeReplayReceiptIn, Txn.bind_ok, Write.readLedger_ok,
      Write.modifyLedger_ok] at h
    obtain ⟨_, _, ⟨hval, rfl⟩, rfl⟩ := h
    refine ⟨?_, .single (.nonce r.nonce r.operation.idempotencyKey ?_), rfl⟩
    · intro b o hb
      exact (hguard b o hb).congr rfl rfl rfl
    · unfold validateReceiptFinalization at hval
      simp only [bind_eq_ok, require_eq_ok] at hval
      obtain ⟨_, -, _, -, _, -, _, -, _, -, hnonce⟩ := hval
      exact hnonce
  | ack lease nowMs =>
    simp only [WriteCall.exec] at h
    exact advances_of_deliverIn hguard (fun hf => ⟨unfenced_ack hf, core_ack hf⟩) h
  | reject lease nowMs =>
    simp only [WriteCall.exec] at h
    refine advances_of_deliverIn hguard (fun {a l'} hf => ?_) h
    cases hrej : reject w.owner.identity lease nowMs w.ledger with
    | error e => simp [hrej, Except.map] at hf
    | ok l₁ =>
      simp only [hrej] at hf
      obtain ⟨-, rfl⟩ := hf
      exact ⟨unfenced_reject hrej, core_of_frame (frame_reject hrej)⟩
  | supersede consumer expected nowMs =>
    simp only [WriteCall.exec] at h
    exact advances_of_deliverIn hguard (fun hf => ⟨unfenced_supersede hf, core_supersede hf⟩) h

def finishedIn (calls : List WriteCall) : List Committed := calls.filterMap finishedBy

theorem execCalls_advances :
    ∀ {calls : List WriteCall} {w : Write} {u : Unit}, w.owner = owner → Guarded w →
      (calls.any callPurges = true → purges = true) →
      (calls.any callReceipts = true → receipts = true) →
      execCalls calls w = .ok u w' → Advances owner purges receipts (finishedIn calls) w w'
  | [], w, _, _, hguard, _, _, h => by
    obtain ⟨-, rfl⟩ := Txn.pure_ok.mp h
    exact ⟨hguard, .refl _, rfl⟩
  | c :: cs, w, _, hw, hguard, hp, hr, h => by
    obtain ⟨_, w₁, h1, h2⟩ := Txn.bind_ok.mp h
    have hc : Advances owner purges receipts (finishedBy c).toList w w₁ :=
      exec_advances hw hguard (fun hc => hp (by simp [hc])) (fun hc => hr (by simp [hc])) h1
    have hcs : Advances owner purges receipts (finishedIn cs) w₁ w' :=
      execCalls_advances (hc.owner.trans hw) hc.guarded
        (fun h => hp (by simp only [List.any_cons, h, Bool.or_true]))
        (fun h => hr (by simp only [List.any_cons, h, Bool.or_true])) h2
    refine ⟨hcs.guarded, ?_, hcs.owner.trans hc.owner⟩
    have hlog : finishedIn (c :: cs) = (finishedBy c).toList ++ finishedIn cs := by
      unfold finishedIn
      cases hf : finishedBy c <;> simp [hf]
    rw [hlog]
    exact hc.moves.trans hcs.moves

theorem guarded_opened (l : Ledger) : Guarded (Write.opened owner l) := by
  intro b o h
  cases h

theorem end_moves {finish : WriteEnd} {commits : Bool} (h : finish.exec w = .ok commits w') :
    Moves owner.identity purges receipts w.ledger [] w'.ledger := by
  cases finish with
  | commit b =>
    obtain ⟨_, w₁, hseal, h⟩ := Txn.bind_ok.mp h
    obtain ⟨-, rfl⟩ := Txn.pure_ok.mp h
    rcases (sealWrite_ok hseal).2 with rfl | ⟨e, record, last, -, -, hval, rfl⟩
    · exact .refl _
    · exact .single (.nonce _ _ (validateFinalization_unused hval))
  | commitReplayReceipt =>
    obtain ⟨-, rfl⟩ := Txn.pure_ok.mp h
    exact .refl _
  | abort =>
    obtain ⟨-, rfl⟩ := Txn.pure_ok.mp h
    exact .refl _

end

/-! ### Kernel calls -/

def kernelPurges : KernelCall → Bool
  | .write calls _ => calls.any callPurges
  | _ => false

/-- Whether a kernel call files a typed receipt as a replay row. -/
def kernelReceipts : KernelCall → Bool
  | .write calls _ => calls.any callReceipts
  | _ => false

def committedInWrite (owner : OwnedStoreHandle) (l : Ledger) (calls : List WriteCall)
    (finish : WriteEnd) : List Committed :=
  match execWrite calls finish (Write.opened owner l) with
  | .ok true _ => finishedIn calls
  | .ok false _ => []
  | .error _ _ => []

def committedInSaga (owner : OwnedStoreHandle) (l : Ledger) (b : MutationBatch)
    (result : ResultMsgpack) (committedAtMs : ℕ) : List Committed :=
  match commitSaga owner b result committedAtMs l with
  | .ok ((_, again), _) => if again then [] else [⟨b, true⟩]
  | .error _ => []

/-- The batches whose finish is part of the transaction a kernel call commits. -/
def committedBy (owner : OwnedStoreHandle) (l : Ledger) : KernelCall → List Committed
  | .write calls finish => committedInWrite owner l calls finish
  | .sagaEnd b result committedAtMs => committedInSaga owner l b result committedAtMs
  | _ => []

def runLog (owner : OwnedStoreHandle) : Ledger → List KernelCall → List Committed
  | _, [] => []
  | l, c :: cs => committedBy owner l c ++ runLog owner (step owner l c) cs

theorem runLog_append {owner : OwnedStoreHandle} : ∀ {cs ds : List KernelCall} {l : Ledger},
      runLog owner l (cs ++ ds) = runLog owner l cs ++ runLog owner (runKernel owner l cs) ds
  | [], _, _ => rfl
  | c :: cs, ds, l => by
    have ih : runLog owner (step owner l c) (cs ++ ds) = runLog owner (step owner l c) cs ++
        runLog owner (runKernel owner (step owner l c) cs) ds := runLog_append
    rw [List.cons_append, runLog, ih, runLog, List.append_assoc]
    rfl

section
variable {owner : OwnedStoreHandle} {purges receipts : Bool} {l : Ledger}

theorem write_moves {calls : List WriteCall} {finish : WriteEnd}
    (hp : calls.any callPurges = true → purges = true)
    (hr : calls.any callReceipts = true → receipts = true) :
    Moves owner.identity purges receipts l (committedInWrite owner l calls finish)
      (commitWrite owner calls finish l) := by
  unfold committedInWrite commitWrite
  cases h : execWrite calls finish (Write.opened owner l) with
  | error e w => exact .refl _
  | ok commits w =>
    cases commits with
    | false => exact .refl _
    | true =>
      obtain ⟨_, w₁, h1, h2⟩ := Txn.bind_ok.mp h
      have hcalls : Advances owner purges receipts (finishedIn calls) (Write.opened owner l) w₁ :=
        execCalls_advances rfl (guarded_opened l) hp hr h1
      have hend : Moves owner.identity purges receipts w₁.ledger [] w.ledger := end_moves h2
      have hall := hcalls.moves.trans hend
      rwa [List.append_nil] at hall

theorem sagaStep_moves {preparedAtMs : ℕ} {payload : Option (List UInt8)} :
    Moves owner.identity purges receipts l []
      (settle l (prepareSaga owner b preparedAtMs payload l)) := by
  unfold prepareSaga
  cases h : prepareSagaIn b preparedAtMs payload (Write.opened owner l) with
  | error e w => exact .refl _
  | ok r w =>
    obtain ⟨result, commits⟩ := r
    cases commits with
    | false => exact .refl _
    | true =>
      rcases prepareSagaIn_ok h with h1 | h1 | ⟨e, -, hnonce, h1⟩ |
        ⟨e, he, hprop, hfresh, hfree, hvalid, h1⟩
      · cases h1
      · simp only [h1]
        exact .refl _
      · simp only [h1]
        exact .single (.nonce _ _ hnonce)
      · simp only [h1]
        exact .single (.prepare b e preparedAtMs payload he hprop.scope hfresh hfree hvalid)

theorem sagaEnd_moves {result : ResultMsgpack} {committedAtMs : ℕ} :
    Moves owner.identity purges receipts l (committedInSaga owner l b result committedAtMs)
      (settle l (commitSaga owner b result committedAtMs l)) := by
  unfold committedInSaga commitSaga
  cases h : commitSagaIn b result committedAtMs (Write.opened owner l) with
  | error e w => exact .refl _
  | ok r w =>
    obtain ⟨record, again⟩ := r
    rcases commitSagaIn_ok h with ⟨rfl, h1⟩ |
      ⟨rfl, hscope, -, ⟨prior, hprior, hprepared⟩, hexpected, l₁, hfin, h1⟩
    · simp only [h1]
      exact .single (.dropPayload b.batchId)
    · simp only [h1]
      have hcommit : Moves owner.identity purges receipts l [⟨b, true⟩] l₁ :=
        .single (.sagaCommit b record prior hscope hprior hprepared hexpected hfin)
      exact hcommit.tail (.dropPayload b.batchId)

theorem deliver_moves {r : Except String (α × Ledger)}
    (h : ∀ {a l'}, r = .ok (a, l') → ensureNotGraftFenced l = .ok () ∧ core l' = core l) :
    Moves owner.identity purges receipts l [] (settle l r) := by
  cases r with
  | error e => exact .refl _
  | ok r =>
    obtain ⟨hun, hcore⟩ := h rfl
    exact .single (.deliver hun hcore)

theorem deliverLedger_moves {r : Except String Ledger}
    (h : ∀ {l'}, r = .ok l' → ensureNotGraftFenced l = .ok () ∧ core l' = core l) :
    Moves owner.identity purges receipts l [] (settleLedger l r) := by
  cases r with
  | error e => exact .refl _
  | ok l' =>
    obtain ⟨hun, hcore⟩ := h rfl
    exact .single (.deliver hun hcore)

/-- **Every kernel call moves the ledger of its scope**, and commits the batches of its log. -/
theorem step_moves {c : KernelCall} (hp : kernelPurges c = true → purges = true)
    (hr : kernelReceipts c = true → receipts = true) :
    Moves owner.identity purges receipts l (committedBy owner l c) (step owner l c) := by
  cases c with
  | write calls finish => exact write_moves hp hr
  | sagaStep b preparedAtMs payload => exact sagaStep_moves
  | sagaEnd b result committedAtMs => exact sagaEnd_moves
  | subscribe consumer topic =>
    exact deliverLedger_moves fun h => ⟨unfenced_subscribeIn h, core_of_frame (frame_subscribeIn h)⟩
  | claim consumer budget =>
    refine deliver_moves fun {a l'} h => ?_
    cases hc : claim owner.identity consumer budget l with
    | error e => simp [hc, Except.map] at h
    | ok r =>
      simp only [hc] at h
      obtain ⟨-, rfl⟩ := h
      exact ⟨unfenced_claim hc, core_claim hc⟩
  | ack lease nowMs => exact deliver_moves fun h => ⟨unfenced_ack h, core_ack h⟩
  | reject lease nowMs =>
    exact deliverLedger_moves fun h => ⟨unfenced_reject h, core_of_frame (frame_reject h)⟩
  | release lease =>
    exact deliverLedger_moves fun h => ⟨unfenced_release h, core_of_frame (frame_release h)⟩
  | expire consumer nowMs =>
    exact deliver_moves fun h => ⟨unfenced_expire h, core_of_frame (frame_expire h)⟩
  | rewind consumer target nowMs => exact deliver_moves fun h => ⟨unfenced_rewind h, core_rewind h⟩
  | backfillGate =>
    change Moves _ _ _ l [] (settleLedger l (backfillGate owner.identity l))
    cases h : backfillGate owner.identity l with
    | error e => exact .refl _
    | ok l' =>
      unfold backfillGate at h
      simp only [bind_eq_ok, pure_eq_ok] at h
      obtain ⟨_, hun, state, -, rfl⟩ := h
      split_ifs
      · exact .single (.reopen hun _ rfl)
      · exact .refl _
  | backfillPage =>
    change Moves _ _ _ l [] (settle l (backfillIn owner.identity l))
    cases h : backfillIn owner.identity l with
    | error e => exact .refl _
    | ok r =>
      obtain ⟨_, hun, hpage⟩ := unbind h
      exact .single (.backfill hun hpage)

/-- **Every run moves the ledger of its scope** along its log. -/
theorem run_moves : ∀ {calls : List KernelCall} {l : Ledger},
      (∀ c ∈ calls, kernelPurges c = true → purges = true) →
      (∀ c ∈ calls, kernelReceipts c = true → receipts = true) →
      Moves owner.identity purges receipts l (runLog owner l calls) (runKernel owner l calls)
  | [], l, _, _ => .refl l
  | c :: cs, l, hp, hr => by
    have hc : Moves owner.identity purges receipts l (committedBy owner l c) (step owner l c) :=
      step_moves (hp c (.head _)) (hr c (.head _))
    exact hc.trans (run_moves (fun d hd => hp d (.tail _ hd))
      (fun d hd => hr d (.tail _ hd)))

end

end Medulla.Mutation.Runs
