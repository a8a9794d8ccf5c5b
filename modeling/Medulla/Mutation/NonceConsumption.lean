import Medulla.Mutation.RouteFence

/-! # Which attempts of a write consume their nonce

A write may admit a page of operations before it commits. A fresh operation consumes its nonce when it
finishes; a replayed one leaves its nonce to the seal, which finalizes only the batch the commit
names, and only when that batch is the last replay of the page.

* the seal of a page: `sealed_nonces`;
* the result: `page_consumes_nonces_iff`. -/

namespace Medulla.Mutation.NonceConsumption

open Library.Checked Library.Transaction Types.Batch Types.Records State Replay
open Commit Kernel Transitions Runs RouteFence
open Outbox.Index Outbox.Frames
open Library.OrderedTable (Table)

variable {l : Ledger} {u : Unit} {record : MutationBatchRecord}

/-! ### A page of attempts -/

/-- One operation attempt of a page, with what its caller does when it applies. -/
structure Attempt where
  batch : MutationBatch
  operation : OperationEnvelope
  envelope : batch.envelope = .operation operation
  ownerWork : Bool
  result : Option ResultMsgpack
  committedAtMs : ℕ

def Attempt.key (a : Attempt) : String := a.operation.idempotencyKey

def Attempt.nonce (a : Attempt) : Digest256 := a.operation.nonceReplayDigest

def Attempt.applyCalls (a : Attempt) (source : Option ℕ) : List WriteCall :=
  (if a.ownerWork then [.ownerRows a.batch, .finishOwner] else []) ++
    [.finish a.batch a.result a.committedAtMs source]

def Attempt.exec (a : Attempt) : Txn Write Begin := do
  match ← begin a.batch with
  | .apply source =>
    execCalls (a.applyCalls source)
    return .apply source
  | .replay record => return .replay record

def execPage : List Attempt → Txn Write (List Begin)
  | [] => return []
  | a :: as => do
    let begun ← a.exec
    let rest ← execPage as
    return begun :: rest

def Attempt.calls (a : Attempt) : Begin → List WriteCall
  | .apply source => .begin a.batch :: a.applyCalls source
  | .replay _ => [.begin a.batch]

def pageCalls : List Attempt → List Begin → List WriteCall
  | a :: as, begun :: rest => a.calls begun ++ pageCalls as rest
  | _, _ => []

def newKey (l : Ledger) (earlier : List Attempt) (a : Attempt) : Bool :=
  (l.replayOperations.get a.key).isNone && earlier.all fun c => c.key ≠ a.key

def outcomes (l : Ledger) : List Attempt → List Attempt → List (Attempt × Bool)
  | _, [] => []
  | earlier, a :: as => (a, newKey l earlier a) :: outcomes l (earlier ++ [a]) as

def ReplaysCovered (l : Ledger) (page : List Attempt) (named : MutationBatch) : Prop :=
  ∀ p ∈ outcomes l [] page, p.2 = false →
    (∃ q ∈ outcomes l [] page, q.2 = true ∧ q.1.nonce = p.1.nonce) ∨
      ∃ q, (outcomes l [] page).getLast? = some q ∧ q.2 = false ∧ q.1.batch = named ∧
        q.1.nonce = p.1.nonce

theorem outcomes_append : ∀ {as bs earlier : List Attempt},
      outcomes l earlier (as ++ bs) = outcomes l earlier as ++ outcomes l (earlier ++ as) bs
  | [], _, _ => by simp [outcomes]
  | a :: as, bs, earlier => by
    have ih : outcomes l (earlier ++ [a]) (as ++ bs) =
        outcomes l (earlier ++ [a]) as ++ outcomes l (earlier ++ [a] ++ as) bs := outcomes_append
    rw [List.cons_append, outcomes, ih, List.append_assoc]
    rfl

theorem outcomes_fst : ∀ {as earlier : List Attempt}, (outcomes l earlier as).map Prod.fst = as
  | [], _ => rfl
  | a :: as, earlier => by
    rw [outcomes, List.map_cons, outcomes_fst]

theorem outcomes_snoc {as : List Attempt} {a : Attempt} :
    outcomes l [] (as ++ [a]) = outcomes l [] as ++ [(a, newKey l as a)] := by
  rw [outcomes_append]
  rfl

/-! ### One attempt -/

section
variable {w w' : Write} {a : Attempt}

theorem execCalls_snoc {cs ds : List WriteCall} {w₁ : Write} (h : execCalls cs w = .ok u w₁)
    (h' : execCalls ds w₁ = .ok u w') : execCalls (cs ++ ds) w = .ok u w' := by
  induction cs generalizing w with
  | nil =>
    obtain ⟨-, rfl⟩ := Txn.pure_ok.mp h
    exact h'
  | cons c cs ih =>
    obtain ⟨_, w₂, h1, h2⟩ := Txn.bind_ok.mp h
    exact Txn.bind_ok.mpr ⟨(), w₂, h1, ih h2⟩

theorem applyCalls_ok {source : Option ℕ} (h : execCalls (a.applyCalls source) w = .ok u w') :
    ∃ record, Finishes a.batch record none w.ledger w'.ledger ∧ w'.owner = w.owner ∧
      w'.admission = .finished a.batch := by
  have hfinish : ∀ (w₁ : Write) (u : Unit), w₁.ledger = w.ledger → w₁.owner = w.owner →
      execCalls [.finish a.batch a.result a.committedAtMs source] w₁ = .ok u w' →
      ∃ record, Finishes a.batch record none w.ledger w'.ledger ∧ w'.owner = w.owner ∧
        w'.admission = .finished a.batch := by
    intro w₁ u hledger howner h
    obtain ⟨_, _, h1, h2⟩ := Txn.bind_ok.mp h
    obtain ⟨record, _, h3, h4⟩ := Txn.bind_ok.mp h1
    obtain ⟨-, rfl⟩ := Txn.pure_ok.mp h4
    obtain ⟨-, rfl⟩ := Txn.pure_ok.mp h2
    obtain ⟨-, -, -, -, hfin, howner', hdone⟩ := finish_ok h3
    exact ⟨record, hledger ▸ hfin, howner'.trans howner, hdone⟩
  unfold Attempt.applyCalls at h
  cases hwork : a.ownerWork with
  | false =>
    simp only [hwork] at h
    exact hfinish w u rfl rfl h
  | true =>
    simp only [hwork] at h
    obtain ⟨_, w₁, h1, h⟩ := Txn.bind_ok.mp h
    obtain ⟨_, w₂, h2, h⟩ := Txn.bind_ok.mp h
    simp only [WriteCall.exec, ownerRows, Txn.bind_ok, Txn.read_ok, Write.updateAdmission_ok] at h1
    simp only [WriteCall.exec, Txn.read_ok] at h2
    obtain ⟨_, _, ⟨-, rfl⟩, state, -, rfl⟩ := h1
    obtain ⟨-, rfl⟩ := h2
    exact hfinish { w with admission := state } u rfl rfl h

theorem finishes_claims (hfree : w.ledger.replayOperations.get a.key = none)
    (h : Finishes a.batch record none w.ledger w'.ledger) :
    (∀ key, (w'.ledger.replayOperations.get key).isSome =
        (decide (key = a.key) || (w.ledger.replayOperations.get key).isSome)) ∧
      ∀ nonce, (w'.ledger.replayNonces.get nonce).isSome =
        (decide (nonce = a.nonce) || (w.ledger.replayNonces.get nonce).isSome) := by
  obtain ⟨l₁, hrow, hoperations, hnonces, -⟩ := h.keyRows
  simp only [ReplayRow, a.envelope] at hrow
  rcases recordOperation_cases hrow with ⟨row, hused, -, -⟩ | ⟨-, -, rfl⟩
  · exact absurd (hfree.symm.trans hused) (by simp)
  · refine ⟨fun key => ?_, fun nonce => ?_⟩
    · rw [hoperations]
      simp only [claimKey, Table.get_insert]
      by_cases hkey : key = a.key
      · simp [hkey, Attempt.key, OperationEnvelope.idempotencyKey]
      · rw [if_neg (by exact hkey)]
        simp [hkey]
    · rw [hnonces]
      simp only [claimKey, Table.get_insert]
      by_cases hnonce : nonce = a.nonce
      · simp [hnonce, Attempt.nonce]
      · rw [if_neg (by exact hnonce)]
        simp [hnonce]

/-- **What one attempt does**: it applies under a new key and consumes its nonce, or it replays and
leaves the ledger. -/
inductive Attempted (a : Attempt) (w w' : Write) : Prop
  | applied (newKey : w.ledger.replayOperations.get a.key = none)
      (keys : ∀ key, (w'.ledger.replayOperations.get key).isSome =
        (decide (key = a.key) || (w.ledger.replayOperations.get key).isSome))
      (nonces : ∀ nonce, (w'.ledger.replayNonces.get nonce).isSome =
        (decide (nonce = a.nonce) || (w.ledger.replayNonces.get nonce).isSome))
      (admission : w'.admission = .finished a.batch)
  | replayed (used : (w.ledger.replayOperations.get a.key).isSome = true)
      (ledger : w'.ledger = w.ledger)
      (admission : ∃ record last, w'.admission = .replayed a.batch record last)

theorem attempt_ok {begun : Begin} (h : a.exec w = .ok begun w') :
    Proposable w.owner a.batch false false ∧ w.ledger.replayNonces.get a.nonce = none ∧
      w'.owner = w.owner ∧ Attempted a w w' ∧ execCalls (a.calls begun) w = .ok () w' := by
  obtain ⟨decided, w₁, hbegin, h⟩ := Txn.bind_ok.mp h
  have hcall : ∀ cs u, execCalls cs w₁ = .ok u w' →
      execCalls (.begin a.batch :: cs) w = .ok () w' := by
    intro cs u hcs
    refine Txn.bind_ok.mpr ⟨(), w₁, ?_, hcs⟩
    exact Txn.bind_ok.mpr ⟨decided, w₁, hbegin, Txn.pure_ok.mpr ⟨rfl, rfl⟩⟩
  cases decided with
  | apply source =>
    obtain ⟨_, w₂, hcalls, h⟩ := Txn.bind_ok.mp h
    obtain ⟨rfl, rfl⟩ := Txn.pure_ok.mp h
    obtain ⟨hprop, hfree, -, -, rfl⟩ := beginInner_apply hbegin
    simp only [KeyFree, a.envelope] at hfree
    obtain ⟨hnonce, hkey⟩ := resolveReplayIn_fresh.mp hfree
    obtain ⟨record, hfin, howner, hdone⟩ := applyCalls_ok hcalls
    obtain ⟨hkeys, hnonces⟩ := finishes_claims hkey hfin
    exact ⟨hprop, hnonce, howner, .applied hkey hkeys hnonces hdone, hcall _ _ hcalls⟩
  | replay record =>
    obtain ⟨rfl, rfl⟩ := Txn.pure_ok.mp h
    obtain ⟨hprop, id, hnames, hreplay⟩ := beginInner_replay hbegin
    simp only [KeyNames, a.envelope] at hnames
    obtain ⟨hnonce, row, hrow, -, -⟩ := resolveReplayIn_replayed.mp hnames
    obtain ⟨_, -, -, -, state, hstate, rfl⟩ := replayCommittedBatch_ok.mp hreplay
    obtain ⟨known, last, rfl⟩ := rememberReplayedBatch_ok hstate
    refine ⟨hprop, hnonce, rfl, .replayed ?_ rfl ⟨known, last, rfl⟩, hcall [] () rfl⟩
    exact Option.isSome_of_eq_some hrow

end

/-! ### A page -/

structure Paged (l : Ledger) (page : List Attempt) (w : Write) : Prop where
  idle : page = [] → w.admission = .idle
  keys : ∀ key, (w.ledger.replayOperations.get key).isSome = true ↔
    (l.replayOperations.get key).isSome = true ∨ ∃ a ∈ page, a.key = key
  nonces : ∀ nonce, (w.ledger.replayNonces.get nonce).isSome = true ↔
    (l.replayNonces.get nonce).isSome = true ∨
      ∃ p ∈ outcomes l [] page, p.2 = true ∧ p.1.nonce = nonce
  unused : ∀ a ∈ page, l.replayNonces.get a.nonce = none
  proposable : ∀ a ∈ page, Proposable w.owner a.batch false false
  finished : ∀ p, (outcomes l [] page).getLast? = some p → p.2 = true →
    w.admission = .finished p.1.batch
  replayed : ∀ p, (outcomes l [] page).getLast? = some p → p.2 = false →
    ∃ record last, w.admission = .replayed p.1.batch record last

section
variable {page : List Attempt} {w w' : Write} {a : Attempt}

theorem paged_nil (owner : OwnedStoreHandle) (l : Ledger) : Paged l [] (Write.opened owner l) := by
  refine ⟨fun _ => rfl, fun key => ?_, fun nonce => ?_, fun a ha => ?_, fun a ha => ?_,
    fun p hp => ?_, fun p hp => ?_⟩
  · simp [Write.opened]
  · simp [Write.opened, outcomes]
  · cases ha
  · cases ha
  · cases hp
  · cases hp

theorem newKey_iff (h : Paged l page w) :
    newKey l page a = true ↔ w.ledger.replayOperations.get a.key = none := by
  have hkeys := h.keys a.key
  rw [← Option.not_isSome_iff_eq_none, hkeys]
  unfold newKey
  simp only [Bool.and_eq_true, List.all_eq_true, decide_eq_true_eq, Option.isNone_iff_eq_none,
    ← Option.not_isSome_iff_eq_none]
  constructor
  · rintro ⟨h1, h2⟩ (h3 | ⟨c, hc, h3⟩)
    · exact h1 h3
    · exact h2 c hc h3
  · intro h1
    exact ⟨fun h2 => h1 (Or.inl h2), fun c hc h2 => h1 (Or.inr ⟨c, hc, h2⟩)⟩

theorem unused_of_paged (h : Paged l page w) (hnonce : w.ledger.replayNonces.get a.nonce = none) :
    l.replayNonces.get a.nonce = none := by
  by_contra hused
  have hsome := (h.nonces a.nonce).mpr (Or.inl (Option.isSome_iff_ne_none.mpr hused))
  rw [hnonce] at hsome
  cases hsome

theorem Paged.snoc (h : Paged l page w) (hprop : Proposable w.owner a.batch false false)
    (hnonce : w.ledger.replayNonces.get a.nonce = none) (howner : w'.owner = w.owner)
    (hattempt : Attempted a w w') : Paged l (page ++ [a]) w' := by
  have hunused : ∀ c ∈ page ++ [a], l.replayNonces.get c.nonce = none := by
    intro c hc
    rcases List.mem_append.mp hc with hc | hc
    · exact h.unused c hc
    · obtain rfl := List.mem_singleton.mp hc
      exact unused_of_paged h hnonce
  have hproposable : ∀ c ∈ page ++ [a], Proposable w'.owner c.batch false false := by
    rw [howner]
    intro c hc
    rcases List.mem_append.mp hc with hc | hc
    · exact h.proposable c hc
    · obtain rfl := List.mem_singleton.mp hc
      exact hprop
  cases hattempt with
  | applied hfree hkeys hnonces hadm =>
    have hnew := (newKey_iff h).mpr hfree
    refine ⟨by simp, fun key => ?_, fun nonce => ?_, hunused, hproposable, fun p hp hp' => ?_,
      fun p hp hp' => ?_⟩
    · rw [hkeys, Bool.or_eq_true, decide_eq_true_eq, h.keys]
      simp only [List.mem_append, List.mem_singleton, or_and_right, exists_or, exists_eq_left,
        eq_comm (a := key)]
      rw [or_comm, or_assoc]
    · rw [hnonces, Bool.or_eq_true, decide_eq_true_eq, h.nonces, outcomes_snoc, hnew]
      simp only [List.mem_append, List.mem_singleton, or_and_right, exists_or, exists_eq_left,
        true_and, eq_comm (a := nonce)]
      rw [or_comm, or_assoc]
    · rw [outcomes_snoc, List.getLast?_concat] at hp
      rw [← Option.some.inj hp]
      exact hadm
    · rw [outcomes_snoc, List.getLast?_concat] at hp
      rw [← Option.some.inj hp, hnew] at hp'
      cases hp'
  | replayed hused hledger hadm =>
    have hnew : newKey l page a = false := by
      rw [← Bool.not_eq_true, newKey_iff h, ← Option.not_isSome_iff_eq_none, not_not]
      exact hused
    refine ⟨by simp, fun key => ?_, fun nonce => ?_, hunused, hproposable, fun p hp hp' => ?_,
      fun p hp hp' => ?_⟩
    · rw [hledger, h.keys]
      constructor
      · rintro (h1 | ⟨c, hc, h1⟩)
        · exact Or.inl h1
        · exact Or.inr ⟨c, List.mem_append_left _ hc, h1⟩
      · rintro (h1 | ⟨c, hc, rfl⟩)
        · exact Or.inl h1
        · rcases List.mem_append.mp hc with hc | hc
          · exact Or.inr ⟨c, hc, rfl⟩
          · obtain rfl := List.mem_singleton.mp hc
            exact (h.keys _).mp hused
    · rw [hledger, h.nonces, outcomes_snoc, hnew]
      simp [List.mem_append]
    · rw [outcomes_snoc, List.getLast?_concat] at hp
      rw [← Option.some.inj hp, hnew] at hp'
      cases hp'
    · rw [outcomes_snoc, List.getLast?_concat] at hp
      rw [← Option.some.inj hp]
      exact hadm

theorem execPage_ok :
    ∀ {as page : List Attempt} {w w' : Write} {begins : List Begin}, Paged l page w →
      execPage as w = .ok begins w' →
      Paged l (page ++ as) w' ∧ w'.owner = w.owner ∧ execCalls (pageCalls as begins) w = .ok () w'
  | [], page, w, _, _, hp, h => by
    obtain ⟨rfl, rfl⟩ := Txn.pure_ok.mp h
    exact ⟨by rw [List.append_nil]; exact hp, rfl, rfl⟩
  | a :: as, page, w, _, _, hp, h => by
    obtain ⟨begun, w₁, h1, h⟩ := Txn.bind_ok.mp h
    obtain ⟨rest, w₂, h2, h⟩ := Txn.bind_ok.mp h
    obtain ⟨rfl, rfl⟩ := Txn.pure_ok.mp h
    obtain ⟨hprop, hnonce, howner, hattempt, hcalls⟩ := attempt_ok h1
    obtain ⟨hpage, howner', hrest⟩ := execPage_ok (hp.snoc hprop hnonce howner hattempt) h2
    refine ⟨by simpa using hpage, howner'.trans howner, ?_⟩
    exact execCalls_snoc hcalls hrest

end

/-! ### The seal -/

section
variable {page : List Attempt} {named : MutationBatch} {w w' : Write}

theorem sealWrite_replayed {e : OperationEnvelope} {last : Option MutationBatch}
    (he : named.envelope = .operation e) (hadm : w.admission = .replayed named record last)
    (h : sealWrite named w = .ok u w') :
    w' = { w with ledger := consumeNonce e.nonceReplayDigest e.idempotencyKey w.ledger } := by
  have hop : named.isMaintenance = false := by
    unfold MutationBatch.isMaintenance
    rw [he]
    rfl
  unfold sealWrite at h
  simp only [Txn.bind_ok, Txn.read_ok, Write.verifyScope_ok] at h
  obtain ⟨_, _, ⟨-, rfl⟩, _, _, ⟨-, rfl⟩, replayed, _, ⟨hreplayed, rfl⟩, h⟩ := h
  rw [hadm] at hreplayed
  simp only [AdmissionState.replayedRecord] at hreplayed
  obtain rfl := Except.ok.inj hreplayed
  simp only [hop] at h
  obtain ⟨e', he', -, rfl⟩ := finalizeReplayIn_ok h
  obtain rfl := MutationEnvelope.operation.inj (he.symm.trans he')
  rfl

theorem sealWrite_not_replayed (hadm : ∀ record last, w.admission ≠ .replayed named record last)
    (h : sealWrite named w = .ok u w') : w' = w := by
  rcases (sealWrite_ok h).2 with rfl | ⟨-, record, last, -, hreplayed, -, -⟩
  · rfl
  · exact absurd hreplayed (hadm record last)

/-- **What the seal of a page adds**: the nonce of the last attempt, when that is a replay and the
batch the commit names. -/
theorem sealed_nonces (h : Paged l page w) (hseal : sealWrite named w = .ok u w')
    (nonce : Digest256) :
    (w'.ledger.replayNonces.get nonce).isSome = true ↔
      (w.ledger.replayNonces.get nonce).isSome = true ∨
        ∃ q, (outcomes l [] page).getLast? = some q ∧ q.2 = false ∧ q.1.batch = named ∧
          q.1.nonce = nonce := by
  cases hlast : (outcomes l [] page).getLast? with
  | none =>
    have hpage : page = [] := by
      have hfst : (outcomes l [] page).map Prod.fst = page := outcomes_fst
      rw [← hfst, List.getLast?_eq_none_iff.mp hlast]
      rfl
    rw [sealWrite_not_replayed (fun _ _ => by rw [h.idle hpage]; simp) hseal]
    simp
  | some q =>
    cases hq : q.2 with
    | true =>
      rw [sealWrite_not_replayed (fun _ _ => by rw [h.finished q hlast hq]; simp) hseal]
      simp [hq]
    | false =>
      obtain ⟨record, last, hadm⟩ := h.replayed q hlast hq
      by_cases hnamed : q.1.batch = named
      · have he : named.envelope = .operation q.1.operation := by
          rw [← hnamed]
          exact q.1.envelope
        rw [sealWrite_replayed he (by rw [← hnamed]; exact hadm) hseal]
        simp only [consumeNonce, Table.get_insert]
        by_cases hnonce : nonce = q.1.nonce
        · simp [hnonce, Attempt.nonce, hnamed, hq]
        · rw [if_neg (by exact hnonce)]
          simp [Ne.symm hnonce]
      · rw [sealWrite_not_replayed (fun _ _ hreplayed => hnamed ?_) hseal]
        · simp [hnamed]
        · exact (AdmissionState.replayed.inj (hadm.symm.trans hreplayed)).1

end

/-! ### Presenting an attempt again -/

section
variable {owner : OwnedStoreHandle} {identity : MutationScopeIdentity} {receipts : Bool}
  {l' : Ledger} {es : List Committed} {nonce : Digest256}

theorem recordOperation_nonces {operation : OperationReplayIdentity} {n : Digest256}
    {recorded : RecordedOperation} {id : String}
    (h : recordOperation operation n recorded id l = .ok l')
    (hnonce : (l.replayNonces.get nonce).isSome = true) :
    (l'.replayNonces.get nonce).isSome = true := by
  rcases recordOperation_cases h with ⟨-, -, -, rfl⟩ | ⟨-, -, rfl⟩
  · exact hnonce
  · simp only [claimKey, Table.get_insert]
    split_ifs
    · rfl
    · exact hnonce

theorem finishes_nonces {b : MutationBatch} {replay : Option ReplayReceipt}
    (h : Finishes b record replay l l') (hnonce : (l.replayNonces.get nonce).isSome = true) :
    (l'.replayNonces.get nonce).isSome = true := by
  obtain ⟨l₁, hrow, -, hnonces, -⟩ := h.keyRows
  rw [hnonces]
  unfold ReplayRow at hrow
  cases replay with
  | some r => exact recordOperation_nonces hrow hnonce
  | none =>
    cases he : b.envelope with
    | operation e =>
      simp only [he] at hrow
      exact recordOperation_nonces hrow hnonce
    | maintenance e =>
      simp only [he] at hrow
      rw [hrow]
      exact hnonce

/-- **A consumed nonce stays consumed**, as long as the generation is not purged. -/
theorem move_nonces (m : Move identity false receipts l es l')
    (hnonce : (l.replayNonces.get nonce).isSome = true) :
    (l'.replayNonces.get nonce).isSome = true := by
  cases m with
  | deliver _ same =>
    rw [eq_of_core same]
    exact hnonce
  | backfill _ page =>
    rw [backfillPage_frame page]
    exact hnonce
  | reopen _ state => exact hnonce
  | nonce n key _ =>
    simp only [consumeNonce, Table.get_insert]
    split_ifs
    · rfl
    · exact hnonce
  | receipt operation n receipt id _ recorded => exact recordOperation_nonces recorded hnonce
  | purge allowed _ => cases allowed
  | prepare b e preparedAtMs payload _ _ _ _ _ =>
    simp only [preparedLedger, claimKey, Table.get_insert]
    split_ifs
    · rfl
    · exact hnonce
  | dropPayload id => exact hnonce
  | finish b record replay _ _ _ finishes => exact finishes_nonces finishes hnonce
  | sagaCommit b record prior _ _ _ _ finishes => exact finishes_nonces finishes hnonce

theorem moves_nonces (h : Moves identity false receipts l es l')
    (hnonce : (l.replayNonces.get nonce).isSome = true) :
    (l'.replayNonces.get nonce).isSome = true := by
  induction h with
  | refl => exact hnonce
  | tail _ m ih => exact move_nonces m ih

theorem run_nonces {later : List KernelCall} (hpurge : ∀ c ∈ later, kernelPurges c = false)
    (hnonce : (l.replayNonces.get nonce).isSome = true) :
    ((runKernel owner l later).replayNonces.get nonce).isSome = true := by
  have hmoves : Moves owner.identity false true l (runLog owner l later)
      (runKernel owner l later) :=
    run_moves (fun c hc h => by rw [hpurge c hc] at h; cases h) (fun _ _ _ => rfl)
  exact moves_nonces hmoves hnonce

theorem begin_consumed {w : Write} {b : MutationBatch} {e : OperationEnvelope} {key : String}
    (he : b.envelope = .operation e) (hprop : Proposable w.owner b false false)
    (hnonce : w.ledger.replayNonces.get e.nonceReplayDigest = some key) :
    begin b w = .error ("REPLAY_NONCE_CONSUMED: this attempt nonce was already consumed by " ++
      "idempotency key '" ++ key ++ "'") w := by
  have hres : resolveReplayIn w.ledger e.operationIdentity e.nonceReplayDigest =
      .nonceRejected key := by
    unfold resolveReplayIn
    rw [hnonce]
  unfold begin beginInner beginOperation beginOperationWithIdentity
  simp only [Txn.bind_error, he]
  refine Or.inr ⟨(), w, Txn.read_ok.mpr ⟨require_eq_ok.mpr hprop.namespaced, rfl⟩, ?_⟩
  refine Or.inr ⟨(), w, Txn.read_ok.mpr ⟨require_eq_ok.mpr hprop.topUp, rfl⟩, ?_⟩
  refine Or.inr ⟨(), w, Txn.read_ok.mpr ⟨hprop.budget, rfl⟩, ?_⟩
  refine Or.inr ⟨(), w, Write.verifyScope_ok.mpr ⟨hprop.scope, rfl⟩, ?_⟩
  refine Or.inr ⟨.nonceRejected key, w, Write.readLedger_ok.mpr ⟨by rw [hres], rfl⟩, ?_⟩
  exact Txn.throw_error.mpr ⟨rfl, rfl⟩

end

def Consumed (owner : OwnedStoreHandle) (l : Ledger) (a : Attempt) : Prop :=
  (l.replayNonces.get a.nonce).isSome = true ∧
    ∀ later : List KernelCall, (∀ c ∈ later, kernelPurges c = false) →
      ∃ key, begin a.batch (Write.opened owner (runKernel owner l later)) =
        .error ("REPLAY_NONCE_CONSUMED: this attempt nonce was already consumed by " ++
          "idempotency key '" ++ key ++ "'") (Write.opened owner (runKernel owner l later))

theorem consumed_iff {owner : OwnedStoreHandle} {a : Attempt}
    (hprop : Proposable owner a.batch false false) :
    Consumed owner l a ↔ (l.replayNonces.get a.nonce).isSome = true := by
  refine ⟨fun h => h.1, fun h => ⟨h, fun later hlater => ?_⟩⟩
  have hpresent : ((runKernel owner l later).replayNonces.get a.nonce).isSome = true :=
    run_nonces hlater h
  obtain ⟨key, hkey⟩ := Option.isSome_iff_exists.mp hpresent
  exact ⟨key, begin_consumed a.envelope hprop hkey⟩

/-- **When a page of attempts consumes its nonces.** After a committed page every attempt has consumed
its nonce exactly when every replayed one shares it with an applied attempt, or with the last attempt
when that is a replay and the batch the commit names. -/
theorem page_consumes_nonces_iff (owner : OwnedStoreHandle) (l : Ledger) (page : List Attempt)
    (named : MutationBatch) (begins : List Begin) (w w' : Write)
    (hpage : execPage page (Write.opened owner l) = .ok begins w)
    (hseal : sealWrite named w = .ok () w') :
    commitWrite owner (pageCalls page begins) (.commit named) l = w'.ledger ∧
      ((∀ a ∈ page, Consumed owner w'.ledger a) ↔ ReplaysCovered l page named) := by
  obtain ⟨hpaged, howner, hcalls⟩ := execPage_ok (paged_nil owner l) hpage
  refine ⟨?_, ?_⟩
  · unfold commitWrite
    have hwrite : execWrite (pageCalls page begins) (.commit named) (Write.opened owner l) =
        .ok true w' := by
      refine Txn.bind_ok.mpr ⟨(), w, hcalls, ?_⟩
      exact Txn.bind_ok.mpr ⟨(), w', hseal, Txn.pure_ok.mpr ⟨rfl, rfl⟩⟩
    rw [hwrite]
  · have hconsumed : ∀ a ∈ page, Consumed owner w'.ledger a ↔
        (∃ p ∈ outcomes l [] page, p.2 = true ∧ p.1.nonce = a.nonce) ∨
          ∃ q, (outcomes l [] page).getLast? = some q ∧ q.2 = false ∧ q.1.batch = named ∧
            q.1.nonce = a.nonce := by
      intro a ha
      have hprop : Proposable owner a.batch false false := by
        rw [← show w.owner = owner from howner]
        exact hpaged.proposable a ha
      rw [consumed_iff hprop, sealed_nonces hpaged hseal, hpaged.nonces, hpaged.unused a ha]
      simp
    constructor
    · intro hall p hp _
      have hmem : p.1 ∈ page := by
        have h1 : p.1 ∈ (outcomes l [] page).map Prod.fst := List.mem_map_of_mem hp
        rwa [outcomes_fst] at h1
      exact (hconsumed p.1 hmem).mp (hall p.1 hmem)
    · intro hcovered a ha
      have hmem : a ∈ (outcomes l [] page).map Prod.fst := by rwa [outcomes_fst]
      obtain ⟨p, hp, rfl⟩ := List.mem_map.mp hmem
      refine (hconsumed p.1 ha).mpr ?_
      cases hp2 : p.2 with
      | true => exact Or.inl ⟨p, hp, hp2, rfl⟩
      | false => exact hcovered p hp hp2

/-! ### Two pages -/

def pageNonces (owner : OwnedStoreHandle) (l : Ledger) (page : List Attempt)
    (named : MutationBatch) : Option (Table String String) :=
  match execPage page (Write.opened owner l) with
  | .error _ _ => none
  | .ok _ w =>
    match sealWrite named w with
    | .error _ _ => none
    | .ok _ w' => some w'.ledger.replayNonces

theorem pageNonces_ok {owner : OwnedStoreHandle} {page : List Attempt} {named : MutationBatch}
    {nonces : Table String String} (h : pageNonces owner l page named = some nonces) :
    ∃ begins w w', execPage page (Write.opened owner l) = .ok begins w ∧
      sealWrite named w = .ok () w' ∧ w'.ledger.replayNonces = nonces := by
  unfold pageNonces at h
  cases hpage : execPage page (Write.opened owner l) with
  | error e w => simp [hpage] at h
  | ok begins w =>
    cases hseal : sealWrite named w with
    | error e w' => simp [hpage, hseal] at h
    | ok u w' => exact ⟨begins, w, w', rfl, hseal, by simpa [hpage, hseal] using h⟩

def pagedRun : List KernelCall :=
  [commitAlone (sampleOperation "one" "n1" 0 0 0 []) 0,
    commitAlone (sampleOperation "two" "n2" 0 0 1 []) 1]

def sampleAttempt (id nonce : String) (version : ℕ) : Attempt :=
  ⟨sampleOperation id nonce 0 0 version [], _, rfl, false, none, 1⟩

theorem page_consumes_nonces_iff_sample :
    ∃ begins w w', execPage [sampleAttempt "three" "n3" 2, sampleAttempt "one" "n4" 0]
        (Write.opened sampleOwner (runKernel sampleOwner (Ledger.bound 0) pagedRun)) =
          .ok begins w ∧
      sealWrite (sampleAttempt "one" "n4" 0).batch w = .ok () w' ∧
      ∀ a ∈ [sampleAttempt "three" "n3" 2, sampleAttempt "one" "n4" 0],
        Consumed sampleOwner w'.ledger a := by
  have hcommits : (pageNonces sampleOwner (runKernel sampleOwner (Ledger.bound 0) pagedRun)
      [sampleAttempt "three" "n3" 2, sampleAttempt "one" "n4" 0]
      (sampleAttempt "one" "n4" 0).batch).isSome = true := by decide +kernel
  obtain ⟨nonces, hnonces⟩ := Option.isSome_iff_exists.mp hcommits
  obtain ⟨begins, w, w', hpage, hseal, -⟩ := pageNonces_ok hnonces
  refine ⟨begins, w, w', hpage, hseal, ?_⟩
  refine (page_consumes_nonces_iff sampleOwner _ _ _ begins w w' hpage hseal).2.mpr ?_
  intro p hp hreplayed
  refine Or.inr ⟨p, ?_⟩
  have hfresh : newKey (runKernel sampleOwner (Ledger.bound 0) pagedRun) []
      (sampleAttempt "three" "n3" 2) = true := by decide +kernel
  simp only [outcomes, List.mem_cons, List.not_mem_nil, or_false] at hp
  rcases hp with rfl | rfl
  · rw [hfresh] at hreplayed
    cases hreplayed
  · exact ⟨rfl, hreplayed, rfl, rfl⟩

/-- Two replays in one write, and a commit that names the second: the first keeps its nonce, and
presenting it again replays it again. -/
theorem first_replay_keeps_nonce :
    ∃ begins w w', execPage [sampleAttempt "one" "n3" 0, sampleAttempt "two" "n4" 1]
        (Write.opened sampleOwner (runKernel sampleOwner (Ledger.bound 0) pagedRun)) =
          .ok begins w ∧
      sealWrite (sampleAttempt "two" "n4" 1).batch w = .ok () w' ∧
      w'.ledger.replayNonces.get "n3" = none ∧
      ¬ ∀ a ∈ [sampleAttempt "one" "n3" 0, sampleAttempt "two" "n4" 1],
        Consumed sampleOwner w'.ledger a := by
  have hcommits : (pageNonces sampleOwner (runKernel sampleOwner (Ledger.bound 0) pagedRun)
      [sampleAttempt "one" "n3" 0, sampleAttempt "two" "n4" 1]
      (sampleAttempt "two" "n4" 1).batch).map (·.get "n3") = some none := by decide +kernel
  obtain ⟨nonces, hnonces, hget⟩ := Option.map_eq_some_iff.mp hcommits
  obtain ⟨begins, w, w', hpage, hseal, rfl⟩ := pageNonces_ok hnonces
  refine ⟨begins, w, w', hpage, hseal, hget, fun hall => ?_⟩
  have hpresent := (hall (sampleAttempt "one" "n3" 0) (.head _)).1
  rw [show w'.ledger.replayNonces.get (sampleAttempt "one" "n3" 0).nonce = none from hget] at hpresent
  cases hpresent

end Medulla.Mutation.NonceConsumption
