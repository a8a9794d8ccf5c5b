import Mathlib.Data.List.Nodup
import Medulla.Mutation.RouteFence

/-! # Version arithmetic and commit order

The authoritative version of a scope counts its committed batches, and the sequence of an outbox row is
the version its batch produced.

* every run: `version_counts_commits_in_order`. -/

namespace Medulla.Mutation.CommitOrder

open Library.Checked Library.Transaction Types.Batch Types.Records State Commit
open Kernel Transitions Runs Outbox.Index Outbox.Frames
open Library.OrderedTable (Table)

variable {r : MutationOutboxRecord} {key : IndexKey} {identity : MutationScopeIdentity}

def ExpectationMet (b : MutationBatch) (version : ℕ) : Prop :=
  match b.versionExpectation with
  | .graph expected => expected = version
  | .native expected => expected = version
  | .unversioned => True

/-- An outbox row of the batch at an index of the log, under the version that batch produced. -/
def Published (initialVersion : ℕ) (es : List Committed) (i : ℕ) (r : MutationOutboxRecord) : Prop :=
  ∃ c committed entry, es[i]? = some c ∧
    r = outboxRecord c.batch committed (initialVersion + i + 1) entry

def WrittenBy (initialVersion : ℕ) (es : List Committed) (i : ℕ) (p : OutboxPosition) : Prop :=
  ∃ c, es[i]? = some c ∧ p.batchId = c.batch.batchId ∧ p.createdAtMs = c.batch.createdAtMs ∧
    p.sequence = initialVersion + i + 1

structure CommitLog (initialVersion : ℕ) (es : List Committed) (l : Ledger) : Prop where
  version : l.version = initialVersion + es.length
  expected : ∀ i c, es[i]? = some c → ExpectationMet c.batch (initialVersion + i)
  outbox : ∀ key r, l.outbox.get key = some r →
    key = ⟨r.batchId, r.ordinal⟩ ∧ ∃ i, Published initialVersion es i r
  index : ∀ key, (l.topicIndex.get key).isSome = true →
    ∃ i, WrittenBy initialVersion es i key.position

/-! ### Growing the log -/

section
variable {initialVersion i : ℕ} {es fs : List Committed} {l l' : Ledger}

theorem getElem?_append_of_some {c : Committed} (h : es[i]? = some c) : (es ++ fs)[i]? = some c := by
  rw [List.getElem?_append_left (List.getElem?_eq_some_iff.mp h).1]
  exact h

theorem Published.append (h : Published initialVersion es i r) :
    Published initialVersion (es ++ fs) i r := by
  obtain ⟨c, committed, entry, hc, hr⟩ := h
  exact ⟨c, committed, entry, getElem?_append_of_some hc, hr⟩

theorem WrittenBy.append {p : OutboxPosition} (h : WrittenBy initialVersion es i p) :
    WrittenBy initialVersion (es ++ fs) i p := by
  obtain ⟨c, hc, hp⟩ := h
  exact ⟨c, getElem?_append_of_some hc, hp⟩

theorem CommitLog.congr (h : CommitLog initialVersion es l) (hversion : l'.version = l.version)
    (houtbox : l'.outbox = l.outbox) (hindex : l'.topicIndex = l.topicIndex) :
    CommitLog initialVersion es l' := by
  refine ⟨by rw [hversion]; exact h.version, h.expected, ?_, ?_⟩
  · rw [houtbox]
    exact h.outbox
  · rw [hindex]
    exact h.index

theorem expectationMet_of_check {b : MutationBatch} (h : checkExpectation b l = .ok ()) :
    ExpectationMet b l.version := by
  unfold checkExpectation at h
  unfold ExpectationMet
  cases hv : b.versionExpectation with
  | graph expected => simpa [hv] using h
  | native expected => simpa [hv] using h
  | unversioned => trivial

/-! ### Outbox rows of a finish -/

theorem putOutboxRow_outbox (r : MutationOutboxRecord) (l : Ledger) :
    (putOutboxRow l r).outbox = l.outbox.insert ⟨r.batchId, r.ordinal⟩ r := rfl

theorem putOutboxRow_index (r : MutationOutboxRecord) (l : Ledger) : (putOutboxRow l r).topicIndex =
      l.topicIndex.insert ⟨r.intent.topic, positionAt r (r.commitSequence.getD 0)⟩ () := rfl

theorem outbox_of_foldl {key : OutboxKey} : ∀ (rs : List MutationOutboxRecord) {l : Ledger},
      (rs.foldl putOutboxRow l).outbox.get key = some r →
        (r ∈ rs ∧ key = ⟨r.batchId, r.ordinal⟩) ∨ l.outbox.get key = some r
  | [], _, h => Or.inr h
  | q :: rs, l, h => by
    rcases outbox_of_foldl rs h with ⟨hr, hkey⟩ | h
    · exact Or.inl ⟨.tail _ hr, hkey⟩
    · rw [putOutboxRow_outbox, Table.get_insert] at h
      split_ifs at h with hkey
      · obtain rfl := Option.some.inj h
        exact Or.inl ⟨.head _, hkey⟩
      · exact Or.inr h

theorem index_of_foldl : ∀ (rs : List MutationOutboxRecord) {l : Ledger},
      ((rs.foldl putOutboxRow l).topicIndex.get key).isSome = true →
        (∃ r ∈ rs, key = ⟨r.intent.topic, positionAt r (r.commitSequence.getD 0)⟩) ∨
          (l.topicIndex.get key).isSome = true
  | [], _, h => Or.inr h
  | q :: rs, l, h => by
    rcases index_of_foldl rs h with ⟨r, hr, hkey⟩ | h
    · exact Or.inl ⟨r, .tail _ hr, hkey⟩
    · rw [putOutboxRow_index, Table.get_insert] at h
      split_ifs at h with hkey
      · exact Or.inl ⟨q, .head _, hkey⟩
      · exact Or.inr h

theorem CommitLog.finishes {b : MutationBatch} {saga : Bool} {record : MutationBatchRecord}
    {replay : Option ReplayReceipt} (h : CommitLog initialVersion es l)
    (hexpected : checkExpectation b l = .ok ()) (hfin : Finishes b record replay l l') :
    CommitLog initialVersion (es ++ [⟨b, saga⟩]) l' := by
  obtain ⟨l₁, l₂, entries, hrow, -, hready, -, hout⟩ := hfin.rows
  have hframe : l₂.outbox = l.outbox ∧ l₂.topicIndex = l.topicIndex := by
    rw [readied_frame hready, replayRow_frame hrow]
    exact ⟨rfl, rfl⟩
  have hnew : (es ++ [(⟨b, saga⟩ : Committed)])[es.length]? = some ⟨b, saga⟩ := by simp
  refine ⟨?_, ?_, ?_, ?_⟩
  · rw [hfin.frame, List.length_append]
    simp only [h.version, List.length_singleton]
    omega
  · intro i c hc
    by_cases hi : i < es.length
    · rw [List.getElem?_append_left hi] at hc
      exact h.expected i c hc
    · have hlt := (List.getElem?_eq_some_iff.mp hc).1
      rw [List.length_append, List.length_singleton] at hlt
      obtain rfl : i = es.length := by omega
      rw [hnew] at hc
      obtain rfl := Option.some.inj hc
      rw [← h.version]
      exact expectationMet_of_check hexpected
  · intro key r hr
    rw [hout] at hr
    rcases outbox_of_foldl _ hr with ⟨hmem, hkey⟩ | hold
    · obtain ⟨entry, -, rfl⟩ := List.mem_map.mp hmem
      refine ⟨hkey, es.length, ⟨b, saga⟩, record.committedVersion, entry, hnew, ?_⟩
      rw [h.version]
    · rw [hframe.1] at hold
      obtain ⟨hkey, i, hi⟩ := h.outbox key r hold
      exact ⟨hkey, i, hi.append⟩
  · intro key hkey
    rw [hout] at hkey
    rcases index_of_foldl _ hkey with ⟨r, hmem, rfl⟩ | hold
    · obtain ⟨entry, -, rfl⟩ := List.mem_map.mp hmem
      refine ⟨es.length, ⟨b, saga⟩, hnew, ?_⟩
      rw [← h.version]
      exact ⟨rfl, rfl, rfl⟩
    · rw [hframe.2] at hold
      obtain ⟨i, hi⟩ := h.index key hold
      exact ⟨i, hi.append⟩

/-! ### Backfill -/

theorem sequenceForBackfill_ok {n : ℕ} (h : sequenceForBackfill r = .ok n) :
    r.commitSequence = some n := by
  unfold sequenceForBackfill at h
  simp only [bind_eq_ok, okOr_eq_ok, pure_eq_ok] at h
  obtain ⟨_, h1, -, -, rfl⟩ := h
  exact h1

theorem index_of_backfillRow {okey : OutboxKey} {fresh : Bool}
    (h : backfillRow identity okey r l = .ok (fresh, l'))
    (hkey : (l'.topicIndex.get key).isSome = true) :
    (∃ n, r.commitSequence = some n ∧ key.position = positionAt r n) ∨
      (l.topicIndex.get key).isSome = true := by
  unfold backfillRow at h
  simp only [bind_eq_ok] at h
  obtain ⟨_, -, _, -, _, -, n, hn, h⟩ := h
  split_ifs at h
  · rw [← (Prod.mk.inj (pure_eq_ok.mp h)).2] at hkey
    exact Or.inr hkey
  · rw [← (Prod.mk.inj (pure_eq_ok.mp h)).2] at hkey
    simp only [insertIndexRow, Table.get_insert] at hkey
    split_ifs at hkey with heq
    · exact Or.inl ⟨n, sequenceForBackfill_ok hn, by rw [heq]⟩
    · exact Or.inr hkey

theorem index_of_backfillRows :
    ∀ {rows : List (OutboxKey × MutationOutboxRecord)} {n : ℕ} {last : Option OutboxKey}
      {l l' : Ledger} {m : ℕ} {last' : Option OutboxKey},
      backfillRows identity rows n last l = .ok (m, last', l') →
      (l'.topicIndex.get key).isSome = true →
        (∃ r ∈ rows, ∃ k, r.2.commitSequence = some k ∧ key.position = positionAt r.2 k) ∨
          (l.topicIndex.get key).isSome = true
  | [], _, _, _, _, _, _, h, hkey => by
    obtain ⟨-, h⟩ := Prod.mk.inj (Except.ok.inj h)
    rw [← (Prod.mk.inj h).2] at hkey
    exact Or.inr hkey
  | (okey, record) :: rest, n, last, l, l', m, last', h, hkey => by
    obtain ⟨⟨fresh, l₁⟩, h1, h2⟩ := unbind h
    rcases index_of_backfillRows h2 hkey with ⟨r, hr, hk⟩ | hkey
    · exact Or.inl ⟨r, .tail _ hr, hk⟩
    · rcases index_of_backfillRow h1 hkey with hk | hkey
      · exact Or.inl ⟨(okey, record), .head _, hk⟩
      · exact Or.inr hkey

theorem CommitLog.backfill {outcome : OutboxBackfillOutcome} (h : CommitLog initialVersion es l)
    (hpage : backfillPage identity l = .ok (outcome, l')) : CommitLog initialVersion es l' := by
  have hframe := backfillPage_frame hpage
  refine ⟨by rw [hframe]; exact h.version, h.expected, by rw [hframe]; exact h.outbox, ?_⟩
  intro key hkey
  unfold backfillPage at hpage
  simp only [bind_eq_ok] at hpage
  obtain ⟨state, -, ⟨n, last, l₁⟩, hrows, hend⟩ := hpage
  rw [← (Prod.mk.inj (pure_eq_ok.mp hend)).2] at hkey
  rcases index_of_backfillRows hrows hkey with ⟨r, hr, k, hk, hposition⟩ | hold
  · have hmem : r ∈ l.outbox.rows := (List.mem_filter.mp (List.mem_of_mem_take hr)).1
    obtain ⟨-, i, c, committed, entry, hc, hrec⟩ := h.outbox r.1 r.2 (Table.mem_rows.mp hmem)
    rw [hrec] at hk hposition
    obtain rfl := Option.some.inj hk
    refine ⟨i, c, hc, ?_⟩
    rw [hposition]
    exact ⟨rfl, rfl, rfl⟩
  · exact h.index key hold

/-! ### Runs -/

theorem commitLog_move {purges receipts : Bool} (m : Move identity purges receipts l fs l')
    (h : CommitLog initialVersion es l) : CommitLog initialVersion (es ++ fs) l' := by
  cases m with
  | deliver _ same =>
    rw [List.append_nil]
    have hframe := eq_of_core same
    exact h.congr (by rw [hframe]) (by rw [hframe]) (by rw [hframe])
  | backfill _ page =>
    rw [List.append_nil]
    exact h.backfill page
  | receipt operation nonce receipt id _ recorded =>
    rw [List.append_nil]
    have hframe := recordOperation_frame recorded
    exact h.congr (by rw [hframe]) (by rw [hframe]) (by rw [hframe])
  | purge _ _ =>
    rw [List.append_nil]
    refine ⟨h.version, h.expected, ?_, ?_⟩
    · intro key r hr
      cases hr
    · intro key hkey
      cases hkey
  | reopen _ state =>
    rw [List.append_nil]
    exact h.congr rfl rfl rfl
  | nonce nonce key _ =>
    rw [List.append_nil]
    exact h.congr rfl rfl rfl
  | prepare b e preparedAtMs payload _ _ _ _ _ =>
    rw [List.append_nil]
    exact h.congr rfl rfl rfl
  | dropPayload id =>
    rw [List.append_nil]
    exact h.congr rfl rfl rfl
  | finish b record replay _ _ fresh finishes => exact h.finishes fresh.expected finishes
  | sagaCommit b record prior _ _ _ expected finishes => exact h.finishes expected finishes

theorem commitLog_run {owner : OwnedStoreHandle} {calls : List KernelCall} :
    CommitLog initialVersion (runLog owner (Ledger.bound initialVersion) calls)
      (runKernel owner (Ledger.bound initialVersion) calls) := by
  have hmoves : Moves owner.identity true true (Ledger.bound initialVersion)
      (runLog owner (Ledger.bound initialVersion) calls)
      (runKernel owner (Ledger.bound initialVersion) calls) :=
    run_moves (fun _ _ _ => rfl) (fun _ _ _ => rfl)
  have h0 : CommitLog initialVersion [] (Ledger.bound initialVersion) := by
    refine ⟨rfl, ?_, ?_, ?_⟩
    · intro i c hc
      simp at hc
    · intro key r hr
      cases hr
    · intro key hkey
      cases hkey
  exact Moves.invariant commitLog_move hmoves h0

theorem distinctIds_run {owner : OwnedStoreHandle} {calls : List KernelCall}
    (hpurge : ∀ c ∈ calls, kernelPurges c = false) :
    ((runLog owner (Ledger.bound initialVersion) calls).map fun c => c.batch.batchId).Nodup := by
  have hmoves : Moves owner.identity false true (Ledger.bound initialVersion)
      (runLog owner (Ledger.bound initialVersion) calls)
      (runKernel owner (Ledger.bound initialVersion) calls) :=
    run_moves (fun c hc h => by rw [hpurge c hc] at h; cases h) (fun _ _ _ => rfl)
  have h0 : DistinctIds [] (Ledger.bound initialVersion) := by
    refine ⟨fun c hc => ?_, List.nodup_nil⟩
    cases hc
  have hlog := Moves.invariant distinctIds_move hmoves h0
  exact hlog.distinct

end

/-! ### Commit order -/

section
variable {initialVersion i j : ℕ} {es : List Committed}

theorem WrittenBy.lt {p q : OutboxPosition} (hp : WrittenBy initialVersion es i p)
    (hq : WrittenBy initialVersion es j q) (hij : i < j) : p < q := by
  obtain ⟨_, -, -, -, hp⟩ := hp
  obtain ⟨_, -, -, -, hq⟩ := hq
  exact OutboxPosition.lt_of_sequence_lt (by omega)

theorem eq_of_batchId_eq {c d : Committed} (hnodup : (es.map fun c => c.batch.batchId).Nodup)
    (hi : es[i]? = some c) (hj : es[j]? = some d) (h : c.batch.batchId = d.batch.batchId) :
    i = j := by
  obtain ⟨hi', rfl⟩ := List.getElem?_eq_some_iff.mp hi
  obtain ⟨hj', rfl⟩ := List.getElem?_eq_some_iff.mp hj
  have h1 : i < (es.map fun c => c.batch.batchId).length := by simpa using hi'
  have h2 : j < (es.map fun c => c.batch.batchId).length := by simpa using hj'
  have hget : (es.map fun c => c.batch.batchId)[i] = (es.map fun c => c.batch.batchId)[j] := by
    simpa using h
  exact hnodup.getElem_inj_iff.mp hget

end

/-- **Version arithmetic and commit order.** In every run from a binding: the version is the initial one
plus the committed batches, call by call; a versioned batch expects the version at its own turn; outbox
and index rows carry the version of their batch; and positions sort as their batches committed. -/
theorem version_counts_commits_in_order (owner : OwnedStoreHandle) (initialVersion : ℕ)
    (calls : List KernelCall) :
    (runKernel owner (Ledger.bound initialVersion) calls).version =
        initialVersion + (runLog owner (Ledger.bound initialVersion) calls).length ∧
    (∀ c, (step owner (runKernel owner (Ledger.bound initialVersion) calls) c).version =
      (runKernel owner (Ledger.bound initialVersion) calls).version +
        (committedBy owner (runKernel owner (Ledger.bound initialVersion) calls) c).length) ∧
    (∀ i c, (runLog owner (Ledger.bound initialVersion) calls)[i]? = some c →
      ExpectationMet c.batch (initialVersion + i)) ∧
    (∀ key r, (runKernel owner (Ledger.bound initialVersion) calls).outbox.get key = some r →
      ∃ i, Published initialVersion (runLog owner (Ledger.bound initialVersion) calls) i r) ∧
    (∀ key, ((runKernel owner (Ledger.bound initialVersion) calls).topicIndex.get key).isSome →
      ∃ i, WrittenBy initialVersion (runLog owner (Ledger.bound initialVersion) calls) i
        key.position) ∧
    (∀ i j p q, i < j →
      WrittenBy initialVersion (runLog owner (Ledger.bound initialVersion) calls) i p →
      WrittenBy initialVersion (runLog owner (Ledger.bound initialVersion) calls) j q → p < q) ∧
    ((∀ c ∈ calls, kernelPurges c = false) →
      ∀ (i j : ℕ) (c d : Committed) (key key' : IndexKey), i < j →
      (runLog owner (Ledger.bound initialVersion) calls)[i]? = some c →
      (runLog owner (Ledger.bound initialVersion) calls)[j]? = some d →
      ((runKernel owner (Ledger.bound initialVersion) calls).topicIndex.get key).isSome →
      ((runKernel owner (Ledger.bound initialVersion) calls).topicIndex.get key').isSome →
      key.position.batchId = c.batch.batchId → key'.position.batchId = d.batch.batchId →
      key.position < key'.position) := by
  have hlog : CommitLog initialVersion (runLog owner (Ledger.bound initialVersion) calls)
      (runKernel owner (Ledger.bound initialVersion) calls) := commitLog_run
  refine ⟨hlog.version, fun c => ?_, hlog.expected, fun key r hr => (hlog.outbox key r hr).2,
    hlog.index, fun i j p q hij hp hq => hp.lt hq hij, ?_⟩
  · have hnext : CommitLog initialVersion (runLog owner (Ledger.bound initialVersion) (calls ++ [c]))
        (runKernel owner (Ledger.bound initialVersion) (calls ++ [c])) := commitLog_run
    have hversion := hnext.version
    rw [runLog_append, List.length_append, ← Nat.add_assoc, ← hlog.version] at hversion
    unfold runKernel at hversion ⊢
    rw [run_append] at hversion
    simpa [runLog] using hversion
  · intro hpurge i j c d key key' hij hi hj hkey hkey' hid hid'
    have hnodup : ((runLog owner (Ledger.bound initialVersion) calls).map
        fun c => c.batch.batchId).Nodup := distinctIds_run hpurge
    obtain ⟨i', hp⟩ := hlog.index key hkey
    obtain ⟨j', hq⟩ := hlog.index key' hkey'
    obtain ⟨c', hc', hcid, -⟩ := id hp
    obtain ⟨d', hd', hdid, -⟩ := id hq
    obtain rfl : i = i' := eq_of_batchId_eq hnodup hi hc' (hid.symm.trans hcid)
    obtain rfl : j = j' := eq_of_batchId_eq hnodup hj hd' (hid'.symm.trans hdid)
    exact hp.lt hq hij

end Medulla.Mutation.CommitOrder
