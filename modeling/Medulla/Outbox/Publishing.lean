import Medulla.Mutation.CommitOrder
import Medulla.Outbox.Views

/-! # The topic index names the outbox

Every index row names the outbox row it was made from, and every outbox row is indexed. -/

namespace Medulla.Outbox.Publishing

open Library.Checked Types.Batch Types.Records Mutation.State Mutation.Commit Mutation.Transitions
open Mutation.Runs Mutation.CommitOrder Outbox.Index Frames Machine Views
open Library.OrderedTable (Table)

variable {identity : MutationScopeIdentity}

def indexKeyOf (r : MutationOutboxRecord) : IndexKey :=
  ⟨r.intent.topic, positionAt r (r.commitSequence.getD 0)⟩

def outboxKeyOf (r : MutationOutboxRecord) : OutboxKey := ⟨r.batchId, r.ordinal⟩

structure Indexed (l : Ledger) : Prop where
  index : ∀ key, (l.topicIndex.get key).isSome = true →
    ∃ r, l.outbox.get key.position.row = some r ∧ key = indexKeyOf r
  outbox : ∀ key r, l.outbox.get key = some r → key = outboxKeyOf r ∧
    (l.topicIndex.get (indexKeyOf r)).isSome = true ∧
    (∃ n, r.commitSequence = some n ∧ n ≤ l.version) ∧ ∃ b, IsCommitted l r.batchId b

structure Extends (l l' : Ledger) : Prop where
  kept : ∀ key, (l.topicIndex.get key).isSome = true → (l'.topicIndex.get key).isSome = true
  later : ∀ key, (l'.topicIndex.get key).isSome = true → (l.topicIndex.get key).isSome = false →
    l.version < key.position.sequence
  version : l.version ≤ l'.version

section
variable {l l' l'' : Ledger}

theorem Extends.refl (l : Ledger) : Extends l l where
  kept _ h := h
  later _ h h' := absurd (h.symm.trans h') (by simp)
  version := le_rfl

theorem Extends.of_eq (hindex : l'.topicIndex = l.topicIndex) (hversion : l.version ≤ l'.version) :
    Extends l l' where
  kept key h := by
    rw [hindex]
    exact h
  later key h h' := by
    rw [hindex] at h
    exact absurd (h.symm.trans h') (by simp)
  version := hversion

theorem Extends.trans (h : Extends l l') (h' : Extends l' l'') : Extends l l'' where
  kept key hk := h'.kept key (h.kept key hk)
  later key hk hn := by
    cases hm : (l'.topicIndex.get key).isSome with
    | true => exact h.later key hm hn
    | false => exact lt_of_le_of_lt h.version (h'.later key hk hm)
  version := le_trans h.version h'.version

theorem Indexed.congr (h : Indexed l) (houtbox : l'.outbox = l.outbox)
    (hindex : l'.topicIndex = l.topicIndex) (hversion : l.version ≤ l'.version)
    (hcommitted : ∀ id b, IsCommitted l id b → IsCommitted l' id b) : Indexed l' where
  index := by
    rw [hindex, houtbox]
    exact h.index
  outbox := by
    rw [hindex, houtbox]
    intro key r hr
    obtain ⟨hkey, hin, ⟨n, hn, hle⟩, b, hb⟩ := h.outbox key r hr
    exact ⟨hkey, hin, ⟨n, hn, le_trans hle hversion⟩, b, hcommitted _ b hb⟩

/-! ### Positions -/

theorem Indexed.sequence_le (h : Indexed l) {key : IndexKey}
    (hkey : (l.topicIndex.get key).isSome = true) : key.position.sequence ≤ l.version := by
  obtain ⟨r, hr, rfl⟩ := h.index key hkey
  obtain ⟨-, -, ⟨n, hn, hle⟩, -⟩ := h.outbox _ r hr
  simpa [indexKeyOf, positionAt, hn] using hle

theorem Indexed.injective (h : Indexed l) (topic : String) :
    RowInjective { p | positionExists l topic p = true } := by
  intro p hp q hq hrow
  obtain ⟨r, hr, hkey⟩ := h.index ⟨topic, p⟩ hp
  obtain ⟨r', hr', hkey'⟩ := h.index ⟨topic, q⟩ hq
  rw [hrow] at hr
  rw [hr] at hr'
  rw [← Option.some.inj hr', ← hkey] at hkey'
  exact (IndexKey.mk.inj hkey').2.symm

theorem Indexed.indexOf_injective (h : Indexed l) (consumer : String) :
    RowInjective (indexOf l consumer) := by
  intro p hp q hq hrow
  obtain ⟨topic, ht, hp⟩ := hp
  obtain ⟨topic', ht', hq⟩ := hq
  rw [ht] at ht'
  obtain rfl := Option.some.inj ht'
  exact h.injective topic p hp q hq hrow

/-- **A ledger that publishes more** lets the index of every consumer grow at its end. -/
theorem Extends.grows {consumer : String} {clock : ℕ} (h : Extends l l') (hl : Indexed l)
    (hl' : Indexed l') (hconsumers : l'.consumers = l.consumers)
    (hview : view l' consumer = { view l consumer with index := indexOf l' consumer }) :
    Steps consumer clock (view l consumer) [] (view l' consumer) := by
  rw [hview]
  refine .single (.grow _ ?_ ?_ (hl'.indexOf_injective consumer))
  · rintro p ⟨topic, ht, hp⟩
    exact ⟨topic, by rw [hconsumers]; exact ht, h.kept _ hp⟩
  · rintro p ⟨topic, ht, hp⟩ hnew q ⟨topic', ht', hq⟩
    rw [hconsumers, ht'] at ht
    obtain rfl := Option.some.inj ht
    refine OutboxPosition.lt_of_sequence_lt ?_
    have hold : (l.topicIndex.get ⟨topic', p⟩).isSome = false := by
      by_contra hin
      exact hnew ⟨topic', ht', (Bool.not_eq_false _).mp hin⟩
    exact lt_of_le_of_lt (hl.sequence_le hq) (h.later _ hp hold)

/-! ### The rows of a commit -/

theorem effectiveOutbox_ordinals {terminal : Bool} {result : Option ResultMsgpack} :
    ∀ {intents : List MutationOutboxIntent} {n : ℕ} {entries : List (ℕ × MutationOutboxIntent)},
      effectiveOutbox terminal result n intents = .ok entries →
      (∀ e ∈ entries, n ≤ e.1) ∧ (entries.map Prod.fst).Nodup
  | [], _, _, h => by
    rw [← Except.ok.inj h]
    exact ⟨fun e he => absurd he List.not_mem_nil, List.nodup_nil⟩
  | intent :: rest, n, entries, h => by
    have hskip : effectiveOutbox terminal result (n + 1) rest = .ok entries →
        (∀ e ∈ entries, n ≤ e.1) ∧ (entries.map Prod.fst).Nodup := by
      intro hrest
      obtain ⟨hle, hnodup⟩ := effectiveOutbox_ordinals hrest
      exact ⟨fun e he => le_trans (Nat.le_succ n) (hle e he), hnodup⟩
    unfold effectiveOutbox at h
    split at h
    · exact hskip h
    · obtain ⟨applies, -, h⟩ := unbind h
      split at h
      · simp only [bind_eq_ok, pure_eq_ok] at h
        obtain ⟨_, -, tail, htail, rfl⟩ := h
        obtain ⟨hle, hnodup⟩ := effectiveOutbox_ordinals htail
        refine ⟨fun e he => ?_, ?_⟩
        · rcases List.mem_cons.mp he with rfl | he
          · exact le_rfl
          · exact le_trans (Nat.le_succ n) (hle e he)
        · rw [List.map_cons, List.nodup_cons]
          refine ⟨fun hin => ?_, hnodup⟩
          obtain ⟨e, he, heq⟩ := List.mem_map.mp hin
          have hlt := hle e he
          omega
      · exact hskip h

theorem foldl_outbox_of_not_mem {key : OutboxKey} :
    ∀ (rs : List MutationOutboxRecord) (l : Ledger), key ∉ rs.map outboxKeyOf →
      (rs.foldl putOutboxRow l).outbox.get key = l.outbox.get key
  | [], _, _ => rfl
  | r :: rs, l, h => by
    rw [List.map_cons, List.mem_cons, not_or] at h
    rw [List.foldl_cons, foldl_outbox_of_not_mem rs _ h.2]
    exact Table.get_insert_of_ne _ _ h.1

theorem foldl_outbox_of_mem :
    ∀ (rs : List MutationOutboxRecord) (l : Ledger), (rs.map outboxKeyOf).Nodup →
      ∀ r ∈ rs, (rs.foldl putOutboxRow l).outbox.get (outboxKeyOf r) = some r
  | [], _, _, r, hr => absurd hr List.not_mem_nil
  | q :: rs, l, h, r, hr => by
    rw [List.map_cons, List.nodup_cons] at h
    rw [List.foldl_cons]
    rcases List.mem_cons.mp hr with rfl | hr
    · rw [foldl_outbox_of_not_mem rs _ h.1]
      exact Table.get_insert_self _ _ _
    · exact foldl_outbox_of_mem rs _ h.2 r hr

theorem foldl_index_kept {key : IndexKey} :
    ∀ (rs : List MutationOutboxRecord) (l : Ledger), (l.topicIndex.get key).isSome = true →
      ((rs.foldl putOutboxRow l).topicIndex.get key).isSome = true
  | [], _, h => h
  | r :: rs, l, h => by
    refine foldl_index_kept rs _ ?_
    rw [putOutboxRow_index, Table.get_insert]
    split_ifs
    · rfl
    · exact h

theorem foldl_index_of_mem : ∀ (rs : List MutationOutboxRecord) (l : Ledger), ∀ r ∈ rs,
      ((rs.foldl putOutboxRow l).topicIndex.get (indexKeyOf r)).isSome = true
  | [], _, r, hr => absurd hr List.not_mem_nil
  | q :: rs, l, r, hr => by
    rcases List.mem_cons.mp hr with rfl | hr
    · refine foldl_index_kept rs _ ?_
      rw [putOutboxRow_index, indexKeyOf, Table.get_insert_self]
      rfl
    · exact foldl_index_of_mem rs _ r hr

/-- **A commit** publishes its rows after everything published before. -/
theorem Indexed.finishes {b : MutationBatch} {record : MutationBatchRecord}
    {replay : Option ReplayReceipt} (h : Indexed l)
    (hfree : ∀ r, ¬ IsCommitted l b.batchId r) (hfin : Finishes b record replay l l') :
    Indexed l' ∧ Extends l l' := by
  obtain ⟨l₁, l₂, entries, hrow, heffective, hready, -, hout⟩ := hfin.rows
  obtain ⟨houtbox, hindex⟩ : l₂.outbox = l.outbox ∧ l₂.topicIndex = l.topicIndex := by
    rw [readied_frame hready, replayRow_frame hrow]
    exact ⟨rfl, rfl⟩
  have hversion : l'.version = l.version + 1 := by rw [hfin.frame]
  have hcommitted : ∀ id r, IsCommitted l id r → IsCommitted l' id r := by
    intro id r hr
    refine hr.insert_of_ne (by rw [hfin.frame]) ?_
    rintro rfl
    exact hfree r hr
  have hnodup : ((entries.map (outboxRecord b record.committedVersion (l.version + 1))).map
      outboxKeyOf).Nodup := by
    have hordinals := (effectiveOutbox_ordinals heffective).2
    rw [List.map_map, show outboxKeyOf ∘ outboxRecord b record.committedVersion (l.version + 1) =
      (fun n : ℕ => (⟨b.batchId, n⟩ : OutboxKey)) ∘ Prod.fst from rfl, ← List.map_map]
    exact hordinals.map fun m n hmn => (OutboxKey.mk.inj hmn).2
  have hnew : ∀ r ∈ entries.map (outboxRecord b record.committedVersion (l.version + 1)),
      r.batchId = b.batchId ∧ r.commitSequence = some (l.version + 1) := by
    intro r hr
    obtain ⟨e, -, rfl⟩ := List.mem_map.mp hr
    exact ⟨rfl, rfl⟩
  have hkept : ∀ key r, l.outbox.get key = some r → l'.outbox.get key = some r := by
    intro key r hr
    rw [hout, foldl_outbox_of_not_mem _ _ ?_, houtbox]
    · exact hr
    · intro hmem
      obtain ⟨q, hq, hkey⟩ := List.mem_map.mp hmem
      obtain ⟨hkeyr, -, -, c, hc⟩ := h.outbox key r hr
      have hid : r.batchId = b.batchId := by
        rw [← (hnew q hq).1]
        exact congrArg OutboxKey.batchId (hkeyr.symm.trans hkey.symm)
      rw [hid] at hc
      exact hfree c hc
  refine ⟨⟨fun key hkey => ?_, fun key r hr => ?_⟩, ⟨fun key hkey => ?_, fun key hkey hold => ?_, ?_⟩⟩
  · rw [hout] at hkey
    rcases index_of_foldl _ hkey with ⟨r, hr, rfl⟩ | hkey
    · refine ⟨r, ?_, rfl⟩
      rw [hout]
      exact foldl_outbox_of_mem _ _ hnodup r hr
    · rw [hindex] at hkey
      obtain ⟨r, hr, heq⟩ := h.index key hkey
      exact ⟨r, hkept _ r hr, heq⟩
  · rw [hout] at hr
    rcases outbox_of_foldl _ hr with ⟨hmem, hkey⟩ | hold
    · refine ⟨hkey, ?_, ⟨l.version + 1, (hnew r hmem).2, hversion.ge⟩, record, ?_, hfin.committed⟩
      · rw [hout]
        exact foldl_index_of_mem _ _ r hmem
      · rw [(hnew r hmem).1, hfin.frame]
        exact Table.get_insert_self _ _ _
    · rw [houtbox] at hold
      obtain ⟨hkey, hin, ⟨n, hn, hle⟩, c, hc⟩ := h.outbox key r hold
      refine ⟨hkey, ?_, ⟨n, hn, by omega⟩, c, hcommitted _ c hc⟩
      rw [hout]
      exact foldl_index_kept _ _ (by rw [hindex]; exact hin)
  · rw [hout]
    exact foldl_index_kept _ _ (by rw [hindex]; exact hkey)
  · rw [hout] at hkey
    rcases index_of_foldl _ hkey with ⟨r, hr, rfl⟩ | hkey
    · simp [positionAt, (hnew r hr).2]
    · rw [hindex] at hkey
      exact absurd (hkey.symm.trans hold) (by simp)
  · omega

/-! ### Backfill -/

theorem backfillRow_same {key : OutboxKey} {r : MutationOutboxRecord} {fresh : Bool}
    (hin : (l.topicIndex.get (indexKeyOf r)).isSome = true)
    (h : backfillRow identity key r l = .ok (fresh, l')) : l' = l := by
  unfold backfillRow at h
  simp only [bind_eq_ok] at h
  obtain ⟨_, -, _, -, _, -, n, hn, h⟩ := h
  have hexists : positionExists l r.intent.topic (positionAt r n) = true := by
    simpa [indexKeyOf, sequenceForBackfill_ok hn, positionExists] using hin
  rw [if_pos hexists] at h
  exact (Prod.mk.inj (pure_eq_ok.mp h)).2.symm

theorem backfillRows_same :
    ∀ {rows : List (OutboxKey × MutationOutboxRecord)} {n m : ℕ} {last last' : Option OutboxKey}
      {l l' : Ledger}, (∀ r ∈ rows, (l.topicIndex.get (indexKeyOf r.2)).isSome = true) →
      backfillRows identity rows n last l = .ok (m, last', l') → l' = l
  | [], _, _, _, _, _, _, _, h => by
    obtain ⟨-, hrest⟩ := Prod.mk.inj (Except.ok.inj h)
    exact (Prod.mk.inj hrest).2.symm
  | (key, r) :: rest, n, m, last, last', l, l', hrows, h => by
    obtain ⟨⟨fresh, l₁⟩, h1, h2⟩ := unbind h
    obtain rfl := backfillRow_same (hrows _ (.head _)) h1
    exact backfillRows_same (fun q hq => hrows q (.tail _ hq)) h2

/-- **A backfill of a scope that was indexed as it was written adds nothing.** -/
theorem Indexed.backfill {outcome : OutboxBackfillOutcome} (h : Indexed l)
    (hpage : backfillPage identity l = .ok (outcome, l')) :
    l' = { l with backfill := l'.backfill } := by
  unfold backfillPage at hpage
  simp only [bind_eq_ok] at hpage
  obtain ⟨state, -, ⟨n, last, l₁⟩, hrows, hend⟩ := hpage
  have hindexed : ∀ r ∈ (backfillRemaining state l).take maxClaimScanRows,
      (l.topicIndex.get (indexKeyOf r.2)).isSome = true := by
    intro r hr
    have hmem : r ∈ l.outbox.rows := (List.mem_filter.mp (List.mem_of_mem_take hr)).1
    exact (h.outbox r.1 r.2 (Table.mem_rows.mp hmem)).2.1
  obtain rfl := backfillRows_same hindexed hrows
  rw [← (Prod.mk.inj (pure_eq_ok.mp hend)).2]

/-! ### Runs -/

/-- **Every move keeps the index and the outbox naming each other**, as long as the generation is
not purged. -/
theorem indexed_move {receipts : Bool} {es : List Committed}
    (m : Move identity false receipts l es l') (h : Indexed l) : Indexed l' ∧ Extends l l' := by
  have hsame : l'.outbox = l.outbox → l'.topicIndex = l.topicIndex → l'.version = l.version →
      Indexed l' ∧ Extends l l' := by
    intro houtbox hindex hversion
    exact ⟨h.congr houtbox hindex hversion.ge fun _ _ => m.keeps_committed,
      .of_eq hindex hversion.ge⟩
  cases m with
  | deliver _ same =>
    have hframe := eq_of_core same
    exact hsame (by rw [hframe]) (by rw [hframe]) (by rw [hframe])
  | backfill _ page =>
    have hframe := h.backfill page
    exact hsame (by rw [hframe]) (by rw [hframe]) (by rw [hframe])
  | receipt operation nonce receipt id _ recorded =>
    have hframe := recordOperation_frame recorded
    exact hsame (by rw [hframe]) (by rw [hframe]) (by rw [hframe])
  | purge allowed _ => cases allowed
  | reopen _ state => exact hsame rfl rfl rfl
  | nonce nonce key _ => exact hsame rfl rfl rfl
  | prepare b e preparedAtMs payload _ _ _ _ _ => exact hsame rfl rfl rfl
  | dropPayload id => exact hsame rfl rfl rfl
  | finish b record replay _ _ fresh finishes =>
    refine h.finishes (fun r hr => ?_) finishes
    rw [IsCommitted, fresh.freeId] at hr
    cases hr.1
  | sagaCommit b record prior _ stored prepared _ finishes =>
    refine h.finishes (fun r hr => ?_) finishes
    obtain ⟨h1, h2⟩ := hr
    rw [stored] at h1
    rw [← Option.some.inj h1, prepared] at h2
    cases h2

theorem indexed_moves {receipts : Bool} {es : List Committed}
    (m : Moves identity false receipts l es l') (h : Indexed l) : Indexed l' ∧ Extends l l' := by
  induction m with
  | refl => exact ⟨h, .refl _⟩
  | tail _ last ih =>
    obtain ⟨hmid, hext⟩ := ih
    obtain ⟨hend, hext'⟩ := indexed_move last hmid
    exact ⟨hend, hext.trans hext'⟩

theorem indexed_bound (version : ℕ) : Indexed (Ledger.bound version) where
  index _ h := by cases h
  outbox _ _ h := by cases h

end

end Medulla.Outbox.Publishing
