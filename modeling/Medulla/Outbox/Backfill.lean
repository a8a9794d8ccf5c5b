import Medulla.Outbox.Ordering

/-! # Backfilling the topic index

A scope written before the topic index existed is indexed page by page, while commits go on adding rows
that are indexed as they are written.

* one page: `Covers.page`; one move: `covers_move`;
* every run: `complete_backfill_indexes_every_row`. -/

namespace Medulla.Outbox.Backfill

open Library.Checked Types.Batch Types.Records Mutation.State Mutation.Commit Mutation.Kernel
open Mutation.Transitions Mutation.Runs Mutation.CommitOrder Mutation.RouteFence Outbox.Index
open Rows Claim Frames Publishing
open Library.OrderedTable (Table)

/-! ### Rows that are indexed -/

def scanEnd : OutboxKey := ⟨maxTextSentinel, u32Max⟩

def isIndexed (l : Ledger) (r : MutationOutboxRecord) : Bool :=
  r.commitSequence.any fun sequence => positionExists l r.intent.topic (positionAt r sequence)

def IndexGrows (l l' : Ledger) : Prop :=
  ∀ key, (l.topicIndex.get key).isSome = true → (l'.topicIndex.get key).isSome = true

section
variable {identity : MutationScopeIdentity} {l l' l'' : Ledger} {r : MutationOutboxRecord}
  {key : OutboxKey} {state : IndexBackfillState}

theorem isIndexed_of_sequence {n : ℕ} (hn : r.commitSequence = some n)
    (h : positionExists l r.intent.topic (positionAt r n) = true) : isIndexed l r = true := by
  rw [isIndexed, hn]
  exact h

theorem IndexGrows.refl (l : Ledger) : IndexGrows l l := fun _ h => h

theorem IndexGrows.trans (h : IndexGrows l l') (h' : IndexGrows l' l'') : IndexGrows l l'' :=
  fun key hkey => h' key (h key hkey)

theorem IndexGrows.isIndexed (h : IndexGrows l l') (hr : isIndexed l r = true) :
    isIndexed l' r = true := by
  obtain ⟨n, hn, hexists⟩ := (Option.any_eq_true _ _).mp hr
  exact isIndexed_of_sequence hn (h _ hexists)

/-! ### The invariant -/

/-- A row that the backfill can never reach is indexed, and so is every row a backfill state claims to
have examined. -/
structure Covers (l : Ledger) : Prop where
  beyond : ∀ key r, l.outbox.get key = some r → ¬ key ≤ scanEnd → isIndexed l r = true
  examined : ∀ state, l.backfill = some state → ∀ key r, l.outbox.get key = some r →
    (state.complete = true ∨ state.cursor.any (key ≤ ·) = true) → isIndexed l r = true

theorem Covers.congr (h : Covers l) (houtbox : l'.outbox = l.outbox)
    (hindex : l'.topicIndex = l.topicIndex) (hbackfill : l'.backfill = l.backfill) : Covers l' := by
  have hsame : ∀ r, Backfill.isIndexed l' r = Backfill.isIndexed l r := by
    intro r
    unfold Backfill.isIndexed positionExists
    rw [hindex]
  refine ⟨fun key r hr => ?_, fun state hstate key r hr => ?_⟩
  · rw [houtbox] at hr
    rw [hsame]
    exact h.beyond key r hr
  · rw [houtbox] at hr
    rw [hbackfill] at hstate
    rw [hsame]
    exact h.examined state hstate key r hr

theorem hasOutboxRows_false (h : hasOutboxRows l = false) (hr : l.outbox.get key = some r) :
    ¬ key ≤ scanEnd := by
  have hrow := List.any_eq_false.mp h (key, r) (Table.mem_rows.mpr hr)
  simpa [scanEnd] using hrow

/-- **A state that says complete has every row of the scope indexed.** -/
theorem Covers.complete (h : Covers l) (hread : readBackfillState identity l = .ok state)
    (hcomplete : state.complete = true) (hr : l.outbox.get key = some r) : isIndexed l r = true := by
  unfold readBackfillState at hread
  cases hb : l.backfill with
  | none =>
    simp only [hb] at hread
    rw [← Except.ok.inj hread] at hcomplete
    exact h.beyond key r hr (hasOutboxRows_false (by simpa using hcomplete) hr)
  | some stored =>
    simp only [hb, bind_eq_ok, pure_eq_ok] at hread
    obtain ⟨_, -, rfl⟩ := hread
    exact h.examined stored hb key r hr (Or.inl hcomplete)

/-! ### A backfill page -/

theorem backfillRow_indexes {fresh : Bool} (h : backfillRow identity key r l = .ok (fresh, l')) :
    IndexGrows l l' ∧ isIndexed l' r = true := by
  unfold backfillRow at h
  simp only [bind_eq_ok] at h
  obtain ⟨_, -, _, -, _, -, n, hn, h⟩ := h
  have hsequence := sequenceForBackfill_ok hn
  split_ifs at h with hexists
  · rw [← (Prod.mk.inj (pure_eq_ok.mp h)).2]
    exact ⟨.refl l, isIndexed_of_sequence hsequence hexists⟩
  · rw [← (Prod.mk.inj (pure_eq_ok.mp h)).2]
    refine ⟨fun key hkey => ?_, isIndexed_of_sequence hsequence ?_⟩
    · rw [insertIndexRow, Table.get_insert]
      split_ifs
      · rfl
      · exact hkey
    · rw [positionExists, insertIndexRow, Table.get_insert_self]
      rfl

/-- **The rows of a page are indexed**, and the cursor names the last of them. -/
theorem backfillRows_indexes :
    ∀ {rows : List (OutboxKey × MutationOutboxRecord)} {n m : ℕ} {last last' : Option OutboxKey}
      {l l' : Ledger}, backfillRows identity rows n last l = .ok (m, last', l') →
      IndexGrows l l' ∧ (∀ row ∈ rows, isIndexed l' row.2 = true) ∧
        (rows = [] ∧ last' = last ∨ ∃ row ∈ rows, last' = some row.1)
  | [], _, _, _, _, _, _, h => by
    obtain ⟨-, h⟩ := Prod.mk.inj (Except.ok.inj h)
    obtain ⟨hlast, rfl⟩ := Prod.mk.inj h
    exact ⟨.refl _, fun row hrow => absurd hrow List.not_mem_nil, Or.inl ⟨rfl, hlast.symm⟩⟩
  | (key, r) :: rest, n, m, last, last', l, l', h => by
    obtain ⟨⟨fresh, l₁⟩, h1, h2⟩ := unbind h
    obtain ⟨hgrows, hindexed⟩ := backfillRow_indexes h1
    obtain ⟨hgrows', hrest, hlast⟩ := backfillRows_indexes h2
    refine ⟨hgrows.trans hgrows', fun row hrow => ?_, Or.inr ?_⟩
    · rcases List.mem_cons.mp hrow with rfl | hrow
      · exact hgrows'.isIndexed hindexed
      · exact hrest row hrow
    · rcases hlast with ⟨-, hlast⟩ | ⟨row, hrow, hlast⟩
      · exact ⟨(key, r), .head _, hlast⟩
      · exact ⟨row, .tail _ hrow, hlast⟩

theorem mem_take_of_le {rows : List (OutboxKey × MutationOutboxRecord)} {n : ℕ}
    {a b : OutboxKey × MutationOutboxRecord} (hsorted : rows.Pairwise fun x y => x.1 < y.1)
    (ha : a ∈ rows) (hb : b ∈ rows.take n) (hle : a.1 ≤ b.1) : a ∈ rows.take n := by
  rw [← List.take_append_drop n rows] at ha hsorted
  rcases List.mem_append.mp ha with ha | ha
  · exact ha
  · exact absurd ((List.pairwise_append.mp hsorted).2.2 b hb a ha) (not_lt.mpr hle)

/-- **One bounded page keeps the invariant.** -/
theorem Covers.page {outcome : OutboxBackfillOutcome} (h : Covers l)
    (hpage : backfillPage identity l = .ok (outcome, l')) : Covers l' := by
  have hframe := backfillPage_frame hpage
  unfold backfillPage at hpage
  simp only [bind_eq_ok] at hpage
  obtain ⟨state, hread, ⟨n, last, l₁⟩, hrows, hend⟩ := hpage
  obtain ⟨hgrows, hindexed, hlast⟩ := backfillRows_indexes hrows
  have hl := (Prod.mk.inj (pure_eq_ok.mp hend)).2
  have hgrown : IndexGrows l l' := by
    rw [← hl]
    exact hgrows
  have hon : ∀ row ∈ (backfillRemaining state l).take maxClaimScanRows,
      Backfill.isIndexed l' row.2 = true := by
    intro row hrow
    rw [← hl]
    exact hindexed row hrow
  have houtbox : l'.outbox = l.outbox := by rw [hframe]
  have hbeyond : ∀ key r, l.outbox.get key = some r → ¬ key ≤ scanEnd →
      Backfill.isIndexed l' r = true := fun key r hr hend => hgrown.isIndexed (h.beyond key r hr hend)
  -- what the state had examined before the page
  have hbefore : ∀ key r, l.outbox.get key = some r → state.cursor.any (key ≤ ·) = true →
      Backfill.isIndexed l' r = true := by
    intro key r hr hcursor
    unfold readBackfillState at hread
    cases hb : l.backfill with
    | none =>
      simp only [hb] at hread
      rw [← Except.ok.inj hread] at hcursor
      cases hcursor
    | some stored =>
      simp only [hb, bind_eq_ok, pure_eq_ok] at hread
      obtain ⟨_, -, rfl⟩ := hread
      exact hgrown.isIndexed (h.examined stored hb key r hr (Or.inr hcursor))
  have hremaining : ∀ key r, l.outbox.get key = some r → ¬ state.cursor.any (key ≤ ·) = true →
      key ≤ scanEnd → (key, r) ∈ backfillRemaining state l := by
    intro key r hr hopen hle
    refine List.mem_filter.mpr ⟨Table.mem_rows.mpr hr, ?_⟩
    rw [Bool.and_eq_true]
    refine ⟨?_, decide_eq_true hle⟩
    cases hc : state.cursor with
    | none => rfl
    | some k =>
      rw [hc] at hopen
      simpa using hopen
  have hsorted : (backfillRemaining state l).Pairwise fun x y => x.1 < y.1 :=
    l.outbox.sorted.filter _
  refine ⟨fun key r hr => ?_, fun state' hstate' key r hr hclaimed => ?_⟩
  · rw [houtbox] at hr
    exact hbeyond key r hr
  · rw [houtbox] at hr
    rw [← hl] at hstate'
    obtain rfl := Option.some.inj hstate'
    by_cases hpassed : state.cursor.any (key ≤ ·) = true
    · exact hbefore key r hr hpassed
    by_cases hend : key ≤ scanEnd
    · have hmem := hremaining key r hr hpassed hend
      refine hon (key, r) ?_
      rcases hclaimed with hcomplete | hcursor
      · rw [List.take_of_length_le (of_decide_eq_true hcomplete)]
        exact hmem
      · rcases hlast with ⟨-, hlast⟩ | ⟨row, hrow, hlast⟩
        · simp only [hlast] at hcursor
          exact absurd hcursor hpassed
        · simp only [hlast] at hcursor
          refine mem_take_of_le hsorted hmem hrow ?_
          simpa using hcursor
    · exact hbeyond key r hr hend

/-! ### A commit -/

theorem Covers.ready (h : Covers l) (hready : markIndexReady identity l = .ok l') : Covers l' := by
  unfold markIndexReady at hready
  cases hb : l.backfill with
  | none =>
    simp only [hb] at hready
    split_ifs at hready with hrows
    · rw [← Except.ok.inj hready]
      exact h
    · rw [← Except.ok.inj hready]
      refine ⟨h.beyond, fun state _ key r hr _ => ?_⟩
      exact h.beyond key r hr (hasOutboxRows_false (Bool.not_eq_true _ |>.mp hrows) hr)
  | some stored =>
    simp only [hb, bind_eq_ok] at hready
    obtain ⟨_, -, hready⟩ := hready
    split_ifs at hready with hcomplete
    · rw [← pure_eq_ok.mp hready]
      refine ⟨h.beyond, fun state _ key r hr _ => ?_⟩
      exact h.examined stored hb key r hr (Or.inl hcomplete)
    · rw [← pure_eq_ok.mp hready]
      exact h

theorem Covers.publish (h : Covers l) {rs : List MutationOutboxRecord}
    (hrs : ∀ r ∈ rs, r.commitSequence.isSome = true) : Covers (rs.foldl putOutboxRow l) := by
  have hgrows : IndexGrows l (rs.foldl putOutboxRow l) := fun key hkey => foldl_index_kept rs l hkey
  have hnew : ∀ r ∈ rs, Backfill.isIndexed (rs.foldl putOutboxRow l) r = true := by
    intro r hr
    obtain ⟨n, hn⟩ := Option.isSome_iff_exists.mp (hrs r hr)
    have hin := foldl_index_of_mem rs l r hr
    rw [indexKeyOf, hn] at hin
    exact isIndexed_of_sequence hn hin
  have hbackfill : (rs.foldl putOutboxRow l).backfill = l.backfill := by
    rw [foldl_putOutboxRow_frame]
  refine ⟨fun key r hr hend => ?_, fun state hstate key r hr hclaimed => ?_⟩
  · rcases outbox_of_foldl rs hr with ⟨hmem, -⟩ | hold
    · exact hnew r hmem
    · exact hgrows.isIndexed (h.beyond key r hold hend)
  · rw [hbackfill] at hstate
    rcases outbox_of_foldl rs hr with ⟨hmem, -⟩ | hold
    · exact hnew r hmem
    · exact hgrows.isIndexed (h.examined state hstate key r hold hclaimed)

/-- **A commit keeps the invariant**, wherever its batch id sorts. -/
theorem Covers.finishes {b : MutationBatch} {record : MutationBatchRecord}
    {replay : Option ReplayReceipt} (h : Covers l) (hfin : Finishes b record replay l l') :
    Covers l' := by
  obtain ⟨l₁, l₂, entries, hrow, -, hready, -, hout⟩ := hfin.rows
  have hstamped : Covers (stampBatch b l₁) := by
    refine h.congr ?_ ?_ ?_
    · rw [stampBatch, replayRow_frame hrow]
    · rw [stampBatch, replayRow_frame hrow]
    · rw [stampBatch, replayRow_frame hrow]
  have hmarked : Covers l₂ := by
    unfold Readied at hready
    split_ifs at hready
    · rw [hready]
      exact hstamped
    · exact hstamped.ready hready
  rw [hout]
  refine hmarked.publish fun r hr => ?_
  obtain ⟨e, -, rfl⟩ := List.mem_map.mp hr
  rfl

/-! ### Runs -/

/-- **Every move keeps the invariant.** -/
theorem covers_move {purges receipts : Bool} {es : List Committed}
    (m : Mutation.Runs.Move identity purges receipts l es l') (h : Covers l) : Covers l' := by
  cases m with
  | deliver _ same =>
    have hframe := eq_of_core same
    exact h.congr (by rw [hframe]) (by rw [hframe]) (by rw [hframe])
  | backfill _ page => exact h.page page
  | reopen _ state closed =>
    refine ⟨h.beyond, fun state' hstate' key r hr hclaimed => ?_⟩
    rw [← Option.some.inj hstate', closed] at hclaimed
    rcases hclaimed with hclaimed | hclaimed
    · cases hclaimed
    · cases hclaimed
  | receipt operation nonce receipt id _ recorded =>
    have hframe := recordOperation_frame recorded
    exact h.congr (by rw [hframe]) (by rw [hframe]) (by rw [hframe])
  | purge allowed _ =>
    refine ⟨fun key r hr => ?_, fun state hstate => ?_⟩
    · cases hr
    · cases hstate
  | nonce nonce key _ => exact h.congr rfl rfl rfl
  | prepare b e preparedAtMs payload _ _ _ _ _ => exact h.congr rfl rfl rfl
  | dropPayload id => exact h.congr rfl rfl rfl
  | finish b record replay _ _ _ finishes => exact h.finishes finishes
  | sagaCommit b record prior _ _ _ _ finishes => exact h.finishes finishes

theorem covers_moves {purges receipts : Bool} {es : List Committed}
    (m : Moves identity purges receipts l es l') (h : Covers l) : Covers l' := by
  induction m with
  | refl => exact h
  | tail _ last ih => exact covers_move last ih

theorem covers_run {owner : OwnedStoreHandle} (calls : List KernelCall) (h : Covers l) :
    Covers (runKernel owner l calls) := by
  have hmoves : Moves owner.identity true true l (runLog owner l calls) (runKernel owner l calls) :=
    run_moves (fun _ _ _ => rfl) (fun _ _ _ => rfl)
  exact covers_moves hmoves h

/-! ### Claims -/

/-- **A claim waits for the index**: while the backfill state does not say complete, a claim that is
not refused is deferred and writes nothing. -/
theorem claim_waits {consumer : String} {budget budget' : OutboxClaimBudget}
    {outcome : OutboxClaimOutcome}
    (hpending : ∀ state, readBackfillState identity l = .ok state → state.complete = false)
    (h : Outbox.Claim.claim identity consumer budget l = .ok (outcome, budget', l')) :
    outcome = .deferral .indexBackfillPending ∧ l' = l := by
  unfold Outbox.Claim.claim claimIn at h
  simp only [bind_eq_ok] at h
  obtain ⟨_, -, ⟨outcome', l₁⟩, ⟨_, -, topic, -, _, -, pending, hread, hclaim⟩, h⟩ := h
  obtain ⟨rfl, hrest⟩ := Prod.mk.inj (pure_eq_ok.mp h)
  obtain ⟨-, rfl⟩ := Prod.mk.inj hrest
  unfold backfillPending at hread
  simp only [bind_eq_ok, pure_eq_ok] at hread
  obtain ⟨state, hstate, rfl⟩ := hread
  rw [hpending state hstate] at hclaim
  obtain ⟨rfl, rfl⟩ := Prod.mk.inj (pure_eq_ok.mp hclaim)
  exact ⟨rfl, rfl⟩

end

/-- **Bounded backfill completes the index**, from every scope without a backfill state in which no row
whose index row is missing sorts after the scanned range: a state that says complete has every outbox
row in the index, and until then every claim that is not refused is deferred and writes nothing. -/
theorem complete_backfill_indexes_every_row (owner : OwnedStoreHandle) (l : Ledger)
    (calls : List KernelCall) (hlegacy : l.backfill = none)
    (hscanned : ∀ key r, l.outbox.get key = some r → isIndexed l r = false → key ≤ scanEnd) :
    (∀ state, readBackfillState owner.identity (runKernel owner l calls) = .ok state →
      state.complete = true → ∀ key r, (runKernel owner l calls).outbox.get key = some r →
        isIndexed (runKernel owner l calls) r = true) ∧
    ((∀ state, readBackfillState owner.identity (runKernel owner l calls) = .ok state →
        state.complete = false) →
      ∀ consumer budget outcome budget' l',
        Outbox.Claim.claim owner.identity consumer budget (runKernel owner l calls) =
          .ok (outcome, budget', l') →
        outcome = .deferral .indexBackfillPending ∧ l' = runKernel owner l calls) := by
  have hstart : Covers l := by
    refine ⟨fun key r hr hend => ?_, fun state hstate => ?_⟩
    · by_contra hmissing
      exact hend (hscanned key r hr (Bool.not_eq_true _ |>.mp hmissing))
    · rw [hlegacy] at hstate
      cases hstate
  have hcovers : Covers (runKernel owner l calls) := covers_run calls hstart
  refine ⟨fun state hread hcomplete key r hr => hcovers.complete hread hcomplete hr, ?_⟩
  exact fun hpending consumer budget outcome budget' l' h => claim_waits hpending h

/-- An outbox row of a scope written before its index existed. -/
def legacyRecord (batchId : String) (version : ℕ) : MutationOutboxRecord :=
  ⟨batchId, 0, sampleOwner.identity, .graph version (version + 1), some (version + 1),
    ⟨"topic", "key", [], []⟩, 0⟩

/-- A scope with one outbox row for each batch id and no index. -/
def legacyLedger (ids : List String) : Ledger :=
  { Ledger.bound ids.length with
    outbox := ids.zipIdx.foldl (fun t entry =>
      t.insert ⟨entry.1, 0⟩ (legacyRecord entry.1 entry.2)) .empty }

theorem complete_backfill_indexes_every_row_sample :
    readBackfillState sampleOwner.identity (runKernel sampleOwner (legacyLedger ["a", "b"])
        [.backfillGate, .backfillPage]) = .ok ⟨some ⟨"b", 0⟩, true⟩ ∧
      isIndexed (legacyLedger ["a", "b"]) (legacyRecord "a" 0) = false ∧
      isIndexed (runKernel sampleOwner (legacyLedger ["a", "b"]) [.backfillGate, .backfillPage])
        (legacyRecord "a" 0) = true := by
  have hrows : ∀ row ∈ (legacyLedger ["a", "b"]).outbox.rows, row.1 ≤ scanEnd := by decide +kernel
  have hread : readBackfillState sampleOwner.identity (runKernel sampleOwner
        (legacyLedger ["a", "b"]) [.backfillGate, .backfillPage]) = .ok ⟨some ⟨"b", 0⟩, true⟩ ∧
      isIndexed (legacyLedger ["a", "b"]) (legacyRecord "a" 0) = false ∧
      (runKernel sampleOwner (legacyLedger ["a", "b"]) [.backfillGate, .backfillPage]).outbox.get
        ⟨"a", 0⟩ = some (legacyRecord "a" 0) := by decide +kernel
  have hall := complete_backfill_indexes_every_row sampleOwner (legacyLedger ["a", "b"])
    [.backfillGate, .backfillPage] rfl fun key r hr _ => hrows (key, r) (Table.mem_rows.mpr hr)
  exact ⟨hread.1, hread.2.1, hall.1 _ hread.1 rfl _ _ hread.2.2⟩

/-- The second row's batch id sorts after the sentinel: the backfill says complete without it. -/
theorem backfill_skips_row_beyond_sentinel :
    (legacyLedger ["a", maxTextSentinel ++ "a"]).backfill = none ∧
      (legacyRecord (maxTextSentinel ++ "a") 1).validate = .ok () ∧
      (legacyRecord (maxTextSentinel ++ "a") 1).commitSequence = some 2 ∧
      readBackfillState sampleOwner.identity (runKernel sampleOwner
        (legacyLedger ["a", maxTextSentinel ++ "a"]) [.backfillGate, .backfillPage]) =
          .ok ⟨some ⟨"a", 0⟩, true⟩ ∧
      (runKernel sampleOwner (legacyLedger ["a", maxTextSentinel ++ "a"])
        [.backfillGate, .backfillPage]).outbox.get ⟨maxTextSentinel ++ "a", 0⟩ =
          some (legacyRecord (maxTextSentinel ++ "a") 1) ∧
      isIndexed (runKernel sampleOwner (legacyLedger ["a", maxTextSentinel ++ "a"])
        [.backfillGate, .backfillPage]) (legacyRecord (maxTextSentinel ++ "a") 1) = false := by
  decide +kernel

end Medulla.Outbox.Backfill
