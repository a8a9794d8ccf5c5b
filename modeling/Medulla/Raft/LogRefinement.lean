import Medulla.Raft.LogStore

/-! # The log store against the log

The log that the store stands for: the entries that are neither truncated nor purged, and the last
purged id. A purge counts from its first durable write on, since that is when the id is recorded.

* one step: `Holds.step`; every run: `Holds.run`;
* the result: `log_store_answers`. -/

namespace Medulla.Raft.LogRefinement

open Library Library.Checked Library.OrderedTable LogStore

variable {range : Range}

section
variable {α : Type}

/-! ### The log -/

structure Log (α : Type) where
  entries : Table ℕ (Entry α)
  purged : Option LogId

namespace Log

def empty : Log α := ⟨.empty, none⟩

def lastEntryId (log : Log α) : Option LogId := log.entries.rows.getLast?.map fun row => row.2.logId

def later : Option LogId → Option LogId → Option LogId
  | none, b => b
  | some a, none => some a
  | some a, some b => if a.index < b.index then some b else some a

def lastLogId (log : Log α) : Option LogId := later log.purged log.lastEntryId

def truncateAfter (last : Option LogId) (log : Log α) : Log α :=
  { log with entries := log.entries.filter fun index _ => last.any fun id => index ≤ id.index }

def purge (id : LogId) (log : Log α) : Log α :=
  ⟨log.entries.filter fun index _ => id.index < index, some id⟩

def step (codec : Codec α) (log : Log α) : Event α → Log α
  | .append entries =>
    match encodeBatch codec entries 0 0 with
    | .ok _ => { log with entries := putEntries entries log.entries }
    | .error _ => log
  | .truncateAfter last => log.truncateAfter last
  | .purge id => log.purge id
  | .interruptedPurge id => log.purge id
  | .restart => log

end Log

def fromStart (index : ℕ) : Bound → Bool
  | .included i => i ≤ index
  | .excluded i => i < index
  | .unbounded => true

def toStop (index : ℕ) : Bound → Bool
  | .included i => index ≤ i
  | .excluded i => index < i
  | .unbounded => true

def Log.between (log : Log α) (range : Range) : List (Entry α) :=
  (log.entries.rows.filter fun row => fromStart row.1 range.start && toStop row.1 range.stop).map
    Prod.snd

/-! ### Runs -/

def Consecutive : ℕ → List (Entry α) → Prop
  | _, [] => True
  | n, entry :: rest => entry.logId.index = n ∧ n ≤ u64Max ∧ Consecutive (n + 1) rest

def LogId.le (a b : LogId) : Prop := a.term < b.term ∨ (a.term = b.term ∧ a.index ≤ b.index)

/-- **The calls of a run**: appends continue the log, purges do not go back, and indices are words. -/
def Proper (log : Log α) : Event α → Prop
  | .append entries => ∃ n, Consecutive n entries ∧ ∀ id, log.lastLogId = some id → n = id.index + 1
  | .truncateAfter last => ∀ id, last = some id → id.index ≤ u64Max
  | .purge id => id.index ≤ u64Max ∧ ∀ p, log.purged = some p → LogId.le p id
  | .interruptedPurge id => id.index ≤ u64Max ∧ ∀ p, log.purged = some p → LogId.le p id
  | .restart => True

/-- **The steps that do not slip.** -/
def Sound (log : Log α) : Event α → Prop
  | .truncateAfter (some id) => id.index < u64Max ∨ log.entries = .empty
  | .purge id => ∀ p, log.purged = some p → p = id ∨ p.index < id.index
  | .interruptedPurge id => ∀ index entry, log.entries.get index = some entry → id.index < index
  | _ => True

/-- A range that is read as the single index at one end of the domain, where there is an entry. -/
def Misread (log : Log α) (range : Range) : Prop :=
  (range.stop = .excluded 0 ∧ (inclusiveBounds range).1 = 0 ∧ (log.entries.get 0).isSome) ∨
    (range.start = .excluded u64Max ∧ u64Max ≤ (inclusiveBounds range).2 ∧
      (log.entries.get u64Max).isSome)

def Range.IsWord (range : Range) : Prop :=
  ∀ i, (range.start = .included i ∨ range.start = .excluded i ∨ range.stop = .included i ∨
    range.stop = .excluded i) → i ≤ u64Max

def WithinLimits (codec : Codec α) (log : Log α) (range : Range) : Prop :=
  (log.between range).length ≤ maxRaftLogBatchEntries ∧
    totalBytes codec (log.between range) ≤ maxRaftSnapshotBytes

/-- **The store answers as the log**: the ends of the log, and the entries of every range within the
limits unless the range is misread. -/
structure Answers (codec : Codec α) (s : Store α) (log : Log α) : Prop where
  lastPurged : (getLogState s).lastPurgedLogId = log.purged
  lastLog : (getLogState s).lastLogId = log.lastLogId
  notBelow : ∀ p, log.purged = some p →
    ∃ id, (getLogState s).lastLogId = some id ∧ p.index ≤ id.index
  reads : ∀ range, Range.IsWord range → WithinLimits codec log range →
    (tryGetLogEntries codec range s = .ok (log.between range) ↔ ¬ Misread log range)

/-! ### The store and the log together -/

abbrev Pair (α : Type) := Store α × Log α

def pairStep (codec : Codec α) (pair : Pair α) (e : Event α) : Pair α :=
  (step codec pair.1 e, pair.2.step codec e)

structure Holds (pair : Pair α) : Prop where
  log : pair.1.disk.log = pair.2.entries
  recorded : pair.1.disk.purged = pair.2.purged
  memory : pair.1.lastPurgedLogId = pair.2.purged
  indexed : ∀ i entry, pair.2.entries.get i = some entry →
    entry.logId.index = i ∧ i ≤ u64Max ∧ ∀ p, pair.2.purged = some p → p.index < i

theorem get_putEntries : ∀ {entries : List (Entry α)} {n : ℕ} {log : Table ℕ (Entry α)} {i : ℕ}
    {entry : Entry α}, Consecutive n entries → (putEntries entries log).get i = some entry →
      log.get i = some entry ∨ (entry.logId.index = i ∧ n ≤ i ∧ i ≤ u64Max)
  | [], _, _, _, _, _, h => .inl h
  | first :: rest, n, log, i, entry, ⟨hindex, hword, hrest⟩, h => by
    rcases get_putEntries hrest h with h | ⟨hi, hn, hmax⟩
    · rw [Table.get_insert] at h
      split_ifs at h with hi
      · cases h
        exact .inr ⟨hi.symm, by omega, by omega⟩
      · exact .inl h
    · exact .inr ⟨hi, by omega, hmax⟩

theorem purged_le_lastLogId {log : Log α} {p : LogId} (h : log.purged = some p) :
    ∃ id, log.lastLogId = some id ∧ p.index ≤ id.index := by
  unfold Log.lastLogId
  rw [h]
  cases log.lastEntryId with
  | none => exact ⟨p, rfl, le_rfl⟩
  | some b =>
    rw [Log.later]
    split_ifs with hlt
    · exact ⟨b, rfl, hlt.le⟩
    · exact ⟨p, rfl, le_rfl⟩

theorem holds_fresh : Holds ((Store.fresh, Log.empty) : Pair α) :=
  ⟨rfl, rfl, rfl, fun _ _ h => nomatch h⟩

theorem Holds.append {codec : Codec α} {pair : Pair α} {entries : List (Entry α)} (h : Holds pair)
    (hproper : Proper pair.2 (.append entries)) : Holds (pairStep codec pair (.append entries)) := by
  obtain ⟨n, hconsecutive, hnext⟩ := hproper
  unfold pairStep step Log.step LogStore.append
  dsimp only
  cases encodeBatch codec entries 0 0 with
  | error message => exact h
  | ok u =>
    refine ⟨congrArg (putEntries entries) h.log, h.recorded, h.memory, fun i entry hget => ?_⟩
    rcases get_putEntries hconsecutive hget with hget | ⟨hindex, hn, hword⟩
    · exact h.indexed i entry hget
    · refine ⟨hindex, hword, fun p hp => ?_⟩
      obtain ⟨id, hid, hle⟩ := @purged_le_lastLogId _ pair.2 p hp
      have hfirst := hnext id hid
      omega

theorem Holds.indexed_filter {pair : Pair α} (h : Holds pair) {keep : ℕ → Entry α → Bool} {i : ℕ}
    {entry : Entry α} (hget : (pair.2.entries.filter keep).get i = some entry) :
    keep i entry = true ∧ entry.logId.index = i ∧ i ≤ u64Max ∧
      ∀ p, pair.2.purged = some p → p.index < i := by
  rw [Table.get_filter, Option.filter_eq_some_iff] at hget
  exact ⟨hget.2, h.indexed i entry hget.1⟩

section
variable {codec : Codec α} {pair : Pair α}

theorem Holds.truncateAfter {last : Option LogId} (h : Holds pair)
    (hsound : Sound pair.2 (.truncateAfter last)) :
    Holds (pairStep codec pair (.truncateAfter last)) := by
  refine ⟨?_, h.recorded, h.memory, fun i entry hget => (h.indexed_filter hget).2⟩
  change raftLogDeleteFrom (truncateFrom last) pair.1.disk.log = _
  rw [h.log]
  refine Table.ext_get fun i => ?_
  change (raftLogDeleteFrom (truncateFrom last) pair.2.entries).get i =
    (pair.2.truncateAfter last).entries.get i
  unfold raftLogDeleteFrom Log.truncateAfter
  rw [Table.get_filter, Table.get_filter]
  cases last with
  | none => simp [truncateFrom]
  | some id =>
    rcases hsound with hindex | hempty
    · have hwrap : truncateFrom (some id) = id.index + 1 := by
        unfold u64Max at hindex
        change (id.index + 1) % 2 ^ 64 = id.index + 1
        omega
      rw [hwrap]
      simp only [Nat.lt_add_one_iff, Option.any_some]
    · simp [hempty]

theorem Holds.purge {id : LogId} (h : Holds pair)
    (hsound : Sound pair.2 (.purge id)) : Holds (pairStep codec pair (.purge id)) := by
  refine ⟨congrArg (raftLogPurgeUpto id.index) h.log, rfl, ?_, fun i entry hget => ?_⟩
  · change notePurged id pair.1.lastPurgedLogId = some id
    rw [h.memory]
    cases hpurged : pair.2.purged with
    | none => rfl
    | some p =>
      rcases hsound p hpurged with rfl | hlt
      · simp [notePurged]
      · simp [notePurged, hlt]
  · obtain ⟨hkept, hindex, hword, -⟩ := h.indexed_filter hget
    refine ⟨hindex, hword, fun p hp => ?_⟩
    cases hp
    exact of_decide_eq_true hkept

theorem Holds.interruptedPurge {id : LogId} (h : Holds pair)
    (hsound : Sound pair.2 (.interruptedPurge id)) :
    Holds (pairStep codec pair (.interruptedPurge id)) := by
  have hkept : pair.2.entries.filter (fun index _ => id.index < index) = pair.2.entries := by
    refine Table.ext_get fun i => ?_
    rw [Table.get_filter]
    cases hget : pair.2.entries.get i with
    | none => rfl
    | some entry => simp [hsound i entry hget]
  refine ⟨?_, rfl, rfl, fun i entry hget => ?_⟩
  · change pair.1.disk.log = _
    rw [h.log]
    exact hkept.symm
  · obtain ⟨hlater, hindex, hword, -⟩ := h.indexed_filter hget
    refine ⟨hindex, hword, fun p hp => ?_⟩
    cases hp
    exact of_decide_eq_true hlater

theorem Holds.restart (h : Holds pair) : Holds (pairStep codec pair .restart) :=
  ⟨h.log, h.recorded, h.recorded, h.indexed⟩

/-- **One step keeps the store on the log.** -/
theorem Holds.step {e : Event α}
    (hstep : Proper pair.2 e ∧ Sound pair.2 e) (h : Holds pair) : Holds (pairStep codec pair e) := by
  obtain ⟨hproper, hsound⟩ := hstep
  cases e with
  | append entries => exact h.append hproper
  | truncateAfter last => exact h.truncateAfter hsound
  | purge id => exact h.purge hsound
  | interruptedPurge id => exact h.interruptedPurge hsound
  | restart => exact h.restart

/-! ### Answers -/

end

/-- The corner of the index domain that a closed interval takes in beyond its range. -/
def Corner (range : Range) (i : ℕ) : Prop :=
  (range.stop = .excluded 0 ∧ (inclusiveBounds range).1 = 0 ∧ i = 0) ∨
    (range.start = .excluded u64Max ∧ u64Max ≤ (inclusiveBounds range).2 ∧ i = u64Max)

/-- **The closed interval of a range** has the indices of the range, and a corner of the domain. -/
theorem inclusiveBounds_iff {i : ℕ} (hrange : Range.IsWord range) (hi : i ≤ u64Max) :
    ((inclusiveBounds range).1 ≤ i ∧ i ≤ (inclusiveBounds range).2) ↔
      (fromStart i range.start = true ∧ toStop i range.stop = true) ∨ Corner range i := by
  obtain ⟨start, stop⟩ := range
  have hstart : ∀ a, start = .excluded a → a ≤ u64Max := fun a ha => hrange a (.inr (.inl ha))
  unfold Corner
  cases start with
  | included a => cases stop <;> simp [inclusiveBounds, fromStart, toStop] <;> omega
  | unbounded => cases stop <;> simp [inclusiveBounds, fromStart, toStop] <;> omega
  | excluded a =>
    have ha := hstart a rfl
    cases stop <;> simp [inclusiveBounds, fromStart, toStop, saturatingAdd] <;> omega

theorem rowsBetween_eq {pair : Pair α} (h : Holds pair)
    (hrange : Range.IsWord range) (hread : ¬ Misread pair.2 range) :
    rowsBetween pair.1.disk.log (inclusiveBounds range).1 (inclusiveBounds range).2 =
      pair.2.between range := by
  rw [h.log]
  refine congrArg _ (List.filter_congr fun row hrow => ?_)
  have hget : pair.2.entries.get row.1 = some row.2 := Table.mem_rows.mp hrow
  have hcorner : ¬ Corner range row.1 := by
    rintro (⟨hstop, hlo, hindex⟩ | ⟨hstart, hhi, hindex⟩)
    · exact hread (.inl ⟨hstop, hlo, by rw [← hindex, hget]; rfl⟩)
    · exact hread (.inr ⟨hstart, hhi, by rw [← hindex, hget]; rfl⟩)
  have hiff := inclusiveBounds_iff hrange (h.indexed row.1 row.2 hget).2.1
  rw [or_iff_left hcorner] at hiff
  rw [Bool.eq_iff_iff, Bool.and_eq_true, Bool.and_eq_true, decide_eq_true_iff, decide_eq_true_iff]
  exact hiff

theorem between_of_misread {pair : Pair α} (h : Holds pair)
    (hread : Misread pair.2 range) : pair.2.between range = [] ∧
      (inclusiveBounds range).1 ≤ (inclusiveBounds range).2 ∧
      rowsBetween pair.1.disk.log (inclusiveBounds range).1 (inclusiveBounds range).2 ≠ [] := by
  have hrow : ∀ i entry, pair.2.entries.get i = some entry → (inclusiveBounds range).1 ≤ i →
      i ≤ (inclusiveBounds range).2 →
      rowsBetween pair.1.disk.log (inclusiveBounds range).1 (inclusiveBounds range).2 ≠ [] := by
    intro i entry hget hlo hhi
    have hmem : (i, entry) ∈ pair.1.disk.log.rows := by
      rw [h.log]
      exact Table.mem_rows.mpr hget
    have hkept : (i, entry) ∈ pair.1.disk.log.rows.filter fun row =>
        (inclusiveBounds range).1 ≤ row.1 && row.1 ≤ (inclusiveBounds range).2 :=
      List.mem_filter.mpr ⟨hmem, by simp [hlo, hhi]⟩
    exact List.ne_nil_of_mem (List.mem_map_of_mem hkept)
  rcases hread with ⟨hstop, hlo, hsome⟩ | ⟨hstart, hhi, hsome⟩
  · obtain ⟨entry, hget⟩ := Option.isSome_iff_exists.mp hsome
    refine ⟨?_, hlo ▸ Nat.zero_le _, hrow 0 entry hget hlo.le (Nat.zero_le _)⟩
    simp [Log.between, hstop, toStop]
  · obtain ⟨entry, hget⟩ := Option.isSome_iff_exists.mp hsome
    have hlo : (inclusiveBounds range).1 = u64Max := by
      unfold inclusiveBounds
      rw [hstart]
      simp [saturatingAdd]
    refine ⟨?_, hlo.le.trans hhi, hrow u64Max entry hget hlo.le hhi⟩
    have hnone : ∀ row ∈ pair.2.entries.rows, ¬ u64Max < row.1 := fun row hmem =>
      not_lt.mpr (h.indexed row.1 row.2 (Table.mem_rows.mp hmem)).2.1
    unfold Log.between
    rw [hstart, List.map_eq_nil_iff, List.filter_eq_nil_iff]
    intro row hmem
    simp [fromStart, hnone row hmem]

theorem tryGetLogEntries_ok {codec : Codec α} {s : Store α}
    {entries : List (Entry α)} (h : tryGetLogEntries codec range s = .ok entries)
    (hbounds : (inclusiveBounds range).1 ≤ (inclusiveBounds range).2) :
    entries = rowsBetween s.disk.log (inclusiveBounds range).1 (inclusiveBounds range).2 := by
  unfold tryGetLogEntries raftLogRead at h
  dsimp only at h
  rw [if_neg (not_lt.mpr hbounds)] at h
  obtain ⟨blobs, hblobs, h⟩ := unbind h
  obtain ⟨_, _, hblobs⟩ := unbind hblobs
  obtain ⟨_, _, h⟩ := unbind h
  cases hblobs
  cases h
  rfl

theorem Holds.reads {codec : Codec α} {pair : Pair α} (h : Holds pair)
    (hrange : Range.IsWord range) (hlimits : WithinLimits codec pair.2 range) :
    tryGetLogEntries codec range pair.1 = .ok (pair.2.between range) ↔ ¬ Misread pair.2 range := by
  constructor
  · intro hread hmisread
    obtain ⟨hnil, hbounds, hne⟩ := between_of_misread h hmisread
    exact hne ((tryGetLogEntries_ok hread hbounds).symm.trans hnil)
  · intro hmisread
    have hrows := rowsBetween_eq h hrange hmisread
    obtain ⟨hlength, hbytes⟩ := hlimits
    have hscan : totalBytes codec (pair.2.between range) ≤ maxRaftLogReadBytes :=
      hbytes.trans (by decide)
    unfold tryGetLogEntries raftLogRead
    dsimp only
    by_cases hbounds : (inclusiveBounds range).2 < (inclusiveBounds range).1
    · rw [if_pos hbounds, ← hrows]
      have hnil : rowsBetween pair.1.disk.log (inclusiveBounds range).1
          (inclusiveBounds range).2 = [] := by
        unfold rowsBetween
        rw [List.map_eq_nil_iff, List.filter_eq_nil_iff]
        intro row _
        simp
        omega
      rw [hnil]
      rfl
    · rw [if_neg hbounds, hrows]
      refine bind_eq_ok.mpr ⟨pair.2.between range, ?_, ?_⟩
      · refine check_eq_ok.mpr ⟨rejectIf_eq_ok.mpr ?_, rfl⟩
        push Not
        exact ⟨hlength, hscan⟩
      · refine check_eq_ok.mpr ⟨rejectIf_eq_ok.mpr ?_, rfl⟩
        push Not
        exact ⟨hlength, hbytes⟩

theorem Holds.lastLogId {pair : Pair α} (h : Holds pair) :
    (getLogState pair.1).lastLogId = pair.2.lastLogId := by
  unfold getLogState Log.lastLogId Log.lastEntryId
  rw [h.log, h.memory]
  cases hlast : pair.2.entries.rows.getLast? with
  | none => cases pair.2.purged <;> rfl
  | some row =>
    have hget : pair.2.entries.get row.1 = some row.2 :=
      Table.mem_rows.mp (List.mem_of_getLast? hlast)
    obtain ⟨hindex, -, hpurged⟩ := h.indexed row.1 row.2 hget
    cases hp : pair.2.purged with
    | none => rfl
    | some p =>
      have hlt : p.index < row.2.logId.index := hindex ▸ hpurged p hp
      simp [Log.later, hlt]

theorem Holds.answers {codec : Codec α} {pair : Pair α} (h : Holds pair) :
    Answers codec pair.1 pair.2 :=
  ⟨h.memory, h.lastLogId, fun p hp => by
    rw [h.lastLogId]
    exact purged_le_lastLogId hp, fun _ hrange hlimits => h.reads hrange hlimits⟩

def Log.run (codec : Codec α) : Log α → List (Event α) → Log α := Transaction.run (Log.step codec)

/-- **A run keeps the store on the log.** -/
theorem Holds.run {codec : Codec α} : ∀ (events : List (Event α)) {s : Store α} {log : Log α},
    Transaction.Along (Log.step codec) (fun log e => Proper log e ∧ Sound log e) log events →
      Holds (s, log) → Holds (LogStore.run codec s events, Log.run codec log events)
  | [], _, _, _, h => h
  | _ :: events, _, _, hsteps, h => Holds.run events hsteps.2 (h.step hsteps.1)

/-- **The log store is a log across restarts**: in every run of proper calls whose steps do not slip,
every state reached answers as the log. -/
theorem log_store_answers (codec : Codec α) (events : List (Event α))
    (h : Transaction.Along (Log.step codec) (fun log e => Proper log e ∧ Sound log e) Log.empty events)
    (n : ℕ) :
    Answers codec (LogStore.run codec Store.fresh (events.take n))
      (Log.run codec Log.empty (events.take n)) := by
  rw [← List.take_append_drop n events, Transaction.along_append] at h
  exact (Holds.run (events.take n) h.1 holds_fresh).answers

end

/-! ### A purge that is interrupted -/

def unitCodec : Codec ℕ := ⟨fun _ => 1, fun _ => true⟩

/-- Two entries, and a purge behind them as after a snapshot, interrupted by a restart. -/
def interruptedRun : List (Event ℕ) :=
  [.append [⟨⟨1, 0⟩, 7⟩, ⟨⟨1, 1⟩, 8⟩], .interruptedPurge ⟨1, 5⟩]

/-- **The store is not a log**: after the restart it still returns both purged entries, and without a
purge it answers the empty range before index zero with the entry at zero. -/
theorem interrupted_purge_not_log :
    Transaction.Along (Log.step unitCodec) Proper Log.empty interruptedRun ∧
      getLogState (LogStore.run unitCodec Store.fresh interruptedRun) = ⟨some ⟨1, 5⟩, some ⟨1, 1⟩⟩ ∧
      tryGetLogEntries unitCodec ⟨.unbounded, .unbounded⟩
          (LogStore.run unitCodec Store.fresh interruptedRun) =
        .ok [⟨⟨1, 0⟩, 7⟩, ⟨⟨1, 1⟩, 8⟩] ∧
      (Log.run unitCodec Log.empty interruptedRun).between ⟨.unbounded, .unbounded⟩ = [] ∧
      tryGetLogEntries unitCodec ⟨.included 0, .excluded 0⟩
          (LogStore.run unitCodec Store.fresh (interruptedRun.take 1)) = .ok [⟨⟨1, 0⟩, 7⟩] := by
  refine ⟨⟨⟨0, ?_, fun id hid => nomatch hid⟩, ⟨by decide, fun p hp => nomatch hp⟩, trivial⟩,
    by decide, by rfl, by decide, by rfl⟩
  unfold Consecutive Consecutive Consecutive
  decide

/-- A run with a whole purge, and a restart after it. -/
theorem log_store_answers_purge : Answers unitCodec
      (LogStore.run unitCodec Store.fresh [.append [⟨⟨1, 0⟩, 7⟩, ⟨⟨1, 1⟩, 8⟩], .purge ⟨1, 0⟩, .restart])
      (Log.run unitCodec Log.empty [.append [⟨⟨1, 0⟩, 7⟩, ⟨⟨1, 1⟩, 8⟩], .purge ⟨1, 0⟩, .restart]) := by
  refine log_store_answers unitCodec
    [.append [⟨⟨1, 0⟩, 7⟩, ⟨⟨1, 1⟩, 8⟩], .purge ⟨1, 0⟩, .restart] ?_ 3
  refine ⟨⟨⟨0, ?_, fun id hid => nomatch hid⟩, trivial⟩,
    ⟨⟨by decide, fun p hp => nomatch hp⟩, fun p hp => nomatch hp⟩, ⟨trivial, trivial⟩, trivial⟩
  unfold Consecutive Consecutive Consecutive
  decide

end Medulla.Raft.LogRefinement
