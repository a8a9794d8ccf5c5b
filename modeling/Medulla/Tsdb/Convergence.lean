import Medulla.Tsdb.Maintain

/-! # Convergence of derived series

The state of a derived series describes its source up to the last consumed timestamp: its program and
its checkpoints are those of the machine run over the latest source points so far, and wherever that run
gives a value the latest derived version has it.

* one event: `Right.handle`;
* every run: `derived_converges`. -/

namespace Medulla.Tsdb.Convergence

open Library Library.Checked Library.OrderedTable Library.StepMachine Tsdb.Store Tsdb.Maintain

section
variable {σ π ν : Type} {last minTs : Option Ts} {source : Table Ts π}
  {rest rows points : List (Ts × π)} {m : Machine σ π ν} {s : DerivedState σ}
  {emit : Ts → Option ν → Option (Version ν)} {derived : Series (Version ν)} {now : ℕ}
  {sys : System σ π ν} {step : Step ν} {revised : Ts} {commits : Bool}

/-! ### Consumed and pending points -/

def consumedTs (last : Option Ts) (t : Ts) : Bool := last.any fun l => t ≤ l

def consumedRows (source : Table Ts π) (last : Option Ts) : List (Ts × π) :=
  (source.filter fun t _ => consumedTs last t).rows

def pendingRows (source : Table Ts π) (last : Option Ts) : List (Ts × π) :=
  (source.filter fun t _ => !consumedTs last t).rows

theorem filter_split : ∀ {rows : List (Ts × π)},
    (rows.Pairwise fun a b => a.1 < b.1) →
      rows = (rows.filter fun row => consumedTs last row.1) ++
        rows.filter fun row => !consumedTs last row.1
  | [], _ => rfl
  | row :: rows, h => by
    obtain ⟨hfirst, hrest⟩ := List.pairwise_cons.mp h
    by_cases hrow : consumedTs last row.1 = true
    · simp only [List.filter_cons, hrow]
      exact congrArg _ (filter_split hrest)
    · -- nothing after a pending point is consumed
      have hpending : ∀ r ∈ rows, consumedTs last r.1 = false := by
        intro r hr
        have hlt := hfirst r hr
        cases last with
        | none => rfl
        | some l =>
          simp only [consumedTs, Option.any_some, decide_eq_true_eq, not_le] at hrow
          simpa [consumedTs] using hrow.trans hlt
      have hnone : rows.filter (fun row => consumedTs last row.1) = [] :=
        List.filter_eq_nil_iff.mpr fun r hr => by simp [hpending r hr]
      have hall : rows.filter (fun row => !consumedTs last row.1) = rows :=
        List.filter_eq_self.mpr fun r hr => by simp [hpending r hr]
      simp only [List.filter_cons, hrow, Bool.not_false, if_true, Bool.false_eq_true, if_false, hnone,
        hall, List.nil_append]

theorem consumed_append_pending (source : Table Ts π) (last : Option Ts) :
    source.rows = consumedRows source last ++ pendingRows source last := filter_split source.sorted

/-- **The next point**: consuming the first pending point moves it to the consumed ones. -/
theorem consume_next {row : Ts × π} (h : pendingRows source last = row :: rest) :
    consumedRows source (some row.1) = consumedRows source last ++ [row] ∧
      pendingRows source (some row.1) = rest := by
  have hrows := consumed_append_pending source last
  have hsorted := source.sorted
  rw [h] at hrows
  have hcut : ∀ r ∈ source.rows, (r ∈ consumedRows source last ++ [row] → consumedTs (some row.1) r.1 = true) ∧
      (r ∈ rest → consumedTs (some row.1) r.1 = false) := by
    intro r _
    rw [hrows] at hsorted
    obtain ⟨-, hpending, hcross⟩ := List.pairwise_append.mp hsorted
    refine ⟨fun hr => ?_, fun hr => ?_⟩
    · rcases List.mem_append.mp hr with hr | hr
      · simpa [consumedTs] using (hcross r hr row (.head _)).le
      · rw [List.mem_singleton.mp hr]
        simp [consumedTs]
    · simpa [consumedTs] using (List.pairwise_cons.mp hpending).1 r hr
  have hmem : source.rows = (consumedRows source last ++ [row]) ++ rest := by
    rw [hrows, List.append_assoc]
    rfl
  constructor
  · change source.rows.filter (fun r => consumedTs (some row.1) r.1) = _
    have hleft : (consumedRows source last ++ [row]).filter (fun r => consumedTs (some row.1) r.1) =
        consumedRows source last ++ [row] :=
      List.filter_eq_self.mpr fun r hr =>
        (hcut r (hmem ▸ List.mem_append_left _ hr)).1 hr
    have hright : rest.filter (fun r => consumedTs (some row.1) r.1) = [] :=
      List.filter_eq_nil_iff.mpr fun r hr => by
        simp [(hcut r (hmem ▸ List.mem_append_right _ hr)).2 hr]
    rw [hmem, List.filter_append, hleft, hright, List.append_nil]
  · change source.rows.filter (fun r => !consumedTs (some row.1) r.1) = _
    have hleft : (consumedRows source last ++ [row]).filter (fun r => !consumedTs (some row.1) r.1) =
        [] :=
      List.filter_eq_nil_iff.mpr fun r hr => by
        simp [(hcut r (hmem ▸ List.mem_append_left _ hr)).1 hr]
    have hright : rest.filter (fun r => !consumedTs (some row.1) r.1) = rest :=
      List.filter_eq_self.mpr fun r hr => by
        simp [(hcut r (hmem ▸ List.mem_append_right _ hr)).2 hr]
    rw [hmem, List.filter_append, hleft, hright, List.nil_append]

/-! ### What the state describes -/

/-- **The state follows the source** up to its last timestamp. -/
structure Follows (m : Machine σ π ν) (source : Table Ts π) (s : DerivedState σ) : Prop where
  program : s.program = m.after m.init (consumedRows source s.lastTs)
  restores : ∀ c ∈ s.checkpoints, c.program = m.after m.init (consumedRows source (some c.ts))
  ordered : s.checkpoints.Pairwise fun a b => a.ts < b.ts
  bounded : ∀ c ∈ s.checkpoints, consumedTs s.lastTs c.ts = true

def Shows (m : Machine σ π ν) (source : Table Ts π) (derived : Series (Version ν))
    (last : Option Ts) : Prop :=
  ∀ t v, (t, v) ∈ m.outputs m.init (consumedRows source last) →
    ∃ w, derived.latest.get t = some w ∧ w.value = v

theorem mem_keepCheckpoint {checkpoints : List (Checkpoint σ)} {checkpoint c : Checkpoint σ}
    (h : c ∈ keepCheckpoint checkpoints checkpoint) : c ∈ checkpoints ∨ c = checkpoint := by
  unfold keepCheckpoint at h
  split_ifs at h
  · rcases List.mem_append.mp (List.mem_of_mem_drop h) with h | h
    · exact .inl h
    · exact .inr (List.mem_singleton.mp h)
  · exact .inl h

theorem Follows.consume (h : Follows m source s) {row : Ts × π}
    (hnext : pendingRows source s.lastTs = row :: rest) : Follows m source (s.consume m row) := by
  obtain ⟨hconsumed, -⟩ := consume_next hnext
  have hpending : consumedTs s.lastTs row.1 = false := by
    have hmem : row ∈ pendingRows source s.lastTs := hnext ▸ (.head _)
    simpa using (List.mem_filter.mp hmem).2
  have hlater : ∀ c ∈ s.checkpoints, c.ts < row.1 := by
    intro c hc
    have hbounded := h.bounded c hc
    cases hlast : s.lastTs with
    | none => simp [hlast, consumedTs] at hbounded
    | some l =>
      simp only [hlast, consumedTs, Option.any_some, decide_eq_true_eq, decide_eq_false_iff_not,
        not_le] at hbounded hpending
      exact hbounded.trans_lt hpending
  have hprogram : (s.consume m row).program =
      m.after m.init (consumedRows source (some row.1)) := by
    rw [hconsumed, m.after_append, ← h.program]
    rfl
  refine ⟨hprogram, fun c hc => ?_, ?_, fun c hc => ?_⟩
  · rcases mem_keepCheckpoint hc with hc | rfl
    · exact h.restores c hc
    · exact hprogram
  · change (keepCheckpoint s.checkpoints _).Pairwise _
    unfold keepCheckpoint
    split_ifs
    · refine List.Pairwise.drop (List.pairwise_append.mpr ⟨h.ordered, List.pairwise_singleton _ _, ?_⟩)
      intro a ha b hb
      rw [List.mem_singleton.mp hb]
      exact hlater a ha
    · exact h.ordered
  · change consumedTs (some row.1) c.ts = true
    rcases mem_keepCheckpoint hc with hc | rfl
    · simpa [consumedTs] using (hlater c hc).le
    · simp [consumedTs]

/-! ### Consuming a list -/

def emissions (m : Machine σ π ν) (emit : Ts → Option ν → Option (Version ν)) :
    σ → List (Ts × π) → List (Ts × Version ν)
  | _, [] => []
  | q, row :: rows =>
    ((emit row.1 (m.step q row.2).2).map fun v => (row.1, v)).toList ++
      emissions m emit (m.step q row.2).1 rows

theorem consumeAll_points (m : Machine σ π ν) (emit : Ts → Option ν → Option (Version ν)) :
    ∀ (rows : List (Ts × π)) (s : DerivedState σ),
      (consumeAll m emit s rows).2 = emissions m emit s.program rows
  | [], _ => rfl
  | row :: rows, s => congrArg _ (consumeAll_points m emit rows (s.consume m row))

/-- **Consuming pending points** keeps the state on the source and leaves the rest pending. -/
theorem Follows.consumeAll : ∀ {rows : List (Ts × π)} {s : DerivedState σ},
    Follows m source s → pendingRows source s.lastTs = rows ++ rest →
      Follows m source (Maintain.consumeAll m emit s rows).1 ∧
        pendingRows source (Maintain.consumeAll m emit s rows).1.lastTs = rest ∧
        consumedRows source (Maintain.consumeAll m emit s rows).1.lastTs =
          consumedRows source s.lastTs ++ rows
  | [], s, h, hpending => ⟨h, hpending, (List.append_nil _).symm⟩
  | row :: rows, s, h, hpending => by
    obtain ⟨hconsumed, hnext⟩ := consume_next hpending
    obtain ⟨hfollows, hrest, hrows⟩ :=
      Follows.consumeAll (s := s.consume m row) (h.consume hpending) hnext
    refine ⟨hfollows, hrest, ?_⟩
    have hstart : consumedRows source (s.consume m row).lastTs =
        consumedRows source s.lastTs ++ [row] := hconsumed
    rw [hstart, List.append_assoc] at hrows
    exact hrows

theorem emissions_keys (m : Machine σ π ν) (emit : Ts → Option ν → Option (Version ν)) :
    ∀ (rows : List (Ts × π)) (q : σ), ∀ point ∈ emissions m emit q rows,
      point.1 ∈ rows.map Prod.fst
  | [], _, _, h => nomatch h
  | row :: rows, q, point, h => by
    rcases List.mem_append.mp h with h | h
    · obtain ⟨v, -, rfl⟩ := Option.map_eq_some_iff.mp (Option.mem_toList.mp h)
      exact .head _
    · exact .tail _ (emissions_keys m emit rows _ point h)

theorem outputs_keys (m : Machine σ π ν) : ∀ (rows : List (Ts × π)) (q : σ),
    ∀ out ∈ m.outputs q rows, out.1 ∈ rows.map Prod.fst
  | [], _, _, h => nomatch h
  | row :: rows, q, out, h => by
    rcases List.mem_append.mp h with h | h
    · obtain ⟨v, -, rfl⟩ := Option.map_eq_some_iff.mp (Option.mem_toList.mp h)
      exact .head _
    · exact .tail _ (outputs_keys m rows _ out h)

theorem lastAt_emissions (m : Machine σ π ν) (emit : Ts → Option ν → Option (Version ν)) {t : Ts}
    {v : ν} : ∀ {rows : List (Ts × π)} {q : σ}, (rows.Pairwise fun a b => a.1 < b.1) →
      (t, v) ∈ m.outputs q rows → lastAt t (emissions m emit q rows) = emit t (some v)
  | row :: rows, q, hsorted, h => by
    obtain ⟨hfirst, hrest⟩ := List.pairwise_cons.mp hsorted
    rw [emissions, lastAt_append]
    rcases List.mem_append.mp h with h | h
    · obtain ⟨w, hw, heq⟩ := Option.map_eq_some_iff.mp (Option.mem_toList.mp h)
      obtain ⟨rfl, rfl⟩ := Prod.mk.inj heq
      have hnone : lastAt row.1 (emissions m emit (m.step q row.2).1 rows) = none := by
        refine lastAt_eq_none fun point hpoint => ?_
        obtain ⟨r, hr, hkey⟩ := List.mem_map.mp (emissions_keys m emit rows _ point hpoint)
        exact hkey ▸ (hfirst r hr).ne'
      rw [hnone, hw]
      cases emit row.1 (some w) with
      | none => rfl
      | some version => simp [lastAt]
    · have hne : t ≠ row.1 := by
        obtain ⟨r, hr, hkey⟩ := List.mem_map.mp (outputs_keys m rows _ (t, v) h)
        rw [← show r.1 = t from hkey]
        exact (hfirst r hr).ne'
      have hnone : lastAt t (((emit row.1 (m.step q row.2).2).map fun w => (row.1, w)).toList) =
          none := by
        refine lastAt_eq_none fun point hpoint => ?_
        obtain ⟨w, -, rfl⟩ := Option.map_eq_some_iff.mp (Option.mem_toList.mp hpoint)
        exact hne.symm
      rw [hnone, Option.or_none]
      exact lastAt_emissions m emit hrest h

/-! ### Attempts -/

/-- The appended versions give each of the consumed points its value. -/
def Emits (derived : Series (Version ν)) (emit : Ts → Option ν → Option (Version ν))
    (rows : List (Ts × π)) : Prop :=
  ∀ row ∈ rows, ∀ v, ∃ w, (emit row.1 (some v)).or (derived.latest.get row.1) = some w ∧ w.value = v

theorem Shows.append {last' : Option Ts} (h : Shows m source derived last)
    (hrows : consumedRows source last' = consumedRows source last ++ rows)
    (hemits : Emits derived emit rows) :
    Shows m source
      (derived.append (emissions m emit (m.after m.init (consumedRows source last)) rows)) last' := by
  intro t v hout
  have hsorted : (consumedRows source last').Pairwise fun a b => a.1 < b.1 := Table.sorted _
  rw [hrows] at hsorted hout
  obtain ⟨-, hnew, hcross⟩ := List.pairwise_append.mp hsorted
  rw [m.outputs_append] at hout
  rw [get_latest_append]
  rcases List.mem_append.mp hout with hout | hout
  · obtain ⟨r, hr, hkey⟩ := List.mem_map.mp (outputs_keys m _ _ (t, v) hout)
    have hnone : lastAt t (emissions m emit (m.after m.init (consumedRows source last)) rows) =
        none := by
      refine lastAt_eq_none fun point hpoint => ?_
      obtain ⟨r', hr', hkey'⟩ := List.mem_map.mp (emissions_keys m emit rows _ point hpoint)
      rw [← hkey', ← show r.1 = t from hkey]
      exact (hcross r hr r' hr').ne'
    rw [hnone]
    exact h t v hout
  · obtain ⟨r, hr, hkey⟩ := List.mem_map.mp (outputs_keys m _ _ (t, v) hout)
    rw [lastAt_emissions m emit hnew hout]
    obtain rfl : r.1 = t := hkey
    exact hemits r hr v

theorem emits_first :
    Emits derived (firstVersion now) rows := fun _ _ v => ⟨⟨v, 0, now⟩, rfl, rfl⟩

theorem emits_revised [DecidableEq ν] {current : Table Ts (Version ν)}
    (h : ∀ row ∈ rows, current.get row.1 = derived.latest.get row.1) :
    Emits derived (revisedVersion current now) rows := by
  intro row hrow v
  unfold revisedVersion
  rw [h row hrow]
  cases hget : derived.latest.get row.1 with
  | none => exact ⟨⟨v, 0, now⟩, rfl, rfl⟩
  | some old =>
    dsimp only
    split_ifs with heq
    · exact ⟨old, rfl, heq⟩
    · exact ⟨⟨v, old.revision + 1, now⟩, rfl, rfl⟩

theorem latestVersions_pending {s : Series π} (h : Readable s) (last : Option Ts) :
    latestVersions (pointsBetween s (afterTs last) tsMax) =
      s.latest.filter fun t _ => !consumedTs last t := by
  rw [latestVersions_pointsBetween h]
  refine Table.ext_get fun t => ?_
  rw [Table.get_filter, Table.get_filter]
  cases hget : s.latest.get t with
  | none => rfl
  | some p =>
    have hword := h.word t (mem_timestamps_of_latest (by rw [hget]; exact nofun))
    have hiff : (decide (afterTs last ≤ t)) = !consumedTs last t := by
      cases last with
      | none => simp [afterTs, consumedTs, hword.1]
      | some l =>
        have hsucc : afterTs (some l) ≤ t ↔ ¬ t ≤ l := by
          rw [not_le]
          exact Int.add_one_le_iff
        simp only [hsucc, consumedTs, Option.any_some, decide_not]
    rw [hiff]

theorem range_ok {s : Series π} {start : Ts} (h : range s start = .ok points) :
    points = pointsBetween s start tsMax := by
  unfold range at h
  rw [check_eq_ok] at h
  cases h.2
  rfl

def base (m : Machine σ π ν) (s : DerivedState σ) (minTs : Option Ts) : DerivedState σ :=
  match revisedFrom s minTs with
  | some revised => s.rewind m revised
  | none => s

structure Attempted (m : Machine σ π ν) (sys : System σ π ν) (s : DerivedState σ) (step : Step ν) :
    Prop where
  follows : Follows m sys.source.latest s
  shows : Shows m sys.source.latest (sys.derived.append step.points) s.lastTs
  caughtUp : step.caughtUp = true → pendingRows sys.source.latest s.lastTs = []
  keys : ∀ point ∈ step.points, point.1 ∈ sys.source.timestamps

theorem attempted_of_consumeAll {consumed : ℕ} {caughtUp : Bool}
    (hfollows : Follows m sys.source.latest s)
    (hshows : Shows m sys.source.latest sys.derived s.lastTs)
    (hpending : pendingRows sys.source.latest s.lastTs = rows ++ rest)
    (hemits : Emits sys.derived emit rows) (hcaught : caughtUp = true → rest = []) :
    Attempted m sys (consumeAll m emit s rows).1 ⟨(consumeAll m emit s rows).2, consumed, caughtUp⟩ := by
  obtain ⟨hfollows', hrest, hrows⟩ :=
    Follows.consumeAll (s := s) (m := m) hfollows hpending
  refine ⟨hfollows', ?_, fun h => hrest.trans (hcaught h), fun point hpoint => ?_⟩
  · dsimp only
    rw [consumeAll_points, hfollows.program]
    exact hshows.append hrows hemits
  · rw [consumeAll_points] at hpoint
    obtain ⟨row, hrow, hkey⟩ := List.mem_map.mp (emissions_keys m emit rows _ point hpoint)
    have hmem : row ∈ pendingRows sys.source.latest s.lastTs :=
      hpending ▸ List.mem_append_left _ hrow
    have hget := Table.mem_rows.mp (List.mem_filter.mp hmem).1
    rw [← hkey]
    exact mem_timestamps_of_latest (by rw [hget]; exact nofun)

theorem rewind_lastTs (m : Machine σ π ν) (s : DerivedState σ) (revised : Ts) :
    (s.rewind m revised).lastTs = (s.restorePoint revised).map Checkpoint.ts := by
  unfold DerivedState.rewind
  cases s.restorePoint revised <;> rfl

/-- **A committed attempt** brings the derived series along. -/
theorem maintainOne_ok [DecidableEq ν] {s' : DerivedState σ} (hsource : Readable sys.source)
    (hderived : Readable sys.derived) (hfollows : Follows m sys.source.latest (base m s minTs))
    (hshows : Shows m sys.source.latest sys.derived (base m s minTs).lastTs)
    (h : maintainOne m sys s minTs now = .ok (s', step)) : Attempted m sys s' step := by
  unfold maintainOne at h
  unfold base at hfollows hshows
  cases hrevised : revisedFrom s minTs with
  | some revised =>
    rw [hrevised] at h hfollows hshows
    obtain ⟨source, hread, h⟩ := unbind h
    obtain ⟨current, hcurrent, h⟩ := unbind h
    have hpending := latestVersions_pending hsource (s.rewind m revised).lastTs
    have hversions := latestVersions_pending hderived (s.rewind m revised).lastTs
    rw [rewind_lastTs m s revised] at hpending hversions
    change latestVersions (pointsBetween sys.source (replayFrom s revised) tsMax) = _ at hpending
    change latestVersions (pointsBetween sys.derived (replayFrom s revised) tsMax) = _ at hversions
    rw [range_ok hread, range_ok hcurrent, hpending, hversions, ← rewind_lastTs m s revised] at h
    unfold DerivedState.replay at h
    rw [check_eq_ok] at h
    obtain ⟨-, h⟩ := h
    cases h
    refine attempted_of_consumeAll hfollows hshows (List.append_nil _).symm ?_ fun _ => rfl
    refine emits_revised fun row hrow => ?_
    rw [Table.get_filter]
    have hkept : (!consumedTs (s.rewind m revised).lastTs row.1) = true := (List.mem_filter.mp hrow).2
    cases sys.derived.latest.get row.1 <;> simp [hkept]
  | none =>
    rw [hrevised] at h hfollows hshows
    obtain ⟨source, hread, h⟩ := unbind h
    rw [range_ok hread, latestVersions_pending hsource s.lastTs] at h
    have hfresh : (sys.source.latest.filter fun t _ => !consumedTs s.lastTs t).rows.filter
        (fun row => s.lastTs.all fun last => last < row.1) = pendingRows sys.source.latest s.lastTs := by
      refine List.filter_eq_self.mpr fun row hrow => ?_
      have hkept : (!consumedTs s.lastTs row.1) = true := (List.mem_filter.mp hrow).2
      cases hlast : s.lastTs with
      | none => rfl
      | some l => simpa [hlast, consumedTs] using hkept
    unfold DerivedState.advance at h
    rw [hfresh] at h
    cases h
    refine attempted_of_consumeAll hfollows hshows (List.take_append_drop _ _).symm emits_first ?_
    intro hall
    rw [of_decide_eq_true hall]
    exact List.drop_length

/-! ### Going back -/

theorem restorePoint_spec {c : Checkpoint σ} (h : s.restorePoint revised = some c) :
    c ∈ s.checkpoints ∧ c.ts < revised := by
  have hbefore := List.find?_some h
  exact ⟨List.mem_reverse.mp (List.mem_of_find?_eq_some h), of_decide_eq_true hbefore⟩

theorem le_of_restorePoint {c c' : Checkpoint σ}
    (hordered : s.checkpoints.Pairwise fun a b => a.ts < b.ts) (h : s.restorePoint revised = some c)
    (hmem : c' ∈ s.checkpoints) (hbefore : c'.ts < revised) : c'.ts ≤ c.ts := by
  obtain ⟨-, later, earlier, hlist, hlater⟩ := List.find?_eq_some_iff_append.mp h
  have hsplit : s.checkpoints = earlier.reverse ++ c :: later.reverse := by
    rw [← s.checkpoints.reverse_reverse, hlist]
    simp
  rw [hsplit] at hmem hordered
  rcases List.mem_append.mp hmem with hmem | hmem
  · exact ((List.pairwise_append.mp hordered).2.2 c' hmem c (.head _)).le
  · rcases List.mem_cons.mp hmem with rfl | hmem
    · exact le_rfl
    · have hnot := hlater c' (List.mem_reverse.mp hmem)
      simp [hbefore] at hnot

/-- **Going back to a checkpoint** that is right gives a state that follows the source. -/
theorem follows_rewind (hrestores : ∀ c ∈ s.checkpoints, c.ts < revised →
      c.program = m.after m.init (consumedRows source (some c.ts)))
    (hordered : s.checkpoints.Pairwise fun a b => a.ts < b.ts) :
    Follows m source (s.rewind m revised) := by
  have hkept : ∀ c ∈ s.checkpoints.filter (fun c => c.ts < revised),
      c ∈ s.checkpoints ∧ c.ts < revised := fun c hc => by
    obtain ⟨hmem, hbefore⟩ := List.mem_filter.mp hc
    exact ⟨hmem, of_decide_eq_true hbefore⟩
  unfold DerivedState.rewind
  cases hrestore : s.restorePoint revised with
  | none =>
    refine ⟨?_, fun c hc => hrestores c (hkept c hc).1 (hkept c hc).2, hordered.filter _, ?_⟩
    · have hnone : consumedRows source none = [] :=
        List.filter_eq_nil_iff.mpr fun row _ => by simp [consumedTs]
      rw [hnone]
      rfl
    · intro c hc
      have hmissing := List.find?_eq_none.mp hrestore c (List.mem_reverse.mpr (hkept c hc).1)
      simp [(hkept c hc).2] at hmissing
  | some c =>
    obtain ⟨hc, hbefore⟩ := restorePoint_spec hrestore
    refine ⟨hrestores c hc hbefore, fun c' hc' => hrestores c' (hkept c' hc').1 (hkept c' hc').2,
      hordered.filter _, fun c' hc' => ?_⟩
    simpa [consumedTs] using le_of_restorePoint hordered hrestore (hkept c' hc').1 (hkept c' hc').2

theorem Shows.earlier {last' : Option Ts} (h : Shows m source derived last)
    (hle : ∀ t, consumedTs last' t = true → consumedTs last t = true) :
    Shows m source derived last' := by
  intro t v hout
  refine h t v ?_
  have hsplit := consumed_append_pending (source.filter fun t _ => consumedTs last t) last'
  have hconsumed : consumedRows (source.filter fun t _ => consumedTs last t) last' =
      consumedRows source last' := by
    refine congrArg Table.rows (Table.ext_get fun t => ?_)
    rw [Table.get_filter, Table.get_filter, Table.get_filter]
    cases source.get t with
    | none => rfl
    | some p =>
      by_cases ht : consumedTs last' t = true
      · simp [hle t ht]
      · simp only [Option.filter]
        split_ifs <;> rfl
  rw [hconsumed] at hsplit
  change (t, v) ∈ m.outputs m.init (source.filter fun t _ => consumedTs last t).rows
  rw [hsplit, m.outputs_append]
  exact List.mem_append_left _ hout

theorem base_right (hfollows : Follows m source s) (hshows : Shows m source derived s.lastTs)
    (minTs : Option Ts) :
    Follows m source (base m s minTs) ∧ Shows m source derived (base m s minTs).lastTs := by
  unfold base
  cases hrevised : revisedFrom s minTs with
  | none => exact ⟨hfollows, hshows⟩
  | some revised =>
    refine ⟨follows_rewind (fun c hc _ => hfollows.restores c hc) hfollows.ordered,
      hshows.earlier fun t ht => ?_⟩
    rw [rewind_lastTs] at ht
    cases hrestore : s.restorePoint revised with
    | none => simp [hrestore, consumedTs] at ht
    | some c =>
      have hbounded := hfollows.bounded c (restorePoint_spec hrestore).1
      cases hlast : s.lastTs with
      | none => simp [hlast, consumedTs] at hbounded
      | some l =>
        simp only [hrestore, hlast, Option.map_some, consumedTs, Option.any_some,
          decide_eq_true_eq] at ht hbounded ⊢
        exact ht.trans hbounded

/-! ### Appends to the source -/

theorem consumedRows_append {s : Series π} (h : ∀ point ∈ points, consumedTs last point.1 = false) :
    consumedRows (s.append points).latest last = consumedRows s.latest last := by
  refine congrArg Table.rows (Table.ext_get fun t => ?_)
  rw [Table.get_filter, Table.get_filter, get_latest_append]
  by_cases ht : consumedTs last t = true
  · have hnone : lastAt t points = none := lastAt_eq_none fun point hpoint heq => by
      rw [← heq, h point hpoint] at ht
      cases ht
    rw [hnone, Option.none_or]
  · cases (lastAt t points).or (s.latest.get t) <;> cases s.latest.get t <;>
      simp [ht]

theorem earliest_le {first : Ts} (h : earliest points = some first) :
    ∀ point ∈ points, first ≤ point.1 := fun _ hpoint =>
  (List.le_min?_iff h).mp le_rfl _ (List.mem_map_of_mem hpoint)

theorem nil_of_earliest (h : earliest points = none) : points = [] := by
  have hmap : points.map Prod.fst = [] := List.min?_eq_none_iff.mp h
  exact List.map_eq_nil_iff.mp hmap

theorem pending_of_in_order (h : revisedFrom s (earliest points) = none) :
    ∀ point ∈ points, consumedTs s.lastTs point.1 = false := by
  intro point hpoint
  cases hfirst : earliest points with
  | none =>
    rw [nil_of_earliest hfirst] at hpoint
    cases hpoint
  | some first =>
    have hle := earliest_le hfirst point hpoint
    cases hlast : s.lastTs with
    | none => rfl
    | some l =>
      simp only [revisedFrom, hfirst, hlast, Option.filter_some, Option.any_some,
        decide_eq_true_eq, ite_eq_right_iff, reduceCtorEq, imp_false, not_le] at h
      simpa [consumedTs] using h.trans_le hle

theorem Follows.in_order {source : Series π} (h : Follows m source.latest s)
    (hpoints : ∀ point ∈ points, consumedTs s.lastTs point.1 = false) :
    Follows m (source.append points).latest s := by
  refine ⟨?_, fun c hc => ?_, h.ordered, h.bounded⟩
  · rw [consumedRows_append hpoints]
    exact h.program
  · have hafter : ∀ point ∈ points, consumedTs (some c.ts) point.1 = false := by
      intro point hpoint
      have hlast := hpoints point hpoint
      have hbounded := h.bounded c hc
      cases hl : s.lastTs with
      | none => simp [hl, consumedTs] at hbounded
      | some l =>
        simp only [hl, consumedTs, Option.any_some, decide_eq_true_eq, decide_eq_false_iff_not,
          not_le] at hbounded hlast ⊢
        exact hbounded.trans_lt hlast
    rw [consumedRows_append hafter]
    exact h.restores c hc

theorem base_of_revision {source : Series π} (hfollows : Follows m source.latest s)
    (hshows : Shows m source.latest derived s.lastTs)
    (hrevised : revisedFrom s (earliest points) = some revised) :
    Follows m (source.append points).latest (base m s (earliest points)) ∧
      Shows m (source.append points).latest derived (base m s (earliest points)).lastTs := by
  have hfirst : earliest points = some revised := (Option.filter_eq_some_iff.mp hrevised).1
  have hafter : ∀ c : Ts, c < revised → ∀ point ∈ points, consumedTs (some c) point.1 = false := by
    intro c hc point hpoint
    simpa [consumedTs] using hc.trans_le (earliest_le hfirst point hpoint)
  obtain ⟨-, hbase⟩ := base_right hfollows hshows (earliest points)
  unfold base at hbase ⊢
  rw [hrevised] at hbase ⊢
  refine ⟨follows_rewind (fun c hc hbefore => ?_) hfollows.ordered, ?_⟩
  · rw [consumedRows_append (hafter c.ts hbefore)]
    exact hfollows.restores c hc
  · have hsame : consumedRows (source.append points).latest (s.rewind m revised).lastTs =
        consumedRows source.latest (s.rewind m revised).lastTs := by
      rw [rewind_lastTs]
      cases hrestore : s.restorePoint revised with
      | none => exact consumedRows_append fun _ _ => rfl
      | some c =>
        exact consumedRows_append (hafter c.ts (restorePoint_spec hrestore).2)
    intro t v hout
    rw [hsame] at hout
    exact hbase t v hout

/-! ### Runs -/

/-- **The derived series follows its source.** -/
structure Right (m : Machine σ π ν) (sys : System σ π ν) : Prop where
  source : Readable sys.source
  keys : ∀ t ∈ sys.derived.timestamps, t ∈ sys.source.timestamps
  state : ∀ s, sys.state = some s →
    Follows m sys.source.latest s ∧ Shows m sys.source.latest sys.derived s.lastTs

def ReplayFits (sys : System σ π ν) (s : DerivedState σ) (revised : Ts) : Prop :=
  readFits sys.source (replayFrom s revised) = true ∧
    readFits sys.derived (replayFrom s revised) = true ∧
    (latestVersions (pointsBetween sys.source (replayFrom s revised) tsMax)).rows.length ≤ workBudget

/-- **The events that a derived series survives**: the source stays readable, and the attempt after an
append that is not after the last consumed point commits, within its limits. -/
def Survivable (sys : System σ π ν) : Event π → Prop
  | .append points commits _ =>
    Readable (sys.source.append points) ∧
      ∀ s, sys.state = some s → ∀ revised, revisedFrom s (earliest points) = some revised →
        commits = true ∧ ReplayFits { sys with source := sys.source.append points } s revised
  | _ => True

def Settled (result : System σ π ν × Option (Step ν)) : Prop :=
  ∀ step, result.2 = some step → step.caughtUp = true →
    ∃ s, result.1.state = some s ∧ pendingRows result.1.source.latest s.lastTs = []

theorem readable_of_keys {τ : Type} {s : Series π} {d : Series τ} (h : Readable s)
    (hkeys : ∀ t ∈ d.timestamps, t ∈ s.timestamps) : Readable d :=
  ⟨fun t ht => h.word t (hkeys t ht),
    h.oneSign.imp (fun hpos t ht => hpos t (hkeys t ht)) fun hneg t ht => hneg t (hkeys t ht)⟩

theorem Attempted.commit (h : Attempted m sys s step) (hsource : Readable sys.source)
    (hkeys : ∀ t ∈ sys.derived.timestamps, t ∈ sys.source.timestamps) :
    Right m (Maintain.commit sys s step) ∧ Settled (Maintain.commit sys s step, some step) := by
  refine ⟨⟨hsource, fun t ht => ?_, fun s' hs' => ?_⟩, fun step' hstep hcaught => ?_⟩
  · rcases mem_timestamps_append.mp ht with ht | ht
    · exact hkeys t ht
    · obtain ⟨point, hpoint, rfl⟩ := List.mem_map.mp ht
      exact h.keys point hpoint
  · cases hs'
    exact ⟨h.follows, h.shows⟩
  · cases hstep
    exact ⟨s, rfl, h.caughtUp hcaught⟩

theorem right_fresh (m : Machine σ π ν) (nFields bucketNs : ℕ) :
    Right m (System.fresh nFields bucketNs) :=
  ⟨⟨fun _ ht => (nomatch ht), .inl fun _ ht => (nomatch ht)⟩, fun _ ht => (nomatch ht),
    fun _ hs => nomatch hs⟩

/-- At every timestamp where the machine run over the latest source points gives a value, the latest
derived version has it. -/
def Converged (m : Machine σ π ν) (sys : System σ π ν) : Prop :=
  ∀ t v, (t, v) ∈ m.outputs m.init sys.source.latest.rows →
    ∃ w, (sys.derived.versions t).getLast? = some w ∧ w.value = v

theorem Right.converged (h : Right m sys) (hstate : sys.state = some s)
    (hpending : pendingRows sys.source.latest s.lastTs = []) : Converged m sys := by
  intro t v hout
  rw [consumed_append_pending sys.source.latest s.lastTs, hpending, List.append_nil] at hout
  rw [← get_latest]
  exact (h.state s hstate).2 t v hout

variable [DecidableEq ν]

theorem Right.attempt (h : Right m sys) (hfollows : Follows m sys.source.latest s)
    (hshows : Shows m sys.source.latest sys.derived s.lastTs) :
    Right m (attempt m sys s minTs commits now).1 ∧ Settled (attempt m sys s minTs commits now) := by
  have hfailed : Right m sys ∧ Settled (sys, (none : Option (Step ν))) :=
    ⟨h, fun step hstep => nomatch hstep⟩
  unfold Maintain.attempt
  cases hone : maintainOne m sys s minTs now with
  | error message => exact hfailed
  | ok result =>
    split_ifs
    · obtain ⟨hbase, hbase'⟩ := base_right hfollows hshows minTs
      have hcommit := maintainOne_ok h.source (readable_of_keys h.source h.keys) hbase hbase' hone
      exact hcommit.commit h.source h.keys
    · exact hfailed

theorem Right.maintainDefined (h : Right m sys) :
    Right m (maintainDefined m sys minTs commits now).1 ∧
      Settled (maintainDefined m sys minTs commits now) := by
  unfold Maintain.maintainDefined
  cases hstate : sys.state with
  | none => exact ⟨h, fun step hstep => nomatch hstep⟩
  | some s => exact h.attempt (h.state s hstate).1 (h.state s hstate).2

theorem maintainOne_of_fits (hrevised : revisedFrom s minTs = some revised)
    (hfits : ReplayFits sys s revised) : ∃ result, maintainOne m sys s minTs now = .ok result := by
  obtain ⟨hsource, hderived, hbudget⟩ := hfits
  unfold maintainOne
  rw [hrevised]
  refine ⟨_, bind_eq_ok.mpr ⟨pointsBetween sys.source (replayFrom s revised) tsMax, ?_,
    bind_eq_ok.mpr ⟨pointsBetween sys.derived (replayFrom s revised) tsMax, ?_,
      check_eq_ok.mpr ⟨rejectIf_eq_ok.mpr (not_lt.mpr hbudget), rfl⟩⟩⟩⟩
  · exact check_eq_ok.mpr ⟨rejectIf_eq_ok.mpr (by rw [hsource]; decide), rfl⟩
  · exact check_eq_ok.mpr ⟨rejectIf_eq_ok.mpr (by rw [hderived]; decide), rfl⟩

theorem maintainDefined_ok {s' : DerivedState σ} (hstate : sys.state = some s)
    (hone : maintainOne m sys s minTs now = .ok (s', step)) :
    maintainDefined m sys minTs true now = (Maintain.commit sys s' step, some step) := by
  unfold Maintain.maintainDefined
  rw [hstate]
  dsimp only
  unfold Maintain.attempt
  rw [hone]
  rfl

/-- **An append and its attempt.** -/
theorem Right.append (h : Right m sys) (hok : Survivable sys (.append points commits now)) :
    Right m (handle m sys (.append points commits now)).1 ∧
      Settled (handle m sys (.append points commits now)) := by
  obtain ⟨hreadable, hlate⟩ := hok
  have hkeys : ∀ t ∈ sys.derived.timestamps, t ∈ (sys.source.append points).timestamps :=
    fun t ht => mem_timestamps_append.mpr (.inl (h.keys t ht))
  have hright : (∀ s, sys.state = some s → revisedFrom s (earliest points) = none) →
      Right m { sys with source := sys.source.append points } := by
    intro hinOrder
    refine ⟨hreadable, hkeys, fun s hs => ?_⟩
    obtain ⟨hfollows, hshows⟩ := h.state s hs
    have hpending := pending_of_in_order (hinOrder s hs)
    refine ⟨hfollows.in_order hpending, fun t v hout => ?_⟩
    rw [consumedRows_append hpending] at hout
    exact hshows t v hout
  change Right m (Maintain.maintainDefined m { sys with source := sys.source.append points }
      (earliest points) commits now).1 ∧
    Settled (Maintain.maintainDefined m { sys with source := sys.source.append points }
      (earliest points) commits now)
  by_cases hinOrder : ∀ s, sys.state = some s → revisedFrom s (earliest points) = none
  · exact (hright hinOrder).maintainDefined
  · push Not at hinOrder
    obtain ⟨s, hstate, hlater⟩ := hinOrder
    obtain ⟨revised, hrevised⟩ := Option.ne_none_iff_exists'.mp hlater
    obtain ⟨hfollows, hshows⟩ := h.state s hstate
    obtain ⟨rfl, hfits⟩ := hlate s hstate revised hrevised
    obtain ⟨result, hone⟩ := maintainOne_of_fits (m := m) hrevised hfits
    obtain ⟨hbase, hbase'⟩ := base_of_revision hfollows hshows hrevised
    have hattempted := @maintainOne_ok _ _ _ _ m _ _ { sys with source := sys.source.append points }
      _ _ _ hreadable (readable_of_keys hreadable hkeys) hbase hbase' hone
    rw [@maintainDefined_ok _ _ _ _ m _ _ { sys with source := sys.source.append points } _ _ _ hstate
      hone]
    exact hattempted.commit hreadable hkeys

/-- **One event** keeps the derived series right. -/
theorem Right.handle {e : Event π} (h : Right m sys) (hok : Survivable sys e) :
    Right m (handle m sys e).1 ∧ Settled (handle m sys e) := by
  cases e with
  | append points commits now => exact h.append hok
  | maintain minTs commits now => exact h.maintainDefined
  | define commits now =>
    cases hstate : sys.state with
    | some s =>
      unfold Maintain.handle
      rw [hstate]
      exact h.attempt (h.state s hstate).1 (h.state s hstate).2
    | none =>
      have hnone : consumedRows sys.source.latest none = [] :=
        List.filter_eq_nil_iff.mpr fun row _ => by simp [consumedTs]
      unfold Maintain.handle
      rw [hstate]
      refine h.attempt ⟨?_, (fun c hc => nomatch hc), List.Pairwise.nil, (fun c hc => nomatch hc)⟩ ?_
      · change m.init = m.after m.init (consumedRows sys.source.latest none)
        rw [hnone]
        rfl
      · intro t v hout
        change (t, v) ∈ m.outputs m.init (consumedRows sys.source.latest none) at hout
        rw [hnone] at hout
        cases hout

/-- **Derived series converge to recomputation**: in every run of survivable events, an attempt or a
definition that ends with everything caught up leaves the values of the recomputation. -/
theorem derived_converges (m : Machine σ π ν) (nFields bucketNs : ℕ) (events : List (Event π))
    (e : Event π) (step : Step ν)
    (h : Transaction.Along (Maintain.step m) Survivable (System.fresh nFields bucketNs) (events ++ [e]))
    (hstep : (handle m (run m (System.fresh nFields bucketNs) events) e).2 = some step)
    (hcaught : step.caughtUp = true) :
    Converged m (run m (System.fresh nFields bucketNs) (events ++ [e])) := by
  rw [Transaction.along_append] at h
  obtain ⟨hevents, hlast, -⟩ := h
  have hright : Right m (run m (System.fresh nFields bucketNs) events) :=
    Transaction.run_invariant_along (I := Right m) (fun _ _ hok hsys => (hsys.handle hok).1) events _
      hevents (right_fresh m nFields bucketNs)
  obtain ⟨hafter, hsettled⟩ := hright.handle hlast
  obtain ⟨s, hstate, hpending⟩ := hsettled step hstep hcaught
  unfold run
  rw [Transaction.run_append]
  exact hafter.converged hstate hpending

end

/-! ### A revision whose attempt fails -/

def identity : Machine Unit ℕ ℕ := ⟨(), fun _ p => ((), some p)⟩

/-- A series is derived, its only point is revised, and the attempt after that is lost. -/
def lostRevision : List (Event ℕ) :=
  [.append [(1, 10)] true 0, .define true 1, .append [(1, 20)] false 2]

/-- **A lost attempt is never made up**: the next definition reports that it caught up, and the derived
point keeps the value of the old version. -/
theorem lost_revision_not_converged :
    ((handle identity (run identity (System.fresh 1 10) lostRevision) (.define true 3)).2.map
        Step.caughtUp = some true) ∧
      ¬ Converged identity (run identity (System.fresh 1 10) (lostRevision ++ [.define true 3])) := by
  refine ⟨by decide +kernel, fun h => ?_⟩
  obtain ⟨w, hw, hvalue⟩ := h 1 20 (by decide +kernel)
  have hold : ((run identity (System.fresh 1 10)
      (lostRevision ++ [.define true 3])).derived.versions 1).getLast?.map Version.value = some 10 := by
    decide +kernel
  rw [hw, Option.map_some, hvalue] at hold
  cases hold

def derivedOnce : List (Event ℕ) :=
  [.append [(1, 10)] true 0, .define true 1]

theorem readable_of_positive {s : Series ℕ} (h : s.timestamps = [1]) : Readable s := by
  refine ⟨fun t ht => ?_, .inl fun t ht => ?_⟩
  all_goals
    rw [h] at ht
    obtain rfl := List.mem_singleton.mp ht
    decide

theorem derivedOnce_survivable : Transaction.Along (Maintain.step identity) Survivable
    (System.fresh 1 10) (derivedOnce ++ [.append [(1, 20)] true 2]) := by
  refine ⟨⟨readable_of_positive (by decide +kernel), fun s hs => nomatch hs⟩, trivial,
    ⟨readable_of_positive (by decide +kernel), fun s hs revised hrevised => ⟨rfl, ?_⟩⟩, trivial⟩
  cases hs
  have hone : revised = 1 := (Option.some.inj hrevised).symm
  subst hone
  exact ⟨by decide +kernel, by decide +kernel, by decide +kernel⟩

/-- With the attempt made the revised value is there. -/
theorem derived_converges_revised :
    Converged identity (run identity (System.fresh 1 10) (derivedOnce ++ [.append [(1, 20)] true 2])) := by
  have hcaught : (handle identity (run identity (System.fresh 1 10) derivedOnce)
      (.append [(1, 20)] true 2)).2.map Step.caughtUp = some true := by decide +kernel
  obtain ⟨step, hstep, hcaught⟩ := Option.map_eq_some_iff.mp hcaught
  exact derived_converges identity 1 10 derivedOnce _ step derivedOnce_survivable hstep hcaught

end Medulla.Tsdb.Convergence
