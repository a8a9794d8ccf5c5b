import Mathlib.Algebra.Group.Prod
import Medulla.Library.Tally
import Medulla.Library.Transaction
import Medulla.Query.Incremental

/-! # A maintained view equals its recomputation

The maintained state of a circuit is a function of the node map alone: `fill` writes it down, with every
stage holding weight one for the ids of its nodes and every bucket holding the sum and the count of its
rows.

* one mutation: `apply_delta`;
* every run: `current_eq_recompute`. -/

namespace Medulla.Query.Maintenance

open Library.Tally Library.Transaction Wire Incremental
open Library.OrderedTable (Table)

variable {nodes : NodeMap} {id : String} {props : Props} {x : ℚ × ℤ} {c : Circuit}
  {timeseries : Bool}

/-! ### Mutations -/

inductive NodeMutation
  | put (id : String) (after : Props)
  | remove (id : String)

def NodeMutation.delta (nodes : NodeMap) : NodeMutation → Delta
  | .put id after =>
    match nodes.get id with
    | none => [.insert id after]
    | some before => [.retract id before, .insert id after]
  | .remove id =>
    match nodes.get id with
    | none => []
    | some before => [.retract id before]

def NodeMutation.post (nodes : NodeMap) : NodeMutation → NodeMap
  | .put id after => nodes.insert id after
  | .remove id => nodes.remove id

structure View where
  circuit : Circuit
  nodes : NodeMap

def seedDelta (nodes : NodeMap) : Delta := nodes.rows.map fun r => .insert r.1 r.2

def View.seeded (c : Circuit) (nodes : NodeMap) : View := ⟨(c.apply (seedDelta nodes)).1, nodes⟩

def View.mutate (v : View) (m : NodeMutation) : View :=
  ⟨(v.circuit.apply (m.delta v.nodes)).1, m.post v.nodes⟩

/-! ### The state of a node map -/

def membersOf (p : StagePred) (nodes : NodeMap) : Table String ℤ :=
  (nodes.filter fun _ props => p.holds props).mapValues fun _ => 1

def fill (c : Circuit) (nodes : NodeMap) : Circuit where
  stages := c.stages.map fun s => ⟨s.pred, membersOf s.pred nodes⟩
  window := c.window.map fun w => { w with buckets := Circuit.recomputeBuckets w nodes }
  limit := c.limit

/-! ### Stages -/

theorem get_membersOf (p : StagePred) (nodes : NodeMap) (id : String) :
    (membersOf p nodes).get id = ((nodes.get id).filter p.holds).map fun _ => 1 := by
  unfold membersOf
  rw [Table.get_mapValues, Table.get_filter]

theorem members_insert (p : StagePred) (h : nodes.get id = none) :
    Stage.applyRow (.insert id props) ⟨p, membersOf p nodes⟩ =
      ⟨p, membersOf p (nodes.insert id props)⟩ := by
  have hfree : (membersOf p nodes).get id = none := by
    rw [get_membersOf, h]
    rfl
  unfold Stage.applyRow ZRow.insert
  by_cases hp : p.holds props = true
  · simp only [hp, if_true, hfree, Stage.mk.injEq, true_and]
    rw [if_neg (by decide)]
    refine Table.ext_get fun k => ?_
    rw [Table.get_insert, get_membersOf, get_membersOf, Table.get_insert]
    split_ifs with hk
    · simp [Option.filter, hp]
    · rfl
  · simp only [hp, if_false, Bool.false_eq_true, Stage.mk.injEq, true_and]
    refine Table.ext_get fun k => ?_
    rw [get_membersOf, get_membersOf, Table.get_insert]
    split_ifs with hk
    · subst hk
      simp [h, hp]
    · rfl

theorem members_retract (p : StagePred) (h : nodes.get id = some props) :
    Stage.applyRow (.retract id props) ⟨p, membersOf p nodes⟩ =
      ⟨p, membersOf p (nodes.remove id)⟩ := by
  unfold Stage.applyRow ZRow.retract
  by_cases hp : p.holds props = true
  · have hone : (membersOf p nodes).get id = some 1 := by
      rw [get_membersOf, h]
      simp [Option.filter, hp]
    simp only [hp, if_true, hone, Stage.mk.injEq, true_and]
    rw [if_pos (by decide)]
    refine Table.ext_get fun k => ?_
    rw [Table.get_remove, get_membersOf, get_membersOf, Table.get_remove]
    split_ifs with hk
    · rfl
    · rfl
  · simp only [hp, if_false, Bool.false_eq_true, Stage.mk.injEq, true_and]
    refine Table.ext_get fun k => ?_
    rw [get_membersOf, get_membersOf, Table.get_remove]
    split_ifs with hk
    · subst hk
      simp [h, hp]
    · rfl

/-! ### Buckets -/

/-- What a row adds to a bucket: its value and a count of one, or nothing. -/
def contribution (w : WindowState) (start : ℤ) (props : Props) : ℚ × ℤ :=
  match w.slot props with
  | some (s, val) => if s = start then (val, 1) else 0
  | none => 0

def tally (w : WindowState) (nodes : NodeMap) (start : ℤ) : ℚ × ℤ :=
  total (fun _ props => contribution w start props) nodes

/-- A sum and a count that rows can have: no negative count, and no sum without a count. -/
def Counted (x : ℚ × ℤ) : Prop := 0 ≤ x.2 ∧ (x.2 = 0 → x.1 = 0)

/-- The bucket of a sum and a count; there is none when nothing is counted. -/
def bucketOf (x : ℚ × ℤ) : Option Bucket := if x.2 ≤ 0 then none else some ⟨x.1, x.2⟩

theorem counted_add_contribution (w : WindowState) (start : ℤ) (props : Props) (h : Counted x) :
    Counted (contribution w start props + x) := by
  obtain ⟨hcount, hsum⟩ := h
  unfold contribution
  cases w.slot props with
  | none => simpa using ⟨hcount, hsum⟩
  | some r =>
    obtain ⟨s, val⟩ := r
    by_cases hs : s = start
    · simp only [hs]
      have hpos : 0 < (1 : ℤ) + x.2 := by omega
      exact ⟨hpos.le, fun hzero => absurd hzero hpos.ne'⟩
    · simp only [hs, if_false, zero_add]
      exact ⟨hcount, hsum⟩

theorem counted_sum (w : WindowState) (start : ℤ) :
    ∀ rs : List (String × Props), Counted (rs.map fun r => contribution w start r.2).sum
  | [] => ⟨le_rfl, fun _ => rfl⟩
  | r :: rs => by
    exact counted_add_contribution w start r.2 (counted_sum w start rs)

theorem counted_tally (w : WindowState) (nodes : NodeMap) (start : ℤ) :
    Counted (tally w nodes start) := counted_sum w start nodes.rows

theorem getD_bucketOf (h : Counted x) : (bucketOf x).getD ⟨0, 0⟩ = ⟨x.1, x.2⟩ := by
  obtain ⟨hcount, hsum⟩ := h
  unfold bucketOf
  split_ifs with hx
  · have hzero : x.2 = 0 := le_antisymm hx hcount
    rw [Option.getD_none, hsum hzero, hzero]
  · rfl

theorem get_bump {buckets : Table ℤ Bucket} {start : ℤ} {val : ℚ} {weight : ℤ}
    (hb : buckets.get start = bucketOf x) (hx : Counted x) (s : ℤ) :
    (bump buckets start val weight).get s =
      if s = start then bucketOf (x.1 + weight * val, x.2 + weight) else buckets.get s := by
  unfold bump
  rw [hb, getD_bucketOf hx]
  unfold bucketOf
  by_cases hcount : x.2 + weight ≤ 0
  · simp only [hcount, if_true]
    rw [Table.get_remove]
  · simp only [hcount, if_false]
    rw [Table.get_insert]

theorem get_addSlot (w : WindowState) (props : Props) {buckets : Table ℤ Bucket} {x : ℤ → ℚ × ℤ}
    (hx : ∀ s, Counted (x s)) (hb : ∀ s, buckets.get s = bucketOf (x s)) (s : ℤ) :
    (Circuit.addSlot w buckets props).get s = bucketOf (contribution w s props + x s) := by
  unfold Circuit.addSlot contribution
  cases w.slot props with
  | none => simpa using hb s
  | some slot =>
    obtain ⟨start, val⟩ := slot
    simp only [hb start, getD_bucketOf (hx start)]
    rw [Table.get_insert]
    by_cases hs : s = start
    · subst hs
      have hpos : ¬ (1 : ℤ) + (x s).2 ≤ 0 := by
        have := (hx s).1
        omega
      simp only [if_true, bucketOf, Prod.fst_add, Prod.snd_add, hpos, if_false]
      rw [add_comm val, add_comm 1]
    · rw [if_neg hs, if_neg (Ne.symm hs), zero_add]
      exact hb s

theorem get_foldl_addSlot (w : WindowState) :
    ∀ (rs : List (String × Props)) (buckets : Table ℤ Bucket) (x : ℤ → ℚ × ℤ),
      (∀ s, Counted (x s)) → (∀ s, buckets.get s = bucketOf (x s)) →
      ∀ s, (rs.foldl (fun buckets r => Circuit.addSlot w buckets r.2) buckets).get s =
        bucketOf (x s + (rs.map fun r => contribution w s r.2).sum)
  | [], _, x, _, hb, s => by simpa using hb s
  | r :: rs, buckets, x, hx, hb, s => by
    have hnext := get_foldl_addSlot w rs (Circuit.addSlot w buckets r.2)
      (fun s => contribution w s r.2 + x s)
      (fun s => counted_add_contribution w s r.2 (hx s)) (get_addSlot w r.2 hx hb) s
    rw [List.foldl_cons, List.map_cons, List.sum_cons, hnext, ← add_assoc, add_comm (x s)]

theorem get_recomputeBuckets (w : WindowState) (nodes : NodeMap) (s : ℤ) :
    (Circuit.recomputeBuckets w nodes).get s = bucketOf (tally w nodes s) := by
  have h := get_foldl_addSlot w nodes.rows .empty (fun _ => 0) (fun _ => ⟨le_rfl, fun _ => rfl⟩)
    (fun _ => rfl) s
  rw [zero_add] at h
  exact h

theorem buckets_apply {w : WindowState} {nodes' : NodeMap} {row : ZRow} (hweight : row.weight ≠ 0)
    (htally : ∀ s, tally w nodes' s =
      tally w nodes s + (row.weight * (contribution w s row.props).1,
        row.weight * (contribution w s row.props).2)) :
    (applyToBuckets { w with buckets := Circuit.recomputeBuckets w nodes } [row]).1 =
      { w with buckets := Circuit.recomputeBuckets w nodes' } := by
  simp only [applyToBuckets, hweight, if_false]
  have hslot : ({ w with buckets := Circuit.recomputeBuckets w nodes } : WindowState).slot row.props =
      w.slot row.props := rfl
  rw [hslot]
  cases hr : w.slot row.props with
  | none =>
    simp only [WindowState.mk.injEq, true_and]
    refine Table.ext_get fun s => ?_
    rw [get_recomputeBuckets, get_recomputeBuckets, htally]
    simp [contribution, hr, Prod.mk_zero_zero]
  | some slot =>
    obtain ⟨start, val⟩ := slot
    simp only [WindowState.mk.injEq, true_and]
    refine Table.ext_get fun s => ?_
    rw [get_bump (get_recomputeBuckets w nodes start) (counted_tally w nodes start),
      get_recomputeBuckets, get_recomputeBuckets, htally]
    by_cases hs : s = start
    · subst hs
      simp [contribution, hr, Prod.add_def]
    · simp [contribution, hr, hs, Ne.symm hs, Prod.mk_zero_zero]

theorem buckets_insert (w : WindowState) (h : nodes.get id = none) :
    (applyToBuckets { w with buckets := Circuit.recomputeBuckets w nodes } [.insert id props]).1 =
      { w with buckets := Circuit.recomputeBuckets w (nodes.insert id props) } := by
  refine buckets_apply (by simp [ZRow.insert]) fun s => ?_
  unfold tally
  rw [total_insert h, add_comm]
  simp [ZRow.insert]

theorem buckets_retract (w : WindowState) (h : nodes.get id = some props) :
    (applyToBuckets { w with buckets := Circuit.recomputeBuckets w nodes } [.retract id props]).1 =
      { w with buckets := Circuit.recomputeBuckets w (nodes.remove id) } := by
  refine buckets_apply (by simp [ZRow.retract]) fun s => ?_
  unfold tally
  rw [← total_remove h]
  ext <;> simp [ZRow.retract]

/-! ### Circuits -/

theorem applyToStages_cons (row : ZRow) (rows : Delta) (stages : List Stage) :
    (applyToStages stages (row :: rows)).1 =
      (applyToStages (applyToStages stages [row]).1 rows).1 := by
  by_cases h : row.weight = 0
  · simp only [h, if_true, applyToStages]
  · simp only [h, if_false, applyToStages]

theorem applyToBuckets_cons (row : ZRow) (rows : Delta) (w : WindowState) :
    (applyToBuckets w (row :: rows)).1 = (applyToBuckets (applyToBuckets w [row]).1 rows).1 := by
  rw [applyToBuckets, applyToBuckets]
  by_cases h : row.weight = 0
  · simp only [h, if_true, applyToBuckets]
  · cases w.slot row.props with
    | none => simp only [h, if_false, applyToBuckets]
    | some slot => simp only [h, if_false, applyToBuckets]

theorem apply_cons (c : Circuit) (row : ZRow) (rows : Delta) :
    (c.apply (row :: rows)).1 = ((c.apply [row]).1.apply rows).1 := by
  obtain ⟨stages, window, limit⟩ := c
  cases window with
  | none =>
    simp only [Circuit.apply, Circuit.mk.injEq, and_true]
    exact applyToStages_cons row rows stages
  | some w =>
    simp only [Circuit.apply, Circuit.mk.injEq, Option.some.injEq, true_and, and_true]
    exact applyToBuckets_cons row rows w

theorem apply_nil (c : Circuit) : (c.apply []).1 = c := by
  obtain ⟨stages, window, limit⟩ := c
  cases window with
  | none => rfl
  | some w => rfl

theorem apply_row {nodes' : NodeMap} {row : ZRow} (hc : c.window.isSome →
      c.stages = []) (hweight : row.weight ≠ 0)
    (hstages : ∀ p, Stage.applyRow row ⟨p, membersOf p nodes⟩ = ⟨p, membersOf p nodes'⟩)
    (hbuckets : ∀ w : WindowState,
      (applyToBuckets { w with buckets := Circuit.recomputeBuckets w nodes } [row]).1 =
        { w with buckets := Circuit.recomputeBuckets w nodes' }) :
    ((fill c nodes).apply [row]).1 = fill c nodes' := by
  obtain ⟨stages, window, limit⟩ := c
  cases window with
  | none =>
    simp only [fill, Circuit.apply, Option.map_none, applyToStages, hweight, Circuit.mk.injEq, and_true]
    rw [List.map_map]
    exact List.map_congr_left fun s _ => hstages s.pred
  | some w =>
    obtain rfl : stages = [] := hc rfl
    simp only [fill, Circuit.apply, Option.map_some, List.map_nil, Circuit.mk.injEq,
      Option.some.injEq, true_and, and_true]
    exact hbuckets w

theorem apply_insert (hc : c.window.isSome → c.stages = []) (h : nodes.get id = none) :
    ((fill c nodes).apply [.insert id props]).1 = fill c (nodes.insert id props) :=
  apply_row hc (by simp [ZRow.insert]) (fun p => members_insert p h) fun w => buckets_insert w h

theorem apply_retract (hc : c.window.isSome → c.stages = []) (h : nodes.get id = some props) :
    ((fill c nodes).apply [.retract id props]).1 = fill c (nodes.remove id) :=
  apply_row hc (by simp [ZRow.retract]) (fun p => members_retract p h) fun w => buckets_retract w h

/-- **A mutation takes the state of a graph to the state of its post-image.** -/
theorem apply_delta (hc : c.window.isSome → c.stages = []) (nodes : NodeMap) (m : NodeMutation) :
    ((fill c nodes).apply (m.delta nodes)).1 = fill c (m.post nodes) := by
  cases m with
  | put id after =>
    cases h : nodes.get id with
    | none =>
      simp only [NodeMutation.delta, h]
      exact apply_insert hc h
    | some before =>
      simp only [NodeMutation.delta, NodeMutation.post, h]
      rw [apply_cons, apply_retract hc h, apply_insert hc (Table.get_remove_self nodes id),
        insert_remove]
  | remove id =>
    cases h : nodes.get id with
    | none =>
      have hsame : nodes.remove id = nodes := by
        refine Table.ext_get fun k => ?_
        rw [Table.get_remove]
        split_ifs with hk
        · rw [hk, h]
        · rfl
      simp only [NodeMutation.delta, NodeMutation.post, h, hsame, apply_nil]
    | some before =>
      simp only [NodeMutation.delta, h]
      exact apply_retract hc h

theorem apply_seed (hc : c.window.isSome → c.stages = []) :
    ∀ (rs : List (String × Props)) (nodes nodes' : NodeMap),
      (rs.Pairwise fun a b => a.1 < b.1) → (∀ r ∈ rs, nodes.get r.1 = none) →
      (∀ k v, nodes'.get k = some v ↔ (k, v) ∈ rs ∨ nodes.get k = some v) →
      ((fill c nodes).apply (rs.map fun r => .insert r.1 r.2)).1 = fill c nodes'
  | [], nodes, nodes', _, _, hnodes => by
    have hsame : nodes' = nodes := by
      refine Table.ext_get fun k => Option.ext fun v => ?_
      simpa using hnodes k v
    rw [List.map_nil, apply_nil, hsame]
  | r :: rs, nodes, nodes', hsorted, hfree, hnodes => by
    obtain ⟨hhead, htail⟩ := List.pairwise_cons.mp hsorted
    rw [List.map_cons, apply_cons, apply_insert hc (hfree r List.mem_cons_self)]
    refine apply_seed hc rs (nodes.insert r.1 r.2) nodes' htail (fun q hq => ?_) fun k v => ?_
    · rw [Table.get_insert_of_ne _ _ (hhead q hq).ne']
      exact hfree q (.tail _ hq)
    · rw [hnodes, Table.get_insert]
      by_cases hk : k = r.1
      · have hnone := hfree r (.head _)
        rw [hk, hnone]
        have hout : (r.1, v) ∉ rs := fun hmem => lt_irrefl _ (hhead (r.1, v) hmem)
        simp [hout, Prod.ext_iff, eq_comm]
      · rw [if_neg hk]
        simp [Prod.ext_iff, hk]

/-! ### What is read -/

theorem idSet_membersOf (p : StagePred) (nodes : NodeMap) :
    idSet (membersOf p nodes) (fun e => 0 < e) = idSet nodes p.holds := by
  refine Table.ext_get fun k => ?_
  unfold idSet
  rw [Table.get_mapValues, Table.get_mapValues, Table.get_filter, Table.get_filter, get_membersOf]
  cases (nodes.get k).filter p.holds with
  | none => rfl
  | some props => rfl

/-- **The state of a node map reads as its recomputation.** -/
theorem current_fill (c : Circuit) (nodes : NodeMap) :
    (fill c nodes).current = c.recompute nodes := by
  obtain ⟨stages, window, limit⟩ := c
  cases window with
  | none =>
    simp only [fill, Circuit.current, Option.map_none, List.map_map]
    congr 2
    exact List.map_congr_left fun s _ => idSet_membersOf s.pred nodes
  | some w => rfl

/-! ### Compiled circuits -/

/-- A build as `compile` leaves it: nothing is maintained yet. -/
structure Blank (build : CircuitBuild) : Prop where
  stages : ∀ s ∈ build.stages, s.members = .empty
  window : ∀ w, build.window = some w → w.buckets = .empty

theorem blank_push {build next : CircuitBuild} {i : ℕ} {op : Op} (h : Blank build)
    (hpush : CircuitBuild.push timeseries build i op = .ok next) : Blank next := by
  have hstage : ∀ (p : StagePred), Blank { build with stages := build.stages ++ [.new p] } := by
    refine fun p => ⟨fun s hs => ?_, h.window⟩
    rcases List.mem_append.mp hs with hs | hs
    · exact h.stages s hs
    · rw [List.mem_singleton.mp hs]
      rfl
  unfold CircuitBuild.push at hpush
  split at hpush
  · cases hpush
  cases op with
  | filter preds =>
    simp only [CircuitBuild.pushFilter] at hpush
    split_ifs at hpush
    rw [← Except.ok.inj hpush]
    exact hstage _
  | asOf ts axis =>
    simp only [CircuitBuild.pushAsOf] at hpush
    split_ifs at hpush
    rw [← Except.ok.inj hpush]
    exact hstage _
  | windowAgg secs agg =>
    simp only [CircuitBuild.pushWindowAgg] at hpush
    split_ifs at hpush
    cases hw : CircuitBuild.compileWindowAgg timeseries i build.label secs agg with
    | error e =>
      rw [hw] at hpush
      cases hpush
    | ok w =>
      rw [hw] at hpush
      rw [← Except.ok.inj hpush]
      refine ⟨h.stages, fun w' hw' => ?_⟩
      obtain rfl := Option.some.inj hw'
      unfold CircuitBuild.compileWindowAgg at hw
      split_ifs at hw
      cases secs with
      | finite q =>
        cases hagg : CircuitBuild.parseAgg agg with
        | none =>
          rw [hagg] at hw
          cases hw
        | some a =>
          rw [hagg] at hw
          rw [← Except.ok.inj hw]
      | posInf => cases hw
      | negInf => cases hw
      | nan => cases hw
  | limit k =>
    rw [← Except.ok.inj hpush]
    exact ⟨h.stages, h.window⟩
  | scan label => cases hpush
  | traverse rel lo hi => cases hpush
  | rank query => cases hpush
  | other kind => cases hpush

theorem blank_pushAll : ∀ {ops : List Op} {build next : CircuitBuild} {i : ℕ}, Blank build →
      CircuitBuild.pushAll timeseries build i ops = .ok next → Blank next
  | [], build, next, _, h, hpush => Except.ok.inj hpush ▸ h
  | op :: ops, build, next, i, h, hpush => by
    unfold CircuitBuild.pushAll at hpush
    cases hop : CircuitBuild.push timeseries build i op with
    | error e =>
      rw [hop] at hpush
      cases hpush
    | ok mid =>
      rw [hop] at hpush
      exact blank_pushAll (blank_push h hop) hpush

theorem fill_compiled {plan : Plan} (h : Circuit.compile timeseries plan = .ok c) :
    fill c .empty = c ∧ (c.window.isSome → c.stages = []) := by
  unfold Circuit.compile at h
  split at h
  · rename_i label ops heq
    cases hbuild : CircuitBuild.pushAll timeseries (.scanning label) 1 ops with
    | error e =>
      rw [hbuild] at h
      cases h
    | ok build =>
      rw [hbuild] at h
      obtain rfl := Except.ok.inj h
      have hscan : Blank (.scanning label) :=
        ⟨fun s hs => by rw [List.mem_singleton.mp hs]; rfl, fun w hw => (by cases hw)⟩
      have hblank := blank_pushAll hscan hbuild
      obtain ⟨blabel, stages, window, limit⟩ := build
      cases window with
      | none =>
        refine ⟨?_, fun hnone => (by cases hnone)⟩
        simp only [fill, CircuitBuild.finish, Option.map_none, Circuit.mk.injEq, and_true]
        refine (List.map_congr_left fun s hs => ?_).trans (List.map_id _)
        have hempty : s.members = .empty := hblank.stages s hs
        obtain ⟨p, members⟩ := s
        exact congrArg (Stage.mk p) hempty.symm
      | some w =>
        refine ⟨?_, fun _ => rfl⟩
        have hempty : w.buckets = .empty := hblank.window w rfl
        obtain ⟨wlabel, width, agg, buckets⟩ := w
        obtain rfl : buckets = .empty := hempty
        rfl
  · cases h
  · cases h

/-- **A maintained view equals its recomputation**, whatever supported plan, graph and mutations: what
is read is what the circuit computes from the final node map. -/
theorem current_eq_recompute (timeseries : Bool) (plan : Plan) (c : Circuit)
    (h : Circuit.compile timeseries plan = .ok c) (nodes : NodeMap) (ms : List NodeMutation) :
    (run View.mutate (View.seeded c nodes) ms).circuit.current =
      c.recompute (run View.mutate (View.seeded c nodes) ms).nodes := by
  obtain ⟨hempty, hc⟩ := fill_compiled h
  have hseed : (View.seeded c nodes).circuit = fill c nodes := by
    have hrows := apply_seed hc nodes.rows .empty nodes nodes.sorted (fun _ _ => rfl)
      (fun k v => by rw [Table.mem_rows]; simp)
    rw [hempty] at hrows
    exact hrows
  have hrun : (run View.mutate (View.seeded c nodes) ms).circuit =
      fill c (run View.mutate (View.seeded c nodes) ms).nodes := by
    have hstep : ∀ (v : View) (m : NodeMutation), v.circuit = fill c v.nodes →
        (v.mutate m).circuit = fill c (v.mutate m).nodes := by
      intro v m hv
      unfold View.mutate
      rw [hv]
      exact apply_delta hc v.nodes m
    exact run_invariant hstep ms _ hseed
  rw [hrun]
  exact current_fill c _

def samplePlan : Plan := ⟨[.scan "Note", .filter [.ltNum "year" (.finite 2003)], .limit 5]⟩

def sampleCircuit : Circuit :=
  ⟨[.new (.scan "Note"), .new (.filter [.ltNum "year" (.finite 2003)])], none, some 5⟩

def sampleNodes : NodeMap := Table.empty.insert "a" [("type", .string "Note"), ("year", .int 2001)]

/-- The note is replaced by a document, so that no row is left for the scan, and another document
follows. -/
def sampleMutations : List NodeMutation :=
  [.put "a" [("type", .string "Doc"), ("year", .int 2009)],
    .put "b" [("type", .string "Doc"), ("year", .int 2000)]]

/-- With nothing scanned the filter is a source, in the maintained state as in the recomputation. -/
theorem current_eq_recompute_sample : Circuit.compile true samplePlan = .ok sampleCircuit ∧
      (run View.mutate (View.seeded sampleCircuit sampleNodes) sampleMutations).circuit.current =
        ⟨[⟨"b", none⟩]⟩ := by
  refine ⟨rfl, ?_⟩
  rw [current_eq_recompute true samplePlan sampleCircuit rfl sampleNodes sampleMutations]
  decide +kernel

end Medulla.Query.Maintenance
