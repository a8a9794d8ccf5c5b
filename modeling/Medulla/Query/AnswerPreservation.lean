import Medulla.Query.RunEffect

/-! # When the optimizer preserves the answer

The rules are guarded by how many rows they expect, not by how many there are.

* one run of operators: `runOps_run`; a plan: `runOps_rearranged`;
* the result: `optimize_preserves_rows`. -/

namespace Medulla.Query.AnswerPreservation

open Wire Rows Exec Cost Optimizer Rearrangement RunEffect

variable {input : RowSet} {op b : Op} {after run before : List Op}

/-! ### Answers -/

/-- Two runs of plans give the same set of rows, or both fail. -/
def SameRows : Except ExecError RowSet → Except ExecError RowSet → Prop
  | .ok s, .ok t => ∀ row, row ∈ s.rows ↔ row ∈ t.rows
  | .error _, .error _ => True
  | _, _ => False

theorem sameRows_of_toOption {x y : Except ExecError RowSet} (h : x.toOption = y.toOption) :
    SameRows x y := by
  rcases x with e | s <;> rcases y with e' | t
  · trivial
  · cases h
  · cases h
  · cases h
    exact fun _ => Iff.rfl

theorem toOption_bind (x : Except ExecError RowSet) (f : RowSet → Except ExecError RowSet) :
    (x >>= f).toOption = x.toOption.bind fun s => (f s).toOption := by
  rcases x with e | s <;> rfl

/-! ### Runs of plans -/

def isCore : Op → Bool
  | .scan _ | .filter _ | .asOf _ _ | .rank _ | .traverse _ _ _ | .limit _ => true
  | _ => false

section run

variable {ctx : PlanCtx}

theorem distinct_rankTop {query : List F64} {s : RowSet} {limit : Option ℕ}
    (h : rankTop ctx query input limit = .ok s) : Distinct s.rows := by
  rw [rankTop] at h
  split_ifs at h
  · cases h
    exact List.nodup_nil
  · rcases hw : checkWidth ctx.semantic query with e | u
    · rw [hw] at h
      cases h
    · rw [hw] at h
      cases h
      exact distinct_fromRows _

theorem distinct_stepAt (hop : isCore op = true) {s : RowSet} (hd : Distinct input.rows)
    (h : stepAt ctx op after input = .ok s) : Distinct s.rows := by
  have hfilter : ∀ p : String → Bool, Distinct (input.intersectKeepOrder p).rows :=
    fun p => hd.sublist List.filter_sublist
  cases op with
  | scan label =>
    cases h
    exact distinct_fromRows _
  | filter preds =>
    simp only [stepAt, apply, filterOp] at h
    rcases hf : ctx.filterIds preds with e | passed
    · rw [hf] at h
      cases h
    · rw [hf] at h
      split_ifs at h
      · cases h
        exact distinct_fromRows _
      · cases h
        exact hfilter _
  | asOf ts axis =>
    simp only [stepAt, apply, asOfFilter] at h
    split_ifs at h
    · cases h
      exact distinct_fromRows _
    · cases h
      exact hfilter _
  | rank query =>
    rcases after with _ | ⟨next, after⟩
    · exact distinct_rankTop h
    · cases next <;> exact distinct_rankTop h
  | traverse rel lo hi =>
    cases h
    exact distinct_fromRows _
  | limit k =>
    cases h
    exact hd.sublist (List.take_sublist _ _)
  | _ => cases hop

theorem distinct_runOps : ∀ {ops : List Op} {input s : RowSet}, (∀ op ∈ ops, isCore op = true) →
    Distinct input.rows → runOps ctx input ops = .ok s → Distinct s.rows
  | [], input, s, _, hd, h => by
    cases h
    exact hd
  | op :: ops, input, s, hcore, hd, h => by
    rw [runOps] at h
    rcases hstep : stepAt ctx op ops input with e | next
    · rw [hstep] at h
      cases h
    · rw [hstep] at h
      have hnext := distinct_stepAt (hcore op (by simp)) hd hstep
      exact distinct_runOps (fun o ho => hcore o (by simp [ho])) hnext h

theorem stepAt_eq_apply (h : isRank op = false) (after : List Op) (input : RowSet) :
    stepAt ctx op after input = apply ctx op input := by
  cases op <;> first | rfl | cases h

theorem stepAt_reorderable (op next : Op) (h : isReorderable next = true) (after : List Op)
    (input : RowSet) : stepAt ctx op (next :: after) input = apply ctx op input := by
  cases op <;> first | rfl | (cases next <;> first | rfl | cases h)

theorem runOps_append_of_not_rank (hb : isRank b = false) : ∀ (xs ys : List Op)
    (input : RowSet), runOps ctx input (xs ++ b :: ys) =
      runOps ctx input (xs ++ [b]) >>= fun s => runOps ctx s ys
  | [], ys, input => by
    simp only [List.nil_append, runOps, stepAt_eq_apply hb]
    rcases apply ctx b input <;> rfl
  | op :: xs, ys, input => by
    have hstep : stepAt ctx op (xs ++ b :: ys) input = stepAt ctx op (xs ++ [b]) input := by
      rcases xs with _ | ⟨x, xs⟩
      · cases op <;> first | rfl | (cases b <;> rfl)
      · cases op <;> first | rfl | (cases x <;> rfl)
    simp only [List.cons_append, runOps, hstep]
    rcases stepAt ctx op (xs ++ [b]) input with e | s
    · rfl
    · exact runOps_append_of_not_rank hb xs ys s

theorem runOps_source (source : Op) (ops : List Op) :
    runOps ctx ⟨[]⟩ (source :: ops) = apply ctx source ⟨[]⟩ >>= fun s => runOps ctx s ops := by
  have hstep : stepAt ctx source ops ⟨[]⟩ = apply ctx source ⟨[]⟩ := by
    rcases ops with _ | ⟨next, ops⟩
    · cases source <;> rfl
    · cases source <;> first | rfl | (cases next <;> rfl)
  rw [runOps, hstep]

end run

/-! ### One run -/

/-- A run is handed rows such that a row is left before its last operator, whichever that is, and no
more rows than are ranked one by one if a ranking of it may meet a limit. -/
structure RunSafe (ctx : PlanCtx) (input : RowSet) (run after : List Op) : Prop where
  survivor : ∀ op rest, (op :: rest).Perm run → ∃ row ∈ input.rows, keepsAll ctx rest row.id = true
  few : ∀ k rest, after = .limit k :: rest → (∃ op ∈ run, isRank op = true) →
    input.rows.length ≤ exactRankMax

section oneRun

variable {ctx : PlanCtx}

theorem RunSafe.perm {run' : List Op} (h : RunSafe ctx input run after) (hp : run.Perm run') :
    RunSafe ctx input run' after := by
  refine ⟨fun op rest hr => h.survivor op rest (hr.trans hp.symm), fun k rest hk hrank => ?_⟩
  obtain ⟨op, hop, hr⟩ := hrank
  exact h.few k rest hk ⟨op, hp.mem_iff.mpr hop, hr⟩

theorem RunSafe.of_row {row : Row} (hrow : row ∈ input.rows)
    (hkept : keepsAll ctx run row.id = true) (hlen : input.rows.length ≤ exactRankMax) :
    RunSafe ctx input run after := by
  refine ⟨fun op rest hp => ⟨row, hrow, ?_⟩, fun _ _ _ _ => hlen⟩
  simp only [keepsAll, List.all_eq_true] at hkept ⊢
  exact fun o ho => hkept o (hp.subset (.tail _ ho))

theorem RunSafe.left {front back : List Op} (h : RunSafe ctx input (front ++ op :: back) after) :
    front.foldl (narrow ctx) input.rows ≠ [] := by
  obtain ⟨row, hrow, hkept⟩ := h.survivor op (front ++ back) List.perm_middle.symm
  refine foldl_narrow_ne_nil hrow ?_
  rw [keepsAll, List.all_append, Bool.and_eq_true] at hkept
  exact hkept.1

theorem rankTop_limit {query : List F64} (hne : input.rows ≠ []) (hd : Distinct input.rows)
    (hlen : input.rows.length ≤ exactRankMax) (k : ℕ) (ops : List Op) :
    (rankTop ctx query input (some k) >>= fun s => runOps ctx s (.limit k :: ops)) =
      rankTop ctx query input none >>= fun s => runOps ctx s (.limit k :: ops) := by
  rw [rankTop_exact hne hd (Or.inr hlen), rankTop_exact hne hd (Or.inl rfl)]
  rcases checkWidth ctx.semantic query with e | u
  · rfl
  · have hall : (rankRows ctx query input.rows).take input.rows.length =
        rankRows ctx query input.rows := List.take_of_length_le (length_rankRows_le _)
    simp only [Except.map, bind, Except.bind, Option.getD_some, Option.getD_none, hall, runOps,
      stepAt, apply, RowSet.limit, List.take_take, min_self]

def settled (ctx : PlanCtx) (run : List Op) (rows : List Row) : Option RowSet :=
  if run.all (runs ctx) then some ⟨run.foldl (narrow ctx) rows⟩ else none

theorem settled_cons (op : Op) (run : List Op) (rows : List Row) : settled ctx (op :: run) rows =
      (if runs ctx op then some (narrow ctx rows op) else none).bind (settled ctx run) := by
  unfold settled
  by_cases h : runs ctx op <;> simp [h]

/-- **A safe run** leaves the rows its operators make of the ones it is handed. The induction is on
the run; the operators already done are in the rows. -/
theorem runOps_run : ∀ {run after : List Op} {input : RowSet},
    (∀ op ∈ run, isReorderable op = true) → Distinct input.rows →
    (∀ front op back, run = front ++ op :: back → front.foldl (narrow ctx) input.rows ≠ []) →
    (∀ k rest, after = .limit k :: rest → (∃ op ∈ run, isRank op = true) →
      input.rows.length ≤ exactRankMax) →
    (runOps ctx input (run ++ after)).toOption =
      (settled ctx run input.rows).bind fun s => (runOps ctx s after).toOption
  | [], after, input, _, _, _, _ => by simp [settled]
  | op :: run, after, input, hr, hd, hleft, hexact => by
    have hne : input.rows ≠ [] := hleft [] op run rfl
    have hop := hr op (by simp)
    have hstep : (runOps ctx input (op :: run ++ after)).toOption =
        (apply ctx op input).toOption.bind fun s => (runOps ctx s (run ++ after)).toOption := by
      rcases run with _ | ⟨next, run⟩
      · cases op with
        | rank query =>
          rcases after with _ | ⟨b, after⟩
          · rw [← toOption_bind]
            rfl
          · cases b with
            | limit k =>
              have hlen := hexact k after rfl ⟨.rank query, by simp, rfl⟩
              rw [← toOption_bind, apply, List.nil_append, ← rankTop_limit hne hd hlen]
              rfl
            | _ =>
              rw [← toOption_bind]
              rfl
        | _ =>
          rw [← toOption_bind]
          rfl
      · rw [List.cons_append, List.cons_append, runOps,
          stepAt_reorderable op next (hr next (by simp)), toOption_bind]
    rw [hstep, apply_reorderable hop hne hd, settled_cons]
    by_cases hruns : runs ctx op = true
    · simp only [hruns]
      refine runOps_run (fun o ho => hr o (by simp [ho])) (Distinct.narrow hd op) ?_ ?_
      · rintro front o back rfl
        exact hleft (op :: front) o back rfl
      · rintro k rest hk ⟨o, ho, hrank⟩
        exact (length_narrow_le input.rows op).trans (hexact k rest hk ⟨o, by simp [ho], hrank⟩)
    · simp [hruns]

theorem settled_perm {run' : List Op} (hp : run.Perm run') (hrank : rankings run = rankings run')
    (rows : List Row) : settled ctx run rows = settled ctx run' rows := by
  have hkeeps : ∀ id, keepsAll ctx run id = keepsAll ctx run' id := fun id => hp.all_eq
  have hruns : run.all (runs ctx) = run'.all (runs ctx) := hp.all_eq
  simp only [settled, foldl_narrow, hruns, hrank, hkeeps]

theorem runOps_runPerm {T : List Op → Prop} {run' : List Op} (hp : RunPerm T run run')
    (hd : Distinct input.rows) (hsafe : T run → RunSafe ctx input run after) :
    (runOps ctx input (run ++ after)).toOption = (runOps ctx input (run' ++ after)).toOption := by
  by_cases heq : run = run'
  · rw [heq]
  · have hs := hsafe (hp.touched heq)
    have hs' := hs.perm hp.perm
    rw [runOps_run hp.reorderable hd (fun front op back h => ?_) hs.few,
      runOps_run hp.reorderable' hd (fun front op back h => ?_) hs'.few,
      settled_perm hp.perm hp.rankings_eq]
    · subst h
      exact hs'.left
    · subst h
      exact hs.left

end oneRun

/-! ### The whole plan -/

/-- A part of a plan after which a run may start: its first operator, or all up to a barrier. -/
def Starts (before : List Op) : Prop :=
  (∃ source, before = [source]) ∨ ∃ front b, before = front ++ [b] ∧ isReorderable b = false

/-- A maximal run of a plan, after its first operator. -/
structure RunAt (ops before run after : List Op) : Prop where
  split : ops = before ++ (run ++ after)
  starts : Starts before
  reorderable : ∀ op ∈ run, isReorderable op = true
  ends : after = [] ∨ ∃ b rest, after = b :: rest ∧ isReorderable b = false

/-- Every run of a plan that a rule may reorder is safe on the rows that really reach it. -/
structure OrderSafe (ctx : PlanCtx) (plan : Plan) : Prop where
  core : ∀ op ∈ plan.ops, isCore op = true
  safe : ∀ before run after, RunAt plan.ops before run after → Touchable run →
    ∀ input, runOps ctx ⟨[]⟩ before = .ok input → RunSafe ctx input run after

section plan

variable {ctx : PlanCtx}

theorem isRank_of_barrier (h : isReorderable b = false) : isRank b = false := by
  rw [isReorderable, Bool.or_eq_false_iff] at h
  exact h.2

theorem runOps_append_starts (h : Starts before) (ops : List Op) :
    runOps ctx ⟨[]⟩ (before ++ ops) = runOps ctx ⟨[]⟩ before >>= fun s => runOps ctx s ops := by
  rcases h with ⟨source, rfl⟩ | ⟨front, b, rfl, hb⟩
  · rw [List.singleton_append, runOps_source, runOps_source]
    rcases apply ctx source ⟨[]⟩ <;> rfl
  · rw [List.append_assoc, List.singleton_append, runOps_append_of_not_rank (isRank_of_barrier hb)]

theorem distinct_before {ops xs : List Op} (hcore : ∀ op ∈ ops, isCore op = true)
    (hops : ops = before ++ xs) (hrun : runOps ctx ⟨[]⟩ before = .ok input) :
    Distinct input.rows := by
  have hnil : Distinct (⟨[]⟩ : RowSet).rows := List.nodup_nil
  refine distinct_runOps (fun op hop => hcore op ?_) hnil hrun
  rw [hops]
  exact List.mem_append_left _ hop

theorem RunSafe.head {xs : List Op} (h : RunSafe ctx input run (b :: xs)) :
    RunSafe ctx input run [b] := by
  refine ⟨h.survivor, fun k rest hk => h.few k xs ?_⟩
  rw [(List.cons.inj hk).1]

/-- **Rearranged plans.** From where a run may start, a plan whose runs are safe and a rearrangement
of it give the same rows in the same order. -/
theorem runOps_rearranged {ops xs ys : List Op} (h : Rearranged Touchable xs ys)
    (hcore : ∀ op ∈ ops, isCore op = true)
    (hsafe : ∀ before run after, RunAt ops before run after → Touchable run →
      ∀ input, runOps ctx ⟨[]⟩ before = .ok input → RunSafe ctx input run after)
    (hops : ops = before ++ xs) (hstart : Starts before) (hrun : runOps ctx ⟨[]⟩ before = .ok input) :
    (runOps ctx input xs).toOption = (runOps ctx input ys).toOption := by
  induction h generalizing before input with
  | @last run run' hp =>
    have hd : Distinct input.rows := distinct_before hcore hops hrun
    have hat : RunAt ops before run [] :=
      ⟨by rw [hops, List.append_nil], hstart, hp.reorderable, Or.inl rfl⟩
    have heq := runOps_runPerm hp hd fun ht => hsafe before run [] hat ht input hrun
    rwa [List.append_nil, List.append_nil] at heq
  | @barrier run run' b xs ys hp hb _ ih =>
    have hd : Distinct input.rows := distinct_before hcore hops hrun
    have hat : RunAt ops before run (b :: xs) :=
      ⟨hops, hstart, hp.reorderable, Or.inr ⟨b, xs, rfl, hb⟩⟩
    have heq := runOps_runPerm hp hd fun ht => (hsafe before run _ hat ht input hrun).head
    have hnr := isRank_of_barrier hb
    rw [runOps_append_of_not_rank hnr run xs, runOps_append_of_not_rank hnr run' ys,
      toOption_bind, toOption_bind, ← heq]
    rcases hmid : runOps ctx input (run ++ [b]) with e | s
    · rfl
    · have hops' : ops = (before ++ (run ++ [b])) ++ xs := by
        rw [hops]
        simp
      have hstart' : Starts (before ++ (run ++ [b])) := Or.inr ⟨before ++ run, b, by simp, hb⟩
      have hrun' : runOps ctx ⟨[]⟩ (before ++ (run ++ [b])) = .ok s := by
        rw [runOps_append_starts hstart, hrun]
        exact hmid
      exact ih hops' hstart' hrun'

theorem execute_optimize (card : PlanStats) {plan : Plan} (h : OrderSafe ctx plan) :
    (execute ctx (optimize card plan)).toOption = (execute ctx plan).toOption := by
  obtain ⟨ops⟩ := plan
  rcases ops with _ | ⟨source, rest⟩
  · rfl
  · obtain ⟨rest', hopt, hre⟩ := optimize_rearranged card source rest
    rw [execute, execute, hopt, runOps_source, runOps_source]
    rcases hsrc : apply ctx source ⟨[]⟩ with e | s
    · rfl
    · have hrun : runOps ctx ⟨[]⟩ [source] = .ok s := by
        rw [runOps_source, hsrc]
        rfl
      exact (runOps_rearranged hre h.core h.safe rfl (Or.inl ⟨source, rfl⟩) hrun).symm

/-- **Answer preservation**, for every plan, graph and statistics: if at every run that a rule may
reorder the rows that reach it leave a row before its last operator whichever comes last (and are few
enough to be ranked one by one where a ranking may meet a limit), the optimized plan returns the same
rows. -/
theorem optimize_preserves_rows (ctx : PlanCtx) (card : PlanStats) (plan : Plan)
    (h : OrderSafe ctx plan) : SameRows (execute ctx (optimize card plan)) (execute ctx plan) :=
  sameRows_of_toOption (execute_optimize card h)

end plan

/-! ### A sample -/

/-- Thirteen documents; the first is not live before 500 and is the only hot one. -/
def sampleView : GraphView where
  nodeProperties :=
    ("d01", some [("type", .string "Doc"), ("hot", .bool true), ("valid_from", .int 500)]) ::
      ["d02", "d03", "d04", "d05", "d06", "d07", "d08", "d09", "d10", "d11", "d12", "d13"].map
        fun id => (id, some [("type", .string "Doc"), ("hot", .bool false)])
  nodup := by decide
  topology := []
  edgeProperties := []

def sampleCtx : PlanCtx where
  view := sampleView
  semantic :=
    { dim := 1
      score := fun _ id => if (sampleView.nodeProperties.lookup id).isSome then some 1 else none
      semanticSearchFiltered := fun _ n allow =>
        (((sampleView.nodeProperties.map Prod.fst).filter allow).take n).map fun id => (id, 1) }
  filterIds := fun preds => .ok (sampleView.nodeProperties.filterMap fun n =>
    n.2.bind fun props => if preds.all (PredEval.predHolds props) then some n.1 else none)
  applyOther := fun _ _ => .error (.refused "operator of another modality")

def sampleStats : PlanStats where
  nodeCount := 13
  edgeCount := 0
  embeddingCount := 13
  fracEq := fun _ => none
  fracGt := fun _ _ => none
  fracLt := fun _ _ => none
  log2 := fun n => Nat.log2 n

def hot : Op := .filter [.cmp "hot" .eq (.bool true)]

/-- Two instants, then a filter nothing live passes. -/
def instantsPlan : Plan :=
  ⟨[.scan "Doc", .asOf (.finite 100) .valid, .asOf (.finite 200) .valid, hot]⟩

def rankPlan : Plan := ⟨[.scan "Doc", .rank [.finite 1], hot, .limit 2]⟩

/-- **The estimates are not the data.** The optimizer runs the filter first; its only row is not live at
the first instant, so the second starts over from the whole graph. -/
theorem optimize_restarts_from_source : ¬ SameRows
    (execute sampleCtx (optimize sampleStats instantsPlan)) (execute sampleCtx instantsPlan) := by
  have hplan : (execute sampleCtx instantsPlan).toOption = some ⟨[]⟩ := by decide +kernel
  have hopt : ((execute sampleCtx (optimize sampleStats instantsPlan)).toOption.map
      fun s => s.rows.length) = some 12 := by decide +kernel
  rcases hx : execute sampleCtx (optimize sampleStats instantsPlan) with e | s
  · simp [hx, Except.toOption] at hopt
  · rcases hy : execute sampleCtx instantsPlan with e | t
    · simp [hy, Except.toOption] at hplan
    · rw [hy] at hplan
      cases hplan
      rw [hx] at hopt
      rcases hs : s.rows with _ | ⟨r, rows⟩
      · simp [Except.toOption, hs] at hopt
      · intro hsame
        have := (hsame r).mp (by rw [hs]; simp)
        simp at this

theorem ne_nil_of_touchable (h : Touchable run) : run ≠ [] := by
  rintro rfl
  rcases h with ⟨⟨op, hop, -⟩, -⟩ | ⟨hlen, -⟩
  · simp at hop
  · simp at hlen

theorem rankPlan_runAt (h : RunAt rankPlan.ops before run after) (ht : Touchable run) :
    before = [.scan "Doc"] := by
  obtain ⟨hsplit, hstart, -, -⟩ := h
  rcases hstart with ⟨source, rfl⟩ | ⟨front, b, rfl, hb⟩
  · rw [List.singleton_append] at hsplit
    rw [(List.cons.inj hsplit).1]
  · rcases front with _ | ⟨x, _ | ⟨y, _ | ⟨z, front⟩⟩⟩
    · rw [List.nil_append] at hsplit
      rw [List.nil_append, (List.cons.inj hsplit).1]
    · simp only [rankPlan, List.cons_append, List.nil_append, List.cons.injEq] at hsplit
      rw [← hsplit.2.1] at hb
      cases hb
    · simp only [rankPlan, List.cons_append, List.nil_append, List.cons.injEq] at hsplit
      rw [← hsplit.2.2.1] at hb
      cases hb
    · have hlen := congrArg List.length hsplit
      simp only [rankPlan, List.length_cons, List.length_append] at hlen
      have hrun := List.length_pos_iff.mpr (ne_nil_of_touchable ht)
      omega

theorem orderSafe_rankPlan : OrderSafe sampleCtx rankPlan := by
  refine ⟨by decide, fun before run after hat htouch input hrun => ?_⟩
  obtain rfl := rankPlan_runAt hat htouch
  have hscan : ((runOps sampleCtx ⟨[]⟩ [.scan "Doc"]).toOption.map fun s =>
      decide (s.rows.length ≤ exactRankMax ∧ ⟨"d01", none⟩ ∈ s.rows)) = some true := by
    decide +kernel
  rw [hrun] at hscan
  simp only [Except.toOption, Option.map_some, Option.some.injEq, decide_eq_true_eq] at hscan
  refine RunSafe.of_row hscan.2 ?_ hscan.1
  have hall : keepsAll sampleCtx [.rank [.finite 1], hot, .limit 2] "d01" = true := by
    decide +kernel
  have htail : [.rank [.finite 1], hot, .limit 2] = run ++ after := (List.cons.inj hat.split).2
  rw [htail, keepsAll, List.all_append, Bool.and_eq_true] at hall
  exact hall.1

/-- The ranking plan is rewritten to filter first, and answers the same. -/
theorem optimize_preserves_rows_rankPlan : OrderSafe sampleCtx rankPlan ∧
    SameRows (execute sampleCtx (optimize sampleStats rankPlan)) (execute sampleCtx rankPlan) :=
  ⟨orderSafe_rankPlan, optimize_preserves_rows sampleCtx sampleStats rankPlan orderSafe_rankPlan⟩

end Medulla.Query.AnswerPreservation
