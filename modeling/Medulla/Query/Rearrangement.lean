import Medulla.Query.Optimizer

/-! # What the optimizer can do to a plan

The rules only permute the operators inside maximal runs of filters, instants and rankings.

* the results: `optimize_rearranged`, `optimize_keeps_operators`. -/

namespace Medulla.Query.Rearrangement

open Library.Arrangements Query.Wire Query.Cost Query.Optimizer

/-! ### Permuted runs -/

def rankQuery : Op → Option (List F64)
  | .rank query => some query
  | _ => none

def rankings (run : List Op) : List (List F64) := run.filterMap rankQuery

/-- The operators that stay where they are, at their places. -/
def barriers (ops : List Op) : List (Option Op) :=
  ops.map fun op => if isReorderable op then none else some op

def Mixed (run : List Op) : Prop := (∃ op ∈ run, isNarrower op) ∧ ∃ op ∈ run, isRank op

def Searched (run : List Op) : Prop := 3 ≤ run.length ∧ run.length ≤ maxChainSegment

def Touchable (run : List Op) : Prop := Mixed run ∨ Searched run

/-- A run and an order of it that keeps its rankings in order; another order only if `T` holds. -/
structure RunPerm (T : List Op → Prop) (run run' : List Op) : Prop where
  reorderable : ∀ op ∈ run, isReorderable op = true
  perm : run.Perm run'
  rankings_eq : rankings run = rankings run'
  touched : run ≠ run' → T run

/-- Two lists of operators with the same barriers and permuted runs between them. -/
inductive Rearranged (T : List Op → Prop) : List Op → List Op → Prop
  | last {run run' : List Op} : RunPerm T run run' → Rearranged T run run'
  | barrier {run run' : List Op} {b : Op} {xs ys : List Op} : RunPerm T run run' →
      isReorderable b = false → Rearranged T xs ys → Rearranged T (run ++ b :: xs) (run' ++ b :: ys)

section relation

variable {T T' : List Op → Prop} {run run' xs ys zs : List Op} {a b : Op}

theorem RunPerm.refl (h : ∀ op ∈ run, isReorderable op = true) : RunPerm T run run :=
  ⟨h, .refl _, rfl, fun hne => absurd rfl hne⟩

theorem RunPerm.mono (hT : ∀ r, T r → T' r) (h : RunPerm T run run') : RunPerm T' run run' :=
  ⟨h.reorderable, h.perm, h.rankings_eq, fun hne => hT run (h.touched hne)⟩

theorem RunPerm.trans (h : RunPerm T xs ys) (h' : RunPerm T ys zs) : RunPerm T xs zs := by
  refine ⟨h.reorderable, h.perm.trans h'.perm, h.rankings_eq.trans h'.rankings_eq, fun hne => ?_⟩
  by_cases hxy : xs = ys
  · subst hxy
    exact h'.touched hne
  · exact h.touched hxy

theorem RunPerm.barriers_eq (h : RunPerm T run run') : barriers run = barriers run' := by
  have hnone : ∀ r ⊆ run, barriers r = List.replicate r.length none := fun r hr =>
    List.map_eq_replicate_iff.mpr fun op hop => if_pos (h.reorderable op (hr hop))
  rw [hnone run fun _ => id, hnone run' h.perm.symm.subset, h.perm.length_eq]

theorem Rearranged.kept (h : Rearranged T xs ys) :
    xs.Perm ys ∧ rankings xs = rankings ys ∧ barriers xs = barriers ys := by
  induction h with
  | last hp => exact ⟨hp.perm, hp.rankings_eq, hp.barriers_eq⟩
  | barrier hp _ _ ih =>
    obtain ⟨hperm, hrank, hbarrier⟩ := ih
    have hrun := hp.rankings_eq
    have hrun' := hp.barriers_eq
    unfold rankings barriers at *
    refine ⟨hp.perm.append (hperm.cons _), ?_, ?_⟩
    · simp only [List.filterMap_append, List.filterMap_cons, hrun, hrank]
    · simp only [List.map_append, List.map_cons, hrun', hbarrier]

theorem Rearranged.mono (hT : ∀ r, T r → T' r) (h : Rearranged T xs ys) : Rearranged T' xs ys := by
  induction h with
  | last hp => exact .last (hp.mono hT)
  | barrier hp hb _ ih => exact .barrier (hp.mono hT) hb ih

theorem RunPerm.reorderable' (h : RunPerm T run run') : ∀ op ∈ run', isReorderable op = true :=
  fun op hop => h.reorderable op (h.perm.mem_iff.mpr hop)

theorem run_split_unique : ∀ {run run' : List Op} {b b' : Op} {xs ys : List Op},
    (∀ op ∈ run, isReorderable op = true) → (∀ op ∈ run', isReorderable op = true) →
    isReorderable b = false → isReorderable b' = false → run ++ b :: xs = run' ++ b' :: ys →
    run = run' ∧ b = b' ∧ xs = ys
  | [], [], b, b', xs, ys, _, _, _, _, h => by simpa using h
  | [], o :: run', b, b', xs, ys, _, hr', hb, _, h => by
    simp only [List.nil_append, List.cons_append, List.cons.injEq] at h
    have := hr' o (by simp)
    simp [← h.1, hb] at this
  | o :: run, [], b, b', xs, ys, hr, _, _, hb', h => by
    simp only [List.nil_append, List.cons_append, List.cons.injEq] at h
    have := hr o (by simp)
    simp [h.1, hb'] at this
  | o :: run, o' :: run', b, b', xs, ys, hr, hr', hb, hb', h => by
    simp only [List.cons_append, List.cons.injEq] at h
    obtain ⟨rfl, rfl, rfl⟩ := run_split_unique (fun op hop => hr op (by simp [hop]))
      (fun op hop => hr' op (by simp [hop])) hb hb' h.2
    exact ⟨by rw [h.1], rfl, rfl⟩

theorem Rearranged.trans (h : Rearranged T xs ys) (h' : Rearranged T ys zs) :
    Rearranged T xs zs := by
  induction h generalizing zs with
  | @last run run' hp =>
    cases h' with
    | last hp' => exact .last (hp.trans hp')
    | @barrier r r' b ys' _ hp' hb hrest =>
      have := hp.reorderable' b (by simp)
      simp [hb] at this
  | @barrier run run' b xs ys hp hb _ ih =>
    generalize hmid : run' ++ b :: ys = mid at h'
    cases h' with
    | last hp' =>
      have := hp'.reorderable b (by rw [← hmid]; simp)
      simp [hb] at this
    | @barrier r r' b' ys' zs' hp' hb' hrest =>
      obtain ⟨rfl, rfl, rfl⟩ := run_split_unique hp.reorderable' hp'.reorderable hb hb' hmid
      exact .barrier (hp.trans hp') hb (ih hrest)

theorem Rearranged.append_left {r r' : List Op} (hr : ∀ op ∈ r, isReorderable op = true)
    (hperm : r.Perm r') (hrank : rankings r = rankings r')
    (hT : ∀ {s s' : List Op}, r ++ s ≠ r' ++ s' → (s ≠ s' → T s) → T (r ++ s))
    (h : Rearranged T xs ys) : Rearranged T (r ++ xs) (r' ++ ys) := by
  have hrun : ∀ {s s' : List Op}, RunPerm T s s' → RunPerm T (r ++ s) (r' ++ s') := by
    intro s s' hp
    refine ⟨fun op hop => ?_, hperm.append hp.perm, ?_, fun hne => hT hne hp.touched⟩
    · rcases List.mem_append.mp hop with hop | hop
      · exact hr op hop
      · exact hp.reorderable op hop
    · simp only [rankings, List.filterMap_append] at hrank ⊢
      congr 1
      exact hp.rankings_eq
  cases h with
  | last hp => exact .last (hrun hp)
  | barrier hp hb hrest =>
    rw [← List.append_assoc, ← List.append_assoc]
    exact .barrier (hrun hp) hb hrest

theorem Rearranged.cons_barrier (hb : isReorderable b = false) (h : Rearranged T xs ys) :
    Rearranged T (b :: xs) (b :: ys) := by
  have hnil : RunPerm T [] [] := .refl (by simp)
  exact .barrier hnil hb h

theorem Rearranged.refl_append (xs : List Op) (h : ∀ op ∈ run, isReorderable op = true) :
    Rearranged T (run ++ xs) (run ++ xs) := by
  induction xs generalizing run with
  | nil =>
    rw [List.append_nil]
    exact .last (.refl h)
  | cons op xs ih =>
    rcases hop : isReorderable op with _ | _
    · have hrest : Rearranged T ([] ++ xs) ([] ++ xs) := ih (by simp)
      exact .barrier (.refl h) hop hrest
    · rw [List.append_cons]
      refine ih fun o ho => ?_
      rcases List.mem_append.mp ho with ho | ho
      · exact h o ho
      · rw [List.mem_singleton.mp ho]
        exact hop

theorem Rearranged.refl (xs : List Op) : Rearranged T xs xs := by
  have hnil : ∀ op ∈ ([] : List Op), isReorderable op = true := by simp
  exact Rearranged.refl_append xs hnil

end relation

/-! ### The pair rule -/

theorem placePair_cases (card : PlanStats) (before : List Op) (a b : Op) (after : List Op) :
    placePair card before a b after = (a, b) ∨ placePair card before a b after = (b, a) := by
  unfold placePair
  split_ifs <;> simp

theorem rankQuery_of_isNarrower {op : Op} (h : isNarrower op = true) : rankQuery op = none := by
  cases op <;> simp_all [isNarrower, rankQuery]

theorem rankings_pair {a b : Op}
    (h : (isNarrower a && isRank b || isRank a && isNarrower b) = true) :
    rankings [a, b] = rankings [b, a] := by
  simp only [Bool.or_eq_true, Bool.and_eq_true] at h
  rcases h with ⟨ha, -⟩ | ⟨-, hb⟩
  · simp [rankings, List.filterMap_cons, rankQuery_of_isNarrower ha]
  · simp [rankings, List.filterMap_cons, rankQuery_of_isNarrower hb]

theorem mixed_pair {a b : Op} (h : (isNarrower a && isRank b || isRank a && isNarrower b) = true)
    (run : List Op) : Mixed (a :: b :: run) := by
  simp only [Bool.or_eq_true, Bool.and_eq_true] at h
  rcases h with ⟨ha, hb⟩ | ⟨ha, hb⟩
  · exact ⟨⟨a, by simp, ha⟩, b, by simp, hb⟩
  · exact ⟨⟨b, by simp, hb⟩, a, by simp, ha⟩

theorem reorderable_pair {a b : Op}
    (h : (isNarrower a && isRank b || isRank a && isNarrower b) = true) :
    ∀ op ∈ [a, b], isReorderable op = true := by
  simp only [Bool.or_eq_true, Bool.and_eq_true] at h
  rcases h with ⟨ha, hb⟩ | ⟨ha, hb⟩ <;> simp [isReorderable, ha, hb]

theorem Mixed.cons {run : List Op} (h : Mixed run) (a : Op) : Mixed (a :: run) := by
  obtain ⟨⟨n, hn, hn'⟩, r, hr, hr'⟩ := h
  exact ⟨⟨n, by simp [hn], hn'⟩, r, by simp [hr], hr'⟩

theorem rearranged_pairs (card : PlanStats) (before ops : List Op) :
    Rearranged Mixed ops (reorderNarrowerRankPairs card before ops) := by
  fun_induction reorderNarrowerRankPairs card before ops with
  | case1 before a b rest hpair p ih =>
    have hp : p = (a, b) ∨ p = (b, a) := placePair_cases card before a b rest
    have hmixed : ∀ {s s' : List Op}, [a, b] ++ s ≠ [p.1, p.2] ++ s' → (s ≠ s' → Mixed s) →
        Mixed ([a, b] ++ s) := fun _ _ => mixed_pair hpair _
    rcases hp with hp | hp
    · exact ih.append_left (reorderable_pair hpair) (by simp [hp]) (by simp [hp]) hmixed
    · refine ih.append_left (reorderable_pair hpair) ?_ ?_ hmixed
      · rw [hp]
        exact List.Perm.swap b a []
      · rw [hp]
        exact rankings_pair hpair
  | case2 before a b rest hpair ih =>
    rcases ha : isReorderable a with _ | _
    · exact ih.cons_barrier ha
    · have hkeep : ∀ {s s' : List Op}, [a] ++ s ≠ [a] ++ s' → (s ≠ s' → Mixed s) →
          Mixed ([a] ++ s) := by
        intro s s' hne hs
        exact (hs fun heq => hne (by rw [heq])).cons a
      exact ih.append_left (by simpa using ha) (.refl _) rfl hkeep
  | case3 before ops hshort =>
    rcases ops with _ | ⟨a, _ | ⟨b, rest⟩⟩
    · exact .refl _
    · exact .refl _
    · exact absurd rfl (hshort a b rest)

/-! ### The global rule -/

/-- An operator without the query of a ranking: what its estimates depend on. -/
def withoutQuery : Op → Op
  | .rank _ => .rank []
  | op => op

@[simp]
theorem rowsOut_withoutQuery (card : PlanStats) (op : Op) (inCard : ℚ) :
    card.rowsOut (withoutQuery op) inCard = card.rowsOut op inCard := by
  cases op <;> rfl

@[simp]
theorem costOf_withoutQuery (card : PlanStats) (op : Op) (inCard : ℚ) :
    card.costOf (withoutQuery op) inCard = card.costOf op inCard := by
  cases op <;> rfl

@[simp]
theorem selectivity_withoutQuery (card : PlanStats) (op : Op) (inCard : ℚ) :
    card.selectivity (withoutQuery op) inCard = card.selectivity op inCard := by
  simp [PlanStats.selectivity]

theorem chainCost_withoutQuery (card : PlanStats) : ∀ (ops : List Op) (running total : ℚ),
    card.chainCost (ops.map withoutQuery) running total = card.chainCost ops running total
  | [], running, total => rfl
  | op :: ops, running, total => by
    simp only [List.map_cons, PlanStats.chainCost, rowsOut_withoutQuery, costOf_withoutQuery,
      chainCost_withoutQuery card ops]

theorem permutationCost_withoutQuery (card : PlanStats) (ops : List Op) (seed : ℚ) (topK : ℕ) :
    card.permutationCost (ops.map withoutQuery) seed topK = card.permutationCost ops seed topK := by
  rcases ops with _ | ⟨op, ops⟩
  · rfl
  · have hchain := chainCost_withoutQuery card (op :: ops) seed 0
    have hsel : (ops.map withoutQuery).map (fun o => card.selectivity o seed) =
        ops.map fun o => card.selectivity o seed := by simp
    rw [List.map_cons] at hchain ⊢
    cases op with
    | rank query =>
      simp only [withoutQuery, PlanStats.permutationCost]
      rw [hsel]
      simp only [chainCost_withoutQuery]
    | _ => exact hchain

theorem refs_range (segment : List Op) :
    refs segment (List.range segment.length) = segment := by
  unfold refs
  induction segment with
  | nil => rfl
  | cons op segment ih =>
    rw [List.length_cons, List.range_succ_eq_map, List.filterMap_cons]
    simp only [List.getElem?_cons_zero, List.filterMap_map, Function.comp_def,
      List.getElem?_cons_succ]
    rw [ih]

def rankAt (segment : List Op) (i : ℕ) : Bool := (segment[i]?).any isRank

theorem rankings_refs (segment : List Op) (perm : List ℕ) :
    rankings (refs segment perm) = rankings (refs segment (perm.filter (rankAt segment))) := by
  simp only [rankings, refs, List.filterMap_filterMap, List.filterMap_filter]
  refine List.filterMap_congr fun i _ => ?_
  rcases h : segment[i]? with _ | op
  · simp
  · cases op <;> simp [rankAt, h, isRank, rankQuery]

theorem cost_swap (card : PlanStats) (segment : List Op) (seed : ℚ) (topK : ℕ)
    (a : List ℕ) (i : ℕ) (b : List ℕ) (j : ℕ) (c : List ℕ) (hi : rankAt segment i = true)
    (hj : rankAt segment j = true) :
    card.permutationCost (refs segment (a ++ i :: (b ++ j :: c))) seed topK =
      card.permutationCost (refs segment (a ++ j :: (b ++ i :: c))) seed topK := by
  have hrank : ∀ k, rankAt segment k = true → ∃ q, segment[k]? = some (.rank q) := by
    intro k hk
    rcases h : segment[k]? with _ | op
    · simp [rankAt, h] at hk
    · cases op <;> simp_all [rankAt, isRank]
  obtain ⟨q, hq⟩ := hrank i hi
  obtain ⟨r, hr⟩ := hrank j hj
  rw [← permutationCost_withoutQuery, ← permutationCost_withoutQuery card (refs _ _)]
  simp [refs, hq, hr, withoutQuery]

theorem bestPermutation_spec {card : PlanStats} {segment best : List Op} {seed : ℚ} {topK : ℕ}
    (h : bestPermutation card segment seed topK = some best) :
    segment.Perm best ∧ rankings segment = rankings best := by
  simp only [bestPermutation, Option.map_eq_some_iff, Prod.exists] at h
  obtain ⟨c, w, hw, rfl⟩ := h
  obtain ⟨hperm, hfilter⟩ := firstBest_filter_eq (by norm_num) (cost_swap card segment seed topK)
    List.pairwise_lt_range hw
  constructor
  · have := hperm.symm.filterMap (segment[·]?)
    rwa [← refs, refs_range] at this
  · rw [rankings_refs segment w, hfilter, ← rankings_refs, refs_range]

theorem runPerm_reorderSegment (card : PlanStats) (before : List Op) {segment : List Op}
    (after : List Op) (h : ∀ op ∈ segment, isReorderable op = true) :
    RunPerm Searched segment (reorderSegment card before segment after) := by
  unfold reorderSegment
  split_ifs with hlen
  · rcases hbest : bestPermutation card segment (cardBefore card before) (trailingTopK after)
    · exact .refl h
    · obtain ⟨hperm, hrank⟩ := bestPermutation_spec hbest
      exact ⟨h, hperm, hrank, fun _ => hlen⟩
  · exact .refl h

theorem rearranged_chains (card : PlanStats) (before run rest : List Op)
    (h : ∀ op ∈ run, isReorderable op = true) :
    Rearranged Searched (run ++ rest) (reorderChainSegments card before run rest) := by
  induction rest generalizing before run with
  | nil =>
    rw [List.append_nil]
    exact .last (runPerm_reorderSegment card before [] h)
  | cons op rest ih =>
    rw [reorderChainSegments]
    split_ifs with hop
    · rw [List.append_cons]
      refine ih before (run ++ [op]) fun o ho => ?_
      rcases List.mem_append.mp ho with ho | ho
      · exact h o ho
      · rw [List.mem_singleton.mp ho]
        exact hop
    · have hrest := ih (before ++ reorderSegment card before run (op :: rest) ++ [op]) []
        (by simp)
      exact .barrier (runPerm_reorderSegment card before (op :: rest) h) (by simpa using hop) hrest

/-! ### The whole optimizer -/

/-- **Rearrangement.** Whatever the statistics, the optimizer keeps the first operator of a plan and
every barrier in place and permutes the runs between them, with the rankings in their order. -/
theorem optimize_rearranged (card : PlanStats) (source : Op) (rest : List Op) :
    ∃ rest', (optimize card ⟨source :: rest⟩).ops = source :: rest' ∧
      Rearranged Touchable rest rest' := by
  unfold optimize
  split_ifs with hlookup
  · exact ⟨rest, rfl, .refl rest⟩
  · refine ⟨_, rfl, ?_⟩
    have hmixed : ∀ r, Mixed r → Touchable r := fun _ => Or.inl
    have hsearched : ∀ r, Searched r → Touchable r := fun _ => Or.inr
    have hpairs := (rearranged_pairs card [source] rest).mono hmixed
    have hchains := (rearranged_chains card [source] []
      (reorderNarrowerRankPairs card [source] rest) (by simp)).mono hsearched
    exact hpairs.trans hchains

/-- **The optimizer only moves filters, instants and rankings**: a plan keeps its operators, its source, the
order of its rankings and the places of all others. -/
theorem optimize_keeps_operators (card : PlanStats) (plan : Plan) :
    let ops := (optimize card plan).ops
    plan.ops.Perm ops ∧ plan.ops.head? = ops.head? ∧ rankings plan.ops = rankings ops ∧
      barriers plan.ops = barriers ops := by
  obtain ⟨_ | ⟨source, rest⟩⟩ := plan
  · have hnil : optimize card ⟨[]⟩ = ⟨[]⟩ := ite_self _
    simp [hnil]
  · obtain ⟨rest', heq, h⟩ := optimize_rearranged card source rest
    obtain ⟨hperm, hrank, hbarrier⟩ := h.kept
    intro ops
    rw [show ops = _ from heq]
    unfold rankings barriers at *
    simp only [List.filterMap_cons, List.map_cons, hrank, hbarrier]
    exact ⟨hperm.cons _, rfl, trivial, trivial⟩

end Medulla.Query.Rearrangement
