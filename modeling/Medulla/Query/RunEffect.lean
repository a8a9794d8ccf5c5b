import Medulla.Query.Exec
import Medulla.Query.Rearrangement

/-! # What a run does to rows

On rows, a narrower keeps some of them in order, and a ranking keeps those with an embedding and puts
them in the order of its scores. -/

namespace Medulla.Query.RunEffect

open Wire Rows Exec Cost Optimizer Rearrangement

variable {rows : List Row} {query : List F64}

/-! ### Rows with distinct ids -/

def Distinct (rows : List Row) : Prop := (rows.map Row.id).Nodup

theorem distinct_firstOfEach : ∀ (seen : List String) (rows : List Row),
    Distinct (firstOfEach seen rows) ∧ ∀ r ∈ firstOfEach seen rows, r.id ∉ seen
  | _, [] => by simp [firstOfEach, Distinct]
  | seen, r :: rows => by
    rw [firstOfEach]
    split_ifs with h
    · exact distinct_firstOfEach seen rows
    · obtain ⟨hd, hs⟩ := distinct_firstOfEach (r.id :: seen) rows
      refine ⟨?_, ?_⟩
      · rw [Distinct, List.map_cons, List.nodup_cons]
        refine ⟨fun hmem => ?_, hd⟩
        obtain ⟨r', hr', heq⟩ := List.mem_map.mp hmem
        exact hs r' hr' (by simp [heq])
      · intro r' hr'
        rcases List.mem_cons.mp hr' with rfl | hr'
        · exact h
        · exact fun hmem => hs r' hr' (by simp [hmem])

theorem firstOfEach_eq_self : ∀ {seen : List String} {rows : List Row}, Distinct rows →
    (∀ r ∈ rows, r.id ∉ seen) → firstOfEach seen rows = rows
  | _, [], _, _ => rfl
  | seen, r :: rows, hd, hs => by
    rw [Distinct, List.map_cons, List.nodup_cons] at hd
    rw [firstOfEach, if_neg (hs r (by simp)), firstOfEach_eq_self hd.2 fun r' hr' => ?_]
    simp only [List.mem_cons, not_or]
    refine ⟨fun heq => hd.1 ?_, hs r' (by simp [hr'])⟩
    rw [← heq]
    exact List.mem_map_of_mem hr'

theorem distinct_fromRows (rows : List Row) : Distinct (RowSet.fromRows rows).rows :=
  (distinct_firstOfEach [] rows).1

theorem Distinct.sublist {rows' : List Row} (h : Distinct rows) (hs : rows'.Sublist rows) :
    Distinct rows' :=
  List.Nodup.sublist (hs.map Row.id) h

/-! ### Ranking rows -/

section ranking

variable (ctx : PlanCtx) (query : List F64)

def scored (ids : List String) : List (String × ℚ) :=
  ids.filterMap fun id => (ctx.semantic.score query id).map fun s => (id, s)

def rankRows (rows : List Row) : List Row :=
  ((scored ctx query (rows.map Row.id)).insertionSort scoredBefore).map fun r => ⟨r.1, some r.2⟩

instance : IsTrans (String × ℚ) scoredBefore where
  trans a b c := by
    rintro (hab | ⟨hab, hab'⟩) (hbc | ⟨hbc, hbc'⟩)
    · exact Or.inl (lt_trans hbc hab)
    · exact Or.inl (hbc ▸ hab)
    · exact Or.inl (hab ▸ hbc)
    · exact Or.inr ⟨hab.trans hbc, le_trans hab' hbc'⟩

instance : Std.Total (α := String × ℚ) scoredBefore where
  total a b := by
    rcases lt_trichotomy a.2 b.2 with h | h | h
    · exact Or.inr (Or.inl h)
    · rcases le_total a.1 b.1 with h' | h'
      · exact Or.inl (Or.inr ⟨h, h'⟩)
      · exact Or.inr (Or.inr ⟨h.symm, h'⟩)
    · exact Or.inl (Or.inl h)

theorem scoredBefore_antisymm {a b : String × ℚ} (h : scoredBefore a b) (h' : scoredBefore b a) :
    a = b := by
  rcases h with h | ⟨h, hid⟩
  · rcases h' with h' | ⟨h', -⟩
    · exact absurd h (lt_asymm h')
    · exact absurd h (by rw [h']; exact lt_irrefl _)
  · rcases h' with h' | ⟨-, hid'⟩
    · exact absurd h' (by rw [h]; exact lt_irrefl _)
    · exact Prod.ext (le_antisymm hid hid') h

theorem eq_of_perm_of_sorted {l l' : List (String × ℚ)} (h : l.Perm l')
    (hl : l.Pairwise scoredBefore) (hl' : l'.Pairwise scoredBefore) : l = l' :=
  h.eq_of_pairwise (fun _ _ _ _ => scoredBefore_antisymm) hl hl'

variable {ctx query}

theorem rankRows_perm {rows' : List Row} (h : (rows.map Row.id).Perm (rows'.map Row.id)) :
    rankRows ctx query rows = rankRows ctx query rows' := by
  have hperm : ((scored ctx query (rows.map Row.id)).insertionSort scoredBefore).Perm
      ((scored ctx query (rows'.map Row.id)).insertionSort scoredBefore) :=
    (List.perm_insertionSort _ _).trans
      ((h.filterMap _).trans (List.perm_insertionSort _ _).symm)
  rw [rankRows, rankRows, eq_of_perm_of_sorted hperm (List.pairwise_insertionSort _ _)
    (List.pairwise_insertionSort _ _)]

theorem rankRows_filter (rows : List Row) (p : String → Bool) :
    (rankRows ctx query rows).filter (fun r => p r.id) =
      rankRows ctx query (rows.filter fun r => p r.id) := by
  have hfilter : (scored ctx query (rows.map Row.id)).filter (fun r => p r.1) =
      scored ctx query ((rows.filter fun r => p r.id).map Row.id) := by
    simp only [scored, List.filterMap_map, List.filterMap_filter, List.filter_filterMap]
    refine List.filterMap_congr fun r _ => ?_
    rcases hs : ctx.semantic.score query r.id with _ | s
    · simp [hs]
    · by_cases hp : p r.id <;> simp [hs, hp]
  have hperm : (((scored ctx query (rows.map Row.id)).insertionSort scoredBefore).filter
      fun r => p r.1).Perm
      ((scored ctx query ((rows.filter fun r => p r.id).map Row.id)).insertionSort
        scoredBefore) := by
    refine ((List.perm_insertionSort _ _).filter _).trans ?_
    rw [hfilter]
    exact (List.perm_insertionSort _ _).symm
  have hsorted : (((scored ctx query (rows.map Row.id)).insertionSort scoredBefore).filter
      fun r => p r.1).Pairwise scoredBefore :=
    (List.pairwise_insertionSort _ _).sublist List.filter_sublist
  rw [rankRows, rankRows, List.filter_map,
    ← eq_of_perm_of_sorted hperm hsorted (List.pairwise_insertionSort _ _)]
  rfl

theorem perm_ids_rankRows (rows : List Row) : ((rankRows ctx query rows).map Row.id).Perm
      ((rows.filter fun r => (ctx.semantic.score query r.id).isSome).map Row.id) := by
  have hids : (scored ctx query (rows.map Row.id)).map Prod.fst =
      (rows.filter fun r => (ctx.semantic.score query r.id).isSome).map Row.id := by
    induction rows with
    | nil => rfl
    | cons r rows ih =>
      simp only [scored, List.map_cons, List.filterMap_cons, List.filter_cons] at ih ⊢
      rcases hs : ctx.semantic.score query r.id with _ | s <;> simpa using ih
  rw [← hids, rankRows, List.map_map]
  exact (List.perm_insertionSort _ _).map _

theorem length_rankRows_le (rows : List Row) : (rankRows ctx query rows).length ≤ rows.length := by
  have h : ((rankRows ctx query rows).map Row.id).Perm _ := perm_ids_rankRows rows
  have hlen := h.length_eq
  rw [List.length_map, List.length_map] at hlen
  rw [hlen]
  exact List.length_filter_le _ _

theorem Distinct.rankRows (h : Distinct rows) : Distinct (rankRows ctx query rows) :=
  perm_ids_rankRows rows |>.nodup_iff.mpr (Distinct.sublist h List.filter_sublist)

end ranking

/-! ### The effect of one operator -/

def runs (ctx : PlanCtx) : Op → Bool
  | .filter preds => (ctx.filterIds preds).toOption.isSome
  | .rank query => (checkWidth ctx.semantic query).toOption.isSome
  | _ => true

def keeps (ctx : PlanCtx) : Op → String → Bool
  | .filter preds, id => (ctx.filterIds preds).toOption.any (id ∈ ·)
  | .asOf ts axis, id => liveAt ctx.view ts axis id
  | .rank query, id => (ctx.semantic.score query id).isSome
  | _, _ => true

def narrow (ctx : PlanCtx) (rows : List Row) : Op → List Row
  | .rank query => rankRows ctx query rows
  | op => rows.filter fun r => keeps ctx op r.id

section effect

variable {ctx : PlanCtx}

theorem perm_ids_narrow (rows : List Row) (op : Op) : ((narrow ctx rows op).map Row.id).Perm
      ((rows.filter fun r => keeps ctx op r.id).map Row.id) := by
  cases op with
  | rank query => exact perm_ids_rankRows rows
  | _ => exact .refl _

theorem length_narrow_le (rows : List Row) (op : Op) :
    (narrow ctx rows op).length ≤ rows.length := by
  cases op with
  | rank query => exact length_rankRows_le rows
  | _ => exact List.length_filter_le _ _

theorem Distinct.narrow (h : Distinct rows) (op : Op) : Distinct (narrow ctx rows op) :=
  (perm_ids_narrow rows op).nodup_iff.mpr (Distinct.sublist h List.filter_sublist)

theorem rankTop_exact {input : RowSet} {limit : Option ℕ} (hne : input.rows ≠ [])
    (hd : Distinct input.rows) (hlen : limit = none ∨ input.rows.length ≤ exactRankMax) :
    rankTop ctx query input limit = (checkWidth ctx.semantic query).map fun _ =>
      ⟨(rankRows ctx query input.rows).take (limit.getD input.rows.length)⟩ := by
  have hempty : input.isEmpty = false := by simpa [RowSet.isEmpty] using hne
  have hids : input.ids.length = input.rows.length := by simp [RowSet.ids]
  rw [rankTop, hempty]
  rcases hw : checkWidth ctx.semantic query with e | u
  · rfl
  have hranked : ∀ want, (input.ids.length ≤ exactRankMax ∨ input.ids.length ≤ want) →
      ranked ctx.semantic query input.ids want =
        ((scored ctx query (input.rows.map Row.id)).insertionSort scoredBefore).take want := by
    intro want h
    rw [ranked, if_pos h]
    rfl
  have hrows : ∀ n, RowSet.fromScored
      (((scored ctx query (input.rows.map Row.id)).insertionSort scoredBefore).take n) =
      ⟨(rankRows ctx query input.rows).take n⟩ := by
    intro n
    have htake : Distinct ((rankRows ctx query input.rows).take n) :=
      Distinct.sublist (Distinct.rankRows hd) (List.take_sublist _ _)
    rw [RowSet.fromScored, List.map_take, ← rankRows, RowSet.fromRows,
      firstOfEach_eq_self htake (by simp)]
  rcases limit with _ | k
  · have := hranked input.ids.length (Or.inr le_rfl)
    simp only [Option.elim_none, Option.getD_none]
    exact congrArg Except.ok (by rw [this, hrows, hids])
  · have hle : input.ids.length ≤ exactRankMax := by
      rcases hlen with h | h
      · cases h
      · rwa [hids]
    have := hranked (min k input.ids.length) (Or.inl hle)
    have hmin : (rankRows ctx query input.rows).take (min k input.ids.length) =
        (rankRows ctx query input.rows).take k := by
      rw [List.take_eq_take_iff]
      have hle : (rankRows ctx query input.rows).length ≤ input.rows.length :=
        length_rankRows_le input.rows
      omega
    simp only [Option.elim_some, Option.getD_some]
    exact congrArg Except.ok (by rw [this, hrows, hmin])

/-- **One operator of a run.** On rows it fails, or narrows them. -/
theorem apply_reorderable {op : Op} (hop : isReorderable op = true) {input : RowSet}
    (hne : input.rows ≠ []) (hd : Distinct input.rows) :
    (apply ctx op input).toOption =
      if runs ctx op then some ⟨narrow ctx input.rows op⟩ else none := by
  have hempty : input.isEmpty = false := by simpa [RowSet.isEmpty] using hne
  cases op with
  | filter preds =>
    rcases hf : ctx.filterIds preds with e | passed
    · simp [apply, filterOp, hf, runs, Except.toOption, bind, Except.bind]
    · simp [apply, filterOp, hf, runs, Except.toOption, bind, Except.bind, hempty, narrow, keeps,
        RowSet.intersectKeepOrder, pure, Except.pure]
  | asOf ts axis =>
    simp [apply, asOfFilter, hempty, runs, narrow, keeps, RowSet.intersectKeepOrder,
      Except.toOption]
  | rank query =>
    have hall : (rankRows ctx query input.rows).take input.rows.length =
        rankRows ctx query input.rows := List.take_of_length_le (length_rankRows_le _)
    rw [apply, rankTop_exact hne hd (Or.inl rfl)]
    rcases hw : checkWidth ctx.semantic query with e | u
    · simp [runs, hw, Except.toOption, Except.map]
    · simp [runs, hw, Except.toOption, Except.map, narrow, hall]
  | _ => simp [isReorderable, isNarrower, isRank] at hop

/-! ### The effect of a run -/

def keepsAll (ctx : PlanCtx) (ops : List Op) (id : String) : Bool := ops.all fun op => keeps ctx op id

def ordered (ctx : PlanCtx) : Option (List F64) → List Row → List Row
  | none, rows => rows
  | some query, rows => rankRows ctx query rows

theorem keeps_of_mem_rankRows {r : Row} (h : r ∈ rankRows ctx query rows) :
    keeps ctx (.rank query) r.id = true := by
  have hmem : r.id ∈ (rows.filter fun r => (ctx.semantic.score query r.id).isSome).map Row.id :=
    (perm_ids_rankRows rows).subset (List.mem_map_of_mem h)
  obtain ⟨r', hr', heq⟩ := List.mem_map.mp hmem
  have hs := (List.mem_filter.mp hr').2
  rwa [heq] at hs

theorem rankRows_keeps (rows : List Row) :
    rankRows ctx query (rows.filter fun r => keeps ctx (.rank query) r.id) =
      rankRows ctx query rows := by
  rw [← rankRows_filter]
  exact List.filter_eq_self.mpr fun r hr => keeps_of_mem_rankRows hr

theorem filter_keepsAll_cons (op : Op) (ops : List Op) (rows : List Row) :
    (rows.filter fun r => keepsAll ctx (op :: ops) r.id) =
      (rows.filter fun r => keepsAll ctx ops r.id).filter fun r => keeps ctx op r.id := by
  rw [List.filter_filter]
  rfl

/-- **A run of operators** leaves the rows they all keep, in the order of the last ranking. -/
theorem foldl_narrow (ops : List Op) (rows : List Row) : ops.foldl (narrow ctx) rows =
      ordered ctx (rankings ops).getLast? (rows.filter fun r => keepsAll ctx ops r.id) := by
  induction ops generalizing rows with
  | nil => simp [rankings, ordered, keepsAll]
  | cons op ops ih =>
    rw [List.foldl_cons, ih, filter_keepsAll_cons]
    cases op with
    | rank query =>
      have hcons : rankings (.rank query :: ops) = query :: rankings ops := rfl
      rcases hlast : (rankings ops).getLast? with _ | last
      · rw [hcons, List.getLast?_eq_none_iff.mp hlast]
        simp only [ordered, narrow, List.getLast?_singleton]
        rw [rankRows_filter, rankRows_keeps]
      · rw [hcons, List.getLast?_cons, hlast]
        simp only [narrow]
        refine rankRows_perm ?_
        rw [rankRows_filter]
        exact perm_ids_rankRows _
    | _ =>
      simp only [narrow, rankings, List.filterMap_cons, rankQuery]
      rw [List.filter_comm]

theorem foldl_narrow_ne_nil {ops : List Op} {r : Row} (hr : r ∈ rows)
    (h : keepsAll ctx ops r.id = true) : ops.foldl (narrow ctx) rows ≠ [] := by
  have hmem : ∀ (ops : List Op) (rows : List Row), (∃ r' ∈ rows, r'.id = r.id) →
      keepsAll ctx ops r.id = true → ∃ r' ∈ ops.foldl (narrow ctx) rows, r'.id = r.id := by
    intro ops
    induction ops with
    | nil => exact fun rows hrows _ => hrows
    | cons op ops ih =>
      rintro rows ⟨r', hr', heq⟩ hall
      simp only [keepsAll, List.all_cons, Bool.and_eq_true] at hall
      refine ih _ ?_ hall.2
      have hkept : r.id ∈ (narrow ctx rows op).map Row.id := by
        refine (perm_ids_narrow rows op).symm.subset (List.mem_map.mpr ⟨r', ?_, heq⟩)
        exact List.mem_filter.mpr ⟨hr', by rw [heq]; exact hall.1⟩
      exact List.mem_map.mp hkept
  obtain ⟨r', hr', -⟩ := hmem ops rows ⟨r, hr, rfl⟩ h
  exact List.ne_nil_of_mem hr'

end effect

end Medulla.Query.RunEffect
