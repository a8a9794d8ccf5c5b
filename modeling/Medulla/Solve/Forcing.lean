import Medulla.Solve.Coherence
import Mathlib.Algebra.BigOperators.Group.List.Basic

/-! # Propagation

What one round of propagation does, and from it a whole propagation: every forcing is one the verifier
accepts on the path of those before it, the rounds are enough, and afterwards either a row is excluded
or none is. -/

namespace Medulla.Solve.Forcing

open Programme Verifier Bounds ProofTree Soundness Propagate
open Coherence

variable {δ : Type} {model : Model δ} {var : VarId} {row : RowId} {spec : Row}

/-! ### Accepted forcings -/

def Accepted (model : Model δ) (path : List (Option Bool)) (f : Forcing) : Prop :=
  path[f.var]? = some none ∧ ∃ spec, model.rows[f.row]? = some spec ∧
    (spec.coefficientOf f.var).isSome = true ∧
    unsatisfiable spec (path.set f.var (some !f.value)) = true

def AllAccepted (model : Model δ) : List (Option Bool) → List Forcing → Prop
  | _, [] => True
  | path, f :: rest => Accepted model path f ∧ AllAccepted model (path.set f.var (some f.value)) rest

def forcedPath (path : List (Option Bool)) (forced : List Forcing) : List (Option Bool) :=
  forced.foldl (fun path f => path.set f.var (some f.value)) path

def forcedTrail (forced : List Forcing) : Trail := forced.map fun f => (f.var, f.value)

theorem allAccepted_append : ∀ {forced : List Forcing} {path : List (Option Bool)} {f : Forcing},
    AllAccepted model path forced → Accepted model (forcedPath path forced) f →
    AllAccepted model path (forced ++ [f])
  | [], _, _, _, h => ⟨h, trivial⟩
  | _ :: _, _, _, hall, h => ⟨hall.1, allAccepted_append hall.2 h⟩

theorem Tracks.length_le {n : ℕ} {path : List (Option Bool)} {fixed : List VarId} {trail : Trail}
    (h : Tracks n path fixed trail) : fixed.length ≤ n := by
  have hsub : trail.map Prod.fst ⊆ List.range n := by
    intro var hvar
    obtain ⟨p, hp, rfl⟩ := List.mem_map.mp hvar
    have hget := (h.values p.1 p.2).mpr hp
    rw [List.mem_range, ← h.length]
    exact (List.getElem?_eq_some_iff.mp hget).1
  have hle := (List.subperm_of_subset h.nodup hsub).length_le
  rwa [List.length_range, ← h.fixed] at hle

/-! ### Fixing and queueing -/

theorem mem_column_lt (h : row ∈ (column model var).map Prod.fst) : row < model.rows.length := by
  obtain ⟨entry, hentry, rfl⟩ := List.mem_map.mp h
  obtain ⟨⟨spec, i⟩, hi, hentry⟩ := List.mem_flatMap.mp hentry
  obtain ⟨term, _, rfl⟩ := List.mem_map.mp hentry
  exact (List.getElem?_eq_some_iff.mp (List.mk_mem_zipIdx_iff_getElem?.mp hi)).1

theorem isExcluded_fix {s : SearchState} {trail : Trail} (h : Coherent model s trail)
    (hfree : s.value[var]? = some none) (b : Bool) (hlt : row < model.rows.length)
    (hrow : row ∉ (column model var).map Prod.fst) :
    isExcluded model (s.fix model var b) row = isExcluded model s row := by
  have hspec : model.rows[row]? = some model.rows[row] := List.getElem?_eq_getElem hlt
  have hnone : coefficients (rowAt model row).terms var = [] := by
    have hfilter : (column model var).filter (fun e => e.1 = row) = [] := by
      refine List.filter_eq_nil_iff.mpr fun e he => ?_
      intro heq
      exact hrow (List.mem_map.mpr ⟨e, he, by simpa using heq⟩)
    rw [filter_column] at hfilter
    exact List.map_eq_nil_iff.mp hfilter
  have hsame : activityOf (s.fix model var b).value model.rows[row].terms =
      activityOf s.value model.rows[row].terms := by
    have hset := activityOf_set b hfree model.rows[row].terms
    rw [rowAt_eq hspec] at hnone
    rw [hnone] at hset
    exact hset
  unfold isExcluded SearchState.activity
  rw [activity_eq (h.fix hfree b).cached hspec, activity_eq h.cached hspec, hsame]

/-! ### One round -/

structure Reached (model : Model δ) (start : SearchState) (trail : Trail) (p : Propagation) :
    Prop where
  coherent : Coherent model p.state (trail ++ forcedTrail p.forced)
  path : p.state.value = forcedPath start.value p.forced
  queued : Queued model.rows.length p.queue
  accepted : AllAccepted model start.value p.forced

def SettledBut (model : Model δ) (p : Propagation) (examined : Option RowId) : Prop :=
  ∀ row < model.rows.length, row ∉ p.queue.rows → some row ≠ examined →
    isExcluded model p.state row = false

def work (model : Model δ) (p : Propagation) : ℕ :=
  (model.variableCount - p.state.trail.length) * (model.rows.length + 1) + p.queue.rows.length

section round

variable {start : SearchState} {trail : Trail} {p : Propagation}

theorem forceTerm_cases (model : Model δ) (row : RowId) (p : Propagation) (term : VarId × ℤ) :
    forceTerm model row p term = p ∨
      ∃ value, forcedValue (rowAt model row).relation (rowAt model row).rhs (p.state.activity row)
          term.2 = some value ∧
        forceTerm model row p term = ⟨p.state.fix model term.1 value,
          ((column model term.1).map Prod.fst).foldl RowQueue.push p.queue,
          p.forced ++ [⟨term.1, value, row⟩]⟩ := by
  unfold forceTerm
  rcases forcedValue (rowAt model row).relation (rowAt model row).rhs (p.state.activity row)
    term.2 with _ | value
  · exact Or.inl rfl
  · exact Or.inr ⟨value, rfl, rfl⟩

theorem reached_forceTerm (hmodel : WellFormed model) (hdistinct : Distinct model)
    (h : Reached model start trail p) (hrow : model.rows[row]? = some spec)
    (hsettled : SettledBut model p (some row)) {term : Term} (hterm : term ∈ spec.terms)
    (hfree : p.state.value[term.var]? = some none) :
    Reached model start trail (forceTerm model row p (term.var, term.coefficient)) ∧
      SettledBut model (forceTerm model row p (term.var, term.coefficient)) (some row) ∧
      (forceTerm model row p (term.var, term.coefficient) = p ∨ p.state.trail.length <
          (forceTerm model row p (term.var, term.coefficient)).state.trail.length) ∧
      ∀ var, var ≠ term.var →
        (forceTerm model row p (term.var, term.coefficient)).state.value[var]? =
          p.state.value[var]? := by
  rcases forceTerm_cases model row p (term.var, term.coefficient) with
    heq | ⟨value, hforced, heq⟩
  · rw [heq]
    exact ⟨h, hsettled, Or.inl rfl, fun _ _ => rfl⟩
  · rw [heq]
    rw [rowAt_eq hrow] at hforced
    have hrefuted := unsatisfiable_of_forcedValue hmodel hdistinct h.coherent hrow hterm hfree hforced
    obtain ⟨hqueued, hmem⟩ := Queued.pushList ((column model term.var).map Prod.fst) h.queued
      fun r hr => mem_column_lt hr
    refine ⟨⟨?_, ?_, hqueued, ?_⟩, ?_, Or.inr ?_, ?_⟩
    · have hfix := h.coherent.fix hfree value
      unfold forcedTrail at hfix ⊢
      rw [List.map_append, ← List.append_assoc]
      exact hfix
    · unfold forcedPath
      rw [List.foldl_append]
      exact congrArg (fun path => path.set term.var (some value)) h.path
    · refine allAccepted_append h.accepted ?_
      rw [← h.path]
      exact ⟨hfree, spec, hrow, coefficientOf_isSome hterm, hrefuted⟩
    · intro r hr hnot hne
      rw [hmem, not_or] at hnot
      rw [isExcluded_fix h.coherent hfree value hr hnot.1]
      exact hsettled r hr hnot.2 hne
    · change _ < (p.state.trail ++ [term.var]).length
      rw [List.length_append]
      exact Nat.lt_succ_self _
    · intro var hvar
      exact List.getElem?_set_ne (Ne.symm hvar)

theorem reached_candidates (hmodel : WellFormed model) (hdistinct : Distinct model)
    (hrow : model.rows[row]? = some spec) : ∀ (terms : List Term) {p : Propagation},
    Reached model start trail p → SettledBut model p (some row) → (∀ term ∈ terms, term ∈ spec.terms) →
    (terms.map Term.var).Nodup → (∀ term ∈ terms, p.state.value[term.var]? = some none) →
    Reached model start trail
        ((terms.map fun t => (t.var, t.coefficient)).foldl (forceTerm model row) p) ∧
      SettledBut model ((terms.map fun t => (t.var, t.coefficient)).foldl (forceTerm model row) p)
        (some row) ∧
      ((terms.map fun t => (t.var, t.coefficient)).foldl (forceTerm model row) p = p ∨
        p.state.trail.length <
          ((terms.map fun t => (t.var, t.coefficient)).foldl (forceTerm model row) p).state.trail.length)
  | [], p, h, hsettled, _, _, _ => ⟨h, hsettled, Or.inl rfl⟩
  | term :: terms, p, h, hsettled, hmem, hnodup, hfree => by
    rw [List.map_cons, List.nodup_cons] at hnodup
    obtain ⟨hnext, hsettled', hgrow, hkeep⟩ := reached_forceTerm hmodel hdistinct h hrow hsettled
      (hmem term (.head _)) (hfree term (.head _))
    have hfree' : ∀ t ∈ terms,
        (forceTerm model row p (term.var, term.coefficient)).state.value[t.var]? = some none := by
      intro t ht
      have hne : t.var ≠ term.var := by
        intro heq
        exact hnodup.1 (heq ▸ List.mem_map_of_mem ht)
      rw [hkeep t.var hne]
      exact hfree t (.tail _ ht)
    obtain ⟨hlast, hsettled'', hgrow'⟩ := reached_candidates hmodel hdistinct hrow terms hnext hsettled'
      (fun t ht => hmem t (.tail _ ht)) hnodup.2 hfree'
    rw [List.map_cons, List.foldl_cons]
    refine ⟨hlast, hsettled'', ?_⟩
    rcases hgrow with heq | hlt
    · rw [heq] at hgrow' ⊢
      exact hgrow'
    · rcases hgrow' with heq' | hlt'
      · rw [heq']
        exact Or.inr hlt
      · exact Or.inr (hlt.trans hlt')

theorem freeTerms_eq (s : SearchState) (row : RowId) : s.freeTerms model row =
      ((rowAt model row).terms.filter fun t => s.isFree t.var).map fun t =>
        (t.var, t.coefficient) := by
  unfold SearchState.freeTerms
  rw [List.filter_map]
  rfl

/-- **One round** of propagation: the row is excluded, or no longer an exception. -/
theorem reached_propagateRow (hmodel : WellFormed model) (hdistinct : Distinct model)
    (h : Reached model start trail p) (hlt : row < model.rows.length)
    (hsettled : SettledBut model p (some row)) {p' : Propagation} {out : Option RowId}
    (hp : propagateRow model row p = (p', out)) :
    Reached model start trail p' ∧ (p' = p ∨ p.state.trail.length < p'.state.trail.length) ∧
      (out = none → SettledBut model p' none) ∧
      ∀ r, out = some r → r < model.rows.length ∧ isExcluded model p'.state r = true := by
  have hrow : model.rows[row]? = some model.rows[row] := List.getElem?_eq_getElem hlt
  unfold propagateRow at hp
  split_ifs at hp with hexcluded
  · cases hp
    refine ⟨h, Or.inl rfl, fun hout => (by cases hout), fun r hr => ?_⟩
    cases hr
    exact ⟨hlt, hexcluded⟩
  · rw [freeTerms_eq, rowAt_eq hrow] at hp
    have hspec := hdistinct _ (List.mem_of_getElem? hrow)
    obtain ⟨hreached, hbut, hgrow⟩ := reached_candidates hmodel hdistinct hrow
      (model.rows[row].terms.filter fun t => p.state.isFree t.var) h hsettled
      (fun t ht => List.mem_of_mem_filter ht) (hspec.sublist (List.filter_sublist.map _))
      fun t ht => isFree_iff.mp (List.mem_filter.mp ht).2
    obtain ⟨rfl, rfl⟩ := Prod.mk.inj hp
    refine ⟨hreached, hgrow, fun hout r hr hnot _ => ?_, fun r hr => ?_⟩
    · split_ifs at hout with hlast
      by_cases hne : some r = some row
      · cases hne
        simpa using hlast
      · exact hbut r hr hnot hne
    · split_ifs at hr with hlast
      cases hr
      exact ⟨hlt, hlast⟩

/-! ### A whole propagation -/

theorem work_decreases (hreached : Reached model start trail p) {rest : RowQueue}
    (hpop : p.queue.pop = some (row, rest)) {p' : Propagation} (h' : Reached model start trail p')
    (hgrow : p' = { p with queue := rest } ∨ p.state.trail.length < p'.state.trail.length) :
    work model p' < work model p := by
  obtain ⟨-, hrows⟩ := hreached.queued.pop hpop
  unfold work
  rw [hrows]
  rcases hgrow with rfl | hlt
  · exact Nat.lt_succ_self _
  · have hle := Tracks.length_le h'.coherent.tracks
    have hqueue := h'.queued.length_le
    have hfree : model.variableCount - p'.state.trail.length + 1 ≤
        model.variableCount - p.state.trail.length := by omega
    have hmul := Nat.mul_le_mul_right (model.rows.length + 1) hfree
    rw [Nat.add_mul] at hmul
    omega

theorem reached_propagateFrom (hmodel : WellFormed model) (hdistinct : Distinct model) :
    ∀ {fuel : ℕ} {p p' : Propagation} {out : Option RowId}, Reached model start trail p →
    SettledBut model p none → work model p ≤ fuel → propagateFrom model fuel p = (p', out) →
    Reached model start trail p' ∧ p'.queue.rows = [] ∧
      (out = none → ∀ row < model.rows.length, isExcluded model p'.state row = false) ∧
      ∀ r, out = some r → r < model.rows.length ∧ isExcluded model p'.state r = true
  | 0, p, p', out, h, hsettled, hwork, hp => by
    cases hp
    have hempty : p.queue.rows = [] := by
      unfold work at hwork
      exact List.length_eq_zero_iff.mp (by omega)
    refine ⟨h, hempty, fun _ row hrow => ?_, fun r hr => (by cases hr)⟩
    exact hsettled row hrow (by rw [hempty]; exact List.not_mem_nil) (by simp)
  | fuel + 1, p, p', out, h, hsettled, hwork, hp => by
    rw [propagateFrom] at hp
    rcases hpop : p.queue.pop with _ | ⟨row, rest⟩ <;> rw [hpop] at hp
    · cases hp
      have hempty : p.queue.rows = [] := by
        unfold RowQueue.pop at hpop
        rcases hrows : p.queue.rows with _ | ⟨first, rows⟩
        · rfl
        · rw [hrows] at hpop
          cases hpop
      refine ⟨h, hempty, fun _ row hrow => ?_, fun r hr => (by cases hr)⟩
      exact hsettled row hrow (by rw [hempty]; exact List.not_mem_nil) (by simp)
    · dsimp only at hp
      obtain ⟨hrest, hrows⟩ := h.queued.pop hpop
      have hlt : row < model.rows.length := h.queued.lt (by rw [hrows]; exact .head _)
      have hpopped : Reached model start trail { p with queue := rest } :=
        ⟨h.coherent, h.path, hrest, h.accepted⟩
      have hbut : SettledBut model { p with queue := rest } (some row) := by
        intro r hr hnot hne
        refine hsettled r hr ?_ (by simp)
        rw [hrows, List.mem_cons, not_or]
        exact ⟨fun heq => hne (by rw [heq]), hnot⟩
      rcases hround : propagateRow model row { p with queue := rest } with ⟨p1, _ | r⟩
      · rw [hround] at hp
        obtain ⟨hreached, hgrow, hnone, -⟩ :=
          reached_propagateRow hmodel hdistinct hpopped hlt hbut hround
        have hless := work_decreases h hpop hreached hgrow
        exact reached_propagateFrom hmodel hdistinct hreached (hnone rfl) (by omega) hp
      · rw [hround] at hp
        obtain ⟨hreached, -, -, hsome⟩ :=
          reached_propagateRow hmodel hdistinct hpopped hlt hbut hround
        cases hp
        obtain ⟨hclear, hempty⟩ := hreached.queued.clear
        refine ⟨⟨hreached.coherent, hreached.path, hclear, hreached.accepted⟩, hempty,
          fun hout => (by cases hout), fun r' hr' => ?_⟩
        cases hr'
        exact hsome r rfl

/-- **A whole propagation** from a state whose exceptions are queued. -/
theorem propagate_spec (hmodel : WellFormed model) (hdistinct : Distinct model) {s : SearchState}
    (h : Coherent model s trail) {q : RowQueue} (hq : Queued model.rows.length q)
    (hsettled : SettledBut model ⟨s, q, []⟩ none) {out : Option RowId}
    (hp : propagate model s q = (p, out)) :
    Reached model s trail p ∧ p.queue.rows = [] ∧
      (out = none → ∀ row < model.rows.length, isExcluded model p.state row = false) ∧
      ∀ r, out = some r → r < model.rows.length ∧ isExcluded model p.state r = true := by
  have hstart : Reached model s trail ⟨s, q, []⟩ := by
    refine ⟨?_, rfl, hq, trivial⟩
    unfold forcedTrail
    rw [List.map_nil, List.append_nil]
    exact h
  refine reached_propagateFrom hmodel hdistinct hstart hsettled ?_ hp
  have hqueue := hq.length_le
  have hmul := Nat.mul_le_mul_right (model.rows.length + 1)
    (Nat.sub_le model.variableCount s.trail.length)
  unfold work propagationRounds
  rw [Nat.add_mul]
  dsimp only
  omega

end round

/-! ### Propagated nodes -/

structure Propagated (model : Model δ) (s : SearchState) (q : RowQueue) (trail : Trail) : Prop where
  coherent : Coherent model s trail
  queued : Queued model.rows.length q
  idle : q.rows = []
  settled : ∀ row < model.rows.length, isExcluded model s row = false

section nodes

variable {s : SearchState} {q : RowQueue} {trail : Trail}

theorem settledBut_fixAndQueue (h : Propagated model s q trail) (hfree : s.value[var]? = some none)
    (b : Bool) :
    Queued model.rows.length (fixAndQueue model s q var b).2 ∧ SettledBut model
        ⟨(fixAndQueue model s q var b).1, (fixAndQueue model s q var b).2, []⟩ none := by
  obtain ⟨hqueued, hmem⟩ := Queued.pushList ((column model var).map Prod.fst) h.queued
    fun r hr => mem_column_lt hr
  refine ⟨hqueued, fun row hrow hnot _ => ?_⟩
  have hcolumn : row ∉ (column model var).map Prod.fst := fun hin => hnot ((hmem row).mpr (Or.inl hin))
  change isExcluded model (s.fix model var b) row = false
  rw [isExcluded_fix h.coherent hfree b hrow hcolumn]
  exact h.settled row hrow

theorem propagated_of_spec {start : SearchState} {p : Propagation}
    (h : Reached model start trail p) (hidle : p.queue.rows = [])
    (hnone : ∀ row < model.rows.length, isExcluded model p.state row = false) :
    Propagated model p.state p.queue (trail ++ forcedTrail p.forced) :=
  ⟨h.coherent, h.queued, hidle, hnone⟩

theorem propagated_fixAndPropagate (hmodel : WellFormed model) (hdistinct : Distinct model)
    (h : Propagated model s q trail) (hfree : s.value[var]? = some none) {b : Bool}
    {next : SearchState × RowQueue} (hnext : fixAndPropagate model s q var b = some next) :
    ∃ trail', Propagated model next.1 next.2 trail' ∧ s.trail.length < next.1.trail.length := by
  obtain ⟨hqueued, hsettled⟩ := settledBut_fixAndQueue h hfree b
  unfold fixAndPropagate at hnext
  dsimp only at hnext
  rcases hp : propagate model (fixAndQueue model s q var b).1 (fixAndQueue model s q var b).2 with
    ⟨p, _ | r⟩
  · rw [hp] at hnext
    cases hnext
    obtain ⟨hreached, hidle, hnone, -⟩ := propagate_spec hmodel hdistinct
      (h.coherent.fix hfree b) hqueued hsettled hp
    refine ⟨_, propagated_of_spec hreached hidle (hnone rfl), ?_⟩
    have hlen := hreached.coherent.tracks.fixed
    rw [hlen, h.coherent.tracks.fixed]
    simp only [List.length_map, List.length_append, List.length_cons]
    omega
  · rw [hp] at hnext
    cases hnext

theorem settledBut_pushAll (hq : Queued model.rows.length q) :
    SettledBut model ⟨s, q.pushAll, []⟩ none :=
  fun row hrow hnot _ => absurd (hq.pushAll.2 row hrow) hnot

/-! ### The branching choice -/

theorem minBy_mem {α : Type} {order : α → α → Ordering} : ∀ {l : List α} {a : α},
    minBy order l = some a → a ∈ l
  | first :: rest, a, h => by
    have hfold : ∀ (rest : List α) (best : α),
        rest.foldl (fun best b => if order best b = .gt then b else best) best ∈ best :: rest := by
      intro rest
      induction rest with
      | nil => exact fun best => .head _
      | cons b rest ih =>
        intro best
        rw [List.foldl_cons]
        split_ifs
        · exact .tail _ (ih b)
        · rcases List.mem_cons.mp (ih best) with heq | hmem
          · rw [heq]
            exact .head _
          · exact .tail _ (.tail _ hmem)
    cases h
    exact hfold rest first

theorem minBy_eq_none {α : Type} {order : α → α → Ordering} {l : List α}
    (h : minBy order l = none) : l = [] := by
  cases l with
  | nil => rfl
  | cons => cases h

theorem free_of_mem_freeTerms {term : VarId × ℤ} (h : term ∈ s.freeTerms model row) :
    s.value[term.1]? = some none :=
  isFree_iff.mp (List.mem_filter.mp h).2

theorem free_of_choose {first : Bool} (h : choose model s = .branch var first) :
    s.value[var]? = some none := by
  unfold choose at h
  split at h
  · cases h
  · dsimp only at h
    split at h
    · rename_i best hbest
      cases h
      obtain ⟨term, hterm, heq⟩ := List.mem_map.mp (minBy_mem hbest)
      rw [← heq]
      exact free_of_mem_freeTerms hterm
    · cases h

theorem sum_freePart_eq_zero {terms : List Term} {value : List (Option Bool)} (f : ℤ → ℤ)
    (h : ∀ term ∈ terms, ¬ value[term.var]? = some none) : (terms.map (freePart value f)).sum = 0 := by
  refine List.sum_eq_zero fun v hv => ?_
  obtain ⟨term, hterm, rfl⟩ := List.mem_map.mp hv
  exact if_neg (h term hterm)

theorem guarantees_of_choose (h : Propagated model s q trail) (hchoose : choose model s = .complete)
    (hlt : row < model.rows.length) :
    guarantees (rowAt model row).relation (rowAt model row).rhs (s.activity row).1
      (s.activity row).2 = true := by
  unfold choose at hchoose
  split at hchoose
  · rename_i hnone
    have hempty := minBy_eq_none hnone
    have hrow := List.filter_eq_nil_iff.mp hempty row (List.mem_range.mpr hlt)
    simpa using hrow
  · rename_i r hr
    dsimp only at hchoose
    split at hchoose
    · cases hchoose
    · rename_i hnone
      obtain ⟨hrlt, hrnot⟩ := List.mem_filter.mp (minBy_mem hr)
      rw [List.mem_range] at hrlt
      have hspec : model.rows[r]? = some model.rows[r] := List.getElem?_eq_getElem hrlt
      have hnofree : ∀ term ∈ model.rows[r].terms, ¬ s.value[term.var]? = some none := by
        have hterms := List.map_eq_nil_iff.mp (minBy_eq_none hnone)
        rw [freeTerms_eq, rowAt_eq hspec, List.map_eq_nil_iff, List.filter_eq_nil_iff] at hterms
        exact fun term hterm => fun hfree => hterms term hterm (isFree_iff.mpr hfree)
      have hexcluded := h.settled r hrlt
      have hsame : (s.activity r).1 = (s.activity r).2 := by
        unfold SearchState.activity
        rw [activity_eq h.coherent.cached hspec]
        unfold activityOf
        rw [sum_freePart_eq_zero _ hnofree, sum_freePart_eq_zero _ hnofree]
      unfold isExcluded at hexcluded
      unfold excludes at hexcluded
      unfold guarantees at hrnot
      rcases hrel : (rowAt model r).relation with _ | _ | _ <;> rw [hrel] at hexcluded hrnot <;>
        simp only [decide_eq_false_iff_not, Bool.or_eq_false_iff, Bool.not_eq_true',
          Bool.and_eq_false_iff] at hexcluded hrnot <;> omega

theorem satisfies_of_guarantees (hmodel : WellFormed model) (h : Coherent model s trail)
    (hrow : model.rows[row]? = some spec)
    (hguaranteed : guarantees (rowAt model row).relation (rowAt model row).rhs (s.activity row).1
      (s.activity row).2 = true) {x : List Bool} (hon : OnPath s.value x) : Satisfies spec x := by
  obtain ⟨h1, h2⟩ := reach_bounds hon spec.relation spec.rhs spec.terms (0, 0)
  have hrange : ∀ term ∈ spec.terms, term.var < s.value.length := by
    rw [h.tracks.length]
    exact hmodel.rows spec (List.mem_of_getElem? hrow)
  have hlhs : leftHandSide ⟨spec.terms, spec.relation, spec.rhs⟩ x = leftHandSide spec x := rfl
  rw [reach_eq _ _ hrange] at h1 h2
  unfold SearchState.activity at hguaranteed
  rw [rowAt_eq hrow, activity_eq h.cached hrow] at hguaranteed
  unfold guarantees at hguaranteed
  unfold Satisfies holds
  rcases hrel : spec.relation with _ | _ | _ <;> rw [hrel] at hguaranteed <;>
    simp only [decide_eq_true_eq, Bool.and_eq_true] at hguaranteed ⊢ <;> omega

/-- **Where there is nothing to branch on**, every assignment on the path is feasible. -/
theorem feasible_of_choose (hmodel : WellFormed model) (h : Propagated model s q trail)
    (hchoose : choose model s = .complete) {x : List Bool} (hx : x.length = model.variableCount)
    (hon : OnPath s.value x) : Feasible model x := by
  refine ⟨hx, fun spec hspec => ?_⟩
  obtain ⟨row, hlt, hget⟩ := List.mem_iff_getElem.mp hspec
  have hrow : model.rows[row]? = some spec := by rw [List.getElem?_eq_getElem hlt, hget]
  exact satisfies_of_guarantees hmodel h.coherent hrow (guarantees_of_choose h hchoose hlt) hon

/-! ### The completion -/

theorem completion_eq (hlen : s.value.length = model.weights.length) :
    (completion model s).1 = List.zipWith (fun (w : ℤ) v => v.getD (decide (w < 0)))
      model.weights s.value := by
  refine List.ext_getElem (by simp [completion, hlen]) fun j h1 h2 => ?_
  have hj : j < model.weights.length := by simpa [completion] using h1
  have hj' : j < s.value.length := by rwa [hlen]
  simp [completion, hj, hj']

theorem zipWith_completion : ∀ (weights : List ℤ) (path : List (Option Bool)),
    path.length = weights.length →
    OnPath path (List.zipWith (fun w v => v.getD (decide (w < 0))) weights path) ∧
      scalarValue weights (List.zipWith (fun w v => v.getD (decide (w < 0))) weights path) =
        ((weights.zip path).map fun c => contribution c.1 c.2).sum
  | [], [], _ => ⟨fun j b hj => (by simp at hj), rfl⟩
  | [], _ :: _, h => by simp at h
  | _ :: _, [], h => by simp at h
  | w :: weights, v :: path, h => by
    obtain ⟨hon, hsum⟩ := zipWith_completion weights path (by simpa using h)
    refine ⟨fun j b hj => ?_, ?_⟩
    · cases j with
      | zero =>
        have hv : v = some b := by simpa using hj
        rw [hv]
        rfl
      | succ j => exact hon j b (by simpa using hj)
    · rw [List.zipWith_cons_cons, scalarValue_cons, hsum, List.zip_cons_cons, List.map_cons,
        List.sum_cons]
      rcases v with _ | _ | _
      · unfold contribution
        by_cases hw : w < 0
        · rw [if_pos (by simpa using hw), min_eq_left (le_of_lt hw)]
        · rw [if_neg (by simpa using hw), min_eq_right (not_lt.mp hw)]
      · rfl
      · rfl

theorem completion_spec (hmodel : WellFormed model) (h : Coherent model s trail) :
    (completion model s).1.length = model.variableCount ∧ OnPath s.value (completion model s).1 ∧
      (completion model s).2 = scalarValue model.weights (completion model s).1 ∧
      (completion model s).2 = ((model.weights.zip s.value).map fun c => contribution c.1 c.2).sum := by
  have hlen : s.value.length = model.weights.length := by rw [h.tracks.length, hmodel.weights]
  obtain ⟨hon, hsum⟩ := zipWith_completion _ _ hlen
  refine ⟨?_, ?_, rfl, ?_⟩
  · rw [completion_eq hlen, List.length_zipWith, hlen, min_self, hmodel.weights]
  · rw [completion_eq hlen]
    exact hon
  · rw [← hsum, ← completion_eq hlen]
    rfl

/-! ### The greedy incumbent -/

theorem free_of_bestCover (h : bestCover model s = some var) : s.value[var]? = some none := by
  obtain ⟨-, hpos⟩ := List.mem_filter.mp (minBy_mem h)
  rw [decide_eq_true_eq] at hpos
  by_contra hfixed
  have hzero : helps model s var = 0 := by
    refine List.sum_eq_zero fun v hv => ?_
    obtain ⟨row, -, rfl⟩ := List.mem_map.mp hv
    rw [Nat.cast_eq_zero, List.countP_eq_zero]
    intro term hterm hdec
    rw [decide_eq_true_eq] at hdec
    exact hfixed (hdec.1 ▸ free_of_mem_freeTerms hterm)
  omega

theorem coverFrom_spec (hmodel : WellFormed model) (hdistinct : Distinct model) : ∀ {fuel : ℕ}
    {s out : SearchState × RowQueue} {trail : Trail}, Propagated model s.1 s.2 trail →
    model.variableCount - s.1.trail.length ≤ fuel → coverFrom model fuel s = some out →
    (∃ trail', Propagated model out.1 out.2 trail') ∧ bestCover model out.1 = none
  | 0, s, out, trail, h, hfuel, hout => by
    cases hout
    refine ⟨⟨trail, h⟩, ?_⟩
    rcases hcover : bestCover model s.1 with _ | var
    · rfl
    · have hpush := Tracks.length_le (h.coherent.tracks.push (free_of_bestCover hcover) true)
      rw [List.length_append, List.length_singleton] at hpush
      omega
  | fuel + 1, s, out, trail, h, hfuel, hout => by
    rw [coverFrom] at hout
    rcases hcover : bestCover model s.1 with _ | var <;> rw [hcover] at hout
    · cases hout
      exact ⟨⟨trail, h⟩, hcover⟩
    · obtain ⟨next, hnext, hout⟩ := Option.bind_eq_some_iff.mp hout
      obtain ⟨trail', hprop, hlt⟩ :=
        propagated_fixAndPropagate hmodel hdistinct h (free_of_bestCover hcover) hnext
      exact coverFrom_spec hmodel hdistinct hprop (by omega) hout

theorem diveFrom_spec (hmodel : WellFormed model) (hdistinct : Distinct model) : ∀ {fuel : ℕ}
    {s : SearchState × RowQueue} {out : List Bool × ℤ} {trail : Trail},
    Propagated model s.1 s.2 trail → model.variableCount - s.1.trail.length ≤ fuel →
    diveFrom model fuel s = some out →
    ∃ s' q' trail', Propagated model s' q' trail' ∧ choose model s' = .complete ∧
      out = completion model s'
  | 0, s, out, trail, h, hfuel, hout => by
    cases hout
    refine ⟨s.1, s.2, trail, h, ?_, rfl⟩
    rcases hchoose : choose model s.1 with _ | ⟨var, first⟩
    · rfl
    · have hpush := Tracks.length_le (h.coherent.tracks.push (free_of_choose hchoose) true)
      rw [List.length_append, List.length_singleton] at hpush
      omega
  | fuel + 1, s, out, trail, h, hfuel, hout => by
    rw [diveFrom] at hout
    rcases hchoose : choose model s.1 with _ | ⟨var, first⟩ <;> rw [hchoose] at hout
    · cases hout
      exact ⟨s.1, s.2, trail, h, hchoose, rfl⟩
    · obtain ⟨next, hnext, hout⟩ := Option.bind_eq_some_iff.mp hout
      obtain ⟨trail', hprop, hlt⟩ :=
        propagated_fixAndPropagate hmodel hdistinct h (free_of_choose hchoose) hnext
      exact diveFrom_spec hmodel hdistinct hprop (by omega) hout

/-- An assignment that satisfies every row, with its objective. -/
def IsIncumbent (model : Model δ) (best : List Bool × ℤ) : Prop :=
  Feasible model best.1 ∧ best.2 = scalarValue model.weights best.1

theorem isIncumbent_completion (hmodel : WellFormed model) (h : Propagated model s q trail)
    (hchoose : choose model s = .complete) : IsIncumbent model (completion model s) := by
  obtain ⟨hlen, hon, hvalue, -⟩ := completion_spec hmodel h.coherent
  exact ⟨feasible_of_choose hmodel h hchoose hlen hon, hvalue⟩

/-- **The greedy incumbent** is feasible. -/
theorem isIncumbent_greedy (hmodel : WellFormed model) (hdistinct : Distinct model)
    {best : List Bool × ℤ} (h : greedy model = some best) : IsIncumbent model best := by
  have hqueue := queued_new model.rows.length
  unfold greedy at h
  rcases hp : propagate model (.new model) (RowQueue.new model.rows.length).pushAll with
    ⟨p, _ | r⟩ <;> rw [hp] at h
  · obtain ⟨covered, hcovered, h⟩ := Option.bind_eq_some_iff.mp h
    obtain ⟨hreached, hidle, hnone, -⟩ := propagate_spec hmodel hdistinct (coherent_new hmodel)
      hqueue.pushAll.1 (settledBut_pushAll hqueue) hp
    obtain ⟨⟨trail', hcover⟩, -⟩ := coverFrom_spec hmodel hdistinct
      (propagated_of_spec hreached hidle (hnone rfl)) (Nat.sub_le _ _) hcovered
    obtain ⟨s', q', trail'', hprop, hchoose, rfl⟩ :=
      diveFrom_spec hmodel hdistinct hcover (Nat.sub_le _ _) h
    exact isIncumbent_completion hmodel hprop hchoose
  · cases h

end nodes

end Medulla.Solve.Forcing
