import Medulla.Statechart.Definition
import Mathlib.Data.Prod.Lex

/-! # Definition-time checks

`validate` collects the hard defects of a chart and its warnings, and accepts the chart if there is no
defect. -/

namespace Medulla.Statechart.Check

open Library.OrderedTable Library.OrderedSet Definition

variable {J : Type} [JsonValue J]

/-- A structural defect that blocks storage. -/
inductive DefError where
  | noStates
  | duplicateState (id : String)
  | initialNotDeclared (id : String)
  | finalNotDeclared (id : String)
  | transitionFromUndeclared (transition source : String)
  | transitionToUndeclared (transition target : String)
  | eventNotInAlphabet (transition event : String)
  | unreachableState (id : String)
  | finalHasOutgoing (state transition : String)
  | duplicateAlphabetSymbol (symbol : String)
  | childNotDeclared (parent child : String)
  | initialChildNotInChildren (parent child : String)
  | multipleParents (id : String)
  | compositeCycle (id : String)
  | historyOnAtomic (id : String)

/-- An observation that does not block storage. -/
inductive DefWarning where
  | nondeterministicPair (state : StateId) (event : EventName) (count : Nat)
  | unusedAlphabetSymbol (symbol : EventName)

structure CompletenessReport where
  errors : List DefError
  warnings : List DefWarning

def CompletenessReport.isValid (report : CompletenessReport) : Bool := report.errors.isEmpty

variable (chart : StatechartDef J)

/-! ### The checks -/

def checkStateSet : List DefError :=
  (if chart.states.isEmpty then [.noStates] else []) ++
    (repeats Table.empty (chart.states.map State.id)).map .duplicateState

def parentsOf : Table StateId Nat := occurrences (chart.containments.map Prod.fst)

def checkStateContainment (s : State J) : List DefError :=
  (s.children.filter fun c => !chart.hasState c).map (.childNotDeclared s.id) ++
  (match s.initialChild with
    | some c => if s.children.any (· == c) then [] else [.initialChildNotInChildren s.id c]
    | none => []) ++
  (if s.history.isSome && s.children.isEmpty then [.historyOnAtomic s.id] else [])

/-- The container of each child that only one container lists. -/
def singleParent : Table StateId StateId :=
  Table.ofPairs (chart.containments.filter fun pair => (parentsOf chart).get pair.1 == some 1)

/-- The climb from `start` comes back to it, or makes more steps than are left. -/
def climbsForever (single : Table StateId StateId) (start : StateId) : Nat → Option StateId → Bool
  | _, none => false
  | 0, some _ => true
  | left + 1, some ancestor =>
    if ancestor == start then true else climbsForever single start left (single.get ancestor)

def checkContainmentCycles : List DefError :=
  (chart.states.filter fun s =>
    climbsForever (singleParent chart) s.id (chart.states.length + 1)
      ((singleParent chart).get s.id)).map fun s => .compositeCycle s.id

/-- Children are declared and have one container, the containment has no cycle, an initial child is
a child, and only composite states have a history. -/
def checkContainmentTree : List DefError :=
  chart.states.flatMap (checkStateContainment chart) ++
  ((parentsOf chart).rows.filter fun r => 1 < r.2).map (fun r => .multipleParents r.1) ++
  checkContainmentCycles chart

def checkAlphabet : List DefError :=
  (repeats Table.empty chart.alphabet).map .duplicateAlphabetSymbol

def checkInitialAndFinals : List DefError :=
  (if chart.hasState chart.initial then [] else [.initialNotDeclared chart.initial]) ++
    (chart.finals.filter fun id => !chart.hasState id).map .finalNotDeclared

/-- One transition: both endpoints declared, the event in the alphabet, no edge out of a final. -/
def checkTransition (t : Transition J) : List DefError :=
  (if chart.hasState t.source then [] else [.transitionFromUndeclared t.shownLabel t.source]) ++
  (if chart.hasState t.target then [] else [.transitionToUndeclared t.shownLabel t.target]) ++
  (if chart.inAlphabet t.event then [] else [.eventNotInAlphabet t.shownLabel t.event]) ++
  (if chart.isFinal t.source then [.finalHasOutgoing t.source t.shownLabel] else [])

def checkTransitions : List DefError := chart.transitions.flatMap (checkTransition chart)

def warnUnusedSymbols : List DefWarning :=
  (chart.alphabet.filter fun symbol => !chart.transitions.any (·.event == symbol)).map
    .unusedAlphabetSymbol

def successors (id : StateId) : List StateId :=
  (chart.transitions.filter fun t => t.source == id).map Transition.target ++
    ((chart.state id).map State.children).getD []

def discover (work : KeySet StateId × List StateId) (id : StateId) : KeySet StateId × List StateId :=
  if chart.hasState id && !has work.1 id then (add work.1 id, work.2 ++ [id]) else work

/-- Breadth-first search; every declared state is queued at most once. -/
def sweep : Nat → KeySet StateId × List StateId → KeySet StateId
  | 0, work => work.1
  | _ + 1, (reachable, []) => reachable
  | fuel + 1, (reachable, current :: queue) =>
    sweep fuel ((successors chart current).foldl (discover chart) (reachable, queue))

def reachableFrom (start : StateId) : KeySet StateId :=
  sweep chart (chart.states.length + 1) (discover chart (Table.empty, []) start)

def checkReachability : List DefError :=
  if chart.hasState chart.initial then
    (chart.states.filter fun s => !has (reachableFrom chart chart.initial) s.id).map
      fun s => .unreachableState s.id
  else []

def warnNondeterminism : List DefWarning :=
  let unguarded := occurrences ((chart.transitions.filter fun t => t.guard.isNone).map
    fun t => toLex (t.source, t.event))
  (unguarded.rows.filter fun r => 1 < r.2).map fun r =>
    .nondeterministicPair (ofLex r.1).1 (ofLex r.1).2 r.2

def validate : Except CompletenessReport CompletenessReport :=
  let report : CompletenessReport :=
    { errors := checkStateSet chart ++ checkContainmentTree chart ++ checkAlphabet chart ++
        checkInitialAndFinals chart ++ checkTransitions chart ++ checkReachability chart
      warnings := warnUnusedSymbols chart ++ warnNondeterminism chart }
  if report.isValid then .ok report else .error report

/-! ### What acceptance means -/

structure WellFormed : Prop where
  ids : (chart.states.map State.id).Nodup
  single : (chart.containments.map Prod.fst).Nodup
  children : ∀ s ∈ chart.states, ∀ c ∈ s.children, chart.hasState c = true
  initialChild : ∀ s ∈ chart.states, ∀ c, s.initialChild = some c → c ∈ s.children
  climbs : ∀ s ∈ chart.states, climbsForever (singleParent chart) s.id (chart.states.length + 1)
    ((singleParent chart).get s.id) = false
  initial : chart.hasState chart.initial = true
  source : ∀ t ∈ chart.transitions, chart.hasState t.source = true
  target : ∀ t ∈ chart.transitions, chart.hasState t.target = true
  finals : ∀ t ∈ chart.transitions, chart.isFinal t.source = false

variable {chart}

theorem single_of_checks (h : ((parentsOf chart).rows.filter fun r => 1 < r.2) = []) :
    (chart.containments.map Prod.fst).Nodup := by
  rw [List.nodup_iff_count_le_one]
  intro c
  rw [← getD_occurrences, ← parentsOf]
  cases hget : (parentsOf chart).get c with
  | none => simp
  | some n =>
    have hn := List.filter_eq_nil_iff.mp h _ (Table.mem_rows.mpr hget)
    simpa using hn

theorem checkStateContainment_eq_nil {s : State J} (h : checkStateContainment chart s = []) :
    (∀ c ∈ s.children, chart.hasState c = true) ∧
      ∀ c, s.initialChild = some c → c ∈ s.children := by
  unfold checkStateContainment at h
  simp only [List.append_eq_nil_iff, List.map_eq_nil_iff, List.filter_eq_nil_iff] at h
  obtain ⟨⟨hchildren, hinitial⟩, -⟩ := h
  refine ⟨fun c hc => by simpa using hchildren c hc, fun c hc => ?_⟩
  by_contra hout
  simp [hc, hout] at hinitial

theorem checkTransition_eq_nil {t : Transition J} (h : checkTransition chart t = []) :
    chart.hasState t.source = true ∧ chart.hasState t.target = true ∧
      chart.isFinal t.source = false := by
  unfold checkTransition at h
  simp only [List.append_eq_nil_iff, ite_eq_left_iff, ite_eq_right_iff, imp_false,
    List.cons_ne_nil, Bool.not_eq_true, Bool.not_eq_false] at h
  exact ⟨h.1.1.1, h.1.1.2, h.2⟩

/-- **An accepted chart is well formed.** -/
theorem wellFormed_of_validate {report : CompletenessReport} (h : validate chart = .ok report) :
    WellFormed chart := by
  unfold validate at h
  simp only [CompletenessReport.isValid, List.isEmpty_iff] at h
  split at h
  case isFalse => exact absurd h (by simp)
  case isTrue hnil =>
    simp only [List.append_eq_nil_iff] at hnil
    obtain ⟨⟨⟨⟨⟨hset, htree⟩, -⟩, hinitial⟩, htransitions⟩, -⟩ := hnil
    simp only [checkStateSet, List.append_eq_nil_iff, List.map_eq_nil_iff, repeats_eq_nil] at hset
    simp only [checkContainmentTree, List.append_eq_nil_iff, List.map_eq_nil_iff,
      List.flatMap_eq_nil_iff] at htree
    obtain ⟨⟨hstates, hparents⟩, hcycles⟩ := htree
    have hedges : ∀ t ∈ chart.transitions, checkTransition chart t = [] := by
      simpa [checkTransitions] using htransitions
    refine ⟨hset.2.1, single_of_checks hparents,
      fun s hs => (checkStateContainment_eq_nil (hstates s hs)).1,
      fun s hs => (checkStateContainment_eq_nil (hstates s hs)).2, fun s hs => ?_, ?_,
      fun t ht => (checkTransition_eq_nil (hedges t ht)).1,
      fun t ht => (checkTransition_eq_nil (hedges t ht)).2.1,
      fun t ht => (checkTransition_eq_nil (hedges t ht)).2.2⟩
    · simp only [checkContainmentCycles, List.map_eq_nil_iff, List.filter_eq_nil_iff] at hcycles
      simpa using hcycles s hs
    · by_contra hout
      simp [checkInitialAndFinals, hout] at hinitial

end Medulla.Statechart.Check
