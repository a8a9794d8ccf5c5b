import Mathlib.Data.List.FinRange
import Mathlib.Data.List.Sublists
import Medulla.Cep.Batch

/-! # Sequences are detected exactly

The choices of positions are the sublists of the sorted events, each as often as it stands there. After
each event the runs of the automaton are the choices so far that match a proper part of the sequence and
that the window still admits at that event.

* one event: `Tracks.step`;
* every stream: `run_sequence_exact`. -/

namespace Medulla.Cep.Sequences

open Batch

variable {V N : Type} {vs : Values V N} {matchers : List (EventMatcher V N)} {window : Window}
  {e : Event V} {es l : List (Event V)} {now : ℕ}

theorem admits_earlier {start mid last : ℕ} (hstart : start ≤ mid) (hmid : mid ≤ last)
    (h : window.admits start last = true) : window.admits start mid = true := by
  cases window with
  | sliding size =>
    simp only [Window.admits, Bool.or_eq_true, decide_eq_true_eq] at h ⊢
    omega
  | tumbling size =>
    simp only [Window.admits, Bool.or_eq_true, decide_eq_true_eq] at h ⊢
    refine h.imp_right fun heq => Nat.le_antisymm (Nat.div_le_div_right hstart) ?_
    rw [heq]
    exact Nat.div_le_div_right hmid

theorem sortByTs_chronological (events : List (Event V)) : Chronological (sortByTs events) := by
  have : Std.Total fun e f : Event V => e.ts ≤ f.ts := ⟨fun e f => Nat.le_total e.ts f.ts⟩
  have : IsTrans (Event V) fun e f => e.ts ≤ f.ts := ⟨fun _ _ _ => Nat.le_trans⟩
  exact List.pairwise_insertionSort _ events

/-! ### Choices -/

def startOf (es : List (Event V)) : ℕ := (es.head?.map (·.ts)).getD 0

def endOf (es : List (Event V)) : ℕ := (es.getLast?.map (·.ts)).getD 0

def matchOf (es : List (Event V)) : Match V := ⟨es, startOf es, endOf es⟩

def meets (vs : Values V N) : List (EventMatcher V N) → List (Event V) → Bool
  | _, [] => true
  | [], _ :: _ => false
  | m :: matchers, e :: es => m.matchesEvent vs e && meets vs matchers es

/-- **A detection**: the events match the whole sequence, inside the window. -/
def detects (vs : Values V N) (matchers : List (EventMatcher V N)) (window : Window)
    (es : List (Event V)) : Bool :=
  (meets vs matchers es && decide (es.length = matchers.length)) &&
    window.admits (startOf es) (endOf es)

/-- A choice that may go on: it matches a part of the sequence and the window admits it now. -/
def isOpen (vs : Values V N) (matchers : List (EventMatcher V N)) (window : Window) (now : ℕ)
    (es : List (Event V)) : Bool :=
  (meets vs matchers es && decide (es.length ≠ matchers.length)) &&
    (es.isEmpty || window.admits (startOf es) now)

def accepts (vs : Values V N) (matchers : List (EventMatcher V N)) (n : ℕ) (e : Event V) : Bool :=
  (matchers[n]?).any (·.matchesEvent vs e)

theorem meets_append : ∀ {matchers : List (EventMatcher V N)} {es : List (Event V)},
    meets vs matchers (es ++ [e]) = (meets vs matchers es && accepts vs matchers es.length e)
  | [], [] => by simp [meets, accepts]
  | [], _ :: _ => by simp [meets]
  | _ :: _, [] => by simp [meets, accepts]
  | m :: matchers, x :: es => by
    have hrest : meets vs matchers (es ++ [e]) = _ := meets_append
    simp [meets, hrest, accepts, Bool.and_assoc]

/-- The choice with one more event, which lies inside the window. -/
theorem extend_eq : (meets vs matchers (es ++ [e]) && window.admits (startOf (es ++ [e])) e.ts) =
    (isOpen vs matchers window e.ts es && accepts vs matchers es.length e) := by
  have hself : window.admits e.ts e.ts = true := by
    cases window <;> simp [Window.admits]
  rw [meets_append, isOpen]
  cases hacc : accepts vs matchers es.length e with
  | false => simp
  | true =>
    have hne : es.length ≠ matchers.length := by
      rintro heq
      simp [accepts, heq] at hacc
    rw [decide_eq_true hne]
    cases es with
    | nil => simp [startOf, hself]
    | cons x es => simp [startOf]

theorem isOpen_append : isOpen vs matchers window e.ts (es ++ [e]) =
    ((isOpen vs matchers window e.ts es && accepts vs matchers es.length e) &&
      decide (es.length + 1 ≠ matchers.length)) := by
  have hne : (es ++ [e]).isEmpty = false := by cases es <;> rfl
  rw [← extend_eq, isOpen, hne]
  simp [Bool.and_right_comm]

theorem detects_append : detects vs matchers window (es ++ [e]) =
    ((isOpen vs matchers window e.ts es && accepts vs matchers es.length e) &&
      decide (es.length + 1 = matchers.length)) := by
  rw [← extend_eq, detects]
  simp [endOf, Bool.and_right_comm]

/-! ### Runs -/

def grown (vs : Values V N) (nfa : SequenceNfa V N) (e : Event V) : List (PartialRun V) :=
  let live := nfa.runs.filter fun p => nfa.window.admits p.startTs e.ts
  live ++ (nfa.extensions vs live e).filter fun p => p.events.length ≠ nfa.matchers.length

def completed (vs : Values V N) (nfa : SequenceNfa V N) (e : Event V) : List (Match V) :=
  let live := nfa.runs.filter fun p => nfa.window.admits p.startTs e.ts
  ((nfa.extensions vs live e).filter fun p => p.events.length = nfa.matchers.length).map
    fun p => ⟨p.events, p.startTs, e.ts⟩

theorem step_eq {nfa : SequenceNfa V N} (hne : nfa.matchers ≠ []) : nfa.step vs e = ({ nfa with
      runs := (grown vs nfa e).drop ((grown vs nfa e).length - maxActiveRuns) }, completed vs nfa e) := by
  unfold SequenceNfa.step
  rw [if_neg (by simpa using hne)]
  rfl

/-- The live runs never exceed the cap. -/
def NeverFull (vs : Values V N) : SequenceNfa V N → List (Event V) → Prop
  | _, [] => True
  | nfa, e :: events => (grown vs nfa e).length ≤ maxActiveRuns ∧ NeverFull vs (nfa.step vs e).1 events

structure Tracks (vs : Values V N) (matchers : List (EventMatcher V N)) (window : Window) (now : ℕ)
    (l : List (Event V)) (runs : List (PartialRun V)) : Prop where
  starts : ∀ p ∈ runs, p.startTs = startOf p.events ∧ p.events ≠ []
  choices : ([] :: runs.map (·.events)).Perm (l.sublists.filter (isOpen vs matchers window now))

section
variable {runs : List (PartialRun V)}

theorem Tracks.survive (h : Tracks vs matchers window now l runs) (hl : ∀ x ∈ l, x.ts ≤ now)
    (hnow : now ≤ e.ts) :
    Tracks vs matchers window e.ts l (runs.filter fun p => window.admits p.startTs e.ts) := by
  refine ⟨fun p hp => h.starts p (List.mem_filter.mp hp).1, ?_⟩
  have hfilter := h.choices.filter fun es => es.isEmpty || window.admits (startOf es) e.ts
  rw [List.filter_cons_of_pos (by rfl), List.filter_map, List.filter_filter] at hfilter
  have hruns : runs.filter (fun p => window.admits p.startTs e.ts) =
      runs.filter ((fun es => es.isEmpty || window.admits (startOf es) e.ts) ∘ (·.events)) := by
    refine List.filter_congr fun p hp => ?_
    simp [(h.starts p hp).1, (h.starts p hp).2]
  have hopen : l.sublists.filter (isOpen vs matchers window e.ts) = l.sublists.filter fun es =>
      (es.isEmpty || window.admits (startOf es) e.ts) && isOpen vs matchers window now es := by
    refine List.filter_congr fun es hes => ?_
    cases es with
    | nil => simp [isOpen]
    | cons x es =>
      have hx := hl x ((List.mem_sublists.mp hes).subset (.head _))
      have hearlier : window.admits x.ts e.ts = true → _ := admits_earlier hx hnow
      simp only [isOpen]
      rw [show startOf (x :: es) = x.ts from rfl]
      cases hadmits : window.admits x.ts e.ts <;> simp_all
  rw [hruns, hopen]
  exact hfilter

/-- What the runs and the empty choice give at an event. -/
theorem Tracks.extensions (h : Tracks vs matchers window e.ts l runs) (old : List (PartialRun V))
    (hlive : ∀ p ∈ runs, window.admits p.startTs e.ts = true) :
    (∀ p ∈ SequenceNfa.extensions vs ⟨matchers, window, old⟩ runs e,
      p.startTs = startOf p.events ∧ p.events.getLast? = some e) ∧
    ((SequenceNfa.extensions vs ⟨matchers, window, old⟩ runs e).map (·.events)).Perm
      ((l.sublists.filter fun es =>
        isOpen vs matchers window e.ts es && accepts vs matchers es.length e).map (· ++ [e])) := by
  have hcond : ∀ p ∈ runs, (window.admits p.startTs e.ts &&
      (matchers[p.events.length]?).any (·.matchesEvent vs e)) = accepts vs matchers p.events.length e :=
    fun p hp => by rw [hlive p hp]; rfl
  have hhead : (matchers.head?).any (·.matchesEvent vs e) = accepts vs matchers 0 e := by
    rw [accepts, List.head?_eq_getElem?]
  unfold SequenceNfa.extensions
  rw [List.filter_congr hcond, hhead]
  constructor
  · intro p hp
    rcases List.mem_append.mp hp with hp | hp
    · obtain ⟨q, hq, rfl⟩ := List.mem_map.mp hp
      obtain ⟨hstart, hne⟩ := h.starts q (List.mem_filter.mp hq).1
      refine ⟨?_, by simp⟩
      cases hq : q.events with
      | nil => exact absurd hq hne
      | cons x es => rw [hstart, hq]; rfl
    · split_ifs at hp
      · rw [List.mem_singleton.mp hp]
        exact ⟨rfl, rfl⟩
      · cases hp
  · have hchoices := (h.choices.filter fun es => accepts vs matchers es.length e).map (· ++ [e])
    rw [List.filter_filter] at hchoices
    simp only [Bool.and_comm (isOpen vs matchers window e.ts _)]
    refine List.Perm.trans ?_ hchoices
    rw [List.filter_cons, List.filter_map, List.map_append, List.map_map]
    rw [List.length_nil]
    cases accepts vs matchers 0 e with
    | true =>
      rw [if_pos rfl, if_pos rfl, List.map_singleton, List.map_cons, List.map_map]
      exact List.perm_append_comm
    | false =>
      rw [if_neg Bool.false_ne_true, if_neg Bool.false_ne_true, List.map_map]
      exact .of_eq (List.append_nil _)

/-- **One event**: the runs are the open choices again, and the matches are the detections that end at
the event. -/
theorem Tracks.step (h : Tracks vs matchers window now l runs) (hl : ∀ x ∈ l, x.ts ≤ now)
    (hnow : now ≤ e.ts) (hne : matchers ≠ [])
    (hroom : (grown vs ⟨matchers, window, runs⟩ e).length ≤ maxActiveRuns) :
    ∃ runs' done, SequenceNfa.step vs ⟨matchers, window, runs⟩ e = (⟨matchers, window, runs'⟩, done) ∧
      Tracks vs matchers window e.ts (l ++ [e]) runs' ∧
      done.Perm ((l.sublists.filter fun es => detects vs matchers window (es ++ [e])).map
        fun es => matchOf (es ++ [e])) := by
  have hsurvive := h.survive (e := e) hl hnow
  obtain ⟨hstarts, hext⟩ := hsurvive.extensions runs fun p hp => (List.mem_filter.mp hp).2
  refine ⟨grown vs ⟨matchers, window, runs⟩ e, completed vs ⟨matchers, window, runs⟩ e, ?_,
    ⟨fun p hp => ?_, ?_⟩, ?_⟩
  · rw [step_eq hne, Nat.sub_eq_zero_of_le hroom, List.drop_zero]
  · rcases List.mem_append.mp hp with hp | hp
    · exact hsurvive.starts p hp
    · obtain ⟨hstart, hlast⟩ := hstarts p (List.mem_filter.mp hp).1
      exact ⟨hstart, fun hnil => by simp [hnil] at hlast⟩
  · have hgrow := hext.filter fun es => decide (es.length ≠ matchers.length)
    rw [List.filter_map, List.filter_map, List.filter_filter] at hgrow
    rw [List.sublists_concat, List.filter_append, List.filter_map]
    simp only [grown, List.map_append]
    refine hsurvive.choices.append (hgrow.trans (.of_eq (congrArg (List.map (· ++ [e])) ?_)))
    refine List.filter_congr fun es _ => ?_
    simp [isOpen_append, Bool.and_comm]
  · have hdone := (hext.filter fun es => decide (es.length = matchers.length)).map matchOf
    rw [List.filter_map, List.filter_map, List.filter_filter, List.map_map, List.map_map] at hdone
    refine List.Perm.trans (.of_eq (List.map_congr_left fun p hp => ?_)) (hdone.trans (.of_eq ?_))
    · obtain ⟨hstart, hlast⟩ := hstarts p (List.mem_filter.mp hp).1
      simp [matchOf, hstart, endOf, hlast]
    · refine congrArg (List.map _) (List.filter_congr fun es _ => ?_)
      simp [detects_append, Bool.and_comm]

end

def detections (vs : Values V N) (matchers : List (EventMatcher V N)) (window : Window)
    (l : List (Event V)) : List (Match V) :=
  (l.sublists.filter (detects vs matchers window)).map matchOf

theorem feed_detects (hne : matchers ≠ []) : ∀ {rest l : List (Event V)} {now : ℕ}
    {runs : List (PartialRun V)}, Chronological rest → (∀ x ∈ l, x.ts ≤ now) →
    (∀ x ∈ rest, now ≤ x.ts) → Tracks vs matchers window now l runs →
    NeverFull vs ⟨matchers, window, runs⟩ rest →
    (detections vs matchers window l ++ SequenceNfa.feed vs ⟨matchers, window, runs⟩ rest).Perm
      (detections vs matchers window (l ++ rest))
  | [], l, now, runs, _, _, _, _, _ => by
    rw [List.append_nil]
    exact .of_eq (List.append_nil _)
  | e :: rest, l, now, runs, hsorted, hl, hrest, h, hfull => by
    obtain ⟨hlater, hsorted⟩ := List.pairwise_cons.mp hsorted
    have hnow := hrest e (.head _)
    obtain ⟨runs', done, hstep, htracks, hdone⟩ := h.step hl hnow hne hfull.1
    have hfull' := hfull.2
    rw [hstep] at hfull'
    have hle : ∀ x ∈ l ++ [e], x.ts ≤ e.ts := by
      intro x hx
      rcases List.mem_append.mp hx with hx | hx
      · exact Nat.le_trans (hl x hx) hnow
      · rw [List.mem_singleton.mp hx]
    have hnext : (detections vs matchers window l ++ done).Perm
        (detections vs matchers window (l ++ [e])) := by
      unfold detections
      rw [List.sublists_concat, List.filter_append, List.map_append, List.filter_map, List.map_map]
      exact hdone.append_left _
    unfold SequenceNfa.feed
    rw [hstep, ← List.append_assoc]
    refine (hnext.append_right _).trans ?_
    have htail := feed_detects hne hsorted hle hlater htracks hfull'
    rwa [List.append_assoc] at htail

/-- **Sequence detection is exact**: while the live runs stay within their cap, a run returns, in some
order, the match of every increasing choice of positions that is a detection, once for each choice. -/
theorem run_sequence_exact (vs : Values V N) (matchers : List (EventMatcher V N))
    (events : List (Event V)) (window : Window) (hne : matchers ≠ [])
    (hfull : NeverFull vs ⟨matchers, window, []⟩ (sortByTs events)) :
    (run vs (.sequence matchers) events window).Perm
      (((List.finRange (sortByTs events).length).sublists.filter fun ps =>
        detects vs matchers window (ps.map (sortByTs events).get)).map fun ps =>
          matchOf (ps.map (sortByTs events).get)) := by
  have hstart : Tracks vs matchers window 0 [] ([] : List (PartialRun V)) := by
    have hlength : (0 : ℕ) ≠ matchers.length := fun h => hne (List.length_eq_zero_iff.mp h.symm)
    refine ⟨fun p hp => absurd hp List.not_mem_nil, .of_eq ?_⟩
    simp [isOpen, meets, hlength]
  have hempty : detections vs matchers window [] = [] := by
    have hlength : (0 : ℕ) ≠ matchers.length := fun h => hne (List.length_eq_zero_iff.mp h.symm)
    simp [detections, detects, hlength]
  have hfeed := feed_detects hne (sortByTs_chronological events) (by simp) (by simp) hstart hfull
  rw [hempty, List.nil_append, List.nil_append] at hfeed
  have hrun : run vs (.sequence matchers) events window =
      SequenceNfa.feed vs ⟨matchers, window, []⟩ (sortByTs events) := by
    unfold run runSequence
    exact if_neg (by simpa using hne)
  rw [hrun]
  refine hfeed.trans (.of_eq ?_)
  unfold detections
  conv_lhs => rw [← List.map_get_finRange (sortByTs events)]
  rw [List.sublists_map, List.filter_map, List.map_map]
  rfl

/-- Two events, each of which any matcher takes. -/
def pairOfEvents : List (Event Bool) := [⟨2, "b", .empty⟩, ⟨1, "a", .empty⟩]

def boolValues : Values Bool ℕ := ⟨(· == ·), fun _ => none, fun m n => m > n, fun m n => m < n⟩

theorem run_sequence_exact_pair :
    (run boolValues (.sequence [⟨none, []⟩, ⟨none, []⟩]) pairOfEvents (.sliding 5)).Perm
      (((List.finRange (sortByTs pairOfEvents).length).sublists.filter fun ps =>
        detects boolValues [⟨none, []⟩, ⟨none, []⟩] (.sliding 5)
          (ps.map (sortByTs pairOfEvents).get)).map fun ps =>
            matchOf (ps.map (sortByTs pairOfEvents).get)) :=
  run_sequence_exact boolValues [⟨none, []⟩, ⟨none, []⟩] pairOfEvents (.sliding 5) (List.cons_ne_nil _ _)
    ⟨by decide, by decide, trivial⟩

end Medulla.Cep.Sequences
