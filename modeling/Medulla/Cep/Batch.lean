import Mathlib.Data.List.Sort
import Medulla.Library.OrderedTable

/-! # Event detection over a batch

A pattern is a sequence of matchers, an event that is not followed by another within a horizon, or a
pattern whose matches are kept when they are short. A batch run sorts the events by time. -/

namespace Medulla.Cep.Batch

open Library.OrderedTable

/-! ### Events -/

/-- Attribute values: equality, and numbers to compare. -/
structure Values (V N : Type) where
  eq : V → V → Bool
  asF64 : V → Option N
  gt : N → N → Bool
  lt : N → N → Bool

structure Event (V : Type) where
  ts : ℕ
  key : String
  attrs : Table String V

/-- A test of one attribute. -/
inductive AttrPredicate (V N : Type)
  | eq (field : String) (value : V)
  | gt (field : String) (value : N)
  | lt (field : String) (value : N)
  | present (field : String)

variable {V N : Type}

def AttrPredicate.eval (vs : Values V N) (attrs : Table String V) : AttrPredicate V N → Bool
  | .eq field value => (attrs.get field).any (vs.eq · value)
  | .gt field value => ((attrs.get field).bind vs.asF64).any (vs.gt · value)
  | .lt field value => ((attrs.get field).bind vs.asF64).any (vs.lt · value)
  | .present field => (attrs.get field).isSome

/-- A key, if one is asked for, and tests that all hold. -/
structure EventMatcher (V N : Type) where
  key : Option String
  preds : List (AttrPredicate V N)

def EventMatcher.matchesEvent (vs : Values V N) (m : EventMatcher V N) (e : Event V) : Bool :=
  (m.key.all fun k => e.key = k) && m.preds.all (AttrPredicate.eval vs e.attrs)

/-! ### Patterns -/

/-- How far apart the events of a match may lie. -/
inductive Window
  | sliding (size : ℕ)
  | tumbling (size : ℕ)

/-- Whether a match from one time to another lies in the window. -/
def Window.admits : Window → ℕ → ℕ → Bool
  | .sliding size, start, last => size = 0 || decide (last - start ≤ size)
  | .tumbling size, start, last => size = 0 || decide (start / size = last / size)

/-- A sequence, a pattern within a limit, or an absence. -/
inductive CepPattern (V N : Type)
  | sequence (matchers : List (EventMatcher V N))
  | within (limit : ℕ) (pattern : CepPattern V N)
  | absence (a b : EventMatcher V N) (limit : ℕ)

/-- The matched events with their first and last time. -/
structure Match (V : Type) where
  events : List (Event V)
  startTs : ℕ
  endTs : ℕ

def single (e : Event V) : Match V := ⟨[e], e.ts, e.ts⟩

def Match.isWithin (limit : ℕ) (m : Match V) : Bool := decide (m.endTs - m.startTs ≤ limit)

/-! ### Sequences -/

/-- A prefix of a sequence matched so far. -/
structure PartialRun (V : Type) where
  startTs : ℕ
  events : List (Event V)

/-- The matchers of a sequence with the runs still open. -/
structure SequenceNfa (V N : Type) where
  matchers : List (EventMatcher V N)
  window : Window
  runs : List (PartialRun V)

/-- The cap on open runs; the oldest are dropped beyond it. -/
def maxActiveRuns : ℕ := 16384

def SequenceNfa.extensions (vs : Values V N) (nfa : SequenceNfa V N) (live : List (PartialRun V))
    (e : Event V) : List (PartialRun V) :=
  ((live.filter fun p => nfa.window.admits p.startTs e.ts &&
      (nfa.matchers[p.events.length]?).any (·.matchesEvent vs e)).map fun p =>
    ⟨p.startTs, p.events ++ [e]⟩) ++
  if (nfa.matchers.head?).any (·.matchesEvent vs e) then [⟨e.ts, [e]⟩] else []

/-- Feeds one event: extends, starts and finishes runs. -/
def SequenceNfa.step (vs : Values V N) (nfa : SequenceNfa V N) (e : Event V) :
    SequenceNfa V N × List (Match V) :=
  if nfa.matchers.isEmpty then (nfa, [])
  else
    let live := nfa.runs.filter fun p => nfa.window.admits p.startTs e.ts
    let extended := nfa.extensions vs live e
    let done := extended.filter fun p => p.events.length = nfa.matchers.length
    let runs := live ++ extended.filter fun p => p.events.length ≠ nfa.matchers.length
    ({ nfa with runs := runs.drop (runs.length - maxActiveRuns) },
      done.map fun p => ⟨p.events, p.startTs, e.ts⟩)

def SequenceNfa.feed (vs : Values V N) : SequenceNfa V N → List (Event V) → List (Match V)
  | _, [] => []
  | nfa, e :: events => (nfa.step vs e).2 ++ feed vs (nfa.step vs e).1 events

def runSequence (vs : Values V N) (matchers : List (EventMatcher V N)) (events : List (Event V))
    (window : Window) : List (Match V) :=
  if matchers.isEmpty then [] else SequenceNfa.feed vs ⟨matchers, window, []⟩ events

/-! ### Absence -/

section
variable (vs : Values V N) (a b : EventMatcher V N) (limit : ℕ) (window : Window)

/-- The event answers a first event at `ts` in time. -/
def follows (f : Event V) (ts : ℕ) : Bool :=
  decide (f.ts - ts ≤ limit) && (window.admits ts f.ts && b.matchesEvent vs f)

/-- The scan for a follower; it stops at the first event past the horizon. -/
def followed (e : Event V) : List (Event V) → Bool
  | [] => false
  | f :: later =>
    if f.ts - e.ts > limit then false
    else if window.admits e.ts f.ts && b.matchesEvent vs f then true
    else followed e later

/-- The first events that nothing answers. -/
def unfollowed : List (Event V) → List (Event V)
  | [] => []
  | e :: later =>
    if a.matchesEvent vs e && !followed vs b limit window e later then e :: unfollowed later
    else unfollowed later

def runAbsence (events : List (Event V)) : List (Match V) :=
  (unfollowed vs a b limit window events).map single

end

/-- The events in the order of their times, those of one time in their order. -/
def sortByTs (events : List (Event V)) : List (Event V) := events.insertionSort fun e f => e.ts ≤ f.ts

/-- The matches of a pattern over a batch of events. -/
def run (vs : Values V N) : CepPattern V N → List (Event V) → Window → List (Match V)
  | .sequence matchers, events, window => runSequence vs matchers (sortByTs events) window
  | .within limit pattern, events, window =>
    (run vs pattern (sortByTs events) window).filter (Match.isWithin limit)
  | .absence a b limit, events, window => runAbsence vs a b limit window (sortByTs events)

/-! ### Sorted events -/

abbrev Chronological (events : List (Event V)) : Prop := events.Pairwise fun e f => e.ts ≤ f.ts

theorem sortByTs_eq {events : List (Event V)} (h : Chronological events) : sortByTs events = events :=
  h.insertionSort_eq

section
variable {vs : Values V N} {a b : EventMatcher V N} {limit : ℕ} {window : Window}

/-- **The scan finds a follower when there is one**: past the horizon there is none. -/
theorem followed_eq {e : Event V} : ∀ {later : List (Event V)}, Chronological (e :: later) →
    followed vs b limit window e later = later.any fun f => follows vs b limit window f e.ts
  | [], _ => rfl
  | f :: later, h => by
    obtain ⟨he, hlater⟩ := List.pairwise_cons.mp h
    obtain ⟨hf, hrest⟩ := List.pairwise_cons.mp hlater
    unfold followed
    by_cases hpast : f.ts - e.ts > limit
    · rw [if_pos hpast, eq_comm, List.any_eq_false]
      intro g hg
      have hfg : f.ts ≤ g.ts := by
        rcases List.mem_cons.mp hg with rfl | hg
        · exact Nat.le_refl _
        · exact hf g hg
      have hdt : ¬ g.ts - e.ts ≤ limit := by omega
      simp [follows, hdt]
    · have hcons : Chronological (e :: later) :=
        List.pairwise_cons.mpr ⟨fun g hg => he g (.tail _ hg), hrest⟩
      rw [if_neg hpast, List.any_cons, followed_eq hcons]
      have hdt : f.ts - e.ts ≤ limit := Nat.not_lt.mp hpast
      by_cases hf : (window.admits e.ts f.ts && b.matchesEvent vs f) = true
      · simp [follows, hdt]
      · rw [Bool.not_eq_true] at hf
        simp [follows, hdt]

theorem unfollowed_cons {e : Event V} {later : List (Event V)} (h : Chronological (e :: later)) :
    unfollowed vs a b limit window (e :: later) =
      (if a.matchesEvent vs e && !(later.any fun f => follows vs b limit window f e.ts) then [e]
        else []) ++ unfollowed vs a b limit window later := by
  conv_lhs => unfold unfollowed
  rw [followed_eq h]
  split_ifs
  · rfl
  · rfl

theorem candidate_filter {p s f : Bool} {x : Event V} {q : Event V → Bool} (hq : q x = !f) :
    (if p && !(s || f) then [x] else []) = (if p && !s then [x] else []).filter q := by
  cases p <;> cases s <;> cases f <;> simp [hq]

/-- **A further event** takes away the candidates it follows, and may be one itself. -/
theorem unfollowed_append {e : Event V} : ∀ {events : List (Event V)}, Chronological (events ++ [e]) →
    unfollowed vs a b limit window (events ++ [e]) =
      ((unfollowed vs a b limit window events).filter fun x => !follows vs b limit window e x.ts) ++
        if a.matchesEvent vs e then [e] else []
  | [], h => by
    rw [List.nil_append, unfollowed_cons h]
    simp [unfollowed]
  | x :: events, h => by
    rw [List.cons_append] at h ⊢
    have hrest := unfollowed_append (List.pairwise_cons.mp h).2
    have hx : Chronological (x :: events) := h.sublist ((List.sublist_append_left _ _).cons_cons x)
    rw [unfollowed_cons h, unfollowed_cons hx, hrest, List.filter_append, ← List.append_assoc,
      List.any_append, List.any_cons, List.any_nil, Bool.or_false]
    rw [candidate_filter (q := fun x => !follows vs b limit window e x.ts) rfl]

theorem mem_unfollowed {e : Event V} : ∀ {events : List (Event V)}, Chronological events →
    (e ∈ unfollowed vs a b limit window events ↔ ∃ earlier later, events = earlier ++ e :: later ∧
      a.matchesEvent vs e = true ∧ ∀ f ∈ later, follows vs b limit window f e.ts = false)
  | [], _ => by simp [unfollowed]
  | x :: events, h => by
    rw [unfollowed_cons h, List.mem_append, mem_unfollowed (List.pairwise_cons.mp h).2]
    constructor
    · rintro (hx | ⟨earlier, later, rfl, hrest⟩)
      · split_ifs at hx with hcond
        · obtain rfl := List.mem_singleton.mp hx
          rw [Bool.and_eq_true, Bool.not_eq_true', List.any_eq_false] at hcond
          exact ⟨[], events, rfl, hcond.1, fun f hf => Bool.not_eq_true _ ▸ hcond.2 f hf⟩
        · cases hx
      · exact ⟨x :: earlier, later, rfl, hrest⟩
    · rintro ⟨earlier, later, heq, hmatch, hfollows⟩
      cases earlier with
      | nil =>
        obtain ⟨rfl, rfl⟩ := List.cons.inj heq
        refine Or.inl ?_
        rw [if_pos]
        · exact List.mem_singleton_self _
        · rw [Bool.and_eq_true, Bool.not_eq_true', List.any_eq_false]
          exact ⟨hmatch, fun f hf => by rw [hfollows f hf]; simp⟩
      | cons y earlier =>
        obtain ⟨rfl, hrest⟩ := List.cons.inj heq
        exact Or.inr ⟨earlier, later, hrest, hmatch, hfollows⟩

end

end Medulla.Cep.Batch
