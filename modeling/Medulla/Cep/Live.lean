import Medulla.Cep.Batch
import Medulla.Library.Checked

/-! # Standing queries

A standing query is fed events as they arrive, and the time in between. A sequence is matched by the
automaton of the batch run.

* one input: `ingest_absence`; all inputs: `feed_absence`;
* the result: `live_agrees_with_batch_iff`. -/

namespace Medulla.Cep.Live

open Library.Checked Batch

variable {V N : Type} {now : ℕ} {m : Match V} {events : List (Event V)}

/-! ### Incremental patterns -/

structure AbsenceState (V N : Type) where
  a : EventMatcher V N
  b : EventMatcher V N
  limit : ℕ
  window : Window
  pending : List (Event V)

variable {st : AbsenceState V N}

/-- Give out every pending candidate whose horizon has passed. -/
def AbsenceState.expire (st : AbsenceState V N) (now : ℕ) : AbsenceState V N × List (Match V) :=
  ({ st with pending := st.pending.filter fun x => !decide (now - x.ts > st.limit) },
    (st.pending.filter fun x => now - x.ts > st.limit).map single)

/-- Expire, let the event suppress the candidates it follows, and let it become one. -/
def AbsenceState.step (vs : Values V N) (st : AbsenceState V N) (e : Event V) :
    AbsenceState V N × List (Match V) :=
  let kept := (st.expire e.ts).1.pending.filter fun x =>
    !(st.b.matchesEvent vs e && decide (e.ts - x.ts ≤ st.limit) && st.window.admits x.ts e.ts)
  ({ st with pending := kept ++ if st.a.matchesEvent vs e then [e] else [] }, (st.expire e.ts).2)

inductive IncPattern (V N : Type)
  | sequence (nfa : SequenceNfa V N)
  | within (limit : ℕ) (inner : IncPattern V N)
  | absence (state : AbsenceState V N)

def IncPattern.compile : CepPattern V N → Window → IncPattern V N
  | .sequence matchers, window => .sequence ⟨matchers, window, []⟩
  | .within limit pattern, window => .within limit (compile pattern window)
  | .absence a b limit, window => .absence ⟨a, b, limit, window, []⟩

def IncPattern.push (vs : Values V N) (e : Event V) : IncPattern V N → IncPattern V N × List (Match V)
  | .sequence nfa => (.sequence (nfa.step vs e).1, (nfa.step vs e).2)
  | .within limit inner =>
    (.within limit (push vs e inner).1, (push vs e inner).2.filter (Match.isWithin limit))
  | .absence state => (.absence (state.step vs e).1, (state.step vs e).2)

/-- Advance the clock without an event. -/
def IncPattern.tick (now : ℕ) : IncPattern V N → IncPattern V N × List (Match V)
  | .sequence nfa => (.sequence nfa, [])
  | .within limit inner =>
    (.within limit (tick now inner).1, (tick now inner).2.filter (Match.isWithin limit))
  | .absence state => (.absence (state.expire now).1, (state.expire now).2)

/-- What a standing query is fed. -/
inductive Input (V : Type)
  | event (e : Event V)
  | tick (now : ℕ)

variable {inputs : List (Input V)}

def IncPattern.ingest (vs : Values V N) (p : IncPattern V N) : Input V → IncPattern V N × List (Match V)
  | .event e => p.push vs e
  | .tick now => p.tick now

def IncPattern.feed (vs : Values V N) : IncPattern V N → List (Input V) →
    IncPattern V N × List (Match V)
  | p, [] => (p, [])
  | p, i :: inputs =>
    ((feed vs (p.ingest vs i).1 inputs).1, (p.ingest vs i).2 ++ (feed vs (p.ingest vs i).1 inputs).2)

def live (vs : Values V N) (pattern : CepPattern V N) (window : Window) (inputs : List (Input V)) :
    List (Match V) :=
  let r := (IncPattern.compile pattern window).feed vs inputs
  r.2 ++ (r.1.tick u64Max).2

/-! ### Inputs -/

def Input.event? : Input V → Option (Event V)
  | .event e => some e
  | .tick _ => none

def Input.clock : Input V → ℕ
  | .event e => e.ts
  | .tick now => now

def eventsOf (inputs : List (Input V)) : List (Event V) := inputs.filterMap Input.event?

/-- Times do not decrease and fit 64 bits, and a tick is not later than the next event. -/
structure Timely (inputs : List (Input V)) : Prop where
  chronological : Chronological (eventsOf inputs)
  ticks : ∀ before now after, inputs = before ++ .tick now :: after →
    ∀ e, (eventsOf after).head? = some e → now ≤ e.ts
  bounded : ∀ i ∈ inputs, i.clock ≤ u64Max

/-- An event that nothing follows in time has a horizon that ends before the largest time. -/
def Drained (vs : Values V N) (window : Window) (events : List (Event V)) : CepPattern V N → Prop
  | .sequence _ => True
  | .within _ pattern => Drained vs window events pattern
  | .absence a b limit => ∀ earlier e later, events = earlier ++ e :: later →
      a.matchesEvent vs e = true → (∀ f ∈ later, follows vs b limit window f e.ts = false) →
        limit < u64Max - e.ts

section
variable {i : Input V}

theorem Timely.tail (h : Timely (i :: inputs)) : Timely inputs where
  chronological := h.chronological.sublist ((List.sublist_cons_self i inputs).filterMap _)
  ticks := fun before now after heq => h.ticks (i :: before) now after (by rw [heq]; rfl)
  bounded := fun j hj => h.bounded j (.tail _ hj)

theorem le_of_mem_of_head : ∀ {events : List (Event V)}, Chronological events →
    (∀ e, events.head? = some e → now ≤ e.ts) → ∀ f ∈ events, now ≤ f.ts
  | e :: events, h, hhead, f, hf => by
    rcases List.mem_cons.mp hf with rfl | hf
    · exact hhead f rfl
    · exact Nat.le_trans (hhead e rfl) ((List.pairwise_cons.mp h).1 f hf)

theorem Timely.clock_le (h : Timely (i :: inputs)) : ∀ f ∈ eventsOf inputs, i.clock ≤ f.ts := by
  cases i with
  | event e => exact (List.pairwise_cons.mp h.chronological).1
  | tick now => exact le_of_mem_of_head h.tail.chronological (h.ticks [] now inputs rfl)

end

/-! ### Nested limits and sequences -/

section
variable {vs : Values V N} {window : Window} {limit : ℕ}

theorem ingest_within {inner : IncPattern V N} {i : Input V} :
    (IncPattern.within limit inner).ingest vs i =
      (.within limit (inner.ingest vs i).1, (inner.ingest vs i).2.filter (Match.isWithin limit)) := by
  cases i with
  | event e => rfl
  | tick now => rfl

theorem feed_within : ∀ {inputs : List (Input V)} {inner : IncPattern V N},
    (IncPattern.within limit inner).feed vs inputs =
      (.within limit (inner.feed vs inputs).1, (inner.feed vs inputs).2.filter (Match.isWithin limit))
  | [], _ => rfl
  | i :: inputs, inner => by
    simp only [IncPattern.feed, ingest_within, feed_within, List.filter_append]

theorem live_within {pattern : CepPattern V N} : live vs (.within limit pattern) window inputs =
      (live vs pattern window inputs).filter (Match.isWithin limit) := by
  unfold live
  simp only [IncPattern.compile, feed_within, IncPattern.tick, List.filter_append]

theorem feed_sequence (vs : Values V N) : ∀ (inputs : List (Input V)) (nfa : SequenceNfa V N),
    ∃ nfa', (IncPattern.sequence nfa).feed vs inputs =
      (.sequence nfa', nfa.feed vs (eventsOf inputs))
  | [], nfa => ⟨nfa, rfl⟩
  | .event e :: inputs, nfa => by
    obtain ⟨nfa', hrest⟩ := feed_sequence vs inputs (nfa.step vs e).1
    exact ⟨nfa', by simp only [IncPattern.feed, IncPattern.ingest, IncPattern.push, hrest, eventsOf,
      List.filterMap_cons, Input.event?, SequenceNfa.feed]⟩
  | .tick now :: inputs, nfa => by
    obtain ⟨nfa', hrest⟩ := feed_sequence vs inputs nfa
    exact ⟨nfa', by simp only [IncPattern.feed, IncPattern.ingest, IncPattern.tick, hrest, eventsOf,
      List.filterMap_cons, Input.event?, List.nil_append]⟩

theorem feed_no_matchers : ∀ {events : List (Event V)} {nfa : SequenceNfa V N}, nfa.matchers = [] →
    nfa.feed vs events = []
  | [], _, _ => rfl
  | e :: events, nfa, h => by
    have hstep : nfa.step vs e = (nfa, []) := by simp [SequenceNfa.step, h]
    simp only [SequenceNfa.feed, hstep, feed_no_matchers h, List.append_nil]

theorem live_sequence {matchers : List (EventMatcher V N)} (h : Chronological (eventsOf inputs)) :
    live vs (.sequence matchers) window inputs = run vs (.sequence matchers) (eventsOf inputs) window := by
  obtain ⟨nfa', hfeed⟩ := feed_sequence vs inputs ⟨matchers, window, []⟩
  unfold live run runSequence
  simp only [IncPattern.compile, hfeed, IncPattern.tick, List.append_nil, sortByTs_eq h]
  by_cases hempty : matchers.isEmpty = true
  · rw [if_pos hempty, feed_no_matchers (List.isEmpty_iff.mp hempty)]
  · rw [if_neg hempty]

end

/-! ### Absence -/

section
variable {vs : Values V N} {a b : EventMatcher V N} {limit : ℕ} {window : Window}

theorem follows_eq {e x : Event V} :
    (b.matchesEvent vs e && decide (e.ts - x.ts ≤ limit) && window.admits x.ts e.ts) =
      follows vs b limit window e x.ts := by
  unfold follows
  cases b.matchesEvent vs e <;> cases decide (e.ts - x.ts ≤ limit) <;> simp

theorem perm_expire :
    ((st.expire now).2 ++ (st.expire now).1.pending.map single).Perm (st.pending.map single) := by
  unfold AbsenceState.expire
  simp only [← List.map_append]
  exact (List.filter_append_perm _ _).map single

theorem mem_expire (h : m ∈ (st.expire now).2) : st.limit < now - m.startTs := by
  obtain ⟨x, hx, rfl⟩ := List.mem_map.mp h
  exact of_decide_eq_true (List.mem_filter.mp hx).2

theorem filter_single {p : ℕ → Bool} {xs : List (Event V)} :
    (xs.map single).filter (fun m => p m.startTs) = (xs.filter fun x => p x.ts).map single := by
  rw [List.filter_map]
  rfl

/-- **One input**: what is given out and what is pending are the candidates of the events so far. -/
theorem ingest_absence (i : Input V) {emitted : List (Match V)}
    (hchron : Chronological (events ++ eventsOf [i]))
    (hperm : (emitted ++ st.pending.map single).Perm
      ((unfollowed vs st.a st.b st.limit st.window events).map single))
    (hclosed : ∀ m ∈ emitted, ∀ f ∈ eventsOf [i], st.limit < f.ts - m.startTs) :
    ∃ pending, (IncPattern.absence st).ingest vs i =
        (.absence { st with pending }, (st.expire i.clock).2) ∧
      ((emitted ++ (st.expire i.clock).2) ++ pending.map single).Perm
        ((unfollowed vs st.a st.b st.limit st.window (events ++ eventsOf [i])).map single) := by
  have hexpired : ((emitted ++ (st.expire i.clock).2) ++ (st.expire i.clock).1.pending.map single).Perm
      ((unfollowed vs st.a st.b st.limit st.window events).map single) := by
    rw [List.append_assoc]
    exact (perm_expire.append_left emitted).trans hperm
  cases i with
  | tick now =>
    refine ⟨_, rfl, ?_⟩
    have hnone : eventsOf [(Input.tick now : Input V)] = [] := rfl
    rw [hnone, List.append_nil]
    exact hexpired
  | event e =>
    refine ⟨_, rfl, ?_⟩
    have hone : eventsOf [Input.event e] = [e] := rfl
    rw [hone] at hchron hclosed ⊢
    rw [unfollowed_append hchron, List.map_append, List.map_append, ← List.append_assoc]
    refine List.Perm.append ?_ ?_
    · have hfiltered := hexpired.filter fun m => !follows vs st.b st.limit st.window e m.startTs
      rw [filter_single (p := fun ts => !follows vs st.b st.limit st.window e ts),
        List.filter_append, filter_single (p := fun ts => !follows vs st.b st.limit st.window e ts)]
        at hfiltered
      have hkept : (emitted ++ (st.expire (Input.event e).clock).2).filter
          (fun m => !follows vs st.b st.limit st.window e m.startTs) =
            emitted ++ (st.expire (Input.event e).clock).2 := by
        refine List.filter_eq_self.mpr fun m hm => ?_
        have hlt : st.limit < e.ts - m.startTs := by
          rcases List.mem_append.mp hm with hm | hm
          · exact hclosed m hm e (.head _)
          · exact mem_expire hm
        simp [follows, Nat.not_le.mpr hlt]
      rw [hkept] at hfiltered
      simp only [follows_eq]
      exact hfiltered
    · split_ifs
      · exact List.Perm.refl _
      · exact List.Perm.refl _

/-- **Whole inputs**, by induction on them; what is given out is closed to all later events. -/
theorem feed_absence : ∀ {inputs : List (Input V)} (st : AbsenceState V N) {events : List (Event V)}
    {emitted : List (Match V)}, Timely inputs → Chronological (events ++ eventsOf inputs) →
    (emitted ++ st.pending.map single).Perm
      ((unfollowed vs st.a st.b st.limit st.window events).map single) →
    (∀ m ∈ emitted, st.limit < u64Max - m.startTs) →
    (∀ m ∈ emitted, ∀ f ∈ eventsOf inputs, st.limit < f.ts - m.startTs) →
      ∃ pending out, (IncPattern.absence st).feed vs inputs = (.absence { st with pending }, out) ∧
        ((emitted ++ out) ++ pending.map single).Perm
          ((unfollowed vs st.a st.b st.limit st.window (events ++ eventsOf inputs)).map single) ∧
        ∀ m ∈ emitted ++ out, st.limit < u64Max - m.startTs
  | [], st, events, emitted, _, _, hperm, hbound, _ =>
    ⟨st.pending, [], rfl, by simpa [eventsOf] using hperm, by simpa using hbound⟩
  | i :: inputs, st, events, emitted, htimely, hchron, hperm, hbound, hclosed => by
    have hsplit : eventsOf (i :: inputs) = eventsOf [i] ++ eventsOf inputs :=
      List.filterMap_append (l := [i])
    rw [hsplit, ← List.append_assoc] at hchron
    rw [hsplit] at hclosed
    have hclock : i.clock ≤ u64Max := htimely.bounded i (.head _)
    have hlate := htimely.clock_le
    obtain ⟨pending₁, hingest, hperm₁⟩ := ingest_absence i
      (hchron.sublist (List.sublist_append_left _ _)) hperm
      fun m hm f hf => hclosed m hm f (List.mem_append_left _ hf)
    have hbound₁ : ∀ m ∈ emitted ++ (st.expire i.clock).2, st.limit < u64Max - m.startTs := by
      intro m hm
      rcases List.mem_append.mp hm with hm | hm
      · exact hbound m hm
      · have hlt := mem_expire hm
        omega
    have hclosed₁ : ∀ m ∈ emitted ++ (st.expire i.clock).2, ∀ f ∈ eventsOf inputs,
        st.limit < f.ts - m.startTs := by
      intro m hm f hf
      rcases List.mem_append.mp hm with hm | hm
      · exact hclosed m hm f (List.mem_append_right _ hf)
      · have hlt := mem_expire hm
        have hle := hlate f hf
        omega
    obtain ⟨pending, out, hfeed, hpermEnd, hboundEnd⟩ :=
      feed_absence { st with pending := pending₁ } htimely.tail hchron hperm₁ hbound₁ hclosed₁
    refine ⟨pending, (st.expire i.clock).2 ++ out, ?_, ?_, ?_⟩
    · simp only [IncPattern.feed, hingest, hfeed]
    · rw [hsplit, ← List.append_assoc, ← List.append_assoc]
      exact hpermEnd
    · rw [← List.append_assoc]
      exact hboundEnd

theorem perm_filter_map_iff {α β : Type*} {f : α → β} {p : α → Bool} {l : List α} :
    ((l.filter p).map f).Perm (l.map f) ↔ ∀ x ∈ l, p x = true := by
  constructor
  · intro h
    have hlen : (l.filter p).length = l.length := by simpa using h.length_eq
    exact List.filter_eq_self.mp (List.filter_sublist.eq_of_length hlen)
  · intro h
    rw [List.filter_eq_self.mpr h]

theorem run_absence_eq (h : Chronological events) :
    run vs (.absence a b limit) events window = (unfollowed vs a b limit window events).map single := by
  unfold run runAbsence
  rw [sortByTs_eq h]

theorem live_absence (vs : Values V N) (a b : EventMatcher V N) (limit : ℕ) (window : Window)
    (h : Timely inputs) :
    ∃ (pending : List (Event V)) (out : List (Match V)), live vs (.absence a b limit) window inputs =
        out ++ (pending.filter fun x => u64Max - x.ts > limit).map single ∧
      (out ++ pending.map single).Perm (run vs (.absence a b limit) (eventsOf inputs) window) ∧
      ∀ m ∈ out, limit < u64Max - m.startTs := by
  have hstart : (([] : List (Match V)) ++ ([] : List (Event V)).map single).Perm
      ((unfollowed vs a b limit window []).map single) := List.Perm.refl _
  obtain ⟨pending, out, hfeed, hperm, hbound⟩ := feed_absence ⟨a, b, limit, window, []⟩ h
    h.chronological hstart (fun m hm => absurd hm List.not_mem_nil)
    fun m hm => absurd hm List.not_mem_nil
  rw [List.nil_append, List.nil_append, ← run_absence_eq h.chronological] at hperm
  refine ⟨pending, out, ?_, hperm, hbound⟩
  unfold live
  simp only [IncPattern.compile, hfeed, IncPattern.tick, AbsenceState.expire]

theorem drained_absence_iff (h : Chronological events) :
    Drained vs window events (.absence a b limit) ↔
      ∀ m ∈ run vs (.absence a b limit) events window, limit < u64Max - m.startTs := by
  rw [run_absence_eq h]
  constructor
  · intro hd m hm
    obtain ⟨e, he, rfl⟩ := List.mem_map.mp hm
    obtain ⟨earlier, later, heq, hmatch, hfollows⟩ := (mem_unfollowed h).mp he
    exact hd earlier e later heq hmatch hfollows
  · intro hd earlier e later heq hmatch hfollows
    exact hd (single e) (List.mem_map_of_mem
      ((mem_unfollowed h).mpr ⟨earlier, later, heq, hmatch, hfollows⟩))

/-- **An absence is detected alike** when every unfollowed candidate has a horizon that ends in time. -/
theorem live_perm_absence_iff (h : Timely inputs) :
    (live vs (.absence a b limit) window inputs).Perm
        (run vs (.absence a b limit) (eventsOf inputs) window) ↔
      Drained vs window (eventsOf inputs) (.absence a b limit) := by
  obtain ⟨pending, out, hlive, hperm, hbound⟩ := live_absence vs a b limit window h
  rw [hlive, drained_absence_iff h.chronological, ← hperm.congr_right, List.perm_append_left_iff,
    perm_filter_map_iff]
  constructor
  · intro hall m hm
    rcases List.mem_append.mp (hperm.mem_iff.mpr hm) with hm | hm
    · exact hbound m hm
    · obtain ⟨x, hx, rfl⟩ := List.mem_map.mp hm
      exact of_decide_eq_true (hall x hx)
  · intro hall x hx
    exact decide_eq_true (hall (single x)
      (hperm.mem_iff.mp (List.mem_append_right _ (List.mem_map_of_mem hx))))

theorem run_absence_instant (hm : m ∈ run vs (.absence a b limit) events window) :
    m.endTs = m.startTs := by
  obtain ⟨e, -, rfl⟩ := List.mem_map.mp hm
  rfl

theorem live_absence_instant (h : Timely inputs)
    (hm : m ∈ live vs (.absence a b limit) window inputs) : m.endTs = m.startTs := by
  obtain ⟨pending, out, hlive, hperm, -⟩ := live_absence vs a b limit window h
  rw [hlive] at hm
  rcases List.mem_append.mp hm with hm | hm
  · exact run_absence_instant (hperm.mem_iff.mp (List.mem_append_left _ hm))
  · obtain ⟨e, -, rfl⟩ := List.mem_map.mp hm
    rfl

/-! ### All patterns -/

theorem live_cases (h : Timely inputs) : ∀ pattern : CepPattern V N,
    (live vs pattern window inputs = run vs pattern (eventsOf inputs) window ∧
      Drained vs window (eventsOf inputs) pattern) ∨
    ∃ a b limit, live vs pattern window inputs = live vs (.absence a b limit) window inputs ∧
      run vs pattern (eventsOf inputs) window = run vs (.absence a b limit) (eventsOf inputs) window ∧
      (Drained vs window (eventsOf inputs) pattern ↔
        Drained vs window (eventsOf inputs) (.absence a b limit))
  | .sequence matchers => Or.inl ⟨live_sequence h.chronological, trivial⟩
  | .absence a b limit => Or.inr ⟨a, b, limit, rfl, rfl, Iff.rfl⟩
  | .within limit pattern => by
    have hrun : run vs (.within limit pattern) (eventsOf inputs) window =
        (run vs pattern (eventsOf inputs) window).filter (Match.isWithin limit) := by
      conv_lhs => unfold run
      rw [sortByTs_eq h.chronological]
    rw [live_within, hrun]
    rcases live_cases h pattern with ⟨hlive, hdrained⟩ | ⟨a, b, limit', hlive, hrun', hdrained⟩
    · exact Or.inl ⟨by rw [hlive], hdrained⟩
    · refine Or.inr ⟨a, b, limit', ?_, ?_, hdrained⟩
      · rw [hlive]
        refine List.filter_eq_self.mpr fun m hm => ?_
        simp [Match.isWithin, live_absence_instant h hm]
      · rw [hrun']
        refine List.filter_eq_self.mpr fun m hm => ?_
        simp [Match.isWithin, run_absence_instant hm]

end

/-- **When live and batch detection agree**: exactly when no candidate of an absence that nothing follows
in time has a horizon that reaches the largest time. -/
theorem live_agrees_with_batch_iff (vs : Values V N) (pattern : CepPattern V N) (window : Window)
    (inputs : List (Input V)) (h : Timely inputs) :
    (live vs pattern window inputs).Perm (run vs pattern (eventsOf inputs) window) ↔
      Drained vs window (eventsOf inputs) pattern := by
  rcases live_cases h pattern with ⟨hlive, hdrained⟩ | ⟨a, b, limit, hlive, hrun, hdrained⟩
  · rw [hlive]
    exact ⟨fun _ => hdrained, fun _ => List.Perm.refl _⟩
  · rw [hlive, hrun, hdrained]
    exact live_perm_absence_iff h

def noValues : Values Unit Unit := ⟨fun _ _ => true, fun _ => none, fun _ _ => false, fun _ _ => false⟩

def neverClosed (limit : ℕ) : CepPattern Unit Unit :=
  .absence ⟨some "open", []⟩ ⟨some "close", []⟩ limit

def oneOpen : List (Input Unit) := [.event ⟨0, "open", .empty⟩, .tick 10]

theorem oneOpen_timely : Timely oneOpen where
  chronological := List.pairwise_singleton _ _
  ticks := by
    intro before now after heq e he
    match before, heq with
    | [_], heq =>
      obtain ⟨-, heq⟩ := List.cons.inj heq
      obtain ⟨-, rfl⟩ := List.cons.inj heq
      cases he
    | _ :: _ :: before, heq => simp [oneOpen] at heq
  bounded := by
    intro i hi
    rcases List.mem_cons.mp hi with rfl | hi
    · exact Nat.zero_le _
    · rw [List.mem_singleton.mp hi]
      decide

theorem oneOpen_agrees : (run noValues (neverClosed 5) (eventsOf oneOpen) (.sliding 0)).length = 1 ∧
      (live noValues (neverClosed 5) (.sliding 0) oneOpen).Perm
        (run noValues (neverClosed 5) (eventsOf oneOpen) (.sliding 0)) := by
  refine ⟨by decide +kernel, (live_agrees_with_batch_iff _ _ _ _ oneOpen_timely).mpr ?_⟩
  intro earlier e later heq _ _
  have hmem : e ∈ eventsOf oneOpen := by rw [heq]; simp
  rw [List.mem_singleton.mp hmem]
  decide

/-- **A candidate whose horizon reaches the largest time is never given out.** -/
theorem longest_horizon_lost : ¬ ∀ (pattern : CepPattern Unit Unit) (window : Window)
    (inputs : List (Input Unit)), Timely inputs → (live noValues pattern window inputs).Perm
        (run noValues pattern (eventsOf inputs) window) := by
  intro h
  have hlen := (h (neverClosed u64Max) (.sliding 0) oneOpen oneOpen_timely).length_eq
  exact absurd hlen (by decide +kernel)

end Medulla.Cep.Live
