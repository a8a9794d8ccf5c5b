import Medulla.Placement.Shapes

/-! # What is true of the plans in every run

Whatever the interleaving, a plan keeps its shape while its commands are committed, and its epoch is
published only after the counter reached it (`Sound`).

* every run: `sound_run`, `epochs_allocated_once`. -/

namespace Medulla.Placement.Soundness

open Library.OrderedTable Library.Transaction Placement.Partition Catalog Plans
open Shapes

variable {t : Thread} {cmd : Command} {s : System} {op : Operation} {p : PendingWrite} {n : ℕ}
  {c : PlacementCatalog}

/-! ### What is left of a plan -/

def removedKey : Command → Option PartitionKey
  | .removeMethod k => some k
  | _ => none

def addedEntry : Command → Option PlacementEntry
  | .entryMethod x => some x
  | _ => none

def removesLeft (t : Thread) : List PartitionKey := t.methods.filterMap removedKey

def addsLeft (t : Thread) : List PlacementEntry := t.methods.filterMap addedEntry

theorem filterMap_removedKey (ks : List PartitionKey) (es : List PlacementEntry) :
    (rewriteMethods ks es).filterMap removedKey = ks := by
  unfold rewriteMethods
  rw [List.filterMap_append, List.filterMap_map, List.filterMap_map]
  have hk : ks.filterMap (removedKey ∘ Command.removeMethod) = ks := by
    rw [show removedKey ∘ Command.removeMethod = some from rfl, List.filterMap_some]
  have he : es.filterMap (removedKey ∘ Command.entryMethod) = [] := by
    exact List.filterMap_eq_nil_iff.mpr fun _ _ => rfl
  rw [hk, he, List.append_nil]

theorem filterMap_addedEntry (ks : List PartitionKey) (es : List PlacementEntry) :
    (rewriteMethods ks es).filterMap addedEntry = es := by
  unfold rewriteMethods
  rw [List.filterMap_append, List.filterMap_map, List.filterMap_map]
  have hk : ks.filterMap (addedEntry ∘ Command.removeMethod) = [] := by
    exact List.filterMap_eq_nil_iff.mpr fun _ _ => rfl
  have he : es.filterMap (addedEntry ∘ Command.entryMethod) = es := by
    rw [show addedEntry ∘ Command.entryMethod = some from rfl, List.filterMap_some]
  rw [hk, he, List.nil_append]

section
variable {rest : List Command}

theorem left_remove {k : PartitionKey} (h : t.methods = .removeMethod k :: rest) :
    removesLeft t = k :: removesLeft { t with methods := rest } ∧
      addsLeft t = addsLeft { t with methods := rest } := by
  unfold removesLeft addsLeft
  rw [h]
  exact ⟨rfl, rfl⟩

theorem left_add {x : PlacementEntry} (h : t.methods = .entryMethod x :: rest) :
    removesLeft t = removesLeft { t with methods := rest } ∧
      addsLeft t = x :: addsLeft { t with methods := rest } := by
  unfold removesLeft addsLeft
  rw [h]
  exact ⟨rfl, rfl⟩

end

structure Rewriting (t : Thread) : Prop where
  ordered : t.methods = rewriteMethods (removesLeft t) (addsLeft t)
  removed : ∀ k ∈ removesLeft t, k.tenant = t.op.tenant
  added : ∀ x ∈ addsLeft t, x.key.tenant = t.op.tenant ∧ x.epoch = t.plan.epoch ∧
    x.key.rangeStart ≤ x.key.rangeEnd
  lenient : t.plan.requireSuccess = false
  reserved : t.plan.epochAllocation.isSome

/-- The compare-and-set of a move keeps a route or raises its epoch to that of the plan. -/
def KeepsOrRaises (t : Thread) (e u : PlacementEntry) : Prop :=
  (u.group = e.group ∧ u.epoch = e.epoch) ∨
    (e.epoch < u.epoch ∧ u.epoch = t.plan.epoch ∧ t.plan.epochAllocation.isSome)

/-- What is left of a plan of a move: at most its compare-and-set. -/
def Moving (t : Thread) : Prop :=
  t.methods = [] ∨ ∃ e u, t.methods = [.entryCasMethod e u] ∧ e.key.tenant = t.op.tenant ∧
    KeepsOrRaises t e u

/-- How far the reservation of a plan's epoch came. -/
structure Reserving (t : Thread) (counter : ℕ) : Prop where
  unallocated : t.plan.epochAllocation = none → t.reserve = []
  allocated : ∀ a, t.plan.epochAllocation = some a →
    t.reserve <:+ reserveSteps a ∧ a.allocated = t.plan.epoch ∧ a.floor + 1 = a.allocated ∧
      a.expected ≤ a.floor
  counted : ∀ a, t.plan.epochAllocation = some a → t.reserve = [] → t.plan.epoch ≤ counter

/-- **What is true in every run.** -/
structure Sound (s : System) : Prop where
  rewriting : ∀ (i : ℕ) (t : Thread), s.threads[i]? = some t → t.op.rewrites → Rewriting t
  moving : ∀ (i : ℕ) (t : Thread), s.threads[i]? = some t → t.op.rewrites = false → Moving t
  reserving : ∀ (i : ℕ) (t : Thread), s.threads[i]? = some t → Reserving t (s.catalog.epochCounter.getD 0)
  rows : ∀ k o, s.catalog.entries.get k = some o →
    o.epoch ≤ s.catalog.epochCounter.getD 0 ∧ k.rangeStart ≤ k.rangeEnd
  distinct : ∀ (i j : ℕ) (t u : Thread), s.threads[i]? = some t → s.threads[j]? = some u → i ≠ j →
    t.plan.epochAllocation.isSome → u.plan.epochAllocation.isSome → t.reserve = [] →
      u.reserve = [] → t.plan.epoch ≠ u.plan.epoch
  made : ∀ (i : ℕ) (t : Thread), s.threads[i]? = some t → t.madeAt ≤ s.log.length

/-! ### What a plan commits next -/

/-- **The commands that a plan can commit next.** -/
inductive Commits (t : Thread) : Command → Prop
  | reserve {cmd : Command} (a : EpochAllocation) (rest : List Command)
      (allocated : t.plan.epochAllocation = some a) (left : t.reserve = cmd :: rest)
      (step : cmd ∈ reserveSteps a) : Commits t cmd
  | remove (k : PartitionKey) (rest : List Command) (rewrites : t.op.rewrites)
      (reserved : t.reserve = []) (left : t.methods = .removeMethod k :: rest)
      (tenant : k.tenant = t.op.tenant) : Commits t (.removeMethod k)
  | add (x : PlacementEntry) (rest : List Command) (rewrites : t.op.rewrites)
      (reserved : t.reserve = []) (left : t.methods = .entryMethod x :: rest)
      (removes : removesLeft t = []) (tenant : x.key.tenant = t.op.tenant) :
      Commits t (.entryMethod x)
  | cas (e u : PlacementEntry) (moves : t.op.rewrites = false) (reserved : t.reserve = [])
      (left : t.methods = [.entryCasMethod e u]) (tenant : e.key.tenant = t.op.tenant)
      (route : KeepsOrRaises t e u) : Commits t (.entryCasMethod e u)

theorem next_eq_some (h : t.next = some cmd) :
    t.stopped = false ∧ ((∃ rest, t.reserve = cmd :: rest) ∨
      (t.reserve = [] ∧ ∃ rest, t.methods = cmd :: rest)) := by
  unfold Thread.next at h
  split_ifs at h with hs
  refine ⟨by simpa using hs, ?_⟩
  cases hr : t.reserve with
  | nil =>
    right
    cases hm : t.methods with
    | nil =>
      rw [hr, hm] at h
      cases h
    | cons a rest =>
      rw [hr, hm] at h
      cases h
      exact ⟨rfl, rest, rfl⟩
  | cons a rest =>
    left
    rw [hr] at h
    cases h
    exact ⟨rest, rfl⟩

theorem rewrite_next {rest : List Command} (h : Rewriting t) (hr : t.op.rewrites)
    (hres : t.reserve = []) (hm : t.methods = cmd :: rest) : Commits t cmd := by
  have hord := h.ordered
  rw [hm] at hord
  cases hk : removesLeft t with
  | cons k ks =>
    rw [hk] at hord
    obtain ⟨rfl, hrest⟩ := List.cons.inj hord
    exact .remove k rest hr hres hm (h.removed k (by rw [hk]; exact .head _))
  | nil =>
    cases he : addsLeft t with
    | nil =>
      rw [hk, he] at hord
      cases hord
    | cons x es =>
      rw [hk, he] at hord
      obtain ⟨rfl, -⟩ := List.cons.inj hord
      exact .add x rest hr hres hm hk (h.added x (by rw [he]; exact .head _)).1

/-- **What a plan commits next, in a sound system.** -/
theorem Sound.commits (hs : Sound s) {i : ℕ} (ht : s.threads[i]? = some t) (hn : t.next = some cmd) :
    Commits t cmd := by
  obtain ⟨-, ⟨rest, hr⟩ | ⟨hr, rest, hm⟩⟩ := next_eq_some hn
  · cases ha : t.plan.epochAllocation with
    | none =>
      rw [(hs.reserving i t ht).unallocated ha] at hr
      cases hr
    | some a =>
      have hsuffix := ((hs.reserving i t ht).allocated a ha).1
      exact .reserve a rest ha hr (hsuffix.subset (by rw [hr]; exact .head _))
  · cases hw : t.op.rewrites with
    | true => exact rewrite_next (hs.rewriting i t ht hw) hw hr hm
    | false =>
      rcases hs.moving i t ht hw with hnil | ⟨e, u, hcas, htenant, hroute⟩
      · rw [hnil] at hm
        cases hm
      · rw [hcas] at hm
        cases hm
        exact .cas e u hw hr hcas htenant hroute

/-! ### Going on after a command -/

section
variable {rest : List Command} {took : Bool}

theorem advance_reserve (h : t.reserve = cmd :: rest) :
    t.advance took = if took then { t with reserve := rest } else { t with stopped := true } := by
  unfold Thread.advance
  rw [h]

theorem advance_methods (hr : t.reserve = []) (h : t.methods = cmd :: rest)
    (hl : t.plan.requireSuccess = false) : t.advance took = { t with methods := rest } := by
  unfold Thread.advance
  rw [hr, h, hl]
  rfl

theorem advance_op (t : Thread) (took : Bool) : (t.advance took).op = t.op := by
  unfold Thread.advance
  split
  · split_ifs <;> rfl
  · split_ifs <;> rfl
  · rfl

theorem advance_plan (t : Thread) (took : Bool) : (t.advance took).plan = t.plan := by
  unfold Thread.advance
  split
  · split_ifs <;> rfl
  · split_ifs <;> rfl
  · rfl

theorem advance_madeAt (t : Thread) (took : Bool) : (t.advance took).madeAt = t.madeAt := by
  unfold Thread.advance
  split
  · split_ifs <;> rfl
  · split_ifs <;> rfl
  · rfl

end

theorem commitCommand_threads {i j : ℕ} {u : Thread}
    (h : (s.commitCommand i t cmd).threads[j]? = some u) :
    (j = i ∧ u = t.advance (s.catalog.apply cmd).2) ∨ (j ≠ i ∧ s.threads[j]? = some u) := by
  unfold System.commitCommand at h
  rw [List.getElem?_set] at h
  split_ifs at h with hij hlt
  · exact Or.inl ⟨hij.symm, (Option.some.inj h).symm⟩
  · exact Or.inr ⟨fun hji => hij hji.symm, h⟩

theorem propose_threads {j : ℕ} {u : Thread} (h : (s.threads ++ [Thread.start op p n])[j]? = some u) :
    s.threads[j]? = some u ∨ (j = s.threads.length ∧ u = Thread.start op p n) := by
  rw [List.getElem?_append] at h
  split_ifs at h with hlt
  · exact Or.inl h
  · right
    have hj : j - s.threads.length = 0 := by
      by_contra hne
      rw [List.getElem?_eq_none (by simp only [List.length_singleton]; omega)] at h
      cases h
    rw [hj] at h
    exact ⟨by omega, (Option.some.inj h).symm⟩

/-! ### The reservation of an epoch -/

section
variable {a : EpochAllocation}

theorem mem_reserveSteps (h : cmd ∈ reserveSteps a) :
    cmd = .epochSeedMethod a.floor ∨ cmd = .epochCasMethod a.expected a.floor ∨
      cmd = .epochCasMethod a.floor a.allocated := by
  rcases List.mem_append.mp h with h | h
  · rcases List.mem_append.mp h with h | h
    · split_ifs at h with hs
      · exact Or.inl (List.mem_singleton.mp h)
      · exact absurd h List.not_mem_nil
    · split_ifs at h with hs
      · exact Or.inr (Or.inl (List.mem_singleton.mp h))
      · exact absurd h List.not_mem_nil
  · exact Or.inr (Or.inr (List.mem_singleton.mp h))

theorem apply_reserve (hf : a.floor + 1 = a.allocated) (he : a.expected ≤ a.floor)
    (h : cmd ∈ reserveSteps a) :
    (c.apply cmd).1.entries = c.entries ∧ (c.apply cmd).1.journals = c.journals ∧
      c.epochCounter.getD 0 ≤ (c.apply cmd).1.epochCounter.getD 0 := by
  have hcas : ∀ m n, m ≤ n → (c.apply (.epochCasMethod m n)).1.entries = c.entries ∧
      (c.apply (.epochCasMethod m n)).1.journals = c.journals ∧
        c.epochCounter.getD 0 ≤ (c.apply (.epochCasMethod m n)).1.epochCounter.getD 0 := by
    intro m n hmn
    by_cases hc : c.epochCounter = some m
    · rw [apply_epochCas hc, hc]
      exact ⟨rfl, rfl, hmn⟩
    · rw [apply_epochCas_stale hc]
      exact ⟨rfl, rfl, le_rfl⟩
  rcases mem_reserveSteps h with rfl | rfl | rfl
  · by_cases hc : c.epochCounter = none
    · rw [apply_epochSeed hc, hc]
      exact ⟨rfl, rfl, Nat.zero_le _⟩
    · rw [apply_epochSeed_present hc]
      exact ⟨rfl, rfl, le_rfl⟩
  · exact hcas _ _ he
  · exact hcas _ _ (by omega)

theorem apply_last_reserve (h : [cmd] <:+ reserveSteps a) (took : (c.apply cmd).2 = true) :
    c.epochCounter = some a.floor ∧ (c.apply cmd).1.epochCounter = some a.allocated := by
  have hcmd : cmd = .epochCasMethod a.floor a.allocated := by
    obtain ⟨pre, hpre⟩ := h
    exact List.singleton_inj.mp (List.append_inj_right' hpre rfl)
  subst hcmd
  by_cases hc : c.epochCounter = some a.floor
  · rw [apply_epochCas hc]
    exact ⟨hc, rfl⟩
  · rw [apply_epochCas_stale hc] at took
    cases took

end

theorem apply_row_counter (h : Commits t cmd) (hr : t.reserve = []) :
    (c.apply cmd).1.epochCounter = c.epochCounter := by
  cases h with
  | reserve a rest _ left => rw [hr] at left; cases left
  | remove => rfl
  | add => rfl
  | cas e u =>
    by_cases hc : c.entries.get e.key = some e.toOwner
    · rw [apply_entryCas hc]
    · rw [apply_entryCas_stale hc]

/-! ### Soundness along runs -/

theorem sound_fresh : Sound System.fresh where
  rewriting i t h := by cases h
  moving i t h := by cases h
  reserving i t h := by cases h
  rows k o h := by cases h
  distinct i j t u h := by cases h
  made i t h := by cases h

theorem start_rewriting (h : op.plan c = .ok p) (hr : op.rewrites) :
    Rewriting (Thread.start op p n) := by
  obtain ⟨a, ks, es, hw⟩ := plan_rewrite hr h
  have hp := hw.eq
  subst hp
  have hks : removesLeft (Thread.start op ⟨rewriteMethods ks es, a.allocated, some a, false⟩ n) = ks :=
    filterMap_removedKey ks es
  have hes : addsLeft (Thread.start op ⟨rewriteMethods ks es, a.allocated, some a, false⟩ n) = es :=
    filterMap_addedEntry ks es
  refine ⟨?_, ?_, ?_, rfl, rfl⟩
  · rw [hks, hes]
    rfl
  · rw [hks]
    intro k hk
    obtain ⟨e, he, rfl⟩ := hw.removed k hk
    exact (mem_tenantEntries.mp he).2.2
  · rw [hes]
    exact hw.added

theorem start_moving (h : op.plan c = .ok p) (hr : op.rewrites = false) :
    Moving (Thread.start op p n) := by
  cases plan_fenced hr h with
  | idle methods => exact Or.inl methods
  | keeps e u row methods route =>
    exact Or.inr ⟨e, u, methods, (mem_tenantEntries.mp row).2.2, Or.inl route⟩
  | raises e u a row methods allocated epoch reserved =>
    obtain ⟨-, halloc, -⟩ := nextEpoch_eq_ok allocated
    have hle := epoch_le_floor (List.mem_of_mem_filter row)
    refine Or.inr ⟨e, u, methods, (mem_tenantEntries.mp row).2.2, Or.inr ⟨?_, ?_, ?_⟩⟩
    · rw [epoch.1]
      omega
    · rw [epoch.1]
      exact epoch.2.symm
    · change p.epochAllocation.isSome
      rw [reserved]
      rfl

theorem start_reserving (h : op.plan c = .ok p) :
    Reserving (Thread.start op p n) (c.epochCounter.getD 0) := by
  -- a plan either allocates no epoch or takes the next one of the catalog
  have hplan : p.epochAllocation = none ∨
      ∃ a, c.nextEpoch = .ok a ∧ p.epochAllocation = some a ∧ p.epoch = a.allocated := by
    cases hr : op.rewrites with
    | true =>
      obtain ⟨a, ks, es, hw⟩ := plan_rewrite hr h
      exact Or.inr ⟨a, hw.allocated, by rw [hw.eq], by rw [hw.eq]⟩
    | false =>
      cases plan_fenced hr h with
      | idle _ hnone => exact Or.inl hnone
      | keeps _ _ _ _ _ hnone => exact Or.inl hnone
      | raises e u a _ _ halloc epoch hsome => exact Or.inr ⟨a, halloc, hsome, epoch.2⟩
  rcases hplan with hnone | ⟨a, halloc, hsome, hepoch⟩
  · refine ⟨fun _ => ?_, fun a ha => ?_, fun a ha => ?_⟩
    · simp only [Thread.start, PendingWrite.reserve, hnone]
    · rw [show (Thread.start op p n).plan = p from rfl, hnone] at ha
      cases ha
    · rw [show (Thread.start op p n).plan = p from rfl, hnone] at ha
      cases ha
  · obtain ⟨hfloor, hnext, -, hexp, -⟩ := nextEpoch_eq_ok halloc
    have hres : (Thread.start op p n).reserve = reserveSteps a := by
      simp only [Thread.start, PendingWrite.reserve, hsome]
    have hle : a.expected ≤ a.floor := by
      rw [hexp, hfloor]
      cases hc : c.epochCounter with
      | none => exact le_rfl
      | some m =>
        have := epochCounter_le_floor c
        rw [hc] at this
        exact this
    refine ⟨fun ha => ?_, fun b hb => ?_, fun b hb hempty => ?_⟩
    · rw [show (Thread.start op p n).plan = p from rfl, hsome] at ha
      cases ha
    · rw [show (Thread.start op p n).plan = p from rfl, hsome] at hb
      cases hb
      rw [hres]
      exact ⟨List.suffix_rfl, hepoch.symm, by rw [hfloor, hnext], hle⟩
    · rw [hres] at hempty
      unfold reserveSteps at hempty
      exact absurd hempty (by simp)

theorem Sound.propose (hs : Sound s) (h : op.plan s.catalog = .ok p) :
    Sound { s with threads := s.threads ++ [Thread.start op p s.log.length] } where
  rewriting i t ht hr := by
    rcases propose_threads ht with ht | ⟨-, rfl⟩
    · exact hs.rewriting i t ht hr
    · exact start_rewriting h hr
  moving i t ht hr := by
    rcases propose_threads ht with ht | ⟨-, rfl⟩
    · exact hs.moving i t ht hr
    · exact start_moving h hr
  reserving i t ht := by
    rcases propose_threads ht with ht | ⟨-, rfl⟩
    · exact hs.reserving i t ht
    · exact start_reserving h
  rows := hs.rows
  distinct i j t u ht hu hij hta hua htr hur := by
    -- a plan that was just made has reserved nothing yet
    have hnew : ∀ v, v = Thread.start op p s.log.length → v.plan.epochAllocation.isSome →
        v.reserve = [] → False := by
      rintro v rfl hsome hempty
      obtain ⟨a, ha⟩ := Option.isSome_iff_exists.mp hsome
      simp only [Thread.start, PendingWrite.reserve] at hempty ha
      rw [ha] at hempty
      unfold reserveSteps at hempty
      exact absurd hempty (by simp)
    rcases propose_threads ht with ht | ⟨-, ht⟩
    · rcases propose_threads hu with hu | ⟨-, hu⟩
      · exact hs.distinct i j t u ht hu hij hta hua htr hur
      · exact (hnew u hu hua hur).elim
    · exact (hnew t ht hta htr).elim
  made i t ht := by
    rcases propose_threads ht with ht | ⟨-, rfl⟩
    · exact hs.made i t ht
    · exact le_rfl

section
variable {i : ℕ}

section
variable (hs : Sound s) (ht : s.threads[i]? = some t)
include hs ht

theorem Sound.counter_mono (h : Commits t cmd) :
    s.catalog.epochCounter.getD 0 ≤ (s.catalog.apply cmd).1.epochCounter.getD 0 := by
  cases hr : t.reserve with
  | nil => rw [apply_row_counter h hr]
  | cons =>
    cases h with
    | reserve a rest alloc left step =>
      obtain ⟨-, -, hfloor, hexp⟩ := (hs.reserving i t ht).allocated a alloc
      exact (apply_reserve hfloor hexp step).2.2
    | remove _ _ _ hnil => rw [hnil] at hr; cases hr
    | add _ _ _ hnil => rw [hnil] at hr; cases hr
    | cas _ _ _ hnil => rw [hnil] at hr; cases hr

theorem Sound.epoch_counted (hr : t.reserve = [])
    (ha : t.plan.epochAllocation.isSome) : t.plan.epoch ≤ s.catalog.epochCounter.getD 0 := by
  obtain ⟨a, ha⟩ := Option.isSome_iff_exists.mp ha
  exact (hs.reserving i t ht).counted a ha hr

theorem Sound.advance_rewriting (h : Commits t cmd)
    (hr : t.op.rewrites) (took : Bool) : Rewriting (t.advance took) := by
  have hw := hs.rewriting i t ht hr
  cases h with
  | reserve a rest alloc left step =>
    rw [advance_reserve left]
    split_ifs
    · exact ⟨hw.ordered, hw.removed, hw.added, hw.lenient, hw.reserved⟩
    · exact ⟨hw.ordered, hw.removed, hw.added, hw.lenient, hw.reserved⟩
  | remove k rest _ reserved left =>
    rw [advance_methods reserved left hw.lenient]
    obtain ⟨hks, hes⟩ := left_remove left
    have hord := hw.ordered
    rw [left, hks, hes] at hord
    refine ⟨(List.cons.inj hord).2, ?_, ?_, hw.lenient, hw.reserved⟩
    · intro k' hk'
      exact hw.removed k' (by rw [hks]; exact .tail _ hk')
    · rw [← hes]
      exact hw.added
  | add x rest _ reserved left removes =>
    rw [advance_methods reserved left hw.lenient]
    obtain ⟨hks, hes⟩ := left_add left
    have hord := hw.ordered
    rw [left, hes, removes] at hord
    rw [removes] at hks
    refine ⟨?_, ?_, ?_, hw.lenient, hw.reserved⟩
    · rw [← hks]
      exact (List.cons.inj hord).2
    · rw [← hks]
      exact fun k hk => absurd hk List.not_mem_nil
    · intro y hy
      exact hw.added y (by rw [hes]; exact .tail _ hy)
  | cas e u moves => rw [moves] at hr; cases hr

theorem Sound.advance_moving (h : Commits t cmd)
    (hr : t.op.rewrites = false) (took : Bool) : Moving (t.advance took) := by
  cases h with
  | reserve a rest alloc left step =>
    rw [advance_reserve left]
    split_ifs
    · exact hs.moving i t ht hr
    · exact hs.moving i t ht hr
  | remove _ _ hw => rw [hr] at hw; cases hw
  | add _ _ hw => rw [hr] at hw; cases hw
  | cas e u moves reserved left tenant route =>
    unfold Thread.advance
    rw [reserved, left]
    simp only
    split_ifs
    · exact Or.inr ⟨e, u, rfl, tenant, route⟩
    · exact Or.inl rfl

theorem Sound.advance_reserving (h : Commits t cmd) : Reserving (t.advance (s.catalog.apply cmd).2)
      ((s.catalog.apply cmd).1.epochCounter.getD 0) := by
  have hres := hs.reserving i t ht
  cases hr : t.reserve with
  | nil =>
    -- only the row commands are left
    rw [apply_row_counter h hr]
    have hkeep : (t.advance (s.catalog.apply cmd).2).reserve = t.reserve := by
      unfold Thread.advance
      rw [hr]
      cases t.methods with
      | nil => exact hr
      | cons =>
        simp only
        split_ifs
        · rfl
        · rfl
    refine ⟨fun ha => ?_, fun a ha => ?_, fun a ha he => ?_⟩
    · rw [hkeep]
      exact hr
    · rw [advance_plan] at ha ⊢
      rw [hkeep]
      exact hres.allocated a ha
    · rw [advance_plan] at ha ⊢
      exact hres.counted a ha hr
  | cons cmd' rest =>
    cases h with
    | remove _ _ _ hnil => rw [hnil] at hr; cases hr
    | add _ _ _ hnil => rw [hnil] at hr; cases hr
    | cas _ _ _ hnil => rw [hnil] at hr; cases hr
    | reserve a rest alloc left step =>
      obtain ⟨hsuffix, hepoch, hfloor, hexp⟩ := hres.allocated a alloc
      cases htook : (s.catalog.apply cmd).2 with
      | false =>
        rw [advance_reserve left, if_neg (by simp)]
        refine ⟨fun ha => ?_, hres.allocated, fun b hb he => ?_⟩
        · rw [show t.plan.epochAllocation = some a from alloc] at ha
          cases ha
        · rw [show t.reserve = [] from he] at left
          cases left
      | true =>
        rw [advance_reserve left, if_pos rfl]
        have htail : rest <:+ reserveSteps a := by
          rw [left] at hsuffix
          exact (List.suffix_cons cmd rest).trans hsuffix
        refine ⟨fun ha => ?_, fun b hb => ?_, fun b hb he => ?_⟩
        · rw [show t.plan.epochAllocation = some a from alloc] at ha
          cases ha
        · rw [show t.plan.epochAllocation = some a from alloc] at hb
          cases hb
          exact ⟨htail, hepoch, hfloor, hexp⟩
        · change rest = [] at he
          rw [left, he] at hsuffix
          rw [(apply_last_reserve hsuffix htook).2]
          exact le_of_eq hepoch.symm

theorem Sound.reserved_above (h : Commits t cmd)
    (hr : t.reserve ≠ []) (he : (t.advance (s.catalog.apply cmd).2).reserve = []) :
    s.catalog.epochCounter.getD 0 < t.plan.epoch := by
  cases h with
  | remove _ _ _ hnil => exact absurd hnil hr
  | add _ _ _ hnil => exact absurd hnil hr
  | cas _ _ _ hnil => exact absurd hnil hr
  | reserve a rest alloc left step =>
    obtain ⟨hsuffix, hepoch, hfloor, -⟩ := (hs.reserving i t ht).allocated a alloc
    cases htook : (s.catalog.apply cmd).2 with
    | false =>
      rw [htook, advance_reserve left] at he
      exact absurd he hr
    | true =>
      rw [htook, advance_reserve left] at he
      change rest = [] at he
      rw [left, he] at hsuffix
      rw [(apply_last_reserve hsuffix htook).1, ← hepoch, ← hfloor]
      exact Nat.lt_succ_self _

theorem Sound.apply_rows (h : Commits t cmd)
    (k : PartitionKey) (o : Owner) (hk : (s.catalog.apply cmd).1.entries.get k = some o) :
    o.epoch ≤ s.catalog.epochCounter.getD 0 ∧ k.rangeStart ≤ k.rangeEnd := by
  cases h with
  | reserve a rest alloc left step =>
    obtain ⟨-, -, hfloor, hexp⟩ := (hs.reserving i t ht).allocated a alloc
    rw [(apply_reserve hfloor hexp step).1] at hk
    exact hs.rows k o hk
  | remove k' =>
    change (s.catalog.entries.remove k').get k = some o at hk
    rw [Table.get_remove] at hk
    split_ifs at hk
    exact hs.rows k o hk
  | add x rest rewrites reserved left =>
    change (s.catalog.entries.insert x.key x.toOwner).get k = some o at hk
    rw [Table.get_insert] at hk
    split_ifs at hk with hkx
    · cases hk
      have hw := hs.rewriting i t ht rewrites
      obtain ⟨-, hepoch, hrange⟩ := hw.added x (by rw [(left_add left).2]; exact .head _)
      rw [hkx, show x.toOwner.epoch = t.plan.epoch from hepoch]
      exact ⟨hs.epoch_counted ht reserved hw.reserved, hrange⟩
    · exact hs.rows k o hk
  | cas e u moves reserved left tenant route =>
    by_cases hc : s.catalog.entries.get e.key = some e.toOwner
    · rw [apply_entryCas hc] at hk
      rw [Table.get_insert] at hk
      split_ifs at hk with hke
      · cases hk
        rw [hke]
        refine ⟨?_, (hs.rows e.key _ hc).2⟩
        rcases route with ⟨-, hsame⟩ | ⟨-, hepoch, halloc⟩
        · rw [hsame]
          exact (hs.rows e.key _ hc).1
        · rw [hepoch]
          exact hs.epoch_counted ht reserved halloc
      · exact hs.rows k o hk
    · rw [apply_entryCas_stale hc] at hk
      exact hs.rows k o hk

end

end

theorem Reserving.mono {m : ℕ} (h : Reserving t m) (hmn : m ≤ n) : Reserving t n :=
  ⟨h.unallocated, h.allocated, fun a ha he => le_trans (h.counted a ha he) hmn⟩

theorem Sound.commit (hs : Sound s) {i : ℕ} (ht : s.threads[i]? = some t) (hn : t.next = some cmd) :
    Sound (s.commitCommand i t cmd) := by
  have hc := hs.commits ht hn
  have hmono := hs.counter_mono ht hc
  -- a plan that reserves its epoch in this step is above every epoch reserved before
  have habove : ∀ j u, s.threads[j]? = some u → j ≠ i → t.plan.epochAllocation.isSome →
      u.plan.epochAllocation.isSome → (t.advance (s.catalog.apply cmd).2).reserve = [] →
      u.reserve = [] → t.plan.epoch ≠ u.plan.epoch := by
    intro j u hu hji hta hua htr hur
    by_cases hr : t.reserve = []
    · exact hs.distinct i j t u ht hu (Ne.symm hji) hta hua hr hur
    · have h1 := hs.reserved_above ht hc hr htr
      have h2 := hs.epoch_counted hu hur hua
      omega
  refine ⟨?_, ?_, ?_, ?_, ?_, ?_⟩
  · intro j u hu hr
    rcases commitCommand_threads hu with ⟨-, rfl⟩ | ⟨-, hu⟩
    · rw [advance_op] at hr
      exact hs.advance_rewriting ht hc hr _
    · exact hs.rewriting j u hu hr
  · intro j u hu hr
    rcases commitCommand_threads hu with ⟨-, rfl⟩ | ⟨-, hu⟩
    · rw [advance_op] at hr
      exact hs.advance_moving ht hc hr _
    · exact hs.moving j u hu hr
  · intro j u hu
    rcases commitCommand_threads hu with ⟨-, rfl⟩ | ⟨-, hu⟩
    · exact hs.advance_reserving ht hc
    · exact (hs.reserving j u hu).mono hmono
  · intro k o hk
    obtain ⟨hle, hrange⟩ := hs.apply_rows ht hc k o hk
    exact ⟨le_trans hle hmono, hrange⟩
  · intro j k u v hu hv hjk hua hva hur hvr
    rcases commitCommand_threads hu with ⟨hji, rfl⟩ | ⟨hji, hu'⟩
    · rcases commitCommand_threads hv with ⟨hki, -⟩ | ⟨hki, hv'⟩
      · exact absurd (hji.trans hki.symm) hjk
      · rw [advance_plan] at hua ⊢
        exact habove k v hv' hki hua hva hur hvr
    · rcases commitCommand_threads hv with ⟨hki, rfl⟩ | ⟨hki, hv'⟩
      · rw [advance_plan] at hva ⊢
        exact (habove j u hu' hji hva hua hvr hur).symm
      · exact hs.distinct j k u v hu' hv' hjk hua hva hur hvr
  · intro j u hu
    have hlen : s.log.length ≤ (s.commitCommand i t cmd).log.length := by
      unfold System.commitCommand
      rw [List.length_append]
      exact Nat.le_add_right _ _
    rcases commitCommand_threads hu with ⟨-, rfl⟩ | ⟨-, hu⟩
    · rw [advance_madeAt]
      exact le_trans (hs.made i t ht) hlen
    · exact le_trans (hs.made j u hu) hlen

/-- **Soundness of every run.** -/
theorem sound_run (events : List Event) : Sound (run System.step System.fresh events) := by
  refine run_invariant (I := Sound) ?_ events _ sound_fresh
  intro s ev hs
  rcases s.step_cases ev with h | ⟨op, p, -, hp, h⟩ | ⟨i, t, cmd, -, ht, hn, h⟩
  · rw [h]
    exact hs
  · rw [h]
    exact hs.propose hp
  · rw [h]
    exact hs.commit ht hn

theorem Sound.counter_step (hs : Sound s) (ev : Event) :
    s.catalog.epochCounter.getD 0 ≤ (s.step ev).catalog.epochCounter.getD 0 := by
  rcases s.step_cases ev with h | ⟨op, p, -, -, h⟩ | ⟨i, t, cmd, -, ht, hn, h⟩
  · rw [h]
  · rw [h]
  · rw [h]
    exact hs.counter_mono ht (hs.commits ht hn)

theorem counter_run : ∀ after before : List Event,
    (run System.step System.fresh before).catalog.epochCounter.getD 0 ≤
      (run System.step System.fresh (before ++ after)).catalog.epochCounter.getD 0
  | [], before => by rw [List.append_nil]
  | ev :: after, before => by
    have hrest := counter_run after (before ++ [ev])
    rw [List.append_assoc, run_append] at hrest
    exact ((sound_run before).counter_step ev).trans hrest

/-- **Epochs are allocated once.** However the commands of all plans interleave, the durable counter never
falls, no row carries an epoch beyond it, and two plans that have reserved an epoch have different ones. -/
theorem epochs_allocated_once (before after : List Event) :
    let s := run System.step System.fresh (before ++ after)
    (run System.step System.fresh before).catalog.epochCounter.getD 0 ≤ s.catalog.epochCounter.getD 0 ∧
      (∀ k o, s.catalog.entries.get k = some o → o.epoch ≤ s.catalog.epochCounter.getD 0) ∧
      ∀ (i j : ℕ) (t u : Thread), s.threads[i]? = some t → s.threads[j]? = some u → i ≠ j →
        t.plan.epochAllocation.isSome → u.plan.epochAllocation.isSome → t.reserve = [] →
          u.reserve = [] → t.plan.epoch ≠ u.plan.epoch := by
  have hsound := sound_run (before ++ after)
  exact ⟨counter_run after before, fun k o ho => (hsound.rows k o ho).1, hsound.distinct⟩

end Medulla.Placement.Soundness
