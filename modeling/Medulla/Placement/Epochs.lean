import Medulla.Placement.Coverage

/-! # Routing epochs fence stale clients

The epoch that a hash is answered with never falls, and another group is never answered with an old
epoch, as long as the plans that add and remove rows were left alone between their making and their
commands.

* every run: `routing_epochs_fence`. -/

namespace Medulla.Placement.Epochs

open Library.OrderedTable Library.Transaction Placement.Partition Catalog Plans
open Shapes Soundness Coverage

variable {s : System} {tenant : String} {r : PlacementEntry} {op : Operation} {p : PendingWrite}

theorem isolated_rekeys {ev : Event} (h : s.Isolated Command.reroutes ev) :
    s.Isolated Command.rekeys ev := by
  intro i t cmd hev ht hn hk p hp hpk
  exact h i t cmd hev ht hn hk p hp (reroutes_of_rekeys hpk)

theorem undisturbed_rekeys {i : ℕ} {t : Thread} (h : s.Undisturbed (Command.reroutes tenant) i t) :
    s.Undisturbed (Command.rekeys tenant) i t :=
  fun p hp hpk => h p hp (reroutes_of_rekeys hpk)

/-! ### Rows that a command leaves alone -/

section
variable {i : ℕ} {t : Thread} {cmd : Command}

theorem mem_entryCas {c : PlacementCatalog} {e u : PlacementEntry}
    (hc : c.entries.get e.key = some e.toOwner)
    (hr : r ∈ (c.apply (.entryCasMethod e u)).1.tenantEntries tenant) :
    (r.key = e.key ∧ r.toOwner = u.toOwner ∧ e ∈ c.tenantEntries tenant) ∨
      r ∈ c.tenantEntries tenant := by
  rw [apply_entryCas hc] at hr
  obtain ⟨hget, hscan, htenant⟩ := mem_tenantEntries.mp hr
  rw [Table.get_insert] at hget
  split_ifs at hget with hkey
  · left
    refine ⟨hkey, (Option.some.inj hget).symm, mem_tenantEntries.mpr ⟨hc, ?_, hkey ▸ htenant⟩⟩
    unfold scannedEntry at hscan ⊢
    rw [← hkey]
    exact hscan
  · exact Or.inr (mem_tenantEntries.mpr ⟨hget, hscan, htenant⟩)

theorem entries_other (hs : Sound s) (ht : s.threads[i]? = some t) (hc : Commits t cmd)
    (hno : ¬ (Command.reroutes tenant cmd ∧ (s.catalog.apply cmd).2))
    (hr : r ∈ (s.catalog.apply cmd).1.tenantEntries tenant) :
    ∃ f ∈ s.catalog.tenantEntries tenant, f.key = r.key ∧ f.group = r.group ∧ f.epoch = r.epoch := by
  obtain ⟨hget, hscan, htenant⟩ := mem_tenantEntries.mp hr
  have hsame : s.catalog.entries.get r.key = some r.toOwner → ∃ f ∈ s.catalog.tenantEntries tenant,
      f.key = r.key ∧ f.group = r.group ∧ f.epoch = r.epoch := fun h =>
    ⟨r, mem_tenantEntries.mpr ⟨h, hscan, htenant⟩, rfl, rfl, rfl⟩
  cases hc with
  | reserve a rest alloc left step =>
    obtain ⟨-, -, hfloor, hexp⟩ := (hs.reserving i t ht).allocated a alloc
    rw [(apply_reserve hfloor hexp step).1] at hget
    exact hsame hget
  | remove k =>
    change (s.catalog.entries.remove k).get r.key = _ at hget
    rw [Table.get_remove] at hget
    split_ifs at hget
    exact hsame hget
  | add x =>
    change (s.catalog.entries.insert x.key x.toOwner).get r.key = _ at hget
    rw [Table.get_insert] at hget
    split_ifs at hget with hkey
    · exact absurd ⟨decide_eq_true (hkey ▸ htenant), rfl⟩ hno
    · exact hsame hget
  | cas e u =>
    by_cases hcur : s.catalog.entries.get e.key = some e.toOwner
    · rcases mem_entryCas hcur hr with ⟨hkey, howner, hmem⟩ | hmem
      · refine ⟨e, hmem, hkey.symm, ?_⟩
        -- the compare-and-set keeps the route, or it would have rerouted
        have hkeep : ¬ (e.group ≠ u.group ∨ e.epoch ≠ u.epoch) := by
          intro hne
          refine hno ⟨?_, by rw [apply_entryCas hcur]⟩
          unfold Command.reroutes
          rw [Bool.and_eq_true, Bool.or_eq_true, decide_eq_true_iff, decide_eq_true_iff,
            decide_eq_true_iff]
          exact ⟨(mem_tenantEntries.mp hmem).2.2, hne⟩
        rw [not_or, not_not, not_not] at hkeep
        rw [show r.group = u.group from congrArg Owner.group howner,
          show r.epoch = u.epoch from congrArg Owner.epoch howner]
        exact hkeep
      · exact ⟨r, hmem, rfl, rfl, rfl⟩
    · rw [apply_entryCas_stale hcur] at hget
      exact hsame hget

end

/-! ### A plan is ahead of the rows it replaces -/

/-- A plan that was left alone adds rows above the epochs of the rows they share a hash with. -/
def Ahead (s : System) : Prop :=
  ∀ (i : ℕ) (t : Thread), s.threads[i]? = some t → t.op.rewrites →
    s.Undisturbed (Command.reroutes t.op.tenant) i t →
      ∀ x ∈ addsLeft t, ∀ e ∈ s.catalog.tenantEntries t.op.tenant, Meets e.key x.key →
        e.epoch < t.plan.epoch

theorem start_epoch {c : PlacementCatalog} (hr : op.rewrites) (h : op.plan c = .ok p) :
    p.epoch = c.epochFloor + 1 := by
  obtain ⟨a, ks, es, hw⟩ := plan_rewrite hr h
  have hp := hw.eq
  subst hp
  exact (nextEpoch_eq_ok hw.allocated).2.1

theorem Ahead.propose (hs : Ahead s) (h : op.plan s.catalog = .ok p) :
    Ahead { s with threads := s.threads ++ [Thread.start op p s.log.length] } := by
  intro i t ht hr hu x hx e he hmeets
  rcases propose_threads ht with ht | ⟨-, rfl⟩
  · exact hs i t ht hr hu x hx e he hmeets
  · have hle : e.epoch ≤ s.catalog.epochFloor := epoch_le_floor (List.mem_of_mem_filter he)
    change e.epoch < p.epoch
    rw [start_epoch hr h]
    omega

theorem Ahead.commit (hs : Ahead s) (hex : Exact s) {i : ℕ} {t : Thread} {cmd : Command}
    (ht : s.threads[i]? = some t) (hn : t.next = some cmd) : Ahead (s.commitCommand i t cmd) := by
  have hc := hex.sound.commits ht hn
  intro j u hu hr hun x hx e he hmeets
  rcases commitCommand_threads hu with ⟨rfl, rfl⟩ | ⟨hji, hu'⟩
  · rw [advance_op] at hr hun he
    rw [advance_plan]
    have hold := ((undisturbed_commit (hex.sound.made j t ht) (advance_madeAt t _)).mp hun).1
    have hl := (hex.sound.rewriting j t ht hr).lenient
    cases hc with
    | reserve a rest alloc left step =>
      obtain ⟨-, -, hfloor, hexp⟩ := (hex.sound.reserving j t ht).allocated a alloc
      have hx' : x ∈ addsLeft t := by
        rw [advance_reserve left] at hx
        split_ifs at hx
        · exact hx
        · exact hx
      obtain ⟨hget, hrest⟩ := mem_tenantEntries.mp he
      change (s.catalog.apply cmd).1.entries.get e.key = _ at hget
      rw [(apply_reserve hfloor hexp step).1] at hget
      exact hs j t ht hr hold x hx' e (mem_tenantEntries.mpr ⟨hget, hrest⟩) hmeets
    | remove k rest _ reserved left =>
      rw [advance_methods reserved left hl, ← (left_remove left).2] at hx
      obtain ⟨hget, hrest⟩ := mem_tenantEntries.mp he
      change (s.catalog.entries.remove k).get e.key = _ at hget
      rw [Table.get_remove] at hget
      split_ifs at hget
      exact hs j t ht hr hold x hx e (mem_tenantEntries.mpr ⟨hget, hrest⟩) hmeets
    | add y rest _ reserved left =>
      have hes := (left_add left).2
      rw [advance_methods reserved left hl] at hx
      -- the row just added shares no hash with those still to be added
      have hapart := (hex.kept.fits j t ht hr (undisturbed_rekeys hold)).apart
      rw [hes, List.pairwise_cons] at hapart
      obtain ⟨hget, hrest⟩ := mem_tenantEntries.mp he
      change (s.catalog.entries.insert y.key y.toOwner).get e.key = _ at hget
      rw [Table.get_insert] at hget
      split_ifs at hget with hkey
      · exact absurd (hkey ▸ hmeets) (hapart.1 x hx)
      · exact hs j t ht hr hold x (by rw [hes]; exact .tail _ hx) e
          (mem_tenantEntries.mpr ⟨hget, hrest⟩) hmeets
    | cas _ _ moves => rw [moves] at hr; cases hr
  · obtain ⟨hold, hnew⟩ := (undisturbed_commit (hex.sound.made j u hu') rfl).mp hun
    have hno : ¬ (Command.reroutes u.op.tenant cmd ∧ (s.catalog.apply cmd).2) := fun hk =>
      hji (hnew hk.1 hk.2).symm
    obtain ⟨f, hf, hkey, -, hepoch⟩ := entries_other hex.sound ht hc hno he
    rw [← hepoch]
    exact hs j u hu' hr hold x hx f hf (hkey ▸ hmeets)

/-! ### An answer of the past -/

/-- **An answer of the past still stands or was overtaken.** -/
structure Past (s : System) (tenant : String) (h g e : ℕ) : Prop where
  rows : ∀ r ∈ s.catalog.tenantEntries tenant, r.key.contains h →
    e < r.epoch ∨ (r.epoch = e ∧ r.group = g)
  adds : ∀ (i : ℕ) (t : Thread), s.threads[i]? = some t → t.op.rewrites → t.op.tenant = tenant →
    s.Undisturbed (Command.reroutes tenant) i t → ∀ x ∈ addsLeft t, x.key.contains h →
      e < t.plan.epoch
  counted : e ≤ s.catalog.epochCounter.getD 0

theorem past_of_row (hex : Exact s) (hahead : Ahead s) {h : ℕ}
    (hr : r ∈ s.catalog.tenantEntries tenant) (hc : r.key.contains h) :
    Past s tenant h r.group r.epoch where
  rows f hf hfc := by
    have hkey := hex.kept.apart tenant f hf r hr ⟨h, hfc, hc⟩
    have hget := (mem_tenantEntries.mp hf).1
    rw [hkey, (mem_tenantEntries.mp hr).1] at hget
    have howner := Option.some.inj hget
    exact Or.inr ⟨congrArg Owner.epoch howner.symm, congrArg Owner.group howner.symm⟩
  adds i t ht hw htenant hun x hx hxc := by
    subst htenant
    exact hahead i t ht hw hun x hx r hr ⟨h, hc, hxc⟩
  counted := (hex.sound.rows r.key _ (mem_tenantEntries.mp hr).1).1

theorem Past.propose {h g e : ℕ} (hs : Past s tenant h g e) (hp : op.plan s.catalog = .ok p) :
    Past { s with threads := s.threads ++ [Thread.start op p s.log.length] } tenant h g e where
  rows := hs.rows
  adds i t ht hr htenant hu x hx hxc := by
    rcases propose_threads ht with ht | ⟨-, rfl⟩
    · exact hs.adds i t ht hr htenant hu x hx hxc
    · change e < p.epoch
      have h1 := start_epoch hr hp
      have h2 := epochCounter_le_floor s.catalog
      have h3 := hs.counted
      omega
  counted := hs.counted

section
variable {i : ℕ} {t : Thread} {cmd : Command} {h g e : ℕ}

section
variable (hs : Past s tenant h g e) (hsound : Sound s) (ht : s.threads[i]? = some t)
  (hn : t.next = some cmd) (hiso : s.Isolated Command.reroutes (.commit i))
include hs hsound ht hn hiso

theorem Past.rows_commit (r : PlacementEntry)
    (hr : r ∈ (s.catalog.apply cmd).1.tenantEntries tenant) (hrc : r.key.contains h) :
    e < r.epoch ∨ (r.epoch = e ∧ r.group = g) := by
  have hc := hsound.commits ht hn
  have hundist := hiso i t cmd rfl ht hn
  obtain ⟨hget, hscan, htenant⟩ := mem_tenantEntries.mp hr
  cases hc with
  | reserve a rest alloc left step =>
    obtain ⟨-, -, hfloor, hexp⟩ := (hsound.reserving i t ht).allocated a alloc
    rw [(apply_reserve hfloor hexp step).1] at hget
    exact hs.rows r (mem_tenantEntries.mpr ⟨hget, hscan, htenant⟩) hrc
  | remove k =>
    change (s.catalog.entries.remove k).get r.key = _ at hget
    rw [Table.get_remove] at hget
    split_ifs at hget
    exact hs.rows r (mem_tenantEntries.mpr ⟨hget, hscan, htenant⟩) hrc
  | add x rest rewrites reserved left _ hxt =>
    change (s.catalog.entries.insert x.key x.toOwner).get r.key = _ at hget
    rw [Table.get_insert] at hget
    split_ifs at hget with hkey
    · -- the new row carries the epoch of a plan that was left alone
      left
      have hxmem : x ∈ addsLeft t := by rw [(left_add left).2]; exact .head _
      have hop : t.op.tenant = tenant := by rw [← hxt, ← hkey, htenant]
      have hun := hundist (decide_eq_true hxt)
      rw [hop] at hun
      have hlt := hs.adds i t ht rewrites hop hun x hxmem (hkey ▸ hrc)
      have howner : r.epoch = x.epoch := congrArg Owner.epoch (Option.some.inj hget).symm
      rw [howner, ((hsound.rewriting i t ht rewrites).added x hxmem).2.1]
      exact hlt
    · exact hs.rows r (mem_tenantEntries.mpr ⟨hget, hscan, htenant⟩) hrc
  | cas f u moves reserved left _ route =>
    by_cases hcur : s.catalog.entries.get f.key = some f.toOwner
    · rcases mem_entryCas hcur hr with ⟨hkey, howner, hmem⟩ | hmem
      · have hf := hs.rows f hmem (hkey ▸ hrc)
        have hge : r.group = u.group ∧ r.epoch = u.epoch :=
          ⟨congrArg Owner.group howner, congrArg Owner.epoch howner⟩
        rw [hge.1, hge.2]
        rcases route with ⟨hgroup, hepoch⟩ | ⟨hlt, -⟩
        · rw [hgroup, hepoch]
          exact hf
        · omega
      · exact hs.rows r hmem hrc
    · rw [apply_entryCas_stale hcur] at hget
      exact hs.rows r (mem_tenantEntries.mpr ⟨hget, hscan, htenant⟩) hrc

theorem Past.commit : Past (s.commitCommand i t cmd) tenant h g e where
  rows := hs.rows_commit hsound ht hn hiso
  adds j u hu hr htenant hun x hx hxc := by
    have hc := hsound.commits ht hn
    rcases commitCommand_threads hu with ⟨rfl, rfl⟩ | ⟨-, hu'⟩
    · rw [advance_op] at hr htenant
      rw [advance_plan]
      have hold := ((undisturbed_commit (hsound.made j t ht) (advance_madeAt t _)).mp hun).1
      refine hs.adds j t ht hr htenant hold x ?_ hxc
      -- what is left to add after a command was left before it
      rcases advance_rewrite hsound ht hc hr (s.catalog.apply cmd).2 with ⟨-, -, hm⟩ | ⟨-, -, -, hm⟩
      · unfold addsLeft at hx ⊢
        rw [hm] at hx
        exact hx
      · unfold addsLeft at hx ⊢
        rw [hm]
        exact (List.Sublist.filterMap addedEntry (List.sublist_cons_self _ _)).subset hx
    · have hold := ((undisturbed_commit (hsound.made j u hu') rfl).mp hun).1
      exact hs.adds j u hu' hr htenant hold x hx hxc
  counted := le_trans hs.counted (hsound.counter_mono ht (hsound.commits ht hn))

end

end

/-! ### Runs -/

theorem ahead_run {events : List Event}
    (h : Along System.step (System.Isolated Command.reroutes) System.fresh events) :
    Exact (run System.step System.fresh events) ∧ Ahead (run System.step System.fresh events) := by
  refine run_invariant_along (I := fun s => Exact s ∧ Ahead s) ?_ events _ h
    ⟨exact_fresh, fun i t ht => by cases ht⟩
  rintro s ev hiso ⟨hex, hs⟩
  refine ⟨hex.step (isolated_rekeys hiso), ?_⟩
  rcases s.step_cases ev with h | ⟨op, p, -, hp, h⟩ | ⟨i, t, cmd, rfl, ht, hn, h⟩
  · rw [h]
    exact hs
  · rw [h]
    exact hs.propose hp
  · rw [h]
    exact hs.commit hex ht hn

theorem past_run {h g e : ℕ} (hsound : Sound s) (hs : Past s tenant h g e) {events : List Event}
    (hrun : Along System.step (System.Isolated Command.reroutes) s events) :
    Past (run System.step s events) tenant h g e := by
  have hboth : Sound (run System.step s events) ∧ Past (run System.step s events) tenant h g e := by
    refine run_invariant_along (I := fun s => Sound s ∧ Past s tenant h g e) ?_ events _ hrun
      ⟨hsound, hs⟩
    rintro s ev hiso ⟨hsound, hs⟩
    rcases s.step_cases ev with h | ⟨op, p, -, hp, h⟩ | ⟨i, t, cmd, rfl, ht, hn, h⟩
    · rw [h]
      exact ⟨hsound, hs⟩
    · rw [h]
      exact ⟨hsound.propose hp, hs.propose hp⟩
    · rw [h]
      exact ⟨hsound.commit ht hn, hs.commit hsound ht hn hiso⟩
  exact hboth.2

/-- **Routing epochs fence stale clients**, in every run in which plans that add and remove rows are
left alone: the epoch of a key never falls, a client of an earlier answer is redirected once another
group is answered, and no two completed plans published one epoch. -/
theorem routing_epochs_fence (before after : List Event)
    (h : Along System.step (System.Isolated Command.reroutes) System.fresh (before ++ after)) :
    (∀ tenant subKey g,
      ((run System.step System.fresh before).catalog.route tenant subKey g).placed = true →
      ((run System.step System.fresh (before ++ after)).catalog.route tenant subKey g).placed = true →
        ((run System.step System.fresh before).catalog.route tenant subKey g).epoch ≤
            ((run System.step System.fresh (before ++ after)).catalog.route tenant subKey g).epoch ∧
          (((run System.step System.fresh before).catalog.route tenant subKey g).group ≠
              ((run System.step System.fresh (before ++ after)).catalog.route tenant subKey g).group →
            (run System.step System.fresh (before ++ after)).catalog.redirectIfStale tenant subKey
                ((run System.step System.fresh before).catalog.route tenant subKey g).epoch =
              some ((run System.step System.fresh (before ++ after)).catalog.route tenant subKey g))) ∧
      ∀ (i j : ℕ) (t u : Thread),
        (run System.step System.fresh (before ++ after)).threads[i]? = some t →
        (run System.step System.fresh (before ++ after)).threads[j]? = some u → i ≠ j →
          t.completed → u.completed → t.plan.epochAllocation.isSome → u.plan.epochAllocation.isSome →
            t.plan.epoch ≠ u.plan.epoch := by
  obtain ⟨hbefore, hafter⟩ := (along_append before after System.fresh).mp h
  obtain ⟨hex, hahead⟩ := ahead_run hbefore
  constructor
  · intro tenant subKey g hp hp'
    obtain ⟨r, hr, hrc, hroute⟩ := routeEntries_placed hp
    obtain ⟨f, hf, hfc, hroute'⟩ := routeEntries_placed hp'
    have hpast := past_run hex.sound (past_of_row hex hahead hr hrc) hafter
    rw [← run_append] at hpast
    have hrow := hpast.rows f hf hfc
    have hold : (run System.step System.fresh before).catalog.route tenant subKey g =
      .catalog r.group r.epoch := hroute
    have hnew : (run System.step System.fresh (before ++ after)).catalog.route tenant subKey g =
      .catalog f.group f.epoch := hroute'
    have hdefault : (run System.step System.fresh (before ++ after)).catalog.route tenant subKey
        defaultGroup = .catalog f.group f.epoch :=
      (routeEntries_placed_eq hp' defaultGroup).trans hroute'
    rw [hold, hnew]
    unfold PlacementCatalog.redirectIfStale
    rw [hdefault]
    simp only [PlacementRoute.catalog]
    constructor
    · omega
    · intro hgroup
      have hlt : r.epoch < f.epoch := by
        rcases hrow with hlt | ⟨-, hg⟩
        · exact hlt
        · exact absurd hg.symm hgroup
      rw [if_pos ⟨trivial, hlt⟩]
  · intro i j t u ht hu hij htc huc hta hua
    exact (sound_run (before ++ after)).distinct i j t u ht hu hij hta hua
      (completed_iff.mp htc).2.1 (completed_iff.mp huc).2.1

/-- Reserve the epoch of one assign, carry another one through, and go on with the first. -/
def assignedByTwo : List Event :=
  [.propose (.assign "a" 1), .commit 0, .commit 0, .propose (.assign "a" 2), .commit 1, .commit 1]

/-- The row of the plan that was made first replaces a newer one: the epoch falls and a client of the
newer answer is not redirected. -/
theorem late_row_lowers_epoch :
    (run System.step System.fresh assignedByTwo).catalog.route "a" "x" 9 = ⟨2, 2, true⟩ ∧
      (run System.step System.fresh (assignedByTwo ++ [.commit 0])).catalog.route "a" "x" 9 =
        ⟨1, 1, true⟩ ∧
      (run System.step System.fresh (assignedByTwo ++ [.commit 0])).catalog.redirectIfStale
        "a" "x" 2 = none := by
  exact ⟨by decide +kernel, by decide +kernel, by decide +kernel⟩

def assignedInTurn : List Event := [.propose (.assign "a" 1), .commit 0, .commit 0, .commit 0]

def assignedOnward : List Event := [.propose (.assign "a" 2), .commit 1, .commit 1, .commit 1]

/-- One after the other, the client of the first answer is redirected. -/
theorem routing_epochs_fence_in_turn :
    (run System.step System.fresh (assignedInTurn ++ assignedOnward)).catalog.redirectIfStale
        "a" "x" 1 = some ⟨2, 2, true⟩ := by
  have hold : (run System.step System.fresh assignedInTurn).catalog.route "a" "x" 9 =
    ⟨1, 1, true⟩ := by decide +kernel
  have hnew : (run System.step System.fresh (assignedInTurn ++ assignedOnward)).catalog.route
    "a" "x" 9 = ⟨2, 2, true⟩ := by decide +kernel
  have hfence := (routing_epochs_fence assignedInTurn assignedOnward (by decide +kernel)).1 "a" "x" 9
    (by rw [hold]) (by rw [hnew])
  rw [hold, hnew] at hfence
  exact hfence.2 (by decide)

end Medulla.Placement.Epochs
