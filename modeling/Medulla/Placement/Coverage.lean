import Medulla.Placement.Soundness

/-! # The ranges of a tenant

An assign, a merge or a split removes rows and adds rows in separate commits. As long as no other plan
adds or removes rows of the tenant between the making of a plan and its commands, the rows of a tenant
never share a hash.

* the invariants: `Kept`, `Filled`;
* every run: `tenant_ranges_exact`. -/

namespace Medulla.Placement.Coverage

open Library.Checked Library.OrderedTable Library.Transaction Placement.Partition Catalog
open Plans Shapes Soundness

variable {c : PlacementCatalog} {tenant : String} {k l : PartitionKey} {x : PlacementEntry}
  {s : System} {t : Thread} {cmd : Command} {op : Operation} {p : PendingWrite} {n : ℕ}

/-! ### The keys of a tenant -/

def Places (c : PlacementCatalog) (tenant : String) (k : PartitionKey) : Prop :=
  ∃ e ∈ c.tenantEntries tenant, e.key = k

theorem places_iff : Places c tenant k ↔ (c.entries.get k).isSome ∧
      validTenant tenant ∧ k.rangeStart ≤ k.rangeEnd ∧ k.tenant = tenant := by
  constructor
  · rintro ⟨e, he, rfl⟩
    obtain ⟨hget, hscan, rfl⟩ := mem_tenantEntries.mp he
    unfold scannedEntry at hscan
    rw [Bool.and_eq_true, decide_eq_true_iff] at hscan
    rw [hget]
    exact ⟨rfl, hscan.1, hscan.2, rfl⟩
  · rintro ⟨hsome, hvalid, hrange, rfl⟩
    obtain ⟨o, ho⟩ := Option.isSome_iff_exists.mp hsome
    refine ⟨⟨o, k⟩, mem_tenantEntries.mpr ⟨ho, ?_, rfl⟩, rfl⟩
    unfold scannedEntry
    rw [Bool.and_eq_true, decide_eq_true_iff]
    exact ⟨hvalid, hrange⟩

theorem apart_iff :
    Apart c tenant ↔ ∀ k l, Places c tenant k → Places c tenant l → Meets k l → k = l := by
  constructor
  · rintro h k l ⟨e, he, rfl⟩ ⟨f, hf, rfl⟩
    exact h e he f hf
  · exact fun h e he f hf => h e.key f.key ⟨e, he, rfl⟩ ⟨f, hf, rfl⟩

theorem covers_iff : Covers c tenant ↔ ∀ h ≤ u64Max, ∃ k, Places c tenant k ∧ k.contains h := by
  constructor
  · intro hc h hh
    obtain ⟨e, he, hcont⟩ := hc h hh
    exact ⟨e.key, ⟨e, he, rfl⟩, hcont⟩
  · intro hc h hh
    obtain ⟨k, ⟨e, he, rfl⟩, hcont⟩ := hc h hh
    exact ⟨e, he, hcont⟩

theorem places_congr {c' : PlacementCatalog}
    (h : ∀ k, k.tenant = tenant → (c'.entries.get k).isSome = (c.entries.get k).isSome)
    (k : PartitionKey) : Places c' tenant k ↔ Places c tenant k := by
  rw [places_iff, places_iff]
  constructor
  · rintro ⟨hs, hv, hr, hk⟩
    exact ⟨by rw [← h k hk]; exact hs, hv, hr, hk⟩
  · rintro ⟨hs, hv, hr, hk⟩
    exact ⟨by rw [h k hk]; exact hs, hv, hr, hk⟩

theorem places_remove :
    Places (c.apply (.removeMethod k)).1 tenant l ↔ Places c tenant l ∧ l ≠ k := by
  rw [places_iff, places_iff]
  change ((c.entries.remove k).get l).isSome ∧ _ ↔ _
  rw [Table.get_remove]
  split_ifs with h
  · constructor
    · rintro ⟨hs, -⟩
      cases hs
    · rintro ⟨-, hne⟩
      exact absurd h hne
  · exact ⟨fun hp => ⟨hp, h⟩, fun hp => hp.1⟩

theorem places_add (hp : Places (c.apply (.entryMethod x)).1 tenant l) :
    l = x.key ∨ Places c tenant l := by
  rw [places_iff] at hp
  obtain ⟨hs, hrest⟩ := hp
  change ((c.entries.insert x.key x.toOwner).get l).isSome at hs
  rw [Table.get_insert] at hs
  split_ifs at hs with h
  · exact Or.inl h
  · exact Or.inr (places_iff.mpr ⟨hs, hrest⟩)

theorem places_of_add (hp : Places c tenant l) : Places (c.apply (.entryMethod x)).1 tenant l := by
  rw [places_iff] at hp ⊢
  refine ⟨?_, hp.2⟩
  change ((c.entries.insert x.key x.toOwner).get l).isSome
  rw [Table.get_insert]
  split_ifs
  · rfl
  · exact hp.1

theorem places_added (hv : validTenant x.key.tenant) (hr : x.key.rangeStart ≤ x.key.rangeEnd) :
    Places (c.apply (.entryMethod x)).1 x.key.tenant x.key := by
  rw [places_iff]
  refine ⟨?_, hv, hr, rfl⟩
  change ((c.entries.insert x.key x.toOwner).get x.key).isSome
  rw [Table.get_insert_self]
  rfl

theorem places_other (hs : Sound s) {i : ℕ} (ht : s.threads[i]? = some t) (h : Commits t cmd)
    (hno : ¬ Command.rekeys tenant cmd) (k : PartitionKey) :
    Places (s.catalog.apply cmd).1 tenant k ↔ Places s.catalog tenant k := by
  refine places_congr (fun k hk => ?_) k
  cases h with
  | reserve a rest alloc left step =>
    obtain ⟨-, -, hfloor, hexp⟩ := (hs.reserving i t ht).allocated a alloc
    rw [(apply_reserve hfloor hexp step).1]
  | remove l =>
    change ((s.catalog.entries.remove l).get k).isSome = _
    rw [Table.get_remove_of_ne]
    rintro rfl
    exact hno (decide_eq_true hk)
  | add x =>
    change ((s.catalog.entries.insert x.key x.toOwner).get k).isSome = _
    rw [Table.get_insert_of_ne]
    rintro rfl
    exact hno (decide_eq_true hk)
  | cas e u =>
    by_cases hc : s.catalog.entries.get e.key = some e.toOwner
    · rw [apply_entryCas hc]
      rw [Table.get_insert]
      split_ifs with hke
      · rw [hke, hc]
        rfl
      · rfl
    · rw [apply_entryCas_stale hc]

/-! ### Plans that are left alone -/

theorem undisturbed_commit {w : Command → Bool} {i j : ℕ} {u v : Thread}
    (hmade : u.madeAt ≤ s.log.length) (hv : v.madeAt = u.madeAt) :
    (s.commitCommand i t cmd).Undisturbed w j v ↔
      s.Undisturbed w j u ∧ (w cmd → (s.catalog.apply cmd).2 → i = j) := by
  unfold System.Undisturbed System.commitCommand
  rw [hv, List.drop_append_of_le_length hmade]
  constructor
  · intro h
    exact ⟨fun p hp => h p (List.mem_append_left _ hp),
      fun hw htook => h _ (List.mem_append_right _ (List.mem_singleton_self _)) hw htook⟩
  · rintro ⟨h, hnew⟩ p hp hw htook
    rcases List.mem_append.mp hp with hp | hp
    · exact h p hp hw htook
    · rw [List.mem_singleton] at hp
      subst hp
      exact hnew hw htook

theorem took_of_rekeys (h : Command.rekeys tenant cmd) : (c.apply cmd).2 = true := by
  cases cmd <;> first | rfl | cases h

theorem rekeys_commits (h : Commits t cmd) (hk : Command.rekeys tenant cmd) :
    t.op.rewrites ∧ t.op.tenant = tenant := by
  cases h with
  | reserve a rest alloc left step => rcases mem_reserveSteps step with rfl | rfl | rfl <;> cases hk
  | remove k rest rewrites _ _ htenant => exact ⟨rewrites, htenant ▸ of_decide_eq_true hk⟩
  | add x rest rewrites _ _ _ htenant => exact ⟨rewrites, htenant ▸ of_decide_eq_true hk⟩
  | cas => cases hk

/-! ### What is left of a plan fits the rows -/

/-- **The rows that a plan still adds fit**: they share no hash with each other, and with no row but
those that the plan still removes. -/
structure Fits (c : PlacementCatalog) (t : Thread) : Prop where
  apart : (addsLeft t).Pairwise fun x y => ¬ Meets x.key y.key
  inside : ∀ x ∈ addsLeft t, ∀ k, Places c t.op.tenant k → Meets k x.key → k ∈ removesLeft t

def Fills (c : PlacementCatalog) (t : Thread) : Prop :=
  ∀ h ≤ u64Max, (∃ k, Places c t.op.tenant k ∧ k.contains h ∧ k ∉ removesLeft t) ∨
    ∃ x ∈ addsLeft t, x.key.contains h

section
variable {c' : PlacementCatalog} {t' : Thread} (hop : t'.op = t.op) (hm : t'.methods = t.methods)
  (h : ∀ k, Places c' t.op.tenant k ↔ Places c t.op.tenant k)
include hop hm h

theorem fits_congr (hf : Fits c t) : Fits c' t' := by
  have hk : removesLeft t' = removesLeft t := by unfold removesLeft; rw [hm]
  have he : addsLeft t' = addsLeft t := by unfold addsLeft; rw [hm]
  refine ⟨by rw [he]; exact hf.apart, ?_⟩
  rw [he, hk, hop]
  exact fun x hx k hp => hf.inside x hx k ((h k).mp hp)

theorem fills_congr (hf : Fills c t) : Fills c' t' := by
  have hk : removesLeft t' = removesLeft t := by unfold removesLeft; rw [hm]
  have he : addsLeft t' = addsLeft t := by unfold addsLeft; rw [hm]
  intro x hx
  rw [he, hk, hop]
  rcases hf x hx with ⟨k, hp, hc⟩ | hadd
  · exact Or.inl ⟨k, (h k).mpr hp, hc⟩
  · exact Or.inr hadd

end

section
variable {rest : List Command}

theorem Fits.remove (h : Fits c t) (left : t.methods = .removeMethod k :: rest) :
    Fits (c.apply (.removeMethod k)).1 { t with methods := rest } := by
  obtain ⟨hks, hes⟩ := left_remove left
  refine ⟨by rw [← hes]; exact h.apart, ?_⟩
  rw [← hes]
  intro x hx l hl hmeets
  obtain ⟨hl, hne⟩ := places_remove.mp hl
  have hmem := h.inside x hx l hl hmeets
  rw [hks] at hmem
  exact (List.mem_cons.mp hmem).resolve_left hne

theorem Fits.add (h : Fits c t) (left : t.methods = .entryMethod x :: rest) :
    Fits (c.apply (.entryMethod x)).1 { t with methods := rest } := by
  obtain ⟨hks, hes⟩ := left_add left
  have hapart := h.apart
  rw [hes, List.pairwise_cons] at hapart
  refine ⟨hapart.2, ?_⟩
  rw [← hks]
  intro y hy l hl hmeets
  rcases places_add hl with rfl | hl
  · exact absurd hmeets (hapart.1 y hy)
  · exact h.inside y (by rw [hes]; exact .tail _ hy) l hl hmeets

theorem Fills.remove (h : Fills c t) (left : t.methods = .removeMethod k :: rest) :
    Fills (c.apply (.removeMethod k)).1 { t with methods := rest } := by
  obtain ⟨hks, hes⟩ := left_remove left
  intro y hy
  rw [← hes]
  rcases h y hy with ⟨l, hl, hc, hout⟩ | hadd
  · rw [hks, List.mem_cons, not_or] at hout
    exact Or.inl ⟨l, places_remove.mpr ⟨hl, hout.1⟩, hc, hout.2⟩
  · exact Or.inr hadd

theorem Fills.add (h : Fills c t) (left : t.methods = .entryMethod x :: rest)
    (hks : removesLeft t = []) (hv : validTenant t.op.tenant) (ht : x.key.tenant = t.op.tenant)
    (hr : x.key.rangeStart ≤ x.key.rangeEnd) :
    Fills (c.apply (.entryMethod x)).1 { t with methods := rest } := by
  obtain ⟨hks', hes⟩ := left_add left
  rw [hks] at hks'
  intro y hy
  rw [← hks']
  rcases h y hy with ⟨l, hl, hc, -⟩ | ⟨z, hz, hc⟩
  · exact Or.inl ⟨l, places_of_add hl, hc, List.not_mem_nil⟩
  · rw [hes] at hz
    rcases List.mem_cons.mp hz with rfl | hz
    · refine Or.inl ⟨z.key, ?_, hc, List.not_mem_nil⟩
      have hplaced := places_added (c := c) (x := z) (by rw [ht]; exact hv) hr
      rw [ht] at hplaced
      exact hplaced
    · exact Or.inr ⟨z, hz, hc⟩

end

/-! ### Rows never share a hash -/

/-- **Rows of a tenant share no hash, and a plan that was left alone fits them.** -/
structure Kept (s : System) : Prop where
  apart : ∀ tenant, Apart s.catalog tenant
  fits : ∀ (i : ℕ) (t : Thread), s.threads[i]? = some t → t.op.rewrites →
    s.Undisturbed (Command.rekeys t.op.tenant) i t → Fits s.catalog t

theorem kept_fresh : Kept System.fresh where
  apart tenant e he := by cases he
  fits i t h := by cases h

theorem start_left {a : EpochAllocation} {ks : List PartitionKey} {es : List PlacementEntry}
    (h : Rewrite c op p a ks es) :
    removesLeft (Thread.start op p n) = ks ∧ addsLeft (Thread.start op p n) = es := by
  have hp := h.eq
  subst hp
  exact ⟨filterMap_removedKey ks es, filterMap_addedEntry ks es⟩

theorem start_fits (hr : op.rewrites) (h : op.plan c = .ok p) (hapart : Apart c op.tenant) :
    Fits c (Thread.start op p n) := by
  obtain ⟨a, ks, es, hw⟩ := plan_rewrite hr h
  obtain ⟨hks, hes⟩ := start_left (n := n) hw
  refine ⟨by rw [hes]; exact hw.apart, ?_⟩
  rw [hes, hks]
  rintro x hx k ⟨e, he, rfl⟩ hmeets
  exact hw.inside hapart x hx e he hmeets

theorem Kept.propose (hs : Kept s) (h : op.plan s.catalog = .ok p) :
    Kept { s with threads := s.threads ++ [Thread.start op p s.log.length] } where
  apart := hs.apart
  fits i t ht hr hu := by
    rcases propose_threads ht with ht | ⟨-, rfl⟩
    · exact hs.fits i t ht hr hu
    · exact start_fits hr h (hs.apart _)

section
variable {i : ℕ}

theorem Kept.apart_commit (hs : Kept s) (hsound : Sound s) (ht : s.threads[i]? = some t)
    (hc : Commits t cmd)
    (hiso : Command.rekeys t.op.tenant cmd → s.Undisturbed (Command.rekeys t.op.tenant) i t)
    (tenant : String) : Apart (s.catalog.apply cmd).1 tenant := by
  have hold := apart_iff.mp (hs.apart tenant)
  rw [apart_iff]
  by_cases hk : Command.rekeys tenant cmd
  · obtain ⟨hr, rfl⟩ := rekeys_commits hc hk
    have hfits := hs.fits i t ht hr (hiso hk)
    cases hc with
    | reserve a rest alloc left step =>
      rcases mem_reserveSteps step with rfl | rfl | rfl <;> cases hk
    | cas => cases hk
    | remove k =>
      intro l m hl hm
      exact hold l m (places_remove.mp hl).1 (places_remove.mp hm).1
    | add x rest rewrites reserved left removes =>
      -- no row is left that the new one could share a hash with
      have hfree : ∀ l, Places s.catalog t.op.tenant l → ¬ Meets l x.key := by
        intro l hl hmeets
        have hmem := hfits.inside x (by rw [(left_add left).2]; exact .head _) l hl hmeets
        rw [removes] at hmem
        exact absurd hmem List.not_mem_nil
      intro l m hl hm hmeets
      rcases places_add hl with rfl | hl
      · rcases places_add hm with rfl | hm
        · rfl
        · exact absurd hmeets.symm (hfree m hm)
      · rcases places_add hm with rfl | hm
        · exact absurd hmeets (hfree l hl)
        · exact hold l m hl hm hmeets
  · intro l m hl hm
    exact hold l m ((places_other hsound ht hc hk l).mp hl) ((places_other hsound ht hc hk m).mp hm)

theorem Fits.advance (hsound : Sound s) (ht : s.threads[i]? = some t) (hc : Commits t cmd)
    (hr : t.op.rewrites) (hf : Fits s.catalog t) :
    Fits (s.catalog.apply cmd).1 (t.advance (s.catalog.apply cmd).2) := by
  have hl := (hsound.rewriting i t ht hr).lenient
  cases hc with
  | reserve a rest alloc left step =>
    refine fits_congr (advance_op t _) ?_ (fun k => ?_) hf
    · rw [advance_reserve left]
      split_ifs
      · rfl
      · rfl
    · obtain ⟨-, -, hfloor, hexp⟩ := (hsound.reserving i t ht).allocated a alloc
      refine places_congr (fun l _ => ?_) k
      rw [(apply_reserve hfloor hexp step).1]
  | remove k rest _ reserved left =>
    rw [advance_methods reserved left hl]
    exact hf.remove left
  | add x rest _ reserved left =>
    rw [advance_methods reserved left hl]
    exact hf.add left
  | cas _ _ moves => rw [moves] at hr; cases hr

theorem Kept.commit (hs : Kept s) (hsound : Sound s) (ht : s.threads[i]? = some t)
    (hn : t.next = some cmd) (hiso : s.Isolated Command.rekeys (.commit i)) :
    Kept (s.commitCommand i t cmd) where
  apart := hs.apart_commit hsound ht (hsound.commits ht hn) (hiso i t cmd rfl ht hn)
  fits j u hu hr hun := by
    have hc := hsound.commits ht hn
    rcases commitCommand_threads hu with ⟨rfl, rfl⟩ | ⟨hji, hu'⟩
    · rw [advance_op] at hr hun
      have hold := (undisturbed_commit (hsound.made j t ht) (advance_madeAt t _)).mp hun
      exact (hs.fits j t ht hr hold.1).advance hsound ht hc hr
    · obtain ⟨hold, hnew⟩ := (undisturbed_commit (hsound.made j u hu') rfl).mp hun
      have hno : ¬ Command.rekeys u.op.tenant cmd := fun hk =>
        hji (hnew hk (took_of_rekeys hk)).symm
      exact fits_congr rfl rfl (places_other hsound ht hc hno) (hs.fits j u hu' hr hold)

end

/-! ### What the log says of a plan -/

structure Logged (s : System) : Prop where
  planned : ∀ (i : ℕ) (t : Thread), s.threads[i]? = some t → t.op.rewrites →
    t.plan.methods ≠ [] ∧ t.methods.length ≤ t.plan.methods.length
  unreserved : ∀ (i : ℕ) (t : Thread), s.threads[i]? = some t → t.op.rewrites → t.reserve ≠ [] →
    t.methods = t.plan.methods
  begun : ∀ (i : ℕ) (t : Thread), s.threads[i]? = some t → t.op.rewrites →
    t.methods.length < t.plan.methods.length →
      ∃ p ∈ s.log.drop t.madeAt, p.plan = i ∧ Command.rekeys t.op.tenant p.command ∧ p.took

theorem logged_fresh : Logged System.fresh where
  planned i t h := by cases h
  unreserved i t h := by cases h
  begun i t h := by cases h

theorem start_reserve_ne_nil (hr : op.rewrites) (h : op.plan c = .ok p) :
    (Thread.start op p n).reserve ≠ [] := by
  obtain ⟨a, ks, es, hw⟩ := plan_rewrite hr h
  have hp := hw.eq
  subst hp
  intro hnil
  simp [Thread.start, PendingWrite.reserve, reserveSteps] at hnil

theorem Logged.propose (hs : Logged s) (h : op.plan s.catalog = .ok p) :
    Logged { s with threads := s.threads ++ [Thread.start op p s.log.length] } where
  planned i t ht hr := by
    rcases propose_threads ht with ht | ⟨-, rfl⟩
    · exact hs.planned i t ht hr
    · obtain ⟨a, ks, es, hw⟩ := plan_rewrite hr h
      have hp := hw.eq
      subst hp
      refine ⟨fun hnil => ?_, le_rfl⟩
      exact hw.nonempty (List.map_eq_nil_iff.mp (List.append_eq_nil_iff.mp hnil).2)
  unreserved i t ht hr hne := by
    rcases propose_threads ht with ht | ⟨-, rfl⟩
    · exact hs.unreserved i t ht hr hne
    · rfl
  begun i t ht hr hlt := by
    rcases propose_threads ht with ht | ⟨-, rfl⟩
    · exact hs.begun i t ht hr hlt
    · exact absurd hlt (lt_irrefl _)

section
variable {i : ℕ}

theorem advance_rewrite (hsound : Sound s) (ht : s.threads[i]? = some t) (hc : Commits t cmd)
    (hr : t.op.rewrites) (took : Bool) :
    (¬ Command.rekeys t.op.tenant cmd ∧ t.reserve ≠ [] ∧ (t.advance took).methods = t.methods) ∨
      (Command.rekeys t.op.tenant cmd ∧ t.reserve = [] ∧
        t.advance took = { t with methods := (t.advance took).methods } ∧
          t.methods = cmd :: (t.advance took).methods) := by
  have hl := (hsound.rewriting i t ht hr).lenient
  cases hc with
  | reserve a rest alloc left step =>
    left
    refine ⟨?_, by rw [left]; exact List.cons_ne_nil _ _, ?_⟩
    · rcases mem_reserveSteps step with rfl | rfl | rfl <;> exact Bool.false_ne_true
    · rw [advance_reserve left]
      split_ifs
      · rfl
      · rfl
  | remove k rest _ reserved left htenant =>
    right
    rw [advance_methods reserved left hl]
    exact ⟨decide_eq_true htenant, reserved, rfl, left⟩
  | add x rest _ reserved left _ htenant =>
    right
    rw [advance_methods reserved left hl]
    exact ⟨decide_eq_true htenant, reserved, rfl, left⟩
  | cas _ _ moves => rw [moves] at hr; cases hr

theorem Logged.commit (hs : Logged s) (hsound : Sound s) (ht : s.threads[i]? = some t)
    (hn : t.next = some cmd) : Logged (s.commitCommand i t cmd) := by
  have hc := hsound.commits ht hn
  have hdrop : ∀ u : Thread, u.madeAt ≤ s.log.length → (s.commitCommand i t cmd).log.drop u.madeAt =
        s.log.drop u.madeAt ++ [⟨i, cmd, (s.catalog.apply cmd).2⟩] := by
    intro u hu
    exact List.drop_append_of_le_length hu
  refine ⟨?_, ?_, ?_⟩
  · intro j u hu hr
    rcases commitCommand_threads hu with ⟨rfl, rfl⟩ | ⟨-, hu'⟩
    · rw [advance_op] at hr
      rw [advance_plan]
      obtain ⟨hne, hle⟩ := hs.planned j t ht hr
      refine ⟨hne, ?_⟩
      rcases advance_rewrite hsound ht hc hr (s.catalog.apply cmd).2 with ⟨-, -, hm⟩ | ⟨-, -, -, hm⟩
      · rw [hm]
        exact hle
      · rw [hm, List.length_cons] at hle
        omega
    · exact hs.planned j u hu' hr
  · intro j u hu hr hres
    rcases commitCommand_threads hu with ⟨rfl, rfl⟩ | ⟨-, hu'⟩
    · rw [advance_op] at hr
      rw [advance_plan]
      rcases advance_rewrite hsound ht hc hr (s.catalog.apply cmd).2 with
        ⟨-, hne, hm⟩ | ⟨-, hnil, hadv, -⟩
      · rw [hm]
        exact hs.unreserved j t ht hr hne
      · rw [hadv] at hres
        exact absurd hnil hres
    · exact hs.unreserved j u hu' hr hres
  · intro j u hu hr hlt
    rcases commitCommand_threads hu with ⟨rfl, rfl⟩ | ⟨-, hu'⟩
    · rw [advance_op] at hr ⊢
      rw [advance_plan] at hlt
      rw [hdrop _ (by rw [advance_madeAt]; exact hsound.made j t ht), advance_madeAt]
      rcases advance_rewrite hsound ht hc hr (s.catalog.apply cmd).2 with ⟨-, -, hm⟩ | ⟨hk, -⟩
      · rw [hm] at hlt
        obtain ⟨p, hp, hrest⟩ := hs.begun j t ht hr hlt
        exact ⟨p, List.mem_append_left _ hp, hrest⟩
      · exact ⟨_, List.mem_append_right _ (List.mem_singleton_self _), rfl, hk, took_of_rekeys hk⟩
    · obtain ⟨p, hp, hrest⟩ := hs.begun j u hu' hr hlt
      rw [hdrop u (hsound.made j u hu')]
      exact ⟨p, List.mem_append_left _ hp, hrest⟩

end

/-! ### Interrupted plans -/

def Superseded (s : System) (tenant : String) (i : ℕ) : Prop :=
  ∃ (j : ℕ) (u : Thread), s.threads[j]? = some u ∧ u.op.assigns ∧ u.op.tenant = tenant ∧ u.completed ∧
    ∀ p ∈ s.log.drop u.madeAt, p.plan = i → ¬ Command.rekeys tenant p.command

structure StandsCut (s : System) (tenant : String) (i : ℕ) (t : Thread) : Prop where
  thread : s.threads[i]? = some t
  rewrites : t.op.rewrites
  ofTenant : t.op.tenant = tenant
  cut : t.cut
  standing : ¬ Superseded s tenant i

/-- **Some assign, merge or split of the tenant stands partly committed**, in progress or interrupted,
and no assign or merge carried through since made up for it. -/
def Interrupted (s : System) (tenant : String) : Prop := ∃ i t, StandsCut s tenant i t

theorem cut_iff : t.cut ↔ t.methods.length < t.plan.methods.length ∧ t.methods ≠ [] := by
  unfold Thread.cut
  rw [Bool.and_eq_true, decide_eq_true_iff, Bool.not_eq_true', List.isEmpty_eq_false_iff]

theorem completed_iff : t.completed ↔ t.stopped = false ∧ t.reserve = [] ∧ t.methods = [] := by
  unfold Thread.completed
  rw [Bool.and_eq_true, Bool.and_eq_true, Bool.not_eq_true', List.isEmpty_iff, List.isEmpty_iff,
    and_assoc]

theorem rewrites_of_assigns (h : op.assigns) : op.rewrites := by
  cases op <;> first | rfl | cases h

theorem Logged.not_superseded (hs : Logged s) {i : ℕ} (ht : s.threads[i]? = some t)
    (hr : t.op.rewrites) (hcut : t.cut) (hun : s.Undisturbed (Command.rekeys t.op.tenant) i t) :
    ¬ Superseded s t.op.tenant i := by
  rintro ⟨j, u, hu, hassign, htenant, hdone, hafter⟩
  obtain ⟨hlt, hne⟩ := cut_iff.mp hcut
  obtain ⟨-, -, hempty⟩ := completed_iff.mp hdone
  have hur := rewrites_of_assigns hassign
  obtain ⟨p, hp, hpi, hpk, -⟩ := hs.begun i t ht hr hlt
  -- the row command of the plan comes before the other plan was made
  have hle : t.madeAt ≤ u.madeAt := by
    by_contra hgt
    have hsub : p ∈ s.log.drop u.madeAt := (List.drop_sublist_drop_left s.log (by omega)).subset hp
    exact hafter p hsub hpi hpk
  -- so the row commands of the other plan come after this one was made
  have hulen : u.methods.length < u.plan.methods.length := by
    rw [hempty]
    exact List.length_pos_iff.mpr (hs.planned j u hu hur).1
  obtain ⟨q, hq, hqj, hqk, hqt⟩ := hs.begun j u hu hur hulen
  have hqi := hun q ((List.drop_sublist_drop_left s.log hle).subset hq) (htenant ▸ hqk) hqt
  have hij : i = j := hqi.symm.trans hqj
  subst hij
  rw [ht] at hu
  cases hu
  exact hne hempty

section
variable {i j : ℕ} {u : Thread}

theorem StandsCut.propose (h : StandsCut s tenant j u) (hp : op.plan s.catalog = .ok p) :
    StandsCut { s with threads := s.threads ++ [Thread.start op p s.log.length] } tenant j u := by
  refine ⟨?_, h.rewrites, h.ofTenant, h.cut, ?_⟩
  · exact (List.getElem?_append_left (List.getElem?_eq_some_iff.mp h.thread).1).trans h.thread
  · rintro ⟨k, v, hv, hassign, htenant, hdone, hafter⟩
    rcases propose_threads hv with hv | ⟨-, rfl⟩
    · exact h.standing ⟨k, v, hv, hassign, htenant, hdone, hafter⟩
    · exact start_reserve_ne_nil (rewrites_of_assigns hassign) hp (completed_iff.mp hdone).2.1

theorem superseded_commit (hsound : Sound s) (hs : Logged s) (ht : s.threads[i]? = some t)
    (hn : t.next = some cmd) (h : Superseded (s.commitCommand i t cmd) tenant j) :
    Superseded s tenant j ∨ (t.op.assigns ∧ Command.rekeys tenant cmd) := by
  have hc := hsound.commits ht hn
  obtain ⟨k, v, hv, hassign, htenant, hdone, hafter⟩ := h
  rcases commitCommand_threads hv with ⟨rfl, rfl⟩ | ⟨-, hv'⟩
  · right
    rw [advance_op] at hassign htenant
    refine ⟨hassign, ?_⟩
    have hr := rewrites_of_assigns hassign
    rcases advance_rewrite hsound ht hc hr (s.catalog.apply cmd).2 with ⟨-, hne, hm⟩ | ⟨hk, -⟩
    · -- a plan still at its reservation has all of its row commands ahead
      rw [(completed_iff.mp hdone).2.2, hs.unreserved k t ht hr hne] at hm
      exact absurd hm.symm (hs.planned k t ht hr).1
    · exact htenant ▸ hk
  · left
    refine ⟨k, v, hv', hassign, htenant, hdone, fun p hp => hafter p ?_⟩
    unfold System.commitCommand
    rw [List.drop_append_of_le_length (hsound.made k v hv')]
    exact List.mem_append_left _ hp

theorem StandsCut.commit (h : StandsCut s tenant j u) (hsound : Sound s) (hs : Logged s)
    (ht : s.threads[i]? = some t) (hn : t.next = some cmd)
    (hkind : ¬ Command.rekeys tenant cmd ∨ (j ≠ i ∧ t.op.assigns = false)) :
    Interrupted (s.commitCommand i t cmd) tenant ∧
      ∃ v, StandsCut (s.commitCommand i t cmd) tenant j v := by
  have hstanding : ¬ Superseded (s.commitCommand i t cmd) tenant j := by
    intro hsup
    rcases superseded_commit hsound hs ht hn hsup with hsup | ⟨hassign, hk⟩
    · exact h.standing hsup
    · rcases hkind with hno | ⟨-, hno⟩
      · exact hno hk
      · rw [hno] at hassign
        cases hassign
  have hcut : ∃ v, StandsCut (s.commitCommand i t cmd) tenant j v := by
    by_cases hji : j = i
    · subst hji
      have hno := hkind.resolve_right fun hne => hne.1 rfl
      have htu : t = u := Option.some.inj (ht.symm.trans h.thread)
      subst htu
      have hc := hsound.commits ht hn
      rcases advance_rewrite hsound ht hc h.rewrites (s.catalog.apply cmd).2 with
        ⟨-, -, hm⟩ | ⟨hk, -⟩
      · refine ⟨t.advance (s.catalog.apply cmd).2, ?_, ?_, ?_, ?_, hstanding⟩
        · unfold System.commitCommand
          exact List.getElem?_set_self (List.getElem?_eq_some_iff.mp ht).1
        · rw [advance_op]
          exact h.rewrites
        · rw [advance_op]
          exact h.ofTenant
        · have := h.cut
          rw [cut_iff] at this ⊢
          rw [hm, advance_plan]
          exact this
      · exact absurd (h.ofTenant ▸ hk) hno
    · refine ⟨u, ?_, h.rewrites, h.ofTenant, h.cut, hstanding⟩
      unfold System.commitCommand
      rw [List.getElem?_set_ne (Ne.symm hji)]
      exact h.thread
  exact ⟨⟨j, hcut⟩, hcut⟩

end

/-! ### Rows contain every hash -/

/-- **The rows of a tenant contain every hash**, or it was never placed, or a plan of it stands cut,
which will fill what it cuts if left alone. -/
structure Filled (s : System) : Prop where
  fills : ∀ (i : ℕ) (t : Thread), s.threads[i]? = some t → t.op.rewrites → validTenant t.op.tenant →
    s.Undisturbed (Command.rekeys t.op.tenant) i t → Fills s.catalog t ∨
        (t.op.assigns = false ∧ ∃ j u, j ≠ i ∧ StandsCut s t.op.tenant j u)
  whole : ∀ tenant, validTenant tenant → ((∀ k, ¬ Places s.catalog tenant k) ∧
      ∀ (i : ℕ) (t : Thread), s.threads[i]? = some t → t.op.rewrites → t.op.tenant = tenant →
        t.completed = false) ∨
    Covers s.catalog tenant ∨ Interrupted s tenant

theorem filled_fresh : Filled System.fresh where
  fills i t h := by cases h
  whole tenant _ := by
    refine Or.inl ⟨?_, fun i t h => by cases h⟩
    rintro k ⟨e, he, -⟩
    cases he

theorem start_fills (hs : Filled s) (hr : op.rewrites) (hv : validTenant op.tenant)
    (h : op.plan s.catalog = .ok p) :
    Fills s.catalog (Thread.start op p n) ∨ (op.assigns = false ∧ Interrupted s op.tenant) := by
  obtain ⟨a, ks, es, hw⟩ := plan_rewrite hr h
  obtain ⟨hks, hes⟩ := start_left (n := n) hw
  have hcovers : (s.catalog.tenantEntries op.tenant = [] ∨ Covers s.catalog op.tenant) →
      Fills s.catalog (Thread.start op p n) := by
    intro hwhole y hy
    rw [hks, hes]
    rcases hw.covers hwhole y hy with ⟨e, he, hc, hout⟩ | hadd
    · exact Or.inl ⟨e.key, ⟨e, he, rfl⟩, hc, hout⟩
    · exact Or.inr hadd
  cases hassign : op.assigns with
  | true =>
    obtain ⟨x, hx, hall⟩ := hw.assigned hassign
    exact Or.inl fun y hy => Or.inr ⟨x, by rw [hes]; exact hx, hall y hy⟩
  | false =>
    rcases hs.whole op.tenant hv with ⟨hnone, -⟩ | hcov | hint
    · refine Or.inl (hcovers (Or.inl ?_))
      exact List.eq_nil_iff_forall_not_mem.mpr fun e he => hnone e.key ⟨e, he, rfl⟩
    · exact Or.inl (hcovers (Or.inr hcov))
    · exact Or.inr ⟨rfl, hint⟩

theorem Filled.propose (hs : Filled s) (h : op.plan s.catalog = .ok p) :
    Filled { s with threads := s.threads ++ [Thread.start op p s.log.length] } where
  fills i t ht hr hv hu := by
    rcases propose_threads ht with ht | ⟨rfl, rfl⟩
    · rcases hs.fills i t ht hr hv hu with hf | ⟨hno, j, u, hji, hcut⟩
      · exact Or.inl hf
      · exact Or.inr ⟨hno, j, u, hji, hcut.propose h⟩
    · rcases start_fills hs hr hv h with hf | ⟨hno, j, u, hcut⟩
      · exact Or.inl hf
      · exact Or.inr ⟨hno, j, u, (List.getElem?_eq_some_iff.mp hcut.thread).1.ne, hcut.propose h⟩
  whole tenant hv := by
    rcases hs.whole tenant hv with ⟨hnone, hdone⟩ | hcov | ⟨j, u, hcut⟩
    · refine Or.inl ⟨hnone, fun i t ht hr htenant => ?_⟩
      rcases propose_threads ht with ht | ⟨-, rfl⟩
      · exact hdone i t ht hr htenant
      · rw [← Bool.not_eq_true]
        exact fun hc => start_reserve_ne_nil hr h (completed_iff.mp hc).2.1
    · exact Or.inr (Or.inl hcov)
    · exact Or.inr (Or.inr ⟨j, u, hcut.propose h⟩)

section
variable {i : ℕ}

theorem Fills.advance (hsound : Sound s) (ht : s.threads[i]? = some t) (hc : Commits t cmd)
    (hr : t.op.rewrites) (hv : validTenant t.op.tenant) (hf : Fills s.catalog t) :
    Fills (s.catalog.apply cmd).1 (t.advance (s.catalog.apply cmd).2) := by
  have hw := hsound.rewriting i t ht hr
  cases hc with
  | reserve a rest alloc left step =>
    refine fills_congr (advance_op t _) ?_ (fun k => ?_) hf
    · rw [advance_reserve left]
      split_ifs
      · rfl
      · rfl
    · obtain ⟨-, -, hfloor, hexp⟩ := (hsound.reserving i t ht).allocated a alloc
      refine places_congr (fun l _ => ?_) k
      rw [(apply_reserve hfloor hexp step).1]
  | remove k rest _ reserved left =>
    rw [advance_methods reserved left hw.lenient]
    exact hf.remove left
  | add x rest _ reserved left removes htenant =>
    rw [advance_methods reserved left hw.lenient]
    obtain ⟨-, -, hrange⟩ := hw.added x (by rw [(left_add left).2]; exact .head _)
    exact hf.add left removes hv htenant hrange
  | cas _ _ moves => rw [moves] at hr; cases hr

theorem covers_of_fills (h : Fills c t) (hm : t.methods = []) : Covers c t.op.tenant := by
  rw [covers_iff]
  intro y hy
  rcases h y hy with ⟨k, hp, hc, -⟩ | ⟨x, hx, -⟩
  · exact ⟨k, hp, hc⟩
  · unfold addsLeft at hx
    rw [hm] at hx
    exact absurd hx List.not_mem_nil

section
variable (hs : Filled s) (hsound : Sound s) (hlog : Logged s) (ht : s.threads[i]? = some t)
  (hn : t.next = some cmd)
include hs hsound hlog ht hn

theorem Filled.fills_commit (j : ℕ) (u : Thread)
    (hu : (s.commitCommand i t cmd).threads[j]? = some u) (hr : u.op.rewrites)
    (hv : validTenant u.op.tenant)
    (hun : (s.commitCommand i t cmd).Undisturbed (Command.rekeys u.op.tenant) j u) :
    Fills (s.catalog.apply cmd).1 u ∨ (u.op.assigns = false ∧
      ∃ k v, k ≠ j ∧ StandsCut (s.commitCommand i t cmd) u.op.tenant k v) := by
  have hc := hsound.commits ht hn
  rcases commitCommand_threads hu with ⟨rfl, rfl⟩ | ⟨hji, hu'⟩
  · rw [advance_op] at hr hv hun ⊢
    have hold := (undisturbed_commit (hsound.made j t ht) (advance_madeAt t _)).mp hun
    rcases hs.fills j t ht hr hv hold.1 with hf | ⟨hno, k, v, hkj, hcut⟩
    · exact Or.inl (hf.advance hsound ht hc hr hv)
    · exact Or.inr ⟨hno, k, (hcut.commit hsound hlog ht hn (Or.inr ⟨hkj, hno⟩)).2.imp
        fun _ hv => ⟨hkj, hv⟩⟩
  · obtain ⟨hold, hnew⟩ := (undisturbed_commit (hsound.made j u hu') rfl).mp hun
    have hno : ¬ Command.rekeys u.op.tenant cmd := fun hk => hji (hnew hk (took_of_rekeys hk)).symm
    rcases hs.fills j u hu' hr hv hold with hf | ⟨hna, k, v, hkj, hcut⟩
    · exact Or.inl (fills_congr rfl rfl (places_other hsound ht hc hno) hf)
    · exact Or.inr ⟨hna, k, (hcut.commit hsound hlog ht hn (Or.inl hno)).2.imp
        fun _ hv => ⟨hkj, hv⟩⟩

theorem Filled.commit
    (hiso : s.Isolated Command.rekeys (.commit i)) : Filled (s.commitCommand i t cmd) := by
  have hc := hsound.commits ht hn
  have hfills := hs.fills_commit hsound hlog ht hn
  refine ⟨hfills, fun tenant hv => ?_⟩
  by_cases hk : Command.rekeys tenant cmd
  · -- a row command of a plan of this tenant, that was left alone
    obtain ⟨hr, rfl⟩ := rekeys_commits hc hk
    have hun : (s.commitCommand i t cmd).Undisturbed (Command.rekeys t.op.tenant) i
        (t.advance (s.catalog.apply cmd).2) :=
      (undisturbed_commit (hsound.made i t ht) (advance_madeAt t _)).mpr
        ⟨hiso i t cmd rfl ht hn hk, fun _ _ => rfl⟩
    have hthread : (s.commitCommand i t cmd).threads[i]? =
        some (t.advance (s.catalog.apply cmd).2) := by
      exact List.getElem?_set_self (List.getElem?_eq_some_iff.mp ht).1
    have hop := advance_op t (s.catalog.apply cmd).2
    have hlog' := hlog.commit hsound ht hn
    rcases advance_rewrite hsound ht hc hr (s.catalog.apply cmd).2 with ⟨hno, -⟩ | ⟨-, -, -, hm⟩
    · exact absurd hk hno
    by_cases hdone : (t.advance (s.catalog.apply cmd).2).methods = []
    · rcases hfills i _ hthread (by rw [hop]; exact hr) (by rw [hop]; exact hv)
        (by rw [hop]; exact hun) with hf | ⟨-, k, v, -, hcut⟩
      · have hcov := covers_of_fills hf hdone
        rw [hop] at hcov
        exact Or.inr (Or.inl hcov)
      · rw [hop] at hcut
        exact Or.inr (Or.inr ⟨k, v, hcut⟩)
    · -- the plan itself stands cut
      have hcut : (t.advance (s.catalog.apply cmd).2).cut := by
        rw [cut_iff, advance_plan]
        refine ⟨?_, hdone⟩
        have hle := (hlog.planned i t ht hr).2
        rw [hm, List.length_cons] at hle
        omega
      have hnot := hlog'.not_superseded hthread (by rw [hop]; exact hr) hcut (by rw [hop]; exact hun)
      rw [hop] at hnot
      exact Or.inr (Or.inr ⟨i, _, hthread, by rw [hop]; exact hr, by rw [hop], hcut, hnot⟩)
  · have hplaces := places_other hsound ht hc hk
    rcases hs.whole tenant hv with ⟨hnone, hdone⟩ | hcov | ⟨j, u, hcut⟩
    · refine Or.inl ⟨fun k hp => hnone k ((hplaces k).mp hp), fun j u hu hr htenant => ?_⟩
      rcases commitCommand_threads hu with ⟨rfl, rfl⟩ | ⟨-, hu'⟩
      · -- a plan of this tenant can only be at its reservation here
        rw [advance_op] at hr htenant
        rcases advance_rewrite hsound ht hc hr (s.catalog.apply cmd).2 with ⟨-, hne, hm⟩ | ⟨hk', -⟩
        · rw [← Bool.not_eq_true]
          intro hcomp
          rw [(completed_iff.mp hcomp).2.2, hlog.unreserved j t ht hr hne] at hm
          exact (hlog.planned j t ht hr).1 hm.symm
        · exact absurd (htenant ▸ hk') hk
      · exact hdone j u hu' hr htenant
    · refine Or.inr (Or.inl (covers_iff.mpr fun y hy => ?_))
      obtain ⟨k, hp, hcont⟩ := covers_iff.mp hcov y hy
      exact ⟨k, (hplaces k).mpr hp, hcont⟩
    · exact Or.inr (Or.inr (hcut.commit hsound hlog ht hn (Or.inl hk)).1)

end

end

/-! ### Runs -/

/-- What holds along runs in which every plan that adds or removes a row was left alone. -/
structure Exact (s : System) : Prop where
  sound : Sound s
  kept : Kept s
  logged : Logged s
  filled : Filled s

theorem Exact.step (hs : Exact s) {ev : Event} (hiso : s.Isolated Command.rekeys ev) :
    Exact (s.step ev) := by
  rcases s.step_cases ev with h | ⟨op, p, -, hp, h⟩ | ⟨i, t, cmd, rfl, ht, hn, h⟩
  · rw [h]
    exact hs
  · rw [h]
    exact ⟨hs.sound.propose hp, hs.kept.propose hp, hs.logged.propose hp, hs.filled.propose hp⟩
  · rw [h]
    exact ⟨hs.sound.commit ht hn, hs.kept.commit hs.sound ht hn hiso,
      hs.logged.commit hs.sound ht hn, hs.filled.commit hs.sound hs.logged ht hn hiso⟩

theorem exact_fresh : Exact System.fresh := ⟨sound_fresh, kept_fresh, logged_fresh, filled_fresh⟩

theorem exact_run {events : List Event}
    (h : Along System.step (System.Isolated Command.rekeys) System.fresh events) :
    Exact (run System.step System.fresh events) :=
  run_invariant_along (I := Exact) (fun _ _ hiso hs => hs.step hiso) events _ h exact_fresh

def PlacedOnce (s : System) (tenant : String) : Prop :=
  ∃ (i : ℕ) (t : Thread), s.threads[i]? = some t ∧ t.op.rewrites ∧ t.op.tenant = tenant ∧ t.completed

/-- **The rows of a tenant share no hash**, and contain every hash wherever no plan of it stands partly
committed, in every run in which plans that add and remove rows are left alone. -/
theorem tenant_ranges_exact (events : List Event)
    (h : Along System.step (System.Isolated Command.rekeys) System.fresh events) (tenant : String) :
    ((run System.step System.fresh events).catalog.tenantEntries tenant).Pairwise
        (fun a b => ¬ Meets a.key b.key) ∧
      (validTenant tenant → PlacedOnce (run System.step System.fresh events) tenant →
        ¬ Interrupted (run System.step System.fresh events) tenant →
          Covers (run System.step System.fresh events).catalog tenant ∧
            ∀ subKey g, ((run System.step System.fresh events).catalog.route tenant subKey g).placed =
              true) := by
  have hs := exact_run h
  constructor
  · refine List.Pairwise.imp_of_mem ?_ (tenantEntries_pairwise_ne _ tenant)
    exact fun ha hb hne hmeets => hne (hs.kept.apart tenant _ ha _ hb hmeets)
  · rintro hv ⟨i, t, ht, hr, htenant, hdone⟩ hnot
    have hcov : Covers (run System.step System.fresh events).catalog tenant := by
      rcases hs.filled.whole tenant hv with ⟨-, hnone⟩ | hcov | hint
      · rw [hnone i t ht hr htenant] at hdone
        cases hdone
      · exact hcov
      · exact absurd hint hnot
    refine ⟨hcov, fun subKey g => ?_⟩
    obtain ⟨e, he, hcont⟩ := hcov (fnv1a subKey) (fnv1a_le subKey)
    exact routeEntries_placed_of_mem he hcont

def assignedAgain : List Event :=
  [.propose (.assign "a" 1), .commit 0, .commit 0, .commit 0,
    .propose (.assign "a" 2), .commit 1, .commit 1]

def assignedLate : List Event :=
  [.propose (.assign "a" 1), .commit 0, .commit 0,
    .propose (.split "a" 5 2 3), .commit 1, .commit 1, .commit 1, .commit 0]

/-- Between the removal and the addition of a row the tenant is unplaced, and a plan that was made
before another one leaves rows that share a hash. -/
theorem reassigned_tenant_unplaced :
    (((run System.step System.fresh (assignedAgain.take 4)).threads[0]?).map Thread.completed =
        some true ∧
      ((run System.step System.fresh assignedAgain).catalog.route "a" "x" 9).placed = false) ∧
      ((run System.step System.fresh assignedLate).catalog.tenantEntries "a").map (·.key) =
        [⟨"a", 0, 4⟩, ⟨"a", 0, u64Max⟩, ⟨"a", 5, u64Max⟩] := by
  exact ⟨⟨by decide +kernel, by decide +kernel⟩, by decide +kernel⟩

/-- The tenant assigned, and assigned again to the end. -/
def reassigned : List Event := assignedAgain ++ [.commit 1]

/-- After an assign that replaced the rows of another one the tenant is placed everywhere. -/
theorem tenant_ranges_exact_reassigned :
    (run System.step System.fresh reassigned).threads.map Thread.completed = [true, true] ∧
      Covers (run System.step System.fresh reassigned).catalog "a" := by
  have hdone : (run System.step System.fresh reassigned).threads.map Thread.completed =
      [true, true] := by decide +kernel
  have huncut : ∀ t ∈ (run System.step System.fresh reassigned).threads, t.cut = false := by
    decide +kernel
  have hsecond : ((run System.step System.fresh reassigned).threads[1]?).map
      (fun t => (t.op, t.completed)) = some (.assign "a" 2, true) := by decide +kernel
  obtain ⟨t, ht, hdata⟩ := Option.map_eq_some_iff.mp hsecond
  simp only [Prod.mk.injEq] at hdata
  obtain ⟨hop, hcomp⟩ := hdata
  refine ⟨hdone, ((tenant_ranges_exact reassigned (by decide +kernel) "a").2 (by decide)
    ⟨1, t, ht, by rw [hop]; rfl, by rw [hop]; rfl, hcomp⟩ ?_).1⟩
  rintro ⟨i, u, hstands⟩
  have hcut := hstands.cut
  rw [huncut u (List.mem_of_getElem? hstands.thread)] at hcut
  cases hcut

end Medulla.Placement.Coverage
