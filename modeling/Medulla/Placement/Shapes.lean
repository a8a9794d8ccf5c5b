import Medulla.Placement.Plans

/-! # What plans look like

A plan of an assign, a merge or a split removes some rows of its tenant and then adds rows at the epoch
it allocates (`Rewrite`); a plan of a move is at most one compare-and-set that keeps the route or raises
its epoch (`Fenced`). -/

namespace Medulla.Placement.Shapes

open Library.Checked Placement.Partition Catalog Plans

variable {c : PlacementCatalog} {op : Operation} {p : PendingWrite} {tenant : String}

/-! ### Ranges -/

def Meets (a b : PartitionKey) : Prop := ∃ h, a.contains h ∧ b.contains h

theorem Meets.symm {a b : PartitionKey} (h : Meets a b) : Meets b a := by
  obtain ⟨x, hx⟩ := h
  exact ⟨x, hx.symm⟩

def Apart (c : PlacementCatalog) (tenant : String) : Prop :=
  ∀ e ∈ c.tenantEntries tenant, ∀ f ∈ c.tenantEntries tenant, Meets e.key f.key → e.key = f.key

def Covers (c : PlacementCatalog) (tenant : String) : Prop :=
  ∀ h ≤ u64Max, ∃ e ∈ c.tenantEntries tenant, e.key.contains h

/-! ### Plans that rewrite rows -/

/-- Remove rows, then add rows. -/
def rewriteMethods (ks : List PartitionKey) (es : List PlacementEntry) : List Command :=
  ks.map .removeMethod ++ es.map .entryMethod

/-- **The plan of an assign, a merge or a split**: the rows it removes and the rows it adds. -/
structure Rewrite (c : PlacementCatalog) (op : Operation) (p : PendingWrite) (a : EpochAllocation)
    (ks : List PartitionKey) (es : List PlacementEntry) : Prop where
  allocated : c.nextEpoch = .ok a
  eq : p = ⟨rewriteMethods ks es, a.allocated, some a, false⟩
  removed : ∀ k ∈ ks, ∃ e ∈ c.tenantEntries op.tenant, e.key = k
  added : ∀ x ∈ es, x.key.tenant = op.tenant ∧ x.epoch = a.allocated ∧
    x.key.rangeStart ≤ x.key.rangeEnd
  resting : ∀ x ∈ es, x.state = .active
  nonempty : es ≠ []
  apart : es.Pairwise fun x y => ¬ Meets x.key y.key
  inside : Apart c op.tenant → ∀ x ∈ es, ∀ e ∈ c.tenantEntries op.tenant, Meets e.key x.key →
    e.key ∈ ks
  covers : (c.tenantEntries op.tenant = [] ∨ Covers c op.tenant) → ∀ h ≤ u64Max,
    (∃ e ∈ c.tenantEntries op.tenant, e.key.contains h ∧ e.key ∉ ks) ∨ ∃ x ∈ es, x.key.contains h
  assigned : op.assigns → ∃ x ∈ es, ∀ h ≤ u64Max, x.key.contains h

theorem planAssign_rewrite {group : ℕ} (h : c.planAssign op.tenant group = .ok p) :
    ∃ a ks es, Rewrite c op p a ks es := by
  obtain ⟨a, ha, hp⟩ := unbind h
  obtain rfl := pure_eq_ok.mp hp
  have hwhole : ∀ h ≤ u64Max, (PartitionKey.whole op.tenant).contains h := fun h hh =>
    PartitionKey.whole_contains.mpr hh
  refine ⟨a, (c.tenantEntries op.tenant).map (·.key),
    [⟨⟨group, a.allocated, .active⟩, .whole op.tenant⟩], ha, ?_, ?_, ?_, ?_, ?_, ?_, ?_, ?_, ?_⟩
  · simp only [rewriteMethods, List.map_map]
    rfl
  · intro k hk
    obtain ⟨e, he, rfl⟩ := List.mem_map.mp hk
    exact ⟨e, he, rfl⟩
  · intro x hx
    rw [List.mem_singleton] at hx
    subst hx
    exact ⟨rfl, rfl, Nat.zero_le _⟩
  · intro x hx
    rw [List.mem_singleton.mp hx]
  · exact List.cons_ne_nil _ _
  · exact List.pairwise_singleton _ _
  · exact fun _ _ _ e he _ => List.mem_map_of_mem he
  · exact fun _ h hh => Or.inr ⟨_, List.mem_singleton_self _, hwhole h hh⟩
  · exact fun _ => ⟨_, List.mem_singleton_self _, hwhole⟩

theorem halves_apart {start point stop : ℕ} (hp : start < point) :
    ¬ Meets ⟨tenant, start, point - 1⟩ ⟨tenant, point, stop⟩ := by
  rintro ⟨h, ha, hb⟩
  have ha := (PartitionKey.contains_iff.mp ha).2
  have hb := (PartitionKey.contains_iff.mp hb).1
  simp only at ha hb
  omega

theorem halves_contain {start point stop h : ℕ} (hs : start ≤ h) (he : h ≤ stop) :
    (⟨tenant, start, point - 1⟩ : PartitionKey).contains h ∨
      (⟨tenant, point, stop⟩ : PartitionKey).contains h := by
  rw [PartitionKey.contains_iff, PartitionKey.contains_iff]
  simp only
  omega

theorem meets_of_half {start point stop : ℕ} {k x : PartitionKey} (hp : start < point)
    (hstop : point ≤ stop) (hx : x = ⟨tenant, start, point - 1⟩ ∨ x = ⟨tenant, point, stop⟩)
    (h : Meets k x) : Meets k ⟨tenant, start, stop⟩ := by
  obtain ⟨y, hk, hy⟩ := h
  refine ⟨y, hk, ?_⟩
  rw [PartitionKey.contains_iff] at hy ⊢
  rcases hx with rfl | rfl
  · simp only at hy ⊢
    omega
  · simp only at hy ⊢
    omega

theorem planSplit_rewrite {point groupA groupB : ℕ} (hno : op.assigns = false)
    (h : c.planSplit op.tenant point groupA groupB = .ok p) :
    ∃ a ks es, Rewrite c op p a ks es := by
  obtain ⟨a, ha, h⟩ := unbind h
  obtain ⟨⟨start, stop⟩, hrange, h⟩ := unbind h
  obtain ⟨hin, h⟩ := check_eq_ok.mp h
  obtain rfl := pure_eq_ok.mp h
  rw [rejectIf_eq_ok, not_not] at hin
  obtain ⟨hstart, hstop⟩ := hin
  set covering := (c.tenantEntries op.tenant).find? fun entry =>
    entry.key.contains point && point > entry.key.rangeStart with hcov
  -- the covering row, when there is one, has exactly the range that is cut
  have hrow : ∀ e, covering = some e → e ∈ c.tenantEntries op.tenant ∧
      e.key = ⟨op.tenant, start, stop⟩ := by
    intro e he
    have hmem := List.mem_of_find?_eq_some (hcov.symm.trans he)
    rw [he] at hrange
    cases hrange
    refine ⟨hmem, ?_⟩
    rw [← (mem_tenantEntries.mp hmem).2.2]
  have hnone : covering = none → c.tenantEntries op.tenant = [] ∧ start = 0 ∧ stop = u64Max := by
    intro he
    rw [he] at hrange
    unfold splitRange at hrange
    split_ifs at hrange with hempty
    cases hrange
    exact ⟨List.isEmpty_iff.mp hempty, rfl, rfl⟩
  refine ⟨a, covering.toList.map (·.key),
    [⟨⟨groupA, a.allocated, .active⟩, ⟨op.tenant, start, point - 1⟩⟩,
      ⟨⟨groupB, a.allocated, .active⟩, ⟨op.tenant, point, stop⟩⟩],
    ha, ?_, ?_, ?_, ?_, ?_, ?_, ?_, ?_, ?_⟩
  · simp only [rewriteMethods, List.map_map]
    rfl
  · intro k hk
    obtain ⟨e, he, rfl⟩ := List.mem_map.mp hk
    exact ⟨e, (hrow e (Option.mem_toList.mp he)).1, rfl⟩
  · intro x hx
    rcases List.mem_cons.mp hx with rfl | hx
    · exact ⟨rfl, rfl, show start ≤ point - 1 by omega⟩
    · obtain rfl := List.mem_singleton.mp hx
      exact ⟨rfl, rfl, hstop⟩
  · intro x hx
    rcases List.mem_cons.mp hx with rfl | hx
    · rfl
    · rw [List.mem_singleton.mp hx]
  · exact List.cons_ne_nil _ _
  · exact List.pairwise_pair.mpr (halves_apart hstart)
  · intro hapart x hx e he hmeets
    have hhalf : x.key = ⟨op.tenant, start, point - 1⟩ ∨ x.key = ⟨op.tenant, point, stop⟩ := by
      rcases List.mem_cons.mp hx with rfl | hx
      · exact Or.inl rfl
      · exact Or.inr (by rw [List.mem_singleton.mp hx])
    have hold := meets_of_half hstart hstop hhalf hmeets
    cases hc : covering with
    | none =>
      rw [(hnone hc).1] at he
      exact absurd he List.not_mem_nil
    | some f =>
      obtain ⟨hf, hkey⟩ := hrow f hc
      rw [← hkey] at hold
      rw [hapart e he f hf hold]
      exact List.mem_singleton_self _
  · intro hwhole h hh
    by_cases hcut : start ≤ h ∧ h ≤ stop
    · right
      rcases halves_contain hcut.1 hcut.2 with hx | hx
      · exact ⟨_, .head _, hx⟩
      · exact ⟨_, .tail _ (List.mem_singleton_self _), hx⟩
    · left
      cases hc : covering with
      | none => exact absurd ⟨by rw [(hnone hc).2.1]; exact Nat.zero_le h,
          by rw [(hnone hc).2.2]; exact hh⟩ hcut
      | some f =>
        obtain ⟨hf, hkey⟩ := hrow f hc
        rcases hwhole with hempty | hwhole
        · rw [hempty] at hf
          exact absurd hf List.not_mem_nil
        obtain ⟨e, he, hcont⟩ := hwhole h hh
        refine ⟨e, he, hcont, fun hmem => hcut ?_⟩
        have hef : e.key = f.key := List.mem_singleton.mp hmem
        rw [hef, hkey] at hcont
        exact PartitionKey.contains_iff.mp hcont
  · intro h
    rw [hno] at h
    cases h

/-- **What a plan that rewrites rows looks like.** -/
theorem plan_rewrite (hr : op.rewrites) (h : op.plan c = .ok p) :
    ∃ a ks es, Rewrite c op p a ks es := by
  cases op with
  | assign t g => exact @planAssign_rewrite c (.assign t g) p g h
  | merge t g => exact @planAssign_rewrite c (.merge t g) p g h
  | split t point a b => exact @planSplit_rewrite c (.split t point a b) p point a b rfl h
  | startMove | fenceCutover | abortMove => cases hr

/-! ### Plans of a move -/

/-- **The plan of a step of a move**: at most one compare-and-set, that keeps the route of its row or
raises it to the epoch allocated. -/
inductive Fenced (c : PlacementCatalog) (op : Operation) (p : PendingWrite) : Prop
  | idle (methods : p.methods = []) (unallocated : p.epochAllocation = none)
  | keeps (e u : PlacementEntry) (row : e ∈ c.tenantEntries op.tenant)
      (methods : p.methods = [.entryCasMethod e u]) (route : u.group = e.group ∧ u.epoch = e.epoch)
      (unallocated : p.epochAllocation = none)
  | raises (e u : PlacementEntry) (a : EpochAllocation) (row : e ∈ c.tenantEntries op.tenant)
      (methods : p.methods = [.entryCasMethod e u]) (allocated : c.nextEpoch = .ok a)
      (epoch : u.epoch = a.allocated ∧ p.epoch = a.allocated) (reserved : p.epochAllocation = some a)

theorem plan_fenced (hr : op.rewrites = false) (h : op.plan c = .ok p) : Fenced c op p := by
  cases op with
  | assign | merge | split => cases hr
  | startMove t range target =>
    obtain ⟨e, he, h⟩ := unbind h
    obtain ⟨hmem, -⟩ := partitionEntry_eq_some (okOr_eq_ok.mp he)
    unfold startMoveWrite at h
    split at h
    · split_ifs at h with hg
      cases h
      exact .keeps e _ hmem rfl ⟨rfl, rfl⟩ rfl
    · split_ifs at h with hg
      cases h
      exact .idle rfl rfl
  | fenceCutover t range target =>
    obtain ⟨a, ha, h⟩ := unbind h
    obtain ⟨e, he, h⟩ := unbind h
    obtain ⟨-, h⟩ := check_eq_ok.mp h
    obtain ⟨hmem, -⟩ := partitionEntry_eq_some (okOr_eq_ok.mp he)
    obtain rfl := pure_eq_ok.mp h
    exact .raises e _ a hmem rfl ha ⟨rfl, rfl⟩ rfl
  | abortMove t range source target epoch =>
    obtain ⟨e, he, h⟩ := unbind h
    obtain ⟨-, h⟩ := check_eq_ok.mp h
    obtain ⟨hmem, -⟩ := partitionEntry_eq_some (okOr_eq_ok.mp he)
    obtain rfl := pure_eq_ok.mp h
    exact .keeps e _ hmem rfl ⟨rfl, rfl⟩ rfl

end Medulla.Placement.Shapes
