import Medulla.Library.Checked
import Medulla.Statechart.Hierarchy

/-! # Legal configurations

A configuration is legal if it is closed under containment, with one top-level state, one child of
every active compound state and all regions of every active parallel one.

* one step: `fire_legal_iff`;
* every run: `configurations_legal_iff`. -/

namespace Medulla.Statechart.Legality

open Library.Checked Library.OrderedTable Library.OrderedSet Library.Containment Definition
open Check Transition Hierarchy

variable {J : Type} [JsonValue J] {chart : StatechartDef J} {x : StateId}
  {active : KeySet StateId} {t : Transition J} {context : Context J} {event : EventInput J}
  {config : Configuration} {selected : List (Transition J)} {u : Transition J}

def IsTopLevel (chart : StatechartDef J) (id : StateId) : Prop :=
  chart.hasState id = true ∧ ∀ s ∈ chart.states, id ∉ s.children

structure LegalConfiguration (chart : StatechartDef J) (active : KeySet StateId) : Prop where
  topLevel : ∃! id, IsTopLevel chart id ∧ has active id = true
  containers : ∀ s ∈ chart.states, ∀ c ∈ s.children, has active c = true → has active s.id = true
  compound : ∀ s ∈ chart.states, has active s.id = true → s.parallel = false → s.children ≠ [] →
    ∃! c, c ∈ s.children ∧ has active c = true
  regions : ∀ s ∈ chart.states, has active s.id = true → s.parallel = true →
    ∀ c ∈ s.children, has active c = true

def leavesRegionsOut (chart : StatechartDef J) (t : Transition J) : Bool :=
  match domainOf chart t with
  | none => false
  | some d => (chart.state d).any fun s => s.parallel && d != t.target &&
      s.children.any fun region => region != t.target && !isProperDescendant chart t.target region

/-! ### Legality on the forest -/

theorem isTopLevel_iff (h : WellFormed chart) {id : StateId} :
    IsTopLevel chart id ↔ chart.hasState id = true ∧ (forest h).parent id = none := by
  rw [Option.eq_none_iff_forall_ne_some]
  refine and_congr_right fun _ => ⟨fun hout p hp => ?_, fun hnone s hs hc => ?_⟩
  · obtain ⟨s, hs, hc⟩ := (parent_iff h).mp hp
    exact hout s (StatechartDef.state_mem hs).1 hc
  · exact hnone s.id ((parent_iff h).mpr ⟨s, (state_eq_some h).mpr ⟨hs, rfl⟩, hc⟩)

theorem orthogonal_iff {id : StateId} {s : State J} (hs : chart.state id = some s) :
    Orthogonal (IsParallel chart) (some id) ↔ s.parallel = true := by
  rw [orthogonal_some, isParallel_iff hs]

section
variable (h : WellFormed chart)
include h

theorem filled_iff_state {id : StateId} {s : State J} {A : Set StateId}
    (hs : chart.state id = some s) :
    Filled (forest h) (IsParallel chart) A (some id) ↔
      (s.parallel = true → ∀ c ∈ s.children, c ∈ A) ∧
        (s.parallel = false → s.children ≠ [] → ∃! c, c ∈ s.children ∧ c ∈ A) := by
  have hex : (∃ c, (forest h).parent c = some id) ↔ s.children ≠ [] := by
    simp only [parent_iff_mem h hs]
    exact ⟨fun hc => hc.elim fun _ => List.ne_nil_of_mem, List.exists_mem_of_ne_nil _⟩
  rw [Filled, orthogonal_iff hs, hex, Bool.not_eq_true]
  simp only [parent_iff_mem h hs]

/-- **The clauses of the definition are legality on the forest.** -/
theorem legalConfiguration_iff (hdeclared : ∀ id ∈ keys active, chart.hasState id = true) :
    LegalConfiguration chart active ↔ Legal (forest h) (IsParallel chart) (keys active) := by
  have hroot : (∃! id, IsTopLevel chart id ∧ has active id = true) ↔
      ∃! c, (forest h).parent c = none ∧ c ∈ keys active := by
    refine existsUnique_congr fun id => ?_
    rw [isTopLevel_iff h]
    constructor
    · rintro ⟨⟨-, hp⟩, hid⟩
      exact ⟨hp, hid⟩
    · rintro ⟨hp, hid⟩
      exact ⟨⟨hdeclared id hid, hp⟩, hid⟩
  constructor
  · rintro ⟨htop, hup, hcompound, hregions⟩
    refine ⟨⟨fun x hx _ p hp => Or.inr ?_, fun x hx _ => ?_⟩,
      fun horth => absurd horth not_orthogonal_none, fun _ _ => hroot.mp htop⟩
    · obtain ⟨s, hs, hc⟩ := (parent_iff h).mp hp
      obtain ⟨hmem, rfl⟩ := StatechartDef.state_mem hs
      exact hup s hmem x hc hx
    · obtain ⟨s, hs⟩ := StatechartDef.exists_state (hdeclared x hx)
      obtain ⟨hmem, rfl⟩ := StatechartDef.state_mem hs
      exact (filled_iff_state h hs).mpr ⟨hregions s hmem hx, hcompound s hmem hx⟩
  · intro hlegal
    have hfilled : ∀ s ∈ chart.states, has active s.id = true → _ := fun s hs hactive =>
      (filled_iff_state h ((state_eq_some h).mpr ⟨hs, rfl⟩)).mp
        (hlegal.1.filled s.id hactive (by simp))
    refine ⟨?_, fun s hs c hc hactive => ?_, fun s hs hactive => (hfilled s hs hactive).2,
      fun s hs hactive => (hfilled s hs hactive).1⟩
    · refine hroot.mpr (hlegal.2.2 not_orthogonal_none ?_)
      obtain ⟨c, hc, -⟩ := exists_child (F := forest h) (x := chart.initial) (o := none) (by simp)
      exact ⟨c, hc⟩
    · exact hlegal.up hactive ((parent_iff h).mpr ⟨s, (state_eq_some h).mpr ⟨hs, rfl⟩, hc⟩)

theorem leavesRegionsOut_iff :
    leavesRegionsOut chart t = true ↔ Tears h (domainOf chart t) t.target := by
  unfold leavesRegionsOut Tears
  cases domainOf chart t with
  | none => simp [not_orthogonal_none]
  | some d =>
    cases hs : chart.state d with
    | none => simp [hs, orthogonal_some, IsParallel]
    | some s =>
      simp only [hs, Option.any_some, Bool.and_eq_true, List.any_eq_true, bne_iff_ne, ne_eq,
        Bool.not_eq_true', Option.some.injEq, orthogonal_iff hs, parent_iff_mem h hs, and_assoc]
      refine and_congr_right fun _ => and_congr_right fun _ => exists_congr fun c =>
        and_congr_right fun _ => ?_
      rw [within_iff, not_or, ← isProperDescendant_iff h, Bool.not_eq_true, eq_comm]

/-! ### Domains and exit sets -/

theorem domainOf_spec {d : StateId} (hd : domainOf chart t = some d) :
    Within (forest h) t.source d ∧ (∃ c, (forest h).parent c = some d) ∧
      (d = t.target ∨ Below (forest h) t.target d) := by
  have hcompound : isCompound chart d = true → ∃ c, (forest h).parent c = some d := by
    intro hc
    obtain ⟨s, hs, hne⟩ := (Option.any_eq_true _ _).mp hc
    obtain ⟨c, hc⟩ := List.exists_mem_of_ne_nil s.children (by simpa using hne)
    exact ⟨c, (parent_iff_mem h hs).mpr hc⟩
  unfold domainOf transitionDomain at hd
  split_ifs at hd with hinner
  · obtain rfl := Option.some.inj hd
    rw [Bool.and_eq_true, isProperDescendant_iff h] at hinner
    exact ⟨Within.refl _, hcompound hinner.1, Or.inr hinner.2⟩
  · have hmem := List.mem_of_find?_eq_some hd
    have hfound := List.find?_some hd
    rw [Bool.and_eq_true, Bool.or_eq_true, beq_iff_eq, isProperDescendant_iff h] at hfound
    exact ⟨((mem_ancestors h).mp hmem).within, hcompound hfound.1, hfound.2⟩

theorem mem_exitSet {o : Option StateId} : has (exitSet chart active o) x = true ↔
      x ∈ keys active ∧ Inside (forest h) x o := by
  cases o with
  | none => simp [exitSet]
  | some d => simp [exitSet, isProperDescendant_iff h]

end

def Apart (h : WellFormed chart) (t u : Transition J) : Prop :=
  ∀ x, ¬ (Inside (forest h) x (domainOf chart t) ∧ Inside (forest h) x (domainOf chart u))

theorem Apart.symm {h : WellFormed chart} (ha : Apart h t u) : Apart h u t :=
  fun x hx => ha x hx.symm

instance (h : WellFormed chart) : Std.Symm (Apart h) := ⟨fun _ _ => Apart.symm⟩

section Selection

variable {u : Transition J}

section
variable (h : WellFormed chart) (hlegal : Legal (forest h) (IsParallel chart) (keys active))
  (ht : has active t.source = true)
include h hlegal ht

theorem domain_active {d : StateId} (hd : domainOf chart t = some d) : d ∈ keys active :=
  hlegal.up_within ht (domainOf_spec h hd).1

theorem exists_exit : ∃ x ∈ keys active, Inside (forest h) x (domainOf chart t) := by
  cases hd : domainOf chart t with
  | none => exact ⟨t.source, ht, by simp⟩
  | some d =>
    obtain ⟨c, hc⟩ := (domainOf_spec h hd).2.1
    have hfilled := hlegal.filled (o := some d) fun d' hd' =>
      Option.some.inj hd' ▸ domain_active h hlegal ht hd
    obtain ⟨c', hc', hactive⟩ := filled_child_exists hfilled hc
    exact ⟨c', hactive, inside_of_parent hc'⟩

theorem apart_of_disjoint (hu : has active u.source = true)
    (hdisjoint : isDisjoint (exitSet chart active (domainOf chart t))
      (exitSet chart active (domainOf chart u)) = true) : Apart h t u := by
  have hno : ∀ x ∈ keys active, Inside (forest h) x (domainOf chart t) →
      ¬ Inside (forest h) x (domainOf chart u) := by
    intro x hx hxt hxu
    have hfalse := isDisjoint_iff.mp hdisjoint x ((mem_exitSet h).mpr ⟨hx, hxt⟩)
    rw [(mem_exitSet h).mpr ⟨hx, hxu⟩] at hfalse
    exact absurd hfalse (by simp)
  rintro x ⟨hxt, hxu⟩
  obtain ⟨y, hy, hyt⟩ := exists_exit h hlegal ht
  obtain ⟨z, hz, hzu⟩ := exists_exit h hlegal hu
  cases hd : domainOf chart t with
  | none => exact hno z hz (by simp [hd]) hzu
  | some d =>
    cases he : domainOf chart u with
    | none => exact hno y hy hyt (by simp [he])
    | some e =>
      rw [hd, inside_some] at hxt hyt
      rw [he, inside_some] at hxu hzu
      rcases within_linear hxt.within hxu.within with hde | hed
      · exact hno y hy (by simpa [hd] using hyt) (by simpa [he] using hyt.trans_within hde)
      · exact hno z hz (by simpa [hd] using hzu.trans_within hed) (by simpa [he] using hzu)

end

end Selection

/-! ### Selected transitions -/

theorem source_of_enabledAt {id : StateId} {i : Nat}
    (hi : enabledAt chart context event id = some i) :
    ∃ t ∈ chart.transitions, chart.transitions[i]? = some t ∧ t.source = id := by
  obtain ⟨hlt, hp, -⟩ := List.findIdx?_eq_some_iff_getElem.mp hi
  rw [Bool.and_eq_true, Bool.and_eq_true, beq_iff_eq] at hp
  exact ⟨_, List.getElem_mem hlt, List.getElem?_eq_getElem hlt, hp.1.1⟩

theorem source_of_selectEnabled (h : WellFormed chart) {i : Nat}
    (hi : has (selectEnabled chart config context event) i = true) :
    ∃ t ∈ chart.transitions, chart.transitions[i]? = some t ∧
      ∃ leaf ∈ config.leaves chart, Within (forest h) leaf t.source := by
  rw [selectEnabled, has_extend] at hi
  rcases hi with hi | hi
  · exact absurd hi (by simp)
  · obtain ⟨leaf, hleaf, hsome⟩ := List.mem_filterMap.mp hi
    obtain ⟨a, ha, henabled⟩ := List.exists_of_findSome?_eq_some hsome
    obtain ⟨t, htmem, hti, rfl⟩ := source_of_enabledAt henabled
    refine ⟨t, htmem, hti, leaf, hleaf, ?_⟩
    rcases List.mem_cons.mp ha with heq | hanc
    · exact heq ▸ Within.refl _
    · exact ((mem_ancestors h).mp hanc).within

theorem mem_keepDisjoint (hu : u ∈ keepDisjoint chart active selected t) :
    u ∈ selected ∨ u = t := by
  unfold keepDisjoint at hu
  split_ifs at hu with hany
  · exact Or.inl hu
  · rcases List.mem_append.mp hu with hu | hu
    · exact Or.inl hu
    · exact Or.inr (List.mem_singleton.mp hu)

theorem mem_foldl_keepDisjoint :
    ∀ {ts selected : List (Transition J)}, u ∈ ts.foldl (keepDisjoint chart active) selected →
      u ∈ selected ∨ u ∈ ts
  | [], _, hu => Or.inl hu
  | t :: ts, selected, hu => by
    rcases mem_foldl_keepDisjoint (List.foldl_cons .. ▸ hu) with hu | hu
    · rcases mem_keepDisjoint hu with hu | rfl
      · exact Or.inl hu
      · exact Or.inr (.head _)
    · exact Or.inr (.tail _ hu)

theorem pairwise_foldl_keepDisjoint {R : Transition J → Transition J → Prop} :
    ∀ {ts selected : List (Transition J)},
      (∀ t ∈ ts, ∀ u ∈ selected ++ ts, isDisjoint (exitSet chart active (domainOf chart t))
        (exitSet chart active (domainOf chart u)) = true → R u t) →
      selected.Pairwise R → (ts.foldl (keepDisjoint chart active) selected).Pairwise R
  | [], _, _, hselected => hselected
  | t :: ts, selected, hR, hselected => by
    rw [List.foldl_cons]
    refine pairwise_foldl_keepDisjoint (fun t' ht' u hu => ?_) ?_
    · refine hR t' (.tail _ ht') u ?_
      rcases List.mem_append.mp hu with hu | hu
      · rcases mem_keepDisjoint hu with hu | rfl
        · exact List.mem_append_left _ hu
        · exact List.mem_append_right _ (.head _)
      · exact List.mem_append_right _ (.tail _ hu)
    · unfold keepDisjoint
      split_ifs with hany
      · exact hselected
      · refine List.pairwise_append.mpr ⟨hselected, List.pairwise_singleton _ _, ?_⟩
        intro u hu t' ht'
        obtain rfl := List.mem_singleton.mp ht'
        refine hR t' (.head _) u (List.mem_append_left _ hu) ?_
        rw [List.any_eq_true, not_exists] at hany
        simpa [hu] using hany u

theorem firing_spec (h : WellFormed chart)
    (hlegal : Legal (forest h) (IsParallel chart) (keys config.active)) (context : Context J)
    (event : EventInput J) :
    (∀ t ∈ firing chart config context event,
      t ∈ chart.transitions ∧ has config.active t.source = true) ∧
      (firing chart config context event).Pairwise (Apart h) := by
  have hcandidate : ∀ t ∈ (elems (selectEnabled chart config context event)).filterMap
      (fun i => chart.transitions[i]?), t ∈ chart.transitions ∧ has config.active t.source = true := by
    intro t ht
    obtain ⟨i, hi, hti⟩ := List.mem_filterMap.mp ht
    obtain ⟨t', ht', hti', leaf, hleaf, hwithin⟩ := source_of_selectEnabled h (mem_elems.mp hi)
    obtain rfl := Option.some.inj (hti.symm.trans hti')
    exact ⟨ht', hlegal.up_within (mem_elems.mp (List.mem_filter.mp hleaf).1) hwithin⟩
  refine ⟨fun t ht => ?_, ?_⟩
  · rcases mem_foldl_keepDisjoint ht with ht | ht
    · exact absurd ht List.not_mem_nil
    · exact hcandidate t ht
  · refine pairwise_foldl_keepDisjoint (fun t ht u hu hdisjoint => ?_) List.Pairwise.nil
    exact (apart_of_disjoint h hlegal (hcandidate t ht).2 (hcandidate u hu).2 hdisjoint).symm

/-! ### Exits and entries -/

theorem has_exitPlan : ∀ {selected : List (Transition J)} {all : KeySet StateId},
      has (selected.foldl
        (fun all t => extend all (elems (exitSet chart active (domainOf chart t)))) all) x = true ↔
      has all x = true ∨ ∃ t ∈ selected, has (exitSet chart active (domainOf chart t)) x = true
  | [], all => by simp
  | t :: selected, all => by
    rw [List.foldl_cons, has_exitPlan, has_extend, mem_elems]
    simp only [List.exists_mem_cons_iff, or_assoc]

theorem has_foldl_leave : ∀ {ids : List StateId} {w : Walk J},
    has (ids.foldl (Walk.leave chart) w).active x = true ↔ has w.active x = true ∧ x ∉ ids
  | [], w => by simp
  | id :: ids, w => by
    rw [List.foldl_cons, has_foldl_leave, Walk.leave, has_remove, List.mem_cons, not_or]
    tauto

theorem mem_runExits (h : WellFormed chart) :
    x ∈ keys (runExits chart (exitPlan chart active selected) ⟨active, []⟩).active ↔
      x ∈ keys active ∧ ∀ t ∈ selected, ¬ Inside (forest h) x (domainOf chart t) := by
  rw [mem_keys, runExits, has_foldl_leave, List.mem_insertionSort, mem_elems, exitPlan, has_exitPlan]
  simp only [has_empty, Bool.false_eq_true, false_or, mem_exitSet h, not_exists, not_and]
  exact and_congr_right fun hx => forall_congr' fun t => imp_congr_right fun _ =>
    ⟨fun hnot => hnot hx, fun hnot _ => hnot⟩

theorem domainOf_target (h : WellFormed chart) (t : Transition J) :
    domainOf chart t = some t.target ∨ Inside (forest h) t.target (domainOf chart t) := by
  cases hd : domainOf chart t with
  | none => exact Or.inr (by simp)
  | some d => exact (domainOf_spec h hd).2.2.imp (congrArg some) inside_some.mpr

theorem foldl_enterToTarget (h : WellFormed chart) (history : Table StateId (KeySet StateId)) :
    ∀ {selected : List (Transition J)} {w : Walk J}, selected.Pairwise (Apart h) →
      (∀ t ∈ selected, t ∈ chart.transitions) →
      (∀ t ∈ selected, ∀ d, domainOf chart t = some d → d ∈ keys w.active) →
      (∀ t ∈ selected, ∀ x ∈ keys w.active, ¬ Inside (forest h) x (domainOf chart t)) →
      (∀ x ∈ keys w.active, chart.hasState x = true) →
      let B := keys (selected.foldl
        (fun w t => enterToTarget chart history (domainOf chart t) t.target w) w).active
      keys w.active ⊆ B ∧
        (∀ x ∈ B, x ∈ keys w.active ∨ ∃ t ∈ selected, Inside (forest h) x (domainOf chart t)) ∧
        (∀ x ∈ B, chart.hasState x = true) ∧
        ∀ t ∈ selected, Grown (forest h) (IsParallel chart) B (domainOf chart t) ∧
          (Filled (forest h) (IsParallel chart) B (domainOf chart t) ↔
            ¬ Tears h (domainOf chart t) t.target)
  | [], w, _, _, _, _, hdeclared =>
    ⟨subset_rfl, fun _ hx => Or.inl hx, hdeclared, fun _ ht => absurd ht List.not_mem_nil⟩
  | t :: selected, w, hapart, hmem, hactive, hout, hdeclared => by
    obtain ⟨hfirst, hrest⟩ := List.pairwise_cons.mp hapart
    have htarget := h.target t (hmem t (.head _))
    have hin := domainOf_target h t
    obtain ⟨hregrown, hfilled⟩ := enterToTarget_regrown h history htarget hin
      (hactive t (.head _)) (hout t (.head _))
    have hdeclared' := enterToTarget_declared h history htarget hin (hout t (.head _))
      hdeclared
    -- the other domains are still empty inside
    obtain ⟨hmono, honly, hstates, heach⟩ := foldl_enterToTarget h history hrest
      (fun u hu => hmem u (.tail _ hu))
      (fun u hu d hd => hregrown.mono (hactive u (.tail _ hu) d hd))
      (fun u hu x hx hxu => by
        rcases hregrown.only x hx with hold | hxt
        · exact hout u (.tail _ hu) x hold hxu
        · exact hfirst u hu x ⟨hxt, hxu⟩)
      hdeclared'
    refine ⟨hregrown.mono.trans hmono, fun x hx => ?_, hstates, fun u hu => ?_⟩
    · rcases honly x hx with hx | ⟨u, hu, hxu⟩
      · rcases hregrown.only x hx with hold | hxt
        · exact Or.inl hold
        · exact Or.inr ⟨t, .head _, hxt⟩
      · exact Or.inr ⟨u, .tail _ hu, hxu⟩
    · rcases List.mem_cons.mp hu with rfl | hu
      · -- and this one is not touched again
        have hinside : ∀ x, Inside (forest h) x (domainOf chart u) →
            (x ∈ keys (enterToTarget chart history (domainOf chart u) u.target w).active ↔
              x ∈ keys (selected.foldl (fun w t => enterToTarget chart history (domainOf chart t)
                t.target w) (enterToTarget chart history (domainOf chart u) u.target w)).active) := by
          intro x hxu
          refine ⟨fun hx => hmono hx, fun hx => ?_⟩
          rcases honly x hx with hold | ⟨v, hv, hxv⟩
          · exact hold
          · exact absurd ⟨hxu, hxv⟩ (hfirst v hv x)
        refine ⟨hregrown.grown.congr hinside, Iff.trans ?_ hfilled⟩
        exact (filled_congr fun c hc => hinside c (inside_of_parent hc)).symm
      · exact heach u hu

/-! ### Steps -/

theorem domainOf_apart {h : WellFormed chart} (hpairwise : selected.Pairwise (Apart h))
    {t u : Transition J} (ht : t ∈ selected) (hu : u ∈ selected) {x : StateId}
    (hxt : Inside (forest h) x (domainOf chart t)) (hxu : Inside (forest h) x (domainOf chart u)) :
    domainOf chart t = domainOf chart u := by
  by_cases heq : t = u
  · rw [heq]
  · have hall := hpairwise.forall ht hu heq
    exact absurd ⟨hxt, hxu⟩ (hall x)

theorem domainOf_child (h : WellFormed chart) (t : Transition J) :
    ∃ c, (forest h).parent c = domainOf chart t := by
  cases hd : domainOf chart t with
  | some d => exact (domainOf_spec h hd).2.1
  | none =>
    obtain ⟨c, hc, -⟩ := exists_child (F := forest h) (x := t.source) (o := none) (by simp)
    exact ⟨c, hc⟩

theorem domain_kept (h : WellFormed chart)
    (hlegal : Legal (forest h) (IsParallel chart) (keys config.active))
    (hspec : ∀ t ∈ selected, t ∈ chart.transitions ∧ has config.active t.source = true)
    (hpairwise : selected.Pairwise (Apart h)) :
    ∀ t ∈ selected, ∀ d, domainOf chart t = some d →
      d ∈ keys (runExits chart (exitPlan chart config.active selected) ⟨config.active, []⟩).active := by
  intro t ht d hd
  refine (mem_runExits h).mpr ⟨domain_active h hlegal (hspec t ht).2 hd, fun u hu hin => ?_⟩
  obtain ⟨c, hc⟩ := domainOf_child h t
  rw [hd] at hc
  have heq := domainOf_apart hpairwise ht hu (x := c) (by rw [hd]; exact inside_of_parent hc)
    (inside_of_inside_parent hc hin)
  rw [← heq, hd] at hin
  exact not_inside_self hin

/-- **Firing keeps a configuration legal exactly if no transition leaves regions out.** -/
theorem fire_legal_iff (h : WellFormed chart)
    (hdeclared : ∀ x ∈ keys config.active, chart.hasState x = true)
    (hlegal : Legal (forest h) (IsParallel chart) (keys config.active))
    (hspec : ∀ t ∈ selected, t ∈ chart.transitions ∧ has config.active t.source = true)
    (hpairwise : selected.Pairwise (Apart h)) :
    (∀ x ∈ keys (fire chart config selected).1.active, chart.hasState x = true) ∧
    (Legal (forest h) (IsParallel chart) (keys (fire chart config selected).1.active) ↔
      ∀ t ∈ selected, leavesRegionsOut chart t = false) := by
  have hapart : ∀ t ∈ selected, ∀ u ∈ selected, ∀ x, Inside (forest h) x (domainOf chart t) →
      Inside (forest h) x (domainOf chart u) → domainOf chart t = domainOf chart u :=
    fun t ht u hu x => domainOf_apart hpairwise ht hu
  have hactive : ∀ t ∈ selected, ∀ d, domainOf chart t = some d → d ∈ keys config.active :=
    fun t ht d hd => domain_active h hlegal (hspec t ht).2 hd
  obtain ⟨hmono, honly, hstates, heach⟩ := foldl_enterToTarget h
    (recordHistory chart config.history (exitPlan chart config.active selected) config.active)
    (w := ⟨(runExits chart (exitPlan chart config.active selected) ⟨config.active, []⟩).active,
      (runExits chart (exitPlan chart config.active selected) ⟨config.active, []⟩).actions ++
        selected.flatMap Transition.actions⟩)
    hpairwise (fun t ht => (hspec t ht).1) (domain_kept h hlegal hspec hpairwise)
    (fun t ht x hx => ((mem_runExits h).mp hx).2 t ht)
    (fun x hx => hdeclared x ((mem_runExits h).mp hx).1)
  refine ⟨hstates, ?_⟩
  have hiff := legal_iff_filled (D := {o | ∃ t ∈ selected, domainOf chart t = o})
    (B := keys (fire chart config selected).1.active) hlegal ?_ ?_ ?_ ?_ ?_
  · rw [hiff]
    constructor
    · intro hfilled t ht
      rw [← Bool.not_eq_true, leavesRegionsOut_iff h, ← (heach t ht).2]
      exact hfilled _ ⟨t, ht, rfl⟩
    · rintro hnot o ⟨t, ht, rfl⟩
      refine (heach t ht).2.mpr ?_
      rw [← leavesRegionsOut_iff h, Bool.not_eq_true]
      exact hnot t ht
  · rintro o ⟨t, ht, rfl⟩ d hd
    exact hactive t ht d hd
  · rintro o ⟨t, ht, rfl⟩ o' ⟨u, hu, rfl⟩ x hxt hxu
    exact hapart t ht u hu x hxt hxu
  · rintro o ⟨t, ht, rfl⟩
    exact domainOf_child h t
  · intro x hx
    have hout : ∀ t ∈ selected, ¬ Inside (forest h) x (domainOf chart t) :=
      fun t ht => hx _ ⟨t, ht, rfl⟩
    constructor
    · intro hxB
      rcases honly x hxB with hold | ⟨t, ht, hxt⟩
      · exact ((mem_runExits h).mp hold).1
      · exact absurd hxt (hout t ht)
    · intro hxA
      exact hmono ((mem_runExits h).mpr ⟨hxA, hout⟩)
  · rintro o ⟨t, ht, rfl⟩
    exact (heach t ht).1

theorem find_undeclared (hdeclared : ∀ x ∈ keys config.active, chart.hasState x = true) :
    ((elems config.active).find? fun id => !chart.hasState id) = none := by
  rw [List.find?_eq_none]
  intro id hid
  simpa using hdeclared id (mem_elems.mp hid)

theorem step_spec (h : WellFormed chart) (context : Context J)
    (hevent : event.name ∈ chart.alphabet)
    (hdeclared : ∀ x ∈ keys config.active, chart.hasState x = true)
    (hlegal : LegalConfiguration chart config.active) :
    ∃ out, step chart config context event = .ok out ∧
      (∀ x ∈ keys out.next.active, chart.hasState x = true) ∧
      (LegalConfiguration chart out.next.active ↔
        ∀ t ∈ firing chart config context event, leavesRegionsOut chart t = false) := by
  have hforest := (legalConfiguration_iff h hdeclared).mp hlegal
  obtain ⟨hspec, hpairwise⟩ := firing_spec h hforest context event
  obtain ⟨hdeclared', hiff⟩ := fire_legal_iff h hdeclared hforest hspec hpairwise
  unfold step
  rw [if_pos (StatechartDef.inAlphabet_iff.mpr hevent), find_undeclared hdeclared]
  cases hfiring : firing chart config context event with
  | nil => exact ⟨_, rfl, hdeclared, by simp [hlegal]⟩
  | cons t selected =>
    rw [hfiring] at hdeclared' hiff
    exact ⟨_, rfl, hdeclared', (legalConfiguration_iff h hdeclared').trans hiff⟩

theorem instantiate_spec (h : WellFormed chart) (context : Context J) :
    ∃ config context', instantiate chart context = .ok (config, context') ∧
      (∀ x ∈ keys config.active, chart.hasState x = true) ∧
      (LegalConfiguration chart config.active ↔ IsTopLevel chart chart.initial) := by
  obtain ⟨s, hs⟩ := StatechartDef.exists_state h.initial
  have hout : ∀ y ∈ keys (Table.empty : KeySet StateId), ¬ Inside (forest h) y none := by
    intro y hy
    exact absurd hy (by simp)
  have hplanted := enterFull_enters h Table.empty h.initial ⟨Table.empty, []⟩ fun x hx =>
    absurd hx (by simp)
  have hdeclared : ∀ x ∈ keys (enterFull chart Table.empty (entryFuel chart) chart.initial
      ⟨Table.empty, []⟩).active, chart.hasState x = true := by
    intro x hx
    rcases hplanted.only x hx with hold | hwithin
    · exact absurd hold (by simp)
    · exact hasState_of_within h h.initial hwithin
  refine ⟨⟨_, Table.empty⟩, applyAll context (enterFull chart Table.empty (entryFuel chart)
    chart.initial ⟨Table.empty, []⟩).actions (EventInput.new "__init__"), ?_, hdeclared, ?_⟩
  · rw [instantiate, initialConfiguration, hs]
    rfl
  · rw [legalConfiguration_iff h hdeclared, isTopLevel_iff h, and_iff_right h.initial]
    constructor
    · intro hlegal
      cases hp : (forest h).parent chart.initial with
      | none => rfl
      | some p =>
        rcases hplanted.only p (hlegal.up hplanted.root hp) with hold | hwithin
        · exact absurd hold (by simp)
        · exact absurd (below_of_parent hp) (not_below_of_within hwithin)
    · intro hp
      refine ⟨(hplanted.regrown hout hp).grown, (hplanted.filled_iff hout hp).mpr ?_⟩
      exact fun horth => not_orthogonal_none horth.1

/-! ### Runs -/

theorem run_append (context : Context J) (events : List (EventInput J)) (event : EventInput J) :
    run chart context (events ++ [event]) = (run chart context events).bind (advance chart · event) := by
  unfold run
  cases instantiate chart context with
  | error e => rfl
  | ok reached =>
    change (events ++ [event]).foldlM (advance chart) reached = _
    rw [List.foldlM_append]
    change _ = Except.bind (events.foldlM (advance chart) reached) (advance chart · event)
    cases events.foldlM (advance chart) reached with
    | error e => rfl
    | ok next =>
      change (advance chart next event).bind pure = advance chart next event
      cases advance chart next event <;> rfl

def KeepsRegions (chart : StatechartDef J) (context : Context J) (events : List (EventInput J)) :
    Prop :=
  ∀ before event, before ++ [event] <+: events → ∀ config context',
    run chart context before = .ok (config, context') →
      ∀ t ∈ firing chart config context' event, leavesRegionsOut chart t = false

theorem run_append_spec (h : WellFormed chart) {context' : Context J} {before : List (EventInput J)}
    (hevent : event.name ∈ chart.alphabet)
    (hrun : run chart context before = .ok (config, context'))
    (hdeclared : ∀ x ∈ keys config.active, chart.hasState x = true)
    (hlegal : LegalConfiguration chart config.active) :
    ∃ next context'', run chart context (before ++ [event]) = .ok (next, context'') ∧
      (∀ x ∈ keys next.active, chart.hasState x = true) ∧
      (LegalConfiguration chart next.active ↔
        ∀ t ∈ firing chart config context' event, leavesRegionsOut chart t = false) := by
  obtain ⟨out, hstep, hnext, hiff⟩ := step_spec h context' hevent hdeclared hlegal
  refine ⟨out.next, out.nextContext, ?_, hnext, hiff⟩
  rw [run_append, hrun]
  change (step chart config context' event).map _ = _
  rw [hstep]
  rfl

/-- **Every configuration of a run is legal exactly if the initial state is top-level and no firing
transition leaves regions of a parallel domain out.** -/
theorem configurations_legal_iff {report : CompletenessReport} (hvalid : validate chart = .ok report)
    (context : Context J) (events : List (EventInput J))
    (hevents : ∀ event ∈ events, event.name ∈ chart.alphabet) :
    (∀ before, before <+: events → ∃ config context',
      run chart context before = .ok (config, context') ∧ LegalConfiguration chart config.active) ↔
      IsTopLevel chart chart.initial ∧ KeepsRegions chart context events := by
  have h := wellFormed_of_validate hvalid
  obtain ⟨config₀, context₀, hrun₀, hdeclared₀, hlegal₀⟩ := instantiate_spec h context
  have hstart : run chart context [] = .ok (config₀, context₀) := by
    rw [run, hrun₀]
    rfl
  have hlast : ∀ {before event}, before ++ [event] <+: events → event.name ∈ chart.alphabet :=
    fun hpre => hevents _ (hpre.subset (List.mem_append_right _ (.head _)))
  constructor
  · intro hall
    -- along a legal run all active states are declared
    have hreach : ∀ before, before <+: events → ∃ config context',
        run chart context before = .ok (config, context') ∧
          (∀ x ∈ keys config.active, chart.hasState x = true) ∧
          LegalConfiguration chart config.active := by
      intro before
      induction before using List.reverseRecOn with
      | nil =>
        intro hpre
        obtain ⟨config, context', hrun, hlegal⟩ := hall [] hpre
        obtain ⟨rfl, rfl⟩ := Prod.mk.inj (Except.ok.inj (hstart.symm.trans hrun))
        exact ⟨_, _, hrun, hdeclared₀, hlegal⟩
      | append_singleton before event ih =>
        intro hpre
        obtain ⟨config, context', hrun, hdeclared, hlegal⟩ :=
          ih ((List.prefix_append _ _).trans hpre)
        obtain ⟨next, context'', hnext, hdeclared', -⟩ :=
          run_append_spec h (hlast hpre) hrun hdeclared hlegal
        obtain ⟨next', _, hnext', hlegal'⟩ := hall _ hpre
        obtain ⟨rfl, rfl⟩ := Prod.mk.inj (Except.ok.inj (hnext.symm.trans hnext'))
        exact ⟨_, _, hnext, hdeclared', hlegal'⟩
    refine ⟨?_, fun before event hpre config context' hrun => ?_⟩
    · obtain ⟨config, context', hrun, -, hlegal⟩ := hreach [] (List.nil_prefix)
      obtain ⟨rfl, rfl⟩ := Prod.mk.inj (Except.ok.inj (hstart.symm.trans hrun))
      exact hlegal₀.mp hlegal
    · obtain ⟨config₁, _, hrun₁, hdeclared, hlegal⟩ :=
        hreach before ((List.prefix_append _ _).trans hpre)
      obtain ⟨rfl, rfl⟩ := Prod.mk.inj (Except.ok.inj (hrun₁.symm.trans hrun))
      obtain ⟨next, context'', hnext, -, hiff⟩ :=
        run_append_spec h (hlast hpre) hrun hdeclared hlegal
      obtain ⟨next', _, hnext', -, hlegal'⟩ := hreach _ hpre
      obtain ⟨rfl, rfl⟩ := Prod.mk.inj (Except.ok.inj (hnext.symm.trans hnext'))
      exact hiff.mp hlegal'
  · rintro ⟨htop, hkeeps⟩
    have hreach : ∀ before, before <+: events → ∃ config context',
        run chart context before = .ok (config, context') ∧
          (∀ x ∈ keys config.active, chart.hasState x = true) ∧
          LegalConfiguration chart config.active := by
      intro before
      induction before using List.reverseRecOn with
      | nil => exact fun _ => ⟨config₀, context₀, hstart, hdeclared₀, hlegal₀.mpr htop⟩
      | append_singleton before event ih =>
        intro hpre
        obtain ⟨config, context', hrun, hdeclared, hlegal⟩ :=
          ih ((List.prefix_append _ _).trans hpre)
        obtain ⟨next, context'', hnext, hdeclared', hiff⟩ :=
          run_append_spec h (hlast hpre) hrun hdeclared hlegal
        exact ⟨next, context'', hnext, hdeclared', hiff.mpr (hkeeps _ _ hpre _ _ hrun)⟩
    intro before hpre
    obtain ⟨config, context', hrun, -, hlegal⟩ := hreach before hpre
    exact ⟨config, context', hrun, hlegal⟩

/-! ### Charts -/

instance : JsonValue (Option Int) where
  F64 := Int
  null := none
  eq a b := a == b
  field _ _ := none
  asF64 := id
  lt a b := decide (a < b)
  le a b := decide (a ≤ b)

/-- A parallel state with two regions, a transition inside the first one, and one from the first
region to the second. -/
def regionsChart : StatechartDef (Option Int) where
  states := [{ id := "p", children := ["r1", "r2"], parallel := true },
    { id := "r1", children := ["a1", "a2"], initialChild := some "a1" }, { id := "a1" },
    { id := "a2" }, { id := "r2", children := ["b1", "b2"], initialChild := some "b1" },
    { id := "b1" }, { id := "b2" }]
  alphabet := ["next", "cross"]
  transitions := [{ source := "a1", event := "next", target := "a2" },
    { source := "a2", event := "cross", target := "b2" }]
  initial := "p"

def nestedChart : StatechartDef (Option Int) where
  states := [{ id := "outer", children := ["inner"] }, { id := "inner" }]
  alphabet := ["up"]
  transitions := [{ source := "inner", event := "up", target := "outer" }]
  initial := "inner"

theorem accepted {chart : StatechartDef (Option Int)} (h : (validate chart).isOk = true) :
    ∃ report, validate chart = .ok report := by
  cases hreport : validate chart with
  | error e => simp [hreport, Except.toBool] at h
  | ok report => exact ⟨report, rfl⟩

/-- The run that stays inside one region is legal throughout. -/
theorem configurations_legal_regionsChart : (∃ report, validate regionsChart = .ok report) ∧
      ∀ before, before <+: [EventInput.new "next"] → ∃ config context',
        run regionsChart Table.empty before = .ok (config, context') ∧
          LegalConfiguration regionsChart config.active := by
  obtain ⟨report, hvalid⟩ := accepted (show (validate regionsChart).isOk = true by decide +kernel)
  refine ⟨⟨report, hvalid⟩, ?_⟩
  refine (configurations_legal_iff hvalid Table.empty [EventInput.new "next"] (by decide)).mpr
    ⟨⟨by decide, by decide⟩, fun before event hpre config context' hrun => ?_⟩
  obtain ⟨rfl, rfl⟩ : before = [] ∧ event = EventInput.new "next" := by
    have hlen := hpre.length_le
    cases before with
    | nil => exact ⟨rfl, by simpa using hpre⟩
    | cons e es => simp at hlen
  obtain ⟨a, ha, hnone⟩ := exists_ok_of_any (r := run regionsChart Table.empty [])
    (p := fun reached => (firing regionsChart reached.1 reached.2 (EventInput.new "next")).all
      fun t => !leavesRegionsOut regionsChart t) (by decide +kernel)
  obtain rfl := Except.ok.inj (ha.symm.trans hrun)
  simpa using hnone

/-- **Accepted charts reach illegal configurations**: by crossing from one region to another, and
by a nested initial state. -/
theorem crossing_leaves_region_inactive : (∃ report, validate regionsChart = .ok report) ∧
      (∃ config context', run regionsChart Table.empty [.new "next", .new "cross"] =
        .ok (config, context') ∧ ¬ LegalConfiguration regionsChart config.active) ∧
      (∃ report, validate nestedChart = .ok report) ∧
      ∃ config context', run nestedChart Table.empty [] = .ok (config, context') ∧
        ¬ LegalConfiguration nestedChart config.active := by
  refine ⟨?_, ?_, ?_, ?_⟩
  · exact accepted (show (validate regionsChart).isOk = true by decide +kernel)
  · obtain ⟨⟨config, context'⟩, hrun, hactive⟩ := exists_ok_of_any
      (r := run regionsChart Table.empty [.new "next", .new "cross"])
      (p := fun reached => has reached.1.active "p" && !has reached.1.active "r1")
      (by decide +kernel)
    refine ⟨config, context', hrun, fun hlegal => ?_⟩
    rw [Bool.and_eq_true, Bool.not_eq_true'] at hactive
    have hregion := hlegal.regions _ (.head _) hactive.1 rfl "r1" (by decide)
    rw [hactive.2] at hregion
    exact absurd hregion (by simp)
  · exact accepted (show (validate nestedChart).isOk = true by decide +kernel)
  · obtain ⟨⟨config, context'⟩, hrun, hactive⟩ := exists_ok_of_any
      (r := run nestedChart Table.empty [])
      (p := fun reached => has reached.1.active "inner" && !has reached.1.active "outer")
      (by decide +kernel)
    refine ⟨config, context', hrun, fun hlegal => ?_⟩
    rw [Bool.and_eq_true, Bool.not_eq_true'] at hactive
    have hcontainer := hlegal.containers _ (.head _) "inner" (by decide) hactive.1
    rw [hactive.2] at hcontainer
    exact absurd hcontainer (by simp)

end Medulla.Statechart.Legality
