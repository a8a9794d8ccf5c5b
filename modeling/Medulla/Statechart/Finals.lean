import Medulla.Statechart.Legality

/-! # Final configurations

A final state has no transitions of its own, but an event is offered to every active leaf and passed on
to its containers. Which states may be active beside a final one is decided by the containment alone,
in legal configurations and in others.

## Main results

- `run_standing`: the active states of every run stand together.
- `final_stays`: a run stays in a configuration with a final state that no transition starts beside. -/

namespace Medulla.Statechart.Finals

open Library.Checked Library.OrderedTable Library.OrderedSet Library.Containment Definition
open Check Transition Hierarchy Legality

variable {J : Type} [JsonValue J] {chart : StatechartDef J} {config : Configuration}
  {context context' : Context J} {event : EventInput J} {t u : Transition J} {x y : StateId}

/-! ### States that stand together -/

/-- The state is the other one or lies inside it. -/
def isWithin (chart : StatechartDef J) (id ancestor : StateId) : Bool :=
  id == ancestor || isProperDescendant chart id ancestor

/-- **Two states stand beside each other**: one contains the other, or they lie in different regions
of a parallel state. -/
def isBeside (chart : StatechartDef J) (x y : StateId) : Bool :=
  isWithin chart x y || isWithin chart y x || chart.states.any fun p => p.parallel &&
    p.children.any fun b => p.children.any fun c => b != c && isWithin chart x b && isWithin chart y c

theorem isWithin_iff (h : WellFormed chart) :
    isWithin chart x y = true ↔ Within (forest h) x y := by
  rw [isWithin, Bool.or_eq_true, beq_iff_eq, isProperDescendant_iff h, within_iff]

theorem isBeside_iff (h : WellFormed chart) :
    isBeside chart x y = true ↔ Together (forest h) (IsParallel chart) x y := by
  unfold isBeside Together
  simp only [Bool.or_eq_true, isWithin_iff h, or_assoc, List.any_eq_true, Bool.and_eq_true,
    bne_iff_ne]
  refine or_congr_right (or_congr_right ⟨?_, ?_⟩)
  · rintro ⟨s, hs, hpar, b, hb, c, hc, ⟨hne, hx⟩, hy⟩
    have hstate : chart.state s.id = some s := (state_eq_some h).mpr ⟨hs, rfl⟩
    exact ⟨s.id, b, c, (isParallel_iff hstate).mpr hpar, (parent_iff_mem h hstate).mpr hb,
      (parent_iff_mem h hstate).mpr hc, hne, hx, hy⟩
  · rintro ⟨p, b, c, ⟨s, hs, hpar⟩, hb, hc, hne, hx, hy⟩
    exact ⟨s, (StatechartDef.state_mem hs).1, hpar, b, (parent_iff_mem h hs).mp hb, c,
      (parent_iff_mem h hs).mp hc, ⟨hne, hx⟩, hy⟩

/-- The active states are declared and stand together. -/
structure Standing (h : WellFormed chart) (active : KeySet StateId) : Prop where
  declared : ∀ x ∈ keys active, chart.hasState x = true
  together : Consistent (forest h) (IsParallel chart) (keys active)

/-! ### The domains of firing transitions -/

/-- An enabled transition leaves an active leaf. -/
theorem enabled_leaves (h : WellFormed chart)
    (ht : t ∈ (elems (selectEnabled chart config context event)).filterMap
      fun i => chart.transitions[i]?) :
    t ∈ chart.transitions ∧
      ∃ leaf ∈ keys config.active, Inside (forest h) leaf (domainOf chart t) := by
  obtain ⟨i, hi, hti⟩ := List.mem_filterMap.mp ht
  obtain ⟨t', htmem, hti', leaf, hleaf, hwithin⟩ := source_of_selectEnabled h (mem_elems.mp hi)
  obtain rfl := Option.some.inj (hti.symm.trans hti')
  obtain ⟨hactive, hempty⟩ := List.mem_filter.mp hleaf
  refine ⟨htmem, leaf, mem_elems.mp hactive, ?_⟩
  cases hd : domainOf chart t with
  | none => exact inside_none.mpr trivial
  | some d =>
    obtain ⟨hsource, ⟨c, hc⟩, -⟩ := domainOf_spec h hd
    rcases within_iff.mp (hwithin.trans hsource) with rfl | hbelow
    · -- the domain has children, the leaf has none
      obtain ⟨s, hs, hmem⟩ := (parent_iff h).mp hc
      rw [hs] at hempty
      simp only [Option.map_some, Option.getD_some, List.isEmpty_iff] at hempty
      simp [hempty] at hmem
    · exact inside_some.mpr hbelow

theorem firing_leaves (h : WellFormed chart) (ht : t ∈ firing chart config context event) :
    t ∈ chart.transitions ∧
      ∃ leaf ∈ keys config.active, Inside (forest h) leaf (domainOf chart t) :=
  enabled_leaves h ((mem_foldl_keepDisjoint ht).resolve_left List.not_mem_nil)

/-- What stands within the first domain is outside the second, and stands together with all of it. -/
def Separate (h : WellFormed chart) (t u : Transition J) : Prop :=
  ∃ d e, domainOf chart t = some d ∧ domainOf chart u = some e ∧ ∀ x, Within (forest h) x d →
    ¬ Below (forest h) x e ∧
      ∀ y, Within (forest h) y e → Together (forest h) (IsParallel chart) x y

theorem separate_of_disjoint (h : WellFormed chart) {active : KeySet StateId}
    (hactive : Consistent (forest h) (IsParallel chart) (keys active))
    (ht : ∃ x ∈ keys active, Inside (forest h) x (domainOf chart t))
    (hu : ∃ x ∈ keys active, Inside (forest h) x (domainOf chart u))
    (hdisjoint : isDisjoint (exitSet chart active (domainOf chart t))
      (exitSet chart active (domainOf chart u)) = true) : Separate h u t := by
  obtain ⟨y, hy, hyt⟩ := ht
  obtain ⟨z, hz, hzu⟩ := hu
  have hno : ∀ x ∈ keys active, Inside (forest h) x (domainOf chart t) →
      ¬ Inside (forest h) x (domainOf chart u) := by
    intro x hx hxt hxu
    have hfalse := isDisjoint_iff.mp hdisjoint x ((mem_exitSet h).mpr ⟨hx, hxt⟩)
    rw [(mem_exitSet h).mpr ⟨hx, hxu⟩] at hfalse
    exact absurd hfalse (by simp)
  cases hd : domainOf chart t with
  | none => exact absurd hzu (hno z hz (by simp [hd]))
  | some d =>
    cases he : domainOf chart u with
    | none => exact absurd (by simp [he]) (hno y hy hyt)
    | some e =>
      rw [hd, inside_some] at hyt
      rw [he, inside_some] at hzu
      simp only [hd, he, inside_some] at hno
      -- a state within both domains puts one of them inside the other
      have hapart : ∀ x, Within (forest h) x d → ¬ Within (forest h) x e := by
        intro x hxd hxe
        rcases within_linear hxd hxe with hde | hed
        · exact hno y hy hyt (hyt.trans_within hde)
        · exact hno z hz (hzu.trans_within hed) hzu
      refine ⟨e, d, he, hd, fun x hx => ⟨fun hxd => hapart x hxd.within hx, fun a ha => ?_⟩⟩
      have hya : Together (forest h) (IsParallel chart) z a :=
        (hactive z hz y hy).of_domain hyt (fun hzd => hno z hz hzd hzu) ha
      exact (hya.symm.of_domain hzu (fun hae => hapart a ha hae.within) hx).symm

theorem firing_separate (h : WellFormed chart)
    (hactive : Consistent (forest h) (IsParallel chart) (keys config.active)) (context : Context J)
    (event : EventInput J) : (firing chart config context event).Pairwise (Separate h) := by
  refine pairwise_foldl_keepDisjoint (fun t ht u hu hdisjoint => ?_) List.Pairwise.nil
  exact separate_of_disjoint h hactive (enabled_leaves h ht).2 (enabled_leaves h hu).2 hdisjoint

/-! ### Entering targets -/

/-- A domain is clear for a set: no member is inside, and all of them stand with what is within. -/
def Clear (h : WellFormed chart) (A : Set StateId) (o : Option StateId) : Prop :=
  ∀ x ∈ A, ¬ Inside (forest h) x o ∧ ∀ d, o = some d → ∀ y, Within (forest h) y d →
    Together (forest h) (IsParallel chart) x y

/-- After the exits the domain of a firing transition is clear. -/
theorem clear_of_leaf (h : WellFormed chart) {A : Set StateId} {leaf : StateId}
    {o : Option StateId} (hA : ∀ x ∈ A, ¬ Inside (forest h) x o)
    (hleaf : Inside (forest h) leaf o)
    (htogether : ∀ x ∈ A, Together (forest h) (IsParallel chart) x leaf) : Clear h A o := by
  refine fun x hx => ⟨hA x hx, ?_⟩
  rintro d rfl y hy
  exact (htogether x hx).of_domain (inside_some.mp hleaf) (fun hb => hA x hx (inside_some.mpr hb)) hy

/-- **Entering a target** in a clear domain: the states stand together afterwards, and the new ones are
within the domain. -/
theorem standing_enterToTarget (h : WellFormed chart) (history : Table StateId (KeySet StateId))
    {w : Walk J} (ht : t ∈ chart.transitions) (hw : Standing h w.active)
    (hclear : Clear h (keys w.active) (domainOf chart t)) :
    Standing h (enterToTarget chart history (domainOf chart t) t.target w).active ∧
      ∀ x ∈ keys (enterToTarget chart history (domainOf chart t) t.target w).active,
        x ∈ keys w.active ∨ ∀ d, domainOf chart t = some d → Within (forest h) x d := by
  have hout := fun x hx => (hclear x hx).1
  obtain ⟨node, -, hplanted, hnode⟩ := enterToTarget_planted h history (h.target t ht)
    (domainOf_target h t) hout
  have hwithin : ∀ x, Within (forest h) x node → ∀ d, domainOf chart t = some d →
      Within (forest h) x d := by
    intro x hx d hd
    rcases hnode with ⟨htarget, rfl⟩ | ⟨-, hparent, -⟩
    · rwa [Option.some.inj (hd.symm.trans htarget)]
    · exact hx.trans (below_of_parent (hparent.trans hd)).within
  refine ⟨⟨enterToTarget_declared h history (h.target t ht) (domainOf_target h t) hout hw.declared,
    hplanted.consistent hw.together fun x hx y hy => ?_⟩, fun x hx => ?_⟩
  · cases hd : domainOf chart t with
    | none => exact absurd (by simp [hd]) (hout x hx)
    | some d => exact (hclear x hx).2 d hd y (hwithin y hy d hd)
  · exact (hplanted.only x hx).imp_right (hwithin x)

theorem standing_targets (h : WellFormed chart) (history : Table StateId (KeySet StateId)) :
    ∀ {selected : List (Transition J)} {w : Walk J}, (∀ t ∈ selected, t ∈ chart.transitions) →
      selected.Pairwise (Separate h) → Standing h w.active →
      (∀ t ∈ selected, Clear h (keys w.active) (domainOf chart t)) →
      Standing h (selected.foldl
        (fun w t => enterToTarget chart history (domainOf chart t) t.target w) w).active
  | [], _, _, _, hw, _ => hw
  | t :: selected, w, hmem, hseparate, hw, hclear => by
    obtain ⟨hfirst, hrest⟩ := List.pairwise_cons.mp hseparate
    obtain ⟨hnext, hnew⟩ := standing_enterToTarget h history (hmem t (.head _)) hw
      (hclear t (.head _))
    rw [List.foldl_cons]
    refine standing_targets h history (fun u hu => hmem u (.tail _ hu)) hrest hnext
      fun u hu x hx => ?_
    rcases hnew x hx with hold | hwithin
    · exact hclear u (.tail _ hu) x hold
    · obtain ⟨d, e, hd, he, hboth⟩ := hfirst u hu
      obtain ⟨hout, htogether⟩ := hboth x (hwithin d hd)
      rw [he]
      refine ⟨fun hin => hout (inside_some.mp hin), ?_⟩
      rintro e' he' y hy
      exact htogether y (Option.some.inj he' ▸ hy)

/-! ### Runs -/

theorem standing_step (h : WellFormed chart) {reached : Configuration × Context J}
    (hstanding : Standing h config.active)
    (hnext : advance chart (config, context) event = .ok reached) : Standing h reached.1.active := by
  unfold advance step at hnext
  split_ifs at hnext with halphabet
  · split at hnext
    · cases hnext
    · split at hnext
      · obtain rfl := Except.ok.inj hnext
        exact hstanding
      · obtain rfl := Except.ok.inj hnext
        have hkept : ∀ x ∈ keys (runExits chart (exitPlan chart config.active
            (firing chart config context event)) ⟨config.active, []⟩).active, x ∈ keys config.active ∧
              ∀ t ∈ firing chart config context event, ¬ Inside (forest h) x (domainOf chart t) :=
          fun x hx => (mem_runExits h).mp hx
        refine standing_targets h _ (fun t ht => (firing_leaves h ht).1)
          (firing_separate h hstanding.together context event)
          ⟨fun x hx => hstanding.declared x (hkept x hx).1, fun x hx y hy =>
            hstanding.together x (hkept x hx).1 y (hkept y hy).1⟩ fun t ht => ?_
        obtain ⟨-, leaf, hleaf, hinside⟩ := firing_leaves h ht
        exact clear_of_leaf h (fun x hx => (hkept x hx).2 t ht) hinside
          fun x hx => hstanding.together x (hkept x hx).1 leaf hleaf
  · cases hnext

theorem standing_instantiate (h : WellFormed chart) {reached : Configuration × Context J}
    (hstart : instantiate chart context = .ok reached) : Standing h reached.1.active := by
  obtain ⟨s, hs⟩ := StatechartDef.exists_state h.initial
  rw [instantiate, initialConfiguration, hs] at hstart
  obtain rfl := Except.ok.inj hstart
  have hplanted := enterFull_enters h Table.empty h.initial ⟨Table.empty, []⟩ fun x hx =>
    absurd hx (by simp)
  refine ⟨fun x hx => ?_, hplanted.consistent (fun x hx => absurd hx (by simp)) fun x hx =>
    absurd hx (by simp)⟩
  rcases hplanted.only x hx with hold | hwithin
  · exact absurd hold (by simp)
  · exact hasState_of_within h h.initial hwithin

/-- **The active states of a run stand together**, whether or not its configurations are legal. -/
theorem run_standing (h : WellFormed chart) (context : Context J) (events : List (EventInput J)) :
    ∀ {reached : Configuration × Context J}, run chart context events = .ok reached →
      Standing h reached.1.active := by
  induction events using List.reverseRecOn with
  | nil =>
    intro reached hrun
    suffices hstart : instantiate chart context = .ok reached from standing_instantiate h hstart
    cases hstart : instantiate chart context with
    | error e =>
      rw [run, hstart] at hrun
      cases hrun
    | ok start =>
      rw [run, hstart] at hrun
      exact hrun
  | append_singleton events event ih =>
    intro reached hrun
    rw [run_append] at hrun
    cases hbefore : run chart context events with
    | error e =>
      rw [hbefore] at hrun
      cases hrun
    | ok before =>
      rw [hbefore] at hrun
      exact standing_step h (ih hbefore) hrun

/-! ### When nothing fires -/

/-- Nothing fires when no transition starts beside an active state. -/
theorem firing_eq_nil (h : WellFormed chart) (hstanding : Standing h config.active)
    (hx : x ∈ keys config.active)
    (hbeside : ∀ t ∈ chart.transitions, isBeside chart x t.source = false) :
    firing chart config context event = [] := by
  refine List.eq_nil_iff_forall_not_mem.mpr fun t ht => ?_
  obtain ⟨i, hi, hti⟩ := List.mem_filterMap.mp
    ((mem_foldl_keepDisjoint ht).resolve_left List.not_mem_nil)
  obtain ⟨t', htmem, hti', leaf, hleaf, hwithin⟩ := source_of_selectEnabled h (mem_elems.mp hi)
  have htogether := (hstanding.together x hx leaf
    (mem_elems.mp (List.mem_filter.mp hleaf).1)).up hwithin
  rw [← isBeside_iff h, hbeside t' htmem] at htogether
  exact absurd htogether (by simp)

/-- The event changes nothing. -/
def IsNoOp (chart : StatechartDef J) (config : Configuration) (context : Context J)
    (event : EventInput J) : Prop :=
  ∃ out, step chart config context event = .ok out ∧ out.fired = false ∧ out.next = config ∧
    out.nextContext = context

theorem isNoOp_iff (hdeclared : ∀ x ∈ keys config.active, chart.hasState x = true)
    (hevent : event.name ∈ chart.alphabet) :
    IsNoOp chart config context event ↔ firing chart config context event = [] := by
  unfold IsNoOp step
  rw [if_pos (StatechartDef.inAlphabet_iff.mpr hevent), find_undeclared hdeclared]
  cases firing chart config context event with
  | nil => simp
  | cons t ts => simp

/-- **Final means finished beside idle states**: once a run has reached a final state with no transition
out of its containers, of what it contains, or of a region orthogonal to it, every event of the
alphabet is a no-op from there on. -/
theorem final_stays {report : CompletenessReport} (hvalid : validate chart = .ok report)
    (context : Context J) (events : List (EventInput J))
    (hrun : run chart context events = .ok (config, context')) {final : StateId}
    (hfinal : chart.isFinal final = true) (hactive : has config.active final = true)
    (hidle : ∀ t ∈ chart.transitions, t.source ≠ final → isBeside chart final t.source = false) :
    ∀ (later : List (EventInput J)) (event : EventInput J),
      (∀ e ∈ later ++ [event], e.name ∈ chart.alphabet) →
        run chart context (events ++ later) = .ok (config, context') ∧
          IsNoOp chart config context' event := by
  have h := wellFormed_of_validate hvalid
  have hstanding : Standing h config.active := run_standing h context events hrun
  have hbeside : ∀ t ∈ chart.transitions, isBeside chart final t.source = false := by
    intro t ht
    refine hidle t ht fun hsource => ?_
    have hout := h.finals t ht
    rw [hsource, hfinal] at hout
    cases hout
  have hnoop : ∀ event : EventInput J, event.name ∈ chart.alphabet →
      IsNoOp chart config context' event := fun event hevent =>
    (isNoOp_iff hstanding.declared hevent).mpr (firing_eq_nil h hstanding hactive hbeside)
  intro later event hevents
  refine ⟨?_, hnoop event (hevents event (by simp))⟩
  have hlater : ∀ e ∈ later, e.name ∈ chart.alphabet := fun e he =>
    hevents e (List.mem_append_left _ he)
  clear hevents
  induction later using List.reverseRecOn with
  | nil => rwa [List.append_nil]
  | append_singleton later e ih =>
    obtain ⟨out, hout, -, hnext, hcontext⟩ := hnoop e (hlater e (by simp))
    rw [← List.append_assoc, run_append, ih fun e he => hlater e (List.mem_append_left _ he)]
    change (step chart config context' e).map _ = _
    rw [hout, ← hnext, ← hcontext]
    rfl

/-- A final state inside a container that has a transition, and one outside. -/
def finalInside : StatechartDef (Option Int) where
  states := [{ id := "o", children := ["f"] }, { id := "f" }, { id := "x" }]
  alphabet := ["e", "g"]
  transitions := [{ source := "o", event := "e", target := "x" }]
  initial := "o"
  finals := ["f", "x"]

/-- In `x` nothing can happen any more. -/
theorem final_stays_finalInside : ∃ (config : Configuration) (context : Context (Option Int)),
    run finalInside Table.empty [.new "e"] = .ok (config, context) ∧
      run finalInside Table.empty [.new "e", .new "e"] = .ok (config, context) ∧
        IsNoOp finalInside config context (.new "g") := by
  obtain ⟨report, hvalid⟩ := accepted (show (validate finalInside).isOk = true by decide +kernel)
  obtain ⟨⟨config, context⟩, hrun, hactive⟩ := exists_ok_of_any
    (r := run finalInside Table.empty [.new "e"])
    (p := fun reached => has reached.1.active "x") (by decide +kernel)
  have hidle : ∀ t ∈ finalInside.transitions, t.source ≠ "x" →
      isBeside finalInside "x" t.source = false := by
    intro t ht _
    obtain rfl := List.mem_singleton.mp ht
    decide +kernel
  exact ⟨config, context, hrun, final_stays hvalid _ _ hrun rfl hactive hidle
    [.new "e"] (.new "g") (by decide)⟩

/-- **A final state is left through its container.** -/
theorem final_left_by_container : (∃ report, validate finalInside = .ok report) ∧
      ∃ config context, run finalInside Table.empty [] = .ok (config, context) ∧
        config.isFinal finalInside = true ∧ ¬ IsNoOp finalInside config context (.new "e") := by
  obtain ⟨report, hvalid⟩ := accepted (show (validate finalInside).isOk = true by decide +kernel)
  obtain ⟨⟨config, context⟩, hrun, hall⟩ := exists_ok_of_any (r := run finalInside Table.empty [])
    (p := fun reached => reached.1.isFinal finalInside &&
      !(firing finalInside reached.1 reached.2 (.new "e")).isEmpty) (by decide +kernel)
  rw [Bool.and_eq_true, Bool.not_eq_true', List.isEmpty_eq_false_iff] at hall
  refine ⟨⟨report, hvalid⟩, config, context, hrun, hall.1, fun hnoop => hall.2 ?_⟩
  have hstanding := run_standing (wellFormed_of_validate hvalid) _ _ hrun
  exact (isNoOp_iff hstanding.declared (by decide)).mp hnoop

end Medulla.Statechart.Finals
