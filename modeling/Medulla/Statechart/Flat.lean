import Medulla.Statechart.Finals

/-! # The flat interpreter

`transition` runs a chart without composite states on its one current state.

* the result: `step_eq_transition`. -/

namespace Medulla.Statechart.Flat

open Library.OrderedTable Library.OrderedSet Definition Check
open Transition Hierarchy Legality Finals

variable {J : Type} [JsonValue J] {chart : StatechartDef J} {id : StateId} {t : Transition J}

def isComposite (s : State J) : Bool :=
  !s.children.isEmpty || s.parallel || s.initialChild.isSome || s.history.isSome

structure TransitionOutcome (J : Type) where
  nextState : StateId
  nextContext : Context J
  actions : List (Action J)
  fired : Bool
  noOpReason : Option NoOpReason
  firedLabel : Option String

def transition (chart : StatechartDef J) (state : StateId) (context : Context J)
    (event : EventInput J) : Except TransitionError (TransitionOutcome J) :=
  match chart.state state with
  | none => .error (.unknownState state)
  | some source =>
    if isComposite source then .error (.compositeUnsupported state)
    else if chart.inAlphabet event.name then
      match (chart.transitionsFrom state event.name).find? (·.guardHolds context event) with
      | some t =>
        match chart.state t.target with
        | none => .error (.undeclaredTarget t.shownLabel t.target)
        | some target =>
          if isComposite target then .error (.compositeUnsupported t.target)
          else
            let actions := source.exit ++ t.actions ++ target.entry
            .ok ⟨t.target, applyAll context actions event, actions, true, none, some t.shownLabel⟩
      | none => .ok ⟨state, context, [], false, some (if (chart.transitionsFrom state event.name).isEmpty
          then .noTransitionDefined else .allGuardsFalse), none⟩
    else .error (.unknownEvent event.name)

def single (id : StateId) : Configuration := ⟨add Table.empty id, Table.empty⟩

def TransitionOutcome.general (out : TransitionOutcome J) : StepOutcome J :=
  ⟨single out.nextState, out.nextContext, out.actions, out.fired, out.noOpReason, out.firedLabel⟩

def IsFlat (chart : StatechartDef J) : Prop := ∀ s ∈ chart.states, isComposite s = false

theorem elems_single (id : StateId) : elems (single id).active = [id] := rfl

section
variable (h : IsFlat chart)
include h

theorem IsFlat.state {s : State J} (hs : chart.state id = some s) :
    isComposite s = false ∧ s.children = [] ∧ s.history = none := by
  have hflat := h s (StatechartDef.state_mem hs).1
  refine ⟨hflat, ?_⟩
  simp only [isComposite, Bool.or_eq_false_iff, Bool.not_eq_false', List.isEmpty_iff,
    Option.isSome_eq_false_iff, Option.isNone_iff_eq_none] at hflat
  exact ⟨hflat.1.1.1, hflat.2⟩

theorem IsFlat.ancestors (id : StateId) : ancestors chart id = [] := by
  refine ancestors_root ?_
  have hnone : chart.containments = [] := by
    rw [StatechartDef.containments, List.flatMap_eq_nil_iff]
    intro s hs
    have hflat := h s hs
    simp only [isComposite, Bool.or_eq_false_iff, Bool.not_eq_false', List.isEmpty_iff] at hflat
    rw [hflat.1.1.1, List.map_nil]
  rw [parentMap, hnone]
  rfl

theorem IsFlat.leaves (hid : chart.hasState id = true) : (single id).leaves chart = [id] := by
  obtain ⟨s, hs⟩ := StatechartDef.exists_state hid
  rw [Configuration.leaves, elems_single]
  simp [hs, (h.state hs).2.1]

theorem IsFlat.domainOf (t : Transition J) : domainOf chart t = none := by
  simp [Transition.domainOf, transitionDomain, isProperDescendant, h.ancestors]

theorem IsFlat.firing (hid : chart.hasState id = true) (context : Context J)
    (event : EventInput J) : firing chart (single id) context event =
      ((chart.transitionsFrom id event.name).find? (·.guardHolds context event)).toList := by
  have hselect : selectEnabled chart (single id) context event =
      extend Table.empty (enabledAt chart context event id).toList := by
    rw [selectEnabled, h.leaves hid]
    cases henabled : enabledAt chart context event id <;> simp [h.ancestors, henabled]
  rw [Transition.firing, hselect, StatechartDef.transitionsFrom, List.find?_filter]
  simp only [Bool.decide_and, Bool.decide_eq_true]
  cases henabled : enabledAt chart context event id with
  | none =>
    have hnone := List.findIdx?_eq_none_iff.mp henabled
    rw [List.find?_eq_none.mpr fun t ht => by simpa using hnone t ht]
    rfl
  | some i =>
    obtain ⟨hlt, hp, hfirst⟩ := List.findIdx?_eq_some_iff_getElem.mp henabled
    have hfind : chart.transitions.find? (fun t => t.source == id && t.event == event.name &&
        t.guardHolds context event) = some chart.transitions[i] :=
      List.find?_eq_some_iff_getElem.mpr ⟨hp, i, hlt, rfl, fun j hj => by
        simpa only [Bool.not_eq_true', Bool.not_eq_true] using hfirst j hj⟩
    rw [hfind]
    change ([i].filterMap fun i => chart.transitions[i]?).foldl (keepDisjoint chart _) [] = _
    simp [keepDisjoint, List.getElem?_eq_getElem hlt]

theorem IsFlat.fire {source target : State J} (hsource : chart.state id = some source)
    (htarget : chart.state t.target = some target) :
    fire chart (single id) [t] = (single t.target, source.exit ++ t.actions ++ target.entry) := by
  have hplan : exitPlan chart (single id).active [t] = (single id).active := by
    simp [exitPlan, h.domainOf t]
    rfl
  have hpath : pathTo chart none t.target = [t.target] := by simp [pathTo, h.ancestors]
  have hdescent : descent chart t.target = none := by simp [descent, htarget, (h.state htarget).2.1]
  have hhistory : (chart.state id).bind State.history = none := by simp [hsource, (h.state hsource).2.2]
  have hrecord : recordHistory chart Table.empty (single id).active (single id).active = Table.empty := by
    simp [recordHistory, elems_single, hhistory]
  have hexits : runExits chart (single id).active ⟨(single id).active, []⟩ =
      ⟨Table.empty, source.exit⟩ := by
    simp only [runExits, elems_single, List.insertionSort, List.foldr, List.orderedInsert,
      List.foldl_cons, List.foldl_nil, Walk.leave, hsource, Option.map_some, Option.getD_some,
      List.nil_append, Walk.mk.injEq, and_true]
    exact ext_has fun k => by simp [single]
  have hempty : (single id).history = Table.empty := rfl
  simp only [Transition.fire, hplan, hempty, hrecord, hexits, List.foldl_cons, List.foldl_nil,
    h.domainOf t, enterToTarget, hpath,
    enterPath, entryFuel, enterFull, hdescent, Walk.enter, htarget]
  simp [single]

end

/-- **The general interpreter refines the flat one**: on a chart without composite states both accept the
event, with the same outcome. -/
theorem step_eq_transition {report : CompletenessReport} (hvalid : validate chart = .ok report)
    (hflat : IsFlat chart) (hid : chart.hasState id = true) (context : Context J) (event : EventInput J)
    (hevent : event.name ∈ chart.alphabet) : ∃ out, transition chart id context event = .ok out ∧
      step chart (single id) context event = .ok out.general := by
  obtain ⟨source, hsource⟩ := StatechartDef.exists_state hid
  have halphabet := StatechartDef.inAlphabet_iff.mpr hevent
  have hfind : ((elems (single id).active).find? fun id => !chart.hasState id) = none := by
    simp [elems_single, hid]
  rw [step, hfind, hflat.firing hid context event]
  simp only [transition, hsource, (hflat.state hsource).1, halphabet]
  cases hfirst : (chart.transitionsFrom id event.name).find? (·.guardHolds context event) with
  | none =>
    refine ⟨_, rfl, ?_⟩
    have hany : (chart.transitions.any fun t => t.event == event.name && has (single id).active t.source) =
        !(chart.transitionsFrom id event.name).isEmpty := by
      rw [Bool.eq_iff_iff]
      simp [StatechartDef.transitionsFrom, single, and_comm]
    simp only [noTransitionReason, hany]
    cases (chart.transitionsFrom id event.name).isEmpty <;> rfl
  | some t =>
    have ht : t ∈ chart.transitions := (List.mem_filter.mp (List.mem_of_find?_eq_some hfirst)).1
    obtain ⟨target, htarget⟩ :=
      StatechartDef.exists_state ((wellFormed_of_validate hvalid).target t ht)
    simp only [htarget, (hflat.state htarget).1]
    refine ⟨_, rfl, ?_⟩
    simp only [Option.toList_some, hflat.fire hsource htarget]
    simp [TransitionOutcome.general]

def loopChart : StatechartDef (Option Int) where
  states := [{ id := "a" }]
  alphabet := ["e"]
  transitions := [{ source := "a", event := "e", target := "a" }]
  initial := "a"

theorem step_eq_transition_loopChart : ∃ out,
    transition loopChart "a" Table.empty (.new "e") = .ok out ∧
      step loopChart (single "a") Table.empty (.new "e") = .ok out.general := by
  obtain ⟨report, hvalid⟩ := accepted (show (validate loopChart).isOk = true by decide +kernel)
  exact step_eq_transition hvalid (by unfold IsFlat; decide) (by decide) Table.empty (.new "e") (by decide)

end Medulla.Statechart.Flat
