import Medulla.Library.Containment
import Medulla.Statechart.Check
import Medulla.Statechart.Transition
import Mathlib.Data.List.Chain

/-! # The containment of an accepted chart

The containers of an accepted chart form a forest, and the interpreter's climbs see all of it:
`ancestors` lists exactly the nodes above a state. On that forest the entry functions plant growths
(`enterFull_planted`, `enterPath_planted`): entering a state adds the state and a filled inside, and
touches nothing outside it. -/

namespace Medulla.Statechart.Hierarchy

open Library.OrderedTable Library.OrderedSet Library.Containment Definition
open Check Transition

variable {J : Type} [JsonValue J] {chart : StatechartDef J} {id c target : StateId} {s : State J}
  {parent : Table StateId StateId} {o : Option StateId} {w : Walk J} {f : StateId → Walk J → Walk J}
  {p : StateId}

/-! ### The forest of containers -/

section
variable (h : WellFormed chart)
include h

theorem state_eq_some : chart.state id = some s ↔ s ∈ chart.states ∧ s.id = id := by
  refine ⟨StatechartDef.state_mem, ?_⟩
  rintro ⟨hs, rfl⟩
  obtain ⟨s', hs'⟩ := StatechartDef.exists_state (StatechartDef.hasState_iff.mpr ⟨s, hs, rfl⟩)
  obtain ⟨hmem, hid⟩ := StatechartDef.state_mem hs'
  rw [hs', List.inj_on_of_nodup_map h.ids hmem hs hid]

theorem parent_iff :
    (parentMap chart).get c = some p ↔ ∃ s, chart.state p = some s ∧ c ∈ s.children := by
  rw [parentMap, Table.get_ofPairs h.single, StatechartDef.mem_containments]
  constructor
  · rintro ⟨s, hs, hid, hc⟩
    exact ⟨s, (state_eq_some h).mpr ⟨hs, hid⟩, hc⟩
  · rintro ⟨s, hs, hc⟩
    obtain ⟨hmem, hid⟩ := StatechartDef.state_mem hs
    exact ⟨s, hmem, hid, hc⟩

theorem hasState_of_parent (hp : (parentMap chart).get c = some p) : chart.hasState c = true := by
  obtain ⟨s, hs, hc⟩ := (parent_iff h).mp hp
  exact h.children s (StatechartDef.state_mem hs).1 c hc

theorem children_nodup (hs : s ∈ chart.states) : s.children.Nodup := by
  have hsub : (s.children.map fun c => (c, s.id)).Sublist chart.containments :=
    List.sublist_flatten_of_mem (List.mem_map.mpr ⟨s, hs, rfl⟩)
  have hnodup := h.single.sublist (hsub.map Prod.fst)
  rw [List.map_map] at hnodup
  exact List.Nodup.of_map _ hnodup

theorem singleParent_eq : singleParent chart = parentMap chart := by
  unfold singleParent parentMap
  congr 1
  rw [List.filter_eq_self]
  intro pair hpair
  have hcount := List.count_eq_one_of_mem h.single (List.mem_map.mpr ⟨pair, hpair, rfl⟩)
  rw [← getD_occurrences, ← parentsOf] at hcount
  cases hget : (parentsOf chart).get pair.1 with
  | none => simp [hget] at hcount
  | some n =>
    rw [hget, Option.getD_some] at hcount
    simp [hcount]

end

/-- The climb ends within the given number of steps. -/
def stops (parent : Table StateId StateId) : Nat → Option StateId → Bool
  | _, none => true
  | 0, some _ => false
  | n + 1, some a => stops parent n (parent.get a)

theorem stops_of_climbsForever {start : StateId} :
    ∀ {n : Nat} {cur : Option StateId}, climbsForever parent start n cur = false →
      stops parent n cur = true
  | 0, none, _ => rfl
  | _ + 1, none, _ => rfl
  | 0, some a, h => by simp [climbsForever] at h
  | n + 1, some a, h => by
    unfold climbsForever at h
    split_ifs at h with heq
    rw [stops]
    exact stops_of_climbsForever h

theorem stops_parent (h : WellFormed chart) (id : StateId) :
    stops (parentMap chart) (chart.states.length + 1) ((parentMap chart).get id) = true := by
  cases hp : (parentMap chart).get id with
  | none => rfl
  | some p =>
    obtain ⟨s, hs, rfl⟩ := StatechartDef.hasState_iff.mp (hasState_of_parent h hp)
    have hclimb := h.climbs s hs
    rw [singleParent_eq h, hp] at hclimb
    exact stops_of_climbsForever hclimb

theorem acc_of_stops : ∀ {n : Nat} {id : StateId}, stops parent n (parent.get id) = true →
      Acc (fun p x => parent.get x = some p) id
  | 0, id, h => by
    refine Acc.intro id fun p hp => ?_
    rw [hp] at h
    exact absurd h (by simp [stops])
  | n + 1, id, h => by
    refine Acc.intro id fun p hp => ?_
    rw [hp] at h
    exact acc_of_stops h

def forest (h : WellFormed chart) : Forest StateId where
  parent := (parentMap chart).get
  wf := ⟨fun id => acc_of_stops (stops_parent h id)⟩

theorem forest_parent (h : WellFormed chart) (id : StateId) :
    (forest h).parent id = (parentMap chart).get id := rfl

theorem climb_succ : ∀ {n : Nat} {id : StateId}, stops parent n (parent.get id) = true →
      climb parent (n + 1) id = climb parent n id
  | 0, id, h => by
    cases hp : parent.get id with
    | none => simp [climb, hp]
    | some p =>
      rw [hp] at h
      exact absurd h (by simp [stops])
  | n + 1, id, h => by
    cases hp : parent.get id with
    | none => simp [climb, hp]
    | some p =>
      rw [hp] at h
      have hrest : climb parent (n + 1) p = climb parent n p := climb_succ h
      rw [climb, hp]
      simp only
      rw [hrest, climb, hp]

theorem ancestors_root (hp : (parentMap chart).get id = none) : ancestors chart id = [] := by
  rw [ancestors, climb, hp]

section
variable (h : WellFormed chart)
include h

theorem ancestors_cons (hp : (parentMap chart).get id = some p) :
    ancestors chart id = p :: ancestors chart p := by
  have hstops := stops_parent h id
  rw [hp] at hstops
  have hrest : climb (parentMap chart) (chart.states.length + 1) p =
      climb (parentMap chart) chart.states.length p := climb_succ hstops
  rw [ancestors, climb, hp]
  rw [ancestors, hrest]

/-- **The climb finds exactly the nodes above a state.** -/
theorem mem_ancestors {a : StateId} : a ∈ ancestors chart id ↔ Below (forest h) id a := by
  induction id using (forest h).wf.induction with
  | _ id ih =>
    rw [below_iff_parent]
    cases hp : (parentMap chart).get id with
    | none =>
      rw [ancestors_root hp, forest_parent, hp]
      simp
    | some p =>
      rw [ancestors_cons h hp, List.mem_cons, ih p hp, forest_parent, hp]
      constructor
      · rintro (rfl | hbelow)
        · exact ⟨a, rfl, Within.refl a⟩
        · exact ⟨p, rfl, hbelow.within⟩
      · rintro ⟨p', hp', hwithin⟩
        obtain rfl := Option.some.inj hp'
        rcases within_iff.mp hwithin with rfl | hbelow
        · exact Or.inl rfl
        · exact Or.inr hbelow

theorem isProperDescendant_iff {a : StateId} :
    isProperDescendant chart id a = true ↔ Below (forest h) id a := by
  rw [isProperDescendant, ← mem_ancestors h]
  simp

theorem depth_of_parent
    (hp : (parentMap chart).get id = some p) : depth chart id = depth chart p + 1 := by
  rw [depth, ancestors_cons h hp, List.length_cons, depth]

end

theorem length_climb_le : ∀ (n : Nat) (id : StateId), (climb parent n id).length ≤ n
  | 0, _ => Nat.le_refl 0
  | n + 1, id => by
    rw [climb]
    split
    · exact Nat.zero_le _
    · exact Nat.succ_le_succ (length_climb_le n _)

theorem depth_le (chart : StatechartDef J) (id : StateId) : depth chart id ≤ chart.states.length + 1 :=
  length_climb_le _ _

theorem hasState_of_within (h : WellFormed chart) {x : StateId} (hid : chart.hasState id = true)
    (hx : Within (forest h) x id) : chart.hasState x = true := by
  rcases within_iff.mp hx with rfl | hbelow
  · exact hid
  · obtain ⟨p, hp, -⟩ := below_iff_parent.mp hbelow
    exact hasState_of_parent h hp

def IsParallel (chart : StatechartDef J) (id : StateId) : Prop :=
  ∃ s, chart.state id = some s ∧ s.parallel = true

/-! ### Entering states -/

def Enters (h : WellFormed chart) (id : StateId) (f : Walk J → Walk J) : Prop :=
  ∀ w : Walk J, (∀ x ∈ keys w.active, ¬ Below (forest h) x id) →
    Planted (forest h) (IsParallel chart) (keys w.active) id (keys (f w).active)

theorem keys_enter (id : StateId) (w : Walk J) :
    keys (w.enter chart id).active = insert id (keys w.active) := by
  ext x
  rw [Set.mem_insert_iff, mem_keys, mem_keys, Walk.enter]
  by_cases hid : has w.active id = true
  · rw [if_pos hid]
    refine ⟨Or.inr, ?_⟩
    rintro (rfl | hx)
    · exact hid
    · exact hx
  · rw [if_neg hid, has_add]

theorem descent_eq_some (hs : descent chart id = some s) :
    chart.state id = some s ∧ s.children ≠ [] := by
  obtain ⟨hstate, hchildren⟩ := Option.filter_eq_some_iff.mp hs
  exact ⟨hstate, by simpa using hchildren⟩

theorem parent_iff_mem (h : WellFormed chart) (hs : chart.state id = some s) :
    (forest h).parent c = some id ↔ c ∈ s.children := by
  rw [forest_parent, parent_iff h, hs]
  simp

theorem isParallel_iff (hs : chart.state id = some s) :
    IsParallel chart id ↔ s.parallel = true := by
  simp [IsParallel, hs]

theorem enters_leaf (h : WellFormed chart) (hid : chart.hasState id = true)
    (hs : descent chart id = none) : Enters h id (Walk.enter chart id) := by
  intro w hout
  rw [keys_enter]
  refine planted_leaf hout fun c hc => ?_
  obtain ⟨s, hstate⟩ := StatechartDef.exists_state hid
  have hmem := (parent_iff_mem h hstate).mp hc
  rw [descent, hstate, Option.filter_eq_none_iff] at hs
  have hempty := hs s rfl
  rw [Bool.not_eq_true, Bool.not_eq_false', List.isEmpty_iff] at hempty
  simp [hempty] at hmem

theorem plantedAll_foldl (h : WellFormed chart) {A : Set StateId}
    (hA : ∀ x ∈ A, ¬ Below (forest h) x id) :
    ∀ {cs done : List StateId} {w : Walk J}, (done ++ cs).Nodup →
      (∀ c ∈ done ++ cs, (forest h).parent c = some id) → (∀ c ∈ cs, Enters h c (f c)) →
      PlantedAll (forest h) (IsParallel chart) A done (keys w.active) →
      PlantedAll (forest h) (IsParallel chart) A (done ++ cs)
        (keys (cs.foldl (fun w c => f c w) w).active)
  | [], done, w, _, _, _, hplanted => by
    rw [List.append_nil]
    exact hplanted
  | c :: cs, done, w, hnodup, hparent, hf, hplanted => by
    have hc : (forest h).parent c = some id := hparent c (by simp)
    have hsiblings : ∀ x ∈ done, (forest h).parent x = (forest h).parent c := fun x hx =>
      (hparent x (List.mem_append_left _ hx)).trans hc.symm
    have hnew : c ∉ done := fun hmem => List.disjoint_of_nodup_append hnodup hmem (.head _)
    have hout : ∀ x ∈ A, ¬ Below (forest h) x c := fun x hx hbelow =>
      hA x hx (hbelow.trans_within (below_of_parent hc).within)
    have hnext := hf c (.head _) w (hplanted.outside hout hsiblings hnew)
    have happ : done ++ c :: cs = (done ++ [c]) ++ cs := by simp
    rw [happ]
    rw [happ] at hnodup hparent
    exact plantedAll_foldl h hA hnodup hparent (fun c' hc' => hf c' (.tail _ hc'))
      (hplanted.snoc hnext hsiblings hnew)

theorem not_below_insert (h : WellFormed chart) {A : Set StateId}
    (hA : ∀ x ∈ A, ¬ Below (forest h) x id) : ∀ x ∈ insert id A, ¬ Below (forest h) x id := by
  rintro x (rfl | hx)
  · exact not_below_self x
  · exact hA x hx

theorem enters_parallel (h : WellFormed chart)
    (hs : chart.state id = some s) (hpar : s.parallel = true)
    (hf : ∀ c ∈ s.children, Enters h c (f c)) :
    Enters h id fun w => s.children.foldl (fun w c => f c w) (w.enter chart id) := by
  intro w hout
  have hchildren := fun c => parent_iff_mem h (c := c) hs
  have hstart : PlantedAll (forest h) (IsParallel chart) (insert id (keys w.active)) []
      (keys (w.enter chart id).active) := by
    rw [keys_enter]
    exact PlantedAll.nil _
  have hall : PlantedAll (forest h) (IsParallel chart) (insert id (keys w.active)) ([] ++ s.children)
      (keys (s.children.foldl (fun w c => f c w) (w.enter chart id)).active) :=
    plantedAll_foldl h (not_below_insert h hout) (children_nodup h (StatechartDef.state_mem hs).1)
      (fun c hc => (hchildren c).mpr hc) hf hstart
  exact hall.planted_parallel hout hchildren ((isParallel_iff hs).mpr hpar)

theorem enters_single (h : WellFormed chart) {f : Walk J → Walk J} (hs : chart.state id = some s)
    (hpar : ¬ s.parallel = true) (hc : c ∈ s.children) (hf : Enters h c f) :
    Enters h id fun w => f (w.enter chart id) := by
  intro w hout
  have hparent := (parent_iff_mem h hs).mpr hc
  have hplanted := hf (w.enter chart id) fun x hx hbelow => by
    rw [keys_enter] at hx
    exact not_within_of_child hout hparent x hx hbelow.within
  rw [keys_enter] at hplanted
  exact hplanted.planted_single hout hparent fun hp => hpar ((isParallel_iff hs).mp hp)

theorem defaultChild_mem (h : WellFormed chart) (hs : s ∈ chart.states)
    (hc : defaultChild s = some c) : c ∈ s.children := by
  rcases Option.or_eq_some_iff.mp hc with hinitial | ⟨-, hhead⟩
  · exact h.initialChild s hs c hinitial
  · exact List.mem_of_mem_head? hhead

omit [JsonValue J] in
theorem defaultChild_ne_none (hs : s.children ≠ []) : defaultChild s ≠ none := by
  intro hnone
  exact hs (List.head?_eq_none_iff.mp (Option.or_eq_none_iff.mp hnone).2)

omit [JsonValue J] in
theorem rememberedChild_mem {history : Table StateId (KeySet StateId)} {kind : HistoryKind}
    {remembered : KeySet StateId} (hc : rememberedChild s history = some (kind, c, remembered)) :
    c ∈ s.children := by
  simp only [rememberedChild, Option.bind_eq_some_iff, Option.map_eq_some_iff] at hc
  obtain ⟨_, -, _, -, c', hfind, heq⟩ := hc
  obtain ⟨-, rfl, -⟩ := Prod.mk.injEq .. ▸ heq
  exact List.mem_of_find?_eq_some hfind

/-- The fuel suffices for the descent below a state. -/
def Enough (chart : StatechartDef J) (fuel : Nat) (id : StateId) : Prop :=
  entryFuel chart ≤ fuel + depth chart id

theorem enough_entryFuel (id : StateId) : Enough chart (entryFuel chart) id := Nat.le_add_right _ _

theorem not_enough_zero (id : StateId) : ¬ Enough chart 0 id := by
  have := depth_le chart id
  unfold Enough entryFuel
  omega

theorem Enough.child (h : WellFormed chart) {fuel : Nat} (hfuel : Enough chart (fuel + 1) id)
    (hs : chart.state id = some s) (hc : c ∈ s.children) : Enough chart fuel c := by
  have hdepth := depth_of_parent h ((parent_iff_mem h hs).mpr hc)
  unfold Enough at hfuel ⊢
  omega

/-- **Entering a state plants it**, from the default inside, a remembered child or a restored
memory. -/
theorem enters_fuel (h : WellFormed chart) (history : Table StateId (KeySet StateId)) :
    ∀ (fuel : Nat) (id : StateId), chart.hasState id = true → Enough chart fuel id →
      Enters h id (enterFull chart history fuel id) ∧
        ∀ remembered, Enters h id (enterRestore chart history fuel id remembered)
  | 0, id, _, hfuel => absurd hfuel (not_enough_zero id)
  | fuel + 1, id, hid, hfuel => by
    cases hs : descent chart id with
    | none =>
      refine ⟨?_, fun remembered => ?_⟩
      · simpa only [enterFull, hs] using enters_leaf h hid hs
      · simpa only [enterRestore, hs] using enters_leaf h hid hs
    | some s =>
      obtain ⟨hstate, hne⟩ := descent_eq_some hs
      have hmem := (StatechartDef.state_mem hstate).1
      have ih := fun c (hc : c ∈ s.children) =>
        enters_fuel h history fuel c (h.children s hmem c hc) (hfuel.child h hstate hc)
      obtain ⟨d, hd⟩ := Option.ne_none_iff_exists'.mp (defaultChild_ne_none hne)
      have hdmem := defaultChild_mem h hmem hd
      by_cases hpar : s.parallel = true
      · refine ⟨?_, fun remembered => ?_⟩
        · simpa only [enterFull, hs, if_pos hpar] using
            enters_parallel h hstate hpar fun c hc => (ih c hc).1
        · simp only [enterRestore, hs, if_pos hpar]
          refine enters_parallel h hstate hpar
            (f := fun c w => if has remembered c then enterRestore chart history fuel c remembered w
              else enterFull chart history fuel c w) fun c hc => ?_
          by_cases hrem : has remembered c = true
          · simpa only [if_pos hrem] using (ih c hc).2 remembered
          · simpa only [if_neg hrem] using (ih c hc).1
      · refine ⟨?_, fun remembered => ?_⟩
        · simp only [enterFull, hs, if_neg hpar]
          split
          case _ child _ hchild =>
            exact enters_single h hstate hpar (rememberedChild_mem hchild)
              (ih child (rememberedChild_mem hchild)).1
          case _ child memory hchild =>
            exact enters_single h hstate hpar (rememberedChild_mem hchild)
              ((ih child (rememberedChild_mem hchild)).2 memory)
          case _ => simpa only [hd] using enters_single h hstate hpar hdmem (ih d hdmem).1
        · simp only [enterRestore, hs, if_neg hpar]
          split
          case _ child hchild =>
            have hcmem := List.mem_of_find?_eq_some hchild
            exact enters_single h hstate hpar hcmem ((ih child hcmem).2 remembered)
          case _ => simpa only [hd] using enters_single h hstate hpar hdmem (ih d hdmem).1

theorem enterFull_enters (h : WellFormed chart) (history : Table StateId (KeySet StateId))
    (hid : chart.hasState id = true) : Enters h id (enterFull chart history (entryFuel chart) id) :=
  (enters_fuel h history _ id hid (enough_entryFuel id)).1

/-! ### Entering along a path -/

def IsPath (chart : StatechartDef J) (path : List StateId) : Prop :=
  path.IsChain fun a b => (parentMap chart).get b = some a

/-- **Entering a path plants its outermost state.** -/
theorem enterPath_enters (h : WellFormed chart) (history : Table StateId (KeySet StateId)) :
    ∀ {node : StateId} {rest : List StateId}, chart.hasState node = true →
      IsPath chart (node :: rest) → Enters h node (enterPath chart history (node :: rest))
  | node, [], hnode, _ => by
    simpa only [enterPath] using enterFull_enters h history hnode
  | node, next :: rest, _, hpath => by
    obtain ⟨hnext, hrest⟩ := List.isChain_cons_cons.mp hpath
    have ih := enterPath_enters h history (hasState_of_parent h hnext) hrest
    obtain ⟨s, hs, hmem⟩ := (parent_iff h).mp hnext
    by_cases hpar : s.parallel = true
    · intro w hout
      -- the regions off the path come first, the region of the path last
      have hchildren := fun c => parent_iff_mem h (c := c) hs
      have hstart : PlantedAll (forest h) (IsParallel chart) (insert node (keys w.active)) []
          (keys (w.enter chart node).active) := by
        rw [keys_enter]
        exact PlantedAll.nil _
      have hoff : PlantedAll (forest h) (IsParallel chart) (insert node (keys w.active))
          ([] ++ s.children.filter (· != next))
          (keys (enterPassThrough chart history node next w).active) := by
        rw [enterPassThrough, hs]
        simp only [if_pos hpar]
        refine plantedAll_foldl h (not_below_insert h hout)
          ((children_nodup h (StatechartDef.state_mem hs).1).filter _) (fun c hc => ?_)
          (fun c hc => ?_) hstart
        · exact (hchildren c).mpr (List.mem_filter.mp hc).1
        · exact enterFull_enters h history
            (h.children s (StatechartDef.state_mem hs).1 c (List.mem_filter.mp hc).1)
      rw [List.nil_append] at hoff
      have hsiblings : ∀ x ∈ s.children.filter (· != next),
          (forest h).parent x = (forest h).parent next := fun x hx =>
        ((hchildren x).mpr (List.mem_filter.mp hx).1).trans ((hchildren next).mpr hmem).symm
      have hnew : next ∉ s.children.filter (· != next) := by simp
      have hinside : ∀ x ∈ insert node (keys w.active), ¬ Below (forest h) x next :=
        fun x hx hbelow => not_within_of_child hout hnext x hx hbelow.within
      have hall := hoff.snoc
        (ih _ (hoff.outside hinside hsiblings hnew)) hsiblings hnew
      refine hall.planted_parallel hout (fun c => ?_) ((isParallel_iff hs).mpr hpar)
      rw [hchildren c, List.mem_append, List.mem_filter, List.mem_singleton, bne_iff_ne]
      constructor
      · intro hc
        by_cases heq : c = next
        · exact Or.inr heq
        · exact Or.inl ⟨hc, heq⟩
      · rintro (⟨hc, -⟩ | rfl)
        · exact hc
        · exact hmem
    · have hpass : ∀ w : Walk J, enterPassThrough chart history node next w =
          w.enter chart node := by
        intro w
        rw [enterPassThrough, hs]
        simp only [if_neg hpar]
      simpa only [enterPath, hpass] using enters_single h hs hpar hmem ih

theorem pathTo_spec (h : WellFormed chart) (hin : Inside (forest h) target o) :
    ∃ node rest, pathTo chart o target = node :: rest ∧ (forest h).parent node = o ∧
      IsPath chart (node :: rest) ∧ (node :: rest).getLast? = some target ∧
      Within (forest h) target node := by
  induction target using (forest h).wf.induction with
  | _ target ih =>
    have hne : (some target != o) = true := by
      rw [bne_iff_ne]
      rintro rfl
      exact not_inside_self hin
    have hpath : pathTo chart o target =
        ((ancestors chart target).takeWhile fun c => some c != o).reverse ++ [target] := by
      simp only [pathTo, List.takeWhile_cons, hne, if_true, List.reverse_cons]
    cases hp : (parentMap chart).get target with
    | none =>
      have ho : o = none := by
        cases o with
        | none => rfl
        | some d => exact absurd (inside_some.mp hin) (not_below_of_root hp)
      refine ⟨target, [], ?_, by rw [ho]; exact hp, List.IsChain.singleton _, rfl, Within.refl _⟩
      rw [hpath, ancestors_root hp]
      rfl
    | some p =>
      rcases inside_parent hin hp with rfl | hpo
      · refine ⟨target, [], ?_, hp, List.IsChain.singleton _, rfl, Within.refl _⟩
        rw [hpath, ancestors_cons h hp]
        simp
      · obtain ⟨node, rest, heq, hnode, hchain, hlast, hwithin⟩ := ih p hp hpo
        refine ⟨node, rest ++ [target], ?_, hnode, ?_, ?_,
          ((below_of_parent hp).trans_within hwithin).within⟩
        · rw [hpath, ancestors_cons h hp, ← List.cons_append, ← heq, pathTo]
        · rw [IsPath, ← List.cons_append, List.isChain_append]
          refine ⟨hchain, List.IsChain.singleton _, fun x hx y hy => ?_⟩
          rw [hlast] at hx
          rw [List.head?_cons, Option.mem_some_iff] at hy
          rw [← hx, ← hy, hp]
        · rw [← List.cons_append, List.getLast?_append]
          rfl

theorem pathTo_domain (target : StateId) : pathTo chart (some target) target = [] := by
  simp [pathTo]

/-- Entering the target leaves regions of the domain out: the domain is parallel, the target lies
properly inside, and some region does not contain it. -/
def Tears (h : WellFormed chart) (o : Option StateId) (target : StateId) : Prop :=
  Orthogonal (IsParallel chart) o ∧ o ≠ some target ∧
    ∃ c, (forest h).parent c = o ∧ ¬ Within (forest h) target c

section
variable (h : WellFormed chart) (history : Table StateId (KeySet StateId))
  (htarget : chart.hasState target = true) (hin : o = some target ∨ Inside (forest h) target o)
include h history htarget hin

/-- **Entering a target plants one state**: the target itself if it is the domain, and otherwise the
child of the domain on the way to the target. -/
theorem enterToTarget_planted (hout : ∀ x ∈ keys w.active, ¬ Inside (forest h) x o) :
    ∃ node, chart.hasState node = true ∧ Planted (forest h) (IsParallel chart) (keys w.active) node
        (keys (enterToTarget chart history o target w).active) ∧
      (o = some target ∧ node = target ∨
        Inside (forest h) target o ∧ (forest h).parent node = o ∧ Within (forest h) target node) := by
  rcases hin with rfl | hin
  · rw [enterToTarget, pathTo_domain]
    refine ⟨target, htarget, ?_, Or.inl ⟨rfl, rfl⟩⟩
    exact enterFull_enters h history htarget w fun x hx hbelow => hout x hx (inside_some.mpr hbelow)
  · obtain ⟨node, rest, hpath, hnode, hchain, -, hwithin⟩ := pathTo_spec h hin
    have hstate : chart.hasState node = true := by
      rcases within_iff.mp hwithin with heq | hbelow
      · exact heq ▸ htarget
      · obtain ⟨c, -, hc⟩ := below_iff_child.mp hbelow
        obtain ⟨s, hs, -⟩ := (parent_iff h).mp hc
        exact StatechartDef.state_isSome.mp (by rw [hs]; rfl)
    rw [enterToTarget, hpath]
    refine ⟨node, hstate, ?_, Or.inr ⟨hin, hnode, hwithin⟩⟩
    exact enterPath_enters h history hstate hchain w fun x hx hbelow =>
      hout x hx (inside_of_within hnode hbelow.within)

theorem enterToTarget_regrown (hactive : ∀ d, o = some d → d ∈ keys w.active)
    (hout : ∀ x ∈ keys w.active, ¬ Inside (forest h) x o) :
    Regrown (forest h) (IsParallel chart) (keys w.active) o
        (keys (enterToTarget chart history o target w).active) ∧
      (Filled (forest h) (IsParallel chart)
        (keys (enterToTarget chart history o target w).active) o ↔ ¬ Tears h o target) := by
  obtain ⟨node, -, hplanted, hcase⟩ := enterToTarget_planted h history htarget hin hout
  rcases hcase with ⟨rfl, rfl⟩ | ⟨hin, hnode, hwithin⟩
  · refine ⟨hplanted.regrown_self (hactive _ rfl), iff_of_true hplanted.filled ?_⟩
    rintro ⟨-, hne, -⟩
    exact hne rfl
  · refine ⟨hplanted.regrown hout hnode, (hplanted.filled_iff hout hnode).trans ?_⟩
    refine not_congr (and_congr_right fun _ => ?_)
    constructor
    · rintro ⟨c, hc, hne⟩
      refine ⟨?_, c, hc, fun hw => hne (eq_of_siblings (hc.trans hnode.symm) hw hwithin)⟩
      rintro rfl
      exact not_inside_self hin
    · rintro ⟨-, c, hc, hnot⟩
      refine ⟨c, hc, ?_⟩
      rintro rfl
      exact hnot hwithin

theorem enterToTarget_declared (hout : ∀ x ∈ keys w.active, ¬ Inside (forest h) x o)
    (hdeclared : ∀ x ∈ keys w.active, chart.hasState x = true) :
    ∀ x ∈ keys (enterToTarget chart history o target w).active, chart.hasState x = true := by
  obtain ⟨node, hnode, hplanted, -⟩ := enterToTarget_planted h history htarget hin hout
  intro x hx
  rcases hplanted.only x hx with hold | hwithin
  · exact hdeclared x hold
  · exact hasState_of_within h hnode hwithin

end

end Medulla.Statechart.Hierarchy
