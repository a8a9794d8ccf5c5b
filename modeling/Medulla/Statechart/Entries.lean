import Medulla.Statechart.Legality

/-! # Entry and exit actions

An entry walk activates states one after another, and the actions it adds are the entry blocks of the
states that were not active before (`Entered`).

* entering as a walk: `walks_enterToTarget`;
* one step: `actions_balanced`. -/

namespace Medulla.Statechart.Entries

open Library.Checked Library.OrderedTable Library.OrderedSet Library.Containment Definition
open Check Transition Hierarchy Legality

variable {J : Type} [JsonValue J] {chart : StatechartDef J} {R : Set StateId → StateId → Prop}
  {w w₁ w₂ : Walk J} {xs ys : List StateId} {A : Set StateId} {id : StateId} {h : WellFormed chart}

/-! ### Walks -/

def entryBlock (chart : StatechartDef J) (id : StateId) : List (Action J) :=
  ((chart.state id).map State.entry).getD []

def exitBlock (chart : StatechartDef J) (id : StateId) : List (Action J) :=
  ((chart.state id).map State.exit).getD []

def Joins (R : Set StateId → StateId → Prop) : Set StateId → List StateId → Prop
  | _, [] => True
  | A, x :: xs => x ∉ A ∧ R A x ∧ Joins R (insert x A) xs

structure Entered (chart : StatechartDef J) (R : Set StateId → StateId → Prop) (w : Walk J)
    (xs : List StateId) (w' : Walk J) : Prop where
  joins : Joins R (keys w.active) xs
  active : keys w'.active = keys w.active ∪ {x | x ∈ xs}
  actions : w'.actions = w.actions ++ xs.flatMap (entryBlock chart)

theorem joins_append : ∀ {xs : List StateId} {A : Set StateId},
    Joins R A (xs ++ ys) ↔ Joins R A xs ∧ Joins R (A ∪ {x | x ∈ xs}) ys
  | [], A => by simp [Joins]
  | x :: xs, A => by
    have hset : insert x A ∪ {y | y ∈ xs} = A ∪ {y | y ∈ x :: xs} := by
      ext y
      simp only [Set.mem_union, Set.mem_insert_iff, Set.mem_ofPred_eq, List.mem_cons]
      tauto
    rw [List.cons_append, Joins, Joins, joins_append, hset]
    tauto

theorem Joins.spec : ∀ {xs : List StateId} {A : Set StateId}, Joins R A xs →
    xs.Nodup ∧ ∀ x ∈ xs, x ∉ A
  | [], _, _ => ⟨List.nodup_nil, fun _ hx => nomatch hx⟩
  | x :: xs, A, h => by
    obtain ⟨hnew, -, hrest⟩ := h
    obtain ⟨hnodup, hout⟩ := hrest.spec
    refine ⟨List.nodup_cons.mpr ⟨fun hx => hout x hx (Set.mem_insert _ _), hnodup⟩, ?_⟩
    refine List.forall_mem_cons.mpr ⟨hnew, fun y hy hyA => hout y hy (Set.mem_insert_of_mem _ hyA)⟩

theorem Entered.refl (chart : StatechartDef J) (R : Set StateId → StateId → Prop) (w : Walk J) :
    Entered chart R w [] w := ⟨trivial, by simp, by simp⟩

theorem Entered.trans (h : Entered chart R w xs w₁) (h' : Entered chart R w₁ ys w₂) :
    Entered chart R w (xs ++ ys) w₂ where
  joins := joins_append.mpr ⟨h.joins, h.active ▸ h'.joins⟩
  active := by
    rw [h'.active, h.active, Set.union_assoc]
    ext x
    simp
  actions := by rw [h'.actions, h.actions, List.flatMap_append, List.append_assoc]

theorem Entered.mono (h : Entered chart R w xs w₁) {x : StateId} (hx : x ∈ keys w.active) :
    x ∈ keys w₁.active := by
  rw [h.active]
  exact Or.inl hx

def Walks (chart : StatechartDef J) (R : Set StateId → StateId → Prop) (w w' : Walk J) : Prop :=
  ∃ xs, Entered chart R w xs w'

theorem Walks.trans (h : Walks chart R w w₁) (h' : Walks chart R w₁ w₂) : Walks chart R w w₂ := by
  obtain ⟨xs, hxs⟩ := h
  obtain ⟨ys, hys⟩ := h'
  exact ⟨_, hxs.trans hys⟩

theorem Walks.mono (h : Walks chart R w w₁) {x : StateId} (hx : x ∈ keys w.active) :
    x ∈ keys w₁.active := h.elim fun _ h => h.mono hx

theorem walks_enter (hid : R (keys w.active) id) : Walks chart R w (w.enter chart id) := by
  unfold Walk.enter
  split_ifs with hactive
  · exact ⟨[], .refl chart R w⟩
  · refine ⟨[id], ⟨hactive, hid, trivial⟩, ?_, by simp [entryBlock]⟩
    ext x
    simp [or_comm]

theorem mem_enter (id : StateId) (w : Walk J) : id ∈ keys (w.enter chart id).active := by
  rw [keys_enter]
  exact Set.mem_insert _ _

/-- What an active state contains may join. -/
def AllowsContents (chart : StatechartDef J) (R : Set StateId → StateId → Prop) : Prop :=
  ∀ (A : Set StateId) (p : StateId) (s : State J), chart.state p = some s → p ∈ A →
    ∀ c ∈ s.children, R A c

theorem walks_foldl {f : StateId → Walk J → Walk J} : ∀ {cs : List StateId} {w : Walk J},
    id ∈ keys w.active → (∀ c ∈ cs, ∀ w : Walk J, id ∈ keys w.active → Walks chart R w (f c w)) →
      Walks chart R w (cs.foldl (fun w c => f c w) w)
  | [], w, _, _ => ⟨[], .refl chart R w⟩
  | c :: cs, w, hid, hf => by
    have hfirst := hf c (.head _) w hid
    exact hfirst.trans (walks_foldl (hfirst.mono hid) fun c' hc' => hf c' (.tail _ hc'))

/-- **Entering a state is a walk**, with its inside by default, by history or restored. -/
theorem walks_fuel (h : WellFormed chart) (hR : AllowsContents chart R)
    (history : Table StateId (KeySet StateId)) : ∀ (fuel : ℕ) (id : StateId) (w : Walk J),
      R (keys w.active) id → Walks chart R w (enterFull chart history fuel id w) ∧
        ∀ remembered, Walks chart R w (enterRestore chart history fuel id remembered w)
  | 0, id, w, _ => by
    exact ⟨⟨[], .refl chart R w⟩, fun _ => ⟨[], .refl chart R w⟩⟩
  | fuel + 1, id, w, hid => by
    have hfirst : Walks chart R w (w.enter chart id) := walks_enter hid
    cases hs : descent chart id with
    | none => exact ⟨by simpa only [enterFull, hs], fun _ => by simpa only [enterRestore, hs]⟩
    | some s =>
      obtain ⟨hstate, hne⟩ := descent_eq_some hs
      obtain ⟨d, hd⟩ := Option.ne_none_iff_exists'.mp (defaultChild_ne_none hne)
      have hdmem := defaultChild_mem h (StatechartDef.state_mem hstate).1 hd
      have ih := fun c (hc : c ∈ s.children) (w : Walk J) (hw : id ∈ keys w.active) =>
        walks_fuel h hR history fuel c w (hR _ id s hstate hw c hc)
      have hthen := fun c (hc : c ∈ s.children) => ih c hc (w.enter chart id) (mem_enter id w)
      by_cases hpar : s.parallel = true
      · refine ⟨?_, fun remembered => ?_⟩
        · simp only [enterFull, hs, if_pos hpar]
          exact hfirst.trans (walks_foldl (mem_enter id w) fun c hc w hw => (ih c hc w hw).1)
        · simp only [enterRestore, hs, if_pos hpar]
          refine hfirst.trans (walks_foldl (f := fun c w => if has remembered c then
            enterRestore chart history fuel c remembered w else enterFull chart history fuel c w)
            (mem_enter id w) fun c hc w hw => ?_)
          split_ifs
          · exact (ih c hc w hw).2 remembered
          · exact (ih c hc w hw).1
      · refine ⟨?_, fun remembered => ?_⟩
        · simp only [enterFull, hs, if_neg hpar]
          split
          case _ child _ hchild => exact hfirst.trans (hthen child (rememberedChild_mem hchild)).1
          case _ child memory hchild =>
            exact hfirst.trans ((hthen child (rememberedChild_mem hchild)).2 memory)
          case _ => simpa only [hd] using hfirst.trans (hthen d hdmem).1
        · simp only [enterRestore, hs, if_neg hpar]
          split
          case _ child hchild =>
            exact hfirst.trans ((hthen child (List.mem_of_find?_eq_some hchild)).2 remembered)
          case _ => simpa only [hd] using hfirst.trans (hthen d hdmem).1

theorem walks_enterPath (h : WellFormed chart) (hR : AllowsContents chart R)
    (history : Table StateId (KeySet StateId)) :
    ∀ {node : StateId} {rest : List StateId} {w : Walk J}, IsPath chart (node :: rest) →
      R (keys w.active) node → Walks chart R w (enterPath chart history (node :: rest) w)
  | node, [], w, _, hnode => by
    rw [enterPath]
    exact (walks_fuel h hR history _ node w hnode).1
  | node, next :: rest, w, hpath, hnode => by
    obtain ⟨hnext, hrest⟩ := List.isChain_cons_cons.mp hpath
    obtain ⟨s, hs, hmem⟩ := (parent_iff h).mp hnext
    have hpass : Walks chart R (w.enter chart node) (enterPassThrough chart history node next w) := by
      rw [enterPassThrough, hs]
      dsimp only
      split_ifs
      · exact walks_foldl (mem_enter node w) fun c hc w hw =>
          (walks_fuel h hR history _ c w (hR _ node s hs hw c (List.mem_filter.mp hc).1)).1
      · exact ⟨[], .refl chart R _⟩
    refine (walks_enter hnode).trans (hpass.trans (walks_enterPath h hR history hrest ?_))
    exact hR _ node s hs (hpass.mono (mem_enter node w)) next hmem

/-- **Entering a target is a walk** if the target may join, where it is the domain, and otherwise the
child of the domain on the way to it. -/
theorem walks_enterToTarget (h : WellFormed chart) (hR : AllowsContents chart R)
    (history : Table StateId (KeySet StateId)) {o : Option StateId} {target : StateId}
    (hin : o = some target ∨ Inside (forest h) target o)
    (hnode : ∀ node, o = some target ∧ node = target ∨
      (forest h).parent node = o ∧ Within (forest h) target node → R (keys w.active) node) :
    Walks chart R w (enterToTarget chart history o target w) := by
  rcases hin with rfl | hin
  · rw [enterToTarget, pathTo_domain]
    exact (walks_fuel h hR history _ target w (hnode target (Or.inl ⟨rfl, rfl⟩))).1
  · obtain ⟨node, rest, hpath, hparent, hchain, -, hwithin⟩ := pathTo_spec h hin
    rw [enterToTarget, hpath]
    exact walks_enterPath h hR history hchain (hnode node (Or.inr ⟨hparent, hwithin⟩))

/-! ### Containers first -/

def Contained (h : WellFormed chart) (A : Set StateId) (x : StateId) : Prop :=
  ∀ p, (forest h).parent x = some p → p ∈ A

theorem allows_contained (h : WellFormed chart) : AllowsContents chart (Contained h) := by
  intro A p s hs hp c hc p' hp'
  obtain rfl := Option.some.inj (((parent_iff_mem h hs).mpr hc).symm.trans hp')
  exact hp

def UpClosed (h : WellFormed chart) (A : Set StateId) : Prop := ∀ x ∈ A, Contained h A x

theorem UpClosed.insert (hA : UpClosed h A) (hx : Contained h A id) :
    UpClosed h (insert id A) := by
  rintro y (rfl | hy) p hp
  · exact Set.mem_insert_of_mem _ (hx p hp)
  · exact Set.mem_insert_of_mem _ (hA y hy p hp)

theorem UpClosed.below (hA : UpClosed h A) {x a : StateId}
    (hx : Contained h A x) (hbelow : Below (forest h) x a) : a ∈ A := by
  induction hbelow with
  | single hp => exact hx _ hp
  | tail _ hp ih => exact hA _ ih _ hp

theorem Joins.outer : ∀ {xs : List StateId} {A : Set StateId},
    UpClosed h A → Joins (Contained h) A xs → xs.Pairwise fun x y => ¬ Below (forest h) x y
  | [], _, _, _ => .nil
  | x :: xs, A, hA, hjoins => by
    obtain ⟨-, hx, hrest⟩ := hjoins
    refine .cons (fun y hy hbelow => ?_) (hrest.outer (hA.insert hx))
    exact hrest.spec.2 y hy (Set.mem_insert_of_mem _ (hA.below hx hbelow))

theorem walks_targets (h : WellFormed chart) (history : Table StateId (KeySet StateId)) :
    ∀ {selected : List (Transition J)} {w : Walk J}, UpClosed h (keys w.active) →
      (∀ t ∈ selected, ∀ d, domainOf chart t = some d → d ∈ keys w.active) →
      Walks chart (Contained h) w (selected.foldl
        (fun w t => enterToTarget chart history (domainOf chart t) t.target w) w)
  | [], w, _, _ => ⟨[], .refl chart _ w⟩
  | t :: selected, w, hup, hactive => by
    obtain ⟨hdomain, hrest⟩ := List.forall_mem_cons.mp hactive
    have hfirst : Walks chart (Contained h) w
        (enterToTarget chart history (domainOf chart t) t.target w) := by
      refine walks_enterToTarget h (allows_contained h) history (domainOf_target h t) ?_
      rintro node (⟨hd, rfl⟩ | ⟨hparent, -⟩) p hp
      · exact hup _ (hdomain _ hd) p hp
      · exact hdomain p (hparent.symm.trans hp)
    refine hfirst.trans (walks_targets h history ?_ fun u hu d hd => hfirst.mono (hrest u hu d hd))
    obtain ⟨xs, hxs⟩ := hfirst
    have hclosed : ∀ {xs : List StateId} {A : Set StateId}, UpClosed h A → Joins (Contained h) A xs →
        UpClosed h (A ∪ {x | x ∈ xs}) := by
      intro xs
      induction xs with
      | nil => intro A hA _; simpa using hA
      | cons x xs ih =>
        rintro A hA ⟨-, hx, hjoins⟩
        have hset : A ∪ {y | y ∈ x :: xs} = insert x A ∪ {y | y ∈ xs} := by
          ext y
          simp only [Set.mem_union, Set.mem_insert_iff, Set.mem_ofPred_eq, List.mem_cons]
          tauto
        rw [hset]
        exact ih (hA.insert hx) hjoins
    rw [hxs.active]
    exact hclosed hup hxs.joins

/-! ### Exits -/

theorem actions_foldl_leave : ∀ {ids : List StateId} {w : Walk J},
    (ids.foldl (Walk.leave chart) w).actions = w.actions ++ ids.flatMap (exitBlock chart)
  | [], w => by simp
  | id :: ids, w => by
    rw [List.foldl_cons, actions_foldl_leave, Walk.leave, List.append_assoc]
    rfl

theorem exitsBefore_total (chart : StatechartDef J) (a b : StateId) :
    exitsBefore chart a b ∨ exitsBefore chart b a := by
  rcases lt_trichotomy (depth chart a) (depth chart b) with hlt | heq | hlt
  · exact Or.inr (Or.inl hlt)
  · rcases le_total a b with hle | hle
    · exact Or.inr (Or.inr ⟨heq, hle⟩)
    · exact Or.inl (Or.inr ⟨heq.symm, hle⟩)
  · exact Or.inl (Or.inl hlt)

theorem exitsBefore_trans {a b c : StateId} (h : exitsBefore chart a b) (h' : exitsBefore chart b c) :
    exitsBefore chart a c := by
  unfold exitsBefore at *
  rcases h with h | ⟨h, hab⟩
  · left
    omega
  · rcases h' with h' | ⟨h', hbc⟩
    · left
      omega
    · exact Or.inr ⟨h'.trans h, hbc.trans hab⟩

theorem depth_lt_of_below (h : WellFormed chart) {x a : StateId} (hbelow : Below (forest h) x a) :
    depth chart a < depth chart x := by
  induction hbelow with
  | single hp =>
    have := depth_of_parent h hp
    omega
  | tail _ hp ih =>
    have := depth_of_parent h hp
    omega

def exitOrder (chart : StatechartDef J) (active : KeySet StateId) (selected : List (Transition J)) :
    List StateId :=
  (elems (exitPlan chart active selected)).insertionSort (exitsBefore chart)

theorem exitOrder_spec (h : WellFormed chart) (active : KeySet StateId)
    (selected : List (Transition J)) :
    (exitOrder chart active selected).Nodup ∧
      (exitOrder chart active selected).Pairwise fun x y => ¬ Below (forest h) y x := by
  have htotal : Std.Total (exitsBefore chart) := ⟨exitsBefore_total chart⟩
  have htrans : IsTrans StateId (exitsBefore chart) := ⟨fun _ _ _ => exitsBefore_trans⟩
  refine ⟨(List.perm_insertionSort _ _).nodup_iff.mpr (nodup_elems _), ?_⟩
  refine (List.pairwise_insertionSort (exitsBefore chart) _).imp fun hbefore hbelow => ?_
  have hdepth := depth_lt_of_below h hbelow
  rcases hbefore with hlt | ⟨heq, -⟩
  · omega
  · omega

/-- **Entry and exit actions balance**: the actions of a firing step are the exit blocks of the states
that leave, inside out, then the actions of the transitions, then the entry blocks of the states that
join, outside in, each once. -/
theorem actions_balanced {report : CompletenessReport} (hvalid : validate chart = .ok report)
    (config : Configuration) (hlegal : LegalConfiguration chart config.active) (context : Context J)
    (event : EventInput J) {out : StepOutcome J} (hstep : step chart config context event = .ok out)
    (hfired : out.fired = true) :
    ∃ exits entries : List StateId, out.actions = exits.flatMap (exitBlock chart) ++
        (firing chart config context event).flatMap Transition.actions ++
        entries.flatMap (entryBlock chart) ∧
      (exits.Nodup ∧ exits.Pairwise fun x y => isProperDescendant chart y x = false) ∧
      (entries.Nodup ∧ entries.Pairwise fun x y => isProperDescendant chart x y = false) ∧
      (∀ x, x ∈ exits ↔ has (exitPlan chart config.active (firing chart config context event)) x = true) ∧
      (∀ x ∈ exits, has config.active x = true) ∧
      (∀ x ∈ entries, has config.active x = true → x ∈ exits) ∧
      ∀ x, has out.next.active x = true ↔ has config.active x = true ∧ x ∉ exits ∨ x ∈ entries := by
  have h := wellFormed_of_validate hvalid
  unfold step at hstep
  split_ifs at hstep with halphabet
  cases hfind : (elems config.active).find? fun id => !chart.hasState id with
  | some id =>
    rw [hfind] at hstep
    cases hstep
  | none =>
    have hdeclared : ∀ x ∈ keys config.active, chart.hasState x = true := fun x hx => by
      simpa using List.find?_eq_none.mp hfind x (mem_elems.mpr hx)
    have hforest := (legalConfiguration_iff h hdeclared).mp hlegal
    obtain ⟨hspec, hpairwise⟩ := firing_spec h hforest context event
    rw [hfind] at hstep
    generalize firing chart config context event = selected at hstep hspec hpairwise ⊢
    have hout : out.next.active = (fire chart config selected).1.active ∧
        out.actions = (fire chart config selected).2 := by
      cases selected with
      | nil =>
        obtain rfl := Except.ok.inj hstep
        cases hfired
      | cons t ts =>
        obtain rfl := Except.ok.inj hstep
        exact ⟨rfl, rfl⟩
    have hmem : ∀ x, x ∈ exitOrder chart config.active selected ↔
        has (exitPlan chart config.active selected) x = true := fun x => by
      rw [exitOrder, List.mem_insertionSort, mem_elems]
    have hplan : ∀ x, has (exitPlan chart config.active selected) x = true ↔
        ∃ t ∈ selected, x ∈ keys config.active ∧ Inside (forest h) x (domainOf chart t) := fun x => by
      rw [exitPlan, has_exitPlan]
      simp [mem_exitSet h]
    have hexited : ∀ x, has (runExits chart (exitPlan chart config.active selected)
        ⟨config.active, []⟩).active x = true ↔
          has config.active x = true ∧ x ∉ exitOrder chart config.active selected := fun x => by
      rw [runExits, has_foldl_leave]
      rfl
    have hup : UpClosed h (keys (runExits chart (exitPlan chart config.active selected)
        ⟨config.active, []⟩).active) := by
      intro x hx p hp
      obtain ⟨hxactive, hxout⟩ := (mem_runExits h).mp hx
      refine (mem_runExits h).mpr ⟨hforest.up hxactive hp, fun t ht hinside => ?_⟩
      exact hxout t ht (inside_of_inside_parent hp hinside)
    obtain ⟨entries, hentered⟩ := walks_targets h
      (recordHistory chart config.history (exitPlan chart config.active selected) config.active)
      (w := ⟨(runExits chart (exitPlan chart config.active selected) ⟨config.active, []⟩).active,
        (runExits chart (exitPlan chart config.active selected) ⟨config.active, []⟩).actions ++
          selected.flatMap Transition.actions⟩) hup (domain_kept h hforest hspec hpairwise)
    obtain ⟨hnodup, hnew⟩ := hentered.joins.spec
    refine ⟨exitOrder chart config.active selected, entries, ?_, ?_, ?_, hmem, ?_, ?_, ?_⟩
    · rw [hout.2]
      refine hentered.actions.trans ?_
      rw [runExits, actions_foldl_leave]
      rfl
    · refine ⟨(exitOrder_spec h _ _).1, (exitOrder_spec h _ _).2.imp fun hnot => ?_⟩
      rwa [← Bool.not_eq_true, isProperDescendant_iff h]
    · refine ⟨hnodup, (hentered.joins.outer hup).imp fun hnot => ?_⟩
      rwa [← Bool.not_eq_true, isProperDescendant_iff h]
    · intro x hx
      obtain ⟨t, -, hactive, -⟩ := (hplan x).mp ((hmem x).mp hx)
      exact hactive
    · intro x hx hactive
      by_contra hstays
      exact hnew x hx ((hexited x).mpr ⟨hactive, hstays⟩)
    · intro x
      have hactive := Set.ext_iff.mp hentered.active x
      rw [hout.1]
      refine hactive.trans ?_
      rw [Set.mem_union, mem_keys, hexited]
      rfl

/-- The regions, with a line logged by every state that is entered or left and by every transition. -/
def loggingChart : StatechartDef (Option Int) :=
  { regionsChart with
    states := regionsChart.states.map fun s =>
      { s with entry := [.log ("enter " ++ s.id)], exit := [.log ("exit " ++ s.id)] }
    transitions := regionsChart.transitions.map fun t => { t with actions := [.log t.event] } }

/-- The line an action logs. -/
def loggedLine : Action (Option Int) → Option String
  | .log message => some message
  | _ => none

/-- Moving from `a1` to `a2` exits the one and enters the other. -/
theorem actions_balanced_loggingChart : ∃ (config : Configuration) (out : StepOutcome (Option Int))
    (exits entries : List StateId),
    step loggingChart config Table.empty (EventInput.new "next") = .ok out ∧ out.fired = true ∧
      out.actions.map loggedLine = [some "exit a1", some "next", some "enter a2"] ∧
      out.actions = exits.flatMap (exitBlock loggingChart) ++
        (firing loggingChart config Table.empty (EventInput.new "next")).flatMap Transition.actions ++
        entries.flatMap (entryBlock loggingChart) := by
  obtain ⟨report, hvalid⟩ := accepted (show (validate loggingChart).isOk = true by decide +kernel)
  obtain ⟨config, context, hrun, -, hlegal⟩ :=
    instantiate_spec (wellFormed_of_validate hvalid) Table.empty
  obtain ⟨reached, hreached, hfired⟩ := exists_ok_of_any (r := instantiate loggingChart Table.empty)
    (p := fun reached => (step loggingChart reached.1 Table.empty (EventInput.new "next")).toOption.any
      fun (out : StepOutcome (Option Int)) => out.fired && decide (out.actions.map loggedLine =
        [some "exit a1", some "next", some "enter a2"])) (by decide +kernel)
  obtain rfl := Except.ok.inj (hreached.symm.trans hrun)
  obtain ⟨out, hstep, hout⟩ := exists_ok_of_any hfired
  rw [Bool.and_eq_true, decide_eq_true_iff] at hout
  obtain ⟨exits, entries, hactions, -⟩ := actions_balanced hvalid config
    (hlegal.mpr ⟨by decide, by decide⟩) Table.empty (EventInput.new "next") hstep hout.1
  exact ⟨config, out, exits, entries, hstep, hout.1, hout.2, hactions⟩

end Medulla.Statechart.Entries
