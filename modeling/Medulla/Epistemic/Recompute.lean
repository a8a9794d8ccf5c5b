import Medulla.Epistemic.Grounded
import Medulla.Library.Postings

/-! # Truth maintenance

A registry tracks materializations: derived values with the ids they depend on and the activity that
generated them. Two reverse indexes, by dependency and by generator, are kept beside it and rewritten
by every registration.

* one event: `noted_marks`;
* every run: `stale_never_looks_fresh`. -/

namespace Medulla.Epistemic.Recompute

open Library.OrderedTable Library.OrderedSet Library.Postings Library.Worklist Beliefs
open Grounded

variable {t : Index String String}

/-! ### Retraction in the belief graph -/

def removeNodes (bg : BeliefGraph) (removed : KeySet String) : BeliefGraph where
  priors := keep (fun k => !has removed k) bg.priors
  inEdges :=
    (((bg.inEdges.filter fun target _ => !has removed target).mapValues fun edges =>
      edges.filter fun e => !has removed e.1).filter fun _ edges => !edges.isEmpty)

def removeNode (bg : BeliefGraph) (id : String) : BeliefGraph := removeNodes bg (add .empty id)

/-- The arguments whose acceptance changes when evidence is withdrawn. -/
structure RetractionResult where
  evidenceId : String
  retracted : List String
  reinstated : List String

def retract (bg : BeliefGraph) (evidenceId : String) : RetractionResult :=
  let before := groundedLabels bg
  let after := groundedLabels (removeNode bg evidenceId)
  let allIds := elems (extend (extend .empty (before.rows.map Prod.fst)) (after.rows.map Prod.fst))
  let wasIn := fun id => decide (before.get id = some .accepted)
  let isIn := fun id => decide (after.get id = some .accepted)
  { evidenceId
    retracted := allIds.filter fun id => id ≠ evidenceId && wasIn id && !isIn id
    reinstated := allIds.filter fun id => id ≠ evidenceId && !wasIn id && isIn id }

/-! ### The registry -/

inductive MaterializationStatus
  | fresh | stale | retracted
  deriving DecidableEq

inductive ChangeEvent
  | deleted (id : String)
  | updated (id : String)
  | policyChanged (id : String)
  | modelRetired (id : String)
  | ontologyEvolved (id : String)

def ChangeEvent.subject : ChangeEvent → String
  | .deleted id | .updated id | .policyChanged id | .modelRetired id | .ontologyEvolved id => id

/-- Whether a materialization tracked at the subject is gone, not only stale. -/
def ChangeEvent.retractsSubject : ChangeEvent → Bool
  | .updated _ => false
  | _ => true

def ChangeEvent.retiredGenerator : ChangeEvent → Option String
  | .modelRetired id | .ontologyEvolved id => some id
  | _ => none

/-- A derived value: what it derives from and what produced it. -/
structure Materialization where
  id : String
  dependsOn : KeySet String
  generatingActivity : Option String
  status : MaterializationStatus

structure TruthMaintenance where
  materializations : Table String Materialization
  dependents : Index String String
  generators : Index String String

def TruthMaintenance.new : TruthMaintenance := ⟨.empty, .empty, .empty⟩

def Materialization.inputs (m : Materialization) : List String := elems m.dependsOn

def Materialization.makers (m : Materialization) : List String := m.generatingActivity.toList

def fromMaterializations (ms : Table String Materialization) : Except String TruthMaintenance :=
  if ms.rows.all fun r => r.1 = r.2.id then
    .ok ⟨ms, build Materialization.inputs ms, build Materialization.makers ms⟩
  else .error "truth-maintenance materialization key does not match its identity"

/-- Drop a materialization and its reverse-index entries. -/
def unregister (tm : TruthMaintenance) (id : String) : TruthMaintenance :=
  match tm.materializations.get id with
  | some old =>
    { materializations := tm.materializations.remove id
      dependents := old.inputs.foldl (withdraw id) tm.dependents
      generators := old.makers.foldl (withdraw id) tm.generators }
  | none => tm

def register (tm : TruthMaintenance) (id : String) (dependsOn : List String)
    (generatingActivity : Option String) : TruthMaintenance :=
  let m : Materialization := ⟨id, extend .empty dependsOn, generatingActivity, .fresh⟩
  { materializations := (unregister tm id).materializations.insert id m
    dependents := m.inputs.foldl (file id) (unregister tm id).dependents
    generators := m.makers.foldl (file id) (unregister tm id).generators }

def statusOf (tm : TruthMaintenance) (id : String) : Option MaterializationStatus :=
  (tm.materializations.get id).map (·.status)

def direct (tm : TruthMaintenance) (cur : String) : List String := elems (posting tm.dependents cur)

/-- Everything that depends on an id, directly or through other materializations. -/
def dependentsOf (tm : TruthMaintenance) (id : String) : KeySet String :=
  reached atEnd (direct tm) (tm.dependents.rows.flatMap fun r => elems r.2) id

def setStatus (tm : TruthMaintenance) (m : Materialization) (id : String)
    (status : MaterializationStatus) : TruthMaintenance :=
  { tm with materializations := tm.materializations.insert id { m with status } }

def staleUnlessRetracted (tm : TruthMaintenance) (id : String) : TruthMaintenance × Bool :=
  match tm.materializations.get id with
  | some m =>
    if m.status ≠ .retracted then (setStatus tm m id .stale, !decide (m.status = .stale))
    else (tm, false)
  | none => (tm, false)

/-- The registry in the course of an event, and the ids whose status changed. -/
structure Propagation where
  tm : TruthMaintenance
  changed : KeySet String

def noteStale (p : Propagation) (id : String) : Propagation where
  tm := (staleUnlessRetracted p.tm id).1
  changed := if (staleUnlessRetracted p.tm id).2 then add p.changed id else p.changed

def noteProduct (p : Propagation) (id : String) : Propagation :=
  (elems (dependentsOf (noteStale p id).tm id)).foldl noteStale (noteStale p id)

def noteSubject (event : ChangeEvent) (p : Propagation) : Propagation :=
  if event.retractsSubject then
    match p.tm.materializations.get event.subject with
    | some m => ⟨setStatus p.tm m event.subject .retracted, add p.changed event.subject⟩
    | none => p
  else noteStale p event.subject

def generatorHit (tm : TruthMaintenance) (event : ChangeEvent) : List String :=
  match event.retiredGenerator with
  | some generator => elems (posting tm.generators generator)
  | none => []

def onChange (tm : TruthMaintenance) (event : ChangeEvent) : Propagation :=
  let p := (elems (dependentsOf tm event.subject)).foldl noteStale ⟨tm, .empty⟩
  noteSubject event ((generatorHit p.tm event).foldl noteProduct p)

/-- Run a recomputation: fresh against new dependencies, or retracted. -/
def recompute {T E : Type} (tm : TruthMaintenance) (id : String) :
    Except E (T × KeySet String) → TruthMaintenance × Except E T
  | .ok (value, newDeps) =>
    (register tm id (elems newDeps) ((tm.materializations.get id).bind (·.generatingActivity)), .ok value)
  | .error err =>
    match tm.materializations.get id with
    | some m => (setStatus tm m id .retracted, .error err)
    | none => (tm, .error err)

def propagate (p : Propagation) (casualty : String) : Propagation where
  tm := (onChange p.tm (.deleted casualty)).tm
  changed := extend p.changed (elems (onChange p.tm (.deleted casualty)).changed)

def retractAndPropagate (tm : TruthMaintenance) (bg : BeliefGraph) (evidenceId : String) :
    RetractionResult × Propagation :=
  (retract bg evidenceId,
    (retract bg evidenceId).retracted.foldl propagate (propagate ⟨tm, .empty⟩ evidenceId))

/-! ### Runs -/

/-- A call on the registry; a recomputation comes with its outcome. -/
inductive Op (T E : Type)
  | register (id : String) (dependsOn : List String) (generatingActivity : Option String)
  | onChange (event : ChangeEvent)
  | recompute (id : String) (outcome : Except E (T × KeySet String))
  | retractAndPropagate (bg : BeliefGraph) (evidenceId : String)

def apply {T E : Type} (tm : TruthMaintenance) : Op T E → TruthMaintenance
  | .register id dependsOn generator => register tm id dependsOn generator
  | .onChange event => (onChange tm event).tm
  | .recompute id outcome => (recompute tm id outcome).1
  | .retractAndPropagate bg evidenceId => (retractAndPropagate tm bg evidenceId).2.tm

/-- The registry after a sequence of calls, from an empty one. -/
def after {T E : Type} (ops : List (Op T E)) : TruthMaintenance := ops.foldl apply .new

/-! ### What depends on what -/

/-- A tracked materialization names an id among its dependencies. -/
def DependsOn (tm : TruthMaintenance) (x y : String) : Prop :=
  ∃ m, tm.materializations.get y = some m ∧ has m.dependsOn x = true

def ProducedBy (tm : TruthMaintenance) (generator y : String) : Prop :=
  ∃ m, tm.materializations.get y = some m ∧ m.generatingActivity = some generator

/-- **What an event affects**: the dependents of its subject through any chain, and for a retired
generator its products with their dependents. -/
def Affected (tm : TruthMaintenance) (event : ChangeEvent) (k : String) : Prop :=
  Relation.TransGen (DependsOn tm) event.subject k ∨
    ∃ generator, event.retiredGenerator = some generator ∧
      ∃ y, ProducedBy tm generator y ∧ Relation.ReflTransGen (DependsOn tm) y k

/-- The reverse indexes say what the registry says. -/
structure Indexed (tm : TruthMaintenance) : Prop where
  keyed : ∀ k m, tm.materializations.get k = some m → m.id = k
  dependents : ∀ x k, listed tm.dependents x k =
    (tm.materializations.get k).any fun m => decide (x ∈ m.inputs)
  generators : ∀ x k, listed tm.generators x k =
    (tm.materializations.get k).any fun m => decide (x ∈ m.makers)
  trimDependents : Trim tm.dependents
  trimGenerators : Trim tm.generators

section
variable {tm : TruthMaintenance} {x y k id : String}

theorem mem_posting_iff : k ∈ elems (posting t x) ↔ listed t x k = true := mem_elems

theorem Indexed.mem_direct (h : Indexed tm) : k ∈ direct tm x ↔ DependsOn tm x k := by
  rw [direct, mem_posting_iff, h.dependents, Option.any_eq_true]
  simp only [Materialization.inputs, mem_elems, decide_eq_true_iff]
  rfl

theorem Indexed.mem_products (h : Indexed tm) :
    k ∈ elems (posting tm.generators x) ↔ ProducedBy tm x k := by
  rw [mem_posting_iff, h.generators, Option.any_eq_true]
  simp only [Materialization.makers, Option.mem_toList, decide_eq_true_iff]
  rfl

/-- **The search over the reverse index finds the dependents through any chain.** -/
theorem Indexed.has_dependentsOf (h : Indexed tm) :
    has (dependentsOf tm id) k = true ↔ Relation.TransGen (DependsOn tm) id k := by
  have huniv : ∀ x, ∀ y ∈ direct tm x, y ∈ tm.dependents.rows.flatMap fun r => elems r.2 := by
    intro x y hy
    unfold direct posting at hy
    cases hget : tm.dependents.get x with
    | none =>
      rw [hget] at hy
      simp at hy
    | some ids =>
      rw [hget] at hy
      exact List.mem_flatMap.mpr ⟨(x, ids), Table.mem_rows.mpr hget, hy⟩
  have hrel : (fun x y => y ∈ direct tm x) = DependsOn tm := by
    funext x y
    exact propext h.mem_direct
  rw [dependentsOf, has_reached puts_atEnd huniv, hrel]

theorem Indexed.fromMaterializations_eq (h : Indexed tm) :
    fromMaterializations tm.materializations = .ok tm := by
  have hall : tm.materializations.rows.all (fun r => r.1 = r.2.id) = true := by
    refine List.all_eq_true.mpr fun r hr => decide_eq_true ?_
    exact (h.keyed r.1 r.2 (Table.mem_rows.mp hr)).symm
  have hdeps : build Materialization.inputs tm.materializations = tm.dependents :=
    trim_build.eq_of_listed h.trimDependents fun x k => by rw [listed_build, h.dependents]
  have hgens : build Materialization.makers tm.materializations = tm.generators :=
    trim_build.eq_of_listed h.trimGenerators fun x k => by rw [listed_build, h.generators]
  rw [fromMaterializations, if_pos hall, hdeps, hgens]

end

/-! ### Registration -/

section
variable {tm : TruthMaintenance} {id : String}

theorem indexed_new : Indexed TruthMaintenance.new where
  keyed := fun _ _ h => by cases h
  dependents := fun _ _ => rfl
  generators := fun _ _ => rfl
  trimDependents := trim_empty
  trimGenerators := trim_empty

section
variable {keys : Materialization → List String} {ms : Table String Materialization}

theorem listed_withdraw_row {old : Materialization}
    (h : ∀ x k, listed t x k = (ms.get k).any fun m => decide (x ∈ keys m))
    (hold : ms.get id = some old) (x k : String) :
    listed ((keys old).foldl (withdraw id) t) x k =
      ((ms.remove id).get k).any fun m => decide (x ∈ keys m) := by
  rw [listed_foldl_withdraw, h, Table.get_remove]
  by_cases hk : k = id
  · subst hk
    rw [hold]
    simp
  · rw [if_neg hk]
    simp [hk]

theorem listed_file_row
    {m : Materialization} (h : ∀ x k, listed t x k = (ms.get k).any fun m => decide (x ∈ keys m))
    (hnone : ms.get id = none) (x k : String) :
    listed ((keys m).foldl (file id) t) x k =
      ((ms.insert id m).get k).any fun m => decide (x ∈ keys m) := by
  rw [listed_foldl_file, h, Table.get_insert]
  by_cases hk : k = id
  · subst hk
    rw [hnone]
    simp
  · rw [if_neg hk]
    simp [hk]

end

theorem Indexed.unregister (h : Indexed tm) (id : String) :
    Indexed (unregister tm id) ∧ (unregister tm id).materializations.get id = none := by
  unfold Recompute.unregister
  cases hget : tm.materializations.get id with
  | none => exact ⟨h, hget⟩
  | some old =>
    refine ⟨⟨fun k m hm => ?_, listed_withdraw_row h.dependents hget,
      listed_withdraw_row h.generators hget, h.trimDependents.foldl_withdraw,
      h.trimGenerators.foldl_withdraw⟩, Table.get_remove_self ..⟩
    simp only [Table.get_remove] at hm
    split_ifs at hm
    exact h.keyed k m hm

theorem Indexed.register (h : Indexed tm) {dependsOn : List String} {generator : Option String} :
    Indexed (register tm id dependsOn generator) := by
  obtain ⟨hu, hnone⟩ := h.unregister id
  refine ⟨fun k m hm => ?_, listed_file_row hu.dependents hnone, listed_file_row hu.generators hnone,
    hu.trimDependents.foldl_file, hu.trimGenerators.foldl_file⟩
  simp only [Recompute.register, Table.get_insert] at hm
  split_ifs at hm with hk
  · rw [hk, ← Option.some.inj hm]
  · exact hu.keyed k m hm

end

/-! ### Marks -/

def staled : MaterializationStatus → MaterializationStatus
  | .retracted => .retracted
  | _ => .stale

def Materialization.staled (m : Materialization) : Materialization :=
  { m with status := Recompute.staled m.status }

/-- The second registry is the first with a set of materializations marked. -/
structure Marks (tm tm' : TruthMaintenance) (S : Set String) : Prop where
  dependents : tm'.dependents = tm.dependents
  generators : tm'.generators = tm.generators
  marked : ∀ k ∈ S, tm'.materializations.get k =
    (tm.materializations.get k).map Materialization.staled
  kept : ∀ k ∉ S, tm'.materializations.get k = tm.materializations.get k

section
variable {tm tm₁ tm₂ : TruthMaintenance} {S S₁ : Set String} {k id : String}

theorem staled_staled (m : Materialization) : m.staled.staled = m.staled := by
  obtain ⟨id, deps, gen, status⟩ := m
  cases status with
  | fresh => rfl
  | stale => rfl
  | retracted => rfl

theorem Marks.refl : Marks tm tm ∅ where
  dependents := rfl
  generators := rfl
  marked := fun _ h => absurd h (Set.notMem_empty _)
  kept := fun _ _ => rfl

section
variable (h : Marks tm tm₁ S)
include h

theorem Marks.trans (h₁ : Marks tm₁ tm₂ S₁) : Marks tm tm₂ (S ∪ S₁) where
  dependents := h₁.dependents.trans h.dependents
  generators := h₁.generators.trans h.generators
  marked := fun k hk => by
    by_cases hS₁ : k ∈ S₁
    · rw [h₁.marked k hS₁]
      by_cases hS : k ∈ S
      · rw [h.marked k hS, Option.map_map]
        exact congrArg (fun f => Option.map f _) (funext staled_staled)
      · rw [h.kept k hS]
    · rw [h₁.kept k hS₁, h.marked k (hk.resolve_right hS₁)]
  kept := fun k hk => by
    rw [h₁.kept k fun hS₁ => hk (Or.inr hS₁), h.kept k fun hS => hk (Or.inl hS)]

theorem Marks.any {f : Materialization → Bool}
    (hf : ∀ m : Materialization, f m.staled = f m) :
    (tm₁.materializations.get k).any f = (tm.materializations.get k).any f := by
  by_cases hk : k ∈ S
  · rw [h.marked k hk]
    cases tm.materializations.get k with
    | none => rfl
    | some m => exact hf m
  · rw [h.kept k hk]

theorem Marks.indexed (hi : Indexed tm) : Indexed tm₁ where
  keyed := fun k m hm => by
    by_cases hk : k ∈ S
    · rw [h.marked k hk] at hm
      obtain ⟨m₀, hm₀, rfl⟩ := Option.map_eq_some_iff.mp hm
      exact hi.keyed k m₀ hm₀
    · rw [h.kept k hk] at hm
      exact hi.keyed k m hm
  dependents := fun x k => by
    rw [h.dependents, hi.dependents]
    exact (h.any fun _ => rfl).symm
  generators := fun x k => by
    rw [h.generators, hi.generators]
    exact (h.any fun _ => rfl).symm
  trimDependents := h.dependents ▸ hi.trimDependents
  trimGenerators := h.generators ▸ hi.trimGenerators

theorem Marks.direct_eq : direct tm₁ = direct tm := by
  unfold direct
  rw [h.dependents]

theorem Marks.dependentsOf_eq : dependentsOf tm₁ id = dependentsOf tm id := by
  rw [dependentsOf, dependentsOf, h.direct_eq, h.dependents]

theorem Marks.congr (hS : ∀ k, k ∈ S ↔ k ∈ S₁) : Marks tm tm₁ S₁ := by
  rw [← Set.ext hS]
  exact h

/-! ### One event -/

end

theorem noteStale_marks {p : Propagation} : Marks p.tm (noteStale p id).tm {id} := by
  unfold noteStale staleUnlessRetracted
  cases hget : p.tm.materializations.get id with
  | none =>
    refine ⟨rfl, rfl, fun k hk => ?_, fun _ _ => rfl⟩
    rw [Set.mem_singleton_iff.mp hk]
    simp only [hget]
    rfl
  | some m =>
    by_cases hm : m.status = .retracted
    · simp only [hm, ne_eq, not_true_eq_false, if_false]
      refine ⟨rfl, rfl, fun k hk => ?_, fun _ _ => rfl⟩
      rw [Set.mem_singleton_iff.mp hk, hget, Option.map_some, Materialization.staled, hm, staled, ← hm]
    · simp only [ne_eq, hm, not_false_eq_true, if_true]
      refine ⟨rfl, rfl, fun k hk => ?_, fun k hk => ?_⟩
      · rw [Set.mem_singleton_iff.mp hk, hget, setStatus]
        simp only [Table.get_insert_self]
        obtain ⟨i, deps, gen, status⟩ := m
        cases status with
        | fresh => rfl
        | stale => rfl
        | retracted => exact absurd rfl hm
      · exact Table.get_insert_of_ne _ _ fun h => hk (Set.mem_singleton_iff.mpr h)

theorem foldl_noteStale_marks : ∀ (ids : List String) (p : Propagation),
    Marks p.tm (ids.foldl noteStale p).tm {k | k ∈ ids}
  | [], p => Marks.refl.congr fun k => by simp
  | id :: ids, p =>
    (noteStale_marks.trans (foldl_noteStale_marks ids (noteStale p id))).congr fun k => by
      simp [Set.mem_ofPred_eq]

theorem noteProduct_marks {p : Propagation} (id : String) (h : Indexed p.tm) :
    Marks p.tm (noteProduct p id).tm {k | Relation.ReflTransGen (DependsOn p.tm) id k} := by
  refine (noteStale_marks.trans (foldl_noteStale_marks _ _)).congr fun k => ?_
  rw [noteStale_marks.dependentsOf_eq]
  simp only [Set.mem_union, Set.mem_singleton_iff, Set.mem_ofPred_eq, mem_elems, h.has_dependentsOf]
  rw [Relation.reflTransGen_iff_eq_or_transGen]

theorem Marks.dependsOn_eq (h : Marks tm tm₁ S) (hi : Indexed tm) : DependsOn tm₁ = DependsOn tm := by
  funext x y
  rw [← propext hi.mem_direct, ← propext (h.indexed hi).mem_direct, h.direct_eq]

theorem foldl_noteProduct_marks : ∀ (ids : List String) {p : Propagation}, Indexed p.tm →
    Marks p.tm (ids.foldl noteProduct p).tm
      {k | ∃ y ∈ ids, Relation.ReflTransGen (DependsOn p.tm) y k}
  | [], p, _ => Marks.refl.congr fun k => by simp
  | id :: ids, p, h => by
    have hone := noteProduct_marks id h
    have hrest := foldl_noteProduct_marks ids (hone.indexed h)
    rw [hone.dependsOn_eq h] at hrest
    refine (hone.trans hrest).congr fun k => ?_
    simp [Set.mem_ofPred_eq]

end

section
variable {tm : TruthMaintenance} {event : ChangeEvent} {k : String}

def noted (tm : TruthMaintenance) (event : ChangeEvent) : Propagation :=
  let p := (elems (dependentsOf tm event.subject)).foldl noteStale ⟨tm, .empty⟩
  (generatorHit p.tm event).foldl noteProduct p

theorem onChange_eq : onChange tm event = noteSubject event (noted tm event) := rfl

/-- **A change event marks exactly what it affects**, its subject apart. -/
theorem noted_marks (h : Indexed tm) (event : ChangeEvent) :
    Marks tm (noted tm event).tm {k | Affected tm event k} := by
  have hfirst := foldl_noteStale_marks (elems (dependentsOf tm event.subject)) ⟨tm, .empty⟩
  have hi := hfirst.indexed h
  refine (hfirst.trans (foldl_noteProduct_marks _ hi)).congr fun k => ?_
  rw [hfirst.dependsOn_eq h]
  simp only [Set.mem_union, Set.mem_ofPred_eq, mem_elems, h.has_dependentsOf, Affected]
  unfold generatorHit
  cases event.retiredGenerator with
  | none => simp
  | some generator =>
    rw [hfirst.generators]
    simp only [h.mem_products, Option.some.injEq, exists_eq_left']

theorem noteSubject_cases (event : ChangeEvent) (p : Propagation) :
    Marks p.tm (noteSubject event p).tm {event.subject} ∨
      ∃ m, p.tm.materializations.get event.subject = some m ∧
        (noteSubject event p).tm = setStatus p.tm m event.subject .retracted := by
  unfold noteSubject
  by_cases hretracts : event.retractsSubject = true
  · rw [if_pos hretracts]
    cases hget : p.tm.materializations.get event.subject with
    | some m => exact Or.inr ⟨m, rfl, rfl⟩
    | none =>
      refine Or.inl ⟨rfl, rfl, fun k hk => ?_, fun _ _ => rfl⟩
      rw [Set.mem_singleton_iff.mp hk, hget]
      rfl
  · rw [if_neg hretracts]
    exact Or.inl noteStale_marks

theorem Indexed.setStatus (h : Indexed tm) {m : Materialization} {id : String}
    {status : MaterializationStatus} (hm : tm.materializations.get id = some m) :
    Indexed (setStatus tm m id status) := by
  have hany : ∀ (f : Materialization → Bool) (k : String), f { m with status } = f m →
      ((tm.materializations.insert id { m with status }).get k).any f =
        (tm.materializations.get k).any f := by
    intro f k hf
    rw [Table.get_insert]
    by_cases hk : k = id
    · rw [if_pos hk, hk, hm]
      exact hf
    · rw [if_neg hk]
  refine ⟨fun k m' hm' => ?_, fun x k => ?_, fun x k => ?_, h.trimDependents, h.trimGenerators⟩
  · simp only [Recompute.setStatus, Table.get_insert] at hm'
    split_ifs at hm' with hk
    · rw [← Option.some.inj hm', hk]
      exact h.keyed id m hm
    · exact h.keyed k m' hm'
  · exact (h.dependents x k).trans (hany _ k rfl).symm
  · exact (h.generators x k).trans (hany _ k rfl).symm

theorem Indexed.change (h : Indexed tm) : Indexed (onChange tm event).tm := by
  have hnoted := (noted_marks h event).indexed h
  rw [onChange_eq]
  rcases noteSubject_cases event (noted tm event) with hmarks | ⟨m, hm, heq⟩
  · exact hmarks.indexed hnoted
  · rw [heq]
    exact hnoted.setStatus hm

/-! ### Runs -/

theorem Indexed.recompute {T E : Type} (h : Indexed tm) {id : String} :
    ∀ {outcome : Except E (T × KeySet String)}, Indexed (recompute tm id outcome).1
  | .ok (value, newDeps) => h.register
  | .error err => by
    unfold Recompute.recompute
    cases hget : tm.materializations.get id with
    | some m => exact h.setStatus hget
    | none => exact h

theorem indexed_foldl_propagate : ∀ {casualties : List String} {p : Propagation}, Indexed p.tm →
    Indexed (casualties.foldl propagate p).tm
  | [], _, h => h
  | casualty :: _, p, h => indexed_foldl_propagate (p := propagate p casualty) h.change

theorem Indexed.apply {T E : Type} (h : Indexed tm) : ∀ op : Op T E, Indexed (apply tm op)
  | .register _ _ _ => h.register
  | .onChange _ => h.change
  | .recompute _ _ => h.recompute
  | .retractAndPropagate _ _ => indexed_foldl_propagate h.change

theorem indexed_after {T E : Type} : ∀ (ops : List (Op T E)) (tm : TruthMaintenance), Indexed tm →
    Indexed (ops.foldl apply tm)
  | [], _, h => h
  | op :: ops, tm, h => indexed_after ops (apply tm op) (h.apply op)

theorem affected_tracked (h : Affected tm event k) : ∃ m, tm.materializations.get k = some m := by
  rcases h with h | ⟨generator, -, y, ⟨m, hm, -⟩, h⟩
  · obtain ⟨x, -, m, hm, -⟩ := Relation.TransGen.tail'_iff.mp h
    exact ⟨m, hm⟩
  · rcases Relation.ReflTransGen.cases_tail h with rfl | ⟨x, -, m', hm', -⟩
    · exact ⟨m, hm⟩
    · exact ⟨m', hm'⟩

theorem staled_cases (m : Materialization) : m.staled.status = .stale ∨ m.staled.status = .retracted := by
  obtain ⟨id, deps, gen, status⟩ := m
  cases status with
  | fresh => exact Or.inl rfl
  | stale => exact Or.inl rfl
  | retracted => exact Or.inr rfl

theorem Indexed.not_fresh (h : Indexed tm) (hk : Affected tm event k) :
    statusOf (onChange tm event).tm k = some .stale ∨
      statusOf (onChange tm event).tm k = some .retracted := by
  obtain ⟨m, hm⟩ := affected_tracked hk
  have hmarked := (noted_marks h event).marked k hk
  rw [hm, Option.map_some] at hmarked
  unfold statusOf
  rw [onChange_eq]
  rcases noteSubject_cases event (noted tm event) with hmarks | ⟨m', hm', heq⟩
  · have hstale : (noteSubject event (noted tm event)).tm.materializations.get k = some m.staled := by
      by_cases hs : k ∈ ({event.subject} : Set String)
      · rw [hmarks.marked k hs, hmarked, Option.map_some, staled_staled]
      · rw [hmarks.kept k hs, hmarked]
    rw [hstale]
    exact (staled_cases m).imp (congrArg some) (congrArg some)
  · rw [heq, Recompute.setStatus]
    by_cases hs : k = event.subject
    · refine Or.inr ?_
      simp only [hs, Table.get_insert_self, Option.map_some]
    · simp only [Table.get_insert_of_ne _ _ hs, hmarked]
      exact (staled_cases m).imp (congrArg some) (congrArg some)

theorem Indexed.unaffected (h : Indexed tm) (hk : ¬ Affected tm event k) (hs : k ≠ event.subject) :
    (onChange tm event).tm.materializations.get k = tm.materializations.get k := by
  have hkept := (noted_marks h event).kept k hk
  rw [onChange_eq]
  rcases noteSubject_cases event (noted tm event) with hmarks | ⟨m', hm', heq⟩
  · rw [hmarks.kept k fun hmem => hs (Set.mem_singleton_iff.mp hmem), hkept]
  · rw [heq, Recompute.setStatus]
    simp only [Table.get_insert_of_ne _ _ hs, hkept]

end

/-- **No stale answer looks fresh.** After any calls, an event leaves every affected materialization
stale or retracted and all others but its subject as they were, and the reverse indexes are those of a
rebuild. -/
theorem stale_never_looks_fresh {T E : Type} (ops : List (Op T E)) (event : ChangeEvent) :
    let tm := after ops
    (∀ k, Affected tm event k → statusOf (onChange tm event).tm k = some .stale ∨
        statusOf (onChange tm event).tm k = some .retracted) ∧
      (∀ k, ¬ Affected tm event k → k ≠ event.subject →
        (onChange tm event).tm.materializations.get k = tm.materializations.get k) ∧
      fromMaterializations tm.materializations = .ok tm ∧
      fromMaterializations (onChange tm event).tm.materializations = .ok (onChange tm event).tm := by
  have h : Indexed (after ops) := indexed_after ops _ indexed_new
  exact ⟨fun k hk => h.not_fresh hk, fun k hk hs => h.unaffected hk hs, h.fromMaterializations_eq,
    h.change.fromMaterializations_eq⟩

end Medulla.Epistemic.Recompute
