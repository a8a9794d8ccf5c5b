import Medulla.Library.Argumentation
import Medulla.Library.Worklist

/-! # The attack relation of a belief graph

A belief graph has three kinds of edges: support, contradiction and attack. Its arguments are all
nodes that have a prior or stand at an edge. -/

namespace Medulla.Epistemic.Beliefs

open Library.OrderedTable Library.OrderedSet Library.Worklist Library.Argumentation

/-! ### Belief graphs -/

/-- What an edge says about its target. -/
inductive EdgeKind
  | supports | contradicts | attacks
  deriving DecidableEq

/-- The ids that have a prior, and the edges that come in at each target. -/
structure BeliefGraph where
  priors : KeySet String
  inEdges : Table String (List (String × EdgeKind))

def BeliefGraph.edges (bg : BeliefGraph) (target : String) : List (String × EdgeKind) :=
  (bg.inEdges.get target).getD []

def isBaseAttack : EdgeKind → Bool
  | .attacks | .contradicts => true
  | .supports => false

/-- All ids in the graph: those with a prior, and the ends of the edges. -/
def arguments (bg : BeliefGraph) : KeySet String :=
  extend bg.priors (bg.inEdges.rows.flatMap fun r => r.1 :: r.2.map Prod.fst)

def supporters (bg : BeliefGraph) (cur : String) : List String :=
  ((bg.edges cur).filter fun e => e.2 = .supports).map Prod.fst

/-- The nodes that support a node through any number of supports, itself left out. -/
def transitiveSupporters (bg : BeliefGraph) (node : String) : KeySet String :=
  (reachedFrom onTop (supporters bg) (elems (arguments bg)) node).remove node

def addAttacker (bg : BeliefGraph) (result : KeySet String) (e : String × EdgeKind) : KeySet String :=
  if isBaseAttack e.2 then extend (add result e.1) (elems (transitiveSupporters bg e.1)) else result

def augmentedAttackers (bg : BeliefGraph) (target : String) : KeySet String :=
  (bg.edges target).foldl (addAttacker bg) .empty

abbrev AttackerMap := Table String (KeySet String)

def attackerMap (bg : BeliefGraph) : AttackerMap :=
  (arguments bg).mapEntries fun a _ => augmentedAttackers bg a

def attacks (attackers : AttackerMap) (s t : String) : Bool :=
  match attackers.get t with
  | some a => has a s
  | none => false

/-! ### The framework -/

def IsArgument (bg : BeliefGraph) (a : String) : Prop :=
  has bg.priors a = true ∨ (∃ es, bg.inEdges.get a = some es) ∨ ∃ t kind, (a, kind) ∈ bg.edges t

def Supports (bg : BeliefGraph) (s t : String) : Prop := (s, EdgeKind.supports) ∈ bg.edges t

def BaseAttacks (bg : BeliefGraph) (s t : String) : Prop :=
  (s, EdgeKind.attacks) ∈ bg.edges t ∨ (s, EdgeKind.contradicts) ∈ bg.edges t

/-- An attack by the node itself or by a node it supports through a chain. -/
def SupportedAttack (bg : BeliefGraph) (s t : String) : Prop :=
  ∃ x, Relation.ReflTransGen (Supports bg) s x ∧ BaseAttacks bg x t

section
variable {bg : BeliefGraph} {a b s t : String} {kind : EdgeKind}

theorem isArgument_source (h : (a, kind) ∈ bg.edges t) : IsArgument bg a := Or.inr (Or.inr ⟨t, kind, h⟩)

theorem isArgument_target (h : (a, kind) ∈ bg.edges t) : IsArgument bg t := by
  unfold BeliefGraph.edges at h
  cases hes : bg.inEdges.get t with
  | none =>
    rw [hes] at h
    cases h
  | some es => exact Or.inr (Or.inl ⟨es, hes⟩)

theorem isArgument_of_baseAttacks (h : BaseAttacks bg s t) : IsArgument bg s ∧ IsArgument bg t := by
  rcases h with h | h
  · exact ⟨isArgument_source h, isArgument_target h⟩
  · exact ⟨isArgument_source h, isArgument_target h⟩

theorem isArgument_of_supportedAttack (h : SupportedAttack bg s t) :
    IsArgument bg s ∧ IsArgument bg t := by
  obtain ⟨x, hchain, hattack⟩ := h
  obtain ⟨hx, ht⟩ := isArgument_of_baseAttacks hattack
  refine ⟨?_, ht⟩
  rcases Relation.ReflTransGen.cases_head hchain with rfl | ⟨y, hsupport, -⟩
  · exact hx
  · exact isArgument_source hsupport

end

/-- **The argumentation framework of a belief graph.** -/
def framework (bg : BeliefGraph) : Framework String where
  args := {a | IsArgument bg a}
  attacks := SupportedAttack bg
  source_mem := fun h => (isArgument_of_supportedAttack h).1
  target_mem := fun h => (isArgument_of_supportedAttack h).2

/-! ### The search computes it -/

section
variable {bg : BeliefGraph} {a b s t : String}

theorem has_arguments : has (arguments bg) a = true ↔ IsArgument bg a := by
  unfold arguments IsArgument
  rw [has_extend, List.mem_flatMap]
  constructor
  · rintro (h | ⟨⟨t, es⟩, hr, h⟩)
    · exact Or.inl h
    · have hes := Table.mem_rows.mp hr
      rcases List.mem_cons.mp h with rfl | h
      · exact Or.inr (Or.inl ⟨es, hes⟩)
      · obtain ⟨⟨s, kind⟩, he, rfl⟩ := List.mem_map.mp h
        refine Or.inr (Or.inr ⟨t, kind, ?_⟩)
        rw [BeliefGraph.edges, hes]
        exact he
  · rintro (h | ⟨es, hes⟩ | ⟨t, kind, he⟩)
    · exact Or.inl h
    · exact Or.inr ⟨(a, es), Table.mem_rows.mpr hes, .head _⟩
    · unfold BeliefGraph.edges at he
      cases hes : bg.inEdges.get t with
      | none =>
        rw [hes] at he
        cases he
      | some es =>
        rw [hes] at he
        exact Or.inr ⟨(t, es), Table.mem_rows.mpr hes,
          .tail _ (List.mem_map.mpr ⟨(a, kind), he, rfl⟩)⟩

theorem mem_supporters : s ∈ supporters bg t ↔ Supports bg s t := by
  unfold supporters Supports
  simp

theorem has_transitiveSupporters : has (transitiveSupporters bg b) s = true ↔
      s ≠ b ∧ Relation.ReflTransGen (Supports bg) s b := by
  have huniv : ∀ x, ∀ y ∈ supporters bg x, y ∈ elems (arguments bg) := by
    intro x y hy
    rw [mem_elems, has_arguments]
    exact isArgument_source (mem_supporters.mp hy)
  have hswap : (fun x y => y ∈ supporters bg x) = Function.swap (Supports bg) := by
    funext x y
    exact propext mem_supporters
  rw [transitiveSupporters, has_remove, has_reachedFrom puts_onTop huniv, hswap,
    Relation.reflTransGen_swap]

theorem isBaseAttack_iff {e : String × EdgeKind} (he : e ∈ bg.edges t) :
    isBaseAttack e.2 = true → BaseAttacks bg e.1 t := by
  obtain ⟨x, kind⟩ := e
  intro h
  cases kind with
  | attacks => exact Or.inl he
  | contradicts => exact Or.inr he
  | supports => cases h

theorem has_addAttacker {result : KeySet String} {e : String × EdgeKind} :
    has (addAttacker bg result e) s = true ↔ has result s = true ∨
      (isBaseAttack e.2 = true ∧ Relation.ReflTransGen (Supports bg) s e.1) := by
  unfold addAttacker
  by_cases hkind : isBaseAttack e.2 = true
  · rw [if_pos hkind, has_extend, mem_elems, has_transitiveSupporters]
    by_cases hs : s = e.1
    · subst hs
      simp [hkind, Relation.ReflTransGen.refl]
    · simp [hs, hkind]
  · rw [if_neg hkind]
    simp [hkind]

theorem has_foldl_addAttacker : ∀ {es : List (String × EdgeKind)} {result : KeySet String},
    has (es.foldl (addAttacker bg) result) s = true ↔ has result s = true ∨
      ∃ e ∈ es, isBaseAttack e.2 = true ∧ Relation.ReflTransGen (Supports bg) s e.1
  | [], result => by simp
  | e :: es, result => by
    rw [List.foldl_cons, has_foldl_addAttacker, has_addAttacker]
    simp only [List.exists_mem_cons_iff]
    tauto

/-- **The attackers collected are the attackers of the framework.** -/
theorem has_augmentedAttackers :
    has (augmentedAttackers bg t) s = true ↔ (framework bg).attacks s t := by
  rw [augmentedAttackers, has_foldl_addAttacker]
  constructor
  · rintro (h | ⟨e, he, hkind, hchain⟩)
    · cases h
    · exact ⟨e.1, hchain, isBaseAttack_iff he hkind⟩
  · rintro ⟨x, hchain, hx | hx⟩
    · exact Or.inr ⟨_, hx, rfl, hchain⟩
    · exact Or.inr ⟨_, hx, rfl, hchain⟩

theorem get_attackerMap {atk : KeySet String} :
    (attackerMap bg).get a = some atk ↔ IsArgument bg a ∧ augmentedAttackers bg a = atk := by
  rw [attackerMap, Table.get_mapEntries, ← has_arguments, has, Option.map_eq_some_iff,
    Option.isSome_iff_exists]
  constructor
  · rintro ⟨u, hu, h⟩
    exact ⟨⟨u, hu⟩, h⟩
  · rintro ⟨⟨u, hu⟩, h⟩
    exact ⟨u, hu, h⟩

/-- **The attacker map decides the attacks of the framework.** -/
theorem attacks_attackerMap : attacks (attackerMap bg) s t = true ↔ (framework bg).attacks s t := by
  rw [← has_augmentedAttackers]
  unfold attacks
  cases hget : (attackerMap bg).get t with
  | some atk => rw [(get_attackerMap.mp hget).2]
  | none =>
    constructor
    · intro h
      cases h
    · intro h
      have ht := (framework bg).target_mem (has_augmentedAttackers.mp h)
      rw [get_attackerMap.mpr ⟨ht, rfl⟩] at hget
      cases hget

end

end Medulla.Epistemic.Beliefs
