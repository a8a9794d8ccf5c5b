import Mathlib.Data.Set.Insert
import Mathlib.Tactic.Common

/-! # Containment forests

A forest is given by the container of each node; climbing from container to container always ends.
`Below x a` says that `a` properly contains `x`, `Within x a` allows `x = a`.

## Main results

- `legal_iff_filled`: rearranging the inside of disjoint domains of a legal set.
- `Planted.consistent`: planting a growth in a set of nodes that stand together. -/

namespace Medulla.Library.Containment

open Relation

/-- A containment forest: every node has at most one container, and climbing always ends. -/
structure Forest (α : Type*) where
  parent : α → Option α
  wf : WellFounded fun p x => parent x = some p

variable {α : Type*} (F : Forest α)

/-- The node `a` properly contains `x`. -/
def Below (x a : α) : Prop := TransGen (fun y p => F.parent y = some p) x a

/-- The node `a` contains `x` or is `x`. -/
def Within (x a : α) : Prop := ReflTransGen (fun y p => F.parent y = some p) x a

/-- The node lies properly inside a domain. -/
def Inside (x : α) (o : Option α) : Prop := ∀ d, o = some d → Below F x d

variable {F} {x y a b c : α} {o : Option α} {A B : Set α}

/-! ### Containment -/

theorem Within.refl (x : α) : Within F x x := ReflTransGen.refl

theorem within_iff : Within F x a ↔ x = a ∨ Below F x a := by
  rw [Within, reflTransGen_iff_eq_or_transGen, eq_comm]
  rfl

theorem Below.within (h : Below F x a) : Within F x a := TransGen.to_reflTransGen h

theorem below_of_parent (h : F.parent x = some a) : Below F x a := TransGen.single h

theorem Below.trans_within (h : Below F x a) (h' : Within F a b) : Below F x b :=
  TransGen.trans_left h h'

theorem Within.trans_below (h : Within F x a) (h' : Below F a b) : Below F x b :=
  TransGen.trans_right h h'

theorem Within.trans (h : Within F x a) (h' : Within F a b) : Within F x b :=
  ReflTransGen.trans h h'

theorem below_iff_parent : Below F x a ↔ ∃ p, F.parent x = some p ∧ Within F p a :=
  TransGen.head'_iff

theorem below_iff_child : Below F x a ↔ ∃ c, Within F x c ∧ F.parent c = some a :=
  TransGen.tail'_iff

theorem not_below_self (x : α) : ¬ Below F x x := by
  induction x using F.wf.induction with
  | _ x ih =>
    intro h
    obtain ⟨p, hp, hpx⟩ := below_iff_parent.mp h
    exact ih p hp (hpx.trans_below (below_of_parent hp))

theorem not_below_of_within (h : Within F x a) : ¬ Below F a x :=
  fun h' => not_below_self x (h.trans_below h')

theorem within_linear (ha : Within F x a) (hb : Within F x b) : Within F a b ∨ Within F b a := by
  refine ReflTransGen.total_of_right_unique ?_ ha hb
  intro y p q hp hq
  exact Option.some.inj (hp.symm.trans hq)

theorem not_below_of_root (h : F.parent x = none) : ¬ Below F x a := by
  intro hb
  obtain ⟨p, hp, -⟩ := below_iff_parent.mp hb
  exact absurd (h.symm.trans hp) (by simp)

/-- **Siblings contain disjoint sets of nodes.** -/
theorem eq_of_siblings (h : F.parent b = F.parent c) (hb : Within F x b) (hc : Within F x c) :
    b = c := by
  have key : ∀ {u v : α}, F.parent u = F.parent v → Within F u v → u = v := by
    intro u v huv hw
    rcases within_iff.mp hw with heq | hbelow
    · exact heq
    · obtain ⟨p, hp, hpv⟩ := below_iff_parent.mp hbelow
      exact absurd (below_of_parent (huv.symm.trans hp)) (not_below_of_within hpv)
  rcases within_linear hb hc with h' | h'
  · exact key h h'
  · exact (key h.symm h').symm

/-! ### Domains -/

@[simp] theorem inside_none : Inside F x none ↔ True := by simp [Inside]

@[simp] theorem inside_some : Inside F x (some a) ↔ Below F x a := by simp [Inside]

theorem inside_of_parent (h : F.parent x = o) : Inside F x o := by
  rintro d rfl
  exact below_of_parent h

theorem inside_of_within (h : F.parent c = o) (hx : Within F x c) : Inside F x o := by
  rintro d rfl
  exact hx.trans_below (below_of_parent h)

theorem inside_of_inside_parent (h : F.parent x = some a) (ha : Inside F a o) : Inside F x o :=
  fun d hd => (below_of_parent h).trans_within (ha d hd).within

theorem inside_parent (hx : Inside F x o) (h : F.parent x = some a) : some a = o ∨ Inside F a o := by
  cases o with
  | none => exact Or.inr (by simp)
  | some d =>
    obtain ⟨p, hp, hpd⟩ := below_iff_parent.mp (inside_some.mp hx)
    obtain rfl : a = p := Option.some.inj (h.symm.trans hp)
    rcases within_iff.mp hpd with rfl | hbelow
    · exact Or.inl rfl
    · exact Or.inr (inside_some.mpr hbelow)

theorem not_inside_self : ¬ Inside F x (some x) := fun h => not_below_self x (inside_some.mp h)

theorem exists_child (hx : Inside F x o) : ∃ c, F.parent c = o ∧ Within F x c := by
  cases o with
  | some d =>
    obtain ⟨c, hxc, hc⟩ := below_iff_child.mp (inside_some.mp hx)
    exact ⟨c, hc, hxc⟩
  | none =>
    induction x using F.wf.induction with
    | _ x ih =>
      cases hp : F.parent x with
      | none => exact ⟨x, hp, Within.refl x⟩
      | some p =>
        obtain ⟨c, hc, hpc⟩ := ih p hp (by simp)
        exact ⟨c, hc, ((below_of_parent hp).trans_within hpc).within⟩

/-! ### Filled domains -/

variable (F) (parallel : α → Prop)

/-- The domain's children are orthogonal; the implicit root's are not. -/
def Orthogonal (o : Option α) : Prop := ∃ d, o = some d ∧ parallel d

/-- All children of an orthogonal domain are in the set, and exactly one child of any other domain
that has children. -/
def Filled (A : Set α) (o : Option α) : Prop :=
  (Orthogonal parallel o → ∀ c, F.parent c = o → c ∈ A) ∧
    (¬ Orthogonal parallel o → (∃ c, F.parent c = o) → ∃! c, F.parent c = o ∧ c ∈ A)

/-- Inside the domain the set is closed under containers and fills its members. -/
structure Grown (A : Set α) (o : Option α) : Prop where
  up : ∀ x ∈ A, Inside F x o → ∀ p, F.parent x = some p → some p = o ∨ p ∈ A
  filled : ∀ x ∈ A, Inside F x o → Filled F parallel A (some x)

/-- A legal set: grown from the implicit root, which it fills. -/
def Legal (A : Set α) : Prop := Grown F parallel A none ∧ Filled F parallel A none

variable {F} {parallel}

theorem orthogonal_some : Orthogonal parallel (some a) ↔ parallel a := by simp [Orthogonal]

theorem not_orthogonal_none : ¬ Orthogonal parallel (none : Option α) := by simp [Orthogonal]

theorem filled_congr (h : ∀ c, F.parent c = o → (c ∈ A ↔ c ∈ B)) :
    Filled F parallel A o ↔ Filled F parallel B o := by
  have hunique : (∃! c, F.parent c = o ∧ c ∈ A) ↔ ∃! c, F.parent c = o ∧ c ∈ B := by
    refine existsUnique_congr fun c => ?_
    exact and_congr_right (h c)
  have hall : (∀ c, F.parent c = o → c ∈ A) ↔ ∀ c, F.parent c = o → c ∈ B :=
    forall_congr' fun c => imp_congr_right (h c)
  rw [Filled, Filled, hunique, hall]

theorem Grown.congr (h : ∀ x, Inside F x o → (x ∈ A ↔ x ∈ B)) (hA : Grown F parallel A o) :
    Grown F parallel B o where
  up x hx hin p hp := by
    rcases hA.up x ((h x hin).mpr hx) hin p hp with heq | hpA
    · exact Or.inl heq
    · rcases inside_parent hin hp with heq | hpo
      · exact Or.inl heq
      · exact Or.inr ((h p hpo).mp hpA)
  filled x hx hin := by
    refine (filled_congr fun c hc => ?_).mp (hA.filled x ((h x hin).mpr hx) hin)
    exact h c (inside_of_inside_parent hc hin)

theorem filled_child_exists (h : Filled F parallel A o) (hc : F.parent c = o) :
    ∃ c', F.parent c' = o ∧ c' ∈ A := by
  by_cases horth : Orthogonal parallel o
  · exact ⟨c, hc, h.1 horth c hc⟩
  · obtain ⟨c', hc', -⟩ := h.2 horth ⟨c, hc⟩
    exact ⟨c', hc'⟩

theorem filled_of_single (horth : ¬ Orthogonal parallel o) (hc : F.parent c = o) (hcA : c ∈ A)
    (huniq : ∀ c', F.parent c' = o → c' ∈ A → c' = c) : Filled F parallel A o :=
  ⟨fun h => absurd h horth, fun _ _ => ⟨c, ⟨hc, hcA⟩, fun c' h => huniq c' h.1 h.2⟩⟩

theorem filled_of_leaf (h : ∀ c, F.parent c ≠ o) : Filled F parallel A o :=
  ⟨fun _ c hc => absurd hc (h c), fun _ ⟨c, hc⟩ => absurd hc (h c)⟩

/-- **Growing from the children**: the set is grown from a domain if it is grown from, and fills,
each child it holds, and all its members inside the domain lie within such children. -/
theorem Grown.of_children
    (hcover : ∀ x ∈ A, Inside F x o → ∃ c, F.parent c = o ∧ c ∈ A ∧ Within F x c)
    (hchild : ∀ c, F.parent c = o → c ∈ A → Grown F parallel A (some c) ∧ Filled F parallel A (some c)) :
    Grown F parallel A o where
  up x hx hin p hp := by
    obtain ⟨c, hc, hcA, hxc⟩ := hcover x hx hin
    rcases within_iff.mp hxc with rfl | hbelow
    · exact Or.inl (hp.symm.trans hc)
    · rcases (hchild c hc hcA).1.up x hx (inside_some.mpr hbelow) p hp with heq | hpA
      · exact Or.inr (Option.some.inj heq ▸ hcA)
      · exact Or.inr hpA
  filled x hx hin := by
    obtain ⟨c, hc, hcA, hxc⟩ := hcover x hx hin
    rcases within_iff.mp hxc with rfl | hbelow
    · exact (hchild x hc hcA).2
    · exact (hchild c hc hcA).1.filled x hx (inside_some.mpr hbelow)

theorem Grown.up_within (h : Grown F parallel A o) (hx : x ∈ A) (hw : Within F x a)
    (ha : Inside F a o) : a ∈ A := by
  induction hw with
  | refl => exact hx
  | tail _ hp ih =>
    have hin := inside_of_inside_parent hp ha
    rcases h.up _ (ih hin) hin _ hp with heq | hmem
    · exact absurd (heq ▸ ha) not_inside_self
    · exact hmem

theorem Legal.up (h : Legal F parallel A) (hx : x ∈ A) (hp : F.parent x = some a) : a ∈ A := by
  rcases h.1.up x hx (by simp) a hp with heq | ha
  · exact absurd heq (by simp)
  · exact ha

theorem Legal.filled (h : Legal F parallel A) (ho : ∀ d, o = some d → d ∈ A) :
    Filled F parallel A o := by
  cases o with
  | none => exact h.2
  | some d => exact h.1.filled d (ho d rfl) (by simp)

theorem Legal.up_within (h : Legal F parallel A) (hx : x ∈ A) (hw : Within F x a) : a ∈ A :=
  h.1.up_within hx hw (by simp)

/-! ### Rearranging the inside of disjoint domains -/

/-- **Local rearrangement.** Replace the inside of pairwise disjoint domains of a legal set by sets
grown from them: the result is legal exactly if it fills those domains. -/
theorem legal_iff_filled {D : Set (Option α)} (hA : Legal F parallel A)
    (hactive : ∀ o ∈ D, ∀ d, o = some d → d ∈ A)
    (hdisjoint : ∀ o ∈ D, ∀ o' ∈ D, ∀ x, Inside F x o → Inside F x o' → o = o')
    (hcompound : ∀ o ∈ D, ∃ c, F.parent c = o)
    (hframe : ∀ x, (∀ o ∈ D, ¬ Inside F x o) → (x ∈ B ↔ x ∈ A))
    (hgrown : ∀ o ∈ D, Grown F parallel B o) :
    Legal F parallel B ↔ ∀ o ∈ D, Filled F parallel B o := by
  -- a domain itself lies inside no domain, so it is kept
  have houter : ∀ o ∈ D, ∀ d, o = some d → ∀ o' ∈ D, ¬ Inside F d o' := by
    rintro o ho d rfl o' ho' hin
    obtain ⟨c, hc⟩ := hcompound _ ho
    obtain rfl := hdisjoint _ ho _ ho' c (inside_of_parent hc) (inside_of_inside_parent hc hin)
    exact not_inside_self hin
  have hkept : ∀ o ∈ D, ∀ d, o = some d → d ∈ B := fun o ho d hd =>
    (hframe d (houter o ho d hd)).mpr (hactive o ho d hd)
  refine ⟨fun hB o ho => hB.filled (hkept o ho), fun hfilled => ?_⟩
  have hall : ∀ o, (∀ d, o = some d → d ∈ B) → Filled F parallel B o := by
    intro o ho
    by_cases hD : o ∈ D
    · exact hfilled o hD
    by_cases hin : ∃ d, o = some d ∧ ∃ o' ∈ D, Inside F d o'
    · obtain ⟨d, rfl, o', ho', hd⟩ := hin
      exact (hgrown o' ho').filled d (ho d rfl) hd
    · have hout : ∀ d, o = some d → ∀ o' ∈ D, ¬ Inside F d o' :=
        fun d hd o' ho' hd' => hin ⟨d, hd, o', ho', hd'⟩
      refine (filled_congr fun c hc => hframe c fun o' ho' hco' => ?_).mpr
        (hA.filled fun d hd => (hframe d (hout d hd)).mp (ho d hd))
      cases o with
      | some d =>
        rcases inside_parent hco' hc with heq | hd
        · exact hD (heq ▸ ho')
        · exact hout d rfl o' ho' hd
      | none =>
        cases o' with
        | none => exact hD ho'
        | some d' => exact not_below_of_root hc (inside_some.mp hco')
  refine ⟨⟨fun x hx _ p hp => Or.inr ?_, fun x hx _ => hall (some x) ?_⟩, hall none (by simp)⟩
  · by_cases hin : ∃ o ∈ D, Inside F x o
    · obtain ⟨o, ho, hxo⟩ := hin
      rcases (hgrown o ho).up x hx hxo p hp with heq | hpB
      · exact hkept o ho p heq.symm
      · exact hpB
    · have hout : ∀ o ∈ D, ¬ Inside F x o := fun o ho h => hin ⟨o, ho, h⟩
      refine (hframe p fun o ho h => hout o ho (inside_of_inside_parent hp h)).mpr ?_
      exact hA.up ((hframe x hout).mp hx) hp
  · rintro d hd
    exact Option.some.inj hd ▸ hx

/-! ### Planting growths -/

variable (F) (parallel)

/-- The set `B` adds the node `x` to `A`, with a growth inside `x` that fills it, and nothing else. -/
structure Planted (A : Set α) (x : α) (B : Set α) : Prop where
  mono : A ⊆ B
  only : ∀ y ∈ B, y ∈ A ∨ Within F y x
  root : x ∈ B
  grown : Grown F parallel B (some x)
  filled : Filled F parallel B (some x)

/-- The set `B` adds growths of the listed nodes to `A`, and nothing else. -/
structure PlantedAll (A : Set α) (xs : List α) (B : Set α) : Prop where
  mono : A ⊆ B
  only : ∀ y ∈ B, y ∈ A ∨ ∃ x ∈ xs, Within F y x
  each : ∀ x ∈ xs, x ∈ B ∧ Grown F parallel B (some x) ∧ Filled F parallel B (some x)

variable {F} {parallel} {p : α} {C : Set α} {xs : List α}

theorem PlantedAll.nil (A : Set α) : PlantedAll F parallel A [] A where
  mono := subset_rfl
  only _ hy := Or.inl hy
  each _ hx := absurd hx List.not_mem_nil

theorem PlantedAll.outside (h : PlantedAll F parallel A xs B) (hA : ∀ y ∈ A, ¬ Below F y a)
    (hsiblings : ∀ x ∈ xs, F.parent x = F.parent a) (hnew : a ∉ xs) :
    ∀ y ∈ B, ¬ Below F y a := by
  intro y hy hbelow
  rcases h.only y hy with hyA | ⟨x, hx, hyx⟩
  · exact hA y hyA hbelow
  · exact hnew (eq_of_siblings (hsiblings x hx) hyx hbelow.within ▸ hx)

theorem PlantedAll.snoc (h : PlantedAll F parallel A xs B) (ha : Planted F parallel B a C)
    (hsiblings : ∀ x ∈ xs, F.parent x = F.parent a) (hnew : a ∉ xs) :
    PlantedAll F parallel A (xs ++ [a]) C where
  mono := h.mono.trans ha.mono
  only y hy := by
    rcases ha.only y hy with hyB | hya
    · rcases h.only y hyB with hyA | ⟨x, hx, hyx⟩
      · exact Or.inl hyA
      · exact Or.inr ⟨x, List.mem_append_left _ hx, hyx⟩
    · exact Or.inr ⟨a, by simp, hya⟩
  each x hx := by
    rcases List.mem_append.mp hx with hx | hx
    · obtain ⟨hxB, hgrown, hfilled⟩ := h.each x hx
      -- the new growth stays within `a`, so the inside of its sibling `x` is as it was
      have hinside : ∀ y, Inside F y (some x) → (y ∈ B ↔ y ∈ C) := by
        intro y hy
        refine ⟨fun hyB => ha.mono hyB, fun hyC => ?_⟩
        rcases ha.only y hyC with hyB | hya
        · exact hyB
        · have hyx := (inside_some.mp hy).within
          exact absurd (eq_of_siblings (hsiblings x hx) hyx hya ▸ hx) hnew
      refine ⟨ha.mono hxB, hgrown.congr hinside, ?_⟩
      exact (filled_congr fun c hc => hinside c (inside_of_parent hc)).mp hfilled
    · obtain rfl := List.mem_singleton.mp hx
      exact ⟨ha.root, ha.grown, ha.filled⟩

theorem not_within_of_child (hA : ∀ y ∈ A, ¬ Below F y p) (hc : F.parent c = some p) :
    ∀ y ∈ insert p A, ¬ Within F y c := by
  rintro y (rfl | hy) hyc
  · exact not_below_self _ (hyc.trans_below (below_of_parent hc))
  · exact hA y hy (hyc.trans_below (below_of_parent hc))

theorem planted_leaf (hA : ∀ y ∈ A, ¬ Below F y p) (hleaf : ∀ c, F.parent c ≠ some p) :
    Planted F parallel A p (insert p A) where
  mono := Set.subset_insert p A
  only y hy := by
    rcases hy with rfl | hy
    · exact Or.inr (Within.refl y)
    · exact Or.inl hy
  root := Set.mem_insert p A
  grown := by
    refine Grown.of_children (fun y hy hin => ?_) fun c hc => absurd hc (hleaf c)
    obtain ⟨c, hc, -⟩ := exists_child hin
    exact absurd hc (hleaf c)
  filled := filled_of_leaf hleaf

section
variable (h : PlantedAll F parallel (insert p A) xs B) (hA : ∀ y ∈ A, ¬ Below F y p)
include h hA

theorem PlantedAll.planted (hxs : ∀ x ∈ xs, F.parent x = some p)
    (hfilled : Filled F parallel B (some p)) : Planted F parallel A p B where
  mono := (Set.subset_insert p A).trans h.mono
  only y hy := by
    rcases h.only y hy with (rfl | hyA) | ⟨x, hx, hyx⟩
    · exact Or.inr (Within.refl y)
    · exact Or.inl hyA
    · exact Or.inr (hyx.trans (below_of_parent (hxs x hx)).within)
  root := h.mono (Set.mem_insert p A)
  grown := by
    have hmem : ∀ y ∈ B, Below F y p → ∃ x ∈ xs, Within F y x := by
      intro y hy hbelow
      rcases h.only y hy with (rfl | hyA) | hx
      · exact absurd hbelow (not_below_self y)
      · exact absurd hbelow (hA y hyA)
      · exact hx
    refine Grown.of_children (fun y hy hin => ?_) fun c hc hcB => ?_
    · obtain ⟨x, hx, hyx⟩ := hmem y hy (inside_some.mp hin)
      exact ⟨x, hxs x hx, (h.each x hx).1, hyx⟩
    · obtain ⟨x, hx, hcx⟩ := hmem c hcB (below_of_parent hc)
      obtain rfl := eq_of_siblings (hc.trans (hxs x hx).symm) (Within.refl c) hcx
      exact (h.each c hx).2
  filled := hfilled

theorem PlantedAll.planted_parallel (hxs : ∀ c, F.parent c = some p ↔ c ∈ xs) (hp : parallel p) :
    Planted F parallel A p B := by
  refine h.planted hA (fun x hx => (hxs x).mpr hx) ⟨fun _ c hc => ?_, fun hnot => ?_⟩
  · exact (h.each c ((hxs c).mp hc)).1
  · exact absurd (orthogonal_some.mpr hp) hnot

end

theorem Planted.planted_single (h : Planted F parallel (insert p A) c B)
    (hA : ∀ y ∈ A, ¬ Below F y p) (hc : F.parent c = some p) (hp : ¬ parallel p) :
    Planted F parallel A p B := by
  have hall : PlantedAll F parallel (insert p A) ([] ++ [c]) B :=
    (PlantedAll.nil _).snoc h (fun x hx => absurd hx List.not_mem_nil) List.not_mem_nil
  refine hall.planted hA (fun x hx => ?_) ?_
  · obtain rfl := List.mem_singleton.mp hx
    exact hc
  · refine filled_of_single (fun horth => hp (orthogonal_some.mp horth)) hc h.root ?_
    intro c' hc' hc'B
    rcases h.only c' hc'B with hold | hwithin
    · exact absurd (Within.refl c') (not_within_of_child hA hc' c' hold)
    · exact eq_of_siblings (hc'.trans hc.symm) (Within.refl c') hwithin

/-! ### Regrowing a domain -/

variable (F) (parallel)

/-- The set `B` adds a growth inside the domain to `A`, and nothing else. -/
structure Regrown (A : Set α) (o : Option α) (B : Set α) : Prop where
  mono : A ⊆ B
  only : ∀ y ∈ B, y ∈ A ∨ Inside F y o
  grown : Grown F parallel B o

variable {F} {parallel}

section
variable (h : Planted F parallel A c B) (hA : ∀ y ∈ A, ¬ Inside F y o) (hc : F.parent c = o)
include h hA hc

theorem Planted.regrown : Regrown F parallel A o B where
  mono := h.mono
  only y hy := by
    rcases h.only y hy with hyA | hyc
    · exact Or.inl hyA
    · exact Or.inr (inside_of_within hc hyc)
  grown := by
    refine Grown.of_children (fun y hy hin => ?_) fun c' hc' hc'B => ?_
    · rcases h.only y hy with hyA | hyc
      · exact absurd hin (hA y hyA)
      · exact ⟨c, hc, h.root, hyc⟩
    · rcases h.only c' hc'B with hold | hwithin
      · exact absurd (inside_of_parent hc') (hA c' hold)
      · obtain rfl := eq_of_siblings (hc'.trans hc.symm) (Within.refl c') hwithin
        exact ⟨h.grown, h.filled⟩

theorem Planted.filled_iff :
    Filled F parallel B o ↔ ¬ (Orthogonal parallel o ∧ ∃ c', F.parent c' = o ∧ c' ≠ c) := by
  have huniq : ∀ c', F.parent c' = o → c' ∈ B → c' = c := by
    intro c' hc' hc'B
    rcases h.only c' hc'B with hold | hwithin
    · exact absurd (inside_of_parent hc') (hA c' hold)
    · exact eq_of_siblings (hc'.trans hc.symm) (Within.refl c') hwithin
  constructor
  · rintro hfilled ⟨horth, c', hc', hne⟩
    exact hne (huniq c' hc' (hfilled.1 horth c' hc'))
  · intro hnot
    by_cases horth : Orthogonal parallel o
    · refine ⟨fun _ c' hc' => ?_, fun h' => absurd horth h'⟩
      by_cases heq : c' = c
      · exact heq ▸ h.root
      · exact absurd ⟨horth, c', hc', heq⟩ hnot
    · exact filled_of_single horth hc h.root huniq

end

theorem Planted.regrown_self (h : Planted F parallel A a B) (ha : a ∈ A) :
    Regrown F parallel A (some a) B where
  mono := h.mono
  only y hy := by
    rcases h.only y hy with hyA | hya
    · exact Or.inl hyA
    · rcases within_iff.mp hya with rfl | hbelow
      · exact Or.inl ha
      · exact Or.inr (inside_some.mpr hbelow)
  grown := h.grown

/-! ### Nodes that stand together -/

variable (F) (parallel)

/-- Two nodes may stand together: one contains the other, or they lie within different children of a
node with orthogonal children. -/
def Together (x y : α) : Prop :=
  Within F x y ∨ Within F y x ∨ ∃ p b c, parallel p ∧ F.parent b = some p ∧ F.parent c = some p ∧
    b ≠ c ∧ Within F x b ∧ Within F y c

/-- The nodes of a set stand together. -/
def Consistent (A : Set α) : Prop := ∀ x ∈ A, ∀ y ∈ A, Together F parallel x y

variable {F} {parallel} {d : α}

theorem Together.symm (h : Together F parallel x y) : Together F parallel y x := by
  rcases h with h | h | ⟨p, b, c, hp, hb, hc, hne, hx, hy⟩
  · exact .inr (.inl h)
  · exact .inl h
  · exact .inr (.inr ⟨p, c, b, hp, hc, hb, hne.symm, hy, hx⟩)

/-- What stands with a node stands with its containers. -/
theorem Together.up (h : Together F parallel x y) (ha : Within F y a) : Together F parallel x a := by
  rcases h with h | h | ⟨p, b, c, hp, hb, hc, hne, hx, hy⟩
  · exact .inl (h.trans ha)
  · rcases within_linear h ha with h | h
    · exact .inl h
    · exact .inr (.inl h)
  · rcases within_linear hy ha with h | h
    · -- the container is the region itself or holds all regions
      rcases within_iff.mp h with rfl | hbelow
      · exact .inr (.inr ⟨p, b, c, hp, hb, hc, hne, hx, Within.refl c⟩)
      · obtain ⟨q, hq, hqa⟩ := below_iff_parent.mp hbelow
        obtain rfl := Option.some.inj (hc.symm.trans hq)
        exact .inl ((hx.trans_below (below_of_parent hb)).within.trans hqa)
    · exact .inr (.inr ⟨p, b, c, hp, hb, hc, hne, hx, h⟩)

/-- What stands with something inside a domain, and is not inside it, stands with all of it. -/
theorem Together.of_domain (h : Together F parallel x y) (hy : Below F y d) (hx : ¬ Below F x d)
    (ha : Within F a d) : Together F parallel x a := by
  rcases h.up hy.within with h | h | ⟨p, b, c, hp, hb, hc, hne, hxb, hdc⟩
  · rcases within_iff.mp h with rfl | hbelow
    · exact .inr (.inl ha)
    · exact absurd hbelow hx
  · exact .inr (.inl (ha.trans h))
  · exact .inr (.inr ⟨p, b, c, hp, hb, hc, hne, hxb, ha.trans hdc⟩)

/-- **A growth stands together**: where the ways up from two of its members meet, its children are
orthogonal. -/
theorem Planted.together (h : Planted F parallel A a B) (hx : x ∈ B) (hy : y ∈ B)
    (hxa : Within F x a) (hya : Within F y a) : Together F parallel x y := by
  have hmem : ∀ {u v}, u ∈ B → Within F u v → Within F v a → v ∈ B := by
    intro u v hu huv hva
    rcases within_iff.mp hva with rfl | hbelow
    · exact h.root
    · exact h.grown.up_within hu huv (inside_some.mpr hbelow)
  have hfilled : ∀ {v}, v ∈ B → Within F v a → Filled F parallel B (some v) := by
    intro v hv hva
    rcases within_iff.mp hva with rfl | hbelow
    · exact h.filled
    · exact h.grown.filled v hv (inside_some.mpr hbelow)
  -- climb from `x`; the claim is about the nodes within the place reached
  suffices hclimb : ∀ z, Within F x z → Within F z a → Within F y z → Together F parallel x y from
    hclimb a hxa (Within.refl a) hya
  intro z hxz
  induction hxz with
  | refl => exact fun _ hyx => .inr (.inl hyx)
  | @tail b c hxb hbc ih =>
    intro hca hyc
    have hba : Within F b a := (below_of_parent hbc).within.trans hca
    rcases within_iff.mp hyc with rfl | hbelow
    · exact .inl (hxb.tail hbc)
    · obtain ⟨b', hyb', hb'⟩ := below_iff_child.mp hbelow
      have hb'a : Within F b' a := (below_of_parent hb').within.trans hca
      by_cases heq : b = b'
      · exact ih hba (heq ▸ hyb')
      · have hcB : c ∈ B := hmem hx (hxb.tail hbc) hca
        have hp : parallel c := by
          by_contra hnot
          have hunique := (hfilled hcB hca).2 (fun horth => hnot (orthogonal_some.mp horth)) ⟨b, hbc⟩
          exact heq (hunique.unique ⟨hbc, hmem hx hxb hba⟩ ⟨hb', hmem hy hyb' hb'a⟩)
        exact .inr (.inr ⟨c, b, b', hp, hbc, hb', heq, hxb, hyb'⟩)

/-- Planting keeps a set consistent when its members stand with everything within the new node. -/
theorem Planted.consistent (h : Planted F parallel A a B) (hA : Consistent F parallel A)
    (hnew : ∀ x ∈ A, ∀ y, Within F y a → Together F parallel x y) : Consistent F parallel B := by
  intro x hx y hy
  rcases h.only x hx with hxA | hxa
  · rcases h.only y hy with hyA | hya
    · exact hA x hxA y hyA
    · exact hnew x hxA y hya
  · rcases h.only y hy with hyA | hya
    · exact (hnew y hyA x hxa).symm
    · exact h.together hx hy hxa hya

end Medulla.Library.Containment
