import Mathlib.Order.FixedPoints
import Mathlib.Order.Minimal
import Mathlib.Order.CompletePartialOrder

/-! # Abstract argumentation

A framework is a set of arguments and an attack relation between them. What a set of arguments defends
is monotone in the set, so it has a least fixpoint, the grounded extension; the other extensions are
conflict-free sets with more asked of them. -/

namespace Medulla.Library.Argumentation

structure Framework (α : Type*) where
  args : Set α
  attacks : α → α → Prop
  source_mem : ∀ {a b}, attacks a b → a ∈ args
  target_mem : ∀ {a b}, attacks a b → b ∈ args

variable {α : Type*}

namespace Framework

/-- The arguments all of whose attackers are attacked by a member of the set. -/
def characteristic (f : Framework α) : Set α →o Set α where
  toFun S := {a | a ∈ f.args ∧ ∀ b, f.attacks b a → ∃ c ∈ S, f.attacks c b}
  monotone' := by
    rintro S T hST a ⟨ha, hdefended⟩
    refine ⟨ha, fun b hb => ?_⟩
    obtain ⟨c, hc, hcb⟩ := hdefended b hb
    exact ⟨c, hST hc, hcb⟩

def grounded (f : Framework α) : Set α := OrderHom.lfp f.characteristic

structure ConflictFree (f : Framework α) (S : Set α) : Prop where
  args : S ⊆ f.args
  free : ∀ a ∈ S, ∀ b ∈ S, ¬ f.attacks a b

structure Admissible (f : Framework α) (S : Set α) : Prop extends ConflictFree f S where
  defended : S ⊆ f.characteristic S

structure Complete (f : Framework α) (S : Set α) : Prop extends ConflictFree f S where
  fixed : f.characteristic S = S

def Preferred (f : Framework α) (S : Set α) : Prop := Maximal f.Admissible S

structure Stable (f : Framework α) (S : Set α) : Prop extends ConflictFree f S where
  outside : ∀ a ∈ f.args, a ∉ S → ∃ b ∈ S, f.attacks b a

def irreflexive (f : Framework α) : Framework α where
  args := f.args
  attacks := fun a b => a ≠ b ∧ f.attacks a b
  source_mem := fun h => f.source_mem h.2
  target_mem := fun h => f.target_mem h.2

/-! ### The grounded extension -/

variable {f : Framework α} {S : Set α} {a b : α}

theorem characteristic_grounded (f : Framework α) : f.characteristic f.grounded = f.grounded :=
  OrderHom.map_lfp _

/-- **Every complete extension contains the grounded one.** -/
theorem grounded_subset (h : f.Complete S) : f.grounded ⊆ S := OrderHom.lfp_le _ (le_of_eq h.fixed)

theorem grounded_args (f : Framework α) : f.grounded ⊆ f.args := by
  intro a ha
  rw [← f.characteristic_grounded] at ha
  exact ha.1

/-- **The grounded extension is conflict free.** -/
theorem grounded_conflictFree (f : Framework α) : f.ConflictFree f.grounded := by
  -- the members that no member attacks are closed under the characteristic function
  have hclosed : f.grounded ⊆ {a | a ∈ f.grounded ∧ ∀ b ∈ f.grounded, ¬ f.attacks b a} := by
    refine OrderHom.lfp_le _ ?_
    rintro a ⟨ha, hdefended⟩
    refine ⟨?_, fun b hb hba => ?_⟩
    · rw [← f.characteristic_grounded]
      refine ⟨ha, fun b hb => ?_⟩
      obtain ⟨c, hc, hcb⟩ := hdefended b hb
      exact ⟨c, hc.1, hcb⟩
    · obtain ⟨c, hc, hcb⟩ := hdefended b hba
      rw [← f.characteristic_grounded] at hb
      obtain ⟨d, hd, hdc⟩ := hb.2 c hcb
      exact hc.2 d hd hdc
  exact ⟨f.grounded_args, fun a ha b hb => (hclosed hb).2 a ha⟩

theorem Stable.free_of_mem (h : f.Stable S) (ha : a ∈ S) : ¬ f.attacks a a := h.free a ha a ha

/-! ### Preferred extensions -/

/-- **What an admissible set defends may join it.** -/
theorem Admissible.insert (h : f.Admissible S) (ha : a ∈ f.characteristic S) :
    f.Admissible (insert a S) := by
  have hin : ∀ x ∈ S, ¬ f.attacks x a := by
    intro x hx hxa
    obtain ⟨c, hc, hcx⟩ := ha.2 x hxa
    exact h.free c hc x hx hcx
  have hout : ∀ x, x ∈ f.characteristic S → ¬ f.attacks a x := by
    intro x hx hax
    obtain ⟨c, hc, hca⟩ := hx.2 a hax
    exact hin c hc hca
  refine ⟨⟨Set.insert_subset ha.1 h.args, ?_⟩, ?_⟩
  · rintro x (rfl | hx) y (rfl | hy)
    · exact hout _ ha
    · exact hout y (h.defended hy)
    · exact hin x hx
    · exact h.free x hx y hy
  · exact (Set.insert_subset ha h.defended).trans (f.characteristic.monotone (Set.subset_insert a S))

theorem Preferred.complete (h : f.Preferred S) : f.Complete S := by
  refine ⟨h.prop.toConflictFree, Set.Subset.antisymm (fun a ha => ?_) h.prop.defended⟩
  exact h.le_of_ge (h.prop.insert ha) (Set.subset_insert a S) (Set.mem_insert a S)

end Framework

/-! ### Labellings -/

/-- **A labelling that is grounded so far**: what is in has all attackers out, what is out has an
attacker in, and nothing is in that the grounded extension lacks. -/
structure Labelled (f : Framework α) (inside outside : Set α) : Prop where
  defended : ∀ a ∈ inside, ∀ b, f.attacks b a → b ∈ outside
  attacked : ∀ a ∈ outside, ∃ b ∈ inside, f.attacks b a
  disjoint : ∀ a ∈ inside, a ∉ outside
  grounded : inside ⊆ f.grounded

section
variable {f : Framework α} {inside outside : Set α} {a b : α}

theorem labelled_empty (f : Framework α) : Labelled f ∅ ∅ where
  defended := fun _ ha => ha.elim
  attacked := fun _ ha => ha.elim
  disjoint := fun _ ha => ha.elim
  grounded := fun _ ha => ha.elim

theorem Labelled.accept (h : Labelled f inside outside) (ha : a ∈ f.args) (hnew : a ∉ outside)
    (hout : ∀ b, f.attacks b a → b ∈ outside) : Labelled f (insert a inside) outside where
  defended := by
    rintro x (rfl | hx)
    · exact hout
    · exact h.defended x hx
  attacked := by
    intro x hx
    obtain ⟨b, hb, hbx⟩ := h.attacked x hx
    exact ⟨b, Or.inr hb, hbx⟩
  disjoint := by
    rintro x (rfl | hx)
    · exact hnew
    · exact h.disjoint x hx
  grounded := by
    rintro x (rfl | hx)
    · rw [← f.characteristic_grounded]
      refine ⟨ha, fun b hb => ?_⟩
      obtain ⟨c, hc, hcb⟩ := h.attacked b (hout b hb)
      exact ⟨c, h.grounded hc, hcb⟩
    · exact h.grounded hx

theorem Labelled.reject (h : Labelled f inside outside) (hnew : a ∉ inside) (hb : b ∈ inside)
    (hba : f.attacks b a) : Labelled f inside (insert a outside) where
  defended := fun x hx c hc => Or.inr (h.defended x hx c hc)
  attacked := by
    rintro x (rfl | hx)
    · exact ⟨b, hb, hba⟩
    · exact h.attacked x hx
  disjoint := by
    rintro x hx (rfl | hout)
    · exact hnew hx
    · exact h.disjoint x hx hout
  grounded := h.grounded

/-- Nothing can be added to a labelling. -/
structure Final (f : Framework α) (inside outside : Set α) : Prop where
  accepted : ∀ a ∈ f.args, (∀ b, f.attacks b a → b ∈ outside) → a ∈ inside ∨ a ∈ outside
  rejected : ∀ a, ∀ b ∈ inside, f.attacks b a → a ∈ inside ∨ a ∈ outside

/-- **A final labelling is the grounded one.** -/
theorem Labelled.eq_grounded (h : Labelled f inside outside) (hfinal : Final f inside outside) :
    inside = f.grounded := by
  refine Set.Subset.antisymm h.grounded (OrderHom.lfp_le _ ?_)
  rintro a ⟨ha, hdefended⟩
  -- an attacker that is attacked from inside cannot be in, so it is out
  have hout : ∀ b, f.attacks b a → b ∈ outside := by
    intro b hb
    obtain ⟨c, hc, hcb⟩ := hdefended b hb
    rcases hfinal.rejected b c hc hcb with hin | hout
    · exact absurd (h.defended b hin c hcb) (h.disjoint c hc)
    · exact hout
  rcases hfinal.accepted a ha hout with hin | hrejected
  · exact hin
  · obtain ⟨b, hb, hba⟩ := h.attacked a hrejected
    exact absurd (hout b hba) (h.disjoint b hb)

end

end Medulla.Library.Argumentation
