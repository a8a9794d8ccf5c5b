import Mathlib.Data.Set.Finite.Powerset
import Mathlib.Order.Preorder.Finite
import Medulla.Epistemic.Grounded

/-! # Preferred and stable extensions

Both enumerate sets of arguments by branching on one argument after the other, with the branch that
takes an argument cut when it conflicts with the set built so far, and filter what the enumeration
finds. The enumeration is bounded by a number of arguments and a number of branches.

* the enumeration: `mem_conflictFreeFrom`, `foldl_keepMaximal`;
* the results: `extensions_exact_iff`, `grounded_in_every_preferred`. -/

namespace Medulla.Epistemic.Extensions

open Library.OrderedTable Library.OrderedSet Beliefs Grounded

variable {current : KeySet String} {a : String} {rest : List String} {S : Set String}
  {set : KeySet String}

/-! ### The enumeration -/

def maxPreferredArguments : ℕ := 24

def maxSearchNodes : ℕ := 200000

def conflictFree (attackers : AttackerMap) (set : KeySet String) : Bool :=
  (elems set).all fun a => (elems set).all fun b => !attacks attackers a b

def isAttackedBy (attackers : AttackerMap) (set : KeySet String) (arg : String) : Bool :=
  match attackers.get arg with
  | some atk => (elems atk).any (has set)
  | none => false

def isDefended (attackers : AttackerMap) (set : KeySet String) (arg : String) : Bool :=
  match attackers.get arg with
  | some atk => (elems atk).all (isAttackedBy attackers set)
  | none => true

def isAdmissible (attackers : AttackerMap) (set : KeySet String) : Bool :=
  conflictFree attackers set && (elems set).all (isDefended attackers set)

structure Found where
  found : List (KeySet String)
  budget : ℕ
  capped : Bool

def spend (s : Found) (branch : Found → Found) : Found :=
  if s.budget = 0 then { s with capped := true } else branch { s with budget := s.budget - 1 }

/-- The argument and some member of the set attack one another. -/
def conflicts (attackers : AttackerMap) (current : KeySet String) (a : String) : Bool :=
  (elems current).any fun b => attacks attackers a b || attacks attackers b a

/-- Branch on the arguments in order: first without the next one, then with it. -/
def searchConflictFree (attackers : AttackerMap) : List String → KeySet String → Found → Found
  | [], current, s => spend s fun s => { s with found := s.found ++ [current] }
  | a :: rest, current, s => spend s fun s =>
    let s := searchConflictFree attackers rest current s
    if s.capped then s
    else if conflicts attackers current a then s
    else searchConflictFree attackers rest (add current a) s

def boundedConflictFreeSets (bg : BeliefGraph) : Option Found :=
  let attackers := attackerMap bg
  let args := attackers.rows.map Prod.fst
  if maxPreferredArguments < args.length then none
  else some (searchConflictFree attackers args .empty ⟨[], maxSearchNodes, false⟩)

def keepMaximal (maximal : List (KeySet String)) (cand : KeySet String) : List (KeySet String) :=
  if maximal.any (isSubset cand) then maximal else maximal ++ [cand]

def Larger (s t : KeySet String) : Prop := t.rows.length ≤ s.rows.length

instance : DecidableRel Larger := fun s t => inferInstanceAs (Decidable (t.rows.length ≤ s.rows.length))

instance : Std.Total Larger := ⟨fun s t => Nat.le_total t.rows.length s.rows.length⟩

instance : IsTrans (KeySet String) Larger := ⟨fun _ _ _ h h' => Nat.le_trans h' h⟩

def preferredExtensions (bg : BeliefGraph) : List (KeySet String) :=
  match boundedConflictFreeSets bg with
  | none => [groundedExtension bg]
  | some s =>
    ((s.found.filter (isAdmissible (attackerMap bg))).insertionSort Larger).foldl keepMaximal []

def attacksOutside (attackers : AttackerMap) (set : KeySet String) : Bool :=
  (attackers.rows.map Prod.fst).all fun a => has set a || isAttackedBy attackers set a

def stableExtensions (bg : BeliefGraph) : List (KeySet String) :=
  match boundedConflictFreeSets bg with
  | none => []
  | some s => s.found.filter (attacksOutside (attackerMap bg))

def boundFires (bg : BeliefGraph) : Bool :=
  match boundedConflictFreeSets bg with
  | none => true
  | some s => s.capped

/-! ### What an unbounded search finds -/

/-- The sets found by branching, without a budget. -/
def conflictFreeFrom (attackers : AttackerMap) : List String → KeySet String → List (KeySet String)
  | [], current => [current]
  | a :: rest, current =>
    conflictFreeFrom attackers rest current ++ if conflicts attackers current a then []
      else conflictFreeFrom attackers rest (add current a)

section
variable {attackers : AttackerMap}

theorem spend_ok {s : Found} {branch : Found → Found} (h : (spend s branch).capped = false) :
    spend s branch = branch { s with budget := s.budget - 1 } := by
  unfold spend at h ⊢
  split_ifs at h ⊢
  rfl

/-- **A search within its budget finds what the unbounded one finds.** -/
theorem searchConflictFree_found : ∀ {args : List String} {current : KeySet String} {s : Found},
    (searchConflictFree attackers args current s).capped = false →
      s.capped = false ∧ (searchConflictFree attackers args current s).found =
        s.found ++ conflictFreeFrom attackers args current
  | [], current, s, h => by
    unfold searchConflictFree at h ⊢
    have hspend := spend_ok h
    rw [hspend] at h ⊢
    exact ⟨h, rfl⟩
  | a :: rest, current, s, h => by
    unfold searchConflictFree at h ⊢
    have hspend := spend_ok h
    rw [hspend] at h ⊢
    unfold conflictFreeFrom
    by_cases hcapped : (searchConflictFree attackers rest current
        { s with budget := s.budget - 1 }).capped = true
    · rw [if_pos hcapped, hcapped] at h
      cases h
    · have hskip := searchConflictFree_found (Bool.not_eq_true _ ▸ hcapped)
      rw [if_neg hcapped] at h ⊢
      by_cases hconflict : conflicts attackers current a = true
      · rw [if_pos hconflict, if_pos hconflict, List.append_nil]
        exact hskip
      · rw [if_neg hconflict] at h ⊢
        rw [if_neg hconflict]
        have htake := (searchConflictFree_found h).2
        exact ⟨hskip.1, by rw [htake, hskip.2, List.append_assoc]⟩

theorem conflicts_iff : conflicts attackers current a = true ↔
      ∃ b, has current b = true ∧ (attacks attackers a b = true ∨ attacks attackers b a = true) := by
  simp [conflicts]

structure Extends (attackers : AttackerMap) (args : List String) (current set : KeySet String) :
    Prop where
  chosen : ∀ x, has current x = true → has set x = true
  within : ∀ x, has set x = true → has current x = true ∨ x ∈ args
  free : ∀ x ∈ args, has set x = true → ∀ y, has set y = true → y ≠ x →
    ¬ (attacks attackers x y = true ∨ attacks attackers y x = true)

theorem extends_skip (ha : a ∉ rest) (hcur : ¬ has current a = true) :
    Extends attackers rest current set ↔
      ¬ has set a = true ∧ Extends attackers (a :: rest) current set := by
  constructor
  · intro h
    have hout : ¬ has set a = true := fun hset => (h.within a hset).elim hcur ha
    refine ⟨hout, h.chosen, fun x hx => ?_, fun x hx hset => ?_⟩
    · exact (h.within x hx).imp_right (.tail _)
    · rcases List.mem_cons.mp hx with rfl | hx
      · exact absurd hset hout
      · exact h.free x hx hset
  · rintro ⟨hout, h⟩
    refine ⟨h.chosen, fun x hx => ?_, fun x hx => h.free x (.tail _ hx)⟩
    rcases h.within x hx with hx' | hx'
    · exact Or.inl hx'
    · rcases List.mem_cons.mp hx' with rfl | hx'
      · exact absurd hx hout
      · exact Or.inr hx'

theorem extends_take :
    (¬ conflicts attackers current a = true ∧ Extends attackers rest (add current a) set) ↔
      has set a = true ∧ ¬ conflicts attackers current a = true ∧
        Extends attackers (a :: rest) current set := by
  constructor
  · rintro ⟨hfree, h⟩
    have hin : has set a = true := h.chosen a (has_add.mpr (Or.inl rfl))
    refine ⟨hin, hfree, fun x hx => h.chosen x (has_add.mpr (Or.inr hx)), fun x hx => ?_, ?_⟩
    · rcases h.within x hx with hx' | hx'
      · rcases has_add.mp hx' with rfl | hx'
        · exact Or.inr (.head _)
        · exact Or.inl hx'
      · exact Or.inr (.tail _ hx')
    · intro x hx hset y hy hne
      rcases List.mem_cons.mp hx with rfl | hx
      · -- the other member was chosen before, or its own turn rules the conflict out
        rcases h.within y hy with hy' | hy'
        · have hcur : has current y = true := (has_add.mp hy').resolve_left hne
          exact fun hattack => hfree (conflicts_iff.mpr ⟨y, hcur, hattack⟩)
        · exact fun hattack => h.free y hy' hy x hset (Ne.symm hne) hattack.symm
      · exact h.free x hx hset y hy hne
  · rintro ⟨hin, hfree, h⟩
    refine ⟨hfree, fun x hx => ?_, fun x hx => ?_, fun x hx => h.free x (.tail _ hx)⟩
    · rcases has_add.mp hx with rfl | hx
      · exact hin
      · exact h.chosen x hx
    · rcases h.within x hx with hx' | hx'
      · exact Or.inl (has_add.mpr (Or.inr hx'))
      · rcases List.mem_cons.mp hx' with rfl | hx'
        · exact Or.inl (has_add.mpr (Or.inl rfl))
        · exact Or.inr hx'

theorem not_conflicts_of_extends (hcur : ¬ has current a = true)
    (h : Extends attackers (a :: rest) current set) (hset : has set a = true) :
    ¬ conflicts attackers current a = true := by
  intro hconflict
  obtain ⟨b, hb, hattack⟩ := conflicts_iff.mp hconflict
  have hne : b ≠ a := by
    rintro rfl
    exact hcur hb
  exact h.free a (.head _) hset b (h.chosen b hb) hne hattack

/-- **The enumeration is exact**: it finds the sets whose members attack no other member, each once. -/
theorem mem_conflictFreeFrom : ∀ {args : List String} {current : KeySet String}, args.Nodup →
    (∀ x ∈ args, ¬ has current x = true) →
      (∀ set, set ∈ conflictFreeFrom attackers args current ↔ Extends attackers args current set) ∧
        (conflictFreeFrom attackers args current).Nodup
  | [], current, _, _ => by
    refine ⟨fun set => ?_, List.nodup_singleton _⟩
    rw [conflictFreeFrom, List.mem_singleton]
    constructor
    · rintro rfl
      exact ⟨fun _ h => h, fun _ h => Or.inl h, fun x hx => by cases hx⟩
    · intro h
      exact ext_has fun x => ⟨fun hx => (h.within x hx).resolve_right (by simp), h.chosen x⟩
  | a :: rest, current, hnodup, hcur => by
    obtain ⟨ha, hrest⟩ := List.nodup_cons.mp hnodup
    obtain ⟨hca, hcrest⟩ := List.forall_mem_cons.mp hcur
    obtain ⟨hskip, hskipNodup⟩ := @mem_conflictFreeFrom rest current hrest hcrest
    have hadd : ∀ x ∈ rest, ¬ has (add current a) x = true := by
      intro x hx hx'
      rcases has_add.mp hx' with rfl | hx'
      · exact ha hx
      · exact hcrest x hx hx'
    obtain ⟨htake, htakeNodup⟩ := @mem_conflictFreeFrom rest (add current a) hrest hadd
    have htaken : ∀ set, set ∈ (if conflicts attackers current a = true then []
          else conflictFreeFrom attackers rest (add current a)) ↔
        has set a = true ∧ ¬ conflicts attackers current a = true ∧
          Extends attackers (a :: rest) current set := by
      intro set
      rw [← extends_take]
      by_cases hconflict : conflicts attackers current a = true
      · rw [if_pos hconflict]
        exact ⟨fun h => absurd h List.not_mem_nil, fun h => absurd hconflict h.1⟩
      · rw [if_neg hconflict, htake]
        exact ⟨fun h => ⟨hconflict, h⟩, fun h => h.2⟩
    unfold conflictFreeFrom
    constructor
    · intro set
      rw [List.mem_append, hskip, htaken, extends_skip ha hca]
      by_cases hset : has set a = true
      · constructor
        · rintro (h | h)
          · exact h.2
          · exact h.2.2
        · intro h
          exact Or.inr ⟨hset, not_conflicts_of_extends hca h hset, h⟩
      · constructor
        · rintro (h | h)
          · exact h.2
          · exact h.2.2
        · intro h
          exact Or.inl ⟨hset, h⟩
    · refine List.Nodup.append hskipNodup ?_ ?_
      · split_ifs
        · exact List.nodup_nil
        · exact htakeNodup
      · intro set hs ht
        exact ((extends_skip ha hca).mp ((hskip set).mp hs)).1 ((htaken set).mp ht).1

end

/-! ### The filters -/

section
variable {bg : BeliefGraph} {E : KeySet String}

theorem args_nodup (bg : BeliefGraph) : ((attackerMap bg).rows.map Prod.fst).Nodup := by
  rw [List.Nodup, List.pairwise_map]
  exact (attackerMap bg).sorted.imp fun h => ne_of_lt h

theorem mem_args : a ∈ (attackerMap bg).rows.map Prod.fst ↔ IsArgument bg a := by
  rw [List.mem_map]
  constructor
  · rintro ⟨⟨x, atk⟩, hr, rfl⟩
    exact (get_attackerMap.mp (Table.mem_rows.mp hr)).1
  · intro ha
    exact ⟨(a, _), Table.mem_rows.mpr (get_attackerMap.mpr ⟨ha, rfl⟩), rfl⟩

theorem extends_iff : Extends (attackerMap bg) ((attackerMap bg).rows.map Prod.fst) .empty E ↔
      (framework bg).irreflexive.ConflictFree (keys E) := by
  constructor
  · intro h
    have hargs : ∀ x, has E x = true → x ∈ (attackerMap bg).rows.map Prod.fst := fun x hx =>
      (h.within x hx).resolve_left (by simp)
    refine ⟨fun x hx => mem_args.mp (hargs x hx), fun x hx y hy hattack => ?_⟩
    exact h.free x (hargs x hx) hx y hy (Ne.symm hattack.1)
      (Or.inl (attacks_attackerMap.mpr hattack.2))
  · intro h
    refine ⟨fun x hx => by simp at hx, fun x hx => Or.inr (mem_args.mpr (h.args hx)), ?_⟩
    intro x _ hx y hy hne hattack
    rcases hattack with hattack | hattack
    · exact h.free x hx y hy ⟨Ne.symm hne, attacks_attackerMap.mp hattack⟩
    · exact h.free y hy x hx ⟨hne, attacks_attackerMap.mp hattack⟩

theorem conflictFree_iff : conflictFree (attackerMap bg) E = true ↔
      ∀ a ∈ keys E, ∀ b ∈ keys E, ¬ (framework bg).attacks a b := by
  simp only [conflictFree, List.all_eq_true, mem_elems, mem_keys, Bool.not_eq_true',
    ← Bool.not_eq_true, attacks_attackerMap]

theorem isAttackedBy_iff (ha : IsArgument bg a) :
    isAttackedBy (attackerMap bg) E a = true ↔ ∃ b ∈ keys E, (framework bg).attacks b a := by
  unfold isAttackedBy
  rw [get_attackerMap.mpr ⟨ha, rfl⟩]
  simp only [List.any_eq_true, mem_elems, has_augmentedAttackers]
  constructor
  · rintro ⟨b, hb, hE⟩
    exact ⟨b, hE, hb⟩
  · rintro ⟨b, hE, hb⟩
    exact ⟨b, hb, hE⟩

theorem isDefended_iff (ha : IsArgument bg a) :
    isDefended (attackerMap bg) E a = true ↔ a ∈ (framework bg).characteristic (keys E) := by
  unfold isDefended
  rw [get_attackerMap.mpr ⟨ha, rfl⟩]
  simp only [List.all_eq_true, mem_elems, has_augmentedAttackers]
  constructor
  · intro h
    refine ⟨ha, fun b hb => ?_⟩
    obtain ⟨c, hc, hcb⟩ := (isAttackedBy_iff ((framework bg).source_mem hb)).mp (h b hb)
    exact ⟨c, hc, hcb⟩
  · rintro ⟨-, h⟩ b hb
    exact (isAttackedBy_iff ((framework bg).source_mem hb)).mpr (h b hb)

theorem isAdmissible_iff (hargs : keys E ⊆ (framework bg).args) :
    isAdmissible (attackerMap bg) E = true ↔ (framework bg).Admissible (keys E) := by
  have hdefended : ∀ a, has E a = true →
      (isDefended (attackerMap bg) E a = true ↔ a ∈ (framework bg).characteristic (keys E)) :=
    fun a ha => isDefended_iff (hargs ha)
  unfold isAdmissible
  rw [Bool.and_eq_true, conflictFree_iff, List.all_eq_true]
  constructor
  · rintro ⟨hfree, hall⟩
    exact ⟨⟨hargs, hfree⟩, fun a ha => (hdefended a ha).mp (hall a (mem_elems.mpr ha))⟩
  · intro h
    exact ⟨h.free, fun a ha => (hdefended a (mem_elems.mp ha)).mpr (h.defended (mem_elems.mp ha))⟩

theorem attacksOutside_iff : attacksOutside (attackerMap bg) E = true ↔
      ∀ a ∈ (framework bg).args, a ∉ keys E → ∃ b ∈ keys E, (framework bg).attacks b a := by
  unfold attacksOutside
  simp only [List.all_eq_true, mem_args, Bool.or_eq_true]
  constructor
  · intro h a ha hout
    exact (isAttackedBy_iff ha).mp ((h a ha).resolve_left hout)
  · intro h a ha
    by_cases hin : has E a = true
    · exact Or.inl hin
    · exact Or.inr ((isAttackedBy_iff ha).mpr (h a ha hin))

theorem exists_keys (hS : S ⊆ (framework bg).args) : ∃ E, keys E = S := by
  classical
  refine ⟨keep (fun a => decide (a ∈ S)) (arguments bg), Set.ext fun a => ?_⟩
  rw [mem_keys, has_keep, has_arguments, decide_eq_true_eq]
  exact ⟨fun h => h.2, fun h => ⟨hS h, h⟩⟩

end

/-! ### The greatest sets -/

section
variable {cand : KeySet String}

/-- No set kept later is part of one kept before. -/
def Ascending (maximal : List (KeySet String)) : Prop :=
  maximal.Pairwise fun E E' => ¬ isSubset E' E = true

/-- **The scan**: what it keeps is among the candidates, in their order, and every candidate is part of
a set that is kept. -/
theorem foldl_keepMaximal : ∀ {cands maximal : List (KeySet String)}, Ascending maximal →
    (cands.foldl keepMaximal maximal).Sublist (maximal ++ cands) ∧
      Ascending (cands.foldl keepMaximal maximal) ∧
      (∀ E ∈ maximal, E ∈ cands.foldl keepMaximal maximal) ∧
      ∀ E ∈ cands, ∃ M ∈ cands.foldl keepMaximal maximal, isSubset E M = true
  | [], maximal, h => by simp [h]
  | c :: cands, maximal, h => by
    rw [List.foldl_cons]
    unfold keepMaximal
    by_cases hany : maximal.any (isSubset c) = true
    · rw [if_pos hany]
      obtain ⟨hsub, hasc, hkept, hcover⟩ := @foldl_keepMaximal cands maximal h
      refine ⟨hsub.trans ((List.sublist_cons_self c cands).append_left maximal), hasc, hkept, ?_⟩
      refine List.forall_mem_cons.mpr ⟨?_, hcover⟩
      obtain ⟨M, hM, hcM⟩ := List.any_eq_true.mp hany
      exact ⟨M, hkept M hM, hcM⟩
    · rw [if_neg hany]
      have hnew : Ascending (maximal ++ [c]) := by
        refine List.pairwise_append.mpr ⟨h, List.pairwise_singleton _ _, ?_⟩
        intro M hM c' hc' hsubset
        rw [List.mem_singleton.mp hc'] at hsubset
        exact hany (List.any_eq_true.mpr ⟨M, hM, hsubset⟩)
      obtain ⟨hsub, hasc, hkept, hcover⟩ := @foldl_keepMaximal cands (maximal ++ [c]) hnew
      rw [List.append_assoc] at hsub
      refine ⟨hsub, hasc, fun E hE => hkept E (List.mem_append_left _ hE), ?_⟩
      refine List.forall_mem_cons.mpr ⟨⟨c, hkept c (List.mem_append_right _ ?_), ?_⟩, hcover⟩
      · exact List.mem_singleton.mpr rfl
      · exact isSubset_iff.mpr fun _ hk => hk

theorem eq_of_subset_of_ascending : ∀ {sets : List (KeySet String)}, Ascending sets →
    sets.Pairwise Larger → ∀ E ∈ sets, ∀ E' ∈ sets, isSubset E E' = true → E = E'
  | [], _, _, E, hE, _, _, _ => by cases hE
  | s :: sets, hasc, hlarge, E, hE, E', hE', hsubset => by
    obtain ⟨hs, hrest⟩ := List.pairwise_cons.mp hasc
    obtain ⟨hl, hlrest⟩ := List.pairwise_cons.mp hlarge
    rcases List.mem_cons.mp hE with rfl | hmem
    · rcases List.mem_cons.mp hE' with rfl | hmem'
      · rfl
      · exact eq_of_isSubset hsubset (hl E' hmem')
    · rcases List.mem_cons.mp hE' with rfl | hmem'
      · exact absurd hsubset (hs E hmem)
      · exact eq_of_subset_of_ascending hrest hlrest E hmem E' hmem' hsubset

end

/-! ### Below the bounds -/

/-- The list holds exactly the sets with a property, each once. -/
structure Lists (sets : List (KeySet String)) (P : Set String → Prop) : Prop where
  exact : ∀ S, (∃ E ∈ sets, keys E = S) ↔ P S
  once : sets.Nodup

section
variable {bg : BeliefGraph}

theorem boundedConflictFreeSets_found (h : boundFires bg = false) :
    ∃ s, boundedConflictFreeSets bg = some s ∧
      (∀ E, E ∈ s.found ↔ (framework bg).irreflexive.ConflictFree (keys E)) ∧ s.found.Nodup := by
  unfold boundFires at h
  cases hs : boundedConflictFreeSets bg with
  | none =>
    rw [hs] at h
    cases h
  | some s =>
    rw [hs] at h
    refine ⟨s, rfl, ?_⟩
    unfold boundedConflictFreeSets at hs
    simp only at hs
    split_ifs at hs
    obtain rfl := Option.some.inj hs
    obtain ⟨-, hfound⟩ := searchConflictFree_found h
    rw [List.nil_append] at hfound
    obtain ⟨hmem, hnodup⟩ := @mem_conflictFreeFrom (attackerMap bg) _ Table.empty (args_nodup bg)
      (fun x _ => by simp)
    rw [hfound]
    exact ⟨fun E => (hmem E).trans extends_iff, hnodup⟩

theorem irreflexive_of_conflictFree (h : (framework bg).ConflictFree S) :
    (framework bg).irreflexive.ConflictFree S :=
  ⟨h.args, fun a ha b hb hattack => h.free a ha b hb hattack.2⟩

/-- **Preferred extensions are enumerated exactly** below the bounds. -/
theorem preferred_exact (h : boundFires bg = false) :
    Lists (preferredExtensions bg) (framework bg).Preferred := by
  obtain ⟨s, hs, hmem, hnodup⟩ := boundedConflictFreeSets_found h
  have hadm : ∀ E, E ∈ (s.found.filter (isAdmissible (attackerMap bg))).insertionSort Larger ↔
      (framework bg).Admissible (keys E) := by
    intro E
    rw [List.mem_insertionSort, List.mem_filter, hmem]
    constructor
    · rintro ⟨hfree, hE⟩
      exact (isAdmissible_iff hfree.args).mp hE
    · intro hE
      exact ⟨irreflexive_of_conflictFree hE.toConflictFree, (isAdmissible_iff hE.args).mpr hE⟩
  have hsorted := List.pairwise_insertionSort Larger (s.found.filter (isAdmissible (attackerMap bg)))
  have hdistinct : ((s.found.filter (isAdmissible (attackerMap bg))).insertionSort Larger).Nodup :=
    (List.perm_insertionSort _ _).nodup_iff.mpr (hnodup.filter _)
  obtain ⟨hsub, hasc, -, hcover⟩ := @foldl_keepMaximal
    ((s.found.filter (isAdmissible (attackerMap bg))).insertionSort Larger) [] List.Pairwise.nil
  have hlist : preferredExtensions bg =
      ((s.found.filter (isAdmissible (attackerMap bg))).insertionSort Larger).foldl keepMaximal [] := by
    simp only [preferredExtensions, hs]
  rw [hlist]
  refine ⟨fun S => ⟨?_, fun hS => ?_⟩, hdistinct.sublist hsub⟩
  · rintro ⟨E, hE, rfl⟩
    refine ⟨(hadm E).mp (hsub.subset hE), fun T hT hET => ?_⟩
    obtain ⟨F, rfl⟩ := exists_keys hT.args
    obtain ⟨M, hM, hFM⟩ := hcover F ((hadm F).mpr hT)
    have hEM : isSubset E M = true := isSubset_iff.mpr fun k hk => isSubset_iff.mp hFM k (hET hk)
    rw [eq_of_subset_of_ascending hasc (hsorted.sublist hsub) E hE M hM hEM]
    exact fun k hk => isSubset_iff.mp hFM k hk
  · obtain ⟨E, rfl⟩ := exists_keys hS.prop.args
    obtain ⟨M, hM, hEM⟩ := hcover E ((hadm E).mpr hS.prop)
    refine ⟨M, hM, Set.Subset.antisymm ?_ fun k hk => isSubset_iff.mp hEM k hk⟩
    exact hS.le_of_ge ((hadm M).mp (hsub.subset hM)) fun k hk => isSubset_iff.mp hEM k hk

theorem mem_stableExtensions (h : boundFires bg = false) :
    (∀ E, E ∈ stableExtensions bg ↔ (framework bg).irreflexive.Stable (keys E)) ∧
      (stableExtensions bg).Nodup := by
  obtain ⟨s, hs, hmem, hnodup⟩ := boundedConflictFreeSets_found h
  have hlist : stableExtensions bg = s.found.filter (attacksOutside (attackerMap bg)) := by
    simp only [stableExtensions, hs]
  rw [hlist]
  refine ⟨fun E => ?_, hnodup.filter _⟩
  rw [List.mem_filter, hmem, attacksOutside_iff]
  -- an argument outside the set is never its own attacker
  constructor
  · rintro ⟨hfree, hout⟩
    refine ⟨hfree, fun a ha hE => ?_⟩
    obtain ⟨b, hb, hba⟩ := hout a ha hE
    exact ⟨b, hb, fun hab => hE (hab ▸ hb), hba⟩
  · intro hE
    refine ⟨hE.toConflictFree, fun a ha hE' => ?_⟩
    obtain ⟨b, hb, hba⟩ := hE.outside a ha hE'
    exact ⟨b, hb, hba.2⟩

/-- No set that is stable without the self-attacks contains an argument that attacks itself. -/
def SelfAttackersExcluded (bg : BeliefGraph) : Prop :=
  ∀ S, (framework bg).irreflexive.Stable S → ∀ a ∈ S, ¬ (framework bg).attacks a a

theorem stable_iff : (framework bg).Stable S ↔
    (framework bg).irreflexive.Stable S ∧ ∀ a ∈ S, ¬ (framework bg).attacks a a := by
  constructor
  · intro h
    refine ⟨⟨irreflexive_of_conflictFree h.toConflictFree, fun a ha hS => ?_⟩, fun a ha => ?_⟩
    · obtain ⟨b, hb, hba⟩ := h.outside a ha hS
      exact ⟨b, hb, fun hab => hS (hab ▸ hb), hba⟩
    · exact h.free_of_mem ha
  · rintro ⟨h, hself⟩
    refine ⟨⟨h.args, fun a ha b hb hattack => ?_⟩, fun a ha hS => ?_⟩
    · by_cases hab : a = b
      · subst hab
        exact hself a ha hattack
      · exact h.free a ha b hb ⟨hab, hattack⟩
    · obtain ⟨b, hb, hba⟩ := h.outside a ha hS
      exact ⟨b, hb, hba.2⟩

/-- **Extension enumeration below its bounds**: both lists are exact when, and only when, no set that is
stable without the self-attacks contains an argument that attacks itself. -/
theorem extensions_exact_iff (bg : BeliefGraph) (h : boundFires bg = false) :
    (Lists (preferredExtensions bg) (framework bg).Preferred ∧
        Lists (stableExtensions bg) (framework bg).Stable) ↔ SelfAttackersExcluded bg := by
  obtain ⟨hmem, hnodup⟩ := mem_stableExtensions h
  constructor
  · rintro ⟨-, hstable⟩ S hS
    obtain ⟨E, rfl⟩ := exists_keys hS.args
    exact (stable_iff.mp ((hstable.exact _).mp ⟨E, (hmem E).mpr hS, rfl⟩)).2
  · intro hself
    refine ⟨preferred_exact h, fun S => ⟨?_, fun hS => ?_⟩, hnodup⟩
    · rintro ⟨E, hE, rfl⟩
      exact stable_iff.mpr ⟨(hmem E).mp hE, hself _ ((hmem E).mp hE)⟩
    · obtain ⟨E, rfl⟩ := exists_keys hS.args
      exact ⟨E, (hmem E).mpr (stable_iff.mp hS).1, rfl⟩

end

def contradiction : BeliefGraph where
  priors := .empty
  inEdges := Table.ofPairs [("p", [("q", .contradicts)]), ("q", [("p", .contradicts)])]

theorem contradiction_enumerated : boundFires contradiction = false ∧
      ((Lists (preferredExtensions contradiction) (framework contradiction).Preferred ∧
          Lists (stableExtensions contradiction) (framework contradiction).Stable) ↔
        SelfAttackersExcluded contradiction) :=
  ⟨by decide +kernel, extensions_exact_iff contradiction (by decide +kernel)⟩

def selfAttack : BeliefGraph where
  priors := .empty
  inEdges := Table.ofPairs [("p", [("p", .attacks)])]

/-- The stable extensions of a self-attack contain it. -/
theorem selfAttack_stable : boundFires selfAttack = false ∧
      ¬ (Lists (preferredExtensions selfAttack) (framework selfAttack).Preferred ∧
        Lists (stableExtensions selfAttack) (framework selfAttack).Stable) := by
  refine ⟨by decide +kernel, fun hexact => ?_⟩
  have hlisted : ∃ E ∈ stableExtensions selfAttack, has E "p" = true := by decide +kernel
  obtain ⟨E, hE, hp⟩ := hlisted
  have hstable := (hexact.2.exact (keys E)).mp ⟨E, hE, rfl⟩
  have hedge : ("p", EdgeKind.attacks) ∈ selfAttack.edges "p" := by decide +kernel
  exact hstable.free_of_mem hp ⟨"p", Relation.ReflTransGen.refl, Or.inl hedge⟩

theorem preferredExtensions_ne_nil {bg : BeliefGraph} (h : boundFires bg = false) :
    preferredExtensions bg ≠ [] := by
  have hfinite : {S | (framework bg).Admissible S}.Finite := by
    refine (((attackerMap bg).rows.map Prod.fst).finite_toSet.powerset).subset fun S hS a ha => ?_
    exact mem_args.mpr (hS.args ha)
  have hempty : (framework bg).Admissible ∅ :=
    ⟨⟨Set.empty_subset _, fun a ha => absurd ha (Set.notMem_empty a)⟩, Set.empty_subset _⟩
  obtain ⟨S, -, hS⟩ := hfinite.exists_le_maximal hempty
  obtain ⟨E, hE, -⟩ := ((preferred_exact h).exact S).mpr hS
  exact List.ne_nil_of_mem hE

theorem has_of_grounded {bg : BeliefGraph} (h : boundFires bg = false) {E : KeySet String}
    (hE : E ∈ preferredExtensions bg) {id : String} (hid : has (groundedExtension bg) id = true) :
    has E id = true := by
  have hpreferred : (framework bg).Preferred (keys E) :=
    ((preferred_exact h).exact _).mp ⟨E, hE, rfl⟩
  refine Library.Argumentation.Framework.grounded_subset hpreferred.complete ?_
  rw [← keys_groundedExtension_eq]
  exact hid

/-- **The grounded extension is part of every preferred extension** that is returned below the bounds, and
one is returned: what is skeptically accepted stands whichever of them is chosen. -/
theorem grounded_in_every_preferred (bg : BeliefGraph) (h : boundFires bg = false) :
    preferredExtensions bg ≠ [] ∧
      ∀ E ∈ preferredExtensions bg, ∀ id, has (groundedExtension bg) id = true → has E id = true :=
  ⟨preferredExtensions_ne_nil h, fun _ hE _ => has_of_grounded h hE⟩

def rebuttal : BeliefGraph where
  priors := .empty
  inEdges := Table.ofPairs [("q", [("p", .attacks)])]

theorem rebuttal_stands : has (groundedExtension rebuttal) "p" = true ∧
    ∀ E ∈ preferredExtensions rebuttal, has E "p" = true :=
  have hp : has (groundedExtension rebuttal) "p" = true := by decide +kernel
  ⟨hp, fun E hE => (grounded_in_every_preferred rebuttal (by decide +kernel)).2 E hE "p" hp⟩

end Medulla.Epistemic.Extensions
