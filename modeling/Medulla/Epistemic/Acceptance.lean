import Mathlib.Algebra.GroupWithZero.Nat
import Medulla.Epistemic.Extensions

/-! # Skeptical and credulous acceptance

An argument is accepted skeptically if it is in the grounded extension, and credulously if it is in a
preferred one. The preferred extensions come from a search that leaves an argument out before it takes
it and stops when its budget is used up.

## Main results

- `boundFires_iff`: when the search is skipped or cut, as a count of conflict-free sets.
- `skeptical_credulous`: skeptical acceptance implies credulous acceptance where it is not cut.
- `least_not_credulous`: the least argument is lost where the sets without it use up the budget. -/

namespace Medulla.Epistemic.Acceptance

open Library.OrderedTable Library.OrderedSet Beliefs Grounded
open Extensions

variable {attackers : AttackerMap} {bg : BeliefGraph} {id : String} {E : KeySet String}

/-- The argument is in the grounded extension. -/
def isSkepticallyAccepted (bg : BeliefGraph) (id : String) : Bool := has (groundedExtension bg) id

/-- The argument is in some preferred extension that is returned. -/
def isCredulouslyAccepted (bg : BeliefGraph) (id : String) : Bool :=
  (preferredExtensions bg).any fun e => has e id

/-! ### The size of the search -/

/-- The sets of the first `i` arguments, with the current set, whose members attack no other member. -/
def freeSets (attackers : AttackerMap) (args : List String) (current : KeySet String) (i : ℕ) : ℕ :=
  (conflictFreeFrom attackers (args.take i) current).length

/-- **The number of conflict-free sets of a beginning of the arguments**, over all beginnings. -/
def countFree (attackers : AttackerMap) (args : List String) (current : KeySet String) : ℕ :=
  ((List.range (args.length + 1)).map (freeSets attackers args current)).sum

/-- The nodes that the search of a belief graph needs. -/
def searchNodes (bg : BeliefGraph) : ℕ :=
  countFree (attackerMap bg) ((attackerMap bg).rows.map Prod.fst) .empty

section
variable {current : KeySet String} {a : String} {rest : List String} {s : Found}

theorem countFree_nil : countFree attackers [] current = 1 := rfl

theorem countFree_cons : countFree attackers (a :: rest) current =
    1 + countFree attackers rest current +
      if conflicts attackers current a then 0 else countFree attackers rest (add current a) := by
  have hshift : ∀ i, freeSets attackers (a :: rest) current (i + 1) =
      freeSets attackers rest current i +
        if conflicts attackers current a then 0 else freeSets attackers rest (add current a) i := by
    intro i
    unfold freeSets
    rw [List.take_succ_cons, conflictFreeFrom, List.length_append]
    split_ifs <;> rfl
  unfold countFree
  rw [List.length_cons, List.range_succ_eq_map, List.map_cons, List.sum_cons, List.map_map,
    show freeSets attackers (a :: rest) current ∘ Nat.succ =
      fun i => freeSets attackers (a :: rest) current (i + 1) from rfl]
  simp only [hshift, List.sum_map_add]
  rw [show freeSets attackers (a :: rest) current 0 = 1 from rfl, add_assoc]
  split_ifs <;> simp

/-- **What a search spends**: one node of the budget for each counted set, and it is cut exactly if
there are more of them. -/
theorem searchConflictFree_spends : ∀ {args : List String} {current : KeySet String} {s : Found},
    s.capped = false →
      (searchConflictFree attackers args current s).budget =
          s.budget - countFree attackers args current ∧
        ((searchConflictFree attackers args current s).capped = true ↔
          s.budget < countFree attackers args current)
  | [], current, s, hs => by
    unfold searchConflictFree spend
    rw [countFree_nil]
    split_ifs with hbudget
    · exact ⟨by simp [hbudget], by simp [hbudget]⟩
    · refine ⟨rfl, ?_⟩
      change s.capped = true ↔ s.budget < 1
      exact iff_of_false (by simp [hs]) (by omega)
  | a :: rest, current, s, hs => by
    unfold searchConflictFree spend
    rw [countFree_cons]
    by_cases hbudget : s.budget = 0
    · rw [if_pos hbudget]
      refine ⟨?_, iff_of_true rfl (by omega)⟩
      change s.budget = _
      omega
    · rw [if_neg hbudget]
      obtain ⟨hskip, hcut⟩ := @searchConflictFree_spends rest current
        { s with budget := s.budget - 1 } hs
      dsimp only at hskip hcut ⊢
      generalize searchConflictFree attackers rest current { s with budget := s.budget - 1 } = s₁
        at hskip hcut
      by_cases hcapped : s₁.capped = true
      · -- the budget ran out before the argument was taken
        rw [if_pos hcapped]
        have hover := hcut.mp hcapped
        exact ⟨by omega, iff_of_true hcapped (by omega)⟩
      · rw [if_neg hcapped]
        have hroom : ¬ s.budget - 1 < countFree attackers rest current := fun h => hcapped (hcut.mpr h)
        by_cases hconflict : conflicts attackers current a = true
        · rw [if_pos hconflict, if_pos hconflict]
          exact ⟨by omega, iff_of_false hcapped (by omega)⟩
        · rw [if_neg hconflict, if_neg hconflict]
          obtain ⟨htake, hcut'⟩ := @searchConflictFree_spends rest (add current a) s₁
            (by simpa using hcapped)
          exact ⟨by omega, by rw [hcut']; omega⟩

/-- A search, cut or not, only finds sets that the unbounded one finds. -/
theorem mem_found : ∀ {args : List String} {current : KeySet String} {s : Found},
    E ∈ (searchConflictFree attackers args current s).found →
      E ∈ s.found ∨ E ∈ conflictFreeFrom attackers args current
  | [], current, s, h => by
    unfold searchConflictFree spend at h
    split_ifs at h
    · exact .inl h
    · exact (List.mem_append.mp h).imp_right fun h => h
  | a :: rest, current, s, h => by
    unfold searchConflictFree spend at h
    unfold conflictFreeFrom
    rw [List.mem_append]
    by_cases hbudget : s.budget = 0
    · rw [if_pos hbudget] at h
      exact .inl h
    rw [if_neg hbudget] at h
    dsimp only at h
    split_ifs at h with hcapped hconflict
    · exact (mem_found h).imp_right .inl
    · exact (mem_found h).imp_right .inl
    · rcases mem_found h with h | h
      · exact (mem_found h).imp_right .inl
      · rw [if_neg hconflict]
        exact .inr (.inr h)

end

/-! ### Acceptance -/

theorem boundedConflictFreeSets_eq (h : (attackerMap bg).rows.length ≤ maxPreferredArguments) :
    boundedConflictFreeSets bg = some (searchConflictFree (attackerMap bg)
      ((attackerMap bg).rows.map Prod.fst) .empty ⟨[], maxSearchNodes, false⟩) :=
  if_neg (by rw [List.length_map]; omega)

theorem boundedConflictFreeSets_skipped (h : maxPreferredArguments < (attackerMap bg).rows.length) :
    boundedConflictFreeSets bg = none :=
  if_pos (by rwa [List.length_map])

/-- **The bounds fire** when there are too many arguments, or too many conflict-free sets of them. -/
theorem boundFires_iff : boundFires bg = true ↔
    maxPreferredArguments < (attackerMap bg).rows.length ∨ maxSearchNodes < searchNodes bg := by
  unfold boundFires
  by_cases hmany : maxPreferredArguments < (attackerMap bg).rows.length
  · simp [boundedConflictFreeSets_skipped hmany, hmany]
  · rw [boundedConflictFreeSets_eq (not_lt.mp hmany)]
    exact (searchConflictFree_spends (s := ⟨[], maxSearchNodes, false⟩) rfl).2.trans
      (by simp [hmany, searchNodes])

/-- **Skeptical acceptance implies credulous acceptance** where the search is skipped or is not cut. -/
theorem skeptical_credulous (bg : BeliefGraph)
    (hbounds : maxPreferredArguments < (attackerMap bg).rows.length ∨ searchNodes bg ≤ maxSearchNodes)
    (id : String) (hid : isSkepticallyAccepted bg id = true) : isCredulouslyAccepted bg id = true := by
  unfold isCredulouslyAccepted
  rw [List.any_eq_true]
  by_cases hmany : maxPreferredArguments < (attackerMap bg).rows.length
  · -- the grounded extension stands in for the search
    rw [preferredExtensions, boundedConflictFreeSets_skipped hmany]
    exact ⟨_, List.mem_singleton.mpr rfl, hid⟩
  · have hquiet : boundFires bg = false := by
      rw [← Bool.not_eq_true, boundFires_iff]
      exact not_or.mpr ⟨hmany, not_lt.mpr (hbounds.resolve_left hmany)⟩
    obtain ⟨E, hE⟩ := List.exists_mem_of_ne_nil _ (preferredExtensions_ne_nil hquiet)
    exact ⟨E, hE, has_of_grounded hquiet hE hid⟩

/-- The attacker of `q` is accepted, whichever extension is chosen. -/
theorem skeptical_credulous_rebuttal : searchNodes rebuttal ≤ maxSearchNodes ∧
    isSkepticallyAccepted rebuttal "p" = true ∧ isCredulouslyAccepted rebuttal "p" = true :=
  have hnodes : searchNodes rebuttal ≤ maxSearchNodes := by decide +kernel
  have hp : isSkepticallyAccepted rebuttal "p" = true := by decide +kernel
  ⟨hnodes, hp, skeptical_credulous rebuttal (.inr hnodes) "p" hp⟩

/-! ### A search that is cut -/

/-- **The least argument is lost** when the sets without it use up the budget. -/
theorem least_not_credulous {rest : List String}
    (hfew : (attackerMap bg).rows.length ≤ maxPreferredArguments)
    (hargs : (attackerMap bg).rows.map Prod.fst = id :: rest)
    (hcut : maxSearchNodes ≤ countFree (attackerMap bg) rest .empty) :
    ¬ isCredulouslyAccepted bg id = true := by
  obtain ⟨hid, hrest⟩ := List.nodup_cons.mp (hargs ▸ args_nodup bg)
  have hcapped : (searchConflictFree (attackerMap bg) rest .empty
      ⟨[], maxSearchNodes - 1, false⟩).capped = true :=
    (searchConflictFree_spends rfl).2.mpr (lt_of_lt_of_le (by decide) hcut)
  have hsearch : searchConflictFree (attackerMap bg) (id :: rest) .empty ⟨[], maxSearchNodes, false⟩ =
      searchConflictFree (attackerMap bg) rest .empty ⟨[], maxSearchNodes - 1, false⟩ := by
    rw [searchConflictFree, spend, if_neg (by decide)]
    exact if_pos hcapped
  unfold isCredulouslyAccepted
  rw [preferredExtensions, boundedConflictFreeSets_eq hfew, hargs, hsearch, List.any_eq_true]
  rintro ⟨E, hE, hhas⟩
  obtain ⟨hsub, -⟩ := @foldl_keepMaximal _ [] List.Pairwise.nil
  have hfound := List.mem_of_mem_filter ((List.mem_insertionSort _).mp (hsub.subset hE))
  have hfree := (mem_found hfound).resolve_left List.not_mem_nil
  have hextends := ((mem_conflictFreeFrom hrest fun x _ => by simp).1 E).mp hfree
  exact (hextends.within id hhas).elim (by simp) hid

theorem countFree_of_peaceful (hfree : ∀ a b, attacks attackers a b = false) :
    ∀ (args : List String) (current : KeySet String), 2 ^ args.length ≤ countFree attackers args current
  | [], _ => le_refl 1
  | a :: rest, current => by
    have hskip := countFree_of_peaceful hfree rest current
    have htake := countFree_of_peaceful hfree rest (add current a)
    have hno : ¬ conflicts attackers current a = true := fun h => by
      obtain ⟨b, -, hab | hba⟩ := conflicts_iff.mp h
      · rw [hfree] at hab
        cases hab
      · rw [hfree] at hba
        cases hba
    rw [countFree_cons, if_neg hno, List.length_cons]
    omega

/-- Nineteen arguments that nothing attacks. -/
def nineteen : BeliefGraph where
  priors := extend .empty ["a", "b", "c", "d", "e", "f", "g", "h", "i", "j", "k", "l", "m", "n", "o", "p",
    "q", "r", "s"]
  inEdges := .empty

/-- The first of nineteen arguments that nothing attacks is in the grounded extension, and in no set the
search finds before its budget is used up. -/
theorem nineteen_not_credulous : isSkepticallyAccepted nineteen "a" = true ∧
    ¬ isCredulouslyAccepted nineteen "a" = true := by
  obtain ⟨hfew, hargs⟩ : (attackerMap nineteen).rows.length ≤ maxPreferredArguments ∧
      (attackerMap nineteen).rows.map Prod.fst = "a" :: ["b", "c", "d", "e", "f", "g", "h", "i", "j",
        "k", "l", "m", "n", "o", "p", "q", "r", "s"] := by decide +kernel
  have hfree : ∀ a b, attacks (attackerMap nineteen) a b = false := fun a b => by
    rw [← Bool.not_eq_true, attacks_attackerMap]
    rintro ⟨x, -, hattack | hattack⟩ <;> cases hattack
  refine ⟨by decide +kernel, least_not_credulous hfew hargs ?_⟩
  exact le_trans (by decide) (countFree_of_peaceful hfree _ .empty)

end Medulla.Epistemic.Acceptance
