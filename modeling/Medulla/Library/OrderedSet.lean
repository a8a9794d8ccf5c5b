import Medulla.Library.OrderedTable
import Mathlib.Data.Finset.Card

/-! # Ordered sets

A set of keys kept in order: a table of units. Membership is by point read, and the elements are
listed in increasing order. -/

namespace Medulla.Library.OrderedSet

open OrderedTable

abbrev KeySet (K : Type*) [LinearOrder K] := Table K Unit

variable {K : Type*} [LinearOrder K]

def has (s : KeySet K) (k : K) : Bool := (s.get k).isSome

def add (s : KeySet K) (k : K) : KeySet K := s.insert k ()

def elems (s : KeySet K) : List K := s.rows.map Prod.fst

def keep (p : K → Bool) (s : KeySet K) : KeySet K := s.filter fun k _ => p k

def extend (s : KeySet K) (ks : List K) : KeySet K := ks.foldl add s

def isDisjoint (s t : KeySet K) : Bool := (elems s).all fun k => !has t k

def keys (s : KeySet K) : Set K := {k | has s k = true}

variable {s t : KeySet K} {k k₁ : K}

@[simp] theorem mem_keys : k ∈ keys s ↔ has s k = true := Iff.rfl

@[simp] theorem has_empty : has (Table.empty : KeySet K) k = false := rfl

theorem has_iff : has s k = true ↔ s.get k = some () := by
  rw [has, Option.isSome_iff_exists]
  exact ⟨fun ⟨_, h⟩ => h, fun h => ⟨_, h⟩⟩

theorem ext_has (h : ∀ k, has s k = true ↔ has t k = true) : s = t := by
  refine Table.ext_get fun k => Option.ext fun u => ?_
  have hk := h k
  rw [has_iff, has_iff] at hk
  exact hk

@[simp] theorem has_add : has (add s k) k₁ = true ↔ k₁ = k ∨ has s k₁ = true := by
  rw [has, add, Table.get_insert]
  by_cases h : k₁ = k
  · simp [h]
  · simp [h, has]

@[simp] theorem has_remove : has (s.remove k) k₁ = true ↔ k₁ ≠ k ∧ has s k₁ = true := by
  rw [has, Table.get_remove]
  by_cases h : k₁ = k
  · simp [h]
  · simp [h, has]

@[simp] theorem mem_elems : k ∈ elems s ↔ has s k = true := by
  rw [has_iff, ← Table.mem_rows, elems, List.mem_map]
  constructor
  · rintro ⟨⟨k', u⟩, hr, rfl⟩
    exact hr
  · intro h
    exact ⟨(k, ()), h, rfl⟩

@[simp] theorem has_keep {p : K → Bool} : has (keep p s) k = true ↔ has s k = true ∧ p k = true := by
  rw [has_iff, keep, Table.get_filter, Option.filter_eq_some_iff, has_iff]

@[simp] theorem has_extend : ∀ {ks : List K} {s : KeySet K},
    has (extend s ks) k = true ↔ has s k = true ∨ k ∈ ks
  | [], s => by simp [extend]
  | k' :: ks, s => by
    rw [extend, List.foldl_cons, ← extend, has_extend, has_add, List.mem_cons]
    tauto

theorem isDisjoint_iff : isDisjoint s t = true ↔ ∀ k, has s k = true → has t k = false := by
  simp [isDisjoint]

/-! ### Subsets -/

def isSubset (s t : KeySet K) : Bool := (elems s).all (has t)

theorem isSubset_iff : isSubset s t = true ↔ ∀ k, has s k = true → has t k = true := by
  simp [isSubset]

theorem nodup_elems (s : KeySet K) : (elems s).Nodup := by
  rw [elems, List.Nodup, List.pairwise_map]
  exact s.sorted.imp fun h => ne_of_lt h

theorem length_elems (s : KeySet K) : (elems s).length = s.rows.length := List.length_map _

theorem eq_of_isSubset (h : isSubset s t = true) (hlen : t.rows.length ≤ s.rows.length) : s = t := by
  rw [isSubset_iff] at h
  have hsub : (elems s).toFinset ⊆ (elems t).toFinset := by
    intro k hk
    rw [List.mem_toFinset, mem_elems] at hk ⊢
    exact h k hk
  have hcard : (elems t).toFinset.card ≤ (elems s).toFinset.card := by
    rw [List.toFinset_card_of_nodup (nodup_elems s), List.toFinset_card_of_nodup (nodup_elems t),
      length_elems, length_elems]
    exact hlen
  have heq := Finset.eq_of_subset_of_card_le hsub hcard
  refine ext_has fun k => ?_
  rw [← mem_elems, ← List.mem_toFinset, heq, List.mem_toFinset, mem_elems]

/-! ### Occurrences in a list -/

/-- How often each key stands in a list. -/
def occurrences (ks : List K) : Table K Nat :=
  ks.foldl (fun t k => t.insert k ((t.get k).getD 0 + 1)) Table.empty

theorem getD_foldl_occurrences : ∀ {ks : List K} {t : Table K Nat},
    ((ks.foldl (fun t k => t.insert k ((t.get k).getD 0 + 1)) t).get k).getD 0 =
      (t.get k).getD 0 + ks.count k
  | [], t => by simp
  | k' :: ks, t => by
    rw [List.foldl_cons, getD_foldl_occurrences, Table.get_insert, List.count_cons]
    by_cases h : k = k'
    · subst h
      simp only [if_true, Option.getD_some, beq_self_eq_true]
      omega
    · simp [h, Ne.symm h]

theorem getD_occurrences (ks : List K) (k : K) : ((occurrences ks).get k).getD 0 = ks.count k := by
  rw [occurrences, getD_foldl_occurrences]
  simp

def repeats (seen : KeySet K) : List K → List K
  | [] => []
  | k :: ks => if has seen k then k :: repeats seen ks else repeats (add seen k) ks

theorem repeats_eq_nil : ∀ {ks : List K} {seen : KeySet K},
    repeats seen ks = [] ↔ ks.Nodup ∧ ∀ k ∈ ks, has seen k = false
  | [], seen => by simp [repeats]
  | k :: ks, seen => by
    unfold repeats
    by_cases h : has seen k = true
    · simp [h]
    · rw [if_neg h, repeats_eq_nil, List.nodup_cons]
      have hadd : ∀ k', has (add seen k) k' = false ↔ k' ≠ k ∧ has seen k' = false := by
        intro k'
        rw [← Bool.not_eq_true, has_add, not_or, Bool.not_eq_true]
      simp only [hadd, List.forall_mem_cons, Bool.not_eq_true] at h ⊢
      constructor
      · rintro ⟨hnodup, hks⟩
        exact ⟨⟨fun hk => (hks k hk).1 rfl, hnodup⟩, h, fun k' hk' => (hks k' hk').2⟩
      · rintro ⟨⟨hk, hnodup⟩, -, hks⟩
        refine ⟨hnodup, fun k' hk' => ⟨?_, hks k' hk'⟩⟩
        rintro rfl
        exact hk hk'

end Medulla.Library.OrderedSet
