import Mathlib.Data.List.Induction
import Mathlib.Data.List.Lex
import Mathlib.Data.List.Sort
import Mathlib.Tactic.Linarith

/-! # The arrangements of a list, and the first cheapest of a list of candidates

`arrangements` lists every order of a list of indices, depth first: the orders that begin with the
first index, then those that begin with the second, and so on. On an increasing list they come in
lexicographic order. -/

namespace Medulla.Library.Arrangements

/-! ### Arrangements -/

/-- Every element of a list with the others, in order. -/
def picks {α : Type} : List α → List (α × List α)
  | [] => []
  | x :: xs => (x, xs) :: (picks xs).map fun p => (p.1, x :: p.2)

/-- The arrangements of a list of the given length, depth first. -/
def arrangements {α : Type} : ℕ → List α → List (List α)
  | 0, _ => [[]]
  | n + 1, l => (picks l).flatMap fun p => (arrangements n p.2).map (p.1 :: ·)

theorem mem_picks {α : Type} {x : α} {rest : List α} : ∀ {l : List α},
    (x, rest) ∈ picks l ↔ ∃ a b, l = a ++ x :: b ∧ rest = a ++ b
  | [] => by simp [picks]
  | y :: l => by
    simp only [picks, List.mem_cons, Prod.mk.injEq, List.mem_map, Prod.exists]
    constructor
    · rintro (⟨rfl, rfl⟩ | ⟨z, rest', h, rfl, rfl⟩)
      · exact ⟨[], rest, rfl, rfl⟩
      · obtain ⟨a, b, rfl, rfl⟩ := mem_picks.mp h
        exact ⟨y :: a, b, rfl, rfl⟩
    · rintro ⟨a, b, h, rfl⟩
      rcases a with _ | ⟨z, a⟩
      · left
        simp only [List.nil_append, List.cons.injEq] at h
        exact ⟨h.1.symm, by simpa using h.2.symm⟩
      · right
        simp only [List.cons_append, List.cons.injEq] at h
        exact ⟨x, a ++ b, mem_picks.mpr ⟨a, b, h.2, rfl⟩, rfl, by simp [h.1]⟩

theorem perm_of_mem_arrangements {α : Type} : ∀ {n : ℕ} {l w : List α}, l.length = n →
    w ∈ arrangements n l → w.Perm l
  | 0, l, w, hl, h => by
    rw [List.length_eq_zero_iff] at hl
    simp only [arrangements, List.mem_singleton] at h
    rw [hl, h]
  | n + 1, l, w, hl, h => by
    simp only [arrangements, List.mem_flatMap, List.mem_map, Prod.exists] at h
    obtain ⟨x, rest, hp, v, hv, rfl⟩ := h
    obtain ⟨a, b, rfl, rfl⟩ := mem_picks.mp hp
    have hlen : (a ++ b).length = n := by simp at hl ⊢; omega
    exact ((perm_of_mem_arrangements hlen hv).cons x).trans List.perm_middle.symm

theorem mem_arrangements_of_perm {α : Type} : ∀ {n : ℕ} {l w : List α}, l.length = n →
    w.Perm l → w ∈ arrangements n l
  | 0, l, w, hl, h => by
    rw [List.length_eq_zero_iff] at hl
    subst hl
    simp [arrangements, h.eq_nil]
  | n + 1, l, [], hl, h => by simp [h.symm.eq_nil] at hl
  | n + 1, l, x :: v, hl, h => by
    obtain ⟨a, b, rfl⟩ := List.append_of_mem (h.subset (.head _))
    have hv : v.Perm (a ++ b) := (h.trans List.perm_middle).cons_inv
    have hlen : (a ++ b).length = n := by simp at hl ⊢; omega
    simp only [arrangements, List.mem_flatMap, List.mem_map, Prod.exists]
    exact ⟨x, a ++ b, mem_picks.mpr ⟨a, b, rfl, rfl⟩, v, mem_arrangements_of_perm hlen hv, rfl⟩

theorem pairwise_picks {l : List ℕ} (h : l.Pairwise (· < ·)) :
    (picks l).Pairwise fun p q => p.1 < q.1 := by
  induction l with
  | nil => simp [picks]
  | cons x l ih =>
    rw [List.pairwise_cons] at h
    simp only [picks, List.pairwise_cons, List.pairwise_map, List.mem_map, Prod.exists]
    refine ⟨?_, ih h.2⟩
    rintro p ⟨y, rest, hy, rfl⟩
    obtain ⟨a, b, rfl, -⟩ := mem_picks.mp hy
    exact h.1 y (by simp)

/-- **Lexicographic order.** The arrangements of an increasing list come in lexicographic order. -/
theorem pairwise_arrangements : ∀ (n : ℕ) {l : List ℕ}, l.Pairwise (· < ·) →
    (arrangements n l).Pairwise (· < ·)
  | 0, l, _ => by simp [arrangements]
  | n + 1, l, h => by
    simp only [arrangements, List.pairwise_flatMap, List.pairwise_map, List.mem_map]
    constructor
    · intro p hp
      obtain ⟨a, b, rfl, hrest⟩ := mem_picks.mp (show (p.1, p.2) ∈ picks l from hp)
      have hsub : p.2.Pairwise (· < ·) := by
        rw [hrest]
        exact h.sublist ((List.sublist_cons_self p.1 b).append_left a)
      refine (pairwise_arrangements n hsub).imp fun hvw => ?_
      exact List.cons_lt_cons_self.mpr hvw
    · refine (pairwise_picks h).imp fun {p q} hpq => ?_
      rintro v ⟨v', -, rfl⟩ w ⟨w', -, rfl⟩
      exact List.cons_lt_cons_iff.mpr (Or.inl hpq)

/-! ### The first cheapest candidate -/

section firstBest

variable {α : Type} (cost : α → Option ℚ) (margin : ℚ)

/-- Take a candidate that is cheaper, by more than the margin, than the best so far. -/
def better (best : Option (ℚ × α)) (x : α) : Option (ℚ × α) :=
  match cost x with
  | none => best
  | some c =>
    match best with
    | none => some (c, x)
    | some (b, _) => if c < b - margin then some (c, x) else best

def firstBest (l : List α) : Option (ℚ × α) := l.foldl (better cost margin) none

variable {cost margin}

theorem firstBest_least (hm : 0 ≤ margin) (l : List α) :
    (firstBest cost margin l = none → ∀ y ∈ l, cost y = none) ∧
      ∀ c x, firstBest cost margin l = some (c, x) →
        ∀ y ∈ l, ∀ d, cost y = some d → c - margin ≤ d := by
  induction l using List.reverseRecOn with
  | nil => simp [firstBest]
  | append_singleton l z ih =>
    obtain ⟨ihn, ihs⟩ := ih
    rw [firstBest, List.foldl_append, List.foldl_cons, List.foldl_nil, ← firstBest, better]
    rcases hz : cost z with _ | cz
    · refine ⟨fun h y hy => ?_, fun c x h y hy d hd => ?_⟩
      · rcases List.mem_append.mp hy with hy | hy
        · exact ihn h y hy
        · rw [List.mem_singleton.mp hy, hz]
      · rcases List.mem_append.mp hy with hy | hy
        · exact ihs c x h y hy d hd
        · rw [List.mem_singleton.mp hy, hz] at hd
          cases hd
    · rcases hb : firstBest cost margin l with _ | ⟨b, w⟩
      · refine ⟨fun h => by simp at h, fun c x h y hy d hd => ?_⟩
        simp only [Option.some.injEq, Prod.mk.injEq] at h
        rcases List.mem_append.mp hy with hy | hy
        · rw [ihn hb y hy] at hd
          cases hd
        · rw [List.mem_singleton.mp hy, hz] at hd
          cases hd
          linarith
      · dsimp only
        split_ifs with hlt
        · refine ⟨fun h => by simp at h, fun c x h y hy d hd => ?_⟩
          simp only [Option.some.injEq, Prod.mk.injEq] at h
          rcases List.mem_append.mp hy with hy | hy
          · linarith [ihs b w hb y hy d hd]
          · rw [List.mem_singleton.mp hy, hz] at hd
            cases hd
            linarith
        · refine ⟨fun h => by simp at h, fun c x h y hy d hd => ?_⟩
          obtain ⟨rfl, rfl⟩ := h
          rcases List.mem_append.mp hy with hy | hy
          · exact ihs b w hb y hy d hd
          · rw [List.mem_singleton.mp hy, hz] at hd
            cases hd
            linarith

/-- **The first of its cost.** No candidate before the one a scan leaves has the same cost. -/
theorem firstBest_first (hm : 0 ≤ margin) (l : List α) {c : ℚ} {x : α}
    (h : firstBest cost margin l = some (c, x)) :
    ∃ l₁ l₂, l = l₁ ++ x :: l₂ ∧ cost x = some c ∧ ∀ y ∈ l₁, cost y ≠ some c := by
  induction l using List.reverseRecOn with
  | nil => simp [firstBest] at h
  | append_singleton l z ih =>
    have hkeep : firstBest cost margin l = some (c, x) →
        ∃ l₁ l₂, l ++ [z] = l₁ ++ x :: l₂ ∧ cost x = some c ∧ ∀ y ∈ l₁, cost y ≠ some c := by
      intro hl
      obtain ⟨l₁, l₂, rfl, hx, hfirst⟩ := ih hl
      exact ⟨l₁, l₂ ++ [z], by simp, hx, hfirst⟩
    rw [firstBest, List.foldl_append, List.foldl_cons, List.foldl_nil, ← firstBest, better] at h
    rcases hz : cost z with _ | cz
    · rw [hz] at h
      exact hkeep h
    · rw [hz] at h
      rcases hb : firstBest cost margin l with _ | ⟨b, w⟩
      · simp only [hb] at h
        obtain ⟨rfl, rfl⟩ := h
        refine ⟨l, [], rfl, hz, fun y hy hc => ?_⟩
        rw [(firstBest_least hm l).1 hb y hy] at hc
        cases hc
      · simp only [hb] at h
        split_ifs at h with hlt
        · simp only [Option.some.injEq] at h
          obtain ⟨rfl, rfl⟩ := h
          refine ⟨l, [], rfl, hz, fun y hy hc => ?_⟩
          linarith [(firstBest_least hm l).2 b w hb y hy _ hc]
        · exact hkeep (hb.trans h)

end firstBest

/-! ### Equal costs keep their order -/

/-- **Order kept.** If a candidate's cost is the same after two of its marked indices are exchanged,
the first cheapest arrangement of an increasing list has its marked indices in increasing order. -/
theorem firstBest_filter_eq {cost : List ℕ → Option ℚ} {margin : ℚ} (hm : 0 ≤ margin)
    {marked : ℕ → Bool}
    (hswap : ∀ a i b j c, marked i → marked j →
      cost (a ++ i :: (b ++ j :: c)) = cost (a ++ j :: (b ++ i :: c)))
    {l : List ℕ} (hl : l.Pairwise (· < ·)) {c : ℚ} {w : List ℕ}
    (h : firstBest cost margin (arrangements l.length l) = some (c, w)) :
    w.Perm l ∧ w.filter marked = l.filter marked := by
  obtain ⟨l₁, l₂, hsplit, hw, hfirst⟩ := firstBest_first hm _ h
  have hperm : w.Perm l := perm_of_mem_arrangements rfl (by rw [hsplit]; simp)
  have hlex := pairwise_arrangements l.length hl
  have hsorted : (w.filter marked).Pairwise (· < ·) := by
    rw [List.pairwise_iff_forall_sublist]
    intro i j hij
    have hmi : marked i := List.of_mem_filter (hij.subset (by simp))
    have hmj : marked j := List.of_mem_filter (hij.subset (by simp))
    obtain ⟨r₁, r₂, hr, hi, hj⟩ := List.cons_sublist_iff.mp (hij.trans List.filter_sublist)
    obtain ⟨a, b₁, rfl⟩ := List.append_of_mem hi
    obtain ⟨b₂, d, rfl⟩ := List.append_of_mem (List.singleton_sublist.mp hj)
    have hform : w = a ++ i :: ((b₁ ++ b₂) ++ j :: d) := by simp [hr]
    by_contra hle
    have hne : i ≠ j := by
      rintro rfl
      have hnd := hperm.nodup_iff.mpr (hl.imp fun hlt => (ne_of_lt hlt))
      rw [hform] at hnd
      simp [List.nodup_append] at hnd
    have hlt : j < i := by omega
    -- exchanging the two gives an earlier arrangement of the same cost
    have hearlier : a ++ j :: ((b₁ ++ b₂) ++ i :: d) < w := by
      rw [hform]
      exact List.append_left_lt (List.cons_lt_cons_iff.mpr (Or.inl hlt))
    have hmem : a ++ j :: ((b₁ ++ b₂) ++ i :: d) ∈ arrangements l.length l := by
      refine mem_arrangements_of_perm rfl (List.Perm.trans ?_ hperm)
      rw [hform]
      refine List.Perm.append_left a ?_
      exact (List.perm_middle.cons j).trans ((List.Perm.swap i j _).trans
        (List.perm_middle.symm.cons i))
    rw [hsplit] at hmem hlex
    rcases List.mem_append.mp hmem with hmem | hmem
    · exact hfirst _ hmem (by rw [← hswap a i _ j d hmi hmj, ← hform, hw])
    · rcases List.mem_cons.mp hmem with heq | hmem
      · rw [heq] at hearlier
        exact lt_irrefl _ hearlier
      · have hafter := (List.pairwise_append.mp hlex).2.1
        exact lt_asymm hearlier ((List.pairwise_cons.mp hafter).1 _ hmem)
  refine ⟨hperm, (hperm.filter _).eq_of_pairwise ?_ hsorted (hl.sublist List.filter_sublist)⟩
  intro a b _ _ h1 h2
  exact absurd h1 (lt_asymm h2)

end Medulla.Library.Arrangements
