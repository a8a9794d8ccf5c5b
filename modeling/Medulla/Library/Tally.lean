import Mathlib.Algebra.BigOperators.Group.List.Basic
import Medulla.Library.OrderedTable

/-! # Sums over the rows of a table

`total f t` adds up `f` over the rows of a table. Writing a new row adds its value, and deleting a
row takes its value away, so a sum kept beside a table can be maintained row by row. -/

namespace Medulla.Library.Tally

open OrderedTable

variable {K V M : Type*} [LinearOrder K] [AddCommMonoid M] {t : Table K V} {f : K → V → M} {k : K}

theorem insertRow_perm {v : V} :
    ∀ {rs : List (K × V)}, lookupRow k rs = none → (insertRow k v rs).Perm ((k, v) :: rs)
  | [], _ => .refl _
  | (k', v') :: rs, h => by
    unfold insertRow
    unfold lookupRow at h
    split_ifs at h with hk
    split_ifs with h1
    · exact .refl _
    · exact ((insertRow_perm h).cons (k', v')).trans (.swap _ _ _)

def total (f : K → V → M) (t : Table K V) : M := (t.rows.map fun r => f r.1 r.2).sum

theorem total_insert {v : V} (h : t.get k = none) :
    total f (t.insert k v) = f k v + total f t := by
  have hperm : (insertRow k v t.rows).Perm ((k, v) :: t.rows) := insertRow_perm h
  have hsum := (hperm.map fun r => f r.1 r.2).sum_eq
  exact hsum

theorem insert_remove {v : V} : (t.remove k).insert k v = t.insert k v := by
  refine Table.ext_get fun k₁ => ?_
  by_cases h : k₁ = k
  · subst h
    rw [Table.get_insert_self, Table.get_insert_self]
  · rw [Table.get_insert_of_ne _ _ h, Table.get_insert_of_ne _ _ h, Table.get_remove_of_ne _ h]

theorem insert_of_get {v : V} (h : t.get k = some v) : t.insert k v = t := by
  refine Table.ext_get fun k₁ => ?_
  rw [Table.get_insert]
  split_ifs with hk
  · rw [hk, h]
  · rfl

theorem total_remove {v : V} (h : t.get k = some v) :
    f k v + total f (t.remove k) = total f t := by
  rw [← total_insert (Table.get_remove_self t k), insert_remove, insert_of_get h]

theorem total_replace {v w : V} (h : t.get k = some v) :
    f k v + total f (t.insert k w) = f k w + total f t := by
  rw [← insert_remove, total_insert (Table.get_remove_self t k), ← total_remove h]
  exact add_left_comm _ _ _

theorem total_congr {f g : K → V → M}
    (h : ∀ k v, t.get k = some v → f k v = g k v) : total f t = total g t := by
  refine congrArg List.sum (List.map_congr_left fun r hr => ?_)
  exact h r.1 r.2 (Table.mem_rows.mp hr)

theorem total_indicator (p : K → V → Bool) (t : Table K V) :
    total (fun k v => if p k v then 1 else 0) t = t.count p := by
  unfold total Table.count countRows
  induction t.rows with
  | nil => rfl
  | cons r rs ih =>
    rw [List.map_cons, List.sum_cons, List.countP_cons, ih]
    exact Nat.add_comm _ _

theorem total_insert_getD {d w : V} (hd : f k d = 0) :
    f k ((t.get k).getD d) + total f (t.insert k w) = f k w + total f t := by
  cases h : t.get k with
  | none => rw [Option.getD_none, hd, zero_add, total_insert h]
  | some v => rw [Option.getD_some, total_replace h]

theorem total_remove_getD {d : V} (hd : f k d = 0) :
    f k ((t.get k).getD d) + total f (t.remove k) = total f t := by
  cases h : t.get k with
  | none =>
    have hsame : t.remove k = t := by
      refine Table.ext_get fun k₁ => ?_
      rw [Table.get_remove]
      split_ifs with hk
      · rw [hk, h]
      · rfl
    rw [Option.getD_none, hd, zero_add, hsame]
  | some v => rw [Option.getD_some, total_remove h]

theorem total_pos {f : K → V → ℕ} :
    0 < total f t ↔ ∃ k v, t.get k = some v ∧ 0 < f k v := by
  unfold total
  rw [List.sum_pos_iff_exists_pos_nat]
  constructor
  · rintro ⟨n, hn, hpos⟩
    obtain ⟨r, hr, rfl⟩ := List.mem_map.mp hn
    exact ⟨r.1, r.2, Table.mem_rows.mp hr, hpos⟩
  · rintro ⟨k, v, hget, hpos⟩
    exact ⟨f k v, List.mem_map.mpr ⟨(k, v), Table.mem_rows.mpr hget, rfl⟩, hpos⟩

end Medulla.Library.Tally
