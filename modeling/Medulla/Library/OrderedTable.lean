import Mathlib.Data.List.Pairwise
import Mathlib.Data.List.Perm.Subperm
import Medulla.Library.Strings

/-! # Ordered tables

A table of an embedded ordered key-value store, as the list of its rows in strictly increasing key
order. Point reads and writes are `get`, `insert` and `remove`; scans read `rows` directly. -/

namespace Medulla.Library.OrderedTable

/-- A table: rows in strictly increasing key order, so each key has at most one row. -/
@[ext]
structure Table (K V : Type*) [LinearOrder K] where
  rows : List (K × V)
  sorted : rows.Pairwise fun a b => a.1 < b.1

variable {K V : Type*} [LinearOrder K]

/-! ### Rows -/

def lookupRow (k : K) : List (K × V) → Option V
  | [] => none
  | (k', v) :: rs => if k' = k then some v else lookupRow k rs

/-- Write a row, replacing the row of the same key. -/
def insertRow (k : K) (v : V) : List (K × V) → List (K × V)
  | [] => [(k, v)]
  | (k', v') :: rs =>
    if k < k' then (k, v) :: (k', v') :: rs
    else if k' = k then (k, v) :: rs
    else (k', v') :: insertRow k v rs

def removeRow (k : K) : List (K × V) → List (K × V)
  | [] => []
  | (k', v') :: rs => if k' = k then removeRow k rs else (k', v') :: removeRow k rs

theorem mem_insertRow {k : K} {v : V} {r : K × V} :
    ∀ {rs : List (K × V)}, r ∈ insertRow k v rs → r = (k, v) ∨ r ∈ rs
  | [], h => by
    rw [insertRow, List.mem_singleton] at h
    exact Or.inl h
  | (k', v') :: rs, h => by
    unfold insertRow at h
    split_ifs at h with h1 h2
    · rcases List.mem_cons.mp h with h | h
      · exact Or.inl h
      · exact Or.inr h
    · rcases List.mem_cons.mp h with h | h
      · exact Or.inl h
      · exact Or.inr (.tail _ h)
    · rcases List.mem_cons.mp h with h | h
      · exact Or.inr (h ▸ (.head _))
      · rcases mem_insertRow h with h | h
        · exact Or.inl h
        · exact Or.inr (.tail _ h)

theorem mem_removeRow {k : K} {r : K × V} : ∀ {rs : List (K × V)}, r ∈ removeRow k rs → r ∈ rs
  | [], h => h
  | (k', v') :: rs, h => by
    unfold removeRow at h
    split_ifs at h with h1
    · exact .tail _ (mem_removeRow h)
    · rcases List.mem_cons.mp h with h | h
      · exact h ▸ (.head _)
      · exact .tail _ (mem_removeRow h)

theorem sorted_insertRow (k : K) (v : V) :
    ∀ {rs : List (K × V)}, (rs.Pairwise fun a b => a.1 < b.1) →
      ((insertRow k v rs).Pairwise fun a b => a.1 < b.1)
  | [], _ => by simp [insertRow]
  | (k', v') :: rs, h => by
    obtain ⟨hhead, htail⟩ := List.pairwise_cons.mp h
    unfold insertRow
    split_ifs with h1 h2
    · refine List.pairwise_cons.mpr ⟨fun r hr => ?_, h⟩
      rcases List.mem_cons.mp hr with rfl | hr
      · exact h1
      · exact lt_trans h1 (hhead r hr)
    · subst h2
      exact List.pairwise_cons.mpr ⟨hhead, htail⟩
    · refine List.pairwise_cons.mpr ⟨fun r hr => ?_, sorted_insertRow k v htail⟩
      rcases mem_insertRow hr with rfl | hr
      · exact lt_of_le_of_ne (not_lt.mp h1) h2
      · exact hhead r hr

theorem sorted_removeRow (k : K) : ∀ {rs : List (K × V)}, (rs.Pairwise fun a b => a.1 < b.1) →
      ((removeRow k rs).Pairwise fun a b => a.1 < b.1)
  | [], _ => List.Pairwise.nil
  | (k', v') :: rs, h => by
    obtain ⟨hhead, htail⟩ := List.pairwise_cons.mp h
    unfold removeRow
    split_ifs with h1
    · exact sorted_removeRow k htail
    · exact List.pairwise_cons.mpr
        ⟨fun r hr => hhead r (mem_removeRow hr), sorted_removeRow k htail⟩

theorem lookupRow_insertRow (k k₁ : K) (v : V) : ∀ rs : List (K × V),
      lookupRow k₁ (insertRow k v rs) = if k₁ = k then some v else lookupRow k₁ rs
  | [] => by
    simp only [insertRow, lookupRow, eq_comm]
  | (k', v') :: rs => by
    unfold insertRow
    by_cases h3 : k₁ = k
    · subst h3
      rw [if_pos rfl]
      split_ifs with h1 h2
      · simp [lookupRow]
      · simp [lookupRow]
      · rw [lookupRow, if_neg h2, lookupRow_insertRow, if_pos rfl]
    · rw [if_neg h3]
      split_ifs with h1 h2
      · simp [lookupRow, Ne.symm h3]
      · subst h2
        simp [lookupRow, Ne.symm h3]
      · rw [lookupRow, lookupRow_insertRow, if_neg h3, lookupRow]

theorem lookupRow_removeRow (k k₁ : K) : ∀ rs : List (K × V),
      lookupRow k₁ (removeRow k rs) = if k₁ = k then none else lookupRow k₁ rs
  | [] => by simp [removeRow, lookupRow]
  | (k', v') :: rs => by
    unfold removeRow
    split_ifs with h1 h2 h2
    · rw [lookupRow_removeRow, if_pos h2]
    · rw [lookupRow_removeRow, if_neg h2, lookupRow, if_neg (by rw [h1]; exact Ne.symm h2)]
    · rw [lookupRow, if_neg (by rw [h2]; exact h1), lookupRow_removeRow, if_pos h2]
    · rw [lookupRow, lookupRow_removeRow, if_neg h2, lookupRow]

theorem lookupRow_eq_none {k : K} :
    ∀ {rs : List (K × V)}, (∀ r ∈ rs, r.1 ≠ k) → lookupRow k rs = none
  | [], _ => rfl
  | (k', v') :: rs, h => by
    rw [lookupRow, if_neg (h _ List.mem_cons_self)]
    exact lookupRow_eq_none fun r hr => h r (.tail _ hr)

theorem mem_iff_lookupRow {k : K} {v : V} :
    ∀ {rs : List (K × V)}, (rs.Pairwise fun a b => a.1 < b.1) →
      ((k, v) ∈ rs ↔ lookupRow k rs = some v)
  | [], _ => by simp [lookupRow]
  | (k', v') :: rs, h => by
    obtain ⟨hhead, htail⟩ := List.pairwise_cons.mp h
    unfold lookupRow
    split_ifs with h1
    · subst h1
      have hout : (k', v) ∉ rs := fun hm => lt_irrefl _ (hhead (k', v) hm)
      simp [hout, eq_comm]
    · rw [← mem_iff_lookupRow htail, List.mem_cons, Prod.mk.injEq]
      exact ⟨fun h2 => h2.resolve_left fun h3 => h1 h3.1.symm, Or.inr⟩

theorem eq_of_lookupRow_eq : ∀ {rs ts : List (K × V)}, (rs.Pairwise fun a b => a.1 < b.1) →
      (ts.Pairwise fun a b => a.1 < b.1) → (∀ k, lookupRow k rs = lookupRow k ts) → rs = ts
  | [], [], _, _, _ => rfl
  | [], (k, v) :: ts, _, _, h => by
    have := h k
    simp [lookupRow] at this
  | (k, v) :: rs, [], _, _, h => by
    have := h k
    simp [lookupRow] at this
  | (k, v) :: rs, (k', v') :: ts, hr, ht, h => by
    obtain ⟨hr1, hr2⟩ := List.pairwise_cons.mp hr
    obtain ⟨ht1, ht2⟩ := List.pairwise_cons.mp ht
    -- the least keys agree: each head is found in the other list, at or after its head
    have hk : k = k' := by
      have h1 : (k, v) ∈ (k', v') :: ts := by
        rw [mem_iff_lookupRow ht, ← h k]
        simp [lookupRow]
      have h2 : (k', v') ∈ (k, v) :: rs := by
        rw [mem_iff_lookupRow hr, h k']
        simp [lookupRow]
      rcases List.mem_cons.mp h1 with h1 | h1
      · exact (Prod.mk.inj h1).1
      · rcases List.mem_cons.mp h2 with h2 | h2
        · exact (Prod.mk.inj h2).1.symm
        · exact absurd (lt_trans (hr1 _ h2) (ht1 _ h1)) (lt_irrefl _)
    subst hk
    have hv : v = v' := by simpa [lookupRow] using h k
    subst hv
    congr 1
    refine eq_of_lookupRow_eq hr2 ht2 fun k₁ => ?_
    by_cases h1 : k = k₁
    · subst h1
      rw [lookupRow_eq_none fun r hr => (hr1 r hr).ne', lookupRow_eq_none fun r hr => (ht1 r hr).ne']
    · simpa [lookupRow, h1] using h k₁

def countRows (p : K → V → Bool) (rs : List (K × V)) : ℕ := rs.countP fun r => p r.1 r.2

/-- One when the row is there and satisfies the predicate, zero otherwise. -/
def weight (p : K → V → Bool) (k : K) : Option V → ℕ
  | none => 0
  | some v => if p k v then 1 else 0

omit [LinearOrder K] in
theorem countRows_cons (p : K → V → Bool) (k : K) (v : V) (rs : List (K × V)) :
    countRows p ((k, v) :: rs) = countRows p rs + weight p k (some v) := by
  simp [countRows, List.countP_cons, weight]

theorem countRows_insertRow (p : K → V → Bool) (k : K) (v : V) :
    ∀ {rs : List (K × V)}, (rs.Pairwise fun a b => a.1 < b.1) →
      countRows p (insertRow k v rs) + weight p k (lookupRow k rs) =
        countRows p rs + weight p k (some v)
  | [], _ => by simp [insertRow, countRows, lookupRow, weight]
  | (k', v') :: rs, h => by
    obtain ⟨hhead, htail⟩ := List.pairwise_cons.mp h
    unfold insertRow
    split_ifs with h1 h2
    · have hout : lookupRow k ((k', v') :: rs) = none := by
        refine lookupRow_eq_none fun r hr => ?_
        rcases List.mem_cons.mp hr with rfl | hr
        · exact h1.ne'
        · exact (lt_trans h1 (hhead r hr)).ne'
      rw [hout, countRows_cons]
      rfl
    · subst h2
      rw [countRows_cons, countRows_cons, lookupRow, if_pos rfl]
      omega
    · have ih := countRows_insertRow p k v htail
      rw [countRows_cons, countRows_cons, lookupRow, if_neg h2]
      omega

theorem countRows_removeRow (p : K → V → Bool) (k : K) :
    ∀ {rs : List (K × V)}, (rs.Pairwise fun a b => a.1 < b.1) →
      countRows p (removeRow k rs) + weight p k (lookupRow k rs) = countRows p rs
  | [], _ => by simp [removeRow, lookupRow, weight]
  | (k', v') :: rs, h => by
    obtain ⟨hhead, htail⟩ := List.pairwise_cons.mp h
    have ih := countRows_removeRow p k htail
    unfold removeRow
    split_ifs with h1
    · subst h1
      rw [lookupRow_eq_none fun r hr => (hhead r hr).ne'] at ih
      rw [countRows_cons, lookupRow, if_pos rfl]
      simp only [weight] at ih ⊢
      omega
    · rw [countRows_cons, countRows_cons, lookupRow, if_neg h1]
      omega

/-! ### Tables -/

namespace Table

def empty : Table K V := ⟨[], List.Pairwise.nil⟩

instance : Inhabited (Table K V) := ⟨empty⟩

def get (t : Table K V) (k : K) : Option V := lookupRow k t.rows

def insert (t : Table K V) (k : K) (v : V) : Table K V :=
  ⟨insertRow k v t.rows, sorted_insertRow k v t.sorted⟩

def remove (t : Table K V) (k : K) : Table K V := ⟨removeRow k t.rows, sorted_removeRow k t.sorted⟩

@[simp] theorem get_empty (k : K) : (empty : Table K V).get k = none := rfl

section
variable (t : Table K V)
include t

theorem get_insert (k k₁ : K) (v : V) :
    (t.insert k v).get k₁ = if k₁ = k then some v else t.get k₁ :=
  lookupRow_insertRow k k₁ v t.rows

@[simp] theorem get_insert_self (k : K) (v : V) : (t.insert k v).get k = some v := by
  rw [get_insert, if_pos rfl]

theorem get_insert_of_ne {k k₁ : K} (v : V) (h : k₁ ≠ k) : (t.insert k v).get k₁ = t.get k₁ := by
  rw [get_insert, if_neg h]

theorem get_remove (k k₁ : K) : (t.remove k).get k₁ = if k₁ = k then none else t.get k₁ :=
  lookupRow_removeRow k k₁ t.rows

@[simp] theorem get_remove_self (k : K) : (t.remove k).get k = none := by
  rw [get_remove, if_pos rfl]

theorem get_remove_of_ne {k k₁ : K} (h : k₁ ≠ k) : (t.remove k).get k₁ = t.get k₁ := by
  rw [get_remove, if_neg h]

end

theorem mem_rows {t : Table K V} {k : K} {v : V} : (k, v) ∈ t.rows ↔ t.get k = some v :=
  mem_iff_lookupRow t.sorted

theorem ext_get {s t : Table K V} (h : ∀ k, s.get k = t.get k) : s = t :=
  Table.ext (eq_of_lookupRow_eq s.sorted t.sorted h)

def count (t : Table K V) (p : K → V → Bool) : ℕ := countRows p t.rows

theorem count_insert (t : Table K V) (p : K → V → Bool) (k : K) (v : V) :
    (t.insert k v).count p + weight p k (t.get k) = t.count p + weight p k (some v) :=
  countRows_insertRow p k v t.sorted

theorem count_remove (t : Table K V) (p : K → V → Bool) (k : K) :
    (t.remove k).count p + weight p k (t.get k) = t.count p :=
  countRows_removeRow p k t.sorted

theorem count_congr {t : Table K V} {p q : K → V → Bool}
    (h : ∀ k v, t.get k = some v → p k v = q k v) : t.count p = t.count q := by
  refine List.countP_congr fun r hr => ?_
  rw [h r.1 r.2 (mem_rows.mp hr)]

/-! ### Parts of a table -/

def filter (p : K → V → Bool) (t : Table K V) : Table K V :=
  ⟨t.rows.filter fun r => p r.1 r.2, t.sorted.filter _⟩

theorem get_filter (t : Table K V) (p : K → V → Bool) (k : K) :
    (t.filter p).get k = (t.get k).filter (p k) := by
  refine Option.ext fun v => ?_
  rw [← mem_rows, Option.filter_eq_some_iff, ← mem_rows]
  exact List.mem_filter

def mapValues {W : Type*} (f : V → W) (t : Table K V) : Table K W :=
  ⟨t.rows.map fun r => (r.1, f r.2), List.pairwise_map.mpr t.sorted⟩

/-- The same keys, with the values of a function of the row. -/
def mapEntries {W : Type*} (f : K → V → W) (t : Table K V) : Table K W :=
  ⟨t.rows.map fun r => (r.1, f r.1 r.2), List.pairwise_map.mpr t.sorted⟩

theorem get_mapEntries {W : Type*} (f : K → V → W) (t : Table K V) (k : K) :
    (t.mapEntries f).get k = (t.get k).map (f k) := by
  refine Option.ext fun w => ?_
  rw [← mem_rows, Option.map_eq_some_iff]
  change (k, w) ∈ t.rows.map _ ↔ _
  rw [List.mem_map]
  constructor
  · rintro ⟨⟨k', v⟩, hr, heq⟩
    obtain ⟨rfl, rfl⟩ := Prod.mk.inj heq
    exact ⟨v, mem_rows.mp hr, rfl⟩
  · rintro ⟨v, hv, rfl⟩
    exact ⟨(k, v), mem_rows.mpr hv, rfl⟩

theorem get_mapValues {W : Type*} (f : V → W) (t : Table K V) (k : K) :
    (t.mapValues f).get k = (t.get k).map f := get_mapEntries (fun _ => f) t k

theorem count_eq_of_get {s t : Table K V} {p : K → V → Bool}
    (h : ∀ k, (s.get k).filter (p k) = (t.get k).filter (p k)) : s.count p = t.count p := by
  have hfilter : s.filter p = t.filter p := by
    refine ext_get fun k => ?_
    rw [get_filter, get_filter, h]
  unfold count countRows
  rw [List.countP_eq_length_filter, List.countP_eq_length_filter]
  exact congrArg List.length (congrArg rows hfilter)

theorem count_eq_length_keys (t : Table K V) (p : K → V → Bool) :
    t.count p = ((t.filter p).rows.map Prod.fst).length := by
  rw [List.length_map]
  exact List.countP_eq_length_filter

theorem count_le_of_get {W : Type*} {s : Table K V} {t : Table K W} {p : K → V → Bool}
    {q : K → W → Bool}
    (h : ∀ k v, s.get k = some v → p k v = true → ∃ w, t.get k = some w ∧ q k w = true) :
    s.count p ≤ t.count q := by
  rw [count_eq_length_keys, count_eq_length_keys]
  refine (List.subperm_of_subset ?_ fun k hk => ?_).length_le
  · exact List.pairwise_map.mpr ((s.filter p).sorted.imp fun hlt => hlt.ne)
  · obtain ⟨⟨k', v⟩, hr, rfl⟩ := List.mem_map.mp hk
    rw [mem_rows, get_filter, Option.filter_eq_some_iff] at hr
    obtain ⟨w, hw, hq⟩ := h k' v hr.1 hr.2
    refine List.mem_map.mpr ⟨(k', w), ?_, rfl⟩
    rw [mem_rows, get_filter, Option.filter_eq_some_iff]
    exact ⟨hw, hq⟩

theorem count_le_succ_of_get {s t : Table K V} {p q : K → V → Bool} (key : K)
    (h : ∀ k v, k ≠ key → s.get k = some v → p k v = true → ∃ w, t.get k = some w ∧ q k w = true) :
    s.count p ≤ t.count q + 1 := by
  have hremove : (s.remove key).count p ≤ t.count q := by
    refine count_le_of_get fun k v hv hp => ?_
    by_cases hk : k = key
    · subst hk
      rw [get_remove_self] at hv
      cases hv
    · rw [get_remove_of_ne s hk] at hv
      exact h k v hk hv hp
  have hcount := count_remove s p key
  have hweight : weight p key (s.get key) ≤ 1 := by
    unfold weight
    split
    · exact Nat.zero_le 1
    · split_ifs <;> omega
  omega

theorem count_eq_zero {t : Table K V} {p : K → V → Bool}
    (h : ∀ k v, t.get k = some v → p k v = false) : t.count p = 0 := by
  unfold count countRows
  rw [List.countP_eq_zero]
  intro r hr
  rw [h r.1 r.2 (mem_rows.mp hr)]
  exact Bool.false_ne_true

/-- The rows of a table whose keys are the image of a smaller key type. -/
def slice {J : Type*} [LinearOrder J] (f : J → K) (g : K → Option J)
    (hf : ∀ i j, f i < f j → i < j) (hg : ∀ k j, g k = some j → f j = k) (t : Table K V) :
    Table J V where
  rows := t.rows.filterMap fun r => (g r.1).map fun j => (j, r.2)
  sorted := by
    rw [List.pairwise_filterMap]
    refine t.sorted.imp fun {a b} hab => ?_
    intro x hx y hy
    obtain ⟨i, hi, rfl⟩ := Option.map_eq_some_iff.mp hx
    obtain ⟨j, hj, rfl⟩ := Option.map_eq_some_iff.mp hy
    exact hf i j (by rw [hg _ _ hi, hg _ _ hj]; exact hab)

section
variable {J : Type*} [LinearOrder J] {f : J → K} {g : K → Option J} (hf : ∀ i j, f i < f j → i < j)
  (hg : ∀ k j, g k = some j → f j = k)
include hf hg

theorem get_slice (hgf : ∀ j, g (f j) = some j) (t : Table K V) (j : J) :
    (t.slice f g hf hg).get j = t.get (f j) := by
  refine Option.ext fun v => ?_
  rw [← mem_rows, ← mem_rows]
  change (j, v) ∈ t.rows.filterMap _ ↔ _
  rw [List.mem_filterMap]
  constructor
  · rintro ⟨⟨k, u⟩, hr, hmap⟩
    obtain ⟨i, hi, heq⟩ := Option.map_eq_some_iff.mp hmap
    obtain ⟨rfl, rfl⟩ := Prod.mk.inj heq
    rw [hg _ _ hi]
    exact hr
  · intro hr
    exact ⟨(f j, v), hr, by rw [hgf]; rfl⟩

theorem count_slice (t : Table K V)
    (p : J → V → Bool) :
    (t.slice f g hf hg).count p = t.count fun k v => (g k).any (p · v) := by
  unfold count countRows slice
  rw [List.countP_filterMap]
  refine List.countP_congr fun r _ => ?_
  cases hr : g r.1 <;> simp [hr]

/-! ### Tables of lists -/

end

/-- The table of a list of pairs: a later pair replaces an earlier one of the same key. -/
def ofPairs (ps : List (K × V)) : Table K V := ps.foldl (fun t p => t.insert p.1 p.2) empty

theorem get_foldl_insert {k : K} {v : V} : ∀ {ps : List (K × V)} {t : Table K V},
    (ps.map Prod.fst).Nodup → ((ps.foldl (fun t p => t.insert p.1 p.2) t).get k = some v ↔
        (k, v) ∈ ps ∨ k ∉ ps.map Prod.fst ∧ t.get k = some v)
  | [], t, _ => by simp
  | (k', v') :: ps, t, h => by
    obtain ⟨hnew, hrest⟩ := List.nodup_cons.mp h
    rw [List.foldl_cons, get_foldl_insert hrest, Table.get_insert]
    by_cases hk : k = k'
    · subst hk
      have hout : (k, v) ∉ ps := fun hm => hnew (List.mem_map.mpr ⟨(k, v), hm, rfl⟩)
      simp only [List.map_cons, List.mem_cons, Prod.mk.injEq, hout, true_and, or_false, hnew,
        not_true, false_and, not_false_iff, if_true, false_or, Option.some.injEq]
      exact eq_comm
    · simp [hk]

theorem get_ofPairs {ps : List (K × V)} {k : K} {v : V} (h : (ps.map Prod.fst).Nodup) :
    (ofPairs ps).get k = some v ↔ (k, v) ∈ ps := by
  rw [ofPairs, get_foldl_insert h]
  simp

end Table

end Medulla.Library.OrderedTable
