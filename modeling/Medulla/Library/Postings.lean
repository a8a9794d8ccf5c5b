import Medulla.Library.OrderedSet

/-! # Postings

An inverted index: under each key stands the ordered set of the ids filed there. What an index says is
its listing, which ids stand under which keys; a key without an entry and a key with an empty one say
the same. -/

namespace Medulla.Library.Postings

open OrderedTable OrderedSet

abbrev Index (K I : Type*) [LinearOrder K] [LinearOrder I] := Table K (KeySet I)

section Operations

variable {K I : Type*} [LinearOrder K] [LinearOrder I]

/-! ### Operations -/

def posting (x : Index K I) (k : K) : KeySet I := (x.get k).getD Table.empty

def file (i : I) (x : Index K I) (k : K) : Index K I := x.insert k (add (posting x k) i)

/-- Take an id out of the posting of a key, if there is one. -/
def unfile (i : I) (x : Index K I) (k : K) : Index K I :=
  match x.get k with
  | some ids => x.insert k (ids.remove i)
  | none => x

def sweep (i : I) (x : Index K I) : Index K I := x.mapValues fun ids => ids.remove i

/-- The id stands under the key. -/
def listed (x : Index K I) (k : K) (i : I) : Bool := has (posting x k) i

variable {x y : Index K I} {k k₁ : K} {i j : I}

theorem posting_file : posting (file i x k) k₁ = if k₁ = k then add (posting x k) i else posting x k₁ := by
  unfold posting file
  rw [Table.get_insert]
  by_cases h : k₁ = k
  · rw [if_pos h, if_pos h]
    rfl
  · rw [if_neg h, if_neg h]

theorem posting_unfile :
    posting (unfile i x k) k₁ = if k₁ = k then (posting x k).remove i else posting x k₁ := by
  unfold posting unfile
  cases hx : x.get k with
  | some ids =>
    simp only [Table.get_insert, Option.getD_some]
    by_cases h : k₁ = k
    · rw [if_pos h, if_pos h, Option.getD_some]
    · rw [if_neg h, if_neg h]
  | none =>
    by_cases h : k₁ = k
    · subst h
      rw [if_pos rfl]
      simp only [hx, Option.getD_none]
      exact Table.ext_get fun j => by rw [Table.get_remove, Table.get_empty, ite_self]
    · rw [if_neg h]

theorem posting_sweep : posting (sweep i x) k = (posting x k).remove i := by
  unfold posting sweep
  rw [Table.get_mapValues]
  cases x.get k with
  | some ids => rfl
  | none => exact Table.ext_get fun j => by simp [Table.get_remove]

theorem listed_file : listed (file i x k) k₁ j = (listed x k₁ j || decide (j = i ∧ k₁ = k)) := by
  unfold listed
  rw [posting_file, Bool.eq_iff_iff, Bool.or_eq_true, decide_eq_true_iff]
  by_cases h : k₁ = k
  · subst h
    rw [if_pos rfl, has_add]
    tauto
  · rw [if_neg h]
    tauto

theorem listed_unfile : listed (unfile i x k) k₁ j = (listed x k₁ j && !decide (j = i ∧ k₁ = k)) := by
  unfold listed
  rw [posting_unfile, Bool.eq_iff_iff, Bool.and_eq_true, Bool.not_eq_true', decide_eq_false_iff_not]
  by_cases h : k₁ = k
  · subst h
    rw [if_pos rfl, has_remove]
    tauto
  · rw [if_neg h]
    tauto

theorem listed_sweep : listed (sweep i x) k j = (listed x k j && !decide (j = i)) := by
  unfold listed
  rw [posting_sweep, Bool.eq_iff_iff, Bool.and_eq_true, Bool.not_eq_true', decide_eq_false_iff_not,
    has_remove]
  tauto

theorem listed_foldl_file : ∀ {ks : List K} {x : Index K I},
    listed (ks.foldl (file i) x) k j = (listed x k j || decide (j = i ∧ k ∈ ks))
  | [], x => by simp
  | k' :: ks, x => by
    rw [List.foldl_cons, listed_foldl_file, listed_file, Bool.or_assoc]
    congr 1
    rw [Bool.eq_iff_iff, Bool.or_eq_true]
    simp only [decide_eq_true_iff, List.mem_cons]
    tauto

theorem listed_foldl_unfile : ∀ {ks : List K} {x : Index K I},
    listed (ks.foldl (unfile i) x) k j = (listed x k j && !decide (j = i ∧ k ∈ ks))
  | [], x => by simp
  | k' :: ks, x => by
    rw [List.foldl_cons, listed_foldl_unfile, listed_unfile, Bool.and_assoc]
    congr 1
    rw [Bool.eq_iff_iff, Bool.and_eq_true]
    simp only [Bool.not_eq_true', decide_eq_false_iff_not, List.mem_cons]
    tauto

def build {V : Type*} (keys : V → List K) (t : Table I V) : Index K I :=
  t.rows.foldl (fun x r => (keys r.2).foldl (file r.1) x) Table.empty

theorem listed_foldl_build {V : Type*} {keys : V → List K} : ∀ {rs : List (I × V)} {x : Index K I},
    listed (rs.foldl (fun x r => (keys r.2).foldl (file r.1) x) x) k i = true ↔
      listed x k i = true ∨ ∃ v, (i, v) ∈ rs ∧ k ∈ keys v
  | [], x => by simp
  | (j, w) :: rs, x => by
    rw [List.foldl_cons, listed_foldl_build, listed_foldl_file, Bool.or_eq_true, decide_eq_true_iff,
      or_assoc]
    refine or_congr_right ⟨?_, ?_⟩
    · rintro (⟨rfl, hk⟩ | ⟨v, hv, hk⟩)
      · exact ⟨w, .head _, hk⟩
      · exact ⟨v, .tail _ hv, hk⟩
    · rintro ⟨v, hv, hk⟩
      rcases List.mem_cons.mp hv with hv | hv
      · obtain ⟨rfl, rfl⟩ := Prod.mk.inj hv
        exact Or.inl ⟨rfl, hk⟩
      · exact Or.inr ⟨v, hv, hk⟩

theorem listed_build {V : Type*} {keys : V → List K} {t : Table I V} :
    listed (build keys t) k i = (t.get i).any fun v => decide (k ∈ keys v) := by
  rw [Bool.eq_iff_iff, build, listed_foldl_build, Option.any_eq_true]
  constructor
  · rintro (h | ⟨v, hv, hk⟩)
    · exact absurd h (by simp [listed, posting])
    · exact ⟨v, Table.mem_rows.mp hv, decide_eq_true hk⟩
  · rintro ⟨v, hv, hk⟩
    exact Or.inr ⟨v, Table.mem_rows.mpr hv, of_decide_eq_true hk⟩

theorem posting_eq_of_listed (h : ∀ i, listed x k i = listed y k i) : posting x k = posting y k :=
  ext_has fun i => Bool.eq_iff_iff.mp (h i)

/-! ### Indexes without empty postings -/

/-- Take an id out of the posting of a key, and drop a posting that is left empty. -/
def withdraw (i : I) (x : Index K I) (k : K) : Index K I :=
  match x.get k with
  | some ids => if (ids.remove i).rows.isEmpty then x.remove k else x.insert k (ids.remove i)
  | none => x

theorem eq_empty_of_isEmpty {ids : KeySet I} (h : ids.rows.isEmpty = true) : ids = Table.empty :=
  Table.ext (List.isEmpty_iff.mp h)

theorem posting_withdraw : posting (withdraw i x k) k₁ = posting (unfile i x k) k₁ := by
  unfold posting withdraw unfile
  cases hx : x.get k with
  | none => rfl
  | some ids =>
    simp only
    split_ifs with hempty
    · rw [Table.get_remove, Table.get_insert]
      by_cases h : k₁ = k
      · rw [if_pos h, if_pos h, eq_empty_of_isEmpty hempty]
        rfl
      · rw [if_neg h, if_neg h]
    · rfl

theorem listed_withdraw :
    listed (withdraw i x k) k₁ j = (listed x k₁ j && !decide (j = i ∧ k₁ = k)) := by
  rw [← listed_unfile, listed, listed, posting_withdraw]

theorem listed_foldl_withdraw : ∀ {ks : List K} {x : Index K I},
    listed (ks.foldl (withdraw i) x) k j = (listed x k j && !decide (j = i ∧ k ∈ ks))
  | [], x => by simp
  | k' :: ks, x => by
    rw [List.foldl_cons, listed_foldl_withdraw, listed_withdraw, Bool.and_assoc]
    congr 1
    rw [Bool.eq_iff_iff, Bool.and_eq_true]
    simp only [Bool.not_eq_true', decide_eq_false_iff_not, List.mem_cons]
    tauto

def Trim (x : Index K I) : Prop := ∀ k ids, x.get k = some ids → ∃ i, has ids i = true

theorem trim_empty : Trim (Table.empty : Index K I) := by
  intro k ids h
  cases h

theorem Trim.file (h : Trim x) : Trim (file i x k) := by
  intro k' ids hids
  unfold Postings.file at hids
  rw [Table.get_insert] at hids
  split_ifs at hids with hk
  · obtain rfl := Option.some.inj hids
    exact ⟨i, has_add.mpr (Or.inl rfl)⟩
  · exact h k' ids hids

theorem exists_has_of_not_isEmpty {ids : KeySet I} (h : ¬ ids.rows.isEmpty = true) :
    ∃ i, has ids i = true := by
  have hne : ids.rows ≠ [] := fun hnil => h (List.isEmpty_iff.mpr hnil)
  obtain ⟨⟨i, u⟩, hr⟩ := List.exists_mem_of_ne_nil _ hne
  exact ⟨i, has_iff.mpr (Table.mem_rows.mp hr)⟩

theorem Trim.withdraw (h : Trim x) : Trim (withdraw i x k) := by
  intro k' ids hids
  unfold Postings.withdraw at hids
  cases hx : x.get k with
  | none =>
    rw [hx] at hids
    exact h k' ids hids
  | some old =>
    simp only [hx] at hids
    split_ifs at hids with hempty
    · rw [Table.get_remove] at hids
      split_ifs at hids
      exact h k' ids hids
    · rw [Table.get_insert] at hids
      split_ifs at hids
      · obtain rfl := Option.some.inj hids
        exact exists_has_of_not_isEmpty hempty
      · exact h k' ids hids

theorem Trim.foldl_file : ∀ {ks : List K} {x : Index K I}, Trim x → Trim (ks.foldl (Postings.file i) x)
  | [], _, h => h
  | k :: _, x, h => @Trim.foldl_file _ (Postings.file i x k) h.file

theorem Trim.foldl_withdraw : ∀ {ks : List K} {x : Index K I}, Trim x →
    Trim (ks.foldl (Postings.withdraw i) x)
  | [], _, h => h
  | k :: _, x, h => @Trim.foldl_withdraw _ (Postings.withdraw i x k) h.withdraw

theorem trim_foldl_build {V : Type*} {keys : V → List K} : ∀ {rs : List (I × V)} {x : Index K I},
    Trim x → Trim (rs.foldl (fun x r => (keys r.2).foldl (file r.1) x) x)
  | [], _, h => h
  | r :: _, x, h => @trim_foldl_build _ keys _ ((keys r.2).foldl (file r.1) x) h.foldl_file

theorem trim_build {V : Type*} {keys : V → List K} {t : Table I V} : Trim (build keys t) :=
  trim_foldl_build trim_empty

/-- **Without empty postings the listing is the index.** -/
theorem Trim.eq_of_listed (hx : Trim x) (hy : Trim y)
    (h : ∀ k i, listed x k i = listed y k i) : x = y := by
  refine Table.ext_get fun k => ?_
  have hpost := posting_eq_of_listed (h k)
  unfold posting at hpost
  cases hxk : x.get k with
  | some ids =>
    cases hyk : y.get k with
    | some ids' =>
      rw [hxk, hyk] at hpost
      exact congrArg some hpost
    | none =>
      rw [hxk, hyk] at hpost
      obtain ⟨i, hi⟩ := hx k ids hxk
      rw [show ids = Table.empty from hpost] at hi
      cases hi
  | none =>
    cases hyk : y.get k with
    | some ids' =>
      rw [hxk, hyk] at hpost
      obtain ⟨i, hi⟩ := hy k ids' hyk
      rw [← show Table.empty = ids' from hpost] at hi
      cases hi
    | none => rfl

end Operations

/-! ### Listings -/

/-- Which ids stand under which keys. -/
abbrev Listing (K I : Type*) := I → K → Bool

def listing {K I : Type*} [LinearOrder K] [LinearOrder I] (x : Option (Index K I)) :
    Option (Listing K I) := x.map fun x i k => listed x k i

structure Refiling (K I : Type*) where
  id : I
  erased : K → Bool
  filed : K → Bool

namespace Refiling

variable {K I : Type*} [LinearOrder I] {i : I}

def erase (i : I) (erased : K → Bool) : Refiling K I := ⟨i, erased, fun _ => false⟩

def put (i : I) (filed : K → Bool) : Refiling K I := ⟨i, fun _ => false, filed⟩

/-- What a refiling does to the keys its own id stands under. -/
def onKeys (r : Refiling K I) (b : K → Bool) : K → Bool := fun k => (b k && !r.erased k) || r.filed k

def apply (r : Refiling K I) (L : Listing K I) : Listing K I :=
  fun i => if i = r.id then r.onKeys (L i) else L i

theorem apply_put_erase {erased filed : K → Bool} {L : Listing K I} :
    (put i filed).apply ((erase i erased).apply L) = apply ⟨i, erased, filed⟩ L := by
  funext j k
  unfold apply onKeys put erase
  by_cases h : j = i
  · simp [h]
  · simp [h]

end Refiling

section Listings

variable {K I : Type*} [LinearOrder K] [LinearOrder I] {x : Option (Index K I)} {i : I} {ks : List K}

theorem listing_file :
    listing (x.map (ks.foldl (file i))) = (listing x).map (Refiling.put i (decide <| · ∈ ks)).apply := by
  cases x with
  | none => rfl
  | some x =>
    refine congrArg some (funext fun j => funext fun k => ?_)
    dsimp only
    rw [listed_foldl_file, Refiling.apply]
    by_cases h : j = i
    · simp [Refiling.put, Refiling.onKeys, h]
    · simp [Refiling.put, h]

theorem listing_unfile : listing (x.map (ks.foldl (unfile i))) =
      (listing x).map (Refiling.erase i (decide <| · ∈ ks)).apply := by
  cases x with
  | none => rfl
  | some x =>
    refine congrArg some (funext fun j => funext fun k => ?_)
    dsimp only
    rw [listed_foldl_unfile, Refiling.apply]
    by_cases h : j = i
    · simp [Refiling.erase, Refiling.onKeys, h]
    · simp [Refiling.erase, h]

theorem listing_sweep :
    listing (x.map (sweep i)) = (listing x).map (Refiling.erase i fun _ => true).apply := by
  cases x with
  | none => rfl
  | some x =>
    refine congrArg some (funext fun j => funext fun k => ?_)
    dsimp only
    rw [listed_sweep, Refiling.apply]
    by_cases h : j = i
    · simp [Refiling.erase, Refiling.onKeys, h]
    · simp [Refiling.erase, h]

end Listings

variable {K I : Type*} [LinearOrder I] {i : I}

/-- One maintenance step: refile an id, or drop the index. -/
def maintain (L : Option (Listing K I)) : Option (Refiling K I) → Option (Listing K I)
  | some r => L.map r.apply
  | none => none

def replay (L : Option (Listing K I)) (rs : List (Option (Refiling K I))) : Option (Listing K I) :=
  rs.foldl maintain L

/-- What a step does to the keys of one id while the index survives. -/
def maintainOne (i : I) (b : K → Bool) : Option (Refiling K I) → K → Bool
  | some r => if r.id = i then r.onKeys b else b
  | none => b

def replayOne (i : I) (b : K → Bool) (rs : List (Option (Refiling K I))) : K → Bool :=
  rs.foldl (maintainOne i) b

theorem replay_append {L : Option (Listing K I)} {rs ts : List (Option (Refiling K I))} :
    replay L (rs ++ ts) = replay (replay L rs) ts := List.foldl_append ..

theorem replayOne_append {b : K → Bool} {rs ts : List (Option (Refiling K I))} :
    replayOne i b (rs ++ ts) = replayOne i (replayOne i b rs) ts := List.foldl_append ..

theorem replay_none : ∀ rs : List (Option (Refiling K I)), replay none rs = none
  | [] => rfl
  | some _ :: rs => replay_none rs
  | none :: rs => replay_none rs

/-- **A replay works one id at a time.** If the index survives, no step dropped it, and each id ends
where its own refilings put it. -/
theorem replay_eq_some : ∀ {rs : List (Option (Refiling K I))} {L : Option (Listing K I)}
    {L' : Listing K I}, replay L rs = some L' →
      none ∉ rs ∧ ∃ L₀, L = some L₀ ∧ ∀ i, L' i = replayOne i (L₀ i) rs
  | [], L, L', h => ⟨by simp, L', h, fun _ => rfl⟩
  | none :: rs, L, L', h => by
    rw [replay, List.foldl_cons, ← replay, maintain, replay_none] at h
    cases h
  | some r :: rs, L, L', h => by
    rw [replay, List.foldl_cons] at h
    obtain ⟨hrs, L₁, hL₁, hone⟩ := replay_eq_some h
    obtain ⟨L₀, hL₀, rfl⟩ := Option.map_eq_some_iff.mp hL₁
    refine ⟨by simpa using hrs, L₀, hL₀, fun i => ?_⟩
    have hstep : maintainOne i (L₀ i) (some r) = r.apply L₀ i := by
      unfold maintainOne Refiling.apply
      by_cases hi : i = r.id
      · simp only [if_pos hi, if_pos hi.symm]
      · simp only [if_neg hi, if_neg (Ne.symm hi)]
    rw [hone i, replayOne, replayOne, List.foldl_cons, hstep]

end Medulla.Library.Postings
