import Medulla.Library.Checked
import Medulla.Library.OrderedTable
import Mathlib.Order.Interval.Set.Basic

/-! # The series store

A series keeps every version of every point: under one timestamp the versions stand in the order of
their arrival. Points live in chunks by bucket, and a range read scans the buckets from that of its
first timestamp to that of its last. The bucket of a timestamp is computed from its unsigned word, so
that the buckets of negative timestamps come after all others. -/

namespace Medulla.Tsdb.Store

open Library.Checked Library.OrderedTable

abbrev Ts := ℤ

variable {t : Ts}

def tsMin : Ts := -2 ^ 63

def tsMax : Ts := 2 ^ 63 - 1

def maxTsQueryPoints : ℕ := 1000000

def maxTsQueryBytes : ℕ := 256 * 1024 * 1024

def pointBytes (nFields : ℕ) : ℕ := 32 + 8 * nFields

/-- A series of points with payloads `π`: the versions of each timestamp, in arrival order. -/
structure Series (π : Type) where
  nFields : ℕ
  bucketNs : ℕ
  points : Table Ts (List π)

section
variable {π : Type}

/-- The bucket of a timestamp, by its unsigned word. -/
def bucketOf (bucketNs : ℕ) (ts : Ts) : ℕ := (ts % 2 ^ 64).toNat / bucketNs * bucketNs

def Series.versions (s : Series π) (ts : Ts) : List π := (s.points.get ts).getD []

def Series.put (s : Series π) (point : Ts × π) : Series π :=
  { s with points := s.points.insert point.1 (s.versions point.1 ++ [point.2]) }

def Series.append (s : Series π) : List (Ts × π) → Series π
  | [] => s
  | point :: rest => (s.put point).append rest

def Series.timestamps (s : Series π) : List Ts := s.points.rows.map Prod.fst

/-- The buckets that a read of `[from, to)` covers, if the series has points there. -/
def rangeBucketBounds (s : Series π) (start stop : Ts) : Option (ℕ × ℕ) :=
  match s.timestamps.head?, s.timestamps.getLast? with
  | some minTs, some maxTs =>
    let scanFrom := max start minTs
    if maxTs < scanFrom ∨ stop ≤ minTs then none
    else some (bucketOf s.bucketNs scanFrom, bucketOf s.bucketNs (min (stop - 1) maxTs))
  | _, _ => none

def window (s : Series π) (start stop : Ts) (buckets : ℕ × ℕ) : List (Ts × π) :=
  (s.points.rows.filter fun row =>
    (buckets.1 ≤ bucketOf s.bucketNs row.1 && bucketOf s.bucketNs row.1 ≤ buckets.2) &&
      (start ≤ row.1 && row.1 < stop)).flatMap fun row => row.2.map fun p => (row.1, p)

def pointsBetween (s : Series π) (start stop : Ts) : List (Ts × π) :=
  if stop ≤ start then []
  else
    match rangeBucketBounds s start stop with
    | none => []
    | some buckets => window s start stop buckets

def readFits (s : Series π) (start : Ts) : Bool :=
  (pointsBetween s start tsMax).length ≤ maxTsQueryPoints &&
    (pointsBetween s start tsMax).length * pointBytes s.nFields ≤ maxTsQueryBytes

/-- **Read a series** from a timestamp on. -/
def range (s : Series π) (start : Ts) : Except String (List (Ts × π)) := do
  rejectIf (readFits s start = false) "time-series response exceeds the limit"
  return pointsBetween s start tsMax

def latestVersions (points : List (Ts × π)) : Table Ts π :=
  points.foldl (fun latest point => latest.insert point.1 point.2) .empty

def Series.latest (s : Series π) : Table Ts π :=
  latestVersions (s.points.rows.flatMap fun row => row.2.map fun p => (row.1, p))

/-! ### Latest versions -/

def lastAt (t : Ts) : List (Ts × π) → Option π
  | [] => none
  | point :: rest => (lastAt t rest).or (if t = point.1 then some point.2 else none)

theorem lastAt_append (t : Ts) : ∀ (points rest : List (Ts × π)),
    lastAt t (points ++ rest) = (lastAt t rest).or (lastAt t points)
  | [], rest => by simp [lastAt]
  | point :: points, rest => by
    rw [List.cons_append, lastAt, lastAt_append t points rest, lastAt, Option.or_assoc]

theorem lastAt_versions (t t' : Ts) : ∀ (versions : List π),
    lastAt t (versions.map fun p => (t', p)) = if t = t' then versions.getLast? else none
  | [] => by simp [lastAt]
  | p :: versions => by
    rw [List.map_cons, lastAt, lastAt_versions t t' versions]
    split_ifs with ht
    · cases versions with
      | nil => rfl
      | cons q others => rw [List.getLast?_cons_cons, List.getLast?_cons, Option.some_or]
    · rfl

theorem lastAt_eq_none : ∀ {points : List (Ts × π)},
    (∀ point ∈ points, point.1 ≠ t) → lastAt t points = none
  | [], _ => rfl
  | point :: points, h => by
    have hpoint : t ≠ point.1 := (h point (.head _)).symm
    rw [lastAt, lastAt_eq_none fun q hq => h q (List.mem_cons_of_mem _ hq), if_neg hpoint]
    rfl

theorem get_foldl_latest (t : Ts) : ∀ (points : List (Ts × π)) (latest : Table Ts π),
    (points.foldl (fun latest point => latest.insert point.1 point.2) latest).get t =
      (lastAt t points).or (latest.get t)
  | [], latest => by simp [lastAt]
  | point :: rest, latest => by
    rw [List.foldl_cons, get_foldl_latest t rest, Table.get_insert, lastAt, Option.or_assoc]
    split_ifs <;> rfl

theorem get_latestVersions (points : List (Ts × π)) (t : Ts) :
    (latestVersions points).get t = lastAt t points := by
  unfold latestVersions
  rw [get_foldl_latest]
  simp

theorem lastAt_rows : ∀ {rows : List (Ts × List π)}, (rows.Pairwise fun a b => a.1 < b.1) →
      lastAt t (rows.flatMap fun row => row.2.map fun p => (row.1, p)) =
        ((lookupRow t rows).getD []).getLast?
  | [], _ => rfl
  | row :: rows, h => by
    obtain ⟨hfirst, hrest⟩ := List.pairwise_cons.mp h
    rw [List.flatMap_cons, lastAt_append, lastAt_rows hrest, lastAt_versions, lookupRow]
    by_cases ht : row.1 = t
    · have hnone : lookupRow t rows = none := lookupRow_eq_none fun r hr => ht ▸ (hfirst r hr).ne'
      rw [if_pos ht, if_pos ht.symm, hnone]
      rfl
    · rw [if_neg ht, if_neg fun h => ht h.symm, Option.or_none]

theorem get_latest (s : Series π) (t : Ts) : s.latest.get t = (s.versions t).getLast? := by
  unfold Series.latest
  rw [get_latestVersions, lastAt_rows s.points.sorted]
  rfl

theorem versions_put (s : Series π) (point : Ts × π) (t : Ts) : (s.put point).versions t =
      if t = point.1 then s.versions point.1 ++ [point.2] else s.versions t := by
  unfold Series.versions Series.put
  rw [Table.get_insert]
  split_ifs with ht
  · simp [Series.versions]
  · rfl

/-- **What an append leaves at a timestamp**: the last of the appended points there, or else what was
there. -/
theorem get_latest_append (t : Ts) : ∀ (points : List (Ts × π)) (s : Series π),
    (s.append points).latest.get t = (lastAt t points).or (s.latest.get t)
  | [], s => by simp [Series.append, lastAt]
  | point :: rest, s => by
    rw [Series.append, get_latest_append t rest, get_latest (s.put point), versions_put, lastAt,
      Option.or_assoc]
    split_ifs with ht
    · simp
    · rw [get_latest]
      rfl

/-! ### Reads -/

structure Readable (s : Series π) : Prop where
  word : ∀ t ∈ s.timestamps, tsMin ≤ t ∧ t < tsMax
  oneSign : (∀ t ∈ s.timestamps, 0 ≤ t) ∨ ∀ t ∈ s.timestamps, t < 0

theorem mem_timestamps {s : Series π} : t ∈ s.timestamps ↔ s.points.get t ≠ none := by
  unfold Series.timestamps
  rw [List.mem_map, Option.ne_none_iff_exists']
  constructor
  · rintro ⟨⟨t', versions⟩, hrow, rfl⟩
    exact ⟨versions, Table.mem_rows.mp hrow⟩
  · rintro ⟨versions, hget⟩
    exact ⟨(t, versions), Table.mem_rows.mpr hget, rfl⟩

theorem mem_timestamps_append : ∀ {points : List (Ts × π)} {s : Series π},
    t ∈ (s.append points).timestamps ↔ t ∈ s.timestamps ∨ t ∈ points.map Prod.fst
  | [], s => by simp [Series.append]
  | point :: rest, s => by
    have hput : t ∈ (s.put point).timestamps ↔ t ∈ s.timestamps ∨ t = point.1 := by
      rw [mem_timestamps, mem_timestamps, Series.put, Table.get_insert]
      split_ifs with ht <;> simp [ht]
    rw [Series.append, mem_timestamps_append, hput, List.map_cons, List.mem_cons, or_assoc]

theorem mem_timestamps_of_latest {s : Series π} (h : s.latest.get t ≠ none) : t ∈ s.timestamps := by
  rw [mem_timestamps]
  intro hnone
  refine h ?_
  rw [get_latest, Series.versions, hnone]
  rfl

theorem toNat_word_mono {a b : ℤ} (h : a ≤ b) (hmin : -2 ^ 63 ≤ a) (hmax : b ≤ 2 ^ 63 - 1)
    (hsign : 0 ≤ a ∨ b < 0) : (a % 2 ^ 64).toNat ≤ (b % 2 ^ 64).toNat := by
  omega

theorem bucketOf_mono (bucketNs : ℕ) {t' : Ts} (h : t ≤ t') (hmin : tsMin ≤ t) (hmax : t' ≤ tsMax)
    (hsign : 0 ≤ t ∨ t' < 0) : bucketOf bucketNs t ≤ bucketOf bucketNs t' :=
  Nat.mul_le_mul_right _ (Nat.div_le_div_right (toNat_word_mono h hmin hmax hsign))

theorem bounds_of_sorted : ∀ {ts : List Ts} {first last t : Ts}, ts.Pairwise (· < ·) →
    ts.head? = some first → ts.getLast? = some last → t ∈ ts → first ≤ t ∧ t ≤ last
  | a :: rest, first, last, t, hsorted, hhead, hlast, ht => by
    obtain rfl : a = first := by simpa using hhead
    obtain ⟨hfirst, hrest⟩ := List.pairwise_cons.mp hsorted
    have hle : ∀ x ∈ a :: rest, a ≤ x := fun x hx => by
      rcases List.mem_cons.mp hx with rfl | hx
      · exact le_rfl
      · exact (hfirst x hx).le
    refine ⟨hle t ht, ?_⟩
    cases rest with
    | nil =>
      obtain rfl : a = last := by simpa using hlast
      rw [List.mem_singleton.mp ht]
    | cons b others =>
      rcases List.mem_cons.mp ht with rfl | ht
      · exact hle last (.tail _ (List.mem_of_getLast? hlast))
      · exact (@bounds_of_sorted (b :: others) b last t hrest rfl hlast ht).2

theorem sorted_timestamps (s : Series π) : s.timestamps.Pairwise (· < ·) :=
  List.pairwise_map.mpr s.points.sorted

theorem lastAt_filter_rows (s : Series π) (start t : Ts) :
    lastAt t ((s.points.rows.filter fun row => start ≤ row.1).flatMap fun row =>
      row.2.map fun p => (row.1, p)) = (s.latest.filter fun t _ => start ≤ t).get t := by
  have hrows : s.points.rows.filter (fun row => start ≤ row.1) =
      (s.points.filter fun t _ => start ≤ t).rows := rfl
  rw [hrows, lastAt_rows (Table.sorted _), Table.get_filter, get_latest]
  change (((s.points.filter _).get t).getD []).getLast? = _
  rw [Table.get_filter, Series.versions]
  by_cases ht : start ≤ t
  · cases s.points.get t with
    | none => rfl
    | some versions => cases hlast : versions.getLast? <;> simp [Option.filter, ht, hlast]
  · cases s.points.get t <;> simp [ht]

/-- **A read of a readable series** returns every point from its start on. -/
theorem latestVersions_pointsBetween {s : Series π} (h : Readable s) (start : Ts) :
    latestVersions (pointsBetween s start tsMax) = s.latest.filter fun t _ => start ≤ t := by
  refine Table.ext_get fun t => ?_
  have hnone : (∀ t ∈ s.timestamps, ¬ start ≤ t) → (s.latest.filter fun t _ => start ≤ t).get t = none :=
    by
      intro hbefore
      rw [Table.get_filter]
      cases hget : s.latest.get t with
      | none => rfl
      | some p =>
        have hmem : t ∈ s.timestamps := mem_timestamps_of_latest (by rw [hget]; exact nofun)
        simp [hbefore t hmem]
  rw [get_latestVersions]
  unfold pointsBetween
  by_cases hstart : tsMax ≤ start
  · rw [if_pos hstart, hnone fun t ht hle => absurd (h.word t ht).2 (not_lt.mpr (hstart.trans hle))]
    rfl
  rw [if_neg hstart]
  unfold rangeBucketBounds
  cases hhead : s.timestamps.head? with
  | none =>
    have hempty : s.timestamps = [] := by simpa using hhead
    rw [hnone fun t ht => by simp [hempty] at ht]
    rfl
  | some minTs =>
    cases hlast : s.timestamps.getLast? with
    | none =>
      have hempty : s.timestamps = [] := by simpa using hlast
      simp [hempty] at hhead
    | some maxTs =>
      have hbounds : ∀ t ∈ s.timestamps, minTs ≤ t ∧ t ≤ maxTs := fun t ht =>
        bounds_of_sorted (sorted_timestamps s) hhead hlast ht
      have hmin : minTs ∈ s.timestamps := List.mem_of_head? hhead
      have hmax : maxTs ∈ s.timestamps := List.mem_of_getLast? hlast
      dsimp only
      split_ifs with hout
      · rw [hnone fun t ht hle => ?_]
        · rfl
        · rcases hout with hout | hout
          · exact absurd (max_le hle (hbounds t ht).1) (not_le.mpr ((hbounds t ht).2.trans_lt hout))
          · exact absurd (h.word minTs hmin).2 (not_lt.mpr hout)
      · -- the buckets of a readable series are in the order of its timestamps
        rw [← lastAt_filter_rows]
        refine congrArg (lastAt t) (congrArg (List.flatMap _) (List.filter_congr fun row hrow => ?_))
        have hmem : row.1 ∈ s.timestamps := List.mem_map_of_mem hrow
        obtain ⟨hword, hlt⟩ := h.word row.1 hmem
        by_cases hle : start ≤ row.1
        · have hlow : bucketOf s.bucketNs (max start minTs) ≤ bucketOf s.bucketNs row.1 := by
            refine bucketOf_mono _ (max_le hle (hbounds _ hmem).1)
              ((h.word minTs hmin).1.trans (le_max_right _ _)) hlt.le ?_
            rcases h.oneSign with hpos | hneg
            · exact .inl ((hpos minTs hmin).trans (le_max_right _ _))
            · exact .inr (hneg _ hmem)
          have hhigh : bucketOf s.bucketNs row.1 ≤ bucketOf s.bucketNs (min (tsMax - 1) maxTs) := by
            refine bucketOf_mono _ (le_min (Int.le_sub_one_of_lt hlt) (hbounds _ hmem).2) hword
              ((min_le_right _ _).trans (h.word maxTs hmax).2.le) ?_
            rcases h.oneSign with hpos | hneg
            · exact .inl (hpos _ hmem)
            · exact .inr ((min_le_right _ _).trans_lt (hneg maxTs hmax))
          simp [hlow, hhigh, hlt]
        · simp [hle]

end

end Medulla.Tsdb.Store
