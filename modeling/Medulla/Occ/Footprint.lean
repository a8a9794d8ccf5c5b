import Mathlib.Data.List.Sort
import Mathlib.Data.Prod.Lex
import Medulla.Library.Strings
import Mathlib.Algebra.GroupWithZero.Nat

/-! # Transaction footprints

A transaction records the key ranges that it read and wrote. At its commit the footprint is compared
with the writes of every commit after its snapshot, and each of its ranges that one of them touched is
a conflict.

## Main results

- `validate_eq_ok`, `validate_eq_error`: what validation accepts, and what it reports.
- `disjoint_iff_unaffected`: disjoint footprints are those that never affect each other. -/

namespace Medulla.Occ.Footprint

/-! ### Ranges -/

/-- A byte of a key. -/
abbrev Byte := Fin 256

instance neZero_byte : NeZero 256 := ⟨by decide⟩

/-- A key within a table. -/
abbrev Bytes := List Byte

/-- A half-open range of the keys of one table. -/
structure KeyRange where
  table : String
  start : Bytes
  stop : Bytes
  deriving DecidableEq

namespace KeyRange

variable {range other : KeyRange}

/-- The range that holds one key. -/
def point (table : String) (key : Bytes) : KeyRange := ⟨table, key, key ++ [0]⟩

/-- Whether two ranges meet, as the half-open test of the bounds says it. -/
def overlaps (range other : KeyRange) : Bool :=
  range.table = other.table ∧ range.start < other.stop ∧ other.start < range.stop

/-- The derived order of ranges: by table, then by start, then by end. -/
def rank (range : KeyRange) : String ×ₗ Bytes ×ₗ Bytes :=
  toLex (range.table, toLex (range.start, range.stop))

/-- The range holds the key. -/
def Covers (range : KeyRange) (key : String × Bytes) : Prop :=
  range.table = key.1 ∧ range.start ≤ key.2 ∧ key.2 < range.stop

/-- The range holds some key. -/
def Nonempty (range : KeyRange) : Prop := range.start < range.stop

theorem rank_injective : Function.Injective rank := by
  rintro ⟨table, start, stop⟩ ⟨table', start', stop'⟩ h
  have hpair : (table, toLex (start, stop)) = (table', toLex (start', stop')) := toLex.injective h
  obtain ⟨htable, hbounds⟩ := Prod.mk.inj hpair
  obtain ⟨hstart, hstop⟩ := Prod.mk.inj (toLex.injective hbounds)
  rw [htable, hstart, hstop]

theorem overlaps_eq_true : range.overlaps other = true ↔
    range.table = other.table ∧ range.start < other.stop ∧ other.start < range.stop :=
  decide_eq_true_iff

theorem overlaps_of_covers {key : String × Bytes} (h : range.Covers key)
    (h' : other.Covers key) : range.overlaps other = true :=
  overlaps_eq_true.mpr ⟨h.1.trans h'.1.symm, h.2.1.trans_lt h'.2.2, h'.2.1.trans_lt h.2.2⟩

/-- **Ranges that have keys overlap exactly when they share one**: the greater of the two starts. -/
theorem overlaps_iff_shares (hrange : range.Nonempty)
    (hother : other.Nonempty) :
    range.overlaps other = true ↔ ∃ key, range.Covers key ∧ other.Covers key := by
  constructor
  · intro h
    obtain ⟨htable, hstart, hstart'⟩ := overlaps_eq_true.mp h
    refine ⟨(range.table, max range.start other.start), ⟨rfl, le_max_left _ _, ?_⟩,
      ⟨htable.symm, le_max_right _ _, ?_⟩⟩
    · exact max_lt hrange hstart'
    · exact max_lt hstart hother
  · rintro ⟨key, h, h'⟩
    exact overlaps_of_covers h h'

end KeyRange

/-! ### Footprints -/

variable {key : KeyRange}

/-- The largest sequence number. -/
def u64Max : ℕ := 2 ^ 64 - 1

/-- What a transaction read and wrote, and the last commit that it saw. -/
structure TxnFootprint where
  snapshotSeq : ℕ
  reads : List KeyRange
  writes : List KeyRange

variable {footprint : TxnFootprint}

/-- The writes of one commit. -/
structure CommittedWrites where
  commitSeq : ℕ
  writes : List KeyRange

variable {committed : List CommittedWrites}

/-- The refusal of a footprint, with the ranges that were changed under it. -/
structure TxnConflict where
  keys : List KeyRange
  deriving DecidableEq

/-- The ranges read, then those written. -/
def touched (footprint : TxnFootprint) : List KeyRange := footprint.reads ++ footprint.writes

/-- The commit wrote into the range. -/
def CommittedWrites.hits (commit : CommittedWrites) (key : KeyRange) : Bool :=
  commit.writes.any fun w => w.overlaps key

/-- Add to the noted ranges those that the commit hits, each of them once. -/
def noteCommit (commit : CommittedWrites) : List KeyRange → List KeyRange → List KeyRange
  | [], keys => keys
  | key :: rest, keys =>
    noteCommit commit rest (if commit.hits key && !keys.contains key then keys ++ [key] else keys)

/-- Note one commit after the other. -/
def noteCommits (ranges : List KeyRange) : List CommittedWrites → List KeyRange → List KeyRange
  | [], keys => keys
  | commit :: rest, keys => noteCommits ranges rest (noteCommit commit ranges keys)

/-- The commits later than the snapshot. -/
def after (snapshotSeq : ℕ) (committed : List CommittedWrites) : List CommittedWrites :=
  committed.filter fun commit => snapshotSeq < commit.commitSeq

/-- The reported ranges, sorted. -/
def sortKeys (keys : List KeyRange) : List KeyRange :=
  keys.insertionSort fun a b => a.rank ≤ b.rank

/-- **Validate a footprint** against the commits: refuse with every range that one after the snapshot
wrote into. -/
def TxnFootprint.validate (footprint : TxnFootprint) (committed : List CommittedWrites) :
    Except TxnConflict Unit :=
  let keys := noteCommits (touched footprint) (after footprint.snapshotSeq committed) []
  if keys = [] then .ok () else .error ⟨sortKeys keys⟩

/-- Neither footprint wrote into a range of the other. -/
def disjoint (a b : TxnFootprint) : Bool :=
  let clashes := fun (writer other : TxnFootprint) =>
    writer.writes.any fun w => (touched other).any fun k => k.overlaps w
  !clashes a b && !clashes b a

/-! ### What is noted -/

theorem mem_noteCommit {commit : CommittedWrites} :
    ∀ (ranges keys : List KeyRange), key ∈ noteCommit commit ranges keys ↔
      key ∈ keys ∨ (key ∈ ranges ∧ commit.hits key = true)
  | [], keys => by simp [noteCommit]
  | range :: rest, keys => by
    rw [noteCommit, mem_noteCommit rest]
    by_cases hnew : (commit.hits range && !keys.contains range) = true
    · rw [if_pos hnew]
      have hhits : commit.hits range = true := (Bool.and_eq_true_iff.mp hnew).1
      constructor
      · rintro (h | ⟨h, hkey⟩)
        · rcases List.mem_append.mp h with h | h
          · exact .inl h
          · rw [List.mem_singleton.mp h]
            exact .inr ⟨.head _, hhits⟩
        · exact .inr ⟨.tail _ h, hkey⟩
      · rintro (h | ⟨h, hkey⟩)
        · exact .inl (List.mem_append_left _ h)
        · rcases List.mem_cons.mp h with rfl | h
          · exact .inl (List.mem_append_right _ (.head _))
          · exact .inr ⟨h, hkey⟩
    · rw [if_neg hnew]
      constructor
      · rintro (h | ⟨h, hkey⟩)
        · exact .inl h
        · exact .inr ⟨.tail _ h, hkey⟩
      · rintro (h | ⟨h, hkey⟩)
        · exact .inl h
        · rcases List.mem_cons.mp h with rfl | h
          · -- a range that was hit and not noted now had been noted before
            refine .inl ?_
            by_contra hmissing
            exact hnew (by simp [hkey, hmissing])
          · exact .inr ⟨h, hkey⟩

theorem nodup_noteCommit {commit : CommittedWrites} :
    ∀ (ranges keys : List KeyRange), keys.Nodup → (noteCommit commit ranges keys).Nodup
  | [], _, h => h
  | range :: rest, keys, h => by
    refine nodup_noteCommit rest _ ?_
    split_ifs with hnew
    · have hmissing : range ∉ keys := by simpa using (Bool.and_eq_true_iff.mp hnew).2
      exact List.nodup_append.mpr ⟨h, List.nodup_singleton range, fun a ha b hb hab => by
        rw [List.mem_singleton.mp hb] at hab
        exact hmissing (hab ▸ ha)⟩
    · exact h

theorem mem_noteCommits {ranges : List KeyRange} :
    ∀ (commits : List CommittedWrites) (keys : List KeyRange),
      key ∈ noteCommits ranges commits keys ↔
        key ∈ keys ∨ (key ∈ ranges ∧ ∃ commit ∈ commits, commit.hits key = true)
  | [], keys => by simp [noteCommits]
  | commit :: rest, keys => by
    rw [noteCommits, mem_noteCommits rest, mem_noteCommit]
    simp only [List.mem_cons, exists_eq_or_imp]
    tauto

theorem nodup_noteCommits {ranges : List KeyRange} :
    ∀ (commits : List CommittedWrites) (keys : List KeyRange), keys.Nodup →
      (noteCommits ranges commits keys).Nodup
  | [], _, h => h
  | _ :: rest, keys, h => nodup_noteCommits rest _ (nodup_noteCommit ranges keys h)

theorem mem_sortKeys {keys : List KeyRange} : key ∈ sortKeys keys ↔ key ∈ keys :=
  List.mem_insertionSort _

theorem sortKeys_ascending {keys : List KeyRange} (h : keys.Nodup) :
    (sortKeys keys).Pairwise fun a b => a.rank < b.rank := by
  have hsorted : (sortKeys keys).Pairwise fun a b => a.rank ≤ b.rank := by
    refine @List.pairwise_insertionSort _ (fun a b : KeyRange => a.rank ≤ b.rank) _
      ⟨fun a b => le_total a.rank b.rank⟩ ⟨fun _ _ _ h h' => le_trans h h'⟩ keys
  have hnodup : (sortKeys keys).Nodup := (List.perm_insertionSort _ keys).nodup_iff.mpr h
  refine (hsorted.and hnodup).imp ?_
  rintro a b ⟨hle, hne⟩
  exact lt_of_le_of_ne hle fun hrank => hne (KeyRange.rank_injective hrank)

/-! ### What validation says -/

/-- The footprint has the range, and a commit after the snapshot wrote into it. -/
def Changed (footprint : TxnFootprint) (committed : List CommittedWrites)
    (key : KeyRange) : Prop :=
  key ∈ touched footprint ∧
    ∃ commit ∈ committed, footprint.snapshotSeq < commit.commitSeq ∧ commit.hits key = true

theorem mem_noted :
    key ∈ noteCommits (touched footprint) (after footprint.snapshotSeq committed) [] ↔
      Changed footprint committed key := by
  rw [mem_noteCommits]
  simp [Changed, after, and_assoc]

/-- **An accepted footprint** has no changed range. -/
theorem validate_eq_ok :
    footprint.validate committed = .ok () ↔ ∀ key, ¬ Changed footprint committed key := by
  simp only [← mem_noted]
  unfold TxnFootprint.validate
  dsimp only
  split_ifs with hempty
  · simp [hempty]
  · simpa using List.exists_mem_of_ne_nil _ hempty

/-- **A refused footprint** reports its changed ranges, in strict order. -/
theorem validate_eq_error {conflict : TxnConflict}
    (h : footprint.validate committed = .error conflict) :
    (∀ key, key ∈ conflict.keys ↔ Changed footprint committed key) ∧
      conflict.keys.Pairwise fun a b => a.rank < b.rank := by
  unfold TxnFootprint.validate at h
  dsimp only at h
  split_ifs at h with hempty
  cases h
  refine ⟨fun key => ?_, sortKeys_ascending (nodup_noteCommits _ _ List.nodup_nil)⟩
  rw [mem_sortKeys]
  exact mem_noted

/-! ### Disjoint footprints -/

theorem overlaps_comm (range other : KeyRange) : range.overlaps other = other.overlaps range := by
  rw [Bool.eq_iff_iff, KeyRange.overlaps_eq_true, KeyRange.overlaps_eq_true]
  tauto

theorem disjoint_eq_true {a b : TxnFootprint} (seq : ℕ) : disjoint a b = true ↔
    (∀ key ∈ touched a, CommittedWrites.hits ⟨seq, b.writes⟩ key = false) ∧
      ∀ key ∈ touched b, CommittedWrites.hits ⟨seq, a.writes⟩ key = false := by
  have hclash : ∀ writer other : TxnFootprint,
      (writer.writes.any fun w => (touched other).any fun k => k.overlaps w) = false ↔
        ∀ key ∈ touched other, CommittedWrites.hits ⟨seq, writer.writes⟩ key = false := by
    intro writer other
    simp only [CommittedWrites.hits, List.any_eq_false, List.any_eq_true, not_exists, not_and]
    exact ⟨fun h key hkey w hw => overlaps_comm key w ▸ h w hw key hkey,
      fun h w hw key hkey => overlaps_comm w key ▸ h key hkey w hw⟩
  unfold disjoint
  rw [Bool.and_eq_true, Bool.not_eq_true', Bool.not_eq_true', hclash, hclash, and_comm]

theorem noteCommit_eq_self {commit : CommittedWrites} : ∀ {ranges : List KeyRange}
    (keys : List KeyRange), (∀ key ∈ ranges, commit.hits key = false) →
      noteCommit commit ranges keys = keys
  | [], _, _ => rfl
  | range :: rest, keys, h => by
    rw [noteCommit, h range List.mem_cons_self]
    exact noteCommit_eq_self _ fun key hkey => h key (.tail _ hkey)

theorem noteCommits_append (ranges : List KeyRange) : ∀ (before rest : List CommittedWrites)
    (keys : List KeyRange), noteCommits ranges (before ++ rest) keys =
      noteCommits ranges rest (noteCommits ranges before keys)
  | [], _, _ => rfl
  | _ :: before, rest, _ => noteCommits_append ranges before rest _

/-- A commit that hits no range of a footprint is not noticed, wherever it stands. -/
theorem validate_insert {commit : CommittedWrites} (before rest : List CommittedWrites)
    (h : ∀ key ∈ touched footprint, commit.hits key = false) :
    footprint.validate (before ++ commit :: rest) = footprint.validate (before ++ rest) := by
  have hnoted :
      noteCommits (touched footprint) (after footprint.snapshotSeq (before ++ commit :: rest)) [] =
      noteCommits (touched footprint) (after footprint.snapshotSeq (before ++ rest)) [] := by
    unfold after
    rw [List.filter_append, List.filter_append, noteCommits_append, noteCommits_append,
      List.filter_cons]
    split_ifs
    · rw [noteCommits, noteCommit_eq_self _ h]
    · rfl
  unfold TxnFootprint.validate
  rw [hnoted]

/-- **Disjoint footprints are those that never affect each other**: in no history does the commit of
one, under any sequence number, change what the validation of the other says. A snapshot at the last
number is left out, since no commit comes after it. -/
theorem disjoint_iff_unaffected (a b : TxnFootprint) (ha : a.snapshotSeq < u64Max)
    (hb : b.snapshotSeq < u64Max) : disjoint a b = true ↔
      ∀ (before rest : List CommittedWrites) (seq : ℕ), seq ≤ u64Max →
        a.validate (before ++ ⟨seq, b.writes⟩ :: rest) = a.validate (before ++ rest) ∧
          b.validate (before ++ ⟨seq, a.writes⟩ :: rest) = b.validate (before ++ rest) := by
  constructor
  · intro h before rest seq _
    obtain ⟨ha, hb⟩ := (disjoint_eq_true seq).mp h
    exact ⟨validate_insert before rest ha, validate_insert before rest hb⟩
  · intro h
    -- alone and after the snapshot, a commit that hits a range is refused
    have halone : ∀ (f : TxnFootprint) (writes : List KeyRange),
        f.validate [⟨f.snapshotSeq + 1, writes⟩] = f.validate [] →
          ∀ key ∈ touched f, CommittedWrites.hits ⟨0, writes⟩ key = false := by
      intro f writes hsame key hkey
      have hok := validate_eq_ok.mp (hsame.trans rfl) key
      refine Bool.eq_false_iff.mpr fun hhits => hok ?_
      exact ⟨hkey, _, List.mem_singleton_self _, Nat.lt_succ_self _, hhits⟩
    exact (disjoint_eq_true 0).mpr ⟨halone a b.writes (h [] [] _ ha).1,
      halone b a.writes (h [] [] _ hb).2⟩

/-- Two writers of one key from one snapshot are not disjoint, and each is in the way of the other. -/
theorem disjoint_iff_unaffected_same_key :
    ¬ ∀ (before rest : List CommittedWrites) (seq : ℕ), seq ≤ u64Max →
      TxnFootprint.validate ⟨4, [], [.point "nodes" [7]]⟩
          (before ++ ⟨seq, [.point "nodes" [7]]⟩ :: rest) =
        TxnFootprint.validate ⟨4, [], [.point "nodes" [7]]⟩ (before ++ rest) ∧
      TxnFootprint.validate ⟨4, [], [.point "nodes" [7]]⟩
          (before ++ ⟨seq, [.point "nodes" [7]]⟩ :: rest) =
        TxnFootprint.validate ⟨4, [], [.point "nodes" [7]]⟩ (before ++ rest) := by
  intro h
  have hdisjoint := (disjoint_iff_unaffected ⟨4, [], [.point "nodes" [7]]⟩
    ⟨4, [], [.point "nodes" [7]]⟩ (by decide) (by decide)).mpr h
  exact absurd hdisjoint (by decide)

end Medulla.Occ.Footprint
