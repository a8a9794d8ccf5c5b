import Medulla.Library.Serial
import Medulla.Occ.Footprint

/-! # Serializability of validated commits

A history of a store with several tables. A transaction reads the store as of its snapshot, its
footprint covers the keys that it read and wrote, and it takes the next commit sequence number when
its footprint validates against the commits before it.

* the lemma: `not_written_after`;
* every history: `serial_of_history`, `occ_serializable`. -/

namespace Medulla.Occ.Serializability

open Library.Serial Footprint

variable {footprint : TxnFootprint}

/-- A row, by its table and key. -/
abbrev Key := String × Bytes

section
variable {ν : Type}

/-! ### Histories -/

/-- A committed transaction: its program, its footprint, and what it read and wrote. -/
structure Commit (ν : Type) where
  program : Program Key ν
  footprint : TxnFootprint
  trace : Trace Key ν

/-- Every row of a trace lies in one of the declared ranges. -/
def CoveredBy (ranges : List KeyRange) (keys : List (Key × Option ν)) : Prop :=
  ∀ entry ∈ keys, ∃ range ∈ ranges, range.Covers entry.1

/-- The write ranges of a history, numbered from 1. -/
def committedWrites (commits : List (Commit ν)) : List CommittedWrites :=
  commits.mapIdx fun i commit => ⟨i + 1, commit.footprint.writes⟩

/-- The rows after the first commits of a history. -/
def stateAt (init : Store Key ν) (commits : List (Commit ν)) (seq : ℕ) : Store Key ν :=
  installAll init ((commits.take seq).map Commit.trace)

/-- The rows after a whole history. -/
def finalState (init : Store Key ν) (commits : List (Commit ν)) : Store Key ν :=
  installAll init (commits.map Commit.trace)

/-- **The commits of a history**: each one read its snapshot, is covered by its footprint, and was
accepted by validation. -/
inductive History (init : Store Key ν) : List (Commit ν) → Prop
  | empty : History init []
  | commit {commits : List (Commit ν)} {program : Program Key ν} {footprint : TxnFootprint}
      (past : History init commits)
      (reads : CoveredBy footprint.reads
        (program.exec (stateAt init commits footprint.snapshotSeq)).reads)
      (writes : CoveredBy footprint.writes
        (program.exec (stateAt init commits footprint.snapshotSeq)).writes)
      (accepted : footprint.validate (committedWrites commits) = .ok ()) :
      History init (commits ++
        [⟨program, footprint, program.exec (stateAt init commits footprint.snapshotSeq)⟩])

/-! ### What validation leaves alone -/

theorem History.writes_covered {init : Store Key ν} {commits : List (Commit ν)}
    (h : History init commits) :
    ∀ commit ∈ commits, CoveredBy commit.footprint.writes commit.trace.writes := by
  induction h with
  | empty => intro commit hmem; cases hmem
  | commit past _ hwrites _ ih =>
    intro commit hmem
    rcases List.mem_append.mp hmem with hmem | hmem
    · exact ih commit hmem
    · rw [List.mem_singleton.mp hmem]
      exact hwrites

theorem mem_committedWrites_of_drop {commits : List (Commit ν)} {seq : ℕ} {commit : Commit ν}
    (h : commit ∈ commits.drop seq) :
    ∃ n, seq < n ∧ (⟨n, commit.footprint.writes⟩ : CommittedWrites) ∈ committedWrites commits := by
  obtain ⟨i, hi, rfl⟩ := List.mem_iff_getElem.mp h
  have hlength : seq + i < commits.length := by
    rw [List.length_drop] at hi
    omega
  refine ⟨seq + i + 1, by omega, List.mem_iff_getElem.mpr ⟨seq + i, ?_, ?_⟩⟩
  · simpa [committedWrites] using hlength
  · simp [committedWrites]

section
variable {init : Store Key ν} {commits : List (Commit ν)}

/-- **A key that an accepted transaction read is not written after its snapshot.** -/
theorem not_written_after
    (h : History init commits) (hvalid : footprint.validate (committedWrites commits) = .ok ())
    {key : Key} (hkey : ∃ range ∈ footprint.reads, range.Covers key) {commit : Commit ν}
    (hcommit : commit ∈ commits.drop footprint.snapshotSeq) {w : Key × Option ν}
    (hw : w ∈ commit.trace.writes) : w.1 ≠ key := by
  rintro rfl
  obtain ⟨range, hrange, hcovers⟩ := hkey
  obtain ⟨written, hwritten, hcovers'⟩ :=
    h.writes_covered commit (List.mem_of_mem_drop hcommit) w hw
  obtain ⟨n, hafter, hmem⟩ := mem_committedWrites_of_drop hcommit
  have hhits : (⟨n, commit.footprint.writes⟩ : CommittedWrites).hits range = true :=
    List.any_eq_true.mpr ⟨written, hwritten, KeyRange.overlaps_of_covers hcovers' hcovers⟩
  exact validate_eq_ok.mp hvalid range
    ⟨List.mem_append_left _ hrange, _, hmem, hafter, hhits⟩

theorem exec_finalState {program : Program Key ν}
    (h : History init commits) (hreads : CoveredBy footprint.reads
      (program.exec (stateAt init commits footprint.snapshotSeq)).reads)
    (hvalid : footprint.validate (committedWrites commits) = .ok ()) :
    program.exec (finalState init commits) =
      program.exec (stateAt init commits footprint.snapshotSeq) := by
  refine exec_congr program fun r hr => ?_
  have hsplit : finalState init commits = installAll (stateAt init commits footprint.snapshotSeq)
        ((commits.drop footprint.snapshotSeq).map Commit.trace) := by
    unfold finalState stateAt
    rw [← installAll_append, ← List.map_append, List.take_append_drop]
  rw [hsplit]
  refine installAll_of_not_written _ _ fun t ht w hw => ?_
  obtain ⟨commit, hcommit, rfl⟩ := List.mem_map.mp ht
  exact not_written_after h hvalid (hreads r hr) hcommit hw

/-! ### Serial order -/

/-- **A history is serial**: its traces and its last store are those of its programs run one after
another in the order of their commits. -/
theorem serial_of_history (h : History init commits) : serial init (commits.map Commit.program) =
      (commits.map Commit.trace, finalState init commits) := by
  induction h with
  | empty => rfl
  | @commit commits program footprint past hreads _ hvalid ih =>
    rw [List.map_append, List.map_singleton, serial_append_one, ih]
    rw [exec_finalState past hreads hvalid]
    simp only [List.map_append, List.map_singleton, finalState, installAll_append, installAll]

/-! ### Refusals -/

end

/-- A declared range meets a write committed after the snapshot. -/
def SharesLater (footprint : TxnFootprint) (committed : List CommittedWrites) (key : KeyRange) :
    Prop :=
  key ∈ touched footprint ∧ ∃ commit ∈ committed, footprint.snapshotSeq < commit.commitSeq ∧
    ∃ w ∈ commit.writes, ∃ k, key.Covers k ∧ w.Covers k

section
variable {committed : List CommittedWrites} (hfootprint : ∀ key ∈ touched footprint, key.Nonempty)
  (hcommitted : ∀ commit ∈ committed, ∀ w ∈ commit.writes, w.Nonempty)
include hfootprint hcommitted

theorem changed_iff_sharesLater {key : KeyRange} :
    Changed footprint committed key ↔ SharesLater footprint committed key := by
  constructor
  · rintro ⟨hkey, commit, hcommit, hafter, hhits⟩
    obtain ⟨w, hw, hoverlap⟩ := List.any_eq_true.mp hhits
    obtain ⟨k, hk, hk'⟩ := (KeyRange.overlaps_iff_shares (hcommitted commit hcommit w hw)
      (hfootprint key hkey)).mp hoverlap
    exact ⟨hkey, commit, hcommit, hafter, w, hw, k, hk', hk⟩
  · rintro ⟨hkey, commit, hcommit, hafter, w, hw, k, hk, hk'⟩
    exact ⟨hkey, commit, hcommit, hafter,
      List.any_eq_true.mpr ⟨w, hw, KeyRange.overlaps_of_covers hk' hk⟩⟩

theorem validate_exact :
    (footprint.validate committed ≠ .ok () ↔ ∃ key, SharesLater footprint committed key) ∧
      ∀ conflict, footprint.validate committed = .error conflict →
        (∀ key, key ∈ conflict.keys ↔ SharesLater footprint committed key) ∧
          conflict.keys.Pairwise fun a b => a.rank < b.rank := by
  have hchanged := @changed_iff_sharesLater footprint committed hfootprint hcommitted
  refine ⟨?_, fun conflict h => ?_⟩
  · simp only [ne_eq, validate_eq_ok, hchanged, not_forall, not_not]
  · obtain ⟨hkeys, hsorted⟩ := validate_eq_error h
    exact ⟨fun key => (hkeys key).trans hchanged, hsorted⟩

end

end

/-- **Optimistic validation serializes**: the committed transactions of a history read and leave what
they would one after another in commit order; and with ranges that have keys, validation refuses
exactly the footprints that share a key with a later commit. -/
theorem occ_serializable {ν : Type} :
    (∀ (init : Store Key ν) (commits : List (Commit ν)), History init commits →
      serial init (commits.map Commit.program) =
        (commits.map Commit.trace, finalState init commits)) ∧
    ∀ (footprint : TxnFootprint) (committed : List CommittedWrites),
      (∀ key ∈ touched footprint, key.Nonempty) →
      (∀ commit ∈ committed, ∀ w ∈ commit.writes, w.Nonempty) →
      (footprint.validate committed ≠ .ok () ↔ ∃ key, SharesLater footprint committed key) ∧
        ∀ conflict, footprint.validate committed = .error conflict →
          (∀ key, key ∈ conflict.keys ↔ SharesLater footprint committed key) ∧
            conflict.keys.Pairwise fun a b => a.rank < b.rank :=
  ⟨fun _ _ h => serial_of_history h, fun _ _ hf hc => validate_exact hf hc⟩

/-- A program that writes one row. -/
def writer : Program Key ℕ := .write ("t", [1]) (some 5) .done

def writerFootprint : TxnFootprint := ⟨0, [], [KeyRange.point "t" [1]]⟩

/-- A program that copies one row to another. -/
def copier : Program Key ℕ := .read ("t", [2]) fun value => .write ("t", [3]) value .done

def copierFootprint : TxnFootprint := ⟨0, [KeyRange.point "t" [2]], [KeyRange.point "t" [3]]⟩

def initial : Store Key ℕ := fun key => if key = ("t", [2]) then some 7 else none

/-- Both start from the first store, and the copier commits second. -/
def bothCommits : List (Commit ℕ) :=
  [⟨writer, writerFootprint, writer.exec initial⟩, ⟨copier, copierFootprint, copier.exec initial⟩]

theorem bothCommits_history : History initial bothCommits := by
  have hfirst : History initial ([] ++ [⟨writer, writerFootprint, writer.exec initial⟩]) := by
    refine .commit .empty (fun _ h => nomatch h) ?_ (by decide)
    intro entry hentry
    rw [List.mem_singleton.mp hentry]
    exact ⟨_, List.mem_singleton.mpr rfl, by unfold KeyRange.Covers; decide⟩
  refine @History.commit _ initial _ copier copierFootprint hfirst ?_ ?_ (by decide)
  · intro entry hentry
    rw [List.mem_singleton.mp hentry]
    exact ⟨_, List.mem_singleton.mpr rfl, by unfold KeyRange.Covers; decide⟩
  · intro entry hentry
    rw [List.mem_singleton.mp hentry]
    exact ⟨_, List.mem_singleton.mpr rfl, by unfold KeyRange.Covers; decide⟩

/-- The two commits are serial, and a reader of the key that the first one wrote would be refused. -/
theorem occ_serializable_both : serial initial (bothCommits.map Commit.program) =
        (bothCommits.map Commit.trace, finalState initial bothCommits) ∧
      (TxnFootprint.validate ⟨0, [KeyRange.point "t" [1]], []⟩ [⟨1, writerFootprint.writes⟩] ≠
          .ok () ↔
        ∃ key, SharesLater ⟨0, [KeyRange.point "t" [1]], []⟩ [⟨1, writerFootprint.writes⟩] key) := by
  refine ⟨occ_serializable.1 initial bothCommits bothCommits_history,
    (occ_serializable (ν := ℕ).2 ⟨0, [KeyRange.point "t" [1]], []⟩ [⟨1, writerFootprint.writes⟩]
      ?_ ?_).1⟩
  · unfold KeyRange.Nonempty
    decide
  · unfold KeyRange.Nonempty
    decide

end Medulla.Occ.Serializability
