import Medulla.Index.Visibility
import Medulla.Isolation.Views

/-! # Readers that build an index beside writers

A batch is applied and maintained under the topology lock; its marks come after the lock is released.
A reader that finds an index cold reads the version, scans the nodes and publishes what it built under
the version it read.

* one batch: `Midway.maintain`;
* every interleaving: `no_stale_index`. -/

namespace Medulla.Index.Interleaving

open Library.OrderedTable Library.OrderedSet Library.Postings Library.Transaction Resource.Extension
open Changes Caches Facets Rebuild Visibility Isolation.Rows
open Isolation.Views Caches.GraphCore

variable {Blob : Type} {captureContent : Bool} {change : ChangeSet Blob}

/-! ### Readers -/

/-- Where a reader that found an index cold stands in its build. -/
inductive Build (α : Type)
  | missed
  | versioned (builtAt : ℕ)
  | scanned (builtAt : ℕ) (built : α)

inductive ReaderStep
  | consult
  | readVersion
  | scan
  | publish

abbrev Readers (α : Type) := Table ℕ (Build α)

namespace Readers

variable {α : Type}

/-- A reader that finds a warm index uses it and is done. -/
def consult (readers : Readers α) (reader : ℕ) (index : Option α) : Readers α :=
  match index, readers.get reader with
  | none, none => readers.insert reader .missed
  | _, _ => readers

def readVersion (readers : Readers α) (reader version : ℕ) : Readers α :=
  match readers.get reader with
  | some .missed => readers.insert reader (.versioned version)
  | _ => readers

def scan (readers : Readers α) (reader : ℕ) (built : α) : Readers α :=
  match readers.get reader with
  | some (.versioned builtAt) => readers.insert reader (.scanned builtAt built)
  | _ => readers

/-- What a reader is about to publish, and its stamp. -/
def ready (readers : Readers α) (reader : ℕ) : Option (ℕ × α) :=
  match readers.get reader with
  | some (.scanned builtAt built) => some (builtAt, built)
  | _ => none

def Unpublished (readers : Readers α) : Prop := ∃ reader, (readers.ready reader).isSome = true

end Readers

/-! ### The shared graph -/

/-- A batch that holds the topology lock. -/
structure Held (Blob : Type) where
  captureContent : Bool
  change : ChangeSet Blob
  remaining : List (WriteOp Blob)

/-- A graph with its caches, the batch that holds the topology lock, the readers that build an index,
and the marks still owed. -/
structure Shared (Blob : Type) where
  core : GraphCore Blob
  visibility : VisibilityCache
  held : Option (Held Blob)
  labelReaders : Readers (Index String String)
  visibilityReaders : Readers VisibilityIndex
  marksDue : ℕ

def Shared.cold (g : Graph Blob) (version : ℕ) : Shared Blob :=
  ⟨GraphCore.cold g version, ⟨none, 0⟩, none, Table.empty, Table.empty, 0⟩

inductive Move (Blob : Type)
  | lock (captureContent : Bool) (batch : List (WriteOp Blob))
  | write
  | maintain
  | markDirty
  | label (reader : ℕ) (step : ReaderStep)
  | visibility (reader : ℕ) (step : ReaderStep)

namespace Shared

/-- The write lock waits for a batch and for the readers that hold the read guard. -/
def lock (s : Shared Blob) (captureContent : Bool) (batch : List (WriteOp Blob)) : Shared Blob :=
  if s.held.isNone && s.visibilityReaders.rows.isEmpty then
    { s with held := some ⟨captureContent, ChangeSet.new, batch⟩ }
  else s

variable (codec : Codec Blob)

/-- The next write of the batch; the readers that hold no guard see it at once. -/
def write (s : Shared Blob) : Shared Blob :=
  match s.held with
  | some ⟨captureContent, change, op :: remaining⟩ =>
    let p := applyOp codec captureContent (s.core.graph, change) op
    { s with core := { s.core with graph := p.1 }, held := some ⟨captureContent, p.2, remaining⟩ }
  | _ => s

/-- Maintain the warm indexes from the change set and release the lock. -/
def maintain (s : Shared Blob) : Shared Blob :=
  match s.held with
  | some ⟨_, change, []⟩ =>
    if change.isEmpty then { s with held := none }
    else
      let targetVersion := saturatingAdd s.core.version change.len
      { s with
        core := s.core.invalidateIndexesForChange codec change targetVersion
        visibility := maintainVisibility codec s.core.graph change targetVersion s.visibility
        held := none
        marksDue := s.marksDue + change.len }
  | _ => s

def markDirty (s : Shared Blob) : Shared Blob :=
  { s with
    core := s.core.markDirty
    visibility := { s.visibility with
      index := dropIfStale s.visibility.index s.visibility.stamp s.core.markDirty.version }
    marksDue := s.marksDue - 1 }

def labelStep (s : Shared Blob) (reader : ℕ) : ReaderStep → Shared Blob
  | .consult => { s with labelReaders := s.labelReaders.consult reader s.core.labelIndex }
  | .readVersion => { s with labelReaders := s.labelReaders.readVersion reader s.core.version }
  | .scan => { s with labelReaders := s.labelReaders.scan reader (buildLabelIndex codec s.core.graph) }
  | .publish =>
    match s.labelReaders.ready reader with
    | some (builtAt, built) =>
      { s with
        core := { s.core with labelIndex := some built }.stampLabel builtAt
        labelReaders := s.labelReaders.remove reader }
    | none => s

/-- `live_visibility_index`, step by step, under the read guard, which waits for the batch that holds
the lock. -/
def visibilityStep (s : Shared Blob) (reader : ℕ) : ReaderStep → Shared Blob
  | .consult =>
    if s.held.isSome then s
    else { s with visibilityReaders := s.visibilityReaders.consult reader s.visibility.index }
  | .readVersion =>
    { s with visibilityReaders := s.visibilityReaders.readVersion reader s.core.version }
  | .scan =>
    { s with
      visibilityReaders := s.visibilityReaders.scan reader (buildVisibilityIndex codec s.core.graph) }
  | .publish =>
    match s.visibilityReaders.ready reader with
    | some (builtAt, built) =>
      { s with visibility := ⟨some built, builtAt⟩, visibilityReaders := s.visibilityReaders.remove reader }
    | none => s

def step (s : Shared Blob) : Move Blob → Shared Blob
  | .lock captureContent batch => s.lock captureContent batch
  | .write => s.write codec
  | .maintain => s.maintain codec
  | .markDirty => s.markDirty
  | .label reader st => s.labelStep codec reader st
  | .visibility reader st => s.visibilityStep codec reader st

structure Quiet (s : Shared Blob) : Prop where
  held : s.held.isNone = true
  labelReaders : s.labelReaders.rows.isEmpty = true
  visibilityReaders : s.visibilityReaders.rows.isEmpty = true
  marks : s.marksDue = 0

def labelIndexInUse (s : Shared Blob) : Index String String :=
  s.core.labelIndex.getD (buildLabelIndex codec s.core.graph)

def liveVisibilityIndex (s : Shared Blob) : VisibilityIndex :=
  s.visibility.index.getD (buildVisibilityIndex codec s.core.graph)

/-- **No stale index is in use**: label queries and snapshots use the indexes a rebuild from the nodes gives,
and a snapshot decides about every node by the visibility its image declares. -/
structure NoStaleIndex (s : Shared Blob) : Prop where
  label : ∀ label, posting (s.labelIndexInUse codec) label =
    posting (buildLabelIndex codec s.core.graph) label
  visibility : s.liveVisibilityIndex codec = buildVisibilityIndex codec s.core.graph
  decisions : ∀ (layer : IsolationLayer) (agentId : String) (view : GraphView Blob),
    view.nodeProperties = s.core.graph.nodeProperties →
    view.visibilityIndex = s.liveVisibilityIndex codec → ∀ id image,
      s.core.graph.nodeProperties.get id = some image →
      canSeeNode layer (decodeFields codec) agentId view id = layer.canSeeRow agentId
          { visibilityOfImage codec image with schema := view.schemaNodeIds.contains id }

/-- The steps between which an index cannot go stale: batches are replayable, change no visibility keys
of what they remove, and stay out of the time between the scan and the publication of a label reader. -/
def Apart (s : Shared Blob) : Move Blob → Prop
  | .lock captureContent batch =>
    Replayable codec captureContent s.core.graph batch ∧
      KeepsVisibility codec captureContent s.core.graph batch ∧ ¬s.labelReaders.Unpublished
  | .label _ .scan => s.held = none
  | _ => True

end Shared

/-! ### What a reader is about to publish -/

namespace Readers

variable {α : Type} {readers : Readers α} {reader other version : ℕ} {x : ℕ × α}

theorem ready_eq_none (h : readers.get reader = none) : readers.ready reader = none := by
  rw [ready, h]

theorem ready_insert {b : Build α} : ready (readers.insert reader b) other = if other = reader then
      match b with
      | .scanned builtAt built => some (builtAt, built)
      | _ => none
    else readers.ready other := by
  unfold ready
  rw [Table.get_insert]
  by_cases h : other = reader
  · rw [if_pos h, if_pos h]
    cases b <;> rfl
  · rw [if_neg h, if_neg h]

theorem ready_consult {index : Option α} (h : (readers.consult reader index).ready other = some x) :
    readers.ready other = some x := by
  unfold consult at h
  split at h
  · rw [ready_insert] at h
    split at h
    · cases h
    · exact h
  · exact h

theorem ready_readVersion (h : (readers.readVersion reader version).ready other = some x) :
    readers.ready other = some x := by
  unfold readVersion at h
  split at h
  · rw [ready_insert] at h
    split at h
    · cases h
    · exact h
  · exact h

theorem ready_scan {built : α} (h : (readers.scan reader built).ready other = some x) :
    readers.ready other = some x ∨ x.2 = built := by
  unfold scan at h
  split at h
  · rw [ready_insert] at h
    split at h
    · exact Or.inr (by rw [← Option.some.inj h])
    · exact Or.inl h
  · exact Or.inl h

theorem ready_remove (h : ready (readers.remove reader) other = some x) :
    readers.ready other = some x := by
  unfold ready at h ⊢
  rw [Table.get_remove] at h
  by_cases heq : other = reader
  · rw [if_pos heq] at h
    cases h
  · rw [if_neg heq] at h
    exact h

theorem get_of_isEmpty (h : readers.rows.isEmpty = true) (reader : ℕ) : readers.get reader = none := by
  rw [Table.get, List.isEmpty_iff.mp h]
  rfl

theorem readVersion_none (h : readers.get reader = none) :
    readers.readVersion reader version = readers := by
  rw [readVersion, h]

theorem scan_none {built : α} (h : readers.get reader = none) : readers.scan reader built = readers := by
  rw [scan, h]

end Readers

/-! ### The invariant -/

section Invariant

variable (codec : Codec Blob)

/-- The warm indexes are those of the given nodes. -/
structure Fresh (g : Graph Blob) (core : GraphCore Blob) (visibility : VisibilityCache) : Prop where
  label : Current labelFacet codec (fun core => core.labelIndex) { core with graph := g }
  shows : Shows codec g visibility

/-- The batch that holds the lock: it started from a graph whose indexes are the warm ones, and it is as far
as its change set says. -/
structure Midway (s : Shared Blob) (held : Held Blob) (g : Graph Blob) (done : List (WriteOp Blob)) :
    Prop where
  replayable : Replayable codec held.captureContent g (done ++ held.remaining)
  keeps : KeepsVisibility codec held.captureContent g (done ++ held.remaining)
  progress : applyOps codec held.captureContent g done = (s.core.graph, held.change)
  fresh : Fresh codec g s.core s.visibility

/-- The invariant of a run whose batches and label builds stay apart. -/
structure Tidy (s : Shared Blob) : Prop where
  fresh : s.held = none → Fresh codec s.core.graph s.core s.visibility
  midway : ∀ held, s.held = some held → ∃ g done, Midway codec s held g done
  labelReady : ∀ reader x, s.labelReaders.ready reader = some x →
    s.held = none ∧ x.2 = buildLabelIndex codec s.core.graph
  visibilityReady : ∀ reader x, s.visibilityReaders.ready reader = some x →
    x.2 = buildVisibilityIndex codec s.core.graph
  guarded : s.held ≠ none → ∀ reader, s.visibilityReaders.get reader = none

variable {codec} {s : Shared Blob} {g : Graph Blob}

theorem tidy_cold (g : Graph Blob) (version : ℕ) : Tidy codec (Shared.cold g version) where
  fresh _ := ⟨fun _ h => (Option.some_ne_none _ h.symm).elim, fun _ h => (Option.some_ne_none _ h.symm).elim⟩
  midway _ h := (Option.some_ne_none _ h.symm).elim
  labelReady _ _ h := (Option.some_ne_none _ h.symm).elim
  visibilityReady _ _ h := (Option.some_ne_none _ h.symm).elim
  guarded h := absurd rfl h

theorem Fresh.of_caches {core core' : GraphCore Blob} {visibility visibility' : VisibilityCache}
    (h : Fresh codec g core visibility)
    (hlabel : core'.labelIndex = none ∨ core'.labelIndex = core.labelIndex)
    (hvisibility : visibility'.index = none ∨ visibility'.index = visibility.index) :
    Fresh codec g core' visibility' where
  label := h.label.of_postings rfl hlabel
  shows index hindex := by
    rcases hvisibility with hnone | hsame
    · rw [hnone] at hindex
      cases hindex
    · rw [hsame] at hindex
      exact h.shows index hindex

theorem Tidy.of_readers {labelReaders : Readers (Index String String)}
    {visibilityReaders : Readers VisibilityIndex} (h : Tidy codec s)
    (hlabel : ∀ reader x, labelReaders.ready reader = some x → s.labelReaders.ready reader = some x ∨
      s.held = none ∧ x.2 = buildLabelIndex codec s.core.graph)
    (hvisibility : ∀ reader x, visibilityReaders.ready reader = some x →
      s.visibilityReaders.ready reader = some x ∨ x.2 = buildVisibilityIndex codec s.core.graph)
    (hguarded : s.held ≠ none → ∀ reader, visibilityReaders.get reader = none) :
    Tidy codec { s with labelReaders := labelReaders, visibilityReaders := visibilityReaders } where
  fresh := h.fresh
  midway held hheld := by
    obtain ⟨g, done, hmid⟩ := h.midway held hheld
    exact ⟨g, done, hmid.replayable, hmid.keeps, hmid.progress, hmid.fresh⟩
  labelReady reader x hx := (hlabel reader x hx).elim (h.labelReady reader x) id
  visibilityReady reader x hx := (hvisibility reader x hx).elim (h.visibilityReady reader x) id
  guarded := hguarded

/-! ### Writers -/

theorem Tidy.lock {batch : List (WriteOp Blob)}
    (hreplayable : Replayable codec captureContent s.core.graph batch)
    (hkeeps : KeepsVisibility codec captureContent s.core.graph batch)
    (hunpublished : ¬s.labelReaders.Unpublished) (h : Tidy codec s) :
    Tidy codec (s.lock captureContent batch) := by
  unfold Shared.lock
  split
  · rename_i hfree
    rw [Bool.and_eq_true, Option.isNone_iff_eq_none] at hfree
    refine ⟨fun hnone => absurd hnone (Option.some_ne_none _), ?_, ?_, h.visibilityReady, ?_⟩
    · intro held hheld
      cases hheld
      exact ⟨s.core.graph, [], hreplayable, hkeeps, rfl, h.fresh hfree.1⟩
    · intro reader x hx
      exact absurd ⟨reader, by rw [hx]; rfl⟩ hunpublished
    · intro _ reader
      exact Readers.get_of_isEmpty hfree.2 reader
  · exact h

theorem Tidy.write (h : Tidy codec s) : Tidy codec (s.write codec) := by
  unfold Shared.write
  split
  · rename_i captureContent change op remaining hheld
    obtain ⟨g, done, hmid⟩ := h.midway _ hheld
    have hlabelReady : ∀ reader x, s.labelReaders.ready reader = some x → False := by
      intro reader x hx
      have hnone := (h.labelReady reader x hx).1
      rw [hheld] at hnone
      cases hnone
    have hguarded : ∀ reader, s.visibilityReaders.get reader = none := by
      refine h.guarded ?_
      rw [hheld]
      exact Option.some_ne_none _
    refine ⟨fun hnone => absurd hnone (Option.some_ne_none _), ?_, ?_, ?_, fun _ => hguarded⟩
    · intro held hheld'
      cases hheld'
      refine ⟨g, done ++ [op], ?_, ?_, ?_, hmid.fresh.of_caches (Or.inr rfl) (Or.inr rfl)⟩
      · rw [List.append_assoc]
        exact hmid.replayable
      · rw [List.append_assoc]
        exact hmid.keeps
      · have hprogress := hmid.progress
        unfold applyOps at hprogress ⊢
        rw [List.foldl_append, hprogress]
        rfl
    · intro reader x hx
      exact (hlabelReady reader x hx).elim
    · intro reader x hx
      rw [Readers.ready_eq_none (hguarded reader)] at hx
      cases hx
  · exact h

theorem maintainVisibility_of_isEmpty (h : change.isEmpty = true) (t : ℕ) (cache : VisibilityCache) :
    maintainVisibility codec g change t cache = cache := by
  simp only [ChangeSet.isEmpty, Bool.and_eq_true, List.isEmpty_iff] at h
  unfold maintainVisibility
  rw [h.1.1.1.1, h.1.1.1.2, h.1.1.2]
  rfl

theorem applyBatch_of_progress {core : GraphCore Blob} {ops : List (WriteOp Blob)}
    (h : applyOps codec captureContent g ops = (core.graph, change)) :
    applyBatch codec captureContent { core with graph := g } ops = if change.isEmpty then core
      else core.invalidateIndexesForChange codec change (saturatingAdd core.version change.len) := by
  unfold applyBatch
  rw [h]

/-- **A batch leaves fresh indexes behind when it releases the lock.** -/
theorem Midway.maintain {done : List (WriteOp Blob)}
    (h : Midway codec s ⟨captureContent, change, []⟩ g done) :
    Fresh codec s.core.graph
      (if change.isEmpty then s.core
        else s.core.invalidateIndexesForChange codec change (saturatingAdd s.core.version change.len))
      (maintainVisibility codec s.core.graph change (saturatingAdd s.core.version change.len)
        s.visibility) := by
  have hreplayable := h.replayable
  have hkeeps := h.keeps
  have hprogress := h.progress
  rw [List.append_nil] at hreplayable hkeeps
  constructor
  · have hbatch := h.fresh.label.batch (labelIndex_follows codec) (fun _ _ => rfl) hreplayable
    rw [applyBatch_of_progress hprogress] at hbatch
    refine hbatch.of_postings ?_ (Or.inr rfl)
    split
    · rfl
    · rw [invalidateIndexesForChange_graph]
  · have hshows := h.fresh.shows.batch (t := saturatingAdd s.core.version change.len) hreplayable hkeeps
    rw [hprogress] at hshows
    exact hshows

theorem Tidy.maintain (h : Tidy codec s) : Tidy codec (s.maintain codec) := by
  unfold Shared.maintain
  split
  · rename_i captureContent change hheld
    obtain ⟨g, done, hmid⟩ := h.midway _ hheld
    have hfresh := hmid.maintain
    have hlabelReady : ∀ reader x, s.labelReaders.ready reader = some x → False := by
      intro reader x hx
      have hnone := (h.labelReady reader x hx).1
      rw [hheld] at hnone
      cases hnone
    have hguarded : ∀ reader, s.visibilityReaders.get reader = none := by
      refine h.guarded ?_
      rw [hheld]
      exact Option.some_ne_none _
    have hvisibilityReady : ∀ reader x, s.visibilityReaders.ready reader = some x → False := by
      intro reader x hx
      rw [Readers.ready_eq_none (hguarded reader)] at hx
      cases hx
    split
    · rename_i hempty
      rw [if_pos hempty, maintainVisibility_of_isEmpty hempty] at hfresh
      exact ⟨fun _ => hfresh, fun _ hsome => (Option.some_ne_none _ hsome.symm).elim,
        fun reader x hx => (hlabelReady reader x hx).elim,
        fun reader x hx => (hvisibilityReady reader x hx).elim, fun _ => hguarded⟩
    · rename_i hchanged
      rw [if_neg hchanged] at hfresh
      refine ⟨fun _ => ?_, fun _ hsome => (Option.some_ne_none _ hsome.symm).elim,
        fun reader x hx => (hlabelReady reader x hx).elim,
        fun reader x hx => (hvisibilityReady reader x hx).elim, fun _ => hguarded⟩
      rw [invalidateIndexesForChange_graph]
      exact hfresh
  · exact h

theorem dropIfStale_or {α : Type} (cache : Option α) (stamp newVersion : ℕ) :
    dropIfStale cache stamp newVersion = none ∨ dropIfStale cache stamp newVersion = cache := by
  unfold dropIfStale
  split <;> simp

theorem Tidy.markDirty (h : Tidy codec s) : Tidy codec s.markDirty where
  fresh hnone := (h.fresh hnone).of_caches (dropIfStale_or _ _ _) (dropIfStale_or _ _ _)
  midway held hheld := by
    obtain ⟨g, done, hmid⟩ := h.midway held hheld
    exact ⟨g, done, hmid.replayable, hmid.keeps, hmid.progress,
      hmid.fresh.of_caches (dropIfStale_or _ _ _) (dropIfStale_or _ _ _)⟩
  labelReady := h.labelReady
  visibilityReady := h.visibilityReady
  guarded := h.guarded

/-! ### Readers beside them -/

theorem Tidy.labelPublish (h : Tidy codec s) (reader : ℕ) :
    Tidy codec (s.labelStep codec reader .publish) := by
  unfold Shared.labelStep
  dsimp only
  split
  · rename_i builtAt built hready
    obtain ⟨hnone, hbuilt⟩ := h.labelReady reader _ hready
    refine ⟨fun _ => ⟨?_, (h.fresh hnone).shows⟩, fun held hheld => ?_, ?_, h.visibilityReady, h.guarded⟩
    · refine Current.of_build rfl fun k id => ?_
      dsimp only at hbuilt ⊢
      rw [hbuilt]
      exact listed_buildLabelIndex s.core.graph k id
    · dsimp only at hheld
      rw [hnone] at hheld
      cases hheld
    · intro other x hx
      exact h.labelReady other x (Readers.ready_remove hx)
  · exact h

theorem Tidy.visibilityPublish (h : Tidy codec s) (reader : ℕ) :
    Tidy codec (s.visibilityStep codec reader .publish) := by
  unfold Shared.visibilityStep
  dsimp only
  split
  · rename_i builtAt built hready
    have hnone : s.held = none := by
      by_contra hheld
      rw [Readers.ready_eq_none (h.guarded hheld reader)] at hready
      cases hready
    have hbuilt := h.visibilityReady reader _ hready
    refine ⟨fun _ => ⟨(h.fresh hnone).label, ?_⟩, fun held hheld => ?_, h.labelReady, ?_,
      fun hheld => absurd hnone hheld⟩
    · intro index hindex
      rw [← Option.some.inj hindex]
      exact hbuilt
    · dsimp only at hheld
      rw [hnone] at hheld
      cases hheld
    · intro other x hx
      exact h.visibilityReady other x (Readers.ready_remove hx)
  · exact h

theorem Tidy.labelStep {reader : ℕ} {st : ReaderStep} (hapart : s.Apart codec (.label reader st))
    (h : Tidy codec s) : Tidy codec (s.labelStep codec reader st) := by
  cases st with
  | consult =>
    exact h.of_readers (fun _ _ hx => Or.inl (Readers.ready_consult hx)) (fun _ _ hx => Or.inl hx) h.guarded
  | readVersion =>
    exact h.of_readers (fun _ _ hx => Or.inl (Readers.ready_readVersion hx)) (fun _ _ hx => Or.inl hx)
      h.guarded
  | scan =>
    exact h.of_readers (fun _ _ hx => (Readers.ready_scan hx).imp_right fun hbuilt => ⟨hapart, hbuilt⟩)
      (fun _ _ hx => Or.inl hx) h.guarded
  | publish => exact h.labelPublish reader

theorem Tidy.visibilityStep {reader : ℕ} {st : ReaderStep} (h : Tidy codec s) :
    Tidy codec (s.visibilityStep codec reader st) := by
  cases st with
  | consult =>
    unfold Shared.visibilityStep
    dsimp only
    split
    · exact h
    · rename_i hfree
      refine h.of_readers (fun _ _ hx => Or.inl hx) (fun _ _ hx => Or.inl (Readers.ready_consult hx)) ?_
      intro hheld
      rw [Option.isSome_iff_ne_none] at hfree
      exact absurd hheld hfree
  | readVersion =>
    refine h.of_readers (fun _ _ hx => Or.inl hx) (fun _ _ hx => Or.inl (Readers.ready_readVersion hx)) ?_
    intro hheld other
    rw [Readers.readVersion_none (h.guarded hheld reader)]
    exact h.guarded hheld other
  | scan =>
    refine h.of_readers (fun _ _ hx => Or.inl hx) (fun _ _ hx => Readers.ready_scan hx) ?_
    intro hheld other
    rw [Readers.scan_none (h.guarded hheld reader)]
    exact h.guarded hheld other
  | publish => exact h.visibilityPublish reader

theorem Tidy.step {move : Move Blob} (hmove : s.Apart codec move) (h : Tidy codec s) :
    Tidy codec (s.step codec move) :=
  match move, hmove with
  | .lock _ _, ⟨hreplayable, hkeeps, hunpublished⟩ => h.lock hreplayable hkeeps hunpublished
  | .write, _ => h.write
  | .maintain, _ => h.maintain
  | .markDirty, _ => h.markDirty
  | .label _ _, hapart => h.labelStep hapart
  | .visibility _ _, _ => h.visibilityStep

theorem Fresh.noStaleIndex (h : Fresh codec s.core.graph s.core s.visibility) : s.NoStaleIndex codec := by
  have hvisibility : s.liveVisibilityIndex codec = buildVisibilityIndex codec s.core.graph := by
    unfold Shared.liveVisibilityIndex
    cases hindex : s.visibility.index with
    | none => rfl
    | some index => exact h.shows index hindex
  refine ⟨fun label => ?_, hvisibility, ?_⟩
  · unfold Shared.labelIndexInUse
    cases hindex : s.core.labelIndex with
    | none => rfl
    | some index =>
      refine posting_eq_of_listed fun id => ?_
      rw [Option.getD_some, h.label.stands_listed hindex, listed_buildLabelIndex]
  · intro layer agentId view hproperties hindex id image himage
    unfold canSeeNode visibilityOf
    rw [hindex, hvisibility, get_buildVisibilityIndex, himage]
    rfl

/-- **No stale index survives where batches and label builds stay apart**: once no operation is in
progress, every index in use is the one a rebuild gives. -/
theorem no_stale_index (codec : Codec Blob) (g : Graph Blob) (version : ℕ) (moves : List (Move Blob))
    (hapart : Along (Shared.step codec) (Shared.Apart codec) (Shared.cold g version) moves)
    (hquiet : (run (Shared.step codec) (Shared.cold g version) moves).Quiet) :
    (run (Shared.step codec) (Shared.cold g version) moves).NoStaleIndex codec := by
  have htidy : Tidy codec (run (Shared.step codec) (Shared.cold g version) moves) :=
    run_invariant_along (I := Tidy codec) (fun _ _ => Tidy.step) moves _ hapart (tidy_cold g version)
  exact (htidy.fresh (Option.isNone_iff_eq_none.mp hquiet.held)).noStaleIndex

end Invariant

/-! ### Runs on fixed inputs -/

section Samples

def ownedNode : Json :=
  .object [("_owner", .text "ann"), ("_visibility", .text "private"), ("type", .text "Task")]

def writeMoves (op : WriteOp Json) : List (Move Json) := [.lock true [op], .write, .maintain, .markDirty]

def scanMoves (move : ReaderStep → Move Json) : List (Move Json) :=
  [move .consult, move .readVersion, move .scan]

/-- Both indexes are built between two writes. -/
def apartMoves : List (Move Json) :=
  writeMoves (.addNode "a" ownedNode) ++ scanMoves (.label 0) ++ [.label 0 .publish] ++
    scanMoves (.visibility 0) ++ [.visibility 0 .publish] ++ writeMoves (.addNode "b" ownedNode)

def lateMoves : List (Move Json) :=
  scanMoves (.label 0) ++ writeMoves (.addNode "a" ownedNode) ++ [.label 0 .publish] ++
    writeMoves (.addNode "b" ownedNode)

def sampleShared (moves : List (Move Json)) : Shared Json :=
  run (Shared.step plainCodec) (Shared.cold Graph.empty 0) moves

theorem apart_addNode {g : Graph Json} {id : String} {b : Json} :
    Replayable plainCodec true g [.addNode id b] ∧ KeepsVisibility plainCodec true g [.addNode id b] := by
  refine ⟨Replayable.of_disjoint ?_ ⟨fun _ => trivial, trivial⟩, fun _ _ => rfl, trivial⟩
  intro id b _ hremoved
  simp at hremoved

theorem no_stale_index_sample : (sampleShared apartMoves).core.labelIndex.isSome = true ∧
      (sampleShared apartMoves).visibility.index.isSome = true ∧
      (sampleShared apartMoves).NoStaleIndex plainCodec := by
  refine ⟨by decide +kernel, by decide +kernel,
    no_stale_index plainCodec Graph.empty 0 apartMoves ?_
      ⟨by decide +kernel, by decide +kernel, by decide +kernel, by decide +kernel⟩⟩
  refine ⟨⟨apart_addNode.1, apart_addNode.2, ?_⟩, trivial, trivial, trivial, trivial, trivial, rfl, trivial,
    trivial, trivial, trivial, trivial, ⟨apart_addNode.1, apart_addNode.2, ?_⟩, trivial, trivial, trivial,
    trivial⟩
  · rintro ⟨reader, hready⟩
    cases hready
  · rintro ⟨reader, hready⟩
    cases hready

theorem late_publication_survives :
    (sampleShared lateMoves).Quiet ∧ ¬(sampleShared lateMoves).NoStaleIndex plainCodec := by
  refine ⟨⟨by decide +kernel, by decide +kernel, by decide +kernel, by decide +kernel⟩, fun h => ?_⟩
  have hused : elems (posting ((sampleShared lateMoves).labelIndexInUse plainCodec) "Task") = ["b"] := by
    decide +kernel
  have hrebuilt : elems (posting (buildLabelIndex plainCodec (sampleShared lateMoves).core.graph) "Task") =
      ["a", "b"] := by
    decide +kernel
  have hsame := congrArg elems (h.label "Task")
  rw [hused, hrebuilt] at hsame
  exact absurd hsame (by decide)

end Samples

end Medulla.Index.Interleaving
