import Medulla.CrossShard.Frames

/-! # Atomicity under crashes

For one transaction: as long as its decision is not a durable commit, either none or all of its
operations have taken effect; once it is, what is not yet applied is still prepared. -/

namespace Medulla.CrossShard.Atomicity

open Library.OrderedTable Records Frames

variable {μ : Type} {decisions : Table String Decision}

/-! ### The condition -/

section condition

variable (txn : CrossShardTxn μ)

def Applied (s : Store μ) (slice : GraphSlice μ) : Prop :=
  ∀ i m, slice.methods[i]? = some m → (⟨slice.graphName, txn.txnId, i⟩, m) ∈ s.effects

/-- Every operation of the transaction has taken effect. -/
def AllApplied (s : Store μ) : Prop := ∀ slice ∈ txn.slices, Applied txn s slice

/-- No operation of the transaction has taken effect. -/
def NoneApplied (s : Store μ) : Prop := ∀ e ∈ s.effects, e.1.txnId ≠ txn.txnId

def Committed (t : String) (s : Store μ) : Prop := s.decisionGet t = some true

def Prepared (s : Store μ) (slice : GraphSlice μ) : Prop :=
  ∃ g slices, (s.preparesOf txn.txnId).get g = some slices ∧ slice ∈ slices

/-- What holds of a transaction in every durable state. -/
structure Atomic (s : Store μ) : Prop where
  records : ∀ g slices, (s.preparesOf txn.txnId).get g = some slices →
    ∀ slice ∈ slices, slice ∈ txn.slices
  decided : Committed txn.txnId s → ∀ slice ∈ txn.slices, Prepared txn s slice ∨ Applied txn s slice
  undecided : ¬ Committed txn.txnId s → AllApplied txn s ∨ NoneApplied txn s
  sound : ∀ e ∈ s.effects, e.1.txnId = txn.txnId → ∃ slice ∈ txn.slices,
    slice.graphName = e.1.graph ∧ slice.methods[e.1.ordinal]? = some e.2
  once : ((s.effects.filter fun e => e.1.txnId = txn.txnId).map Prod.fst).Nodup

/-- An operation takes effect only if a commit decision is durable. -/
def AfterCommit (s s' : Store μ) : Prop :=
  ∀ e ∈ s'.effects, e ∉ s.effects → e.1.txnId = txn.txnId → Committed txn.txnId s

end condition

section frame

variable {txn : CrossShardTxn μ} {s s' : Store μ}

theorem mem_effects_of_untouched (h : Untouched txn.txnId s s') {e : Child × μ}
    (he : e.1.txnId = txn.txnId) : e ∈ s'.effects ↔ e ∈ s.effects := by
  have hfilter : e ∈ s'.effects.filter (fun e => e.1.txnId = txn.txnId) ↔
      e ∈ s.effects.filter fun e => e.1.txnId = txn.txnId := by rw [h.effects]
  simpa [he] using hfilter

theorem committed_of_untouched {t : String} (h : Untouched t s s') :
    Committed t s' ↔ Committed t s := by
  unfold Committed Store.decisionGet
  rw [h.decision]

theorem Atomic.of_untouched (ha : Atomic txn s) (h : Untouched txn.txnId s s') : Atomic txn s' := by
  have happlied : ∀ slice, Applied txn s' slice ↔ Applied txn s slice := fun slice =>
    forall_congr' fun i => forall_congr' fun m => imp_congr_right fun _ =>
      mem_effects_of_untouched h rfl
  refine ⟨?_, fun hc slice hs => ?_, fun hc => ?_, fun e he ht => ?_, ?_⟩
  · rw [h.prepares]
    exact ha.records
  · have hdec := ha.decided ((committed_of_untouched h).mp hc) slice hs
    unfold Prepared at hdec ⊢
    rw [h.prepares, happlied]
    exact hdec
  · rcases ha.undecided fun hc' => hc ((committed_of_untouched h).mpr hc') with hall | hnone
    · exact Or.inl fun slice hs => (happlied slice).mpr (hall slice hs)
    · refine Or.inr fun e he ht => hnone e ?_ ht
      exact (mem_effects_of_untouched h ht).mp he
  · exact ha.sound e ((mem_effects_of_untouched h ht).mp he) ht
  · rw [h.effects]
    exact ha.once

theorem afterCommit_of_untouched (h : Untouched txn.txnId s s') : AfterCommit txn s s' :=
  fun _ he hne ht => absurd ((mem_effects_of_untouched h ht).mp he) hne

end frame

/-! ### Writes for the transaction -/

section writes

variable {txn : CrossShardTxn μ} {s : Store μ}

theorem preparesOf_applyRequest (req : Child × μ) (t : String) :
    (s.applyRequest req).preparesOf t = s.preparesOf t := by
  unfold Store.applyRequest
  split_ifs <;> rfl

theorem decisions_applyRequest (req : Child × μ) :
    (s.applyRequest req).decisions = s.decisions := by
  unfold Store.applyRequest
  split_ifs <;> rfl

theorem committed_applyRequest (req : Child × μ) (t : String) :
    Committed t (s.applyRequest req) ↔ Committed t s := by
  unfold Committed Store.decisionGet
  rw [decisions_applyRequest]

theorem Applied.applyRequest {slice : GraphSlice μ} (h : Applied txn s slice) (req : Child × μ) :
    Applied txn (s.applyRequest req) slice :=
  fun i m hm => s.effects_subset_applyRequest req (h i m hm)

theorem slice_unique (hone : (txn.slices.map GraphSlice.graphName).Nodup) {a b : GraphSlice μ}
    (ha : a ∈ txn.slices) (hb : b ∈ txn.slices) (h : a.graphName = b.graphName) : a = b :=
  List.inj_on_of_nodup_map hone ha hb h

theorem Atomic.applyRequest (hone : (txn.slices.map GraphSlice.graphName).Nodup)
    (ha : Atomic txn s) (hc : Committed txn.txnId s) {slice : GraphSlice μ}
    (hs : slice ∈ txn.slices) {i : ℕ} {m : μ} (hm : slice.methods[i]? = some m) :
    Atomic txn (s.applyRequest (⟨slice.graphName, txn.txnId, i⟩, m)) ∧
      (⟨slice.graphName, txn.txnId, i⟩, m) ∈
        (s.applyRequest (⟨slice.graphName, txn.txnId, i⟩, m)).effects := by
  set req : Child × μ := (⟨slice.graphName, txn.txnId, i⟩, m) with hreq
  have hc' := (committed_applyRequest req txn.txnId).mpr hc
  refine ⟨⟨?_, fun _ a hmem => ?_, fun hn => absurd hc' hn, fun e he ht => ?_, ?_⟩, ?_⟩
  · rw [preparesOf_applyRequest]
    exact ha.records
  · rcases ha.decided hc a hmem with hp | hp
    · left
      unfold Prepared
      rw [preparesOf_applyRequest]
      exact hp
    · exact Or.inr (hp.applyRequest req)
  · rcases Store.mem_effects_applyRequest he with he | ⟨rfl, -⟩
    · exact ha.sound e he ht
    · exact ⟨slice, hs, rfl, hm⟩
  · unfold Store.applyRequest
    split_ifs with hany
    · exact ha.once
    · have hnew : req.1 ∉ (s.effects.filter fun e => e.1.txnId = txn.txnId).map Prod.fst := by
        intro hmem
        obtain ⟨e, he, heq⟩ := List.mem_map.mp hmem
        refine hany (List.any_eq_true.mpr ⟨e, (List.mem_filter.mp he).1, ?_⟩)
        simpa using heq
      rw [List.filter_append, List.map_append]
      have hsingle : ([req].filter fun e => e.1.txnId = txn.txnId) = [req] := by simp [hreq]
      rw [hsingle]
      refine List.Nodup.append ha.once (List.nodup_singleton _) ?_
      exact List.disjoint_singleton.mpr hnew
  · unfold Store.applyRequest
    split_ifs with hany
    · obtain ⟨e, he, heq⟩ := List.any_eq_true.mp hany
      have heq' : e.1 = req.1 := by simpa using heq
      obtain ⟨b, hb, hg, hmb⟩ := ha.sound e he (by rw [heq'])
      have hba : b = slice := slice_unique hone hb hs (by rw [hg, heq'])
      rw [hba, heq'] at hmb
      have hem : e.2 = m := Option.some.inj (hmb.symm.trans hm)
      have : e = req := Prod.ext heq' hem
      rwa [← this]
    · simp

theorem afterCommit_applyRequest (hc : Committed txn.txnId s) (req : Child × μ) :
    AfterCommit txn s (s.applyRequest req) :=
  fun _ _ _ _ => hc

theorem afterCommit_of_effects {s' : Store μ} (h : s'.effects = s.effects) :
    AfterCommit txn s s' := by
  intro e he hne _
  rw [h] at he
  exact absurd he hne

theorem get_preparesOf_remove (t : String) (g g' : GroupId) :
    ((s.withPrepares t ((s.preparesOf t).remove g)).preparesOf t).get g' =
      if g' = g then none else (s.preparesOf t).get g' := by
  rw [Store.preparesOf_withPrepares, if_pos rfl, Table.get_remove]

theorem get_preparesOf_insert (t : String) (g g' : GroupId) (slices : List (GraphSlice μ)) :
    ((s.withPrepares t ((s.preparesOf t).insert g slices)).preparesOf t).get g' =
      if g' = g then some slices else (s.preparesOf t).get g' := by
  rw [Store.preparesOf_withPrepares, if_pos rfl, Table.get_insert]

theorem Atomic.prepareClear (ha : Atomic txn s) {g : GroupId}
    (hg : Committed txn.txnId s → ∀ slices, (s.preparesOf txn.txnId).get g = some slices →
      ∀ slice ∈ slices, Applied txn s slice) :
    Atomic txn (s.withPrepares txn.txnId ((s.preparesOf txn.txnId).remove g)) := by
  refine ⟨fun g' slices h => ?_, fun hc slice hs => ?_, ha.undecided, ha.sound, ha.once⟩
  · rw [get_preparesOf_remove] at h
    split_ifs at h
    exact ha.records g' slices h
  · rcases ha.decided hc slice hs with ⟨g', slices, hget, hmem⟩ | happ
    · by_cases hgg : g' = g
      · subst hgg
        exact Or.inr (hg hc slices hget slice hmem)
      · refine Or.inl ⟨g', slices, ?_, hmem⟩
        rw [get_preparesOf_remove, if_neg hgg, hget]
    · exact Or.inr happ

theorem Atomic.preparePut (ha : Atomic txn s) (hn : ¬ Committed txn.txnId s) {g : GroupId}
    {slices : List (GraphSlice μ)} (hs : ∀ slice ∈ slices, slice ∈ txn.slices) :
    Atomic txn (s.withPrepares txn.txnId ((s.preparesOf txn.txnId).insert g slices)) := by
  refine ⟨fun g' slices' h => ?_, fun hc => absurd hc hn, ha.undecided, ha.sound, ha.once⟩
  rw [get_preparesOf_insert] at h
  split_ifs at h
  · cases h
    exact hs
  · exact ha.records g' slices' h

theorem Atomic.decisionRow (ha : Atomic txn s) (hn : ¬ Committed txn.txnId { s with decisions })
    (hall : Committed txn.txnId s → AllApplied txn s) : Atomic txn { s with decisions } := by
  refine ⟨ha.records, fun hc => absurd hc hn, fun _ => ?_, ha.sound, ha.once⟩
  by_cases hc : Committed txn.txnId s
  · exact Or.inl (hall hc)
  · exact ha.undecided hc

theorem Atomic.decideCommit (ha : Atomic txn s) (hc : Committed txn.txnId { s with decisions })
    (hp : ∀ slice ∈ txn.slices, Prepared txn s slice ∨ Applied txn s slice) :
    Atomic txn { s with decisions } :=
  ⟨ha.records, fun _ => hp, fun hn => absurd hc hn, ha.sound, ha.once⟩

end writes

end Medulla.CrossShard.Atomicity
