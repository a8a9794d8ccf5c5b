import Medulla.CrossShard.Atomicity

/-! # The coordinator keeps atomicity

Every call keeps `Atomic` at each of its writes, so a crash anywhere, followed by any recovery
and any retry, finds it.

* the phases: `spec_runPreparePhase`, `spec_applyCommit`, `spec_applyAbort`;
* the calls: `spec_commitCrossShardInner`, `spec_commitCrossShardRecoverable`, `spec_recoverInDoubt`;
* every run: `commit_atomic`. -/

namespace Medulla.CrossShard.CrashSafety

open Library.Durable Library.OrderedTable Records Coordinator
open Frames Atomicity

variable {μ : Type} {txn : CrossShardTxn μ} {p : GroupId × List (GraphSlice μ)}
  {ps : List (GroupId × List (GraphSlice μ))} {s : Store μ} {slice : GraphSlice μ} {t : String}
  {E : GroupId → Prop}

def NoPrepares (t : String) (s : Store μ) : Prop := ∀ g, (s.preparesOf t).get g = none

/-- Participants have different groups and hold slices of the transaction. -/
structure Covers (txn : CrossShardTxn μ) (ps : List (GroupId × List (GraphSlice μ))) : Prop where
  keys : (ps.map Prod.fst).Nodup
  slices : ∀ p ∈ ps, ∀ slice ∈ p.2, slice ∈ txn.slices

theorem Covers.tail (h : Covers txn (p :: ps)) : Covers txn ps :=
  ⟨(List.nodup_cons.mp h.keys).2, fun q hq => h.slices q (.tail _ hq)⟩

theorem Covers.unique (h : Covers txn ps) {g : GroupId} {a b : List (GraphSlice μ)}
    (ha : (g, a) ∈ ps) (hb : (g, b) ∈ ps) : a = b :=
  congrArg Prod.snd (List.inj_on_of_nodup_map h.keys ha hb rfl)

theorem NoPrepares.not_prepared (h : NoPrepares txn.txnId s) (slice : GraphSlice μ) :
    ¬ Prepared txn s slice := by
  rintro ⟨g, slices, hget, -⟩
  rw [h g] at hget
  cases hget

theorem NoPrepares.allApplied (h : NoPrepares txn.txnId s) (ha : Atomic txn s)
    (hc : Committed txn.txnId s) : AllApplied txn s :=
  fun slice hs => (ha.decided hc slice hs).resolve_left (h.not_prepared slice)

/-! ### Applying a commit -/

/-- The commit is being applied and only these participants may still be prepared. -/
structure Committing (txn : CrossShardTxn μ) (ps : List (GroupId × List (GraphSlice μ)))
    (s : Store μ) : Prop where
  atomic : Atomic txn s
  committed : Committed txn.txnId s
  left : ∀ g slices, (s.preparesOf txn.txnId).get g = some slices → (g, slices) ∈ ps

section commit

variable {B : Store μ → Prop}

section
variable (hone : (txn.slices.map GraphSlice.graphName).Nodup)
include hone

theorem Committing.applyRequest (h : Committing txn ps s) (hs : slice ∈ txn.slices) {i : ℕ} {m : μ}
    (hm : slice.methods[i]? = some m) :
    Committing txn ps (s.applyRequest (⟨slice.graphName, txn.txnId, i⟩, m)) := by
  refine ⟨(h.atomic.applyRequest hone h.committed hs hm).1, ?_, ?_⟩
  · exact (committed_applyRequest _ _).mpr h.committed
  · rw [preparesOf_applyRequest]
    exact h.left

theorem spec_clientWrite
    (hB : ∀ s req, B s → B (s.applyRequest req)) (hs : slice ∈ txn.slices) {i : ℕ} {m : μ}
    (hm : slice.methods[i]? = some m) (env : Env μ) :
    Spec (Atomic txn) (AfterCommit txn) (fun s => Committing txn ps s ∧ B s)
      (clientWrite env (⟨slice.graphName, txn.txnId, i⟩, m))
      fun _ s => (Committing txn ps s ∧ B s) ∧ (⟨slice.graphName, txn.txnId, i⟩, m) ∈ s.effects := by
  have hwrite : Spec (Atomic txn) (AfterCommit txn) (fun s => Committing txn ps s ∧ B s)
      (write fun s => .ok (s.applyRequest (⟨slice.graphName, txn.txnId, i⟩, m)))
      fun _ s => (Committing txn ps s ∧ B s) ∧
        (⟨slice.graphName, txn.txnId, i⟩, m) ∈ s.effects := by
    refine spec_write fun s s' h heq => ?_
    cases heq
    have hreq := h.1.atomic.applyRequest hone h.1.committed hs hm
    refine ⟨hreq.1, afterCommit_applyRequest h.1.committed _, ⟨?_, hB s _ h.2⟩, hreq.2⟩
    exact h.1.applyRequest hone hs hm
  unfold clientWrite
  cases env.writeReply _ with
  | refused => exact spec_fail _
  | lost => exact spec_bind hwrite fun _ => spec_fail _
  | done => exact hwrite

theorem spec_applySlice
    (hB : ∀ s req, B s → B (s.applyRequest req)) (hs : slice ∈ txn.slices) (env : Env μ) :
    Spec (Atomic txn) (AfterCommit txn) (fun s => Committing txn ps s ∧ B s)
      (applySlice env txn.txnId slice)
      fun _ s => (Committing txn ps s ∧ B s) ∧ Applied txn s slice := by
  have hread : Spec (Atomic txn) (AfterCommit txn) (fun s => Committing txn ps s ∧ B s)
      (read fun _ => toRequests env txn.txnId slice)
      fun requests s => toRequests env txn.txnId slice = .ok requests ∧ Committing txn ps s ∧ B s :=
    spec_read fun s requests h hr => ⟨hr, h⟩
  refine spec_bind hread fun requests => ?_
  -- what is left of the requests; those before are in the log
  have hloop := spec_forEach (I := Atomic txn) (G := AfterCommit txn) (f := clientWrite env)
    (A := fun rest s => (toRequests env txn.txnId slice = .ok requests ∧ rest ⊆ requests) ∧
      Committing txn ps s ∧ B s ∧ ∀ req ∈ requests, req ∈ rest ∨ req ∈ s.effects) ?_ requests
  · refine hloop.weaken (fun s h => ?_) fun _ s h => ?_
    · exact ⟨⟨h.1, List.Subset.refl _⟩, h.2.1, h.2.2, fun req hreq => Or.inl hreq⟩
    · refine ⟨⟨h.2.1, h.2.2.1⟩, fun i m hm => ?_⟩
      have hreq := (mem_toRequests h.1.1 _).mpr ⟨i, m, hm, rfl⟩
      exact (h.2.2.2 _ hreq).resolve_left (List.not_mem_nil)
  · intro x xs
    refine spec_assume fun hpure => ?_
    obtain ⟨i, m, hm, rfl⟩ := (mem_toRequests hpure.1 x).mp (hpure.2 (.head _))
    have hmono : ∀ (s : Store μ) (req : Child × μ),
        (B s ∧ ∀ r ∈ requests, r ∈ (⟨slice.graphName, txn.txnId, i⟩, m) :: xs ∨ r ∈ s.effects) →
        B (s.applyRequest req) ∧ ∀ r ∈ requests,
          r ∈ (⟨slice.graphName, txn.txnId, i⟩, m) :: xs ∨ r ∈ (s.applyRequest req).effects :=
      fun s req h => ⟨hB s req h.1, fun r hr =>
        (h.2 r hr).imp_right fun hmem => s.effects_subset_applyRequest req hmem⟩
    refine (spec_clientWrite hone hmono hs hm env).post fun _ s h => ?_
    refine ⟨⟨hpure.1, fun r hr => hpure.2 (.tail _ hr)⟩, h.1.1, h.1.2.1, ?_⟩
    intro r hr
    rcases h.1.2.2 r hr with hmem | hmem
    · rcases List.mem_cons.mp hmem with rfl | hmem
      · exact Or.inr h.2
      · exact Or.inl hmem
    · exact Or.inr hmem

theorem spec_applyParticipant (env : Env μ)
    (hcov : Covers txn (p :: ps)) :
    Spec (Atomic txn) (AfterCommit txn) (Committing txn (p :: ps))
      (applyParticipant env txn.txnId p) fun _ => Committing txn ps := by
  refine spec_ite (fun _ => spec_fail _) fun _ => ?_
  have hmem := hcov.slices p (.head _)
  have hloop := spec_forEach (I := Atomic txn) (G := AfterCommit txn)
    (f := applySlice env txn.txnId)
    (A := fun rest s => rest ⊆ p.2 ∧ Committing txn (p :: ps) s ∧
      ∀ slice ∈ p.2, slice ∈ rest ∨ Applied txn s slice) ?_ p.2
  · refine spec_bind (hloop.pre fun s h => ?_) fun _ => ?_
    · exact ⟨List.Subset.refl _, h, fun slice hs => Or.inl hs⟩
    · refine spec_write fun s s' ⟨_, h, hdone⟩ heq => ?_
      cases heq
      have happ : ∀ slice ∈ p.2, Applied txn s slice := fun slice hs =>
        (hdone slice hs).resolve_left (List.not_mem_nil)
      have hatomic := h.atomic.prepareClear (g := p.1) fun _ slices hget => by
        have heq : slices = p.2 := hcov.unique (h.left _ _ hget) (.head _)
        rw [heq]
        exact happ
      refine ⟨hatomic, afterCommit_of_effects rfl, hatomic, h.committed, fun g slices hget => ?_⟩
      rw [get_preparesOf_remove] at hget
      split_ifs at hget with hg
      rcases List.mem_cons.mp (h.left g slices hget) with heq | hrest
      · exact absurd (congrArg Prod.fst heq) hg
      · exact hrest
  · intro slice rest
    refine spec_assume fun hsub => ?_
    have hs := hmem slice (hsub (.head _))
    have hmono : ∀ (s : Store μ) (req : Child × μ),
        (∀ a ∈ p.2, a ∈ slice :: rest ∨ Applied txn s a) →
        ∀ a ∈ p.2, a ∈ slice :: rest ∨ Applied txn (s.applyRequest req) a :=
      fun s req h a ha => (h a ha).imp_right fun happ => happ.applyRequest req
    refine (spec_applySlice hone hmono hs env).post fun _ s h => ?_
    refine ⟨fun a ha => hsub (.tail _ ha), h.1.1, fun a ha => ?_⟩
    rcases h.1.2 a ha with hr | happ
    · rcases List.mem_cons.mp hr with rfl | hr
      · exact Or.inr h.2
      · exact Or.inl hr
    · exact Or.inr happ

end

theorem Committing.noPrepares (h : Committing txn [] s) : NoPrepares txn.txnId s := by
  intro g
  rcases hget : (s.preparesOf txn.txnId).get g with _ | slices
  · rfl
  · exact absurd (h.left g slices hget) (List.not_mem_nil)

theorem spec_decisionClear :
    Spec (Atomic txn) (AfterCommit txn) (fun s => Atomic txn s ∧ NoPrepares txn.txnId s)
      (xshardDecisionClear txn.txnId) fun _ s => Atomic txn s ∧ NoPrepares txn.txnId s := by
  refine spec_write fun s s' ⟨ha, hp⟩ heq => ?_
  cases heq
  have hatomic : Atomic txn { s with decisions := s.decisions.remove txn.txnId } := by
    refine ha.decisionRow ?_ (hp.allApplied ha)
    unfold Committed Store.decisionGet
    rw [Table.get_remove_self]
    exact nofun
  exact ⟨hatomic, afterCommit_of_effects rfl, hatomic, hp⟩

/-- **A commit that is applied to its end** leaves no prepare record. -/
theorem spec_applyCommit (hone : (txn.slices.map GraphSlice.graphName).Nodup) (env : Env μ)
    (hcov : Covers txn ps) (clear : Bool) :
    Spec (Atomic txn) (AfterCommit txn) (Committing txn ps)
      (applyCommit env txn.txnId ps clear)
      fun _ s => Atomic txn s ∧ NoPrepares txn.txnId s := by
  have hloop := spec_forEach (I := Atomic txn) (G := AfterCommit txn)
    (A := fun rest s => Covers txn rest ∧ Committing txn rest s)
    (fun p rest => spec_assume fun hcov =>
      (spec_applyParticipant hone env hcov).post fun _ s h => ⟨hcov.tail, h⟩) ps
  refine spec_bind (hloop.pre fun s h => ⟨hcov, h⟩) fun _ => ?_
  refine spec_ite (fun _ => ?_) fun _ => ?_
  · exact spec_decisionClear.pre fun s h => ⟨h.2.atomic, h.2.noPrepares⟩
  · exact spec_pure fun s h => ⟨h.2.atomic, h.2.noPrepares⟩

end commit

/-! ### Cleaning up an abort -/

section abort

/-- No commit decision, and only these groups may have a prepare record. -/
structure Aborting (txn : CrossShardTxn μ) (E : GroupId → Prop) (s : Store μ) : Prop where
  atomic : Atomic txn s
  undecided : ¬ Committed txn.txnId s
  left : ∀ g slices, (s.preparesOf txn.txnId).get g = some slices → E g

theorem spec_prepareClear_abort (g : GroupId) :
    Spec (Atomic txn) (AfterCommit txn) (Aborting txn E) (xshardPrepareClear txn.txnId g)
      fun _ => Aborting txn fun g' => g' ≠ g ∧ E g' := by
  refine spec_write fun s s' h heq => ?_
  cases heq
  have hatomic := h.atomic.prepareClear (g := g) fun hc => absurd hc h.undecided
  refine ⟨hatomic, afterCommit_of_effects rfl, hatomic, h.undecided, fun g' slices hget => ?_⟩
  rw [get_preparesOf_remove] at hget
  split_ifs at hget with hg
  exact ⟨hg, h.left g' slices hget⟩

theorem spec_decisionClear_abort :
    Spec (Atomic txn) (AfterCommit txn) (Aborting txn E) (xshardDecisionClear txn.txnId)
      fun _ => Aborting txn E := by
  refine spec_write fun s s' h heq => ?_
  cases heq
  have hn : ¬ Committed txn.txnId { s with decisions := s.decisions.remove txn.txnId } := by
    unfold Committed Store.decisionGet
    rw [Table.get_remove_self]
    exact nofun
  have hatomic := h.atomic.decisionRow hn fun hc => absurd hc h.undecided
  exact ⟨hatomic, afterCommit_of_effects rfl, hatomic, hn, h.left⟩

/-- **An abort** clears the records of the groups it names. -/
theorem spec_applyAbort (gs : List GroupId) (clear : Bool) :
    Spec (Atomic txn) (AfterCommit txn) (Aborting txn E) (applyAbort txn.txnId gs clear)
      fun _ => Aborting txn fun g => g ∉ gs ∧ E g := by
  have hloop := spec_forEach (I := Atomic txn) (G := AfterCommit txn)
    (A := fun rest => Aborting txn fun g => (g ∈ gs → g ∈ rest) ∧ E g)
    (fun g rest => (spec_prepareClear_abort g).post fun _ s h => ⟨h.atomic, h.undecided, ?_⟩) gs
  · refine spec_bind (hloop.pre fun s h => ?_) fun _ => ?_
    · exact ⟨h.atomic, h.undecided, fun g slices hget => ⟨id, h.left g slices hget⟩⟩
    · have hend : ∀ s : Store μ, Aborting txn (fun g => (g ∈ gs → g ∈ ([] : List GroupId)) ∧ E g) s →
          Aborting txn (fun g => g ∉ gs ∧ E g) s := fun s h =>
        ⟨h.atomic, h.undecided, fun g slices hget =>
          ⟨fun hg => absurd ((h.left g slices hget).1 hg) List.not_mem_nil, (h.left g slices hget).2⟩⟩
      refine spec_ite (fun _ => spec_decisionClear_abort.weaken hend fun _ _ => id) fun _ => ?_
      exact spec_pure hend
  · intro g' slices hget
    obtain ⟨hne, hin, hE⟩ := h.left g' slices hget
    exact ⟨fun hg => (List.mem_cons.mp (hin hg)).resolve_left hne, hE⟩

end abort

/-! ### Asking the participants -/

structure Asking (txn : CrossShardTxn μ) (writing : List (GroupId × List (GraphSlice μ)))
    (votes : List (GroupId × Vote)) (s : Store μ) : Prop where
  atomic : Atomic txn s
  undecided : ¬ Committed txn.txnId s
  left : ∀ g slices, (s.preparesOf txn.txnId).get g = some slices → (g, slices) ∈ writing
  yes : ∀ v ∈ votes, v.2.isYes = true → ∀ slices, (v.1, slices) ∈ writing →
    (s.preparesOf txn.txnId).get v.1 = some slices

section prepare

variable {writing : List (GroupId × List (GraphSlice μ))} {votes : List (GroupId × Vote)}

theorem Asking.preparePut (hcov : Covers txn writing) (h : Asking txn writing votes s)
    (hp : p ∈ writing) :
    Asking txn writing votes
      (s.withPrepares txn.txnId ((s.preparesOf txn.txnId).insert p.1 p.2)) := by
  refine ⟨h.atomic.preparePut h.undecided (hcov.slices p hp), h.undecided, ?_, ?_⟩
  · intro g slices hget
    rw [get_preparesOf_insert] at hget
    split_ifs at hget with hg
    · cases hget
      rw [hg]
      exact hp
    · exact h.left g slices hget
  · intro v hv hyes slices hmem
    rw [get_preparesOf_insert]
    split_ifs with hg
    · rw [hg] at hmem
      rw [hcov.unique hp hmem]
    · exact h.yes v hv hyes slices hmem

theorem Asking.vote (h : Asking txn writing votes s) {g : GroupId} {vote : Vote}
    (hyes : vote.isYes = true → ∀ slices, (g, slices) ∈ writing →
      (s.preparesOf txn.txnId).get g = some slices) :
    Asking txn writing (votes ++ [(g, vote)]) s := by
  refine ⟨h.atomic, h.undecided, h.left, fun v hv => ?_⟩
  rcases List.mem_append.mp hv with hv | hv
  · exact h.yes v hv
  · rw [List.mem_singleton.mp hv]
    exact hyes

theorem spec_prepareParticipant (hcov : Covers txn writing) (env : Env μ) (hp : p ∈ writing) :
    Spec (Atomic txn) (AfterCommit txn) (Asking txn writing votes)
      (prepareParticipant env txn.txnId p.1 p.2)
      fun vote => Asking txn writing (votes ++ [(p.1, vote)]) := by
  have hput : Spec (Atomic txn) (AfterCommit txn) (Asking txn writing votes)
      (xshardPreparePut txn.txnId p.1 p.2) fun _ s => Asking txn writing votes s ∧
        (s.preparesOf txn.txnId).get p.1 = some p.2 := by
    refine spec_write fun s s' h heq => ?_
    cases heq
    have hask := h.preparePut hcov hp
    refine ⟨hask.atomic, afterCommit_of_effects rfl, hask, ?_⟩
    rw [get_preparesOf_insert, if_pos rfl]
  refine spec_ite (fun _ => spec_pure fun s h => h.vote nofun) fun _ => ?_
  refine spec_ite (fun _ => spec_pure fun s h => h.vote nofun) fun _ => ?_
  refine spec_ite (fun _ => spec_pure fun s h => h.vote nofun) fun _ => ?_
  refine spec_ite (fun _ => spec_pure fun s h => h.vote nofun) fun _ => ?_
  cases env.prepareReply p.1 with
  | refused => exact spec_pure fun s h => h.vote nofun
  | lost => exact spec_bind hput fun _ => spec_pure fun s h => h.1.vote nofun
  | done =>
    refine spec_bind hput fun _ => spec_pure fun s h => h.1.vote fun _ slices hmem => ?_
    rw [h.2, hcov.unique hp hmem]

/-- **The prepare phase.** If every participant said yes, all are on record; in any case nothing
else is. -/
theorem spec_runPreparePhase (hcov : Covers txn writing) (env : Env μ) :
    Spec (Atomic txn) (AfterCommit txn)
      (fun s => Atomic txn s ∧ ¬ Committed txn.txnId s ∧ NoPrepares txn.txnId s)
      (runPreparePhase env txn.txnId writing) fun r s => Asking txn writing [] s ∧
        (r.1 = true → ∀ p ∈ writing, (s.preparesOf txn.txnId).get p.1 = some p.2) := by
  have hperm := env.order_perm writing
  -- the voters so far and those to be asked are the participants, in the order of the disk
  have hloop := spec_collect (I := Atomic txn) (G := AfterCommit txn)
    (f := fun p => do
      let vote ← prepareParticipant env txn.txnId p.1 p.2
      return (p.1, vote))
    (A := fun rest votes s => (rest ⊆ writing ∧
      votes.map Prod.fst ++ rest.map Prod.fst = (env.order writing).map Prod.fst) ∧
      Asking txn writing votes s) ?_ (env.order writing) []
  · refine spec_bind (hloop.pre fun s h => ⟨⟨hperm.subset, rfl⟩, h.1, h.2.1, ?_, ?_⟩) fun votes => ?_
    · intro g slices hget
      rw [h.2.2 g] at hget
      cases hget
    · exact fun v hv => absurd hv List.not_mem_nil
    · refine spec_pure fun s h => ⟨⟨h.2.atomic, h.2.undecided, h.2.left, ?_⟩, fun hall p hp => ?_⟩
      · exact fun v hv => absurd hv List.not_mem_nil
      · have hkey : p.1 ∈ votes.map Prod.fst := by
          have hkeys := h.1.2
          simp only [List.nil_append, List.map_nil, List.append_nil] at hkeys
          rw [hkeys]
          exact List.mem_map_of_mem (hperm.symm.subset hp)
        obtain ⟨v, hv, hvp⟩ := List.mem_map.mp hkey
        have hyes := List.all_eq_true.mp hall v hv
        rw [← hvp]
        refine h.2.yes v (by simpa using hv) hyes p.2 ?_
        rw [hvp]
        exact hp
  · intro p rest voted
    refine spec_assume fun ⟨hsub, hkeys⟩ => ?_
    have hp := hsub (.head _)
    refine spec_bind (spec_prepareParticipant hcov env hp) fun vote => spec_pure fun s h => ?_
    refine ⟨⟨fun q hq => hsub (.tail _ hq), ?_⟩, h⟩
    rw [← hkeys]
    simp

end prepare

/-! ### Decisions -/

theorem outcome_of_merge {current : Option Decision} {commit retain : Bool} {d : Decision}
    (h : mergeCoordinatorDecision current (.terminal commit retain) = .ok d) :
    d.outcome = some commit := by
  rcases current with _ | _ | ⟨commit', retain'⟩
  · cases h
    rfl
  · cases h
    rfl
  · rw [mergeCoordinatorDecision] at h
    split_ifs at h with hc
    cases h
    rw [hc]
    rfl

theorem outcome_of_merge_pending {current : Option Decision} {d : Decision}
    (h : mergeCoordinatorDecision current .pending = .ok d) : d.outcome = none := by
  rcases current with _ | _ | ⟨commit', retain'⟩
  · cases h
    rfl
  · cases h
    rfl
  · cases h

theorem putDecision_row {s' : Store μ} {requested : Decision} (h : (do
      let merged ← mergeCoordinatorDecision (s.decisions.get t) requested
      return { s with decisions := s.decisions.insert t merged }) = Except.ok s') :
    ∃ merged, mergeCoordinatorDecision (s.decisions.get t) requested = .ok merged ∧
      s' = { s with decisions := s.decisions.insert t merged } := by
  rcases hm : mergeCoordinatorDecision (s.decisions.get t) requested with e | merged
  · rw [hm] at h
    cases h
  · rw [hm] at h
    cases h
    exact ⟨merged, rfl, rfl⟩

theorem decisionGet_insert (s : Store μ) (t : String) (d : Decision) :
    ({ s with decisions := s.decisions.insert t d } : Store μ).decisionGet t = d.outcome := by
  unfold Store.decisionGet
  rw [Table.get_insert_self]
  rfl

theorem spec_putDecision_abort {requested : Decision}
    (hreq : ∀ current d, mergeCoordinatorDecision current requested = .ok d →
      d.outcome ≠ some true) :
    Spec (Atomic txn) (AfterCommit txn) (Aborting txn E) (putDecision txn.txnId requested)
      fun _ => Aborting txn E := by
  refine spec_write fun s s' h hs => ?_
  obtain ⟨merged, hm, rfl⟩ := putDecision_row hs
  have hn : ¬ Committed txn.txnId { s with decisions := s.decisions.insert txn.txnId merged } := by
    unfold Committed
    rw [decisionGet_insert]
    exact hreq _ _ hm
  have hatomic := h.atomic.decisionRow hn fun hc => absurd hc h.undecided
  exact ⟨hatomic, afterCommit_of_effects rfl, hatomic, hn, h.left⟩

theorem spec_putAbort (retain : Bool) : Spec (Atomic txn) (AfterCommit txn) (Aborting txn E)
      (putDecision txn.txnId (.terminal false retain)) fun _ => Aborting txn E :=
  spec_putDecision_abort fun _ d hd => by
    rw [outcome_of_merge hd]
    exact nofun

theorem spec_putPending :
    Spec (Atomic txn) (AfterCommit txn) (Aborting txn E) (xshardRecoverablePendingPut txn.txnId)
      fun _ => Aborting txn E :=
  spec_putDecision_abort fun _ d hd => by
    rw [outcome_of_merge_pending hd]
    exact nofun

theorem spec_putCommit (ps : List (GroupId × List (GraphSlice μ))) (retain : Bool) :
    Spec (Atomic txn) (AfterCommit txn)
      (fun s => Atomic txn s ∧ (∀ slice ∈ txn.slices, Prepared txn s slice ∨ Applied txn s slice) ∧
        ∀ g slices, (s.preparesOf txn.txnId).get g = some slices → (g, slices) ∈ ps)
      (putDecision txn.txnId (.terminal true retain)) fun _ => Committing txn ps := by
  refine spec_write fun s s' h hs => ?_
  obtain ⟨merged, hm, rfl⟩ := putDecision_row hs
  have hc : Committed txn.txnId { s with decisions := s.decisions.insert txn.txnId merged } := by
    unfold Committed
    rw [decisionGet_insert, outcome_of_merge hm]
  have hatomic := h.1.decideCommit hc h.2.1
  exact ⟨hatomic, afterCommit_of_effects rfl, hatomic, hc, h.2.2⟩

/-! ### The protocol -/

section protocol

theorem mem_participants {env : Env μ} (hp : p ∈ participants env txn) :
    p.2 = txn.slices.filter fun slice => env.groupOf slice.graphName = p.1 := by
  obtain ⟨g, -, rfl⟩ := List.mem_map.mp hp
  rfl

theorem covers_participants (env : Env μ) (txn : CrossShardTxn μ) : Covers txn (participants env txn) := by
  constructor
  · have hkeys : (participants env txn).map Prod.fst =
        (txn.slices.map fun slice => env.groupOf slice.graphName).dedup.insertionSort (· ≤ ·) := by
      unfold participants
      rw [List.map_map]
      exact List.map_id _
    rw [hkeys]
    exact ((List.perm_insertionSort _ _).nodup_iff).mpr (List.nodup_dedup _)
  · intro p hp slice hs
    rw [mem_participants hp] at hs
    exact (List.mem_filter.mp hs).1

theorem Covers.filter (h : Covers txn ps) (f : GroupId × List (GraphSlice μ) → Bool) :
    Covers txn (ps.filter f) :=
  ⟨h.keys.sublist (List.filter_sublist.map _), fun p hp => h.slices p (List.mem_filter.mp hp).1⟩

theorem exists_participant (env : Env μ) (hs : slice ∈ txn.slices) :
    ∃ p ∈ participants env txn, slice ∈ p.2 := by
  refine ⟨(env.groupOf slice.graphName,
    txn.slices.filter fun a => env.groupOf a.graphName = env.groupOf slice.graphName), ?_, ?_⟩
  · refine List.mem_map.mpr ⟨env.groupOf slice.graphName, ?_, rfl⟩
    rw [List.mem_insertionSort, List.mem_dedup]
    exact List.mem_map_of_mem hs
  · exact List.mem_filter.mpr ⟨hs, by simp⟩

theorem applied_of_readsOnly (hp : readsOnly p = true) (hs : slice ∈ p.2) (s : Store μ) :
    Applied txn s slice := by
  have hempty := List.all_eq_true.mp hp slice hs
  rw [List.isEmpty_iff] at hempty
  intro i m hm
  rw [hempty] at hm
  cases hm

theorem covered_of_writing (env : Env μ)
    (h : ∀ p ∈ (participants env txn).filter fun p => !readsOnly p,
      (s.preparesOf txn.txnId).get p.1 = some p.2) :
    ∀ slice ∈ txn.slices, Prepared txn s slice ∨ Applied txn s slice := by
  intro slice hs
  obtain ⟨p, hp, hmem⟩ := exists_participant env hs
  by_cases hr : readsOnly p = true
  · exact Or.inr (applied_of_readsOnly hr hmem s)
  · refine Or.inl ⟨p.1, p.2, h p (List.mem_filter.mpr ⟨hp, ?_⟩), hmem⟩
    simpa using hr

abbrev Startable (txn : CrossShardTxn μ) : Store μ → Prop := Aborting txn fun _ => False

theorem Aborting.noPrepares (h : Startable txn s) : NoPrepares txn.txnId s := by
  intro g
  rcases hget : (s.preparesOf txn.txnId).get g with _ | slices
  · rfl
  · exact (h.left g slices hget).elim

theorem spec_recordCommit (ps : List (GroupId × List (GraphSlice μ))) (retain : Bool) :
    Spec (Atomic txn) (AfterCommit txn)
      (fun s => Atomic txn s ∧ (∀ slice ∈ txn.slices, Prepared txn s slice ∨ Applied txn s slice) ∧
        ∀ g slices, (s.preparesOf txn.txnId).get g = some slices → (g, slices) ∈ ps)
      (recordDecision txn.txnId true retain) fun _ => Committing txn ps :=
  spec_ite (fun _ => spec_putCommit ps true) fun _ => spec_putCommit ps false

theorem spec_recordAbort (retain : Bool) : Spec (Atomic txn) (AfterCommit txn) (Aborting txn E)
      (recordDecision txn.txnId false retain) fun _ => Aborting txn E :=
  spec_ite (fun _ => spec_putAbort true) fun _ => spec_putAbort false

theorem spec_commitWriting (hone : (txn.slices.map GraphSlice.graphName).Nodup) (env : Env μ)
    {writing : List (GroupId × List (GraphSlice μ))} (hcov : Covers txn writing)
    (hall : ∀ s : Store μ, (∀ p ∈ writing, (s.preparesOf txn.txnId).get p.1 = some p.2) →
      ∀ slice ∈ txn.slices, Prepared txn s slice ∨ Applied txn s slice) (retain : Bool) :
    Spec (Atomic txn) (AfterCommit txn) (Startable txn)
      (commitWriting env txn.txnId writing retain) fun _ => Atomic txn := by
  refine spec_bind ((spec_runPreparePhase hcov env).pre fun s h =>
    ⟨h.atomic, h.undecided, h.noPrepares⟩) fun (allYes, prepared) => ?_
  dsimp only
  rcases hcommit : allYes && decide (prepared.length = writing.length) with _ | _
  · refine spec_bind ((spec_recordAbort (E := fun _ => True) retain).pre fun s h =>
      ⟨h.1.atomic, h.1.undecided, fun _ _ _ => trivial⟩) fun _ => ?_
    exact spec_bind (spec_applyAbort prepared (!retain)) fun _ => spec_pure fun s h => h.atomic
  · have hyes : allYes = true := (Bool.and_eq_true _ _ ▸ hcommit).1
    refine spec_bind ((spec_recordCommit writing retain).pre fun s h =>
      ⟨h.1.atomic, hall s (h.2 hyes), h.1.left⟩) fun _ => ?_
    exact spec_bind (spec_applyCommit hone env hcov (!retain)) fun _ => spec_pure fun s h => h.1

/-- **Two-phase commit** keeps the condition at each of its writes. -/
theorem spec_commitCrossShardInner (hone : (txn.slices.map GraphSlice.graphName).Nodup)
    (env : Env μ) (retain : Bool) :
    Spec (Atomic txn) (AfterCommit txn) (Startable txn) (commitCrossShardInner env txn retain)
      fun _ => Atomic txn := by
  refine spec_ite (fun _ => spec_fail _) fun _ => ?_
  have hstart : Spec (Atomic txn) (AfterCommit txn) (Startable txn)
      (onlyIf retain (xshardRecoverablePendingPut txn.txnId)) fun _ => Startable txn :=
    spec_ite (fun _ => spec_putPending) fun _ => spec_pure fun s h => h
  refine spec_bind hstart fun _ => ?_
  have hcov := (covers_participants env txn).filter fun p => !readsOnly p
  refine spec_ite (fun _ => ?_) fun _ => spec_ite (fun hempty => ?_) fun _ => ?_
  · have hput : Spec (Atomic txn) (AfterCommit txn) (Startable txn)
        (onlyIf retain (xshardRecoverableDecisionPut txn.txnId false)) fun _ => Startable txn :=
      spec_ite (fun _ => spec_putAbort true) fun _ => spec_pure fun s h => h
    exact spec_bind hput fun _ => spec_pure fun s h => h.atomic
  · have hput : Spec (Atomic txn) (AfterCommit txn) (Startable txn)
        (onlyIf retain (xshardRecoverableDecisionPut txn.txnId true)) fun _ => Atomic txn := by
      refine spec_ite (fun _ => ?_) fun _ => spec_pure fun s h => h.atomic
      refine (spec_putCommit [] true).weaken (fun s h => ⟨h.atomic, ?_, ?_⟩)
        fun _ s h => h.atomic
      · refine covered_of_writing env fun p hp => ?_
        rw [List.isEmpty_iff.mp hempty] at hp
        exact absurd hp List.not_mem_nil
      · exact fun g slices hget => (h.left g slices hget).elim
    exact spec_bind hput fun _ => spec_pure fun s h => h
  · exact spec_commitWriting hone env hcov (fun s h => covered_of_writing env h) retain

theorem covers_rows (h : Atomic txn s) : Covers txn (s.preparesOf txn.txnId).rows := by
  refine ⟨?_, fun p hp => h.records p.1 p.2 (Table.mem_rows.mp hp)⟩
  have hsorted := (s.preparesOf txn.txnId).sorted
  exact (List.pairwise_map.mpr hsorted).imp ne_of_lt

theorem committing_rows (h : Atomic txn s) (hc : Committed txn.txnId s) :
    Committing txn (s.preparesOf txn.txnId).rows s :=
  ⟨h, hc, fun _ _ hget => Table.mem_rows.mpr hget⟩

theorem aborting_rows (h : Atomic txn s) (hn : ¬ Committed txn.txnId s) :
    Aborting txn (fun g => g ∈ (s.preparesOf txn.txnId).rows.map Prod.fst) s :=
  ⟨h, hn, fun _ _ hget => List.mem_map_of_mem (f := Prod.fst) (Table.mem_rows.mpr hget)⟩

/-- **A recoverable commit** keeps the condition, whatever an earlier attempt left. -/
theorem spec_commitCrossShardRecoverable (hone : (txn.slices.map GraphSlice.graphName).Nodup)
    (env : Env μ) :
    Spec (Atomic txn) (AfterCommit txn) (Atomic txn) (commitCrossShardRecoverable env txn)
      fun _ => Atomic txn := by
  refine spec_bind (R := fun prepared s => Atomic txn s ∧ prepared = (s.preparesOf txn.txnId).rows)
    (spec_read fun s prepared h hr => ⟨h, (Except.ok.inj hr).symm⟩) fun prepared => ?_
  refine spec_bind (R := fun decision s => (Atomic txn s ∧
      prepared = (s.preparesOf txn.txnId).rows) ∧ decision = s.decisionGet txn.txnId)
    (spec_read fun s decision h hr => ⟨h, (Except.ok.inj hr).symm⟩) fun decision => ?_
  match decision with
  | some true =>
    refine spec_bind (R := fun _ => Atomic txn) (fun s hs => ?_) fun _ => spec_pure fun s h => h
    obtain ⟨⟨ha, rfl⟩, hd⟩ := hs
    exact ((spec_applyCommit hone env (covers_rows ha) false).post fun _ s h => h.1) s
      (committing_rows ha hd.symm)
  | some false =>
    refine spec_bind (R := fun _ => Atomic txn) (fun s hs => ?_) fun _ => spec_pure fun s h => h
    obtain ⟨⟨ha, rfl⟩, hd⟩ := hs
    have hn : ¬ Committed txn.txnId s := by
      unfold Committed
      rw [← hd]
      exact nofun
    exact ((spec_applyAbort _ false).post fun _ s h => h.atomic) s (aborting_rows ha hn)
  | none =>
    refine spec_bind (R := fun _ s => (Atomic txn s ∧ prepared = (s.preparesOf txn.txnId).rows) ∧
      none = s.decisionGet txn.txnId) (spec_read fun s _ h _ => h) fun started => ?_
    have hn : ∀ s : Store μ, none = s.decisionGet txn.txnId → ¬ Committed txn.txnId s := by
      intro s hd
      unfold Committed
      rw [← hd]
      exact nofun
    refine spec_ite (fun _ => ?_) fun hfree => ?_
    · refine spec_bind ((spec_putAbort (E := fun _ => True) true).pre fun s h =>
        ⟨h.1.1, hn s h.2, fun _ _ _ => trivial⟩) fun _ => ?_
      exact spec_bind (spec_applyAbort _ false) fun _ => spec_pure fun s h => h.atomic
    · have hempty : started = false ∧ prepared = [] := by simpa using hfree
      refine (spec_commitCrossShardInner hone env true).pre fun s h => ?_
      refine ⟨h.1.1, hn s h.2, fun g slices hget => ?_⟩
      have hrow := Table.mem_rows.mpr hget
      rw [← h.1.2, hempty.2] at hrow
      exact absurd hrow List.not_mem_nil

end protocol

/-! ### Recovery -/

/-- Recovery is in progress: what is left to resolve of the transaction is what is on record. -/
structure Recovering (txn : CrossShardTxn μ)
    (rest : List (String × List (GroupId × List (GraphSlice μ)))) (s : Store μ) : Prop where
  atomic : Atomic txn s
  keys : (rest.map Prod.fst).Nodup
  rows : ∀ r ∈ rest, r.1 = txn.txnId → r.2 = (s.preparesOf txn.txnId).rows
  resolved : txn.txnId ∉ rest.map Prod.fst → NoPrepares txn.txnId s

section recovery

theorem noPrepares_of_rows (h : (s.preparesOf t).rows = []) : NoPrepares t s := by
  intro g
  unfold Table.get
  rw [h]
  rfl

theorem recovering_start (ha : Atomic txn s) : Recovering txn (preparesByTxn s) s := by
  refine ⟨ha, ?_, fun r hr heq => ?_, fun hout => ?_⟩
  · have hall : ((s.prepares.rows.map fun r => (r.1, r.2.rows)).map Prod.fst).Nodup := by
      rw [List.map_map]
      exact (List.pairwise_map.mpr s.prepares.sorted).imp ne_of_lt
    exact hall.sublist (List.filter_sublist.map _)
  · obtain ⟨row, hrow, rfl⟩ := List.mem_map.mp (List.mem_filter.mp hr).1
    unfold Store.preparesOf
    rw [← heq, Table.mem_rows.mp hrow]
    rfl
  · apply noPrepares_of_rows
    unfold Store.preparesOf
    rcases hget : s.prepares.get txn.txnId with _ | table
    · rfl
    · by_contra hne
      refine hout (List.mem_map.mpr ⟨(txn.txnId, table.rows), List.mem_filter.mpr ⟨?_, ?_⟩, rfl⟩)
      · exact List.mem_map.mpr ⟨(txn.txnId, table), Table.mem_rows.mpr hget, rfl⟩
      · simpa using hne

theorem noPrepares_of_untouched {s' : Store μ} (h : Untouched t s s') :
    NoPrepares t s → NoPrepares t s' := by
  intro hp g
  rw [h.prepares]
  exact hp g

theorem spec_abortAll (gs : List GroupId) (clear : Bool) :
    Spec (Atomic txn) (AfterCommit txn) (Aborting txn fun g => g ∈ gs)
      (applyAbort txn.txnId gs clear) fun _ s => Atomic txn s ∧ NoPrepares txn.txnId s := by
  refine (spec_applyAbort gs clear).post fun _ s h => ⟨h.atomic, fun g => ?_⟩
  rcases hget : (s.preparesOf txn.txnId).get g with _ | slices
  · rfl
  · exact absurd (h.left g slices hget).2 (h.left g slices hget).1

theorem spec_resolveInDoubt (hone : (txn.slices.map GraphSlice.graphName).Nodup) (env : Env μ)
    (rows : List (GroupId × List (GraphSlice μ))) :
    Spec (Atomic txn) (AfterCommit txn)
      (fun s => Atomic txn s ∧ rows = (s.preparesOf txn.txnId).rows)
      (resolveInDoubt env (txn.txnId, rows))
      fun _ s => Atomic txn s ∧ NoPrepares txn.txnId s := by
  refine spec_bind (R := fun _ s => Atomic txn s ∧ rows = (s.preparesOf txn.txnId).rows)
    (spec_read fun s _ h _ => h) fun retain => ?_
  refine spec_bind (R := fun decision s => (Atomic txn s ∧
      rows = (s.preparesOf txn.txnId).rows) ∧ decision = s.decisionGet txn.txnId)
    (spec_read fun s decision h hr => ⟨h, (Except.ok.inj hr).symm⟩) fun decision => ?_
  have habort : ∀ (d : Option Bool) (s : Store μ), d ≠ some true →
      (Atomic txn s ∧ rows = (s.preparesOf txn.txnId).rows) ∧ d = s.decisionGet txn.txnId →
      Aborting txn (fun g => g ∈ rows.map Prod.fst) s := by
    rintro d s hd ⟨⟨ha, rfl⟩, rfl⟩
    exact aborting_rows ha hd
  match decision with
  | some true =>
    rintro s ⟨⟨ha, rfl⟩, hd⟩
    exact spec_applyCommit hone env (covers_rows ha) _ s (committing_rows ha hd.symm)
  | some false => exact (spec_abortAll _ _).pre fun s h => habort (some false) s nofun h
  | none =>
    refine spec_bind (R := fun _ => Aborting txn fun g => g ∈ rows.map Prod.fst)
      (Spec.pre ?_ fun s h => habort none s nofun h) fun _ => spec_abortAll _ _
    exact spec_ite (fun _ => spec_putAbort true) fun _ => spec_pure fun s h => h

theorem spec_resolveInDoubt_any (hone : (txn.slices.map GraphSlice.graphName).Nodup) (env : Env μ)
    (r : String × List (GroupId × List (GraphSlice μ)))
    (rest : List (String × List (GroupId × List (GraphSlice μ)))) :
    Spec (Atomic txn) (AfterCommit txn) (Recovering txn (r :: rest)) (resolveInDoubt env r)
      fun _ => Recovering txn rest := by
  by_cases hr : r.1 = txn.txnId
  · obtain ⟨t, rows⟩ := r
    subst hr
    have hspec := (spec_resolveInDoubt hone env rows)
    intro s hs
    have hkeys := List.nodup_cons.mp hs.keys
    refine (hspec.weaken
      (fun s (h : Atomic txn s ∧ rows = (s.preparesOf txn.txnId).rows) => h)
      fun _ s h => ?_) s ⟨hs.atomic, hs.rows _ (.head _) rfl⟩
    refine ⟨h.1, hkeys.2, fun q hq heq => ?_, fun _ => h.2⟩
    have hmem : q.1 ∈ rest.map Prod.fst := List.mem_map_of_mem hq
    rw [heq] at hmem
    exact absurd hmem hkeys.1
  · refine ((leaves_resolveInDoubt env (Ne.symm hr)).spec (A := Recovering txn (r :: rest))
      fun s s' hu h => ?_).post fun _ s h => ?_
    · refine ⟨⟨h.atomic.of_untouched hu, h.keys, fun q hq heq => ?_, fun hout => ?_⟩,
        h.atomic.of_untouched hu, afterCommit_of_untouched hu⟩
      · rw [hu.prepares]
        exact h.rows q hq heq
      · exact noPrepares_of_untouched hu (h.resolved hout)
    · refine ⟨h.atomic, (List.nodup_cons.mp h.keys).2, fun q hq => ?_, fun hout => ?_⟩
      · exact h.rows q (.tail _ hq)
      · refine h.resolved fun hin => ?_
        rcases List.mem_cons.mp hin with heq | hin
        · exact hr heq.symm
        · exact hout hin

theorem spec_collectDecision (r : String × Decision) :
    Spec (Atomic txn) (AfterCommit txn) (fun s => Atomic txn s ∧ NoPrepares txn.txnId s)
      (collectDecision r) fun _ s => Atomic txn s ∧ NoPrepares txn.txnId s := by
  by_cases hr : r.1 = txn.txnId
  · refine spec_ite (fun _ => spec_pure fun s h => h) fun _ => ?_
    refine spec_bind (R := fun _ s => Atomic txn s ∧ NoPrepares txn.txnId s)
      (spec_read fun s _ h _ => h) fun parent => ?_
    match parent with
    | none => exact spec_pure fun s h => h
    | some none => exact spec_fail _
    | some (some result) =>
      refine spec_ite (fun _ => spec_fail _) fun _ => ?_
      rw [hr]
      exact spec_decisionClear
  · exact (leaves_collectDecision (Ne.symm hr)).spec fun s s' hu h =>
      ⟨⟨h.1.of_untouched hu, noPrepares_of_untouched hu h.2⟩, h.1.of_untouched hu,
        afterCommit_of_untouched hu⟩

/-- **Recovery** keeps the condition. -/
theorem spec_recoverInDoubt (hone : (txn.slices.map GraphSlice.graphName).Nodup) (env : Env μ) :
    Spec (Atomic txn) (AfterCommit txn) (Atomic txn) (recoverInDoubt env) fun _ => Atomic txn := by
  refine spec_bind (R := fun inDoubt => Recovering txn inDoubt)
    (spec_read fun s inDoubt h hr => ?_) fun inDoubt => ?_
  · cases hr
    exact recovering_start h
  · refine spec_bind (spec_forEach (spec_resolveInDoubt_any hone env) inDoubt) fun _ => ?_
    refine spec_bind (R := fun _ s => Atomic txn s ∧ NoPrepares txn.txnId s)
      (spec_read fun s _ h _ => ⟨h.atomic, h.resolved List.not_mem_nil⟩) fun decisions => ?_
    refine spec_bind (spec_forEach (A := fun _ s => Atomic txn s ∧ NoPrepares txn.txnId s)
      (fun r _ => spec_collectDecision r) decisions) fun _ => ?_
    exact spec_pure fun s h => h.1

end recovery

/-! ### Runs -/

structure Fresh (t : String) (s : Store μ) : Prop where
  prepares : NoPrepares t s
  decision : s.decisions.get t = none
  effects : ∀ e ∈ s.effects, e.1.txnId ≠ t

/-- What may follow the first call of a transaction: recovery, retries of the recoverable commit,
and whatever is done for other transactions. -/
def Follows (txn : CrossShardTxn μ) : Call μ → Prop
  | .commit _ other => other.txnId ≠ txn.txnId
  | .commitRecoverable _ other => other.txnId = txn.txnId → other = txn
  | .recover _ => True
  | .clearDecision t => t ≠ txn.txnId
  | .parentCommitted _ _ => True

/-- The states visited by calls, each run to its end or until it crashes. -/
def visited (s : Store μ) (calls : List (Call μ × Option ℕ)) : List (Store μ) :=
  s :: visit s (calls.map fun c => (c.1.program, c.2))

section runs

theorem Fresh.startable (h : Fresh txn.txnId s) : Startable txn s := by
  have hn : ¬ Committed txn.txnId s := by
    unfold Committed Store.decisionGet
    rw [h.decision]
    exact nofun
  refine ⟨⟨?_, fun hc => absurd hc hn, fun _ => Or.inr h.effects, ?_, ?_⟩, hn, ?_⟩
  · intro g slices hget
    rw [h.prepares g] at hget
    cases hget
  · exact fun e he ht => absurd ht (h.effects e he)
  · have hempty : (s.effects.filter fun e => e.1.txnId = txn.txnId) = [] :=
      List.filter_eq_nil_iff.mpr fun e he => by simpa using h.effects e he
    rw [hempty]
    exact List.nodup_nil
  · intro g slices hget
    rw [h.prepares g] at hget
    cases hget

theorem spec_of_leaves {α : Type} {m : Prog (Store μ) α} (h : Leaves txn.txnId m) :
    Spec (Atomic txn) (AfterCommit txn) (Atomic txn) m fun _ => Atomic txn :=
  h.spec fun _ _ hu ha => ⟨ha.of_untouched hu, ha.of_untouched hu, afterCommit_of_untouched hu⟩

theorem spec_follows (hone : (txn.slices.map GraphSlice.graphName).Nodup) :
    ∀ {call : Call μ}, Follows txn call →
      Spec (Atomic txn) (AfterCommit txn) (Atomic txn) call.program fun _ => Atomic txn
  | .commit env other, h => by
    refine spec_of_leaves (keeps_bind ?_ fun _ => keeps_pure _)
    exact leaves_commitInner env other (Ne.symm h) false
  | .commitRecoverable env other, h => by
    by_cases ht : other.txnId = txn.txnId
    · rw [h ht]
      exact spec_bind (spec_commitCrossShardRecoverable hone env) fun _ => spec_pure fun s hs => hs
    · refine spec_of_leaves (keeps_bind ?_ fun _ => keeps_pure _)
      exact leaves_commitRecoverable env other (Ne.symm ht)
  | .recover env, _ => spec_bind (spec_recoverInDoubt hone env) fun _ => spec_pure fun s hs => hs
  | .clearDecision t, h => by
    refine spec_of_leaves (keeps_bind ?_ fun _ => keeps_pure _)
    exact leaves_decisionClear (Ne.symm h)
  | .parentCommitted t result, _ => by
    refine spec_bind (spec_write fun s s' ha hs => ?_) fun _ => spec_pure fun s h => h
    cases hs
    have hatomic : Atomic txn { s with parents := s.parents.insert t result } :=
      ⟨ha.records, ha.decided, ha.undecided, ha.sound, ha.once⟩
    exact ⟨hatomic, afterCommit_of_effects rfl, hatomic⟩

/-- **Cross-shard commit is atomic under crashes.** After a commit, any recoveries and retries and any
calls for other transactions, each crashing anywhere or not at all: in every state without a prepare
record of the transaction all of its operations have taken effect once, under a durable commit decision,
or none has. -/
theorem commit_atomic (txn : CrossShardTxn μ)
    (hone : (txn.slices.map GraphSlice.graphName).Nodup) {s : Store μ}
    (hfresh : Fresh txn.txnId s) {first : Call μ} {env : Env μ}
    (hfirst : first = .commit env txn ∨ first = .commitRecoverable env txn) (crash : Option ℕ)
    {calls : List (Call μ × Option ℕ)} (hcalls : ∀ c ∈ calls, Follows txn c.1) :
    (∀ u ∈ visited s ((first, crash) :: calls), NoPrepares txn.txnId u →
      AllApplied txn u ∨ NoneApplied txn u) ∧
    (∀ u ∈ visited s ((first, crash) :: calls),
      ((u.effects.filter fun e => e.1.txnId = txn.txnId).map Prod.fst).Nodup) ∧
    List.IsChain (AfterCommit txn) (visited s ((first, crash) :: calls)) := by
  have hstart := hfresh.startable
  have hspec : Spec (Atomic txn) (AfterCommit txn) (Startable txn) first.program
      fun _ => Atomic txn := by
    rcases hfirst with rfl | rfl
    · exact spec_bind (spec_commitCrossShardInner hone env false) fun _ => spec_pure fun s h => h
    · exact spec_bind ((spec_commitCrossShardRecoverable hone env).pre fun s h => h.atomic)
        fun _ => spec_pure fun s h => h
  obtain ⟨h1, h2, h3⟩ := spec_crashed hspec hstart hstart.atomic crash
  have hrest : ∀ c ∈ calls.map fun c => (c.1.program, c.2),
      Spec (Atomic txn) (AfterCommit txn) (Atomic txn) c.1 fun _ => Atomic txn := by
    intro c hc
    obtain ⟨d, hd, rfl⟩ := List.mem_map.mp hc
    exact spec_follows hone (hcalls d hd)
  obtain ⟨h4, h5⟩ := visit_invariant hrest h3
  have hall : ∀ u ∈ visited s ((first, crash) :: calls), Atomic txn u := by
    intro u hu
    rcases List.mem_cons.mp hu with rfl | hu
    · exact hstart.atomic
    · rcases List.mem_append.mp hu with hu | hu
      · exact h1 u hu
      · exact h4 u (.tail _ hu)
  refine ⟨fun u hu hp => ?_, fun u hu => (hall u hu).once, isChain_append_after h2 h5⟩
  by_cases hc : Committed txn.txnId u
  · exact Or.inl (hp.allApplied (hall u hu) hc)
  · exact (hall u hu).undecided hc

/-- Two groups that run, agree to everything and answer every call. -/
def calmEnv : Env ℕ where
  groupOf graph := if graph = "ledger" then 0 else 1
  running _ := true
  routeGraph _ := ⟨0, 0, false, 0⟩
  edgeEndpointsAreLive _ _ := true
  encodes _ := true
  prepareReply _ := .done
  order := id
  order_perm _ := List.Perm.refl _
  runningAtCommit _ := true
  command _ := .ok ()
  writeReply _ := .done

/-- Two operations on one graph and one on another. -/
def transfer : CrossShardTxn ℕ :=
  ⟨"transfer", [⟨"ledger", "ledger", [10, 11], 0, none⟩, ⟨"audit", "audit", [20], 0, none⟩]⟩

def emptyStore : Store ℕ := ⟨Table.empty, Table.empty, Table.empty, []⟩

theorem fresh_emptyStore (t : String) : Fresh t emptyStore :=
  ⟨fun _ => rfl, rfl, fun _ he => absurd he List.not_mem_nil⟩

/-- A commit that crashes after its fifth write, with one operation applied, and a recovery. -/
theorem commit_atomic_transfer : (visited emptyStore
      [(.commitRecoverable calmEnv transfer, some 5), (.recover calmEnv, none)]).map
        (fun u => u.effects.map Prod.snd) =
      [[], [], [], [], [], [10], [10], [10, 11], [10, 11], [10, 11, 20], [10, 11, 20]] ∧
    ∀ u ∈ visited emptyStore
        [(.commitRecoverable calmEnv transfer, some 5), (.recover calmEnv, none)],
      NoPrepares transfer.txnId u → AllApplied transfer u ∨ NoneApplied transfer u := by
  refine ⟨by decide +kernel, (commit_atomic transfer (by decide) (fresh_emptyStore _)
    (Or.inr rfl) (some 5) fun c hc => ?_).1⟩
  rw [List.mem_singleton.mp hc]
  exact trivial

end runs

end Medulla.CrossShard.CrashSafety
