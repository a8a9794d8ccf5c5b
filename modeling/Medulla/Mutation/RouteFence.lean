import Mathlib.Data.List.Chain
import Medulla.Mutation.Runs

/-! # The route fence of a scope

An operation batch is admitted only at or above the durable route fence, so operations by themselves
never lower it. A saga is checked when it is prepared and stamps its route when it commits; a version
expectation holds off every commit in between, and with it every other route. A maintenance batch is
exempt from the check and still stamps its own route, which is what lets the fence move back.

## Main results

- `fenceLog_run`: the fence is the route of the last commit, in every run of paired sagas.
- `fence_lowered_only_by_maintenance`: what it takes to lower the fence. -/

namespace Medulla.Mutation.RouteFence

open Library.Checked Library.Transaction Types.Batch Types.Records State Commit
open Saga Kernel Transitions Runs Outbox.Index Outbox.Frames
open Library.OrderedTable (Table)

variable {identity : MutationScopeIdentity} {receipts : Bool} {es : List Committed}

/-! ### A scope to evaluate on -/

/-- A serving principal. -/
def samplePrincipal : String :=
  "principal:sha256:0000000000000000000000000000000000000000000000000000000000000000"

/-- A graph scope over a layout without owner tables. -/
def sampleOwner : OwnedStoreHandle :=
  ⟨⟨"tenant", .graph "graph", "first"⟩, samplePrincipal, true, fun _ _ => true⟩

/-- An operation at a route that expects a version. -/
def sampleOperation (id nonce : String) (epoch token version : ℕ)
    (outbox : List MutationOutboxIntent) : MutationBatch where
  batchId := id
  envelope := .operation
    ⟨"actor", ⟨id, "scope", "authority", "payload", id⟩, nonce, samplePrincipal, []⟩
  identity := sampleOwner.identity
  placementEpoch := epoch
  versionExpectation := .graph version
  fencingToken := some token
  authoritativeState := none
  operations := [⟨0, .graphRows, .other "write"⟩]
  outbox := outbox
  createdAtMs := 0

/-- A maintenance batch, which has no route. -/
def sampleMaintenance (id : String) (version : ℕ) : MutationBatch where
  batchId := id
  envelope := .maintenance ⟨samplePrincipal, "drain", "shard", id⟩
  identity := sampleOwner.identity
  placementEpoch := 0
  versionExpectation := .graph version
  fencingToken := none
  authoritativeState := none
  operations := [⟨0, .graphRows, .other "drain"⟩]
  outbox := []
  createdAtMs := 0

/-- A write of one batch. -/
def commitAlone (b : MutationBatch) (version : ℕ) : KernelCall :=
  .write [.begin b, .finish b none 1 (some version)] (.commit b)

/-! ### Routes -/

/-- The route of a batch, in lexicographic order. -/
def routeOf (b : MutationBatch) : ℕ ×ₗ ℕ := toLex b.route

/-- The fence that a batch stamps. -/
def fenceOf (b : MutationBatch) : ScopeFence := ⟨b.placementEpoch, b.fencingToken.getD 0⟩

/-- The route of a fence, in lexicographic order. -/
def fenceRoute (f : ScopeFence) : ℕ ×ₗ ℕ := toLex (f.placementEpoch, f.fencingToken)

/-- A fence is at or above an earlier one; an absent fence is below every other. -/
def FenceLe : Option ScopeFence → Option ScopeFence → Prop
  | none, _ => True
  | some _, none => False
  | some f, some g => fenceRoute f ≤ fenceRoute g

instance : ∀ f g, Decidable (FenceLe f g)
  | none, _ => isTrue trivial
  | some _, none => isFalse id
  | some f, some g => inferInstanceAs (Decidable (fenceRoute f ≤ fenceRoute g))

theorem FenceLe.refl : ∀ f, FenceLe f f
  | none => trivial
  | some f => le_refl (fenceRoute f)

/-- The version that a batch expects, if it expects one. -/
def expects (b : MutationBatch) : Option ℕ :=
  match b.versionExpectation with
  | .graph v | .native v => some v
  | .unversioned => none

/-- A committed batch whose route was compared with the fence that it replaced: an operation, in a
saga only with a version expectation. -/
def Routed (c : Committed) : Prop :=
  c.batch.isMaintenance = false ∧ (c.saga = true → (expects c.batch).isSome = true)

instance (c : Committed) : Decidable (Routed c) := inferInstanceAs (Decidable (_ ∧ _))

theorem routed_at_fence {b : MutationBatch} {l : Ledger} (h : rejectStaleFence b l = .ok ())
    (hop : b.isMaintenance = false) : FenceLe l.fence (some (fenceOf b)) := by
  unfold rejectStaleFence at h
  cases hf : l.fence with
  | none => trivial
  | some f =>
    simp only [hf, hop, Bool.false_eq_true, if_false] at h
    split_ifs at h
    rw [require_eq_ok] at h
    change toLex (f.placementEpoch, f.fencingToken) ≤
      toLex (b.placementEpoch, b.fencingToken.getD 0)
    rw [Prod.Lex.toLex_le_toLex]
    omega

theorem expects_of_checkExpectation {b : MutationBatch} {l : Ledger}
    (h : checkExpectation b l = .ok ()) {v : ℕ} (hv : expects b = some v) : v = l.version := by
  unfold checkExpectation at h
  unfold expects at hv
  cases hb : b.versionExpectation with
  | unversioned => simp [hb] at hv
  | graph expected =>
    simp only [hb, require_eq_ok, Option.some.injEq] at h hv
    exact hv ▸ h
  | native expected =>
    simp only [hb, require_eq_ok, Option.some.injEq] at h hv
    exact hv ▸ h

/-! ### Prepared sagas -/

/-- A prepared batch that expects a version: no commit has passed it by, and as long as none has come
after its preparation the fence is still at or below its route. -/
def Awaits (b : MutationBatch) (l : Ledger) : Prop :=
  ∀ v, expects b = some v → v ≤ l.version ∧ (v = l.version → FenceLe l.fence (some (fenceOf b)))

/-- The call commits no saga under another batch than the one that was prepared. -/
def pairs (l : Ledger) : KernelCall → Bool
  | .sagaEnd b _ _ => (l.batches.get b.batchId).all fun prior =>
      decide (prior.status = .prepared → prior.batch = b)
  | _ => true

/-- **The sagas of a run are prepare and commit pairs**: what a `saga_end` commits is the batch that
was prepared under its id. -/
def Paired (owner : OwnedStoreHandle) : Ledger → List KernelCall → Prop
  | _, [] => True
  | l, c :: cs => pairs l c = true ∧ Paired owner (step owner l c) cs

instance (owner : OwnedStoreHandle) : ∀ l calls, Decidable (Paired owner l calls)
  | _, [] => isTrue trivial
  | _, _ :: cs => @instDecidableAnd _ _ _ (instDecidablePaired owner _ cs)

theorem paired_append {owner : OwnedStoreHandle} : ∀ {cs ds : List KernelCall} {l : Ledger},
    Paired owner l (cs ++ ds) ↔ Paired owner l cs ∧ Paired owner (runKernel owner l cs) ds
  | [], ds, l => by simp [Paired, runKernel]
  | c :: cs, ds, l => by
    rw [List.cons_append, Paired, paired_append, Paired, and_assoc]
    rfl

/-! ### The log and the fence -/

/-- The fence is the route of the last commit, routed commits are in order, and prepared sagas wait. -/
structure FenceLog (es : List Committed) (l : Ledger) : Prop where
  last : l.fence = es.getLast?.map fun c => fenceOf c.batch
  ordered : es.IsChain fun c d => Routed d → routeOf c.batch ≤ routeOf d.batch
  prepared : ∀ id r, l.batches.get id = some r → r.status = .prepared → Awaits r.batch l

section
variable {l l' : Ledger} {b : MutationBatch} {record : MutationBatchRecord}

theorem FenceLog.frame (h : FenceLog es l) (hbatches : l'.batches = l.batches)
    (hversion : l'.version = l.version) (hfence : l'.fence = l.fence) : FenceLog es l' where
  last := hfence.trans h.last
  ordered := h.ordered
  prepared id r hr hs := by
    have hold := h.prepared id r (hbatches ▸ hr) hs
    unfold Awaits at hold ⊢
    rwa [hversion, hfence]

/-- **A commit** at or above the fence when it is a routed one. -/
theorem FenceLog.commit {replay : Option ReplayReceipt} {saga : Bool} (h : FenceLog es l)
    (finishes : Finishes b record replay l l')
    (hle : Routed ⟨b, saga⟩ → FenceLe l.fence (some (fenceOf b))) :
    FenceLog (es ++ [⟨b, saga⟩]) l' where
  last := by
    rw [finishes.frame]
    simp [fenceOf]
  ordered := by
    rw [List.isChain_append]
    refine ⟨h.ordered, List.isChain_singleton _, fun a ha d hd hrouted => ?_⟩
    obtain rfl : (⟨b, saga⟩ : Committed) = d := by simpa using hd
    have hroute := hle hrouted
    rw [h.last, Option.mem_def.mp ha] at hroute
    exact hroute
  prepared id r hr hs := by
    rw [finishes.frame] at hr ⊢
    by_cases hid : id = b.batchId
    · subst hid
      rw [Table.get_insert_self, Option.some.injEq] at hr
      rw [← hr, finishes.committed] at hs
      cases hs
    · rw [Table.get_insert_of_ne _ _ hid] at hr
      intro v hv
      have hversion := (h.prepared id r hr hs v hv).1
      refine ⟨Nat.le_succ_of_le hversion, fun heq => ?_⟩
      change v = l.version + 1 at heq
      omega

theorem fenceLog_move {fs : List Committed} (m : Move identity false receipts l fs l')
    (hpairs : ∀ c ∈ fs, c.saga = true → ∀ prior, l.batches.get c.batch.batchId = some prior →
      prior.status = .prepared → prior.batch = c.batch)
    (h : FenceLog es l) : FenceLog (es ++ fs) l' := by
  cases m with
  | finish b record replay _ _ fresh finishes =>
    exact h.commit finishes fun hrouted => routed_at_fence fresh.routed hrouted.1
  | sagaCommit b record prior _ stored prepared expected finishes =>
    refine h.commit finishes fun hrouted => ?_
    obtain ⟨v, hv⟩ := Option.isSome_iff_exists.mp (hrouted.2 rfl)
    have hwaits := h.prepared _ _ stored prepared
    rw [hpairs _ List.mem_cons_self rfl prior stored prepared] at hwaits
    exact (hwaits v hv).2 (expects_of_checkExpectation expected hv)
  | prepare b e preparedAtMs payload he _ fresh _ _ =>
    rw [List.append_nil]
    refine ⟨h.last, h.ordered, fun id r hr hs => ?_⟩
    by_cases hid : id = b.batchId
    · subst hid
      have hget : some r = some ⟨b, .prepared, .none, none, preparedAtMs⟩ :=
        hr.symm.trans (Table.get_insert_self _ _ _)
      rw [Option.some.inj hget]
      have hop : b.isMaintenance = false := by
        rw [MutationBatch.isMaintenance, he]
        rfl
      exact fun v hv => ⟨(expects_of_checkExpectation fresh.expected hv).le,
        fun _ => routed_at_fence fresh.routed hop⟩
    · exact h.prepared id r ((Table.get_insert_of_ne _ _ hid).symm.trans hr) hs
  | purge allowed _ => cases allowed
  | deliver _ same =>
    rw [List.append_nil]
    exact h.frame (by rw [eq_of_core same]) (by rw [eq_of_core same]) (by rw [eq_of_core same])
  | backfill _ page =>
    rw [List.append_nil, backfillPage_frame page]
    exact h.frame rfl rfl rfl
  | receipt operation nonce receipt id _ recorded =>
    rw [List.append_nil, recordOperation_frame recorded]
    exact h.frame rfl rfl rfl
  | reopen _ state =>
    rw [List.append_nil]
    exact h.frame rfl rfl rfl
  | nonce nonce key _ =>
    rw [List.append_nil]
    exact h.frame rfl rfl rfl
  | dropPayload id =>
    rw [List.append_nil]
    exact h.frame rfl rfl rfl

/-- Moves that commit no saga need no pairing. -/
theorem fenceLog_moves {fs : List Committed} (hmoves : Moves identity false receipts l fs l')
    (hsaga : ∀ c ∈ fs, c.saga = false) (h : FenceLog es l) : FenceLog (es ++ fs) l' := by
  induction hmoves with
  | refl => simpa using h
  | tail _ last ih =>
    rw [← List.append_assoc]
    refine fenceLog_move last (fun c hc hs => ?_) (ih fun c hc => hsaga c (List.mem_append_left _ hc))
    rw [hsaga c (List.mem_append_right _ hc)] at hs
    cases hs

end

/-! ### Runs -/

section
variable {owner : OwnedStoreHandle} {l : Ledger}

theorem fenceLog_sagaEnd {b : MutationBatch} {result : ResultMsgpack} {committedAtMs : ℕ}
    (hpairs : pairs l (.sagaEnd b result committedAtMs) = true) (h : FenceLog es l) :
    FenceLog (es ++ committedInSaga owner l b result committedAtMs)
      (settle l (commitSaga owner b result committedAtMs l)) := by
  unfold committedInSaga commitSaga
  cases hcommit : commitSagaIn b result committedAtMs (Write.opened owner l) with
  | error e w =>
    rw [List.append_nil]
    exact h
  | ok r w =>
    obtain ⟨record, again⟩ := r
    rcases commitSagaIn_ok hcommit with ⟨rfl, h1⟩ |
      ⟨rfl, hscope, -, ⟨prior, hprior, hprepared⟩, hexpected, l₁, hfin, h1⟩
    · simp only [h1, if_true, List.append_nil]
      exact h.frame rfl rfl rfl
    · simp only [h1, Bool.false_eq_true, if_false]
      have hmove : Move owner.identity false true l [⟨b, true⟩] l₁ :=
        .sagaCommit b record prior hscope hprior hprepared hexpected hfin
      refine (fenceLog_move hmove (fun c hc _ prior' hget hs => ?_) h).frame rfl rfl rfl
      obtain rfl := List.mem_singleton.mp hc
      change (l.batches.get b.batchId).all _ = true at hpairs
      rw [hget] at hpairs
      exact of_decide_eq_true hpairs hs

theorem fenceLog_step {c : KernelCall} (hpurge : kernelPurges c = false)
    (hpairs : pairs l c = true) (h : FenceLog es l) :
    FenceLog (es ++ committedBy owner l c) (step owner l c) := by
  have hmoves : Moves owner.identity false true l (committedBy owner l c) (step owner l c) :=
    step_moves (fun h => by rw [hpurge] at h; cases h) (fun _ => rfl)
  cases c with
  | sagaEnd b result committedAtMs => exact fenceLog_sagaEnd hpairs h
  | write calls finish =>
    refine fenceLog_moves hmoves (fun k hk => ?_) h
    change k ∈ committedInWrite owner l calls finish at hk
    unfold committedInWrite at hk
    split at hk
    · obtain ⟨call, -, hcall⟩ := List.mem_filterMap.mp hk
      cases call <;> simp only [finishedBy, Option.some.injEq, reduceCtorEq] at hcall <;> rw [← hcall]
    · cases hk
    · cases hk
  | _ => exact fenceLog_moves hmoves (fun k hk => nomatch hk) h

theorem fenceLog_run : ∀ {calls : List KernelCall} {es : List Committed} {l : Ledger},
    (∀ c ∈ calls, kernelPurges c = false) → Paired owner l calls → FenceLog es l →
      FenceLog (es ++ runLog owner l calls) (runKernel owner l calls)
  | [], es, l, _, _, h => by
    rw [runLog, List.append_nil]
    exact h
  | c :: cs, es, l, hpurge, hpaired, h => by
    obtain ⟨hc, hcs⟩ := hpaired
    obtain ⟨hpc, hpcs⟩ := List.forall_mem_cons.mp hpurge
    rw [runLog, ← List.append_assoc]
    exact fenceLog_run hpcs hcs (fenceLog_step hpc hc h)

theorem fenceLog_bound (v : ℕ) : FenceLog [] (Ledger.bound v) :=
  ⟨rfl, List.isChain_nil, fun _ _ hr => by simp [Ledger.bound] at hr⟩

end

theorem route_le_of_chain : ∀ {c d : Committed} {ys zs : List Committed},
      (c :: ys ++ d :: zs).IsChain (fun c d => Routed d → routeOf c.batch ≤ routeOf d.batch) →
      (∀ k ∈ ys, Routed k) → Routed d → routeOf c.batch ≤ routeOf d.batch
  | c, d, [], zs, hchain, _, hd => by
    rw [List.cons_append, List.nil_append, List.isChain_cons_cons] at hchain
    exact hchain.1 hd
  | c, d, y :: ys, zs, hchain, hys, hd => by
    rw [List.cons_append, List.cons_append, List.isChain_cons_cons] at hchain
    have hy : routeOf c.batch ≤ routeOf y.batch := hchain.1 (hys y (.head _))
    have hrest : routeOf y.batch ≤ routeOf d.batch :=
      route_le_of_chain hchain.2 (fun k hk => hys k (.tail _ hk)) hd
    exact le_trans hy hrest

theorem fenceLe_of_log {l l' : Ledger} {fs : List Committed} (h : FenceLog es l)
    (h' : FenceLog (es ++ fs) l') (hrouted : ∀ c ∈ fs, Routed c) : FenceLe l.fence l'.fence := by
  rw [h.last, h'.last]
  rcases List.eq_nil_or_concat es with rfl | ⟨es, c, rfl⟩
  · exact trivial
  rcases List.eq_nil_or_concat fs with rfl | ⟨fs, d, rfl⟩
  · rw [List.append_nil]
    exact FenceLe.refl _
  · have hchain := h'.ordered
    rw [List.concat_eq_append, List.concat_eq_append, List.append_assoc, List.isChain_append]
      at hchain
    simp only [List.concat_eq_append, ← List.append_assoc, List.getLast?_concat, Option.map_some]
    exact route_le_of_chain (by simpa using hchain.2.1)
      (fun k hk => hrouted k (by simp [hk])) (hrouted d (by simp))

/-- **What moves the route fence back.** In every run of paired sagas without a purge: a call that
commits only routed batches does not lower the fence; every commit leaves it at its own route; and
between a committed batch and a later routed one with a lower route there is a maintenance batch or a
saga without a version expectation. -/
theorem fence_lowered_only_by_maintenance (owner : OwnedStoreHandle) (initialVersion : ℕ)
    (calls : List KernelCall) (hpurge : ∀ c ∈ calls, kernelPurges c = false)
    (hpaired : Paired owner (Ledger.bound initialVersion) calls) :
    (∀ before c after, calls = before ++ c :: after →
      (∀ k ∈ committedBy owner (runKernel owner (Ledger.bound initialVersion) before) c, Routed k) →
      FenceLe (runKernel owner (Ledger.bound initialVersion) before).fence
        (runKernel owner (Ledger.bound initialVersion) (before ++ [c])).fence) ∧
    (∀ before k, runLog owner (Ledger.bound initialVersion) calls = before ++ [k] →
      (runKernel owner (Ledger.bound initialVersion) calls).fence = some (fenceOf k.batch)) ∧
    (∀ before c between d after,
      runLog owner (Ledger.bound initialVersion) calls = before ++ c :: between ++ d :: after →
      (∀ k ∈ between, Routed k) → Routed d →
      routeOf c.batch ≤ routeOf d.batch) := by
  have hlog : FenceLog (runLog owner (Ledger.bound initialVersion) calls)
      (runKernel owner (Ledger.bound initialVersion) calls) := by
    simpa using fenceLog_run hpurge hpaired (fenceLog_bound initialVersion)
  refine ⟨?_, ?_, ?_⟩
  · rintro before c after rfl hrouted
    obtain ⟨hbefore, hrest⟩ := paired_append.mp hpaired
    have hfirst : FenceLog (runLog owner (Ledger.bound initialVersion) before)
        (runKernel owner (Ledger.bound initialVersion) before) := by
      simpa using fenceLog_run (fun k hk => hpurge k (by simp [hk])) hbefore
        (fenceLog_bound initialVersion)
    have hnext := @fenceLog_step _ owner _ c (hpurge c (by simp)) hrest.1 hfirst
    have hle := fenceLe_of_log hfirst hnext hrouted
    unfold runKernel at hle ⊢
    rw [run_append]
    exact hle
  · intro before k hruns
    rw [hlog.last, hruns]
    simp
  · intro before c between d after hruns hbetween hd
    have hchain := hlog.ordered
    rw [hruns, List.append_assoc, List.isChain_append] at hchain
    exact route_le_of_chain hchain.2.1 hbetween hd

/-- A saga prepared and committed at one route, and an operation at a higher one. -/
def sagaRun : List KernelCall :=
  [.sagaStep (sampleOperation "saga" "n1" 2 2 0 []) 0 none,
    .sagaEnd (sampleOperation "saga" "n1" 2 2 0 []) ⟨[], .undecodable⟩ 1,
    commitAlone (sampleOperation "high" "n2" 5 5 1 []) 1]

/-- The operation after the saga commits at or above its route. -/
theorem fence_lowered_only_by_maintenance_sample : Paired sampleOwner (Ledger.bound 0) sagaRun ∧
    (runKernel sampleOwner (Ledger.bound 0) sagaRun).fence = some ⟨5, 5⟩ ∧
      routeOf (sampleOperation "saga" "n1" 2 2 0 []) ≤ routeOf (sampleOperation "high" "n2" 5 5 1 []) := by
  have hpurge : ∀ c ∈ sagaRun, kernelPurges c = false := by decide
  have hpaired : Paired sampleOwner (Ledger.bound 0) sagaRun := by decide +kernel
  have hlog : runLog sampleOwner (Ledger.bound 0) sagaRun =
      [⟨sampleOperation "saga" "n1" 2 2 0 [], true⟩,
        ⟨sampleOperation "high" "n2" 5 5 1 [], false⟩] := by decide +kernel
  obtain ⟨-, hstamp, hordered⟩ := fence_lowered_only_by_maintenance sampleOwner 0 sagaRun hpurge hpaired
  refine ⟨hpaired, hstamp [⟨sampleOperation "saga" "n1" 2 2 0 [], true⟩] _ hlog, ?_⟩
  exact hordered [] _ [] ⟨sampleOperation "high" "n2" 5 5 1 [], false⟩ [] hlog (by simp) (by decide)

/-- An operation, a maintenance batch, and an operation at a lower route. -/
def loweredRun : List KernelCall :=
  [commitAlone (sampleOperation "high" "n1" 5 5 0 []) 0,
    commitAlone (sampleMaintenance "drain" 1) 1,
    commitAlone (sampleOperation "low" "n2" 1 1 2 []) 2]

/-- The fence of that run goes back from (5, 5) to (0, 0), and the operation at the lower route
commits after the one at the higher route. -/
theorem fence_lowered_by_drain : (∀ c ∈ loweredRun, kernelPurges c = false) ∧
      (runKernel sampleOwner (Ledger.bound 0) (loweredRun.take 1)).fence = some ⟨5, 5⟩ ∧
      (runKernel sampleOwner (Ledger.bound 0) (loweredRun.take 2)).fence = some ⟨0, 0⟩ ∧
      ¬ FenceLe (runKernel sampleOwner (Ledger.bound 0) (loweredRun.take 1)).fence
        (runKernel sampleOwner (Ledger.bound 0) (loweredRun.take 2)).fence ∧
      (runLog sampleOwner (Ledger.bound 0) loweredRun).map
        (fun c => (c.batch.isMaintenance, c.batch.route)) =
        [(false, 5, 5), (true, 0, 0), (false, 1, 1)] := by
  decide +kernel

end Medulla.Mutation.RouteFence
