import Medulla.WorkItem.ClaimEffects
import Medulla.WorkItem.Machine

/-! # What a call does to one row

Every call is described by what it does to the node of one identity: `Change` for a row that is there,
`Appears` for one that is not. Invariants about leases are read off these two.

* one call: `moves_call`, `kept_step`. -/

namespace Medulla.WorkItem.Effects

open Library.Checked Rows Submit Claim Lifecycle
open Machine ClaimEffects

variable {row : Row} {g g' : Graph} {id : String} {H : Digests} {request : SubmitWorkItemRequest}
  {scope : Scope} {result : Committed} {r : Result}

/-! ### Quiet changes -/

/-- The lease and the identity of a row are untouched; it may have become ready. -/
structure Quiet (row row' : Row) : Prop where
  nodeType : row'.nodeType = row.nodeType
  tenant : row'.tenant = row.tenant
  metadata : row'.metadata = row.metadata
  fences : row'.fences = row.fences
  expiry : row'.leaseExpiresAt = row.leaseExpiresAt
  status : row'.status = row.status ∨ (row.status = .submitted ∧ row'.status = .ready)

namespace Quiet

variable {row' row'' : Row}

theorem refl (row : Row) : Quiet row row := ⟨rfl, rfl, rfl, rfl, rfl, .inl rfl⟩

theorem trans (h : Quiet row row') (h' : Quiet row' row'') : Quiet row row'' := by
  refine ⟨h'.nodeType.trans h.nodeType, h'.tenant.trans h.tenant, h'.metadata.trans h.metadata,
    h'.fences.trans h.fences, h'.expiry.trans h.expiry, ?_⟩
  rcases h.status with h1 | ⟨h1, h2⟩
  · rw [← h1]
    exact h'.status
  · rcases h'.status with h3 | ⟨h3, h4⟩
    · exact .inr ⟨h1, h3.trans h2⟩
    · rw [h2] at h3
      cases h3

theorem isLive (h : Quiet row row') : row'.status.isLive = row.status.isLive := by
  rcases h.status with h1 | ⟨h1, h2⟩
  · rw [h1]
  · rw [h1, h2]
    rfl

theorem lease? (h : Quiet row row') : row'.lease? = row.lease? := by
  unfold Row.lease?
  rw [h.isLive, h.fences]

theorem revised (row : Row) : Quiet row row.revised := ⟨rfl, rfl, rfl, rfl, rfl, .inl rfl⟩

theorem released (row : Row) (now : ℕ) : Quiet row (releasedRow row now) := by
  refine ⟨rfl, rfl, rfl, rfl, rfl, ?_⟩
  unfold releasedRow
  split_ifs with h
  · exact .inr ⟨h.2, rfl⟩
  · exact .inl rfl

end Quiet

/-- A row that holds no lease and never did. -/
structure Idle (row : Row) : Prop where
  notLive : row.status.isLive = false
  fences : row.fences = ⟨"", 0, 0⟩

theorem Idle.of_quiet {row' : Row} (h : Idle row) (hquiet : Quiet row row') : Idle row' :=
  ⟨hquiet.isLive.trans h.notLive, hquiet.fences.trans h.fences⟩

theorem idle_headRow (tenant : String) : Idle (headRow tenant) := ⟨rfl, rfl⟩

theorem idle_newRow (request : SubmitWorkItemRequest) (dependencies pending : List String)
    (sequence now : ℕ) : Idle (newRow request dependencies pending sequence now) := by
  refine ⟨?_, rfl⟩
  unfold newRow
  split_ifs <;> rfl

/-! ### Submissions -/

inductive Submitting : Option (Option Row) → Option (Option Row) → Prop
  | same (node : Option (Option Row)) : Submitting node node
  | quiet {row row' : Row} (h : Quiet row row') : Submitting (some (some row)) (some (some row'))
  | head {row row' : Row} (h : row.nodeType = "ConversationHead")
      (h' : row'.nodeType = "ConversationHead") (idle : Idle row') :
      Submitting (some (some row)) (some (some row'))
  | fresh {row' : Row} (idle : Idle row') : Submitting none (some (some row'))

theorem Submitting.trans {a b c : Option (Option Row)} (h : Submitting a b) (h' : Submitting b c) :
    Submitting a c := by
  cases h with
  | same => exact h'
  | quiet h =>
    cases h' with
    | same => exact .quiet h
    | quiet h' => exact .quiet (h.trans h')
    | head h1 h2 idle => exact .head (h.nodeType.symm.trans h1) h2 idle
  | head h1 h2 idle =>
    cases h' with
    | same => exact .head h1 h2 idle
    | quiet h' => exact .head h1 (h'.nodeType.trans h2) (idle.of_quiet h')
    | head h3 h4 idle' => exact .head h1 h4 idle'
  | fresh idle =>
    cases h' with
    | same => exact .fresh idle
    | quiet h' => exact .fresh (idle.of_quiet h')
    | head h3 h4 idle' => exact .fresh idle'

section
variable {dependency : String} (h : indexDownstream g id dependency = .ok g')
include h

theorem indexDownstream_ok :
    ∃ parent ids, g.nodes.get dependency = some (some parent) ∧ parent.downstreamIds = some ids ∧
      g' = if id ∈ ids then g
        else g.write dependency { parent with downstreamIds := some (ids ++ [id]) } := by
  obtain ⟨found, hfound, h⟩ := unbind h
  obtain ⟨parent, hparent, h⟩ := unbind h
  obtain ⟨ids, hids, h⟩ := unbind h
  rw [okOr_eq_ok] at hparent hids
  rw [hparent, Graph.load_eq_some] at hfound
  exact ⟨parent, ids, hfound, hids, (pure_eq_ok.mp h).symm⟩

theorem submitting_indexDownstream (k : String) : Submitting (g.nodes.get k) (g'.nodes.get k) := by
  obtain ⟨parent, ids, hparent, -, rfl⟩ := indexDownstream_ok h
  split_ifs with hmem
  · exact .same _
  · by_cases hk : k = dependency
    · subst hk
      rw [hparent, Graph.get_write_self]
      exact .quiet ⟨rfl, rfl, rfl, rfl, rfl, .inl rfl⟩
    · rw [Graph.get_write_of_ne _ _ hk]
      exact .same _

end

theorem submitting_indexAll : ∀ {dependencies : List String} {g g' : Graph},
    indexAll id g dependencies = .ok g' → ∀ k, Submitting (g.nodes.get k) (g'.nodes.get k)
  | [], _, _, h, k => by
    cases h
    exact .same _
  | dependency :: rest, _, _, h, k => by
    obtain ⟨mid, hmid, h⟩ := unbind h
    exact (submitting_indexDownstream hmid k).trans (submitting_indexAll h k)

theorem checkHead_ok {node : Option (Option Row)} (h : checkHead node = .ok ()) :
    node = none ∨ ∃ row, node = some (some row) ∧ row.nodeType = "ConversationHead" := by
  match node, h with
  | none, _ => exact .inl rfl
  | some (some row), h => exact .inr ⟨row, rfl, require_eq_ok.mp h⟩

section
variable {answers : Answers} {ids : List String} (h : reserve H g request answers = .ok (g', ids))
include h

theorem reserve_ok :
    g' = g ∨ ∃ context run, request.conversation = some context ∧ request.runId = some run ∧
      (g.nodes.get (headId H request.tenantId context) = none ∨
        ∃ row, g.nodes.get (headId H request.tenantId context) = some (some row) ∧
          row.nodeType = "ConversationHead") ∧
      g' = g.put (headId H request.tenantId context) (some (headRow request.tenantId)) := by
  obtain ⟨_, _, h⟩ := unbind h
  rcases hcontext : request.conversation with _ | context
  · rw [hcontext] at h
    cases h
    exact .inl rfl
  · rw [hcontext] at h
    obtain ⟨_, hrun, h⟩ := unbind h
    obtain ⟨_, hhead, h⟩ := unbind h
    cases h
    obtain ⟨run, hrun⟩ := Option.isSome_iff_exists.mp (require_eq_ok.mp hrun)
    exact .inr ⟨context, run, rfl, hrun, checkHead_ok hhead, rfl⟩

theorem submitting_reserve (k : String) : Submitting (g.nodes.get k) (g'.nodes.get k) := by
  rcases reserve_ok h with rfl | ⟨context, run, -, -, hold, rfl⟩
  · exact .same _
  · by_cases hk : k = headId H request.tenantId context
    · subst hk
      rw [Graph.get_put_self]
      rcases hold with hold | ⟨row, hold, hhead⟩
      · rw [hold]
        exact .fresh (idle_headRow _)
      · rw [hold]
        exact .head hhead rfl (idle_headRow _)
    · rw [Graph.get_put_of_ne _ _ hk]
      exact .same _

end

structure Submission (H : Digests) (request : SubmitWorkItemRequest) (scope : Scope) (g : Graph)
    (id : String) (dependencies pending : List String) (sequence : ℕ) (reserved : Graph)
    (head : List String) (g' : Graph) : Prop where
  unique : dependenciesUnique request = .ok dependencies
  waiting : pendingDependencies g request.tenantId dependencies = .ok pending
  resolved : resolveId H g request = .ok id
  reserves : reserve H { g with commandSequence := sequence } request scope.answers =
    .ok (reserved, head)
  indexed : indexAll id (reserved.write id (newRow request dependencies pending sequence scope.now))
    pending = .ok g'

theorem submitWorkItem_ok {result : Submitted}
    (h : submitWorkItem H request scope g = .ok (g', result)) :
    ∃ dependencies pending sequence reserved head, Submission H request scope g result.workItemId
      dependencies pending sequence reserved head g' := by
  obtain ⟨_, _, h⟩ := unbind h
  obtain ⟨⟨dependencies, pending⟩, hresolve, h⟩ := unbind h
  obtain ⟨inflight, -, h⟩ := unbind h
  obtain ⟨_, _, h⟩ := unbind h
  obtain ⟨id, hid, h⟩ := unbind h
  obtain ⟨sequence, -, h⟩ := unbind h
  obtain ⟨⟨reserved, head⟩, hreserve, h⟩ := unbind h
  obtain ⟨written, hwritten, h⟩ := unbind h
  cases h
  obtain ⟨_, _, hresolve⟩ := unbind hresolve
  obtain ⟨_, _, hresolve⟩ := unbind hresolve
  obtain ⟨_, _, hresolve⟩ := unbind hresolve
  obtain ⟨dependencies', hunique, hresolve⟩ := unbind hresolve
  obtain ⟨pending', hpending, hresolve⟩ := unbind hresolve
  cases hresolve
  exact ⟨dependencies, pending, sequence, reserved, head, hunique, hpending, hid, hreserve, hwritten⟩

theorem resolveId_ok (h : resolveId H g request = .ok id) :
    chosenId H g.name request = .ok id ∧ g.nodes.get id = none := by
  obtain ⟨id', hid, h⟩ := unbind h
  obtain ⟨_, _, h⟩ := unbind h
  obtain ⟨_, habsent, h⟩ := unbind h
  cases h
  rw [rejectIf_eq_ok, Bool.not_eq_true, Option.isSome_eq_false_iff, Option.isNone_iff_eq_none] at habsent
  exact ⟨hid, habsent⟩

theorem work_item_ne_head (x y : String) : "work-item:" ++ x ≠ "conversation-head:" ++ y := by
  intro h
  have := congrArg (fun s => s.toList.head?) h
  simp at this

theorem Submission.get_reserved {dependencies pending : List String} {sequence : ℕ}
    {reserved : Graph} {head : List String}
    (h : Submission H request scope g id dependencies pending sequence reserved head g') :
    reserved.nodes.get id = none := by
  obtain ⟨hchosen, habsent⟩ := resolveId_ok h.resolved
  rcases reserve_ok h.reserves with heq | ⟨context, run, -, hrun, -, heq⟩
  · rw [heq]
    exact habsent
  · unfold chosenId at hchosen
    rw [hrun] at hchosen
    obtain ⟨_, _, hchosen⟩ := unbind hchosen
    rw [pure_eq_ok] at hchosen
    rw [heq, Graph.get_put_of_ne _ _ (by rw [← hchosen]; exact work_item_ne_head _ _)]
    exact habsent

theorem submitting_submitWorkItem {result : Submitted}
    (h : submitWorkItem H request scope g = .ok (g', result)) (k : String) :
    Submitting (g.nodes.get k) (g'.nodes.get k) := by
  obtain ⟨dependencies, pending, sequence, reserved, head, hsub⟩ := submitWorkItem_ok h
  have hreserved : Submitting (g.nodes.get k) (reserved.nodes.get k) :=
    submitting_reserve hsub.reserves k
  refine hreserved.trans (Submitting.trans ?_ (submitting_indexAll hsub.indexed k))
  by_cases hk : k = result.workItemId
  · subst hk
    rw [hsub.get_reserved, Graph.get_write_self]
    exact .fresh ((idle_newRow _ _ _ _ _).of_quiet (.revised _))
  · rw [Graph.get_write_of_ne _ _ hk]
    exact .same _

theorem submitting_submitChildren {tenant : String} :
    ∀ {children : List SubmitWorkItemRequest} {g g' : Graph} {results : List Submitted},
      submitChildren H tenant scope children g = .ok (g', results) →
      ∀ k, Submitting (g.nodes.get k) (g'.nodes.get k)
  | [], _, _, _, h, k => by
    cases h
    exact .same _
  | child :: rest, _, _, _, h, k => by
    obtain ⟨_, _, h⟩ := unbind h
    obtain ⟨⟨mid, result⟩, hmid, h⟩ := unbind h
    obtain ⟨⟨last, results⟩, hlast, h⟩ := unbind h
    cases h
    exact (submitting_submitWorkItem hmid k).trans (submitting_submitChildren hlast k)

theorem submitWorkItems_ok {request : SubmitWorkItemsRequest} {results : List Submitted}
    (h : submitWorkItems H request scope g = .ok (g', results)) :
    submitChildren H request.tenantId scope request.requests g = .ok (g', results) := by
  obtain ⟨_, _, h⟩ := unbind h
  obtain ⟨_, _, h⟩ := unbind h
  obtain ⟨_, _, h⟩ := unbind h
  exact h

/-! ### Lifecycle calls -/

inductive QuietNode : Option (Option Row) → Option (Option Row) → Prop
  | same (node : Option (Option Row)) : QuietNode node node
  | quiet {row row' : Row} (h : Quiet row row') : QuietNode (some (some row)) (some (some row'))

theorem QuietNode.trans {a b c : Option (Option Row)} (h : QuietNode a b) (h' : QuietNode b c) :
    QuietNode a c := by
  cases h with
  | same => exact h'
  | quiet h =>
    cases h' with
    | same => exact .quiet h
    | quiet h' => exact .quiet (h.trans h')

theorem quietNode_releaseDownstream {now : ℕ} :
    ∀ {children : List String} {g g' : Graph} {changed : List String},
      releaseDownstream now children g = .ok (g', changed) →
      ∀ k, QuietNode (g.nodes.get k) (g'.nodes.get k)
  | [], _, _, _, h, k => by
    cases h
    exact .same _
  | child :: rest, g, _, _, h, k => by
    obtain ⟨found, hfound, h⟩ := unbind h
    rcases found with _ | row
    · exact quietNode_releaseDownstream h k
    · obtain ⟨⟨released, changed⟩, hreleased, h⟩ := unbind h
      cases h
      refine QuietNode.trans ?_ (quietNode_releaseDownstream hreleased k)
      rw [Graph.load_eq_some] at hfound
      by_cases hk : k = child
      · subst hk
        rw [hfound, Graph.get_write_self]
        exact .quiet ((Quiet.released row now).trans (.revised _))
      · rw [Graph.get_write_of_ne _ _ hk]
        exact .same _

theorem get_applyReceiptRows {k : String} : ∀ {receipts : List (String × Option Row)} {g : Graph},
    ((∀ payload, (k, payload) ∉ receipts) ∧
        (applyReceiptRows receipts g).nodes.get k = g.nodes.get k) ∨
      ∃ payload, (k, payload) ∈ receipts ∧ (applyReceiptRows receipts g).nodes.get k = some payload
  | [], g => .inl ⟨by simp, rfl⟩
  | (id, first) :: rest, g => by
    rw [applyReceiptRows]
    rcases @get_applyReceiptRows k rest (g.put id first) with ⟨hnone, hget⟩ | ⟨payload, hmem, hget⟩
    · by_cases hk : k = id
      · subst hk
        refine .inr ⟨first, .head _, ?_⟩
        rw [hget, Graph.get_put_self]
      · refine .inl ⟨fun payload hmem => ?_, ?_⟩
        · rcases List.mem_cons.mp hmem with heq | hmem
          · cases heq
            exact hk rfl
          · exact hnone payload hmem
        · rw [hget, Graph.get_put_of_ne g first hk]
    · exact .inr ⟨payload, .tail _ hmem, hget⟩

theorem ensureReceiptRowsAbsent_ok : ∀ {receipts : List (String × Option Row)},
    ensureReceiptRowsAbsent g receipts = .ok () →
      ∀ id payload, (id, payload) ∈ receipts → g.nodes.get id = none
  | [], _, _, _, h => absurd h List.not_mem_nil
  | (k, first) :: rest, h, id, payload, hmem => by
    obtain ⟨_, habsent, h⟩ := unbind h
    rw [rejectIf_eq_ok, Bool.not_eq_true, Option.isSome_eq_false_iff,
      Option.isNone_iff_eq_none] at habsent
    rcases List.mem_cons.mp hmem with heq | hmem
    · cases heq
      exact habsent
    · exact ensureReceiptRowsAbsent_ok h id payload hmem

theorem renewWorkItemLease_ok {request : RenewRequest} {status : RenewStatus}
    (h : renewWorkItemLease request g = .ok (g', status)) :
    g' = g ∨ ∃ row, g.nodes.get request.fence.workItemId = some (some row) ∧
      request.fence.isValid row request.now = true ∧
      g' = g.write request.fence.workItemId (renewedRow row request.now request.leaseMs) := by
  obtain ⟨_, _, h⟩ := unbind h
  obtain ⟨found, hfound, h⟩ := unbind h
  rcases found with _ | row
  · cases h
    exact .inl rfl
  · rw [Graph.load_eq_some] at hfound
    dsimp only at h
    split_ifs at h with hvalid
    · cases h
      exact .inr ⟨row, hfound, hvalid, rfl⟩
    · cases h
      exact .inl rfl

structure Commits (request : CommitRequest) (g : Graph) (row : Row) (released : Graph)
    (changed : List String) (g' : Graph) (result : Committed) : Prop where
  found : g.nodes.get request.fence.workItemId = some (some row)
  precheck : commitPrecheck request row = none
  outcome : request.outcome = .succeeded ∨ request.outcome = .failed ∨ request.outcome = .cancelled
  fresh : ∀ id payload, (id, payload) ∈ request.receipts.getD [] → g.nodes.get id = none
  releases : releaseDownstream request.now (releasedChildren (applyStatus request row).2 row)
    (g.write request.fence.workItemId (recordResultRefs request (applyStatus request row).1)) =
      .ok (released, changed)
  written : g' = applyReceiptRows (writtenReceipts (applyStatus request row).2 request) released
  status : result.status = (applyStatus request row).2

theorem commitWorkItemResult_ok {request : CommitRequest}
    (h : commitWorkItemResult request g = .ok (g', result)) :
    (g' = g ∧ CommitStatus.ends result.status = false) ∨
      ∃ row released changed, Commits request g row released changed g' result := by
  obtain ⟨found, hfound, h⟩ := unbind h
  rcases found with _ | row
  · cases h
    exact .inl ⟨rfl, rfl⟩
  · rw [Graph.load_eq_some] at hfound
    obtain ⟨_, _, h⟩ := unbind h
    rcases hprecheck : commitPrecheck request row with _ | refusal
    · rw [hprecheck] at h
      obtain ⟨_, houtcome, h⟩ := unbind h
      obtain ⟨_, hextension, h⟩ := unbind h
      obtain ⟨_, _, h⟩ := unbind h
      obtain ⟨⟨released, changed⟩, hreleased, h⟩ := unbind h
      cases h
      refine .inr ⟨row, released, changed, hfound, hprecheck, ?_, ?_, hreleased, rfl, rfl⟩
      · rw [rejectIf_eq_ok] at houtcome
        tauto
      · unfold validateExtension at hextension
        rcases hreceipts : request.receipts with _ | receipts
        · simp
        · rw [hreceipts] at hextension
          obtain ⟨_, _, hextension⟩ := unbind hextension
          exact ensureReceiptRowsAbsent_ok hextension
    · rw [hprecheck] at h
      cases h
      refine .inl ⟨rfl, ?_⟩
      unfold commitPrecheck at hprecheck
      split_ifs at hprecheck <;> cases hprecheck <;> rfl

theorem raisedFences_ok {operation : String} {fences : ℕ × ℕ}
    (h : raisedFences operation row = .ok fences) :
    fences = (row.leaseEpoch + 1, row.fencingToken + 1) ∧ row.leaseEpoch + 1 ≤ u64Max ∧
      row.fencingToken + 1 ≤ u64Max := by
  obtain ⟨epoch, hepoch, h⟩ := unbind h
  obtain ⟨token, htoken, h⟩ := unbind h
  cases h
  rw [okOr_eq_ok, checkedAdd_eq_some] at hepoch htoken
  obtain ⟨rfl, he⟩ := hepoch
  obtain ⟨rfl, ht⟩ := htoken
  exact ⟨rfl, he, ht⟩

theorem cancelWorkItem_ok {request : CancelRequest} {status : CancelStatus}
    (h : cancelWorkItem request g = .ok (g', status)) :
    (g' = g ∧ status ≠ .cancelled) ∨
      ∃ row fences, g.nodes.get request.workItemId = some (some row) ∧
        row.tenant = request.tenant ∧ cancelRefusal row request.now = none ∧
        raisedFences "CancelWorkItem" row = .ok fences ∧ status = .cancelled ∧
        g' = g.write request.workItemId (cancelledRow row request fences) := by
  obtain ⟨found, hfound, h⟩ := unbind h
  rcases found with _ | row
  · cases h
    exact .inl ⟨rfl, by simp⟩
  · rw [Graph.load_eq_some] at hfound
    dsimp only at h
    by_cases htenant : row.tenant = request.tenant
    · rw [if_neg (not_not.mpr htenant)] at h
      rcases hrefusal : cancelRefusal row request.now with _ | refusal
      · rw [hrefusal] at h
        obtain ⟨fences, hfences, h⟩ := unbind h
        obtain ⟨_, _, h⟩ := unbind h
        cases h
        exact .inr ⟨row, fences, hfound, htenant, hrefusal, hfences, rfl, rfl⟩
      · rw [hrefusal] at h
        cases h
        refine .inl ⟨rfl, ?_⟩
        unfold cancelRefusal at hrefusal
        split_ifs at hrefusal <;> cases hrefusal <;> simp
    · rw [if_pos htenant] at h
      cases h
      exact .inl ⟨rfl, by simp⟩

theorem deferWorkItem_ok {request : DeferRequest} {status : DeferStatus}
    (h : deferWorkItem request g = .ok (g', status)) :
    (g' = g ∧ status ≠ .deferred) ∨
      ∃ row fences, g.nodes.get request.fence.workItemId = some (some row) ∧
        request.fence.isValid row request.now = true ∧
        raisedFences "DeferWorkItem" row = .ok fences ∧ status = .deferred ∧
        g' = g.write request.fence.workItemId (deferredRow row request fences) := by
  obtain ⟨_, _, h⟩ := unbind h
  obtain ⟨found, hfound, h⟩ := unbind h
  rcases found with _ | row
  · cases h
    exact .inl ⟨rfl, by simp⟩
  · rw [Graph.load_eq_some] at hfound
    dsimp only at h
    split_ifs at h with hvalid
    · obtain ⟨fences, hfences, h⟩ := unbind h
      cases h
      exact .inr ⟨row, fences, hfound, hvalid, hfences, rfl, rfl⟩
    · cases h
      exact .inl ⟨rfl, by simp⟩

/-! ### What happens to a row -/

/-- A lease was given up: the row is not live and its token has not gone back. -/
structure Freed (row row' : Row) : Prop where
  notLive : row'.status.isLive = false
  nodeType : row'.nodeType = row.nodeType
  tenant : row'.tenant = row.tenant
  metadata : row'.metadata = row.metadata
  token : ∀ t, t ≤ row.fencingToken → t ≤ u64Max → t ≤ row'.fencingToken

theorem Freed.of_quiet {row' row'' : Row} (h : Freed row row') (hquiet : Quiet row' row'') :
    Freed row row'' := by
  refine ⟨hquiet.isLive.trans h.notLive, hquiet.nodeType.trans h.nodeType,
    hquiet.tenant.trans h.tenant, hquiet.metadata.trans h.metadata, fun t ht hbound => ?_⟩
  rw [show row''.fencingToken = row'.fencingToken from congrArg Lease.token hquiet.fences]
  exact h.token t ht hbound

inductive Change (id : String) (c : Call) (r : Result) (row row' : Row) : Prop
  | quiet (h : Quiet row row') (silent : event id c r = none)
  | head (h : row.nodeType = "ConversationHead") (h' : row'.nodeType = "ConversationHead")
      (idle : Idle row') (silent : event id c r = none)
  | granted {request : ClaimWorkItemRequest} {lease : Lease} (call : c = .claim request)
      (h : Granted request row row' lease) (happened : event id c r = some (.granted lease))
  | retired {request : ClaimWorkItemRequest} (call : c = .claim request)
      (h : Retired request row row') (happened : event id c r = some .ended)
  | renewed {request : RenewRequest} (call : c = .renew request)
      (target : request.fence.workItemId = id)
      (valid : request.fence.isValid row request.now = true)
      (h : row' = (renewedRow row request.now request.leaseMs).revised)
      (silent : event id c r = none)
  | settled {request : CommitRequest} (call : c = .commit request)
      (target : request.fence.workItemId = id) (precheck : commitPrecheck request row = none)
      (h : Freed row row') (happened : event id c r = some .ended)
  | cancelled {request : CancelRequest} (call : c = .cancel request)
      (target : request.workItemId = id) (h : Freed row row')
      (happened : event id c r = some .ended)
  | deferred {request : DeferRequest} (call : c = .defer request)
      (target : request.fence.workItemId = id)
      (valid : request.fence.isValid row request.now = true) (h : Freed row row')
      (happened : event id c r = some .ended)

/-- What a call puts where no node was: nothing, an idle row, or a receipt of an outcome
extension. -/
inductive Appears (id : String) (c : Call) : Option (Option Row) → Prop
  | absent : Appears id c none
  | idle {row : Row} (h : Idle row) : Appears id c (some (some row))
  | receipt {request : CommitRequest} {payload : Option Row} (call : c = .commit request)
      (mem : (id, payload) ∈ request.receipts.getD []) : Appears id c (some payload)

inductive Moves (id : String) (c : Call) (r : Result) :
    Option (Option Row) → Option (Option Row) → Prop
  | blank : Moves id c r (some none) (some none)
  | change {row row' : Row} (h : Change id c r row row') :
      Moves id c r (some (some row)) (some (some row'))
  | appears {node : Option (Option Row)} (h : Appears id c node)
      (silent : event id c r = none) : Moves id c r none node

theorem Moves.same {c : Call} (silent : event id c r = none) (node : Option (Option Row)) :
    Moves id c r node node := by
  match node with
  | none => exact .appears .absent silent
  | some none => exact .blank
  | some (some row) => exact .change (.quiet (.refl row) silent)

theorem moves_of_submitting {c : Call} (silent : event id c r = none)
    {node node' : Option (Option Row)} (h : Submitting node node') : Moves id c r node node' := by
  cases h with
  | same => exact .same silent _
  | quiet h => exact .change (.quiet h silent)
  | head h h' idle => exact .change (.head h h' idle silent)
  | fresh idle => exact .appears (.idle idle) silent

/-! ### Every call -/

section
variable {request : ClaimWorkItemRequest}

theorem moves_writeExhausted {scan : Scan}
    (hscan : scanRows request {} g.nodes.rows = .ok scan) (id : String)
    (hevent : event id (.claim request) r =
      if id ∈ scan.exhausted.map Prod.fst then some .ended else none) :
    Moves id (.claim request) r (g.nodes.get id)
      ((writeExhausted scan.exhausted g).nodes.get id) := by
  rcases @get_writeExhausted id scan.exhausted g with ⟨hnone, hget⟩ | ⟨row', hmem, hget⟩
  · rw [hget]
    refine .same (hevent.trans (if_neg fun hmem => ?_)) _
    obtain ⟨⟨k, row⟩, hrow, rfl⟩ := List.mem_map.mp hmem
    exact hnone row hrow
  · obtain ⟨row, hrow, hclassify⟩ := (mem_exhausted hscan).mp hmem
    rw [hget, hrow]
    refine .change (.retired rfl (retired_of_classify hclassify) (hevent.trans (if_pos ?_)))
    exact List.mem_map.mpr ⟨(id, row'), hmem, rfl⟩

theorem claimWorkItem_node {result : Claimed}
    (h : claimWorkItem request g = .ok (g', result)) (id : String) :
    g'.nodes.get id = g.nodes.get id ∨ ∃ row row', g.nodes.get id = some (some row) ∧
      g'.nodes.get id = some (some row') ∧
      (Retired request row row' ∨ ∃ lease, Granted request row row' lease) := by
  obtain ⟨scan, hscan, hended⟩ := claimWorkItem_ok h
  have hwritten : (writeExhausted scan.exhausted g).nodes.get id = g.nodes.get id ∨
      ∃ row row', g.nodes.get id = some (some row) ∧
        (writeExhausted scan.exhausted g).nodes.get id = some (some row') ∧
        (Retired request row row' ∨ ∃ lease, Granted request row row' lease) := by
    rcases @get_writeExhausted id scan.exhausted g with ⟨-, hget⟩ | ⟨row', hmem, hget⟩
    · exact .inl hget
    · obtain ⟨row, hrow, hclassify⟩ := (mem_exhausted hscan).mp hmem
      exact .inr ⟨row, row'.revised, hrow, hget, .inl (retired_of_classify hclassify)⟩
  cases hended with
  | quota => exact hwritten
  | empty => exact hwritten
  | @granted granted base epoch _ room mem fence grant retired =>
    by_cases hid : id = granted
    · subst hid
      obtain ⟨row, hrow, hclassify⟩ := (mem_candidates hscan).mp mem
      exact .inr ⟨row, _, hrow, Graph.get_write_self _ _ _,
        .inr ⟨_, granted_of_classify hclassify fence⟩⟩
    · rw [Graph.get_write_of_ne _ _ hid]
      exact hwritten

theorem moves_claim {result : Claimed}
    (h : claimWorkItem request g = .ok (g', result)) (id : String) :
    Moves id (.claim request) (.claimed result) (g.nodes.get id) (g'.nodes.get id) := by
  obtain ⟨scan, hscan, hended⟩ := claimWorkItem_ok h
  cases hended with
  | quota => exact moves_writeExhausted hscan id rfl
  | empty => exact moves_writeExhausted hscan id rfl
  | @granted granted base epoch _ room mem fence grant retired =>
    obtain ⟨expiry, attempt, ceiling, hgrant⟩ := grant
    by_cases hid : id = granted
    · subst hid
      obtain ⟨row, hrow, hclassify⟩ := (mem_candidates hscan).mp mem
      rw [Graph.get_write_self, hrow]
      refine .change (.granted rfl (granted_of_classify hclassify fence) ?_)
      change claimEvent id result = _
      unfold claimEvent
      rw [hgrant]
      exact if_pos rfl
    · rw [Graph.get_write_of_ne _ _ hid]
      refine moves_writeExhausted hscan id ?_
      change claimEvent id result = _
      unfold claimEvent
      rw [hgrant, ← retired]
      exact if_neg (Ne.symm hid)

end

theorem moves_renew {request : RenewRequest} {status : RenewStatus}
    (h : renewWorkItemLease request g = .ok (g', status)) (id : String) :
    Moves id (.renew request) (.renewed status) (g.nodes.get id) (g'.nodes.get id) := by
  rcases renewWorkItemLease_ok h with rfl | ⟨row, hrow, hvalid, rfl⟩
  · exact .same rfl _
  · by_cases hid : id = request.fence.workItemId
    · subst hid
      rw [hrow, Graph.get_write_self]
      exact .change (.renewed rfl rfl hvalid rfl rfl)
    · rw [Graph.get_write_of_ne _ _ hid]
      exact .same rfl _

theorem freed_commit {request : CommitRequest} (hprecheck : commitPrecheck request row = none) :
    Freed row (recordResultRefs request (applyStatus request row).1) := by
  have hvalid : row.leaseIsValid request.fence.lease request.now = true := by
    unfold commitPrecheck at hprecheck
    split_ifs at hprecheck with h1 h2 h3
    exact h3
  obtain ⟨hlease, -⟩ := Row.leaseIsValid_iff.mp hvalid
  have htoken : request.fence.lease.token = row.fencingToken := by
    unfold Row.lease? at hlease
    split_ifs at hlease
    rw [← Option.some.inj hlease]
    rfl
  unfold applyStatus
  split_ifs with hretry
  · refine ⟨rfl, rfl, rfl, rfl, fun t ht hbound => ?_⟩
    change t ≤ saturatingAdd u64Max request.fence.lease.token 1
    unfold saturatingAdd
    omega
  · refine ⟨?_, rfl, rfl, rfl, fun t ht _ => ht⟩
    unfold terminalStatus
    split
    · rfl
    · rfl
    · split_ifs <;> rfl

theorem ends_applyStatus (request : CommitRequest) (row : Row) :
    CommitStatus.ends (applyStatus request row).2 = true := by
  unfold applyStatus terminalStatus
  split_ifs
  · rfl
  · split <;> rfl
  · split <;> rfl

theorem mem_receipts_of_written {status : CommitStatus} {request : CommitRequest}
    {receipt : String × Option Row} (h : receipt ∈ writtenReceipts status request) :
    receipt ∈ request.receipts.getD [] := by
  unfold writtenReceipts at h
  split_ifs at h
  · exact absurd h List.not_mem_nil
  · exact h

section
variable {request : CommitRequest} {released : Graph} {changed : List String}
  (h : Commits request g row released changed g' result)
include h

theorem Commits.moves_self : Moves request.fence.workItemId (.commit request) (.committed result)
      (g.nodes.get request.fence.workItemId) (released.nodes.get request.fence.workItemId) := by
  have hevent : event request.fence.workItemId (.commit request) (.committed result) =
      some .ended := by
    refine if_pos ⟨rfl, ?_⟩
    rw [h.status]
    exact ends_applyStatus request row
  have hfreed := (freed_commit h.precheck).of_quiet (.revised _)
  have hquiet := quietNode_releaseDownstream h.releases request.fence.workItemId
  rw [Graph.get_write_self] at hquiet
  rw [h.found]
  generalize released.nodes.get request.fence.workItemId = node at hquiet
  cases hquiet with
  | same => exact .change (.settled rfl rfl h.precheck hfreed hevent)
  | quiet hq => exact .change (.settled rfl rfl h.precheck (hfreed.of_quiet hq) hevent)

theorem Commits.moves (id : String) :
    Moves id (.commit request) (.committed result) (g.nodes.get id) (g'.nodes.get id) := by
  rcases @get_applyReceiptRows id (writtenReceipts (applyStatus request row).2 request) released with
    ⟨-, hget⟩ | ⟨payload, hmem, hget⟩
  · rw [← h.written] at hget
    rw [hget]
    by_cases hid : id = request.fence.workItemId
    · subst hid
      exact h.moves_self
    · have hevent : event id (.commit request) (.committed result) = none :=
        if_neg fun hcontra => hid hcontra.1.symm
      have hquiet := quietNode_releaseDownstream h.releases id
      rw [Graph.get_write_of_ne _ _ hid] at hquiet
      generalize released.nodes.get id = node at hquiet
      generalize g.nodes.get id = node₀ at hquiet
      cases hquiet with
      | same => exact .same hevent _
      | quiet hq => exact .change (.quiet hq hevent)
  · have hreceipt := mem_receipts_of_written hmem
    have habsent := h.fresh id payload hreceipt
    rw [← h.written] at hget
    rw [hget, habsent]
    refine .appears (.receipt rfl hreceipt) (if_neg fun hcontra => ?_)
    rw [← hcontra.1, h.found] at habsent
    cases habsent

end

theorem moves_commit {request : CommitRequest}
    (h : commitWorkItemResult request g = .ok (g', result)) (id : String) :
    Moves id (.commit request) (.committed result) (g.nodes.get id) (g'.nodes.get id) := by
  rcases commitWorkItemResult_ok h with ⟨rfl, hends⟩ | ⟨row, released, changed, hcommits⟩
  · refine .same ?_ _
    refine if_neg fun hcontra => ?_
    rw [hends] at hcontra
    cases hcontra.2
  · exact hcommits.moves id

theorem freed_raised {operation : String} {fences : ℕ × ℕ}
    (h : raisedFences operation row = .ok fences) {row' : Row}
    (hstatus : row'.status.isLive = false) (hnode : row'.nodeType = row.nodeType)
    (htenant : row'.tenant = row.tenant) (hmetadata : row'.metadata = row.metadata)
    (htoken : row'.fencingToken = fences.2) : Freed row row' := by
  obtain ⟨rfl, -, -⟩ := raisedFences_ok h
  refine ⟨hstatus, hnode, htenant, hmetadata, fun t ht _ => ?_⟩
  rw [htoken]
  exact ht.trans (Nat.le_succ _)

theorem moves_cancel {request : CancelRequest} {status : CancelStatus}
    (h : cancelWorkItem request g = .ok (g', status)) (id : String) :
    Moves id (.cancel request) (.cancelled status) (g.nodes.get id) (g'.nodes.get id) := by
  rcases cancelWorkItem_ok h with ⟨rfl, hstatus⟩ | ⟨row, fences, hrow, -, -, hfences, rfl, rfl⟩
  · refine .same ?_ _
    exact if_neg fun hcontra => hstatus hcontra.2
  · by_cases hid : id = request.workItemId
    · subst hid
      rw [hrow, Graph.get_write_self]
      exact .change (.cancelled rfl rfl (freed_raised hfences rfl rfl rfl rfl rfl) (if_pos ⟨rfl, rfl⟩))
    · rw [Graph.get_write_of_ne _ _ hid]
      refine .same ?_ _
      exact if_neg fun hcontra => hid hcontra.1.symm

theorem moves_defer {request : DeferRequest} {status : DeferStatus}
    (h : deferWorkItem request g = .ok (g', status)) (id : String) :
    Moves id (.defer request) (.deferred status) (g.nodes.get id) (g'.nodes.get id) := by
  rcases deferWorkItem_ok h with ⟨rfl, hstatus⟩ | ⟨row, fences, hrow, hvalid, hfences, rfl, rfl⟩
  · refine .same ?_ _
    exact if_neg fun hcontra => hstatus hcontra.2
  · by_cases hid : id = request.fence.workItemId
    · subst hid
      rw [hrow, Graph.get_write_self]
      exact .change (.deferred rfl rfl hvalid (freed_raised hfences rfl rfl rfl rfl rfl)
        (if_pos ⟨rfl, rfl⟩))
    · rw [Graph.get_write_of_ne _ _ hid]
      refine .same ?_ _
      exact if_neg fun hcontra => hid hcontra.1.symm

/-- **What a call does to a node**, whatever the call and the node. -/
theorem moves_call (H : Digests) (g : Graph) (c : Call) (id : String) :
    Moves id c (call H g c).2 (g.nodes.get id) ((step H g c).nodes.get id) := by
  unfold step call
  rcases happly : apply H g c with message | ⟨g', r⟩
  · exact .same (by cases c <;> rfl) _
  · dsimp only
    cases c with
    | submit request scope =>
      obtain ⟨⟨g₁, result⟩, h, hr⟩ := unbind happly
      cases hr
      exact moves_of_submitting rfl (submitting_submitWorkItem h id)
    | submitBatch request scope =>
      obtain ⟨⟨g₁, results⟩, h, hr⟩ := unbind happly
      cases hr
      exact moves_of_submitting rfl (submitting_submitChildren (submitWorkItems_ok h) id)
    | claim request =>
      obtain ⟨⟨g₁, result⟩, h, hr⟩ := unbind happly
      cases hr
      exact moves_claim h id
    | renew request =>
      obtain ⟨⟨g₁, status⟩, h, hr⟩ := unbind happly
      cases hr
      exact moves_renew h id
    | commit request =>
      obtain ⟨⟨g₁, result⟩, h, hr⟩ := unbind happly
      cases hr
      exact moves_commit h id
    | cancel request =>
      obtain ⟨⟨g₁, status⟩, h, hr⟩ := unbind happly
      cases hr
      exact moves_cancel h id
    | defer request =>
      obtain ⟨⟨g₁, status⟩, h, hr⟩ := unbind happly
      cases hr
      exact moves_defer h id

/-! ### What no call changes -/

/-- The same item, at another point of its life. -/
structure Kept (row row' : Row) : Prop where
  nodeType : row'.nodeType = row.nodeType
  tenant : row'.tenant = row.tenant
  metadata : row'.metadata = row.metadata

theorem Change.kept {c : Call} {row' : Row} (h : Change id c r row row')
    (hitem : row.isWorkItem = true) : Kept row row' := by
  cases h with
  | quiet h _ => exact ⟨h.nodeType, h.tenant, h.metadata⟩
  | head h _ _ _ =>
    unfold Row.isWorkItem at hitem
    rw [h] at hitem
    exact absurd hitem (by decide)
  | granted _ h _ => exact ⟨h.kept.1, h.kept.2.1, h.metadata⟩
  | retired _ h _ => exact ⟨h.kept.1, h.kept.2.1, h.metadata⟩
  | renewed _ _ _ h _ =>
    subst h
    exact ⟨rfl, rfl, rfl⟩
  | settled _ _ _ h _ => exact ⟨h.nodeType, h.tenant, h.metadata⟩
  | cancelled _ _ h _ => exact ⟨h.nodeType, h.tenant, h.metadata⟩
  | deferred _ _ _ h _ => exact ⟨h.nodeType, h.tenant, h.metadata⟩

/-- **An item stays the same item** through every native call: leases, fences, counters and statuses come
and go on a row that keeps its type, its tenant and its metadata. -/
theorem kept_step (H : Digests) {c : Call} (hrow : g.nodes.get id = some (some row))
    (hitem : row.isWorkItem = true) :
    ∃ row', (step H g c).nodes.get id = some (some row') ∧ Kept row row' := by
  have hmoves := moves_call H g c id
  rw [hrow] at hmoves
  generalize (step H g c).nodes.get id = node at hmoves
  cases hmoves with
  | change h => exact ⟨_, rfl, h.kept hitem⟩

end Medulla.WorkItem.Effects
