import Medulla.CrossShard.Coordinator

/-! # What a transaction's steps leave alone

Every record and every child id carries the id of its transaction, so what is done for one
transaction leaves the records and effects of every other as they are. -/

namespace Medulla.CrossShard.Frames

open Library.Durable Library.OrderedTable Records Coordinator

variable {μ : Type}

/-- Nothing of a transaction changes. -/
structure Untouched (t : String) (s s' : Store μ) : Prop where
  prepares : s'.preparesOf t = s.preparesOf t
  decision : s'.decisions.get t = s.decisions.get t
  parents : s'.parents = s.parents
  effects : (s'.effects.filter fun e => e.1.txnId = t) = s.effects.filter fun e => e.1.txnId = t

/-- Every write of a program leaves a transaction alone. -/
abbrev Leaves {α : Type} (t : String) (m : Prog (Store μ) α) : Prop := Keeps (Untouched t) m

/-! ### Writes for another transaction -/

section writes

variable {t t' : String}

theorem untouched_withPrepares (h : t ≠ t') (s : Store μ)
    (rows : Table GroupId (List (GraphSlice μ))) : Untouched t s (s.withPrepares t' rows) :=
  ⟨by rw [Store.preparesOf_withPrepares, if_neg h], rfl, rfl, rfl⟩

theorem leaves_preparePut (h : t ≠ t') (g : GroupId) (slices : List (GraphSlice μ)) :
    Leaves t (xshardPreparePut t' g slices) := by
  refine keeps_write fun s s' hs => ?_
  cases hs
  exact untouched_withPrepares h s _

theorem leaves_prepareClear (h : t ≠ t') (g : GroupId) :
    Leaves t (xshardPrepareClear t' g : Prog (Store μ) Unit) := by
  refine keeps_write fun s s' hs => ?_
  cases hs
  exact untouched_withPrepares h s _

theorem leaves_putDecision (h : t ≠ t') (d : Decision) :
    Leaves t (putDecision t' d : Prog (Store μ) Unit) := by
  refine keeps_write fun s s' hs => ?_
  rcases hm : mergeCoordinatorDecision (s.decisions.get t') d with e | merged
  · rw [hm] at hs
    cases hs
  · rw [hm] at hs
    cases hs
    exact ⟨rfl, Table.get_insert_of_ne _ _ h, rfl, rfl⟩

theorem leaves_decisionClear (h : t ≠ t') :
    Leaves t (xshardDecisionClear t' : Prog (Store μ) Unit) := by
  refine keeps_write fun s s' hs => ?_
  cases hs
  exact ⟨rfl, Table.get_remove_of_ne _ h, rfl, rfl⟩

theorem untouched_applyRequest {s : Store μ} {req : Child × μ} (h : req.1.txnId ≠ t) :
    Untouched t s (s.applyRequest req) := by
  unfold Store.applyRequest
  split_ifs
  · exact ⟨rfl, rfl, rfl, rfl⟩
  · exact ⟨rfl, rfl, rfl, by simp [h]⟩

theorem leaves_clientWrite (env : Env μ) {req : Child × μ} (h : req.1.txnId ≠ t) :
    Leaves t (clientWrite env req) := by
  have hwrite : Leaves t (write fun s : Store μ => .ok (s.applyRequest req)) := by
    refine keeps_write fun s s' hs => ?_
    cases hs
    exact untouched_applyRequest h
  unfold clientWrite
  cases env.writeReply req.1 with
  | refused => exact keeps_fail _
  | lost => exact keeps_bind hwrite fun _ => keeps_fail _
  | done => exact hwrite

end writes

/-! ### The requests of a slice -/

theorem mem_requestsFrom {command : μ → Except String Unit} {graph t : String} :
    ∀ {k : ℕ} {ms : List μ} {requests : List (Child × μ)},
      requestsFrom command graph t k ms = .ok requests →
      ∀ req, req ∈ requests ↔ ∃ i m, ms[i]? = some m ∧ req = (⟨graph, t, k + i⟩, m)
  | k, [], requests, h, req => by
    cases h
    simp
  | k, m :: ms, requests, h, req => by
    rw [requestsFrom] at h
    rcases hm : command m with e | u
    · rw [hm] at h
      cases h
    · rcases hr : requestsFrom command graph t (k + 1) ms with e | rest
      · rw [hm, hr] at h
        cases h
      · rw [hm, hr] at h
        cases h
        rw [List.mem_cons, mem_requestsFrom hr]
        constructor
        · rintro (rfl | ⟨i, m', hi, rfl⟩)
          · exact ⟨0, m, rfl, rfl⟩
          · exact ⟨i + 1, m', by simpa using hi, by rw [Nat.add_right_comm, Nat.add_assoc]⟩
        · rintro ⟨i, m', hi, rfl⟩
          rcases i with _ | i
          · left
            simp only [List.getElem?_cons_zero, Option.some.injEq] at hi
            rw [hi, Nat.add_zero]
          · right
            exact ⟨i, m', by simpa using hi, by rw [Nat.add_right_comm, Nat.add_assoc]⟩

theorem mem_toRequests {env : Env μ} {t : String} {slice : GraphSlice μ}
    {requests : List (Child × μ)} (h : toRequests env t slice = .ok requests) (req : Child × μ) :
    req ∈ requests ↔ ∃ i m, slice.methods[i]? = some m ∧ req = (⟨slice.graphName, t, i⟩, m) := by
  rw [mem_requestsFrom h]
  simp

/-! ### Programs for another transaction -/

section programs

variable {t t' : String}

theorem leaves_applySlice (h : t ≠ t') (env : Env μ) (slice : GraphSlice μ) :
    Leaves t (applySlice env t' slice) := by
  refine keeps_read_bind fun s requests hr => keeps_forEach fun req hreq => ?_
  obtain ⟨i, m, -, rfl⟩ := (mem_toRequests hr req).mp hreq
  exact leaves_clientWrite env (Ne.symm h)

theorem leaves_applyCommit (h : t ≠ t') (env : Env μ) (ps : List (GroupId × List (GraphSlice μ)))
    (clear : Bool) : Leaves t (applyCommit env t' ps clear) := by
  refine keeps_bind (keeps_forEach fun p _ => ?_) fun _ => ?_
  · refine keeps_ite (keeps_fail _) (keeps_bind ?_ fun _ => leaves_prepareClear h p.1)
    exact keeps_forEach fun slice _ => leaves_applySlice h env slice
  · exact keeps_onlyIf (leaves_decisionClear h)

theorem leaves_applyAbort (h : t ≠ t') (gs : List GroupId) (clear : Bool) :
    Leaves t (applyAbort t' gs clear : Prog (Store μ) Unit) := by
  refine keeps_bind (keeps_forEach fun g _ => leaves_prepareClear h g) fun _ => ?_
  exact keeps_onlyIf (leaves_decisionClear h)

theorem leaves_prepareParticipant (h : t ≠ t') (env : Env μ) (g : GroupId)
    (slices : List (GraphSlice μ)) : Leaves t (prepareParticipant env t' g slices) := by
  refine keeps_ite (keeps_pure _) (keeps_ite (keeps_pure _) (keeps_ite (keeps_pure _)
    (keeps_ite (keeps_pure _) ?_)))
  cases env.prepareReply g with
  | refused => exact keeps_pure _
  | lost => exact keeps_bind (leaves_preparePut h g slices) fun _ => keeps_pure _
  | done => exact keeps_bind (leaves_preparePut h g slices) fun _ => keeps_pure _

theorem leaves_runPreparePhase (h : t ≠ t') (env : Env μ)
    (writing : List (GroupId × List (GraphSlice μ))) :
    Leaves t (runPreparePhase env t' writing) := by
  refine keeps_bind (keeps_collect (fun p => ?_) _) fun _ => keeps_pure _
  exact keeps_bind (leaves_prepareParticipant h env p.1 p.2) fun _ => keeps_pure _

theorem leaves_commitInner (env : Env μ) (txn : CrossShardTxn μ) (h : t ≠ txn.txnId)
    (retain : Bool) : Leaves t (commitCrossShardInner env txn retain) := by
  refine keeps_ite (keeps_fail _) (keeps_bind ?_ fun _ => ?_)
  · exact keeps_onlyIf (leaves_putDecision h _)
  · refine keeps_ite ?_ (keeps_ite ?_ ?_)
    · exact keeps_bind (keeps_onlyIf (leaves_putDecision h _)) fun _ => keeps_pure _
    · exact keeps_bind (keeps_onlyIf (leaves_putDecision h _)) fun _ => keeps_pure _
    · refine keeps_bind (leaves_runPreparePhase h env _) fun r => ?_
      refine keeps_bind (keeps_ite (leaves_putDecision h _) (leaves_putDecision h _)) fun _ => ?_
      refine keeps_ite ?_ ?_
      · exact keeps_bind (leaves_applyCommit h env _ _) fun _ => keeps_pure _
      · exact keeps_bind (leaves_applyAbort h _ _) fun _ => keeps_pure _

theorem leaves_commitRecoverable (env : Env μ) (txn : CrossShardTxn μ) (h : t ≠ txn.txnId) :
    Leaves t (commitCrossShardRecoverable env txn) := by
  refine keeps_bind (keeps_read _) fun prepared => keeps_bind (keeps_read _) fun decision => ?_
  match decision with
  | some true => exact keeps_bind (leaves_applyCommit h env _ _) fun _ => keeps_pure _
  | some false => exact keeps_bind (leaves_applyAbort h _ _) fun _ => keeps_pure _
  | none =>
    refine keeps_bind (keeps_read _) fun started => keeps_ite ?_ ?_
    · refine keeps_bind (leaves_putDecision h _) fun _ => ?_
      exact keeps_bind (leaves_applyAbort h _ _) fun _ => keeps_pure _
    · exact leaves_commitInner env txn h true

theorem leaves_resolveInDoubt (env : Env μ) {r : String × List (GroupId × List (GraphSlice μ))}
    (h : t ≠ r.1) : Leaves t (resolveInDoubt env r) := by
  refine keeps_bind (keeps_read _) fun retain => keeps_bind (keeps_read _) fun decision => ?_
  match decision with
  | some true => exact leaves_applyCommit h env _ _
  | some false => exact leaves_applyAbort h _ _
  | none =>
    refine keeps_bind ?_ fun _ => leaves_applyAbort h _ _
    exact keeps_onlyIf (leaves_putDecision h _)

theorem leaves_collectDecision {r : String × Decision} (h : t ≠ r.1) :
    Leaves t (collectDecision r : Prog (Store μ) Unit) := by
  refine keeps_ite (keeps_pure ()) (keeps_bind (keeps_read _) fun parent => ?_)
  match parent with
  | none => exact keeps_pure ()
  | some none => exact keeps_fail _
  | some (some result) => exact keeps_ite (keeps_fail _) (leaves_decisionClear h)

end programs

end Medulla.CrossShard.Frames
