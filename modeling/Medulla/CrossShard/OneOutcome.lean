import Medulla.CrossShard.CrashSafety

/-! # One outcome

The decision row of a recoverable transaction moves in one direction: from nothing to the start
marker, from there to an outcome that is kept, and no further until it is collected. What a call
reports is what the row then holds, so all calls report the same until the decision is collected:
by `clearRecoverableDecision`, or by a recovery that finds the parent terminal.

* every run: `one_outcome`. -/

namespace Medulla.CrossShard.OneOutcome

open Library.Durable Library.OrderedTable Records Coordinator
open Frames CrashSafety

variable {μ : Type}

/-! ### The decision row -/

def decided : TxnOutcome → Bool
  | .committed => true
  | .aborted => false

def Row (t : String) (D : Option Decision → Prop) (s : Store μ) : Prop := D (s.decisions.get t)

def Kept (commit : Bool) (row : Option Decision) : Prop := row = some (.terminal commit true)

/-- A protocol has started and nothing but an abort may come of it. -/
def Doomed (row : Option Decision) : Prop := row = some .pending ∨ row = some (.terminal false true)

def Recoverable (row : Option Decision) : Prop := ∀ d, row = some d → d.retained = true

def ParentTerminal (t : String) (s : Store μ) : Prop := ∃ result, s.parents.get t = some (some result)

/-- A write that leaves the decision row and the parents alone. -/
structure SameRow (t : String) (s s' : Store μ) : Prop where
  row : s'.decisions.get t = s.decisions.get t
  parents : s'.parents = s.parents

structure Resolves (D : Option Decision → Prop) : Prop where
  retained : ∀ row, D row → Recoverable row
  presumed : D (some .pending) → D (some (.terminal false true))

theorem resolves_kept (commit : Bool) : Resolves (Kept commit) := by
  refine ⟨?_, nofun⟩
  rintro row rfl d hd
  cases hd
  rfl

theorem resolves_doomed : Resolves Doomed := by
  refine ⟨?_, fun _ => Or.inr rfl⟩
  rintro row (rfl | rfl) d hd
  · cases hd
    rfl
  · cases hd
    rfl

theorem resolves_recoverable : Resolves Recoverable := by
  refine ⟨fun row h => h, fun _ d hd => ?_⟩
  cases hd
  rfl

section steady

variable {t : String}

theorem SameRow.of_untouched {s s' : Store μ} (h : Untouched t s s') : SameRow t s s' :=
  ⟨h.decision, h.parents⟩

theorem steady_of_leaves {α : Type} {m : Prog (Store μ) α} (h : Leaves t m) : Keeps (SameRow t) m :=
  h.mono fun _ _ => SameRow.of_untouched

theorem steady_prepareClear (t' : String) (g : GroupId) :
    Keeps (SameRow t) (xshardPrepareClear t' g : Prog (Store μ) Unit) := by
  refine keeps_write fun s s' hs => ?_
  cases hs
  exact ⟨rfl, rfl⟩

theorem steady_preparePut (t' : String) (g : GroupId) (slices : List (GraphSlice μ)) :
    Keeps (SameRow t) (xshardPreparePut t' g slices) := by
  refine keeps_write fun s s' hs => ?_
  cases hs
  exact ⟨rfl, rfl⟩

theorem steady_clientWrite (env : Env μ) (req : Child × μ) :
    Keeps (SameRow t) (clientWrite env req) := by
  have hwrite : Keeps (SameRow t) (write fun s : Store μ => .ok (s.applyRequest req)) := by
    refine keeps_write fun s s' hs => ?_
    cases hs
    unfold Store.applyRequest
    split_ifs
    · exact ⟨rfl, rfl⟩
    · exact ⟨rfl, rfl⟩
  unfold clientWrite
  cases env.writeReply req.1 with
  | refused => exact keeps_fail _
  | lost => exact keeps_bind hwrite fun _ => keeps_fail _
  | done => exact hwrite

theorem steady_applyCommit (env : Env μ) (t' : String)
    (ps : List (GroupId × List (GraphSlice μ))) :
    Keeps (SameRow t) (applyCommit env t' ps false) := by
  refine keeps_bind (keeps_forEach fun p _ => ?_) fun _ => keeps_pure ()
  refine keeps_ite (keeps_fail _) (keeps_bind ?_ fun _ => steady_prepareClear t' p.1)
  exact keeps_forEach fun slice _ =>
    keeps_bind (keeps_read _) fun _ => keeps_forEach fun req _ => steady_clientWrite env req

theorem steady_applyAbort (t' : String) (gs : List GroupId) :
    Keeps (SameRow t) (applyAbort t' gs false : Prog (Store μ) Unit) :=
  keeps_bind (keeps_forEach fun g _ => steady_prepareClear t' g) fun _ => keeps_pure ()

theorem steady_runPreparePhase (env : Env μ) (t' : String)
    (writing : List (GroupId × List (GraphSlice μ))) :
    Keeps (SameRow t) (runPreparePhase env t' writing) := by
  refine keeps_bind (keeps_collect (fun p => keeps_bind ?_ fun _ => keeps_pure _) _)
    fun _ => keeps_pure _
  refine keeps_ite (keeps_pure _) (keeps_ite (keeps_pure _) (keeps_ite (keeps_pure _)
    (keeps_ite (keeps_pure _) ?_)))
  cases env.prepareReply p.1 with
  | refused => exact keeps_pure _
  | lost => exact keeps_bind (steady_preparePut t' p.1 p.2) fun _ => keeps_pure _
  | done => exact keeps_bind (steady_preparePut t' p.1 p.2) fun _ => keeps_pure _

end steady

/-! ### Calls of the transaction -/

abbrev RowSpec {α : Type} (t : String) (D : Option Decision → Prop) (P : Store μ → Prop)
    (m : Prog (Store μ) α) (Q : α → Store μ → Prop) : Prop :=
  Spec (Row t D) (fun _ _ => True) P m Q

section rows

variable {t : String} {D D' : Option Decision → Prop}

theorem rowSpec_steady {α : Type} {m : Prog (Store μ) α} (h : Keeps (SameRow t) m)
    (hD : ∀ row, D' row → D row) : RowSpec t D (Row t D') m fun _ => Row t D' := by
  refine h.spec fun s s' hsame hs => ?_
  have hs' : Row t D' s' := by
    unfold Row
    rw [hsame.row]
    exact hs
  exact ⟨hs', hD _ hs', trivial⟩

theorem rowSpec_putDecision {row : Option Decision} {requested merged : Decision}
    (hm : mergeCoordinatorDecision row requested = .ok merged) (hD : D (some merged)) :
    RowSpec t D (Row t (· = row)) (putDecision t requested : Prog (Store μ) Unit)
      fun _ => Row t (· = some merged) := by
  refine spec_write fun s s' hrow hs => ?_
  obtain ⟨merged', hm', rfl⟩ := putDecision_row hs
  have heq : merged' = merged := by
    rw [show s.decisions.get t = row from hrow] at hm'
    exact Except.ok.inj (hm'.symm.trans hm)
  subst heq
  have hget : (s.decisions.insert t merged').get t = some merged' := Table.get_insert_self _ _ _
  refine ⟨?_, trivial, hget⟩
  unfold Row
  rw [hget]
  exact hD

variable {txn : CrossShardTxn μ}

theorem rowSpec_commit_kept (env : Env μ) (commit : Bool) :
    RowSpec txn.txnId (Kept commit) (Row txn.txnId (Kept commit))
      (commitCrossShardRecoverable env txn)
      fun outcome s => commit = decided outcome ∧ Row txn.txnId (Kept commit) s := by
  refine spec_bind (R := fun _ => Row txn.txnId (Kept commit)) (spec_read fun s _ h _ => h)
    fun prepared => ?_
  refine spec_bind (R := fun decision s => decision = some commit ∧ Row txn.txnId (Kept commit) s)
    (spec_read fun s decision h hr => ⟨?_, h⟩) fun decision => spec_assume fun hd => ?_
  · cases hr
    unfold Store.decisionGet
    rw [show s.decisions.get txn.txnId = _ from h]
    rfl
  · subst hd
    match commit with
    | true =>
      refine spec_bind (rowSpec_steady (steady_applyCommit env _ _) fun _ => id) fun _ => ?_
      exact spec_pure fun s h => ⟨rfl, h⟩
    | false =>
      refine spec_bind (rowSpec_steady (steady_applyAbort _ _) fun _ => id) fun _ => ?_
      exact spec_pure fun s h => ⟨rfl, h⟩

theorem rowSpec_presumeAbort {row : Option Decision} (gs : List GroupId)
    (hm : mergeCoordinatorDecision row (.terminal false true) = .ok (.terminal false true))
    (hD : D (some (.terminal false true))) :
    RowSpec t D (Row t (· = row)) (presumeAbort t gs : Prog (Store μ) TxnOutcome)
      fun outcome s => outcome = .aborted ∧ Row t (Kept false) s := by
  refine spec_bind (rowSpec_putDecision hm hD) fun _ => ?_
  refine spec_bind (rowSpec_steady (steady_applyAbort _ _) ?_) fun _ => ?_
  · rintro row rfl
    exact hD
  · exact spec_pure fun s h => ⟨rfl, h⟩

theorem rowSpec_undecided (env : Env μ) (row : Option Decision) {started : Bool}
    (hrow : row.bind Decision.outcome = none) (hstarted : row.any Decision.retained = started)
    {Q : TxnOutcome → Store μ → Prop}
    (h : ∀ prepared : List (GroupId × List (GraphSlice μ)),
      RowSpec txn.txnId D (Row txn.txnId (· = row))
        (if started || !prepared.isEmpty then presumeAbort txn.txnId (prepared.map Prod.fst)
          else commitCrossShardInner env txn true) Q) :
    RowSpec txn.txnId D (Row txn.txnId (· = row)) (commitCrossShardRecoverable env txn) Q := by
  refine spec_bind (R := fun _ => Row txn.txnId (· = row)) (spec_read fun s _ h _ => h)
    fun prepared => ?_
  refine spec_bind (R := fun decision s => decision = none ∧ Row txn.txnId (· = row) s)
    (spec_read fun s decision h hr => ⟨?_, h⟩) fun decision => spec_assume fun hd => ?_
  · cases hr
    unfold Store.decisionGet
    rw [show s.decisions.get txn.txnId = row from h, hrow]
  · subst hd
    refine spec_bind (R := fun read s => read = started ∧ Row txn.txnId (· = row) s)
      (spec_read fun s read h hr => ⟨?_, h⟩) fun read => spec_assume fun hread => ?_
    · cases hr
      unfold Store.decisionRetainGet
      rw [show s.decisions.get txn.txnId = row from h, hstarted]
    · subst hread
      exact h prepared

theorem rowSpec_commit_pending (env : Env μ) :
    RowSpec txn.txnId Doomed (Row txn.txnId (· = some .pending))
      (commitCrossShardRecoverable env txn)
      fun outcome s => outcome = .aborted ∧ Row txn.txnId (Kept false) s := by
  refine rowSpec_undecided env _ rfl rfl fun prepared => ?_
  exact rowSpec_presumeAbort _ rfl (Or.inr rfl)

theorem rowSpec_commitParticipants (env : Env μ) (ps : List (GroupId × List (GraphSlice μ))) :
    RowSpec t Recoverable (Row t (· = some .pending)) (commitParticipants env t ps true)
      fun outcome => Row t (Kept (decided outcome)) := by
  have hkept : ∀ commit, Recoverable (some (.terminal commit true)) := by
    intro commit d hd
    cases hd
    rfl
  have hput : ∀ commit, RowSpec t Recoverable (Row t (· = some .pending))
      (xshardRecoverableDecisionPut t commit : Prog (Store μ) Unit)
      fun _ => Row t (Kept commit) := fun commit => rowSpec_putDecision rfl (hkept commit)
  have hsteady : ∀ commit row, Kept commit row → Recoverable row := by
    rintro commit row rfl
    exact hkept commit
  refine spec_ite (fun _ => ?_) fun _ => spec_ite (fun _ => ?_) fun _ => ?_
  · exact spec_bind (hput false) fun _ => spec_pure fun s h => h
  · exact spec_bind (hput true) fun _ => spec_pure fun s h => h
  · refine spec_bind (rowSpec_steady (steady_runPreparePhase env t _) ?_) fun (allYes, prepared) => ?_
    · rintro row rfl d hd
      cases hd
      rfl
    · dsimp only
      refine spec_bind (hput _) fun _ => spec_ite (fun hc => ?_) fun hc => ?_
      · rw [hc]
        refine spec_bind (rowSpec_steady (steady_applyCommit env t _) (hsteady true)) fun _ => ?_
        exact spec_pure fun s h => h
      · rw [Bool.not_eq_true] at hc
        rw [hc]
        refine spec_bind (rowSpec_steady (steady_applyAbort t _) (hsteady false)) fun _ => ?_
        exact spec_pure fun s h => h

theorem rowSpec_commit_recoverable (env : Env μ) :
    RowSpec txn.txnId Recoverable (Row txn.txnId Recoverable)
      (commitCrossShardRecoverable env txn)
      fun outcome => Row txn.txnId (Kept (decided outcome)) := by
  have hkept : ∀ commit, Recoverable (some (.terminal commit true)) := by
    intro commit d hd
    cases hd
    rfl
  have hpending : Recoverable (some .pending) := by
    intro d hd
    cases hd
    rfl
  intro s hs
  rcases hrow : s.decisions.get txn.txnId with _ | _ | ⟨commit, retained⟩
  · refine rowSpec_undecided env none rfl rfl (fun prepared => ?_) s hrow
    refine spec_ite (fun _ => ?_) fun _ => ?_
    · exact (rowSpec_presumeAbort _ rfl (hkept false)).post fun outcome s h => h.1 ▸ h.2
    · refine spec_ite (fun _ => spec_fail _) fun _ => ?_
      refine spec_bind (R := fun _ => Row txn.txnId (· = some .pending)) ?_ fun _ => ?_
      · exact rowSpec_putDecision rfl hpending
      · exact rowSpec_commitParticipants env _
  · obtain ⟨h1, h2, h3⟩ := rowSpec_commit_pending env s hrow
    refine ⟨fun u hu => ?_, h2, fun outcome ho => ?_⟩
    · exact resolves_doomed.retained _ (h1 u hu)
    · obtain ⟨rfl, hk⟩ := h3 outcome ho
      exact hk
  · have hr : retained = true := hs _ hrow
    subst hr
    obtain ⟨h1, h2, h3⟩ := rowSpec_commit_kept env commit s hrow
    refine ⟨fun u hu => ?_, h2, fun outcome ho => ?_⟩
    · exact (resolves_kept commit).retained _ (h1 u hu)
    · obtain ⟨rfl, hk⟩ := h3 outcome ho
      exact hk

theorem rowSpec_commit_doomed (env : Env μ) :
    RowSpec txn.txnId Doomed (Row txn.txnId Doomed) (commitCrossShardRecoverable env txn)
      fun outcome s => outcome = .aborted ∧ Row txn.txnId Doomed s := by
  rintro s (hrow | hrow)
  · obtain ⟨h1, h2, h3⟩ := rowSpec_commit_pending env s hrow
    refine ⟨h1, h2, fun outcome ho => ?_⟩
    obtain ⟨hd, hk⟩ := h3 outcome ho
    exact ⟨hd, Or.inr hk⟩
  · obtain ⟨h1, h2, h3⟩ := rowSpec_commit_kept env false s hrow
    refine ⟨fun u hu => Or.inr (h1 u hu), h2, fun outcome ho => ?_⟩
    obtain ⟨hd, hk⟩ := h3 outcome ho
    refine ⟨?_, Or.inr hk⟩
    cases outcome with
    | committed => cases hd
    | aborted => rfl

end rows

/-! ### Recovery -/

section recovery

variable {t : String} {D : Option Decision → Prop}

theorem rowSpec_resolve_own (hD : Resolves D) (env : Env μ)
    (rows : List (GroupId × List (GraphSlice μ))) :
    RowSpec t D (Row t D) (resolveInDoubt env (t, rows)) fun _ => Row t D := by
  intro s hs
  -- the row is fixed until recovery itself writes it
  suffices h : ∀ row, D row → RowSpec t D (Row t (· = row)) (resolveInDoubt env (t, rows))
      fun _ => Row t D from h _ hs s rfl
  intro row hrow
  refine spec_bind (R := fun retain s => retain = row.any Decision.retained ∧ Row t (· = row) s)
    (spec_read fun s retain h hr => ⟨?_, h⟩) fun retain => spec_assume fun hretain => ?_
  · cases hr
    unfold Store.decisionRetainGet
    rw [show s.decisions.get t = row from h]
  refine spec_bind (R := fun d s => d = row.bind Decision.outcome ∧ Row t (· = row) s)
    (spec_read fun s d h hr => ⟨?_, h⟩) fun d => spec_assume fun hd => ?_
  · cases hr
    unfold Store.decisionGet
    rw [show s.decisions.get t = row from h]
  subst hretain hd
  have hsame : ∀ row', row' = row → D row' := by
    rintro row' rfl
    exact hrow
  rcases row with _ | _ | ⟨commit, retained⟩
  · refine spec_bind (R := fun _ => Row t (· = none)) (spec_pure fun s h => h) fun _ => ?_
    refine spec_bind (R := fun _ => Row t (· = none)) ?_ fun _ => ?_
    · exact rowSpec_steady (keeps_forEach fun g _ => steady_prepareClear t g) hsame
    · refine spec_write fun s s' h hs => ?_
      cases hs
      have hget : (s.decisions.remove t).get t = none := Table.get_remove_self _ _
      have hclear : Row t D { s with decisions := s.decisions.remove t } := by
        unfold Row
        rw [hget]
        exact hrow
      exact ⟨hclear, trivial, hclear⟩
  · have hpresumed := hD.presumed hrow
    refine spec_bind (rowSpec_putDecision rfl hpresumed) fun _ => ?_
    refine (rowSpec_steady (steady_applyAbort t _) ?_).post fun _ s h => ?_
    · rintro row rfl
      exact hpresumed
    · unfold Row
      rw [show s.decisions.get t = _ from h]
      exact hpresumed
  · have hretained : retained = true := hD.retained _ hrow _ rfl
    subst hretained
    have hpost : ∀ s : Store μ, Row t (· = some (.terminal commit true)) s → Row t D s :=
      fun s h => hsame _ h
    match commit with
    | true => exact (rowSpec_steady (steady_applyCommit env t rows) hsame).post fun _ => hpost
    | false => exact (rowSpec_steady (steady_applyAbort t _) hsame).post fun _ => hpost

theorem parents_resolveInDoubt (env : Env μ) (r : String × List (GroupId × List (GraphSlice μ))) :
    Keeps (fun s s' : Store μ => s'.parents = s.parents) (resolveInDoubt env r) := by
  have hother : ∃ t', t' ≠ r.1 := by
    by_cases hr : r.1 = ""
    · exact ⟨"t", by rw [hr]; decide⟩
    · exact ⟨"", Ne.symm hr⟩
  obtain ⟨t', ht'⟩ := hother
  exact (leaves_resolveInDoubt env ht').mono fun _ _ h => h.parents

theorem rowSpec_resolve (hD : Resolves D) (env : Env μ)
    (r : String × List (GroupId × List (GraphSlice μ))) :
    RowSpec t D (fun s => Row t D s ∧ ¬ ParentTerminal t s) (resolveInDoubt env r)
      fun _ s => Row t D s ∧ ¬ ParentTerminal t s := by
  refine Spec.frame ?_ (parents_resolveInDoubt env r) fun s s' hpar hs => ?_
  · by_cases hr : r.1 = t
    · obtain ⟨t', rows⟩ := r
      subst hr
      exact rowSpec_resolve_own hD env rows
    · exact rowSpec_steady (steady_of_leaves (leaves_resolveInDoubt env (Ne.symm hr))) fun _ => id
  · unfold ParentTerminal
    rw [hpar]
    exact hs

theorem rowSpec_collectDecision (r : String × Decision) :
    RowSpec t D (fun s => Row t D s ∧ ¬ ParentTerminal t s)
      (collectDecision r : Prog (Store μ) Unit)
      fun _ s => Row t D s ∧ ¬ ParentTerminal t s := by
  by_cases hr : r.1 = t
  · refine spec_ite (fun _ => spec_pure fun s h => h) fun _ => ?_
    refine spec_bind (R := fun parent s => (∀ result, parent ≠ some (some result)) ∧
      Row t D s ∧ ¬ ParentTerminal t s) (spec_read fun s parent h hp => ⟨?_, h⟩)
      fun parent => spec_assume fun hparent => ?_
    · cases hp
      rw [hr]
      exact fun result heq => h.2 ⟨result, heq⟩
    · match parent with
      | none => exact spec_pure fun s h => h
      | some none => exact spec_fail _
      | some (some result) => exact absurd rfl (hparent result)
  · refine (leaves_collectDecision (Ne.symm hr)).spec fun s s' hu h => ?_
    have hrow : Row t D s' := by
      unfold Row
      rw [hu.decision]
      exact h.1
    refine ⟨⟨hrow, ?_⟩, hrow, trivial⟩
    unfold ParentTerminal
    rw [hu.parents]
    exact h.2

theorem rowSpec_recoverInDoubt (hD : Resolves D) (env : Env μ) :
    RowSpec t D (fun s => Row t D s ∧ ¬ ParentTerminal t s) (recoverInDoubt env)
      fun _ => Row t D := by
  refine spec_bind (R := fun _ s => Row t D s ∧ ¬ ParentTerminal t s) (spec_read fun s _ h _ => h)
    fun inDoubt => ?_
  refine spec_bind (spec_forEach (A := fun _ s => Row t D s ∧ ¬ ParentTerminal t s)
    (fun r _ => rowSpec_resolve hD env r) inDoubt) fun _ => ?_
  refine spec_bind (R := fun _ s => Row t D s ∧ ¬ ParentTerminal t s) (spec_read fun s _ h _ => h)
    fun decisions => ?_
  refine spec_bind (spec_forEach (A := fun _ s => Row t D s ∧ ¬ ParentTerminal t s)
    (fun r _ => rowSpec_collectDecision r) decisions) fun _ => ?_
  exact spec_pure fun s h => h.1

end recovery

/-! ### Runs -/

def Permitted (t : String) (s : Store μ) : Call μ → Prop
  | .commit _ txn => txn.txnId ≠ t
  | .commitRecoverable _ _ => True
  | .recover _ => ¬ ParentTerminal t s
  | .clearDecision t' => t' ≠ t
  | .parentCommitted _ _ => True

def afterCall (s : Store μ) (call : Call μ) (crash : Option ℕ) : Store μ :=
  after s (crashed crash (call.program s))

def reached (s : Store μ) : List (Call μ × Option ℕ) → Store μ
  | [] => s
  | (call, crash) :: rest => reached (afterCall s call crash) rest

/-- The decision of a transaction is not collected in a run. -/
def Uncollected (t : String) (s : Store μ) : List (Call μ × Option ℕ) → Prop
  | [] => True
  | (call, crash) :: rest => Permitted t s call ∧ Uncollected t (afterCall s call crash) rest

def report (t : String) (call : Call μ) (crash : Option ℕ) (s : Store μ) : Option TxnOutcome :=
  match call, crash, (call.program s).result with
  | .commitRecoverable _ txn, none, .ok outcome => if txn.txnId = t then outcome else none
  | _, _, _ => none

/-- The outcomes reported of a transaction in a run, each with the store at that time. -/
def reports (t : String) (s : Store μ) : List (Call μ × Option ℕ) → List (TxnOutcome × Store μ)
  | [] => []
  | (call, crash) :: rest =>
    let s' := afterCall s call crash
    match report t call crash s with
    | some outcome => (outcome, s') :: reports t s' rest
    | none => reports t s' rest

section runs

variable {t : String} {D : Option Decision → Prop}

theorem Uncollected.of_append {s : Store μ} : ∀ {before later : List (Call μ × Option ℕ)},
    Uncollected t s (before ++ later) →
      Uncollected t s before ∧ Uncollected t (reached s before) later
  | [], _, h => ⟨trivial, h⟩
  | (_, _) :: _, _, h => ⟨⟨h.1, (Uncollected.of_append h.2).1⟩, (Uncollected.of_append h.2).2⟩

/-- What the calls of the transaction do to the row and report. -/
def Answers (t : String) (D : Option Decision → Prop) (O : TxnOutcome → Prop)
    (D' : TxnOutcome → Option Decision → Prop) (μ : Type) : Prop :=
  ∀ (env : Env μ) (txn : CrossShardTxn μ), txn.txnId = t →
    RowSpec t D (Row t D) (commitCrossShardRecoverable env txn)
      fun outcome s => O outcome ∧ Row t (D' outcome) s

theorem afterCall_row (hD : Resolves D) {O : TxnOutcome → Prop}
    {D' : TxnOutcome → Option Decision → Prop} (hans : Answers t D O D' μ) {s : Store μ}
    (hs : Row t D s) {call : Call μ} (hcall : Permitted t s call) (crash : Option ℕ) :
    Row t D (afterCall s call crash) ∧ ∀ outcome, report t call crash s = some outcome →
      O outcome ∧ Row t (D' outcome) (afterCall s call crash) := by
  have hquiet : ∀ {P : Store μ → Prop}, RowSpec t D P call.program (fun _ => Row t D) → P s →
      Row t D (afterCall s call crash) := fun h hP => (spec_crashed h hP hs crash).2.2
  have hleaves : Leaves t call.program → Row t D (afterCall s call crash) := fun h =>
    hquiet (rowSpec_steady (steady_of_leaves h) fun _ => id) hs
  cases call with
  | commit env txn =>
    refine ⟨hleaves (keeps_bind ?_ fun _ => keeps_pure _), nofun⟩
    exact leaves_commitInner env txn (Ne.symm hcall) false
  | commitRecoverable env txn =>
    by_cases ht : txn.txnId = t
    · have hspec : RowSpec t D (Row t D) (Call.commitRecoverable env txn).program fun answer s =>
          ∀ outcome, answer = some outcome → O outcome ∧ Row t (D' outcome) s := by
        refine spec_bind (hans env txn ht) fun outcome => spec_pure fun s h => ?_
        rintro o ho
        cases ho
        exact h
      refine ⟨(spec_crashed hspec hs hs crash).2.2, fun outcome hr => ?_⟩
      unfold report at hr
      split at hr
      · rename_i env' txn' answer heq hres
        cases heq
        rw [if_pos ht] at hr
        exact (hspec s hs).2.2 answer hres outcome hr
      · cases hr
    · refine ⟨hleaves (keeps_bind ?_ fun _ => keeps_pure _), fun outcome hr => ?_⟩
      · exact leaves_commitRecoverable env txn (Ne.symm ht)
      · unfold report at hr
        split at hr
        · rename_i env' txn' answer heq hres
          cases heq
          rw [if_neg ht] at hr
          cases hr
        · cases hr
  | recover env =>
    refine ⟨hquiet (spec_bind (rowSpec_recoverInDoubt hD env) fun _ => ?_) ⟨hs, hcall⟩, nofun⟩
    exact spec_pure fun s h => h
  | clearDecision t' =>
    refine ⟨hleaves (keeps_bind ?_ fun _ => keeps_pure _), nofun⟩
    exact leaves_decisionClear (Ne.symm hcall)
  | parentCommitted t' result =>
    refine ⟨hquiet (P := Row t D) ?_ hs, nofun⟩
    refine spec_bind (spec_write fun s s' h heq => ?_) fun _ => spec_pure fun s h => h
    cases heq
    exact ⟨h, trivial, h⟩

theorem reports_of_answers (hD : Resolves D) {O : TxnOutcome → Prop}
    (hans : Answers t D O (fun _ => D) μ) : ∀ {calls : List (Call μ × Option ℕ)} {s : Store μ},
    Row t D s → Uncollected t s calls →
    Row t D (reached s calls) ∧ ∀ r ∈ reports t s calls, O r.1 ∧ Row t D r.2
  | [], s, hs, _ => ⟨hs, fun r hr => absurd hr List.not_mem_nil⟩
  | (call, crash) :: rest, s, hs, h => by
    obtain ⟨hrow, hrep⟩ := afterCall_row hD hans hs h.1 crash
    obtain ⟨hlast, hrest⟩ := reports_of_answers hD hans hrow h.2
    refine ⟨hlast, fun r hr => ?_⟩
    rw [reports] at hr
    rcases hout : report t call crash s with _ | outcome
    · rw [hout] at hr
      exact hrest r hr
    · rw [hout] at hr
      rcases List.mem_cons.mp hr with rfl | hr
      · exact hrep outcome hout
      · exact hrest r hr

theorem answers_kept (commit : Bool) :
    Answers t (Kept commit) (fun outcome => commit = decided outcome) (fun _ => Kept commit) μ := by
  rintro env txn rfl
  exact rowSpec_commit_kept env commit

theorem answers_doomed : Answers t Doomed (· = .aborted) (fun _ => Doomed) μ := by
  rintro env txn rfl
  exact rowSpec_commit_doomed env

theorem answers_recoverable :
    Answers t Recoverable (fun _ => True) (fun outcome => Kept (decided outcome)) μ := by
  rintro env txn rfl
  exact (rowSpec_commit_recoverable env).post fun outcome s h => ⟨trivial, h⟩

theorem reports_kept : ∀ {calls : List (Call μ × Option ℕ)} {s : Store μ},
    Row t Recoverable s → Uncollected t s calls → ∀ r ∈ reports t s calls,
      Row t (Kept (decided r.1)) r.2 ∧ Row t (Kept (decided r.1)) (reached s calls)
  | [], s, _, _, r, hr => absurd hr List.not_mem_nil
  | (call, crash) :: rest, s, hs, h, r, hr => by
    obtain ⟨hrow, hrep⟩ := afterCall_row resolves_recoverable answers_recoverable hs h.1 crash
    rw [reports] at hr
    rcases hout : report t call crash s with _ | outcome
    · rw [hout] at hr
      exact reports_kept hrow h.2 r hr
    · rw [hout] at hr
      have hkept := (hrep outcome hout).2
      obtain ⟨hlast, hrest⟩ :=
        reports_of_answers (resolves_kept (decided outcome)) (answers_kept _) hkept h.2
      rcases List.mem_cons.mp hr with rfl | hr
      · exact ⟨hkept, hlast⟩
      · obtain ⟨hsame, hrow'⟩ := hrest r hr
        rw [← hsame]
        exact ⟨hrow', hlast⟩

theorem decided_injective : Function.Injective decided := by
  intro a b h
  cases a <;> cases b <;> first | rfl | cases h

/-- **A recoverable transaction has one outcome** until its decision is collected. Whatever calls run
and crash, all that report an outcome report the one the kept decision holds; and after a start marker
without a decision no call reports a commit. -/
theorem one_outcome (t : String) {s : Store μ} (hs : Recoverable (s.decisions.get t))
    {calls : List (Call μ × Option ℕ)} (h : Uncollected t s calls) :
    (∀ r ∈ reports t s calls, ∀ r' ∈ reports t s calls, r.1 = r'.1) ∧
    (∀ r ∈ reports t s calls, r.2.decisions.get t = some (.terminal (decided r.1) true) ∧
      (reached s calls).decisions.get t = some (.terminal (decided r.1) true)) ∧
    ∀ before later, calls = before ++ later → (reached s before).decisions.get t = some .pending →
      ∀ r ∈ reports t (reached s before) later, r.1 = .aborted := by
  refine ⟨fun r hr r' hr' => ?_, fun r hr => reports_kept hs h r hr, ?_⟩
  · have hrow := (reports_kept hs h r hr).2
    have hrow' := (reports_kept hs h r' hr').2
    have heq : some (Decision.terminal (decided r.1) true) = some (.terminal (decided r'.1) true) :=
      (show (reached s calls).decisions.get t = _ from hrow).symm.trans hrow'
    exact decided_injective (by simpa using heq)
  · rintro before later rfl hpending r hr
    obtain ⟨-, hlater⟩ := Uncollected.of_append h
    exact ((reports_of_answers resolves_doomed answers_doomed (Or.inl hpending) hlater).2 r hr).1

/-- A commit that crashes at its third write, a recovery, and a retry. -/
def crashedRun : List (Call ℕ × Option ℕ) :=
  [(.commitRecoverable calmEnv transfer, some 3), (.recover calmEnv, none),
    (.commitRecoverable calmEnv transfer, none), (.commitRecoverable calmEnv transfer, none)]

theorem one_outcome_crashedRun :
    (reports "transfer" emptyStore crashedRun).map Prod.fst = [.aborted, .aborted] ∧
      ∀ r ∈ reports "transfer" emptyStore crashedRun,
        ∀ r' ∈ reports "transfer" emptyStore crashedRun, r.1 = r'.1 := by
  have hparent : (afterCall emptyStore (.commitRecoverable calmEnv transfer) (some 3)).parents.get
      "transfer" = none := by decide +kernel
  have hrun : Uncollected "transfer" emptyStore crashedRun := by
    refine ⟨trivial, ?_, trivial, trivial, trivial⟩
    rintro ⟨result, h⟩
    rw [hparent] at h
    cases h
  exact ⟨by decide +kernel, (one_outcome "transfer" (s := emptyStore) nofun hrun).1⟩

/-- Recoverable commits, recoveries, and parents that become terminal; nothing is cleared from
outside. -/
def WithoutClear : Call μ → Prop
  | .commitRecoverable _ _ => True
  | .recover _ => True
  | .parentCommitted _ _ => True
  | .commit _ _ => False
  | .clearDecision _ => False

/-- The transaction commits, its parent becomes terminal, recovery collects the decision, and a
retry whose participants refuse is an abort. -/
def collectedRun : List (Call ℕ × Option ℕ) :=
  [(.commitRecoverable calmEnv transfer, none), (.parentCommitted "transfer" (some true), none),
    (.recover calmEnv, none),
    (.commitRecoverable { calmEnv with running := fun _ => false } transfer, none)]

/-- A recovery collects a kept decision by itself, and the outcome may change after it. -/
theorem collected_outcome_changes :
    ¬ ∀ (t : String) (s : Store ℕ) (calls : List (Call ℕ × Option ℕ)), Fresh t s →
      (∀ c ∈ calls, WithoutClear c.1) →
      ∀ r ∈ reports t s calls, ∀ r' ∈ reports t s calls, r.1 = r'.1 := by
  intro h
  have hreports : (reports "transfer" emptyStore collectedRun).map Prod.fst =
      [.committed, .aborted] := by decide +kernel
  have hcalls : ∀ c ∈ collectedRun, WithoutClear c.1 := by
    simp [collectedRun, WithoutClear]
  have hsame := h "transfer" emptyStore collectedRun (fresh_emptyStore _) hcalls
  have hmem : ∀ o ∈ [TxnOutcome.committed, .aborted],
      ∃ r ∈ reports "transfer" emptyStore collectedRun, r.1 = o := by
    intro o ho
    rw [← hreports] at ho
    exact List.mem_map.mp ho
  obtain ⟨r, hr, hcommitted⟩ := hmem .committed (by simp)
  obtain ⟨r', hr', haborted⟩ := hmem .aborted (by simp)
  have heq := hsame r hr r' hr'
  rw [hcommitted, haborted] at heq
  cases heq

end runs

end Medulla.CrossShard.OneOutcome
