import Medulla.WorkItem.Effects

/-! # Dependencies gate work

An item counts its unmet dependencies in `dep_count`, and a parent that has not succeeded lists the
items that wait for it in `downstream_ids`.

* every run: `dependencies_gate`, `terminal_is_final`. -/

namespace Medulla.WorkItem.Dependencies

open Library Library.Checked Library.OrderedTable Rows Submit Claim
open Lifecycle Machine Effects

variable {g : Graph} {id p tenant : String} {row row' parent : Row} {children pending : List String}
  {H : Digests} {request : SubmitWorkItemRequest} {scope : Scope} {g' : Graph}

/-! ### Items and what they wait for -/

/-- A row of the graph that is a WorkItem. -/
def IsItem (g : Graph) (id : String) (row : Row) : Prop :=
  g.nodes.get id = some (some row) ∧ row.isWorkItem = true

/-- The item has succeeded. -/
def succeeded (g : Graph) (id : String) : Bool :=
  match g.nodes.get id with
  | some (some row) => row.status = .succeeded
  | _ => false

/-- The dependencies that have not succeeded. -/
def unmet (g : Graph) (row : Row) : List String := row.dependsOn.filter fun p => !succeeded g p

theorem succeeded_of_get (h : g.nodes.get id = some (some row)) :
    succeeded g id = decide (row.status = .succeeded) := by
  unfold succeeded
  rw [h]

theorem IsItem.congr (h : IsItem g id row) (h' : IsItem g id row') : row' = row := by
  have heq := h.1.symm.trans h'.1
  simp only [Option.some.injEq] at heq
  exact heq.symm

/-- Dependencies and children name each other, and each row counts its unmet dependencies. -/
structure Linked (g : Graph) : Prop where
  known : ∀ id row, IsItem g id row → ∀ p ∈ row.dependsOn, ∃ parent, IsItem g p parent
  nodup : ∀ id row, IsItem g id row → row.dependsOn.Nodup
  earlier : ∀ id row, IsItem g id row → id ∉ row.dependsOn
  indexed : ∀ id row, IsItem g id row → ∀ p ∈ row.dependsOn, ∀ parent, IsItem g p parent →
    parent.status ≠ .succeeded → ∃ ids, parent.downstreamIds = some ids ∧ id ∈ ids
  listed : ∀ p parent, IsItem g p parent → ∃ ids, parent.downstreamIds = some ids ∧ ids.Nodup ∧
    ∀ id ∈ ids, ∃ row, IsItem g id row ∧ p ∈ row.dependsOn
  counted : ∀ id row, IsItem g id row → row.depCount = (unmet g row).length
  gated : ∀ id row, IsItem g id row → row.status.isTerminal = false →
    (row.status = .submitted ↔ 0 < row.depCount)

/-! ### Changes that do not touch dependencies -/

/-- A change that leaves the dependencies of a row alone, and whether it has succeeded. -/
structure SameDeps (row row' : Row) : Prop where
  nodeType : row'.nodeType = row.nodeType
  dependsOn : row'.dependsOn = row.dependsOn
  depCount : row'.depCount = row.depCount
  downstreamIds : row'.downstreamIds = row.downstreamIds
  succeeded : row'.status = .succeeded ↔ row.status = .succeeded
  gate : row'.status.isTerminal = false →
    row.status.isTerminal = false ∧ (row'.status = .submitted ↔ row.status = .submitted)

theorem SameDeps.refl (row : Row) : SameDeps row row :=
  ⟨rfl, rfl, rfl, rfl, Iff.rfl, fun h => ⟨h, Iff.rfl⟩⟩

def NotItem (node : Option (Option Row)) : Prop :=
  ∀ row, node = some (some row) → row.isWorkItem = false

/-- What a call that leaves the dependencies alone does to a node. -/
inductive LocalNode : Option (Option Row) → Option (Option Row) → Prop
  | same (node : Option (Option Row)) : LocalNode node node
  | row {row row' : Row} (h : SameDeps row row') : LocalNode (some (some row)) (some (some row'))
  | other {node node' : Option (Option Row)} (h : NotItem node) (h' : NotItem node') :
      LocalNode node node'

section local_changes

variable {g' : Graph}

section
variable (h : ∀ id, LocalNode (g.nodes.get id) (g'.nodes.get id))
include h

theorem IsItem.of_local
    (hitem : IsItem g id row) : ∃ row', IsItem g' id row' ∧ SameDeps row row' := by
  obtain ⟨hget, hwork⟩ := hitem
  have hnode := h id
  rw [hget] at hnode
  generalize hget' : g'.nodes.get id = node' at hnode
  cases hnode with
  | same => exact ⟨row, ⟨hget', hwork⟩, .refl row⟩
  | @row _ row' hsame =>
    exact ⟨row', ⟨hget', (isWorkItem_of_nodeType hsame.nodeType).trans hwork⟩, hsame⟩
  | other hnot =>
    rw [hnot row rfl] at hwork
    cases hwork

theorem IsItem.of_local_back
    (hitem : IsItem g' id row') : ∃ row, IsItem g id row ∧ SameDeps row row' := by
  obtain ⟨hget', hwork⟩ := hitem
  have hnode := h id
  rw [hget'] at hnode
  generalize hget : g.nodes.get id = node at hnode
  cases hnode with
  | same => exact ⟨row', ⟨hget, hwork⟩, .refl row'⟩
  | @row row _ hsame =>
    exact ⟨row, ⟨hget, (isWorkItem_of_nodeType hsame.nodeType).symm.trans hwork⟩, hsame⟩
  | other _ hnot =>
    rw [hnot row' rfl] at hwork
    cases hwork

theorem succeeded_of_local (hitem : IsItem g p parent) : succeeded g' p = succeeded g p := by
  obtain ⟨parent', hitem', hsame⟩ := hitem.of_local h
  rw [succeeded_of_get hitem.1, succeeded_of_get hitem'.1, decide_eq_decide]
  exact hsame.succeeded

theorem linked_of_local (hg : Linked g) : Linked g' := by
  refine ⟨fun id row' hrow' p hp => ?_, fun id row' hrow' => ?_, fun id row' hrow' => ?_,
    fun id row' hrow' p hp parent' hparent' hpending => ?_, fun p parent' hparent' => ?_,
    fun id row' hrow' => ?_, fun id row' hrow' hterminal => ?_⟩
  · obtain ⟨row, hrow, hsame⟩ := hrow'.of_local_back h
    rw [hsame.dependsOn] at hp
    obtain ⟨parent, hparent⟩ := hg.known id row hrow p hp
    obtain ⟨parent', hparent', -⟩ := hparent.of_local h
    exact ⟨parent', hparent'⟩
  · obtain ⟨row, hrow, hsame⟩ := hrow'.of_local_back h
    rw [hsame.dependsOn]
    exact hg.nodup id row hrow
  · obtain ⟨row, hrow, hsame⟩ := hrow'.of_local_back h
    rw [hsame.dependsOn]
    exact hg.earlier id row hrow
  · obtain ⟨row, hrow, hsame⟩ := hrow'.of_local_back h
    obtain ⟨parent, hparent, hsame'⟩ := hparent'.of_local_back h
    rw [hsame.dependsOn] at hp
    rw [hsame'.downstreamIds]
    exact hg.indexed id row hrow p hp parent hparent (fun hs => hpending (hsame'.succeeded.mpr hs))
  · obtain ⟨parent, hparent, hsame⟩ := hparent'.of_local_back h
    obtain ⟨ids, hids, hnodup, hlisted⟩ := hg.listed p parent hparent
    refine ⟨ids, hsame.downstreamIds.trans hids, hnodup, fun id hid => ?_⟩
    obtain ⟨row, hrow, hp⟩ := hlisted id hid
    obtain ⟨row', hrow', hsame'⟩ := hrow.of_local h
    exact ⟨row', hrow', by rw [hsame'.dependsOn]; exact hp⟩
  · obtain ⟨row, hrow, hsame⟩ := hrow'.of_local_back h
    rw [hsame.depCount, hg.counted id row hrow]
    unfold unmet
    rw [hsame.dependsOn]
    refine congrArg List.length (List.filter_congr fun p hp => ?_)
    obtain ⟨parent, hparent⟩ := hg.known id row hrow p hp
    rw [succeeded_of_local h hparent]
  · obtain ⟨row, hrow, hsame⟩ := hrow'.of_local_back h
    obtain ⟨hterminal', hsubmitted⟩ := hsame.gate hterminal
    rw [hsame.depCount, hsubmitted]
    exact hg.gated id row hrow hterminal'

end

end local_changes

/-! ### Claims, renewals, cancellations and deferrals -/

theorem not_waiting_of_live {status : Status} (h : status.isLive = true) :
    status ≠ .succeeded ∧ status.isTerminal = false ∧ status ≠ .submitted := by
  cases status <;> simp_all [Status.isLive, Status.isTerminal]

section
variable (hnode : row'.nodeType = row.nodeType) (hdeps : row'.dependsOn = row.dependsOn)
  (hcount : row'.depCount = row.depCount) (hids : row'.downstreamIds = row.downstreamIds)
include hnode hdeps hcount hids

theorem sameDeps_of_active (hold : row.status.isLive = true ∨ row.status = .ready)
    (hnew : row'.status.isLive = true ∨ row'.status = .ready) : SameDeps row row' := by
  have active : ∀ {status : Status}, status.isLive = true ∨ status = .ready →
      status ≠ .succeeded ∧ status.isTerminal = false ∧ status ≠ .submitted := by
    rintro status (h | rfl)
    · exact not_waiting_of_live h
    · exact ⟨by simp, rfl, by simp⟩
  obtain ⟨h1, h2, h3⟩ := active hold
  obtain ⟨h4, -, h6⟩ := active hnew
  exact ⟨hnode, hdeps, hcount, hids, iff_of_false h4 h1, fun _ => ⟨h2, iff_of_false h6 h3⟩⟩

theorem sameDeps_of_ended (hold : row.status.isTerminal = false)
    (hnew : row'.status.isTerminal = true) (hfailed : row'.status ≠ .succeeded) :
    SameDeps row row' := by
  refine ⟨hnode, hdeps, hcount, hids, iff_of_false hfailed fun hs => ?_, fun hterminal => ?_⟩
  · rw [hs] at hold
    cases hold
  · rw [hnew] at hterminal
    cases hterminal

end

section calls

variable {g' : Graph}

theorem local_write (hrow : g.nodes.get id = some (some row)) (hsame : SameDeps row row'.revised)
    (k : String) : LocalNode (g.nodes.get k) ((g.write id row').nodes.get k) := by
  by_cases hk : k = id
  · subst hk
    rw [hrow, Graph.get_write_self]
    exact .row hsame
  · rw [Graph.get_write_of_ne _ _ hk]
    exact .same _

theorem local_claim {request : ClaimWorkItemRequest} {result : Claimed}
    (h : claimWorkItem request g = .ok (g', result)) (k : String) :
    LocalNode (g.nodes.get k) (g'.nodes.get k) := by
  rcases claimWorkItem_node h k with hsame | ⟨row, row', hrow, hrow', hretired | ⟨lease, hgranted⟩⟩
  · rw [hsame]
    exact .same _
  · rw [hrow, hrow']
    obtain ⟨h1, -, h3, h4, h5⟩ := hretired.kept
    refine .row (sameDeps_of_ended h1 h3 h4 h5 (not_waiting_of_live hretired.live).2.1 ?_ ?_)
    · rw [hretired.status]
      rfl
    · rw [hretired.status]
      simp
  · rw [hrow, hrow']
    obtain ⟨h1, -, h3, h4, h5⟩ := hgranted.kept
    exact .row (sameDeps_of_active h1 h3 h4 h5 hgranted.waiting (.inl (by rw [hgranted.status]; rfl)))

theorem isLive_of_isValid {fence : FenceKey} {now : ℕ} (h : fence.isValid row now = true) :
    row.status.isLive = true := by
  unfold FenceKey.isValid Row.leaseIsValid at h
  simp only [Bool.and_eq_true] at h
  exact h.2.1.1.1.2

theorem local_renew {request : RenewRequest} {status : RenewStatus}
    (h : renewWorkItemLease request g = .ok (g', status)) (k : String) :
    LocalNode (g.nodes.get k) (g'.nodes.get k) := by
  rcases renewWorkItemLease_ok h with rfl | ⟨row, hrow, hvalid, rfl⟩
  · exact .same _
  · refine local_write hrow ?_ k
    exact sameDeps_of_active rfl rfl rfl rfl (.inl (isLive_of_isValid hvalid)) (.inl rfl)

theorem local_defer {request : DeferRequest} {status : DeferStatus}
    (h : deferWorkItem request g = .ok (g', status)) (k : String) :
    LocalNode (g.nodes.get k) (g'.nodes.get k) := by
  rcases deferWorkItem_ok h with ⟨rfl, -⟩ | ⟨row, fences, hrow, hvalid, -, -, rfl⟩
  · exact .same _
  · refine local_write hrow ?_ k
    exact sameDeps_of_active rfl rfl rfl rfl (.inl (isLive_of_isValid hvalid)) (.inr rfl)

theorem local_cancel {request : CancelRequest} {status : CancelStatus}
    (h : cancelWorkItem request g = .ok (g', status)) (k : String) :
    LocalNode (g.nodes.get k) (g'.nodes.get k) := by
  rcases cancelWorkItem_ok h with ⟨rfl, -⟩ | ⟨row, fences, hrow, -, hrefusal, -, -, rfl⟩
  · exact .same _
  · refine local_write hrow ?_ k
    refine sameDeps_of_ended rfl rfl rfl rfl ?_ rfl ?_
    · unfold cancelRefusal at hrefusal
      split_ifs at hrefusal with hterminal
      · exact Bool.eq_false_iff.mpr hterminal
    · change Status.cancelled ≠ .succeeded
      simp

end calls

/-! ### A commit -/

section commits

variable {request : CommitRequest} {released : Graph} {changed : List String} {g' : Graph}
  {result : Committed}

theorem isLive_of_precheck (h : commitPrecheck request row = none) : row.status.isLive = true := by
  unfold commitPrecheck at h
  split_ifs at h with h1 h2 h3
  unfold Row.leaseIsValid at h3
  simp only [Bool.and_eq_true] at h3
  exact h3.1.1.1.2

theorem get_releaseDownstream {now : ℕ} : ∀ {children : List String} {g g' : Graph}
    {changed : List String}, children.Nodup → releaseDownstream now children g = .ok (g', changed) →
      (∀ k, k ∉ children → g'.nodes.get k = g.nodes.get k) ∧
        ∀ k ∈ children, ∀ row, g.nodes.get k = some (some row) →
          g'.nodes.get k = some (some (releasedRow row now).revised)
  | [], g, g', changed, _, h => by
    cases h
    exact ⟨fun _ _ => rfl, by simp⟩
  | child :: rest, g, g', changed, hnodup, h => by
    obtain ⟨hfirst, hrest⟩ := List.nodup_cons.mp hnodup
    obtain ⟨found, hfound, h⟩ := unbind h
    rcases found with _ | row
    · rw [Graph.load_eq_none] at hfound
      obtain ⟨hother, hchild⟩ := get_releaseDownstream hrest h
      refine ⟨fun k hk => hother k fun hmem => hk (.tail _ hmem),
        fun k hk row hrow => ?_⟩
      rcases List.mem_cons.mp hk with rfl | hk
      · rw [hfound] at hrow
        cases hrow
      · exact hchild k hk row hrow
    · rw [Graph.load_eq_some] at hfound
      obtain ⟨⟨released, later⟩, hreleased, h⟩ := unbind h
      cases h
      obtain ⟨hother, hchild⟩ := get_releaseDownstream hrest hreleased
      refine ⟨fun k hk => ?_, fun k hk row' hrow' => ?_⟩
      · rw [hother k fun hmem => hk (List.mem_cons_of_mem _ hmem),
          Graph.get_write_of_ne _ _ (by rintro rfl; exact hk (.head _))]
      · rcases List.mem_cons.mp hk with rfl | hk
        · rw [hfound] at hrow'
          cases hrow'
          rw [hother k hfirst, Graph.get_write_self]
        · have hne : k ≠ child := fun heq => hfirst (heq ▸ hk)
          refine hchild k hk row' ?_
          rw [Graph.get_write_of_ne _ _ hne, hrow']

/-- A row after one of its dependencies succeeded. -/
structure CountedDown (p : String) (children : List String) (k : String) (row row' : Row) :
    Prop where
  dependsOn : row'.dependsOn = row.dependsOn
  downstreamIds : row'.downstreamIds = row.downstreamIds
  depCount : row'.depCount = if k ∈ children then row.depCount - 1 else row.depCount
  status : row'.status = if k = p then .succeeded
    else if k ∈ children ∧ row.depCount - 1 = 0 ∧ row.status = .submitted then .ready else row.status

theorem CountedDown.succeeded_iff {k : String} (h : CountedDown p children k row row') :
    row'.status = .succeeded ↔ k = p ∨ row.status = .succeeded := by
  rw [h.status]
  split_ifs with h1 h2
  · simp [h1]
  · simp [h1, h2.2.2]
  · simp [h1]

/-- An item succeeds and its children are counted down. -/
structure Succeeds (g g' : Graph) (p : String) (children : List String) : Prop where
  forward : ∀ k row, IsItem g k row → ∃ row', IsItem g' k row' ∧ CountedDown p children k row row'
  backward : ∀ k row', IsItem g' k row' → ∃ row, IsItem g k row ∧ CountedDown p children k row row'

theorem succeeded_of_succeeds (h : Succeeds g g' p children) {q : String} (hq : IsItem g q parent) :
    succeeded g' q = (decide (q = p) || succeeded g q) := by
  obtain ⟨parent', hparent', hcounted⟩ := h.forward q parent hq
  rw [succeeded_of_get hq.1, succeeded_of_get hparent'.1]
  simp [hcounted.succeeded_iff]

theorem length_filter_insert {l : List String} (hnodup : l.Nodup) {s : String → Bool}
    (hp : s p = false) :
    (l.filter fun q => !(decide (q = p) || s q)).length =
      (l.filter fun q => !s q).length - if p ∈ l then 1 else 0 := by
  have heq : (l.filter fun q => !(decide (q = p) || s q)) = (l.filter fun q => !s q).erase p := by
    rw [(hnodup.filter _).erase_eq_filter, List.filter_filter]
    refine List.filter_congr fun q _ => ?_
    by_cases hq : q = p <;> simp [hq]
  rw [heq, List.length_erase]
  simp only [List.mem_filter, hp, Bool.not_false, and_true]
  split_ifs <;> rfl

theorem linked_of_succeeds (hg : Linked g) (hparent : IsItem g p parent)
    (hpending : parent.status ≠ .succeeded) (hchildren : parent.downstreamIds = some children)
    (h : Succeeds g g' p children) : Linked g' := by
  have hmem : ∀ k row, IsItem g k row → (k ∈ children ↔ p ∈ row.dependsOn) := fun k row hrow => by
    constructor
    · intro hk
      obtain ⟨ids, hids, -, hlisted⟩ := hg.listed p parent hparent
      rw [hchildren] at hids
      cases hids
      obtain ⟨row₁, hrow₁, hp⟩ := hlisted k hk
      rw [hrow.congr hrow₁] at hp
      exact hp
    · intro hp
      obtain ⟨ids, hids, hk⟩ := hg.indexed k row hrow p hp parent hparent hpending
      rw [hchildren] at hids
      cases hids
      exact hk
  have hunmet : ∀ k row row', IsItem g k row → CountedDown p children k row row' →
      (unmet g' row').length = (unmet g row).length - if p ∈ row.dependsOn then 1 else 0 := by
    intro k row row' hrow hcounted
    unfold unmet
    rw [hcounted.dependsOn, ← length_filter_insert (hg.nodup k row hrow)
      (by rw [succeeded_of_get hparent.1]; simp [hpending])]
    refine congrArg List.length (List.filter_congr fun q hq => ?_)
    obtain ⟨source, hsource⟩ := hg.known k row hrow q hq
    rw [succeeded_of_succeeds h hsource]
  refine ⟨fun k row' hrow' q hq => ?_, fun k row' hrow' => ?_, fun k row' hrow' => ?_,
    fun k row' hrow' q hq parent' hparent' hwaiting => ?_, fun q parent' hparent' => ?_,
    fun k row' hrow' => ?_, fun k row' hrow' hterminal => ?_⟩
  · obtain ⟨row, hrow, hcounted⟩ := h.backward k row' hrow'
    rw [hcounted.dependsOn] at hq
    obtain ⟨source, hsource⟩ := hg.known k row hrow q hq
    obtain ⟨source', hsource', -⟩ := h.forward q source hsource
    exact ⟨source', hsource'⟩
  · obtain ⟨row, hrow, hcounted⟩ := h.backward k row' hrow'
    rw [hcounted.dependsOn]
    exact hg.nodup k row hrow
  · obtain ⟨row, hrow, hcounted⟩ := h.backward k row' hrow'
    rw [hcounted.dependsOn]
    exact hg.earlier k row hrow
  · obtain ⟨row, hrow, hcounted⟩ := h.backward k row' hrow'
    obtain ⟨source, hsource, hcounted'⟩ := h.backward q parent' hparent'
    rw [hcounted.dependsOn] at hq
    rw [hcounted'.downstreamIds]
    exact hg.indexed k row hrow q hq source hsource
      fun hs => hwaiting (hcounted'.succeeded_iff.mpr (.inr hs))
  · obtain ⟨source, hsource, hcounted⟩ := h.backward q parent' hparent'
    obtain ⟨ids, hids, hnodup, hlisted⟩ := hg.listed q source hsource
    refine ⟨ids, hcounted.downstreamIds.trans hids, hnodup, fun k hk => ?_⟩
    obtain ⟨row, hrow, hq⟩ := hlisted k hk
    obtain ⟨row', hrow', hcounted'⟩ := h.forward k row hrow
    exact ⟨row', hrow', by rw [hcounted'.dependsOn]; exact hq⟩
  · obtain ⟨row, hrow, hcounted⟩ := h.backward k row' hrow'
    rw [hunmet k row row' hrow hcounted, hcounted.depCount, hg.counted k row hrow]
    simp only [hmem k row hrow]
    split_ifs <;> rfl
  · obtain ⟨row, hrow, hcounted⟩ := h.backward k row' hrow'
    have hgate := hg.gated k row hrow
    rw [hcounted.depCount]
    rw [hcounted.status] at hterminal ⊢
    by_cases hk : k = p
    · rw [if_pos hk] at hterminal
      cases hterminal
    · rw [if_neg hk] at hterminal ⊢
      by_cases hready : k ∈ children ∧ row.depCount - 1 = 0 ∧ row.status = .submitted
      · rw [if_pos hready, if_pos hready.1, hready.2.1]
        simp
      · rw [if_neg hready] at hterminal ⊢
        have hiff := hgate hterminal
        split_ifs with hchild
        · rw [hiff]
          constructor
          · intro hpos
            have hsubmitted := hiff.mpr hpos
            have hne : row.depCount - 1 ≠ 0 := fun hz => hready ⟨hchild, hz, hsubmitted⟩
            omega
          · omega
        · exact hiff

theorem terminalStatus_succeeded (request : CommitRequest) :
    (terminalStatus request).1 = .succeeded ↔ (terminalStatus request).2 = .succeeded := by
  unfold terminalStatus
  split
  · simp
  · simp
  · split_ifs <;> simp

theorem local_commit (h : commitPrecheck request row = none)
    (hstatus : (applyStatus request row).2 ≠ .succeeded) :
    SameDeps row (recordResultRefs request (applyStatus request row).1).revised := by
  have hlive := isLive_of_precheck h
  unfold applyStatus at hstatus ⊢
  split_ifs at hstatus ⊢ with hretry
  · exact sameDeps_of_active rfl rfl rfl rfl (.inl hlive) (.inr rfl)
  · refine sameDeps_of_ended rfl rfl rfl rfl (not_waiting_of_live hlive).2.1 ?_ ?_
    · change (terminalStatus request).1.isTerminal = true
      unfold terminalStatus
      split
      · rfl
      · rfl
      · split_ifs <;> rfl
    · exact fun hs => hstatus ((terminalStatus_succeeded request).mp hs)

theorem status_of_succeeded (hstatus : (applyStatus request row).2 = .succeeded) :
    (applyStatus request row).1.status = .succeeded := by
  unfold applyStatus at hstatus ⊢
  split_ifs at hstatus ⊢ with hretry
  exact (terminalStatus_succeeded request).mpr hstatus

theorem kept_applyStatus (request : CommitRequest) (row : Row) :
    (applyStatus request row).1.nodeType = row.nodeType ∧
      (applyStatus request row).1.dependsOn = row.dependsOn ∧
      (applyStatus request row).1.depCount = row.depCount ∧
      (applyStatus request row).1.downstreamIds = row.downstreamIds := by
  unfold applyStatus
  split_ifs
  · exact ⟨rfl, rfl, rfl, rfl⟩
  · exact ⟨rfl, rfl, rfl, rfl⟩

theorem succeeds_commit (hg : Linked g) (h : Commits request g row released changed g' result)
    (hitem : row.isWorkItem = true) (hchildren : row.downstreamIds = some children)
    (hstatus : (applyStatus request row).2 = .succeeded) :
    Succeeds g released request.fence.workItemId children := by
  have hparent : IsItem g request.fence.workItemId row := ⟨h.found, hitem⟩
  obtain ⟨ids, hids, hnodup, hlisted⟩ := hg.listed _ row hparent
  rw [hchildren] at hids
  cases hids
  have hself : request.fence.workItemId ∉ children := fun hmem => by
    obtain ⟨row₁, hrow₁, hp⟩ := hlisted _ hmem
    exact hg.earlier _ row₁ hrow₁ hp
  have hreleases := h.releases
  rw [show releasedChildren (applyStatus request row).2 row = children by
    rw [releasedChildren, if_pos hstatus, hchildren]; rfl] at hreleases
  obtain ⟨hother, hchild⟩ := get_releaseDownstream hnodup hreleases
  obtain ⟨hkept, hdeps, hcount, hdown⟩ := kept_applyStatus request row
  -- the node of every identity, by whether it is the parent, a child or neither
  have hget : ∀ k, (k = request.fence.workItemId ∧ released.nodes.get k =
        some (some (recordResultRefs request (applyStatus request row).1).revised)) ∨
      (k ≠ request.fence.workItemId ∧ k ∈ children ∧ ∃ row₁, IsItem g k row₁ ∧
        released.nodes.get k = some (some (releasedRow row₁ request.now).revised)) ∨
      (k ≠ request.fence.workItemId ∧ k ∉ children ∧ released.nodes.get k = g.nodes.get k) := by
    intro k
    by_cases hk : k = request.fence.workItemId
    · subst hk
      exact .inl ⟨rfl, by rw [hother _ hself, Graph.get_write_self]⟩
    · by_cases hmem : k ∈ children
      · obtain ⟨row₁, hrow₁, -⟩ := hlisted k hmem
        exact .inr (.inl ⟨hk, hmem, row₁, hrow₁, hchild k hmem row₁
          (by rw [Graph.get_write_of_ne _ _ hk]; exact hrow₁.1)⟩)
      · exact .inr (.inr ⟨hk, hmem, by rw [hother k hmem, Graph.get_write_of_ne _ _ hk]⟩)
  have hparentRow : CountedDown request.fence.workItemId children request.fence.workItemId row
      (recordResultRefs request (applyStatus request row).1).revised :=
    ⟨hdeps, hdown, by rw [if_neg hself]; exact hcount,
      by rw [if_pos rfl]; exact status_of_succeeded hstatus⟩
  have hchildRow : ∀ k row₁, k ≠ request.fence.workItemId → k ∈ children →
      CountedDown request.fence.workItemId children k row₁
        (releasedRow row₁ request.now).revised := fun k row₁ hk hmem =>
    ⟨rfl, rfl, by rw [if_pos hmem]; rfl, by rw [if_neg hk]; simp only [hmem, true_and]; rfl⟩
  refine ⟨fun k row₁ hrow₁ => ?_, fun k row' hrow' => ?_⟩
  · rcases hget k with ⟨rfl, hk⟩ | ⟨hne, hmem, row₂, hrow₂, hk⟩ | ⟨hne, hmem, hk⟩
    · rw [hparent.congr hrow₁]
      exact ⟨_, ⟨hk, (isWorkItem_of_nodeType hkept).trans hitem⟩, hparentRow⟩
    · rw [hrow₂.congr hrow₁]
      exact ⟨_, ⟨hk, hrow₂.2⟩, hchildRow k row₂ hne hmem⟩
    · exact ⟨row₁, ⟨hk.trans hrow₁.1, hrow₁.2⟩, rfl, rfl, by rw [if_neg hmem],
        by rw [if_neg hne, if_neg fun hc => hmem hc.1]⟩
  · rcases hget k with ⟨rfl, hk⟩ | ⟨hne, hmem, row₂, hrow₂, hk⟩ | ⟨hne, hmem, hk⟩
    · have heq := hrow'.1.symm.trans hk
      simp only [Option.some.injEq] at heq
      rw [heq]
      exact ⟨row, hparent, hparentRow⟩
    · have heq := hrow'.1.symm.trans hk
      simp only [Option.some.injEq] at heq
      rw [heq]
      exact ⟨row₂, hrow₂, hchildRow k row₂ hne hmem⟩
    · exact ⟨row', ⟨hk.symm.trans hrow'.1, hrow'.2⟩, rfl, rfl, by rw [if_neg hmem],
        by rw [if_neg hne, if_neg fun hc => hmem hc.1]⟩

theorem local_receipts (h : Commits request g row released changed g' result)
    (hreceipts : ∀ id row', (id, some row') ∈ request.receipts.getD [] → row'.isWorkItem = false)
    (k : String) : LocalNode (released.nodes.get k) (g'.nodes.get k) := by
  rcases @get_applyReceiptRows k (writtenReceipts (applyStatus request row).2 request) released with
    ⟨-, hget⟩ | ⟨payload, hmem, hget⟩
  · rw [h.written, hget]
    exact .same _
  · have hreceipt := mem_receipts_of_written hmem
    have habsent := h.fresh k payload hreceipt
    have hne : k ≠ request.fence.workItemId := by
      rintro rfl
      rw [h.found] at habsent
      cases habsent
    have hquiet := quietNode_releaseDownstream h.releases k
    rw [Graph.get_write_of_ne _ _ hne, habsent] at hquiet
    rw [h.written, hget]
    refine .other ?_ fun row' hrow' => ?_
    · generalize released.nodes.get k = node at hquiet
      cases hquiet
      intro row' hrow'
      cases hrow'
    · cases hrow'
      exact hreceipts k row' hreceipt

theorem linked_commits (hg : Linked g) (h : Commits request g row released changed g' result)
    (hitem : row.isWorkItem = true)
    (hreceipts : ∀ id row', (id, some row') ∈ request.receipts.getD [] → row'.isWorkItem = false) :
    Linked g' := by
  refine linked_of_local (local_receipts h hreceipts) ?_
  by_cases hstatus : (applyStatus request row).2 = .succeeded
  · obtain ⟨children, hchildren, -⟩ := hg.listed _ row ⟨h.found, hitem⟩
    exact linked_of_succeeds hg ⟨h.found, hitem⟩
      (not_waiting_of_live (isLive_of_precheck h.precheck)).1 hchildren
      (succeeds_commit hg h hitem hchildren hstatus)
  · have hreleases := h.releases
    rw [releasedChildren, if_neg hstatus] at hreleases
    cases hreleases
    exact linked_of_local (local_write h.found (local_commit h.precheck hstatus)) hg

end commits

/-! ### A submission -/

section submissions

theorem nodup_of_sorted : ∀ {l : List String}, l.Pairwise (· ≤ ·) → l.IsChain (· ≠ ·) → l.Nodup
  | [], _, _ => List.nodup_nil
  | [a], _, _ => List.nodup_singleton a
  | a :: b :: l, hsorted, hchain => by
    obtain ⟨hfirst, hrest⟩ := List.pairwise_cons.mp hsorted
    obtain ⟨hne, hchain⟩ := List.isChain_cons_cons.mp hchain
    refine List.nodup_cons.mpr ⟨fun hmem => ?_, nodup_of_sorted hrest hchain⟩
    have hab : a < b := lt_of_le_of_ne (hfirst b (.head _)) hne
    rcases List.mem_cons.mp hmem with rfl | hmem
    · exact hne rfl
    · exact absurd (hab.trans_le ((List.pairwise_cons.mp hrest).1 a hmem)) (lt_irrefl a)

theorem nodup_sortedDependencies (request : SubmitWorkItemRequest) :
    (sortedDependencies request).Nodup := by
  refine nodup_of_sorted ?_ (List.isChain_destutter _ _)
  exact (List.pairwise_insertionSort (· ≤ ·) request.dependsOn).sublist
    (List.destutter_sublist _ _)

theorem resolveDependency_ok {dependency : String} {pending : Bool}
    (h : resolveDependency g tenant dependency = .ok pending) :
    (∃ row, IsItem g dependency row) ∧ pending = !succeeded g dependency := by
  obtain ⟨_, _, h⟩ := unbind h
  obtain ⟨found, hfound, h⟩ := unbind h
  obtain ⟨row, hrow, h⟩ := unbind h
  obtain ⟨_, hitem, h⟩ := unbind h
  obtain ⟨_, _, h⟩ := unbind h
  rw [okOr_eq_ok] at hrow
  rw [hrow, Graph.load_eq_some] at hfound
  rw [rejectIf_eq_ok, Bool.not_eq_false] at hitem
  rw [pure_eq_ok] at h
  refine ⟨⟨row, hfound, hitem⟩, ?_⟩
  rw [← h, succeeded_of_get hfound]
  exact decide_not

theorem pendingDependencies_ok : ∀ {dependencies pending : List String},
      pendingDependencies g tenant dependencies = .ok pending →
      (∀ p ∈ dependencies, ∃ row, IsItem g p row) ∧
        pending = dependencies.filter fun p => !succeeded g p
  | [], _, h => by
    cases h
    exact ⟨by simp, rfl⟩
  | dependency :: rest, _, h => by
    obtain ⟨waits, hwaits, h⟩ := unbind h
    obtain ⟨later, hlater, h⟩ := unbind h
    rw [pure_eq_ok] at h
    obtain ⟨hitem, rfl⟩ := resolveDependency_ok hwaits
    obtain ⟨hitems, rfl⟩ := pendingDependencies_ok hlater
    refine ⟨fun p hp => ?_, ?_⟩
    · rcases List.mem_cons.mp hp with rfl | hp
      · exact hitem
      · exact hitems p hp
    · rw [← h, List.filter_cons]

theorem get_indexAll : ∀ {parents : List String} {g g' : Graph}, parents.Nodup →
    indexAll id g parents = .ok g' →
    (∀ k, k ∉ parents → g'.nodes.get k = g.nodes.get k) ∧
      ∀ k ∈ parents, ∃ row ids, g.nodes.get k = some (some row) ∧ row.downstreamIds = some ids ∧
        (id ∉ ids → g'.nodes.get k =
          some (some { row with downstreamIds := some (ids ++ [id]) }.revised))
  | [], _, _, _, h => by
    cases h
    exact ⟨fun _ _ => rfl, by simp⟩
  | parent :: rest, g, g', hnodup, h => by
    obtain ⟨hfirst, hrest⟩ := List.nodup_cons.mp hnodup
    obtain ⟨mid, hmid, h⟩ := unbind h
    obtain ⟨row, ids, hrow, hids, hmid⟩ := indexDownstream_ok hmid
    obtain ⟨hother, hparents⟩ := get_indexAll hrest h
    have hkeep : ∀ k, k ≠ parent → mid.nodes.get k = g.nodes.get k := fun k hk => by
      rw [hmid]
      split_ifs
      · rfl
      · exact Graph.get_write_of_ne _ _ hk
    refine ⟨fun k hk => ?_, fun k hk => ?_⟩
    · rw [List.mem_cons, not_or] at hk
      rw [hother k hk.2, hkeep k hk.1]
    · rcases List.mem_cons.mp hk with rfl | hk
      · refine ⟨row, ids, hrow, hids, fun hnew => ?_⟩
        rw [hother k hfirst, hmid, if_neg hnew, Graph.get_write_self]
      · have hne : k ≠ parent := fun heq => hfirst (heq ▸ hk)
        obtain ⟨row₁, ids₁, hrow₁, hids₁, hget⟩ := hparents k hk
        rw [hkeep k hne] at hrow₁
        exact ⟨row₁, ids₁, hrow₁, hids₁, hget⟩

/-- The row of an older item after a new one was submitted: the new item is listed under the parents
it waits for. -/
structure Listing (id : String) (pending : List String) (k : String) (row row' : Row) : Prop where
  dependsOn : row'.dependsOn = row.dependsOn
  depCount : row'.depCount = row.depCount
  status : row'.status = row.status
  downstreamIds : ∀ ids, row.downstreamIds = some ids →
    row'.downstreamIds = some (if k ∈ pending then ids ++ [id] else ids)

/-- A new item joins the graph. -/
structure Joins (g g' : Graph) (id : String) (row : Row) (pending : List String) : Prop where
  absent : g.nodes.get id = none
  new : IsItem g' id row
  forward : ∀ k old, IsItem g k old → ∃ old', IsItem g' k old' ∧ Listing id pending k old old'
  backward : ∀ k old', IsItem g' k old' → (k = id ∧ old' = row) ∨
    ∃ old, IsItem g k old ∧ Listing id pending k old old'

theorem Joins.ne (h : Joins g g' id row pending) {k : String} {old : Row}
    (hold : IsItem g k old) : k ≠ id := by
  rintro rfl
  rw [IsItem, h.absent] at hold
  cases hold.1

theorem succeeded_of_joins (h : Joins g g' id row pending) {q : String}
    (hq : IsItem g q parent) : succeeded g' q = succeeded g q := by
  obtain ⟨parent', hparent', hlisting⟩ := h.forward q parent hq
  rw [succeeded_of_get hq.1, succeeded_of_get hparent'.1, hlisting.status]

theorem linked_of_joins (hg : Linked g) (h : Joins g g' id row pending)
    (hnodup : row.dependsOn.Nodup) (hknown : ∀ p ∈ row.dependsOn, ∃ parent, IsItem g p parent)
    (hpending : pending = row.dependsOn.filter fun p => !succeeded g p)
    (hcount : row.depCount = pending.length) (hids : row.downstreamIds = some [])
    (hstatus : row.status = if pending.length = 0 then .ready else .submitted) : Linked g' := by
  have hsame : ∀ k old, IsItem g k old → ∀ old', Listing id pending k old old' →
      unmet g' old' = unmet g old := fun k old hold old' hlisting => by
    unfold unmet
    rw [hlisting.dependsOn]
    refine List.filter_congr fun q hq => ?_
    obtain ⟨parent, hparent⟩ := hg.known k old hold q hq
    rw [succeeded_of_joins h hparent]
  refine ⟨fun k old' hold' q hq => ?_, fun k old' hold' => ?_, fun k old' hold' => ?_,
    fun k old' hold' q hq parent' hparent' hwaiting => ?_, fun q parent' hparent' => ?_,
    fun k old' hold' => ?_, fun k old' hold' hterminal => ?_⟩
  · have hparent : ∃ parent, IsItem g q parent := by
      rcases h.backward k old' hold' with ⟨-, rfl⟩ | ⟨old, hold, hlisting⟩
      · exact hknown q hq
      · rw [hlisting.dependsOn] at hq
        exact hg.known k old hold q hq
    obtain ⟨parent, hparent⟩ := hparent
    obtain ⟨parent', hparent', -⟩ := h.forward q parent hparent
    exact ⟨parent', hparent'⟩
  · rcases h.backward k old' hold' with ⟨-, rfl⟩ | ⟨old, hold, hlisting⟩
    · exact hnodup
    · rw [hlisting.dependsOn]
      exact hg.nodup k old hold
  · rcases h.backward k old' hold' with ⟨rfl, rfl⟩ | ⟨old, hold, hlisting⟩
    · intro hmem
      obtain ⟨parent, hparent⟩ := hknown k hmem
      exact h.ne hparent rfl
    · rw [hlisting.dependsOn]
      exact hg.earlier k old hold
  · -- the parent is an older item: the new one depends on nothing that waits for it
    have hq₀ : ∃ parent, IsItem g q parent := by
      rcases h.backward k old' hold' with ⟨-, rfl⟩ | ⟨old, hold, hlisting⟩
      · exact hknown q hq
      · rw [hlisting.dependsOn] at hq
        exact hg.known k old hold q hq
    obtain ⟨parent, hparent⟩ := hq₀
    obtain ⟨parent₁, hparent₁, hlisting'⟩ := h.forward q parent hparent
    rw [hparent₁.congr hparent'] at hwaiting ⊢
    obtain ⟨ids, hids', -, -⟩ := hg.listed q parent hparent
    refine ⟨_, hlisting'.downstreamIds ids hids', ?_⟩
    rw [hlisting'.status] at hwaiting
    rcases h.backward k old' hold' with ⟨rfl, rfl⟩ | ⟨old, hold, hlisting⟩
    · have hmem : q ∈ pending := by
        rw [hpending, List.mem_filter, succeeded_of_get hparent.1]
        exact ⟨hq, by simp [hwaiting]⟩
      rw [if_pos hmem]
      exact List.mem_append_right _ (.head _)
    · rw [hlisting.dependsOn] at hq
      obtain ⟨ids₁, hids₁, hk⟩ := hg.indexed k old hold q hq parent hparent hwaiting
      rw [hids'] at hids₁
      cases hids₁
      split_ifs
      · exact List.mem_append_left _ hk
      · exact hk
  · rcases h.backward q parent' hparent' with ⟨rfl, rfl⟩ | ⟨parent, hparent, hlisting⟩
    · exact ⟨[], hids, List.nodup_nil, by simp⟩
    · obtain ⟨ids, hids', hnodup', hlisted⟩ := hg.listed q parent hparent
      have hforward : ∀ k ∈ ids, ∃ old', IsItem g' k old' ∧ q ∈ old'.dependsOn := fun k hk => by
        obtain ⟨old, hold, hmem⟩ := hlisted k hk
        obtain ⟨old', hold', hlisting'⟩ := h.forward k old hold
        exact ⟨old', hold', by rw [hlisting'.dependsOn]; exact hmem⟩
      refine ⟨_, hlisting.downstreamIds ids hids', ?_⟩
      split_ifs with hmem
      · have hnew : id ∉ ids := fun hk => by
          obtain ⟨old, hold, -⟩ := hlisted id hk
          exact h.ne hold rfl
        refine ⟨List.nodup_append.mpr ⟨hnodup', List.nodup_singleton id, ?_⟩, fun k hk => ?_⟩
        · intro a ha b hb hab
          rw [List.mem_singleton] at hb
          rw [hb] at hab
          exact hnew (hab ▸ ha)
        · rcases List.mem_append.mp hk with hk | hk
          · exact hforward k hk
          · rw [List.mem_singleton] at hk
            subst hk
            rw [hpending, List.mem_filter] at hmem
            exact ⟨row, h.new, hmem.1⟩
      · exact ⟨hnodup', hforward⟩
  · rcases h.backward k old' hold' with ⟨rfl, rfl⟩ | ⟨old, hold, hlisting⟩
    · rw [hcount, hpending]
      refine congrArg List.length (List.filter_congr fun q hq => ?_)
      obtain ⟨parent, hparent⟩ := hknown q hq
      rw [succeeded_of_joins h hparent]
    · rw [hlisting.depCount, hsame k old hold old' hlisting]
      exact hg.counted k old hold
  · rcases h.backward k old' hold' with ⟨rfl, rfl⟩ | ⟨old, hold, hlisting⟩
    · rw [hstatus, hcount]
      split_ifs with hzero
      · simp [hzero]
      · simp only [true_iff]
        omega
    · rw [hlisting.status] at hterminal ⊢
      rw [hlisting.depCount]
      exact hg.gated k old hold hterminal

theorem local_reserve {answers : Answers} {ids : List String}
    (h : reserve H g request answers = .ok (g', ids)) (k : String) :
    LocalNode (g.nodes.get k) (g'.nodes.get k) := by
  have hhead : ∀ {row : Row}, row.nodeType = "ConversationHead" → row.isWorkItem = false := by
    intro row hrow
    unfold Row.isWorkItem
    rw [hrow]
    rfl
  rcases reserve_ok h with rfl | ⟨context, run, -, -, hold, rfl⟩
  · exact .same _
  · by_cases hk : k = headId H request.tenantId context
    · subst hk
      rw [Graph.get_put_self]
      refine .other (fun row hrow => ?_) fun row hrow => ?_
      · rcases hold with hold | ⟨row₁, hold, hnode⟩
        · rw [hold] at hrow
          cases hrow
        · rw [hold] at hrow
          cases hrow
          exact hhead hnode
      · cases hrow
        exact hhead rfl
    · rw [Graph.get_put_of_ne _ _ hk]
      exact .same _

theorem joins_submission {reserved g' : Graph} {dependencies head : List String} {sequence : ℕ}
    (hreserved : Linked reserved) (hpending : ∀ p ∈ pending, ∃ row, IsItem reserved p row)
    (hnodup : pending.Nodup)
    (h : Submission H request scope g id dependencies pending sequence reserved head g') :
    Joins reserved g' id (newRow request dependencies pending sequence scope.now).revised
      pending := by
  have habsent := h.get_reserved
  obtain ⟨hother, hparents⟩ := get_indexAll hnodup h.indexed
  have hself : id ∉ pending := fun hmem => by
    obtain ⟨row, hrow⟩ := hpending id hmem
    rw [IsItem, habsent] at hrow
    cases hrow.1
  have hlisting : ∀ k ∈ pending, ∃ row ids, IsItem reserved k row ∧ row.downstreamIds = some ids ∧
      g'.nodes.get k = some (some { row with downstreamIds := some (ids ++ [id]) }.revised) := by
    intro k hk
    obtain ⟨row, hrow⟩ := hpending k hk
    obtain ⟨row₁, ids, hrow₁, hids, hget⟩ := hparents k hk
    rw [Graph.get_write_of_ne _ _ (by rintro rfl; exact hself hk), hrow.1] at hrow₁
    cases hrow₁
    refine ⟨row, ids, hrow, hids, hget fun hmem => ?_⟩
    obtain ⟨ids₁, hids₁, -, hlisted⟩ := hreserved.listed k row hrow
    rw [hids] at hids₁
    cases hids₁
    obtain ⟨row₂, hrow₂, -⟩ := hlisted id hmem
    rw [IsItem, habsent] at hrow₂
    cases hrow₂.1
  have hnew : IsItem g' id (newRow request dependencies pending sequence scope.now).revised :=
    ⟨by rw [hother id hself, Graph.get_write_self], rfl⟩
  refine ⟨habsent, hnew, fun k old hold => ?_, fun k old' hold' => ?_⟩
  · have hne : k ≠ id := by
      rintro rfl
      rw [IsItem, habsent] at hold
      cases hold.1
    by_cases hk : k ∈ pending
    · obtain ⟨row, ids, hrow, hids, hget⟩ := hlisting k hk
      rw [hrow.congr hold]
      refine ⟨_, ⟨hget, hrow.2⟩, rfl, rfl, rfl, fun ids₁ hids₁ => ?_⟩
      rw [hids] at hids₁
      cases hids₁
      rw [if_pos hk]
      rfl
    · refine ⟨old, ⟨?_, hold.2⟩, rfl, rfl, rfl, fun ids hids => by rw [if_neg hk]; exact hids⟩
      rw [hother k hk, Graph.get_write_of_ne _ _ hne]
      exact hold.1
  · by_cases hid : k = id
    · subst hid
      exact .inl ⟨rfl, hnew.congr hold'⟩
    · refine .inr ?_
      by_cases hk : k ∈ pending
      · obtain ⟨row, ids, hrow, hids, hget⟩ := hlisting k hk
        have hrow' : IsItem g' k { row with downstreamIds := some (ids ++ [id]) }.revised :=
          ⟨hget, hrow.2⟩
        rw [hrow'.congr hold']
        refine ⟨row, hrow, rfl, rfl, rfl, fun ids₁ hids₁ => ?_⟩
        rw [hids] at hids₁
        cases hids₁
        rw [if_pos hk]
        rfl
      · refine ⟨old', ⟨?_, hold'.2⟩, rfl, rfl, rfl, fun ids hids => by rw [if_neg hk]; exact hids⟩
        rw [← hold'.1, hother k hk, Graph.get_write_of_ne _ _ hid]

theorem linked_submitWorkItem {result : Submitted} (hg : Linked g)
    (h : submitWorkItem H request scope g = .ok (g', result)) : Linked g' := by
  obtain ⟨dependencies, pending, sequence, reserved, head, hsub⟩ := submitWorkItem_ok h
  obtain ⟨_, _, hunique⟩ := unbind hsub.unique
  rw [pure_eq_ok] at hunique
  have hnodup : dependencies.Nodup := hunique ▸ nodup_sortedDependencies request
  obtain ⟨hitems, hpending⟩ := pendingDependencies_ok hsub.waiting
  have hlocal : ∀ k, LocalNode (g.nodes.get k) (reserved.nodes.get k) :=
    fun k => local_reserve hsub.reserves k
  have hreserved : Linked reserved := linked_of_local hlocal hg
  have hitems' : ∀ p ∈ dependencies, ∃ row, IsItem reserved p row := fun p hp => by
    obtain ⟨row, hrow⟩ := hitems p hp
    obtain ⟨row', hrow', -⟩ := hrow.of_local hlocal
    exact ⟨row', hrow'⟩
  have hpending' : pending = dependencies.filter fun p => !succeeded reserved p := by
    rw [hpending]
    refine List.filter_congr fun p hp => ?_
    obtain ⟨row, hrow⟩ := hitems p hp
    rw [succeeded_of_local hlocal hrow]
  have hsub' : ∀ p ∈ pending, p ∈ dependencies := fun p hp => by
    rw [hpending] at hp
    exact (List.mem_filter.mp hp).1
  have hjoins := joins_submission hreserved (fun p hp => hitems' p (hsub' p hp))
    (hpending ▸ hnodup.filter _) hsub
  exact linked_of_joins hreserved hjoins hnodup hitems' hpending' rfl rfl rfl

theorem linked_submitChildren :
    ∀ {children : List SubmitWorkItemRequest} {g g' : Graph} {results : List Submitted}, Linked g →
      submitChildren H tenant scope children g = .ok (g', results) → Linked g'
  | [], _, _, _, hg, h => by
    cases h
    exact hg
  | child :: rest, _, _, _, hg, h => by
    obtain ⟨_, _, h⟩ := unbind h
    obtain ⟨⟨mid, result⟩, hmid, h⟩ := unbind h
    obtain ⟨⟨last, results⟩, hlast, h⟩ := unbind h
    cases h
    exact linked_submitChildren (linked_submitWorkItem hg hmid) hlast

end submissions

/-! ### Runs -/

/-- An accepted commit is of a WorkItem, and the rows of its receipts are not labelled as one. -/
def OnItems (g : Graph) : Call → Prop
  | .commit request => ∀ row, g.nodes.get request.fence.workItemId = some (some row) →
      commitPrecheck request row = none → row.isWorkItem = true ∧
        ∀ id row', (id, some row') ∈ request.receipts.getD [] → row'.isWorkItem = false
  | _ => True

theorem linked_step {c : Call} (hg : Linked g) (hc : OnItems g c) : Linked (step H g c) := by
  unfold step call
  rcases happly : apply H g c with message | ⟨g', r⟩
  · exact hg
  · dsimp only
    cases c with
    | submit request scope =>
      obtain ⟨⟨g₁, result⟩, h, hr⟩ := unbind happly
      cases hr
      exact linked_submitWorkItem hg h
    | submitBatch request scope =>
      obtain ⟨⟨g₁, results⟩, h, hr⟩ := unbind happly
      cases hr
      exact linked_submitChildren hg (submitWorkItems_ok h)
    | claim request =>
      obtain ⟨⟨g₁, result⟩, h, hr⟩ := unbind happly
      cases hr
      exact linked_of_local (local_claim h) hg
    | renew request =>
      obtain ⟨⟨g₁, status⟩, h, hr⟩ := unbind happly
      cases hr
      exact linked_of_local (local_renew h) hg
    | commit request =>
      obtain ⟨⟨g₁, result⟩, h, hr⟩ := unbind happly
      cases hr
      rcases commitWorkItemResult_ok h with ⟨rfl, -⟩ | ⟨row, released, changed, hcommits⟩
      · exact hg
      · obtain ⟨hitem, hreceipts⟩ := hc row hcommits.found hcommits.precheck
        exact linked_commits hg hcommits hitem hreceipts
    | cancel request =>
      obtain ⟨⟨g₁, status⟩, h, hr⟩ := unbind happly
      cases hr
      exact linked_of_local (local_cancel h) hg
    | defer request =>
      obtain ⟨⟨g₁, status⟩, h, hr⟩ := unbind happly
      cases hr
      exact linked_of_local (local_defer h) hg

theorem linked_of_no_items (h : ∀ id, NotItem (g.nodes.get id)) : Linked g := by
  have hno : ∀ {id row}, ¬ IsItem g id row := fun {id row} hitem => by
    have hwork := hitem.2
    rw [h id row hitem.1] at hwork
    cases hwork
  exact ⟨fun _ _ hr => absurd hr hno, fun _ _ hr => absurd hr hno, fun _ _ hr => absurd hr hno,
    fun _ _ hr => absurd hr hno, fun _ _ hr => absurd hr hno, fun _ _ hr => absurd hr hno,
    fun _ _ hr => absurd hr hno⟩

/-- What the dependencies of an item say about its row. -/
structure Gated (g : Graph) (row : Row) : Prop where
  counted : row.status.isTerminal = false → row.depCount = (unmet g row).length
  submitted : row.status.isTerminal = false → (row.status = .submitted ↔ 0 < (unmet g row).length)
  leased : row.status.isLive = true → ∀ p ∈ row.dependsOn, succeeded g p = true

theorem gated_of_linked (hg : Linked g) (hrow : IsItem g id row) : Gated g row := by
  have hcounted := hg.counted id row hrow
  refine ⟨fun _ => hcounted, fun hterminal => ?_, fun hlive p hp => ?_⟩
  · rw [← hcounted]
    exact hg.gated id row hrow hterminal
  · obtain ⟨-, hterminal, hsubmitted⟩ := not_waiting_of_live hlive
    have hzero : (unmet g row).length = 0 := by
      rw [← hcounted]
      by_contra hne
      exact hsubmitted ((hg.gated id row hrow hterminal).mpr (Nat.pos_of_ne_zero hne))
    by_contra hnot
    have hmem : p ∈ unmet g row := List.mem_filter.mpr ⟨hp, by simpa using hnot⟩
    rw [List.length_eq_zero_iff.mp hzero] at hmem
    exact absurd hmem List.not_mem_nil

theorem ready_of_met (hg : Linked g) {request : CommitRequest}
    (hg' : Linked (step H g (.commit request))) (hrow : IsItem g id row)
    (hrow' : IsItem (step H g (.commit request)) id row')
    (hterminal : row.status.isTerminal = false) (hwaiting : unmet g row ≠ [])
    (hmet : unmet (step H g (.commit request)) row' = []) : row'.status = .ready := by
  have hpos : 0 < row.depCount := by
    rw [hg.counted id row hrow]
    exact List.length_pos_iff.mpr hwaiting
  have hsubmitted : row.status = .submitted := (hg.gated id row hrow hterminal).mpr hpos
  have hzero : row'.depCount = 0 := by
    rw [hg'.counted id row' hrow', hmet]
    rfl
  have hmoves := moves_call H g (.commit request) id
  rw [hrow.1, hrow'.1] at hmoves
  cases hmoves with
  | change hchange =>
    cases hchange with
    | quiet hquiet _ =>
      rcases hquiet.status with hsame | ⟨-, hready⟩
      · rw [hsubmitted] at hsame
        have hgate := (hg'.gated id row' hrow' (by rw [hsame]; rfl)).mp hsame
        omega
      · exact hready
    | head hhead _ _ _ =>
      have hitem := hrow.2
      unfold Row.isWorkItem at hitem
      rw [hhead] at hitem
      cases hitem
    | granted hcall => cases hcall
    | retired hcall => cases hcall
    | renewed hcall => cases hcall
    | cancelled hcall => cases hcall
    | deferred hcall => cases hcall
    | settled hcall _ precheck _ _ =>
      have hlive := isLive_of_precheck precheck
      rw [hsubmitted] at hlive
      cases hlive

/-- **Dependencies gate work**, in every run from a graph without WorkItems whose accepted commits are
of WorkItems and plant none: the counter of a non-terminal item is the number of its unmet dependencies,
it is submitted exactly when there are some, a leased item has none, and the commit that meets the last
one makes it ready. -/
theorem dependencies_gate (H : Digests) {g : Graph} (hg : ∀ id, NotItem (g.nodes.get id))
    {cs : List Call} (hcs : Transaction.Along (step H) OnItems g cs) :
    (∀ id row, IsItem (run H g cs) id row → Gated (run H g cs) row) ∧
      ∀ request, OnItems (run H g cs) (.commit request) → ∀ id row row',
        IsItem (run H g cs) id row → IsItem (step H (run H g cs) (.commit request)) id row' →
        row.status.isTerminal = false → unmet (run H g cs) row ≠ [] →
        unmet (step H (run H g cs) (.commit request)) row' = [] → row'.status = .ready := by
  have hlinked : Linked (run H g cs) :=
    Transaction.run_invariant_along (fun _ _ hc hs => linked_step hs hc) cs g hcs
      (linked_of_no_items hg)
  refine ⟨fun id row hrow => gated_of_linked hlinked hrow, ?_⟩
  intro request hrequest id row row' hrow hrow' hterminal hwaiting hmet
  exact ready_of_met hlinked (linked_step hlinked hrequest) hrow hrow' hterminal hwaiting hmet

/-! ### A chain of two items -/

def submitNamed (id : String) (dependsOn : List String) : Call :=
  .submit
    { tenantId := "t", contextGraph := "g", idempotencyKey := id
      commandDigest := "0123456789abcdef0123456789abcdef0123456789abcdef0123456789abcdef"
      kind := "k", policyDigest := "p", catalogDigest := "c", modelDigest := "m", inputRef := ""
      dependsOn := dependsOn, maxTenantInFlight := 0, maxAttempts := 1, priority := 0
      deadline := none, provenanceRefs := [], metadata := "", workItemId := some id, runId := none
      conversation := none }
    ⟨1, none, {}⟩

def claimNamed (id : String) : Call := .claim ⟨"t", some id, none, none, none, "w", 2, 100, 5⟩

/-- A successful commit under the first fence. -/
def commitNamed (id : String) : CommitRequest :=
  ⟨⟨"t", id, ⟨"w", 1, 1⟩⟩, .succeeded, none, none, false, 3, none, false, {}⟩

def emptyGraph : Graph := ⟨"g", Table.empty, 0⟩

/-- The child waits for the parent, and the parent is committed. -/
def chain : List Call :=
  [submitNamed "p" [], submitNamed "c" ["p"], claimNamed "p", .commit (commitNamed "p")]

theorem notItem_empty (id : String) : NotItem (emptyGraph.nodes.get id) := fun row hrow => by
  cases hrow

theorem dependencies_gate_chain : (∀ id, NotItem (emptyGraph.nodes.get id)) ∧
      Transaction.Along (step plainDigests) OnItems emptyGraph chain ∧
      ((run plainDigests emptyGraph chain).nodes.get "c").join.map Row.status = some .ready ∧
      ∀ id row, IsItem (run plainDigests emptyGraph chain) id row →
        Gated (run plainDigests emptyGraph chain) row := by
  have halong : Transaction.Along (step plainDigests) OnItems emptyGraph chain := by
    refine ⟨trivial, trivial, trivial, fun row hrow _ => ⟨?_, ?_⟩, trivial⟩
    · have hwork : ((Transaction.run (step plainDigests) emptyGraph [submitNamed "p" [],
          submitNamed "c" ["p"], claimNamed "p"]).nodes.get "p").join.map Row.isWorkItem =
            some true := by decide +kernel
      change (Option.join ((step plainDigests (step plainDigests (step plainDigests emptyGraph
        (submitNamed "p" [])) (submitNamed "c" ["p"])) (claimNamed "p")).nodes.get "p")).map
          Row.isWorkItem = some true at hwork
      rw [show (commitNamed "p").fence.workItemId = "p" from rfl] at hrow
      rw [hrow] at hwork
      exact Option.some.inj hwork
    · intro id row' hmem
      exact absurd hmem List.not_mem_nil
  refine ⟨notItem_empty, halong, by decide +kernel, ?_⟩
  exact (dependencies_gate plainDigests notItem_empty halong).1

/-! ### A row that is no WorkItem -/

/-- A note that says it is leased and lists an item of that name downstream. -/
def noteRow : Row :=
  { nodeType := "Note", tenant := "t", status := .leased, leaseOwner := "w", leaseEpoch := 1
    fencingToken := 1, leaseExpiresAt := 1000, downstreamIds := some ["c"] }

def noteGraph : Graph := ⟨"g", Table.ofPairs [("note", some noteRow)], 0⟩

/-- The note is committed, and the child of a parent that has not succeeded is claimed. -/
def throughNote : List Call :=
  [submitNamed "p" [], submitNamed "c" ["p"], .commit (commitNamed "note"), claimNamed "c"]

/-- The commit of a note releases an item whose dependency has not succeeded. -/
theorem note_releases_item : (∀ id, NotItem (noteGraph.nodes.get id)) ∧
      ¬ ∀ id row, IsItem (run plainDigests noteGraph throughNote) id row →
        Gated (run plainDigests noteGraph throughNote) row := by
  refine ⟨fun id row hrow => ?_, fun h => ?_⟩
  · have hget : noteGraph.nodes.get id = if id = "note" then some (some noteRow) else none :=
      Table.get_insert _ _ _ _
    rw [hget] at hrow
    split_ifs at hrow
    cases hrow
    rfl
  · have hrow : ((run plainDigests noteGraph throughNote).nodes.get "c").join.map (fun row =>
        (row.isWorkItem, row.status, row.dependsOn)) = some (true, .leased, ["p"]) := by
      decide +kernel
    have hparent : succeeded (run plainDigests noteGraph throughNote) "p" = false := by
      decide +kernel
    obtain ⟨row, hjoin, heq⟩ := Option.map_eq_some_iff.mp hrow
    rw [Option.join_eq_some_iff] at hjoin
    simp only [Prod.mk.injEq] at heq
    have hgated := h "c" row ⟨hjoin, heq.1⟩
    have hmet := hgated.leased (by rw [heq.2.1]; rfl) "p" (by rw [heq.2.2]; exact .head _)
    rw [hparent] at hmet
    cases hmet

/-! ### Terminal items -/

theorem cancel_of_terminal {request : CancelRequest} (hid : request.workItemId = id)
    (hrow : g.nodes.get id = some (some row)) (hterminal : row.status.isTerminal = true) :
    step H g (.cancel request) = g := by
  unfold step call
  rcases happly : apply H g (.cancel request) with message | ⟨g', r⟩
  · rfl
  · obtain ⟨⟨g₁, status⟩, h, hr⟩ := unbind happly
    cases hr
    rcases cancelWorkItem_ok h with ⟨rfl, -⟩ | ⟨found, fences, hfound, -, hrefusal, -⟩
    · rfl
    · rw [hid, hrow] at hfound
      cases hfound
      simp [cancelRefusal, hterminal] at hrefusal

theorem terminal_step (c : Call) (hrow : IsItem g id row) (hterminal : row.status.isTerminal = true) :
    ∃ row', IsItem (step H g c) id row' ∧ row'.status = row.status ∧ row'.fences = row.fences := by
  have hidle : row.status.isLive = false := by
    cases hstatus : row.status <;> simp_all [Status.isLive, Status.isTerminal]
  have hmoves := moves_call H g c id
  rw [hrow.1] at hmoves
  generalize hnode : (step H g c).nodes.get id = node at hmoves
  cases hmoves with
  | change h =>
    cases h with
    | quiet h =>
      refine ⟨_, ⟨hnode, (isWorkItem_of_nodeType h.nodeType).trans hrow.2⟩, ?_, h.fences⟩
      rcases h.status with hsame | ⟨hsubmitted, -⟩
      · exact hsame
      · rw [hsubmitted] at hterminal
        cases hterminal
    | head h =>
      have hitem := hrow.2
      simp [Row.isWorkItem, h] at hitem
    | granted _ h =>
      rcases h.waiting with hlive | hready
      · exact absurd hlive (by simp [hidle])
      · rw [hready] at hterminal
        cases hterminal
    | retired _ h => exact absurd h.live (by simp [hidle])
    | renewed _ _ valid => exact absurd (isLive_of_isValid valid) (by simp [hidle])
    | settled _ _ precheck => exact absurd (isLive_of_precheck precheck) (by simp [hidle])
    | cancelled call target =>
      rw [call, cancel_of_terminal target hrow.1 hterminal]
      exact ⟨row, hrow, rfl, rfl⟩
    | deferred _ _ valid => exact absurd (isLive_of_isValid valid) (by simp [hidle])

/-- **A terminal item is final.** Whatever is called afterwards, its status and its fences stay as they
are, so that no lease is granted on it again. -/
theorem terminal_is_final (H : Digests) : ∀ (calls : List Call) {g : Graph} {id : String} {row : Row},
    IsItem g id row → row.status.isTerminal = true →
      ∃ row', IsItem (run H g calls) id row' ∧ row'.status = row.status ∧ row'.fences = row.fences
  | [], _, _, row, hrow, _ => ⟨row, hrow, rfl, rfl⟩
  | c :: calls, _, _, row, hrow, hterminal => by
    obtain ⟨mid, hmid, hstatus, hfences⟩ := terminal_step (H := H) c hrow hterminal
    obtain ⟨last, hlast, hstatus', hfences'⟩ :=
      terminal_is_final H calls hmid (hstatus ▸ hterminal)
    exact ⟨last, hlast, hstatus'.trans hstatus, hfences'.trans hfences⟩

def doneRow : Row := { nodeType := "WorkItem", tenant := "t", status := .succeeded }

theorem terminal_is_final_claimed : ∃ row', IsItem (run plainDigests
      ⟨"g", Table.ofPairs [("p", some doneRow)], 0⟩ [claimNamed "p"]) "p" row' ∧
    row'.status = doneRow.status ∧ row'.fences = doneRow.fences :=
  terminal_is_final plainDigests [claimNamed "p"] ⟨rfl, rfl⟩ rfl

end Medulla.WorkItem.Dependencies
