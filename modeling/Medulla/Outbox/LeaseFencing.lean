import Medulla.Outbox.NoLoss

/-! # Leases are fenced

As long as no row is forgotten, the epochs issued for a row grow, and the row carries the last one: a
lease that was replaced, given back, run out or swept is never good again.

* one move: `fenced_move`, `present_move`, `over_move`; one call: `call_keeps`;
* every run: `older_lease_is_refused`. -/

namespace Medulla.Outbox.LeaseFencing

open Library.Checked Library.Transaction Types.Records Mutation.State Mutation.Kernel Mutation.Runs
open Mutation.RouteFence Outbox.Index Rows Claim Cursor Rewind
open Machine Views Refinement ClaimSteps Streams Outbox.Ordering
open NoLoss
open Library.OrderedTable (Table)

variable {p : OutboxPosition} {leases : List MutationOutboxLease}
  {rows : Table OutboxKey OutboxDelivery}

/-! ### Issued leases -/

structure Issue where
  epoch : ℕ
  leaseUntilMs : ℕ

def issueOf (k : OutboxKey) : Notice → Option Issue
  | .leased row epoch leaseUntilMs => if row = k then some ⟨epoch, leaseUntilMs⟩ else none
  | _ => none

/-- The leases some notices report for a row, in order. -/
def issuesIn (ns : List Notice) (k : OutboxKey) : List Issue := ns.filterMap (issueOf k)

def issuedAfter (issued : OutboxKey → List Issue) (es : List Event) (k : OutboxKey) : List Issue :=
  issued k ++ issuesIn (es.map Event.notice) k

structure Fenced (issued : OutboxKey → List Issue) (v : View) : Prop where
  increasing : ∀ k, (issued k).Pairwise (·.epoch < ·.epoch)
  timed : ∀ k, ∀ i ∈ issued k, 1 ≤ i.epoch ∧ i.leaseUntilMs ≠ 0
  indexed : ∀ k, issued k ≠ [] → ∃ p ∈ v.index, p.row = k
  rows : ∀ k d, v.rows.get k = some d → (d.leaseEpoch = 0 ∧ d.resolved = true) ∨
    (∀ i ∈ issued k, i.epoch ≤ d.leaseEpoch) ∧
      ∃ i ∈ issued k, i.epoch = d.leaseEpoch ∧ (d.leaseUntilMs = i.leaseUntilMs ∨ d.leaseUntilMs = 0)

/-- No row that was leased is missing ahead of the prefix. -/
def Present (issued : OutboxKey → List Issue) (v : View) : Prop :=
  ∀ p ∈ v.index, ¬ Passed v.resolvedThrough p → issued p.row ≠ [] → (v.rows.get p.row).isSome = true

def Continues (issued : OutboxKey → List Issue) : Event → Prop
  | .leased previous d => (previous = none → issued d.position.row = []) ∧
      ∀ e, previous = some e → e.leaseEpoch < u64Max
  | _ => True

section
variable {consumer : String} {clock t : ℕ} {v v' : View} {es : List Event}
  {issued : OutboxKey → List Issue} {d e : OutboxDelivery} {k : OutboxKey} {i : Issue}

theorem issuedAfter_of_not_leased (h : ∀ previous d, Event.leased previous d ∉ es) :
    issuedAfter issued es = issued := by
  funext k
  unfold issuedAfter issuesIn
  rw [List.filterMap_eq_nil_iff.mpr, List.append_nil]
  intro n hn
  obtain ⟨e, he, rfl⟩ := List.mem_map.mp hn
  cases e with
  | leased previous d => exact absurd he (h previous d)
  | settled p => rfl
  | delivered p => rfl
  | rewound start target => rfl

theorem issuedAfter_leased (previous : Option OutboxDelivery) (d : OutboxDelivery)
    (k : OutboxKey) :
    issuedAfter issued [.leased previous d] k =
      if d.position.row = k then issued k ++ [⟨d.leaseEpoch, d.leaseUntilMs⟩] else issued k := by
  unfold issuedAfter issuesIn
  by_cases hk : d.position.row = k
  · simp [Event.notice, issueOf, hk]
  · simp [Event.notice, issueOf, hk]

theorem issuedAfter_append (es fs : List Event) :
    issuedAfter (issuedAfter issued es) fs = issuedAfter issued (es ++ fs) := by
  funext k
  simp only [issuedAfter, issuesIn, List.map_append, List.filterMap_append, List.append_assoc]

section
variable (h : Fenced issued v)
include h

theorem Fenced.rewrite (n : ℕ) (r : Option OutboxPosition)
    (hrow : v.rows.get e.position.row = some d) (hepoch : e.leaseEpoch = d.leaseEpoch)
    (hlease : e.leaseUntilMs = d.leaseUntilMs ∨ e.leaseUntilMs = 0)
    (hresolved : d.resolved = true → e.resolved = true) :
    Fenced issued { v.put e with inflight := n, resolvedThrough := r } := by
  refine ⟨h.increasing, h.timed, h.indexed, fun k f hf => ?_⟩
  rw [put_get] at hf
  split_ifs at hf with hk
  · obtain rfl := Option.some.inj hf
    rw [hk, hepoch]
    refine (h.rows _ d hrow).imp (fun hold => ⟨hold.1, hresolved hold.2⟩) fun hold => ?_
    obtain ⟨hmax, i, hi, hsame, huntil⟩ := hold
    refine ⟨hmax, i, hi, hsame, ?_⟩
    rcases hlease with hkept | hzero
    · rw [hkept]
      exact huntil
    · exact Or.inr hzero
  · exact h.rows k f hf

theorem Fenced.beyond (hfree : Free (v.rows.get p.row))
    (hleases : Leases consumer p (v.rows.get p.row) d)
    (hcontinues : Continues issued (.leased (v.rows.get p.row) d)) (hi : i ∈ issued p.row) :
    i.epoch < d.leaseEpoch := by
  obtain ⟨hfresh, hbound⟩ := hcontinues
  rw [hleases.position] at hfresh
  rw [hleases.epoch]
  cases hrow : v.rows.get p.row with
  | none =>
    rw [hfresh hrow] at hi
    exact absurd hi List.not_mem_nil
  | some e =>
    have hlt := hbound e hrow
    rcases h.rows _ e hrow with ⟨-, hresolved⟩ | ⟨hmax, -⟩
    · exact absurd ((hfree e hrow).1.symm.trans hresolved) (by simp)
    · have hle := hmax i hi
      simp only [Option.map_some, Option.getD_some, saturatingAdd]
      omega

theorem Fenced.lease (n : ℕ) (hp : p ∈ v.index)
    (hfree : Free (v.rows.get p.row)) (hleases : Leases consumer p (v.rows.get p.row) d)
    (hcontinues : Continues issued (.leased (v.rows.get p.row) d)) :
    Fenced (issuedAfter issued [.leased (v.rows.get p.row) d]) { v.put d with inflight := n } := by
  have hbeyond : ∀ i ∈ issued p.row, i.epoch < d.leaseEpoch :=
    fun i hi => h.beyond hfree hleases hcontinues hi
  obtain rfl := hleases.position
  have hpositive : 1 ≤ d.leaseEpoch := by
    rw [hleases.epoch]
    simp only [saturatingAdd, u64Max]
    omega
  refine ⟨fun k => ?_, fun k i hi => ?_, fun k hk => ?_, fun k e he => ?_⟩
  · rw [issuedAfter_leased]
    split_ifs with hk
    · subst hk
      refine List.pairwise_append.mpr ⟨h.increasing _, List.pairwise_singleton _ _, ?_⟩
      intro i hi j hj
      rw [List.mem_singleton.mp hj]
      exact hbeyond i hi
    · exact h.increasing k
  · rw [issuedAfter_leased] at hi
    split_ifs at hi with hk
    · rcases List.mem_append.mp hi with hi | hi
      · exact h.timed k i hi
      · rw [List.mem_singleton.mp hi]
        exact ⟨hpositive, hleases.timed⟩
    · exact h.timed k i hi
  · rw [issuedAfter_leased] at hk
    split_ifs at hk with hrow
    · exact ⟨d.position, hp, hrow⟩
    · exact h.indexed k hk
  · rw [put_get] at he
    rw [issuedAfter_leased]
    split_ifs at he with hk
    · obtain rfl := Option.some.inj he
      rw [if_pos hk.symm]
      subst hk
      refine Or.inr ⟨fun i hi => ?_, _, List.mem_append_right _ (List.mem_singleton_self _), rfl,
        Or.inl rfl⟩
      rcases List.mem_append.mp hi with hi | hi
      · exact (hbeyond i hi).le
      · rw [List.mem_singleton.mp hi]
    · rw [if_neg (Ne.symm hk)]
      exact h.rows k e he

end

/-- **Every move keeps the leases fenced**, if a lease it issues continues its row. -/
theorem fenced_move (m : Machine.Move consumer clock v es v') (hes : ∀ e ∈ es, Continues issued e)
    (h : Fenced issued v) : Fenced (issuedAfter issued es) v' := by
  have hquiet : ∀ {fs : List Event}, (∀ previous d, Event.leased previous d ∉ fs) →
      Fenced issued v' → Fenced (issuedAfter issued fs) v' := by
    intro fs hfs h'
    rw [issuedAfter_of_not_leased hfs]
    exact h'
  cases m with
  | grow index kept later injective =>
    refine hquiet (fun _ _ => List.not_mem_nil) ⟨h.increasing, h.timed, fun k hk => ?_, h.rows⟩
    obtain ⟨p, hp, hrow⟩ := h.indexed k hk
    exact ⟨p, kept hp, hrow⟩
  | zero d row held counted =>
    exact hquiet (fun _ _ => List.not_mem_nil) (h.rewrite (e := { d with leaseUntilMs := 0 }) _
      v.resolvedThrough row rfl (Or.inr rfl) id)
  | lease p d steady indexed ahead filled free room leases =>
    exact h.lease _ indexed free leases (hes _ (List.mem_singleton_self _))
  | deadLetter d nowMs steady row free exhausted =>
    refine hquiet (by simp) (h.rewrite (e := { d with deadLetteredAtMs := some nowMs })
      v.inflight v.resolvedThrough row rfl (Or.inl rfl) fun hresolved => ?_)
    exact absurd (free.1.symm.trans hresolved) (by simp)
  | ack d nowMs time steady row unresolved valid ahead clear counted =>
    refine hquiet (by simp) (h.rewrite (e := { d with deliveredAtMs := some nowMs }) _ _ row rfl
      (Or.inl rfl) fun hresolved => ?_)
    exact absurd (unresolved.symm.trans hresolved) (by simp)
  | reject d nowMs time steady row unresolved valid counted =>
    refine hquiet (by simp) (h.rewrite (e := rejected d nowMs) _ v.resolvedThrough row rfl
      (Or.inr rfl) fun hresolved => ?_)
    exact absurd (unresolved.symm.trans hresolved) (by simp)
  | supersede p nowMs steady indexed ahead clear free =>
    refine hquiet (by simp) ⟨h.increasing, h.timed, h.indexed, fun k e he => ?_⟩
    rw [put_get] at he
    split_ifs at he with hk
    · rw [← Option.some.inj he]
      exact Or.inl ⟨rfl, rfl⟩
    · exact h.rows k e he
  | extend p steady indexed ahead clear resolved =>
    exact hquiet (fun _ _ => List.not_mem_nil) ⟨h.increasing, h.timed, h.indexed, h.rows⟩
  | prune rows steady gone =>
    exact hquiet (fun _ _ => List.not_mem_nil) ⟨h.increasing, h.timed, h.indexed,
      fun k d hd => h.rows k d (row_of_gone (gone k) hd)⟩
  | notePrune cursor complete position boundary =>
    exact hquiet (fun _ _ => List.not_mem_nil) ⟨h.increasing, h.timed, h.indexed, h.rows⟩
  | rewind target predecessor steady indexed splits =>
    exact hquiet (by simp) ⟨h.increasing, h.timed, h.indexed, h.rows⟩
  | sweep cursor rows next walking indexed ahead gone kept =>
    exact hquiet (fun _ _ => List.not_mem_nil) ⟨h.increasing, h.timed, h.indexed,
      fun k d hd => h.rows k d (row_of_gone (kept k) hd)⟩
  | finishSweep cursor rows walking gone kept =>
    exact hquiet (fun _ _ => List.not_mem_nil) ⟨h.increasing, h.timed, h.indexed,
      fun k d hd => h.rows k d (row_of_gone (kept k) hd)⟩

/-! ### Claims of a steady consumer -/

theorem issuedAfter_ne_nil (h : issuedAfter issued es k ≠ []) :
    issued k ≠ [] ∨ ∃ previous d, Event.leased previous d ∈ es ∧ d.position.row = k := by
  by_contra hnone
  obtain ⟨hold, hnew⟩ := not_or.mp hnone
  refine h ?_
  unfold issuedAfter issuesIn
  rw [not_not.mp hold, List.nil_append, List.filterMap_eq_nil_iff]
  intro n hn
  obtain ⟨e, he, rfl⟩ := List.mem_map.mp hn
  cases e with
  | leased previous d =>
    simp only [Event.notice, issueOf]
    rw [if_neg]
    intro hk
    exact hnew ⟨previous, d, he, hk⟩
  | settled p => rfl
  | delivered p => rfl
  | rewound start target => rfl

theorem Present.put (h : Present issued v) (n : ℕ) (r : Option OutboxPosition)
    (hahead : ∀ p, Passed v.resolvedThrough p → Passed r p) :
    Present issued { v.put d with inflight := n, resolvedThrough := r } := by
  intro p hp hopen hissued
  exact put_get_isSome (h p hp (fun hpassed => hopen (hahead p hpassed)) hissued)

/-- **A steady consumer misses no leased row** until a rewind starts. -/
theorem present_move (m : Machine.Move consumer clock v es v') (ho : Ordered consumer v)
    (hfenced : Fenced issued v) (hsteady : v.rewinding = none)
    (hes : ∀ start target, Event.rewound start target ∉ es) (h : Present issued v) :
    v'.rewinding = none ∧ Present (issuedAfter issued es) v' := by
  have hquiet : ∀ {fs : List Event}, (∀ previous d, Event.leased previous d ∉ fs) →
      Present issued v' → Present (issuedAfter issued fs) v' := by
    intro fs hfs h'
    rw [issuedAfter_of_not_leased hfs]
    exact h'
  cases m with
  | grow index kept later injective =>
    refine ⟨hsteady, hquiet (fun _ _ => List.not_mem_nil) fun p hp hopen hissued => ?_⟩
    obtain ⟨q, hq, hrow⟩ := hfenced.indexed _ hissued
    obtain rfl := injective q (kept hq) p hp hrow
    exact h q hq hopen hissued
  | zero d row held counted =>
    exact ⟨hsteady, hquiet (fun _ _ => List.not_mem_nil) (h.put _ v.resolvedThrough fun _ hp => hp)⟩
  | lease p d steady indexed ahead filled free room leases =>
    refine ⟨hsteady, fun q hq hopen hissued => ?_⟩
    rcases issuedAfter_ne_nil hissued with hold | ⟨previous, e, he, hrow⟩
    · exact put_get_isSome (h q hq hopen hold)
    · obtain ⟨rfl, rfl⟩ := Event.leased.inj (List.mem_singleton.mp he)
      rw [put_get, if_pos hrow.symm]
      rfl
  | deadLetter d nowMs steady row free exhausted =>
    exact ⟨hsteady, hquiet (by simp) (h.put v.inflight v.resolvedThrough fun _ hp => hp)⟩
  | ack d nowMs time steady row unresolved valid ahead clear counted =>
    exact ⟨hsteady, hquiet (by simp) (h.put _ _ fun _ hp => hp.extend ahead)⟩
  | reject d nowMs time steady row unresolved valid counted =>
    exact ⟨hsteady, hquiet (by simp) (h.put _ v.resolvedThrough fun _ hp => hp)⟩
  | supersede p nowMs steady indexed ahead clear free =>
    exact ⟨hsteady, hquiet (by simp) (h.put v.inflight _ fun _ hp => hp.extend ahead)⟩
  | extend p steady indexed ahead clear resolved =>
    refine ⟨hsteady, hquiet (fun _ _ => List.not_mem_nil) fun q hq hopen hissued => ?_⟩
    exact h q hq (fun hpassed => hopen (hpassed.extend ahead)) hissued
  | prune rows steady gone =>
    refine ⟨hsteady, hquiet (fun _ _ => List.not_mem_nil) fun q hq hopen hissued => ?_⟩
    rcases gone q.row with hsame | ⟨-, d, hd, -, hpassed⟩
    · change (rows.get q.row).isSome = true
      rw [hsame]
      exact h q hq hopen hissued
    · obtain ⟨hrow, hin, -⟩ := ho.rows _ d hd
      rw [← ho.position_eq hq hin hrow.symm] at hpassed
      exact absurd hpassed hopen
  | notePrune cursor complete position boundary =>
    exact ⟨hsteady, hquiet (fun _ _ => List.not_mem_nil) h⟩
  | rewind target predecessor steady indexed splits =>
    exact absurd (List.mem_singleton_self _) (hes _ _)
  | sweep cursor rows next walking indexed ahead gone kept =>
    exact absurd (hsteady.symm.trans walking) (by simp)
  | finishSweep cursor rows walking gone kept => exact absurd (hsteady.symm.trans walking) (by simp)

theorem lease_previous {previous : Option OutboxDelivery}
    (m : Machine.Move consumer clock v es v') (h : Event.leased previous d ∈ es) :
    previous = v.rows.get d.position.row ∧ d.position ∈ v.index ∧
      ¬ Passed v.resolvedThrough d.position := by
  cases m with
  | lease p e steady indexed ahead filled free room leases =>
    obtain ⟨rfl, rfl⟩ := Event.leased.inj (List.mem_singleton.mp h)
    obtain rfl := leases.position
    exact ⟨rfl, indexed, ahead⟩
  | deadLetter e nowMs steady row free exhausted => cases List.mem_singleton.mp h
  | ack e nowMs time steady row unresolved valid ahead clear counted =>
    cases List.mem_singleton.mp h
  | reject e nowMs time steady row unresolved valid counted => cases List.mem_singleton.mp h
  | supersede p nowMs steady indexed ahead clear free => cases List.mem_singleton.mp h
  | rewind target predecessor steady indexed splits => cases List.mem_singleton.mp h
  | _ => exact absurd h List.not_mem_nil

theorem Present.continues (h : Present issued v) (m : Machine.Move consumer clock v es v')
    (hbound : ∀ previous d e, Event.leased previous d ∈ es → previous = some e →
      e.leaseEpoch < u64Max) : ∀ e ∈ es, Continues issued e := by
  intro e he
  cases e with
  | leased previous d =>
    obtain ⟨hprevious, hin, hahead⟩ := lease_previous m he
    refine ⟨fun hnone => ?_, fun e heq => hbound previous d e he heq⟩
    by_contra hissued
    have hsome := h d.position hin hahead hissued
    rw [← hprevious, hnone] at hsome
    cases hsome
  | settled p => trivial
  | delivered p => trivial
  | rewound start target => trivial

/-! ### Leases that are over -/

/-- A lease of a row is over: the row is gone, carries another epoch or is dead, or is unresolved and
no longer held until the lease's end. -/
def Over (t : ℕ) (k : OutboxKey) (i : Issue) (v : View) : Prop :=
  ∀ d, v.rows.get k = some d → d.leaseEpoch ≠ i.epoch ∨ d.deadLettered = true ∨
    d.resolved = false ∧ (d.leaseUntilMs ≠ i.leaseUntilMs ∨ i.leaseUntilMs ≤ t)

theorem Fenced.older (h : Fenced issued v) {j : Issue} (hi : i ∈ issued k) (hj : j ∈ issued k)
    (hlt : i.epoch < j.epoch) : Over t k i v := by
  intro d hd
  have hpositive := (h.timed k i hi).1
  rcases h.rows k d hd with ⟨hzero, -⟩ | ⟨hmax, -⟩
  · omega
  · have hle := hmax j hj
    omega

theorem Fenced.until_eq (h : Fenced issued v) (hi : i ∈ issued k) (hd : v.rows.get k = some d)
    (hepoch : d.leaseEpoch = i.epoch) : d.leaseUntilMs = i.leaseUntilMs ∨ d.leaseUntilMs = 0 := by
  rcases h.rows k d hd with ⟨hzero, -⟩ | ⟨-, j, hj, hsame, huntil⟩
  · have hpositive := (h.timed k i hi).1
    omega
  · have hnodup : ((issued k).map Issue.epoch).Nodup :=
      List.pairwise_map.mpr ((h.increasing k).imp fun hlt => hlt.ne)
    rw [List.inj_on_of_nodup_map hnodup hi hj (hepoch.symm.trans hsame.symm)]
    exact huntil

theorem Over.put (h : Over t k i v) (n : ℕ) (r : Option OutboxPosition)
    (hnew : e.position.row = k → e.leaseEpoch ≠ i.epoch ∨ e.deadLettered = true ∨
      e.resolved = false ∧ (e.leaseUntilMs ≠ i.leaseUntilMs ∨ i.leaseUntilMs ≤ t)) :
    Over t k i { v.put e with inflight := n, resolvedThrough := r } := by
  intro d hd
  rw [put_get] at hd
  split_ifs at hd with hk
  · rw [← Option.some.inj hd]
    exact hnew hk.symm
  · exact h d hd

/-- **A lease that is over stays over.** -/
theorem over_move (m : Machine.Move consumer clock v es v') (hes : ∀ e ∈ es, Continues issued e)
    (hfenced : Fenced issued v) (hi : i ∈ issued k) (ht : t ≤ clock) (h : Over t k i v) :
    Over t k i v' := by
  obtain ⟨hpositive, htimed⟩ := hfenced.timed k i hi
  cases m with
  | grow index kept later injective => exact h
  | zero d row held counted =>
    refine h.put (e := { d with leaseUntilMs := 0 }) _ v.resolvedThrough fun _ => ?_
    simp only [OutboxDelivery.held, Bool.and_eq_true, Bool.not_eq_true'] at held
    exact Or.inr (Or.inr ⟨held.1, Or.inl (Ne.symm htimed)⟩)
  | lease p d steady indexed ahead filled free room leases =>
    refine h.put _ v.resolvedThrough fun hk => Or.inl ?_
    rw [leases.position] at hk
    exact (hfenced.beyond free leases (hes _ (List.mem_singleton_self _)) (hk ▸ hi)).ne'
  | deadLetter d nowMs steady row free exhausted =>
    exact h.put (e := { d with deadLetteredAtMs := some nowMs }) v.inflight v.resolvedThrough
      fun _ => Or.inr (Or.inl rfl)
  | ack d nowMs time steady row unresolved valid ahead clear counted =>
    refine h.put (e := { d with deliveredAtMs := some nowMs }) _ _ fun hk => ?_
    -- an acknowledgement presents a lease that is held: another epoch than one that is over
    have hd : v.rows.get k = some d := hk ▸ row
    rcases h d hd with hother | hdead | ⟨-, hended⟩
    · exact Or.inl hother
    · exact Or.inr (Or.inl hdead)
    · refine Or.inl fun hsame => ?_
      have huntil := hfenced.until_eq hi hd hsame
      omega
  | reject d nowMs time steady row unresolved valid counted =>
    exact h.put (e := rejected d nowMs) _ v.resolvedThrough fun _ => Or.inr (Or.inl rfl)
  | supersede p nowMs steady indexed ahead clear free =>
    refine h.put (e := superseded consumer p nowMs) v.inflight _ fun _ => Or.inl ?_
    change 0 ≠ i.epoch
    omega
  | extend p steady indexed ahead clear resolved => exact h
  | prune rows steady gone => exact fun d hd => h d (row_of_gone (gone k) hd)
  | notePrune cursor complete position boundary => exact h
  | rewind target predecessor steady indexed splits => exact h
  | sweep cursor rows next walking indexed ahead gone kept =>
    exact fun d hd => h d (row_of_gone (kept k) hd)
  | finishSweep cursor rows walking gone kept => exact fun d hd => h d (row_of_gone (kept k) hd)

/-! ### Sequences of moves -/

theorem mem_issuedAfter (hi : i ∈ issued k) : i ∈ issuedAfter issued es k :=
  List.mem_append_left _ hi

/-- What a sequence of moves keeps, when every lease it issues continues its row. -/
structure Keeps (issued : OutboxKey → List Issue) (clock : ℕ) (v : View) (es : List Event)
    (v' : View) : Prop where
  fenced : Fenced (issuedAfter issued es) v'
  stays : ∀ k i t, i ∈ issued k → t ≤ clock → Over t k i v → Over t k i v'

/-- **A sequence of moves that issues no lease.** -/
theorem keeps_of_quiet (s : Steps consumer clock v es v') (h : Fenced issued v)
    (hes : ∀ previous d, Event.leased previous d ∉ es) : Keeps issued clock v es v' := by
  induction s with
  | refl => exact ⟨by rw [issuedAfter_of_not_leased hes]; exact h, fun _ _ _ _ _ hover => hover⟩
  | @tail _ _ gs fs _ last ih =>
    obtain ⟨hfenced, hover⟩ := ih fun previous d he => hes previous d (List.mem_append_left _ he)
    have hcontinues : ∀ e ∈ fs, Continues (issuedAfter issued gs) e := by
      intro e he
      cases e with
      | leased previous d => exact absurd (List.mem_append_right _ he) (hes previous d)
      | settled p => trivial
      | delivered p => trivial
      | rewound start target => trivial
    refine ⟨?_, fun k i t hi ht h0 => ?_⟩
    · rw [← issuedAfter_append]
      exact fenced_move last hcontinues hfenced
    · exact over_move last hcontinues hfenced (mem_issuedAfter hi) ht (hover k i t hi ht h0)

/-- **A sequence of moves of a steady consumer that misses no leased row.** -/
theorem keeps_of_present (s : Steps consumer clock v es v') (ho : Ordered consumer v)
    (h : Fenced issued v) (hsteady : v.rewinding = none) (hpresent : Present issued v)
    (hrewound : ∀ start target, Event.rewound start target ∉ es)
    (hbound : ∀ previous d e, Event.leased previous d ∈ es → previous = some e →
      e.leaseEpoch < u64Max) : Keeps issued clock v es v' := by
  have hall : Keeps issued clock v es v' ∧ Ordered consumer v' ∧ v'.rewinding = none ∧
      Present (issuedAfter issued es) v' := by
    induction s with
    | refl =>
      have hsame : issuedAfter issued [] = issued := issuedAfter_of_not_leased fun _ _ => by simp
      rw [hsame]
      exact ⟨⟨by rw [hsame]; exact h, fun _ _ _ _ _ hover => hover⟩, ho, hsteady, hpresent⟩
    | tail _ last ih =>
      obtain ⟨⟨hfenced, hover⟩, ho', hsteady', hpresent'⟩ := ih
        (fun start target he => hrewound start target (List.mem_append_left _ he))
        (fun previous d e he => hbound previous d e (List.mem_append_left _ he))
      have hcontinues := hpresent'.continues last
        fun previous d e he => hbound previous d e (List.mem_append_right _ he)
      have hnext := present_move last ho' hfenced hsteady'
        (fun start target he => hrewound start target (List.mem_append_right _ he)) hpresent'
      rw [issuedAfter_append] at hnext
      refine ⟨⟨?_, fun k i t hi ht h0 => ?_⟩, ordered_move last ho', hnext⟩
      · rw [← issuedAfter_append]
        exact fenced_move last hcontinues hfenced
      · exact over_move last hcontinues hfenced (mem_issuedAfter hi) ht (hover k i t hi ht h0)
  exact hall.1

end

/-! ### Runs -/

def leasesOf (owner : OwnedStoreHandle) (l : Ledger) : KernelCall → List MutationOutboxLease
  | .claim consumer budget =>
    match Outbox.Claim.claim owner.identity consumer budget l with
    | .ok (outcome, _, _) => outcome.claims
    | .error _ => []
  | _ => []

structure History where
  ledger : Ledger
  issued : List MutationOutboxLease

def History.call (owner : OwnedStoreHandle) (s : History) (c : KernelCall) : History :=
  ⟨step owner s.ledger c, s.issued ++ leasesOf owner s.ledger c⟩

def history (owner : OwnedStoreHandle) (version : ℕ) (calls : List KernelCall) : History :=
  run (History.call owner) ⟨Ledger.bound version, []⟩ calls

def rowsKept (s : History) (consumer : String) : Bool :=
  (s.ledger.consumers.get consumer).all fun topic =>
    (positionsAfter s.ledger topic (resolvedThroughOf s.ledger consumer)).all fun p =>
      match deliveryAt s.ledger consumer p with
      | some d => d.leaseEpoch < u64Max
      | none => s.issued.all fun a => a.consumer ≠ consumer || leaseKey a ≠ p.row

/-- A claim finds the delivery rows of what its consumer was leased before. -/
def ClaimsKept (s : History) : KernelCall → Prop
  | .claim consumer _ => rowsKept s consumer = true
  | _ => True

def issuesOf (leases : List MutationOutboxLease) (consumer : String) (k : OutboxKey) : List Issue :=
  leases.filterMap fun a =>
    if a.consumer = consumer ∧ leaseKey a = k then some ⟨a.leaseEpoch, a.leaseUntilMs⟩ else none

/-- A call after which a lease has ended: it was given back, it ran out before its event was
resolved, or its row was swept. -/
def Ends (owner : OwnedStoreHandle) (a : MutationOutboxLease) (l : Ledger) (c : KernelCall) : Prop :=
  (c = .release a ∧ ∃ l', release owner.identity a l = .ok l') ∨
  (∃ nowMs ∈ kernelTimes c, a.leaseUntilMs ≤ nowMs ∧
    ∀ d, (step owner l c).deliveries.get ⟨a.consumer, leaseKey a⟩ = some d → d.resolved = false) ∨
  (step owner l c).deliveries.get ⟨a.consumer, leaseKey a⟩ = none

section
variable {owner : OwnedStoreHandle} {l l' : Ledger} {s : History} {consumer : String} {clock : ℕ}
  {a b : MutationOutboxLease} {c : KernelCall}

theorem mem_issuesOf (h : a ∈ leases) :
    ⟨a.leaseEpoch, a.leaseUntilMs⟩ ∈ issuesOf leases a.consumer (leaseKey a) :=
  List.mem_filterMap.mpr ⟨a, h, by simp⟩

theorem issuesOf_append (as bs : List MutationOutboxLease) (consumer : String) (k : OutboxKey) :
    issuesOf (as ++ bs) consumer k = issuesOf as consumer k ++ issuesOf bs consumer k :=
  List.filterMap_append

theorem issuesIn_settled (ps : List OutboxPosition) (k : OutboxKey) :
    issuesIn (ps.map .settled) k = [] := by
  unfold issuesIn
  rw [List.filterMap_eq_nil_iff]
  intro n hn
  obtain ⟨p, -, rfl⟩ := List.mem_map.mp hn
  rfl

theorem issuesIn_leases (h : ∀ a ∈ leases, a.consumer = consumer) (k : OutboxKey) :
    issuesIn (leases.map leaseNotice) k = issuesOf leases consumer k := by
  unfold issuesIn issuesOf
  rw [List.filterMap_map]
  refine List.filterMap_congr fun a ha => ?_
  simp [leaseNotice, issueOf, h a ha]

theorem issuesOf_elsewhere {other : String} (h : ∀ a ∈ leases, a.consumer = other)
    (hne : other ≠ consumer) (k : OutboxKey) : issuesOf leases consumer k = [] := by
  unfold issuesOf
  rw [List.filterMap_eq_nil_iff]
  intro a ha
  rw [if_neg]
  rintro ⟨hc, -⟩
  exact hne ((h a ha).symm.trans hc)

theorem issuesIn_of_not_leased {ns : List Notice} {k : OutboxKey}
    (h : ∀ n ∈ ns, issueOf k n = none) : issuesIn ns k = [] :=
  List.filterMap_eq_nil_iff.mpr h

/-- **The leases a consumer sees are the leases handed out to it.** -/
theorem issuesIn_noticesOf (hsound : Sound l) (k : OutboxKey) :
    issuesIn (noticesOf owner consumer l c) k = issuesOf (leasesOf owner l c) consumer k := by
  by_cases hclaim : ∃ other budget, c = .claim other budget
  · obtain ⟨other, budget, rfl⟩ := hclaim
    simp only [noticesOf, noticesOfClaim, leasesOf]
    cases h : Outbox.Claim.claim owner.identity other budget l with
    | error e =>
      rw [ite_self]
      rfl
    | ok r =>
      obtain ⟨outcome, budget', l'⟩ := r
      obtain ⟨es, hclaims⟩ : ∃ es, Claims other 0 budget.nowMs outcome es l l' :=
        claim_claims (hsound.indexed.indexOf_injective other) (hsound.ordered other).gap h
      by_cases heq : other = consumer
      · subst heq
        rw [if_pos rfl]
        simp only [issuesIn, List.filterMap_append]
        rw [← issuesIn, ← issuesIn, issuesIn_settled, issuesIn_leases hclaims.owners, List.nil_append]
      · rw [if_neg heq, issuesOf_elsewhere hclaims.owners heq]
        rfl
  · have hleases : leasesOf owner l c = [] := by
      cases c with
      | claim other budget => exact absurd ⟨other, budget, rfl⟩ hclaim
      | _ => rfl
    rw [hleases]
    refine issuesIn_of_not_leased fun n hn => ?_
    rcases call_of_notice hn with ⟨p, rfl⟩ | ⟨budget, lease, hc, -⟩ | ⟨target, nowMs, -, rfl, -⟩
    · rfl
    · exact absurd ⟨consumer, budget, hc⟩ hclaim
    · rfl

theorem rowsKept_ok (h : rowsKept s consumer = true) (hp : p ∈ indexOf s.ledger consumer)
    (hopen : ¬ Passed (view s.ledger consumer).resolvedThrough p) :
    (∀ d, deliveryAt s.ledger consumer p = some d → d.leaseEpoch < u64Max) ∧
      (deliveryAt s.ledger consumer p = none → issuesOf s.issued consumer p.row = []) := by
  obtain ⟨topic, htopic, hexists⟩ := hp
  unfold rowsKept at h
  rw [htopic, Option.all_some, List.all_eq_true] at h
  have hrow := h p (mem_positionsAfter.mpr ⟨hexists, hopen⟩)
  cases hd : deliveryAt s.ledger consumer p with
  | some d =>
    simp only [hd, decide_eq_true_eq] at hrow
    refine ⟨fun e he => ?_, fun hnone => (by cases hnone)⟩
    rw [← Option.some.inj he]
    exact hrow
  | none =>
    simp only [hd, List.all_eq_true, Bool.or_eq_true, decide_eq_true_eq] at hrow
    refine ⟨fun e he => (by cases he), fun _ => List.filterMap_eq_nil_iff.mpr fun a ha => ?_⟩
    rw [if_neg]
    rintro ⟨hconsumer, hkey⟩
    rcases hrow a ha with hne | hne
    · exact hne hconsumer
    · exact hne hkey

/-- **One call keeps the leases of every consumer fenced**, if a claim finds the rows of what its
consumer was leased before. -/
theorem call_keeps (hsound : Sound s.ledger)
    (hfenced : Fenced (issuesOf s.issued consumer) (view s.ledger consumer))
    (hc : kernelPurges c = false ∧ ClaimsKept s c) (htimes : ∀ t ∈ kernelTimes c, clock ≤ t) :
    Fenced (issuesOf (s.call owner c).issued consumer) (view (s.call owner c).ledger consumer) ∧
      ∀ k i t, i ∈ issuesOf s.issued consumer k → t ≤ clock →
        Over t k i (view s.ledger consumer) → Over t k i (view (s.call owner c).ledger consumer) := by
  obtain ⟨es, hserves⟩ : ∃ es, Serves consumer clock (noticesOf owner consumer s.ledger c) es
      s.ledger (step owner s.ledger c) := hsound.serves hc.1 htimes
  have hissued : issuedAfter (issuesOf s.issued consumer) es =
      issuesOf (s.call owner c).issued consumer := by
    funext k
    rw [issuedAfter, hserves.notices, issuesIn_noticesOf hsound, ← issuesOf_append]
    rfl
  have hnotice : ∀ e ∈ es, e.notice ∈ noticesOf owner consumer s.ledger c := by
    intro e he
    rw [← hserves.notices]
    exact List.mem_map_of_mem he
  have hkeeps : Keeps (issuesOf s.issued consumer) clock (view s.ledger consumer) es
      (view (step owner s.ledger c) consumer) := by
    by_cases hleased : ∃ previous d, Event.leased previous d ∈ es
    · -- the call is a claim of this consumer, and it was steady
      obtain ⟨previous, d, hd⟩ := hleased
      obtain ⟨hsteady, -⟩ := hserves.leases previous d hd
      obtain ⟨budget, rfl⟩ : ∃ budget, c = .claim consumer budget := by
        rcases call_of_notice (hnotice _ hd) with ⟨p, hp⟩ | ⟨budget, lease, hc, -⟩ |
          ⟨target, nowMs, -, ht, -⟩
        · cases hp
        · exact ⟨budget, hc⟩
        · cases ht
      have hkept : rowsKept s consumer = true := hc.2
      refine keeps_of_present hserves.steps (hsound.ordered consumer) hfenced hsteady ?_ ?_ ?_
      · intro p hp hopen hissued
        rw [view_get, ← Option.ne_none_iff_isSome]
        exact fun hnone => hissued ((rowsKept_ok hkept hp hopen).2 hnone)
      · intro start target he
        obtain ⟨-, t, nowMs, hrewind, -⟩ := rewind_of_serves hserves he
        cases hrewind
      · intro previous d e he heq
        obtain ⟨-, hin, hahead, hprevious⟩ := hserves.leases previous d he
        rw [heq] at hprevious
        obtain ⟨f, hf, hepoch⟩ := Option.map_eq_some_iff.mp hprevious.symm
        rw [← hepoch]
        exact (rowsKept_ok hkept hin hahead).1 f hf
    · exact keeps_of_quiet hserves.steps hfenced fun previous d he => hleased ⟨previous, d, he⟩
  rw [← hissued]
  exact ⟨hkeeps.fenced, hkeeps.stays⟩

structure FencedHistory (s : History) : Prop where
  sound : Sound s.ledger
  fenced : ∀ consumer, Fenced (issuesOf s.issued consumer) (view s.ledger consumer)

theorem fencedHistory_bound (version : ℕ) : FencedHistory ⟨Ledger.bound version, []⟩ := by
  refine ⟨sound_bound version, fun consumer => ⟨fun _ => List.Pairwise.nil,
    fun _ _ hi => absurd hi List.not_mem_nil, fun _ hne => absurd rfl hne, fun k d hd => ?_⟩⟩
  cases hd

theorem FencedHistory.call (h : FencedHistory s) (hc : kernelPurges c = false ∧ ClaimsKept s c) :
    FencedHistory (s.call owner c) := by
  have hclock : ∀ t ∈ kernelTimes c, 0 ≤ t := fun _ _ => Nat.zero_le _
  exact ⟨h.sound.after hc.1, fun consumer => (call_keeps h.sound (h.fenced consumer) hc hclock).1⟩

theorem mem_issued_call (h : a ∈ s.issued) : a ∈ (s.call owner c).issued := List.mem_append_left _ h

theorem ledger_run : ∀ (calls : List KernelCall) (s : History),
      (run (History.call owner) s calls).ledger = runKernel owner s.ledger calls
  | [], _ => rfl
  | _ :: cs, _ => ledger_run cs _

/-- **A lease that is over stays over** through the rest of a run on a clock that does not go back. -/
theorem over_run {t : ℕ} : ∀ (calls : List KernelCall) (s : History), FencedHistory s →
      Along (History.call owner) (fun s c => kernelPurges c = false ∧ ClaimsKept s c) s calls →
      (∀ u ∈ calls.flatMap kernelTimes, t ≤ u) → a ∈ s.issued →
      Over t (leaseKey a) ⟨a.leaseEpoch, a.leaseUntilMs⟩ (view s.ledger a.consumer) →
      Over t (leaseKey a) ⟨a.leaseEpoch, a.leaseUntilMs⟩
        (view (runKernel owner s.ledger calls) a.consumer)
  | [], _, _, _, _, _, hover => hover
  | c :: cs, s, h, ⟨hc, hcs⟩, htimes, ha, hover => by
    have hnow : ∀ u ∈ kernelTimes c, t ≤ u := fun u hu =>
      htimes u (List.mem_flatMap.mpr ⟨c, .head _, hu⟩)
    have hnext : Over t (leaseKey a) ⟨a.leaseEpoch, a.leaseUntilMs⟩
        (view (s.call owner c).ledger a.consumer) :=
      (call_keeps h.sound (h.fenced a.consumer) hc hnow).2 _ _ t (mem_issuesOf ha) le_rfl hover
    refine over_run cs (s.call owner c) (h.call hc) hcs (fun u hu => htimes u ?_)
      (mem_issued_call ha) hnext
    exact List.mem_append_right _ hu

/-- **A lease that is over is refused.** -/
theorem refused_of_over {nowMs t : ℕ} (ht : t ≤ nowMs)
    (h : Over t (leaseKey a) ⟨a.leaseEpoch, a.leaseUntilMs⟩ (view l a.consumer)) :
    (∃ e, Outbox.Cursor.ack owner.identity a nowMs l = .error e) ∧
      ∃ e, Outbox.Cursor.reject owner.identity a nowMs l = .error e := by
  have hrefused : ∀ {d : OutboxDelivery} {current r : Option MutationProjectionCursor},
      Named a l d → resolveDelivered d a current nowMs ≠ .ok r := by
    intro d current r hnamed hresolve
    have hrow := hnamed.get
    rw [hnamed.key] at hrow
    obtain ⟨-, hepoch, hdead, hstate⟩ := resolveDelivered_ok hresolve
    rcases h d hrow with hother | hgone | ⟨hopen, hended⟩
    · exact hother hepoch
    · exact absurd (hdead.symm.trans hgone) (by simp)
    · rcases hstate with ⟨hdelivered, -⟩ | ⟨-, -, hlive, hsame⟩
      · simp [OutboxDelivery.resolved, hdelivered] at hopen
      · rcases hended with hne | hran
        · exact hne hsame
        · simp only at hran
          omega
  constructor
  · cases hack : Outbox.Cursor.ack owner.identity a nowMs l with
    | error e => exact ⟨e, rfl⟩
    | ok r =>
      unfold Outbox.Cursor.ack prepareAck at hack
      simp only [bind_eq_ok] at hack
      obtain ⟨_, ⟨d, hop, _, -, current, -, r, hresolve, -⟩, -⟩ := hack
      exact absurd hresolve (hrefused (prepareDeliveryOp_ok hop).1)
  · cases hreject : Outbox.Cursor.reject owner.identity a nowMs l with
    | error e => exact ⟨e, rfl⟩
    | ok l' =>
      unfold Outbox.Cursor.reject prepareReject at hreject
      simp only [bind_eq_ok] at hreject
      obtain ⟨_, ⟨d, hop, _, -, current, -, r, hresolve, -⟩, -⟩ := hreject
      exact absurd hresolve (hrefused (prepareDeliveryOp_ok hop).1)

theorem over_of_ends (hfenced : Fenced (issuesOf s.issued a.consumer) (view s.ledger a.consumer))
    (ha : a ∈ s.issued) (h : Ends owner a s.ledger c) :
    ∃ t, (t = 0 ∨ t ∈ kernelTimes c) ∧ Over t (leaseKey a) ⟨a.leaseEpoch, a.leaseUntilMs⟩
      (view (step owner s.ledger c) a.consumer) := by
  have htimed := (hfenced.timed _ _ (mem_issuesOf ha)).2
  rcases h with ⟨rfl, l', hrelease⟩ | ⟨nowMs, hnow, hran, hopen⟩ | hgone
  · refine ⟨0, Or.inl rfl, fun d hd => Or.inr (Or.inr ?_)⟩
    obtain ⟨hunresolved, hzero⟩ := release_row hrelease d (by
      simpa only [step, hrelease, settleLedger, view, deliveriesOf_get] using hd)
    exact ⟨hunresolved, Or.inl fun heq => htimed (by simpa [hzero] using heq.symm)⟩
  · refine ⟨nowMs, Or.inr hnow, fun d hd => Or.inr (Or.inr ⟨hopen d ?_, Or.inr hran⟩)⟩
    rw [← deliveriesOf_get]
    exact hd
  · refine ⟨0, Or.inl rfl, fun d hd => ?_⟩
    rw [← deliveriesOf_get] at hgone
    exact absurd (hgone.symm.trans hd) (by simp)

theorem fencedHistory_run (calls : List KernelCall) (h : FencedHistory s)
    (hcalls : Along (History.call owner) (fun s c => kernelPurges c = false ∧ ClaimsKept s c) s
      calls) : FencedHistory (run (History.call owner) s calls) :=
  run_invariant_along (fun _ _ hc h => h.call hc) calls s hcalls h

theorem issuesOf_pair (h : [a, b].Sublist leases) (hconsumer : b.consumer = a.consumer)
    (hkey : leaseKey b = leaseKey a) :
    [⟨a.leaseEpoch, a.leaseUntilMs⟩, ⟨b.leaseEpoch, b.leaseUntilMs⟩].Sublist
      (issuesOf leases a.consumer (leaseKey a)) := by
  have hpair := h.filterMap fun x => if x.consumer = a.consumer ∧ leaseKey x = leaseKey a then
    some (⟨x.leaseEpoch, x.leaseUntilMs⟩ : Issue) else none
  unfold issuesOf
  simpa [hconsumer, hkey] using hpair

end

/-- **Leases are fenced**, in every run without a purge on a clock that does not go back, in which every
claim finds the delivery rows of what its consumer was leased before: once a newer lease was issued or a
call has ended the lease, whoever presents it is refused and changes nothing. -/
theorem older_lease_is_refused (owner : OwnedStoreHandle) (version : ℕ) (calls : List KernelCall)
    (a : MutationOutboxLease) (nowMs : ℕ)
    (hcalls : Along (History.call owner) (fun s c => kernelPurges c = false ∧ ClaimsKept s c)
      ⟨Ledger.bound version, []⟩ calls)
    (hclock : (calls.flatMap kernelTimes).Pairwise (· ≤ ·))
    (hnow : ∀ t ∈ calls.flatMap kernelTimes, t ≤ nowMs)
    (hended : (∃ b, [a, b].Sublist (history owner version calls).issued ∧
        b.consumer = a.consumer ∧ leaseKey b = leaseKey a) ∨
      ∃ before c after, calls = before ++ c :: after ∧ a ∈ (history owner version before).issued ∧
        Ends owner a (runKernel owner (Ledger.bound version) before) c) :
    (∃ e, Outbox.Cursor.ack owner.identity a nowMs
        (runKernel owner (Ledger.bound version) calls) = .error e) ∧
      (∃ e, Outbox.Cursor.reject owner.identity a nowMs
        (runKernel owner (Ledger.bound version) calls) = .error e) ∧
      step owner (runKernel owner (Ledger.bound version) calls) (.ack a nowMs) =
        runKernel owner (Ledger.bound version) calls ∧
      step owner (runKernel owner (Ledger.bound version) calls) (.reject a nowMs) =
        runKernel owner (Ledger.bound version) calls := by
  have hstart := fencedHistory_bound version
  obtain ⟨t, ht, hover⟩ : ∃ t, t ≤ nowMs ∧ Over t (leaseKey a) ⟨a.leaseEpoch, a.leaseUntilMs⟩
      (view (runKernel owner (Ledger.bound version) calls) a.consumer) := by
    rcases hended with ⟨b, hpair, hconsumer, hkey⟩ | ⟨before, c, after, rfl, ha, hends⟩
    · have hend : FencedHistory (history owner version calls) :=
        fencedHistory_run calls hstart hcalls
      have hissues := issuesOf_pair hpair hconsumer hkey
      have hfenced := hend.fenced a.consumer
      have hlt := List.pairwise_cons.mp ((hfenced.increasing (leaseKey a)).sublist hissues)
      refine ⟨nowMs, le_rfl, ?_⟩
      have hledger : (history owner version calls).ledger =
          runKernel owner (Ledger.bound version) calls := ledger_run calls _
      rw [← hledger]
      exact hfenced.older (hissues.subset (.head _))
        (hissues.subset (.tail _ (.head _)))
        (hlt.1 _ (.head _))
    · obtain ⟨hbefore, hc, hafter⟩ := (along_append before (c :: after) _).mp hcalls
      have hmid : FencedHistory (history owner version before) :=
        fencedHistory_run before hstart hbefore
      have hledger : (history owner version before).ledger =
          runKernel owner (Ledger.bound version) before := ledger_run before _
      rw [← hledger] at hends
      obtain ⟨t, ht, hover⟩ := over_of_ends (hmid.fenced a.consumer) ha hends
      rw [List.flatMap_append] at hclock hnow
      have hlater : ∀ u ∈ after.flatMap kernelTimes, t ≤ u := by
        intro u hu
        rcases ht with rfl | ht
        · exact Nat.zero_le u
        · have hright := (List.pairwise_append.mp hclock).2.1
          exact (List.pairwise_append.mp hright).2.2 t ht u hu
      refine ⟨t, ?_, ?_⟩
      · rcases ht with rfl | ht
        · exact Nat.zero_le _
        · exact hnow t (List.mem_append_right _ (List.mem_append_left _ ht))
      · have hend := over_run after ((history owner version before).call owner c) (hmid.call hc)
          hafter hlater (mem_issued_call ha) hover
        have hrun : runKernel owner (Ledger.bound version) (before ++ c :: after) =
            runKernel owner ((history owner version before).call owner c).ledger after := by
          simp only [runKernel, run_append, run_cons, History.call, hledger]
        rw [hrun]
        exact hend
  obtain ⟨⟨e, hack⟩, f, hreject⟩ : (∃ e, Outbox.Cursor.ack owner.identity a nowMs _ = .error e) ∧
        ∃ e, Outbox.Cursor.reject owner.identity a nowMs _ = .error e := refused_of_over ht hover
  refine ⟨⟨e, hack⟩, ⟨f, hreject⟩, ?_, ?_⟩
  · simp only [step, hack, settle]
  · simp only [step, hreject, settleLedger]

/-- The reader gives its first lease back and claims again. -/
def returnedRun : List KernelCall :=
  leasedRun ++ [.release sampleLease, .claim "reader" (sampleBudget 1)]

/-- The reader is rewound to the start and claims again at the same clock reading. -/
def reclaimedRun : List KernelCall :=
  leasedRun ++ [.rewind "reader" .start 0, .rewind "reader" .start 0,
    .claim "reader" (sampleBudget 0)]

theorem older_lease_is_refused_sample :
    Along (History.call sampleOwner) (fun s c => kernelPurges c = false ∧ ClaimsKept s c)
        ⟨Ledger.bound 0, []⟩ returnedRun ∧
      ∃ e, Outbox.Cursor.ack sampleOwner.identity sampleLease 1
        (runKernel sampleOwner (Ledger.bound 0) returnedRun) = .error e := by
  have hcalls : Along (History.call sampleOwner)
      (fun s c => kernelPurges c = false ∧ ClaimsKept s c) ⟨Ledger.bound 0, []⟩ returnedRun := by
    refine ⟨⟨rfl, trivial⟩, ⟨rfl, trivial⟩, ⟨rfl, ?_⟩, ⟨rfl, trivial⟩, ⟨rfl, ?_⟩, trivial⟩
    · show rowsKept _ _ = true
      decide +kernel
    · show rowsKept _ _ = true
      decide +kernel
  refine ⟨hcalls, (older_lease_is_refused sampleOwner 0 _ sampleLease 1 hcalls (by decide)
    (by decide) (Or.inl ?_)).1⟩
  exact ⟨{ sampleLease with leaseEpoch := 2, leaseUntilMs := 101, attempt := 2 }, by decide +kernel⟩

/-- The lease of the first event that a reader is issued at 5 ms once it was rewound. -/
def renewedLease : MutationOutboxLease := { sampleLease with leaseUntilMs := 105 }

/-- The reader is rewound to the start, claims again later and acknowledges the newer lease. -/
def renewedRun : List KernelCall :=
  leasedRun ++ [.rewind "reader" .start 0, .rewind "reader" .start 0,
    .claim "reader" (sampleBudget 5), .ack renewedLease 6]

/-- A rewind forgets the epoch of a row: a claim at the same clock reading issues the older lease again,
and after a later one the newer lease has the epoch of the older one. -/
theorem older_lease_acknowledged_after_rewind : ((∀ c ∈ reclaimedRun, kernelPurges c = false) ∧
      (reclaimedRun.flatMap kernelTimes).Pairwise (· ≤ ·) ∧
      [sampleLease, sampleLease].Sublist (history sampleOwner 0 reclaimedRun).issued ∧
      (Outbox.Cursor.ack sampleOwner.identity sampleLease 1
        (runKernel sampleOwner (Ledger.bound 0) reclaimedRun)).isOk = true) ∧
    (∀ c ∈ renewedRun, kernelPurges c = false) ∧ (renewedRun.flatMap kernelTimes).Pairwise (· ≤ ·) ∧
      [sampleLease, renewedLease].Sublist (history sampleOwner 0 renewedRun).issued ∧
      (Outbox.Cursor.ack sampleOwner.identity sampleLease 7
        (runKernel sampleOwner (Ledger.bound 0) renewedRun)).isOk = true := by
  refine ⟨⟨by decide, by decide, ?_⟩, by decide, by decide, ?_⟩
  · decide +kernel
  · decide +kernel

end Medulla.Outbox.LeaseFencing
