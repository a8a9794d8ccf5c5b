import Medulla.Placement.MoveRuns
import Medulla.Placement.Recovery

/-! # Recovery after any run

At start-up the unfinished journals are driven on one after the other.

* all listed journals: `ends_reconcileListed`;
* every run: `interrupted_moves_recover`. -/

namespace Medulla.Placement.RecoveryRuns

open Library.Checked Library.Resumption Library.Resumption.Program Library.Transaction
open Placement.Partition Catalog Moves Plans Shapes
open Coverage MoveStates MoveSteps MoveCalls
open MoveRuns Recovery

/-! ### Listed journals -/

section
variable (N : Naming)

structure Beside (k : PartitionKey) (c c' : PlacementCatalog) : Prop where
  others : ∀ l, l ≠ k → SameView l c c'
  keys : ∀ l, (c'.entries.get l).isSome = (c.entries.get l).isSome
  valid : JournalsValid N c'

structure Recoverable (listed : List PartitionMoveJournal) (c : PlacementCatalog) : Prop where
  valid : JournalsValid N c
  held : ∀ j ∈ listed, ∃ o, Held c j.key j o
  apart : ∀ j ∈ listed, Apart c j.key.tenant
  distinct : listed.Pairwise fun i j => i.key ≠ j.key

end

section
variable {N : Naming} {env : Environment} {c c' : PlacementCatalog}
  {k : PartitionKey} {j : PartitionMoveJournal} {rest : List PartitionMoveJournal}

theorem reconcileMove_beside (hv : JournalsValid N c) {o : Owner} (h : Held c k j o) :
    Beside N k c
      ((reconcileMove N env j.moveId).exec PlacementCatalog.apply c).1 := by
  have hdoes := @does_reconcileMove _ _ env _ _ _ hv (Or.inr ⟨j, o, h⟩) h.durable h.key
  refine (Program.wp_exec (I := Beside N k c) Rely.refl ?_ _ c hdoes ?_).1
  · intro s t hs hg
    exact ⟨fun l hl => (hs.others l hl).trans (hg.others l hl),
      fun l => (hg.keys l).trans (hs.keys l), hg.valid⟩
  · exact ⟨fun l _ => ⟨rfl, fun _ _ _ => Iff.rfl⟩, fun _ => rfl, hv⟩

theorem stuck_congr (h : SameView j.key c c') : StuckAtCutover c' j ↔ StuckAtCutover c j := by
  unfold StuckAtCutover
  rw [h.row]

theorem Recovered.view (h : SameView j.key c c') (hr : Recovered c j) : Recovered c' j := by
  obtain ⟨i, o, hid, hmove, hrow, hend⟩ := hr
  exact ⟨i, o, (h.journals _ i hmove.key).mpr hid, hmove, h.row.trans hrow, hend⟩

theorem Recoverable.tail (h : Recoverable N (j :: rest) c)
    (hb : Beside N j.key c c') : Recoverable N rest c' := by
  obtain ⟨hne, hdistinct⟩ := List.pairwise_cons.mp h.distinct
  refine ⟨hb.valid, fun i hi => ?_, fun i hi => ?_, hdistinct⟩
  · obtain ⟨o, hheld⟩ := h.held i (.tail _ hi)
    exact ⟨o, (hb.others i.key (Ne.symm (hne i hi))).held hheld⟩
  · exact apart_of_keys (h.apart i (.tail _ hi)) hb.keys

theorem Recoverable.standing (h : Recoverable N (j :: rest) c) :
    ∃ o, Standing N c.epochFloor c j.key j o := by
  obtain ⟨o, hheld⟩ := h.held j (.head _)
  exact ⟨o, ⟨hheld, h.valid⟩, h.apart j (.head _), le_rfl⟩

/-- **Recovering the first journal of the list.** -/
theorem ends_first
    (h : Recoverable N (j :: rest) c) (hserves : Serves env j)
    (hstuck : ¬ StuckAtCutover c j) (hroom : c.epochFloor + 1 ≤ u64Max) :
    (reconcileMove N env j.moveId).Ends PlacementCatalog.apply
      (fun _ t => Over (c.epochFloor + 1) j t ∧ Beside N j.key c t) c := by
  obtain ⟨o, hstand⟩ := h.standing
  obtain ⟨a, t, hexec, hover⟩ := ends_reconcileMove hstand hstuck hserves hroom
  have hbeside := @reconcileMove_beside _ env _ _ _ h.valid _ hstand.held
  rw [hexec] at hbeside
  exact ⟨a, t, hexec, hover, hbeside⟩

/-- **Recovery of all listed journals**, when none is stuck. -/
theorem ends_reconcileListed :
    ∀ {listed : List PartitionMoveJournal} {c : PlacementCatalog},
      Recoverable N listed c → (∀ j ∈ listed, Serves env j) →
      (∀ j ∈ listed, ¬ StuckAtCutover c j) → c.epochFloor + listed.length ≤ u64Max →
      (reconcileListed N env listed).Ends PlacementCatalog.apply
        (fun _ t => (∀ j ∈ listed, Recovered t j) ∧
          ∀ l, (∀ j ∈ listed, j.key ≠ l) → SameView l c t) c
  | [], _, _, _, _, _ =>
    ends_pure ⟨fun _ hj => (by cases hj), fun _ _ => ⟨rfl, fun _ _ _ => Iff.rfl⟩⟩
  | j :: rest, c, h, hserves, hstuck, hroom => by
    rw [List.length_cons] at hroom
    refine ends_bind (ends_first h (hserves j (.head _))
      (hstuck j (.head _)) (by omega)) ?_
    rintro report t ⟨⟨hrecovered, hfloor⟩, hbeside⟩
    obtain ⟨hne, -⟩ := List.pairwise_cons.mp h.distinct
    have hview : ∀ i ∈ rest, SameView i.key c t := fun i hi =>
      hbeside.others i.key (Ne.symm (hne i hi))
    refine ends_bind (ends_reconcileListed (h.tail hbeside)
      (fun i hi => hserves i (.tail _ hi))
      (fun i hi hs => hstuck i (.tail _ hi) ((stuck_congr (hview i hi)).mp hs))
      (by omega)) ?_
    rintro reports u ⟨hall, hframe⟩
    refine ends_pure ⟨fun i hi => ?_, fun l hl => ?_⟩
    · rcases List.mem_cons.mp hi with rfl | hi
      · exact Recovered.view (hframe i.key fun b hb => Ne.symm (hne b hb)) hrecovered
      · exact hall i hi
    · exact (hbeside.others l (Ne.symm (hl j (.head _)))).trans
        (hframe l fun i hi => hl i (.tail _ hi))

theorem fails_reconcileListed :
    ∀ {listed : List PartitionMoveJournal} {c : PlacementCatalog},
      Recoverable N listed c → (∀ j ∈ listed, Serves env j) →
      (∃ j ∈ listed, StuckAtCutover c j) → c.epochFloor + listed.length ≤ u64Max →
      (reconcileListed N env listed).Fails PlacementCatalog.apply c
  | [], _, _, _, hstuck, _ => by
    obtain ⟨j, hj, -⟩ := hstuck
    cases hj
  | j :: rest, c, h, hserves, hstuck, hroom => by
    rw [List.length_cons] at hroom
    by_cases hfirst : StuckAtCutover c j
    · obtain ⟨o, hstand⟩ := h.standing
      exact fails_bind (fails_reconcileMove hstand hfirst (hserves j (.head _)))
    · refine fails_after (ends_first h (hserves j (.head _)) hfirst (by omega)) ?_
      rintro report t ⟨⟨-, hfloor⟩, hbeside⟩
      obtain ⟨hne, -⟩ := List.pairwise_cons.mp h.distinct
      obtain ⟨i, hi, hs⟩ := hstuck
      refine fails_bind (fails_reconcileListed (h.tail hbeside)
        (fun i hi => hserves i (.tail _ hi)) ?_ (by omega))
      rcases List.mem_cons.mp hi with rfl | hi
      · exact absurd hs hfirst
      · exact ⟨i, hi, (stuck_congr (hbeside.others i.key (Ne.symm (hne i hi)))).mpr hs⟩

end

/-! ### Runs -/

def addedRow (s : Cluster) : Turn → Option PlacementEntry
  | .commit i => (s.threads[i]?).bind fun t => t.next.bind Soundness.addedEntry
  | _ => none

/-- An assign, a merge or a split adds a row only where no other row of its tenant overlaps it. -/
def AddsApart (s : Cluster) (turn : Turn) : Prop :=
  ∀ x ∈ addedRow s turn, ∀ e ∈ s.catalog.tenantEntries x.key.tenant, Meets e.key x.key →
    e.key = x.key

/-- Assigns, merges and splits leave the partitions of moves alone and overlap no row. -/
def Orderly (s : Cluster) (turn : Turn) : Prop := s.LeavesMoves turn ∧ AddsApart s turn

theorem meets_iff {a b : PartitionKey} :
    Meets a b ↔ max a.rangeStart b.rangeStart ≤ min a.rangeEnd b.rangeEnd := by
  unfold Meets
  simp only [PartitionKey.contains_iff]
  constructor
  · rintro ⟨h, ha, hb⟩
    exact le_trans (max_le ha.1 hb.1) (le_min ha.2 hb.2)
  · intro h
    exact ⟨max a.rangeStart b.rangeStart, ⟨le_max_left _ _, le_trans h (min_le_left _ _)⟩,
      le_max_right _ _, le_trans h (min_le_right _ _)⟩

instance (a b : PartitionKey) : Decidable (Meets a b) := decidable_of_iff _ meets_iff.symm

instance (s : Cluster) (turn : Turn) : Decidable (AddsApart s turn) :=
  inferInstanceAs (Decidable (∀ x ∈ addedRow s turn, ∀ e ∈ s.catalog.tenantEntries x.key.tenant,
    Meets e.key x.key → e.key = x.key))

instance (s : Cluster) (turn : Turn) : Decidable (Orderly s turn) :=
  inferInstanceAs (Decidable (_ ∧ _))

instance (c : PlacementCatalog) (j : PartitionMoveJournal) : Decidable (StuckAtCutover c j) :=
  inferInstanceAs (Decidable (_ ∧ ∃ o ∈ c.entries.get j.key, o.state ≠ .active))

section
variable {N : Naming} {s : Cluster}

theorem apply_apart {c : PlacementCatalog} {cmd : Command} {tenant : String} (hplain : Plain cmd)
    (hadds : ∀ x ∈ Soundness.addedEntry cmd, ∀ e ∈ c.tenantEntries x.key.tenant, Meets e.key x.key →
      e.key = x.key) (h : Apart c tenant) : Apart (c.apply cmd).1 tenant := by
  cases cmd with
  | entryMethod x =>
    rw [apart_iff] at h ⊢
    -- a row that overlaps the new one is the new one
    have hnew : ∀ l, Places c tenant l → x.key.tenant = tenant → Meets l x.key → l = x.key := by
      rintro l ⟨e, he, rfl⟩ rfl hmeets
      exact hadds x rfl e he hmeets
    intro a b ha hb hmeets
    have hta : a.tenant = tenant := (places_iff.mp ha).2.2.2
    have htb : b.tenant = tenant := (places_iff.mp hb).2.2.2
    rcases places_add ha with rfl | ha <;> rcases places_add hb with rfl | hb
    · rfl
    · exact (hnew b hb hta hmeets.symm).symm
    · exact hnew a ha htb hmeets
    · exact h a b ha hb hmeets
  | removeMethod k =>
    rw [apart_iff] at h ⊢
    intro a b ha hb hmeets
    exact h a b (places_remove.mp ha).1 (places_remove.mp hb).1 hmeets
  | epochSeedMethod n =>
    refine apart_of_keys h fun l => ?_
    rw [(@apply_epochCommand (.epochSeedMethod n) c rfl).1]
  | epochCasMethod m n =>
    refine apart_of_keys h fun l => ?_
    rw [(@apply_epochCommand (.epochCasMethod m n) c rfl).1]
  | entryCasMethod | moveJournalMethod => cases hplain

theorem resume_keys (hs : Settled N s) (k l : PartitionKey) :
    ((s.resume k).catalog.entries.get l).isSome = (s.catalog.entries.get l).isSome := by
  unfold Cluster.resume
  split
  · rfl
  · rfl
  · next p hne hp =>
    rcases (Program.wp_resume Rely.refl (hs.drivers k p hp)).1 with heq | hg
    · change ((p.resume PlacementCatalog.apply s.catalog).1.entries.get l).isSome = _
      rw [heq]
    · exact hg.keys l

/-- Every partition is free or held, and the rows of every tenant are apart. -/
structure Tidy (N : Naming) (s : Cluster) : Prop
    extends Settled N s where
  apart : ∀ tenant, Apart s.catalog tenant

theorem tidy_fresh : Tidy N Cluster.fresh :=
  ⟨settled_fresh, fun _ e he => by cases he⟩

theorem begin_catalog {α : Type} (k : PartitionKey) (p : Placing α) :
    (s.begin k p).catalog = s.catalog := by
  unfold Cluster.begin
  split_ifs <;> rfl

theorem beginJournal_catalog {α : Type} (id : String) (p : Placing α) :
    (s.beginJournal id p).catalog = s.catalog := by
  unfold Cluster.beginJournal
  split
  · rfl
  · exact begin_catalog _ p

theorem propose_catalog (op : Operation) : (s.propose op).catalog = s.catalog := by
  unfold Cluster.propose
  split_ifs
  · split <;> rfl
  · rfl

theorem Tidy.apart_step (h : Tidy N s) {turn : Turn} (ho : AddsApart s turn)
    (tenant : String) : Apart (s.step N turn).catalog tenant := by
  cases turn with
  | movePartition env registry tenant' range target =>
    simp only [Cluster.step, begin_catalog]
    exact h.apart tenant
  | abortMove env id | reconcileMove env id =>
    simp only [Cluster.step, beginJournal_catalog]
    exact h.apart tenant
  | resume k => exact apart_of_keys (h.apart tenant) fun l => resume_keys h.toSettled k l
  | stop k => exact h.apart tenant
  | propose op =>
    simp only [Cluster.step, propose_catalog]
    exact h.apart tenant
  | commit i =>
    cases ht : s.threads[i]? with
    | none =>
      simp only [Cluster.step, Cluster.commit, ht]
      exact h.apart tenant
    | some t =>
      cases hnext : t.next with
      | none =>
        simp only [Cluster.step, Cluster.commit, ht, hnext]
        exact h.apart tenant
      | some cmd =>
        simp only [Cluster.step, Cluster.commit, ht, hnext]
        refine apply_apart (next_plain (h.plain t (List.mem_of_getElem? ht)) hnext) ?_
          (h.apart tenant)
        intro x hx
        refine ho x ?_
        simp only [addedRow, ht, hnext, Option.bind_some]
        exact hx
  | crash => exact h.apart tenant

theorem Tidy.step (h : Tidy N s) {turn : Turn} (ho : Orderly s turn)
    (hm : ∀ k ∈ turn.partition, k ∈ N.keys) : Tidy N (s.step N turn) :=
  ⟨h.toSettled.step ho.1 hm, h.apart_step ho.2⟩

theorem Tidy.recoverable (h : Tidy N s) :
    Recoverable N (unfinishedJournals s.catalog) s.catalog where
  valid := h.valid
  held _ hj := held_of_unfinished h.agreed hj
  apart j _ := h.apart j.key.tenant
  distinct := by
    refine List.Pairwise.imp_of_mem ?_ (unfinishedJournals_nodup h.valid)
    intro i j hi hj hne hkey
    obtain ⟨o, hheld⟩ := held_of_unfinished h.agreed hj
    obtain ⟨⟨id, hid⟩, hu⟩ := mem_unfinishedJournals.mp hi
    exact hne (hheld.sole id i hid hkey hu)

end

/-- **A node that can recover a catalog**: it leads the placement group, serves every unfinished move, and
the epoch counter has room for their cutovers. -/
structure CanRecover (env : Environment) (c : PlacementCatalog) : Prop where
  leader : env.requireLocalGroupLeader = .ok ()
  serves : ∀ j ∈ unfinishedJournals c, Serves env j
  room : c.epochFloor + (unfinishedJournals c).length ≤ u64Max

/-- **What recovery does in a tidy state**: it lists the unfinished journals, and ends each exactly when
none is stuck. -/
theorem Tidy.recovers {N : Naming} {s : Cluster} (h : Tidy N s) :
    validateMoveRecoveryState N s.catalog = .ok (unfinishedJournals s.catalog) ∧
      ∀ env, CanRecover env s.catalog → ((reconcileMoves N env).Ends PlacementCatalog.apply
          (fun _ t => ∀ j ∈ unfinishedJournals s.catalog, Recovered t j) s.catalog ↔
            ∀ j ∈ unfinishedJournals s.catalog, ¬ StuckAtCutover s.catalog j) := by
  have hlisted := validate_of_agreed h.valid h.agreed
  refine ⟨hlisted, fun env hcan => ⟨fun hends j hj hstuck => ?_, fun hfree => ?_⟩⟩
  · have hfails := @fails_reconcileListed _ env _ _ h.recoverable hcan.serves
      ⟨j, hj, hstuck⟩ hcan.room
    refine not_ends_of_fails ?_ hends
    refine fails_after (P := fun _ t => t = s.catalog) (ends_lift hcan.leader rfl) fun _ t ht => ?_
    subst ht
    refine fails_after (P := fun listed t => listed = unfinishedJournals s.catalog ∧ t = s.catalog)
      ⟨_, s.catalog, by rw [← hlisted]; rfl, rfl, rfl⟩ ?_
    rintro _ _ ⟨rfl, rfl⟩
    exact hfails
  · refine ends_lift_bind hcan.leader (ends_asks_bind hlisted ?_)
    refine ends_mono (ends_reconcileListed h.recoverable hcan.serves hfree hcan.room) ?_
    exact fun _ t ht => ht.1

/-- **Interrupted moves are recovered**: after every orderly run whose moves have ids that tell their
partitions apart, the start-up check lists the unfinished journals, and recovery on a node that can
recover them ends each on the target or back on the source exactly when none is stuck at its cutover. -/
theorem interrupted_moves_recover (sha256 : List UInt8 → String) (turns : List Turn)
    (hn : NamesPartitions sha256 (turns.filterMap Turn.partition))
    (h : Along (Cluster.step sha256) Orderly Cluster.fresh turns) :
    let c := (run (Cluster.step sha256) Cluster.fresh turns).catalog
    validateMoveRecoveryState sha256 c = .ok (unfinishedJournals c) ∧
      ∀ env, CanRecover env c → ((reconcileMoves sha256 env).Ends PlacementCatalog.apply
          (fun _ t => ∀ j ∈ unfinishedJournals c, Recovered t j) c ↔
            ∀ j ∈ unfinishedJournals c, ¬ StuckAtCutover c j) := by
  have htidy : Tidy ⟨sha256, _, hn⟩ (run (Cluster.step sha256) Cluster.fresh turns) :=
    run_invariant_along (fun _ _ hp hs => hs.step hp.1 hp.2) turns _
      (h.and_of_forall (named_of_mem hn)) tidy_fresh
  exact htidy.recovers

/-! ### A crash at the cutover -/

theorem readyNode_serves (j : PartitionMoveJournal) : Serves readyNode j :=
  ⟨rfl, rfl, rfl, rfl, fun _ _ => ⟨1, rfl⟩⟩

def crashTurns (n : ℕ) : List Turn :=
  assignTurns ++ .movePartition readyNode ["a:x"] "a" (0, u64Max) 2 ::
    List.replicate n (.resume (.whole "a")) ++ [.crash]

def crashed (n : ℕ) : PlacementCatalog :=
  (run (Cluster.step shortDigest) Cluster.fresh (crashTurns n)).catalog

/-- A crash in the transfer is recovered from. -/
theorem transfer_recovered : (unfinishedJournals (crashed 12)).map (·.stage) = [.transferring] ∧
      (reconcileMoves shortDigest readyNode).Ends PlacementCatalog.apply
        (fun _ t => ∀ j ∈ unfinishedJournals (crashed 12), Recovered t j) (crashed 12) := by
  have hcan : CanRecover readyNode (crashed 12) :=
    ⟨rfl, fun j _ => readyNode_serves j, by decide +kernel⟩
  have hrun := interrupted_moves_recover shortDigest (crashTurns 12)
    (namesPartitions_singleton _ (.whole "a")) (by decide +kernel)
  exact ⟨by decide +kernel, (hrun.2 readyNode hcan).mpr (by decide +kernel)⟩

/-- A crash after the intent to cut over was written, and before the row was cut over, is not: the node
can recover the catalog, and recovery fails. -/
theorem cutover_not_recovered : CanRecover readyNode (crashed 17) ∧
      (unfinishedJournals (crashed 17)).map (·.stage) = [.readyForCutover] ∧
        ((reconcileMoves shortDigest readyNode).exec PlacementCatalog.apply (crashed 17)).2 =
          .error "partition move journal transition is not monotonic" := by
  refine ⟨⟨rfl, fun j _ => readyNode_serves j, by decide +kernel⟩, by decide +kernel,
    by decide +kernel⟩

end Medulla.Placement.RecoveryRuns
