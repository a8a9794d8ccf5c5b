import Medulla.Epistemic.Beliefs

/-! # Grounded labels

Every argument starts undecided. A pass goes over the arguments in order; one whose attackers are all
out goes in, one with an attacker that is in goes out, and later arguments of the same pass already
see the new label.

* one turn: `Grounds.relabel`; all passes: `settle_quiet`;
* the result: `groundedExtension_is_grounded`. -/

namespace Medulla.Epistemic.Grounded

open Library.OrderedTable Library.OrderedSet Library.Argumentation Beliefs

/-! ### The labelling -/

inductive Label
  | accepted | rejected | undecided
  deriving DecidableEq

abbrev Labels := Table String Label

structure Pass where
  labels : Labels
  changed : Bool

def relabel (s : Pass) (r : String × KeySet String) : Pass :=
  if s.labels.get r.1 ≠ some .undecided then s
  else if (elems r.2).all fun a => s.labels.get a = some .rejected then
    ⟨s.labels.insert r.1 .accepted, true⟩
  else if (elems r.2).any fun a => s.labels.get a = some .accepted then
    ⟨s.labels.insert r.1 .rejected, true⟩
  else s

def pass (attackers : AttackerMap) (labels : Labels) : Pass :=
  attackers.rows.foldl relabel ⟨labels, false⟩

/-- Passes until one changes nothing, at most a number of them. -/
def settle (attackers : AttackerMap) : ℕ → Labels → Labels
  | 0, labels => labels
  | n + 1, labels =>
    if (pass attackers labels).changed then settle attackers n (pass attackers labels).labels
    else (pass attackers labels).labels

def undecidedLabels (attackers : AttackerMap) : Labels := attackers.mapValues fun _ => .undecided

def groundedLabels (bg : BeliefGraph) : Labels :=
  settle (attackerMap bg) ((attackerMap bg).rows.length + 1) (undecidedLabels (attackerMap bg))

def groundedExtension (bg : BeliefGraph) : KeySet String :=
  ((groundedLabels bg).filter fun _ l => l = .accepted).mapValues fun _ => ()

/-! ### One turn -/

def labelled (labels : Labels) (l : Label) : Set String := {a | labels.get a = some l}

def undecidedCount (labels : Labels) : ℕ := labels.count fun _ l => l = .undecided

/-- An argument whose turn changes nothing. -/
def Resting (labels : Labels) (r : String × KeySet String) : Prop :=
  labels.get r.1 = some .undecided → (∃ a, has r.2 a = true ∧ labels.get a ≠ some .rejected) ∧
      ∀ a, has r.2 a = true → labels.get a ≠ some .accepted

/-- **The turn of an argument**: it rests, goes in, or goes out. -/
theorem relabel_cases (s : Pass) (r : String × KeySet String) :
    (relabel s r = s ∧ Resting s.labels r) ∨ (s.labels.get r.1 = some .undecided ∧
        (∀ a, has r.2 a = true → s.labels.get a = some .rejected) ∧
        relabel s r = ⟨s.labels.insert r.1 .accepted, true⟩) ∨
      (s.labels.get r.1 = some .undecided ∧
        (∃ a, has r.2 a = true ∧ s.labels.get a = some .accepted) ∧
        relabel s r = ⟨s.labels.insert r.1 .rejected, true⟩) := by
  unfold relabel
  split_ifs with hdecided hall hany
  · exact Or.inl ⟨rfl, fun h => absurd h hdecided⟩
  · rw [not_not] at hdecided
    refine Or.inr (Or.inl ⟨hdecided, fun a ha => ?_, rfl⟩)
    simpa using List.all_eq_true.mp hall a (mem_elems.mpr ha)
  · rw [not_not] at hdecided
    obtain ⟨a, ha, hlabel⟩ := List.any_eq_true.mp hany
    exact Or.inr (Or.inr ⟨hdecided, ⟨a, mem_elems.mp ha, by simpa using hlabel⟩, rfl⟩)
  · refine Or.inl ⟨rfl, fun _ => ⟨?_, fun a ha hlabel => hany ?_⟩⟩
    · by_contra hnone
      refine hall (List.all_eq_true.mpr fun a ha => ?_)
      by_contra hlabel
      exact hnone ⟨a, mem_elems.mp ha, by simpa using hlabel⟩
    · exact List.any_eq_true.mpr ⟨a, mem_elems.mpr ha, by simpa using hlabel⟩

section
variable {labels : Labels} {a : String} {l : Label}

theorem undecidedCount_insert (ha : labels.get a = some .undecided) (hl : l ≠ .undecided) :
    undecidedCount (labels.insert a l) + 1 = undecidedCount labels := by
  have hcount := Table.count_insert labels (fun _ l => l = .undecided) a l
  rw [ha] at hcount
  unfold undecidedCount
  simpa [weight, hl] using hcount

theorem labelled_insert_self : labelled (labels.insert a l) l = insert a (labelled labels l) := by
  ext x
  unfold labelled
  simp only [Set.mem_ofPred_eq, Table.get_insert]
  by_cases hx : x = a
  · simp [hx]
  · simp [hx]

theorem labelled_insert_other {l' : Label} (ha : labels.get a = some .undecided)
    (hl : l' ≠ .undecided) (hne : l ≠ l') :
    labelled (labels.insert a l) l' = labelled labels l' := by
  ext x
  unfold labelled
  simp only [Set.mem_ofPred_eq, Table.get_insert]
  by_cases hx : x = a
  · subst hx
    simp [ha, hne, Ne.symm hl]
  · simp [hx]

/-- Labels of exactly the arguments of a framework, grounded so far. -/
structure Grounds (bg : BeliefGraph) (labels : Labels) : Prop where
  args : ∀ a, IsArgument bg a ↔ ∃ l, labels.get a = some l
  labelled : Labelled (framework bg) (labelled labels .accepted) (labelled labels .rejected)

theorem Grounds.insert {bg : BeliefGraph} (h : Grounds bg labels)
    (ha : labels.get a = some .undecided)
    (hl : Labelled (framework bg) (Grounded.labelled (labels.insert a l) .accepted)
      (Grounded.labelled (labels.insert a l) .rejected)) : Grounds bg (labels.insert a l) where
  args := by
    intro x
    rw [h.args, Table.get_insert]
    by_cases hx : x = a
    · subst hx
      simp [ha]
    · simp [hx]
  labelled := hl

/-- **One turn keeps the labels grounded.** -/
theorem Grounds.relabel {bg : BeliefGraph} {s : Pass} {r : String × KeySet String}
    (h : Grounds bg s.labels) (hr : r ∈ (attackerMap bg).rows) : Grounds bg (relabel s r).labels := by
  obtain ⟨harg, hattackers⟩ := get_attackerMap.mp (Table.mem_rows.mp hr)
  have hattack : ∀ b, has r.2 b = true ↔ (framework bg).attacks b r.1 := by
    intro b
    rw [← hattackers]
    exact has_augmentedAttackers
  rcases relabel_cases s r with ⟨heq, -⟩ | ⟨hnew, hall, heq⟩ | ⟨hnew, ⟨b, hb, hin⟩, heq⟩
  · rw [heq]
    exact h
  · rw [heq]
    refine h.insert hnew ?_
    rw [labelled_insert_self, labelled_insert_other hnew (by decide) (by decide)]
    refine h.labelled.accept harg ?_ fun b hb => hall b ((hattack b).mpr hb)
    intro hout
    rw [Grounded.labelled, Set.mem_ofPred_eq, hnew] at hout
    cases hout
  · rw [heq]
    refine h.insert hnew ?_
    rw [labelled_insert_self, labelled_insert_other hnew (by decide) (by decide)]
    refine h.labelled.reject ?_ hin ((hattack b).mp hb)
    intro hacc
    rw [Grounded.labelled, Set.mem_ofPred_eq, hnew] at hacc
    cases hacc

end

/-! ### One pass -/

section
variable {bg : BeliefGraph}

theorem Grounds.foldl_relabel : ∀ {rows : List (String × KeySet String)} {s : Pass},
    (∀ r ∈ rows, r ∈ (attackerMap bg).rows) → Grounds bg s.labels →
      Grounds bg (rows.foldl Grounded.relabel s).labels
  | [], _, _, h => h
  | r :: rows, s, hrows, h => by
    obtain ⟨hr, hrest⟩ := List.forall_mem_cons.mp hrows
    exact Grounds.foldl_relabel (s := Grounded.relabel s r) hrest (h.relabel hr)

theorem foldl_relabel_changed : ∀ {rows : List (String × KeySet String)} {s : Pass},
    undecidedCount (rows.foldl relabel s).labels ≤ undecidedCount s.labels ∧
    ((rows.foldl relabel s).changed = true → s.changed = true ∨
        undecidedCount (rows.foldl relabel s).labels < undecidedCount s.labels) ∧
    ((rows.foldl relabel s).changed = false →
      rows.foldl relabel s = s ∧ ∀ r ∈ rows, Resting s.labels r)
  | [], s => ⟨Nat.le_refl _, Or.inl, fun _ => ⟨rfl, fun r hr => by cases hr⟩⟩
  | r :: rows, s => by
    rw [List.foldl_cons]
    obtain ⟨hle, hmore, hrest⟩ := @foldl_relabel_changed rows (relabel s r)
    -- a turn that gives a label marks the pass as changed for good
    have hstep : ∀ {l : Label}, s.labels.get r.1 = some .undecided → l ≠ .undecided →
        relabel s r = ⟨s.labels.insert r.1 l, true⟩ →
        undecidedCount (relabel s r).labels < undecidedCount s.labels ∧
          (rows.foldl relabel (relabel s r)).changed ≠ false := by
      intro l hnew hl heq
      have hcount : undecidedCount (relabel s r).labels + 1 = undecidedCount s.labels := by
        rw [heq]
        exact undecidedCount_insert hnew hl
      refine ⟨by omega, fun hfalse => ?_⟩
      have hsame := (hrest hfalse).1
      rw [hsame, heq] at hfalse
      cases hfalse
    rcases relabel_cases s r with ⟨heq, hresting⟩ | ⟨hnew, -, heq⟩ | ⟨hnew, -, heq⟩
    · rw [heq] at hle hmore hrest ⊢
      refine ⟨hle, hmore, fun hfalse => ?_⟩
      obtain ⟨hsame, hall⟩ := hrest hfalse
      exact ⟨hsame, List.forall_mem_cons.mpr ⟨hresting, hall⟩⟩
    · obtain ⟨hlt, hchanged⟩ := hstep hnew (by decide) heq
      exact ⟨by omega, fun _ => Or.inr (by omega), fun hfalse => absurd hfalse hchanged⟩
    · obtain ⟨hlt, hchanged⟩ := hstep hnew (by decide) heq
      exact ⟨by omega, fun _ => Or.inr (by omega), fun hfalse => absurd hfalse hchanged⟩

def Quiet (bg : BeliefGraph) (labels : Labels) : Prop :=
  ∀ r ∈ (attackerMap bg).rows, Resting labels r

/-- **Passes come to rest** when there are more of them than undecided arguments. -/
theorem settle_quiet : ∀ {n : ℕ} {labels : Labels}, undecidedCount labels < n → Grounds bg labels →
      Grounds bg (settle (attackerMap bg) n labels) ∧ Quiet bg (settle (attackerMap bg) n labels)
  | 0, _, hn, _ => absurd hn (Nat.not_lt_zero _)
  | n + 1, labels, hn, h => by
    have hpass : Grounds bg (pass (attackerMap bg) labels).labels :=
      Grounds.foldl_relabel (s := ⟨labels, false⟩) (fun _ hr => hr) h
    obtain ⟨-, hmore, hrest⟩ := @foldl_relabel_changed (attackerMap bg).rows ⟨labels, false⟩
    unfold settle
    by_cases hchanged : (pass (attackerMap bg) labels).changed = true
    · rw [if_pos hchanged]
      have hlt : undecidedCount (pass (attackerMap bg) labels).labels < undecidedCount labels :=
        (hmore hchanged).resolve_left (by simp)
      exact settle_quiet (by omega) hpass
    · rw [if_neg hchanged]
      refine ⟨hpass, ?_⟩
      obtain ⟨hsame, hall⟩ := hrest (Bool.not_eq_true _ ▸ hchanged)
      have hlabels : (pass (attackerMap bg) labels).labels = labels := congrArg Pass.labels hsame
      rw [hlabels]
      exact hall

/-! ### The whole labelling -/

theorem grounds_undecided (bg : BeliefGraph) : Grounds bg (undecidedLabels (attackerMap bg)) where
  args := by
    intro a
    unfold undecidedLabels
    rw [Table.get_mapValues]
    constructor
    · intro ha
      rw [get_attackerMap.mpr ⟨ha, rfl⟩]
      exact ⟨_, rfl⟩
    · rintro ⟨l, hl⟩
      obtain ⟨atk, hatk, -⟩ := Option.map_eq_some_iff.mp hl
      exact (get_attackerMap.mp hatk).1
  labelled := by
    have hnone : ∀ l : Label, l ≠ .undecided →
        labelled (undecidedLabels (attackerMap bg)) l = ∅ := by
      intro l hl
      refine Set.eq_empty_of_forall_notMem fun a ha => ?_
      unfold labelled undecidedLabels at ha
      rw [Set.mem_ofPred_eq, Table.get_mapValues] at ha
      obtain ⟨atk, -, hatk⟩ := Option.map_eq_some_iff.mp ha
      exact hl hatk.symm
    rw [hnone _ (by decide), hnone _ (by decide)]
    exact labelled_empty _

theorem undecidedCount_undecided (attackers : AttackerMap) :
    undecidedCount (undecidedLabels attackers) < attackers.rows.length + 1 := by
  have hle : undecidedCount (undecidedLabels attackers) ≤ (undecidedLabels attackers).rows.length :=
    List.countP_le_length
  have hlen : (undecidedLabels attackers).rows.length = attackers.rows.length := by
    simp [undecidedLabels, Table.mapValues]
  omega

theorem grounds_groundedLabels (bg : BeliefGraph) : Grounds bg (groundedLabels bg) :=
  (settle_quiet (undecidedCount_undecided _) (grounds_undecided bg)).1

theorem quiet_groundedLabels (bg : BeliefGraph) : Quiet bg (groundedLabels bg) :=
  (settle_quiet (undecidedCount_undecided _) (grounds_undecided bg)).2

theorem Quiet.final {labels : Labels} (hquiet : Quiet bg labels) (h : Grounds bg labels) :
    Final (framework bg) (labelled labels .accepted) (labelled labels .rejected) := by
  have hdecided : ∀ a, IsArgument bg a → labels.get a ≠ some .undecided →
      a ∈ labelled labels .accepted ∨ a ∈ labelled labels .rejected := by
    intro a ha hne
    obtain ⟨l, hl⟩ := (h.args a).mp ha
    cases l with
    | accepted => exact Or.inl hl
    | rejected => exact Or.inr hl
    | undecided => exact absurd hl hne
  have hrow : ∀ a, IsArgument bg a → Resting labels (a, augmentedAttackers bg a) := fun a ha =>
    hquiet _ (Table.mem_rows.mpr (get_attackerMap.mpr ⟨ha, rfl⟩))
  constructor
  · intro a ha hout
    refine hdecided a ha fun hundecided => ?_
    obtain ⟨⟨b, hb, hne⟩, -⟩ := hrow a ha hundecided
    exact hne (hout b (has_augmentedAttackers.mp hb))
  · intro a b hb hba
    have ha := (framework bg).target_mem hba
    refine hdecided a ha fun hundecided => ?_
    exact (hrow a ha hundecided).2 b (has_augmentedAttackers.mpr hba) hb

theorem keys_groundedExtension :
    keys (groundedExtension bg) = labelled (groundedLabels bg) .accepted := by
  ext a
  rw [mem_keys, has_iff, groundedExtension, Table.get_mapValues, Table.get_filter]
  simp only [Option.map_eq_some_iff, Option.filter_eq_some_iff, decide_eq_true_eq]
  constructor
  · rintro ⟨l, ⟨hl, rfl⟩, -⟩
    exact hl
  · intro h
    exact ⟨_, ⟨h, rfl⟩, trivial⟩

theorem keys_groundedExtension_eq (bg : BeliefGraph) :
    keys (groundedExtension bg) = (framework bg).grounded := by
  rw [keys_groundedExtension]
  exact (grounds_groundedLabels bg).labelled.eq_grounded
    ((quiet_groundedLabels bg).final (grounds_groundedLabels bg))

/-- **The grounded extension is computed**: for every belief graph it is the least fixpoint of the
characteristic function of the supported attacks, conflict free, and part of every complete extension. -/
theorem groundedExtension_is_grounded (bg : BeliefGraph) :
    keys (groundedExtension bg) = OrderHom.lfp (framework bg).characteristic ∧
      (framework bg).ConflictFree (keys (groundedExtension bg)) ∧
      ∀ E, (framework bg).Complete E → keys (groundedExtension bg) ⊆ E := by
  rw [keys_groundedExtension_eq]
  exact ⟨rfl, (framework bg).grounded_conflictFree, fun E hE => Framework.grounded_subset hE⟩

end

end Medulla.Epistemic.Grounded
