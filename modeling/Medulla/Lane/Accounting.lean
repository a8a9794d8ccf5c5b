import Medulla.Lane.Moves

/-! # Lane accounting

The counters of the scopes are sums over the stored holds, the pressure index shows the same sums, and
the four exclusive indexes name the holds that are not cleaned.

* one move: `Sound.move`;
* every run: `lane_accounting_exact`. -/

namespace Medulla.Lane.Accounting

open Library Library.Checked Library.OrderedTable Library.ValueIndex Library.Tally Holds
open Quota Tables Lifecycle Machine Charges Moves

variable {s : Scope} {name key id : String} {m : Metric} {hold new : Hold} {amount : Metric → ℕ}
  {row : DurableHold} {delta : Charge} {lanes : Lanes} {meters : Meters} {revisions : Revisions}
  {row' : DurableHold} {old : Hold}

/-! ### Charges of holds -/

/-- What a hold is charged in a metric. -/
def chargeOf (hold : Hold) : Metric → ℕ
  | .count => if hold.activeCountCharged then 1 else 0
  | .predicted => if hold.activeCountCharged then hold.predictedDiskBytes else 0
  | .observed => if hold.activeCountCharged then hold.observedDiskBytes else 0
  | .retained => hold.retainedDiskBytes

abbrev HoldTable := Table String DurableHold

variable {holds : HoldTable}

/-- What a hold adds to a counter. -/
def scopeAmount (hold : Hold) (amount : Metric → ℕ) (s : Scope) (key : String) (m : Metric) : ℕ :=
  if scopeKey s hold = key then amount m else 0

/-- **The sum of the charges** of the holds with a key of a scope. -/
def scopeTotal (holds : HoldTable) (s : Scope) (key : String) (m : Metric) : ℕ :=
  total (fun _ row => scopeAmount row.hold (chargeOf row.hold) s key m) holds

def scopeOfName (name : String) : Option Scope :=
  (localScopes.find? fun s => s.2 = name).map Prod.fst

theorem scopeOfName_eq : scopeOfName name = some s ↔ pressureScopeName s = some name := by
  rw [← mem_localScopes]
  unfold scopeOfName
  rw [Option.map_eq_some_iff]
  constructor
  · rintro ⟨⟨s', name'⟩, hfind, rfl⟩
    have hname := List.find?_some hfind
    rw [decide_eq_true_eq] at hname
    cases hname
    exact List.mem_of_find?_eq_some hfind
  · intro hmem
    refine ⟨(s, name), ?_, rfl⟩
    revert hmem
    unfold localScopes
    simp only [List.mem_cons, List.not_mem_nil, or_false]
    rintro (⟨rfl, rfl⟩ | ⟨rfl, rfl⟩ | ⟨rfl, rfl⟩ | ⟨rfl, rfl⟩ | ⟨rfl, rfl⟩)
    all_goals rfl

def metricOfName (name : String) : Option Metric := metrics.find? fun m => pressureMetricName m = name

theorem metricOfName_eq : metricOfName name = some m ↔ pressureMetricName m = name := by
  constructor
  · intro h
    have hname := List.find?_some h
    rwa [decide_eq_true_eq] at hname
  · rintro rfl
    cases m <;> rfl

def slotAmount (hold : Hold) (amount : Metric → ℕ) (slot : (String × String × String) × String) : ℕ :=
  match scopeOfName slot.1.2.1, metricOfName slot.1.2.2 with
  | some s, some m => if hold.tenantRef = slot.1.1 ∧ scopeKey s hold = slot.2 then amount m else 0
  | _, _ => 0

theorem slotAmount_slotOf {tenant : String} (hlocal : pressureScopeName s = some name) :
    slotAmount hold amount (slotOf tenant name m key) =
      if hold.tenantRef = tenant ∧ scopeKey s hold = key then amount m else 0 := by
  unfold slotAmount slotOf
  rw [scopeOfName_eq.mpr hlocal, metricOfName_eq.mpr rfl]

/-- The sums that the pressure index shows. -/
def slotTotal (holds : HoldTable) (slot : (String × String × String) × String) : ℕ :=
  total (fun _ row => slotAmount row.hold (chargeOf row.hold) slot) holds

/-! ### Invariant -/

/-- An index has the holds that are not cleaned, under their keys. -/
def IndexesHolds {K : Type} [LinearOrder K] (index : Table K String) (key : Hold → K)
    (holds : HoldTable) : Prop :=
  ∀ k id, index.get k = some id ↔
    ∃ row, holds.get id = some row ∧ row.hold.state ≠ .cleaned ∧ key row.hold = k

/-- A stored hold has its own id, is bounded, and is charged as its state says. -/
structure SoundRow (id : String) (row : DurableHold) : Prop where
  own : row.hold.holdId = id
  bounds : durableHoldBounds row = .ok ()
  live : row.hold.activeCountCharged = true →
    row.hold.state.isLive = true ∧ row.hold.retainedDiskBytes = 0

def attemptKey (hold : Hold) : String ×ₗ ℕ := workItemIndexKey hold.workItemId hold.fence.attempt

structure Meters.Exact (meters : Meters) (holds : HoldTable) : Prop where
  counters : ∀ s hold m,
    (counterOf meters.counters s hold).get m = scopeTotal holds s (scopeKey s hold) m
  pressure : Shows slotKey meters.pressure (slotTotal holds)

/-- **The tables agree with each other.** -/
structure Sound (lanes : Lanes) : Prop where
  rows : ∀ id row, lanes.holds.get id = some row → SoundRow id row
  meters : Meters.Exact lanes.meters lanes.holds
  lane : IndexesHolds lanes.laneIndex laneIndexKey lanes.holds
  branch : IndexesHolds lanes.branchIndex branchIndexKey lanes.holds
  worktree : IndexesHolds lanes.worktreeIndex worktreeKey lanes.holds
  workItem : IndexesHolds lanes.workItemIndex attemptKey lanes.holds

theorem indexesHolds_empty {K : Type} [LinearOrder K] (key : Hold → K) :
    IndexesHolds .empty key .empty := by
  intro k id
  constructor
  · intro h
    cases h
  · rintro ⟨row, h, -⟩
    cases h

theorem sound_fresh : Sound .fresh :=
  ⟨(fun _ _ h => nomatch h), ⟨fun _ _ m => by cases m <;> rfl, shows_empty slotKey⟩,
    indexesHolds_empty _, indexesHolds_empty _, indexesHolds_empty _, indexesHolds_empty _⟩

/-! ### Tenants -/

theorem mem_of_boundedTexts {value : String} : ∀ {values : List String},
    boundedTexts values = .ok () → value ∈ values → text value = .ok ()
  | first :: rest, h, hmem => by
    obtain ⟨_, hfirst, hrest⟩ := unbind h
    rcases List.mem_cons.mp hmem with rfl | hmem
    · exact hfirst
    · exact mem_of_boundedTexts hrest hmem

theorem not_mem_of_text {value : String} (h : text value = .ok ()) : '\x00' ∉ value.toList := by
  intro hmem
  rw [text, rejectIf_eq_ok] at h
  refine h (.inr (.inr ?_))
  rw [List.any_eq_true]
  exact ⟨'\x00', hmem, by decide⟩

theorem tenant_clean (h : durableHoldBounds row = .ok ()) : '\x00' ∉ row.hold.tenantRef.toList := by
  obtain ⟨_, htexts, -⟩ := unbind h
  obtain ⟨_, htexts, -⟩ := unbind htexts
  rw [failing_eq_ok] at htexts
  refine not_mem_of_text (mem_of_boundedTexts htexts ?_)
  simp [holdTexts]

/-- **A local counter is of one tenant**: what the index shows for it is the counter. -/
theorem slotTotal_eq_scopeTotal (m : Metric)
    (hrows : ∀ id row, holds.get id = some row → durableHoldBounds row = .ok ())
    (hlocal : pressureScopeName s = some name) (hclean : '\x00' ∉ hold.tenantRef.toList) :
    slotTotal holds (slotOf hold.tenantRef name m (scopeKey s hold)) =
      scopeTotal holds s (scopeKey s hold) m := by
  refine total_congr fun id row hrow => ?_
  rw [slotAmount_slotOf hlocal]
  unfold scopeAmount
  by_cases hkey : scopeKey s row.hold = scopeKey s hold
  · have htenant := tenant_of_scopeKey hlocal (tenant_clean (hrows id row hrow)) hclean hkey
    rw [if_pos ⟨htenant, hkey⟩, if_pos hkey]
  · rw [if_neg fun h => hkey h.2, if_neg hkey]

/-! ### Sums that move -/

/-- A rewrite shifts the totals by the change of one hold. -/
structure Shifts (holds holds' : HoldTable) (hold : Hold) (old new : Metric → ℕ) : Prop where
  scope : ∀ s key m, scopeAmount hold old s key m + scopeTotal holds' s key m =
    scopeAmount hold new s key m + scopeTotal holds s key m
  slot : ∀ slot, slotAmount hold old slot + slotTotal holds' slot =
    slotAmount hold new slot + slotTotal holds slot

theorem scopeAmount_congr {hold' : Hold} (h : SameHold hold hold') :
    scopeAmount hold' amount s key m = scopeAmount hold amount s key m := by
  rw [scopeAmount, scopeAmount, h.scopeKey]

theorem slotAmount_congr {hold' : Hold} {slot : (String × String × String) × String}
    (h : SameHold hold hold') : slotAmount hold' amount slot = slotAmount hold amount slot := by
  unfold slotAmount
  simp only [h.scopeKey, h.tenantRef]

theorem shifts_replace (hrow : holds.get id = some row)
    (hsame : SameHold row.hold row'.hold) :
    Shifts holds (holds.insert id row') row.hold (chargeOf row.hold) (chargeOf row'.hold) := by
  refine ⟨fun s key m => ?_, fun slot => ?_⟩
  · rw [← @scopeAmount_congr s key m _ (chargeOf row'.hold) _ hsame]
    unfold scopeTotal
    rw [total_replace (f := fun _ r => scopeAmount r.hold (chargeOf r.hold) s key m) (w := row') hrow]
  · rw [← @slotAmount_congr _ (chargeOf row'.hold) _ slot hsame]
    unfold slotTotal
    rw [total_replace (f := fun _ r => slotAmount r.hold (chargeOf r.hold) slot) (w := row') hrow]

theorem shifts_insert (hrow : holds.get id = none) :
    Shifts holds (holds.insert id row) row.hold (fun _ => 0) (chargeOf row.hold) := by
  have hzero : ∀ s key m, scopeAmount row.hold (fun _ => 0) s key m = 0 := by
    intro s key m
    exact ite_self 0
  have hzero' : ∀ slot, slotAmount row.hold (fun _ => 0) slot = 0 := by
    intro slot
    unfold slotAmount
    split
    · exact ite_self 0
    · rfl
  refine ⟨fun s key m => ?_, fun slot => ?_⟩
  · rw [hzero, zero_add]
    unfold scopeTotal
    rw [total_insert (f := fun _ r => scopeAmount r.hold (chargeOf r.hold) s key m) hrow]
  · rw [hzero', zero_add]
    unfold slotTotal
    rw [total_insert (f := fun _ r => slotAmount r.hold (chargeOf r.hold) slot) hrow]

theorem leads_shift {delta : Option Delta} {value value' old new sum : ℕ}
    (h : Leads delta value value') (hcharge : Leads delta old new) (hsum : old + sum = new + value) :
    value' = sum := by
  rcases delta with _ | ⟨increase, amount⟩
  · cases h
    cases hcharge
    omega
  · cases increase
    · change value = value' + amount at h
      change old = new + amount at hcharge
      omega
    · change value' = value + amount at h
      change new = old + amount at hcharge
      omega

section
variable {meters' : Meters} {holds' : HoldTable} {old new : Metric → ℕ}

theorem counters_charged
    (hcounters : ∀ s hold m,
      (counterOf meters.counters s hold).get m = scopeTotal holds s (scopeKey s hold) m)
    (hcharged : Charged hold.tenantRef hold delta revisions meters meters')
    (hshifts : Shifts holds holds' hold old new)
    (hleads : ∀ m, Leads (Charge.get delta m) (old m) (new m)) (s : Scope) (hold' : Hold) (m : Metric) :
    (counterOf meters'.counters s hold').get m = scopeTotal holds' s (scopeKey s hold') m := by
  have hshift := hshifts.scope s (scopeKey s hold') m
  by_cases hkey : scopeKey s hold = scopeKey s hold'
  · have hcounter := (hcharged.counter s).metric m
    rw [hcounters] at hcounter
    rw [scopeAmount, scopeAmount, if_pos hkey, if_pos hkey] at hshift
    unfold counterOf at hcounter ⊢
    rw [hkey] at hcounter
    exact leads_shift hcounter (hleads m) hshift
  · have hother : ∀ s', scopeKey s hold' ≠ scopeKey s' hold := by
      intro s' heq
      obtain rfl := scope_of_scopeKey heq
      exact hkey heq.symm
    rw [scopeAmount, scopeAmount, if_neg hkey, if_neg hkey, zero_add, zero_add] at hshift
    rw [hshift, ← hcounters, counterOf, counterOf, hcharged.rest _ hother]

theorem slotTotal_of_other (hshifts : Shifts holds holds' hold old new) {f g : Scope → Counter}
    {slot : (String × String × String) × String}
    (hother : ∀ c ∈ pressureChanges hold.tenantRef hold f g, c.slot ≠ slot) :
    slotTotal holds' slot = slotTotal holds slot := by
  have hnone : ∀ amount, slotAmount hold amount slot = 0 := by
    intro amount
    unfold slotAmount
    split
    · rename_i s m hscope hmetric
      refine if_neg fun hslot => ?_
      refine hother _ (mem_pressureChanges.mpr ⟨s, slot.1.2.1, m, scopeOfName_eq.mp hscope, rfl⟩) ?_
      rw [slotOf, hslot.1, hslot.2, metricOfName_eq.mp hmetric]
    · rfl
  have hshift := hshifts.slot slot
  rw [hnone, hnone, zero_add, zero_add] at hshift
  exact hshift

/-- **A charge keeps the meters exact** when it is the difference that the row of the hold makes. -/
theorem Meters.Exact.charged (h : Meters.Exact meters holds)
    (hrows : ∀ id row, holds.get id = some row → durableHoldBounds row = .ok ())
    (hrows' : ∀ id row, holds'.get id = some row → durableHoldBounds row = .ok ())
    (hclean : '\x00' ∉ hold.tenantRef.toList)
    (hcharged : Charged hold.tenantRef hold delta revisions meters meters')
    (hshifts : Shifts holds holds' hold old new)
    (hleads : ∀ m, Leads (Charge.get delta m) (old m) (new m)) : Meters.Exact meters' holds' := by
  have hcounters := counters_charged h.counters hcharged hshifts hleads
  refine ⟨hcounters, ?_⟩
  rw [hcharged.pressure]
  refine h.pressure.replaceAll slotKey_injects (nodup_pressureChanges _ _ _ _) (fun c hc => ?_)
    (fun c hc => ?_) fun slot => slotTotal_of_other hshifts
  · obtain ⟨s, name, m, hlocal, rfl⟩ := mem_pressureChanges.mp hc
    exact (slotTotal_eq_scopeTotal m hrows hlocal hclean).trans (h.counters s hold m).symm
  · obtain ⟨s, name, m, hlocal, rfl⟩ := mem_pressureChanges.mp hc
    exact (slotTotal_eq_scopeTotal m hrows' hlocal hclean).trans (hcounters s hold m).symm

theorem Meters.Exact.kept (h : Meters.Exact meters holds) (hshifts : Shifts holds holds' hold old old) :
    Meters.Exact meters holds' := by
  have hslots : slotTotal holds' = slotTotal holds := by
    funext slot
    exact Nat.add_left_cancel (hshifts.slot slot)
  refine ⟨fun s hold' m => ?_, ?_⟩
  · rw [h.counters]
    exact (Nat.add_left_cancel (hshifts.scope s (scopeKey s hold') m)).symm
  · rw [hslots]
    exact h.pressure

end

/-! ### Rows and indexes -/

theorem forall_insert {P : String → DurableHold → Prop} (h : ∀ k r, holds.get k = some r → P k r)
    (hrow : P id row) : ∀ k r, (holds.insert id row).get k = some r → P k r := by
  intro k r hget
  by_cases hk : k = id
  · subst hk
    rw [Table.get_insert_self] at hget
    cases hget
    exact hrow
  · rw [Table.get_insert_of_ne _ _ hk] at hget
    exact h k r hget

section
variable {K : Type} [LinearOrder K] {index : Table K String} {key : Hold → K} {row' : DurableHold}

section
variable (h : IndexesHolds index key holds)
include h

theorem IndexesHolds.rewrite (hrow : holds.get id = some row)
    (hkey : key row'.hold = key row.hold) (hstate : row.hold.state ≠ .cleaned)
    (hstate' : row'.hold.state ≠ .cleaned) : IndexesHolds index key (holds.insert id row') := by
  intro k id'
  rw [h k id']
  by_cases hid : id' = id
  · subst hid
    rw [Table.get_insert_self, hrow]
    constructor
    · rintro ⟨r, hr, -, hk⟩
      cases hr
      exact ⟨row', rfl, hstate', hkey.trans hk⟩
    · rintro ⟨r, hr, -, hk⟩
      cases hr
      exact ⟨row, rfl, hstate, hkey.symm.trans hk⟩
  · rw [Table.get_insert_of_ne _ _ hid]

theorem IndexesHolds.drop (hrow : holds.get id = some row)
    (hstate : row.hold.state ≠ .cleaned) (hstate' : row'.hold.state = .cleaned) :
    IndexesHolds (index.remove (key row.hold)) key (holds.insert id row') := by
  have hentry : index.get (key row.hold) = some id := (h _ _).mpr ⟨row, hrow, hstate, rfl⟩
  intro k id'
  rw [Table.get_remove]
  by_cases hid : id' = id
  · subst hid
    rw [Table.get_insert_self]
    constructor
    · intro hget
      split_ifs at hget with hk
      obtain ⟨r, hr, -, hkr⟩ := (h k id').mp hget
      rw [hrow] at hr
      cases hr
      exact absurd hkr.symm hk
    · rintro ⟨r, hr, hnot, -⟩
      cases hr
      exact absurd hstate' hnot
  · rw [Table.get_insert_of_ne _ _ hid, ← h k id']
    split_ifs with hk
    · subst hk
      rw [hentry]
      constructor
      · intro hget
        cases hget
      · intro hget
        exact absurd (Option.some.inj hget).symm hid
    · rfl

theorem IndexesHolds.add (hfresh : holds.get id = none)
    (hfree : FreeFor (index.get (key row.hold)) id) (hstate : row.hold.state ≠ .cleaned) :
    IndexesHolds (index.insert (key row.hold) id) key (holds.insert id row) := by
  have hnone : index.get (key row.hold) = none := by
    refine hfree.resolve_right fun hentry => ?_
    obtain ⟨r, hr, -⟩ := (h _ _).mp hentry
    rw [hfresh] at hr
    cases hr
  intro k id'
  by_cases hid : id' = id
  · subst hid
    rw [Table.get_insert_self, Table.get_insert]
    constructor
    · intro hget
      split_ifs at hget with hk
      · exact ⟨row, rfl, hstate, hk.symm⟩
      · obtain ⟨r, hr, -⟩ := (h k id').mp hget
        rw [hfresh] at hr
        cases hr
    · rintro ⟨r, hr, -, hk⟩
      cases hr
      rw [if_pos hk.symm]
  · rw [Table.get_insert_of_ne _ _ hid, ← h k id', Table.get_insert]
    split_ifs with hk
    · subst hk
      rw [hnone]
      constructor
      · intro hget
        exact absurd (Option.some.inj hget).symm hid
      · intro hget
        cases hget
    · rfl

end

end

/-! ### Moves -/

theorem isLive_ne_cleaned {state : HoldState} (h : state.isLive = true) : state ≠ .cleaned := by
  rintro rfl
  cases h

theorem cleanable_not_live {state : HoldState} (h : isCleanable state = true) :
    state.isLive = false ∧ state ≠ .cleaned := by
  revert h
  cases state <;> decide

theorem leads_of_recharges (h : Recharges delta old new)
    (hretained : old.retainedDiskBytes = 0) (m : Metric) :
    Leads (Charge.get delta m) (chargeOf old m) (chargeOf new m) := by
  cases h with
  | observe amount charged charged' state predicted observed retained =>
    cases m <;> simp [Charge.get, observeCharge, chargeOf, Leads, *]
  | release charged released state retained =>
    cases m <;> simp [Charge.get, releaseCharge, chargeOf, Leads, *]

theorem leads_of_cleans (h : Cleans old new) (m : Metric) :
    Leads (Charge.get (cleanCharge old) m) (chargeOf old m) (chargeOf new m) := by
  obtain ⟨-, charged, -, predicted, observed, retained⟩ := h
  cases m <;> simp [Charge.get, cleanCharge, chargeOf, Leads, *]

theorem leads_of_opens (h : Opens new) (m : Metric) :
    Leads (Charge.get (reserveCharge new.predictedDiskBytes) m) 0 (chargeOf new m) := by
  obtain ⟨charged, -, observed, retained⟩ := h
  cases m <;> simp [Charge.get, reserveCharge, chargeOf, Leads, *]

theorem chargeOf_kept (h : KeepsCharge old new) : chargeOf new = chargeOf old := by
  obtain ⟨charged, charged', -, predicted, observed, retained⟩ := h
  funext m
  cases m <;> simp [chargeOf, *]

theorem Sound.rewrite (h : Sound lanes)
    (hrewrites : Rewrites lanes id row row') (hrow' : SoundRow id row')
    (hmeters : Meters.Exact meters (lanes.holds.insert id row'))
    (hstate : row.hold.state ≠ .cleaned) (hstate' : row'.hold.state ≠ .cleaned) :
    Sound (withRow row' meters lanes) := by
  obtain ⟨hrow, hsame, -⟩ := hrewrites
  have hholds : (withRow row' meters lanes).holds = lanes.holds.insert id row' := by
    rw [withRow, hrow'.own]
  refine ⟨?_, ?_, ?_, ?_, ?_, ?_⟩
  all_goals rw [hholds]
  · exact forall_insert h.rows hrow'
  · exact hmeters
  · exact h.lane.rewrite hrow hsame.lane hstate hstate'
  · exact h.branch.rewrite hrow hsame.branch hstate hstate'
  · exact h.worktree.rewrite hrow hsame.worktree hstate hstate'
  · exact h.workItem.rewrite hrow hsame.workItem hstate hstate'

theorem Sound.bounds (h : Sound lanes) (id : String) (row : DurableHold)
    (hrow : lanes.holds.get id = some row) :
    durableHoldBounds row = .ok () := (h.rows id row hrow).bounds

theorem Sound.keep (h : Sound lanes) (hrewrites : Rewrites lanes id row row')
    (hkeeps : KeepsCharge row.hold row'.hold) : Sound (withRow row' lanes.meters lanes) := by
  obtain ⟨hrow, hsame, hbounds⟩ := hrewrites
  have hold := h.rows id row hrow
  obtain ⟨hlive, hretained⟩ := hold.live hkeeps.charged
  have hlive' : row'.hold.state.isLive = true := by
    rcases hkeeps.state with hstate | hstate
    · rw [hstate, hlive]
    · rw [hstate]
      rfl
  have hshifts := shifts_replace hrow hsame
  rw [chargeOf_kept hkeeps] at hshifts
  refine h.rewrite ⟨hrow, hsame, hbounds⟩ ⟨hsame.holdId.trans hold.own, hbounds, fun _ => ?_⟩
    (h.meters.kept hshifts) (isLive_ne_cleaned hlive) (isLive_ne_cleaned hlive')
  exact ⟨hlive', hkeeps.retained.trans hretained⟩

theorem live_of_recharges (h : Recharges delta old new) :
    old.activeCountCharged = true ∧ (old.state ≠ .cleaned → new.state ≠ .cleaned) ∧
      (new.activeCountCharged = true →
        new.state = old.state ∧ new.retainedDiskBytes = old.retainedDiskBytes) := by
  cases h with
  | observe amount charged charged' state predicted observed retained =>
    exact ⟨charged, fun hold => state ▸ hold, fun _ => ⟨state, retained⟩⟩
  | release charged released state retained =>
    refine ⟨charged, fun _ => state, fun hcharged => ?_⟩
    rw [released] at hcharged
    cases hcharged

section
variable {row' : DurableHold} (h : Sound lanes) (hrewrites : Rewrites lanes id row row')
include h hrewrites

theorem Sound.charge (hrecharges : Recharges delta row.hold row'.hold)
    (hcharged : Charged row.hold.tenantRef row.hold delta revisions lanes.meters meters) :
    Sound (withRow row' meters lanes) := by
  obtain ⟨hrow, hsame, hbounds⟩ := hrewrites
  have hold := h.rows id row hrow
  obtain ⟨hwas, hstate', hnow⟩ := live_of_recharges hrecharges
  obtain ⟨hlive, hretained⟩ := hold.live hwas
  have hstate := isLive_ne_cleaned hlive
  have hexact := h.meters.charged h.bounds (forall_insert h.bounds hbounds) (tenant_clean hold.bounds)
    hcharged (shifts_replace hrow hsame) (leads_of_recharges hrecharges hretained)
  refine h.rewrite ⟨hrow, hsame, hbounds⟩ ⟨hsame.holdId.trans hold.own, hbounds, fun hactive => ?_⟩
    hexact hstate (hstate' hstate)
  obtain ⟨hsameState, hsameRetained⟩ := hnow hactive
  exact ⟨hsameState ▸ hlive, hsameRetained.trans hretained⟩

theorem Sound.clean (hcleans : Cleans row.hold row'.hold)
    (hcharged : Charged row.hold.tenantRef row.hold (cleanCharge row.hold) revisions lanes.meters
      meters) : Sound (withRow row' meters (dropIndexes row.hold lanes)) := by
  obtain ⟨hrow, hsame, hbounds⟩ := hrewrites
  have hold := h.rows id row hrow
  obtain ⟨hnotLive, hstate⟩ := cleanable_not_live hcleans.cleanable
  have hown : row'.hold.holdId = id := hsame.holdId.trans hold.own
  have hholds : (withRow row' meters (dropIndexes row.hold lanes)).holds = lanes.holds.insert id row' := by
    rw [withRow, hown]
    rfl
  refine ⟨?_, ?_, ?_, ?_, ?_, ?_⟩
  all_goals rw [hholds]
  · refine forall_insert h.rows ⟨hown, hbounds, fun hactive => ?_⟩
    rw [hcleans.charged] at hactive
    rw [(hold.live hactive).1] at hnotLive
    cases hnotLive
  · exact h.meters.charged h.bounds (forall_insert h.bounds hbounds) (tenant_clean hold.bounds) hcharged
      (shifts_replace hrow hsame) (leads_of_cleans hcleans)
  · exact h.lane.drop hrow hstate hcleans.state
  · exact h.branch.drop hrow hstate hcleans.state
  · exact h.worktree.drop hrow hstate hcleans.state
  · exact h.workItem.drop hrow hstate hcleans.state

end

theorem Sound.reserve (h : Sound lanes) (hadmits : Admits lanes row)
    (hcharged : Charged row.hold.tenantRef row.hold (reserveCharge row.hold.predictedDiskBytes)
      revisions lanes.meters meters) : Sound (withRow row meters (addIndexes row.hold lanes)) := by
  obtain ⟨hfresh, hbounds, hopens, hlane, hbranch, hworktree, hattempt, -, -⟩ := hadmits
  have hstate : row.hold.state ≠ .cleaned := by
    rw [hopens.state]
    decide
  refine ⟨?_, ?_, ?_, ?_, ?_, ?_⟩
  · refine forall_insert h.rows ⟨rfl, hbounds, fun _ => ⟨?_, hopens.retained⟩⟩
    rw [hopens.state]
    rfl
  · exact h.meters.charged h.bounds (forall_insert h.bounds hbounds) (tenant_clean hbounds) hcharged
      (shifts_insert hfresh) (leads_of_opens hopens)
  · exact h.lane.add hfresh hlane hstate
  · exact h.branch.add hfresh hbranch hstate
  · exact h.worktree.add hfresh hworktree hstate
  · exact h.workItem.add hfresh (.inl hattempt) hstate

/-- **Every move keeps the tables in agreement.** -/
theorem Sound.move {lanes' : Lanes} {m : Option Made} (h : Sound lanes)
    (hmove : Move lanes m lanes') : Sound lanes' := by
  cases hmove with
  | policies policies => exact ⟨h.rows, h.meters, h.lane, h.branch, h.worktree, h.workItem⟩
  | keep rewrites keeps => exact h.keep rewrites keeps
  | charge rewrites recharges bounded charged => exact h.charge rewrites recharges charged
  | clean rewrites cleans bounded charged => exact h.clean rewrites cleans charged
  | reserve admits bounded charged => exact h.reserve admits charged

theorem Sound.step (ctx : Context) {s : State} (op : Op) (h : Sound s.lanes) :
    Sound (step ctx s op).lanes := by
  rcases step_moves ctx s op with hmove | ⟨m, -, hmove⟩
  · exact h.move hmove
  · exact h.move hmove

theorem sound_run (ctx : Context) (ledger : Resource.Admission.Ledger) (invocations : Invocations)
    (ops : List Op) : Sound (run ctx ⟨ledger, .fresh, invocations⟩ ops).lanes :=
  Transaction.run_invariant (I := fun s : State => Sound s.lanes) (fun _ op h => h.step ctx op) ops _
    sound_fresh

/-! ### The pressure index -/

def counterValue (lanes : Lanes) (s : Scope) (hold : Hold) (m : Metric) : ℕ :=
  (counterOf lanes.meters.counters s hold).get m

theorem exists_of_slotTotal {group : String × String × String}
    (h : 0 < slotTotal holds (group, key)) : ∃ id row s name m, holds.get id = some row ∧
      pressureScopeName s = some name ∧
      (group, key) = slotOf row.hold.tenantRef name m (scopeKey s row.hold) := by
  obtain ⟨id, row, hrow, hpos⟩ := total_pos.mp h
  unfold slotAmount at hpos
  split at hpos
  · rename_i s m hscope hmetric
    split_ifs at hpos with hslot
    · refine ⟨id, row, s, group.2.1, m, hrow, scopeOfName_eq.mp hscope, ?_⟩
      rw [slotOf, hslot.1, hslot.2, metricOfName_eq.mp hmetric]
    · exact absurd hpos (lt_irrefl 0)
  · exact absurd hpos (lt_irrefl 0)

theorem Sound.slotTotal_eq (h : Sound lanes) (m : Metric) (hrow : lanes.holds.get id = some row)
    (hlocal : pressureScopeName s = some name) :
    slotTotal lanes.holds (slotOf row.hold.tenantRef name m (scopeKey s row.hold)) =
      counterValue lanes s row.hold m :=
  (slotTotal_eq_scopeTotal m h.bounds hlocal (tenant_clean (h.bounds id row hrow))).trans
    (h.meters.counters s row.hold m).symm

/-- **One row of the index for every value of a local counter that is not zero.** -/
theorem Sound.pressure_iff (h : Sound lanes) (key : PressureKey) :
    lanes.meters.pressure.get key = some () ↔
      ∃ id row s name m, lanes.holds.get id = some row ∧ pressureScopeName s = some name ∧
        0 < counterValue lanes s row.hold m ∧
        key = pressureKey row.hold.tenantRef name (pressureMetricName m)
          (counterValue lanes s row.hold m) (scopeKey s row.hold) := by
  constructor
  · intro hget
    obtain ⟨group, v, k, rfl⟩ := h.meters.pressure.only key hget
    obtain ⟨hpos, hv⟩ := (h.meters.pressure.rows group v k).mp hget
    rw [hv] at hpos
    obtain ⟨id, row, s, name, m, hrow, hlocal, hslot⟩ := exists_of_slotTotal hpos
    have hvalue := h.slotTotal_eq m hrow hlocal
    rw [← hslot, ← hv] at hvalue
    rw [← hv] at hpos
    obtain ⟨rfl, rfl⟩ := Prod.mk.inj hslot
    refine ⟨id, row, s, name, m, hrow, hlocal, hvalue ▸ hpos, ?_⟩
    rw [← hvalue]
    rfl
  · rintro ⟨id, row, s, name, m, hrow, hlocal, hpos, rfl⟩
    refine (h.meters.pressure.rows (row.hold.tenantRef, name, pressureMetricName m) _ _).mpr ⟨hpos, ?_⟩
    exact (h.slotTotal_eq m hrow hlocal).symm

theorem pressureValue_key (tenant scope metric t n m k : String) (v : ℕ) :
    pressureValue tenant scope metric (pressureKey t n m v k) =
      if t = tenant ∧ n = scope ∧ m = metric then some v else none := rfl

theorem pressureValue_some {tenant scope metric : String} {key : PressureKey} {v : ℕ}
    (h : pressureValue tenant scope metric key = some v) :
    ∃ k, key = pressureKey tenant scope metric v k := by
  obtain ⟨t, n, m, w, k⟩ := key
  change (if t = tenant ∧ n = scope ∧ m = metric then some w else none) = some v at h
  split_ifs at h with hsame
  obtain ⟨rfl, rfl, rfl⟩ := hsame
  cases h
  exact ⟨k, rfl⟩

theorem pressureValue_mono {tenant scope metric : String} {key key' : PressureKey} {v v' : ℕ}
    (hv : pressureValue tenant scope metric key = some v)
    (hv' : pressureValue tenant scope metric key' = some v') (hlt : key < key') : v ≤ v' := by
  obtain ⟨k, rfl⟩ := pressureValue_some hv
  obtain ⟨k', rfl⟩ := pressureValue_some hv'
  refine not_lt.mp fun hgreater => absurd hlt (not_lt.mpr (le_of_lt ?_))
  refine Prod.Lex.lt_iff.mpr (.inr ⟨rfl, Prod.Lex.lt_iff.mpr (.inr ⟨rfl, ?_⟩)⟩)
  exact Prod.Lex.lt_iff.mpr (.inr ⟨rfl, Prod.Lex.lt_iff.mpr (.inl hgreater)⟩)

def tenantValues (lanes : Lanes) (tenant : String) (s : Scope) (m : Metric) : Set ℕ :=
  { v | v = 0 ∨ ∃ id row, lanes.holds.get id = some row ∧ row.hold.tenantRef = tenant ∧
    v = counterValue lanes s row.hold m }

/-- **The greatest indexed value is the greatest value of a counter.** -/
theorem Sound.pressureMax_greatest (h : Sound lanes) (hlocal : pressureScopeName s = some name)
    (tenant : String) (m : Metric) :
    IsGreatest (tenantValues lanes tenant s m) (pressureMax lanes.meters.pressure tenant s m) := by
  have hmax : pressureMax lanes.meters.pressure tenant s m =
      greatest (pressureValue tenant name (pressureMetricName m)) lanes.meters.pressure := by
    unfold pressureMax
    rw [hlocal]
    rfl
  rw [hmax]
  constructor
  · rcases greatest_mem (pressureValue tenant name (pressureMetricName m)) lanes.meters.pressure with
      hzero | ⟨key, hkey, hvalue⟩
    · exact .inl hzero
    · obtain ⟨id, row, s', name', m', hrow, hlocal', -, rfl⟩ := (h.pressure_iff key).mp hkey
      rw [pressureValue_key] at hvalue
      split_ifs at hvalue with hsame
      obtain ⟨htenant, rfl, hmetric⟩ := hsame
      have hscope : s' = s := Option.some.inj
        ((scopeOfName_eq.mpr hlocal').symm.trans (scopeOfName_eq.mpr hlocal))
      have hm : m' = m := Option.some.inj
        ((metricOfName_eq.mpr hmetric).symm.trans (metricOfName_eq.mpr rfl))
      subst hscope
      subst hm
      exact .inr ⟨id, row, hrow, htenant, (Option.some.inj hvalue).symm⟩
  · rintro v (rfl | ⟨id, row, hrow, rfl, rfl⟩)
    · exact Nat.zero_le _
    · rcases Nat.eq_zero_or_pos (counterValue lanes s row.hold m) with hzero | hpos
      · rw [hzero]
        exact Nat.zero_le _
      · refine le_greatest (k := pressureKey row.hold.tenantRef name (pressureMetricName m)
          (counterValue lanes s row.hold m) (scopeKey s row.hold)) pressureValue_mono ?_ ?_
        · exact (h.pressure_iff _).mpr ⟨id, row, s, name, m, hrow, hlocal, hpos, rfl⟩
        · rw [pressureValue_key, if_pos ⟨rfl, rfl, rfl⟩]

/-! ### Exactness -/

/-- **The accounting of the lanes is exact.** -/
structure Exact (lanes : Lanes) : Prop where
  counters : ∀ s hold m, counterValue lanes s hold m = scopeTotal lanes.holds s (scopeKey s hold) m
  pressure : ∀ key, lanes.meters.pressure.get key = some () ↔
    ∃ id row s name m, lanes.holds.get id = some row ∧ pressureScopeName s = some name ∧
      0 < counterValue lanes s row.hold m ∧
      key = pressureKey row.hold.tenantRef name (pressureMetricName m)
        (counterValue lanes s row.hold m) (scopeKey s row.hold)
  greatest : ∀ tenant s m, s ≠ .tenant → s ≠ .global →
    IsGreatest (tenantValues lanes tenant s m) (pressureMax lanes.meters.pressure tenant s m)
  lane : IndexesHolds lanes.laneIndex laneIndexKey lanes.holds
  branch : IndexesHolds lanes.branchIndex branchIndexKey lanes.holds
  worktree : IndexesHolds lanes.worktreeIndex worktreeKey lanes.holds
  workItem : IndexesHolds lanes.workItemIndex attemptKey lanes.holds

theorem Sound.exact (h : Sound lanes) : Exact lanes := by
  refine ⟨h.meters.counters, h.pressure_iff, fun tenant s m htenant hglobal => ?_, h.lane, h.branch,
    h.worktree, h.workItem⟩
  cases hlocal : pressureScopeName s with
  | some name => exact h.pressureMax_greatest hlocal tenant m
  | none =>
    cases s with
    | tenant => exact absurd rfl htenant
    | global => exact absurd rfl hglobal
    | _ => cases hlocal

/-- **Lane quota accounting is exact** after every run of the operations on a graph without lanes,
whatever WorkItems and reservations it has. -/
theorem lane_accounting_exact (ctx : Context) (ledger : Resource.Admission.Ledger)
    (invocations : Invocations) (ops : List Op) :
    Exact (run ctx ⟨ledger, .fresh, invocations⟩ ops).lanes :=
  (sound_run ctx ledger invocations ops).exact

end Medulla.Lane.Accounting
