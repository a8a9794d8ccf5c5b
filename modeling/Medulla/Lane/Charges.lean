import Medulla.Lane.Tables
import Medulla.Library.ValueIndex

/-! # Charges and counters

The keys of the scopes of one hold are different from each other, and the key of a scope below the graph
says which tenant it is of: a charge is therefore a change of seven rows, each by the delta of its
metric, and of the twenty rows of the index that are about them. -/

namespace Medulla.Lane.Charges

open Library.Checked Library.OrderedTable Library.ValueIndex Holds Quota Tables

variable {s : Scope} {hold : Hold} {name tenant : String} {delta : Charge} {revisions : Revisions}
  {value : Scope → Counter}

/-! ### Keys of scopes -/

def firstField (cs : List Char) : List Char := cs.takeWhile (· ≠ '\x00')

theorem firstField_append {field rest : List Char} (h : '\x00' ∉ field) :
    firstField (field ++ '\x00' :: rest) = field := by
  unfold firstField
  have hfield : ∀ c ∈ field, decide (c ≠ '\x00') = true := by
    intro c hc
    rw [decide_eq_true_eq]
    rintro rfl
    exact h hc
  rw [List.takeWhile_append_of_pos hfield, List.takeWhile_cons_of_neg (by simp), List.append_nil]

def scopeName : Scope → String
  | .tenant => "tenant"
  | .owner => "owner"
  | .session => "session"
  | .workspace => "workspace"
  | .repository => "repository"
  | .host => "host"
  | .global => "global"

theorem scopeName_inj {s' : Scope} (h : (scopeName s).toList = (scopeName s').toList) : s = s' := by
  revert h
  cases s <;> cases s' <;> decide

def scopeRest (scope : Scope) (hold : Hold) : List Char :=
  match scope with
  | .global => ['*']
  | _ => hold.tenantRef.toList ++ '\x00' :: (scopeValue hold scope).2.toList

theorem scopeKey_toList (scope : Scope) (hold : Hold) :
    (scopeKey scope hold).toList = (scopeName scope).toList ++ '\x00' :: scopeRest scope hold := by
  cases scope <;> simp [scopeKey, scopeName, scopeRest, scopeValue]

theorem firstField_scopeKey (scope : Scope) (hold : Hold) :
    firstField (scopeKey scope hold).toList = (scopeName scope).toList := by
  rw [scopeKey_toList]
  exact firstField_append (by cases scope <;> decide)

/-- **The keys of two scopes are different**, also of two holds. -/
theorem scope_of_scopeKey {s' : Scope} {hold' : Hold} (h : scopeKey s hold = scopeKey s' hold') :
    s = s' := by
  refine scopeName_inj ?_
  rw [← firstField_scopeKey s hold, ← firstField_scopeKey s' hold', h]

/-- The scopes that the pressure index is about, with their names there. -/
def localScopes : List (Scope × String) :=
  [(.owner, "owner"), (.session, "session"), (.workspace, "workspace"), (.repository, "repository"),
    (.host, "host")]

theorem mem_localScopes {scope : Scope} :
    (scope, name) ∈ localScopes ↔ pressureScopeName scope = some name := by
  cases scope <;> simp [localScopes, pressureScopeName, eq_comm]

/-- **The key of a local scope says the tenant.** -/
theorem tenant_of_scopeKey {hold' : Hold} (hlocal : pressureScopeName s = some name)
    (hclean : '\x00' ∉ hold.tenantRef.toList) (hclean' : '\x00' ∉ hold'.tenantRef.toList)
    (h : scopeKey s hold = scopeKey s hold') : hold.tenantRef = hold'.tenantRef := by
  have hlist := congrArg String.toList h
  rw [scopeKey_toList, scopeKey_toList] at hlist
  have hrest := List.cons_injective (List.append_cancel_left hlist)
  have hfield : ∀ hold₁ : Hold, '\x00' ∉ hold₁.tenantRef.toList →
      firstField (scopeRest s hold₁) = hold₁.tenantRef.toList := by
    intro hold₁ hclean₁
    cases s with
    | tenant => cases hlocal
    | global => cases hlocal
    | _ => exact firstField_append hclean₁
  refine String.toList_injective ?_
  rw [← hfield hold hclean, ← hfield hold' hclean', hrest]

/-! ### Deltas -/

def Charge.get (charge : Charge) : Metric → Option Delta
  | .count => charge.active.map fun increase => ⟨increase, 1⟩
  | .predicted => charge.predicted
  | .observed => charge.observed
  | .retained => charge.retained

/-- A charge leads from one value to another. -/
def Leads : Option Delta → ℕ → ℕ → Prop
  | none, a, b => b = a
  | some ⟨true, amount⟩, a, b => b = a + amount
  | some ⟨false, amount⟩, a, b => a = b + amount

theorem adjust_ok {value value' : ℕ} {delta : Option Delta}
    (h : adjust value delta name = .ok value') : Leads delta value value' := by
  unfold adjust at h
  split at h
  · cases h
    rfl
  · exact (checkedAdd_eq_some.mp (okOr_eq_ok.mp h)).1.symm
  · obtain ⟨hle, rfl⟩ := checkedSub_eq_some.mp (okOr_eq_ok.mp h)
    exact (Nat.sub_add_cancel hle).symm

/-- A counter before and after a charge. -/
structure ChargedCounter (delta : Charge) (revisions : Revisions) (scope : Scope)
    (old new : Counter) : Prop where
  metric : ∀ m, Leads (Charge.get delta m) (old.get m) (new.get m)
  revision : new.revision = old.revision + 1
  policyRevision : new.policyRevision =
    if scope = .global then old.policyRevision else revisions.tenant
  globalPolicyRevision : new.globalPolicyRevision =
    if scope = .global then revisions.global else old.globalPolicyRevision

theorem chargeCounter_ok {row next : ScopeCounter}
    (h : chargeCounter delta revisions row = .ok next) :
    next.key = row.key ∧ next.scope = row.scope ∧
      ChargedCounter delta revisions row.scope row.value next.value := by
  obtain ⟨activeCount, hactive, h⟩ := unbind h
  obtain ⟨predicted, hpredicted, h⟩ := unbind h
  obtain ⟨observed, hobserved, h⟩ := unbind h
  obtain ⟨retained, hretained, h⟩ := unbind h
  obtain ⟨revision, hrevision, h⟩ := unbind h
  cases h
  refine ⟨rfl, rfl, fun m => ?_, (checkedAdd_eq_some.mp (okOr_eq_ok.mp hrevision)).1.symm, rfl, rfl⟩
  cases m with
  | count => exact adjust_ok hactive
  | predicted => exact adjust_ok hpredicted
  | observed => exact adjust_ok hobserved
  | retained => exact adjust_ok hretained

/-! ### Counters of a hold -/

def counterOf (counters : Counters) (scope : Scope) (hold : Hold) : Counter :=
  (counters.get (scopeKey scope hold)).getD {}

def scopeRows (hold : Hold) (value : Scope → Counter) (ss : List Scope) : List ScopeCounter :=
  ss.map fun s => ⟨scopeKey s hold, s, value s⟩

theorem loadCounter_ok {counters : Counters} {key : String} {scope : Scope} {value : Counter}
    (h : loadCounter counters key scope revisions = .ok value) :
    value = (counters.get key).getD {} := by
  unfold loadCounter at h
  split at h
  · rename_i hget
    obtain ⟨_, -, h⟩ := unbind h
    cases h
    rw [hget]
    rfl
  · rename_i stored hget
    obtain ⟨_, -, h⟩ := unbind h
    obtain ⟨_, -, h⟩ := unbind h
    cases h
    rw [hget]
    rfl

theorem loadScopes_ok {counters : Counters} : ∀ {ss : List Scope} {loaded : List ScopeCounter},
      loadScopes counters hold revisions ss = .ok loaded →
        loaded = scopeRows hold (fun s => counterOf counters s hold) ss
  | [], _, h => by
    cases h
    rfl
  | s :: ss, _, h => by
    obtain ⟨value, hvalue, h⟩ := unbind h
    obtain ⟨rest, hrest, h⟩ := unbind h
    cases h
    rw [loadScopes_ok hrest, loadCounter_ok hvalue]
    rfl

def chargedValue (hold : Hold) (delta : Charge) (revisions : Revisions) (value : Scope → Counter)
    (s : Scope) : Counter :=
  match chargeCounter delta revisions ⟨scopeKey s hold, s, value s⟩ with
  | .ok row => row.value
  | .error _ => value s

theorem chargedValue_ok {next : ScopeCounter}
    (h : chargeCounter delta revisions ⟨scopeKey s hold, s, value s⟩ = .ok next) :
    next = ⟨scopeKey s hold, s, chargedValue hold delta revisions value s⟩ ∧
      ChargedCounter delta revisions s (value s) (chargedValue hold delta revisions value s) := by
  obtain ⟨hkey, hscope, hcharged⟩ := chargeCounter_ok h
  have hvalue : chargedValue hold delta revisions value s = next.value := by
    unfold chargedValue
    rw [h]
  rw [hvalue]
  refine ⟨?_, hcharged⟩
  obtain ⟨key, scope, nextValue⟩ := next
  cases hkey
  cases hscope
  rfl

def pressureScopes (tenant : String) (hold : Hold) (old new : Scope → Counter) (ss : List Scope)
    (pressure : Pressure) : Pressure :=
  ss.foldl (fun index s => pressureCounter tenant ⟨scopeKey s hold, s, old s⟩
    ⟨scopeKey s hold, s, new s⟩ index) pressure

theorem chargeAll_ok : ∀ {ss : List Scope} {meters meters' : Meters} {charged : List ScopeCounter},
      chargeAll tenant delta revisions (scopeRows hold value ss) meters = .ok (charged, meters') →
        charged = scopeRows hold (chargedValue hold delta revisions value) ss ∧
          (∀ s ∈ ss, ChargedCounter delta revisions s (value s)
            (chargedValue hold delta revisions value s)) ∧
          meters' = ⟨meters.counters, pressureScopes tenant hold value
            (chargedValue hold delta revisions value) ss meters.pressure⟩
  | [], meters, _, _, h => by
    cases h
    exact ⟨rfl, (fun s hs => nomatch hs), rfl⟩
  | s :: ss, meters, _, _, h => by
    obtain ⟨next, hnext, h⟩ := unbind h
    obtain ⟨⟨rest, meters₁⟩, hrest, h⟩ := unbind h
    cases h
    obtain ⟨rfl, hcharged⟩ := chargedValue_ok hnext
    obtain ⟨rfl, hall, rfl⟩ := chargeAll_ok hrest
    refine ⟨rfl, fun s' hs' => ?_, rfl⟩
    rcases List.mem_cons.mp hs' with rfl | hs'
    · exact hcharged
    · exact hall s' hs'

theorem get_putCounters_of_ne {key : String} :
    ∀ {ss : List Scope} {counters : Counters}, (∀ s ∈ ss, key ≠ scopeKey s hold) →
      (putCounters (scopeRows hold value ss) counters).get key = counters.get key
  | [], _, _ => rfl
  | s :: ss, counters, h => by
    have hrest : ∀ s' ∈ ss, key ≠ scopeKey s' hold := fun s' hs' => h s' (.tail s hs')
    change (putCounters (scopeRows hold value ss) (counters.insert (scopeKey s hold) (value s))).get
      key = _
    rw [get_putCounters_of_ne hrest, Table.get_insert_of_ne _ _ (h s List.mem_cons_self)]

theorem get_putCounters : ∀ {ss : List Scope} {counters : Counters}, s ∈ ss →
      (putCounters (scopeRows hold value ss) counters).get (scopeKey s hold) = some (value s)
  | s' :: ss, counters, hs => by
    change (putCounters (scopeRows hold value ss) (counters.insert (scopeKey s' hold) (value s'))).get
      (scopeKey s hold) = _
    by_cases hmem : s ∈ ss
    · exact get_putCounters hmem
    · have hhead : s = s' := (List.mem_cons.mp hs).resolve_right hmem
      subst hhead
      have hne : ∀ s' ∈ ss, scopeKey s hold ≠ scopeKey s' hold := by
        intro s' hs' hkey
        exact hmem (scope_of_scopeKey hkey ▸ hs')
      rw [get_putCounters_of_ne hne, Table.get_insert_self]

theorem mem_scopes (s : Scope) : s ∈ scopes := by
  cases s <;> decide

/-! ### The pressure index -/

def metrics : List Metric := [.count, .predicted, .observed, .retained]

theorem mem_metrics (m : Metric) : m ∈ metrics := by
  cases m <;> decide

/-- A row of the index: the tenant, the scope and the metric, the value, and the counter. -/
def slotKey (group : String × String × String) (value : ℕ) (counterKey : String) : PressureKey :=
  pressureKey group.1 group.2.1 group.2.2 value counterKey

theorem slotKey_injects : Injects slotKey := by
  rintro ⟨t, n, m⟩ ⟨t', n', m'⟩ v v' k k' h
  have hkey := toLex.injective h
  obtain ⟨rfl, h₁⟩ := Prod.mk.inj hkey
  obtain ⟨rfl, h₂⟩ := Prod.mk.inj (toLex.injective h₁)
  obtain ⟨rfl, h₃⟩ := Prod.mk.inj (toLex.injective h₂)
  obtain ⟨rfl, rfl⟩ := Prod.mk.inj (toLex.injective h₃)
  exact ⟨rfl, rfl, rfl⟩

/-- The place of a metric of a local scope of a hold. -/
def slotOf (tenant name : String) (m : Metric) (key : String) : (String × String × String) × String :=
  ((tenant, name, pressureMetricName m), key)

/-- The changes of the pressure index that a charge makes. -/
def pressureChanges (tenant : String) (hold : Hold) (old new : Scope → Counter) :
    List (Change (String × String × String) String) :=
  localScopes.flatMap fun s => metrics.map fun m =>
    ⟨slotOf tenant s.2 m (scopeKey s.1 hold), (old s.1).get m, (new s.1).get m⟩

theorem pressureScopes_eq (tenant : String) (hold : Hold) (old new : Scope → Counter)
    (pressure : Pressure) : pressureScopes tenant hold old new scopes pressure =
      replaceAll slotKey (pressureChanges tenant hold old new) pressure := rfl

theorem mem_pressureChanges {old new : Scope → Counter}
    {c : Change (String × String × String) String} :
    c ∈ pressureChanges tenant hold old new ↔ ∃ s name m, pressureScopeName s = some name ∧
      c = ⟨slotOf tenant name m (scopeKey s hold), (old s).get m, (new s).get m⟩ := by
  unfold pressureChanges
  rw [List.mem_flatMap]
  constructor
  · rintro ⟨⟨s, name⟩, hs, hc⟩
    obtain ⟨m, -, rfl⟩ := List.mem_map.mp hc
    exact ⟨s, name, m, mem_localScopes.mp hs, rfl⟩
  · rintro ⟨s, name, m, hs, rfl⟩
    exact ⟨(s, name), mem_localScopes.mpr hs, List.mem_map.mpr ⟨m, mem_metrics m, rfl⟩⟩

theorem nodup_pressureChanges (tenant : String) (hold : Hold) (old new : Scope → Counter) :
    ((pressureChanges tenant hold old new).map Change.slot).Nodup := by
  refine List.Nodup.of_map (fun slot => (slot.1.2.1, slot.1.2.2)) ?_
  change (localScopes.flatMap fun s => metrics.map fun m => (s.2, pressureMetricName m)).Nodup
  decide

/-! ### A charge as a whole -/

/-- **What a charge of a hold changes**: the counters of its scopes, and the rows of the index about
them. -/
structure Charged (tenant : String) (hold : Hold) (delta : Charge) (revisions : Revisions)
    (meters meters' : Meters) : Prop where
  counter : ∀ s, ChargedCounter delta revisions s (counterOf meters.counters s hold)
    (counterOf meters'.counters s hold)
  rest : ∀ key, (∀ s, key ≠ scopeKey s hold) → meters'.counters.get key = meters.counters.get key
  pressure : meters'.pressure = replaceAll slotKey
    (pressureChanges tenant hold (fun s => counterOf meters.counters s hold)
      fun s => counterOf meters'.counters s hold) meters.pressure

theorem applyCounterDelta_ok {meters meters' : Meters} {loaded : List ScopeCounter}
    (hloaded : loadScopeCounters meters.counters hold revisions = .ok loaded)
    (h : applyCounterDelta tenant loaded delta revisions meters = .ok meters') :
    Charged tenant hold delta revisions meters meters' := by
  obtain rfl := loadScopes_ok hloaded
  obtain ⟨⟨charged, meters₁⟩, hall, h⟩ := unbind h
  obtain ⟨rfl, hcharged, rfl⟩ := chargeAll_ok hall
  cases h
  have hnext : ∀ s, counterOf (putCounters (scopeRows hold (chargedValue hold delta revisions
      fun s => counterOf meters.counters s hold) scopes) meters.counters) s hold =
        chargedValue hold delta revisions (fun s => counterOf meters.counters s hold) s := by
    intro s
    unfold counterOf
    rw [get_putCounters (mem_scopes s)]
    rfl
  refine ⟨fun s => ?_, fun key hkey => get_putCounters_of_ne fun s _ => hkey s, ?_⟩
  · dsimp only
    rw [hnext]
    exact hcharged s (mem_scopes s)
  · dsimp only
    rw [funext hnext]
    exact pressureScopes_eq _ _ _ _ _

theorem charge_ok {lanes lanes' : Lanes} (h : charge tenant hold delta revisions lanes = .ok lanes') :
    ∃ meters, lanes' = { lanes with meters := meters } ∧
      Charged tenant hold delta revisions lanes.meters meters := by
  obtain ⟨loaded, hloaded, h⟩ := unbind h
  obtain ⟨meters, hmeters, h⟩ := unbind h
  cases h
  exact ⟨meters, rfl, applyCounterDelta_ok hloaded hmeters⟩

end Medulla.Lane.Charges
