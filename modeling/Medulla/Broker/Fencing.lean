import Medulla.Library.Journal
import Medulla.Broker.Courses

/-! # Delivery tags fence deliveries

The journal says who holds a delivery: the claim of a tag stands as long as nothing that ends a
delivery of the same message was written after it. A tag is answered only where the message row still
carries it, and a row carries a tag only while the claim of that tag stands; the lookup row adds whose
claim it was.

* one move: `Fence.move`;
* every run: `deliveries_fenced`. -/

namespace Medulla.Broker.Fencing

open Library.OrderedTable Library.Journal Library.Transaction Resource.Extension Index.Changes
open Rows Delivery Queues Ids Moves Courses

variable {journal : List Event} {id consumer : String} {tag : ℤ} {v : Json} {e : Event}
  {o properties : Fields} {now : ℕ} {request : BrokerClaimRequest} {claim : BrokerClaim} {R : Rules}

/-! ### What the journal says -/

def Ends (id : String) : Event → Prop
  | .claimed i _ _ => i = id
  | .acked i _ _ => i = id
  | .requeued i _ _ => i = id
  | .nacked i _ _ => i = id
  | .released i _ => i = id
  | .deadLettered i _ _ _ => i = id
  | _ => False

/-- The consumer received the tag for the message, and nothing has ended that delivery since. -/
def Holds (journal : List Event) (id : String) (tag : ℤ) (consumer : String) : Prop :=
  Stands (Ends id) (.claimed id tag consumer) journal

def claimTag : Event → Option ℤ
  | .claimed _ tag _ => some tag
  | _ => none

def claimTags (journal : List Event) : List ℤ := journal.filterMap claimTag

/-- A message was acknowledged, nacked for good, or dead-lettered after its expiry. -/
def Settled (journal : List Event) (id : String) : Prop :=
  (∃ tag consumer, .acked id tag consumer ∈ journal) ∨
    (∃ tag consumer, .nacked id tag consumer ∈ journal) ∨
      ∃ ea now, .deadLettered id "expired" (some ea) now ∈ journal ∧ ea ≤ now

theorem Settled.append (h : Settled journal id) (es : List Event) : Settled (journal ++ es) id := by
  rcases h with ⟨tag, consumer, h⟩ | ⟨tag, consumer, h⟩ | ⟨ea, now, h, hle⟩
  · exact Or.inl ⟨tag, consumer, List.mem_append_left _ h⟩
  · exact Or.inr (Or.inl ⟨tag, consumer, List.mem_append_left _ h⟩)
  · exact Or.inr (Or.inr ⟨ea, now, List.mem_append_left _ h, hle⟩)

theorem mem_claimTags (h : .claimed id tag consumer ∈ journal) : tag ∈ claimTags journal :=
  List.mem_filterMap.mpr ⟨_, h, rfl⟩

/-! ### The invariant -/

structure Fence (core : Core) : Prop where
  tidy : Tidy core
  last : ∃ last, brokerLastDeliveryTag core = some last ∧ 0 ≤ last ∧
    ∀ t ∈ claimTags core.journal, t ≤ last
  increasing : (claimTags core.journal).Pairwise (· < ·)
  lookups : ∀ t request, core.nodes.get (dtagLookupNodeId t) = some (lookupProps request) →
    .claimed request.nodeId t request.consumer ∈ core.journal
  stands : ∀ id t c, .claimed id t c ∈ core.journal → Carries core id t → Holds core.journal id t c
  claims : ∀ id t c, .claimed id t c ∈ core.journal → IsMessage id
  messages : ∀ id, .enqueued id ∈ core.journal → IsMessage id
  once : ∀ id, IsMessage id → core.journal.count (.removed id) ≤ 1
  settled : ∀ id, IsMessage id → .removed id ∈ core.journal → Settled core.journal id
  kept : ∀ id, .enqueued id ∈ core.journal → .removed id ∉ core.journal → core.hasNode id = true

/-- A step that claims and appends nothing: what it writes into the journal, and what it may do to
the rows. -/
structure Quiet (core core' : Core) (es : List Event) : Prop where
  journal : core'.journal = core.journal ++ es
  noClaim : ∀ e ∈ es, claimTag e = none
  noAppend : ∀ id, .enqueued id ∉ es
  counter : core'.nodes.get dtagSeqNodeId = core.nodes.get dtagSeqNodeId
  lookups : ∀ t v, core'.nodes.get (dtagLookupNodeId t) = some v →
    core.nodes.get (dtagLookupNodeId t) = some v
  carries : ∀ id t, Carries core' id t → Carries core id t ∧ ∀ e ∈ es, ¬ Ends id e
  removed : ∀ id, IsMessage id → .removed id ∈ es →
    es.count (.removed id) = 1 ∧ core.hasNode id = true ∧ Settled es id
  kept : ∀ id, IsMessage id → core.hasNode id = true → core'.hasNode id = true ∨ .removed id ∈ es

theorem brokerLastDeliveryTag_congr {core core' : Core}
    (h : core'.nodes.get dtagSeqNodeId = core.nodes.get dtagSeqNodeId) :
    brokerLastDeliveryTag core' = brokerLastDeliveryTag core := by
  unfold brokerLastDeliveryTag
  rw [nodeRowMap_congr h]

theorem claimTags_append_quiet {es : List Event} (h : ∀ e ∈ es, claimTag e = none) :
    claimTags (journal ++ es) = claimTags journal := by
  unfold claimTags
  rw [List.filterMap_append, List.filterMap_eq_nil_iff.mpr h, List.append_nil]

variable {core core' : Core}

theorem Fence.quiet (h : Fence core) (htidy : Tidy core') (es : List Event)
    (hq : Quiet core core' es) : Fence core' := by
  have hold : ∀ {id t c}, .claimed id t c ∈ core'.journal → .claimed id t c ∈ core.journal := by
    intro id t c hmem
    rw [hq.journal] at hmem
    rcases List.mem_append.mp hmem with hmem | hmem
    · exact hmem
    · exact absurd (hq.noClaim _ hmem) nofun
  have happended : ∀ {id}, .enqueued id ∈ core'.journal → .enqueued id ∈ core.journal := by
    intro id hmem
    rw [hq.journal] at hmem
    rcases List.mem_append.mp hmem with hmem | hmem
    · exact hmem
    · exact absurd hmem (hq.noAppend id)
  have htags : claimTags core'.journal = claimTags core.journal := by
    rw [hq.journal, claimTags_append_quiet hq.noClaim]
  refine ⟨htidy, ?_, ?_, fun t request hget => ?_, fun id t c hmem hcarries => ?_,
    fun id t c hmem => h.claims id t c (hold hmem), fun id hmem => h.messages id (happended hmem),
    fun id hid => ?_, fun id hid hmem => ?_, fun id hmem hnot => ?_⟩
  · rw [brokerLastDeliveryTag_congr hq.counter, htags]
    exact h.last
  · rw [htags]
    exact h.increasing
  · rw [hq.journal]
    exact List.mem_append_left _ (h.lookups t request (hq.lookups t _ hget))
  · obtain ⟨hcarries', hends⟩ := hq.carries id t hcarries
    rw [hq.journal]
    exact (h.stands id t c (hold hmem) hcarries').append hends
  · rw [hq.journal, List.count_append]
    by_cases hmem : .removed id ∈ es
    · obtain ⟨hcount, hhas, -⟩ := hq.removed id hid hmem
      have hnot : .removed id ∉ core.journal := by
        intro hgone
        rw [Core.hasNode, h.tidy.gone id hid hgone] at hhas
        cases hhas
      rw [List.count_eq_zero_of_not_mem hnot, hcount]
    · rw [List.count_eq_zero_of_not_mem hmem]
      exact h.once id hid
  · rw [hq.journal] at hmem ⊢
    rcases List.mem_append.mp hmem with hmem | hmem
    · exact (h.settled id hid hmem).append es
    · obtain ⟨-, -, hsettled⟩ := hq.removed id hid hmem
      rcases hsettled with ⟨tag, consumer, he⟩ | ⟨tag, consumer, he⟩ | ⟨ea, now, he, hle⟩
      · exact Or.inl ⟨tag, consumer, List.mem_append_right _ he⟩
      · exact Or.inr (Or.inl ⟨tag, consumer, List.mem_append_right _ he⟩)
      · exact Or.inr (Or.inr ⟨ea, now, List.mem_append_right _ he, hle⟩)
  · rw [hq.journal, List.mem_append, not_or] at hnot
    have hmem' := happended hmem
    have hhas := h.kept id hmem' hnot.1
    exact (hq.kept id (h.messages id hmem') hhas).resolve_right hnot.2

/-! ### The quiet moves -/

theorem not_carries_of_absent {t : ℤ} (h : core.nodes.get id = none) : ¬ Carries core id t := by
  intro hcarries
  obtain ⟨v, hv⟩ := hcarries.present
  rw [h] at hv
  cases hv

theorem hasNode_congr (h : core'.nodes.get id = core.nodes.get id) :
    core'.hasNode id = core.hasNode id := by
  unfold Core.hasNode
  rw [h]

theorem hasNode_of_get (h : core.nodes.get id = some v) :
    core.hasNode id = true := (hasNode_iff core id).mpr ⟨v, h⟩

theorem removal_of_get (h : core.nodes.get id = some v) : removal core id = [.removed id] := by
  rw [removal, if_pos (hasNode_of_get h)]

theorem removal_of_absent (h : core.nodes.get id = none) : removal core id = [] := by
  rw [removal, if_neg]
  rw [Core.hasNode, h]
  exact Bool.false_ne_true

theorem not_removed_mem_removal (hid : IsMessage id) (t : ℤ) :
    .removed id ∉ removal core (dtagLookupNodeId t) := by
  intro h
  exact hid.ne_lookup t (Event.removed.inj (mem_removal _ _ _ h).1)

theorem quiet_retired (core : Core) (t : ℤ) :
    Quiet core (core.removeNode (dtagLookupNodeId t)) (removal core (dtagLookupNodeId t)) where
  journal := journal_removeNode _ _
  noClaim e he := by
    rw [(mem_removal _ _ _ he).1]
    rfl
  noAppend id he := absurd (mem_removal _ _ _ he).1 nofun
  counter := get_removeNode_of_ne _ _ _ (lookup_ne_dtagSeq t).symm
  lookups t' v hget := by
    rw [get_removeNode] at hget
    split_ifs at hget
    exact hget
  carries id t' hcarries := by
    have hne : id ≠ dtagLookupNodeId t := by
      rintro rfl
      exact not_carries_of_absent (by rw [get_removeNode, if_pos rfl]) hcarries
    refine ⟨(carries_congr (get_removeNode_of_ne _ _ _ hne)).mp hcarries, fun e he => ?_⟩
    rw [(mem_removal _ _ _ he).1]
    exact not_false
  removed id hid hmem := absurd hmem (not_removed_mem_removal hid t)
  kept id hid hhas := by
    rw [hasNode_congr (get_removeNode_of_ne _ _ _ (hid.ne_lookup t))]
    exact Or.inl hhas

def Final (id : String) (e : Event) : Prop :=
  (∃ tag consumer, e = .acked id tag consumer) ∨ ∃ tag consumer, e = .nacked id tag consumer

theorem quiet_removeDelivery (htidy : Tidy core) (hlive : Live core tag consumer id)
    (he : Final id e) :
    Quiet core (removeDelivery (core.note e) tag id)
      [e, .removed (dtagLookupNodeId tag), .removed id] := by
  obtain ⟨request, hlookup, -, -, hid⟩ := hlive.request htidy
  obtain ⟨v, hv⟩ := hlive.present
  have hrows : ∀ i, (removeDelivery (core.note e) tag id).nodes.get i =
      if i = id then none else if i = dtagLookupNodeId tag then none else core.nodes.get i := by
    intro i
    unfold removeDelivery
    rw [get_removeNode, get_removeNode, nodes_note]
  have hplain : claimTag e = none ∧ (∀ i, e ≠ .enqueued i) ∧ (∀ i, e ≠ .removed i) ∧
      ∀ i, Ends i e → i = id := by
    rcases he with ⟨t, c, rfl⟩ | ⟨t, c, rfl⟩ <;>
      exact ⟨rfl, fun _ => nofun, fun _ => nofun, fun _ h => h.symm⟩
  obtain ⟨hclaim, happend, hremoved, hends⟩ := hplain
  refine ⟨?_, fun e' he' => ?_, fun i hi => ?_, ?_, fun t w hget => ?_, fun i t hcarries => ?_,
    fun i hi hmem => ?_, fun i hi hhas => ?_⟩
  · have hv' : ((core.note e).removeNode (dtagLookupNodeId tag)).nodes.get id = some v := by
      rw [get_removeNode_of_ne _ _ _ (hid.ne_lookup tag)]
      exact hv
    have hlookup' : (core.note e).nodes.get (dtagLookupNodeId tag) = some (lookupProps request) :=
      hlookup
    unfold removeDelivery
    rw [journal_removeNode, journal_removeNode, removal_of_get hv', removal_of_get hlookup',
      journal_note, List.append_assoc, List.append_assoc]
    rfl
  · simp only [List.mem_cons, List.not_mem_nil, or_false] at he'
    rcases he' with rfl | rfl | rfl
    · exact hclaim
    · rfl
    · rfl
  · simp only [List.mem_cons, List.not_mem_nil, or_false] at hi
    rcases hi with hi | hi | hi
    · exact happend i hi.symm
    · cases hi
    · cases hi
  · rw [hrows, if_neg hid.ne_dtagSeq.symm, if_neg (lookup_ne_dtagSeq tag).symm]
  · rw [hrows] at hget
    split_ifs at hget
    exact hget
  · have hne : i ≠ id := by
      rintro rfl
      exact not_carries_of_absent (by rw [hrows, if_pos rfl]) hcarries
    have hne' : i ≠ dtagLookupNodeId tag := by
      rintro rfl
      exact not_carries_of_absent (by rw [hrows, if_neg hne, if_pos rfl]) hcarries
    refine ⟨(carries_congr (by rw [hrows, if_neg hne, if_neg hne'])).mp hcarries, fun e' he' => ?_⟩
    simp only [List.mem_cons, List.not_mem_nil, or_false] at he'
    rcases he' with rfl | rfl | rfl
    · exact fun h => hne (hends i h)
    · exact not_false
    · exact not_false
  · have hi' : i = id := by
      simp only [List.mem_cons, List.not_mem_nil, or_false] at hmem
      rcases hmem with h | h | h
      · exact absurd h.symm (hremoved i)
      · exact absurd (Event.removed.inj h) (hi.ne_lookup tag)
      · exact Event.removed.inj h
    subst hi'
    refine ⟨?_, hasNode_of_get hv, ?_⟩
    · rw [List.count_cons_of_ne (hremoved i), List.count_cons_of_ne, List.count_singleton_self]
      exact fun h => hid.ne_lookup tag (Event.removed.inj h).symm
    · rcases he with ⟨t, c, rfl⟩ | ⟨t, c, rfl⟩
      · exact Or.inl ⟨t, c, .head _⟩
      · exact Or.inr (Or.inl ⟨t, c, .head _⟩)
  · by_cases hne : i = id
    · rw [hne]
      exact Or.inr (by simp)
    · refine Or.inl (Eq.trans (hasNode_congr ?_) hhas)
      rw [hrows, if_neg hne, if_neg (hi.ne_lookup tag)]

theorem quiet_rewrite {w : Json} (hid : IsMessage id) (hv : core.nodes.get id = some v)
    (hclaim : claimTag e = none) (happend : ∀ i, e ≠ .enqueued i) (hremoved : ∀ i, e ≠ .removed i)
    (hends : ∀ i, Ends i e → i = id)
    (hcarries : ∀ t, Carries ((core.addNode id w).note e) id t → Carries core id t ∧ ¬ Ends id e) :
    Quiet core ((core.addNode id w).note e) [e] where
  journal := rfl
  noClaim e' he' := by
    rw [List.mem_singleton.mp he']
    exact hclaim
  noAppend i hi := happend i (List.mem_singleton.mp hi).symm
  counter := get_addNode_of_ne _ _ _ _ hid.ne_dtagSeq.symm
  lookups t u hget := by
    rw [nodes_note, get_addNode_of_ne _ _ _ _ (hid.ne_lookup t).symm] at hget
    exact hget
  carries i t hi := by
    by_cases hne : i = id
    · subst hne
      obtain ⟨h, hno⟩ := hcarries t hi
      refine ⟨h, fun e' he' => ?_⟩
      rw [List.mem_singleton.mp he']
      exact hno
    · refine ⟨(carries_congr (get_addNode_of_ne _ _ _ _ hne)).mp hi, fun e' he' => ?_⟩
      rw [List.mem_singleton.mp he']
      exact fun h => hne (hends i h)
  removed i _ hmem := absurd (List.mem_singleton.mp hmem).symm (hremoved i)
  kept i _ hhas := by
    left
    obtain ⟨u, hu⟩ := (hasNode_iff _ _).mp hhas
    by_cases hne : i = id
    · rw [hne]
      exact hasNode_of_get (get_addNode_self _ _ _)
    · exact hasNode_of_get ((get_addNode_of_ne _ _ _ _ hne).trans hu)

theorem not_carries_pending {t : ℤ}
    (h : core.nodes.get id = some (.object (mergeUpdates o pendingFields))) :
    ¬ Carries core id t := by
  intro hcarries
  have hstatus := hcarries.1
  rw [textField, field_of_get _ h, lookupRow_mergeUpdates] at hstatus
  simp [pendingFields, List.lookup_cons, Json.asStr] at hstatus

/-! ### The moves -/

theorem Fence.retired (h : Fence core) (t : ℤ) : Fence (core.removeNode (dtagLookupNodeId t)) :=
  h.quiet (h.tidy.removeNode (lookup_ne_queueSeq t)) _ (quiet_retired core t)

theorem Fence.rewrite {w : Json} (h : Fence core) (hid : IsMessage id)
    (hv : core.nodes.get id = some v) (hsubject : subject e = id) (hclaim : claimTag e = none)
    (happend : ∀ i, e ≠ .enqueued i) (hremoved : ∀ i, e ≠ .removed i)
    (hends : ∀ i, Ends i e → i = id)
    (hcarries : ∀ t, Carries ((core.addNode id w).note e) id t → Carries core id t ∧ ¬ Ends id e) :
    Fence ((core.addNode id w).note e) := by
  have hput := h.tidy.rewrite (w := w) hid hv
  refine h.quiet (hput.note ?_ hremoved) _
    (quiet_rewrite hid hv hclaim happend hremoved hends hcarries)
  rw [hsubject]
  exact hput.used id w (get_addNode_self _ _ _)

theorem Fence.putBack (h : Fence core) (hid : IsMessage id) (hv : core.nodes.get id = some v)
    (hsubject : subject e = id) (hclaim : claimTag e = none) (happend : ∀ i, e ≠ .enqueued i)
    (hremoved : ∀ i, e ≠ .removed i) (hends : ∀ i, Ends i e → i = id) :
    Fence (putBack core tag id o e) := by
  refine (h.retired tag).rewrite (v := v) hid ?_ hsubject hclaim happend hremoved hends
    fun t hcarries => absurd hcarries (not_carries_pending (o := o) (get_addNode_self _ _ _))
  rw [get_removeNode_of_ne _ _ _ (hid.ne_lookup tag)]
  exact hv

theorem Fence.renewed {n : ℕ} (h : Fence core) (hlive : Live core tag consumer id)
    (hrow : core.nodeRowMap id = some o) :
    Fence ((core.addNode id (.object (insertRow "lease_until" (.unsigned n) o))).note
      (.renewed id tag consumer)) := by
  obtain ⟨_, -, -, -, hid⟩ := hlive.request h.tidy
  obtain ⟨v, hv⟩ := hlive.present
  refine h.rewrite hid hv rfl rfl (fun _ => nofun) (fun _ => nofun) (fun _ => nofun)
    fun t hcarries => ⟨?_, not_false⟩
  have hfield : ∀ k, k ≠ "id" → k ≠ "lease_until" →
      field ((core.addNode id (.object (insertRow "lease_until" (.unsigned n) o))).note
        (.renewed id tag consumer)) id k = field core id k := by
    intro k hk hk'
    have hget : ((core.addNode id (.object (insertRow "lease_until" (.unsigned n) o))).note
        (.renewed id tag consumer)).nodes.get id =
          some (.object (insertRow "lease_until" (.unsigned n) o)) := get_addNode_self _ _ _
    rw [field_of_get k hget, lookupRow_insertRow, if_neg hk', lookupRow_nodeRowMap hk hrow]
  unfold Carries textField at hcarries ⊢
  rw [hfield _ (by decide) (by decide), hfield _ (by decide) (by decide)] at hcarries
  exact hcarries

theorem ttlExpired_expiry (h : ttlExpired o now = true) :
    ∃ ea, fU64 o "expires_at" = some ea ∧ ea ≤ now := by
  unfold ttlExpired at h
  cases hea : fU64 o "expires_at" with
  | none => simp [hea] at h
  | some ea =>
    rw [hea] at h
    exact ⟨ea, rfl, of_decide_eq_true h⟩

theorem Fence.expired (h : Fence core) (hid : IsMessage id)
    (hget : core.nodes.get id = some (.object o)) (httl : ttlExpired o now = true) :
    Fence (writeOff core id "expired" (fU64 o "expires_at") now) := by
  obtain ⟨ea, hea, hle⟩ := ttlExpired_expiry httl
  have hrows : ∀ i, (writeOff core id "expired" (fU64 o "expires_at") now).nodes.get i =
      if i = id then none else core.nodes.get i := by
    intro i
    unfold writeOff
    rw [get_removeNode, nodes_note]
  refine h.quiet (h.tidy.writeOff hid (h.tidy.used id _ hget) _ _ _)
    [.deadLettered id "expired" (some ea) now, .removed id] ⟨?_, ?_, fun i hi => ?_, ?_,
      fun t w ht => ?_, fun i t hcarries => ?_, fun i hi hmem => ?_, fun i hi hhas => ?_⟩
  · have hget' : (core.note (.deadLettered id "expired" (some ea) now)).nodes.get id =
        some (.object o) := hget
    unfold writeOff
    rw [hea, journal_removeNode, removal_of_get hget', journal_note, List.append_assoc]
    rfl
  · simp [claimTag]
  · simp at hi
  · rw [hrows, if_neg hid.ne_dtagSeq.symm]
  · rw [hrows] at ht
    split_ifs at ht
    exact ht
  · have hne : i ≠ id := by
      rintro rfl
      exact not_carries_of_absent (by rw [hrows, if_pos rfl]) hcarries
    refine ⟨(carries_congr (by rw [hrows, if_neg hne])).mp hcarries, fun e he => ?_⟩
    simp only [List.mem_cons, List.not_mem_nil, or_false] at he
    rcases he with rfl | rfl
    · exact fun h => hne h.symm
    · exact not_false
  · obtain rfl : i = id := by simpa using hmem
    exact ⟨by simp, hasNode_of_get hget, Or.inr (Or.inr ⟨ea, now, .head _, hle⟩)⟩
  · by_cases hne : i = id
    · rw [hne]
      exact Or.inr (by simp)
    · exact Or.inl ((hasNode_congr (by rw [hrows, if_neg hne])).trans hhas)

theorem Fence.mourned {reason : String} {ea : Option ℕ} (h : Fence core) (hid : IsMessage id)
    (hgone : .removed id ∈ core.journal) : Fence (writeOff core id reason ea now) := by
  have habsent := h.tidy.gone id hid hgone
  have hrows : (writeOff core id reason ea now).nodes = core.nodes := by
    unfold writeOff Core.removeNode
    rw [if_neg]
    · rfl
    · rw [Core.hasNode, nodes_note, habsent]
      exact Bool.false_ne_true
  refine h.quiet (h.tidy.writeOff hid (h.tidy.logged _ hgone) _ _ _)
    [.deadLettered id reason ea now] ⟨?_, ?_, fun i hi => ?_, by rw [hrows],
      fun t w ht => by rwa [hrows] at ht, fun i t hcarries => ?_, fun i hi hmem => ?_,
      fun i hi hhas => Or.inl ((hasNode_congr (by rw [hrows])).trans hhas)⟩
  · have habsent' : (core.note (.deadLettered id reason ea now)).nodes.get id = none := habsent
    unfold writeOff
    rw [journal_removeNode, removal_of_absent habsent', List.append_nil, journal_note]
  · simp [claimTag]
  · simp at hi
  · have hcarries' : Carries core i t := (carries_congr (by rw [hrows])).mp hcarries
    have hne : i ≠ id := by
      rintro rfl
      exact not_carries_of_absent habsent hcarries'
    refine ⟨hcarries', fun e he => ?_⟩
    rw [List.mem_singleton.mp he]
    exact fun h => hne h.symm
  · simp at hmem

theorem Fence.appended (h : Fence core) (exchange routingKey payloadHex queue : String)
    (extra : Fields) : Fence (enqueueOne exchange routingKey payloadHex extra core queue) := by
  have htidy := h.tidy.appended exchange routingKey payloadHex extra queue
  have hjournal : (enqueueOne exchange routingKey payloadHex extra core queue).journal =
      core.journal ++ [.enqueued (messageNodeId queue (nextSeq core queue))] := rfl
  have hsame : ∀ {id}, Used core id → (∀ q, id ≠ queueSeqNodeId q) →
      (enqueueOne exchange routingKey payloadHex extra core queue).nodes.get id =
        core.nodes.get id := get_enqueueOne
  have hold : ∀ {e}, (∀ id, e ≠ .enqueued id) →
      e ∈ (enqueueOne exchange routingKey payloadHex extra core queue).journal →
        e ∈ core.journal := by
    intro e hne he
    rcases List.mem_append.mp he with he | he
    · exact he
    · exact absurd (List.mem_singleton.mp he) (hne _)
  have htags : claimTags (enqueueOne exchange routingKey payloadHex extra core queue).journal =
      claimTags core.journal := by
    rw [hjournal, claimTags_append_quiet]
    intro e he
    rw [List.mem_singleton.mp he]
    rfl
  have hremoved : ∀ id, (enqueueOne exchange routingKey payloadHex extra core queue).journal.count
      (.removed id) = core.journal.count (.removed id) := by
    intro id
    have hnone : .removed id ∉ [Event.enqueued (messageNodeId queue (nextSeq core queue))] := by
      simp
    rw [hjournal, List.count_append, List.count_eq_zero_of_not_mem hnone, Nat.add_zero]
  refine ⟨htidy, ?_, ?_, fun t request hget => ?_, fun id t c hmem hcarries => ?_,
    fun id t c hmem => h.claims id t c (hold (fun _ => nofun) hmem), fun id hmem => ?_,
    fun id hid => ?_, fun id hid hmem => ?_, fun id hmem hnot => ?_⟩
  · rw [brokerLastDeliveryTag_congr (hsame (used_of_not_message not_isMessage_dtagSeq)
      dtagSeq_ne_queueSeq), htags]
    exact h.last
  · rw [htags]
    exact h.increasing
  · rw [hsame (used_of_not_message (not_isMessage_lookup t)) (lookup_ne_queueSeq t)] at hget
    exact List.mem_append_left _ (h.lookups t request hget)
  · have hmem' : .claimed id t c ∈ core.journal := hold (fun _ => nofun) hmem
    have hused : Used core id := h.tidy.logged _ hmem'
    have hcarries' := (carries_congr (hsame hused (h.claims id t c hmem').ne_queueSeq)).mp hcarries
    refine (h.stands id t c hmem' hcarries').append fun e he => ?_
    rw [List.mem_singleton.mp he]
    exact not_false
  · rw [hjournal] at hmem
    rcases List.mem_append.mp hmem with hmem | hmem
    · exact h.messages id hmem
    · rw [Event.enqueued.inj (List.mem_singleton.mp hmem)]
      exact ⟨queue, nextSeq core queue, rfl⟩
  · rw [hremoved]
    exact h.once id hid
  · rw [hjournal]
    exact (h.settled id hid (hold (fun _ => nofun) hmem)).append _
  · rw [hjournal] at hmem hnot
    rcases List.mem_append.mp hmem with hmem | hmem
    · have hhas := h.kept id hmem fun hgone => hnot (List.mem_append_left _ hgone)
      refine (hasNode_congr (hsame ?_ (h.messages id hmem).ne_queueSeq)).trans hhas
      exact h.tidy.logged _ hmem
    · rw [Event.enqueued.inj (List.mem_singleton.mp hmem)]
      exact hasNode_of_get (get_addNode_self _ _ _)

/-! ### Claims -/

/-- **What a prepared claim installs.** -/
theorem prepare_spec (h : prepareBrokerClaim core request = some claim) :
    ∃ last, brokerLastDeliveryTag core = some last ∧ claim.deliveryTag = last + 1 ∧
      claim.deliveryTag < i64Bound ∧
      core.nodes.get (dtagLookupNodeId claim.deliveryTag) = none ∧
      (∃ properties, core.nodeRowMap request.nodeId = some properties ∧
        brokerPriorDeliveryTag properties = some claim.priorTag ∧
        (lookupRow "status" properties).bind Json.asStr = some request.expectedStatus ∧
        ∃ count lease, claim.message = brokerStampClaim (insertRow "delivery_tag" .null properties)
          request count lease claim.deliveryTag) := by
  unfold prepareBrokerClaim at h
  simp only [Option.bind_eq_bind, Option.bind_eq_some_iff, Option.guard_eq_some', exists_const,
    Option.pure_def, Option.some.injEq] at h
  obtain ⟨properties, hrow, hpre, last, hlast, tag, htag, prior, hprior, -, hfree, count, -, lease,
    -, rfl⟩ := h
  unfold checkedSucc at htag
  split_ifs at htag with hbound
  obtain rfl := Option.some.inj htag
  refine ⟨last, hlast, rfl, hbound, ?_, properties, hrow, hprior, ?_, count, lease, rfl⟩
  · rw [Bool.not_eq_true', Core.hasNode, Option.isSome_eq_false_iff, Option.isNone_iff_eq_none]
      at hfree
    exact hfree
  · unfold brokerClaimPreconditionOk at hpre
    split_ifs at hpre with hstatus <;> exact not_not.mp hstatus

theorem brokerLastDeliveryTag_of_get (h0 : 0 ≤ tag) (h1 : tag < i64Bound)
    (h : core.nodes.get dtagSeqNodeId = some (counterProps tag)) :
    brokerLastDeliveryTag core = some tag := by
  have hrow : core.nodeRowMap dtagSeqNodeId ≠ none := by
    simp [Core.nodeRowMap, Core.nodeObject, h, counterProps, Json.asObject]
  obtain ⟨o, ho⟩ := Option.ne_none_iff_exists'.mp hrow
  have htype : lookupRow "type" o = some (.text brokerCounterType) := by
    rw [lookupRow_nodeRowMap (by decide) ho]
    rw [field_of_get _ h, lookupRow_fields]
    simp [List.lookup_cons]
  have hlast : lookupRow "last_tag" o = some (ofI64 tag) := by
    rw [lookupRow_nodeRowMap (by decide) ho]
    rw [field_of_get _ h, lookupRow_fields]
    simp
  unfold brokerLastDeliveryTag
  rw [ho]
  dsimp only
  rw [htype, hlast, Option.bind_some, Option.bind_some, asI64_ofI64 h0 h1]
  simp [Json.asStr, h0]

theorem lookupRow_stamp (properties : Fields) (request : BrokerClaimRequest) (count : ℤ)
    (lease : Option ℕ) (tag : ℤ) :
    lookupRow "status" (brokerStampClaim properties request count lease tag) =
      some (.text "claimed") ∧
    lookupRow "delivery_tag" (brokerStampClaim properties request count lease tag) =
      some (ofI64 tag) ∧
    lookupRow "owner_consumer" (brokerStampClaim properties request count lease tag) =
      some (.text request.consumer) := by
  unfold brokerStampClaim
  refine ⟨?_, ?_, ?_⟩
  · rw [lookupRow_mergeUpdates]
    simp [List.lookup_cons]
  · rw [lookupRow_mergeUpdates]
    simp
  · rw [lookupRow_mergeUpdates]
    simp [List.lookup_cons]

theorem tag_of_stamp {count : ℤ} {lease : Option ℕ} {t : ℤ} (h0 : 0 ≤ tag) (h1 : tag < i64Bound)
    (hget : core.nodes.get id =
      some (.object (brokerStampClaim properties request count lease tag))) (h : Carries core id t) :
    t = tag := by
  have htag := h.2
  rw [field_of_get _ hget, (lookupRow_stamp properties request count lease tag).2.1,
    Option.bind_some, asI64_ofI64 h0 h1] at htag
  exact (Option.some.inj htag).symm

def stampedRows (core : Core) (request : BrokerClaimRequest) (claim : BrokerClaim) : Core :=
  ((core.addNode dtagSeqNodeId (counterProps claim.deliveryTag)).addNode request.nodeId
    (.object claim.message)).addNode (dtagLookupNodeId claim.deliveryTag) (lookupProps request)

theorem get_stampedRows (core : Core) (request : BrokerClaimRequest) (claim : BrokerClaim)
    (i : String) :
    (stampedRows core request claim).nodes.get i =
      if i = dtagLookupNodeId claim.deliveryTag then some (lookupProps request)
      else if i = request.nodeId then some (.object claim.message)
      else if i = dtagSeqNodeId then some (counterProps claim.deliveryTag)
      else core.nodes.get i := by
  unfold stampedRows
  rw [get_addNode, get_addNode, get_addNode]

theorem Fence.stamped {count : ℤ} {lease : Option ℕ} (h : Fence core) (last : ℤ)
    (htidy : Tidy ((stampedRows core request claim).note
      (.claimed request.nodeId claim.deliveryTag request.consumer)))
    (hid : IsMessage request.nodeId) (hlast : brokerLastDeliveryTag core = some last)
    (htag : claim.deliveryTag = last + 1) (hbound : claim.deliveryTag < i64Bound)
    (hmessage : claim.message = brokerStampClaim properties request count lease claim.deliveryTag) :
    Fence ((stampedRows core request claim).note
      (.claimed request.nodeId claim.deliveryTag request.consumer)) := by
  obtain ⟨last', hlast', h0, hle⟩ := h.last
  obtain rfl : last' = last := Option.some.inj (hlast'.symm.trans hlast)
  have hlt : ∀ t ∈ claimTags core.journal, t < claim.deliveryTag := by
    intro t ht
    have := hle t ht
    omega
  have htags : claimTags (core.journal ++
      [.claimed request.nodeId claim.deliveryTag request.consumer]) =
        claimTags core.journal ++ [claim.deliveryTag] := by
    unfold claimTags
    rw [List.filterMap_append]
    rfl
  have hrows := get_stampedRows core request claim
  have hold : ∀ {e}, (∀ id t c, e ≠ .claimed id t c) →
      e ∈ core.journal ++ [.claimed request.nodeId claim.deliveryTag request.consumer] →
        e ∈ core.journal := by
    intro e hne he
    rcases List.mem_append.mp he with he | he
    · exact he
    · exact absurd (List.mem_singleton.mp he) (hne _ _ _)
  refine ⟨htidy, ⟨claim.deliveryTag, ?_, by omega, ?_⟩, ?_, fun t request' hget => ?_,
    fun id t c hmem hcarries => ?_, fun id t c hmem => ?_,
    fun id hmem => h.messages id (hold (fun _ _ _ => nofun) hmem), fun id hid' => ?_,
    fun id hid' hmem => ?_, fun id hmem hnot => ?_⟩
  · refine brokerLastDeliveryTag_of_get (by omega) hbound ?_
    rw [nodes_note, hrows, if_neg (lookup_ne_dtagSeq _).symm, if_neg hid.ne_dtagSeq.symm, if_pos rfl]
  · intro t ht
    change t ∈ claimTags (core.journal ++ _) at ht
    rw [htags] at ht
    rcases List.mem_append.mp ht with ht | ht
    · exact (hlt t ht).le
    · exact (List.mem_singleton.mp ht).le
  · change (claimTags (core.journal ++ _)).Pairwise (· < ·)
    rw [htags, List.pairwise_append]
    refine ⟨h.increasing, List.pairwise_singleton _ _, fun t ht t' ht' => ?_⟩
    rw [List.mem_singleton.mp ht']
    exact hlt t ht
  · change _ ∈ core.journal ++ _
    rw [nodes_note, hrows] at hget
    split_ifs at hget with h1 h2 h3
    · obtain ⟨hnode, -, hcons⟩ := lookupProps_inj (Option.some.inj hget)
      rw [← hnode, ← hcons, dtagLookupNodeId_inj h1]
      exact List.mem_append_right _ (.head _)
    · exact absurd h2.symm (hid.ne_lookup t)
    · exact absurd h3 (lookup_ne_dtagSeq t)
    · exact List.mem_append_left _ (h.lookups t request' hget)
  · rcases List.mem_append.mp hmem with hmem | hmem
    · have hidm := h.claims id t c hmem
      by_cases hsame : id = request.nodeId
      · subst hsame
        have hrow : ((stampedRows core request claim).note (.claimed request.nodeId
            claim.deliveryTag request.consumer)).nodes.get request.nodeId =
              some (.object (brokerStampClaim properties request count lease
                claim.deliveryTag)) := by
          rw [nodes_note, hrows, if_neg (hid.ne_lookup _), if_pos rfl, hmessage]
        have heq := tag_of_stamp (by omega) hbound hrow hcarries
        have := hlt t (mem_claimTags hmem)
        omega
      · have hkeep : ((stampedRows core request claim).note (.claimed request.nodeId
            claim.deliveryTag request.consumer)).nodes.get id = core.nodes.get id := by
          rw [nodes_note, hrows, if_neg (hidm.ne_lookup _), if_neg hsame, if_neg hidm.ne_dtagSeq]
        refine (h.stands id t c hmem ((carries_congr hkeep).mp hcarries)).append fun e he => ?_
        rw [List.mem_singleton.mp he]
        exact fun hends => hsame hends.symm
    · obtain ⟨rfl, rfl, rfl⟩ := Event.claimed.inj (List.mem_singleton.mp hmem)
      exact stands_self _
  · rcases List.mem_append.mp hmem with hmem | hmem
    · exact h.claims id t c hmem
    · obtain ⟨rfl, -, -⟩ := Event.claimed.inj (List.mem_singleton.mp hmem)
      exact hid
  · change (core.journal ++ _).count _ ≤ 1
    rw [List.count_append]
    exact h.once id hid'
  · exact (h.settled id hid' (hold (fun _ _ _ => nofun) hmem)).append _
  · have hmem' : .enqueued id ∈ core.journal := hold (fun _ _ _ => nofun) hmem
    have hhas := h.kept id hmem' fun hgone => hnot (List.mem_append_left _ hgone)
    have hidm := h.messages id hmem'
    by_cases hsame : id = request.nodeId
    · refine hasNode_of_get (v := .object claim.message) ?_
      rw [nodes_note, hrows, if_neg (hidm.ne_lookup _), if_pos hsame]
    · refine (hasNode_congr ?_).trans hhas
      rw [nodes_note, hrows, if_neg (hidm.ne_lookup _), if_neg hsame, if_neg hidm.ne_dtagSeq]

theorem Fence.retireTag (h : Fence core) : ∀ tag, Fence (Delivery.retireTag core tag)
  | none => h
  | some tag => h.retired tag

theorem brokerLastDeliveryTag_retireTag (core : Core) :
    ∀ tag, brokerLastDeliveryTag (Delivery.retireTag core tag) = brokerLastDeliveryTag core
  | none => rfl
  | some tag =>
    brokerLastDeliveryTag_congr (get_removeNode_of_ne _ _ _ (lookup_ne_dtagSeq tag).symm)

theorem Fence.claimed (h : Fence core) (hv : core.nodes.get request.nodeId = some v)
    (hlabel : queueMsgLabel request.queue ∈ labelsOf v)
    (hclaim : prepareBrokerClaim core request = some claim) :
    Fence (installClaim core request claim) := by
  have hid := h.tidy.labelled _ _ _ hv hlabel
  obtain ⟨last, hlast, htag, hbound, -, properties, -, -, -, count, lease, hmessage⟩ :=
    prepare_spec hclaim
  refine (h.retireTag claim.priorTag).stamped last (h.tidy.installClaim hid hv) hid ?_ htag hbound
    hmessage
  rw [brokerLastDeliveryTag_retireTag]
  exact hlast

/-- **Every move keeps the fence.** -/
theorem Fence.move (h : Fence core) (hmove : Move R core core') : Fence core' := by
  have htidy := h.tidy.move hmove
  cases hmove with
  | appended queue exchange routingKey payloadHex extra _ => exact h.appended _ _ _ _ _
  | claimed request claim v hv hlabel hclaim => exact h.claimed hv hlabel hclaim
  | retired tag _ => exact h.retired tag
  | acked tag consumer id hlive =>
    exact h.quiet htidy _ (quiet_removeDelivery h.tidy hlive (Or.inl ⟨tag, consumer, rfl⟩))
  | nacked tag consumer id hlive =>
    exact h.quiet htidy _ (quiet_removeDelivery h.tidy hlive (Or.inr ⟨tag, consumer, rfl⟩))
  | renewed tag consumer id o n hlive ho => exact h.renewed hlive ho
  | requeued tag consumer id o hlive ho =>
    obtain ⟨_, -, -, -, hid⟩ := hlive.request h.tidy
    obtain ⟨v, hv⟩ := hlive.present
    exact h.putBack hid hv rfl rfl (fun _ => nofun) (fun _ => nofun) fun _ hi => hi.symm
  | released tag id o hid ho _ =>
    obtain ⟨v, hv⟩ := nodeRowMap_isSome ho
    exact h.putBack hid hv rfl rfl (fun _ => nofun) (fun _ => nofun) fun _ hi => hi.symm
  | expired id o now hid hget httl _ => exact h.expired hid hget httl
  | mourned id reason ea now hid hmem _ => exact h.mourned hid hmem

theorem Fence.course (h : Fence core) (hcourse : Course R core core') : Fence core' := by
  induction hcourse with
  | refl => exact h
  | tail _ hmove ih => exact ih.move hmove

/-! ### Runs -/

/-- A graph on which the broker has been set up and not used: there is no message, no delivery tag and
no lookup row. -/
structure Unused (core : Core) : Prop where
  journal : core.journal = []
  messages : ∀ id, IsMessage id → core.nodes.get id = none
  labels : ∀ id v q, core.nodes.get id = some v → queueMsgLabel q ∉ labelsOf v
  counter : core.nodes.get dtagSeqNodeId = none
  lookups : ∀ t, core.nodes.get (dtagLookupNodeId t) = none

theorem Unused.tidy (h : Unused core) : Tidy core where
  used id v hv q s hid := by
    rw [h.messages id ⟨q, s, hid⟩] at hv
    cases hv
  logged e he := by
    rw [h.journal] at he
    cases he
  labelled id v q hv hlabel := absurd hlabel (h.labels id v q hv)
  lookups t v hv := by
    rw [h.lookups t] at hv
    cases hv
  gone id _ hmem := by
    rw [h.journal] at hmem
    cases hmem

theorem Unused.fence (h : Unused core) : Fence core where
  tidy := h.tidy
  last := by
    refine ⟨0, ?_, le_rfl, fun t ht => ?_⟩
    · unfold brokerLastDeliveryTag
      rw [nodeRowMap_eq_none h.counter]
    · rw [h.journal] at ht
      cases ht
  increasing := by
    rw [h.journal]
    exact List.Pairwise.nil
  lookups t request hget := by
    rw [h.lookups t] at hget
    cases hget
  stands id t c hmem := by
    rw [h.journal] at hmem
    cases hmem
  claims id t c hmem := by
    rw [h.journal] at hmem
    cases hmem
  messages id hmem := by
    rw [h.journal] at hmem
    cases hmem
  once id _ := by
    rw [h.journal]
    exact Nat.zero_le 1
  settled id _ hmem := by
    rw [h.journal] at hmem
    cases hmem
  kept id hmem := by
    rw [h.journal] at hmem
    cases hmem

theorem fence_run (h : Unused core) (calls : List TagCall) : Fence (run TagCall.apply core calls) :=
  run_invariant (fun _ call hfence =>
    hfence.course (course_apply hfence.tidy (permitted_all _ call))) calls core h.fence

theorem Fence.holds (h : Fence core) (hlive : Live core tag consumer id) :
    Holds core.journal id tag consumer := by
  obtain ⟨request, hget, rfl, rfl, -⟩ := hlive.request h.tidy
  exact h.stands _ _ _ (h.lookups tag request hget) hlive.carries

theorem mem_journal_move (hmove : Move R core core') (he : e ∈ core.journal) :
    e ∈ core'.journal := by
  have hremove : ∀ {c : Core} {id : String}, e ∈ c.journal → e ∈ (c.removeNode id).journal := by
    intro c id hc
    rw [journal_removeNode]
    exact List.mem_append_left _ hc
  have hretire : ∀ tag, e ∈ (Delivery.retireTag core tag).journal := by
    intro tag
    cases tag with
    | none => exact he
    | some tag => exact hremove he
  cases hmove with
  | appended => exact List.mem_append_left _ he
  | claimed => exact List.mem_append_left _ (hretire _)
  | retired => exact hremove he
  | acked => exact hremove (hremove (List.mem_append_left _ he))
  | nacked => exact hremove (hremove (List.mem_append_left _ he))
  | renewed => exact List.mem_append_left _ he
  | requeued tag => exact List.mem_append_left _ (hretire (some tag))
  | released tag => exact List.mem_append_left _ (hretire (some tag))
  | expired => exact hremove (List.mem_append_left _ he)
  | mourned => exact hremove (List.mem_append_left _ he)

theorem mem_journal_course (hcourse : Course R core core') (he : e ∈ core.journal) :
    e ∈ core'.journal := by
  induction hcourse with
  | refl => exact he
  | tail _ hmove ih => exact mem_journal_move hmove ih

theorem consume_result {request : ConsumeRequest} : ∀ {attempts : ℕ} {core : Core}, Fence core →
      (consumeAttempts request attempts core).2 = some (id, properties) →
      ∃ core₁ claimed claim v, Course .all core core₁ ∧ claimed.nodeId = id ∧
        claimed.consumer = request.consumer ∧ core₁.nodes.get claimed.nodeId = some v ∧
        queueMsgLabel claimed.queue ∈ labelsOf v ∧
        prepareBrokerClaim core₁ claimed = some claim ∧ claim.message = properties ∧
        (consumeAttempts request attempts core).1 = installClaim core₁ claimed claim
  | 0, _, _, h => by cases h
  | attempts + 1, core, hfence, h => by
    have hdue : Due .all core request.nowMs request.queue := due_all _ _ _
    unfold consumeAttempts at h ⊢
    dsimp only at h ⊢
    split_ifs at h ⊢ with hexpired hprefetch
    · obtain ⟨hcourse, -⟩ := course_deadLetterExpired hfence.tidy
        (doomed_scan request.consumer hfence.tidy hdue) hdue
      obtain ⟨core₁, claimed, claim, v, hcourse', hrest⟩ := consume_result (hfence.course hcourse) h
      exact ⟨core₁, claimed, claim, v, hcourse.trans hcourse', hrest⟩
    · split at h
      · cases h
      · rename_i cand hbest
        have hrow : ∃ v, (cand.id, v) ∈ core.getNodesByLabel (queueMsgLabel request.queue) := by
          rcases best_mem hbest with hnone | hrow
          · cases hnone
          · exact hrow
        obtain ⟨v, hv⟩ := hrow
        obtain ⟨hget, hlabel⟩ := mem_getNodesByLabel.mp hv
        split at h
        · rename_i core' message hclaim
          obtain ⟨rfl, rfl⟩ := Prod.mk.inj (Option.some.inj h)
          obtain ⟨claim, hprepare, heq, -⟩ :=
            course_claim (R := .all) (claimRequest request cand) hget hlabel hclaim
          obtain ⟨rfl, rfl⟩ := Prod.mk.inj heq
          exact ⟨core, claimRequest request cand, claim, v, .refl, rfl, rfl, hget, hlabel, hprepare,
            rfl, rfl⟩
        · exact consume_result hfence h

theorem consume_tag {request : ConsumeRequest} (h : Fence core)
    (hresult : (brokerConsume core request).2 = some (id, properties)) :
    ∃ tag, rowTag properties = some tag ∧
      (brokerConsume core request).1.journal.getLast? = some (.claimed id tag request.consumer) ∧
      ∀ t ∈ claimTags core.journal, t < tag := by
  obtain ⟨core₁, claimed, claim, v, hcourse, rfl, hconsumer, -, -, hprepare, rfl, heq⟩ :=
    consume_result h hresult
  obtain ⟨last, hlast, htag, hbound, -, row, -, -, -, count, lease, hmessage⟩ :=
    prepare_spec hprepare
  obtain ⟨last', hlast', h0, hle⟩ := (h.course hcourse).last
  obtain rfl : last' = last := Option.some.inj (hlast'.symm.trans hlast)
  refine ⟨claim.deliveryTag, ?_, ?_, fun t ht => ?_⟩
  · rw [rowTag, hmessage, (lookupRow_stamp _ claimed count lease _).2.1]
    exact asI64_ofI64 (by omega) hbound
  · rw [brokerConsume, heq, ← hconsumer]
    exact List.getLast?_concat
  · obtain ⟨e, he, htagged⟩ := List.mem_filterMap.mp ht
    have := hle t (List.mem_filterMap.mpr ⟨e, mem_journal_course hcourse he, htagged⟩)
    omega

/-- **Delivery tags fence deliveries.** After every run of calls that address deliveries by tag, on a
graph whose broker had not been used: tags increase; a call on a tag succeeds only for the consumer that
received it, while nothing else has happened to the message since; and a message is removed at most
once, after an acknowledgement, a final nack or its expiry. -/
theorem deliveries_fenced (core : Core) (hstart : Unused core) (calls : List TagCall) :
    let s := run TagCall.apply core calls
    (claimTags s.journal).Pairwise (· < ·) ∧
    (∀ request id properties, (brokerConsume s request).2 = some (id, properties) →
      ∃ tag, rowTag properties = some tag ∧
        (brokerConsume s request).1.journal.getLast? = some (.claimed id tag request.consumer) ∧
        ∀ t ∈ claimTags s.journal, t < tag) ∧
    (∀ tag consumer, (brokerAckTag s tag consumer).2 = true →
      ∃ id, Holds s.journal id tag consumer) ∧
    (∀ tag consumer now lease, (brokerRenewTag s tag consumer now lease).2 = true →
      ∃ id, Holds s.journal id tag consumer) ∧
    (∀ tag consumer requeue now, (brokerNackTag s tag consumer requeue now).2 ≠ .absent →
      ∃ id, Holds s.journal id tag consumer) ∧
    ∀ id, .enqueued id ∈ s.journal →
      s.journal.count (.removed id) ≤ 1 ∧ (s.hasNode id = true ↔ .removed id ∉ s.journal) ∧
        (.removed id ∈ s.journal → Settled s.journal id) := by
  intro s
  have h : Fence s := fence_run hstart calls
  refine ⟨h.increasing, fun request id properties hresult => consume_tag h hresult,
    fun tag consumer hok => ?_, fun tag consumer now lease hok => ?_,
    fun tag consumer requeue now hok => ?_, fun id hmem => ?_⟩
  · rcases ack_spec (R := .all) tag consumer h.tidy with ⟨id, hlive, -⟩ | ⟨hno, -⟩
    · exact ⟨id, h.holds hlive⟩
    · rw [hno] at hok
      cases hok
  · rcases renew_spec (R := .all) tag consumer now lease h.tidy with
      ⟨id, _, _, hlive, -, -⟩ | ⟨hno, -⟩
    · exact ⟨id, h.holds hlive⟩
    · rw [hno] at hok
      cases hok
  · have hnamed : Named .all s tag := fun _ _ _ => trivial
    obtain ⟨id, hlive⟩ := (nack_spec consumer requeue now h.tidy hnamed).2 hok
    exact ⟨id, h.holds hlive⟩
  · have hid := h.messages id hmem
    refine ⟨h.once id hid, ⟨fun hhas hgone => ?_, h.kept id hmem⟩, h.settled id hid⟩
    rw [Core.hasNode, h.tidy.gone id hid hgone] at hhas
    cases hhas

def bare : Core := ⟨Table.empty, []⟩

theorem unused_bare : Unused bare where
  journal := rfl
  messages _ _ := rfl
  labels _ _ _ := nofun
  counter := rfl
  lookups _ := rfl

/-- A message is appended and claimed for ten milliseconds. -/
def claimedOnce : List TagCall :=
  [.enqueue ["q"] "ex" "k" "6d" [("expires_at", .unsigned 200)], .consume ⟨"q", "g", "c", 100, 10, 0⟩]

/-- The acknowledgement of a claimed message succeeds, for the consumer that holds it. -/
theorem deliveries_fenced_claimed_once :
    (brokerAckTag (run TagCall.apply bare claimedOnce) 1 "c").2 = true ∧
      ∃ id, Holds (run TagCall.apply bare claimedOnce).journal id 1 "c" := by
  have hok : (brokerAckTag (run TagCall.apply bare claimedOnce) 1 "c").2 = true := by
    decide +kernel
  exact ⟨hok, (deliveries_fenced bare unused_bare claimedOnce).2.2.1 1 "c" hok⟩

end Medulla.Broker.Fencing
