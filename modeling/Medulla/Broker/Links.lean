import Medulla.Broker.Fencing

/-! # Lookup rows and claimed messages

Each claimed message should have the lookup row of its tag, and each lookup row a claimed message. A
message that ends its delivery first gives up its lookup row, is exempt for a moment, and is then
stamped, put back or removed (`Linked`).

* one move: `Linked.move`;
* every run: `lookups_correspond`. -/

namespace Medulla.Broker.Links

open Library.OrderedTable Library.Transaction Resource.Extension Index.Changes Rows
open Delivery Queues Ids Moves Courses Fencing

/-! ### The correspondence -/

/-- The lookup row of the message's tag names the message, its queue and its owner. -/
def HasLookup (core : Core) (queue id : String) : Prop :=
  ∃ tag request, Carries core id tag ∧
    core.nodes.get (dtagLookupNodeId tag) = some (lookupProps request) ∧ request.nodeId = id ∧
    request.queue = queue ∧ textField core id "owner_consumer" = some request.consumer

structure Corresponds (core : Core) : Prop where
  claimed : ∀ (q : String) (s : ℕ), textField core (messageNodeId q s) "status" = some "claimed" →
    HasLookup core q (messageNodeId q s)
  lookups : ∀ tag v, core.nodes.get (dtagLookupNodeId tag) = some v →
    ∃ request, v = lookupProps request ∧ IsMessage request.nodeId ∧ Carries core request.nodeId tag

structure Linked (exempt : String → Prop) (core : Core) : Prop where
  claimed : ∀ (q : String) (s : ℕ), ¬ exempt (messageNodeId q s) →
    textField core (messageNodeId q s) "status" = some "claimed" →
    HasLookup core q (messageNodeId q s)
  lookups : ∀ tag request, core.nodes.get (dtagLookupNodeId tag) = some (lookupProps request) →
    Carries core request.nodeId tag
  idle : ∀ id, IsMessage id → textField core id "status" ≠ some "claimed" →
    (field core id "delivery_tag").bind asI64 = none
  typed : ∀ (q : String) (s : ℕ) v q', core.nodes.get (messageNodeId q s) = some v →
    queueMsgLabel q' ∈ labelsOf v → q' = q

def nobody : String → Prop := fun _ => False

def only (id : String) : String → Prop := fun i => i = id

/-- No lookup row names the message. -/
def Unnamed (core : Core) (id : String) : Prop :=
  ∀ tag request, core.nodes.get (dtagLookupNodeId tag) = some (lookupProps request) →
    request.nodeId ≠ id

variable {core core' : Core} {exempt : String → Prop}

theorem Linked.corresponds (h : Linked nobody core) (htidy : Tidy core) : Corresponds core where
  claimed q s hstatus := h.claimed q s not_false hstatus
  lookups tag v hget := by
    obtain ⟨request, rfl, hid⟩ := htidy.lookups tag v hget
    exact ⟨request, rfl, hid, h.lookups tag request hget⟩

theorem HasLookup.congr {queue id : String} (h : HasLookup core queue id)
    (hid : core'.nodes.get id = core.nodes.get id)
    (hlookup : ∀ tag request, Carries core id tag →
      core.nodes.get (dtagLookupNodeId tag) = some (lookupProps request) → request.nodeId = id →
        core'.nodes.get (dtagLookupNodeId tag) = some (lookupProps request)) :
    HasLookup core' queue id := by
  obtain ⟨tag, request, hcarries, hget, hnode, hqueue, howner⟩ := h
  refine ⟨tag, request, (carries_congr hid).mpr hcarries, hlookup tag request hcarries hget hnode,
    hnode, hqueue, ?_⟩
  rw [textField, field_congr _ hid]
  exact howner

theorem Linked.of_nodes (h : Linked exempt core) (hnodes : core'.nodes = core.nodes) :
    Linked exempt core' := by
  obtain ⟨nodes, journal⟩ := core
  obtain ⟨nodes', journal'⟩ := core'
  obtain rfl : nodes' = nodes := hnodes
  exact ⟨h.claimed, h.lookups, h.idle, h.typed⟩

/-! ### Giving up a lookup row -/

theorem Linked.unnamed_of_idle (h : Linked nobody core) {id : String}
    (hstatus : textField core id "status" ≠ some "claimed") : Unnamed core id := by
  rintro tag request hget rfl
  exact hstatus (h.lookups tag request hget).1

theorem Linked.giveUp (h : Linked nobody core) (htidy : Tidy core) {id : String}
    (hid : IsMessage id) :
    Linked (only id) (retireTag core ((field core id "delivery_tag").bind asI64)) ∧
      Unnamed (retireTag core ((field core id "delivery_tag").bind asI64)) id := by
  cases htag : (field core id "delivery_tag").bind asI64 with
  | none =>
    have hstatus : textField core id "status" ≠ some "claimed" := by
      intro hclaimed
      obtain ⟨q, s, rfl⟩ := hid
      obtain ⟨tag, -, hcarries, -⟩ := h.claimed q s not_false hclaimed
      rw [hcarries.2] at htag
      cases htag
    refine ⟨⟨fun q s _ => h.claimed q s not_false, h.lookups, h.idle, h.typed⟩, ?_⟩
    exact h.unnamed_of_idle hstatus
  | some t =>
    have hclaimed : textField core id "status" = some "claimed" := by
      by_contra hno
      rw [h.idle id hid hno] at htag
      cases htag
    have hmessages : ∀ i, IsMessage i →
        (core.removeNode (dtagLookupNodeId t)).nodes.get i = core.nodes.get i := fun i hi =>
      get_removeNode_of_ne _ _ _ (hi.ne_lookup t)
    have hlookups : ∀ t' v, (core.removeNode (dtagLookupNodeId t)).nodes.get (dtagLookupNodeId t') =
        some v → t' ≠ t ∧ core.nodes.get (dtagLookupNodeId t') = some v := by
      intro t' v hget
      rw [get_removeNode] at hget
      split_ifs at hget with heq
      exact ⟨fun ht => heq (congrArg _ ht), hget⟩
    obtain ⟨q₀, s₀, hid₀⟩ := hid
    have howner : ∀ request, core.nodes.get (dtagLookupNodeId t) = some (lookupProps request) →
        request.nodeId = id := by
      intro request hget
      subst hid₀
      obtain ⟨tag, request', hcarries, hget', hnode, -, -⟩ := h.claimed q₀ s₀ not_false hclaimed
      obtain rfl : tag = t := Option.some.inj (hcarries.2.symm.trans htag)
      rw [hget] at hget'
      rw [(lookupProps_inj (Option.some.inj hget')).1, hnode]
    refine ⟨⟨fun q s hexempt hstatus => ?_, fun tag request hget => ?_, fun i hi hstatus => ?_,
      fun q s v q' hget hlabel => ?_⟩, fun tag request hget hnode => ?_⟩
    · have hsame := hmessages (messageNodeId q s) ⟨q, s, rfl⟩
      change textField (core.removeNode _) _ _ = _ at hstatus
      rw [textField, field_congr _ hsame] at hstatus
      refine (h.claimed q s not_false hstatus).congr hsame fun tag request hcarries hget hnode => ?_
      refine (get_removeNode_of_ne _ _ _ fun heq => hexempt ?_).trans hget
      rw [dtagLookupNodeId_inj heq] at hget
      exact hnode.symm.trans (howner request hget)
    · obtain ⟨-, hget'⟩ := hlookups tag _ hget
      obtain ⟨request', heq, hreq⟩ := htidy.lookups tag _ hget'
      rw [← (lookupProps_inj heq).1] at hreq
      exact (carries_congr (hmessages _ hreq)).mpr (h.lookups tag request hget')
    · change (field (core.removeNode _) _ _).bind _ = _
      change textField (core.removeNode _) _ _ ≠ _ at hstatus
      rw [field_congr _ (hmessages i hi)]
      rw [textField, field_congr _ (hmessages i hi)] at hstatus
      exact h.idle i hi hstatus
    · exact h.typed q s v q' ((hmessages _ ⟨q, s, rfl⟩).symm.trans hget) hlabel
    · obtain ⟨hne, hget'⟩ := hlookups tag _ hget
      have hcarries := h.lookups tag request hget'
      rw [hnode] at hcarries
      exact hne (Option.some.inj (hcarries.2.symm.trans htag))

/-! ### Ending an exemption -/

def labelKeys : List String := ["type", "node_type", "label", "labels"]

theorem labelsOf_congr {o o' : Fields} (h : ∀ k ∈ labelKeys, lookupRow k o' = lookupRow k o) :
    labelsOf (.object o') = labelsOf (.object o) := by
  have hkeys : ∀ k ∈ nodeLabelKeys, k ∈ labelKeys := by decide
  unfold labelsOf Index.Changes.get
  congr 1
  · refine List.filterMap_congr fun k hk => ?_
    simp only [Json.asObject, Option.bind_some, h k (hkeys k hk)]
  · simp only [Json.asObject, Option.bind_some, h "labels" (by decide)]

def KeepsLabels (core : Core) (id : String) (o : Fields) : Prop :=
  ∀ k ∈ labelKeys, lookupRow k o = field core id k

theorem KeepsLabels.typed {q : String} {s : ℕ} {o : Fields} {q' : String}
    (h : KeepsLabels core (messageNodeId q s) o) (hlinked : Linked exempt core)
    (hget : ∃ o₀, core.nodes.get (messageNodeId q s) = some (.object o₀))
    (hlabel : queueMsgLabel q' ∈ labelsOf (.object o)) : q' = q := by
  obtain ⟨o₀, hget⟩ := hget
  rw [labelsOf_congr (o := o₀) fun k hk => (h k hk).trans (field_of_get k hget)] at hlabel
  exact hlinked.typed q s _ q' hget hlabel

theorem keepsLabels_merge {id : String} {o updates : Fields}
    (hrow : core.nodeRowMap id = some o)
    (hkeys : ∀ k ∈ labelKeys, k ∉ updates.map Prod.fst) :
    KeepsLabels core id (mergeUpdates o updates) := by
  intro k hk
  have hne : k ≠ "id" := by
    rintro rfl
    exact absurd hk (by decide)
  rw [lookupRow_mergeUpdates_of_not_mem (hkeys k hk), lookupRow_nodeRowMap hne hrow]

theorem Linked.drop {id : String} (h : Linked (only id) core) (hunnamed : Unnamed core id)
    (hid : IsMessage id) : Linked nobody (core.removeNode id) := by
  have hlookups : ∀ t, (core.removeNode id).nodes.get (dtagLookupNodeId t) =
      core.nodes.get (dtagLookupNodeId t) := fun t =>
    get_removeNode_of_ne _ _ _ (hid.ne_lookup t).symm
  have hgone : ∀ k, field (core.removeNode id) id k = none := fun k =>
    field_of_absent k (by rw [get_removeNode, if_pos rfl])
  refine ⟨fun q s _ hstatus => ?_, fun tag request hget => ?_, fun i hi hstatus => ?_,
    fun q s v q' hget hlabel => ?_⟩
  · have hne : messageNodeId q s ≠ id := by
      intro heq
      rw [heq, textField, hgone] at hstatus
      cases hstatus
    have hsame := get_removeNode_of_ne core id _ hne
    rw [textField, field_congr _ hsame] at hstatus
    exact (h.claimed q s hne hstatus).congr hsame fun tag _ _ hget _ => (hlookups tag).trans hget
  · rw [hlookups] at hget
    exact (carries_congr (get_removeNode_of_ne _ _ _ (hunnamed tag request hget))).mpr
      (h.lookups tag request hget)
  · by_cases hne : i = id
    · rw [hne, hgone]
      rfl
    · have hsame := get_removeNode_of_ne core id _ hne
      rw [field_congr _ hsame]
      rw [textField, field_congr _ hsame] at hstatus
      exact h.idle i hi hstatus
  · rw [get_removeNode] at hget
    split_ifs at hget
    exact h.typed q s v q' hget hlabel

theorem Linked.putPending {id : String} {o : Fields} (h : Linked (only id) core)
    (hunnamed : Unnamed core id) (hid : IsMessage id)
    (hget : ∃ o₀, core.nodes.get id = some (.object o₀))
    (hkeep : KeepsLabels core id (mergeUpdates o pendingFields)) :
    Linked nobody (core.addNode id (.object (mergeUpdates o pendingFields))) := by
  have hlookups : ∀ t, (core.addNode id (.object (mergeUpdates o pendingFields))).nodes.get
      (dtagLookupNodeId t) = core.nodes.get (dtagLookupNodeId t) := fun t =>
    get_addNode_of_ne _ _ _ _ (hid.ne_lookup t).symm
  have hnew := get_addNode_self core id (.object (mergeUpdates o pendingFields))
  refine ⟨fun q s _ hstatus => ?_, fun tag request hget' => ?_, fun i hi hstatus => ?_,
    fun q s v q' hget' hlabel => ?_⟩
  · have hne : messageNodeId q s ≠ id := by
      intro heq
      rw [heq, textField, field_of_get _ hnew, lookupRow_mergeUpdates] at hstatus
      simp [pendingFields, List.lookup_cons, Json.asStr] at hstatus
    have hsame := get_addNode_of_ne core id _ (.object (mergeUpdates o pendingFields)) hne
    rw [textField, field_congr _ hsame] at hstatus
    exact (h.claimed q s hne hstatus).congr hsame fun tag _ _ hl _ => (hlookups tag).trans hl
  · rw [hlookups] at hget'
    exact (carries_congr (get_addNode_of_ne _ _ _ _ (hunnamed tag request hget'))).mpr
      (h.lookups tag request hget')
  · by_cases hne : i = id
    · rw [hne, field_of_get _ hnew, lookupRow_mergeUpdates]
      simp [pendingFields, asI64]
    · have hsame := get_addNode_of_ne core id _ (.object (mergeUpdates o pendingFields)) hne
      rw [field_congr _ hsame]
      rw [textField, field_congr _ hsame] at hstatus
      exact h.idle i hi hstatus
  · rw [get_addNode] at hget'
    split_ifs at hget' with heq
    · subst heq
      rw [← Option.some.inj hget'] at hlabel
      exact hkeep.typed h hget hlabel
    · exact h.typed q s v q' hget' hlabel

theorem Linked.stamp {request : BrokerClaimRequest} {claim : BrokerClaim} {properties : Fields}
    {count : ℤ} {lease : Option ℕ} (h : Linked (only request.nodeId) core)
    (htidy : Tidy core) (hunnamed : Unnamed core request.nodeId) (hid : IsMessage request.nodeId)
    (hget : ∃ o₀, core.nodes.get request.nodeId = some (.object o₀))
    (hlabel : ∀ o₀, core.nodes.get request.nodeId = some (.object o₀) →
      queueMsgLabel request.queue ∈ labelsOf (.object o₀))
    (hfree : core.nodes.get (dtagLookupNodeId claim.deliveryTag) = none)
    (h0 : 0 ≤ claim.deliveryTag) (h1 : claim.deliveryTag < i64Bound)
    (hmessage : claim.message = brokerStampClaim properties request count lease claim.deliveryTag)
    (hkeep : KeepsLabels core request.nodeId claim.message) :
    Linked nobody (stampedRows core request claim) := by
  have hrows := get_stampedRows core request claim
  have hnew : (stampedRows core request claim).nodes.get request.nodeId =
      some (.object (brokerStampClaim properties request count lease claim.deliveryTag)) := by
    rw [hrows, if_neg (hid.ne_lookup _), if_pos rfl, hmessage]
  obtain ⟨hstatus', htag', howner'⟩ := lookupRow_stamp properties request count lease
    claim.deliveryTag
  have hcarries : Carries (stampedRows core request claim) request.nodeId claim.deliveryTag := by
    refine ⟨?_, ?_⟩
    · rw [textField, field_of_get _ hnew, hstatus']
      rfl
    · rw [field_of_get _ hnew, htag', Option.bind_some, asI64_ofI64 h0 h1]
  have hother : ∀ {i}, IsMessage i → i ≠ request.nodeId →
      (stampedRows core request claim).nodes.get i = core.nodes.get i := by
    intro i hi hne
    rw [hrows, if_neg (hi.ne_lookup _), if_neg hne, if_neg hi.ne_dtagSeq]
  have hlookups : ∀ {t}, t ≠ claim.deliveryTag →
      (stampedRows core request claim).nodes.get (dtagLookupNodeId t) =
        core.nodes.get (dtagLookupNodeId t) := by
    intro t ht
    rw [hrows, if_neg fun heq => ht (dtagLookupNodeId_inj heq), if_neg (hid.ne_lookup t).symm,
      if_neg (lookup_ne_dtagSeq t)]
  refine ⟨fun q s _ hstatus => ?_, fun tag request' hget' => ?_, fun i hi hstatus => ?_,
    fun q s v q' hget' hlabel' => ?_⟩
  · by_cases hne : messageNodeId q s = request.nodeId
    · rw [hne]
      refine ⟨claim.deliveryTag, request, hcarries, ?_, rfl, ?_, ?_⟩
      · rw [hrows, if_pos rfl]
      · obtain ⟨o₀, ho₀⟩ := hget
        rw [← hne] at ho₀
        exact h.typed q s _ _ ho₀ (hlabel o₀ (hne ▸ ho₀))
      · rw [textField, field_of_get _ hnew, howner']
        rfl
    · have hsame := hother ⟨q, s, rfl⟩ hne
      rw [textField, field_congr _ hsame] at hstatus
      refine (h.claimed q s hne hstatus).congr hsame fun tag _ _ hl _ => ?_
      rw [hlookups fun heq => ?_]
      · exact hl
      · rw [heq, hfree] at hl
        cases hl
  · by_cases htag : tag = claim.deliveryTag
    · subst htag
      rw [hrows, if_pos rfl] at hget'
      rw [← (lookupProps_inj (Option.some.inj hget')).1]
      exact hcarries
    · rw [hlookups htag] at hget'
      obtain ⟨request'', heq, hreq⟩ := htidy.lookups tag _ hget'
      rw [← (lookupProps_inj heq).1] at hreq
      exact (carries_congr (hother hreq (hunnamed tag request' hget'))).mpr
        (h.lookups tag request' hget')
  · by_cases hne : i = request.nodeId
    · rw [hne, textField, field_of_get _ hnew, hstatus'] at hstatus
      exact absurd rfl hstatus
    · have hsame := hother hi hne
      rw [field_congr _ hsame]
      rw [textField, field_congr _ hsame] at hstatus
      exact h.idle i hi hstatus
  · by_cases hne : messageNodeId q s = request.nodeId
    · rw [hne, hnew] at hget'
      rw [← Option.some.inj hget', ← hmessage] at hlabel'
      rw [← hne] at hkeep hget
      exact hkeep.typed h hget hlabel'
    · rw [hother ⟨q, s, rfl⟩ hne] at hget'
      exact h.typed q s v q' hget' hlabel'

/-! ### Appends and renewals -/

theorem lookupRow_msgProps (q : String) (n : ℕ) (exchange routingKey payloadHex : String) :
    lookupRow "type" (msgProps q n exchange routingKey payloadHex) =
      some (.text (queueMsgLabel q)) ∧
    lookupRow "status" (msgProps q n exchange routingKey payloadHex) = some (.text "pending") ∧
    ∀ k ∈ ["node_type", "label", "labels", "delivery_tag"],
      lookupRow k (msgProps q n exchange routingKey payloadHex) = none := by
  unfold msgProps
  refine ⟨?_, ?_, fun k hk => ?_⟩
  · rw [lookupRow_fields]
    simp [List.lookup_cons]
  · rw [lookupRow_fields]
    simp [List.lookup_cons]
  · rw [lookupRow_fields]
    simp only [List.mem_cons, List.not_mem_nil, or_false] at hk
    rcases hk with rfl | rfl | rfl | rfl <;> simp [List.lookup_cons]

theorem lookupRow_appended {q exchange routingKey payloadHex : String} {n : ℕ} {extra : Fields}
    (hplain : Plain extra) {k : String} (hk : k ∈ reservedKeys) :
    lookupRow k (mergeUpdates (msgProps q n exchange routingKey payloadHex) extra) =
      lookupRow k (msgProps q n exchange routingKey payloadHex) :=
  lookupRow_mergeUpdates_of_not_mem (hplain k hk)

theorem Linked.append {exchange routingKey payloadHex queue : String} {extra : Fields}
    (h : Linked exempt core) (htidy : Tidy core) (hplain : Plain extra) :
    Linked exempt (enqueueOne exchange routingKey payloadHex extra core queue) := by
  obtain ⟨htype, hstatus₀, hnone⟩ :=
    lookupRow_msgProps queue (nextSeq core queue) exchange routingKey payloadHex
  have hnew : (enqueueOne exchange routingKey payloadHex extra core queue).nodes.get
      (messageNodeId queue (nextSeq core queue)) = some (.object (mergeUpdates
        (msgProps queue (nextSeq core queue) exchange routingKey payloadHex) extra)) :=
    get_addNode_self _ _ _
  have hlookups : ∀ t, (enqueueOne exchange routingKey payloadHex extra core queue).nodes.get
      (dtagLookupNodeId t) = core.nodes.get (dtagLookupNodeId t) := fun t =>
    get_enqueueOne (used_of_not_message (not_isMessage_lookup t)) (lookup_ne_queueSeq t)
  have hother : ∀ {i}, IsMessage i → i ≠ messageNodeId queue (nextSeq core queue) →
      (enqueueOne exchange routingKey payloadHex extra core queue).nodes.get i =
        core.nodes.get i := by
    intro i hi hne
    unfold enqueueOne
    rw [nodes_note, get_addNode_of_ne _ _ _ _ hne, get_addNode_of_ne _ _ _ _ (hi.ne_queueSeq _)]
  refine ⟨fun q s hexempt hstatus => ?_, fun tag request hget => ?_, fun i hi hstatus => ?_,
    fun q s v q' hget hlabel => ?_⟩
  · have hne : messageNodeId q s ≠ messageNodeId queue (nextSeq core queue) := by
      intro heq
      rw [heq, textField, field_of_get _ hnew, lookupRow_appended hplain (by decide), hstatus₀]
        at hstatus
      exact absurd (Option.some.inj hstatus) (by decide)
    have hsame := hother ⟨q, s, rfl⟩ hne
    rw [textField, field_congr _ hsame] at hstatus
    exact (h.claimed q s hexempt hstatus).congr hsame fun tag _ _ hl _ => (hlookups tag).trans hl
  · rw [hlookups] at hget
    obtain ⟨request', heq, hreq⟩ := htidy.lookups tag _ hget
    rw [← (lookupProps_inj heq).1] at hreq
    have hcarries := h.lookups tag request hget
    obtain ⟨v, hv⟩ := hcarries.present
    refine (carries_congr (hother hreq ?_)).mpr hcarries
    intro hnext
    rw [hnext] at hv
    exact not_used_next core queue (htidy.used _ _ hv)
  · by_cases hne : i = messageNodeId queue (nextSeq core queue)
    · rw [hne, field_of_get _ hnew, lookupRow_appended hplain (by decide), hnone _ (by decide)]
      rfl
    · have hsame := hother hi hne
      rw [field_congr _ hsame]
      rw [textField, field_congr _ hsame] at hstatus
      exact h.idle i hi hstatus
  · by_cases hne : messageNodeId q s = messageNodeId queue (nextSeq core queue)
    · rw [hne, hnew] at hget
      rw [← Option.some.inj hget, labelsOf_eq_type (s := queueMsgLabel queue)
        ((lookupRow_appended hplain (by decide)).trans htype)
        ((lookupRow_appended hplain (by decide)).trans (hnone _ (by decide)))
        ((lookupRow_appended hplain (by decide)).trans (hnone _ (by decide)))
        ((lookupRow_appended hplain (by decide)).trans (hnone _ (by decide))),
        List.mem_singleton] at hlabel
      rw [queueMsgLabel_inj hlabel, (messageNodeId_inj hne).1]
    · rw [hother ⟨q, s, rfl⟩ hne] at hget
      exact h.typed q s v q' hget hlabel

theorem Linked.touch {id : String} {o o₀ : Fields} (h : Linked exempt core) (hid : IsMessage id)
    (hget : core.nodes.get id = some (.object o₀))
    (hkeep : ∀ k ∈ "status" :: "delivery_tag" :: "owner_consumer" :: labelKeys,
      lookupRow k o = lookupRow k o₀) : Linked exempt (core.addNode id (.object o)) := by
  have hnew := get_addNode_self core id (.object o)
  have hfield : ∀ k ∈ "status" :: "delivery_tag" :: "owner_consumer" :: labelKeys, ∀ i,
      field (core.addNode id (.object o)) i k = field core i k := by
    intro k hk i
    by_cases hne : i = id
    · rw [hne, field_of_get _ hnew, field_of_get _ hget, hkeep k hk]
    · exact field_congr _ (get_addNode_of_ne _ _ _ _ hne)
  have hlookups : ∀ t, (core.addNode id (.object o)).nodes.get (dtagLookupNodeId t) =
      core.nodes.get (dtagLookupNodeId t) := fun t =>
    get_addNode_of_ne _ _ _ _ (hid.ne_lookup t).symm
  have hcarries : ∀ {i t}, Carries (core.addNode id (.object o)) i t ↔ Carries core i t := by
    intro i t
    unfold Carries textField
    rw [hfield _ (by decide), hfield _ (by decide)]
  refine ⟨fun q s hexempt hstatus => ?_, fun tag request hl => ?_, fun i hi hstatus => ?_,
    fun q s v q' hv hlabel => ?_⟩
  · rw [textField, hfield _ (by decide)] at hstatus
    obtain ⟨tag, request, hcar, hl, hnode, hqueue, howner⟩ := h.claimed q s hexempt hstatus
    refine ⟨tag, request, hcarries.mpr hcar, (hlookups tag).trans hl, hnode, hqueue, ?_⟩
    rw [textField, hfield _ (by decide)]
    exact howner
  · rw [hlookups] at hl
    exact hcarries.mpr (h.lookups tag request hl)
  · rw [hfield _ (by decide)]
    rw [textField, hfield _ (by decide)] at hstatus
    exact h.idle i hi hstatus
  · rw [get_addNode] at hv
    split_ifs at hv with heq
    · rw [← Option.some.inj hv, labelsOf_congr fun k hk => hkeep k
        (.tail _ (.tail _ (.tail _ hk)))] at hlabel
      exact h.typed q s _ q' (heq ▸ hget) hlabel
    · exact h.typed q s v q' hv hlabel

/-! ### The moves -/

/-- The rules that keep the correspondence: policy fields only, no lookup row retired before its
delivery is gone, no claimed message expires. -/
def strict : Rules where
  extra := Plain
  retire _ := False
  expire o := fStr o "status" ≠ "claimed"
  plain := id
  fresh q n exchange routingKey payloadHex hplain := by
    obtain ⟨-, hstatus, -⟩ := lookupRow_msgProps q n exchange routingKey payloadHex
    rw [fStr, lookupRow_appended hplain (by decide), hstatus]
    decide

theorem retireTag_of_carries {id : String} {tag : ℤ} (h : Carries core id tag) :
    retireTag core ((field core id "delivery_tag").bind asI64) =
      core.removeNode (dtagLookupNodeId tag) := by
  rw [h.2]
  rfl

theorem Linked.removeDelivery {id : String} {tag : ℤ} (h : Linked nobody core) (htidy : Tidy core)
    (hid : IsMessage id) (hcarries : Carries core id tag) :
    Linked nobody (removeDelivery core tag id) := by
  obtain ⟨hlinked, hunnamed⟩ := h.giveUp htidy hid
  rw [retireTag_of_carries hcarries] at hlinked hunnamed
  exact hlinked.drop hunnamed hid

theorem nodes_removeNode (core : Core) (id : String) :
    (core.removeNode id).nodes = core.nodes.remove id := by
  refine Table.ext_get fun i => ?_
  rw [get_removeNode, Table.get_remove]

theorem nodes_removeDelivery_note (core : Core) (e : Event) (tag : ℤ) (id : String) :
    (Delivery.removeDelivery (core.note e) tag id).nodes =
      (Delivery.removeDelivery core tag id).nodes := by
  unfold Delivery.removeDelivery
  rw [nodes_removeNode, nodes_removeNode, nodes_removeNode, nodes_removeNode, nodes_note]

theorem nodes_writeOff (core : Core) (id reason : String) (ea : Option ℕ) (now : ℕ) :
    (writeOff core id reason ea now).nodes = (core.removeNode id).nodes := by
  unfold writeOff
  rw [nodes_removeNode, nodes_removeNode, nodes_note]

theorem Linked.putBack {id : String} {tag : ℤ} {o : Fields} {e : Event} (h : Linked nobody core)
    (htidy : Tidy core) (hid : IsMessage id) (hcarries : Carries core id tag)
    (hrow : core.nodeRowMap id = some o) : Linked nobody (putBack core tag id o e) := by
  obtain ⟨hlinked, hunnamed⟩ := h.giveUp htidy hid
  rw [retireTag_of_carries hcarries] at hlinked hunnamed
  have hsame := get_removeNode_of_ne core (dtagLookupNodeId tag) id (hid.ne_lookup tag)
  have hrow' := (nodeRowMap_congr hsame).trans hrow
  obtain ⟨o₀, ho₀⟩ := nodeRowMap_isSome hrow'
  refine (hlinked.putPending (o := o) hunnamed hid ⟨o₀, ho₀⟩ ?_).of_nodes rfl
  exact keepsLabels_merge hrow' (by decide)

theorem brokerLastDeliveryTag_nonneg {last : ℤ} (h : brokerLastDeliveryTag core = some last) :
    0 ≤ last := by
  unfold brokerLastDeliveryTag at h
  split at h
  · rw [← Option.some.inj h]
  · split_ifs at h
    exact of_decide_eq_true (Option.filter_eq_some_iff.mp h).2

theorem prior_eq {properties : Fields} {prior : Option ℤ}
    (h : brokerPriorDeliveryTag properties = some prior) :
    prior = (lookupRow "delivery_tag" properties).bind asI64 := by
  unfold brokerPriorDeliveryTag at h
  split at h
  · rename_i hnone
    rw [hnone]
    exact (Option.some.inj h).symm
  · rename_i hnull
    rw [hnull]
    exact (Option.some.inj h).symm
  · rename_i value hvalue
    obtain ⟨tag, htag, rfl⟩ := Option.map_eq_some_iff.mp h
    rw [hvalue]
    exact (Option.filter_eq_some_iff.mp htag).1.symm

theorem Linked.claim {request : BrokerClaimRequest} {claim : BrokerClaim} {v : Json}
    (h : Linked nobody core) (htidy : Tidy core) (hv : core.nodes.get request.nodeId = some v)
    (hlabel : queueMsgLabel request.queue ∈ labelsOf v)
    (hclaim : prepareBrokerClaim core request = some claim) :
    Linked nobody (installClaim core request claim) := by
  have hid := htidy.labelled _ _ _ hv hlabel
  obtain ⟨last, hlast, htag, hbound, hfree, properties, hrow, hprior, -, count, lease, hmessage⟩ :=
    prepare_spec hclaim
  have h0 := brokerLastDeliveryTag_nonneg hlast
  have hprior' : claim.priorTag = (field core request.nodeId "delivery_tag").bind asI64 := by
    rw [prior_eq hprior, lookupRow_nodeRowMap (by decide) hrow]
  obtain ⟨hlinked, hunnamed⟩ := h.giveUp htidy hid
  rw [← hprior'] at hlinked hunnamed
  have hsame : (retireTag core claim.priorTag).nodes.get request.nodeId =
      core.nodes.get request.nodeId := get_retireTag hid _
  obtain ⟨o₀, ho₀⟩ := nodeRowMap_isSome hrow
  have hkeep : KeepsLabels (retireTag core claim.priorTag) request.nodeId claim.message := by
    intro k hk
    have hkeys : ∀ k ∈ labelKeys, k ≠ "id" ∧ k ≠ "delivery_tag" ∧ k ∉ ["status", "owner_group",
        "owner_consumer", "delivery_count", "claimed_at", "lease_until", "delivery_tag"] := by
      decide
    obtain ⟨hk1, hk2, hk3⟩ := hkeys k hk
    rw [hmessage, brokerStampClaim, lookupRow_mergeUpdates_of_not_mem hk3, lookupRow_insertRow,
      if_neg hk2, lookupRow_nodeRowMap hk1 hrow, field_congr _ hsame]
  have hfree' : (retireTag core claim.priorTag).nodes.get (dtagLookupNodeId claim.deliveryTag) =
      none := by
    cases claim.priorTag with
    | none => exact hfree
    | some t =>
      change (core.removeNode _).nodes.get _ = none
      rw [get_removeNode]
      split_ifs
      · rfl
      · exact hfree
  have hlabel' : ∀ o, (retireTag core claim.priorTag).nodes.get request.nodeId = some (.object o) →
      queueMsgLabel request.queue ∈ labelsOf (.object o) := by
    intro o ho
    rw [hsame, hv] at ho
    rw [← Option.some.inj ho]
    exact hlabel
  exact (hlinked.stamp (htidy.retireTag _) hunnamed hid ⟨o₀, hsame.trans ho₀⟩ hlabel' hfree'
    (by omega) hbound hmessage hkeep).of_nodes rfl

theorem removeNode_of_absent {id : String} (h : core.nodes.get id = none) :
    core.removeNode id = core := by
  unfold Core.removeNode
  rw [if_neg]
  rw [Core.hasNode, h]
  exact Bool.false_ne_true

/-- **Every move under the strict rules keeps the correspondence.** -/
theorem Linked.move (h : Linked nobody core) (htidy : Tidy core) (hmove : Move strict core core') :
    Linked nobody core' := by
  cases hmove with
  | appended queue exchange routingKey payloadHex extra hplain => exact h.append htidy hplain
  | claimed request claim v hv hlabel hclaim => exact h.claim htidy hv hlabel hclaim
  | retired tag hstale =>
    have habsent : core.nodes.get (dtagLookupNodeId tag) = none := by
      cases hget : core.nodes.get (dtagLookupNodeId tag) with
      | none => rfl
      | some v =>
        obtain ⟨request, rfl, -⟩ := htidy.lookups tag v hget
        exact absurd (h.lookups tag request hget) ((hstale request hget).resolve_left id)
    rw [removeNode_of_absent habsent]
    exact h
  | acked tag consumer id hlive =>
    obtain ⟨_, -, -, -, hid⟩ := hlive.request htidy
    exact (h.removeDelivery htidy hid hlive.carries).of_nodes (nodes_removeDelivery_note _ _ _ _)
  | nacked tag consumer id hlive =>
    obtain ⟨_, -, -, -, hid⟩ := hlive.request htidy
    exact (h.removeDelivery htidy hid hlive.carries).of_nodes (nodes_removeDelivery_note _ _ _ _)
  | renewed tag consumer id o n hlive ho =>
    obtain ⟨_, -, -, -, hid⟩ := hlive.request htidy
    obtain ⟨o₀, ho₀⟩ := nodeRowMap_isSome ho
    refine (h.touch hid ho₀ fun k hk => ?_).of_nodes rfl
    have hkeys : ∀ k ∈ "status" :: "delivery_tag" :: "owner_consumer" :: labelKeys,
        k ≠ "id" ∧ k ≠ "lease_until" := by decide
    rw [lookupRow_insertRow, if_neg (hkeys k hk).2, lookupRow_nodeRowMap (hkeys k hk).1 ho]
    exact field_of_get k ho₀
  | requeued tag consumer id o hlive ho =>
    obtain ⟨_, -, -, -, hid⟩ := hlive.request htidy
    exact h.putBack htidy hid hlive.carries ho
  | released tag id o hid ho hcarries => exact h.putBack htidy hid hcarries ho
  | expired id o now hid hget httl hstatus =>
    have hidle : textField core id "status" ≠ some "claimed" := by
      intro hclaimed
      rw [textField, field_of_get _ hget] at hclaimed
      exact hstatus (by rw [fStr, hclaimed]; rfl)
    obtain ⟨hlinked, hunnamed⟩ := h.giveUp htidy hid
    rw [h.idle id hid hidle] at hlinked hunnamed
    exact (hlinked.drop hunnamed hid).of_nodes (nodes_writeOff _ _ _ _ _)
  | mourned id reason ea now hid hmem _ =>
    have habsent := htidy.gone id hid hmem
    unfold writeOff
    rw [removeNode_of_absent (by exact habsent)]
    exact h.of_nodes rfl

/-! ### Calls by message id -/

def NamesMessage (core : Core) (id : String) : Prop := IsMessage id ∨ core.nodes.get id = none

theorem rowTag_eq {id : String} : (core.nodeObject id).bind rowTag =
    (field core id "delivery_tag").bind asI64 := by
  unfold field rowTag
  cases core.nodeObject id <;> rfl

theorem Linked.ack {id : String} (h : Linked nobody core) (htidy : Tidy core)
    (hnames : NamesMessage core id) :
    Linked nobody (brokerAck core id).1 ∧ Tidy (brokerAck core id).1 := by
  unfold brokerAck
  split_ifs with hhas
  · obtain ⟨v, hv⟩ := (hasNode_iff core id).mp hhas
    have hid : IsMessage id := hnames.resolve_right fun hnone => by
      rw [hnone] at hv
      cases hv
    rw [rowTag_eq]
    obtain ⟨hlinked, hunnamed⟩ := h.giveUp htidy hid
    exact ⟨hlinked.drop hunnamed hid, (htidy.retireTag _).removeNode hid.ne_queueSeq⟩
  · exact ⟨h, htidy⟩

theorem Linked.appends (h : Linked exempt core) (htidy : Tidy core)
    (happends : Appends strict core core') : Linked exempt core' ∧ Tidy core' := by
  induction happends with
  | refl => exact ⟨h, htidy⟩
  | tail _ happend ih =>
    obtain ⟨queue, exchange, routingKey, payloadHex, extra, hplain, rfl⟩ := happend
    exact ⟨ih.1.append ih.2 hplain, ih.2.appended _ _ _ _ _⟩

theorem Unnamed.appends {id : String} (h : Unnamed core id)
    (happends : Appends strict core core') : Unnamed core' id := by
  intro tag request hget
  rw [(happends.get (used_of_not_message (not_isMessage_lookup tag)) (lookup_ne_queueSeq tag)).1]
    at hget
  exact h tag request hget

theorem Linked.reject {id : String} (queue : String) (requeue : Bool) (now : ℕ)
    (h : Linked nobody core) (htidy : Tidy core) (hnames : NamesMessage core id) :
    Linked nobody (brokerReject core queue id requeue now).1 ∧
      Tidy (brokerReject core queue id requeue now).1 := by
  unfold brokerReject
  split
  · exact ⟨h, htidy⟩
  · rename_i o ho
    have hget : core.nodes.get id = some (.object o) := by
      obtain ⟨v, hv, hobj⟩ := Option.bind_eq_some_iff.mp ho
      rw [hv, asObject_eq_some hobj]
    have hid : IsMessage id := hnames.resolve_right fun hnone => by
      rw [hnone] at hget
      cases hget
    have htag : rowTag o = (field core id "delivery_tag").bind asI64 := by
      rw [← rowTag_eq, ho]
      rfl
    obtain ⟨hlinked, hunnamed⟩ := h.giveUp htidy hid
    rw [← htag] at hlinked hunnamed
    have htidy' := htidy.retireTag (rowTag o)
    have hget' : (retireTag core (rowTag o)).nodes.get id = some (.object o) := by
      rw [get_retireTag hid]
      exact hget
    dsimp only
    split_ifs
    · have hset : (retireTag core (rowTag o)).setFields id pendingFields =
          (retireTag core (rowTag o)).addNode id (.object (mergeUpdates o pendingFields)) := by
        have hobj : (retireTag core (rowTag o)).nodeObject id = some o := by
          simp [Core.nodeObject, hget', Json.asObject]
        unfold Core.setFields
        rw [hobj]
      rw [hset]
      refine ⟨hlinked.putPending hunnamed hid ⟨o, hget'⟩ fun k hk => ?_, htidy'.rewrite hid hget'⟩
      have hkeys : ∀ k ∈ labelKeys, k ∉ pendingFields.map Prod.fst := by decide
      rw [lookupRow_mergeUpdates_of_not_mem (hkeys k hk), field_of_get k hget']
    · have happends : Appends strict (retireTag core (rowTag o)) (publishDeadLetter
          (retireTag core (rowTag o)) queue (goneReason requeue) (.object o) now) :=
        appends_publishDeadLetter
      obtain ⟨hlinked₁, htidy₁⟩ := hlinked.appends htidy' happends
      obtain ⟨-, hused⟩ := happends.get (htidy'.used id _ hget') hid.ne_queueSeq
      exact ⟨(hlinked₁.drop (hunnamed.appends happends) hid).of_nodes (nodes_writeOff _ _ _ _ _),
        htidy₁.writeOff hid hused _ _ _⟩

/-! ### Runs -/

/-- What a call must keep to: an append brings policy fields only; a queue that is consumed or swept has
no claimed message past both its lease and its time to live; a nack by tag is of a queue with a name;
and a call by id names a message. -/
def Kept (core : Core) : Call → Prop
  | .byTag call => Permitted strict core call
  | .ack id => NamesMessage core id
  | .reject _ id _ _ => NamesMessage core id

structure Sound (core : Core) : Prop where
  tidy : Tidy core
  linked : Linked nobody core

theorem Sound.course (h : Sound core) (hcourse : Course strict core core') : Sound core' := by
  induction hcourse with
  | refl => exact h
  | tail _ hmove ih => exact ⟨ih.tidy.move hmove, ih.linked.move ih.tidy hmove⟩

theorem Sound.apply {call : Call} (h : Sound core) (hkept : Kept core call) :
    Sound (call.apply core) := by
  cases call with
  | byTag call => exact h.course (course_apply h.tidy hkept)
  | ack id =>
    obtain ⟨hlinked, htidy⟩ := h.linked.ack h.tidy hkept
    exact ⟨htidy, hlinked⟩
  | reject queue id requeue now =>
    obtain ⟨hlinked, htidy⟩ := h.linked.reject queue requeue now h.tidy hkept
    exact ⟨htidy, hlinked⟩

theorem sound_of_unused (h : Unused core) : Sound core := by
  have habsent : ∀ id, IsMessage id → ∀ k, field core id k = none := fun id hid k =>
    field_of_absent k (h.messages id hid)
  refine ⟨h.tidy, fun q s _ hstatus => ?_, fun tag request hget => ?_, fun id hid _ => ?_,
    fun q s v q' hget => ?_⟩
  · rw [textField, habsent _ ⟨q, s, rfl⟩] at hstatus
    cases hstatus
  · rw [h.lookups tag] at hget
    cases hget
  · rw [habsent id hid]
    rfl
  · rw [h.messages _ ⟨q, s, rfl⟩] at hget
    cases hget

/-- **The lookup rows correspond to the claimed messages** in every state of a run whose calls keep to
the conditions. -/
theorem lookups_correspond (core : Core) (hstart : Unused core) (calls : List Call)
    (hkept : Along Call.apply Kept core calls) : Corresponds (run Call.apply core calls) := by
  have hsound := run_invariant_along (I := Sound) (fun _ _ hk h => h.apply hk) calls core hkept
    (sound_of_unused hstart)
  exact hsound.linked.corresponds hsound.tidy

/-- No row has run out both of its lease and of its time to live. -/
def noneLapsed (core : Core) (now : ℕ) : Bool :=
  core.nodes.rows.all fun row =>
    (row.2.asObject).all fun o => !(leaseExpired o now && ttlExpired o now)

theorem due_of_noneLapsed {now : ℕ} {queue : String} (h : noneLapsed core now = true) :
    Due strict core now queue := by
  intro id o hget _ hremovable
  have hrow := List.all_eq_true.mp h (id, .object o) (Table.mem_rows.mpr hget)
  simp only [Json.asObject, Option.all_some, hremovable.2, Bool.and_true, Bool.not_eq_true'] at hrow
  rcases hremovable.1 with hpending | hlease
  · intro hclaimed
    rw [hpending] at hclaimed
    exact absurd hclaimed (by decide)
  · rw [hrow] at hlease
    cases hlease

/-- A message is appended and claimed for ten milliseconds. -/
def claimedCalls : List Call := claimedOnce.map .byTag

theorem lookups_correspond_claimed_calls :
    textField (run Call.apply bare claimedCalls) (messageNodeId "q" 0) "status" = some "claimed" ∧
      Corresponds (run Call.apply bare claimedCalls) := by
  refine ⟨by decide +kernel, lookups_correspond bare unused_bare claimedCalls ⟨?_, ?_, trivial⟩⟩
  · change ∀ k ∈ reservedKeys, k ∉ ["expires_at"]
    decide
  · exact due_of_noneLapsed (by decide +kernel)

/-- The message is then swept, after its lease and its time to live. -/
def sweptCalls : List Call := claimedCalls ++ [.byTag (.sweep 250)]

/-- The lookup row of a swept message stays behind. -/
theorem swept_claim_leaks : Unused bare ∧ ¬ Corresponds (run Call.apply bare sweptCalls) := by
  refine ⟨unused_bare, fun h => ?_⟩
  have hlookup : ((run Call.apply bare sweptCalls).nodes.get (dtagLookupNodeId 1)).isSome = true := by
    decide +kernel
  have hnone : ((run Call.apply bare sweptCalls).nodes.rows.all fun row =>
      row.2.asObject.all fun o => fStr o "status" != "claimed") = true := by
    decide +kernel
  obtain ⟨v, hv⟩ := Option.isSome_iff_exists.mp hlookup
  obtain ⟨request, -, -, hcarries⟩ := h.lookups 1 v hv
  have hstatus := hcarries.1
  obtain ⟨w, hw, htext⟩ := Option.bind_eq_some_iff.mp hstatus
  obtain ⟨o, ho, hfield⟩ := Option.bind_eq_some_iff.mp hw
  obtain ⟨u, hu, hobj⟩ := Option.bind_eq_some_iff.mp ho
  have hrow := List.all_eq_true.mp hnone (request.nodeId, u) (Table.mem_rows.mpr hu)
  simp [hobj, fStr, hfield, htext] at hrow

end Medulla.Broker.Links
