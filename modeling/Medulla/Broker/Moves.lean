import Medulla.Broker.Ids

/-! # The moves of a broker

What a call does to the graph, cut into the transitions of single messages (`Move`): a message is
appended, claimed, settled by its tag, released, or removed because it expired, and a lookup row is
retired when its delivery is gone.

* what a course of moves keeps: `Tidy.move`. -/

namespace Medulla.Broker.Moves

open Library.OrderedTable Resource.Extension Index.Changes Rows Delivery Queues
open Ids

variable {id : String} {core : Core} {o : Fields} {tag : ℤ} {v : Json}

/-! ### Messages -/

def subject : Event → String
  | .enqueued id => id
  | .claimed id _ _ => id
  | .renewed id _ _ => id
  | .acked id _ _ => id
  | .requeued id _ _ => id
  | .nacked id _ _ => id
  | .released id _ => id
  | .deadLettered id _ _ _ => id
  | .removed id => id

def IsMessage (id : String) : Prop := ∃ (q : String) (s : ℕ), id = messageNodeId q s

def Used (core : Core) (id : String) : Prop :=
  ∀ (q : String) (s : ℕ), id = messageNodeId q s → s < nextSeq core q

theorem IsMessage.ne_lookup (h : IsMessage id) (t : ℤ) : id ≠ dtagLookupNodeId t := by
  obtain ⟨q, s, rfl⟩ := h
  exact message_ne_lookup q s t

theorem IsMessage.ne_dtagSeq (h : IsMessage id) : id ≠ dtagSeqNodeId := by
  obtain ⟨q, s, rfl⟩ := h
  exact message_ne_dtagSeq q s

theorem IsMessage.ne_queueSeq (h : IsMessage id) (q : String) : id ≠ queueSeqNodeId q := by
  obtain ⟨q', s, rfl⟩ := h
  exact message_ne_queueSeq q' q s

theorem used_of_not_message (h : ¬ IsMessage id) : Used core id :=
  fun q s hid => absurd ⟨q, s, hid⟩ h

theorem not_isMessage_lookup (t : ℤ) : ¬ IsMessage (dtagLookupNodeId t) :=
  fun h => h.ne_lookup t rfl

theorem not_isMessage_dtagSeq : ¬ IsMessage dtagSeqNodeId := fun h => h.ne_dtagSeq rfl

theorem not_isMessage_queueSeq (q : String) : ¬ IsMessage (queueSeqNodeId q) :=
  fun h => h.ne_queueSeq q rfl

/-! ### The counter of a queue -/

theorem nextSeq_congr {core' : Core} {q : String}
    (h : core'.nodes.get (queueSeqNodeId q) = core.nodes.get (queueSeqNodeId q)) :
    nextSeq core' q = nextSeq core q := by
  unfold nextSeq
  rw [nodeRowMap_congr h]

theorem nextSeq_of_get {q : String} {n : ℕ}
    (h : core.nodes.get (queueSeqNodeId q) = some (seqProps q n)) : nextSeq core q = n := by
  have hrow : core.nodeRowMap (queueSeqNodeId q) ≠ none := by
    simp [Core.nodeRowMap, Core.nodeObject, h, seqProps, Json.asObject]
  obtain ⟨o, ho⟩ := Option.ne_none_iff_exists'.mp hrow
  have hfield : lookupRow "next_seq" o = some (.unsigned n) := by
    rw [lookupRow_nodeRowMap (by decide) ho]
    rw [field_of_get "next_seq" h, lookupRow_fields]
    simp
  simp [nextSeq, ho, hfield, Json.asU64]

theorem Used.congr {core' : Core} (h : Used core id) (hseq : ∀ q, nextSeq core q ≤ nextSeq core' q) :
    Used core' id :=
  fun q s hid => lt_of_lt_of_le (h q s hid) (hseq q)

/-! ### Deliveries -/

def textField (core : Core) (id k : String) : Option String := (field core id k).bind Json.asStr

def Carries (core : Core) (id : String) (tag : ℤ) : Prop :=
  textField core id "status" = some "claimed" ∧ (field core id "delivery_tag").bind asI64 = some tag

theorem isCurrent_iff (h : core.nodeRowMap id = some o) :
    isCurrent o tag = true ↔ Carries core id tag := by
  unfold isCurrent Carries textField
  rw [Bool.and_eq_true, decide_eq_true_eq, decide_eq_true_eq,
    lookupRow_nodeRowMap (by decide) h, lookupRow_nodeRowMap (by decide) h]

theorem carries_congr {core' : Core} (h : core'.nodes.get id = core.nodes.get id) :
    Carries core' id tag ↔ Carries core id tag := by
  unfold Carries textField
  rw [field_congr _ h, field_congr _ h]

structure Live (core : Core) (tag : ℤ) (consumer id : String) : Prop where
  lookup : ∃ l, core.nodeRowMap (dtagLookupNodeId tag) = some l ∧ fStr l "node_id" = id ∧
    (lookupRow "owner_consumer" l).bind Json.asStr = some consumer
  carries : Carries core id tag
  owner : textField core id "owner_consumer" = some consumer

theorem Carries.present (h : Carries core id tag) : ∃ v, core.nodes.get id = some v := by
  rcases hget : core.nodes.get id with _ | v
  · have hstatus := h.1
    rw [textField, field_of_absent _ hget] at hstatus
    cases hstatus
  · exact ⟨v, rfl⟩

theorem Live.present {consumer : String} (h : Live core tag consumer id) :
    ∃ v, core.nodes.get id = some v := h.carries.present

/-- The fields that say what a message is and whether it is delivered. -/
def reservedKeys : List String := ["type", "node_type", "label", "labels", "status", "delivery_tag"]

/-- The fields of an append that leave the message as it is. -/
def Plain (extra : Fields) : Prop := ∀ k ∈ reservedKeys, k ∉ extra.map Prod.fst

/-- What the moves of a group of calls keep to: the fields an append may bring, the queues whose lookup
rows may be retired, and the rows that may expire. -/
structure Rules where
  extra : Fields → Prop
  retire : String → Prop
  expire : Fields → Prop
  plain : ∀ {fs}, Plain fs → extra fs
  fresh : ∀ {fs} (q : String) (n : ℕ) (exchange routingKey payloadHex : String), extra fs →
    expire (mergeUpdates (msgProps q n exchange routingKey payloadHex) fs)

def Rules.all : Rules where
  extra _ := True
  retire _ := True
  expire _ := True
  plain _ := trivial
  fresh _ _ _ _ _ _ := trivial

def Stale (R : Rules) (core : Core) (tag : ℤ) : Prop :=
  ∀ request, core.nodes.get (dtagLookupNodeId tag) = some (lookupProps request) →
    R.retire request.queue ∨ ¬ Carries core request.nodeId tag

def putBack (core : Core) (tag : ℤ) (id : String) (o : Fields) (e : Event) : Core :=
  ((core.removeNode (dtagLookupNodeId tag)).addNode id
    (.object (mergeUpdates o pendingFields))).note e

def writeOff (core : Core) (id reason : String) (ea : Option ℕ) (now : ℕ) : Core :=
  (core.note (.deadLettered id reason ea now)).removeNode id

inductive Move (R : Rules) (core : Core) : Core → Prop
  | appended (queue exchange routingKey payloadHex : String) (extra : Fields) :
      R.extra extra → Move R core (enqueueOne exchange routingKey payloadHex extra core queue)
  | claimed (request : BrokerClaimRequest) (claim : BrokerClaim) (v : Json) :
      core.nodes.get request.nodeId = some v → queueMsgLabel request.queue ∈ labelsOf v →
      prepareBrokerClaim core request = some claim → Move R core (installClaim core request claim)
  | retired (tag : ℤ) : Stale R core tag → Move R core (core.removeNode (dtagLookupNodeId tag))
  | acked (tag : ℤ) (consumer id : String) : Live core tag consumer id →
      Move R core (removeDelivery (core.note (.acked id tag consumer)) tag id)
  | nacked (tag : ℤ) (consumer id : String) : Live core tag consumer id →
      Move R core (removeDelivery (core.note (.nacked id tag consumer)) tag id)
  | renewed (tag : ℤ) (consumer id : String) (o : Fields) (n : ℕ) : Live core tag consumer id →
      core.nodeRowMap id = some o →
      Move R core ((core.addNode id (.object (insertRow "lease_until" (.unsigned n) o))).note
        (.renewed id tag consumer))
  | requeued (tag : ℤ) (consumer id : String) (o : Fields) : Live core tag consumer id →
      core.nodeRowMap id = some o → Move R core (putBack core tag id o (.requeued id tag consumer))
  | released (tag : ℤ) (id : String) (o : Fields) : IsMessage id → core.nodeRowMap id = some o →
      Carries core id tag → Move R core (putBack core tag id o (.released id tag))
  | expired (id : String) (o : Fields) (now : ℕ) : IsMessage id →
      core.nodes.get id = some (.object o) → ttlExpired o now = true → R.expire o →
      Move R core (writeOff core id "expired" (fU64 o "expires_at") now)
  | mourned (id reason : String) (ea : Option ℕ) (now : ℕ) : IsMessage id →
      .removed id ∈ core.journal → reason ≠ "expired" → Move R core (writeOff core id reason ea now)

abbrev Course (R : Rules) : Core → Core → Prop := Relation.ReflTransGen (Move R)

/-! ### Tidy states -/

/-- What holds of the rows in every state of a run. -/
structure Tidy (core : Core) : Prop where
  used : ∀ id v, core.nodes.get id = some v → Used core id
  logged : ∀ e ∈ core.journal, Used core (subject e)
  labelled : ∀ id v q, core.nodes.get id = some v → queueMsgLabel q ∈ labelsOf v → IsMessage id
  lookups : ∀ t v, core.nodes.get (dtagLookupNodeId t) = some v →
    ∃ request, v = lookupProps request ∧ IsMessage request.nodeId
  gone : ∀ id, IsMessage id → .removed id ∈ core.journal → core.nodes.get id = none

section Tidiness

variable {R : Rules} {core' : Core}

theorem labelsOf_eq_type {s : String} (htype : lookupRow "type" o = some (.text s))
    (hnode : lookupRow "node_type" o = none) (hlabel : lookupRow "label" o = none)
    (hlabels : lookupRow "labels" o = none) : labelsOf (.object o) = [s] := by
  simp [labelsOf, nodeLabelKeys, Index.Changes.get, Json.asObject, htype, hnode, hlabel, hlabels,
    Json.asStr]

theorem labelsOf_seqProps (q : String) (n : ℕ) : labelsOf (seqProps q n) = [queueSeqType] := by
  apply labelsOf_eq_type <;> simp [lookupRow_fields, List.lookup_cons]

theorem labelsOf_counterProps (t : ℤ) : labelsOf (counterProps t) = [brokerCounterType] := by
  apply labelsOf_eq_type <;> simp [lookupRow_fields, List.lookup_cons]

theorem labelsOf_lookupProps (request : BrokerClaimRequest) :
    labelsOf (lookupProps request) = [dtagLookupType] := by
  apply labelsOf_eq_type <;> simp [lookupRow_fields, List.lookup_cons]

theorem nextSeq_of_rows (h : ∀ q, core'.nodes.get (queueSeqNodeId q) = core.nodes.get (queueSeqNodeId q))
    (q : String) : nextSeq core q ≤ nextSeq core' q :=
  (nextSeq_congr (h q)).ge

theorem Tidy.note {e : Event} (h : Tidy core) (hused : Used core (subject e))
    (hremoved : ∀ id, e ≠ .removed id) : Tidy (core.note e) where
  used := h.used
  logged e' he' := by
    rcases List.mem_append.mp he' with he' | he'
    · exact h.logged e' he'
    · rw [List.mem_singleton.mp he']
      exact hused
  labelled := h.labelled
  lookups := h.lookups
  gone id hid hmem := by
    rcases List.mem_append.mp hmem with hmem | hmem
    · exact h.gone id hid hmem
    · exact absurd (List.mem_singleton.mp hmem).symm (hremoved id)

theorem Tidy.removeNode (h : Tidy core) (hseq : ∀ q, id ≠ queueSeqNodeId q) :
    Tidy (core.removeNode id) := by
  have hrows : ∀ q, (core.removeNode id).nodes.get (queueSeqNodeId q) =
      core.nodes.get (queueSeqNodeId q) := fun q => get_removeNode_of_ne core id _ (hseq q).symm
  have hkept : ∀ {i v}, (core.removeNode id).nodes.get i = some v →
      i ≠ id ∧ core.nodes.get i = some v := by
    intro i v hi
    rw [get_removeNode] at hi
    split_ifs at hi with heq
    exact ⟨heq, hi⟩
  refine ⟨fun i v hi => ?_, fun e he => ?_, fun i v q hi hl => ?_, fun t v hi => ?_,
    fun i hi hmem => ?_⟩
  · exact (h.used i v (hkept hi).2).congr (nextSeq_of_rows hrows)
  · rw [journal_removeNode] at he
    rcases List.mem_append.mp he with he | he
    · exact (h.logged e he).congr (nextSeq_of_rows hrows)
    · obtain ⟨rfl, hhas⟩ := mem_removal _ _ _ he
      obtain ⟨v, hv⟩ := (hasNode_iff _ _).mp hhas
      exact (h.used id v hv).congr (nextSeq_of_rows hrows)
  · exact h.labelled i v q (hkept hi).2 hl
  · exact h.lookups t v (hkept hi).2
  · rw [get_removeNode]
    split_ifs with heq
    · rfl
    · rw [journal_removeNode] at hmem
      rcases List.mem_append.mp hmem with hmem | hmem
      · exact h.gone i hi hmem
      · exact absurd (Event.removed.inj (mem_removal _ _ _ hmem).1) heq

theorem Tidy.addNode (h : Tidy core) (hseq : ∀ q, id ≠ queueSeqNodeId q) (hused : Used core id)
    (hlabel : ∀ q, queueMsgLabel q ∈ labelsOf v → IsMessage id)
    (hlookup : ∀ t, id = dtagLookupNodeId t →
      ∃ request, v = lookupProps request ∧ IsMessage request.nodeId)
    (hlive : IsMessage id → .removed id ∉ core.journal) : Tidy (core.addNode id v) := by
  have hrows : ∀ q, (core.addNode id v).nodes.get (queueSeqNodeId q) =
      core.nodes.get (queueSeqNodeId q) := fun q => get_addNode_of_ne core id _ v (hseq q).symm
  refine ⟨fun i w hi => ?_, fun e he => ?_, fun i w q hi hl => ?_, fun t w hi => ?_,
    fun i hi hmem => ?_⟩
  · refine Used.congr ?_ (nextSeq_of_rows hrows)
    rw [get_addNode] at hi
    split_ifs at hi with heq
    · rw [heq]
      exact hused
    · exact h.used i w hi
  · exact (h.logged e he).congr (nextSeq_of_rows hrows)
  · rw [get_addNode] at hi
    split_ifs at hi with heq
    · rw [heq]
      rw [← Option.some.inj hi] at hl
      exact hlabel q hl
    · exact h.labelled i w q hi hl
  · rw [get_addNode] at hi
    split_ifs at hi with heq
    · rw [← Option.some.inj hi]
      exact hlookup t heq.symm
    · exact h.lookups t w hi
  · rw [get_addNode]
    split_ifs with heq
    · rw [heq] at hi hmem
      exact absurd hmem (hlive hi)
    · exact h.gone i hi hmem

theorem Tidy.rewrite {w : Json} (h : Tidy core) (hid : IsMessage id)
    (hv : core.nodes.get id = some v) : Tidy (core.addNode id w) := by
  refine h.addNode hid.ne_queueSeq (h.used id v hv) (fun _ _ => hid)
    (fun t ht => absurd ht (hid.ne_lookup t)) fun _ hmem => ?_
  rw [h.gone id hid hmem] at hv
  cases hv

theorem nextSeq_bump (core : Core) (q q' : String) :
    nextSeq (core.addNode (queueSeqNodeId q) (seqProps q (nextSeq core q + 1))) q' =
      if q' = q then nextSeq core q + 1 else nextSeq core q' := by
  split_ifs with hq
  · subst hq
    exact nextSeq_of_get (get_addNode_self _ _ _)
  · exact nextSeq_congr (get_addNode_of_ne _ _ _ _ fun heq => hq (queueSeqNodeId_inj heq))

theorem Tidy.bump (h : Tidy core) (q : String) :
    Tidy (core.addNode (queueSeqNodeId q) (seqProps q (nextSeq core q + 1))) := by
  have hle : ∀ q', nextSeq core q' ≤
      nextSeq (core.addNode (queueSeqNodeId q) (seqProps q (nextSeq core q + 1))) q' := by
    intro q'
    rw [nextSeq_bump]
    split_ifs with hq
    · rw [hq]
      omega
    · exact le_rfl
  refine ⟨fun i w hi => ?_, fun e he => (h.logged e he).congr hle, fun i w q' hi hl => ?_,
    fun t w hi => ?_, fun i hi hmem => ?_⟩
  · rw [get_addNode] at hi
    split_ifs at hi with heq
    · rw [heq]
      exact used_of_not_message (not_isMessage_queueSeq q)
    · exact (h.used i w hi).congr hle
  · rw [get_addNode] at hi
    split_ifs at hi with heq
    · rw [← Option.some.inj hi, labelsOf_seqProps, List.mem_singleton] at hl
      exact absurd hl (queueMsgLabel_ne (by decide))
    · exact h.labelled i w q' hi hl
  · rw [get_addNode_of_ne _ _ _ _ (lookup_ne_queueSeq t q)] at hi
    exact h.lookups t w hi
  · rw [get_addNode_of_ne _ _ _ _ (hi.ne_queueSeq q)]
    exact h.gone i hi hmem

theorem nextSeq_enqueueOne (core : Core) (exchange routingKey payloadHex queue : String)
    (extra : Fields) (q : String) :
    nextSeq (enqueueOne exchange routingKey payloadHex extra core queue) q =
      if q = queue then nextSeq core queue + 1 else nextSeq core q := by
  rw [← nextSeq_bump]
  refine nextSeq_congr ?_
  unfold enqueueOne
  rw [nodes_note, get_addNode_of_ne _ _ _ _ (message_ne_queueSeq queue q (nextSeq core queue)).symm]

theorem not_used_next (core : Core) (q : String) : ¬ Used core (messageNodeId q (nextSeq core q)) :=
  fun h => lt_irrefl _ (h q (nextSeq core q) rfl)

theorem Tidy.appended (h : Tidy core) (exchange routingKey payloadHex : String) (extra : Fields)
    (q : String) : Tidy (enqueueOne exchange routingKey payloadHex extra core q) := by
  have hid : IsMessage (messageNodeId q (nextSeq core q)) := ⟨q, nextSeq core q, rfl⟩
  have hused : Used (core.addNode (queueSeqNodeId q) (seqProps q (nextSeq core q + 1)))
      (messageNodeId q (nextSeq core q)) := by
    intro q' s heq
    obtain ⟨rfl, hs⟩ := messageNodeId_inj heq
    rw [nextSeq_bump, if_pos rfl]
    omega
  have hrow : ∀ v, Tidy ((core.addNode (queueSeqNodeId q) (seqProps q (nextSeq core q + 1))).addNode
      (messageNodeId q (nextSeq core q)) v) := fun v =>
    (h.bump q).addNode hid.ne_queueSeq hused (fun _ _ => hid)
      (fun t ht => absurd ht (hid.ne_lookup t))
      fun _ hmem => not_used_next core q (h.logged _ hmem)
  refine (hrow _).note ?_ fun _ => nofun
  exact (hrow (.object (mergeUpdates (msgProps q (nextSeq core q) exchange routingKey payloadHex)
    extra))).used _ _ (get_addNode_self _ _ _)

theorem Tidy.retireTag (h : Tidy core) : ∀ tag, Tidy (retireTag core tag)
  | none => h
  | some tag => h.removeNode (lookup_ne_queueSeq tag)

theorem lookupRow_lookupProps {l : Fields} {request : BrokerClaimRequest}
    (hrow : core.nodeRowMap (dtagLookupNodeId tag) = some l)
    (hget : core.nodes.get (dtagLookupNodeId tag) = some (lookupProps request)) :
    lookupRow "type" l = some (.text dtagLookupType) ∧
      lookupRow "node_id" l = some (.text request.nodeId) ∧
      lookupRow "queue" l = some (.text request.queue) ∧
      lookupRow "owner_consumer" l = some (.text request.consumer) := by
  have hfield : ∀ k, k ≠ "id" → lookupRow k l = lookupRow k (fields
      [("type", .text dtagLookupType), ("node_id", .text request.nodeId),
        ("queue", .text request.queue), ("owner_consumer", .text request.consumer)]) := by
    intro k hk
    rw [lookupRow_nodeRowMap hk hrow]
    exact field_of_get k hget
  refine ⟨?_, ?_, ?_, ?_⟩
  · rw [hfield _ (by decide), lookupRow_fields]
    simp [List.lookup_cons]
  · rw [hfield _ (by decide), lookupRow_fields]
    simp [List.lookup_cons]
  · rw [hfield _ (by decide), lookupRow_fields]
    simp [List.lookup_cons]
  · rw [hfield _ (by decide), lookupRow_fields]
    simp

theorem lookupProps_inj {request request' : BrokerClaimRequest}
    (h : lookupProps request = lookupProps request') : request.nodeId = request'.nodeId ∧
      request.queue = request'.queue ∧ request.consumer = request'.consumer := by
  have hfields := Json.object.inj h
  have hkey : ∀ k : String, lookupRow k (fields _) = lookupRow k (fields _) := fun k =>
    congrArg (lookupRow k) hfields
  have hnode := hkey "node_id"
  have hqueue := hkey "queue"
  have hcons := hkey "owner_consumer"
  simp only [lookupRow_fields, List.reverse_cons, List.reverse_nil, List.nil_append,
    List.cons_append, List.lookup_cons, String.reduceBEq, Option.some.injEq, Json.text.injEq]
    at hnode hqueue hcons
  exact ⟨hnode, hqueue, hcons⟩

theorem Live.request {consumer : String} (hlive : Live core tag consumer id) (h : Tidy core) :
    ∃ request, core.nodes.get (dtagLookupNodeId tag) = some (lookupProps request) ∧
      request.nodeId = id ∧ request.consumer = consumer ∧ IsMessage id := by
  obtain ⟨l, hrow, hid, howner⟩ := hlive.lookup
  obtain ⟨o, ho⟩ := nodeRowMap_isSome hrow
  obtain ⟨request, hv, hmsg⟩ := h.lookups tag _ ho
  rw [hv] at ho
  obtain ⟨-, hnode, -, hcons⟩ := lookupRow_lookupProps hrow ho
  have hid' : request.nodeId = id := by
    rw [← hid, fStr, hnode]
    rfl
  have hcons' : request.consumer = consumer := by
    rw [hcons] at howner
    exact Option.some.inj howner
  exact ⟨request, ho, hid', hcons', hid' ▸ hmsg⟩

theorem Tidy.writeOff (h : Tidy core) (hid : IsMessage id) (hused : Used core id) (reason : String)
    (ea : Option ℕ) (now : ℕ) : Tidy (writeOff core id reason ea now) :=
  (h.note (e := .deadLettered id reason ea now) hused fun _ => nofun).removeNode hid.ne_queueSeq

theorem Tidy.removeDelivery (h : Tidy core) (hid : IsMessage id) :
    Tidy (removeDelivery core tag id) :=
  (h.removeNode (lookup_ne_queueSeq tag)).removeNode hid.ne_queueSeq

theorem Tidy.putBack {e : Event} (h : Tidy core) (hid : IsMessage id)
    (hv : core.nodes.get id = some v) (he : subject e = id) (hremoved : ∀ i, e ≠ .removed i) :
    Tidy (putBack core tag id o e) := by
  have hretired := h.removeNode (lookup_ne_queueSeq tag)
  have hv' : (core.removeNode (dtagLookupNodeId tag)).nodes.get id = some v := by
    rw [get_removeNode_of_ne _ _ _ (hid.ne_lookup tag)]
    exact hv
  have hput := hretired.rewrite (w := .object (mergeUpdates o pendingFields)) hid hv'
  refine hput.note ?_ hremoved
  rw [he]
  exact hput.used id _ (get_addNode_self _ _ _)

theorem get_retireTag (hid : IsMessage id) :
    ∀ tag, (Delivery.retireTag core tag).nodes.get id = core.nodes.get id
  | none => rfl
  | some tag => get_removeNode_of_ne _ _ _ (hid.ne_lookup tag)

theorem Tidy.installClaim {request : BrokerClaimRequest} {claim : BrokerClaim} (h : Tidy core)
    (hid : IsMessage request.nodeId) (hv : core.nodes.get request.nodeId = some v) :
    Tidy (installClaim core request claim) := by
  have hcounter : Tidy ((Delivery.retireTag core claim.priorTag).addNode dtagSeqNodeId
      (counterProps claim.deliveryTag)) := by
    refine (h.retireTag _).addNode dtagSeq_ne_queueSeq (used_of_not_message not_isMessage_dtagSeq)
      (fun q hq => ?_) (fun t ht => absurd ht.symm (lookup_ne_dtagSeq t))
      fun hmsg => absurd hmsg not_isMessage_dtagSeq
    rw [labelsOf_counterProps, List.mem_singleton] at hq
    exact absurd hq (queueMsgLabel_ne (by decide))
  have hmessage := hcounter.rewrite (w := .object claim.message) hid (v := v) (by
    rw [get_addNode_of_ne _ _ _ _ hid.ne_dtagSeq, get_retireTag hid]
    exact hv)
  have hlookup : Tidy ((((Delivery.retireTag core claim.priorTag).addNode dtagSeqNodeId
      (counterProps claim.deliveryTag)).addNode request.nodeId (.object claim.message)).addNode
        (dtagLookupNodeId claim.deliveryTag) (lookupProps request)) := by
    refine hmessage.addNode (lookup_ne_queueSeq _) (used_of_not_message (not_isMessage_lookup _))
      (fun q hq => ?_) (fun t _ => ⟨request, rfl, hid⟩)
      fun hmsg => absurd hmsg (not_isMessage_lookup _)
    rw [labelsOf_lookupProps, List.mem_singleton] at hq
    exact absurd hq (queueMsgLabel_ne (by decide))
  refine hlookup.note ?_ fun _ => nofun
  exact hlookup.used request.nodeId (.object claim.message) (by
    rw [get_addNode_of_ne _ _ _ _ (hid.ne_lookup _), get_addNode_self])

/-- **Every move keeps the rows tidy.** -/
theorem Tidy.move (h : Tidy core) (hmove : Move R core core') : Tidy core' := by
  cases hmove with
  | appended queue exchange routingKey payloadHex extra _ => exact h.appended _ _ _ _ _
  | claimed request claim v hv hlabel _ => exact h.installClaim (h.labelled _ _ _ hv hlabel) hv
  | retired tag _ => exact h.removeNode (lookup_ne_queueSeq tag)
  | acked tag consumer id hlive =>
    obtain ⟨_, -, -, -, hid⟩ := hlive.request h
    obtain ⟨v, hv⟩ := hlive.present
    exact (h.note (e := .acked id tag consumer) (h.used id v hv) fun _ => nofun).removeDelivery hid
  | nacked tag consumer id hlive =>
    obtain ⟨_, -, -, -, hid⟩ := hlive.request h
    obtain ⟨v, hv⟩ := hlive.present
    exact (h.note (e := .nacked id tag consumer) (h.used id v hv) fun _ => nofun).removeDelivery hid
  | renewed tag consumer id o n hlive ho =>
    obtain ⟨_, -, -, -, hid⟩ := hlive.request h
    obtain ⟨v, hv⟩ := hlive.present
    have hput := h.rewrite (w := .object (insertRow "lease_until" (.unsigned n) o)) hid hv
    exact hput.note (hput.used id _ (get_addNode_self _ _ _)) fun _ => nofun
  | requeued tag consumer id o hlive ho =>
    obtain ⟨_, -, -, -, hid⟩ := hlive.request h
    obtain ⟨v, hv⟩ := hlive.present
    exact h.putBack hid hv rfl fun _ => nofun
  | released tag id o hid ho _ =>
    obtain ⟨v, hv⟩ := nodeRowMap_isSome ho
    exact h.putBack hid hv rfl fun _ => nofun
  | expired id o now hid hget _ _ => exact h.writeOff hid (h.used id _ hget) _ _ _
  | mourned id reason ea now hid hmem _ => exact h.writeOff hid (h.logged _ hmem) _ _ _

theorem Tidy.course (h : Tidy core) (hcourse : Course R core core') : Tidy core' := by
  induction hcourse with
  | refl => exact h
  | tail _ hmove ih => exact ih.move hmove

end Tidiness

end Medulla.Broker.Moves
