import Medulla.Broker.Moves

/-! # The moves of each call

Every call is a course of moves.

* each call: `course_apply`, `ack_spec`, `renew_spec`, `nack_spec`. -/

namespace Medulla.Broker.Courses

open Library.OrderedTable Resource.Extension Index.Changes Rows Delivery Queues
open Ids Moves

variable {R : Rules} {core core' : Core} {queue id reason consumer : String} {e : Event}
  {o : Fields} {props v : Json} {now : ℕ} {tag : ℤ} {exchange routingKey payloadHex : String}

/-! ### Appends -/

def Append (R : Rules) (core core' : Core) : Prop :=
  ∃ queue exchange routingKey payloadHex extra, R.extra extra ∧
    core' = enqueueOne exchange routingKey payloadHex extra core queue

abbrev Appends (R : Rules) : Core → Core → Prop := Relation.ReflTransGen (Append R)

theorem Append.move (h : Append R core core') : Move R core core' := by
  obtain ⟨queue, exchange, routingKey, payloadHex, extra, hextra, rfl⟩ := h
  exact .appended queue exchange routingKey payloadHex extra hextra

theorem Appends.course (h : Appends R core core') : Course R core core' := by
  induction h with
  | refl => exact .refl
  | tail _ happend ih => exact ih.tail happend.move

theorem get_enqueueOne {extra : Fields}
    (hused : Used core id) (hseq : ∀ q, id ≠ queueSeqNodeId q) :
    (enqueueOne exchange routingKey payloadHex extra core queue).nodes.get id =
      core.nodes.get id := by
  have hnew : id ≠ messageNodeId queue (nextSeq core queue) := by
    rintro rfl
    exact not_used_next core queue hused
  unfold enqueueOne
  rw [nodes_note, get_addNode_of_ne _ _ _ _ hnew, get_addNode_of_ne _ _ _ _ (hseq queue)]

theorem Appends.get (h : Appends R core core') (hused : Used core id)
    (hseq : ∀ q, id ≠ queueSeqNodeId q) :
    core'.nodes.get id = core.nodes.get id ∧ Used core' id := by
  induction h with
  | refl => exact ⟨rfl, hused⟩
  | @tail b c hb happend ih =>
    obtain ⟨queue, exchange, routingKey, payloadHex, extra, -, rfl⟩ := happend
    refine ⟨(get_enqueueOne ih.2 hseq).trans ih.1, ih.2.congr fun q => ?_⟩
    rw [nextSeq_enqueueOne]
    split_ifs with hq
    · rw [hq]
      omega
    · exact le_rfl

theorem Append.journal (h : Append R core core') (he : e ∈ core.journal) : e ∈ core'.journal := by
  obtain ⟨queue, exchange, routingKey, payloadHex, extra, -, rfl⟩ := h
  exact List.mem_append_left _ he

theorem Appends.journal (h : Appends R core core') (he : e ∈ core.journal) : e ∈ core'.journal := by
  induction h with
  | refl => exact he
  | tail _ happend ih => exact happend.journal ih

theorem appends_enqueue {extra : Fields}
    (hextra : R.extra extra) : ∀ (queues : List String) (core : Core),
      Appends R core (queues.foldl (enqueueOne exchange routingKey payloadHex extra) core)
  | [], _ => .refl
  | queue :: queues, _ =>
    .head ⟨queue, exchange, routingKey, payloadHex, extra, hextra, rfl⟩
      (appends_enqueue hextra queues _)

theorem mem_keys_mergeUpdates {k : String} : ∀ {updates o : Fields},
    k ∈ (mergeUpdates o updates).map Prod.fst → k ∈ o.map Prod.fst ∨ k ∈ updates.map Prod.fst
  | [], _, h => Or.inl h
  | (k', v) :: updates, o, h => by
    rw [mergeUpdates, List.foldl_cons] at h
    rcases mem_keys_mergeUpdates h with h | h
    · obtain ⟨row, hrow, rfl⟩ := List.mem_map.mp h
      rcases mem_insertRow hrow with rfl | hrow
      · exact Or.inr (.head _)
      · exact Or.inl (List.mem_map_of_mem hrow)
    · exact Or.inr (.tail _ h)

theorem plain_mergeUpdates {updates : Fields} (ho : Plain o) (hu : Plain updates) :
    Plain (mergeUpdates o updates) := by
  intro k hk hmem
  rcases mem_keys_mergeUpdates hmem with h | h
  · exact ho k hk h
  · exact hu k hk h

theorem plain_policyFields (request : ResolvedPublish) (policy : QueuePolicy) :
    Plain (policyFields request policy) := by
  intro k hk hmem
  have hkeys : k = "priority" ∨ k = "deliver_at" ∨ k = "expires_at" := by
    unfold policyFields at hmem
    rw [List.map_append, List.map_append, List.mem_append, List.mem_append] at hmem
    rcases hmem with (h | h) | h
    · split_ifs at h
      · exact Or.inl (by simpa using h)
      · exact absurd h List.not_mem_nil
    · cases hd : request.deliverAt <;> simp [hd] at h
      exact Or.inr (Or.inl h)
    · cases hd : expiresAt request policy <;> simp [hd] at h
      exact Or.inr (Or.inr h)
  rcases hkeys with rfl | rfl | rfl <;> exact absurd hk (by decide)

theorem appends_publishResolved {request : ResolvedPublish} (hheaders : Plain request.headers) :
    Appends R core (publishResolved core request) := by
  unfold publishResolved
  split
  · exact .refl
  · have hqueues : ∀ (queues : List String) (core : Core),
        Appends R core (queues.foldl (publishTo request) core) := by
      intro queues
      induction queues with
      | nil => exact fun _ => .refl
      | cons queue queues ih =>
        intro core
        refine Relation.ReflTransGen.trans ?_ (ih _)
        exact appends_enqueue (R.plain (plain_mergeUpdates hheaders (plain_policyFields _ _))) _ _
    exact hqueues _ _

theorem plain_deadLetterHeaders (queue reason dlx : String) (policy : QueuePolicy) (obj : Fields)
    (now : ℕ) : Plain (deadLetterPublish queue reason dlx policy obj now).headers := by
  refine plain_mergeUpdates (fun k _ => List.not_mem_nil) fun k hk hmem => ?_
  have hkeys : k = "x-death" ∨ k = "x-first-death-queue" ∨ k = "x-first-death-reason" := by
    simpa using hmem
  rcases hkeys with rfl | rfl | rfl <;> exact absurd hk (by decide)

theorem appends_publishDeadLetter :
    Appends R core (publishDeadLetter core queue reason props now) := by
  unfold publishDeadLetter
  split
  · exact .refl
  · dsimp only
    split
    · exact .refl
    · exact appends_publishResolved (plain_deadLetterHeaders _ _ _ _ _ _)

theorem course_deadLetter (queue : String) (htidy : Tidy core) (hid : IsMessage id)
    (hget : core.nodes.get id = some (.object o)) (httl : ttlExpired o now = true)
    (hexpire : R.expire o) :
    Course R core (deadLetter core queue id (.object o) "expired" now) := by
  have happends : Appends R core (publishDeadLetter core queue "expired" (.object o) now) :=
    appends_publishDeadLetter
  refine happends.course.tail (.expired id o now hid ?_ httl hexpire)
  rw [(happends.get (htidy.used id _ hget) hid.ne_queueSeq).1]
  exact hget

theorem course_deadLetter_of_gone (hid : IsMessage id) (hgone : .removed id ∈ core.journal)
    (hreason : reason ≠ "expired") : Course R core (deadLetter core queue id props reason now) := by
  have happends : Appends R core (publishDeadLetter core queue reason props now) :=
    appends_publishDeadLetter
  exact happends.course.tail (.mourned id reason _ now hid (happends.journal hgone) hreason)

/-! ### Rows that may be removed -/

/-- A row that a scan or a sweep dead-letters. -/
def Removable (o : Fields) (now : ℕ) : Prop :=
  (fStr o "status" = "pending" ∨ leaseExpired o now = true) ∧ ttlExpired o now = true

/-- Every row of the queue that would be dead-lettered may expire. -/
def Due (R : Rules) (core : Core) (now : ℕ) (queue : String) : Prop :=
  ∀ id o, core.nodes.get id = some (.object o) → queueMsgLabel queue ∈ labelsOf (.object o) →
    Removable o now → R.expire o

theorem due_all (core : Core) (now : ℕ) (queue : String) : Due .all core now queue :=
  fun _ _ _ _ _ => trivial

theorem Due.append (h : Due R core now queue) (happend : Append R core core') :
    Due R core' now queue := by
  obtain ⟨q, exchange, routingKey, payloadHex, extra, hextra, rfl⟩ := happend
  intro id o hget hlabel hremovable
  unfold enqueueOne at hget
  rw [nodes_note, get_addNode] at hget
  split_ifs at hget with hnew
  · rw [← Json.object.inj (Option.some.inj hget)]
    exact R.fresh _ _ _ _ _ hextra
  · rw [get_addNode] at hget
    split_ifs at hget with hseq
    · rw [← Option.some.inj hget, labelsOf_seqProps, List.mem_singleton] at hlabel
      exact absurd hlabel (queueMsgLabel_ne (by decide))
    · exact h id o hget hlabel hremovable

theorem Due.appends (h : Due R core now queue) (happends : Appends R core core') :
    Due R core' now queue := by
  induction happends with
  | refl => exact h
  | tail _ happend ih => exact ih.append happend

theorem Due.deadLetter {now' : ℕ} {queue' : String} (h : Due R core now queue) :
    Due R (deadLetter core queue' id props reason now') now queue := by
  have happends : Due R (publishDeadLetter core queue' reason props now') now queue :=
    h.appends appends_publishDeadLetter
  intro i o hget hlabel hremovable
  unfold Queues.deadLetter at hget
  rw [get_removeNode] at hget
  split_ifs at hget
  exact happends i o hget hlabel hremovable

theorem get_deadLetter {id' : String} (hused : Used core id') (hseq : ∀ q, id' ≠ queueSeqNodeId q) :
    (deadLetter core queue id props reason now).nodes.get id' =
      if id' = id then none else core.nodes.get id' := by
  have happends : Appends .all core (publishDeadLetter core queue reason props now) :=
    appends_publishDeadLetter
  unfold deadLetter
  rw [get_removeNode, nodes_note, (happends.get hused hseq).1]

theorem used_deadLetter {id' : String} (hid : IsMessage id) (hid' : IsMessage id')
    (hused : Used core id') : Used (deadLetter core queue id props reason now) id' := by
  have happends : Appends .all core (publishDeadLetter core queue reason props now) :=
    appends_publishDeadLetter
  refine (happends.get hused hid'.ne_queueSeq).2.congr (nextSeq_of_rows fun q => ?_)
  unfold deadLetter
  rw [get_removeNode_of_ne _ _ _ (hid.ne_queueSeq q).symm, nodes_note]

/-! ### The scan -/

theorem mem_getNodesByLabel {label : String} :
    (id, v) ∈ core.getNodesByLabel label ↔ core.nodes.get id = some v ∧ label ∈ labelsOf v := by
  unfold Core.getNodesByLabel
  rw [List.mem_filter, Table.mem_rows, List.contains_iff_mem]

theorem asObject_eq_some (h : v.asObject = some o) : v = .object o := by
  cases v with
  | object fs => exact congrArg _ (Option.some.inj h)
  | _ => cases h

theorem removable_of_claimability (h : claimability o consumer now = .expired) :
    Removable o now := by
  have hdue : ∀ {r}, dueness o now r = .expired → ttlExpired o now = true := by
    intro r hr
    unfold dueness at hr
    split_ifs at hr with httl
    exact httl
  unfold claimability at h
  split_ifs at h with hclaimed hlive howner hpending
  · refine ⟨Or.inr ?_, hdue h⟩
    unfold leaseExpired
    unfold leaseLive at hlive
    rw [decide_eq_true hclaimed]
    cases hl : fU64 o "lease_until" with
    | none => simp [hl] at hlive
    | some l =>
      rw [hl, Option.map_some, Option.getD_some, decide_eq_true_eq, not_lt] at hlive
      exact decide_eq_true hlive
  · exact ⟨Or.inl hpending, hdue h⟩

theorem mem_expired : ∀ {rows : List (String × Json)} {scan : QueueScan},
      id ∈ (rows.foldl (scanRow consumer now) scan).expired →
        id ∈ scan.expired ∨ ∃ o, (id, .object o) ∈ rows ∧ Removable o now
  | [], _, h => Or.inl h
  | (i, v) :: rows, scan, h => by
    rw [List.foldl_cons] at h
    rcases mem_expired h with h | ⟨o, ho, hr⟩
    · unfold scanRow at h
      split at h
      · exact Or.inl h
      · rename_i o ho
        split at h
        · exact Or.inl h
        · exact Or.inl h
        · rename_i hexpired
          rcases List.mem_append.mp h with h | h
          · exact Or.inl h
          · rw [List.mem_singleton.mp h]
            refine Or.inr ⟨o, ?_, removable_of_claimability hexpired⟩
            rw [← asObject_eq_some ho]
            exact .head _
        · exact Or.inl h
    · exact Or.inr ⟨o, .tail _ ho, hr⟩

theorem prefer_cases {best : Option Candidate} {b cand : Candidate} (h : prefer best b = some cand) :
    best = some cand ∨ cand = b := by
  unfold prefer at h
  split at h
  · exact Or.inr (Option.some.inj h).symm
  · split_ifs at h
    · exact Or.inr (Option.some.inj h).symm
    · exact Or.inl h

theorem best_mem {cand : Candidate} : ∀ {rows : List (String × Json)} {scan : QueueScan},
      (rows.foldl (scanRow consumer now) scan).best = some cand →
        scan.best = some cand ∨ ∃ v, (cand.id, v) ∈ rows
  | [], _, h => Or.inl h
  | (i, v) :: rows, scan, h => by
    rw [List.foldl_cons] at h
    rcases best_mem h with h | ⟨w, hw⟩
    · unfold scanRow at h
      split at h
      · exact Or.inl h
      · split at h
        · exact Or.inl h
        · exact Or.inl h
        · exact Or.inl h
        · rcases prefer_cases h with h | rfl
          · exact Or.inl h
          · exact Or.inr ⟨v, .head _⟩
    · exact Or.inr ⟨w, .tail _ hw⟩

/-! ### Consuming -/

def Doomed (R : Rules) (core : Core) (now : ℕ) (ids : List String) : Prop :=
  ∀ id ∈ ids, IsMessage id ∧ Used core id ∧ ∀ v, core.nodes.get id = some v →
    ∃ o, v = .object o ∧ ttlExpired o now = true ∧ R.expire o

theorem course_deadLetterExpired :
    ∀ {ids : List String} {core : Core}, Tidy core → Doomed R core now ids → Due R core now queue →
      Course R core (deadLetterExpired core queue ids now) ∧
        Due R (deadLetterExpired core queue ids now) now queue
  | [], _, _, _, hdue => ⟨.refl, hdue⟩
  | id :: ids, core, htidy, hdoomed, hdue => by
    obtain ⟨hid, -, hrow⟩ := hdoomed id (.head _)
    have hrest : Doomed R core now ids := fun i hi => hdoomed i (.tail _ hi)
    rw [deadLetterExpired, List.foldl_cons]
    unfold deadLetterScanned
    cases hget : core.nodes.get id with
    | none => exact course_deadLetterExpired htidy hrest hdue
    | some v =>
      obtain ⟨o, rfl, httl, hexpire⟩ := hrow v hget
      dsimp only
      have hcourse := course_deadLetter queue htidy hid hget httl hexpire
      have htidy' := htidy.course hcourse
      have hdoomed' : Doomed R (deadLetter core queue id (.object o) "expired" now) now ids := by
        intro i hi
        obtain ⟨hi', hiused, hirow⟩ := hrest i hi
        refine ⟨hi', used_deadLetter hid hi' hiused, fun w hw => hirow w ?_⟩
        rw [get_deadLetter hiused hi'.ne_queueSeq] at hw
        split_ifs at hw
        exact hw
      obtain ⟨hcourse', hdue'⟩ := course_deadLetterExpired htidy' hdoomed' hdue.deadLetter
      exact ⟨hcourse.trans hcourse', hdue'⟩

theorem doomed_scan (consumer : String) (htidy : Tidy core) (hdue : Due R core now queue) :
    Doomed R core now (scanQueue core (queueMsgLabel queue) consumer now).expired := by
  intro id hid
  rcases mem_expired hid with h | ⟨o, ho, hremovable⟩
  · exact absurd h List.not_mem_nil
  · obtain ⟨hget, hlabel⟩ := mem_getNodesByLabel.mp ho
    refine ⟨htidy.labelled id _ queue hget hlabel, htidy.used id _ hget, fun v hv => ?_⟩
    rw [hget] at hv
    exact ⟨o, (Option.some.inj hv).symm, hremovable.2, hdue id o hget hlabel hremovable⟩

theorem course_claim (request : BrokerClaimRequest) {result : Core × Fields}
    (hget : core.nodes.get request.nodeId = some v)
    (hlabel : queueMsgLabel request.queue ∈ labelsOf v)
    (h : brokerClaimDelivery core request = some result) :
    ∃ claim, prepareBrokerClaim core request = some claim ∧
      result = (installClaim core request claim, claim.message) ∧ Move R core result.1 := by
  unfold brokerClaimDelivery at h
  split_ifs at h
  obtain ⟨claim, hclaim, rfl⟩ := Option.map_eq_some_iff.mp h
  exact ⟨claim, hclaim, rfl, .claimed request claim v hget hlabel hclaim⟩

/-- **A consume is a course of moves**, and ends with the claim it returns. -/
theorem course_consumeAttempts {request : ConsumeRequest} :
    ∀ {attempts : ℕ} {core : Core}, Tidy core → Due R core request.nowMs request.queue →
      Course R core (consumeAttempts request attempts core).1
  | 0, _, _, _ => .refl
  | attempts + 1, core, htidy, hdue => by
    unfold consumeAttempts
    dsimp only
    split_ifs with hexpired hprefetch
    · obtain ⟨hcourse, hdue'⟩ := course_deadLetterExpired htidy
        (doomed_scan request.consumer htidy hdue) hdue
      exact hcourse.trans (course_consumeAttempts (htidy.course hcourse) hdue')
    · exact .refl
    · split
      · exact .refl
      · rename_i cand hbest
        have hrow : ∃ v, (cand.id, v) ∈ core.getNodesByLabel (queueMsgLabel request.queue) := by
          rcases best_mem hbest with h | h
          · cases h
          · exact h
        obtain ⟨v, hv⟩ := hrow
        obtain ⟨hget, hlabel⟩ := mem_getNodesByLabel.mp hv
        split
        · rename_i core' properties hclaim
          obtain ⟨claim, -, -, hmove⟩ := course_claim (R := R) (claimRequest request cand)
            hget hlabel hclaim
          exact .single hmove
        · exact course_consumeAttempts htidy hdue

/-! ### Settling by tag -/

/-- The call leaves the rows alone, or retires the lookup row of a delivery that is gone. -/
def Idle (R : Rules) (core : Core) (tag : ℤ) (core' : Core) : Prop :=
  core' = core ∨ core' = core.removeNode (dtagLookupNodeId tag) ∧ Stale R core tag

theorem Idle.course (h : Idle R core tag core') : Course R core core' := by
  rcases h with rfl | ⟨rfl, hstale⟩
  · exact .refl
  · exact .single (.retired tag hstale)

structure Owned (core : Core) (tag : ℤ) (consumer id queue : String) : Prop where
  message : IsMessage id
  lookup : ∃ request, core.nodes.get (dtagLookupNodeId tag) = some (lookupProps request) ∧
    request.nodeId = id ∧ request.queue = queue ∧ request.consumer = consumer

theorem resolve_spec (tag : ℤ) (consumer : String) (htidy : Tidy core) :
    (brokerResolveTagOwner core tag consumer).1 = core ∧
      ∀ id queue, (brokerResolveTagOwner core tag consumer).2 = some (id, queue) →
        Owned core tag consumer id queue := by
  unfold brokerResolveTagOwner
  split
  · exact ⟨rfl, fun _ _ => nofun⟩
  · rename_i l hrow
    obtain ⟨o, ho⟩ := nodeRowMap_isSome hrow
    obtain ⟨request, hv, hmsg⟩ := htidy.lookups tag _ ho
    rw [hv] at ho
    obtain ⟨htype, hnode, hqueue, hcons⟩ := lookupRow_lookupProps hrow ho
    rw [htype, hcons]
    split_ifs with hbad howner
    · exact absurd rfl hbad
    · exact ⟨rfl, fun _ _ => nofun⟩
    · refine ⟨rfl, fun id queue heq => ?_⟩
      obtain ⟨rfl, rfl⟩ := Prod.mk.inj (Option.some.inj heq)
      rw [fStr, hnode, fStr, hqueue]
      exact ⟨hmsg, request, ho, rfl, rfl, Option.some.inj (not_not.mp howner)⟩

theorem take_spec (howned : Owned core tag consumer id queue) :
    (∀ o, (brokerTakeLiveClaim core id tag consumer).2 = some o →
      (brokerTakeLiveClaim core id tag consumer).1 = core ∧ core.nodeRowMap id = some o ∧
        Live core tag consumer id) ∧
      ((brokerTakeLiveClaim core id tag consumer).2 = none →
        Idle R core tag (brokerTakeLiveClaim core id tag consumer).1) := by
  obtain ⟨-, request, hget, rfl, rfl, rfl⟩ := howned
  have hstale : ¬ Carries core request.nodeId tag → Stale R core tag := by
    intro hno request' hget'
    rw [hget] at hget'
    rw [(lookupProps_inj (Option.some.inj hget')).1] at hno
    exact Or.inr hno
  unfold brokerTakeLiveClaim
  split
  · rename_i hrow
    refine ⟨fun o hc => absurd hc.symm (Option.some_ne_none o),
      fun _ => Or.inr ⟨rfl, hstale fun hcarries => ?_⟩⟩
    have hstatus := hcarries.1
    unfold textField field at hstatus
    rw [Option.map_eq_none_iff.mp hrow] at hstatus
    cases hstatus
  · rename_i o hrow
    unfold brokerClaimLiveness
    by_cases hcurrent : isCurrent o tag = true
    · rw [if_neg (by simp [hcurrent])]
      by_cases howner : (lookupRow "owner_consumer" o).bind Json.asStr = some request.consumer
      · rw [if_neg (not_not.mpr howner)]
        refine ⟨fun o' ho' => ⟨rfl, ?_, ?_, (isCurrent_iff hrow).mp hcurrent, ?_⟩,
          fun hc => absurd hc (Option.some_ne_none _)⟩
        · exact hrow.trans ho'
        · have hl : core.nodeRowMap (dtagLookupNodeId tag) ≠ none := by
            simp [Core.nodeRowMap, Core.nodeObject, hget, lookupProps, Json.asObject]
          obtain ⟨l, hl⟩ := Option.ne_none_iff_exists'.mp hl
          obtain ⟨-, hnode, -, hcons⟩ := lookupRow_lookupProps hl hget
          exact ⟨l, hl, by rw [fStr, hnode]; rfl, by rw [hcons]; rfl⟩
        · rw [textField, ← lookupRow_nodeRowMap (by decide) hrow]
          exact howner
      · rw [if_pos howner]
        exact ⟨fun o hc => absurd hc.symm (Option.some_ne_none o), fun _ => Or.inl rfl⟩
    · rw [if_pos (by simp [hcurrent])]
      refine ⟨fun o hc => absurd hc.symm (Option.some_ne_none o),
        fun _ => Or.inr ⟨rfl, hstale fun hcarries => hcurrent ?_⟩⟩
      exact (isCurrent_iff hrow).mpr hcarries

theorem IsMessage.not_isEmpty (h : IsMessage id) : id.isEmpty = false := by
  obtain ⟨q, s, rfl⟩ := h
  rw [Bool.eq_false_iff, ne_eq, String.isEmpty_iff]
  intro hempty
  have hlist := congrArg String.toList hempty
  simp [messageNodeId] at hlist

/-- **An acknowledgement settles a live delivery of the caller, or does nothing.** -/
theorem ack_spec (tag : ℤ) (consumer : String) (htidy : Tidy core) :
    (∃ id, Live core tag consumer id ∧ brokerAckTag core tag consumer =
      (removeDelivery (core.note (.acked id tag consumer)) tag id, true)) ∨
      ((brokerAckTag core tag consumer).2 = false ∧
        Idle R core tag (brokerAckTag core tag consumer).1) := by
  unfold brokerAckTag brokerAckDeliveryTag
  split_ifs with haddress
  · exact Or.inr ⟨rfl, Or.inl rfl⟩
  · obtain ⟨hcore, howned⟩ := resolve_spec tag consumer htidy
    split
    · rename_i core' heq
      rw [heq] at hcore
      exact Or.inr ⟨rfl, Or.inl hcore⟩
    · rename_i core' id queue heq
      rw [heq] at hcore
      obtain rfl : core' = core := hcore
      have howner := howned id queue (by rw [heq])
      obtain ⟨hlive, hidle⟩ := take_spec (R := R) howner
      rw [IsMessage.not_isEmpty howner.message, if_neg Bool.false_ne_true]
      split
      · rename_i core'' htake
        rw [htake] at hidle
        exact Or.inr ⟨rfl, hidle rfl⟩
      · rename_i core'' o htake
        rw [htake] at hlive
        obtain ⟨hsame, -, hlive'⟩ := hlive o rfl
        obtain rfl : core'' = core' := hsame
        exact Or.inl ⟨id, hlive', rfl⟩

/-- **A renewal extends a live delivery of the caller, or does nothing.** -/
theorem renew_spec (tag : ℤ) (consumer : String) (now lease : ℕ) (htidy : Tidy core) :
    (∃ id o n, Live core tag consumer id ∧ core.nodeRowMap id = some o ∧
      brokerRenewTag core tag consumer now lease =
        ((core.addNode id (.object (insertRow "lease_until" (.unsigned n) o))).note
          (.renewed id tag consumer), true)) ∨
      ((brokerRenewTag core tag consumer now lease).2 = false ∧
        Idle R core tag (brokerRenewTag core tag consumer now lease).1) := by
  unfold brokerRenewTag brokerRenewDeliveryTag
  split_ifs with haddress
  · exact Or.inr ⟨rfl, Or.inl rfl⟩
  · split
    · exact Or.inr ⟨rfl, Or.inl rfl⟩
    · rename_i renewedUntil _
      obtain ⟨hcore, howned⟩ := resolve_spec tag consumer htidy
      split
      · rename_i core' heq
        rw [heq] at hcore
        exact Or.inr ⟨rfl, Or.inl hcore⟩
      · rename_i core' id queue heq
        rw [heq] at hcore
        obtain rfl : core' = core := hcore
        have howner := howned id queue (by rw [heq])
        obtain ⟨hlive, hidle⟩ := take_spec (R := R) howner
        split
        · rename_i core'' htake
          rw [htake] at hidle
          exact Or.inr ⟨rfl, hidle rfl⟩
        · rename_i core'' o htake
          rw [htake] at hlive
          obtain ⟨hsame, hrow, hlive'⟩ := hlive o rfl
          obtain rfl : core'' = core' := hsame
          split_ifs
          · exact Or.inr ⟨rfl, Or.inl rfl⟩
          · exact Or.inl ⟨id, o, renewedUntil, hlive', hrow, rfl⟩

def Named (R : Rules) (core : Core) (tag : ℤ) : Prop :=
  ∀ request, core.nodes.get (dtagLookupNodeId tag) = some (lookupProps request) →
    request.queue = "" → R.retire request.queue

theorem nackDelivery_spec (consumer : String) (requeue : Bool) (htidy : Tidy core)
    (hnamed : Named R core tag) :
    (∃ id o, Live core tag consumer id ∧ core.nodeRowMap id = some o ∧
      brokerNackDeliveryTag core tag consumer requeue =
        (putBack core tag id o (.requeued id tag consumer), .requeued)) ∨
      (∃ id queue o, Live core tag consumer id ∧ brokerNackDeliveryTag core tag consumer requeue =
        (removeDelivery (core.note (.nacked id tag consumer)) tag id, .terminal id queue o)) ∨
      (∃ core', brokerNackDeliveryTag core tag consumer requeue = (core', .absent) ∧
        Idle R core tag core') := by
  unfold brokerNackDeliveryTag
  split_ifs with haddress
  · exact Or.inr (Or.inr ⟨_, rfl, Or.inl rfl⟩)
  · obtain ⟨hcore, howned⟩ := resolve_spec tag consumer htidy
    split
    · rename_i core' heq
      rw [heq] at hcore
      exact Or.inr (Or.inr ⟨_, rfl, Or.inl hcore⟩)
    · rename_i core' id queue heq
      rw [heq] at hcore
      obtain rfl : core' = core := hcore
      have howner := howned id queue (by rw [heq])
      rw [IsMessage.not_isEmpty howner.message]
      split_ifs with hempty
      · refine Or.inr (Or.inr ⟨_, rfl, Or.inr ⟨rfl, fun request hget => Or.inl ?_⟩⟩)
        obtain ⟨-, request', hget', -, hqueue, -⟩ := howner
        have hsame : request.queue = queue := by
          rw [hget'] at hget
          rw [← (lookupProps_inj (Option.some.inj hget)).2.1, hqueue]
        exact hnamed request hget (hsame.trans (String.isEmpty_iff.mp hempty))
      · obtain ⟨hlive, hidle⟩ := take_spec (R := R) howner
        split
        · rename_i core'' htake
          rw [htake] at hidle
          exact Or.inr (Or.inr ⟨_, rfl, hidle rfl⟩)
        · rename_i core'' o htake
          rw [htake] at hlive
          obtain ⟨hsame, hrow, hlive'⟩ := hlive o rfl
          obtain rfl : core'' = core' := hsame
          split
          · exact Or.inr (Or.inr ⟨_, rfl, Or.inl rfl⟩)
          · split_ifs
            · exact Or.inl ⟨id, o, hlive', hrow, rfl⟩
            · exact Or.inr (Or.inl ⟨id, queue, o, hlive', rfl⟩)

theorem goneReason_ne (requeue : Bool) : goneReason requeue ≠ "expired" := by
  cases requeue <;> decide

theorem removed_mem_removeDelivery (core : Core) (tag : ℤ) (hid : IsMessage id)
    (hget : core.nodes.get id = some v) : .removed id ∈ (removeDelivery core tag id).journal := by
  unfold removeDelivery
  rw [journal_removeNode, removal, if_pos]
  · exact List.mem_append_right _ (.head _)
  · rw [hasNode_iff, get_removeNode_of_ne _ _ _ (hid.ne_lookup tag)]
    exact ⟨v, hget⟩

/-- **A nack returns or removes a live delivery of the caller, or does nothing.** -/
theorem nack_spec (consumer : String) (requeue : Bool) (now : ℕ) (htidy : Tidy core)
    (hnamed : Named R core tag) :
    Course R core (brokerNackTag core tag consumer requeue now).1 ∧
      ((brokerNackTag core tag consumer requeue now).2 ≠ .absent →
        ∃ id, Live core tag consumer id) := by
  unfold brokerNackTag
  rcases nackDelivery_spec consumer requeue htidy hnamed with
    ⟨id, o, hlive, hrow, heq⟩ | ⟨id, queue, o, hlive, heq⟩ | ⟨core', heq, hidle⟩
  · rw [heq]
    exact ⟨.single (.requeued tag consumer id o hlive hrow), fun _ => ⟨id, hlive⟩⟩
  · rw [heq]
    obtain ⟨_, -, -, -, hid⟩ := hlive.request htidy
    obtain ⟨v, hv⟩ := hlive.present
    refine ⟨?_, fun _ => ⟨id, hlive⟩⟩
    refine Relation.ReflTransGen.head (.nacked tag consumer id hlive) ?_
    exact course_deadLetter_of_gone hid
      (removed_mem_removeDelivery (core.note _) tag hid hv) (goneReason_ne requeue)
  · rw [heq]
    exact ⟨hidle.course, fun hne => absurd rfl hne⟩

/-! ### Sweeping -/

theorem release_spec (core : Core) (id : String) (lease : Option ℕ) (now : ℕ) :
    (∃ tag o, core.nodeRowMap id = some o ∧ Carries core id tag ∧
      brokerReleaseExpiredDelivery core id lease now =
        (putBack core tag id o (.released id tag), true)) ∨
      brokerReleaseExpiredDelivery core id lease now = (core, false) := by
  unfold brokerReleaseExpiredDelivery
  split
  · exact Or.inr rfl
  · rename_i o hrow
    split
    · exact Or.inr rfl
    · rename_i current hlease
      split_ifs with hbad
      · exact Or.inr rfl
      · push Not at hbad
        split
        · exact Or.inr rfl
        · rename_i tag htag
          refine Or.inl ⟨tag, o, hrow, ⟨?_, ?_⟩, rfl⟩
          · rw [textField, ← lookupRow_nodeRowMap (by decide) hrow]
            exact hbad.1
          · rw [← lookupRow_nodeRowMap (by decide) hrow]
            exact (Option.filter_eq_some_iff.mp htag).1

theorem get_putBack {id' : String} (hid' : IsMessage id') :
    (putBack core tag id o e).nodes.get id' =
      if id' = id then some (.object (mergeUpdates o pendingFields)) else core.nodes.get id' := by
  unfold putBack
  rw [nodes_note, get_addNode, get_removeNode_of_ne _ _ _ (hid'.ne_lookup tag)]

theorem Due.putBack (h : Due R core now queue) (httl : ttlExpired o now = false) :
    Due R (putBack core tag id o e) now queue := by
  intro i o' hget hlabel hremovable
  unfold Moves.putBack at hget
  rw [nodes_note, get_addNode] at hget
  split_ifs at hget with hi
  · have ho' : mergeUpdates o pendingFields = o' := Json.object.inj (Option.some.inj hget)
    have hkeep : lookupRow "expires_at" o' = lookupRow "expires_at" o := by
      rw [← ho', lookupRow_mergeUpdates_of_not_mem (by decide)]
    have hsame : ttlExpired o' now = ttlExpired o now := by
      unfold ttlExpired fU64
      rw [hkeep]
    rw [hremovable.2, httl] at hsame
    cases hsame
  · rw [get_removeNode] at hget
    split_ifs at hget
    exact h i o' hget hlabel hremovable

/-- A row of a sweep's snapshot: it is there, and may expire if it is to be dead-lettered. -/
structure Listed (R : Rules) (core : Core) (now : ℕ) (row : String × Json) : Prop where
  message : IsMessage row.1
  there : core.nodes.get row.1 = some row.2
  expire : ∀ o, row.2 = .object o → Removable o now → R.expire o

theorem course_sweepRow (queue : String) (n : ℕ) {row : String × Json} (htidy : Tidy core)
    (hrow : Listed R core now row) :
    Course R core (sweepRow queue now (core, n) row).1 ∧
      (∀ id, IsMessage id → id ≠ row.1 → Used core id →
        (sweepRow queue now (core, n) row).1.nodes.get id = core.nodes.get id) ∧
      ∀ q, Due R core now q → Due R (sweepRow queue now (core, n) row).1 now q := by
  unfold sweepRow
  split
  · exact ⟨.refl, fun _ _ _ _ => rfl, fun _ => id⟩
  · rename_i o ho
    have hv := asObject_eq_some ho
    dsimp only
    split_ifs with hdead hlease
    · refine ⟨?_, fun id hid hne hused => ?_, fun q hdue => hdue.deadLetter⟩
      · rw [hv]
        exact course_deadLetter queue htidy hrow.message (hv ▸ hrow.there) hdead.2
          (hrow.expire o hv hdead)
      · rw [get_deadLetter hused hid.ne_queueSeq, if_neg hne]
    · have httl : ttlExpired o now = false := by
        by_contra hno
        exact hdead ⟨Or.inr hlease, Bool.eq_true_of_not_eq_false hno⟩
      rcases release_spec core row.1 (fU64 o "lease_until") now with ⟨tag, o', hmap, hcarries, heq⟩ | heq
      · rw [heq]
        have httl' : ttlExpired o' now = false := by
          rw [← httl]
          unfold ttlExpired fU64
          rw [lookupRow_nodeRowMap (by decide) hmap, field_of_get _ (hv ▸ hrow.there)]
        refine ⟨.single (.released tag row.1 o' hrow.message hmap hcarries),
          fun id hid hne _ => ?_, fun q hdue => hdue.putBack httl'⟩
        rw [get_putBack hid, if_neg hne]
      · rw [heq]
        exact ⟨.refl, fun _ _ _ _ => rfl, fun _ => id⟩
    · exact ⟨.refl, fun _ _ _ _ => rfl, fun _ => id⟩

theorem course_sweepRows (queue : String) (queues : List String) :
    ∀ {rows : List (String × Json)} (acc : Core × ℕ), Tidy acc.1 →
      rows.Pairwise (fun a b => a.1 ≠ b.1) → (∀ row ∈ rows, Listed R acc.1 now row) →
      (∀ q ∈ queues, Due R acc.1 now q) →
      Course R acc.1 (rows.foldl (sweepRow queue now) acc).1 ∧
        ∀ q ∈ queues, Due R (rows.foldl (sweepRow queue now) acc).1 now q
  | [], _, _, _, _, hdue => ⟨.refl, hdue⟩
  | row :: rows, (core, n), htidy, hpair, hrows, hdue => by
    obtain ⟨hhead, htail⟩ := List.pairwise_cons.mp hpair
    obtain ⟨hcourse, hframe, hkeep⟩ := course_sweepRow queue n htidy
      (hrows row (.head _))
    have hrows' : ∀ r ∈ rows, Listed R (sweepRow queue now (core, n) row).1 now r := by
      intro r hr
      have hlisted := hrows r (.tail _ hr)
      refine ⟨hlisted.message, ?_, hlisted.expire⟩
      rw [hframe r.1 hlisted.message (hhead r hr).symm (htidy.used _ _ hlisted.there)]
      exact hlisted.there
    obtain ⟨hcourse', hdue'⟩ := course_sweepRows queue queues _ (htidy.course hcourse) htail
      hrows' (fun q hq => hkeep q (hdue q hq))
    exact ⟨hcourse.trans hcourse', hdue'⟩

theorem course_sweepQueues :
    ∀ {queues : List String} (acc : Core × ℕ), Tidy acc.1 → (∀ q ∈ queues, Due R acc.1 now q) →
      Course R acc.1 (queues.foldl (sweepQueue now) acc).1
  | [], _, _, _ => .refl
  | queue :: queues, (core, n), htidy, hdue => by
    have hpair : (core.getNodesByLabel (queueMsgLabel queue)).Pairwise fun a b => a.1 ≠ b.1 :=
      (core.nodes.sorted.filter _).imp fun h => h.ne
    have hrows : ∀ row ∈ core.getNodesByLabel (queueMsgLabel queue), Listed R core now row := by
      rintro ⟨id, v⟩ hrow
      obtain ⟨hget, hlabel⟩ := mem_getNodesByLabel.mp hrow
      refine ⟨htidy.labelled id v queue hget hlabel, hget, fun o ho hremovable => ?_⟩
      obtain rfl : v = .object o := ho
      exact hdue queue (.head _) id o hget hlabel hremovable
    obtain ⟨hcourse, hdue'⟩ :=
      course_sweepRows queue queues (core, n) htidy hpair hrows fun q hq => hdue q (.tail _ hq)
    exact hcourse.trans (course_sweepQueues _ (htidy.course hcourse) hdue')

/-! ### The calls -/

def Permitted (R : Rules) (core : Core) : TagCall → Prop
  | .enqueue _ _ _ _ extra => R.extra extra
  | .consume request => Due R core request.nowMs request.queue
  | .ackTag _ _ => True
  | .renewTag _ _ _ _ => True
  | .nackTag tag _ _ _ => Named R core tag
  | .sweep now => ∀ q ∈ knownQueues core, Due R core now q

/-- **Every call is a course of moves.** -/
theorem course_apply {call : TagCall} (htidy : Tidy core) (h : Permitted R core call) :
    Course R core (call.apply core) := by
  cases call with
  | enqueue queues exchange routingKey payloadHex extra =>
    exact (appends_enqueue h queues core).course
  | consume request => exact course_consumeAttempts htidy h
  | ackTag tag consumer =>
    change Course R core (brokerAckTag core tag consumer).1
    rcases ack_spec (R := R) tag consumer htidy with
      ⟨id, hlive, heq⟩ | ⟨-, hidle⟩
    · rw [heq]
      exact .single (.acked tag consumer id hlive)
    · exact hidle.course
  | renewTag tag consumer now lease =>
    change Course R core (brokerRenewTag core tag consumer now lease).1
    rcases renew_spec (R := R) tag consumer now lease htidy with ⟨id, o, n, hlive, hrow, heq⟩ | ⟨-, hidle⟩
    · rw [heq]
      exact .single (.renewed tag consumer id o n hlive hrow)
    · exact hidle.course
  | nackTag tag consumer requeue now => exact (nack_spec consumer requeue now htidy h).1
  | sweep now => exact course_sweepQueues (core, 0) htidy h

theorem permitted_all (core : Core) (call : TagCall) : Permitted .all core call := by
  cases call with
  | consume request => exact due_all core request.nowMs request.queue
  | nackTag tag consumer requeue now => exact fun _ _ _ => trivial
  | sweep now => exact fun q _ => due_all core now q
  | _ => exact trivial

end Medulla.Broker.Courses
