import Medulla.Library.Transaction
import Medulla.Broker.Delivery

/-! # Consuming, dead-lettering and sweeping

A consumer scans its queue, dead-letters what it finds expired and tries again, and claims the best
candidate. A dead letter is published to the queue's dead-letter exchange and the original is removed.
-/

namespace Medulla.Broker.Queues

open Library.OrderedTable Resource.Extension Index.Changes Rows Delivery

/-! ### Publishing -/

/-- A message to publish, with its routing and time resolved. -/
structure ResolvedPublish where
  exchange : String
  routingKey : String
  payload : List ℕ
  priority : ℤ
  deliverAt : Option ℕ
  ttlMs : Option ℕ
  nowMs : Option ℕ
  headers : Fields

/-- When a message runs out: by its own time to live or the queue's. -/
def expiresAt (request : ResolvedPublish) (policy : QueuePolicy) : Option ℕ :=
  match request.nowMs, request.ttlMs.or policy.messageTtlMs with
  | some n, some t => some (saturatingAddU64 n t)
  | _, _ => none

def policyFields (request : ResolvedPublish) (policy : QueuePolicy) : Fields :=
  (if request.priority ≠ 0 then [("priority", ofI64 request.priority)] else []) ++
    (request.deliverAt.map fun da => ("deliver_at", Json.unsigned da)).toList ++
      ((expiresAt request policy).map fun ea => ("expires_at", Json.unsigned ea)).toList

/-- Appends a message to one queue, with the fields of the queue's policy. -/
def publishTo (request : ResolvedPublish) (core : Core) (queue : String) : Core :=
  let extra := mergeUpdates request.headers (policyFields request (loadQueuePolicy core queue))
  (brokerEnqueueEx core [queue] request.exchange request.routingKey (hexEncode request.payload)
    extra).1

/-- Publishes a message to the queues its exchange routes it to. -/
def publishResolved (core : Core) (request : ResolvedPublish) : Core :=
  match loadExchangeKind core request.exchange with
  | none => core
  | some kind =>
    (route kind (loadBindings core request.exchange) request.routingKey).foldl (publishTo request)
      core

/-! ### Dead letters -/

def deathRecord (queue reason : String) (obj : Fields) (nowMs : ℕ) : Json :=
  .object (fields
    [("queue", .text queue), ("reason", .text reason), ("exchange", .text (fStr obj "exchange")),
      ("routing-keys", .array [.text (fStr obj "routing_key")]),
      ("count", ofI64 (fI64 obj "delivery_count" 0)), ("time", .unsigned nowMs)])

/-- The history of a dead letter, newest first. -/
def deathRecords (queue reason : String) (obj : Fields) (nowMs : ℕ) : List Json :=
  deathRecord queue reason obj nowMs :: (((lookupRow "x-death" obj).bind Json.asArray).getD [])

/-- A dead letter as a message to the dead-letter exchange. -/
def deadLetterPublish (queue reason dlx : String) (policy : QueuePolicy) (obj : Fields)
    (nowMs : ℕ) : ResolvedPublish where
  exchange := dlx
  routingKey := policy.dlRoutingKey.getD (fStr obj "routing_key")
  payload := (hexDecode (fStr obj "payload")).getD []
  priority := fI64 obj "priority" 0
  deliverAt := none
  ttlMs := none
  nowMs := some nowMs
  headers := fields
    [("x-death", .array (deathRecords queue reason obj nowMs)),
      ("x-first-death-queue", .text queue), ("x-first-death-reason", .text reason)]

def publishDeadLetter (core : Core) (queue reason : String) (props : Json) (nowMs : ℕ) : Core :=
  match props.asObject with
  | none => core
  | some obj =>
    let policy := loadQueuePolicy core queue
    match policy.dlExchange with
    | none => core
    | some dlx => publishResolved core (deadLetterPublish queue reason dlx policy obj nowMs)

def rowExpiry (props : Json) : Option ℕ := props.asObject.bind fun o => fU64 o "expires_at"

/-- Publishes a message as a dead letter and removes it. -/
def deadLetter (core : Core) (queue nodeId : String) (props : Json) (reason : String)
    (nowMs : ℕ) : Core :=
  let core := publishDeadLetter core queue reason props nowMs
  (core.note (.deadLettered nodeId reason (rowExpiry props) nowMs)).removeNode nodeId

/-! ### The scan -/

/-- A message a consumer may claim. -/
structure Candidate where
  id : String
  priority : ℤ
  seq : ℤ
  status : String
  leaseUntil : Option ℕ

/-- The higher priority wins, then the lower sequence number, then the lower id. -/
def Candidate.wins (b cur : Candidate) : Bool :=
  decide (cur.priority < b.priority) ||
    (decide (b.priority = cur.priority) && decide (b.seq < cur.seq)) ||
      (decide (b.priority = cur.priority) && decide (b.seq = cur.seq) && decide (b.id < cur.id))

def prefer (a : Option Candidate) (b : Candidate) : Option Candidate :=
  match a with
  | none => some b
  | some cur => if b.wins cur then some b else some cur

/-- What a scanned message is to the caller. -/
inductive Claimability
  | skip
  | inFlight
  | expired
  | claimable (reclaimed : Bool)

/-- A message that is not under a live lease. -/
def dueness (obj : Fields) (nowMs : ℕ) (reclaimed : Bool) : Claimability :=
  if (fU64 obj "expires_at").any (fun ea => decide (ea ≤ nowMs)) then .expired
  else if (fU64 obj "deliver_at").any (fun da => decide (nowMs < da)) then .skip
  else .claimable reclaimed

/-- The lease of a claimed row is live; a claimed row without a lease stays claimed. -/
def leaseLive (obj : Fields) (nowMs : ℕ) : Bool :=
  ((fU64 obj "lease_until").map fun l => decide (nowMs < l)).getD true

/-- Whether a consumer may claim a message now. -/
def claimability (obj : Fields) (consumer : String) (nowMs : ℕ) : Claimability :=
  if fStr obj "status" = "claimed" then
    if leaseLive obj nowMs then
      if fStr obj "owner_consumer" = consumer then .inFlight else .skip
    else dueness obj nowMs true
  else if fStr obj "status" = "pending" then dueness obj nowMs false
  else .skip

def scanCandidate (id : String) (obj : Fields) (reclaimed : Bool) : Candidate where
  id := id
  priority := fI64 obj "priority" 0
  seq := fI64 obj "seq" (i64Bound - 1)
  status := if reclaimed then "claimed" else "pending"
  leaseUntil := fU64 obj "lease_until"

/-- What the scan of a queue has found. -/
structure QueueScan where
  inflight : ℕ
  best : Option Candidate
  expired : List String

def scanRow (consumer : String) (nowMs : ℕ) (scan : QueueScan) (row : String × Json) : QueueScan :=
  match row.2.asObject with
  | none => scan
  | some obj =>
    match claimability obj consumer nowMs with
    | .skip => scan
    | .inFlight => { scan with inflight := scan.inflight + 1 }
    | .expired => { scan with expired := scan.expired ++ [row.1] }
    | .claimable reclaimed =>
      { scan with best := prefer scan.best (scanCandidate row.1 obj reclaimed) }

/-- Scans a queue for the best candidate. -/
def scanQueue (core : Core) (label consumer : String) (nowMs : ℕ) : QueueScan :=
  (core.getNodesByLabel label).foldl (scanRow consumer nowMs) ⟨0, none, []⟩

def deadLetterScanned (queue : String) (nowMs : ℕ) (core : Core) (id : String) : Core :=
  match core.nodes.get id with
  | none => core
  | some props => deadLetter core queue id props "expired" nowMs

/-- Dead-letter what the scan found expired; the scan lists the ids in order. -/
def deadLetterExpired (core : Core) (queue : String) (expired : List String) (nowMs : ℕ) : Core :=
  expired.foldl (deadLetterScanned queue nowMs) core

/-! ### Consuming -/

/-- A consumer's request for a message. -/
structure ConsumeRequest where
  queue : String
  group : String
  consumer : String
  nowMs : ℕ
  leaseMs : ℕ
  prefetch : ℕ

def claimRequest (request : ConsumeRequest) (cand : Candidate) : BrokerClaimRequest where
  nodeId := cand.id
  queue := request.queue
  group := request.group
  consumer := request.consumer
  expectedStatus := cand.status
  expectedLeaseUntil := cand.leaseUntil
  nowMs := request.nowMs
  leaseMs := request.leaseMs

/-- Dead-letters what has run out and claims the best candidate, in so many rounds. -/
def consumeAttempts (request : ConsumeRequest) : ℕ → Core → Core × Option (String × Fields)
  | 0, core => (core, none)
  | attempts + 1, core =>
    let scan := scanQueue core (queueMsgLabel request.queue) request.consumer request.nowMs
    if scan.expired ≠ [] then
      consumeAttempts request attempts
        (deadLetterExpired core request.queue scan.expired request.nowMs)
    else if request.prefetch > 0 ∧ request.prefetch ≤ scan.inflight then (core, none)
    else
      match scan.best with
      | none => (core, none)
      | some cand =>
        match brokerClaimDelivery core (claimRequest request cand) with
        | some (core, properties) => (core, some (cand.id, properties))
        | none => consumeAttempts request attempts core

/-- Claims a message of a queue. -/
def brokerConsume (core : Core) (request : ConsumeRequest) : Core × Option (String × Fields) :=
  consumeAttempts request 64 core

/-! ### Acknowledging and rejecting -/

def brokerAckTag (core : Core) (deliveryTag : ℤ) (consumer : String) : Core × Bool :=
  brokerAckDeliveryTag core deliveryTag consumer

def brokerRenewTag (core : Core) (deliveryTag : ℤ) (consumer : String) (nowMs leaseMs : ℕ) :
    Core × Bool :=
  brokerRenewDeliveryTag core deliveryTag consumer nowMs leaseMs

/-- What became of a rejected message. -/
inductive Outcome
  | requeued
  | deadLettered
  | dropped
  | absent

def goneOutcome (policy : QueuePolicy) : Outcome :=
  if policy.dlExchange.isSome then .deadLettered else .dropped

def goneReason (requeue : Bool) : String := if requeue then "max-delivery-exceeded" else "rejected"

/-- Gives a delivery back: requeued, dead-lettered or dropped. -/
def brokerNackTag (core : Core) (deliveryTag : ℤ) (consumer : String) (requeue : Bool)
    (nowMs : ℕ) : Core × Outcome :=
  match brokerNackDeliveryTag core deliveryTag consumer requeue with
  | (core, .absent) => (core, .absent)
  | (core, .requeued) => (core, .requeued)
  | (core, .terminal nodeId queue properties) =>
    (deadLetter core queue nodeId (.object properties) (goneReason requeue) nowMs,
      goneOutcome (loadQueuePolicy core queue))

def rowTag (o : Fields) : Option ℤ := (lookupRow "delivery_tag" o).bind asI64

/-- Removes a message by its node. -/
def brokerAck (core : Core) (nodeId : String) : Core × Bool :=
  if core.hasNode nodeId then
    ((retireTag core ((core.nodeObject nodeId).bind rowTag)).removeNode nodeId, true)
  else (core, false)

def underMax (policy : QueuePolicy) (deliveryCount : ℤ) : Bool :=
  (policy.maxDeliveryCount.map fun m => decide (deliveryCount < m)).getD true

/-- Gives a message back by its node. -/
def brokerReject (core : Core) (queue nodeId : String) (requeue : Bool) (nowMs : ℕ) :
    Core × Outcome :=
  match core.nodeObject nodeId with
  | none => (core, .absent)
  | some obj =>
    let core := retireTag core (rowTag obj)
    let policy := loadQueuePolicy core queue
    if requeue && underMax policy (fI64 obj "delivery_count" 0) then
      (core.setFields nodeId pendingFields, .requeued)
    else
      (deadLetter core queue nodeId (.object obj) (goneReason requeue) nowMs, goneOutcome policy)

/-! ### The sweep -/

def knownQueues (core : Core) : List String :=
  (((core.getNodesByLabel queueSeqType).filterMap fun row =>
    (row.2.asObject.bind (lookupRow "queue")).bind Json.asStr).mergeSort
      (fun a b => decide (a ≤ b))).dedup

/-- The lease of a claimed message has run out. -/
def leaseExpired (o : Fields) (nowMs : ℕ) : Bool :=
  decide (fStr o "status" = "claimed") &&
    (fU64 o "lease_until").any fun l => decide (l ≤ nowMs)

/-- The time to live of a row ran out. -/
def ttlExpired (o : Fields) (nowMs : ℕ) : Bool :=
  (fU64 o "expires_at").any fun ea => decide (ea ≤ nowMs)

def sweepRow (queue : String) (nowMs : ℕ) (acc : Core × ℕ) (row : String × Json) : Core × ℕ :=
  match row.2.asObject with
  | none => acc
  | some o =>
    let pending := fStr o "status" = "pending"
    if (pending ∨ leaseExpired o nowMs) ∧ ttlExpired o nowMs then
      (deadLetter acc.1 queue row.1 row.2 "expired" nowMs, acc.2 + 1)
    else if leaseExpired o nowMs then
      match brokerReleaseExpiredDelivery acc.1 row.1 (fU64 o "lease_until") nowMs with
      | (core, true) => (core, acc.2 + 1)
      | (core, false) => (core, acc.2)
    else acc

/-- Dead-letters and releases the messages of one queue that have run out. -/
def sweepQueue (nowMs : ℕ) (acc : Core × ℕ) (queue : String) : Core × ℕ :=
  (acc.1.getNodesByLabel (queueMsgLabel queue)).foldl (sweepRow queue nowMs) acc

/-- The periodic sweep over all queues. -/
def sweepExpired (core : Core) (nowMs : ℕ) : Core × ℕ :=
  (knownQueues core).foldl (sweepQueue nowMs) (core, 0)

/-! ### Runs -/

/-- The calls that address a delivery by its tag. -/
inductive TagCall
  | enqueue (queues : List String) (exchange routingKey payloadHex : String) (extra : Fields)
  | consume (request : ConsumeRequest)
  | ackTag (deliveryTag : ℤ) (consumer : String)
  | renewTag (deliveryTag : ℤ) (consumer : String) (nowMs leaseMs : ℕ)
  | nackTag (deliveryTag : ℤ) (consumer : String) (requeue : Bool) (nowMs : ℕ)
  | sweep (nowMs : ℕ)

/-- All calls of the broker. -/
inductive Call
  | byTag (call : TagCall)
  | ack (nodeId : String)
  | reject (queue nodeId : String) (requeue : Bool) (nowMs : ℕ)

def TagCall.apply (core : Core) : TagCall → Core
  | .enqueue queues exchange routingKey payloadHex extra =>
    (brokerEnqueueEx core queues exchange routingKey payloadHex extra).1
  | .consume request => (brokerConsume core request).1
  | .ackTag deliveryTag consumer => (brokerAckTag core deliveryTag consumer).1
  | .renewTag deliveryTag consumer nowMs leaseMs =>
    (brokerRenewTag core deliveryTag consumer nowMs leaseMs).1
  | .nackTag deliveryTag consumer requeue nowMs =>
    (brokerNackTag core deliveryTag consumer requeue nowMs).1
  | .sweep nowMs => (sweepExpired core nowMs).1

def Call.apply (core : Core) : Call → Core
  | .byTag call => call.apply core
  | .ack nodeId => (brokerAck core nodeId).1
  | .reject queue nodeId requeue nowMs => (brokerReject core queue nodeId requeue nowMs).1

end Medulla.Broker.Queues
