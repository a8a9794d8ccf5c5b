import Medulla.Broker.Rows

/-! # Appending, claiming and settling deliveries

The transitions of one message row. Each runs under one write guard: it reads the rows it needs,
decides, and only then writes. -/

namespace Medulla.Broker.Delivery

open Library.OrderedTable Resource.Extension Index.Changes Rows

/-! ### Appending -/

def nextSeq (core : Core) (queue : String) : ℕ :=
  (((core.nodeRowMap (queueSeqNodeId queue)).bind (lookupRow "next_seq")).bind Json.asU64).getD 0

def seqProps (queue : String) (next : ℕ) : Json :=
  .object (fields
    [("type", .text queueSeqType), ("queue", .text queue), ("next_seq", .unsigned next)])

/-- The row of a message as it is appended, before the caller's fields. -/
def msgProps (queue : String) (next : ℕ) (exchange routingKey payloadHex : String) : Fields :=
  fields
    [("type", .text (queueMsgLabel queue)), ("status", .text "pending"), ("seq", .unsigned next),
      ("exchange", .text exchange), ("routing_key", .text routingKey),
      ("payload", .text payloadHex)]

/-- Appends a message to one queue under its next sequence number. -/
def enqueueOne (exchange routingKey payloadHex : String) (extra : Fields) (core : Core)
    (queue : String) : Core :=
  let next := nextSeq core queue
  let core := core.addNode (queueSeqNodeId queue) (seqProps queue (next + 1))
  let id := messageNodeId queue next
  let row := mergeUpdates (msgProps queue next exchange routingKey payloadHex) extra
  (core.addNode id (.object row)).note (.enqueued id)

/-- Appends a message to several queues. -/
def brokerEnqueueEx (core : Core) (queues : List String) (exchange routingKey payloadHex : String)
    (extra : Fields) : Core × ℕ :=
  (queues.foldl (enqueueOne exchange routingKey payloadHex extra) core, queues.length)

/-! ### Claiming -/

/-- A claim of one message for a consumer. -/
structure BrokerClaimRequest where
  nodeId : String
  queue : String
  group : String
  consumer : String
  expectedStatus : String
  expectedLeaseUntil : Option ℕ
  nowMs : ℕ
  leaseMs : ℕ

/-- The row still has the status, and for a reclaim the expired lease, that the scan saw. -/
def brokerClaimPreconditionOk (properties : Fields) (request : BrokerClaimRequest) : Bool :=
  if (lookupRow "status" properties).bind Json.asStr ≠ some request.expectedStatus then false
  else if request.expectedStatus = "claimed" then
    let currentLease := fU64 properties "lease_until"
    decide (currentLease = request.expectedLeaseUntil) &&
      currentLease.any (fun lease => decide (lease ≤ request.nowMs))
  else decide (request.expectedStatus = "pending")

/-- The last tag given out. -/
def brokerLastDeliveryTag (core : Core) : Option ℤ :=
  match core.nodeRowMap dtagSeqNodeId with
  | none => some 0
  | some row =>
    if (lookupRow "type" row).bind Json.asStr ≠ some brokerCounterType then none
    else ((lookupRow "last_tag" row).bind asI64).filter fun value => decide (0 ≤ value)

def brokerPriorDeliveryTag (properties : Fields) : Option (Option ℤ) :=
  match lookupRow "delivery_tag" properties with
  | none => some none
  | some .null => some none
  | some value => ((asI64 value).filter fun tag => decide (0 < tag)).map some

/-- A claimed message has an earlier tag, one that was given out. -/
def brokerReclaimTagOk (expectedStatus : String) (priorTag : Option ℤ) (lastTag deliveryTag : ℤ) :
    Bool :=
  if deliveryTag ≤ 0 then false
  else if expectedStatus ≠ "claimed" then true
  else priorTag.any fun tag => decide (tag ≤ lastTag)

def checkedSucc (i : ℤ) : Option ℤ := if i + 1 < i64Bound then some (i + 1) else none

def brokerNextDeliveryCount (properties : Fields) : Option ℤ :=
  match lookupRow "delivery_count" properties with
  | none => checkedSucc 0
  | some value => ((asI64 value).filter fun count => decide (0 ≤ count)).bind checkedSucc

/-- The lease deadline; a lease of no length never ends. -/
def brokerLeaseUntil (nowMs leaseMs : ℕ) : Option (Option ℕ) :=
  if leaseMs = 0 then some none else (checkedAddU64 nowMs leaseMs).map some

/-- A message with its claim written into it. -/
def brokerStampClaim (properties : Fields) (request : BrokerClaimRequest) (nextDeliveryCount : ℤ)
    (leaseUntil : Option ℕ) (deliveryTag : ℤ) : Fields :=
  mergeUpdates properties
    [("status", .text "claimed"), ("owner_group", .text request.group),
      ("owner_consumer", .text request.consumer), ("delivery_count", ofI64 nextDeliveryCount),
      ("claimed_at", .unsigned request.nowMs), ("lease_until", orNull .unsigned leaseUntil),
      ("delivery_tag", ofI64 deliveryTag)]

def counterProps (deliveryTag : ℤ) : Json :=
  .object (fields [("type", .text brokerCounterType), ("last_tag", ofI64 deliveryTag)])

def lookupProps (request : BrokerClaimRequest) : Json :=
  .object (fields
    [("type", .text dtagLookupType), ("node_id", .text request.nodeId),
      ("queue", .text request.queue), ("owner_consumer", .text request.consumer)])

/-- A claim that is ready to be written. -/
structure BrokerClaim where
  priorTag : Option ℤ
  deliveryTag : ℤ
  message : Fields

/-- Checks a claim against the stored message. -/
def prepareBrokerClaim (core : Core) (request : BrokerClaimRequest) : Option BrokerClaim := do
  let properties ← core.nodeRowMap request.nodeId
  guard (brokerClaimPreconditionOk properties request)
  let lastTag ← brokerLastDeliveryTag core
  let deliveryTag ← checkedSucc lastTag
  let priorTag ← brokerPriorDeliveryTag properties
  guard (brokerReclaimTagOk request.expectedStatus priorTag lastTag deliveryTag)
  guard (!core.hasNode (dtagLookupNodeId deliveryTag))
  let cleared := insertRow "delivery_tag" .null properties
  let nextDeliveryCount ← brokerNextDeliveryCount cleared
  let leaseUntil ← brokerLeaseUntil request.nowMs request.leaseMs
  return ⟨priorTag, deliveryTag,
    brokerStampClaim cleared request nextDeliveryCount leaseUntil deliveryTag⟩

def retireTag (core : Core) : Option ℤ → Core
  | none => core
  | some tag => core.removeNode (dtagLookupNodeId tag)

/-- Writes a claim: the counter, the tag's lookup row and the message. -/
def installClaim (core : Core) (request : BrokerClaimRequest) (claim : BrokerClaim) : Core :=
  ((((retireTag core claim.priorTag).addNode dtagSeqNodeId (counterProps claim.deliveryTag)).addNode
    request.nodeId (.object claim.message)).addNode (dtagLookupNodeId claim.deliveryTag)
      (lookupProps request)).note (.claimed request.nodeId claim.deliveryTag request.consumer)

/-- Claims one message under a new tag. -/
def brokerClaimDelivery (core : Core) (request : BrokerClaimRequest) : Option (Core × Fields) :=
  if WorkItem.Rows.isBlank request.consumer then none
  else (prepareBrokerClaim core request).map fun claim =>
    (installClaim core request claim, claim.message)

/-! ### Settling by tag -/

/-- A message row against the tag being fenced. -/
inductive BrokerClaimLiveness
  | live
  | stale
  | notOwner

/-- The tag is the one of the message's claim. -/
def isCurrent (properties : Fields) (deliveryTag : ℤ) : Bool :=
  decide ((lookupRow "status" properties).bind Json.asStr = some "claimed") &&
    decide ((lookupRow "delivery_tag" properties).bind asI64 = some deliveryTag)

/-- How a message stands to a presented tag. -/
def brokerClaimLiveness (properties : Fields) (deliveryTag : ℤ) (consumer : String) :
    BrokerClaimLiveness :=
  if !isCurrent properties deliveryTag then .stale
  else if (lookupRow "owner_consumer" properties).bind Json.asStr ≠ some consumer then .notOwner
  else .live

def brokerTagAddressable (deliveryTag : ℤ) (consumer : String) : Bool :=
  decide (0 < deliveryTag) && !WorkItem.Rows.isBlank consumer

/-- Load the message row a tag addresses; a row that is gone or superseded retires the lookup. -/
def brokerTakeLiveClaim (core : Core) (nodeId : String) (deliveryTag : ℤ) (consumer : String) :
    Core × Option Fields :=
  match core.nodeRowMap nodeId with
  | none => (core.removeNode (dtagLookupNodeId deliveryTag), none)
  | some properties =>
    match brokerClaimLiveness properties deliveryTag consumer with
    | .live => (core, some properties)
    | .stale => (core.removeNode (dtagLookupNodeId deliveryTag), none)
    | .notOwner => (core, none)

/-- The lookup row of a tag belongs to the caller: the message and the queue it names. -/
def brokerResolveTagOwner (core : Core) (deliveryTag : ℤ) (consumer : String) :
    Core × Option (String × String) :=
  match core.nodeRowMap (dtagLookupNodeId deliveryTag) with
  | none => (core, none)
  | some lookup =>
    if (lookupRow "type" lookup).bind Json.asStr ≠ some dtagLookupType then
      (core.removeNode (dtagLookupNodeId deliveryTag), none)
    else if (lookupRow "owner_consumer" lookup).bind Json.asStr ≠ some consumer then (core, none)
    else (core, some (fStr lookup "node_id", fStr lookup "queue"))

def removeDelivery (core : Core) (deliveryTag : ℤ) (nodeId : String) : Core :=
  (core.removeNode (dtagLookupNodeId deliveryTag)).removeNode nodeId

/-- Acknowledges a delivery by its tag. -/
def brokerAckDeliveryTag (core : Core) (deliveryTag : ℤ) (consumer : String) : Core × Bool :=
  if !brokerTagAddressable deliveryTag consumer then (core, false)
  else
    match brokerResolveTagOwner core deliveryTag consumer with
    | (core, none) => (core, false)
    | (core, some (nodeId, _)) =>
      if nodeId.isEmpty then (core.removeNode (dtagLookupNodeId deliveryTag), false)
      else
        match brokerTakeLiveClaim core nodeId deliveryTag consumer with
        | (core, none) => (core, false)
        | (core, some _) =>
          (removeDelivery (core.note (.acked nodeId deliveryTag consumer)) deliveryTag nodeId, true)

/-- The new deadline extends a lease that is still live. -/
def brokerLeaseExtends (properties : Fields) (nowMs renewedUntil : ℕ) : Bool :=
  (fU64 properties "lease_until").any fun current =>
    decide (nowMs < current) && decide (current < renewedUntil)

/-- Extends the lease of a delivery. -/
def brokerRenewDeliveryTag (core : Core) (deliveryTag : ℤ) (consumer : String)
    (nowMs leaseMs : ℕ) : Core × Bool :=
  if !brokerTagAddressable deliveryTag consumer || leaseMs == 0 then (core, false)
  else
    match checkedAddU64 nowMs leaseMs with
    | none => (core, false)
    | some renewedUntil =>
      match brokerResolveTagOwner core deliveryTag consumer with
      | (core, none) => (core, false)
      | (core, some (nodeId, _)) =>
        match brokerTakeLiveClaim core nodeId deliveryTag consumer with
        | (core, none) => (core, false)
        | (core, some properties) =>
          if !brokerLeaseExtends properties nowMs renewedUntil then (core, false)
          else
            ((core.addNode nodeId
              (.object (insertRow "lease_until" (.unsigned renewedUntil) properties))).note
                (.renewed nodeId deliveryTag consumer), true)

/-- The fields of a message that goes back to the queue. -/
def pendingFields : Fields :=
  [("status", .text "pending"), ("lease_until", .null), ("owner_consumer", .null),
    ("owner_group", .null), ("delivery_tag", .null)]

def brokerUnderMaxDelivery (core : Core) (queue : String) (deliveryCount : ℤ) : Bool :=
  match (core.nodeRowMap (queuePolicyNodeId queue)).bind fun policy =>
    fU64 policy "max_delivery_count" with
  | none => true
  | some max => decide (deliveryCount < max)

inductive BrokerNackTransition
  | absent
  | requeued
  | terminal (nodeId queue : String) (properties : Fields)

/-- End a delivery by its tag: the message goes back to the queue, or it is removed. -/
def brokerNackDeliveryTag (core : Core) (deliveryTag : ℤ) (consumer : String) (requeue : Bool) :
    Core × BrokerNackTransition :=
  if !brokerTagAddressable deliveryTag consumer then (core, .absent)
  else
    match brokerResolveTagOwner core deliveryTag consumer with
    | (core, none) => (core, .absent)
    | (core, some (nodeId, queue)) =>
      if nodeId.isEmpty || queue.isEmpty then
        (core.removeNode (dtagLookupNodeId deliveryTag), .absent)
      else
        match brokerTakeLiveClaim core nodeId deliveryTag consumer with
        | (core, none) => (core, .absent)
        | (core, some properties) =>
          match ((lookupRow "delivery_count" properties).bind asI64).filter
            fun count => decide (0 ≤ count) with
          | none => (core, .absent)
          | some deliveryCount =>
            if requeue && brokerUnderMaxDelivery core queue deliveryCount then
              (((core.removeNode (dtagLookupNodeId deliveryTag)).addNode nodeId
                (.object (mergeUpdates properties pendingFields))).note
                  (.requeued nodeId deliveryTag consumer), .requeued)
            else
              (removeDelivery (core.note (.nacked nodeId deliveryTag consumer)) deliveryTag nodeId,
                .terminal nodeId queue properties)

/-! ### Leases that ran out -/

/-- Releases a claim whose lease has run out. -/
def brokerReleaseExpiredDelivery (core : Core) (nodeId : String) (expectedLeaseUntil : Option ℕ)
    (nowMs : ℕ) : Core × Bool :=
  match core.nodeRowMap nodeId with
  | none => (core, false)
  | some properties =>
    match fU64 properties "lease_until" with
    | none => (core, false)
    | some currentLease =>
      if (lookupRow "status" properties).bind Json.asStr ≠ some "claimed" ∨
          some currentLease ≠ expectedLeaseUntil ∨ nowMs < currentLease then (core, false)
      else
        match ((lookupRow "delivery_tag" properties).bind asI64).filter
          fun tag => decide (0 < tag) with
        | none => (core, false)
        | some tag =>
          (((core.removeNode (dtagLookupNodeId tag)).addNode nodeId
            (.object (mergeUpdates properties pendingFields))).note (.released nodeId tag), true)

end Medulla.Broker.Delivery
