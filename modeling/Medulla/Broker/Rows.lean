import Std.Data.String.ToInt
import Medulla.Index.Changes
import Medulla.WorkItem.Rows

/-! # The rows of the broker

Exchanges, bindings, queues, messages and delivery tags are ordinary nodes of one graph, told apart
by their ids and their `type`. A node's properties are kept decoded. Beside the nodes the state has a
journal of what happened to messages; it is written where the source makes the transition and is read
by no operation. The append counter of a queue is an `i64` of the source that is never exhausted
here; every other integer has its 64-bit range. -/

namespace Medulla.Broker.Rows

open Library.OrderedTable Resource.Extension Index.Changes

/-! ### Node ids and labels -/

def exchangeNodeId (name : String) : String := "broker:ex:" ++ name

def queueSeqNodeId (queue : String) : String := "broker:seq:" ++ queue

/-- The label a queue's message nodes carry. -/
def queueMsgLabel (queue : String) : String := "qmsg:" ++ queue

def messageNodeId (queue : String) (seq : ℤ) : String := "broker:msg:" ++ queue ++ ":" ++ seq.repr

def queuePolicyNodeId (queue : String) : String := "broker:qpolicy:" ++ queue

/-- Node id of the counter of consumer delivery tags. -/
def dtagSeqNodeId : String := "broker:dtag_seq"

/-- Node id of the reverse lookup from a delivery tag to the claimed message. -/
def dtagLookupNodeId (tag : ℤ) : String := "broker:dtag:" ++ tag.repr

def bindingType : String := "BrokerBinding"
def queueSeqType : String := "BrokerQueueSeq"
def brokerCounterType : String := "BrokerCounter"
def dtagLookupType : String := "BrokerDeliveryTag"

/-! ### Values -/

def i64Bound : ℤ := 2 ^ 63

/-- A JSON number read as `i64`. -/
def asI64 : Json → Option ℤ
  | .unsigned n => if (n : ℤ) < i64Bound then some n else none
  | .number text => text.toInt?.filter fun i => decide (-i64Bound ≤ i ∧ i < 0)
  | _ => none

def ofI64 (i : ℤ) : Json := if 0 ≤ i then .unsigned i.toNat else .number i.repr

theorem asI64_ofI64 {i : ℤ} (h0 : 0 ≤ i) (h1 : i < i64Bound) : asI64 (ofI64 i) = some i := by
  have hnat : (i.toNat : ℤ) = i := Int.toNat_of_nonneg h0
  simp only [ofI64, h0, if_true, asI64, hnat, h1]

def u64Bound : ℕ := 2 ^ 64

def checkedAddU64 (a b : ℕ) : Option ℕ := if a + b < u64Bound then some (a + b) else none

/-- Addition that stops at `u64::MAX`. -/
def saturatingAddU64 (a b : ℕ) : ℕ := min (a + b) (u64Bound - 1)

/-- A text field, empty by default. -/
def fStr (o : Fields) (k : String) : String := ((lookupRow k o).bind Json.asStr).getD ""

def fI64 (o : Fields) (k : String) (dflt : ℤ) : ℤ := ((lookupRow k o).bind asI64).getD dflt

def fU64 (o : Fields) (k : String) : Option ℕ := (lookupRow k o).bind Json.asU64

/-- An optional value, where nothing is `null`. -/
def orNull (f : α → Json) : Option α → Json
  | none => .null
  | some a => f a

def fields (pairs : List (String × Json)) : Fields := mergeUpdates [] pairs

/-! ### The state -/

/-- What a broker call did, for the journal the proofs read. -/
inductive Event
  | enqueued (id : String)
  | claimed (id : String) (tag : ℤ) (consumer : String)
  | renewed (id : String) (tag : ℤ) (consumer : String)
  | acked (id : String) (tag : ℤ) (consumer : String)
  | requeued (id : String) (tag : ℤ) (consumer : String)
  | nacked (id : String) (tag : ℤ) (consumer : String)
  | released (id : String) (tag : ℤ)
  | deadLettered (id reason : String) (expiresAt : Option ℕ) (now : ℕ)
  | removed (id : String)
  deriving DecidableEq

/-- The graph's nodes with the journal of broker events. -/
structure Core where
  nodes : Table String Json
  journal : List Event

namespace Core

def hasNode (core : Core) (id : String) : Bool := (core.nodes.get id).isSome

def addNode (core : Core) (id : String) (properties : Json) : Core :=
  { core with nodes := core.nodes.insert id properties }

def note (core : Core) (e : Event) : Core := { core with journal := core.journal ++ [e] }

def removeNode (core : Core) (id : String) : Core :=
  if core.hasNode id then { core with nodes := core.nodes.remove id }.note (.removed id) else core

def nodeObject (core : Core) (id : String) : Option Fields := (core.nodes.get id).bind Json.asObject

/-- A node's object with its id filled in. -/
def nodeRowMap (core : Core) (id : String) : Option Fields :=
  (core.nodeObject id).map fun o =>
    match lookupRow "id" o with
    | some _ => o
    | none => insertRow "id" (.text id) o

/-- The nodes that carry a label. -/
def getNodesByLabel (core : Core) (label : String) : List (String × Json) :=
  core.nodes.rows.filter fun row => (labelsOf row.2).contains label

/-- Merges fields into a node that is an object. -/
def setFields (core : Core) (id : String) (updates : Fields) : Core :=
  match core.nodeObject id with
  | none => core
  | some o => core.addNode id (.object (mergeUpdates o updates))

end Core

/-! ### Queue policies -/

/-- The limits and the dead letter route of a queue. -/
structure QueuePolicy where
  dlExchange : Option String
  dlRoutingKey : Option String
  maxDeliveryCount : Option ℕ
  messageTtlMs : Option ℕ
  queueExpiryMs : Option ℕ
  maxPriority : Option ℕ

def QueuePolicy.default : QueuePolicy := ⟨none, none, none, none, none, none⟩

/-- An optional field: absent and `null` are `none`, a value of another kind is an error. -/
def optField (read : Json → Option α) (o : Fields) (k : String) : Option (Option α) :=
  match lookupRow k o with
  | none => some none
  | some .null => some none
  | some v => (read v).map some

def asUnsigned (bits : ℕ) (v : Json) : Option ℕ := v.asU64.filter fun n => decide (n < 2 ^ bits)

def QueuePolicy.fromValue (o : Fields) : Option QueuePolicy := do
  let dlExchange ← optField Json.asStr o "dl_exchange"
  let dlRoutingKey ← optField Json.asStr o "dl_routing_key"
  let maxDeliveryCount ← optField (asUnsigned 32) o "max_delivery_count"
  let messageTtlMs ← optField (asUnsigned 64) o "message_ttl_ms"
  let queueExpiryMs ← optField (asUnsigned 64) o "queue_expiry_ms"
  let maxPriority ← optField (asUnsigned 8) o "max_priority"
  return ⟨dlExchange, dlRoutingKey, maxDeliveryCount, messageTtlMs, queueExpiryMs, maxPriority⟩

/-- The stored policy of a queue, else the default. -/
def loadQueuePolicy (core : Core) (queue : String) : QueuePolicy :=
  match core.nodeObject (queuePolicyNodeId queue) with
  | some o => (QueuePolicy.fromValue o).getD .default
  | none => .default

/-! ### Routing -/

/-- How an exchange routes. -/
inductive ExchangeKind
  | direct
  | topic
  | fanout

def trim (s : String) : List Char :=
  ((s.toList.dropWhile Types.Batch.isWhitespace).reverse.dropWhile Types.Batch.isWhitespace).reverse

def ExchangeKind.parse (s : String) : Option ExchangeKind :=
  match String.ofList ((trim s).map Char.toLower) with
  | "direct" => some .direct
  | "topic" => some .topic
  | "fanout" => some .fanout
  | _ => none

/-- A queue bound to an exchange under a routing key. -/
structure Binding where
  exchange : String
  queue : String
  routingKey : String

def loadExchangeKind (core : Core) (name : String) : Option ExchangeKind :=
  ((core.nodeObject (exchangeNodeId name)).bind fun o => (lookupRow "kind" o).bind Json.asStr).bind
    ExchangeKind.parse

def readBinding (exchange : String) (o : Fields) : Option Binding := do
  guard ((lookupRow "exchange" o).bind Json.asStr = some exchange)
  let queue ← (lookupRow "queue" o).bind Json.asStr
  let routingKey ← (lookupRow "routing_key" o).bind Json.asStr
  return ⟨exchange, queue, routingKey⟩

/-- The stored bindings of an exchange. -/
def loadBindings (core : Core) (exchange : String) : List Binding :=
  (core.getNodesByLabel bindingType).filterMap fun row => row.2.asObject.bind (readBinding exchange)

def words (s : String) : List (List Char) := if s.isEmpty then [] else s.toList.splitOn '.'

/-- The pattern positions reachable without consuming a word. -/
def epsilonClosure (pattern : List (List Char)) : ℕ → ℕ → List ℕ
  | 0, state => [state]
  | fuel + 1, state =>
    if pattern[state]? = some ['#'] then state :: epsilonClosure pattern fuel (state + 1)
    else [state]

/-- The positions reachable from one position by consuming a word. -/
def consume (pattern : List (List Char)) (word : List Char) (state : ℕ) : List ℕ :=
  match pattern[state]? with
  | none => []
  | some ['#'] => epsilonClosure pattern pattern.length state
  | some ['*'] => epsilonClosure pattern pattern.length (state + 1)
  | some lit => if lit = word then epsilonClosure pattern pattern.length (state + 1) else []

def topicMatchesWords (pattern key : List (List Char)) : Bool :=
  let active := key.foldl (fun active word => (active.flatMap (consume pattern word)).dedup)
    (epsilonClosure pattern pattern.length 0)
  active.contains pattern.length

/-- AMQP topic matching, word by word. -/
def topicMatches (pattern key : String) : Bool := topicMatchesWords (words pattern) (words key)

/-- The binding takes a message of this routing key. -/
def Binding.hits (kind : ExchangeKind) (routingKey : String) (b : Binding) : Bool :=
  match kind with
  | .fanout => true
  | .direct => b.routingKey == routingKey
  | .topic => topicMatches b.routingKey routingKey

/-- The destination queues in the order of the bindings, each once. -/
def route (kind : ExchangeKind) (bindings : List Binding) (routingKey : String) : List String :=
  (bindings.filter (Binding.hits kind routingKey)).foldl
    (fun out b => if b.queue ∈ out then out else out ++ [b.queue]) []

/-! ### Payloads -/

def hexDigit (n : ℕ) : Char := "0123456789abcdef".toList.getD n '0'

def hexEncode (bytes : List ℕ) : String :=
  String.ofList (bytes.flatMap fun b => [hexDigit (b / 16), hexDigit (b % 16)])

/-- The value of a hexadecimal digit of either case. -/
def nibble (c : Char) : Option ℕ :=
  if '0' ≤ c ∧ c ≤ '9' then some (c.toNat - '0'.toNat)
  else if 'a' ≤ c ∧ c ≤ 'f' then some (c.toNat - 'a'.toNat + 10)
  else if 'A' ≤ c ∧ c ≤ 'F' then some (c.toNat - 'A'.toNat + 10)
  else none

def hexDecodeChars : List Char → Option (List ℕ)
  | [] => some []
  | [_] => none
  | hi :: lo :: rest => do
    let h ← nibble hi
    let l ← nibble lo
    let bytes ← hexDecodeChars rest
    return (h * 16 + l) :: bytes

/-- The bytes of a text; a text that is not hexadecimal has none. -/
def hexDecode (s : String) : Option (List ℕ) := hexDecodeChars s.toList

end Medulla.Broker.Rows
