import Medulla.Resource.Extension
import Medulla.Library.OrderedTable

/-! # Row visibility

Who may see a row is written in reserved keys of its property blob, in two conventions: `_owner`,
`_visibility` and `_grants`, and `_owner_id` and `_shared_scope`. The visibility of a row is read from
them once; an agent sees a row that it owns, manages the owner of, was granted, or that is public or
schema. -/

namespace Medulla.Isolation.Rows

open Library.OrderedTable Resource.Extension

/-! ### Texts -/

def isWhiteSpace (c : Char) : Bool :=
  (9 ≤ c.toNat && c.toNat ≤ 13) || c.toNat = 32 || c.toNat = 133 || c.toNat = 160 || c.toNat = 5760 ||
    (8192 ≤ c.toNat && c.toNat ≤ 8202) || c.toNat = 8232 || c.toNat = 8233 || c.toNat = 8239 ||
    c.toNat = 8287 || c.toNat = 12288

def trim (s : List Char) : List Char := ((s.dropWhile isWhiteSpace).reverse.dropWhile isWhiteSpace).reverse

def eqIgnoreAsciiCase (s t : String) : Bool := s.toList.map Char.toLower == t.toList.map Char.toLower

def commaSeparated (s : String) : List String :=
  (((s.toList.splitOn ',').map trim).filter fun entry => !entry.isEmpty).map String.ofList

/-! ### The visibility of a row -/

/-- Who may see a row, as its tags say. -/
structure RowVisibility where
  owner : Option String
  isPublic : Bool
  grants : List String
  tagged : Bool
  schema : Bool

def RowVisibility.defaultPublic : RowVisibility := ⟨none, true, [], false, false⟩

def rlsOwnerKey : String := "_owner"
def rlsVisibilityKey : String := "_visibility"
def rlsGrantsKey : String := "_grants"
def rlsOwnerIdKey : String := "_owner_id"
def rlsSharedScopeKey : String := "_shared_scope"

/-- The tags that decide who may see a row. -/
def rlsKeys : List String :=
  [rlsOwnerKey, rlsVisibilityKey, rlsGrantsKey, rlsOwnerIdKey, rlsSharedScopeKey]

def containsKey (map : Fields) (key : String) : Bool := (lookupRow key map).isSome

/-- The owner, of either convention; an empty text is none. -/
def ownerOf (map : Fields) : Option String :=
  (((lookupRow rlsOwnerKey map).or (lookupRow rlsOwnerIdKey map)).bind Json.asStr).filter fun s => !s.isEmpty

def auTagged (map : Fields) : Bool := containsKey map rlsOwnerIdKey || containsKey map rlsSharedScopeKey

def sharedScopePublic (map : Fields) : Option Bool :=
  ((lookupRow rlsSharedScopeKey map).bind Json.asStr).map fun v =>
    eqIgnoreAsciiCase v "org" || eqIgnoreAsciiCase v "commons"

/-- The public flag of a row, from its visibility, scope and owner tags. -/
def publicOf (map : Fields) : Bool :=
  match (lookupRow rlsVisibilityKey map).bind Json.asStr with
  | none => (sharedScopePublic map).getD true
  | some v =>
    let nativePublic := !eqIgnoreAsciiCase v "private"
    if nativePublic && auTagged map then (sharedScopePublic map).getD nativePublic
    else if nativePublic && (ownerOf map).isNone && !containsKey map rlsGrantsKey then false
    else nativePublic

def grantsOf (map : Fields) : List String :=
  (((lookupRow rlsGrantsKey map).bind Json.asStr).map commaSeparated).getD []

variable {Blob : Type}

/-- The visibility a property blob declares; one that does not decode to an object declares none. Whether a
row is schema is not written in its blob. -/
def rowVisibility (decode : Blob → Option Fields) (blob : Blob) : RowVisibility :=
  match decode blob with
  | none => .defaultPublic
  | some map => ⟨ownerOf map, publicOf map, grantsOf map, rlsKeys.any (containsKey map), false⟩

/-! ### Agents -/

/-- What an agent may see beyond its own rows. -/
inductive AgentRole
  | system
  | manager (subordinates : List String)
  | agent
  deriving DecidableEq

/-- The registered agents and their roles. -/
structure IsolationLayer where
  agents : Table String AgentRole

namespace IsolationLayer

def isSystem (layer : IsolationLayer) (agentId : String) : Bool :=
  layer.agents.get agentId = some .system

def isManagerOf (layer : IsolationLayer) (agentId subordinateId : String) : Bool :=
  match layer.agents.get agentId with
  | some (.manager subordinates) => subordinates.contains subordinateId
  | _ => false

/-- An agent may read a row of this visibility. -/
def canSeeRow (layer : IsolationLayer) (agentId : String) (visibility : RowVisibility) : Bool :=
  match visibility.owner with
  | none => layer.isSystem agentId || visibility.schema || (visibility.tagged && visibility.isPublic)
  | some owner =>
    layer.isSystem agentId || visibility.schema || visibility.isPublic || owner == agentId ||
      visibility.grants.contains agentId || layer.isManagerOf agentId owner

end IsolationLayer

end Medulla.Isolation.Rows
