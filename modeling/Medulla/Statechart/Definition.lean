import Medulla.Library.OrderedSet

/-! # Statechart definitions

A chart is a list of states with their containment, an alphabet, a list of transitions, an initial
state and final states. Guards read the extended state and the event's payload, actions write the
extended state or name an effect for the interpreter. -/

namespace Medulla.Statechart.Definition

open Library.OrderedTable

/-- What the engine uses of JSON values: equality, `null`, fields of objects, and the value as a
double with the comparisons of doubles. -/
class JsonValue (J : Type) where
  F64 : Type
  null : J
  eq : J → J → Bool
  field : J → String → Option J
  asF64 : J → Option F64
  lt : F64 → F64 → Bool
  le : F64 → F64 → Bool

variable {J : Type} [JsonValue J]

/-! ### Extended state, guards and actions -/

/-- The extended state: an ordered map from names to JSON values. -/
abbrev Context (J : Type) := Table String J

def Context.has (context : Context J) (key : String) : Bool :=
  (context.get key).any fun v => !JsonValue.eq v JsonValue.null

/-- An event with its payload. -/
structure EventInput (J : Type) where
  name : String
  payload : J

def EventInput.new (name : String) : EventInput J := ⟨name, JsonValue.null⟩

def EventInput.payloadField (event : EventInput J) (key : String) : Option J :=
  JsonValue.field event.payload key

/-- The conditions of a transition. -/
inductive Guard (J : Type) [JsonValue J] where
  | always
  | never
  | keyExists (key : String)
  | missing (key : String)
  | eq (key : String) (value : J)
  | ne (key : String) (value : J)
  | gt (key : String) (value : JsonValue.F64 J)
  | ge (key : String) (value : JsonValue.F64 J)
  | lt (key : String) (value : JsonValue.F64 J)
  | le (key : String) (value : JsonValue.F64 J)
  | eventEq (key : String) (value : J)
  | all (guards : List (Guard J))
  | any (guards : List (Guard J))
  | not (guard : Guard J)

def number (context : Context J) (key : String) : Option (JsonValue.F64 J) :=
  (context.get key).bind JsonValue.asF64

mutual

/-- A guard holds for a context and an event. -/
def Guard.eval (context : Context J) (event : EventInput J) : Guard J → Bool
  | .always => true
  | .never => false
  | .keyExists key => context.has key
  | .missing key => !context.has key
  | .eq key value => (context.get key).any (JsonValue.eq · value)
  | .ne key value => (context.get key).any fun current => !JsonValue.eq current value
  | .gt key value => (number context key).any fun n => JsonValue.lt value n
  | .ge key value => (number context key).any fun n => JsonValue.le value n
  | .lt key value => (number context key).any fun n => JsonValue.lt n value
  | .le key value => (number context key).any fun n => JsonValue.le n value
  | .eventEq key value => (event.payloadField key).any (JsonValue.eq · value)
  | .all guards => Guard.evalAll context event guards
  | .any guards => Guard.evalAny context event guards
  | .not guard => !Guard.eval context event guard

def Guard.evalAll (context : Context J) (event : EventInput J) : List (Guard J) → Bool
  | [] => true
  | g :: gs => Guard.eval context event g && Guard.evalAll context event gs

def Guard.evalAny (context : Context J) (event : EventInput J) : List (Guard J) → Bool
  | [] => false
  | g :: gs => Guard.eval context event g || Guard.evalAny context event gs

end

/-- Where an assigned value comes from. -/
inductive ActionValue (J : Type) where
  | const (value : J)
  | event (key : String)
  | context (key : String)

def ActionValue.resolve (context : Context J) (event : EventInput J) : ActionValue J → J
  | .const value => value
  | .event key => (event.payloadField key).getD JsonValue.null
  | .context key => (context.get key).getD JsonValue.null

/-- Actions: writes of the extended state, and effects for the interpreter. -/
inductive Action (J : Type) where
  | assign (key : String) (value : ActionValue J)
  | remove (key : String)
  | emit (signal : String)
  | log (message : String)
  | custom (name : String) (args : J)

def Action.apply (event : EventInput J) (context : Context J) : Action J → Context J
  | .assign key value => context.insert key (value.resolve context event)
  | .remove key => context.remove key
  | .emit _ => context
  | .log _ => context
  | .custom _ _ => context

/-- Runs a block of actions. -/
def applyAll (context : Context J) (actions : List (Action J)) (event : EventInput J) : Context J :=
  actions.foldl (Action.apply event) context

/-! ### The chart -/

abbrev StateId := String
abbrev EventName := String

/-- How much of its inside a composite state remembers. -/
inductive HistoryKind where
  | shallow
  | deep

/-- A state with its children and action blocks. -/
structure State (J : Type) where
  id : StateId
  entry : List (Action J) := []
  exit : List (Action J) := []
  children : List StateId := []
  parallel : Bool := false
  initialChild : Option StateId := none
  history : Option HistoryKind := none

/-- A transition between states. -/
structure Transition (J : Type) [JsonValue J] where
  source : StateId
  event : EventName
  target : StateId
  guard : Option (Guard J) := none
  actions : List (Action J) := []
  label : Option String := none

def Transition.guardHolds (t : Transition J) (context : Context J) (event : EventInput J) : Bool :=
  match t.guard with
  | none => true
  | some guard => guard.eval context event

def Transition.shownLabel (t : Transition J) : String :=
  t.label.getD (t.source ++ "-" ++ t.event ++ "->" ++ t.target)

/-- A chart. -/
structure StatechartDef (J : Type) [JsonValue J] where
  states : List (State J)
  alphabet : List EventName
  transitions : List (Transition J)
  initial : StateId
  finals : List StateId := []

namespace StatechartDef

variable (chart : StatechartDef J)

/-- The state of an id. -/
def state (id : StateId) : Option (State J) := chart.states.find? fun s => s.id == id

def hasState (id : StateId) : Bool := chart.states.any fun s => s.id == id

def isFinal (id : StateId) : Bool := chart.finals.any (· == id)

def inAlphabet (event : EventName) : Bool := chart.alphabet.any (· == event)

def transitionsFrom (id : StateId) (event : EventName) : List (Transition J) :=
  chart.transitions.filter fun t => t.source == id && t.event == event

/-- The declared pairs of a child and its container, in declaration order. -/
def containments : List (StateId × StateId) :=
  chart.states.flatMap fun s => s.children.map fun c => (c, s.id)

variable {chart} {id : StateId} {s : State J}

theorem hasState_iff : chart.hasState id = true ↔ ∃ s ∈ chart.states, s.id = id := by
  simp [hasState]

theorem state_mem (h : chart.state id = some s) : s ∈ chart.states ∧ s.id = id := by
  refine ⟨List.mem_of_find?_eq_some h, ?_⟩
  simpa using List.find?_some h

theorem state_isSome : (chart.state id).isSome = true ↔ chart.hasState id = true := by
  rw [state, hasState_iff]
  simp

theorem exists_state (h : chart.hasState id = true) : ∃ s, chart.state id = some s :=
  Option.isSome_iff_exists.mp (state_isSome.mpr h)

theorem inAlphabet_iff {event : EventName} : chart.inAlphabet event = true ↔ event ∈ chart.alphabet := by
  simp [inAlphabet]

theorem mem_containments {c p : StateId} :
    (c, p) ∈ chart.containments ↔ ∃ s ∈ chart.states, s.id = p ∧ c ∈ s.children := by
  unfold containments
  rw [List.mem_flatMap]
  constructor
  · rintro ⟨s, hs, hc⟩
    obtain ⟨c', hc', heq⟩ := List.mem_map.mp hc
    obtain ⟨rfl, rfl⟩ := Prod.mk.inj heq
    exact ⟨s, hs, rfl, hc'⟩
  · rintro ⟨s, hs, rfl, hc⟩
    exact ⟨s, hs, List.mem_map.mpr ⟨c, hc, rfl⟩⟩

end StatechartDef

end Medulla.Statechart.Definition
