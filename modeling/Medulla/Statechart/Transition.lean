import Medulla.Statechart.Definition
import Mathlib.Data.List.Sort

/-! # The interpreter

A configuration is the set of active states with the history memory. `step` selects the enabled
transitions of the active leaves and their ancestors, keeps those whose exit sets are disjoint,
exits inner-out, and enters along the path to each target outer-in.

The loops of the source that climb the containment are written over `ancestors`, the list of proper
ancestors from the inside out; the recursive entry functions take fuel. Both bounds come from the
number of states and are never reached in an accepted chart. -/

namespace Medulla.Statechart.Transition

open Library.OrderedTable Library.OrderedSet Definition

variable {J : Type} [JsonValue J]

/-! ### Configurations -/

/-- The active states and the recorded histories. -/
structure Configuration where
  active : KeySet StateId
  history : Table StateId (KeySet StateId)

variable (chart : StatechartDef J)

/-- The active states without children. -/
def Configuration.leaves (config : Configuration) : List StateId :=
  (elems config.active).filter fun id => ((chart.state id).map fun s => s.children.isEmpty).getD true

def Configuration.isFinal (config : Configuration) : Bool := (elems config.active).any chart.isFinal

/-- Why nothing fired. -/
inductive NoOpReason where
  | noTransitionDefined
  | allGuardsFalse

inductive TransitionError where
  | unknownState (id : String)
  | unknownEvent (event : String)
  | undeclaredTarget (transition target : String)
  | compositeUnsupported (id : String)

/-- The next configuration, with what ran. -/
structure StepOutcome (J : Type) where
  next : Configuration
  nextContext : Context J
  actions : List (Action J)
  fired : Bool
  noOpReason : Option NoOpReason
  firedLabel : Option String

/-! ### Climbing the containment -/

def parentMap : Table StateId StateId := Table.ofPairs chart.containments

def climb (parent : Table StateId StateId) : Nat → StateId → List StateId
  | 0, _ => []
  | fuel + 1, id =>
    match parent.get id with
    | none => []
    | some p => p :: climb parent fuel p

/-- The containers of a state, innermost first. -/
def ancestors (id : StateId) : List StateId := climb (parentMap chart) (chart.states.length + 1) id

def isProperDescendant (id ancestor : StateId) : Bool := (ancestors chart id).any (· == ancestor)

def depth (id : StateId) : Nat := (ancestors chart id).length

def isCompound (id : StateId) : Bool := (chart.state id).any fun s => !s.children.isEmpty

/-- The innermost compound state that contains the source, or is it, and contains the target; `none`
is the implicit root. -/
def transitionDomain (source target : StateId) : Option StateId :=
  if isCompound chart source && isProperDescendant chart target source then some source
  else (ancestors chart source).find? fun a =>
    isCompound chart a && (a == target || isProperDescendant chart target a)

/-- The active states inside a domain. -/
def exitSet (active : KeySet StateId) (domain : Option StateId) : KeySet StateId :=
  keep (fun s => match domain with
    | none => true
    | some d => isProperDescendant chart s d) active

/-! ### Entering states -/

/-- The active states and the actions run so far. -/
structure Walk (J : Type) where
  active : KeySet StateId
  actions : List (Action J)

/-- Enters a state that is not active. -/
def Walk.enter (id : StateId) (w : Walk J) : Walk J :=
  if has w.active id then w
  else ⟨add w.active id, w.actions ++ ((chart.state id).map State.entry).getD []⟩

def descent (id : StateId) : Option (State J) :=
  (chart.state id).filter fun s => !s.children.isEmpty

/-- The child to descend into when nothing is remembered. -/
def defaultChild (s : State J) : Option StateId := s.initialChild.or s.children.head?

/-- The remembered child, with how deeply to restore it and the whole memory. -/
def rememberedChild (s : State J) (history : Table StateId (KeySet StateId)) :
    Option (HistoryKind × StateId × KeySet StateId) :=
  s.history.bind fun kind => (history.get s.id).bind fun remembered =>
    (s.children.find? (has remembered)).map fun child => (kind, child, remembered)

variable (history : Table StateId (KeySet StateId))

mutual

/-- Enters a state and its initial descendants. -/
def enterFull : Nat → StateId → Walk J → Walk J
  | 0, _, w => w
  | fuel + 1, id, w =>
    match descent chart id with
    | none => w.enter chart id
    | some s =>
      if s.parallel then
        s.children.foldl (fun w child => enterFull fuel child w) (w.enter chart id)
      else match rememberedChild s history with
        | some (.shallow, child, _) => enterFull fuel child (w.enter chart id)
        | some (.deep, child, remembered) => enterRestore fuel child remembered (w.enter chart id)
        | none =>
          match defaultChild s with
          | some child => enterFull fuel child (w.enter chart id)
          | none => w.enter chart id

/-- Enters a state and restores its recorded descendants. -/
def enterRestore : Nat → StateId → KeySet StateId → Walk J → Walk J
  | 0, _, _, w => w
  | fuel + 1, id, remembered, w =>
    match descent chart id with
    | none => w.enter chart id
    | some s =>
      if s.parallel then
        s.children.foldl (fun w child =>
          if has remembered child then enterRestore fuel child remembered w
          else enterFull fuel child w) (w.enter chart id)
      else match s.children.find? (has remembered) with
        | some child => enterRestore fuel child remembered (w.enter chart id)
        | none =>
          match defaultChild s with
          | some child => enterFull fuel child (w.enter chart id)
          | none => w.enter chart id

end

def entryFuel : Nat := chart.states.length + 2

/-- Enter a state the path runs through: its entry actions, and the regions off the path if it is
parallel. -/
def enterPassThrough (node next : StateId) (w : Walk J) : Walk J :=
  match chart.state node with
  | none => w.enter chart node
  | some s =>
    if s.parallel then
      (s.children.filter (· != next)).foldl
        (fun w child => enterFull chart history (entryFuel chart) child w) (w.enter chart node)
    else w.enter chart node

/-- Pass through all but the last state of a path, and enter the last one fully. -/
def enterPath : List StateId → Walk J → Walk J
  | [], w => w
  | [deepest], w => enterFull chart history (entryFuel chart) deepest w
  | node :: next :: rest, w => enterPath (next :: rest) (enterPassThrough chart history node next w)

/-- The states between a domain and a target, outermost first. -/
def pathTo (domain : Option StateId) (target : StateId) : List StateId :=
  ((target :: ancestors chart target).takeWhile fun c => some c != domain).reverse

/-- Enters the path to a target and the target. -/
def enterToTarget (domain : Option StateId) (target : StateId) (w : Walk J) : Walk J :=
  match pathTo chart domain target with
  | [] => enterFull chart history (entryFuel chart) target w
  | node :: rest => enterPath chart history (node :: rest) w

/-- The configuration a chart starts in. -/
def initialConfiguration : Except TransitionError (Configuration × List (Action J)) :=
  match chart.state chart.initial with
  | none => .error (.unknownState chart.initial)
  | some _ =>
    let w := enterFull chart Table.empty (entryFuel chart) chart.initial ⟨Table.empty, []⟩
    .ok (⟨w.active, Table.empty⟩, w.actions)

/-! ### One step -/

/-- The first transition of a state that an event enables. -/
def enabledAt (context : Context J) (event : EventInput J) (id : StateId) : Option Nat :=
  chart.transitions.findIdx? fun t =>
    t.source == id && t.event == event.name && t.guardHolds context event

/-- Per active leaf the first enabled transition up the containment, in document order. -/
def selectEnabled (config : Configuration) (context : Context J) (event : EventInput J) :
    KeySet Nat :=
  extend Table.empty ((config.leaves chart).filterMap fun leaf =>
    (leaf :: ancestors chart leaf).findSome? (enabledAt chart context event))

/-- The domain of a transition. -/
def domainOf (t : Transition J) : Option StateId := transitionDomain chart t.source t.target

def keepDisjoint (active : KeySet StateId) (selected : List (Transition J)) (t : Transition J) :
    List (Transition J) :=
  if selected.any fun u =>
      !isDisjoint (exitSet chart active (domainOf chart t)) (exitSet chart active (domainOf chart u))
    then selected
  else selected ++ [t]

/-- The candidates whose exits do not overlap, in order. -/
def resolveConflicts (active : KeySet StateId) (candidates : KeySet Nat) : List (Transition J) :=
  ((elems candidates).filterMap fun i => chart.transitions[i]?).foldl (keepDisjoint chart active) []

def noTransitionReason (active : KeySet StateId) (event : EventInput J) : NoOpReason :=
  if chart.transitions.any fun t => t.event == event.name && has active t.source then .allGuardsFalse
  else .noTransitionDefined

/-- All states that the selected transitions exit. -/
def exitPlan (active : KeySet StateId) (selected : List (Transition J)) : KeySet StateId :=
  selected.foldl (fun all t => extend all (elems (exitSet chart active (domainOf chart t))))
    Table.empty

/-- Remembers what is active inside the exited states that keep a history. -/
def recordHistory (exits active : KeySet StateId) : Table StateId (KeySet StateId) :=
  (elems exits).foldl (fun memory h =>
    if ((chart.state h).bind State.history).isSome then
      memory.insert h (keep (fun s => isProperDescendant chart s h) active)
    else memory) history

/-- Deeper states first, and among states of one depth the greater id first. -/
def exitsBefore (a b : StateId) : Prop :=
  depth chart b < depth chart a ∨ depth chart b = depth chart a ∧ b ≤ a

instance : DecidableRel (exitsBefore chart) := fun a b => by
  unfold exitsBefore
  infer_instance

def Walk.leave (w : Walk J) (id : StateId) : Walk J :=
  ⟨w.active.remove id, w.actions ++ ((chart.state id).map State.exit).getD []⟩

/-- Leaves the states of a plan, innermost first. -/
def runExits (exits : KeySet StateId) (w : Walk J) : Walk J :=
  ((elems exits).insertionSort (exitsBefore chart)).foldl (Walk.leave chart) w

/-- The transitions that an event fires. -/
def firing (config : Configuration) (context : Context J) (event : EventInput J) :
    List (Transition J) :=
  resolveConflicts chart config.active (selectEnabled chart config context event)

/-- Exits, runs and enters for the fired transitions. -/
def fire (config : Configuration) (selected : List (Transition J)) :
    Configuration × List (Action J) :=
  let exits := exitPlan chart config.active selected
  let memory := recordHistory chart config.history exits config.active
  let exited := runExits chart exits ⟨config.active, []⟩
  let acted : Walk J := ⟨exited.active, exited.actions ++ selected.flatMap Transition.actions⟩
  let entered := selected.foldl
    (fun w t => enterToTarget chart memory (domainOf chart t) t.target w) acted
  (⟨entered.active, memory⟩, entered.actions)

/-- One event. -/
def step (config : Configuration) (context : Context J) (event : EventInput J) :
    Except TransitionError (StepOutcome J) :=
  if chart.inAlphabet event.name then
    match (elems config.active).find? fun id => !chart.hasState id with
    | some id => .error (.unknownState id)
    | none =>
      match firing chart config context event with
      | [] => .ok ⟨config, context, [], false,
          some (noTransitionReason chart config.active event), none⟩
      | selected =>
        let (next, actions) := fire chart config selected
        .ok ⟨next, applyAll context actions event, actions, true, none,
          some ("+".intercalate (selected.map Transition.shownLabel))⟩
  else .error (.unknownEvent event.name)

/-! ### Runs -/

/-- A fresh instance: the initial configuration, its entry actions folded into the context. -/
def instantiate (context : Context J) : Except TransitionError (Configuration × Context J) :=
  (initialConfiguration chart).map fun (config, actions) =>
    (config, applyAll context actions (EventInput.new "__init__"))

def advance (reached : Configuration × Context J) (event : EventInput J) :
    Except TransitionError (Configuration × Context J) :=
  (step chart reached.1 reached.2 event).map fun out => (out.next, out.nextContext)

/-- Apply a sequence of events to a fresh instance. -/
def run (context : Context J) (events : List (EventInput J)) :
    Except TransitionError (Configuration × Context J) := do
  events.foldlM (advance chart) (← instantiate chart context)

end Medulla.Statechart.Transition
