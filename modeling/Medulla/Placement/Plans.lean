import Medulla.Library.Transaction
import Medulla.Placement.Catalog

/-! # Plans committed command by command

An admin call becomes a plan of the catalog it reads; the plan's commands then reach the committed log
one at a time, in order, with the commands of other plans between them. -/

namespace Medulla.Placement.Plans

open Catalog

/-! ### Operations and their plans -/

/-- The placement changes. -/
inductive Operation
  | assign (tenant : String) (group : ℕ)
  | merge (tenant : String) (group : ℕ)
  | split (tenant : String) (point groupA groupB : ℕ)
  | startMove (tenant : String) (range : ℕ × ℕ) (target : ℕ)
  | fenceCutover (tenant : String) (range : ℕ × ℕ) (target : ℕ)
  | abortMove (tenant : String) (range : ℕ × ℕ) (source target originalEpoch : ℕ)
  deriving DecidableEq

namespace Operation

def tenant : Operation → String
  | .assign t _ | .merge t _ | .split t _ _ _ | .startMove t _ _ | .fenceCutover t _ _
  | .abortMove t _ _ _ _ => t

/-- Operations that give a tenant its whole range anew. -/
def assigns : Operation → Bool
  | .assign .. | .merge .. => true
  | _ => false

def rewrites : Operation → Bool
  | .assign .. | .merge .. | .split .. => true
  | _ => false

def plan (c : PlacementCatalog) : Operation → Except String PendingWrite
  | .assign tenant group => c.planAssign tenant group
  | .merge tenant group => c.planMerge tenant group
  | .split tenant point groupA groupB => c.planSplit tenant point groupA groupB
  | .startMove tenant range target => c.planStartMove tenant range target
  | .fenceCutover tenant range target => c.planFenceCutover tenant range target
  | .abortMove tenant range source target originalEpoch =>
    c.planAbortMove tenant range source target originalEpoch

end Operation

/-- The commands that come before a plan's row commands. -/
def PendingWrite.reserve (p : PendingWrite) : List Command :=
  match p.epochAllocation with
  | some a => reserveSteps a
  | none => []

/-- **A plan on its way**: what is left to reserve its epoch, the row commands left, whether it gave
up, and how long the committed log was when it was made. -/
structure Thread where
  op : Operation
  plan : PendingWrite
  reserve : List Command
  methods : List Command
  stopped : Bool
  madeAt : ℕ

namespace Thread

def start (op : Operation) (p : PendingWrite) (madeAt : ℕ) : Thread :=
  ⟨op, p, PendingWrite.reserve p, p.methods, false, madeAt⟩

def next (t : Thread) : Option Command := if t.stopped then none else (t.reserve ++ t.methods).head?

/-- Go on after a command: a reservation that took no effect is a lost race, and a plan that requires
success stops at a row command without effect. -/
def advance (t : Thread) (took : Bool) : Thread :=
  match t.reserve, t.methods with
  | _ :: rest, _ => if took then { t with reserve := rest } else { t with stopped := true }
  | [], _ :: rest =>
    if t.plan.requireSuccess && !took then { t with stopped := true } else { t with methods := rest }
  | [], [] => t

def completed (t : Thread) : Bool := !t.stopped && t.reserve.isEmpty && t.methods.isEmpty

/-- Some but not all row commands of the plan were committed. -/
def cut (t : Thread) : Bool := t.methods.length < t.plan.methods.length && !t.methods.isEmpty

end Thread

/-! ### The system -/

/-- A committed command: its plan, and whether it took effect. -/
structure Committed where
  plan : ℕ
  command : Command
  took : Bool

/-- The catalog with the plans under way and the commands so far. -/
structure System where
  catalog : PlacementCatalog
  threads : List Thread
  log : List Committed

/-- A plan is made, or its next command commits. -/
inductive Event
  | propose (op : Operation)
  | commit (plan : ℕ)

namespace System

def fresh : System := ⟨.fresh, [], []⟩

/-- Makes a plan on the catalog as it is. -/
def propose (s : System) (op : Operation) : System :=
  match op.plan s.catalog with
  | .ok p => { s with threads := s.threads ++ [Thread.start op p s.log.length] }
  | .error _ => s

/-- A command takes effect and its plan goes on. -/
def commitCommand (s : System) (i : ℕ) (t : Thread) (cmd : Command) : System where
  catalog := (s.catalog.apply cmd).1
  threads := s.threads.set i (t.advance (s.catalog.apply cmd).2)
  log := s.log ++ [⟨i, cmd, (s.catalog.apply cmd).2⟩]

def commit (s : System) (i : ℕ) : System :=
  match s.threads[i]? with
  | none => s
  | some t =>
    match t.next with
    | none => s
    | some cmd => s.commitCommand i t cmd

/-- **One step.** -/
def step (s : System) : Event → System
  | .propose op => s.propose op
  | .commit i => s.commit i

theorem step_cases (s : System) (ev : Event) : s.step ev = s ∨
      (∃ op p, ev = .propose op ∧ op.plan s.catalog = .ok p ∧
        s.step ev = { s with threads := s.threads ++ [Thread.start op p s.log.length] }) ∨
      ∃ i t cmd, ev = .commit i ∧ s.threads[i]? = some t ∧ t.next = some cmd ∧
        s.step ev = s.commitCommand i t cmd := by
  cases ev with
  | propose op =>
    cases hp : op.plan s.catalog with
    | ok p => exact Or.inr (Or.inl ⟨op, p, rfl, hp, by simp only [step, propose, hp]⟩)
    | error e => exact Or.inl (by simp only [step, propose, hp])
  | commit i =>
    cases ht : s.threads[i]? with
    | none => exact Or.inl (by simp only [step, commit, ht])
    | some t =>
      cases hn : t.next with
      | none => exact Or.inl (by simp only [step, commit, ht, hn])
      | some cmd =>
        exact Or.inr (Or.inr ⟨i, t, cmd, rfl, ht, hn, by simp only [step, commit, ht, hn]⟩)

end System

/-! ### Plans that are left alone -/

def Command.rekeys (tenant : String) : Command → Bool
  | .entryMethod entry => entry.key.tenant = tenant
  | .removeMethod key => key.tenant = tenant
  | _ => false

def Command.reroutes (tenant : String) : Command → Bool
  | .entryMethod entry => entry.key.tenant = tenant
  | .removeMethod key => key.tenant = tenant
  | .entryCasMethod expected updated =>
    expected.key.tenant = tenant &&
      (expected.group ≠ updated.group || expected.epoch ≠ updated.epoch)
  | _ => false

theorem reroutes_of_rekeys {tenant : String} {cmd : Command} (h : Command.rekeys tenant cmd) :
    Command.reroutes tenant cmd := by
  cases cmd <;> first | exact h | cases h

/-- Since the plan was made no other plan's command of this kind took effect. -/
def System.Undisturbed (w : Command → Bool) (s : System) (i : ℕ) (t : Thread) : Prop :=
  ∀ p ∈ s.log.drop t.madeAt, w p.command → p.took → p.plan = i

/-- A row is added or removed only by a plan that was left alone. -/
def System.Isolated (w : String → Command → Bool) (s : System) (ev : Event) : Prop :=
  ∀ i t cmd, ev = .commit i → s.threads[i]? = some t → t.next = some cmd →
    Command.rekeys t.op.tenant cmd → s.Undisturbed (w t.op.tenant) i t

/-- The plan that an event commits a command of, if it adds or removes a row. -/
def System.rewriter (s : System) : Event → Option Thread
  | .propose _ => none
  | .commit i => (s.threads[i]?).filter fun t => t.next.any (Command.rekeys t.op.tenant)

theorem System.isolated_iff {w : String → Command → Bool} {s : System} {i : ℕ} :
    s.Isolated w (.commit i) ↔ ∀ t ∈ s.rewriter (.commit i), ∀ p ∈ s.log.drop t.madeAt,
        w t.op.tenant p.command → p.took → p.plan = i := by
  constructor
  · intro h t ht
    obtain ⟨ht, hany⟩ := Option.filter_eq_some_iff.mp ht
    cases hn : t.next with
    | none =>
      rw [hn] at hany
      cases hany
    | some cmd =>
      rw [hn] at hany
      exact h i t cmd rfl ht hn hany
  · rintro h j t cmd hj ht hn hk
    cases hj
    refine h t (Option.filter_eq_some_iff.mpr ⟨ht, ?_⟩)
    rw [hn]
    exact hk

instance (w : String → Command → Bool) (s : System) : (ev : Event) → Decidable (s.Isolated w ev)
  | .propose _ => isTrue fun _ _ _ h => nomatch h
  | .commit _ => decidable_of_iff _ System.isolated_iff.symm

end Medulla.Placement.Plans
