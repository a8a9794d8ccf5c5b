import Medulla.Calvin.Locks
import Medulla.Library.Transaction

/-! # Concurrent acquisitions

An acquisition predicts its set by reconnaissance, draws a sequence number, registers the set under
it, waits until all requests are granted, and re-validates the prediction under the locks; if it went
stale it releases and starts again with a new number. Drawing and registering are two steps, so
acquisitions that run side by side may register in another order than they drew.

* one step: `Safe.step`;
* every run: `acquisitions_exclude_in_order`. -/

namespace Medulla.Calvin.Ollp

open Library.OrderedTable Library.OrderedSet Library.Transaction Queues Locks

variable {key : RecordKey}

/-! ### Acquisitions -/

/-- How far an optimistic acquisition has come. -/
inductive Phase
  | idle
  | predicted (rwset : RwSet)
  | sequenced (rwset : RwSet) (seq : GlobalSeq)
  | waiting (rwset : RwSet) (seq : GlobalSeq)
  | granted (rwset : RwSet) (seq : GlobalSeq)
  | acquired (rwset : RwSet) (seq : GlobalSeq)
  | finished

/-- A call of `acquire_ollp_with_restart`. -/
structure Acquisition where
  attempts : ℕ
  maxRestarts : ℕ
  phase : Phase

/-- The shared sequencer and lock manager, and the calls by the task that runs them. -/
structure World where
  next : GlobalSeq
  mgr : OrderedLockManager
  tasks : Table ℕ Acquisition

/-- The first number is 1, no lock is queued, no call has started. -/
def World.initial : World := ⟨1, .new, .empty⟩

/-- One step of a task. A reconnaissance comes with the set derived from what it read, if reading
succeeded; a re-validation with its answer. -/
inductive Event
  | call (t : ℕ) (maxRestarts : ℕ)
  | recon (t : ℕ) (derived : Option RwSet)
  | assign (t : ℕ)
  | register (t : ℕ)
  | poll (t : ℕ)
  | revalidate (t : ℕ) (valid : Option Bool)
  | release (t : ℕ)

/-- A call enters a phase. -/
def World.put (w : World) (t : ℕ) (a : Acquisition) (phase : Phase) : World :=
  { w with tasks := w.tasks.insert t { a with phase } }

/-- The reconnaissance pass of an attempt: a predicted set, or a failure. -/
def reconnoiter (w : World) (t : ℕ) (a : Acquisition) : Option RwSet → World
  | some rwset => w.put t { a with attempts := a.attempts + 1 } (.predicted rwset)
  | none => w.put t { a with attempts := a.attempts + 1 } .finished

/-- Draws the next sequence number for a predicted set. -/
def draw (w : World) (t : ℕ) (a : Acquisition) (rwset : RwSet) : World :=
  { w with next := (w.next + 1) % 2 ^ 64 }.put t a (.sequenced rwset w.next)

/-- Registers the predicted set under the drawn number. -/
def enqueue (w : World) (t : ℕ) (a : Acquisition) (rwset : RwSet) (seq : GlobalSeq) : World :=
  { w with mgr := (Locks.register w.mgr seq rwset).1 }.put t a (.waiting rwset seq)

/-- One look at the lock manager. -/
def pollGrant (w : World) (t : ℕ) (a : Acquisition) (rwset : RwSet) (seq : GlobalSeq) : World :=
  if allGranted w.mgr (ticketOf seq rwset) then w.put t a (.granted rwset seq) else w

/-- Releases the locks of an attempt. -/
def dropGuard (w : World) (t : ℕ) (a : Acquisition) (rwset : RwSet) (seq : GlobalSeq) (phase : Phase) :
    World :=
  { w with mgr := Locks.release w.mgr (ticketOf seq rwset) }.put t a phase

/-- The answer of the confirming pass: acquired, another attempt, or a failure. -/
def conclude (w : World) (t : ℕ) (a : Acquisition) (rwset : RwSet) (seq : GlobalSeq) :
    Option Bool → World
  | some true => w.put t a (.acquired rwset seq)
  | some false =>
    dropGuard w t a rwset seq (if a.attempts > a.maxRestarts then .finished else .idle)
  | none => dropGuard w t a rwset seq .finished

/-- One step of one call. -/
def step (w : World) : Event → World
  | .call t maxRestarts =>
    match w.tasks.get t with
    | none => w.put t ⟨0, maxRestarts, .idle⟩ .idle
    | some _ => w
  | .recon t derived =>
    match w.tasks.get t with
    | some ⟨n, m, .idle⟩ => reconnoiter w t ⟨n, m, .idle⟩ derived
    | _ => w
  | .assign t =>
    match w.tasks.get t with
    | some ⟨n, m, .predicted rwset⟩ => draw w t ⟨n, m, .predicted rwset⟩ rwset
    | _ => w
  | .register t =>
    match w.tasks.get t with
    | some ⟨n, m, .sequenced rwset seq⟩ => enqueue w t ⟨n, m, .sequenced rwset seq⟩ rwset seq
    | _ => w
  | .poll t =>
    match w.tasks.get t with
    | some ⟨n, m, .waiting rwset seq⟩ => pollGrant w t ⟨n, m, .waiting rwset seq⟩ rwset seq
    | _ => w
  | .revalidate t valid =>
    match w.tasks.get t with
    | some ⟨n, m, .granted rwset seq⟩ => conclude w t ⟨n, m, .granted rwset seq⟩ rwset seq valid
    | _ => w
  | .release t =>
    match w.tasks.get t with
    | some ⟨n, m, .acquired rwset seq⟩ =>
      dropGuard w t ⟨n, m, .acquired rwset seq⟩ rwset seq .finished
    | _ => w

/-! ### Claims and guards -/

/-- What a phase has registered. -/
def Phase.claim : Phase → Option Claim
  | .waiting rwset seq | .granted rwset seq | .acquired rwset seq => some ⟨seq, rwset⟩
  | _ => none

/-- What a phase holds by its guard. -/
def Phase.guard : Phase → Option Claim
  | .granted rwset seq | .acquired rwset seq => some ⟨seq, rwset⟩
  | _ => none

/-- The registration of each call. -/
def claims (tasks : Table ℕ Acquisition) (t : ℕ) : Option Claim :=
  (tasks.get t).bind fun a => a.phase.claim

/-- The guard of each call. -/
def guards (tasks : Table ℕ Acquisition) (t : ℕ) : Option Claim :=
  (tasks.get t).bind fun a => a.phase.guard

/-- One of two sets writes a record that the other reads or writes. -/
def Conflicting (c d : RwSet) : Prop :=
  ∃ key, (has c.writes key = true ∧ (has d.reads key = true ∨ has d.writes key = true)) ∨
    (has d.writes key = true ∧ (has c.reads key = true ∨ has c.writes key = true))

/-- No two tasks hold guards whose sets conflict. -/
def Excluding (w : World) : Prop :=
  ∀ t u c d, t ≠ u → guards w.tasks t = some c → guards w.tasks u = some d →
    ¬ Conflicting c.rwset d.rwset

/-- The claim an event is about to register. -/
def registering (w : World) : Event → Option Claim
  | .register t =>
    match w.tasks.get t with
    | some ⟨_, _, .sequenced rwset seq⟩ => some ⟨seq, rwset⟩
    | _ => none
  | _ => none

/-- A registration finds on its records only requests with lower numbers, requests that wait, and
compatible ones. -/
def InOrder (w : World) (e : Event) : Prop := ∀ c ∈ registering w e, Admissible w.mgr c

instance (q : List LockEntry) (s : GlobalSeq) (m : LockMode) : Decidable (Enters q s m) :=
  inferInstanceAs (Decidable (∀ d ∈ q, _))

instance (mgr : OrderedLockManager) (c : Claim) : Decidable (Admissible mgr c) :=
  decidable_of_iff (∀ r ∈ (lockRequests c.rwset).rows, Enters (queue mgr r.1) c.seq r.2)
    ⟨fun h key mode hmode => h (key, mode) (Table.mem_rows.mpr hmode),
      fun h r hr => h r.1 r.2 (Table.mem_rows.mp hr)⟩

instance (w : World) (e : Event) : Decidable (InOrder w e) :=
  inferInstanceAs (Decidable (∀ c ∈ registering w e, _))

/-- The manager is orderly, and who has a guard holds its locks. -/
structure Safe (w : World) : Prop where
  orderly : Orderly w.mgr (claims w.tasks)
  held : ∀ t c, guards w.tasks t = some c → Held w.mgr c

/-! ### One step -/

section
variable {w : World} {t u : ℕ} {a : Acquisition} {phase : Phase} {c d : Claim}

theorem claims_put : claims (w.put t a phase).tasks = Function.update (claims w.tasks) t phase.claim := by
  funext u
  unfold claims World.put
  simp only [Table.get_insert]
  by_cases hu : u = t
  · simp [hu]
  · simp [hu]

theorem guards_put : guards (w.put t a phase).tasks = Function.update (guards w.tasks) t phase.guard := by
  funext u
  unfold guards World.put
  simp only [Table.get_insert]
  by_cases hu : u = t
  · simp [hu]
  · simp [hu]

theorem Phase.claim_of_guard (h : phase.guard = some c) : phase.claim = some c := by
  cases phase with
  | granted rwset seq => exact h
  | acquired rwset seq => exact h
  | idle => cases h
  | predicted rwset => cases h
  | sequenced rwset seq => cases h
  | waiting rwset seq => cases h
  | finished => cases h

theorem claims_of_guards (h : guards w.tasks t = some c) : claims w.tasks t = some c := by
  obtain ⟨a, ha, hg⟩ := Option.bind_eq_some_iff.mp h
  exact Option.bind_eq_some_iff.mpr ⟨a, ha, Phase.claim_of_guard hg⟩

theorem claims_of_get (h : w.tasks.get t = some a) : claims w.tasks t = a.phase.claim := by
  rw [claims, h, Option.bind_some]

theorem Safe.put (h : Safe w) (hclaim : claims w.tasks t = phase.claim)
    (hguard : ∀ c, phase.guard = some c → Held w.mgr c) : Safe (w.put t a phase) where
  orderly := by
    rw [claims_put, ← hclaim, Function.update_eq_self]
    exact h.orderly
  held := fun u c hu => by
    rw [guards_put] at hu
    by_cases hut : u = t
    · rw [hut, Function.update_self] at hu
      exact hguard c hu
    · rw [Function.update_of_ne hut] at hu
      exact h.held u c hu

theorem Safe.enqueue {rwset : RwSet} {seq : GlobalSeq} (h : Safe w) (hnone : claims w.tasks t = none)
    (hadm : Admissible w.mgr ⟨seq, rwset⟩) : Safe (enqueue w t a rwset seq) where
  orderly := by
    unfold Ollp.enqueue
    rw [claims_put]
    exact h.orderly.register (c := ⟨seq, rwset⟩) hnone hadm
  held := fun u c hu key mode hmode => by
    unfold Ollp.enqueue at hu
    rw [guards_put] at hu
    by_cases hut : u = t
    · rw [hut, Function.update_self] at hu
      cases hu
    · rw [Function.update_of_ne hut] at hu
      exact (h.held u c hu key mode hmode).register seq rwset

theorem Safe.dropGuard {rwset : RwSet} {seq : GlobalSeq} (h : Safe w)
    (hclaim : claims w.tasks t = some ⟨seq, rwset⟩) (hphase : phase.claim = none) :
    Safe (dropGuard w t a rwset seq phase) where
  orderly := by
    unfold Ollp.dropGuard
    rw [claims_put, hphase]
    exact h.orderly.release hclaim
  held := fun u c hu key mode hmode => by
    unfold Ollp.dropGuard at hu
    rw [guards_put] at hu
    by_cases hut : u = t
    · rw [hut, Function.update_self] at hu
      rw [Phase.claim_of_guard hu] at hphase
      cases hphase
    · rw [Function.update_of_ne hut] at hu
      refine (h.held u c hu key mode hmode).release ?_
      cases hget : (lockRequests rwset).get key with
      | none => exact Or.inl rfl
      | some m =>
        refine Or.inr fun heq => hut ?_
        exact h.orderly.distinct u t c _ key mode m (claims_of_guards hu) hclaim hmode hget heq

/-- **A step keeps the locks safe**, when a registration arrives in order. -/
theorem Safe.step (h : Safe w) (e : Event) (horder : InOrder w e) : Safe (step w e) := by
  cases e with
  | call t maxRestarts =>
    simp only [Ollp.step]
    cases hget : w.tasks.get t with
    | some a => exact h
    | none => exact h.put (by rw [claims, hget]; rfl) fun c hc => by cases hc
  | recon t derived =>
    simp only [Ollp.step]
    split
    · rename_i n m hget
      have hclaim := claims_of_get hget
      cases derived with
      | some rwset => exact h.put hclaim fun c hc => by cases hc
      | none => exact h.put hclaim fun c hc => by cases hc
    · exact h
  | assign t =>
    simp only [Ollp.step]
    split
    · rename_i n m rwset hget
      have hdrawn : Safe { w with next := (w.next + 1) % 2 ^ 64 } := ⟨h.orderly, h.held⟩
      exact hdrawn.put (claims_of_get hget) fun c hc => by cases hc
    · exact h
  | register t =>
    simp only [Ollp.step]
    split
    · rename_i n m rwset seq hget
      have hreg : registering w (.register t) = some ⟨seq, rwset⟩ := by simp only [registering, hget]
      exact h.enqueue (claims_of_get hget) (horder _ hreg)
    · exact h
  | poll t =>
    simp only [Ollp.step]
    split
    · rename_i n m rwset seq hget
      unfold pollGrant
      split_ifs with hall
      · refine h.put (claims_of_get hget) fun c hc => ?_
        obtain rfl := Option.some.inj hc
        exact (allGranted_iff (c := ⟨seq, rwset⟩) h.orderly).mp hall
      · exact h
    · exact h
  | revalidate t valid =>
    simp only [Ollp.step]
    split
    · rename_i n m rwset seq hget
      have hclaim := claims_of_get hget
      have hguard : guards w.tasks t = some ⟨seq, rwset⟩ := by rw [guards, hget]; rfl
      match valid with
      | some true =>
        refine h.put hclaim fun c hc => ?_
        obtain rfl := Option.some.inj hc
        exact h.held t _ hguard
      | some false =>
        refine h.dropGuard hclaim ?_
        split_ifs
        · rfl
        · rfl
      | none => exact h.dropGuard hclaim rfl
    · exact h
  | release t =>
    simp only [Ollp.step]
    split
    · rename_i n m rwset seq hget
      exact h.dropGuard (claims_of_get hget) rfl
    · exact h

theorem safe_initial : Safe .initial where
  orderly := orderly_new
  held := fun _ _ h => by cases h

theorem mode_of_write (h : has c.rwset.writes key = true) : c.mode key = some .exclusive := by
  rw [Claim.mode, get_lockRequests, if_pos h]

theorem mode_of_touch (h : has c.rwset.reads key = true ∨ has c.rwset.writes key = true) :
    ∃ m, c.mode key = some m := by
  rw [Claim.mode, get_lockRequests]
  by_cases hw : has c.rwset.writes key = true
  · exact ⟨.exclusive, if_pos hw⟩
  · exact ⟨.shared, by rw [if_neg hw, if_pos (h.resolve_right hw)]⟩

theorem Safe.not_both (h : Safe w) (htu : t ≠ u) (ht : guards w.tasks t = some c)
    (hu : guards w.tasks u = some d) (hc : has c.rwset.writes key = true)
    (hd : has d.rwset.reads key = true ∨ has d.rwset.writes key = true) : False := by
  have hm := mode_of_write hc
  obtain ⟨n, hn⟩ := mode_of_touch hd
  have hshared := (h.orderly.compatible htu (claims_of_guards ht) (claims_of_guards hu) hm hn
    (h.held t c ht key _ hm) (h.held u d hu key n hn)).1
  cases hshared

theorem Safe.excluding (h : Safe w) : Excluding w := by
  rintro t u c d htu ht hu ⟨key, ⟨hc, hd⟩ | ⟨hd, hc⟩⟩
  · exact h.not_both htu ht hu hc hd
  · exact h.not_both (Ne.symm htu) hu ht hd hc

end

/-! ### Runs -/

/-- **Acquisitions exclude each other in every run whose registrations arrive in order.** -/
theorem acquisitions_exclude_in_order (events : List Event)
    (h : Along step InOrder .initial events) : Excluding (run step .initial events) :=
  (run_invariant_along (fun _ e horder hs => Safe.step hs e horder) events _ h safe_initial).excluding

/-- Two acquisitions of one record, up to the draw of the second. -/
def twoCalls : List Event := [.call 1 0, .call 2 0, .recon 1 oneWrite, .recon 2 oneWrite, .assign 1]

/-- Both register in the order in which they drew. -/
def inTurn : List Event :=
  twoCalls ++ [.register 1, .assign 2, .register 2, .poll 1, .poll 2, .revalidate 1 true]

/-- The second draws and registers while the first is about to register. -/
def overtaken : List Event := twoCalls ++ [.assign 2, .register 2, .poll 2, .register 1, .poll 1]

theorem inTurn_excludes : Along step InOrder .initial inTurn ∧
      (guards (run step .initial inTurn).tasks 1).isSome = true ∧
      Excluding (run step .initial inTurn) :=
  ⟨by decide +kernel, by decide +kernel, acquisitions_exclude_in_order inTurn (by decide +kernel)⟩

theorem guards_overtaken (t : ℕ) (ht : t = 1 ∨ t = 2) :
    guards (run step .initial overtaken).tasks t = some ⟨t, oneWrite⟩ := by
  rcases ht with rfl | rfl
  · rfl
  · rfl

/-- **Two writers of one record hold their guards together.** -/
theorem overtaken_both_granted : ¬ ∀ events, Excluding (run step .initial events) := by
  intro h
  refine h overtaken 1 2 _ _ (by decide) (guards_overtaken 1 (Or.inl rfl))
    (guards_overtaken 2 (Or.inr rfl)) ?_
  exact ⟨toLex ("g", "n"), Or.inl ⟨by decide +kernel, Or.inr (by decide +kernel)⟩⟩

end Medulla.Calvin.Ollp
