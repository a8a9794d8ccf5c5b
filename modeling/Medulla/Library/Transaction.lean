import Medulla.Library.Checked

/-! # Calls inside a transaction, and runs of calls

A call inside an open transaction is a state computation that may fail; a failed call keeps what it
wrote so far (`Txn`), and it is the end of the transaction that decides what becomes durable. -/

namespace Medulla.Library.Transaction

/-! ### Calls -/

variable {e : String}

/-- A call inside an open transaction over state `σ`. -/
abbrev Txn (σ : Type) := EStateM String σ

namespace Txn

variable {σ α β : Type}

def read (f : σ → Except String α) : Txn σ α := fun s =>
  match f s with
  | .ok a => .ok a s
  | .error e => .error e s

/-- A write that either happens as a whole or fails before it. -/
def update (f : σ → Except String σ) : Txn σ Unit := fun s =>
  match f s with
  | .ok t => .ok () t
  | .error e => .error e s

theorem bind_ok {x : Txn σ α} {f : α → Txn σ β} {s s' : σ} {b : β} :
    (x >>= f) s = .ok b s' ↔ ∃ a t, x s = .ok a t ∧ f a t = .ok b s' := by
  change EStateM.bind x f s = .ok b s' ↔ _
  unfold EStateM.bind
  cases hx : x s with
  | ok a t =>
    constructor
    · intro h
      exact ⟨a, t, rfl, h⟩
    · rintro ⟨a', t', h, h'⟩
      cases h
      exact h'
  | error e t =>
    constructor
    · intro h
      cases h
    · rintro ⟨a', t', h, -⟩
      cases h

theorem bind_error {x : Txn σ α} {f : α → Txn σ β} {s s' : σ} :
    (x >>= f) s = .error e s' ↔ x s = .error e s' ∨ ∃ a t, x s = .ok a t ∧ f a t = .error e s' := by
  change EStateM.bind x f s = .error e s' ↔ _
  unfold EStateM.bind
  cases hx : x s with
  | ok a t => simp
  | error e' t => simp

theorem pure_ok {a b : α} {s s' : σ} : (pure a : Txn σ α) s = .ok b s' ↔ a = b ∧ s = s' := by
  change EStateM.Result.ok a s = .ok b s' ↔ _
  simp

theorem throw_ok {b : α} {s s' : σ} : ¬ (throw e : Txn σ α) s = .ok b s' := by
  change ¬ EStateM.Result.error e s = .ok b s'
  simp

theorem throw_error {e e' : String} {s s' : σ} :
    (throw e : Txn σ α) s = .error e' s' ↔ e = e' ∧ s = s' := by
  change EStateM.Result.error e s = .error e' s' ↔ _
  simp

theorem read_ok {f : σ → Except String α} {a : α} {s s' : σ} :
    read f s = .ok a s' ↔ f s = .ok a ∧ s = s' := by
  unfold read
  cases f s <;> simp

theorem read_error {f : σ → Except String α} {s s' : σ} :
    read f s = .error e s' ↔ f s = .error e ∧ s = s' := by
  unfold read
  cases f s <;> simp

theorem update_ok {f : σ → Except String σ} {s s' : σ} {u : Unit} :
    update f s = .ok u s' ↔ f s = .ok s' := by
  unfold update
  cases f s <;> simp

theorem update_error {f : σ → Except String σ} {s s' : σ} :
    update f s = .error e s' ↔ f s = .error e ∧ s = s' := by
  unfold update
  cases f s <;> simp

/-- A call that fails leaves a state related to the one it started from. -/
def FailsIn (R : σ → σ → Prop) (m : Txn σ α) : Prop := ∀ s e t, m s = .error e t → R s t

/-- A call leaves a state related to the one it started from, whether it fails or not. -/
structure Respects (R : σ → σ → Prop) (m : Txn σ α) : Prop where
  ok : ∀ s a t, m s = .ok a t → R s t
  error : FailsIn R m

def Total (m : Txn σ α) : Prop := ∀ s e t, m s ≠ .error e t

section
variable {R : σ → σ → Prop}

theorem total_pure (a : α) : Total (pure a : Txn σ α) := by
  intro s e t h
  cases h

theorem total_update {f : σ → σ} : Total (update fun s => .ok (f s)) := by
  intro s e t h
  cases h

theorem failsIn_of_total {m : Txn σ α} (h : Total m) : FailsIn R m :=
  fun s e t hm => absurd hm (h s e t)

theorem failsIn_read [Std.Refl R] (f : σ → Except String α) : FailsIn R (read f) := by
  intro s e t h
  obtain ⟨-, rfl⟩ := read_error.mp h
  exact Std.Refl.refl s

theorem failsIn_update [Std.Refl R] (f : σ → Except String σ) : FailsIn R (update f) := by
  intro s e t h
  obtain ⟨-, rfl⟩ := update_error.mp h
  exact Std.Refl.refl s

theorem failsIn_throw [Std.Refl R] (e : String) : FailsIn R (throw e : Txn σ α) := by
  intro s e' t h
  obtain ⟨-, rfl⟩ := throw_error.mp h
  exact Std.Refl.refl s

/-- **Failing in a sequence**: in its first call, or in the rest after the first respected `R`. -/
theorem failsIn_bind [IsTrans σ R] {x : Txn σ α} {f : α → Txn σ β} (hx : Respects R x)
    (hf : ∀ a, FailsIn R (f a)) : FailsIn R (x >>= f) := by
  intro s e t h
  rcases bind_error.mp h with h | ⟨a, u, h1, h2⟩
  · exact hx.error s e t h
  · exact IsTrans.trans s u t (hx.ok s a u h1) (hf a u e t h2)

theorem failsIn_bind_total {x : Txn σ α} {f : α → Txn σ β} (hx : FailsIn R x)
    (hf : ∀ a, Total (f a)) : FailsIn R (x >>= f) := by
  intro s e t h
  rcases bind_error.mp h with h | ⟨a, u, -, h2⟩
  · exact hx s e t h
  · exact absurd h2 (hf a u e t)

theorem respects_read [Std.Refl R] (f : σ → Except String α) : Respects R (read f) := by
  refine ⟨fun s a t h => ?_, failsIn_read f⟩
  obtain ⟨-, rfl⟩ := read_ok.mp h
  exact Std.Refl.refl s

theorem failsIn_read_bind [Std.Refl R] [IsTrans σ R] {g : σ → Except String α} {f : α → Txn σ β}
    (hf : ∀ a, FailsIn R (f a)) : FailsIn R (read g >>= f) :=
  failsIn_bind (respects_read g) hf

theorem respects_pure [Std.Refl R] (a : α) : Respects R (pure a : Txn σ α) := by
  refine ⟨fun s b t h => ?_, failsIn_of_total (total_pure a)⟩
  obtain ⟨-, rfl⟩ := pure_ok.mp h
  exact Std.Refl.refl s

theorem respects_update [Std.Refl R] {f : σ → Except String σ}
    (h : ∀ s t, f s = .ok t → R s t) : Respects R (update f) :=
  ⟨fun s _ t hs => h s t (update_ok.mp hs), failsIn_update f⟩

theorem respects_bind [IsTrans σ R] {x : Txn σ α} {f : α → Txn σ β} (hx : Respects R x)
    (hf : ∀ a, Respects R (f a)) : Respects R (x >>= f) := by
  refine ⟨fun s b t h => ?_, failsIn_bind hx fun a => (hf a).error⟩
  obtain ⟨a, u, h1, h2⟩ := bind_ok.mp h
  exact IsTrans.trans s u t (hx.ok s a u h1) ((hf a).ok u b t h2)

theorem respects_read_bind [Std.Refl R] [IsTrans σ R] {g : σ → Except String α} {f : α → Txn σ β}
    (hf : ∀ a, Respects R (f a)) : Respects R (read g >>= f) :=
  respects_bind (respects_read g) hf

end

end Txn

/-! ### Runs -/

section Runs

variable {σ ι : Type*} (step : σ → ι → σ)

def run (s : σ) (is : List ι) : σ := is.foldl step s

/-- Every step of a run meets a condition in the state it starts from. -/
def Along (P : σ → ι → Prop) : σ → List ι → Prop
  | _, [] => True
  | s, i :: is => P s i ∧ Along P (step s i) is

@[simp] theorem run_nil (s : σ) : run step s [] = s := rfl

@[simp] theorem run_cons (s : σ) (i : ι) (is : List ι) :
    run step s (i :: is) = run step (step s i) is := rfl

theorem run_append (s : σ) (is js : List ι) :
    run step s (is ++ js) = run step (run step s is) js := by
  unfold run
  rw [List.foldl_append]

variable {step}

/-- **An invariant of every step holds after every run.** -/
theorem run_invariant {I : σ → Prop} (hstep : ∀ s i, I s → I (step s i)) :
    ∀ (is : List ι) (s : σ), I s → I (run step s is)
  | [], _, h => h
  | i :: is, s, h => run_invariant hstep is (step s i) (hstep s i h)

/-- **An invariant of every step that meets a condition holds after every run that meets it.** -/
theorem run_invariant_along {I : σ → Prop} {P : σ → ι → Prop}
    (hstep : ∀ s i, P s i → I s → I (step s i)) :
    ∀ (is : List ι) (s : σ), Along step P s is → I s → I (run step s is)
  | [], _, _, h => h
  | i :: is, s, hp, h => run_invariant_along hstep is (step s i) hp.2 (hstep s i hp.1 h)

instance decidableAlong {P : σ → ι → Prop} [∀ s i, Decidable (P s i)] :
    ∀ (s : σ) (is : List ι), Decidable (Along step P s is)
  | _, [] => inferInstanceAs (Decidable True)
  | s, i :: is =>
    have := decidableAlong (P := P) (step s i) is
    inferInstanceAs (Decidable (P s i ∧ Along step P (step s i) is))

theorem along_of_forall {P : ι → Prop} :
    ∀ {is : List ι} {s : σ}, (∀ i ∈ is, P i) → Along step (fun _ i => P i) s is
  | [], _, _ => trivial
  | i :: _, _, h => ⟨h i (.head _), along_of_forall fun j hj => h j (.tail _ hj)⟩

theorem Along.imp {P Q : σ → ι → Prop} (himp : ∀ s i, P s i → Q s i) :
    ∀ {is : List ι} {s : σ}, Along step P s is → Along step Q s is
  | [], _, _ => trivial
  | _ :: _, _, h => ⟨himp _ _ h.1, h.2.imp himp⟩

theorem Along.and_of_forall {P : σ → ι → Prop} {Q : ι → Prop} :
    ∀ {is : List ι} {s : σ}, Along step P s is → (∀ i ∈ is, Q i) →
      Along step (fun s i => P s i ∧ Q i) s is
  | [], _, _, _ => trivial
  | i :: _, _, h, hq => ⟨⟨h.1, hq i (.head _)⟩, h.2.and_of_forall fun j hj => hq j (.tail _ hj)⟩

theorem along_append {P : σ → ι → Prop} : ∀ (is js : List ι) (s : σ),
      Along step P s (is ++ js) ↔ Along step P s is ∧ Along step P (run step s is) js
  | [], _, _ => by simp [Along]
  | i :: is, js, s => by
    simp only [List.cons_append, Along, run_cons, along_append is js (step s i), and_assoc]

end Runs

end Medulla.Library.Transaction
