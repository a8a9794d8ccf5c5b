import Mathlib.Data.List.Chain

/-! # Programs with durable writes

A program over a durable store is what it writes: the states of the store after each of its writes, and
its result. -/

namespace Medulla.Library.Durable

/-! ### Programs -/

structure Ran (σ α : Type) where
  states : List σ
  result : Except String α

def Prog (σ α : Type) := σ → Ran σ α

variable {σ α β γ : Type}

def after (s : σ) (states : List σ) : σ := states.getLastD s

@[simp]
theorem after_nil (s : σ) : after s [] = s := rfl

@[simp]
theorem after_cons (s t : σ) (states : List σ) : after s (t :: states) = after t states :=
  List.getLastD_cons

theorem after_append (s : σ) (l l' : List σ) : after s (l ++ l') = after (after s l) l' := by
  induction l generalizing s with
  | nil => rfl
  | cons t l ih => rw [List.cons_append, after_cons, after_cons, ih]

theorem after_mem (s : σ) (l : List σ) : after s l = s ∨ after s l ∈ l := by
  rcases l.eq_nil_or_concat with rfl | ⟨l, t, rfl⟩
  · exact Or.inl rfl
  · right
    simp [after]

def Prog.ret (a : α) : Prog σ α := fun _ => ⟨[], .ok a⟩

def Prog.andThen (x : Prog σ α) (f : α → Prog σ β) : Prog σ β := fun s =>
  match (x s).result with
  | .error e => ⟨(x s).states, .error e⟩
  | .ok a =>
    let r := f a (after s (x s).states)
    ⟨(x s).states ++ r.states, r.result⟩

instance : Monad (Prog σ) where
  pure := Prog.ret
  bind := Prog.andThen

def fail (e : String) : Prog σ α := fun _ => ⟨[], .error e⟩

def read (f : σ → Except String α) : Prog σ α := fun s => ⟨[], f s⟩

/-- Write the store; a write that fails changes nothing. -/
def write (f : σ → Except String σ) : Prog σ Unit := fun s =>
  match f s with
  | .ok t => ⟨[t], .ok ()⟩
  | .error e => ⟨[], .error e⟩

/-- Run a program if a condition holds. -/
def onlyIf (c : Bool) (m : Prog σ Unit) : Prog σ Unit := if c then m else pure ()

/-- Run a program for every element of a list, in order. -/
def forEach : List β → (β → Prog σ Unit) → Prog σ Unit
  | [], _ => pure ()
  | x :: xs, f => do
    f x
    forEach xs f

/-- Run a program for every element of a list, in order, and collect the results. -/
def collect : List β → (β → Prog σ γ) → Prog σ (List γ)
  | [], _ => pure []
  | x :: xs, f => do
    let y ← f x
    let ys ← collect xs f
    return y :: ys

/-! ### Specifications -/

/-- A program's specification with a crash condition and a guarantee. -/
def Spec (I : σ → Prop) (G : σ → σ → Prop) (P : σ → Prop) (m : Prog σ α) (Q : α → σ → Prop) :
    Prop :=
  ∀ s, P s → (∀ t ∈ (m s).states, I t) ∧ List.IsChain G (s :: (m s).states) ∧
    ∀ a, (m s).result = .ok a → Q a (after s (m s).states)

section rules

variable {I : σ → Prop} {G : σ → σ → Prop} {P P' : σ → Prop} {Q Q' : α → σ → Prop}

section
variable {m : Prog σ α} (h : Spec I G P m Q)
include h

theorem Spec.weaken (hP : ∀ s, P' s → P s)
    (hQ : ∀ a s, Q a s → Q' a s) : Spec I G P' m Q' := by
  intro s hs
  obtain ⟨h1, h2, h3⟩ := h s (hP s hs)
  exact ⟨h1, h2, fun a ha => hQ a _ (h3 a ha)⟩

theorem Spec.pre (hP : ∀ s, P' s → P s) : Spec I G P' m Q := h.weaken hP fun _ _ => id

theorem Spec.post (hQ : ∀ a s, Q a s → Q' a s) : Spec I G P m Q' := h.weaken (fun _ => id) hQ

end

theorem spec_assume {c : Prop} {m : Prog σ α} (h : c → Spec I G P m Q) :
    Spec I G (fun s => c ∧ P s) m Q :=
  fun s hs => h hs.1 s hs.2

theorem spec_quiet {m : Prog σ α} (hquiet : ∀ s, (m s).states = [])
    (h : ∀ s a, P s → (m s).result = .ok a → Q a s) : Spec I G P m Q := by
  intro s hs
  rw [hquiet s]
  refine ⟨?_, List.isChain_singleton s, fun a ha => h s a hs ha⟩
  intro t ht
  cases ht

theorem spec_pure {a : α} (h : ∀ s, P s → Q a s) : Spec I G P (pure a : Prog σ α) Q := by
  refine spec_quiet (fun _ => rfl) fun s b hs hb => ?_
  cases hb
  exact h s hs

theorem spec_fail (e : String) : Spec I G P (fail e : Prog σ α) Q := by
  refine spec_quiet (fun _ => rfl) fun s b _ hb => ?_
  cases hb

theorem spec_read {f : σ → Except String α} (h : ∀ s a, P s → f s = .ok a → Q a s) :
    Spec I G P (read f) Q :=
  spec_quiet (fun _ => rfl) h

theorem spec_write {f : σ → Except String σ} {Q : Unit → σ → Prop}
    (h : ∀ s t, P s → f s = .ok t → I t ∧ G s t ∧ Q () t) : Spec I G P (write f) Q := by
  intro s hs
  unfold write
  rcases hf : f s with e | t
  · refine ⟨fun u hu => ?_, List.isChain_singleton s, fun b hb => ?_⟩
    · cases hu
    · cases hb
  · obtain ⟨h1, h2, h3⟩ := h s t hs hf
    refine ⟨fun u hu => ?_, List.isChain_pair.mpr h2, fun _ _ => h3⟩
    rw [List.mem_singleton.mp hu]
    exact h1

theorem isChain_append_after {s : σ} {l l' : List σ} (h : List.IsChain G (s :: l))
    (h' : List.IsChain G (after s l :: l')) : List.IsChain G (s :: (l ++ l')) := by
  induction l generalizing s with
  | nil => exact h'
  | cons t l ih =>
    rw [List.isChain_cons_cons] at h
    rw [List.cons_append, List.isChain_cons_cons]
    refine ⟨h.1, ih h.2 ?_⟩
    rwa [after_cons] at h'

theorem spec_bind {x : Prog σ α} {f : α → Prog σ β} {R : α → σ → Prop} {Q : β → σ → Prop}
    (hx : Spec I G P x R) (hf : ∀ a, Spec I G (R a) (f a) Q) : Spec I G P (x >>= f) Q := by
  intro s hs
  obtain ⟨h1, h2, h3⟩ := hx s hs
  change (∀ t ∈ (x.andThen f s).states, I t) ∧ List.IsChain G (s :: (x.andThen f s).states) ∧
    ∀ a, (x.andThen f s).result = .ok a → Q a (after s (x.andThen f s).states)
  unfold Prog.andThen
  rcases hr : (x s).result with e | a
  · refine ⟨h1, h2, fun b hb => ?_⟩
    cases hb
  · obtain ⟨h4, h5, h6⟩ := hf a _ (h3 a hr)
    refine ⟨fun t ht => ?_, isChain_append_after h2 h5, fun b hb => ?_⟩
    · rcases List.mem_append.mp ht with ht | ht
      · exact h1 t ht
      · exact h4 t ht
    · dsimp only
      rw [after_append]
      exact h6 b hb

theorem spec_forEach {A : List β → σ → Prop} {f : β → Prog σ Unit}
    (h : ∀ x xs, Spec I G (A (x :: xs)) (f x) fun _ => A xs) :
    ∀ l, Spec I G (A l) (forEach l f) fun _ => A []
  | [] => spec_pure fun _ hs => hs
  | x :: xs => spec_bind (h x xs) fun _ => spec_forEach h xs

theorem spec_collect {A : List β → List γ → σ → Prop} {f : β → Prog σ γ}
    (h : ∀ x xs ys, Spec I G (A (x :: xs) ys) (f x) fun y => A xs (ys ++ [y])) :
    ∀ l ys, Spec I G (A l ys) (collect l f) fun zs => A [] (ys ++ zs)
  | [], ys => spec_pure fun s hs => by simpa using hs
  | x :: xs, ys => by
    refine spec_bind (h x xs ys) fun y => ?_
    refine spec_bind (spec_collect h xs (ys ++ [y])) fun zs => ?_
    exact spec_pure fun s hs => by simpa using hs

theorem spec_ite {c : Prop} [Decidable c] {m m' : Prog σ α} (h : c → Spec I G P m Q)
    (h' : ¬ c → Spec I G P m' Q) : Spec I G P (if c then m else m') Q := by
  split_ifs with hc
  · exact h hc
  · exact h' hc

end rules

/-! ### Frames -/

def Keeps (R : σ → σ → Prop) (m : Prog σ α) : Prop :=
  Spec (fun _ => True) R (fun _ => True) m fun _ _ => True

section frames

variable {R R' : σ → σ → Prop}

theorem Keeps.spec {m : Prog σ α} (h : Keeps R m) {I A : σ → Prop} {G : σ → σ → Prop}
    (hstep : ∀ s s', R s s' → A s → A s' ∧ I s' ∧ G s s') : Spec I G A m fun _ => A := by
  intro s hs
  obtain ⟨-, hchain, -⟩ := h s trivial
  have hall : ∀ (l : List σ) (s : σ), List.IsChain R (s :: l) → A s →
      (∀ u ∈ l, I u) ∧ List.IsChain G (s :: l) ∧ A (after s l) := by
    intro l
    induction l with
    | nil =>
      refine fun s _ hs => ⟨fun u hu => ?_, List.isChain_singleton s, hs⟩
      cases hu
    | cons u l ih =>
      intro s hc hs
      rw [List.isChain_cons_cons] at hc
      obtain ⟨hA, hI, hG⟩ := hstep s u hc.1 hs
      obtain ⟨h1, h2, h3⟩ := ih u hc.2 hA
      refine ⟨fun v hv => ?_, List.isChain_cons_cons.mpr ⟨hG, h2⟩, ?_⟩
      · rcases List.mem_cons.mp hv with rfl | hv
        · exact hI
        · exact h1 v hv
      · rw [after_cons]
        exact h3
  obtain ⟨h1, h2, h3⟩ := hall _ s hchain hs
  exact ⟨h1, h2, fun _ _ => h3⟩

theorem Spec.frame {I P A : σ → Prop} {G : σ → σ → Prop} {m : Prog σ α} {Q : α → σ → Prop}
    (h : Spec I G P m Q) (hm : Keeps R m) (hA : ∀ s s', R s s' → A s → A s') :
    Spec I G (fun s => P s ∧ A s) m fun a s => Q a s ∧ A s := by
  have hkeep : Spec (fun _ => True) (fun _ _ => True) A m fun _ => A :=
    hm.spec fun s s' hR hs => ⟨hA s s' hR hs, trivial, trivial⟩
  intro s hs
  obtain ⟨h1, h2, h3⟩ := h s hs.1
  exact ⟨h1, h2, fun a ha => ⟨h3 a ha, (hkeep s hs.2).2.2 a ha⟩⟩

theorem Keeps.mono {m : Prog σ α} (h : Keeps R m) (hR : ∀ s s', R s s' → R' s s') : Keeps R' m :=
  fun s _ => ⟨fun _ _ => trivial, (h s trivial).2.1.imp fun _ _ => hR _ _, fun _ _ => trivial⟩

theorem keeps_pure (a : α) : Keeps R (pure a : Prog σ α) := spec_pure fun _ _ => trivial

theorem keeps_fail (e : String) : Keeps R (fail e : Prog σ α) := spec_fail e

theorem keeps_read (f : σ → Except String α) : Keeps R (read f) := spec_read fun _ _ _ _ => trivial

theorem keeps_write {f : σ → Except String σ} (h : ∀ s s', f s = .ok s' → R s s') :
    Keeps R (write f) :=
  spec_write fun s s' _ hf => ⟨trivial, h s s' hf, trivial⟩

theorem keeps_bind {x : Prog σ α} {f : α → Prog σ β} (hx : Keeps R x) (hf : ∀ a, Keeps R (f a)) :
    Keeps R (x >>= f) :=
  spec_bind hx hf

theorem keeps_read_bind {f : σ → Except String α} {k : α → Prog σ β}
    (h : ∀ s a, f s = .ok a → Keeps R (k a)) : Keeps R (read f >>= k) := by
  have hread : Spec (fun _ => True) R (fun _ => True) (read f) fun a _ => ∃ s, f s = .ok a :=
    spec_read fun s a _ ha => ⟨s, ha⟩
  refine spec_bind hread fun a s hs => ?_
  obtain ⟨u, hu⟩ := hs
  exact h u a hu s trivial

theorem keeps_ite {c : Prop} [Decidable c] {m m' : Prog σ α} (h : Keeps R m) (h' : Keeps R m') :
    Keeps R (if c then m else m') :=
  spec_ite (fun _ => h) fun _ => h'

theorem keeps_onlyIf {c : Bool} {m : Prog σ Unit} (h : Keeps R m) : Keeps R (onlyIf c m) :=
  keeps_ite h (keeps_pure ())

theorem keeps_forEach {f : β → Prog σ Unit} : ∀ {l : List β},
    (∀ x ∈ l, Keeps R (f x)) → Keeps R (forEach l f)
  | [], _ => keeps_pure ()
  | x :: l, h => keeps_bind (h x (by simp)) fun _ =>
    keeps_forEach fun y hy => h y (.tail _ hy)

theorem keeps_collect {f : β → Prog σ γ} (h : ∀ x, Keeps R (f x)) :
    ∀ l : List β, Keeps R (collect l f)
  | [] => keeps_pure []
  | x :: l => keeps_bind (h x) fun _ => keeps_bind (keeps_collect h l) fun _ => keeps_pure _

end frames

/-! ### Crashes and runs -/

/-- What is left of a run: all of it, or the first so many writes of one that crashed. -/
def crashed (crash : Option ℕ) (r : Ran σ α) : List σ :=
  match crash with
  | none => r.states
  | some k => r.states.take k

/-- The states visited by programs run one after another, each to its end or until it crashes. -/
def visit (s : σ) : List (Prog σ α × Option ℕ) → List σ
  | [] => []
  | (m, crash) :: rest =>
    let l := crashed crash (m s)
    l ++ visit (after s l) rest

theorem crashed_prefix (crash : Option ℕ) (r : Ran σ α) : (crashed crash r) <+: r.states := by
  cases crash with
  | none => exact List.prefix_rfl
  | some k => exact List.take_prefix k r.states

section visits

variable {I : σ → Prop} {G : σ → σ → Prop}

theorem spec_crashed {m : Prog σ α} {P : σ → Prop} {Q : α → σ → Prop} (h : Spec I G P m Q) {s : σ}
    (hs : P s) (hI : I s) (crash : Option ℕ) :
    (∀ t ∈ crashed crash (m s), I t) ∧ List.IsChain G (s :: crashed crash (m s)) ∧
      I (after s (crashed crash (m s))) := by
  obtain ⟨h1, h2, -⟩ := h s hs
  have hpre := crashed_prefix crash (m s)
  have hall : ∀ t ∈ crashed crash (m s), I t := fun t ht => h1 t (hpre.subset ht)
  refine ⟨hall, ?_, ?_⟩
  · exact h2.prefix (List.prefix_cons_inj s |>.mpr hpre)
  · rcases after_mem s (crashed crash (m s)) with h | h
    · rwa [h]
    · exact hall _ h

/-- **Runs with crashes.** If every program keeps the crash condition from any state that satisfies
it, so does every run of them, crashes and all, and every write meets the guarantee. -/
theorem visit_invariant : ∀ {calls : List (Prog σ α × Option ℕ)} {s : σ},
    (∀ c ∈ calls, Spec I G I c.1 fun _ => I) → I s →
    (∀ t ∈ s :: visit s calls, I t) ∧ List.IsChain G (s :: visit s calls)
  | [], s, _, hI => ⟨by simpa [visit] using hI, List.isChain_singleton s⟩
  | (m, crash) :: rest, s, h, hI => by
    obtain ⟨h1, h2, h3⟩ := spec_crashed (h (m, crash) (by simp)) hI hI crash
    obtain ⟨h4, h5⟩ := visit_invariant (fun c hc => h c (.tail _ hc)) h3
    refine ⟨fun t ht => ?_, isChain_append_after h2 h5⟩
    rcases List.mem_cons.mp ht with rfl | ht
    · exact hI
    · rcases List.mem_append.mp ht with ht | ht
      · exact h1 t ht
      · exact h4 t (.tail _ ht)

end visits

end Medulla.Library.Durable
