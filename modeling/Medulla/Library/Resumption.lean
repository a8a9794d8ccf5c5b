import Mathlib.Tactic.Common

/-! # Programs that commit one command at a time

A program over a shared state returns, reads the state, or commits a command and goes on with whether
it took effect. Between any two of its steps other programs may change the state, and it may stop for
ever. -/

namespace Medulla.Library.Resumption

/-- A program over states `σ` and commands `γ` that returns an `α` or fails with a message. -/
inductive Program (σ γ α : Type)
  | ret (result : Except String α)
  | read (rest : σ → Program σ γ α)
  | commit (command : γ) (rest : Bool → Program σ γ α)

namespace Program

variable {σ γ α β : Type}

def bind : Program σ γ α → (α → Program σ γ β) → Program σ γ β
  | .ret (.ok a), f => f a
  | .ret (.error e), _ => .ret (.error e)
  | .read rest, f => .read fun s => (rest s).bind f
  | .commit command rest, f => .commit command fun took => (rest took).bind f

instance : Monad (Program σ γ) where
  pure a := .ret (.ok a)
  bind := bind

def lift (x : Except String α) : Program σ γ α := .ret x

def asks (f : σ → Except String α) : Program σ γ α := .read fun s => .ret (f s)

def perform (command : γ) : Program σ γ Bool := .commit command fun took => .ret (.ok took)

variable (apply : σ → γ → σ × Bool)

def exec : Program σ γ α → σ → σ × Except String α
  | .ret r, s => (s, r)
  | .read rest, s => (rest s).exec s
  | .commit command rest, s => (rest (apply s command).2).exec (apply s command).1

def resume : Program σ γ α → σ → σ × Program σ γ α
  | .ret r, s => (s, .ret r)
  | .read rest, s => (s, rest s)
  | .commit command rest, s => ((apply s command).1, rest (apply s command).2)

/-! ### Alone -/

theorem exec_bind : ∀ (p : Program σ γ α) (f : α → Program σ γ β) (s : σ), (p.bind f).exec apply s =
      match p.exec apply s with
      | (t, .ok a) => (f a).exec apply t
      | (t, .error e) => (t, .error e)
  | .ret (.ok _), _, _ => rfl
  | .ret (.error _), _, _ => rfl
  | .read rest, f, s => exec_bind (rest s) f s
  | .commit command rest, f, s => exec_bind (rest (apply s command).2) f (apply s command).1

variable {apply}

section
variable {p : Program σ γ α} {f : α → Program σ γ β} {s t : σ}

theorem exec_bind_ok {a : α}
    (h : p.exec apply s = (t, .ok a)) : (p >>= f).exec apply s = (f a).exec apply t :=
  (exec_bind apply p f s).trans (by rw [h])

theorem exec_bind_error {e : String}
    (h : p.exec apply s = (t, .error e)) : (p >>= f).exec apply s = (t, .error e) :=
  (exec_bind apply p f s).trans (by rw [h])

end

variable (apply)

/-- **Alone, the program succeeds**, with `P` of what it returns and leaves. -/
def Ends (P : α → σ → Prop) (p : Program σ γ α) (s : σ) : Prop :=
  ∃ a t, p.exec apply s = (t, .ok a) ∧ P a t

def Fails (p : Program σ γ α) (s : σ) : Prop := ∃ e t, p.exec apply s = (t, .error e)

variable {apply} {P : α → σ → Prop}

theorem not_ends_of_fails {p : Program σ γ α} {s : σ} (h : p.Fails apply s) :
    ¬ p.Ends apply P s := by
  rintro ⟨a, t, hok, -⟩
  obtain ⟨e, t', herror⟩ := h
  rw [hok] at herror
  cases herror

theorem ends_mono {P' : α → σ → Prop} {p : Program σ γ α} {s : σ} (h : p.Ends apply P s)
    (hp : ∀ a t, P a t → P' a t) : p.Ends apply P' s := by
  obtain ⟨a, t, hexec, ha⟩ := h
  exact ⟨a, t, hexec, hp a t ha⟩

theorem ends_pure {a : α} {s : σ} (h : P a s) : (pure a : Program σ γ α).Ends apply P s :=
  ⟨a, s, rfl, h⟩

theorem ends_lift {x : Except String α} {a : α} {s : σ} (hx : x = .ok a) (h : P a s) :
    (lift x : Program σ γ α).Ends apply P s :=
  ⟨a, s, by rw [hx]; rfl, h⟩

theorem ends_perform {P : Bool → σ → Prop} {command : γ} {s : σ}
    (h : P (apply s command).2 (apply s command).1) :
    (perform command : Program σ γ Bool).Ends apply P s :=
  ⟨_, _, rfl, h⟩

/-- **Sequencing**: each part succeeds where the part before it ended. -/
theorem ends_bind {P' : β → σ → Prop} {p : Program σ γ α} {f : α → Program σ γ β} {s : σ}
    (h : p.Ends apply P s) (hf : ∀ a t, P a t → (f a).Ends apply P' t) :
    (p >>= f).Ends apply P' s := by
  obtain ⟨a, t, hexec, ha⟩ := h
  obtain ⟨b, u, hrest, hb⟩ := hf a t ha
  exact ⟨b, u, (exec_bind_ok hexec).trans hrest, hb⟩

theorem ends_lift_bind {P' : β → σ → Prop} {x : Except String α} {f : α → Program σ γ β} {a : α}
    {s : σ} (hx : x = .ok a) (h : (f a).Ends apply P' s) : (lift x >>= f).Ends apply P' s := by
  rw [hx]
  exact h

theorem ends_asks_bind {P' : β → σ → Prop} {g : σ → Except String α} {f : α → Program σ γ β}
    {a : α} {s : σ} (hg : g s = .ok a) (h : (f a).Ends apply P' s) :
    (asks g >>= f).Ends apply P' s := by
  obtain ⟨b, t, hexec, hb⟩ := h
  have hasks : (asks g : Program σ γ α).exec apply s = (s, .ok a) := by
    rw [← hg]
    rfl
  exact ⟨b, t, (exec_bind_ok hasks).trans hexec, hb⟩

theorem fails_lift {e : String} {s : σ} :
    (lift (.error e) : Program σ γ α).Fails apply s := ⟨e, s, rfl⟩

section
variable {p : Program σ γ α} {f : α → Program σ γ β} {s : σ}

theorem fails_bind (h : p.Fails apply s) : (p >>= f).Fails apply s := by
  obtain ⟨e, t, hexec⟩ := h
  exact ⟨e, t, exec_bind_error hexec⟩

theorem fails_after (h : p.Ends apply P s)
    (hf : ∀ a t, P a t → (f a).Fails apply t) : (p >>= f).Fails apply s := by
  obtain ⟨a, t, hexec, ha⟩ := h
  obtain ⟨e, u, hrest⟩ := hf a t ha
  exact ⟨e, u, (exec_bind_ok hexec).trans hrest⟩

/-! ### Among others -/

end

variable (apply) (R G : σ → σ → Prop)

/-- **What a program does among others**: when these move the state along `R`, each of its commits is in
`G`, and it returns with `Q`. -/
def Wp (Q : Except String α → σ → Prop) : Program σ γ α → σ → Prop
  | .ret r, s => ∀ t, R s t → Q r t
  | .read rest, s => ∀ t, R s t → Wp Q (rest t) t
  | .commit command rest, s =>
    ∀ t, R s t → G t (apply t command).1 ∧ Wp Q (rest (apply t command).2) (apply t command).1

variable {apply R G} {Q : Except String α → σ → Prop}

theorem wp_rely (htrans : ∀ s t u, R s t → R t u → R s u) {p : Program σ γ α} {s t : σ}
    (h : Wp apply R G Q p s) (hst : R s t) : Wp apply R G Q p t := by
  cases p with
  | ret r => exact fun u hu => h u (htrans s t u hst hu)
  | read rest => exact fun u hu => h u (htrans s t u hst hu)
  | commit command rest => exact fun u hu => h u (htrans s t u hst hu)

/-- **One step of a program**: the state stays or changes as guaranteed, and the rest is as before. -/
theorem wp_resume (hrefl : ∀ s, R s s) {p : Program σ γ α} {s : σ} (h : Wp apply R G Q p s) :
    ((p.resume apply s).1 = s ∨ G s (p.resume apply s).1) ∧
      Wp apply R G Q (p.resume apply s).2 (p.resume apply s).1 := by
  cases p with
  | ret r => exact ⟨Or.inl rfl, h⟩
  | read rest => exact ⟨Or.inl rfl, h s (hrefl s)⟩
  | commit command rest => exact ⟨Or.inr (h s (hrefl s)).1, (h s (hrefl s)).2⟩

/-- **Sequencing**: the rest starts from where the first part returned. -/
theorem wp_bind (hrefl : ∀ s, R s s) {Q' : Except String β → σ → Prop}
    {f : α → Program σ γ β} (hok : ∀ a s, Q (.ok a) s → Wp apply R G Q' (f a) s)
    (herror : ∀ e s, Q (.error e) s → Q' (.error e) s) :
    ∀ {p : Program σ γ α} {s : σ}, Wp apply R G Q p s → Wp apply R G Q' (p >>= f) s
  | .ret (.ok a), s, h => hok a s (h s (hrefl s))
  | .ret (.error e), _, h => fun t ht => herror e t (h t ht)
  | .read _, _, h => fun t ht => wp_bind hrefl hok herror (h t ht)
  | .commit _ _, _, h => fun t ht => ⟨(h t ht).1, wp_bind hrefl hok herror (h t ht).2⟩

theorem wp_mono {Q' : Except String α → σ → Prop} (hq : ∀ r s, Q r s → Q' r s) :
    ∀ {p : Program σ γ α} {s : σ}, Wp apply R G Q p s → Wp apply R G Q' p s
  | .ret _, _, h => fun t ht => hq _ t (h t ht)
  | .read _, _, h => fun t ht => wp_mono hq (h t ht)
  | .commit _ _, _, h => fun t ht => ⟨(h t ht).1, wp_mono hq (h t ht).2⟩

/-- **A program alone does what it does among others**: what its commits keep holds at its end. -/
theorem wp_exec (hrefl : ∀ s, R s s) {I : σ → Prop} (hkeep : ∀ s t, I s → G s t → I t) :
    ∀ (p : Program σ γ α) (s : σ), Wp apply R G Q p s → I s →
      I (p.exec apply s).1 ∧ Q (p.exec apply s).2 (p.exec apply s).1
  | .ret _, s, h, hi => ⟨hi, h s (hrefl s)⟩
  | .read rest, s, h, hi => wp_exec hrefl hkeep (rest s) s (h s (hrefl s)) hi
  | .commit command rest, s, h, hi =>
    wp_exec hrefl hkeep (rest (apply s command).2) (apply s command).1 (h s (hrefl s)).2
      (hkeep s _ hi (h s (hrefl s)).1)

end Program

end Medulla.Library.Resumption
