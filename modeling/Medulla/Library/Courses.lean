import Medulla.Library.Transaction

/-! # Courses of events

A course is a run without end: at each moment one event happens that is allowed then, or none. A
finite run is a course that rests from some moment on (`course_of_along`). -/

namespace Medulla.Library.Courses

open Transaction

variable {σ ι : Type*}

/-- The states and events of a run without end. -/
structure Course (step : σ → ι → σ) (allowed : σ → ι → Prop) (init : σ) (st : ℕ → σ)
    (ev : ℕ → Option ι) : Prop where
  init : st 0 = init
  rest : ∀ n, ev n = none → st (n + 1) = st n
  move : ∀ n i, ev n = some i → allowed (st n) i ∧ st (n + 1) = step (st n) i

variable {step : σ → ι → σ} {allowed : σ → ι → Prop} {init : σ} {st : ℕ → σ} {ev : ℕ → Option ι}

section
variable (h : Course step allowed init st ev) {I : σ → Prop}
  (hstep : ∀ s i, allowed s i → I s → I (step s i))
include h hstep

/-- **What allowed events keep holds at every moment**, from the first at which it holds. -/
theorem Course.keeps {n m : ℕ} (hnm : n ≤ m) (hn : I (st n)) : I (st m) := by
  induction hnm with
  | refl => exact hn
  | @step k _ ih =>
    cases hev : ev k with
    | none => rwa [h.rest k hev]
    | some i =>
      obtain ⟨hi, hst⟩ := h.move k i hev
      rw [hst]
      exact hstep _ i hi ih

theorem Course.invariant (h0 : I init) (n : ℕ) : I (st n) :=
  h.keeps hstep (Nat.zero_le n) (h.init.symm ▸ h0)

end

/-- **A finite run is a course.** -/
theorem course_of_along {is : List ι} (h : Along step allowed init is) :
    Course step allowed init (fun n => run step init (is.take n)) fun n => is[n]? where
  init := by simp
  rest := fun n hn => by
    have hlen : is.length ≤ n := List.getElem?_eq_none_iff.mp hn
    simp only [List.take_of_length_le hlen, List.take_of_length_le (Nat.le_succ_of_le hlen)]
  move := fun n i hn => by
    have htake : is.take (n + 1) = is.take n ++ [i] := by
      rw [List.take_add_one, hn, Option.toList_some]
    have hsplit : is = is.take n ++ i :: is.drop (n + 1) := by
      conv_lhs => rw [← List.take_append_drop (n + 1) is, htake]
      simp
    rw [hsplit, along_append] at h
    exact ⟨h.2.1, by rw [htake, run_append]; rfl⟩

/-- **One moment for all**: what each entry of a list reaches and keeps, all reach together. -/
theorem eventually_forall {α : Type*} {P : α → ℕ → Prop} (hkeep : ∀ x n m, n ≤ m → P x n → P x m) :
    ∀ xs : List α, (∀ x ∈ xs, ∃ n, P x n) → ∃ n, ∀ x ∈ xs, P x n
  | [], _ => ⟨0, fun x hx => absurd hx List.not_mem_nil⟩
  | x :: xs, h => by
    obtain ⟨n, hn⟩ := h x (.head _)
    obtain ⟨m, hm⟩ := eventually_forall hkeep xs fun y hy => h y (.tail _ hy)
    refine ⟨max n m, fun y hy => ?_⟩
    rcases List.mem_cons.mp hy with rfl | hy
    · exact hkeep y n _ (Nat.le_max_left n m) hn
    · exact hkeep y m _ (Nat.le_max_right n m) (hm y hy)

end Medulla.Library.Courses
