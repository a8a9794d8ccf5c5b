import Mathlib.Data.List.Basic

/-! # Journals

A journal is the list of what happened, oldest first. An entry *stands* in it when nothing written
after it ends it. -/

namespace Medulla.Library.Journal

variable {E : Type*} {ends : E → Prop} {e x : E} {journal more : List E}

def Stands (ends : E → Prop) (e : E) (journal : List E) : Prop :=
  ∃ early late, journal = early ++ e :: late ∧ ∀ x ∈ late, ¬ ends x

theorem stands_self (journal : List E) : Stands ends e (journal ++ [e]) :=
  ⟨journal, [], rfl, fun _ hx => absurd hx List.not_mem_nil⟩

theorem Stands.append (h : Stands ends e journal) (hmore : ∀ x ∈ more, ¬ ends x) :
    Stands ends e (journal ++ more) := by
  obtain ⟨early, late, rfl, hlate⟩ := h
  refine ⟨early, late ++ more, by rw [List.append_assoc, List.cons_append], fun x hx => ?_⟩
  rcases List.mem_append.mp hx with hx | hx
  · exact hlate x hx
  · exact hmore x hx

end Medulla.Library.Journal
