import Medulla.Library.OrderedSet

/-! # Searches with a worklist

A search takes a node off its worklist, notes every successor it sees for the first time, and puts it on
the worklist. -/

namespace Medulla.Library.Worklist

open OrderedTable OrderedSet

variable {α : Type*}

/-! ### Worklists -/

def onTop (work : List α) (x : α) : List α := x :: work

def atEnd (work : List α) (x : α) : List α := work ++ [x]

structure Puts (put : List α → α → List α) : Prop where
  mem : ∀ work x y, y ∈ put work x ↔ y = x ∨ y ∈ work
  length : ∀ work x, (put work x).length = work.length + 1

theorem puts_onTop : Puts (onTop : List α → α → List α) where
  mem := fun _ _ _ => List.mem_cons
  length := fun _ _ => rfl

theorem puts_atEnd : Puts (atEnd : List α → α → List α) where
  mem := fun work x y => by
    rw [atEnd, List.mem_append, List.mem_singleton]
    exact or_comm
  length := fun work x => by simp [atEnd]

/-! ### The loop -/

variable [LinearOrder α]

/-- The nodes seen so far, and those whose successors are still to be noted. -/
structure Search (α : Type*) [LinearOrder α] where
  seen : KeySet α
  work : List α

/-- Note the nodes that are seen for the first time. -/
def visit (put : List α → α → List α) : List α → Search α → Search α
  | [], s => s
  | y :: ys, s => if has s.seen y then visit put ys s else visit put ys ⟨add s.seen y, put s.work y⟩

/-- Take nodes off the worklist and visit their successors, for a number of turns. -/
def search (put : List α → α → List α) (next : α → List α) : ℕ → Search α → KeySet α
  | 0, s => s.seen
  | _ + 1, ⟨seen, []⟩ => seen
  | n + 1, ⟨seen, x :: work⟩ => search put next n (visit put (next x) ⟨seen, work⟩)

def unseen (univ : List α) (seen : KeySet α) : ℕ := univ.countP fun x => !has seen x

/-! ### One visit -/

section
variable {put : List α → α → List α} {next : α → List α} {univ : List α} {k : α}

theorem has_visit : ∀ {ys : List α} {s : Search α},
    has (visit put ys s).seen k = true ↔ has s.seen k = true ∨ k ∈ ys
  | [], s => by simp [visit]
  | y :: ys, s => by
    unfold visit
    by_cases hy : has s.seen y = true
    · rw [if_pos hy, has_visit, List.mem_cons]
      constructor
      · rintro (h | h)
        · exact Or.inl h
        · exact Or.inr (Or.inr h)
      · rintro (h | rfl | h)
        · exact Or.inl h
        · exact Or.inl hy
        · exact Or.inr h
    · rw [if_neg hy, has_visit, has_add, List.mem_cons]
      tauto

theorem mem_work_visit (hput : Puts put) : ∀ {ys : List α} {s : Search α},
    k ∈ (visit put ys s).work ↔ k ∈ s.work ∨ (k ∈ ys ∧ ¬ has s.seen k = true)
  | [], s => by simp [visit]
  | y :: ys, s => by
    unfold visit
    by_cases hy : has s.seen y = true
    · rw [if_pos hy, mem_work_visit hput, List.mem_cons]
      constructor
      · rintro (h | h)
        · exact Or.inl h
        · exact Or.inr ⟨Or.inr h.1, h.2⟩
      · rintro (h | ⟨rfl | h, hk⟩)
        · exact Or.inl h
        · exact absurd hy hk
        · exact Or.inr ⟨h, hk⟩
    · rw [if_neg hy, mem_work_visit hput, hput.mem, has_add, List.mem_cons]
      constructor
      · rintro ((rfl | h) | ⟨h, hk⟩)
        · exact Or.inr ⟨Or.inl rfl, hy⟩
        · exact Or.inl h
        · exact Or.inr ⟨Or.inr h, fun hs => hk (Or.inr hs)⟩
      · rintro (h | ⟨rfl | h, hk⟩)
        · exact Or.inl (Or.inr h)
        · exact Or.inl (Or.inl rfl)
        · by_cases hky : k = y
          · exact Or.inl (Or.inl hky)
          · exact Or.inr ⟨h, fun hs => hs.elim hky hk⟩

theorem unseen_add_le (univ : List α) (seen : KeySet α) :
    unseen univ (add seen k) ≤ unseen univ seen := by
  refine List.countP_mono_left fun x _ hx => ?_
  simp only [Bool.not_eq_true', ← Bool.not_eq_true, has_add, not_or] at hx ⊢
  exact hx.2

theorem unseen_add {seen : KeySet α} (hk : ¬ has seen k = true) : ∀ {univ : List α}, k ∈ univ →
    unseen univ (add seen k) + 1 ≤ unseen univ seen
  | [], hmem => by cases hmem
  | x :: xs, hmem => by
    have hle : unseen xs (add seen k) ≤ unseen xs seen := unseen_add_le xs seen
    unfold unseen at hle ⊢
    rw [List.countP_cons, List.countP_cons]
    by_cases hx : x = k
    · subst hx
      have hnew : has (add seen x) x = true := has_add.mpr (Or.inl rfl)
      rw [Bool.not_eq_true] at hk
      simp only [hnew, hk, Bool.not_true, Bool.not_false, Bool.false_eq_true, if_true, if_false]
      omega
    · have hsame : has (add seen k) x = has seen x := by
        rw [Bool.eq_iff_iff]
        simp [hx]
      have hrest := unseen_add hk ((List.mem_cons.mp hmem).resolve_left (Ne.symm hx))
      unfold unseen at hrest
      rw [hsame]
      omega

theorem length_visit (hput : Puts put) : ∀ {ys : List α} {s : Search α}, (∀ y ∈ ys, y ∈ univ) →
    (visit put ys s).work.length + unseen univ (visit put ys s).seen ≤
      s.work.length + unseen univ s.seen
  | [], s, _ => Nat.le_refl _
  | y :: ys, s, h => by
    unfold visit
    obtain ⟨hy, hys⟩ := List.forall_mem_cons.mp h
    by_cases hseen : has s.seen y = true
    · rw [if_pos hseen]
      exact length_visit hput hys
    · rw [if_neg hseen]
      have hrest := @length_visit hput ys ⟨add s.seen y, put s.work y⟩ hys
      have hlen : (put s.work y).length = s.work.length + 1 := hput.length s.work y
      have hadd := unseen_add hseen hy
      simp only [hlen] at hrest
      omega

/-! ### Whole searches -/

/-- **Nothing foreign is found**: a property that the nodes on the worklist hand to their successors. -/
theorem search_sound (hput : Puts put) {Q W : α → Prop} (hstep : ∀ x y, W x → y ∈ next x → Q y)
    (hsub : ∀ y, Q y → W y) : ∀ {n : ℕ} {s : Search α}, (∀ x, has s.seen x = true → Q x) →
    (∀ x ∈ s.work, W x) → has (search put next n s) k = true → Q k
  | 0, s, hseen, _, h => hseen k h
  | n + 1, ⟨seen, []⟩, hseen, _, h => hseen k h
  | n + 1, ⟨seen, x :: work⟩, hseen, hwork, h => by
    obtain ⟨hx, hrest⟩ := List.forall_mem_cons.mp hwork
    refine search_sound (n := n) (s := visit put (next x) ⟨seen, work⟩) hput hstep hsub ?_ ?_ h
    · intro y hy
      rcases has_visit.mp hy with hy | hy
      · exact hseen y hy
      · exact hstep x y hx hy
    · intro y hy
      rcases (mem_work_visit hput).mp hy with hy | hy
      · exact hrest y hy
      · exact hsub y (hstep x y hx hy.1)

/-- The successors of every root and of every node seen are seen, unless it still waits. -/
def Settled (next : α → List α) (roots : α → Prop) (s : Search α) : Prop :=
  ∀ x, roots x ∨ has s.seen x = true → x ∈ s.work ∨ ∀ y ∈ next x, has s.seen y = true

theorem Settled.visit {roots : α → Prop} {seen : KeySet α} {x : α} {work : List α} (hput : Puts put)
    (h : Settled next roots ⟨seen, x :: work⟩) :
    Settled next roots (visit put (next x) ⟨seen, work⟩) := by
  intro z hz
  have hold : roots z ∨ has seen z = true → z ∈ (Worklist.visit put (next x) ⟨seen, work⟩).work ∨
      ∀ y ∈ next z, has (Worklist.visit put (next x) ⟨seen, work⟩).seen y = true := by
    intro hz
    rcases h z hz with hwork | hnext
    · rcases List.mem_cons.mp hwork with rfl | hwork
      · exact Or.inr fun y hy => has_visit.mpr (Or.inr hy)
      · exact Or.inl ((mem_work_visit hput).mpr (Or.inl hwork))
    · exact Or.inr fun y hy => has_visit.mpr (Or.inl (hnext y hy))
  rcases hz with hz | hz
  · exact hold (Or.inl hz)
  · by_cases hseen : has seen z = true
    · exact hold (Or.inr hseen)
    · refine Or.inl ((mem_work_visit hput).mpr (Or.inr ⟨?_, hseen⟩))
      exact (has_visit.mp hz).resolve_left hseen

/-- **Nothing is missed**: with enough turns, what is found holds the successors of the roots and of
everything found. -/
theorem search_complete (hput : Puts put) {roots : α → Prop}
    (huniv : ∀ x, ∀ y ∈ next x, y ∈ univ) : ∀ {n : ℕ} {s : Search α},
    s.work.length + unseen univ s.seen ≤ n → Settled next roots s →
      (∀ x, has s.seen x = true → has (search put next n s) x = true) ∧
        ∀ x, roots x ∨ has (search put next n s) x = true →
          ∀ y ∈ next x, has (search put next n s) y = true
  | 0, ⟨seen, []⟩, _, h => ⟨fun _ hx => hx, fun x hx => (h x hx).resolve_left (by simp)⟩
  | 0, ⟨seen, x :: work⟩, hn, _ => by simp at hn
  | n + 1, ⟨seen, []⟩, _, h => ⟨fun _ hx => hx, fun x hx => (h x hx).resolve_left (by simp)⟩
  | n + 1, ⟨seen, x :: work⟩, hn, h => by
    have hlen := @length_visit α _ put univ hput (next x) ⟨seen, work⟩ (huniv x)
    have hfuel : (visit put (next x) ⟨seen, work⟩).work.length +
        unseen univ (visit put (next x) ⟨seen, work⟩).seen ≤ n := by
      simp only [List.length_cons] at hn hlen
      omega
    obtain ⟨hmono, hclosed⟩ := search_complete hput huniv hfuel (h.visit hput)
    exact ⟨fun y hy => hmono y (has_visit.mpr (Or.inl hy)), hclosed⟩

/-! ### Closures -/

/-- What a search from one node finds, the node itself only when it is found again. -/
def reached (put : List α → α → List α) (next : α → List α) (univ : List α) (root : α) : KeySet α :=
  search put next (univ.length + 1) ⟨Table.empty, [root]⟩

/-- What a search from one node finds that has seen the node already. -/
def reachedFrom (put : List α → α → List α) (next : α → List α) (univ : List α) (root : α) :
    KeySet α :=
  search put next (univ.length + 1) ⟨add Table.empty root, [root]⟩

theorem unseen_le (univ : List α) (seen : KeySet α) : 1 + unseen univ seen ≤ univ.length + 1 := by
  have hle : unseen univ seen ≤ univ.length := List.countP_le_length
  omega

variable {root : α}

/-- **A search finds the transitive closure** of the successors. -/
theorem has_reached (hput : Puts put) (huniv : ∀ x, ∀ y ∈ next x, y ∈ univ) :
    has (reached put next univ root) k = true ↔
      Relation.TransGen (fun x y => y ∈ next x) root k := by
  constructor
  · refine search_sound hput (W := fun x => Relation.ReflTransGen (fun x y => y ∈ next x) root x)
      (fun x y hx hy => Relation.TransGen.tail' hx hy) (fun y hy => hy.to_reflTransGen)
      (fun x hx => by simp at hx) ?_
    intro x hx
    rw [List.mem_singleton.mp hx]
  · intro h
    have hsettled : Settled next (fun x => x = root) ⟨Table.empty, [root]⟩ := by
      rintro x (rfl | hx)
      · exact Or.inl (.head _)
      · simp at hx
    obtain ⟨-, hclosed⟩ := search_complete hput huniv (unseen_le univ _) hsettled
    induction h with
    | single hstep => exact hclosed root (Or.inl rfl) _ hstep
    | tail _ hstep ih => exact hclosed _ (Or.inr ih) _ hstep

/-- **A search that has seen its root finds the reflexive closure** of the successors. -/
theorem has_reachedFrom (hput : Puts put) (huniv : ∀ x, ∀ y ∈ next x, y ∈ univ) :
    has (reachedFrom put next univ root) k = true ↔
      Relation.ReflTransGen (fun x y => y ∈ next x) root k := by
  have hroot : ∀ x, has (add Table.empty root) x = true ↔ x = root := by
    simp
  constructor
  · refine search_sound hput (Q := fun x => Relation.ReflTransGen (fun x y => y ∈ next x) root x)
      (fun x y hx hy => Relation.ReflTransGen.tail hx hy) (fun y hy => hy) (fun x hx => ?_)
      (fun x hx => ?_)
    · rw [(hroot x).mp hx]
    · rw [List.mem_singleton.mp hx]
  · intro h
    have hsettled : Settled next (fun x => x = root) ⟨add Table.empty root, [root]⟩ := by
      rintro x (rfl | hx)
      · exact Or.inl (.head _)
      · rw [(hroot x).mp hx]
        exact Or.inl (.head _)
    obtain ⟨hmono, hclosed⟩ := search_complete hput huniv (unseen_le univ _) hsettled
    induction h with
    | refl => exact hmono root ((hroot root).mpr rfl)
    | tail _ hstep ih => exact hclosed _ (Or.inr ih) _ hstep

end

end Medulla.Library.Worklist
