import Mathlib.Order.Nat
import Medulla.Library.OrderedTable

/-! # An index of values in order

The non-zero values of a function, one row of an ordered table for each of them. The key of a row
holds the group of the value, then the value, then the item that has it, so that the last row of a
group has its greatest value. -/

namespace Medulla.Library.ValueIndex

open OrderedTable

variable {G I K : Type*} [LinearOrder K]

/-- Put one value of an item in the place of another; zero has no row. -/
def replace (key : G → ℕ → I → K) (g : G) (i : I) (old new : ℕ) (t : Table K Unit) : Table K Unit :=
  let removed := if 0 < old then t.remove (key g old i) else t
  if 0 < new then removed.insert (key g new i) () else removed

structure Change (G I : Type*) where
  slot : G × I
  old : ℕ
  new : ℕ

def replaceAll (key : G → ℕ → I → K) (changes : List (Change G I)) (t : Table K Unit) :
    Table K Unit :=
  changes.foldl (fun t c => replace key c.slot.1 c.slot.2 c.old c.new t) t

/-- **The index shows a function**: a row for each value that is not zero, and no other row. -/
structure Shows (key : G → ℕ → I → K) (t : Table K Unit) (f : G × I → ℕ) : Prop where
  rows : ∀ g v i, t.get (key g v i) = some () ↔ 0 < v ∧ v = f (g, i)
  only : ∀ k, t.get k = some () → ∃ g v i, k = key g v i

theorem shows_empty (key : G → ℕ → I → K) : Shows key .empty fun _ => 0 := by
  refine ⟨fun g v i => ?_, fun k h => nomatch h⟩
  constructor
  · intro h
    cases h
  · rintro ⟨hpos, rfl⟩
    exact absurd hpos (by decide)

def Injects (key : G → ℕ → I → K) : Prop :=
  ∀ {g g' v v' i i'}, key g v i = key g' v' i' → g = g' ∧ v = v' ∧ i = i'

section
variable {key : G → ℕ → I → K} {t : Table K Unit} {f f' : G × I → ℕ}

theorem get_replace (g : G) (i : I) (old new : ℕ) (k : K) :
    (replace key g i old new t).get k = some () ↔
      (0 < new ∧ k = key g new i) ∨ (t.get k = some () ∧ ¬ (0 < old ∧ k = key g old i)) := by
  have hremoved : (if 0 < old then t.remove (key g old i) else t).get k = some () ↔
      t.get k = some () ∧ ¬ (0 < old ∧ k = key g old i) := by
    by_cases hold : 0 < old
    · rw [if_pos hold, Table.get_remove]
      by_cases hk : k = key g old i
      · simp [hk, hold]
      · simp [hk]
    · simp [hold]
  unfold replace
  by_cases hnew : 0 < new
  · rw [if_pos hnew, Table.get_insert]
    by_cases hk : k = key g new i
    · simp [hk, hnew]
    · rw [if_neg hk, hremoved]
      simp [hk]
  · rw [if_neg hnew, hremoved]
    simp [hnew]

/-- **One replacement** changes the function in one place. -/
theorem Shows.replace [DecidableEq G] [DecidableEq I] (hkey : Injects key) (h : Shows key t f) {g : G}
    {i : I} {old : ℕ} (hold : f (g, i) = old) (new : ℕ) :
    Shows key (ValueIndex.replace key g i old new t) (Function.update f (g, i) new) := by
  refine ⟨fun g' v i' => ?_, fun k hk => ?_⟩
  · rw [get_replace, h.rows]
    by_cases hslot : (g', i') = (g, i)
    · obtain ⟨rfl, rfl⟩ := Prod.mk.inj hslot
      rw [Function.update_self, hold]
      constructor
      · rintro (⟨hnew, hk⟩ | ⟨⟨hpos, rfl⟩, hnot⟩)
        · obtain ⟨-, rfl, -⟩ := hkey hk
          exact ⟨hnew, rfl⟩
        · exact absurd ⟨hpos, rfl⟩ hnot
      · rintro ⟨hpos, rfl⟩
        exact .inl ⟨hpos, rfl⟩
    · rw [Function.update_of_ne hslot]
      have hother : ∀ w, key g' v i' ≠ key g w i := by
        intro w hk
        obtain ⟨rfl, -, rfl⟩ := hkey hk
        exact hslot rfl
      constructor
      · rintro (⟨-, hk⟩ | ⟨hrow, -⟩)
        · exact absurd hk (hother new)
        · exact hrow
      · intro hrow
        exact .inr ⟨hrow, fun hk => hother old hk.2⟩
  · rcases (get_replace g i old new k).mp hk with ⟨-, rfl⟩ | ⟨hrow, -⟩
    · exact ⟨g, new, i, rfl⟩
    · exact h.only k hrow

/-- **Replacements in different places** lead to any function that has the new values there and the old
ones elsewhere. -/
theorem Shows.replaceAll [DecidableEq G] [DecidableEq I] (hkey : Injects key) :
    ∀ {changes : List (Change G I)} {t : Table K Unit} {f f' : G × I → ℕ}, Shows key t f →
      (changes.map Change.slot).Nodup → (∀ c ∈ changes, f c.slot = c.old) →
      (∀ c ∈ changes, f' c.slot = c.new) →
      (∀ slot, (∀ c ∈ changes, c.slot ≠ slot) → f' slot = f slot) →
      Shows key (ValueIndex.replaceAll key changes t) f'
  | [], t, f, f', h, _, _, _, hrest => by
    have hsame : f' = f := funext fun slot => hrest slot fun c hc => nomatch hc
    rw [hsame]
    exact h
  | c :: changes, t, f, f', h, hnodup, hold, hnew, hrest => by
    obtain ⟨hnotin, hnodup⟩ := List.nodup_cons.mp hnodup
    have hother : ∀ d ∈ changes, d.slot ≠ c.slot := by
      intro d hd heq
      exact hnotin (heq ▸ List.mem_map_of_mem hd)
    have hhead := h.replace hkey (hold c (.head _)) c.new
    refine hhead.replaceAll hkey hnodup (fun d hd => ?_) (fun d hd => ?_) fun slot hslot => ?_
    · rw [Function.update_of_ne (hother d hd)]
      exact hold d (.tail c hd)
    · exact hnew d (.tail c hd)
    · by_cases hc : slot = c.slot
      · subst hc
        rw [Function.update_self]
        exact hnew c (.head _)
      · rw [Function.update_of_ne hc]
        refine hrest slot fun d hd => ?_
        rcases List.mem_cons.mp hd with rfl | hd
        · exact Ne.symm hc
        · exact hslot d hd

end

/-! ### The greatest value -/

def greatest (value : K → Option ℕ) (t : Table K Unit) : ℕ :=
  ((t.rows.filterMap fun row => value row.1).getLast?).getD 0

theorem le_getLast_of_sorted : ∀ {vs : List ℕ} {v : ℕ}, vs.Pairwise (· ≤ ·) → v ∈ vs →
    v ≤ vs.getLast?.getD 0
  | [], _, _, h => nomatch h
  | [w], v, _, h => by
    rw [List.mem_singleton.mp h]
    exact le_refl w
  | w :: w' :: vs, v, hsorted, h => by
    rw [List.getLast?_cons_cons]
    obtain ⟨hle, htail⟩ := List.pairwise_cons.mp hsorted
    rcases List.mem_cons.mp h with rfl | h
    · exact (hle w' (.head _)).trans (le_getLast_of_sorted htail (.head _))
    · exact le_getLast_of_sorted htail h

section
variable {value : K → Option ℕ} {t : Table K Unit}

theorem le_greatest
    (hvalue : ∀ {k k' : K} {v v' : ℕ}, value k = some v → value k' = some v' → k < k' → v ≤ v')
    {k : K} {v : ℕ} (hrow : t.get k = some ()) (hv : value k = some v) : v ≤ greatest value t := by
  refine le_getLast_of_sorted ?_ (List.mem_filterMap.mpr ⟨(k, ()), Table.mem_rows.mpr hrow, hv⟩)
  refine List.pairwise_filterMap.mpr (t.sorted.imp fun {row row'} hlt v hv v' hv' => ?_)
  exact hvalue hv hv' hlt

theorem greatest_mem (value : K → Option ℕ) (t : Table K Unit) :
    greatest value t = 0 ∨ ∃ k, t.get k = some () ∧ value k = some (greatest value t) := by
  unfold greatest
  cases hlast : (t.rows.filterMap fun row => value row.1).getLast? with
  | none => exact .inl rfl
  | some v =>
    obtain ⟨row, hrow, hv⟩ := List.mem_filterMap.mp (List.mem_of_getLast? hlast)
    exact .inr ⟨row.1, Table.mem_rows.mp hrow, hv⟩

end

end Medulla.Library.ValueIndex
