import Mathlib.Tactic.Common

/-! # Programs over a store, one after another

A program reads the store it was started in and buffers its writes; what it reads may decide what it
reads next. Its trace is what it read and wrote. -/

namespace Medulla.Library.Serial

variable {κ ν : Type}

/-! ### Programs -/

abbrev Store (κ ν : Type) := κ → Option ν

inductive Program (κ ν : Type)
  | done
  | read (key : κ) (next : Option ν → Program κ ν)
  | write (key : κ) (value : Option ν) (next : Program κ ν)

structure Trace (κ ν : Type) where
  reads : List (κ × Option ν)
  writes : List (κ × Option ν)

def Program.exec (s : Store κ ν) : Program κ ν → Trace κ ν
  | .done => ⟨[], []⟩
  | .read key next =>
    let rest := (next (s key)).exec s
    ⟨(key, s key) :: rest.reads, rest.writes⟩
  | .write key value next =>
    let rest := next.exec s
    ⟨rest.reads, (key, value) :: rest.writes⟩

/-- **A trace depends on the keys that were read.** -/
theorem exec_congr {s s' : Store κ ν} : ∀ (p : Program κ ν),
    (∀ r ∈ (p.exec s).reads, s' r.1 = s r.1) → p.exec s' = p.exec s
  | .done, _ => rfl
  | .read key next, h => by
    have hkey : s' key = s key := h (key, s key) (.head _)
    have hrest : (next (s key)).exec s' = (next (s key)).exec s :=
      exec_congr (next (s key)) fun r hr => h r (.tail _ hr)
    simp only [Program.exec, hkey, hrest]
  | .write key value next, h => by
    have hrest : next.exec s' = next.exec s := exec_congr next h
    simp only [Program.exec, hrest]

/-! ### Writes -/

variable [DecidableEq κ]

def install (s : Store κ ν) : List (κ × Option ν) → Store κ ν
  | [] => s
  | w :: ws => install (Function.update s w.1 w.2) ws

theorem install_of_not_written {key : κ} : ∀ (ws : List (κ × Option ν)) (s : Store κ ν),
    (∀ w ∈ ws, w.1 ≠ key) → install s ws key = s key
  | [], _, _ => rfl
  | w :: ws, s, h => by
    have hkey : key ≠ w.1 := (h w (.head _)).symm
    have hrest := install_of_not_written ws (Function.update s w.1 w.2)
      fun w' hw' => h w' (.tail _ hw')
    rw [install, hrest, Function.update_of_ne hkey]

def installAll (s : Store κ ν) : List (Trace κ ν) → Store κ ν
  | [] => s
  | t :: ts => installAll (install s t.writes) ts

theorem installAll_append : ∀ (ts us : List (Trace κ ν)) (s : Store κ ν),
    installAll s (ts ++ us) = installAll (installAll s ts) us
  | [], _, _ => rfl
  | t :: ts, us, s => installAll_append ts us (install s t.writes)

theorem installAll_of_not_written {key : κ} : ∀ (ts : List (Trace κ ν)) (s : Store κ ν),
    (∀ t ∈ ts, ∀ w ∈ t.writes, w.1 ≠ key) → installAll s ts key = s key
  | [], _, _ => rfl
  | t :: ts, s, h => by
    rw [installAll, installAll_of_not_written ts _ fun u hu => h u (List.mem_cons_of_mem _ hu)]
    exact install_of_not_written t.writes s (h t (.head _))

/-! ### Serial execution -/

def serial (s : Store κ ν) : List (Program κ ν) → List (Trace κ ν) × Store κ ν
  | [] => ([], s)
  | p :: ps =>
    let rest := serial (install s (p.exec s).writes) ps
    (p.exec s :: rest.1, rest.2)

/-- **One more program runs in the store that the others left.** -/
theorem serial_append_one (p : Program κ ν) : ∀ (ps : List (Program κ ν)) (s : Store κ ν),
    serial s (ps ++ [p]) = ((serial s ps).1 ++ [p.exec (serial s ps).2],
        install (serial s ps).2 (p.exec (serial s ps).2).writes)
  | [], _ => rfl
  | q :: ps, s => by
    have hrest := serial_append_one p ps (install s (q.exec s).writes)
    simp only [List.cons_append, serial, hrest]

end Medulla.Library.Serial
