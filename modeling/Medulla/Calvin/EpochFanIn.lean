import Mathlib.Data.List.Sort
import Mathlib.Data.Nat.Bitwise
import Mathlib.Data.Prod.Lex
import Medulla.Library.OrderedTable
import Medulla.Library.Transaction

/-! # The fan-in of an epoch

Every node lists the transactions it accepted for an epoch. The lists are merged by local position,
node and transaction id, and the place of a transaction in the merge is packed below the epoch number
into one sequence number.

* one step: `Placed.step`;
* every run: `positions_distinct_and_stable`. -/

namespace Medulla.Calvin.EpochFanIn

open Library.OrderedTable Library.Transaction

variable {seq : ℕ}

/-! ### The registry -/

/-- A transaction as its node registered it for an epoch. -/
structure NodeInput where
  node : ℕ
  localSeq : ℕ
  txnId : String

/-- A transaction with its place in the merged epoch. -/
structure SequencedInput where
  globalSeq : ℕ
  originNode : ℕ
  localSeq : ℕ
  txnId : String

/-- The merged order of an epoch. -/
structure EpochBatch where
  epoch : ℕ
  inputs : List SequencedInput

/-- The sort key: the number at its node, then the node, then the transaction. -/
def NodeInput.key (i : NodeInput) : ℕ ×ₗ ℕ ×ₗ String := toLex (i.localSeq, toLex (i.node, i.txnId))

/-- The inputs of all nodes in one order. -/
def merge (all : List NodeInput) : List NodeInput := all.insertionSort fun a b => a.key ≤ b.key

/-- The inputs of an epoch, node after node. -/
def flatten (perNode : Table ℕ (List NodeInput)) : List NodeInput := perNode.rows.flatMap Prod.snd

/-- Merges the inputs of an epoch and numbers them from 1. -/
def epochFanIn (epoch : ℕ) (perNode : Table ℕ (List NodeInput)) : EpochBatch where
  epoch := epoch
  inputs := (merge (flatten perNode)).mapIdx fun i ni => ⟨i + 1, ni.node, ni.localSeq, ni.txnId⟩

/-- The epoch of an attempt: each restart moves to the next one. -/
def epochForRestart (baseEpoch attempts : ℕ) : ℕ := baseEpoch + (attempts - 1)

def u32Max : ℕ := 2 ^ 32 - 1

/-- The epoch above the position; either too large to pack is a panic. -/
def epochPackedSeq (epoch position : ℕ) : Except String ℕ :=
  if u32Max < epoch then
    .error ("MEDULLA-349: epoch " ++ toString epoch ++ " exceeds the 32-bit packing capacity")
  else if u32Max < position then
    .error ("MEDULLA-349: epoch position " ++ toString position ++
      " exceeds the 32-bit packing capacity")
  else .ok (epoch <<< 32 ||| position)

/-- What each node has registered for each epoch. -/
structure EpochFanInRegistry where
  perEpoch : Table ℕ (Table ℕ (List NodeInput))

/-- Nothing is registered. -/
def EpochFanInRegistry.new : EpochFanInRegistry := ⟨.empty⟩

/-- What is registered for an epoch now. -/
def snapshot (reg : EpochFanInRegistry) (epoch : ℕ) : Table ℕ (List NodeInput) :=
  (reg.perEpoch.get epoch).getD .empty

/-- The input a registration appends: numbered after those of its node. -/
def nextInput (reg : EpochFanInRegistry) (node epoch : ℕ) (txnId : String) : NodeInput :=
  ⟨node, (((snapshot reg epoch).get node).getD []).length + 1, txnId⟩

/-- Registers a transaction at its node for an epoch. -/
def registerLocal (reg : EpochFanInRegistry) (node epoch : ℕ) (txnId : String) :
    EpochFanInRegistry × NodeInput :=
  let inputs := ((snapshot reg epoch).get node).getD []
  (⟨reg.perEpoch.insert epoch
      ((snapshot reg epoch).insert node (inputs ++ [nextInput reg node epoch txnId]))⟩,
    nextInput reg node epoch txnId)

/-- Merges an epoch as it is registered now. -/
def fanIn (reg : EpochFanInRegistry) (epoch : ℕ) : EpochBatch := epochFanIn epoch (snapshot reg epoch)

/-- The packed sequence number of a transaction in an epoch, if it is registered there. -/
def packedSeqFor (reg : EpochFanInRegistry) (epoch : ℕ) (txnId : String) : Except String (Option ℕ) :=
  match (fanIn reg epoch).inputs.findIdx? fun si => si.txnId = txnId with
  | some pos => (epochPackedSeq epoch (pos + 1)).map some
  | none => .ok none

/-! ### Calls -/

inductive Phase
  | idle
  | registered (epoch : ℕ)
  | locked (epoch seq : ℕ)
  | finished

/-- A call of the acquisition with its restarts. -/
structure Call where
  node : ℕ
  baseEpoch : ℕ
  maxRestarts : ℕ
  attempts : ℕ
  phase : Phase

/-- The registry, the calls, and the places they were told. -/
structure World where
  reg : EpochFanInRegistry
  calls : Table String Call
  answers : Table (ℕ ×ₗ String) ℕ

/-- Nothing is registered, called or answered. -/
def World.initial : World := ⟨.new, .empty, .empty⟩

inductive Event
  | call (txnId : String) (node baseEpoch maxRestarts : ℕ)
  | register (txnId : String)
  | ask (txnId : String)
  | conclude (txnId : String) (valid : Bool)

/-- A call enters a phase. -/
def World.put (w : World) (txnId : String) (c : Call) (phase : Phase) : World :=
  { w with calls := w.calls.insert txnId { c with phase } }

/-- The next attempt registers for its epoch. -/
def registerAttempt (w : World) (txnId : String) (c : Call) : World :=
  let epoch := epochForRestart c.baseEpoch (c.attempts + 1)
  { w with reg := (registerLocal w.reg c.node epoch txnId).1 }.put txnId
    { c with attempts := c.attempts + 1 } (.registered epoch)

/-- A call asks for its place, packed with the epoch. -/
def askSeq (w : World) (txnId : String) (c : Call) (epoch : ℕ) : World :=
  match packedSeqFor w.reg epoch txnId with
  | .ok (some seq) =>
    { w with answers := w.answers.insert (toLex (epoch, txnId)) seq }.put txnId c (.locked epoch seq)
  | .ok none => w.put txnId c .finished
  | .error _ => w.put txnId c .finished

/-- Stop when the prediction was valid or no restart is left, else start again. -/
def conclude (w : World) (txnId : String) (c : Call) (valid : Bool) : World :=
  w.put txnId c (if valid || decide (c.attempts > c.maxRestarts) then .finished else .idle)

/-- One step of one call. -/
def step (w : World) : Event → World
  | .call txnId node baseEpoch maxRestarts =>
    match w.calls.get txnId with
    | none => w.put txnId ⟨node, baseEpoch, maxRestarts, 0, .idle⟩ .idle
    | some _ => w
  | .register txnId =>
    match w.calls.get txnId with
    | some ⟨node, base, m, n, .idle⟩ => registerAttempt w txnId ⟨node, base, m, n, .idle⟩
    | _ => w
  | .ask txnId =>
    match w.calls.get txnId with
    | some ⟨node, base, m, n, .registered epoch⟩ =>
      askSeq w txnId ⟨node, base, m, n, .registered epoch⟩ epoch
    | _ => w
  | .conclude txnId valid =>
    match w.calls.get txnId with
    | some ⟨node, base, m, n, .locked epoch seq⟩ =>
      conclude w txnId ⟨node, base, m, n, .locked epoch seq⟩ valid
    | _ => w

/-! ### Places -/

/-- All inputs registered for an epoch. -/
def entries (reg : EpochFanInRegistry) (epoch : ℕ) : List NodeInput := flatten (snapshot reg epoch)

section
variable {reg : EpochFanInRegistry} {epoch node : ℕ} {txnId t u : String} {x y : NodeInput}

theorem perm_merge (all : List NodeInput) : (merge all).Perm all := List.perm_insertionSort ..

theorem txnId_eq_of_key (h : x.key = y.key) : x.txnId = y.txnId :=
  congrArg (fun k => (ofLex (ofLex k).2).2) h

theorem findIdx?_of_sorted : ∀ {l : List NodeInput}, (l.Pairwise fun a b => a.key ≤ b.key) →
    (l.map NodeInput.txnId).Nodup → y ∈ l →
      (l.findIdx? fun i => i.txnId = y.txnId) = some (l.countP fun i => i.key < y.key)
  | [], _, _, hy => absurd hy List.not_mem_nil
  | z :: l, hsorted, hnodup, hy => by
    rw [List.pairwise_cons] at hsorted
    rw [List.map_cons, List.nodup_cons] at hnodup
    rw [List.findIdx?_cons]
    rcases List.mem_cons.mp hy with rfl | hy
    · have hzero : l.countP (fun i => decide (i.key < y.key)) = 0 := by
        rw [List.countP_eq_zero]
        intro i hi
        simpa using hsorted.1 i hi
      simp [hzero]
    · have hid : z.txnId ≠ y.txnId := fun heq => hnodup.1 (heq ▸ List.mem_map_of_mem hy)
      have hlt : z.key < y.key :=
        lt_of_le_of_ne (hsorted.1 y hy) fun heq => hid (txnId_eq_of_key heq)
      rw [findIdx?_of_sorted hsorted.2 hnodup.2 hy]
      simp [hid, hlt]

/-- **The place of an input in the merge** is the number of inputs that sort before it. -/
theorem findIdx?_merge {all : List NodeInput} (hnodup : (all.map NodeInput.txnId).Nodup)
    (hy : y ∈ all) : ((merge all).findIdx? fun i => i.txnId = y.txnId) =
      some (all.countP fun i => i.key < y.key) := by
  have hperm := perm_merge all
  have hsorted : (merge all).Pairwise fun a b => a.key ≤ b.key := List.pairwise_insertionSort _ all
  rw [findIdx?_of_sorted hsorted ((hperm.map NodeInput.txnId).nodup_iff.mpr hnodup)
    (hperm.mem_iff.mpr hy)]
  exact congrArg some (hperm.countP_eq _)

theorem findIdx?_mapIdx {α β : Type*} {p : β → Bool} {q : α → Bool} :
    ∀ {l : List α} {f : ℕ → α → β}, (∀ i a, p (f i a) = q a) → (l.mapIdx f).findIdx? p = l.findIdx? q
  | [], _, _ => rfl
  | a :: l, f, h => by
    rw [List.mapIdx_cons, List.findIdx?_cons, List.findIdx?_cons, h,
      findIdx?_mapIdx fun i a => h (i + 1) a]

theorem findIdx?_fanIn : ((fanIn reg epoch).inputs.findIdx? fun si => si.txnId = txnId) =
    (merge (entries reg epoch)).findIdx? fun i => i.txnId = txnId :=
  findIdx?_mapIdx fun _ _ => rfl

theorem packedSeqFor_of_mem (hnodup : ((entries reg epoch).map NodeInput.txnId).Nodup)
    (hy : y ∈ entries reg epoch) : packedSeqFor reg epoch y.txnId =
      (epochPackedSeq epoch ((entries reg epoch).countP (fun i => i.key < y.key) + 1)).map some := by
  unfold packedSeqFor
  rw [findIdx?_fanIn, findIdx?_merge hnodup hy]

theorem exists_of_packedSeqFor (h : packedSeqFor reg epoch t = .ok (some seq)) :
    ∃ y ∈ entries reg epoch, y.txnId = t := by
  unfold packedSeqFor at h
  rw [findIdx?_fanIn] at h
  cases hidx : (merge (entries reg epoch)).findIdx? fun i => i.txnId = t with
  | none =>
    rw [hidx] at h
    cases h
  | some pos =>
    obtain ⟨hpos, hid, -⟩ := List.findIdx?_eq_some_iff_getElem.mp hidx
    refine ⟨_, (perm_merge _).mem_iff.mp (List.getElem_mem hpos), ?_⟩
    simpa using hid

theorem epochPackedSeq_eq_ok {position : ℕ} : epochPackedSeq epoch position = .ok seq ↔
    epoch ≤ u32Max ∧ position ≤ u32Max ∧ epoch <<< 32 + position = seq := by
  unfold epochPackedSeq
  split_ifs with hepoch hposition
  · simp [Nat.not_le.mpr hepoch]
  · simp [Nat.not_le.mpr hposition]
  · have hlt : position < 2 ^ 32 := by
      unfold u32Max at hposition
      omega
    rw [← Nat.shiftLeft_add_eq_or_of_lt hlt]
    simp [Nat.not_lt.mp hepoch, Nat.not_lt.mp hposition]

theorem map_some_eq_ok {r : Except String ℕ} : r.map some = .ok (some seq) ↔ r = .ok seq := by
  cases r with
  | error e => simp [Except.map]
  | ok v => simp [Except.map]

/-- **Two transactions of one epoch have different numbers.** -/
theorem packedSeqFor_inj (hnodup : ((entries reg epoch).map NodeInput.txnId).Nodup)
    (ht : packedSeqFor reg epoch t = .ok (some seq))
    (hu : packedSeqFor reg epoch u = .ok (some seq)) : t = u := by
  obtain ⟨x, hx, rfl⟩ := exists_of_packedSeqFor ht
  obtain ⟨y, hy, rfl⟩ := exists_of_packedSeqFor hu
  rw [packedSeqFor_of_mem hnodup hx, map_some_eq_ok, epochPackedSeq_eq_ok] at ht
  rw [packedSeqFor_of_mem hnodup hy, map_some_eq_ok, epochPackedSeq_eq_ok] at hu
  have hcount : (entries reg epoch).countP (fun i => i.key < x.key) =
      (entries reg epoch).countP (fun i => i.key < y.key) := by omega
  have hfind := findIdx?_merge hnodup hx
  rw [hcount] at hfind
  obtain ⟨hpos, hid, -⟩ := List.findIdx?_eq_some_iff_getElem.mp hfind
  obtain ⟨_, hid', -⟩ := List.findIdx?_eq_some_iff_getElem.mp (findIdx?_merge hnodup hy)
  simp only [decide_eq_true_iff] at hid hid'
  rw [← hid, hid']

/-! ### Registration -/

theorem perm_flatMap_insertRow : ∀ {rows : List (ℕ × List NodeInput)},
    (rows.Pairwise fun a b => a.1 < b.1) →
    ((insertRow node ((lookupRow node rows).getD [] ++ [x]) rows).flatMap Prod.snd).Perm
      (x :: rows.flatMap Prod.snd)
  | [], _ => by simp [insertRow, lookupRow]
  | (k, inputs) :: rows, hsorted => by
    rw [List.pairwise_cons] at hsorted
    unfold insertRow lookupRow
    by_cases hk : k = node
    · subst hk
      simp only [Nat.lt_irrefl, if_true, if_false, List.flatMap_cons]
      rw [List.append_assoc]
      exact List.perm_middle
    · simp only [hk]
      by_cases hlt : node < k
      · rw [if_pos hlt, lookupRow_eq_none fun r hr => (Nat.lt_trans hlt (hsorted.1 r hr)).ne']
        simp
      · rw [if_neg hlt]
        exact ((perm_flatMap_insertRow hsorted.2).append_left inputs).trans List.perm_middle

theorem entries_registerLocal (reg : EpochFanInRegistry) (node epoch : ℕ) (txnId : String) (e : ℕ) :
    (entries (registerLocal reg node epoch txnId).1 e).Perm
      (if e = epoch then nextInput reg node epoch txnId :: entries reg epoch else entries reg e) := by
  unfold entries snapshot registerLocal
  simp only [Table.get_insert]
  by_cases he : e = epoch
  · simp only [he]
    exact perm_flatMap_insertRow (Table.sorted _)
  · simp only [he]
    exact List.Perm.refl _

theorem packedSeqFor_registerLocal {e : ℕ}
    (hnodup : ((entries (registerLocal reg node epoch txnId).1 e).map NodeInput.txnId).Nodup)
    (hold : ((entries reg e).map NodeInput.txnId).Nodup) (hy : y ∈ entries reg e)
    (hbehind : e = epoch → y.key < (nextInput reg node epoch txnId).key) :
    packedSeqFor (registerLocal reg node epoch txnId).1 e y.txnId = packedSeqFor reg e y.txnId := by
  have hperm := entries_registerLocal reg node epoch txnId e
  have hmem : y ∈ entries (registerLocal reg node epoch txnId).1 e := by
    rw [hperm.mem_iff]
    split_ifs with he
    · exact .tail _ (he ▸ hy)
    · exact hy
  rw [packedSeqFor_of_mem hnodup hmem, packedSeqFor_of_mem hold hy, hperm.countP_eq]
  split_ifs with he
  · rw [List.countP_cons_of_neg (by simpa using (hbehind he).le), he]
  · rfl

end

/-! ### Runs -/

/-- The epoch and input an event is about to register. -/
def registering (w : World) : Event → Option (ℕ × NodeInput)
  | .register txnId =>
    match w.calls.get txnId with
    | some ⟨node, base, _, n, .idle⟩ =>
      some (epochForRestart base (n + 1), nextInput w.reg node (epochForRestart base (n + 1)) txnId)
    | _ => none
  | _ => none

/-- A registration sorts behind every input of its epoch whose number was handed out. -/
def Behind (w : World) (e : Event) : Prop :=
  ∀ r ∈ registering w e, ∀ y ∈ entries w.reg r.1,
    (w.answers.get (toLex (r.1, y.txnId))).isSome = true → y.key < r.2.key

instance (w : World) (e : Event) : Decidable (Behind w e) :=
  inferInstanceAs (Decidable (∀ r ∈ registering w e, _))

/-- Two transactions of one epoch were not given the same number. -/
def Distinct (w : World) : Prop :=
  ∀ epoch t u seq, t ≠ u → w.answers.get (toLex (epoch, t)) = some seq →
    w.answers.get (toLex (epoch, u)) ≠ some seq

/-- A transaction that asks again is given the number it was given. -/
def Stable (w : World) : Prop :=
  ∀ epoch t seq, w.answers.get (toLex (epoch, t)) = some seq →
    packedSeqFor w.reg epoch t = .ok (some seq)

/-- Transactions are registered once for an epoch, by calls that are past it, and the numbers handed
out are stable. -/
structure Placed (w : World) : Prop where
  nodup : ∀ epoch, ((entries w.reg epoch).map NodeInput.txnId).Nodup
  past : ∀ epoch, ∀ y ∈ entries w.reg epoch,
    ∃ c, w.calls.get y.txnId = some c ∧ epoch < c.baseEpoch + c.attempts
  stable : Stable w

section
variable {w : World} {t : String} {c : Call} {phase : Phase}

theorem placed_initial : Placed .initial where
  nodup := fun _ => List.Pairwise.nil
  past := fun _ _ h => absurd h List.not_mem_nil
  stable := fun _ _ _ h => by cases h

theorem Placed.distinct (h : Placed w) : Distinct w := by
  intro epoch t u seq htu ht hu
  exact htu (packedSeqFor_inj (h.nodup epoch) (h.stable epoch t seq ht) (h.stable epoch u seq hu))

theorem Placed.put (h : Placed w)
    (hcall : ∀ c₀, w.calls.get t = some c₀ →
      c₀.baseEpoch + c₀.attempts ≤ c.baseEpoch + c.attempts) : Placed (w.put t c phase) where
  nodup := h.nodup
  past := fun epoch y hy => by
    obtain ⟨c₀, hc₀, hlt⟩ := h.past epoch y hy
    unfold World.put
    simp only [Table.get_insert]
    by_cases hyt : y.txnId = t
    · rw [if_pos hyt]
      rw [hyt] at hc₀
      exact ⟨_, rfl, Nat.lt_of_lt_of_le hlt (hcall c₀ hc₀)⟩
    · rw [if_neg hyt]
      exact ⟨c₀, hc₀, hlt⟩
  stable := h.stable

theorem Placed.put_same (h : Placed w) (hget : w.calls.get t = some c) : Placed (w.put t c phase) := by
  refine h.put fun c₀ hc₀ => ?_
  rw [hget] at hc₀
  rw [Option.some.inj hc₀]

theorem Placed.registerAttempt (h : Placed w) (hget : w.calls.get t = some c)
    (hbehind : ∀ y ∈ entries w.reg (epochForRestart c.baseEpoch (c.attempts + 1)),
      (w.answers.get (toLex (epochForRestart c.baseEpoch (c.attempts + 1), y.txnId))).isSome = true →
        y.key < (nextInput w.reg c.node (epochForRestart c.baseEpoch (c.attempts + 1)) t).key) :
    Placed (registerAttempt w t c) := by
  have hepoch : epochForRestart c.baseEpoch (c.attempts + 1) = c.baseEpoch + c.attempts := by
    simp [epochForRestart]
  unfold EpochFanIn.registerAttempt
  simp only [hepoch] at hbehind ⊢
  generalize hx : nextInput w.reg c.node (c.baseEpoch + c.attempts) t = x at hbehind
  have hid : x.txnId = t := by rw [← hx]; rfl
  have hperm : ∀ e, (entries (registerLocal w.reg c.node (c.baseEpoch + c.attempts) t).1 e).Perm
      (if e = c.baseEpoch + c.attempts then x :: entries w.reg (c.baseEpoch + c.attempts)
        else entries w.reg e) := fun e => hx ▸ entries_registerLocal _ _ _ _ e
  have hfresh : ∀ y ∈ entries w.reg (c.baseEpoch + c.attempts), y.txnId ≠ t := by
    intro y hy heq
    obtain ⟨c₀, hc₀, hlt⟩ := h.past _ y hy
    rw [heq, hget] at hc₀
    rw [← Option.some.inj hc₀] at hlt
    exact Nat.lt_irrefl _ hlt
  have hnodup : ∀ e, ((entries (registerLocal w.reg c.node (c.baseEpoch + c.attempts) t).1 e).map
      NodeInput.txnId).Nodup := by
    intro e
    rw [((hperm e).map NodeInput.txnId).nodup_iff]
    split_ifs with he
    · rw [List.map_cons, List.nodup_cons]
      refine ⟨fun hmem => ?_, h.nodup _⟩
      obtain ⟨y, hy, heq⟩ := List.mem_map.mp hmem
      exact hfresh y hy (heq.trans hid)
    · exact h.nodup e
  refine ⟨hnodup, fun e y hy => ?_, fun e u seq hu => ?_⟩
  · unfold World.put
    simp only [Table.get_insert]
    have hy' := (hperm e).mem_iff.mp hy
    by_cases hyt : y.txnId = t
    · rw [if_pos hyt]
      refine ⟨_, rfl, ?_⟩
      split_ifs at hy' with he
      · rw [he]
        exact Nat.lt_succ_self _
      · obtain ⟨c₀, hc₀, hlt⟩ := h.past e y hy'
        rw [hyt, hget] at hc₀
        rw [← Option.some.inj hc₀] at hlt
        exact Nat.lt_succ_of_lt hlt
    · rw [if_neg hyt]
      split_ifs at hy' with he
      · rcases List.mem_cons.mp hy' with rfl | hy'
        · exact absurd hid hyt
        · rw [he]
          exact h.past _ y hy'
      · exact h.past e y hy'
  · have hold := h.stable e u seq hu
    obtain ⟨y, hy, rfl⟩ := exists_of_packedSeqFor hold
    refine (packedSeqFor_registerLocal (hnodup e) (h.nodup e) hy fun he => ?_).trans hold
    subst he
    rw [hx]
    exact hbehind y hy (by rw [show w.answers.get _ = some seq from hu]; rfl)

theorem Placed.askSeq {epoch : ℕ} (h : Placed w) (hget : w.calls.get t = some c) :
    Placed (askSeq w t c epoch) := by
  unfold EpochFanIn.askSeq
  split
  · rename_i seq hseq
    have hanswered : Placed { w with answers := w.answers.insert (toLex (epoch, t)) seq } := by
      refine ⟨h.nodup, h.past, fun e u s hu => ?_⟩
      simp only [Table.get_insert] at hu
      split_ifs at hu with heq
      · obtain ⟨rfl, rfl⟩ := Prod.mk.inj (toLex.injective heq)
        rw [← Option.some.inj hu]
        exact hseq
      · exact h.stable e u s hu
    exact hanswered.put_same hget
  · exact h.put_same hget
  · exact h.put_same hget

/-- **A step keeps the places handed out**, when a registration sorts behind them. -/
theorem Placed.step (h : Placed w) (e : Event) (hbehind : Behind w e) : Placed (step w e) := by
  cases e with
  | call t node baseEpoch maxRestarts =>
    simp only [EpochFanIn.step]
    cases hget : w.calls.get t with
    | some c => exact h
    | none =>
      refine h.put fun c₀ hc₀ => ?_
      rw [hget] at hc₀
      cases hc₀
  | register t =>
    simp only [EpochFanIn.step]
    split
    · rename_i node base m n hget
      have hreg : registering w (.register t) = some (epochForRestart base (n + 1),
          nextInput w.reg node (epochForRestart base (n + 1)) t) := by
        simp only [registering, hget]
      exact h.registerAttempt hget (hbehind _ hreg)
    · exact h
  | ask t =>
    simp only [EpochFanIn.step]
    split
    · rename_i node base m n epoch hget
      exact h.askSeq hget
    · exact h
  | conclude t valid =>
    simp only [EpochFanIn.step]
    split
    · rename_i node base m n epoch seq hget
      exact h.put_same hget
    · exact h

end

/-- **Places are distinct and stable in every run whose registrations sort behind them.** -/
theorem positions_distinct_and_stable (events : List Event)
    (h : Along step Behind .initial events) :
    Distinct (run step .initial events) ∧ Stable (run step .initial events) := by
  have hplaced := run_invariant_along (fun _ e hbehind hs => Placed.step hs e hbehind) events _ h
    placed_initial
  exact ⟨hplaced.distinct, hplaced.stable⟩

/-- A call that registers for epoch 0 and asks for its place. -/
def acquireFirst (txnId : String) (node : ℕ) : List Event :=
  [.call txnId node 0 0, .register txnId, .ask txnId]

theorem nodes_in_turn : Along step Behind .initial (acquireFirst "a" 1 ++ acquireFirst "b" 2) ∧
      (run step .initial (acquireFirst "a" 1 ++ acquireFirst "b" 2)).answers.get (toLex (0, "b")) =
        some 2 ∧
      Distinct (run step .initial (acquireFirst "a" 1 ++ acquireFirst "b" 2)) :=
  ⟨by decide +kernel, by decide +kernel,
    (positions_distinct_and_stable (acquireFirst "a" 1 ++ acquireFirst "b" 2) (by decide +kernel)).1⟩

/-- **A node with a lower number that registers later takes the first place again.** -/
theorem earlier_node_takes_place :
    ¬ ∀ events, Distinct (run step .initial events) ∧ Stable (run step .initial events) := by
  intro h
  exact (h (acquireFirst "b" 2 ++ acquireFirst "a" 1)).1 0 "b" "a" 1 (by decide) (by decide +kernel)
    (by decide +kernel)

end Medulla.Calvin.EpochFanIn
