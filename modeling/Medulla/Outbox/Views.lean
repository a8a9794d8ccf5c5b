import Medulla.Outbox.Frames
import Medulla.Outbox.Machine

/-! # The view of a consumer on the ledger

`view` reads the machine state of one consumer off the delivery tables. -/

namespace Medulla.Outbox.Views

open Library.Checked Types.Records Mutation.State Outbox.Index Rows Claim
open Rewind Machine
open Library.OrderedTable (Table)

/-! ### Views -/

def rowOf (consumer : String) (k : DeliveryKey) : Option OutboxKey :=
  if k.consumer = consumer then some k.row else none

theorem row_lt_of_key_lt {consumer : String} (i j : OutboxKey)
    (h : (⟨consumer, i⟩ : DeliveryKey) < ⟨consumer, j⟩) : i < j := by
  change toLex (consumer, i) < toLex (consumer, j) at h
  simpa [Prod.Lex.toLex_lt_toLex] using h

theorem key_of_rowOf {consumer : String} (k : DeliveryKey) (j : OutboxKey)
    (h : rowOf consumer k = some j) : (⟨consumer, j⟩ : DeliveryKey) = k := by
  unfold rowOf at h
  split_ifs at h with hk
  rw [← hk, ← Option.some.inj h]

def deliveriesOf (l : Ledger) (consumer : String) : Table OutboxKey OutboxDelivery :=
  l.deliveries.slice (fun k => ⟨consumer, k⟩) (rowOf consumer) row_lt_of_key_lt key_of_rowOf

def indexOf (l : Ledger) (consumer : String) : Set OutboxPosition :=
  { p | ∃ topic, l.consumers.get consumer = some topic ∧ positionExists l topic p = true }

def view (l : Ledger) (consumer : String) : View where
  index := indexOf l consumer
  rows := deliveriesOf l consumer
  inflight := ((l.fairness.get consumer).map OutboxConsumerState.inflight).getD 0
  resolvedThrough := (l.claimCursors.get consumer).bind OutboxClaimCursor.resolvedThrough
  rewinding := l.rewindCursors.get consumer
  pruning := l.pruneCursors.get consumer

section
variable {l l' : Ledger} {consumer other topic : String}

theorem deliveriesOf_get (l : Ledger) (consumer : String) (k : OutboxKey) :
    (deliveriesOf l consumer).get k = l.deliveries.get ⟨consumer, k⟩ :=
  Table.get_slice row_lt_of_key_lt key_of_rowOf (fun _ => by simp [rowOf]) l.deliveries k

theorem view_get (l : Ledger) (consumer : String) (p : OutboxPosition) :
    (view l consumer).rows.get p.row = deliveryAt l consumer p :=
  deliveriesOf_get l consumer p.row

theorem deliveryAt_putDelivery (d : OutboxDelivery) (p : OutboxPosition) :
    deliveryAt (putDelivery consumer d l) consumer p =
      if p.row = d.position.row then some d else deliveryAt l consumer p := by
  simp only [deliveryAt, putDelivery, Table.get_insert, DeliveryKey.mk.injEq, true_and]

theorem mem_indexOf (h : l.consumers.get consumer = some topic) {p : OutboxPosition} :
    p ∈ indexOf l consumer ↔ positionExists l topic p = true := by
  constructor
  · rintro ⟨t, ht, hp⟩
    rw [h] at ht
    rwa [Option.some.inj ht]
  · intro hp
    exact ⟨topic, h, hp⟩

/-! ### One table write -/

theorem deliveriesOf_putDelivery (d : OutboxDelivery) :
    deliveriesOf (putDelivery consumer d l) consumer =
      (deliveriesOf l consumer).insert d.position.row d := by
  refine Table.ext_get fun k => ?_
  rw [deliveriesOf_get, Table.get_insert, deliveriesOf_get]
  by_cases hk : k = d.position.row
  · simp [putDelivery, hk]
  · simp [putDelivery, Table.get_insert]

theorem deliveriesOf_putDelivery_ne (d : OutboxDelivery) (h : other ≠ consumer) :
    deliveriesOf (putDelivery consumer d l) other = deliveriesOf l other := by
  refine Table.ext_get fun k => ?_
  rw [deliveriesOf_get, deliveriesOf_get]
  simp only [putDelivery, Table.get_insert, DeliveryKey.mk.injEq, h, false_and, if_false]

theorem deliveriesOf_removeDelivery_ne (k : OutboxKey) (h : other ≠ consumer) :
    deliveriesOf (removeDelivery consumer k l) other = deliveriesOf l other := by
  refine Table.ext_get fun j => ?_
  rw [deliveriesOf_get, deliveriesOf_get]
  simp only [removeDelivery, Table.get_remove, DeliveryKey.mk.injEq, h, false_and, if_false]

theorem view_putDelivery (d : OutboxDelivery) :
    view (putDelivery consumer d l) consumer = (view l consumer).put d :=
  View.ext rfl (deliveriesOf_putDelivery d) rfl rfl rfl rfl

theorem view_writeClaimCursor (cursor : OutboxClaimCursor) :
    view (writeClaimCursor consumer cursor l) consumer =
      { view l consumer with resolvedThrough := cursor.resolvedThrough } := by
  refine View.ext rfl rfl rfl ?_ rfl rfl
  simp [view, writeClaimCursor]

theorem view_writeConsumerState (state : OutboxConsumerState) :
    view (writeConsumerState consumer state l) consumer =
      { view l consumer with inflight := state.inflight } := by
  refine View.ext rfl rfl ?_ rfl rfl rfl
  simp [view, writeConsumerState]

theorem view_rewindCursors (cursors : Table String RewindCursor) :
    view { l with rewindCursors := cursors } consumer =
      { view l consumer with rewinding := cursors.get consumer } := rfl

theorem view_pruneCursors (cursor : PruneCursor) :
    view { l with pruneCursors := l.pruneCursors.insert consumer cursor } consumer =
      { view l consumer with pruning := some cursor } :=
  View.ext rfl rfl rfl rfl rfl (Table.get_insert_self _ _ _)

def Elsewhere (consumer : String) (l l' : Ledger) : Prop :=
  ∀ other, other ≠ consumer → view l' other = view l other

theorem Elsewhere.refl (consumer : String) (l : Ledger) : Elsewhere consumer l l := fun _ _ => rfl

theorem Elsewhere.trans {l'' : Ledger} (h : Elsewhere consumer l l')
    (h' : Elsewhere consumer l' l'') : Elsewhere consumer l l'' :=
  fun other hne => (h' other hne).trans (h other hne)

theorem elsewhere_putDelivery (d : OutboxDelivery) :
    Elsewhere consumer l (putDelivery consumer d l) :=
  fun _ hne => View.ext rfl (deliveriesOf_putDelivery_ne d hne) rfl rfl rfl rfl

theorem elsewhere_removeDelivery (k : OutboxKey) :
    Elsewhere consumer l (removeDelivery consumer k l) :=
  fun _ hne => View.ext rfl (deliveriesOf_removeDelivery_ne k hne) rfl rfl rfl rfl

theorem elsewhere_writeClaimCursor (cursor : OutboxClaimCursor) :
    Elsewhere consumer l (writeClaimCursor consumer cursor l) := by
  intro other hne
  refine View.ext rfl rfl rfl ?_ rfl rfl
  simp [view, writeClaimCursor, Table.get_insert_of_ne _ _ hne]

theorem elsewhere_writeConsumerState (state : OutboxConsumerState) :
    Elsewhere consumer l (writeConsumerState consumer state l) := by
  intro other hne
  refine View.ext rfl rfl ?_ rfl rfl rfl
  simp [view, writeConsumerState, Table.get_insert_of_ne _ _ hne]

theorem elsewhere_pruneCursors (cursor : PruneCursor) : Elsewhere consumer l
      { l with pruneCursors := l.pruneCursors.insert consumer cursor } := by
  intro other hne
  refine View.ext rfl rfl rfl rfl rfl ?_
  exact Table.get_insert_of_ne _ _ hne

theorem elsewhere_rewindCursors {cursors : Table String RewindCursor}
    (h : ∀ other, other ≠ consumer → cursors.get other = l.rewindCursors.get other) :
    Elsewhere consumer l { l with rewindCursors := cursors } :=
  fun other hne => View.ext rfl rfl rfl rfl (h other hne) rfl

theorem elsewhere_consumers :
    Elsewhere consumer l { l with consumers := l.consumers.insert consumer topic } := by
  intro other hne
  simp only [view, indexOf, Table.get_insert_of_ne _ _ hne]
  rfl

theorem zeroLeases_frame : ∀ (ds : List OutboxDelivery) (l : Ledger), zeroLeases consumer ds l =
      { l with deliveries := (zeroLeases consumer ds l).deliveries }
  | [], _ => rfl
  | d :: ds, l => by
    rw [zeroLeases, zeroLeases_frame ds]
    rfl

theorem removeDeliveries_frame :
    ∀ (ks : List OutboxKey) (l : Ledger), removeDeliveries consumer ks l =
      { l with deliveries := (removeDeliveries consumer ks l).deliveries }
  | [], _ => rfl
  | k :: ks, l => by
    rw [removeDeliveries, removeDeliveries_frame ks]
    rfl

theorem deleteDeliveries_frame :
    ∀ (ps : List OutboxPosition) (n : ℕ) (l : Ledger), (deleteDeliveries consumer ps n l).2 =
      { l with deliveries := (deleteDeliveries consumer ps n l).2.deliveries }
  | [], _, _ => rfl
  | p :: ps, n, l => by
    unfold deleteDeliveries
    split_ifs
    · rw [deleteDeliveries_frame ps]
      rfl
    · exact deleteDeliveries_frame ps n l

theorem elsewhere_zeroLeases :
    ∀ (ds : List OutboxDelivery) (l : Ledger), Elsewhere consumer l (zeroLeases consumer ds l)
  | [], l => Elsewhere.refl consumer l
  | _ :: ds, _ => (elsewhere_putDelivery _).trans (elsewhere_zeroLeases ds _)

theorem elsewhere_removeDeliveries :
    ∀ (ks : List OutboxKey) (l : Ledger), Elsewhere consumer l (removeDeliveries consumer ks l)
  | [], l => Elsewhere.refl consumer l
  | _ :: ks, _ => (elsewhere_removeDelivery _).trans (elsewhere_removeDeliveries ks _)

theorem elsewhere_deleteDeliveries : ∀ (ps : List OutboxPosition) (n : ℕ) (l : Ledger),
      Elsewhere consumer l (deleteDeliveries consumer ps n l).2
  | [], _, l => Elsewhere.refl consumer l
  | p :: ps, n, l => by
    unfold deleteDeliveries
    split_ifs
    · exact (elsewhere_removeDelivery p.row).trans (elsewhere_deleteDeliveries ps _ _)
    · exact elsewhere_deleteDeliveries ps n l

/-! ### What a read says about the view -/

theorem subscribedTopic_ok (h : subscribedTopic consumer l = .ok topic) :
    l.consumers.get consumer = some topic := by
  unfold subscribedTopic at h
  simp only [bind_eq_ok, okOr_eq_ok, pure_eq_ok] at h
  obtain ⟨_, h1, _, -, rfl⟩ := h
  exact h1

theorem readClaimCursor_ok {cursor : OutboxClaimCursor}
    (h : readClaimCursor consumer l = .ok cursor) :
    cursor.consumer = consumer ∧ (view l consumer).resolvedThrough = cursor.resolvedThrough := by
  unfold readClaimCursor at h
  cases hc : l.claimCursors.get consumer with
  | none =>
    simp only [hc] at h
    rw [← Except.ok.inj h]
    exact ⟨rfl, by simp [view, hc]⟩
  | some stored =>
    simp only [hc, bind_eq_ok, require_eq_ok, pure_eq_ok] at h
    obtain ⟨_, h1, rfl⟩ := h
    exact ⟨h1, by simp [view, hc]⟩

theorem readConsumerState_ok {state : OutboxConsumerState}
    (h : readConsumerState consumer l = .ok state) :
    state.consumer = consumer ∧ (view l consumer).inflight = state.inflight ∧
      state.inflight ≤ outboxQueueCapacity := by
  unfold readConsumerState at h
  cases hf : l.fairness.get consumer with
  | none =>
    simp only [hf] at h
    rw [← Except.ok.inj h]
    exact ⟨rfl, by simp [view, hf], Nat.zero_le _⟩
  | some stored =>
    simp only [hf, bind_eq_ok, require_eq_ok, pure_eq_ok] at h
    obtain ⟨_, h1, _, h2, rfl⟩ := h
    exact ⟨h1, by simp [view, hf], h2⟩

theorem refuseIfRewindPending_ok {u : Unit} (h : refuseIfRewindPending consumer l = .ok u) :
    (view l consumer).rewinding = none := by
  unfold refuseIfRewindPending at h
  rw [require_eq_ok] at h
  exact Option.isSome_eq_false_iff.mp h |> Option.isNone_iff_eq_none.mp

end

/-! ### Scans -/

section
variable {l : Ledger} {topic : String} {after : Option OutboxPosition} {p q : OutboxPosition}

theorem mem_topicPositions : p ∈ topicPositions l topic ↔ positionExists l topic p = true := by
  unfold topicPositions positionExists
  rw [List.mem_filterMap, Option.isSome_iff_exists]
  constructor
  · rintro ⟨⟨key, u⟩, hr, hp⟩
    split_ifs at hp with ht
    refine ⟨u, Table.mem_rows.mp ?_⟩
    obtain rfl := Option.some.inj hp
    rw [← ht]
    exact hr
  · rintro ⟨u, hu⟩
    exact ⟨(⟨topic, p⟩, u), Table.mem_rows.mpr hu, by simp⟩

theorem topicPositions_sorted (l : Ledger) (topic : String) :
    (topicPositions l topic).Pairwise (· < ·) := by
  unfold topicPositions
  rw [List.pairwise_filterMap]
  refine l.topicIndex.sorted.imp fun {a b} hab => ?_
  intro x hx y hy
  split_ifs at hx with ha
  split_ifs at hy with hb
  obtain ⟨⟨t, i⟩, u⟩ := a
  subst ha hb
  obtain rfl := Option.some.inj hx
  obtain rfl := Option.some.inj hy
  exact IndexKey.lt_iff_position_lt.mp hab

theorem mem_positionsAfter :
    p ∈ positionsAfter l topic after ↔ positionExists l topic p = true ∧ ¬ Passed after p := by
  unfold positionsAfter
  rw [List.mem_filter, mem_topicPositions, not_passed_iff]

theorem positionsAfter_sorted : (positionsAfter l topic after).Pairwise (· < ·) :=
  (topicPositions_sorted l topic).filter _

theorem mem_before_of_lt {ps before rest : List OutboxPosition} {n : ℕ}
    (hsorted : ps.Pairwise (· < ·)) (hpage : ps.take n = before ++ p :: rest) (hq : q ∈ ps)
    (hlt : q < p) : q ∈ before := by
  have hps : ps = before ++ p :: (rest ++ ps.drop n) := by
    rw [← List.cons_append, ← List.append_assoc, ← hpage, List.take_append_drop]
  rw [hps] at hsorted hq
  obtain ⟨-, htail, -⟩ := List.pairwise_append.mp hsorted
  rcases List.mem_append.mp hq with hq | hq
  · exact hq
  · rcases List.mem_cons.mp hq with rfl | hq
    · exact absurd hlt (lt_irrefl _)
    · exact absurd ((List.pairwise_cons.mp htail).1 q hq) (not_lt.mpr hlt.le)

end

/-! ### Steps of one consumer -/

structure Delivers (consumer : String) (clock : ℕ) (es : List Event) (l l' : Ledger) : Prop where
  steps : Steps consumer clock (view l consumer) es (view l' consumer)
  elsewhere : Elsewhere consumer l l'

theorem Delivers.refl (consumer : String) (clock : ℕ) (l : Ledger) :
    Delivers consumer clock [] l l := ⟨.refl _, .refl consumer l⟩

end Medulla.Outbox.Views
