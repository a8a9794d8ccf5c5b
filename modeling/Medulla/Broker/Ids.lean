import Medulla.Broker.Queues

/-! # Node ids and the reads of the rows

Ids of different families differ, and a message id gives back its queue and its number: the digits after
the last colon hold no colon. -/

namespace Medulla.Broker.Ids

open Library.OrderedTable Resource.Extension Index.Changes Rows

variable {o : Fields}

/-! ### Ids -/

theorem colon_not_mem_repr (n : ℕ) : ':' ∉ n.repr.toList := by
  intro h
  rw [Nat.toList_repr] at h
  have hdigit := Nat.isDigit_of_mem_toDigits (by decide) (by decide) h
  exact absurd hdigit (by decide)

theorem colon_not_mem_int (i : ℤ) : ':' ∉ i.repr.toList := by
  cases i with
  | ofNat n => exact colon_not_mem_repr n
  | negSucc n =>
    change ':' ∉ ("-" ++ (n + 1).repr).toList
    rw [String.toList_append, List.mem_append]
    rintro (h | h)
    · exact absurd h (by decide)
    · exact colon_not_mem_repr _ h

theorem cut_unique {α : Type*} {mark : α} {xs ys us vs : List α} (hu : mark ∉ us) (hv : mark ∉ vs)
    (h : xs ++ mark :: us = ys ++ mark :: vs) : xs = ys ∧ us = vs := by
  rcases List.append_eq_append_iff.mp h with ⟨as, rfl, htail⟩ | ⟨as, rfl, htail⟩
  · cases as with
    | nil => exact ⟨(List.append_nil _).symm, (List.cons.inj htail).2⟩
    | cons a as =>
      have hmem : mark ∈ us := by
        rw [(List.cons.inj htail).2]
        exact List.mem_append_right _ (.head _)
      exact absurd hmem hu
  · cases as with
    | nil => exact ⟨List.append_nil _, (List.cons.inj htail).2.symm⟩
    | cons a as =>
      have hmem : mark ∈ vs := by
        rw [(List.cons.inj htail).2]
        exact List.mem_append_right _ (.head _)
      exact absurd hmem hv

theorem messageNodeId_inj {q q' : String} {s s' : ℤ} (h : messageNodeId q s = messageNodeId q' s') :
    q = q' ∧ s = s' := by
  have hlist := congrArg String.toList h
  unfold messageNodeId at hlist
  simp only [String.append_assoc, String.toList_append] at hlist
  have htail := List.append_cancel_left hlist
  obtain ⟨hq, hs⟩ := cut_unique (colon_not_mem_int s) (colon_not_mem_int s') htail
  exact ⟨String.toList_inj.mp hq, Int.repr_injective (String.toList_inj.mp hs)⟩

theorem dtagLookupNodeId_inj {t t' : ℤ} (h : dtagLookupNodeId t = dtagLookupNodeId t') : t = t' := by
  have hlist := congrArg String.toList h
  unfold dtagLookupNodeId at hlist
  simp only [String.toList_append] at hlist
  exact Int.repr_injective (String.toList_inj.mp (List.append_cancel_left hlist))

theorem message_ne_lookup (q : String) (s t : ℤ) : messageNodeId q s ≠ dtagLookupNodeId t := by
  intro h
  have hlist := congrArg String.toList h
  unfold messageNodeId dtagLookupNodeId at hlist
  simp at hlist

theorem message_ne_dtagSeq (q : String) (s : ℤ) : messageNodeId q s ≠ dtagSeqNodeId := by
  intro h
  have hlist := congrArg String.toList h
  unfold messageNodeId dtagSeqNodeId at hlist
  simp at hlist

theorem message_ne_queueSeq (q q' : String) (s : ℤ) : messageNodeId q s ≠ queueSeqNodeId q' := by
  intro h
  have hlist := congrArg String.toList h
  unfold messageNodeId queueSeqNodeId at hlist
  simp at hlist

theorem lookup_ne_dtagSeq (t : ℤ) : dtagLookupNodeId t ≠ dtagSeqNodeId := by
  intro h
  have hlist := congrArg String.toList h
  unfold dtagLookupNodeId dtagSeqNodeId at hlist
  simp at hlist

theorem lookup_ne_queueSeq (t : ℤ) (q : String) : dtagLookupNodeId t ≠ queueSeqNodeId q := by
  intro h
  have hlist := congrArg String.toList h
  unfold dtagLookupNodeId queueSeqNodeId at hlist
  simp at hlist

theorem dtagSeq_ne_queueSeq (q : String) : dtagSeqNodeId ≠ queueSeqNodeId q := by
  intro h
  have hlist := congrArg String.toList h
  unfold dtagSeqNodeId queueSeqNodeId at hlist
  simp at hlist

theorem queueSeqNodeId_inj {q q' : String} (h : queueSeqNodeId q = queueSeqNodeId q') : q = q' := by
  have hlist := congrArg String.toList h
  unfold queueSeqNodeId at hlist
  simp only [String.toList_append] at hlist
  exact String.toList_inj.mp (List.append_cancel_left hlist)

theorem queueMsgLabel_inj {q q' : String} (h : queueMsgLabel q = queueMsgLabel q') : q = q' := by
  have hlist := congrArg String.toList h
  unfold queueMsgLabel at hlist
  simp only [String.toList_append] at hlist
  exact String.toList_inj.mp (List.append_cancel_left hlist)

theorem queueMsgLabel_ne {q label : String} (h : label.toList.head? ≠ some 'q') :
    queueMsgLabel q ≠ label := by
  rintro rfl
  unfold queueMsgLabel at h
  exact h (by simp)

/-! ### Reads of the nodes -/

section Nodes

variable (core : Core) (id id' : String) (v : Json) (e : Event) (k : String)

@[simp] theorem nodes_note : (core.note e).nodes = core.nodes := rfl

@[simp] theorem journal_note : (core.note e).journal = core.journal ++ [e] := rfl

@[simp] theorem journal_addNode : (core.addNode id v).journal = core.journal := rfl

theorem get_addNode :
    (core.addNode id v).nodes.get id' = if id' = id then some v else core.nodes.get id' :=
  Table.get_insert _ _ _ _

@[simp] theorem get_addNode_self : (core.addNode id v).nodes.get id = some v := by
  rw [get_addNode, if_pos rfl]

theorem get_addNode_of_ne (h : id' ≠ id) :
    (core.addNode id v).nodes.get id' = core.nodes.get id' := by
  rw [get_addNode, if_neg h]

theorem get_removeNode :
    (core.removeNode id).nodes.get id' = if id' = id then none else core.nodes.get id' := by
  unfold Core.removeNode
  split_ifs with hhas h h
  · rw [nodes_note, Table.get_remove, if_pos h]
  · rw [nodes_note, Table.get_remove, if_neg h]
  · subst h
    exact Option.not_isSome_iff_eq_none.mp hhas
  · rfl

theorem get_removeNode_of_ne (h : id' ≠ id) :
    (core.removeNode id).nodes.get id' = core.nodes.get id' := by
  rw [get_removeNode, if_neg h]

def removal : List Event := if core.hasNode id then [.removed id] else []

theorem journal_removeNode : (core.removeNode id).journal = core.journal ++ removal core id := by
  unfold Core.removeNode removal
  split_ifs
  · rfl
  · exact (List.append_nil _).symm

theorem mem_removal (h : e ∈ removal core id) : e = .removed id ∧ core.hasNode id = true := by
  unfold removal at h
  split_ifs at h with hhas
  · exact ⟨List.mem_singleton.mp h, hhas⟩
  · exact absurd h List.not_mem_nil

def field : Option Json := (core.nodeObject id).bind (lookupRow k)

section
variable {core core' : Core} {id : String} (h : core'.nodes.get id = core.nodes.get id)
include h

theorem nodeObject_congr : core'.nodeObject id = core.nodeObject id := by
  unfold Core.nodeObject
  rw [h]

theorem field_congr : field core' id k = field core id k := by
  unfold field
  rw [nodeObject_congr h]

end

section
variable {core : Core}

theorem field_of_get {id : String} (h : core.nodes.get id = some (.object o)) :
    field core id k = lookupRow k o := by
  simp [field, Core.nodeObject, h, Json.asObject]

theorem field_of_absent {id : String} (h : core.nodes.get id = none) : field core id k = none := by
  simp [field, Core.nodeObject, h]

theorem lookupRow_nodeRowMap {id k : String} (hk : k ≠ "id")
    (h : core.nodeRowMap id = some o) : lookupRow k o = field core id k := by
  obtain ⟨o', ho', rfl⟩ := Option.map_eq_some_iff.mp h
  rw [field, ho', Option.bind_some]
  split
  · rfl
  · rw [lookupRow_insertRow, if_neg hk]

theorem nodeRowMap_isSome {id : String} (h : core.nodeRowMap id = some o) :
    ∃ o', core.nodes.get id = some (.object o') := by
  obtain ⟨o', ho', -⟩ := Option.map_eq_some_iff.mp h
  obtain ⟨v, hv, hobj⟩ := Option.bind_eq_some_iff.mp ho'
  cases v with
  | object fs => exact ⟨fs, hv⟩
  | _ => cases hobj

theorem nodeRowMap_eq_none {id : String} (h : core.nodes.get id = none) :
    core.nodeRowMap id = none := by
  simp [Core.nodeRowMap, Core.nodeObject, h]

end

theorem nodeRowMap_congr {core core' : Core} {id : String}
    (h : core'.nodes.get id = core.nodes.get id) : core'.nodeRowMap id = core.nodeRowMap id := by
  unfold Core.nodeRowMap
  rw [nodeObject_congr h]

theorem hasNode_iff : core.hasNode id = true ↔ ∃ v, core.nodes.get id = some v :=
  Option.isSome_iff_exists

end Nodes

/-! ### Merged fields -/

theorem lookupRow_mergeUpdates (k : String) : ∀ (updates o : Fields),
      lookupRow k (mergeUpdates o updates) = (updates.reverse.lookup k).or (lookupRow k o)
  | [], _ => rfl
  | (k', v) :: updates, o => by
    rw [mergeUpdates, List.foldl_cons, ← mergeUpdates, lookupRow_mergeUpdates k updates,
      lookupRow_insertRow, List.reverse_cons, List.lookup_append]
    by_cases hk : k = k'
    · simp [hk]
    · have hbeq : (k == k') = false := beq_false_of_ne hk
      simp [hk, List.lookup_cons, hbeq]

theorem lookupRow_fields (k : String) (pairs : Fields) :
    lookupRow k (fields pairs) = pairs.reverse.lookup k := by
  rw [fields, lookupRow_mergeUpdates]
  exact Option.or_none

theorem lookupRow_mergeUpdates_of_not_mem {k : String} :
    ∀ {updates o : Fields}, k ∉ updates.map Prod.fst →
      lookupRow k (mergeUpdates o updates) = lookupRow k o
  | [], _, _ => rfl
  | (k', v) :: updates, o, h => by
    rw [List.map_cons, List.mem_cons, not_or] at h
    rw [mergeUpdates, List.foldl_cons, ← mergeUpdates, lookupRow_mergeUpdates_of_not_mem h.2,
      lookupRow_insertRow, if_neg h.1]

end Medulla.Broker.Ids
