import Medulla.Index.Trails

/-! # The lineage of a node's image

The images a batch builds for one node are the image it starts with and the images its adds bring; in
between, a compare-and-set that leaves the facet alone yields an image that stands where the one before
stood. -/

namespace Medulla.Index.Lineage

open Library.Transaction Resource.Extension Changes Facets Trails

variable {Blob : Type}

/-! ### Images that stand in the same places -/

section Images

variable (f : Facet) (codec : Codec Blob)

def standing (b : Blob) : Option (List String) := (codec.decodePropertyValue b).map f.view

/-- Two images, or none, that stand in the same places. -/
def Alike (a b : Option Blob) : Prop := a.map (standing f codec) = b.map (standing f codec)

def stands (image : Option Blob) (k : String) : Bool :=
  (image.bind codec.decodePropertyValue).any fun v => decide (k ∈ f.view v)

def StoresMergedOn (id : String) (image : Option Blob) : WriteOp Blob → Prop
  | .compareAndSet nodeId conditions updates => nodeId = id →
      ∀ b ∈ image, ∀ obj ∈ casObject codec conditions b,
        ∀ reenc ∈ codec.toVecNamed (.object (mergeUpdates obj updates)),
          codec.decodePropertyValue reenc = some (.object (mergeUpdates obj updates))
  | _ => True

variable {f codec} {a b c : Option Blob}

theorem Alike.refl : Alike f codec a a := rfl

theorem Alike.isSome_eq (h : Alike f codec a b) : a.isSome = b.isSome := by
  rw [← Option.isSome_map (f := standing f codec), h, Option.isSome_map]

theorem Alike.eq_none (h : Alike f codec a none) : a = none := by
  rwa [Alike, Option.map_none, Option.map_eq_none_iff] at h

theorem Alike.exists_eq_some {x : Blob} (h : Alike f codec a (some x)) :
    ∃ y, a = some y ∧ standing f codec y = standing f codec x := by
  rw [Alike, Option.map_some, Option.map_eq_some_iff] at h
  exact h

theorem stands_eq (image : Option Blob) (k : String) :
    stands f codec image k = (image.bind (standing f codec)).any fun ks => decide (k ∈ ks) := by
  unfold stands standing
  cases image with
  | none => rfl
  | some b =>
    rw [Option.bind_some, Option.bind_some]
    cases codec.decodePropertyValue b <;> rfl

theorem Alike.stands_eq (h : Alike f codec a b) (k : String) :
    stands f codec a k = stands f codec b k := by
  rw [Lineage.stands_eq, Lineage.stands_eq]
  cases a with
  | none =>
    rw [Alike, Option.map_none, eq_comm, Option.map_eq_none_iff] at h
    rw [h]
  | some x =>
    cases b with
    | none => exact absurd h (by simp [Alike])
    | some y => rw [Option.bind_some, Option.bind_some, Option.some.inj h]

theorem Alike.erases (h : Alike f codec a b) {k : String} (hk : stands f codec b k = true) :
    ∃ v, a.bind codec.decodePropertyValue = some v ∧ f.erases v k = true := by
  rw [← h.stands_eq] at hk
  obtain ⟨v, hv, hmem⟩ := (Option.any_eq_true _ _).mp hk
  exact ⟨v, hv, f.erases_view (of_decide_eq_true hmem)⟩

theorem standing_casImage {conditions updates : Fields} {b reenc : Blob}
    (hcas : casImage codec conditions updates b = some reenc)
    (hstored : ∀ obj ∈ casObject codec conditions b,
      ∀ reenc ∈ codec.toVecNamed (.object (mergeUpdates obj updates)),
        codec.decodePropertyValue reenc = some (.object (mergeUpdates obj updates)))
    (huntouched : f.touched (updates.map Prod.fst) = false) :
    standing f codec reenc = standing f codec b := by
  obtain ⟨obj, hobj, hreenc⟩ := Option.bind_eq_some_iff.mp hcas
  have hdecoded := hstored obj hobj reenc hreenc
  rw [casObject, Option.filter_eq_some_iff, Option.bind_eq_some_iff] at hobj
  obtain ⟨⟨val, hval, hobject⟩, -⟩ := hobj
  have heq : val = .object obj := by
    cases val <;> simp_all [Json.asObject]
  rw [standing, standing, hdecoded, hval, heq, Option.map_some, Option.map_some,
    f.view_merge huntouched]

end Images

/-! ### While the node is there -/

def addedImages (id : String) (ops : List (WriteOp Blob)) : List Blob :=
  ops.filterMap fun
    | .addNode nodeId blob => if nodeId = id then some blob else none
    | _ => none

/-- The image an add overwrites first: the first one, once there is a second. -/
def firstReplaced (bases : List Blob) : Option Blob :=
  if 2 ≤ bases.length then bases.head? else none

section Phases

variable (f : Facet) (codec : Codec Blob) (captureContent : Bool)

def capture (b : Blob) : Option Blob := if captureContent then some b else none

structure Building (bases added : List Blob) (tr : Trail Blob) : Prop where
  adds : tr.adds = added.map (capture captureContent)
  removes : tr.removes = 0
  removed : tr.removed = none
  image : Alike f codec tr.image bases.getLast?
  replaced : Alike f codec tr.replaced (firstReplaced bases)

structure Gone (bases added : List Blob) (tr : Trail Blob) : Prop where
  adds : tr.adds = added.map (capture captureContent)
  removes : 0 < tr.removes
  image : tr.image = none
  removed : Alike f codec tr.removed bases.getLast?
  replaced : Alike f codec tr.replaced (firstReplaced bases)

variable {f codec captureContent} {id : String} {bases added : List Blob} {tr : Trail Blob}

theorem touched_of_step {op : WriteOp Blob}
    (h : (tr.step f codec captureContent id op).touched = false) : tr.touched = false := by
  unfold Trail.step at h
  split at h
  · split at h <;> exact h
  · split at h <;> exact h
  · split at h
    · split at h
      · exact (Bool.or_eq_false_iff.mp h).1
      · exact h
    · exact h
  · exact h

theorem touched_of_foldl : ∀ {ops : List (WriteOp Blob)} {tr : Trail Blob},
    (ops.foldl (Trail.step f codec captureContent id) tr).touched = false → tr.touched = false
  | [], _, h => h
  | _ :: _, _, h => touched_of_step (touched_of_foldl h)

section
variable (h : Building f codec captureContent bases added tr)
include h

theorem Building.add (b : Blob) : Building f codec captureContent (bases ++ [b]) (added ++ [b])
      (tr.step f codec captureContent id (.addNode id b)) := by
  have hstep : tr.step f codec captureContent id (.addNode id b) = { tr with
        image := some b
        adds := tr.adds ++ [capture captureContent b]
        replaced := tr.replaced.or tr.image } := if_pos rfl
  rw [hstep]
  refine ⟨?_, h.removes, h.removed, ?_, ?_⟩
  · rw [List.map_append, ← h.adds]
    rfl
  · rw [List.getLast?_append]
    rfl
  · have himage := h.image
    have hreplaced := h.replaced
    match bases with
    | [] =>
      rw [himage.eq_none, Option.or_none]
      exact hreplaced
    | [x] =>
      have hnone : tr.replaced = none := hreplaced.eq_none
      rw [hnone]
      exact himage
    | x :: y :: rest =>
      obtain ⟨r, hr, -⟩ := Alike.exists_eq_some (x := x) hreplaced
      rw [hr, Option.some_or, ← hr]
      exact hreplaced

theorem Building.cas {nodeId : String} {conditions updates : Fields}
    (hstored : StoresMergedOn codec id tr.image (.compareAndSet nodeId conditions updates))
    (huntouched : (tr.step f codec captureContent id
      (.compareAndSet nodeId conditions updates)).touched = false) :
    Building f codec captureContent bases added
      (tr.step f codec captureContent id (.compareAndSet nodeId conditions updates)) := by
  unfold Trail.step at huntouched ⊢
  dsimp only at huntouched ⊢
  by_cases hid : nodeId = id
  · rw [if_pos hid] at huntouched ⊢
    cases hcas : tr.image.bind (casImage codec conditions updates) with
    | none => exact h
    | some reenc =>
      rw [hcas] at huntouched
      obtain ⟨b, hb, hwon⟩ := Option.bind_eq_some_iff.mp hcas
      refine ⟨h.adds, h.removes, h.removed, ?_, h.replaced⟩
      rw [Alike, Option.map_some, standing_casImage hwon (hstored hid b hb)
        (Bool.or_eq_false_iff.mp huntouched).2, ← Option.map_some, ← hb]
      exact h.image
  · rw [if_neg hid]
    exact h

theorem Building.step :
    ∀ {op : WriteOp Blob}, op ≠ .removeNode id → StoresMergedOn codec id tr.image op →
      (tr.step f codec captureContent id op).touched = false →
      Building f codec captureContent (bases ++ addedImages id [op]) (added ++ addedImages id [op])
        (tr.step f codec captureContent id op)
  | .addNode nodeId b, _, _, _ => by
    by_cases hid : nodeId = id
    · have himages : addedImages id [.addNode nodeId b] = [b] := by simp [addedImages, hid]
      rw [himages, hid]
      exact h.add b
    · have himages : addedImages id [.addNode nodeId b] = [] := by simp [addedImages, hid]
      have hsame : tr.step f codec captureContent id (.addNode nodeId b) = tr := if_neg hid
      rw [himages, hsame, List.append_nil, List.append_nil]
      exact h
  | .removeNode nodeId, hop, _, _ => by
    have hid : ¬nodeId = id := fun hid => hop (by rw [hid])
    have hsame : tr.step f codec captureContent id (.removeNode nodeId) = tr := if_neg hid
    change Building f codec captureContent (bases ++ []) (added ++ []) _
    rw [hsame, List.append_nil, List.append_nil]
    exact h
  | .addEdge _ _, _, _, _ => by
    change Building f codec captureContent (bases ++ []) (added ++ []) tr
    rw [List.append_nil, List.append_nil]
    exact h
  | .removeEdge _ _, _, _, _ => by
    change Building f codec captureContent (bases ++ []) (added ++ []) tr
    rw [List.append_nil, List.append_nil]
    exact h
  | .compareAndSet nodeId conditions updates, _, hstored, htouched => by
    change Building f codec captureContent (bases ++ []) (added ++ []) _
    rw [List.append_nil, List.append_nil]
    exact h.cas hstored htouched

end

/-- **The lineage of a node that a batch does not remove.** -/
theorem Building.run : ∀ {ops : List (WriteOp Blob)} {bases added : List Blob} {tr : Trail Blob},
    Building f codec captureContent bases added tr → .removeNode id ∉ ops →
    Along (Trail.step f codec captureContent id) (fun tr => StoresMergedOn codec id tr.image) tr ops →
    (ops.foldl (Trail.step f codec captureContent id) tr).touched = false →
      Building f codec captureContent (bases ++ addedImages id ops) (added ++ addedImages id ops)
        (ops.foldl (Trail.step f codec captureContent id) tr)
  | [], bases, added, tr, h, _, _, _ => by
    rw [addedImages, List.filterMap_nil, List.append_nil, List.append_nil]
    exact h
  | op :: ops, bases, added, tr, h, hremove, hstored, htouched => by
    rw [List.mem_cons, not_or] at hremove
    have himages : addedImages id (op :: ops) = addedImages id [op] ++ addedImages id ops :=
      List.filterMap_append (l := [op])
    rw [himages, ← List.append_assoc, ← List.append_assoc]
    exact (h.step (Ne.symm hremove.1) hstored.1 (touched_of_foldl htouched)).run hremove.2 hstored.2
      htouched

/-! ### After a removal -/

theorem Building.remove (h : Building f codec captureContent bases added tr) :
    Gone f codec captureContent bases added
      (tr.step f codec captureContent id (.removeNode id)) := by
  have hstep : tr.step f codec captureContent id (.removeNode id) = { tr with
        image := none
        removes := tr.removes + 1
        removed := tr.image.or tr.removed } := if_pos rfl
  rw [hstep]
  refine ⟨h.adds, Nat.succ_pos _, rfl, ?_, h.replaced⟩
  rw [h.removed, Option.or_none]
  exact h.image

theorem Gone.step (h : Gone f codec captureContent bases added tr) :
    ∀ {op : WriteOp Blob}, (∀ b, op ≠ .addNode id b) →
      Gone f codec captureContent bases added (tr.step f codec captureContent id op)
  | .addNode nodeId b, hop => by
    have hid : ¬nodeId = id := fun hid => hop b (by rw [hid])
    have hsame : tr.step f codec captureContent id (.addNode nodeId b) = tr := if_neg hid
    rw [hsame]
    exact h
  | .removeNode nodeId, _ => by
    unfold Trail.step
    dsimp only
    split
    · refine ⟨h.adds, Nat.succ_pos _, rfl, ?_, h.replaced⟩
      rw [h.image]
      exact h.removed
    · exact h
  | .addEdge _ _, _ => h
  | .removeEdge _ _, _ => h
  | .compareAndSet nodeId conditions updates, _ => by
    unfold Trail.step
    dsimp only
    rw [h.image]
    split <;> exact h

theorem Gone.run : ∀ {ops : List (WriteOp Blob)} {tr : Trail Blob},
    Gone f codec captureContent bases added tr → (∀ b, .addNode id b ∉ ops) →
      Gone f codec captureContent bases added (ops.foldl (Trail.step f codec captureContent id) tr)
  | [], _, h, _ => h
  | _ :: _, _, h, hadds =>
    (h.step fun b hop => hadds b (hop ▸ (.head _))).run
      fun b hb => hadds b (.tail _ hb)

end Phases

end Medulla.Index.Lineage
