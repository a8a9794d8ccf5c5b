import Medulla.Index.Facets

/-! # The trail of one node through a batch

What a batch writes down about one node is its trail: the image the node has now, the captured images of
its adds, the number of its removals, the last image a removal deleted, the first image an add
overwrote, and whether a won compare-and-set touched the facet. -/

namespace Medulla.Index.Trails

open Library.OrderedTable Library.OrderedSet Library.Postings Resource.Extension Changes
open Caches Facets Caches.GraphCore

variable {Blob : Type}

/-! ### Trails -/

/-- What a change set says about one node, and its image. -/
structure Trail (Blob : Type) where
  image : Option Blob
  adds : List (Option Blob)
  removes : ℕ
  removed : Option Blob
  replaced : Option Blob
  touched : Bool

def touches (f : Facet) (id : String) (nc : NodeChange Blob) : Bool :=
  decide (nc.id = id) && nc.changedFields.any f.touched

def trail (f : Facet) (id : String) (p : Progress Blob) : Trail Blob where
  image := p.1.nodeProperties.get id
  adds := (p.2.addedNodes.filter fun nc => nc.id = id).map fun nc => nc.propertiesMsgpack
  removes := p.2.removedNodes.count id
  removed := p.2.removedNodeProps.get id
  replaced := p.2.replacedNodeProps.get id
  touched := p.2.updatedNodes.any (touches f id)

section Step

variable (f : Facet) (codec : Codec Blob) (captureContent : Bool) (id : String)

def Trail.step (tr : Trail Blob) : WriteOp Blob → Trail Blob
  | .addNode nodeId blob =>
    if nodeId = id then
      { tr with
        image := some blob
        adds := tr.adds ++ [if captureContent then some blob else none]
        replaced := tr.replaced.or tr.image }
    else tr
  | .removeNode nodeId =>
    if nodeId = id then
      { tr with image := none, removes := tr.removes + 1, removed := tr.image.or tr.removed }
    else tr
  | .compareAndSet nodeId conditions updates =>
    if nodeId = id then
      match tr.image.bind (casImage codec conditions updates) with
      | some reenc =>
        { tr with image := some reenc, touched := tr.touched || f.touched (updates.map Prod.fst) }
      | none => tr
    else tr
  | _ => tr

variable {f codec captureContent id}

theorem trail_addNode (p : Progress Blob) (nodeId : String) (blob : Blob) :
    trail f id (applyAddNode captureContent p nodeId blob) =
      (trail f id p).step f codec captureContent id (.addNode nodeId blob) := by
  unfold Trail.step applyAddNode
  have hreplaced : ∀ c : ChangeSet Blob, ((recordReplacedImage p.1 c nodeId).replacedNodeProps.get id) =
      if nodeId = id then (c.replacedNodeProps.get id).or (p.1.nodeProperties.get id)
      else c.replacedNodeProps.get id := by
    intro c
    unfold recordReplacedImage
    by_cases h : nodeId = id
    · subst h
      cases himage : p.1.nodeProperties.get nodeId with
      | none => simp
      | some prior =>
        dsimp only [ChangeSet.recordReplacedNode]
        cases hold : c.replacedNodeProps.get nodeId with
        | none => simp
        | some old => simp [hold]
    · rw [if_neg h]
      cases himage : p.1.nodeProperties.get nodeId with
      | none => rfl
      | some prior =>
        dsimp only [ChangeSet.recordReplacedNode]
        cases hold : c.replacedNodeProps.get nodeId with
        | none => simp [Table.get_insert_of_ne _ _ (Ne.symm h)]
        | some old => rfl
  have hrest : ∀ c : ChangeSet Blob, (recordReplacedImage p.1 c nodeId).addedNodes = c.addedNodes ∧
      (recordReplacedImage p.1 c nodeId).removedNodes = c.removedNodes ∧
      (recordReplacedImage p.1 c nodeId).removedNodeProps = c.removedNodeProps ∧
      (recordReplacedImage p.1 c nodeId).updatedNodes = c.updatedNodes := by
    intro c
    unfold recordReplacedImage ChangeSet.recordReplacedNode
    split
    · split <;> exact ⟨rfl, rfl, rfl, rfl⟩
    · exact ⟨rfl, rfl, rfl, rfl⟩
  obtain ⟨h1, h2, h3, h4⟩ := hrest (p.2.recordAddNode
    ⟨nodeId, if captureContent then some blob else none, none⟩)
  unfold trail
  rw [h1, h2, h3, h4, hreplaced]
  by_cases h : nodeId = id
  · subst h
    simp [ChangeSet.recordAddNode, Graph.addNode]
  · simp [ChangeSet.recordAddNode, Graph.addNode, h, Table.get_insert_of_ne _ _ (Ne.symm h)]

theorem get_removeNode (g : Graph Blob) (nodeId id : String) :
    (g.removeNode nodeId).nodeProperties.get id =
      if id = nodeId then none else g.nodeProperties.get id := by
  unfold Graph.removeNode
  by_cases hhas : has g.nodeMap nodeId = true
  · rw [if_pos hhas]
    exact Table.get_remove ..
  · rw [if_neg hhas]
    by_cases h : id = nodeId
    · subst h
      rw [if_pos rfl]
      rwa [g.aligned, Bool.not_eq_true, Option.isSome_eq_false_iff, Option.isNone_iff_eq_none] at hhas
    · rw [if_neg h]

theorem trail_removeNode (p : Progress Blob) (nodeId : String) :
    trail f id (applyRemoveNode p nodeId) =
      (trail f id p).step f codec captureContent id (.removeNode nodeId) := by
  unfold Trail.step applyRemoveNode trail
  dsimp only
  rw [get_removeNode]
  by_cases h : nodeId = id
  · subst h
    cases himage : p.1.nodeProperties.get nodeId with
    | none => simp [ChangeSet.recordRemoveNode]
    | some props => simp [ChangeSet.recordRemoveNodeCaptured]
  · cases himage : p.1.nodeProperties.get nodeId with
    | none => simp [ChangeSet.recordRemoveNode, h, Ne.symm h]
    | some props =>
      simp [ChangeSet.recordRemoveNodeCaptured, h, Ne.symm h, Table.get_insert_of_ne _ _ (Ne.symm h)]

theorem compareAndSetFields_eq (codec : Codec Blob) (g : Graph Blob) (nodeId : String)
    (conditions updates : Fields) :
    (compareAndSetFields codec g nodeId conditions updates).map (fun g' => g'.nodeProperties) =
      ((g.nodeProperties.get nodeId).bind (casImage codec conditions updates)).map
        (g.nodeProperties.insert nodeId) := by
  unfold compareAndSetFields
  split
  · rename_i hg
    rw [hg]
    rfl
  · rename_i image hg
    rw [Option.map_map]
    have hbind : (g.nodeProperties.get nodeId).bind (casImage codec conditions updates) =
        casImage codec conditions updates image := by rw [hg, Option.bind_some]
    rw [hbind]
    rfl

theorem trail_compareAndSet (p : Progress Blob) (nodeId : String) (conditions updates : Fields) :
    trail f id (applyCompareAndSet codec captureContent p nodeId conditions updates) =
      (trail f id p).step f codec captureContent id (.compareAndSet nodeId conditions updates) := by
  have hcas := compareAndSetFields_eq codec p.1 nodeId conditions updates
  unfold Trail.step applyCompareAndSet
  cases hwon : compareAndSetFields codec p.1 nodeId conditions updates with
  | none =>
    rw [hwon, Option.map_none, eq_comm, Option.map_eq_none_iff] at hcas
    by_cases h : nodeId = id
    · subst h
      simp only [if_true, trail, hcas]
    · simp only [if_neg h]
  | some g =>
    rw [hwon, Option.map_some, eq_comm, Option.map_eq_some_iff] at hcas
    obtain ⟨reenc, hreenc, hprops⟩ := hcas
    by_cases h : nodeId = id
    · subst h
      simp only [if_true, trail, hreenc, ← hprops, Table.get_insert_self, ChangeSet.recordUpdateNode,
        List.any_append, List.any_cons, List.any_nil, touches, decide_true, Bool.true_and,
        Option.any_some, Bool.or_false]
    · simp [trail, ← hprops, Table.get_insert_of_ne _ _ (Ne.symm h), ChangeSet.recordUpdateNode,
        touches, h]

/-- **A write changes the trail of its own node.** -/
theorem trail_applyOp (p : Progress Blob) : ∀ op : WriteOp Blob,
    trail f id (applyOp codec captureContent p op) = (trail f id p).step f codec captureContent id op
  | .addNode nodeId blob => trail_addNode p nodeId blob
  | .removeNode nodeId => trail_removeNode p nodeId
  | .addEdge sourceId targetId => by
    change trail f id (applyAddEdge p sourceId targetId) = trail f id p
    unfold applyAddEdge
    split <;> rfl
  | .removeEdge _ _ => rfl
  | .compareAndSet nodeId conditions updates => trail_compareAndSet p nodeId conditions updates

theorem trail_foldl : ∀ (ops : List (WriteOp Blob)) (p : Progress Blob),
    trail f id (ops.foldl (applyOp codec captureContent) p) =
      ops.foldl (Trail.step f codec captureContent id) (trail f id p)
  | [], _ => rfl
  | op :: ops, p => by
    rw [List.foldl_cons, List.foldl_cons, trail_foldl ops, trail_applyOp]

end Step

/-! ### Settling -/

section Settle

variable (f : Facet) (codec : Codec Blob) (id : String)

/-- The value an add of the node is filed under: the image, or else the captured one. -/
def Trail.value (tr : Trail Blob) (captured : Option Blob) : Option Json :=
  (tr.image.bind codec.decodePropertyValue).or (captured.bind codec.decodePropertyValue)

def Trail.settleAdd (tr : Trail Blob) (b : String → Bool) (captured : Option Blob) : String → Bool :=
  fun k => (b k && !(tr.replaced.bind codec.decodePropertyValue).any (f.erases · k)) ||
    (tr.value codec captured).any fun v => decide (k ∈ f.view v)

def Trail.settleRemove (tr : Trail Blob) (b : String → Bool) : String → Bool :=
  fun k => b k && !(tr.removed.bind codec.decodePropertyValue).all (f.erases · k)

/-- Where the maintenance of the change set puts the node. -/
def Trail.settle (tr : Trail Blob) (b : String → Bool) : String → Bool :=
  if tr.touched then fun k => (tr.value codec none).any fun v => decide (k ∈ f.view v)
  else (tr.settleRemove f codec)^[tr.removes] (tr.adds.foldl (tr.settleAdd f codec) b)

variable {f codec id} {core : GraphCore Blob} {change : ChangeSet Blob}

theorem replayOne_adds (id : String) : ∀ (ncs : List (NodeChange Blob)) (b : String → Bool),
    none ∉ ncs.map (f.addRefiling codec core change) → (∀ nc ∈ ncs, nc.id = id →
        ((trail f id (core.graph, change)).value codec nc.propertiesMsgpack).isSome) ∧
      replayOne id b (ncs.map (f.addRefiling codec core change)) =
        ((ncs.filter fun nc => nc.id = id).map fun nc => nc.propertiesMsgpack).foldl
          ((trail f id (core.graph, change)).settleAdd f codec) b
  | [], _, _ => ⟨fun _ h => absurd h List.not_mem_nil, rfl⟩
  | nc :: ncs, b, h => by
    rw [List.map_cons, List.mem_cons, not_or] at h
    obtain ⟨r, hr⟩ := Option.ne_none_iff_exists'.mp (Ne.symm h.1)
    have hadd : f.addRefiling codec core change nc = some r := hr
    rw [Facet.addRefiling, Option.map_eq_some_iff] at hr
    obtain ⟨val, hval, rfl⟩ := hr
    rw [List.map_cons, replayOne, List.foldl_cons, ← replayOne, hadd, maintainOne]
    by_cases hid : nc.id = id
    · obtain ⟨hsome, hfold⟩ := replayOne_adds id ncs
        ((trail f id (core.graph, change)).settleAdd f codec b nc.propertiesMsgpack) h.2
      have hvalue : (trail f id (core.graph, change)).value codec nc.propertiesMsgpack = some val := by
        rw [← hid]
        exact hval
      refine ⟨?_, ?_⟩
      · intro nc' hnc' hid'
        rcases List.mem_cons.mp hnc' with rfl | hnc'
        · rw [hvalue]
          rfl
        · exact hsome nc' hnc' hid'
      · have hstep : (trail f id (core.graph, change)).settleAdd f codec b nc.propertiesMsgpack =
            fun k => (b k && !((change.replacedNodeProps.get nc.id).bind
              codec.decodePropertyValue).any (f.erases · k)) || decide (k ∈ f.view val) := by
          funext k
          rw [Trail.settleAdd, hvalue, hid]
          rfl
        rw [if_pos hid, List.filter_cons_of_pos (by simpa using hid), List.map_cons, List.foldl_cons,
          ← hfold, hstep]
        rfl
    · obtain ⟨hsome, hfold⟩ := replayOne_adds id ncs b h.2
      refine ⟨?_, ?_⟩
      · intro nc' hnc' hid'
        rcases List.mem_cons.mp hnc' with rfl | hnc'
        · exact absurd hid' hid
        · exact hsome nc' hnc' hid'
      · rw [if_neg hid, List.filter_cons_of_neg (by simpa using hid), hfold]

theorem replayOne_removes {captured : String → Option Json} {removed : Option Blob}
    (hcaptured : captured id = removed.bind codec.decodePropertyValue) :
    ∀ (ids : List String) (b : String → Bool),
      replayOne id b (ids.map fun id => some (f.removeRefiling (captured id) id)) =
        (Trail.settleRemove f codec ⟨none, [], 0, removed, none, false⟩)^[ids.count id] b
  | [], _ => rfl
  | i :: ids, b => by
    rw [List.map_cons, replayOne, List.foldl_cons, ← replayOne, replayOne_removes hcaptured ids,
      maintainOne]
    by_cases hid : i = id
    · subst hid
      rw [List.count_cons_self, Function.iterate_succ_apply]
      congr 1
      funext k
      simp [Refiling.onKeys, Facet.removeRefiling, Trail.settleRemove, hcaptured]
    · rw [List.count_cons_of_ne hid, if_neg (show ¬(f.removeRefiling (captured i) i).id = id from hid)]

theorem replayOne_updates : ∀ (ncs : List (NodeChange Blob)) (b : String → Bool),
    none ∉ ncs.flatMap (f.updateRefilings codec core) →
      replayOne id b (ncs.flatMap (f.updateRefilings codec core)) = if ncs.any (touches f id) then
          fun k => (core.nodePropsValue codec id none).any fun v => decide (k ∈ f.view v)
        else b
  | [], _, _ => rfl
  | nc :: ncs, b, h => by
    rw [List.flatMap_cons, List.mem_append, not_or] at h
    rw [List.flatMap_cons, replayOne_append, replayOne_updates ncs _ h.2, List.any_cons]
    have hhead : replayOne id b (f.updateRefilings codec core nc) = if touches f id nc then
          fun k => (core.nodePropsValue codec id none).any fun v => decide (k ∈ f.view v)
        else b := by
      have hnone := h.1
      unfold Facet.updateRefilings touches at *
      cases hfields : nc.changedFields with
      | none =>
        rw [hfields] at hnone
        exact absurd (List.mem_singleton.mpr rfl) hnone
      | some fields =>
        simp only [Bool.and_eq_true, decide_eq_true_iff]
        by_cases htouched : f.touched fields = true
        · rw [if_pos htouched]
          by_cases hid : nc.id = id
          · subst hid
            rw [if_pos ⟨rfl, htouched⟩]
            funext k
            simp [replayOne, maintainOne, Refiling.onKeys, Facet.refile]
          · rw [if_neg fun h => hid h.1]
            exact if_neg hid
        · rw [if_neg htouched, if_neg fun h => htouched h.2]
          rfl
    rw [hhead]
    by_cases hrest : ncs.any (touches f id) = true
    · rw [if_pos hrest, if_pos (by rw [hrest, Bool.or_true])]
    · rw [if_neg hrest, Bool.eq_false_iff.mpr hrest, Bool.or_false]

/-- **The maintenance settles a node from its trail.** -/
theorem replayOne_refilings (b : String → Bool) (h : none ∉ f.refilings codec core change) :
    (∀ captured ∈ (trail f id (core.graph, change)).adds,
      ((trail f id (core.graph, change)).value codec captured).isSome) ∧
    replayOne id b (f.refilings codec core change) =
      (trail f id (core.graph, change)).settle f codec b := by
  unfold Facet.refilings at h ⊢
  rw [List.mem_append, not_or, List.mem_append, not_or] at h
  obtain ⟨hsome, hadds⟩ := replayOne_adds id change.addedNodes b h.1.1
  refine ⟨?_, ?_⟩
  · intro captured hcaptured
    obtain ⟨nc, hnc, rfl⟩ := List.mem_map.mp hcaptured
    obtain ⟨hnc, hid⟩ := List.mem_filter.mp hnc
    exact hsome nc hnc (of_decide_eq_true hid)
  · have hremoved : (change.removedNodeProps.get id).bind codec.decodePropertyValue =
        (trail f id (core.graph, change)).removed.bind codec.decodePropertyValue := rfl
    rw [replayOne_append, replayOne_append, hadds, replayOne_removes hremoved, replayOne_updates _ _ h.2]
    rfl

end Settle

end Medulla.Index.Trails
