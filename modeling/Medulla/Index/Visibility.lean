import Medulla.Index.Rebuild
import Medulla.Isolation.Rows

/-! # The visibility index

The decoded row visibility of every node is cached beside the postings. It is a flat map, so a batch
maintains it more simply: an add files the visibility of the image it captured, or of the image the
node has now; a removal deletes the entry; a compare-and-set files the current image, if it touches
one of the keys visibility is read from. -/

namespace Medulla.Index.Visibility

open Library.OrderedTable Library.Transaction Resource.Extension Changes Facets
open Trails Lineage Rebuild Isolation.Rows

variable {Blob : Type} {nodeId : String} {updates : Fields}

abbrev VisibilityIndex := Table String RowVisibility

/-- The visibility index, cold or warm, and the version it is current at. -/
structure VisibilityCache where
  index : Option VisibilityIndex
  stamp : ℕ

section Maintenance

variable (codec : Codec Blob)

def decodeFields (blob : Blob) : Option Fields := (codec.decodePropertyValue blob).bind Json.asObject

def visibilityOfImage (blob : Blob) : RowVisibility := rowVisibility (decodeFields codec) blob

def filedVisibility (current captured : Option Blob) : RowVisibility :=
  match captured with
  | some b => visibilityOfImage codec b
  | none =>
    match current with
    | some props => visibilityOfImage codec props
    | none => .defaultPublic

def visibilityIndexSet (g : Graph Blob) (id : String) (blob : Option Blob) (targetVersion : ℕ)
    (cache : VisibilityCache) : VisibilityCache :=
  match cache.index with
  | none => cache
  | some index =>
    ⟨some (index.insert id (filedVisibility codec (g.nodeProperties.get id) blob)), targetVersion⟩

def visibilityIndexRemove (id : String) (targetVersion : ℕ) (cache : VisibilityCache) :
    VisibilityCache :=
  match cache.index with
  | none => cache
  | some index => ⟨some (index.remove id), targetVersion⟩

/-- The update touches a key row visibility is read from. -/
def changesRlsKeys (fields : List String) : Bool := fields.any fun f => rlsKeys.contains f

def maintainVisibilityUpdate (g : Graph Blob) (targetVersion : ℕ) (cache : VisibilityCache)
    (nc : NodeChange Blob) : VisibilityCache :=
  match nc.changedFields with
  | none => { cache with index := none }
  | some fields =>
    if changesRlsKeys fields then visibilityIndexSet codec g nc.id none targetVersion cache else cache

def maintainVisibility (g : Graph Blob) (change : ChangeSet Blob) (targetVersion : ℕ)
    (cache : VisibilityCache) : VisibilityCache :=
  let cache := change.addedNodes.foldl (fun cache nc =>
    visibilityIndexSet codec g nc.id nc.propertiesMsgpack targetVersion cache) cache
  let cache := change.removedNodes.foldl (fun cache id =>
    visibilityIndexRemove id targetVersion cache) cache
  change.updatedNodes.foldl (maintainVisibilityUpdate codec g targetVersion) cache

def buildVisibilityIndex (g : Graph Blob) : VisibilityIndex :=
  g.nodeProperties.mapValues (visibilityOfImage codec)

end Maintenance

/-! ### What a change set leaves for one node -/

variable {cache : VisibilityCache}

def visibilityFacet : Facet where
  view _ := []
  erases _ _ := true
  touched := changesRlsKeys
  erases_view _ := rfl
  view_merge _ := rfl

section Settling

variable {codec : Codec Blob} {g : Graph Blob} {t : ℕ}

def settleVisibility (codec : Codec Blob) (tr : Trail Blob) (entry : Option RowVisibility) :
    Option RowVisibility :=
  if tr.touched then some (filedVisibility codec tr.image none)
  else if 0 < tr.removes then none
  else
    match tr.adds.getLast? with
    | some captured => some (filedVisibility codec tr.image captured)
    | none => entry

theorem index_visibilityIndexSet {blob : Option Blob} :
    (visibilityIndexSet codec g nodeId blob t cache).index = cache.index.map fun index =>
        index.insert nodeId (filedVisibility codec (g.nodeProperties.get nodeId) blob) := by
  unfold visibilityIndexSet
  cases h : cache.index with
  | none => exact h
  | some index => rfl

theorem index_visibilityIndexRemove :
    (visibilityIndexRemove nodeId t cache).index = cache.index.map fun index => index.remove nodeId := by
  unfold visibilityIndexRemove
  cases h : cache.index with
  | none => exact h
  | some index => rfl

theorem get_foldl_adds (id : String) : ∀ {ncs : List (NodeChange Blob)} {cache : VisibilityCache}
    {index : VisibilityIndex},
    (ncs.foldl (fun cache nc => visibilityIndexSet codec g nc.id nc.propertiesMsgpack t cache)
      cache).index = some index →
    ∃ index₀, cache.index = some index₀ ∧ index.get id =
      match ((ncs.filter fun nc => nc.id = id).map fun nc => nc.propertiesMsgpack).getLast? with
      | some captured => some (filedVisibility codec (g.nodeProperties.get id) captured)
      | none => index₀.get id
  | [], cache, index, h => ⟨index, h, rfl⟩
  | nc :: ncs, cache, index, h => by
    rw [List.foldl_cons] at h
    obtain ⟨index₁, h₁, hget⟩ := get_foldl_adds id h
    rw [index_visibilityIndexSet] at h₁
    obtain ⟨index₀, h₀, rfl⟩ := Option.map_eq_some_iff.mp h₁
    refine ⟨index₀, h₀, ?_⟩
    rw [hget]
    by_cases hid : nc.id = id
    · rw [List.filter_cons_of_pos (by simpa using hid), List.map_cons, List.getLast?_cons, hid,
        Table.get_insert_self]
      cases ((ncs.filter fun nc => nc.id = id).map fun nc => nc.propertiesMsgpack).getLast? <;> rfl
    · rw [List.filter_cons_of_neg (by simpa using hid), Table.get_insert_of_ne _ _ (Ne.symm hid)]

theorem get_foldl_removes (id : String) :
    ∀ {ids : List String} {cache : VisibilityCache} {index : VisibilityIndex},
    (ids.foldl (fun cache id => visibilityIndexRemove id t cache) cache).index = some index →
    ∃ index₀, cache.index = some index₀ ∧
      index.get id = if 0 < ids.count id then none else index₀.get id
  | [], cache, index, h => ⟨index, h, rfl⟩
  | nodeId :: ids, cache, index, h => by
    rw [List.foldl_cons] at h
    obtain ⟨index₁, h₁, hget⟩ := get_foldl_removes id h
    rw [index_visibilityIndexRemove] at h₁
    obtain ⟨index₀, h₀, rfl⟩ := Option.map_eq_some_iff.mp h₁
    refine ⟨index₀, h₀, ?_⟩
    rw [hget, Table.get_remove]
    by_cases hid : nodeId = id
    · simp [hid]
    · simp [Ne.symm hid]

theorem get_foldl_updates (id : String) : ∀ {ncs : List (NodeChange Blob)} {cache : VisibilityCache}
    {index : VisibilityIndex},
    (ncs.foldl (maintainVisibilityUpdate codec g t) cache).index = some index →
    ∃ index₀, cache.index = some index₀ ∧ index.get id =
      if ncs.any (touches visibilityFacet id) then
        some (filedVisibility codec (g.nodeProperties.get id) none)
      else index₀.get id
  | [], cache, index, h => ⟨index, h, rfl⟩
  | nc :: ncs, cache, index, h => by
    rw [List.foldl_cons] at h
    obtain ⟨index₁, h₁, hget⟩ := get_foldl_updates id h
    unfold maintainVisibilityUpdate at h₁
    rw [hget, List.any_cons]
    cases hfields : nc.changedFields with
    | none =>
      rw [hfields] at h₁
      cases h₁
    | some fields =>
      rw [hfields] at h₁
      have htouches : touches visibilityFacet id nc = (decide (nc.id = id) && changesRlsKeys fields) := by
        rw [touches, hfields]
        rfl
      rw [htouches]
      dsimp only at h₁
      split at h₁
      · rename_i hchanges
        rw [index_visibilityIndexSet] at h₁
        obtain ⟨index₀, h₀, rfl⟩ := Option.map_eq_some_iff.mp h₁
        refine ⟨index₀, h₀, ?_⟩
        rw [hchanges, Table.get_insert]
        by_cases hid : nc.id = id
        · simp [hid]
        · simp [hid, Ne.symm hid]
      · rename_i hchanges
        refine ⟨index₁, h₁, ?_⟩
        rw [Bool.not_eq_true] at hchanges
        rw [hchanges, Bool.and_false, Bool.false_or]

/-- **The maintenance settles every entry from the trail of its node.** -/
theorem get_maintainVisibility {p : Progress Blob} {index : VisibilityIndex}
    (h : (maintainVisibility codec p.1 p.2 t cache).index = some index) :
    ∃ index₀, cache.index = some index₀ ∧
      ∀ id, index.get id = settleVisibility codec (trail visibilityFacet id p) (index₀.get id) := by
  obtain ⟨index₂, h₂, -⟩ := get_foldl_updates "" h
  obtain ⟨index₁, h₁, -⟩ := get_foldl_removes "" h₂
  obtain ⟨index₀, h₀, -⟩ := get_foldl_adds "" h₁
  refine ⟨index₀, h₀, fun id => ?_⟩
  obtain ⟨index₂', h₂', hget₂⟩ := get_foldl_updates id h
  obtain ⟨index₁', h₁', hget₁⟩ := get_foldl_removes id h₂'
  obtain ⟨index₀', h₀', hget₀⟩ := get_foldl_adds id h₁'
  rw [h₀] at h₀'
  cases h₀'
  rw [hget₂, hget₁, hget₀]
  rfl

end Settling

/-! ### The lineage of a visibility -/

section Lineage

variable {codec : Codec Blob} {captureContent : Bool} {id : String} {prior : Option Blob}
  {tr : Trail Blob}

theorem lookupRow_mergeVisibility (h : changesRlsKeys (updates.map Prod.fst) = false) (obj : Fields)
    {key : String} (hkey : key ∈ rlsKeys) :
    lookupRow key (mergeUpdates obj updates) = lookupRow key obj := by
  have hnot : key ∉ updates.map Prod.fst := by
    intro hmem
    refine Bool.eq_false_iff.mp h (List.any_eq_true.mpr ⟨key, hmem, ?_⟩)
    simpa using hkey
  exact get_mergeUpdates hnot

theorem rowVisibility_merge {decode : Blob → Option Fields} {b b' : Blob} {obj : Fields}
    (hb : decode b = some obj) (hb' : decode b' = some (mergeUpdates obj updates))
    (h : changesRlsKeys (updates.map Prod.fst) = false) :
    rowVisibility decode b' = rowVisibility decode b := by
  have howner := lookupRow_mergeVisibility h obj (show rlsOwnerKey ∈ rlsKeys by decide)
  have hvis := lookupRow_mergeVisibility h obj (show rlsVisibilityKey ∈ rlsKeys by decide)
  have hgrants := lookupRow_mergeVisibility h obj (show rlsGrantsKey ∈ rlsKeys by decide)
  have hownerId := lookupRow_mergeVisibility h obj (show rlsOwnerIdKey ∈ rlsKeys by decide)
  have hscope := lookupRow_mergeVisibility h obj (show rlsSharedScopeKey ∈ rlsKeys by decide)
  have howned : ownerOf (mergeUpdates obj updates) = ownerOf obj := by
    rw [ownerOf, ownerOf, howner, hownerId]
  have hshared : sharedScopePublic (mergeUpdates obj updates) = sharedScopePublic obj := by
    rw [sharedScopePublic, sharedScopePublic, hscope]
  have hau : auTagged (mergeUpdates obj updates) = auTagged obj := by
    rw [auTagged, auTagged, containsKey, containsKey, containsKey, containsKey, hownerId, hscope]
  have hpublic : publicOf (mergeUpdates obj updates) = publicOf obj := by
    unfold publicOf containsKey
    rw [hvis, howned, hshared, hau, hgrants]
  have hgranted : grantsOf (mergeUpdates obj updates) = grantsOf obj := by
    rw [grantsOf, grantsOf, hgrants]
  have htagged : rlsKeys.any (containsKey (mergeUpdates obj updates)) = rlsKeys.any (containsKey obj) := by
    simp only [rlsKeys, List.any_cons, List.any_nil, containsKey, howner, hvis, hgrants, hownerId, hscope]
  unfold rowVisibility
  rw [hb, hb']
  dsimp only
  rw [howned, hpublic, hgranted, htagged]

theorem visibility_casImage {conditions : Fields} {b reenc : Blob}
    (hcas : casImage codec conditions updates b = some reenc)
    (hstored : ∀ obj ∈ casObject codec conditions b,
      ∀ reenc ∈ codec.toVecNamed (.object (mergeUpdates obj updates)),
        codec.decodePropertyValue reenc = some (.object (mergeUpdates obj updates)))
    (huntouched : changesRlsKeys (updates.map Prod.fst) = false) :
    visibilityOfImage codec reenc = visibilityOfImage codec b := by
  obtain ⟨obj, hobj, hreenc⟩ := Option.bind_eq_some_iff.mp hcas
  have hdecoded := hstored obj hobj reenc hreenc
  rw [casObject, Option.filter_eq_some_iff] at hobj
  refine rowVisibility_merge hobj.1 ?_ huntouched
  rw [decodeFields, hdecoded]
  rfl

/-- The trail of a node that was not removed, as far as its visibility goes. -/
structure Showing (codec : Codec Blob) (prior : Option Blob) (tr : Trail Blob) : Prop where
  removes : tr.removes = 0
  live : tr.touched = true ∨ tr.adds ≠ [] → tr.image.isSome = true
  filed : tr.touched = false → tr.image.map (visibilityOfImage codec) = match tr.adds.getLast? with
    | some captured => some (filedVisibility codec tr.image captured)
    | none => prior.map (visibilityOfImage codec)

theorem Showing.add (h : Showing codec prior tr) (b : Blob) :
    Showing codec prior (tr.step visibilityFacet codec captureContent id (.addNode id b)) := by
  have hstep : tr.step visibilityFacet codec captureContent id (.addNode id b) = { tr with
        image := some b
        adds := tr.adds ++ [capture captureContent b]
        replaced := tr.replaced.or tr.image } := if_pos rfl
  rw [hstep]
  refine ⟨h.removes, fun _ => rfl, fun _ => ?_⟩
  rw [List.getLast?_concat]
  cases captureContent <;> rfl

theorem Showing.cas (h : Showing codec prior tr) {conditions : Fields}
    (hstored : StoresMergedOn codec id tr.image (.compareAndSet nodeId conditions updates)) :
    Showing codec prior (tr.step visibilityFacet codec captureContent id
      (.compareAndSet nodeId conditions updates)) := by
  unfold Trail.step
  dsimp only
  by_cases hid : nodeId = id
  · rw [if_pos hid]
    cases hcas : tr.image.bind (casImage codec conditions updates) with
    | none => exact h
    | some reenc =>
      obtain ⟨b, hb, hwon⟩ := Option.bind_eq_some_iff.mp hcas
      refine ⟨h.removes, fun _ => rfl, fun htouched => ?_⟩
      obtain ⟨hbefore, huntouched⟩ := Bool.or_eq_false_iff.mp htouched
      have hsame := visibility_casImage hwon (hstored hid b hb) huntouched
      have hfiled := h.filed hbefore
      rw [hb, Option.map_some] at hfiled
      rw [Option.map_some, hsame, hfiled]
      cases tr.adds.getLast? with
      | none => rfl
      | some captured =>
        cases captured with
        | some c => rfl
        | none =>
          change some (visibilityOfImage codec b) = some (visibilityOfImage codec reenc)
          rw [hsame]
  · rw [if_neg hid]
    exact h

theorem Showing.step (h : Showing codec prior tr) : ∀ {op : WriteOp Blob}, op ≠ .removeNode id →
    StoresMergedOn codec id tr.image op →
      Showing codec prior (tr.step visibilityFacet codec captureContent id op)
  | .addNode nodeId b, _, _ => by
    by_cases hid : nodeId = id
    · rw [hid]
      exact h.add b
    · have hsame : tr.step visibilityFacet codec captureContent id (.addNode nodeId b) = tr := if_neg hid
      rw [hsame]
      exact h
  | .removeNode nodeId, hop, _ => by
    have hid : ¬nodeId = id := fun hid => hop (by rw [hid])
    have hsame : tr.step visibilityFacet codec captureContent id (.removeNode nodeId) = tr := if_neg hid
    rw [hsame]
    exact h
  | .addEdge _ _, _, _ => h
  | .removeEdge _ _, _, _ => h
  | .compareAndSet _ _ _, _, hstored => h.cas hstored

/-- **The visibility of a node that a batch does not remove.** -/
theorem Showing.run : ∀ {ops : List (WriteOp Blob)} {tr : Trail Blob}, Showing codec prior tr →
    .removeNode id ∉ ops →
    Along (Trail.step visibilityFacet codec captureContent id)
      (fun tr => StoresMergedOn codec id tr.image) tr ops →
      Showing codec prior (ops.foldl (Trail.step visibilityFacet codec captureContent id) tr)
  | [], _, h, _, _ => h
  | _ :: _, _, h, hremove, hstored => by
    rw [List.mem_cons, not_or] at hremove
    exact (h.step (Ne.symm hremove.1) hstored.1).run hremove.2 hstored.2

theorem Showing.settle (h : Showing codec prior tr) :
    settleVisibility codec tr (prior.map (visibilityOfImage codec)) =
      tr.image.map (visibilityOfImage codec) := by
  unfold settleVisibility
  by_cases htouched : tr.touched = true
  · obtain ⟨b, hb⟩ := Option.isSome_iff_exists.mp (h.live (Or.inl htouched))
    rw [if_pos htouched, hb]
    rfl
  · rw [if_neg htouched, if_neg (by rw [h.removes]; omega), h.filed (by simpa using htouched)]

end Lineage

/-! ### Batches -/

section Batches

variable (codec : Codec Blob) (captureContent : Bool)

def updatesVisibility (id : String) (image : Option Blob) : WriteOp Blob → Bool
  | .compareAndSet nodeId conditions updates =>
    decide (nodeId = id) && (image.bind (casImage codec conditions updates)).isSome &&
      changesRlsKeys (updates.map Prod.fst)
  | _ => false

def KeepsVisibility (g : Graph Blob) (ops : List (WriteOp Blob)) : Prop :=
  Along (applyOp codec captureContent) (fun p op => ∀ id, .removeNode id ∈ ops →
    updatesVisibility codec id (p.1.nodeProperties.get id) op = false) (g, ChangeSet.new) ops

variable {codec captureContent} {id : String} {g : Graph Blob} {ops : List (WriteOp Blob)}

theorem touched_step {tr : Trail Blob} {op : WriteOp Blob} (h : tr.touched = false)
    (hop : updatesVisibility codec id tr.image op = false) :
    (tr.step visibilityFacet codec captureContent id op).touched = false := by
  unfold Trail.step
  cases op with
  | addNode nodeId b => dsimp only; split <;> exact h
  | removeNode nodeId => dsimp only; split <;> exact h
  | addEdge _ _ => exact h
  | removeEdge _ _ => exact h
  | compareAndSet nodeId conditions updates =>
    dsimp only
    split
    · rename_i hid
      cases hcas : tr.image.bind (casImage codec conditions updates) with
      | none => exact h
      | some reenc =>
        rw [updatesVisibility, hcas, decide_eq_true hid] at hop
        exact Bool.or_eq_false_iff.mpr ⟨h, hop⟩
    · exact h

theorem touched_foldl : ∀ {ops : List (WriteOp Blob)} {p : Progress Blob},
    (trail visibilityFacet id p).touched = false →
    Along (applyOp codec captureContent) (fun p op =>
      updatesVisibility codec id (p.1.nodeProperties.get id) op = false) p ops →
      (trail visibilityFacet id (ops.foldl (applyOp codec captureContent) p)).touched = false
  | [], _, h, _ => h
  | op :: ops, p, h, hops => by
    rw [List.foldl_cons]
    refine touched_foldl ?_ hops.2
    rw [trail_applyOp]
    exact touched_step h hops.1

/-- **A batch settles every entry at the visibility of the node's image.** -/
theorem Replayable.settleVisibility (h : Replayable codec captureContent g ops)
    (hkeeps : KeepsVisibility codec captureContent g ops) (id : String) :
    Visibility.settleVisibility codec (trail visibilityFacet id (applyOps codec captureContent g ops))
        ((g.nodeProperties.get id).map (visibilityOfImage codec)) =
      ((applyOps codec captureContent g ops).1.nodeProperties.get id).map (visibilityOfImage codec) := by
  by_cases hremoved : .removeNode id ∈ ops
  · have htouched : (trail visibilityFacet id (applyOps codec captureContent g ops)).touched = false :=
      touched_foldl rfl (hkeeps.imp fun _ _ h => h id hremoved)
    have hremoves : 0 < (trail visibilityFacet id (applyOps codec captureContent g ops)).removes := by
      rw [applyOps, trail_foldl]
      exact removes_pos hremoved _
    have himage : (trail visibilityFacet id (applyOps codec captureContent g ops)).image = none := by
      rw [applyOps, trail_foldl]
      exact h.image_removed hremoved _
    have hnone : (applyOps codec captureContent g ops).1.nodeProperties.get id = none := himage
    rw [Visibility.settleVisibility, htouched, if_pos hremoves, hnone]
    rfl
  · have hstart : Showing codec (g.nodeProperties.get id)
        (trail visibilityFacet id (g, ChangeSet.new)) := by
      refine ⟨rfl, ?_, fun _ => rfl⟩
      rintro (h | h)
      · cases h
      · exact absurd rfl h
    have hrun := hstart.run hremoved (along_trail h.stored)
    rw [← trail_foldl] at hrun
    exact hrun.settle

end Batches

/-! ### A warm index -/

section Warm

variable (codec : Codec Blob)

/-- A warm visibility index has the entries a rebuild from the graph gives. -/
def Shows (g : Graph Blob) (cache : VisibilityCache) : Prop :=
  ∀ index, cache.index = some index → index = buildVisibilityIndex codec g

variable {codec} {g : Graph Blob}

theorem get_buildVisibilityIndex (id : String) :
    (buildVisibilityIndex codec g).get id = (g.nodeProperties.get id).map (visibilityOfImage codec) :=
  Table.get_mapValues _ _ _

/-- **A replayable batch that keeps visibility maintains the index.** -/
theorem Shows.batch {captureContent : Bool} {ops : List (WriteOp Blob)} {t : ℕ}
    (hbatch : Replayable codec captureContent g ops) (hkeeps : KeepsVisibility codec captureContent g ops)
    (h : Shows codec g cache) :
    Shows codec (applyOps codec captureContent g ops).1
      (maintainVisibility codec (applyOps codec captureContent g ops).1
        (applyOps codec captureContent g ops).2 t cache) := by
  intro index hindex
  obtain ⟨index₀, h₀, hget⟩ := get_maintainVisibility hindex
  refine Table.ext_get fun id => ?_
  rw [hget, h index₀ h₀, get_buildVisibilityIndex, get_buildVisibilityIndex,
    Replayable.settleVisibility hbatch hkeeps]

end Warm

end Medulla.Index.Visibility
