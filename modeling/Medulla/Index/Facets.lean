import Medulla.Index.Caches

/-! # What the maintenance does to the postings

The label postings and the value postings of each indexed property key are maintained alike. Such a
facet has a view, the keys an image stands under, and the keys that unfiling an image clears: the same
for labels, all of them for a property the image does not have. -/

namespace Medulla.Index.Facets

open Library.OrderedTable Library.Postings Resource.Extension Changes Caches
open Caches.GraphCore

variable {Blob : Type} {key : String} {current : Option Json}

/-! ### Facets -/

/-- One family of postings: where an image stands, what unfiling it clears, and the fields it reads. -/
structure Facet where
  view : Json → List String
  erases : Json → String → Bool
  touched : List String → Bool
  erases_view : ∀ {v k}, k ∈ view v → erases v k = true
  view_merge : ∀ {obj updates : Fields}, touched (updates.map Prod.fst) = false →
    view (.object (mergeUpdates obj updates)) = view (.object obj)

theorem get_mergeUpdates : ∀ {updates obj : Fields}, key ∉ updates.map Prod.fst →
    Changes.get (.object (mergeUpdates obj updates)) key = Changes.get (.object obj) key
  | [], obj, _ => rfl
  | u :: updates, obj, h => by
    rw [List.map_cons, List.mem_cons, not_or] at h
    rw [mergeUpdates, List.foldl_cons, ← mergeUpdates, get_mergeUpdates h.2]
    change lookupRow key (insertRow u.1 u.2 obj) = lookupRow key obj
    rw [lookupRow_insertRow, if_neg h.1]

theorem not_mem_of_changesLabelFields {fields : List String} (h : changesLabelFields fields = false) :
    "type" ∉ fields ∧ "node_type" ∉ fields ∧ "label" ∉ fields ∧ "labels" ∉ fields := by
  have hmem : ∀ f ∈ fields, ¬(f = "type" ∨ f = "node_type" ∨ f = "label" ∨ f = "labels") := by
    intro f hf hor
    refine Bool.eq_false_iff.mp h (List.any_eq_true.mpr ⟨f, hf, ?_⟩)
    simpa [or_assoc] using hor
  exact ⟨fun hf => hmem _ hf (by simp), fun hf => hmem _ hf (by simp), fun hf => hmem _ hf (by simp),
    fun hf => hmem _ hf (by simp)⟩

def labelFacet : Facet where
  view := labelsOf
  erases v k := decide (k ∈ labelsOf v)
  touched := changesLabelFields
  erases_view h := decide_eq_true h
  view_merge {obj updates} h := by
    obtain ⟨h1, h2, h3, h4⟩ := not_mem_of_changesLabelFields h
    simp only [labelsOf, nodeLabelKeys, List.filterMap_cons, List.filterMap_nil, get_mergeUpdates h1,
      get_mergeUpdates h2, get_mergeUpdates h3, get_mergeUpdates h4]

def propertyFacet (key : String) : Facet where
  view v := (valueKey v key).toList
  erases v k := (valueKey v key).all fun vk => k = vk
  touched fields := decide (key ∈ fields)
  erases_view {v k} h := by
    rw [Option.mem_toList] at h
    rw [h, Option.all_some, decide_eq_true_iff]
  view_merge {obj updates} h := by
    rw [valueKey, valueKey, get_mergeUpdates (of_decide_eq_false h)]

/-! ### Refilings -/

namespace Facet

variable (f : Facet) (codec : Codec Blob)

/-- An add: out of the postings of the replaced image, into those of the new one. -/
def addRefiling (core : GraphCore Blob) (change : ChangeSet Blob) (nc : NodeChange Blob) :
    Option (Refiling String String) :=
  (core.nodePropsValue codec nc.id nc.propertiesMsgpack).map fun val =>
    { id := nc.id
      erased := fun k => ((change.replacedNodeProps.get nc.id).bind codec.decodePropertyValue).any
        (f.erases · k)
      filed := fun k => decide (k ∈ f.view val) }

def removeRefiling (captured : Option Json) (id : String) : Refiling String String :=
  { id := id, erased := fun k => captured.all (f.erases · k), filed := fun _ => false }

/-- A refile: out of all postings, into those of the current image. -/
def refile (current : Option Json) (id : String) : Refiling String String :=
  { id := id, erased := fun _ => true, filed := fun k => current.any fun v => decide (k ∈ f.view v) }

def updateRefilings (core : GraphCore Blob) (nc : NodeChange Blob) :
    List (Option (Refiling String String)) :=
  match nc.changedFields with
  | none => [none]
  | some fields =>
    if f.touched fields then [some (f.refile (core.nodePropsValue codec nc.id none) nc.id)] else []

def refilings (core : GraphCore Blob) (change : ChangeSet Blob) :
    List (Option (Refiling String String)) :=
  change.addedNodes.map (f.addRefiling codec core change) ++
    change.removedNodes.map (fun id => some (f.removeRefiling
      ((change.removedNodeProps.get id).bind codec.decodePropertyValue) id)) ++
    change.updatedNodes.flatMap (f.updateRefilings codec core)

end Facet

theorem refile_refile {f : Facet} {id : String} {L : Listing String String} :
    ((f.refile current id).apply ∘ (f.refile current id).apply) L = (f.refile current id).apply L := by
  funext j k
  unfold Refiling.apply Refiling.onKeys Facet.refile
  by_cases h : j = id
  · simp [h]
  · simp [h]

/-! ### Frames -/

/-- Only the label postings and their stamp differ. -/
structure LabelOnly (core core' : GraphCore Blob) : Prop where
  graph : core'.graph = core.graph
  nodeIds : core'.nodeIdIndex = core.nodeIdIndex
  property : core'.propertyIndex = core.propertyIndex

/-- Only the property postings and their stamp differ. -/
structure PropertyOnly (core core' : GraphCore Blob) : Prop where
  graph : core'.graph = core.graph
  nodeIds : core'.nodeIdIndex = core.nodeIdIndex
  label : core'.labelIndex = core.labelIndex

section Primitives

variable (core : GraphCore Blob) (id : String) (t : ℕ)

theorem labelIndexAdd_only (val : Json) : LabelOnly core (core.labelIndexAdd id val t) := by
  unfold labelIndexAdd
  split <;> exact ⟨rfl, rfl, rfl⟩

theorem labelIndexRemove_only (val : Option Json) :
    LabelOnly core (core.labelIndexRemove id val t) := by
  unfold labelIndexRemove
  split <;> exact ⟨rfl, rfl, rfl⟩

theorem labelIndexRefile_only (val : Option Json) :
    LabelOnly core (core.labelIndexRefile id val t) := by
  unfold labelIndexRefile
  split <;> exact ⟨rfl, rfl, rfl⟩

theorem propertyIndexAdd_only (val : Json) : PropertyOnly core (core.propertyIndexAdd id val t) := by
  unfold propertyIndexAdd
  split <;> exact ⟨rfl, rfl, rfl⟩

theorem propertyIndexRemove_only (val : Option Json) :
    PropertyOnly core (core.propertyIndexRemove id val t) := by
  unfold propertyIndexRemove
  split <;> exact ⟨rfl, rfl, rfl⟩

theorem propertyIndexRefile_only (fields : List String) (val : Option Json) :
    PropertyOnly core (core.propertyIndexRefile id fields val t) := by
  unfold propertyIndexRefile
  split
  · exact ⟨rfl, rfl, rfl⟩
  · dsimp only
    split <;> exact ⟨rfl, rfl, rfl⟩

/-! ### The label postings -/

theorem listing_labelIndexAdd (val : Json) : listing (core.labelIndexAdd id val t).labelIndex =
      (listing core.labelIndex).map (Refiling.put id (decide <| · ∈ labelsOf val)).apply := by
  rw [← listing_file]
  unfold labelIndexAdd
  split <;> rename_i h <;> rw [h] <;> rfl

theorem listing_labelIndexRemove (val : Option Json) :
    listing (core.labelIndexRemove id val t).labelIndex =
      (listing core.labelIndex).map (labelFacet.removeRefiling val id).apply := by
  have hmap : (core.labelIndexRemove id val t).labelIndex = core.labelIndex.map
      (val.elim (sweep id) fun val => (labelsOf val).foldl (unfile id)) := by
    unfold labelIndexRemove
    cases h : core.labelIndex with
    | none => exact h
    | some index => cases val <;> rfl
  rw [hmap]
  cases val with
  | some val => exact listing_unfile
  | none => exact listing_sweep

theorem listing_labelIndexRefile (val : Option Json) :
    listing (core.labelIndexRefile id val t).labelIndex =
      (listing core.labelIndex).map (labelFacet.refile val id).apply := by
  have hmap : (core.labelIndexRefile id val t).labelIndex =
      (core.labelIndex.map (sweep id)).map ((val.elim [] labelsOf).foldl (file id)) := by
    unfold labelIndexRefile
    cases h : core.labelIndex with
    | none => exact h
    | some index => cases val <;> rfl
  rw [hmap, listing_file, listing_sweep, Option.map_map]
  congr 1
  funext L
  rw [Function.comp_apply, Refiling.apply_put_erase]
  cases val <;> rfl

/-! ### The value postings of a property key -/

def valuePostings (core : GraphCore Blob) (key : String) : Option (Index String String) :=
  core.propertyIndex.bind fun index => index.get key

theorem listing_propertyIndexAdd (val : Json) (key : String) :
    listing (valuePostings (core.propertyIndexAdd id val t) key) =
      (listing (valuePostings core key)).map
        (Refiling.put id (decide <| · ∈ (propertyFacet key).view val)).apply := by
  have hmap : valuePostings (core.propertyIndexAdd id val t) key =
      (valuePostings core key).map ((valueKey val key).toList.foldl (file id)) := by
    unfold valuePostings propertyIndexAdd
    cases h : core.propertyIndex with
    | none => exact congrArg (Option.bind · _) h
    | some index =>
      change (index.mapEntries _).get key = (index.get key).map _
      rw [Table.get_mapEntries]
      cases valueKey val key <;> rfl
  rw [hmap]
  exact listing_file

theorem listing_propertyIndexRemove (val : Option Json) (key : String) :
    listing (valuePostings (core.propertyIndexRemove id val t) key) =
      (listing (valuePostings core key)).map ((propertyFacet key).removeRefiling val id).apply := by
  have hmap : valuePostings (core.propertyIndexRemove id val t) key = (valuePostings core key).map
        ((val.bind (valueKey · key)).elim (sweep id) fun vk => (unfile id · vk)) := by
    unfold valuePostings propertyIndexRemove
    cases h : core.propertyIndex with
    | none => exact congrArg (Option.bind · _) h
    | some index =>
      change (index.mapEntries _).get key = (index.get key).map _
      rw [Table.get_mapEntries]
      cases val.bind (valueKey · key) <;> rfl
  have herase : (propertyFacet key).removeRefiling val id =
      Refiling.erase id fun k => (val.bind (valueKey · key)).all fun vk => k = vk := by
    cases val <;> rfl
  rw [hmap, herase]
  cases val.bind (valueKey · key) with
  | some vk =>
    have hunfile : (fun x : Index String String => unfile id x vk) = [vk].foldl (unfile id) := rfl
    dsimp only [Option.elim_some]
    rw [hunfile, listing_unfile]
    simp
  | none => exact listing_sweep

theorem listing_refileField {field : String} {byValue : Option (Index String String)} :
    listing (byValue.map (refileField id current field)) =
      (listing byValue).map ((propertyFacet field).refile current id).apply := by
  have hmap : refileField id current field =
      fun byValue => ((current.bind (valueKey · field)).toList).foldl (file id) (sweep id byValue) := by
    unfold refileField
    cases current.bind (valueKey · field) <;> rfl
  have hsplit : byValue.map (refileField id current field) =
      (byValue.map (sweep id)).map (((current.bind (valueKey · field)).toList).foldl (file id)) := by
    rw [hmap, Option.map_map]
    rfl
  rw [hsplit, listing_file, listing_sweep, Option.map_map]
  congr 1
  funext L
  rw [Function.comp_apply, Refiling.apply_put_erase]
  cases current <;> rfl

theorem get_refileIndexed {field : String} {index : PropertyIndex} :
    listing ((refileIndexed id current index field).get key) = if key = field then
        (listing (index.get key)).map ((propertyFacet key).refile current id).apply
      else listing (index.get key) := by
  unfold refileIndexed
  by_cases hkey : key = field
  · subst hkey
    rw [if_pos rfl, ← listing_refileField]
    cases hget : index.get key with
    | none => simp only [hget, Option.map_none]
    | some byValue => simp only [Table.get_insert_self, Option.map_some]
  · rw [if_neg hkey]
    cases hget : index.get field with
    | none => rfl
    | some byValue => simp only [Table.get_insert_of_ne _ _ hkey]

theorem get_refileFields : ∀ {fields : List String} {index : PropertyIndex},
      listing ((refileFields id current fields index).get key) = if key ∈ fields then
          (listing (index.get key)).map ((propertyFacet key).refile current id).apply
        else listing (index.get key)
  | [], index => by simp [refileFields]
  | field :: fields, index => by
    rw [refileFields, List.foldl_cons, ← refileFields, get_refileFields]
    rw [get_refileIndexed]
    by_cases hkey : key = field
    · by_cases hmem : key ∈ fields
      · rw [if_pos hmem, if_pos hkey, if_pos (List.mem_cons_of_mem _ hmem), Option.map_map]
        congr 1
        funext L
        exact refile_refile
      · rw [if_neg hmem, if_pos hkey, if_pos (hkey ▸ List.mem_cons_self)]
    · by_cases hmem : key ∈ fields
      · rw [if_pos hmem, if_neg hkey, if_pos (List.mem_cons_of_mem _ hmem)]
      · rw [if_neg hmem, if_neg hkey, if_neg (List.not_mem_cons_of_ne_of_not_mem hkey hmem)]

theorem listing_propertyIndexRefile (fields : List String) (current : Option Json) (key : String) :
    listing (valuePostings (core.propertyIndexRefile id fields current t) key) =
      if key ∈ fields then
        (listing (valuePostings core key)).map ((propertyFacet key).refile current id).apply
      else listing (valuePostings core key) := by
  unfold valuePostings propertyIndexRefile
  cases h : core.propertyIndex with
  | none => simp [h, listing]
  | some index =>
    have hget : ∀ core' : GraphCore Blob,
        core'.propertyIndex = some (refileFields id current fields index) →
          (core'.propertyIndex.bind fun index => index.get key) =
            (refileFields id current fields index).get key := by
      intro core' hcore
      rw [hcore]
      rfl
    dsimp only
    rw [Option.bind_some, ← get_refileFields]
    split
    · rw [hget _ rfl]
    · rw [hget _ rfl]

end Primitives

/-! ### One change -/

/-- The maintenance of a change leaves the nodes and their ids alone. -/
structure Frame (core core' : GraphCore Blob) : Prop where
  graph : core'.graph = core.graph
  nodeIds : core'.nodeIdIndex = core.nodeIdIndex

theorem Frame.refl (core : GraphCore Blob) : Frame core core := ⟨rfl, rfl⟩

theorem Frame.trans {a b c : GraphCore Blob} (h : Frame a b) (h' : Frame b c) : Frame a c :=
  ⟨h'.graph.trans h.graph, h'.nodeIds.trans h.nodeIds⟩

theorem LabelOnly.frame {a b : GraphCore Blob} (h : LabelOnly a b) : Frame a b := ⟨h.graph, h.nodeIds⟩

theorem PropertyOnly.frame {a b : GraphCore Blob} (h : PropertyOnly a b) : Frame a b :=
  ⟨h.graph, h.nodeIds⟩

section Changes

variable {codec : Codec Blob} (core : GraphCore Blob) (t : ℕ)

theorem unfileReplacedNode_frame (id : String) (prior : Json) :
    Frame core (core.unfileReplacedNode id prior t) :=
  (labelIndexRemove_only core id t _).frame.trans (propertyIndexRemove_only _ id t _).frame

theorem unfileRemovedNode_frame (id : String) (captured : Option Json) :
    Frame core (core.unfileRemovedNode id captured t) :=
  (labelIndexRemove_only core id t _).frame.trans (propertyIndexRemove_only _ id t _).frame

theorem fileAddedNode_frame (nc : NodeChange Blob) (val : Option Json) :
    Frame core (core.fileAddedNode nc val t) := by
  unfold fileAddedNode
  split
  · exact (labelIndexAdd_only core _ t _).frame.trans (propertyIndexAdd_only _ _ t _).frame
  · exact ⟨rfl, rfl⟩

theorem fileAddedUpsert_frame (change : ChangeSet Blob) (nc : NodeChange Blob) :
    Frame core (core.fileAddedUpsert codec change nc t) := by
  unfold fileAddedUpsert
  split
  · exact (unfileReplacedNode_frame core t _ _).trans (fileAddedNode_frame _ t _ _)
  · exact fileAddedNode_frame _ t _ _

theorem maintainUpdate_frame (nc : NodeChange Blob) :
    Frame core (core.maintainUpdate codec nc t) := by
  unfold maintainUpdate
  split
  · exact ⟨rfl, rfl⟩
  · unfold refileUpdatedNode
    split
    · exact (labelIndexRefile_only core _ t _).frame.trans (propertyIndexRefile_only _ _ t _ _).frame
    · exact (propertyIndexRefile_only _ _ t _ _).frame

end Changes

structure Follows (f : Facet) (codec : Codec Blob)
    (postings : GraphCore Blob → Option (Index String String)) : Prop where
  added : ∀ core change nc t, listing (postings (core.fileAddedUpsert codec change nc t)) =
    maintain (listing (postings core)) (f.addRefiling codec core change nc)
  removed : ∀ core id captured t, listing (postings (core.unfileRemovedNode id captured t)) =
    maintain (listing (postings core)) (some (f.removeRefiling captured id))
  updated : ∀ core nc t, listing (postings (core.maintainUpdate codec nc t)) =
    replay (listing (postings core)) (f.updateRefilings codec core nc)
  nodeIds : ∀ core change t, postings (core.maintainNodeIdIndex change t) = postings core

theorem labelIndex_follows (codec : Codec Blob) :
    Follows labelFacet codec (fun core => core.labelIndex) where
  added core change nc t := by
    unfold fileAddedUpsert fileAddedNode Facet.addRefiling
    cases hval : core.nodePropsValue codec nc.id nc.propertiesMsgpack with
    | none => split <;> rfl
    | some val =>
      rw [(propertyIndexAdd_only _ _ t _).label, listing_labelIndexAdd]
      cases hprior : (change.replacedNodeProps.get nc.id).bind codec.decodePropertyValue with
      | none => rfl
      | some prior =>
        dsimp only
        rw [unfileReplacedNode, (propertyIndexRemove_only _ _ t _).label, listing_labelIndexRemove,
          Option.map_map]
        exact congrArg (Option.map · _) (funext fun L => Refiling.apply_put_erase)
  removed core id captured t := by
    rw [unfileRemovedNode, (propertyIndexRemove_only _ _ t _).label, listing_labelIndexRemove]
    rfl
  updated core nc t := by
    unfold maintainUpdate Facet.updateRefilings
    cases nc.changedFields with
    | none => rfl
    | some fields =>
      dsimp only
      rw [refileUpdatedNode, (propertyIndexRefile_only _ _ t _ _).label]
      by_cases htouched : changesLabelFields fields = true
      · rw [if_pos htouched, listing_labelIndexRefile, if_pos (show labelFacet.touched fields = true
          from htouched)]
        rfl
      · rw [if_neg htouched, if_neg (show ¬labelFacet.touched fields = true from htouched)]
        rfl
  nodeIds core change t := by
    unfold maintainNodeIdIndex
    split
    · rfl
    · split <;> rfl

theorem valuePostings_follows (codec : Codec Blob) (key : String) :
    Follows (propertyFacet key) codec (fun core => valuePostings core key) where
  added core change nc t := by
    have hframe : ∀ (c c' : GraphCore Blob), LabelOnly c c' →
        valuePostings c' key = valuePostings c key := by
      intro c c' h
      rw [valuePostings, h.property, valuePostings]
    unfold fileAddedUpsert fileAddedNode Facet.addRefiling
    cases hval : core.nodePropsValue codec nc.id nc.propertiesMsgpack with
    | none => split <;> rfl
    | some val =>
      rw [listing_propertyIndexAdd, hframe _ _ (labelIndexAdd_only _ _ t _)]
      cases hprior : (change.replacedNodeProps.get nc.id).bind codec.decodePropertyValue with
      | none => rfl
      | some prior =>
        dsimp only
        rw [unfileReplacedNode, listing_propertyIndexRemove, hframe _ _ (labelIndexRemove_only _ _ t _),
          Option.map_map]
        exact congrArg (Option.map · _) (funext fun L => Refiling.apply_put_erase)
  removed core id captured t := by
    rw [unfileRemovedNode, listing_propertyIndexRemove, valuePostings,
      (labelIndexRemove_only core id t captured).property]
    rfl
  updated core nc t := by
    unfold maintainUpdate Facet.updateRefilings
    cases nc.changedFields with
    | none => rfl
    | some fields =>
      dsimp only
      have hlabel : valuePostings (if changesLabelFields fields then
          core.labelIndexRefile nc.id (core.nodePropsValue codec nc.id none) t else core) key =
          valuePostings core key := by
        split
        · rw [valuePostings, (labelIndexRefile_only core _ t _).property, valuePostings]
        · rfl
      rw [refileUpdatedNode, listing_propertyIndexRefile, hlabel]
      by_cases hkey : key ∈ fields
      · rw [if_pos hkey, if_pos (show (propertyFacet key).touched fields = true from decide_eq_true hkey)]
        rfl
      · rw [if_neg hkey, if_neg (by simpa [propertyFacet] using hkey)]
        rfl
  nodeIds core change t := by
    unfold maintainNodeIdIndex
    split
    · rfl
    · split <;> rfl

/-! ### A change set -/

section ChangeSets

variable {f : Facet} {codec : Codec Blob} {postings : GraphCore Blob → Option (Index String String)}

theorem addRefiling_congr {core core' : GraphCore Blob} (h : core'.graph = core.graph) :
    f.addRefiling codec core' = f.addRefiling codec core := by
  funext change nc
  rw [Facet.addRefiling, Facet.addRefiling, nodePropsValue, nodePropsValue, h]

theorem updateRefilings_congr {core core' : GraphCore Blob} (h : core'.graph = core.graph) :
    f.updateRefilings codec core' = f.updateRefilings codec core := by
  funext nc
  simp only [Facet.updateRefilings, nodePropsValue, h]

theorem maintainAdds_frame (core : GraphCore Blob) (change : ChangeSet Blob) (t : ℕ) :
    ∀ ncs : List (NodeChange Blob),
      Frame core (ncs.foldl (fun core nc => core.fileAddedUpsert codec change nc t) core) := by
  intro ncs
  induction ncs generalizing core with
  | nil => exact Frame.refl core
  | cons nc ncs ih => exact (fileAddedUpsert_frame core t change nc).trans (ih _)

theorem maintainRemoves_frame (core : GraphCore Blob) (captured : String → Option Json) (t : ℕ) :
    ∀ ids : List String,
      Frame core (ids.foldl (fun core id => core.unfileRemovedNode id (captured id) t) core) := by
  intro ids
  induction ids generalizing core with
  | nil => exact Frame.refl core
  | cons id ids ih => exact (unfileRemovedNode_frame core t id _).trans (ih _)

theorem maintainUpdates_frame (core : GraphCore Blob) (t : ℕ) : ∀ ncs : List (NodeChange Blob),
      Frame core (ncs.foldl (fun core nc => core.maintainUpdate codec nc t) core) := by
  intro ncs
  induction ncs generalizing core with
  | nil => exact Frame.refl core
  | cons nc ncs ih => exact (maintainUpdate_frame core t nc).trans (ih _)

theorem Follows.adds (hf : Follows f codec postings) (change : ChangeSet Blob) (t : ℕ) :
    ∀ (ncs : List (NodeChange Blob)) (core : GraphCore Blob),
      listing (postings (ncs.foldl (fun core nc => core.fileAddedUpsert codec change nc t) core)) =
        replay (listing (postings core)) (ncs.map (f.addRefiling codec core change))
  | [], core => rfl
  | nc :: ncs, core => by
    rw [List.foldl_cons, hf.adds change t ncs, hf.added,
      addRefiling_congr (fileAddedUpsert_frame core t change nc).graph]
    rfl

theorem Follows.removes (hf : Follows f codec postings) (captured : String → Option Json) (t : ℕ) :
    ∀ (ids : List String) (core : GraphCore Blob),
      listing (postings (ids.foldl (fun core id => core.unfileRemovedNode id (captured id) t) core)) =
        replay (listing (postings core))
          (ids.map fun id => some (f.removeRefiling (captured id) id))
  | [], core => rfl
  | id :: ids, core => by
    rw [List.foldl_cons, hf.removes captured t ids, hf.removed]
    rfl

theorem Follows.updates (hf : Follows f codec postings) (t : ℕ) :
    ∀ (ncs : List (NodeChange Blob)) (core : GraphCore Blob),
      listing (postings (ncs.foldl (fun core nc => core.maintainUpdate codec nc t) core)) =
        replay (listing (postings core)) (ncs.flatMap (f.updateRefilings codec core))
  | [], core => rfl
  | nc :: ncs, core => by
    rw [List.foldl_cons, hf.updates t ncs, hf.updated, List.flatMap_cons, replay_append,
      updateRefilings_congr (maintainUpdate_frame core t nc).graph]

/-- **The maintenance of a change set is a list of refilings.** -/
theorem Follows.invalidate (hf : Follows f codec postings) (core : GraphCore Blob)
    (change : ChangeSet Blob) (t : ℕ) :
    listing (postings (core.invalidateIndexesForChange codec change t)) =
      replay (listing (postings core)) (f.refilings codec core change) := by
  have hgraph : (if change.hasNodeChanges then core.maintainNodeIdIndex change t else core).graph =
      core.graph := by
    unfold maintainNodeIdIndex
    split
    · split
      · rfl
      · split <;> rfl
    · rfl
  have hpostings : postings (if change.hasNodeChanges then core.maintainNodeIdIndex change t else core) =
      postings core := by
    split
    · exact hf.nodeIds core change t
    · rfl
  unfold invalidateIndexesForChange
  generalize (if change.hasNodeChanges then core.maintainNodeIdIndex change t else core) = start at *
  have hadds : Frame start (start.maintainAdds codec change t) :=
    maintainAdds_frame start change t change.addedNodes
  have hremoves : Frame (start.maintainAdds codec change t)
      ((start.maintainAdds codec change t).maintainRemoves codec change t) :=
    maintainRemoves_frame _
      (fun id => (change.removedNodeProps.get id).bind codec.decodePropertyValue) t change.removedNodes
  rw [maintainUpdates, hf.updates, updateRefilings_congr (hadds.trans hremoves).graph]
  rw [maintainRemoves, hf.removes _ t, maintainAdds, hf.adds, hpostings, Facet.refilings, replay_append,
    replay_append, addRefiling_congr hgraph, updateRefilings_congr hgraph]

end ChangeSets

end Medulla.Index.Facets
