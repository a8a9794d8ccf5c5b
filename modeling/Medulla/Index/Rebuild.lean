import Medulla.Index.Lineage

/-! # Warm indexes against a rebuild

The maintenance replays a batch as all adds, then all removals, then all updates, and this is right for
a batch in which the order makes no difference: a node that the batch removes is not there at its end,
and the images the batch built for it in between are the ones the change set kept.

* one batch: `Current.batch`;
* every run: `warm_is_rebuilt`. -/

namespace Medulla.Index.Rebuild

open Library.OrderedTable Library.OrderedSet Library.Postings Library.Transaction Resource.Extension
open Changes Caches Facets Trails Lineage Caches.GraphCore

variable {Blob : Type} {b : String → Bool} {core : GraphCore Blob} {id : String} {f : Facet}
  {g : Graph Blob} {captureContent : Bool} {ops : List (WriteOp Blob)}
  {byValue : Index String String} {postings : GraphCore Blob → Option (Index String String)}

/-! ### Settling a node -/

section Settling

variable {codec : Codec Blob} {prior : Option Blob} {added : List Blob} {tr : Trail Blob}

theorem settleAdd_eq {v : Json} {captured : Option Blob}
    (hv : tr.image.bind codec.decodePropertyValue = some v)
    (hb : ∀ k, b k = true → stands f codec tr.image k = true ∨
      (tr.replaced.bind codec.decodePropertyValue).any (f.erases · k) = true) :
    tr.settleAdd f codec b captured = stands f codec tr.image := by
  funext k
  unfold Trail.settleAdd Trail.value stands
  have hbk := hb k
  unfold stands at hbk
  rw [hv] at hbk ⊢
  rw [Option.some_or]
  cases hmem : (some v).any (fun v => decide (k ∈ f.view v)) with
  | true => rw [Bool.or_true]
  | false =>
    rw [Bool.or_false]
    rw [hmem] at hbk
    cases hbt : b k with
    | false => rfl
    | true => rw [(hbk hbt).resolve_left Bool.false_ne_true, Bool.not_true, Bool.and_false]

theorem foldl_settleAdd {v : Json} (hv : tr.image.bind codec.decodePropertyValue = some v) :
    ∀ {captured : List (Option Blob)} {b : String → Bool}, captured ≠ [] →
      (∀ k, b k = true → stands f codec tr.image k = true ∨
        (tr.replaced.bind codec.decodePropertyValue).any (f.erases · k) = true) →
        captured.foldl (tr.settleAdd f codec) b = stands f codec tr.image
  | [], _, h, _ => absurd rfl h
  | [c], b, _, hb => by
    rw [List.foldl_cons, settleAdd_eq hv hb]
    rfl
  | c :: c' :: cs, b, _, hb => by
    rw [List.foldl_cons, settleAdd_eq hv hb]
    exact foldl_settleAdd hv (List.cons_ne_nil _ _) fun k hk => Or.inl hk

theorem settle_building (h : Building f codec captureContent (prior.toList ++ added) added tr)
    (htouched : tr.touched = false)
    (hsome : ∀ captured ∈ tr.adds, (tr.value codec captured).isSome = true) :
    tr.settle f codec (stands f codec prior) = stands f codec tr.image := by
  unfold Trail.settle
  rw [htouched, h.removes]
  rcases List.eq_nil_or_concat' added with rfl | ⟨init, last, rfl⟩
  · have himage := h.image
    rw [h.adds]
    funext k
    rw [himage.stands_eq]
    cases prior <;> rfl
  · have himage := h.image
    rw [← List.append_assoc, List.getLast?_append] at himage
    obtain ⟨y, hy, hstanding⟩ := himage.exists_eq_some
    have hlast : capture captureContent last ∈ tr.adds := by
      rw [h.adds, List.map_append]
      exact List.mem_append_right _ (.head _)
    -- An image that does not decode was the last add's, and that add would have dropped the index.
    have hdecoded : ∃ v, tr.image.bind codec.decodePropertyValue = some v := by
      rw [← Option.isSome_iff_exists, hy, Option.bind_some]
      by_contra hnone
      rw [Bool.not_eq_true, Option.isSome_eq_false_iff, Option.isNone_iff_eq_none] at hnone
      have hlastnone : codec.decodePropertyValue last = none := by
        rw [standing, standing, hnone, Option.map_none, eq_comm, Option.map_eq_none_iff] at hstanding
        exact hstanding
      have hvalue := hsome _ hlast
      rw [Trail.value, hy, Option.bind_some, hnone, capture] at hvalue
      split at hvalue
      · rw [Option.bind_some, hlastnone] at hvalue
        cases hvalue
      · cases hvalue
    obtain ⟨v, hv⟩ := hdecoded
    refine foldl_settleAdd hv (List.ne_nil_of_mem hlast) fun k hk => Or.inr ?_
    cases prior with
    | none => exact absurd hk (by simp [stands])
    | some p =>
      have hreplaced : Alike f codec tr.replaced (some p) := by
        have hr := h.replaced
        rw [firstReplaced, if_pos (by simp)] at hr
        exact hr
      obtain ⟨r, hr, herases⟩ := hreplaced.erases hk
      rw [hr, Option.any_some, herases]

theorem settleRemove_false : tr.settleRemove f codec (fun _ => false) = fun _ => false := rfl

theorem iterate_settleRemove {image : Option Blob} (hremoves : 0 < tr.removes)
    (hremoved : Alike f codec tr.removed image)
    (hb : ∀ k, b k = true → stands f codec image k = true) :
    (tr.settleRemove f codec)^[tr.removes] b = fun _ => false := by
  have hone : tr.settleRemove f codec b = fun _ => false := by
    funext k
    unfold Trail.settleRemove
    cases hk : b k with
    | false => rfl
    | true =>
      obtain ⟨v, hv, herases⟩ := hremoved.erases (hb k hk)
      rw [hv, Option.all_some, herases]
      rfl
  obtain ⟨n, hn⟩ := Nat.exists_eq_succ_of_ne_zero hremoves.ne'
  rw [hn, Function.iterate_succ_apply, hone, Function.iterate_fixed settleRemove_false]

theorem settleAdd_gone {q : Blob} (himage : tr.image = none) (hb : ∀ k, b k = true →
      (tr.replaced.bind codec.decodePropertyValue).any (f.erases · k) = true) {k : String}
    (hk : tr.settleAdd f codec b (some q) k = true) : stands f codec (some q) k = true := by
  unfold Trail.settleAdd Trail.value at hk
  rw [himage, Bool.or_eq_true, Bool.and_eq_true] at hk
  rcases hk with ⟨hbk, herased⟩ | hk
  · rw [hb k hbk] at herased
    cases herased
  · exact hk

section
variable (h : Gone f codec captureContent (prior.toList ++ added) added tr)
include h

theorem Gone.erases {x y : Blob}
    {rest : List Blob} (hbases : prior.toList ++ added = x :: y :: rest) {k : String}
    (hk : stands f codec (some x) k = true) :
    (tr.replaced.bind codec.decodePropertyValue).any (f.erases · k) = true := by
  have hreplaced : Alike f codec tr.replaced (some x) := by
    have hr := h.replaced
    rw [hbases] at hr
    exact hr
  obtain ⟨r, hr, herases⟩ := hreplaced.erases hk
  rw [hr, Option.any_some, herases]

theorem settle_gone (htouched : tr.touched = false)
    (himages : added = [] ∨ captureContent = true ∧ (prior.toList ++ added).length ≤ 2) :
    tr.settle f codec (stands f codec prior) = fun _ => false := by
  unfold Trail.settle
  rw [htouched]
  refine iterate_settleRemove h.removes h.removed fun k hk => ?_
  rw [h.adds] at hk
  rcases himages with rfl | ⟨hcapture, hlength⟩
  · cases prior <;> exact hk
  · have hcap : ∀ b : Blob, capture captureContent b = some b := fun b => if_pos hcapture
    match hprior : prior, hadded : added with
    | none, [] => exact hk
    | some _, [] => exact hk
    | none, [q] =>
      rw [List.map_cons, List.foldl_cons, hcap] at hk
      exact settleAdd_gone h.image (fun k hb => absurd hb (by simp [stands])) hk
    | some p, [q] =>
      rw [List.map_cons, hcap] at hk
      exact settleAdd_gone h.image (fun k hb => Gone.erases h rfl hb) hk
    | none, [q, q'] =>
      rw [List.map_cons, List.map_cons, hcap, hcap] at hk
      refine settleAdd_gone h.image (fun k hb => Gone.erases h rfl ?_) hk
      exact settleAdd_gone h.image (fun k hb => absurd hb (by simp [stands])) hb
    | some _, _ :: _ :: _ => simp at hlength
    | none, _ :: _ :: _ :: _ => simp at hlength

end

end Settling

/-! ### Batches whose order makes no difference -/

section Batches

variable (codec : Codec Blob) (captureContent : Bool)

/-- A won compare-and-set stores an image that decodes to the merged object. -/
def StoresMerged (g : Graph Blob) (op : WriteOp Blob) : Prop :=
  ∀ id, StoresMergedOn codec id (g.nodeProperties.get id) op

/-- A batch that the maintenance may replay as adds, removals, updates: a node added after a removal is
removed again, where added images are not captured; where they are, a removed node has at most two; and
every image a compare-and-set stores can be read back. -/
structure Replayable (g : Graph Blob) (ops : List (WriteOp Blob)) : Prop where
  reAdded : ∀ {id b pre post}, ops = pre ++ .addNode id b :: post → .removeNode id ∈ pre →
    captureContent = false ∧ .removeNode id ∈ post
  images : ∀ {id}, captureContent = true → .removeNode id ∈ ops →
    (addedImages id ops).length + (if has g.nodeMap id then 1 else 0) ≤ 2
  stored : Along (applyOp codec captureContent) (fun p op => StoresMerged codec p.1 op)
    (g, ChangeSet.new) ops

variable {codec captureContent}

theorem building_start (captureContent : Bool) (f : Facet) (id : String) (g : Graph Blob) :
    Building f codec captureContent ((g.nodeProperties.get id).toList ++ []) []
      (trail f id (g, ChangeSet.new)) := by
  refine ⟨rfl, rfl, rfl, ?_, ?_⟩
  · rw [List.append_nil]
    unfold trail
    cases g.nodeProperties.get id <;> exact Alike.refl
  · rw [List.append_nil]
    cases g.nodeProperties.get id <;> exact Alike.refl

theorem along_trail : ∀ {ops : List (WriteOp Blob)} {p : Progress Blob},
    Along (applyOp codec captureContent) (fun p op => StoresMerged codec p.1 op) p ops →
      Along (Trail.step f codec captureContent id) (fun tr => StoresMergedOn codec id tr.image)
        (trail f id p) ops
  | [], _, _ => trivial
  | op :: ops, p, h => by
    refine ⟨h.1 id, ?_⟩
    rw [← trail_applyOp]
    exact along_trail h.2

theorem adds_step (tr : Trail Blob) (op : WriteOp Blob) :
    (tr.step f codec captureContent id op).adds =
      tr.adds ++ (addedImages id [op]).map (capture captureContent) := by
  unfold Trail.step
  cases op with
  | addNode nodeId b =>
    by_cases hid : nodeId = id
    · simp [addedImages, hid, capture]
    · simp [addedImages, hid]
  | removeNode nodeId => dsimp only; split <;> exact (List.append_nil _).symm
  | addEdge _ _ => exact (List.append_nil _).symm
  | removeEdge _ _ => exact (List.append_nil _).symm
  | compareAndSet _ _ _ =>
    dsimp only
    split
    · split <;> exact (List.append_nil _).symm
    · exact (List.append_nil _).symm

theorem adds_foldl : ∀ (ops : List (WriteOp Blob)) (tr : Trail Blob),
    (ops.foldl (Trail.step f codec captureContent id) tr).adds =
      tr.adds ++ (addedImages id ops).map (capture captureContent)
  | [], tr => (List.append_nil _).symm
  | op :: ops, tr => by
    have himages : addedImages id (op :: ops) = addedImages id [op] ++ addedImages id ops :=
      List.filterMap_append (l := [op])
    rw [List.foldl_cons, adds_foldl ops, adds_step, himages, List.map_append, List.append_assoc]

theorem addedImages_eq_nil (h : ∀ b, .addNode id b ∉ ops) : addedImages id ops = [] := by
  rw [addedImages, List.filterMap_eq_nil_iff]
  intro op hop
  cases op with
  | addNode nodeId b =>
    refine if_neg ?_
    rintro rfl
    exact h b hop
  | _ => rfl

theorem not_mem_of_addedImages (h : addedImages id ops = []) (b : Blob) : .addNode id b ∉ ops := by
  intro hop
  rw [addedImages, List.filterMap_eq_nil_iff] at h
  exact absurd (h _ hop) (by simp)

theorem exists_last_mem {α : Type} {a : α} {l : List α} (h : a ∈ l) :
    ∃ pre post, l = pre ++ a :: post ∧ a ∉ post := by
  obtain ⟨as, bs, heq, hnot⟩ := List.eq_append_cons_of_mem (List.mem_reverse.mpr h)
  refine ⟨bs.reverse, as.reverse, ?_, fun hmem => hnot (List.mem_reverse.mp hmem)⟩
  rw [← List.reverse_reverse l, heq, List.reverse_append, List.reverse_cons, List.append_assoc]
  rfl

theorem image_none : ∀ {ops : List (WriteOp Blob)} {tr : Trail Blob}, tr.image = none →
    (∀ b, .addNode id b ∉ ops) → (ops.foldl (Trail.step f codec captureContent id) tr).image = none
  | [], _, h, _ => h
  | op :: ops, tr, h, hadds => by
    rw [List.foldl_cons]
    refine image_none ?_ fun b hb => hadds b (.tail _ hb)
    unfold Trail.step
    cases op with
    | addNode nodeId b =>
      have hid : ¬nodeId = id := fun hid => hadds b (by rw [hid]; exact .head _)
      dsimp only
      rw [if_neg hid]
      exact h
    | removeNode nodeId => dsimp only; split <;> first | rfl | exact h
    | addEdge _ _ => exact h
    | removeEdge _ _ => exact h
    | compareAndSet _ _ _ =>
      dsimp only
      rw [h]
      split <;> exact h

section
variable (h : Replayable codec captureContent g ops)
include h

theorem Replayable.image_removed (hremoved : .removeNode id ∈ ops) (tr : Trail Blob) :
    (ops.foldl (Trail.step f codec captureContent id) tr).image = none := by
  obtain ⟨pre, post, heq, hlast⟩ := exists_last_mem hremoved
  rw [heq, List.foldl_append, List.foldl_cons]
  refine image_none ?_ ?_
  · unfold Trail.step
    dsimp only
    rw [if_pos rfl]
  · intro b hb
    obtain ⟨p₁, p₂, hpost⟩ := List.append_of_mem hb
    have hsplit : ops = (pre ++ .removeNode id :: p₁) ++ .addNode id b :: p₂ := by
      rw [heq, hpost, List.append_assoc]
      rfl
    have hmem := (h.reAdded hsplit (List.mem_append_right _ (.head _))).2
    refine hlast ?_
    rw [hpost]
    exact List.mem_append_right _ (.tail _ hmem)

theorem Replayable.building (hkept : .removeNode id ∉ ops)
    (htouched : (trail f id (applyOps codec captureContent g ops)).touched = false) :
    Building f codec captureContent ((g.nodeProperties.get id).toList ++ addedImages id ops)
      (addedImages id ops) (trail f id (applyOps codec captureContent g ops)) := by
  unfold applyOps at htouched ⊢
  rw [trail_foldl] at htouched ⊢
  have hrun := (building_start captureContent f id g).run hkept (along_trail h.stored) htouched
  rw [List.append_nil] at hrun
  exact hrun

theorem Replayable.gone (hremoved : .removeNode id ∈ ops)
    (horder : captureContent = true ∨ addedImages id ops = [])
    (htouched : (trail f id (applyOps codec captureContent g ops)).touched = false) :
    Gone f codec captureContent ((g.nodeProperties.get id).toList ++ addedImages id ops)
      (addedImages id ops) (trail f id (applyOps codec captureContent g ops)) := by
  obtain ⟨pre, post, heq, hfirst⟩ := List.eq_append_cons_of_mem hremoved
  have hpost : ∀ b, .addNode id b ∉ post := by
    intro b hb
    rcases horder with hcapture | hnone
    · obtain ⟨p₁, p₂, hpost⟩ := List.append_of_mem hb
      have hsplit : ops = (pre ++ .removeNode id :: p₁) ++ .addNode id b :: p₂ := by
        rw [heq, hpost, List.append_assoc]
        rfl
      have hfalse := (h.reAdded hsplit (List.mem_append_right _ (.head _))).1
      rw [hcapture] at hfalse
      cases hfalse
    · refine not_mem_of_addedImages hnone b ?_
      rw [heq]
      exact List.mem_append_right _ (.tail _ hb)
  have himages : addedImages id ops = addedImages id pre := by
    have hnil : addedImages id (.removeNode id :: post) = [] := by
      refine addedImages_eq_nil fun b hb => ?_
      rcases List.mem_cons.mp hb with hb | hb
      · cases hb
      · exact hpost b hb
    rw [heq, addedImages, List.filterMap_append, ← addedImages, ← addedImages, hnil, List.append_nil]
  have hstored := h.stored
  rw [heq] at hstored
  unfold applyOps at htouched ⊢
  rw [trail_foldl, heq, List.foldl_append] at htouched ⊢
  have hbuilding := (building_start captureContent f id g).run hfirst
    (along_trail ((along_append _ _ _).mp hstored).1) (touched_of_step (touched_of_foldl htouched))
  rw [List.append_nil] at hbuilding
  rw [← heq, himages]
  exact hbuilding.remove.run hpost

/-- **A replayable batch settles every node where its image stands.** -/
theorem Replayable.settle
    (hsome : ∀ captured ∈ (trail f id (applyOps codec captureContent g ops)).adds,
      ((trail f id (applyOps codec captureContent g ops)).value codec captured).isSome = true) :
    (trail f id (applyOps codec captureContent g ops)).settle f codec
        (stands f codec (g.nodeProperties.get id)) =
      stands f codec (trail f id (applyOps codec captureContent g ops)).image := by
  cases htouched : (trail f id (applyOps codec captureContent g ops)).touched with
  | true =>
    rw [Trail.settle, if_pos htouched]
    rw [Trail.value, Option.bind_none, Option.or_none]
    rfl
  | false =>
    by_cases hremoved : .removeNode id ∈ ops
    · have himage : (trail f id (applyOps codec captureContent g ops)).image = none := by
        rw [applyOps, trail_foldl]
        exact h.image_removed hremoved _
      have hadds : (trail f id (applyOps codec captureContent g ops)).adds =
          (addedImages id ops).map (capture captureContent) := by
        rw [applyOps, trail_foldl, adds_foldl]
        rfl
      have horder : addedImages id ops = [] ∨ captureContent = true := by
        by_contra hnot
        rw [not_or, Bool.not_eq_true] at hnot
        obtain ⟨b, hb⟩ := List.exists_mem_of_ne_nil _ hnot.1
        have hvalue := hsome (capture captureContent b) (by rw [hadds]; exact List.mem_map_of_mem hb)
        rw [Trail.value, himage, hnot.2] at hvalue
        cases hvalue
      have hgone := h.gone hremoved horder.symm htouched
      rw [himage]
      refine settle_gone hgone htouched (horder.imp_right fun hcapture => ⟨hcapture, ?_⟩)
      have himages := h.images hcapture hremoved
      rw [g.aligned] at himages
      cases hprior : g.nodeProperties.get id with
      | none => simp [hprior] at himages ⊢; omega
      | some p => simp [hprior] at himages ⊢; omega
    · exact settle_building (h.building hremoved htouched) htouched hsome

end

end Batches

/-! ### Current postings -/

section Postings

variable {codec : Codec Blob} {postings : GraphCore Blob → Option (Index String String)}

def Current (f : Facet) (codec : Codec Blob) (postings : GraphCore Blob → Option (Index String String))
    (core : GraphCore Blob) : Prop :=
  ∀ L, listing (postings core) = some L →
    ∀ id, L id = stands f codec (core.graph.nodeProperties.get id)

theorem invalidateIndexesForChange_graph (core : GraphCore Blob) (change : ChangeSet Blob) (t : ℕ) :
    (core.invalidateIndexesForChange codec change t).graph = core.graph := by
  unfold invalidateIndexesForChange
  have hids : (if change.hasNodeChanges then core.maintainNodeIdIndex change t else core).graph =
      core.graph := by
    unfold maintainNodeIdIndex
    split
    · split
      · rfl
      · split <;> rfl
    · rfl
  rw [maintainUpdates, (maintainUpdates_frame _ _ _).graph, maintainRemoves,
    (maintainRemoves_frame _ _ _ _).graph, maintainAdds, (maintainAdds_frame _ _ _ _).graph, hids]

theorem refilings_isEmpty {change : ChangeSet Blob} (h : change.isEmpty = true) :
    f.refilings codec core change = [] := by
  simp only [ChangeSet.isEmpty, Bool.and_eq_true, List.isEmpty_iff] at h
  obtain ⟨⟨⟨⟨h1, h2⟩, h3⟩, -⟩, -⟩ := h
  rw [Facet.refilings, h1, h2, h3]
  rfl

theorem applyBatch_graph (core : GraphCore Blob) :
    (core.applyBatch codec captureContent ops).graph =
      (applyOps codec captureContent core.graph ops).1 := by
  unfold applyBatch
  dsimp only
  split
  · rfl
  · rw [invalidateIndexesForChange_graph]

/-- **A replayable batch keeps warm postings current.** -/
theorem Current.batch (hf : Follows f codec postings)
    (hgraph : ∀ (core : GraphCore Blob) g, postings { core with graph := g } = postings core)
    (hbatch : Replayable codec captureContent core.graph ops) (h : Current f codec postings core) :
    Current f codec postings (core.applyBatch codec captureContent ops) := by
  intro L hL id
  rw [applyBatch_graph]
  have hreplay : listing (postings (core.applyBatch codec captureContent ops)) =
      replay (listing (postings core)) (f.refilings codec
        { core with graph := (applyOps codec captureContent core.graph ops).1 }
        (applyOps codec captureContent core.graph ops).2) := by
    unfold applyBatch
    dsimp only
    split
    · rw [hgraph, refilings_isEmpty ‹_›]
      rfl
    · rw [hf.invalidate, hgraph]
  rw [hreplay] at hL
  obtain ⟨hdrop, L₀, hL₀, hone⟩ := replay_eq_some hL
  obtain ⟨hsome, hsettle⟩ := replayOne_refilings (L₀ id) hdrop
  rw [hone id, hsettle, h L₀ hL₀ id]
  exact hbatch.settle hsome

theorem Current.stands_listed (h : Current f codec postings core) {index : Index String String}
    (hindex : postings core = some index) (k id : String) :
    listed index k id = stands f codec (core.graph.nodeProperties.get id) k := by
  have hL : listing (postings core) = some fun id k => listed index k id := by
    rw [hindex]
    rfl
  exact congrFun (h _ hL id) k

theorem listed_buildLabelIndex (g : Graph Blob) (k id : String) :
    listed (buildLabelIndex codec g) k id = stands labelFacet codec (g.nodeProperties.get id) k := by
  have hbuild : buildLabelIndex codec g =
      build (fun b => ((codec.decodePropertyValue b).map labelsOf).getD []) g.nodeProperties := by
    unfold buildLabelIndex build
    congr 1
    funext index r
    dsimp only
    cases codec.decodePropertyValue r.2 <;> rfl
  rw [hbuild, listed_build]
  unfold stands
  cases g.nodeProperties.get id with
  | none => rfl
  | some b =>
    rw [Option.any_some, Option.bind_some]
    cases codec.decodePropertyValue b with
    | none => exact decide_eq_false List.not_mem_nil
    | some v => rfl

theorem listed_buildPropertyValueMap (g : Graph Blob) (key k id : String) :
    listed (buildPropertyValueMap codec g key) k id =
      stands (propertyFacet key) codec (g.nodeProperties.get id) k := by
  have hbuild : buildPropertyValueMap codec g key =
      build (fun b => ((codec.decodePropertyValue b).bind (valueKey · key)).toList)
        g.nodeProperties := by
    unfold buildPropertyValueMap build
    congr 1
    funext index r
    dsimp only
    cases (codec.decodePropertyValue r.2).bind (valueKey · key) <;> rfl
  rw [hbuild, listed_build]
  unfold stands
  cases g.nodeProperties.get id with
  | none => rfl
  | some b =>
    rw [Option.any_some, Option.bind_some]
    cases codec.decodePropertyValue b with
    | none => exact decide_eq_false List.not_mem_nil
    | some v => rfl

end Postings

/-! ### The node ids -/

section NodeIds

variable {codec : Codec Blob}

/-- The facet that reads nothing: only whether a node is there. -/
def idFacet : Facet where
  view _ := []
  erases _ _ := true
  touched _ := false
  erases_view _ := rfl
  view_merge _ := rfl

theorem touched_idFacet (id : String) (p : Progress Blob) : (trail idFacet id p).touched = false := by
  refine List.any_eq_false.mpr fun nc _ => ?_
  unfold touches
  cases nc.changedFields <;> simp [idFacet]

theorem has_foldl_add : ∀ {ncs : List (NodeChange Blob)} {ids : KeySet String},
    has (ncs.foldl (fun ids nc => add ids nc.id) ids) id = true ↔
      has ids id = true ∨ ∃ nc ∈ ncs, nc.id = id
  | [], ids => by simp
  | nc :: ncs, ids => by
    rw [List.foldl_cons, has_foldl_add, has_add, List.exists_mem_cons_iff, eq_comm]
    tauto

theorem has_foldl_remove : ∀ {removed : List String} {ids : KeySet String},
    has (removed.foldl (fun ids id => ids.remove id) ids) id = true ↔
      has ids id = true ∧ id ∉ removed
  | [], ids => by simp
  | i :: removed, ids => by
    rw [List.foldl_cons, has_foldl_remove, has_remove, List.mem_cons]
    tauto

theorem removes_le_step (tr : Trail Blob) (op : WriteOp Blob) :
    tr.removes ≤ (tr.step f codec captureContent id op).removes := by
  unfold Trail.step
  cases op with
  | addNode _ _ => dsimp only; split <;> exact le_rfl
  | removeNode _ => dsimp only; split <;> simp
  | addEdge _ _ => exact le_rfl
  | removeEdge _ _ => exact le_rfl
  | compareAndSet _ _ _ =>
    dsimp only
    split
    · split <;> exact le_rfl
    · exact le_rfl

theorem removes_le_foldl : ∀ (ops : List (WriteOp Blob)) (tr : Trail Blob),
    tr.removes ≤ (ops.foldl (Trail.step f codec captureContent id) tr).removes
  | [], _ => le_rfl
  | op :: ops, tr => (removes_le_step tr op).trans (removes_le_foldl ops _)

theorem removes_pos (h : .removeNode id ∈ ops) (tr : Trail Blob) :
    0 < (ops.foldl (Trail.step f codec captureContent id) tr).removes := by
  obtain ⟨pre, post, rfl⟩ := List.append_of_mem h
  rw [List.foldl_append]
  refine lt_of_lt_of_le ?_ (removes_le_foldl post _)
  unfold Trail.step
  dsimp only
  rw [if_pos rfl]
  exact Nat.succ_pos _

theorem Replayable.isSome_iff (h : Replayable codec captureContent g ops) (id : String) :
    ((applyOps codec captureContent g ops).1.nodeProperties.get id).isSome = true ↔
      ((g.nodeProperties.get id).isSome = true ∨
        ∃ nc ∈ (applyOps codec captureContent g ops).2.addedNodes, nc.id = id) ∧
      id ∉ (applyOps codec captureContent g ops).2.removedNodes := by
  have hremoves : (trail idFacet id (applyOps codec captureContent g ops)).removes =
      (applyOps codec captureContent g ops).2.removedNodes.count id := rfl
  have himage : (trail idFacet id (applyOps codec captureContent g ops)).image =
      (applyOps codec captureContent g ops).1.nodeProperties.get id := rfl
  by_cases hremoved : .removeNode id ∈ ops
  · refine iff_of_false ?_ fun hand => hand.2 ?_
    · rw [← himage, applyOps, trail_foldl, h.image_removed hremoved]
      exact Bool.false_ne_true
    · rw [← List.count_pos_iff, ← hremoves, applyOps, trail_foldl]
      exact removes_pos hremoved _
  · have hbuilding := h.building hremoved (touched_idFacet id _)
    have hzero : id ∉ (applyOps codec captureContent g ops).2.removedNodes := by
      rw [← List.count_eq_zero]
      exact hbuilding.removes
    have hadds : (∃ nc ∈ (applyOps codec captureContent g ops).2.addedNodes, nc.id = id) ↔
        addedImages id ops ≠ [] := by
      have hmap := hbuilding.adds
      rw [ne_eq, ← List.map_eq_nil_iff (f := capture captureContent), ← hmap]
      simp [trail]
    rw [← himage, hbuilding.image.isSome_eq, hadds, and_iff_left hzero]
    cases g.nodeProperties.get id <;> simp

end NodeIds

/-! ### Runs -/

section Runs

variable (codec : Codec Blob) (limits : PropertyLimits)

/-- **Every warm index answers as one built from the nodes as they are.** -/
structure WarmIsRebuilt (core : GraphCore Blob) : Prop where
  label : ∀ {index}, core.labelIndex = some index →
    ∀ label, posting index label = posting (buildLabelIndex codec core.graph) label
  property : ∀ {index key byValue}, core.propertyIndex = some index → index.get key = some byValue →
    ∀ value, posting byValue value = posting (buildPropertyValueMap codec core.graph key) value
  nodeIds : ∀ {ids}, core.nodeIdIndex = some ids → ids = buildNodeIds core.graph

def ReplayableEvent (core : GraphCore Blob) : Event Blob → Prop
  | .batch captureContent ops => Replayable codec captureContent core.graph ops
  | _ => True

/-- The invariant of such a run: every facet is current, and the node ids are those of the topology. -/
structure Maintained (core : GraphCore Blob) : Prop where
  label : Current labelFacet codec (fun core => core.labelIndex) core
  property : ∀ key, Current (propertyFacet key) codec (fun core => valuePostings core key) core
  nodeIds : ∀ {ids}, core.nodeIdIndex = some ids → ids = buildNodeIds core.graph

variable {codec limits}

theorem Maintained.warmIsRebuilt (h : Maintained codec core) : WarmIsRebuilt codec core where
  label hindex label := posting_eq_of_listed fun id => by
    rw [h.label.stands_listed hindex, listed_buildLabelIndex]
  property {index key byValue} hindex hkey value := posting_eq_of_listed fun id => by
    have hpostings : valuePostings core key = some byValue := by
      rw [valuePostings, hindex]
      exact hkey
    rw [(h.property key).stands_listed hpostings, listed_buildPropertyValueMap]
  nodeIds := h.nodeIds

theorem maintained_cold (g : Graph Blob) (version : ℕ) :
    Maintained codec (GraphCore.cold g version) where
  label _ h := (Option.some_ne_none _ h.symm).elim
  property _ _ h := (Option.some_ne_none _ h.symm).elim
  nodeIds h := (Option.some_ne_none _ h.symm).elim

theorem applyBatch_nodeIds {ids : KeySet String}
    (h : (core.applyBatch codec captureContent ops).nodeIdIndex = some ids) :
    ∃ ids₀, core.nodeIdIndex = some ids₀ ∧
      ids = (applyOps codec captureContent core.graph ops).2.removedNodes.foldl
        (fun ids id => ids.remove id)
        ((applyOps codec captureContent core.graph ops).2.addedNodes.foldl
          (fun ids nc => add ids nc.id) ids₀) := by
  unfold applyBatch at h
  dsimp only at h
  generalize applyOps codec captureContent core.graph ops = p at h ⊢
  have hsame : p.2.addedNodes = [] → p.2.removedNodes = [] → core.nodeIdIndex = some ids →
      ∃ ids₀, core.nodeIdIndex = some ids₀ ∧ ids = p.2.removedNodes.foldl (fun ids id => ids.remove id)
        (p.2.addedNodes.foldl (fun ids nc => add ids nc.id) ids₀) := by
    intro hadded hremoved hids
    exact ⟨ids, hids, by rw [hadded, hremoved]; rfl⟩
  split at h
  · rename_i hempty
    simp only [ChangeSet.isEmpty, Bool.and_eq_true, List.isEmpty_iff] at hempty
    exact hsame hempty.1.1.1.1 hempty.1.1.2 h
  · unfold invalidateIndexesForChange at h
    rw [maintainUpdates, (maintainUpdates_frame _ _ _).nodeIds, maintainRemoves,
      (maintainRemoves_frame _ _ _ _).nodeIds, maintainAdds, (maintainAdds_frame _ _ _ _).nodeIds] at h
    split at h
    · unfold maintainNodeIdIndex at h
      split at h
      · rename_i hnone
        rw [Bool.and_eq_true, List.isEmpty_iff, List.isEmpty_iff] at hnone
        exact hsame hnone.1 hnone.2 h
      · dsimp only at h
        split at h
        · rename_i hcold
          rw [hcold] at h
          cases h
        · rename_i ids₀ hids₀
          exact ⟨ids₀, hids₀, (Option.some.inj h).symm⟩
    · rename_i hchanges
      simp only [ChangeSet.hasNodeChanges, Bool.or_eq_true, not_or, Bool.not_eq_true,
        Bool.not_eq_false', List.isEmpty_iff] at hchanges
      exact hsame hchanges.1.1 hchanges.2 h

theorem Maintained.batch (hbatch : Replayable codec captureContent core.graph ops)
    (h : Maintained codec core) :
    Maintained codec (core.applyBatch codec captureContent ops) where
  label := h.label.batch (labelIndex_follows codec) (fun _ _ => rfl) hbatch
  property key := (h.property key).batch (valuePostings_follows codec key) (fun _ _ => rfl) hbatch
  nodeIds {ids} hids := by
    obtain ⟨ids₀, hids₀, heq⟩ := applyBatch_nodeIds hids
    refine ext_has fun id => ?_
    rw [buildNodeIds, Graph.aligned, applyBatch_graph, hbatch.isSome_iff id, heq, has_foldl_remove,
      has_foldl_add, h.nodeIds hids₀, buildNodeIds, core.graph.aligned]

theorem dropIfStale_eq_some {α : Type} {cache : Option α} {stamp newVersion : ℕ} {x : α}
    (h : dropIfStale cache stamp newVersion = some x) : cache = some x := by
  unfold dropIfStale at h
  split at h
  · cases h
  · exact h

theorem Current.of_postings
    {core' : GraphCore Blob} (h : Current f codec postings core) (hgraph : core'.graph = core.graph)
    (hpostings : postings core' = none ∨ postings core' = postings core) :
    Current f codec postings core' := by
  intro L hL id
  rcases hpostings with hnone | hsame
  · rw [hnone] at hL
    cases hL
  · rw [hsame] at hL
    rw [hgraph]
    exact h L hL id

theorem Maintained.markDirty (h : Maintained codec core) : Maintained codec core.markDirty where
  label := by
    refine h.label.of_postings rfl ?_
    unfold GraphCore.markDirty dropIfStale
    dsimp only
    split <;> simp
  property key := by
    refine (h.property key).of_postings rfl ?_
    unfold GraphCore.markDirty dropIfStale valuePostings
    dsimp only
    split <;> simp
  nodeIds hids := h.nodeIds (dropIfStale_eq_some hids)

theorem Current.of_build {index : Index String String} (hindex : postings core = some index)
    (hbuild : ∀ k id, listed index k id = stands f codec (core.graph.nodeProperties.get id) k) :
    Current f codec postings core := by
  intro L hL id
  rw [hindex] at hL
  rw [← Option.some.inj hL]
  funext k
  exact hbuild k id

theorem Maintained.warmLabelIndex (h : Maintained codec core) :
    Maintained codec (core.warmLabelIndex codec) := by
  unfold GraphCore.warmLabelIndex
  split
  · exact h
  · exact ⟨Current.of_build rfl fun k id => listed_buildLabelIndex core.graph k id, h.property,
      h.nodeIds⟩

theorem Maintained.warmNodeIdIndex (h : Maintained codec core) :
    Maintained codec core.warmNodeIdIndex := by
  unfold GraphCore.warmNodeIdIndex
  split
  · exact h
  · exact ⟨h.label, h.property, fun hids => (Option.some.inj hids).symm⟩

theorem get_indexKey {index : PropertyIndex} {key key' : String}
    (h : (indexKey codec limits g index key).get key' = some byValue) :
    index.get key' = some byValue ∨ byValue = buildPropertyValueMap codec g key' := by
  unfold indexKey at h
  split at h
  · exact Or.inl h
  · split at h
    · exact Or.inl h
    · rw [Table.get_insert] at h
      split at h
      · rename_i hkey
        rw [hkey]
        exact Or.inr (Option.some.inj h).symm
      · exact Or.inl h

theorem get_foldl_indexKey {key' : String} : ∀ {keys : List String} {index : PropertyIndex},
      (keys.foldl (indexKey codec limits g) index).get key' = some byValue →
        index.get key' = some byValue ∨ byValue = buildPropertyValueMap codec g key'
  | [], _, h => Or.inl h
  | key :: keys, index, h => by
    rw [List.foldl_cons] at h
    rcases get_foldl_indexKey h with h | h
    · exact get_indexKey h
    · exact Or.inr h

theorem get_ensureKeyIndexed {index : PropertyIndex} {key key' : String}
    (h : (ensureKeyIndexed codec limits g index key).get key' = some byValue) :
    index.get key' = some byValue ∨ byValue = buildPropertyValueMap codec g key' := by
  rcases get_indexKey h with h | h
  · split at h
    · exact get_foldl_indexKey h
    · exact Or.inl h
  · exact Or.inr h

theorem Maintained.warmPropertyIndex (h : Maintained codec core) (key : String) :
    Maintained codec (core.warmPropertyIndex codec limits key) := by
  unfold GraphCore.warmPropertyIndex
  split
  · exact h
  · refine ⟨h.label, fun key' L hL id => ?_, h.nodeIds⟩
    obtain ⟨byValue, hbyValue, rfl⟩ := Option.map_eq_some_iff.mp hL
    have hget : (ensureKeyIndexed codec limits core.graph (core.propertyIndex.getD Table.empty)
        key).get key' = some byValue := hbyValue
    funext k
    rcases get_ensureKeyIndexed hget with hold | rfl
    · cases hindex : core.propertyIndex with
      | none =>
        rw [hindex] at hold
        cases hold
      | some index =>
        rw [hindex] at hold
        have hpostings : valuePostings core key' = some byValue := by
          rw [valuePostings, hindex]
          exact hold
        exact (h.property key').stands_listed hpostings k id
    · exact listed_buildPropertyValueMap core.graph key' k id

theorem Maintained.step {event : Event Blob} (hevent : ReplayableEvent codec core event)
    (h : Maintained codec core) : Maintained codec (core.step codec limits event) :=
  match event, hevent with
  | .batch _ _, hbatch => h.batch hbatch
  | .markDirty, _ => h.markDirty
  | .queryLabel, _ => h.warmLabelIndex
  | .queryUnlabeled, _ => h.warmNodeIdIndex
  | .queryProperty key, _ => h.warmPropertyIndex key

/-- **Warm indexes equal a rebuild in every run of replayable batches**, whatever the queries and marks
between them. -/
theorem warm_is_rebuilt (codec : Codec Blob) (limits : PropertyLimits) (g : Graph Blob) (version : ℕ)
    (events : List (Event Blob))
    (hreplayable : Along (GraphCore.step codec limits) (ReplayableEvent codec)
      (GraphCore.cold g version) events) :
    WarmIsRebuilt codec (run (GraphCore.step codec limits) (GraphCore.cold g version) events) := by
  have hmaintained : Maintained codec
      (run (GraphCore.step codec limits) (GraphCore.cold g version) events) :=
    run_invariant_along (I := Maintained codec) (fun _ _ => Maintained.step) events _ hreplayable
      (maintained_cold g version)
  exact hmaintained.warmIsRebuilt

theorem Replayable.of_disjoint (hdisjoint : ∀ id b, .addNode id b ∈ ops → .removeNode id ∉ ops)
    (hstored : Along (applyOp codec captureContent) (fun p op => StoresMerged codec p.1 op)
      (g, ChangeSet.new) ops) : Replayable codec captureContent g ops where
  reAdded {id b pre post} heq hremoved := by
    refine (hdisjoint id b ?_ ?_).elim
    · rw [heq]
      exact List.mem_append_right _ (.head _)
    · rw [heq]
      exact List.mem_append_left _ hremoved
  images {id} _ hremoved := by
    rw [addedImages_eq_nil fun b hb => hdisjoint id b hb hremoved]
    split <;> simp
  stored := hstored

end Runs

/-! ### Runs on fixed inputs -/

section Samples

def sampleLimits : PropertyLimits := ⟨32, []⟩

def sampleNode : Json := .object [("type", .text "Task")]

def sampleEvents : List (Event Json) :=
  [.batch true [.addNode "a" sampleNode], .markDirty, .queryLabel, .queryUnlabeled,
    .queryProperty "type", .batch true [.addNode "b" sampleNode, .removeNode "a"], .markDirty, .markDirty]

def reAddEvents : List (Event Json) :=
  [.batch false [.addNode "a" sampleNode], .markDirty, .queryLabel, .queryUnlabeled,
    .batch false [.removeNode "a", .addNode "a" sampleNode], .markDirty, .markDirty]

def sampleRun (events : List (Event Json)) : GraphCore Json :=
  run (GraphCore.step plainCodec sampleLimits) (GraphCore.cold Graph.empty 0) events

theorem warm_is_rebuilt_sample : (sampleRun sampleEvents).labelIndex.isSome = true ∧
      (sampleRun sampleEvents).propertyIndex.isSome = true ∧
      (sampleRun sampleEvents).nodeIdIndex.isSome = true ∧
      WarmIsRebuilt plainCodec (sampleRun sampleEvents) := by
  refine ⟨by decide +kernel, by decide +kernel, by decide +kernel,
    warm_is_rebuilt plainCodec sampleLimits Graph.empty 0 sampleEvents ?_⟩
  refine ⟨?_, trivial, trivial, trivial, trivial, ?_, trivial, trivial, trivial⟩
  · refine Replayable.of_disjoint ?_ ⟨fun _ => trivial, trivial⟩
    intro id b _ hremoved
    simp at hremoved
  · refine Replayable.of_disjoint ?_ ⟨fun _ => trivial, fun _ => trivial, trivial⟩
    intro id b hadded hremoved
    simp only [List.mem_cons, WriteOp.addNode.injEq, WriteOp.removeNode.injEq, List.not_mem_nil,
      reduceCtorEq, or_false] at hadded hremoved
    rw [hadded.1] at hremoved
    exact absurd hremoved (by decide)

theorem re_added_not_rebuilt : ¬WarmIsRebuilt plainCodec (sampleRun reAddEvents) := by
  intro h
  have hwarm : (sampleRun reAddEvents).nodeIdIndex.map elems = some [] := by decide +kernel
  obtain ⟨ids, hids, helems⟩ := Option.map_eq_some_iff.mp hwarm
  have hlive : elems (buildNodeIds (sampleRun reAddEvents).graph) = ["a"] := by decide +kernel
  rw [h.nodeIds hids, hlive] at helems
  cases helems

end Samples

end Medulla.Index.Rebuild
