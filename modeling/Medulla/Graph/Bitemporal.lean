import Medulla.Graph.Agreement

/-! # The history of edges

An edge version is a blob of an endpoint pair, known by its place in the list of the pair, which only
grows. Closing a version writes `valid_until` over the old one and not only `tx_to`, so at valid times
past the close the version is gone at every transaction time.

* one write: `keepsHistory_iff`;
* every run: `history_kept_iff`. -/

namespace Medulla.Graph.Bitemporal

open Library.OrderedTable Resource.Extension Txn Agreement
open Index.Changes (Codec plainCodec)

variable {Blob : Type} {codec : Codec Blob} {g g' : GraphState Blob} {blob new : Blob} {obj : Fields}

/-! ### Versions -/

def bound (obj : Fields) (key : String) : Option ℕ := (lookupRow key obj).bind Json.asU64

/-- Visible at a valid time and a transaction time; an absent bound does not bound. -/
structure Visible (obj : Fields) (valid tx : ℕ) : Prop where
  from_valid : ∀ n, bound obj "valid_from" = some n → n ≤ valid
  until_valid : ∀ n, bound obj "valid_until" = some n → valid < n
  from_tx : ∀ n, bound obj "tx_from" = some n → n ≤ tx
  until_tx : ∀ n, bound obj "tx_to" = some n → tx < n

def objectOf (codec : Codec Blob) (blob : Blob) : Option Fields :=
  (codec.decodePropertyValue blob).bind Json.asObject

def Seen (codec : Codec Blob) (relationship : String) (valid tx : ℕ) (blob : Blob) : Prop :=
  ∃ obj, objectOf codec blob = some obj ∧
    (lookupRow "relationship" obj).bind Json.asStr = some relationship ∧ Visible obj valid tx

def visibleVersions (codec : Codec Blob) (g : GraphState Blob) (source target relationship : String)
    (valid tx : ℕ) : Set ℕ :=
  {i | ∃ blob, (g.blobs source target)[i]? = some blob ∧ Seen codec relationship valid tx blob}

/-! ### Writes -/

inductive Write (Blob : Type)
  | invalidate (source target relationship : String) (invalidAt txNow : ℕ)
  | supersede (newSource newTarget : String) (newPropertiesMsgpack : Blob) (prior : PriorEdge)

def Write.txNow : Write Blob → ℕ
  | .invalidate _ _ _ _ txNow => txNow
  | .supersede _ _ _ prior => prior.txNow

/-- A write; a refused one changes nothing. -/
def apply (codec : Codec Blob) (g : GraphState Blob) : Write Blob → GraphState Blob
  | .invalidate source target relationship invalidAt txNow =>
    (invalidateEdge codec g source target relationship invalidAt txNow).1
  | .supersede newSource newTarget new prior =>
    match supersedeEdge codec g newSource newTarget new prior with
    | .ok g' => g'
    | .error _ => g

/-- The transaction time is later than every stored one, and a new edge starts at it. -/
structure Timed (codec : Codec Blob) (g : GraphState Blob) (w : Write Blob) : Prop where
  later : ∀ source target, ∀ blob ∈ g.blobs source target, ∀ obj, objectOf codec blob = some obj →
    (∀ n, bound obj "tx_from" = some n → n < w.txNow) ∧ ∀ n, bound obj "tx_to" = some n → n < w.txNow
  starts : ∀ newSource newTarget new prior, w = .supersede newSource newTarget new prior →
    ∃ obj, objectOf codec new = some obj ∧ bound obj "tx_from" = some prior.txNow

/-- **The past of the transaction axis is kept.** -/
def KeepsHistory (codec : Codec Blob) (g : GraphState Blob) (w : Write Blob) : Prop :=
  ∀ source target relationship valid tx, tx < w.txNow →
    visibleVersions codec (apply codec g w) source target relationship valid tx =
      visibleVersions codec g source target relationship valid tx

def closes (codec : Codec Blob) (g : GraphState Blob) : Write Blob → List Blob
  | .invalidate source target relationship invalidAt txNow =>
    (g.blobs source target).filter fun b => (closedBlob codec relationship invalidAt txNow b).isSome
  | .supersede newSource newTarget _ prior =>
    if (g.topo.nodeMap.get newSource).isSome ∧ (g.topo.nodeMap.get newTarget).isSome then
      (g.blobs prior.source prior.target).filter fun b =>
        (closedBlob codec prior.relationship prior.validAt prior.txNow b).isSome
    else []

/-- The version is valid at no time: it ends no later than it starts. -/
def NeverValid (codec : Codec Blob) (blob : Blob) : Prop :=
  ∃ obj start last, objectOf codec blob = some obj ∧ bound obj "valid_from" = some start ∧
    bound obj "valid_until" = some last ∧ last ≤ start

/-- Stored bytes read back as the value they were written from, or are refused. -/
def ReadsBack (codec : Codec Blob) : Prop := ∀ v blob, codec.toVecNamed v = some blob →
  codec.decodePropertyValue blob = none ∨ codec.decodePropertyValue blob = some v

/-! ### Closing -/

section
variable {relationship : String} {invalidAt txNow : ℕ}

theorem closedBlob_some (hclose : closedBlob codec relationship invalidAt txNow blob = some new) :
    ∃ obj, objectOf codec blob = some obj ∧ bound obj "tx_to" = none ∧
      (lookupRow "relationship" obj).bind Json.asStr = some relationship ∧
      (∀ n, bound obj "valid_until" = some n → invalidAt < n) ∧
      codec.toVecNamed (.object (insertRow "tx_to" (.unsigned txNow)
        (insertRow "valid_until" (.unsigned invalidAt) obj))) = some new := by
  obtain ⟨obj, hobj, hclose⟩ := Option.bind_eq_some_iff.mp hclose
  split_ifs at hclose with hopen
  obtain ⟨hrel, hopen⟩ := hopen
  unfold alreadyClosed at hopen
  rw [Bool.or_eq_false_iff, Option.isSome_eq_false_iff, Option.isNone_iff_eq_none] at hopen
  refine ⟨obj, hobj, hopen.1, hrel, fun n hn => ?_, hclose⟩
  have hany := hopen.2
  rw [show (lookupRow "valid_until" obj).bind Json.asU64 = some n from hn] at hany
  simpa using hany

/-- A closed version is seen only before its close. -/
theorem seen_closed (hcodec : ReadsBack codec) {r : String} {valid tx : ℕ}
    (hclose : codec.toVecNamed (.object (insertRow "tx_to" (.unsigned txNow)
      (insertRow "valid_until" (.unsigned invalidAt) obj))) = some new)
    (h : Seen codec r valid tx new) :
    valid < invalidAt ∧ ∀ n, bound obj "valid_from" = some n → n ≤ valid := by
  obtain ⟨obj', hobj', -, hvisible⟩ := h
  unfold objectOf at hobj'
  rcases hcodec _ _ hclose with hnone | hsome
  · rw [hnone] at hobj'
    cases hobj'
  · rw [hsome] at hobj'
    obtain rfl := Option.some.inj hobj'
    refine ⟨hvisible.until_valid _ ?_, fun n hn => hvisible.from_valid n ?_⟩
    · simp [bound, lookupRow_insertRow, Json.asU64]
    · rw [← hn]
      simp [bound, lookupRow_insertRow]

/-- **A version that ever was valid is lost** when it is closed, and only such a one. -/
theorem closed_kept (hcodec : ReadsBack codec)
    (hclose : closedBlob codec relationship invalidAt txNow blob = some new)
    (hlater : ∀ obj, objectOf codec blob = some obj → ∀ n, bound obj "tx_from" = some n → n < txNow) :
    (∀ r valid tx, tx < txNow → (Seen codec r valid tx new ↔ Seen codec r valid tx blob)) ↔
      (0 < txNow → NeverValid codec blob) := by
  obtain ⟨obj, hobj, htx, hrel, huntil, hclose⟩ := closedBlob_some hclose
  constructor
  · intro hkept hpos
    by_contra hever
    have hseen : Seen codec relationship (max ((bound obj "valid_from").getD 0) invalidAt)
        ((bound obj "tx_from").getD 0) blob := by
      refine ⟨obj, hobj, hrel, fun n hn => by simp [hn], fun n hn => max_lt ?_ (huntil n hn),
        fun n hn => by simp [hn], fun n hn => by simp [htx] at hn⟩
      cases hstart : bound obj "valid_from" with
      | none => exact Nat.zero_lt_of_lt (huntil n hn)
      | some start => exact Nat.lt_of_not_le fun hle => hever ⟨obj, start, n, hobj, hstart, hn, hle⟩
    have hearlier : (bound obj "tx_from").getD 0 < txNow := by
      cases hfrom : bound obj "tx_from" with
      | none => exact hpos
      | some n => exact hlater obj hobj n hfrom
    have hlost := (seen_closed hcodec hclose ((hkept _ _ _ hearlier).mpr hseen)).1
    exact absurd (le_max_right _ _) (Nat.not_le.mpr hlost)
  · intro hnever r valid tx hlt
    obtain ⟨obj', start, last, hobj', hstart, hlast, hle⟩ := hnever (Nat.zero_lt_of_lt hlt)
    obtain rfl := Option.some.inj (hobj.symm.trans hobj')
    have hopen := huntil last hlast
    refine iff_of_false (fun h => ?_) fun ⟨obj', hobj', _, h⟩ => ?_
    · obtain ⟨hvalid, hfrom⟩ := seen_closed hcodec hclose h
      have hstart := hfrom start hstart
      omega
    · obtain rfl := Option.some.inj (hobj.symm.trans hobj')
      have hfrom := h.from_valid start hstart
      have huntil := h.until_valid last hlast
      omega

/-- **Closing the versions of a list** keeps what was seen of it when each closed one never was valid. -/
theorem closing_kept (hcodec : ReadsBack codec) {blobs : List Blob}
    (hlater : ∀ blob ∈ blobs, ∀ obj, objectOf codec blob = some obj → ∀ n,
      bound obj "tx_from" = some n → n < txNow) :
    (∀ r valid tx, tx < txNow → ∀ i : ℕ,
      (∃ b, (blobs.map fun b => (closedBlob codec relationship invalidAt txNow b).getD b)[i]? = some b ∧
        Seen codec r valid tx b) ↔ ∃ b, blobs[i]? = some b ∧ Seen codec r valid tx b) ↔
    (0 < txNow → ∀ b ∈ blobs.filter fun b =>
      (closedBlob codec relationship invalidAt txNow b).isSome, NeverValid codec b) := by
  constructor
  · intro hkept hpos b hb
    obtain ⟨hmem, hsome⟩ := List.mem_filter.mp hb
    obtain ⟨new, hnew⟩ := Option.isSome_iff_exists.mp hsome
    obtain ⟨i, hi⟩ := List.mem_iff_getElem?.mp hmem
    refine (closed_kept hcodec hnew (hlater b hmem)).mp (fun r valid tx htx => ?_) hpos
    simpa [List.getElem?_map, hi, hnew] using hkept r valid tx htx i
  · intro hclean r valid tx htx i
    rw [List.getElem?_map]
    cases hi : blobs[i]? with
    | none => simp
    | some b =>
      have hmem := List.mem_of_getElem? hi
      cases hclose : closedBlob codec relationship invalidAt txNow b with
      | none => simp [hclose]
      | some new =>
        have hnever : 0 < txNow → NeverValid codec b := fun hpos =>
          hclean hpos b (List.mem_filter.mpr ⟨hmem, by simp [hclose]⟩)
        simpa [hclose] using (closed_kept hcodec hclose (hlater b hmem)).mpr hnever r valid tx htx

end

/-! ### Runs -/

theorem blobs_invalidateEdge {s t r a b : String} {invalidAt txNow : ℕ} :
    (invalidateEdge codec g s t r invalidAt txNow).1.blobs a b = if a = s ∧ b = t then
        (g.blobs s t).map fun b => (closedBlob codec r invalidAt txNow b).getD b
      else g.blobs a b := by
  unfold invalidateEdge
  split
  · rename_i hnone
    split_ifs with heq
    · obtain ⟨rfl, rfl⟩ := heq
      simp [GraphState.blobs, hnone]
    · rfl
  · rename_i blobs hblobs
    rw [blobs_setBlobs]
    simp [GraphState.blobs, hblobs]

theorem topo_invalidateEdge {s t r : String} {invalidAt txNow : ℕ} :
    (invalidateEdge codec g s t r invalidAt txNow).1.topo = g.topo := by
  unfold invalidateEdge
  split <;> rfl

theorem invalidateEdge_closed {s t r : String} {invalidAt txNow : ℕ} :
    (invalidateEdge codec g s t r invalidAt txNow).2 =
      (g.blobs s t).countP fun b => (closedBlob codec r invalidAt txNow b).isSome := by
  unfold invalidateEdge
  split
  · rename_i hnone
    simp [GraphState.blobs, hnone]
  · rename_i hsome
    simp [GraphState.blobs, hsome]

theorem invalidate_kept (hcodec : ReadsBack codec) {s t r : String} {invalidAt txNow : ℕ}
    (hlater : ∀ blob ∈ g.blobs s t, ∀ obj, objectOf codec blob = some obj → ∀ n,
      bound obj "tx_from" = some n → n < txNow) :
    (∀ source target relationship valid tx, tx < txNow →
      visibleVersions codec (invalidateEdge codec g s t r invalidAt txNow).1 source target relationship
        valid tx = visibleVersions codec g source target relationship valid tx) ↔
    (0 < txNow → ∀ b ∈ (g.blobs s t).filter fun b =>
      (closedBlob codec r invalidAt txNow b).isSome, NeverValid codec b) := by
  refine Iff.trans ?_ (closing_kept hcodec hlater)
  constructor
  · intro hkept relationship valid tx htx i
    have hset := Set.ext_iff.mp (hkept s t relationship valid tx htx) i
    unfold visibleVersions at hset
    rwa [blobs_invalidateEdge, if_pos ⟨rfl, rfl⟩] at hset
  · intro hkept source target relationship valid tx htx
    unfold visibleVersions
    rw [blobs_invalidateEdge]
    split_ifs with hpair
    · obtain ⟨rfl, rfl⟩ := hpair
      exact Set.ext (hkept relationship valid tx htx)
    · rfl

/-- A new edge is not visible before it starts. -/
theorem addEdge_kept {source target : String} (hadd : addEdge g source target new = .ok g') {txNow : ℕ}
    (hobj : objectOf codec new = some obj) (hstart : bound obj "tx_from" = some txNow)
    (a b relationship : String) (valid : ℕ) {tx : ℕ} (htx : tx < txNow) :
    visibleVersions codec g' a b relationship valid tx =
      visibleVersions codec g a b relationship valid tx := by
  have hblobs : g'.blobs a b = (g.setBlobs source target (g.blobs source target ++ [new])).blobs a b := by
    change (g'.edgeProperties.get (toLex (a, b))).getD [] = _
    rw [(addEdge_eq hadd).1]
    rfl
  ext i
  unfold visibleVersions
  rw [hblobs, blobs_setBlobs]
  split_ifs with hpair
  · obtain ⟨rfl, rfl⟩ := hpair
    refine exists_congr fun b => and_congr_left fun hseen => ?_
    rw [List.getElem?_append]
    split_ifs with hi
    · rfl
    · have hnew : b ≠ new := by
        rintro rfl
        obtain ⟨obj', hobj', -, hvisible⟩ := hseen
        obtain rfl := Option.some.inj (hobj.symm.trans hobj')
        exact absurd (hvisible.from_tx _ hstart) (Nat.not_le.mpr htx)
      rw [List.getElem?_eq_none (Nat.not_lt.mp hi)]
      simp [List.getElem?_singleton, hnew.symm]
  · rfl

/-- A supersession changes nothing and closes nothing, or it closes the prior edge and adds the new. -/
theorem supersede_cases (codec : Codec Blob) (g : GraphState Blob) (newSource newTarget : String)
    (new : Blob) (prior : PriorEdge) :
    (apply codec g (.supersede newSource newTarget new prior) = g ∧
      closes codec g (.supersede newSource newTarget new prior) = []) ∨
    (closes codec g (.supersede newSource newTarget new prior) =
        (g.blobs prior.source prior.target).filter (fun b =>
          (closedBlob codec prior.relationship prior.validAt prior.txNow b).isSome) ∧
      addEdge (invalidateEdge codec g prior.source prior.target prior.relationship prior.validAt
        prior.txNow).1 newSource newTarget new =
          .ok (apply codec g (.supersede newSource newTarget new prior))) := by
  unfold apply supersedeEdge closes
  dsimp only
  by_cases hsource : (g.topo.nodeMap.get newSource).isNone = true
  · rw [if_pos hsource, if_neg (by simp_all)]
    exact Or.inl ⟨rfl, rfl⟩
  by_cases htarget : (g.topo.nodeMap.get newTarget).isNone = true
  · rw [if_neg hsource, if_pos htarget, if_neg (by simp_all)]
    exact Or.inl ⟨rfl, rfl⟩
  have hends : (g.topo.nodeMap.get newSource).isSome ∧ (g.topo.nodeMap.get newTarget).isSome := by
    rw [Option.isSome_iff_ne_none, Option.isSome_iff_ne_none]
    exact ⟨by simpa using hsource, by simpa using htarget⟩
  rw [if_neg hsource, if_neg htarget, if_pos hends]
  split_ifs with hzero
  · refine Or.inl ⟨rfl, List.filter_eq_nil_iff.mpr ?_⟩
    rw [invalidateEdge_closed, List.countP_eq_zero] at hzero
    exact hzero
  · refine Or.inr ⟨rfl, ?_⟩
    obtain ⟨g', hadd⟩ := addEdge_ok (g := (invalidateEdge codec g prior.source prior.target
      prior.relationship prior.validAt prior.txNow).1) new (by rw [topo_invalidateEdge]; exact hends.1)
      (by rw [topo_invalidateEdge]; exact hends.2)
    rw [hadd]

/-- **One write keeps the history when it closes only versions that never were valid.** -/
theorem keepsHistory_iff (hcodec : ReadsBack codec) {w : Write Blob} (htimed : Timed codec g w) :
    KeepsHistory codec g w ↔ (0 < w.txNow → ∀ b ∈ closes codec g w, NeverValid codec b) := by
  have hlater := fun s t blob hblob obj hobj => (htimed.later s t blob hblob obj hobj).1
  cases w with
  | invalidate s t r invalidAt txNow => exact invalidate_kept hcodec (hlater s t)
  | supersede newSource newTarget new prior =>
    rcases supersede_cases codec g newSource newTarget new prior with ⟨hsame, hnone⟩ | ⟨hcloses, hadd⟩
    · refine iff_of_true (fun source target relationship valid tx _ => ?_) fun _ b hb => ?_
      · rw [hsame]
      · rw [hnone] at hb
        cases hb
    · obtain ⟨obj, hobj, hstart⟩ := htimed.starts _ _ _ _ rfl
      rw [hcloses]
      refine Iff.trans ?_ (invalidate_kept hcodec (hlater prior.source prior.target))
      refine forall_congr' fun source => forall_congr' fun target => forall_congr' fun relationship =>
        forall_congr' fun valid => forall_congr' fun tx => forall_congr' fun htx => ?_
      rw [addEdge_kept hadd hobj hstart source target relationship valid htx]
      rfl

/-- The transaction times of a run: each is later than what is stored before it. -/
def TimedRun (codec : Codec Blob) : GraphState Blob → List (Write Blob) → Prop
  | _, [] => True
  | g, w :: ws => Timed codec g w ∧ TimedRun codec (apply codec g w) ws

def HistoryKept (codec : Codec Blob) : GraphState Blob → List (Write Blob) → Prop
  | _, [] => True
  | g, w :: ws => KeepsHistory codec g w ∧ HistoryKept codec (apply codec g w) ws

/-- No write of a run, but one at transaction time zero, closes a version that ever was valid. -/
def ClosesNoValidity (codec : Codec Blob) : GraphState Blob → List (Write Blob) → Prop
  | _, [] => True
  | g, w :: ws => (0 < w.txNow → ∀ b ∈ closes codec g w, NeverValid codec b) ∧
    ClosesNoValidity codec (apply codec g w) ws

/-- **A run keeps its history exactly when it closes no version that ever was valid.** -/
theorem history_kept_iff (hcodec : ReadsBack codec) : ∀ (ws : List (Write Blob)) (g : GraphState Blob),
    TimedRun codec g ws → (HistoryKept codec g ws ↔ ClosesNoValidity codec g ws)
  | [], _, _ => Iff.rfl
  | w :: ws, g, htimed =>
    and_congr (keepsHistory_iff hcodec htimed.1) (history_kept_iff hcodec ws (apply codec g w) htimed.2)

/-! ### A believed edge -/

/-- An edge recorded at time one, valid from the start of time on. -/
def believed : Json := .object [("relationship", .text "knows"), ("tx_from", .unsigned 1)]

/-- An edge recorded at time one that ends where it starts. -/
def neverBelieved : Json := .object [("relationship", .text "knows"), ("tx_from", .unsigned 1),
  ("valid_from", .unsigned 8), ("valid_until", .unsigned 8)]

/-- One version of one edge. -/
def oneVersion (version : Json) : GraphState Json := GraphState.new.setBlobs "a" "b" [version]

def believedGraph : GraphState Json := oneVersion believed

section
variable {version : Json}

theorem oneVersion_timed {w : Write Json}
    (hversion : ∀ obj, objectOf plainCodec version = some obj →
      bound obj "tx_from" = some 1 ∧ bound obj "tx_to" = none)
    (hlater : 1 < w.txNow)
    (hw : ∀ newSource newTarget new prior, w ≠ .supersede newSource newTarget new prior) :
    Timed plainCodec (oneVersion version) w := by
  refine ⟨fun source target blob hblob obj hobj => ?_, fun a b c d h => absurd h (hw a b c d)⟩
  unfold oneVersion at hblob
  rw [blobs_setBlobs] at hblob
  split_ifs at hblob
  · rw [List.mem_singleton.mp hblob] at hobj
    obtain ⟨hfrom, hto⟩ := hversion obj hobj
    simpa [hfrom, hto] using hlater
  · simp [GraphState.new, GraphState.blobs] at hblob

theorem closes_oneVersion (r : String) :
    closes plainCodec (oneVersion version) (.invalidate "a" "b" r 5 10) =
      [version].filter fun b => (closedBlob plainCodec r 5 10 b).isSome := by
  unfold closes oneVersion
  dsimp only
  rw [blobs_setBlobs, if_pos ⟨rfl, rfl⟩]

end

theorem believed_bounds (obj : Fields) (h : objectOf plainCodec believed = some obj) :
    bound obj "tx_from" = some 1 ∧ bound obj "tx_to" = none := by
  obtain rfl := Option.some.inj h
  exact ⟨rfl, rfl⟩

theorem neverBelieved_bounds (obj : Fields) (h : objectOf plainCodec neverBelieved = some obj) :
    bound obj "tx_from" = some 1 ∧ bound obj "tx_to" = none := by
  obtain rfl := Option.some.inj h
  exact ⟨rfl, rfl⟩

theorem plainCodec_readsBack : ReadsBack plainCodec := by
  intro v blob h
  exact Or.inr h.symm

/-- Closing a version that never was valid loses nothing. -/
theorem history_kept_never_valid :
    closes plainCodec (oneVersion neverBelieved) (.invalidate "a" "b" "knows" 5 10) =
        [neverBelieved] ∧
      HistoryKept plainCodec (oneVersion neverBelieved) [.invalidate "a" "b" "knows" 5 10] := by
  have hcloses : closes plainCodec (oneVersion neverBelieved) (.invalidate "a" "b" "knows" 5 10) =
      [neverBelieved] := closes_oneVersion "knows"
  refine ⟨hcloses, (history_kept_iff plainCodec_readsBack [.invalidate "a" "b" "knows" 5 10]
    (oneVersion neverBelieved) ⟨oneVersion_timed neverBelieved_bounds (by decide) (by simp),
      trivial⟩).mpr ⟨fun _ b hb => ?_, trivial⟩⟩
  rw [hcloses] at hb
  rw [List.mem_singleton.mp hb]
  exact ⟨_, 8, 8, rfl, rfl, rfl, le_rfl⟩

/-- **Invalidation loses history**: after the edge is closed at valid time 5, it is no longer believed of
later valid times at transaction times before the close. -/
theorem invalidation_loses_history :
    TimedRun plainCodec believedGraph [.invalidate "a" "b" "knows" 5 10] ∧
      ¬ HistoryKept plainCodec believedGraph [.invalidate "a" "b" "knows" 5 10] := by
  have htimed : Timed plainCodec believedGraph (.invalidate "a" "b" "knows" 5 10) :=
    oneVersion_timed believed_bounds (by decide) (by simp)
  refine ⟨⟨htimed, trivial⟩, fun h => ?_⟩
  have hcloses : believed ∈ closes plainCodec believedGraph (.invalidate "a" "b" "knows" 5 10) := by
    rw [believedGraph, closes_oneVersion]
    exact List.mem_singleton_self believed
  obtain ⟨obj, start, last, hobj, hstart, -⟩ :=
    (keepsHistory_iff plainCodec_readsBack htimed).mp h.1 (by decide) believed hcloses
  obtain rfl := Option.some.inj hobj
  cases hstart

end Medulla.Graph.Bitemporal
