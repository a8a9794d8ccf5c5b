import Medulla.WorkItem.Effects

/-! # Lease fencing

Along every run the row of an item says which lease stands: a live row carries the owner and the
fences of the last grant, and no event since has ended it. Its token is at least every token granted
before.

* one change: `Tracks.step`;
* every run: `leases_fenced`. -/

namespace Medulla.WorkItem.LeaseFencing

open Library.Checked Library.OrderedTable Rows Submit Claim
open Lifecycle Machine ClaimEffects Effects

variable {id : String}

/-! ### Events -/

theorem standing_append (held : Option Lease) (es es' : List Event) :
    standing held (es ++ es') = standing (standing held es) es' :=
  List.foldl_append

theorem tokens_append (es es' : List Event) : tokens (es ++ es') = tokens es ++ tokens es' :=
  List.filterMap_append

/-! ### The invariant -/

structure Tracks (held : Option Lease) (row : Row) (es : List Event) : Prop where
  item : row.isWorkItem = true
  lease : row.lease? = standing held es
  reached : ∀ t ∈ tokens es, t ≤ row.fencingToken ∧ t ≤ u64Max
  increasing : (tokens es).Pairwise (· < ·)

variable {held : Option Lease} {row row' : Row} {es : List Event}

theorem Tracks.keep (h : Tracks held row es) (hnode : row'.nodeType = row.nodeType)
    (hlease : row'.lease? = row.lease?) (htoken : row'.fencingToken = row.fencingToken) :
    Tracks held row' es := by
  refine ⟨(isWorkItem_of_nodeType hnode).trans h.item, hlease.trans h.lease, fun t ht => ?_, h.increasing⟩
  rw [htoken]
  exact h.reached t ht

theorem Tracks.free (h : Tracks held row es) (hfreed : Freed row row') :
    Tracks held row' (es ++ [.ended]) := by
  refine ⟨(isWorkItem_of_nodeType hfreed.nodeType).trans h.item, ?_, fun t ht => ?_, ?_⟩
  · rw [standing_append]
    exact if_neg (by rw [hfreed.notLive]; simp)
  · rw [tokens_append] at ht
    obtain ⟨hle, hbound⟩ := h.reached t (by simpa [tokens] using ht)
    exact ⟨hfreed.token t hle hbound, hbound⟩
  · rw [tokens_append]
    simpa [tokens] using h.increasing

theorem Tracks.grant (h : Tracks held row es) {request : ClaimWorkItemRequest} {lease : Lease}
    (hgranted : Granted request row row' lease) : Tracks held row' (es ++ [.granted lease]) := by
  have htoken : row'.fencingToken = lease.token := congrArg Lease.token hgranted.fences
  have hbelow : ∀ t ∈ tokens es, t < lease.token := fun t ht => by
    have hle := (h.reached t ht).1
    have habove := hgranted.above
    omega
  have htokens : tokens (es ++ [.granted lease]) = tokens es ++ [lease.token] := tokens_append _ _
  refine ⟨(isWorkItem_of_nodeType hgranted.kept.1).trans h.item, ?_, fun t ht => ?_, ?_⟩
  · rw [standing_append]
    unfold Row.lease?
    rw [hgranted.status, hgranted.fences]
    rfl
  · rw [htokens] at ht
    rw [htoken]
    rcases List.mem_append.mp ht with ht | ht
    · exact ⟨(hbelow t ht).le, (h.reached t ht).2⟩
    · rw [List.mem_singleton] at ht
      subst ht
      exact ⟨le_refl _, hgranted.bounded⟩
  · rw [htokens, List.pairwise_append]
    refine ⟨h.increasing, List.pairwise_singleton _ _, fun t ht u hu => ?_⟩
    rw [List.mem_singleton] at hu
    subst hu
    exact hbelow t ht

theorem freed_retired {request : ClaimWorkItemRequest} (h : Retired request row row') :
    Freed row row' := by
  refine ⟨by rw [h.status]; rfl, h.kept.1, h.kept.2.1, h.metadata, fun t ht _ => ?_⟩
  have habove := h.above
  omega

theorem lease?_of_isValid {fence : FenceKey} {now : ℕ} (h : fence.isValid row now = true) :
    row.lease? = some fence.lease := by
  unfold FenceKey.isValid at h
  rw [Bool.and_eq_true] at h
  exact (Row.leaseIsValid_iff.mp h.2).1

theorem Tracks.step (h : Tracks held row es) {c : Call} {r : Result}
    (hchange : Change id c r row row') : Tracks held row' (es ++ (event id c r).toList) := by
  cases hchange with
  | quiet hquiet silent =>
    rw [silent, Option.toList_none, List.append_nil]
    exact h.keep hquiet.nodeType hquiet.lease? (congrArg Lease.token hquiet.fences)
  | head hhead _ _ _ =>
    have hitem := h.item
    unfold Row.isWorkItem at hitem
    rw [hhead] at hitem
    cases hitem
  | granted _ hgranted happened =>
    rw [happened]
    exact h.grant hgranted
  | retired _ hretired happened =>
    rw [happened]
    exact h.free (freed_retired hretired)
  | renewed _ _ valid hrow silent =>
    rw [silent, Option.toList_none, List.append_nil]
    refine h.keep (by rw [hrow]; rfl) ?_ (by rw [hrow]; rfl)
    have hlive : row.status.isLive = true := by
      by_contra hnot
      have hlease := lease?_of_isValid valid
      rw [Row.lease?, if_neg hnot] at hlease
      cases hlease
    rw [hrow]
    unfold Row.lease?
    rw [if_pos hlive]
    exact if_pos rfl
  | settled _ _ _ hfreed happened =>
    rw [happened]
    exact h.free hfreed
  | cancelled _ _ hfreed happened =>
    rw [happened]
    exact h.free hfreed
  | deferred _ _ _ hfreed happened =>
    rw [happened]
    exact h.free hfreed

/-! ### Runs -/

theorem tracks_run {H : Digests} : ∀ (cs : List Call) {g : Graph} {row : Row}
    {es : List Event}, g.nodes.get id = some (some row) → Tracks held row es →
      ∃ row', (run H g cs).nodes.get id = some (some row') ∧
        Tracks held row' (es ++ events H id g cs)
  | [], g, row, es, hrow, h => ⟨row, hrow, by simpa [events] using h⟩
  | c :: cs, g, row, es, hrow, h => by
    have hmoves := moves_call H g c id
    rw [hrow] at hmoves
    generalize hnode : (step H g c).nodes.get id = node at hmoves
    cases hmoves with
    | change hchange =>
      obtain ⟨last, hlast, htracks⟩ := tracks_run cs hnode (h.step hchange)
      refine ⟨last, hlast, ?_⟩
      rw [List.append_assoc] at htracks
      exact htracks

theorem lease?_of_presented {H : Digests} {g : Graph} (hrow : g.nodes.get id = some (some row))
    {c : Call} {lease : Lease} (hpresented : presented id c = some lease)
    (hchanged : (step H g c).nodes.get id ≠ g.nodes.get id) : row.lease? = some lease := by
  unfold step call at hchanged
  rcases happly : apply H g c with message | ⟨g', r⟩
  · rw [happly] at hchanged
    exact absurd rfl hchanged
  · rw [happly] at hchanged
    cases c with
    | renew request =>
      simp only [presented, Option.ite_none_right_eq_some] at hpresented
      obtain ⟨rfl, hlease⟩ := hpresented
      obtain ⟨⟨g₁, status⟩, h, hr⟩ := unbind happly
      cases hr
      rcases renewWorkItemLease_ok h with rfl | ⟨row₁, hrow₁, hvalid, -⟩
      · exact absurd rfl hchanged
      · rw [hrow] at hrow₁
        cases hrow₁
        rw [← hlease]
        exact lease?_of_isValid hvalid
    | commit request =>
      simp only [presented, Option.ite_none_right_eq_some] at hpresented
      obtain ⟨rfl, hlease⟩ := hpresented
      obtain ⟨⟨g₁, result⟩, h, hr⟩ := unbind happly
      cases hr
      rcases commitWorkItemResult_ok h with ⟨rfl, -⟩ | ⟨row₁, released, changed, hcommits⟩
      · exact absurd rfl hchanged
      · have hfound := hcommits.found
        rw [hrow] at hfound
        cases hfound
        rw [← hlease]
        have hprecheck := hcommits.precheck
        unfold commitPrecheck at hprecheck
        split_ifs at hprecheck with h1 h2 h3
        exact (Row.leaseIsValid_iff.mp h3).1
    | defer request =>
      simp only [presented, Option.ite_none_right_eq_some] at hpresented
      obtain ⟨rfl, hlease⟩ := hpresented
      obtain ⟨⟨g₁, status⟩, h, hr⟩ := unbind happly
      cases hr
      rcases deferWorkItem_ok h with ⟨rfl, -⟩ | ⟨row₁, fences, hrow₁, hvalid, -⟩
      · exact absurd rfl hchanged
      · rw [hrow] at hrow₁
        cases hrow₁
        rw [← hlease]
        exact lease?_of_isValid hvalid
    | submit => cases hpresented
    | submitBatch => cases hpresented
    | claim => cases hpresented
    | cancel => cases hpresented

/-- **Leases are fenced.** In every run of the native operations, from any graph that has the item, the
tokens granted on it strictly increase; and a renewal, a commit or a deferral changes its row only under
the most recent grant, when nothing has ended it since. A lease from before the run counts as a grant.
-/
theorem leases_fenced (H : Digests) {g : Graph} {id : String}
    (hrow : g.nodes.get id = some (some row)) (hitem : row.isWorkItem = true) (cs : List Call) :
    (tokens (events H id g cs)).Pairwise (· < ·) ∧ ∀ c lease, presented id c = some lease →
        (step H (run H g cs) c).nodes.get id ≠ (run H g cs).nodes.get id →
        standing row.lease? (events H id g cs) = some lease := by
  have hstart : Tracks row.lease? row [] := ⟨hitem, rfl, by simp [tokens], by simp [tokens]⟩
  obtain ⟨last, hlast, htracks⟩ := tracks_run (H := H) cs hrow hstart
  rw [List.nil_append] at htracks
  refine ⟨htracks.increasing, fun c lease hpresented hchanged => ?_⟩
  rw [← htracks.lease]
  exact lease?_of_presented hlast hpresented hchanged

/-! ### A claimed and renewed item -/

def readyRow : Row := { nodeType := "WorkItem", tenant := "t", status := .ready, maxAttempts := 3 }

def readyGraph : Graph := ⟨"g", Table.ofPairs [("a", some readyRow)], 0⟩

def claimByWorker : Call := .claim ⟨"t", none, none, none, none, "w", 5, 10, 1⟩

def renewByWorker : Call := .renew ⟨⟨"t", "a", ⟨"w", 1, 1⟩⟩, 7, 10⟩

theorem leases_fenced_renewed :
    readyGraph.nodes.get "a" = some (some readyRow) ∧ readyRow.isWorkItem = true ∧
      standing readyRow.lease? (events plainDigests "a" readyGraph [claimByWorker]) =
        some ⟨"w", 1, 1⟩ := by
  have hrow : readyGraph.nodes.get "a" = some (some readyRow) := by decide +kernel
  have hitem : readyRow.isWorkItem = true := by decide +kernel
  refine ⟨hrow, hitem, ?_⟩
  exact (leases_fenced plainDigests hrow hitem [claimByWorker]).2 renewByWorker ⟨"w", 1, 1⟩ rfl
    (by decide +kernel)

end Medulla.WorkItem.LeaseFencing
