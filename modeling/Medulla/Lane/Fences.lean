import Medulla.Lane.Machine
import Medulla.Resource.Accounting
import Medulla.WorkItem.Effects

/-! # Two spellings of a fence

A lane is reserved with one text that has to be the fence of the WorkItem row and the fence of the
resource reservation at once. The text on a row is written by claims only, with a prefix of its own.
-/

namespace Medulla.Lane.Fences

open Library.Checked WorkItem.Rows WorkItem.Submit WorkItem.Claim WorkItem.Lifecycle
open WorkItem.ClaimEffects WorkItem.Effects Resource.Requests Resource.Extension Resource.Lifecycle
open Resource.Effects Resource.Accounting Links Machine
open Resource.Admission (Ledger HostUpdateResult ReservationResult)

variable {row : Row} {g g' : Graph} {id : String} {H : Digests} {request : CommitRequest}
  {result : Committed} {lanes : Except String Tables.Lanes} {codecs : Codecs}

/-! ### Texts -/

/-- The fence text a claim stamps. -/
def claimFence (epoch : ℕ) : String := "lease-fence-v1:" ++ toString epoch

theorem claimFence_ne_toString (epoch token : ℕ) : claimFence epoch ≠ toString token := by
  intro h
  have hmem : 'l' ∈ (toString token).toList := by
    rw [← h]
    simp [claimFence]
  have hdigit : 'l'.isDigit = true := by
    refine Nat.isDigit_of_mem_toDigits (b := 10) (n := token) (by decide) (by decide) ?_
    simpa [Nat.repr] using hmem
  exact absurd hdigit (by decide)

/-! ### The fence of a lifecycle row -/

/-- A lifecycle row carries no fence or one a claim stamped. -/
def ClaimedFence (row : Row) : Prop :=
  row.kind = workItemKindName .lifecycle →
    row.workItemFence = "" ∨ ∃ epoch, row.workItemFence = claimFence epoch

def ClaimedFences (g : Graph) : Prop :=
  ∀ id row, g.nodes.get id = some (some row) → ClaimedFence row

theorem ClaimedFence.congr {row' : Row} (h : ClaimedFence row) (hkind : row'.kind = row.kind)
    (hfence : row'.workItemFence = row.workItemFence) : ClaimedFence row' := by
  intro hrow
  rw [hfence]
  exact h (hkind.symm.trans hrow)

theorem claimedFence_of_empty (h : row.workItemFence = "") : ClaimedFence row := fun _ => .inl h

theorem claimedFences_put (h : ClaimedFences g) {payload : Option Row}
    (hrow : ∀ row, payload = some row → ClaimedFence row) : ClaimedFences (g.put id payload) := by
  intro k row hget
  by_cases hk : k = id
  · subst hk
    rw [Graph.get_put_self] at hget
    exact hrow row (Option.some.inj hget)
  · rw [Graph.get_put_of_ne _ _ hk] at hget
    exact h k row hget

theorem claimedFences_write (h : ClaimedFences g) (hrow : ClaimedFence row) :
    ClaimedFences (g.write id row) := by
  refine claimedFences_put h fun row' hrow' => ?_
  cases hrow'
  exact hrow.congr rfl rfl

theorem claimedFences_rewrite (h : ClaimedFences g) {row' : Row}
    (hrow : g.nodes.get id = some (some row)) (hkind : row'.kind = row.kind)
    (hfence : row'.workItemFence = row.workItemFence) : ClaimedFences (g.write id row') :=
  claimedFences_write h ((h id row hrow).congr hkind hfence)

/-! ### Submissions -/

theorem claimedFences_indexAll : ∀ {dependencies : List String} {g g' : Graph},
    indexAll id g dependencies = .ok g' → ClaimedFences g → ClaimedFences g'
  | [], _, _, h, hg => by
    cases h
    exact hg
  | dependency :: rest, _, _, h, hg => by
    obtain ⟨mid, hmid, h⟩ := unbind h
    refine claimedFences_indexAll h ?_
    obtain ⟨parent, ids, hparent, -, rfl⟩ := indexDownstream_ok hmid
    split_ifs
    · exact hg
    · exact claimedFences_rewrite hg hparent rfl rfl

theorem claimedFences_reserve {request : SubmitWorkItemRequest} {answers : Answers}
    {ids : List String} (h : reserve H g request answers = .ok (g', ids)) (hg : ClaimedFences g) :
    ClaimedFences g' := by
  rcases reserve_ok h with rfl | ⟨context, run, -, -, -, rfl⟩
  · exact hg
  · refine claimedFences_put hg fun row hrow => ?_
    cases hrow
    exact claimedFence_of_empty rfl

theorem claimedFences_submit {request : SubmitWorkItemRequest} {scope : Scope} {result : Submitted}
    (h : submitWorkItem H request scope g = .ok (g', result)) (hg : ClaimedFences g) :
    ClaimedFences g' := by
  obtain ⟨dependencies, pending, sequence, reserved, head, hsub⟩ := submitWorkItem_ok h
  have hreserved : ClaimedFences reserved := claimedFences_reserve hsub.reserves hg
  refine claimedFences_indexAll hsub.indexed ?_
  exact claimedFences_write hreserved (claimedFence_of_empty rfl)

theorem claimedFences_submitChildren {tenant : String} {scope : Scope} :
    ∀ {children : List SubmitWorkItemRequest} {g g' : Graph} {results : List Submitted},
      submitChildren H tenant scope children g = .ok (g', results) → ClaimedFences g →
        ClaimedFences g'
  | [], _, _, _, h, hg => by
    cases h
    exact hg
  | child :: rest, _, _, _, h, hg => by
    obtain ⟨_, _, h⟩ := unbind h
    obtain ⟨⟨mid, result⟩, hmid, h⟩ := unbind h
    obtain ⟨⟨last, results⟩, hlast, h⟩ := unbind h
    cases h
    exact claimedFences_submitChildren hlast (claimedFences_submit hmid hg)

/-! ### Claims -/

theorem claimedFences_writeExhausted {request : ClaimWorkItemRequest} {scan : Scan}
    (hscan : scanRows request {} g.nodes.rows = .ok scan) (hg : ClaimedFences g) :
    ClaimedFences (writeExhausted scan.exhausted g) := by
  intro k row hget
  rcases @get_writeExhausted k scan.exhausted g with ⟨-, hsame⟩ | ⟨row', hmem, hnew⟩
  · rw [hsame] at hget
    exact hg k row hget
  · obtain ⟨before, hbefore, hclassify⟩ := (mem_exhausted hscan).mp hmem
    obtain ⟨-, -, -, epoch, -, rfl⟩ := classifyRow_exhausted hclassify
    rw [hnew] at hget
    cases hget
    exact (hg k before hbefore).congr rfl rfl

theorem claimedFences_claim {request : ClaimWorkItemRequest} {result : Claimed}
    (h : claimWorkItem request g = .ok (g', result)) (hg : ClaimedFences g) : ClaimedFences g' := by
  obtain ⟨scan, hscan, hended⟩ := claimWorkItem_ok h
  have hexhausted := claimedFences_writeExhausted hscan hg
  cases hended with
  | quota => exact hexhausted
  | empty => exact hexhausted
  | @granted id base epoch _ _ mem _ _ _ =>
    exact claimedFences_write hexhausted fun _ => .inr ⟨epoch, rfl⟩

/-! ### Commits -/

theorem claimedFences_releaseDownstream {now : ℕ} :
    ∀ {children : List String} {g g' : Graph} {changed : List String},
      releaseDownstream now children g = .ok (g', changed) → ClaimedFences g → ClaimedFences g'
  | [], _, _, _, h, hg => by
    cases h
    exact hg
  | child :: rest, g, _, _, h, hg => by
    obtain ⟨found, hfound, h⟩ := unbind h
    cases found with
    | none => exact claimedFences_releaseDownstream h hg
    | some row =>
      obtain ⟨⟨released, changed⟩, hreleased, h⟩ := unbind h
      cases h
      refine claimedFences_releaseDownstream hreleased ?_
      exact claimedFences_rewrite hg (Graph.load_eq_some.mp hfound) rfl rfl

def Receipts (receipts : List (String × Option Row)) : Prop :=
  ∀ id row, (id, some row) ∈ receipts → row.kind ∈ receiptKinds

theorem claimedFences_commit (h : commitWorkItemResult request g = .ok (g', result))
    (hreceipts : g' ≠ g → Receipts (request.receipts.getD [])) (hg : ClaimedFences g) :
    ClaimedFences g' := by
  by_cases hsame : g' = g
  · rw [hsame]
    exact hg
  rcases commitWorkItemResult_ok h with ⟨heq, -⟩ | ⟨row, released, changed, hcommits⟩
  · exact absurd heq hsame
  have hwritten : ClaimedFences (g.write request.fence.workItemId
      (recordResultRefs request (applyStatus request row).1)) := by
    refine claimedFences_rewrite hg hcommits.found ?_ ?_
    all_goals
      unfold applyStatus
      split_ifs <;> rfl
  have hreleased := claimedFences_releaseDownstream hcommits.releases hwritten
  intro k row' hget
  rw [hcommits.written] at hget
  rcases @get_applyReceiptRows k (writtenReceipts (applyStatus request row).2 request) released with
    ⟨-, hkept⟩ | ⟨payload, hmem, hnew⟩
  · rw [hkept] at hget
    exact hreleased k row' hget
  · rw [hnew] at hget
    cases hget
    have hkind := hreceipts hsame k row' (mem_receipts_of_written hmem)
    intro hlifecycle
    rw [hlifecycle] at hkind
    exact absurd hkind (by decide)

theorem extension_of_commit (h : commitWorkItemResult request g = .ok (g', result)) (hne : g' ≠ g) :
    request.receipts = none ∨ request.answers.extension = none := by
  obtain ⟨found, -, h⟩ := unbind h
  rcases found with _ | row
  · cases h
    exact absurd rfl hne
  obtain ⟨_, _, h⟩ := unbind h
  rcases hprecheck : commitPrecheck request row with _ | refusal
  · rw [hprecheck] at h
    obtain ⟨_, _, h⟩ := unbind h
    obtain ⟨_, hextension, -⟩ := unbind h
    unfold validateExtension at hextension
    rcases hreceipts : request.receipts with _ | receipts
    · exact .inl rfl
    · rw [hreceipts] at hextension
      obtain ⟨_, hanswered, -⟩ := unbind hextension
      exact .inr (answered_eq_ok.mp hanswered)
  · rw [hprecheck] at h
    cases h
    exact absurd rfl hne

theorem kind_of_unboundReceipt (h : unboundReceipt (id, some row) = none) :
    row.kind ∈ receiptKinds := by
  unfold unboundReceipt at h
  dsimp only at h
  split_ifs at h with hkind
  exact hkind

section
variable (h : commitWorkItemResult (answeredCommit request lanes) g = .ok (g', result))
include h

theorem receipts_of_commit (hne : g' ≠ g) : Receipts (request.receipts.getD []) := by
  intro id row hmem
  rcases extension_of_commit h hne with hnone | hextension
  · have hreceipts : request.receipts = none := hnone
    rw [hreceipts] at hmem
    cases hmem
  · obtain ⟨hbound, -⟩ := Option.or_eq_none_iff.mp hextension
    exact kind_of_unboundReceipt (List.findSome?_eq_none_iff.mp hbound (id, some row) hmem)

theorem claimedFences_answeredCommit (hg : ClaimedFences g) : ClaimedFences g' := by
  refine claimedFences_commit h (fun hne => ?_) hg
  have hreceipts := receipts_of_commit h hne
  exact hreceipts

end

/-! ### Every operation on the rows -/

theorem claimedFences_metadata {request : CasMetadataRequest} {now : ℕ}
    (h : casWorkItemMetadata request now g = .ok g') (hg : ClaimedFences g) : ClaimedFences g' := by
  obtain ⟨_, _, h⟩ := unbind h
  obtain ⟨_, _, h⟩ := unbind h
  obtain ⟨found, hfound, h⟩ := unbind h
  rcases found with _ | row
  · cases h
    exact hg
  dsimp only at h
  split_ifs at h
  · split at h
    · cases h
      exact hg
    · rename_i next hnext
      cases h
      have hkept : next.kind = row.kind ∧ next.workItemFence = row.workItemFence := by
        unfold applyCasMetadataField at hnext
        split at hnext
        all_goals
          split_ifs at hnext
          cases hnext
          exact ⟨rfl, rfl⟩
      exact claimedFences_rewrite hg (Graph.load_eq_some.mp hfound) hkept.1 hkept.2
  · cases h
    exact hg

/-- **The native operations keep the spelling of lifecycle fences.** -/
theorem claimedFences_workItem {call : WorkItem.Machine.Call} {result : WorkItem.Machine.Result}
    (h : WorkItem.Machine.apply H g (answeredCall lanes call) = .ok (g', result))
    (hg : ClaimedFences g) : ClaimedFences g' := by
  cases call with
  | submit request scope =>
    obtain ⟨⟨g₁, result⟩, hsubmit, h⟩ := unbind h
    cases h
    exact claimedFences_submit hsubmit hg
  | submitBatch request scope =>
    obtain ⟨⟨g₁, results⟩, hsubmit, h⟩ := unbind h
    cases h
    exact claimedFences_submitChildren (submitWorkItems_ok hsubmit) hg
  | claim request =>
    obtain ⟨⟨g₁, result⟩, hclaim, h⟩ := unbind h
    cases h
    exact claimedFences_claim hclaim hg
  | renew request =>
    obtain ⟨⟨g₁, status⟩, hrenew, h⟩ := unbind h
    cases h
    rcases renewWorkItemLease_ok hrenew with rfl | ⟨row, hrow, -, rfl⟩
    · exact hg
    · exact claimedFences_rewrite hg hrow rfl rfl
  | commit request =>
    obtain ⟨⟨g₁, result⟩, hcommit, h⟩ := unbind h
    cases h
    exact claimedFences_answeredCommit hcommit hg
  | cancel request =>
    obtain ⟨⟨g₁, status⟩, hcancel, h⟩ := unbind h
    cases h
    rcases cancelWorkItem_ok hcancel with ⟨rfl, -⟩ | ⟨row, fences, hrow, -, -, -, -, rfl⟩
    · exact hg
    · exact claimedFences_rewrite hg hrow rfl rfl
  | defer request =>
    obtain ⟨⟨g₁, status⟩, hdefer, h⟩ := unbind h
    cases h
    rcases deferWorkItem_ok hdefer with ⟨rfl, -⟩ | ⟨row, fences, hrow, -, -, -, rfl⟩
    · exact hg
    · exact claimedFences_rewrite hg hrow rfl rfl

/-! ### The fence of a reservation -/

/-- The fence text of every reservation is its fencing token. -/
def NumberedFences (l : Ledger) : Prop :=
  ∀ id stored, l.reservations.get id = some stored →
    stored.record.fence = toString stored.record.fencingToken

theorem fence_of_workItem {request : ReservationRequest} {allowSuperseded : Bool}
    {fence : WorkItemFence}
    (h : resourceValidateWorkItem codecs row request allowSuperseded = .ok fence) :
    request.fence = toString request.fencingToken := by
  obtain ⟨_, _, h⟩ := unbind h
  obtain ⟨_, _, h⟩ := unbind h
  obtain ⟨_, hfence, -⟩ := unbind h
  rw [rejectIf_eq_ok, not_not] at hfence
  exact hfence

theorem numberedFences_host {request : HostUpdateRequest} {l l' : Ledger} {result : HostUpdateResult}
    (h : Resource.Admission.applyUpdateResourceHost request l = .ok (l', result))
    (hl : NumberedFences l) : NumberedFences l' := by
  rcases applyUpdateResourceHost_ok h with rfl | ⟨-, rfl⟩
  · exact hl
  · exact hl

section
variable {mode : Mode} {request : ReservationRequest} {l l' : Ledger} {result : ReservationResult}
  (h : applyResourceReservationLifecycle codecs mode request l = .ok (l', result))
include h

/-- **The resource operations keep the spelling of reservation fences.** -/
theorem numberedFences_lifecycle (hl : NumberedFences l) : NumberedFences l' := by
  cases lifecycle_outcome h with
  | refused policies => exact hl
  | reserved policies _ hadmitted hcommit =>
    obtain ⟨debt, snapshot, hstored⟩ := (charges_of_commit hcommit).stored
    obtain ⟨row, fence, -, hvalid, -⟩ := hadmitted.item
    intro id stored hget
    rw [hstored] at hget
    rcases get_insert_cases hget with ⟨-, rfl⟩ | ⟨-, hget⟩
    · exact fence_of_workItem hvalid
    · exact hl id stored hget
  | released _ hreleasable hcharge =>
    obtain ⟨fence, debt, hrow⟩ := (refunds_of_charge hcharge).row
    intro id stored hget
    rw [hrow] at hget
    rcases get_insert_cases hget with ⟨-, rfl⟩ | ⟨-, hget⟩
    · have hfence := hl request.reservationId _ hreleasable.found
      exact hfence
    · exact hl id stored hget

theorem items_of_lifecycle : l'.items = l.items := by
  cases lifecycle_outcome h with
  | refused policies => rfl
  | reserved policies _ _ hcommit => exact (charges_of_commit hcommit).items
  | released _ _ hcharge => exact (refunds_of_charge hcharge).items

end

end Medulla.Lane.Fences
