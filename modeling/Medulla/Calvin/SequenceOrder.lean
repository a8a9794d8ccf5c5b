import Medulla.Calvin.Locks
import Medulla.Library.Courses

/-! # Locks in sequence order

Transactions register under ascending sequence numbers and release when all their requests are
granted. Then a new request always enters at the end of its queues, so the manager stays orderly in
every course.

* safety: `granted_alone_or_shared`, `granted_stays`, `lower_releases_first`;
* liveness: `eventually_held`;
* together: `serializes_in_sequence_order`. -/

namespace Medulla.Calvin.SequenceOrder

open Library.OrderedTable Library.OrderedSet Library.Transaction Library.Courses Queues
open Locks

/-! ### Registrations and releases -/

/-- The manager, the sets registered and not released, and a bound above all numbers registered. -/
structure Scheduler where
  mgr : OrderedLockManager
  registered : Table GlobalSeq RwSet
  next : GlobalSeq

/-- Nothing is registered. -/
def Scheduler.initial : Scheduler := ⟨.new, .empty, 0⟩

/-- A transaction registers with its sets, or releases its locks. -/
inductive Call
  | register (seq : GlobalSeq) (rwset : RwSet)
  | release (seq : GlobalSeq)

/-- One call of the scheduler. -/
def step (s : Scheduler) : Call → Scheduler
  | .register seq rwset => ⟨(register s.mgr seq rwset).1, s.registered.insert seq rwset, seq + 1⟩
  | .release seq =>
    match s.registered.get seq with
    | some rwset => ⟨release s.mgr (ticketOf seq rwset), s.registered.remove seq, s.next⟩
    | none => s

/-- Numbers ascend, and a transaction releases when all its requests are granted. -/
def Disciplined (s : Scheduler) : Call → Prop
  | .register seq _ => s.next ≤ seq
  | .release seq => ∃ rwset, s.registered.get seq = some rwset ∧
      allGranted s.mgr (ticketOf seq rwset) = true

instance (s : Scheduler) : ∀ call, Decidable (Disciplined s call)
  | .register seq _ => inferInstanceAs (Decidable (s.next ≤ seq))
  | .release seq =>
    decidable_of_iff
      ((s.registered.get seq).any (fun rwset => allGranted s.mgr (ticketOf seq rwset)) = true)
      (Option.any_eq_true _ _)

/-- A course of the scheduler that registers in sequence order. -/
abbrev Orders (st : ℕ → Scheduler) (ev : ℕ → Option Call) : Prop :=
  Course step Disciplined .initial st ev

/-- The sets registered under a number. -/
def claims (s : Scheduler) (seq : GlobalSeq) : Option Claim :=
  (s.registered.get seq).map fun rwset => ⟨seq, rwset⟩

/-- The manager is orderly, and all numbers are below the bound. -/
structure Serving (s : Scheduler) : Prop where
  orderly : Orderly s.mgr (claims s)
  below : ∀ seq rwset, s.registered.get seq = some rwset → seq < s.next

/-- The number was passed and its transaction is not registered any more. -/
def Gone (s : Scheduler) (seq : GlobalSeq) : Prop := seq < s.next ∧ s.registered.get seq = none

/-! ### One call -/

section
variable {s : Scheduler} {seq a b : GlobalSeq} {rwset : RwSet} {key : RecordKey} {call : Call}

theorem claims_eq_some {c : Claim} :
    claims s seq = some c ↔ c.seq = seq ∧ s.registered.get seq = some c.rwset := by
  unfold claims
  rw [Option.map_eq_some_iff]
  constructor
  · rintro ⟨rwset, h, rfl⟩
    exact ⟨rfl, h⟩
  · rintro ⟨rfl, h⟩
    exact ⟨c.rwset, h, rfl⟩

theorem claims_register : claims (step s (.register seq rwset)) =
    Function.update (claims s) seq (some ⟨seq, rwset⟩) := by
  funext t
  unfold claims step
  simp only [Table.get_insert]
  by_cases ht : t = seq
  · simp [ht]
  · simp [ht]

theorem claims_release (h : s.registered.get seq = some rwset) :
    claims (step s (.release seq)) = Function.update (claims s) seq none := by
  funext t
  unfold claims step
  simp only [h, Table.get_remove]
  by_cases ht : t = seq
  · simp [ht]
  · simp [ht]

theorem Serving.seq_lt (h : Serving s) {e : LockEntry} (he : e ∈ queue s.mgr key) : e.seq < s.next := by
  obtain ⟨i, c, hi, hc, -⟩ := h.orderly.owned key e he
  obtain ⟨rfl, hreg⟩ := claims_eq_some.mp hi
  rw [← hc]
  exact h.below _ _ hreg

theorem Serving.admissible (h : Serving s) (hseq : s.next ≤ seq) : Admissible s.mgr ⟨seq, rwset⟩ := by
  intro key mode _ d hd hle
  exact absurd (Nat.lt_of_lt_of_le (h.seq_lt hd) hseq) (Nat.not_lt.mpr hle)

theorem Serving.step (h : Serving s) (hcall : Disciplined s call) : Serving (step s call) := by
  cases call with
  | register seq rwset =>
    have hnone : claims s seq = none := by
      rw [Option.eq_none_iff_forall_ne_some]
      intro c hc
      obtain ⟨-, hreg⟩ := claims_eq_some.mp hc
      exact absurd (h.below seq _ hreg) (Nat.not_lt.mpr hcall)
    refine ⟨?_, fun t r ht => ?_⟩
    · rw [claims_register]
      exact h.orderly.register hnone (h.admissible hcall)
    · simp only [SequenceOrder.step, Table.get_insert] at ht ⊢
      split_ifs at ht with heq
      · rw [heq]
        exact Nat.lt_succ_self seq
      · exact Nat.lt_succ_of_lt (Nat.lt_of_lt_of_le (h.below t r ht) hcall)
  | release seq =>
    obtain ⟨rwset, hreg, -⟩ := hcall
    refine ⟨?_, fun t r ht => ?_⟩
    · have hclaim : claims s seq = some ⟨seq, rwset⟩ := claims_eq_some.mpr ⟨rfl, hreg⟩
      rw [claims_release hreg]
      simp only [SequenceOrder.step, hreg]
      exact h.orderly.release hclaim
    · simp only [SequenceOrder.step, hreg, Table.get_remove] at ht ⊢
      split_ifs at ht
      exact h.below t r ht

theorem serving_initial : Serving .initial where
  orderly := orderly_new
  below := fun _ _ h => by cases h

theorem Gone.step (h : Gone s seq) (hcall : Disciplined s call) : Gone (step s call) seq := by
  obtain ⟨hlt, hnone⟩ := h
  cases call with
  | register t r =>
    have hne : seq ≠ t := Nat.ne_of_lt (Nat.lt_of_lt_of_le hlt hcall)
    refine ⟨?_, ?_⟩
    · exact Nat.lt_succ_of_lt (Nat.lt_of_lt_of_le hlt hcall)
    · simp only [SequenceOrder.step, Table.get_insert_of_ne _ _ hne, hnone]
  | release t =>
    obtain ⟨r, hreg, -⟩ := hcall
    simp only [Gone, SequenceOrder.step, hreg, Table.get_remove, hnone, ite_self, and_true]
    exact hlt

theorem registered_step (hs : Serving s) (hcall : Disciplined s call)
    (h : s.registered.get seq = some rwset) :
    (step s call).registered.get seq = some rwset ∨ call = .release seq := by
  cases call with
  | register t r =>
    have hne : seq ≠ t := Nat.ne_of_lt (Nat.lt_of_lt_of_le (hs.below seq rwset h) hcall)
    exact Or.inl (by simp only [step, Table.get_insert_of_ne _ _ hne, h])
  | release t =>
    obtain ⟨r, hreg, -⟩ := hcall
    by_cases ht : seq = t
    · exact Or.inr (by rw [ht])
    · exact Or.inl (by simp only [step, hreg, Table.get_remove_of_ne _ ht, h])

theorem grantedAt_step (hcall : Disciplined s call) (h : GrantedAt s.mgr seq key) :
    GrantedAt (step s call).mgr seq key ∨ call = .release seq := by
  cases call with
  | register t r => exact Or.inl (h.register t r)
  | release t =>
    obtain ⟨r, hreg, -⟩ := hcall
    by_cases ht : seq = t
    · exact Or.inr (by rw [ht])
    · refine Or.inl ?_
      simp only [step, hreg]
      exact h.release (Or.inr ht)

theorem Serving.registered_of_granted (h : Serving s) (hg : GrantedAt s.mgr seq key) :
    ∃ rwset, s.registered.get seq = some rwset := by
  obtain ⟨e, he, hseq, -⟩ := hg
  obtain ⟨i, c, hi, hc, -⟩ := h.orderly.owned key e he
  obtain ⟨rfl, hreg⟩ := claims_eq_some.mp hi
  exact ⟨c.rwset, by rw [← hseq, ← hc]; exact hreg⟩

theorem Serving.not_granted (h : Serving s) {ra rb : RwSet} {ma mb : LockMode} (hab : a < b)
    (ha : s.registered.get a = some ra) (hb : s.registered.get b = some rb)
    (hma : (lockRequests ra).get key = some ma) (hmb : (lockRequests rb).get key = some mb)
    (hconflict : ma = .exclusive ∨ mb = .exclusive) : ¬ GrantedAt s.mgr b key := by
  rintro ⟨f, hf, hfs, hfg⟩
  have hca : claims s a = some ⟨a, ra⟩ := claims_eq_some.mpr ⟨rfl, ha⟩
  have hcb : claims s b = some ⟨b, rb⟩ := claims_eq_some.mpr ⟨rfl, hb⟩
  obtain ⟨e, he, hes, hem⟩ := h.orderly.entered a _ key ma hca hma
  obtain ⟨f', hf', hfs', hfm⟩ := h.orderly.entered b _ key mb hcb hmb
  obtain rfl := (h.orderly.ordered key).eq_of_seq hf' hf (hfs'.trans hfs.symm)
  have hlt : e.seq < f'.seq := by
    rw [hes, hfs]
    exact hab
  obtain ⟨hem', hfm'⟩ := (h.orderly.exact key).shared_of_lower (h.orderly.ordered key) he hf hlt hfg
  rcases hconflict with rfl | rfl
  · rw [hem'] at hem
    cases hem
  · rw [hfm'] at hfm
    cases hfm

theorem Serving.held_of_lowest (h : Serving s) (hreg : s.registered.get seq = some rwset)
    (hlow : ∀ t, t < seq → Gone s t) : allGranted s.mgr (ticketOf seq rwset) = true := by
  have hc : claims s seq = some ⟨seq, rwset⟩ := claims_eq_some.mpr ⟨rfl, hreg⟩
  refine (allGranted_iff (c := ⟨seq, rwset⟩) h.orderly).mpr fun key mode hmode => ?_
  obtain ⟨e, he, hes, -⟩ := h.orderly.entered seq _ key mode hc hmode
  refine ⟨e, he, hes, (h.orderly.exact key).granted_of_first (h.orderly.ordered key) he ?_⟩
  intro d hd hlt
  obtain ⟨t, c, ht, hcd, -⟩ := h.orderly.owned key d hd
  obtain ⟨rfl, hregt⟩ := claims_eq_some.mp ht
  have hcseq : c.seq < seq := by
    rw [hcd]
    rw [hes] at hlt
    exact hlt
  rw [(hlow c.seq hcseq).2] at hregt
  cases hregt

end

/-! ### Courses -/

section
variable {st : ℕ → Scheduler} {ev : ℕ → Option Call} {n m i j : ℕ} {seq a b : GlobalSeq}
  {rwset ra rb : RwSet} {key : RecordKey}

section
variable (h : Orders st ev)
include h

theorem serving (n : ℕ) : Serving (st n) :=
  h.invariant (fun _ _ hcall hs => hs.step hcall) serving_initial n

theorem gone_later (hnm : n ≤ m) (hg : Gone (st n) seq) : Gone (st m) seq :=
  h.keeps (I := fun s => Gone s seq) (fun _ _ hcall hs => hs.step hcall) hnm hg

theorem registered_until_release (hn : (st n).registered.get seq = some rwset)
    (hnm : n ≤ m) : (st m).registered.get seq = some rwset ∨
      ∃ k, n ≤ k ∧ k < m ∧ ev k = some (.release seq) ∧ (st k).registered.get seq = some rwset := by
  induction hnm with
  | refl => exact Or.inl hn
  | @step k hk ih =>
    rcases ih with hreg | ⟨l, hl, hlk, hlev, hlreg⟩
    · cases hev : ev k with
      | none => exact Or.inl (by rw [h.rest k hev, hreg])
      | some call =>
        obtain ⟨hcall, hst⟩ := h.move k call hev
        rcases registered_step (serving h k) hcall hreg with hreg' | rfl
        · exact Or.inl (by rw [hst, hreg'])
        · exact Or.inr ⟨k, hk, Nat.lt_succ_self k, hev, hreg⟩
    · exact Or.inr ⟨l, hl, Nat.lt_succ_of_lt hlk, hlev, hlreg⟩

theorem registered_after (hi : ev i = some (.register a ra)) :
    (st (i + 1)).registered.get a = some ra := by
  obtain ⟨-, hst⟩ := h.move i _ hi
  rw [hst]
  exact Table.get_insert_self ..

theorem next_mono (hnm : n ≤ m) : (st n).next ≤ (st m).next := by
  refine h.keeps (I := fun s => (st n).next ≤ s.next) (fun s call hcall hs => ?_) hnm (Nat.le_refl _)
  cases call with
  | register t r => exact Nat.le_succ_of_le (Nat.le_trans hs hcall)
  | release t =>
    obtain ⟨r, hreg, -⟩ := hcall
    simp only [step, hreg]
    exact hs

theorem not_registered_before (hi : ev i = some (.register a ra)) (hn : n ≤ i) :
    (st n).registered.get a = none := by
  rw [Option.eq_none_iff_forall_ne_some]
  intro r hr
  have hlt := (serving h n).below a r hr
  obtain ⟨hle, -⟩ := h.move i _ hi
  exact absurd (Nat.lt_of_lt_of_le hlt (next_mono h hn)) (Nat.not_lt.mpr hle)

theorem gone_of_release (hm : ev m = some (.release a)) : Gone (st (m + 1)) a := by
  obtain ⟨⟨r, hreg, -⟩, hst⟩ := h.move m _ hm
  rw [hst]
  refine ⟨?_, ?_⟩
  · simp only [step, hreg]
    exact (serving h m).below a r hreg
  · simp only [step, hreg, Table.get_remove_self]

theorem registered_eq (hi : ev i = some (.register a ra))
    (hn : (st n).registered.get a = some rwset) : i < n ∧ rwset = ra := by
  have hlt : i < n := by
    by_contra hle
    rw [not_registered_before h hi (Nat.le_of_not_lt hle)] at hn
    cases hn
  refine ⟨hlt, ?_⟩
  rcases registered_until_release h (registered_after h hi) hlt with hreg | ⟨k, -, hkn, hev, -⟩
  · rw [hreg] at hn
    exact (Option.some.inj hn).symm
  · rw [(gone_later h hkn (gone_of_release h hev)).2] at hn
    cases hn

theorem registers_first (hab : a < b) (hi : ev i = some (.register a ra))
    (hj : ev j = some (.register b rb)) : i < j := by
  by_contra hle
  obtain ⟨hia, -⟩ := h.move i _ hi
  rcases Nat.lt_or_eq_of_le (Nat.le_of_not_lt hle) with hlt | rfl
  · have hnext : (st (j + 1)).next = b + 1 := by rw [(h.move j _ hj).2]; rfl
    have hmono := next_mono h (n := j + 1) (m := i) hlt
    rw [hnext] at hmono
    exact absurd (Nat.lt_of_succ_le (Nat.le_trans hmono hia)) (Nat.lt_asymm hab)
  · rw [hi] at hj
    obtain ⟨rfl, -⟩ := Call.register.inj (Option.some.inj hj)
    exact absurd hab (Nat.lt_irrefl _)

/-! ### The four properties -/

/-- **One writer or readers.** -/
theorem granted_alone_or_shared (n : ℕ) (key : RecordKey) :
    (∃ e, (queue (st n).mgr key).filter (·.granted) = [e] ∧ e.mode = .exclusive) ∨
      ∀ e ∈ (queue (st n).mgr key).filter (·.granted), e.mode = .shared := by
  have hs := (serving h n).orderly
  by_cases hx : ∃ e ∈ (queue (st n).mgr key).filter (·.granted), e.mode = .exclusive
  · obtain ⟨e, he, hmode⟩ := hx
    obtain ⟨heq, heg⟩ := List.mem_filter.mp he
    have honly : ∀ d ∈ (queue (st n).mgr key).filter (·.granted), d = e := by
      intro d hd
      obtain ⟨hdq, hdg⟩ := List.mem_filter.mp hd
      exact (hs.exact key).exclusive (hs.ordered key) hdq heq hdg heg hmode
    have hnodup : ((queue (st n).mgr key).filter (·.granted)).Nodup := by
      refine List.Nodup.filter _ (List.Nodup.of_map LockEntry.seq ?_)
      exact (hs.ordered key).imp fun hlt => Nat.ne_of_lt hlt
    refine Or.inl ⟨e, ?_, hmode⟩
    obtain ⟨a, b, hab⟩ := List.append_of_mem he
    rw [hab] at honly hnodup ⊢
    have ha : a = [] := by
      rw [List.eq_nil_iff_forall_not_mem]
      intro d hd
      obtain rfl := honly d (by simp [hd])
      exact (List.disjoint_of_nodup_append hnodup) hd (.head _)
    have hb : b = [] := by
      rw [List.eq_nil_iff_forall_not_mem]
      intro d hd
      obtain rfl := honly d (by simp [hd])
      exact (List.nodup_cons.mp hnodup.of_append_right).1 hd
    rw [ha, hb]
    rfl
  · refine Or.inr fun e he => ?_
    cases hmode : e.mode with
    | shared => rfl
    | exclusive => exact absurd ⟨e, he, hmode⟩ hx

/-- **A grant is not taken back.** -/
theorem granted_stays (hg : GrantedAt (st n).mgr seq key) :
    GrantedAt (st (n + 1)).mgr seq key ∨ ev n = some (.release seq) := by
  cases hev : ev n with
  | none =>
    rw [h.rest n hev]
    exact Or.inl hg
  | some call =>
    obtain ⟨hcall, hst⟩ := h.move n call hev
    rw [hst]
    exact (grantedAt_step hcall hg).imp_right (congrArg some)

/-- **The lower of two transactions in conflict holds the record and releases it first.** -/
theorem lower_releases_first (hi : ev i = some (.register a ra))
    (hj : ev j = some (.register b rb)) (hab : a < b) {ma mb : LockMode}
    (hma : (lockRequests ra).get key = some ma) (hmb : (lockRequests rb).get key = some mb)
    (hconflict : ma = .exclusive ∨ mb = .exclusive) (hg : GrantedAt (st n).mgr b key) :
    ∃ m < n, ev m = some (.release a) ∧ GrantedAt (st m).mgr a key ∧
      ∀ k ≤ m, ¬ GrantedAt (st k).mgr b key := by
  have hij := registers_first h hab hi hj
  -- wherever the higher is granted it is registered, so the lower was registered before
  have hafter : ∀ k, GrantedAt (st k).mgr b key → i + 1 ≤ k ∧ (st k).registered.get b = some rb := by
    intro k hk
    obtain ⟨r, hr⟩ := (serving h k).registered_of_granted hk
    obtain ⟨hjk, rfl⟩ := registered_eq h hj hr
    exact ⟨Nat.lt_trans hij hjk, hr⟩
  obtain ⟨hin, hbn⟩ := hafter n hg
  rcases registered_until_release h (registered_after h hi) hin with hreg | ⟨m, him, hmn, hev, hregm⟩
  · exact absurd hg ((serving h n).not_granted hab hreg hbn hma hmb hconflict)
  · refine ⟨m, hmn, hev, ?_, fun k hk hgk => ?_⟩
    · obtain ⟨⟨r, hr, hall⟩, -⟩ := h.move m _ hev
      rw [hregm] at hr
      obtain rfl := Option.some.inj hr
      exact (allGranted_iff (c := ⟨a, ra⟩) (serving h m).orderly).mp hall key ma hma
    · obtain ⟨hik, hbk⟩ := hafter k hgk
      rcases registered_until_release h (registered_after h hi) hik with hreg | ⟨l, -, hlk, hlev, -⟩
      · exact (serving h k).not_granted hab hreg hbk hma hmb hconflict hgk
      · have hgone := gone_later h (Nat.le_trans hlk hk) (gone_of_release h hlev)
        rw [hgone.2] at hregm
        cases hregm

end

/-- Whoever holds all its locks releases them some time. -/
def Fair (st : ℕ → Scheduler) (ev : ℕ → Option Call) : Prop :=
  ∀ n seq rwset, (st n).registered.get seq = some rwset →
    allGranted (st n).mgr (ticketOf seq rwset) = true → ∃ m, n ≤ m ∧ ev m = some (.release seq)

/-- **No deadlock**: whoever is registered comes to hold all its locks. Strong induction on the number:
all lower numbers come to hold their locks, release them and are gone. -/
theorem eventually_held (h : Orders st ev) (hfair : Fair st ev) (seq : GlobalSeq) :
    ∀ n rwset, (st n).registered.get seq = some rwset →
      ∃ m, n ≤ m ∧ allGranted (st m).mgr (ticketOf seq rwset) = true := by
  induction seq using Nat.strong_induction_on with
  | _ seq ih =>
    intro n rwset hreg
    have hgone : ∀ t ∈ List.range seq, ∃ k, Gone (st k) t := by
      intro t ht
      have hlt : t < seq := List.mem_range.mp ht
      cases hget : (st n).registered.get t with
      | none => exact ⟨n, Nat.lt_trans hlt ((serving h n).below seq rwset hreg), hget⟩
      | some r =>
        obtain ⟨m, hnm, hheld⟩ := ih t hlt n r hget
        rcases registered_until_release h hget hnm with hregm | ⟨l, -, -, hlev, -⟩
        · obtain ⟨l, -, hlev⟩ := hfair m t r hregm hheld
          exact ⟨l + 1, gone_of_release h hlev⟩
        · exact ⟨l + 1, gone_of_release h hlev⟩
    obtain ⟨k, hk⟩ := eventually_forall (P := fun t k => Gone (st k) t)
      (fun t n m hnm hg => gone_later h hnm hg) (List.range seq) hgone
    rcases registered_until_release h hreg (Nat.le_max_left n k) with hregk | ⟨l, hnl, -, hlev, hregl⟩
    · refine ⟨max n k, Nat.le_max_left n k, (serving h _).held_of_lowest hregk fun t ht => ?_⟩
      exact gone_later h (Nat.le_max_right n k) (hk t (List.mem_range.mpr ht))
    · obtain ⟨⟨r, hr, hall⟩, -⟩ := h.move l _ hlev
      rw [hregl] at hr
      obtain rfl := Option.some.inj hr
      exact ⟨l, hnl, hall⟩

end

/-- **The lock manager serializes in sequence order.** -/
theorem serializes_in_sequence_order {st : ℕ → Scheduler} {ev : ℕ → Option Call} (h : Orders st ev) :
    (∀ n key, (∃ e, (queue (st n).mgr key).filter (·.granted) = [e] ∧ e.mode = .exclusive) ∨
        ∀ e ∈ (queue (st n).mgr key).filter (·.granted), e.mode = .shared) ∧
      (∀ n seq key, GrantedAt (st n).mgr seq key →
        GrantedAt (st (n + 1)).mgr seq key ∨ ev n = some (.release seq)) ∧
      (∀ i j n a b ra rb key ma mb, ev i = some (.register a ra) → ev j = some (.register b rb) →
        a < b → (lockRequests ra).get key = some ma → (lockRequests rb).get key = some mb →
        ma = .exclusive ∨ mb = .exclusive → GrantedAt (st n).mgr b key →
          ∃ m < n, ev m = some (.release a) ∧ GrantedAt (st m).mgr a key ∧
            ∀ k ≤ m, ¬ GrantedAt (st k).mgr b key) ∧
      (Fair st ev → ∀ n seq rwset, ev n = some (.register seq rwset) →
        ∃ m, n < m ∧ allGranted (st m).mgr (ticketOf seq rwset) = true) := by
  refine ⟨granted_alone_or_shared h, fun n seq key hg => granted_stays h hg, ?_, ?_⟩
  · intro i j n a b ra rb key ma mb hi hj hab hma hmb hconflict hg
    exact lower_releases_first h hi hj hab hma hmb hconflict hg
  · intro hfair n seq rwset hev
    exact eventually_held h hfair seq (n + 1) rwset (registered_after h hev)

/-- Two writers of one record, one after the other. -/
def twoWriters : List Call := [.register 1 oneWrite, .register 2 oneWrite, .release 1, .release 2]

theorem twoWriters_in_order : Along step Disciplined .initial twoWriters ∧
      (∃ m < 3, twoWriters[m]? = some (.release 1)) ∧
      ∃ m, 1 < m ∧
        allGranted (run step .initial (twoWriters.take m)).mgr (ticketOf 2 oneWrite) = true := by
  have halong : Along step Disciplined .initial twoWriters := by decide +kernel
  obtain ⟨-, -, hlower, hheld⟩ := serializes_in_sequence_order (course_of_along halong)
  refine ⟨halong, ?_, hheld ?_ 1 2 oneWrite rfl⟩
  · obtain ⟨m, hm, hev, -⟩ := hlower 0 1 3 1 2 oneWrite oneWrite (toLex ("g", "n")) .exclusive
      .exclusive rfl rfl (by decide) (by decide +kernel) (by decide +kernel) (Or.inl rfl)
      ⟨⟨2, .exclusive, true⟩, by decide +kernel, rfl, rfl⟩
    exact ⟨m, hm, hev⟩
  · intro n seq rwset hreg _
    have hrow : (seq, rwset) ∈ (run step .initial (twoWriters.take n)).registered.rows :=
      Table.mem_rows.mpr hreg
    match n, hrow with
    | 0, hrow => cases hrow
    | 1, hrow =>
      obtain rfl : seq = 1 := by simpa using congrArg Prod.fst (List.mem_singleton.mp hrow)
      exact ⟨2, by decide, rfl⟩
    | 2, hrow =>
      rcases List.mem_cons.mp hrow with heq | hrow
      · obtain rfl : seq = 1 := congrArg Prod.fst heq
        exact ⟨2, by decide, rfl⟩
      · obtain rfl : seq = 2 := congrArg Prod.fst (List.mem_singleton.mp hrow)
        exact ⟨3, by decide, rfl⟩
    | 3, hrow =>
      obtain rfl : seq = 2 := congrArg Prod.fst (List.mem_singleton.mp hrow)
      exact ⟨3, by decide, rfl⟩
    | n + 4, hrow =>
      rw [List.take_of_length_le (by simp [twoWriters])] at hrow
      cases hrow

end Medulla.Calvin.SequenceOrder
