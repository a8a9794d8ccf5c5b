import Mathlib.Data.Prod.Lex
import Medulla.Calvin.Queues
import Medulla.Library.OrderedSet

/-! # The ordered lock manager

A transaction registers its whole predicted set at once: every record it reads or writes gets a request
at the place of the transaction's sequence number.

* what the operations keep: `Orderly.register`, `Orderly.release`. -/

namespace Medulla.Calvin.Locks

open Library.OrderedTable Library.OrderedSet Queues

/-! ### The manager -/

/-- A record, by its graph and its node. -/
abbrev RecordKey := String ×ₗ String

/-- The records a transaction reads and writes. -/
structure RwSet where
  reads : KeySet RecordKey
  writes : KeySet RecordKey

/-- A write of one record, for runs on fixed inputs. -/
def oneWrite : RwSet := ⟨.empty, add .empty (toLex ("g", "n"))⟩

/-- The locks a transaction asks for: shared on what it reads, exclusive on what it writes. -/
def lockRequests (rwset : RwSet) : Table RecordKey LockMode :=
  (elems rwset.writes).foldl (fun reqs w => reqs.insert w .exclusive)
    ((elems rwset.reads).foldl (fun reqs r => reqs.insert r .shared) .empty)

/-- The lock queue of every record. -/
structure OrderedLockManager where
  records : Table RecordKey (List LockEntry)

/-- No record has a queue. -/
def OrderedLockManager.new : OrderedLockManager := ⟨.empty⟩

/-- A set of requests under one sequence number. -/
structure LockTicket where
  seq : GlobalSeq
  keys : List RecordKey

/-- The entries waiting for or holding a record, front first. -/
def queue (mgr : OrderedLockManager) (key : RecordKey) : List LockEntry :=
  (mgr.records.get key).getD []

/-- Puts a request into the queue of one record and grants what the front allows. -/
def registerAt (seq : GlobalSeq) (mgr : OrderedLockManager) (r : RecordKey × LockMode) :
    OrderedLockManager :=
  ⟨mgr.records.insert r.1 (grantFront (enter (queue mgr r.1) ⟨seq, r.2, false⟩))⟩

/-- The receipt of a registration: its sequence number and the records it queued for. -/
def ticketOf (seq : GlobalSeq) (rwset : RwSet) : LockTicket :=
  ⟨seq, (lockRequests rwset).rows.map Prod.fst⟩

/-- Queues a transaction for all records of its read and write sets at once. -/
def register (mgr : OrderedLockManager) (seq : GlobalSeq) (rwset : RwSet) :
    OrderedLockManager × LockTicket :=
  ((lockRequests rwset).rows.foldl (registerAt seq) mgr, ticketOf seq rwset)

/-- Every queue of the ticket has its entry granted. -/
def allGranted (mgr : OrderedLockManager) (ticket : LockTicket) : Bool :=
  ticket.keys.all fun key => ((queue mgr key).find? fun e => e.seq = ticket.seq).any (·.granted)

/-- Drop a queue with its last request. -/
def store (mgr : OrderedLockManager) (key : RecordKey) (entries : List LockEntry) :
    OrderedLockManager :=
  if entries.isEmpty then ⟨mgr.records.remove key⟩ else ⟨mgr.records.insert key entries⟩

/-- Takes an entry out of one queue and grants what the front allows then. -/
def releaseAt (seq : GlobalSeq) (mgr : OrderedLockManager) (key : RecordKey) : OrderedLockManager :=
  match mgr.records.get key with
  | some entries => store mgr key (grantFront (entries.filter fun e => e.seq ≠ seq))
  | none => mgr

/-- Release the records of a ticket and grant the next requests. -/
def release (mgr : OrderedLockManager) (ticket : LockTicket) : OrderedLockManager :=
  ticket.keys.foldl (releaseAt ticket.seq) mgr

/-! ### Requests -/

section
variable {mgr : OrderedLockManager} {key k : RecordKey} {seq s : GlobalSeq} {rwset : RwSet}
  {mode : LockMode}

theorem get_foldl_insert_const {m : LockMode} : ∀ {ks : List RecordKey} {t : Table RecordKey LockMode},
    (ks.foldl (fun reqs r => reqs.insert r m) t).get key = if key ∈ ks then some m else t.get key
  | [], t => by simp
  | x :: ks, t => by
    rw [List.foldl_cons, get_foldl_insert_const, Table.get_insert]
    by_cases hks : key ∈ ks
    · simp [hks]
    · by_cases hx : key = x
      · simp [hx]
      · simp [hks]

theorem get_lockRequests : (lockRequests rwset).get key =
    if has rwset.writes key then some .exclusive
    else if has rwset.reads key then some .shared else none := by
  unfold lockRequests
  rw [get_foldl_insert_const, get_foldl_insert_const]
  simp only [mem_elems, Table.get_empty]

theorem nodup_keys {V : Type*} (t : Table RecordKey V) : (t.rows.map Prod.fst).Nodup :=
  List.pairwise_map.mpr (t.sorted.imp fun hlt => hlt.ne)

theorem mem_keys_iff {V : Type*} {t : Table RecordKey V} :
    key ∈ t.rows.map Prod.fst ↔ ∃ v, t.get key = some v := by
  simp only [List.mem_map, Prod.exists, exists_and_right, exists_eq_right, Table.mem_rows]

/-! ### One record -/

theorem queue_foldl {α : Type*} {g : OrderedLockManager → α → OrderedLockManager}
    (keyOf : α → RecordKey) {f : α → List LockEntry → List LockEntry}
    (hg : ∀ mgr x k, queue (g mgr x) k = if k = keyOf x then f x (queue mgr k) else queue mgr k) :
    ∀ (xs : List α) (mgr : OrderedLockManager), (xs.map keyOf).Nodup →
      (∀ x ∈ xs, queue (xs.foldl g mgr) (keyOf x) = f x (queue mgr (keyOf x))) ∧
        ∀ k, k ∉ xs.map keyOf → queue (xs.foldl g mgr) k = queue mgr k
  | [], mgr, _ => ⟨fun x hx => absurd hx List.not_mem_nil, fun _ _ => rfl⟩
  | x :: xs, mgr, hnodup => by
    rw [List.map_cons, List.nodup_cons] at hnodup
    obtain ⟨hin, hout⟩ := queue_foldl keyOf hg xs (g mgr x) hnodup.2
    constructor
    · intro y hy
      rcases List.mem_cons.mp hy with rfl | hy
      · rw [List.foldl_cons, hout _ hnodup.1, hg, if_pos rfl]
      · have hne : keyOf y ≠ keyOf x := fun h => hnodup.1 (h ▸ List.mem_map_of_mem hy)
        rw [List.foldl_cons, hin y hy, hg, if_neg hne]
    · intro k hk
      rw [List.map_cons, List.mem_cons, not_or] at hk
      rw [List.foldl_cons, hout k hk.2, hg, if_neg hk.1]

theorem queue_registerAt (seq : GlobalSeq) (mgr : OrderedLockManager) (r : RecordKey × LockMode)
    (k : RecordKey) : queue (registerAt seq mgr r) k =
      if k = r.1 then grantFront (enter (queue mgr k) ⟨seq, r.2, false⟩) else queue mgr k := by
  unfold registerAt
  conv_lhs => unfold queue
  simp only [Table.get_insert]
  by_cases h : k = r.1
  · simp only [h]
    rfl
  · simp only [h]
    rfl

/-- **Registration enters a request on every record of the set.** -/
theorem queue_register (mgr : OrderedLockManager) (seq : GlobalSeq) (rwset : RwSet) (key : RecordKey) :
    queue (register mgr seq rwset).1 key = match (lockRequests rwset).get key with
      | some mode => grantFront (enter (queue mgr key) ⟨seq, mode, false⟩)
      | none => queue mgr key := by
  obtain ⟨hin, hout⟩ := queue_foldl Prod.fst (f := fun r q => grantFront (enter q ⟨seq, r.2, false⟩))
    (queue_registerAt seq) _ mgr (nodup_keys (lockRequests rwset))
  cases hget : (lockRequests rwset).get key with
  | some mode => exact hin (key, mode) (Table.mem_rows.mpr hget)
  | none =>
    refine hout key fun hmem => ?_
    obtain ⟨v, hv⟩ := mem_keys_iff.mp hmem
    rw [hget] at hv
    cases hv

theorem queue_store (mgr : OrderedLockManager) (key k : RecordKey) (entries : List LockEntry) :
    queue (store mgr key entries) k = if k = key then entries else queue mgr k := by
  unfold store queue
  by_cases hempty : entries.isEmpty = true
  · rw [if_pos hempty]
    simp only [Table.get_remove, List.isEmpty_iff.mp hempty]
    by_cases h : k = key
    · simp only [h, if_true, Option.getD_none]
    · simp only [h, if_false]
  · rw [if_neg hempty]
    simp only [Table.get_insert]
    by_cases h : k = key
    · simp only [h, if_true, Option.getD_some]
    · simp only [h, if_false]

theorem queue_releaseAt (seq : GlobalSeq) (mgr : OrderedLockManager) (key k : RecordKey) :
    queue (releaseAt seq mgr key) k =
      if k = key then grantFront ((queue mgr k).filter fun e => e.seq ≠ seq) else queue mgr k := by
  unfold releaseAt
  cases hget : mgr.records.get key with
  | some entries =>
    simp only [queue_store]
    by_cases h : k = key
    · simp only [h, queue, hget, Option.getD_some]
    · simp only [h, if_false]
  | none =>
    by_cases h : k = key
    · simp [h, queue, hget, grantFront, grantFrom]
    · simp [h]

/-- **Release takes the requests out of the queues of the ticket.** -/
theorem queue_release (mgr : OrderedLockManager) (seq : GlobalSeq) (rwset : RwSet) (key : RecordKey) :
    queue (release mgr (ticketOf seq rwset)) key = match (lockRequests rwset).get key with
      | some _ => grantFront ((queue mgr key).filter fun e => e.seq ≠ seq)
      | none => queue mgr key := by
  have hnodup : (((lockRequests rwset).rows.map Prod.fst).map id).Nodup := by
    rw [List.map_id]
    exact nodup_keys _
  obtain ⟨hin, hout⟩ := queue_foldl id (f := fun _ q => grantFront (q.filter fun e => e.seq ≠ seq))
    (queue_releaseAt seq) _ mgr hnodup
  cases hget : (lockRequests rwset).get key with
  | some mode => exact hin key (mem_keys_iff.mpr ⟨mode, hget⟩)
  | none =>
    refine hout key fun hmem => ?_
    rw [List.map_id] at hmem
    obtain ⟨v, hv⟩ := mem_keys_iff.mp hmem
    rw [hget] at hv
    cases hv

end

/-! ### Orderly managers -/

/-- A registered transaction: its sequence number and its read and write sets. -/
structure Claim where
  seq : GlobalSeq
  rwset : RwSet

/-- The lock a claim asks for on a record. -/
def Claim.mode (c : Claim) (key : RecordKey) : Option LockMode := (lockRequests c.rwset).get key

/-- The entry of a sequence number is granted on a record. -/
def GrantedAt (mgr : OrderedLockManager) (seq : GlobalSeq) (key : RecordKey) : Prop :=
  ∃ e ∈ queue mgr key, e.seq = seq ∧ e.granted = true

/-- A claim holds every lock it asked for. -/
def Held (mgr : OrderedLockManager) (c : Claim) : Prop :=
  ∀ key mode, c.mode key = some mode → GrantedAt mgr c.seq key

/-- A claim may register: on each of its records the requests that are not earlier are later, and wait
or are compatible. -/
def Admissible (mgr : OrderedLockManager) (c : Claim) : Prop :=
  ∀ key mode, c.mode key = some mode → Enters (queue mgr key) c.seq mode

/-- The queues hold the requests of the owners, ascending, and what is granted is what may be. -/
structure Orderly {ι : Type*} (mgr : OrderedLockManager) (owner : ι → Option Claim) : Prop where
  exact : ∀ key, Exact (queue mgr key)
  ordered : ∀ key, Ordered (queue mgr key)
  entered : ∀ i c key mode, owner i = some c → c.mode key = some mode →
    ∃ e ∈ queue mgr key, e.seq = c.seq ∧ e.mode = mode
  owned : ∀ key, ∀ e ∈ queue mgr key, ∃ i c, owner i = some c ∧ c.seq = e.seq ∧
    c.mode key = some e.mode
  distinct : ∀ i j c d key m n, owner i = some c → owner j = some d → c.mode key = some m →
    d.mode key = some n → c.seq = d.seq → i = j

section
variable {ι : Type*} {mgr : OrderedLockManager} {owner : ι → Option Claim} {c d : Claim} {i j : ι}
  {key : RecordKey}

theorem orderly_new : Orderly OrderedLockManager.new (fun _ : ι => none) where
  exact := fun _ => exact_nil
  ordered := fun _ => List.Pairwise.nil
  entered := fun _ _ _ _ h => by cases h
  owned := fun _ _ h => absurd h List.not_mem_nil
  distinct := fun _ _ _ _ _ _ _ h => by cases h

theorem allGranted_iff (h : Orderly mgr owner) :
    allGranted mgr (ticketOf c.seq c.rwset) = true ↔ Held mgr c := by
  unfold allGranted ticketOf
  simp only [List.all_eq_true, mem_keys_iff]
  have hone : ∀ key, ((queue mgr key).find? fun e => e.seq = c.seq).any (·.granted) = true ↔
      GrantedAt mgr c.seq key := by
    intro key
    rw [Option.any_eq_true]
    constructor
    · rintro ⟨e, he, hg⟩
      exact ⟨e, List.mem_of_find?_eq_some he, by simpa using List.find?_some he, hg⟩
    · rintro ⟨e, he, hseq, hg⟩
      cases hfind : (queue mgr key).find? fun e => e.seq = c.seq with
      | none => simpa [hseq] using List.find?_eq_none.mp hfind e he
      | some e' =>
        have hseq' : e'.seq = c.seq := by simpa using List.find?_some hfind
        have heq : e' = e := (h.ordered key).eq_of_seq (List.mem_of_find?_eq_some hfind) he
          (hseq'.trans hseq.symm)
        exact ⟨e', rfl, heq ▸ hg⟩
  constructor
  · intro hall key mode hmode
    exact (hone key).mp (hall key ⟨mode, hmode⟩)
  · rintro hheld key ⟨mode, hmode⟩
    exact (hone key).mpr (hheld key mode hmode)

/-- **Two owners that hold one record both read it.** -/
theorem Orderly.compatible (h : Orderly mgr owner) (hij : i ≠ j) (hi : owner i = some c)
    (hj : owner j = some d) {m n : LockMode} (hm : c.mode key = some m) (hn : d.mode key = some n)
    (hc : GrantedAt mgr c.seq key) (hd : GrantedAt mgr d.seq key) : m = .shared ∧ n = .shared := by
  obtain ⟨e, he, hes, rfl⟩ := h.entered i c key m hi hm
  obtain ⟨f, hf, hfs, rfl⟩ := h.entered j d key n hj hn
  obtain ⟨e', he', hes', heg⟩ := hc
  obtain ⟨f', hf', hfs', hfg⟩ := hd
  obtain rfl := (h.ordered key).eq_of_seq he' he (hes'.trans hes.symm)
  obtain rfl := (h.ordered key).eq_of_seq hf' hf (hfs'.trans hfs.symm)
  rcases Nat.lt_trichotomy e'.seq f'.seq with hlt | heq | hgt
  · exact (h.exact key).shared_of_lower (h.ordered key) he hf hlt hfg
  · exact absurd (h.distinct i j c d key _ _ hi hj hm hn (by rw [← hes, heq, hfs])) hij
  · exact ((h.exact key).shared_of_lower (h.ordered key) hf he hgt heg).symm

theorem GrantedAt.register {seq : GlobalSeq} (h : GrantedAt mgr seq key) (s : GlobalSeq)
    (rwset : RwSet) : GrantedAt (register mgr s rwset).1 seq key := by
  obtain ⟨e, he, hseq, hg⟩ := h
  unfold GrantedAt
  rw [queue_register]
  cases (lockRequests rwset).get key with
  | none => exact ⟨e, he, hseq, hg⟩
  | some mode => exact ⟨e, mem_grantFront (mem_enter.mpr (Or.inr he)) hg, hseq, hg⟩

theorem GrantedAt.release {seq s : GlobalSeq} (h : GrantedAt mgr seq key) {rwset : RwSet}
    (hne : (lockRequests rwset).get key = none ∨ seq ≠ s) :
    GrantedAt (release mgr (ticketOf s rwset)) seq key := by
  obtain ⟨e, he, hseq, hg⟩ := h
  unfold GrantedAt
  rw [queue_release]
  cases hget : (lockRequests rwset).get key with
  | none => exact ⟨e, he, hseq, hg⟩
  | some mode =>
    have hs : seq ≠ s := hne.resolve_left (by rw [hget]; simp)
    refine ⟨e, mem_grantFront (List.mem_filter.mpr ⟨he, ?_⟩) hg, hseq, hg⟩
    simpa [hseq] using hs

variable [DecidableEq ι]

/-- **Registration keeps a manager orderly**, when the claim may register. -/
theorem Orderly.register (h : Orderly mgr owner) (hi : owner i = none) (hadm : Admissible mgr c) :
    Orderly (register mgr c.seq c.rwset).1 (Function.update owner i (some c)) := by
  have hstays : ∀ {j d}, owner j = some d → Function.update owner i (some c) j = some d := by
    intro j d hj
    rw [Function.update_of_ne, hj]
    rintro rfl
    rw [hi] at hj
    cases hj
  have hasks : ∀ key s m,
      (∃ e ∈ queue (Locks.register mgr c.seq c.rwset).1 key, e.seq = s ∧ e.mode = m) ↔
      (c.mode key = some m ∧ s = c.seq) ∨ ∃ e ∈ queue mgr key, e.seq = s ∧ e.mode = m := by
    intro key s m
    rw [queue_register]
    cases hget : (lockRequests c.rwset).get key with
    | none => simp [Claim.mode, hget]
    | some mode =>
      simp only [asks_grantFront, mem_enter, Claim.mode, hget, Option.some.injEq, exists_eq_or_imp]
      refine or_congr_left ⟨?_, ?_⟩
      · rintro ⟨rfl, rfl⟩
        exact ⟨rfl, rfl⟩
      · rintro ⟨rfl, rfl⟩
        exact ⟨rfl, rfl⟩
  constructor
  · intro key
    rw [queue_register]
    cases hget : (lockRequests c.rwset).get key with
    | none => exact h.exact key
    | some mode =>
      exact exact_grantFront (sound_enter (h.exact key).sound (h.ordered key) (hadm key mode hget))
  · intro key
    rw [queue_register]
    cases hget : (lockRequests c.rwset).get key with
    | none => exact h.ordered key
    | some mode => exact ordered_grantFront.mpr (ordered_enter (h.ordered key) (hadm key mode hget))
  · intro j d key mode hj hmode
    rw [hasks]
    by_cases hji : j = i
    · subst hji
      rw [Function.update_self] at hj
      obtain rfl := Option.some.inj hj
      exact Or.inl ⟨hmode, rfl⟩
    · rw [Function.update_of_ne hji] at hj
      exact Or.inr (h.entered j d key mode hj hmode)
  · intro key e he
    rcases (hasks key e.seq e.mode).mp ⟨e, he, rfl, rfl⟩ with ⟨hmode, hseq⟩ | ⟨f, hf, hseq, hmode⟩
    · exact ⟨i, c, Function.update_self .., hseq.symm, hmode⟩
    · obtain ⟨j, d, hj, hd, hdmode⟩ := h.owned key f hf
      exact ⟨j, d, hstays hj, hd.trans hseq, by rw [hdmode, hmode]⟩
  · -- a claim of the same number on the record would stand in its queue already
    have hfresh : ∀ j d key m n, owner j = some d → d.mode key = some n → c.mode key = some m →
        d.seq ≠ c.seq := by
      intro j d key m n hj hn hm heq
      obtain ⟨e, he, hes, -⟩ := h.entered j d key n hj hn
      have hlt := (hadm key m hm e he (by rw [hes, heq])).1
      rw [hes, heq] at hlt
      exact Nat.lt_irrefl _ hlt
    intro j k d d' key m n hj hk hm hn hseq
    by_cases hji : j = i
    · by_cases hki : k = i
      · rw [hji, hki]
      · subst hji
        rw [Function.update_self] at hj
        rw [Function.update_of_ne hki] at hk
        obtain rfl := Option.some.inj hj
        exact absurd hseq.symm (hfresh k d' key m n hk hn hm)
    · rw [Function.update_of_ne hji] at hj
      by_cases hki : k = i
      · subst hki
        rw [Function.update_self] at hk
        obtain rfl := Option.some.inj hk
        exact absurd hseq (hfresh j d key n m hj hm hn)
      · rw [Function.update_of_ne hki] at hk
        exact h.distinct j k d d' key m n hj hk hm hn hseq

/-- **Release keeps a manager orderly.** -/
theorem Orderly.release (h : Orderly mgr owner) (hi : owner i = some c) :
    Orderly (release mgr (ticketOf c.seq c.rwset)) (Function.update owner i none) := by
  have howner : ∀ {j d}, Function.update owner i none j = some d → j ≠ i ∧ owner j = some d := by
    intro j d hj
    by_cases hji : j = i
    · rw [hji, Function.update_self] at hj
      cases hj
    · rw [Function.update_of_ne hji] at hj
      exact ⟨hji, hj⟩
  have hasks : ∀ key s m,
      (∃ e ∈ queue (Locks.release mgr (ticketOf c.seq c.rwset)) key, e.seq = s ∧ e.mode = m) ↔
        (c.mode key = none ∨ s ≠ c.seq) ∧ ∃ e ∈ queue mgr key, e.seq = s ∧ e.mode = m := by
    intro key s m
    rw [queue_release]
    cases hget : (lockRequests c.rwset).get key with
    | none => simp [Claim.mode, hget]
    | some mode =>
      simp only [asks_grantFront, List.mem_filter, Claim.mode, hget, decide_eq_true_iff]
      constructor
      · rintro ⟨e, ⟨he, hne⟩, rfl, rfl⟩
        exact ⟨Or.inr hne, e, he, rfl, rfl⟩
      · rintro ⟨hne, e, he, rfl, rfl⟩
        exact ⟨e, ⟨he, hne.resolve_left (by simp)⟩, rfl, rfl⟩
  constructor
  · intro key
    rw [queue_release]
    cases hget : (lockRequests c.rwset).get key with
    | none => exact h.exact key
    | some mode => exact exact_grantFront (sound_filter (h.exact key).sound)
  · intro key
    rw [queue_release]
    cases hget : (lockRequests c.rwset).get key with
    | none => exact h.ordered key
    | some mode => exact ordered_grantFront.mpr (ordered_filter (h.ordered key))
  · intro j d key mode hj hmode
    obtain ⟨hji, hj⟩ := howner hj
    rw [hasks]
    refine ⟨?_, h.entered j d key mode hj hmode⟩
    cases hcm : c.mode key with
    | none => exact Or.inl rfl
    | some m => exact Or.inr fun heq => hji (h.distinct j i d c key mode m hj hi hmode hcm heq)
  · intro key e he
    obtain ⟨hleft, f, hf, hfs, hfm⟩ := (hasks key e.seq e.mode).mp ⟨e, he, rfl, rfl⟩
    obtain ⟨j, d, hj, hd, hdmode⟩ := h.owned key f hf
    refine ⟨j, d, ?_, hd.trans hfs, by rw [hdmode, hfm]⟩
    rw [Function.update_of_ne, hj]
    rintro rfl
    rw [hi] at hj
    obtain rfl := Option.some.inj hj
    rcases hleft with hnone | hne
    · rw [hdmode] at hnone
      cases hnone
    · exact hne (hfs.symm.trans hd.symm)
  · intro j k d d' key m n hj hk hm hn hseq
    exact h.distinct j k d d' key m n (howner hj).2 (howner hk).2 hm hn hseq

end

end Medulla.Calvin.Locks
