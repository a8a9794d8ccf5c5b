import Mathlib.Data.List.Nodup
import Mathlib.Data.List.TakeWhile
import Mathlib.Order.Nat

/-! # Lock queues

The requests on one record stand in a queue, ascending by the sequence number of their transaction.
Grants flow from the front: a request is granted when everything before it is granted and shared and
it is shared too, or when nothing is before it. -/

namespace Medulla.Calvin.Queues

/-! ### Entries and grants -/

/-- The place of a transaction in the global order. -/
abbrev GlobalSeq := ℕ

variable {s : GlobalSeq}

/-- How a record is locked. -/
inductive LockMode
  | shared | exclusive
  deriving DecidableEq

variable {m : LockMode}

/-- One request in the queue of a record. -/
structure LockEntry where
  seq : GlobalSeq
  mode : LockMode
  granted : Bool
  deriving DecidableEq

/-- An entry may hold the record behind these: all are granted readers and so is it, or there are
none. -/
def grantable (earlier : List LockEntry) (e : LockEntry) : Bool :=
  (earlier.all fun d => d.granted && decide (d.mode = .shared)) &&
    (earlier.isEmpty || decide (e.mode = .shared))

def LockEntry.grant (e : LockEntry) : LockEntry := { e with granted := true }

/-- Go on with a grant pass; it stops at the first request that is not grantable. -/
def grantFrom : List LockEntry → List LockEntry → List LockEntry
  | _, [] => []
  | earlier, e :: later =>
    if e.granted then e :: grantFrom (earlier ++ [e]) later
    else if grantable earlier e then e.grant :: grantFrom (earlier ++ [e.grant]) later
    else e :: later

/-- Grants the entries at the front of a queue that may hold the record together. -/
def grantFront (entries : List LockEntry) : List LockEntry := grantFrom [] entries

/-- Insert a request at its place in the order. -/
def enter (entries : List LockEntry) (e : LockEntry) : List LockEntry :=
  (entries.takeWhile fun d => d.seq < e.seq) ++ e :: entries.dropWhile fun d => d.seq < e.seq

/-! ### What may be granted -/

/-- Nothing stands before the request, or all that does is shared and so is the request. -/
def MayHold (earlier : List LockEntry) (e : LockEntry) : Prop :=
  earlier = [] ∨ (e.mode = .shared ∧ ∀ d ∈ earlier, d.mode = .shared)

/-- A granted entry may hold the record behind those before it. -/
def Sound (q : List LockEntry) : Prop := ∀ a e b, q = a ++ e :: b → e.granted = true → MayHold a e

/-- An entry is granted just when it may hold the record. -/
def Exact (q : List LockEntry) : Prop := ∀ a e b, q = a ++ e :: b → (e.granted = true ↔ MayHold a e)

/-- A queue is in sequence order. -/
def Ordered (q : List LockEntry) : Prop := (q.map LockEntry.seq).Pairwise (· < ·)

section
variable {q earlier later a b : List LockEntry} {d e : LockEntry}

theorem Exact.sound (h : Exact q) : Sound q := fun a e b hq he => (h a e b hq).mp he

theorem exact_nil : Exact [] := fun a e b h => by simp at h

theorem grantable_iff (h : ∀ d ∈ earlier, d.granted = true) :
    grantable earlier e = true ↔ MayHold earlier e := by
  unfold grantable MayHold
  rw [Bool.and_eq_true, Bool.or_eq_true, List.all_eq_true, List.isEmpty_iff, decide_eq_true_iff]
  constructor
  · rintro ⟨hall, hnil | hmode⟩
    · exact Or.inl hnil
    · refine Or.inr ⟨hmode, fun d hd => ?_⟩
      simpa [h d hd] using hall d hd
  · rintro (rfl | ⟨hmode, hall⟩)
    · exact ⟨fun d hd => absurd hd List.not_mem_nil, Or.inl rfl⟩
    · exact ⟨fun d hd => by simp [h d hd, hall d hd], Or.inr hmode⟩

theorem mayHold_grant : MayHold (earlier ++ e.grant :: a) d ↔ MayHold (earlier ++ e :: a) d := by
  unfold MayHold
  simp [LockEntry.grant, or_imp, forall_and]

theorem MayHold.head (h : MayHold (earlier ++ e :: a) d) : MayHold earlier e := by
  rcases h with h | ⟨-, hall⟩
  · simp at h
  · exact Or.inr ⟨hall e (by simp), fun d hd => hall d (by simp [hd])⟩

/-! ### The grant pass -/

/-- **A grant pass makes a queue exact.** The requests passed are all granted; the pass stops where one
may not be, and then none behind it may. -/
theorem grantFrom_exact : ∀ {later : List LockEntry} (earlier : List LockEntry),
    (∀ d ∈ earlier, d.granted = true) →
    (∀ a e b, later = a ++ e :: b → e.granted = true → MayHold (earlier ++ a) e) →
    ∀ a e b, grantFrom earlier later = a ++ e :: b → (e.granted = true ↔ MayHold (earlier ++ a) e)
  | [], earlier, _, _, a, e, b, h => by simp [grantFrom] at h
  | x :: later, earlier, hearlier, hsound, a, e, b, h => by
    have hx := fun hgranted => hsound [] x later rfl hgranted
    rw [List.append_nil] at hx
    unfold grantFrom at h
    split_ifs at h with hgranted hgrantable
    · cases a with
      | nil =>
        obtain ⟨rfl, -⟩ := List.cons.inj h
        rw [List.append_nil]
        exact ⟨fun _ => hx hgranted, fun _ => hgranted⟩
      | cons y a =>
        obtain ⟨rfl, hrest⟩ := List.cons.inj h
        have hpassed : ∀ d ∈ earlier ++ [x], d.granted = true := by
          simpa [or_imp, forall_and, hgranted] using hearlier
        have hnext := grantFrom_exact (earlier ++ [x]) hpassed
          (fun a e b hl he => by
            simpa using hsound (x :: a) e b (by rw [hl]; rfl) he) a e b hrest
        simpa using hnext
    · have hmay := (grantable_iff hearlier).mp hgrantable
      cases a with
      | nil =>
        obtain ⟨rfl, -⟩ := List.cons.inj h
        rw [List.append_nil]
        exact ⟨fun _ => hmay, fun _ => rfl⟩
      | cons y a =>
        obtain ⟨rfl, hrest⟩ := List.cons.inj h
        have hpassed : ∀ d ∈ earlier ++ [x.grant], d.granted = true := by
          simpa [or_imp, forall_and, LockEntry.grant] using hearlier
        have hnext := grantFrom_exact (earlier ++ [x.grant]) hpassed
          (fun a e b hl he => by
            have hold := hsound (x :: a) e b (by rw [hl]; rfl) he
            simpa using mayHold_grant.mpr hold) a e b hrest
        simpa using hnext
    · have hmay : ¬ MayHold earlier x := fun hm => hgrantable ((grantable_iff hearlier).mpr hm)
      cases a with
      | nil =>
        obtain ⟨rfl, -⟩ := List.cons.inj h
        rw [List.append_nil]
        exact ⟨fun hg => absurd hg hgranted, fun hm => absurd hm hmay⟩
      | cons y a =>
        obtain ⟨rfl, hrest⟩ := List.cons.inj h
        refine ⟨fun he => hsound (x :: a) e b (by rw [hrest]; rfl) he, fun hm => ?_⟩
        exact absurd hm.head hmay

theorem exact_grantFront (h : Sound q) : Exact (grantFront q) := by
  intro a e b hq
  exact grantFrom_exact [] (fun d hd => absurd hd List.not_mem_nil) h a e b hq

theorem map_grantFrom {β : Type*} {f : LockEntry → β} (hf : ∀ e : LockEntry, f e.grant = f e) :
    ∀ {later earlier : List LockEntry}, (grantFrom earlier later).map f = later.map f
  | [], _ => rfl
  | e :: later, earlier => by
    unfold grantFrom
    split_ifs with hgranted hgrantable
    · rw [List.map_cons, List.map_cons, map_grantFrom hf]
    · rw [List.map_cons, List.map_cons, map_grantFrom hf, hf]
    · rfl

theorem mem_grantFrom : ∀ {later earlier : List LockEntry}, e ∈ later → e.granted = true →
    e ∈ grantFrom earlier later
  | x :: later, earlier, he, hg => by
    unfold grantFrom
    split_ifs with hgranted hgrantable
    · rcases List.mem_cons.mp he with rfl | he
      · exact .head _
      · exact .tail _ (mem_grantFrom he hg)
    · rcases List.mem_cons.mp he with rfl | he
      · exact absurd hg hgranted
      · exact .tail _ (mem_grantFrom he hg)
    · exact he

theorem mem_grantFront (he : e ∈ q) (hg : e.granted = true) : e ∈ grantFront q := mem_grantFrom he hg

theorem ordered_grantFront : Ordered (grantFront q) ↔ Ordered q := by
  unfold Ordered grantFront
  rw [map_grantFrom fun _ => rfl]

theorem asks_grantFront :
    (∃ e ∈ grantFront q, e.seq = s ∧ e.mode = m) ↔ ∃ e ∈ q, e.seq = s ∧ e.mode = m := by
  have hmap : (grantFront q).map (fun e => (e.seq, e.mode)) = q.map fun e => (e.seq, e.mode) :=
    map_grantFrom fun _ => rfl
  have hmem : ∀ l : List LockEntry, (∃ e ∈ l, e.seq = s ∧ e.mode = m) ↔
      (s, m) ∈ l.map fun e => (e.seq, e.mode) := by
    simp
  rw [hmem, hmem, hmap]

/-! ### Entering and leaving -/

theorem takeWhile_append_dropWhile_enter (s : GlobalSeq) :
    (q.takeWhile fun d => d.seq < s) ++ (q.dropWhile fun d => d.seq < s) = q :=
  List.takeWhile_append_dropWhile

theorem mem_enter : d ∈ enter q e ↔ d = e ∨ d ∈ q := by
  unfold enter
  conv_rhs => rw [← takeWhile_append_dropWhile_enter (q := q) e.seq]
  simp only [List.mem_append, List.mem_cons]
  tauto

theorem lt_of_mem_takeWhile (h : d ∈ q.takeWhile fun d => d.seq < s) : d.seq < s := by
  simpa using List.mem_takeWhile_imp h

theorem le_of_mem_dropWhile : ∀ {q : List LockEntry}, Ordered q →
    (d ∈ q.dropWhile fun d => d.seq < s) → s ≤ d.seq
  | [], _, h => by simp at h
  | x :: q, hq, h => by
    have hq' : Ordered q := (List.pairwise_cons.mp hq).2
    by_cases hx : x.seq < s
    · rw [List.dropWhile_cons_of_pos (by simpa using hx)] at h
      exact le_of_mem_dropWhile hq' h
    · rw [List.dropWhile_cons_of_neg (by simpa using hx)] at h
      rcases List.mem_cons.mp h with rfl | h
      · exact Nat.le_of_not_lt hx
      · have hlt := (List.pairwise_cons.mp hq).1 d.seq (List.mem_map_of_mem h)
        exact Nat.le_of_lt (Nat.lt_of_le_of_lt (Nat.le_of_not_lt hx) hlt)

/-- A request may enter if every request that stands behind it is later, and waits or is compatible. -/
def Enters (q : List LockEntry) (s : GlobalSeq) (m : LockMode) : Prop :=
  ∀ d ∈ q, s ≤ d.seq → s < d.seq ∧ (d.granted = true → m = .shared ∧ d.mode = .shared)

/-- **A new request leaves nothing granted that may not be.** -/
theorem sound_enter (hsound : Sound q) (hordered : Ordered q) (henters : Enters q s m) :
    Sound (enter q ⟨s, m, false⟩) := by
  intro a e b h he
  have hsplit := takeWhile_append_dropWhile_enter (q := q) s
  rcases List.append_eq_append_iff.mp h with ⟨c, ha, hb⟩ | ⟨c, ha, hb⟩
  · cases c with
    | nil =>
      obtain ⟨rfl, -⟩ := List.cons.inj hb
      cases he
    | cons y c =>
      obtain ⟨rfl, hrest⟩ := List.cons.inj hb
      have hback : (q.dropWhile fun d => d.seq < s) = c ++ e :: b := hrest
      rw [hback] at hsplit
      have hmem : e ∈ q.dropWhile fun d => d.seq < s := by rw [hback]; simp
      have hmemq : e ∈ q := by rw [← hsplit]; simp
      obtain ⟨hm, hemode⟩ := (henters e hmemq (le_of_mem_dropWhile hordered hmem)).2 he
      have hold := hsound _ e b (by rw [List.append_assoc]; exact hsplit.symm) he
      refine Or.inr ⟨hemode, fun d hd => ?_⟩
      rw [ha, List.mem_append, List.mem_cons] at hd
      rcases hold with hnil | ⟨-, hall⟩
      · obtain ⟨h1, h2⟩ := List.append_eq_nil_iff.mp hnil
        rw [h1, h2] at hd
        rcases hd with hd | rfl | hd
        · cases hd
        · exact hm
        · cases hd
      · rcases hd with hd | rfl | hd
        · exact hall d (List.mem_append_left _ hd)
        · exact hm
        · exact hall d (List.mem_append_right _ hd)
  · cases c with
    | nil =>
      obtain ⟨rfl, -⟩ := List.cons.inj hb
      cases he
    | cons y c =>
      obtain ⟨rfl, -⟩ := List.cons.inj hb
      rw [ha, List.append_assoc] at hsplit
      exact hsound a e _ hsplit.symm he

theorem ordered_enter (hordered : Ordered q) (henters : Enters q s m) :
    Ordered (enter q ⟨s, m, false⟩) := by
  have hsplit := takeWhile_append_dropWhile_enter (q := q) s
  have hparts := hordered
  unfold Ordered at hparts ⊢
  rw [← hsplit, List.map_append, List.pairwise_append] at hparts
  obtain ⟨hfront, hback, hcross⟩ := hparts
  have hbehind : ∀ d ∈ q.dropWhile fun d => d.seq < s, s < d.seq := by
    intro d hd
    have hmem : d ∈ q := by
      rw [← hsplit]
      exact List.mem_append_right _ hd
    exact (henters d hmem (le_of_mem_dropWhile hordered hd)).1
  unfold enter
  rw [List.map_append, List.pairwise_append]
  refine ⟨hfront, List.pairwise_cons.mpr ⟨?_, hback⟩, ?_⟩
  · intro t ht
    obtain ⟨d, hd, rfl⟩ := List.mem_map.mp ht
    exact hbehind d hd
  · intro t ht u hu
    rcases List.mem_cons.mp hu with rfl | hu
    · obtain ⟨d, hd, rfl⟩ := List.mem_map.mp ht
      exact lt_of_mem_takeWhile hd
    · exact hcross t ht u hu

/-- **Requests may leave**: nothing becomes granted that may not be. -/
theorem sound_filter {p : LockEntry → Bool} (h : Sound q) : Sound (q.filter p) := by
  intro a e b hq he
  obtain ⟨a', b', rfl, ha, hb⟩ := List.filter_eq_append_iff.mp hq
  obtain ⟨c, b'', rfl, -, -, -⟩ := List.filter_eq_cons_iff.mp hb
  have hold := h (a' ++ c) e b'' (by rw [List.append_assoc]) he
  rcases hold with hnil | ⟨hmode, hall⟩
  · obtain ⟨rfl, -⟩ := List.append_eq_nil_iff.mp hnil
    exact Or.inl ha.symm
  · refine Or.inr ⟨hmode, fun d hd => hall d (List.mem_append_left _ ?_)⟩
    rw [← ha] at hd
    exact List.mem_of_mem_filter hd

theorem ordered_filter {p : LockEntry → Bool} (h : Ordered q) : Ordered (q.filter p) :=
  h.sublist (List.filter_sublist.map _)

/-! ### What exact queues say -/

theorem Ordered.eq_of_seq (h : Ordered q) (hd : d ∈ q) (he : e ∈ q) (hs : d.seq = e.seq) : d = e := by
  have hinj := List.inj_on_of_nodup_map (h.imp fun hlt => Nat.ne_of_lt hlt)
  exact hinj hd he hs

theorem Ordered.mem_earlier (h : Ordered (a ++ e :: b)) (hd : d ∈ a ++ e :: b)
    (hlt : d.seq < e.seq) : d ∈ a := by
  unfold Ordered at h
  rw [List.map_append, List.map_cons, List.pairwise_append, List.pairwise_cons] at h
  rcases List.mem_append.mp hd with hd | hd
  · exact hd
  · rcases List.mem_cons.mp hd with rfl | hd
    · exact absurd hlt (Nat.lt_irrefl _)
    · exact absurd hlt (Nat.lt_asymm (h.2.1.1 d.seq (List.mem_map_of_mem hd)))

section
variable (h : Exact q) (hordered : Ordered q)
include h hordered

theorem Exact.shared_of_lower (hd : d ∈ q) (he : e ∈ q)
    (hlt : d.seq < e.seq) (hgranted : e.granted = true) : d.mode = .shared ∧ e.mode = .shared := by
  obtain ⟨a, b, rfl⟩ := List.append_of_mem he
  have hmem := hordered.mem_earlier hd hlt
  rcases (h a e b rfl).mp hgranted with rfl | ⟨hmode, hall⟩
  · cases hmem
  · exact ⟨hall d hmem, hmode⟩

/-- **One exclusive request, or shared ones.** -/
theorem Exact.exclusive (hd : d ∈ q) (he : e ∈ q)
    (hdg : d.granted = true) (heg : e.granted = true) (hmode : e.mode = .exclusive) : d = e := by
  rcases Nat.lt_trichotomy d.seq e.seq with hlt | heq | hgt
  · have := (h.shared_of_lower hordered hd he hlt heg).2
    rw [hmode] at this
    cases this
  · exact hordered.eq_of_seq hd he heq
  · have := (h.shared_of_lower hordered he hd hgt hdg).1
    rw [hmode] at this
    cases this

theorem Exact.granted_of_first (he : e ∈ q)
    (hfirst : ∀ d ∈ q, ¬ d.seq < e.seq) : e.granted = true := by
  obtain ⟨a, b, rfl⟩ := List.append_of_mem he
  refine (h a e b rfl).mpr (Or.inl ?_)
  rw [List.eq_nil_iff_forall_not_mem]
  intro d hd
  unfold Ordered at hordered
  rw [List.map_append, List.pairwise_append] at hordered
  exact hfirst d (List.mem_append_left _ hd)
    (hordered.2.2 d.seq (List.mem_map_of_mem hd) e.seq (.head _))

end

end

end Medulla.Calvin.Queues
