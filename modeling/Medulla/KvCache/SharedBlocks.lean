import Medulla.Library.Tally

/-! # Shared blocks

A store of blocks under content addresses, each with the number of its holders. A snapshot pins blocks
until it is released. A new data version retires the stale blocks with their counts, but the snapshots
keep the names they pinned, so the release of one takes a count off a block that was created under the
name since, for other holders.

* the calls: `Kept.putBlock`, `Kept.release`, `Kept.snapshot`;
* every run: `refcount_exact`. -/

namespace Medulla.KvCache.SharedBlocks

open Library.OrderedTable Library.Tally

/-! ### The index -/

/-- The data a block was derived from, if it depends on any. -/
inductive DataVersion
  | agnostic
  | at (version : ℕ)
  deriving DecidableEq

/-- A block of this version may be served at the current one. -/
def DataVersion.isFresh : DataVersion → DataVersion → Bool
  | .agnostic, _ => true
  | .at _, .agnostic => true
  | .at v, .at current => v = current

/-- A shared block with the number of its holders. -/
structure SharedEntry where
  data : List UInt8
  refcount : ℕ
  version : DataVersion

variable {blocks : Table String SharedEntry} {hash x : String}

/-- The pages a snapshot captured, the names it pinned, and its open branches. -/
structure Snapshot where
  pages : Table String (List UInt8)
  pinned : List String
  branchCount : ℕ

/-- Writes over a snapshot that only this branch sees. -/
structure Branch where
  snapshot : ℕ
  overlay : Table String (List UInt8)

/-- The blocks by hash, the snapshots and the branches. -/
structure SharedKvIndex where
  blocks : Table String SharedEntry
  currentVersion : DataVersion
  dedupHits : ℕ
  staleRetired : ℕ
  snapshots : Table ℕ Snapshot
  branches : Table ℕ Branch
  nextSnapshot : ℕ
  nextBranch : ℕ

/-- What dropping a branch or a snapshot answers. -/
inductive ReleaseOutcome
  | released
  | notFound
  | stillReferenced (branchCount : ℕ)

namespace SharedKvIndex

def new : SharedKvIndex := ⟨.empty, .agnostic, 0, 0, .empty, .empty, 0, 0⟩

def countOf (blocks : Table String SharedEntry) (hash : String) : ℕ :=
  ((blocks.get hash).map (·.refcount)).getD 0

/-- The stored count of a hash, 0 when it has no block. -/
def refcount (s : SharedKvIndex) (hash : String) : ℕ := countOf s.blocks hash

/-- Stores a block, or takes one more reference to a stored one. -/
def putBlock (s : SharedKvIndex) (hash : String) (block : List UInt8) (derivedAt : DataVersion) :
    SharedKvIndex × Bool :=
  match s.blocks.get hash with
  | some e => ({ s with
      blocks := s.blocks.insert hash { e with refcount := e.refcount + 1, version := derivedAt }
      dedupHits := s.dedupHits + 1 }, false)
  | none => ({ s with blocks := s.blocks.insert hash ⟨block, 1, derivedAt⟩ }, true)

/-- One holder fewer; the block goes with its last. -/
def unpin (blocks : Table String SharedEntry) (hash : String) : Table String SharedEntry :=
  match blocks.get hash with
  | some e =>
    if e.refcount - 1 = 0 then blocks.remove hash
    else blocks.insert hash { e with refcount := e.refcount - 1 }
  | none => blocks

/-- Gives one reference back; the last one drops the block. -/
def release (s : SharedKvIndex) (hash : String) : SharedKvIndex × Option ℕ :=
  ({ s with blocks := unpin s.blocks hash }, (s.blocks.get hash).map (·.refcount - 1))

/-- Captures one key into a snapshot when its block is fresh. -/
def pin (current : DataVersion) (acc : Table String SharedEntry × Snapshot) (key : String) :
    Table String SharedEntry × Snapshot :=
  match acc.1.get key with
  | some e =>
    if e.version.isFresh current then
      (acc.1.insert key { e with refcount := e.refcount + 1 },
        { acc.2 with pages := acc.2.pages.insert key e.data, pinned := acc.2.pinned ++ [key] })
    else acc
  | none => acc

/-- Pins every fresh block of the keys under a new snapshot. -/
def snapshot (s : SharedKvIndex) (keys : List String) : SharedKvIndex × ℕ :=
  let (blocks, snap) := keys.foldl (pin s.currentVersion) (s.blocks, ⟨.empty, [], 0⟩)
  ({ s with
    blocks := blocks
    snapshots := s.snapshots.insert s.nextSnapshot snap
    nextSnapshot := s.nextSnapshot + 1 }, s.nextSnapshot)

/-- Opens a branch over a snapshot. -/
def fork (s : SharedKvIndex) (snapshot : ℕ) : SharedKvIndex × Option ℕ :=
  match s.snapshots.get snapshot with
  | none => (s, none)
  | some snap => ({ s with
      snapshots := s.snapshots.insert snapshot { snap with branchCount := snap.branchCount + 1 }
      branches := s.branches.insert s.nextBranch ⟨snapshot, .empty⟩
      nextBranch := s.nextBranch + 1 }, some s.nextBranch)

/-- Writes into the overlay of a branch. -/
def branchPut (s : SharedKvIndex) (branch : ℕ) (key : String) (val : List UInt8) :
    SharedKvIndex × Bool :=
  match s.branches.get branch with
  | none => (s, false)
  | some b =>
    let b := { b with overlay := b.overlay.insert key val }
    ({ s with branches := s.branches.insert branch b }, true)

/-- Closes a branch. -/
def dropBranch (s : SharedKvIndex) (branch : ℕ) : SharedKvIndex × ReleaseOutcome :=
  match s.branches.get branch with
  | none => (s, .notFound)
  | some b =>
    let s := { s with branches := s.branches.remove branch }
    match s.snapshots.get b.snapshot with
    | none => (s, .released)
    | some snap =>
      let snap := { snap with branchCount := snap.branchCount - 1 }
      ({ s with snapshots := s.snapshots.insert b.snapshot snap }, .released)

/-- Unpins a snapshot that no branch uses. -/
def releaseSnapshot (s : SharedKvIndex) (snapshot : ℕ) : SharedKvIndex × ReleaseOutcome :=
  match s.snapshots.get snapshot with
  | none => (s, .notFound)
  | some snap =>
    if snap.branchCount > 0 then (s, .stillReferenced snap.branchCount)
    else ({ s with
        snapshots := s.snapshots.remove snapshot
        blocks := snap.pinned.foldl unpin s.blocks }, .released)

/-- Moves to a version and drops the blocks derived at another. -/
def setDataVersion (s : SharedKvIndex) (version : DataVersion) : SharedKvIndex :=
  let blocks := s.blocks.filter fun _ e => e.version.isFresh version
  { s with
    currentVersion := version
    blocks := blocks
    staleRetired := s.staleRetired + (s.blocks.rows.length - blocks.rows.length) }

end SharedKvIndex

open SharedKvIndex

/-! ### Holders -/

/-- The puts of each block that were not released, and the pins of each live snapshot, both since the
block was last created; a retired block has lost them. -/
structure Holders where
  puts : String → ℕ
  pins : Table ℕ (List String)

/-- How often the live snapshots pin a hash. -/
def pinCount (pins : Table ℕ (List String)) (hash : String) : ℕ :=
  total (fun _ names => names.count hash) pins

/-- The holders of a hash: its puts and its pins. -/
def Holders.count (g : Holders) (hash : String) : ℕ := g.puts hash + pinCount g.pins hash

/-- Holders of the names that pass are kept. -/
def Holders.keep (g : Holders) (p : String → Bool) : Holders :=
  ⟨fun hash => if p hash then g.puts hash else 0, g.pins.mapValues (·.filter p)⟩

/-- The index beside the holders a caller could count. -/
structure State where
  index : SharedKvIndex
  holders : Holders

def State.start : State := ⟨.new, fun _ => 0, .empty⟩

/-- The calls on the index. -/
inductive Op
  | putBlock (hash : String) (block : List UInt8) (derivedAt : DataVersion)
  | release (hash : String)
  | snapshot (keys : List String)
  | fork (snapshot : ℕ)
  | branchPut (branch : ℕ) (key : String) (val : List UInt8)
  | dropBranch (branch : ℕ)
  | releaseSnapshot (snapshot : ℕ)
  | setDataVersion (version : DataVersion)

def Holders.put (g : Holders) (hash : String) : Holders :=
  { g with puts := Function.update g.puts hash (g.puts hash + 1) }

def step (st : State) : Op → State
  | .putBlock hash block derivedAt =>
    ⟨(st.index.putBlock hash block derivedAt).1,
      if (st.index.blocks.get hash).isSome then st.holders.put hash
      else (st.holders.keep (· ≠ hash)).put hash⟩
  | .release hash => ⟨(st.index.release hash).1,
      { st.holders with puts := Function.update st.holders.puts hash (st.holders.puts hash - 1) }⟩
  | .snapshot keys =>
    let (index, id) := st.index.snapshot keys
    let pinned := ((index.snapshots.get id).map (·.pinned)).getD []
    ⟨index, { st.holders with pins := st.holders.pins.insert id pinned }⟩
  | .fork snapshot => { st with index := (st.index.fork snapshot).1 }
  | .branchPut branch key val => { st with index := (st.index.branchPut branch key val).1 }
  | .dropBranch branch => { st with index := (st.index.dropBranch branch).1 }
  | .releaseSnapshot snapshot =>
    match st.index.releaseSnapshot snapshot with
    | (index, .released) => ⟨index, { st.holders with pins := st.holders.pins.remove snapshot }⟩
    | (index, _) => { st with index := index }
  | .setDataVersion version =>
    ⟨st.index.setDataVersion version, st.holders.keep fun hash =>
      (st.index.blocks.get hash).all fun e => e.version.isFresh version⟩

/-- A release is one of a put that was not released or retired before. -/
def Permitted (st : State) : Op → Prop
  | .release hash => 0 < st.holders.puts hash
  | _ => True

/-- A snapshot that is released has no pin on a stored block from before the block was created. -/
def Current (st : State) : Op → Prop
  | .releaseSnapshot id => ∀ snap, st.index.snapshots.get id = some snap → snap.branchCount = 0 →
      ∀ hash, (st.index.blocks.get hash).isSome →
        snap.pinned.count hash = ((st.holders.pins.get id).getD []).count hash
  | _ => True

/-- Every call of a run is as required where it is made. -/
def Always (p : State → Op → Prop) : State → List Op → Prop
  | _, [] => True
  | st, op :: ops => p st op ∧ Always p (step st op) ops

/-- **The counts are exact**, and a block with a holder is stored. -/
structure Exact (st : State) : Prop where
  counted : ∀ hash, st.index.refcount hash = st.holders.count hash
  stored : ∀ hash, 0 < st.holders.count hash → (st.index.blocks.get hash).isSome

/-! ### Counts -/

theorem countOf_insert {e : SharedEntry} :
    countOf (blocks.insert hash e) x = if x = hash then e.refcount else countOf blocks x := by
  unfold countOf
  rw [Table.get_insert]
  split_ifs <;> rfl

theorem countOf_unpin :
    countOf (unpin blocks hash) x = countOf blocks x - if x = hash then 1 else 0 := by
  have hget : ∀ e, blocks.get hash = some e → countOf blocks hash = e.refcount :=
    fun e he => by simp [countOf, he]
  unfold unpin
  split
  · rename_i e he
    split_ifs with hlast hx hx
    · rw [hx, countOf, Table.get_remove, if_pos rfl, hget e he, hlast]
      rfl
    · rw [countOf, Table.get_remove, if_neg hx]
      rfl
    · rw [countOf_insert, if_pos hx, hx, hget e he]
    · rw [countOf_insert, if_neg hx]
      rfl
  · rename_i hnone
    split_ifs with hx
    · simp [hx, countOf, hnone]
    · rfl

theorem countOf_unpins {x : String} : ∀ {names : List String} {blocks : Table String SharedEntry},
    countOf (names.foldl unpin blocks) x = countOf blocks x - names.count x
  | [], _ => rfl
  | name :: names, blocks => by
    rw [List.foldl_cons, countOf_unpins, countOf_unpin, List.count_cons]
    simp only [beq_iff_eq, eq_comm (a := name)]
    omega

/-- Pinning counts one holder for each name that is noted. -/
theorem countOf_pins {current : DataVersion} {x : String} :
    ∀ {keys : List String} {acc : Table String SharedEntry × Snapshot},
      countOf (keys.foldl (pin current) acc).1 x + acc.2.pinned.count x =
        countOf acc.1 x + (keys.foldl (pin current) acc).2.pinned.count x
  | [], acc => rfl
  | key :: keys, acc => by
    have hrest := @countOf_pins current x keys (pin current acc key)
    have hone : countOf (pin current acc key).1 x + acc.2.pinned.count x =
        countOf acc.1 x + (pin current acc key).2.pinned.count x := by
      unfold pin
      split
      · rename_i e he
        split_ifs
        · by_cases hx : x = key
          · subst hx
            simp [countOf, he]
            omega
          · simp [countOf_insert, hx, Ne.symm hx]
        · rfl
      · rfl
    rw [List.foldl_cons]
    omega

theorem count_keep {g : Holders} {p : String → Bool} {x : String} :
    (g.keep p).count x = if p x then g.count x else 0 := by
  have hpins : pinCount (g.keep p).pins x = if p x then pinCount g.pins x else 0 := by
    simp only [pinCount, total, Holders.keep, Table.mapValues, List.map_map]
    split_ifs with hx
    · refine congrArg List.sum (List.map_congr_left fun r _ => ?_)
      exact List.count_filter hx
    · refine List.sum_eq_zero fun n hn => ?_
      obtain ⟨r, -, rfl⟩ := List.mem_map.mp hn
      exact List.count_eq_zero_of_not_mem fun hmem => hx (List.mem_filter.mp hmem).2
  unfold Holders.count
  rw [hpins]
  simp only [Holders.keep]
  split_ifs <;> rfl

theorem count_put {g : Holders} :
    (g.put hash).count x = g.count x + if x = hash then 1 else 0 := by
  unfold Holders.put Holders.count
  by_cases hx : x = hash
  · subst hx
    simp only [Function.update_self, if_true]
    omega
  · simp [hx]

/-! ### Runs -/

/-- The counts are exact, and no snapshot to come has a name already. -/
structure Kept (st : State) : Prop where
  counted : ∀ hash, st.index.refcount hash = st.holders.count hash
  unborn : ∀ id, st.index.nextSnapshot ≤ id → st.holders.pins.get id = none

theorem Kept.exact {st : State} (h : Kept st) : Exact st := by
  refine ⟨h.counted, fun hash hpos => ?_⟩
  rw [← h.counted, refcount, countOf] at hpos
  cases hget : st.index.blocks.get hash with
  | none => simp [hget] at hpos
  | some e => rfl

theorem Kept.of_same {st st' : State} (h : Kept st) (hblocks : st'.index.blocks = st.index.blocks)
    (hnext : st'.index.nextSnapshot = st.index.nextSnapshot) (hholders : st'.holders = st.holders) :
    Kept st' := by
  refine ⟨fun hash => ?_, fun id hid => ?_⟩
  · rw [hholders, refcount, hblocks]
    exact h.counted hash
  · rw [hholders]
    exact h.unborn id (hnext ▸ hid)

section
variable {st : State} (h : Kept st)
include h

theorem Kept.putBlock (hash : String) (block : List UInt8)
    (derivedAt : DataVersion) : Kept (step st (.putBlock hash block derivedAt)) := by
  refine ⟨fun x => ?_, fun id hid => ?_⟩
  · have hx := h.counted x
    simp only [step, refcount, SharedKvIndex.putBlock] at hx ⊢
    cases hget : st.index.blocks.get hash with
    | some e =>
      simp only [Option.isSome_some, if_true, countOf_insert, count_put]
      split_ifs with heq
      · subst heq
        rw [← hx, countOf, hget]
        rfl
      · exact hx
    | none =>
      simp only [Option.isSome_none, Bool.false_eq_true, if_false, countOf_insert, count_put, count_keep]
      by_cases heq : x = hash
      · simp [heq]
      · simp [heq, hx]
  · have hnone : st.holders.pins.get id = none := by
      refine h.unborn id ?_
      simp only [step, SharedKvIndex.putBlock] at hid
      split at hid <;> exact hid
    simp only [step]
    split_ifs
    · exact hnone
    · simp [Holders.put, Holders.keep, Table.get_mapValues, hnone]

theorem Kept.release {hash : String} (hput : 0 < st.holders.puts hash) :
    Kept (step st (.release hash)) := by
  refine ⟨fun x => ?_, h.unborn⟩
  have hx := h.counted x
  simp only [step, refcount, SharedKvIndex.release, Holders.count] at hx ⊢
  rw [countOf_unpin, hx]
  by_cases heq : x = hash
  · subst heq
    simp only [if_true, Function.update_self]
    omega
  · simp [heq]

theorem Kept.snapshot (keys : List String) : Kept (step st (.snapshot keys)) := by
  have hpins := h.unborn st.index.nextSnapshot (Nat.le_refl _)
  refine ⟨fun x => ?_, fun id hid => ?_⟩
  · have hx := h.counted x
    have hcount := @countOf_pins st.index.currentVersion x keys (st.index.blocks, ⟨.empty, [], 0⟩)
    simp only [step, SharedKvIndex.snapshot, refcount, Holders.count, pinCount, Table.get_insert,
      if_true, Option.map_some, Option.getD_some] at hx ⊢
    rw [total_insert hpins]
    simp only [List.count_nil] at hcount
    omega
  · simp only [step, SharedKvIndex.snapshot] at hid ⊢
    rw [Table.get_insert, if_neg (by omega)]
    exact h.unborn id (by omega)

theorem Kept.releaseSnapshot {id : ℕ} (hcurrent : Current st (.releaseSnapshot id)) :
    Kept (step st (.releaseSnapshot id)) := by
  simp only [step, SharedKvIndex.releaseSnapshot]
  cases hget : st.index.snapshots.get id with
  | none => exact h
  | some snap =>
    by_cases hbranches : snap.branchCount > 0
    · simp only [if_pos hbranches]
      exact h
    · simp only [if_neg hbranches]
      have hpinned := hcurrent snap hget (Nat.eq_zero_of_not_pos hbranches)
      refine ⟨fun x => ?_, fun other hother => ?_⟩
      · have hx := h.counted x
        have hremove := total_remove_getD (f := fun _ names => List.count x names) (d := [])
          (k := id) (t := st.holders.pins) rfl
        simp only [refcount, Holders.count, pinCount] at hx ⊢
        rw [countOf_unpins]
        cases hblock : st.index.blocks.get x with
        | none =>
          rw [countOf, hblock] at hx ⊢
          simp only [Option.map_none, Option.getD_none] at hx ⊢
          omega
        | some e =>
          have hsame := hpinned x (by rw [hblock]; rfl)
          omega
      · rw [Table.get_remove]
        split_ifs
        · rfl
        · exact h.unborn other hother

theorem Kept.setDataVersion (version : DataVersion) : Kept (step st (.setDataVersion version)) := by
  refine ⟨fun x => ?_, fun id hid => ?_⟩
  · have hx := h.counted x
    simp only [step, refcount, SharedKvIndex.setDataVersion, count_keep, countOf, Table.get_filter]
      at hx ⊢
    cases hget : st.index.blocks.get x with
    | none => simpa [hget] using hx
    | some e =>
      rw [hget] at hx
      cases hfresh : e.version.isFresh version <;> simp_all [Option.filter]
  · simp only [step, Holders.keep, Table.get_mapValues, h.unborn id hid, Option.map_none]

theorem Kept.step {op : Op} (hpermitted : Permitted st op)
    (hcurrent : Current st op) : Kept (step st op) := by
  cases op with
  | putBlock hash block derivedAt => exact h.putBlock hash block derivedAt
  | release hash => exact h.release hpermitted
  | snapshot keys => exact h.snapshot keys
  | fork snapshot =>
    refine h.of_same ?_ ?_ rfl <;> · simp only [SharedBlocks.step, SharedKvIndex.fork]; split <;> rfl
  | branchPut branch key val =>
    refine h.of_same ?_ ?_ rfl <;> · simp only [SharedBlocks.step, SharedKvIndex.branchPut]; split <;> rfl
  | dropBranch branch =>
    refine h.of_same ?_ ?_ rfl <;>
      · simp only [SharedBlocks.step, SharedKvIndex.dropBranch]
        split
        · rfl
        · split <;> rfl
  | releaseSnapshot id => exact h.releaseSnapshot hcurrent
  | setDataVersion version => exact h.setDataVersion version

end

theorem Kept.run : ∀ {ops : List Op} {st : State}, Kept st → Always Permitted st ops →
    Always Current st ops → Kept (ops.foldl SharedBlocks.step st)
  | [], _, h, _, _ => h
  | op :: ops, st, h, hpermitted, hcurrent =>
    @Kept.run ops (SharedBlocks.step st op) (h.step hpermitted.1 hcurrent.1) hpermitted.2 hcurrent.2

/-- **Counts stay exact** in every run whose releases are of puts that still stand and whose released
snapshots have no pin from before a stored block was created. -/
theorem refcount_exact (ops : List Op) (hpermitted : Always Permitted .start ops)
    (hcurrent : Always Current .start ops) : Exact (ops.foldl step .start) :=
  Kept.exact (Kept.run ⟨fun _ => rfl, fun _ _ => rfl⟩ hpermitted hcurrent)

theorem refcount_exact_pinned :
    Exact ([.putBlock "b" [1] (.at 1), .snapshot ["b"], .release "b", .releaseSnapshot 0].foldl step .start) :=
  refcount_exact [.putBlock "b" [1] (.at 1), .snapshot ["b"], .release "b", .releaseSnapshot 0]
    ⟨trivial, trivial, Nat.one_pos, trivial, trivial⟩
    ⟨trivial, trivial, trivial, fun snap hsnap _ hash _ => by
      obtain rfl := Option.some.inj hsnap
      rfl, trivial⟩

/-- **A stale pin is taken off another holder's block**: it was created again after its first version was
retired, and the release of the old snapshot uncounts one of its two puts. -/
theorem stale_pin_uncounts :
    Always Permitted .start [.putBlock "b" [1] (.at 1), .snapshot ["b"], .setDataVersion (.at 2),
      .putBlock "b" [1] (.at 2), .putBlock "b" [1] (.at 2), .releaseSnapshot 0] ∧
    ¬ Exact ([.putBlock "b" [1] (.at 1), .snapshot ["b"], .setDataVersion (.at 2),
      .putBlock "b" [1] (.at 2), .putBlock "b" [1] (.at 2), .releaseSnapshot 0].foldl step .start) :=
  ⟨⟨trivial, trivial, trivial, trivial, trivial, trivial, trivial⟩,
    fun h => absurd (h.counted "b") (by decide)⟩

end Medulla.KvCache.SharedBlocks
