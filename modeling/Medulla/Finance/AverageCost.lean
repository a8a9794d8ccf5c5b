import Medulla.Library.Checked
import Mathlib.Tactic.Linarith
import Mathlib.Algebra.BigOperators.Group.List.Basic
import Mathlib.Data.List.Induction

/-! # The average-cost pool

Quantities and money are fixed-point integers, and every sum, product and rounding is checked. A
purchase adds its cost, rounded half up, to the basis of the pool, and a sale removes its share of the
basis, rounded half up, or all of it if it sells the whole pool.

* one activity: `applyActivity_spec`;
* every replay: `pool_conserved`. -/

namespace Medulla.Finance.AverageCost

open Library.Checked

/-! ### Activities -/

variable {sequence : ℕ}

/-- Ticks of one whole unit. -/
def SCALE : Int := 100000000

/-- A buy of a positive quantity, or a sale of a negative one. -/
structure LotActivity where
  sequence : ℕ
  quantityTicks : Int
  priceTicks : Int

/-- Why an activity is refused. -/
inductive LotError where
  | nonPositiveQuantity (sequence : ℕ)
  | nonPositivePrice (sequence : ℕ)
  | outOfOrderSequence (sequence lastSequence : ℕ)
  | oversold (sequence : ℕ) (requestedTicks availableTicks : Int)
  | arithmeticOverflow (sequence : ℕ)

/-- Refuses an activity out of sequence, of zero quantity or without a price. -/
def validateActivity (activity : LotActivity) (lastSequence : Option ℕ) : Except LotError Unit := do
  lastSequence.elim (.ok ()) fun last =>
    rejectIf (activity.sequence ≤ last) (LotError.outOfOrderSequence activity.sequence last)
  rejectIf (activity.priceTicks ≤ 0) (LotError.nonPositivePrice activity.sequence)
  rejectIf (activity.quantityTicks = 0) (LotError.nonPositiveQuantity activity.sequence)

theorem validateActivity_ok {activity : LotActivity} {lastSequence : Option ℕ} {u : Unit}
    (h : validateActivity activity lastSequence = .ok u) :
    0 < activity.priceTicks ∧ activity.quantityTicks ≠ 0 := by
  obtain ⟨-, h⟩ := check_eq_ok.mp h
  obtain ⟨hprice, hquantity⟩ := check_eq_ok.mp h
  exact ⟨not_le.mp (rejectIf_eq_ok.mp hprice), rejectIf_eq_ok.mp hquantity⟩

/-! ### Checked arithmetic -/

/-- A value that fits a signed 64-bit word. -/
def checkedI64 (v : Int) : Option Int := if -2 ^ 63 ≤ v ∧ v < 2 ^ 63 then some v else none

def orOverflow {α : Type} (x : Option α) (sequence : ℕ) : Except LotError α :=
  x.elim (.error (.arithmeticOverflow sequence)) .ok

def divRoundHalfUp (numerator denominator : Int) : Option Int :=
  if denominator ≤ 0 ∨ numerator < 0 then none
  else do
    let doubled ← checkedI128 (numerator * 2)
    let raised ← checkedI128 (doubled + denominator)
    let divisor ← checkedI128 (denominator * 2)
    some (raised.tdiv divisor)

def toTicks (value : Int) (sequence : ℕ) : Except LotError Int := orOverflow (checkedI64 value) sequence

/-- Quantity times price, rounded half up. -/
def extendedTicks (quantityTicks unitTicks : Int) (sequence : ℕ) : Except LotError Int := do
  let product ← orOverflow (checkedI128 (quantityTicks * unitTicks)) sequence
  let rounded ← orOverflow (divRoundHalfUp product SCALE) sequence
  toTicks rounded sequence

/-- The quotient of a number and a positive number, rounded half up. -/
def halfUp (n d : Int) : Int := (2 * n + d) / (2 * d)

theorem orOverflow_ok {α : Type} {x : Option α} {a : α}
    (h : orOverflow x sequence = .ok a) : x = some a := by
  cases x with
  | none => cases h
  | some b => rw [Except.ok.inj h]

theorem checkedI64_eq_some {v w : Int} (h : checkedI64 v = some w) : w = v := by
  unfold checkedI64 at h
  split_ifs at h
  exact (Option.some.inj h).symm

theorem orOverflow_checkedI64 {v w : Int}
    (h : orOverflow (checkedI64 v) sequence = .ok w) : w = v :=
  checkedI64_eq_some (orOverflow_ok h)

/-- **Rounding half up**, where nothing overflows. -/
theorem divRoundHalfUp_eq_some {n d r : Int} (h : divRoundHalfUp n d = some r) :
    0 < d ∧ 0 ≤ n ∧ r = halfUp n d := by
  unfold divRoundHalfUp at h
  split_ifs at h with hsign
  rw [not_or, not_le, not_lt] at hsign
  obtain ⟨doubled, hdoubled, h⟩ := Option.bind_eq_some_iff.mp h
  obtain ⟨raised, hraised, h⟩ := Option.bind_eq_some_iff.mp h
  obtain ⟨divisor, hdivisor, h⟩ := Option.bind_eq_some_iff.mp h
  obtain rfl := checkedI128_eq_some hdoubled
  obtain rfl := checkedI128_eq_some hraised
  obtain rfl := checkedI128_eq_some hdivisor
  refine ⟨hsign.1, hsign.2, ?_⟩
  rw [← Option.some.inj h, Int.tdiv_eq_ediv_of_nonneg (by omega), halfUp, mul_comm n, mul_comm d]

theorem extendedTicks_ok {q u r : Int} (h : extendedTicks q u sequence = .ok r) :
    r = halfUp (q * u) SCALE := by
  obtain ⟨product, hproduct, h⟩ := unbind h
  obtain ⟨rounded, hrounded, h⟩ := unbind h
  rw [orOverflow_checkedI64 h, (divRoundHalfUp_eq_some (orOverflow_ok hrounded)).2.2,
    checkedI128_eq_some (orOverflow_ok hproduct)]

theorem halfUp_nonneg {n d : Int} (hn : 0 ≤ n) (hd : 0 < d) : 0 ≤ halfUp n d :=
  Int.ediv_nonneg (by omega) (by omega)

theorem halfUp_mul_le {basis sold quantity : Int} (hbasis : 0 ≤ basis) (hsold : sold ≤ quantity)
    (hquantity : 0 < quantity) : halfUp (basis * sold) quantity ≤ basis := by
  have hpart : basis * sold ≤ basis * quantity := mul_le_mul_of_nonneg_left hsold hbasis
  refine Int.lt_add_one_iff.mp (Int.ediv_lt_of_lt_mul (by omega) ?_)
  linarith

/-! ### The pool -/

/-- What one sale closed: its quantity, basis and proceeds. -/
structure AverageCostClosing where
  closingSequence : ℕ
  closedTicks : Int
  basisRemovedTicks : Int
  proceedsTicks : Int
  realizedGainTicks : Int

/-- The open pool and the closings so far. -/
structure AverageCostLedger where
  quantityTicks : Int
  basisTicks : Int
  closed : List AverageCostClosing

variable {pool next : AverageCostLedger} {last last' : Option ℕ} {activity : LotActivity}
  {activities before after : List LotActivity}

/-- Adds a purchase to the pool at its rounded cost. -/
def buy (pool : AverageCostLedger) (activity : LotActivity) : Except LotError AverageCostLedger := do
  let cost ← extendedTicks activity.quantityTicks activity.priceTicks activity.sequence
  let quantity ← orOverflow (checkedI64 (pool.quantityTicks + activity.quantityTicks)) activity.sequence
  let basis ← orOverflow (checkedI64 (pool.basisTicks + cost)) activity.sequence
  .ok { pool with quantityTicks := quantity, basisTicks := basis }

/-- The pool's share of basis for what is sold; all of it for a full sale. -/
def removedBasis (pool : AverageCostLedger) (sold : Int) (sequence : ℕ) : Except LotError Int :=
  if sold = pool.quantityTicks then .ok pool.basisTicks
  else do
    let scaled ← orOverflow (checkedI128 (pool.basisTicks * sold)) sequence
    let rounded ← orOverflow (divRoundHalfUp scaled pool.quantityTicks) sequence
    toTicks rounded sequence

/-- Closes part of the pool at its average cost. -/
def sell (pool : AverageCostLedger) (activity : LotActivity) : Except LotError AverageCostLedger := do
  let sold ← orOverflow (checkedI64 (-activity.quantityTicks)) activity.sequence
  rejectIf (pool.quantityTicks < sold)
    (LotError.oversold activity.sequence sold pool.quantityTicks)
  let removed ← removedBasis pool sold activity.sequence
  let proceeds ← extendedTicks sold activity.priceTicks activity.sequence
  let gain ← orOverflow (checkedI64 (proceeds - removed)) activity.sequence
  .ok ⟨pool.quantityTicks - sold, pool.basisTicks - removed,
    pool.closed ++ [⟨activity.sequence, sold, removed, proceeds, gain⟩]⟩

def applyActivity (state : AverageCostLedger × Option ℕ) (activity : LotActivity) :
    Except LotError (AverageCostLedger × Option ℕ) := do
  validateActivity activity state.2
  let next ← (if 0 < activity.quantityTicks then buy else sell) state.1 activity
  .ok (next, some activity.sequence)

def replay (activities : List LotActivity) : Except LotError (AverageCostLedger × Option ℕ) :=
  activities.foldlM applyActivity (⟨0, 0, []⟩, none)

/-- Replays the activities from an empty pool. -/
def applyActivitiesAverageCost (activities : List LotActivity) : Except LotError AverageCostLedger :=
  (replay activities).map Prod.fst

/-! ### Conservation -/

def purchaseCost (activity : LotActivity) : Int :=
  halfUp (activity.quantityTicks * activity.priceTicks) SCALE

/-- The cost of everything bought. -/
def purchases (activities : List LotActivity) : Int :=
  ((activities.filter fun a => 0 < a.quantityTicks).map purchaseCost).sum

/-- No negative pool, and cost in equals basis held plus basis removed. -/
structure Conserved (activities : List LotActivity) (pool : AverageCostLedger) : Prop where
  quantity : 0 ≤ pool.quantityTicks
  basis : 0 ≤ pool.basisTicks
  empty : pool.quantityTicks = 0 → pool.basisTicks = 0
  total : purchases activities =
    pool.basisTicks + (pool.closed.map AverageCostClosing.basisRemovedTicks).sum

structure Closes (pool : AverageCostLedger) (activity : LotActivity) (closing : AverageCostClosing)
    (next : AverageCostLedger) : Prop where
  closed : next.closed = pool.closed ++ [closing]
  quantity : closing.closedTicks = -activity.quantityTicks ∧ closing.closedTicks ≤ pool.quantityTicks ∧
    next.quantityTicks = pool.quantityTicks - closing.closedTicks
  removed : 0 ≤ closing.basisRemovedTicks ∧ closing.basisRemovedTicks ≤ pool.basisTicks
  basis : next.basisTicks = pool.basisTicks - closing.basisRemovedTicks
  whole : closing.closedTicks = pool.quantityTicks → closing.basisRemovedTicks = pool.basisTicks
  proceeds : closing.proceedsTicks = halfUp (closing.closedTicks * activity.priceTicks) SCALE
  gain : closing.realizedGainTicks = closing.proceedsTicks - closing.basisRemovedTicks

theorem removedBasis_ok {sold removed : Int} (hbasis : 0 ≤ pool.basisTicks)
    (hsold : 0 ≤ sold) (hle : sold ≤ pool.quantityTicks)
    (h : removedBasis pool sold sequence = .ok removed) :
    (0 ≤ removed ∧ removed ≤ pool.basisTicks) ∧
      (sold = pool.quantityTicks → removed = pool.basisTicks) := by
  unfold removedBasis at h
  split_ifs at h with hwhole
  · obtain rfl := Except.ok.inj h
    exact ⟨⟨hbasis, le_rfl⟩, fun _ => rfl⟩
  · obtain ⟨scaled, hscaled, h⟩ := unbind h
    obtain ⟨rounded, hrounded, h⟩ := unbind h
    obtain ⟨hpos, -, hround⟩ := divRoundHalfUp_eq_some (orOverflow_ok hrounded)
    rw [orOverflow_checkedI64 h, hround, ← checkedI128_eq_some (orOverflow_ok hscaled)]
    exact ⟨⟨halfUp_nonneg (mul_nonneg hbasis hsold) hpos, halfUp_mul_le hbasis hle hpos⟩,
      fun hwhole' => absurd hwhole' hwhole⟩

/-- **What one activity does to the pool.** -/
theorem applyActivity_spec (hbasis : 0 ≤ pool.basisTicks)
    (h : applyActivity (pool, last) activity = .ok (next, last')) :
    0 < activity.priceTicks ∧ (0 < activity.quantityTicks ∧ next = { pool with
          quantityTicks := pool.quantityTicks + activity.quantityTicks
          basisTicks := pool.basisTicks + purchaseCost activity } ∨
        activity.quantityTicks < 0 ∧ ∃ closing, Closes pool activity closing next) := by
  obtain ⟨hvalid, h⟩ := check_eq_ok.mp h
  obtain ⟨hprice, hne⟩ := validateActivity_ok hvalid
  obtain ⟨made, hmade, h⟩ := unbind h
  obtain ⟨rfl, -⟩ := Prod.mk.inj (Except.ok.inj h)
  refine ⟨hprice, ?_⟩
  split_ifs at hmade with hbuy
  · obtain ⟨cost, hcost, hmade⟩ := unbind hmade
    obtain ⟨quantity, hquantity, hmade⟩ := unbind hmade
    obtain ⟨basis, hsum, hmade⟩ := unbind hmade
    obtain rfl := Except.ok.inj hmade
    rw [orOverflow_checkedI64 hquantity, orOverflow_checkedI64 hsum, extendedTicks_ok hcost]
    exact Or.inl ⟨hbuy, rfl⟩
  · obtain ⟨sold, hsold, hmade⟩ := unbind hmade
    obtain ⟨hfits, hmade⟩ := check_eq_ok.mp hmade
    obtain ⟨removed, hremoved, hmade⟩ := unbind hmade
    obtain ⟨proceeds, hproceeds, hmade⟩ := unbind hmade
    obtain ⟨gain, hgain, hmade⟩ := unbind hmade
    obtain rfl := Except.ok.inj hmade
    obtain rfl := orOverflow_checkedI64 hsold
    rw [rejectIf_eq_ok, not_lt] at hfits
    obtain ⟨hrange, hwhole⟩ := removedBasis_ok hbasis (by omega) hfits hremoved
    exact Or.inr ⟨by omega, _, rfl, ⟨rfl, hfits, rfl⟩, hrange, rfl, hwhole, extendedTicks_ok hproceeds,
      orOverflow_checkedI64 hgain⟩

theorem Conserved.step (hpool : Conserved activities pool)
    (h : applyActivity (pool, last) activity = .ok (next, last')) :
    Conserved (activities ++ [activity]) next := by
  obtain ⟨hprice, ⟨hbuy, rfl⟩ | ⟨hsale, closing, hcloses⟩⟩ := applyActivity_spec hpool.basis h
  · have hcost : 0 ≤ purchaseCost activity :=
      halfUp_nonneg (mul_nonneg hbuy.le hprice.le) (by decide)
    have hquantity := hpool.quantity
    refine ⟨by dsimp only; omega, add_nonneg hpool.basis hcost, fun hzero => ?_, ?_⟩
    · dsimp only at hzero
      omega
    · have htotal := hpool.total
      simp only [purchases] at htotal
      simp [purchases, hbuy]
      omega
  · obtain ⟨hclosed, ⟨-, hfits, hquantity⟩, ⟨-, hremoved⟩, hbasis, hwhole, -, -⟩ := hcloses
    refine ⟨by omega, by omega, fun hzero => ?_, ?_⟩
    · rw [hbasis]
      omega
    · have htotal := hpool.total
      simp only [purchases] at htotal
      simp [purchases, hsale.le, htotal, hclosed, hbasis]

section
variable {state : AverageCostLedger × Option ℕ}

theorem replay_append : replay (before ++ after) = .ok state ↔
      ∃ reached, replay before = .ok reached ∧ after.foldlM applyActivity reached = .ok state := by
  rw [replay, List.foldlM_append]
  exact bind_eq_ok

theorem replay_snoc : replay (before ++ [activity]) = .ok state ↔
      ∃ reached, replay before = .ok reached ∧ applyActivity reached activity = .ok state := by
  rw [replay_append]
  simp

theorem conserved_of_replay : replay activities = .ok state → Conserved activities state.1 := by
  induction activities using List.reverseRecOn generalizing state with
  | nil =>
    intro h
    obtain rfl := Except.ok.inj h
    exact ⟨le_rfl, le_rfl, fun _ => rfl, rfl⟩
  | append_singleton activities activity ih =>
    intro h
    obtain ⟨reached, hreached, hstep⟩ := replay_snoc.mp h
    exact (ih hreached).step hstep

end

/-- **The pool is conserved at every prefix of an accepted replay**, and every sale after it removes no
more basis than there is and gains its proceeds over what it removes. -/
theorem pool_conserved {ledger : AverageCostLedger}
    (haccepted : applyActivitiesAverageCost (before ++ after) = .ok ledger) :
    ∃ pool, applyActivitiesAverageCost before = .ok pool ∧ Conserved before pool ∧
      ∀ activity rest, after = activity :: rest → ∃ next,
        applyActivitiesAverageCost (before ++ [activity]) = .ok next ∧
          (activity.quantityTicks < 0 → ∃ closing, Closes pool activity closing next) ∧
          (0 < activity.quantityTicks → next.closed = pool.closed) := by
  unfold applyActivitiesAverageCost at haccepted ⊢
  cases hreplay : replay (before ++ after) with
  | error e =>
    rw [hreplay] at haccepted
    cases haccepted
  | ok state =>
    obtain ⟨reached, hreached, hrest⟩ := replay_append.mp hreplay
    have hpool := conserved_of_replay hreached
    refine ⟨reached.1, by rw [hreached]; rfl, hpool, ?_⟩
    rintro activity rest rfl
    obtain ⟨next, hnext, -⟩ := unbind ((List.foldlM_cons ..).symm.trans hrest)
    have hlonger : replay (before ++ [activity]) = .ok next := replay_snoc.mpr ⟨reached, hreached, hnext⟩
    refine ⟨next.1, by rw [hlonger]; rfl, fun hsale => ?_, fun hbuy => ?_⟩
    · obtain ⟨-, ⟨hbuy, -⟩ | ⟨-, hcloses⟩⟩ := applyActivity_spec hpool.basis hnext
      · omega
      · exact hcloses
    · obtain ⟨-, ⟨-, heq⟩ | ⟨hsale, -⟩⟩ := applyActivity_spec hpool.basis hnext
      · rw [heq]
      · omega

/-- Three ticks at half a unit each, and the sale of one of them. -/
def halves : List LotActivity := [⟨1, 3, 50000000⟩, ⟨2, -1, 1⟩]

theorem pool_conserved_halves : (∃ ledger, applyActivitiesAverageCost (halves ++ [⟨3, -2, 1⟩]) = .ok ledger) ∧
    ∃ pool, applyActivitiesAverageCost halves = .ok pool ∧ Conserved halves pool := by
  refine ⟨⟨_, rfl⟩, ?_⟩
  obtain ⟨pool, hpool, hconserved, -⟩ := pool_conserved
    (show applyActivitiesAverageCost (halves ++ [⟨3, -2, 1⟩]) = .ok _ from rfl)
  exact ⟨pool, hpool, hconserved⟩

end Medulla.Finance.AverageCost
