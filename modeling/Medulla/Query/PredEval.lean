import Medulla.Query.Wire

/-! # Per-row evaluation of relational predicates

SQL's three-valued logic over a decoded property map: a comparison with a missing property, or of
values of different types, is unknown, and a row is kept only when its predicate is definitely true.
JSONPath and spatial predicates are not relational, and unknown here. -/

namespace Medulla.Query.PredEval

open Wire

/-- Three-valued truth; `none` is unknown. -/
abbrev Truth := Option Bool

/-! ### Comparisons -/

/-- Whether the order of two values satisfies a comparison. -/
def cmpOpMatches : CmpOp → Ordering → Bool
  | .eq, o => o = .eq
  | .ne, o => o ≠ .eq
  | .lt, o => o = .lt
  | .le, o => o ≠ .gt
  | .gt, o => o = .gt
  | .ge, o => o ≠ .lt

/-- Order a stored value against a typed literal; unknown when it is missing or of another type. -/
def compare (stored : Option Value) (lit : PredLiteral) : Option Ordering :=
  match stored, lit with
  | some (.int z), .num x => x.compareWith z
  | some (.float q), .num x => x.compareWith q
  | some (.string s), .str x => some (Ord.compare s x)
  | some (.bool b), .bool x => some (Ord.compare b x)
  | _, _ => none

def numberEq (stored : ℚ) (value : String) : Bool :=
  match parseF64 value with
  | some (.finite q) => stored = q
  | _ => false

def legacyEq (stored : Option Value) (value : String) : Truth :=
  match stored with
  | some (.string s) => some (s = value)
  | some (.int z) => some (numberEq z value)
  | some (.float q) => some (numberEq q value)
  | some (.bool b) => some (toString b = value)
  | _ => none

/-! ### Connectives -/

def kleeneAnd (ts : List Truth) : Truth :=
  if some false ∈ ts then some false else if none ∈ ts then none else some true

def kleeneOr (ts : List Truth) : Truth :=
  if some true ∈ ts then some true else if none ∈ ts then none else some false

def inList (stored : Option Value) (values : List PredLiteral) : Truth :=
  kleeneOr (values.map fun v => (compare stored v).map (· = .eq))

def between (stored : Option Value) (lo hi : PredLiteral) : Truth :=
  kleeneAnd [(compare stored lo).map (· ≠ .lt), (compare stored hi).map (· ≠ .gt)]

def missing (stored : Option Value) : Bool :=
  match stored with
  | none | some .null => true
  | some _ => false

/-! ### Predicates -/

mutual

def isRelational : Pred → Bool
  | .eq _ _ | .gtNum _ _ | .ltNum _ _ | .cmp _ _ _ | .isIn _ _ | .between _ _ _ | .isNull _ => true
  | .and preds | .or preds => allRelational preds
  | .not pred => isRelational pred
  | .jsonPath | .spatial => false

def allRelational : List Pred → Bool
  | [] => true
  | p :: ps => isRelational p && allRelational ps

end

mutual

/-- Evaluate a predicate on a property map. -/
def holds (props : Props) : Pred → Truth
  | .eq prop value => legacyEq (props.lookup prop) value
  | .gtNum prop n => (compare (props.lookup prop) (.num n)).map (· = .gt)
  | .ltNum prop n => (compare (props.lookup prop) (.num n)).map (· = .lt)
  | .cmp prop op value => (compare (props.lookup prop) value).map (cmpOpMatches op)
  | .isIn prop values => inList (props.lookup prop) values
  | .between prop lo hi => between (props.lookup prop) lo hi
  | .isNull prop => some (missing (props.lookup prop))
  | .and preds => kleeneAnd (holdsEach props preds)
  | .or preds => kleeneOr (holdsEach props preds)
  | .not pred => (holds props pred).map (!·)
  | .jsonPath | .spatial => none

def holdsEach (props : Props) : List Pred → List Truth
  | [] => []
  | p :: ps => holds props p :: holdsEach props ps

end

/-- A row is kept by a predicate that is definitely true. -/
def predHolds (props : Props) (pred : Pred) : Bool := holds props pred = some true

/-- A row is live at an instant, on a timeline: `[from, until)`, open when no end is stored. -/
def asOfHolds (props : Props) (ts : F64) (axis : TimeAxis) : Bool :=
  let (fromKey, untilKey) : String × String :=
    match axis with
    | .valid => ("valid_from", "valid_until")
    | .transaction => ("tx_from", "tx_to")
  let q := ts.saturate u64Max
  let since := ((props.lookup fromKey).bind Value.asU64).getD 0
  since ≤ q && ((props.lookup untilKey).bind Value.asU64).all (q < ·)

example : holds [("a", .int 1)] (.not (.gtNum "b" (.finite 0))) = none := rfl

end Medulla.Query.PredEval
