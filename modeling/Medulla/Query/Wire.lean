import Mathlib.Data.Rat.Floor

/-! # Plans on the wire

The operators a query plan is made of, the predicates they carry and the property documents they
read. Numbers are exact: an integer property is an integer, a fractional one a rational, and a
64-bit float of a plan is a rational, an infinity or not a number. -/

namespace Medulla.Query.Wire

/-! ### Numbers -/

/-- A float of a plan, read exactly. -/
inductive F64
  | finite (q : ℚ)
  | posInf
  | negInf
  | nan
  deriving DecidableEq

/-- `x.max(0.0)` as an unsigned integer: truncated, and saturated at the bound of its type. -/
def F64.saturate (bound : ℕ) : F64 → ℕ
  | .finite q => min bound ⌊max q 0⌋.toNat
  | .posInf => bound
  | .negInf | .nan => 0

/-- `partial_cmp` of a stored number and a float of the plan. -/
def F64.compareWith (stored : ℚ) : F64 → Option Ordering
  | .finite q => some (compare stored q)
  | .posInf => some .lt
  | .negInf => some .gt
  | .nan => none

def u64Max : ℕ := 2 ^ 64 - 1

def i64Max : ℕ := 2 ^ 63 - 1

/-! ### Decimal numerals -/

def digitsValue (cs : List Char) : ℕ := cs.foldl (fun n c => 10 * n + (c.toNat - '0'.toNat)) 0

def takeSign : List Char → Bool × List Char
  | '-' :: cs => (true, cs)
  | '+' :: cs => (false, cs)
  | cs => (false, cs)

def parseExponent (cs : List Char) : Option ℤ :=
  let (negative, ds) := takeSign cs
  if ds.isEmpty || !ds.all Char.isDigit then none
  else some (if negative then -(digitsValue ds : ℤ) else digitsValue ds)

/-- An unsigned decimal numeral: digits with an optional point, and an optional exponent. -/
def parseDecimal (cs : List Char) : Option ℚ :=
  let (whole, rest) := cs.span Char.isDigit
  let (fraction, rest) : List Char × List Char :=
    match rest with
    | '.' :: rest => rest.span Char.isDigit
    | rest => ([], rest)
  let mantissa : ℚ := (digitsValue (whole ++ fraction) : ℚ) / 10 ^ fraction.length
  if whole.isEmpty && fraction.isEmpty then none
  else
    match rest with
    | [] => some mantissa
    | e :: rest =>
      if e = 'e' || e = 'E' then (parseExponent rest).map fun k => mantissa * (10 : ℚ) ^ k
      else none

def parseF64 (s : String) : Option F64 :=
  let (negative, cs) := takeSign s.toList
  let word := String.ofList (cs.map Char.toLower)
  if word = "inf" || word = "infinity" then some (if negative then .negInf else .posInf)
  else if word = "nan" then some .nan
  else (parseDecimal cs).map fun q => .finite (if negative then -q else q)

example : parseF64 "-12.5e1" = some (.finite (-125)) := by decide +kernel

example : parseF64 "." = none := by decide +kernel

/-! ### Property documents -/

inductive Value
  | null
  | bool (b : Bool)
  | int (z : ℤ)
  | float (q : ℚ)
  | string (s : String)
  | array (items : List Value)
  | object (fields : List (String × Value))

abbrev Props := List (String × Value)

namespace Value

def asStr : Value → Option String
  | .string s => some s
  | _ => none

def asArray : Value → Option (List Value)
  | .array items => some items
  | _ => none

/-- A number that is a signed 64-bit integer. -/
def asI64 : Value → Option ℤ
  | .int z => if -(2 ^ 63 : ℤ) ≤ z ∧ z ≤ i64Max then some z else none
  | _ => none

/-- A number that is an unsigned 64-bit integer. -/
def asU64 : Value → Option ℕ
  | .int z => if 0 ≤ z ∧ z ≤ u64Max then some z.toNat else none
  | _ => none

/-- Any number, read exactly. -/
def asF64 : Value → Option ℚ
  | .int z => some z
  | .float q => some q
  | _ => none

end Value

def nodeLabelKeys : List String := ["type", "node_type", "label"]

def propsCarryLabel (props : Props) (label : String) : Bool :=
  nodeLabelKeys.any (fun key => (props.lookup key).bind Value.asStr = some label) ||
    ((props.lookup "labels").bind Value.asArray).any fun labels =>
      labels.any fun x => x.asStr = some label

/-! ### Predicates and operators -/

inductive CmpOp
  | eq | ne | gt | ge | lt | le

inductive PredLiteral
  | str (s : String)
  | num (x : F64)
  | bool (b : Bool)

/-- A row predicate. The JSONPath and spatial predicates are evaluated elsewhere; what they carry is
not read here. -/
inductive Pred
  | eq (prop value : String)
  | gtNum (prop : String) (n : F64)
  | ltNum (prop : String) (n : F64)
  | cmp (prop : String) (op : CmpOp) (value : PredLiteral)
  | isIn (prop : String) (values : List PredLiteral)
  | between (prop : String) (lo hi : PredLiteral)
  | isNull (prop : String)
  | and (preds : List Pred)
  | or (preds : List Pred)
  | not (pred : Pred)
  | jsonPath
  | spatial

/-- The timeline an instant pins. -/
inductive TimeAxis
  | valid
  | transaction

/-- One operator of a plan. The operators no rule here reads are kept by the name of their kind. -/
inductive Op
  | scan (label : String)
  | filter (preds : List Pred)
  | asOf (ts : F64) (axis : TimeAxis)
  | windowAgg (secs : F64) (agg : String)
  | limit (k : ℕ)
  | traverse (rel : String) (min max : ℕ)
  | rank (query : List F64)
  | other (kind : String)

def Op.name : Op → String
  | .scan _ => "Scan"
  | .filter _ => "Filter"
  | .asOf _ _ => "AsOf"
  | .windowAgg _ _ => "WindowAgg"
  | .limit _ => "Limit"
  | .traverse _ _ _ => "Traverse"
  | .rank _ => "Rank"
  | .other kind => kind

structure Plan where
  ops : List Op

end Medulla.Query.Wire
