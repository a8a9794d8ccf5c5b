import Mathlib.Data.Rat.Defs

/-! # Row sets

What flows between the operators of a plan: node ids in order, each at most once and each with an
optional score. The exact value channels of series rows are left out: no operator modelled here
reads or writes them. -/

namespace Medulla.Query.Rows

structure Row where
  id : String
  score : Option ℚ
  deriving DecidableEq

/-- Keep the first row of every id that is not among the ones already seen. -/
def firstOfEach : List String → List Row → List Row
  | _, [] => []
  | seen, r :: rs => if r.id ∈ seen then firstOfEach seen rs else r :: firstOfEach (r.id :: seen) rs

structure RowSet where
  rows : List Row
  deriving DecidableEq

namespace RowSet

/-- Build from rows in order; the first row of an id wins. -/
def fromRows (rows : List Row) : RowSet := ⟨firstOfEach [] rows⟩

def fromIds (ids : List String) : RowSet := fromRows (ids.map fun id => ⟨id, none⟩)

def fromScored (scored : List (String × ℚ)) : RowSet :=
  fromRows (scored.map fun r => ⟨r.1, some r.2⟩)

def ids (s : RowSet) : List String := s.rows.map Row.id

def isEmpty (s : RowSet) : Bool := s.rows.isEmpty

def limit (s : RowSet) (k : ℕ) : RowSet := ⟨s.rows.take k⟩

def intersectKeepOrder (s : RowSet) (keep : String → Bool) : RowSet :=
  ⟨s.rows.filter fun r => keep r.id⟩

end RowSet

end Medulla.Query.Rows
