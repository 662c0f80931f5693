/-! # Ranges of characters

A property of characters is given as a table of ranges of code points. Surrogates, which are no
characters, may lie inside a range.
-/

namespace TensorIR

/-- The code points from the first to the last, both included. -/
structure CodeRange where
  first : Nat
  last : Nat
deriving DecidableEq

namespace CodeRange

/-- Whether the range holds a character. -/
def contains (r : CodeRange) (c : Char) : Bool := r.first ≤ c.toNat && c.toNat ≤ r.last

/-- Whether any of the ranges holds a character. -/
def anyContains (rs : List CodeRange) (c : Char) : Bool := rs.any (·.contains c)

theorem anyContains_iff {rs : List CodeRange} {c : Char} :
    anyContains rs c = true ↔ ∃ r ∈ rs, r.first ≤ c.toNat ∧ c.toNat ≤ r.last := by
  simp [anyContains, contains]

end CodeRange

end TensorIR
