import ViewLogic.Order

/-!
# Integer constants

Constants are the integers of 64 bits with a sign. Arithmetic on them is the arithmetic of the
integers, and it has no result when that result is not a constant.
-/

namespace ViewLogic

open Std (TransOrd LawfulEqOrd TransCmp)

/-- An integer constant: at least `-2 ^ 63` and less than `2 ^ 63`. -/
structure Constant where
  val : Int
  le_val : -9223372036854775808 ≤ val
  val_lt : val < 9223372036854775808
deriving DecidableEq

/-- The arithmetic operations that take any number of operands. -/
inductive ArithOp where
  | add
  | sub
  | mul
deriving DecidableEq

/-- The integer comparisons beside equality. -/
inductive Comparison where
  | gt
  | ge
  | le
  | lt
deriving DecidableEq

/-- The operation on integers. -/
def ArithOp.eval : ArithOp → Int → Int → Int
  | add, a, b => a + b
  | sub, a, b => a - b
  | mul, a, b => a * b

/-- The comparison of integers. -/
def Comparison.holds : Comparison → Int → Int → Bool
  | gt, a, b => decide (b < a)
  | ge, a, b => decide (b ≤ a)
  | le, a, b => decide (a ≤ b)
  | lt, a, b => decide (a < b)

namespace Constant

instance : Ord Constant := ⟨compareOn val⟩

instance : TransOrd Constant := inferInstanceAs (TransCmp (compareOn val))

instance : LawfulEqOrd Constant := lawfulEqCmp_compareOn fun ⟨_, _, _⟩ ⟨_, _, _⟩ => by
  rintro rfl; rfl

/-- The constant of a value, if the value is in range. -/
def ofInt? (n : Int) : Option Constant :=
  if h : -9223372036854775808 ≤ n ∧ n < 9223372036854775808 then some ⟨n, h.1, h.2⟩ else none

/-- The constant one. -/
def one : Constant := ⟨1, by decide, by decide⟩

/-- Applies an operation, if the result is in range. -/
def compute? (op : ArithOp) (a b : Constant) : Option Constant := ofInt? (op.eval a.val b.val)

/-- Euclidean division, if the divisor is not zero and the quotient is in range. -/
def div? (a b : Constant) : Option Constant := if b.val = 0 then none else ofInt? (a.val / b.val)

end Constant

end ViewLogic
