import ViewLogic.Order

/-!
# Variables

A variable has a name and a type. Inside a relation it is also marked by the moment at which it is
read: before the command, after it, at a numbered stage in between, or in the goal.
-/

namespace ViewLogic

open Std (TransOrd LawfulEqOrd TransCmp)

/-- The name of a variable. -/
abbrev Var := String

/-- The type of a variable or expression. -/
inductive Ty where
  | int
  | bool
deriving DecidableEq

namespace Ty

/-- Integers come before Booleans. -/
def rank : Ty → Nat
  | int => 0
  | bool => 1

instance : Ord Ty := ⟨compareOn rank⟩

instance : TransOrd Ty := inferInstanceAs (TransCmp (compareOn rank))

instance : LawfulEqOrd Ty := lawfulEqCmp_compareOn fun a b => by cases a <;> cases b <;> decide

/-- The text of a type. -/
def render : Ty → String
  | int => "int"
  | bool => "bool"

end Ty

/-- A variable declared at a type. -/
structure Decl where
  ty : Ty
  name : Var
deriving DecidableEq

namespace Decl

instance : Ord Decl := ⟨compareLex (compareOn ty) (compareOn name)⟩

instance : TransOrd Decl := inferInstanceAs (TransCmp (compareLex (compareOn ty) (compareOn name)))

instance : LawfulEqOrd Decl := lawfulEqCmp_compareLex fun ⟨_, _⟩ ⟨_, _⟩ => by rintro rfl rfl; rfl

/-- The text of a declaration: the type, then the name. -/
def render (d : Decl) : String := d.ty.render ++ " " ++ d.name

end Decl

/-- The greatest stage number, `2 ^ 64 - 1`. -/
def Stage.limit : Nat := 18446744073709551615

/-- The number of an intermediate stage. -/
structure Stage where
  val : Nat
  val_le : val ≤ Stage.limit
deriving DecidableEq

namespace Stage

instance : Ord Stage := ⟨compareOn val⟩

instance : TransOrd Stage := inferInstanceAs (TransCmp (compareOn val))

instance : LawfulEqOrd Stage := lawfulEqCmp_compareOn fun ⟨_, _⟩ ⟨_, _⟩ => by rintro rfl; rfl

/-- The stage with a number, or the last stage if the number is too great. -/
def ofNat (n : Nat) : Stage := ⟨min n limit, Nat.min_le_right n limit⟩

/-- The stage with a number, if there is one. -/
def ofNat? (n : Nat) : Option Stage := if h : n ≤ limit then some ⟨n, h⟩ else none

/-- The first stage. -/
def zero : Stage := ⟨0, Nat.zero_le _⟩

/-- The stage `k` later; the last stage has no later one. -/
def add (s k : Stage) : Stage := ofNat (s.val + k.val)

/-- The stage after this one. -/
def next (s : Stage) : Stage := ofNat (s.val + 1)

/-- The later of two stages. -/
def max (s t : Stage) : Stage := if s.val ≤ t.val then t else s

end Stage

/-- The moment at which a variable is read. -/
inductive Mark where
  | before
  | after
  | intermediate (stage : Stage)
  | goal
deriving DecidableEq

namespace Mark

/-- The moments in the order of their listing. -/
def rank : Mark → Nat
  | before => 0
  | after => 1
  | intermediate _ => 2
  | goal => 3

/-- The stage number of an intermediate moment, and zero for the others. -/
def stageNumber : Mark → Nat
  | intermediate n => n.val
  | _ => 0

instance : Ord Mark := ⟨compareLex (compareOn rank) (compareOn stageNumber)⟩

instance : TransOrd Mark :=
  inferInstanceAs (TransCmp (compareLex (compareOn rank) (compareOn stageNumber)))

instance : LawfulEqOrd Mark := lawfulEqCmp_compareLex fun a b hrank hstage => by
  cases a <;> cases b <;> simp_all [rank, stageNumber]
  next m n => cases m; cases n; simp_all

/-- The suffix that shows the moment. -/
def render : Mark → String
  | before => "before"
  | after => "after"
  | intermediate n => toString n.val
  | goal => "goal"

end Mark

/-- A variable read at a moment. -/
structure MarkedVar where
  mark : Mark
  name : Var
deriving DecidableEq

namespace MarkedVar

instance : Ord MarkedVar := ⟨compareLex (compareOn mark) (compareOn name)⟩

instance : TransOrd MarkedVar :=
  inferInstanceAs (TransCmp (compareLex (compareOn mark) (compareOn name)))

instance : LawfulEqOrd MarkedVar :=
  lawfulEqCmp_compareLex fun ⟨_, _⟩ ⟨_, _⟩ => by rintro rfl rfl; rfl

/-- The text of a marked variable: its name, an exclamation mark and the moment. -/
def render (v : MarkedVar) : String := v.name ++ "!" ++ v.mark.render

end MarkedVar

end ViewLogic
