import ViewLogic.Atom
import ViewLogic.Bag
import ViewLogic.Expr.Connective
import ViewLogic.Expr.Order
import ViewLogic.Expr.Render

/-!
# Views

A view says what a thread holds at a point of a method: atoms, joined, some of them under a
condition. Flattening a view gives the bag of its atoms, each guarded by the conditions above it.
-/

namespace ViewLogic

open Std (TransOrd LawfulEqOrd TransCmp)

variable {V : Type}

/-- Something that is there only if a guard holds. -/
structure Guarded (V α : Type) where
  guard : BoolExpr V
  item : α

namespace Guarded

variable {α : Type} [Ord V] [Ord α]

instance : Ord (Guarded V α) := ⟨compareLex (compareOn guard) (compareOn item)⟩

instance [TransOrd V] [TransOrd α] : TransOrd (Guarded V α) :=
  inferInstanceAs (TransCmp (compareLex (compareOn guard) (compareOn item)))

instance [LawfulEqOrd V] [LawfulEqOrd α] : LawfulEqOrd (Guarded V α) :=
  lawfulEqCmp_compareLex fun ⟨_, _⟩ ⟨_, _⟩ => by rintro rfl rfl; rfl

instance [LawfulEqOrd V] [LawfulEqOrd α] : DecidableEq (Guarded V α) := fun a b =>
  decidable_of_iff (compare a b = .eq) Std.LawfulEqCmp.compare_eq_iff_eq

end Guarded

/-- A guarded atom, as a point of a method holds it. -/
abbrev Held (V : Type) := Guarded V (Atom (Expr V))

/-- The text of a guarded atom; a guard that is literally true is not shown. -/
def Held.render [HasText V] (g : Held V) : String :=
  if g.guard.isLit true then g.item.render
  else "(" ++ g.guard.render ++ " -> " ++ g.item.render ++ ")"

instance [HasText V] : HasText (Held V) := ⟨Held.render⟩

/-- What a thread holds at a point. -/
inductive View (V : Type) where
  | unit
  | atom (a : Atom (Expr V))
  | join (l r : View V)
  | ite (cond : BoolExpr V) (yes no : View V)

namespace View

/-- The join of views, from left to right. -/
def joinAll : List (View V) → View V
  | [] => unit
  | v :: vs => vs.foldl join v

/-- The atoms of a view, from left to right. -/
def atoms : View V → List (Atom (Expr V))
  | unit => []
  | atom a => [a]
  | join l r => l.atoms ++ r.atoms
  | ite _ yes no => yes.atoms ++ no.atoms

/-- The atoms of a view with their guards, below a guard. -/
def heldUnder (guard : BoolExpr V) : View V → List (Held V)
  | unit => []
  | atom a => [⟨guard, a⟩]
  | join l r => l.heldUnder guard ++ r.heldUnder guard
  | ite cond yes no =>
    yes.heldUnder (.all [guard, cond]) ++ no.heldUnder (.all [guard, cond.negate])

/-- The bag of the guarded atoms of a view. -/
def held [Ord V] [TransOrd V] (v : View V) : Bag (Held V) := .ofList (v.heldUnder (.lit true))

/-- The letters of a view, for its order. -/
def spell : View V → List (Letter V)
  | unit => [.ofRank 0]
  | atom a => .ofRank 1 :: .ofName a.name :: Expr.spellAll a.params
  | join l r => .ofRank 2 :: (l.spell ++ r.spell)
  | ite cond yes no => .ofRank 3 :: (cond.spell ++ (yes.spell ++ no.spell))

instance [Ord V] : Ord (View V) := ⟨compareOn spell⟩

instance [Ord V] [TransOrd V] : TransOrd (View V) := inferInstanceAs (TransCmp (compareOn spell))

end View

end ViewLogic
