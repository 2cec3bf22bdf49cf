import ViewLogic.Pattern

/-!
# Reification

Reifying a bag of held atoms finds every way in which they match given patterns. A match assigns to
each component of a pattern another occurrence of the bag with the component's name and number of
parameters; it holds if all assigned atoms are there. Matches are kept with their multiplicity.
-/

namespace ViewLogic

open Std (TransOrd)

variable {V α : Type}

/-- The atoms assigned to the components of a pattern, in order, and when they all are held. -/
abbrev Match (V : Type) := Guarded V (List (Atom (Expr V)))

/-- Every element of a list together with the remaining elements. -/
def picks : List α → List (α × List α)
  | [] => []
  | a :: as => (a, as) :: (picks as).map fun p => (p.1, a :: p.2)

/-- Every way to assign to the components different occurrences of the same shape. -/
def assignments : List (Atom Decl) → List (Held V) → List (List (Held V))
  | [], _ => [[]]
  | c :: cs, pool =>
    ((picks pool).filter fun p => c.sameShape p.1.item).flatMap fun p =>
      (assignments cs p.2).map (p.1 :: ·)

/-- The match of assigned atoms. -/
def Match.ofAssigned (gs : List (Held V)) : Match V := ⟨.all (gs.map (·.guard)), gs.map (·.item)⟩

/-- Every match of the held atoms with the patterns. -/
def reify [Ord V] [TransOrd V] (held : Bag (Held V)) (patterns : List Pattern) : Bag (Match V) :=
  .ofList (patterns.flatMap fun p => (assignments p.components held.toList).map Match.ofAssigned)

end ViewLogic
