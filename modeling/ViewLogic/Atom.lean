import ViewLogic.Order
import ViewLogic.Text

/-!
# Atoms

A name applied to parameters: an instance of a view, a pattern of one, or a primitive command.
-/

namespace ViewLogic

open Std (TransOrd LawfulEqOrd TransCmp)

variable {P Q : Type}

/-- A name applied to parameters. -/
structure Atom (P : Type) where
  name : String
  params : List P
deriving DecidableEq

namespace Atom

/-- Whether two atoms have the same name and the same number of parameters. -/
def sameShape (a : Atom P) (b : Atom Q) : Bool :=
  a.name == b.name && a.params.length == b.params.length

/-- The text of an atom. -/
def render [HasText P] (a : Atom P) : String := callText a.name (a.params.map text)

instance [HasText P] : HasText (Atom P) := ⟨render⟩

variable [Ord P]

instance : Ord (Atom P) := ⟨compareLex (compareOn name) (compareOn params)⟩

instance [TransOrd P] : TransOrd (Atom P) :=
  inferInstanceAs (TransCmp (compareLex (compareOn name) (compareOn params)))

instance [LawfulEqOrd P] : LawfulEqOrd (Atom P) :=
  lawfulEqCmp_compareLex fun ⟨_, _⟩ ⟨_, _⟩ => by rintro rfl rfl; rfl

end Atom

end ViewLogic
