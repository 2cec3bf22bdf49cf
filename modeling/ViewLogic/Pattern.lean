import ViewLogic.View

/-!
# Patterns and definitions

A pattern describes the shape of joined views; a definition says what a thread may assume when it
holds views of that shape. A prototype declares a view with the types of its parameters.
-/

namespace ViewLogic

open Std (TransOrd TransCmp)

/-- The shape of joined views, with names for their parameters. -/
inductive Pattern where
  | unit
  | atom (a : Atom Decl)
  | join (l r : Pattern)
deriving DecidableEq

namespace Pattern

/-- The join of patterns, from left to right. -/
def joinAll : List Pattern → Pattern
  | [] => unit
  | p :: ps => ps.foldl join p

/-- The atoms of a pattern, from left to right. -/
def components : Pattern → List (Atom Decl)
  | unit => []
  | atom a => [a]
  | join l r => l.components ++ r.components

/-- The text of a pattern. -/
def render (p : Pattern) : String :=
  if p.components.isEmpty then "emp"
  else String.intercalate " * " (p.components.map Atom.render)

/-- The letters of a list of declarations. -/
def spellDecls : List Decl → List (Letter Var)
  | [] => [.ofRank 0]
  | d :: ds => .ofRank 1 :: .ofRank d.ty.rank :: .ofName d.name :: spellDecls ds

/-- The letters of a pattern, for its order. -/
def spell : Pattern → List (Letter Var)
  | unit => [.ofRank 0]
  | atom a => .ofRank 1 :: .ofName a.name :: spellDecls a.params
  | join l r => .ofRank 2 :: (l.spell ++ r.spell)

instance : Ord Pattern := ⟨compareOn spell⟩

instance : TransOrd Pattern := inferInstanceAs (TransCmp (compareOn spell))

end Pattern

/-- The declaration of a view. -/
structure Prototype where
  name : String
  params : List Decl
deriving DecidableEq

/-- What holds of the state whenever views of a shape are held; without a body nothing is known. -/
structure Definition where
  pattern : Pattern
  body : Option (BoolExpr Var)

end ViewLogic
