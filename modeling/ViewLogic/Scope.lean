import ViewLogic.Error
import ViewLogic.SortedMap
import ViewLogic.Variable

/-!
# Scopes

A scope gives each declared variable its type. No name is declared twice, neither in one list of
declarations nor in two scopes that are merged.
-/

namespace ViewLogic

/-- The types of the declared variables. -/
abbrev Scope := SortedMap Var Ty

namespace Scope

/-- The declarations of a scope, by name. -/
def decls (s : Scope) : List Decl := s.entries.map fun e => ⟨e.2, e.1⟩

/-- Adds a declaration of a new name. -/
def declare (s : Scope) (d : Decl) : Except Error Scope :=
  if s.contains d.name then .error (.duplicateVar d.name) else .ok (s.insert d.name d.ty)

/-- The scope of a list of declarations. The error is about the first one of a declared name. -/
def ofDecls (ds : List Decl) : Except Error Scope := ds.foldlM declare ∅

/-- Both scopes together. The error is about the least name that both declare. -/
def merge (s t : Scope) : Except Error Scope := t.decls.foldlM declare s

/-- The type of a declared variable. -/
def lookup (s : Scope) (x : Var) : Except Error Ty :=
  match s.get? x with
  | some ty => .ok ty
  | none => .error (.unboundVar x)

/-- Checks that a variable is declared at a type. -/
def expect (s : Scope) (x : Var) (ty : Ty) : Except Error Unit := do
  let declared ← s.lookup x
  if declared = ty then .ok () else .error (.typeMismatch x ty.render declared.render)

end Scope

end ViewLogic
