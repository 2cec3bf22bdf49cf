import ViewLogic.Atom
import ViewLogic.Expr.Leaf
import ViewLogic.Expr.Order
import ViewLogic.Expr.Render
import ViewLogic.Relation
import ViewLogic.Scope

/-!
# Commands

A command is a sequence of primitives, each applied to marked expressions: a variable that is passed
as it is after the primitive is written by it. `Assume` lets a run go on only if its condition
holds.
-/

namespace ViewLogic

/-- A primitive command applied to marked expressions. -/
abbrev Primitive := Atom (Expr MarkedVar)

/-- A sequence of primitives; the empty one does nothing. -/
abbrev Command := List Primitive

/-- The variables of a primitive's parameters, from left to right. -/
def Primitive.leaves (p : Primitive) : List (Leaf MarkedVar) := p.params.flatMap Expr.leaves

/-- The names that a primitive mentions as they are after it, each once and in order. -/
def Primitive.written (p : Primitive) : List Var :=
  (SortedMap.ofList ((p.leaves.filter (·.var.mark = .after)).map (·.var.name, ()))).keys

/-- Reads every variable as it is, if it is declared at the type at which it is read. -/
def Scope.reader (scope : Scope) : Resolver Error MarkedVar MarkedVar where
  int v := do
    scope.expect v.name .int
    .ok (.var v)
  bool v := do
    scope.expect v.name .bool
    .ok (.var v)

namespace Command

/-- The name of the primitive that assumes a condition. -/
def assumeName : String := "Assume"

/-- The command that assumes a condition. -/
def assume (cond : Relation) : Command := [⟨assumeName, [.bool cond]⟩]

/-- The condition of a command that assumes one and does nothing else. -/
def assumed? : Command → Option Relation
  | [⟨name, [.bool cond]⟩] => if name = assumeName then some cond else none
  | _ => none

/-- Whether a command can change no variable: its parameters read the state before it only and hold
no symbolic leaf. -/
def isNop (c : Command) : Bool :=
  c.all fun p => p.params.all fun e =>
    !e.mentionsSymbolic && e.leaves.all (·.var.mark = .before)

/-- Checks that every variable of a command is declared at the type at which it is read. -/
def checkScope (c : Command) (scope : Scope) : Except Error Unit :=
  c.forM fun p => p.params.forM fun e => do
    let _ ← e.resolve scope.reader
    .ok ()

end Command

mutual

/-- Forgets the equalities that only fix the value of a symbolic leaf, where the expression claims
them: in conjunctions and in what implications conclude. -/
def BoolExpr.forgetSymbols {V : Type} : BoolExpr V → BoolExpr V
  | .eq l r => if l.isSymbolic || r.isSymbolic then .lit true else .eq l r
  | .conn .and es => .all (BoolExpr.forgetSymbolsAll es)
  | .implies l r =>
    match r.forgetSymbols with
    | .lit true => .lit true
    | r' => .implies l r'
  | e => e

/-- Forgets the equalities with symbolic leaves of each expression. -/
def BoolExpr.forgetSymbolsAll {V : Type} : List (BoolExpr V) → List (BoolExpr V)
  | [] => []
  | e :: es => e.forgetSymbols :: BoolExpr.forgetSymbolsAll es

end

/-- Symbolic equalities are forgotten operand by operand. -/
theorem BoolExpr.forgetSymbolsAll_eq {V : Type} (es : List (BoolExpr V)) :
    forgetSymbolsAll es = es.map forgetSymbols := by
  induction es with
  | nil => rfl
  | cons e es ih => simp [forgetSymbolsAll, ih]

end ViewLogic
