import ViewLogic.Expr.Connective
import ViewLogic.Expr.Substitution

/-!
# Relations between states

A relation is a Boolean expression over marked variables. Two relations are composed by naming the
state between them: a fresh intermediate stage, beyond the stages of the first relation, and below
those of the second once they are moved up.
-/

namespace ViewLogic

/-- A relation between the state before a command and the state after it. -/
abbrev Relation := BoolExpr MarkedVar

/-- Moves an intermediate variable up by a number of stages. -/
def MarkedVar.bump (k : Stage) (v : MarkedVar) : MarkedVar :=
  match v.mark with
  | .intermediate n => ⟨.intermediate (n.add k), v.name⟩
  | _ => v

/-- Reads the variables of one moment at another moment. -/
def MarkedVar.retime (old new : Mark) (v : MarkedVar) : MarkedVar :=
  if v.mark = old then ⟨new, v.name⟩ else v

/-- The least stage after all stages of a list of leaves. -/
def nextStageOf (leaves : List (Leaf MarkedVar)) : Stage :=
  leaves.foldl (fun s leaf =>
    match leaf.var.mark with
    | .intermediate n => s.max n.next
    | _ => s) .zero

/-- The least stage after all stages of an integer expression. -/
def IntExpr.nextStage (e : IntExpr MarkedVar) : Stage := nextStageOf e.leaves

/-- The least stage after all stages of a Boolean expression. -/
def BoolExpr.nextStage (e : BoolExpr MarkedVar) : Stage := nextStageOf e.leaves

/-- The least stage after all stages of an expression. -/
def Expr.nextStage (e : Expr MarkedVar) : Stage := nextStageOf e.leaves

/-- Marks every variable of a Boolean expression. -/
def BoolExpr.mark (m : Mark) (e : BoolExpr Var) : BoolExpr MarkedVar := e.rename (⟨m, ·⟩)

/-- Marks every variable of an expression. -/
def Expr.mark (m : Mark) (e : Expr Var) : Expr MarkedVar := e.rename (⟨m, ·⟩)

namespace Relation

/-- Moves every intermediate variable up by a number of stages. -/
def bump (k : Stage) (r : Relation) : Relation := r.rename (.bump k)

/-- The first relation followed by the second one, through a fresh stage. -/
def compose (first second : Relation) : Relation :=
  let mid := first.nextStage
  BoolExpr.all
    [first.rename (.retime .after (.intermediate mid)),
      (bump mid.next second).rename (.retime .before (.intermediate mid))]

end Relation

end ViewLogic
