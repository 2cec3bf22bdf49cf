import ViewLogic.Expr.Basic
import ViewLogic.Text

/-!
# The text of expressions

Every operation stands in parentheses with its sign between the operands. A symbolic leaf shows its
name in braces after a percent sign, and its arguments.
-/

namespace ViewLogic

variable {V : Type}

/-- The sign of an arithmetic operation. -/
def ArithOp.sign : ArithOp → String
  | add => "+"
  | sub => "-"
  | mul => "*"

/-- The sign of a connective. -/
def Connective.sign : Connective → String
  | and => "&&"
  | or => "||"

/-- The sign of a comparison. -/
def Comparison.sign : Comparison → String
  | gt => ">"
  | ge => ">="
  | le => "<="
  | lt => "<"

mutual

/-- The text of an integer expression. -/
def IntExpr.render [HasText V] : IntExpr V → String
  | .const c => toString c.val
  | .var v => text v
  | .sym name args => callText (symbolText name) (Expr.renderAll args)
  | .arith op es => infixText op.sign (IntExpr.renderAll es)
  | .div l r => infixText "/" [l.render, r.render]

/-- The texts of integer expressions. -/
def IntExpr.renderAll [HasText V] : List (IntExpr V) → List String
  | [] => []
  | e :: es => e.render :: IntExpr.renderAll es

/-- The text of a Boolean expression. -/
def BoolExpr.render [HasText V] : BoolExpr V → String
  | .lit b => toString b
  | .var v => text v
  | .sym name args => callText (symbolText name) (Expr.renderAll args)
  | .conn op es => infixText op.sign (BoolExpr.renderAll es)
  | .implies l r => infixText "=>" [l.render, r.render]
  | .eq l r => infixText "==" [l.render, r.render]
  | .cmp op l r => infixText op.sign [l.render, r.render]
  | .not e => "!" ++ e.render

/-- The texts of Boolean expressions. -/
def BoolExpr.renderAll [HasText V] : List (BoolExpr V) → List String
  | [] => []
  | e :: es => e.render :: BoolExpr.renderAll es

/-- The text of an expression. -/
def Expr.render [HasText V] : Expr V → String
  | .int e => e.render
  | .bool e => e.render

/-- The texts of expressions. -/
def Expr.renderAll [HasText V] : List (Expr V) → List String
  | [] => []
  | e :: es => e.render :: Expr.renderAll es

end

instance [HasText V] : HasText (Expr V) := ⟨Expr.render⟩

end ViewLogic
