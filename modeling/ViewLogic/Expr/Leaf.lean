import ViewLogic.Expr.Basic

/-!
# Leaves

The variables of an expression, each with the type at which it is read, from left to right and
inside the arguments of symbolic leaves; and whether an expression is or holds a symbolic leaf.
-/

namespace ViewLogic

variable {V : Type}

/-- A variable read at a type. -/
structure Leaf (V : Type) where
  ty : Ty
  var : V
deriving DecidableEq

mutual

/-- The variables of an integer expression, from left to right. -/
def IntExpr.leaves : IntExpr V → List (Leaf V)
  | .const _ => []
  | .var v => [⟨.int, v⟩]
  | .sym _ args => Expr.leavesAll args
  | .arith _ es => IntExpr.leavesAll es
  | .div l r => l.leaves ++ r.leaves

/-- The variables of a list of integer expressions. -/
def IntExpr.leavesAll : List (IntExpr V) → List (Leaf V)
  | [] => []
  | e :: es => e.leaves ++ IntExpr.leavesAll es

/-- The variables of a Boolean expression, from left to right. -/
def BoolExpr.leaves : BoolExpr V → List (Leaf V)
  | .lit _ => []
  | .var v => [⟨.bool, v⟩]
  | .sym _ args => Expr.leavesAll args
  | .conn _ es => BoolExpr.leavesAll es
  | .implies l r => l.leaves ++ r.leaves
  | .eq l r => l.leaves ++ r.leaves
  | .cmp _ l r => l.leaves ++ r.leaves
  | .not e => e.leaves

/-- The variables of a list of Boolean expressions. -/
def BoolExpr.leavesAll : List (BoolExpr V) → List (Leaf V)
  | [] => []
  | e :: es => e.leaves ++ BoolExpr.leavesAll es

/-- The variables of an expression, from left to right. -/
def Expr.leaves : Expr V → List (Leaf V)
  | .int e => e.leaves
  | .bool e => e.leaves

/-- The variables of a list of expressions. -/
def Expr.leavesAll : List (Expr V) → List (Leaf V)
  | [] => []
  | e :: es => e.leaves ++ Expr.leavesAll es

end

section Lists

attribute [local simp] IntExpr.leaves IntExpr.leavesAll BoolExpr.leaves BoolExpr.leavesAll
  Expr.leaves Expr.leavesAll

/-- The leaves of integer operands are those of each operand in order. -/
theorem IntExpr.leavesAll_eq (es : List (IntExpr V)) : leavesAll es = es.flatMap leaves := by
  induction es with
  | nil => rfl
  | cons e es ih => simp [ih]

/-- The leaves of Boolean operands are those of each operand in order. -/
theorem BoolExpr.leavesAll_eq (es : List (BoolExpr V)) : leavesAll es = es.flatMap leaves := by
  induction es with
  | nil => rfl
  | cons e es ih => simp [ih]

/-- The leaves of a list of parameters are those of each parameter in order. -/
theorem Expr.leavesAll_eq (es : List (Expr V)) : leavesAll es = es.flatMap leaves := by
  induction es with
  | nil => rfl
  | cons e es ih => simp [ih]

end Lists

mutual

/-- Whether an integer expression holds a symbolic leaf. -/
def IntExpr.mentionsSymbolic : IntExpr V → Bool
  | .const _ | .var _ => false
  | .sym _ _ => true
  | .arith _ es => IntExpr.anySymbolic es
  | .div l r => l.mentionsSymbolic || r.mentionsSymbolic

/-- Whether one of a list of integer expressions holds a symbolic leaf. -/
def IntExpr.anySymbolic : List (IntExpr V) → Bool
  | [] => false
  | e :: es => e.mentionsSymbolic || IntExpr.anySymbolic es

/-- Whether a Boolean expression holds a symbolic leaf. -/
def BoolExpr.mentionsSymbolic : BoolExpr V → Bool
  | .lit _ | .var _ => false
  | .sym _ _ => true
  | .conn _ es => BoolExpr.anySymbolic es
  | .implies l r => l.mentionsSymbolic || r.mentionsSymbolic
  | .eq l r => l.mentionsSymbolic || r.mentionsSymbolic
  | .cmp _ l r => l.mentionsSymbolic || r.mentionsSymbolic
  | .not e => e.mentionsSymbolic

/-- Whether one of a list of Boolean expressions holds a symbolic leaf. -/
def BoolExpr.anySymbolic : List (BoolExpr V) → Bool
  | [] => false
  | e :: es => e.mentionsSymbolic || BoolExpr.anySymbolic es

/-- Whether an expression holds a symbolic leaf. -/
def Expr.mentionsSymbolic : Expr V → Bool
  | .int e => e.mentionsSymbolic
  | .bool e => e.mentionsSymbolic

end

section SymbolicLists

attribute [local simp] IntExpr.mentionsSymbolic IntExpr.anySymbolic BoolExpr.mentionsSymbolic
  BoolExpr.anySymbolic Expr.mentionsSymbolic

/-- Integer operands mention a symbolic leaf if one of them does. -/
theorem IntExpr.anySymbolic_eq (es : List (IntExpr V)) :
    anySymbolic es = es.any mentionsSymbolic := by
  induction es with
  | nil => rfl
  | cons e es ih => simp [ih]

/-- Boolean operands mention a symbolic leaf if one of them does. -/
theorem BoolExpr.anySymbolic_eq (es : List (BoolExpr V)) :
    anySymbolic es = es.any mentionsSymbolic := by
  induction es with
  | nil => rfl
  | cons e es ih => simp [ih]

end SymbolicLists

/-- Whether an expression is itself a symbolic leaf. -/
def Expr.isSymbolic : Expr V → Bool
  | int (.sym _ _) | bool (.sym _ _) => true
  | _ => false

end ViewLogic
