import ViewLogic.Backend

/-!
# SMT-LIB text

Writes formulas as terms of the SMT-LIB language, and whole scripts that ask whether a formula can
be satisfied. A marked variable becomes a quoted symbol. Symbolic leaves and differences of no
operands have no term.
-/

namespace ViewLogic

/-- A term: a symbol or a literal, or an operation applied to terms. -/
inductive SmtTerm where
  | leaf (text : String)
  | app (op : String) (args : List SmtTerm)

namespace SmtTerm

mutual

/-- The text of a term. -/
def render : SmtTerm → String
  | leaf text => text
  | app op args => "(" ++ op ++ " " ++ String.intercalate " " (renderAll args) ++ ")"

/-- The texts of terms. -/
def renderAll : List SmtTerm → List String
  | [] => []
  | t :: ts => t.render :: renderAll ts

end

/-- The symbol of a marked variable. -/
def ofVar (v : MarkedVar) : SmtTerm := leaf ("|" ++ v.render ++ "|")

/-- The term of a constant: a negative one is the negation of its absolute value. -/
def ofConstant (c : Constant) : SmtTerm :=
  if c.val < 0 then app "-" [leaf (toString c.val.natAbs)] else leaf (toString c.val)

/-- The error of a symbolic leaf. -/
def symbolicError (name : String) : Error :=
  .untranslatable ("symbolic term " ++ symbolText name ++ " has no SMT-LIB translation")

/-- The operation on terms. One operand stands for itself, and no operands for the value of an empty
sum or product. -/
def ofArith (op : ArithOp) : List SmtTerm → Except Error SmtTerm
  | [] =>
    match op with
    | .add => .ok (leaf "0")
    | .mul => .ok (leaf "1")
    | .sub => .error (.untranslatable "empty difference")
  | [t] => .ok t
  | ts => .ok (app op.sign ts)

/-- The connective of terms; without operands its unit. -/
def ofConn (op : Connective) (ts : List SmtTerm) : SmtTerm :=
  match op, ts with
  | .and, [] => leaf "true"
  | .or, [] => leaf "false"
  | .and, ts => app "and" ts
  | .or, ts => app "or" ts

end SmtTerm

mutual

/-- The term of an integer expression. -/
def IntExpr.smtTerm : IntExpr MarkedVar → Except Error SmtTerm
  | .const c => .ok (.ofConstant c)
  | .var v => .ok (.ofVar v)
  | .sym name _ => .error (SmtTerm.symbolicError name)
  | .arith op es => do SmtTerm.ofArith op (← IntExpr.smtTerms es)
  | .div l r => return .app "div" [← l.smtTerm, ← r.smtTerm]

/-- The terms of integer expressions. -/
def IntExpr.smtTerms : List (IntExpr MarkedVar) → Except Error (List SmtTerm)
  | [] => .ok []
  | e :: es => return (← e.smtTerm) :: (← IntExpr.smtTerms es)

/-- The term of a Boolean expression. -/
def BoolExpr.smtTerm : BoolExpr MarkedVar → Except Error SmtTerm
  | .lit b => .ok (.leaf (if b then "true" else "false"))
  | .var v => .ok (.ofVar v)
  | .sym name _ => .error (SmtTerm.symbolicError name)
  | .conn op es => return .ofConn op (← BoolExpr.smtTerms es)
  | .implies l r => return .app "=>" [← l.smtTerm, ← r.smtTerm]
  | .eq l r => return .app "=" [← l.smtTerm, ← r.smtTerm]
  | .cmp op l r => return .app op.sign [← l.smtTerm, ← r.smtTerm]
  | .not e => return .app "not" [← e.smtTerm]

/-- The terms of Boolean expressions. -/
def BoolExpr.smtTerms : List (BoolExpr MarkedVar) → Except Error (List SmtTerm)
  | [] => .ok []
  | e :: es => return (← e.smtTerm) :: (← BoolExpr.smtTerms es)

/-- The term of an expression. -/
def Expr.smtTerm : Expr MarkedVar → Except Error SmtTerm
  | .int e => e.smtTerm
  | .bool e => e.smtTerm

end

section Lists

attribute [local simp] IntExpr.smtTerm IntExpr.smtTerms BoolExpr.smtTerm BoolExpr.smtTerms
  Expr.smtTerm

/-- Integer operands are translated one after the other. -/
theorem IntExpr.smtTerms_eq (es : List (IntExpr MarkedVar)) : smtTerms es = es.mapM smtTerm := by
  induction es with
  | nil => rfl
  | cons e es ih => simp [ih]

/-- Boolean operands are translated one after the other. -/
theorem BoolExpr.smtTerms_eq (es : List (BoolExpr MarkedVar)) : smtTerms es = es.mapM smtTerm := by
  induction es with
  | nil => rfl
  | cons e es ih => simp [ih]

end Lists

namespace Relation

/-- The text of the term of a formula. -/
def smtText (e : Relation) : Except Error String := (BoolExpr.smtTerm e).map SmtTerm.render

/-- Declares a leaf, unless it is declared at the other type. -/
def declareLeaf (decls : SortedMap MarkedVar Ty) (leaf : Leaf MarkedVar) :
    Except Error (SortedMap MarkedVar Ty) :=
  match decls.get? leaf.var with
  | some ty =>
    if ty = leaf.ty then .ok decls
    else .error (.typeMismatch leaf.var.render ty.render leaf.ty.render)
  | none => .ok (decls.insert leaf.var leaf.ty)

/-- Declares a leaf beside the ones declared before it. -/
def record (leaf : Leaf MarkedVar) : StateT (SortedMap MarkedVar Ty) (Except Error) Unit := do
  set (← declareLeaf (← get) leaf)

/-- Declares every variable that is visited, and keeps it as it is. -/
def recorder : Visitor (StateT (SortedMap MarkedVar Ty) (Except Error)) MarkedVar MarkedVar where
  int v := do
    record ⟨.int, v⟩
    return .var v
  bool v := do
    record ⟨.bool, v⟩
    return .var v

/-- The types of the variables of a formula. The error is about the first leaf that is read at
another type than before. -/
def declarations (e : Relation) : Except Error (SortedMap MarkedVar Ty) := do
  let (_, decls) ← (BoolExpr.resolve recorder e).run ∅
  return decls

/-- The name of a type in a script. -/
def smtSort : Ty → String
  | .int => "Int"
  | .bool => "Bool"

/-- The line that declares a variable. -/
def declarationLine (v : MarkedVar) (ty : Ty) : String :=
  "(declare-const " ++ (SmtTerm.ofVar v).render ++ " " ++ smtSort ty ++ ")\n"

/-- The script that asks whether a formula can be satisfied. -/
def smtScript (e : Relation) : Except Error String := do
  let decls ← e.declarations
  let text ← e.smtText
  .ok ("(set-logic QF_NIA)\n" ++ String.join (decls.entries.map fun d => declarationLine d.1 d.2) ++
    "(assert " ++ text ++ ")\n(check-sat)\n")

end Relation

namespace Backend

/-- Conjoins texts of terms; one text stands for itself. -/
def joinTexts : List String → String
  | [] => "true"
  | [t] => t
  | ts => "(and " ++ String.intercalate " " ts ++ ")"

/-- The backend that writes terms and decides nothing. -/
def smtLib : Backend String where
  name := "smtlib"
  translate := Relation.smtText
  conjoin := joinTexts
  negate t := "(not " ++ t ++ ")"
  check _ := .ok (.unknown "no SMT backend attached")

end Backend

end ViewLogic
