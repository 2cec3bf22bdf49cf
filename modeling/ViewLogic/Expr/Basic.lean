import ViewLogic.Expr.Constant
import ViewLogic.Variable

/-!
# Expressions

Integer and Boolean expressions over variables of a type `V`. Beside the usual operations there are
symbolic leaves, whose meaning is left open: a name applied to expressions of either type.
Proofs about all expressions go through `Expr.induct`, which gives the hypothesis for every member
of an operand list, or through `BoolExpr.induct` if they only look at the Boolean part.
-/

namespace ViewLogic

/-- The connectives that take any number of operands. -/
inductive Connective where
  | and
  | or
deriving DecidableEq

mutual

/-- An integer expression. -/
inductive IntExpr (V : Type) where
  | const (c : Constant)
  | var (v : V)
  | sym (name : String) (args : List (Expr V))
  | arith (op : ArithOp) (es : List (IntExpr V))
  | div (l r : IntExpr V)

/-- A Boolean expression. -/
inductive BoolExpr (V : Type) where
  | lit (b : Bool)
  | var (v : V)
  | sym (name : String) (args : List (Expr V))
  | conn (op : Connective) (es : List (BoolExpr V))
  | implies (l r : BoolExpr V)
  | eq (l r : Expr V)
  | cmp (op : Comparison) (l r : IntExpr V)
  | not (e : BoolExpr V)

/-- An expression of either type. -/
inductive Expr (V : Type) where
  | int (e : IntExpr V)
  | bool (e : BoolExpr V)

end

variable {V : Type}

instance : Inhabited (BoolExpr V) := ⟨.lit true⟩

/-- Whether a Boolean expression is the literal `b`. -/
def BoolExpr.isLit (b : Bool) : BoolExpr V → Bool
  | lit b' => b == b'
  | _ => false

namespace Expr

/-- The type of an expression. -/
def ty : Expr V → Ty
  | int _ => .int
  | bool _ => .bool

/-- The expression that reads a variable at a type. -/
def ofVar : Ty → V → Expr V
  | .int, v => int (.var v)
  | .bool, v => bool (.var v)

/-- Induction on expressions, with the hypothesis for every member of an operand list. -/
theorem induct {P : IntExpr V → Prop} {Q : BoolExpr V → Prop} {R : Expr V → Prop}
    (const : ∀ c, P (.const c)) (intVar : ∀ v, P (.var v))
    (intSym : ∀ name args, (∀ a ∈ args, R a) → P (.sym name args))
    (arith : ∀ op es, (∀ e ∈ es, P e) → P (.arith op es))
    (div : ∀ l r, P l → P r → P (.div l r))
    (lit : ∀ b, Q (.lit b)) (boolVar : ∀ v, Q (.var v))
    (boolSym : ∀ name args, (∀ a ∈ args, R a) → Q (.sym name args))
    (conn : ∀ op es, (∀ e ∈ es, Q e) → Q (.conn op es))
    (implies : ∀ l r, Q l → Q r → Q (.implies l r))
    (eq : ∀ l r, R l → R r → Q (.eq l r))
    (cmp : ∀ op l r, P l → P r → Q (.cmp op l r))
    (not : ∀ e, Q e → Q (.not e))
    (int : ∀ e, P e → R (.int e)) (bool : ∀ e, Q e → R (.bool e)) :
    (∀ e, P e) ∧ (∀ e, Q e) ∧ ∀ e, R e := by
  have hnil {α : Type} {S : α → Prop} : ∀ a ∈ ([] : List α), S a := by simp
  have hcons {α : Type} {S : α → Prop} (a : α) (as : List α) (ha : S a) (has : ∀ a ∈ as, S a) :
      ∀ b ∈ a :: as, S b := by simpa using ⟨ha, has⟩
  have hint : ∀ e, P e :=
    @IntExpr.rec V P Q R (fun as => ∀ a ∈ as, R a) (fun es => ∀ e ∈ es, P e)
      (fun es => ∀ e ∈ es, Q e) const intVar intSym arith div lit boolVar boolSym conn implies eq
      cmp not int bool hnil hcons hnil hcons hnil hcons
  have hbool : ∀ e, Q e :=
    @BoolExpr.rec V P Q R (fun as => ∀ a ∈ as, R a) (fun es => ∀ e ∈ es, P e)
      (fun es => ∀ e ∈ es, Q e) const intVar intSym arith div lit boolVar boolSym conn implies eq
      cmp not int bool hnil hcons hnil hcons hnil hcons
  exact ⟨hint, hbool, fun
    | .int e => int e (hint e)
    | .bool e => bool e (hbool e)⟩

end Expr

/-- Induction on the Boolean part of an expression: equalities, comparisons and symbolic leaves are
not looked into. -/
theorem BoolExpr.induct {Q : BoolExpr V → Prop} (lit : ∀ b, Q (.lit b)) (var : ∀ v, Q (.var v))
    (sym : ∀ name args, Q (.sym name args))
    (conn : ∀ op es, (∀ e ∈ es, Q e) → Q (.conn op es))
    (implies : ∀ l r, Q l → Q r → Q (.implies l r)) (eq : ∀ l r, Q (.eq l r))
    (cmp : ∀ op l r, Q (.cmp op l r)) (not : ∀ e, Q e → Q (.not e)) (e : BoolExpr V) : Q e := by
  refine (Expr.induct (P := fun _ => True) (R := fun _ => True) ?_ ?_ ?_ ?_ ?_ lit var
    (fun name args _ => sym name args) conn implies (fun l r _ _ => eq l r)
    (fun op l r _ _ => cmp op l r) not ?_ ?_).2.1 e
  all_goals
    intros
    trivial

end ViewLogic
