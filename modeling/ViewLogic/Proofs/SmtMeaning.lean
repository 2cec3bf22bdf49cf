import ViewLogic.Proofs.Meaning
import ViewLogic.Proofs.SmtWriting

/-!
# The meaning of SMT-LIB terms

The value of a term, from the values of its quoted symbols. What the language leaves open, a
quotient by zero, and what it refuses, an equality between the two types, are taken from the
interpretation. The text that is written for an expression has the value of the expression, if every
symbol has the value of its variable.
-/

namespace ViewLogic

namespace Value

/-- The integer that a value is. -/
def int? : Value → Option Int
  | int n => some n
  | bool _ => none

/-- The truth value that a value is. -/
def bool? : Value → Option Bool
  | int _ => none
  | bool b => some b

end Value

namespace Smt

/-- The value of an operation, if the operator takes the operands. A minus sign with one operand is
negation; otherwise arithmetic takes two operands or more. -/
def Operator.apply (I : Interpretation) : Operator → List Value → Option Value
  | .arith .sub, [.int n] => some (.int (-n))
  | .arith op, vs => do
    match ← vs.mapM Value.int? with
    | n :: m :: ns => some (.int (I.arith op (n :: m :: ns)))
    | _ => none
  | .div, [.int a, .int b] => some (.int (I.div a b))
  | .conn op, vs => do
    match ← vs.mapM Value.bool? with
    | [] => none
    | bs => some (.bool (op.holds bs))
  | .implies, [.bool a, .bool b] => some (.bool (!a || b))
  | .eq, [a, b] => some (.bool (I.eq a b))
  | .cmp op, [.int a, .int b] => some (.bool (op.truth a b))
  | .not, [.bool b] => some (.bool (!b))
  | _, _ => none

/-- The value of a numeral or a Boolean constant. A numeral has no leading zeros. -/
def literal? (text : String) : Option Value :=
  if text = "true" then some (.bool true)
  else if text = "false" then some (.bool false)
  else
    let n := Nat.ofDigitChars 10 text.toList 0
    if toString n = text then some (.int n) else none

mutual

/-- The value of an expression, from the values of the quoted symbols. -/
def SExpr.eval (I : Interpretation) (σ : String → Value) : SExpr → Option Value
  | .quoted name => some (σ name)
  | .word text => literal? text
  | .list (.word op :: args) => do (← operator? op).apply I (← SExpr.evalAll I σ args)
  | .list _ => none

/-- The values of expressions. -/
def SExpr.evalAll (I : Interpretation) (σ : String → Value) : List SExpr → Option (List Value)
  | [] => some []
  | x :: xs => return (← x.eval I σ) :: (← SExpr.evalAll I σ xs)

end

/-- The value of a text. -/
def value? (I : Interpretation) (σ : String → Value) (text : String) : Option Value := do
  (← read? text).eval I σ

/-! ### Values of texts -/

variable {I : Interpretation} {σ : String → Value}

/-- A text is read as an expression with a value, wherever it stands. -/
def Denotes (I : Interpretation) (σ : String → Value) (text : String) (v : Value) : Prop :=
  ∃ x, Spells text x ∧ x.eval I σ = some v

/-- A text that denotes a value has that value. -/
theorem Denotes.value?_eq {text : String} {v : Value} (h : Denotes I σ text v) :
    value? I σ text = some v := by
  obtain ⟨x, hspells, hx⟩ := h
  simp [value?, hspells.read?_eq, hx]

/-- The operands of an operation are read as expressions with their values. -/
theorem exists_evalAll {texts : List String} {vs : List Value}
    (h : List.Forall₂ (Denotes I σ) texts vs) :
    ∃ xs, List.Forall₂ Spells texts xs ∧ SExpr.evalAll I σ xs = some vs := by
  induction h with
  | nil => exact ⟨[], .nil, rfl⟩
  | cons hhead _ ih =>
    obtain ⟨x, hspells, hx⟩ := hhead
    obtain ⟨xs, hspellsAll, hxs⟩ := ih
    exact ⟨x :: xs, .cons hspells hspellsAll, by simp [SExpr.evalAll, hx, hxs]⟩

/-- An application denotes the value of its operator at the values of its operands. -/
theorem denotes_app {op : String} {f : Operator} {ts : List SmtTerm} {vs : List Value} {v : Value}
    (hop : operator? op = some f)
    (hargs : List.Forall₂ (Denotes I σ) (SmtTerm.renderAll ts) vs) (hne : vs ≠ [])
    (hv : f.apply I vs = some v) : Denotes I σ (SmtTerm.app op ts).render v := by
  obtain ⟨xs, hspells, hxs⟩ := exists_evalAll hargs
  refine ⟨.list (.word op :: xs), ?_, ?_⟩
  · apply spells_app (spells_of_operator? hop) hspells
    intro hnil
    rw [hnil] at hargs
    cases hargs
    exact hne rfl
  · simp [SExpr.eval, hop, hxs, hv]

/-- A numeral denotes its number. -/
theorem denotes_numeral (n : Nat) : Denotes I σ (toString n) (.int n) := by
  refine ⟨.word (toString n), spells_numeral n, ?_⟩
  have htrue : toString n ≠ "true" := (ne_toString_of_any (by decide) n).symm
  have hfalse : toString n ≠ "false" := (ne_toString_of_any (by decide) n).symm
  rw [SExpr.eval, literal?, if_neg htrue, if_neg hfalse]
  simp

/-- A Boolean constant denotes its truth value. -/
theorem denotes_lit (b : Bool) : Denotes I σ (if b then "true" else "false") (.bool b) := by
  refine ⟨_, spells_lit b, ?_⟩
  cases b <;> rfl

/-- The text of an integer constant denotes its value, also if it is negative. -/
theorem denotes_constant (c : Constant) :
    Denotes I σ (SmtTerm.ofConstant c).render (.int c.val) := by
  unfold SmtTerm.ofConstant
  split
  next hneg =>
    refine denotes_app (f := .arith .sub) rfl (.cons (denotes_numeral c.val.natAbs) .nil)
      (List.cons_ne_nil _ _) ?_
    simp only [Operator.apply]
    congr 2
    omega
  next hnonneg =>
    obtain ⟨n, hn⟩ := Int.eq_ofNat_of_zero_le (Int.not_lt.mp hnonneg)
    rw [hn]
    exact denotes_numeral n

/-! ### Values of operations -/

/-- Integers among values are recognised as integers. -/
@[simp] theorem mapM_int? (ns : List Int) : ns.mapM (Value.int? ∘ Value.int) = some ns := by
  induction ns with
  | nil => rfl
  | cons n ns ih => simp [ih, Value.int?]

/-- Truth values among values are recognised as truth values. -/
@[simp] theorem mapM_bool? (bs : List Bool) : bs.mapM (Value.bool? ∘ Value.bool) = some bs := by
  induction bs with
  | nil => rfl
  | cons b bs ih => simp [ih, Value.bool?]

/-- An arithmetic operation on two integers or more. -/
theorem apply_arith (I : Interpretation) (op : ArithOp) (n m : Int) (ns : List Int) :
    (Operator.arith op).apply I ((n :: m :: ns).map .int) =
      some (.int (I.arith op (n :: m :: ns))) := by
  cases op <;> simp [Operator.apply, Value.int?, Interpretation.arith]

/-- A connective between one truth value or more. -/
theorem apply_conn (I : Interpretation) (op : Connective) (b : Bool) (bs : List Bool) :
    (Operator.conn op).apply I ((b :: bs).map .bool) = some (.bool (op.holds (b :: bs))) := by
  simp [Operator.apply, Value.bool?]

/-- The operator that is written for an expression gives the value of the expression. -/
theorem apply_operator? {V : Type} {ρ : Valuation V} {e : Expr V} {f : Operator}
    (hf : e.operator? = some f) :
    f.apply I (e.children.map (Expr.eval I ρ)) = some (e.eval I ρ) := by
  unfold Expr.operator? at hf
  split at hf
  case h_1 op e₁ e₂ es =>
    cases hf
    have hvalues : (Expr.int (.arith op (e₁ :: e₂ :: es))).children.map (Expr.eval I ρ) =
        (e₁.eval I ρ :: e₂.eval I ρ :: IntExpr.evalAll I ρ es).map .int := by
      simp [Expr.children, Expr.eval, IntExpr.evalAll_eq, Function.comp_def]
    rw [hvalues, apply_arith]
    rfl
  case h_3 op e es =>
    cases hf
    have hvalues : (Expr.bool (.conn op (e :: es))).children.map (Expr.eval I ρ) =
        (e.eval I ρ :: BoolExpr.evalAll I ρ es).map .bool := by
      simp [Expr.children, Expr.eval, BoolExpr.evalAll_eq, Function.comp_def]
    rw [hvalues, apply_conn]
    rfl
  case h_8 => cases hf
  all_goals
    cases hf
    rfl

end Smt

/-! ### Texts of expressions -/

open Smt

variable {I : Interpretation} {σ : String → Value} {ρ : Valuation MarkedVar}

/-- Texts with the values of the expressions keep to the rules, if every symbol has the value of its
variable. -/
theorem Smt.denotes_rules :
    WritingRules (fun leaf => Quotable leaf.var.name ∧ σ leaf.var.render = ρ.read leaf)
      (fun text e => Denotes I σ text (e.eval I ρ)) where
  const := denotes_constant
  lit := denotes_lit
  var ty v h := by
    refine ⟨.quoted v.render, spells_quoted (MarkedVar.quotable_render h.1), ?_⟩
    rw [SExpr.eval, h.2]
    cases ty <;> rfl
  sum := denotes_numeral 0
  product := denotes_numeral 1
  single op {text e} h := by
    have hvalue : (Expr.int (.arith op [e])).eval I ρ = (Expr.int e).eval I ρ :=
      congrArg Value.int (I.arith_cons op (e.eval I ρ) [])
    rwa [hvalue]
  unit op := by cases op <;> exact denotes_lit _
  app {e f ts} hf hargs := by
    have hvalues : List.Forall₂ (Denotes I σ) (SmtTerm.renderAll ts)
        (e.children.map (Expr.eval I ρ)) :=
      List.forall₂_map_right_iff.mpr hargs
    refine denotes_app (operator?_symbol f) hvalues ?_ (apply_operator? hf)
    simpa using Expr.children_ne_nil hf

/-- The text of an expression has the value of the expression. -/
theorem Expr.denotes_smtTerm :
    (∀ e : IntExpr MarkedVar, ∀ t, e.smtTerm = .ok t →
        (∀ leaf ∈ e.leaves, Quotable leaf.var.name ∧ σ leaf.var.render = ρ.read leaf) →
        Denotes I σ t.render (.int (e.eval I ρ))) ∧
      (∀ e : BoolExpr MarkedVar, ∀ t, e.smtTerm = .ok t →
        (∀ leaf ∈ e.leaves, Quotable leaf.var.name ∧ σ leaf.var.render = ρ.read leaf) →
        Denotes I σ t.render (.bool (e.eval I ρ))) ∧
      ∀ e : Expr MarkedVar, ∀ t, e.smtTerm = .ok t →
        (∀ leaf ∈ e.leaves, Quotable leaf.var.name ∧ σ leaf.var.render = ρ.read leaf) →
        Denotes I σ t.render (e.eval I ρ) :=
  denotes_rules.smtTerm

end ViewLogic
