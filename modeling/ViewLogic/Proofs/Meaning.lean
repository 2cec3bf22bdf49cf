import ViewLogic.Expr.Connective
import ViewLogic.Expr.Substitution

/-!
# The meaning of expressions

The value of an expression over unbounded integers, with Euclidean division, given the values of
its variables. What the operations leave open is fixed by an interpretation: a quotient by zero, the
difference of no operands, an equality between the two types and the symbolic leaves. The
normalising connectives and substitution are characterised here once, so that later proofs need not
look inside them.
-/

namespace ViewLogic

variable {ε V W : Type}

/-- The value of an expression of either type. -/
inductive Value where
  | int (n : Int)
  | bool (b : Bool)
deriving DecidableEq

/-- The values of the variables, by the type at which they are read. -/
@[ext]
structure Valuation (V : Type) where
  int : V → Int
  bool : V → Bool

/-- The values of what the operations leave open. -/
structure Interpretation where
  /-- The quotient of a dividend by zero. -/
  divZero : Int → Int
  /-- The difference of no operands. -/
  emptyDiff : Int
  /-- Whether values of different types count as equal. -/
  mixedEq : Value → Value → Bool
  /-- A symbolic leaf that is read as an integer. -/
  intSym : String → List Value → Int
  /-- A symbolic leaf that is read as a Boolean. -/
  boolSym : String → List Value → Bool

namespace Interpretation

/-- An arithmetic operation from left to right. No operands have the sum zero and the product
one. -/
def arith (I : Interpretation) : ArithOp → List Int → Int
  | .add, ns => ns.foldl (· + ·) 0
  | .sub, [] => I.emptyDiff
  | .sub, n :: ns => ns.foldl (· - ·) n
  | .mul, ns => ns.foldl (· * ·) 1

/-- On one operand or more, the operation of two integers is applied from left to right. -/
theorem arith_cons (I : Interpretation) (op : ArithOp) (n : Int) (ns : List Int) :
    I.arith op (n :: ns) = ns.foldl op.eval n := by
  cases op with
  | add => exact congrArg (ns.foldl (· + ·)) (Int.zero_add n)
  | sub => rfl
  | mul => exact congrArg (ns.foldl (· * ·)) (Int.one_mul n)

/-- Euclidean division. -/
def div (I : Interpretation) (a b : Int) : Int := if b = 0 then I.divZero a else a / b

/-- Equality of values. -/
def eq (I : Interpretation) : Value → Value → Bool
  | .int a, .int b => a == b
  | .bool a, .bool b => a == b
  | a, b => I.mixedEq a b

end Interpretation

/-- The truth of a comparison of integers. -/
def Comparison.truth : Comparison → Int → Int → Bool
  | gt, a, b => a > b
  | ge, a, b => a ≥ b
  | le, a, b => a ≤ b
  | lt, a, b => a < b

/-- A comparison holds between constants exactly if it is true of their values. -/
theorem Comparison.holds_eq_truth (op : Comparison) (a b : Int) : op.holds a b = op.truth a b := by
  cases op <;> rfl

/-- The truth of a connective between truth values. -/
def Connective.holds : Connective → List Bool → Bool
  | and, bs => bs.all id
  | or, bs => bs.any id

mutual

/-- The value of an integer expression. -/
def IntExpr.eval (I : Interpretation) (ρ : Valuation V) : IntExpr V → Int
  | .const c => c.val
  | .var v => ρ.int v
  | .sym name args => I.intSym name (Expr.evalAll I ρ args)
  | .arith op es => I.arith op (IntExpr.evalAll I ρ es)
  | .div l r => I.div (l.eval I ρ) (r.eval I ρ)

/-- The values of integer expressions. -/
def IntExpr.evalAll (I : Interpretation) (ρ : Valuation V) : List (IntExpr V) → List Int
  | [] => []
  | e :: es => e.eval I ρ :: IntExpr.evalAll I ρ es

/-- The truth of a Boolean expression. -/
def BoolExpr.eval (I : Interpretation) (ρ : Valuation V) : BoolExpr V → Bool
  | .lit b => b
  | .var v => ρ.bool v
  | .sym name args => I.boolSym name (Expr.evalAll I ρ args)
  | .conn op es => op.holds (BoolExpr.evalAll I ρ es)
  | .implies l r => !l.eval I ρ || r.eval I ρ
  | .eq l r => I.eq (l.eval I ρ) (r.eval I ρ)
  | .cmp op l r => op.truth (l.eval I ρ) (r.eval I ρ)
  | .not e => !e.eval I ρ

/-- The truth of Boolean expressions. -/
def BoolExpr.evalAll (I : Interpretation) (ρ : Valuation V) : List (BoolExpr V) → List Bool
  | [] => []
  | e :: es => e.eval I ρ :: BoolExpr.evalAll I ρ es

/-- The value of an expression. -/
def Expr.eval (I : Interpretation) (ρ : Valuation V) : Expr V → Value
  | .int e => .int (e.eval I ρ)
  | .bool e => .bool (e.eval I ρ)

/-- The values of expressions. -/
def Expr.evalAll (I : Interpretation) (ρ : Valuation V) : List (Expr V) → List Value
  | [] => []
  | e :: es => e.eval I ρ :: Expr.evalAll I ρ es

end

variable (I : Interpretation) (ρ : Valuation V)

section Lists

attribute [local simp] IntExpr.eval IntExpr.evalAll BoolExpr.eval BoolExpr.evalAll Expr.eval
  Expr.evalAll

/-- Integer operands are evaluated one by one. -/
theorem IntExpr.evalAll_eq (es : List (IntExpr V)) : evalAll I ρ es = es.map (eval I ρ) := by
  induction es with
  | nil => rfl
  | cons e es ih => simp [ih]

/-- Boolean operands are evaluated one by one. -/
theorem BoolExpr.evalAll_eq (es : List (BoolExpr V)) : evalAll I ρ es = es.map (eval I ρ) := by
  induction es with
  | nil => rfl
  | cons e es ih => simp [ih]

/-- Parameters are evaluated one by one. -/
theorem Expr.evalAll_eq (es : List (Expr V)) : evalAll I ρ es = es.map (eval I ρ) := by
  induction es with
  | nil => rfl
  | cons e es ih => simp [ih]

end Lists

/-! ### Normalising connectives -/

namespace Connective

/-- A connective of no operands has the truth of its unit. -/
@[simp] theorem holds_nil (op : Connective) : op.holds [] = op.unit := by cases op <;> rfl

/-- The unit of a connective can be left out. -/
@[simp] theorem holds_unit_cons (op : Connective) (bs : List Bool) :
    op.holds (op.unit :: bs) = op.holds bs := by cases op <;> simp [holds, unit]

/-- The negated unit of a connective decides it. -/
@[simp] theorem holds_not_unit_cons (op : Connective) (bs : List Bool) :
    op.holds ((!op.unit) :: bs) = !op.unit := by cases op <;> simp [holds, unit]

/-- A connective of one operand has the truth of that operand. -/
@[simp] theorem holds_singleton (op : Connective) (b : Bool) : op.holds [b] = b := by
  cases op <;> simp [holds]

/-- The truth of a connective depends on the truth of its later operands only as a whole. -/
theorem holds_cons_congr (op : Connective) (b : Bool) {bs cs : List Bool}
    (h : op.holds bs = op.holds cs) : op.holds (b :: bs) = op.holds (b :: cs) := by
  cases op <;> simp_all [holds]

/-- Operands that are themselves joined by the connective can be listed in its place. -/
theorem holds_append (op : Connective) (bs cs : List Bool) :
    op.holds (bs ++ cs) = op.holds (op.holds bs :: cs) := by
  cases op <;> simp [holds]

end Connective

namespace BoolExpr

/-- Leaving out units and flattening operands changes the truth of no connective, and an absorbing
operand decides it. -/
theorem holds_operands (op : Connective) (es : List (BoolExpr V)) :
    op.holds (es.map (eval I ρ)) =
      match operands op es with
      | none => !op.unit
      | some rest => op.holds (rest.map (eval I ρ)) := by
  have hcons (e : BoolExpr V) (es : List (BoolExpr V))
      (ih : op.holds (es.map (eval I ρ)) =
        match operands op es with
        | none => !op.unit
        | some rest => op.holds (rest.map (eval I ρ))) :
      op.holds ((e :: es).map (eval I ρ)) =
        match (operands op es).map (e :: ·) with
        | none => !op.unit
        | some rest => op.holds (rest.map (eval I ρ)) := by
    cases hrest : operands op es with
    | none =>
      rw [hrest] at ih
      rw [List.map_cons, op.holds_cons_congr _ (ih.trans (op.holds_singleton _).symm)]
      cases op <;> simp [Connective.holds, Connective.unit]
    | some rest =>
      rw [hrest] at ih
      exact op.holds_cons_congr _ ih
  fun_induction operands op es with
  | case1 => rfl
  | case2 es ih => rw [List.map_cons, eval, Connective.holds_unit_cons, ih]
  | case3 b es hb =>
    have hb' : b = !op.unit := by revert hb; cases b <;> cases op.unit <;> simp
    rw [List.map_cons, eval, hb', Connective.holds_not_unit_cons]
  | case4 op' fs es ih =>
    by_cases hop : op' = op
    · subst hop
      rw [hcons _ _ ih]
      cases operands op' es with
      | none => rfl
      | some rest =>
        simp only [Option.map_some, if_true, List.map_append, List.map_cons, eval, evalAll_eq]
        exact (op'.holds_append _ _).symm
    · simpa [hop] using hcons _ _ ih
  | case5 e es hlit hconn ih => exact hcons e es ih

/-- Joining expressions by a connective has the truth of the connective. -/
@[simp] theorem eval_combine (op : Connective) (es : List (BoolExpr V)) :
    (combine op es).eval I ρ = op.holds (es.map (eval I ρ)) := by
  have hoperands := holds_operands I ρ op es
  unfold combine
  split
  next h => simpa only [h, eval] using hoperands.symm
  next h => simpa only [h, eval, List.map_nil, Connective.holds_nil] using hoperands.symm
  next e h => simpa only [h, List.map_singleton, Connective.holds_singleton] using hoperands.symm
  next rest _ _ h => simpa only [h, eval, evalAll_eq] using hoperands.symm

/-- A conjunction is true if and only if every conjunct is. -/
theorem eval_all_eq_true {es : List (BoolExpr V)} :
    (all es).eval I ρ = true ↔ ∀ e ∈ es, e.eval I ρ = true := by
  simp [all, Connective.holds]

/-- A normalised negation is true exactly if its operand is false. -/
@[simp] theorem eval_negate (e : BoolExpr V) : e.negate.eval I ρ = !e.eval I ρ := by
  unfold negate
  split <;> simp [eval]

/-- A normalised implication is true exactly if its left side is false or its right side true. -/
@[simp] theorem eval_entails (l r : BoolExpr V) :
    (l.entails r).eval I ρ = (!l.eval I ρ || r.eval I ρ) := by
  unfold entails
  split <;> simp [eval]

end BoolExpr

/-! ### Substitution and the variables that are read -/

/-- The value of a variable at the type at which it is read. -/
def Valuation.read (ρ : Valuation V) (leaf : Leaf V) : Value :=
  match leaf.ty with
  | .int => .int (ρ.int leaf.var)
  | .bool => .bool (ρ.bool leaf.var)

/-- The image of a leaf under a substitution. -/
def Subst.image (σ : Subst V W) (leaf : Leaf V) : Expr W := (Expr.ofVar leaf.ty leaf.var).subst σ

/-- The value after a substitution is the value before it under a valuation that reads every leaf of
the expression as its image. -/
theorem Expr.eval_subst_of_reads (σ : Subst V W) (ρ : Valuation W) (s : Valuation V) :
    (∀ e : IntExpr V, (∀ leaf ∈ e.leaves, s.read leaf = (σ.image leaf).eval I ρ) →
        (e.subst σ).eval I ρ = e.eval I s) ∧
      (∀ e : BoolExpr V, (∀ leaf ∈ e.leaves, s.read leaf = (σ.image leaf).eval I ρ) →
        (e.subst σ).eval I ρ = e.eval I s) ∧
      ∀ e : Expr V, (∀ leaf ∈ e.leaves, s.read leaf = (σ.image leaf).eval I ρ) →
        (e.subst σ).eval I ρ = e.eval I s := by
  have hlist {α β γ : Type} {leaves : α → List (Leaf V)} {f : α → β} {g : β → γ} {h : α → γ}
      {as : List α}
      (ih : ∀ a ∈ as, (∀ leaf ∈ leaves a, s.read leaf = (σ.image leaf).eval I ρ) → g (f a) = h a)
      (hreads : ∀ leaf ∈ as.flatMap leaves, s.read leaf = (σ.image leaf).eval I ρ) :
      (as.map f).map g = as.map h := by
    rw [List.map_map]
    apply List.map_congr_left
    intro a ha
    exact ih a ha fun leaf hleaf => hreads leaf (List.mem_flatMap.mpr ⟨a, ha, hleaf⟩)
  have hpair {as bs : List (Leaf V)}
      (hreads : ∀ leaf ∈ as ++ bs, s.read leaf = (σ.image leaf).eval I ρ) :
      (∀ leaf ∈ as, s.read leaf = (σ.image leaf).eval I ρ) ∧
        ∀ leaf ∈ bs, s.read leaf = (σ.image leaf).eval I ρ :=
    List.forall_mem_append.mp hreads
  apply Expr.induct
  case const => intro c _; rfl
  case intVar =>
    intro v h
    exact (Value.int.inj (h ⟨.int, v⟩ (by simp [IntExpr.leaves]))).symm
  case intSym =>
    intro name args ih h
    rw [IntExpr.leaves, Expr.leavesAll_eq] at h
    simp only [IntExpr.subst, IntExpr.eval, Expr.substAll_eq, Expr.evalAll_eq, hlist ih h]
  case arith =>
    intro op es ih h
    rw [IntExpr.leaves, IntExpr.leavesAll_eq] at h
    simp only [IntExpr.subst, IntExpr.eval, IntExpr.substAll_eq, IntExpr.evalAll_eq, hlist ih h]
  case div =>
    intro l r hl hr h
    simp only [IntExpr.subst, IntExpr.eval, hl (hpair h).1, hr (hpair h).2]
  case lit => intro b _; rfl
  case boolVar =>
    intro v h
    exact (Value.bool.inj (h ⟨.bool, v⟩ (by simp [BoolExpr.leaves]))).symm
  case boolSym =>
    intro name args ih h
    rw [BoolExpr.leaves, Expr.leavesAll_eq] at h
    simp only [BoolExpr.subst, BoolExpr.eval, Expr.substAll_eq, Expr.evalAll_eq, hlist ih h]
  case conn =>
    intro op es ih h
    rw [BoolExpr.leaves, BoolExpr.leavesAll_eq] at h
    simp only [BoolExpr.subst, BoolExpr.eval, BoolExpr.substAll_eq, BoolExpr.evalAll_eq,
      hlist ih h]
  case implies | eq =>
    intro l r hl hr h
    simp only [BoolExpr.subst, BoolExpr.eval, hl (hpair h).1, hr (hpair h).2]
  case cmp =>
    intro op l r hl hr h
    simp only [BoolExpr.subst, BoolExpr.eval, hl (hpair h).1, hr (hpair h).2]
  case not => intro e he h; simp only [BoolExpr.subst, BoolExpr.eval, he h]
  case int | bool => intro e he h; simp only [Expr.subst, Expr.eval, he h]

/-- The values of the images of variables. -/
def Subst.pull (σ : Subst V W) (ρ : Valuation W) : Valuation V :=
  ⟨fun v => (σ.int v).eval I ρ, fun v => (σ.bool v).eval I ρ⟩

/-- Under the valuation pulled back along a substitution, a leaf has the value of its image. -/
theorem Subst.read_pull (σ : Subst V W) (ρ : Valuation W) (leaf : Leaf V) :
    (σ.pull I ρ).read leaf = (σ.image leaf).eval I ρ := by
  obtain ⟨ty, v⟩ := leaf
  cases ty <;> rfl

/-- The value after a substitution is the value before it with every variable read as its image. -/
theorem Expr.eval_subst (σ : Subst V W) (ρ : Valuation W) :
    (∀ e : IntExpr V, (e.subst σ).eval I ρ = e.eval I (σ.pull I ρ)) ∧
      (∀ e : BoolExpr V, (e.subst σ).eval I ρ = e.eval I (σ.pull I ρ)) ∧
      ∀ e : Expr V, (e.subst σ).eval I ρ = e.eval I (σ.pull I ρ) := by
  obtain ⟨hint, hbool, hexpr⟩ := eval_subst_of_reads I σ ρ (σ.pull I ρ)
  exact ⟨fun e => hint e fun leaf _ => σ.read_pull I ρ leaf,
    fun e => hbool e fun leaf _ => σ.read_pull I ρ leaf,
    fun e => hexpr e fun leaf _ => σ.read_pull I ρ leaf⟩

/-- The value of an expression depends on its own leaves only. -/
theorem Expr.eval_congr (ρ ρ' : Valuation V) :
    (∀ e : IntExpr V, (∀ leaf ∈ e.leaves, ρ.read leaf = ρ'.read leaf) →
        e.eval I ρ = e.eval I ρ') ∧
      (∀ e : BoolExpr V, (∀ leaf ∈ e.leaves, ρ.read leaf = ρ'.read leaf) →
        e.eval I ρ = e.eval I ρ') ∧
      ∀ e : Expr V, (∀ leaf ∈ e.leaves, ρ.read leaf = ρ'.read leaf) →
        e.eval I ρ = e.eval I ρ' := by
  -- Both are the value under `ρ` of the expression with every variable put in for itself.
  have hkept (leaf : Leaf V) : ρ.read leaf = ((Subst.ofRename id).image leaf).eval I ρ := by
    obtain ⟨ty, v⟩ := leaf
    cases ty <;> rfl
  obtain ⟨hint, hbool, hexpr⟩ := eval_subst_of_reads I (.ofRename id) ρ ρ
  obtain ⟨hint', hbool', hexpr'⟩ := eval_subst_of_reads I (.ofRename id) ρ ρ'
  refine ⟨fun e h => ?_, fun e h => ?_, fun e h => ?_⟩
  · rw [← hint e fun leaf _ => hkept leaf]
    exact hint' e fun leaf hleaf => (h leaf hleaf).symm.trans (hkept leaf)
  · rw [← hbool e fun leaf _ => hkept leaf]
    exact hbool' e fun leaf hleaf => (h leaf hleaf).symm.trans (hkept leaf)
  · rw [← hexpr e fun leaf _ => hkept leaf]
    exact hexpr' e fun leaf hleaf => (h leaf hleaf).symm.trans (hkept leaf)

end ViewLogic
