import ViewLogic.Expr.Connective
import ViewLogic.Expr.Leaf
import ViewLogic.Expr.Order

/-!
# Constant folding

Folds constants from the leaves up. Arithmetic is folded when all its operands are constants and
every partial result is a constant, so nothing changes near the ends of the range. An equality of
two equal expressions is true unless they hold a symbolic leaf, which may have two values.
-/

namespace ViewLogic

open Std (LawfulEqOrd)

variable {V : Type}

/-- The constant that an expression is. -/
def IntExpr.constant? : IntExpr V → Option Constant
  | const c => some c
  | _ => none

/-- The constants that expressions are, if every one is a constant. -/
def IntExpr.constants? (es : List (IntExpr V)) : Option (List Constant) := es.mapM constant?

/-- Applies an operation to constants from left to right; there is no result for no constant. -/
def Constant.fold? (op : ArithOp) : List Constant → Option Constant
  | [] => none
  | c :: cs => cs.foldlM (compute? op) c

/-- The operation applied to constant operands, or the operation itself. -/
def IntExpr.foldArith (op : ArithOp) (es : List (IntExpr V)) : IntExpr V :=
  match constants? es >>= Constant.fold? op with
  | some c => const c
  | none => arith op es

/-- The quotient of constant operands, or the division itself. -/
def IntExpr.foldDiv : IntExpr V → IntExpr V → IntExpr V
  | l@(const a), r@(const b) =>
    match a.div? b with
    | some c => const c
    | none => div l r
  | l, r => div l r

/-- The truth of a comparison of constants, or the comparison itself. -/
def BoolExpr.foldCmp (op : Comparison) : IntExpr V → IntExpr V → BoolExpr V
  | .const a, .const b => lit (op.holds a.val b.val)
  | l, r => cmp op l r

/-- The truth of an equality that needs no variable's value, or the equality itself. -/
def BoolExpr.foldEq [Ord V] [LawfulEqOrd V] : Expr V → Expr V → BoolExpr V
  | .int (.const a), .int (.const b) => lit (a == b)
  | .bool (.lit a), .bool (.lit b) => lit (a == b)
  | l, r => if l = r ∧ l.mentionsSymbolic = false then lit true else eq l r

mutual

/-- Folds the constants of an integer expression. -/
def IntExpr.simplify [Ord V] [LawfulEqOrd V] : IntExpr V → IntExpr V
  | .const c => .const c
  | .var v => .var v
  | .sym name args => .sym name (Expr.simplifyAll args)
  | .arith op es => .foldArith op (IntExpr.simplifyAll es)
  | .div l r => .foldDiv l.simplify r.simplify

/-- Folds the constants of integer expressions. -/
def IntExpr.simplifyAll [Ord V] [LawfulEqOrd V] : List (IntExpr V) → List (IntExpr V)
  | [] => []
  | e :: es => e.simplify :: IntExpr.simplifyAll es

/-- Folds the constants of a Boolean expression. -/
def BoolExpr.simplify [Ord V] [LawfulEqOrd V] : BoolExpr V → BoolExpr V
  | .lit b => .lit b
  | .var v => .var v
  | .sym name args => .sym name (Expr.simplifyAll args)
  | .conn op es => .combine op (BoolExpr.simplifyAll es)
  | .implies l r => .entails l.simplify r.simplify
  | .eq l r => .foldEq l.simplify r.simplify
  | .cmp op l r => .foldCmp op l.simplify r.simplify
  | .not e => .negate e.simplify

/-- Folds the constants of Boolean expressions. -/
def BoolExpr.simplifyAll [Ord V] [LawfulEqOrd V] : List (BoolExpr V) → List (BoolExpr V)
  | [] => []
  | e :: es => e.simplify :: BoolExpr.simplifyAll es

/-- Folds the constants of an expression. -/
def Expr.simplify [Ord V] [LawfulEqOrd V] : Expr V → Expr V
  | .int e => .int e.simplify
  | .bool e => .bool e.simplify

/-- Folds the constants of expressions. -/
def Expr.simplifyAll [Ord V] [LawfulEqOrd V] : List (Expr V) → List (Expr V)
  | [] => []
  | e :: es => e.simplify :: Expr.simplifyAll es

end

/-! ### Folding reads no new variable -/

/-- A normalised connective reads no other leaves than its operands. -/
theorem BoolExpr.mem_leaves_of_combine {op : Connective} {es : List (BoolExpr V)} {leaf : Leaf V}
    (hleaf : leaf ∈ (combine op es).leaves) : leaf ∈ leavesAll es := by
  refine Classical.byContradiction fun hnot => ?_
  refine forall_combine (P := fun e => leaf ∉ e.leaves) ?_ ?_ ?_ hleaf
  · simp [leaves]
  · simp [leaves, leavesAll_eq]
  · simpa [leavesAll_eq] using hnot

/-- A normalised negation reads no other leaves than its operand. -/
theorem BoolExpr.mem_leaves_of_negate {e : BoolExpr V} {leaf : Leaf V}
    (hleaf : leaf ∈ e.negate.leaves) : leaf ∈ e.leaves := by
  unfold negate at hleaf
  split at hleaf
  · simp [leaves] at hleaf
  · simpa [leaves] using hleaf
  · simpa [leaves] using hleaf

/-- A normalised implication reads no other leaves than its two sides. -/
theorem BoolExpr.mem_leaves_of_entails {l r : BoolExpr V} {leaf : Leaf V}
    (hleaf : leaf ∈ (l.entails r).leaves) : leaf ∈ l.leaves ++ r.leaves := by
  unfold entails at hleaf
  split at hleaf
  · simp [leaves] at hleaf
  · simp [leaves] at hleaf
  · simp [hleaf]
  · simp [mem_leaves_of_negate hleaf]
  · simpa [leaves] using hleaf

/-- A folded arithmetic operation reads no other leaves than its operands. -/
theorem IntExpr.mem_leaves_of_foldArith {op : ArithOp} {es : List (IntExpr V)} {leaf : Leaf V}
    (hleaf : leaf ∈ (foldArith op es).leaves) : leaf ∈ leavesAll es := by
  unfold foldArith at hleaf
  split at hleaf
  · simp [leaves] at hleaf
  · exact hleaf

/-- A folded division reads no other leaves than its two sides. -/
theorem IntExpr.mem_leaves_of_foldDiv {l r : IntExpr V} {leaf : Leaf V}
    (hleaf : leaf ∈ (foldDiv l r).leaves) : leaf ∈ l.leaves ++ r.leaves := by
  unfold foldDiv at hleaf
  split at hleaf
  · split at hleaf <;> simp [leaves] at hleaf
  · exact hleaf

/-- A folded comparison reads no other leaves than its two sides. -/
theorem BoolExpr.mem_leaves_of_foldCmp {op : Comparison} {l r : IntExpr V} {leaf : Leaf V}
    (hleaf : leaf ∈ (foldCmp op l r).leaves) : leaf ∈ l.leaves ++ r.leaves := by
  unfold foldCmp at hleaf
  split at hleaf
  · simp [leaves] at hleaf
  · exact hleaf

section Leaves

variable [Ord V] [LawfulEqOrd V]

/-- A folded equality reads no other leaves than its two sides. -/
theorem BoolExpr.mem_leaves_of_foldEq {l r : Expr V} {leaf : Leaf V}
    (hleaf : leaf ∈ (foldEq l r).leaves) : leaf ∈ l.leaves ++ r.leaves := by
  unfold foldEq at hleaf
  split at hleaf
  · simp [leaves] at hleaf
  · simp [leaves] at hleaf
  · split at hleaf
    · simp [leaves] at hleaf
    · exact hleaf

/-- Integer operands are simplified one by one. -/
theorem IntExpr.simplifyAll_eq (es : List (IntExpr V)) : simplifyAll es = es.map simplify := by
  induction es with
  | nil => rfl
  | cons e es ih => simp [simplifyAll, ih]

/-- Boolean operands are simplified one by one. -/
theorem BoolExpr.simplifyAll_eq (es : List (BoolExpr V)) : simplifyAll es = es.map simplify := by
  induction es with
  | nil => rfl
  | cons e es ih => simp [simplifyAll, ih]

/-- Parameters are simplified one by one. -/
theorem Expr.simplifyAll_eq (es : List (Expr V)) : simplifyAll es = es.map simplify := by
  induction es with
  | nil => rfl
  | cons e es ih => simp [simplifyAll, ih]

/-- Folding constants reads no variable that was not read before, and at no other type. -/
theorem Expr.leaves_simplify_subset (leaf : Leaf V) :
    (∀ e : IntExpr V, leaf ∈ e.simplify.leaves → leaf ∈ e.leaves) ∧
      (∀ e : BoolExpr V, leaf ∈ e.simplify.leaves → leaf ∈ e.leaves) ∧
      ∀ e : Expr V, leaf ∈ e.simplify.leaves → leaf ∈ e.leaves := by
  have hlist {α : Type} {leaves : α → List (Leaf V)} {f : α → α} {as : List α}
      (h : ∀ a ∈ as, leaf ∈ leaves (f a) → leaf ∈ leaves a)
      (hleaf : leaf ∈ (as.map f).flatMap leaves) : leaf ∈ as.flatMap leaves := by
    simp only [List.mem_flatMap, List.mem_map] at hleaf ⊢
    obtain ⟨_, ⟨a, ha, rfl⟩, hleaf⟩ := hleaf
    exact ⟨a, ha, h a ha hleaf⟩
  have happend {as bs as' bs' : List (Leaf V)} (ha : leaf ∈ as' → leaf ∈ as)
      (hb : leaf ∈ bs' → leaf ∈ bs) (hleaf : leaf ∈ as' ++ bs') : leaf ∈ as ++ bs := by
    simp only [List.mem_append] at hleaf ⊢
    exact hleaf.imp ha hb
  apply Expr.induct
  case const => intro c h; exact h
  case intVar => intro v h; exact h
  case intSym =>
    intro name args ih h
    simp only [IntExpr.simplify, IntExpr.leaves, Expr.simplifyAll_eq, Expr.leavesAll_eq] at h ⊢
    exact hlist ih h
  case arith =>
    intro op es ih h
    have h := IntExpr.mem_leaves_of_foldArith h
    simp only [IntExpr.leaves, IntExpr.simplifyAll_eq, IntExpr.leavesAll_eq] at h ⊢
    exact hlist ih h
  case div =>
    intro l r hl hr h
    exact happend hl hr (IntExpr.mem_leaves_of_foldDiv h)
  case lit => intro b h; exact h
  case boolVar => intro v h; exact h
  case boolSym =>
    intro name args ih h
    simp only [BoolExpr.simplify, BoolExpr.leaves, Expr.simplifyAll_eq, Expr.leavesAll_eq] at h ⊢
    exact hlist ih h
  case conn =>
    intro op es ih h
    have h := BoolExpr.mem_leaves_of_combine h
    simp only [BoolExpr.leaves, BoolExpr.simplifyAll_eq, BoolExpr.leavesAll_eq] at h ⊢
    exact hlist ih h
  case implies =>
    intro l r hl hr h
    exact happend hl hr (BoolExpr.mem_leaves_of_entails h)
  case eq =>
    intro l r hl hr h
    exact happend hl hr (BoolExpr.mem_leaves_of_foldEq h)
  case cmp =>
    intro op l r hl hr h
    exact happend hl hr (BoolExpr.mem_leaves_of_foldCmp h)
  case not =>
    intro e he h
    exact he (BoolExpr.mem_leaves_of_negate h)
  case int | bool => intro e he h; exact he h

end Leaves

end ViewLogic
