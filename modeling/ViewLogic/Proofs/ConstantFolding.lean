import ViewLogic.Expr.Simplify
import ViewLogic.Proofs.Meaning

/-!
# Folding constants keeps the meaning

Arithmetic on constants has a result only inside their range, and there it is the arithmetic of the
integers. So every fold has the value of the operation that it replaces, and folding an expression
from the leaves up keeps its value under every valuation. An operation on constants is folded if and
only if all its partial results are constants themselves.
-/

namespace ViewLogic

open Std (LawfulEqOrd)

variable {V : Type} (I : Interpretation) (ρ : Valuation V)

namespace Constant

/-- The constant of an integer is the one with its value. -/
theorem ofInt?_eq_some_iff {n : Int} {c : Constant} : ofInt? n = some c ↔ c.val = n := by
  unfold ofInt?
  constructor
  · intro h
    split at h
    · cases h
      rfl
    · cases h
  · rintro rfl
    exact dif_pos ⟨c.le_val, c.val_lt⟩

/-- A quotient of constants is Euclidean, and its divisor is not zero. -/
theorem div?_eq_some_iff {a b c : Constant} :
    a.div? b = some c ↔ b.val ≠ 0 ∧ c.val = a.val / b.val := by
  unfold div?
  split
  next hb => simp [hb]
  next hb => rw [ofInt?_eq_some_iff, and_iff_right hb]

/-- A folded quotient has the value that the interpretation gives to the division. -/
theorem val_of_div? {a b c : Constant} (h : a.div? b = some c) : c.val = I.div a.val b.val := by
  obtain ⟨hb, hval⟩ := div?_eq_some_iff.mp h
  rw [hval, Interpretation.div, if_neg hb]

/-- An integer is the value of a constant. -/
def InRange (n : Int) : Prop := ∃ c : Constant, c.val = n

/-- Constants are folded if and only if no partial result leaves their range, and then the result is
that of the integers. -/
theorem foldlM_compute?_eq_some_iff {op : ArithOp} {cs : List Constant} {a c : Constant} :
    cs.foldlM (compute? op) a = some c ↔
      (∀ n ∈ (cs.map val).scanl op.eval a.val, InRange n) ∧
        c.val = (cs.map val).foldl op.eval a.val := by
  induction cs generalizing a with
  | nil =>
    have ha : InRange a.val := ⟨a, rfl⟩
    simp [ha, eq_comm, ← val_inj]
  | cons b cs ih =>
    rw [List.foldlM_cons, List.map_cons, List.scanl_cons, List.forall_mem_cons, List.foldl_cons,
      Option.bind_eq_bind, Option.bind_eq_some_iff]
    constructor
    · rintro ⟨next, hnext, hrest⟩
      have hval : next.val = op.eval a.val b.val := ofInt?_eq_some_iff.mp hnext
      rw [← hval]
      obtain ⟨hpartial, hc⟩ := ih.mp hrest
      exact ⟨⟨⟨a, rfl⟩, hpartial⟩, hc⟩
    · rintro ⟨⟨-, hpartial⟩, hc⟩
      have hfirst : op.eval a.val b.val ∈ (cs.map val).scanl op.eval (op.eval a.val b.val) := by
        cases cs <;> simp
      obtain ⟨next, hval⟩ := hpartial _ hfirst
      rw [← hval] at hpartial hc
      exact ⟨next, ofInt?_eq_some_iff.mpr hval, ih.mpr ⟨hpartial, hc⟩⟩

/-- A folded operation has the value that the interpretation gives to it. -/
theorem val_of_fold? {op : ArithOp} {cs : List Constant} {c : Constant} (h : fold? op cs = some c) :
    c.val = I.arith op (cs.map val) := by
  cases cs with
  | nil => cases h
  | cons a cs =>
    rw [List.map_cons, I.arith_cons]
    exact (foldlM_compute?_eq_some_iff.mp h).2

end Constant

namespace IntExpr

/-- An expression that is a constant has its value under every valuation. -/
theorem eval_of_constant? {e : IntExpr V} {c : Constant} (h : e.constant? = some c) :
    e.eval I ρ = c.val := by
  unfold constant? at h
  split at h
  · cases h
    rfl
  · cases h

/-- Expressions that are constants have their values under every valuation. -/
theorem eval_of_constants? {es : List (IntExpr V)} {cs : List Constant}
    (h : constants? es = some cs) : es.map (eval I ρ) = cs.map Constant.val := by
  induction es generalizing cs with
  | nil =>
    cases h
    rfl
  | cons e es ih =>
    simp only [constants?, List.mapM_cons] at h
    obtain ⟨c, hc, h⟩ := Option.bind_eq_some_iff.mp h
    obtain ⟨cs', hcs, h⟩ := Option.bind_eq_some_iff.mp h
    cases h
    rw [List.map_cons, List.map_cons, eval_of_constant? I ρ hc, ih hcs]

/-- Folding an arithmetic operation keeps its value. -/
theorem eval_foldArith (op : ArithOp) (es : List (IntExpr V)) :
    (foldArith op es).eval I ρ = I.arith op (es.map (eval I ρ)) := by
  unfold foldArith
  split
  next c h =>
    obtain ⟨cs, hcs, hc⟩ := Option.bind_eq_some_iff.mp h
    rw [eval_of_constants? I ρ hcs, eval]
    exact Constant.val_of_fold? I hc
  next => rw [eval, evalAll_eq]

/-- Folding a division keeps its value. -/
theorem eval_foldDiv (l r : IntExpr V) :
    (foldDiv l r).eval I ρ = I.div (l.eval I ρ) (r.eval I ρ) := by
  unfold foldDiv
  split
  next a b =>
    split
    next c hc => exact Constant.val_of_div? I hc
    next => rfl
  next => rfl

/-- A list of constants is recognised as one. -/
theorem constants?_map_const (cs : List Constant) :
    constants? (cs.map const : List (IntExpr V)) = some cs := by
  induction cs with
  | nil => rfl
  | cons c cs ih =>
    rw [constants?] at ih ⊢
    rw [List.map_cons, List.mapM_cons, ih]
    rfl

section Constants

variable [Ord V] [LawfulEqOrd V]

/-- An operation on constants is folded if and only if every partial result is a constant. -/
theorem simplify_arith_eq_const_iff {op : ArithOp} {a c : Constant} {cs : List Constant} :
    (arith op ((a :: cs).map const) : IntExpr V).simplify = const c ↔
      (∀ n ∈ (cs.map Constant.val).scanl op.eval a.val, Constant.InRange n) ∧
        c.val = (cs.map Constant.val).foldl op.eval a.val := by
  have hoperands : ((a :: cs).map const : List (IntExpr V)).map simplify = (a :: cs).map const := by
    rw [List.map_map]
    exact List.map_congr_left fun c _ => by rw [Function.comp_apply, simplify]
  have hfold : (arith op ((a :: cs).map const) : IntExpr V).simplify = const c ↔
      cs.foldlM (Constant.compute? op) a = some c := by
    rw [simplify, simplifyAll_eq, hoperands, foldArith, constants?_map_const]
    simp only [Option.bind_eq_bind, Option.bind_some, Constant.fold?]
    split
    next c' hc' => simp [hc']
    next hnone => simp [hnone]
  rw [hfold, Constant.foldlM_compute?_eq_some_iff]

/-- A division of constants is folded if and only if the divisor is not zero and the quotient is a
constant. -/
theorem simplify_div_eq_const_iff {a b c : Constant} :
    (div (const a) (const b) : IntExpr V).simplify = const c ↔
      b.val ≠ 0 ∧ c.val = a.val / b.val := by
  rw [← Constant.div?_eq_some_iff, simplify, simplify, simplify, foldDiv]
  split
  next c' hc' => simp [hc']
  next hnone => simp [hnone]

end Constants

end IntExpr

namespace BoolExpr

/-- Folding a comparison keeps its truth. -/
theorem eval_foldCmp (op : Comparison) (l r : IntExpr V) :
    (foldCmp op l r).eval I ρ = op.truth (l.eval I ρ) (r.eval I ρ) := by
  unfold foldCmp
  split
  next a b => exact op.holds_eq_truth a.val b.val
  next => rfl

/-- Equal expressions have equal values, and constants are equal if their values are. -/
theorem eval_foldEq [Ord V] [LawfulEqOrd V] (l r : Expr V) :
    (foldEq l r).eval I ρ = I.eq (l.eval I ρ) (r.eval I ρ) := by
  unfold foldEq
  split
  next a b =>
    have hval : (a == b) = (a.val == b.val) := by
      rw [Bool.eq_iff_iff, beq_iff_eq, beq_iff_eq]
      exact Constant.val_inj.symm
    exact hval
  next a b => rfl
  next =>
    split
    next h =>
      rw [h.1]
      cases r <;> simp [eval, Expr.eval, Interpretation.eq]
    next => rfl

end BoolExpr

/-- Folding constants keeps the value of every expression. -/
theorem Expr.eval_simplify [Ord V] [LawfulEqOrd V] :
    (∀ e : IntExpr V, e.simplify.eval I ρ = e.eval I ρ) ∧
      (∀ e : BoolExpr V, e.simplify.eval I ρ = e.eval I ρ) ∧
      ∀ e : Expr V, e.simplify.eval I ρ = e.eval I ρ := by
  have hlist {α β : Type} {f : α → α} {g : α → β} {as : List α}
      (ih : ∀ a ∈ as, g (f a) = g a) : (as.map f).map g = as.map g := by
    rw [List.map_map]
    exact List.map_congr_left ih
  apply Expr.induct
  case const => intro c; rfl
  case intVar => intro v; rfl
  case intSym =>
    intro name args ih
    simp only [IntExpr.simplify, IntExpr.eval, Expr.simplifyAll_eq, Expr.evalAll_eq, hlist ih]
  case arith =>
    intro op es ih
    rw [IntExpr.simplify, IntExpr.eval_foldArith, IntExpr.simplifyAll_eq, hlist ih, IntExpr.eval,
      IntExpr.evalAll_eq]
  case div =>
    intro l r hl hr
    rw [IntExpr.simplify, IntExpr.eval_foldDiv, hl, hr, IntExpr.eval]
  case lit => intro b; rfl
  case boolVar => intro v; rfl
  case boolSym =>
    intro name args ih
    simp only [BoolExpr.simplify, BoolExpr.eval, Expr.simplifyAll_eq, Expr.evalAll_eq, hlist ih]
  case conn =>
    intro op es ih
    rw [BoolExpr.simplify, BoolExpr.eval_combine, BoolExpr.simplifyAll_eq, hlist ih, BoolExpr.eval,
      BoolExpr.evalAll_eq]
  case implies =>
    intro l r hl hr
    rw [BoolExpr.simplify, BoolExpr.eval_entails, hl, hr, BoolExpr.eval]
  case eq =>
    intro l r hl hr
    rw [BoolExpr.simplify, BoolExpr.eval_foldEq, hl, hr, BoolExpr.eval]
  case cmp =>
    intro op l r hl hr
    rw [BoolExpr.simplify, BoolExpr.eval_foldCmp, hl, hr, BoolExpr.eval]
  case not =>
    intro e he
    rw [BoolExpr.simplify, BoolExpr.eval_negate, he, BoolExpr.eval]
  case int | bool => intro e he; rw [Expr.simplify, Expr.eval, he, Expr.eval]

/-- Folding constants keeps the value of every expression, whatever the interpretation and the
valuation. No result is wrapped or cut off at the ends of the range: an operation on constants
becomes a constant if and only if every partial result is in range, and a division if and only if
the divisor is not zero and the quotient is in range. The constant then has the value that the
operation has on the integers. -/
theorem Expr.simplify_keeps_value [Ord V] [LawfulEqOrd V] :
    (∀ e : IntExpr V, e.simplify.eval I ρ = e.eval I ρ) ∧
      (∀ e : BoolExpr V, e.simplify.eval I ρ = e.eval I ρ) ∧
      (∀ (op : ArithOp) (a c : Constant) (cs : List Constant),
        (IntExpr.arith op ((a :: cs).map .const) : IntExpr V).simplify = .const c ↔
          (∀ n ∈ (cs.map Constant.val).scanl op.eval a.val, Constant.InRange n) ∧
            c.val = (cs.map Constant.val).foldl op.eval a.val) ∧
      ∀ a b c : Constant, (IntExpr.div (.const a) (.const b) : IntExpr V).simplify = .const c ↔
        b.val ≠ 0 ∧ c.val = a.val / b.val := by
  obtain ⟨hint, hbool, -⟩ := eval_simplify I ρ
  exact ⟨hint, hbool, fun _ _ _ _ => IntExpr.simplify_arith_eq_const_iff,
    fun _ _ _ => IntExpr.simplify_div_eq_const_iff⟩

/-- The greatest constant, one and minus one have a sum that is a constant, but the first partial
sum is none, so they are not folded. The quotient of the least constant by minus one is no constant
either. A quotient that is folded leaves no negative remainder. -/
theorem Expr.simplify_keeps_value_limits :
    let I : Interpretation := ⟨fun _ => 0, 0, fun _ _ => false, fun _ _ => 0, fun _ _ => false⟩
    let ρ : Valuation Var := ⟨fun _ => 0, fun _ => false⟩
    let least : Constant := ⟨-9223372036854775808, by decide, by decide⟩
    let greatest : Constant := ⟨9223372036854775807, by decide, by decide⟩
    let minusOne : Constant := ⟨-1, by decide, by decide⟩
    let minusSeven : Constant := ⟨-7, by decide, by decide⟩
    let two : Constant := ⟨2, by decide, by decide⟩
    let minusFour : Constant := ⟨-4, by decide, by decide⟩
    let sum : IntExpr Var := .arith .add [.const greatest, .const .one, .const minusOne]
    sum.simplify.eval I ρ = greatest.val ∧ (∀ c, sum.simplify ≠ .const c) ∧
      (∀ c, (IntExpr.div (.const least) (.const minusOne) : IntExpr Var).simplify ≠ .const c) ∧
      (IntExpr.div (.const minusSeven) (.const two) : IntExpr Var).simplify = .const minusFour := by
  intro I ρ least greatest minusOne minusSeven two minusFour sum
  obtain ⟨hint, -, harith, hdiv⟩ := simplify_keeps_value I ρ
  refine ⟨?_, fun c hc => ?_, fun c hc => ?_, ?_⟩
  · rw [hint]
    decide
  · obtain ⟨hpartial, -⟩ := (harith .add greatest c [.one, minusOne]).mp hc
    obtain ⟨k, hk⟩ := hpartial 9223372036854775808 (by decide)
    have hlt := k.val_lt
    omega
  · obtain ⟨-, hval⟩ := (hdiv least minusOne c).mp hc
    have hquotient : least.val / minusOne.val = 9223372036854775808 := by decide
    have hlt := c.val_lt
    omega
  · exact (hdiv minusSeven two minusFour).mpr ⟨by decide, by decide⟩

end ViewLogic
