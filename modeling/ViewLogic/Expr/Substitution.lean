import ViewLogic.Expr.Leaf

/-!
# Substitution

A substitution gives every variable an integer and a Boolean image, and the type at which a leaf is
read decides between them. The tree around the leaves keeps its shape. A visitor computes the
images, leaf by leaf from left to right. It may keep a state, and it may fail instead of giving an
image: a resolver is a visitor that can only fail, and the failure of an expression is that of its
first failing leaf.
-/

namespace ViewLogic

variable {V W X : Type} {m : Type → Type}

/-- The images of variables, by the type at which they are read. -/
structure Subst (V W : Type) where
  int : V → IntExpr W
  bool : V → BoolExpr W

/-- The computations of the images of variables, by the type at which they are read. -/
structure Visitor (m : Type → Type) (V W : Type) where
  int : V → m (IntExpr W)
  bool : V → m (BoolExpr W)

/-- The images of variables, where they have one. -/
abbrev Resolver (ε V W : Type) := Visitor (Except ε) V W

mutual

/-- Replaces every variable of an integer expression by its image. -/
def IntExpr.subst (σ : Subst V W) : IntExpr V → IntExpr W
  | .const c => .const c
  | .var v => σ.int v
  | .sym name args => .sym name (Expr.substAll σ args)
  | .arith op es => .arith op (IntExpr.substAll σ es)
  | .div l r => .div (l.subst σ) (r.subst σ)

/-- Replaces every variable of integer expressions by its image. -/
def IntExpr.substAll (σ : Subst V W) : List (IntExpr V) → List (IntExpr W)
  | [] => []
  | e :: es => e.subst σ :: IntExpr.substAll σ es

/-- Replaces every variable of a Boolean expression by its image. -/
def BoolExpr.subst (σ : Subst V W) : BoolExpr V → BoolExpr W
  | .lit b => .lit b
  | .var v => σ.bool v
  | .sym name args => .sym name (Expr.substAll σ args)
  | .conn op es => .conn op (BoolExpr.substAll σ es)
  | .implies l r => .implies (l.subst σ) (r.subst σ)
  | .eq l r => .eq (l.subst σ) (r.subst σ)
  | .cmp op l r => .cmp op (l.subst σ) (r.subst σ)
  | .not e => .not (e.subst σ)

/-- Replaces every variable of Boolean expressions by its image. -/
def BoolExpr.substAll (σ : Subst V W) : List (BoolExpr V) → List (BoolExpr W)
  | [] => []
  | e :: es => e.subst σ :: BoolExpr.substAll σ es

/-- Replaces every variable of an expression by its image. -/
def Expr.subst (σ : Subst V W) : Expr V → Expr W
  | .int e => .int (e.subst σ)
  | .bool e => .bool (e.subst σ)

/-- Replaces every variable of expressions by its image. -/
def Expr.substAll (σ : Subst V W) : List (Expr V) → List (Expr W)
  | [] => []
  | e :: es => e.subst σ :: Expr.substAll σ es

end

section Visitor

variable [Monad m]

mutual

/-- Replaces every variable of an integer expression by its computed image. -/
def IntExpr.resolve (ρ : Visitor m V W) : IntExpr V → m (IntExpr W)
  | .const c => pure (.const c)
  | .var v => ρ.int v
  | .sym name args => return .sym name (← Expr.resolveAll ρ args)
  | .arith op es => return .arith op (← IntExpr.resolveAll ρ es)
  | .div l r => return .div (← l.resolve ρ) (← r.resolve ρ)

/-- Replaces every variable of integer expressions by its computed image. -/
def IntExpr.resolveAll (ρ : Visitor m V W) : List (IntExpr V) → m (List (IntExpr W))
  | [] => pure []
  | e :: es => return (← e.resolve ρ) :: (← IntExpr.resolveAll ρ es)

/-- Replaces every variable of a Boolean expression by its computed image. -/
def BoolExpr.resolve (ρ : Visitor m V W) : BoolExpr V → m (BoolExpr W)
  | .lit b => pure (.lit b)
  | .var v => ρ.bool v
  | .sym name args => return .sym name (← Expr.resolveAll ρ args)
  | .conn op es => return .conn op (← BoolExpr.resolveAll ρ es)
  | .implies l r => return .implies (← l.resolve ρ) (← r.resolve ρ)
  | .eq l r => return .eq (← l.resolve ρ) (← r.resolve ρ)
  | .cmp op l r => return .cmp op (← l.resolve ρ) (← r.resolve ρ)
  | .not e => return .not (← e.resolve ρ)

/-- Replaces every variable of Boolean expressions by its computed image. -/
def BoolExpr.resolveAll (ρ : Visitor m V W) : List (BoolExpr V) → m (List (BoolExpr W))
  | [] => pure []
  | e :: es => return (← e.resolve ρ) :: (← BoolExpr.resolveAll ρ es)

/-- Replaces every variable of an expression by its computed image. -/
def Expr.resolve (ρ : Visitor m V W) : Expr V → m (Expr W)
  | .int e => return .int (← e.resolve ρ)
  | .bool e => return .bool (← e.resolve ρ)

/-- Replaces every variable of expressions by its computed image. -/
def Expr.resolveAll (ρ : Visitor m V W) : List (Expr V) → m (List (Expr W))
  | [] => pure []
  | e :: es => return (← e.resolve ρ) :: (← Expr.resolveAll ρ es)

end

end Visitor

namespace Subst

/-- The substitution that gives every variable another name. -/
def ofRename (f : V → W) : Subst V W := ⟨fun v => .var (f v), fun v => .var (f v)⟩

/-- First `σ`, then `τ` on the images. -/
def comp (σ : Subst V W) (τ : Subst W X) : Subst V X :=
  ⟨fun v => (σ.int v).subst τ, fun v => (σ.bool v).subst τ⟩

/-- The variables of the image of a leaf. -/
def imageLeaves (σ : Subst V W) (leaf : Leaf V) : List (Leaf W) :=
  match leaf.ty with
  | .int => (σ.int leaf.var).leaves
  | .bool => (σ.bool leaf.var).leaves

end Subst

/-- Renames the variables of an expression. -/
def Expr.rename (f : V → W) (e : Expr V) : Expr W := e.subst (.ofRename f)

/-- Renames the variables of a Boolean expression. -/
def BoolExpr.rename (f : V → W) (e : BoolExpr V) : BoolExpr W := e.subst (.ofRename f)

/-! ### Lists and leaves -/

/-- Images are substituted in each integer operand. -/
theorem IntExpr.substAll_eq (σ : Subst V W) (es : List (IntExpr V)) :
    substAll σ es = es.map (subst σ) := by
  induction es with
  | nil => rfl
  | cons e es ih => simp [substAll, ih]

/-- Images are substituted in each Boolean operand. -/
theorem BoolExpr.substAll_eq (σ : Subst V W) (es : List (BoolExpr V)) :
    substAll σ es = es.map (subst σ) := by
  induction es with
  | nil => rfl
  | cons e es ih => simp [substAll, ih]

/-- Images are substituted in each parameter. -/
theorem Expr.substAll_eq (σ : Subst V W) (es : List (Expr V)) :
    substAll σ es = es.map (subst σ) := by
  induction es with
  | nil => rfl
  | cons e es ih => simp [substAll, ih]

/-- The variables after a substitution are those of the images of the leaves, in order. -/
theorem Expr.leaves_subst (σ : Subst V W) :
    (∀ e : IntExpr V, (e.subst σ).leaves = e.leaves.flatMap σ.imageLeaves) ∧
      (∀ e : BoolExpr V, (e.subst σ).leaves = e.leaves.flatMap σ.imageLeaves) ∧
      ∀ e : Expr V, (e.subst σ).leaves = e.leaves.flatMap σ.imageLeaves := by
  have hlist {α β : Type} {f : α → β} {leaves : α → List (Leaf V)} {leaves' : β → List (Leaf W)}
      {as : List α} (h : ∀ a ∈ as, leaves' (f a) = (leaves a).flatMap σ.imageLeaves) :
      (as.map f).flatMap leaves' = (as.flatMap leaves).flatMap σ.imageLeaves := by
    induction as with
    | nil => rfl
    | cons a as ih =>
      simp only [List.mem_cons, forall_eq_or_imp] at h
      simp [h.1, ih h.2]
  apply Expr.induct
  case const => intro c; rfl
  case intVar => intro v; simp [IntExpr.subst, IntExpr.leaves, Subst.imageLeaves]
  case intSym =>
    intro name args ih
    simpa [IntExpr.subst, IntExpr.leaves, Expr.substAll_eq, Expr.leavesAll_eq] using hlist ih
  case arith =>
    intro op es ih
    simpa [IntExpr.subst, IntExpr.leaves, IntExpr.substAll_eq, IntExpr.leavesAll_eq] using hlist ih
  case div => intro l r hl hr; simp [IntExpr.subst, IntExpr.leaves, hl, hr]
  case lit => intro b; rfl
  case boolVar => intro v; simp [BoolExpr.subst, BoolExpr.leaves, Subst.imageLeaves]
  case boolSym =>
    intro name args ih
    simpa [BoolExpr.subst, BoolExpr.leaves, Expr.substAll_eq, Expr.leavesAll_eq] using hlist ih
  case conn =>
    intro op es ih
    simpa [BoolExpr.subst, BoolExpr.leaves, BoolExpr.substAll_eq, BoolExpr.leavesAll_eq]
      using hlist ih
  case implies | eq => intro l r hl hr; simp [BoolExpr.subst, BoolExpr.leaves, hl, hr]
  case cmp => intro op l r hl hr; simp [BoolExpr.subst, BoolExpr.leaves, hl, hr]
  case not => intro e he; simp [BoolExpr.subst, BoolExpr.leaves, he]
  case int | bool => intro e he; simp [Expr.subst, Expr.leaves, he]

end ViewLogic
