import ViewLogic.Proofs.Meaning
import ViewLogic.Proofs.Outcomes

/-!
# Resolving variables

A visitor that looks at a leaf and then gives it a fixed image looks at all the leaves of an
expression from left to right and then substitutes their images. A resolver is such a visitor: it
fails with the first leaf that has no image. If every leaf has one, resolving is a substitution. So
the value of a resolved expression is that of the expression under any valuation that agrees with
the images.
-/

namespace ViewLogic

variable {ε V W : Type}

/-! ### Visiting leaves -/

/-- A visitor looks at a leaf, and then gives it the image of a substitution. -/
structure Visitor.Looks {m : Type → Type} [Monad m] (ρ : Visitor m V W) (look : Leaf V → m Unit)
    (σ : Subst V W) : Prop where
  int (v : V) : ρ.int v = do look ⟨.int, v⟩; return σ.int v
  bool (v : V) : ρ.bool v = do look ⟨.bool, v⟩; return σ.bool v

section Visitor

variable {m : Type → Type} [Monad m] [LawfulMonad m] {look : Leaf V → m Unit}

/-- Integer operands are visited one after the other. -/
theorem IntExpr.resolveAll_eq (ρ : Visitor m V W) (es : List (IntExpr V)) :
    resolveAll ρ es = es.mapM (resolve ρ) := by
  induction es with
  | nil => rfl
  | cons e es ih => rw [resolveAll, List.mapM_cons, ih]

/-- Boolean operands are visited one after the other. -/
theorem BoolExpr.resolveAll_eq (ρ : Visitor m V W) (es : List (BoolExpr V)) :
    resolveAll ρ es = es.mapM (resolve ρ) := by
  induction es with
  | nil => rfl
  | cons e es ih => rw [resolveAll, List.mapM_cons, ih]

/-- Parameters are visited one after the other. -/
theorem Expr.resolveAll_eq (ρ : Visitor m V W) (es : List (Expr V)) :
    resolveAll ρ es = es.mapM (resolve ρ) := by
  induction es with
  | nil => rfl
  | cons e es ih => rw [resolveAll, List.mapM_cons, ih]

/-- The result of looking at one part is put into the node above it. -/
theorem Visitor.look_one {α β : Type} {x : m α} {leaves : List (Leaf V)} {a : α} (f : α → β)
    (hx : x = do leaves.forM look; return a) :
    (do return f (← x)) = (do leaves.forM look; return f a) := by
  simp [hx]

/-- The leaves of a first part are looked at before those of a second one. -/
theorem Visitor.look_two {α β γ : Type} {x : m α} {y : m β} {as bs : List (Leaf V)} {a : α} {b : β}
    (f : α → β → γ) (hx : x = do as.forM look; return a) (hy : y = do bs.forM look; return b) :
    (do return f (← x) (← y)) = (do (as ++ bs).forM look; return f a b) := by
  simp [hx, hy]

/-- The leaves of a list of parts are looked at part by part. -/
theorem Visitor.look_list {α β : Type} {f : α → m β} {leaves : α → List (Leaf V)} {g : α → β}
    {as : List α}
    (h : ∀ a ∈ as, f a = do (leaves a).forM look; return g a) :
    as.mapM f = (do (as.flatMap leaves).forM look; return as.map g) := by
  induction as with
  | nil => simp
  | cons a as ih =>
    rw [List.mapM_cons, List.flatMap_cons]
    exact look_two List.cons (h a (by simp)) (ih fun a' ha' => h a' (by simp [ha']))

/-- Visiting an expression looks at its leaves from left to right and then substitutes their
images. -/
theorem Expr.resolve_eq_forM {ρ : Visitor m V W} {σ : Subst V W} (h : ρ.Looks look σ) :
    (∀ e : IntExpr V, e.resolve ρ = do e.leaves.forM look; return e.subst σ) ∧
      (∀ e : BoolExpr V, e.resolve ρ = do e.leaves.forM look; return e.subst σ) ∧
      ∀ e : Expr V, e.resolve ρ = do e.leaves.forM look; return e.subst σ := by
  apply Expr.induct
  case const => intro c; simp [IntExpr.resolve, IntExpr.leaves, IntExpr.subst]
  case intVar => intro v; simp [IntExpr.resolve, IntExpr.leaves, IntExpr.subst, h.int]
  case intSym =>
    intro name args ih
    rw [IntExpr.resolve, IntExpr.leaves, IntExpr.subst, Expr.resolveAll_eq, Expr.leavesAll_eq,
      Expr.substAll_eq]
    exact Visitor.look_one (IntExpr.sym name) (Visitor.look_list ih)
  case arith =>
    intro op es ih
    rw [IntExpr.resolve, IntExpr.leaves, IntExpr.subst, IntExpr.resolveAll_eq, IntExpr.leavesAll_eq,
      IntExpr.substAll_eq]
    exact Visitor.look_one (IntExpr.arith op) (Visitor.look_list ih)
  case div => intro l r hl hr; exact Visitor.look_two IntExpr.div hl hr
  case lit => intro b; simp [BoolExpr.resolve, BoolExpr.leaves, BoolExpr.subst]
  case boolVar => intro v; simp [BoolExpr.resolve, BoolExpr.leaves, BoolExpr.subst, h.bool]
  case boolSym =>
    intro name args ih
    rw [BoolExpr.resolve, BoolExpr.leaves, BoolExpr.subst, Expr.resolveAll_eq, Expr.leavesAll_eq,
      Expr.substAll_eq]
    exact Visitor.look_one (BoolExpr.sym name) (Visitor.look_list ih)
  case conn =>
    intro op es ih
    rw [BoolExpr.resolve, BoolExpr.leaves, BoolExpr.subst, BoolExpr.resolveAll_eq,
      BoolExpr.leavesAll_eq, BoolExpr.substAll_eq]
    exact Visitor.look_one (BoolExpr.conn op) (Visitor.look_list ih)
  case implies => intro l r hl hr; exact Visitor.look_two BoolExpr.implies hl hr
  case eq => intro l r hl hr; exact Visitor.look_two BoolExpr.eq hl hr
  case cmp => intro op l r hl hr; exact Visitor.look_two (BoolExpr.cmp op) hl hr
  case not => intro e he; exact Visitor.look_one BoolExpr.not he
  case int => intro e he; exact Visitor.look_one Expr.int he
  case bool => intro e he; exact Visitor.look_one Expr.bool he

end Visitor

/-! ### Resolvers -/

namespace Resolver

/-- The image of a leaf. -/
def image (R : Resolver ε V W) (leaf : Leaf V) : Except ε (Expr W) :=
  match leaf.ty with
  | .int => (R.int leaf.var).map .int
  | .bool => (R.bool leaf.var).map .bool

/-- Looks for the images of leaves from left to right. -/
def check (R : Resolver ε V W) : List (Leaf V) → Except ε Unit
  | [] => .ok ()
  | leaf :: leaves => do
    let _ ← R.image leaf
    R.check leaves

/-- The substitution by the images, with an arbitrary expression where there is none. -/
def images (R : Resolver ε V W) : Subst V W where
  int v := (R.int v).toOption.getD (.arith .add [])
  bool v := (R.bool v).toOption.getD (.lit true)

/-- Checking leaves is looking at them one after the other. -/
theorem check_eq_forM (R : Resolver ε V W) (leaves : List (Leaf V)) :
    R.check leaves = leaves.forM fun leaf => discard (R.image leaf) := by
  induction leaves with
  | nil => rfl
  | cons leaf leaves ih =>
    rw [check, ih, List.forM]
    cases R.image leaf <;> rfl

/-- The leaves of a first list are checked before those of a second one. -/
theorem check_append (R : Resolver ε V W) (as bs : List (Leaf V)) :
    R.check (as ++ bs) = R.check as >>= fun _ => R.check bs := by
  simp [check_eq_forM]

/-- A check of leaves succeeds exactly if every leaf has an image. -/
theorem check_eq_ok {R : Resolver ε V W} {leaves : List (Leaf V)} :
    R.check leaves = .ok () ↔ ∀ leaf ∈ leaves, ∃ e, R.image leaf = .ok e := by
  induction leaves with
  | nil => exact iff_of_true rfl (by simp)
  | cons leaf leaves ih =>
    rw [List.forall_mem_cons, ← ih, check]
    constructor
    · intro h
      obtain ⟨e, he, hrest⟩ := bind_eq_ok.mp h
      exact ⟨⟨e, he⟩, hrest⟩
    · rintro ⟨⟨e, he⟩, hrest⟩
      exact bind_eq_ok.mpr ⟨e, he, hrest⟩

/-- A look for images fails at a leaf without one. -/
theorem failsWith_check (R : Resolver ε V W) (leaves : List (Leaf V)) :
    FailsWith (fun e => ∃ leaf ∈ leaves, R.image leaf = .error e) (R.check leaves) := by
  induction leaves with
  | nil => exact failsWith_ok ()
  | cons leaf leaves ih =>
    refine FailsWith.bind (fun e he => ⟨leaf, List.mem_cons_self, he⟩) fun _ e he => ?_
    obtain ⟨leaf', hleaf', himage⟩ := ih e he
    exact ⟨leaf', List.mem_cons_of_mem _ hleaf', himage⟩

/-- Where a leaf has an image, the substitution puts it in. -/
theorem subst_images_ofVar {R : Resolver ε V W} {leaf : Leaf V} {e : Expr W}
    (h : R.image leaf = .ok e) : (Expr.ofVar leaf.ty leaf.var).subst R.images = e := by
  obtain ⟨ty, v⟩ := leaf
  cases ty with
  | int =>
    obtain ⟨i, hi, rfl⟩ := map_eq_ok.mp h
    simp only [Expr.ofVar, Expr.subst, IntExpr.subst, images]
    rw [show R.int v = .ok i from hi]
    rfl
  | bool =>
    obtain ⟨b, hb, rfl⟩ := map_eq_ok.mp h
    simp only [Expr.ofVar, Expr.subst, BoolExpr.subst, images]
    rw [show R.bool v = .ok b from hb]
    rfl

/-- Under the valuation pulled back along the images, a leaf has the value of its image. -/
theorem read_pull_images (I : Interpretation) (ρ : Valuation W) {R : Resolver ε V W} {leaf : Leaf V}
    {e : Expr W} (h : R.image leaf = .ok e) : (R.images.pull I ρ).read leaf = e.eval I ρ := by
  rw [← subst_images_ofVar h, (Expr.eval_subst I R.images ρ).2.2]
  obtain ⟨ty, v⟩ := leaf
  cases ty <;> rfl

/-- The leaves that take the place of a leaf are those of its image. -/
theorem imageLeaves_images {R : Resolver ε V W} {leaf : Leaf V} {e : Expr W}
    (h : R.image leaf = .ok e) : R.images.imageLeaves leaf = e.leaves := by
  rw [← subst_images_ofVar h]
  obtain ⟨ty, v⟩ := leaf
  cases ty <;> rfl

end Resolver

/-- A resolver fails at a leaf or gives it its image. -/
theorem Resolver.looks (R : Resolver ε V W) :
    Visitor.Looks R (fun leaf => discard (R.image leaf)) R.images where
  int v := by
    simp only [image, images]
    cases R.int v <;> rfl
  bool v := by
    simp only [image, images]
    cases R.bool v <;> rfl

/-- Resolving checks the leaves from left to right and then substitutes their images. -/
theorem Expr.resolve_eq (R : Resolver ε V W) :
    (∀ e : IntExpr V, e.resolve R = (R.check e.leaves).map fun _ => e.subst R.images) ∧
      (∀ e : BoolExpr V, e.resolve R = (R.check e.leaves).map fun _ => e.subst R.images) ∧
      ∀ e : Expr V, e.resolve R = (R.check e.leaves).map fun _ => e.subst R.images := by
  have hmap {α : Type} (leaves : List (Leaf V)) (a : α) :
      (do leaves.forM fun leaf => discard (R.image leaf); return a) =
        (R.check leaves).map fun _ => a := by
    rw [R.check_eq_forM]
    cases leaves.forM fun leaf => discard (R.image leaf) <;> rfl
  obtain ⟨hint, hbool, hexpr⟩ := Expr.resolve_eq_forM R.looks
  exact ⟨fun e => (hint e).trans (hmap _ _), fun e => (hbool e).trans (hmap _ _),
    fun e => (hexpr e).trans (hmap _ _)⟩

/-- A checked result exists exactly if every leaf has an image. -/
theorem Resolver.exists_map_check_iff {α : Type} {R : Resolver ε V W} {leaves : List (Leaf V)}
    {a : α} :
    (∃ b, (R.check leaves).map (fun _ => a) = .ok b) ↔
      ∀ leaf ∈ leaves, ∃ e, R.image leaf = .ok e := by
  rw [← check_eq_ok]
  constructor
  · rintro ⟨_, h⟩
    obtain ⟨_, hleaves, -⟩ := map_eq_ok.mp h
    exact hleaves
  · intro hleaves
    exact ⟨a, map_eq_ok.mpr ⟨(), hleaves, rfl⟩⟩

/-- A Boolean expression is resolved if and only if every leaf has an image. -/
theorem BoolExpr.exists_resolve_iff {R : Resolver ε V W} {e : BoolExpr V} :
    (∃ r, e.resolve R = .ok r) ↔ ∀ leaf ∈ e.leaves, ∃ e', R.image leaf = .ok e' := by
  rw [(Expr.resolve_eq R).2.1]
  exact Resolver.exists_map_check_iff

/-- An expression is resolved if and only if every leaf has an image. -/
theorem Expr.exists_resolve_iff {R : Resolver ε V W} {e : Expr V} :
    (∃ r, e.resolve R = .ok r) ↔ ∀ leaf ∈ e.leaves, ∃ e', R.image leaf = .ok e' := by
  rw [(Expr.resolve_eq R).2.2]
  exact Resolver.exists_map_check_iff

/-! ### Resolvers of the same leaves -/

/-- Every leaf that a resolver has an image for has one under another resolver. -/
def Resolver.CoveredBy (R R' : Resolver ε V W) : Prop :=
  ∀ leaf e, R.image leaf = .ok e → ∃ e', R'.image leaf = .ok e'

section CoveredBy

variable {R R' : Resolver ε V W}

/-- Leaves with images under one resolver have images under a resolver that covers it. -/
theorem Resolver.CoveredBy.exists_images (h : R.CoveredBy R') {leaves : List (Leaf V)}
    (hleaves : ∀ leaf ∈ leaves, ∃ e, R.image leaf = .ok e) :
    ∀ leaf ∈ leaves, ∃ e, R'.image leaf = .ok e := by
  intro leaf hleaf
  obtain ⟨e, he⟩ := hleaves leaf hleaf
  exact h leaf e he

/-- A Boolean expression that one resolver resolves is resolved by any that covers it. -/
theorem BoolExpr.exists_resolve (h : R.CoveredBy R') {e : BoolExpr V} {r : BoolExpr W}
    (he : e.resolve R = .ok r) : ∃ r', e.resolve R' = .ok r' :=
  exists_resolve_iff.mpr (h.exists_images (exists_resolve_iff.mp ⟨r, he⟩))

/-- An expression that one resolver resolves is resolved by any that covers it. -/
theorem Expr.exists_resolve (h : R.CoveredBy R') {e : Expr V} {r : Expr W}
    (he : e.resolve R = .ok r) : ∃ r', e.resolve R' = .ok r' :=
  exists_resolve_iff.mpr (h.exists_images (exists_resolve_iff.mp ⟨r, he⟩))

/-- Resolving keeps the type of an expression. -/
theorem Expr.ty_of_resolve {e : Expr V} {r : Expr W} (he : e.resolve R = .ok r) : r.ty = e.ty := by
  rw [(Expr.resolve_eq R).2.2] at he
  obtain ⟨_, -, rfl⟩ := map_eq_ok.mp he
  cases e <;> rfl

end CoveredBy

/-! ### Values of resolved expressions -/

/-- The images of a resolver have the values that a valuation gives to the leaves. -/
def Resolver.Reads (R : Resolver ε V W) (I : Interpretation) (ρ : Valuation W) (s : Valuation V) :
    Prop :=
  ∀ leaf e, R.image leaf = .ok e → e.eval I ρ = s.read leaf

section Reads

variable {R : Resolver ε V W} {I : Interpretation} {ρ : Valuation W} {s : Valuation V}

/-- Where the images have the values of a state, pulling back along them gives that state at the
checked leaves. -/
theorem Resolver.Reads.read_eq (h : R.Reads I ρ s) {leaves : List (Leaf V)}
    (hleaves : R.check leaves = .ok ()) :
    ∀ leaf ∈ leaves, (R.images.pull I ρ).read leaf = s.read leaf := by
  intro leaf hleaf
  obtain ⟨e, he⟩ := Resolver.check_eq_ok.mp hleaves leaf hleaf
  rw [Resolver.read_pull_images I ρ he, h leaf e he]

/-- A resolved Boolean expression has the truth of the expression that it comes from. -/
theorem BoolExpr.eval_of_resolve (h : R.Reads I ρ s) {e : BoolExpr V} {e' : BoolExpr W}
    (he : e.resolve R = .ok e') : e'.eval I ρ = e.eval I s := by
  rw [(Expr.resolve_eq R).2.1] at he
  obtain ⟨_, hleaves, rfl⟩ := map_eq_ok.mp he
  rw [(Expr.eval_subst I R.images ρ).2.1]
  exact (Expr.eval_congr I _ _).2.1 e (h.read_eq hleaves)

/-- A resolved expression has the value of the expression that it comes from. -/
theorem Expr.eval_of_resolve (h : R.Reads I ρ s) {e : Expr V} {e' : Expr W}
    (he : e.resolve R = .ok e') : e'.eval I ρ = e.eval I s := by
  rw [(Expr.resolve_eq R).2.2] at he
  obtain ⟨_, hleaves, rfl⟩ := map_eq_ok.mp he
  rw [(Expr.eval_subst I R.images ρ).2.2]
  exact (Expr.eval_congr I _ _).2.2 e (h.read_eq hleaves)

end Reads

end ViewLogic
