import ViewLogic.Command
import ViewLogic.Proofs.Instantiation
import ViewLogic.Proofs.SubstitutionLaws

/-!
# First failures

An expression whose leaves all have images is resolved as a substitution makes it; otherwise the
error is that of the first leaf without an image, in the order in which the leaves are listed. The
tree around the leaves has no say, and neither have the leaves after the failing one. A command is
checked against a scope by resolving its parameters, so it fails at the first leaf, through all
primitives, that is not declared at its type.
-/

namespace ViewLogic

variable {ε α β V W : Type}

/-- A function fails with an error on a member of a list, and on no member before it. -/
def FirstFails (f : α → Except ε β) (l : List α) (err : ε) : Prop :=
  ∃ before a after, l = before ++ a :: after ∧ (∀ b ∈ before, ∃ r, f b = .ok r) ∧ f a = .error err

/-- In an empty list nothing fails first. -/
theorem not_firstFails_nil {f : α → Except ε β} {err : ε} : ¬FirstFails f [] err := by
  rintro ⟨before, a, after, hnil, -⟩
  simp at hnil

/-- The first failure in a list is at its head, or the head succeeds and it is the first one in the
tail. -/
theorem firstFails_cons {f : α → Except ε β} {a : α} {l : List α} {err : ε} :
    FirstFails f (a :: l) err ↔
      f a = .error err ∨ (∃ r, f a = .ok r) ∧ FirstFails f l err := by
  constructor
  · rintro ⟨before, b, after, hsplit, hbefore, herr⟩
    cases before with
    | nil =>
      cases hsplit
      exact .inl herr
    | cons b' before =>
      cases hsplit
      obtain ⟨hfirst, hbefore⟩ := List.forall_mem_cons.mp hbefore
      exact .inr ⟨hfirst, before, b, after, rfl, hbefore, herr⟩
  · rintro (herr | ⟨hfirst, before, b, after, rfl, hbefore, herr⟩)
    · exact ⟨[], a, l, rfl, by simp, herr⟩
    · exact ⟨a :: before, b, after, rfl, List.forall_mem_cons.mpr ⟨hfirst, hbefore⟩, herr⟩

/-! ### Resolving -/

namespace Resolver

variable {R : Resolver ε V W} {leaves : List (Leaf V)}

/-- A look for images fails with the error of the first leaf that has none. -/
theorem check_eq_error {err : ε} :
    R.check leaves = .error err ↔ FirstFails R.image leaves err := by
  induction leaves with
  | nil => exact iff_of_false (by simp [check]) not_firstFails_nil
  | cons leaf leaves ih =>
    rw [firstFails_cons, check, ← ih]
    cases himage : R.image leaf with
    | error err' => simp [bind, Except.bind]
    | ok e => simp [bind, Except.bind]

/-- Checking lists of leaves one after another is checking all of them. -/
theorem forM_check (R : Resolver ε V W) (leaves : α → List (Leaf V)) (l : List α) :
    (l.forM fun a => R.check (leaves a)) = R.check (l.flatMap leaves) := by
  induction l with
  | nil => rfl
  | cons a l ih => rw [List.forM, ih, List.flatMap_cons, check_append]

end Resolver

/-- A result is what the leaves of an expression make it: the substituted expression, for any
substitution by the images, or the error of the first leaf without one. -/
structure Resolver.Decides (R : Resolver ε V W) (leaves : List (Leaf V)) (subst : Subst V W → α)
    (result : Except ε α) : Prop where
  succeeds : (∃ a, result = .ok a) ↔ ∀ leaf ∈ leaves, ∃ e, R.image leaf = .ok e
  eq_ok : ∀ a, result = .ok a ↔
    ∃ σ : Subst V W, (∀ leaf ∈ leaves, R.image leaf = .ok (σ.image leaf)) ∧ a = subst σ
  eq_error : ∀ err, result = .error err ↔ FirstFails R.image leaves err

/-- The leaves decide a result that is a substitution after a check of them, if the substitution
looks at no other leaf. -/
theorem Resolver.decides_map_check {R : Resolver ε V W} {leaves : List (Leaf V)}
    {subst : Subst V W → α} {result : Except ε α}
    (heq : result = (R.check leaves).map fun _ => subst R.images)
    (hcongr : ∀ σ τ : Subst V W, (∀ leaf ∈ leaves, σ.image leaf = τ.image leaf) →
      subst σ = subst τ) :
    R.Decides leaves subst result where
  succeeds := by
    rw [heq]
    exact exists_map_check_iff
  eq_ok a := by
    rw [heq, map_eq_ok]
    constructor
    · rintro ⟨_, hcheck, rfl⟩
      refine ⟨R.images, fun leaf hleaf => ?_, rfl⟩
      obtain ⟨e, he⟩ := check_eq_ok.mp hcheck leaf hleaf
      rw [he, Subst.image, subst_images_ofVar he]
    · rintro ⟨σ, hσ, rfl⟩
      refine ⟨(), check_eq_ok.mpr fun leaf hleaf => ⟨_, hσ leaf hleaf⟩, hcongr _ _ ?_⟩
      intro leaf hleaf
      exact subst_images_ofVar (hσ leaf hleaf)
  eq_error err := by
    rw [heq, ← check_eq_error]
    cases R.check leaves <;> simp [Except.map]

/-! ### Checking commands -/

/-- The reader of a scope expects a leaf to be declared at its type and keeps it. -/
theorem Scope.image_reader (scope : Scope) (leaf : Leaf MarkedVar) :
    scope.reader.image leaf =
      (scope.expect leaf.var.name leaf.ty).map fun _ => .ofVar leaf.ty leaf.var := by
  obtain ⟨ty, v⟩ := leaf
  cases ty with
  | int =>
    simp only [Resolver.image, reader]
    cases scope.expect v.name .int <;> rfl
  | bool =>
    simp only [Resolver.image, reader]
    cases scope.expect v.name .bool <;> rfl

/-- A scope has an image for the leaves that it declares at their types. -/
theorem Scope.exists_image_reader_iff {scope : Scope} {leaf : Leaf MarkedVar} :
    (∃ e, scope.reader.image leaf = .ok e) ↔ scope.get? leaf.var.name = some leaf.ty := by
  rw [image_reader, ← expect_eq_ok]
  cases scope.expect leaf.var.name leaf.ty <;> simp [Except.map]

/-- The error about a leaf that a scope does not declare, or declares at another type. -/
def Scope.Refuses (scope : Scope) (leaf : Leaf MarkedVar) (err : Error) : Prop :=
  (scope.get? leaf.var.name = none ∧ err = .unboundVar leaf.var.name) ∨
    ∃ declared, scope.get? leaf.var.name = some declared ∧ declared ≠ leaf.ty ∧
      err = .typeMismatch leaf.var.name leaf.ty.render declared.render

/-- The reader of a scope fails at a leaf with the error that the scope refuses it with. -/
theorem Scope.image_reader_eq_error {scope : Scope} {leaf : Leaf MarkedVar} {err : Error} :
    scope.reader.image leaf = .error err ↔ scope.Refuses leaf err := by
  rw [image_reader]
  unfold expect lookup Refuses
  cases scope.get? leaf.var.name with
  | none => simp [bind, Except.bind, Except.map, eq_comm (b := err)]
  | some declared =>
    by_cases hty : declared = leaf.ty
    · simp [bind, Except.bind, Except.map, hty]
    · simp [bind, Except.bind, Except.map, hty, eq_comm (b := err)]

/-- The reader of a scope accepts leaves exactly if all are declared at their types. -/
theorem Scope.check_reader_eq_ok {scope : Scope} {leaves : List (Leaf MarkedVar)} :
    scope.reader.check leaves = .ok () ↔
      ∀ leaf ∈ leaves, scope.get? leaf.var.name = some leaf.ty := by
  simp only [Resolver.check_eq_ok, exists_image_reader_iff]

/-- The reader of a scope fails with the error of the first leaf that is not declared at its
type. -/
theorem Scope.check_reader_eq_error {scope : Scope} {leaves : List (Leaf MarkedVar)} {err : Error} :
    scope.reader.check leaves = .error err ↔ ∃ before leaf after,
      leaves = before ++ leaf :: after ∧
        (∀ l ∈ before, scope.get? l.var.name = some l.ty) ∧ scope.Refuses leaf err := by
  simp only [Resolver.check_eq_error, FirstFails, exists_image_reader_iff, image_reader_eq_error]

/-- A command is checked leaf by leaf, through all its parameters. -/
theorem Command.checkScope_eq (c : Command) (scope : Scope) :
    c.checkScope scope = scope.reader.check (c.flatMap Primitive.leaves) := by
  have hparam (e : Expr MarkedVar) :
      (do let _ ← e.resolve scope.reader; .ok ()) = scope.reader.check e.leaves := by
    rw [(Expr.resolve_eq scope.reader).2.2]
    cases scope.reader.check e.leaves <;> rfl
  simp only [checkScope, hparam, Resolver.forM_check]
  rfl

/-- Resolving succeeds if and only if every leaf has an image, with the substituted expression, and
fails with the error of the first leaf without one. So a command is refused for its first leaf, over
all its primitives and their parameters, that is not declared or declared at another type. -/
theorem Expr.resolve_fails_at_first_leaf (R : Resolver ε V W) :
    (∀ e : IntExpr V, R.Decides e.leaves (fun σ => e.subst σ) (e.resolve R)) ∧
      (∀ e : BoolExpr V, R.Decides e.leaves (fun σ => e.subst σ) (e.resolve R)) ∧
      (∀ e : Expr V, R.Decides e.leaves (fun σ => e.subst σ) (e.resolve R)) ∧
      ∀ (c : Command) (scope : Scope),
        (c.checkScope scope = .ok () ↔
          ∀ leaf ∈ c.flatMap Primitive.leaves, scope.get? leaf.var.name = some leaf.ty) ∧
        ∀ err, c.checkScope scope = .error err ↔ ∃ before leaf after,
          c.flatMap Primitive.leaves = before ++ leaf :: after ∧
            (∀ l ∈ before, scope.get? l.var.name = some l.ty) ∧ scope.Refuses leaf err := by
  obtain ⟨hint, hbool, hexpr⟩ := Expr.resolve_eq R
  refine ⟨fun e => ?_, fun e => ?_, fun e => ?_, fun c scope => ⟨?_, fun err => ?_⟩⟩
  · exact Resolver.decides_map_check (hint e) fun σ τ => (Expr.subst_congr σ τ).1 e
  · exact Resolver.decides_map_check (hbool e) fun σ τ => (Expr.subst_congr σ τ).2.1 e
  · exact Resolver.decides_map_check (hexpr e) fun σ τ => (Expr.subst_congr σ τ).2.2 e
  · rw [c.checkScope_eq, Scope.check_reader_eq_ok]
  · rw [c.checkScope_eq, Scope.check_reader_eq_error]

/-- The second primitive reads `y` as a Boolean inside a symbolic parameter, and then `z`, which is
not declared. -/
theorem Expr.resolve_fails_at_first_leaf_symbolic :
    Command.checkScope
        [⟨"Load", [.int (.var ⟨.after, "x"⟩)]⟩,
          ⟨"Store", [.int (.arith .add [.var ⟨.before, "x"⟩,
            .sym "f" [.bool (.var ⟨.before, "y"⟩), .int (.var ⟨.after, "z"⟩)]])]⟩]
        (SortedMap.ofList [("x", .int), ("y", .int)]) =
      .error (.typeMismatch "y" "bool" "int") := by
  let scope : Scope := SortedMap.ofList [("x", .int), ("y", .int)]
  refine (((resolve_fails_at_first_leaf scope.reader).2.2.2 _ _).2 _).mpr
    ⟨[⟨.int, ⟨.after, "x"⟩⟩, ⟨.int, ⟨.before, "x"⟩⟩], ⟨.bool, ⟨.before, "y"⟩⟩,
      [⟨.int, ⟨.after, "z"⟩⟩], rfl, by decide +kernel, .inr ⟨.int, ?_, nofun, rfl⟩⟩
  decide +kernel

end ViewLogic
