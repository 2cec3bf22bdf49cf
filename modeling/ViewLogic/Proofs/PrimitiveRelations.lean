import ViewLogic.Proofs.DeclaredLeaves
import ViewLogic.Proofs.UnwrittenVariables

/-!
# The relation of a primitive

A primitive has a relation if its variables are declared, its rule takes as many parameters of the
same types, and the rule reads nothing but its formal parameters. The relation then says what the
rule says of the values of the actual parameters, and that the declared variables which no parameter
reads as they are afterwards keep their values. Of two formal parameters of one name the last
counts.
-/

namespace ViewLogic

namespace Rule

/-- The formal parameter that a name stands for and its actual one. The last one of the name
counts. -/
def binding? (rule : Rule) (params : List (Expr MarkedVar)) (x : Var) :
    Option (Decl × Expr MarkedVar) :=
  (rule.params.zip params).reverse.find? (·.1.name = x)

/-- A rule can be applied to actual parameters: there are as many as formal ones and of the same
types, and the body reads formal parameters only, each at its type. -/
structure Accepts (rule : Rule) (params : List (Expr MarkedVar)) : Prop where
  length_eq : rule.params.length = params.length
  ty_eq : ∀ b ∈ rule.params.zip params, b.1.ty = b.2.ty
  reads_formals : ∀ leaf ∈ rule.body.leaves,
    ∃ actual, rule.binding? params leaf.var = some (⟨leaf.ty, leaf.var⟩, actual)

/-- Every formal parameter has the value of its actual one. A name that is no formal parameter has
some fixed value, which an accepted body does not read. -/
def environment (rule : Rule) (I : Interpretation) (ρ : Valuation MarkedVar)
    (params : List (Expr MarkedVar)) : Valuation Var where
  int x :=
    match rule.binding? params x with
    | some (_, .int e) => e.eval I ρ
    | _ => 0
  bool x :=
    match rule.binding? params x with
    | some (_, .bool e) => e.eval I ρ
    | _ => false

variable {rule : Rule} {params : List (Expr MarkedVar)}

/-- In the environment of a rule, a formal parameter has the value of its actual one. -/
theorem read_environment (I : Interpretation) (ρ : Valuation MarkedVar) {x : Var} {formal : Decl}
    {e : Expr MarkedVar} (h : rule.binding? params x = some (formal, e)) :
    (rule.environment I ρ params).read ⟨e.ty, x⟩ = e.eval I ρ := by
  cases e <;> simp [environment, Valuation.read, Expr.ty, Expr.eval, h]

/-- A name stands for a formal parameter of that name, paired with its actual one. -/
theorem name_eq_and_mem_zip_of_binding? {x : Var} {formal : Decl} {e : Expr MarkedVar}
    (h : rule.binding? params x = some (formal, e)) :
    formal.name = x ∧ (formal, e) ∈ rule.params.zip params := by
  refine ⟨by simpa using List.find?_some h, ?_⟩
  exact List.mem_reverse.mp (List.mem_of_find?_eq_some h)

end Rule

namespace Semantics

variable {s : Semantics} {scope : Scope} {p : Primitive} {rule : Rule}
  {params : List (Expr MarkedVar)} {actuals : Actuals}

/-- Parameters are bound exactly if their types are those of the formal ones, and then one after the
other. -/
theorem bind_eq_ok_iff {name : String} {formals : List Decl} :
    bind name formals params = .ok actuals ↔
      (∀ b ∈ formals.zip params, b.1.ty = b.2.ty) ∧
        actuals = (formals.zip params).foldl (fun m b => m.insert b.1.name b.2) ∅ := by
  unfold bind
  generalize (∅ : Actuals) = start
  induction formals.zip params generalizing start with
  | nil =>
    constructor
    · intro h
      cases h
      simp
    · rintro ⟨-, rfl⟩
      rfl
  | cons b bs ih =>
    rw [List.foldlM_cons, List.forall_mem_cons, List.foldl_cons]
    dsimp only
    split
    next hty =>
      rw [and_iff_right hty]
      exact ih _
    next hty =>
      constructor
      · intro h
        cases h
      · rintro ⟨⟨h, -⟩, -⟩
        exact absurd h hty

/-- The actual parameters are stored by the names that stand for them. -/
theorem get?_of_bind {name : String} (h : bind name rule.params params = .ok actuals) (x : Var) :
    actuals.get? x = (rule.binding? params x).map (·.2) := by
  obtain ⟨-, rfl⟩ := bind_eq_ok_iff.mp h
  rw [SortedMap.get?_foldl_insert]
  exact Option.or_none

/-- A leaf of a rule stands for the actual parameter that its name is bound to, at the type of the
leaf. -/
theorem image_resolver_of_bind {name : String} (h : bind name rule.params params = .ok actuals)
    {leaf : Leaf Var} {e : Expr MarkedVar} :
    (actuals.resolver fun _ x => .error (.unboundVar x)).image leaf = .ok e ↔
      rule.binding? params leaf.var = some (⟨leaf.ty, leaf.var⟩, e) := by
  have hty := (bind_eq_ok_iff.mp h).1
  obtain ⟨ty, x⟩ := leaf
  rw [Actuals.image_resolver_eq_ok, get?_of_bind h, Option.map_eq_some_iff]
  constructor
  · rintro (⟨⟨⟨formal, _⟩, hbinding, rfl⟩, rfl⟩ | ⟨-, y, hy, -⟩)
    · obtain ⟨hname, hmem⟩ := Rule.name_eq_and_mem_zip_of_binding? hbinding
      have hformal : formal = ⟨formal.ty, formal.name⟩ := rfl
      rw [hname, hty _ hmem] at hformal
      rwa [← hformal]
    · cases hy
  · intro hbinding
    obtain ⟨-, hmem⟩ := Rule.name_eq_and_mem_zip_of_binding? hbinding
    exact .inl ⟨⟨_, hbinding, rfl⟩, (hty _ hmem).symm⟩

/-- A primitive can be instantiated if and only if its rule accepts its parameters. -/
theorem exists_instantiate_iff :
    (∃ r, s.instantiate p = .ok r) ↔
      ∃ rule, s.rules.get? p.name = some rule ∧ rule.Accepts p.params := by
  constructor
  · rintro ⟨r, h⟩
    obtain ⟨rule, actuals, hrule, hlength, hbind, hbody⟩ := instantiate_eq_ok.mp h
    refine ⟨rule, hrule, hlength, (bind_eq_ok_iff.mp hbind).1, fun leaf hleaf => ?_⟩
    obtain ⟨e, he⟩ := BoolExpr.exists_resolve_iff.mp ⟨r, hbody⟩ leaf hleaf
    exact ⟨e, (image_resolver_of_bind hbind).mp he⟩
  · rintro ⟨rule, hrule, haccepts⟩
    obtain ⟨actuals, hbind⟩ : ∃ actuals, bind p.name rule.params p.params = .ok actuals :=
      ⟨_, bind_eq_ok_iff.mpr ⟨haccepts.ty_eq, rfl⟩⟩
    have hbody : ∃ r, rule.body.resolve (actuals.resolver fun _ x => .error (.unboundVar x)) =
        .ok r := by
      rw [BoolExpr.exists_resolve_iff]
      intro leaf hleaf
      obtain ⟨e, he⟩ := haccepts.reads_formals leaf hleaf
      exact ⟨e, (image_resolver_of_bind hbind).mpr he⟩
    obtain ⟨r, hr⟩ := hbody
    exact ⟨r, instantiate_eq_ok.mpr ⟨rule, actuals, hrule, haccepts.length_eq, hbind, hr⟩⟩

/-- An instantiated rule says what the rule says of the values of the actual parameters. -/
theorem eval_instantiate {I : Interpretation} {ρ : Valuation MarkedVar} {r : Relation}
    (hrule : s.rules.get? p.name = some rule) (h : s.instantiate p = .ok r) :
    r.eval I ρ = rule.body.eval I (rule.environment I ρ p.params) := by
  obtain ⟨rule', actuals, hrule', -, hbind, hbody⟩ := instantiate_eq_ok.mp h
  obtain rfl : rule = rule' := Option.some.inj (hrule.symm.trans hrule')
  refine BoolExpr.eval_of_resolve (fun leaf e he => ?_) hbody
  have hbinding := (image_resolver_of_bind hbind).mp he
  obtain ⟨-, hmem⟩ := Rule.name_eq_and_mem_zip_of_binding? hbinding
  have hty : leaf.ty = e.ty := (bind_eq_ok_iff.mp hbind).1 _ hmem
  rw [← Rule.read_environment I ρ hbinding, ← hty]

/-- A primitive has a relation if and only if its variables are declared at the types at which it
reads them, and there is a rule of its name that takes as many parameters of the same types and
reads its formal parameters only, each at its type. The relation then holds if and only if the body
of the rule does, with every formal parameter read as the value of its actual one, and the declared
variables that no parameter reads as they are afterwards keep their values. -/
theorem primitiveRelation_means_rule (s : Semantics) (scope : Scope) (p : Primitive) :
    ((∃ r, s.primitiveRelation scope p = .ok r) ↔ scope.Covers p.leaves ∧
        ∃ rule, s.rules.get? p.name = some rule ∧ rule.Accepts p.params) ∧
      ∀ r rule, s.primitiveRelation scope p = .ok r → s.rules.get? p.name = some rule →
        ∀ (I : Interpretation) (ρ : Valuation MarkedVar), r.eval I ρ = true ↔
          rule.body.eval I (rule.environment I ρ p.params) = true ∧
            ∀ x ty, scope.get? x = some ty → (∀ leaf ∈ p.leaves, leaf.var ≠ ⟨.after, x⟩) →
              ρ.read ⟨ty, ⟨.after, x⟩⟩ = ρ.read ⟨ty, ⟨.before, x⟩⟩ := by
  constructor
  · have hscope : Command.checkScope [p] scope = .ok () ↔ scope.Covers p.leaves := by
      rw [Command.checkScope_eq_ok, List.forall_mem_singleton]
    rw [← exists_instantiate_iff, ← hscope]
    constructor
    · rintro ⟨r, h⟩
      obtain ⟨hcheck, body, hbody, -⟩ := primitiveRelation_eq_ok.mp h
      exact ⟨hcheck, body, hbody⟩
    · rintro ⟨hcheck, body, hbody⟩
      exact ⟨_, primitiveRelation_eq_ok.mpr ⟨hcheck, body, hbody, rfl⟩⟩
  · intro r rule h hrule I ρ
    obtain ⟨-, body, hbody, rfl⟩ := primitiveRelation_eq_ok.mp h
    rw [BoolExpr.eval_all_eq_true, List.forall_mem_cons, List.forall_mem_singleton,
      eval_instantiate hrule hbody, eval_frame]
    refine and_congr_right' (forall₃_congr fun x ty _ => ?_)
    have hwritten : x ∉ p.written ↔ ∀ leaf ∈ p.leaves, leaf.var ≠ ⟨.after, x⟩ := by
      simp only [Primitive.mem_written, not_exists, not_and, ne_eq]
    rw [hwritten]
    rfl

/-- A rule lists `v` first as a Boolean and then as an integer, and the integer counts. The value
that it assigns to `x` reads `y` as it is afterwards, inside a symbolic leaf: so `y` may change, and
only `b` and `z` are kept. Where `y` is not declared, there is no relation. -/
theorem primitiveRelation_means_rule_repeated :
    let rule : Rule :=
      ⟨[⟨.bool, "v"⟩, ⟨.int, "dest"⟩, ⟨.int, "v"⟩], .eq (.int (.var "dest")) (.int (.var "v"))⟩
    let s := minimal.register "Set" rule
    let f : IntExpr MarkedVar := .sym "f" [.int (.var ⟨.after, "y"⟩)]
    let p : Primitive := ⟨"Set", [.bool (.var ⟨.before, "b"⟩), .int (.var ⟨.after, "x"⟩),
      .int (.arith .add [.var ⟨.before, "x"⟩, f])]⟩
    let scope : Scope := .ofList [("b", .bool), ("x", .int), ("y", .int), ("z", .int)]
    let smaller : Scope := .ofList [("b", .bool), ("x", .int), ("z", .int)]
    (∃ r, s.primitiveRelation scope p = .ok r ∧ ∀ I ρ, r.eval I ρ = true ↔
      ρ.int ⟨.after, "x"⟩ = ρ.int ⟨.before, "x"⟩ + I.intSym "f" [.int (ρ.int ⟨.after, "y"⟩)] ∧
        ρ.bool ⟨.after, "b"⟩ = ρ.bool ⟨.before, "b"⟩ ∧
        ρ.int ⟨.after, "z"⟩ = ρ.int ⟨.before, "z"⟩) ∧
      ¬∃ r, s.primitiveRelation smaller p = .ok r := by
  intro rule s f p scope smaller
  have hok : (s.primitiveRelation scope p).map (fun _ => ()) = .ok () := by decide +kernel
  have hrule : s.rules.get? p.name = some rule := by
    simp [s, p, register, SortedMap.get?_insert_self]
  obtain ⟨r, hr, -⟩ := map_eq_ok.mp hok
  have hentries : scope.entries = [("b", .bool), ("x", .int), ("y", .int), ("z", .int)] := by
    decide +kernel
  constructor
  · refine ⟨r, hr, fun I ρ => ?_⟩
    rw [(primitiveRelation_means_rule s scope p).2 r rule hr hrule I ρ]
    refine and_congr ?_ ⟨fun h => ⟨?_, ?_⟩, ?_⟩
    · simp [rule, p, f, Rule.environment, Rule.binding?, BoolExpr.eval, Expr.eval, Expr.evalAll,
        IntExpr.eval, IntExpr.evalAll, Interpretation.eq, Interpretation.arith]
    · have hb := h "b" .bool (by decide +kernel) (by decide +kernel)
      exact Value.bool.inj hb
    · have hz := h "z" .int (by decide +kernel) (by decide +kernel)
      exact Value.int.inj hz
    · rintro ⟨hb, hz⟩ x ty hx hnot
      rw [SortedMap.get?_eq_some_iff, hentries] at hx
      simp only [List.mem_cons, Prod.mk.injEq, List.not_mem_nil, or_false] at hx
      rcases hx with ⟨rfl, rfl⟩ | ⟨rfl, rfl⟩ | ⟨rfl, rfl⟩ | ⟨rfl, rfl⟩
      · exact congrArg Value.bool hb
      · exact absurd rfl (hnot ⟨.int, ⟨.after, "x"⟩⟩ (by decide +kernel))
      · exact absurd rfl (hnot ⟨.int, ⟨.after, "y"⟩⟩ (by decide +kernel))
      · exact congrArg Value.int hz
  · rw [(primitiveRelation_means_rule s smaller p).1]
    rintro ⟨hcovers, -⟩
    have hy := hcovers ⟨.int, ⟨.after, "y"⟩⟩ (by decide +kernel)
    revert hy
    decide +kernel

end Semantics

end ViewLogic
