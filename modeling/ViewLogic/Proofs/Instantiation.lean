import ViewLogic.Obligation
import ViewLogic.Proofs.Entries
import ViewLogic.Proofs.Resolution

/-!
# What an instantiated match says

A match says of a state what the bodies of the definitions of its shape say, with every formal
parameter standing for the value of its actual one. An instantiated match says it through the
variables of one moment. It reads declared variables only, so states that agree on these are not
told apart.
-/

namespace ViewLogic

/-- The state at a moment. -/
def Valuation.stateAt (ρ : Valuation MarkedVar) (m : Mark) : Valuation Var :=
  ⟨fun x => ρ.int ⟨m, x⟩, fun x => ρ.bool ⟨m, x⟩⟩

/-- Gives a variable a value, at the type of the value. -/
def Valuation.set (s : Valuation Var) (x : Var) : Value → Valuation Var
  | .int n => { s with int := fun y => if y = x then n else s.int y }
  | .bool b => { s with bool := fun y => if y = x then b else s.bool y }

/-- The type of a value. -/
def Value.ty : Value → Ty
  | int _ => .int
  | bool _ => .bool

namespace Valuation

/-- A variable that is set is read back at the type of its value. -/
@[simp] theorem read_set_self (s : Valuation Var) (x : Var) (v : Value) :
    (s.set x v).read ⟨v.ty, x⟩ = v := by
  cases v <;> simp [set, read, Value.ty]

/-- Setting a variable leaves the values of the others. -/
theorem read_set_of_ne (s : Valuation Var) {x y : Var} (h : y ≠ x) (v : Value) (ty : Ty) :
    (s.set x v).read ⟨ty, y⟩ = s.read ⟨ty, y⟩ := by
  cases v <;> cases ty <;> simp [set, read, h]

end Valuation

/-- The value of an expression has the type of the expression. -/
theorem Expr.ty_eval {V : Type} (I : Interpretation) (ρ : Valuation V) (e : Expr V) :
    (e.eval I ρ).ty = e.ty := by
  cases e <;> rfl

/-- The formal parameters of a pattern with the actual ones of atoms. -/
def Pattern.bindings (p : Pattern) (atoms : List (Atom (Expr Var))) : List (Decl × Expr Var) :=
  (p.components.zip atoms).flatMap fun (c, a) => c.params.zip a.params

/-- A state with the formal parameters of a pattern in front: each has the value that its actual
parameter has in the state. -/
def Pattern.environment (p : Pattern) (I : Interpretation) (s : Valuation Var)
    (atoms : List (Atom (Expr Var))) : Valuation Var :=
  (p.bindings atoms).foldl (fun env (formal, actual) => env.set formal.name (actual.eval I s)) s

/-! ### Declared variables -/

/-- Two states give every declared variable the same value at its type. -/
def Scope.Agree (scope : Scope) (s s' : Valuation Var) : Prop :=
  ∀ x ty, scope.get? x = some ty → s.read ⟨ty, x⟩ = s'.read ⟨ty, x⟩

/-- Declarations that succeed one after another are all there, beside those of before. -/
theorem Scope.get?_foldlM_declare {scope scope' : Scope} {ds : List Decl}
    (h : ds.foldlM declare scope = .ok scope') {x : Var} {ty : Ty} :
    scope'.get? x = some ty ↔ scope.get? x = some ty ∨ ⟨ty, x⟩ ∈ ds := by
  induction ds generalizing scope with
  | nil =>
    cases h
    simp
  | cons d ds ih =>
    rw [List.foldlM_cons] at h
    obtain ⟨mid, hmid, h⟩ := bind_eq_ok.mp h
    unfold declare at hmid
    split at hmid
    next => cases hmid
    next hnew =>
      cases hmid
      have hnone : scope.get? d.name = none := by simpa [SortedMap.contains] using hnew
      rw [ih h, List.mem_cons, ← or_assoc]
      refine or_congr_left ?_
      by_cases hx : x = d.name
      · subst hx
        rw [SortedMap.get?_insert_self, hnone]
        obtain ⟨ty', name⟩ := d
        simp [eq_comm]
      · rw [SortedMap.get?_insert_of_ne _ hx]
        obtain ⟨ty', name⟩ := d
        simp [show x ≠ name from hx]

/-- A merged scope declares what the first scope declares. -/
theorem Scope.get?_of_merge {globals locals scope : Scope} (h : globals.merge locals = .ok scope)
    {x : Var} {ty : Ty} (hx : globals.get? x = some ty) : scope.get? x = some ty :=
  (get?_foldlM_declare h).mpr (.inl hx)

/-- States that agree on a scope agree on every smaller one. -/
theorem Scope.Agree.mono {globals scope : Scope} {s s' : Valuation Var} (h : scope.Agree s s')
    (hsub : ∀ x ty, globals.get? x = some ty → scope.get? x = some ty) : globals.Agree s s' :=
  fun x ty hx => h x ty (hsub x ty hx)

/-- A variable is as expected exactly if it is declared at that type. -/
theorem Scope.expect_eq_ok {scope : Scope} {x : Var} {ty : Ty} :
    scope.expect x ty = .ok () ↔ scope.get? x = some ty := by
  unfold expect lookup
  cases scope.get? x with
  | none =>
    constructor
    · intro h
      cases h
    · intro h
      cases h
  | some declared => exact require_eq_ok.trans Option.some_inj.symm

/-- A variable stands for the actual parameter of its name and type. Without one it is free. -/
theorem Actuals.image_resolver_eq_ok {actuals : Actuals} {free : Ty → Var → Except Error MarkedVar}
    {ty : Ty} {x : Var} {e : Expr MarkedVar} :
    (actuals.resolver free).image ⟨ty, x⟩ = .ok e ↔
      (actuals.get? x = some e ∧ e.ty = ty) ∨
        (actuals.get? x = none ∧ ∃ y, free ty x = .ok y ∧ e = .ofVar ty y) := by
  constructor
  · intro he
    cases ty with
    | int =>
      obtain ⟨i, hi, rfl⟩ := map_eq_ok.mp he
      simp only [resolver] at hi
      split at hi
      next hget =>
        cases hi
        exact .inl ⟨hget, rfl⟩
      next => cases hi
      next hnone =>
        obtain ⟨y, hy, rfl⟩ := map_eq_ok.mp hi
        exact .inr ⟨hnone, y, hy, rfl⟩
    | bool =>
      obtain ⟨b, hb, rfl⟩ := map_eq_ok.mp he
      simp only [resolver] at hb
      split at hb
      next hget =>
        cases hb
        exact .inl ⟨hget, rfl⟩
      next => cases hb
      next hnone =>
        obtain ⟨y, hy, rfl⟩ := map_eq_ok.mp hb
        exact .inr ⟨hnone, y, hy, rfl⟩
  · rintro (⟨hget, rfl⟩ | ⟨hnone, y, hy, rfl⟩)
    · cases e <;> simp [Resolver.image, resolver, hget, Expr.ty, Except.map]
    · cases ty <;> simp [Resolver.image, resolver, hnone, hy, Expr.ofVar, Except.map]

namespace Obligation

variable {I : Interpretation} {ρ : Valuation MarkedVar} {s : Valuation Var} {m : Mark}

/-- A declared variable is read as it is at the moment of the mark. -/
theorem image_marker_eq_ok {scope : Scope} {ty : Ty} {x : Var} {e : Expr MarkedVar} :
    (marker scope m).image ⟨ty, x⟩ = .ok e ↔
      scope.expect x ty = .ok () ∧ e = .ofVar ty ⟨m, x⟩ := by
  constructor
  · intro he
    cases ty with
    | int =>
      obtain ⟨i, hi, rfl⟩ := map_eq_ok.mp he
      obtain ⟨_, hexpect, hi⟩ := bind_eq_ok.mp hi
      cases hi
      exact ⟨hexpect, rfl⟩
    | bool =>
      obtain ⟨b, hb, rfl⟩ := map_eq_ok.mp he
      obtain ⟨_, hexpect, hb⟩ := bind_eq_ok.mp hb
      cases hb
      exact ⟨hexpect, rfl⟩
  · rintro ⟨hexpect, rfl⟩
    cases ty <;>
      · simp only [Resolver.image, marker, hexpect]
        rfl

/-- Marking a leaf fails with the error of an undeclared or differently typed variable. -/
theorem expect_of_image_marker {scope : Scope} {leaf : Leaf Var} {e : Error}
    (h : (marker scope m).image leaf = .error e) : scope.expect leaf.var leaf.ty = .error e := by
  obtain ⟨ty, x⟩ := leaf
  cases hexpect : scope.expect x ty with
  | ok =>
    rw [image_marker_eq_ok.mpr ⟨hexpect, rfl⟩] at h
    cases h
  | error e' =>
    cases ty <;>
      · simp only [Resolver.image, marker, hexpect] at h
        cases h
        rfl

/-- Marked variables are read in the state at the moment of the mark. -/
theorem marker_reads {scope : Scope} (h : scope.Agree (ρ.stateAt m) s) :
    (marker scope m).Reads I ρ s := by
  rintro ⟨ty, x⟩ e he
  obtain ⟨hexpect, rfl⟩ := image_marker_eq_ok.mp he
  rw [← h x ty (Scope.expect_eq_ok.mp hexpect)]
  cases ty <;> rfl

/-- The same variables can be read at every moment. -/
theorem marker_coveredBy (scope : Scope) (m m' : Mark) :
    (marker scope m).CoveredBy (marker scope m') := by
  rintro ⟨ty, x⟩ e he
  exact ⟨_, image_marker_eq_ok.mpr ⟨(image_marker_eq_ok.mp he).1, rfl⟩⟩

/-- A table of marked actual parameters stands for an environment over a state. -/
def Represents (I : Interpretation) (ρ : Valuation MarkedVar) (s : Valuation Var)
    (actuals : Actuals) (env : Valuation Var) : Prop :=
  (∀ x e, actuals.get? x = some e → env.read ⟨e.ty, x⟩ = e.eval I ρ) ∧
    ∀ x, actuals.get? x = none → ∀ ty, env.read ⟨ty, x⟩ = s.read ⟨ty, x⟩

/-- A new actual parameter sets its name in the environment. -/
theorem Represents.insert {actuals : Actuals} {env : Valuation Var}
    (h : Represents I ρ s actuals env) (x : Var) (e : Expr MarkedVar) :
    Represents I ρ s (actuals.insert x e) (env.set x (e.eval I ρ)) := by
  constructor
  · intro y e' he'
    by_cases hy : y = x
    · subst hy
      rw [SortedMap.get?_insert_self] at he'
      cases he'
      rw [← e.ty_eval I ρ, Valuation.read_set_self]
    · rw [SortedMap.get?_insert_of_ne _ hy] at he'
      rw [Valuation.read_set_of_ne _ hy]
      exact h.1 y e' he'
  · intro y hnone ty
    by_cases hy : y = x
    · subst hy
      rw [SortedMap.get?_insert_self] at hnone
      cases hnone
    · rw [SortedMap.get?_insert_of_ne _ hy] at hnone
      rw [Valuation.read_set_of_ne _ hy]
      exact h.2 y hnone ty

/-- A body is read in the environment that its actual parameters stand for. -/
theorem Represents.reads {actuals : Actuals} {env : Valuation Var} {globals : Scope}
    (h : Represents I ρ s actuals env) (hglobals : globals.Agree (ρ.stateAt m) s) :
    (actuals.resolver fun ty x => do
      globals.expect x ty
      .ok ⟨m, x⟩).Reads I ρ env := by
  rintro ⟨ty, x⟩ e he
  rcases Actuals.image_resolver_eq_ok.mp he with ⟨hget, rfl⟩ | ⟨hnone, y, hy, rfl⟩
  · exact (h.1 x e hget).symm
  · obtain ⟨_, hexpect, hy⟩ := bind_eq_ok.mp hy
    cases hy
    rw [h.2 x hnone ty, ← hglobals x ty (Scope.expect_eq_ok.mp hexpect)]
    cases ty <;> rfl

namespace Context

variable {ctx : Context}

/-- A context and a state: the declared variables have the values of the state at a moment. -/
def Shows (ctx : Context) (ρ : Valuation MarkedVar) (m : Mark) (s : Valuation Var) : Prop :=
  ctx.globals.Agree (ρ.stateAt m) s ∧ ctx.scope.Agree (ρ.stateAt m) s

/-- A valuation shows its own state at every moment. -/
theorem shows_stateAt (ctx : Context) (ρ : Valuation MarkedVar) (m : Mark) :
    ctx.Shows ρ m (ρ.stateAt m) :=
  ⟨fun _ _ _ => rfl, fun _ _ _ => rfl⟩

/-- A parameter is bound once, to a marked actual one of its own type. -/
theorem bindParam_eq_ok {actuals actuals' : Actuals} {view : String} {formal : Decl}
    {actual : Expr Var} :
    ctx.bindParam m actuals view formal actual = .ok actuals' ↔
      formal.ty = actual.ty ∧ actuals.get? formal.name = none ∧
        ∃ marked, actual.resolve (marker ctx.scope m) = .ok marked ∧
          actuals' = actuals.insert formal.name marked := by
  unfold bindParam
  by_cases hty : formal.ty = actual.ty
  · simp only [hty, ne_eq, not_true_eq_false, if_false, true_and]
    by_cases hnew : actuals.get? formal.name = none
    · have hcontains : actuals.contains formal.name = false := by simp [SortedMap.contains, hnew]
      simp only [hcontains, Bool.false_eq_true, if_false, hnew, true_and]
      constructor
      · intro h
        obtain ⟨marked, hmarked, h⟩ := bind_eq_ok.mp h
        exact ⟨marked, hmarked, (Except.ok.inj h).symm⟩
      · rintro ⟨marked, hmarked, rfl⟩
        exact bind_eq_ok.mpr ⟨marked, hmarked, rfl⟩
    · have hcontains : actuals.contains formal.name = true := by
        simpa [SortedMap.contains, Option.isSome_iff_ne_none] using hnew
      simp only [hcontains, if_true, hnew, false_and, iff_false]
      intro h
      obtain ⟨_, -, h⟩ := bind_eq_ok.mp h
      cases h
  · simp only [hty, ne_eq, not_false_eq_true, if_true, false_and, iff_false]
    intro h
    cases h

/-- Binding the parameters of a pattern one after another builds up its environment. -/
theorem represents_bindParams (hs : ctx.Shows ρ m s) {p : Pattern} {atoms : List (Atom (Expr Var))}
    {actuals : Actuals} (hbind : ctx.bindParams m p atoms = .ok actuals) :
    Represents I ρ s actuals (p.environment I s atoms) := by
  rw [Pattern.environment, Pattern.bindings, List.foldl_flatMap]
  refine foldlM_rel (R := Represents I ρ s) ?_ ?_ hbind
  · rintro actuals env ⟨c, a⟩ actuals' - h hstep
    refine foldlM_rel (R := Represents I ρ s) ?_ h hstep
    rintro actuals env ⟨formal, actual⟩ actuals' - h hstep
    obtain ⟨-, -, marked, hmarked, rfl⟩ := bindParam_eq_ok.mp hstep
    simpa only [Expr.eval_of_resolve (marker_reads hs.2) hmarked] using h.insert formal.name marked
  · refine ⟨fun x e hx => ?_, fun x _ ty => rfl⟩
    cases hx

/-- What a definition says of atoms is its body in the environment of their parameters. -/
theorem eval_instantiateBody (hs : ctx.Shows ρ m s) {p : Pattern} {body : BoolExpr Var}
    {atoms : List (Atom (Expr Var))} {r : Relation}
    (h : ctx.instantiateBody m p body atoms = .ok r) :
    r.eval I ρ = body.eval I (p.environment I s atoms) := by
  obtain ⟨actuals, hbind, h⟩ := bind_eq_ok.mp h
  exact BoolExpr.eval_of_resolve ((represents_bindParams hs hbind).reads hs.1) h

/-- What a match says of a state: if its guard holds, then so do the bodies of all definitions of
its shape. -/
def Says (ctx : Context) (I : Interpretation) (v : Match Var) (s : Valuation Var) : Prop :=
  v.guard.eval I s = true → ∀ d ∈ ctx.definitions, fits d.pattern v.item = true →
    ∀ body, d.body = some body → body.eval I (d.pattern.environment I s v.item) = true

/-- The applicable definitions are those with a body whose patterns fit the atoms. -/
theorem mem_applicable {atoms : List (Atom (Expr Var))} {p : Pattern} {body : BoolExpr Var} :
    (p, body) ∈ ctx.applicable atoms ↔
      ∃ d ∈ ctx.definitions, fits d.pattern atoms = true ∧ d.pattern = p ∧ d.body = some body := by
  simp only [applicable, List.mem_filterMap, List.mem_filter, Option.map_eq_some_iff,
    Prod.mk.injEq, exists_eq_right_right, and_assoc]
  constructor
  · rintro ⟨d, hd, hfits, hbody, hp⟩
    exact ⟨d, hd, hfits, hp, hbody⟩
  · rintro ⟨d, hd, hfits, hp, hbody⟩
    exact ⟨d, hd, hfits, hbody, hp⟩

/-- An instantiated match is true exactly of the states of which the match says the truth. -/
theorem eval_instantiate (hs : ctx.Shows ρ m s) {v : Match Var} {r : Relation}
    (h : ctx.instantiate m v = .ok r) : r.eval I ρ = true ↔ ctx.Says I v s := by
  obtain ⟨guard, hguard, h⟩ := bind_eq_ok.mp h
  obtain ⟨bodies, hbodies, h⟩ := bind_eq_ok.mp h
  cases h
  obtain ⟨hmem, hfrom⟩ := mapM_eq_ok hbodies
  rw [BoolExpr.eval_entails, BoolExpr.eval_of_resolve (marker_reads hs.2) hguard, Bool.or_eq_true,
    Bool.not_eq_true', ← Bool.not_eq_true, ← Decidable.imp_iff_not_or, BoolExpr.eval_all_eq_true]
  refine imp_congr_right fun _ => ?_
  constructor
  · intro hall d hd hfits body hbody
    obtain ⟨r, hr, hinst⟩ := hmem (d.pattern, body)
      (mem_applicable.mpr ⟨d, hd, hfits, rfl, hbody⟩)
    rw [← eval_instantiateBody hs hinst]
    exact hall r hr
  · intro htrue r hr
    obtain ⟨⟨p, body⟩, hmem, hinst⟩ := hfrom r hr
    obtain ⟨d, hd, hfits, rfl, hbody⟩ := mem_applicable.mp hmem
    rw [eval_instantiateBody hs hinst]
    exact htrue d hd hfits body hbody

/-! ### Instantiation at another moment -/

/-- Two tables of actual parameters have the same names at the same types. -/
def Alike (actuals actuals' : Actuals) : Prop :=
  ∀ x, (actuals.get? x).map Expr.ty = (actuals'.get? x).map Expr.ty

/-- Tables stay alike when parameters of one type are added under one name. -/
theorem Alike.insert {actuals actuals' : Actuals} (h : Alike actuals actuals') (x : Var)
    {e e' : Expr MarkedVar} (hty : e.ty = e'.ty) :
    Alike (actuals.insert x e) (actuals'.insert x e') := by
  intro y
  rw [SortedMap.get?_insert, SortedMap.get?_insert]
  split
  next => simp [hty]
  next => exact h y

/-- Under alike tables a body can read the same variables. -/
theorem Alike.coveredBy {actuals actuals' : Actuals} (h : Alike actuals actuals') (globals : Scope)
    (m m' : Mark) :
    (actuals.resolver fun ty x => do
        globals.expect x ty
        .ok ⟨m, x⟩).CoveredBy
      (actuals'.resolver fun ty x => do
        globals.expect x ty
        .ok ⟨m', x⟩) := by
  rintro ⟨ty, x⟩ e he
  have hx := h x
  rcases Actuals.image_resolver_eq_ok.mp he with ⟨hget, rfl⟩ | ⟨hnone, y, hy, rfl⟩
  · rw [hget] at hx
    obtain ⟨e', hget', hty⟩ := Option.map_eq_some_iff.mp hx.symm
    exact ⟨e', Actuals.image_resolver_eq_ok.mpr (.inl ⟨hget', hty⟩)⟩
  · rw [hnone] at hx
    obtain ⟨_, hexpect, -⟩ := bind_eq_ok.mp hy
    have hfree : (do globals.expect x ty; .ok (⟨m', x⟩ : MarkedVar)) = .ok ⟨m', x⟩ :=
      bind_eq_ok.mpr ⟨_, hexpect, rfl⟩
    have hnone' : actuals'.get? x = none := Option.map_eq_none_iff.mp hx.symm
    exact ⟨_, Actuals.image_resolver_eq_ok.mpr (.inr ⟨hnone', _, hfree, rfl⟩)⟩

/-- A parameter that can be bound at one moment can be bound at another one. -/
theorem exists_bindParam {m' : Mark} {actuals₁ actuals₂ actuals : Actuals} {view : String}
    {formal : Decl} {actual : Expr Var} (halike : Alike actuals₁ actuals)
    (h : ctx.bindParam m actuals₁ view formal actual = .ok actuals₂) :
    ∃ actuals', ctx.bindParam m' actuals view formal actual = .ok actuals' ∧
      Alike actuals₂ actuals' := by
  obtain ⟨hty, hnew, marked, hmarked, rfl⟩ := bindParam_eq_ok.mp h
  obtain ⟨marked', hmarked'⟩ := Expr.exists_resolve (marker_coveredBy ctx.scope m m') hmarked
  have hnew' : actuals.get? formal.name = none := by
    simpa [hnew] using (halike formal.name).symm
  have hsame : marked.ty = marked'.ty := by
    rw [Expr.ty_of_resolve hmarked, Expr.ty_of_resolve hmarked']
  refine ⟨_, bindParam_eq_ok.mpr ⟨hty, hnew', marked', hmarked', rfl⟩, ?_⟩
  exact halike.insert formal.name hsame

/-- A body that can be instantiated at one moment can be instantiated at another one. -/
theorem exists_instantiateBody {p : Pattern} {body : BoolExpr Var} {atoms : List (Atom (Expr Var))}
    {r : Relation} (h : ctx.instantiateBody m p body atoms = .ok r) (m' : Mark) :
    ∃ r', ctx.instantiateBody m' p body atoms = .ok r' := by
  obtain ⟨actuals, hbind, h⟩ := bind_eq_ok.mp h
  obtain ⟨actuals', hbind', halike⟩ : ∃ actuals', ctx.bindParams m' p atoms = .ok actuals' ∧
      Alike actuals actuals' := by
    refine foldlM_sim (R := Alike) ?_ (fun _ => rfl) hbind
    rintro s t ⟨c, a⟩ s' - hR hstep
    refine foldlM_sim (R := Alike) ?_ hR hstep
    rintro s t ⟨formal, actual⟩ s' - hR hstep
    exact exists_bindParam hR hstep
  obtain ⟨r', hr'⟩ := BoolExpr.exists_resolve (halike.coveredBy ctx.globals m m') h
  exact ⟨r', bind_eq_ok.mpr ⟨actuals', hbind', hr'⟩⟩

/-- A match that can be instantiated at one moment can be instantiated at another one. -/
theorem exists_instantiate {v : Match Var} {r : Relation} (h : ctx.instantiate m v = .ok r)
    (m' : Mark) : ∃ r', ctx.instantiate m' v = .ok r' := by
  obtain ⟨guard, hguard, h⟩ := bind_eq_ok.mp h
  obtain ⟨bodies, hbodies, h⟩ := bind_eq_ok.mp h
  obtain ⟨guard', hguard'⟩ := BoolExpr.exists_resolve (marker_coveredBy ctx.scope m m') hguard
  have hbody : ∀ d ∈ ctx.applicable v.item,
      ∃ r, ctx.instantiateBody m' d.1 d.2 v.item = .ok r := by
    intro d hd
    obtain ⟨r, -, hr⟩ := (mapM_eq_ok hbodies).1 d hd
    exact exists_instantiateBody hr m'
  obtain ⟨bodies', hbodies'⟩ := mapM_isOk hbody
  refine ⟨guard'.entails (.all bodies'), bind_eq_ok.mpr ⟨guard', hguard', ?_⟩⟩
  exact bind_eq_ok.mpr ⟨bodies', hbodies', rfl⟩

end Context

end Obligation

end ViewLogic
