import ViewLogic.Expr.Simplify
import ViewLogic.Proofs.Composition
import ViewLogic.Proofs.FirstFailures
import ViewLogic.Proofs.Translatable

/-!
# Obligations read declared variables only

Every leaf of an obligation is a declared variable, read at the type of its declaration. The leaves
come from guards, actual parameters and definitions, which are resolved against the scope, from
commands, which are checked against it, and from frames, which list it. Composing relations changes
the moments at which variables are read but neither their names nor their types.
-/

namespace ViewLogic

/-- Every variable of a list of leaves is declared at the type at which it is read. -/
def Scope.Covers (scope : Scope) (leaves : List (Leaf MarkedVar)) : Prop :=
  ∀ leaf ∈ leaves, scope.get? leaf.var.name = some leaf.ty

section Resolve

variable {ε V W : Type} {R : Resolver ε V W} {P : Leaf W → Prop}

/-- What holds of the leaves of every image holds of the leaves of all the images. -/
theorem Resolver.forall_flatMap_imageLeaves
    (hR : ∀ leaf e, R.image leaf = .ok e → ∀ l ∈ e.leaves, P l) {leaves : List (Leaf V)}
    (hleaves : R.check leaves = .ok ()) : ∀ l ∈ leaves.flatMap R.images.imageLeaves, P l := by
  intro l hl
  obtain ⟨leaf, hleaf, hl⟩ := List.mem_flatMap.mp hl
  obtain ⟨e, he⟩ := check_eq_ok.mp hleaves leaf hleaf
  rw [imageLeaves_images he] at hl
  exact hR leaf e he l hl

/-- The leaves of a resolved expression are those of the images. -/
theorem BoolExpr.forall_leaves_of_resolve
    (hR : ∀ leaf e, R.image leaf = .ok e → ∀ l ∈ e.leaves, P l) {e : BoolExpr V} {r : BoolExpr W}
    (h : e.resolve R = .ok r) : ∀ l ∈ r.leaves, P l := by
  rw [(Expr.resolve_eq R).2.1] at h
  obtain ⟨_, hleaves, rfl⟩ := map_eq_ok.mp h
  rw [(Expr.leaves_subst R.images).2.1]
  exact Resolver.forall_flatMap_imageLeaves hR hleaves

/-- What holds of the leaves of every image holds of the leaves of a resolved expression. -/
theorem Expr.forall_leaves_of_resolve
    (hR : ∀ leaf e, R.image leaf = .ok e → ∀ l ∈ e.leaves, P l) {e : Expr V} {r : Expr W}
    (h : e.resolve R = .ok r) : ∀ l ∈ r.leaves, P l := by
  rw [(Expr.resolve_eq R).2.2] at h
  obtain ⟨_, hleaves, rfl⟩ := map_eq_ok.mp h
  rw [(Expr.leaves_subst R.images).2.2]
  exact Resolver.forall_flatMap_imageLeaves hR hleaves

end Resolve

/-- Forgetting symbolic leaves reads no new variable. -/
theorem BoolExpr.leaves_forgetSymbols_subset {V : Type} (e : BoolExpr V) :
    e.forgetSymbols.leaves ⊆ e.leaves := by
  induction e using BoolExpr.induct with
  | lit | var | sym | cmp | not => exact List.Subset.refl _
  | conn op es ih =>
    intro leaf hleaf
    cases op with
    | or => exact hleaf
    | and =>
      rw [forgetSymbols, forgetSymbolsAll_eq] at hleaf
      have hmem := mem_leaves_of_combine hleaf
      rw [leavesAll_eq, List.flatMap_map] at hmem
      obtain ⟨e, he, hleaf⟩ := List.mem_flatMap.mp hmem
      rw [leaves, leavesAll_eq]
      exact List.mem_flatMap.mpr ⟨e, he, ih e he hleaf⟩
  | implies l r _ ihr =>
    intro leaf hleaf
    rw [forgetSymbols] at hleaf
    split at hleaf
    next => simp [leaves] at hleaf
    next =>
      rw [leaves, List.mem_append] at hleaf ⊢
      exact hleaf.imp_right fun h => ihr h
  | eq l r =>
    intro leaf hleaf
    rw [forgetSymbols] at hleaf
    split at hleaf
    · simp [leaves] at hleaf
    · exact hleaf

namespace Scope

variable {scope : Scope}

/-- A conjunction of covered formulas is covered. -/
theorem covers_all {es : List Relation} (h : ∀ e ∈ es, scope.Covers e.leaves) :
    scope.Covers (BoolExpr.all es).leaves := by
  intro leaf hleaf
  have hmem := BoolExpr.mem_leaves_of_combine hleaf
  rw [BoolExpr.leavesAll_eq] at hmem
  obtain ⟨e, he, hleaf⟩ := List.mem_flatMap.mp hmem
  exact h e he leaf hleaf

/-- A conjunction of two covered formulas is covered. -/
theorem covers_all_pair {l r : Relation} (hl : scope.Covers l.leaves)
    (hr : scope.Covers r.leaves) : scope.Covers (BoolExpr.all [l, r]).leaves := by
  apply covers_all
  simp [hl, hr]

/-- An implication between covered formulas is covered. -/
theorem covers_entails {l r : Relation} (hl : scope.Covers l.leaves) (hr : scope.Covers r.leaves) :
    scope.Covers (l.entails r).leaves := by
  intro leaf hleaf
  rcases List.mem_append.mp (BoolExpr.mem_leaves_of_entails hleaf) with hleaf | hleaf
  · exact hl leaf hleaf
  · exact hr leaf hleaf

/-- A declared variable is covered at its type. -/
theorem covers_ofVar {ty : Ty} {v : MarkedVar} (h : scope.get? v.name = some ty) :
    scope.Covers (Expr.ofVar ty v).leaves := by
  intro leaf hleaf
  have hleaf : leaf = ⟨ty, v⟩ := by
    cases ty <;> simpa [Expr.ofVar, Expr.leaves, IntExpr.leaves, BoolExpr.leaves] using hleaf
  subst hleaf
  exact h

/-- A renaming that keeps names keeps declarations. -/
theorem covers_rename {f : MarkedVar → MarkedVar} (hf : ∀ v, (f v).name = v.name) {e : Relation}
    (h : scope.Covers e.leaves) : scope.Covers (e.rename f).leaves := by
  intro leaf hleaf
  obtain ⟨leaf', hleaf', rfl⟩ := BoolExpr.mem_leaves_rename.mp hleaf
  rw [hf]
  exact h leaf' hleaf'

end Scope

/-! ### Matches -/

namespace Obligation

variable {scope : Scope} {m : Mark}

/-- Marking gives images of declared variables only. -/
theorem covers_image_marker {leaf : Leaf Var} {e : Expr MarkedVar}
    (h : (marker scope m).image leaf = .ok e) : scope.Covers e.leaves := by
  obtain ⟨hexpect, rfl⟩ := image_marker_eq_ok.mp h
  exact Scope.covers_ofVar (Scope.expect_eq_ok.mp hexpect)

/-- All actual parameters read declared variables. -/
def ActualsCovered (scope : Scope) (actuals : Actuals) : Prop :=
  ∀ x e, actuals.get? x = some e → scope.Covers e.leaves

/-- No actual parameters read no undeclared variable. -/
theorem ActualsCovered.empty : ActualsCovered scope ∅ := by
  intro x e h
  cases h

/-- A covered expression can be added to covered actual parameters. -/
theorem ActualsCovered.insert {actuals : Actuals} (h : ActualsCovered scope actuals) (x : Var)
    {e : Expr MarkedVar} (he : scope.Covers e.leaves) :
    ActualsCovered scope (actuals.insert x e) := by
  intro y e' hget
  by_cases hy : y = x
  · subst hy
    rw [SortedMap.get?_insert_self] at hget
    cases hget
    exact he
  · rw [SortedMap.get?_insert_of_ne _ hy] at hget
    exact h y e' hget

/-- What a body says of actual parameters reads declared variables, if its free variables do. -/
theorem ActualsCovered.resolve {actuals : Actuals} (h : ActualsCovered scope actuals)
    {free : Ty → Var → Except Error MarkedVar}
    (hfree : ∀ ty x v, free ty x = .ok v → scope.get? v.name = some ty) {body : BoolExpr Var}
    {r : Relation} (hr : body.resolve (actuals.resolver free) = .ok r) : scope.Covers r.leaves := by
  refine BoolExpr.forall_leaves_of_resolve (fun leaf e he => ?_) hr
  rcases Actuals.image_resolver_eq_ok.mp he with ⟨hget, -⟩ | ⟨-, v, hv, rfl⟩
  · exact h leaf.var e hget
  · exact Scope.covers_ofVar (hfree leaf.ty leaf.var v hv)

namespace Context

variable {ctx : Context}

/-- The actual parameters that a match binds read declared variables. -/
theorem actualsCovered_bindParams {p : Pattern} {atoms : List (Atom (Expr Var))}
    {actuals : Actuals} (h : ctx.bindParams m p atoms = .ok actuals) :
    ActualsCovered ctx.scope actuals := by
  refine foldlM_inv (P := ActualsCovered ctx.scope) ?_ .empty h
  rintro actuals ⟨c, a⟩ actuals' - hcovered hstep
  refine foldlM_inv (P := ActualsCovered ctx.scope) ?_ hcovered hstep
  rintro actuals ⟨formal, actual⟩ actuals' - hcovered hstep
  obtain ⟨-, -, marked, hmarked, rfl⟩ := bindParam_eq_ok.mp hstep
  exact hcovered.insert formal.name
    (Expr.forall_leaves_of_resolve (fun _ _ => covers_image_marker) hmarked)

/-- What a match says reads declared variables, if the global ones are among them. -/
theorem covers_instantiate
    (hglobals : ∀ x ty, ctx.globals.get? x = some ty → ctx.scope.get? x = some ty) {v : Match Var}
    {r : Relation} (h : ctx.instantiate m v = .ok r) : ctx.scope.Covers r.leaves := by
  obtain ⟨guard, hguard, h⟩ := bind_eq_ok.mp h
  obtain ⟨bodies, hbodies, h⟩ := bind_eq_ok.mp h
  cases h
  apply Scope.covers_entails
  · exact BoolExpr.forall_leaves_of_resolve (fun _ _ => covers_image_marker) hguard
  · apply Scope.covers_all
    intro body hbody
    obtain ⟨⟨p, body⟩, -, hinst⟩ := (mapM_eq_ok hbodies).2 body hbody
    obtain ⟨actuals, hactuals, hresolve⟩ := bind_eq_ok.mp hinst
    refine (actualsCovered_bindParams hactuals).resolve (fun ty x v hv => ?_) hresolve
    obtain ⟨_, hexpect, hv⟩ := bind_eq_ok.mp hv
    cases hv
    exact hglobals x ty (Scope.expect_eq_ok.mp hexpect)

end Context

end Obligation

/-! ### Commands -/

/-- A command passes the check of a scope exactly if the scope covers every one of its
primitives. -/
theorem Command.checkScope_eq_ok {c : Command} {scope : Scope} :
    c.checkScope scope = .ok () ↔ ∀ p ∈ c, scope.Covers (Primitive.leaves p) := by
  rw [c.checkScope_eq, Scope.check_reader_eq_ok, List.forall_mem_flatMap]
  rfl

namespace Semantics

variable {s : Semantics} {scope : Scope}

/-- The parameters of a checked command read declared variables. -/
theorem covers_of_checkScope {c : Command} (h : c.checkScope scope = .ok ()) {p : Primitive}
    (hp : p ∈ c) {e : Expr MarkedVar} (he : e ∈ p.params) : scope.Covers e.leaves := by
  intro leaf hleaf
  exact Command.checkScope_eq_ok.mp h p hp leaf (List.mem_flatMap.mpr ⟨e, he, hleaf⟩)

open Obligation in
/-- Covered parameters are bound to covered actual parameters. -/
theorem actualsCovered_bind {name : String} {formals : List Decl} {params : List (Expr MarkedVar)}
    (hparams : ∀ e ∈ params, scope.Covers e.leaves) {actuals : Actuals}
    (h : bind name formals params = .ok actuals) : ActualsCovered scope actuals := by
  refine foldlM_inv (P := ActualsCovered scope) ?_ .empty h
  rintro actuals ⟨formal, actual⟩ actuals' hmem hcovered hstep
  dsimp only at hstep
  split at hstep
  next =>
    cases hstep
    exact hcovered.insert formal.name (hparams actual (List.of_mem_zip hmem).2)
  next => cases hstep

/-- The rule of a primitive reads what its actual parameters read. -/
theorem covers_instantiate {p : Primitive} (hparams : ∀ e ∈ p.params, scope.Covers e.leaves)
    {r : Relation} (h : s.instantiate p = .ok r) : scope.Covers r.leaves := by
  obtain ⟨rule, actuals, -, -, hactuals, hbody⟩ := instantiate_eq_ok.mp h
  refine (actualsCovered_bind hparams hactuals).resolve (fun ty x v hv => ?_) hbody
  cases hv

/-- The frame of a command reads declared variables. -/
theorem covers_frame (written : List Var) : scope.Covers (frame scope written).leaves := by
  apply Scope.covers_all
  intro e he
  obtain ⟨d, hd, rfl⟩ := List.mem_map.mp he
  have hget : scope.get? d.name = some d.ty := Scope.mem_decls.mp (List.mem_filter.mp hd).1
  intro leaf hleaf
  rw [BoolExpr.leaves] at hleaf
  rcases List.mem_append.mp hleaf with hleaf | hleaf
  · exact Scope.covers_ofVar hget leaf hleaf
  · exact Scope.covers_ofVar hget leaf hleaf

/-- The relation of a primitive reads declared variables. -/
theorem covers_primitiveRelation {p : Primitive} {r : Relation}
    (h : s.primitiveRelation scope p = .ok r) : scope.Covers r.leaves := by
  obtain ⟨hcheck, body, hbody, rfl⟩ := primitiveRelation_eq_ok.mp h
  have hparams : ∀ e ∈ p.params, scope.Covers e.leaves :=
    fun e he => covers_of_checkScope hcheck (List.mem_singleton_self p) he
  exact Scope.covers_all_pair (covers_instantiate hparams hbody) (covers_frame p.written)

/-- A composition of covered relations is covered. -/
theorem covers_compose {first second : Relation} (hfirst : scope.Covers first.leaves)
    (hsecond : scope.Covers second.leaves) : scope.Covers (first.compose second).leaves := by
  have hretime (old new : Mark) (v : MarkedVar) : (v.retime old new).name = v.name := by
    unfold MarkedVar.retime
    split <;> rfl
  have hbump (k : Stage) (v : MarkedVar) : (v.bump k).name = v.name := by
    unfold MarkedVar.bump
    split <;> rfl
  exact Scope.covers_all_pair (Scope.covers_rename (hretime _ _) hfirst)
    (Scope.covers_rename (hretime _ _) (Scope.covers_rename (hbump _) hsecond))

/-- The relation of a command reads declared variables. -/
theorem covers_commandRelation {c : Command} {r : Relation}
    (h : s.commandRelation scope c = .ok r) : scope.Covers r.leaves := by
  obtain ⟨relations, hrelations, h⟩ := bind_eq_ok.mp h
  cases h
  have hall : ∀ r ∈ relations, scope.Covers r.leaves := by
    intro r hr
    obtain ⟨p, -, hp⟩ := (mapM_eq_ok hrelations).2 r hr
    exact covers_primitiveRelation hp
  cases relations with
  | nil => exact covers_frame []
  | cons r rs =>
    obtain ⟨hr, hrs⟩ := List.forall_mem_cons.mp hall
    refine List.foldlRecOn (motive := fun r : Relation => scope.Covers r.leaves) rs
      Relation.compose hr ?_
    intro first hfirst second hsecond
    exact covers_compose hfirst (hrs second hsecond)

end Semantics

namespace Obligation.Context

variable {ctx : Context}

/-- The condition that a command adds to the precondition, and its relation, read declared
variables. -/
theorem covers_commandParts {cmd : Command} {parts : Option Relation × Relation}
    (h : ctx.commandParts cmd = .ok parts) :
    (∀ cond, parts.1 = some cond → ctx.scope.Covers cond.leaves) ∧
      ctx.scope.Covers parts.2.leaves := by
  unfold commandParts at h
  split at h
  next cond _ hassumed =>
    obtain ⟨_, hcheck, h⟩ := bind_eq_ok.mp h
    cases h
    obtain rfl : cmd = .assume cond := Command.eq_assume_of_assumed? hassumed
    refine ⟨?_, Semantics.covers_frame []⟩
    rintro _ ⟨⟩
    exact Semantics.covers_of_checkScope hcheck (List.mem_singleton_self _) (e := .bool cond)
      (List.mem_singleton_self _)
  next =>
    obtain ⟨r, hr, h⟩ := bind_eq_ok.mp h
    cases h
    refine ⟨?_, Semantics.covers_commandRelation hr⟩
    rintro _ ⟨⟩

/-- The obligations of a triple read declared variables. -/
theorem covers_obligations
    (hglobals : ∀ x ty, ctx.globals.get? x = some ty → ctx.scope.get? x = some ty) {t : Triple}
    {os : List Obligation} (h : ctx.obligations t = .ok os) {o : Obligation} (ho : o ∈ os) :
    ctx.scope.Covers o.leaves := by
  obtain ⟨held, parts, goals, hheld, hparts, hgoals, rfl⟩ := obligations_eq_ok.mp h
  obtain ⟨hcond, hrelation⟩ := covers_commandParts hparts
  have hmatches {m : Mark} {vs : List (Match Var)} {rs : List Relation}
      (hrs : vs.mapM (ctx.instantiate m) = .ok rs) : ∀ r ∈ rs, ctx.scope.Covers r.leaves := by
    intro r hr
    obtain ⟨v, -, hv⟩ := (mapM_eq_ok hrs).2 r hr
    exact covers_instantiate hglobals hv
  have hgoal : ∀ r ∈ (if goals.isEmpty then [.lit true] else goals), ctx.scope.Covers r.leaves := by
    split
    · simp [Scope.Covers, BoolExpr.leaves]
    · exact hmatches hgoals
  obtain ⟨n, hn, rfl⟩ := List.mem_mapIdx.mp ho
  intro leaf hleaf
  obtain ⟨e, he, hleaf⟩ := List.mem_flatMap.mp hleaf
  simp only [Obligation.parts, List.mem_cons, List.not_mem_nil, or_false] at he
  rcases he with rfl | rfl | rfl
  · split at hleaf
    next cond hsome =>
      exact Scope.covers_all_pair (Scope.covers_all (hmatches hheld)) (hcond cond hsome) leaf hleaf
    next => exact Scope.covers_all (hmatches hheld) leaf hleaf
  · split at hleaf
    · exact hrelation leaf (BoolExpr.leaves_forgetSymbols_subset _ hleaf)
    · exact hrelation leaf hleaf
  · exact hgoal _ (List.getElem_mem hn) leaf hleaf

end Obligation.Context

end ViewLogic
