import ViewLogic.Proofs.HeldViews
import ViewLogic.Proofs.ModelParts

/-!
# Types of parameters

The views of a method and the patterns of the definitions are checked against one table of
prototypes, which has one prototype for each name. So a view and a pattern of one name have
parameters of the same types, and a match keeps the atoms of the views that it comes from. The check
that a formal parameter has the type of its actual one therefore never fails, and binding parameters
can only fail for a variable in an actual parameter or for two formal parameters of one name.
-/

namespace ViewLogic

/-! ### Checked views and patterns -/

namespace Prototypes

/-- The prototype of a name has parameters of given types. -/
def Declares (ps : Prototypes) (name : String) (types : List Ty) : Prop :=
  ∃ p, ps.get? name = some p ∧ types = p.params.map (·.ty)

/-- The types of the parameters are determined by the name. -/
theorem Declares.unique {ps : Prototypes} {name : String} {types types' : List Ty}
    (h : ps.Declares name types) (h' : ps.Declares name types') : types = types' := by
  obtain ⟨p, hp, rfl⟩ := h
  obtain ⟨p', hp', rfl⟩ := h'
  rw [hp] at hp'
  cases hp'
  rfl

/-- A prototype that is found has the name and the number of parameters that were looked for. -/
theorem lookup_eq_ok {ps : Prototypes} {name : String} {arity : Nat} {p : Prototype}
    (h : ps.lookup name arity = .ok p) : ps.get? name = some p ∧ p.params.length = arity := by
  unfold lookup at h
  split at h
  next => cases h
  next hget =>
    split at h
    next hlength =>
      cases h
      exact ⟨hget, hlength⟩
    next => cases h

/-- Parameters that agree with those of the prototype one by one have its types. -/
theorem declares_of_lookup {α : Type} {ps : Prototypes} {name : String} {params : List α}
    {ty : α → Ty} {p : Prototype} (hlookup : ps.lookup name params.length = .ok p)
    (hty : ∀ e ∈ params.zip p.params, ty e.1 = e.2.ty) : ps.Declares name (params.map ty) := by
  obtain ⟨hget, hlength⟩ := lookup_eq_ok hlookup
  have hagree : List.Forall₂ (fun a d => ty a = d.ty) params p.params :=
    List.forall₂_iff_zip.mpr ⟨hlength.symm, fun {a d} => hty (a, d)⟩
  refine ⟨p, hget, ?_⟩
  rwa [← List.forall₂_eq_eq_eq, List.forall₂_map_left_iff, List.forall₂_map_right_iff]

/-- The components of a checked pattern have the parameter types of their prototypes. -/
theorem declares_of_checkPattern {ps : Prototypes} {p : Pattern} (h : ps.checkPattern p = .ok ())
    {c : Atom Decl} (hc : c ∈ p.components) : ps.Declares c.name (c.params.map (·.ty)) := by
  obtain ⟨proto, hlookup, h⟩ := bind_eq_ok.mp (forM_eq_ok.mp h c hc)
  exact declares_of_lookup hlookup fun e he => require_eq_ok.mp (forM_eq_ok.mp h e he)

/-- The atoms of a checked view have the parameter types of their prototypes. -/
theorem declares_of_checkView {ps : Prototypes} {v : View Var} (h : ps.checkView v = .ok ())
    {a : Atom (Expr Var)} (ha : a ∈ v.atoms) : ps.Declares a.name (a.params.map (·.ty)) := by
  obtain ⟨proto, hlookup, h⟩ := bind_eq_ok.mp (forM_eq_ok.mp h a ha)
  exact declares_of_lookup hlookup fun e he => require_eq_ok.mp (forM_eq_ok.mp h e he)

end Prototypes

/-! ### Atoms of matches -/

/-- Flattening a view keeps its atoms, those of both branches of a condition. -/
theorem View.map_item_heldUnder {V : Type} (v : View V) (guard : BoolExpr V) :
    (v.heldUnder guard).map (·.item) = v.atoms := by
  induction v generalizing guard with
  | unit => rfl
  | atom a => rfl
  | join l r ihl ihr => simp [heldUnder, atoms, ihl, ihr]
  | ite cond yes no ihyes ihno => simp [heldUnder, atoms, ihyes, ihno]

/-- The atoms of a match are atoms of the view that it is found in. -/
theorem View.mem_atoms_of_reify {v : View Var} {patterns : List Pattern} {w : Match Var}
    (hw : w ∈ (reify v.held patterns).elements) {a : Atom (Expr Var)} (ha : a ∈ w.item) :
    a ∈ v.atoms := by
  obtain ⟨p, -, f, -, rfl⟩ := mem_reify.mp hw
  obtain ⟨g, hg, rfl⟩ := List.mem_map.mp ha
  obtain ⟨i, rfl⟩ := List.mem_ofFn.mp hg
  have hheld : v.held.toList[f i] ∈ v.heldUnder (.lit true) :=
    (Bag.perm_toList_ofList _).mem_iff.mp (List.getElem_mem _)
  rw [← v.map_item_heldUnder (.lit true)]
  exact List.mem_map_of_mem hheld

namespace Script

variable {s : Script} {options : Options} {m : Model}

/-- The atoms of the matches of a model have the types of their prototypes. -/
theorem declares_of_mem_match (h : s.model options = .ok m) {t : Triple}
    (ht : t ∈ m.triples.values) {v : Match Var} (hv : v ∈ t.pre.elements ∨ v ∈ t.post.elements)
    {a : Atom (Expr Var)} (ha : a ∈ v.item) :
    m.prototypes.Declares a.name (a.params.map (·.ty)) := by
  obtain ⟨⟨name, _⟩, hentry, rfl⟩ := List.mem_map.mp ht
  obtain ⟨-, method, -, hfits, ht⟩ :=
    exists_method_of_get?_triples h (SortedMap.get?_eq_some_iff.mpr hentry)
  have hviews : ∀ w ∈ method.body.views, m.prototypes.checkView w = .ok () :=
    forM_eq_ok.mp (Method.fits_iff.mp hfits)
  obtain ⟨⟨pre, hpre, heqpre⟩, post, hpost, heqpost⟩ := Method.exists_views_of_mem_triples ht
  rcases hv with hv | hv
  · rw [heqpre] at hv
    exact Prototypes.declares_of_checkView (hviews pre hpre) (View.mem_atoms_of_reify hv ha)
  · rw [heqpost] at hv
    exact Prototypes.declares_of_checkView (hviews post hpost) (View.mem_atoms_of_reify hv ha)

end Script

/-! ### Binding parameters -/

/-- The parameters of atoms have the types of the formal parameters of a pattern, one by one. -/
def Pattern.Accepts (p : Pattern) (atoms : List (Atom (Expr Var))) : Prop :=
  List.Forall₂ (fun c a =>
    List.Forall₂ (fun formal actual => formal.ty = actual.ty) c.params a.params) p.components atoms

/-- A pattern accepts the atoms of its shape, if both fit the same prototypes. -/
theorem Prototypes.accepts {ps : Prototypes} {p : Pattern} {atoms : List (Atom (Expr Var))}
    (hp : ∀ c ∈ p.components, ps.Declares c.name (c.params.map (·.ty)))
    (hatoms : ∀ a ∈ atoms, ps.Declares a.name (a.params.map (·.ty)))
    (hfits : Obligation.fits p atoms = true) : p.Accepts atoms := by
  obtain ⟨hlength, hshape⟩ := List.forall₂_iff_zip.mp (Obligation.fits_iff.mp hfits)
  refine List.forall₂_iff_zip.mpr ⟨hlength, fun {c a} hmem => ?_⟩
  obtain ⟨hc, ha⟩ := List.of_mem_zip hmem
  have hname : c.name = a.name := (Atom.sameShape_iff.mp (hshape hmem)).1
  have htypes : c.params.map (·.ty) = a.params.map (·.ty) :=
    (hp c hc).unique (hname ▸ hatoms a ha)
  rwa [← List.forall₂_eq_eq_eq, List.forall₂_map_left_iff, List.forall₂_map_right_iff] at htypes

/-- A pattern accepts atoms at the types of its parameters. -/
theorem Pattern.Accepts.ty_eq {p : Pattern} {atoms : List (Atom (Expr Var))} (h : p.Accepts atoms)
    {c : Atom Decl} {a : Atom (Expr Var)} (hmem : (c, a) ∈ p.components.zip atoms)
    {b : Decl × Expr Var} (hb : b ∈ c.params.zip a.params) : b.1.ty = b.2.ty :=
  (List.forall₂_iff_zip.mp ((List.forall₂_iff_zip.mp h).2 hmem)).2 hb

namespace Obligation.Context

variable {ctx : Context} {m : Mark}

/-- Gives one formal parameter its actual one, read at a moment, whatever their types. -/
def bindUnchecked (ctx : Context) (m : Mark) (actuals : Actuals) (b : Decl × Expr Var) :
    Except Error Actuals := do
  let marked ← b.2.resolve (marker ctx.scope m)
  if actuals.contains b.1.name then .error (.duplicateVar b.1.name)
  else .ok (actuals.insert b.1.name marked)

/-- Between parameters of the same types the comparison of types is redundant. -/
theorem bindParams_of_accepts {p : Pattern} {atoms : List (Atom (Expr Var))}
    (h : p.Accepts atoms) :
    ctx.bindParams m p atoms = (p.bindings atoms).foldlM (ctx.bindUnchecked m) ∅ := by
  rw [Pattern.bindings, foldlM_flatMap]
  refine foldlM_congr (fun actuals e he => ?_) ∅
  refine foldlM_congr (fun actuals b hb => ?_) actuals
  have hty : b.1.ty = b.2.ty := h.ty_eq he hb
  simp only [bindParam, hty, ne_eq, not_true_eq_false, if_false]
  rfl

/-- A parameter that cannot be read has a variable that is not declared at its type. -/
theorem expect_of_resolve {actual : Expr Var} {e : Error}
    (h : actual.resolve (marker ctx.scope m) = .error e) :
    ∃ leaf ∈ actual.leaves, ctx.scope.expect leaf.var leaf.ty = .error e := by
  rw [(Expr.resolve_eq _).2.2] at h
  obtain ⟨leaf, hleaf, himage⟩ := ((marker ctx.scope m).failsWith_check actual.leaves).map e h
  exact ⟨leaf, hleaf, expect_of_image_marker himage⟩

/-- Parameters are bound one after another until a variable is not declared or a name comes twice,
among those bound before and those still to bind. -/
theorem foldlM_bindUnchecked_fails {l : List (Decl × Expr Var)} {actuals : Actuals} {e : Error}
    (h : l.foldlM (ctx.bindUnchecked m) actuals = .error e) :
    (∃ b ∈ l, ∃ leaf ∈ b.2.leaves, ctx.scope.expect leaf.var leaf.ty = .error e) ∨
      ∃ x, e = .duplicateVar x ∧ 2 ≤ (actuals.keys ++ l.map (·.1.name)).count x := by
  induction l generalizing actuals with
  | nil => cases h
  | cons b l ih =>
    rw [List.foldlM_cons, bindUnchecked] at h
    cases hresolve : b.2.resolve (marker ctx.scope m) with
    | error e' =>
      rw [hresolve] at h
      cases h
      exact .inl ⟨b, List.mem_cons_self, expect_of_resolve hresolve⟩
    | ok marked =>
      rw [hresolve] at h
      by_cases hcontains : actuals.contains b.1.name = true
      · simp only [bind, Except.bind, hcontains, if_true] at h
        cases h
        exact .inr ⟨b.1.name, rfl, SortedMap.two_le_count_keys hcontains _⟩
      · have hperm : ((actuals.insert b.1.name marked).keys ++ l.map (·.1.name)).Perm
            (actuals.keys ++ (b :: l).map (·.1.name)) :=
          SortedMap.perm_keys_insert_append hcontains marked _
        simp only [bind, Except.bind, hcontains] at h
        rcases ih h with ⟨b', hb', hleaf⟩ | ⟨x, rfl, hcount⟩
        · exact .inl ⟨b', List.mem_cons_of_mem _ hb', hleaf⟩
        · exact .inr ⟨x, rfl, by rwa [← hperm.count_eq]⟩

end Obligation.Context

namespace Script

variable {s : Script} {options : Options} {m : Model}

/-- In the model of a script, whatever its diagnostics, the actual parameters of every match have
the types of the formal parameters of every definition of its shape. So the comparison of types in
the binding of parameters is redundant, and binding fails only for a variable of an actual parameter
that is not declared at its type, or for a name that two formal parameters have. -/
theorem parameter_types_agree (h : s.model options = .ok m) {t : Triple}
    (ht : t ∈ m.triples.values) {v : Match Var} (hv : v ∈ t.pre.elements ∨ v ∈ t.post.elements)
    {d : Definition} (hd : d ∈ m.definitions) (hfits : Obligation.fits d.pattern v.item = true) :
    d.pattern.Accepts v.item ∧
    ∀ (ctx : Obligation.Context) (mark : Mark),
      ctx.bindParams mark d.pattern v.item =
        (d.pattern.bindings v.item).foldlM (ctx.bindUnchecked mark) ∅ ∧
      ∀ e, ctx.bindParams mark d.pattern v.item = .error e →
        (∃ b ∈ d.pattern.bindings v.item, ∃ leaf ∈ b.2.leaves,
          ctx.scope.expect leaf.var leaf.ty = .error e) ∨
        ∃ x, e = .duplicateVar x ∧
          2 ≤ ((d.pattern.bindings v.item).map (·.1.name)).count x := by
  have hpattern : m.prototypes.checkPattern d.pattern = .ok () := by
    obtain ⟨globals, locals, -, rfl⟩ := model_eq_ok_iff.mp h
    exact Definition.fits_iff.mp (List.mem_filter.mp hd).2
  have haccepts : d.pattern.Accepts v.item :=
    Prototypes.accepts (fun c hc => Prototypes.declares_of_checkPattern hpattern hc)
      (fun a ha => declares_of_mem_match h ht hv ha) hfits
  refine ⟨haccepts, fun ctx mark => ⟨Obligation.Context.bindParams_of_accepts haccepts, ?_⟩⟩
  intro e he
  rw [Obligation.Context.bindParams_of_accepts haccepts] at he
  exact Obligation.Context.foldlM_bindUnchecked_fails he

/-- A second prototype of other types and a method that fits only that one are reported. The match
of two atoms, one of them under a condition, fits a pattern whose formal parameters share a name:
binding fails for this name, or before that for the variable. -/
theorem parameter_types_agree_repeated :
    let a : Atom (Expr Var) := ⟨"V", [.int (.var "x")]⟩
    let c : Atom Decl := ⟨"V", [⟨.int, "p"⟩]⟩
    let shape : Pattern := .join (.atom c) (.atom c)
    let held : View Var := .join (.atom a) (.ite (.var "b") (.atom a) .unit)
    let s : Script :=
      ⟨[⟨"V", [⟨.int, "v"⟩]⟩, ⟨"V", [⟨.bool, "v"⟩]⟩], [⟨.bool, "b"⟩, ⟨.int, "x"⟩], [],
        [⟨shape, none⟩],
        [⟨"bad", .done (.atom ⟨"V", [.bool (.var "b")]⟩)⟩,
          ⟨"m", .next .unit (.prim []) (.done held)⟩]⟩
    let t : Triple := ⟨"m_C0", ∅, [], reify held.held [shape]⟩
    let v : Match Var := ⟨.var "b", [a, a]⟩
    ∃ m d, s.model .standard = .ok m ∧ m.diagnostics.length = 2 ∧ t ∈ m.triples.values ∧
      v ∈ t.post.elements ∧ d ∈ m.definitions ∧ d.pattern = shape ∧
      Obligation.fits d.pattern v.item = true ∧ d.pattern.Accepts v.item ∧
      ∀ (ctx : Obligation.Context) (mark : Mark) e,
        ctx.bindParams mark d.pattern v.item = .error e →
          ctx.scope.expect "x" .int = .error e ∨ e = .duplicateVar "p" := by
  intro a c shape held s t v
  have hmodel : (s.model .standard).map
      (fun m => (m.diagnostics.length, m.patterns, m.triples.get? "m_C0")) =
      .ok (2, [shape], some t) := by
    decide +kernel
  obtain ⟨m, hm, heq⟩ := map_eq_ok.mp hmodel
  simp only [Prod.mk.injEq] at heq
  obtain ⟨hlength, hpatterns, hget⟩ := heq
  have ht : t ∈ m.triples.values := SortedMap.mem_values_of_get? hget
  have hv : v ∈ t.post.elements := by decide +kernel
  have hshape : shape ∈ m.patterns := by simp [hpatterns]
  obtain ⟨d, hd, hpattern⟩ := List.mem_map.mp hshape
  have hfits : Obligation.fits d.pattern v.item = true := by
    rw [hpattern]
    decide +kernel
  obtain ⟨haccepts, hbind⟩ := parameter_types_agree hm ht (.inr hv) hd hfits
  refine ⟨m, d, hm, hlength, ht, hv, hd, hpattern, hfits, haccepts, fun ctx mark e he => ?_⟩
  have hbindings : d.pattern.bindings v.item =
      [(⟨.int, "p"⟩, .int (.var "x")), (⟨.int, "p"⟩, .int (.var "x"))] := by
    rw [hpattern]
    rfl
  have hcause := (hbind ctx mark).2 e he
  simp only [hbindings, List.mem_cons, List.not_mem_nil, or_false, or_self, exists_eq_left,
    Expr.leaves, IntExpr.leaves, List.map_cons, List.map_nil] at hcause
  rcases hcause with hexpect | ⟨x, rfl, hcount⟩
  · exact .inl hexpect
  · have hx : x ∈ ["p", "p"] := List.count_pos_iff.mp (by omega)
    obtain rfl : x = "p" := by simpa using hx
    exact .inr rfl

end Script

end ViewLogic
