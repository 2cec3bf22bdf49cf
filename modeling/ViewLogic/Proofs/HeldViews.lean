import ViewLogic.Proofs.Instantiation
import ViewLogic.Proofs.Selections

/-!
# The declared meaning of held views

A definition speaks of a held bag wherever its components can be assigned different occurrences
whose guards hold. A match keeps neither the definition that gave rise to it nor the occurrences
that it consumed, and definitions of one shape share their matches. All the same, instantiating
every different match says exactly what the definitions say.
-/

namespace ViewLogic

/-- A definition holds of a bag in a state: whenever its components are assigned different
occurrences of their names and numbers of parameters, and the guards of these hold, its body holds
with the formal parameters standing for the values of the actual ones. -/
def Definition.HoldsOf (d : Definition) (I : Interpretation) (held : Bag (Held Var))
    (s : Valuation Var) : Prop :=
  ∀ body, d.body = some body →
    ∀ f : Fin d.pattern.components.length ↪ Fin held.toList.length,
      Assigns d.pattern.components held.toList f →
      (∀ i, held.toList[f i].guard.eval I s = true) →
      body.eval I (d.pattern.environment I s (List.ofFn fun i => held.toList[f i].item)) = true

namespace Obligation

/-- A pattern fits atoms exactly if they have the shapes of its components, one by one. -/
theorem fits_iff {p : Pattern} {atoms : List (Atom (Expr Var))} :
    fits p atoms = true ↔
      List.Forall₂ (fun c a => c.sameShape a = true) p.components atoms := by
  rw [List.forall₂_iff_zip, fits, Bool.and_eq_true, beq_iff_eq, List.all_eq_true]
  simp only [Prod.forall]

section Fits

variable {p : Pattern} {occurrences : List (Held Var)}

/-- A pattern fits the atoms that a map from its components assigns. -/
theorem fits_of_assigns {f : Fin p.components.length ↪ Fin occurrences.length}
    (h : Assigns p.components occurrences f) :
    fits p ((assigned occurrences f).map (·.item)) = true := by
  rw [fits_iff, List.forall₂_iff_get]
  refine ⟨by simp [assigned], fun n hn _ => ?_⟩
  simpa [assigned] using Atom.sameShape_iff.mpr (h ⟨n, hn⟩)

/-- If a pattern fits assigned atoms, then its own components can be assigned their occurrences. -/
theorem assigns_of_fits {n : Nat} {f : Fin n ↪ Fin occurrences.length}
    (h : fits p ((assigned occurrences f).map (·.item)) = true) :
    ∃ f' : Fin p.components.length ↪ Fin occurrences.length,
      Assigns p.components occurrences f' ∧ assigned occurrences f' = assigned occurrences f := by
  rw [fits_iff, List.forall₂_iff_get] at h
  obtain ⟨hlength, h⟩ := h
  obtain rfl : n = p.components.length := by simpa [assigned] using hlength.symm
  refine ⟨f, fun i => ?_, rfl⟩
  have hshape := h i.val i.isLt (by simp [assigned])
  exact Atom.sameShape_iff.mp (by simpa [assigned] using hshape)

end Fits

namespace Context

variable {ctx : Context} {I : Interpretation} {s : Valuation Var}

/-- The patterns of the definitions. -/
def patterns (ctx : Context) : List Pattern := ctx.definitions.map (·.pattern)

/-- The matches of a bag say of a state what the definitions say of the bag. -/
theorem says_reify_iff {held : Bag (Held Var)} :
    (∀ v ∈ (reify held ctx.patterns).elements, ctx.Says I v s) ↔
      ∀ d ∈ ctx.definitions, d.HoldsOf I held s := by
  have hguards {n : Nat} (f : Fin n ↪ Fin held.toList.length) :
      (Match.ofAssigned (assigned held.toList f)).guard.eval I s = true ↔
        ∀ i, held.toList[f i].guard.eval I s = true := by
    simp [Match.ofAssigned, assigned, BoolExpr.eval_all_eq_true]
  have hitems {n : Nat} (f : Fin n ↪ Fin held.toList.length) :
      (assigned held.toList f).map (·.item) = List.ofFn fun i => held.toList[f i].item :=
    List.map_ofFn
  constructor
  · intro htrue d hd body hbody f hf hguard
    have hv : Match.ofAssigned (assigned held.toList f) ∈ (reify held ctx.patterns).elements :=
      mem_reify.mpr ⟨d.pattern, List.mem_map_of_mem hd, f, hf, rfl⟩
    rw [← hitems]
    exact htrue _ hv ((hguards f).mpr hguard) d hd (fits_of_assigns hf) body hbody
  · intro hholds v hv hguard d hd hfits body hbody
    obtain ⟨p, -, f, -, rfl⟩ := mem_reify.mp hv
    -- The match may come from another definition; its occurrences serve this one as well.
    obtain ⟨f', hf', hsame⟩ := assigns_of_fits hfits
    rw [← hsame] at hguard ⊢
    have hbodyHolds := hholds d hd body hbody f' hf' ((hguards f').mp hguard)
    rwa [← hitems] at hbodyHolds

/-- Instantiating every different match of a bag says of the state at a moment exactly what the
definitions say of the bag, whenever no instantiation fails. -/
theorem eval_reify_iff (ctx : Context) (held : Bag (Held Var)) (m : Mark) (I : Interpretation)
    (ρ : Valuation MarkedVar)
    (hok : ∀ v ∈ (reify held ctx.patterns).elements, ∃ r, ctx.instantiate m v = .ok r) :
    ∃ rs, (reify held ctx.patterns).elements.mapM (ctx.instantiate m) = .ok rs ∧
      ((BoolExpr.all rs).eval I ρ = true ↔
        ∀ d ∈ ctx.definitions, d.HoldsOf I held (ρ.stateAt m)) := by
  obtain ⟨rs, hrs⟩ := mapM_isOk hok
  obtain ⟨hmem, hfrom⟩ := mapM_eq_ok hrs
  refine ⟨rs, hrs, ?_⟩
  rw [BoolExpr.eval_all_eq_true, ← says_reify_iff]
  constructor
  · intro hall v hv
    obtain ⟨r, hr, hinst⟩ := hmem v hv
    exact (eval_instantiate (ctx.shows_stateAt ρ m) hinst).mp (hall r hr)
  · intro htrue r hr
    obtain ⟨v, hv, hinst⟩ := hfrom r hr
    exact (eval_instantiate (ctx.shows_stateAt ρ m) hinst).mpr (htrue v hv)

/-- Two definitions of one shape, a formal parameter `x` in front of the variable `x`, and an actual
parameter `y` that is named as a formal one: in a state with `x = 1` and `y = 2` they hold as long
as one of the atoms is not there. -/
theorem eval_reify_iff_shadowed :
    let I : Interpretation := ⟨fun _ => 0, 0, fun _ _ => false, fun _ _ => 0, fun _ _ => false⟩
    let scope : Scope := .ofList [("b", .bool), ("x", .int), ("y", .int)]
    let shape (x y : Var) : Pattern := .join (.atom ⟨"A", [⟨.int, x⟩]⟩) (.atom ⟨"A", [⟨.int, y⟩]⟩)
    let ctx : Context := ⟨scope, scope,
      [⟨shape "x" "y", some (.cmp .lt (.var "x") (.var "y"))⟩,
        ⟨shape "u" "v", some (.cmp .le (.var "x") (.var "u"))⟩], .core, .standard⟩
    let held : Bag (Held Var) :=
      .ofList [⟨.var "b", ⟨"A", [.int (.var "y")]⟩⟩, ⟨.lit true, ⟨"A", [.int (.var "x")]⟩⟩]
    let ρ (b : Bool) : Valuation MarkedVar := ⟨fun v => if v.name = "x" then 1 else 2, fun _ => b⟩
    (∀ v ∈ (reify held ctx.patterns).elements, ∃ r, ctx.instantiate .after v = .ok r) ∧
      (∀ d ∈ ctx.definitions, d.HoldsOf I held ((ρ false).stateAt .after)) ∧
      ¬∀ d ∈ ctx.definitions, d.HoldsOf I held ((ρ true).stateAt .after) := by
  intro I scope shape ctx held ρ
  have htruth (b : Bool) : ((reify held ctx.patterns).elements.mapM (ctx.instantiate .after)).map
      (fun rs => (BoolExpr.all rs).eval I (ρ b)) = .ok !b := by
    cases b <;> decide +kernel
  have hok : ∀ v ∈ (reify held ctx.patterns).elements, ∃ r, ctx.instantiate .after v = .ok r := by
    obtain ⟨rs, hrs, -⟩ := map_eq_ok.mp (htruth true)
    intro v hv
    obtain ⟨r, -, hr⟩ := (mapM_eq_ok hrs).1 v hv
    exact ⟨r, hr⟩
  have hiff (b : Bool) :
      (∀ d ∈ ctx.definitions, d.HoldsOf I held ((ρ b).stateAt .after)) ↔ b = false := by
    obtain ⟨rs, hrs, hiff⟩ := eval_reify_iff ctx held .after I (ρ b) hok
    rw [← hiff]
    have hb := htruth b
    rw [hrs] at hb
    rw [show (BoolExpr.all rs).eval I (ρ b) = !b from Except.ok.inj hb]
    simp
  exact ⟨hok, (hiff false).mpr rfl, fun h => by cases (hiff true).mp h⟩

end Context

end Obligation

end ViewLogic
