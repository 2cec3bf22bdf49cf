import ViewLogic.Proofs.Meaning

/-!
# Laws of substitution

Substituting respects composition and meaning. Two substitutions one after the other are a single
one, which puts in the substituted images; and a substituted expression has the value that the
expression itself has when every leaf is worth its image. The laws about trees come from one
induction, which compares two substitutions with a third one at the leaves of an expression.
-/

namespace ViewLogic

variable {V W X : Type}

/-- Two substitutions one after the other are the same as a third one on every expression where they
lead to the same images of the leaves. -/
theorem Expr.subst_subst_of_images (σ : Subst V W) (τ : Subst W X) (υ : Subst V X) :
    (∀ e : IntExpr V, (∀ leaf ∈ e.leaves, (σ.image leaf).subst τ = υ.image leaf) →
        (e.subst σ).subst τ = e.subst υ) ∧
      (∀ e : BoolExpr V, (∀ leaf ∈ e.leaves, (σ.image leaf).subst τ = υ.image leaf) →
        (e.subst σ).subst τ = e.subst υ) ∧
      ∀ e : Expr V, (∀ leaf ∈ e.leaves, (σ.image leaf).subst τ = υ.image leaf) →
        (e.subst σ).subst τ = e.subst υ := by
  have hlist {α β γ : Type} {leaves : α → List (Leaf V)} {f : α → β} {g : β → γ} {h : α → γ}
      {as : List α}
      (ih : ∀ a ∈ as, (∀ leaf ∈ leaves a, (σ.image leaf).subst τ = υ.image leaf) → g (f a) = h a)
      (himages : ∀ leaf ∈ as.flatMap leaves, (σ.image leaf).subst τ = υ.image leaf) :
      (as.map f).map g = as.map h := by
    rw [List.map_map]
    apply List.map_congr_left
    intro a ha
    exact ih a ha fun leaf hleaf => himages leaf (List.mem_flatMap.mpr ⟨a, ha, hleaf⟩)
  have hpair {as bs : List (Leaf V)}
      (himages : ∀ leaf ∈ as ++ bs, (σ.image leaf).subst τ = υ.image leaf) :
      (∀ leaf ∈ as, (σ.image leaf).subst τ = υ.image leaf) ∧
        ∀ leaf ∈ bs, (σ.image leaf).subst τ = υ.image leaf :=
    List.forall_mem_append.mp himages
  apply Expr.induct
  case const => intro c _; rfl
  case intVar =>
    intro v h
    exact Expr.int.inj (h ⟨.int, v⟩ (by simp [IntExpr.leaves]))
  case intSym =>
    intro name args ih h
    rw [IntExpr.leaves, Expr.leavesAll_eq] at h
    simp only [IntExpr.subst, Expr.substAll_eq, hlist ih h]
  case arith =>
    intro op es ih h
    rw [IntExpr.leaves, IntExpr.leavesAll_eq] at h
    simp only [IntExpr.subst, IntExpr.substAll_eq, hlist ih h]
  case div =>
    intro l r hl hr h
    simp only [IntExpr.subst, hl (hpair h).1, hr (hpair h).2]
  case lit => intro b _; rfl
  case boolVar =>
    intro v h
    exact Expr.bool.inj (h ⟨.bool, v⟩ (by simp [BoolExpr.leaves]))
  case boolSym =>
    intro name args ih h
    rw [BoolExpr.leaves, Expr.leavesAll_eq] at h
    simp only [BoolExpr.subst, Expr.substAll_eq, hlist ih h]
  case conn =>
    intro op es ih h
    rw [BoolExpr.leaves, BoolExpr.leavesAll_eq] at h
    simp only [BoolExpr.subst, BoolExpr.substAll_eq, hlist ih h]
  case implies | eq =>
    intro l r hl hr h
    simp only [BoolExpr.subst, hl (hpair h).1, hr (hpair h).2]
  case cmp =>
    intro op l r hl hr h
    simp only [BoolExpr.subst, hl (hpair h).1, hr (hpair h).2]
  case not => intro e he h; simp only [BoolExpr.subst, he h]
  case int | bool => intro e he h; simp only [Expr.subst, he h]

/-- A substituted expression depends on the images of its own leaves only. -/
theorem Expr.subst_congr (σ τ : Subst V W) :
    (∀ e : IntExpr V, (∀ leaf ∈ e.leaves, σ.image leaf = τ.image leaf) → e.subst σ = e.subst τ) ∧
      (∀ e : BoolExpr V, (∀ leaf ∈ e.leaves, σ.image leaf = τ.image leaf) →
        e.subst σ = e.subst τ) ∧
      ∀ e : Expr V, (∀ leaf ∈ e.leaves, σ.image leaf = τ.image leaf) → e.subst σ = e.subst τ := by
  -- Both sides are what `σ` makes of the expression with every variable put in for itself.
  have hkept (leaf : Leaf V) : ((Subst.ofRename id).image leaf).subst σ = σ.image leaf := by
    obtain ⟨ty, v⟩ := leaf
    cases ty <;> rfl
  obtain ⟨hint, hbool, hexpr⟩ := subst_subst_of_images (.ofRename id) σ σ
  obtain ⟨hint', hbool', hexpr'⟩ := subst_subst_of_images (.ofRename id) σ τ
  refine ⟨fun e h => ?_, fun e h => ?_, fun e h => ?_⟩
  · rw [← hint e fun leaf _ => hkept leaf]
    exact hint' e fun leaf hleaf => (hkept leaf).trans (h leaf hleaf)
  · rw [← hbool e fun leaf _ => hkept leaf]
    exact hbool' e fun leaf hleaf => (hkept leaf).trans (h leaf hleaf)
  · rw [← hexpr e fun leaf _ => hkept leaf]
    exact hexpr' e fun leaf hleaf => (hkept leaf).trans (h leaf hleaf)

/-- Substituting through a composition is substituting twice. -/
theorem Expr.subst_comp (σ : Subst V W) (τ : Subst W X) :
    (∀ e : IntExpr V, e.subst (σ.comp τ) = (e.subst σ).subst τ) ∧
      (∀ e : BoolExpr V, e.subst (σ.comp τ) = (e.subst σ).subst τ) ∧
      ∀ e : Expr V, e.subst (σ.comp τ) = (e.subst σ).subst τ := by
  have himages (leaf : Leaf V) : (σ.image leaf).subst τ = (σ.comp τ).image leaf := by
    obtain ⟨ty, v⟩ := leaf
    cases ty <;> rfl
  obtain ⟨hint, hbool, hexpr⟩ := subst_subst_of_images σ τ (σ.comp τ)
  exact ⟨fun e => (hint e fun leaf _ => himages leaf).symm,
    fun e => (hbool e fun leaf _ => himages leaf).symm,
    fun e => (hexpr e fun leaf _ => himages leaf).symm⟩

/-- Substituting is a homomorphism for composition and for meaning. Through a composition it gives
the tree that the two substitutions give one after the other. Under every interpretation and
valuation, some valuation gives each leaf, at its type, the value of its image; and an expression,
under any valuation that does so for its own leaves, has the value that it has once substituted. The
arguments of symbolic leaves have their part in both. -/
theorem Expr.subst_respects_composition_and_meaning (σ : Subst V W) (τ : Subst W X)
    (I : Interpretation) (ρ : Valuation W) :
    ((∀ e : IntExpr V, e.subst (σ.comp τ) = (e.subst σ).subst τ) ∧
      (∀ e : BoolExpr V, e.subst (σ.comp τ) = (e.subst σ).subst τ) ∧
      ∀ e : Expr V, e.subst (σ.comp τ) = (e.subst σ).subst τ) ∧
    (∃ s : Valuation V, ∀ leaf, s.read leaf = (σ.image leaf).eval I ρ) ∧
    ∀ s : Valuation V,
      (∀ e : IntExpr V, (∀ leaf ∈ e.leaves, s.read leaf = (σ.image leaf).eval I ρ) →
        (e.subst σ).eval I ρ = e.eval I s) ∧
      (∀ e : BoolExpr V, (∀ leaf ∈ e.leaves, s.read leaf = (σ.image leaf).eval I ρ) →
        (e.subst σ).eval I ρ = e.eval I s) ∧
      ∀ e : Expr V, (∀ leaf ∈ e.leaves, s.read leaf = (σ.image leaf).eval I ρ) →
        (e.subst σ).eval I ρ = e.eval I s := by
  refine ⟨subst_comp σ τ, ⟨σ.pull I ρ, σ.read_pull I ρ⟩, fun s => ?_⟩
  exact eval_subst_of_reads I σ ρ s

/-- The arguments of `p` read `x` at both types, as `x + 1` and as `x > 1`. A valuation that gives
them the values of these images, and other variables any values, decides `p` once substituted. -/
theorem Expr.subst_respects_composition_and_meaning_both_types :
    let I : Interpretation :=
      ⟨fun _ => 0, 0, fun _ _ => false, fun _ _ => 0, fun _ vs => vs = [.int 6, .bool true]⟩
    let σ : Subst Var Var :=
      ⟨fun x => .arith .add [.var x, .const .one], fun x => .cmp .gt (.var x) (.const .one)⟩
    let τ : Subst Var MarkedVar := .ofRename (⟨.after, ·⟩)
    let ρ : Valuation Var := ⟨fun _ => 5, fun _ => false⟩
    let s : Valuation Var := ⟨fun x => if x = "x" then 6 else 0, fun x => x = "x"⟩
    let p : BoolExpr Var := .sym "p" [.int (.var "x"), .bool (.var "x")]
    let x : IntExpr MarkedVar := .var ⟨.after, "x"⟩
    (p.subst σ).subst τ =
        .sym "p" [.int (.arith .add [x, .const .one]), .bool (.cmp .gt x (.const .one))] ∧
      (∀ leaf ∈ p.leaves, s.read leaf = (σ.image leaf).eval I ρ) ∧
      (p.subst σ).eval I ρ = true := by
  intro I σ τ ρ s p x
  obtain ⟨⟨-, hcomp, -⟩, -, hmeaning⟩ := subst_respects_composition_and_meaning σ τ I ρ
  have hread : ∀ leaf ∈ p.leaves, s.read leaf = (σ.image leaf).eval I ρ := by decide +kernel
  refine ⟨?_, hread, ?_⟩
  · rw [← hcomp]
    rfl
  · rw [(hmeaning s).2.1 p hread]
    rfl

end ViewLogic
