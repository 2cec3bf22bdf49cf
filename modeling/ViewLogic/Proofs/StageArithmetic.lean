import ViewLogic.Proofs.Composition
import ViewLogic.Proofs.SubstitutionLaws

/-!
# Stage arithmetic

The next stage of an expression is one past the greatest stage of its leaves, and moving stages up
adds to their numbers; both stop at the last stage. The numbers stay exact up to there: what moves
up by `k` has its next stage moved up by `k`, and two moves are one move by their sum. Nothing else
of the expression changes, which is said node by node.
-/

namespace ViewLogic

/-! ### Renamed trees -/

section Rename

variable {V W : Type}

mutual

/-- Two integer expressions are the same tree, with related variables. -/
inductive IntExpr.SameTree (R : V → W → Prop) : IntExpr V → IntExpr W → Prop
  | const (c : Constant) : IntExpr.SameTree R (.const c) (.const c)
  | var {v : V} {w : W} (h : R v w) : IntExpr.SameTree R (.var v) (.var w)
  | sym (name : String) {args : List (Expr V)} {args' : List (Expr W)}
      (h : List.Forall₂ (Expr.SameTree R) args args') :
      IntExpr.SameTree R (.sym name args) (.sym name args')
  | arith (op : ArithOp) {es : List (IntExpr V)} {es' : List (IntExpr W)}
      (h : List.Forall₂ (IntExpr.SameTree R) es es') :
      IntExpr.SameTree R (.arith op es) (.arith op es')
  | div {l r : IntExpr V} {l' r' : IntExpr W} (hl : IntExpr.SameTree R l l')
      (hr : IntExpr.SameTree R r r') : IntExpr.SameTree R (.div l r) (.div l' r')

/-- Two Boolean expressions are the same tree, with related variables. -/
inductive BoolExpr.SameTree (R : V → W → Prop) : BoolExpr V → BoolExpr W → Prop
  | lit (b : Bool) : BoolExpr.SameTree R (.lit b) (.lit b)
  | var {v : V} {w : W} (h : R v w) : BoolExpr.SameTree R (.var v) (.var w)
  | sym (name : String) {args : List (Expr V)} {args' : List (Expr W)}
      (h : List.Forall₂ (Expr.SameTree R) args args') :
      BoolExpr.SameTree R (.sym name args) (.sym name args')
  | conn (op : Connective) {es : List (BoolExpr V)} {es' : List (BoolExpr W)}
      (h : List.Forall₂ (BoolExpr.SameTree R) es es') :
      BoolExpr.SameTree R (.conn op es) (.conn op es')
  | implies {l r : BoolExpr V} {l' r' : BoolExpr W} (hl : BoolExpr.SameTree R l l')
      (hr : BoolExpr.SameTree R r r') : BoolExpr.SameTree R (.implies l r) (.implies l' r')
  | eq {l r : Expr V} {l' r' : Expr W} (hl : Expr.SameTree R l l')
      (hr : Expr.SameTree R r r') : BoolExpr.SameTree R (.eq l r) (.eq l' r')
  | cmp (op : Comparison) {l r : IntExpr V} {l' r' : IntExpr W} (hl : IntExpr.SameTree R l l')
      (hr : IntExpr.SameTree R r r') : BoolExpr.SameTree R (.cmp op l r) (.cmp op l' r')
  | not {e : BoolExpr V} {e' : BoolExpr W} (h : BoolExpr.SameTree R e e') :
      BoolExpr.SameTree R (.not e) (.not e')

/-- Two expressions are the same tree, with related variables. -/
inductive Expr.SameTree (R : V → W → Prop) : Expr V → Expr W → Prop
  | int {e : IntExpr V} {e' : IntExpr W} (h : IntExpr.SameTree R e e') :
      Expr.SameTree R (.int e) (.int e')
  | bool {e : BoolExpr V} {e' : BoolExpr W} (h : BoolExpr.SameTree R e e') :
      Expr.SameTree R (.bool e) (.bool e')

end

/-- Renaming keeps the tree. -/
theorem Expr.sameTree_rename {R : V → W → Prop} {f : V → W} (hf : ∀ v, R v (f v)) :
    (∀ e : IntExpr V, e.SameTree R (e.subst (.ofRename f))) ∧
      (∀ e : BoolExpr V, e.SameTree R (e.subst (.ofRename f))) ∧
      ∀ e : Expr V, e.SameTree R (e.subst (.ofRename f)) := by
  have hlist {α β : Type} {S : α → β → Prop} {g : α → β} {as : List α} (ih : ∀ a ∈ as, S a (g a)) :
      List.Forall₂ S as (as.map g) := by
    rw [List.forall₂_map_right_iff]
    exact List.forall₂_same.mpr ih
  apply Expr.induct
  case const => exact .const
  case intVar => intro v; exact .var (hf v)
  case intSym =>
    intro name args ih
    rw [IntExpr.subst, Expr.substAll_eq]
    exact .sym name (hlist ih)
  case arith =>
    intro op es ih
    rw [IntExpr.subst, IntExpr.substAll_eq]
    exact .arith op (hlist ih)
  case div => intro l r hl hr; exact .div hl hr
  case lit => exact .lit
  case boolVar => intro v; exact .var (hf v)
  case boolSym =>
    intro name args ih
    rw [BoolExpr.subst, Expr.substAll_eq]
    exact .sym name (hlist ih)
  case conn =>
    intro op es ih
    rw [BoolExpr.subst, BoolExpr.substAll_eq]
    exact .conn op (hlist ih)
  case implies => intro l r hl hr; exact .implies hl hr
  case eq => intro l r hl hr; exact .eq hl hr
  case cmp => intro op l r hl hr; exact .cmp op hl hr
  case not => intro e he; exact .not he
  case int => intro e he; exact .int he
  case bool => intro e he; exact .bool he

/-- A leaf with its variable renamed. -/
def Leaf.rename (f : V → W) (leaf : Leaf V) : Leaf W := ⟨leaf.ty, f leaf.var⟩

/-- Renaming renames the leaves, in order. -/
theorem Expr.leaves_rename (f : V → W) :
    (∀ e : IntExpr V, (e.subst (.ofRename f)).leaves = e.leaves.map (.rename f)) ∧
      (∀ e : BoolExpr V, (e.subst (.ofRename f)).leaves = e.leaves.map (.rename f)) ∧
      ∀ e : Expr V, (e.subst (.ofRename f)).leaves = e.leaves.map (.rename f) := by
  have hleaves (leaves : List (Leaf V)) :
      leaves.flatMap (Subst.ofRename f).imageLeaves = leaves.map (.rename f) := by
    rw [funext (Subst.imageLeaves_ofRename f), List.map_eq_flatMap]
    rfl
  obtain ⟨hint, hbool, hexpr⟩ := leaves_subst (.ofRename f)
  exact ⟨fun e => (hint e).trans (hleaves _), fun e => (hbool e).trans (hleaves _),
    fun e => (hexpr e).trans (hleaves _)⟩

end Rename

/-! ### The stages of leaves -/

/-- The next stage has the next number, up to the limit. -/
theorem Stage.val_next_eq_min (s : Stage) : s.next.val = min (s.val + 1) limit := rfl

/-- Stages are added as numbers, up to the limit. -/
theorem Stage.val_add_eq_min (s k : Stage) : (s.add k).val = min (s.val + k.val) limit := rfl

/-- The stage number of an intermediate moment. -/
def Mark.stage? : Mark → Option Nat
  | intermediate n => some n.val
  | _ => none

/-- The stage numbers of the intermediate variables among leaves. -/
def stagesOf (leaves : List (Leaf MarkedVar)) : List Nat :=
  leaves.filterMap fun leaf => leaf.var.mark.stage?

section StagesOf

variable {leaves : List (Leaf MarkedVar)} {m : Nat}

/-- A mark has a stage number exactly if it is the mark of that stage. -/
theorem Mark.stage?_eq_some_iff {mark : Mark} :
    mark.stage? = some m ↔ ∃ n : Stage, mark = .intermediate n ∧ n.val = m := by
  cases mark <;> simp [stage?]

/-- The stages of leaves are the numbers of their intermediate variables. -/
theorem mem_stagesOf :
    m ∈ stagesOf leaves ↔ ∃ leaf ∈ leaves, ∃ n, leaf.var.mark = .intermediate n ∧ n.val = m := by
  simp only [stagesOf, List.mem_filterMap, Mark.stage?_eq_some_iff]

/-- Without a stage, the next stage is the first one. -/
theorem val_nextStageOf_of_nil (h : stagesOf leaves = []) : (nextStageOf leaves).val = 0 := by
  rw [← Nat.le_zero, nextStageOf_val_le_iff]
  intro leaf hleaf n hn
  have hmem : n.val ∈ stagesOf leaves := mem_stagesOf.mpr ⟨leaf, hleaf, n, hn, rfl⟩
  rw [h] at hmem
  contradiction

/-- The next stage is one past the greatest stage, up to the limit. -/
theorem val_nextStageOf_of_greatest (hm : m ∈ stagesOf leaves)
    (hgreatest : ∀ n ∈ stagesOf leaves, n ≤ m) :
    (nextStageOf leaves).val = min (m + 1) Stage.limit := by
  apply Nat.le_antisymm
  · rw [nextStageOf_val_le_iff]
    intro leaf hleaf n hn
    have hle : n.val ≤ m := hgreatest _ (mem_stagesOf.mpr ⟨leaf, hleaf, n, hn, rfl⟩)
    rw [Stage.val_next_eq_min]
    omega
  · obtain ⟨leaf, hleaf, n, hn, rfl⟩ := mem_stagesOf.mp hm
    rw [← Stage.val_next_eq_min]
    exact nextStageOf_val_le_iff.mp (Nat.le_refl _) leaf hleaf n hn

/-- If leaves have stages, then one of these is the greatest. -/
theorem exists_greatest_stage (h : stagesOf leaves ≠ []) :
    ∃ m ∈ stagesOf leaves, ∀ n ∈ stagesOf leaves, n ≤ m := by
  obtain ⟨m, hm⟩ := Option.ne_none_iff_exists'.mp (mt List.max?_eq_none_iff.mp h)
  exact ⟨m, List.max?_eq_some_iff.mp hm⟩

end StagesOf

/-! ### Moving up -/

namespace MarkedVar

/-- A variable moved up by a number of stages: of an intermediate variable the stage number changes,
up to the limit, and any other variable stays as it is. -/
inductive MovedUp (k : Stage) : MarkedVar → MarkedVar → Prop
  | intermediate {m n : Stage} (x : Var) (h : n.val = min (m.val + k.val) Stage.limit) :
      MovedUp k ⟨.intermediate m, x⟩ ⟨.intermediate n, x⟩
  | other {v : MarkedVar} (h : v.mark.stage? = none) : MovedUp k v v

/-- Moving a variable up changes at most its stage number. -/
theorem movedUp_bump (k : Stage) (v : MarkedVar) : MovedUp k v (v.bump k) := by
  obtain ⟨mark, x⟩ := v
  cases mark with
  | intermediate n => exact .intermediate x rfl
  | before | after | goal => exact .other rfl

/-- Moving a variable up adds to its stage number, up to the limit. -/
theorem stage?_bump (k : Stage) (v : MarkedVar) :
    (v.bump k).mark.stage? = v.mark.stage?.map fun n => min (n + k.val) Stage.limit := by
  obtain ⟨mark, x⟩ := v
  cases mark <;> rfl

/-- Two moves are one move by their sum, up to the limit. -/
theorem bump_comp_bump {j k s : Stage} (h : s.val = min (j.val + k.val) Stage.limit) :
    bump j ∘ bump k = bump s := by
  funext v
  obtain ⟨mark, x⟩ := v
  cases mark with
  | intermediate n =>
    have hadd : (n.add k).add j = n.add s := by
      apply Stage.ext_val
      rw [Stage.val_add_eq_min, Stage.val_add_eq_min, Stage.val_add_eq_min, h]
      omega
    simp only [Function.comp_apply, bump, hadd]
  | before | after | goal => rfl

end MarkedVar

/-- Moving leaves up adds to all their stage numbers, up to the limit. -/
theorem stagesOf_map_bump (k : Stage) (leaves : List (Leaf MarkedVar)) :
    stagesOf (leaves.map (.rename (.bump k))) =
      (stagesOf leaves).map fun n => min (n + k.val) Stage.limit := by
  rw [stagesOf, stagesOf, List.filterMap_map, List.map_filterMap]
  congr 1
  funext leaf
  exact MarkedVar.stage?_bump k leaf.var

/-- Moving leaves up moves the next free stage up as far, if there are any stages. -/
theorem val_nextStageOf_map_bump (k : Stage) (leaves : List (Leaf MarkedVar)) :
    (nextStageOf (leaves.map (.rename (.bump k)))).val =
      if stagesOf leaves = [] then 0
      else min ((nextStageOf leaves).val + k.val) Stage.limit := by
  by_cases hnil : stagesOf leaves = []
  · rw [if_pos hnil]
    apply val_nextStageOf_of_nil
    rw [stagesOf_map_bump, hnil, List.map_nil]
  · obtain ⟨m, hm, hgreatest⟩ := exists_greatest_stage hnil
    have hmoved : (nextStageOf (leaves.map (.rename (.bump k)))).val =
        min (min (m + k.val) Stage.limit + 1) Stage.limit := by
      apply val_nextStageOf_of_greatest
      · rw [stagesOf_map_bump]
        exact List.mem_map_of_mem hm
      · rw [stagesOf_map_bump, List.forall_mem_map]
        intro n hn
        have hle : n ≤ m := hgreatest n hn
        omega
    rw [if_neg hnil, hmoved, val_nextStageOf_of_greatest hm hgreatest]
    omega

/-! ### Expressions -/

/-- The stages of an expression of some kind are counted and moved exactly, up to the limit. -/
structure ExactStages {α : Type} (leaves : α → List (Leaf MarkedVar)) (nextStage : α → Stage)
    (bump : Stage → α → α) (SameTree : (MarkedVar → MarkedVar → Prop) → α → α → Prop) (e : α) :
    Prop where
  /-- The next stage is zero without a stage, and one past the greatest stage otherwise. -/
  nextStage_eq : (nextStage e).val =
    (stagesOf (leaves e)).max?.elim 0 fun m => min (m + 1) Stage.limit
  /-- The next stage moves up with the stages, if there are any. -/
  nextStage_bump (k : Stage) : (nextStage (bump k e)).val =
    if stagesOf (leaves e) = [] then 0 else min ((nextStage e).val + k.val) Stage.limit
  /-- Two moves are one move by their sum. -/
  bump_bump (j k s : Stage) (h : s.val = min (j.val + k.val) Stage.limit) :
    bump j (bump k e) = bump s e
  /-- Only stage numbers change. -/
  sameTree_bump (k : Stage) : SameTree (MarkedVar.MovedUp k) e (bump k e)

/-- Stages are exact for a kind of expressions that are renamed leaf by leaf. -/
theorem ExactStages.of_rename {α : Type} {leaves : α → List (Leaf MarkedVar)}
    {nextStage : α → Stage} {SameTree : (MarkedVar → MarkedVar → Prop) → α → α → Prop}
    (rename : (MarkedVar → MarkedVar) → α → α) (e : α)
    (hnext : ∀ a, nextStage a = nextStageOf (leaves a))
    (hleaves : ∀ f, leaves (rename f e) = (leaves e).map (.rename f))
    (hcomp : ∀ f g, rename g (rename f e) = rename (g ∘ f) e)
    (htree : ∀ k, SameTree (MarkedVar.MovedUp k) e (rename (.bump k) e)) :
    ExactStages leaves nextStage (fun k => rename (.bump k)) SameTree e where
  nextStage_eq := by
    rw [hnext]
    cases hmax : (stagesOf (leaves e)).max? with
    | none => exact val_nextStageOf_of_nil (List.max?_eq_none_iff.mp hmax)
    | some m =>
      obtain ⟨hm, hgreatest⟩ := List.max?_eq_some_iff.mp hmax
      exact val_nextStageOf_of_greatest hm hgreatest
  nextStage_bump k := by rw [hnext, hnext, hleaves, val_nextStageOf_map_bump]
  bump_bump j k s h := by rw [hcomp, MarkedVar.bump_comp_bump h]
  sameTree_bump := htree

/-- Stage arithmetic is exact up to the limit, for integer expressions, for relations and for
expressions of either type. The next stage is zero if no leaf is intermediate, the arguments of
symbolic leaves included, and one past the greatest stage otherwise. Moving up by `k` adds `k` to
the next stage, if some leaf is intermediate, and moving up twice is moving up once by the sum. All
sums stop at the limit, and a move keeps the tree, the names and all other marks. -/
theorem Expr.stages_exact_up_to_limit :
    (∀ e : IntExpr MarkedVar, ExactStages IntExpr.leaves IntExpr.nextStage
        (fun k => IntExpr.subst (.ofRename (.bump k))) IntExpr.SameTree e) ∧
      (∀ e : Relation, ExactStages BoolExpr.leaves BoolExpr.nextStage Relation.bump
        BoolExpr.SameTree e) ∧
      ∀ e : Expr MarkedVar, ExactStages Expr.leaves Expr.nextStage
        (fun k => Expr.rename (.bump k)) Expr.SameTree e := by
  have hleaves := Expr.leaves_rename (V := MarkedVar) (W := MarkedVar)
  have hcomp (f g : MarkedVar → MarkedVar) := Expr.subst_comp (.ofRename f) (.ofRename g)
  have htree (k : Stage) := Expr.sameTree_rename (MarkedVar.movedUp_bump k)
  refine ⟨fun e => ?_, fun e => ?_, fun e => ?_⟩
  · exact .of_rename (fun f => IntExpr.subst (.ofRename f)) e (fun _ => rfl)
      (fun f => (hleaves f).1 e) (fun f g => ((hcomp f g).1 e).symm) fun k => (htree k).1 e
  · exact .of_rename BoolExpr.rename e (fun _ => rfl)
      (fun f => (hleaves f).2.1 e) (fun f g => ((hcomp f g).2.1 e).symm) fun k => (htree k).2.1 e
  · exact .of_rename Expr.rename e (fun _ => rfl)
      (fun f => (hleaves f).2.2 e) (fun f g => ((hcomp f g).2.2 e).symm) fun k => (htree k).2.2 e

/-- The only stage, inside an argument of `p`, is two below the limit. -/
example :
    let stage (n : Nat) : Stage := .ofNat n
    let p (n : Nat) : Relation :=
      .sym "p" [.bool (.var ⟨.before, "b"⟩), .int (.var ⟨.intermediate (stage n), "x"⟩)]
    let r : Relation := p (Stage.limit - 2)
    r.nextStage = stage (Stage.limit - 1) ∧ (r.bump (stage 1)).nextStage = stage Stage.limit ∧
      (r.bump (stage 2)).nextStage = stage Stage.limit ∧
      Relation.bump (stage 1) (r.bump (stage 2)) = p Stage.limit := by
  decide +kernel

end ViewLogic
