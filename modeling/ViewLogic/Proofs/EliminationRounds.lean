import Mathlib.Data.Finset.Card
import ViewLogic.Backend.Propagation
import ViewLogic.Proofs.NormalForms

/-!
# The rounds of elimination

Elimination goes round by round: a conjunct fixes a variable, the variable is replaced and constants
are folded. A round takes one leaf out of the formula, and a leaf is a variable at a type, so a name
that is read at both types is replaced at one of them only. No leaf comes back. Hence the rounds
bind different leaves of the formula at the start, which bounds their number although the formula
itself may grow.
-/

namespace ViewLogic

namespace Binding

/-- A round replaces no other leaf than that of its binding. -/
theorem imageLeaves_of_ne {b : Binding} {leaf : Leaf MarkedVar} (h : leaf ≠ b.leaf) :
    b.subst.imageLeaves leaf = [leaf] := by
  obtain ⟨ty, v⟩ := leaf
  cases b with
  | int x value =>
    cases ty with
    | int =>
      have hv : v ≠ x := by simpa [Binding.leaf] using h
      simp [Subst.imageLeaves, subst, hv, IntExpr.leaves]
    | bool => rfl
  | bool x value =>
    cases ty with
    | int => rfl
    | bool =>
      have hv : v ≠ x := by simpa [Binding.leaf] using h
      simp [Subst.imageLeaves, subst, hv, BoolExpr.leaves]

/-- Replacing the variable of a binding takes its leaf out of a formula, and nothing else. -/
theorem mem_leaves_subst_iff {e : Relation} {b : Binding} (h : b.ReadIn e.leaves)
    {leaf : Leaf MarkedVar} :
    leaf ∈ (BoolExpr.subst b.subst e).leaves ↔ leaf ∈ e.leaves ∧ leaf ≠ b.leaf := by
  refine ⟨mem_leaves_subst h, ?_⟩
  rintro ⟨hmem, hne⟩
  rw [(Expr.leaves_subst b.subst).2.1 e, List.mem_flatMap]
  exact ⟨leaf, hmem, by simp [imageLeaves_of_ne hne]⟩

end Binding

namespace Relation

/-- Simplifying a second time changes nothing. -/
theorem simplify_simplify (e : Relation) : e.simplify.simplify = e.simplify :=
  Expr.simplify_of_normal.2.1 _ (Expr.normal_simplify.2.1 e)

/-- The rounds of a run from a formula to one without a conjunct that fixes a variable, with the
bindings that they use. -/
inductive Rounds : Relation → List Binding → Relation → Prop where
  | done {e : Relation} (h : Binding.find? e = none) : Rounds e [] e
  | round {e e' : Relation} {b : Binding} {bs : List Binding} (h : Binding.find? e = some b)
      (rest : Rounds (b.eliminated e) bs e') : Rounds e (b :: bs) e'

/-- Propagation is a run. -/
theorem exists_rounds_propagate (e : Relation) : ∃ bs, Rounds e bs e.propagate := by
  fun_induction propagate e with
  | case1 e hnone => exact ⟨[], .done hnone⟩
  | case2 e b hfind ih =>
    obtain ⟨bs, hrounds⟩ := ih
    exact ⟨b :: bs, .round hfind hrounds⟩

namespace Rounds

variable {e e' : Relation} {bs : List Binding}

/-- A formula has one run. -/
theorem unique (h : Rounds e bs e') {bs' : List Binding} {e'' : Relation}
    (h' : Rounds e bs' e'') : bs' = bs ∧ e'' = e' := by
  induction h generalizing bs' e'' with
  | done hnone =>
    cases h' with
    | done => exact ⟨rfl, rfl⟩
    | round hfind => simp [hnone] at hfind
  | round hfind _ ih =>
    cases h' with
    | done hnone => simp [hfind] at hnone
    | round hfind' rest' =>
      cases hfind.symm.trans hfind'
      obtain ⟨rfl, rfl⟩ := ih rest'
      exact ⟨rfl, rfl⟩

/-- Every round binds a leaf of the formula at the start. -/
theorem leaf_mem (h : Rounds e bs e') : ∀ b ∈ bs, b.leaf ∈ e.leaves := by
  induction h with
  | done => simp
  | round hfind _ ih =>
    rw [List.forall_mem_cons]
    exact ⟨(Binding.readIn_of_find? hfind).1,
      fun b hb => (Binding.mem_leaves_eliminated hfind (ih b hb)).1⟩

/-- No two rounds bind the same leaf. -/
theorem nodup_leaves (h : Rounds e bs e') : (bs.map Binding.leaf).Nodup := by
  induction h with
  | done => simp
  | round hfind rest ih =>
    rw [List.map_cons, List.nodup_cons]
    refine ⟨fun hmem => ?_, ih⟩
    obtain ⟨b, hb, heq⟩ := List.mem_map.mp hmem
    exact (Binding.mem_leaves_eliminated hfind (rest.leaf_mem b hb)).2 heq

/-- There are at most as many rounds as different leaves. -/
theorem length_le (h : Rounds e bs e') : bs.length ≤ e.leaves.toFinset.card := by
  rw [← List.length_map Binding.leaf, ← List.toFinset_card_of_nodup h.nodup_leaves]
  apply Finset.card_le_card
  intro leaf hleaf
  rw [List.mem_toFinset, List.mem_map] at hleaf
  obtain ⟨b, hb, rfl⟩ := hleaf
  exact List.mem_toFinset.mpr (h.leaf_mem b hb)

/-- A run from a folded formula ends at one. -/
theorem simplify_eq (h : Rounds e bs e') (he : e.simplify = e) : e'.simplify = e' := by
  induction h with
  | done => exact he
  | round _ _ ih => exact ih (simplify_simplify _)

/-- A run ends where no conjunct fixes a variable. -/
theorem ofConjunct?_eq_none (h : Rounds e bs e') :
    ∀ c ∈ e'.conjuncts, Binding.ofConjunct? c = none := by
  induction h with
  | done hnone => exact List.findSome?_eq_none_iff.mp hnone
  | round _ _ ih => exact ih

end Rounds

/-- Simplifying a formula leaves it no more different leaves. -/
theorem card_leaves_simplify_le (e : Relation) :
    e.simplify.leaves.toFinset.card ≤ e.leaves.toFinset.card := by
  apply Finset.card_le_card
  intro leaf hleaf
  rw [List.mem_toFinset] at hleaf ⊢
  exact (Expr.leaves_simplify_subset leaf).2.1 e hleaf

/-- Elimination is one run of rounds, at most one for each different leaf of the formula: a round
takes the leaf that it binds out of the whole formula, and neither replacing a variable nor folding
constants brings in a leaf. Its result is folded and has no conjunct that fixes a variable. -/
theorem eliminate_is_bounded_run (e : Relation) :
    (∃ bs, Rounds e.simplify bs e.eliminate ∧
      (∀ bs' e', Rounds e.simplify bs' e' → bs' = bs ∧ e' = e.eliminate) ∧
      (bs.map Binding.leaf).Nodup ∧ bs.length ≤ e.leaves.toFinset.card) ∧
    (∀ (f : Relation) (leaf : Leaf MarkedVar), leaf ∈ f.simplify.leaves → leaf ∈ f.leaves) ∧
    (∀ (f : Relation) (b : Binding), Binding.find? f = some b → b.leaf ∈ f.leaves ∧
      ∀ leaf, leaf ∈ (BoolExpr.subst b.subst f).leaves ↔ leaf ∈ f.leaves ∧ leaf ≠ b.leaf) ∧
    e.eliminate.simplify = e.eliminate ∧
    ∀ c ∈ e.eliminate.conjuncts, Binding.ofConjunct? c = none := by
  obtain ⟨bs, hrounds⟩ := exists_rounds_propagate e.simplify
  refine ⟨⟨bs, hrounds, fun _ _ => hrounds.unique, hrounds.nodup_leaves, ?_⟩, ?_, ?_, ?_, ?_⟩
  · exact hrounds.length_le.trans (card_leaves_simplify_le e)
  · intro f leaf
    exact (Expr.leaves_simplify_subset leaf).2.1 f
  · intro f b hfind
    have hread := Binding.readIn_of_find? hfind
    exact ⟨hread.1, fun leaf => Binding.mem_leaves_subst_iff hread⟩
  · exact hrounds.simplify_eq (simplify_simplify e)
  · exact hrounds.ofConjunct?_eq_none

/-- In `x == y + 1`, `y == 2` and `x`, with `x` read at both types, three rounds bind the three
leaves and leave nothing to satisfy. -/
theorem eliminate_is_bounded_run_both_types :
    let x : MarkedVar := ⟨.before, "x"⟩
    let y : MarkedVar := ⟨.before, "y"⟩
    let next : IntExpr MarkedVar := .arith .add [.var y, .const .one]
    let two : IntExpr MarkedVar := .const ⟨2, by decide, by decide⟩
    let e : Relation := .conn .and [.eq (.int (.var x)) (.int next),
      .eq (.int (.var y)) (.int two), .var x]
    let bs : List Binding := [.int x next, .int y two, .bool x (.lit true)]
    Rounds e.simplify bs e.eliminate ∧ e.eliminate = .lit true ∧
      bs.length = 3 ∧ e.leaves.toFinset.card = 3 ∧ bs.length ≤ e.leaves.toFinset.card := by
  intro x y next two e bs
  have hend : Binding.eliminated (.bool x (.lit true))
      (Binding.eliminated (.int y two) (Binding.eliminated (.int x next) e.simplify)) =
        .lit true := by cbv
  have hrun : Rounds e.simplify bs (.lit true) := by
    refine .round (by cbv) (.round (by cbv) (.round (by cbv) ?_))
    rw [hend]
    exact .done rfl
  obtain ⟨⟨bs', hrounds, hunique, -, hlength⟩, -⟩ := eliminate_is_bounded_run e
  obtain ⟨rfl, hlit⟩ := hunique bs _ hrun
  exact ⟨hrounds, hlit.symm, rfl, by decide +kernel, hlength⟩

end Relation

end ViewLogic
