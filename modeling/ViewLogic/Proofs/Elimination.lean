import ViewLogic.Backend.Propagation
import ViewLogic.Proofs.ConstantFolding

/-!
# Elimination keeps satisfiability

A round of constant propagation reads the variable of a binding as its value. Every valuation that
satisfies the formula already gives the variable this value, because a conjunct says so, and any
valuation that satisfies the formula after the round can be changed to do so. Hence no round gains
or loses satisfiability, and a literal that is left decides the formula.
-/

namespace ViewLogic

variable (I : Interpretation)

/-- Some valuation makes a formula true. -/
def BoolExpr.Satisfiable {V : Type} (e : BoolExpr V) : Prop := ∃ ρ, e.eval I ρ = true

/-- The goal holds under every valuation that makes the precondition and the command true. -/
def Obligation.Valid (o : Obligation) : Prop :=
  ∀ ρ, o.pre.eval I ρ = true → o.cmd.eval I ρ = true → o.post.eval I ρ = true

namespace Binding

/-- The variable of a binding has the value of the binding. -/
def Holds (ρ : Valuation MarkedVar) : Binding → Prop
  | int x value => ρ.int x = value.eval I ρ
  | bool x value => ρ.bool x = value.eval I ρ

variable {I} {ρ : Valuation MarkedVar}

/-- Where an equality is true, so is the binding that it gives. -/
theorem holds_of_ofEq? {l r : Expr MarkedVar} {b : Binding} (h : ofEq? l r = some b)
    (heq : I.eq (l.eval I ρ) (r.eval I ρ) = true) : b.Holds I ρ := by
  unfold ofEq? at h
  split at h
  · split at h
    · cases h
    · cases h
      simpa [Holds, Interpretation.eq, Expr.eval, IntExpr.eval] using heq
  · split at h
    · cases h
    · cases h
      simpa [Holds, Interpretation.eq, Expr.eval, BoolExpr.eval] using heq
  · cases h

/-- The sides of an equality that gives a binding can be exchanged. -/
theorem eq_comm_of_ofEq? {l r : Expr MarkedVar} {b : Binding} (h : ofEq? l r = some b) :
    I.eq (l.eval I ρ) (r.eval I ρ) = I.eq (r.eval I ρ) (l.eval I ρ) := by
  unfold ofEq? at h
  split at h
  · exact Bool.beq_comm
  · exact Bool.beq_comm
  · cases h

/-- A true conjunct gives its variable the value of its binding. -/
theorem holds_of_ofConjunct? {c : Relation} {b : Binding} (h : ofConjunct? c = some b)
    (hc : c.eval I ρ = true) : b.Holds I ρ := by
  unfold ofConjunct? at h
  split at h
  · cases h
    exact hc
  · cases h
    simpa [Holds, BoolExpr.eval] using hc
  next l r =>
    rw [BoolExpr.eval] at hc
    rcases Option.or_eq_some_iff.mp h with h | ⟨-, h⟩
    · exact holds_of_ofEq? h hc
    · rw [← eq_comm_of_ofEq? h] at hc
      exact holds_of_ofEq? h hc
  · cases h

/-- Every conjunct of a true formula is true. -/
theorem eval_of_mem_conjuncts {e c : Relation} (he : e.eval I ρ = true) (hc : c ∈ e.conjuncts) :
    c.eval I ρ = true := by
  unfold BoolExpr.conjuncts at hc
  split at hc
  next es =>
    rw [BoolExpr.eval, BoolExpr.evalAll_eq] at he
    simp only [Connective.holds, List.all_map, List.all_eq_true] at he
    exact he c hc
  next =>
    rw [List.mem_singleton] at hc
    rwa [hc]

/-- A true formula gives the variable of its binding the value of the binding. -/
theorem holds_of_find? {e : Relation} {b : Binding} (h : find? e = some b)
    (he : e.eval I ρ = true) : b.Holds I ρ := by
  obtain ⟨c, hc, hcb⟩ := List.exists_of_findSome?_eq_some h
  exact holds_of_ofConjunct? hcb (eval_of_mem_conjuncts he hc)

/-- Where a binding holds, reading its variable as its value changes nothing. -/
theorem pull_subst_of_holds {b : Binding} (h : b.Holds I ρ) : b.subst.pull I ρ = ρ := by
  cases b with
  | int x value =>
    ext v
    · by_cases hv : v = x
      · subst hv
        simpa [Subst.pull, subst] using h.symm
      · simp [Subst.pull, subst, hv, IntExpr.eval]
    · rfl
  | bool x value =>
    ext v
    · rfl
    · by_cases hv : v = x
      · subst hv
        simpa [Subst.pull, subst, Holds] using h.symm
      · simp [Subst.pull, subst, hv, BoolExpr.eval]

/-- A formula after a round has the truth of the formula before it, where the variable has the value
of the binding. -/
theorem eval_eliminated (b : Binding) (e : Relation) :
    (b.eliminated e).eval I ρ = e.eval I (b.subst.pull I ρ) := by
  rw [eliminated, (Expr.eval_simplify I ρ).2.1, (Expr.eval_subst I b.subst ρ).2.1]

/-- A round keeps satisfiability. -/
theorem satisfiable_eliminated {e : Relation} {b : Binding} (h : find? e = some b) :
    (b.eliminated e).Satisfiable I ↔ e.Satisfiable I := by
  constructor
  · rintro ⟨ρ, hρ⟩
    rw [eval_eliminated] at hρ
    exact ⟨b.subst.pull I ρ, hρ⟩
  · rintro ⟨ρ, hρ⟩
    refine ⟨ρ, ?_⟩
    rw [eval_eliminated, pull_subst_of_holds (holds_of_find? h hρ)]
    exact hρ

end Binding

namespace Relation

/-- Rounds keep satisfiability, however many there are. -/
theorem satisfiable_propagate (e : Relation) :
    BoolExpr.Satisfiable I e.propagate ↔ BoolExpr.Satisfiable I e := by
  fun_induction propagate e with
  | case1 e hnone => rfl
  | case2 e b hfind ih => rw [ih, Binding.satisfiable_eliminated hfind]

/-- Elimination keeps satisfiability. -/
theorem satisfiable_eliminate (e : Relation) :
    BoolExpr.Satisfiable I e.eliminate ↔ BoolExpr.Satisfiable I e := by
  rw [eliminate, satisfiable_propagate]
  simp only [BoolExpr.Satisfiable, (Expr.eval_simplify I _).2.1]

/-- No state satisfies a formula with the verdict unsatisfiable. -/
theorem not_satisfiable_of_verdict {e : Relation} (h : e.verdict = .unsat) :
    ¬BoolExpr.Satisfiable I e := by
  rw [← satisfiable_eliminate]
  unfold verdict at h
  split at h
  · cases h
  next hlit =>
    rw [hlit]
    rintro ⟨ρ, hρ⟩
    cases hρ
  · cases h

/-- Some state satisfies a formula with the verdict satisfiable. -/
theorem satisfiable_of_verdict {e : Relation} (h : e.verdict = .sat) :
    BoolExpr.Satisfiable I e := by
  rw [← satisfiable_eliminate]
  unfold verdict at h
  split at h
  next hlit =>
    rw [hlit]
    exact ⟨⟨fun _ => 0, fun _ => true⟩, rfl⟩
  · cases h
  · cases h

end Relation

namespace Obligation

/-- The negated claim of an obligation is true where its goal fails. -/
theorem eval_negatedClaim (o : Obligation) (ρ : Valuation MarkedVar) :
    o.negatedClaim.eval I ρ = true ↔
      o.pre.eval I ρ = true ∧ o.cmd.eval I ρ = true ∧ o.post.eval I ρ = false := by
  simp [negatedClaim, BoolExpr.eval_all_eq_true]

/-- An obligation is valid exactly if no state satisfies its negated claim. -/
theorem valid_iff (o : Obligation) :
    o.Valid I ↔ ¬BoolExpr.Satisfiable I o.negatedClaim := by
  simp only [Valid, BoolExpr.Satisfiable, eval_negatedClaim, not_exists, not_and,
    Bool.not_eq_false]

/-- Constant propagation proves only obligations that hold. -/
theorem valid_of_respond {o : Obligation} {mode : Mode} {r : Response Relation}
    (h : Backend.propagation.respond mode o = .ok r) (hr : r.verdict? = some .unsat) :
    o.Valid I := by
  cases mode with
  | translate | combine =>
    cases h
    cases hr
  | check =>
    cases h
    rw [valid_iff]
    exact Relation.not_satisfiable_of_verdict I (Option.some.inj hr)

end Obligation

/-- Constant propagation answers every obligation, and its verdicts are right: an obligation that it
proves holds under every valuation, and one that it refutes fails under some valuation. Behind both
is that elimination keeps satisfiability. -/
theorem Backend.propagation_verdicts (o : Obligation) :
    (∃ r, propagation.respond .check o = .ok r ∧
      (r.verdict? = some .unsat → o.Valid I) ∧
      (r.verdict? = some .sat → ∃ ρ, o.pre.eval I ρ = true ∧ o.cmd.eval I ρ = true ∧
        o.post.eval I ρ = false)) ∧
      ∀ e : Relation, BoolExpr.Satisfiable I e.eliminate ↔ BoolExpr.Satisfiable I e := by
  refine ⟨⟨.checked o.negatedClaim o.negatedClaim.verdict, rfl, ?_, ?_⟩,
    Relation.satisfiable_eliminate I⟩
  · intro hunsat
    rw [Obligation.valid_iff]
    exact Relation.not_satisfiable_of_verdict I (Option.some.inj hunsat)
  · intro hsat
    obtain ⟨ρ, hρ⟩ := Relation.satisfiable_of_verdict I (Option.some.inj hsat)
    exact ⟨ρ, (Obligation.eval_negatedClaim I o ρ).mp hρ⟩

/-- From `a == b + 1` and `b == 2` the goal `a > 2` is proved and the goal `a < b` is refuted, each
after two rounds. -/
theorem Backend.propagation_verdicts_chained :
    let I : Interpretation := ⟨fun _ => 0, 0, fun _ _ => false, fun _ _ => 0, fun _ _ => false⟩
    let a : IntExpr MarkedVar := .var ⟨.before, "a"⟩
    let b : IntExpr MarkedVar := .var ⟨.before, "b"⟩
    let two : IntExpr MarkedVar := .const ⟨2, by decide, by decide⟩
    let step : Relation := .eq (.int a) (.int (.arith .add [b, .const .one]))
    let pre : Relation := .all [step, .eq (.int b) (.int two)]
    let proved : Obligation := ⟨"m", pre, .lit true, .cmp .gt a two⟩
    let refuted : Obligation := ⟨"m", pre, .lit true, .cmp .lt a b⟩
    proved.negatedClaim.verdict = .unsat ∧ proved.Valid I ∧
      refuted.negatedClaim.verdict = .sat ∧ ¬refuted.Valid I := by
  intro I a b two step pre proved refuted
  have hunsat : proved.negatedClaim.verdict = .unsat := by decide +kernel
  have hsat : refuted.negatedClaim.verdict = .sat := by decide +kernel
  refine ⟨hunsat, ?_, hsat, ?_⟩
  · obtain ⟨⟨r, hr, hproved, -⟩, -⟩ := propagation_verdicts I proved
    cases hr
    exact hproved (congrArg some hunsat)
  · obtain ⟨⟨r, hr, -, hrefuted⟩, -⟩ := propagation_verdicts I refuted
    cases hr
    obtain ⟨ρ, hpre, hcmd, hpost⟩ := hrefuted (congrArg some hsat)
    intro hvalid
    rw [hvalid ρ hpre hcmd] at hpost
    cases hpost

end ViewLogic
