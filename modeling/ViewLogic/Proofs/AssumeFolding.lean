import ViewLogic.Proofs.Preservation

/-!
# Folding assumed conditions

The obligations of a command that only assumes a condition can be built in two ways. The condition
may be the relation of the command, with a frame for the variables that it does not write; or it is
folded into the precondition, and the frame is that of all variables. The second way considers only
those runs of the first in which no declared variable changes. So it proves all that the first way
proves, and both ways prove the same for a condition that reads no variable after the command. A
condition that does may contradict the frame of all variables, and then anything is proved.
-/

namespace ViewLogic

namespace Obligation.Context

variable {ctx : Context}

/-- The context with assumed conditions folded or not. -/
def withFolding (ctx : Context) (fold : Bool) : Context :=
  { ctx with options := { ctx.options with foldAssumes := fold } }

/-- A folded condition is checked and added to the precondition. -/
theorem commandParts_folded {cond : Relation} {parts : Option Relation × Relation}
    (h : (ctx.withFolding true).commandParts (.assume cond) = .ok parts) :
    parts = (some cond, Semantics.frame ctx.scope []) := by
  obtain ⟨-, -, h⟩ := bind_eq_ok.mp h
  cases h
  rfl

/-- A condition that is not folded is in the relation of its command. -/
theorem commandParts_plain {cond : Relation} {parts : Option Relation × Relation}
    (hrule : ctx.semantics.rules.get? Command.assumeName =
      Semantics.minimal.rules.get? Command.assumeName)
    (h : (ctx.withFolding false).commandParts (.assume cond) = .ok parts) :
    parts = (none, .all [cond,
      Semantics.frame ctx.scope (Primitive.written ⟨Command.assumeName, [.bool cond]⟩)]) := by
  obtain ⟨r, hr, h⟩ := bind_eq_ok.mp h
  cases h
  rw [Semantics.commandRelation_assume hrule hr]
  rfl

section Pair

variable {I : Interpretation} {name : String} {scope : Scope} {held cond post : Relation}

/-- The obligation with a folded condition is about those runs of the other one in which no declared
variable changes. -/
theorem valid_folded_iff (written : List Var) :
    Valid I ⟨name, .all [held, cond], Semantics.frame scope [], post⟩ ↔
      ∀ ρ : Valuation MarkedVar, held.eval I ρ = true →
        (BoolExpr.all [cond, Semantics.frame scope written]).eval I ρ = true →
        scope.Agree (ρ.stateAt .before) (ρ.stateAt .after) → post.eval I ρ = true := by
  have hframe (ρ : Valuation MarkedVar) (h : scope.Agree (ρ.stateAt .before) (ρ.stateAt .after)) :
      (Semantics.frame scope written).eval I ρ = true :=
    Semantics.eval_frame.mpr fun x ty hx _ => (h x ty hx).symm
  simp only [Valid, BoolExpr.eval_all_eq_true, List.forall_mem_cons, List.not_mem_nil,
    false_implies, implies_true, and_true, Semantics.eval_frame_nil]
  constructor
  · intro h ρ hheld hcmd hagree
    exact h ρ ⟨hheld, hcmd.1⟩ hagree
  · intro h ρ hpre hagree
    exact h ρ hpre.1 ⟨hpre.2, hframe ρ hagree⟩ hagree

/-- A valid obligation stays valid when its condition is folded. -/
theorem valid_folded_of_valid {written : List Var}
    (h : Valid I ⟨name, held, .all [cond, Semantics.frame scope written], post⟩) :
    Valid I ⟨name, .all [held, cond], Semantics.frame scope [], post⟩ :=
  (valid_folded_iff written).mpr fun ρ hheld hcmd _ => h ρ hheld hcmd

/-- If nothing is written, then folding the condition changes nothing. -/
theorem valid_folded_iff_valid {written : List Var} (hwritten : written = []) :
    Valid I ⟨name, .all [held, cond], Semantics.frame scope [], post⟩ ↔
      Valid I ⟨name, held, .all [cond, Semantics.frame scope written], post⟩ := by
  subst hwritten
  refine ⟨fun h ρ hheld hcmd => ?_, valid_folded_of_valid⟩
  have hframe := (BoolExpr.eval_all_eq_true I ρ).mp hcmd (Semantics.frame scope []) (by simp)
  exact (valid_folded_iff []).mp h ρ hheld hcmd (Semantics.eval_frame_nil.mp hframe)

end Pair

/-- An obligation with the assumed condition folded is valid exactly if the one without is valid for
the runs in which no declared variable changes. So it is valid if the other one is, and the two are
equivalent if the condition reads no variable after the command. -/
theorem valid_iff_of_folded_assume {t : Triple} {cond : Relation} {folded plain : List Obligation}
    (hrule : ctx.semantics.rules.get? Command.assumeName =
      Semantics.minimal.rules.get? Command.assumeName)
    (hsymbols : ctx.options.forgetSymbols = false) (hcmd : t.cmd = .assume cond)
    (hfolded : (ctx.withFolding true).obligations t = .ok folded)
    (hplain : (ctx.withFolding false).obligations t = .ok plain) :
    List.Forall₂ (fun o o' => o.name = o'.name ∧ ∀ I,
      (o.Valid I ↔ ∀ ρ, o'.pre.eval I ρ = true → o'.cmd.eval I ρ = true →
        ctx.scope.Agree (ρ.stateAt .before) (ρ.stateAt .after) → o'.post.eval I ρ = true) ∧
      (o'.Valid I → o.Valid I) ∧
      ((∀ leaf ∈ cond.leaves, leaf.var.mark ≠ .after) → (o.Valid I ↔ o'.Valid I)))
      folded plain := by
  obtain ⟨held, parts, goals, hheld, hparts, hgoals, rfl⟩ := obligations_eq_ok.mp hfolded
  obtain ⟨held', parts', goals', hheld', hparts', hgoals', rfl⟩ := obligations_eq_ok.mp hplain
  -- The matches are instantiated without regard to the options.
  obtain rfl : held = held' := Except.ok.inj (hheld.symm.trans hheld')
  obtain rfl : goals = goals' := Except.ok.inj (hgoals.symm.trans hgoals')
  rw [hcmd] at hparts hparts'
  obtain rfl := commandParts_folded hparts
  obtain rfl := commandParts_plain hrule hparts'
  have hoff (fold : Bool) : (ctx.withFolding fold).options.forgetSymbols = false := hsymbols
  refine List.forall₂_iff_get.mpr ⟨by simp only [List.length_mapIdx], fun n hn hn' => ?_⟩
  simp only [List.get_eq_getElem, List.getElem_mapIdx, hoff, Bool.false_eq_true, if_false, true_and]
  exact fun I => ⟨valid_folded_iff _, valid_folded_of_valid, fun hafter =>
    valid_folded_iff_valid (Semantics.written_assume hafter)⟩

/-- A condition that compares a variable before the command with the variable at the goal says
nothing of the variable after it: no obligation is valid, folded or not. -/
theorem valid_iff_of_folded_assume_goal :
    let zero : Constant := ⟨0, by decide, by decide⟩
    let scope : Scope := .ofList [("x", .int)]
    let shape : Pattern := .atom ⟨"V", []⟩
    let ctx : Context :=
      ⟨scope, scope, [⟨shape, some (.eq (.int (.var "x")) (.int (.const zero)))⟩], .core,
        { Options.standard with forgetSymbols := false }⟩
    let cond : Relation := .eq (.int (.var ⟨.before, "x"⟩)) (.int (.var ⟨.goal, "x"⟩))
    let t : Triple := ⟨"m_C0", ∅, .assume cond, reify (.ofList [⟨.lit true, ⟨"V", []⟩⟩]) [shape]⟩
    ∃ folded plain : Obligation, (ctx.withFolding true).obligations t = .ok [folded] ∧
      (ctx.withFolding false).obligations t = .ok [plain] ∧
      ∀ I, ¬plain.Valid I ∧ ¬folded.Valid I := by
  intro zero scope shape ctx cond t
  let x (m : Mark) : Expr MarkedVar := .int (.var ⟨m, "x"⟩)
  let goal : Relation := .eq (x .after) (.int (.const zero))
  let frame : Relation := .eq (x .after) (x .before)
  have hfolded : (ctx.withFolding true).obligations t = .ok [⟨"m_C0", cond, frame, goal⟩] := by
    decide +kernel
  have hplain : (ctx.withFolding false).obligations t =
      .ok [⟨"m_C0", .lit true, .all [cond, frame], goal⟩] := by
    decide +kernel
  have hrule : ctx.semantics.rules.get? Command.assumeName =
      Semantics.minimal.rules.get? Command.assumeName := rfl
  have hcmd : t.cmd = .assume cond := rfl
  have hmarks : ∀ leaf ∈ cond.leaves, leaf.var.mark ≠ .after := by decide +kernel
  have hpair := valid_iff_of_folded_assume hrule rfl hcmd hfolded hplain
  obtain ⟨-, hiff⟩ := (List.forall₂_cons.mp hpair).1
  refine ⟨_, _, hfolded, hplain, fun I => ?_⟩
  have hnot : ¬Valid I ⟨"m_C0", .lit true, .all [cond, frame], goal⟩ := by
    intro hvalid
    cases hvalid ⟨fun _ => 1, fun _ => false⟩ rfl rfl
  exact ⟨hnot, fun hvalid => hnot (((hiff I).2.2 hmarks).mp hvalid)⟩

/-- A variable that is zero, and a condition that says that it is one after the command: with the
condition folded the variable is proved to be zero after it, and it is not. -/
theorem folded_assume_of_later_state :
    let zero : Constant := ⟨0, by decide, by decide⟩
    let scope : Scope := .ofList [("x", .int)]
    let shape : Pattern := .atom ⟨"V", []⟩
    let ctx : Context :=
      ⟨scope, scope, [⟨shape, some (.eq (.int (.var "x")) (.int (.const zero)))⟩], .core,
        { Options.standard with forgetSymbols := false }⟩
    let held : Bag (Match Var) := reify (.ofList [⟨.lit true, ⟨"V", []⟩⟩]) [shape]
    let cond : Relation := .eq (.int (.var ⟨.after, "x"⟩)) (.int (.const .one))
    let t : Triple := ⟨"m_C0", held, .assume cond, held⟩
    ∃ folded plain : Obligation, (ctx.withFolding true).obligations t = .ok [folded] ∧
      (ctx.withFolding false).obligations t = .ok [plain] ∧
      ∀ I, folded.Valid I ∧ ¬plain.Valid I := by
  intro zero scope shape ctx held cond t
  let x (m : Mark) : Expr MarkedVar := .int (.var ⟨m, "x"⟩)
  let isZero (m : Mark) : Relation := .eq (x m) (.int (.const zero))
  have hfolded : (ctx.withFolding true).obligations t =
      .ok [⟨"m_C0", .all [isZero .before, cond], .eq (x .after) (x .before), isZero .after⟩] := by
    decide +kernel
  have hplain : (ctx.withFolding false).obligations t =
      .ok [⟨"m_C0", isZero .before, cond, isZero .after⟩] := by
    decide +kernel
  have hzero (I : Interpretation) (ρ : Valuation MarkedVar) (m : Mark) :
      (isZero m).eval I ρ = true ↔ ρ.int ⟨m, "x"⟩ = 0 := by
    simp [isZero, x, zero, BoolExpr.eval, Expr.eval, IntExpr.eval, Interpretation.eq]
  have hone (I : Interpretation) (ρ : Valuation MarkedVar) :
      cond.eval I ρ = true ↔ ρ.int ⟨.after, "x"⟩ = 1 := by
    simp [cond, Constant.one, BoolExpr.eval, Expr.eval, IntExpr.eval, Interpretation.eq]
  refine ⟨_, _, hfolded, hplain, fun I => ⟨fun ρ hpre hframe => ?_, fun hvalid => ?_⟩⟩
  · have hkept : ρ.int ⟨.after, "x"⟩ = ρ.int ⟨.before, "x"⟩ := by
      simpa [x, BoolExpr.eval, Expr.eval, IntExpr.eval, Interpretation.eq] using hframe
    simp only [BoolExpr.eval_all_eq_true, List.forall_mem_cons, hzero, hone] at hpre
    omega
  · have hlater := hvalid ⟨fun v => if v.mark = .after then 1 else 0, fun _ => false⟩
    simp [hzero, hone] at hlater

end Obligation.Context

end ViewLogic
