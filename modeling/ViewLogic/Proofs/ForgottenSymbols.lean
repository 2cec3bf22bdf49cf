import ViewLogic.Proofs.Preservation

/-!
# Forgetting symbolic equalities is sound

The value of a symbolic leaf is not known, so an equality that fixes it may be left out of the
relation of a command. This is done only where the relation claims the equality, which makes the
relation weaker: it holds of more runs, and a goal that holds after all of these holds after the
runs of the command. Nothing else of an obligation changes, and a relation without symbolic leaves
keeps its meaning.
-/

namespace ViewLogic

variable {V : Type}

/-- A symbolic leaf mentions one. -/
theorem Expr.mentionsSymbolic_of_isSymbolic {e : Expr V} (h : e.isSymbolic = true) :
    e.mentionsSymbolic = true := by
  unfold isSymbolic at h
  split at h
  next => rfl
  next => rfl
  next => cases h

/-- An expression without symbolic leaves keeps its meaning. -/
theorem BoolExpr.eval_of_forgetSymbols (I : Interpretation) (ρ : Valuation V) (e : BoolExpr V) :
    e.mentionsSymbolic = false → e.forgetSymbols.eval I ρ = true → e.eval I ρ = true := by
  induction e using BoolExpr.induct with
  | lit | var | sym | cmp | not => exact fun _ => id
  | conn op es ih =>
    intro hsymbolic h
    cases op with
    | or => exact h
    | and =>
      rw [mentionsSymbolic, anySymbolic_eq, List.any_eq_false] at hsymbolic
      rw [forgetSymbols, forgetSymbolsAll_eq, eval_all_eq_true, List.forall_mem_map] at h
      rw [eval, evalAll_eq]
      refine List.all_eq_true.mpr (List.forall_mem_map.mpr fun e he => ?_)
      exact ih e he (by simpa using hsymbolic e he) (h e he)
  | implies l r _ ihr =>
    intro hsymbolic h
    rw [mentionsSymbolic, Bool.or_eq_false_iff] at hsymbolic
    rw [eval, Bool.or_eq_true]
    rw [forgetSymbols] at h
    split at h
    next heq => exact .inr (ihr hsymbolic.2 (by rw [heq]; rfl))
    next =>
      rw [eval, Bool.or_eq_true] at h
      exact h.imp_right (ihr hsymbolic.2)
  | eq l r =>
    intro hsymbolic h
    rw [mentionsSymbolic, Bool.or_eq_false_iff] at hsymbolic
    rw [forgetSymbols] at h
    split at h
    next hsym =>
      rcases Bool.or_eq_true_iff.mp hsym with hl | hr
      · simp [Expr.mentionsSymbolic_of_isSymbolic hl] at hsymbolic
      · simp [Expr.mentionsSymbolic_of_isSymbolic hr] at hsymbolic
    next => exact h

namespace Obligation

/-- The obligation with the symbolic equalities of its command forgotten. -/
def forgetSymbols (o : Obligation) : Obligation := { o with cmd := o.cmd.forgetSymbols }

/-- A goal that holds after the runs of a weaker relation holds after those of the command. -/
theorem valid_of_valid_forgetSymbols {I : Interpretation} {o : Obligation}
    (h : o.forgetSymbols.Valid I) : o.Valid I :=
  fun ρ hpre hcmd => h ρ hpre (BoolExpr.eval_forgetSymbols I ρ o.cmd hcmd)

/-- Where the command mentions no symbolic leaf, forgetting symbols keeps the validity of an
obligation. -/
theorem valid_forgetSymbols_iff {I : Interpretation} {o : Obligation}
    (hsymbolic : o.cmd.mentionsSymbolic = false) : o.forgetSymbols.Valid I ↔ o.Valid I :=
  ⟨valid_of_valid_forgetSymbols, fun h ρ hpre hcmd =>
    h ρ hpre (BoolExpr.eval_of_forgetSymbols I ρ o.cmd hsymbolic hcmd)⟩

namespace Context

variable (ctx : Context)

/-- The context with symbolic equalities forgotten or not. -/
def withForgetting (forget : Bool) : Context :=
  { ctx with options := { ctx.options with forgetSymbols := forget } }

/-- Forgetting symbolic equalities changes the commands of the obligations and nothing else. -/
theorem obligations_withForgetting (t : Triple) :
    (ctx.withForgetting true).obligations t =
      ((ctx.withForgetting false).obligations t).map (List.map Obligation.forgetSymbols) := by
  -- Neither the matches nor the parts of the command look at this option.
  have hmatch (forget : Bool) (m : Mark) :
      (ctx.withForgetting forget).instantiate m = ctx.instantiate m := rfl
  have hparts (forget : Bool) :
      (ctx.withForgetting forget).commandParts t.cmd = ctx.commandParts t.cmd := rfl
  simp only [obligations, hmatch, hparts]
  cases t.pre.elements.mapM (ctx.instantiate .before) with
  | error e => rfl
  | ok held =>
    cases ctx.commandParts t.cmd with
    | error e => rfl
    | ok parts =>
      cases t.post.elements.mapM (ctx.instantiate .after) with
      | error e => rfl
      | ok goals =>
        refine congrArg Except.ok (List.mapIdx_eq_iff.mpr fun n => ?_)
        rw [List.getElem?_map, List.getElem?_mapIdx, Option.map_map]
        rfl

end Context

/-- An expression implies what is left of it when its symbolic equalities are forgotten. Hence the
obligations of a triple with these equalities forgotten are those without, in the same order and
with weaker commands, and if such an obligation is valid then so is the one that it comes from.
Where a command has no symbolic leaf, the two are equivalent. -/
theorem forgetSymbols_sound :
    (∀ (V : Type) (I : Interpretation) (ρ : Valuation V) (e : BoolExpr V),
      e.eval I ρ = true → e.forgetSymbols.eval I ρ = true) ∧
    ∀ (ctx : Context) (t : Triple),
      (ctx.withForgetting true).obligations t =
        ((ctx.withForgetting false).obligations t).map (List.map forgetSymbols) ∧
      ∀ os, (ctx.withForgetting false).obligations t = .ok os → ∀ o ∈ os, ∀ I,
        (o.forgetSymbols.Valid I → o.Valid I) ∧
        (o.cmd.mentionsSymbolic = false → (o.forgetSymbols.Valid I ↔ o.Valid I)) :=
  ⟨fun _ => BoolExpr.eval_forgetSymbols, fun ctx t => ⟨ctx.obligations_withForgetting t,
    fun _ _ _ _ _ => ⟨valid_of_valid_forgetSymbols, valid_forgetSymbols_iff⟩⟩⟩

/-- A variable gets a symbolic value, and another one stays zero. -/
theorem forgetSymbols_sound_assign :
    let zero : Constant := ⟨0, by decide, by decide⟩
    let scope : Scope := .ofList [("x", .int), ("y", .int)]
    let shape : Pattern := .atom ⟨"V", []⟩
    let ctx : Context :=
      ⟨scope, scope, [⟨shape, some (.eq (.int (.var "y")) (.int (.const zero)))⟩], .core, .standard⟩
    let held : Bag (Match Var) := reify (.ofList [⟨.lit true, ⟨"V", []⟩⟩]) [shape]
    let t : Triple :=
      ⟨"m_C0", held, [⟨"IAssign", [.int (.var ⟨.after, "x"⟩), .int (.sym "read" [])]⟩], held⟩
    ∃ o : Obligation, (ctx.withForgetting false).obligations t = .ok [o] ∧
      (ctx.withForgetting true).obligations t = .ok [o.forgetSymbols] ∧
      o.forgetSymbols.cmd =
        .eq (.int (.var ⟨.after, "y"⟩)) (.int (.var ⟨.before, "y"⟩)) ∧ ∀ I, o.Valid I := by
  intro zero scope shape ctx held t
  let y (m : Mark) : Expr MarkedVar := .int (.var ⟨m, "y"⟩)
  let isZero (m : Mark) : Relation := .eq (y m) (.int (.const zero))
  let o : Obligation := ⟨"m_C0", isZero .before, .all [.eq (.int (.var ⟨.after, "x"⟩))
    (.int (.sym "read" [])), .eq (y .after) (y .before)], isZero .after⟩
  have hplain : (ctx.withForgetting false).obligations t = .ok [o] := by decide +kernel
  obtain ⟨-, hobligations⟩ := forgetSymbols_sound
  obtain ⟨hforgotten, hvalid⟩ := hobligations ctx t
  have hcmd : o.forgetSymbols.cmd = .eq (y .after) (y .before) := by decide +kernel
  refine ⟨o, hplain, by rw [hforgotten, hplain]; rfl, hcmd, fun I => ?_⟩
  refine ((hvalid [o] hplain o (by simp)) I).1 fun ρ hpre hkept => ?_
  have hzero : ρ.int ⟨.before, "y"⟩ = 0 := by
    simpa [o, forgetSymbols, isZero, y, zero, BoolExpr.eval, Expr.eval, IntExpr.eval,
      Interpretation.eq] using hpre
  have hsame : ρ.int ⟨.after, "y"⟩ = ρ.int ⟨.before, "y"⟩ := by
    rw [hcmd] at hkept
    simpa [y, BoolExpr.eval, Expr.eval, IntExpr.eval, Interpretation.eq] using hkept
  simp [o, forgetSymbols, isZero, y, zero, BoolExpr.eval, Expr.eval, IntExpr.eval,
    Interpretation.eq, hsame, hzero]

end Obligation

end ViewLogic
