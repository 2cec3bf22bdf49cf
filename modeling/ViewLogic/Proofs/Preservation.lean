import ViewLogic.Proofs.Elimination
import ViewLogic.Proofs.HeldViews

/-!
# What valid obligations say of commands

The relation of an obligation is never stronger than that of its command: forgetting symbolic leaves
weakens it, and an assumed condition only moves to the precondition. So if all obligations of a
triple are valid, then its command leads from states of which the matches before it say the truth to
states of which the matches after it say the truth.
-/

namespace ViewLogic

/-! ### Forgetting symbolic leaves -/

section ForgetSymbols

variable {V : Type} (I : Interpretation) (ρ : Valuation V)

/-- Forgetting symbolic leaves weakens an expression. -/
theorem BoolExpr.eval_forgetSymbols (e : BoolExpr V) :
    e.eval I ρ = true → e.forgetSymbols.eval I ρ = true := by
  induction e using BoolExpr.induct with
  | lit | var | sym | cmp | not => exact id
  | conn op es ih =>
    intro h
    cases op with
    | or => exact h
    | and =>
      rw [forgetSymbols, forgetSymbolsAll_eq, eval_all_eq_true, List.forall_mem_map]
      intro e he
      refine ih e he ?_
      rw [eval, evalAll_eq] at h
      exact List.all_eq_true.mp h _ (List.mem_map_of_mem he)
  | implies l r _ ihr =>
    intro h
    rw [eval, Bool.or_eq_true] at h
    rw [forgetSymbols]
    split
    next => rfl
    next =>
      rw [eval, Bool.or_eq_true]
      exact h.imp_right ihr
  | eq l r =>
    intro h
    rw [forgetSymbols]
    split
    · rfl
    · exact h

/-- Flattened operands say the same as the operands once symbolic leaves are forgotten. -/
theorem BoolExpr.forall_forgetSymbols_operands (es : List (BoolExpr V)) :
    (∀ e ∈ es, e.forgetSymbols.eval I ρ = true) ↔
      ∃ rest, operands .and es = some rest ∧ ∀ e ∈ rest, e.forgetSymbols.eval I ρ = true := by
  fun_induction operands Connective.and es with
  | case1 => simp
  | case2 es ih => simpa [forgetSymbols, eval, Connective.unit] using ih
  | case3 b es hb =>
    have hb' : b = false := by simpa [Connective.unit] using hb
    simp [hb', forgetSymbols, eval]
  | case4 op fs es ih =>
    rw [List.forall_mem_cons, ih]
    cases op with
    | and =>
      have hflat : (conn .and fs).forgetSymbols.eval I ρ = true ↔
          ∀ e ∈ fs, e.forgetSymbols.eval I ρ = true := by
        rw [forgetSymbols, forgetSymbolsAll_eq, eval_all_eq_true, List.forall_mem_map]
      simp only [hflat, if_true, Option.map_eq_some_iff, ← exists_and_left,
        exists_exists_and_eq_and, List.forall_mem_append, and_left_comm]
    | or => simp [and_left_comm]
  | case5 e es _ _ ih =>
    rw [List.forall_mem_cons, ih]
    simp [and_left_comm]

/-- Forgetting symbolic leaves goes through a conjunction. -/
theorem BoolExpr.eval_forgetSymbols_all (es : List (BoolExpr V)) :
    (all es).forgetSymbols.eval I ρ = true ↔ ∀ e ∈ es, e.forgetSymbols.eval I ρ = true := by
  rw [forall_forgetSymbols_operands, all, combine]
  split
  next h => simp [h, forgetSymbols, eval, Connective.unit]
  next h => simp [h, forgetSymbols, eval, Connective.unit]
  next e h => simp [h]
  next rest _ _ h => simp [h, forgetSymbols, forgetSymbolsAll_eq, eval_all_eq_true]

end ForgetSymbols

/-! ### Frames and assumptions -/

/-- The declarations of a scope are those that a look-up finds. -/
theorem Scope.mem_decls {scope : Scope} {d : Decl} :
    d ∈ scope.decls ↔ scope.get? d.name = some d.ty := by
  rw [SortedMap.get?_eq_some_iff, decls, List.mem_map]
  constructor
  · rintro ⟨e, he, rfl⟩
    exact he
  · intro h
    exact ⟨_, h, rfl⟩

/-- A command that only assumes a condition is the one that assumes it. -/
theorem Command.eq_assume_of_assumed? {cmd : Command} {cond : Relation}
    (h : cmd.assumed? = some cond) : cmd = .assume cond := by
  unfold assumed? at h
  split at h
  next name cond' =>
    split at h
    next hname =>
      cases h
      rw [assume, hname]
    next => cases h
  next => cases h

namespace Semantics

variable {I : Interpretation} {ρ : Valuation MarkedVar}

/-- A frame says of the declared variables that are not written that they keep their values. -/
theorem eval_frame {scope : Scope} {written : List Var} :
    (frame scope written).eval I ρ = true ↔ ∀ x ty, scope.get? x = some ty → x ∉ written →
      (ρ.stateAt .after).read ⟨ty, x⟩ = (ρ.stateAt .before).read ⟨ty, x⟩ := by
  have hkept (d : Decl) : (BoolExpr.eq (.ofVar d.ty ⟨.after, d.name⟩)
      (.ofVar d.ty ⟨.before, d.name⟩)).eval I ρ = true ↔
        (ρ.stateAt .after).read ⟨d.ty, d.name⟩ = (ρ.stateAt .before).read ⟨d.ty, d.name⟩ := by
    obtain ⟨ty, x⟩ := d
    cases ty <;>
      simp [BoolExpr.eval, Expr.ofVar, Expr.eval, IntExpr.eval, Interpretation.eq, Valuation.read,
        Valuation.stateAt]
  simp only [frame, BoolExpr.eval_all_eq_true, List.forall_mem_map, List.mem_filter,
    decide_eq_true_eq, hkept, Scope.mem_decls]
  constructor
  · intro h x ty hget hnot
    exact h ⟨ty, x⟩ ⟨hget, hnot⟩
  · rintro h ⟨ty, x⟩ ⟨hget, hnot⟩
    exact h x ty hget hnot

/-- Without a written variable the states before and after agree on the declared variables. -/
theorem eval_frame_nil {scope : Scope} :
    (frame scope []).eval I ρ = true ↔ scope.Agree (ρ.stateAt .before) (ρ.stateAt .after) := by
  rw [eval_frame]
  refine forall₃_congr fun x ty _ => ?_
  rw [eq_comm]
  exact imp_iff_right List.not_mem_nil

/-- A frame has no symbolic leaves to forget. -/
theorem eval_forgetSymbols_frame {scope : Scope} {written : List Var} :
    (frame scope written).forgetSymbols.eval I ρ = true ↔
      (frame scope written).eval I ρ = true := by
  rw [frame, BoolExpr.eval_forgetSymbols_all, BoolExpr.eval_all_eq_true]
  simp only [List.forall_mem_map]
  refine forall₂_congr fun d _ => ?_
  cases d.ty <;> simp [BoolExpr.forgetSymbols, Expr.ofVar, Expr.isSymbolic]

/-- A primitive is instantiated from the rule of its name, which takes as many parameters. -/
theorem instantiate_eq_ok {s : Semantics} {p : Primitive} {r : Relation} :
    s.instantiate p = .ok r ↔ ∃ rule actuals, s.rules.get? p.name = some rule ∧
      rule.params.length = p.params.length ∧ bind p.name rule.params p.params = .ok actuals ∧
      rule.body.resolve (actuals.resolver fun _ x => .error (.unboundVar x)) = .ok r := by
  unfold instantiate
  split
  next rule hrule =>
    simp only [hrule, Option.some.injEq, exists_and_left, exists_eq_left']
    split
    next hlength =>
      constructor
      · intro h
        cases h
      · intro h
        exact absurd h.1 hlength
    next hlength => exact bind_eq_ok.trans (and_iff_right (Decidable.not_not.mp hlength)).symm
  next hnone =>
    constructor
    · intro h
      cases h
    · rintro ⟨rule, -, hrule, -⟩
      exact absurd hrule (hnone rule)

/-- The relation of a primitive is that of its rule and the frame, once its scope is checked. -/
theorem primitiveRelation_eq_ok {s : Semantics} {scope : Scope} {p : Primitive} {r : Relation} :
    s.primitiveRelation scope p = .ok r ↔ Command.checkScope [p] scope = .ok () ∧
      ∃ body, s.instantiate p = .ok body ∧ r = .all [body, frame scope p.written] := by
  constructor
  · intro h
    obtain ⟨_, hcheck, h⟩ := bind_eq_ok.mp h
    obtain ⟨body, hbody, h⟩ := bind_eq_ok.mp h
    cases h
    exact ⟨hcheck, body, hbody, rfl⟩
  · rintro ⟨hcheck, body, hbody, rfl⟩
    exact bind_eq_ok.mpr ⟨(), hcheck, bind_eq_ok.mpr ⟨body, hbody, rfl⟩⟩

/-- The primitive that assumes a condition writes nothing if the condition reads no variable after
it. -/
theorem written_assume {cond : Relation} (hcond : ∀ leaf ∈ cond.leaves, leaf.var.mark ≠ .after) :
    Primitive.written ⟨Command.assumeName, [.bool cond]⟩ = [] := by
  have hnone : (Primitive.leaves ⟨Command.assumeName, [.bool cond]⟩).filter
      (·.var.mark = .after) = [] := by
    rw [List.filter_eq_nil_iff]
    intro leaf hleaf
    have hafter := hcond leaf (by simpa [Primitive.leaves, Expr.leaves] using hleaf)
    simp [hafter]
  rw [Primitive.written, hnone]
  rfl

/-- Under its own rule, `Assume` says its condition. -/
theorem instantiate_assume {s : Semantics} (cond : Relation)
    (hrule : s.rules.get? Command.assumeName = minimal.rules.get? Command.assumeName) :
    s.instantiate ⟨Command.assumeName, [.bool cond]⟩ = .ok cond := by
  have hminimal : minimal.rules.get? Command.assumeName =
      some ⟨[⟨.bool, "c"⟩], .var "c"⟩ := by
    rw [minimal, register, SortedMap.get?_insert_self]
  rw [instantiate, hrule, hminimal]
  rfl

/-- The relation of `Assume` under its own rule: the condition, and the frame of what it does not
write. -/
theorem commandRelation_assume {s : Semantics} {scope : Scope} {cond r : Relation}
    (hrule : s.rules.get? Command.assumeName = minimal.rules.get? Command.assumeName)
    (h : s.commandRelation scope (.assume cond) = .ok r) :
    r = .all [cond, frame scope (Primitive.written ⟨Command.assumeName, [.bool cond]⟩)] := by
  obtain ⟨relations, hrelations, h⟩ := bind_eq_ok.mp h
  rw [Command.assume, List.mapM_cons] at hrelations
  obtain ⟨r', hr', hrelations⟩ := bind_eq_ok.mp hrelations
  cases hrelations
  cases h
  obtain ⟨-, body, hbody, rfl⟩ := primitiveRelation_eq_ok.mp hr'
  rw [instantiate_assume cond hrule] at hbody
  cases hbody
  rfl

end Semantics

namespace Obligation.Context

variable {ctx : Context} {I : Interpretation} {ρ : Valuation MarkedVar}

/-- If assumed conditions are folded, then this keeps the meaning of a command: `Assume` has its own
rule, and a condition that the command assumes is about the state before it. -/
def FoldsSoundly (ctx : Context) (cmd : Command) : Prop :=
  ctx.options.foldAssumes = true →
    ctx.semantics.rules.get? Command.assumeName =
        Semantics.minimal.rules.get? Command.assumeName ∧
      ∀ cond, cmd.assumed? = some cond → ∀ leaf ∈ cond.leaves, leaf.var.mark = .before

/-- The parts of a command follow from its relation. -/
theorem eval_commandParts {cmd : Command} {r : Relation} {parts : Option Relation × Relation}
    (hfold : ctx.FoldsSoundly cmd) (hparts : ctx.commandParts cmd = .ok parts)
    (hr : ctx.semantics.commandRelation ctx.scope cmd = .ok r) (hρ : r.eval I ρ = true) :
    (∀ cond, parts.1 = some cond → cond.eval I ρ = true) ∧ parts.2.eval I ρ = true := by
  unfold commandParts at hparts
  split at hparts
  next cond hon hassumed =>
    obtain ⟨-, -, hparts⟩ := bind_eq_ok.mp hparts
    cases hparts
    obtain ⟨hrule, hbefore⟩ := hfold hon
    obtain rfl : cmd = .assume cond := Command.eq_assume_of_assumed? hassumed
    obtain rfl := Semantics.commandRelation_assume hrule hr
    have hwritten : ∀ leaf ∈ cond.leaves, leaf.var.mark ≠ .after := by
      intro leaf hleaf
      rw [hbefore cond hassumed leaf hleaf]
      decide
    rw [Semantics.written_assume hwritten, BoolExpr.eval_all_eq_true] at hρ
    refine ⟨?_, hρ _ (by simp)⟩
    rintro _ ⟨⟩
    exact hρ _ (by simp)
  next =>
    obtain ⟨r', hr', hparts⟩ := bind_eq_ok.mp hparts
    cases hparts
    rw [hr] at hr'
    cases hr'
    refine ⟨?_, hρ⟩
    rintro _ ⟨⟩

/-- The obligations of a triple: one for each goal, from the matches held before the command and the
condition that it adds, by its relation with or without symbolic leaves. -/
theorem obligations_eq_ok {t : Triple} {os : List Obligation} :
    ctx.obligations t = .ok os ↔
      ∃ held parts goals, t.pre.elements.mapM (ctx.instantiate .before) = .ok held ∧
        ctx.commandParts t.cmd = .ok parts ∧
        t.post.elements.mapM (ctx.instantiate .after) = .ok goals ∧
        os = (if goals.isEmpty then [.lit true] else goals).mapIdx fun n post =>
          ⟨goalName t.name (if goals.isEmpty then [.lit true] else goals).length n,
            (match parts.1 with
              | some cond => .all [.all held, cond]
              | none => .all held),
            if ctx.options.forgetSymbols then parts.2.forgetSymbols else parts.2, post⟩ := by
  constructor
  · intro h
    obtain ⟨held, hheld, h⟩ := bind_eq_ok.mp h
    obtain ⟨parts, hparts, h⟩ := bind_eq_ok.mp h
    obtain ⟨goals, hgoals, h⟩ := bind_eq_ok.mp h
    cases h
    exact ⟨held, parts, goals, hheld, hparts, hgoals, rfl⟩
  · rintro ⟨held, parts, goals, hheld, hparts, hgoals, rfl⟩
    exact bind_eq_ok.mpr ⟨held, hheld, bind_eq_ok.mpr ⟨parts, hparts,
      bind_eq_ok.mpr ⟨goals, hgoals, rfl⟩⟩⟩

/-- Every goal has an obligation: from the matches held before the command and the condition that it
adds, by its relation with or without symbolic leaves. -/
theorem exists_obligation {t : Triple} {os : List Obligation} (h : ctx.obligations t = .ok os) :
    ∃ held parts goals, t.pre.elements.mapM (ctx.instantiate .before) = .ok held ∧
      ctx.commandParts t.cmd = .ok parts ∧
      t.post.elements.mapM (ctx.instantiate .after) = .ok goals ∧
      ∀ goal ∈ goals, ∃ o ∈ os,
        o.pre = (match parts.1 with
          | some cond => .all [.all held, cond]
          | none => .all held) ∧
        o.cmd = (if ctx.options.forgetSymbols then parts.2.forgetSymbols else parts.2) ∧
        o.post = goal := by
  obtain ⟨held, parts, goals, hheld, hparts, hgoals, rfl⟩ := obligations_eq_ok.mp h
  refine ⟨held, parts, goals, hheld, hparts, hgoals, fun goal hgoal => ?_⟩
  have hnonempty : goals.isEmpty = false := by
    cases goals with
    | nil => cases hgoal
    | cons => rfl
  obtain ⟨n, hn, hget⟩ := List.mem_iff_getElem.mp hgoal
  simp only [hnonempty, Bool.false_eq_true, if_false, List.mem_mapIdx]
  exact ⟨_, ⟨n, hn, rfl⟩, rfl, rfl, hget⟩

/-- If all obligations of a triple are valid, then its command leads to states of which every match
after it says the truth. -/
theorem says_of_valid {t : Triple} {os : List Obligation} {r : Relation}
    (hfold : ctx.FoldsSoundly t.cmd) (hos : ctx.obligations t = .ok os)
    (hvalid : ∀ o ∈ os, o.Valid I)
    (hr : ctx.semantics.commandRelation ctx.scope t.cmd = .ok r) (hρ : r.eval I ρ = true)
    (hpre : ∀ v ∈ t.pre.elements, ctx.Says I v (ρ.stateAt .before)) :
    ∀ v ∈ t.post.elements, ctx.Says I v (ρ.stateAt .after) := by
  intro v hv
  obtain ⟨held, parts, goals, hheld, hparts, hgoals, hos⟩ := exists_obligation hos
  obtain ⟨hcond, hrelation⟩ := eval_commandParts hfold hparts hr hρ
  obtain ⟨goal, hgoal, hinst⟩ := (mapM_eq_ok hgoals).1 v hv
  obtain ⟨o, ho, hopre, hocmd, rfl⟩ := hos goal hgoal
  have hheldTrue : (BoolExpr.all held).eval I ρ = true := by
    rw [BoolExpr.eval_all_eq_true]
    intro r' hr'
    obtain ⟨v', hv', hinst'⟩ := (mapM_eq_ok hheld).2 r' hr'
    exact (eval_instantiate (ctx.shows_stateAt ρ .before) hinst').mpr (hpre v' hv')
  have hpreTrue : o.pre.eval I ρ = true := by
    rw [hopre]
    split
    next cond hsome =>
      rw [BoolExpr.eval_all_eq_true]
      simp [hheldTrue, hcond cond hsome]
    next => exact hheldTrue
  have hcmdTrue : o.cmd.eval I ρ = true := by
    rw [hocmd]
    split
    · exact BoolExpr.eval_forgetSymbols I ρ parts.2 hrelation
    · exact hrelation
  rw [← eval_instantiate (ctx.shows_stateAt ρ .after) hinst]
  exact hvalid o ho ρ hpreTrue hcmdTrue

end Obligation.Context

end ViewLogic
