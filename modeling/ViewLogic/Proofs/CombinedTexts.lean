import ViewLogic.Backend.Propagation
import ViewLogic.Proofs.Instantiation
import ViewLogic.Proofs.SmtMeaning
import ViewLogic.Proofs.Translatable

/-!
# Both backends ask the same question

The backends combine an obligation into a formula and into a text. Different marked variables have
different symbols, whatever their names hold, so values of the variables and values of the symbols
determine each other, and under them the text has the value of the formula.
-/

namespace ViewLogic

namespace Smt

/-- Every symbol has the value of its variable. -/
def Agree (σ : String → Value) (ρ : Valuation MarkedVar) (leaves : List (Leaf MarkedVar)) : Prop :=
  ∀ leaf ∈ leaves, σ leaf.var.render = ρ.read leaf

/-- The values of the symbols of leaves. -/
def symbolValues (ρ : Valuation MarkedVar) (leaves : List (Leaf MarkedVar)) (symbol : String) :
    Value :=
  ((leaves.find? fun leaf => leaf.var.render = symbol).map ρ.read).getD (.int 0)

/-- The values of the symbols agree with a valuation if no variable is read at both types. -/
theorem agree_symbolValues (ρ : Valuation MarkedVar) {leaves : List (Leaf MarkedVar)}
    (htypes : ∀ leaf ∈ leaves, ∀ leaf' ∈ leaves, leaf.var = leaf'.var → leaf.ty = leaf'.ty) :
    Agree (symbolValues ρ leaves) ρ leaves := by
  intro leaf hleaf
  have hsome : (leaves.find? fun l => l.var.render = leaf.var.render).isSome := by
    rw [List.find?_isSome]
    exact ⟨leaf, hleaf, by simp⟩
  obtain ⟨found, hfound⟩ := Option.isSome_iff_exists.mp hsome
  have hvar : found.var = leaf.var := MarkedVar.render_inj (by simpa using List.find?_some hfound)
  have hty : found.ty = leaf.ty := htypes found (List.mem_of_find?_eq_some hfound) leaf hleaf hvar
  have heq : found = leaf := by
    cases found
    cases leaf
    cases hvar
    cases hty
    rfl
  simp [symbolValues, hfound, heq]

/-- The values of variables, from the values of their symbols. -/
def valuation (σ : String → Value) : Valuation MarkedVar where
  int v := (σ v.render).int?.getD 0
  bool v := (σ v.render).bool?.getD false

/-- Values of symbols come from a valuation if each has the type at which its variable is read. -/
theorem agree_valuation {σ : String → Value} {leaves : List (Leaf MarkedVar)}
    (h : ∀ leaf ∈ leaves, (σ leaf.var.render).ty = leaf.ty) : Agree σ (valuation σ) leaves := by
  rintro ⟨ty, v⟩ hleaf
  have hty := h ⟨ty, v⟩ hleaf
  cases hvalue : σ v.render <;> rw [hvalue] at hty <;> cases hty <;>
    simp [valuation, Valuation.read, hvalue, Value.int?, Value.bool?]

end Smt

namespace Backend

/-- The text of an obligation is there if its parts have terms, and joins them. -/
theorem smtLib_respond_eq_ok {o : Obligation} {r : Response String} :
    smtLib.respond .combine o = .ok r ↔ ∃ pre cmd post, BoolExpr.smtTerm o.pre = .ok pre ∧
      BoolExpr.smtTerm o.cmd = .ok cmd ∧ BoolExpr.smtTerm o.post = .ok post ∧
      r = .combined (SmtTerm.app "and" [pre, cmd, .app "not" [post]]).render := by
  have htext (pre cmd post : SmtTerm) :
      joinTexts [pre.render, cmd.render, "(not " ++ post.render ++ ")"] =
        (SmtTerm.app "and" [pre, cmd, .app "not" [post]]).render := by
    simp [joinTexts, SmtTerm.render, SmtTerm.renderAll, ← String.append_assoc]
  constructor
  · intro h
    obtain ⟨_, htranslate, h⟩ := bind_eq_ok.mp h
    obtain ⟨pre, hpre, rfl⟩ := map_eq_ok.mp htranslate
    obtain ⟨_, htranslate, h⟩ := bind_eq_ok.mp h
    obtain ⟨cmd, hcmd, rfl⟩ := map_eq_ok.mp htranslate
    obtain ⟨_, htranslate, h⟩ := bind_eq_ok.mp h
    obtain ⟨post, hpost, rfl⟩ := map_eq_ok.mp htranslate
    cases h
    exact ⟨pre, cmd, post, hpre, hcmd, hpost, congrArg _ (htext pre cmd post)⟩
  · rintro ⟨pre, cmd, post, hpre, hcmd, hpost, rfl⟩
    refine bind_eq_ok.mpr ⟨_, map_eq_ok.mpr ⟨pre, hpre, rfl⟩, ?_⟩
    refine bind_eq_ok.mpr ⟨_, map_eq_ok.mpr ⟨cmd, hcmd, rfl⟩, ?_⟩
    refine bind_eq_ok.mpr ⟨_, map_eq_ok.mpr ⟨post, hpost, rfl⟩, ?_⟩
    exact congrArg (Except.ok ∘ Response.combined) (htext pre cmd post)

/-- The combined text of an obligation exists exactly if none of its formulas holds a symbolic leaf
or a difference of no operands. -/
theorem exists_smtLib_respond {o : Obligation} :
    (∃ r, smtLib.respond .combine o = .ok r) ↔
      ∀ e ∈ o.parts, e.mentionsSymbolic = false ∧ e.mentionsEmptyDiff = false := by
  have hterm (e : Relation) := Expr.exists_smtTerm.2.1 e
  simp only [Obligation.parts, List.forall_mem_cons, List.not_mem_nil, IsEmpty.forall_iff,
    implies_true, and_true, ← hterm]
  constructor
  · rintro ⟨r, hr⟩
    obtain ⟨pre, cmd, post, hpre, hcmd, hpost, -⟩ := smtLib_respond_eq_ok.mp hr
    exact ⟨⟨pre, hpre⟩, ⟨cmd, hcmd⟩, ⟨post, hpost⟩⟩
  · rintro ⟨⟨pre, hpre⟩, ⟨cmd, hcmd⟩, ⟨post, hpost⟩⟩
    exact ⟨_, smtLib_respond_eq_ok.mpr ⟨pre, cmd, post, hpre, hcmd, hpost, rfl⟩⟩

open Smt in
/-- The text of an obligation has the value of the negated claim. -/
theorem value?_of_smtLib_respond {I : Interpretation} {σ : String → Value}
    {ρ : Valuation MarkedVar} {o : Obligation} {text : String}
    (h : smtLib.respond .combine o = .ok (.combined text))
    (hnames : ∀ leaf ∈ o.leaves, Quotable leaf.var.name) (hagree : Agree σ ρ o.leaves) :
    value? I σ text = some (.bool (o.negatedClaim.eval I ρ)) := by
  obtain ⟨pre, cmd, post, hpre, hcmd, hpost, htext⟩ := smtLib_respond_eq_ok.mp h
  cases htext
  have hpart {e : Relation} (he : e ∈ o.parts) {t : SmtTerm} (ht : BoolExpr.smtTerm e = .ok t) :
      Denotes I σ t.render (.bool (e.eval I ρ)) := by
    refine Expr.denotes_smtTerm.2.1 e t ht fun leaf hleaf => ?_
    have hmem : leaf ∈ o.leaves := List.mem_flatMap.mpr ⟨e, he, hleaf⟩
    exact ⟨hnames leaf hmem, hagree leaf hmem⟩
  have hnot : Denotes I σ (SmtTerm.app "not" [post]).render (.bool (!o.post.eval I ρ)) :=
    denotes_app (f := .not) rfl (.cons (hpart (by simp [Obligation.parts]) hpost) .nil)
      (List.cons_ne_nil _ _) rfl
  have hclaim : o.negatedClaim.eval I ρ =
      Connective.and.holds [o.pre.eval I ρ, o.cmd.eval I ρ, !o.post.eval I ρ] := by
    simp [Obligation.negatedClaim, BoolExpr.all]
  have hargs : List.Forall₂ (Denotes I σ) (SmtTerm.renderAll [pre, cmd, .app "not" [post]])
      ([o.pre.eval I ρ, o.cmd.eval I ρ, !o.post.eval I ρ].map .bool) :=
    .cons (hpart (by simp [Obligation.parts]) hpre)
      (.cons (hpart (by simp [Obligation.parts]) hcmd) (.cons hnot .nil))
  rw [hclaim]
  exact (denotes_app (f := .conn .and) rfl hargs (List.cons_ne_nil _ _)
    (apply_conn I .and _ _)).value?_eq

open Smt in
/-- Let the names in an obligation be quotable and each marked variable be read at one type. The
propagating backend combines the obligation into its negated claim. The writing backend gives a text
if and only if no symbolic leaf and no difference of no operands occurs. Values of the variables can
be given to their symbols, and values of the symbols that have the types of the variables to the
variables; under values that agree the text has the value of the negated claim. -/
theorem combined_text_asks_negatedClaim (o : Obligation)
    (hnames : ∀ leaf ∈ o.leaves, Quotable leaf.var.name)
    (htypes : ∀ leaf ∈ o.leaves, ∀ leaf' ∈ o.leaves, leaf.var = leaf'.var → leaf.ty = leaf'.ty) :
    propagation.respond .combine o = .ok (.combined o.negatedClaim) ∧
      ((∃ r, smtLib.respond .combine o = .ok r) ↔
        ∀ e ∈ o.parts, e.mentionsSymbolic = false ∧ e.mentionsEmptyDiff = false) ∧
      (∀ ρ, ∃ σ, Agree σ ρ o.leaves) ∧
      (∀ σ, (∀ leaf ∈ o.leaves, (σ leaf.var.render).ty = leaf.ty) → ∃ ρ, Agree σ ρ o.leaves) ∧
      ∀ r, smtLib.respond .combine o = .ok r → ∃ text, r = .combined text ∧
        ∀ I σ ρ, Agree σ ρ o.leaves →
          value? I σ text = some (.bool (o.negatedClaim.eval I ρ)) := by
  refine ⟨rfl, exists_smtLib_respond, ?_, ?_, ?_⟩
  · intro ρ
    exact ⟨symbolValues ρ o.leaves, agree_symbolValues ρ htypes⟩
  · intro σ hσ
    exact ⟨valuation σ, agree_valuation hσ⟩
  · intro r hr
    obtain ⟨pre, cmd, post, -, -, -, rfl⟩ := smtLib_respond_eq_ok.mp hr
    exact ⟨_, rfl, fun I σ ρ hagree => value?_of_smtLib_respond hr hnames hagree⟩

open Smt in
/-- The variable `x!0` before the command and the variable `x` at stage zero have the symbols
`x!0!before` and `x!0`. With the least constant, a difference of one operand and a product of none,
the text is true where the first is that constant and the second is one. -/
theorem combined_text_asks_negatedClaim_least_constant :
    let least : IntExpr MarkedVar := .const ⟨-9223372036854775808, by decide, by decide⟩
    let x : IntExpr MarkedVar := .var ⟨.before, "x!0"⟩
    let y : IntExpr MarkedVar := .var ⟨.intermediate .zero, "x"⟩
    let o : Obligation :=
      ⟨"m", .eq (.int x) (.int least), .eq (.int (.arith .sub [y])) (.int (.arith .mul [])),
        .cmp .lt (.div x y) (.arith .sub [x, y])⟩
    ∃ text, smtLib.respond .combine o = .ok (.combined text) ∧
      ∀ I σ, σ "x!0!before" = .int (-9223372036854775808) → σ "x!0" = .int 1 →
        value? I σ text = some (.bool true) := by
  intro least x y o
  have hnames : ∀ leaf ∈ o.leaves,
      '|' ∉ leaf.var.name.toList ∧ '\\' ∉ leaf.var.name.toList := by
    decide +kernel
  have hleaves : ∀ leaf ∈ o.leaves, leaf = ⟨.int, ⟨.before, "x!0"⟩⟩ ∨
      leaf = ⟨.int, ⟨.intermediate .zero, "x"⟩⟩ := by decide +kernel
  obtain ⟨-, hsuccess, -, hvaluation, hvalue⟩ :=
    combined_text_asks_negatedClaim o hnames (by decide +kernel)
  obtain ⟨r, hr⟩ := hsuccess.mpr (by decide +kernel)
  obtain ⟨text, rfl, hvalue⟩ := hvalue r hr
  refine ⟨text, hr, fun I σ hx hy => ?_⟩
  have hσx : σ (MarkedVar.render ⟨.before, "x!0"⟩) = .int (-9223372036854775808) := hx
  have hσy : σ (MarkedVar.render ⟨.intermediate .zero, "x"⟩) = .int 1 := hy
  obtain ⟨ρ, hagree⟩ : ∃ ρ, Agree σ ρ o.leaves := by
    apply hvaluation
    intro leaf hleaf
    rcases hleaves leaf hleaf with rfl | rfl
    · rw [hσx]
      rfl
    · rw [hσy]
      rfl
  have hρx : ρ.int ⟨.before, "x!0"⟩ = -9223372036854775808 := by
    have h := hagree ⟨.int, ⟨.before, "x!0"⟩⟩ (by decide +kernel)
    exact Value.int.inj (h.symm.trans hσx)
  have hρy : ρ.int ⟨.intermediate .zero, "x"⟩ = 1 := by
    have h := hagree ⟨.int, ⟨.intermediate .zero, "x"⟩⟩ (by decide +kernel)
    exact Value.int.inj (h.symm.trans hσy)
  rw [hvalue I σ ρ hagree]
  simp [o, x, y, least, Obligation.negatedClaim, BoolExpr.all, BoolExpr.eval, IntExpr.eval,
    IntExpr.evalAll, Expr.eval, Interpretation.arith, Interpretation.div, Interpretation.eq,
    Connective.holds, Comparison.truth, hρx, hρy]

end Backend

end ViewLogic
