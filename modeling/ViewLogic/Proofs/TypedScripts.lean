import ViewLogic.Proofs.DeclaredLeaves
import ViewLogic.Proofs.DeclaredSymbols
import ViewLogic.Proofs.Modelling

/-!
# Obligations of a script are well typed

The model of a script keeps the declarations of the script, whatever its diagnostics. So every
variable that an obligation reads has one declaration, of the type at which it is read, and the
script that is written for its negated claim declares every variable once.
-/

namespace ViewLogic

/-! ### The scopes of a model -/

namespace Script

variable {s : Script} {options : Options} {m : Model}

/-- The scopes of a model are those of the script, and can be merged. -/
theorem scopes_of_model (h : s.model options = .ok m) :
    Scope.ofDecls s.globals = .ok m.globals ∧ Scope.ofDecls s.locals = .ok m.locals ∧
      ∃ scope, m.scope = .ok scope := by
  obtain ⟨globals, locals, hscopes, rfl⟩ := model_eq_ok_iff.mp h
  exact scopes_eq_ok.mp hscopes

/-- The merged scope of a model holds exactly the declarations of the script. -/
theorem get?_scope_iff (h : s.model options = .ok m) {scope : Scope} (hscope : m.scope = .ok scope)
    {x : Var} {ty : Ty} : scope.get? x = some ty ↔ ⟨ty, x⟩ ∈ s.globals ++ s.locals := by
  obtain ⟨hglobals, hlocals, -⟩ := scopes_of_model h
  have hempty : (∅ : Scope).get? x ≠ some ty := by
    intro hget
    cases hget
  rw [Scope.get?_foldlM_declare hscope, Scope.mem_decls, Scope.get?_foldlM_declare hglobals,
    Scope.get?_foldlM_declare hlocals, List.mem_append, or_iff_right hempty,
    or_iff_right hempty]

end Script

/-! ### Scripts for formulas -/

namespace Relation

variable {scope : Scope} {e : Relation}

/-- No variable of a formula is declared at two types, if all are declared in one scope. -/
theorem exists_declarations (h : scope.Covers e.leaves) : ∃ decls, e.declarations = .ok decls := by
  refine exists_declarations_iff.mpr fun leaf hleaf leaf' hleaf' hvar => ?_
  have hget := h leaf hleaf
  rw [hvar, h leaf' hleaf'] at hget
  exact (Option.some.inj hget).symm

/-- Only what has no term keeps the script of a formula from being written. -/
theorem failsWith_smtScript (h : scope.Covers e.leaves) :
    FailsWith Error.IsUntranslatable e.smtScript := by
  obtain ⟨decls, hdecls⟩ := exists_declarations h
  rw [smtScript, hdecls]
  refine (failsWith_ok decls).bind fun decls => ?_
  exact (Expr.failsWith_smtTerm.2.1 e).map.bind fun text => failsWith_ok _

/-- A formula over declared variables that can be translated has a script. -/
theorem exists_smtScript (h : scope.Covers e.leaves) (hterm : ∃ t, BoolExpr.smtTerm e = .ok t) :
    ∃ text, e.smtScript = .ok text := by
  obtain ⟨decls, hdecls⟩ := exists_declarations h
  obtain ⟨t, ht⟩ := hterm
  have htext : e.smtText = .ok t.render := map_eq_ok.mpr ⟨t, ht, rfl⟩
  exact ⟨_, smtScript_eq_ok.mpr ⟨decls, t.render, hdecls, htext, rfl⟩⟩

end Relation

/-- The entries of a triple with an obligation are its obligations. -/
theorem Triple.exists_of_mem_named {t : Triple} {result : Except Error (List Obligation)}
    {name : String} {o : Obligation} (h : (name, .ok o) ∈ t.named result) :
    ∃ os, result = .ok os ∧ o ∈ os := by
  cases result with
  | error e => simp [named] at h
  | ok os =>
    obtain ⟨o', ho', heq⟩ := List.mem_map.mp h
    cases heq
    exact ⟨os, rfl, ho'⟩

namespace Script

/-- The model of a script has obligations under every semantics and all options. Every variable of
an obligation, also inside a symbolic leaf, is declared in the script at the type at which it is
read and at no other. So the script that is written for the negated claim never fails because of
types, and it is there if the obligation has no symbolic leaf and no difference of no operands. -/
theorem obligations_read_declared {s : Script} {options : Options} {m : Model}
    (h : s.model options = .ok m) (semantics : Semantics) (options' : Options) :
    ∃ entries, m.obligations semantics options' = .ok entries ∧
      ∀ name o, (name, .ok o) ∈ entries →
        (∀ leaf ∈ o.leaves, ∀ ty,
          ⟨ty, leaf.var.name⟩ ∈ s.globals ++ s.locals ↔ ty = leaf.ty) ∧
        (∀ x expected got, o.negatedClaim.smtScript ≠ .error (.typeMismatch x expected got)) ∧
        ((∀ e ∈ o.parts, e.mentionsSymbolic = false ∧ e.mentionsEmptyDiff = false) →
          ∃ text, o.negatedClaim.smtScript = .ok text) := by
  obtain ⟨-, -, scope, hscope⟩ := scopes_of_model h
  refine ⟨_, bind_eq_ok.mpr ⟨scope, hscope, rfl⟩, fun name o ho => ?_⟩
  obtain ⟨t, -, ho⟩ := List.mem_flatMap.mp ho
  obtain ⟨os, hos, ho⟩ := Triple.exists_of_mem_named ho
  have hcovers : scope.Covers o.leaves :=
    Obligation.Context.covers_obligations (fun x ty => Scope.get?_of_merge hscope) hos ho
  have hclaim : scope.Covers o.negatedClaim.leaves :=
    fun leaf hleaf => hcovers leaf (o.leaves_negatedClaim_subset hleaf)
  refine ⟨fun leaf hleaf ty => ?_, fun x expected got herror => ?_, fun hparts => ?_⟩
  · rw [← get?_scope_iff h hscope, hcovers leaf hleaf, Option.some.injEq, eq_comm]
  · obtain ⟨text, htext⟩ := Relation.failsWith_smtScript hclaim _ herror
    cases htext
  · exact Relation.exists_smtScript hclaim (Obligation.exists_smtTerm_negatedClaim hparts)

/-- A counter is read as it is increased and then copied, under a view whose definition reads two
global variables. The obligation of the command reads the Boolean one, and the local variable at the
stage in between; its script can be written. -/
theorem obligations_read_declared_composed :
    let pass (x : Var) : View Var := .atom ⟨"V", [.int (.var x)]⟩
    let int (m : Mark) (x : Var) : Expr MarkedVar := .int (.var ⟨m, x⟩)
    let cmd : Command :=
      [⟨"IFetchIncr", [int .after "u", int .after "t", int .before "t"]⟩,
        ⟨"IAssign", [int .after "u", int .before "u"]⟩]
    let s : Script :=
      ⟨[⟨"V", [⟨.int, "x"⟩]⟩], [⟨.int, "t"⟩, ⟨.bool, "b"⟩], [⟨.int, "u"⟩],
        [⟨.atom ⟨"V", [⟨.int, "x"⟩]⟩, some (.implies (.var "b") (.cmp .le (.var "x") (.var "t")))⟩],
        [⟨"m", .next (pass "u") (.prim cmd) (.done (pass "t"))⟩]⟩
    ∃ m o text, s.model .standard = .ok m ∧
      (m.obligations .core .standard).map (·.map fun e => e.2.toOption) = .ok [some o] ∧
      ⟨.bool, ⟨.after, "b"⟩⟩ ∈ o.leaves ∧ ⟨.int, ⟨.intermediate .zero, "u"⟩⟩ ∈ o.leaves ∧
      (∀ leaf ∈ o.leaves, ∀ ty, ⟨ty, leaf.var.name⟩ ∈ s.globals ++ s.locals ↔ ty = leaf.ty) ∧
      o.negatedClaim.smtScript = .ok text := by
  intro pass int cmd s
  let check (o : Obligation) : Bool × Bool × Bool :=
    (decide (⟨.bool, ⟨.after, "b"⟩⟩ ∈ o.leaves),
      decide (⟨.int, ⟨.intermediate .zero, "u"⟩⟩ ∈ o.leaves),
      decide (∀ e ∈ o.parts, e.mentionsSymbolic = false ∧ e.mentionsEmptyDiff = false))
  have hchecked : (s.model .standard >>= fun m => m.obligations .core .standard).map
      (fun entries => entries.map fun e => e.2.toOption.map check) =
        .ok [some (true, true, true)] := by
    decide +kernel
  obtain ⟨entries, hentries, hmap⟩ := map_eq_ok.mp hchecked
  obtain ⟨m, hm, hentries⟩ := bind_eq_ok.mp hentries
  obtain ⟨⟨name, result⟩, rfl, hresult⟩ := List.map_eq_singleton_iff.mp hmap
  obtain ⟨o, ho, hcheck⟩ := Option.map_eq_some_iff.mp hresult
  obtain rfl : result = .ok o := by
    cases result with
    | error e => cases ho
    | ok o' =>
      cases ho
      rfl
  simp only [check, Prod.mk.injEq, decide_eq_true_eq] at hcheck
  obtain ⟨hbool, hstage, hparts⟩ := hcheck
  obtain ⟨entries, hentries', htyped⟩ := obligations_read_declared hm .core .standard
  rw [hentries] at hentries'
  cases hentries'
  obtain ⟨hdeclared, -, hscript⟩ := htyped name o (List.mem_singleton_self _)
  obtain ⟨text, htext⟩ := hscript hparts
  refine ⟨m, o, text, hm, ?_, hbool, hstage, hdeclared, htext⟩
  rw [hentries]
  rfl

end Script

end ViewLogic
