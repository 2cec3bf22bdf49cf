import ViewLogic.Proofs.SmtWriting

/-!
# Texts are well-formed terms

The text of an expression is read as one term, in which every operator has as many operands as the
language asks for. There is one exception: a connective of a single operand is written as it is,
where the language wants two operands or more. So a text is strictly well-formed if and only if no
connective of the expression has a single operand. The symbols of the term are the variables of the
expression.
-/

namespace ViewLogic

namespace Expr

variable {V : Type}

/-- A connective has operands enough, if it has any. -/
def Connects (least : Nat) : Expr V → Prop
  | bool (.conn _ es) => es ≠ [] → least ≤ es.length
  | _ => True

/-- Every connective of an expression has operands enough, if it has any. -/
def ConnectsAll (least : Nat) (e : Expr V) : Prop :=
  ∀ part : Expr V, part.PartOf e → part.Connects least

/-- Every connective of an expression has operands enough if its root and everything right below
do. -/
theorem connectsAll_iff {least : Nat} {e : Expr V} :
    e.ConnectsAll least ↔ e.Connects least ∧ ∀ child ∈ e.children, child.ConnectsAll least :=
  forall_partOf_iff

/-- The variables of an expression with an operator are those of its operands. -/
theorem leaves_eq_flatMap {e : Expr V} {f : Smt.Operator} (hf : e.operator? = some f) :
    e.leaves = e.children.flatMap leaves := by
  unfold operator? at hf
  split at hf
  case h_8 => cases hf
  all_goals
    simp [leaves, IntExpr.leaves, BoolExpr.leaves, IntExpr.leavesAll_eq, BoolExpr.leavesAll_eq,
      children, List.flatMap_map]

end Expr

namespace Smt

/-! ### Well-formed terms -/

/-- Whether an operator may be applied to operands, where connectives take `least` operands or
more. A minus sign takes a numeral, or two operands or more. -/
def Operator.Takes (least : Nat) : Operator → List SExpr → Prop
  | .arith .sub, [x] => ∃ n : Nat, x = .word (toString n)
  | .arith _, xs => 2 ≤ xs.length
  | .conn _, xs => least ≤ xs.length
  | .not, xs => xs.length = 1
  | .div, xs | .implies, xs | .eq, xs | .cmp _, xs => xs.length = 2

/-- The terms of the language: symbols, truth values, numerals and operators with their operands. -/
inductive SExpr.WellFormed (least : Nat) : SExpr → Prop
  | symbol (name : String) : WellFormed least (.quoted name)
  | lit (b : Bool) : WellFormed least (.word (if b then "true" else "false"))
  | numeral (n : Nat) : WellFormed least (.word (toString n))
  | app {op : String} {f : Operator} {args : List SExpr} : operator? op = some f →
      f.Takes least args → (∀ x ∈ args, WellFormed least x) →
      WellFormed least (.list (.word op :: args))

/-- An application is well formed exactly if its operator takes its operands and they are well
formed. -/
theorem wellFormed_app_iff {least : Nat} {op : String} {f : Operator} {args : List SExpr}
    (hop : operator? op = some f) :
    (SExpr.list (.word op :: args)).WellFormed least ↔
      f.Takes least args ∧ ∀ x ∈ args, x.WellFormed least := by
  constructor
  · rintro (_ | _ | _ | ⟨hop', htakes, hargs⟩)
    rw [hop] at hop'
    cases hop'
    exact ⟨htakes, hargs⟩
  · rintro ⟨htakes, hargs⟩
    exact .app hop htakes hargs

mutual

/-- The quoted symbols of an expression, from left to right. -/
def SExpr.symbols : SExpr → List String
  | .quoted name => [name]
  | .word _ => []
  | .list items => SExpr.symbolsAll items

/-- The quoted symbols of expressions. -/
def SExpr.symbolsAll : List SExpr → List String
  | [] => []
  | x :: xs => x.symbols ++ SExpr.symbolsAll xs

end

/-! ### Texts of expressions -/

/-- A text is read as a term with the symbols of an expression. The term is well-formed if the
connectives of the expression have operands enough. -/
def Writes (text : String) (e : Expr MarkedVar) : Prop :=
  ∃ x, Spells text x ∧ x.symbols = e.leaves.map (·.var.render) ∧
    ∀ least, x.WellFormed least ↔ e.ConnectsAll least

/-- The texts of operands are read as terms. -/
theorem exists_operands {texts : List String} {es : List (Expr MarkedVar)}
    (h : List.Forall₂ Writes texts es) :
    ∃ xs, List.Forall₂ Spells texts xs ∧ xs.length = es.length ∧
      SExpr.symbolsAll xs = (es.flatMap Expr.leaves).map (·.var.render) ∧
      ∀ least, (∀ x ∈ xs, x.WellFormed least) ↔ ∀ e ∈ es, e.ConnectsAll least := by
  induction h with
  | nil => exact ⟨[], .nil, rfl, rfl, by simp⟩
  | cons hhead _ ih =>
    obtain ⟨x, hspells, hsymbols, hwell⟩ := hhead
    obtain ⟨xs, hspellsAll, hlength, hsymbolsAll, hwellAll⟩ := ih
    refine ⟨x :: xs, .cons hspells hspellsAll, by simp [hlength], ?_, fun least => ?_⟩
    · simp [SExpr.symbolsAll, hsymbols, hsymbolsAll]
    · rw [List.forall_mem_cons, List.forall_mem_cons, hwell, hwellAll]

/-- An operator takes the operands of the expression that it is written for, provided that a
connective has operands enough. -/
theorem takes_operator?_iff {least : Nat} {e : Expr MarkedVar} {f : Operator} {xs : List SExpr}
    (hf : e.operator? = some f) (hlength : xs.length = e.children.length) :
    f.Takes least xs ↔ e.Connects least := by
  unfold Expr.operator? at hf
  split at hf
  case h_1 op e₁ e₂ es =>
    cases hf
    rcases xs with _ | ⟨x₁, _ | ⟨x₂, xs⟩⟩
    · simp [Expr.children] at hlength
    · simp [Expr.children] at hlength
    · cases op <;> simp [Operator.Takes, Expr.Connects]
  case h_3 op e es =>
    cases hf
    simp [Operator.Takes, Expr.Connects, hlength, Expr.children]
  case h_8 => cases hf
  all_goals
    cases hf
    exact iff_of_true hlength trivial

/-- An operator is written before its operands. -/
theorem writes_app {e : Expr MarkedVar} {f : Operator} {ts : List SmtTerm}
    (hf : e.operator? = some f)
    (hargs : List.Forall₂ Writes (SmtTerm.renderAll ts) e.children) :
    Writes (SmtTerm.app f.symbol ts).render e := by
  obtain ⟨xs, hspells, hlength, hsymbols, hwell⟩ := exists_operands hargs
  refine ⟨.list (.word f.symbol :: xs), ?_, ?_, fun least => ?_⟩
  · apply spells_app (spells_of_operator? (operator?_symbol f)) hspells
    intro hnil
    rw [hnil, List.forall₂_nil_left_iff] at hargs
    exact Expr.children_ne_nil hf hargs
  · rw [SExpr.symbols, SExpr.symbolsAll, SExpr.symbols, List.nil_append, hsymbols,
      Expr.leaves_eq_flatMap hf]
  · rw [wellFormed_app_iff (operator?_symbol f), takes_operator?_iff hf hlength, hwell,
      Expr.connectsAll_iff]

/-- An expression without variables and operands is written as a term without symbols. -/
theorem writes_atom {text : String} {x : SExpr} {e : Expr MarkedVar} (hspells : Spells text x)
    (hsymbols : x.symbols = []) (hwell : ∀ least, x.WellFormed least) (hleaves : e.leaves = [])
    (hchildren : e.children = []) (hconnects : ∀ least, e.Connects least) : Writes text e := by
  refine ⟨x, hspells, by rw [hsymbols, hleaves]; rfl, fun least => iff_of_true (hwell least) ?_⟩
  rw [Expr.connectsAll_iff, hchildren]
  exact ⟨hconnects least, by simp⟩

/-- A numeral writes any expression without leaves and parts. -/
theorem writes_numeral (n : Nat) {e : Expr MarkedVar} (hleaves : e.leaves = [])
    (hchildren : e.children = []) (hconnects : ∀ least, e.Connects least) :
    Writes (toString n) e :=
  writes_atom (spells_numeral n) rfl (fun _ => .numeral n) hleaves hchildren hconnects

/-- A Boolean constant writes any expression without leaves and parts. -/
theorem writes_lit (b : Bool) {e : Expr MarkedVar} (hleaves : e.leaves = [])
    (hchildren : e.children = []) (hconnects : ∀ least, e.Connects least) :
    Writes (if b then "true" else "false") e :=
  writes_atom (spells_lit b) rfl (fun _ => .lit b) hleaves hchildren hconnects

/-- The text of an integer constant writes it, also if it is negative. -/
theorem writes_constant (c : Constant) :
    Writes (SmtTerm.ofConstant c).render (.int (.const c)) := by
  unfold SmtTerm.ofConstant
  split
  next =>
    have hspells : Spells (SmtTerm.app "-" [.leaf (toString c.val.natAbs)]).render
        (.list [.word "-", .word (toString c.val.natAbs)]) :=
      spells_app (spells_of_operator? (f := .arith .sub) rfl)
        (.cons (spells_numeral c.val.natAbs) .nil) (List.cons_ne_nil _ _)
    refine writes_atom hspells rfl (fun least => ?_) rfl rfl fun _ => trivial
    refine .app (f := .arith .sub) rfl ⟨c.val.natAbs, rfl⟩ fun x hx => ?_
    obtain rfl := List.mem_singleton.mp hx
    exact .numeral c.val.natAbs
  next hnonneg =>
    obtain ⟨n, hn⟩ := Int.eq_ofNat_of_zero_le (Int.not_lt.mp hnonneg)
    rw [hn]
    exact writes_numeral n rfl rfl fun _ => trivial

/-- Well-formed texts keep to the rules, if names can be quoted. -/
theorem writes_rules : WritingRules (fun leaf => Quotable leaf.var.name) Writes where
  const := writes_constant
  lit b := writes_lit b rfl rfl fun _ => trivial
  var ty v h := by
    refine ⟨.quoted v.render, spells_quoted (MarkedVar.quotable_render h), ?_, fun least => ?_⟩
    · cases ty <;> rfl
    · refine iff_of_true (.symbol v.render) ?_
      rw [Expr.connectsAll_iff]
      cases ty <;> exact ⟨trivial, by simp [Expr.ofVar, Expr.children]⟩
  sum := writes_numeral 0 rfl rfl fun _ => trivial
  product := writes_numeral 1 rfl rfl fun _ => trivial
  single op {text e} h := by
    obtain ⟨x, hspells, hsymbols, hwell⟩ := h
    refine ⟨x, hspells, ?_, fun least => ?_⟩
    · rw [hsymbols]
      simp [Expr.leaves, IntExpr.leaves, IntExpr.leavesAll]
    · rw [hwell, Expr.connectsAll_iff (e := .int (.arith op [e]))]
      simp [Expr.children, Expr.Connects]
  unit op := by
    have hconnects (least : Nat) : (Expr.bool (.conn op []) : Expr MarkedVar).Connects least :=
      fun hne => absurd rfl hne
    exact writes_lit op.unit rfl rfl hconnects
  app := writes_app

end Smt

/-! ### Whole expressions -/

namespace Relation

open Smt

variable {e : Relation} {text : String}

/-- The text of a formula writes the formula, if its names can be quoted. -/
theorem writes_smtText (h : e.smtText = .ok text)
    (hnames : ∀ leaf ∈ e.leaves, Quotable leaf.var.name) : Writes text (.bool e) := by
  obtain ⟨t, ht, rfl⟩ := map_eq_ok.mp h
  exact writes_rules.smtTerm.2.1 e t ht hnames

/-- Connectives have one operand or more if they have any, and two or more if none has one. -/
theorem connectsAll_two_iff :
    (Expr.bool e).ConnectsAll 2 ↔ ∀ op e', ¬(Expr.bool (.conn op [e'])).PartOf (.bool e) := by
  constructor
  · intro h op e' hpart
    exact absurd (h _ hpart (List.cons_ne_nil e' [])) (by simp)
  · intro h part hpart
    unfold Expr.Connects
    split
    next op es =>
      rcases es with _ | ⟨e₁, _ | ⟨e₂, es⟩⟩
      · intro hne
        exact absurd rfl hne
      · exact absurd hpart (h op e₁)
      · simp
    next => trivial

/-- A text that is written for a formula is read as one term, if names can be quoted. Every operator
has the operands that the language asks for, save that a connective may have a single one. The text
keeps to the language strictly, with two operands or more for a connective, if and only if no
connective of the formula has a single operand. -/
theorem smtText_is_term (h : e.smtText = .ok text)
    (hnames : ∀ leaf ∈ e.leaves, Quotable leaf.var.name) :
    ∃ x, read? text = some x ∧ x.WellFormed 1 ∧
      (x.WellFormed 2 ↔ ∀ op e', ¬(Expr.bool (.conn op [e'])).PartOf (.bool e)) := by
  obtain ⟨x, hspells, -, hwell⟩ := writes_smtText h hnames
  refine ⟨x, hspells.read?_eq, (hwell 1).mpr fun part _ => ?_, ?_⟩
  · unfold Expr.Connects
    split
    next => exact List.length_pos_of_ne_nil
    next => trivial
  · rw [hwell, connectsAll_two_iff]

/-- A negative constant, a difference of one operand and a disjunction of none, and a name that
holds a blank, a parenthesis and a sign. Every connective has two operands or none. -/
theorem smtText_is_term_nested :
    let a : IntExpr MarkedVar := .var ⟨.before, "a (- b"⟩
    let three : IntExpr MarkedVar := .const ⟨-3, by decide, by decide⟩
    let less : Relation := .cmp .lt (.arith .sub [a]) three
    let never : Relation := .conn .or []
    let e : Relation := .conn .and [less, .not never]
    let text := "(and (< |a (- b!before| (- 3)) (not false))"
    e.smtText = .ok text ∧ ∃ x, read? text = some x ∧ x.WellFormed 1 ∧ x.WellFormed 2 := by
  intro a three less never e text
  have htext : e.smtText = .ok text := by decide +kernel
  have hnames : ∀ leaf ∈ e.leaves, Quotable leaf.var.name := by decide +kernel
  have hparts : ∀ part : Expr MarkedVar, part.PartOf (.bool e) →
      ∀ op e', part ≠ .bool (.conn op [e']) := by
    simp [Expr.forall_partOf_iff (e := .bool e), Expr.forall_partOf_iff (e := .bool less),
      Expr.forall_partOf_iff (e := .int (.arith .sub [a])), Expr.forall_partOf_iff (e := .int a),
      Expr.forall_partOf_iff (e := .int three), Expr.forall_partOf_iff (e := .bool (.not never)),
      Expr.forall_partOf_iff (e := .bool never), Expr.children, e, less, never, a, three]
  obtain ⟨x, hread, hone, htwo⟩ := smtText_is_term htext hnames
  exact ⟨htext, x, hread, hone, htwo.mpr fun op e' hpart => hparts _ hpart op e' rfl⟩

/-- A conjunction of one operand is written with this operand alone, and is not strictly a term. -/
theorem smtText_of_lone_operand :
    let e : Relation := .conn .and [.var ⟨.before, "p"⟩]
    (∀ leaf ∈ e.leaves, Quotable leaf.var.name) ∧ e.smtText = .ok "(and |p!before|)" ∧
      ∃ x, read? "(and |p!before|)" = some x ∧ ¬x.WellFormed 2 := by
  intro e
  have hnames : ∀ leaf ∈ e.leaves, Quotable leaf.var.name := by decide +kernel
  refine ⟨hnames, by decide +kernel, .list [.word "and", .quoted "p!before"], rfl, ?_⟩
  rw [wellFormed_app_iff (f := .conn .and) rfl]
  rintro ⟨htakes, -⟩
  exact absurd htakes (by simp [Operator.Takes])

end Relation

end ViewLogic
