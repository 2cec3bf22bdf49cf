import ViewLogic.Proofs.NormalForms
import ViewLogic.Proofs.Outcomes
import ViewLogic.Proofs.SmtReading

/-!
# Writing SMT-LIB terms

How the text of an expression is made from the texts of its operands. A relation between texts and
expressions that keeps to `WritingRules`, with one rule for each way to write an expression, holds
between every expression and its text. What a text means and how it is formed are proved from these
rules, so only this module looks at the translation.
-/

namespace ViewLogic

namespace Smt

/-- The operators of the language. -/
inductive Operator where
  | arith (op : ArithOp)
  | div
  | conn (op : Connective)
  | implies
  | eq
  | cmp (op : Comparison)
  | not

/-- The operator of a symbol. -/
def operator? : String → Option Operator
  | "+" => some (.arith .add)
  | "-" => some (.arith .sub)
  | "*" => some (.arith .mul)
  | "div" => some .div
  | "and" => some (.conn .and)
  | "or" => some (.conn .or)
  | "=>" => some .implies
  | "=" => some .eq
  | ">" => some (.cmp .gt)
  | ">=" => some (.cmp .ge)
  | "<=" => some (.cmp .le)
  | "<" => some (.cmp .lt)
  | "not" => some .not
  | _ => none

/-- The symbol of an operator. -/
def Operator.symbol : Operator → String
  | .arith op => op.sign
  | .div => "div"
  | .conn .and => "and"
  | .conn .or => "or"
  | .implies => "=>"
  | .eq => "="
  | .cmp op => op.sign
  | .not => "not"

/-- The symbol of an operator is recognised as that operator. -/
@[simp] theorem operator?_symbol (f : Operator) : operator? f.symbol = some f := by
  cases f with
  | arith op => cases op <;> rfl
  | conn op => cases op <;> rfl
  | cmp op => cases op <;> rfl
  | div | implies | eq | not => rfl

/-! ### Words and symbols -/

/-- Symbols of operators are words. -/
theorem spells_of_operator? {op : String} {f : Operator} (h : operator? op = some f) :
    Spells op (.word op) := by
  unfold operator? at h
  split at h
  case h_14 => cases h
  all_goals exact spells_word (by decide) (by decide)

/-- A numeral spells a word. -/
theorem spells_numeral (n : Nat) : Spells (toString n) (.word (toString n)) := by
  apply spells_word
  · simp [Nat.toString_eq_repr]
  · rw [List.all_eq_true]
    intro c hc
    simp [isWordChar, Char.isAlphanum, isDigit_of_mem_toString hc]

/-- A Boolean constant spells a word. -/
theorem spells_lit (b : Bool) :
    Spells (if b then "true" else "false") (.word (if b then "true" else "false")) := by
  cases b <;> exact spells_word (by decide) (by decide)

end Smt

/-- The text of a moment consists of letters or of digits. -/
theorem Mark.isAlphanum_of_mem_render {m : Mark} {c : Char} (h : c ∈ m.render.toList) :
    c.isAlphanum = true := by
  cases m with
  | before | after | goal => exact List.all_eq_true.mp (by decide) c h
  | intermediate n => simp [Char.isAlphanum, isDigit_of_mem_toString h]

/-- The symbol of a variable can be quoted if its name can. -/
theorem MarkedVar.quotable_render {v : MarkedVar} (h : Smt.Quotable v.name) :
    Smt.Quotable v.render := by
  have hmark {c : Char} (hc : c.isAlphanum = false) : c ∉ v.mark.render.toList := by
    intro hmem
    rw [Mark.isAlphanum_of_mem_render hmem] at hc
    cases hc
  simp only [Smt.Quotable, render, String.toList_append, List.mem_append, not_or]
  exact ⟨⟨⟨h.1, by decide⟩, hmark (by decide)⟩, ⟨h.2, by decide⟩, hmark (by decide)⟩

/-- Different marks have different texts. -/
theorem Mark.render_inj {m m' : Mark} (h : m.render = m'.render) : m = m' := by
  cases m <;> cases m'
  case intermediate.intermediate n k =>
    have hval : n.val = k.val := by
      simpa [render, Nat.toString_eq_repr] using
        congrArg (fun text => Nat.ofDigitChars 10 text.toList 0) h
    cases n
    cases k
    cases hval
    rfl
  case before.before | after.after | goal.goal => rfl
  case before.intermediate | after.intermediate | goal.intermediate =>
    exact absurd h (ne_toString_of_any (by decide) _)
  case intermediate.before | intermediate.after | intermediate.goal =>
    exact absurd h.symm (ne_toString_of_any (by decide) _)
  all_goals exact absurd h (by decide)

/-- A name may hold exclamation marks itself; the last one ends it. -/
theorem MarkedVar.render_inj {v w : MarkedVar} (h : v.render = w.render) : v = w := by
  have hmark (m : Mark) : ∀ c ∈ m.render.toList.reverse, (c != '!') = true := by
    intro c hc
    have halphanum := Mark.isAlphanum_of_mem_render (List.mem_reverse.mp hc)
    rw [bne_iff_ne]
    rintro rfl
    cases halphanum
  have hchars (v : MarkedVar) : v.render.toList.reverse =
      v.mark.render.toList.reverse ++ '!' :: v.name.toList.reverse := by
    simp [render]
  have hrev := congrArg (fun text => text.toList.reverse) h
  simp only [hchars] at hrev
  have htake := congrArg (List.takeWhile (· != '!')) hrev
  have hdrop := congrArg (List.dropWhile (· != '!')) hrev
  rw [List.takeWhile_append_of_pos (hmark _), List.takeWhile_append_of_pos (hmark _)] at htake
  rw [List.dropWhile_append_of_pos (hmark _), List.dropWhile_append_of_pos (hmark _)] at hdrop
  have hmarks : v.mark = w.mark :=
    Mark.render_inj (String.toList_inj.mp (by simpa using htake))
  have hnames : v.name = w.name := String.toList_inj.mp (by simpa using hdrop)
  cases v
  cases w
  cases hmarks
  cases hnames
  rfl

/-! ### Rules -/

/-- The operator that is written for the root of an expression. Arithmetic on fewer than two
operands and connectives of none are written without one. -/
def Expr.operator? {V : Type} : Expr V → Option Smt.Operator
  | int (.arith op (_ :: _ :: _)) => some (.arith op)
  | int (.div _ _) => some .div
  | bool (.conn op (_ :: _)) => some (.conn op)
  | bool (.implies _ _) => some .implies
  | bool (.eq _ _) => some .eq
  | bool (.cmp op _ _) => some (.cmp op)
  | bool (.not _) => some .not
  | _ => none

/-- An operator is written for operands only. -/
theorem Expr.children_ne_nil {V : Type} {e : Expr V} {f : Smt.Operator}
    (h : e.operator? = some f) : e.children ≠ [] := by
  unfold operator? at h
  split at h
  case h_8 => cases h
  all_goals simp [children]

namespace Smt

/-- Rules for a relation between texts and expressions, given what holds of the variables. -/
structure WritingRules (P : Leaf MarkedVar → Prop) (R : String → Expr MarkedVar → Prop) : Prop where
  const (c : Constant) : R (SmtTerm.ofConstant c).render (.int (.const c))
  lit (b : Bool) : R (if b then "true" else "false") (.bool (.lit b))
  var (ty : Ty) (v : MarkedVar) : P ⟨ty, v⟩ → R (SmtTerm.ofVar v).render (.ofVar ty v)
  sum : R "0" (.int (.arith .add []))
  product : R "1" (.int (.arith .mul []))
  /-- One operand of an arithmetic operation stands for all of it. -/
  single (op : ArithOp) {text : String} {e : IntExpr MarkedVar} :
    R text (.int e) → R text (.int (.arith op [e]))
  unit (op : Connective) : R (if op.unit then "true" else "false") (.bool (.conn op []))
  app {e : Expr MarkedVar} {f : Operator} {ts : List SmtTerm} : e.operator? = some f →
    List.Forall₂ R (SmtTerm.renderAll ts) e.children → R (SmtTerm.app f.symbol ts).render e

namespace WritingRules

variable {P : Leaf MarkedVar → Prop} {R : String → Expr MarkedVar → Prop}

/-- The term of an arithmetic operation keeps to the rules, if those of its operands do. -/
theorem ofArith (hR : WritingRules P R) {op : ArithOp} {es : List (IntExpr MarkedVar)}
    {ts : List SmtTerm} {t : SmtTerm} (h : SmtTerm.ofArith op ts = .ok t)
    (hts : List.Forall₂ R (SmtTerm.renderAll ts) (es.map .int)) :
    R t.render (.int (.arith op es)) := by
  -- The printer tells no operand and one operand from more, so the operands are split alike.
  rcases ts with _ | ⟨t₁, _ | ⟨t₂, ts⟩⟩ <;> rcases es with _ | ⟨e₁, _ | ⟨e₂, es⟩⟩ <;>
    simp only [SmtTerm.renderAll, List.map_nil, List.map_cons, List.forall₂_cons,
      List.forall₂_nil_left_iff, List.forall₂_nil_right_iff, reduceCtorEq, and_false] at hts
  · cases op with
    | add =>
      cases h
      exact hR.sum
    | sub => cases h
    | mul =>
      cases h
      exact hR.product
  · cases h
    exact hR.single op hts.1
  · cases h
    exact hR.app (f := .arith op) rfl (.cons hts.1 (.cons hts.2.1 hts.2.2))

/-- The term of a connective keeps to the rules, if those of its operands do. -/
theorem ofConn (hR : WritingRules P R) (op : Connective) {es : List (BoolExpr MarkedVar)}
    {ts : List SmtTerm} (hts : List.Forall₂ R (SmtTerm.renderAll ts) (es.map .bool)) :
    R (SmtTerm.ofConn op ts).render (.bool (.conn op es)) := by
  rcases ts with _ | ⟨t, ts⟩ <;> rcases es with _ | ⟨e, es⟩ <;>
    simp only [SmtTerm.renderAll, List.map_nil, List.map_cons, List.forall₂_cons,
      List.forall₂_nil_left_iff, List.forall₂_nil_right_iff, reduceCtorEq] at hts
  · cases op with
    | and => exact hR.unit .and
    | or => exact hR.unit .or
  · have hargs : List.Forall₂ R (SmtTerm.renderAll (t :: ts))
        (Expr.bool (.conn op (e :: es))).children :=
      .cons hts.1 hts.2
    cases op with
    | and => exact hR.app (f := .conn .and) rfl hargs
    | or => exact hR.app (f := .conn .or) rfl hargs

/-- A term of two operands keeps to the rules, if those of the operands do. -/
theorem binary (hR : WritingRules P R) {a b : Except Error SmtTerm} {t : SmtTerm} {f : Operator}
    {e l r : Expr MarkedVar} (ht : (do return SmtTerm.app f.symbol [← a, ← b]) = .ok t)
    (hf : e.operator? = some f) (hchildren : e.children = [l, r])
    (hl : ∀ t, a = .ok t → R t.render l) (hr : ∀ t, b = .ok t → R t.render r) :
    R t.render e := by
  obtain ⟨a', ha, ht⟩ := bind_eq_ok.mp ht
  obtain ⟨b', hb, ht⟩ := bind_eq_ok.mp ht
  cases ht
  refine hR.app hf ?_
  rw [hchildren]
  exact .cons (hl a' ha) (.cons (hr b' hb) .nil)

/-- The texts of operands are related to the operands. -/
theorem operands {α : Type} {f : α → Except Error SmtTerm} {inj : α → Expr MarkedVar}
    {leaves : α → List (Leaf MarkedVar)} {es : List α} {ts : List SmtTerm}
    (hts : es.mapM f = .ok ts)
    (ih : ∀ e ∈ es, ∀ t, f e = .ok t → (∀ leaf ∈ leaves e, P leaf) → R t.render (inj e))
    (h : ∀ leaf ∈ es.flatMap leaves, P leaf) :
    List.Forall₂ R (SmtTerm.renderAll ts) (es.map inj) := by
  induction es generalizing ts with
  | nil =>
    cases hts
    exact .nil
  | cons e es ih' =>
    rw [List.mapM_cons] at hts
    obtain ⟨t, ht, hts⟩ := bind_eq_ok.mp hts
    obtain ⟨ts, htail, hts⟩ := bind_eq_ok.mp hts
    cases hts
    rw [List.flatMap_cons] at h
    obtain ⟨hhead, hrest⟩ := List.forall_mem_append.mp h
    exact .cons (ih e (by simp) t ht hhead) (ih' htail (fun e' he' => ih e' (by simp [he'])) hrest)

/-- Every expression is related to its text. -/
theorem smtTerm (hR : WritingRules P R) :
    (∀ e : IntExpr MarkedVar, ∀ t, e.smtTerm = .ok t →
        (∀ leaf ∈ e.leaves, P leaf) → R t.render (.int e)) ∧
      (∀ e : BoolExpr MarkedVar, ∀ t, e.smtTerm = .ok t →
        (∀ leaf ∈ e.leaves, P leaf) → R t.render (.bool e)) ∧
      ∀ e : Expr MarkedVar, ∀ t, e.smtTerm = .ok t →
        (∀ leaf ∈ e.leaves, P leaf) → R t.render e := by
  apply Expr.induct
  case const =>
    intro c t ht _
    cases ht
    exact hR.const c
  case intVar =>
    intro v t ht h
    cases ht
    exact hR.var .int v (h ⟨.int, v⟩ (by simp [IntExpr.leaves]))
  case intSym => intro name args _ t ht; cases ht
  case arith =>
    intro op es ih t ht h
    rw [IntExpr.leaves, IntExpr.leavesAll_eq] at h
    rw [IntExpr.smtTerm, IntExpr.smtTerms_eq] at ht
    obtain ⟨ts, hts, ht⟩ := bind_eq_ok.mp ht
    exact hR.ofArith ht (operands hts ih h)
  case div =>
    intro l r hl hr t ht h
    obtain ⟨hleft, hright⟩ := List.forall_mem_append.mp h
    exact hR.binary (f := .div) ht rfl rfl (fun t ht => hl t ht hleft) fun t ht => hr t ht hright
  case lit =>
    intro b t ht _
    cases ht
    exact hR.lit b
  case boolVar =>
    intro v t ht h
    cases ht
    exact hR.var .bool v (h ⟨.bool, v⟩ (by simp [BoolExpr.leaves]))
  case boolSym => intro name args _ t ht; cases ht
  case conn =>
    intro op es ih t ht h
    rw [BoolExpr.leaves, BoolExpr.leavesAll_eq] at h
    rw [BoolExpr.smtTerm, BoolExpr.smtTerms_eq] at ht
    obtain ⟨ts, hts, ht⟩ := bind_eq_ok.mp ht
    cases ht
    exact hR.ofConn op (operands hts ih h)
  case implies =>
    intro l r hl hr t ht h
    obtain ⟨hleft, hright⟩ := List.forall_mem_append.mp h
    exact hR.binary (f := .implies) ht rfl rfl (fun t ht => hl t ht hleft)
      fun t ht => hr t ht hright
  case eq =>
    intro l r hl hr t ht h
    obtain ⟨hleft, hright⟩ := List.forall_mem_append.mp h
    exact hR.binary (f := .eq) ht rfl rfl (fun t ht => hl t ht hleft) fun t ht => hr t ht hright
  case cmp =>
    intro op l r hl hr t ht h
    obtain ⟨hleft, hright⟩ := List.forall_mem_append.mp h
    exact hR.binary (f := .cmp op) ht rfl rfl (fun t ht => hl t ht hleft)
      fun t ht => hr t ht hright
  case not =>
    intro e he t ht h
    obtain ⟨t', ht', ht⟩ := bind_eq_ok.mp ht
    cases ht
    exact hR.app (f := .not) rfl (.cons (he t' ht' h) .nil)
  case int | bool => intro e he; exact he

end WritingRules

end Smt

end ViewLogic
