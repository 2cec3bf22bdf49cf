import ViewLogic.Expr.Basic

/-!
# Normalising connectives

Conjunctions, disjunctions, negations and implications that absorb literals as they are built. A
nested operand of the same connective is flattened by one level, and its own operands are taken as
they are.
-/

namespace ViewLogic

variable {V : Type}

/-- The literal that leaves a connective unchanged. -/
def Connective.unit : Connective → Bool
  | and => true
  | or => false

namespace BoolExpr

/-- The operands that remain when units are left out and operands of the same connective are
flattened; `none` if an operand is the absorbing literal. -/
def operands (op : Connective) : List (BoolExpr V) → Option (List (BoolExpr V))
  | [] => some []
  | lit b :: es => if b = op.unit then operands op es else none
  | conn op' fs :: es =>
    (operands op es).map fun rest => if op' = op then fs ++ rest else conn op' fs :: rest
  | e :: es => (operands op es).map (e :: ·)

/-- Joins expressions by a connective. -/
def combine (op : Connective) (es : List (BoolExpr V)) : BoolExpr V :=
  match operands op es with
  | none => lit (!op.unit)
  | some [] => lit op.unit
  | some [e] => e
  | some rest => conn op rest

/-- The conjunction of expressions. -/
def all (es : List (BoolExpr V)) : BoolExpr V := combine .and es

/-- The disjunction of expressions. -/
def any (es : List (BoolExpr V)) : BoolExpr V := combine .or es

/-- The negation of an expression. -/
def negate : BoolExpr V → BoolExpr V
  | lit b => lit (!b)
  | not e => e
  | e => not e

/-- The implication between two expressions. -/
def entails : BoolExpr V → BoolExpr V → BoolExpr V
  | lit false, _ => lit true
  | _, lit true => lit true
  | lit true, r => r
  | l, lit false => l.negate
  | l, r => implies l r

/-! ### Properties of all operands -/

section Operands

variable {P : BoolExpr V → Prop} {op : Connective} {es rest : List (BoolExpr V)}

/-- An operand that remains was there before and is neither a literal nor a use of the connective,
or it comes from an operand that is flattened. -/
theorem of_mem_operands (h : operands op es = some rest) {e : BoolExpr V} (he : e ∈ rest) :
    (e ∈ es ∧ (∀ b, e ≠ lit b) ∧ ∀ fs, e ≠ conn op fs) ∨ ∃ fs, conn op fs ∈ es ∧ e ∈ fs := by
  have hcons {e head : BoolExpr V} {es : List (BoolExpr V)}
      (h : (e ∈ es ∧ (∀ b, e ≠ lit b) ∧ ∀ fs, e ≠ conn op fs) ∨ ∃ fs, conn op fs ∈ es ∧ e ∈ fs) :
      (e ∈ head :: es ∧ (∀ b, e ≠ lit b) ∧ ∀ fs, e ≠ conn op fs) ∨
        ∃ fs, conn op fs ∈ head :: es ∧ e ∈ fs := by
    refine h.imp (fun hkept => ⟨List.mem_cons_of_mem head hkept.1, hkept.2⟩) ?_
    rintro ⟨fs, hfs, hmem⟩
    exact ⟨fs, List.mem_cons_of_mem head hfs, hmem⟩
  fun_induction operands op es generalizing rest with
  | case1 =>
    cases h
    cases he
  | case2 es ih => exact hcons (ih h he)
  | case3 => cases h
  | case4 op' fs es ih =>
    obtain ⟨rest', hrest', rfl⟩ := Option.map_eq_some_iff.mp h
    split at he
    next hop =>
      subst hop
      rcases List.mem_append.mp he with he | he
      · exact .inr ⟨fs, List.mem_cons_self, he⟩
      · exact hcons (ih hrest' he)
    next hop =>
      rcases List.mem_cons.mp he with rfl | he
      · refine .inl ⟨List.mem_cons_self, fun b heq => ?_, fun fs' heq => ?_⟩
        · cases heq
        · exact hop (conn.inj heq).1
      · exact hcons (ih hrest' he)
  | case5 head es hlit hconn ih =>
    obtain ⟨rest', hrest', rfl⟩ := Option.map_eq_some_iff.mp h
    rcases List.mem_cons.mp he with rfl | he
    · exact .inl ⟨List.mem_cons_self, hlit, hconn op⟩
    · exact hcons (ih hrest' he)

/-- Joined expressions have a property that all of them have, if literals have it and the connective
has it exactly along with its operands. -/
theorem forall_combine (hlit : ∀ b, P (lit b)) (hconn : ∀ fs, P (conn op fs) ↔ ∀ f ∈ fs, P f)
    (hes : ∀ e ∈ es, P e) : P (combine op es) := by
  have hoperands {rest : List (BoolExpr V)} (h : operands op es = some rest) :
      ∀ e ∈ rest, P e := by
    intro e he
    rcases of_mem_operands h he with ⟨hmem, -⟩ | ⟨fs, hfs, hmem⟩
    · exact hes e hmem
    · exact (hconn fs).mp (hes _ hfs) e hmem
  unfold combine
  split
  next => exact hlit _
  next => exact hlit _
  next e h => exact hoperands h e (List.mem_singleton_self e)
  next rest _ _ h => exact (hconn rest).mpr (hoperands h)

end Operands

end BoolExpr

end ViewLogic
