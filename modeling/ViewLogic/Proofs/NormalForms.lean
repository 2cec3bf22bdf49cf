import ViewLogic.Proofs.ConstantFolding

/-!
# Folded expressions are in normal form

Constants are folded in one pass from the leaves up. A connective flattens its operands by one level
only, and a negation or an implication may hand back one of them as it is. One pass is enough all
the same, because the operands are folded before: what is handed back or spliced in has nothing left
to fold. So an expression is left as it is if and only if nothing in it can be folded, and folding
leads to such an expression.
-/

namespace ViewLogic

open Std (LawfulEqOrd)

variable {V : Type}

/-! ### Parts of an expression -/

namespace Expr

/-- The expressions right below the root of an expression: operands, or arguments of a symbolic
leaf. -/
def children : Expr V → List (Expr V)
  | int (.const _) | int (.var _) | bool (.lit _) | bool (.var _) => []
  | int (.sym _ args) | bool (.sym _ args) => args
  | int (.arith _ es) => es.map int
  | int (.div l r) | bool (.cmp _ l r) => [int l, int r]
  | bool (.conn _ es) => es.map bool
  | bool (.implies l r) => [bool l, bool r]
  | bool (.eq l r) => [l, r]
  | bool (.not e) => [bool e]

/-- An expression is another one or stands in it, at whatever depth. -/
inductive PartOf (part : Expr V) : Expr V → Prop
  | self : PartOf part part
  | inside {child e : Expr V} : child ∈ e.children → PartOf part child → PartOf part e

/-- The root of an expression is one that the normalising connectives build: a connective joins two
or more operands, none of them a literal or a nested use of it, and neither a negation nor an
implication is of a literal, nor a negation of a negation. -/
def Compact : Expr V → Prop
  | bool (.conn op es) =>
    2 ≤ es.length ∧ ∀ e ∈ es, (∀ b, e ≠ .lit b) ∧ ∀ fs, e ≠ .conn op fs
  | bool (.not e) => (∀ b, e ≠ .lit b) ∧ ∀ e', e ≠ .not e'
  | bool (.implies l r) => (∀ b, l ≠ .lit b) ∧ ∀ b, r ≠ .lit b
  | _ => True

/-- Nothing can be folded at the root of an expression. -/
def Folded : Expr V → Prop
  | int (.arith op es) => ∀ cs, es = cs.map .const → Constant.fold? op cs = none
  | int (.div l r) => ∀ a b, l = .const a → r = .const b → a.div? b = none
  | bool (.cmp _ l r) => ∀ a b, l = .const a → r ≠ .const b
  | bool (.eq l r) =>
    (∀ a b, l = int (.const a) → r ≠ int (.const b)) ∧
      (∀ a b, l = bool (.lit a) → r ≠ bool (.lit b)) ∧ (l = r → l.mentionsSymbolic = true)
  | e => e.Compact

/-- Nothing can be folded at any depth of an expression. -/
def Normal (e : Expr V) : Prop := ∀ part : Expr V, part.PartOf e → part.Folded

/-- A folded root is one that the normalising connectives build. -/
theorem Folded.compact {e : Expr V} (h : e.Folded) : e.Compact := by
  unfold Folded at h
  split at h
  · trivial
  · trivial
  · trivial
  · trivial
  · exact h

/-- A property of all parts of an expression, from the root and the expressions below it. -/
theorem forall_partOf_iff {P : Expr V → Prop} {e : Expr V} :
    (∀ part : Expr V, part.PartOf e → P part) ↔
      P e ∧ ∀ child ∈ e.children, ∀ part : Expr V, part.PartOf child → P part := by
  constructor
  · intro h
    exact ⟨h e .self, fun child hchild part hpart => h part (.inside hchild hpart)⟩
  · rintro ⟨hroot, hchildren⟩ part hpart
    cases hpart with
    | self => exact hroot
    | inside hchild hpart => exact hchildren _ hchild part hpart

/-- An expression is normal if its root is folded and everything right below is normal. -/
theorem normal_iff {e : Expr V} : e.Normal ↔ e.Folded ∧ ∀ child ∈ e.children, child.Normal :=
  forall_partOf_iff

/-- Constants are normal. -/
theorem normal_const (c : Constant) : (int (.const c) : Expr V).Normal :=
  normal_iff.mpr ⟨trivial, by simp [children]⟩

/-- Variables are normal. -/
theorem normal_ofVar (ty : Ty) (v : V) : (ofVar ty v).Normal := by
  cases ty <;> exact normal_iff.mpr ⟨trivial, by simp [ofVar, children]⟩

/-- Literals are normal. -/
theorem normal_lit (b : Bool) : (bool (.lit b) : Expr V).Normal :=
  normal_iff.mpr ⟨trivial, by simp [children]⟩

end Expr

/-! ### Arithmetic and comparisons -/

namespace IntExpr

/-- Operands are recognised as constants exactly if all of them are. -/
theorem constants?_eq_some_iff {es : List (IntExpr V)} {cs : List Constant} :
    constants? es = some cs ↔ es = cs.map const := by
  constructor
  · intro h
    induction es generalizing cs with
    | nil =>
      cases h
      rfl
    | cons e es ih =>
      rw [constants?, List.mapM_cons] at h
      obtain ⟨c, hc, h⟩ := Option.bind_eq_some_iff.mp h
      obtain ⟨cs', hcs, h⟩ := Option.bind_eq_some_iff.mp h
      cases h
      have he : e = const c := by
        unfold constant? at hc
        split at hc
        · cases hc
          rfl
        · cases hc
      rw [List.map_cons, he, ih hcs]
  · rintro rfl
    exact constants?_map_const cs

/-- A folded arithmetic operation is not folded further. -/
theorem foldArith_eq_self {op : ArithOp} {es : List (IntExpr V)}
    (h : (Expr.int (arith op es)).Folded) : foldArith op es = arith op es := by
  unfold foldArith
  split
  next c hc =>
    obtain ⟨cs, hcs, hfold⟩ := Option.bind_eq_some_iff.mp hc
    rw [h cs (constants?_eq_some_iff.mp hcs)] at hfold
    cases hfold
  next => rfl

/-- Folding an arithmetic operation of normal operands gives a normal expression. -/
theorem normal_foldArith (op : ArithOp) {es : List (IntExpr V)}
    (h : ∀ e ∈ es, (Expr.int e).Normal) : (Expr.int (foldArith op es)).Normal := by
  unfold foldArith
  split
  next c _ => exact Expr.normal_const c
  next hnone =>
    refine Expr.normal_iff.mpr ⟨?_, by simpa [Expr.children] using h⟩
    rintro cs rfl
    rwa [constants?_map_const] at hnone

/-- A folded division is not folded further. -/
theorem foldDiv_eq_self {l r : IntExpr V} (h : (Expr.int (div l r)).Folded) :
    foldDiv l r = div l r := by
  unfold foldDiv
  split
  next a b => rw [h a b rfl rfl]
  next => rfl

/-- Folding a division of normal sides gives a normal expression. -/
theorem normal_foldDiv {l r : IntExpr V} (hl : (Expr.int l).Normal) (hr : (Expr.int r).Normal) :
    (Expr.int (foldDiv l r)).Normal := by
  have hchildren : ∀ child ∈ (Expr.int (div l r)).children, child.Normal := by
    simp [Expr.children, hl, hr]
  unfold foldDiv
  split
  next a b =>
    split
    next c _ => exact Expr.normal_const c
    next hnone =>
      refine Expr.normal_iff.mpr ⟨?_, hchildren⟩
      rintro _ _ ⟨⟩ ⟨⟩
      exact hnone
  next hconst =>
    refine Expr.normal_iff.mpr ⟨fun a b ha hb => ?_, hchildren⟩
    exact absurd hb (hconst a b ha)

end IntExpr

namespace BoolExpr

/-- A folded comparison is not folded further. -/
theorem foldCmp_eq_self {op : Comparison} {l r : IntExpr V}
    (h : (Expr.bool (cmp op l r)).Folded) : foldCmp op l r = cmp op l r := by
  unfold foldCmp
  split
  next a b => exact absurd rfl (h a b rfl)
  next => rfl

/-- Folding a comparison of normal sides gives a normal expression. -/
theorem normal_foldCmp (op : Comparison) {l r : IntExpr V} (hl : (Expr.int l).Normal)
    (hr : (Expr.int r).Normal) : (Expr.bool (foldCmp op l r)).Normal := by
  unfold foldCmp
  split
  next => exact Expr.normal_lit _
  next hconst => exact Expr.normal_iff.mpr ⟨hconst, by simp [Expr.children, hl, hr]⟩

/-- A folded equality is not folded further. -/
theorem foldEq_eq_self [Ord V] [LawfulEqOrd V] {l r : Expr V} (h : (Expr.bool (eq l r)).Folded) :
    foldEq l r = eq l r := by
  obtain ⟨hconst, hlit, hsame⟩ := h
  unfold foldEq
  split
  next a b => exact absurd rfl (hconst a b rfl)
  next a b => exact absurd rfl (hlit a b rfl)
  next =>
    rw [if_neg]
    rintro ⟨heq, hsymbolic⟩
    rw [hsame heq] at hsymbolic
    cases hsymbolic

/-- Folding an equality of normal sides gives a normal expression. -/
theorem normal_foldEq [Ord V] [LawfulEqOrd V] {l r : Expr V} (hl : l.Normal) (hr : r.Normal) :
    (Expr.bool (foldEq l r)).Normal := by
  unfold foldEq
  split
  next => exact Expr.normal_lit _
  next => exact Expr.normal_lit _
  next hconst hlit =>
    split
    next => exact Expr.normal_lit _
    next hsame =>
      refine Expr.normal_iff.mpr ⟨⟨hconst, hlit, fun heq => ?_⟩, by simp [Expr.children, hl, hr]⟩
      simpa [heq] using hsame

/-! ### Connectives -/

/-- Operands without literals and nested uses of the connective are kept as they are. -/
theorem operands_eq_self {op : Connective} {es : List (BoolExpr V)}
    (h : ∀ e ∈ es, (∀ b, e ≠ lit b) ∧ ∀ fs, e ≠ conn op fs) : operands op es = some es := by
  fun_induction operands op es with
  | case1 => rfl
  | case2 es ih => exact absurd rfl ((h _ List.mem_cons_self).1 _)
  | case3 b es _ => exact absurd rfl ((h _ List.mem_cons_self).1 b)
  | case4 op' fs es ih =>
    have hop : op' ≠ op := by
      rintro rfl
      exact (h _ List.mem_cons_self).2 fs rfl
    simp [hop, ih fun e he => h e (List.mem_cons_of_mem _ he)]
  | case5 e es _ _ ih => simp [ih fun e he => h e (List.mem_cons_of_mem _ he)]

/-- A folded connective is not normalised further. -/
theorem combine_eq_self {op : Connective} {es : List (BoolExpr V)}
    (h : (Expr.bool (conn op es)).Folded) : combine op es = conn op es := by
  obtain ⟨hlength, hes⟩ := h
  have hoperands := operands_eq_self hes
  unfold combine
  split
  next hnone => cases hnone.symm.trans hoperands
  next hnil =>
    cases hnil.symm.trans hoperands
    exact absurd hlength (by simp)
  next e hsingleton =>
    cases hsingleton.symm.trans hoperands
    exact absurd hlength (by simp)
  next rest _ _ hrest =>
    cases hrest.symm.trans hoperands
    rfl

/-- Joined expressions have a property that all of them have, if literals have it and the connective
has it exactly if it is compact and its operands have it: operands that are spliced in need no
second flattening, because they come from a connective with the property. -/
theorem forall_combine_compact {P : BoolExpr V → Prop} {op : Connective} {es : List (BoolExpr V)}
    (hlit : ∀ b, P (lit b))
    (hconn : ∀ fs, P (conn op fs) ↔ (Expr.bool (conn op fs)).Compact ∧ ∀ f ∈ fs, P f)
    (hes : ∀ e ∈ es, P e) : P (combine op es) := by
  have hoperands {rest : List (BoolExpr V)} (h : operands op es = some rest) :
      ∀ e ∈ rest, P e ∧ (∀ b, e ≠ lit b) ∧ ∀ fs, e ≠ conn op fs := by
    intro e he
    rcases of_mem_operands h he with ⟨hmem, hkept⟩ | ⟨fs, hfs, hmem⟩
    · exact ⟨hes e hmem, hkept⟩
    · obtain ⟨⟨-, hcompact⟩, hall⟩ := (hconn fs).mp (hes _ hfs)
      exact ⟨hall e hmem, hcompact e hmem⟩
  unfold combine
  split
  next => exact hlit _
  next => exact hlit _
  next e h => exact (hoperands h e (List.mem_singleton_self e)).1
  next rest hnil hsingleton h =>
    have hlength : 2 ≤ rest.length := by
      rcases rest with _ | ⟨e, _ | ⟨e', rest⟩⟩
      · exact absurd rfl hnil
      · exact absurd rfl (hsingleton e)
      · simp
    exact (hconn rest).mpr ⟨⟨hlength, fun e he => (hoperands h e he).2⟩,
      fun e he => (hoperands h e he).1⟩

/-- Normalising a connective of normal operands gives a normal expression. -/
theorem normal_combine (op : Connective) {es : List (BoolExpr V)}
    (hes : ∀ e ∈ es, (Expr.bool e).Normal) : (Expr.bool (combine op es)).Normal := by
  refine forall_combine_compact (P := fun e => (Expr.bool e).Normal) Expr.normal_lit ?_ hes
  intro fs
  rw [Expr.normal_iff, Expr.children, List.forall_mem_map]
  rfl

/-- A folded negation is not normalised further. -/
theorem negate_eq_self {e : BoolExpr V} (h : (Expr.bool (not e)).Folded) : e.negate = not e := by
  obtain ⟨hlit, hnot⟩ := h
  unfold negate
  split
  next b => exact absurd rfl (hlit b)
  next e' => exact absurd rfl (hnot e')
  next => rfl

/-- Normalising the negation of a normal expression gives a normal expression. -/
theorem normal_negate {e : BoolExpr V} (he : (Expr.bool e).Normal) :
    (Expr.bool e.negate).Normal := by
  unfold negate
  split
  next => exact Expr.normal_lit _
  next e' => exact (Expr.normal_iff.mp he).2 (.bool e') (by simp [Expr.children])
  next hlit hnot => exact Expr.normal_iff.mpr ⟨⟨hlit, hnot⟩, by simpa [Expr.children] using he⟩

/-- A folded implication is not normalised further. -/
theorem entails_eq_self {l r : BoolExpr V} (h : (Expr.bool (implies l r)).Folded) :
    l.entails r = implies l r := by
  obtain ⟨hl, hr⟩ := h
  unfold entails
  split
  next => exact absurd rfl (hl false)
  next => exact absurd rfl (hr true)
  next => exact absurd rfl (hl true)
  next => exact absurd rfl (hr false)
  next => rfl

/-- Normalising an implication of normal sides gives a normal expression. -/
theorem normal_entails {l r : BoolExpr V} (hl : (Expr.bool l).Normal) (hr : (Expr.bool r).Normal) :
    (Expr.bool (l.entails r)).Normal := by
  unfold entails
  split
  next => exact Expr.normal_lit true
  next => exact Expr.normal_lit true
  next => exact hr
  next => exact normal_negate hl
  next hlfalse hltrue hrtrue hrfalse =>
    refine Expr.normal_iff.mpr ⟨⟨fun b => ?_, fun b => ?_⟩, by simp [Expr.children, hl, hr]⟩
    · cases b
      · exact hlfalse
      · exact hltrue
    · cases b
      · exact hrfalse
      · exact hrtrue

end BoolExpr

/-! ### Whole expressions -/

namespace Expr

variable [Ord V] [LawfulEqOrd V]

/-- Folding constants leaves nothing to fold. -/
theorem normal_simplify :
    (∀ e : IntExpr V, (int e.simplify).Normal) ∧ (∀ e : BoolExpr V, (bool e.simplify).Normal) ∧
      ∀ e : Expr V, e.simplify.Normal := by
  have hargs {args : List (Expr V)} (ih : ∀ a ∈ args, a.simplify.Normal) :
      ∀ a ∈ simplifyAll args, a.Normal := by
    rw [simplifyAll_eq]
    exact List.forall_mem_map.mpr ih
  apply Expr.induct
  case const => exact normal_const
  case intVar => exact normal_ofVar .int
  case intSym | boolSym => intro name args ih; exact normal_iff.mpr ⟨trivial, hargs ih⟩
  case boolVar => exact normal_ofVar .bool
  case arith =>
    intro op es ih
    apply IntExpr.normal_foldArith
    rw [IntExpr.simplifyAll_eq]
    exact List.forall_mem_map.mpr ih
  case div => intro l r hl hr; exact IntExpr.normal_foldDiv hl hr
  case lit => exact normal_lit
  case conn =>
    intro op es ih
    apply BoolExpr.normal_combine
    rw [BoolExpr.simplifyAll_eq]
    exact List.forall_mem_map.mpr ih
  case implies => intro l r hl hr; exact BoolExpr.normal_entails hl hr
  case eq => intro l r hl hr; exact BoolExpr.normal_foldEq hl hr
  case cmp => intro op l r hl hr; exact BoolExpr.normal_foldCmp op hl hr
  case not => intro e he; exact BoolExpr.normal_negate he
  case int | bool => intro e he; exact he

/-- An expression with nothing to fold is left as it is. -/
theorem simplify_of_normal :
    (∀ e : IntExpr V, (int e).Normal → e.simplify = e) ∧
      (∀ e : BoolExpr V, (bool e).Normal → e.simplify = e) ∧
      ∀ e : Expr V, e.Normal → e.simplify = e := by
  have hlist {α : Type} {f : α → α} {as : List α} (h : ∀ a ∈ as, f a = a) : as.map f = as := by
    rw [List.map_congr_left h, List.map_id']
  have hpair {l r : Expr V} (h : ∀ child ∈ [l, r], child.Normal) : l.Normal ∧ r.Normal := by
    simpa using h
  apply Expr.induct
  case const => intro c _; rfl
  case intVar => intro v _; rfl
  case intSym =>
    intro name args ih h
    obtain ⟨-, hargs⟩ := normal_iff.mp h
    rw [IntExpr.simplify, simplifyAll_eq, hlist fun a ha => ih a ha (hargs a ha)]
  case arith =>
    intro op es ih h
    obtain ⟨hroot, hes⟩ := normal_iff.mp h
    rw [children, List.forall_mem_map] at hes
    rw [IntExpr.simplify, IntExpr.simplifyAll_eq, hlist fun e he => ih e he (hes e he)]
    exact IntExpr.foldArith_eq_self hroot
  case div =>
    intro l r hl hr h
    obtain ⟨hroot, hchildren⟩ := normal_iff.mp h
    rw [IntExpr.simplify, hl (hpair hchildren).1, hr (hpair hchildren).2]
    exact IntExpr.foldDiv_eq_self hroot
  case lit => intro b _; rfl
  case boolVar => intro v _; rfl
  case boolSym =>
    intro name args ih h
    obtain ⟨-, hargs⟩ := normal_iff.mp h
    rw [BoolExpr.simplify, simplifyAll_eq, hlist fun a ha => ih a ha (hargs a ha)]
  case conn =>
    intro op es ih h
    obtain ⟨hroot, hes⟩ := normal_iff.mp h
    rw [children, List.forall_mem_map] at hes
    rw [BoolExpr.simplify, BoolExpr.simplifyAll_eq, hlist fun e he => ih e he (hes e he)]
    exact BoolExpr.combine_eq_self hroot
  case implies =>
    intro l r hl hr h
    obtain ⟨hroot, hchildren⟩ := normal_iff.mp h
    rw [BoolExpr.simplify, hl (hpair hchildren).1, hr (hpair hchildren).2]
    exact BoolExpr.entails_eq_self hroot
  case eq =>
    intro l r hl hr h
    obtain ⟨hroot, hchildren⟩ := normal_iff.mp h
    rw [BoolExpr.simplify, hl (hpair hchildren).1, hr (hpair hchildren).2]
    exact BoolExpr.foldEq_eq_self hroot
  case cmp =>
    intro op l r hl hr h
    obtain ⟨hroot, hchildren⟩ := normal_iff.mp h
    rw [BoolExpr.simplify, hl (hpair hchildren).1, hr (hpair hchildren).2]
    exact BoolExpr.foldCmp_eq_self hroot
  case not =>
    intro e he h
    obtain ⟨hroot, hchildren⟩ := normal_iff.mp h
    rw [BoolExpr.simplify, he (hchildren _ (List.mem_singleton_self _))]
    exact BoolExpr.negate_eq_self hroot
  case int | bool => intro e he h; rw [simplify, he h]

/-- Folding constants reaches a normal form: a second pass changes nothing. At every depth of the
result, inside equalities and symbolic leaves too, a connective joins two or more operands, none of
them a literal or a nested use of it; no negation is of a literal or a negation, and no implication
has a literal on either side. The expressions that are left as they are, are exactly those in which
nothing can be folded at any depth. -/
theorem simplify_reaches_normal_form :
    (∀ e : IntExpr V, e.simplify.simplify = e.simplify) ∧
      (∀ e : BoolExpr V, e.simplify.simplify = e.simplify) ∧
      (∀ e part : Expr V, part.PartOf e.simplify → part.Compact) ∧
      ∀ e : Expr V, e.simplify = e ↔ e.Normal := by
  obtain ⟨hint, hbool, hexpr⟩ := normal_simplify (V := V)
  obtain ⟨hintFixed, hboolFixed, hexprFixed⟩ := simplify_of_normal (V := V)
  refine ⟨fun e => hintFixed _ (hint e), fun e => hboolFixed _ (hbool e), ?_, fun e => ?_⟩
  · intro e part hpart
    exact (hexpr e part hpart).compact
  · constructor
    · intro h
      rw [← h]
      exact hexpr e
    · exact hexprFixed e

/-- In `(p && true) && !!q && f(p || false) == max + 1 && (q => 1 < 1)` every connective goes or
changes, down to the argument of `f`, and the sum stays because it is out of range. -/
theorem simplify_reaches_normal_form_nested :
    let greatest : Constant := ⟨9223372036854775807, by decide, by decide⟩
    let one : IntExpr Var := .const .one
    let p : BoolExpr Var := .var "p"
    let q : BoolExpr Var := .var "q"
    let f (arg : BoolExpr Var) : Expr Var := int (.sym "f" [bool arg])
    let sum : Expr Var := int (.arith .add [.const greatest, one])
    let e : BoolExpr Var :=
      .conn .and [.conn .and [p, .lit true], .not (.not q),
        .eq (f (.conn .or [p, .lit false])) sum, .implies q (.cmp .lt one one)]
    let folded : BoolExpr Var := .conn .and [p, q, .eq (f p) sum, .not q]
    e.simplify = folded ∧ folded.simplify = folded ∧ (bool folded).Normal ∧ ¬(bool e).Normal ∧
      ∀ part : Expr Var, part.PartOf (bool folded) → part.Compact := by
  intro greatest one p q f sum e folded
  obtain ⟨-, hbool, hcompact, hnormal⟩ := simplify_reaches_normal_form (V := Var)
  have he : e.simplify = folded := by decide +kernel
  have hfolded : (bool e).simplify = bool folded := congrArg bool he
  have hfixed : folded.simplify = folded := he ▸ hbool e
  refine ⟨he, hfixed, ?_, ?_, ?_⟩
  · exact (hnormal (bool folded)).mp (congrArg bool hfixed)
  · intro h
    have hsame : bool folded = bool e := hfolded.symm.trans ((hnormal (bool e)).mpr h)
    exact absurd hsame (by decide +kernel)
  · rw [← hfolded]
    exact hcompact (bool e)

end Expr

end ViewLogic
