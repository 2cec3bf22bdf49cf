import ViewLogic.Backend.SmtLib
import ViewLogic.Proofs.Outcomes

/-!
# Expressions that have a term

An expression has an SMT-LIB term if and only if it holds neither a symbolic leaf nor a difference
of no operands; these are the only causes of failure. Joining and negating expressions adds neither,
so the negated claim of an obligation has a term if its parts do.
-/

namespace ViewLogic

variable {V : Type}

mutual

/-- Whether an integer expression holds a difference of no operands. -/
def IntExpr.mentionsEmptyDiff : IntExpr V → Bool
  | .const _ | .var _ => false
  | .sym _ args => Expr.anyEmptyDiff args
  | .arith op es => (op == .sub && es.isEmpty) || IntExpr.anyEmptyDiff es
  | .div l r => l.mentionsEmptyDiff || r.mentionsEmptyDiff

/-- Whether one of a list of integer expressions holds a difference of no operands. -/
def IntExpr.anyEmptyDiff : List (IntExpr V) → Bool
  | [] => false
  | e :: es => e.mentionsEmptyDiff || IntExpr.anyEmptyDiff es

/-- Whether a Boolean expression holds a difference of no operands. -/
def BoolExpr.mentionsEmptyDiff : BoolExpr V → Bool
  | .lit _ | .var _ => false
  | .sym _ args => Expr.anyEmptyDiff args
  | .conn _ es => BoolExpr.anyEmptyDiff es
  | .implies l r => l.mentionsEmptyDiff || r.mentionsEmptyDiff
  | .eq l r => l.mentionsEmptyDiff || r.mentionsEmptyDiff
  | .cmp _ l r => l.mentionsEmptyDiff || r.mentionsEmptyDiff
  | .not e => e.mentionsEmptyDiff

/-- Whether one of a list of Boolean expressions holds a difference of no operands. -/
def BoolExpr.anyEmptyDiff : List (BoolExpr V) → Bool
  | [] => false
  | e :: es => e.mentionsEmptyDiff || BoolExpr.anyEmptyDiff es

/-- Whether an expression holds a difference of no operands. -/
def Expr.mentionsEmptyDiff : Expr V → Bool
  | .int e => e.mentionsEmptyDiff
  | .bool e => e.mentionsEmptyDiff

/-- Whether one of a list of expressions holds a difference of no operands. -/
def Expr.anyEmptyDiff : List (Expr V) → Bool
  | [] => false
  | e :: es => e.mentionsEmptyDiff || Expr.anyEmptyDiff es

end

section Lists

attribute [local simp] IntExpr.mentionsEmptyDiff IntExpr.anyEmptyDiff BoolExpr.mentionsEmptyDiff
  BoolExpr.anyEmptyDiff Expr.mentionsEmptyDiff Expr.anyEmptyDiff

/-- Integer operands hold a difference of no operands if one of them does. -/
theorem IntExpr.anyEmptyDiff_eq (es : List (IntExpr V)) :
    anyEmptyDiff es = es.any mentionsEmptyDiff := by
  induction es with
  | nil => rfl
  | cons e es ih => simp [ih]

/-- Boolean operands hold a difference of no operands if one of them does. -/
theorem BoolExpr.anyEmptyDiff_eq (es : List (BoolExpr V)) :
    anyEmptyDiff es = es.any mentionsEmptyDiff := by
  induction es with
  | nil => rfl
  | cons e es ih => simp [ih]

end Lists

/-- The operation on terms is there unless it is the difference of none. -/
theorem SmtTerm.exists_ofArith {op : ArithOp} {ts : List SmtTerm} :
    (∃ t, ofArith op ts = .ok t) ↔ (op == .sub && ts.isEmpty) = false := by
  match ts with
  | [] => cases op <;> simp [ofArith]
  | [t] => simp [ofArith]
  | t :: t' :: ts => simp [ofArith]

/-- An expression has a term if and only if it holds no symbolic leaf and no difference of no
operands. -/
theorem Expr.exists_smtTerm :
    (∀ e : IntExpr MarkedVar, (∃ t, e.smtTerm = .ok t) ↔
        e.mentionsSymbolic = false ∧ e.mentionsEmptyDiff = false) ∧
      (∀ e : BoolExpr MarkedVar, (∃ t, e.smtTerm = .ok t) ↔
        e.mentionsSymbolic = false ∧ e.mentionsEmptyDiff = false) ∧
      ∀ e : Expr MarkedVar, (∃ t, e.smtTerm = .ok t) ↔
        e.mentionsSymbolic = false ∧ e.mentionsEmptyDiff = false := by
  have hpair {x y : Except Error SmtTerm} {f : SmtTerm → SmtTerm → SmtTerm} {s s' d d' : Bool}
      (hx : (∃ t, x = .ok t) ↔ s = false ∧ d = false)
      (hy : (∃ t, y = .ok t) ↔ s' = false ∧ d' = false) :
      (∃ t, (do return f (← x) (← y)) = .ok t) ↔ (s || s') = false ∧ (d || d') = false := by
    simp only [Bool.or_eq_false_iff]
    constructor
    · rintro ⟨t, ht⟩
      obtain ⟨a, ha, ht⟩ := bind_eq_ok.mp ht
      obtain ⟨b, hb, -⟩ := bind_eq_ok.mp ht
      obtain ⟨hs, hd⟩ := hx.mp ⟨a, ha⟩
      obtain ⟨hs', hd'⟩ := hy.mp ⟨b, hb⟩
      exact ⟨⟨hs, hs'⟩, hd, hd'⟩
    · rintro ⟨⟨hs, hs'⟩, hd, hd'⟩
      obtain ⟨a, rfl⟩ := hx.mpr ⟨hs, hd⟩
      obtain ⟨b, rfl⟩ := hy.mpr ⟨hs', hd'⟩
      exact ⟨f a b, rfl⟩
  have hlist {α : Type} {f : α → Except Error SmtTerm} {s d : α → Bool} {es : List α}
      (ih : ∀ e ∈ es, (∃ t, f e = .ok t) ↔ s e = false ∧ d e = false) :
      (∃ ts, es.mapM f = .ok ts) ↔ es.any s = false ∧ es.any d = false := by
    rw [exists_mapM_eq_ok, forall₂_congr ih]
    simp [forall_and]
  have hmap {α : Type} {x : Except Error α} {f : α → SmtTerm} :
      (∃ t, (do return f (← x)) = .ok t) ↔ ∃ a, x = .ok a := by
    constructor
    · rintro ⟨t, ht⟩
      obtain ⟨a, ha, -⟩ := bind_eq_ok.mp ht
      exact ⟨a, ha⟩
    · rintro ⟨a, rfl⟩
      exact ⟨f a, rfl⟩
  apply Expr.induct
  case const | intVar =>
    intro a
    simp [IntExpr.smtTerm, IntExpr.mentionsSymbolic, IntExpr.mentionsEmptyDiff]
  case intSym =>
    intro name args _
    simp [IntExpr.smtTerm, IntExpr.mentionsSymbolic]
  case arith =>
    intro op es ih
    simp only [IntExpr.smtTerm, IntExpr.smtTerms_eq, IntExpr.mentionsSymbolic,
      IntExpr.anySymbolic_eq, IntExpr.mentionsEmptyDiff, IntExpr.anyEmptyDiff_eq,
      Bool.or_eq_false_iff]
    -- The operands have as many terms as there are operands.
    have hempty {ts : List SmtTerm} (hts : es.mapM IntExpr.smtTerm = .ok ts) :
        ts.isEmpty = es.isEmpty := by
      rw [Bool.eq_iff_iff, List.isEmpty_iff_length_eq_zero, List.isEmpty_iff_length_eq_zero,
        length_of_mapM_eq_ok hts]
    constructor
    · rintro ⟨t, ht⟩
      obtain ⟨ts, hts, ht⟩ := bind_eq_ok.mp ht
      obtain ⟨hs, hd⟩ := (hlist ih).mp ⟨ts, hts⟩
      exact ⟨hs, hempty hts ▸ SmtTerm.exists_ofArith.mp ⟨t, ht⟩, hd⟩
    · rintro ⟨hs, hop, hd⟩
      obtain ⟨ts, hts⟩ := (hlist ih).mpr ⟨hs, hd⟩
      obtain ⟨t, ht⟩ := SmtTerm.exists_ofArith.mpr (hempty hts ▸ hop)
      exact ⟨t, bind_eq_ok.mpr ⟨ts, hts, ht⟩⟩
  case div => intro l r hl hr; exact hpair hl hr
  case lit | boolVar =>
    intro a
    simp [BoolExpr.smtTerm, BoolExpr.mentionsSymbolic, BoolExpr.mentionsEmptyDiff]
  case boolSym =>
    intro name args _
    simp [BoolExpr.smtTerm, BoolExpr.mentionsSymbolic]
  case conn =>
    intro op es ih
    simp only [BoolExpr.smtTerm, BoolExpr.smtTerms_eq, BoolExpr.mentionsSymbolic,
      BoolExpr.anySymbolic_eq, BoolExpr.mentionsEmptyDiff, BoolExpr.anyEmptyDiff_eq, ← hlist ih]
    exact hmap
  case implies | eq => intro l r hl hr; exact hpair hl hr
  case cmp => intro op l r hl hr; exact hpair hl hr
  case not =>
    intro e he
    exact hmap.trans he
  case int | bool => intro e he; exact he

/-- A backend cannot express something. -/
def Error.IsUntranslatable (e : Error) : Prop := ∃ text, e = .untranslatable text

/-- Nothing else keeps an expression from having a term. -/
theorem Expr.failsWith_smtTerm :
    (∀ e : IntExpr MarkedVar, FailsWith Error.IsUntranslatable e.smtTerm) ∧
      (∀ e : BoolExpr MarkedVar, FailsWith Error.IsUntranslatable e.smtTerm) ∧
      ∀ e : Expr MarkedVar, FailsWith Error.IsUntranslatable e.smtTerm := by
  have herror {α : Type} (text : String) :
      FailsWith Error.IsUntranslatable (.error (.untranslatable text) : Except Error α) := by
    rintro e ⟨⟩
    exact ⟨text, rfl⟩
  have hpair {x y : Except Error SmtTerm} {f : SmtTerm → SmtTerm → SmtTerm}
      (hx : FailsWith Error.IsUntranslatable x) (hy : FailsWith Error.IsUntranslatable y) :
      FailsWith Error.IsUntranslatable (do return f (← x) (← y)) :=
    hx.bind fun a => hy.bind fun b => failsWith_ok (f a b)
  apply Expr.induct
  case const | intVar | lit | boolVar => intro a; exact failsWith_ok _
  case intSym | boolSym => intro name args _; exact herror _
  case arith =>
    intro op es ih
    rw [IntExpr.smtTerm, IntExpr.smtTerms_eq]
    refine (FailsWith.mapM ih).bind fun ts => ?_
    unfold SmtTerm.ofArith
    split
    · cases op with
      | add | mul => exact failsWith_ok _
      | sub => exact herror _
    · exact failsWith_ok _
    · exact failsWith_ok _
  case div => intro l r hl hr; exact hpair hl hr
  case conn =>
    intro op es ih
    rw [BoolExpr.smtTerm, BoolExpr.smtTerms_eq]
    exact (FailsWith.mapM ih).bind fun ts => failsWith_ok _
  case implies | eq => intro l r hl hr; exact hpair hl hr
  case cmp => intro op l r hl hr; exact hpair hl hr
  case not => intro e he; exact he.bind fun t => failsWith_ok _
  case int | bool => intro e he; exact he

namespace Obligation

/-- The formulas of an obligation. -/
def parts (o : Obligation) : List Relation := [o.pre, o.cmd, o.post]

/-- The variables of an obligation. -/
def leaves (o : Obligation) : List (Leaf MarkedVar) := o.parts.flatMap BoolExpr.leaves

/-- The negated claim has a property of connectives and negations if the parts have it. -/
theorem forall_negatedClaim {P : Relation → Prop} (hlit : ∀ b, P (.lit b))
    (hconn : ∀ op es, P (.conn op es) ↔ ∀ e ∈ es, P e) (hnot : ∀ e, P (.not e) ↔ P e)
    {o : Obligation} (h : ∀ e ∈ o.parts, P e) : P o.negatedClaim := by
  have hnegate {e : Relation} (he : P e) : P e.negate := by
    unfold BoolExpr.negate
    split
    · exact hlit _
    · exact (hnot _).mp he
    · exact (hnot _).mpr he
  apply BoolExpr.forall_combine hlit (hconn .and)
  simp only [parts, List.forall_mem_cons] at h ⊢
  exact ⟨h.1, h.2.1, hnegate h.2.2.1, h.2.2.2⟩

/-- The negated claim of an obligation reads no other leaves than its formulas. -/
theorem leaves_negatedClaim_subset (o : Obligation) : o.negatedClaim.leaves ⊆ o.leaves := by
  intro leaf hleaf
  refine Classical.byContradiction fun hnot => ?_
  refine forall_negatedClaim (P := fun e => leaf ∉ e.leaves) ?_ ?_ ?_ ?_ hleaf
  · simp [BoolExpr.leaves]
  · simp [BoolExpr.leaves, BoolExpr.leavesAll_eq]
  · simp [BoolExpr.leaves]
  · simpa [leaves] using hnot

/-- The negated claim has a term if no part holds a symbolic leaf or a difference of no operands. -/
theorem exists_smtTerm_negatedClaim {o : Obligation}
    (h : ∀ e ∈ o.parts, e.mentionsSymbolic = false ∧ e.mentionsEmptyDiff = false) :
    ∃ t, BoolExpr.smtTerm o.negatedClaim = .ok t := by
  rw [Expr.exists_smtTerm.2.1]
  refine forall_negatedClaim
    (P := fun e => e.mentionsSymbolic = false ∧ e.mentionsEmptyDiff = false) ?_ ?_ ?_ h
  · simp [BoolExpr.mentionsSymbolic, BoolExpr.mentionsEmptyDiff]
  · simp [BoolExpr.mentionsSymbolic, BoolExpr.mentionsEmptyDiff, BoolExpr.anySymbolic_eq,
      BoolExpr.anyEmptyDiff_eq, forall_and]
  · simp [BoolExpr.mentionsSymbolic, BoolExpr.mentionsEmptyDiff]

end Obligation

end ViewLogic
