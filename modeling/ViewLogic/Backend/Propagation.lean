import ViewLogic.Backend
import ViewLogic.Distinct
import ViewLogic.Expr.Simplify

/-!
# Constant propagation

Decides a formula by eliminating variables: a conjunct that fixes a variable is used to replace the
variable everywhere, and constants are folded, until no conjunct fixes a variable. Every round
removes a variable and brings in none (`Binding.distinctCount_lt`), so the rounds come to an end.
The formula is decided if a literal is left.
-/

namespace ViewLogic

/-- The conjuncts of a formula. -/
def BoolExpr.conjuncts {V : Type} : BoolExpr V → List (BoolExpr V)
  | conn .and es => es
  | e => [e]

/-- A variable with the value that a conjunct gives it. -/
inductive Binding where
  | int (x : MarkedVar) (value : IntExpr MarkedVar)
  | bool (x : MarkedVar) (value : BoolExpr MarkedVar)

namespace Binding

/-- The leaf that a binding replaces. -/
def leaf : Binding → Leaf MarkedVar
  | int x _ => ⟨.int, x⟩
  | bool x _ => ⟨.bool, x⟩

/-- The variables of the value. -/
def valueLeaves : Binding → List (Leaf MarkedVar)
  | int _ value => value.leaves
  | bool _ value => value.leaves

/-- Puts the value in place of the variable, where it is read at the type of the value. -/
def subst : Binding → Subst MarkedVar MarkedVar
  | int x value => ⟨fun v => if v = x then value else .var v, .var⟩
  | bool x value => ⟨.var, fun v => if v = x then value else .var v⟩

/-- The value that an equality gives to a variable on its left side. The right side may hold no
symbolic leaf, and the variable at no type. -/
def ofEq? : Expr MarkedVar → Expr MarkedVar → Option Binding
  | .int (.var x), r@(.int value) =>
    if r.mentionsSymbolic || r.leaves.any (·.var = x) then none else some (int x value)
  | .bool (.var x), r@(.bool value) =>
    if r.mentionsSymbolic || r.leaves.any (·.var = x) then none else some (bool x value)
  | _, _ => none

/-- The value that a conjunct gives to a variable. -/
def ofConjunct? : Relation → Option Binding
  | .var x => some (bool x (.lit true))
  | .not (.var x) => some (bool x (.lit false))
  | .eq l r => (ofEq? l r).or (ofEq? r l)
  | _ => none

/-- The first value that a conjunct of a formula gives to a variable. -/
def find? (e : Relation) : Option Binding := e.conjuncts.findSome? ofConjunct?

/-! ### What a binding reads -/

/-- The variable and the value of a binding are read in a list of leaves, and the value does not
read the variable. -/
def ReadIn (b : Binding) (leaves : List (Leaf MarkedVar)) : Prop :=
  b.leaf ∈ leaves ∧ ∀ leaf ∈ b.valueLeaves, leaf ∈ leaves ∧ leaf.var ≠ b.leaf.var

/-- A binding that is read in some leaves is read in any leaves that hold them. -/
theorem ReadIn.mono {b : Binding} {leaves leaves' : List (Leaf MarkedVar)} (h : b.ReadIn leaves)
    (hsub : ∀ leaf ∈ leaves, leaf ∈ leaves') : b.ReadIn leaves' :=
  ⟨hsub _ h.1, fun leaf hleaf => ⟨hsub leaf (h.2 leaf hleaf).1, (h.2 leaf hleaf).2⟩⟩

/-- The binding of an equality is read in its two sides. -/
theorem readIn_of_ofEq? {l r : Expr MarkedVar} {b : Binding} (h : ofEq? l r = some b) :
    b.ReadIn (l.leaves ++ r.leaves) := by
  have hread {x : MarkedVar} {r : Expr MarkedVar}
      (hocc : ¬(r.mentionsSymbolic || r.leaves.any (·.var = x)) = true) :
      ∀ leaf ∈ r.leaves, leaf.var ≠ x := by
    simp only [Bool.or_eq_true, List.any_eq_true, decide_eq_true_eq, not_or, not_exists,
      not_and] at hocc
    exact hocc.2
  unfold ofEq? at h
  split at h
  · split at h
    · cases h
    next hocc =>
      cases h
      exact ⟨by simp [leaf, Expr.leaves, IntExpr.leaves], fun l hl =>
        ⟨List.mem_append_right _ hl, hread hocc l hl⟩⟩
  · split at h
    · cases h
    next hocc =>
      cases h
      exact ⟨by simp [leaf, Expr.leaves, BoolExpr.leaves], fun l hl =>
        ⟨List.mem_append_right _ hl, hread hocc l hl⟩⟩
  · cases h

/-- The binding of a conjunct is read in the conjunct. -/
theorem readIn_of_ofConjunct? {c : Relation} {b : Binding} (h : ofConjunct? c = some b) :
    b.ReadIn c.leaves := by
  unfold ofConjunct? at h
  split at h
  · cases h
    simp [ReadIn, leaf, valueLeaves, BoolExpr.leaves]
  · cases h
    simp [ReadIn, leaf, valueLeaves, BoolExpr.leaves]
  next l r =>
    obtain h | ⟨-, h⟩ := Option.or_eq_some_iff.mp h
    · exact readIn_of_ofEq? h
    · exact (readIn_of_ofEq? h).mono fun leaf hleaf => by
        simpa [BoolExpr.leaves, or_comm] using hleaf
  · cases h

/-- The conjuncts of an expression read no other leaves than it does. -/
theorem leaves_conjunct_subset {V : Type} {e c : BoolExpr V} (hc : c ∈ e.conjuncts) :
    ∀ leaf ∈ c.leaves, leaf ∈ e.leaves := by
  intro leaf hleaf
  unfold BoolExpr.conjuncts at hc
  split at hc
  · simp only [BoolExpr.leaves, BoolExpr.leavesAll_eq, List.mem_flatMap]
    exact ⟨c, hc, hleaf⟩
  · simp only [List.mem_singleton] at hc
    rwa [← hc]

/-- The binding that a round uses is read in the formula, so that the round removes a leaf. -/
theorem readIn_of_find? {e : Relation} {b : Binding} (h : find? e = some b) :
    b.ReadIn e.leaves := by
  obtain ⟨c, hc, hcb⟩ := List.exists_of_findSome?_eq_some h
  exact (readIn_of_ofConjunct? hcb).mono (leaves_conjunct_subset hc)

/-- Replacing the variable of a binding leaves it nowhere and brings in no other leaf. -/
theorem mem_leaves_subst {e : Relation} {b : Binding} (h : b.ReadIn e.leaves)
    {leaf : Leaf MarkedVar} (hleaf : leaf ∈ (BoolExpr.subst b.subst e).leaves) :
    leaf ∈ e.leaves ∧ leaf ≠ b.leaf := by
  rw [(Expr.leaves_subst b.subst).2.1 e, List.mem_flatMap] at hleaf
  obtain ⟨⟨ty, v⟩, hmem, himage⟩ := hleaf
  have hvalue (hleaf : leaf ∈ b.valueLeaves) : leaf ∈ e.leaves ∧ leaf ≠ b.leaf := by
    refine ⟨(h.2 leaf hleaf).1, ?_⟩
    rintro rfl
    exact (h.2 _ hleaf).2 rfl
  cases b with
  | int x value =>
    cases ty with
    | int =>
      simp only [Subst.imageLeaves, subst] at himage
      split at himage
      · exact hvalue himage
      next hne =>
        simp only [IntExpr.leaves, List.mem_singleton] at himage
        subst himage
        exact ⟨hmem, by simpa [Binding.leaf] using hne⟩
    | bool =>
      simp only [Subst.imageLeaves, subst, BoolExpr.leaves, List.mem_singleton] at himage
      subst himage
      exact ⟨hmem, by simp [Binding.leaf]⟩
  | bool x value =>
    cases ty with
    | int =>
      simp only [Subst.imageLeaves, subst, IntExpr.leaves, List.mem_singleton] at himage
      subst himage
      exact ⟨hmem, by simp [Binding.leaf]⟩
    | bool =>
      simp only [Subst.imageLeaves, subst] at himage
      split at himage
      · exact hvalue himage
      next hne =>
        simp only [BoolExpr.leaves, List.mem_singleton] at himage
        subst himage
        exact ⟨hmem, by simpa [Binding.leaf] using hne⟩

/-- The formula after a round: the variable of a binding replaced, and constants folded. -/
def eliminated (b : Binding) (e : Relation) : Relation := (BoolExpr.subst b.subst e).simplify

/-- A round leaves the variable of its binding nowhere and brings in no other leaf. -/
theorem mem_leaves_eliminated {e : Relation} {b : Binding} (h : find? e = some b)
    {leaf : Leaf MarkedVar} (hleaf : leaf ∈ (b.eliminated e).leaves) :
    leaf ∈ e.leaves ∧ leaf ≠ b.leaf :=
  mem_leaves_subst (readIn_of_find? h) ((Expr.leaves_simplify_subset leaf).2.1 _ hleaf)

/-- A round leaves fewer different leaves. -/
theorem distinctCount_lt {e : Relation} {b : Binding} (h : find? e = some b) :
    distinctCount (b.eliminated e).leaves < distinctCount e.leaves :=
  distinctCount_lt_of_subset (fun _ hleaf => (mem_leaves_eliminated h hleaf).1)
    (readIn_of_find? h).1 fun hleaf => (mem_leaves_eliminated h hleaf).2 rfl

end Binding

namespace Relation

/-- Eliminates variables until no conjunct fixes one. -/
def propagate (e : Relation) : Relation :=
  match _h : Binding.find? e with
  | none => e
  | some b => propagate (b.eliminated e)
termination_by distinctCount e.leaves
decreasing_by exact Binding.distinctCount_lt _h

/-- Folds the constants of a formula, then eliminates variables. -/
def eliminate (e : Relation) : Relation := propagate e.simplify

/-- The verdict on a formula, where a literal is left of it. -/
def verdict (e : Relation) : Verdict :=
  match e.eliminate with
  | .lit true => .sat
  | .lit false => .unsat
  | _ => .unknown "not decided by constant propagation"

end Relation

namespace Backend

/-- The backend that eliminates variables by constant propagation. -/
def propagation : Backend Relation where
  name := "builtin"
  translate := .ok
  conjoin := .all
  negate := .negate
  check e := .ok e.verdict

end Backend

end ViewLogic
