import ViewLogic.Command
import ViewLogic.Proofs.NormalForms

/-!
# Forgetting symbols is complete

An expression claims its parts: a conjunction claims its operands, and an implication what it
concludes. Symbolic equalities are forgotten where they are claimed, and the conjunctions above them
are built anew, which flattens them by one level. One pass is enough: what it flattens has been
passed before, so nothing that is claimed afterwards is left to forget or to flatten. Conditions of
implications are not claimed, and stay as they are.
-/

namespace ViewLogic.BoolExpr

variable {V : Type}

/-- The expressions right below the root of an expression that it claims. -/
def claims : BoolExpr V → List (BoolExpr V)
  | conn .and es => es
  | implies _ r => [r]
  | _ => []

/-- An expression is another one, or is claimed by it at whatever depth. -/
inductive ClaimedBy (part : BoolExpr V) : BoolExpr V → Prop
  | self : ClaimedBy part part
  | inside {child e : BoolExpr V} : child ∈ e.claims → ClaimedBy part child → ClaimedBy part e

/-- Nothing can be forgotten at the root of a claimed expression: it is no symbolic equality, no
conjunction that can be flattened and no implication of what is always true. -/
def Kept : BoolExpr V → Prop
  | eq l r => l.isSymbolic = false ∧ r.isSymbolic = false
  | conn .and es => (Expr.bool (conn .and es)).Compact
  | implies _ r => r ≠ lit true
  | _ => True

/-- Nothing that is claimed can be forgotten. -/
def Settled (e : BoolExpr V) : Prop := ∀ part : BoolExpr V, part.ClaimedBy e → part.Kept

/-- An expression is settled if its root and everything that it claims right below are. -/
theorem settled_iff {e : BoolExpr V} : e.Settled ↔ e.Kept ∧ ∀ child ∈ e.claims, child.Settled := by
  constructor
  · intro h
    exact ⟨h e .self, fun child hchild part hpart => h part (.inside hchild hpart)⟩
  · rintro ⟨hroot, hclaims⟩ part hpart
    cases hpart with
    | self => exact hroot
    | inside hchild hpart => exact hclaims _ hchild part hpart

/-- Of an expression that claims nothing beside itself, only the root matters. -/
theorem settled_of_claims_eq_nil {e : BoolExpr V} (hclaims : e.claims = []) (h : e.Kept) :
    e.Settled :=
  settled_iff.mpr ⟨h, by simp [hclaims]⟩

/-- A conjunction of settled expressions is settled. -/
theorem settled_all {es : List (BoolExpr V)} (hes : ∀ e ∈ es, e.Settled) : (all es).Settled :=
  forall_combine_compact (fun _ => settled_of_claims_eq_nil rfl trivial) (fun _ => settled_iff) hes

/-! ### One pass -/

/-- Nothing that is claimed is left to forget. -/
theorem settled_forgetSymbols (e : BoolExpr V) : e.forgetSymbols.Settled := by
  induction e using BoolExpr.induct with
  | lit | var | sym | cmp | not => exact settled_of_claims_eq_nil rfl trivial
  | conn op es ih =>
    cases op with
    | or => exact settled_of_claims_eq_nil rfl trivial
    | and =>
      rw [forgetSymbols, forgetSymbolsAll_eq]
      exact settled_all (List.forall_mem_map.mpr ih)
  | implies l r _ ihr =>
    rw [forgetSymbols]
    split
    next => exact settled_of_claims_eq_nil rfl trivial
    next hr => exact settled_iff.mpr ⟨hr, by simpa [claims] using ihr⟩
  | eq l r =>
    rw [forgetSymbols]
    split
    next => exact settled_of_claims_eq_nil rfl trivial
    next hsymbolic => exact settled_of_claims_eq_nil rfl (by simpa [Kept] using hsymbolic)

/-- An expression with nothing to forget is left as it is. -/
theorem forgetSymbols_of_settled (e : BoolExpr V) : e.Settled → e.forgetSymbols = e := by
  induction e using BoolExpr.induct with
  | lit | var | sym | cmp | not => exact fun _ => rfl
  | conn op es ih =>
    intro h
    cases op with
    | or => rfl
    | and =>
      obtain ⟨hroot, hes⟩ := settled_iff.mp h
      have hmap : es.map forgetSymbols = es := by
        rw [List.map_congr_left fun e he => ih e he (hes e he), List.map_id']
      rw [forgetSymbols, forgetSymbolsAll_eq, hmap]
      exact combine_eq_self hroot
  | implies l r _ ihr =>
    intro h
    obtain ⟨hroot, hclaims⟩ := settled_iff.mp h
    rw [forgetSymbols, ihr (hclaims r (List.mem_singleton_self r))]
    split
    next => exact absurd rfl hroot
    next => rfl
  | eq l r =>
    intro h
    obtain ⟨⟨hl, hr⟩, -⟩ := settled_iff.mp h
    simp [forgetSymbols, hl, hr]

/-! ### Conditions of implications -/

/-- An expression that claims nothing below its root claims itself only. -/
theorem ClaimedBy.eq_of_claims_eq_nil {part e : BoolExpr V} (h : part.ClaimedBy e)
    (hclaims : e.claims = []) : part = e := by
  cases h with
  | self => rfl
  | inside hchild _ =>
    rw [hclaims] at hchild
    cases hchild

/-- What a conjunction claims beside conjunctions and literals, one of its operands claims. -/
theorem ClaimedBy.of_all {part : BoolExpr V} {es : List (BoolExpr V)} (h : part.ClaimedBy (all es))
    (hlit : ∀ b, part ≠ lit b) (hconn : ∀ fs, part ≠ conn .and fs) :
    ∃ e ∈ es, part.ClaimedBy e := by
  refine Classical.byContradiction fun hnot => ?_
  refine forall_combine (P := fun e => ¬part.ClaimedBy e) ?_ ?_ ?_ h
  · intro b hpart
    exact hlit b (hpart.eq_of_claims_eq_nil rfl)
  · intro fs
    constructor
    · intro hfs f hf hpart
      exact hfs (.inside hf hpart)
    · intro hfs hpart
      cases hpart with
      | self => exact hconn fs rfl
      | inside hf hpart => exact hfs _ hf hpart
  · intro e he hpart
    exact hnot ⟨e, he, hpart⟩

/-- An implication that is claimed in the end was claimed before with the same condition, and it
concludes what is left of its conclusion. -/
theorem exists_implies_of_forgetSymbols {l r : BoolExpr V} (e : BoolExpr V) :
    (implies l r).ClaimedBy e.forgetSymbols →
      ∃ r', (implies l r').ClaimedBy e ∧ r'.forgetSymbols = r := by
  induction e using BoolExpr.induct with
  | lit | var | sym | cmp | not =>
    intro h
    cases h.eq_of_claims_eq_nil rfl
  | conn op es ih =>
    intro h
    cases op with
    | or => cases h.eq_of_claims_eq_nil rfl
    | and =>
      rw [forgetSymbols, forgetSymbolsAll_eq] at h
      obtain ⟨_, hmem, hpart⟩ := h.of_all (by simp) (by simp)
      obtain ⟨e, he, rfl⟩ := List.mem_map.mp hmem
      obtain ⟨r', hr', heq⟩ := ih e he hpart
      exact ⟨r', .inside he hr', heq⟩
  | implies l' r' _ ihr =>
    intro h
    rw [forgetSymbols] at h
    split at h
    next => cases h.eq_of_claims_eq_nil rfl
    next =>
      cases h with
      | self => exact ⟨r', .self, rfl⟩
      | inside hchild hpart =>
        obtain rfl := List.mem_singleton.mp hchild
        obtain ⟨r'', hr'', heq⟩ := ihr hpart
        exact ⟨r'', .inside (List.mem_singleton_self r') hr'', heq⟩
  | eq l' r' =>
    intro h
    rw [forgetSymbols] at h
    split at h
    all_goals cases h.eq_of_claims_eq_nil rfl

/-- Forgetting symbols is complete and changes nothing the second time. No symbolic equality is
claimed afterwards, through conjunctions and conclusions of implications. The implications that are
claimed afterwards were claimed before, with the same conditions and with symbols forgotten in their
conclusions. The expressions that are left as they are, are exactly those in which nothing that is
claimed can be forgotten. -/
theorem forgetSymbols_complete (e : BoolExpr V) :
    e.forgetSymbols.forgetSymbols = e.forgetSymbols ∧
      (∀ l r, (eq l r).ClaimedBy e.forgetSymbols → l.isSymbolic = false ∧ r.isSymbolic = false) ∧
      (∀ l r, (implies l r).ClaimedBy e.forgetSymbols →
        ∃ r', (implies l r').ClaimedBy e ∧ r'.forgetSymbols = r) ∧
      (e.forgetSymbols = e ↔ e.Settled) := by
  refine ⟨?_, ?_, ?_, ?_⟩
  · exact forgetSymbols_of_settled _ (settled_forgetSymbols e)
  · intro l r h
    exact settled_forgetSymbols e (eq l r) h
  · intro l r
    exact exists_implies_of_forgetSymbols e
  · constructor
    · intro h
      rw [← h]
      exact settled_forgetSymbols e
    · exact forgetSymbols_of_settled e

/-- In `(s() == x && true) && (s() == x => (y == x) && x == s()) && (p => s() == y) && q`, with one
conjunction of a single operand, the nested conjunctions and the last implication go. The condition
`s() == x` stays, before a conclusion that has become a single equality. -/
theorem forgetSymbols_complete_nested :
    let x : Expr Var := .int (.var "x")
    let y : Expr Var := .int (.var "y")
    let s : Expr Var := .int (.sym "s" [])
    let inner : BoolExpr Var := conn .and [conn .and [eq y x], eq x s]
    let e : BoolExpr Var :=
      conn .and [conn .and [eq s x, lit true], implies (eq s x) inner,
        implies (var "p") (eq s y), var "q"]
    let left : BoolExpr Var := conn .and [implies (eq s x) (eq y x), var "q"]
    e.forgetSymbols = left ∧ left.forgetSymbols = left ∧ left.Settled ∧ ¬e.Settled ∧
      (eq y x).ClaimedBy left ∧ y.isSymbolic = false ∧ x.isSymbolic = false ∧
      (implies (eq s x) (eq y x)).ClaimedBy left ∧
      ∃ r, (implies (eq s x) r).ClaimedBy e ∧ r.forgetSymbols = eq y x := by
  intro x y s inner e left
  obtain ⟨hfixed, hsymbolic, hcondition, hsettled⟩ := forgetSymbols_complete e
  have hleft : e.forgetSymbols = left := by decide +kernel
  rw [hleft] at hfixed hsymbolic hcondition hsettled
  have hchild : implies (eq s x) (eq y x) ∈ left.claims := List.mem_cons_self
  have himplies : (implies (eq s x) (eq y x)).ClaimedBy left := .inside hchild .self
  have hequality : (eq y x).ClaimedBy left :=
    .inside hchild (.inside (List.mem_singleton_self _) .self)
  obtain ⟨hy, hx⟩ := hsymbolic y x hequality
  refine ⟨hleft, hfixed, ?_, ?_, hequality, hy, hx, himplies, hcondition _ _ himplies⟩
  · exact (forgetSymbols_complete left).2.2.2.mp hfixed
  · intro h
    exact absurd (hsettled.mpr h) (by decide +kernel)

end ViewLogic.BoolExpr
